/-
# Nested tables

Tables of values and of further tables, with their entries in the order of
their keys. One table is laid over another key by key, tables under one key
are laid over each other in the same way, and anything else replaces what
stood there. What differs between two tables is a table as well: with nothing
taken away, it gives the second when it is laid over the first.

Everything is said through what a key holds: `get_merge` and `get_diff` say
what laying over and comparing do to one key, and two tables with the same
under every key are equal.

Key definitions: `Nested`, `Nested.Ordered`, `Nested.merge`, `Nested.diff`,
`Nested.follow`, `Nested.Kept`.
Key theorems: `Nested.ext_get`, `Nested.get_merge`, `Nested.get_diff`,
`Nested.merge_diff`, `Nested.follow_changed`.
-/
import Mathlib.Order.Basic
import Mathlib.Tactic

/-- A table: its entries from the first key to the last, each a value or a table. -/
inductive Nested (κ α : Type*)
  | nil
  | leaf (k : κ) (a : α) (rest : Nested κ α)
  | sub (k : κ) (t rest : Nested κ α)
deriving DecidableEq

namespace Nested

variable {κ α : Type*}

/-- What a key holds. -/
inductive Node (κ α : Type*)
  | leaf (a : α)
  | table (t : Nested κ α)
deriving DecidableEq

/-- A table with one more entry in front. -/
def cons (k : κ) : Node κ α → Nested κ α → Nested κ α
  | .leaf a, rest => .leaf k a rest
  | .table t, rest => .sub k t rest

/-- Induction on the entries, with what is known of a table that stands as an entry. -/
@[elab_as_elim]
theorem consRec {motive : Nested κ α → Prop} (nil : motive .nil)
    (cons : ∀ k n rest, (∀ t, n = .table t → motive t) → motive rest → motive (cons k n rest)) : ∀ t, motive t
  | .nil => nil
  | .leaf k a rest => by
    refine cons k (.leaf a) rest (fun u h => ?_) (consRec nil cons rest)
    cases h
  | .sub k t rest => by
    refine cons k (.table t) rest (fun u h => ?_) (consRec nil cons rest)
    cases h
    exact consRec nil cons t

/-- No entries. -/
def isEmpty : Nested κ α → Bool
  | .nil => true
  | .leaf .. => false
  | .sub .. => false

theorem isEmpty_iff {t : Nested κ α} : t.isEmpty = true ↔ t = .nil := by
  cases t <;> simp [isEmpty]

def keys : Nested κ α → List κ
  | .nil => []
  | .leaf k _ rest => k :: rest.keys
  | .sub k _ rest => k :: rest.keys

/-- Every value satisfies `p`, here and in every table below. -/
def all (p : α → Bool) : Nested κ α → Bool
  | .nil => true
  | .leaf _ a rest => p a && rest.all p
  | .sub _ t rest => t.all p && rest.all p

def Node.all (p : α → Bool) : Node κ α → Bool
  | .leaf a => p a
  | .table t => t.all p

@[simp] theorem all_cons (p : α → Bool) (k : κ) (n : Node κ α) (rest : Nested κ α) :
    (cons k n rest).all p = (n.all p && rest.all p) := by
  cases n <;> rfl

@[simp] theorem keys_cons (k : κ) (n : Node κ α) (rest : Nested κ α) : (cons k n rest).keys = k :: rest.keys := by
  cases n <;> rfl

/-! ### Looking up -/

section Get

variable [DecidableEq κ]

/-- What stands under a key. -/
def get (k : κ) : Nested κ α → Option (Node κ α)
  | .nil => none
  | .leaf k' a rest => if k' = k then some (.leaf a) else rest.get k
  | .sub k' t rest => if k' = k then some (.table t) else rest.get k

@[simp] theorem get_nil (k : κ) : (nil : Nested κ α).get k = none := rfl

@[simp] theorem get_cons (k k' : κ) (n : Node κ α) (rest : Nested κ α) :
    (cons k' n rest).get k = if k' = k then some n else rest.get k := by
  cases n <;> rfl

theorem mem_keys {k : κ} {t : Nested κ α} : k ∈ t.keys ↔ t.get k ≠ none := by
  induction t using consRec with
  | nil => simp [keys]
  | cons k' n rest _ ih =>
    by_cases h : k' = k
    · simp [h]
    · simp [h, Ne.symm h, ih]

theorem get_of_notMem {k : κ} {t : Nested κ α} (h : k ∉ t.keys) : t.get k = none := by
  by_contra hne
  exact h (mem_keys.mpr hne)

/-- Induction on what the keys hold. -/
@[elab_as_elim]
theorem getRec {motive : Nested κ α → Prop}
    (step : ∀ t, (∀ k u, t.get k = some (.table u) → motive u) → motive t) (t : Nested κ α) : motive t := by
  refine step t ?_
  induction t using consRec with
  | nil => simp
  | cons k' n rest ihn ih =>
    intro k u hu
    rw [get_cons] at hu
    split at hu
    · have hn : n = .table u := Option.some.inj hu
      exact step u (ihn u hn)
    · exact ih k u hu

/-- What stands at the end of a path of keys. -/
def follow : List κ → Option (Node κ α) → Option (Node κ α)
  | [], x => x
  | k :: p, some (.table t) => follow p (t.get k)
  | _ :: _, some (.leaf _) => none
  | _ :: _, none => none

/-- Every path of keys that leads somewhere in the first leads somewhere in the second. -/
def Kept (x y : Option (Node κ α)) : Prop := ∀ p, follow p x ≠ none → follow p y ≠ none

theorem Kept.none {x y : Option (Node κ α)} (h : Kept x y) (hy : y = .none) : x = .none := by
  by_contra hx
  exact h [] hx hy

theorem Kept.get {b c : Nested κ α} (h : Kept (some (.table b)) (some (.table c))) (k : κ) :
    Kept (b.get k) (c.get k) :=
  fun p hp => h (k :: p) hp

theorem kept_leaf (a b : α) : Kept (some (.leaf a : Node κ α)) (some (.leaf b)) := by
  intro p hp
  cases p with
  | nil => simp [follow]
  | cons k p => exact absurd rfl hp

end Get

/-! ### Order -/

section Order

variable [LinearOrder κ]

/-- The keys rise, here and in every table below. -/
def Ordered : Nested κ α → Prop
  | .nil => True
  | .leaf k _ rest => (∀ k' ∈ rest.keys, k < k') ∧ rest.Ordered
  | .sub k t rest => t.Ordered ∧ (∀ k' ∈ rest.keys, k < k') ∧ rest.Ordered

instance decidableOrdered : (t : Nested κ α) → Decidable t.Ordered
  | .nil => isTrue trivial
  | .leaf k _ rest =>
    have := decidableOrdered rest
    inferInstanceAs (Decidable ((∀ k' ∈ rest.keys, k < k') ∧ rest.Ordered))
  | .sub k t rest =>
    have := decidableOrdered t
    have := decidableOrdered rest
    inferInstanceAs (Decidable (t.Ordered ∧ (∀ k' ∈ rest.keys, k < k') ∧ rest.Ordered))

/-- The table a key may hold is ordered. -/
def Node.Ordered : Node κ α → Prop
  | .leaf _ => True
  | .table t => t.Ordered

@[simp] theorem ordered_cons (k : κ) (n : Node κ α) (rest : Nested κ α) :
    (cons k n rest).Ordered ↔ n.Ordered ∧ (∀ k' ∈ rest.keys, k < k') ∧ rest.Ordered := by
  cases n with
  | leaf a => simp [cons, Nested.Ordered, Node.Ordered]
  | table t => exact Iff.rfl

theorem Ordered.get {t : Nested κ α} (h : t.Ordered) {k : κ} {n : Node κ α} (hn : t.get k = some n) : n.Ordered := by
  induction t using consRec with
  | nil => simp at hn
  | cons k' m rest _ ih =>
    obtain ⟨hm, -, hrest⟩ := (ordered_cons k' m rest).mp h
    rw [get_cons] at hn
    split at hn
    · exact Option.some.inj hn ▸ hm
    · exact ih hrest hn

/-- The first key stands nowhere else. -/
theorem Ordered.head {k : κ} {n : Node κ α} {rest : Nested κ α} (h : (cons k n rest).Ordered) : rest.get k = none :=
  get_of_notMem fun hm => lt_irrefl k (((ordered_cons k n rest).mp h).2.1 k hm)

/-- **A table is what its keys hold.** -/
theorem ext_get {s t : Nested κ α} (hs : s.Ordered) (ht : t.Ordered) (h : ∀ k, s.get k = t.get k) : s = t := by
  induction s using consRec generalizing t with
  | nil =>
    induction t using consRec with
    | nil => rfl
    | cons k n rest => simpa using h k
  | cons k n rest _ ih =>
    induction t using consRec with
    | nil => simpa using h k
    | cons k' n' rest' =>
      have hs' := (ordered_cons k n rest).mp hs
      have ht' := (ordered_cons k' n' rest').mp ht
      have hk : k = k' := by
        by_contra hne
        -- the smaller of the two first keys stands nowhere in the other table
        rcases lt_or_gt_of_ne hne with hlt | hlt
        · have := h k
          rw [get_cons, if_pos rfl, get_cons, if_neg (Ne.symm hne)] at this
          exact absurd (ht'.2.1 k (mem_keys.mpr (by simp [← this]))) (lt_asymm hlt)
        · have := h k'
          rw [get_cons, if_neg hne, get_cons, if_pos rfl] at this
          exact absurd (hs'.2.1 k' (mem_keys.mpr (by simp [this]))) (lt_asymm hlt)
      subst hk
      have hn : n = n' := by simpa using h k
      have hrest : rest = rest' := ih hs'.2.2 ht'.2.2 fun j => by
        by_cases hj : k = j
        · subst hj
          rw [hs.head, ht.head]
        · simpa [hj] using h j
      rw [hn, hrest]

/-! ### Putting in and taking out -/

/-- `BTreeMap::insert`: the entry takes its place among the keys, or that of the one with its key. -/
def insert (k : κ) (n : Node κ α) : Nested κ α → Nested κ α
  | .nil => cons k n .nil
  | .leaf k' a rest =>
    if k = k' then cons k n rest
    else if k < k' then cons k n (.leaf k' a rest)
    else .leaf k' a (rest.insert k n)
  | .sub k' t rest =>
    if k = k' then cons k n rest
    else if k < k' then cons k n (.sub k' t rest)
    else .sub k' t (rest.insert k n)

theorem insert_cons (k k' : κ) (n n' : Node κ α) (rest : Nested κ α) :
    (cons k' n' rest).insert k n =
      if k = k' then cons k n rest
      else if k < k' then cons k n (cons k' n' rest)
      else cons k' n' (rest.insert k n) := by
  cases n' <;> rfl

@[simp] theorem get_insert (k k' : κ) (n : Node κ α) (t : Nested κ α) :
    (t.insert k n).get k' = if k = k' then some n else t.get k' := by
  induction t using consRec with
  | nil => simp [insert]
  | cons j m rest _ ih =>
    rw [insert_cons]
    by_cases hk : k = k'
    · subst hk
      rw [if_pos rfl]
      by_cases hj : k = j
      · rw [if_pos hj, get_cons, if_pos rfl]
      · rw [if_neg hj]
        split
        · rw [get_cons, if_pos rfl]
        · rw [get_cons, if_neg (Ne.symm hj), ih, if_pos rfl]
    · rw [if_neg hk]
      by_cases hj : k = j
      · rw [if_pos hj, get_cons, get_cons, if_neg hk, if_neg (hj ▸ hk)]
      · rw [if_neg hj]
        split
        · rw [get_cons, if_neg hk]
        · rw [get_cons, get_cons, ih, if_neg hk]

theorem mem_keys_insert {k k' : κ} {n : Node κ α} {t : Nested κ α} :
    k' ∈ (t.insert k n).keys ↔ k = k' ∨ k' ∈ t.keys := by
  rw [mem_keys, mem_keys, get_insert]
  split <;> simp_all

theorem all_insert {p : α → Bool} {t : Nested κ α} {k : κ} {n : Node κ α} (ht : t.all p = true) (hn : n.all p = true) :
    (t.insert k n).all p = true := by
  induction t using consRec with
  | nil => simp [insert, hn, all]
  | cons j m rest _ ih =>
    have h : m.all p = true ∧ rest.all p = true := by simpa using ht
    rw [insert_cons]
    split_ifs
    · simp [hn, h.2]
    · simp [hn, h]
    · simp [h.1, ih h.2]

theorem Ordered.insert {t : Nested κ α} (h : t.Ordered) {k : κ} {n : Node κ α} (hn : n.Ordered) :
    (t.insert k n).Ordered := by
  induction t using consRec with
  | nil => simp [Nested.insert, hn, keys, Nested.Ordered]
  | cons j m rest _ ih =>
    obtain ⟨hm, hlt, hrest⟩ := (ordered_cons j m rest).mp h
    rw [insert_cons]
    split_ifs with h1 h2
    · exact (ordered_cons ..).mpr ⟨hn, h1 ▸ hlt, hrest⟩
    · refine (ordered_cons ..).mpr ⟨hn, fun i hi => ?_, h⟩
      rcases List.mem_cons.mp (keys_cons j m rest ▸ hi) with rfl | hi
      · exact h2
      · exact h2.trans (hlt i hi)
    · refine (ordered_cons ..).mpr ⟨hm, fun i hi => ?_, ih hrest⟩
      rcases mem_keys_insert.mp hi with rfl | hi
      · exact lt_of_le_of_ne (not_lt.mp h2) (Ne.symm h1)
      · exact hlt i hi

/-- What is put in keeps every path that what stood there had. -/
theorem Kept.insert {t : Nested κ α} {k : κ} {n : Node κ α} (h : Kept (t.get k) (some n)) :
    Kept (some (.table t)) (some (.table (t.insert k n))) := by
  intro p hp
  cases p with
  | nil => simp [follow]
  | cons j p =>
    rw [follow] at hp ⊢
    rw [get_insert]
    split
    · rename_i hk
      exact h p (hk ▸ hp)
    · exact hp

/-- Putting in what is there changes nothing. -/
theorem insert_get {t : Nested κ α} (h : t.Ordered) {k : κ} {n : Node κ α} (hn : t.get k = some n) : t.insert k n = t :=
  ext_get (h.insert (h.get hn)) h fun k' => by
    rw [get_insert]
    split
    · rename_i hk
      rw [← hk, hn]
    · rfl

/-- `BTreeMap::remove`, and what is left. -/
def remove (k : κ) : Nested κ α → Nested κ α
  | .nil => .nil
  | .leaf k' a rest => if k' = k then rest else .leaf k' a (rest.remove k)
  | .sub k' t rest => if k' = k then rest else .sub k' t (rest.remove k)

theorem remove_cons (k k' : κ) (n : Node κ α) (rest : Nested κ α) :
    (cons k' n rest).remove k = if k' = k then rest else cons k' n (rest.remove k) := by
  cases n <;> rfl

theorem remove_of_get {k : κ} {t : Nested κ α} (h : t.get k = none) : t.remove k = t := by
  induction t using consRec with
  | nil => rfl
  | cons k' n rest _ ih =>
    rw [get_cons] at h
    split at h
    · cases h
    · rename_i hk
      rw [remove_cons, if_neg hk, ih h]

theorem get_remove {t : Nested κ α} (h : t.Ordered) (k k' : κ) :
    (t.remove k).get k' = if k = k' then none else t.get k' := by
  induction t using consRec with
  | nil => simp [remove]
  | cons j n rest _ ih =>
    have hrest := ((ordered_cons j n rest).mp h).2.2
    rw [remove_cons]
    by_cases hj : j = k
    · subst hj
      rw [if_pos rfl, get_cons]
      by_cases hk : j = k'
      · rw [if_pos hk, ← hk, h.head]
      · rw [if_neg hk, if_neg hk]
    · rw [if_neg hj, get_cons, get_cons, ih hrest]
      by_cases hk : j = k'
      · rw [if_pos hk, if_neg (fun e => hj (hk.trans e.symm)), if_pos hk]
      · rw [if_neg hk, if_neg hk]

theorem Ordered.remove {t : Nested κ α} (h : t.Ordered) (k : κ) : (t.remove k).Ordered := by
  induction t using consRec with
  | nil => exact h
  | cons j n rest _ ih =>
    obtain ⟨hn, hlt, hrest⟩ := (ordered_cons j n rest).mp h
    rw [remove_cons]
    split
    · exact hrest
    · refine (ordered_cons ..).mpr ⟨hn, fun i hi => hlt i ?_, ih hrest⟩
      rw [mem_keys, get_remove hrest] at hi
      rw [mem_keys]
      split at hi
      · exact absurd rfl hi
      · exact hi

/-! ### Laying one table over another -/

/-- Tables merge key by key; anything else replaces. -/
def merge (dst : Nested κ α) : Nested κ α → Nested κ α
  | .nil => dst
  | .leaf k a rest => (dst.insert k (.leaf a)).merge rest
  | .sub k t rest =>
    match dst.get k with
    | some (.table d) => (dst.insert k (.table (d.merge t))).merge rest
    | _ => (dst.insert k (.table t)).merge rest

/-- What stands under a key after something is laid over it. -/
def laid : Option (Node κ α) → Option (Node κ α) → Option (Node κ α)
  | x, none => x
  | some (.table d), some (.table t) => some (.table (d.merge t))
  | _, some n => some n

@[simp] theorem laid_none (x : Option (Node κ α)) : laid x none = x := by
  cases x with
  | none => rfl
  | some n => cases n <;> rfl

@[simp] theorem none_laid (y : Option (Node κ α)) : laid none y = y := by
  cases y with
  | none => rfl
  | some n => cases n <;> rfl

@[simp] theorem laid_leaf (x : Option (Node κ α)) (a : α) : laid x (some (.leaf a)) = some (.leaf a) := by
  cases x with
  | none => rfl
  | some n => cases n <;> rfl

@[simp] theorem leaf_laid (a : α) (n : Node κ α) : laid (some (.leaf a)) (some n) = some n := by
  cases n <;> rfl

@[simp] theorem table_laid (d t : Nested κ α) :
    laid (some (.table d)) (some (.table t)) = some (.table (d.merge t)) := rfl

/-- What is laid over a key stands there afterwards, unless both are tables. -/
theorem laid_cases {x : Option (Node κ α)} {n m : Node κ α} (h : laid x (some n) = some m) :
    m = n ∨ ∃ d t, x = some (.table d) ∧ n = .table t ∧ m = .table (d.merge t) := by
  rcases x with _ | x
  · exact .inl (Option.some.inj ((none_laid _).symm.trans h)).symm
  · cases x with
    | leaf a => exact .inl (Option.some.inj ((leaf_laid a n).symm.trans h)).symm
    | table d =>
      cases n with
      | leaf a => exact .inl (Option.some.inj ((laid_leaf _ a).symm.trans h)).symm
      | table t => exact .inr ⟨d, t, rfl, rfl, (Option.some.inj h).symm⟩

theorem merge_cons (dst : Nested κ α) (k : κ) (n : Node κ α) (rest : Nested κ α) :
    ∃ m, laid (dst.get k) (some n) = some m ∧ dst.merge (cons k n rest) = (dst.insert k m).merge rest := by
  cases n with
  | leaf a => exact ⟨.leaf a, laid_leaf .., rfl⟩
  | table t =>
    rw [cons, merge]
    split
    · rename_i d hd
      exact ⟨.table (d.merge t), by rw [hd, table_laid], rfl⟩
    · rename_i hd
      refine ⟨.table t, ?_, rfl⟩
      rcases h : dst.get k with _ | m
      · rfl
      · cases m with
        | leaf a => rfl
        | table d => exact absurd h (hd d)

@[simp] theorem merge_nil (dst : Nested κ α) : dst.merge .nil = dst := rfl

/-- **Laying over is done key by key.** -/
theorem get_merge {src : Nested κ α} (h : src.Ordered) (dst : Nested κ α) (k : κ) :
    (dst.merge src).get k = laid (dst.get k) (src.get k) := by
  induction src using consRec generalizing dst with
  | nil => simp
  | cons j n rest _ ih =>
    obtain ⟨m, hm, heq⟩ := merge_cons dst j n rest
    rw [heq, ih ((ordered_cons j n rest).mp h).2.2, get_insert, get_cons]
    by_cases hk : j = k
    · subst hk
      rw [if_pos rfl, if_pos rfl, h.head, laid_none, hm]
    · rw [if_neg hk, if_neg hk]

theorem Ordered.merge {dst src : Nested κ α} (hd : dst.Ordered) (hs : src.Ordered) : (dst.merge src).Ordered := by
  induction src using consRec generalizing dst with
  | nil => exact hd
  | cons j n rest ihn ih =>
    obtain ⟨hn, -, hrest⟩ := (ordered_cons j n rest).mp hs
    obtain ⟨m, hm, heq⟩ := merge_cons dst j n rest
    rw [heq]
    refine ih (hd.insert ?_) hrest
    rcases laid_cases hm with rfl | ⟨d, t, hx, rfl, rfl⟩
    · exact hn
    · exact ihn t rfl (hd.get hx) hn

theorem nil_merge {t : Nested κ α} (h : t.Ordered) : nil.merge t = t := by
  refine ext_get (Ordered.merge trivial h) h fun k => ?_
  rw [get_merge h, get_nil, none_laid]

/-- What is there stays there, as it was or laid over. -/
theorem laid_some (n : Node κ α) (y : Option (Node κ α)) : ∃ m, laid (some n) y = some m := by
  rcases y with _ | y
  · exact ⟨n, laid_none _⟩
  · cases n with
    | leaf a => exact ⟨y, leaf_laid a y⟩
    | table d =>
      cases y with
      | leaf b => exact ⟨_, laid_leaf _ b⟩
      | table t => exact ⟨_, table_laid d t⟩

/-! ### What differs -/

variable [BEq α]

/-- What has to be laid over `below` to give the other: its entries that `below` has not, or has with another value. -/
def diff (below : Nested κ α) : Nested κ α → Nested κ α
  | .nil => .nil
  | .leaf k a rest =>
    match below.get k with
    | some (.leaf b) => if b == a then below.diff rest else .leaf k a (below.diff rest)
    | _ => .leaf k a (below.diff rest)
  | .sub k t rest =>
    match below.get k with
    | some (.table b) => if (b.diff t).isEmpty then below.diff rest else .sub k (b.diff t) (below.diff rest)
    | _ => .sub k t (below.diff rest)

/-- What differs under one key. -/
def changed : Option (Node κ α) → Option (Node κ α) → Option (Node κ α)
  | _, none => none
  | some (.leaf b), some (.leaf a) => if b == a then none else some (.leaf a)
  | some (.table b), some (.table c) => if (b.diff c).isEmpty then none else some (.table (b.diff c))
  | _, some n => some n

@[simp] theorem changed_none (x : Option (Node κ α)) : changed x none = none := by
  cases x with
  | none => rfl
  | some n => cases n <;> rfl

@[simp] theorem none_changed (y : Option (Node κ α)) : changed none y = y := by
  cases y with
  | none => rfl
  | some n => cases n <;> rfl

/-- What differs under a key is what the second holds there, or what differs between two tables. -/
theorem changed_cases {x : Option (Node κ α)} {n m : Node κ α} (h : changed x (some n) = some m) :
    m = n ∨ ∃ b c, x = some (.table b) ∧ n = .table c ∧ m = .table (b.diff c) := by
  rcases x with _ | x
  · exact .inl (Option.some.inj ((none_changed _).symm.trans h)).symm
  · cases x with
    | leaf b =>
      cases n with
      | leaf a =>
        rw [changed] at h
        split at h
        · cases h
        · exact .inl (Option.some.inj h).symm
      | table c => exact .inl (Option.some.inj h).symm
    | table b =>
      cases n with
      | leaf a => exact .inl (Option.some.inj h).symm
      | table c =>
        rw [changed] at h
        split at h
        · cases h
        · exact .inr ⟨b, c, rfl, rfl, (Option.some.inj h).symm⟩

/-- Two tables differ by a table, which may be empty. -/
theorem laid_changed_table (d b c : Nested κ α) :
    laid (some (.table d)) (changed (some (.table b)) (some (.table c))) = some (.table (d.merge (b.diff c))) := by
  rw [changed]
  split
  · rename_i h
    rw [isEmpty_iff.mp h, laid_none, merge_nil]
  · rw [table_laid]

/-- A table with one more entry in front, where there is one. -/
def consOpt (k : κ) : Option (Node κ α) → Nested κ α → Nested κ α
  | none, rest => rest
  | some n, rest => cons k n rest

theorem diff_cons (below : Nested κ α) (k : κ) (n : Node κ α) (rest : Nested κ α) :
    below.diff (cons k n rest) = consOpt k (changed (below.get k) (some n)) (below.diff rest) := by
  cases n with
  | leaf a =>
    rw [cons, diff]
    split
    · rename_i b hb
      rw [hb, changed]
      split <;> rfl
    · rename_i hb
      rcases h : below.get k with _ | m
      · rfl
      · cases m with
        | leaf b => exact absurd h (hb b)
        | table t => rfl
  | table t =>
    rw [cons, diff]
    split
    · rename_i b hb
      rw [hb, changed]
      split <;> rfl
    · rename_i hb
      rcases h : below.get k with _ | m
      · rfl
      · cases m with
        | leaf b => rfl
        | table b => exact absurd h (hb b)

theorem mem_keys_diff {below cur : Nested κ α} {k : κ} (h : k ∈ (below.diff cur).keys) : k ∈ cur.keys := by
  induction cur using consRec with
  | nil => exact h
  | cons j n rest _ ih =>
    rw [diff_cons] at h
    rw [keys_cons, List.mem_cons]
    cases hc : changed (below.get j) (some n) with
    | none =>
      rw [hc, consOpt] at h
      exact .inr (ih h)
    | some m =>
      rw [hc, consOpt, keys_cons, List.mem_cons] at h
      exact h.imp_right ih

/-- **Comparing is done key by key.** -/
theorem get_diff {cur : Nested κ α} (h : cur.Ordered) (below : Nested κ α) (k : κ) :
    (below.diff cur).get k = changed (below.get k) (cur.get k) := by
  induction cur using consRec with
  | nil => simp [diff]
  | cons j n rest _ ih =>
    rw [diff_cons, get_cons]
    have hrest := ih ((ordered_cons j n rest).mp h).2.2
    by_cases hk : j = k
    · subst hk
      rw [h.head, changed_none] at hrest
      rw [if_pos rfl]
      cases hc : changed (below.get j) (some n) with
      | none => rw [consOpt, hrest]
      | some m => rw [consOpt, get_cons, if_pos rfl]
    · rw [if_neg hk, ← hrest]
      cases changed (below.get j) (some n) with
      | none => rw [consOpt]
      | some m => rw [consOpt, get_cons, if_neg hk]

theorem Ordered.diff {cur : Nested κ α} (h : cur.Ordered) (below : Nested κ α) : (below.diff cur).Ordered := by
  induction cur using consRec generalizing below with
  | nil => exact h
  | cons j n rest ihn ih =>
    obtain ⟨hn, hlt, hrest⟩ := (ordered_cons j n rest).mp h
    rw [diff_cons]
    cases hc : changed (below.get j) (some n) with
    | none => exact ih hrest below
    | some m =>
      refine (ordered_cons ..).mpr ⟨?_, fun i hi => hlt i (mem_keys_diff hi), ih hrest below⟩
      rcases changed_cases hc with rfl | ⟨b, c, -, rfl, rfl⟩
      · exact hn
      · exact ihn c rfl hn b

/-! ### Over the first, the difference gives the second -/

section Exact

variable (heq : ∀ a b : α, (a == b) = true → a = b)

include heq in
/-- One key, where tables under it do so. -/
theorem laid_changed_of {x y : Option (Node κ α)} (hy : y = none → x = none)
    (ht : ∀ b c, x = some (.table b) → y = some (.table c) → b.merge (b.diff c) = c) : laid x (changed x y) = y := by
  rcases y with _ | n
  · rw [changed_none, laid_none, hy rfl]
  · rcases x with _ | m
    · rw [none_changed, none_laid]
    · cases n with
      | leaf a =>
        cases m with
        | table b => rfl
        | leaf b =>
          rw [changed]
          split
          · rename_i h
            rw [laid_none, heq b a h]
          · rw [laid_leaf]
      | table c =>
        cases m with
        | leaf b => rfl
        | table b =>
          have hbc := ht b c rfl rfl
          rw [changed]
          split
          · rename_i h
            rw [isEmpty_iff.mp h, merge_nil] at hbc
            rw [laid_none, hbc]
          · rw [table_laid, hbc]

include heq in
/-- **Laying the difference over the first table gives the second**, when every path of the first is in it. -/
theorem merge_diff (cur : Nested κ α) : ∀ below : Nested κ α, below.Ordered → cur.Ordered →
    Kept (some (.table below)) (some (.table cur)) → below.merge (below.diff cur) = cur := by
  induction cur using getRec with
  | step cur ih =>
    intro below hb hc hk
    refine ext_get (hb.merge (hc.diff below)) hc fun k => ?_
    rw [get_merge (hc.diff below), get_diff hc]
    refine laid_changed_of heq (hk.get k).none fun b c hx hy => ?_
    have hkept : Kept (some (.table b)) (some (.table c)) := hx ▸ hy ▸ hk.get k
    exact ih k c hy b (hb.get hx) (hc.get hy) hkept

include heq in
theorem laid_changed {x y : Option (Node κ α)} (hx : ∀ n ∈ x, n.Ordered) (hy : ∀ n ∈ y, n.Ordered) (h : Kept x y) :
    laid x (changed x y) = y :=
  laid_changed_of heq h.none fun b c hb hc => merge_diff heq c b (hx _ hb) (hy _ hc) (hb ▸ hc ▸ h)

include heq in
/-- Where nothing differs, nothing has changed. -/
theorem eq_of_changed {x y : Option (Node κ α)} (hx : ∀ n ∈ x, n.Ordered) (hy : ∀ n ∈ y, n.Ordered) (h : Kept x y)
    (hc : changed x y = none) : x = y := by
  have := laid_changed heq hx hy h
  rwa [hc, laid_none] at this

end Exact

/-- **What differs is only what differs.** A value in the difference is the second's, and not equal to one of the
first. -/
theorem follow_changed {p : List κ} {x y : Option (Node κ α)} {a : α} (hy : ∀ n ∈ y, n.Ordered)
    (h : follow p (changed x y) = some (.leaf a)) :
    follow p y = some (.leaf a) ∧ ∀ b, follow p x = some (.leaf b) → (b == a) = false := by
  rcases y with _ | n
  · rw [changed_none] at h
    cases p <;> simp [follow] at h
  · induction p generalizing x n with
    | nil =>
      obtain rfl | ⟨b, c, rfl, rfl, hm⟩ := changed_cases h
      · refine ⟨rfl, fun b hb => ?_⟩
        rw [follow] at hb h
        rw [hb, changed] at h
        by_contra hne
        rw [if_pos (by simpa using hne)] at h
        cases h
      · cases hm
    | cons k p ih =>
      -- a value further down stands in a table of the second's
      cases n with
      | leaf a' =>
        rcases hc : changed x (some (.leaf a')) with _ | m
        · simp [hc, follow] at h
        · rw [hc] at h
          obtain rfl | ⟨b, c, -, hn, -⟩ := changed_cases hc
          · simp [follow] at h
          · cases hn
      | table c =>
        rcases x with _ | x
        · rw [none_changed] at h
          exact ⟨h, fun b hb => by simp [follow] at hb⟩
        · cases x with
          | leaf b => exact ⟨h, fun b hb => by simp [follow] at hb⟩
          | table b =>
            have hord : c.Ordered := hy _ rfl
            rw [changed] at h
            split at h
            · simp [follow] at h
            · rw [follow, get_diff hord] at h
              rcases hk : c.get k with _ | n
              · cases p <;> simp [hk, follow] at h
              · rw [hk] at h
                simp only [follow, hk]
                exact ih n (fun m hm => Option.some.inj hm ▸ hord.get hk) h

theorem all_diff {p : α → Bool} {cur : Nested κ α} (h : cur.all p = true) (below : Nested κ α) :
    (below.diff cur).all p = true := by
  induction cur using consRec generalizing below with
  | nil => rfl
  | cons k n rest ihn ih =>
    obtain ⟨hn, hall⟩ : n.all p = true ∧ rest.all p = true := by simpa using h
    have hrest := ih hall below
    rw [diff_cons]
    cases hc : changed (below.get k) (some n) with
    | none => exact hrest
    | some m =>
      rcases changed_cases hc with rfl | ⟨b, c, -, rfl, rfl⟩
      · simp [consOpt, hn, hrest]
      · have hbc : (b.diff c).all p = true := ihn c rfl hn b
        simp [consOpt, Node.all, hbc, hrest]

end Order

end Nested
