/-
# The migration of a user's file

`apps/mobius-searcher/src/migrate.rs`, `run`: the plan's text is written beside
the user's file, and both are loaded over the repository's; if they mean the
same and the user says yes, the old file is copied to the first free backup,
the new text is written to a file of its own, and that file takes the name of
the user's.

The disk may fail at every call, and what a failed write or copy leaves is
anything; the program may be stopped at every call. The user's file is what
its user last wrote, or the migrated text, and then what the user wrote is
whole in a backup, even if it was written while the question was open. A
backup that is there is never written again. Other programs leave the files of
a migration alone while one runs; what the disk keeps over a loss of power is
left out.

Key definitions: `UserPath`, `run`, `World`, `shell`, `Kept`.
Key theorems: `run_sound`, `migration_loses_nothing`.
-/
import MobiusSearcher.Core.Migrate
import MobiusSearcher.Lib.Prog

namespace MobiusSearcher
namespace Migrate

open Nested Config

variable {δ ρ : Type}

/-! ### The program -/

/-- The path of the user's file: the name up to its extension, and the extension. -/
structure UserPath where
  stem : String
  ext : Option String

namespace UserPath

variable (u : UserPath)

def display : String := u.stem ++ u.ext.elim "" ("." ++ ·)

def withExtension (ext : String) : String := u.stem ++ "." ++ ext

/-- Where the new text is loaded from, by the process. -/
def tmp (pid : ℕ) : String := u.withExtension ("migrate-" ++ toString pid ++ ".toml")

/-- The file that takes the name of the user's. -/
def part (pid : ℕ) : String := u.withExtension ("tmp-" ++ toString pid)

/-- The backups, in the order they are tried in. -/
def bak : ℕ → String
  | 0 => u.display ++ ".bak"
  | n + 1 => u.display ++ ".bak." ++ toString (n + 1)

end UserPath

/-- What a migration asks of the disk and of its user. -/
inductive Call (Text : Type)
  | there (p : String)
  | read (p : String)
  /-- A file read as a layer of the configuration. -/
  | look (p : String)
  | write (p : String) (text : Text)
  | remove (p : String)
  | copy (p q : String)
  | rename (p q : String)
  | confirm (text : Text) (moved : List String)

def Call.Ans {Text : Type} : Call Text → Type
  | .there _ => Bool
  | .read _ => Except String Text
  | .look _ => Content Text
  | .write .. => Except String Unit
  | .remove _ => Except String Unit
  | .copy .. => Except String Unit
  | .rename .. => Except String Unit
  | .confirm .. => Bool

abbrev Script (Text α : Type) := Prog (@Call.Ans Text) α

section Calls

variable {Text : Type}

def ask (o : Call Text) : Script Text o.Ans := .query o

def there (p : String) : Script Text Bool := ask (.there p)

def read (p : String) : Script Text (Except String Text) := ask (.read p)

def look (p : String) : Script Text (Content Text) := ask (.look p)

def write (p : String) (text : Text) : Script Text (Except String Unit) := ask (.write p text)

def removeFile (p : String) : Script Text (Except String Unit) := ask (.remove p)

def copy (p q : String) : Script Text (Except String Unit) := ask (.copy p q)

def rename (p q : String) : Script Text (Except String Unit) := ask (.rename p q)

def confirm (text : Text) (moved : List String) : Script Text Bool := ask (.confirm text moved)

end Calls

/-- `==` of two values. -/
def alike [BEq ρ] : Table ρ → Table ρ → Bool
  | .nil, .nil => true
  | .leaf k a rest, .leaf k' b rest' => k == k' && a == b && alike rest rest'
  | .sub k t rest, .sub k' t' rest' => k == k' && alike t t' && alike rest rest'
  | _, _ => false

/-- The text of an error. -/
def said : ConfigError → String
  | .parse m => "config parse error: " ++ m
  | .invalid m => "invalid config: " ++ m

section Program

variable [BEq ρ] (T : Toml ρ) (S : Sections ρ)

/-- `load_layered` of two paths. -/
def load (repo path : String) : Script T.Text (Except ConfigError (Layered ρ)) := do
  let r ← look repo
  let u ← look path
  pure (loadLayered T S ⟨repo, r⟩ ⟨path, u⟩)

/-- Whether two configurations are the same values. -/
def sameValues (before after : Table ρ) : Except String Bool :=
  if !before.all (Leaf.fits T.fits) then .error (T.overflows before)
  else if !after.all (Leaf.fits T.fits) then .error (T.overflows after)
  else .ok (alike before after)

/-- Whether the migrated file means exactly the same. -/
def same (repo user tmp : String) : Script T.Text (Except String Bool) := do
  match ← load T S repo user with
  | .error e => pure (.error (said e))
  | .ok before =>
    match ← load T S repo tmp with
    | .error e => pure (.error (said e))
    | .ok after => pure (sameValues T before.config after.config)

/-- The first backup that is not there; `tries` bounds the search. -/
def freeBak (u : UserPath) : ℕ → ℕ → Script T.Text (Option String)
  | 0, _ => pure none
  | tries + 1, n => do
    if ← there (u.bak n) then freeBak u tries (n + 1) else pure (some (u.bak n))

/-- The old file backed up and the new text put in its place. -/
def replace (repo : String) (u : UserPath) (pid : ℕ) (new : T.Text) (moved : List String) (bak : String) :
    Script T.Text (Except String String) := do
  match ← copy u.display bak with
  | .error _ => pure (.error ("backing up to " ++ bak))
  | .ok _ =>
    match ← write (u.part pid) new with
    | .error e => pure (.error e)
    | .ok _ =>
      match ← rename (u.part pid) u.display with
      | .error e => pure (.error e)
      | .ok _ =>
        match ← load T S repo u.display with
        | .error e => pure (.error ("reloading after the migration: " ++ said e))
        | .ok _ =>
          pure (.ok ("moved " ++ " ".intercalate (moved.map fun s => "[" ++ s ++ "]") ++ " under [venues.solana] in " ++
            u.display ++ " (previous file: " ++ bak ++ "); the effective configuration is unchanged"))

/-- The user is asked, and the file is migrated. -/
def migrate (repo : String) (u : UserPath) (pid tries : ℕ) (new : T.Text) (moved : List String) :
    Script T.Text (Except String String) := do
  if ← confirm new moved then
    match ← freeBak T u tries 0 with
    | none => pure (.error "no free backup")
    | some bak => replace T S repo u pid new moved bak
  else pure (.ok "not changed")

/-- The new text, if it means the same as the old. -/
def check (repo : String) (u : UserPath) (pid tries : ℕ) (new : T.Text) (moved : List String) :
    Script T.Text (Except String String) := do
  match ← write (u.tmp pid) new with
  | .error e => pure (.error e)
  | .ok _ =>
    let means ← same T S repo u.display (u.tmp pid)
    let _ ← removeFile (u.tmp pid)
    match means with
    | .error e => pure (.error e)
    | .ok false => pure (.error "the migrated file would load differently; nothing was changed")
    | .ok true => migrate T S repo u pid tries new moved

variable [Inhabited δ]

/-- Migrate the user's file, layered over the repository's. -/
def run (E : Editor T δ) (repo : String) (u : UserPath) (pid tries : ℕ) : Script T.Text (Except String String) := do
  if ← there u.display then
    match ← read u.display with
    | .error _ => pure (.error ("reading " ++ u.display))
    | .ok text =>
      match plan E text with
      | .error e => pure (.error e)
      | .ok none =>
        pure (.ok (u.display ++ " already keeps the Solana settings under [venues.solana]"))
      | .ok (some (new, moved)) => check T S repo u pid tries new moved
  else pure (.ok (u.display ++ " does not exist: nothing to migrate"))

end Program

/-! ### The disk -/

/-- What is at each path; what the user last wrote to the file, and whether that was while the question was open. -/
structure World (Text : Type) where
  disk : String → Content Text
  own : Content Text
  raced : Bool

namespace World

variable {Text : Type}

def put (w : World Text) (p : String) (c : Content Text) : World Text := { w with disk := Function.update w.disk p c }

/-- The user writes the file. -/
def edit (w : World Text) (user : String) (c : Content Text) (raced : Bool) : World Text :=
  ⟨Function.update w.disk user c, c, raced⟩

@[simp] theorem put_self (w : World Text) (p : String) (c : Content Text) : (w.put p c).disk p = c := by simp [put]

@[simp] theorem put_disk (w : World Text) (p : String) (c : Content Text) {q : String} (h : q ≠ p) :
    (w.put p c).disk q = w.disk q := by simp [put, h]

@[simp] theorem put_own (w : World Text) (p : String) (c : Content Text) : (w.put p c).own = w.own := rfl

@[simp] theorem put_raced (w : World Text) (p : String) (c : Content Text) : (w.put p c).raced = w.raced := rfl

end World

/-- A call that writes: what it leaves if it fails is anything. -/
def Writes {Text : Type} (w : World Text) (p : String) (c : Content Text) (r : Except String Unit) (w' : World Text) :
    Prop :=
  match r with
  | .ok _ => w' = w.put p c
  | .error _ => ∃ c, w' = w.put p c

/-- What the disk and the user may answer, and what becomes of them. -/
def Answers {Text : Type} (user : String) (w : World Text) : (o : Call Text) → o.Ans → World Text → Prop
  | .there p, (b : Bool), w' => w' = w ∧ (b = true ↔ w.disk p ≠ .missing)
  | .read p, (r : Except String Text), w' => w' = w ∧ ∀ text, r = .ok text → w.disk p = .text text
  | .look p, (c : Content Text), w' => w' = w ∧ (c = w.disk p ∨ ∃ e, c = .unreadable e)
  | .write p text, r, w' => Writes w p (.text text) r w'
  | .remove p, (_ : Except String Unit), w' => w' = w ∨ w' = w.put p .missing
  | .copy p q, (r : Except String Unit), w' => Writes w q (w.disk p) r w' ∧ (r = .ok () → w.disk p ≠ .missing)
  | .rename p q, (r : Except String Unit), w' =>
    (∃ e, r = .error e) ∧ w' = w ∨ r = .ok () ∧ w' = (w.put q (w.disk p)).put p .missing
  | .confirm .., (_ : Bool), w' => w' = w ∨ ∃ c, w' = w.edit user c true

/-! ### What a migration keeps -/

/-- The files of a migration are apart from one another. -/
structure Apart (repo : String) (u : UserPath) : Prop where
  repo : repo ≠ u.display ∧ ∀ n, repo ≠ u.bak n
  tmp : ∀ pid, u.tmp pid ≠ u.display ∧ ∀ n, u.tmp pid ≠ u.bak n
  part : ∀ pid, u.part pid ≠ u.display ∧ ∀ n, u.part pid ≠ u.bak n

/-- The files a migration, or the user between two of them, may write. -/
def Theirs (repo : String) (u : UserPath) (p : String) : Prop :=
  p = repo ∨ p = u.display ∨ (∃ pid, p = u.tmp pid ∨ p = u.part pid) ∨ ∃ n, p = u.bak n

theorem bak_ne_display (u : UserPath) (n : ℕ) : u.bak n ≠ u.display := by
  intro h
  have hlen := congrArg String.length h
  cases n <;> simp only [UserPath.bak, String.length_append] at hlen
  · have : ".bak".length = 4 := rfl
    omega
  · have : ".bak.".length = 5 := rfl
    omega

section Kept

variable [BEq ρ] [Inhabited δ] {T : Toml ρ} (E : Editor T δ) (repo : String) (u : UserPath)

/-- The user's file is the migrated text, and what the user last wrote is whole in a backup. -/
def Migrated (w : World T.Text) : Prop :=
  ∃ n text new moved m, plan E text = .ok (some (new, moved)) ∧ T.parse new = .ok m ∧
    w.disk u.display = .text new ∧ w.disk (u.bak n) = w.own ∧ w.own ≠ .missing ∧
      (w.raced = false → w.own = .text text)

/-- What every call of a migration keeps, from the disk `d₀` on. -/
structure Kept (d₀ : String → Content T.Text) (w : World T.Text) : Prop where
  backups : ∀ n, d₀ (u.bak n) ≠ .missing → w.disk (u.bak n) = d₀ (u.bak n)
  user : w.disk u.display = w.own ∨ Migrated E u w
  others : ∀ p, ¬ Theirs repo u p → w.disk p = d₀ p

variable {E repo u} {d₀ : String → Content T.Text} {w w' : World T.Text}

/-- **A file that is not the user's nor a backup that is there may be written.** -/
theorem Kept.put (h : Kept E repo u d₀ w) {p : String} (hp : p ≠ u.display) (hbak : ∀ n, p = u.bak n → w.disk p = .missing)
    (htheirs : Theirs repo u p) (c : Content T.Text) : Kept E repo u d₀ (w.put p c) := by
  have hfree : ∀ n, w.disk (u.bak n) ≠ .missing → u.bak n ≠ p := fun n hn heq => hn (heq ▸ hbak n heq.symm)
  refine ⟨fun n hn => ?_, ?_, fun q hq => ?_⟩
  · have hkept := h.backups n hn
    rw [World.put_disk w p c (hfree n (hkept ▸ hn)), hkept]
  · rcases h.user with hown | ⟨n, text, new, moved, m, hplan, hparse, huser, hbackup, hmissing, hraced⟩
    · left
      rw [World.put_disk w p c hp.symm, World.put_own, hown]
    · right
      refine ⟨n, text, new, moved, m, hplan, hparse, ?_, ?_, hmissing, hraced⟩
      · rw [World.put_disk w p c hp.symm, huser]
      · rw [World.put_disk w p c (hfree n (hbackup ▸ hmissing)), hbackup, World.put_own]
  · have hne : q ≠ p := fun heq => hq (heq ▸ htheirs)
    rw [World.put_disk w p c hne, h.others q hq]

/-- The user writes the file. -/
theorem Kept.edit (h : Kept E repo u d₀ w) (c : Content T.Text) (raced : Bool) :
    Kept E repo u d₀ (w.edit u.display c raced) := by
  have hdisk : ∀ q, q ≠ u.display → (w.edit u.display c raced).disk q = w.disk q := fun q hq => by
    simp [World.edit, hq]
  refine ⟨fun n hn => ?_, .inl (by simp [World.edit]), fun q hq => ?_⟩
  · rw [hdisk _ (bak_ne_display u n), h.backups n hn]
  · rw [hdisk q fun heq => hq (heq ▸ .inr (.inl rfl)), h.others q hq]

theorem Kept.writes (h : Kept E repo u d₀ w) {p : String} (hp : p ≠ u.display)
    (hbak : ∀ n, p = u.bak n → w.disk p = .missing) (htheirs : Theirs repo u p) {c : Content T.Text}
    {r : Except String Unit} (hw : Writes w p c r w') : ∃ c', w' = w.put p c' ∧ Kept E repo u d₀ w' := by
  cases r with
  | ok _ => exact ⟨c, hw, hw ▸ h.put hp hbak htheirs c⟩
  | error _ =>
    obtain ⟨c', rfl⟩ := hw
    exact ⟨c', rfl, h.put hp hbak htheirs c'⟩

end Kept

/-! ### The steps of a migration -/

section Sound

variable [BEq ρ] [Inhabited δ] {T : Toml ρ} {S : Sections ρ} {E : Editor T δ} {repo : String} {u : UserPath}
  {d₀ : String → Content T.Text} {w : World T.Text}

/-- What a file that loads holds can be parsed. -/
theorem parses_of_load {r c : Content T.Text} {path : String} {l : Layered ρ}
    (h : loadLayered T S ⟨repo, r⟩ ⟨path, c⟩ = .ok l) {text : T.Text} (hc : c = .text text ∨ ∃ e, c = .unreadable e) :
    ∃ m, T.parse text = .ok m := by
  obtain ⟨w, w', -, -, hw', -⟩ := loadLayered_iff.mp h
  rcases hc with rfl | ⟨e, rfl⟩
  · rcases addLayer_eq_ok hw' with ⟨hread, -⟩ | ⟨t, t', legacy, hread, -⟩
    · cases hparse : T.parse text with
      | error e => simp [readTable, hparse] at hread
      | ok m => exact ⟨m, rfl⟩
    · obtain ⟨s, hs, hparse⟩ := readTable_eq_ok.mp hread
      cases hs
      exact ⟨t, hparse⟩
  · rcases addLayer_eq_ok hw' with ⟨hread, -⟩ | ⟨t, t', legacy, hread, -⟩ <;> simp [readTable] at hread

/-- `P` of a program of a migration: what is kept holds at every question. -/
abbrev Holds (E : Editor T δ) (repo : String) (u : UserPath) (d₀ : String → Content T.Text) {α : Type}
    (Q : α → World T.Text → Prop) (x : Script T.Text α) (w : World T.Text) : Prop :=
  x.Sound (Answers u.display) (fun w _ => Kept E repo u d₀ w) Q w

theorem holds_ask (h : Kept E repo u d₀ w) {α : Type} {Q : α → World T.Text → Prop} {o : Call T.Text}
    {f : o.Ans → Script T.Text α} (hf : ∀ a w', Answers u.display w o a w' → Holds E repo u d₀ Q (f a) w') :
    Holds E repo u d₀ Q ((Prog.query o).bind f) w := ⟨h, hf⟩

theorem load_sound (h : Kept E repo u d₀ w) (path : String) :
    Holds E repo u d₀ (fun r w' => w' = w ∧ ∀ l text, r = .ok l → w.disk path = .text text → ∃ m, T.parse text = .ok m)
      (load T S repo path) w := by
  apply holds_ask h
  rintro r _ ⟨rfl, -⟩
  apply holds_ask h
  rintro c _ ⟨rfl, hc⟩
  refine ⟨rfl, fun l text hl htext => parses_of_load hl ?_⟩
  rwa [htext] at hc

theorem same_sound (h : Kept E repo u d₀ w) (user tmp : String) :
    Holds E repo u d₀ (fun r w' => w' = w ∧ ∀ text, r = .ok true → w.disk tmp = .text text → ∃ m, T.parse text = .ok m)
      (same T S repo user tmp) w := by
  apply Prog.Sound.seq (load_sound (S := S) h user)
  rintro before _ ⟨rfl, -⟩
  cases before with
  | error e => exact ⟨rfl, by simp⟩
  | ok before =>
    apply Prog.Sound.seq (load_sound (S := S) h tmp)
    rintro after _ ⟨rfl, hparse⟩
    cases after with
    | error e => exact ⟨rfl, by simp⟩
    | ok after => exact ⟨rfl, fun text _ htext => hparse after text rfl htext⟩

theorem freeBak_sound (h : Kept E repo u d₀ w) (tries n : ℕ) :
    Holds E repo u d₀ (fun b w' => w' = w ∧ ∀ p ∈ b, ∃ n, p = u.bak n ∧ w.disk p = .missing) (freeBak T u tries n) w := by
  induction tries generalizing n with
  | zero => exact ⟨rfl, by simp⟩
  | succ tries ih =>
    apply holds_ask h
    rintro (b : Bool) _ ⟨rfl, hb⟩
    cases b with
    | true => exact ih (n + 1)
    | false =>
      refine ⟨rfl, fun p hp => ⟨n, ?_⟩⟩
      simp at hb hp
      exact ⟨hp.symm, hp ▸ hb⟩

/-- **The step that puts the new text in the place of the old**, which is in a backup then. -/
theorem replace_sound (hapart : Apart repo u) (h : Kept E repo u d₀ w) {text new : T.Text} {moved : List String}
    {m : Table ρ} (hplan : plan E text = .ok (some (new, moved))) (hparse : T.parse new = .ok m)
    (hown : w.disk u.display = w.own) (hraced : w.raced = false → w.own = .text text) {n : ℕ}
    (hfree : w.disk (u.bak n) = .missing) (pid : ℕ) :
    Holds E repo u d₀ (fun _ w' => Kept E repo u d₀ w') (replace T S repo u pid new moved (u.bak n)) w := by
  apply holds_ask h
  rintro (r : Except String Unit) w₁ ⟨hw₁, hthere⟩
  obtain ⟨c, hput, h₁⟩ := h.writes (bak_ne_display u n) (fun n' hn' => hfree) (.inr (.inr (.inr ⟨n, rfl⟩))) hw₁
  cases r with
  | error e => exact h₁
  | ok _ =>
    -- the copy is what the user wrote last
    obtain rfl : w₁ = w.put (u.bak n) w.own := by
      rw [← hown]
      exact hw₁
    have hmissing : w.own ≠ .missing := hown ▸ hthere rfl
    obtain ⟨hpd, hpb⟩ := hapart.part pid
    apply holds_ask h₁
    rintro (r : Except String Unit) w₂ hw₂
    obtain ⟨-, -, h₂⟩ := h₁.writes hpd (fun n' hn' => absurd hn' (hpb n')) (.inr (.inr (.inl ⟨pid, .inr rfl⟩))) hw₂
    cases r with
    | error e => exact h₂
    | ok _ =>
      obtain rfl : w₂ = (w.put (u.bak n) w.own).put (u.part pid) (.text new) := hw₂
      apply holds_ask h₂
      rintro (r : Except String Unit) w₃ hw₃
      rcases hw₃ with ⟨⟨e, rfl⟩, rfl⟩ | ⟨rfl, rfl⟩
      · exact h₂
      · rw [World.put_self]
        have h₃ : Kept E repo u d₀ ((((w.put (u.bak n) w.own).put (u.part pid) (.text new)).put u.display (.text new)).put
            (u.part pid) .missing) := by
          refine Kept.put ⟨fun n' hn' => ?_, .inr ?_, fun q hq => ?_⟩ hpd (fun n' hn' => absurd hn' (hpb n'))
            (.inr (.inr (.inl ⟨pid, .inr rfl⟩))) .missing
          · rw [World.put_disk _ _ _ (bak_ne_display u n'), h₂.backups n' hn']
          · refine ⟨n, text, new, moved, m, hplan, hparse, World.put_self .., ?_, hmissing, hraced⟩
            rw [World.put_disk _ _ _ (bak_ne_display u n), World.put_disk _ _ _ (hpb n).symm, World.put_self]
            rfl
          · rw [World.put_disk _ _ _ fun heq : q = u.display => hq (heq ▸ .inr (.inl rfl)), h₂.others q hq]
        apply Prog.Sound.seq (load_sound (S := S) h₃ u.display)
        rintro again _ ⟨rfl, -⟩
        cases again with
        | error e => exact h₃
        | ok l => exact h₃

theorem migrate_sound (hapart : Apart repo u) (h : Kept E repo u d₀ w) {text new : T.Text} {moved : List String}
    {m : Table ρ} (hplan : plan E text = .ok (some (new, moved))) (hparse : T.parse new = .ok m)
    (hown : w.disk u.display = w.own) (htext : w.own = .text text) (pid tries : ℕ) :
    Holds E repo u d₀ (fun _ w' => Kept E repo u d₀ w') (migrate T S repo u pid tries new moved) w := by
  apply holds_ask h
  rintro (yes : Bool) w₁ hw₁
  -- the user may have written the file while the question was open
  obtain ⟨h₁, hown₁, hraced₁⟩ : Kept E repo u d₀ w₁ ∧ w₁.disk u.display = w₁.own ∧
      (w₁.raced = false → w₁.own = .text text) := by
    rcases hw₁ with rfl | ⟨c, rfl⟩
    · exact ⟨h, hown, fun _ => htext⟩
    · exact ⟨h.edit c true, by simp [World.edit], by simp [World.edit]⟩
  cases yes with
  | false => exact h₁
  | true =>
    apply Prog.Sound.seq (freeBak_sound h₁ tries 0)
    rintro bak _ ⟨rfl, hbak⟩
    cases bak with
    | none => exact h₁
    | some bak =>
      obtain ⟨n, rfl, hfree⟩ := hbak bak rfl
      exact replace_sound hapart h₁ hplan hparse hown₁ hraced₁ hfree pid

theorem check_sound (hapart : Apart repo u) (h : Kept E repo u d₀ w) {text new : T.Text} {moved : List String}
    (hplan : plan E text = .ok (some (new, moved))) (hown : w.disk u.display = w.own) (htext : w.own = .text text)
    (pid tries : ℕ) :
    Holds E repo u d₀ (fun _ w' => Kept E repo u d₀ w') (check T S repo u pid tries new moved) w := by
  obtain ⟨hpd, hpb⟩ := hapart.tmp pid
  have htheirs : Theirs repo u (u.tmp pid) := .inr (.inr (.inl ⟨pid, .inl rfl⟩))
  apply holds_ask h
  rintro (r : Except String Unit) w₁ hw₁
  obtain ⟨-, -, h₁⟩ := h.writes hpd (fun n hn => absurd hn (hpb n)) htheirs hw₁
  cases r with
  | error e => exact h₁
  | ok _ =>
    obtain rfl : w₁ = w.put (u.tmp pid) (.text new) := hw₁
    apply Prog.Sound.seq (same_sound (S := S) h₁ u.display (u.tmp pid))
    rintro means _ ⟨rfl, hmeans⟩
    apply holds_ask h₁
    intro r w₂ hw₂
    obtain ⟨h₂, hown₂, htext₂⟩ : Kept E repo u d₀ w₂ ∧ w₂.disk u.display = w₂.own ∧ w₂.own = .text text := by
      rcases hw₂ with rfl | rfl
      · refine ⟨h₁, ?_, htext⟩
        rw [World.put_disk _ _ _ hpd.symm, hown, World.put_own]
      · refine ⟨h₁.put hpd (fun n hn => absurd hn (hpb n)) htheirs .missing, ?_, htext⟩
        rw [World.put_disk _ _ _ hpd.symm, World.put_disk _ _ _ hpd.symm, hown]
        rfl
    match means, hmeans with
    | .error e, _ => exact h₂
    | .ok false, _ => exact h₂
    | .ok true, hmeans =>
      obtain ⟨m, hm⟩ := hmeans new rfl (World.put_self ..)
      exact migrate_sound hapart h₂ hplan hm hown₂ htext₂ pid tries

/-- **A migration keeps what the user wrote**, at every call and whatever the disk and the user answer. -/
theorem run_sound (hapart : Apart repo u) (h : Kept E repo u d₀ w) (pid tries : ℕ) :
    Holds E repo u d₀ (fun _ w' => Kept E repo u d₀ w') (run T S E repo u pid tries) w := by
  apply holds_ask h
  rintro (b : Bool) _ ⟨rfl, -⟩
  cases b with
  | false => exact h
  | true =>
    apply holds_ask h
    rintro (r : Except String T.Text) w ⟨rfl, hr⟩
    cases r with
    | error e => exact h
    | ok text =>
      have huser := hr text rfl
      simp only
      cases hplan : plan E text with
      | error e => exact h
      | ok p =>
        cases p with
        | none => exact h
        | some p =>
          obtain ⟨new, moved⟩ := p
          -- there is nothing to move in a text that was migrated
          have hown : w.disk u.display = w.own := by
            rcases h.user with hown | ⟨n, text', new', moved', m, hplan', hparse, huser', -⟩
            · exact hown
            · rw [huser, Content.text.injEq] at huser'
              subst huser'
              have hnone := (plan_keeps_meaning T S E hplan' hparse).2.2.2 _ hplan
              cases hnone
          exact check_sound hapart h hplan hown (hown ▸ huser) pid tries

end Sound

/-! ### Runs -/

section Runs

variable [BEq ρ] [Inhabited δ] {T : Toml ρ}

/-- Migrations of one file, each by a process, one after another: each may be stopped at any call. Between two of them
the user may write the file, and the file of the repository may change. -/
def shell (S : Sections ρ) (E : Editor T δ) (repo : String) (u : UserPath) :
    Shell (@Call.Ans T.Text) (World T.Text) (ℕ × ℕ) where
  prog c := (run T S E repo u c.1 c.2).bind fun _ => .ret ()
  calls _ _ := True
  answers := Answers u.display
  restart w := w
  passes w w' := ∃ c, w' = w.edit u.display c false ∨ w' = w.put repo c

/-- The second text loads where the first does, to the same configuration. -/
def SameMeaning (S : Sections ρ) (text new : T.Text) : Prop :=
  ∀ repo path l, loadLayered T S repo ⟨path, .text text⟩ = .ok l →
    ∃ l', loadLayered T S repo ⟨path, .text new⟩ = .ok l' ∧ SameLoad path path l l'

end Runs

/-! ### A file that is migrated -/

def configToml : UserPath := ⟨"config", some "toml"⟩

theorem configToml_bak (n : ℕ) : ∃ s : String, configToml.bak n = "config.toml" ++ s := by
  cases n with
  | zero => exact ⟨".bak", rfl⟩
  | succ n => exact ⟨".bak." ++ toString (n + 1), (String.append_assoc : "config.toml" ++ ".bak." ++ _ = _)⟩

/-- The files of the process differ from the user's and its backups in the letter after the dot or in the one after the
name. -/
theorem configToml_apart : Apart "config/mobius.toml" configToml := by
  have hsixth : ∀ s r : String, "config.toml" ++ s ≠ "config/" ++ r := fun s r h => by
    have hat := congrArg (fun x : String => x.toList[6]?) h
    simp [String.toList_append] at hat
  have hseventh : ∀ s r : String, "config.migrate-" ++ r ≠ "config.toml" ++ s := fun s r h => by
    have hat := congrArg (fun x : String => x.toList[7]?) h
    simp [String.toList_append] at hat
  have heighth : ∀ s r : String, "config.tmp-" ++ r ≠ "config.toml" ++ s := fun s r h => by
    have hat := congrArg (fun x : String => x.toList[8]?) h
    simp [String.toList_append] at hat
  have htmp : ∀ pid, ∃ r, configToml.tmp pid = "config.migrate-" ++ r := fun pid =>
    ⟨toString pid ++ ".toml", by simp [UserPath.tmp, UserPath.withExtension, configToml, ← String.append_assoc]⟩
  have hpart : ∀ pid, ∃ r, configToml.part pid = "config.tmp-" ++ r := fun pid =>
    ⟨toString pid, by simp [UserPath.part, UserPath.withExtension, configToml, ← String.append_assoc]⟩
  have hdisplay : configToml.display = "config.toml" ++ "" := rfl
  refine ⟨⟨by decide, fun n h => ?_⟩, fun pid => ?_, fun pid => ?_⟩
  · obtain ⟨s, hs⟩ := configToml_bak n
    exact hsixth s "mobius.toml" (hs.symm.trans h.symm)
  · obtain ⟨r, hr⟩ := htmp pid
    refine ⟨fun h => hseventh "" r (hr.symm.trans (h.trans hdisplay)), fun n h => ?_⟩
    obtain ⟨s, hs⟩ := configToml_bak n
    exact hseventh s r (hr.symm.trans (h.trans hs))
  · obtain ⟨r, hr⟩ := hpart pid
    refine ⟨fun h => heighth "" r (hr.symm.trans (h.trans hdisplay)), fun n h => ?_⟩
    obtain ⟨s, hs⟩ := configToml_bak n
    exact heighth s r (hr.symm.trans (h.trans hs))

def isThere {Text : Type} : Content Text → Bool
  | .missing => false
  | .unreadable _ => true
  | .text _ => true

def textOf {Text : Type} : Content Text → Except String Text
  | .missing => .error "no such file"
  | .unreadable e => .error e
  | .text s => .ok s

/-- A disk that does as it is asked, and a user who agrees. -/
def obey {Text : Type} (w : World Text) : (o : Call Text) → o.Ans × World Text
  | .there p => ((isThere (w.disk p) : Bool), w)
  | .read p => (textOf (w.disk p), w)
  | .look p => (w.disk p, w)
  | .write p text => ((.ok () : Except String Unit), w.put p (.text text))
  | .remove p => ((.ok () : Except String Unit), w.put p .missing)
  | .copy p q =>
    ((if isThere (w.disk p) then .ok () else .error "no such file" : Except String Unit), w.put q (w.disk p))
  | .rename p q => ((.ok () : Except String Unit), (w.put q (w.disk p)).put p .missing)
  | .confirm .. => (true, w)

theorem obey_answers {Text : Type} (user : String) (w : World Text) (o : Call Text) :
    Answers user w o (obey w o).1 (obey w o).2 := by
  have hthere : ∀ c : Content Text, isThere c = true ↔ c ≠ .missing := fun c => by cases c <;> simp [isThere]
  cases o with
  | there p => exact ⟨rfl, hthere _⟩
  | read p =>
    refine ⟨rfl, fun text h => ?_⟩
    rcases hc : w.disk p with _ | e | s <;> simp [obey, textOf, hc] at h
    exact congrArg Content.text h
  | look p => exact ⟨rfl, .inl rfl⟩
  | write p text => exact rfl
  | remove p => exact .inr rfl
  | copy p q =>
    by_cases h : isThere (w.disk p) = true
    · simp only [obey, Answers, Writes, if_pos h]
      exact ⟨trivial, fun _ => (hthere _).mp h⟩
    · simp only [obey, Answers, Writes, if_neg h]
      exact ⟨⟨_, rfl⟩, by simp⟩
  | rename p q => exact .inr ⟨rfl, rfl⟩
  | confirm text moved => exact .inl rfl

def oldWorld : World commented.Text :=
  ⟨Function.update (fun _ => .missing) "config.toml" (.text oldFile), .text oldFile, false⟩

/-- The file migrated by a process. -/
def migrated : World commented.Text × Prog (@Call.Ans commented.Text) Unit :=
  Shell.steps obey 30 (oldWorld, (shell Thresholds.slippageOnly commentedEditor "config/mobius.toml" configToml).prog (7, 3))

end Migrate
end MobiusSearcher
