/-
# What retention leaves

Every state on the way through `prune` spares the sessions it must keep
(`Spared`): the session's row is there, none of its detail rows from the
cut-off on is gone, and none at all if it has a trade or an execution. One
statement spares a session it is not about (`Spared.delete`); from this each
of the three passes spares a session that is guarded (`Guarded`). What the
passes decide is what the database says at the start (`agePass_eq`), so the
size cap takes the oldest free sessions until the size fits (`capPass_spec`).

Key definitions: `Spared`, `Guarded`, `expired`, `Retention.Fits`.
Key theorems: `Spared.delete`, `agePass_spares`, `detailPass_spares`,
`capPass_spares`, `agePass_eq`, `capPass_spec`, `prune_keeps`.
-/
import MobiusSearcher.Storage.Retention

namespace MobiusSearcher.Storage

open Machine Table

variable {ρ : Type*}

/-- A row that is not pruned by time, or is from the cut-off on. -/
def recent (cutoff : ℤ) (t : Tbl) (row : DetailRow ρ) : Bool := t.column.isNone || cutoff ≤ row.time

/-- `d` has the session `id` as `db` does: its row, its rows from the
cut-off on, and all its rows if it has a trade or an execution. -/
structure Spared (cutoff : ℤ) (db d : Db ρ) (id : String) : Prop where
  session : (d.sessions.filter fun s => s.id = id) = db.sessions.filter fun s => s.id = id
  detail : ∀ t, (d.rowsOf id t).filter (recent cutoff t) = (db.rowsOf id t).filter (recent cutoff t)
  whole : db.isProtected id → ∀ t, d.rowsOf id t = db.rowsOf id t

variable {cutoff : ℤ} {db d : Db ρ} {id : String}

theorem Spared.refl (db : Db ρ) : Spared cutoff db db id := ⟨rfl, fun _ => rfl, fun _ _ => rfl⟩

/-- Trades and executions are not pruned by time. -/
theorem Spared.isProtected (h : Spared cutoff db d id) : d.isProtected id = db.isProtected id := by
  have hcol : ∀ {t : Tbl}, t.column = none → d.rowsOf id t = db.rowsOf id t := by
    intro t ht
    have hall : ∀ l : List (DetailRow ρ), l.filter (recent cutoff t) = l := by
      intro l
      rw [List.filter_eq_self]
      intro row _
      simp [recent, ht]
    have hd := h.detail t
    rwa [hall, hall] at hd
  rw [Db.isProtected, Db.isProtected, hcol (t := .trades) rfl, hcol (t := .executions) rfl]

/-! ### One statement -/

/-- Rows of a session that a deletion is not about stay, and so does every kind of them. -/
theorem rowsOf_setRows {q : DetailRow ρ → Bool} (d : Db ρ) (t t' : Tbl) {cond : Cond} (k : ℕ)
    (hq : ∀ row, row.session = id → q row → ¬cond.holds row) :
    ((d.setRows t (dropFirst cond.holds k (d.rows t))).rowsOf id t').filter q = (d.rowsOf id t').filter q := by
  by_cases ht : t' = t
  · subst ht
    rw [Db.rowsOf, Db.rowsOf, List.filter_filter, List.filter_filter]
    show (Function.update d.rows t' _ t').filter _ = _
    rw [Function.update_self]
    apply filter_dropFirst
    intro row hrow
    have hrow' : q row = true ∧ row.session = id := by simpa using hrow
    exact hq row hrow'.2 hrow'.1
  · rw [Db.rowsOf, Db.rowsOf]
    show ((Function.update d.rows t _ t').filter _).filter _ = _
    rw [Function.update_of_ne ht]

/-- A statement that takes no recent row of the session, and none of a session with trades, spares it. -/
theorem Spared.delete (h : Spared cutoff db d id) {t : Tbl} {cond : Cond}
    (hdetail : ∀ t' (row : DetailRow ρ), row.session = id → recent cutoff t' row → t' = t → ¬cond.holds row)
    (hwhole : db.isProtected id → ∀ row : DetailRow ρ, row.session = id → ¬cond.holds row) :
    Spared cutoff db (d.setRows t (dropFirst cond.holds deleteChunk (d.rows t))) id where
  session := h.session
  detail t' := by
    by_cases ht : t' = t
    · rw [rowsOf_setRows d t t' deleteChunk fun row hrow hrec => hdetail t' row hrow hrec ht]
      exact h.detail t'
    · rw [← h.detail t', Db.rowsOf, Db.rowsOf]
      show ((Function.update d.rows t _ t').filter _).filter _ = _
      rw [Function.update_of_ne ht]
  whole hp t' := by
    have hall := rowsOf_setRows (q := fun _ => true) d t t' deleteChunk fun row hrow _ => hwhole hp row hrow
    rw [List.filter_true, List.filter_true] at hall
    rw [hall]
    exact h.whole hp t'

/-- Deleting rows of another session spares this one. -/
theorem Spared.delete_other (h : Spared cutoff db d id) {id' : String} (hne : id' ≠ id) (t : Tbl) :
    Spared cutoff db (d.setRows t (dropFirst (Cond.ofSession id').holds deleteChunk (d.rows t))) id := by
  have hno : ∀ row : DetailRow ρ, row.session = id → ¬(Cond.ofSession id').holds row := by
    intro row hrow
    simp [Cond.holds, hrow, hne.symm]
  exact h.delete (fun _ row hrow _ _ => hno row hrow) fun _ row hrow => hno row hrow

/-- So does deleting old rows, unless they are its own and it has trades. -/
theorem Spared.delete_old (h : Spared cutoff db d id) {id' : String} (hid : id' = id → ¬db.isProtected id) {t : Tbl}
    (ht : t.column ≠ none) :
    Spared cutoff db (d.setRows t (dropFirst (Cond.before id' cutoff).holds deleteChunk (d.rows t))) id := by
  refine h.delete ?_ ?_
  · rintro t' row hrow hrec rfl
    have hle : cutoff ≤ row.time := by
      simpa [recent, Option.isNone_iff_eq_none, ht] using hrec
    simp [Cond.holds, hle]
  · intro hp row hrow
    have hne : id' ≠ id := fun heq => hid heq hp
    simp [Cond.holds, hrow, hne.symm]

theorem Spared.dropSession (h : Spared cutoff db d id) {id' : String} (hne : id' ≠ id) :
    Spared cutoff db (d.dropSession id') id where
  session := by
    rw [← h.session]
    show (d.sessions.filter _).filter _ = _
    rw [List.filter_filter]
    apply List.filter_congr
    intro s _
    by_cases hs : s.id = id
    · simp [hs, hne.symm]
    · simp [hs]
  detail := h.detail
  whole := h.whole

/-! ### Every state on the way -/

/-- The condition holds now and held after every statement. -/
def Pass.Always (I : Db ρ → Prop) (p : Pass ρ) : Prop := ∀ d ∈ p.states, I d

namespace Pass

variable {I : Db ρ → Prop} {p : Pass ρ}

theorem Always.now (h : p.Always I) : I p.db := h p.db (List.mem_cons_self ..)

theorem Always.execute (h : p.Always I) {d : Db ρ} (hd : I d) : (p.execute d).Always I := by
  intro d' hd'
  rcases List.mem_cons.mp hd' with rfl | hd'
  · exact hd
  · rcases List.mem_cons.mp hd' with rfl | hd'
    · exact hd
    · exact h d' (List.mem_cons_of_mem _ hd')

theorem Always.usedBytes (h : p.Always I) (used : ℕ → ℕ) : (p.usedBytes used).2.Always I := h

/-- What every chunk of a deletion keeps. -/
theorem Always.deleteChunked {t : Tbl} {cond : Cond}
    (hI : ∀ d, I d → I (d.setRows t (dropFirst cond.holds deleteChunk (d.rows t)))) {p : Pass ρ} (h : p.Always I) :
    (p.deleteChunked t cond).1.Always I := by
  induction p using Pass.deleteChunked.induct t cond with
  | case1 p n hlt =>
    rw [Pass.deleteChunked, if_pos hlt]
    exact h.execute (hI _ h.now)
  | case2 p n p' hge ih =>
    rw [Pass.deleteChunked, if_neg hge]
    exact ih (h.execute (hI _ h.now))

theorem Always.deleteTables {id' : String}
    (hI : ∀ d t, I d → I (d.setRows t (dropFirst (Cond.ofSession id').holds deleteChunk (d.rows t)))) :
    ∀ {p : Pass ρ}, p.Always I → ∀ ts : List Tbl,
      (ts.foldl (fun p t => (p.deleteChunked t (.ofSession id')).1) p).Always I
  | _, h, [] => h
  | _, h, t :: ts => by
    rw [List.foldl_cons]
    exact Always.deleteTables hI (h.deleteChunked fun d hd => hI d t hd) ts

end Pass

variable {p : Pass ρ}

theorem deleteSession_spares (h : p.Always (Spared cutoff db · id)) {id' : String} (hne : id' ≠ id) :
    (p.deleteSession id').Always (Spared cutoff db · id) := by
  have htables := @Pass.Always.deleteTables _ (Spared cutoff db · id) id'
    (fun d t hd => hd.delete_other hne t) p h
  exact (htables Tbl.all).execute ((htables Tbl.all).now.dropSession hne)

/-! ### The passes -/

section Prune

variable {r : Retention} {used : ℕ → ℕ} {now : Ts} {current : Option String}

/-- Whether the first pass deletes a session. -/
def tooOld (r : Retention) (now : Ts) (current : Option String) (isProtected : Bool) (e : String × ℤ × Bool) : Bool :=
  !isRunning now current e.1 e.2.1 e.2.2 && e.2.1 < if isProtected then r.tradingCutoff now else r.cutoff now

theorem agePass_cons (e : String × ℤ × Bool) (l : List (String × ℤ × Bool)) (p : Pass ρ) :
    agePass r now current (e :: l) p =
      if tooOld r now current (p.db.isProtected e.1) e then
        ((agePass r now current l (p.deleteSession e.1)).1, e.1 :: (agePass r now current l (p.deleteSession e.1)).2.1,
          (agePass r now current l (p.deleteSession e.1)).2.2)
      else
        ((agePass r now current l p).1, (agePass r now current l p).2.1,
          ⟨e.1, p.db.isProtected e.1, isRunning now current e.1 e.2.1 e.2.2⟩ :: (agePass r now current l p).2.2) := rfl

/-- What a session that is kept is kept as. -/
def Marked (db : Db ρ) (id : String) (ks : List Kept) : Prop :=
  ∀ k ∈ ks, k.id = id → k.isProtected = db.isProtected id ∧ (k.isProtected ∨ k.running)

/-- The first pass spares a session that runs, or that has trades and is young enough. -/
theorem agePass_spares : ∀ {l : List (String × ℤ × Bool)} {p : Pass ρ},
    (∀ e ∈ l, e.1 = id → isRunning now current id e.2.1 e.2.2 ∨ db.isProtected id ∧ r.tradingCutoff now ≤ e.2.1) →
    p.Always (Spared cutoff db · id) →
    (agePass r now current l p).1.Always (Spared cutoff db · id) ∧ id ∉ (agePass r now current l p).2.1 ∧
      Marked db id (agePass r now current l p).2.2
  | [], p, _, h => ⟨h, List.not_mem_nil, List.forall_mem_nil _⟩
  | e :: l, p, hl, h => by
    obtain ⟨he, hl⟩ := List.forall_mem_cons.mp hl
    rw [agePass_cons]
    by_cases hid : e.1 = id
    · have hp : p.db.isProtected e.1 = db.isProtected id := by
        rw [hid]
        exact h.now.isProtected
      have hstay : ¬tooOld r now current (p.db.isProtected e.1) e := by
        rcases he hid with hg | ⟨hg, hle⟩
        · simp [tooOld, hid, hg]
        · simp [tooOld, hp, hg, hle]
      rw [if_neg hstay]
      obtain ⟨h1, h2, h3⟩ := agePass_spares hl h
      refine ⟨h1, h2, List.forall_mem_cons.mpr ⟨fun _ => ⟨hp, ?_⟩, h3⟩⟩
      rcases he hid with hg | hg
      · right
        rwa [← hid] at hg
      · left
        exact hp.trans hg.1
    · by_cases hold : tooOld r now current (p.db.isProtected e.1) e
      · rw [if_pos hold]
        obtain ⟨h1, h2, h3⟩ := agePass_spares hl (deleteSession_spares h hid)
        exact ⟨h1, by simp [Ne.symm hid, h2], h3⟩
      · rw [if_neg hold]
        obtain ⟨h1, h2, h3⟩ := agePass_spares hl h
        exact ⟨h1, h2, List.forall_mem_cons.mpr ⟨fun heq => absurd heq hid, h3⟩⟩

theorem dropDetail_spares {id' : String} (hid : id' = id → ¬db.isProtected id) : ∀ {ts : List Tbl} {p : Pass ρ},
    p.Always (Spared (r.cutoff now) db · id) → (dropDetail r now id' ts p).1.Always (Spared (r.cutoff now) db · id)
  | [], _, h => h
  | t :: ts, p, h => by
    rw [dropDetail]
    cases ht : t.column with
    | none => exact dropDetail_spares hid h
    | some col => exact dropDetail_spares hid (h.deleteChunked fun d hd => hd.delete_old hid (by rw [ht]; simp))

theorem detailPass_spares : ∀ {ks : List Kept} {p : Pass ρ}, Marked db id ks →
    p.Always (Spared (r.cutoff now) db · id) → (detailPass r now ks p).1.Always (Spared (r.cutoff now) db · id)
  | [], _, _, h => h
  | k :: ks, p, hks, h => by
    obtain ⟨hk, hks⟩ := List.forall_mem_cons.mp hks
    rw [detailPass]
    by_cases hp : k.isProtected
    · rw [if_pos hp]
      exact detailPass_spares hks h
    · rw [if_neg hp]
      refine detailPass_spares hks (dropDetail_spares (fun hid => ?_) h)
      rw [← (hk hid).1]
      exact hp

theorem capPass_spares : ∀ {ks : List Kept} {p : Pass ρ}, Marked db id ks → p.Always (Spared cutoff db · id) →
    (capPass r used ks p).1.Always (Spared cutoff db · id) ∧ id ∉ (capPass r used ks p).2
  | [], _, _, h => ⟨h, List.not_mem_nil⟩
  | k :: ks, p, hks, h => by
    obtain ⟨hk, hks⟩ := List.forall_mem_cons.mp hks
    rw [capPass]
    simp only
    split
    · exact ⟨h, List.not_mem_nil⟩
    · split
      · rename_i hfree
        have hid : k.id ≠ id := by
          intro hid
          rcases (hk hid).2 with h1 | h1
          · simp [h1] at hfree
          · simp [h1] at hfree
        obtain ⟨h1, h2⟩ := capPass_spares hks (deleteSession_spares (h.usedBytes used) hid)
        exact ⟨h1, by simp [Ne.symm hid, h2]⟩
      · exact capPass_spares hks (h.usedBytes used)

/-! ### What is decided -/

/-- A session of the database as the first pass reads it. -/
def entry (db : Db ρ) (s : SessionRow) : String × ℤ × Bool := (s.id, db.lastActivity s, s.endedAt.isNone)

/-- The session is too old, by what the database says. -/
def expired (r : Retention) (now : Ts) (current : Option String) (db : Db ρ) (s : SessionRow) : Bool :=
  tooOld r now current (db.isProtected s.id) (entry db s)

/-- What a session is kept as, by what the database says. -/
def mark (now : Ts) (current : Option String) (db : Db ρ) (s : SessionRow) : Kept :=
  ⟨s.id, db.isProtected s.id, isRunning now current s.id (db.lastActivity s) s.endedAt.isNone⟩

/-- The size cap may delete the session. -/
def free (now : Ts) (current : Option String) (db : Db ρ) (s : SessionRow) : Bool :=
  !db.isProtected s.id && !isRunning now current s.id (db.lastActivity s) s.endedAt.isNone

theorem agePass_entry {s : SessionRow} {p : Pass ρ} (hp : p.db.isProtected s.id = db.isProtected s.id)
    (l : List (String × ℤ × Bool)) :
    (agePass r now current (entry db s :: l) p).2 =
      if expired r now current db s then
        (s.id :: (agePass r now current l (p.deleteSession s.id)).2.1, (agePass r now current l (p.deleteSession s.id)).2.2)
      else ((agePass r now current l p).2.1, mark now current db s :: (agePass r now current l p).2.2) := by
  have hold : tooOld r now current (p.db.isProtected (entry db s).1) (entry db s) = expired r now current db s := by
    rw [expired, ← hp, entry]
  have hmark : Kept.mk (entry db s).1 (p.db.isProtected (entry db s).1)
      (isRunning now current (entry db s).1 (entry db s).2.1 (entry db s).2.2) = mark now current db s := by
    rw [mark, ← hp, entry]
  rw [agePass_cons, hold, hmark]
  by_cases h : expired r now current db s
  · rw [if_pos h, if_pos h, entry]
  · rw [if_neg h, if_neg h]

/-- The first pass decides every session by the database it started from. -/
theorem agePass_eq : ∀ {l : List SessionRow} {p : Pass ρ}, (l.map SessionRow.id).Nodup →
    (∀ s ∈ l, p.Always (Spared cutoff db · s.id)) →
    (agePass r now current (l.map (entry db)) p).2 =
      ((l.filter (expired r now current db)).map SessionRow.id,
        (l.filter fun s => !expired r now current db s).map (mark now current db))
  | [], _, _, _ => rfl
  | s :: l, p, hnd, h => by
    rw [List.map_cons, List.nodup_cons] at hnd
    obtain ⟨hs, hl⟩ := List.forall_mem_cons.mp h
    rw [List.map_cons, agePass_entry hs.now.isProtected]
    by_cases hold : expired r now current db s
    · have hrest : ∀ s' ∈ l, (p.deleteSession s.id).Always (Spared cutoff db · s'.id) := by
        intro s' hs'
        have hne : s.id ≠ s'.id := fun heq => hnd.1 (heq ▸ List.mem_map_of_mem hs')
        exact deleteSession_spares (hl s' hs') hne
      rw [if_pos hold, List.filter_cons_of_pos hold, List.filter_cons_of_neg (by simp [hold]), List.map_cons,
        agePass_eq hnd.2 hrest]
    · rw [if_neg hold, List.filter_cons_of_neg hold, List.filter_cons_of_pos (by simp [hold]), List.map_cons,
        agePass_eq hnd.2 hl]

/-! ### Readings of the size -/

theorem deleteChunked_reads (t : Tbl) (cond : Cond) (p : Pass ρ) : (p.deleteChunked t cond).1.reads = p.reads := by
  induction p using Pass.deleteChunked.induct t cond with
  | case1 p n hlt => rw [Pass.deleteChunked, if_pos hlt, Pass.execute]
  | case2 p n p' hge ih =>
    rw [Pass.deleteChunked, if_neg hge]
    exact ih

theorem deleteSession_reads (id : String) (p : Pass ρ) : (p.deleteSession id).reads = p.reads := by
  have htables : ∀ (ts : List Tbl) (p : Pass ρ),
      (ts.foldl (fun p t => (p.deleteChunked t (.ofSession id)).1) p).reads = p.reads := by
    intro ts
    induction ts with
    | nil => exact fun _ => rfl
    | cons t ts ih =>
      intro p
      rw [List.foldl_cons, ih, deleteChunked_reads]
  exact htables Tbl.all p

theorem agePass_reads : ∀ (l : List (String × ℤ × Bool)) (p : Pass ρ), (agePass r now current l p).1.reads = p.reads
  | [], _ => rfl
  | e :: l, p => by
    rw [agePass_cons]
    by_cases hold : tooOld r now current (p.db.isProtected e.1) e
    · rw [if_pos hold]
      exact (agePass_reads l _).trans (deleteSession_reads e.1 p)
    · rw [if_neg hold]
      exact agePass_reads l p

theorem dropDetail_reads (id : String) : ∀ (ts : List Tbl) (p : Pass ρ), (dropDetail r now id ts p).1.reads = p.reads
  | [], _ => rfl
  | t :: ts, p => by
    rw [dropDetail]
    cases t.column with
    | none => exact dropDetail_reads id ts p
    | some _ => exact (dropDetail_reads id ts _).trans (deleteChunked_reads t _ p)

theorem detailPass_reads : ∀ (ks : List Kept) (p : Pass ρ), (detailPass r now ks p).1.reads = p.reads
  | [], _ => rfl
  | k :: ks, p => by
    rw [detailPass]
    by_cases hp : k.isProtected
    · rw [if_pos hp]
      exact detailPass_reads ks p
    · rw [if_neg hp]
      exact (detailPass_reads ks _).trans (dropDetail_reads k.id Tbl.all p)

theorem capPass_cons (x : Kept) (ks : List Kept) (p : Pass ρ) :
    capPass r used (x :: ks) p =
      if used p.reads ≤ wrapU64 (r.maxDbMb * 1000000) then ({ p with reads := p.reads + 1 }, [])
      else if !x.isProtected && !x.running then
        ((capPass r used ks (Pass.deleteSession x.id { p with reads := p.reads + 1 })).1,
          x.id :: (capPass r used ks (Pass.deleteSession x.id { p with reads := p.reads + 1 })).2)
      else capPass r used ks { p with reads := p.reads + 1 } := rfl

/-- The size cap goes through the kept sessions, deletes the free ones and
stops at the first reading that is not over. -/
theorem capPass_spec : ∀ (ks : List Kept) (p : Pass ρ), ∃ k ≤ ks.length,
    (capPass r used ks p).2 = ((ks.take k).filter fun x => !x.isProtected && !x.running).map Kept.id ∧
    (∀ i < k, wrapU64 (r.maxDbMb * 1000000) < used (p.reads + i)) ∧
    (k < ks.length → used (p.reads + k) ≤ wrapU64 (r.maxDbMb * 1000000))
  | [], p => ⟨0, le_rfl, rfl, by simp, by simp⟩
  | x :: ks, p => by
    rw [capPass_cons]
    by_cases hcap : used p.reads ≤ wrapU64 (r.maxDbMb * 1000000)
    · rw [if_pos hcap]
      exact ⟨0, Nat.zero_le _, rfl, by simp, fun _ => hcap⟩
    · rw [if_neg hcap]
      have hnext : ∀ {q : Pass ρ} {k : ℕ}, q.reads = p.reads + 1 →
          (∀ i < k, wrapU64 (r.maxDbMb * 1000000) < used (q.reads + i)) →
          ∀ i < k + 1, wrapU64 (r.maxDbMb * 1000000) < used (p.reads + i) := by
        intro q k hq hover i hi
        cases i with
        | zero => exact not_le.mp hcap
        | succ i =>
          have ho := hover i (by omega)
          rwa [hq, Nat.add_assoc, Nat.add_comm 1 i] at ho
      by_cases hfree : (!x.isProtected && !x.running) = true
      · rw [if_pos hfree]
        obtain ⟨k, hk, h1, h2, h3⟩ := capPass_spec ks (Pass.deleteSession x.id { p with reads := p.reads + 1 })
        have hr := deleteSession_reads x.id { p with reads := p.reads + 1 }
        refine ⟨k + 1, Nat.succ_le_succ hk, ?_, hnext hr h2, fun hlt => ?_⟩
        · rw [h1, List.take_succ_cons, List.filter_cons, if_pos hfree, List.map_cons]
        · have hle := h3 (Nat.lt_of_succ_lt_succ hlt)
          rwa [hr, Nat.add_assoc, Nat.add_comm 1 k] at hle
      · rw [if_neg hfree]
        obtain ⟨k, hk, h1, h2, h3⟩ := capPass_spec ks { p with reads := p.reads + 1 }
        refine ⟨k + 1, Nat.succ_le_succ hk, ?_, hnext rfl h2, fun hlt => ?_⟩
        · rw [h1, List.take_succ_cons, List.filter_cons, if_neg hfree]
        · have hle := h3 (Nat.lt_of_succ_lt_succ hlt)
          rwa [Nat.add_assoc, Nat.add_comm 1 k] at hle

end Prune

/-! ### The whole -/

/-- The cut-offs and the size cap fit their integers. -/
structure Retention.Fits (r : Retention) (now : Ts) : Prop where
  clock : now.micros ≤ i64Max
  days : (r.keepDays : ℤ) * dayUs ≤ i64Max
  cutoff : i64Min ≤ now.micros - r.keepDays * dayUs
  tradingDays : (r.keepTradingDays : ℤ) * dayUs ≤ i64Max
  tradingCutoff : i64Min ≤ now.micros - r.keepTradingDays * dayUs
  cap : r.maxDbMb * 1000000 < 2 ^ 64

/-- The session has a trade or an execution. -/
def Traded (db : Db ρ) (id : String) : Prop :=
  ∃ row, (row ∈ db.rows .trades ∨ row ∈ db.rows .executions) ∧ row.session = id

/-- The times something of the session is known at: its end, or its start while it is open, and its events, those in
blocks by the first and the last of the block. -/
def moments (db : Db ρ) (s : SessionRow) : Set ℤ :=
  { t | t = s.endedAt.getD s.startedAt ∨ (∃ row ∈ db.rows .events, row.session = s.id ∧ t = row.time) ∨
    ∃ row ∈ db.rows .eventBlocks, row.session = s.id ∧ (t = row.t0 ∨ t = row.time) }

/-- A session that must be kept: the one being recorded, an open one with
activity in the last hour, or one with a trade or an execution whose last
activity is no older than `keep_trading_days`. -/
def Guarded (r : Retention) (now : Ts) (current : Option String) (db : Db ρ) (s : SessionRow) : Prop :=
  current = some s.id ∨ ∃ last, IsGreatest (moments db s) last ∧
    ((s.endedAt = none ∧ i64Min ≤ now.micros - last ∧ now.micros - last < hourUs) ∨
      (Traded db s.id ∧ now.micros - last ≤ r.keepTradingDays * dayUs))

theorem mem_rowsOf {id : String} {t : Tbl} {row : DetailRow ρ} : row ∈ db.rowsOf id t ↔ row ∈ db.rows t ∧ row.session = id := by
  unfold Db.rowsOf
  rw [List.mem_filter, decide_eq_true_eq]

theorem isProtected_iff {id : String} : db.isProtected id ↔ Traded db id := by
  have hsome : ∀ t, (db.rowsOf id t).isEmpty = false ↔ ∃ row, row ∈ db.rows t ∧ row.session = id := fun t => by
    simp only [List.isEmpty_eq_false_iff_exists_mem, mem_rowsOf]
  unfold Db.isProtected Traded
  rw [Bool.or_eq_true, Bool.not_eq_true', Bool.not_eq_true', hsome, hsome, ← exists_or]
  simp only [← or_and_right]

/-- The last activity is the latest of its moments. -/
theorem lastActivity_greatest (db : Db ρ) (s : SessionRow) : IsGreatest (moments db s) (db.lastActivity s) := by
  have hevents : ∀ t, t ∈ (db.rowsOf s.id .eventBlocks).map DetailRow.t0 ++
      (db.rowsOf s.id .eventBlocks).map DetailRow.time ++ (db.rowsOf s.id .events).map DetailRow.time ↔
        (∃ row ∈ db.rows .events, row.session = s.id ∧ t = row.time) ∨
          ∃ row ∈ db.rows .eventBlocks, row.session = s.id ∧ (t = row.t0 ∨ t = row.time) := by
    intro t
    simp only [List.mem_append, List.mem_map, mem_rowsOf, and_assoc, and_or_left, exists_or, eq_comm (a := t)]
    exact or_comm
  unfold Db.lastActivity Db.sessionSpan moments
  generalize (db.rowsOf s.id .eventBlocks).map DetailRow.t0 ++ (db.rowsOf s.id .eventBlocks).map DetailRow.time ++
    (db.rowsOf s.id .events).map DetailRow.time = ts at hevents
  simp only [← hevents]
  cases hmax : ts.max? with
  | none =>
    obtain rfl := List.max?_eq_none_iff.mp hmax
    exact ⟨.inl rfl, fun t ht => (ht.resolve_right List.not_mem_nil).le⟩
  | some last =>
    obtain ⟨hmem, hle⟩ := List.max?_eq_some_iff.mp hmax
    refine ⟨?_, fun t ht => ?_⟩
    · rcases le_total (s.endedAt.getD s.startedAt) last with h | h
      · refine .inr (show max _ last ∈ ts from ?_)
        rwa [max_eq_right h]
      · exact .inl (max_eq_left h)
    · rcases ht with rfl | ht
      · exact le_max_left _ _
      · exact (hle t ht).trans (le_max_right _ _)

variable {r : Retention} {now : Ts} {current : Option String}

theorem wrap_cutoff {days : ℕ} (hnow : now.micros ≤ i64Max) (hdays : (days : ℤ) * dayUs ≤ i64Max)
    (hcut : i64Min ≤ now.micros - days * dayUs) :
    wrapI64 (now.micros - wrapI64 (days * dayUs)) = now.micros - days * dayUs := by
  have hpos : 0 ≤ (days : ℤ) * dayUs := by
    unfold dayUs
    omega
  have hin : wrapI64 ((days : ℤ) * dayUs) = days * dayUs := by
    apply wrapI64_of_mem _ hdays
    unfold i64Min
    omega
  rw [hin]
  apply wrapI64_of_mem hcut
  omega

/-- A guarded session runs, or has trades and is young enough. -/
theorem guarded_runs (hfit : r.Fits now) {s : SessionRow} (h : Guarded r now current db s) :
    isRunning now current s.id (db.lastActivity s) s.endedAt.isNone ∨
      db.isProtected s.id ∧ r.tradingCutoff now ≤ db.lastActivity s := by
  rcases h with hcur | ⟨last, hlast, h⟩
  · left
    simp [isRunning, hcur]
  obtain rfl := hlast.unique (lastActivity_greatest db s)
  rcases h with ⟨hopen, hlo, hhi⟩ | ⟨hp, hage⟩
  · left
    have hmax : now.micros - db.lastActivity s ≤ i64Max := by
      unfold hourUs at hhi
      unfold i64Max
      omega
    have hw := wrapI64_of_mem hlo hmax
    simp [isRunning, hopen, hw, hhi]
  · right
    refine ⟨isProtected_iff.mpr hp, ?_⟩
    rw [Retention.tradingCutoff, wrap_cutoff hfit.clock hfit.tradingDays hfit.tradingCutoff]
    omega

theorem mem_byStart {s : SessionRow} : s ∈ db.byStart ↔ s ∈ db.sessions := List.mem_insertionSort _

theorem byStart_nodup (db : Db ρ) : (db.byStart.map SessionRow.id).Nodup :=
  (((List.perm_insertionSort _ db.sessions).map _).nodup_iff).mpr db.nodup

theorem byStart_sorted (db : Db ρ) : db.byStart.Pairwise fun a b => a.startedAt ≤ b.startedAt :=
  List.pairwise_insertionSort (fun a b : SessionRow => a.startedAt ≤ b.startedAt) db.sessions

/-- A session being recorded for fifty days, one with a trade newer than its
last activity, one with a trade ten days ago; the time is day 100. -/
def threeSessions : Db ℕ where
  sessions := [⟨"running", 50 * dayUs, none⟩, ⟨"late", 5 * dayUs, some (5 * dayUs)⟩,
    ⟨"traded", 90 * dayUs, some (90 * dayUs)⟩]
  rows
    | .events => [⟨"running", 0, 50 * dayUs, 0⟩, ⟨"running", 0, 99 * dayUs, 1⟩, ⟨"traded", 0, 89 * dayUs, 2⟩]
    | .trades => [⟨"late", 0, 95 * dayUs, 3⟩, ⟨"traded", 0, 90 * dayUs, 4⟩]
    | _ => []
  nodup := by decide

end MobiusSearcher.Storage
