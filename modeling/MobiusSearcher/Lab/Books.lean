/-
# The books of the lab stay whole

Wherever the program of `Lab/Bench.lean` was stopped, and however often: the
candles an experiment has booked rise, so none is booked twice; the account that
is stored is what the stored fills make of the capital, but for what the stored
text loses when it is read again; and a fill is only of a candle that a page
brought, and whose close the clock then showed to be near (`books_stay_whole`).

A process carries the newest candle it knows and, for each experiment, the last
one booked; `Fits` says how the two stand to the books. They fit at the start of
a process because what was booked is kept, and where nothing is remembered
because the exchange's page reaches back to what was booked.

Key definitions: `Kept`, `Makes`, `Written`, `Whole`, `Stands`, `Books`, `Fits`, `shell`.
Key theorems: `history_sound`, `bookDesks_sound`, `poll_sound`, `run_sound`, `books_stay_whole`.
-/
import MobiusSearcher.Lab.Bench

namespace MobiusSearcher
namespace Lab
namespace Bench

open FloatOps FloatFns Machine

section World

variable {F J : Type} [FloatFns F] (p : Plan F)

/-! ### Whole books -/

variable (read : J → Except String (Account F)) (write : Account F → J)

/-- Fills one after the other; between two the account may have been stored and read again. -/
inductive Kept (a : Account F) : List (Entry F) → Account F → Prop
  | start : Kept a [] a
  | leads {es fs : List (Entry F)} {b c : Account F} : Kept a es b → Leads p.costs b fs c → Kept a (es ++ fs) c
  | reload {es : List (Entry F)} {b c : Account F} : Kept a es b → read (write b) = .ok c → Kept a es c

/-- What a fill did, as it is stored. -/
def LabFill.filled (f : LabFill F) : Filled F := ⟨f.buy, f.usd, f.sol, f.costUsd⟩

/-- The stored fills make this account of the capital. -/
def Makes (fills : List (LabFill F)) (a : Account F) : Prop :=
  ∃ es, Kept p read write (Account.new p.capital) es a ∧ fills.map LabFill.filled = es.map Entry.filled

/-- At `t` the candle had closed no more than a third of a bar ago. -/
def Timely (t ts : ℤ) : Prop := le (lit (t - (ts + p.barMs) : ℤ) : F) (lit (p.barMs : ℤ) * lateShare) = true

/-- A page of the coin brought the candle. -/
def Brought (log : List (Heard F)) (inst : String) (ts : ℤ) : Prop :=
  ∃ bars, Heard.candles inst bars ∈ log ∧ ∃ b ∈ bars, b.ts = ts

/-- After a page had brought the candle the clock was read, in time. -/
def Judged (log : List (Heard F)) (ts : ℤ) : Prop :=
  ∃ t before, Heard.clock t :: before <:+ log ∧ Brought before p.instrument ts ∧ Timely p t ts

/-- The fill was written later still. -/
def Written (log : List (Heard F)) (f : LabFill F) : Prop :=
  ∃ before, Heard.clock f.ts :: before <:+ log ∧ Judged p before f.barTs

/-- The rows of an experiment agree with each other. -/
structure Whole (log : List (Heard F)) (r : Rows F J) : Prop where
  /-- Each bar is booked after the ones before it. -/
  rising : r.equity.Pairwise fun a b => a.ts < b.ts
  /-- The state is of the last bar booked. -/
  state : r.state.map Prod.fst = r.equity.getLast?.map (·.ts)
  /-- The stored account is what the stored fills make. -/
  account : ∃ a, Makes p read write r.fills a ∧ ∀ s ∈ r.state, s.2 = write a
  /-- A fill is of a bar that was booked, and seen in time. -/
  fills : ∀ f ∈ r.fills, (∃ q ∈ r.equity, q.ts = f.barTs) ∧ Written p log f

/-- The rows of the file's experiments are whole, and of candles that are kept. -/
structure Sane (w : Store F J) : Prop where
  whole : ∀ name, Whole p read write w.log (w.rows name)
  cached : ∀ e ∈ p.experiments, ∀ q ∈ (w.rows e.name).equity, ∃ b ∈ w.cache p.instrument, b.ts = q.ts
  dated : ∀ inst, ∀ b ∈ w.cache inst, Dated b.ts

/-- In memory: the account the fills make, and a bar no booked one is past. -/
structure Stands (w : Store F J) (name : String) (acct : Account F) (cut : ℤ) : Prop where
  makes : Makes p read write (w.rows name).fills acct
  cut : ∀ q ∈ (w.rows name).equity, q.ts ≤ cut

end World

/-! ### What stays -/

section Stays

variable {F J : Type}

@[simp] theorem put_rows_self (w : Store F J) (name : String) (r : Rows F J) : (w.put name r).rows name = r := by
  simp [Store.put]

theorem put_rows_ne (w : Store F J) {name n : String} (r : Rows F J) (h : n ≠ name) :
    (w.put name r).rows n = w.rows n := by simp [Store.put, h]

@[simp] theorem insert_cache_self (w : Store F J) (inst : String) (bars : List (Bar F)) :
    (w.insert inst bars).cache inst = bars.foldl insertBar (w.cache inst) := by simp [Store.insert]

theorem insert_cache_ne (w : Store F J) {inst i : String} (bars : List (Bar F)) (h : i ≠ inst) :
    (w.insert inst bars).cache i = w.cache i := by simp [Store.insert, h]

theorem of_mem_insertBar {bars : List (Bar F)} {b c : Bar F} (h : c ∈ insertBar bars b) : c ∈ bars ∨ c = b :=
  (List.mem_append.mp h).imp (fun h => (List.mem_filter.mp h).1) List.mem_singleton.mp

/-- What is there was there, or is inserted. -/
theorem of_mem_insertBars {bars : List (Bar F)} {c : Bar F} : ∀ {kept : List (Bar F)}, c ∈ bars.foldl insertBar kept →
    c ∈ kept ∨ c ∈ bars := by
  induction bars with
  | nil => exact fun h => .inl h
  | cons b bars ih =>
    intro kept hc
    rcases ih hc with hc | hc
    · exact (of_mem_insertBar hc).imp_right fun h => List.mem_cons.mpr (.inl h)
    · exact .inr (List.mem_cons_of_mem _ hc)

theorem mem_insertBar {bars : List (Bar F)} {b c : Bar F} (h : c ∈ bars) : ∃ d ∈ insertBar bars b, d.ts = c.ts := by
  by_cases hts : c.ts = b.ts
  · exact ⟨b, by simp [insertBar], hts.symm⟩
  · exact ⟨c, by simp [insertBar, h, hts], rfl⟩

/-- A candle is replaced by one that starts with it, or stays. -/
theorem mem_insertBars {bars : List (Bar F)} {c : Bar F} : ∀ {kept : List (Bar F)}, (∃ d ∈ kept, d.ts = c.ts) →
    ∃ d ∈ bars.foldl insertBar kept, d.ts = c.ts := by
  induction bars with
  | nil => exact id
  | cons b bars ih =>
    rintro kept ⟨d, hd, hts⟩
    obtain ⟨d', hd', hts'⟩ := @mem_insertBar _ _ b _ hd
    exact ih ⟨d', hd', hts'.trans hts⟩

/-- What is inserted is there. -/
theorem mem_inserted {bars : List (Bar F)} {c : Bar F} : ∀ {kept : List (Bar F)}, c ∈ bars →
    ∃ d ∈ bars.foldl insertBar kept, d.ts = c.ts := by
  induction bars with
  | nil => exact fun h => nomatch h
  | cons b bars ih =>
    intro kept hc
    rw [List.foldl_cons]
    rcases List.mem_cons.mp hc with rfl | hc
    · exact mem_insertBars ⟨c, by simp [insertBar], rfl⟩
    · exact ih hc

namespace Later

theorem refl (w : Store F J) : Later w w :=
  ⟨rfl, List.suffix_rfl, fun _ b hb => ⟨b, hb, rfl⟩, fun _ c hc => .inr ⟨c, hc, rfl⟩⟩

theorem trans {w v u : Store F J} (h : Later w v) (h' : Later v u) : Later w u where
  rows := h'.rows.trans h.rows
  log := h.log.trans h'.log
  cache inst b hb := by
    obtain ⟨c, hc, hts⟩ := h.cache inst b hb
    obtain ⟨d, hd, hts'⟩ := h'.cache inst c hc
    exact ⟨d, hd, hts'.trans hts⟩
  dated inst d hd := by
    rcases h'.dated inst d hd with hdated | ⟨c, hc, hts'⟩
    · exact .inl hdated
    · rcases h.dated inst c hc with hdated | ⟨b, hb, hts⟩
      · exact .inl (hts' ▸ hdated)
      · exact .inr ⟨b, hb, hts.trans hts'⟩

theorem insert (w : Store F J) (inst : String) {bars : List (Bar F)} (hdated : ∀ b ∈ bars, Dated b.ts) :
    Later w (w.insert inst bars) where
  rows := rfl
  log := List.suffix_rfl
  cache i b hb := by
    by_cases hi : i = inst
    · subst hi
      rw [insert_cache_self]
      exact mem_insertBars ⟨b, hb, rfl⟩
    · rw [insert_cache_ne w bars hi]
      exact ⟨b, hb, rfl⟩
  dated i c hc := by
    by_cases hi : i = inst
    · subst hi
      rw [insert_cache_self] at hc
      rcases of_mem_insertBars hc with hc | hc
      · exact .inr ⟨c, hc, rfl⟩
      · exact .inl (hdated c hc)
    · rw [insert_cache_ne w bars hi] at hc
      exact .inr ⟨c, hc, rfl⟩

theorem hear (w : Store F J) (h : Heard F) : Later w (w.hear h) :=
  ⟨rfl, List.suffix_cons _ _, fun _ b hb => ⟨b, hb, rfl⟩, fun _ c hc => .inr ⟨c, hc, rfl⟩⟩

theorem answered [FloatFns F] (w : Store F J) (inst : String) (r : Except String (List (Row F))) :
    Later w (w.answered inst r) := by
  cases r with
  | error e => exact refl w
  | ok rows => exact hear w _

end Later

theorem Commits.later {w w' : Store F J} {inst : String} {bars : List (Bar F)} {r : Except String Unit}
    (h : Commits w (w.insert inst bars) r w') (hdated : ∀ b ∈ bars, Dated b.ts) : Later w w' := by
  rcases h with rfl | ⟨rfl, -⟩
  · exact Later.insert w inst hdated
  · exact Later.refl w'

theorem Commits.done {w w' done : Store F J} (h : Commits w done (.ok ()) w') : w' = done :=
  h.elim id fun h => absurd rfl h.2

variable [FloatFns F] {p : Plan F} {read : J → Except String (Account F)} {write : Account F → J}

omit [FloatFns F] in
theorem Brought.later {log log' : List (Heard F)} {inst : String} {ts : ℤ} (h : Brought log inst ts) (hl : log <:+ log') :
    Brought log' inst ts := by
  obtain ⟨bars, hbars, hb⟩ := h
  exact ⟨bars, hl.subset hbars, hb⟩

theorem Judged.later {log log' : List (Heard F)} {ts : ℤ} (h : Judged p log ts) (hl : log <:+ log') :
    Judged p log' ts := by
  obtain ⟨t, before, hbefore, hj⟩ := h
  exact ⟨t, before, hbefore.trans hl, hj⟩

theorem Written.later {log log' : List (Heard F)} {f : LabFill F} (h : Written p log f) (hl : log <:+ log') :
    Written p log' f := by
  obtain ⟨before, hbefore, hj⟩ := h
  exact ⟨before, hbefore.trans hl, hj⟩

theorem Whole.later {log log' : List (Heard F)} {r : Rows F J} (h : Whole p read write log r) (hl : log <:+ log') :
    Whole p read write log' r where
  rising := h.rising
  state := h.state
  account := h.account
  fills f hf := ⟨(h.fills f hf).1, (h.fills f hf).2.later hl⟩

theorem Sane.later {w w' : Store F J} (h : Sane p read write w) (hl : Later w w') : Sane p read write w' where
  whole name := by
    rw [hl.rows]
    exact (h.whole name).later hl.log
  cached e he q hq := by
    rw [hl.rows] at hq
    obtain ⟨b, hb, hts⟩ := h.cached e he q hq
    obtain ⟨c, hc, hts'⟩ := hl.cache _ b hb
    exact ⟨c, hc, hts'.trans hts⟩
  dated inst c hc := by
    rcases hl.dated inst c hc with hdated | ⟨b, hb, hts⟩
    · exact hdated
    · exact hts ▸ h.dated inst b hb

theorem Stands.later {w w' : Store F J} {name : String} {acct : Account F} {cut : ℤ}
    (h : Stands p read write w name acct cut) (hrows : w'.rows name = w.rows name) :
    Stands p read write w' name acct cut := ⟨hrows ▸ h.makes, hrows ▸ h.cut⟩

/-- Where a stored account is read as it was written, the fills lead to it. -/
theorem Kept.leads_of_exact (hexact : ∀ a, read (write a) = .ok a) {a b : Account F} {es : List (Entry F)}
    (h : Kept p read write a es b) : Leads p.costs a es b := by
  induction h with
  | start => exact SameMoney.refl a
  | leads _ hl ih => exact ih.append hl
  | reload _ hr ih =>
    rw [hexact] at hr
    exact Except.ok.inj hr ▸ ih

omit [FloatFns F] in
theorem newest_getLast {bars : List (Bar F)} (hne : bars ≠ []) : newest bars = (bars.getLast hne).ts := by
  rw [newest, List.getLast?_eq_some_getLast hne, Option.elim_some]

omit [FloatFns F] in
theorem Rising.le_newest {bars : List (Bar F)} (h : Rising bars) {b : Bar F} (hb : b ∈ bars) : b.ts ≤ newest bars := by
  have hne := List.ne_nil_of_mem hb
  rw [newest_getLast hne]
  rw [← List.dropLast_append_getLast hne] at hb
  rcases List.mem_append.mp hb with hb | hb
  · have hsplit : (bars.dropLast ++ [bars.getLast hne]).Pairwise fun a b => a.ts < b.ts := by
      rwa [List.dropLast_append_getLast hne]
    exact ((List.pairwise_append.mp hsplit).2.2 b hb _ (List.mem_singleton_self _)).le
  · rw [List.mem_singleton.mp hb]

end Stays

/-! ### Candles -/

section Candles

/-- A bar is four hours long at most. -/
theorem barOf_range {name : String} {ms : ℤ} (h : barOf name = some ms) : 0 < ms ∧ ms ≤ 14400000 := by
  unfold barOf at h
  split at h <;> cases h <;> decide

/-- What the program takes for in time is. -/
theorem timely_of_onTime {F : Type} [FloatFns F] {p : Plan F} {t ts : ℤ} (ht : 0 ≤ t ∧ t ≤ i64Max) (hts : Dated ts)
    (h : onTime p t ts = true) : Timely p t ts := by
  have hbar := barOf_range p.bars
  unfold Dated i64Max at hts
  unfold i64Max at ht
  have hclose : wrapI64 (ts + p.barMs) = ts + p.barMs := IsI64.wrap ⟨by unfold i64Min; omega, by unfold i64Max; omega⟩
  have hlate : wrapI64 (t - (ts + p.barMs)) = t - (ts + p.barMs) := IsI64.wrap ⟨by unfold i64Min; omega, by unfold i64Max; omega⟩
  unfold onTime at h
  rw [hclose, hlate] at h
  exact h

variable {F J : Type}

theorem mem_unstuttered {R : Bar F → Bar F → Prop} [DecidableRel R] (hR : ∀ a b, ¬ R a b → b.ts = a.ts) {x : Bar F} :
    ∀ {l : List (Bar F)} {a : Bar F}, x ∈ a :: l → ∃ c ∈ l.destutter' R a, c.ts = x.ts
  | [], a, hx => ⟨a, List.mem_singleton_self a, by rw [List.mem_singleton.mp hx]⟩
  | b :: l, a, hx => by
    by_cases hab : R a b
    · rw [List.destutter'_cons_pos _ hab]
      rcases List.mem_cons.mp hx with rfl | hx
      · exact ⟨x, List.mem_cons_self, rfl⟩
      · obtain ⟨c, hc, hts⟩ := mem_unstuttered hR hx
        exact ⟨c, List.mem_cons_of_mem _ hc, hts⟩
    · rw [List.destutter'_cons_neg _ hab]
      rcases List.mem_cons.mp hx with rfl | hx
      · exact mem_unstuttered hR List.mem_cons_self
      · rcases List.mem_cons.mp hx with rfl | hx
        · obtain ⟨c, hc, hts⟩ := mem_unstuttered hR (List.mem_cons_self (a := a) (l := l))
          exact ⟨c, hc, hts.trans (hR a x hab).symm⟩
        · exact mem_unstuttered hR (List.mem_cons_of_mem _ hx)

theorem mem_settled {bars : List (Bar F)} {b : Bar F} (h : b ∈ bars) : ∃ c ∈ settled bars, c.ts = b.ts := by
  have hmem : b ∈ bars.insertionSort fun a b => a.ts ≤ b.ts := (List.perm_insertionSort _ _).mem_iff.mpr h
  unfold settled
  generalize (bars.insertionSort fun a b => a.ts ≤ b.ts) = sorted at hmem
  cases sorted with
  | nil => exact nomatch hmem
  | cons a l => exact mem_unstuttered (fun a b hab => (not_not.mp hab).symm) hmem

theorem of_mem_settled {bars : List (Bar F)} {b : Bar F} (h : b ∈ settled bars) : b ∈ bars :=
  (List.perm_insertionSort _ _).mem_iff.mp ((List.destutter_sublist _ _).subset h)

/-- What is settled rises. -/
theorem rising_settled (bars : List (Bar F)) : Rising (settled bars) := by
  have : Std.Total fun a b : Bar F => a.ts ≤ b.ts := ⟨fun a b => le_total a.ts b.ts⟩
  have : IsTrans (Bar F) fun a b => a.ts ≤ b.ts := ⟨fun _ _ _ => le_trans⟩
  have hsorted := List.pairwise_insertionSort (fun a b : Bar F => a.ts ≤ b.ts) bars
  have hle := (hsorted.sublist (List.destutter_sublist (fun a b : Bar F => a.ts ≠ b.ts) _)).isChain
  have hne := List.isChain_destutter (fun a b : Bar F => a.ts ≠ b.ts) (bars.insertionSort fun a b => a.ts ≤ b.ts)
  have : IsTrans (Bar F) fun a b => a.ts < b.ts := ⟨fun _ _ _ => lt_trans⟩
  exact List.isChain_iff_pairwise.mp (List.isChain_iff_getElem.mpr fun i hi =>
    lt_of_le_of_ne (List.isChain_iff_getElem.mp hle i hi) (List.isChain_iff_getElem.mp hne i hi))

theorem candles_pos [FloatFns F] {rows : List (Row F)} {b : Bar F} (h : b ∈ candles rows) : 0 < b.ts := by
  have hb := (List.mem_filter.mp h).2
  simp only [Bool.and_eq_true, decide_eq_true_eq] at hb
  exact hb.2

variable [FloatFns F] {p : Plan F} {read : J → Except String (Account F)} {write : Account F → J} {w : Store F J}

/-- What the program keeps of its world at every question, and shows at its end. -/
abbrev Holds {α : Type} (p : Plan F) (read : J → Except String (Account F)) (write : Account F → J)
    (Q : α → Store F J → Prop) (x : Script F J α) (w : Store F J) : Prop :=
  x.Sound (Answers p) (fun w _ => Sane p read write w) Q w

/-- A candle of a history: asked for, dated, and brought by a page. -/
structure Fetched (w : Store F J) (inst : String) (back : ℤ) (b : Bar F) : Prop where
  back : back ≤ b.ts
  dated : Dated b.ts
  brought : Brought w.log inst b.ts

omit [FloatFns F] in
theorem Fetched.later {w' : Store F J} {inst : String} {back : ℤ} {b : Bar F} (h : Fetched w inst back b)
    (hl : Later w w') : Fetched w' inst back b := ⟨h.back, h.dated, h.brought.later hl.log⟩

/-- Of the candles from a page on: each was asked for and brought; those there were stay; and if a page came for the
file's coin, with every candle of it asked for, there is one as new as each that was booked. -/
theorem pages_sound (inst : String) (back : ℤ) : ∀ (tries : ℕ) (after : ℤ) (out : List (Bar F)) (w : Store F J),
    Sane p read write w → (∀ b ∈ out, Fetched w inst back b) →
    Holds p read write (fun r w' => Later w w' ∧ ∀ res, r = .ok res → (∀ b ∈ out, b ∈ res) ∧
      (∀ b ∈ res, Fetched w' inst back b) ∧
      (inst = p.instrument → back ≤ 1 → res = out ∨ ∀ e ∈ p.experiments, ∀ q ∈ (w.rows e.name).equity, q.ts < after →
        ∃ b ∈ res, q.ts ≤ b.ts)) (pages inst back tries after out) w
  | 0, _, _, w, _, _ => ⟨Later.refl w, nofun⟩
  | tries + 1, after, out, w, hs, hout => by
    unfold pages
    refine Prog.Sound.ite (fun _ => ?_) fun _ => ⟨Later.refl w, fun res hres => ?_⟩
    · refine Prog.Sound.query hs ?_
      rintro r w' ⟨rfl, hrows⟩
      have hl := Later.answered w inst r
      rcases r with e | rows
      · exact ⟨hl, nofun⟩
      · obtain ⟨hdated, hreach⟩ := hrows rows rfl
        dsimp only
        cases hlast : rows.getLast? with
        | none =>
          refine ⟨hl, fun res hres => ?_⟩
          cases hres
          exact ⟨fun b hb => hb, fun b hb => (hout b hb).later hl, fun _ _ => .inl rfl⟩
        | some oldest =>
          have hne : rows ≠ [] := fun hnil => by simp [hnil] at hlast
          have hmore : ∀ b ∈ out ++ (candles rows).filter (back ≤ ·.ts), Fetched (w.answered inst (.ok rows)) inst back b := by
            intro b hb
            rcases List.mem_append.mp hb with hb | hb
            · exact (hout b hb).later hl
            · obtain ⟨hb, hback⟩ := List.mem_filter.mp hb
              exact ⟨of_decide_eq_true hback, hdated b hb, _, List.mem_cons_self, b, hb, rfl⟩
          refine (pages_sound inst back tries oldest.bar.ts _ _ (hs.later hl) hmore).mono ?_
          rintro r w' ⟨hl', hres⟩
          refine ⟨hl.trans hl', fun res hr => ?_⟩
          obtain ⟨hstay, hfetched, -⟩ := hres res hr
          refine ⟨fun b hb => hstay b (List.mem_append_left _ hb), hfetched, fun hinst hone => .inr fun e he q hq hlt => ?_⟩
          obtain ⟨b, hb, hle⟩ := hreach hne hinst e he q hq hlt
          have hpos := candles_pos hb
          exact ⟨b, hstay b (List.mem_append_right _ (List.mem_filter.mpr ⟨hb, decide_eq_true (by omega)⟩)), hle⟩
    · cases hres
      exact ⟨fun b hb => hb, hout, fun _ _ => .inl rfl⟩

/-- Candles of a history rise, and each was asked for and brought; and for the file's coin, if there are any, there is
one as new as each that was booked before `before`. -/
theorem history_sound (hs : Sane p read write w) (tries : ℕ) (inst : String) (before back : ℤ) :
    Holds p read write (fun r w' => Later w w' ∧ ∀ out, r = .ok out → Rising out ∧ (∀ b ∈ out, Fetched w' inst back b) ∧
      (inst = p.instrument → back ≤ 1 → out ≠ [] → ∀ e ∈ p.experiments, ∀ q ∈ (w.rows e.name).equity, q.ts < before →
        ∃ b ∈ out, q.ts ≤ b.ts)) (history tries inst before back) w := by
  refine Prog.Sound.seq (pages_sound inst back tries before [] w hs (by simp)) ?_
  rintro (e | res) w' ⟨hl, hres⟩
  · exact ⟨hl, nofun⟩
  · obtain ⟨-, hfetched, hcover⟩ := hres res rfl
    refine ⟨hl, fun out hout => ?_⟩
    cases hout
    refine ⟨rising_settled res, fun b hb => hfetched b (of_mem_settled hb), fun hinst hone hne e he q hq hlt => ?_⟩
    rcases hcover hinst hone with rfl | hcover
    · exact absurd (by simp [settled]) hne
    · obtain ⟨b, hb, hle⟩ := hcover e he q hq hlt
      obtain ⟨c, hc, hts⟩ := mem_settled hb
      exact ⟨c, hc, hts ▸ hle⟩

end Candles

/-! ### Booking a bar -/

/-- Of the books only these experiments' change; more was heard. -/
structure Books {F J : Type} (names : List String) (w w' : Store F J) : Prop where
  others : ∀ name ∉ names, w'.rows name = w.rows name
  log : w.log <:+ w'.log
  cache : w'.cache = w.cache

namespace Books

variable {F J : Type} {w v u : Store F J} {names more : List String}

theorem refl (w : Store F J) : Books names w w := ⟨fun _ _ => rfl, List.suffix_rfl, rfl⟩

theorem trans (h : Books names w v) (h' : Books more v u) : Books (names ++ more) w u where
  others name hname := by
    rw [List.mem_append, not_or] at hname
    rw [h'.others name hname.2, h.others name hname.1]
  log := h.log.trans h'.log
  cache := h'.cache.trans h.cache

theorem same (h : Books names w v) (h' : Books names v u) : Books names w u where
  others name hname := by rw [h'.others name hname, h.others name hname]
  log := h.log.trans h'.log
  cache := h'.cache.trans h.cache

theorem hear (w : Store F J) (h : Heard F) : Books names w (w.hear h) := ⟨fun _ _ => rfl, List.suffix_cons _ _, rfl⟩

theorem put (w : Store F J) (name : String) (r : Rows F J) : Books [name] w (w.put name r) where
  others n hn := put_rows_ne w r (by simpa using hn)
  log := List.suffix_rfl
  cache := rfl

end Books

section Booking

variable {F J : Type} [FloatFns F] {p : Plan F} {read : J → Except String (Account F)} {write : Account F → J}
  {w : Store F J}

theorem Makes.append {fills more : List (LabFill F)} {a b : Account F} {es : List (Entry F)}
    (h : Makes p read write fills a) (hl : Leads p.costs a es b) (hm : more.map LabFill.filled = es.map Entry.filled) :
    Makes p read write (fills ++ more) b := by
  obtain ⟨fs, hk, hf⟩ := h
  exact ⟨fs ++ es, hk.leads hl, by rw [List.map_append, List.map_append, hf, hm]⟩

/-- A bar after all that were booked is booked. -/
theorem Whole.book {log : List (Heard F)} {r : Rows F J} (h : Whole p read write log r) {bar : Bar F}
    (hafter : ∀ q ∈ r.equity, q.ts < bar.ts) {fills : List (LabFill F)} {a : Account F}
    (hm : Makes p read write (r.fills ++ fills) a)
    (hfills : ∀ f ∈ fills, f.barTs = bar.ts ∧ Written p log f) (equity solValue : F) :
    Whole p read write log (r.book bar fills equity solValue (write a)) := by
  have hkept : (r.equity.filter fun q => q.ts ≠ bar.ts) = r.equity :=
    List.filter_eq_self.mpr fun q hq => decide_eq_true (hafter q hq).ne
  unfold Rows.book
  rw [hkept]
  constructor
  · refine List.pairwise_append.mpr ⟨h.rising, List.pairwise_singleton _ _, fun q hq q' hq' => ?_⟩
    rw [List.mem_singleton.mp hq']
    exact hafter q hq
  · simp
  · exact ⟨a, hm, fun s hs => by rw [← Option.some.inj hs]⟩
  · intro f hf
    rcases List.mem_append.mp hf with hf | hf
    · obtain ⟨⟨q, hq, hts⟩, hon⟩ := h.fills f hf
      exact ⟨⟨q, List.mem_append_left _ hq, hts⟩, hon⟩
    · obtain ⟨hts, hon⟩ := hfills f hf
      exact ⟨⟨_, List.mem_append_right _ (List.mem_singleton_self _), hts.symm⟩, hon⟩

theorem Sane.put (hs : Sane p read write w) {name : String} {r : Rows F J} (hr : Whole p read write w.log r)
    (hcache : ∀ q ∈ r.equity, ∃ b ∈ w.cache p.instrument, b.ts = q.ts) : Sane p read write (w.put name r) where
  whole n := by
    by_cases hn : n = name
    · subst hn
      rw [put_rows_self]
      exact hr
    · rw [put_rows_ne w r hn]
      exact hs.whole n
  cached e he q hq := by
    by_cases hn : e.name = name
    · rw [hn, put_rows_self] at hq
      exact hcache q hq
    · rw [put_rows_ne w r hn] at hq
      exact hs.cached e he q hq
  dated := hs.dated

/-- The fills of a bar, each with a time of its own. -/
theorem fillRows_sound (bar : Bar F) (bid ask : F) (name : String) : ∀ (es : List (Entry F)) (w : Store F J),
    Sane p read write w → Judged p w.log bar.ts →
    Holds p read write (fun fills w' => Books [name] w w' ∧ w'.rows = w.rows ∧ Sane p read write w' ∧
      fills.map LabFill.filled = es.map Entry.filled ∧ ∀ f ∈ fills, f.barTs = bar.ts ∧ Written p w'.log f)
      (fillRows bar bid ask es) w
  | [], w, hs, _ => ⟨Books.refl w, rfl, hs, rfl, nofun⟩
  | e :: es, w, hs, hj => by
    refine Prog.Sound.query hs ?_
    rintro (t : ℤ) w' ⟨rfl, -, -⟩
    have hl := Later.hear w (.clock t)
    refine Prog.Sound.seq (fillRows_sound bar bid ask name es _ (hs.later hl) (hj.later hl.log)) ?_
    rintro fills w' ⟨hbooks, hrows, hs', hfilled, hfills⟩
    refine ⟨(Books.hear w _).same hbooks, hrows, hs', ?_, ?_⟩
    · rw [List.map_cons, List.map_cons, hfilled]
      rfl
    · intro f hf
      rcases List.mem_cons.mp hf with rfl | hf
      · exact ⟨rfl, w.log, hbooks.log, hj⟩
      · exact hfills f hf

/-- A bar after the cut is put into the books, or the program ends. -/
theorem record_sound (hs : Sane p read write w) {e : Experiment F} (he : e ∈ p.experiments) {a : Account F}
    {fills : List (LabFill F)} {bar : Bar F} (hafter : ∀ q ∈ (w.rows e.name).equity, q.ts < bar.ts)
    (hm : Makes p read write ((w.rows e.name).fills ++ fills) a)
    (hfills : ∀ f ∈ fills, f.barTs = bar.ts ∧ Written p w.log f)
    (hcache : ∃ c ∈ w.cache p.instrument, c.ts = bar.ts) (equity solValue : F) :
    Holds p read write (fun r w' => Books [e.name] w w' ∧ Sane p read write w' ∧
      (r = .ok () → Stands p read write w' e.name a bar.ts)) (record e.name bar fills equity solValue (write a)) w := by
  have hwhole := (hs.whole e.name).book hafter hm hfills equity solValue
  have hkept : ((w.rows e.name).equity.filter fun q => q.ts ≠ bar.ts) = (w.rows e.name).equity :=
    List.filter_eq_self.mpr fun q hq => decide_eq_true (hafter q hq).ne
  refine ⟨hs, fun r w' h => ?_⟩
  rcases h with rfl | ⟨rfl, hr⟩
  · refine ⟨Books.put w _ _, hs.put hwhole fun q hq => ?_, fun _ => ⟨?_, fun q hq => ?_⟩⟩
    · rw [Rows.book, hkept] at hq
      rcases List.mem_append.mp hq with hq | hq
      · exact hs.cached e he q hq
      · rw [List.mem_singleton.mp hq]
        exact hcache
    · rw [put_rows_self]
      exact hm
    · rw [put_rows_self, Rows.book, hkept] at hq
      rcases List.mem_append.mp hq with hq | hq
      · exact (hafter q hq).le
      · rw [List.mem_singleton.mp hq]
  · exact ⟨Books.refl w', hs, fun h => absurd h hr⟩

/-- One bar after the cut, with a book only if it was seen in time. -/
theorem bookBar_sound (hs : Sane p read write w) {e : Experiment F} (he : e ∈ p.experiments) {acct : Account F}
    {cut : ℤ} (hst : Stands p read write w e.name acct cut) {bar : Bar F} (hcut : cut < bar.ts)
    (hcache : ∃ c ∈ w.cache p.instrument, c.ts = bar.ts) {quote : Option (F × F)}
    (hquote : quote.isSome → Judged p w.log bar.ts) (upTo : List (Bar F)) (other : List F) :
    Holds p read write (fun r w' => Books [e.name] w w' ∧ Sane p read write w' ∧
      ∀ a, r = .ok a → Stands p read write w' e.name a bar.ts) (bookBar p write e acct quote bar upTo other) w := by
  have hafter : ∀ q ∈ (w.rows e.name).equity, q.ts < bar.ts := fun q hq => (hst.cut q hq).trans_lt hcut
  unfold bookBar
  cases quote with
  | none =>
    have hm : Makes p read write ((w.rows e.name).fills ++ []) acct := by rw [List.append_nil]; exact hst.makes
    refine Prog.Sound.seq (record_sound hs he hafter hm (by simp) hcache _ _) ?_
    rintro (m | u) w' ⟨hbooks, hs', hok⟩
    · exact ⟨hbooks, hs', nofun⟩
    · exact ⟨hbooks, hs', fun a ha => Except.ok.inj ha ▸ hok rfl⟩
  | some both =>
    obtain ⟨bid, ask⟩ := both
    refine Prog.Sound.query hs ?_
    rintro (t : ℤ) w' ⟨rfl, -, -⟩
    have hl := Later.hear w (.clock t)
    obtain ⟨after, done, equity, hstep, hleads⟩ := @step_leads F _ p.costs e.rule p.stops p.capital acct
      ⟨upTo, ⟨e.model, other, modelHistory⟩, ask, bid, t⟩
    simp only [hstep]
    refine Prog.Sound.seq (fillRows_sound bar bid ask e.name done _ (hs.later hl) ((hquote rfl).later hl.log)) ?_
    rintro fills w' ⟨hbooks, hrows, hs', hfilled, hfills⟩
    have hbooks : Books [e.name] w w' := (Books.hear w _).same hbooks
    have hrow : w'.rows e.name = w.rows e.name := congrFun hrows _
    have hm : Makes p read write ((w'.rows e.name).fills ++ fills) after := hrow ▸ hst.makes.append hleads hfilled
    refine Prog.Sound.seq (record_sound hs' he (hrow ▸ hafter) hm hfills (hbooks.cache ▸ hcache) _ _) ?_
    rintro (m | u) w'' ⟨hbooks', hs'', hok⟩
    · exact ⟨hbooks.same hbooks', hs'', nofun⟩
    · exact ⟨hbooks.same hbooks', hs'', fun a ha => Except.ok.inj ha ▸ hok rfl⟩

theorem Stands.mono {name : String} {acct : Account F} {cut cut' : ℤ} (h : Stands p read write w name acct cut)
    (hle : cut ≤ cut') : Stands p read write w name acct cut' := ⟨h.makes, fun q hq => (h.cut q hq).trans hle⟩

/-- The bars of one experiment, in their order. -/
theorem bookBars_sound {bars : List (Bar F)} {other : List F} {quote : Option (F × F)} {last : Bar F} {d : Desk F}
    (hd : d.experiment ∈ p.experiments) : ∀ (rest : List (Bar F × ℕ)) (acct : Account F) (cut : ℤ) (w : Store F J),
    Sane p read write w → Stands p read write w d.experiment.name acct cut → cut ≤ last.ts →
    (rest.Pairwise fun x y => x.1.ts < y.1.ts) →
    (∀ x ∈ rest, x.1.ts ≤ last.ts ∧ (d.seen < x.1.ts → cut < x.1.ts) ∧ ∃ c ∈ w.cache p.instrument, c.ts = x.1.ts) →
    (quote.isSome → Judged p w.log last.ts) →
    Holds p read write (fun r w' => Books [d.experiment.name] w w' ∧ Sane p read write w' ∧
      ∀ a, r = .ok a → Stands p read write w' d.experiment.name a last.ts)
      (bookBars p write bars other quote last d rest acct) w
  | [], acct, cut, w, hs, hst, hle, _, _, _ =>
    ⟨Books.refl w, hs, fun a ha => Except.ok.inj ha ▸ hst.mono hle⟩
  | (bar, i) :: rest, acct, cut, w, hs, hst, hle, hrising, hrest, hquote => by
    obtain ⟨hfirst, hrising⟩ := List.pairwise_cons.mp hrising
    obtain ⟨hbar, hnew, hcache⟩ := hrest _ List.mem_cons_self
    unfold bookBars
    refine Prog.Sound.ite (fun hseen => ?_) fun _ => ?_
    · have hq : (quote.filter fun _ => bar.ts = last.ts).isSome → Judged p w.log bar.ts := by
        intro hsome
        cases quote with
        | none => simp at hsome
        | some q =>
          by_cases hts : bar.ts = last.ts
          · rw [hts]
            exact hquote rfl
          · simp [Option.filter, hts] at hsome
      refine Prog.Sound.seq (bookBar_sound hs hd hst (hnew hseen) hcache hq _ _) ?_
      rintro (m | a) w' ⟨hbooks, hs', hok⟩
      · exact ⟨hbooks, hs', nofun⟩
      · refine (bookBars_sound hd rest a bar.ts w' hs' (hok a rfl) hbar hrising (fun x hx => ?_) fun hsome => ?_).mono ?_
        · obtain ⟨hx₁, -, hx₃⟩ := hrest x (List.mem_cons_of_mem _ hx)
          exact ⟨hx₁, fun _ => hfirst x hx, hbooks.cache ▸ hx₃⟩
        · exact (hquote hsome).later hbooks.log
        · rintro r w'' ⟨hbooks', hs'', hok'⟩
          exact ⟨hbooks.same hbooks', hs'', hok'⟩
    · exact bookBars_sound hd rest acct cut w hs hst hle hrising
        (fun x hx => hrest x (List.mem_cons_of_mem _ hx)) hquote

/-- The experiments one after the other: the bars of one touch no other's books. -/
theorem bookDesks_sound {bars : List (Bar F)} {other : List F} {quote : Option (F × F)} {last : Bar F}
    (hrising : Rising bars) (hlast : ∀ b ∈ bars, b.ts ≤ last.ts) : ∀ (ds : List (Desk F)) (w : Store F J),
    Sane p read write w → (∀ b ∈ bars, ∃ c ∈ w.cache p.instrument, c.ts = b.ts) →
    (ds.map (·.experiment.name)).Nodup → (∀ d ∈ ds, d.experiment ∈ p.experiments ∧ d.seen ≤ last.ts ∧
      Stands p read write w d.experiment.name d.acct d.seen) →
    (quote.isSome → Judged p w.log last.ts) →
    Holds p read write (fun r w' => Books (ds.map (·.experiment.name)) w w' ∧ Sane p read write w' ∧
      ∀ ds', r = .ok ds' → ds'.map (·.experiment) = ds.map (·.experiment) ∧
        ∀ d ∈ ds', d.seen = last.ts ∧ Stands p read write w' d.experiment.name d.acct last.ts)
      (bookDesks p write bars other quote last ds) w
  | [], w, hs, _, _, _, _ => ⟨Books.refl w, hs, fun ds' h => by cases h; exact ⟨rfl, fun _ hd => nomatch hd⟩⟩
  | d :: ds, w, hs, hcache, hnames, hds, hquote => by
    obtain ⟨hname, hnames⟩ := List.nodup_cons.mp hnames
    obtain ⟨hd, hseen, hst⟩ := hds d List.mem_cons_self
    have hpairs : bars.zipIdx.Pairwise fun x y => x.1.ts < y.1.ts := by
      rw [← List.pairwise_map (f := Prod.fst) (R := fun a b : Bar F => a.ts < b.ts), List.zipIdx_map_fst]
      exact hrising
    have hbars : ∀ x ∈ bars.zipIdx, x.1.ts ≤ last.ts ∧ (d.seen < x.1.ts → d.seen < x.1.ts) ∧
        ∃ c ∈ w.cache p.instrument, c.ts = x.1.ts := fun x hx => by
      have hmem : x.1 ∈ bars := List.fst_mem_of_mem_zipIdx hx
      exact ⟨hlast _ hmem, id, hcache _ hmem⟩
    refine Prog.Sound.seq (bookBars_sound hd _ d.acct d.seen w hs hst hseen hpairs hbars hquote) ?_
    rintro (m | a) w' ⟨hbooks, hs', hok⟩
    · exact ⟨⟨fun n hn => hbooks.others n fun h => hn (by simp_all), hbooks.log, hbooks.cache⟩, hs', fun _ h => nomatch h⟩
    · have hrest : ∀ d' ∈ ds, d'.experiment ∈ p.experiments ∧ d'.seen ≤ last.ts ∧
          Stands p read write w' d'.experiment.name d'.acct d'.seen := fun d' hd' => by
        obtain ⟨hmem, hle, hst'⟩ := hds d' (List.mem_cons_of_mem _ hd')
        have hne : d'.experiment.name ∉ [d.experiment.name] := fun h =>
          hname (List.mem_map.mpr ⟨d', hd', List.mem_singleton.mp h⟩)
        exact ⟨hmem, hle, hst'.later (hbooks.others _ hne)⟩
      refine Prog.Sound.seq (bookDesks_sound hrising hlast ds w' hs' (hbooks.cache ▸ hcache) hnames hrest
        fun hsome => (hquote hsome).later hbooks.log) ?_
      rintro (m | ds') w'' ⟨hbooks', hs'', hok'⟩
      · exact ⟨hbooks.trans hbooks', hs'', fun _ h => nomatch h⟩
      · refine ⟨hbooks.trans hbooks', hs'', fun all hall => ?_⟩
        cases hall
        obtain ⟨hmap, hdesks⟩ := hok' ds' rfl
        refine ⟨by rw [List.map_cons, List.map_cons, hmap], fun d' hd' => ?_⟩
        rcases List.mem_cons.mp hd' with rfl | hd'
        · exact ⟨rfl, (hok a rfl).later (hbooks'.others _ hname)⟩
        · exact hdesks d' hd'

end Booking

/-! ### The start of a run -/

section Runs

variable {F J : Type} [FloatFns F] {p : Plan F} {read : J → Except String (Account F)} {write : Account F → J}
  {w : Store F J}

/-- A desk's last bar is no later than the newest one; before there is any, it is a booked one or none. -/
structure SeenBy (w : Store F J) (bars : List (Bar F)) (d : Desk F) : Prop where
  some : bars ≠ [] → d.seen ≤ newest bars
  none : bars = [] → d.seen ≤ 0 ∨ ∃ q ∈ (w.rows d.experiment.name).equity, q.ts = d.seen

/-- What the program remembers fits the books. -/
structure Fits (p : Plan F) (read : J → Except String (Account F)) (write : Account F → J) (w : Store F J)
    (m : Memory F) : Prop where
  rising : Rising m.bars
  cached : ∀ b ∈ m.bars, ∃ c ∈ w.cache p.instrument, c.ts = b.ts
  dated : ∀ b ∈ m.bars, Dated b.ts
  desks : m.desks.map (·.experiment) = p.experiments
  stands : ∀ d ∈ m.desks, Stands p read write w d.experiment.name d.acct d.seen
  seen : ∀ d ∈ m.desks, SeenBy w m.bars d

theorem Fits.names {m : Memory F} (h : Fits p read write w m) : (m.desks.map (·.experiment.name)).Nodup := by
  have hmap : m.desks.map (·.experiment.name) = p.experiments.map (·.name) := by rw [← h.desks, List.map_map]; rfl
  rw [hmap]
  exact p.names

theorem Fits.mem {m : Memory F} (h : Fits p read write w m) {d : Desk F} (hd : d ∈ m.desks) :
    d.experiment ∈ p.experiments := h.desks ▸ List.mem_map_of_mem hd

theorem Fits.later {m : Memory F} {w' : Store F J} (h : Fits p read write w m) (hl : Later w w') :
    Fits p read write w' m where
  rising := h.rising
  cached b hb := by
    obtain ⟨c, hc, hts⟩ := h.cached b hb
    obtain ⟨c', hc', hts'⟩ := hl.cache _ c hc
    exact ⟨c', hc', hts'.trans hts⟩
  dated := h.dated
  desks := h.desks
  stands d hd := (h.stands d hd).later (congrFun hl.rows _)
  seen d hd := ⟨(h.seen d hd).some, fun hnil => hl.rows ▸ (h.seen d hd).none hnil⟩

theorem lacking_sound (hs : Sane p read write w) (tries : ℕ) (inst : String) (start : ℤ) (have_ : List (Bar F)) :
    Holds p read write (fun r w' => Later w w' ∧ ∀ fetched, r = .ok fetched → ∀ b ∈ fetched, Dated b.ts)
      (lacking p tries inst start have_) w := by
  have hfirst : ∀ back, Holds p read write
      (fun r w' => Later w w' ∧ ∀ fetched, r = .ok fetched → ∀ b ∈ fetched, Dated b.ts)
      (do let t ← now; history tries inst t back) w := fun back => by
    refine Prog.Sound.query hs ?_
    rintro (t : ℤ) w' ⟨rfl, -, -⟩
    have hl := Later.hear w (.clock t)
    refine (history_sound (hs.later hl) tries inst t back).mono ?_
    rintro r w' ⟨hl', hfetched⟩
    exact ⟨hl.trans hl', fun out hout b hb => ((hfetched out hout).2.1 b hb).dated⟩
  unfold lacking
  cases have_.head? with
  | none => exact hfirst start
  | some first =>
    cases have_.getLast? with
    | none => exact hfirst start
    | some last =>
      refine Prog.Sound.query hs ?_
      rintro (t : ℤ) w' ⟨rfl, -, -⟩
      have hl := Later.hear w (.clock t)
      refine Prog.Sound.seq (history_sound (hs.later hl) tries inst t _) ?_
      rintro (e | later) w₁ ⟨hl₁, hlater⟩
      · exact ⟨hl.trans hl₁, nofun⟩
      · have hdated : ∀ b ∈ later, Dated b.ts := fun b hb => ((hlater later rfl).2.1 b hb).dated
        refine Prog.Sound.ite (fun _ => ?_) fun _ => ⟨hl.trans hl₁, fun fetched h => Except.ok.inj h ▸ hdated⟩
        refine Prog.Sound.seq (history_sound ((hs.later hl).later hl₁) tries inst first.ts start) ?_
        rintro (e | earlier) w₂ ⟨hl₂, hearlier⟩
        · exact ⟨(hl.trans hl₁).trans hl₂, nofun⟩
        · refine ⟨(hl.trans hl₁).trans hl₂, fun fetched h b hb => ?_⟩
          rw [← Except.ok.inj h] at hb
          exact (List.mem_append.mp hb).elim (hdated b) fun hb => ((hearlier earlier rfl).2.1 b hb).dated

/-- The candles of the database from `start` on. -/
theorem barsSince_sound (hs : Sane p read write w) (tries : ℕ) (inst : String) (start : ℤ) :
    Holds p read write (fun r w' => Later w w' ∧ ∀ bars, r = .ok bars → Rising bars ∧
      ∀ b, b ∈ bars ↔ b ∈ w'.cache inst ∧ start ≤ b.ts) (barsSince p tries inst start) w := by
  refine Prog.Sound.query hs ?_
  rintro (e | have_) w' ⟨rfl, -⟩
  · exact ⟨Later.refl w', nofun⟩
  · refine Prog.Sound.seq (lacking_sound hs tries inst start have_) ?_
    rintro (e | fetched) w₁ ⟨hl₁, hdated⟩
    · exact ⟨hl₁, nofun⟩
    · refine Prog.Sound.query (hs.later hl₁) fun r w₂ hkeep => ?_
      have hl₂ := hl₁.trans (Commits.later hkeep (hdated fetched rfl))
      rcases r with e | u
      · exact ⟨hl₂, nofun⟩
      · refine Prog.Sound.ask (hs.later hl₂) ?_
        rintro r w₃ ⟨rfl, hbars⟩
        exact ⟨hl₂, hbars⟩

theorem Whole.le_last {log : List (Heard F)} {r : Rows F J} (h : Whole p read write log r) {last q : Point F}
    (hlast : r.equity.getLast? = some last) (hq : q ∈ r.equity) : q.ts ≤ last.ts := by
  obtain ⟨front, hfront⟩ := List.getLast?_eq_some_iff.mp hlast
  have hrising := h.rising
  rw [hfront] at hrising hq
  rcases List.mem_append.mp hq with hq | hq
  · exact ((List.pairwise_append.mp hrising).2.2 q hq last (List.mem_singleton_self _)).le
  · rw [List.mem_singleton.mp hq]

/-- No booked bar is past the candles of the database, from wherever they are read. -/
theorem booked_le_newest (hs : Sane p read write w) {bars : List (Bar F)} {start : ℤ} (hrising : Rising bars)
    (hbars : ∀ b, b ∈ bars ↔ b ∈ w.cache p.instrument ∧ start ≤ b.ts) (hne : bars ≠ []) {e : Experiment F}
    (he : e ∈ p.experiments) {q : Point F} (hq : q ∈ (w.rows e.name).equity) : q.ts ≤ newest bars := by
  obtain ⟨b, hb, hts⟩ := hs.cached e he q hq
  by_cases hold : start ≤ b.ts
  · exact hts ▸ hrising.le_newest ((hbars b).mpr ⟨hb, hold⟩)
  · -- it was booked before the first of the bars
    obtain ⟨b', hb'⟩ := List.exists_mem_of_ne_nil _ hne
    have hstart := ((hbars b').mp hb').2
    have hnew := hrising.le_newest hb'
    omega

/-- An experiment goes on from its last booked bar, or begins at the newest. -/
theorem openDesk_sound (hs : Sane p read write w) {bars : List (Bar F)} {e : Experiment F}
    (hbars : bars ≠ [] → ∀ q ∈ (w.rows e.name).equity, q.ts ≤ newest bars) :
    Holds p read write (fun r w' => w' = w ∧ ∀ d, r = .ok d → d.experiment = e ∧
      Stands p read write w e.name d.acct d.seen ∧ SeenBy w bars d) (openDesk p read bars e) w := by
  have hwhole := hs.whole e.name
  refine Prog.Sound.query hs ?_
  rintro (m | st) w' ⟨rfl, hstate⟩
  · exact ⟨rfl, fun _ h => nomatch h⟩
  · have hstate := hstate st rfl
    have hts := hwhole.state
    rcases st with - | ⟨ts, json⟩
    · refine ⟨rfl, fun d hd => ?_⟩
      cases hd
      rw [← hstate] at hts
      have hnone : (w'.rows e.name).equity = [] :=
        List.getLast?_eq_none_iff.mp (Option.map_eq_none_iff.mp hts.symm)
      have hfills : (w'.rows e.name).fills = [] := List.eq_nil_iff_forall_not_mem.mpr fun f hf => by
        obtain ⟨⟨q, hq, -⟩, -⟩ := hwhole.fills f hf
        rw [hnone] at hq
        exact nomatch hq
      refine ⟨rfl, ⟨⟨[], .start, by rw [hfills]; rfl⟩, fun q hq => ?_⟩, fun _ => le_rfl, fun hnil => .inl ?_⟩
      · rw [hnone] at hq
        exact nomatch hq
      · rw [hnil]
        exact le_rfl
    · have hlast : ∃ last, (w'.rows e.name).equity.getLast? = some last ∧ last.ts = ts := by
        rw [← hstate] at hts
        exact Option.map_eq_some_iff.mp hts.symm
      obtain ⟨last, hlast, rfl⟩ := hlast
      have hmem := List.mem_of_getLast? hlast
      obtain ⟨a, ⟨es, hkept, hfills⟩, hjson⟩ := hwhole.account
      obtain rfl := hjson _ hstate.symm
      cases hread : read (write a) with
      | error m =>
        simp only [hread]
        exact ⟨rfl, fun _ h => nomatch h⟩
      | ok acct =>
        simp only [hread]
        refine ⟨rfl, fun d hd => ?_⟩
        cases hd
        refine ⟨rfl, ⟨⟨es, hkept.reload hread, hfills⟩, fun q hq => hwhole.le_last hlast hq⟩, fun hne => ?_,
          fun _ => .inr ⟨last, hmem, rfl⟩⟩
        exact hbars hne last hmem

theorem openDesks_sound (hs : Sane p read write w) {bars : List (Bar F)} (es : List (Experiment F))
    (hbars : ∀ e ∈ es, bars ≠ [] → ∀ q ∈ (w.rows e.name).equity, q.ts ≤ newest bars) :
    Holds p read write (fun r w' => w' = w ∧ ∀ ds, r = .ok ds → ds.map (·.experiment) = es ∧
      ∀ d ∈ ds, Stands p read write w d.experiment.name d.acct d.seen ∧ SeenBy w bars d) (openDesks p read bars es) w := by
  induction es with
  | nil => exact ⟨rfl, fun ds h => by cases h; exact ⟨rfl, fun _ hd => nomatch hd⟩⟩
  | cons e es ih =>
    refine Prog.Sound.seq (openDesk_sound hs (hbars e List.mem_cons_self)) ?_
    rintro (m | d) w' ⟨rfl, hd⟩
    · exact ⟨rfl, fun _ h => nomatch h⟩
    · obtain ⟨rfl, hst, hseen⟩ := hd d rfl
      refine Prog.Sound.seq (ih fun e he => hbars e (List.mem_cons_of_mem _ he)) ?_
      rintro (m | ds) w'' ⟨rfl, hds⟩
      · exact ⟨rfl, fun _ h => nomatch h⟩
      · obtain ⟨hmap, hall⟩ := hds ds rfl
        refine ⟨rfl, fun ds' h => ?_⟩
        cases h
        refine ⟨by rw [List.map_cons, hmap], fun d' hd' => ?_⟩
        rcases List.mem_cons.mp hd' with rfl | hd'
        · exact ⟨hst, hseen⟩
        · exact hall d' hd'

/-! ### Poll after poll -/

theorem drained_sublist {α : Type} (k : ℕ) (xs : List α) : (drained k xs).Sublist xs := by
  unfold drained
  split
  · exact List.drop_sublist _ _
  · exact List.Sublist.refl _

omit [FloatFns F] in
theorem newest_drained {k : ℕ} (hk : 0 < k) (bars : List (Bar F)) : newest (drained k bars) = newest bars := by
  unfold drained newest
  split
  · rw [getLast?_recent hk (by omega)]
  · rfl

theorem book_sound (hs : Sane p read write w) :
    Holds p read write (fun (_ : Option (F × F)) w' => w' = w) (book : Script F J (Option (F × F))) w := by
  refine Prog.Sound.query hs ?_
  rintro (e | t) w' rfl
  · exact rfl
  · rcases t with - | ⟨bid, ask⟩
    · exact rfl
    · exact rfl

/-- The fresh bars are booked, and what is remembered fits the books again. -/
theorem bookFresh_sound (hs : Sane p read write w) {m : Memory F} {bars other : List (Bar F)} {last : Bar F}
    (hf : Fits p read write w { m with bars := bars }) (hlast : bars.getLast? = some last)
    (hbrought : Brought w.log p.instrument last.ts) (hseen : ∀ d ∈ m.desks, d.seen ≤ last.ts) :
    Holds p read write (fun r w' => Sane p read write w' ∧ ∀ m', r = .ok m' → Fits p read write w' m')
      (bookFresh p write m bars other last) w := by
  have hnewest : newest bars = last.ts := by rw [newest, hlast, Option.elim_some]
  have hle : ∀ b ∈ bars, b.ts ≤ last.ts := fun b hb => hnewest ▸ hf.rising.le_newest hb
  have hbook : ∀ (w' : Store F J) (quote : Option (F × F)), Later w w' →
      (quote.isSome → Judged p w'.log last.ts) →
      Holds p read write (fun r w' => Sane p read write w' ∧ ∀ m', r = .ok m' → Fits p read write w' m')
        (bookAll p write m bars other last quote) w' := by
    intro w' quote hl hquote
    have hf' := hf.later hl
    refine Prog.Sound.seq (bookDesks_sound hf.rising hle m.desks w' (hs.later hl) hf'.cached hf'.names
      (fun d hd => ⟨hf'.mem hd, hseen d hd, hf'.stands d hd⟩) hquote) ?_
    rintro (e | ds) w'' ⟨hbooks, hs'', hok⟩
    · exact ⟨hs'', nofun⟩
    · obtain ⟨hmap, hds⟩ := hok ds rfl
      refine ⟨hs'', fun m' hm' => ?_⟩
      cases hm'
      have hsub := drained_sublist (warmup p + 8) bars
      refine ⟨hf.rising.sublist hsub, fun b hb => ?_, fun b hb => hf.dated b (hsub.subset hb), hmap.trans hf.desks,
        fun d hd => ?_, fun d hd => ⟨fun _ => ?_, ?_⟩⟩
      · rw [hbooks.cache]
        exact hf'.cached b (hsub.subset hb)
      · obtain ⟨hts, hst⟩ := hds d hd
        exact hts ▸ hst
      · rw [(hds d hd).1, newest_drained (by omega), hnewest]
      · intro hnil
        have hnone : newest (drained (warmup p + 8) bars) = newest bars := newest_drained (by omega) bars
        rw [show drained (warmup p + 8) bars = [] from hnil, hnewest] at hnone
        exact .inl (by rw [(hds d hd).1, ← hnone]; exact le_rfl)
  refine Prog.Sound.query hs ?_
  rintro (t : ℤ) w' ⟨rfl, ht, -⟩
  have hl := Later.hear w (.clock t)
  by_cases hon : onTime p t last.ts = true
  · rw [if_pos hon]
    refine Prog.Sound.seq (book_sound (hs.later hl)) ?_
    rintro quote w' rfl
    have hdated := hf.dated last (List.mem_of_getLast? hlast)
    exact hbook _ quote hl fun _ => ⟨t, w.log, List.suffix_rfl, hbrought, timely_of_onTime ht hdated hon⟩
  · rw [if_neg hon]
    exact hbook _ none hl nofun

theorem otherBars_sound (hs : Sane p read write w) (tries : ℕ) (m : Memory F) :
    Holds p read write (fun _ w' => Later w w') (otherBars p tries m) w := by
  unfold otherBars
  cases otherOf p with
  | none => exact Later.refl w
  | some inst =>
    refine Prog.Sound.query hs ?_
    rintro (t : ℤ) w' ⟨rfl, -, -⟩
    have hl := Later.hear w (.clock t)
    refine Prog.Sound.seq (history_sound (hs.later hl) tries inst t _) ?_
    rintro (e | fresh) w₁ ⟨hl₁, hfresh⟩
    · exact hl.trans hl₁
    · refine Prog.Sound.query ((hs.later hl).later hl₁) fun r w₂ hkeep => ?_
      have hl₂ := (hl.trans hl₁).trans (Commits.later hkeep fun b hb => ((hfresh fresh rfl).2.1 b hb).dated)
      rcases r with e | u
      · exact hl₂
      · exact hl₂

omit [FloatFns F] in
/-- The millisecond after the newest candle is an `i64`. -/
theorem newest_next {bars : List (Bar F)} (h : ∀ b ∈ bars, Dated b.ts) :
    wrapI64 (newest bars + 1) = newest bars + 1 := by
  have hnewest : 0 ≤ newest bars ∧ newest bars < i64Max := by
    unfold newest
    cases hlast : bars.getLast? with
    | none => exact ⟨le_rfl, show (0 : ℤ) < i64Max by decide⟩
    | some last =>
      have hdated := h last (List.mem_of_getLast? hlast)
      unfold Dated at hdated
      rw [Option.elim_some]
      omega
  exact IsI64.wrap ⟨by unfold i64Min; omega, by omega⟩

/-- Newer candles are newer than what was booked, if they reach back to it where nothing is remembered. -/
theorem Fits.seen_newest {m : Memory F} (hf : Fits p read write w m) {fresh : List (Bar F)} (hrising : Rising fresh)
    (hne : fresh ≠ []) (hnew : ∀ b ∈ fresh, newest m.bars < b.ts)
    (hcover : m.bars = [] → ∀ e ∈ p.experiments, ∀ q ∈ (w.rows e.name).equity, ∃ b ∈ fresh, q.ts ≤ b.ts)
    {d : Desk F} (hd : d ∈ m.desks) : d.seen ≤ newest fresh := by
  have hlt : newest m.bars < newest fresh := by
    rw [newest_getLast hne]
    exact hnew _ (List.getLast_mem hne)
  by_cases hnil : m.bars = []
  · have hzero : newest m.bars = 0 := by rw [hnil]; rfl
    rcases (hf.seen d hd).none hnil with hle | ⟨q, hq, hts⟩
    · omega
    · obtain ⟨b, hb, hle⟩ := hcover hnil _ (hf.mem hd) q hq
      have := hrising.le_newest hb
      omega
  · exact ((hf.seen d hd).some hnil).trans hlt.le

/-- Newer candles, once they are cached, are remembered. -/
theorem Fits.extend {m : Memory F} (hf : Fits p read write w m) {fresh : List (Bar F)} (hrising : Rising fresh)
    (hne : fresh ≠ []) (hnew : ∀ b ∈ fresh, newest m.bars < b.ts) (hdated : ∀ b ∈ fresh, Dated b.ts)
    (hcached : ∀ b ∈ fresh, ∃ c ∈ w.cache p.instrument, c.ts = b.ts) (hseen : ∀ d ∈ m.desks, d.seen ≤ newest fresh) :
    Fits p read write w { m with bars := m.bars ++ fresh } where
  rising := List.pairwise_append.mpr ⟨hf.rising, hrising, fun _ ha b hb => (hf.rising.le_newest ha).trans_lt (hnew b hb)⟩
  cached := List.forall_mem_append.mpr ⟨hf.cached, hcached⟩
  dated := List.forall_mem_append.mpr ⟨hf.dated, hdated⟩
  desks := hf.desks
  stands := hf.stands
  seen d hd := by
    refine ⟨fun happ => ?_, fun hnil => absurd (List.append_eq_nil_iff.mp hnil).2 hne⟩
    rw [newest_getLast happ, List.getLast_append_of_ne_nil happ hne, ← newest_getLast hne]
    exact hseen d hd

theorem poll_sound (hs : Sane p read write w) (tries : ℕ) {m : Memory F} (hf : Fits p read write w m) :
    Holds p read write (fun r w' => Sane p read write w' ∧ ∀ m', r = .ok m' → Fits p read write w' m')
      (poll p write tries m) w := by
  refine Prog.Sound.query hs ?_
  rintro (t : ℤ) w₀ ⟨rfl, -, hpast⟩
  have hl₀ := Later.hear w (.clock t)
  have hnext := newest_next hf.dated
  refine Prog.Sound.seq (history_sound (hs.later hl₀) tries p.instrument t _) ?_
  rintro r w₁ ⟨hl, hfresh⟩
  have hl₁ := hl₀.trans hl
  have hs₁ := hs.later hl₁
  have hsame : ∀ m', (Except.ok m : Except String (Memory F)) = .ok m' → Fits p read write w₁ m' := fun m' hm' =>
    Except.ok.inj hm' ▸ hf.later hl₁
  rcases r with e | fresh
  · exact ⟨hs₁, hsame⟩
  · obtain ⟨hrising, hfetched, hcover⟩ := hfresh fresh rfl
    cases fresh with
    | nil => exact ⟨hs₁, hsame⟩
    | cons b fresh =>
      have hne : b :: fresh ≠ [] := List.cons_ne_nil b fresh
      refine Prog.Sound.seq (otherBars_sound hs₁ tries m) ?_
      rintro (e | other) w₃ hl₃
      · exact ⟨hs₁.later hl₃, nofun⟩
      · refine Prog.Sound.query (hs₁.later hl₃) fun r w₄ hkeep => ?_
        have hlater := hl₃.trans (Commits.later hkeep fun c hc => (hfetched c hc).dated)
        have hl₄ := hl₁.trans hlater
        rcases r with e | u
        · exact ⟨hs.later hl₄, nofun⟩
        · have hnew : ∀ c ∈ b :: fresh, newest m.bars < c.ts := fun c hc => by
            have := (hfetched c hc).back
            omega
          have hcached : ∀ c ∈ b :: fresh, ∃ d ∈ w₄.cache p.instrument, d.ts = c.ts := fun c hc => by
            rw [Commits.done hkeep, insert_cache_self]
            exact mem_inserted hc
          have hreach : m.bars = [] → ∀ e ∈ p.experiments, ∀ q ∈ (w.rows e.name).equity,
              ∃ c ∈ b :: fresh, q.ts ≤ c.ts := fun hnil e he q hq => by
            have hone : newest m.bars + 1 ≤ 1 := by rw [hnil]; exact le_rfl
            exact hcover rfl (hnext.trans_le hone) hne e he q hq (hpast e he q hq)
          have hseen : ∀ d ∈ m.desks, d.seen ≤ newest (b :: fresh) := fun d => hf.seen_newest hrising hne hnew hreach
          have hlast : (m.bars ++ b :: fresh).getLast? = some ((b :: fresh).getLast hne) := by
            rw [List.getLast?_append, List.getLast?_eq_some_getLast hne, Option.some_or]
          have hext := (hf.later hl₄).extend hrising hne hnew (fun c hc => (hfetched c hc).dated) hcached hseen
          exact bookFresh_sound (hs.later hl₄) hext hlast ((hfetched _ (List.getLast_mem hne)).brought.later hlater.log)
            fun d hd => newest_getLast hne ▸ hseen d hd

theorem polls_sound (tries : ℕ) : ∀ (n : ℕ) (w : Store F J) (m : Memory F), Sane p read write w →
    Fits p read write w m → Holds p read write (fun _ w' => Sane p read write w') (polls p write tries n m) w
  | 0, _, _, hs, _ => hs
  | n + 1, w, m, hs, hf => by
    refine Prog.Sound.query hs ?_
    rintro (on : Bool) w' rfl
    refine Prog.Sound.ite (fun _ => ?_) fun _ => hs
    refine Prog.Sound.seq (poll_sound hs tries hf) ?_
    rintro (e | m') w' ⟨hs', hok⟩
    · exact hs'
    · exact polls_sound tries n w' m' hs' (hok m' rfl)

theorem run_sound (hs : Sane p read write w) (tries n : ℕ) :
    Holds p read write (fun _ w' => Sane p read write w') (run p read write tries n) w := by
  refine Prog.Sound.query hs ?_
  rintro (e | u) w' rfl
  · exact hs
  · refine Prog.Sound.query hs ?_
    rintro (t : ℤ) w₁ ⟨rfl, -, -⟩
    have hl₁ := Later.hear w' (.clock t)
    have hs₁ := hs.later hl₁
    refine Prog.Sound.seq (barsSince_sound hs₁ tries p.instrument _) ?_
    rintro (e | bars) w₂ ⟨hl₂, hbars⟩
    · exact hs₁.later hl₂
    · obtain ⟨hrising, hbars⟩ := hbars bars rfl
      have hs₂ := hs₁.later hl₂
      refine Prog.Sound.seq (Q := fun _ w' => Later w₂ w') ?_ ?_
      · cases otherOf p with
        | none => exact Later.refl w₂
        | some inst => exact (barsSince_sound hs₂ tries inst _).mono fun _ _ h => h.1
      rintro (e | other) w₃ hl₃
      · exact hs₂.later hl₃
      · have hs₃ := hs₂.later hl₃
        have hbooked : ∀ e ∈ p.experiments, bars ≠ [] → ∀ q ∈ (w₃.rows e.name).equity, q.ts ≤ newest bars :=
          fun e he hne q hq => booked_le_newest hs₂ hrising hbars hne he (hl₃.rows ▸ hq)
        have hcached : ∀ b ∈ bars, ∃ c ∈ w₃.cache p.instrument, c.ts = b.ts := fun b hb =>
          hl₃.cache _ b ((hbars b).mp hb).1
        have hdated : ∀ b ∈ bars, Dated b.ts := fun b hb => by
          obtain ⟨hmem, -⟩ := (hbars b).mp hb
          exact hs₂.dated p.instrument b hmem
        refine Prog.Sound.seq (openDesks_sound hs₃ p.experiments hbooked) ?_
        rintro (e | desks) w₄ ⟨rfl, hdesks⟩
        · exact hs₃
        · obtain ⟨hmap, hall⟩ := hdesks desks rfl
          exact polls_sound tries n _ _ hs₃
            ⟨hrising, hcached, hdated, hmap, fun d hd => (hall d hd).1, fun d hd => (hall d hd).2⟩

/-! ### Run after run -/

variable (p read write) in
/-- The program, run again and again: how many pages it asks for and how often it polls is the call's. -/
def shell : Shell (@Call.Ans F J) (Store F J) (ℕ × ℕ) where
  prog c := run p read write c.1 c.2
  calls _ _ := True
  answers := Answers p
  restart w := w
  passes := Later

end Runs

/-! ### A run that buys -/

/-- A bar of one price. -/
def flat (ts : ℤ) (price : ℚ) : Bar ℚ := ⟨ts, price, price, price, price, 1⟩

/-- In after a quarter of an hour that closed down, at no cost. -/
def reversal : Plan ℚ where
  instrument := "SOL-USDT"
  bar := "15m"
  barMs := 900000
  bars := rfl
  capital := 20
  costs := ⟨0, 0⟩
  stops := ⟨none, none⟩
  experiments := [⟨"reversal", .signReversal, none⟩]
  names := List.nodup_singleton _

/-- Two bars are there. -/
def opened : Store ℚ (Account ℚ) := ⟨fun _ => ⟨[], [], none⟩, fun _ => [flat 900000 100, flat 1800000 101], []⟩

/-- An hour and a minute; a third bar comes when four answers are known. -/
def reply (w : Store ℚ (Account ℚ)) : (o : Call ℚ (Account ℚ)) → o.Ans × Store ℚ (Account ℚ)
  | .now => ((3660000 : ℤ), w.hear (.clock 3660000))
  | .goesOn => (true, w)
  | .page inst after =>
    let rows := if 4 ≤ w.log.length ∧ 2700000 < after then [⟨flat 2700000 99, true⟩] else []
    (.ok rows, w.answered inst (.ok rows))
  | .ticker => (.ok (some (99, 100)), w)
  | .begin => (.ok (), w)
  | .cached inst start => (.ok ((w.cache inst).filter (start ≤ ·.ts)), w)
  | .keep inst bars => (.ok (), w.insert inst bars)
  | .stateOf e => (.ok (w.rows e).state, w)
  | .record e bar fills equity solValue state =>
    (.ok (), w.put e ((w.rows e).book bar fills equity solValue state))

/-- The bars booked are past, and before the third; the candles kept rise. -/
def fine (w : Store ℚ (Account ℚ)) : Call ℚ (Account ℚ) → Bool
  | .now | .page .. => (w.rows "reversal").equity.all (·.ts ≤ 2700000)
  | .cached inst _ => decide (((w.cache inst).map (·.ts)).Pairwise (· < ·))
  | _ => true

theorem reply_answers (w : Store ℚ (Account ℚ)) (o : Call ℚ (Account ℚ)) (h : fine w o = true) :
    Answers reversal w o (reply w o).1 (reply w o).2 := by
  cases o with
  | now =>
    refine ⟨rfl, show (0 : ℤ) ≤ 3660000 ∧ 3660000 ≤ i64Max by decide, fun e he q hq => ?_⟩
    obtain rfl := List.mem_singleton.mp he
    have hle := of_decide_eq_true (List.all_eq_true.mp h q hq)
    show q.ts < 3660000
    omega
  | page inst after =>
    refine ⟨rfl, fun rows hrows => ?_⟩
    cases hrows
    split
    · have hcandles : candles [(⟨flat 2700000 99, true⟩ : Row ℚ)] = [flat 2700000 99] := by simp [candles, flat, isFinite]
      rw [hcandles]
      refine ⟨fun b hb => ?_, fun _ _ e he q hq _ => ⟨_, hcandles ▸ List.mem_singleton_self _, ?_⟩⟩
      · rw [List.mem_singleton.mp hb]
        exact show 0 < (2700000 : ℤ) ∧ 2700000 + 14400000 ≤ i64Max by decide
      · obtain rfl := List.mem_singleton.mp he
        exact of_decide_eq_true (List.all_eq_true.mp h q hq)
    · exact ⟨nofun, fun hne => absurd rfl hne⟩
  | cached inst start =>
    refine ⟨rfl, fun bars hbars => ?_⟩
    cases hbars
    have hrising := List.pairwise_map.mp (of_decide_eq_true h)
    exact ⟨hrising.sublist List.filter_sublist, fun b => by simp [List.mem_filter]⟩
  | keep inst bars => exact .inl rfl
  | record e bar fills equity solValue state => exact .inl rfl
  | stateOf e => exact ⟨rfl, fun s hs => (Except.ok.inj hs).symm⟩
  | goesOn => rfl
  | ticker => rfl
  | begin => rfl

/-- A run of one poll. -/
def bought : Store ℚ (Account ℚ) × Prog (@Call.Ans ℚ (Account ℚ)) Unit :=
  Shell.steps reply 40 (opened, (shell reversal .ok id).prog (4, 1))

end Bench
end Lab
end MobiusSearcher
