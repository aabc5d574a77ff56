/-
# Rent for the accounts a trade leaves open

A plan is priced with the token accounts its transactions say they leave
created (`atasToCreate`). An account counts in a transaction whose last word on
it is a create that was kept (`leavesCreated`, `Tracks`): kept creates are those
of accounts not taken to exist, and all those of wrapped SOL, which may exist.
So an account is counted although it was there, although a later transaction
closes it, or once more when a later transaction recreates it; one that only an
instruction outside the setups creates is not counted. The count is right
exactly where as many are counted too much as are missed
(`rent_charged_iff`).

Key definitions: `Touch`, `openAfter`, `leavesCreated`, `leftCreated`, `atasToCreate`.
Key theorems: `legs_tracks`, `rent_charged_iff`.
-/
import MobiusSearcher.Execution.Dropped
import MobiusSearcher.Lib.Tally

namespace MobiusSearcher
namespace Assemble

/-! ### Plans -/

/-- The legs of each transaction of a plan. -/
def transactions (kind : PlanKind) (legs : List LegInstructions) : List (List LegInstructions) :=
  match kind with
  | .singleTx => [legs]
  | .bundle => legs.map fun leg => [leg]

/-- The transactions of a plan. -/
def compose (codec : Codec) (kind : PlanKind) (legs : List LegInstructions) (p : AssemblyParams)
    (cuLimits : Option (List ℕ)) : Except AssemblyError (List AssembledTx) :=
  match kind with
  | .singleTx => (composeSingle codec legs p).map fun tx => [tx]
  | .bundle => composeBundle codec legs p cuLimits

/-- The number of created accounts a plan is priced with. -/
def atasToCreate (txs : List AssembledTx) : ℕ := (txs.map fun tx => tx.createsAtas.length).sum

/-- The accounts there after a plan that were not there before. -/
def newlyOpen (txs : List AssembledTx) (there : Finset Address) : Finset Address :=
  (observe (txs.flatMap AssembledTx.ixs) there).2 \ there

/-! ### One account -/

/-- What a leg does to an account: a create in its setup, of wrapped SOL or not, or a close
after its swap. -/
inductive Touch
  | opens (wsol : Bool)
  | closes
  deriving DecidableEq, Repr

def touchSetup (a : Address) (ix : RawInstruction) : Option Touch :=
  if ataCreateTarget ix = some a then some (.opens (isWsolCreate ix)) else none

def touchAfter (a : Address) (ix : RawInstruction) : Option Touch :=
  if tokenCloseTarget ix = some a then some .closes else none

/-- What legs do to an account, in their order. -/
def touches (a : Address) (legs : List LegInstructions) : List Touch :=
  legs.flatMap fun leg => leg.setup.filterMap (touchSetup a) ++ leg.after.filterMap (touchAfter a)

/-- Whether it is open after, from whether it was before. -/
def openAfter (before : Bool) (ts : List Touch) : Bool :=
  match ts.getLast? with
  | some (.opens _) => true
  | some .closes => false
  | none => before

/-- The last word on it is a create, and one of those was kept: the account was not open,
or was closed in between, or is wrapped SOL's. -/
def leavesCreated (before : Bool) (ts : List Touch) : Bool :=
  match ts.getLast? with
  | some (.opens _) => !before || .closes ∈ ts || .opens true ∈ ts
  | _ => false

theorem openAfter_concat (before : Bool) (ts : List Touch) (t : Touch) :
    openAfter before (ts ++ [t]) = match t with
      | .opens _ => true
      | .closes => false := by
  unfold openAfter
  rw [List.getLast?_concat]
  cases t <;> rfl

theorem openAfter_append (before : Bool) (ts us : List Touch) :
    openAfter before (ts ++ us) = openAfter (openAfter before ts) us := by
  rcases List.eq_nil_or_concat' us with rfl | ⟨us', u, rfl⟩
  · rw [List.append_nil]
    rfl
  · rw [← List.append_assoc, openAfter_concat, openAfter_concat]

theorem leavesCreated_opens (before wsol : Bool) (ts : List Touch) :
    leavesCreated before (ts ++ [.opens wsol]) = (leavesCreated before ts || !openAfter before ts || wsol) := by
  unfold leavesCreated openAfter
  rw [List.getLast?_concat]
  rcases List.eq_nil_or_concat' ts with rfl | ⟨ts', t, rfl⟩
  · cases before <;> cases wsol <;> rfl
  · rw [List.getLast?_concat]
    cases t with
    | opens w =>
      cases wsol <;> simp
    | closes => simp

theorem leavesCreated_closes (before : Bool) (ts : List Touch) : leavesCreated before (ts ++ [.closes]) = false := by
  unfold leavesCreated
  rw [List.getLast?_concat]

/-- What is known of an account, by what was done to it in the transaction so far. -/
structure Tracks (a : Address) (before : Bool) (ts : List Touch) (k : Known) : Prop where
  existing : decide (a ∈ k.existing) = openAfter before ts
  creates : decide (a ∈ k.creates) = leavesCreated before ts

theorem mem_create {k : Known} {a ata : Address} :
    (a ∈ (k.create ata).existing ↔ a = ata ∨ a ∈ k.existing) ∧ (a ∈ (k.create ata).creates ↔ a ∈ k.creates ∨ a = ata) := by
  unfold Known.create
  refine ⟨Finset.mem_insert, ?_⟩
  simp only
  by_cases h : ata ∈ k.creates
  · rw [if_pos h]
    refine ⟨.inl, ?_⟩
    rintro (ha | rfl)
    · exact ha
    · exact h
  · rw [if_neg h, List.mem_append, List.mem_singleton]

theorem setup_tracks {a : Address} {before : Bool} : ∀ {ixs : List RawInstruction} {k : Known} {ts : List Touch},
    Tracks a before ts k → Tracks a before (ts ++ ixs.filterMap (touchSetup a)) (setupInstructions ixs k).2
  | [], k, ts, h => by
    rw [List.filterMap_nil, List.append_nil]
    exact h
  | ix :: ixs, k, ts, h => by
    unfold setupInstructions
    cases hcreate : ataCreateTarget ix with
    | none =>
      have hskip : touchSetup a ix = none := if_neg (by simp [hcreate])
      rw [List.filterMap_cons_none hskip]
      exact setup_tracks h
    | some ata =>
      simp only
      by_cases ha : a = ata
      · subst ha
        have htouch : touchSetup a ix = some (.opens (isWsolCreate ix)) := if_pos hcreate
        rw [List.filterMap_cons_some htouch, List.append_cons]
        by_cases hdrop : a ∈ k.existing ∧ ¬isWsolCreate ix
        · rw [if_pos hdrop]
          refine setup_tracks ⟨?_, ?_⟩
          · rw [openAfter_concat]
            exact decide_eq_true hdrop.1
          · have hopen : openAfter before ts = true := by rw [← h.existing, decide_eq_true hdrop.1]
            rw [leavesCreated_opens, hopen, h.creates, Bool.eq_false_iff.mpr hdrop.2]
            simp
        · rw [if_neg hdrop]
          have hkept : (!openAfter before ts || isWsolCreate ix) = true := by
            rw [← h.existing]
            by_cases hin : a ∈ k.existing
            · simp only [hin, true_and, not_not] at hdrop
              rw [hdrop, Bool.or_true]
            · rw [decide_eq_false hin]
              rfl
          refine setup_tracks ⟨?_, ?_⟩
          · rw [openAfter_concat]
            exact decide_eq_true (mem_create.1.mpr (.inl rfl))
          · rw [leavesCreated_opens, Bool.or_assoc, hkept, Bool.or_true]
            exact decide_eq_true (mem_create.2.mpr (.inr rfl))
      · have hskip : touchSetup a ix = none := if_neg (by rw [hcreate]; exact fun hsome => ha (Option.some.inj hsome).symm)
        rw [List.filterMap_cons_none hskip]
        by_cases hdrop : ata ∈ k.existing ∧ ¬isWsolCreate ix
        · rw [if_pos hdrop]
          exact setup_tracks h
        · rw [if_neg hdrop]
          refine setup_tracks ⟨?_, ?_⟩
          · rw [← h.existing]
            exact decide_eq_decide.mpr (mem_create.1.trans (or_iff_right ha))
          · rw [← h.creates]
            exact decide_eq_decide.mpr (mem_create.2.trans (or_iff_left ha))

theorem after_tracks {a : Address} {before : Bool} : ∀ {ixs : List RawInstruction} {k : Known} {ts : List Touch},
    Tracks a before ts k → Tracks a before (ts ++ ixs.filterMap (touchAfter a)) (ixs.foldl Known.close k)
  | [], k, ts, h => by
    rw [List.filterMap_nil, List.append_nil]
    exact h
  | ix :: ixs, k, ts, h => by
    rw [List.foldl_cons]
    unfold Known.close
    cases hclose : tokenCloseTarget ix with
    | none =>
      have hskip : touchAfter a ix = none := if_neg (by rw [hclose]; exact nofun)
      rw [List.filterMap_cons_none hskip]
      exact after_tracks h
    | some closed =>
      simp only
      by_cases ha : a = closed
      · subst ha
        have htouch : touchAfter a ix = some .closes := if_pos hclose
        rw [List.filterMap_cons_some htouch, List.append_cons]
        refine after_tracks ⟨?_, ?_⟩
        · rw [openAfter_concat]
          exact decide_eq_false (Finset.notMem_erase a _)
        · rw [leavesCreated_closes]
          exact decide_eq_false (by simp)
      · have hskip : touchAfter a ix = none := if_neg (by rw [hclose]; exact fun hsome => ha (Option.some.inj hsome).symm)
        rw [List.filterMap_cons_none hskip]
        refine after_tracks ⟨?_, ?_⟩
        · rw [← h.existing]
          exact decide_eq_decide.mpr (by rw [Finset.mem_erase]; exact and_iff_right ha)
        · rw [← h.creates]
          exact decide_eq_decide.mpr (by simp [ha])

/-- **What composing a transaction's legs knows of an account is what they do to it.** -/
theorem legs_tracks {a : Address} {before : Bool} : ∀ {legs : List LegInstructions} {k : Known} {ts : List Touch},
    Tracks a before ts k → Tracks a before (ts ++ touches a legs) (legsInstructions legs k).2
  | [], k, ts, h => by
    have hnone : touches a [] = [] := rfl
    rw [hnone, List.append_nil]
    exact h
  | leg :: legs, k, ts, h => by
    have hsplit : touches a (leg :: legs) =
        leg.setup.filterMap (touchSetup a) ++ (leg.after.filterMap (touchAfter a) ++ touches a legs) := by
      unfold touches
      rw [List.flatMap_cons, List.append_assoc]
    have hleg : Tracks a before (ts ++ leg.setup.filterMap (touchSetup a) ++ leg.after.filterMap (touchAfter a))
        (legInstructions leg k).2 := after_tracks (setup_tracks h)
    rw [hsplit, ← List.append_assoc, ← List.append_assoc]
    exact legs_tracks hleg

/-! ### What each transaction is charged for -/

/-- The accounts a transaction's setups create. -/
def created (legs : List LegInstructions) : Finset Address :=
  (legs.flatMap fun leg => leg.setup.filterMap ataCreateTarget).toFinset

/-- Those it leaves created, after the transactions with the legs `before`. -/
def leftCreated (existing : Finset Address) (before legs : List LegInstructions) : Finset Address :=
  (created legs).filter fun a => leavesCreated (openAfter (a ∈ existing) (touches a before)) (touches a legs)

/-- For each transaction after those with the legs `before`, the accounts it leaves created. -/
def leftFrom (existing : Finset Address) (before : List LegInstructions) :
    List (List LegInstructions) → List (Finset Address)
  | [] => []
  | legs :: rest => leftCreated existing before legs :: leftFrom existing (before ++ legs) rest

/-- The accounts that are there after all legs' instructions and were not before. -/
def opened (existing : Finset Address) (legs : List LegInstructions) : Finset Address :=
  (observe (legs.flatMap undropped) existing).2 \ existing

/-- No instruction but its setup's creates an account. -/
def CreatesBefore (leg : LegInstructions) : Prop := ∀ ix ∈ leg.swap :: leg.after, ataCreateTarget ix = none

instance (leg : LegInstructions) : Decidable (CreatesBefore leg) := by
  unfold CreatesBefore
  infer_instance

theorem touches_append (a : Address) (legs legs' : List LegInstructions) :
    touches a (legs ++ legs') = touches a legs ++ touches a legs' := List.flatMap_append

theorem touchSetup_eq_some {a : Address} {ix : RawInstruction} {t : Touch} (h : touchSetup a ix = some t) :
    ataCreateTarget ix = some a := by
  unfold touchSetup at h
  by_contra hne
  rw [if_neg hne] at h
  exact nomatch h

/-- What is left created, a setup creates. -/
theorem mem_created {a : Address} {before : Bool} {legs : List LegInstructions}
    (h : leavesCreated before (touches a legs) = true) : a ∈ created legs := by
  have hlast : ∃ wsol, (touches a legs).getLast? = some (.opens wsol) := by
    unfold leavesCreated at h
    split at h
    · exact ⟨_, ‹_›⟩
    · exact absurd h (by decide)
  obtain ⟨wsol, hlast⟩ := hlast
  obtain ⟨leg, hleg, hmem⟩ := List.mem_flatMap.mp (List.mem_of_getLast? hlast)
  rcases List.mem_append.mp hmem with hmem | hmem
  · obtain ⟨ix, hix, htouch⟩ := List.mem_filterMap.mp hmem
    rw [created, List.mem_toFinset, List.mem_flatMap]
    exact ⟨leg, hleg, List.mem_filterMap.mpr ⟨ix, hix, touchSetup_eq_some htouch⟩⟩
  · obtain ⟨ix, -, htouch⟩ := List.mem_filterMap.mp hmem
    unfold touchAfter at htouch
    split at htouch
    · exact nomatch htouch
    · exact nomatch htouch

theorem setup_nodup : ∀ {ixs : List RawInstruction} {k : Known}, k.creates.Nodup →
    (setupInstructions ixs k).2.creates.Nodup
  | [], _, h => h
  | ix :: ixs, k, h => by
    unfold setupInstructions
    cases ataCreateTarget ix with
    | none => exact setup_nodup h
    | some ata =>
      simp only
      split
      · exact setup_nodup h
      · refine setup_nodup ?_
        unfold Known.create
        simp only
        by_cases hin : ata ∈ k.creates
        · rw [if_pos hin]
          exact h
        · rw [if_neg hin]
          exact List.nodup_append.mpr ⟨h, List.nodup_singleton ata, fun x hx y hy => by
            rw [List.mem_singleton] at hy
            rw [hy]
            exact fun heq => hin (heq ▸ hx)⟩

theorem after_nodup : ∀ {ixs : List RawInstruction} {k : Known}, k.creates.Nodup → (ixs.foldl Known.close k).creates.Nodup
  | [], _, h => h
  | ix :: ixs, k, h => by
    rw [List.foldl_cons]
    unfold Known.close
    cases tokenCloseTarget ix with
    | none => exact after_nodup h
    | some closed => exact after_nodup (h.filter _)

theorem legs_nodup : ∀ {legs : List LegInstructions} {k : Known}, k.creates.Nodup →
    (legsInstructions legs k).2.creates.Nodup
  | [], _, h => h
  | _ :: legs, _, h => @legs_nodup legs _ (after_nodup (setup_nodup h))

/-- The accounts each transaction of legs is charged for. -/
def chargesFrom : List (List LegInstructions) → Finset Address → List (List Address)
  | [], _ => []
  | legs :: rest, existing =>
    let known := (legsInstructions legs ⟨existing, []⟩).2
    known.creates :: chargesFrom rest known.existing

theorem bundle_charges {codec : Codec} {p : AssemblyParams} {cuLimits : Option (List ℕ)} :
    ∀ {legs : List LegInstructions} {i : ℕ} {existing : Finset Address} {txs : List AssembledTx},
      bundleFrom codec p cuLimits i legs existing = .ok txs →
      txs.map AssembledTx.createsAtas = chargesFrom (legs.map fun leg => [leg]) existing
  | [], _, _, _, h => by
    obtain rfl := Except.ok.inj h
    rfl
  | leg :: legs, i, existing, txs, h => by
    obtain ⟨tx, rest, rfl, -, hcreates, hrest⟩ := bundleFrom_cons h
    rw [List.map_cons, List.map_cons, hcreates, bundle_charges hrest]
    rfl

/-- **What the transactions of a plan are charged for is what they leave created.** -/
theorem charges_left {existing : Finset Address} : ∀ {txs : List (List LegInstructions)} {before : List LegInstructions}
    {known : Finset Address}, (∀ a, decide (a ∈ known) = openAfter (a ∈ existing) (touches a before)) →
    (chargesFrom txs known).map List.length = (leftFrom existing before txs).map Finset.card
  | [], _, _, _ => rfl
  | legs :: rest, before, known, hknown => by
    have htracks : ∀ a, Tracks a (openAfter (a ∈ existing) (touches a before)) (touches a legs)
        (legsInstructions legs ⟨known, []⟩).2 := by
      intro a
      refine @legs_tracks a _ legs _ [] ⟨hknown a, ?_⟩
      exact decide_eq_false List.not_mem_nil
    have hset : (legsInstructions legs ⟨known, []⟩).2.creates.toFinset = leftCreated existing before legs := by
      ext a
      unfold leftCreated
      have hleft := (htracks a).creates
      rw [List.mem_toFinset, Finset.mem_filter, ← hleft, decide_eq_true_eq]
      refine ⟨fun ha => ⟨?_, ha⟩, And.right⟩
      rw [decide_eq_true ha] at hleft
      exact mem_created hleft.symm
    have hnext : ∀ a, decide (a ∈ (legsInstructions legs ⟨known, []⟩).2.existing) =
        openAfter (a ∈ existing) (touches a (before ++ legs)) := by
      intro a
      rw [touches_append, openAfter_append]
      exact (htracks a).existing
    unfold chargesFrom leftFrom
    simp only
    rw [List.map_cons, List.map_cons, charges_left hnext, ← hset,
      List.toFinset_card_of_nodup (legs_nodup (k := ⟨known, []⟩) List.nodup_nil)]

/-! ### Nothing missed -/

/-- Creates and closes, one after the other, decide what is there. -/
theorem setup_open {a : Address} : ∀ {ixs : List RawInstruction} {there : Finset Address},
    (∀ ix ∈ ixs, tokenCloseTarget ix = none) →
    decide (a ∈ (observe (ixs.map plain) there).2) = openAfter (a ∈ there) (ixs.filterMap (touchSetup a))
  | [], _, _ => rfl
  | ix :: ixs, there, hno => by
    rw [List.map_cons, observe_plain, setup_open fun x hx => hno x (List.mem_cons_of_mem ix hx)]
    cases hcreate : ataCreateTarget ix with
    | none =>
      have hskip : touchSetup a ix = none := if_neg (by simp [hcreate])
      rw [List.filterMap_cons_none hskip, exec_inert ⟨hcreate, hno ix (List.mem_cons_self ..)⟩]
    | some ata =>
      rw [exec_create hcreate]
      by_cases ha : a = ata
      · subst ha
        have htouch : touchSetup a ix = some (.opens (isWsolCreate ix)) := if_pos hcreate
        rw [List.filterMap_cons_some htouch, ← List.singleton_append, openAfter_append,
          decide_eq_true (Finset.mem_insert_self a there)]
        rfl
      · have hskip : touchSetup a ix = none := if_neg (by rw [hcreate]; exact fun hsome => ha (Option.some.inj hsome).symm)
        rw [List.filterMap_cons_none hskip]
        congr 1
        exact decide_eq_decide.mpr (Finset.mem_insert.trans (or_iff_right ha))

theorem after_open {a : Address} : ∀ {ixs : List RawInstruction} {there : Finset Address},
    (∀ ix ∈ ixs, ataCreateTarget ix = none) →
    decide (a ∈ (observe (ixs.map plain) there).2) = openAfter (a ∈ there) (ixs.filterMap (touchAfter a))
  | [], _, _ => rfl
  | ix :: ixs, there, hno => by
    rw [List.map_cons, observe_plain, after_open fun x hx => hno x (List.mem_cons_of_mem ix hx)]
    have hcreate := hno ix (List.mem_cons_self ..)
    cases hclose : tokenCloseTarget ix with
    | none =>
      have hskip : touchAfter a ix = none := if_neg (by rw [hclose]; exact nofun)
      rw [List.filterMap_cons_none hskip, exec_inert ⟨hcreate, hclose⟩]
    | some closed =>
      have hexec : exec there ix = there.erase closed := by
        unfold exec
        rw [hcreate, hclose]
      rw [hexec]
      by_cases ha : a = closed
      · subst ha
        have htouch : touchAfter a ix = some .closes := if_pos hclose
        rw [List.filterMap_cons_some htouch, ← List.singleton_append, openAfter_append,
          decide_eq_false (Finset.notMem_erase a there)]
        rfl
      · have hskip : touchAfter a ix = none := if_neg (by rw [hclose]; exact fun hsome => ha (Option.some.inj hsome).symm)
        rw [List.filterMap_cons_none hskip]
        congr 1
        exact decide_eq_decide.mpr (by rw [Finset.mem_erase]; exact and_iff_right ha)

theorem legs_open {a : Address} : ∀ {legs : List LegInstructions} {there : Finset Address},
    (∀ leg ∈ legs, ClosesAfter leg) → (∀ leg ∈ legs, CreatesBefore leg) →
    decide (a ∈ (observe (legs.flatMap undropped) there).2) = openAfter (a ∈ there) (touches a legs)
  | [], _, _, _ => rfl
  | leg :: legs, there, hclose, hcreate => by
    have hswap : Inert leg.swap :=
      ⟨hcreate leg (List.mem_cons_self ..) _ (List.mem_cons_self ..),
        hclose leg (List.mem_cons_self ..) _ (List.mem_cons_self ..)⟩
    have hsetup := @setup_open a leg.setup there fun ix hix =>
      hclose leg (List.mem_cons_self ..) ix (List.mem_cons_of_mem _ hix)
    have hafter := @after_open a leg.after (observe (leg.setup.map plain) there).2 fun ix hix =>
      hcreate leg (List.mem_cons_self ..) ix (List.mem_cons_of_mem _ hix)
    have hleg : decide (a ∈ (observe (undropped leg) there).2) = openAfter (a ∈ there) (touches a [leg]) := by
      unfold undropped
      rw [observe_append, observe_cons, exec_inert hswap]
      show decide (a ∈ (observe (leg.after.map plain) (observe (leg.setup.map plain) there).2).2) = _
      rw [hafter, hsetup, ← openAfter_append]
      unfold touches
      rw [List.flatMap_singleton]
    have hsplit : touches a (leg :: legs) = touches a [leg] ++ touches a legs := touches_append a [leg] legs
    rw [List.flatMap_cons, observe_append, hsplit, openAfter_append]
    simp only
    rw [legs_open (fun l hl => hclose l (List.mem_cons_of_mem leg hl))
      (fun l hl => hcreate l (List.mem_cons_of_mem leg hl)), hleg]

/-- An account that gets opened is left created by a transaction: the one it is open after
and was not before. -/
theorem exists_left {existing : Finset Address} {a : Address} : ∀ {txs : List (List LegInstructions)}
    {before : List LegInstructions}, openAfter (a ∈ existing) (touches a before) = false →
    openAfter (a ∈ existing) (touches a (before ++ txs.flatten)) = true → ∃ t ∈ leftFrom existing before txs, a ∈ t
  | [], before, hclosed, hopen => by
    rw [List.flatten_nil, List.append_nil, hclosed] at hopen
    exact absurd hopen (by decide)
  | legs :: rest, before, hclosed, hopen => by
    unfold leftFrom
    by_cases hnow : openAfter (a ∈ existing) (touches a (before ++ legs)) = true
    · refine ⟨_, List.mem_cons_self .., ?_⟩
      have hleft : leavesCreated (openAfter (a ∈ existing) (touches a before)) (touches a legs) = true := by
        rw [touches_append, openAfter_append, hclosed] at hnow
        rw [hclosed]
        unfold openAfter at hnow
        unfold leavesCreated
        split at hnow
        · rename_i hlast
          rw [hlast]
          rfl
        · exact absurd hnow (by decide)
        · exact absurd hnow (by decide)
      exact Finset.mem_filter.mpr ⟨mem_created hleft, hleft⟩
    · rw [List.flatten_cons, ← List.append_assoc] at hopen
      obtain ⟨t, ht, ha⟩ := exists_left (Bool.eq_false_iff.mpr hnow) hopen
      exact ⟨t, List.mem_cons_of_mem _ ht, ha⟩

theorem missed_eq_empty {existing : Finset Address} {txs : List (List LegInstructions)}
    (hclose : ∀ leg ∈ txs.flatten, ClosesAfter leg) (hcreate : ∀ leg ∈ txs.flatten, CreatesBefore leg) :
    Tally.missed (opened existing txs.flatten) (leftFrom existing [] txs) = ∅ := by
  refine Finset.filter_eq_empty_iff.mpr fun a ha hnone => ?_
  obtain ⟨hin, hnew⟩ := Finset.mem_sdiff.mp ha
  have hopen := @legs_open a _ existing hclose hcreate
  rw [decide_eq_true hin] at hopen
  obtain ⟨t, ht, hat⟩ := @exists_left existing a txs []
    (decide_eq_false hnew) hopen.symm
  exact hnone t ht hat

/-! ### Plans -/

theorem compose_single {codec : Codec} {legs : List LegInstructions} {p : AssemblyParams} {cuLimits : Option (List ℕ)}
    {txs : List AssembledTx} (h : compose codec .singleTx legs p cuLimits = .ok txs) :
    ∃ tx, composeSingle codec legs p = .ok tx ∧ txs = [tx] := by
  unfold compose at h
  cases htx : composeSingle codec legs p with
  | error e =>
    rw [htx] at h
    exact nomatch h
  | ok tx =>
    rw [htx] at h
    exact ⟨tx, rfl, (Except.ok.inj h).symm⟩

theorem compose_charges {codec : Codec} {kind : PlanKind} {legs : List LegInstructions} {p : AssemblyParams}
    {cuLimits : Option (List ℕ)} {txs : List AssembledTx} (h : compose codec kind legs p cuLimits = .ok txs) :
    txs.map AssembledTx.createsAtas = chargesFrom (transactions kind legs) p.existingAtas := by
  cases kind with
  | singleTx =>
    obtain ⟨tx, htx, rfl⟩ := compose_single h
    rw [List.map_singleton, (composeSingle_eq_ok htx).2]
    rfl
  | bundle => exact bundle_charges h

theorem compose_unobserved {codec : Codec} {kind : PlanKind} {legs : List LegInstructions} {p : AssemblyParams}
    {cuLimits : Option (List ℕ)} {txs : List AssembledTx} {there : Finset Address} (hlegs : ∀ leg ∈ legs, ClosesAfter leg)
    (hthere : p.existingAtas ⊆ there) (h : compose codec kind legs p cuLimits = .ok txs) :
    observe (txs.flatMap AssembledTx.ixs) there = observe (legs.flatMap undropped) there := by
  cases kind with
  | singleTx =>
    obtain ⟨tx, htx, rfl⟩ := compose_single h
    rw [List.flatMap_singleton, (composeSingle_eq_ok htx).1, observe_wrapped]
    exact (legsInstructions_unobserved (k := ⟨p.existingAtas, []⟩) hlegs hthere).1
  | bundle => exact bundleFrom_unobserved hlegs hthere h

theorem flatten_transactions (kind : PlanKind) (legs : List LegInstructions) : (transactions kind legs).flatten = legs := by
  cases kind with
  | singleTx => exact List.append_nil legs
  | bundle =>
    show (legs.map fun leg => [leg]).flatten = legs
    induction legs with
    | nil => rfl
    | cons leg legs ih => rw [List.map_cons, List.flatten_cons, ih, List.singleton_append]

/-- **Rent is charged for as many accounts as a trade leaves open exactly if as many are
charged that it does not leave open anew, or that a later transaction is charged for
again, as are left open uncharged.** Where every create is in a setup none is left open
uncharged, and the count is right exactly if no charge is of the first kind. -/
theorem rent_charged_iff {codec : Codec} {kind : PlanKind} {legs : List LegInstructions} {p : AssemblyParams}
    {cuLimits : Option (List ℕ)} {txs : List AssembledTx} (hlegs : ∀ leg ∈ legs, ClosesAfter leg)
    (h : compose codec kind legs p cuLimits = .ok txs) :
    (atasToCreate txs = (newlyOpen txs p.existingAtas).card ↔
      ((Tally.spurious (opened p.existingAtas legs) (leftFrom p.existingAtas [] (transactions kind legs))).map
        Finset.card).sum =
      (Tally.missed (opened p.existingAtas legs) (leftFrom p.existingAtas [] (transactions kind legs))).card) ∧
    ((∀ leg ∈ legs, CreatesBefore leg) → (atasToCreate txs = (newlyOpen txs p.existingAtas).card ↔
      ∀ s ∈ Tally.spurious (opened p.existingAtas legs) (leftFrom p.existingAtas [] (transactions kind legs)), s = ∅)) := by
  have hcharged : atasToCreate txs =
      ((leftFrom p.existingAtas [] (transactions kind legs)).map Finset.card).sum := by
    unfold atasToCreate
    rw [← @charges_left p.existingAtas _ [] p.existingAtas fun a => rfl,
      ← compose_charges h, List.map_map]
    rfl
  have hopen : newlyOpen txs p.existingAtas = opened p.existingAtas legs := by
    unfold newlyOpen opened
    rw [compose_unobserved hlegs (Finset.Subset.refl _) h]
  rw [hcharged, hopen]
  refine ⟨Tally.sum_card_eq_iff _ _, fun hcreate => Tally.sum_card_eq_iff_of_missed ?_⟩
  have hflat := flatten_transactions kind legs
  have hmissed := @missed_eq_empty p.existingAtas (transactions kind legs)
    (by rw [hflat]; exact hlegs) (by rw [hflat]; exact hcreate)
  rw [hflat] at hmissed
  exact hmissed

/-- The wrapped SOL account is unwrapped by each leg, the other one was there. -/
theorem round_trip_charged : ∃ txs, compose plainCodec .bundle RoundTrip.legs RoundTrip.params none = .ok txs ∧
    atasToCreate txs = (newlyOpen txs RoundTrip.params.existingAtas).card := by
  cases h : compose plainCodec .bundle RoundTrip.legs RoundTrip.params none with
  | error e =>
    have hok : (compose plainCodec .bundle RoundTrip.legs RoundTrip.params none).isOk = true := by decide +kernel
    rw [h] at hok
    exact nomatch hok
  | ok txs =>
    obtain ⟨-, hsetups⟩ := rent_charged_iff (by decide) h
    exact ⟨txs, rfl, (hsetups (by decide)).mpr (by decide +kernel)⟩

/-- A leg that keeps its wrapped SOL in the account it was in. -/
def RoundTrip.keepsWsol : LegInstructions := ⟨[create wsolAta wsolMint], swap, none, [], []⟩

/-- Charged for the wrapped SOL account, which was there and stays. -/
theorem wsol_charged_although_there : ClosesAfter RoundTrip.keepsWsol ∧
    ∃ txs, compose plainCodec .singleTx [RoundTrip.keepsWsol] RoundTrip.params none = .ok txs ∧
      atasToCreate txs = 1 ∧ (newlyOpen txs RoundTrip.params.existingAtas).card = 0 := by
  refine ⟨by decide, ?_⟩
  have hok : ((compose plainCodec .singleTx [RoundTrip.keepsWsol] RoundTrip.params none).map fun txs =>
      (atasToCreate txs, (newlyOpen txs RoundTrip.params.existingAtas).card)).toOption = some (1, 0) := by decide +kernel
  cases h : compose plainCodec .singleTx [RoundTrip.keepsWsol] RoundTrip.params none with
  | error e =>
    rw [h] at hok
    exact nomatch hok
  | ok txs =>
    rw [h] at hok
    obtain ⟨hcount, hopen⟩ := Prod.mk.inj (Option.some.inj hok)
    exact ⟨txs, rfl, hcount, hopen⟩

end Assemble
end MobiusSearcher
