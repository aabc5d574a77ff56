/-
# Dropping the creates of existing accounts

What executing a composition does to token accounts: `CreateIdempotent` adds
one, `CloseAccount` removes one. The composition drops creates of accounts it
takes to exist; those do exist (`legInstructions_unobserved`), also after an earlier
leg or transaction closed some, so each dropped create would have changed
nothing, and what is there before every swap and at the end is the same.

Key definitions: `exec`, `observe`, `ClosesAfter`, `undroppedSingle`, `undroppedBundle`.
Key theorems: `legInstructions_unobserved`, `dropped_creates_unobserved`.
-/
import MobiusSearcher.Execution.Assemble

namespace MobiusSearcher
namespace Assemble

/-! ### Execution -/

/-- The token accounts after an instruction. -/
def exec (there : Finset Address) (ix : RawInstruction) : Finset Address :=
  match ataCreateTarget ix with
  | some ata => insert ata there
  | none =>
    match tokenCloseTarget ix with
    | some closed => there.erase closed
    | none => there

/-- The token accounts before every swap, in order, and at the end. -/
def observe : List Placed → Finset Address → List (Finset Address) × Finset Address
  | [], there => ([], there)
  | x :: xs, there =>
    let rest := observe xs (exec there x.ix)
    ((if x.isSwap then [there] else []) ++ rest.1, rest.2)

theorem observe_cons (x : Placed) (xs : List Placed) (there : Finset Address) : observe (x :: xs) there =
    ((if x.isSwap then [there] else []) ++ (observe xs (exec there x.ix)).1, (observe xs (exec there x.ix)).2) := rfl

theorem observe_append : ∀ (xs ys : List Placed) (there : Finset Address), observe (xs ++ ys) there =
    ((observe xs there).1 ++ (observe ys (observe xs there).2).1, (observe ys (observe xs there).2).2)
  | [], _, _ => rfl
  | x :: xs, ys, there => by
    rw [List.cons_append, observe_cons, observe_cons, observe_append xs ys, List.append_assoc]

theorem observe_plain (ix : RawInstruction) (xs : List Placed) (there : Finset Address) :
    observe (plain ix :: xs) there = observe xs (exec there ix) := rfl

theorem exec_create {there : Finset Address} {ix : RawInstruction} {ata : Address} (h : ataCreateTarget ix = some ata) :
    exec there ix = insert ata there := by
  unfold exec
  rw [h]

/-- No instruction both creates and closes. -/
theorem not_close_of_create {ix : RawInstruction} {ata : Address} (h : ataCreateTarget ix = some ata) :
    tokenCloseTarget ix = none := by
  unfold ataCreateTarget at h
  by_cases hc : ix.programId = associatedTokenProgram ∧ ix.data = [1]
  · unfold tokenCloseTarget
    rw [if_neg]
    rintro ⟨-, hdata⟩
    rw [hc.2] at hdata
    exact absurd hdata (by decide)
  · rw [if_neg hc] at h
    exact nomatch h

/-- Not on a token account: neither created nor closed. -/
def Inert (ix : RawInstruction) : Prop := ataCreateTarget ix = none ∧ tokenCloseTarget ix = none

theorem exec_inert {there : Finset Address} {ix : RawInstruction} (h : Inert ix) : exec there ix = there := by
  unfold exec
  rw [h.1, h.2]

theorem observe_inert {there : Finset Address} : ∀ {ixs : List RawInstruction}, (∀ ix ∈ ixs, Inert ix) →
    observe (ixs.map plain) there = ([], there)
  | [], _ => rfl
  | ix :: ixs, h => by
    rw [List.map_cons, observe_plain, exec_inert (h ix (List.mem_cons_self ..))]
    exact observe_inert fun x hx => h x (List.mem_cons_of_mem ix hx)

theorem observe_budget (p : AssemblyParams) (cuLimit : ℕ) (there : Finset Address) :
    observe (budgetIxs p cuLimit) there = ([], there) := by
  have hbudget : ∀ data, Inert (computeBudgetIx data) := fun data => ⟨rfl, rfl⟩
  refine observe_inert fun ix hix => ?_
  rcases List.mem_cons.mp hix with rfl | hix
  · exact hbudget _
  · split at hix
    · rw [List.mem_singleton] at hix
      rw [hix]
      exact hbudget _
    · exact absurd hix List.not_mem_nil

theorem observe_tip (p : AssemblyParams) (there : Finset Address) :
    observe ((tipIx p).toList.map plain) there = ([], there) := by
  refine observe_inert fun ix hix => ?_
  unfold tipIx at hix
  rw [Option.mem_toList, Option.map_eq_some_iff] at hix
  obtain ⟨t, -, rfl⟩ := hix
  exact ⟨rfl, rfl⟩

/-! ### The composition with nothing dropped -/

/-- A leg's instructions, all of them. -/
def undropped (leg : LegInstructions) : List Placed :=
  leg.setup.map plain ++ ⟨leg.swap, true⟩ :: leg.after.map plain

def undroppedSingle (legs : List LegInstructions) (p : AssemblyParams) : List Placed :=
  budgetIxs p p.cuLimit ++ (legs.flatMap undropped ++ (tipIx p).toList.map plain)

def undroppedFrom (p : AssemblyParams) (cuLimits : Option (List ℕ)) : ℕ → List LegInstructions → List (List Placed)
  | _, [] => []
  | i, leg :: legs =>
    let ixs := if legs.isEmpty then undropped leg ++ (tipIx p).toList.map plain else undropped leg
    (budgetIxs p ((cuLimits.bind fun limits => limits[i]?).getD p.cuLimit) ++ ixs) :: undroppedFrom p cuLimits (i + 1) legs

def undroppedBundle (legs : List LegInstructions) (p : AssemblyParams) (cuLimits : Option (List ℕ)) : List (List Placed) :=
  undroppedFrom p cuLimits 0 legs

/-- `CloseAccount` is only in its cleanup and other lists. -/
def ClosesAfter (leg : LegInstructions) : Prop := ∀ ix ∈ leg.swap :: leg.setup, tokenCloseTarget ix = none

instance (leg : LegInstructions) : Decidable (ClosesAfter leg) := by
  unfold ClosesAfter
  infer_instance

/-! ### What is dropped changes nothing -/

theorem setup_unobserved : ∀ {ixs : List RawInstruction} {k : Known} {there : Finset Address},
    (∀ ix ∈ ixs, tokenCloseTarget ix = none) → k.existing ⊆ there →
    observe ((setupInstructions ixs k).1.map plain) there = observe (ixs.map plain) there ∧
      (setupInstructions ixs k).2.existing ⊆ (observe (ixs.map plain) there).2
  | [], _, _, _, hsub => ⟨rfl, hsub⟩
  | ix :: ixs, k, there, hno, hsub => by
    have hno' : ∀ x ∈ ixs, tokenCloseTarget x = none := fun x hx => hno x (List.mem_cons_of_mem ix hx)
    rw [List.map_cons, observe_plain]
    unfold setupInstructions
    cases hcreate : ataCreateTarget ix with
    | none =>
      have hsame : exec there ix = there := exec_inert ⟨hcreate, hno ix (List.mem_cons_self ..)⟩
      rw [hsame]
      obtain ⟨hobs, hin⟩ := setup_unobserved (k := k) hno' hsub
      refine ⟨?_, hin⟩
      rw [List.map_cons, observe_plain, hsame]
      exact hobs
    | some ata =>
      simp only
      by_cases hdrop : ata ∈ k.existing ∧ ¬isWsolCreate ix
      · -- the account is there: creating it again would change nothing
        have hsame : exec there ix = there := by
          rw [exec_create hcreate]
          exact Finset.insert_eq_of_mem (hsub hdrop.1)
        rw [if_pos hdrop, hsame]
        exact setup_unobserved hno' hsub
      · rw [if_neg hdrop]
        have hsub' : (k.create ata).existing ⊆ exec there ix := by
          rw [exec_create hcreate]
          exact Finset.insert_subset_insert ata hsub
        obtain ⟨hobs, hin⟩ := setup_unobserved hno' hsub'
        refine ⟨?_, hin⟩
        rw [List.map_cons, observe_plain]
        exact hobs

/-- What a close takes off the accounts known to exist, it takes off those that do. -/
theorem close_sub {k : Known} {ix : RawInstruction} {there : Finset Address} (hsub : k.existing ⊆ there) :
    (k.close ix).existing ⊆ exec there ix := by
  unfold Known.close exec
  cases hclose : tokenCloseTarget ix with
  | none =>
    cases hcreate : ataCreateTarget ix with
    | none => exact hsub
    | some ata => exact hsub.trans (Finset.subset_insert ata there)
  | some closed =>
    have hcreate : ataCreateTarget ix = none := by
      by_contra hne
      obtain ⟨ata, hata⟩ := Option.ne_none_iff_exists'.mp hne
      rw [not_close_of_create hata] at hclose
      exact nomatch hclose
    rw [hcreate]
    exact Finset.erase_subset_erase closed hsub

theorem after_sub : ∀ {ixs : List RawInstruction} {k : Known} {there : Finset Address}, k.existing ⊆ there →
    (ixs.foldl Known.close k).existing ⊆ (observe (ixs.map plain) there).2
  | [], _, _, hsub => hsub
  | ix :: ixs, k, there, hsub => by
    rw [List.foldl_cons, List.map_cons, observe_plain]
    exact after_sub (close_sub hsub)

/-- **A leg with its redundant creates dropped is as good as the leg.** -/
theorem legInstructions_unobserved {leg : LegInstructions} {k : Known} {there : Finset Address} (hleg : ClosesAfter leg)
    (hsub : k.existing ⊆ there) :
    observe (legInstructions leg k).1 there = observe (undropped leg) there ∧
      (legInstructions leg k).2.existing ⊆ (observe (undropped leg) there).2 := by
  obtain ⟨hobs, hin⟩ := setup_unobserved (fun ix hix => hleg ix (List.mem_cons_of_mem _ hix)) hsub
  have hswap : (setupInstructions leg.setup k).2.existing ⊆ exec (observe (leg.setup.map plain) there).2 leg.swap := by
    unfold exec
    rw [hleg leg.swap (List.mem_cons_self ..)]
    cases ataCreateTarget leg.swap with
    | none => exact hin
    | some ata => exact hin.trans (Finset.subset_insert ata _)
  unfold legInstructions undropped
  simp only
  rw [observe_append, observe_append, hobs]
  exact ⟨rfl, after_sub hswap⟩

theorem legsInstructions_unobserved : ∀ {legs : List LegInstructions} {k : Known} {there : Finset Address},
    (∀ leg ∈ legs, ClosesAfter leg) → k.existing ⊆ there →
    observe (legsInstructions legs k).1 there = observe (legs.flatMap undropped) there ∧
      (legsInstructions legs k).2.existing ⊆ (observe (legs.flatMap undropped) there).2
  | [], _, _, _, hsub => ⟨rfl, hsub⟩
  | leg :: legs, k, there, hlegs, hsub => by
    obtain ⟨hobs, hin⟩ := legInstructions_unobserved (hlegs leg (List.mem_cons_self ..)) hsub
    obtain ⟨hobs', hin'⟩ := legsInstructions_unobserved (fun l hl => hlegs l (List.mem_cons_of_mem leg hl)) hin
    unfold legsInstructions
    simp only
    rw [List.flatMap_cons, observe_append, observe_append, hobs, hobs']
    exact ⟨rfl, hin'⟩

/-- A transaction's budget instructions and its tip are around its legs' instructions. -/
theorem observe_wrapped {p : AssemblyParams} {cuLimit : ℕ} {xs : List Placed} {there : Finset Address} :
    observe (budgetIxs p cuLimit ++ (xs ++ (tipIx p).toList.map plain)) there = observe xs there := by
  rw [observe_append, observe_budget, List.nil_append, observe_append, observe_tip, List.append_nil]

theorem observe_budgeted {p : AssemblyParams} {cuLimit : ℕ} {xs : List Placed} {there : Finset Address} :
    observe (budgetIxs p cuLimit ++ xs) there = observe xs there := by
  rw [observe_append, observe_budget, List.nil_append]

/-- Of several transactions one after the other. -/
theorem bundleFrom_unobserved {codec : Codec} {p : AssemblyParams} {cuLimits : Option (List ℕ)} :
    ∀ {legs : List LegInstructions} {i : ℕ} {existing there : Finset Address} {txs : List AssembledTx},
      (∀ leg ∈ legs, ClosesAfter leg) → existing ⊆ there → bundleFrom codec p cuLimits i legs existing = .ok txs →
      observe (txs.flatMap AssembledTx.ixs) there = observe (legs.flatMap undropped) there
  | [], _, _, _, _, _, _, h => by
    obtain rfl := Except.ok.inj h
    rfl
  | leg :: legs, i, existing, there, txs, hlegs, hsub, h => by
    obtain ⟨tx, rest, rfl, hixs, -, hrest⟩ := bundleFrom_cons h
    obtain ⟨hobs, hin⟩ := legInstructions_unobserved (k := ⟨existing, []⟩) (hlegs leg (List.mem_cons_self ..)) hsub
    have ih := bundleFrom_unobserved (fun l hl => hlegs l (List.mem_cons_of_mem leg hl)) hin hrest
    have htx : observe tx.ixs there = observe (undropped leg) there := by
      rw [hixs]
      split
      · rw [observe_wrapped, hobs]
      · rw [observe_budgeted, hobs]
    rw [List.flatMap_cons, List.flatMap_cons, observe_append, observe_append, htx, ih]

theorem observe_undroppedFrom {p : AssemblyParams} {cuLimits : Option (List ℕ)} :
    ∀ {legs : List LegInstructions} {i : ℕ} {there : Finset Address},
      observe (undroppedFrom p cuLimits i legs).flatten there = observe (legs.flatMap undropped) there
  | [], _, _ => rfl
  | leg :: legs, i, there => by
    have htx : observe (budgetIxs p ((cuLimits.bind fun limits => limits[i]?).getD p.cuLimit) ++
        (if legs.isEmpty then undropped leg ++ (tipIx p).toList.map plain else undropped leg)) there =
        observe (undropped leg) there := by
      split
      · rw [observe_wrapped]
      · rw [observe_budgeted]
    unfold undroppedFrom
    simp only
    rw [List.flatMap_cons, List.flatten_cons, observe_append _ (undroppedFrom p cuLimits (i + 1) legs).flatten, htx,
      observe_append (undropped leg), observe_undroppedFrom]

/-- **Dropping creates of existing accounts does not change what a trade executes**: the
token accounts before every swap and at the end are those of the same composition with
nothing dropped, in one transaction and in a bundle. -/
theorem dropped_creates_unobserved {codec : Codec} {legs : List LegInstructions} {p : AssemblyParams}
    {cuLimits : Option (List ℕ)} {there : Finset Address} (hlegs : ∀ leg ∈ legs, ClosesAfter leg)
    (hthere : p.existingAtas ⊆ there) :
    (∀ tx, composeSingle codec legs p = .ok tx → observe tx.ixs there = observe (undroppedSingle legs p) there) ∧
      ∀ txs, composeBundle codec legs p cuLimits = .ok txs →
        observe (txs.flatMap AssembledTx.ixs) there = observe (undroppedBundle legs p cuLimits).flatten there := by
  constructor
  · intro tx htx
    obtain ⟨hobs, -⟩ := legsInstructions_unobserved (k := ⟨p.existingAtas, []⟩) hlegs hthere
    unfold undroppedSingle
    rw [(composeSingle_eq_ok htx).1, observe_wrapped, observe_wrapped, hobs]
  · intro txs htxs
    unfold undroppedBundle
    rw [bundleFrom_unobserved hlegs hthere htxs, observe_undroppedFrom]

/-! ### A round trip -/

namespace RoundTrip

def payer : Address := ⟨11⟩
def wsolAta : Address := ⟨12⟩
def usdcAta : Address := ⟨13⟩
def usdcMint : Address := ⟨14⟩
def dex : Address := ⟨15⟩

def create (ata mint : Address) : RawInstruction :=
  ⟨associatedTokenProgram,
    [⟨payer, true, true⟩, ⟨ata, false, true⟩, ⟨payer, false, false⟩, ⟨mint, false, false⟩, ⟨systemProgram, false, false⟩,
      ⟨tokenProgram, false, false⟩], [1]⟩

def close (ata : Address) : RawInstruction :=
  ⟨tokenProgram, [⟨ata, false, true⟩, ⟨payer, false, true⟩, ⟨payer, true, false⟩], [9]⟩

def swap : RawInstruction := ⟨dex, [⟨wsolAta, false, true⟩, ⟨usdcAta, false, true⟩, ⟨payer, true, false⟩], [7]⟩

/-- Sell wrapped SOL and buy it back; both legs unwrap what is left. -/
def legs : List LegInstructions :=
  [⟨[create wsolAta wsolMint, create usdcAta usdcMint], swap, some (close wsolAta), [], []⟩,
    ⟨[create usdcAta usdcMint, create wsolAta wsolMint], swap, some (close wsolAta), [], []⟩]

def params : AssemblyParams := ⟨payer, 1400000, 2719, some (⟨16⟩, 10000), none, {wsolAta, usdcAta}, 0⟩

end RoundTrip

theorem round_trip_unobserved :
    (∃ tx, composeSingle plainCodec RoundTrip.legs RoundTrip.params = .ok tx ∧ tx.ataCreateIxs = 2 ∧
        observe tx.ixs {RoundTrip.wsolAta, RoundTrip.usdcAta} =
          observe (undroppedSingle RoundTrip.legs RoundTrip.params) {RoundTrip.wsolAta, RoundTrip.usdcAta}) ∧
      ∃ txs, composeBundle plainCodec RoundTrip.legs RoundTrip.params none = .ok txs ∧ txs.length = 2 ∧
        observe (txs.flatMap AssembledTx.ixs) {RoundTrip.wsolAta, RoundTrip.usdcAta} =
          observe (undroppedBundle RoundTrip.legs RoundTrip.params none).flatten
            {RoundTrip.wsolAta, RoundTrip.usdcAta} := by
  obtain ⟨hsingle, hbundle⟩ := @dropped_creates_unobserved plainCodec RoundTrip.legs RoundTrip.params none
    {RoundTrip.wsolAta, RoundTrip.usdcAta} (by decide) (by decide)
  constructor
  · have hok : ((composeSingle plainCodec RoundTrip.legs RoundTrip.params).map AssembledTx.ataCreateIxs).toOption =
        some 2 := by decide +kernel
    cases h : composeSingle plainCodec RoundTrip.legs RoundTrip.params with
    | error e =>
      rw [h] at hok
      exact nomatch hok
    | ok tx =>
      rw [h] at hok
      exact ⟨tx, rfl, Option.some.inj hok, hsingle tx h⟩
  · have hok : ((composeBundle plainCodec RoundTrip.legs RoundTrip.params none).map List.length).toOption = some 2 := by
      decide +kernel
    cases h : composeBundle plainCodec RoundTrip.legs RoundTrip.params none with
    | error e =>
      rw [h] at hok
      exact nomatch hok
    | ok txs =>
      rw [h] at hok
      exact ⟨txs, rfl, Option.some.inj hok, hbundle txs h⟩

end Assemble
end MobiusSearcher
