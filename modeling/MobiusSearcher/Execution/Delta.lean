/-
# The simulated balance change

From a simulated transaction to the balance change its opportunity is priced
with: `sol_equivalent_delta` and `wsol_accounts` (`assemble.rs`),
`created_accounts` and `tx_sim` (`simulate.rs`), and the sum `simulate_job`
makes of these and the drift of the inventory (`pipeline.rs`). An account of the
legs that the transaction creates and leaves open is in two of the terms
(`SimJob.twice`); the sum counts every account once exactly where there is none
(`delta_counts_once_iff`).

The simulation itself is the node's: a parameter, what it answers for a
transaction. Class and texts of a failure are left out.

Key definitions: `solEquivalentDelta`, `createdAccounts`, `simulateTxs`,
`SimJob.delta`, `SimJob.worth`, `SimJob.twice`.
Key theorems: `sumDelta_eq_ok`, `delta_eq_ok`, `delta_counts_once_iff`.
-/
import MobiusSearcher.Execution.Dropped
import MobiusSearcher.Strategy.Pricing
import Mathlib.Algebra.BigOperators.Group.Finset.Basic

namespace MobiusSearcher
namespace Assemble

open Machine

/-! ### Balances -/

/-- What the lamports of the accounts that count changed by. -/
def sumDelta (counts : Address → Bool) : List (Address × ℕ × ℕ) → ℤ → Checked ℤ
  | [], d => pure d
  | (k, pre, post) :: rest, d =>
    if counts k then do
      let change ← Checked.int 64 (asI64 post - asI64 pre)
      let d ← Checked.int 64 (d + change)
      sumDelta counts rest d
    else sumDelta counts rest d

/-- SOL-equivalent balance change of the taker: its own lamports and those of the
wrapped SOL accounts. -/
def solEquivalentDelta (keys : List Address) (taker : Address) (wsolAccounts : List Address) (pre post : List ℕ) :
    Checked ℤ :=
  if pre.length ≠ keys.length ∨ post.length ≠ keys.length then Checked.none
  else do
    let d ← sumDelta (fun k => k = taker ∨ k ∈ wsolAccounts) (keys.zip (pre.zip post)) 0
    if taker ∈ keys then pure d else Checked.none

/-- Targets of the legs' creates of wrapped SOL accounts and of their closes. -/
def wsolAccounts (legs : List LegInstructions) : List Address :=
  (legs.flatMap fun leg => (leg.setup ++ leg.after).flatMap fun ix =>
    (if isWsolCreate ix then (ataCreateTarget ix).toList else []) ++ (tokenCloseTarget ix).toList).foldl
    (fun v t => if t ∈ v then v else v ++ [t]) []

/-- Accounts with no lamports before and some after: created and left open. -/
def createdAccounts (keys : List Address) (pre post : List ℕ) : List (Address × ℕ) :=
  ((keys.zip (pre.zip post)).filter fun x => x.2.1 = 0 ∧ 0 < x.2.2).map fun x => (x.1, x.2.2)

/-! ### Simulation -/

/-- What the node answers. -/
structure SimulateOutcome where
  err : Option String
  unitsConsumed : Option ℕ
  preBalances : Option (List ℕ)
  postBalances : Option (List ℕ)
  /-- The output amounts its logs tell. -/
  outputs : List ℕ

/-- A job of the simulator. -/
structure SimJob where
  opp : Opportunity
  legs : List LegInstructions
  plan : PlanKind
  txs : List AssembledTx
  simCuLimit : ℕ
  simCuPrice : ℕ
  simTip : ℕ
  taker : Address

/-- One simulated transaction; its account keys, when known, name the accounts it creates. -/
def txSim (a : AssembledTx) (out : SimulateOutcome) (margin : Ppm) (keys : Option (List Address)) : Checked TxSim := do
  let used := min (out.unitsConsumed.getD 0) (2 ^ 32 - 1)
  let cuLimit ← (if 0 < used then (match cuLimitWithMargin used margin with
    | some limit => pure limit
    | none => Checked.panic) else pure a.cuLimit)
  let created := match keys, out.preBalances, out.postBalances with
    | some k, some pre, some post =>
      if out.err.isNone ∧ k.length = pre.length then createdAccounts k pre post else []
    | _, _, _ => []
  pure { ok := out.err.isNone, unitsConsumed := used, cuLimit, legOutputs := out.outputs, created }

/-- The transactions simulated in order, up to one without an answer. -/
def simulateEach (job : SimJob) (margin : Ppm) (rpc : AssembledTx → Except String SimulateOutcome) :
    List AssembledTx → Checked (List TxSim)
  | [] => pure []
  | a :: rest =>
    match rpc a with
    | .error _ => pure []
    | .ok out => do
      let keys := if job.txs.length = 1 then messageAccountKeys a job.legs else none
      let t ← txSim a out margin keys
      let ts ← simulateEach job margin rpc rest
      pure (t :: ts)

/-- The simulation of a job, and the balances of its only transaction. -/
def simulateTxs (job : SimJob) (margin : Ppm) (rpc : AssembledTx → Except String SimulateOutcome) (now : Ts)
    (contextSlot : Option ℕ) : Checked (SimulationResult × Option (List ℕ × List ℕ)) := do
  let txs ← simulateEach job margin rpc job.txs
  let balances := match job.txs with
    | [a] => match rpc a with
      | .ok out => out.preBalances.bind fun pre => out.postBalances.map fun post => (pre, post)
      | .error _ => none
    | _ => none
  pure
    ({ plan := job.plan
       fidelity := match job.plan with
         | .singleTx => .exact
         | .bundle => .perTx
       ok := txs.length = job.txs.length ∧ ∀ t ∈ txs, t.ok
       txs
       simulatedAt := now
       contextSlot }, balances)

/-- SOL-equivalent change from an exact simulation. -/
def solEquivalent (job : SimJob) (sim : SimulationResult) (balances : Option (List ℕ × List ℕ)) : Checked ℤ :=
  if sim.fidelity ≠ .exact then Checked.none
  else match job.txs with
    | [tx] => do
      let (pre, post) ← Checked.ofOption balances
      let keys ← Checked.ofOption (messageAccountKeys tx job.legs)
      solEquivalentDelta keys job.taker (wsolAccounts job.legs) pre post
    | _ => Checked.none

/-- Rent of the accounts left created. -/
def depositsOf (t : TxSim) : Checked ℕ := t.created.foldlM (fun sum x => Checked.add 64 sum x.2) 0

/-- The drift of the inventory; without an executed output for each leg, the worst case. -/
def driftOf (legs : List Leg) (executed : List ℕ) : Checked ℤ := do
  match ← intermediateDriftValue legs executed with
  | some v => pure v
  | none => do
    let shortfall ← intermediateShortfallValue legs
    Checked.int 64 (-asI64 shortfall)

namespace SimJob

/-- The balance change `simulate_job` hands to the final re-pricing; the costs of
`job.opp` are those of the first one. -/
def delta (job : SimJob) (sim : SimulationResult) (balances : Option (List ℕ × List ℕ)) : Checked ℤ :=
  let exact := if sim.fidelity = .exact then match sim.txs with
    | [t] => some t
    | _ => none
    else none
  match exact with
  | none => do
    let _ ← solEquivalent job sim balances
    Checked.none
  | some t => do
    let deposits ← depositsOf t
    let drift ← driftOf job.opp.legs t.legOutputs
    let d ← solEquivalent job sim balances
    -- the simulated fee and tip are corrected to the final ones
    let simPrio := asI64 (priorityFeeLamports job.simCuLimit job.simCuPrice)
    let sum ← Checked.int 64 (d + drift)
    let sum ← Checked.int 64 (sum + asI64 deposits)
    let sum ← Checked.int 64 (sum + simPrio)
    let sum ← Checked.int 64 (sum - asI64 job.opp.costs.priorityFee)
    let sum ← Checked.int 64 (sum + asI64 job.simTip)
    Checked.int 64 (sum - asI64 job.opp.costs.jitoTip)

end SimJob

/-! ### The sum, over accounts -/

/-- What an account holds, by the balances in the order of the keys. -/
def balance (keys : List Address) (xs : List ℕ) (a : Address) : ℕ := xs.getD (keys.idxOf a) 0

/-- The taker and the wrapped SOL or closed accounts of the legs, among the keys. -/
def SimJob.watched (job : SimJob) (keys : List Address) : Finset Address :=
  keys.toFinset.filter fun a => a = job.taker ∨ a ∈ wsolAccounts job.legs

/-- The accounts created and left open. -/
def leftOpen (keys : List Address) (pre post : List ℕ) : Finset Address :=
  keys.toFinset.filter fun a => balance keys pre a = 0 ∧ 0 < balance keys post a

/-- Those of the first that are of the second too. -/
def SimJob.twice (job : SimJob) (keys : List Address) (pre post : List ℕ) : Finset Address :=
  job.watched keys ∩ leftOpen keys pre post

/-- What the trade changed: every account once, the drift, and the fee and tip that will be
paid for those of the simulation. -/
def SimJob.worth (job : SimJob) (keys : List Address) (pre post : List ℕ) (drift : ℤ) : ℤ :=
  (∑ a ∈ job.watched keys ∪ leftOpen keys pre post, ((balance keys post a : ℤ) - balance keys pre a)) + drift +
    (priorityFeeLamports job.simCuLimit job.simCuPrice - job.opp.costs.priorityFee) +
    (job.simTip - job.opp.costs.jitoTip)

/-- What `as i64` takes off. -/
def lost (x : ℕ) : ℤ := x - asI64 x

/-- What the casts of the sum take off it. -/
def SimJob.castLoss (job : SimJob) (keys : List Address) (pre post : List ℕ) : ℤ :=
  (∑ a ∈ job.watched keys, (lost (balance keys post a) - lost (balance keys pre a))) +
    lost (∑ a ∈ leftOpen keys pre post, balance keys post a) +
    (lost (priorityFeeLamports job.simCuLimit job.simCuPrice) - lost job.opp.costs.priorityFee) +
    (lost job.simTip - lost job.opp.costs.jitoTip)

theorem lost_of_lt {x : ℕ} (h : x < 2 ^ 63) : lost x = 0 := by
  unfold lost asI64
  rw [wrapI64_of_mem (by unfold i64Min; omega) (by unfold i64Max; omega)]
  omega

theorem sumDelta_eq_ok {counts : Address → Bool} : ∀ {l : List (Address × ℕ × ℕ)} {d₀ d : ℤ},
    sumDelta counts l d₀ = .ok d →
    d = d₀ + ((l.filter fun x => counts x.1).map fun x => asI64 x.2.2 - asI64 x.2.1).sum
  | [], d₀, d, h => by
    rw [← Except.ok.inj h]
    exact (add_zero d₀).symm
  | (k, pre, post) :: rest, d₀, d, h => by
    unfold sumDelta at h
    by_cases hk : counts k = true
    · rw [if_pos hk] at h
      obtain ⟨change, hchange, h⟩ := Checked.bind_eq_ok.mp h
      obtain ⟨d₁, hd₁, h⟩ := Checked.bind_eq_ok.mp h
      have hkept : ((k, pre, post) :: rest).filter (fun x => counts x.1) =
          (k, pre, post) :: rest.filter fun x => counts x.1 := List.filter_cons_of_pos hk
      rw [sumDelta_eq_ok h, (Checked.int_eq_ok.mp hd₁).2, (Checked.int_eq_ok.mp hchange).2, hkept, List.map_cons,
        List.sum_cons, add_assoc]
    · rw [if_neg hk] at h
      have hskip : ((k, pre, post) :: rest).filter (fun x => counts x.1) = rest.filter fun x => counts x.1 :=
        List.filter_cons_of_neg hk
      rw [sumDelta_eq_ok h, hskip]

/-- The balances of distinct accounts, in the order of the keys. -/
theorem zip_balances {keys : List Address} {pre post : List ℕ} (hkeys : keys.Nodup) (hpre : pre.length = keys.length)
    (hpost : post.length = keys.length) :
    keys.zip (pre.zip post) = keys.map fun a => (a, balance keys pre a, balance keys post a) := by
  refine List.ext_getElem ?_ fun i h₁ h₂ => ?_
  · rw [List.length_zip, List.length_zip, List.length_map]
    omega
  · have hi : i < keys.length := by
      rw [List.length_map] at h₂
      exact h₂
    have hidx : keys.idxOf keys[i] = i := hkeys.idxOf_getElem i hi
    rw [List.getElem_zip, List.getElem_zip, List.getElem_map]
    unfold balance
    rw [hidx, List.getD_eq_getElem?_getD, List.getD_eq_getElem?_getD, List.getElem?_eq_getElem (by omega),
      List.getElem?_eq_getElem (by omega)]
    rfl

/-- A sum over some of distinct keys is one over the set of them. -/
theorem sum_filter_keys {keys : List Address} (hkeys : keys.Nodup) (P : Address → Prop) [DecidablePred P] (f : Address → ℤ) :
    ((keys.filter fun a => P a).map f).sum = ∑ a ∈ keys.toFinset.filter P, f a := by
  have hset : keys.toFinset.filter P = (keys.filter fun a => P a).toFinset := by
    rw [List.toFinset_filter]
    ext a
    simp only [Finset.mem_filter, decide_eq_true_eq]
  rw [hset, List.sum_toFinset f (hkeys.filter _)]

theorem foldlM_add_eq_ok : ∀ {l : List (Address × ℕ)} {s₀ s : ℕ},
    l.foldlM (fun sum x => Checked.add 64 sum x.2) s₀ = .ok s → s = s₀ + (l.map Prod.snd).sum
  | [], s₀, s, h => by
    rw [← Except.ok.inj h]
    rfl
  | x :: l, s₀, s, h => by
    rw [List.foldlM_cons] at h
    obtain ⟨s₁, hs₁, h⟩ := Checked.bind_eq_ok.mp h
    rw [foldlM_add_eq_ok h, (Checked.add_eq_ok.mp hs₁).2, List.map_cons, List.sum_cons, add_assoc]

/-- What the node says of the only transaction of a job, which succeeds: the job is
simulated exactly. -/
structure SimJob.Simulated (job : SimJob) (rpc : AssembledTx → Except String SimulateOutcome) (out : SimulateOutcome)
    (keys : List Address) (pre post : List ℕ) : Prop where
  plan : job.plan = .singleTx
  tx : ∃ tx, job.txs = [tx] ∧ rpc tx = .ok out ∧ messageAccountKeys tx job.legs = some keys
  distinct : keys.Nodup
  err : out.err = none
  preBalances : out.preBalances = some pre
  postBalances : out.postBalances = some post

/-- The simulation of such a job. -/
theorem simulateTxs_eq_ok {job : SimJob} {margin : Ppm} {rpc : AssembledTx → Except String SimulateOutcome}
    {out : SimulateOutcome} {keys : List Address} {pre post : List ℕ} {now : Ts} {slot : Option ℕ}
    {sim : SimulationResult} {balances : Option (List ℕ × List ℕ)} (h : job.Simulated rpc out keys pre post)
    (hsim : simulateTxs job margin rpc now slot = .ok (sim, balances)) :
    sim.fidelity = .exact ∧ balances = some (pre, post) ∧ ∃ t, sim.txs = [t] ∧ t.legOutputs = out.outputs ∧
      t.created = if keys.length = pre.length then createdAccounts keys pre post else [] := by
  obtain ⟨tx, htxs, hrpc, hkeys⟩ := h.tx
  unfold simulateTxs at hsim
  obtain ⟨ts, hts, hsim⟩ := Checked.bind_eq_ok.mp hsim
  obtain ⟨rfl, rfl⟩ := Prod.mk.inj (Except.ok.inj hsim)
  rw [htxs] at hts
  unfold simulateEach at hts
  rw [hrpc] at hts
  simp only at hts
  obtain ⟨t, ht, hts⟩ := Checked.bind_eq_ok.mp hts
  obtain ⟨rest, hrest, hts⟩ := Checked.bind_eq_ok.mp hts
  obtain rfl := Except.ok.inj hrest
  obtain rfl := Except.ok.inj hts
  rw [htxs, if_pos (show [tx].length = 1 from rfl), hkeys] at ht
  unfold txSim at ht
  obtain ⟨limit, -, ht⟩ := Checked.bind_eq_ok.mp ht
  obtain rfl := Except.ok.inj ht
  refine ⟨?_, ?_, _, rfl, rfl, ?_⟩
  · simp only [h.plan]
  · simp only [htxs, hrpc, h.preBalances, h.postBalances]
    rfl
  · simp only [h.preBalances, h.postBalances, h.err, Option.isNone_none, true_and]

theorem solEquivalentDelta_eq_ok {keys : List Address} {taker : Address} {accounts : List Address} {pre post : List ℕ}
    {d : ℤ} (hkeys : keys.Nodup) (h : solEquivalentDelta keys taker accounts pre post = .ok d) :
    pre.length = keys.length ∧ post.length = keys.length ∧
      d = ∑ a ∈ keys.toFinset.filter (fun a => a = taker ∨ a ∈ accounts),
        (asI64 (balance keys post a) - asI64 (balance keys pre a)) := by
  unfold solEquivalentDelta at h
  by_cases hlen : pre.length ≠ keys.length ∨ post.length ≠ keys.length
  · rw [if_pos hlen] at h
    exact absurd h Checked.none_ne_ok
  rw [if_neg hlen] at h
  rw [not_or, not_not, not_not] at hlen
  obtain ⟨d', hd, h⟩ := Checked.bind_eq_ok.mp h
  by_cases htaker : taker ∈ keys
  · rw [if_pos htaker] at h
    obtain rfl := Except.ok.inj h
    refine ⟨hlen.1, hlen.2, ?_⟩
    rw [sumDelta_eq_ok hd, zero_add, zip_balances hkeys hlen.1 hlen.2, List.filter_map, List.map_map,
      ← sum_filter_keys hkeys]
    rfl
  · rw [if_neg htaker] at h
    exact absurd h Checked.none_ne_ok

/-- The deposits are what the accounts left open hold. -/
theorem created_sum {keys : List Address} {pre post : List ℕ} (hkeys : keys.Nodup) (hpre : pre.length = keys.length)
    (hpost : post.length = keys.length) :
    (((createdAccounts keys pre post).map Prod.snd).sum : ℤ) = ∑ a ∈ leftOpen keys pre post, (balance keys post a : ℤ) := by
  unfold createdAccounts leftOpen
  rw [zip_balances hkeys hpre hpost, ← sum_filter_keys hkeys, List.filter_map, List.map_map, List.map_map,
    Nat.cast_list_sum, List.map_map]
  rfl

/-- The sum, term by term. -/
theorem delta_eq_ok {job : SimJob} {margin : Ppm} {rpc : AssembledTx → Except String SimulateOutcome}
    {out : SimulateOutcome} {keys : List Address} {pre post : List ℕ} {now : Ts} {slot : Option ℕ}
    {sim : SimulationResult} {balances : Option (List ℕ × List ℕ)} {d : ℤ} (h : job.Simulated rpc out keys pre post)
    (hsim : simulateTxs job margin rpc now slot = .ok (sim, balances)) (hd : job.delta sim balances = .ok d) :
    ∃ drift, driftOf job.opp.legs out.outputs = .ok drift ∧
      d = (∑ a ∈ job.watched keys, (asI64 (balance keys post a) - asI64 (balance keys pre a))) + drift +
        asI64 (∑ a ∈ leftOpen keys pre post, balance keys post a) +
        asI64 (priorityFeeLamports job.simCuLimit job.simCuPrice) - asI64 job.opp.costs.priorityFee +
        asI64 job.simTip - asI64 job.opp.costs.jitoTip := by
  obtain ⟨hexact, rfl, t, htxs, houtputs, hcreated⟩ := simulateTxs_eq_ok h hsim
  obtain ⟨tx, hjob, -, hkeys⟩ := h.tx
  unfold SimJob.delta at hd
  simp only [hexact, htxs, if_true] at hd
  obtain ⟨deposits, hdeposits, hd⟩ := Checked.bind_eq_ok.mp hd
  obtain ⟨drift, hdrift, hd⟩ := Checked.bind_eq_ok.mp hd
  obtain ⟨change, hchange, hd⟩ := Checked.bind_eq_ok.mp hd
  obtain ⟨s₁, hs₁, hd⟩ := Checked.bind_eq_ok.mp hd
  obtain ⟨s₂, hs₂, hd⟩ := Checked.bind_eq_ok.mp hd
  obtain ⟨s₃, hs₃, hd⟩ := Checked.bind_eq_ok.mp hd
  obtain ⟨s₄, hs₄, hd⟩ := Checked.bind_eq_ok.mp hd
  obtain ⟨s₅, hs₅, hd⟩ := Checked.bind_eq_ok.mp hd
  -- the balances
  unfold solEquivalent at hchange
  rw [if_neg (not_not.mpr hexact), hjob] at hchange
  simp only [hkeys, Checked.ofOption, Checked.ok_bind] at hchange
  obtain ⟨hpre, hpost, hsum⟩ := solEquivalentDelta_eq_ok h.distinct hchange
  -- the deposits
  have hopen : deposits = ∑ a ∈ leftOpen keys pre post, balance keys post a := by
    have hcast := created_sum h.distinct hpre hpost
    rw [if_pos hpre.symm] at hcreated
    unfold depositsOf at hdeposits
    rw [foldlM_add_eq_ok hdeposits, hcreated, zero_add]
    exact_mod_cast hcast
  rw [houtputs] at hdrift
  refine ⟨drift, hdrift, ?_⟩
  unfold SimJob.watched
  rw [(Checked.int_eq_ok.mp hd).2, (Checked.int_eq_ok.mp hs₅).2, (Checked.int_eq_ok.mp hs₄).2,
    (Checked.int_eq_ok.mp hs₃).2, (Checked.int_eq_ok.mp hs₂).2, (Checked.int_eq_ok.mp hs₁).2, hsum, hopen]

/-- The sum is off by what is counted twice, less what the casts take off. -/
theorem delta_worth {job : SimJob} {keys : List Address} {pre post : List ℕ} {drift : ℤ} :
    (∑ a ∈ job.watched keys, (asI64 (balance keys post a) - asI64 (balance keys pre a))) + drift +
        asI64 (∑ a ∈ leftOpen keys pre post, balance keys post a) +
        asI64 (priorityFeeLamports job.simCuLimit job.simCuPrice) - asI64 job.opp.costs.priorityFee +
        asI64 job.simTip - asI64 job.opp.costs.jitoTip =
      job.worth keys pre post drift + (∑ a ∈ job.twice keys pre post, (balance keys post a : ℤ)) -
        job.castLoss keys pre post := by
  have hnew : ∀ a ∈ leftOpen keys pre post, balance keys pre a = 0 := fun a ha => (Finset.mem_filter.mp ha).2.1
  have hunion := @Finset.sum_union_inter _ _ (job.watched keys) (leftOpen keys pre post) _
    (fun a => (balance keys post a : ℤ) - balance keys pre a) _
  have hleft : ∑ a ∈ leftOpen keys pre post, ((balance keys post a : ℤ) - balance keys pre a) =
      ((∑ a ∈ leftOpen keys pre post, balance keys post a : ℕ) : ℤ) := by
    rw [Nat.cast_sum]
    refine Finset.sum_congr rfl fun a ha => ?_
    rw [hnew a ha, Nat.cast_zero, sub_zero]
  have htwice : ∑ a ∈ job.watched keys ∩ leftOpen keys pre post, ((balance keys post a : ℤ) - balance keys pre a) =
      ∑ a ∈ job.twice keys pre post, (balance keys post a : ℤ) := by
    refine Finset.sum_congr rfl fun a ha => ?_
    rw [hnew a (Finset.mem_inter.mp ha).2, Nat.cast_zero, sub_zero]
  have hwatched : ∑ a ∈ job.watched keys, (asI64 (balance keys post a) - asI64 (balance keys pre a)) =
      (∑ a ∈ job.watched keys, ((balance keys post a : ℤ) - balance keys pre a)) -
        ∑ a ∈ job.watched keys, (lost (balance keys post a) - lost (balance keys pre a)) := by
    rw [← Finset.sum_sub_distrib]
    refine Finset.sum_congr rfl fun a _ => ?_
    unfold lost
    ring
  rw [hleft, htwice] at hunion
  unfold SimJob.worth SimJob.castLoss
  rw [hwatched]
  unfold lost
  linarith

/-- **The simulated change counts every account once exactly if the lamports of the
accounts counted twice are what the casts take off**; of amounts that an `i64` holds,
exactly if no account of the taker and the legs is also created and left open. -/
theorem delta_counts_once_iff {job : SimJob} {margin : Ppm} {rpc : AssembledTx → Except String SimulateOutcome}
    {out : SimulateOutcome} {keys : List Address} {pre post : List ℕ} {now : Ts} {slot : Option ℕ}
    {sim : SimulationResult} {balances : Option (List ℕ × List ℕ)} {d : ℤ} (h : job.Simulated rpc out keys pre post)
    (hsim : simulateTxs job margin rpc now slot = .ok (sim, balances)) (hd : job.delta sim balances = .ok d) :
    ∃ drift, driftOf job.opp.legs out.outputs = .ok drift ∧
      (d = job.worth keys pre post drift ↔
        ∑ a ∈ job.twice keys pre post, (balance keys post a : ℤ) = job.castLoss keys pre post) ∧
      ((∀ a ∈ job.watched keys, balance keys pre a < 2 ^ 63 ∧ balance keys post a < 2 ^ 63) →
        ∑ a ∈ leftOpen keys pre post, balance keys post a < 2 ^ 63 →
        priorityFeeLamports job.simCuLimit job.simCuPrice < 2 ^ 63 → job.opp.costs.priorityFee < 2 ^ 63 →
        job.simTip < 2 ^ 63 → job.opp.costs.jitoTip < 2 ^ 63 →
        (d = job.worth keys pre post drift ↔ job.twice keys pre post = ∅)) := by
  obtain ⟨drift, hdrift, heq⟩ := delta_eq_ok h hsim hd
  rw [delta_worth] at heq
  have hiff : d = job.worth keys pre post drift ↔
      ∑ a ∈ job.twice keys pre post, (balance keys post a : ℤ) = job.castLoss keys pre post := by
    rw [heq]
    constructor
    · intro hw
      linarith
    · intro hs
      linarith
  refine ⟨drift, hdrift, hiff, fun hbalances hopen hsimPrio hprio hsimTip htip => ?_⟩
  have hcasts : job.castLoss keys pre post = 0 := by
    unfold SimJob.castLoss
    rw [lost_of_lt hopen, lost_of_lt hsimPrio, lost_of_lt hprio, lost_of_lt hsimTip, lost_of_lt htip,
      Finset.sum_eq_zero fun a ha => by rw [lost_of_lt (hbalances a ha).1, lost_of_lt (hbalances a ha).2, sub_zero]]
    rfl
  rw [hiff, hcasts, Finset.sum_eq_zero_iff_of_nonneg fun a _ => Int.natCast_nonneg _]
  constructor
  · intro hzero
    refine Finset.eq_empty_of_forall_notMem fun a ha => ?_
    have hpos := (Finset.mem_filter.mp (Finset.mem_inter.mp ha).2).2.2
    have hz := hzero a ha
    omega
  · intro hempty a ha
    rw [hempty] at ha
    exact absurd ha (Finset.notMem_empty a)

/-! ### A leg that keeps its wrapped SOL -/

namespace RoundTrip

/-- A job of one leg, for a taker without token accounts. -/
def job (leg : LegInstructions) : SimJob where
  opp :=
    { id := ⟨1⟩, input := 1000000000, grossOutput := 1000100000, legs := [], updatedAt := ⟨0⟩, solPrice := none
      costs :=
        { source := .simulated, txCount := 1, signatures := 1, baseFee := 5000, computeUnitsLimit := 200000
          computeUnitsUsed := some 180000, computeUnitPriceMicro := 2719, priorityFee := 544, jitoTip := 10000, ataRent := 0
          atasCreated := 1, expectedSlippage := 0, safetyBuffer := 0, platformFee := 0 }
      eval :=
        { grossPnl := 100000, expectedNet := 84456, grossEdge := ⟨100⟩, netEdge := ⟨84⟩, grossUsd := none
          expectedNetUsd := none, simulatedNet := none }
      status := .quoted, simulation := none, risk := none, guard := none }
  legs := [leg]
  plan := .singleTx
  txs := (composeSingle plainCodec [leg] { params with existingAtas := ∅ }).toOption.toList
  simCuLimit := 1400000
  simCuPrice := 2719
  simTip := 10000
  taker := payer

/-- The message's accounts: the payer and both token accounts come first. -/
def keys (leg : LegInstructions) : List Address :=
  ((job leg).txs.head?.bind fun tx => messageAccountKeys tx [leg]).getD []

def balancesBefore (leg : LegInstructions) : List ℕ :=
  (keys leg).map fun a => if a = payer then 10000000 else if a = wsolAta then 0 else 1

/-- The payer ends with `left`, the wrapped SOL account, which was not there, with `wrapped`. -/
def balancesAfter (leg : LegInstructions) (left wrapped : ℕ) : List ℕ :=
  (keys leg).map fun a => if a = payer then left else if a = wsolAta then wrapped else 1

def outcome (leg : LegInstructions) (left wrapped : ℕ) : SimulateOutcome where
  err := none
  unitsConsumed := some 180000
  preBalances := some (balancesBefore leg)
  postBalances := some (balancesAfter leg left wrapped)
  outputs := []

def keeps : LegInstructions := ⟨[create wsolAta wsolMint], swap, none, [], []⟩

def unwraps : LegInstructions := ⟨[create wsolAta wsolMint], swap, some (close wsolAta), [], []⟩

/-- The simulation of a job, and its balance change. -/
def simulated (leg : LegInstructions) (left wrapped : ℕ) : Checked (SimulationResult × Option (List ℕ × List ℕ)) :=
  simulateTxs (job leg) ⟨100000⟩ (fun _ => .ok (outcome leg left wrapped)) ⟨0⟩ none

theorem job_simulated {leg : LegInstructions} {left wrapped : ℕ}
    (htx : ((job leg).txs.map fun tx => messageAccountKeys tx [leg]) = [some (keys leg)]) (hkeys : (keys leg).Nodup) :
    (job leg).Simulated (fun _ => .ok (outcome leg left wrapped)) (outcome leg left wrapped) (keys leg)
      (balancesBefore leg) (balancesAfter leg left wrapped) where
  plan := rfl
  tx := by
    obtain ⟨tx, htxs, hmessage⟩ := List.map_eq_singleton_iff.mp htx
    exact ⟨tx, htxs, rfl, hmessage⟩
  distinct := hkeys
  err := rfl
  preBalances := rfl
  postBalances := rfl

end RoundTrip

open RoundTrip in
/-- Unwrapped again, the account is in neither sum: the trade paid the fee and saved some priority fee. -/
theorem unwrapped_counts_once : ∃ sim balances, simulated unwraps 9995000 0 = .ok (sim, balances) ∧
    ∃ d, (job unwraps).delta sim balances = .ok d ∧ ∃ drift, driftOf [] [] = .ok drift ∧
      d = (job unwraps).worth (keys unwraps) (balancesBefore unwraps) (balancesAfter unwraps 9995000 0) drift := by
  have hok : (simulated unwraps 9995000 0 >>= fun r => (job unwraps).delta r.1 r.2) = .ok (-1737) := by decide +kernel
  obtain ⟨⟨sim, balances⟩, hsim, hd⟩ := Checked.bind_eq_ok.mp hok
  obtain ⟨drift, hdrift, hiff, -⟩ := delta_counts_once_iff (job_simulated (by decide +kernel) (by decide +kernel)) hsim hd
  exact ⟨sim, balances, hsim, -1737, hd, drift, hdrift, hiff.mpr (by decide +kernel)⟩

open RoundTrip in
/-- Left open, the account is in both: a trade that lost 1,737 lamports is priced as one that made 2,037,543. -/
theorem wrapped_counts_twice : (job keeps).Simulated (fun _ => .ok (outcome keeps 7955720 2039280))
      (outcome keeps 7955720 2039280) (keys keeps) (balancesBefore keeps) (balancesAfter keeps 7955720 2039280) ∧
    ∃ sim balances, simulated keeps 7955720 2039280 = .ok (sim, balances) ∧
      (job keeps).delta sim balances = .ok 2037543 ∧ driftOf [] [] = .ok 0 ∧
      (job keeps).worth (keys keeps) (balancesBefore keeps) (balancesAfter keeps 7955720 2039280) 0 = -1737 := by
  refine ⟨job_simulated (by decide +kernel) (by decide +kernel), ?_⟩
  have hok : (simulated keeps 7955720 2039280 >>= fun r => (job keeps).delta r.1 r.2) = .ok 2037543 := by decide +kernel
  obtain ⟨⟨sim, balances⟩, hsim, hd⟩ := Checked.bind_eq_ok.mp hok
  exact ⟨sim, balances, hsim, hd, by decide +kernel, by decide +kernel⟩

end Assemble
end MobiusSearcher
