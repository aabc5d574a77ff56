/-
# Live execution

`crates/execution/src/live.rs`: `execute_live`, from the blockhash check to the
outcome. An async function is a state machine over its awaits, and this is
that machine: `Await` says what it waits for and which locals it will still
read, an `Event` is one call of the backend with the answer it got (any answer,
at any time), and `step` is the code from one answer to the next call. The
sleeps between two polls bring nothing and are left out.

A `sendBundle` event carries what the caller cannot see: whether the block
engine took the bundle.

Key definitions: `Await`, `Event`, `step`, `Reports`, `Told`.
Key theorems: `knows_step`, `reports_iff`.
-/
import MobiusSearcher.Core.Units
import MobiusSearcher.Lib.Run

namespace MobiusSearcher
namespace Live

open Machine

/-- What a simulation says; only its error, as text, is read. -/
structure SimulateOutcome where
  err : Option String
  deriving DecidableEq, Repr

inductive InflightStatus
  | invalid
  | pending
  | failed
  | landed (slot : ℕ)
  deriving DecidableEq, Repr

/-- `(confirmation_status, transaction error)`, once the bundle is visible. -/
abbrev BundleConfirmation := Option (Option String × Option String)

structure LiveParams where
  minWalletLamports : ℕ
  /-- Blocks of headroom required before `last_valid_block_height`. -/
  blockhashMargin : ℕ
  /-- In nanoseconds. -/
  timeout : ℕ
  deriving DecidableEq, Repr

inductive LiveOutcome
  /-- Nothing was sent. -/
  | notSent (reason : String)
  | landed (bundleId : String) (slot : ℕ) (signatures : List String) (realizedLamports : Option ℤ)
      (latencyMs : ℕ)
  | failed (bundleId reason : String) (latencyMs : ℕ)
  | timedOut (bundleId : String)
  deriving DecidableEq, Repr

/-- The bundle an outcome is about. -/
def LiveOutcome.bundleId : LiveOutcome → Option String
  | .notSent _ => none
  | .landed id .. => some id
  | .failed id .. => some id
  | .timedOut id => some id

variable {τ ω : Type*}

/-- The signer and the serializer of transactions `τ` into wire bytes `ω`. -/
structure Signer (τ ω : Type*) where
  sign : τ → Except String τ
  firstSignature : τ → Option String
  reserialize : τ → Except String ω

/-- Sign and serialize each transaction in turn. -/
def Signer.signAll (w : Signer τ ω) : List τ → Except String (List ω × List String)
  | [] => .ok ([], [])
  | t :: ts =>
    match w.sign t with
    | .error e => .error s!"sign: {e}"
    | .ok t =>
      match w.reserialize t with
      | .error e => .error s!"serialize: {e}"
      | .ok b =>
        match w.signAll ts with
        | .error e => .error e
        | .ok (wire, sigs) => .ok (b :: wire, (w.firstSignature t).getD "" :: sigs)

/-- What the polling reads of what came before. -/
structure Sent where
  id : String
  pre : ℕ
  sigs : List String

/-- What the execution waits for. -/
inductive Await (ω : Type*)
  | height
  | simulation (tx : ω) (sigs : List String)
  | balance (tx : ω) (sigs : List String)
  | send (tx : ω) (sigs : List String) (pre : ℕ)
  /-- The clock, before the next poll. -/
  | clock (s : Sent)
  | inflight (s : Sent)
  | bundleStatus (s : Sent) (slot : ℕ)
  /-- The clock, between two bundle statuses. -/
  | landedClock (s : Sent) (slot : ℕ)
  | postBalance (s : Sent) (slot : ℕ)
  | landedLatency (s : Sent) (slot : ℕ) (realized : Option ℤ)
  | failedLatency (id reason : String)
  | done (o : LiveOutcome)

/-- A call of the backend, or a clock reading, with its answer. -/
inductive Event (ω : Type*)
  | blockHeight (h : Option ℕ)
  | simulateSigned (tx : ω) (r : Except String SimulateOutcome)
  | balance (r : Except String ℕ)
  | sendBundle (txs : List ω) (r : Except String String) (accepted : Bool)
  /-- `started.elapsed()`, in nanoseconds. -/
  | elapsed (ns : ℕ)
  | inflight (id : String) (r : Except String (Option InflightStatus))
  | bundleStatus (id : String) (r : Except String BundleConfirmation)

/-- The blockhash has headroom: the sum is a `u64`'s. -/
def headroom (p : LiveParams) (lastValid h : ℕ) : Bool := wrapU64 (h + p.blockhashMargin) < lastValid

/-- From the block height to the final simulation of the exact signed bytes. -/
def afterHeight (w : Signer τ ω) (p : LiveParams) (txs : List τ) (lastValid : ℕ) : Option ℕ → Await ω
  | none => .done (.notSent "block height unknown")
  | some h =>
    if headroom p lastValid h then
      match w.signAll txs with
      | .error e => .done (.notSent e)
      | .ok ([tx], sigs) => .simulation tx sigs
      | .ok _ => .done (.notSent "multi-tx bundles cannot be exactly pre-simulated on standard RPC")
    else .done (.notSent s!"blockhash expiring: height {h} vs last valid {lastValid}")

def afterSimulation (tx : ω) (sigs : List String) : Except String SimulateOutcome → Await ω
  | .ok ⟨none⟩ => .balance tx sigs
  | .ok ⟨some err⟩ => .done (.notSent s!"final simulation failed: {err}")
  | .error e => .done (.notSent s!"final simulation unavailable: {e}")

def afterBalance (p : LiveParams) (tx : ω) (sigs : List String) : Except String ℕ → Await ω
  | .ok b =>
    if p.minWalletLamports ≤ b then .send tx sigs b
    else .done (.notSent s!"wallet {b} lamports < minimum {p.minWalletLamports}")
  | .error e => .done (.notSent s!"wallet balance unknown: {e}")

def afterSend (sigs : List String) (pre : ℕ) : Except String String → Await ω
  | .ok id => .clock ⟨id, pre, sigs⟩
  | .error e => .done (.notSent s!"sendBundle rejected: {e}")

/-- `Invalid` right after a submit can mean "not propagated yet": anything but
`Landed` and `Failed` keeps polling. -/
def afterInflight (s : Sent) : Except String (Option InflightStatus) → Await ω
  | .ok (some (.landed slot)) => .bundleStatus s slot
  | .ok (some .failed) => .failedLatency s.id "block engine reported Failed"
  | _ => .clock s

/-- `Landed` must also be confirmed with no transaction error. -/
def afterBundleStatus (s : Sent) (slot : ℕ) : Except String BundleConfirmation → Await ω
  | .ok (some (_, some err)) => .failedLatency s.id s!"landed with error: {err}"
  | .ok (some (some c, none)) => if c = "confirmed" ∨ c = "finalized" then .postBalance s slot
    else .landedClock s slot
  | _ => .landedClock s slot

/-- `post.map(|b| b as i64 - pre as i64)`. -/
def realized (pre : ℕ) : Except String ℕ → Option ℤ
  | .ok b => some (wrapI64 (wrapI64 b - wrapI64 pre))
  | .error _ => none

/-- `as_millis() as u32`. -/
def millis (ns : ℕ) : ℕ := wrapU32 (ns / 1000000)

/-- From an answer to the next call; `none` when the event answers another call. -/
def step [DecidableEq ω] (w : Signer τ ω) (p : LiveParams) (txs : List τ) (lastValid : ℕ) :
    Await ω → Event ω → Option (Await ω)
  | .height, .blockHeight h => some (afterHeight w p txs lastValid h)
  | .simulation tx sigs, .simulateSigned tx' r => if tx' = tx then some (afterSimulation tx sigs r) else none
  | .balance tx sigs, .balance r => some (afterBalance p tx sigs r)
  | .send tx sigs pre, .sendBundle txs r _ => if txs = [tx] then some (afterSend sigs pre r) else none
  | .clock s, .elapsed ns => some (if p.timeout < ns then .done (.timedOut s.id) else .inflight s)
  | .inflight s, .inflight id r => if id = s.id then some (afterInflight s r) else none
  | .bundleStatus s slot, .bundleStatus id r => if id = s.id then some (afterBundleStatus s slot r) else none
  | .landedClock s slot, .elapsed ns =>
    some (if p.timeout < ns then .done (.timedOut s.id) else .bundleStatus s slot)
  | .postBalance s slot, .balance r => some (.landedLatency s slot (realized s.pre r))
  | .landedLatency s slot realized, .elapsed ns =>
    some (.done (.landed s.id slot s.sigs realized (millis ns)))
  | .failedLatency id reason, .elapsed ns => some (.done (.failed id reason (millis ns)))
  | _, _ => none

/-- The execution of `txs` after the calls `es`. -/
def Reaches [DecidableEq ω] (w : Signer τ ω) (p : LiveParams) (txs : List τ) (lastValid : ℕ)
    (es : List (Event ω)) (a : Await ω) : Prop :=
  Run (fun a e b => step w p txs lastValid a e = some b) .height es a

/-! ### What an execution may report -/

/-- The calls that send a bundle. -/
def sends (es : List (Event ω)) : List (Event ω) :=
  es.filter fun e => match e with
    | .sendBundle .. => true
    | _ => false

/-- The block engine took a bundle. -/
def Accepted (es : List (Event ω)) : Prop := ∃ txs r, .sendBundle txs r true ∈ es

/-- What must be known before `txs` is sent. -/
structure Sendable (p : LiveParams) (lastValid : ℕ) (es : List (Event ω)) (txs : List ω) : Prop where
  simulated : ∃ tx, txs = [tx] ∧ .simulateSigned tx (.ok ⟨none⟩) ∈ es
  height : ∃ h, .blockHeight (some h) ∈ es ∧ h + p.blockhashMargin < lastValid
  balance : ∃ b, .balance (.ok b) ∈ es ∧ p.minWalletLamports ≤ b

/-- The bundle's inflight status said Landed, and then its bundle status said `c`. -/
def LandedWith (id : String) (slot : ℕ) (c : Option String × Option String) (es : List (Event ω)) : Prop :=
  ∃ es₁ es₂, es = es₁ ++ .inflight id (.ok (some (.landed slot))) :: es₂ ∧ .bundleStatus id (.ok (some c)) ∈ es₂

def Confirmed (id : String) (slot : ℕ) (es : List (Event ω)) : Prop :=
  ∃ c, (c = "confirmed" ∨ c = "finalized") ∧ LandedWith id slot (some c, none) es

def KnownFailed (id : String) (es : List (Event ω)) : Prop :=
  .inflight id (.ok (some .failed)) ∈ es ∨ ∃ slot c err, LandedWith id slot (c, some err) es

/-- What an execution that has made the calls `es` and waits at `a` may have
done and reported. -/
structure Reports (p : LiveParams) (lastValid : ℕ) (es : List (Event ω)) (a : Await ω) : Prop where
  once : (sends es).length ≤ 1
  sendable : ∀ es₁ txs r acc es₂, es = es₁ ++ .sendBundle txs r acc :: es₂ → Sendable p lastValid es₁ txs
  bundle : ∀ o id, a = .done o → o.bundleId = some id → ∃ txs acc, .sendBundle txs (.ok id) acc ∈ es
  landed : ∀ id slot sigs realized ms, a = .done (.landed id slot sigs realized ms) → Confirmed id slot es
  failed : ∀ id reason ms, a = .done (.failed id reason ms) → KnownFailed id es
  notSent : ∀ reason, a = .done (.notSent reason) → ¬ Accepted es
  unknown : ∀ o, a = .done o → Accepted es → (∀ id slot, ¬ Confirmed id slot es) → (∀ id, ¬ KnownFailed id es) →
    ∃ id, o = .timedOut id

/-- The backend told the execution what it needs: an error of `sendBundle`
means the bundle was refused, and the headroom of a bundle that is sent was
computed without overflow. -/
structure Told (p : LiveParams) (es : List (Event ω)) : Prop where
  refused : ∀ txs e, .sendBundle txs (.error e) true ∉ es
  headroom : sends es ≠ [] → ∀ h, .blockHeight (some h) ∈ es → h + p.blockhashMargin < 2 ^ 64

/-! ### Lists with one send -/

@[simp] theorem sends_append (es fs : List (Event ω)) : sends (es ++ fs) = sends es ++ sends fs := by
  simp [sends]

/-- The event sends a bundle. -/
def IsSend (e : Event ω) : Prop := ∃ txs r acc, e = .sendBundle txs r acc

theorem sends_single {e : Event ω} (h : ¬ IsSend e) : sends [e] = [] := by
  cases e <;> first | rfl | exact absurd ⟨_, _, _, rfl⟩ h

theorem sends_cons_send (txs : List ω) (r : Except String String) (acc : Bool) (es : List (Event ω)) :
    sends (.sendBundle txs r acc :: es) = .sendBundle txs r acc :: sends es := rfl

theorem mem_sends {es : List (Event ω)} {txs : List ω} {r : Except String String} {acc : Bool}
    (h : .sendBundle txs r acc ∈ es) : .sendBundle txs r acc ∈ sends es :=
  List.mem_filter.mpr ⟨h, rfl⟩

/-- The bundle was sent once, for good reasons, and answered with `r`. -/
def SentWith (p : LiveParams) (lastValid : ℕ) (r : Except String String) (es : List (Event ω)) : Prop :=
  ∃ es₁ tx acc es₂, es = es₁ ++ .sendBundle [tx] r acc :: es₂ ∧ sends es₁ = [] ∧ sends es₂ = [] ∧
    .simulateSigned tx (.ok ⟨none⟩) ∈ es₁ ∧ (∃ h, .blockHeight (some h) ∈ es₁ ∧ headroom p lastValid h = true) ∧
    ∃ b, .balance (.ok b) ∈ es₁ ∧ p.minWalletLamports ≤ b

theorem SentWith.snoc {p : LiveParams} {lastValid : ℕ} {r : Except String String} {es : List (Event ω)}
    {e : Event ω} (h : SentWith p lastValid r es) (he : ¬ IsSend e) : SentWith p lastValid r (es ++ [e]) := by
  obtain ⟨es₁, tx, acc, es₂, rfl, h1, h2, h3⟩ := h
  exact ⟨es₁, tx, acc, es₂ ++ [e], by simp, h1, by rw [sends_append, h2, sends_single he]; rfl, h3⟩

theorem LandedWith.snoc {id : String} {slot : ℕ} {c : Option String × Option String} {es : List (Event ω)}
    (e : Event ω) (h : LandedWith id slot c es) : LandedWith id slot c (es ++ [e]) := by
  obtain ⟨es₁, es₂, rfl, h⟩ := h
  exact ⟨es₁, es₂ ++ [e], by simp, List.mem_append_left _ h⟩

/-- The inflight status was there before this bundle status. -/
theorem landedWith_of_mem {id : String} {slot : ℕ} {c : Option String × Option String} {es : List (Event ω)}
    (h : .inflight id (.ok (some (.landed slot))) ∈ es) :
    LandedWith id slot c (es ++ [.bundleStatus id (.ok (some c))]) := by
  obtain ⟨es₁, es₂, rfl⟩ := List.append_of_mem h
  exact ⟨es₁, es₂ ++ [.bundleStatus id (.ok (some c))], by simp, by simp⟩

theorem Confirmed.snoc {id : String} {slot : ℕ} {es : List (Event ω)} (e : Event ω)
    (h : Confirmed id slot es) : Confirmed id slot (es ++ [e]) := by
  obtain ⟨c, hc, h⟩ := h
  exact ⟨c, hc, h.snoc e⟩

theorem KnownFailed.snoc {id : String} {es : List (Event ω)} (e : Event ω) (h : KnownFailed id es) :
    KnownFailed id (es ++ [e]) := by
  rcases h with h | ⟨slot, c, err, h⟩
  · exact Or.inl (List.mem_append_left _ h)
  · exact Or.inr ⟨slot, c, err, h.snoc e⟩

/-! ### The invariant -/

/-- What is known while the execution waits. -/
def Knows (p : LiveParams) (lastValid : ℕ) (es : List (Event ω)) : Await ω → Prop
  | .height => es = []
  | .simulation _ _ => sends es = [] ∧ ∃ h, .blockHeight (some h) ∈ es ∧ headroom p lastValid h = true
  | .balance tx _ => sends es = [] ∧ (∃ h, .blockHeight (some h) ∈ es ∧ headroom p lastValid h = true) ∧
      .simulateSigned tx (.ok ⟨none⟩) ∈ es
  | .send tx _ _ => sends es = [] ∧ (∃ h, .blockHeight (some h) ∈ es ∧ headroom p lastValid h = true) ∧
      .simulateSigned tx (.ok ⟨none⟩) ∈ es ∧ ∃ b, .balance (.ok b) ∈ es ∧ p.minWalletLamports ≤ b
  | .clock s => SentWith p lastValid (.ok s.id) es
  | .inflight s => SentWith p lastValid (.ok s.id) es
  | .bundleStatus s slot => SentWith p lastValid (.ok s.id) es ∧ .inflight s.id (.ok (some (.landed slot))) ∈ es
  | .landedClock s slot => SentWith p lastValid (.ok s.id) es ∧ .inflight s.id (.ok (some (.landed slot))) ∈ es
  | .postBalance s slot => SentWith p lastValid (.ok s.id) es ∧ Confirmed s.id slot es
  | .landedLatency s slot _ => SentWith p lastValid (.ok s.id) es ∧ Confirmed s.id slot es
  | .failedLatency id _ => SentWith p lastValid (.ok id) es ∧ KnownFailed id es
  | .done (.notSent _) => sends es = [] ∨ ∃ e, SentWith p lastValid (.error e) es
  | .done (.landed id slot _ _ _) => SentWith p lastValid (.ok id) es ∧ Confirmed id slot es
  | .done (.failed id _ _) => SentWith p lastValid (.ok id) es ∧ KnownFailed id es
  | .done (.timedOut id) => SentWith p lastValid (.ok id) es

section Step

variable {p : LiveParams} {lastValid : ℕ} {es : List (Event ω)}

theorem knows_afterHeight {w : Signer τ ω} {txs : List τ} {h : Option ℕ} :
    Knows p lastValid [.blockHeight h] (afterHeight w p txs lastValid h) := by
  cases h with
  | none => exact Or.inl rfl
  | some h =>
    by_cases hh : headroom p lastValid h = true
    · simp only [afterHeight, if_pos hh]
      split
      · exact Or.inl rfl
      · exact ⟨rfl, h, by simp, hh⟩
      · exact Or.inl rfl
    · simp only [afterHeight, if_neg hh]
      exact Or.inl rfl

theorem knows_afterSimulation {tx : ω} {sigs : List String} {r : Except String SimulateOutcome}
    (hk : Knows p lastValid es (.simulation tx sigs)) :
    Knows p lastValid (es ++ [.simulateSigned tx r]) (afterSimulation tx sigs r) := by
  obtain ⟨h0, h, hm, hh⟩ := hk
  have h0' : sends (es ++ [Event.simulateSigned tx r]) = [] := by rw [sends_append, h0]; rfl
  rcases r with e | ⟨_ | err⟩
  · exact Or.inl h0'
  · exact ⟨h0', ⟨h, List.mem_append_left _ hm, hh⟩, by simp⟩
  · exact Or.inl h0'

theorem knows_afterBalance {tx : ω} {sigs : List String} {r : Except String ℕ}
    (hk : Knows p lastValid es (.balance tx sigs)) :
    Knows p lastValid (es ++ [.balance r]) (afterBalance p tx sigs r) := by
  obtain ⟨h0, ⟨h, hm, hh⟩, hs⟩ := hk
  have h0' : sends (es ++ [Event.balance r]) = [] := by rw [sends_append, h0]; rfl
  cases r with
  | error e => exact Or.inl h0'
  | ok b =>
    by_cases hb : p.minWalletLamports ≤ b
    · rw [afterBalance, if_pos hb]
      exact ⟨h0', ⟨h, List.mem_append_left _ hm, hh⟩, List.mem_append_left _ hs, b, by simp, hb⟩
    · rw [afterBalance, if_neg hb]
      exact Or.inl h0'

theorem knows_afterSend {tx : ω} {sigs : List String} {pre : ℕ} {r : Except String String} {acc : Bool}
    (hk : Knows p lastValid es (.send tx sigs pre)) :
    Knows p lastValid (es ++ [.sendBundle [tx] r acc]) (afterSend sigs pre r) := by
  obtain ⟨h0, hh, hs, hb⟩ := hk
  have hw : SentWith p lastValid r (es ++ [.sendBundle [tx] r acc]) :=
    ⟨es, tx, acc, [], rfl, h0, rfl, hs, hh, hb⟩
  cases r with
  | error e => exact Or.inr ⟨e, hw⟩
  | ok id => exact hw

theorem knows_afterInflight {s : Sent} {r : Except String (Option InflightStatus)}
    (hk : SentWith p lastValid (.ok s.id) es) :
    Knows p lastValid (es ++ [.inflight s.id r]) (afterInflight s r) := by
  have hw := hk.snoc (e := .inflight s.id r) (by rintro ⟨_, _, _, h⟩; cases h)
  rcases r with e | _ | st
  · exact hw
  · exact hw
  · cases st with
    | landed slot => exact ⟨hw, by simp⟩
    | failed => exact ⟨hw, Or.inl (by simp)⟩
    | invalid => exact hw
    | pending => exact hw

theorem knows_afterBundleStatus {s : Sent} {slot : ℕ} {r : Except String BundleConfirmation}
    (hk : Knows p lastValid es (.bundleStatus s slot)) :
    Knows p lastValid (es ++ [.bundleStatus s.id r]) (afterBundleStatus s slot r) := by
  obtain ⟨hw, hl⟩ := hk
  have hw := hw.snoc (e := .bundleStatus s.id r) (by rintro ⟨_, _, _, h⟩; cases h)
  have hl' : .inflight s.id (.ok (some (.landed slot))) ∈ es ++ [.bundleStatus s.id r] := List.mem_append_left _ hl
  rcases r with e | _ | ⟨c, _ | err⟩
  · exact ⟨hw, hl'⟩
  · exact ⟨hw, hl'⟩
  · cases c with
    | none => exact ⟨hw, hl'⟩
    | some c =>
      by_cases hc : c = "confirmed" ∨ c = "finalized"
      · rw [afterBundleStatus, if_pos hc]
        exact ⟨hw, c, hc, landedWith_of_mem hl⟩
      · rw [afterBundleStatus, if_neg hc]
        exact ⟨hw, hl'⟩
  · exact ⟨hw, Or.inr ⟨slot, c, err, landedWith_of_mem hl⟩⟩

end Step

/-- **One answer keeps what is known.** -/
theorem knows_step [DecidableEq ω] {w : Signer τ ω} {p : LiveParams} {txs : List τ} {lastValid : ℕ}
    {es : List (Event ω)} {a b : Await ω} {e : Event ω} (hk : Knows p lastValid es a)
    (hs : step w p txs lastValid a e = some b) : Knows p lastValid (es ++ [e]) b := by
  cases a <;> cases e <;> simp only [step, reduceCtorEq, Option.some.injEq, Option.ite_none_right_eq_some] at hs
  case height.blockHeight h =>
    subst hs
    rw [show es = [] from hk]
    exact knows_afterHeight
  case simulation.simulateSigned =>
    obtain ⟨rfl, rfl⟩ := hs
    exact knows_afterSimulation hk
  case balance.balance =>
    subst hs
    exact knows_afterBalance hk
  case send.sendBundle =>
    obtain ⟨rfl, rfl⟩ := hs
    exact knows_afterSend hk
  case clock.elapsed s ns =>
    have hw := hk.snoc (e := .elapsed ns) (by rintro ⟨_, _, _, h⟩; cases h)
    subst hs
    split <;> exact hw
  case inflight.inflight =>
    obtain ⟨rfl, rfl⟩ := hs
    exact knows_afterInflight hk
  case bundleStatus.bundleStatus =>
    obtain ⟨rfl, rfl⟩ := hs
    exact knows_afterBundleStatus hk
  case landedClock.elapsed s slot ns =>
    have hw := hk.1.snoc (e := .elapsed ns) (by rintro ⟨_, _, _, h⟩; cases h)
    subst hs
    split
    · exact hw
    · exact ⟨hw, List.mem_append_left _ hk.2⟩
  case postBalance.balance s slot r =>
    subst hs
    exact ⟨hk.1.snoc (by rintro ⟨_, _, _, h⟩; cases h), hk.2.snoc _⟩
  case landedLatency.elapsed s slot realized ns =>
    subst hs
    exact ⟨hk.1.snoc (by rintro ⟨_, _, _, h⟩; cases h), hk.2.snoc _⟩
  case failedLatency.elapsed id reason ns =>
    subst hs
    exact ⟨hk.1.snoc (by rintro ⟨_, _, _, h⟩; cases h), hk.2.snoc _⟩

theorem knows_run [DecidableEq ω] {w : Signer τ ω} {p : LiveParams} {txs : List τ} {lastValid : ℕ}
    {es : List (Event ω)} {a : Await ω} (hr : Reaches w p txs lastValid es a) : Knows p lastValid es a := by
  refine Run.history (P := Knows p lastValid) ?_ ?_ hr
  · rfl
  · exact fun _ _ _ _ _ hk hs => knows_step hk hs

/-- Nothing leads back to the block height. -/
theorem step_ne_height [DecidableEq ω] {w : Signer τ ω} {p : LiveParams} {txs : List τ} {lastValid : ℕ}
    {a b : Await ω} {e : Event ω} (hs : step w p txs lastValid a e = some b) : b ≠ .height := by
  rintro rfl
  cases a <;> cases e <;> simp only [step, reduceCtorEq, Option.some.injEq, Option.ite_none_right_eq_some] at hs
  case height.blockHeight =>
    unfold afterHeight at hs
    repeat' split at hs
    all_goals cases hs
  case simulation.simulateSigned tx sigs tx' r =>
    rcases r with e | ⟨_ | err⟩ <;> simp [afterSimulation] at hs
  case balance.balance tx sigs r =>
    unfold afterBalance at hs
    repeat' split at hs
    all_goals cases hs
  case send.sendBundle txs r acc => cases r <;> simp [afterSend] at hs
  case clock.elapsed => split at hs <;> cases hs
  case inflight.inflight s id r =>
    rcases r with e | _ | (_ | _ | _ | slot) <;> simp [afterInflight] at hs
  case bundleStatus.bundleStatus s slot id r =>
    obtain ⟨-, hs⟩ := hs
    unfold afterBundleStatus at hs
    repeat' split at hs
    all_goals cases hs
  case landedClock.elapsed => split at hs <;> cases hs

/-- The block height is read first and once. -/
theorem height_first [DecidableEq ω] {w : Signer τ ω} {p : LiveParams} {txs : List τ} {lastValid : ℕ}
    {es : List (Event ω)} {a : Await ω} (hr : Reaches w p txs lastValid es a) :
    (a = .height ∧ es = []) ∨
      a ≠ .height ∧ ∃ h rest, es = .blockHeight h :: rest ∧ ∀ h', .blockHeight h' ∉ rest := by
  refine Run.history (P := fun es a => (a = .height ∧ es = []) ∨
    a ≠ .height ∧ ∃ h rest, es = .blockHeight h :: rest ∧ ∀ h', .blockHeight h' ∉ rest) (Or.inl ⟨rfl, rfl⟩) ?_ hr
  rintro es a e b - (⟨rfl, rfl⟩ | ⟨ha, h, rest, rfl, hrest⟩) hs
  · have hb := step_ne_height hs
    cases e <;> simp only [step, reduceCtorEq] at hs
    case blockHeight h => exact Or.inr ⟨hb, h, [], rfl, by simp⟩
  · refine Or.inr ⟨step_ne_height hs, h, rest ++ [e], rfl, fun h' hm => ?_⟩
    rcases List.mem_append.mp hm with hm | hm
    · exact hrest h' hm
    · rw [← List.mem_singleton.mp hm] at hs
      cases a <;> simp only [step, reduceCtorEq] at hs
      exact ha rfl

/-- The heights read are one. -/
theorem height_unique [DecidableEq ω] {w : Signer τ ω} {p : LiveParams} {txs : List τ} {lastValid : ℕ}
    {es : List (Event ω)} {a : Await ω} (hr : Reaches w p txs lastValid es a) {h h' : Option ℕ}
    (hm : .blockHeight h ∈ es) (hm' : .blockHeight h' ∈ es) : h = h' := by
  rcases height_first hr with ⟨-, rfl⟩ | ⟨-, g, rest, rfl, hrest⟩
  · cases hm
  · have key : ∀ x : Option ℕ, .blockHeight x ∈ (.blockHeight g :: rest : List (Event ω)) → x = g := by
      intro x hx
      rcases List.mem_cons.mp hx with hx | hx
      · cases hx
        rfl
      · exact absurd hx (hrest x)
    rw [key h hm, key h' hm']

theorem sentWith_sends {p : LiveParams} {lastValid : ℕ} {r : Except String String} {es : List (Event ω)}
    (h : SentWith p lastValid r es) : (sends es).length = 1 := by
  obtain ⟨es₁, tx, acc, es₂, rfl, h1, h2, -⟩ := h
  simp [h1, h2, sends_cons_send]

/-- Two sends of a list with one send are the same one. -/
theorem sends_unique {es₁ es₂ fs₁ fs₂ : List (Event ω)} {txs txs' : List ω} {r r' : Except String String}
    {acc acc' : Bool} (h : es₁ ++ .sendBundle txs r acc :: es₂ = fs₁ ++ .sendBundle txs' r' acc' :: fs₂)
    (h1 : sends es₁ = []) (h2 : sends es₂ = []) :
    fs₁ = es₁ ∧ txs' = txs ∧ r' = r ∧ acc' = acc := by
  rcases List.append_eq_append_iff.mp h with ⟨as, rfl, hc⟩ | ⟨bs, rfl, hc⟩
  · cases as with
    | nil =>
      simp only [List.nil_append, List.cons.injEq, Event.sendBundle.injEq] at hc
      obtain ⟨⟨rfl, rfl, rfl⟩, -⟩ := hc
      simp
    | cons a as =>
      simp only [List.cons_append, List.cons.injEq] at hc
      have hm := @mem_sends _ es₂ _ _ _ (by rw [hc.2]; simp : .sendBundle txs' r' acc' ∈ es₂)
      rw [h2] at hm
      cases hm
  · cases bs with
    | nil =>
      simp only [List.nil_append, List.cons.injEq, Event.sendBundle.injEq] at hc
      obtain ⟨⟨rfl, rfl, rfl⟩, -⟩ := hc
      simp
    | cons b bs =>
      simp only [List.cons_append, List.cons.injEq] at hc
      rw [← hc.1, sends_append, sends_cons_send] at h1
      simp at h1

/-- The answer to the send is the one known. -/
theorem SentWith.answer {p : LiveParams} {lastValid : ℕ} {r r' : Except String String} {es : List (Event ω)}
    (h : SentWith p lastValid r es) {txs : List ω} {acc : Bool} (hm : .sendBundle txs r' acc ∈ es) : r' = r := by
  obtain ⟨fs₁, tx, acc', fs₂, rfl, h1, h2, -⟩ := h
  obtain ⟨es₁, es₂, he⟩ := List.append_of_mem hm
  exact (sends_unique he h1 h2).2.2.1

/-- What was sent could be sent, when the headroom was computed without overflow. -/
theorem SentWith.sendable {p : LiveParams} {lastValid : ℕ} {r : Except String String} {es : List (Event ω)}
    (h : SentWith p lastValid r es) (ht : ∀ h, .blockHeight (some h) ∈ es → h + p.blockhashMargin < 2 ^ 64)
    {es₁ es₂ : List (Event ω)} {txs : List ω} {r' : Except String String} {acc : Bool}
    (he : es = es₁ ++ .sendBundle txs r' acc :: es₂) : Sendable p lastValid es₁ txs := by
  obtain ⟨fs₁, tx, acc', fs₂, rfl, h1, h2, hs, ⟨x, hx, hh⟩, hb⟩ := h
  obtain ⟨rfl, rfl, -⟩ := sends_unique he h1 h2
  refine ⟨⟨tx, rfl, hs⟩, ⟨x, hx, ?_⟩, hb⟩
  rw [headroom, decide_eq_true_eq, wrapU64_of_lt (ht x (List.mem_append_left _ hx))] at hh
  exact hh

theorem Accepted.sends_ne_nil {es : List (Event ω)} (h : Accepted es) : sends es ≠ [] := by
  obtain ⟨txs, r, hm⟩ := h
  exact List.ne_nil_of_mem (mem_sends hm)

/-- An execution that sent a bundle has it in its books, and has ended when
the answer was an error. -/
theorem sentWith_of_sends {p : LiveParams} {lastValid : ℕ} {es : List (Event ω)} {a : Await ω}
    (hk : Knows p lastValid es a) (hs : sends es ≠ []) :
    ∃ r, SentWith p lastValid r es ∧ ∀ e, r = .error e → ∃ reason, a = .done (.notSent reason) := by
  have ok : ∀ id, SentWith p lastValid (.ok id) es →
      ∃ r, SentWith p lastValid r es ∧ ∀ e, r = .error e → ∃ reason, a = .done (.notSent reason) :=
    fun id hw => ⟨_, hw, fun e he => by cases he⟩
  cases a with
  | height => exact absurd (by rw [show es = [] from hk]; rfl) hs
  | simulation => exact absurd hk.1 hs
  | balance => exact absurd hk.1 hs
  | send => exact absurd hk.1 hs
  | clock => exact ok _ hk
  | inflight => exact ok _ hk
  | bundleStatus => exact ok _ hk.1
  | landedClock => exact ok _ hk.1
  | postBalance => exact ok _ hk.1
  | landedLatency => exact ok _ hk.1
  | failedLatency => exact ok _ hk.1
  | done o =>
    cases o with
    | notSent reason =>
      rcases hk with h0 | ⟨e, hw⟩
      · exact absurd h0 hs
      · exact ⟨_, hw, fun _ _ => ⟨reason, rfl⟩⟩
    | landed => exact ok _ hk.1
    | failed => exact ok _ hk.1
    | timedOut => exact ok _ hk

/-- What an execution knows is what it reports, when it was told the truth. -/
theorem reports_of_told {p : LiveParams} {lastValid : ℕ} {es : List (Event ω)} {a : Await ω}
    (hk : Knows p lastValid es a) (ht : Told p es) : Reports p lastValid es a := by
  have notSent : ∀ reason, a = .done (.notSent reason) → ¬ Accepted es := by
    rintro reason rfl ⟨txs, r, hm⟩
    rcases hk with h0 | ⟨e, hw⟩
    · exact Accepted.sends_ne_nil ⟨txs, r, hm⟩ h0
    · rw [hw.answer hm] at hm
      exact ht.refused txs e hm
  have sent : ∀ id, SentWith p lastValid (.ok id) es → ∃ txs acc, .sendBundle txs (.ok id) acc ∈ es := by
    rintro id ⟨es₁, tx, acc, es₂, rfl, -⟩
    exact ⟨[tx], acc, by simp⟩
  refine ⟨?_, ?_, ?_, ?_, ?_, notSent, ?_⟩
  · by_cases hs : sends es = []
    · simp [hs]
    · obtain ⟨r, hw, -⟩ := sentWith_of_sends hk hs
      exact (sentWith_sends hw).le
  · rintro es₁ txs r acc es₂ rfl
    have hs : sends (es₁ ++ .sendBundle txs r acc :: es₂) ≠ [] := by
      rw [sends_append, sends_cons_send]
      simp
    obtain ⟨r, hw, -⟩ := sentWith_of_sends hk hs
    exact hw.sendable (ht.headroom hs) rfl
  · rintro o id rfl hid
    cases o with
    | notSent reason => cases hid
    | landed => cases hid; exact sent _ hk.1
    | failed => cases hid; exact sent _ hk.1
    | timedOut => cases hid; exact sent _ hk
  · rintro id slot sigs realized ms rfl
    exact hk.2
  · rintro id reason ms rfl
    exact hk.2
  · rintro o rfl ha hc hf
    cases o with
    | notSent reason => exact absurd ha (notSent reason rfl)
    | landed id slot => exact absurd hk.2 (hc id slot)
    | failed id => exact absurd hk.2 (hf id)
    | timedOut id => exact ⟨id, rfl⟩

/-- **An execution reports only what is known exactly when the backend told it.**
For every behaviour of the backend, every list of transactions and every
moment of the execution. -/
theorem reports_iff [DecidableEq ω] {w : Signer τ ω} {p : LiveParams} {txs : List τ} {lastValid : ℕ}
    {es : List (Event ω)} {a : Await ω} (hl : lastValid < 2 ^ 64) (hr : Reaches w p txs lastValid es a) :
    Reports p lastValid es a ↔ Told p es := by
  have hk := knows_run hr
  refine ⟨fun h => ⟨fun txs e hm => ?_, fun hs x hx => ?_⟩, reports_of_told hk⟩
  · have ha : Accepted es := ⟨txs, _, hm⟩
    obtain ⟨r, hw, hend⟩ := sentWith_of_sends hk ha.sends_ne_nil
    obtain ⟨reason, hdone⟩ := hend e (hw.answer hm).symm
    exact h.notSent reason hdone ha
  · obtain ⟨r, ⟨es₁, tx, acc, es₂, rfl, -⟩, -⟩ := sentWith_of_sends hk hs
    obtain ⟨y, hy, hlt⟩ := (h.sendable es₁ [tx] r acc es₂ rfl).height
    have hxy := height_unique hr hx (List.mem_append_left _ hy)
    rw [Option.some.inj hxy]
    omega

/-! ### A transport error after the bundle was taken -/

/-- A signer of transactions that are their own bytes. -/
def plainSigner : Signer ℕ ℕ := ⟨.ok, fun _ => some "sig", .ok⟩

def testParams : LiveParams := ⟨10, 10, 200000000⟩

/-- Height 900, a clean simulation, a balance of 1 000 lamports, and the
answer to `sendBundle`. -/
def sendTrace (r : Except String String) (accepted : Bool) : List (Event ℕ) :=
  [] ++ [.blockHeight (some 900)] ++ [.simulateSigned 7 (.ok ⟨none⟩)] ++ [.balance (.ok 1000)] ++
    [.sendBundle [7] r accepted]

theorem reaches_sendTrace (r : Except String String) (accepted : Bool) :
    Reaches plainSigner testParams [7] 1000 (sendTrace r accepted) (afterSend ["sig"] 1000 r) := by
  have h1 : Reaches plainSigner testParams [7] 1000 [.blockHeight (some 900)] (.simulation 7 ["sig"]) :=
    Run.single rfl
  have h2 : Reaches plainSigner testParams [7] 1000 [.blockHeight (some 900), .simulateSigned 7 (.ok ⟨none⟩)]
      (.balance 7 ["sig"]) := h1.snoc rfl
  have h3 := Run.snoc (e := .balance (.ok 1000)) (u := .send 7 ["sig"] 1000) h2 rfl
  exact h3.snoc rfl

/-- The block engine took the bundle, the answer was lost, and the execution
reports that nothing was sent. -/
theorem not_reports_lost_answer :
    ∃ es : List (Event ℕ), ∃ reason,
      Reaches plainSigner testParams [7] 1000 es (.done (.notSent reason)) ∧ Accepted es ∧
        ¬ Reports testParams 1000 es (.done (.notSent reason)) := by
  have ha : Accepted (sendTrace (.error "transport: timed out") true) := ⟨[7], .error "transport: timed out", by simp [sendTrace]⟩
  exact ⟨_, _, reaches_sendTrace (.error "transport: timed out") true, ha, fun h => h.notSent _ rfl ha⟩

/-- An answered send is reported as it is known. -/
theorem reports_iff_answered :
    Reports testParams 1000 (sendTrace (.ok "bundle-1") true) (afterSend ["sig"] 1000 (.ok "bundle-1")) :=
  (reports_iff (by decide) (reaches_sendTrace (.ok "bundle-1") true)).mpr
    ⟨by simp [sendTrace], fun _ h hm => by simp [sendTrace] at hm; subst hm; decide⟩

end Live
end MobiusSearcher
