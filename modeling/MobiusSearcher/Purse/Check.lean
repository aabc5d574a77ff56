/-
# Checking a transfer

The data of `apps/mobius-searcher/src/purse.rs` and `crates/tui/src/wallet.rs`:
a request as it was typed, what sending it means (`Plan`), what the operator is
shown of it (`Review`), and the check that makes both from what the chain
answers, question by question. What is asked of the page at one moment, between
two awaits, is one question.

Amounts are lamports and USDC atoms. Texts are left out beyond which of them is
said (`Why`, `Note`).

Key definitions: `SendRequest`, `Plan`, `Review`, `Sending`, `Op`, `check`.
-/
import MobiusSearcher.Core.Costs
import MobiusSearcher.Core.Decimal
import MobiusSearcher.Lab.Deliver

namespace MobiusSearcher
namespace Purse

open Machine Lab

/-- Lamports of a signature. -/
def signatureFee : ℕ := 5000
/-- Lamports of priority fee a transfer pays. -/
def priorityFee : ℕ := 2000
/-- The least an account of no data may hold. -/
def walletRent : ℕ := 890880
/-- What opening a token account locks in it. -/
def tokenAccountRent : ℕ := 2039280

inductive Asset
  | sol
  | usdc
  deriving DecidableEq, Repr

def Asset.decimals : Asset → ℕ
  | sol => 9
  | usdc => 6

/-- What the operator asks to send, as typed. -/
structure SendRequest where
  asset : Asset
  to_ : String
  amount : String
  deriving DecidableEq, Repr

/-- An instruction, by what its accounts and its data say. -/
inductive RawInstruction
  | systemTransfer (me to_ : Address) (lamports : ℕ)
  | ataCreateIdempotent (payer ata owner mint : Address)
  | tokenTransferChecked (source mint dest owner : Address) (amount decimals : ℕ)
  deriving DecidableEq, Repr

/-- A request, checked: what is sent and how. -/
structure Plan where
  asset : Asset
  to_ : Address
  atoms : ℕ
  /-- USDC: the wallet's token account it leaves from and the recipient's it goes to. -/
  accounts : Option (Address × Address)
  /-- USDC: the recipient's account is opened first. -/
  opens : Bool
  deriving DecidableEq, Repr

def Plan.cuLimit (p : Plan) : ℕ :=
  match p.asset, p.opens with
  | .sol, _ => 2000
  | .usdc, false => 20000
  | .usdc, true => 120000

/-- The wallet, and what is known of addresses. -/
structure Keys where
  me : Address
  usdcMint : Address
  /-- A text, read as an address. -/
  parse : String → Option Address
  onCurve : Address → Bool
  /-- The USDC account of a wallet, as it is derived. -/
  ata : Address → Address
  /-- SOL the program keeps for fees. -/
  reserve : ℕ

def Plan.instructions (k : Keys) (p : Plan) : List RawInstruction :=
  match p.accounts with
  | none => [.systemTransfer k.me p.to_ p.atoms]
  | some (source, dest) =>
    (if p.opens then [.ataCreateIdempotent k.me dest p.to_ k.usdcMint] else []) ++
      [.tokenTransferChecked source k.usdcMint dest k.me p.atoms 6]

/-- What a transfer takes beyond its amount: its fee, and the rent of an account it opens. -/
def Plan.cost (p : Plan) : ℕ := signatureFee + priorityFee + if p.opens then tokenAccountRent else 0

/-- The whole of an amount, as a number: nothing is zero. -/
def readWhole (whole : List Char) : Checked ℕ :=
  if whole.isEmpty then .ok 0 else .ofOption (parseUnsigned 64 whole).toOption

/-- The whole of an amount and what is behind its point, in the smallest unit. -/
def scaleParts (whole part : List Char) (decimals : ℕ) : Checked ℕ := do
  let whole ← readWhole whole
  let part ← .ofOption (parseUnsigned 64 (part.rightpad decimals '0')).toOption
  Checked.checkedAdd 64 (← Checked.fit 64 (whole * (← Checked.pow 64 10 decimals))) part

/-- Text as atoms of something counted in `decimals`: digits and one point, nothing lost to rounding. -/
def atoms (text : List Char) (decimals : ℕ) : Checked ℕ :=
  let (whole, part) := halves text
  if (whole.isEmpty && part.isEmpty) || !whole.all Char.isDigit || !part.all Char.isDigit ||
      decimals < part.length then .none
  else scaleParts whole part decimals

/-- The amount a request asks for, more than zero. -/
def SendRequest.atoms (req : SendRequest) : Option ℕ :=
  (Purse.atoms (Text.trim req.amount.toList) req.asset.decimals).toOption.filter (0 < ·)

/-- An account as the node gives it. -/
structure Account where
  owner : Option String
  executable : Option Bool
  lamports : Option ℕ
  deriving DecidableEq, Repr

def systemProgram : String := "11111111111111111111111111111111"
def tokenProgram : String := "TokenkegQfeZyiNwAJbNbGKPFXCWuBvf9Ss623VQ5DA"
def token2022 : String := "TokenzQdBNbLqP5VEhdkAS6EPFLC1PHnBqCXEpPxuEb"

/-- Why a request cannot be sent, or what was sent did not arrive. -/
inductive Why
  /-- Nothing can be sent from this wallet. -/
  | cannotSend (why : String)
  | notAnAddress
  | ownAddress
  | notANumber
  | unread (e : String)
  | isProgram
  | isTokenAccount
  | isProgramAccount (owner : String)
  | notAWallet
  | newAddressNeeds
  | noUsdc
  | fewerUsdc (has : ℕ)
  | fewerSol (lamports spent : ℕ)
  | leavesTooLittle (left : ℕ)
  | notThisKey
  | keyUnread (e : String)
  /-- It reached the chain and failed there: its fee is paid; nothing was sent. -/
  | failedThere (err : String)
  /-- It did not reach the chain before it expired: it can be sent again. -/
  | didNotReach
  /-- Nothing was heard of it: do not send it again yet, it may still have arrived. -/
  | notHeard
  | simulation (why : String)
  | notSent (why : String)
  deriving DecidableEq, Repr

/-- What to know before sending. -/
inductive Note
  | underReserve (left : ℕ)
  | neverSeen
  deriving DecidableEq, Repr

/-- A request the application checked: what would happen, to be read before it does. -/
structure Review where
  request : SendRequest
  to_ : Address
  amount : ℕ
  /-- What the chain says of the address: what it holds, and whether it has a USDC account. -/
  recipient : Option ℕ × Option Bool
  fee : ℕ
  /-- What opening the recipient's USDC account takes, when it has none. -/
  opensAccount : Option ℕ
  leftSol : ℕ
  leftUsdc : ℕ
  notes : List Note
  deriving DecidableEq, Repr

/-- Where a transfer stands. -/
inductive Sending
  | checking (req : SendRequest)
  | refused (req : SendRequest) (why : Why)
  | reviewed (r : Review)
  | sending (r : Review)
  | done (r : Review) (signature : String)
  /-- Not sent, or sent and not known to have arrived. -/
  | failed (r : Review) (why : Why) (signature : Option String)
  deriving DecidableEq, Repr

/-- What the purse asks: of the chain, and of its page. -/
inductive Op
  /-- Why nothing can be sent from here. -/
  | cannotSend
  /-- USDC of the last reading, as the page shows it. -/
  | viewUsdc
  | balances
  | account (a : Address)
  /-- The wallet's USDC account that holds the most, and how much. -/
  | usdcAccount
  /-- The key is read: whose it is. -/
  | sender
  | sendPlain (req : SendRequest) (ixs : List RawInstruction) (cuLimit price : ℕ)
  /-- The page says that the request is being checked. -/
  | checking (req : SendRequest)
  /-- The answer of a check, for the page. -/
  | answered (req : SendRequest) (answer : Except Why (Review × Plan))
  /-- What the page shows as reviewed is taken up to be sent, if it is this request. -/
  | take (req : SendRequest)
  /-- The end of a transfer, for the page. -/
  | ended (s : Sending)
  | clear
  | refreshed (read : Option (ℕ × ℕ))

def Op.Ans : Op → Type
  | .cannotSend => Option String
  | .viewUsdc => Option ℕ
  | .balances => Except String (ℕ × ℕ)
  | .account _ => Except String (Option Account)
  | .usdcAccount => Except String (Option (Address × ℕ))
  | .sender => Except String Address
  | .sendPlain .. => Except Mainnet.Unsent (String × Fate)
  | .take _ => Option Review
  | _ => Unit

abbrev Act (α : Type) := Prog Op.Ans α

def ask (o : Op) : Act o.Ans := .query o

def cannotSend : Act (Option String) := ask .cannotSend

def viewUsdc : Act (Option ℕ) := ask .viewUsdc

def balances : Act (Except String (ℕ × ℕ)) := ask .balances

def account (a : Address) : Act (Except String (Option Account)) := ask (.account a)

def usdcAccount : Act (Except String (Option (Address × ℕ))) := ask .usdcAccount

def sender : Act (Except String Address) := ask .sender

def sendPlain (req : SendRequest) (ixs : List RawInstruction) (cuLimit price : ℕ) :
    Act (Except Mainnet.Unsent (String × Fate)) := ask (.sendPlain req ixs cuLimit price)

def take (req : SendRequest) : Act (Option Review) := ask (.take req)

variable (k : Keys)

/-- What the plan leaves, and what is shown of it. -/
def judge (req : SendRequest) (plan : Plan) (lamports spent leftUsdc : ℕ) (held : Option ℕ) :
    Except Why (Review × Plan) :=
  if lamports < spent then .error (.fewerSol lamports spent)
  else
    let left := lamports - spent
    if 0 < left ∧ left < walletRent then .error (.leavesTooLittle left)
    else .ok ({
      request := req
      to_ := plan.to_
      amount := plan.atoms
      recipient := (held, if plan.asset = .usdc then some !plan.opens else none)
      fee := signatureFee + priorityFee
      opensAccount := if plan.opens then some tokenAccountRent else none
      leftSol := left
      leftUsdc
      notes := (if left < k.reserve then [.underReserve left] else []) ++ if held.isNone then [.neverSeen] else [] }, plan)

/-- What the chain says of the recipient. -/
def recipientOf (there : Option Account) (to_ : Address) : Except Why (Option ℕ) :=
  let owner := (there.bind Account.owner).getD systemProgram
  if there.any fun a => a.executable = some true then .error .isProgram
  else if owner = tokenProgram ∨ owner = token2022 then .error .isTokenAccount
  else if owner ≠ systemProgram then .error (.isProgramAccount owner)
  else if !k.onCurve to_ then .error .notAWallet
  else .ok (there.bind Account.lamports)

/-- Check a request against the chain: what sending it would do, or why it cannot be sent. -/
def check (req : SendRequest) : Act (Except Why (Review × Plan)) := do
  match ← cannotSend with
  | some why => pure (.error (.cannotSend why))
  | none =>
  match k.parse req.to_ with
  | none => pure (.error .notAnAddress)
  | some to_ =>
  if to_ = k.me then pure (.error .ownAddress)
  else
  match req.atoms with
  | none => pure (.error .notANumber)
  | some amount =>
  match ← balances with
  | .error e => pure (.error (.unread e))
  | .ok (lamports, _) =>
  match ← account to_ with
  | .error e => pure (.error (.unread e))
  | .ok there =>
  match recipientOf k there to_ with
  | .error why => pure (.error why)
  | .ok held =>
  let fee := signatureFee + priorityFee
  match req.asset with
  | .sol =>
    if held.isNone ∧ amount < walletRent then pure (.error .newAddressNeeds)
    else
      let usdc ← viewUsdc
      pure (judge k req ⟨.sol, to_, amount, none, false⟩ lamports (wrapU64 (amount + fee)) (usdc.getD 0) held)
  | .usdc =>
    match ← usdcAccount with
    | .error e => pure (.error (.unread e))
    | .ok none => pure (.error .noUsdc)
    | .ok (some (source, has)) =>
    if has < amount then pure (.error (.fewerUsdc has))
    else
      let dest := k.ata to_
      match ← account dest with
      | .error e => pure (.error (.unread e))
      | .ok atDest =>
        let opens := atDest.isNone
        pure (judge k req ⟨.usdc, to_, amount, some (source, dest), opens⟩ lamports
          (fee + if opens then tokenAccountRent else 0) (has - amount) held)

/-- What became of a transfer that was handed over. -/
def endOf (review : Review) : Except Mainnet.Unsent (String × Fate) → Sending
  | .ok (signature, .confirmed) => .done review signature
  | .ok (signature, .failed err) => .failed review (.failedThere err) (some signature)
  | .ok (signature, .expired) => .failed review .didNotReach (some signature)
  | .ok (signature, .unknown) => .failed review .notHeard (some signature)
  | .error (.simulation why) => .failed review (.simulation why) none
  | .error (.other why) => .failed review (.notSent why) none

/-- Send what was reviewed, checked again at the moment of sending. -/
def dispatch (req : SendRequest) (review : Review) : Act Sending := do
  match ← check k req with
  | .error why => pure (.failed review why none)
  | .ok (_, plan) =>
  match ← sender with
  | .error e => pure (.failed review (.keyUnread e) none)
  | .ok taker =>
  if taker ≠ k.me then pure (.failed review .notThisKey none)
  else
    let cuLimit := plan.cuLimit
    let price := priorityFee * 1000000 / cuLimit
    let sent ← sendPlain req (plan.instructions k) cuLimit price
    pure (endOf review sent)

/-- Read what the wallet holds into the view. -/
def refresh : Act Unit := do
  match ← balances with
  | .ok read => ask (.refreshed (some read))
  | .error _ => ask (.refreshed none)

/-- Send the request the page shows as reviewed, and nothing else. -/
def send (req : SendRequest) : Act Unit := do
  match ← take req with
  | none => pure ()
  | some review =>
    let s ← dispatch k req review
    ask (.ended s)
    refresh

/-- Check `req` and put the answer on the page. -/
def review (req : SendRequest) : Act Unit := do
  ask (.checking req)
  let answer ← check k req
  ask (.answered req answer)

inductive WalletAction
  | check (req : SendRequest)
  | send (req : SendRequest)
  /-- Forget the transfer on the page. -/
  | clear
  | refresh
  deriving DecidableEq, Repr

/-- One of the page's wishes. -/
def act : WalletAction → Act Unit
  | .check req => review k req
  | .send req => send k req
  | .refresh => refresh
  | .clear => ask .clear

/-! ### What is said of a delivery -/

/-- What is told to whoever asked for a transaction is what was heard of it. A
page says of no other end than an unknown one that it is not known, and a trader
reads from the wallet whether a swap landed, whatever its end. -/
structure Heeds (lastValid : ℕ) (l : Heard) (fate : Fate) : Prop where
  told : Told lastValid l fate
  page : ∀ r sig, endOf r (.ok (sig, fate)) = .failed r .notHeard (some sig) ↔
    fate ≠ .confirmed ∧ fate ≠ .expired ∧ ∀ err, fate ≠ .failed err
  trader : ∃ words, swapEnd (.ok fate) = .ok (.sent, words)

theorem endOf_notHeard {r : Review} {sig : String} {fate : Fate} :
    endOf r (.ok (sig, fate)) = .failed r .notHeard (some sig) ↔
      fate ≠ .confirmed ∧ fate ≠ .expired ∧ ∀ err, fate ≠ .failed err := by
  cases fate <;> simp [endOf]

/-- **A transaction is said to have expired, to be confirmed or to have failed
because the network said so, exactly when its last look was not one past the
last valid height that could not be read.** -/
theorem heeds_iff {lastValid : ℕ} {l : Heard} {fate : Fate} {refused : List String}
    (h : (deliver lastValid).Gives l (fate, refused)) : Heeds lastValid l fate ↔ ¬Unread lastValid l :=
  ⟨fun hh => (told_iff h).mp hh.told, fun hu => ⟨(told_iff h).mpr hu, fun _ _ => endOf_notHeard, _, rfl⟩⟩

/-- Past its last valid height the network stops answering: it is said to have
expired, and that it can be sent again, when it may have landed. -/
theorem expired_unheard : ∃ l fate refused, (deliver 200).Gives l (fate, refused) ∧ ¬Told 200 l fate ∧
    ∀ r sig, endOf r (.ok (sig, fate)) = .failed r .didNotReach (some sig) := by
  refine ⟨[⟨.send, []⟩, said (.ok none), height (.ok 201), said (.error "timeout")], .expired, [], ?_, ?_,
    fun _ _ => rfl⟩
  · exact ⟨[], _, rfl, .ok none, _, rfl, .ok 201, _, rfl, .error "timeout", _, rfl, rfl, rfl⟩
  · rintro ⟨h, -, -⟩
    obtain ⟨l₁, h', l₂, hl, hh, hm⟩ := h rfl
    have hone : l₂ = [said (.error "timeout")] :=
      @after_tooLate 200 [⟨.send, []⟩, said (.ok none)] _ _ _ _ _ (by simp [Valid, tooLate, said]) (by simpa [tooLate, height] using hh) rfl hl
    rw [hone] at hm
    exact absurd (eq_of_heq (Sigma.mk.inj (List.mem_singleton.mp hm)).2) (by simp)

/-- The last look, past the height, was answered: there is no transaction. -/
theorem heeds_iff_expired : Heeds 200 [⟨.send, []⟩, said (.ok none), height (.ok 201), said (.ok none)] .expired ↔
    ¬Unread 200 [⟨.send, []⟩, said (.ok none), height (.ok 201), said (.ok none)] :=
  @heeds_iff _ _ _ [] ⟨[], _, rfl, .ok none, _, rfl, .ok 201, _, rfl, .ok none, _, rfl, rfl, rfl⟩

end Purse
end MobiusSearcher
