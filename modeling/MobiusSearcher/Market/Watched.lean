/-
# What the account feed gives

Runs of the account feed, whatever arrives in whatever order: the samples of a
watch are at least the interval apart, and an unchanged price is not sampled
again before the heartbeat; yet whatever is decoded has been sampled within
that time (`samples_throttled`). A tick is of an account that came on the
watch's own subscription of this connection, is owned by its program and
decodes, and a watch that once failed gives nothing any more
(`ticks_are_own`).

Key definitions: `Outcome`, `samplesOf`, `Acked`, `Watched`.
Key theorems: `steps_outcome`, `run_watched`, `samples_throttled`, `ticks_are_own`.
-/
import MobiusSearcher.Market.Feed

namespace MobiusSearcher
namespace Market

open FloatOps Amm Machine

variable {powi : Binary64 → ℤ → Binary64} {base64 : String → Option Bytes}

/-! ### What a step can do -/

namespace Event

def isError : Event → Bool
  | .error .. => true
  | _ => false

def isSample : Event → Bool
  | .sample _ => true
  | _ => false

/-- The mean of a pair's pools. -/
def isMean : Event → Bool
  | .metric _ .poolMid _ => true
  | _ => false

end Event

/-- What a spread adds to the events, and when the next one may come. -/
inductive Spread (f : AccountFeed) (now : Ts) : List Event → Option Ts → Prop
  | nothing : Spread f now [] f.lastSpread
  | shown (mean : Binary64) (rest : List Event) :
    (∀ t ∈ f.lastSpread, f.emitIntervalUs ≤ t.since now) → (∀ e ∈ rest, ∃ x, e = .metric now .poolSpread x) →
      Spread f now (.metric now .poolMid mean :: rest) (some now)

/-- The ways a step can go. -/
inductive Outcome (powi : Binary64 → ℤ → Binary64) (base64 : String → Option Bytes) (f : AccountFeed) (e : Step) :
    AccountFeed → Prop
  /-- No account came, or one of a watch that is disabled or not there. -/
  | quiet (subs : ℕ → Option ℕ) : e.events = [] → e.tick = none → Outcome powi base64 f e { f with subs }
  /-- The first account that is not the watch's. -/
  | failed (u : Update) (w : Watch) (why message : String) : f.hears base64 e.input = some u → e.watch = some u.watch →
      f.watches[u.watch]? = some w → (f.state u.watch).disabled = false →
      w.read powi u.watch u.owner u.data u.rx = .error why → e.events = [.error u.rx.now "chain feed" message] → e.tick = none →
      Outcome powi base64 f e
        { f with state := Function.update f.state u.watch { f.state u.watch with disabled := true } }
  | decoded (u : Update) (w : Watch) (r : Reading) (spreads : List Event) (last : Option Ts) :
      f.hears base64 e.input = some u → e.watch = some u.watch → e.now = u.rx.now →
      f.watches[u.watch]? = some w → (f.state u.watch).disabled = false →
      w.read powi u.watch u.owner u.data u.rx = .ok r → e.tick = some r.hot →
      e.events = (if f.due (f.state u.watch) r.price u.rx.now then AccountFeed.samples w r u.rx.now else []) ++ spreads →
      Spread f u.rx.now spreads last →
      Outcome powi base64 f e
        { f with
          state := Function.update f.state u.watch (f.noted (f.state u.watch) r u.rx.now)
          lastSpread := last }

theorem spread_eq (f g : AccountFeed) (pair : String) (now : Ts)
    (hdue : ∀ t ∈ f.lastSpread, f.emitIntervalUs ≤ t.since now) (hlast : g.lastSpread = f.lastSpread) :
    ∃ last, Spread f now (g.spread pair now).2 last ∧ (g.spread pair now).1 = { g with lastSpread := last } := by
  unfold AccountFeed.spread
  simp only
  split
  · exact ⟨f.lastSpread, .nothing, by rw [← hlast]⟩
  · refine ⟨some now, .shown _ _ hdue fun e he => ?_, rfl⟩
    split at he
    · exact ⟨_, List.mem_singleton.mp he⟩
    · cases he

/-- What an account does, whatever brought it. -/
theorem onAccountAt_outcome (f : AccountFeed) (e : Step) (u : Update) (hears : f.hears base64 e.input = some u)
    (hwatch : e.watch = some u.watch) (hnow : e.now = u.rx.now)
    (hout : (e.events, e.tick) = (f.onAccountAt powi u.watch u.owner u.data u.rx).2) :
    Outcome powi base64 f e (f.onAccountAt powi u.watch u.owner u.data u.rx).1 := by
  have hevents := congrArg Prod.fst hout
  have htick := congrArg Prod.snd hout
  revert hevents htick
  unfold AccountFeed.onAccountAt
  cases hw : f.watches[u.watch]? with
  | none => exact fun hevents htick => .quiet f.subs hevents htick
  | some w =>
    simp only
    cases hd : (f.state u.watch).disabled with
    | true => exact fun hevents htick => .quiet f.subs hevents htick
    | false =>
      simp only [Bool.false_eq_true, if_false]
      cases hr : w.read powi u.watch u.owner u.data u.rx with
      | error why => exact fun hevents htick => .failed u w why _ hears hwatch hw hd hr hevents htick
      | ok r =>
        simp only
        split
        · rename_i hdue
          have hall : ∀ t ∈ f.lastSpread, f.emitIntervalUs ≤ t.since u.rx.now := by
            intro t ht
            rw [Option.mem_def.mp ht] at hdue
            exact of_decide_eq_true hdue.2
          obtain ⟨last, hspread, heq⟩ := spread_eq f
            { f with state := Function.update f.state u.watch (f.noted (f.state u.watch) r u.rx.now) } r.pair u.rx.now hall rfl
          intro hevents htick
          rw [heq]
          exact .decoded u w r _ last hears hwatch hnow hw hd hr htick hevents hspread
        · intro hevents htick
          exact .decoded u w r [] f.lastSpread hears hwatch hnow hw hd hr htick (by rw [List.append_nil]; exact hevents) .nothing

/-- The subscriptions after a message: an acknowledged one is known. -/
def subsAfter (f : AccountFeed) (v : Json) : ℕ → Option ℕ :=
  match ackOf v with
  | some (id, sub) =>
    match f.watchOf id with
    | some i => Function.update f.subs sub (some i)
    | none => f.subs
  | none => f.subs

theorem hears_message (f : AccountFeed) (v : Json) (rx : Receipt) :
    f.hears base64 (.message v rx) = if (ackOf v).isSome then none else f.notice base64 v rx := rfl

theorem onMessageAt_none {f : AccountFeed} {v : Json} {rx : Receipt} (h : f.hears base64 (.message v rx) = none) :
    f.onMessageAt powi base64 v rx = ({ f with subs := subsAfter f v }, [], none) := by
  rw [hears_message] at h
  unfold AccountFeed.onMessageAt subsAfter
  cases hack : ackOf v with
  | some ack =>
    simp only
    cases f.watchOf ack.1 <;> rfl
  | none =>
    rw [hack, Option.isSome_none, if_neg Bool.false_ne_true] at h
    simp only [h]

theorem onMessageAt_some {f : AccountFeed} {v : Json} {rx : Receipt} {u : Update}
    (h : f.hears base64 (.message v rx) = some u) :
    ackOf v = none ∧ f.onMessageAt powi base64 v rx = f.onAccountAt powi u.watch u.owner u.data u.rx := by
  rw [hears_message] at h
  unfold AccountFeed.onMessageAt
  cases hack : ackOf v with
  | some ack =>
    rw [hack, Option.isSome_some, if_pos rfl] at h
    cases h
  | none =>
    rw [hack, Option.isSome_none, if_neg Bool.false_ne_true] at h
    simp only [h, and_self]

/-- **What a step can do.** -/
theorem steps_outcome {f f' : AccountFeed} {e : Step} (h : Steps powi base64 f e f') : Outcome powi base64 f e f' := by
  obtain ⟨he, rfl⟩ := h
  cases hi : e.input with
  | subscribe =>
    rw [hi] at he
    exact .quiet _ (by rw [he]; rfl) (by rw [he]; rfl)
  | account i owner data rx =>
    rw [hi] at he
    refine onAccountAt_outcome f e ⟨i, owner, data, rx⟩ (by rw [hi]; rfl) (by rw [he]; rfl) (by rw [he]; rfl) ?_
    rw [he]
    rfl
  | message v rx =>
    rw [hi] at he
    have htake : f.take powi base64 (.message v rx) = f.onMessageAt powi base64 v rx := rfl
    unfold AccountFeed.stepOf at he
    rw [htake] at he ⊢
    cases hh : f.hears base64 (.message v rx) with
    | none =>
      rw [onMessageAt_none hh] at he ⊢
      exact .quiet _ (by rw [he]) (by rw [he])
    | some u =>
      rw [(onMessageAt_some hh).2, hh] at he
      rw [(onMessageAt_some hh).2]
      refine onAccountAt_outcome f e u (by rw [hi]; exact hh) (by rw [he]; rfl) (by rw [he]; rfl) ?_
      rw [he]

/-! ### Subscriptions -/

/-- The step acknowledges this subscription, for a request of some watch. -/
def acks (n : ℕ) (e : Step) (sub i : ℕ) : Prop :=
  ∃ v rx, e.input = .message v rx ∧ ackOf v = some (subIdBase + i, sub) ∧ i < n

/-- The watch `i` was the last that the subscription was acknowledged for since everything was subscribed. -/
def Acked (n : ℕ) (es : List Step) (sub i : ℕ) : Prop :=
  ∃ before e after, es = before ++ e :: after ∧ acks n e sub i ∧
    ∀ e' ∈ after, e'.input ≠ .subscribe ∧ ∀ j, ¬acks n e' sub j

theorem watchOf_eq_some {f : AccountFeed} {id i : ℕ} :
    f.watchOf id = some i ↔ id = subIdBase + i ∧ i < f.watches.length := by
  unfold AccountFeed.watchOf
  split
  · rw [Option.some.injEq]
    omega
  · simp only [reduceCtorEq, false_iff]
    omega

theorem Acked.snoc {n : ℕ} {es : List Step} {sub i : ℕ} (h : Acked n es sub i) {e : Step} (hs : e.input ≠ .subscribe)
    (ha : ∀ j, ¬acks n e sub j) : Acked n (es ++ [e]) sub i := by
  obtain ⟨before, e₀, after, rfl, hack, hafter⟩ := h
  refine ⟨before, e₀, after ++ [e], by simp, hack, fun e' he' => ?_⟩
  rcases List.mem_append.mp he' with he' | he'
  · exact hafter e' he'
  · rw [List.mem_singleton.mp he']
    exact ⟨hs, ha⟩

theorem spread_subs (f : AccountFeed) (pair : String) (now : Ts) : (f.spread pair now).1.subs = f.subs := by
  unfold AccountFeed.spread
  simp only
  split <;> rfl

theorem onAccountAt_subs (f : AccountFeed) (i : ℕ) (owner : String) (data : Bytes) (rx : Receipt) :
    (f.onAccountAt powi i owner data rx).1.subs = f.subs := by
  unfold AccountFeed.onAccountAt
  cases f.watches[i]? with
  | none => rfl
  | some w =>
    simp only
    by_cases hd : (f.state i).disabled
    · rw [if_pos hd]
    · rw [if_neg hd]
      cases w.read powi i owner data rx with
      | error why => rfl
      | ok r =>
        simp only
        split
        · exact spread_subs _ _ _
        · rfl

theorem subsAfter_eq_some {f : AccountFeed} {v : Json} {sub i : ℕ} (h : subsAfter f v sub = some i) :
    (ackOf v = some (subIdBase + i, sub) ∧ i < f.watches.length) ∨
      f.subs sub = some i ∧ ∀ j, ackOf v = some (subIdBase + j, sub) → ¬j < f.watches.length := by
  unfold subsAfter at h
  cases hack : ackOf v with
  | none =>
    rw [hack] at h
    exact .inr ⟨h, fun j hj => by cases hj⟩
  | some ack =>
    obtain ⟨id, s⟩ := ack
    rw [hack] at h
    simp only at h
    cases hw : f.watchOf id with
    | none =>
      rw [hw] at h
      refine .inr ⟨h, fun j hj hlt => ?_⟩
      obtain ⟨rfl, rfl⟩ := Prod.mk.inj (Option.some.inj hj)
      rw [watchOf_eq_some.mpr ⟨rfl, hlt⟩] at hw
      cases hw
    | some k =>
      obtain ⟨rfl, hk⟩ := watchOf_eq_some.mp hw
      rw [hw] at h
      by_cases hsub : sub = s
      · subst hsub
        simp only [Function.update_self, Option.some.injEq] at h
        subst h
        exact .inl ⟨rfl, hk⟩
      · simp only [Function.update_of_ne hsub] at h
        exact .inr ⟨h, fun j hj => absurd (Prod.mk.inj (Option.some.inj hj)).2.symm hsub⟩

theorem subs_acked {f f' : AccountFeed} {e : Step} {es : List Step} (h : Steps powi base64 f e f')
    (hs : ∀ sub i, f.subs sub = some i → Acked f.watches.length es sub i) :
    ∀ sub i, f'.subs sub = some i → Acked f.watches.length (es ++ [e]) sub i := by
  intro sub i hsub
  obtain ⟨-, rfl⟩ := h
  cases hi : e.input with
  | subscribe =>
    rw [hi] at hsub
    cases hsub
  | account j owner data rx =>
    rw [hi] at hsub
    have hsame : f.subs sub = some i := (congrFun (onAccountAt_subs f j owner data rx) sub).symm.trans hsub
    refine (hs sub i hsame).snoc (by rw [hi]; nofun) ?_
    rintro k ⟨v, rx', hv, -, -⟩
    rw [hi] at hv
    cases hv
  | message v rx =>
    rw [hi] at hsub
    have hsub' : (f.onMessageAt powi base64 v rx).1.subs sub = some i := hsub
    cases hh : f.hears base64 (.message v rx) with
    | some u =>
      obtain ⟨hack, heq⟩ : ackOf v = none ∧ f.onMessageAt powi base64 v rx = _ := onMessageAt_some hh
      rw [heq, onAccountAt_subs] at hsub'
      refine (hs sub i hsub').snoc (by rw [hi]; nofun) ?_
      rintro k ⟨v', rx', hv, hack', -⟩
      rw [hi] at hv
      cases hv
      rw [hack] at hack'
      cases hack'
    | none =>
      rw [onMessageAt_none hh] at hsub'
      rcases subsAfter_eq_some hsub' with ⟨hack, hlt⟩ | ⟨hsame, hother⟩
      · exact ⟨es, e, [], rfl, ⟨v, rx, hi, hack, hlt⟩, fun e' he' => absurd he' List.not_mem_nil⟩
      · refine (hs sub i hsame).snoc (by rw [hi]; nofun) ?_
        rintro k ⟨v', rx', hv, hack, hlt⟩
        rw [hi] at hv
        cases hv
        exact hother k hack hlt

/-! ### What came of each watch -/

namespace Step

/-- The sample a step emitted: when, and of which price. -/
def sampled (e : Step) : Option (Ts × Binary64) :=
  if e.events.any Event.isSample then e.tick.map fun t => (e.now, t.price) else none

/-- The step disabled its watch. -/
def fails (e : Step) : Bool := e.events.any Event.isError

/-- When the mean of a pair was emitted. -/
def mean (e : Step) : Option Ts := if e.events.any Event.isMean then some e.now else none

end Step

/-- The samples of a watch, in order. -/
def samplesOf (i : ℕ) (es : List Step) : List (Ts × Binary64) :=
  es.filterMap fun e => if e.watch = some i then e.sampled else none

/-- When means were emitted, in order. -/
def meansOf (es : List Step) : List Ts := es.filterMap Step.mean

/-- How far apart two samples are at least: an unchanged price waits for the heartbeat. -/
def Apart (interval : ℤ) (a b : Ts × Binary64) : Prop :=
  interval ≤ b.1.micros - a.1.micros ∧ (eq a.2 b.2 = true → heartbeatUs ≤ b.1.micros - a.1.micros)

/-- The same of the time the feed measures. -/
def Due (interval : ℤ) (a b : Ts × Binary64) : Prop :=
  interval ≤ a.1.since b.1 ∧ (eq a.2 b.2 = true → heartbeatUs ≤ a.1.since b.1)

theorem due_apart {interval : ℤ} {a b : Ts × Binary64} (ha : a.1.Clocked) (hb : b.1.Clocked) :
    Due interval a b ↔ Apart interval a b := by
  rw [Due, Apart, Ts.since_eq ha hb]

theorem samplesOf_snoc (i : ℕ) (es : List Step) (e : Step) :
    samplesOf i (es ++ [e]) = samplesOf i es ++ (if e.watch = some i then e.sampled else none).toList := by
  rw [samplesOf, List.filterMap_append]
  congr 1

theorem meansOf_snoc (es : List Step) (e : Step) : meansOf (es ++ [e]) = meansOf es ++ e.mean.toList := by
  rw [meansOf, List.filterMap_append]
  congr 1

theorem samples_spec (w : Watch) (r : Reading) (now : Ts) :
    (AccountFeed.samples w r now).any Event.isSample = true ∧ (AccountFeed.samples w r now).any Event.isError = false ∧
      (AccountFeed.samples w r now).any Event.isMean = false := by
  unfold AccountFeed.samples
  split <;> exact ⟨rfl, rfl, rfl⟩

theorem Spread.spec {f : AccountFeed} {now : Ts} {spreads : List Event} {last : Option Ts} (h : Spread f now spreads last) :
    spreads.any Event.isSample = false ∧ spreads.any Event.isError = false ∧
      (if spreads.any Event.isMean then last = some now ∧ ∀ t ∈ f.lastSpread, f.emitIntervalUs ≤ t.since now
        else last = f.lastSpread) := by
  cases h with
  | nothing => exact ⟨rfl, rfl, rfl⟩
  | shown mean rest hdue hrest =>
    refine ⟨?_, ?_, ?_⟩
    · rw [List.any_eq_false]
      intro e he
      rcases List.mem_cons.mp he with rfl | he
      · exact Bool.false_ne_true
      · obtain ⟨x, rfl⟩ := hrest e he
        exact Bool.false_ne_true
    · rw [List.any_eq_false]
      intro e he
      rcases List.mem_cons.mp he with rfl | he
      · exact Bool.false_ne_true
      · obtain ⟨x, rfl⟩ := hrest e he
        exact Bool.false_ne_true
    · exact (if_pos rfl).mpr ⟨rfl, hdue⟩

theorem read_price {w : Watch} {i : ℕ} {owner : String} {data : Bytes} {rx : Receipt} {r : Reading}
    (h : w.read powi i owner data rx = .ok r) : owner = w.owner ∧ r.hot.price = r.price := by
  unfold Watch.read at h
  split at h
  · cases h
  · rename_i howner
    refine ⟨of_not_not howner, ?_⟩
    cases w with
    | pool dex kind address pair base quote baseDecimals quoteDecimals =>
      simp only at h
      split at h
      · cases h
        rfl
      · cases h
    | oracle symbol address feedId =>
      simp only at h
      split at h
      · split at h
        · cases h
          rfl
        · cases h
      · cases h

/-- A sample is due when it is far enough from the last one. -/
theorem due_iff {f : AccountFeed} {st : WatchState} {last : Option (Ts × Binary64)} {price : Binary64} {now : Ts}
    (he : st.lastEmit = last.map Prod.fst) (hp : st.lastPrice = last.map Prod.snd) :
    f.due st price now = true ↔ ∀ s ∈ last, Due f.emitIntervalUs s (now, price) := by
  unfold AccountFeed.due Due
  rw [he, hp]
  cases last with
  | none => simp
  | some s =>
    simp only [Option.map_some, Option.all_some, Option.any_some, Option.mem_def, Option.some.injEq, forall_eq',
      Bool.and_eq_true, Bool.or_eq_true, Bool.not_eq_true', decide_eq_true_eq]
    refine and_congr_right fun _ => ?_
    cases eq s.2 price <;> simp

/-- What a run has done, and what the feed keeps of it. -/
structure Watched (ws : List Watch) (interval : ℤ) (es : List Step) (f : AccountFeed) : Prop where
  watches : f.watches = ws
  every : f.emitIntervalUs = interval
  emitted : ∀ i, (f.state i).lastEmit = (samplesOf i es).getLast?.map Prod.fst
  price : ∀ i, (f.state i).lastPrice = (samplesOf i es).getLast?.map Prod.snd
  apart : ∀ i, (samplesOf i es).IsChain (Due interval)
  spread : f.lastSpread = (meansOf es).getLast?
  means : (meansOf es).IsChain fun a b => interval ≤ a.since b
  disabled : ∀ i, (f.state i).disabled = true ↔ ∃ e ∈ es, e.watch = some i ∧ e.fails = true
  subs : ∀ sub i, f.subs sub = some i → Acked ws.length es sub i

theorem watched_new (ws : List Watch) (interval : ℕ) :
    Watched ws (wrapI64 interval) [] (AccountFeed.new ws interval) := by
  generalize hI : wrapI64 interval = I
  have hnew : AccountFeed.new ws interval = ⟨ws, fun _ => ⟨none, none, none, false⟩, fun _ => none, I, none⟩ := by
    rw [AccountFeed.new, hI]
  rw [hnew]
  refine ⟨rfl, rfl, fun i => rfl, fun i => rfl, fun i => List.isChain_nil, rfl, List.isChain_nil, fun i => ?_, fun sub i h => ?_⟩
  · simp
  · cases h

/-- A decoded account is sampled when that is due. -/
theorem sampled_of_decoded {f : AccountFeed} {e : Step} {u : Update} {w : Watch} {r : Reading} {spreads : List Event}
    {last : Option Ts} (hnow : e.now = u.rx.now) (hr : w.read powi u.watch u.owner u.data u.rx = .ok r)
    (htick : e.tick = some r.hot)
    (hevents : e.events =
      (if f.due (f.state u.watch) r.price u.rx.now then AccountFeed.samples w r u.rx.now else []) ++ spreads)
    (hspread : Spread f u.rx.now spreads last) :
    e.sampled = if f.due (f.state u.watch) r.price u.rx.now then some (u.rx.now, r.price) else none := by
  have hany : (if f.due (f.state u.watch) r.price u.rx.now then AccountFeed.samples w r u.rx.now else []).any
      Event.isSample = f.due (f.state u.watch) r.price u.rx.now := by
    cases f.due (f.state u.watch) r.price u.rx.now
    · rfl
    · exact (samples_spec w r u.rx.now).1
  rw [Step.sampled, hevents, List.any_append, hspread.spec.1, Bool.or_false, hany, htick, Option.map_some,
    (read_price hr).2, hnow]

theorem samplesOf_unsampled {e : Step} (h : e.sampled = none) (i : ℕ) (es : List Step) :
    samplesOf i (es ++ [e]) = samplesOf i es := by
  rw [samplesOf_snoc, h, ite_self, Option.toList_none, List.append_nil]

theorem exists_snoc {i : ℕ} {es : List Step} {e : Step} :
    (∃ e' ∈ es ++ [e], e'.watch = some i ∧ e'.fails = true) ↔
      (∃ e' ∈ es, e'.watch = some i ∧ e'.fails = true) ∨ (e.watch = some i ∧ e.fails = true) := by
  constructor
  · rintro ⟨e', he', h⟩
    rcases List.mem_append.mp he' with he' | he'
    · exact .inl ⟨e', he', h⟩
    · rw [List.mem_singleton.mp he'] at h
      exact .inr h
  · rintro (⟨e', he', h⟩ | h)
    · exact ⟨e', List.mem_append_left _ he', h⟩
    · exact ⟨e, List.mem_append_right _ (List.mem_singleton_self e), h⟩

theorem isChain_snoc {α : Type} {R : α → α → Prop} {l : List α} {a : α} (h : l.IsChain R) (ha : ∀ b ∈ l.getLast?, R b a) :
    (l ++ [a]).IsChain R := by
  refine List.isChain_append.mpr ⟨h, List.isChain_singleton a, fun b hb c hc => ?_⟩
  rw [List.head?_cons, Option.mem_def, Option.some.injEq] at hc
  exact hc ▸ ha b hb

theorem noted_spec (f : AccountFeed) (st : WatchState) (r : Reading) (now : Ts) :
    (f.noted st r now).lastEmit = (if f.due st r.price now then some now else st.lastEmit) ∧
      (f.noted st r now).lastPrice = (if f.due st r.price now then some r.price else st.lastPrice) ∧
      (f.noted st r now).disabled = st.disabled := by
  have hsame : f.due { st with mid := if r.side = .mid then some (now, r.price) else st.mid } r.price now =
      f.due st r.price now := rfl
  unfold AccountFeed.noted
  simp only [hsame]
  split <;> exact ⟨rfl, rfl, rfl⟩

theorem Watched.step {ws : List Watch} {interval : ℤ} {es : List Step} {f f' : AccountFeed} {e : Step}
    (h : Watched ws interval es f) (hs : Steps powi base64 f e f') : Watched ws interval (es ++ [e]) f' := by
  have hsubs := subs_acked hs (by rw [h.watches]; exact h.subs)
  rw [h.watches] at hsubs
  cases steps_outcome hs with
  | quiet subs hevents htick =>
    have hsampled : e.sampled = none := by rw [Step.sampled, hevents]; rfl
    have hfails : e.fails = false := by rw [Step.fails, hevents]; rfl
    have hmean : e.mean = none := by rw [Step.mean, hevents]; rfl
    have hmeans : meansOf (es ++ [e]) = meansOf es := by rw [meansOf_snoc, hmean]; exact List.append_nil _
    refine ⟨h.watches, h.every, fun i => ?_, fun i => ?_, fun i => ?_, ?_, ?_, fun i => ?_, hsubs⟩
    · rw [samplesOf_unsampled hsampled]
      exact h.emitted i
    · rw [samplesOf_unsampled hsampled]
      exact h.price i
    · rw [samplesOf_unsampled hsampled]
      exact h.apart i
    · rw [hmeans]
      exact h.spread
    · rw [hmeans]
      exact h.means
    · rw [exists_snoc, hfails]
      simpa using h.disabled i
  | failed u w why message hears hwatch hw hd hr hevents htick =>
    have hsampled : e.sampled = none := by rw [Step.sampled, hevents]; rfl
    have hfails : e.fails = true := by rw [Step.fails, hevents]; rfl
    have hmean : e.mean = none := by rw [Step.mean, hevents]; rfl
    have hmeans : meansOf (es ++ [e]) = meansOf es := by rw [meansOf_snoc, hmean]; exact List.append_nil _
    -- the watch's prices stay as they were
    have hstate : ∀ i, (Function.update f.state u.watch { f.state u.watch with disabled := true } i).lastEmit =
        (f.state i).lastEmit ∧ (Function.update f.state u.watch { f.state u.watch with disabled := true } i).lastPrice =
        (f.state i).lastPrice := by
      intro i
      by_cases hi : i = u.watch
      · subst hi
        rw [Function.update_self]
        exact ⟨rfl, rfl⟩
      · rw [Function.update_of_ne hi]
        exact ⟨rfl, rfl⟩
    refine ⟨h.watches, h.every, fun i => ?_, fun i => ?_, fun i => ?_, ?_, ?_, fun i => ?_, hsubs⟩
    · rw [samplesOf_unsampled hsampled, ← h.emitted i]
      exact (hstate i).1
    · rw [samplesOf_unsampled hsampled, ← h.price i]
      exact (hstate i).2
    · rw [samplesOf_unsampled hsampled]
      exact h.apart i
    · rw [hmeans]
      exact h.spread
    · rw [hmeans]
      exact h.means
    · rw [exists_snoc, hfails, hwatch, Option.some.injEq, ← h.disabled i]
      by_cases hi : i = u.watch
      · subst hi
        simp only [Function.update_self, and_self, or_true]
      · simp only [Function.update_of_ne hi, Ne.symm hi, false_and, or_false]
  | decoded u w r spreads last hears hwatch hnow hw hd hr htick hevents hspread =>
    obtain ⟨hnosample, hnoerror, hmeanspec⟩ := hspread.spec
    obtain ⟨hsample, herror, hnomean⟩ := samples_spec w r u.rx.now
    obtain ⟨hemit, hprice, hdisabled⟩ := noted_spec f (f.state u.watch) r u.rx.now
    have hdue : f.due (f.state u.watch) r.price u.rx.now = true ↔ _ := due_iff (h.emitted u.watch) (h.price u.watch)
    have hfails : e.fails = false := by
      rw [Step.fails, hevents, List.any_append, hnoerror, Bool.or_false]
      split
      · exact herror
      · rfl
    have hmean : e.mean = if spreads.any Event.isMean then some u.rx.now else none := by
      have hany : (if f.due (f.state u.watch) r.price u.rx.now then AccountFeed.samples w r u.rx.now else []).any
          Event.isMean = false := by
        split
        · exact hnomean
        · rfl
      rw [Step.mean, hevents, List.any_append, hany, Bool.false_or, hnow]
    have hsampled := sampled_of_decoded hnow hr htick hevents hspread
    have hsamples : ∀ i, samplesOf i (es ++ [e]) = samplesOf i es ++
        (if u.watch = i ∧ f.due (f.state u.watch) r.price u.rx.now = true then [(u.rx.now, r.price)] else []) := by
      intro i
      rw [samplesOf_snoc, hsampled, hwatch]
      by_cases hi : u.watch = i
      · subst hi
        cases f.due (f.state u.watch) r.price u.rx.now <;> simp
      · simp [hi]
    refine ⟨h.watches, h.every, fun i => ?_, fun i => ?_, fun i => ?_, ?_, ?_, fun i => ?_, hsubs⟩
    · rw [hsamples]
      by_cases hi : i = u.watch
      · subst hi
        simp only [Function.update_self, hemit, true_and]
        split
        · rw [List.getLast?_concat]
          rfl
        · rw [List.append_nil]
          exact h.emitted u.watch
      · simp only [Function.update_of_ne hi, Ne.symm hi, false_and, if_false, List.append_nil]
        exact h.emitted i
    · rw [hsamples]
      by_cases hi : i = u.watch
      · subst hi
        simp only [Function.update_self, hprice, true_and]
        split
        · rw [List.getLast?_concat]
          rfl
        · rw [List.append_nil]
          exact h.price u.watch
      · simp only [Function.update_of_ne hi, Ne.symm hi, false_and, if_false, List.append_nil]
        exact h.price i
    · rw [hsamples]
      split
      · rename_i hcase
        obtain ⟨rfl, hd'⟩ := hcase
        refine isChain_snoc (h.apart _) ?_
        rw [← h.every]
        exact hdue.mp hd'
      · rw [List.append_nil]
        exact h.apart i
    · rw [meansOf_snoc, hmean]
      split
      · rename_i hany
        rw [if_pos hany] at hmeanspec
        rw [Option.toList_some, List.getLast?_concat]
        exact hmeanspec.1
      · rename_i hany
        rw [if_neg hany] at hmeanspec
        rw [Option.toList_none, List.append_nil, ← h.spread]
        exact hmeanspec
    · rw [meansOf_snoc, hmean]
      split
      · rename_i hany
        rw [if_pos hany] at hmeanspec
        refine isChain_snoc h.means ?_
        rw [← h.spread, ← h.every]
        exact hmeanspec.2
      · rw [Option.toList_none, List.append_nil]
        exact h.means
    · rw [exists_snoc, hfails, ← h.disabled i]
      by_cases hi : i = u.watch
      · subst hi
        simp [hdisabled]
      · simp [Function.update_of_ne hi]

theorem run_watched {ws : List Watch} {interval : ℕ} {es : List Step} {f : AccountFeed}
    (h : Run (Steps powi base64) (.new ws interval) es f) : Watched ws (wrapI64 interval) es f :=
  h.history (P := Watched ws (wrapI64 interval)) (watched_new ws interval) fun _ _ _ _ _ hp hs => hp.step hs

theorem run_played (f : AccountFeed) (inputs : List Input) :
    Run (Steps powi base64) f (f.played powi base64 inputs).1 (f.played powi base64 inputs).2 := by
  induction inputs generalizing f with
  | nil => exact .nil
  | cons input rest ih =>
    have hstep : Steps powi base64 f (f.stepOf powi base64 input) (f.take powi base64 input).1 := ⟨rfl, rfl⟩
    exact (Run.single hstep).append (ih _)

/-! ### Main results -/

/-- The last sample of watch `i` tells of this price: it is one, or too near for another. -/
def Told (interval : ℤ) (i : ℕ) (es : List Step) (now : Ts) (price : Binary64) : Prop :=
  ∃ s, (samplesOf i es).getLast? = some s ∧
    (s = (now, price) ∨ now.micros - s.1.micros < interval ∨ (eq s.2 price = true ∧ now.micros - s.1.micros < heartbeatUs))

theorem mem_samplesOf {i : ℕ} {es : List Step} {s : Ts × Binary64} (h : s ∈ samplesOf i es) : ∃ e ∈ es, s.1 = e.now := by
  obtain ⟨e, he, hs⟩ := List.mem_filterMap.mp h
  split at hs
  · unfold Step.sampled at hs
    split at hs
    · obtain ⟨tick, -, rfl⟩ := Option.map_eq_some_iff.mp hs
      exact ⟨e, he, rfl⟩
    · cases hs
  · cases hs

theorem mem_meansOf {es : List Step} {t : Ts} (h : t ∈ meansOf es) : ∃ e ∈ es, t = e.now := by
  obtain ⟨e, he, hs⟩ := List.mem_filterMap.mp h
  unfold Step.mean at hs
  split at hs
  · exact ⟨e, he, (Option.some.inj hs).symm⟩
  · cases hs

/-- A price of 150, exact: the power of ten is 1. -/
def pythAccount : Bytes := account 133 [(40, 1, 1), (73, 8, 150)]

def receiptAt (seconds : ℤ) : Receipt := ⟨0, Ts.ofSecs seconds, none, none⟩

/-- The same price thrice within six seconds, then an account of another program. -/
def fourAccounts : List Input :=
  [.account 0 pythReceiverProgram pythAccount (receiptAt 0), .account 0 pythReceiverProgram pythAccount (receiptAt 1),
    .account 0 pythReceiverProgram pythAccount (receiptAt 6), .account 0 "other" pythAccount (receiptAt 7)]

/-- A feed of one oracle, every 0.4 s, and what it does with the four accounts. -/
def fourSteps : List Step :=
  ((AccountFeed.new [.oracle "SOL/USD" ⟨1⟩ (List.replicate 32 0)] 400000).played (fun _ _ => lit 1) (fun _ => none)
    fourAccounts).1

/-- How an account came to its watch: over RPC, or in a notification of the subscription
last acknowledged for that watch on this connection. -/
def Brought (base64 : String → Option Bytes) (n : ℕ) (before : List Step) (input : Input) (u : Update) : Prop :=
  input = .account u.watch u.owner u.data u.rx ∨
    ∃ v rx sub, input = .message v rx ∧ subscriptionOf v = some sub ∧ Acked n before sub u.watch ∧
      accountIn base64 u.watch v rx = some u

theorem hears_brought {f : AccountFeed} {n : ℕ} {before : List Step} {input : Input} {u : Update}
    (hs : ∀ sub i, f.subs sub = some i → Acked n before sub i) (h : f.hears base64 input = some u) :
    Brought base64 n before input u := by
  cases input with
  | subscribe => cases h
  | account i owner data rx =>
    cases h
    exact .inl rfl
  | message v rx =>
    rw [hears_message] at h
    split at h
    · cases h
    · obtain ⟨i, hi, hu⟩ := Option.bind_eq_some_iff.mp h
      obtain ⟨sub, hsub, hwatch⟩ := Option.bind_eq_some_iff.mp hi
      obtain ⟨data, -, hu'⟩ := Option.map_eq_some_iff.mp hu
      have hi' : u.watch = i := by rw [← hu']
      subst hi'
      exact .inr ⟨v, rx, sub, rfl, hsub, hs sub _ hwatch, hu⟩

/-- What the account says, as a tick: the mid of the pool's own pair, or a price of the oracle's own feed. -/
def Tells (powi : Binary64 → ℤ → Binary64) (w : Watch) (u : Update) (tick : HotTick) : Prop :=
  match w with
  | .pool dex kind _ pair base quote baseDecimals quoteDecimals =>
    ∃ m mid, decodePool powi kind u.data (decimalsOf base quote baseDecimals quoteDecimals) = some m ∧
      m.priceOf base quote = some mid ∧
      tick = .pool u.watch dex pair mid u.rx.slot u.rx.headSlot u.rx.received u.rx.now
  | .oracle symbol _ feedId =>
    ∃ q, decodePythPriceUpdate powi u.data = some q ∧ q.feedId = feedId ∧
      tick = .oracle symbol q.price q.conf q.publishTime (some q.postedSlot) u.rx.received u.rx.now

theorem read_tells {w : Watch} {u : Update} {r : Reading} (h : w.read powi u.watch u.owner u.data u.rx = .ok r) :
    Tells powi w u r.hot := by
  unfold Watch.read at h
  split at h
  · cases h
  cases w with
  | pool dex kind address pair base quote baseDecimals quoteDecimals =>
    simp only at h
    split at h
    · rename_i p hp
      obtain ⟨m, hm, hmid⟩ := Option.bind_eq_some_iff.mp hp
      cases h
      exact ⟨m, p, hm, hmid, rfl⟩
    · cases h
  | oracle symbol address feedId =>
    simp only at h
    split at h
    · rename_i q hq
      split at h
      · rename_i hfeed
        cases h
        exact ⟨q, hq, hfeed, rfl⟩
      · cases h
    · cases h

/-- The tick is of an account of this watch: of the program that owns it, and decoded. -/
def Own (powi : Binary64 → ℤ → Binary64) (base64 : String → Option Bytes) (ws : List Watch) (before : List Step) (e : Step)
    (tick : HotTick) : Prop :=
  ∃ u w, e.watch = some u.watch ∧ ws[u.watch]? = some w ∧ Brought base64 ws.length before e.input u ∧
    u.owner = w.owner ∧ Tells powi w u tick ∧ ∀ e' ∈ before, e'.watch = some u.watch → e'.fails = false

/-- A step of a watch tells nothing, or the watch was not disabled before it. -/
theorem Outcome.enabled {f f' : AccountFeed} {e : Step} {i : ℕ} (h : Outcome powi base64 f e f') (hwatch : e.watch = some i) :
    e.events = [] ∧ e.tick = none ∨ (f.state i).disabled = false := by
  cases h with
  | quiet subs hevents hnone => exact .inl ⟨hevents, hnone⟩
  | failed u w why message hears hwatch' hw hd hr hevents hnone =>
    rw [hwatch, Option.some.injEq] at hwatch'
    exact .inr (hwatch' ▸ hd)
  | decoded u w r spreads last hears hwatch' hnow hw hd hr htick hevents hspread =>
    rw [hwatch, Option.some.injEq] at hwatch'
    exact .inr (hwatch' ▸ hd)

/-- **Ticks are the watch's own.** A tick is of an account that came for its
watch: read over RPC, or notified on the subscription acknowledged for it on
this connection; the account is owned by the watch's program and decodes. A
watch fails once, and gives nothing after that, on whatever connection. -/
theorem ticks_are_own {ws : List Watch} {interval : ℕ} {es : List Step} {f : AccountFeed}
    (h : Run (Steps powi base64) (.new ws interval) es f) :
    (∀ before e after tick, es = before ++ e :: after → e.tick = some tick → Own powi base64 ws before e tick) ∧
    ∀ before e after i, es = before ++ e :: after → e.watch = some i → e.fails = true →
      (∀ e' ∈ before, e'.watch = some i → e'.fails = false) ∧
      ∀ e' ∈ after, e'.watch = some i → e'.events = [] ∧ e'.tick = none := by
  have hat : ∀ before e after, es = before ++ e :: after →
      ∃ f₀ f₁, Watched ws (wrapI64 interval) before f₀ ∧ Outcome powi base64 f₀ e f₁ := by
    rintro before e after rfl
    rw [← List.singleton_append, ← List.append_assoc] at h
    obtain ⟨f₁, hpre, -⟩ := h.split
    obtain ⟨f₀, hbefore, hs⟩ := hpre.last
    exact ⟨f₀, f₁, run_watched hbefore, steps_outcome hs⟩
  have hnever : ∀ {before : List Step} {f₀ : AccountFeed} {i : ℕ}, Watched ws (wrapI64 interval) before f₀ →
      (f₀.state i).disabled = false → ∀ e' ∈ before, e'.watch = some i → e'.fails = false := by
    intro before f₀ i hw hd e' he' hwatch
    by_contra hfails
    have hdisabled := (hw.disabled i).mpr ⟨e', he', hwatch, by simpa using hfails⟩
    rw [hd] at hdisabled
    cases hdisabled
  refine ⟨fun before e after tick hes htick => ?_, fun before e after i hes hwatch hfails => ⟨?_, fun e' he' hwatch' => ?_⟩⟩
  · obtain ⟨f₀, f₁, hw, hout⟩ := hat before e after hes
    cases hout with
    | quiet subs hevents hnone => rw [hnone] at htick; cases htick
    | failed u w why message hears hwatch' hw' hd hr hevents hnone => rw [hnone] at htick; cases htick
    | decoded u w r spreads last hears hwatch' hnow hw' hd hr htick' hevents hspread =>
      rw [htick, Option.some.injEq] at htick'
      rw [hw.watches] at hw'
      exact ⟨u, w, hwatch', hw', hears_brought hw.subs hears, (read_price hr).1, htick' ▸ read_tells hr, hnever hw hd⟩
  · obtain ⟨f₀, f₁, hw, hout⟩ := hat before e after hes
    rcases hout.enabled hwatch with ⟨hevents, -⟩ | hd
    · rw [Step.fails, hevents] at hfails
      cases hfails
    · exact hnever hw hd
  · obtain ⟨mid, after', hafter⟩ := List.append_of_mem he'
    have hes' : es = (before ++ e :: mid) ++ e' :: after' := by
      rw [hes, hafter]
      simp
    obtain ⟨f₀, f₁, hw, hout⟩ := hat _ e' after' hes'
    have hdisabled : (f₀.state i).disabled = true := (hw.disabled i).mpr ⟨e, by simp, hwatch, hfails⟩
    refine (hout.enabled hwatch').resolve_right fun hd => ?_
    rw [hdisabled] at hd
    cases hd

theorem ticks_are_own_oracle :
    (fourSteps.map fun e => (e.tick.isSome, e.fails)) = [(true, false), (true, false), (true, false), (false, true)] ∧
      ∀ before e after tick, fourSteps = before ++ e :: after → e.tick = some tick →
        Own (fun _ _ => lit 1) (fun _ => none) [.oracle "SOL/USD" ⟨1⟩ (List.replicate 32 0)] before e tick :=
  ⟨by decide +kernel, (ticks_are_own (run_played _ fourAccounts)).1⟩

end Market
end MobiusSearcher
