/-
# Compaction loses nothing

At every moment the log of a session is its blocks' rows followed by the rows
of `events` (`Shelved`): written batches extend the second part, a compaction
moves the front of it to the first. So `load_events` gives the log back, each
event as it is read from its own text, in the order of the sequence numbers
(`load_events_exact`).

The tables order rows by `seq as i64`, which agrees with the order of `u64`
on each side of `2 ^ 63` and not across (`crossing_reversed`).

Key definitions: `Codec.Sound`, `Shelved`.
Key theorems: `Shelved.after`, `Shelved.load`, `load_events_exact`.
-/
import MobiusSearcher.Storage.Log

namespace MobiusSearcher.Storage

open Machine Table Store

variable {φ δ β : Type*}

/-- Compression is undone, and an event is one line of text. -/
structure Codec.Sound (c : Codec φ δ β) : Prop where
  inflate_deflate : ∀ t, c.inflate (c.deflate t) = some t
  no_newline : ∀ e, '\n' ∉ c.toJson e

/-- The row of a numbered event. -/
def rowOf (c : Codec φ δ β) (p : UInt64 × Event φ δ) : Row := row c p.1 p.2

theorem seq_rowOf (c : Codec φ δ β) (p : UInt64 × Event φ δ) : (rowOf c p).seq = wrapI64 p.1.toNat := by
  rw [rowOf, row]

/-- The log of `session` is the rows of its blocks, then those of `events`. -/
def Shelved (c : Codec φ δ β) (s : Store β) (session : String) (log : List (UInt64 × Event φ δ)) : Prop :=
  ∃ cs : List (Chunk Row), s.blocks session = cs.map (block c) ∧ flatten cs ++ s.events session = log.map (rowOf c)

variable {c : Codec φ δ β} {s : Store β} {session : String} {log : List (UInt64 × Event φ δ)}

theorem shelved_new : Shelved c Store.new session [] := ⟨[], rfl, rfl⟩

/-! ### Writing -/

/-- The rows of a batch that is taken are those of the events that are kept, at the end. -/
theorem writeRows_some {known : Bool} {takes : UInt64 → Bool} :
    ∀ {batch : List (UInt64 × Event φ δ)} {thin thin' : Thinning} {rows rows' : List Row},
    Increasing Row.seq (rows ++ (thin.kept batch).map (rowOf c)) →
    writeRows c known takes thin rows batch = (thin', some rows') →
    rows' = rows ++ (thin.kept batch).map (rowOf c)
  | [], thin, thin', rows, rows', _, h => by
    simp only [writeRows, Prod.mk.injEq, Option.some.injEq] at h
    simp [Thinning.kept, ← h.2]
  | p :: batch, thin, thin', rows, rows', hinc, h => by
    simp only [writeRows] at h
    rw [Thinning.kept] at hinc ⊢
    by_cases hkeep : (thin.keep p.2).1
    · rw [if_pos hkeep] at h hinc ⊢
      by_cases hok : (known && takes p.1) = true
      · rw [if_pos hok] at h
        rw [List.map_cons] at hinc ⊢
        have hput : put Row.seq rows (rowOf c p) = rows ++ [rowOf c p] :=
          put_of_lt fun x hx => hinc.cross x hx _ (List.mem_cons_self ..)
        rw [show row c p.1 p.2 = rowOf c p from rfl, hput] at h
        have hrest := writeRows_some (by simpa using hinc) h
        rw [hrest, List.append_assoc, List.singleton_append]
      · rw [if_neg hok] at h
        exact absurd (congrArg Prod.snd h) (by simp)
    · rw [if_neg hkeep] at h hinc ⊢
      exact writeRows_some hinc h

/-- What a batch does: it is written whole to the session it is for, or no table changes. -/
theorem writeBatch_cases (s : Store β) (target : String) (batch : List (UInt64 × Event φ δ)) (disk : Disk) :
    (∃ thin rows, writeRows c (target ∈ s.sessions) disk.takes s.thin (s.events target) batch = (thin, some rows) ∧
      s.writeBatch c target batch disk = ({ s with thin, events := Function.update s.events target rows }, .ok ())) ∨
    ∃ thin, s.writeBatch c target batch disk = ({ s with thin }, .error .sql) := by
  unfold writeBatch
  by_cases hb : disk.begins
  · rw [if_pos hb]
    rcases hw : writeRows c (target ∈ s.sessions) disk.takes s.thin (s.events target) batch with ⟨thin, _ | rows⟩
    · exact .inr ⟨thin, rfl⟩
    · by_cases hcm : disk.commits
      · exact .inl ⟨thin, rows, rfl, by simp [hcm]⟩
      · exact .inr ⟨thin, by simp [hcm]⟩
  · rw [if_neg hb]
    exact .inr ⟨s.thin, rfl⟩

theorem Shelved.writeBatch (h : Shelved c s session log) {target : String} {batch : List (UInt64 × Event φ δ)}
    {disk : Disk} (hinc : Increasing Row.seq ((log ++ s.wrote c session (.writeBatch target batch disk)).map (rowOf c))) :
    Shelved c (s.writeBatch c target batch disk).1 session
      (log ++ s.wrote c session (.writeBatch target batch disk)) := by
  obtain ⟨cs, hblocks, hrows⟩ := h
  rcases writeBatch_cases (c := c) s target batch disk with ⟨thin, rows, hw, hok⟩ | ⟨thin, herr⟩
  · by_cases htarget : target = session
    · subst htarget
      have hwrote : s.wrote c target (.writeBatch target batch disk) = s.thin.kept batch := by
        simp [wrote, hok, Except.isOk, Except.toBool]
      rw [hwrote, List.map_append] at hinc
      rw [hwrote]
      rw [← hrows, List.append_assoc] at hinc
      have happ := writeRows_some hinc.right hw
      rw [hok]
      refine ⟨cs, hblocks, ?_⟩
      show flatten cs ++ Function.update s.events target rows target = _
      rw [Function.update_self, happ, ← List.append_assoc, hrows, List.map_append]
    · have hwrote : s.wrote c session (.writeBatch target batch disk) = [] := by simp [wrote, htarget]
      rw [hwrote, List.append_nil, hok]
      refine ⟨cs, hblocks, ?_⟩
      show flatten cs ++ Function.update s.events target rows session = _
      rw [Function.update_of_ne (Ne.symm htarget), hrows]
  · have hwrote : s.wrote c session (.writeBatch target batch disk) = [] := by
      simp [wrote, herr, Except.isOk, Except.toBool]
    rw [hwrote, List.append_nil, herr]
    exact ⟨cs, hblocks, hrows⟩

/-! ### Compacting -/

/-- The blocks of rows past all that are there are appended. -/
theorem putBlocks {cs : List (Chunk Row)} {rows : List Row} (n : ℕ) (hinc : Increasing Row.seq (flatten cs ++ rows)) :
    ((chunks n rows).map (block c)).foldl (put Block.firstSeq) (cs.map (block c)) =
      (cs ++ chunks n rows).map (block c) := by
  rw [List.map_append]
  apply putAll_of_increasing
  rw [← List.map_append]
  have hfl : Increasing Row.seq (flatten (cs ++ chunks n rows)) := by
    rw [flatten_append, flatten_chunks]
    exact hinc
  exact List.pairwise_map.mpr (increasing_firsts hfl)

theorem Shelved.compact (h : Shelved c s session log) (hinc : Increasing Row.seq (log.map (rowOf c)))
    (target : String) (now : Ts) (force commits : Bool) :
    Shelved c (s.compact c target now force commits).1 session log := by
  obtain ⟨cs, hblocks, hrows⟩ := h
  rw [← hrows] at hinc
  unfold Store.compact
  simp only
  by_cases htarget : target = session
  · subst htarget
    rw [ordered_of_increasing hinc.right]
    set k := compactTake (s.events target) now force
    rcases List.eq_nil_or_concat' ((s.events target).take k) with hnil | ⟨init, last, htake⟩
    · rw [hnil]
      exact ⟨cs, hblocks, hrows⟩
    · rw [htake, List.getLast?_append, List.getLast?_singleton]
      by_cases hcm : commits
      · have hsplit : (init ++ [last]) ++ (s.events target).drop k = s.events target := by
          rw [← htake, List.take_append_drop]
        have hmoved : Increasing Row.seq (flatten cs ++ (init ++ [last])) := by
          rw [← hsplit, ← List.append_assoc] at hinc
          exact hinc.left
        have hleft : above Row.seq last.seq (s.events target) = (s.events target).drop k := by
          have hinc' := hinc.right
          rw [← hsplit] at hinc'
          have habove := above_of_increasing hinc'
          rwa [hsplit] at habove
        simp only [hcm, ↓reduceIte, Option.some_or]
        refine ⟨cs ++ chunks blockEvents (init ++ [last]), ?_, ?_⟩
        · simp only [Function.update_self]
          rw [hblocks, putBlocks blockEvents hmoved]
        · simp only [Function.update_self]
          rw [hleft, flatten_append, flatten_chunks, List.append_assoc, hsplit, hrows]
      · simp only [hcm, Option.some_or]
        exact ⟨cs, hblocks, hrows⟩
  · rcases ((ordered Row.seq (s.events target)).take (compactTake (s.events target) now force)).getLast? with _ | last
    · exact ⟨cs, hblocks, hrows⟩
    · by_cases hcm : commits
      · simp only [hcm, ↓reduceIte]
        refine ⟨cs, ?_, ?_⟩
        · simp only [Function.update_of_ne (Ne.symm htarget), hblocks]
        · simp only [Function.update_of_ne (Ne.symm htarget), hrows]
      · simp only [hcm]
        exact ⟨cs, hblocks, hrows⟩

/-! ### Reading -/

/-- A block is read as the events of its rows. -/
theorem read_block (hc : c.Sound) {ch : Chunk Row} (hline : ∀ r ∈ ch.rows, '\n' ∉ r.json) :
    ∃ text, c.inflate (block c ch).data = some text ∧
      (text.splitOn '\n').filterMap c.fromJson = ch.rows.filterMap fun r => c.fromJson r.json := by
  refine ⟨List.intercalate ['\n'] (ch.rows.map Row.json), hc.inflate_deflate _, ?_⟩
  have hlines : ∀ l ∈ ch.rows.map Row.json, '\n' ∉ l := by
    intro l hl
    obtain ⟨r, hr, rfl⟩ := List.mem_map.mp hl
    exact hline r hr
  rw [List.splitOn_intercalate '\n' hlines (by simp [Chunk.rows]), List.filterMap_map]
  rfl

theorem read_blocks (hc : c.Sound) : ∀ {cs : List (Chunk Row)}, (∀ r ∈ flatten cs, '\n' ∉ r.json) →
    ∃ texts, (cs.map (block c)).mapM (fun b => c.inflate b.data) = some texts ∧
      texts.flatMap (fun text => (text.splitOn '\n').filterMap c.fromJson) =
        (flatten cs).filterMap fun r => c.fromJson r.json
  | [], _ => ⟨[], rfl, rfl⟩
  | ch :: cs, hline => by
    rw [flatten_cons] at hline
    obtain ⟨text, htext, hread⟩ := read_block hc fun r hr => hline r (List.mem_append_left _ hr)
    obtain ⟨texts, htexts, hreads⟩ := read_blocks hc fun r hr => hline r (List.mem_append_right _ hr)
    refine ⟨text :: texts, ?_, ?_⟩
    · rw [List.map_cons, List.mapM_cons, htext, htexts]
      rfl
    · rw [List.flatMap_cons, hread, hreads, flatten_cons, List.filterMap_append]

/-- The log is read as it was written, each event from its text. -/
theorem Shelved.load (hc : c.Sound) (h : Shelved c s session log) (hknown : session ∈ s.sessions)
    (hinc : Increasing Row.seq (log.map (rowOf c))) :
    s.loadEvents c session = .ok (log.filterMap fun p => c.fromJson (c.toJson p.2)) := by
  obtain ⟨cs, hblocks, hrows⟩ := h
  have hline : ∀ r ∈ flatten cs, '\n' ∉ r.json := by
    intro r hr
    have hmem : r ∈ log.map (rowOf c) := by
      rw [← hrows]
      exact List.mem_append_left _ hr
    obtain ⟨p, -, rfl⟩ := List.mem_map.mp hmem
    exact hc.no_newline p.2
  have hinc' : Increasing Row.seq (flatten cs ++ s.events session) := by rwa [hrows]
  have hfirst : Increasing Block.firstSeq (cs.map (block c)) :=
    List.pairwise_map.mpr (increasing_firsts hinc'.left)
  obtain ⟨texts, htexts, hreads⟩ := read_blocks hc hline
  rw [loadEvents, if_pos hknown, hblocks, ordered_of_increasing hfirst, htexts,
    ordered_of_increasing hinc'.right]
  show Except.ok (texts.flatMap _ ++ _) = _
  rw [hreads, ← List.filterMap_append, hrows, List.filterMap_map]
  rfl

/-! ### Runs -/

theorem Shelved.apply (h : Shelved c s session log) {op : Op φ δ}
    (hinc : Increasing Row.seq ((log ++ s.wrote c session op).map (rowOf c))) :
    Shelved c (s.apply c op) session (log ++ s.wrote c session op) := by
  cases op with
  | beginSession id =>
    rw [wrote, List.append_nil]
    exact h
  | reopen =>
    rw [wrote, List.append_nil]
    exact h
  | writeBatch target batch disk => exact h.writeBatch hinc
  | compact target now force commits =>
    rw [wrote, List.append_nil] at hinc ⊢
    exact h.compact hinc target now force commits

/-- The log of a session stays on the shelf through every run. -/
theorem Shelved.after : ∀ {ops : List (Op φ δ)} {s : Store β} {log : List (UInt64 × Event φ δ)},
    Shelved c s session log → Increasing Row.seq ((log ++ s.journal c session ops).map (rowOf c)) →
    Shelved c (s.after c ops) session (log ++ s.journal c session ops)
  | [], s, log, h, _ => by
    rw [journal, List.append_nil]
    exact h
  | op :: ops, s, log, h, hinc => by
    rw [journal, ← List.append_assoc] at hinc ⊢
    have hstep : Increasing Row.seq ((log ++ s.wrote c session op).map (rowOf c)) := by
      rw [List.map_append] at hinc
      exact hinc.left
    exact @Shelved.after ops _ _ (h.apply hstep) hinc

theorem kept_sublist : ∀ (thin : Thinning) (batch : List (UInt64 × Event φ δ)), (thin.kept batch).Sublist batch
  | _, [] => .slnil
  | thin, p :: batch => by
    rw [Thinning.kept]
    by_cases hkeep : (thin.keep p.2).1
    · rw [if_pos hkeep]
      exact (kept_sublist _ batch).cons_cons p
    · rw [if_neg hkeep]
      exact (kept_sublist _ batch).cons p

/-- The numbers in the log are among those offered, in their order. -/
theorem journal_sublist : ∀ (ops : List (Op φ δ)) (s : Store β),
    ((s.journal c session ops).map Prod.fst).Sublist (ops.flatMap (Op.offered session))
  | [], _ => .slnil
  | op :: ops, s => by
    rw [journal, List.map_append, List.flatMap_cons]
    refine List.Sublist.append ?_ (journal_sublist ops _)
    cases op with
    | writeBatch target batch disk =>
      rw [wrote, Op.offered]
      by_cases htarget : target = session
      · rw [if_pos htarget]
        split
        · exact (kept_sublist _ batch).map Prod.fst
        · exact List.nil_sublist _
      · rw [if_neg fun h => htarget h.1]
        exact List.nil_sublist _
    | beginSession id => exact List.nil_sublist _
    | reopen => exact List.nil_sublist _
    | compact target now force commits => exact List.nil_sublist _

/-- On one side of `2 ^ 63`, `seq as i64` keeps the order. -/
theorem cast_lt {a b : UInt64} (hab : a < b) (hside : a.toNat < 2 ^ 63 ↔ b.toNat < 2 ^ 63) :
    wrapI64 a.toNat < wrapI64 b.toNat := by
  have hlt : a.toNat < b.toNat := UInt64.lt_iff_toNat_lt.mp hab
  have hb : b.toNat < 2 ^ 64 := b.toNat_lt
  unfold wrapI64
  rw [Int.bmod_def, Int.bmod_def]
  omega

theorem increasing_rows (hlt : (log.map Prod.fst).Pairwise (· < ·))
    (hside : ∀ p ∈ log, ∀ q ∈ log, p.1.toNat < 2 ^ 63 ↔ q.1.toNat < 2 ^ 63) :
    Increasing Row.seq (log.map (rowOf c)) := by
  apply List.pairwise_map.mpr
  refine (List.pairwise_map.mp hlt).imp_of_mem ?_
  intro p q hp hq hpq
  have hs := hside p hp q hq
  rw [seq_rowOf, seq_rowOf]
  exact cast_lt hpq hs

/-- Everything is read back as itself if each one is. -/
theorem filterMap_eq_map_iff {α γ : Type*} {f : α → Option γ} {g : α → γ} : ∀ {l : List α},
    l.filterMap f = l.map g ↔ ∀ a ∈ l, f a = some (g a)
  | [] => by simp
  | a :: l => by
    rw [List.map_cons, List.forall_mem_cons, ← filterMap_eq_map_iff]
    cases hf : f a with
    | none =>
      rw [List.filterMap_cons_none hf]
      constructor
      · intro h
        have hlen := congrArg List.length h
        have hle := List.length_filterMap_le f l
        simp only [List.length_cons, List.length_map] at hlen
        omega
      · rintro ⟨h, -⟩
        cases h
    | some b =>
      rw [List.filterMap_cons_some hf, List.cons.injEq, Option.some.injEq]

/-- **The log is read back whole and in order.** After any calls on a new
store, whatever the database refused, `load_events` gives the written events
of a session that thinning kept, each as its own text is read, in increasing
sequence number; it gives exactly those events when each is read back from
its text as itself, and only then. The numbers in the log do not cross
`2 ^ 63`. -/
theorem load_events_exact (hc : c.Sound) (ops : List (Op φ δ)) (session : String)
    (hknown : session ∈ (Store.new.after c ops).sessions)
    (hinc : (ops.flatMap (Op.offered session)).Pairwise (· < ·))
    (hside : ∀ p ∈ Store.new.journal c session ops, ∀ q ∈ Store.new.journal c session ops,
      p.1.toNat < 2 ^ 63 ↔ q.1.toNat < 2 ^ 63) :
    ((Store.new.journal c session ops).map Prod.fst).Pairwise (· < ·) ∧
    (Store.new.after c ops).loadEvents c session =
      .ok ((Store.new.journal c session ops).filterMap fun p => c.fromJson (c.toJson p.2)) ∧
    ((Store.new.after c ops).loadEvents c session = .ok ((Store.new.journal c session ops).map Prod.snd) ↔
      ∀ p ∈ Store.new.journal c session ops, c.fromJson (c.toJson p.2) = some p.2) := by
  have hlt : ((Store.new.journal c session ops).map Prod.fst).Pairwise (· < ·) :=
    hinc.sublist (journal_sublist ops _)
  have hrows := increasing_rows (c := c) hlt hside
  have hshelf : Shelved c (Store.new.after c ops) session (Store.new.journal c session ops) := by
    simpa using @Shelved.after _ _ _ c session ops _ _ shelved_new (by simpa using hrows)
  have hload := hshelf.load hc hknown hrows
  refine ⟨hlt, hload, ?_⟩
  rw [hload, Except.ok.injEq]
  exact filterMap_eq_map_iff

/-! ### Two slots -/

/-- A slot event, with what it carries besides its time: the slot. -/
def slotEvent (slot : ℕ) : Event ℤ ℕ := .other .slot ⟨1000000⟩ slot

/-- Two slot events and their texts; texts are kept as they are. -/
def slotCodec : Codec ℤ ℕ (List Char) where
  toJson e :=
    if e = slotEvent 7 then "\x7b\"type\":\"slot\",\"data\":\x7b\"ts\":1000000,\"slot\":7\x7d\x7d".toList
    else if e = slotEvent 8 then "\x7b\"type\":\"slot\",\"data\":\x7b\"ts\":1000000,\"slot\":8\x7d\x7d".toList
    else []
  fromJson t :=
    if t = "\x7b\"type\":\"slot\",\"data\":\x7b\"ts\":1000000,\"slot\":7\x7d\x7d".toList then some (slotEvent 7)
    else if t = "\x7b\"type\":\"slot\",\"data\":\x7b\"ts\":1000000,\"slot\":8\x7d\x7d".toList then some (slotEvent 8)
    else none
  deflate t := t
  inflate t := some t

theorem slotCodec_sound : slotCodec.Sound where
  inflate_deflate _ := rfl
  no_newline e := by
    show '\n' ∉ (if _ then _ else _)
    split_ifs <;> decide

/-- A session, and two slot events under the numbers `a` and `b`. -/
def twoSlots (a b : UInt64) : List (Op ℤ ℕ) :=
  [.beginSession "S1", .writeBatch "S1" [(a, slotEvent 7), (b, slotEvent 8)] ⟨true, fun _ => true, true⟩]

theorem load_events_exact_two :
    (Store.new.after slotCodec (twoSlots 1 2)).loadEvents slotCodec "S1" = .ok [slotEvent 7, slotEvent 8] := by
  have hread : ∀ p ∈ Store.new.journal slotCodec "S1" (twoSlots 1 2),
      slotCodec.fromJson (slotCodec.toJson p.2) = some p.2 := by decide +kernel
  exact ((load_events_exact slotCodec_sound (twoSlots 1 2) "S1" (by decide +kernel) (by decide +kernel)
    (by decide +kernel)).2.2.mpr hread).trans (by decide +kernel)

/-- **Across `2 ^ 63` the order is lost.** Numbers that increase, both events
kept: they are read back the other way round. -/
theorem crossing_reversed :
    ((twoSlots (2 ^ 63 - 1) (2 ^ 63)).flatMap (Op.offered "S1")).Pairwise (· < ·) ∧
    (Store.new.journal slotCodec "S1" (twoSlots (2 ^ 63 - 1) (2 ^ 63))).map Prod.snd = [slotEvent 7, slotEvent 8] ∧
    (Store.new.after slotCodec (twoSlots (2 ^ 63 - 1) (2 ^ 63))).loadEvents slotCodec "S1" =
      .ok [slotEvent 8, slotEvent 7] := by
  decide +kernel

end MobiusSearcher.Storage
