/-
# Lists kept under keys

Facts about association lists (`AList`) whose values hold lists: taking a key
out, putting one in and changing the value of one only rearrange what is
held, up to what the changed value gained or lost.

Key definition: `held`.
Key theorems: `held_erase_perm`, `mem_held`, `count_held_update`.
-/
import Mathlib.Data.List.AList
import Mathlib.Tactic

namespace Keyed

/-- An association list with values of one type. -/
abbrev Map (κ β : Type*) := AList fun _ : κ => β

variable {κ : Type*} {β : Type*} {α : Type*}

/-- Everything the values hold. -/
def held (f : β → List α) (s : Map κ β) : List α := s.entries.flatMap fun e => f e.2

@[simp] theorem held_empty (f : β → List α) : held f (∅ : Map κ β) = [] := rfl

/-- Every value changed by `g`. -/
def mapValues {γ : Type*} (g : β → γ) (s : Map κ β) : Map κ γ :=
  ⟨s.entries.map (Sigma.map id fun _ => g), by
    have h := s.nodupKeys
    simpa [List.NodupKeys, List.keys, Function.comp_def, Sigma.map] using h⟩

theorem held_mapValues {γ : Type*} (f : γ → List α) (g : β → γ) (s : Map κ β) :
    held f (mapValues g s) = held (fun b => f (g b)) s := by
  simp [held, mapValues, List.flatMap_map, Sigma.map]

variable [DecidableEq κ]

theorem lookup_mapValues {γ : Type*} (g : β → γ) (s : Map κ β) (k : κ) :
    (mapValues g s).lookup k = (s.lookup k).map g :=
  List.dlookup_map₂ (f := fun _ => g) k

theorem entries_erase_perm {s : Map κ β} {k : κ} {b : β} (h : s.lookup k = some b) :
    s.entries.Perm (⟨k, b⟩ :: (s.erase k).entries) := by
  have hm : (⟨k, b⟩ : Sigma fun _ : κ => β) ∈ s.entries := AList.mem_lookup_iff.mp h
  obtain ⟨b', l₁, l₂, -, h1, h2⟩ := List.exists_of_kerase (List.mem_keys_of_mem hm)
  have hb : b' = b := by
    have hm' : (⟨k, b'⟩ : Sigma fun _ : κ => β) ∈ s.entries := by rw [h1]; simp
    have h' : s.lookup k = some b' := AList.mem_lookup_iff.mpr hm'
    rw [h] at h'
    exact (Option.some.inj h').symm
  subst hb
  show s.entries.Perm (⟨k, b'⟩ :: List.kerase k s.entries)
  rw [h2, h1]
  exact List.perm_middle

/-- What a key holds, and the rest. -/
theorem held_erase_perm (f : β → List α) {s : Map κ β} {k : κ} {b : β} (h : s.lookup k = some b) :
    (held f s).Perm (f b ++ held f (s.erase k)) := by
  have hp := (entries_erase_perm h).flatMap_right fun e => f e.2
  simpa [held] using hp

theorem held_insert (f : β → List α) (s : Map κ β) (k : κ) (b : β) :
    held f (s.insert k b) = f b ++ held f (s.erase k) := by
  unfold held
  rw [AList.entries_insert, List.flatMap_cons]
  rfl

theorem erase_of_lookup_none {s : Map κ β} {k : κ} (h : s.lookup k = none) : s.erase k = s := by
  apply AList.ext
  exact List.kerase_of_notMem_keys (AList.lookup_eq_none.mp h)

theorem held_insert_new (f : β → List α) {s : Map κ β} {k : κ} (h : s.lookup k = none) (b : β) :
    held f (s.insert k b) = f b ++ held f s := by
  rw [held_insert, erase_of_lookup_none h]

theorem mem_held {f : β → List α} {s : Map κ β} {a : α} :
    a ∈ held f s ↔ ∃ k b, s.lookup k = some b ∧ a ∈ f b := by
  simp only [held, List.mem_flatMap]
  constructor
  · rintro ⟨⟨k, b⟩, hm, ha⟩
    exact ⟨k, b, AList.mem_lookup_iff.mpr hm, ha⟩
  · rintro ⟨k, b, hk, ha⟩
    exact ⟨⟨k, b⟩, AList.mem_lookup_iff.mp hk, ha⟩

/-! ### How often something is held -/

section Count

variable [DecidableEq α]

theorem count_held_erase (f : β → List α) {s : Map κ β} {k : κ} {b : β} (h : s.lookup k = some b) (a : α) :
    (held f s).count a = (f b).count a + (held f (s.erase k)).count a := by
  rw [(held_erase_perm f h).count_eq, List.count_append]

theorem count_held_insert_new (f : β → List α) {s : Map κ β} {k : κ} (h : s.lookup k = none) (b : β) (a : α) :
    (held f (s.insert k b)).count a = (f b).count a + (held f s).count a := by
  rw [held_insert_new f h, List.count_append]

/-- Changing the value of a key changes what is held by what the value gains. -/
theorem count_held_update (f : β → List α) {s : Map κ β} {k : κ} {b : β} (h : s.lookup k = some b) (b' : β)
    (a : α) : (held f (s.insert k b')).count a + (f b).count a = (f b').count a + (held f s).count a := by
  rw [held_insert, List.count_append, count_held_erase f h]
  omega

/-- Pushing to the list of a key, which starts empty. -/
theorem count_held_push (s : Map κ (List α)) (k : κ) (x a : α) :
    (held id (s.insert k ((s.lookup k).getD [] ++ [x]))).count a = (held id s).count a + [x].count a := by
  cases h : s.lookup k with
  | none =>
    rw [count_held_insert_new id h]
    simp [Nat.add_comm]
  | some l =>
    have hu := count_held_update id h (l ++ [x]) a
    simp only [id_eq, List.count_append, Option.getD_some] at hu ⊢
    omega

end Count

end Keyed
