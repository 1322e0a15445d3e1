import Mathlib.Data.Finmap
import Mathlib.Data.Multiset.Basic

/-!
# Unordered maps

`Finmap` is used as the model of a hash map: equality is extensional and no iteration
order exists. This file adds the two observers hash maps have and `Finmap` lacks
(the values, the size), `entry(..).or_insert(..)`, and the lemmas about overwriting.
-/

namespace Lib.HashMap

variable {α β : Type*}

/-- The values of a map, with no order. -/
def values (s : Finmap fun _ : α => β) : Multiset β := s.entries.map Sigma.snd

/-- The number of entries. -/
def size (s : Finmap fun _ : α => β) : ℕ := Multiset.card s.entries

@[simp] theorem card_values (s : Finmap fun _ : α => β) :
    Multiset.card (values s) = size s := by
  simp [values, size]

/-- The entries whose key satisfies `p`. -/
def filterKeys (p : α → Prop) [DecidablePred p] (s : Finmap fun _ : α => β) :
    Finmap fun _ : α => β where
  entries := s.entries.filter fun e => p e.1
  nodupKeys := by
    refine Multiset.nodup_keys.mp (Multiset.nodup_of_le ?_ (Multiset.nodup_keys.mpr s.nodupKeys))
    exact Multiset.map_le_map (Multiset.filter_le _ _)

theorem card_keys (s : Finmap fun _ : α => β) : s.keys.card = size s := by
  simp [size, Finmap.keys, Multiset.keys]

variable [DecidableEq α]

theorem lookup_filterKeys (p : α → Prop) [DecidablePred p] (s : Finmap fun _ : α => β) (a : α) :
    (filterKeys p s).lookup a = if p a then s.lookup a else none := by
  apply Option.ext
  intro b
  rw [Finmap.lookup_eq_some_iff]
  show (⟨a, b⟩ : Σ _ : α, β) ∈ s.entries.filter (fun e => p e.1) ↔ _
  rw [Multiset.mem_filter]
  split
  · rename_i ha
    rw [Finmap.lookup_eq_some_iff]
    exact and_iff_left ha
  · rename_i ha
    simp [ha]

theorem keys_insert (s : Finmap fun _ : α => β) (a : α) (b : β) :
    (s.insert a b).keys = insert a s.keys := by
  apply Finset.ext
  intro x
  rw [Finset.mem_insert, Finmap.mem_keys, Finmap.mem_keys, Finmap.mem_insert]

theorem mem_values {s : Finmap fun _ : α => β} {b : β} :
    b ∈ values s ↔ ∃ a, s.lookup a = some b := by
  simp only [values, Multiset.mem_map, Sigma.exists, exists_eq_right, Finmap.lookup_eq_some_iff]

/-- A new key brings one value. -/
theorem values_insert_of_lookup_eq_none {s : Finmap fun _ : α => β} {a : α}
    (h : s.lookup a = none) (b : β) : values (s.insert a b) = b ::ₘ values s := by
  unfold values
  rw [Finmap.entries_insert_of_notMem (Finmap.lookup_eq_none.mp h), Multiset.map_cons]

/-- The entry at `a`, or `d` when there is none: `entry(a).or_insert(d)`. -/
def entryD (s : Finmap fun _ : α => β) (a : α) (d : β) : β := (s.lookup a).getD d

/-- Writing back what is already stored changes nothing. -/
theorem insert_eq_self {s : Finmap fun _ : α => β} {a : α} {b : β}
    (h : s.lookup a = some b) : s.insert a b = s := by
  refine Finmap.ext_lookup fun x => ?_
  by_cases hx : x = a
  · subst hx
    rw [Finmap.lookup_insert, h]
  · rw [Finmap.lookup_insert_of_ne _ hx]

theorem lookup_insert_eq_ite (s : Finmap fun _ : α => β) (a x : α) (b : β) :
    (s.insert a b).lookup x = if x = a then some b else s.lookup x := by
  by_cases hx : x = a
  · subst hx
    rw [Finmap.lookup_insert, if_pos rfl]
  · rw [Finmap.lookup_insert_of_ne _ hx, if_neg hx]

/-- An entry of an updated map is the new one or was there before. -/
theorem lookup_insert_cases {s : Finmap fun _ : α => β} {a x : α} {b c : β}
    (h : (s.insert a b).lookup x = some c) : (x = a ∧ c = b) ∨ s.lookup x = some c := by
  rw [lookup_insert_eq_ite] at h
  split at h
  · rename_i hx
    exact Or.inl ⟨hx, (Option.some.inj h).symm⟩
  · exact Or.inr h

end Lib.HashMap
