import Mathlib.Data.List.Sort
import Mathlib.Data.List.Destutter

/-!
# Sorting and removing repetitions

`Vec::sort` and then `Vec::dedup`, which drops an element that equals the one before it.
The result lists the elements in strictly increasing order, so it is determined by which
elements there are.

Sorting by a key leaves open where elements of one key stand. `exists_sortedBy_adjacent` says
which two elements may come to stand next to each other.
-/

namespace Lib.SortDedup

variable {α : Type*} [LinearOrder α]

def sortDedup (l : List α) : List α := (l.mergeSort (· ≤ ·)).destutter (· ≠ ·)

theorem mem_destutter' (l : List α) (a x : α) :
    x ∈ l.destutter' (· ≠ ·) a ↔ x = a ∨ x ∈ l := by
  induction l generalizing a with
  | nil => simp
  | cons b l ih =>
    by_cases hab : a = b
    · rw [List.destutter'_cons_neg _ (by simp [hab]), ih]
      simp [hab]
    · rw [List.destutter'_cons_pos _ hab, List.mem_cons, ih]
      simp

theorem mem_sortDedup {l : List α} {x : α} : x ∈ sortDedup l ↔ x ∈ l := by
  have hdestutter : ∀ l : List α, x ∈ l.destutter (· ≠ ·) ↔ x ∈ l := by
    intro l
    cases l with
    | nil => rfl
    | cons a l => rw [List.destutter_cons', mem_destutter', List.mem_cons]
  unfold sortDedup
  rw [hdestutter, List.mem_mergeSort]

theorem sortedLT_sortDedup (l : List α) : (sortDedup l).SortedLT := by
  have hsorted : (sortDedup l).Pairwise (· ≤ ·) :=
    (List.pairwise_mergeSort' (· ≤ ·) l).sublist (List.destutter_sublist _ _)
  have hne : (sortDedup l).IsChain (· ≠ ·) := List.isChain_destutter _ _
  have hlt : (sortDedup l).IsChain (· < ·) := by
    have hle := hsorted.isChain
    rw [List.isChain_iff_getElem] at hle hne ⊢
    intro i hi
    -- neighbours are ordered and differ
    exact lt_of_le_of_ne (hle i hi) (hne i hi)
  exact hlt.sortedLT

theorem sortDedup_eq_of_mem_iff {l₁ l₂ : List α} (h : ∀ x, x ∈ l₁ ↔ x ∈ l₂) :
    sortDedup l₁ = sortDedup l₂ := by
  apply (sortedLT_sortDedup l₁).eq_of_mem_iff (sortedLT_sortDedup l₂)
  intro x
  rw [mem_sortDedup, mem_sortDedup]
  exact h x

/-! ## Sorting by a key -/

variable {β : Type*} (key : β → α)

/-- The list can be sorted by `key`. -/
theorem exists_sortedBy (l : List β) :
    ∃ l' : List β, l'.Perm l ∧ l'.Pairwise fun a b => key a ≤ key b := by
  refine ⟨l.mergeSort fun a b => decide (key a ≤ key b), List.mergeSort_perm _ _, ?_⟩
  have hsorted : (l.mergeSort fun a b => decide (key a ≤ key b)).Pairwise
      fun a b => decide (key a ≤ key b) = true := by
    apply List.pairwise_mergeSort
    · intro a b c hab hbc
      rw [decide_eq_true_eq] at hab hbc ⊢
      exact le_trans hab hbc
    · intro a b
      rw [Bool.or_eq_true, decide_eq_true_eq, decide_eq_true_eq]
      exact le_total _ _
  exact hsorted.imp fun h => of_decide_eq_true h

/-- Two elements with no key of the list between theirs can stand next to each other. -/
theorem exists_sortedBy_adjacent {a b : β} {l : List β} (hab : key a ≤ key b)
    (hbetween : ∀ c ∈ l, key a < key c → key b ≤ key c) :
    ∃ l₁ l₂, (l₁ ++ a :: b :: l₂).Perm (a :: b :: l) ∧
      (l₁ ++ a :: b :: l₂).Pairwise fun c d => key c ≤ key d := by
  obtain ⟨l₁, hp₁, hs₁⟩ := exists_sortedBy key (l.filter fun c => key c ≤ key a)
  obtain ⟨l₂, hp₂, hs₂⟩ := exists_sortedBy key (l.filter fun c => !decide (key c ≤ key a))
  have hlow : ∀ c ∈ l₁, key c ≤ key a := by
    intro c hc
    simpa using (List.mem_filter.mp (hp₁.mem_iff.mp hc)).2
  have hhigh : ∀ c ∈ l₂, key b ≤ key c := by
    intro c hc
    obtain ⟨hcl, hca⟩ := List.mem_filter.mp (hp₂.mem_iff.mp hc)
    exact hbetween c hcl (by simpa using hca)
  refine ⟨l₁, l₂, ?_, ?_⟩
  · have hsplit : (l₁ ++ l₂).Perm l := (hp₁.append hp₂).trans (List.filter_append_perm _ l)
    calc (l₁ ++ a :: b :: l₂).Perm (a :: (l₁ ++ b :: l₂)) := List.perm_middle
      List.Perm _ (a :: b :: (l₁ ++ l₂)) := List.perm_middle.cons a
      List.Perm _ (a :: b :: l) := (hsplit.cons b).cons a
  · rw [List.pairwise_append, List.pairwise_cons, List.pairwise_cons]
    refine ⟨hs₁, ⟨?_, hhigh, hs₂⟩, ?_⟩
    · intro c hc
      rcases List.mem_cons.mp hc with rfl | hc
      · exact hab
      · exact hab.trans (hhigh c hc)
    · intro c hc d hd
      rcases List.mem_cons.mp hd with rfl | hd
      · exact hlow c hc
      rcases List.mem_cons.mp hd with rfl | hd
      · exact (hlow c hc).trans hab
      · exact (hlow c hc).trans (hab.trans (hhigh d hd))

end Lib.SortDedup
