import Mathlib.Combinatorics.Pigeonhole
import Mathlib.Data.Set.Basic

/-!
# Walks along a partial function

A loop that replaces its state by `next` of it, until there is none. Such a loop ends when a rank
decreases along `next`, and never ends in a set that it does not leave. A loop whose next state is
determined by a key from a finite set ends within the number of keys or not at all, so a bound on
the number of rounds is no loss.
-/

namespace Lib.Walk

variable {α κ : Type*} (next : α → Option α)

/-- The state after at most `n` rounds. -/
def advance : ℕ → α → α
  | 0, x => x
  | n + 1, x =>
    match next x with
    | some y => advance n y
    | none => x

/-- The loop is left after finitely many rounds. -/
def Ends (x : α) : Prop := ∃ n, next (advance next n x) = none

variable {next}

theorem advance_of_none {x : α} (h : next x = none) (n : ℕ) : advance next n x = x := by
  cases n with
  | zero => rfl
  | succ n =>
    unfold advance
    rw [h]

theorem advance_of_some {x y : α} (h : next x = some y) (n : ℕ) :
    advance next (n + 1) x = advance next n y := by
  show (match next x with | some y => advance next n y | none => x) = _
  rw [h]

theorem advance_add (m n : ℕ) (x : α) :
    advance next (m + n) x = advance next n (advance next m x) := by
  induction m generalizing x with
  | zero => rw [Nat.zero_add]; rfl
  | succ m ih =>
    cases h : next x with
    | none => rw [advance_of_none h, advance_of_none h, advance_of_none h]
    | some y =>
      have hsucc : m + 1 + n = m + n + 1 := by omega
      rw [hsucc, advance_of_some h, advance_of_some h, ih]

/-- One round does not decide whether the loop ends. -/
theorem ends_iff_of_some {x y : α} (h : next x = some y) : Ends next x ↔ Ends next y := by
  constructor
  · rintro ⟨n, hn⟩
    cases n with
    | zero =>
      have hx : next x = none := hn
      rw [h] at hx
      cases hx
    | succ n =>
      rw [advance_of_some h] at hn
      exact ⟨n, hn⟩
  · rintro ⟨n, hn⟩
    refine ⟨n + 1, ?_⟩
    rw [advance_of_some h]
    exact hn

/-- A loop along which a rank decreases ends. -/
theorem ends_of_rank {S : Set α} (rank : α → ℕ)
    (hS : ∀ x ∈ S, ∀ y, next x = some y → y ∈ S ∧ rank y < rank x) {x : α} (hx : x ∈ S) :
    Ends next x := by
  induction hr : rank x using Nat.strong_induction_on generalizing x with
  | _ r ih =>
    cases h : next x with
    | none => exact ⟨0, h⟩
    | some y =>
      obtain ⟨hy, hlt⟩ := hS x hx y h
      rw [ends_iff_of_some h]
      exact ih (rank y) (by omega) hy rfl

/-- A loop that does not leave a set in which there is always a next state never ends. -/
theorem not_ends_of_stays {S : Set α} (hS : ∀ x ∈ S, ∃ y ∈ S, next x = some y) {x : α}
    (hx : x ∈ S) : ¬ Ends next x := by
  rintro ⟨n, hn⟩
  have hmem : advance next n x ∈ S := by
    clear hn
    induction n generalizing x with
    | zero => exact hx
    | succ n ih =>
      obtain ⟨y, hy, hxy⟩ := hS x hx
      rw [advance_of_some hxy]
      exact ih hy
  obtain ⟨y, -, hy⟩ := hS _ hmem
  rw [hn] at hy
  cases hy

/-- When the next state depends on one of finitely many keys, a loop that ends does so within
their number. -/
theorem Ends.within [DecidableEq κ] {x : α} (h : Ends next x) (key : α → κ) (keys : Finset κ)
    (hkeys : ∀ x y, next x = some y → key x ∈ keys)
    (hdet : ∀ x x' y y', key x = key x' → next x = some y → next x' = some y' → y = y') :
    next (advance next keys.card x) = none := by
  classical
  -- the first round at which the loop is left
  obtain ⟨hlast, hbefore⟩ : next (advance next (Nat.find h) x) = none ∧
      ∀ i < Nat.find h, ∃ y, next (advance next i x) = some y := by
    refine ⟨Nat.find_spec h, fun i hi => ?_⟩
    exact Option.ne_none_iff_exists'.mp (Nat.find_min h hi)
  have hle : Nat.find h ≤ keys.card := by
    by_contra hgt
    rw [not_le] at hgt
    -- otherwise a key comes twice, and the loop goes round
    obtain ⟨i, hi, j, hj, hij, hkey⟩ : ∃ i ∈ Finset.range (Nat.find h),
        ∃ j ∈ Finset.range (Nat.find h), i ≠ j ∧
          key (advance next i x) = key (advance next j x) := by
      apply Finset.exists_ne_map_eq_of_card_lt_of_maps_to
      · rw [Finset.card_range]
        exact hgt
      · intro i hi
        obtain ⟨y, hy⟩ := hbefore i (Finset.mem_range.mp hi)
        exact hkeys _ y hy
    wlog hlt : i < j generalizing i j
    · exact this j hj i hi hij.symm hkey.symm (by omega)
    obtain ⟨y, hy⟩ := hbefore i (Finset.mem_range.mp hi)
    obtain ⟨y', hy'⟩ := hbefore j (Finset.mem_range.mp hj)
    have hnext : ∀ {k z}, next (advance next k x) = some z → advance next (k + 1) x = z := by
      intro k z hz
      rw [advance_add, advance_of_some hz]
      rfl
    have hsame : advance next (i + 1) x = advance next (j + 1) x := by
      rw [hnext hy, hnext hy']
      exact hdet _ _ y y' hkey hy hy'
    have hj := Finset.mem_range.mp hj
    apply Nat.find_min h (m := i + 1 + (Nat.find h - (j + 1))) (by omega)
    rw [advance_add, hsame, ← advance_add, Nat.add_sub_cancel' hj]
    exact hlast
  obtain ⟨k, hk⟩ := Nat.exists_eq_add_of_le hle
  rw [hk, advance_add, advance_of_none hlast]
  exact hlast

end Lib.Walk
