import Mathlib.Order.Interval.Set.Basic
import Mathlib.Order.Interval.Set.Defs
import Mathlib.Data.List.Basic

/-!
# A register that is raised and assigned

A register over a linear order has two writers: `raise` takes a maximum, `assign` overwrites.
If every writer raised, a value that the register once held would stay below it. An assignment
of `x` over `v` opens the gap `Set.Ioc x v` instead, and a value `s` that the register once
reached stays `Covered`: whatever lies above the register, up to `s`, is in one of the gaps.
-/

namespace Lib.Register

variable {α : Type*} [LinearOrder α]

inductive Write (α : Type*) where
  | raise (x : α)
  | assign (x : α)

def write (v : α) : Write α → α
  | .raise x => max v x
  | .assign x => x

/-- The register after some writes. -/
def run (v : α) (ws : List (Write α)) : α := ws.foldl write v

/-- The ends of the gap that a write opens. -/
def gap (v : α) : Write α → Option (α × α)
  | .raise _ => none
  | .assign x => some (x, v)

/-- The gaps that some writes open, in order. -/
def gaps (v : α) : List (Write α) → List (α × α)
  | [] => []
  | w :: ws => (gap v w).toList ++ gaps (write v w) ws

theorem run_append (v : α) (before after : List (Write α)) :
    run v (before ++ after) = run (run v before) after :=
  List.foldl_append

/-- What lies above the register, up to `s`, is in one of the gaps. -/
def Covered (gs : List (α × α)) (v s : α) : Prop :=
  ∀ t, v < t → t ≤ s → ∃ g ∈ gs, t ∈ Set.Ioc g.1 g.2

variable {gs : List (α × α)} {v s : α}

theorem Covered.of_le (h : s ≤ v) : Covered gs v s :=
  fun _ hv hs => absurd (hs.trans h) (not_le_of_gt hv)

/-- A raise shrinks what lies above, an assignment adds its gap. -/
theorem Covered.write (h : Covered gs v s) (w : Write α) :
    Covered (gs ++ (gap v w).toList) (write v w) s := by
  intro t hv hs
  cases w with
  | raise x =>
    obtain ⟨g, hg, ht⟩ := h t (lt_of_le_of_lt (le_max_left v x) hv) hs
    exact ⟨g, List.mem_append_left _ hg, ht⟩
  | assign x =>
    rcases lt_or_ge v t with hvt | htv
    · obtain ⟨g, hg, ht⟩ := h t hvt hs
      exact ⟨g, List.mem_append_left _ hg, ht⟩
    · exact ⟨(x, v), List.mem_append_right _ (Option.mem_toList.mpr rfl), hv, htv⟩

theorem Covered.run (h : Covered gs v s) (ws : List (Write α)) :
    Covered (gs ++ gaps v ws) (run v ws) s := by
  induction ws generalizing gs v with
  | nil =>
    show Covered (gs ++ []) v s
    rw [List.append_nil]
    exact h
  | cons w ws ih =>
    show Covered (gs ++ ((gap v w).toList ++ gaps _ ws)) (Register.run _ ws) s
    rw [← List.append_assoc]
    exact ih (h.write w)

/-- A value that the register is raised to is covered from then on. -/
theorem Covered.of_raise (gs : List (α × α)) (v s : α) (ws : List (Write α)) :
    Covered (gs ++ gaps v (.raise s :: ws)) (Register.run v (.raise s :: ws)) s :=
  (Covered.of_le (le_max_right v s)).run ws

/-- Outside the gaps, what lies above the register lies above every covered value. -/
theorem Covered.lt {t : α} (h : Covered gs v s) (hv : v < t)
    (ht : ∀ g ∈ gs, t ∉ Set.Ioc g.1 g.2) : s < t := by
  by_contra hle
  obtain ⟨g, hg, hmem⟩ := h t hv (not_lt.mp hle)
  exact ht g hg hmem

end Lib.Register
