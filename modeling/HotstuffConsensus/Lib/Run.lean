import Mathlib.Logic.Basic

/-!
# Runs of a deterministic step function

A run is a start state and the list of its actions. `Each step P s as` says that `P` holds
of the state before each action and the action. The rules are induction on the run
with an invariant `I`; the actions are restricted by a predicate `R` of their own.
-/

namespace Lib.Run

variable {σ α : Type*} (step : σ → α → σ)

/-- `P` holds at every step of the run. -/
def Each (P : σ → α → Prop) : σ → List α → Prop
  | _, [] => True
  | s, a :: as => P s a ∧ Each P (step s a) as

variable {step} {I : σ → Prop} {P Q R : σ → α → Prop}

instance [h : ∀ s a, Decidable (P s a)] (s : σ) (as : List α) : Decidable (Each step P s as) :=
  match as with
  | [] => isTrue trivial
  | a :: as =>
    have : Decidable (Each step P (step s a) as) := instDecidableEach (step s a) as
    inferInstanceAs (Decidable (P s a ∧ Each step P (step s a) as))

theorem each_append {s : σ} {before after : List α} :
    Each step P s (before ++ after) ↔
      Each step P s before ∧ Each step P (before.foldl step s) after := by
  induction before generalizing s with
  | nil =>
    constructor
    · intro h
      exact ⟨trivial, h⟩
    · intro h
      exact h.2
  | cons b before ih =>
    constructor
    · intro h
      obtain ⟨hbefore, hafter⟩ := ih.mp h.2
      exact ⟨⟨h.1, hbefore⟩, hafter⟩
    · intro h
      exact ⟨h.1.1, ih.mpr ⟨h.1.2, h.2⟩⟩

theorem Each.of_forall (h : ∀ s a, P s a) (s : σ) (as : List α) : Each step P s as := by
  induction as generalizing s with
  | nil => trivial
  | cons a as ih => exact ⟨h s a, ih (step s a)⟩

/-- A property of the actions alone. -/
theorem Each.of_mem {R : α → Prop} {as : List α} (h : ∀ a ∈ as, R a) (s : σ) :
    Each step (fun _ a => R a) s as := by
  induction as generalizing s with
  | nil => trivial
  | cons a as ih =>
    exact ⟨h a List.mem_cons_self, ih (fun b hb => h b (List.mem_cons_of_mem _ hb)) (step s a)⟩

/-- What holds at every step holds at a given one. -/
theorem Each.at {s : σ} {before after : List α} {a : α}
    (h : Each step P s (before ++ a :: after)) : P (before.foldl step s) a :=
  (each_append.mp h).2.1

/-- A run is checked step by step. -/
theorem Each.snoc {s : σ} {before : List α} {a : α} (h : Each step P s before)
    (ha : P (before.foldl step s) a) : Each step P s (before ++ [a]) :=
  each_append.mpr ⟨h, ha, trivial⟩

/-- Two step properties agree along a run when they agree in the states of an invariant
which the first one maintains. -/
theorem each_iff {s : σ} {as : List α} (hs : I s) (hR : Each step R s as)
    (hiff : ∀ s a, I s → R s a → (P s a ↔ Q s a))
    (hkeep : ∀ s a, I s → R s a → P s a → I (step s a)) :
    Each step P s as ↔ Each step Q s as := by
  induction as generalizing s with
  | nil => exact Iff.rfl
  | cons a as ih =>
    obtain ⟨hRa, hRas⟩ := hR
    have hhead := hiff s a hs hRa
    constructor
    · intro h
      have hnext := hkeep s a hs hRa h.1
      exact ⟨hhead.mp h.1, (ih hnext hRas).mp h.2⟩
    · intro h
      have hP := hhead.mpr h.1
      have hnext := hkeep s a hs hRa hP
      exact ⟨hP, (ih hnext hRas).mpr h.2⟩

/-- A run that `f` takes to another one, with the same actions. -/
theorem each_map {τ : Type*} {next : τ → α → τ} {f : τ → σ}
    (hf : ∀ t a, f (next t a) = step (f t) a) (t : τ) (as : List α) :
    Each step P (f t) as ↔ Each next (fun t a => P (f t) a) t as := by
  induction as generalizing t with
  | nil => exact Iff.rfl
  | cons a as ih =>
    have hnext := ih (next t a)
    rw [hf] at hnext
    exact and_congr_right fun _ => hnext

theorem Each.and {s : σ} {as : List α} (hP : Each step P s as) (hQ : Each step Q s as) :
    Each step (fun s a => P s a ∧ Q s a) s as := by
  induction as generalizing s with
  | nil => trivial
  | cons a as ih => exact ⟨⟨hP.1, hQ.1⟩, ih hP.2 hQ.2⟩

/-- An invariant of the allowed steps holds at the end of the run. -/
theorem foldl_of_invariant {s : σ} {as : List α} (hs : I s) (hR : Each step R s as)
    (hkeep : ∀ s a, I s → R s a → I (step s a)) : I (as.foldl step s) := by
  induction as generalizing s with
  | nil => exact hs
  | cons a as ih =>
    obtain ⟨hRa, hRas⟩ := hR
    exact ih (hkeep s a hs hRa) hRas

/-- What every step keeps holds at the end of the run. -/
theorem foldl_of_kept {s : σ} (hs : I s) (hkeep : ∀ s a, I s → I (step s a)) (as : List α) :
    I (as.foldl step s) := by
  induction as generalizing s with
  | nil => exact hs
  | cons a as ih => exact ih (hkeep s a hs)

/-- An invariant of the allowed steps holds in every state of the run. -/
theorem each_of_invariant {s : σ} {as : List α} (hs : I s) (hR : Each step R s as)
    (hkeep : ∀ s a, I s → R s a → I (step s a)) (hP : ∀ s a, I s → R s a → P s a) :
    Each step P s as := by
  induction as generalizing s with
  | nil => trivial
  | cons a as ih =>
    obtain ⟨hRa, hRas⟩ := hR
    exact ⟨hP s a hs hRa, ih (hkeep s a hs hRa) hRas⟩

end Lib.Run
