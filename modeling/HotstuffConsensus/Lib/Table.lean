import Mathlib.Data.List.Nodup

/-!
# Tables with a primary key

A table is the list of its rows, in the order they were inserted. `insertIgnore` keeps the
row that is there, `replace` puts the new one in its place. After any number of
`insertIgnore`s the row of a key is the first one ever offered for it (`find?_foldl`).
-/

namespace Lib.Table

variable {ρ κ : Type*} [DecidableEq κ] (key : ρ → κ)

/-- `INSERT IGNORE`: a row whose key is taken is dropped. -/
def insertIgnore (t : List ρ) (r : ρ) : List ρ :=
  if t.any fun r' => key r' = key r then t else t ++ [r]

/-- `REPLACE`: the row with the same key goes, the new one is added. -/
def replace (t : List ρ) (r : ρ) : List ρ := t.filter (fun r' => key r' ≠ key r) ++ [r]

/-- The row with a given key. -/
def select (t : List ρ) (k : κ) : Option ρ := t.find? fun r => key r = k

theorem select_insertIgnore (t : List ρ) (r : ρ) (k : κ) :
    select key (insertIgnore key t r) k = (select key t k).or (select key [r] k) := by
  unfold insertIgnore select
  split
  · rename_i hany
    obtain ⟨r', hr', hkey⟩ := List.any_eq_true.mp hany
    rw [decide_eq_true_eq] at hkey
    by_cases hk : key r = k
    · -- the key is taken, so the lookup in `t` succeeds
      have hfound : (t.find? fun r => key r = k).isSome := by
        rw [List.find?_isSome]
        exact ⟨r', hr', by rw [decide_eq_true_eq, hkey, hk]⟩
      obtain ⟨x, hx⟩ := Option.isSome_iff_exists.mp hfound
      rw [hx]
      rfl
    · simp [hk]
  · exact List.find?_append

/-- The row of a key is the first one offered for it. -/
theorem select_foldl (t rows : List ρ) (k : κ) :
    select key (rows.foldl (insertIgnore key) t) k = (select key t k).or (select key rows k) := by
  induction rows generalizing t with
  | nil => simp [select]
  | cons r rows ih =>
    rw [List.foldl_cons, ih, select_insertIgnore, Option.or_assoc]
    unfold select
    rw [← List.find?_append]
    rfl

/-- Every row was offered. -/
theorem mem_of_mem_foldl {t rows : List ρ} {r : ρ}
    (h : r ∈ rows.foldl (insertIgnore key) t) : r ∈ t ∨ r ∈ rows := by
  induction rows generalizing t with
  | nil => exact Or.inl h
  | cons r' rows ih =>
    rcases ih h with hr | hr
    · unfold insertIgnore at hr
      split at hr
      · exact Or.inl hr
      · rcases List.mem_append.mp hr with hr | hr
        · exact Or.inl hr
        · exact Or.inr (by rw [List.mem_singleton.mp hr]; exact List.mem_cons_self)
    · exact Or.inr (List.mem_cons_of_mem _ hr)

/-- The rows that are there stay where they are. -/
theorem prefix_foldl (t rows : List ρ) : t <+: rows.foldl (insertIgnore key) t := by
  induction rows generalizing t with
  | nil => exact List.prefix_refl t
  | cons r rows ih =>
    refine List.IsPrefix.trans ?_ (ih (insertIgnore key t r))
    unfold insertIgnore
    split
    · exact List.prefix_refl t
    · exact List.prefix_append t [r]

/-- A row that all others share their key with replaces them all. -/
theorem replace_eq_singleton {t : List ρ} {r : ρ} (h : ∀ r' ∈ t, key r' = key r) :
    replace key t r = [r] := by
  unfold replace
  rw [List.filter_eq_nil_iff.mpr]
  · rfl
  · intro r' hr' hne
    rw [decide_eq_true_eq] at hne
    exact hne (h r' hr')

/-- A table stays empty only when nothing is offered. -/
theorem foldl_eq_nil_iff {rows : List ρ} :
    rows.foldl (insertIgnore key) [] = [] ↔ rows = [] := by
  constructor
  · intro h
    cases rows with
    | nil => rfl
    | cons r rows =>
      have hsel := select_foldl key [] (r :: rows) (key r)
      rw [h] at hsel
      simp [select] at hsel
  · intro h
    rw [h]
    rfl

/-- No two rows share a key. -/
def Unique (t : List ρ) : Prop := (t.map key).Nodup

omit [DecidableEq κ] in
theorem unique_nil : Unique key ([] : List ρ) := List.nodup_nil

theorem unique_insertIgnore {t : List ρ} (h : Unique key t) (r : ρ) :
    Unique key (insertIgnore key t r) := by
  unfold insertIgnore
  split
  · exact h
  · rename_i hany
    unfold Unique
    rw [List.map_append, List.nodup_append]
    refine ⟨h, List.nodup_singleton _, ?_⟩
    intro k hk k' hk' heq
    obtain ⟨r', hr', rfl⟩ := List.mem_map.mp hk
    have hkr : k' = key r := List.mem_singleton.mp hk'
    apply hany
    rw [List.any_eq_true]
    exact ⟨r', hr', by rw [decide_eq_true_eq, heq, hkr]⟩

theorem unique_foldl {t : List ρ} (h : Unique key t) (rows : List ρ) :
    Unique key (rows.foldl (insertIgnore key) t) := by
  induction rows generalizing t with
  | nil => exact h
  | cons r rows ih => exact ih (unique_insertIgnore key h r)

variable {key}

/-- In a table with unique keys a row is found under its key. -/
theorem mem_iff_select {t : List ρ} (h : Unique key t) {r : ρ} :
    r ∈ t ↔ select key t (key r) = some r := by
  constructor
  · intro hr
    obtain ⟨r', hr'⟩ : ∃ r', select key t (key r) = some r' := by
      apply Option.isSome_iff_exists.mp
      unfold select
      rw [List.find?_isSome]
      exact ⟨r, hr, by simp⟩
    have hmem : r' ∈ t := List.mem_of_find?_eq_some hr'
    have hkey : key r' = key r := by
      have hp := List.find?_some hr'
      rw [decide_eq_true_eq] at hp
      exact hp
    rw [hr', List.inj_on_of_nodup_map h hmem hr hkey]
  · intro hr
    exact List.mem_of_find?_eq_some hr

/-- Selecting by key is filtering by it. -/
theorem filter_eq_select {t : List ρ} (h : Unique key t) (k : κ) :
    t.filter (fun r => key r = k) = (select key t k).toList := by
  induction t with
  | nil => rfl
  | cons r t ih =>
    unfold Unique at h
    rw [List.map_cons, List.nodup_cons] at h
    unfold select at ih ⊢
    rw [List.filter_cons, List.find?_cons]
    by_cases hk : key r = k
    · have hrest : t.filter (fun r => key r = k) = [] := by
        rw [List.filter_eq_nil_iff]
        intro r' hr' hkey
        rw [decide_eq_true_eq] at hkey
        apply h.1
        rw [hk, ← hkey]
        exact List.mem_map_of_mem hr'
      simp [hk, hrest]
    · simp only [hk, decide_false]
      exact ih h.2

/-- Rows computed from those of one key only. -/
theorem flatMap_ite_eq {β : Type*} (t : List ρ) (f : ρ → List β) (k : κ) :
    (t.flatMap fun r => if key r = k then f r else []) =
      (t.filter fun r => key r = k).flatMap f := by
  induction t with
  | nil => rfl
  | cons r t ih =>
    rw [List.flatMap_cons, List.filter_cons, ih]
    by_cases hk : key r = k
    · simp [hk]
    · simp [hk]

end Lib.Table
