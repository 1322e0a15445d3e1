import HotstuffConsensus.Driver
import HotstuffConsensus.ThresholdScheme

/-!
# `is_conflicting` decides ancestry

In a store whose parent links strictly decrease the height, the walk of `is_conflicting`
enters lower and lower stored blocks. So it ends by itself within the number of stored
blocks, and it ends at the lower of the two blocks exactly when that one is an ancestor:
the walk cannot step over it, since only one height along a branch is its own.
-/

namespace HotstuffConsensus

open Lib

variable {K : Crypto} {store : BlockStore K} {x y p : TreeNode K} {h : NodeHash}

/-- `x` is strictly higher than its parent, when that is stored. -/
def AboveParent (store : BlockStore K) (x : TreeNode K) : Prop :=
  ∀ p, store.lookup x.parent = some p → p.height < x.height

/-- Every stored block is strictly higher than its stored parent. -/
def ParentsBelow (store : BlockStore K) : Prop :=
  ∀ k x, store.lookup k = some x → AboveParent store x

/-- The stored blocks, whatever they are stored under. -/
def storedBlocks (store : BlockStore K) : Set (TreeNode K) := {x | ∃ k, store.lookup k = some x}

theorem forall_storedBlocks {P : TreeNode K → Prop} (h : ∀ e ∈ store.entries, P e.2) :
    ∀ x ∈ storedBlocks store, P x := by
  rintro x ⟨k, hx⟩
  exact h ⟨k, x⟩ (Finmap.lookup_eq_some_iff.mp hx)

/-! ## Going down a branch -/

/-- `z` is `x` or is reached from it through stored parents, each lower than its child. -/
inductive Descends (store : BlockStore K) (z : TreeNode K) : TreeNode K → Prop
  | here : Descends store z z
  | parent {x p : TreeNode K} (hp : store.lookup x.parent = some p) (hlt : p.height < x.height)
      (hd : Descends store z p) : Descends store z x

theorem Descends.eq_or_lower {z : TreeNode K} (hd : Descends store z x) :
    z = x ∨ z ∈ storedBlocks store ∧ z.height < x.height := by
  induction hd with
  | here => exact Or.inl rfl
  | @parent x p hp hlt _ ih =>
    rcases ih with rfl | ⟨hz, hzp⟩
    · exact Or.inr ⟨⟨_, hp⟩, hlt⟩
    · exact Or.inr ⟨hz, hzp.trans hlt⟩

theorem Descends.trans {z : TreeNode K} (hxy : Descends store y x) (hyz : Descends store z y) :
    Descends store z x := by
  induction hxy with
  | here => exact hyz
  | parent hp hlt _ ih => exact .parent hp hlt ih

/-- Where parents are below, following parent hashes goes down. -/
theorem Reaches.descends (hs : ParentsBelow store) (hr : Reaches store h x)
    (hx : AboveParent store x) : ∃ z, z.hash = h ∧ Descends store z x := by
  induction hr with
  | @here x hxh => exact ⟨x, hxh, .here⟩
  | @parent x p hp _ ih =>
    obtain ⟨z, hzh, hd⟩ := ih (hs _ p hp)
    exact ⟨z, hzh, .parent hp (hx p hp) hd⟩

/-- The number of stored blocks below a height. -/
def countBelow (store : BlockStore K) (height : ViewNumber) : ℕ :=
  Multiset.card ((HashMap.values store).filter fun z => z.height < height)

theorem countBelow_lt_walkFuel (store : BlockStore K) (height : ViewNumber) :
    countBelow store height < walkFuel store := by
  unfold countBelow walkFuel
  rw [Nat.lt_succ_iff, ← HashMap.card_values]
  exact Multiset.card_le_card (Multiset.filter_le _ _)

/-- A step down to a stored block leaves fewer below. -/
theorem countBelow_lt {height : ViewNumber} (hp : p ∈ storedBlocks store)
    (hlt : p.height < height) : countBelow store p.height < countBelow store height := by
  have hmem : p ∈ HashMap.values store := HashMap.mem_values.mpr hp
  apply Multiset.card_lt_card
  refine lt_of_le_of_ne ?_ ?_
  · exact Multiset.monotone_filter_right _ fun z hz => hz.trans hlt
  · intro heq
    have hin : p ∈ (HashMap.values store).filter fun z => z.height < height :=
      Multiset.mem_filter.mpr ⟨hmem, hlt⟩
    rw [← heq, Multiset.mem_filter] at hin
    exact lt_irrefl _ hin.2

/-! ## The walk -/

/-- The walk follows parent hashes. -/
theorem reaches_walk (bound : ViewNumber) (fuel : ℕ) (x : TreeNode K) :
    Reaches store (walk store bound fuel x).hash x := by
  induction fuel generalizing x with
  | zero => exact .here rfl
  | succ fuel ih =>
    unfold walk
    split
    · split
      · rename_i p hp
        exact .parent hp (ih p)
      · exact .here rfl
    · exact .here rfl

theorem descends_walk (hs : ParentsBelow store) (bound : ViewNumber) (fuel : ℕ)
    (hx : AboveParent store x) : Descends store (walk store bound fuel x) x := by
  induction fuel generalizing x with
  | zero => exact .here
  | succ fuel ih =>
    unfold walk
    split
    · split
      · rename_i p hp
        exact .parent hp (hx p hp) (ih (hs _ p hp))
      · exact .here
    · exact .here

/-- The walk finds what is below, and does not step over it. -/
theorem walk_of_descends {z : TreeNode K} (hd : Descends store z x) {fuel : ℕ}
    (hfuel : countBelow store x.height < fuel) : walk store z.height fuel x = z := by
  induction hd generalizing fuel with
  | here =>
    cases fuel with
    | zero => rfl
    | succ fuel =>
      unfold walk
      rw [if_neg (lt_irrefl _)]
  | @parent x p hp hlt hd ih =>
    have hcount := countBelow_lt ⟨_, hp⟩ hlt
    have hbound : z.height < x.height := by
      rcases hd.eq_or_lower with rfl | ⟨-, hzp⟩
      · exact hlt
      · exact hzp.trans hlt
    cases fuel with
    | zero => exact absurd hfuel (Nat.not_lt_zero _)
    | succ fuel =>
      unfold walk
      rw [if_pos hbound, hp]
      exact ih (by omega)

namespace HotstuffStorage

variable {s : HotstuffStorage K} {a b : TreeNode K}

/-- The walk from the higher block `a` ends at `b` exactly when one of the two is an ancestor
of the other. -/
theorem walk_hash_eq_iff (hs : ParentsBelow s.inMemQueue) (ha : AboveParent s.inMemQueue a)
    (hb : AboveParent s.inMemQueue b)
    (hsha : CollisionFree ({a, b} ∪ storedBlocks s.inMemQueue)) (hle : b.height ≤ a.height) :
    (walk s.inMemQueue b.height (walkFuel s.inMemQueue) a).hash = b.hash ↔
      Reaches s.inMemQueue b.hash a ∨ Reaches s.inMemQueue a.hash b := by
  have hheight : ∀ z ∈ ({a, b} ∪ storedBlocks s.inMemQueue : Set _),
      ∀ w ∈ ({a, b} ∪ storedBlocks s.inMemQueue : Set _), z.hash = w.hash →
        z.height = w.height :=
    fun z hz w hw hzw => (hashInput_inj (hsha z hz w hw hzw)).2.1
  constructor
  · intro hend
    rw [← hend]
    exact Or.inl (reaches_walk _ _ _)
  · rintro (hr | hr)
    · obtain ⟨z, hzb, hd⟩ := hr.descends hs ha
      have hz : z.height = b.height := by
        rcases hd.eq_or_lower with rfl | ⟨hz, -⟩
        · exact hheight z (by simp) b (by simp) hzb
        · exact hheight z (by simp [hz]) b (by simp) hzb
      rw [← hz, walk_of_descends hd (countBelow_lt_walkFuel _ _)]
      exact hzb
    · -- `b` is not above `a`, so `a` is reached from it only as itself
      obtain ⟨z, hza, hd⟩ := hr.descends hs hb
      rcases hd.eq_or_lower with rfl | ⟨hz, hlt⟩
      · have hz : z.height = a.height := hheight z (by simp) a (by simp) hza
        rw [hz, walk_of_descends .here (countBelow_lt_walkFuel _ _)]
        exact hza.symm
      · rw [hheight z (by simp [hz]) a (by simp) hza] at hlt
        exact absurd hle (not_le.mpr hlt)

/-- In a store whose parent links strictly decrease the height, two blocks do not conflict
exactly when one is an ancestor of the other. -/
theorem isConflicting_eq_false_iff_reaches (s : HotstuffStorage K) (a b : TreeNode K)
    (hs : ParentsBelow s.inMemQueue) (ha : AboveParent s.inMemQueue a)
    (hb : AboveParent s.inMemQueue b)
    (hsha : CollisionFree ({a, b} ∪ storedBlocks s.inMemQueue)) :
    (s.isConflicting a b = false ↔
      Reaches s.inMemQueue b.hash a ∨ Reaches s.inMemQueue a.hash b) ∧
    s.isConflicting a b = s.isConflicting b a := by
  have hsha' : CollisionFree ({b, a} ∪ storedBlocks s.inMemQueue) := by
    rw [Set.pair_comm]
    exact hsha
  have hiff : ∀ c d : TreeNode K, AboveParent s.inMemQueue c → AboveParent s.inMemQueue d →
      CollisionFree ({c, d} ∪ storedBlocks s.inMemQueue) →
      CollisionFree ({d, c} ∪ storedBlocks s.inMemQueue) →
      (s.isConflicting c d = false ↔
        Reaches s.inMemQueue d.hash c ∨ Reaches s.inMemQueue c.hash d) := by
    intro c d hc hd hcd hdc
    unfold isConflicting
    split
    · rename_i hle
      rw [bne_eq_false_iff_eq, walk_hash_eq_iff hs hc hd hcd hle]
    · rename_i hlt
      rw [bne_eq_false_iff_eq, walk_hash_eq_iff hs hd hc hdc (le_of_lt (not_le.mp hlt)), or_comm]
  refine ⟨hiff a b ha hb hsha hsha', ?_⟩
  rw [Bool.eq_iff_iff, ← not_iff_not, Bool.not_eq_true, Bool.not_eq_true, hiff a b ha hb hsha hsha',
    hiff b a hb ha hsha' hsha, or_comm]

end HotstuffStorage

namespace Symbolic

/-- A storage with two blocks of height 2 on `a1`. -/
def forked : HotstuffStorage symbolic :=
  ((fresh 4 0).run [deliver a1, deliver a2, deliver a2']).storage

/-- The blocks of that storage, and `a3`. -/
def forkedBlocks : List (TreeNode symbolic) := [initNode symbolic, a1, a2, a2', a3]

theorem forked_mem : ∀ x ∈ storedBlocks forked.inMemQueue, x ∈ forkedBlocks :=
  forall_storedBlocks (by decide +kernel)

theorem forked_aboveParent : ∀ x ∈ forkedBlocks, AboveParent forked.inMemQueue x := by
  have h : ∀ x ∈ forkedBlocks, ∀ p ∈ forked.inMemQueue.lookup x.parent, p.height < x.height := by
    decide +kernel
  exact h

theorem forked_collisionFree : CollisionFree ({a3, a2'} ∪ storedBlocks forked.inMemQueue) := by
  have h : ∀ x ∈ forkedBlocks, ∀ y ∈ forkedBlocks, x.hash = y.hash → x.hashInput = y.hashInput := by
    decide +kernel
  have hmem : ∀ x ∈ ({a3, a2'} ∪ storedBlocks forked.inMemQueue : Set _), x ∈ forkedBlocks := by
    rintro x ((rfl | rfl) | hx)
    · simp [forkedBlocks]
    · simp [forkedBlocks]
    · exact forked_mem x hx
  exact fun x hx y hy => h x (hmem x hx) y (hmem y hy)

end Symbolic

open Symbolic in
/-- The two branches over `a1` conflict, from either side. -/
theorem isConflicting_forked :
    forked.isConflicting a3 a2' = true ∧
      (forked.isConflicting a3 a2' = false ↔
        Reaches forked.inMemQueue a2'.hash a3 ∨ Reaches forked.inMemQueue a3.hash a2') ∧
      forked.isConflicting a3 a2' = forked.isConflicting a2' a3 :=
  ⟨by decide +kernel, HotstuffStorage.isConflicting_eq_false_iff_reaches forked a3 a2'
    (fun k x hx => forked_aboveParent x (forked_mem x ⟨k, hx⟩))
    (forked_aboveParent a3 (by decide +kernel)) (forked_aboveParent a2' (by decide +kernel))
    forked_collisionFree⟩

end HotstuffConsensus
