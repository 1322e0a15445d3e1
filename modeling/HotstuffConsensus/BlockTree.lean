import HotstuffConsensus.Driver
import HotstuffConsensus.Lib.ChainSafety

/-!
# The block tree

The blocks of a run form a tree under their parent hashes. `blockTree` is that tree with
the replicas as voters, as an instance of `Lib.ChainSafety.Protocol`: a block is its hash,
the genesis block is `INIT_NODE`, and a quorum is more than `⌊2n/3⌋` replicas.

The two ways a replica tests ancestry are read here as facts about the tree: the `walk` of
`is_conflicting`, and `linked`, which also looks at the heights on the way.
-/

namespace HotstuffConsensus

open Lib Relation

variable {K : Crypto}

/-- SHA-256 on the blocks of a run: no two of them collide, and none of them collides with
the two constants that stand where there is no block, the parent of `INIT_NODE` and the
node its zeroed justify names. -/
structure HashSound (U : Set (TreeNode K)) : Prop where
  collisionFree : CollisionFree U
  init_mem : initNode K ∈ U
  ne_genesisHash : ∀ x ∈ U, x.hash ≠ genesisHash
  ne_zeroed : ∀ x ∈ U, x.hash ≠ (GenericQC.zeroed K).node

/-- `k'` is the parent hash of the block with hash `k`, and there is a block with it. -/
def Parent (U : Set (TreeNode K)) (k k' : NodeHash) : Prop :=
  ∃ x ∈ U, ∃ y ∈ U, x.hash = k ∧ y.hash = k' ∧ x.parent = k'

/-- `b` is reached from `a` by following parent hashes. -/
def Extends (U : Set (TreeNode K)) (a b : TreeNode K) : Prop :=
  ReflTransGen (Parent U) a.hash b.hash

open Classical in
/-- The height of the block with hash `k`. -/
noncomputable def heightOf (U : Set (TreeNode K)) (k : NodeHash) : ℕ :=
  if h : ∃ x ∈ U, x.hash = k then h.choose.height.toNat else 0

namespace HashSound

variable {U : Set (TreeNode K)} {x y : TreeNode K} {k k' k'' : NodeHash}

theorem height_eq (hU : HashSound U) (hx : x ∈ U) (hy : y ∈ U) (h : x.hash = y.hash) :
    x.height = y.height :=
  (hashInput_inj (hU.collisionFree x hx y hy h)).2.1

theorem parent_eq (hU : HashSound U) (hx : x ∈ U) (hy : y ∈ U) (h : x.hash = y.hash) :
    x.parent = y.parent :=
  (hashInput_inj (hU.collisionFree x hx y hy h)).2.2

theorem heightOf_hash (hU : HashSound U) (hx : x ∈ U) : heightOf U x.hash = x.height.toNat := by
  have hex : ∃ y ∈ U, y.hash = x.hash := ⟨x, hx, rfl⟩
  unfold heightOf
  rw [dif_pos hex]
  obtain ⟨hy, hyx⟩ := hex.choose_spec
  rw [hU.height_eq hy hx hyx]

theorem parent_unique (hU : HashSound U) (h : Parent U k k') (h' : Parent U k k'') : k' = k'' := by
  obtain ⟨x, hx, _, -, hxk, -, hxp⟩ := h
  obtain ⟨y, hy, _, -, hyk, -, hyp⟩ := h'
  rw [← hxp, ← hyp]
  exact hU.parent_eq hx hy (hxk.trans hyk.symm)

theorem not_parent_init (hU : HashSound U) (k : NodeHash) : ¬ Parent U (initNodeHash K) k := by
  rintro ⟨x, hx, y, hy, hxk, hyk, hxp⟩
  have hp : x.parent = genesisHash := hU.parent_eq hx hU.init_mem hxk
  apply hU.ne_genesisHash y hy
  rw [hyk, ← hxp, hp]

/-- From a child of `INIT_NODE` nothing else is reached. -/
theorem not_extends (hU : HashSound U) (hx : x ∈ U) (hp : x.parent = initNodeHash K)
    (hxy : x.hash ≠ y.hash) (hy : initNodeHash K ≠ y.hash) : ¬ Extends U x y := by
  intro h
  rcases ReflTransGen.cases_head h with h | ⟨k, hk, h⟩
  · exact hxy h
  · have hinit : Parent U x.hash (initNodeHash K) :=
      ⟨x, hx, initNode K, hU.init_mem, rfl, rfl, hp⟩
    rw [hU.parent_unique hk hinit] at h
    rcases ReflTransGen.cases_head h with h | ⟨k', hk', -⟩
    · exact hy h
    · exact hU.not_parent_init k' hk'

/-- A stored block's parent link is one of the tree. -/
theorem parent_of (hx : x ∈ U) (hy : y ∈ U) (h : x.parent = y.hash) : Parent U x.hash y.hash :=
  ⟨x, hx, y, hy, rfl, rfl, h⟩

end HashSound

/-- The block tree with `n` replicas of which those of `byz` are faulty. -/
noncomputable def blockTree {U : Set (TreeNode K)} (hU : HashSound U) {n : ℕ}
    {byz : Finset (Fin n)} (hbyz : byz.card ≤ (n - 1) / 3) :
    ChainSafety.Protocol (Fin n) NodeHash where
  height := heightOf U
  parent := Parent U
  genesis := initNodeHash K
  faulty := byz
  quorum A := 2 * n / 3 < A.ncard
  parent_unique h h' := hU.parent_unique h h'
  height_genesis := hU.heightOf_hash hU.init_mem
  parent_genesis := hU.not_parent_init
  quorum_inter {A B} hA hB := by
    classical
    rw [Set.ncard_eq_toFinset_card'] at hA hB
    obtain ⟨i, hiA, hiB, hi⟩ := ChainSafety.exists_correct_inter (Finset.card_fin n) hbyz
      (Finset.subset_univ _) (Finset.subset_univ _) hA hB
    exact ⟨i, Set.mem_toFinset.mp hiA, Set.mem_toFinset.mp hiB, hi⟩
  quorum_mono {A B} hA hAB := lt_of_lt_of_le hA (Set.ncard_le_ncard hAB (Set.toFinite B))

/-! ## Tests of ancestry -/

section

variable {U : Set (TreeNode K)} {store : BlockStore K}

/-- The walk of `is_conflicting` ends at an ancestor. -/
theorem walk_reaches (hk : Keyed store) (hin : ∀ k x, store.lookup k = some x → x ∈ U)
    (bound : ViewNumber) (fuel : ℕ) {x : TreeNode K} (hx : x ∈ U) :
    Extends U x (walk store bound fuel x) := by
  induction fuel generalizing x with
  | zero => exact ReflTransGen.refl
  | succ fuel ih =>
    unfold walk
    split
    · split
      · rename_i prev hprev
        have hmem := hin _ prev hprev
        have hstep := HashSound.parent_of hx hmem (hk _ prev hprev).symm
        exact ReflTransGen.head hstep (ih hmem)
      · exact ReflTransGen.refl
    · exact ReflTransGen.refl

/-- Blocks that do not conflict lie on one branch. -/
theorem HotstuffStorage.extends_of_not_isConflicting {s : HotstuffStorage K}
    (hk : Keyed s.inMemQueue) (hin : ∀ k x, s.inMemQueue.lookup k = some x → x ∈ U)
    {a b : TreeNode K} (ha : a ∈ U) (hb : b ∈ U) (h : s.isConflicting a b = false) :
    Extends U a b ∨ Extends U b a := by
  unfold isConflicting at h
  split at h
  · rw [bne_eq_false_iff_eq] at h
    have hw := walk_reaches hk hin b.height (walkFuel s.inMemQueue) ha
    unfold Extends at hw ⊢
    rw [h] at hw
    exact Or.inl hw
  · rw [bne_eq_false_iff_eq] at h
    have hw := walk_reaches hk hin a.height (walkFuel s.inMemQueue) hb
    unfold Extends at hw ⊢
    rw [h] at hw
    exact Or.inr hw

/-- The stored parents of `x` lead to the block with hash `k`, each lower than its child.
The heights bound the number of steps. -/
def linked (store : BlockStore K) (k : NodeHash) : ℕ → TreeNode K → Bool
  | 0, _ => false
  | fuel + 1, x =>
    match store.lookup x.parent with
    | some p => decide (p.height < x.height) && (x.parent == k || linked store k fuel p)
    | none => false

theorem below_of_linked (hU : HashSound U) {n : ℕ} {byz : Finset (Fin n)}
    (hbyz : byz.card ≤ (n - 1) / 3) (hk : Keyed store)
    (hin : ∀ k x, store.lookup k = some x → x ∈ U) {k : NodeHash} {fuel : ℕ} {x : TreeNode K}
    (hx : x ∈ U) (h : linked store k fuel x = true) :
    TransGen (blockTree hU hbyz).Below x.hash k := by
  induction fuel generalizing x with
  | zero => cases h
  | succ fuel ih =>
    unfold linked at h
    split at h
    · rename_i p hp
      rw [Bool.and_eq_true, decide_eq_true_eq, Bool.or_eq_true, beq_iff_eq] at h
      obtain ⟨hlt, hrest⟩ := h
      have hmem := hin _ p hp
      have hhash : p.hash = x.parent := hk _ p hp
      have hbelow : (blockTree hU hbyz).Below x.hash p.hash := by
        refine ⟨HashSound.parent_of hx hmem hhash.symm, ?_⟩
        show heightOf U p.hash < heightOf U x.hash
        rw [hU.heightOf_hash hmem, hU.heightOf_hash hx]
        exact UInt64.lt_iff_toNat_lt.mp hlt
      rcases hrest with heq | hrest
      · rw [← heq, ← hhash]
        exact TransGen.single hbelow
      · exact TransGen.head hbelow (ih hmem hrest)
    · cases h

end

end HotstuffConsensus
