import HotstuffConsensus.Driver

/-!
# The height of `qc_high`

`update_qc_high` compares the height of its *node* argument with the block of the current
`qc_high` and then installs its *certificate* argument. For proposals and `NewView`
messages the certificate names the node. For votes it names the leaf, and for
`UpdateQCHigh` events it is the node's justify; there the height may fall.

The height never falls along a run exactly when no such step meets a lower leaf or a
lower justify.
-/

namespace HotstuffConsensus

open Lib Relation

variable {K : Crypto}

/-- The blocks `qc_high` names before and after are stored, the second at least as high as
the first. -/
def HotstuffStorage.NoRegress (s s' : HotstuffStorage K) : Prop :=
  ∃ before after, s.get s.state.qcHigh.node = some before ∧
    s'.get s'.state.qcHigh.node = some after ∧ before.height ≤ after.height

/-- A write that fits keeps the heights of the stored blocks. -/
theorem Fits.lookup_height {store : BlockStore K} {x y : TreeNode K} {k : NodeHash}
    (hfit : Fits store x) (hy : store.lookup k = some y) :
    ∃ z, (store.insert x.hash x).lookup k = some z ∧ z.height = y.height := by
  obtain ⟨z, hz, hzy⟩ := hfit.lookup_insert hy
  exact ⟨z, hz, (hashInput_inj hzy).2.1⟩

namespace HotstuffStorage.NoRegress

variable {s s' s'' : HotstuffStorage K} {B : Set (TreeNode K)}

theorem refl {q : TreeNode K} (h : s.get s.state.qcHigh.node = some q) : s.NoRegress s :=
  ⟨q, q, h, h, le_refl _⟩

theorem trans (h : s.NoRegress s') (h' : s'.NoRegress s'') : s.NoRegress s'' := by
  obtain ⟨a, b, ha, hb, hab⟩ := h
  obtain ⟨b', c, hb', hc, hbc⟩ := h'
  have hbb : b = b' := Option.some.inj (hb.symm.trans hb')
  rw [← hbb] at hbc
  exact ⟨a, c, ha, hc, le_trans hab hbc⟩

/-- A write that leaves `qc_high` alone. -/
theorem of_write {q x : TreeNode K} (hq : s.get s.state.qcHigh.node = some q)
    (hfit : Fits s.inMemQueue x) (hstore : s'.inMemQueue = s.inMemQueue.insert x.hash x)
    (hqc : s'.state.qcHigh = s.state.qcHigh) : s.NoRegress s' := by
  obtain ⟨z, hz, hzq⟩ := hfit.lookup_height hq
  refine ⟨q, z, hq, ?_, le_of_eq hzq.symm⟩
  unfold HotstuffStorage.get
  rw [hqc, hstore]
  exact hz

theorem of_grows {N : TreeNode K → Prop} {q : TreeNode K} (hB : CollisionFree B)
    (hN : ∀ x, N x → x ∈ B) (h : s.Holds B) (hq : s.get s.state.qcHigh.node = some q)
    (hg : Grows N s s') : s.NoRegress s' := by
  cases hg with
  | quiet hstore _ hqc =>
    refine ⟨q, q, hq, ?_, le_refl _⟩
    unfold HotstuffStorage.get
    rw [hqc, hstore]
    exact hq
  | append p hp hstore _ hqc => exact of_write hq (h.fits hB (hN p hp)) hstore hqc
  | certify node qc hn hr hstore _ hqc =>
    -- the certificate names the block whose height was compared
    obtain ⟨q', hq', hlt⟩ := hr
    have hqq : q' = q := Option.some.inj (hq'.symm.trans hq)
    rw [hqq] at hlt
    refine ⟨q, node, hq, ?_, le_of_lt hlt⟩
    have hkey : node.hash = qc.node := h.keyed _ _ hn
    unfold HotstuffStorage.get
    rw [hqc, hstore, ← hkey]
    exact Finmap.lookup_insert _

theorem of_grows_trans {N : TreeNode K → Prop} {q : TreeNode K} (hB : CollisionFree B)
    (hN : ∀ x, N x → x ∈ B) (h : s.Holds B) (hq : s.get s.state.qcHigh.node = some q)
    (hg : ReflTransGen (Grows N) s s') : s.NoRegress s' := by
  induction hg with
  | refl => exact refl hq
  | tail hsteps hstep ih =>
    have hmid := h.grows_trans hN hsteps
    obtain ⟨a, b, ha, hb, hab⟩ := ih
    exact trans ⟨a, b, ha, hb, hab⟩ (of_grows hB hN hmid hb hstep)

end HotstuffStorage.NoRegress

namespace Driver

variable {B : Set (TreeNode K)}

/-- The step does not lower `qc_high`. -/
def NoRegress (d : Driver K) (a : Drive K) : Prop := d.storage.NoRegress (d.step a).storage

/-- When a vote completes a quorum for a proposal above the block of `qc_high`, the leaf is
not below that block; when an `UpdateQCHigh` event carries a node above it, the node's
justify names a stored block that is not below it. -/
def KeepsHeight (d : Driver K) : Drive K → Prop
  | .event (.recvSign ctx prop sign) =>
    (d.machine.voteQuorum ctx prop sign).isSome → d.storage.Raises prop →
      ∀ q, d.qcNode = some q → q.height ≤ d.storage.state.leaf.height
  | .ready i =>
    ∀ node, d.produced[i]? = some node → d.storage.Raises node →
      ∃ j, d.storage.get node.justify.node = some j ∧ ∀ q, d.qcNode = some q → q.height ≤ j.height
  | _ => True

/-- A step that installs nothing meets the condition. -/
theorem keepsHeight_of_not_installs {d : Driver K} {a : Drive K}
    (hno : ∀ node qc, ¬ Installs d a node qc) : KeepsHeight d a := by
  unfold KeepsHeight
  split
  · intro hsome hr
    obtain ⟨c, hc⟩ := Option.isSome_iff_exists.mp hsome
    exact absurd (.quorum hc hr) (hno _ _)
  · intro node hnode hr
    exact absurd (.ready hnode hr) (hno _ _)
  · trivial

/-- For a step that installs a certificate, the condition is that the certificate names a
stored block at least as high as that of `qc_high`. -/
theorem keepsHeight_iff_of_installs {d : Driver K} {a : Drive K} {node q : TreeNode K}
    {qc : GenericQC K} (hB : CollisionFree B) (h : d.Holds B) (hi : Installs d a node qc)
    (hq : d.qcNode = some q) :
    KeepsHeight d a ↔ ∃ j, d.storage.get qc.node = some j ∧ q.height ≤ j.height := by
  cases hi with
  | quorum hquorum hr =>
    obtain ⟨leaf, hleaf⟩ := Option.isSome_iff_exists.mp h.storage.leaf_stored
    have hfit := h.storage.fits hB h.storage.leaf_mem leaf hleaf
    have hheight : leaf.height = d.storage.state.leaf.height := (hashInput_inj hfit).2.1
    constructor
    · intro hk
      refine ⟨leaf, hleaf, ?_⟩
      rw [hheight]
      exact hk (Option.isSome_iff_exists.mpr ⟨_, hquorum⟩) hr q hq
    · intro ⟨j, hj, hle⟩ _ _ q' hq'
      have hjl : j = leaf := Option.some.inj (hj.symm.trans hleaf)
      have hqq : q' = q := Option.some.inj (hq'.symm.trans hq)
      rw [hqq, ← hheight, ← hjl]
      exact hle
  | ready hnode hr =>
    constructor
    · intro hk
      obtain ⟨j, hj, hle⟩ := hk _ hnode hr
      exact ⟨j, hj, hle q hq⟩
    · intro ⟨j, hj, hle⟩ node' hnode' _
      have hnn : node' = node := Option.some.inj (hnode'.symm.trans hnode)
      rw [hnn]
      refine ⟨j, hj, ?_⟩
      intro q' hq'
      have hqq : q' = q := Option.some.inj (hq'.symm.trans hq)
      rw [hqq]
      exact hle

/-- The block an installed certificate names is stored before the step if it is stored
after it. -/
theorem Installs.stored_before {d : Driver K} {a : Drive K} {node j : TreeNode K}
    {qc : GenericQC K} (hB : CollisionFree B) (h : d.Holds B) (hw : Within B d a)
    (hi : Installs d a node qc)
    (hj : (d.storage.inMemQueue.insert node.hash node).lookup qc.node = some j) :
    ∃ j', d.storage.get qc.node = some j' ∧ j'.height = j.height := by
  have hold : ∃ j', d.storage.get qc.node = some j' := by
    cases hi with
    | quorum _ _ => exact Option.isSome_iff_exists.mp h.storage.leaf_stored
    | ready hnode _ =>
      -- a node may name itself, but then it is stored: it was a leaf
      rcases HashMap.lookup_insert_cases hj with ⟨hself, -⟩ | hold
      · rw [hself]
        have hmem := List.mem_of_getElem? hnode
        exact Option.isSome_iff_exists.mp (h.produced_stored _ hmem)
      · exact ⟨j, hold⟩
  obtain ⟨j', hj'⟩ := hold
  refine ⟨j', hj', ?_⟩
  obtain ⟨z, hz, hzj⟩ := (h.storage.fits hB (hi.mem h hw)).lookup_height hj'
  have hjz : j = z := Option.some.inj (hj.symm.trans hz)
  rw [hjz]
  exact hzj.symm

/-- One step: as long as `qc_high` names a stored block, its height falls exactly when the
condition is violated. -/
theorem noRegress_iff_keepsHeight {d : Driver K} {a : Drive K} (hB : CollisionFree B)
    (h : d.Holds B) (hw : Within B d a) (hqc : d.qcNode.isSome) :
    NoRegress d a ↔ KeepsHeight d a := by
  obtain ⟨q, hq⟩ := Option.isSome_iff_exists.mp hqc
  unfold NoRegress
  cases step_effect d a with
  | grows hno hg =>
    constructor
    · intro _
      exact keepsHeight_of_not_installs hno
    · intro _
      exact HotstuffStorage.NoRegress.of_grows_trans hB hw h.storage hq hg
  | beat cmds ha hstore _ hqc =>
    subst ha
    have hfit := h.storage.fits hB (makeLeaf_mem hw)
    constructor
    · intro _
      trivial
    · intro _
      exact HotstuffStorage.NoRegress.of_write hq hfit hstore hqc
  | install node qc hi hstore _ hqc =>
    rw [keepsHeight_iff_of_installs hB h hi hq]
    constructor
    · intro ⟨before, after, hbefore, hafter, hle⟩
      have hqb : before = q := Option.some.inj (hbefore.symm.trans hq)
      unfold HotstuffStorage.get at hafter
      rw [hqc, hstore] at hafter
      obtain ⟨j, hj, hheight⟩ := hi.stored_before hB h hw hafter
      refine ⟨j, hj, ?_⟩
      rw [hheight, ← hqb]
      exact hle
    · intro ⟨j, hj, hle⟩
      obtain ⟨z, hz, hzj⟩ := (h.storage.fits hB (hi.mem h hw)).lookup_height hj
      refine ⟨q, z, hq, ?_, ?_⟩
      · unfold HotstuffStorage.get
        rw [hqc, hstore]
        exact hz
      · rw [hzj]
        exact hle

/-- Along every run of a replica over a fresh storage, whose blocks do not collide, the
height of the block of `qc_high` never falls exactly when every step meets the
condition. -/
theorem qcHigh_never_regresses_iff (hB : CollisionFree B) (hinit : initNode K ∈ B)
    (m : Machine K) (hm : FreshStorage m.storage) (actions : List (Drive K))
    (hw : Run.Each step (Within B) ⟨m, []⟩ actions) :
    Run.Each step NoRegress ⟨m, []⟩ actions ↔ Run.Each step KeepsHeight ⟨m, []⟩ actions := by
  apply Run.each_iff (I := fun d => d.Holds B ∧ d.qcNode.isSome) _ hw
  · intro d a hI hwa
    exact noRegress_iff_keepsHeight hB hI.1 hwa hI.2
  · intro d a hI hwa hstep
    obtain ⟨-, after, -, hafter, -⟩ := hstep
    exact ⟨step_holds hI.1 hwa, Option.isSome_iff_exists.mpr ⟨after, hafter⟩⟩
  · refine ⟨fresh_holds hm hinit, ?_⟩
    show (m.storage.inMemQueue.lookup m.storage.state.qcHigh.node).isSome
    rw [hm.qcHigh_eq, hm.inMemQueue_eq]
    show (((∅ : BlockStore K).insert (initNodeHash K) (initNode K)).lookup (initNodeHash K)).isSome
    rw [Finmap.lookup_insert]
    rfl

end Driver

namespace Symbolic

open Driver

/-- The run raises `qc_high` from the genesis block to the leader's own proposal. -/
theorem qcHigh_rises_on_goodRun :
    ((goodRun.foldl step driven).qcNode.map TreeNode.height = some 1) ∧
      Run.Each step NoRegress driven goodRun := by
  refine ⟨by decide +kernel, ?_⟩
  apply (qcHigh_never_regresses_iff collisionFree_goodBlocks List.mem_cons_self
    (fresh 4 0) (.inMem 4 _ _ _) goodRun within_goodRun).mpr
  have hbeat : Run.Each step KeepsHeight driven beatRun := by
    -- one vote and the leader's own are no quorum
    refine ⟨trivial, trivial, ?_, trivial⟩
    intro hsome
    exact absurd hsome (by decide +kernel)
  have hquorum : KeepsHeight (beatRun.foldl step driven)
      (.event (.recvSign (ctxOf 2) p1 (voteBy 2 p1))) := by
    intro _ _ q hq
    have hgenesis : (beatRun.foldl step driven).qcNode = some (initNode symbolic) := by
      decide +kernel
    rw [← Option.some.inj (hgenesis.symm.trans hq)]
    decide +kernel
  have hready : KeepsHeight (certifiedRun.foldl step driven) (.ready 0) := by
    intro node hnode hr
    exact absurd hr (not_raises_certifiedRun hnode)
  have hnews : Run.Each step KeepsHeight driven certifiedRun :=
    Run.Each.snoc (hbeat.snoc hquorum) trivial
  exact hnews.snoc hready

/-- A block of height 3 on the genesis block. -/
def x3 : TreeNode symbolic := block 9 3 (initNodeHash symbolic) (initQc symbolic)

/-- A late quorum for the first of two proposals, and two votes for `x3`. -/
def fallingRun : List (Drive symbolic) :=
  lateRun ++ [.event (.recvSign (ctxOf 2) p1 (voteBy 2 p1)),
    .event (.recvSign (ctxOf 1) x3 (voteBy 1 x3)), .event (.recvSign (ctxOf 2) x3 (voteBy 2 x3))]

/-- The vote that completes the quorum for `x3`. -/
def lastVote : Drive symbolic := .event (.recvSign (ctxOf 3) x3 (voteBy 3 x3))

/-- The certificate built from the votes for `x3` names the leaf, of height 1, and replaces
one for a block of height 2. -/
theorem qcHigh_falls_on_late_votes :
    ¬ Run.Each step NoRegress driven (fallingRun ++ [lastVote]) := by
  intro h
  obtain ⟨before, after, hbefore, hafter, hle⟩ := h.at
  have hhigh : (fallingRun.foldl step driven).qcNode.map TreeNode.height = some 2 := by
    decide +kernel
  have hlow : ((fallingRun.foldl step driven).step lastVote).qcNode.map TreeNode.height = some 1 := by
    decide +kernel
  have hb : before.height = 2 := by
    have heq : (fallingRun.foldl step driven).qcNode = some before := hbefore
    rw [heq] at hhigh
    exact Option.some.inj hhigh
  have ha : after.height = 1 := by
    have heq : ((fallingRun.foldl step driven).step lastVote).qcNode = some after := hafter
    rw [heq] at hlow
    exact Option.some.inj hlow
  rw [hb, ha] at hle
  exact absurd hle (by decide)

end Symbolic

end HotstuffConsensus
