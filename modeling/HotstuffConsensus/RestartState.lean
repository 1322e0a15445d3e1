import HotstuffConsensus.LiteralScheme

/-!
# The state after a restart

The flusher writes the heights of leaf, lock and last commit, and nothing for `qc_high`.
Recovery looks the three nodes up by height and takes the justify of the leaf for
`qc_high`. A node comes back unchanged when it is `INIT_NODE`, or when its row and the
`qc` row the join finds hold what it held, including a justify whose view is the node's
own height, since that is what `map_row_to_proposal` puts there.
-/

namespace HotstuffConsensus

open Lib Database

variable {K : Crypto}

/-- The node comes back from its rows: the first flushed proposal of its height has its
transactions and parent, the first flushed certificate of that proposal's justify view
has the block and signature of its justify, and its justify carries its own height. A
node of height 0 is `INIT_NODE`. -/
def Restorable (tasks : List (DirtyData K)) (x : TreeNode K) : Prop :=
  if x.height = 0 then x = initNode K
  else x.justify.view = x.height ∧
    ∃ p q, firstProp tasks x.height = some p ∧ firstCert tasks p.justify.view = some q ∧
      p.txs = x.txs ∧ p.parent = x.parent ∧ q.node = x.justify.node ∧
      q.combinedSign = x.justify.combinedSign

/-- `qc_high` is the justify of the leaf, and leaf, lock and last commit come back. -/
structure StateRestorable (tasks : List (DirtyData K)) (state : InMemoryState K) : Prop where
  qcHigh : state.qcHigh = state.leaf.justify
  leaf : Restorable tasks state.leaf
  bLocked : Restorable tasks state.bLocked
  lastCommit : Restorable tasks state.lastCommit

theorem firstProp_height {tasks : List (DirtyData K)} {v : ViewNumber} {p : TreeNode K}
    (h : firstProp tasks v = some p) : p.height = v := by
  have hp := List.find?_some h
  rw [decide_eq_true_eq] at hp
  exact hp

/-- What recovery finds at a height is a given node. -/
theorem restoreProp_eq_iff {tasks : List (DirtyData K)} {k : NodeHash} {x : TreeNode K} :
    restoreProp tasks x.height = some (k, x) ↔
      x.justify.view = x.height ∧ x.justify.node = k ∧
        ∃ p q, firstProp tasks x.height = some p ∧ firstCert tasks p.justify.view = some q ∧
          p.txs = x.txs ∧ p.parent = x.parent ∧ q.node = k ∧
          q.combinedSign = x.justify.combinedSign := by
  unfold restoreProp
  constructor
  · intro h
    obtain ⟨p, hp, hq⟩ := Option.bind_eq_some_iff.mp h
    obtain ⟨q, hq, heq⟩ := Option.map_eq_some_iff.mp hq
    obtain ⟨hk, hx⟩ := Prod.mk.inj heq
    have hheight := firstProp_height hp
    have hjustify : x.justify = ⟨p.height, q.node, q.combinedSign⟩ := by
      rw [← hx]
      rfl
    refine ⟨by rw [hjustify]; exact hheight, by rw [hjustify]; exact hk, p, q, hp, hq, ?_, ?_,
      hk, by rw [hjustify]⟩
    · rw [← hx]
      rfl
    · rw [← hx]
      rfl
  · intro ⟨hview, hnode, p, q, hp, hq, htxs, hparent, hk, hsign⟩
    rw [hp, Option.bind_some, hq, Option.map_some, hk]
    have hheight := firstProp_height hp
    have hx : restored p q = x := by
      apply TreeNode.ext
      · exact hheight
      · exact htxs
      · exact hparent
      · apply GenericQC.ext
        · exact hheight.trans hview.symm
        · exact hk.trans hnode.symm
        · exact hsign
    rw [hx]

theorem pos_of_ne_zero {v : ViewNumber} (h : v ≠ 0) : 0 < v := by
  rw [UInt64.lt_iff_toNat_lt]
  have hne : v.toNat ≠ 0 := by
    intro h0
    exact h (UInt64.toNat_inj.mp h0)
  show 0 < v.toNat
  omega

/-- Looking a node up by its height gives it back exactly when it is restorable. -/
theorem restoreNode_eq_iff {tasks : List (DirtyData K)} {x : TreeNode K} :
    restoreNode tasks x.height = some x ↔ Restorable tasks x := by
  unfold restoreNode Restorable
  by_cases h0 : x.height = 0
  · have hpos : ¬ (0 : ViewNumber) < x.height := by
      rw [h0]
      exact lt_irrefl _
    rw [if_neg hpos, if_pos h0]
    constructor
    · intro h
      exact (Option.some.inj h).symm
    · intro h
      rw [h]
  · rw [if_pos (pos_of_ne_zero h0), if_neg h0]
    constructor
    · intro h
      obtain ⟨e, he, hx⟩ := Option.map_eq_some_iff.mp h
      have hpair : e = (e.1, x) := by rw [← hx]
      rw [hpair] at he
      obtain ⟨hview, hnode, p, q, hp, hq, htxs, hparent, hk, hsign⟩ := restoreProp_eq_iff.mp he
      exact ⟨hview, p, q, hp, hq, htxs, hparent, hk.trans hnode.symm, hsign⟩
    · intro ⟨hview, p, q, hp, hq, htxs, hparent, hk, hsign⟩
      have he : restoreProp tasks x.height = some (x.justify.node, x) :=
        restoreProp_eq_iff.mpr ⟨hview, rfl, p, q, hp, hq, htxs, hparent, hk, hsign⟩
      rw [he]
      rfl

/-- The whole state comes back exactly when its parts do. -/
theorem restoreState_eq_iff {tasks : List (DirtyData K)} {state : InMemoryState K} :
    restoreState tasks state = some state ↔ StateRestorable tasks state := by
  unfold restoreState
  constructor
  · intro h
    obtain ⟨leaf, hleaf, h⟩ := Option.bind_eq_some_iff.mp h
    obtain ⟨bLocked, hlocked, h⟩ := Option.bind_eq_some_iff.mp h
    obtain ⟨lastCommit, hcommit, h⟩ := Option.map_eq_some_iff.mp h
    have h1 : leaf = state.leaf := congrArg InMemoryState.leaf h
    have h2 : leaf.justify = state.qcHigh := congrArg InMemoryState.qcHigh h
    have h3 : bLocked = state.bLocked := congrArg InMemoryState.bLocked h
    have h4 : lastCommit = state.lastCommit := congrArg InMemoryState.lastCommit h
    rw [h1] at hleaf h2
    rw [h3] at hlocked
    rw [h4] at hcommit
    exact ⟨h2.symm, restoreNode_eq_iff.mp hleaf, restoreNode_eq_iff.mp hlocked,
      restoreNode_eq_iff.mp hcommit⟩
  · intro h
    rw [restoreNode_eq_iff.mpr h.leaf, restoreNode_eq_iff.mpr h.bLocked,
      restoreNode_eq_iff.mpr h.lastCommit]
    simp only [Option.bind_some, Option.map_some, ← h.qcHigh]

/-- With all flushes written, `recover_hotstuff_state` returns the state of the last flush
exactly when there was a flush and its state is restorable. -/
theorem state_survives_restart_iff {C : Codec K} (laws : CodecLaws C) {token : String}
    {db₀ db : Database} {s : HotstuffStorage K} {tasks : List (DirtyData K)}
    (h : Persisted C token db₀ s db tasks) (hd : s.Drained) :
    (∃ last, tasks.getLast? = some last ∧ db.recoverHotstuffState C = some last.state) ↔
      ∃ last, tasks.getLast? = some last ∧ StateRestorable tasks last.state := by
  rw [h.recoverHotstuffState_eq laws hd]
  constructor
  · intro ⟨last, hlast, hrec⟩
    rw [hlast, Option.bind_some] at hrec
    exact ⟨last, hlast, restoreState_eq_iff.mp hrec⟩
  · intro ⟨last, hlast, hrest⟩
    refine ⟨last, hlast, ?_⟩
    rw [hlast, Option.bind_some]
    exact restoreState_eq_iff.mpr hrest

namespace Literal

/-- The hash of an empty block of height 1 on the genesis block; it does not depend on the
justify. -/
def hash1 : NodeHash := (⟨1, [], initNodeHash literal, initQc literal⟩ : TreeNode literal).hash

/-- An empty block of height 1 whose certificate names the block itself. -/
def selfBlock : TreeNode literal := ⟨1, [], initNodeHash literal, ⟨1, hash1, literal.zeroed⟩⟩

/-- It becomes the leaf, and its justify `qc_high`. -/
def selfOps : List (StorageOp literal) := [.updateQcHigh selfBlock selfBlock.justify]

theorem selfBlock_restorable :
    StateRestorable [(after selfOps).dirtyData] (after selfOps).dirtyData.state := by
  have hleaf : (after selfOps).state.leaf = selfBlock := by decide +kernel
  have hqc : (after selfOps).state.qcHigh = selfBlock.justify := by decide +kernel
  have hlocked : (after selfOps).state.bLocked = initNode literal := by decide +kernel
  have hcommit : (after selfOps).state.lastCommit = initNode literal := by decide +kernel
  rw [HotstuffStorage.dirtyData_state]
  refine ⟨?_, ?_, ?_, ?_⟩
  · rw [hqc, hleaf]
  · rw [hleaf]
    exact ⟨rfl, selfBlock, selfBlock.justify, by decide +kernel, by decide +kernel, rfl, rfl, rfl, rfl⟩
  · rw [hlocked]
    exact rfl
  · rw [hcommit]
    exact rfl

/-- A state with that leaf survives a flush and a restart. -/
theorem selfBlock_survives_restart :
    ∃ s, Persisted codec conf.token db₀ s (dbAfter selfOps) [(after selfOps).dirtyData] ∧
      s.Drained ∧ (after selfOps).state.leaf = selfBlock ∧
      ∃ last, [(after selfOps).dirtyData].getLast? = some last ∧
        (dbAfter selfOps).recoverHotstuffState codec = some last.state := by
  obtain ⟨s, hs, hd, -, -⟩ := persisted_once selfOps (by decide +kernel)
  refine ⟨s, hs, hd, by decide +kernel, ?_⟩
  exact (state_survives_restart_iff codec_laws hs hd).mpr ⟨_, rfl, selfBlock_restorable⟩

/-- An empty block of height 1 justified by the genesis certificate, as a leader makes it
in view 1. -/
def block1 : TreeNode literal := ⟨1, [], initNodeHash literal, initQc literal⟩

/-- The block is stored and made the leaf. -/
def leafOps : List (StorageOp literal) := [.updateLeaf block1]

/-- After one flush, recovery gives the leaf a justify that names the leaf itself in view 1,
and takes it for `qc_high`. -/
theorem state_lost_on_restart :
    ∃ s, Persisted codec conf.token db₀ s (dbAfter leafOps) [(after leafOps).dirtyData] ∧
      s.Drained ∧
      ¬ ∃ last, [(after leafOps).dirtyData].getLast? = some last ∧
        (dbAfter leafOps).recoverHotstuffState codec = some last.state := by
  obtain ⟨s, hs, hd, -, -⟩ := persisted_once leafOps (by decide +kernel)
  refine ⟨s, hs, hd, ?_⟩
  intro ⟨last, hlast, hrec⟩
  obtain rfl := Option.some.inj hlast
  rw [hs.recoverHotstuffState_eq codec_laws hd] at hrec
  have hrestored : (restoreState [(after leafOps).dirtyData] (after leafOps).state).map
      (fun st => st.qcHigh.view) = some 1 := by decide +kernel
  have hqc : (after leafOps).state.qcHigh.view = 0 := by decide +kernel
  have hsame : restoreState [(after leafOps).dirtyData] (after leafOps).state
      = some (after leafOps).state := hrec
  rw [hsame, Option.map_some, hqc] at hrestored
  exact absurd (Option.some.inj hrestored) (by decide)

end Literal

end HotstuffConsensus
