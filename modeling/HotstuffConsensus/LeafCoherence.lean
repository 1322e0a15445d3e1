import HotstuffConsensus.Driver

/-!
# Leaf and `qc_high`

A leader proposes on the leaf and justifies with `qc_high`, so the proposal extends the
block it certifies when the leaf does. Proposals and `NewView` messages set the leaf to
the very block the certificate names, and a beat appends to the leaf. A vote and an
`UpdateQCHigh` event set leaf and certificate independently; the two stay coherent along a
run exactly when the block handed over by such a step extends the one its certificate
names.
-/

namespace HotstuffConsensus

open Lib Relation

variable {K : Crypto}

/-- A write adds no ancestor that the written block does not have. -/
theorem Reaches.of_insert {store : BlockStore K} {h k : NodeHash} {x y : TreeNode K}
    (hr : Reaches (store.insert k x) h y) : Reaches store h y ∨ Reaches store h x := by
  induction hr with
  | here hy => exact Or.inl (.here hy)
  | parent hp _ ih =>
    rcases HashMap.lookup_insert_cases hp with ⟨-, hpx⟩ | hold
    · -- the path passes through the new block, and continues from there
      rw [hpx] at ih
      rcases ih with ih | ih
      · exact Or.inr ih
      · exact Or.inr ih
    · rcases ih with ih | ih
      · exact Or.inl (.parent hold ih)
      · exact Or.inr ih

/-- The leaf is the block `qc_high` names or a descendant of it. -/
def HotstuffStorage.LeafExtends (s : HotstuffStorage K) : Prop :=
  Reaches s.inMemQueue s.state.qcHigh.node s.state.leaf

namespace HotstuffStorage.LeafExtends

variable {s s' : HotstuffStorage K} {B : Set (TreeNode K)}

theorem of_grows {N : TreeNode K → Prop} (hB : CollisionFree B) (hN : ∀ x, N x → x ∈ B)
    (h : s.Holds B) (hl : s.LeafExtends) (hg : Grows N s s') : s'.LeafExtends := by
  unfold HotstuffStorage.LeafExtends at hl ⊢
  cases hg with
  | quiet hstore hleaf hqc =>
    rw [hstore, hleaf, hqc]
    exact hl
  | append p hp hstore hleaf hqc =>
    rw [hstore, hleaf, hqc]
    exact hl.insert (h.fits hB (hN p hp))
  | certify node qc hn _ _ hleaf hqc =>
    rw [hleaf, hqc]
    exact .here (h.keyed _ _ hn)

theorem of_grows_trans {N : TreeNode K → Prop} (hB : CollisionFree B) (hN : ∀ x, N x → x ∈ B)
    (h : s.Holds B) (hl : s.LeafExtends) (hg : ReflTransGen (Grows N) s s') :
    s'.LeafExtends := by
  induction hg with
  | refl => exact hl
  | tail hsteps hstep ih => exact ih.of_grows hB hN (h.grows_trans hN hsteps) hstep

end HotstuffStorage.LeafExtends

namespace Driver

variable {B : Set (TreeNode K)}

/-- The leaf extends the block of `qc_high`, and every node `make_leaf` would make extends
the block its justify names. -/
structure Coherent (d : Driver K) : Prop where
  leaf : d.storage.LeafExtends
  made : ∀ cmds, Reaches d.storage.inMemQueue (d.machine.makeLeaf cmds).justify.node
    (d.machine.makeLeaf cmds)

/-- When a vote completes a quorum for a proposal above the block of `qc_high`, the proposal
extends the leaf; when an `UpdateQCHigh` event carries a node above it, the node extends
the block of its justify. -/
def KeepsLeaf (d : Driver K) : Drive K → Prop
  | .event (.recvSign ctx prop sign) =>
    (d.machine.voteQuorum ctx prop sign).isSome → d.storage.Raises prop →
      Reaches d.storage.inMemQueue d.storage.state.leaf.hash prop
  | .ready i =>
    ∀ node, d.produced[i]? = some node → d.storage.Raises node →
      Reaches d.storage.inMemQueue node.justify.node node
  | _ => True

/-- The parent of a made node is the leaf, up to fields its hash does not cover. -/
theorem reaches_makeLeaf {d : Driver K} (hB : CollisionFree B) (h : d.Holds B) {k : NodeHash}
    (hl : Reaches d.storage.inMemQueue k d.storage.state.leaf) (cmds : List Txn) :
    Reaches d.storage.inMemQueue k (d.machine.makeLeaf cmds) := by
  obtain ⟨stored, hstored⟩ := Option.isSome_iff_exists.mp h.storage.leaf_stored
  have hsame := h.storage.fits hB h.storage.leaf_mem stored hstored
  exact .parent hstored (hl.congr hsame.symm)

theorem coherent_iff {d : Driver K} (hB : CollisionFree B) (h : d.Holds B) :
    Coherent d ↔ d.storage.LeafExtends := by
  constructor
  · intro hc
    exact hc.leaf
  · intro hl
    exact ⟨hl, fun cmds => reaches_makeLeaf hB h hl cmds⟩

/-- A step that installs nothing meets the condition. -/
theorem keepsLeaf_of_not_installs {d : Driver K} {a : Drive K}
    (hno : ∀ node qc, ¬ Installs d a node qc) : KeepsLeaf d a := by
  unfold KeepsLeaf
  split
  · intro hsome hr
    obtain ⟨c, hc⟩ := Option.isSome_iff_exists.mp hsome
    exact absurd (.quorum hc hr) (hno _ _)
  · intro node hnode hr
    exact absurd (.ready hnode hr) (hno _ _)
  · trivial

/-- For a step that installs a certificate, the condition is that the block it installs
extends the one the certificate names. -/
theorem keepsLeaf_iff_of_installs {d : Driver K} {a : Drive K} {node : TreeNode K}
    {qc : GenericQC K} (hi : Installs d a node qc) :
    KeepsLeaf d a ↔ Reaches d.storage.inMemQueue qc.node node := by
  cases hi with
  | quorum hquorum hr =>
    constructor
    · intro hk
      exact hk (Option.isSome_iff_exists.mpr ⟨_, hquorum⟩) hr
    · intro hreach _ _
      exact hreach
  | ready hnode hr =>
    constructor
    · intro hk
      exact hk _ hnode hr
    · intro hreach node' hnode' _
      rw [Option.some.inj (hnode'.symm.trans hnode)]
      exact hreach

/-- One step: from a coherent state the next one is coherent exactly when the condition
holds. -/
theorem leafExtends_step_iff {d : Driver K} {a : Drive K} (hB : CollisionFree B)
    (h : d.Holds B) (hw : Within B d a) (hl : d.storage.LeafExtends) :
    (d.step a).storage.LeafExtends ↔ KeepsLeaf d a := by
  cases step_effect d a with
  | grows hno hg =>
    constructor
    · intro _
      exact keepsLeaf_of_not_installs hno
    · intro _
      exact hl.of_grows_trans hB hw h.storage hg
  | beat cmds ha hstore hleaf hqc =>
    subst ha
    have hfit := h.storage.fits hB (makeLeaf_mem hw)
    constructor
    · intro _
      trivial
    · intro _
      unfold HotstuffStorage.LeafExtends
      rw [hstore, hleaf, hqc]
      exact (reaches_makeLeaf hB h hl cmds).insert hfit
  | install node qc hi hstore hleaf hqc =>
    rw [keepsLeaf_iff_of_installs hi]
    unfold HotstuffStorage.LeafExtends
    rw [hstore, hleaf, hqc]
    constructor
    · intro hreach
      -- a path through the installed block already starts there
      exact hreach.of_insert.elim id id
    · intro hreach
      exact hreach.insert (h.storage.fits hB (hi.mem h hw))

/-- A replica over a fresh storage, whose blocks do not collide, starts coherent and stays
so along a run exactly when every step meets the condition. -/
theorem coherent_iff_keepsLeaf (hB : CollisionFree B) (hinit : initNode K ∈ B)
    (m : Machine K) (hm : FreshStorage m.storage) (actions : List (Drive K))
    (hw : Run.Each step (Within B) ⟨m, []⟩ actions) :
    Coherent ⟨m, []⟩ ∧
      (Run.Each step (fun d a => Coherent (d.step a)) ⟨m, []⟩ actions ↔
        Run.Each step KeepsLeaf ⟨m, []⟩ actions) := by
  have hstart : (⟨m, []⟩ : Driver K).Holds B := fresh_holds hm hinit
  have hleaf : (⟨m, []⟩ : Driver K).storage.LeafExtends := by
    show Reaches m.storage.inMemQueue m.storage.state.qcHigh.node m.storage.state.leaf
    rw [hm.leaf_eq, hm.qcHigh_eq]
    exact .here rfl
  refine ⟨(coherent_iff hB hstart).mpr hleaf, ?_⟩
  apply Run.each_iff (I := fun d => d.Holds B ∧ d.storage.LeafExtends) ⟨hstart, hleaf⟩ hw
  · intro d a hI hwa
    rw [coherent_iff hB (step_holds hI.1 hwa)]
    exact leafExtends_step_iff hB hI.1 hwa hI.2
  · intro d a hI hwa hstep
    exact ⟨step_holds hI.1 hwa, hstep.leaf⟩

end Driver

namespace Symbolic

open Driver

/-- The run that raises `qc_high` to the leader's own proposal stays coherent. -/
theorem coherent_on_goodRun :
    (goodRun.foldl step driven).storage.state.leaf = p1 ∧ Coherent driven ∧
      Run.Each step (fun d a => Coherent (d.step a)) driven goodRun := by
  have hiff := coherent_iff_keepsLeaf collisionFree_goodBlocks List.mem_cons_self
    (fresh 4 0) (.inMem 4 _ _ _) goodRun within_goodRun
  have hbeat : Run.Each step KeepsLeaf driven beatRun := by
    refine ⟨trivial, trivial, ?_, trivial⟩
    intro hsome
    exact absurd hsome (by decide +kernel)
  have hquorum : KeepsLeaf (beatRun.foldl step driven)
      (.event (.recvSign (ctxOf 2) p1 (voteBy 2 p1))) := by
    intro _ _
    exact .here (by decide +kernel)
  have hready : KeepsLeaf (certifiedRun.foldl step driven) (.ready 0) := by
    intro node hnode hr
    exact absurd hr (not_raises_certifiedRun hnode)
  have hnews : Run.Each step KeepsLeaf driven certifiedRun :=
    Run.Each.snoc (hbeat.snoc hquorum) trivial
  exact ⟨by decide +kernel, hiff.1, hiff.2.mpr (hnews.snoc hready)⟩

/-- The late vote that completes the quorum for the first proposal. -/
def lateVote : Drive symbolic := .event (.recvSign (ctxOf 2) p1 (voteBy 2 p1))

/-- It makes the first proposal the leaf and has `qc_high` name the second, its child. -/
theorem incoherent_after_late_votes :
    ¬ Run.Each step (fun d a => Coherent (d.step a)) driven (lateRun ++ [lateVote]) := by
  intro h
  have hleaf : ((lateRun.foldl step driven).step lateVote).storage.LeafExtends := h.at.leaf
  have hroot : ((lateRun.foldl step driven).step lateVote).storage.inMemQueue.lookup
      (initNode symbolic).parent = none := by decide +kernel
  have hparent : ((lateRun.foldl step driven).step lateVote).storage.inMemQueue.lookup
      p1.parent = some (initNode symbolic) := by decide +kernel
  have hstate : ((lateRun.foldl step driven).step lateVote).storage.state.leaf = p1 ∧
      ((lateRun.foldl step driven).step lateVote).storage.state.qcHigh.node = p2.hash := by
    decide +kernel
  unfold HotstuffStorage.LeafExtends at hleaf
  rw [hstate.1, hstate.2] at hleaf
  cases hleaf with
  | here hx => exact absurd hx (by decide +kernel)
  | parent hp hr =>
    rw [hparent] at hp
    rw [← Option.some.inj hp] at hr
    cases hr with
    | here hx => exact absurd hx (by decide +kernel)
    | parent hp' _ =>
      rw [hroot] at hp'
      cases hp'

end Symbolic

end HotstuffConsensus
