import HotstuffConsensus.CommitRule
import HotstuffConsensus.Driver

/-!
# The blocks the state refers to are stored

`update_qc_high` compares with the block that `qc_high` names, and does nothing when that block
is not stored: a replica with such a `qc_high` is frozen. Leaf, lock and last commit are always
stored, and a certificate formed from votes names the leaf.

The certificate that comes with a `Ready::UpdateQCHigh` is the justify of a leaf. A leaf that
came with votes was never checked, and its justify may name anything.
-/

namespace HotstuffConsensus

open Lib

variable {K : Crypto}

/-- Blocks are stored under their hash, and those that the state refers to are stored. -/
structure HotstuffStorage.Closed (s : HotstuffStorage K) : Prop where
  keyed : Keyed s.inMemQueue
  qcHigh : (s.get s.state.qcHigh.node).isSome
  leaf : (s.get s.state.leaf.hash).isSome
  bLocked : (s.get s.state.bLocked.hash).isSome
  lastCommit : (s.get s.state.lastCommit.hash).isSome

/-! ## Lock and last commit -/

namespace Machine

/-- Blocks are stored under their hash, and lock and last commit are stored. -/
structure Anchored (m : Machine K) : Prop where
  keyed : Keyed m.storage.inMemQueue
  bLocked : (m.storage.get m.storage.state.bLocked.hash).isSome
  lastCommit : (m.storage.get m.storage.state.lastCommit.hash).isSome

theorem stored_isSome {m : Machine K} {k : NodeHash} (h : (m.storage.get k).isSome)
    (p : TreeNode K) : ((m.stored p).storage.get k).isSome := by
  unfold stored
  split
  · exact HotstuffStorage.Holds.isSome_insert h p.hash p
  · exact h

/-- A block found in a keyed store is stored under its hash. -/
theorem isSome_of_get {s : HotstuffStorage K} (hk : Keyed s.inMemQueue) {k : NodeHash}
    {x : TreeNode K} (h : s.get k = some x) : (s.get x.hash).isSome := by
  rw [hk k x h, h]
  rfl

theorem Anchored.processProp {m : Machine K} (h : Anchored m) (p : TreeNode K) :
    Anchored (m.processProp p) := by
  have hk := processProp_keyed h.keyed p
  have hstore := processProp_inMemQueue h.keyed p
  have hgrow : ∀ k, (m.storage.get k).isSome → ((m.processProp p).storage.get k).isSome := by
    intro k hsome
    have hnext := stored_isSome hsome p
    unfold HotstuffStorage.get at hnext ⊢
    rw [hstore]
    exact hnext
  refine ⟨hk, ?_, ?_⟩
  · rcases ((m.stored p).updateNodes_locked p).source with hsame | hsecond
    · have hlock : (m.processProp p).storage.state.bLocked = m.storage.state.bLocked :=
        hsame.trans (m.stored_frame p).1
      rw [hlock]
      exact hgrow _ h.bLocked
    · rw [HotstuffStorage.findThreeChain_second?] at hsecond
      obtain ⟨b3, -, hb2⟩ := Option.bind_eq_some_iff.mp hsecond
      apply isSome_of_get hk (k := b3.justify.node)
      unfold HotstuffStorage.get at hb2 ⊢
      rw [hstore]
      exact hb2
  · rcases processProp_commit_cases h.keyed p with ⟨b, hchain, hc⟩ | ⟨-, hkeep⟩
    · obtain ⟨b'', b', -, -, hb, -⟩ := hchain
      rw [hc.lastCommit]
      exact isSome_of_get hk hb
    · rw [hkeep.lastCommit]
      exact hgrow _ h.lastCommit

theorem anchored_of_fresh {m : Machine K} (hm : FreshStorage m.storage) : Anchored m := by
  obtain ⟨token, hstate⟩ := hm.state_eq
  have hinit : (m.storage.get (initNode K).hash).isSome := by
    unfold HotstuffStorage.get
    rw [hm.inMemQueue_eq, hash_initNode, Finmap.lookup_insert]
    rfl
  refine ⟨hm.keyed, ?_, ?_⟩
  · rw [hstate]
    exact hinit
  · rw [hstate]
    exact hinit

end Machine

namespace Driver

theorem step_isSome (d : Driver K) (a : Drive K) {k : NodeHash} (h : (d.storage.get k).isSome) :
    ((d.step a).storage.get k).isSome :=
  (step_effect d a).isSome_lookup h

theorem step_anchored {d : Driver K} (h : d.machine.Anchored) (a : Drive K) :
    (d.step a).machine.Anchored := by
  have hgrow := fun k => d.step_isSome a (k := k)
  unfold step at hgrow ⊢
  cases hc : d.callOf a with
  | none => exact h
  | some c =>
    rw [hc] at hgrow
    refine Machine.call_of_invariant (fun _ p hm => hm.processProp p) h c ?_
    intro hidle
    refine ⟨Machine.call_keyed h.keyed c, ?_, ?_⟩
    · rw [hidle.bLocked]
      exact hgrow _ h.bLocked
    · rw [hidle.lastCommit]
      exact hgrow _ h.lastCommit

/-! ## The leaf and `qc_high` -/

/-- When an `UpdateQCHigh` event carries a node above the block of `qc_high`, the block which
its justify names is stored. -/
def KeepsClosed (d : Driver K) : Drive K → Prop
  | .ready i => ∀ node, d.produced[i]? = some node → d.storage.Raises node →
      (d.storage.get node.justify.node).isSome
  | _ => True

/-- The leaf and the produced nodes are stored. -/
structure LeavesStored (d : Driver K) : Prop where
  leaf : (d.storage.get d.storage.state.leaf.hash).isSome
  produced : ∀ x ∈ d.produced, (d.storage.get x.hash).isSome

end Driver

/-! ## Steps -/

theorem Grows.leaf_isSome {N : TreeNode K → Prop} {s s' : HotstuffStorage K}
    (h : Grows N s s') (hleaf : (s.get s.state.leaf.hash).isSome) :
    (s'.get s'.state.leaf.hash).isSome := by
  cases h with
  | quiet hq hl _ =>
    unfold HotstuffStorage.get
    rw [hq, hl]
    exact hleaf
  | append p _ hq hl _ =>
    unfold HotstuffStorage.get
    rw [hq, hl]
    exact HotstuffStorage.Holds.isSome_insert hleaf _ _
  | certify node _ _ _ hq hl _ =>
    unfold HotstuffStorage.get
    rw [hq, hl, Finmap.lookup_insert]
    rfl

theorem Grows.qcHigh_isSome {N : TreeNode K → Prop} {s s' : HotstuffStorage K}
    (h : Grows N s s') (hqc : (s.get s.state.qcHigh.node).isSome) :
    (s'.get s'.state.qcHigh.node).isSome := by
  cases h with
  | quiet hq _ hc =>
    unfold HotstuffStorage.get
    rw [hq, hc]
    exact hqc
  | append p _ hq _ hc =>
    unfold HotstuffStorage.get
    rw [hq, hc]
    exact HotstuffStorage.Holds.isSome_insert hqc _ _
  | certify node qc hn _ hq _ hc =>
    unfold HotstuffStorage.get at hn ⊢
    rw [hq, hc]
    apply HotstuffStorage.Holds.isSome_insert
    rw [hn]
    rfl

namespace Driver

theorem step_leaf_isSome {d : Driver K} (h : (d.storage.get d.storage.state.leaf.hash).isSome)
    (a : Drive K) : ((d.step a).storage.get (d.step a).storage.state.leaf.hash).isSome := by
  cases step_effect d a with
  | grows _ hg =>
    exact Grows.trans_of_invariant (I := fun s => (s.get s.state.leaf.hash).isSome)
      (fun _ _ hstep => hstep.leaf_isSome) hg h
  | beat cmds _ hq hl _ =>
    unfold HotstuffStorage.get
    rw [hq, hl, Finmap.lookup_insert]
    rfl
  | install node _ _ hq hl _ =>
    unfold HotstuffStorage.get
    rw [hq, hl, Finmap.lookup_insert]
    rfl

theorem LeavesStored.step {d : Driver K} (h : d.LeavesStored) (a : Drive K) :
    (d.step a).LeavesStored := by
  have hleaf := step_leaf_isSome h.leaf a
  refine ⟨hleaf, ?_⟩
  intro x hx
  rcases step_produced hx with hx | hx
  · exact d.step_isSome a (h.produced x hx)
  · rw [hx]
    exact hleaf

theorem keepsClosed_of_not_installs {d : Driver K} {a : Drive K}
    (hno : ∀ node qc, ¬ Installs d a node qc) : KeepsClosed d a := by
  unfold KeepsClosed
  split
  · intro node hnode hr
    exact absurd (.ready hnode hr) (hno _ _)
  · trivial

/-- Where the block of `qc_high` is stored, the next one is exactly when the step meets the
condition. -/
theorem qcHigh_step_iff {d : Driver K} (hl : d.LeavesStored)
    (hqc : (d.storage.get d.storage.state.qcHigh.node).isSome) (a : Drive K) :
    ((d.step a).storage.get (d.step a).storage.state.qcHigh.node).isSome ↔ KeepsClosed d a := by
  cases step_effect d a with
  | grows hno hg =>
    have hnext := Grows.trans_of_invariant (I := fun s => (s.get s.state.qcHigh.node).isSome)
      (fun _ _ hstep => hstep.qcHigh_isSome) hg hqc
    exact iff_of_true hnext (keepsClosed_of_not_installs hno)
  | beat cmds ha hq _ hc =>
    subst ha
    refine iff_of_true ?_ trivial
    rw [hc]
    exact d.step_isSome _ hqc
  | install node qc hi hq _ hc =>
    rw [hc]
    cases hi with
    | quorum hquorum hr =>
      -- the certificate names the leaf
      refine iff_of_true ?_ trivial
      exact d.step_isSome _ hl.leaf
    | @ready i _ hnode hr =>
      constructor
      · intro hsome node' hnode' _
        rw [← Option.some.inj (hnode.symm.trans hnode')]
        unfold HotstuffStorage.get at hsome ⊢
        rw [hq, HashMap.lookup_insert_eq_ite] at hsome
        split at hsome
        · -- the justify names the node itself, which was stored when it was produced
          rename_i hself
          rw [hself]
          exact hl.produced node (List.mem_of_getElem? hnode)
        · exact hsome
      · intro hkeep
        exact d.step_isSome _ (hkeep node hnode hr)

/-- A replica over a fresh storage starts closed and stays so along a run exactly when no
`UpdateQCHigh` event that raises `qc_high` carries a justify for an unknown block. -/
theorem closed_iff_keepsClosed (m : Machine K) (hm : FreshStorage m.storage)
    (actions : List (Drive K)) :
    m.storage.Closed ∧
      (Run.Each step (fun d a => (d.step a).storage.Closed) ⟨m, []⟩ actions ↔
        Run.Each step KeepsClosed ⟨m, []⟩ actions) := by
  obtain ⟨token, hstate⟩ := hm.state_eq
  have hanchor := Machine.anchored_of_fresh hm
  have hlast : m.storage.state.lastCommit = initNode K := by rw [hstate]
  have hinit : (m.storage.get (initNode K).hash).isSome := by
    rw [← hlast]
    exact hanchor.lastCommit
  have hleaf : (m.storage.get m.storage.state.leaf.hash).isSome := by
    rw [hm.leaf_eq]
    exact hinit
  have hqc : (m.storage.get m.storage.state.qcHigh.node).isSome := by
    rw [hm.qcHigh_eq]
    exact hinit
  refine ⟨⟨hm.keyed, hqc, hleaf, hanchor.bLocked, hanchor.lastCommit⟩, ?_⟩
  apply Run.each_iff (I := fun d => d.machine.Anchored ∧ d.LeavesStored ∧
      (d.storage.get d.storage.state.qcHigh.node).isSome) (R := fun _ _ => True)
  · refine ⟨hanchor, ⟨hleaf, ?_⟩, hqc⟩
    intro x hx
    cases hx
  · exact Run.Each.of_forall (fun _ _ => trivial) _ _
  · rintro d a ⟨ha, hl, hq⟩ -
    rw [← qcHigh_step_iff hl hq a]
    constructor
    · intro h
      exact h.qcHigh
    · intro h
      have hnext := step_anchored ha a
      exact ⟨hnext.keyed, h, step_leaf_isSome hl.leaf a, hnext.bLocked, hnext.lastCommit⟩
  · rintro d a ⟨ha, hl, -⟩ - hclosed
    exact ⟨step_anchored ha a, hl.step a, hclosed.qcHigh⟩

end Driver

namespace Symbolic

open Driver

/-- A beat, and a `NewView` message. -/
def beatNewViewRun : List (Drive symbolic) :=
  [.increaseView 1, .event (.newTx [⟨[1]⟩]), .event (.recvNewViewMsg (ctxOf 1) (initQc symbolic))]

/-- The `UpdateQCHigh` event of the message raises `qc_high` to the justify of the leader's own
proposal. -/
theorem closed_on_beatNewViewRun :
    (beatNewViewRun.foldl step driven).produced[0]? = some p1 ∧
      Run.Each step (fun d a => (d.step a).storage.Closed) driven
        (beatNewViewRun ++ [.ready 0]) := by
  have hprod : (beatNewViewRun.foldl step driven).produced[0]? = some p1 := by decide +kernel
  have hready : KeepsClosed (beatNewViewRun.foldl step driven) (.ready 0) := by
    intro node hnode _
    rw [← Option.some.inj (hprod.symm.trans hnode)]
    decide +kernel
  have hrun : Run.Each step KeepsClosed driven beatNewViewRun :=
    ⟨trivial, trivial, trivial, trivial⟩
  exact ⟨hprod, (closed_iff_keepsClosed (fresh 4 0) (.inMem 4 _ _ _) _).2.mpr
    (hrun.snoc hready)⟩

/-- A block of height 5 whose justify names a block the replica does not have. -/
def strayBlock : TreeNode symbolic := block 9 5 a1.hash (certFor a1)

/-- A quorum of votes for it arrives, and then a `NewView` message. -/
def strayRun : List (Drive symbolic) :=
  [.event (.recvSign (ctxOf 1) strayBlock (voteBy 1 strayBlock)),
    .event (.recvSign (ctxOf 2) strayBlock (voteBy 2 strayBlock)),
    .event (.recvSign (ctxOf 3) strayBlock (voteBy 3 strayBlock)),
    .event (.recvNewViewMsg (ctxOf 1) (initQc symbolic))]

/-- After the `UpdateQCHigh` event of the message, `qc_high` names a block that is not stored. -/
theorem not_closed_after_strayRun :
    ¬ Run.Each step (fun d a => (d.step a).storage.Closed) driven (strayRun ++ [.ready 0]) := by
  intro h
  have hsome : ((strayRun.foldl step driven).step (.ready 0)).qcNode.isSome := h.at.qcHigh
  have hnone : ((strayRun.foldl step driven).step (.ready 0)).qcNode = none := by decide +kernel
  rw [hnone] at hsome
  cases hsome

end Symbolic

end HotstuffConsensus
