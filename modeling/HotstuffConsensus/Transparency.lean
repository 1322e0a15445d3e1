import HotstuffConsensus.MachineTheorems

/-!
# What the consensus does not depend on

A storage holds more than the machine reads: the channel to the flusher, the queues of dirty
data, the timeout certificates and the `NewView` messages. Two storages are `Alike` when they
agree on the rest, the consensus state and the block store. Whatever happens to the other
fields, machines over alike storages return the same results and stay alike
(`processSafetyEvent_alike`).
-/

namespace HotstuffConsensus

open Lib

variable {K : Crypto}

namespace HotstuffStorage

/-- The same consensus state and the same blocks. -/
structure Alike (s s' : HotstuffStorage K) : Prop where
  state : s'.state = s.state
  inMemQueue : s'.inMemQueue = s.inMemQueue

namespace Alike

variable {s s' s'' : HotstuffStorage K}

theorem refl (s : HotstuffStorage K) : Alike s s := ⟨rfl, rfl⟩

theorem trans (h : Alike s s') (h' : Alike s' s'') : Alike s s'' :=
  ⟨h'.state.trans h.state, h'.inMemQueue.trans h.inMemQueue⟩

theorem get (h : Alike s s') (k : NodeHash) : s'.get k = s.get k := by
  unfold HotstuffStorage.get
  rw [h.inMemQueue]

theorem raises (h : Alike s s') (node : TreeNode K) : s'.Raises node ↔ s.Raises node := by
  unfold Raises
  rw [h.get, h.state]

theorem appendNewNode (h : Alike s s') (x : TreeNode K) :
    Alike (s.appendNewNode x) (s'.appendNewNode x) := by
  refine ⟨h.state, ?_⟩
  rw [appendNewNode_inMemQueue, appendNewNode_inMemQueue, h.inMemQueue]

theorem updateLeaf (h : Alike s s') (x : TreeNode K) :
    Alike (s.updateLeaf x) (s'.updateLeaf x) := by
  constructor
  · rw [updateLeaf_state, updateLeaf_state, h.state]
  · rw [updateLeaf_inMemQueue, updateLeaf_inMemQueue, h.inMemQueue]

theorem updateVheight (h : Alike s s') (v : ViewNumber) :
    Alike (s.updateVheight v) (s'.updateVheight v) := by
  refine ⟨?_, h.inMemQueue⟩
  rw [updateVheight_state, updateVheight_state, h.state]

theorem updateLockedNode (h : Alike s s') (x : TreeNode K) :
    Alike (s.updateLockedNode x) (s'.updateLockedNode x) := by
  refine ⟨?_, h.inMemQueue⟩
  rw [updateLockedNode_state, updateLockedNode_state, h.state]

theorem increaseView (h : Alike s s') (v : ViewNumber) :
    Alike (s.increaseView v) (s'.increaseView v) := by
  refine ⟨?_, h.inMemQueue⟩
  rw [increaseView_state, increaseView_state, h.state]

theorem commit (h : Alike s s') (x : TreeNode K) : Alike (s.commit x) (s'.commit x) := by
  constructor
  · rw [commit_state, commit_state, h.state]
  · rw [commit_inMemQueue, commit_inMemQueue, h.inMemQueue]

theorem updateQcHigh (h : Alike s s') (node : TreeNode K) (qc : GenericQC K) :
    Alike (s.updateQcHigh node qc) (s'.updateQcHigh node qc) := by
  rcases updateQcHigh_cases s node qc with ⟨hr, heq⟩ | ⟨hr, hst, hq⟩
  · rw [heq, updateQcHigh_of_not_raises (mt (h.raises node).mp hr)]
    exact h
  · obtain ⟨hst', hq'⟩ := updateQcHigh_of_raises qc ((h.raises node).mpr hr)
    constructor
    · rw [hst', hst, h.state]
    · rw [hq', hq, h.inMemQueue]

theorem livenessUpdateQcHigh (h : Alike s s') (node : TreeNode K) (qc : GenericQC K) :
    Alike (s.livenessUpdateQcHigh node qc) (s'.livenessUpdateQcHigh node qc) :=
  ⟨(h.updateQcHigh node qc).state, (h.updateQcHigh node qc).inMemQueue⟩

theorem findThreeChain (h : Alike s s') (node : TreeNode K) :
    s'.findThreeChain node = s.findThreeChain node := by
  unfold HotstuffStorage.findThreeChain
  simp only [h.get]

theorem isConflicting (h : Alike s s') (a b : TreeNode K) :
    s'.isConflicting a b = s.isConflicting a b := by
  unfold HotstuffStorage.isConflicting
  rw [h.inMemQueue]

end Alike

/-! What the pacemaker and the flusher do to a storage besides. -/

theorem alike_setDirty (s : HotstuffStorage K) : Alike s s.setDirty := ⟨rfl, rfl⟩

theorem alike_appendTc (s : HotstuffStorage K) (tc : TimeoutCertificate K) :
    Alike s (s.appendTc tc).1 :=
  ⟨(s.appendTc_frame tc).1, (s.appendTc_frame tc).2⟩

theorem alike_asyncFlush (s : HotstuffStorage K) : Alike s s.asyncFlush :=
  ⟨s.asyncFlush_frame.1, s.asyncFlush_frame.2⟩

theorem alike_cleanNewViewSet (s : HotstuffStorage K) (v : ViewNumber) :
    Alike s (s.cleanNewViewSet v) := ⟨rfl, rfl⟩

end HotstuffStorage

namespace Machine

/-- Machines that differ in nothing the consensus depends on. -/
structure Alike (m m' : Machine K) : Prop where
  storage : m.storage.Alike m'.storage
  voter : m'.voter = m.voter
  total : m'.total = m.total
  selfId : m'.selfId = m.selfId
  leaderId : m'.leaderId = m.leaderId

namespace Alike

variable {m m' m'' : Machine K}

theorem refl (m : Machine K) : Alike m m := ⟨.refl _, rfl, rfl, rfl, rfl⟩

theorem trans (h : Alike m m') (h' : Alike m' m'') : Alike m m'' where
  storage := h.storage.trans h'.storage
  voter := h'.voter.trans h.voter
  total := h'.total.trans h.total
  selfId := h'.selfId.trans h.selfId
  leaderId := h'.leaderId.trans h.leaderId

/-- A change of the storage that the consensus does not depend on. -/
theorem onStorage (m : Machine K) {s : HotstuffStorage K} (h : m.storage.Alike s) :
    Alike m { m with storage := s } := ⟨h, rfl, rfl, rfl, rfl⟩

/-- The same change of both storages. -/
theorem withStorage (h : Alike m m') {s s' : HotstuffStorage K} (hs : s.Alike s') :
    Alike { m with storage := s } { m' with storage := s' } :=
  ⟨hs, h.voter, h.total, h.selfId, h.leaderId⟩

theorem verifyProposal (h : Alike m m') (qc : GenericQC K) :
    m'.verifyProposal qc = m.verifyProposal qc := by
  unfold Machine.verifyProposal
  rw [h.storage.get, h.voter]

theorem safeNode (h : Alike m m') (x y : TreeNode K) : m'.safeNode x y = m.safeNode x y := by
  unfold Machine.safeNode
  dsimp only
  rw [h.storage.state, h.storage.isConflicting]

theorem accepts (h : Alike m m') (p : TreeNode K) : m'.accepts p = m.accepts p := by
  unfold Machine.accepts
  rw [h.storage.get, h.storage.state]
  simp only [h.safeNode]

theorem makeLeaf (h : Alike m m') (cmds : List Txn) : m'.makeLeaf cmds = m.makeLeaf cmds := by
  unfold Machine.makeLeaf
  rw [h.storage.state]

theorem formUpdateQcHigh (h : Alike m m') : m'.formUpdateQcHigh = m.formUpdateQcHigh := by
  unfold Machine.formUpdateQcHigh
  rw [h.selfId, h.storage.state]

theorem formQc (h : Alike m m') (sign : K.CombinedSign) : m'.formQc sign = m.formQc sign := by
  unfold Machine.formQc
  rw [h.storage.state]

theorem updateNodesStorage {s s' : HotstuffStorage K} (h : s.Alike s') (chain : List (TreeNode K))
    (node : TreeNode K) :
    (updateNodesLocked (updateNodesQcHigh s chain node) chain).Alike
      (updateNodesLocked (updateNodesQcHigh s' chain node) chain) := by
  have hqc : (updateNodesQcHigh s chain node).Alike (updateNodesQcHigh s' chain node) := by
    unfold updateNodesQcHigh
    split
    · exact h.updateQcHigh _ _
    · exact h
  unfold updateNodesLocked
  split
  · rw [hqc.state]
    split
    · exact hqc.updateLockedNode _
    · exact hqc
  · exact hqc

theorem updateNodes (h : Alike m m') (node : TreeNode K) :
    Alike (m.updateNodes node).1 (m'.updateNodes node).1 := by
  have hs := updateNodesStorage h.storage (m.storage.findThreeChain node) node
  unfold Machine.updateNodes
  dsimp only
  rw [h.storage.findThreeChain]
  split
  · split
    · exact h.withStorage (hs.commit _)
    · exact h.withStorage hs
  · exact h.withStorage hs

theorem processProp (h : Alike m m') (p : TreeNode K) :
    Alike (m.processProp p) (m'.processProp p) := by
  unfold Machine.processProp
  rw [h.accepts]
  split
  · exact (h.withStorage ((h.storage.appendNewNode p).updateVheight p.height)).updateNodes p
  · exact h.updateNodes p

theorem syncNodes (h : Alike m m') (branch : List (TreeNode K)) :
    Alike (m.syncNodes branch) (m'.syncNodes branch) := by
  induction branch generalizing m m' with
  | nil => exact h
  | cons p branch ih =>
    unfold Machine.syncNodes
    rw [syncNode_eq, syncNode_eq, h.verifyProposal]
    cases m.verifyProposal p.justify with
    | error e => exact h
    | ok r => exact ih (h.processProp p)

theorem onRecvVote (h : Alike m m') (ctx : Context) (prop : TreeNode K) (sign : SignKit K) :
    Alike (m.onRecvVote ctx prop sign).1 (m'.onRecvVote ctx prop sign).1 ∧
      (m'.onRecvVote ctx prop sign).2 = (m.onRecvVote ctx prop sign).2 := by
  have hth : m'.threshold = m.threshold := by
    unfold Machine.threshold
    rw [h.total]
  have hvoter : ∀ v, Alike { m with voter := v } { m' with voter := v } :=
    fun v => ⟨h.storage, rfl, h.total, h.selfId, h.leaderId⟩
  unfold Machine.onRecvVote
  rw [h.voter, hth]
  split
  · exact ⟨h, rfl⟩
  · split
    · exact ⟨hvoter _, rfl⟩
    · split
      · split
        · dsimp only
          rw [h.formQc]
          exact ⟨⟨h.storage.updateQcHigh _ _, rfl, h.total, h.selfId, h.leaderId⟩, rfl⟩
        · exact ⟨hvoter _, rfl⟩
      · exact ⟨hvoter _, rfl⟩

theorem onBeat (h : Alike m m') (cmds : List Txn) :
    Alike (m.onBeat cmds).1 (m'.onBeat cmds).1 ∧ (m'.onBeat cmds).2 = (m.onBeat cmds).2 := by
  unfold Machine.onBeat
  dsimp only
  rw [h.makeLeaf, h.voter, h.selfId, (h.storage.updateLeaf _).state]
  exact ⟨⟨h.storage.updateLeaf _, rfl, h.total, rfl, h.leaderId⟩, rfl⟩

theorem onRecvNewView (h : Alike m m') (qc : GenericQC K) :
    Alike (m.onRecvNewView qc).1 (m'.onRecvNewView qc).1 ∧
      (m'.onRecvNewView qc).2 = (m.onRecvNewView qc).2 := by
  have hm : Alike (m.onRecvNewView qc).1 (m'.onRecvNewView qc).1 := by
    unfold Machine.onRecvNewView
    rw [h.storage.get]
    cases m.storage.get qc.node with
    | none => exact h
    | some node => exact h.withStorage (h.storage.updateQcHigh node qc)
  exact ⟨hm, congrArg Except.ok hm.formUpdateQcHigh⟩

/-- Alike machines answer an event alike. -/
theorem processSafetyEvent (h : Alike m m') (e : SafetyEvent K) :
    Alike (m.processSafetyEvent e).1 (m'.processSafetyEvent e).1 ∧
      (m'.processSafetyEvent e).2 = (m.processSafetyEvent e).2 := by
  match e with
  | .requestSnapshot =>
    refine ⟨h, ?_⟩
    show Except.ok (Ready.internalState _ m'.takeSnapshot) = _
    unfold Machine.takeSnapshot
    rw [h.selfId, h.storage.state, h.leaderId]
    rfl
  | .recvProposal ctx prop =>
    show Alike (m.onRecvProposal ctx prop prop.justify).1 _ ∧
      (m'.onRecvProposal ctx prop prop.justify).2 = _
    rw [onRecvProposal_eq_syncNodes]
    refine ⟨?_, ?_⟩
    · show Alike _ (m'.onRecvProposal ctx prop prop.justify).1
      rw [onRecvProposal_eq_syncNodes]
      exact h.syncNodes [prop]
    · show _ = (m.onRecvProposal ctx prop prop.justify).2
      rw [onRecvProposal_eq, onRecvProposal_eq, h.verifyProposal, h.accepts, h.selfId,
        h.storage.state, h.voter]
      cases m.verifyProposal prop.justify <;> rfl
  | .recvSign ctx node sign => exact h.onRecvVote ctx node sign
  | .newTx cmds => exact h.onBeat cmds
  | .recvNewViewMsg ctx qc => exact h.onRecvNewView qc
  | .newLeader ctx leader =>
    unfold Machine.processSafetyEvent
    dsimp only
    rw [h.storage.state, h.leaderId]
    split
    · exact ⟨⟨h.storage, h.voter, h.total, h.selfId, rfl⟩, rfl⟩
    · exact ⟨h, rfl⟩
  | .branchSync ctx branch =>
    have hm := h.syncNodes branch
    refine ⟨hm, ?_⟩
    show Except.ok (Ready.branchSyncDone (m'.syncNodes branch).storage.state.leaf) = _
    rw [hm.storage.state]
    rfl
  | .viewChange leader view => exact ⟨h, rfl⟩
  | .propose ctx node qc => exact ⟨h, rfl⟩

end Alike

end Machine

end HotstuffConsensus
