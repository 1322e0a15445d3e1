import HotstuffConsensus.Machine
import HotstuffConsensus.StorageTheorems

/-!
# What the calls of a machine change

* `processProp` is what `on_recv_proposal` and `on_branch_sync` do with a proposal whose
  certificate passed `verify_proposal`;
* `voteQuorum` is the combined signature a vote completes, read off the state before the
  vote.
-/

namespace HotstuffConsensus

open Lib

variable {K : Crypto}

namespace Machine

/-! ## `verify_proposal` -/

theorem verifyProposal_isOk {m : Machine K} {qc : GenericQC K} :
    (∃ r, m.verifyProposal qc = .ok r) ↔
      ∃ node, m.storage.get qc.node = some node ∧
        (qc.isInitQc = true ∨ m.voter.validateQc node qc.combinedSign = true) := by
  unfold verifyProposal
  cases h : m.storage.get qc.node with
  | none => simp
  | some node =>
    cases hi : qc.isInitQc <;> cases hv : m.voter.validateQc node qc.combinedSign <;> simp [hv]

/-- A certificate that is not rejected gives no output of its own. -/
theorem verifyProposal_ok {m : Machine K} {qc : GenericQC K} {r : Ready K}
    (h : m.verifyProposal qc = .ok r) : r = .nil := by
  unfold verifyProposal at h
  split at h
  · split at h
    · cases h
    · exact (Except.ok.inj h).symm
  · cases h

/-! ## Processing a verified proposal -/

/-- The machine on which `update_nodes` runs for a verified proposal. -/
def stored (m : Machine K) (p : TreeNode K) : Machine K := if m.accepts p then m.store p else m

/-- The machine after a proposal with an accepted certificate. -/
def processProp (m : Machine K) (prop : TreeNode K) : Machine K :=
  ((if m.accepts prop then m.store prop else m).updateNodes prop).1

theorem syncNode_eq (m : Machine K) (prop : TreeNode K) :
    m.syncNode prop =
      match m.verifyProposal prop.justify with
      | .ok _ => some (m.processProp prop)
      | .error _ => none := by
  unfold syncNode processProp
  cases m.verifyProposal prop.justify <;> rfl

theorem onRecvProposal_eq (m : Machine K) (ctx : Context) (prop : TreeNode K) :
    m.onRecvProposal ctx prop prop.justify =
      match m.verifyProposal prop.justify with
      | .ok _ =>
        (m.processProp prop,
          .ok (if m.accepts prop then
            .signature (.single m.selfId ctx.sender m.storage.state.currentView) prop
              (m.voter.sign prop)
          else .nil))
      | .error e => (m, .error e) := by
  unfold onRecvProposal processProp
  cases hv : m.verifyProposal prop.justify with
  | error e => rfl
  | ok r =>
    obtain rfl := verifyProposal_ok hv
    obtain ⟨node, hnode, -⟩ := verifyProposal_isOk.mp ⟨_, hv⟩
    simp only [hnode]
    split <;> rfl

/-- A proposal is processed like a branch of one block. -/
theorem onRecvProposal_eq_syncNodes (m : Machine K) (ctx : Context) (p : TreeNode K) :
    (m.onRecvProposal ctx p p.justify).1 = m.syncNodes [p] := by
  unfold syncNodes
  rw [onRecvProposal_eq, syncNode_eq]
  cases m.verifyProposal p.justify <;> rfl

/-- What every processed node keeps, a branch keeps. -/
theorem syncNodes_of_invariant {I : Machine K → Prop} (hkeep : ∀ m p, I m → I (m.processProp p))
    {m : Machine K} (hm : I m) (branch : List (TreeNode K)) : I (m.syncNodes branch) := by
  induction branch generalizing m with
  | nil => exact hm
  | cons p branch ih =>
    unfold syncNodes
    rw [syncNode_eq]
    cases m.verifyProposal p.justify with
    | error e => exact hm
    | ok r => exact ih (hkeep m p hm)

/-- A replica signs a proposal only above its `vheight`. -/
theorem vheight_lt_of_accepts {m : Machine K} {prop : TreeNode K} (h : m.accepts prop = true) :
    m.storage.state.vheight < prop.height := by
  unfold accepts at h
  split at h
  · rw [Bool.and_eq_true, decide_eq_true_eq] at h
    exact h.1
  · cases h

/-- The first part of `update_nodes` leaves lock, commit and view alone. -/
theorem updateNodesQcHigh_frame (s : HotstuffStorage K) (chain : List (TreeNode K))
    (p : TreeNode K) :
    (updateNodesQcHigh s chain p).state.bLocked = s.state.bLocked ∧
      (updateNodesQcHigh s chain p).state.lastCommit = s.state.lastCommit ∧
      (updateNodesQcHigh s chain p).state.committedHeight = s.state.committedHeight ∧
      (updateNodesQcHigh s chain p).state.currentView = s.state.currentView := by
  unfold updateNodesQcHigh
  split
  · simp
  · exact ⟨rfl, rfl, rfl, rfl⟩

/-- The second part of `update_nodes`: the lock moves up to the second block of the chain. -/
theorem updateNodesLocked_cases (s : HotstuffStorage K) (chain : List (TreeNode K)) :
    (updateNodesLocked s chain).inMemQueue = s.inMemQueue ∧
    (updateNodesLocked s chain).state.leaf = s.state.leaf ∧
    (updateNodesLocked s chain).state.lastCommit = s.state.lastCommit ∧
    (updateNodesLocked s chain).state.committedHeight = s.state.committedHeight ∧
    s.state.bLocked.height ≤ (updateNodesLocked s chain).state.bLocked.height ∧
    (∀ z, chain[1]? = some z → z.height ≤ (updateNodesLocked s chain).state.bLocked.height) ∧
    ((updateNodesLocked s chain).state.bLocked = s.state.bLocked ∨
      chain[1]? = some (updateNodesLocked s chain).state.bLocked) := by
  unfold updateNodesLocked
  cases hz : chain[1]? with
  | none => exact ⟨rfl, rfl, rfl, rfl, le_refl _, (fun z h => nomatch h), Or.inl rfl⟩
  | some z =>
    dsimp only
    by_cases hlt : s.state.bLocked.height < z.height
    · rw [if_pos hlt]
      refine ⟨rfl, rfl, rfl, rfl, hlt.le, ?_, Or.inr rfl⟩
      intro y hy
      rw [Option.some.inj hy]
      exact le_refl _
    · rw [if_neg hlt]
      refine ⟨rfl, rfl, rfl, rfl, le_refl _, ?_, Or.inl rfl⟩
      intro y hy
      rw [← Option.some.inj hy]
      exact not_lt.mp hlt

/-- The storage after `update_nodes`, without the case split on the commit. -/
theorem updateNodes_storage (m : Machine K) (node : TreeNode K) :
    (m.updateNodes node).1.storage =
      let chain := m.storage.findThreeChain node
      let s := updateNodesLocked (updateNodesQcHigh m.storage chain node) chain
      match chain with
      | [b3, b2, b] => if b3.parent = b2.hash ∧ b2.parent = b.hash then s.commit b else s
      | _ => s := by
  unfold updateNodes
  dsimp only
  by_cases hc : HotstuffStorage.isConsecutiveThreeChain (m.storage.findThreeChain node) = true
  · obtain ⟨b3, b2, b, hchain, hp⟩ := HotstuffStorage.isConsecutiveThreeChain_iff.mp hc
    rw [if_pos hc, hchain]
    simp only [if_pos hp]
    rfl
  · rw [if_neg hc]
    split
    · rename_i b3 b2 b hchain
      rw [if_neg fun hp => hc (HotstuffStorage.isConsecutiveThreeChain_iff.mpr
        ⟨b3, b2, b, hchain, hp⟩)]
    · rfl

/-- After `qc_high` and the lock `update_nodes` commits a block or stops there. -/
theorem updateNodes_eq_or_commit (m : Machine K) (node : TreeNode K) :
    (m.updateNodes node).1.storage = updateNodesLocked
        (updateNodesQcHigh m.storage (m.storage.findThreeChain node) node)
        (m.storage.findThreeChain node) ∨
      ∃ b, (m.updateNodes node).1.storage = (updateNodesLocked
        (updateNodesQcHigh m.storage (m.storage.findThreeChain node) node)
        (m.storage.findThreeChain node)).commit b := by
  rw [updateNodes_storage]
  dsimp only
  split
  · rename_i b3 b2 b hchain
    split
    · exact Or.inr ⟨b, rfl⟩
    · exact Or.inl rfl
  · exact Or.inl rfl

@[simp] theorem updateNodes_voter (m : Machine K) (node : TreeNode K) :
    (m.updateNodes node).1.voter = m.voter := by
  unfold updateNodes
  dsimp only
  split
  · split <;> rfl
  · rfl

@[simp] theorem processProp_voter (m : Machine K) (prop : TreeNode K) :
    (m.processProp prop).voter = m.voter := by
  unfold processProp
  rw [updateNodes_voter]
  split <;> rfl

theorem syncNodes_voter (m : Machine K) (branch : List (TreeNode K)) :
    (m.syncNodes branch).voter = m.voter :=
  syncNodes_of_invariant (I := fun m' => m'.voter = m.voter)
    (fun m' p h => (processProp_voter m' p).trans h) rfl branch

/-! ## Votes -/

/-- The combined signature a vote completes: the vote is valid, its sender has no vote of
that height in the pool, the pool gets larger than the threshold, and combining
succeeds. -/
def voteQuorum (m : Machine K) (ctx : Context) (prop : TreeNode K) (sign : SignKit K) :
    Option K.CombinedSign :=
  let pool := m.voter.pool prop.height
  let pool' := pool.insert ctx.sender sign
  if m.voter.validateVote prop sign = true ∧ pool.lookup ctx.sender = none ∧
      m.threshold < HashMap.size pool' ∧ m.voter.threshold < HashMap.size pool' then
    K.combineSignatures m.voter.signature.pks
      ((HashMap.values pool').map fun kit => (kit.signId, kit.sign))
  else none

/-- The pool of `view` after a vote was added to it. -/
theorem addVote_pool (v : Voter K) (ctx : Context) (view : ViewNumber) (sign : SignKit K) :
    (v.addVote ctx view sign).1.pool view = (v.pool view).insert ctx.sender sign := by
  unfold Voter.addVote
  dsimp only
  split <;>
  · unfold Voter.pool HashMap.entryD
    dsimp only
    rw [Finmap.lookup_insert]
    rfl

theorem addVote_fst (v : Voter K) (ctx : Context) (view : ViewNumber) (sign : SignKit K) :
    (v.addVote ctx view sign).1 =
      { v with votingSet := v.votingSet.insert view ((v.pool view).insert ctx.sender sign) } := by
  unfold Voter.addVote
  dsimp only
  split <;> rfl

theorem addVote_isOk {v : Voter K} {ctx : Context} {view : ViewNumber} {sign : SignKit K} :
    (v.addVote ctx view sign).2 = .ok () ↔ (v.pool view).lookup ctx.sender = none := by
  unfold Voter.addVote
  dsimp only
  split
  · rename_i h
    simp [h]
  · rename_i h
    simp [h]

/-- `on_recv_vote` outputs `ProposalReachConsensus` and touches the storage exactly when
the vote completes a quorum. -/
theorem onRecvVote_cases (m : Machine K) (ctx : Context) (prop : TreeNode K) (sign : SignKit K) :
    (∃ s, m.voteQuorum ctx prop sign = some s ∧
      (m.onRecvVote ctx prop sign).2 = .ok (.proposalReachConsensus (m.formQc s).view) ∧
      (m.onRecvVote ctx prop sign).1.storage = m.storage.updateQcHigh prop (m.formQc s)) ∨
    (m.voteQuorum ctx prop sign = none ∧
      (∀ v, (m.onRecvVote ctx prop sign).2 ≠ .ok (.proposalReachConsensus v)) ∧
      (m.onRecvVote ctx prop sign).1.storage = m.storage) := by
  unfold onRecvVote voteQuorum
  dsimp only
  cases hval : m.voter.validateVote prop sign with
  | false => right; simp
  | true =>
    simp only [Bool.not_true, Bool.false_eq_true, if_false]
    -- what `add_vote` does, in terms of the voter before it
    have hpool := addVote_pool m.voter ctx prop.height sign
    have hfst := addVote_fst m.voter ctx prop.height sign
    have hok := @addVote_isOk K m.voter ctx prop.height sign
    rcases hadd : m.voter.addVote ctx prop.height sign with ⟨voter, r⟩
    rw [hadd] at hpool hfst hok
    dsimp only at hpool hfst hok ⊢
    cases r with
    | error e =>
      right
      have hne : ¬ (m.voter.pool prop.height).lookup ctx.sender = none := by
        intro h
        exact absurd (hok.mpr h) (by simp)
      simp [hne]
    | ok u =>
      have hnone := hok.mp rfl
      have hsize : voter.voteSetSize prop.height =
          HashMap.size ((m.voter.pool prop.height).insert ctx.sender sign) := by
        rw [Voter.voteSetSize_eq_size_pool, hpool]
      have hth : voter.threshold = m.voter.threshold := by rw [hfst]
      have hsig : voter.signature = m.voter.signature := by rw [hfst]
      simp only [hnone, true_and]
      by_cases hm : m.threshold < voter.voteSetSize prop.height
      · rw [if_pos hm]
        rw [hsize] at hm
        -- the voter has a threshold of its own, which may be a larger one
        unfold Voter.combinePartialSign
        by_cases hv : voter.voteSetSize prop.height ≤ voter.threshold
        · right
          rw [if_pos hv]
          rw [hsize, hth] at hv
          have hv' := Nat.not_lt.mpr hv
          simp [hv']
        · rw [if_neg hv]
          rw [hsize, hth] at hv
          have hv' := Nat.lt_of_not_le hv
          simp only [hm, hv', and_self, if_true]
          unfold DefaultSignaturer.combinePartialSign
          rw [hpool, hsig]
          cases hcomb : K.combineSignatures m.voter.signature.pks
              ((HashMap.values ((m.voter.pool prop.height).insert ctx.sender sign)).map
                fun kit => (kit.signId, kit.sign)) with
          | none => right; simp
          | some s => left; exact ⟨s, rfl, rfl, rfl⟩
      · right
        rw [if_neg hm]
        rw [hsize] at hm
        simp [hm]

/-- A vote is rejected, counted, or completes a quorum. -/
theorem onRecvVote_output (m : Machine K) (ctx : Context) (prop : TreeNode K) (sign : SignKit K) :
    (∃ e, (m.onRecvVote ctx prop sign).2 = .error e) ∨
      (m.onRecvVote ctx prop sign).2 = .ok .nil ∨
        ∃ v, (m.onRecvVote ctx prop sign).2 = .ok (.proposalReachConsensus v) := by
  unfold onRecvVote
  split
  · exact Or.inl ⟨_, rfl⟩
  · split
    · exact Or.inr (Or.inl rfl)
    · split
      · split
        · exact Or.inr (Or.inr ⟨_, rfl⟩)
        · exact Or.inl ⟨_, rfl⟩
      · exact Or.inr (Or.inl rfl)

/-! ## The other calls -/

/-- A `NewView` message may raise `qc_high` to its certificate and changes nothing else. -/
theorem onRecvNewView_cases (m : Machine K) (qc : GenericQC K) :
    (m.storage.get qc.node = none ∧ (m.onRecvNewView qc).1 = m) ∨
      ∃ node, m.storage.get qc.node = some node ∧
        (m.onRecvNewView qc).1 = { m with storage := m.storage.updateQcHigh node qc } := by
  unfold onRecvNewView
  cases m.storage.get qc.node with
  | none => exact Or.inl ⟨rfl, rfl⟩
  | some node => exact Or.inr ⟨node, rfl, rfl⟩

/-- A `NewLeader` event may set the leader and changes nothing else. -/
theorem newLeader_eq (m : Machine K) (ctx : Context) (leader : ReplicaID) :
    ∃ l, m.processSafetyEvent (.newLeader ctx leader) = ({ m with leaderId := l }, .ok .nil) := by
  unfold processSafetyEvent
  dsimp only
  split
  · exact ⟨_, rfl⟩
  · exact ⟨m.leaderId, rfl⟩

/-- `on_view_change` does nothing, or enters the view with an empty voting set and hands
the leaf to the pacemaker. -/
theorem onViewChange_cases (m : Machine K) (leader : ReplicaID) (view : ViewNumber) :
    m.onViewChange leader view = (m, .ok .nil) ∨
      ∃ m', m' = { m with leaderId := some leader, voter := m.voter.reset view,
                          storage := m.storage.increaseView view } ∧
        m.onViewChange leader view = (m', .ok m'.formUpdateQcHigh) := by
  unfold onViewChange
  split
  · exact Or.inr ⟨_, rfl, rfl⟩
  · exact Or.inl rfl

/-! ## What the machine does not write -/

end Machine

/-- `f` observes nothing that the machine writes. -/
structure Unwritten {β : Type*} (f : HotstuffStorage K → β) : Prop where
  append : ∀ s x, f (s.appendNewNode x) = f s
  vheight : ∀ s v, f (s.updateVheight v) = f s
  leaf : ∀ s x, f (s.updateLeaf x) = f s
  qcHigh : ∀ s x qc, f (s.updateQcHigh x qc) = f s
  bLocked : ∀ s x, f (s.updateLockedNode x) = f s
  commit : ∀ s x, f (s.commit x) = f s

namespace Unwritten

variable {β : Type*} {f : HotstuffStorage K → β}

theorem updateNodes (h : Unwritten f) (m : Machine K) (node : TreeNode K) :
    f (m.updateNodes node).1.storage = f m.storage := by
  have hqc : ∀ chain, f (Machine.updateNodesQcHigh m.storage chain node) = f m.storage := by
    intro chain
    unfold Machine.updateNodesQcHigh
    split
    · exact h.qcHigh _ _ _
    · rfl
  have hlock : ∀ chain, f (Machine.updateNodesLocked
      (Machine.updateNodesQcHigh m.storage chain node) chain) = f m.storage := by
    intro chain
    rw [← hqc chain]
    unfold Machine.updateNodesLocked
    split
    · split
      · exact h.bLocked _ _
      · rfl
    · rfl
  rcases m.updateNodes_eq_or_commit node with hs | ⟨b, hs⟩
  · rw [hs]
    exact hlock _
  · rw [hs, h.commit]
    exact hlock _

theorem processProp (h : Unwritten f) (m : Machine K) (prop : TreeNode K) :
    f (m.processProp prop).storage = f m.storage := by
  unfold Machine.processProp
  rw [h.updateNodes]
  split
  · show f ((m.storage.appendNewNode prop).updateVheight prop.height) = f m.storage
    rw [h.vheight, h.append]
  · rfl

theorem syncNodes (h : Unwritten f) (m : Machine K) (branch : List (TreeNode K)) :
    f (m.syncNodes branch).storage = f m.storage := by
  refine Machine.syncNodes_of_invariant (I := fun m' => f m'.storage = f m.storage) ?_ rfl branch
  intro m' p hm'
  rw [h.processProp, hm']

theorem processSafetyEvent (h : Unwritten f) (m : Machine K) (e : SafetyEvent K) :
    f (m.processSafetyEvent e).1.storage = f m.storage := by
  match e with
  | .requestSnapshot => rfl
  | .recvProposal ctx prop =>
    show f (m.onRecvProposal ctx prop prop.justify).1.storage = _
    rw [Machine.onRecvProposal_eq_syncNodes]
    exact h.syncNodes m [prop]
  | .recvSign ctx node sign =>
    show f (m.onRecvVote ctx node sign).1.storage = _
    rcases m.onRecvVote_cases ctx node sign with ⟨s, -, -, hs⟩ | ⟨-, -, hs⟩
    · rw [hs, h.qcHigh]
    · rw [hs]
  | .recvNewViewMsg ctx qc =>
    show f (m.onRecvNewView qc).1.storage = _
    rcases m.onRecvNewView_cases qc with ⟨-, heq⟩ | ⟨node, -, heq⟩
    · rw [heq]
    · rw [heq, h.qcHigh]
  | .newLeader ctx leader =>
    obtain ⟨l, heq⟩ := m.newLeader_eq ctx leader
    rw [heq]
  | .branchSync ctx branch => exact h.syncNodes m branch
  | .newTx cmds => exact h.leaf m.storage (m.makeLeaf cmds)
  | .viewChange leader view => rfl
  | .propose ctx node qc => rfl

end Unwritten

theorem unwritten_liveness : Unwritten (HotstuffStorage.liveness (K := K)) where
  append _ _ := rfl
  vheight _ _ := rfl
  leaf _ _ := rfl
  qcHigh := HotstuffStorage.updateQcHigh_liveness
  bLocked _ _ := rfl
  commit := HotstuffStorage.commit_liveness

theorem unwritten_token : Unwritten fun s : HotstuffStorage K => s.state.token where
  append _ _ := rfl
  vheight _ _ := rfl
  leaf _ _ := rfl
  qcHigh s x qc := by
    unfold HotstuffStorage.updateQcHigh
    split
    · split <;> rfl
    · rfl
  bLocked _ _ := rfl
  commit s x := by
    rw [HotstuffStorage.commit_state]
    split <;> rfl

theorem unwritten_currentView : Unwritten fun s : HotstuffStorage K => s.state.currentView where
  append _ _ := rfl
  vheight _ _ := rfl
  leaf _ _ := rfl
  qcHigh := HotstuffStorage.updateQcHigh_currentView
  bLocked _ _ := rfl
  commit s x := by
    rw [HotstuffStorage.commit_state]
    split <;> rfl

namespace Machine

/-- The machine leaves the pacemaker's part of the storage alone. -/
theorem processSafetyEvent_liveness (m : Machine K) (e : SafetyEvent K) :
    (m.processSafetyEvent e).1.storage.liveness = m.storage.liveness :=
  unwritten_liveness.processSafetyEvent m e

/-- No event moves the view. -/
theorem processSafetyEvent_currentView (m : Machine K) (e : SafetyEvent K) :
    (m.processSafetyEvent e).1.storage.state.currentView = m.storage.state.currentView :=
  unwritten_currentView.processSafetyEvent m e

end Machine

end HotstuffConsensus
