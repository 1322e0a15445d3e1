import HotstuffConsensus.Follower
import HotstuffConsensus.SyncBacklog
import HotstuffConsensus.VoteDurability

/-!
# One sync for each block

A follower that gets an answer to each of its sync requests does follow. The next block `p` of a
chain is too high for its leaf, so `p` waits and a sync is requested; the branch in the answer is
the block below `p` and `p` itself, which an honest leader stores above the follower's leaf. The
branch raises the leaf to the block below `p` without signing anything, and brings `vheight` down
with it. Only then is `p` released, processed once more, and signed.

Every block of an honest chain is signed that way, in order and once, and the commit follows three
blocks behind (`follower_progress`).
-/

namespace HotstuffConsensus

open Lib

variable {K : Crypto} {chain : List (TreeNode K)} {p : TreeNode K}

/-! ## A block that comes again -/

namespace Machine

/-- The chain was delivered, and the leaf is the block before its last. -/
structure Tracks (m : Machine K) (chain : List (TreeNode K)) : Prop where
  progressed : m.Progressed chain
  leaf : m.storage.state.leaf = back chain 1

variable {m : Machine K}

namespace Progressed

/-- The certificate of the last block has been verified, and verifies again. -/
theorem verified_again (h : m.Progressed (chain ++ [p])) (hc : HonestChain m.voter (chain ++ [p])) :
    ∃ r, m.verifyProposal p.justify = .ok r := by
  obtain ⟨hfollows, hvalid⟩ := hc.follows_back
  refine verifyProposal_isOk.mpr ⟨back chain 0, ?_, hvalid⟩
  rw [hfollows.justify, ← back_snoc_succ]
  exact h.store.stored 1

/-- The last block has had its effect: `qc_high`, the lock and the commit are where it would move
them. -/
theorem updateNodes_again (h : m.Progressed (chain ++ [p]))
    (hc : HonestChain m.voter (chain ++ [p])) : (m.updateNodes p).1.storage = m.storage := by
  have hget : m.storage.get p.justify.node = some (back chain 0) := by
    rw [hc.follows_back.1.justify, ← back_snoc_succ]
    exact h.store.stored 1
  have hthird : ∀ b3 b2 b, m.storage.findThreeChain p = [b3, b2, b] →
      b2 = back chain 1 ∧ b = back chain 2 := by
    intro b3 b2 b hchain
    obtain ⟨h3, h2, h1⟩ := HotstuffStorage.findThreeChain_eq_three.mp hchain
    obtain rfl := Option.some.inj (hget.symm.trans h3)
    have hb2 := h.store.justify_eq hc (j := 1) (y := b2) (by rw [back_snoc_succ]; exact h2)
    have hb := h.store.justify_eq hc (j := 2) (y := b) (hb2 ▸ h1)
    rw [hb2, hb, back_snoc_succ, back_snoc_succ]
    exact ⟨rfl, rfl⟩
  have hqc : updateNodesQcHigh m.storage (m.storage.findThreeChain p) p = m.storage := by
    unfold updateNodesQcHigh
    rw [HotstuffStorage.findThreeChain_head?, hget]
    apply HotstuffStorage.updateQcHigh_of_not_raises
    rintro ⟨q, hq, hlt⟩
    rw [h.qcHigh_node hc] at hq
    have hq' := Option.some.inj ((h.store.stored 1).symm.trans hq)
    rw [← hq', back_snoc_succ] at hlt
    exact lt_irrefl _ hlt
  have hlocked : updateNodesLocked m.storage (m.storage.findThreeChain p) = m.storage := by
    unfold updateNodesLocked
    rw [HotstuffStorage.findThreeChain_second?, hget, Option.bind_some]
    split
    · rename_i b2 h2
      have hb2 := h.store.justify_eq hc (j := 1) (y := b2) (by rw [back_snoc_succ]; exact h2)
      rw [h.bLocked, hb2]
      exact if_neg (lt_irrefl _)
    · rfl
  rw [updateNodes_storage]
  dsimp only
  rw [hqc, hlocked]
  split
  · rename_i b3 b2 b hchain
    split
    · have hle : b.height ≤ m.storage.state.committedHeight := by
        rw [h.committedHeight, (hthird b3 b2 b hchain).2, back_snoc_succ]
      exact if_pos hle
    · rfl
  · rfl

end Progressed

namespace Tracks

/-- The view of the storage does not matter. -/
theorem congr {m' : Machine K} (h : m.Tracks chain)
    (hq : m'.storage.inMemQueue = m.storage.inMemQueue) {v : ViewNumber}
    (hst : m'.storage.state = { m.storage.state with currentView := v }) : m'.Tracks chain where
  progressed := by
    refine ⟨?_, ?_, ?_, ?_, ?_, ?_⟩
    · rw [hq]; exact h.progressed.store
    · rw [hst]; exact h.progressed.vheight
    · rw [hst]; exact h.progressed.qcHigh
    · rw [hst]; exact h.progressed.bLocked
    · rw [hst]; exact h.progressed.lastCommit
    · rw [hst]; exact h.progressed.committedHeight
  leaf := by rw [hst]; exact h.leaf

theorem of_alike {m' : Machine K} (h : m.Tracks chain) (ha : m.Alike m') : m'.Tracks chain :=
  h.congr ha.storage.inMemQueue ha.storage.state

theorem increaseView (h : m.Tracks chain) (v : ViewNumber) :
    ({ m with storage := m.storage.increaseView v } : Machine K).Tracks chain :=
  h.congr rfl rfl

/-- The last block is stored once more, and `vheight` becomes its height. -/
theorem store_again (h : m.Tracks (chain ++ [p])) : (m.store p).Tracks (chain ++ [p]) := by
  have hprogressed := h.progressed
  have hlast := hprogressed.store.stored 0
  have hv := hprogressed.vheight
  rw [back_snoc_zero] at hlast hv
  have hstore : (m.store p).storage.inMemQueue = m.storage.inMemQueue :=
    HashMap.insert_eq_self hlast
  refine ⟨⟨?_, ?_, hprogressed.qcHigh, hprogressed.bLocked, hprogressed.lastCommit,
    hprogressed.committedHeight⟩, h.leaf⟩
  · rw [hstore]
    exact hprogressed.store
  · rw [back_snoc_zero]
    exact max_le hv (le_refl _)

/-- The last block may come again. -/
theorem processProp_again (h : m.Tracks (chain ++ [p])) (hc : HonestChain m.voter (chain ++ [p])) :
    (m.processProp p).Tracks (chain ++ [p]) := by
  unfold processProp
  split
  · have hsame := h.store_again.progressed.updateNodes_again hc
    exact h.store_again.congr (by rw [hsame]) (by rw [hsame])
  · have hsame := h.progressed.updateNodes_again hc
    exact h.congr (by rw [hsame]) (by rw [hsame])

/-- The next block moves the leaf to the block below it. It was stored by a sync, and `vheight` is
that of the leaf: the block can be voted for. -/
theorem processProp_next (h : m.Tracks chain) (hc : HonestChain m.voter (chain ++ [p])) :
    (m.processProp p).Tracks (chain ++ [p]) ∧
      (chain ≠ [] → (m.processProp p).storage.state.vheight = (back chain 0).height) := by
  have hprogressed := h.progressed
  obtain ⟨r, hr⟩ := hprogressed.verified hc
  have hnext := (hprogressed.step hc ⟨"", .unknown, 0⟩).2.1
  rw [onRecvProposal_eq, hr] at hnext
  have hget : (m.stored p).storage.get p.justify.node = some (back chain 0) := by
    rw [hc.follows_back.1.justify]
    exact hprogressed.stored_get hc 0
  have hstate : (m.stored p).storage.state.qcHigh = m.storage.state.qcHigh ∧
      (m.stored p).storage.state.leaf = m.storage.state.leaf := by
    unfold Machine.stored
    rw [if_pos (hprogressed.accepts hc)]
    exact ⟨rfl, rfl⟩
  have hqc : (m.stored p).storage.get (m.stored p).storage.state.qcHigh.node =
      some (back chain 1) := by
    rw [hstate.1, hprogressed.qcHigh_node hc.of_append]
    exact hprogressed.stored_get hc 1
  have hleaf : (m.processProp p).storage.state.leaf =
      if (back chain 1).height < (back chain 0).height then back chain 0 else back chain 1 := by
    show ((m.stored p).updateNodes p).1.storage.state.leaf = _
    rw [updateNodes_leaf]
    unfold HotstuffStorage.leafWith
    rw [hget, hqc, hstate.2, h.leaf]
  rcases List.eq_nil_or_concat' chain with rfl | ⟨before, q, rfl⟩
  · refine ⟨⟨hnext, ?_⟩, fun hne => absurd rfl hne⟩
    rw [hleaf]
    split <;> rfl
  · have hlt : (back (before ++ [q]) 1).height < (back (before ++ [q]) 0).height := by
      rw [back_snoc_succ, back_snoc_zero]
      exact hc.of_append.follows_back.1.height
    refine ⟨⟨hnext, ?_⟩, ?_⟩
    · rw [hleaf, if_pos hlt, back_snoc_succ]
    · intro _
      rcases (m.stored p).updateNodes_qcHigh hget with ⟨-, -, hv⟩ | ⟨hno, -, -⟩
      · exact hv
      · exact absurd ⟨_, hqc, hlt⟩ hno

/-- The answer to a sync request: the last block and the next one. -/
theorem syncNodes_next (h : m.Tracks chain) (hne : chain ≠ [])
    (hc : HonestChain m.voter (chain ++ [p])) :
    (m.syncNodes [back chain 0, p]).Tracks (chain ++ [p]) ∧
      (m.syncNodes [back chain 0, p]).storage.state.vheight = (back chain 0).height ∧
      (m.syncNodes [back chain 0, p]).voter = m.voter := by
  obtain ⟨before, q, rfl⟩ := (List.eq_nil_or_concat' chain).resolve_left hne
  rw [back_snoc_zero]
  obtain ⟨r, hr⟩ := h.progressed.verified_again hc.of_append
  have hagain := h.processProp_again hc.of_append
  have hc' : HonestChain (m.processProp q).voter (before ++ [q] ++ [p]) := by
    rw [processProp_voter]
    exact hc
  obtain ⟨r', hr'⟩ := hagain.progressed.verified hc'
  have hsync : m.syncNodes [q, p] = (m.processProp q).processProp p := by
    unfold syncNodes
    rw [syncNode_eq, hr]
    dsimp only
    unfold syncNodes
    rw [syncNode_eq, hr']
    rfl
  obtain ⟨hnext, hv⟩ := hagain.processProp_next hc'
  rw [hsync]
  refine ⟨hnext, ?_, ?_⟩
  · rw [hv hne, back_snoc_zero]
  · rw [processProp_voter, processProp_voter]

/-- A block that a sync has brought is signed when it is processed once more. -/
theorem signs_again (h : m.Tracks (chain ++ [p])) (hc : HonestChain m.voter (chain ++ [p]))
    (hv : m.storage.state.vheight < p.height) (ctx : Context) :
    (m.onRecvProposal ctx p p.justify).2 = .ok (.signature
        (.single m.selfId ctx.sender m.storage.state.currentView) p (m.voter.sign p)) ∧
      (m.onRecvProposal ctx p p.justify).1.Tracks (chain ++ [p]) ∧
      (m.onRecvProposal ctx p p.justify).1.voter = m.voter := by
  obtain ⟨r, hr⟩ := h.progressed.verified_again hc
  have hget : m.storage.get p.justify.node = some (back chain 0) := by
    rw [hc.follows_back.1.justify, ← back_snoc_succ]
    exact h.progressed.store.stored 1
  have hlock : Descends m.storage.inMemQueue (back (chain ++ [p]) 2) p := by
    have hdesc := (h.progressed.store.descends hc 0).trans (h.progressed.store.descends hc 1)
    rw [back_snoc_zero] at hdesc
    exact hdesc
  have hle : (back (chain ++ [p]) 2).height ≤ p.height := by
    rcases hlock.eq_or_lower with heq | ⟨-, hlt⟩
    · rw [heq]
    · exact hlt.le
  have hconflict : m.storage.isConflicting p m.storage.state.bLocked = false := by
    unfold HotstuffStorage.isConflicting
    rw [h.progressed.bLocked, if_pos hle, walk_of_descends hlock (countBelow_lt_walkFuel _ _),
      bne_self_eq_false]
  have haccepts : m.accepts p = true := by
    unfold Machine.accepts Machine.safeNode
    rw [hget]
    simp [hv, hconflict]
  rw [onRecvProposal_eq, hr]
  dsimp only
  rw [if_pos haccepts]
  exact ⟨rfl, h.processProp_again hc, processProp_voter m p⟩

end Tracks

end Machine

/-! ## Rounds of the event loop -/

/-- A heap with one entry pops it. -/
theorem heapPop_singleton (tie : ℕ) (sw : SafetyEventWrapper K) :
    heapPop tie [sw] = some (sw, []) := by
  obtain ⟨sw', rest, hpop⟩ := exists_heapPop (List.cons_ne_nil sw []) tie
  have hperm := (heapPop_spec hpop).1
  obtain ⟨rfl, rfl⟩ := List.cons_eq_cons.mp (List.singleton_perm.mp hperm)
  exact hpop

namespace Pacemaker

/-- A timeout outside a sync changes nothing of the consensus but the view. -/
theorem processLocalTimeout_idle_storage (o : Oracle K) (pm : Pacemaker K)
    (hsync : pm.syncState = .idle) (timeoutView : ViewNumber) :
    ∃ v, (pm.processLocalTimeout o timeoutView).machine.storage.state =
      { pm.machine.storage.state with currentView := v } := by
  have htimedOut : ∃ v, (pm.timedOut timeoutView).machine.storage.state =
      { pm.machine.storage.state with currentView := v } := by
    have hstate := pm.machine.storage.appendTc_state
      (pm.signTc pm.view pm.machine.storage.state.qcHigh)
    refine ⟨(pm.timedOut timeoutView).machine.storage.state.currentView, ?_⟩
    have hframe : (pm.timedOut timeoutView).machine.storage.state =
        { (pm.machine.storage.appendTc
            (pm.signTc pm.view pm.machine.storage.state.qcHigh)).1.state with
          currentView := (pm.timedOut timeoutView).machine.storage.state.currentView } := rfl
    rw [hstate] at hframe
    exact hframe
  rw [processLocalTimeout_eq]
  split
  · have hidle : (pm.timedOut timeoutView).syncState = .idle := hsync
    rw [hidle]
    exact htimedOut
  · exact ⟨pm.machine.storage.state.currentView, rfl⟩

/-- A vote that is sent outside a sync leaves the queues and the consensus alone. -/
theorem processReadyEvent_vote (o : Oracle K) (pm : Pacemaker K) (hsync : pm.syncState = .idle)
    (ctx : Context) (p : TreeNode K) (sign : SignKit K) (htracks : pm.machine.Tracks chain) :
    (pm.processReadyEvent o (.signature ctx p sign)).readyQueue = pm.readyQueue ∧
      (pm.processReadyEvent o (.signature ctx p sign)).pendingProp = pm.pendingProp ∧
      (pm.processReadyEvent o (.signature ctx p sign)).syncState = .idle ∧
      (pm.processReadyEvent o (.signature ctx p sign)).machine.voter = pm.machine.voter ∧
      (pm.processReadyEvent o (.signature ctx p sign)).machine.Tracks chain := by
  unfold processReadyEvent
  dsimp only
  split
  · have hquiet := processLocalTimeout_idle o
      (pm.emitPeerEvent (.acceptProposal ctx p (some sign))) hsync p.height
    obtain ⟨v, hstate⟩ := processLocalTimeout_idle_storage o
      (pm.emitPeerEvent (.acceptProposal ctx p (some sign))) hsync p.height
    exact ⟨hquiet.readyQueue, hquiet.pendingProp, hquiet.syncState.trans hsync, hquiet.voter,
      htracks.congr hquiet.storage.inMemQueue hstate⟩
  · exact ⟨rfl, rfl, hsync, rfl, htracks⟩

/-- The one pending proposal is released, and signed. -/
theorem checkPendingProp_signs (pm : Pacemaker K) {e : Context × TreeNode K} {ctx : Context}
    {sign : SignKit K} (o : Oracle K) {leafHeight : ViewNumber}
    (hpending : pm.pendingProp = [pend e]) (hle : e.2.justify.view ≤ leafHeight)
    (hsigns : (pm.machine.onRecvProposal e.1 e.2 e.2.justify).2 = .ok (.signature ctx e.2 sign)) :
    pm.checkPendingProp o leafHeight = { pm with
      pendingProp := []
      machine := (pm.machine.onRecvProposal e.1 e.2 e.2.justify).1
      readyQueue := pm.readyQueue ++ [.signature ctx e.2 sign] } := by
  have hpop : heapPop o.tie pm.pendingProp = some (pend e, []) := by
    rw [hpending]
    exact heapPop_singleton o.tie (pend e)
  have hevent : (pm.machine.processSafetyEvent (.recvProposal e.1 e.2)).2 =
      .ok (.signature ctx e.2 sign) := hsigns
  rw [checkPendingProp_release pm hpop hle]
  unfold emitSafetyEvent
  dsimp only
  rw [hevent]
  rfl

end Pacemaker

namespace EventLoop

variable {l : EventLoop K} {voter : Voter K} {e : Context × TreeNode K}

/-- Between two rounds, with nothing left to do: the chain is followed, and its blocks are what
was voted for. -/
structure Tracks (l : EventLoop K) (voter : Voter K) (chain : List (TreeNode K)) : Prop where
  phase : l.phase = .top
  queue : l.pm.readyQueue = []
  pending : l.pm.pendingProp = []
  sync : l.pm.syncState = .idle
  machine : l.pm.machine.Tracks chain
  voter : l.pm.machine.voter = voter
  sent : l.pm.sentVotes = chain

/-- Between two rounds, with a proposal that waits for the answer to a sync request. -/
structure Waits (l : EventLoop K) (voter : Voter K) (chain : List (TreeNode K))
    (e : Context × TreeNode K) : Prop where
  phase : l.phase = .top
  queue : l.pm.readyQueue = []
  pending : l.pm.pendingProp = [pend e]
  sync : l.pm.syncState = .synchronizing
  machine : l.pm.machine.Tracks chain
  voter : l.pm.machine.voter = voter
  sent : l.pm.sentVotes = chain

/-- In a round, with the vote for the next block in the ready queue. -/
structure Votes (l : EventLoop K) (voter : Voter K) (chain : List (TreeNode K)) (p : TreeNode K) :
    Prop where
  phase : l.phase = .drain
  queue : ∃ ctx sign, l.pm.readyQueue = [.signature ctx p sign]
  pending : l.pm.pendingProp = []
  sync : l.pm.syncState = .idle
  machine : l.pm.machine.Tracks (chain ++ [p])
  voter : l.pm.machine.voter = voter
  sent : l.pm.sentVotes = chain

/-- The vote is sent, and the round ends. -/
theorem Votes.tracks (h : l.Votes voter chain p) (C : Codec K) (o : Oracle K) :
    ([LoopAction.ready o, .ready o].foldl (step C) l).Tracks voter (chain ++ [p]) := by
  obtain ⟨pm, db, phase⟩ := l
  obtain rfl : phase = .drain := h.phase
  obtain ⟨ctx, sign, hqueue⟩ := h.queue
  obtain ⟨hready, hpending, hsync, hvoter, htracks⟩ := Pacemaker.processReadyEvent_vote o
    { pm with readyQueue := [] } h.sync ctx p sign h.machine
  have hsent := (Pacemaker.processReadyEvent_effect o { pm with readyQueue := [] }
    (.signature ctx p sign)).sent
  have hfirst : step C ⟨pm, db, .drain⟩ (.ready o) =
      ⟨{ pm with readyQueue := [] }.processReadyEvent o (.signature ctx p sign), db, .drain⟩ := by
    unfold step
    dsimp only
    rw [hqueue]
  have hsecond : step C
      ⟨{ pm with readyQueue := [] }.processReadyEvent o (.signature ctx p sign), db, .drain⟩
      (.ready o) =
      ⟨{ pm with readyQueue := [] }.processReadyEvent o (.signature ctx p sign), db, .top⟩ := by
    unfold step
    dsimp only
    rw [hready]
  show (step C (step C ⟨pm, db, .drain⟩ (.ready o)) (.ready o)).Tracks voter (chain ++ [p])
  rw [hfirst, hsecond]
  refine ⟨rfl, hready, hpending.trans h.pending, hsync, htracks, hvoter.trans h.voter, ?_⟩
  exact hsent.trans (congrArg (· ++ [p]) h.sent)

/-- How a block reaches the follower: as a proposal, and in the answer to a sync request. -/
structure Delivery (K : Crypto) where
  o : Oracle K
  ctx : Context
  p : TreeNode K
  answerCtx : Context
  strategy : BranchSyncStrategy

namespace Delivery

/-- The round in which the proposal arrives. -/
def propose (d : Delivery K) : List (LoopAction K) :=
  [.fetch none, .network d.o (.newProposal d.ctx d.p), .ready d.o, .ready d.o]

/-- The round in which the answer arrives, with the block `parent` and the proposal. -/
def sync (d : Delivery K) (parent : TreeNode K) : List (LoopAction K) :=
  [.fetch none, .network d.o (.branchSyncResponse d.answerCtx d.strategy (some [parent, d.p])
    .success), .ready d.o, .ready d.o, .ready d.o]

end Delivery

/-- `new_view_set(self.view)`, at the top of a round. -/
def touched (pm : Pacemaker K) : Pacemaker K := pm.onStorage fun s => s.touchNewViewSet pm.view

theorem tracks_touched {pm : Pacemaker K} (h : pm.machine.Tracks chain) :
    (touched pm).machine.Tracks chain :=
  h.of_alike (.onStorage _ (HotstuffStorage.alike_touchNewViewSet _ _))

/-- The first block is signed at once. -/
theorem Tracks.propose_first (h : l.Tracks voter []) (C : Codec K) (d : Delivery K)
    (hc : HonestChain voter ([] ++ [d.p])) :
    (d.propose.foldl (step C) l).Tracks voter ([] ++ [d.p]) := by
  obtain ⟨pm, db, phase⟩ := l
  obtain rfl : phase = .top := h.phase
  have hmachine := tracks_touched h.machine
  have hc' : HonestChain (touched pm).machine.voter ([] ++ [d.p]) := by
    rw [show (touched pm).machine.voter = voter from h.voter]
    exact hc
  obtain ⟨hstep, -, hvoter⟩ := hmachine.progressed.step hc' d.ctx
  obtain ⟨ctx, sign, hsigns⟩ : ∃ ctx sign, ((touched pm).machine.onRecvProposal d.ctx d.p
    d.p.justify).2 = .ok (.signature ctx d.p sign) := ⟨_, _, hstep⟩
  obtain ⟨r, hr⟩ := hmachine.progressed.verified hc'
  have hnext : ((touched pm).machine.onRecvProposal d.ctx d.p d.p.justify).1.Tracks
      ([] ++ [d.p]) := by
    rw [Machine.onRecvProposal_eq, hr]
    exact (hmachine.processProp_next hc').1
  have hle : d.p.justify.view ≤ pm.machine.storage.state.leaf.height := by
    rw [(hc.first d.p rfl).2.2]
    exact UInt64.le_iff_toNat_le.mpr (Nat.zero_le _)
  have hpending : (touched pm).pendingProp ++ [pend (d.ctx, d.p)] = [pend (d.ctx, d.p)] := by
    rw [show (touched pm).pendingProp = [] from h.pending]
    rfl
  have hcheck := { touched pm with
    pendingProp := (touched pm).pendingProp ++ [pend (d.ctx, d.p)] }.checkPendingProp_signs
      (e := (d.ctx, d.p)) d.o hpending hle hsigns
  have hvotes : ([LoopAction.fetch none, .network d.o (.newProposal d.ctx d.p)].foldl (step C)
      ⟨pm, db, .top⟩).Votes voter [] d.p := by
    show Votes ⟨{ touched pm with pendingProp := (touched pm).pendingProp ++
      [pend (d.ctx, d.p)] }.checkPendingProp d.o pm.machine.storage.state.leaf.height, db,
      .drain⟩ voter [] d.p
    rw [hcheck]
    have hqueue : (touched pm).readyQueue ++ [.signature ctx d.p sign] =
        [.signature ctx d.p sign] := by
      rw [show (touched pm).readyQueue = [] from h.queue]
      rfl
    exact ⟨rfl, ⟨ctx, sign, hqueue⟩, rfl, h.sync, hnext, hvoter.trans h.voter, h.sent⟩
  exact hvotes.tracks C d.o

/-- A later block waits. -/
theorem Tracks.propose_next (h : l.Tracks voter chain) (C : Codec K) (d : Delivery K)
    (hview : (back chain 1).height < d.p.justify.view) :
    (d.propose.foldl (step C) l).Waits voter chain (d.ctx, d.p) := by
  obtain ⟨pm, db, phase⟩ := l
  obtain rfl : phase = .top := h.phase
  have hlt : pm.machine.storage.state.leaf.height < d.p.justify.view := by
    rw [h.machine.leaf]
    exact hview
  obtain ⟨pm₁, hpm₁⟩ : ∃ pm₁, pm₁ = { touched pm with pendingProp :=
    (touched pm).pendingProp ++ [pend (d.ctx, d.p)] } := ⟨_, rfl⟩
  have hpop : heapPop d.o.tie pm₁.pendingProp = some (pend (d.ctx, d.p), []) := by
    rw [hpm₁]
    show heapPop d.o.tie (pm.pendingProp ++ [pend (d.ctx, d.p)]) = _
    rw [h.pending]
    exact heapPop_singleton _ _
  obtain ⟨hpending, hmachine, hready, hsync⟩ := Pacemaker.checkPendingProp_keep pm₁ hpop hlt
  have hsent := (Pacemaker.checkPendingProp_effect d.o pm₁
    pm.machine.storage.state.leaf.height).sent
  have hqueue : (pm₁.checkPendingProp d.o pm.machine.storage.state.leaf.height).readyQueue = [] := by
    rw [hready, hpm₁]
    exact h.queue
  have hround : d.propose.foldl (step C) ⟨pm, db, .top⟩ =
      ⟨pm₁.checkPendingProp d.o pm.machine.storage.state.leaf.height, db, .top⟩ := by
    have hthird : step C
        ⟨pm₁.checkPendingProp d.o pm.machine.storage.state.leaf.height, db, .drain⟩ (.ready d.o) =
        ⟨pm₁.checkPendingProp d.o pm.machine.storage.state.leaf.height, db, .top⟩ := by
      unfold step
      dsimp only
      rw [hqueue]
    have hnetwork : step C (step C ⟨pm, db, .top⟩ (.fetch none))
        (.network d.o (.newProposal d.ctx d.p)) =
        ⟨pm₁.checkPendingProp d.o pm.machine.storage.state.leaf.height, db, .drain⟩ := by
      rw [hpm₁]
      rfl
    show step C (step C (step C (step C ⟨pm, db, .top⟩ (.fetch none))
        (.network d.o (.newProposal d.ctx d.p))) (.ready d.o)) (.ready d.o) = _
    rw [hnetwork, hthird]
    rfl
  rw [hround]
  refine ⟨rfl, hqueue, hpending, hsync, ?_, ?_, ?_⟩
  · show (pm₁.checkPendingProp d.o _).machine.Tracks chain
    rw [hmachine, hpm₁]
    exact tracks_touched h.machine
  · show (pm₁.checkPendingProp d.o _).machine.voter = voter
    rw [hmachine, hpm₁]
    exact h.voter
  · refine hsent.trans ((List.append_nil _).trans ?_)
    rw [hpm₁]
    exact h.sent

/-- The answer releases it. -/
theorem Waits.sync_next {d : Delivery K} (h : l.Waits voter chain (d.ctx, d.p)) (hne : chain ≠ [])
    (C : Codec K) (hc : HonestChain voter (chain ++ [d.p]))
    (hview : d.p.justify.view = (back chain 0).height) :
    ((d.sync (back chain 0)).foldl (step C) l).Tracks voter (chain ++ [d.p]) := by
  obtain ⟨pm, db, phase⟩ := l
  obtain rfl : phase = .top := h.phase
  have hvoter₀ : (touched pm).machine.voter = voter := h.voter
  obtain ⟨hsync, hv, hvoter⟩ := (tracks_touched h.machine).syncNodes_next hne
    (p := d.p) (by rw [hvoter₀]; exact hc)
  obtain ⟨m, hm⟩ : ∃ m, m = (touched pm).machine.syncNodes [back chain 0, d.p] := ⟨_, rfl⟩
  rw [← hm] at hsync hv hvoter
  have hc' : HonestChain m.voter (chain ++ [d.p]) := by
    rw [hvoter, hvoter₀]
    exact hc
  have hlow : m.storage.state.vheight < d.p.height := by
    rw [hv]
    exact hc.follows_back.1.height
  obtain ⟨hstep, hnext, hkeep⟩ := hsync.signs_again hc' hlow d.ctx
  obtain ⟨ctx, sign, hsigns⟩ : ∃ ctx sign, (m.onRecvProposal d.ctx d.p d.p.justify).2 =
    .ok (.signature ctx d.p sign) := ⟨_, _, hstep⟩
  have hle : d.p.justify.view ≤ m.storage.state.leaf.height := by
    rw [hsync.leaf, back_snoc_succ, hview]
  -- the branch is processed, and the end of the sync is queued
  have hnetwork : [LoopAction.fetch none, .network d.o (.branchSyncResponse d.answerCtx d.strategy
      (some [back chain 0, d.p]) .success)].foldl (step C) ⟨pm, db, .top⟩ =
      ⟨{ touched pm with
          machine := m
          readyQueue := (touched pm).readyQueue ++ [.branchSyncDone m.storage.state.leaf] }, db,
        .drain⟩ := by
    rw [hm]
    rfl
  have hqueue : (touched pm).readyQueue = [] := h.queue
  have hpending : (touched pm).pendingProp = [pend (d.ctx, d.p)] := h.pending
  have hcheck := { touched pm with
    machine := m, readyQueue := [], syncState := .idle }.checkPendingProp_signs
      (e := (d.ctx, d.p)) d.o hpending hle hsigns
  have hdone : step C ⟨{ touched pm with
      machine := m
      readyQueue := [.branchSyncDone m.storage.state.leaf] }, db, .drain⟩ (.ready d.o) =
      ⟨{ touched pm with
          machine := m, readyQueue := [], syncState := .idle }.checkPendingProp d.o
            m.storage.state.leaf.height, db, .drain⟩ := by
    have hsyncState : (touched pm).syncState = .synchronizing := h.sync
    unfold step Pacemaker.processReadyEvent
    dsimp only
    rw [hsyncState]
  have hvotes : (step C ([LoopAction.fetch none, .network d.o (.branchSyncResponse d.answerCtx
      d.strategy (some [back chain 0, d.p]) .success)].foldl (step C) ⟨pm, db, .top⟩)
      (.ready d.o)).Votes voter chain d.p := by
    rw [hnetwork, hqueue]
    show Votes (step C ⟨{ touched pm with
      machine := m
      readyQueue := [.branchSyncDone m.storage.state.leaf] }, db, .drain⟩ (.ready d.o)) voter
      chain d.p
    rw [hdone, hcheck]
    exact ⟨rfl, ⟨ctx, sign, rfl⟩, rfl, rfl, hnext, (hkeep.trans hvoter).trans hvoter₀, h.sent⟩
  exact hvotes.tracks C d.o

/-! ## The chain -/

/-- The rounds in which the blocks of a chain reach the follower, after those of `before`. -/
def followRun (before : List (TreeNode K)) : List (Delivery K) → List (LoopAction K)
  | [] => []
  | d :: ds =>
    d.propose ++ (if before.isEmpty then [] else d.sync (back before 0)) ++
      followRun (before ++ [d.p]) ds

/-- The certificates of a chain on `parent` carry the height of the block they certify as their
view. -/
def ViewsMatch (parent : TreeNode K) : List (TreeNode K) → Prop
  | [] => True
  | p :: ps => p.justify.view = parent.height ∧ ViewsMatch p ps

theorem Tracks.followRun {ds : List (Delivery K)} (h : l.Tracks voter chain) (C : Codec K)
    (hc : HonestChain voter (chain ++ ds.map Delivery.p))
    (hviews : ViewsMatch (back chain 0) (ds.map Delivery.p)) :
    ((followRun chain ds).foldl (step C) l).Tracks voter (chain ++ ds.map Delivery.p) := by
  induction ds generalizing l chain with
  | nil =>
    rw [List.map_nil, List.append_nil]
    exact h
  | cons d ds ih =>
    have happend : chain ++ (d :: ds).map Delivery.p = chain ++ [d.p] ++ ds.map Delivery.p := by
      rw [List.map_cons, List.append_cons]
    rw [happend] at hc ⊢
    obtain ⟨hview, hviews⟩ := hviews
    have hround : ((d.propose ++ (if chain.isEmpty then [] else
        d.sync (back chain 0))).foldl (step C) l).Tracks voter (chain ++ [d.p]) := by
      rcases List.eq_nil_or_concat' chain with rfl | ⟨before, q, rfl⟩
      · rw [List.isEmpty_nil, if_pos rfl, List.append_nil]
        exact h.propose_first C d hc.of_append
      · have hne : before ++ [q] ≠ [] := by simp
        have hlt : (back (before ++ [q]) 1).height < d.p.justify.view := by
          rw [hview, back_snoc_succ, back_snoc_zero]
          exact hc.of_append.of_append.follows_back.1.height
        rw [if_neg (by simp), List.foldl_append]
        exact (h.propose_next C d hlt).sync_next hne C hc.of_append hview
    show ((_ ++ _ ++ EventLoop.followRun (chain ++ [d.p]) ds).foldl (EventLoop.step C) l).Tracks
      voter _
    rw [List.foldl_append]
    exact ih hround hc (by rw [back_snoc_zero]; exact hviews)

theorem tracks_start (id : ReplicaID) (elector : RoundRobinLeaderElector) (machine : Machine K)
    (hm : FreshStorage machine.storage) (signaturer : DefaultSignaturer K) (db : Database) :
    (start (.new id elector machine signaturer) db).Tracks machine.voter [] := by
  have hfresh : machine.Tracks [] := ⟨Machine.progressed_of_fresh hm, hm.leaf_eq⟩
  refine ⟨rfl, rfl, rfl, rfl, ?_, rfl, rfl⟩
  exact (hfresh.increaseView 1).of_alike (.onStorage _ (HotstuffStorage.alike_cleanNewViewSet _ 1))

/-- A follower over a fresh storage that is offered an honest chain block by block, and gets the
answer to the sync request for each block but the first, has voted for every block of the chain,
in order and once. Its lock is two blocks behind and its commit three. -/
theorem follower_progress (C : Codec K) (id : ReplicaID) (elector : RoundRobinLeaderElector)
    (machine : Machine K) (hm : FreshStorage machine.storage) (signaturer : DefaultSignaturer K)
    (db : Database) (ds : List (Delivery K))
    (hchain : HonestChain machine.voter (ds.map Delivery.p))
    (hviews : ViewsMatch (initNode K) (ds.map Delivery.p)) :
    let l := (followRun [] ds).foldl (step C) (start (.new id elector machine signaturer) db)
    l.pm.sentVotes = ds.map Delivery.p ∧
      l.pm.machine.storage.state.qcHigh.node = (back (ds.map Delivery.p) 1).hash ∧
      l.pm.machine.storage.state.bLocked = back (ds.map Delivery.p) 2 ∧
      l.pm.machine.storage.state.lastCommit = back (ds.map Delivery.p) 3 := by
  have hend : ((followRun [] ds).foldl (step C)
      (start (.new id elector machine signaturer) db)).Tracks machine.voter (ds.map Delivery.p) :=
    (tracks_start id elector machine hm signaturer db).followRun C hchain hviews
  refine ⟨hend.sent, ?_, hend.machine.progressed.bLocked, hend.machine.progressed.lastCommit⟩
  apply hend.machine.progressed.qcHigh_node
  rw [hend.voter]
  exact hchain

end EventLoop

namespace Symbolic

open EventLoop

/-- The chain `a1` to `a4`, proposed by replica 1, which also answers the sync requests. -/
def followed : List (Delivery symbolic) :=
  [a1, a2, a3, a4].map fun p => ⟨oracle, ctxOf 1, p, ctxOf 1, ⟨0, batchSize⟩⟩

/-- After four blocks and three syncs `a1` is committed. -/
theorem follower_progress_on_chain :
    ((followRun [] followed).foldl (step codec) loop₀).pm.sentVotes = [a1, a2, a3, a4] ∧
      ((followRun [] followed).foldl (step codec) loop₀).pm.machine.storage.state.lastCommit =
        a1 := by
  have hviews : ViewsMatch (initNode symbolic) (followed.map Delivery.p) :=
    ⟨rfl, rfl, rfl, rfl, trivial⟩
  unfold loop₀
  obtain ⟨hsent, -, -, hcommit⟩ := follower_progress codec (replicaId 0)
    ⟨["replica-0", "replica-1", "replica-2", "replica-3"]⟩ (fresh 4 0) (.inMem _ _ _ _)
    (signaturer 4 0) createTables followed honestChain_chainDeliveries hviews
  exact ⟨hsent, hcommit⟩

end Symbolic

end HotstuffConsensus
