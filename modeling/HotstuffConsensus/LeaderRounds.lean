import HotstuffConsensus.FollowerProgress
import HotstuffConsensus.Leader

/-!
# The rounds of a leader's view

`Leads` holds of an event loop at the start of a view, `Collects` after the proposal of the view
was sent. A `NewView` message is counted, transactions are proposed once there is a quorum of
these messages, votes are pooled, and the one that completes a quorum ends the view: the loop
leads again, in the next view and with a chain that is longer by the proposal.
-/

namespace HotstuffConsensus

open Lib

variable {K : Crypto} {chain : List (TreeNode K)} {p : TreeNode K} {m₀ : Machine K}

/-- The proposal a message carries to the other replicas. -/
def PeerEvent.proposal : PeerEvent K → Option (TreeNode K)
  | .newProposal _ prop => some prop
  | _ => none

namespace Pacemaker

/-- The proposals that were sent. -/
def sentProposals (pm : Pacemaker K) : List (TreeNode K) := pm.outbox.filterMap PeerEvent.proposal

theorem sentProposals_emit (pm : Pacemaker K) (e : PeerEvent K) :
    (pm.emitPeerEvent e).sentProposals = pm.sentProposals ++ e.proposal.toList := by
  show (pm.outbox ++ [e]).filterMap PeerEvent.proposal = _
  rw [List.filterMap_append]
  cases e <;> rfl

theorem emitSafetyEvent_quiet (pm : Pacemaker K) (se : SafetyEvent K)
    (h : queued (pm.machine.processSafetyEvent se).2 = []) :
    pm.emitSafetyEvent se = { pm with machine := (pm.machine.processSafetyEvent se).1 } := by
  unfold emitSafetyEvent
  dsimp only
  cases hr : (pm.machine.processSafetyEvent se).2 with
  | error e => rfl
  | ok ready =>
    rw [hr] at h
    cases ready with
    | nil => rfl
    | _ => cases h

end Pacemaker

/-- The genesis block and the blocks of a chain. -/
def chainStore (chain : List (TreeNode K)) : BlockStore K :=
  chain.foldl (fun store x => store.insert x.hash x)
    ((∅ : BlockStore K).insert (initNodeHash K) (initNode K))

theorem chainStore_snoc (chain : List (TreeNode K)) (p : TreeNode K) :
    chainStore (chain ++ [p]) = (chainStore chain).insert p.hash p := List.foldl_append

/-- A leader of at least two replicas, whose thresholds agree and whose key share belongs to the
public keys. A replica alone never gets the vote with which a certificate is formed. -/
structure Machine.Equipped (m₀ : Machine K) : Prop where
  replicas : 0 < m₀.threshold
  voter : m₀.voter.threshold ≤ m₀.threshold
  keys : K.threshold m₀.voter.signature.pks ≤ m₀.threshold
  own : ∀ x, m₀.voter.validateVote x (m₀.voter.sign x) = true

namespace EventLoop

variable {l : EventLoop K} {votes : List (Context × SignKit K)} {w : Context × SignKit K}

/-- At the start of a view, with a certificate for the last block of the chain. -/
structure Leads (l : EventLoop K) (m₀ : Machine K) (chain : List (TreeNode K)) : Prop where
  phase : l.phase = .top
  queue : l.pm.readyQueue = []
  sync : l.pm.syncState = .idle
  machine : m₀.Leading l.pm.machine chain
  currentView : l.pm.machine.storage.state.currentView = l.pm.view
  view : l.pm.view.toNat = chain.length + 1
  height : (back chain 0).height.toNat = chain.length
  pools : ∀ v, l.pm.view ≤ v → l.pm.machine.voter.pool v = ∅
  sent : l.pm.sentProposals = chain
  store : l.pm.machine.storage.inMemQueue = chainStore chain

/-- After `p` was proposed on the chain, with the votes that have come for it. -/
structure Collects (l : EventLoop K) (m₀ : Machine K) (chain : List (TreeNode K)) (p : TreeNode K)
    (votes : List (Context × SignKit K)) : Prop where
  phase : l.phase = .top
  queue : l.pm.readyQueue = []
  sync : l.pm.syncState = .idle
  machine : m₀.Proposed l.pm.machine chain p
  view : l.pm.view = p.height
  height : p.height.toNat = chain.length + 1
  pool : Machine.Pooled (l.pm.machine.voter.pool p.height) m₀.selfId (m₀.voter.sign p) votes
  pools : ∀ v, p.height < v → l.pm.machine.voter.pool v = ∅
  sent : l.pm.sentProposals = chain ++ [p]
  store : l.pm.machine.storage.inMemQueue = chainStore (chain ++ [p])

/-! ## Rounds -/

/-- A round in which `e` arrives, and at most one result is drained. -/
def roundOf (o : Oracle K) (e : PeerEvent K) : List (LoopAction K) :=
  [.fetch none, .network o e, .ready o, .ready o]

/-- A round without a result. -/
theorem roundOf_quiet (C : Codec K) (hphase : l.phase = .top) (o : Oracle K) (e : PeerEvent K)
    (hqueue : ((touched l.pm).processNetworkEvent o e).readyQueue = []) :
    (roundOf o e).foldl (step C) l = ⟨(touched l.pm).processNetworkEvent o e, l.db, .top⟩ := by
  obtain ⟨pm, db, phase⟩ := l
  obtain rfl : phase = .top := hphase
  have hdrained : step C ⟨(touched pm).processNetworkEvent o e, db, .drain⟩ (.ready o) =
      ⟨(touched pm).processNetworkEvent o e, db, .top⟩ := by
    unfold step
    dsimp only
    rw [hqueue]
  show step C (step C ⟨(touched pm).processNetworkEvent o e, db, .drain⟩ (.ready o)) (.ready o) = _
  rw [hdrained]
  rfl

/-- A round with one result. -/
theorem roundOf_single (C : Codec K) (hphase : l.phase = .top) (o : Oracle K) (e : PeerEvent K)
    {pm : Pacemaker K} {r : Ready K}
    (hnetwork : (touched l.pm).processNetworkEvent o e = { pm with readyQueue := [r] })
    (hqueue : ({ pm with readyQueue := [] }.processReadyEvent o r).readyQueue = []) :
    (roundOf o e).foldl (step C) l =
      ⟨{ pm with readyQueue := [] }.processReadyEvent o r, l.db, .top⟩ := by
  obtain ⟨pm₀, db, phase⟩ := l
  obtain rfl : phase = .top := hphase
  have hdrained : step C ⟨{ pm with readyQueue := [] }.processReadyEvent o r, db, .drain⟩
      (.ready o) = ⟨{ pm with readyQueue := [] }.processReadyEvent o r, db, .top⟩ := by
    unfold step
    dsimp only
    rw [hqueue]
  show step C (step C ⟨(touched pm₀).processNetworkEvent o e, db, .drain⟩ (.ready o)) (.ready o) = _
  rw [hnetwork]
  show step C ⟨{ pm with readyQueue := [] }.processReadyEvent o r, db, .drain⟩ (.ready o) = _
  rw [hdrained]

theorem touched_leading {pm : Pacemaker K} (h : m₀.Leading pm.machine chain) :
    m₀.Leading (touched pm).machine chain :=
  h.of_alike (.onStorage _ (HotstuffStorage.alike_touchNewViewSet _ _)) rfl

theorem touched_proposed {pm : Pacemaker K} (h : m₀.Proposed pm.machine chain p) :
    m₀.Proposed (touched pm).machine chain p :=
  h.of_alike (.onStorage _ (HotstuffStorage.alike_touchNewViewSet _ _)) rfl

/-- A `NewView` message is counted, and has no other effect. -/
theorem Leads.newView (h : l.Leads m₀ chain) (C : Codec K) (o : Oracle K) (ctx : Context)
    (qc : GenericQC K) :
    ((roundOf o (.newView ctx qc)).foldl (step C) l).Leads m₀ chain ∧
      ((roundOf o (.newView ctx qc)).foldl (step C) l).pm.view = l.pm.view ∧
      ((roundOf o (.newView ctx qc)).foldl (step C) l).pm.machine.storage.state =
        l.pm.machine.storage.state ∧
      ((roundOf o (.newView ctx qc)).foldl (step C) l).pm.machine.storage.newViewSenders ctx.view =
        insert ctx.sender (l.pm.machine.storage.newViewSenders ctx.view) := by
  obtain ⟨pm, hpm⟩ : ∃ pm, pm = (touched l.pm).onStorage fun s =>
    s.insertNewView ctx.view ctx.sender qc := ⟨_, rfl⟩
  have hmachine : m₀.Leading pm.machine chain := by
    rw [hpm]
    exact (touched_leading h.machine).of_alike
      (.onStorage _ (HotstuffStorage.alike_insertNewView _ ctx.view ctx.sender qc)) rfl
  have hnetwork : (touched l.pm).processNetworkEvent o (.newView ctx qc) =
      { pm with readyQueue := [pm.machine.formUpdateQcHigh] } := by
    show ((touched l.pm).onStorage fun s => s.insertNewView ctx.view ctx.sender qc).emitSafetyEvent
      (.recvNewViewMsg ctx qc) = _
    rw [← hpm]
    unfold Pacemaker.emitSafetyEvent
    dsimp only
    have hevent : pm.machine.processSafetyEvent (.recvNewViewMsg ctx qc) =
        (pm.machine, .ok pm.machine.formUpdateQcHigh) := hmachine.onRecvNewView_eq qc
    have hempty : pm.readyQueue = [] := by
      rw [hpm]
      exact h.queue
    rw [hevent]
    show { pm with readyQueue := pm.readyQueue ++ [pm.machine.formUpdateQcHigh] } = _
    rw [hempty]
    rfl
  have hready : { pm with readyQueue := [] }.processReadyEvent o pm.machine.formUpdateQcHigh =
      { pm with readyQueue := [] }.onStorage HotstuffStorage.setDirty := by
    show { pm with readyQueue := [] }.onStorage (fun s => s.livenessUpdateQcHigh
      pm.machine.storage.state.leaf pm.machine.storage.state.leaf.justify) = _
    unfold Pacemaker.onStorage
    dsimp only
    rw [hmachine.livenessUpdateQcHigh_leaf]
  have hround := roundOf_single C h.phase o (.newView ctx qc) hnetwork (by rw [hready]; rfl)
  rw [hready] at hround
  rw [hround]
  refine ⟨⟨rfl, rfl, ?_, ?_, ?_, ?_, h.height, ?_, ?_, ?_⟩, ?_, ?_, ?_⟩
  · rw [hpm]
    exact h.sync
  · exact hmachine.of_alike (.onStorage _ (HotstuffStorage.alike_setDirty _)) rfl
  · rw [hpm]
    exact h.currentView
  · rw [hpm]
    exact h.view
  · rw [hpm]
    exact h.pools
  · rw [hpm]
    exact h.sent
  · rw [hpm]
    exact h.store
  · rw [hpm]
    rfl
  · rw [hpm]
    rfl
  · rw [hpm]
    show ((l.pm.machine.storage.touchNewViewSet l.pm.view).insertNewView ctx.view ctx.sender
      qc).newViewSenders ctx.view = _
    rw [HotstuffStorage.newViewSenders_insertNewView, if_pos rfl,
      HotstuffStorage.newViewSenders_touchNewViewSet]

/-- A round in which transactions are fetched, and the proposal is sent. -/
def proposeRound (o : Oracle K) (cmds : List Txn) : List (LoopAction K) :=
  [.fetch (some cmds), .tick, .ready o, .ready o]

/-- A pacemaker that has used up the `NewView` messages of its view. -/
def cleaned (pm : Pacemaker K) : Pacemaker K :=
  (touched (touched pm)).onStorage fun s => s.cleanNewViewSet (pm.view + 1)

theorem propose_eq (pm : Pacemaker K) (cmds : List Txn) (hq : (touched pm).hasQuorum) :
    propose (touched pm) cmds = { cleaned pm with
      machine := ((cleaned pm).machine.onBeat cmds).1
      readyQueue := pm.readyQueue ++ [.newProposal
        (.broadcast pm.machine.selfId pm.machine.storage.state.currentView)
        (pm.machine.makeLeaf cmds)] } := by
  unfold propose Pacemaker.makeNewProposal
  dsimp only
  rw [if_neg (not_le.mpr hq)]
  rfl

/-- A pacemaker that has made a proposal, flushed and sent it. -/
def proposed (pm : Pacemaker K) (cmds : List Txn) : Pacemaker K :=
  ({ cleaned pm with
      machine := ((cleaned pm).machine.onBeat cmds).1
      readyQueue := [] }.onStorage HotstuffStorage.asyncFlush).emitPeerEvent
    (.newProposal (.broadcast pm.machine.selfId pm.machine.storage.state.currentView)
      (pm.machine.makeLeaf cmds))

theorem proposeRound_eq (C : Codec K) (o : Oracle K) (cmds : List Txn) {pm : Pacemaker K}
    {db : Database} (hqueue : pm.readyQueue = []) (hq : (touched pm).hasQuorum) :
    (proposeRound o cmds).foldl (step C) ⟨pm, db, .top⟩ = ⟨proposed pm cmds, db, .top⟩ := by
  have hfetch : step C ⟨pm, db, .top⟩ (.fetch (some cmds)) =
      ⟨propose (touched pm) cmds, db, .select⟩ := rfl
  show step C (step C (step C (step C ⟨pm, db, .top⟩ (.fetch (some cmds))) .tick) (.ready o))
    (.ready o) = _
  rw [hfetch, propose_eq pm cmds hq, hqueue]
  rfl

theorem cleaned_leading {pm : Pacemaker K} (h : m₀.Leading pm.machine chain) :
    m₀.Leading (cleaned pm).machine chain :=
  (touched_leading (touched_leading h)).of_alike
    (.onStorage _ (HotstuffStorage.alike_cleanNewViewSet _ _)) rfl

theorem proposed_machine {pm : Pacemaker K} (h : m₀.Leading pm.machine chain) (cmds : List Txn)
    (hview : (back chain 0).height < pm.machine.storage.state.currentView)
    (hnew : (pm.machine.makeLeaf cmds).hash ≠ (back chain 0).hash) :
    m₀.Proposed (proposed pm cmds).machine chain (pm.machine.makeLeaf cmds) := by
  have hbeat : m₀.Proposed ((cleaned pm).machine.onBeat cmds).1 chain (pm.machine.makeLeaf cmds) :=
    (cleaned_leading h).onBeat cmds hview hnew
  exact hbeat.of_alike (.onStorage _ (HotstuffStorage.alike_asyncFlush _))
    (HotstuffStorage.keepsNewViews_asyncFlush _).conf

/-- The pools after a proposal: the leader's own vote is added. -/
theorem proposed_pool (pm : Pacemaker K) (cmds : List Txn) (v : ViewNumber) :
    (proposed pm cmds).machine.voter.pool v =
      if v = pm.machine.storage.state.currentView then
        (pm.machine.voter.pool pm.machine.storage.state.currentView).insert pm.machine.selfId
          (pm.machine.voter.sign (pm.machine.makeLeaf cmds))
      else pm.machine.voter.pool v := by
  have hvoter : (proposed pm cmds).machine.voter = ((cleaned pm).machine.onBeat cmds).1.voter := rfl
  have hleaf : ((cleaned pm).machine.makeLeaf cmds).height =
    pm.machine.storage.state.currentView := rfl
  rw [hvoter, Machine.onBeat_voter, hleaf]
  unfold Voter.pool HashMap.entryD
  dsimp only
  rw [HashMap.lookup_insert_eq_ite]
  by_cases hv : v = pm.machine.storage.state.currentView
  · rw [if_pos hv, if_pos hv]
    rfl
  · rw [if_neg hv, if_neg hv]
    rfl

theorem proposed_frame (pm : Pacemaker K) (cmds : List Txn) :
    (proposed pm cmds).syncState = pm.syncState ∧ (proposed pm cmds).view = pm.view := by
  simp only [proposed, cleaned, touched, Pacemaker.emitPeerEvent, Pacemaker.onStorage, and_self]

theorem proposed_inMemQueue (pm : Pacemaker K) (cmds : List Txn) :
    (proposed pm cmds).machine.storage.inMemQueue = pm.machine.storage.inMemQueue.insert
      (pm.machine.makeLeaf cmds).hash (pm.machine.makeLeaf cmds) :=
  (HotstuffStorage.alike_asyncFlush ((cleaned pm).machine.onBeat cmds).1.storage).inMemQueue

theorem Leads.hasQuorum (h : l.Leads m₀ chain)
    (hquorum : m₀.storage.threshold < (l.pm.machine.storage.newViewSenders l.pm.view).card) :
    (touched l.pm).hasQuorum := by
  have hsenders : (touched l.pm).machine.storage.newViewSenders l.pm.view =
      l.pm.machine.storage.newViewSenders l.pm.view :=
    HotstuffStorage.newViewSenders_touchNewViewSet _ _ _
  have hthreshold : (touched l.pm).machine.storage.threshold = m₀.storage.threshold := by
    show (l.pm.machine.storage.conf.total <<< 1) / 3 = _
    rw [h.machine.setUp.conf]
    rfl
  show (touched l.pm).machine.storage.threshold <
    HashMap.size ((touched l.pm).machine.storage.newViewSetEntry l.pm.view)
  unfold HotstuffStorage.newViewSenders at hsenders
  rw [← HashMap.card_keys, hsenders, hthreshold]
  exact hquorum

/-- A quorum of `NewView` messages lets the leader propose. -/
theorem Leads.propose (h : l.Leads m₀ chain) (C : Codec K) (o : Oracle K) (cmds : List Txn)
    (hquorum : m₀.storage.threshold < (l.pm.machine.storage.newViewSenders l.pm.view).card)
    (hnew : (l.pm.machine.makeLeaf cmds).hash ≠ (back chain 0).hash) :
    ((proposeRound o cmds).foldl (step C) l).Collects m₀ chain (l.pm.machine.makeLeaf cmds) [] := by
  have hq := h.hasQuorum hquorum
  obtain ⟨pm, db, phase⟩ := l
  obtain rfl : phase = .top := h.phase
  have hcurrent : pm.machine.storage.state.currentView = pm.view := h.currentView
  have hnat : pm.machine.storage.state.currentView.toNat = chain.length + 1 := by
    rw [hcurrent]
    exact h.view
  have hview : (back chain 0).height < pm.machine.storage.state.currentView := by
    rw [UInt64.lt_iff_toNat_lt, h.height, hnat]
    exact Nat.lt_succ_self _
  rw [proposeRound_eq C o cmds h.queue hq]
  obtain ⟨hsync, hsame⟩ := proposed_frame pm cmds
  refine ⟨rfl, rfl, hsync.trans h.sync, proposed_machine h.machine cmds hview hnew,
    hsame.trans hcurrent.symm, hnat, ?_, ?_, ?_, ?_⟩
  · have hempty : pm.machine.voter.pool pm.machine.storage.state.currentView = ∅ :=
      h.pools _ (le_of_eq hcurrent.symm)
    have hself : pm.machine.selfId = m₀.selfId := h.machine.setUp.selfId
    have hsign : pm.machine.voter.sign (pm.machine.makeLeaf cmds) =
        m₀.voter.sign (pm.machine.makeLeaf cmds) := by
      unfold Voter.sign
      rw [h.machine.setUp.signature]
    show Machine.Pooled ((proposed pm cmds).machine.voter.pool
      pm.machine.storage.state.currentView) _ _ _
    rw [proposed_pool, if_pos rfl, hempty, hself, hsign]
    exact .single _ _
  · intro v hv
    have hlt : pm.machine.storage.state.currentView < v := hv
    show (proposed pm cmds).machine.voter.pool v = ∅
    rw [proposed_pool, if_neg (ne_of_gt hlt)]
    exact h.pools v ((le_of_eq hcurrent.symm).trans hlt.le)
  · unfold proposed
    rw [Pacemaker.sentProposals_emit]
    exact congrArg (· ++ [_]) h.sent
  · rw [chainStore_snoc]
    exact (proposed_inMemQueue pm cmds).trans (congrArg _ h.store)

/-! ## Votes -/

/-- The round in which a vote for `p` arrives. -/
def voteRound (o : Oracle K) (p : TreeNode K) (w : Context × SignKit K) : List (LoopAction K) :=
  roundOf o (.acceptProposal w.1 p (some w.2))

/-- A vote without a result. -/
theorem voteRound_quiet (C : Codec K) (hphase : l.phase = .top) (hqueue : l.pm.readyQueue = [])
    (o : Oracle K)
    (hquiet : queued ((touched l.pm).machine.onRecvVote w.1 p w.2).2 = []) :
    (voteRound o p w).foldl (step C) l =
      ⟨{ touched l.pm with machine := ((touched l.pm).machine.onRecvVote w.1 p w.2).1 }, l.db,
        .top⟩ := by
  have hemit : (touched l.pm).processNetworkEvent o (.acceptProposal w.1 p (some w.2)) =
      { touched l.pm with machine := ((touched l.pm).machine.onRecvVote w.1 p w.2).1 } :=
    Pacemaker.emitSafetyEvent_quiet (touched l.pm) (.recvSign w.1 p w.2) hquiet
  have hround := roundOf_quiet C hphase o (.acceptProposal w.1 p (some w.2)) (by
    rw [hemit]
    exact hqueue)
  rw [hemit] at hround
  exact hround

/-- A vote short of a quorum. -/
theorem Collects.vote (h : l.Collects m₀ chain p votes) (C : Codec K) (o : Oracle K)
    (hvalid : m₀.voter.validateVote p w.2 = true)
    (hsender : w.1.sender ∉ m₀.selfId :: votes.map fun w => w.1.sender)
    (hsize : votes.length + 2 ≤ m₀.threshold) :
    ((voteRound o p w).foldl (step C) l).Collects m₀ chain p (votes ++ [w]) := by
  have hnew : (l.pm.machine.voter.pool p.height).lookup w.1.sender = none := by
    rw [h.pool.keys]
    exact ⟨List.ne_of_not_mem_cons hsender, List.not_mem_of_not_mem_cons hsender⟩
  obtain ⟨hout, hnext, hpool⟩ := (touched_proposed h.machine).vote h.pool hvalid hnew hsize
  rw [voteRound_quiet C h.phase h.queue o (by rw [hout]; rfl)]
  refine ⟨rfl, h.queue, h.sync, hnext, h.view, h.height, hpool, ?_, h.sent, ?_⟩
  · intro v hv
    show ((touched l.pm).machine.onRecvVote w.1 p w.2).1.voter.pool v = ∅
    rw [Machine.onRecvVote_pool_of_ne _ _ _ (ne_of_gt hv)]
    exact h.pools v hv
  · have hquiet : Machine.reachesConsensus ((touched l.pm).machine.onRecvVote w.1 p w.2).2 =
        false := by
      rw [hout]
      rfl
    have hs := (Machine.queued_onRecvVote hquiet).2
    show ((touched l.pm).machine.onRecvVote w.1 p w.2).1.storage.inMemQueue = _
    rw [hs]
    exact h.store

/-- A late vote. -/
theorem Leads.lateVote (h : l.Leads m₀ chain) (C : Codec K) (o : Oracle K)
    (hp : p.height < l.pm.view)
    (hsize : (l.pm.machine.voter.pool p.height).keys.card < m₀.threshold) :
    ((voteRound o p w).foldl (step C) l).Leads m₀ chain ∧
      ((voteRound o p w).foldl (step C) l).pm.view = l.pm.view ∧
      (((voteRound o p w).foldl (step C) l).pm.machine.voter.pool p.height).keys.card ≤
        (l.pm.machine.voter.pool p.height).keys.card + 1 := by
  obtain ⟨hnext, hquiet, hs, hcard⟩ := (touched_leading h.machine).lateVote w.1 p w.2 hsize
  rw [voteRound_quiet C h.phase h.queue o hquiet]
  refine ⟨⟨rfl, h.queue, h.sync, hnext, ?_, h.view, h.height, ?_, h.sent, ?_⟩, rfl, hcard⟩
  · show ((touched l.pm).machine.onRecvVote w.1 p w.2).1.storage.state.currentView = l.pm.view
    rw [hs]
    exact h.currentView
  · intro v hv
    show ((touched l.pm).machine.onRecvVote w.1 p w.2).1.voter.pool v = ∅
    rw [Machine.onRecvVote_pool_of_ne _ _ _ (ne_of_gt (lt_of_lt_of_le hp hv))]
    exact h.pools v hv
  · show ((touched l.pm).machine.onRecvVote w.1 p w.2).1.storage.inMemQueue = _
    rw [hs]
    exact h.store

/-- A leader that leaves its view. -/
theorem timedOut_leading {pm : Pacemaker K} (h : m₀.Leading pm.machine chain)
    (timeoutView : ViewNumber) : m₀.Leading (pm.timedOut timeoutView).machine chain := by
  obtain ⟨tc, htc⟩ : ∃ tc, tc = pm.signTc pm.view pm.machine.storage.state.qcHigh := ⟨_, rfl⟩
  obtain ⟨view, hview⟩ : ∃ view, view = max pm.view (timeoutView + 1) := ⟨_, rfl⟩
  have hmachine : (pm.timedOut timeoutView).machine = { pm.machine with
      storage := (((pm.machine.storage.appendTc tc).1.increaseView view).cleanNewViewSet
        view).increaseView view } := by
    rw [htc, hview]
    rfl
  have happend : m₀.Leading { pm.machine with storage := (pm.machine.storage.appendTc tc).1 }
      chain :=
    h.of_alike (.onStorage _ (HotstuffStorage.alike_appendTc _ tc))
      (HotstuffStorage.keepsNewViews_appendTc _ tc).conf
  rw [hmachine]
  exact ((happend.increaseView view).of_alike
    (.onStorage _ (HotstuffStorage.alike_cleanNewViewSet _ view)) rfl).increaseView view

theorem timedOut_view {pm : Pacemaker K} (hview : pm.machine.storage.state.currentView = pm.view)
    (hwrap : pm.view ≠ U64.maxValue) :
    (pm.timedOut pm.view).view = pm.view + 1 ∧
      (pm.timedOut pm.view).machine.storage.state.currentView = pm.view + 1 := by
  have hmax : max pm.view (pm.view + 1) = pm.view + 1 := max_eq_right (U64.lt_add_one hwrap).le
  have hstate := pm.machine.storage.appendTc_state
    (pm.signTc pm.view pm.machine.storage.state.qcHigh)
  refine ⟨hmax, ?_⟩
  show max (max (pm.machine.storage.appendTc (pm.signTc pm.view
    pm.machine.storage.state.qcHigh)).1.state.currentView (max pm.view (pm.view + 1)))
    (max pm.view (pm.view + 1)) = pm.view + 1
  rw [hstate, hview, hmax, hmax, max_self]

/-- What leaving the view keeps. -/
theorem timedOut_frame (pm : Pacemaker K) (timeoutView : ViewNumber) :
    (pm.timedOut timeoutView).sentProposals = pm.sentProposals ∧
      (pm.timedOut timeoutView).machine.storage.inMemQueue = pm.machine.storage.inMemQueue ∧
      (pm.timedOut timeoutView).machine.voter = pm.machine.voter := by
  refine ⟨?_, ?_, rfl⟩
  · show ((pm.outbox ++ [_]) ++ [_]).filterMap PeerEvent.proposal = _
    rw [List.filterMap_append, List.filterMap_append]
    exact (List.append_nil _).trans (List.append_nil _)
  · exact (pm.machine.storage.appendTc_frame
      (pm.signTc pm.view pm.machine.storage.state.qcHigh)).2

/-- The pacemaker of a leader after a vote, before the result of the vote is processed. -/
def tookVote (pm : Pacemaker K) (p : TreeNode K) (w : Context × SignKit K) : Pacemaker K :=
  { touched pm with machine := ((touched pm).machine.onRecvVote w.1 p w.2).1, readyQueue := [] }

/-- The round of a vote that completes a quorum ends the view. -/
theorem voteRound_quorum (C : Codec K) (o : Oracle K) (hphase : l.phase = .top)
    (hqueue : l.pm.readyQueue = []) (hsync : l.pm.syncState = .idle) (hview : l.pm.view = p.height)
    (hout : ((touched l.pm).machine.onRecvVote w.1 p w.2).2 =
      .ok (.proposalReachConsensus p.height)) :
    (voteRound o p w).foldl (step C) l = ⟨(tookVote l.pm p w).timedOut p.height, l.db, .top⟩ := by
  have hnetwork : (touched l.pm).processNetworkEvent o (.acceptProposal w.1 p (some w.2)) =
      { tookVote l.pm p w with readyQueue := [.proposalReachConsensus p.height] } := by
    have hevent : ((touched l.pm).machine.processSafetyEvent (.recvSign w.1 p w.2)).2 =
        .ok (.proposalReachConsensus p.height) := hout
    show (touched l.pm).emitSafetyEvent (.recvSign w.1 p w.2) = _
    unfold Pacemaker.emitSafetyEvent
    dsimp only
    rw [hevent]
    have hqueue : (touched l.pm).readyQueue = [] := hqueue
    dsimp only
    rw [hqueue]
    rfl
  have hready : (tookVote l.pm p w).processReadyEvent o (.proposalReachConsensus p.height) =
      (tookVote l.pm p w).timedOut p.height := by
    have hle : (tookVote l.pm p w).view ≤ p.height := le_of_eq hview
    have hidle : ((tookVote l.pm p w).timedOut p.height).syncState = .idle := hsync
    show (tookVote l.pm p w).processLocalTimeout o p.height = _
    rw [Pacemaker.processLocalTimeout_eq, if_pos hle, hidle]
  have hround := roundOf_single C hphase o (.acceptProposal w.1 p (some w.2)) hnetwork (by
    show ((tookVote l.pm p w).processReadyEvent o _).readyQueue = []
    rw [hready]
    rfl)
  rw [← hready]
  exact hround

/-- The last vote of a quorum ends the view. -/
theorem Collects.certify (laws : CombineLaws K) (h : l.Collects m₀ chain p votes) (C : Codec K)
    (o : Oracle K) (hvalid : m₀.voter.validateVote p w.2 = true)
    (hsender : w.1.sender ∉ m₀.selfId :: votes.map fun w => w.1.sender)
    (hall : ∀ x ∈ m₀.voter.sign p :: votes.map Prod.snd, m₀.voter.validateVote p x = true)
    (hids : (m₀.voter.sign p :: (votes ++ [w]).map Prod.snd |>.map SignKit.signId).Nodup)
    (hsize : m₀.quorum < votes.length + 2)
    (hkeys : K.threshold m₀.voter.signature.pks < votes.length + 2)
    (hwrap : p.height ≠ U64.maxValue) :
    ((voteRound o p w).foldl (step C) l).Leads m₀ (chain ++ [p]) ∧
      ((voteRound o p w).foldl (step C) l).pm.machine.voter.pool p.height = ∅ := by
  have hproposed := touched_proposed h.machine
  have hnew : (l.pm.machine.voter.pool p.height).lookup w.1.sender = none := by
    rw [h.pool.keys]
    exact ⟨List.ne_of_not_mem_cons hsender, List.not_mem_of_not_mem_cons hsender⟩
  have hquorum := hproposed.voteQuorum_isSome laws h.pool hvalid hnew hsize hkeys hids
  obtain ⟨hout, hleading, hview, hsame⟩ := hproposed.certify laws h.pool hall hquorum
  have hpm : (tookVote l.pm p w).view = p.height := h.view
  have hcurrent : (tookVote l.pm p w).machine.storage.state.currentView =
      (tookVote l.pm p w).view := hview.trans hpm.symm
  obtain ⟨hnextView, hnextCurrent⟩ := timedOut_view hcurrent (by rw [hpm]; exact hwrap)
  rw [hpm] at hnextView hnextCurrent
  obtain ⟨hsent, hstore, hvoter⟩ := timedOut_frame (tookVote l.pm p w) p.height
  have hnat : (p.height + 1).toNat = chain.length + 2 := by
    have hlt := U64.toNat_add_one_lt hwrap
    rw [UInt64.toNat_add, h.height]
    rw [h.height] at hlt
    exact Nat.mod_eq_of_lt hlt
  rw [voteRound_quorum C o h.phase h.queue h.sync h.view hout]
  refine ⟨⟨rfl, rfl, h.sync, ?_, ?_, ?_, ?_, ?_, ?_, ?_⟩, ?_⟩
  · have hmachine : m₀.Leading (tookVote l.pm p w).machine (chain ++ [p]) := hleading
    exact timedOut_leading hmachine p.height
  · exact hnextCurrent.trans hnextView.symm
  · rw [hnextView, hnat, List.length_append]
    rfl
  · rw [back_snoc_zero, h.height, List.length_append]
    rfl
  · intro v hv
    have hlt : p.height < v := by
      rw [hnextView] at hv
      exact lt_of_lt_of_le (U64.lt_add_one hwrap) hv
    rw [hvoter]
    show ((touched l.pm).machine.onRecvVote w.1 p w.2).1.voter.pool v = ∅
    rw [Machine.onRecvVote_pool_of_ne _ _ _ (ne_of_gt hlt)]
    exact h.pools v hlt
  · exact hsent.trans h.sent
  · rw [hstore, ← h.store]
    exact hsame
  · rw [hvoter]
    exact (touched l.pm).machine.pool_of_voteQuorum hquorum

end EventLoop

end HotstuffConsensus
