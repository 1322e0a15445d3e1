import HotstuffConsensus.PacemakerCore
import HotstuffConsensus.VoteOnce

/-!
# The votes that pass through a pacemaker

A vote is cast when the machine signs a proposal, waits in the ready queue as
`Ready::Signature`, and leaves as `PeerEvent::AcceptProposal`. For every method of the
pacemaker, `Effect` says which vote the method has the machine cast and which one it sends;
nothing else is added to the two queues, and the channel to the flusher is not touched.
-/

namespace HotstuffConsensus

open Lib

variable {K : Crypto}

/-! ## What the machine leaves alone -/

namespace HotstuffStorage

/-- A change of the storage that no vote depends on. -/
structure LivenessOnly (s s' : HotstuffStorage K) : Prop where
  backend : s'.backend = s.backend
  inMemQueue : s'.inMemQueue = s.inMemQueue
  leaf : s'.state.leaf = s.state.leaf
  vheight : s'.state.vheight = s.state.vheight
  bLocked : s'.state.bLocked = s.state.bLocked

theorem LivenessOnly.trans {s s' s'' : HotstuffStorage K} (h : LivenessOnly s s')
    (h' : LivenessOnly s' s'') : LivenessOnly s s'' where
  backend := h'.backend.trans h.backend
  inMemQueue := h'.inMemQueue.trans h.inMemQueue
  leaf := h'.leaf.trans h.leaf
  vheight := h'.vheight.trans h.vheight
  bLocked := h'.bLocked.trans h.bLocked

theorem livenessOnly_increaseView (s : HotstuffStorage K) (v : ViewNumber) :
    LivenessOnly s (s.increaseView v) := ⟨rfl, rfl, rfl, rfl, rfl⟩

theorem livenessOnly_cleanNewViewSet (s : HotstuffStorage K) (v : ViewNumber) :
    LivenessOnly s (s.cleanNewViewSet v) := ⟨rfl, rfl, rfl, rfl, rfl⟩

theorem livenessOnly_touchNewViewSet (s : HotstuffStorage K) (v : ViewNumber) :
    LivenessOnly s (s.touchNewViewSet v) := ⟨rfl, rfl, rfl, rfl, rfl⟩

theorem livenessOnly_compressTc (s : HotstuffStorage K) : LivenessOnly s s.compressTc.1 := by
  unfold compressTc
  dsimp only
  split
  · exact ⟨rfl, rfl, rfl, rfl, rfl⟩
  · split <;> exact ⟨rfl, rfl, rfl, rfl, rfl⟩

theorem livenessOnly_appendTc (s : HotstuffStorage K) (tc : TimeoutCertificate K) :
    LivenessOnly s (s.appendTc tc).1 := by
  unfold appendTc
  dsimp only
  refine LivenessOnly.trans ?_ (livenessOnly_compressTc _)
  split <;> exact ⟨rfl, rfl, rfl, rfl, rfl⟩

end HotstuffStorage

namespace Machine

/-- The machine never writes to the channel of the flusher. -/
theorem processSafetyEvent_backend (m : Machine K) (e : SafetyEvent K) :
    (m.processSafetyEvent e).1.storage.backend = m.storage.backend :=
  congrArg Prod.fst (m.processSafetyEvent_liveness e)

/-- Whether a machine signs depends on its voter, its blocks, `vheight` and the lock. -/
theorem signs_congr {m m' : Machine K} (hv : m'.voter = m.voter)
    (hs : HotstuffStorage.LivenessOnly m.storage m'.storage) (c : Call K) :
    m'.signs c = m.signs c := by
  have hget : ∀ k, m'.storage.get k = m.storage.get k := by
    intro k
    unfold HotstuffStorage.get
    rw [hs.inMemQueue]
  have hprop : ∀ ctx prop, m'.signs (.event (.recvProposal ctx prop))
      = m.signs (.event (.recvProposal ctx prop)) := by
    intro ctx prop
    rw [signs_recvProposal, signs_recvProposal]
    unfold verifyProposal accepts safeNode HotstuffStorage.isConflicting
    rw [hget, hv, hs.vheight, hs.bLocked, hs.inMemQueue]
  apply Option.ext
  intro p
  constructor
  · intro h
    obtain ⟨⟨ctx, rfl⟩, -⟩ := signs_eq_some h
    rw [← hprop]
    exact h
  · intro h
    obtain ⟨⟨ctx, rfl⟩, -⟩ := signs_eq_some h
    rw [hprop]
    exact h

/-- No event but `RecvProposal` makes the machine sign. -/
theorem signs_eq_none {m : Machine K} {se : SafetyEvent K}
    (hse : ∀ ctx prop, se ≠ .recvProposal ctx prop) : m.signs (.event se) = none := by
  cases hs : m.signs (.event se) with
  | none => rfl
  | some p =>
    obtain ⟨⟨ctx, hc⟩, -⟩ := signs_eq_some hs
    exact absurd (Call.event.inj hc) (hse ctx p)

end Machine

/-! ## Votes in the two queues -/

def Ready.vote : Ready K → Option (TreeNode K)
  | .signature _ prop _ => some prop
  | _ => none

def PeerEvent.vote : PeerEvent K → Option (TreeNode K)
  | .acceptProposal _ prop _ => some prop
  | _ => none

namespace Pacemaker

/-- The votes waiting in the ready queue. -/
def queuedVotes (pm : Pacemaker K) : List (TreeNode K) := pm.readyQueue.filterMap Ready.vote

/-- The votes sent. -/
def sentVotes (pm : Pacemaker K) : List (TreeNode K) := pm.outbox.filterMap PeerEvent.vote

/-- The vote that `check_pending_prop` has the machine cast. -/
def voteOnCheck (o : Oracle K) (pm : Pacemaker K) (leafHeight : ViewNumber) :
    Option (TreeNode K) :=
  (releasable o pm leafHeight).bind fun sw => pm.machine.signs (.event sw.se)

/-- The vote that `process_local_timeout` has the machine cast. -/
def voteOnTimeout (o : Oracle K) (pm : Pacemaker K) (timeoutView : ViewNumber) :
    Option (TreeNode K) :=
  if pm.view ≤ timeoutView ∧ pm.syncState = .synchronizing then
    pm.voteOnCheck o pm.machine.storage.state.leaf.height
  else none

/-- The vote that `process_network_event` has the machine cast. -/
def voteOnNetwork (o : Oracle K) (pm : Pacemaker K) : PeerEvent K → Option (TreeNode K)
  | .newProposal ctx prop =>
    let pending := pm.pendingProp ++
      [SafetyEventWrapper.new prop.justify.view (.recvProposal ctx prop)]
    { pm with pendingProp := pending }.voteOnCheck o pm.machine.storage.state.leaf.height
  | .timeout _ tc =>
    let v := (pm.machine.storage.appendTc tc).2
    if pm.view < v then pm.voteOnTimeout o v else none
  | _ => none

/-- The vote that `process_ready_event` has the machine cast. -/
def voteOnReady (o : Oracle K) (pm : Pacemaker K) : Ready K → Option (TreeNode K)
  | .signature ctx prop _ => if pm.toOther ctx then pm.voteOnTimeout o prop.height else none
  | .branchSyncDone leaf =>
    if pm.syncState = .synchronizing then pm.voteOnCheck o leaf.height else none
  | .proposalReachConsensus propView => pm.voteOnTimeout o propView
  | _ => none

/-- From `pm` to `pm'` the machine cast `cast` and the pacemaker sent `sent`. -/
structure Effect (pm pm' : Pacemaker K) (cast sent : Option (TreeNode K)) : Prop where
  backend : pm'.machine.storage.backend = pm.machine.storage.backend
  queued : pm'.queuedVotes = pm.queuedVotes ++ cast.toList
  sent : pm'.sentVotes = pm.sentVotes ++ sent.toList

/-- From `pm` to `pm'` nothing changed that a vote depends on. -/
structure Quiet (pm pm' : Pacemaker K) : Prop where
  pendingProp : pm'.pendingProp = pm.pendingProp
  syncState : pm'.syncState = pm.syncState
  readyQueue : pm'.readyQueue = pm.readyQueue
  sentVotes : pm'.sentVotes = pm.sentVotes
  voter : pm'.machine.voter = pm.machine.voter
  storage : HotstuffStorage.LivenessOnly pm.machine.storage pm'.machine.storage

theorem Quiet.trans {pm pm' pm'' : Pacemaker K} (h : Quiet pm pm') (h' : Quiet pm' pm'') :
    Quiet pm pm'' where
  pendingProp := h'.pendingProp.trans h.pendingProp
  syncState := h'.syncState.trans h.syncState
  readyQueue := h'.readyQueue.trans h.readyQueue
  sentVotes := h'.sentVotes.trans h.sentVotes
  voter := h'.voter.trans h.voter
  storage := h.storage.trans h'.storage

theorem Quiet.effect {pm pm' : Pacemaker K} (h : Quiet pm pm') : Effect pm pm' none none where
  backend := h.storage.backend
  queued := by
    unfold queuedVotes
    rw [h.readyQueue, Option.toList_none, List.append_nil]
  sent := by rw [h.sentVotes, Option.toList_none, List.append_nil]

theorem Effect.refl (pm : Pacemaker K) : Effect pm pm none none :=
  ⟨rfl, (List.append_nil _).symm, (List.append_nil _).symm⟩

/-- Effects follow quiet changes. -/
theorem Quiet.then {pm pm' pm'' : Pacemaker K} {cast sent : Option (TreeNode K)}
    (h : Quiet pm pm') (h' : Effect pm' pm'' cast sent) : Effect pm pm'' cast sent where
  backend := h'.backend.trans h.storage.backend
  queued := by
    rw [h'.queued]
    unfold queuedVotes
    rw [h.readyQueue]
  sent := by rw [h'.sent, h.sentVotes]

theorem quiet_onStorage (pm : Pacemaker K) {f : HotstuffStorage K → HotstuffStorage K}
    (hf : HotstuffStorage.LivenessOnly pm.machine.storage (f pm.machine.storage)) :
    Quiet pm (pm.onStorage f) :=
  ⟨rfl, rfl, rfl, rfl, rfl, hf⟩

theorem sentVotes_emitPeerEvent (pm : Pacemaker K) (pe : PeerEvent K) :
    (pm.emitPeerEvent pe).sentVotes = pm.sentVotes ++ pe.vote.toList := by
  show (pm.outbox ++ [pe]).filterMap PeerEvent.vote = _
  rw [List.filterMap_append]
  unfold sentVotes
  congr 1

theorem quiet_emitPeerEvent (pm : Pacemaker K) (pe : PeerEvent K) (hpe : pe.vote = none) :
    Quiet pm (pm.emitPeerEvent pe) where
  pendingProp := rfl
  syncState := rfl
  readyQueue := rfl
  sentVotes := by rw [sentVotes_emitPeerEvent, hpe, Option.toList_none, List.append_nil]
  voter := rfl
  storage := ⟨rfl, rfl, rfl, rfl, rfl⟩

theorem quiet_gotoNewView (pm : Pacemaker K) (v : ViewNumber) : Quiet pm (pm.gotoNewView v) := by
  unfold gotoNewView
  dsimp only
  refine Quiet.trans ?_ (quiet_emitPeerEvent _ _ rfl)
  refine Quiet.trans ?_ (quiet_onStorage _ (HotstuffStorage.livenessOnly_cleanNewViewSet _ _))
  exact ⟨rfl, rfl, rfl, rfl, rfl, HotstuffStorage.livenessOnly_increaseView _ _⟩

/-- A timeout is quiet up to the check of the pending proposals. -/
theorem quiet_timedOut (pm : Pacemaker K) (timeoutView : ViewNumber) :
    Quiet pm (pm.timedOut timeoutView) := by
  unfold timedOut
  dsimp only
  refine Quiet.trans ?_ (quiet_onStorage _ (HotstuffStorage.livenessOnly_increaseView _ _))
  refine Quiet.trans ?_ (quiet_gotoNewView _ _)
  refine Quiet.trans ?_ (quiet_emitPeerEvent _ _ rfl)
  exact quiet_onStorage pm (HotstuffStorage.livenessOnly_appendTc _ _)

theorem Quiet.voteOnCheck_eq {pm pm' : Pacemaker K} (h : Quiet pm pm') (o : Oracle K)
    (leafHeight : ViewNumber) : pm'.voteOnCheck o leafHeight = pm.voteOnCheck o leafHeight := by
  have hsigns : ∀ c, pm'.machine.signs c = pm.machine.signs c :=
    Machine.signs_congr h.voter h.storage
  unfold voteOnCheck releasable
  rw [h.pendingProp]
  simp only [hsigns]

/-! ## The methods of the pacemaker -/

theorem emitSafetyEvent_effect (pm : Pacemaker K) (se : SafetyEvent K) :
    Effect pm (pm.emitSafetyEvent se) (pm.machine.signs (.event se)) none := by
  have hback := pm.machine.processSafetyEvent_backend se
  have hcall : (pm.machine.call (.event se)).2 = some (pm.machine.processSafetyEvent se).2 := rfl
  unfold emitSafetyEvent Machine.signs
  dsimp only
  cases hres : (pm.machine.processSafetyEvent se).2 with
  | error e =>
    rw [hcall, hres]
    exact ⟨hback, (List.append_nil _).symm, (List.append_nil _).symm⟩
  | ok r =>
    rw [hcall, hres]
    -- every result but `Nil` is appended to the queue
    have hqueue : (pm.readyQueue ++ [r]).filterMap Ready.vote
        = pm.queuedVotes ++ r.vote.toList := by
      rw [List.filterMap_append]
      unfold queuedVotes
      congr 1
    cases r with
    | nil => exact ⟨hback, (List.append_nil _).symm, (List.append_nil _).symm⟩
    | _ => exact ⟨hback, hqueue, (List.append_nil _).symm⟩

theorem checkPendingProp_effect (o : Oracle K) (pm : Pacemaker K) (leafHeight : ViewNumber) :
    Effect pm (pm.checkPendingProp o leafHeight) (pm.voteOnCheck o leafHeight) none := by
  unfold checkPendingProp voteOnCheck releasable
  cases heapPop o.tie pm.pendingProp with
  | none => exact .refl pm
  | some popped =>
    obtain ⟨sw, rest⟩ := popped
    dsimp only
    by_cases hle : (-sw.view).toUInt64 ≤ leafHeight
    · rw [if_pos hle, if_pos hle]
      have h := emitSafetyEvent_effect { pm with pendingProp := rest } sw.se
      exact ⟨h.backend, h.queued, h.sent⟩
    · rw [if_neg hle, if_neg hle]
      split
      · -- a branch sync request is sent, which is no vote
        refine ⟨rfl, (List.append_nil _).symm, ?_⟩
        rw [sentVotes_emitPeerEvent]
        rfl
      · exact ⟨rfl, (List.append_nil _).symm, (List.append_nil _).symm⟩

theorem processLocalTimeout_effect (o : Oracle K) (pm : Pacemaker K) (timeoutView : ViewNumber) :
    Effect pm (pm.processLocalTimeout o timeoutView) (pm.voteOnTimeout o timeoutView) none := by
  have hquiet := pm.quiet_timedOut timeoutView
  unfold voteOnTimeout
  rw [processLocalTimeout_eq]
  by_cases hle : pm.view ≤ timeoutView
  · rw [if_pos hle, ← hquiet.syncState, ← hquiet.storage.leaf, ← hquiet.voteOnCheck_eq o]
    cases (pm.timedOut timeoutView).syncState with
    | synchronizing =>
      rw [if_pos ⟨hle, rfl⟩]
      have h := checkPendingProp_effect o { pm.timedOut timeoutView with syncState := .idle }
        (pm.timedOut timeoutView).machine.storage.state.leaf.height
      exact hquiet.then ⟨h.backend, h.queued, h.sent⟩
    | idle =>
      rw [if_neg (by simp)]
      exact hquiet.effect
  · rw [if_neg hle, if_neg (by simp [hle])]
    exact ⟨rfl, (List.append_nil _).symm, (List.append_nil _).symm⟩

theorem processNetworkEvent_effect (o : Oracle K) (pm : Pacemaker K) (e : PeerEvent K) :
    Effect pm (pm.processNetworkEvent o e) (pm.voteOnNetwork o e) none := by
  match e with
  | .ping ctx cont => exact .refl pm
  | .newProposal ctx prop =>
    have h := checkPendingProp_effect o
      { pm with pendingProp := pm.pendingProp ++
          [SafetyEventWrapper.new prop.justify.view (.recvProposal ctx prop)] }
      pm.machine.storage.state.leaf.height
    exact ⟨h.backend, h.queued, h.sent⟩
  | .acceptProposal ctx prop (some sign) =>
    have h := emitSafetyEvent_effect pm (.recvSign ctx prop sign)
    rw [Machine.signs_eq_none (by intro _ _ hc; cases hc)] at h
    exact h
  | .acceptProposal ctx prop none => exact .refl pm
  | .newView ctx qcHigh =>
    have hq : Quiet pm (pm.onStorage fun s => s.insertNewView ctx.view ctx.sender qcHigh) :=
      quiet_onStorage pm ⟨rfl, rfl, rfl, rfl, rfl⟩
    have h := hq.then (emitSafetyEvent_effect _ (.recvNewViewMsg ctx qcHigh))
    rw [Machine.signs_eq_none (by intro _ _ hc; cases hc)] at h
    exact h
  | .timeout ctx tc =>
    have hq : Quiet pm (pm.onStorage fun s => (s.appendTc tc).1) :=
      quiet_onStorage pm (HotstuffStorage.livenessOnly_appendTc _ _)
    unfold processNetworkEvent voteOnNetwork
    dsimp only
    by_cases hlt : pm.view < (pm.machine.storage.appendTc tc).2
    · rw [if_pos (show (pm.onStorage fun s => (s.appendTc tc).1).view
        < (pm.machine.storage.appendTc tc).2 from hlt), if_pos hlt]
      have h := hq.then (processLocalTimeout_effect o _ (pm.machine.storage.appendTc tc).2)
      have hvote : (pm.onStorage fun s => (s.appendTc tc).1).voteOnTimeout o
          (pm.machine.storage.appendTc tc).2 =
            pm.voteOnTimeout o (pm.machine.storage.appendTc tc).2 := by
        unfold voteOnTimeout
        rw [hq.voteOnCheck_eq, hq.storage.leaf]
        rfl
      rw [hvote] at h
      exact h
    · rw [if_neg (show ¬ (pm.onStorage fun s => (s.appendTc tc).1).view
        < (pm.machine.storage.appendTc tc).2 from hlt), if_neg hlt]
      exact hq.effect
  | .branchSyncRequest ctx strategy => exact (quiet_emitPeerEvent pm _ rfl).effect
  | .branchSyncResponse ctx strategy (some branch) .success =>
    have h := emitSafetyEvent_effect pm (.branchSync ctx branch)
    rw [Machine.signs_eq_none (by intro _ _ hc; cases hc)] at h
    exact h
  | .branchSyncResponse ctx strategy none status => exact .refl pm
  | .branchSyncResponse ctx strategy (some branch) .proposalNonExists => exact .refl pm

theorem processReadyEvent_effect (o : Oracle K) (pm : Pacemaker K) (r : Ready K) :
    Effect pm (pm.processReadyEvent o r) (pm.voteOnReady o r) r.vote := by
  match r with
  | .nil => exact .refl pm
  | .internalState ctx ss => exact .refl pm
  | .commitState ctx node => exact .refl pm
  | .newProposal ctx prop => exact (quiet_emitPeerEvent pm _ rfl).effect
  | .updateQCHigh ctx node =>
    have hlive := HotstuffStorage.updateQcHigh_liveness pm.machine.storage node node.justify
    exact ⟨congrArg Prod.fst hlive, (List.append_nil _).symm, (List.append_nil _).symm⟩
  | .signature ctx prop sign =>
    have hsent : (pm.emitPeerEvent (.acceptProposal ctx prop (some sign))).sentVotes
        = pm.sentVotes ++ [prop] := sentVotes_emitPeerEvent pm _
    show Effect pm (if pm.toOther ctx then _ else _) (if pm.toOther ctx then _ else none)
      (some prop)
    by_cases hto : pm.toOther ctx = true
    · rw [if_pos hto, if_pos hto]
      have h := processLocalTimeout_effect o
        (pm.emitPeerEvent (.acceptProposal ctx prop (some sign))) prop.height
      exact ⟨h.backend, h.queued, by rw [h.sent, hsent]; exact List.append_nil _⟩
    · rw [if_neg hto, if_neg hto]
      exact ⟨rfl, (List.append_nil _).symm, hsent⟩
  | .branchSyncDone leaf =>
    unfold processReadyEvent voteOnReady
    dsimp only
    cases hsync : pm.syncState with
    | synchronizing =>
      rw [if_pos rfl]
      have h := checkPendingProp_effect o { pm with syncState := .idle } leaf.height
      exact ⟨h.backend, h.queued, h.sent⟩
    | idle =>
      rw [if_neg (by decide)]
      exact .refl pm
  | .proposalReachConsensus propView => exact processLocalTimeout_effect o pm propView

end Pacemaker

end HotstuffConsensus
