import HotstuffConsensus.LoopRefinement
import HotstuffConsensus.LeaderElection
import HotstuffConsensus.VotingRules
import HotstuffConsensus.BlockWrites
import HotstuffConsensus.BranchSync
import Mathlib.Data.Finset.Sort

/-!
# What a replica sends

`emitted` lists the messages of a step, in order, and the step appends them to the outbox
(`step_outbox`).

A replica as the demo wires it (`initHotstuffNode`) signs with one key and speaks under one id.
Whatever it receives, what it sends is `Authentic`: it never speaks for another replica, signs
only what it sends, and addresses a `NewView` and a sync request to the leader of its view.
-/

namespace HotstuffConsensus

open Lib

variable {K : Crypto}

namespace Pacemaker

/-! ## The messages of the methods -/

def emittedOnCheck (o : Oracle K) (pm : Pacemaker K) (leafHeight : ViewNumber) :
    List (PeerEvent K) :=
  match heapPop o.tie pm.pendingProp with
  | some (sw, _) =>
    if (-sw.view).toUInt64 ≤ leafHeight then []
    else
      match pm.syncState with
      | .idle =>
        [.branchSyncRequest (.single pm.id (pm.elector.getLeader pm.view) pm.view)
          ⟨leafHeight, batchSize⟩]
      | .synchronizing => []
  | none => []

def emittedOnTimeout (o : Oracle K) (pm : Pacemaker K) (timeoutView : ViewNumber) :
    List (PeerEvent K) :=
  if pm.view ≤ timeoutView then
    let newView := max pm.view (timeoutView + 1)
    [.timeout (.broadcast pm.id pm.view) (pm.signTc pm.view pm.machine.storage.state.qcHigh),
      .newView (.single pm.id (pm.elector.getLeader newView) newView)
        pm.machine.storage.state.qcHigh] ++
    match pm.syncState with
    | .synchronizing =>
      { pm with view := newView, syncState := .idle }.emittedOnCheck o
        pm.machine.storage.state.leaf.height
    | .idle => []
  else []

def emittedOnNetwork (o : Oracle K) (pm : Pacemaker K) : PeerEvent K → List (PeerEvent K)
  | .newProposal ctx prop =>
    { pm with pendingProp := pm.pendingProp ++
      [SafetyEventWrapper.new prop.justify.view (.recvProposal ctx prop)] }.emittedOnCheck o
        pm.machine.storage.state.leaf.height
  | .timeout _ tc =>
    let v := (pm.machine.storage.appendTc tc).2
    if pm.view < v then pm.emittedOnTimeout o v else []
  | .branchSyncRequest ctx strategy =>
    [.branchSyncResponse (.single pm.id ctx.sender pm.view) strategy (some o.branch) .success]
  | _ => []

def emittedOnReady (o : Oracle K) (pm : Pacemaker K) : Ready K → List (PeerEvent K)
  | .newProposal ctx prop => [.newProposal ctx prop]
  | .signature ctx prop sign =>
    .acceptProposal ctx prop (some sign) ::
      if pm.toOther ctx then pm.emittedOnTimeout o prop.height else []
  | .branchSyncDone leaf =>
    match pm.syncState with
    | .synchronizing => { pm with syncState := .idle }.emittedOnCheck o leaf.height
    | .idle => []
  | .proposalReachConsensus propView => pm.emittedOnTimeout o propView
  | _ => []

theorem checkPendingProp_outbox_eq (o : Oracle K) (pm : Pacemaker K) (leafHeight : ViewNumber) :
    (pm.checkPendingProp o leafHeight).outbox =
      pm.outbox ++ pm.emittedOnCheck o leafHeight := by
  unfold checkPendingProp emittedOnCheck
  cases heapPop o.tie pm.pendingProp with
  | none => exact (List.append_nil _).symm
  | some popped =>
    obtain ⟨sw, rest⟩ := popped
    dsimp only
    by_cases hle : (-sw.view).toUInt64 ≤ leafHeight
    · rw [if_pos hle, if_pos hle, List.append_nil]
      exact emitSafetyEvent_outbox { pm with pendingProp := rest } sw.se
    · rw [if_neg hle, if_neg hle]
      cases pm.syncState with
      | idle => rfl
      | synchronizing => exact (List.append_nil _).symm

theorem timedOut_outbox (pm : Pacemaker K) (timeoutView : ViewNumber) :
    (pm.timedOut timeoutView).outbox = pm.outbox ++
      [.timeout (.broadcast pm.id pm.view) (pm.signTc pm.view pm.machine.storage.state.qcHigh),
        .newView (.single pm.id (pm.elector.getLeader (max pm.view (timeoutView + 1)))
          (max pm.view (timeoutView + 1))) pm.machine.storage.state.qcHigh] := by
  have hqc := congrArg InMemoryState.qcHigh (pm.machine.storage.appendTc_state
    (pm.signTc pm.view pm.machine.storage.state.qcHigh))
  have hout : (pm.timedOut timeoutView).outbox = pm.outbox ++
      [.timeout (.broadcast pm.id pm.view) (pm.signTc pm.view pm.machine.storage.state.qcHigh)] ++
      [.newView (.single pm.id (pm.elector.getLeader (max pm.view (timeoutView + 1)))
        (max pm.view (timeoutView + 1))) (pm.machine.storage.appendTc
          (pm.signTc pm.view pm.machine.storage.state.qcHigh)).1.state.qcHigh] := rfl
  rw [hout, hqc, List.append_assoc]
  rfl

theorem processLocalTimeout_outbox (o : Oracle K) (pm : Pacemaker K) (timeoutView : ViewNumber) :
    (pm.processLocalTimeout o timeoutView).outbox =
      pm.outbox ++ pm.emittedOnTimeout o timeoutView := by
  have hsync : (pm.timedOut timeoutView).syncState = pm.syncState := rfl
  unfold emittedOnTimeout
  rw [processLocalTimeout_eq]
  by_cases hle : pm.view ≤ timeoutView
  · rw [if_pos hle, if_pos hle, hsync]
    dsimp only
    rw [← List.append_assoc, ← timedOut_outbox]
    cases pm.syncState with
    | synchronizing =>
      dsimp only
      rw [← pm.timedOut_leaf timeoutView]
      exact checkPendingProp_outbox_eq o { pm.timedOut timeoutView with syncState := .idle } _
    | idle => exact (List.append_nil _).symm
  · rw [if_neg hle, if_neg hle]
    exact (List.append_nil _).symm

theorem emittedOnTimeout_appendTc (o : Oracle K) (pm : Pacemaker K) (tc : TimeoutCertificate K)
    (timeoutView : ViewNumber) :
    (pm.onStorage fun s => (s.appendTc tc).1).emittedOnTimeout o timeoutView =
      pm.emittedOnTimeout o timeoutView := by
  have hqc := congrArg InMemoryState.qcHigh (pm.machine.storage.appendTc_state tc)
  have hleaf := congrArg InMemoryState.leaf (pm.machine.storage.appendTc_state tc)
  unfold emittedOnTimeout
  dsimp only [onStorage]
  rw [hqc, hleaf]
  rfl

theorem processNetworkEvent_outbox (o : Oracle K) (pm : Pacemaker K) (e : PeerEvent K) :
    (pm.processNetworkEvent o e).outbox = pm.outbox ++ pm.emittedOnNetwork o e := by
  match e with
  | .ping ctx cont => exact (List.append_nil _).symm
  | .newProposal ctx prop =>
    exact checkPendingProp_outbox_eq o
      { pm with pendingProp := pm.pendingProp ++
          [SafetyEventWrapper.new prop.justify.view (.recvProposal ctx prop)] } _
  | .acceptProposal ctx prop (some sign) =>
    exact (emitSafetyEvent_outbox pm _).trans (List.append_nil _).symm
  | .acceptProposal ctx prop none => exact (List.append_nil _).symm
  | .newView ctx qcHigh =>
    exact (emitSafetyEvent_outbox
      (pm.onStorage fun s => s.insertNewView ctx.view ctx.sender qcHigh) _).trans
      (List.append_nil _).symm
  | .timeout ctx tc =>
    unfold processNetworkEvent emittedOnNetwork
    dsimp only
    by_cases hlt : pm.view < (pm.machine.storage.appendTc tc).2
    · rw [if_pos (show (pm.onStorage fun s => (s.appendTc tc).1).view
        < (pm.machine.storage.appendTc tc).2 from hlt), if_pos hlt, ← emittedOnTimeout_appendTc]
      exact processLocalTimeout_outbox o (pm.onStorage fun s => (s.appendTc tc).1) _
    · rw [if_neg (show ¬ (pm.onStorage fun s => (s.appendTc tc).1).view
        < (pm.machine.storage.appendTc tc).2 from hlt), if_neg hlt]
      exact (List.append_nil _).symm
  | .branchSyncRequest ctx strategy => rfl
  | .branchSyncResponse ctx strategy (some branch) .success =>
    exact (emitSafetyEvent_outbox pm _).trans (List.append_nil _).symm
  | .branchSyncResponse ctx strategy none status => exact (List.append_nil _).symm
  | .branchSyncResponse ctx strategy (some branch) .proposalNonExists =>
    exact (List.append_nil _).symm

theorem processReadyEvent_outbox (o : Oracle K) (pm : Pacemaker K) (r : Ready K) :
    (pm.processReadyEvent o r).outbox = pm.outbox ++ pm.emittedOnReady o r := by
  match r with
  | .nil => exact (List.append_nil _).symm
  | .internalState ctx ss => exact (List.append_nil _).symm
  | .commitState ctx node => exact (List.append_nil _).symm
  | .newProposal ctx prop => rfl
  | .updateQCHigh ctx node => exact (List.append_nil _).symm
  | .signature ctx prop sign =>
    unfold processReadyEvent emittedOnReady
    dsimp only
    by_cases hto : pm.toOther ctx = true
    · rw [if_pos (show (pm.emitPeerEvent _).toOther ctx = true from hto), if_pos hto,
        List.append_cons]
      exact processLocalTimeout_outbox o
        (pm.emitPeerEvent (.acceptProposal ctx prop (some sign))) prop.height
    · rw [if_neg (show ¬ (pm.emitPeerEvent _).toOther ctx = true from hto), if_neg hto]
      rfl
  | .branchSyncDone leaf =>
    unfold processReadyEvent emittedOnReady
    cases pm.syncState with
    | synchronizing => exact checkPendingProp_outbox_eq o { pm with syncState := .idle } leaf.height
    | idle => exact (List.append_nil _).symm
  | .proposalReachConsensus propView => exact processLocalTimeout_outbox o pm propView

end Pacemaker

namespace EventLoop

/-- The messages of a step. -/
def emitted (l : EventLoop K) (a : LoopAction K) : List (PeerEvent K) :=
  match l.phase, a with
  | .select, .network o e => l.pm.emittedOnNetwork o e
  | .select, .timeout o view => l.pm.emittedOnTimeout o view
  | .drain, .ready o =>
    match l.pm.readyQueue with
    | [] => []
    | ready :: rest => { l.pm with readyQueue := rest }.emittedOnReady o ready
  | _, _ => []

theorem propose_outbox (pm : Pacemaker K) (cmds : List Txn) :
    (propose pm cmds).outbox = pm.outbox := by
  unfold propose Pacemaker.makeNewProposal
  dsimp only
  split
  · split <;> rfl
  · split <;> rfl

/-- A step appends its messages to the outbox. -/
theorem step_outbox (C : Codec K) (l : EventLoop K) (a : LoopAction K) :
    (step C l a).pm.outbox = l.pm.outbox ++ l.emitted a := by
  obtain ⟨pm, db, phase⟩ := l
  cases a with
  | flusher =>
    have hframe := (flusherStep_frame C ⟨pm, db, phase⟩).2.2.1
    cases phase <;> exact hframe.trans (List.append_nil _).symm
  | fetch cmds =>
    cases phase with
    | top =>
      cases cmds with
      | none => exact (List.append_nil _).symm
      | some cmds => exact (propose_outbox _ cmds).trans (List.append_nil _).symm
    | _ => exact (List.append_nil _).symm
  | tick => cases phase <;> exact (List.append_nil _).symm
  | quit => cases phase <;> exact (List.append_nil _).symm
  | network o e =>
    cases phase with
    | select => exact pm.processNetworkEvent_outbox o e
    | _ => exact (List.append_nil _).symm
  | timeout o view =>
    cases phase with
    | select => exact pm.processLocalTimeout_outbox o view
    | _ => exact (List.append_nil _).symm
  | ready o =>
    cases phase with
    | drain =>
      unfold step emitted
      cases hq : pm.readyQueue with
      | nil => simp only [List.append_nil]
      | cons r rest =>
        dsimp only
        exact { pm with readyQueue := rest }.processReadyEvent_outbox o r
    | _ => exact (List.append_nil _).symm
  | finish => cases phase <;> exact (List.append_nil _).symm

end EventLoop

/-! ## Messages that only this replica can have sent -/

/-- What the messages of a replica are made with: its id, the elector and its keys. -/
structure Identity (K : Crypto) where
  id : ReplicaID
  elector : RoundRobinLeaderElector
  signaturer : DefaultSignaturer K

namespace Identity

/-- A message of the replica: it speaks under its own id, a vote and a timeout certificate carry
its share over what they are for, a proposal has the height of its view, and what goes to one
replica only goes to the leader of the view, unless it is an answer. -/
def Authentic (w : Identity K) : PeerEvent K → Prop
  | .ping _ _ => False
  | .newProposal ctx prop => ctx = .broadcast w.id prop.height
  | .acceptProposal ctx prop sign =>
    (∃ dest, ctx = .single w.id dest ctx.view) ∧ sign = some (w.signaturer.sign prop)
  | .newView ctx _ => ctx = .single w.id (w.elector.getLeader ctx.view) ctx.view
  | .timeout ctx tc =>
    ctx = .broadcast w.id tc.view ∧ tc.sender = w.id ∧
      tc.viewSign = .part ⟨K.sign w.signaturer.sks (beBytes tc.view), w.signaturer.signId⟩
  | .branchSyncRequest ctx strategy =>
    ctx = .single w.id (w.elector.getLeader ctx.view) ctx.view ∧ strategy.batchSize = batchSize
  | .branchSyncResponse ctx _ branch status =>
    (∃ dest, ctx = .single w.id dest ctx.view) ∧ branch.isSome ∧ status = .success

/-- A result of the replica's machine: a proposal or a vote is the replica's own. -/
def Vouches (w : Identity K) : Ready K → Prop
  | .newProposal ctx prop => ctx = .broadcast w.id prop.height
  | .signature ctx prop sign =>
    (∃ dest, ctx = .single w.id dest ctx.view) ∧ sign = w.signaturer.sign prop
  | _ => True

end Identity

namespace Machine

@[simp] theorem updateNodes_selfId (m : Machine K) (node : TreeNode K) :
    (m.updateNodes node).1.selfId = m.selfId := by
  unfold updateNodes
  dsimp only
  split
  · split <;> rfl
  · rfl

theorem processProp_selfId (m : Machine K) (prop : TreeNode K) :
    (m.processProp prop).selfId = m.selfId := by
  unfold processProp
  rw [updateNodes_selfId]
  split <;> rfl

theorem syncNodes_selfId (m : Machine K) (branch : List (TreeNode K)) :
    (m.syncNodes branch).selfId = m.selfId :=
  syncNodes_of_invariant (I := fun m' => m'.selfId = m.selfId)
    (fun m' p h => (processProp_selfId m' p).trans h) rfl branch

theorem processSafetyEvent_selfId (m : Machine K) (e : SafetyEvent K) :
    (m.processSafetyEvent e).1.selfId = m.selfId := by
  match e with
  | .requestSnapshot => rfl
  | .recvProposal ctx prop =>
    show (m.onRecvProposal ctx prop prop.justify).1.selfId = _
    rw [onRecvProposal_eq_syncNodes, syncNodes_selfId]
  | .recvSign ctx node sign =>
    show (m.onRecvVote ctx node sign).1.selfId = _
    unfold onRecvVote
    split
    · rfl
    · split
      · rfl
      · split
        · split <;> rfl
        · rfl
  | .newTx cmds => rfl
  | .recvNewViewMsg ctx qc =>
    show (m.onRecvNewView qc).1.selfId = _
    rcases m.onRecvNewView_cases qc with ⟨-, heq⟩ | ⟨node, -, heq⟩
    · rw [heq]
    · rw [heq]
  | .newLeader ctx leader =>
    obtain ⟨l, heq⟩ := m.newLeader_eq ctx leader
    rw [heq]
  | .branchSync ctx branch => exact m.syncNodes_selfId branch
  | .viewChange leader view => rfl
  | .propose ctx node qc => rfl

theorem processSafetyEvent_signature (m : Machine K) (e : SafetyEvent K) :
    (m.processSafetyEvent e).1.voter.signature = m.voter.signature :=
  Driver.step_signature ⟨m, []⟩ (.event e)

/-- The machine makes its results under its own id and with its own keys. -/
theorem vouches_processSafetyEvent {w : Identity K} {m : Machine K} (hid : m.selfId = w.id)
    (hkeys : m.voter.signature = w.signaturer) (e : SafetyEvent K) :
    ∀ r ∈ queued (m.processSafetyEvent e).2, w.Vouches r := by
  intro r hr
  match e with
  | .requestSnapshot =>
    rw [List.mem_singleton.mp hr]
    trivial
  | .recvProposal ctx prop =>
    have hcall : (m.processSafetyEvent (.recvProposal ctx prop)).2
        = (m.onRecvProposal ctx prop prop.justify).2 := rfl
    rw [hcall, onRecvProposal_eq] at hr
    cases hv : m.verifyProposal prop.justify with
    | error e =>
      rw [hv] at hr
      cases hr
    | ok v =>
      rw [hv] at hr
      dsimp only at hr
      split at hr
      · rw [List.mem_singleton.mp hr]
        refine ⟨⟨ctx.sender, ?_⟩, ?_⟩
        · rw [hid]
          rfl
        · unfold Voter.sign
          rw [hkeys]
      · cases hr
  | .recvSign ctx prop sign =>
    have hcall : (m.processSafetyEvent (.recvSign ctx prop sign)).2
        = (m.onRecvVote ctx prop sign).2 := rfl
    rw [hcall] at hr
    rcases m.onRecvVote_output ctx prop sign with ⟨e, hout⟩ | hout | ⟨v, hout⟩
    · rw [hout] at hr
      cases hr
    · rw [hout] at hr
      cases hr
    · rw [hout] at hr
      rw [List.mem_singleton.mp hr]
      trivial
  | .newTx cmds =>
    rw [List.mem_singleton.mp hr]
    show Context.broadcast m.selfId _ = .broadcast w.id _
    rw [hid]
    rfl
  | .recvNewViewMsg ctx qc =>
    rw [List.mem_singleton.mp hr]
    trivial
  | .newLeader ctx leader =>
    obtain ⟨l, heq⟩ := m.newLeader_eq ctx leader
    rw [heq] at hr
    cases hr
  | .branchSync ctx branch =>
    rw [List.mem_singleton.mp hr]
    trivial
  | .viewChange leader view => cases hr
  | .propose ctx node qc => cases hr

end Machine

namespace Core

/-- The machine has the id and the keys of the replica. -/
structure Carries (w : Identity K) (c : Core K) : Prop where
  selfId : c.machine.selfId = w.id
  signature : c.machine.voter.signature = w.signaturer

theorem Carries.apply {w : Identity K} {c : Core K} (h : c.Carries w) (op : Op K) :
    (c.apply op).Carries w := by
  cases op with
  | event e =>
    exact ⟨(c.machine.processSafetyEvent_selfId e).trans h.selfId,
      (c.machine.processSafetyEvent_signature e).trans h.signature⟩
  | _ => exact ⟨h.selfId, h.signature⟩

theorem Carries.vouches {w : Identity K} {c : Core K} (h : c.Carries w) (ops : List (Op K)) :
    ∀ r ∈ c.results ops, w.Vouches r := by
  induction ops generalizing c with
  | nil =>
    intro r hr
    cases hr
  | cons op ops ih =>
    intro r hr
    rcases List.mem_append.mp hr with hr | hr
    · cases op with
      | event e => exact Machine.vouches_processSafetyEvent h.selfId h.signature e r hr
      | _ => cases hr
    · exact ih (h.apply op) r hr

end Core

namespace Pacemaker

def identity (pm : Pacemaker K) : Identity K := ⟨pm.id, pm.elector, pm.signaturer⟩

theorem emitSafetyEvent_identity (pm : Pacemaker K) (se : SafetyEvent K) :
    (pm.emitSafetyEvent se).identity = pm.identity := by
  unfold emitSafetyEvent
  dsimp only
  split <;> rfl

theorem checkPendingProp_identity (o : Oracle K) (pm : Pacemaker K) (leafHeight : ViewNumber) :
    (pm.checkPendingProp o leafHeight).identity = pm.identity := by
  unfold checkPendingProp
  split
  · split
    · exact emitSafetyEvent_identity _ _
    · dsimp only
      split <;> rfl
  · rfl

theorem processLocalTimeout_identity (o : Oracle K) (pm : Pacemaker K)
    (timeoutView : ViewNumber) :
    (pm.processLocalTimeout o timeoutView).identity = pm.identity := by
  rw [processLocalTimeout_eq]
  split
  · split
    · exact checkPendingProp_identity o { pm.timedOut timeoutView with syncState := .idle } _
    · rfl
  · rfl

theorem processNetworkEvent_identity (o : Oracle K) (pm : Pacemaker K) (e : PeerEvent K) :
    (pm.processNetworkEvent o e).identity = pm.identity := by
  match e with
  | .ping ctx cont => rfl
  | .newProposal ctx prop =>
    exact checkPendingProp_identity o
      { pm with pendingProp := pm.pendingProp ++
          [SafetyEventWrapper.new prop.justify.view (.recvProposal ctx prop)] } _
  | .acceptProposal ctx prop (some sign) => exact emitSafetyEvent_identity pm _
  | .acceptProposal ctx prop none => rfl
  | .newView ctx qcHigh =>
    exact emitSafetyEvent_identity
      (pm.onStorage fun s => s.insertNewView ctx.view ctx.sender qcHigh) _
  | .timeout ctx tc =>
    unfold processNetworkEvent
    dsimp only
    split
    · exact processLocalTimeout_identity o (pm.onStorage fun s => (s.appendTc tc).1) _
    · rfl
  | .branchSyncRequest ctx strategy => rfl
  | .branchSyncResponse ctx strategy (some branch) .success => exact emitSafetyEvent_identity pm _
  | .branchSyncResponse ctx strategy none status => rfl
  | .branchSyncResponse ctx strategy (some branch) .proposalNonExists => rfl

theorem processReadyEvent_identity (o : Oracle K) (pm : Pacemaker K) (r : Ready K) :
    (pm.processReadyEvent o r).identity = pm.identity := by
  rcases pm.processReadyEvent_cases o r with ⟨outbox, hpm, -⟩ | ⟨ctx, node, -, hpm, -⟩ |
    ⟨outbox, timeoutView, hpm, -⟩ | ⟨leafHeight, -, hpm, -⟩
  · rw [hpm]
    rfl
  · rw [hpm]
    rfl
  · rw [hpm]
    exact processLocalTimeout_identity o { pm with outbox := outbox } timeoutView
  · rw [hpm]
    exact checkPendingProp_identity o { pm with syncState := .idle } leafHeight

/-! The messages of the methods are authentic. -/

theorem authentic_onCheck (o : Oracle K) (pm : Pacemaker K) (leafHeight : ViewNumber) :
    ∀ e ∈ pm.emittedOnCheck o leafHeight, pm.identity.Authentic e := by
  intro e he
  unfold emittedOnCheck at he
  split at he
  · split at he
    · cases he
    · split at he
      · rw [List.mem_singleton.mp he]
        exact ⟨rfl, rfl⟩
      · cases he
  · cases he

theorem authentic_onTimeout (o : Oracle K) (pm : Pacemaker K) (timeoutView : ViewNumber) :
    ∀ e ∈ pm.emittedOnTimeout o timeoutView, pm.identity.Authentic e := by
  intro e he
  unfold emittedOnTimeout at he
  split at he
  · rcases List.mem_append.mp he with he | he
    · rcases List.mem_pair.mp he with rfl | rfl
      · exact ⟨rfl, rfl, rfl⟩
      · rfl
    · split at he
      · exact authentic_onCheck o
          { pm with view := max pm.view (timeoutView + 1), syncState := .idle } _ e he
      · cases he
  · cases he

theorem authentic_onNetwork (o : Oracle K) (pm : Pacemaker K) (msg : PeerEvent K) :
    ∀ e ∈ pm.emittedOnNetwork o msg, pm.identity.Authentic e := by
  intro e he
  unfold emittedOnNetwork at he
  split at he
  · rename_i ctx prop
    exact authentic_onCheck o { pm with pendingProp := pm.pendingProp ++
      [SafetyEventWrapper.new prop.justify.view (.recvProposal ctx prop)] } _ e he
  · dsimp only at he
    split at he
    · exact authentic_onTimeout o pm _ e he
    · cases he
  · rw [List.mem_singleton.mp he]
    exact ⟨⟨_, rfl⟩, rfl, rfl⟩
  · cases he

theorem authentic_onReady (o : Oracle K) {pm : Pacemaker K} {r : Ready K}
    (hr : pm.identity.Vouches r) : ∀ e ∈ pm.emittedOnReady o r, pm.identity.Authentic e := by
  intro e he
  match r with
  | .nil => cases he
  | .internalState ctx ss => cases he
  | .commitState ctx node => cases he
  | .updateQCHigh ctx node => cases he
  | .newProposal ctx prop =>
    rw [List.mem_singleton.mp he]
    exact hr
  | .signature ctx prop sign =>
    rcases List.mem_cons.mp he with rfl | he
    · exact ⟨hr.1, congrArg some hr.2⟩
    · split at he
      · exact authentic_onTimeout o pm _ e he
      · cases he
  | .branchSyncDone leaf =>
    dsimp only [emittedOnReady] at he
    split at he
    · exact authentic_onCheck o { pm with syncState := .idle } _ e he
    · cases he
  | .proposalReachConsensus propView => exact authentic_onTimeout o pm _ e he

end Pacemaker

namespace EventLoop

theorem step_identity (C : Codec K) (l : EventLoop K) (a : LoopAction K) :
    (step C l a).pm.identity = l.pm.identity := by
  obtain ⟨pm, db, phase⟩ := l
  cases a with
  | flusher =>
    have hframe : (flusherStep C ⟨pm, db, phase⟩).pm.identity = pm.identity := by
      unfold flusherStep
      split <;> rfl
    cases phase <;> exact hframe
  | fetch cmds =>
    cases phase with
    | top =>
      cases cmds with
      | none => rfl
      | some cmds =>
        show (propose _ cmds).identity = pm.identity
        unfold propose Pacemaker.makeNewProposal
        dsimp only
        split
        · split <;> rfl
        · split <;> rfl
    | _ => cases cmds <;> rfl
  | tick => cases phase <;> rfl
  | quit => cases phase <;> rfl
  | network o e =>
    cases phase with
    | select => exact pm.processNetworkEvent_identity o e
    | _ => rfl
  | timeout o view =>
    cases phase with
    | select => exact pm.processLocalTimeout_identity o view
    | _ => rfl
  | ready o =>
    cases phase with
    | drain =>
      unfold step
      cases pm.readyQueue with
      | nil => rfl
      | cons r rest =>
        dsimp only
        exact { pm with readyQueue := rest }.processReadyEvent_identity o r
    | _ => rfl
  | finish => cases phase <;> rfl

/-- The loop speaks for `w`: it has its id, elector and keys, its machine has them too, the
results in its ready queue are its own, and so is all it has sent. -/
structure SpeaksFor (w : Identity K) (l : EventLoop K) : Prop where
  identity : l.pm.identity = w
  carries : l.core.Carries w
  queue : ∀ r ∈ l.pm.readyQueue, w.Vouches r
  outbox : ∀ e ∈ l.pm.outbox, w.Authentic e

theorem SpeaksFor.emitted {w : Identity K} {l : EventLoop K} (h : l.SpeaksFor w)
    (a : LoopAction K) : ∀ e ∈ l.emitted a, w.Authentic e := by
  intro e he
  unfold EventLoop.emitted at he
  rw [← h.identity]
  split at he
  · exact Pacemaker.authentic_onNetwork _ _ _ e he
  · exact Pacemaker.authentic_onTimeout _ _ _ e he
  · split at he
    · cases he
    · rename_i r rest hq
      have hr : l.pm.identity.Vouches r := by
        rw [h.identity]
        exact h.queue r (by rw [hq]; exact List.mem_cons_self)
      exact Pacemaker.authentic_onReady _ hr e he
  · cases he

theorem SpeaksFor.step {w : Identity K} {l : EventLoop K} (h : l.SpeaksFor w) (C : Codec K)
    (a : LoopAction K) : (step C l a).SpeaksFor w := by
  refine ⟨(step_identity C l a).trans h.identity, ?_, ?_, ?_⟩
  · rw [step_core]
    exact Run.foldl_of_kept h.carries (fun _ op hc => hc.apply op) _
  · intro r hr
    have hmem : r ∈ l.pm.readyQueue ++ l.core.results (l.ops a) := by
      rw [← step_readyQueue C l a]
      exact List.mem_append_right _ hr
    rcases List.mem_append.mp hmem with hr | hr
    · exact h.queue r hr
    · exact h.carries.vouches (l.ops a) r hr
  · intro e he
    rw [step_outbox] at he
    rcases List.mem_append.mp he with he | he
    · exact h.outbox e he
    · exact h.emitted a e he

end EventLoop

/-! ## The replica of the demo -/

/-- `init_hotstuff_node`. The elector sorts the ids, so the order in which the hash map yields
them does not matter. -/
def initHotstuffNode (token : String) (total : ℕ) (replicaId : ReplicaID)
    (peerAddrs : Finmap fun _ : ReplicaID => String) (signaturer : DefaultSignaturer K) :
    Pacemaker K :=
  let threshold := (total <<< 1) / 3
  let elector := RoundRobinLeaderElector.init (peerAddrs.keys.sort (· ≤ ·))
  let voter := Voter.new threshold signaturer
  let storage := initHotstuffStorage token total replicaId peerAddrs signaturer
  let machine := Machine.new voter replicaId total none storage
  .new replicaId elector machine signaturer

namespace EventLoop

/-- Whatever a replica of the demo receives, and in whatever order, all it sends is authentic. -/
theorem outbox_authentic (C : Codec K) (token : String) (total : ℕ) (replicaId : ReplicaID)
    (peerAddrs : Finmap fun _ : ReplicaID => String) (signaturer : DefaultSignaturer K)
    (db : Database) (as : List (LoopAction K)) :
    ∀ e ∈ (as.foldl (step C)
        (start (initHotstuffNode token total replicaId peerAddrs signaturer) db)).pm.outbox,
      Identity.Authentic
        ⟨replicaId, .init (peerAddrs.keys.sort (· ≤ ·)), signaturer⟩ e := by
  have hstart : (start (initHotstuffNode token total replicaId peerAddrs signaturer) db).SpeaksFor
      ⟨replicaId, .init (peerAddrs.keys.sort (· ≤ ·)), signaturer⟩ := by
    refine ⟨rfl, ⟨rfl, rfl⟩, ?_, ?_⟩
    · intro r hr
      cases hr
    · intro e he
      rw [List.mem_singleton.mp he]
      rfl
  exact (Run.foldl_of_kept hstart (fun _ a h => h.step C a) as).outbox

end EventLoop

namespace Symbolic

open EventLoop

def demoAddrs : Finmap fun _ : ReplicaID => String :=
  ([⟨replicaId 0, "localhost:8800"⟩, ⟨replicaId 1, "localhost:8801"⟩,
    ⟨replicaId 2, "localhost:8802"⟩, ⟨replicaId 3, "localhost:8803"⟩] :
      List (Σ _ : ReplicaID, String)).toFinmap

/-- Replica 0 of the demo. -/
def demo₀ : EventLoop symbolic :=
  start (initHotstuffNode "hotstuff_test" 4 (replicaId 0) demoAddrs (signaturer 4 0)) createTables

/-- Its view 1 times out. -/
def demoTimeout : List (LoopAction symbolic) := round (.timeout oracle 1) 0

/-- The second message is the timeout of view 1. -/
theorem outbox_authentic_on_demoTimeout :
    ∃ ctx tc, PeerEvent.timeout ctx tc ∈ (demoTimeout.foldl (step codec) demo₀).pm.outbox ∧
      ctx = .broadcast (replicaId 0) tc.view ∧ tc.sender = replicaId 0 := by
  have hsent : ∃ ctx tc, (demoTimeout.foldl (step codec) demo₀).pm.outbox[1]? =
      some (.timeout ctx tc) := by
    have hkind : (demoTimeout.foldl (step codec) demo₀).pm.outbox[1]?.map
        (fun | .timeout _ _ => true | _ => false) = some true := by decide +kernel
    obtain ⟨e, he, hkind⟩ := Option.map_eq_some_iff.mp hkind
    cases e with
    | timeout ctx tc => exact ⟨ctx, tc, he⟩
    | _ => cases hkind
  obtain ⟨ctx, tc, htc⟩ := hsent
  have hmem := List.mem_of_getElem? htc
  unfold demo₀ at hmem ⊢
  have hauthentic := outbox_authentic codec "hotstuff_test" 4 (replicaId 0) demoAddrs
    (signaturer 4 0) createTables demoTimeout _ hmem
  exact ⟨ctx, tc, hmem, hauthentic.1, hauthentic.2.1⟩

end Symbolic

end HotstuffConsensus
