import HotstuffConsensus.Pacemaker
import HotstuffConsensus.StorageTheorems
import HotstuffConsensus.Lib.Run

/-!
# What a step of the event loop does to view and machine

A `Core` is a pacemaker without its queues: the view and the machine. `Op` lists the ways
the event loop acts on the two, and `EventLoop.ops` the operations of a step, in order. The
step and its operations agree (`step_core`), so an invariant of view and machine has to be
checked against the operations only.
-/

namespace HotstuffConsensus

open Lib

variable {K : Crypto}

structure Core (K : Crypto) where
  view : ViewNumber
  machine : Machine K

inductive Op (K : Crypto) where
  /-- `goto_new_view`. -/
  | goto (view : ViewNumber)
  /-- `increase_view(self.view)`, after the view of the pacemaker was set. -/
  | increaseView
  /-- `new_view_set(self.view)`. -/
  | touch
  /-- `clean_new_view_set(self.view + 1)`, before a proposal is made. -/
  | clean
  /-- `new_view_set(view).insert(sender, qc)`. -/
  | newView (view : ViewNumber) (sender : ReplicaID) (qc : GenericQC K)
  | appendTc (tc : TimeoutCertificate K)
  | flush
  /-- The flusher takes a task from the channel. -/
  | flusher
  | event (e : SafetyEvent K)
  /-- `update_qc_high(node, node.justify)`, on a `Ready::UpdateQCHigh`. -/
  | updateQcHigh (node : TreeNode K)

/-- The channel without its first task. -/
def HotstuffStorage.takeTask (s : HotstuffStorage K) : HotstuffStorage K :=
  match s.backend with
  | some ⟨_ :: rest, receiving⟩ => { s with backend := some ⟨rest, receiving⟩ }
  | _ => s

theorem HotstuffStorage.takeTask_frame (s : HotstuffStorage K) :
    s.takeTask.state = s.state ∧ s.takeTask.inMemQueue = s.inMemQueue := by
  unfold takeTask
  split <;> exact ⟨rfl, rfl⟩

namespace Core

def onStorage (c : Core K) (f : HotstuffStorage K → HotstuffStorage K) : Core K :=
  { c with machine := { c.machine with storage := f c.machine.storage } }

def storage (c : Core K) : HotstuffStorage K := c.machine.storage

def apply (c : Core K) : Op K → Core K
  | .goto view =>
    let newView := max c.view view
    { c with view := newView }.onStorage fun s => (s.increaseView newView).cleanNewViewSet newView
  | .increaseView => c.onStorage fun s => s.increaseView c.view
  | .touch => c.onStorage fun s => s.touchNewViewSet c.view
  | .clean => c.onStorage fun s => s.cleanNewViewSet (c.view + 1)
  | .newView view sender qc => c.onStorage fun s => s.insertNewView view sender qc
  | .appendTc tc => c.onStorage fun s => (s.appendTc tc).1
  | .flush => c.onStorage HotstuffStorage.asyncFlush
  | .flusher => c.onStorage HotstuffStorage.takeTask
  | .event e => { c with machine := (c.machine.processSafetyEvent e).1 }
  | .updateQcHigh node => c.onStorage fun s => s.livenessUpdateQcHigh node node.justify

/-- The core after some operations. -/
def run (c : Core K) (ops : List (Op K)) : Core K := ops.foldl apply c

theorem run_append (c : Core K) (ops ops' : List (Op K)) :
    c.run (ops ++ ops') = (c.run ops).run ops' := List.foldl_append

end Core

namespace Pacemaker

def core (pm : Pacemaker K) : Core K := ⟨pm.view, pm.machine⟩

/-! ## The operations of the methods -/

def opsOnCheck (o : Oracle K) (pm : Pacemaker K) (leafHeight : ViewNumber) : List (Op K) :=
  match releasable o pm leafHeight with
  | some sw => [.event sw.se]
  | none => []

def opsOnTimeout (o : Oracle K) (pm : Pacemaker K) (timeoutView : ViewNumber) : List (Op K) :=
  if pm.view ≤ timeoutView then
    [.appendTc (pm.signTc pm.view pm.machine.storage.state.qcHigh), .goto (timeoutView + 1),
      .increaseView] ++
    match pm.syncState with
    | .synchronizing => pm.opsOnCheck o pm.machine.storage.state.leaf.height
    | .idle => []
  else []

def opsOnNetwork (o : Oracle K) (pm : Pacemaker K) : PeerEvent K → List (Op K)
  | .newProposal ctx prop =>
    { pm with pendingProp := pm.pendingProp ++
      [SafetyEventWrapper.new prop.justify.view (.recvProposal ctx prop)] }.opsOnCheck o
        pm.machine.storage.state.leaf.height
  | .acceptProposal ctx prop (some sign) => [.event (.recvSign ctx prop sign)]
  | .acceptProposal _ _ none => []
  | .timeout _ tc =>
    let v := (pm.machine.storage.appendTc tc).2
    .appendTc tc ::
      if pm.view < v then (pm.onStorage fun s => (s.appendTc tc).1).opsOnTimeout o v else []
  | .branchSyncRequest _ _ => []
  | .branchSyncResponse ctx _ (some branch) .success => [.event (.branchSync ctx branch)]
  | .branchSyncResponse _ _ _ _ => []
  | .ping _ _ => []
  | .newView ctx qcHigh =>
    [.newView ctx.view ctx.sender qcHigh, .event (.recvNewViewMsg ctx qcHigh)]

def opsOnReady (o : Oracle K) (pm : Pacemaker K) : Ready K → List (Op K)
  | .updateQCHigh _ node => [.updateQcHigh node]
  | .signature ctx prop _ => if pm.toOther ctx then pm.opsOnTimeout o prop.height else []
  | .branchSyncDone leaf =>
    match pm.syncState with
    | .synchronizing => pm.opsOnCheck o leaf.height
    | .idle => []
  | .proposalReachConsensus propView => pm.opsOnTimeout o propView
  | _ => []

/-- `make_new_proposal` finds a quorum of `NewView` messages. -/
def hasQuorum (pm : Pacemaker K) : Prop :=
  pm.machine.storage.threshold < HashMap.size (pm.machine.storage.newViewSetEntry pm.view)

instance decidableHasQuorum (pm : Pacemaker K) : Decidable pm.hasQuorum :=
  inferInstanceAs (Decidable (_ < _))

def opsOnFetch (pm : Pacemaker K) (cmds : List Txn) : List (Op K) :=
  .touch :: if pm.hasQuorum then [.clean, .event (.newTx cmds)] else []

/-! ## The methods and their operations agree -/

theorem core_emitSafetyEvent (pm : Pacemaker K) (se : SafetyEvent K) :
    (pm.emitSafetyEvent se).core = pm.core.apply (.event se) := by
  unfold emitSafetyEvent
  dsimp only
  split <;> rfl

theorem core_checkPendingProp (o : Oracle K) (pm : Pacemaker K) (leafHeight : ViewNumber) :
    (pm.checkPendingProp o leafHeight).core = pm.core.run (pm.opsOnCheck o leafHeight) := by
  unfold checkPendingProp opsOnCheck releasable
  cases heapPop o.tie pm.pendingProp with
  | none => rfl
  | some popped =>
    obtain ⟨sw, rest⟩ := popped
    dsimp only
    by_cases hle : (-sw.view).toUInt64 ≤ leafHeight
    · rw [if_pos hle, if_pos hle]
      exact core_emitSafetyEvent { pm with pendingProp := rest } sw.se
    · rw [if_neg hle, if_neg hle]
      split <;> rfl

theorem opsOnCheck_congr {pm pm' : Pacemaker K} (h : pm'.pendingProp = pm.pendingProp)
    (o : Oracle K) (leafHeight : ViewNumber) :
    pm'.opsOnCheck o leafHeight = pm.opsOnCheck o leafHeight := by
  unfold opsOnCheck releasable
  rw [h]

/-- A pacemaker that has taken a timeout of `timeoutView`, before it looks at the pending
proposals. -/
def timedOut (pm : Pacemaker K) (timeoutView : ViewNumber) : Pacemaker K :=
  let tc := pm.signTc pm.view pm.machine.storage.state.qcHigh
  let pm := pm.onStorage fun s => (s.appendTc tc).1
  let pm := pm.emitPeerEvent (.timeout (.broadcast pm.id pm.view) tc)
  let pm := pm.gotoNewView (timeoutView + 1)
  pm.onStorage fun s => s.increaseView pm.view

theorem processLocalTimeout_eq (o : Oracle K) (pm : Pacemaker K) (timeoutView : ViewNumber) :
    pm.processLocalTimeout o timeoutView =
      if pm.view ≤ timeoutView then
        match (pm.timedOut timeoutView).syncState with
        | .synchronizing =>
          { pm.timedOut timeoutView with syncState := .idle }.checkPendingProp o
            (pm.timedOut timeoutView).machine.storage.state.leaf.height
        | .idle => pm.timedOut timeoutView
      else pm := rfl

theorem timedOut_core (pm : Pacemaker K) (timeoutView : ViewNumber) :
    (pm.timedOut timeoutView).core =
      pm.core.run [.appendTc (pm.signTc pm.view pm.machine.storage.state.qcHigh),
        .goto (timeoutView + 1), .increaseView] := rfl

theorem timedOut_leaf (pm : Pacemaker K) (timeoutView : ViewNumber) :
    (pm.timedOut timeoutView).machine.storage.state.leaf = pm.machine.storage.state.leaf := by
  have hleaf := congrArg InMemoryState.leaf (pm.machine.storage.appendTc_state
    (pm.signTc pm.view pm.machine.storage.state.qcHigh))
  exact hleaf

theorem core_processLocalTimeout (o : Oracle K) (pm : Pacemaker K) (timeoutView : ViewNumber) :
    (pm.processLocalTimeout o timeoutView).core =
      pm.core.run (pm.opsOnTimeout o timeoutView) := by
  have hsync : (pm.timedOut timeoutView).syncState = pm.syncState := rfl
  have hcheck := @opsOnCheck_congr K pm (pm.timedOut timeoutView) rfl o
  unfold opsOnTimeout
  rw [processLocalTimeout_eq]
  by_cases hle : pm.view ≤ timeoutView
  · rw [if_pos hle, if_pos hle, Core.run_append, ← timedOut_core, hsync]
    cases pm.syncState with
    | synchronizing =>
      rw [← hcheck, ← pm.timedOut_leaf timeoutView]
      exact core_checkPendingProp o { pm.timedOut timeoutView with syncState := .idle }
        (pm.timedOut timeoutView).machine.storage.state.leaf.height
    | idle => rfl
  · rw [if_neg hle, if_neg hle]
    rfl

theorem core_processNetworkEvent (o : Oracle K) (pm : Pacemaker K) (e : PeerEvent K) :
    (pm.processNetworkEvent o e).core = pm.core.run (pm.opsOnNetwork o e) := by
  match e with
  | .ping ctx cont => rfl
  | .newProposal ctx prop =>
    exact core_checkPendingProp o
      { pm with pendingProp := pm.pendingProp ++
          [SafetyEventWrapper.new prop.justify.view (.recvProposal ctx prop)] } _
  | .acceptProposal ctx prop (some sign) => exact core_emitSafetyEvent pm _
  | .acceptProposal ctx prop none => rfl
  | .newView ctx qcHigh =>
    exact core_emitSafetyEvent
      (pm.onStorage fun s => s.insertNewView ctx.view ctx.sender qcHigh) _
  | .timeout ctx tc =>
    unfold processNetworkEvent opsOnNetwork
    dsimp only
    by_cases hlt : pm.view < (pm.machine.storage.appendTc tc).2
    · rw [if_pos (show (pm.onStorage fun s => (s.appendTc tc).1).view
        < (pm.machine.storage.appendTc tc).2 from hlt), if_pos hlt]
      exact core_processLocalTimeout o (pm.onStorage fun s => (s.appendTc tc).1) _
    · rw [if_neg (show ¬ (pm.onStorage fun s => (s.appendTc tc).1).view
        < (pm.machine.storage.appendTc tc).2 from hlt), if_neg hlt]
      rfl
  | .branchSyncRequest ctx strategy => rfl
  | .branchSyncResponse ctx strategy (some branch) .success => exact core_emitSafetyEvent pm _
  | .branchSyncResponse ctx strategy none status => rfl
  | .branchSyncResponse ctx strategy (some branch) .proposalNonExists => rfl

/-- A ready event does one of four things: messages are sent at most, `qc_high` is updated, a
timeout is taken, or the pending proposals are looked at because a sync is over. -/
theorem processReadyEvent_cases (o : Oracle K) (pm : Pacemaker K) (r : Ready K) :
    (∃ outbox, pm.processReadyEvent o r = { pm with outbox := outbox } ∧
      pm.opsOnReady o r = []) ∨
    (∃ ctx node, r = .updateQCHigh ctx node ∧
      pm.processReadyEvent o r =
        pm.onStorage (fun s => s.livenessUpdateQcHigh node node.justify) ∧
      pm.opsOnReady o r = [.updateQcHigh node]) ∨
    (∃ outbox timeoutView,
      pm.processReadyEvent o r = { pm with outbox := outbox }.processLocalTimeout o timeoutView ∧
      pm.opsOnReady o r = { pm with outbox := outbox }.opsOnTimeout o timeoutView) ∨
    ∃ leafHeight, pm.syncState = .synchronizing ∧
      pm.processReadyEvent o r =
        { pm with syncState := .idle }.checkPendingProp o leafHeight ∧
      pm.opsOnReady o r = { pm with syncState := .idle }.opsOnCheck o leafHeight := by
  match r with
  | .nil => exact Or.inl ⟨_, rfl, rfl⟩
  | .internalState ctx ss => exact Or.inl ⟨_, rfl, rfl⟩
  | .commitState ctx node => exact Or.inl ⟨_, rfl, rfl⟩
  | .newProposal ctx prop => exact Or.inl ⟨_, rfl, rfl⟩
  | .updateQCHigh ctx node => exact Or.inr (Or.inl ⟨ctx, node, rfl, rfl, rfl⟩)
  | .signature ctx prop sign =>
    unfold processReadyEvent opsOnReady
    dsimp only
    by_cases hto : pm.toOther ctx = true
    · right; right; left
      exact ⟨_, prop.height, if_pos hto, if_pos hto⟩
    · left
      exact ⟨_, if_neg hto, if_neg hto⟩
  | .branchSyncDone leaf =>
    unfold processReadyEvent opsOnReady
    cases hsync : pm.syncState with
    | synchronizing => exact Or.inr (Or.inr (Or.inr ⟨leaf.height, rfl, rfl, rfl⟩))
    | idle =>
      left
      refine ⟨pm.outbox, ?_, rfl⟩
      dsimp only
      rw [← hsync]
  | .proposalReachConsensus propView => exact Or.inr (Or.inr (Or.inl ⟨_, propView, rfl, rfl⟩))

/-! What is among the operations. -/

theorem mem_opsOnCheck {o : Oracle K} {pm : Pacemaker K} {leafHeight : ViewNumber} {op : Op K}
    (h : op ∈ pm.opsOnCheck o leafHeight) : ∃ se, op = .event se := by
  unfold opsOnCheck at h
  split at h
  · exact ⟨_, List.mem_singleton.mp h⟩
  · cases h

theorem mem_opsOnTimeout {o : Oracle K} {pm : Pacemaker K} {timeoutView : ViewNumber} {op : Op K}
    (h : op ∈ pm.opsOnTimeout o timeoutView) :
    (∃ tc, op = .appendTc tc) ∨ (∃ view, op = .goto view) ∨ op = .increaseView ∨
      pm.syncState = .synchronizing ∧ ∃ se, op = .event se := by
  unfold opsOnTimeout at h
  split at h
  · rcases List.mem_append.mp h with h | h
    · simp only [List.mem_cons, List.not_mem_nil, or_false] at h
      rcases h with h | h | h
      · exact Or.inl ⟨_, h⟩
      · exact Or.inr (Or.inl ⟨_, h⟩)
      · exact Or.inr (Or.inr (Or.inl h))
    · split at h
      · rename_i hsync
        exact Or.inr (Or.inr (Or.inr ⟨hsync, mem_opsOnCheck h⟩))
      · cases h
  · cases h

theorem mem_opsOnReady {o : Oracle K} {pm : Pacemaker K} {r : Ready K} {op : Op K}
    (h : op ∈ pm.opsOnReady o r) :
    (∃ ctx node, r = .updateQCHigh ctx node ∧ op = .updateQcHigh node) ∨
    (∃ tc, op = .appendTc tc) ∨ (∃ view, op = .goto view) ∨ op = .increaseView ∨
      pm.syncState = .synchronizing ∧ ∃ se, op = .event se := by
  rcases pm.processReadyEvent_cases o r with ⟨outbox, -, hops⟩ | ⟨ctx, node, hr, -, hops⟩ |
    ⟨outbox, timeoutView, -, hops⟩ | ⟨leafHeight, hsync, -, hops⟩
  · rw [hops] at h
    cases h
  · rw [hops] at h
    exact Or.inl ⟨ctx, node, hr, List.mem_singleton.mp h⟩
  · rw [hops] at h
    exact Or.inr (mem_opsOnTimeout h)
  · rw [hops] at h
    exact Or.inr (Or.inr (Or.inr (Or.inr ⟨hsync, mem_opsOnCheck h⟩)))

theorem core_processReadyEvent (o : Oracle K) (pm : Pacemaker K) (r : Ready K) :
    (pm.processReadyEvent o r).core = pm.core.run (pm.opsOnReady o r) := by
  rcases pm.processReadyEvent_cases o r with ⟨outbox, hpm, hops⟩ | ⟨ctx, node, -, hpm, hops⟩ |
    ⟨outbox, timeoutView, hpm, hops⟩ | ⟨leafHeight, -, hpm, hops⟩
  · rw [hpm, hops]
    rfl
  · rw [hpm, hops]
    rfl
  · rw [hpm, hops]
    exact core_processLocalTimeout o { pm with outbox := outbox } timeoutView
  · rw [hpm, hops]
    exact core_checkPendingProp o { pm with syncState := .idle } leafHeight

theorem core_makeNewProposal (pm : Pacemaker K) (cmds : List Txn) :
    (pm.makeNewProposal cmds).1.core = pm.core.run (pm.opsOnFetch cmds) := by
  unfold makeNewProposal opsOnFetch
  dsimp only
  by_cases hq : pm.hasQuorum
  · rw [if_neg (not_le.mpr hq), if_pos hq]
    rfl
  · rw [if_pos (not_lt.mp hq), if_neg hq]
    rfl

end Pacemaker

/-! ## The event loop -/

namespace EventLoop

def core (l : EventLoop K) : Core K := l.pm.core

/-- The operations of a step. -/
def ops (l : EventLoop K) (a : LoopAction K) : List (Op K) :=
  match l.phase, a with
  | .top, .fetch none => [.touch]
  | .top, .fetch (some cmds) =>
    .touch :: (l.pm.onStorage fun s => s.touchNewViewSet l.pm.view).opsOnFetch cmds
  | .select, .tick => [.flush]
  | .select, .network o e => l.pm.opsOnNetwork o e
  | .select, .timeout o view => l.pm.opsOnTimeout o view
  | .drain, .ready o =>
    match l.pm.readyQueue with
    | [] => []
    | ready :: rest => { l.pm with readyQueue := rest }.opsOnReady o ready
  | .top, .finish => [.flush]
  | _, .flusher => [.flusher]
  | _, _ => []

theorem core_propose (pm : Pacemaker K) (cmds : List Txn) :
    (propose pm cmds).core = pm.core.run (pm.opsOnFetch cmds) := by
  rw [← Pacemaker.core_makeNewProposal]
  unfold propose
  dsimp only
  split <;> rfl

theorem core_flusherStep (C : Codec K) (l : EventLoop K) :
    (flusherStep C l).core = l.core.run [.flusher] := by
  show (flusherStep C l).pm.core = l.pm.core.onStorage HotstuffStorage.takeTask
  unfold flusherStep HotstuffStorage.takeTask Core.onStorage Pacemaker.core
  dsimp only
  cases l.pm.machine.storage.backend with
  | none => rfl
  | some backend =>
    obtain ⟨channel, receiving⟩ := backend
    cases channel <;> rfl

/-- The flusher leaves the loop itself alone. -/
theorem flusherStep_frame (C : Codec K) (l : EventLoop K) :
    (flusherStep C l).phase = l.phase ∧ (flusherStep C l).pm.readyQueue = l.pm.readyQueue ∧
      (flusherStep C l).pm.outbox = l.pm.outbox ∧
      (flusherStep C l).pm.machine.storage.state = l.pm.machine.storage.state := by
  unfold flusherStep
  split <;> exact ⟨rfl, rfl, rfl, rfl⟩

/-- A step acts on view and machine by its operations. -/
theorem step_core (C : Codec K) (l : EventLoop K) (a : LoopAction K) :
    (step C l a).core = l.core.run (l.ops a) := by
  obtain ⟨pm, db, phase⟩ := l
  cases a with
  | flusher => cases phase <;> exact core_flusherStep C _
  | fetch cmds =>
    cases phase with
    | top =>
      cases cmds with
      | none => rfl
      | some cmds => exact core_propose (pm.onStorage fun s => s.touchNewViewSet pm.view) cmds
    | _ => rfl
  | tick => cases phase <;> rfl
  | quit => cases phase <;> rfl
  | network o e =>
    cases phase with
    | select => exact pm.core_processNetworkEvent o e
    | _ => rfl
  | timeout o view =>
    cases phase with
    | select => exact pm.core_processLocalTimeout o view
    | _ => rfl
  | ready o =>
    cases phase with
    | drain =>
      unfold step ops core
      cases hq : pm.readyQueue with
      | nil => rfl
      | cons r rest =>
        exact { pm with readyQueue := rest }.core_processReadyEvent o r
    | _ => rfl
  | finish => cases phase <;> rfl

end EventLoop

end HotstuffConsensus
