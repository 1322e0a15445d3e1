import HotstuffConsensus.PacemakerCore
import HotstuffConsensus.Driver
import HotstuffConsensus.Transparency

/-!
# The event loop refines the driven replica

A `Driver` knows a machine and the blocks of the `UpdateQCHigh` events it has produced. The
event loop knows much more: the views and queues of the pacemaker, the channel to the flusher,
the database. Each of its steps is a few steps of the driver (`drives`), after which the two
machines are alike again (`Follows.step`).

The ready queue is first in, first out, and what the loop takes from it in the end is what the
machine has returned (`step_readyQueue`). The `k`-th `UpdateQCHigh` that the loop processes is
therefore the `k`-th one that was produced.
-/

namespace HotstuffConsensus

open Lib

variable {K : Crypto}

/-! ## The results of the operations -/

/-- What `emit_safety_event` queues of a result of the machine: neither `Nil` nor an error. -/
def queued : Except SafetyErr (Ready K) → List (Ready K)
  | .ok .nil => []
  | .ok ready => [ready]
  | .error _ => []

namespace Core

/-- What an operation puts into the ready queue. -/
def result (c : Core K) : Op K → List (Ready K)
  | .event e => queued (c.machine.processSafetyEvent e).2
  | _ => []

/-- What a sequence of operations puts into the ready queue. -/
def results (c : Core K) : List (Op K) → List (Ready K)
  | [] => []
  | op :: ops => c.result op ++ (c.apply op).results ops

theorem results_append (c : Core K) (ops ops' : List (Op K)) :
    c.results (ops ++ ops') = c.results ops ++ (c.run ops).results ops' := by
  induction ops generalizing c with
  | nil => rfl
  | cons op ops ih =>
    show c.result op ++ (c.apply op).results (ops ++ ops') = _
    rw [ih, ← List.append_assoc]
    rfl

theorem results_singleton (c : Core K) (op : Op K) : c.results [op] = c.result op :=
  List.append_nil _

end Core

namespace Pacemaker

theorem emitSafetyEvent_readyQueue (pm : Pacemaker K) (se : SafetyEvent K) :
    (pm.emitSafetyEvent se).readyQueue = pm.readyQueue ++ pm.core.result (.event se) := by
  show _ = pm.readyQueue ++ queued (pm.machine.processSafetyEvent se).2
  unfold emitSafetyEvent
  dsimp only
  cases (pm.machine.processSafetyEvent se).2 with
  | error e => exact (List.append_nil _).symm
  | ok ready =>
    cases ready with
    | nil => exact (List.append_nil _).symm
    | _ => rfl

theorem checkPendingProp_readyQueue (o : Oracle K) (pm : Pacemaker K) (leafHeight : ViewNumber) :
    (pm.checkPendingProp o leafHeight).readyQueue =
      pm.readyQueue ++ pm.core.results (pm.opsOnCheck o leafHeight) := by
  unfold checkPendingProp opsOnCheck releasable
  cases heapPop o.tie pm.pendingProp with
  | none => exact (List.append_nil _).symm
  | some popped =>
    obtain ⟨sw, rest⟩ := popped
    dsimp only
    by_cases hle : (-sw.view).toUInt64 ≤ leafHeight
    · rw [if_pos hle, if_pos hle]
      dsimp only
      rw [Core.results_singleton]
      exact emitSafetyEvent_readyQueue { pm with pendingProp := rest } sw.se
    · rw [if_neg hle, if_neg hle]
      split <;> exact (List.append_nil _).symm

theorem processLocalTimeout_readyQueue (o : Oracle K) (pm : Pacemaker K)
    (timeoutView : ViewNumber) :
    (pm.processLocalTimeout o timeoutView).readyQueue =
      pm.readyQueue ++ pm.core.results (pm.opsOnTimeout o timeoutView) := by
  have hsync : (pm.timedOut timeoutView).syncState = pm.syncState := rfl
  have hcheck := @opsOnCheck_congr K pm (pm.timedOut timeoutView) rfl o
  unfold opsOnTimeout
  rw [processLocalTimeout_eq]
  by_cases hle : pm.view ≤ timeoutView
  · rw [if_pos hle, if_pos hle, Core.results_append, ← timedOut_core, hsync]
    cases pm.syncState with
    | synchronizing =>
      rw [← hcheck, ← pm.timedOut_leaf timeoutView]
      exact checkPendingProp_readyQueue o { pm.timedOut timeoutView with syncState := .idle }
        (pm.timedOut timeoutView).machine.storage.state.leaf.height
    | idle => exact (List.append_nil _).symm
  · rw [if_neg hle, if_neg hle]
    exact (List.append_nil _).symm

theorem processNetworkEvent_readyQueue (o : Oracle K) (pm : Pacemaker K) (e : PeerEvent K) :
    (pm.processNetworkEvent o e).readyQueue =
      pm.readyQueue ++ pm.core.results (pm.opsOnNetwork o e) := by
  match e with
  | .ping ctx cont => exact (List.append_nil _).symm
  | .newProposal ctx prop =>
    exact checkPendingProp_readyQueue o
      { pm with pendingProp := pm.pendingProp ++
          [SafetyEventWrapper.new prop.justify.view (.recvProposal ctx prop)] } _
  | .acceptProposal ctx prop (some sign) =>
    exact (emitSafetyEvent_readyQueue pm _).trans
      (congrArg _ (Core.results_singleton _ _).symm)
  | .acceptProposal ctx prop none => exact (List.append_nil _).symm
  | .newView ctx qcHigh =>
    exact (emitSafetyEvent_readyQueue
      (pm.onStorage fun s => s.insertNewView ctx.view ctx.sender qcHigh) _).trans
      (congrArg _ (Core.results_singleton _ _).symm)
  | .timeout ctx tc =>
    unfold processNetworkEvent opsOnNetwork
    dsimp only
    by_cases hlt : pm.view < (pm.machine.storage.appendTc tc).2
    · rw [if_pos (show (pm.onStorage fun s => (s.appendTc tc).1).view
        < (pm.machine.storage.appendTc tc).2 from hlt), if_pos hlt]
      exact processLocalTimeout_readyQueue o (pm.onStorage fun s => (s.appendTc tc).1) _
    · rw [if_neg (show ¬ (pm.onStorage fun s => (s.appendTc tc).1).view
        < (pm.machine.storage.appendTc tc).2 from hlt), if_neg hlt]
      exact (List.append_nil _).symm
  | .branchSyncRequest ctx strategy => exact (List.append_nil _).symm
  | .branchSyncResponse ctx strategy (some branch) .success =>
    exact (emitSafetyEvent_readyQueue pm _).trans
      (congrArg _ (Core.results_singleton _ _).symm)
  | .branchSyncResponse ctx strategy none status => exact (List.append_nil _).symm
  | .branchSyncResponse ctx strategy (some branch) .proposalNonExists =>
    exact (List.append_nil _).symm

theorem processReadyEvent_readyQueue (o : Oracle K) (pm : Pacemaker K) (r : Ready K) :
    (pm.processReadyEvent o r).readyQueue =
      pm.readyQueue ++ pm.core.results (pm.opsOnReady o r) := by
  rcases pm.processReadyEvent_cases o r with ⟨outbox, hpm, hops⟩ | ⟨ctx, node, -, hpm, hops⟩ |
    ⟨outbox, timeoutView, hpm, hops⟩ | ⟨leafHeight, -, hpm, hops⟩
  · rw [hpm, hops]
    exact (List.append_nil _).symm
  · rw [hpm, hops]
    exact (List.append_nil _).symm
  · rw [hpm, hops]
    exact processLocalTimeout_readyQueue o { pm with outbox := outbox } timeoutView
  · rw [hpm, hops]
    exact checkPendingProp_readyQueue o { pm with syncState := .idle } leafHeight

end Pacemaker

namespace EventLoop

theorem propose_readyQueue_eq (pm : Pacemaker K) (cmds : List Txn) :
    (propose pm cmds).readyQueue = pm.readyQueue ++ pm.core.results (pm.opsOnFetch cmds) := by
  unfold propose Pacemaker.makeNewProposal Pacemaker.opsOnFetch
  dsimp only
  by_cases hq : pm.hasQuorum
  · rw [if_neg (not_le.mpr hq), if_pos hq]
    rfl
  · rw [if_pos (not_lt.mp hq), if_neg hq]
    exact (List.append_nil _).symm

/-- The results a step takes from the ready queue. -/
def taken (l : EventLoop K) (a : LoopAction K) : List (Ready K) :=
  match l.phase, a with
  | .drain, .ready _ => l.pm.readyQueue.take 1
  | _, _ => []

/-- A step takes at most the first result from the ready queue, and puts in what the machine
returns. -/
theorem step_readyQueue (C : Codec K) (l : EventLoop K) (a : LoopAction K) :
    l.taken a ++ (step C l a).pm.readyQueue =
      l.pm.readyQueue ++ l.core.results (l.ops a) := by
  obtain ⟨pm, db, phase⟩ := l
  cases a with
  | flusher =>
    have hframe := (flusherStep_frame C ⟨pm, db, phase⟩).2.1
    cases phase <;> exact hframe.trans (List.append_nil _).symm
  | fetch cmds =>
    cases phase with
    | top =>
      cases cmds with
      | none => exact (List.append_nil _).symm
      | some cmds =>
        exact propose_readyQueue_eq (pm.onStorage fun s => s.touchNewViewSet pm.view) cmds
    | _ => exact (List.append_nil _).symm
  | tick => cases phase <;> exact (List.append_nil _).symm
  | quit => cases phase <;> exact (List.append_nil _).symm
  | network o e =>
    cases phase with
    | select => exact pm.processNetworkEvent_readyQueue o e
    | _ => exact (List.append_nil _).symm
  | timeout o view =>
    cases phase with
    | select => exact pm.processLocalTimeout_readyQueue o view
    | _ => exact (List.append_nil _).symm
  | ready o =>
    cases phase with
    | drain =>
      unfold taken step ops core
      cases hq : pm.readyQueue with
      | nil => simp [hq, Core.results]
      | cons r rest =>
        have hrest := { pm with readyQueue := rest }.processReadyEvent_readyQueue o r
        exact congrArg (r :: ·) hrest
    | _ => exact (List.append_nil _).symm
  | finish => cases phase <;> exact (List.append_nil _).symm

end EventLoop

/-! ## Operations as steps of a driver -/

namespace HotstuffStorage

theorem alike_touchNewViewSet (s : HotstuffStorage K) (view : ViewNumber) :
    Alike s (s.touchNewViewSet view) := ⟨rfl, rfl⟩

theorem alike_insertNewView (s : HotstuffStorage K) (view : ViewNumber) (sender : ReplicaID)
    (qc : GenericQC K) : Alike s (s.insertNewView view sender qc) := ⟨rfl, rfl⟩

theorem alike_takeTask (s : HotstuffStorage K) : Alike s s.takeTask :=
  ⟨s.takeTask_frame.1, s.takeTask_frame.2⟩

end HotstuffStorage

/-- The block of an `UpdateQCHigh` event. -/
def Ready.updateNode : Ready K → Option (TreeNode K)
  | .updateQCHigh _ node => some node
  | _ => none

namespace Op

/-- The block an operation installs because of an `UpdateQCHigh` event. -/
def updateNode : Op K → Option (TreeNode K)
  | .updateQcHigh node => some node
  | _ => none

/-- The step of a driver that an operation is, in view `view` and after `handled` processed
`UpdateQCHigh` events. -/
def drive (view : ViewNumber) (handled : ℕ) : Op K → List (Drive K)
  | .goto v => [.increaseView (max view v)]
  | .increaseView => [.increaseView view]
  | .event e => [.event e]
  | .updateQcHigh _ => [.ready handled]
  | _ => []

/-- The view of the pacemaker after the operation. -/
def nextView (view : ViewNumber) : Op K → ViewNumber
  | .goto v => max view v
  | _ => view

/-- The number of `UpdateQCHigh` events processed after the operation. -/
def nextHandled (handled : ℕ) : Op K → ℕ
  | .updateQcHigh _ => handled + 1
  | _ => handled

/-- The steps of a driver that a sequence of operations is. -/
def drives (view : ViewNumber) (handled : ℕ) : List (Op K) → List (Drive K)
  | [] => []
  | op :: ops => op.drive view handled ++ drives (op.nextView view) (op.nextHandled handled) ops

/-- The number of `UpdateQCHigh` events processed after a sequence of operations. -/
def handledAfter (handled : ℕ) (ops : List (Op K)) : ℕ := ops.foldl nextHandled handled

end Op

/-- The machine of the driver is alike, and of its `UpdateQCHigh` events all but those of
`queue` are processed. -/
structure Core.Mirrors (c : Core K) (d : Driver K) (handled : ℕ) (queue : List (TreeNode K)) :
    Prop where
  machine : d.machine.Alike c.machine
  handled_le : handled ≤ d.produced.length
  queue : d.produced.drop handled = queue

namespace Core.Mirrors

variable {c : Core K} {d : Driver K} {handled : ℕ} {queue : List (TreeNode K)}

/-- An operation on what the consensus does not depend on. -/
theorem onStorage (h : c.Mirrors d handled queue) {f : HotstuffStorage K → HotstuffStorage K}
    (hf : ∀ s, HotstuffStorage.Alike s (f s)) : (c.onStorage f).Mirrors d handled queue :=
  ⟨h.machine.trans (.onStorage _ (hf _)), h.handled_le, h.queue⟩

theorem increaseView (h : c.Mirrors d handled queue) (view v : ViewNumber) :
    (({ c with view := view } : Core K).onStorage fun s => s.increaseView v).Mirrors
      (d.step (.increaseView v)) handled queue := by
  have hproduced : (d.step (.increaseView v)).produced = d.produced := List.append_nil _
  refine ⟨h.machine.withStorage (h.machine.storage.increaseView v), ?_, ?_⟩
  · rw [hproduced]
    exact h.handled_le
  · rw [hproduced]
    exact h.queue

/-- The produced block of a result is what goes into the ready queue. -/
theorem producedNode_eq (c : Core K) (e : SafetyEvent K) :
    producedNode (some (c.machine.processSafetyEvent e).2) =
      (c.result (.event e)).filterMap Ready.updateNode := by
  show _ = (queued (c.machine.processSafetyEvent e).2).filterMap Ready.updateNode
  cases (c.machine.processSafetyEvent e).2 with
  | error e => rfl
  | ok r => cases r <;> rfl

theorem event (h : c.Mirrors d handled queue) (e : SafetyEvent K) :
    (c.apply (.event e)).Mirrors (d.step (.event e)) handled
      (queue ++ (c.result (.event e)).filterMap Ready.updateNode) := by
  obtain ⟨hm, hout⟩ := h.machine.processSafetyEvent e
  have hproduced : (d.step (.event e)).produced =
      d.produced ++ (c.result (.event e)).filterMap Ready.updateNode := by
    rw [← producedNode_eq, hout]
    rfl
  refine ⟨hm, ?_, ?_⟩
  · rw [hproduced, List.length_append]
    exact Nat.le_add_right_of_le h.handled_le
  · rw [hproduced, List.drop_append_of_le_length h.handled_le, h.queue]

/-- The driver processes the event that is first in the queue. -/
theorem updateQcHigh {node : TreeNode K} (h : c.Mirrors d handled (node :: queue)) :
    (c.apply (.updateQcHigh node)).Mirrors (d.step (.ready handled)) (handled + 1) queue := by
  have hnode : d.produced[handled]? = some node := by
    have hhead := congrArg List.head? h.queue
    rw [List.head?_drop] at hhead
    exact hhead
  have hstep : d.step (.ready handled) = d.perform (.updateQcHigh node node.justify) := by
    rcases d.step_ready_cases handled with ⟨hnone, -⟩ | ⟨node', hsome, hstep⟩
    · rw [hnode] at hnone
      cases hnone
    · rw [hnode] at hsome
      obtain rfl := Option.some.inj hsome
      exact hstep
  have hproduced : (d.step (.ready handled)).produced = d.produced := by
    rw [hstep]
    exact List.append_nil _
  refine ⟨?_, ?_, ?_⟩
  · rw [hstep]
    exact h.machine.withStorage (h.machine.storage.livenessUpdateQcHigh node node.justify)
  · rw [hproduced]
    exact (List.getElem?_eq_some_iff.mp hnode).1
  · rw [hproduced, ← List.drop_drop, h.queue]
    rfl

/-- An operation other than an event puts nothing into the ready queue. -/
theorem quiet (h : c.Mirrors d handled queue) : c.Mirrors d handled (queue ++ []) :=
  (List.append_nil queue).symm ▸ h

/-- An operation is its steps of the driver. -/
theorem apply {op : Op K} (h : c.Mirrors d handled (op.updateNode.toList ++ queue)) :
    (c.apply op).Mirrors ((op.drive c.view handled).foldl Driver.step d)
      (op.nextHandled handled) (queue ++ (c.result op).filterMap Ready.updateNode) := by
  cases op with
  | event e => exact h.event e
  | updateQcHigh node => exact h.updateQcHigh.quiet
  | goto v =>
    exact ((h.increaseView (max c.view v) (max c.view v)).onStorage
      (fun s => s.alike_cleanNewViewSet (max c.view v))).quiet
  | increaseView => exact (h.increaseView c.view c.view).quiet
  | touch => exact (h.onStorage fun s => s.alike_touchNewViewSet c.view).quiet
  | clean => exact (h.onStorage fun s => s.alike_cleanNewViewSet (c.view + 1)).quiet
  | newView view sender qc =>
    exact (h.onStorage fun s => s.alike_insertNewView view sender qc).quiet
  | appendTc tc => exact (h.onStorage fun s => s.alike_appendTc tc).quiet
  | flush => exact (h.onStorage HotstuffStorage.alike_asyncFlush).quiet
  | flusher => exact (h.onStorage HotstuffStorage.alike_takeTask).quiet

theorem apply_view (c : Core K) (op : Op K) : (c.apply op).view = op.nextView c.view := by
  cases op <;> rfl

/-- So is a sequence of operations. -/
theorem run {ops : List (Op K)}
    (h : c.Mirrors d handled (ops.filterMap Op.updateNode ++ queue)) :
    (c.run ops).Mirrors ((Op.drives c.view handled ops).foldl Driver.step d)
      (Op.handledAfter handled ops) (queue ++ (c.results ops).filterMap Ready.updateNode) := by
  induction ops generalizing c d handled queue with
  | nil => exact h.quiet
  | cons op ops ih =>
    have hsplit : (op :: ops).filterMap Op.updateNode =
        op.updateNode.toList ++ ops.filterMap Op.updateNode := by
      rw [List.filterMap_cons]
      cases op.updateNode <;> rfl
    rw [hsplit, List.append_assoc] at h
    have hop := h.apply
    rw [List.append_assoc] at hop
    have hops := ih hop
    rw [apply_view, List.append_assoc, ← List.filterMap_append] at hops
    show ((c.apply op).run ops).Mirrors ((op.drive c.view handled ++ _).foldl Driver.step d) _ _
    rw [List.foldl_append]
    exact hops

end Core.Mirrors

/-! ## Steps of the loop as steps of a driver -/

namespace EventLoop

/-- The steps of a driver that a step of the loop is. -/
def drives (l : EventLoop K) (handled : ℕ) (a : LoopAction K) : List (Drive K) :=
  Op.drives l.pm.view handled (l.ops a)

/-- The driver has done what the loop has, and has still to process the `UpdateQCHigh` events
of the ready queue. -/
def Follows (l : EventLoop K) (d : Driver K) (handled : ℕ) : Prop :=
  l.core.Mirrors d handled (l.pm.readyQueue.filterMap Ready.updateNode)

theorem updateNode_opsOnCheck (o : Oracle K) (pm : Pacemaker K) (leafHeight : ViewNumber) :
    (pm.opsOnCheck o leafHeight).filterMap Op.updateNode = [] := by
  rw [List.filterMap_eq_nil_iff]
  intro op hop
  obtain ⟨se, rfl⟩ := Pacemaker.mem_opsOnCheck hop
  rfl

theorem updateNode_opsOnTimeout (o : Oracle K) (pm : Pacemaker K) (timeoutView : ViewNumber) :
    (pm.opsOnTimeout o timeoutView).filterMap Op.updateNode = [] := by
  rw [List.filterMap_eq_nil_iff]
  intro op hop
  rcases Pacemaker.mem_opsOnTimeout hop with ⟨tc, rfl⟩ | ⟨v, rfl⟩ | rfl | ⟨-, se, rfl⟩ <;> rfl

theorem updateNode_opsOnNetwork (o : Oracle K) (pm : Pacemaker K) (e : PeerEvent K) :
    (pm.opsOnNetwork o e).filterMap Op.updateNode = [] := by
  match e with
  | .ping ctx cont => rfl
  | .newProposal ctx prop => exact updateNode_opsOnCheck o _ _
  | .acceptProposal ctx prop (some sign) => rfl
  | .acceptProposal ctx prop none => rfl
  | .newView ctx qcHigh => rfl
  | .timeout ctx tc =>
    unfold Pacemaker.opsOnNetwork
    dsimp only
    show List.filterMap Op.updateNode (if _ then _ else _) = []
    split
    · exact updateNode_opsOnTimeout o _ _
    · rfl
  | .branchSyncRequest ctx strategy => rfl
  | .branchSyncResponse ctx strategy (some branch) .success => rfl
  | .branchSyncResponse ctx strategy none status => rfl
  | .branchSyncResponse ctx strategy (some branch) .proposalNonExists => rfl

theorem updateNode_opsOnReady (o : Oracle K) (pm : Pacemaker K) (r : Ready K) :
    (pm.opsOnReady o r).filterMap Op.updateNode = [r].filterMap Ready.updateNode := by
  match r with
  | .nil => rfl
  | .internalState ctx ss => rfl
  | .commitState ctx node => rfl
  | .newProposal ctx prop => rfl
  | .updateQCHigh ctx node => rfl
  | .signature ctx prop sign =>
    unfold Pacemaker.opsOnReady
    dsimp only
    split
    · exact updateNode_opsOnTimeout o _ _
    · rfl
  | .branchSyncDone leaf =>
    unfold Pacemaker.opsOnReady
    dsimp only
    split
    · exact updateNode_opsOnCheck o _ _
    · rfl
  | .proposalReachConsensus propView => exact updateNode_opsOnTimeout o _ _

/-- A step processes the `UpdateQCHigh` events it takes from the ready queue, and no others. -/
theorem updateNode_ops (l : EventLoop K) (a : LoopAction K) :
    (l.ops a).filterMap Op.updateNode = (l.taken a).filterMap Ready.updateNode := by
  obtain ⟨pm, db, phase⟩ := l
  cases a with
  | flusher => cases phase <;> rfl
  | fetch cmds =>
    cases phase with
    | top =>
      cases cmds with
      | none => rfl
      | some cmds =>
        unfold ops taken Pacemaker.opsOnFetch
        dsimp only
        split <;> rfl
    | _ => cases cmds <;> rfl
  | tick => cases phase <;> rfl
  | quit => cases phase <;> rfl
  | network o e =>
    cases phase with
    | select => exact updateNode_opsOnNetwork o pm e
    | _ => rfl
  | timeout o view =>
    cases phase with
    | select => exact updateNode_opsOnTimeout o pm view
    | _ => rfl
  | ready o =>
    cases phase with
    | drain =>
      unfold ops taken
      dsimp only
      cases pm.readyQueue with
      | nil => rfl
      | cons r rest => exact updateNode_opsOnReady o _ r
    | _ => rfl
  | finish => cases phase <;> rfl

/-- What a step takes from the ready queue is at its front. -/
theorem exists_taken_append (l : EventLoop K) (a : LoopAction K) :
    ∃ rest, l.pm.readyQueue = l.taken a ++ rest := by
  unfold taken
  split
  · exact ⟨l.pm.readyQueue.drop 1, (List.take_append_drop 1 _).symm⟩
  · exact ⟨l.pm.readyQueue, rfl⟩

/-- A step of the loop is its steps of the driver. -/
theorem Follows.step {l : EventLoop K} {d : Driver K} {handled : ℕ} (h : l.Follows d handled)
    (C : Codec K) (a : LoopAction K) :
    (step C l a).Follows ((l.drives handled a).foldl Driver.step d)
      (Op.handledAfter handled (l.ops a)) := by
  obtain ⟨rest, hrest⟩ := l.exists_taken_append a
  unfold Follows at h ⊢
  rw [hrest, List.filterMap_append, ← updateNode_ops] at h
  have hqueue := step_readyQueue C l a
  rw [hrest, List.append_assoc] at hqueue
  rw [step_core, List.append_cancel_left hqueue, List.filterMap_append]
  exact h.run

/-- The loop starts with a driver that has entered view 1. -/
theorem follows_start (id : ReplicaID) (elector : RoundRobinLeaderElector) (machine : Machine K)
    (signaturer : DefaultSignaturer K) (db : Database) :
    (start (.new id elector machine signaturer) db).Follows
      (Driver.step ⟨machine, []⟩ (.increaseView 1)) 0 := by
  have hmirrors : (Pacemaker.new id elector machine signaturer).core.Mirrors ⟨machine, []⟩ 0 [] :=
    ⟨.refl machine, le_refl 0, rfl⟩
  exact (hmirrors.increaseView 1 1).onStorage fun s => s.alike_cleanNewViewSet 1

end EventLoop

end HotstuffConsensus
