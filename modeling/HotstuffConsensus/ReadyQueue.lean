import HotstuffConsensus.PacemakerCore
import HotstuffConsensus.PendingProposals

/-!
# What is put into the ready queue

The methods of the pacemaker queue nothing of their own. Each result they add was returned by the
machine for an event they handed to it, and the machine is then left as it was after that event.
The one exception is the proposal that is made before an event is awaited.
-/

namespace HotstuffConsensus

variable {K : Crypto}

/-- The safety event a message of a peer becomes, at once or when it is no longer pending. -/
def PeerEvent.safetyEvent : PeerEvent K → Option (SafetyEvent K)
  | .newProposal ctx prop => some (.recvProposal ctx prop)
  | .acceptProposal ctx prop (some sign) => some (.recvSign ctx prop sign)
  | .newView ctx qcHigh => some (.recvNewViewMsg ctx qcHigh)
  | .branchSyncResponse ctx _ (some branch) .success => some (.branchSync ctx branch)
  | _ => none

namespace Pacemaker

/-- The results in the queue of `pm'` that were not yet in that of `pm` are those of an event
of `E`, after which the machine is in its state in `pm'`. -/
def QueuesResults (E : SafetyEvent K → Prop) (pm pm' : Pacemaker K) : Prop :=
  ∀ r ∈ pm'.readyQueue, r ∈ pm.readyQueue ∨
    ∃ (m : Machine K) (se : SafetyEvent K), E se ∧ m.processSafetyEvent se = (pm'.machine, .ok r)

variable {E : SafetyEvent K → Prop}

theorem QueuesResults.of_eq {pm pm' : Pacemaker K} (h : pm'.readyQueue = pm.readyQueue) :
    QueuesResults E pm pm' := by
  intro r hmem
  rw [h] at hmem
  exact Or.inl hmem

theorem emitSafetyEvent_queuesResults (pm : Pacemaker K) {se : SafetyEvent K} (hse : E se) :
    QueuesResults E pm (pm.emitSafetyEvent se) := by
  unfold emitSafetyEvent
  dsimp only
  split
  · exact .of_eq rfl
  · rename_i ready _ hready
    intro r hmem
    rcases List.mem_append.mp hmem with hold | hnew
    · exact Or.inl hold
    · rw [List.mem_singleton.mp hnew]
      exact Or.inr ⟨pm.machine, se, hse, Prod.ext rfl hready⟩
  · exact .of_eq rfl

theorem checkPendingProp_queuesResults (o : Oracle K) (pm : Pacemaker K)
    (hpend : ∀ sw ∈ pm.pendingProp, E sw.se) (leafHeight : ViewNumber) :
    QueuesResults E pm (pm.checkPendingProp o leafHeight) := by
  unfold checkPendingProp
  split
  · rename_i sw rest hpop
    have hsw : E sw.se := hpend sw ((heapPop_spec hpop).1.mem_iff.mpr List.mem_cons_self)
    split
    · exact emitSafetyEvent_queuesResults { pm with pendingProp := rest } hsw
    · dsimp only
      split <;> exact .of_eq rfl
  · exact .of_eq rfl

theorem processLocalTimeout_queuesResults (o : Oracle K) (pm : Pacemaker K)
    (hpend : ∀ sw ∈ pm.pendingProp, E sw.se) (timeoutView : ViewNumber) :
    QueuesResults E pm (pm.processLocalTimeout o timeoutView) := by
  rw [processLocalTimeout_eq]
  split
  · split
    · exact checkPendingProp_queuesResults o
        { pm.timedOut timeoutView with syncState := .idle } hpend _
    · exact .of_eq rfl
  · exact .of_eq rfl

theorem processNetworkEvent_queuesResults (o : Oracle K) (pm : Pacemaker K)
    (hpend : ∀ sw ∈ pm.pendingProp, E sw.se) {e : PeerEvent K} (he : ∀ se ∈ e.safetyEvent, E se) :
    QueuesResults E pm (pm.processNetworkEvent o e) := by
  match e with
  | .ping ctx cont => exact .of_eq rfl
  | .newProposal ctx prop =>
    have hpush : ∀ sw ∈ pm.pendingProp ++
        [SafetyEventWrapper.new prop.justify.view (.recvProposal ctx prop)], E sw.se := by
      intro sw hsw
      rcases List.mem_append.mp hsw with hold | hnew
      · exact hpend sw hold
      · rw [List.mem_singleton.mp hnew]
        exact he _ rfl
    exact checkPendingProp_queuesResults o { pm with pendingProp := pm.pendingProp ++
      [SafetyEventWrapper.new prop.justify.view (.recvProposal ctx prop)] } hpush _
  | .acceptProposal ctx prop (some sign) => exact emitSafetyEvent_queuesResults pm (he _ rfl)
  | .acceptProposal ctx prop none => exact .of_eq rfl
  | .newView ctx qcHigh =>
    exact emitSafetyEvent_queuesResults
      (pm.onStorage fun s => s.insertNewView ctx.view ctx.sender qcHigh) (he _ rfl)
  | .timeout ctx tc =>
    unfold processNetworkEvent
    dsimp only
    split
    · exact processLocalTimeout_queuesResults o
        (pm.onStorage fun s => (s.appendTc tc).1) hpend _
    · exact .of_eq rfl
  | .branchSyncRequest ctx strategy => exact .of_eq rfl
  | .branchSyncResponse ctx strategy (some branch) .success =>
    exact emitSafetyEvent_queuesResults pm (he _ rfl)
  | .branchSyncResponse ctx strategy none status => exact .of_eq rfl
  | .branchSyncResponse ctx strategy (some branch) .proposalNonExists => exact .of_eq rfl

theorem processReadyEvent_queuesResults (o : Oracle K) (pm : Pacemaker K)
    (hpend : ∀ sw ∈ pm.pendingProp, E sw.se) (r : Ready K) :
    QueuesResults E pm (pm.processReadyEvent o r) := by
  rcases pm.processReadyEvent_cases o r with ⟨outbox, hpm, -⟩ | ⟨ctx, node, -, hpm, -⟩ |
    ⟨outbox, timeoutView, hpm, -⟩ | ⟨leafHeight, -, hpm, -⟩
  · rw [hpm]
    exact .of_eq rfl
  · rw [hpm]
    exact .of_eq rfl
  · rw [hpm]
    exact processLocalTimeout_queuesResults o { pm with outbox := outbox } hpend timeoutView
  · rw [hpm]
    exact checkPendingProp_queuesResults o { pm with syncState := .idle } hpend leafHeight

theorem makeNewProposal_readyQueue (pm : Pacemaker K) (cmds : List Txn) :
    (pm.makeNewProposal cmds).1.readyQueue = pm.readyQueue ∧
      ∀ r, (pm.makeNewProposal cmds).2 = some r → ∃ ctx p, r = .newProposal ctx p := by
  unfold makeNewProposal
  dsimp only
  split
  · exact ⟨rfl, fun r h => nomatch h⟩
  · exact ⟨rfl, fun r h => ⟨_, _, (Option.some.inj h).symm⟩⟩

end Pacemaker

namespace EventLoop

theorem propose_readyQueue (pm : Pacemaker K) (cmds : List Txn) {r : Ready K}
    (h : r ∈ (propose pm cmds).readyQueue) :
    r ∈ pm.readyQueue ∨ ∃ ctx p, r = .newProposal ctx p := by
  obtain ⟨hqueue, hnew⟩ := pm.makeNewProposal_readyQueue cmds
  unfold propose at h
  dsimp only at h
  split at h
  · rename_i ready hready
    rcases List.mem_append.mp h with hold | hlast
    · rw [hqueue] at hold
      exact Or.inl hold
    · rw [List.mem_singleton.mp hlast]
      exact Or.inr (hnew ready hready)
  · rw [hqueue] at h
    exact Or.inl h

end EventLoop

end HotstuffConsensus
