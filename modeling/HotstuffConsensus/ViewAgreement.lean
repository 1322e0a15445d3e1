import HotstuffConsensus.PacemakerCore
import HotstuffConsensus.CommitRule
import HotstuffConsensus.LiteralScheme

/-!
# The two copies of the view

The pacemaker counts `NewView` messages in its own view, and a proposal gets the view of the
storage for its height. `update_pm_status` moves both, and nothing else moves either, so they
agree in all states or in none: `Pacemaker::new` starts from view 0 whatever the storage says,
and `goto_new_view(1)` brings them together only when the storage is not ahead.
-/

namespace HotstuffConsensus

open Lib

variable {K : Crypto}

/-- The pacemaker and the storage are in the same view. -/
def Core.Agrees (c : Core K) : Prop := c.view = c.storage.state.currentView

theorem Core.Agrees.apply {c : Core K} (h : c.Agrees) (op : Op K) : (c.apply op).Agrees := by
  unfold Agrees storage at h
  cases op with
  | goto view =>
    show max c.view view = max c.machine.storage.state.currentView (max c.view view)
    rw [← h]
    exact (max_eq_right (le_max_left _ _)).symm
  | increaseView =>
    show c.view = max c.machine.storage.state.currentView c.view
    rw [← h, max_self]
  | touch => exact h
  | clean => exact h
  | newView view sender qc => exact h
  | appendTc tc =>
    show c.view = (c.machine.storage.appendTc tc).1.state.currentView
    rw [HotstuffStorage.appendTc_state]
    exact h
  | flush =>
    show c.view = c.machine.storage.asyncFlush.state.currentView
    rw [(HotstuffStorage.asyncFlush_frame _).1]
    exact h
  | flusher =>
    show c.view = c.machine.storage.takeTask.state.currentView
    rw [(HotstuffStorage.takeTask_frame _).1]
    exact h
  | event e => exact h.trans (c.machine.processSafetyEvent_currentView e).symm
  | updateQcHigh node =>
    exact h.trans (HotstuffStorage.updateQcHigh_currentView _ _ _).symm

/-- A proposal is made with a quorum of `NewView` messages for the pacemaker's view, and with
the storage's view for its height. -/
theorem Pacemaker.makeNewProposal_eq {pm : Pacemaker K} {cmds : List Txn} {ctx : Context}
    {prop : TreeNode K} (h : (pm.makeNewProposal cmds).2 = some (.newProposal ctx prop)) :
    pm.hasQuorum ∧ prop.height = pm.machine.storage.state.currentView := by
  unfold makeNewProposal at h
  dsimp only at h
  split at h
  · cases h
  · rename_i hlt
    refine ⟨not_le.mp hlt, ?_⟩
    cases h
    rfl

namespace EventLoop

/-- Pacemaker and storage are in one view, and what `make_new_proposal` would make now gets the
height of the view whose quorum allows it. -/
structure InStep (l : EventLoop K) : Prop where
  view : l.pm.view = l.pm.machine.storage.state.currentView
  height : ∀ cmds ctx prop, (l.pm.makeNewProposal cmds).2 = some (.newProposal ctx prop) →
    l.pm.hasQuorum ∧ prop.height = l.pm.view

theorem inStep_iff {l : EventLoop K} : l.InStep ↔ l.core.Agrees := by
  constructor
  · intro h
    exact h.view
  · intro h
    refine ⟨h, ?_⟩
    intro cmds ctx prop hmake
    obtain ⟨hquorum, hheight⟩ := Pacemaker.makeNewProposal_eq hmake
    exact ⟨hquorum, hheight.trans h.symm⟩

theorem InStep.step {l : EventLoop K} (h : l.InStep) (C : Codec K) (a : LoopAction K) :
    (step C l a).InStep := by
  rw [inStep_iff] at h ⊢
  rw [step_core]
  exact Run.foldl_of_kept h (fun _ op hc => hc.apply op) _

theorem inStep_start_iff (id : ReplicaID) (elector : RoundRobinLeaderElector)
    (machine : Machine K) (signaturer : DefaultSignaturer K) (db : Database) :
    (start (.new id elector machine signaturer) db).InStep ↔
      machine.storage.state.currentView ≤ 1 := by
  rw [inStep_iff]
  show max 0 1 = max machine.storage.state.currentView (max 0 1) ↔ _
  rw [show (max 0 1 : ViewNumber) = 1 from by decide, eq_comm, max_eq_right_iff]

/-- A pacemaker agrees with its storage on the view, after the start and after every step,
exactly when the storage it is built on is not beyond view 1. -/
theorem views_agree_iff (C : Codec K) (id : ReplicaID) (elector : RoundRobinLeaderElector)
    (machine : Machine K) (signaturer : DefaultSignaturer K) (db : Database)
    (as : List (LoopAction K)) :
    ((start (.new id elector machine signaturer) db).InStep ∧
      Run.Each (step C) (fun l a => (step C l a).InStep)
        (start (.new id elector machine signaturer) db) as) ↔
      machine.storage.state.currentView ≤ 1 := by
  rw [inStep_start_iff]
  refine and_iff_left_of_imp ?_
  intro hview
  have hstart := (inStep_start_iff id elector machine signaturer db).mpr hview
  exact Run.each_of_invariant hstart (Run.Each.of_forall (fun _ _ => trivial) _ _)
    (fun l a hl (_ : True) => hl.step C a) (fun l a hl _ => hl.step C a)

end EventLoop

namespace Literal

open EventLoop

/-- The replica enters view 2. -/
def viewOps : List (StorageOp literal) := [.increaseView 2]

/-- A pacemaker over the storage `s`. -/
def pacemakerOn (s : HotstuffStorage literal) : Pacemaker literal :=
  .new conf.replicaId ⟨["replica-0", "replica-1", "replica-2", "replica-3"]⟩
    (.new (.new ((conf.total <<< 1) / 3) signaturer) conf.replicaId conf.total none s) signaturer

/-- A replica that restarts after it was in view 2 counts in view 1 and proposes in view 2. -/
theorem views_differ_after_restart :
    ∃ s s', Persisted codec conf.token db₀ s (dbAfter viewOps) [(after viewOps).dirtyData] ∧
      (dbAfter viewOps).IsOrderedJoin [] ∧
      HotstuffStorage.recover codec (dbAfter viewOps) conf.token [] = some s' ∧
      ¬ (start (pacemakerOn s') (dbAfter viewOps)).InStep := by
  obtain ⟨s, hs, -, -, -⟩ := persisted_once viewOps (by decide +kernel)
  have hview : (HotstuffStorage.recover codec (dbAfter viewOps) conf.token []).map
      (fun s' => s'.state.currentView) = some 2 := by decide +kernel
  obtain ⟨s', hs', hcurrent⟩ := Option.map_eq_some_iff.mp hview
  refine ⟨s, s', hs, ⟨by decide +kernel, List.Pairwise.nil⟩, hs', ?_⟩
  unfold pacemakerOn
  rw [inStep_start_iff]
  show ¬ s'.state.currentView ≤ 1
  rw [hcurrent]
  decide

end Literal

end HotstuffConsensus
