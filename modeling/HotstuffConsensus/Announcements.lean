import HotstuffConsensus.Outbox
import HotstuffConsensus.ViewAgreement
import HotstuffConsensus.ViewProgress

/-!
# What a replica says about its view

A replica tells the leader of a view that it enters it, by a `NewView` message, and tells everyone
that it leaves a view, by a `Timeout` message. Nothing else is sent from `goto_new_view` and
`process_local_timeout`, so the two kinds of messages spell out its views: the views it entered, in
order, are those it left and the one it is in (`views_announced`).

The certificates in the `Timeout` messages of others are never counted. Only `recover` puts any
into `tc_map`, and a replica over a fresh storage therefore never changes its view because of its
peers' timeouts (`peer_timeouts_ignored`).
-/

namespace HotstuffConsensus

open Lib

variable {K : Crypto}

namespace PeerEvent

/-- The view that a `NewView` message announces. -/
def enteredView : PeerEvent K → Option ViewNumber
  | .newView ctx _ => some ctx.view
  | _ => none

/-- The view that a `Timeout` message gives up. -/
def leftView : PeerEvent K → Option ViewNumber
  | .timeout ctx _ => some ctx.view
  | _ => none

end PeerEvent

/-- The operation is `goto_new_view(0)`: the view that timed out was the greatest there is. -/
def Op.wraps : Op K → Bool
  | .goto view => view == 0
  | _ => false

/-- Of the messages `es` of some operations, `NewView` and `Timeout` say how the view changed. -/
inductive Announces (ops : List (Op K)) (es : List (PeerEvent K)) (view : ViewNumber) :
    ViewNumber → Prop
  | stays (hentered : es.filterMap PeerEvent.enteredView = [])
      (hleft : es.filterMap PeerEvent.leftView = []) : Announces ops es view view
  | moves (timeoutView : ViewNumber) (hle : view ≤ timeoutView)
      (hop : Op.goto (timeoutView + 1) ∈ ops)
      (hentered : es.filterMap PeerEvent.enteredView = [max view (timeoutView + 1)])
      (hleft : es.filterMap PeerEvent.leftView = [view]) :
      Announces ops es view (max view (timeoutView + 1))

namespace Announces

variable {ops ops' : List (Op K)} {es : List (PeerEvent K)} {view view' : ViewNumber}

theorem mono (h : Announces ops es view view') (hsub : ops ⊆ ops') :
    Announces ops' es view view' := by
  cases h with
  | stays hentered hleft => exact .stays hentered hleft
  | moves timeoutView hle hop hentered hleft =>
    exact .moves timeoutView hle (hsub hop) hentered hleft

/-- Messages that say nothing about a view may come before. -/
theorem cons (h : Announces ops es view view') {e : PeerEvent K} (hentered : e.enteredView = none)
    (hleft : e.leftView = none) : Announces ops (e :: es) view view' := by
  cases h with
  | stays he hl =>
    refine .stays ?_ ?_
    · rw [List.filterMap_cons_none hentered, he]
    · rw [List.filterMap_cons_none hleft, hl]
  | moves timeoutView hle hop he hl =>
    refine .moves timeoutView hle hop ?_ ?_
    · rw [List.filterMap_cons_none hentered, he]
    · rw [List.filterMap_cons_none hleft, hl]

end Announces

namespace Pacemaker

theorem emittedOnCheck_silent (o : Oracle K) (pm : Pacemaker K) (leafHeight : ViewNumber) :
    (pm.emittedOnCheck o leafHeight).filterMap PeerEvent.enteredView = [] ∧
      (pm.emittedOnCheck o leafHeight).filterMap PeerEvent.leftView = [] := by
  unfold emittedOnCheck
  split
  · split
    · exact ⟨rfl, rfl⟩
    · split <;> exact ⟨rfl, rfl⟩
  · exact ⟨rfl, rfl⟩

theorem announces_onCheck (ops : List (Op K)) (o : Oracle K) (pm : Pacemaker K)
    (leafHeight : ViewNumber) :
    Announces ops (pm.emittedOnCheck o leafHeight) pm.view
      (pm.checkPendingProp o leafHeight).view := by
  rw [checkPendingProp_view]
  exact .stays (pm.emittedOnCheck_silent o leafHeight).1 (pm.emittedOnCheck_silent o leafHeight).2

theorem announces_onTimeout (o : Oracle K) (pm : Pacemaker K) (timeoutView : ViewNumber) :
    Announces (pm.opsOnTimeout o timeoutView) (pm.emittedOnTimeout o timeoutView) pm.view
      (pm.processLocalTimeout o timeoutView).view := by
  rw [processLocalTimeout_view]
  unfold opsOnTimeout emittedOnTimeout
  by_cases hle : pm.view ≤ timeoutView
  · have hcheck := { pm with view := max pm.view (timeoutView + 1),
                             syncState := .idle }.emittedOnCheck_silent o
      pm.machine.storage.state.leaf.height
    rw [if_pos hle, if_pos hle, if_pos hle]
    refine .moves timeoutView hle ?_ ?_ ?_
    · exact List.mem_append_left _ (List.mem_cons_of_mem _ List.mem_cons_self)
    · rw [List.filterMap_append]
      cases pm.syncState with
      | synchronizing => rw [hcheck.1]; rfl
      | idle => rfl
    · rw [List.filterMap_append]
      cases pm.syncState with
      | synchronizing => rw [hcheck.2]; rfl
      | idle => rfl
  · rw [if_neg hle, if_neg hle, if_neg hle]
    exact .stays rfl rfl

theorem announces_onNetwork (o : Oracle K) (pm : Pacemaker K) (e : PeerEvent K) :
    Announces (pm.opsOnNetwork o e) (pm.emittedOnNetwork o e) pm.view
      (pm.processNetworkEvent o e).view := by
  match e with
  | .ping ctx cont => exact .stays rfl rfl
  | .newProposal ctx prop =>
    exact announces_onCheck _ o
      { pm with pendingProp := pm.pendingProp ++
          [SafetyEventWrapper.new prop.justify.view (.recvProposal ctx prop)] } _
  | .acceptProposal ctx prop (some sign) =>
    show Announces _ [] pm.view (pm.emitSafetyEvent _).view
    rw [emitSafetyEvent_view]
    exact .stays rfl rfl
  | .acceptProposal ctx prop none => exact .stays rfl rfl
  | .newView ctx qcHigh =>
    show Announces _ [] pm.view (emitSafetyEvent _ _).view
    rw [emitSafetyEvent_view]
    exact .stays rfl rfl
  | .timeout ctx tc =>
    have htimeout := announces_onTimeout o (pm.onStorage fun s => (s.appendTc tc).1)
      (pm.machine.storage.appendTc tc).2
    rw [emittedOnTimeout_appendTc] at htimeout
    unfold processNetworkEvent opsOnNetwork emittedOnNetwork
    dsimp only
    by_cases hlt : pm.view < (pm.machine.storage.appendTc tc).2
    · rw [if_pos (show (pm.onStorage fun s => (s.appendTc tc).1).view
        < (pm.machine.storage.appendTc tc).2 from hlt), if_pos hlt, if_pos hlt]
      exact htimeout.mono (List.subset_cons_self _ _)
    · rw [if_neg (show ¬ (pm.onStorage fun s => (s.appendTc tc).1).view
        < (pm.machine.storage.appendTc tc).2 from hlt), if_neg hlt, if_neg hlt]
      exact .stays rfl rfl
  | .branchSyncRequest ctx strategy => exact .stays rfl rfl
  | .branchSyncResponse ctx strategy (some branch) .success =>
    show Announces _ [] pm.view (pm.emitSafetyEvent _).view
    rw [emitSafetyEvent_view]
    exact .stays rfl rfl
  | .branchSyncResponse ctx strategy none status => exact .stays rfl rfl
  | .branchSyncResponse ctx strategy (some branch) .proposalNonExists => exact .stays rfl rfl

theorem announces_onReady (o : Oracle K) (pm : Pacemaker K) (r : Ready K) :
    Announces (pm.opsOnReady o r) (pm.emittedOnReady o r) pm.view
      (pm.processReadyEvent o r).view := by
  match r with
  | .nil => exact .stays rfl rfl
  | .internalState ctx ss => exact .stays rfl rfl
  | .commitState ctx node => exact .stays rfl rfl
  | .newProposal ctx prop => exact .stays rfl rfl
  | .updateQCHigh ctx node => exact .stays rfl rfl
  | .signature ctx prop sign =>
    unfold processReadyEvent opsOnReady emittedOnReady
    dsimp only
    by_cases hto : pm.toOther ctx = true
    · rw [if_pos (show (pm.emitPeerEvent _).toOther ctx = true from hto), if_pos hto, if_pos hto]
      exact (announces_onTimeout o (pm.emitPeerEvent (.acceptProposal ctx prop (some sign)))
        prop.height).cons rfl rfl
    · rw [if_neg (show ¬ (pm.emitPeerEvent _).toOther ctx = true from hto), if_neg hto, if_neg hto]
      exact .stays rfl rfl
  | .branchSyncDone leaf =>
    unfold processReadyEvent opsOnReady emittedOnReady
    cases pm.syncState with
    | synchronizing => exact announces_onCheck _ o { pm with syncState := .idle } leaf.height
    | idle => exact .stays rfl rfl
  | .proposalReachConsensus propView => exact announces_onTimeout o pm propView

end Pacemaker

namespace EventLoop

theorem announces_step (C : Codec K) (l : EventLoop K) (a : LoopAction K) :
    Announces (l.ops a) (l.emitted a) l.pm.view (step C l a).pm.view := by
  obtain ⟨pm, db, phase⟩ := l
  cases a with
  | flusher =>
    have hframe : (flusherStep C ⟨pm, db, phase⟩).pm.view = pm.view := by
      unfold flusherStep
      split <;> rfl
    cases phase <;> exact hframe.symm ▸ .stays rfl rfl
  | fetch cmds =>
    cases phase with
    | top =>
      cases cmds with
      | none => exact .stays rfl rfl
      | some cmds =>
        have hview : (propose (pm.onStorage fun s => s.touchNewViewSet pm.view) cmds).view =
            pm.view := by
          unfold propose Pacemaker.makeNewProposal
          dsimp only
          split
          · split <;> rfl
          · split <;> rfl
        show Announces _ [] pm.view (propose _ cmds).view
        rw [hview]
        exact .stays rfl rfl
    | _ => cases cmds <;> exact .stays rfl rfl
  | tick => cases phase <;> exact .stays rfl rfl
  | quit => cases phase <;> exact .stays rfl rfl
  | network o e =>
    cases phase with
    | select => exact pm.announces_onNetwork o e
    | _ => exact .stays rfl rfl
  | timeout o view =>
    cases phase with
    | select => exact pm.announces_onTimeout o view
    | _ => exact .stays rfl rfl
  | ready o =>
    cases phase with
    | drain =>
      unfold step ops emitted
      cases pm.readyQueue with
      | nil => exact .stays rfl rfl
      | cons r rest => exact { pm with readyQueue := rest }.announces_onReady o r
    | _ => exact .stays rfl rfl
  | finish => cases phase <;> exact .stays rfl rfl

/-- The views for which a `NewView` message was sent. -/
def enteredViews (l : EventLoop K) : List ViewNumber :=
  l.pm.outbox.filterMap PeerEvent.enteredView

/-- The views for which a `Timeout` message was sent. -/
def leftViews (l : EventLoop K) : List ViewNumber := l.pm.outbox.filterMap PeerEvent.leftView

/-- The step has no timeout of the greatest view. -/
def NoWrap (l : EventLoop K) (a : LoopAction K) : Prop := ∀ op ∈ l.ops a, op.wraps = false

instance (l : EventLoop K) (a : LoopAction K) : Decidable (l.NoWrap a) :=
  inferInstanceAs (Decidable (∀ op ∈ l.ops a, op.wraps = false))

end EventLoop

/-- The entered views are those left and the current one, and each is in relation `R` to those
after it; `R` is `≤`, or `<` where no view overflows. -/
structure Announced (R : ViewNumber → ViewNumber → Prop) (entered left : List ViewNumber)
    (view : ViewNumber) : Prop where
  entered_eq : entered = left ++ [view]
  increasing : entered.Pairwise R

theorem Announced.append {R : ViewNumber → ViewNumber → Prop} [IsTrans ViewNumber R]
    {entered left : List ViewNumber} {view view' : ViewNumber} (h : Announced R entered left view)
    (hR : R view view') : Announced R (entered ++ [view']) (left ++ [view]) view' := by
  refine ⟨by rw [h.entered_eq], ?_⟩
  rw [List.pairwise_append]
  refine ⟨h.increasing, List.pairwise_singleton _ _, ?_⟩
  intro v hv w hw
  rw [List.mem_singleton.mp hw]
  have hinc := h.increasing
  rw [h.entered_eq] at hv hinc
  rcases List.mem_append.mp hv with hv | hv
  · exact IsTrans.trans _ _ _ ((List.pairwise_append.mp hinc).2.2 v hv view List.mem_cons_self) hR
  · rw [List.mem_singleton.mp hv]
    exact hR

namespace EventLoop

/-- What the loop has announced. -/
def Announced (R : ViewNumber → ViewNumber → Prop) (l : EventLoop K) : Prop :=
  HotstuffConsensus.Announced R l.enteredViews l.leftViews l.pm.view

theorem Announced.step {R : ViewNumber → ViewNumber → Prop} [IsTrans ViewNumber R]
    {l : EventLoop K} (h : l.Announced R) (C : Codec K) {a : LoopAction K}
    (hR : ∀ timeoutView, l.pm.view ≤ timeoutView → Op.goto (timeoutView + 1) ∈ l.ops a →
      R l.pm.view (max l.pm.view (timeoutView + 1))) : (step C l a).Announced R := by
  have hann := announces_step C l a
  unfold Announced enteredViews leftViews at h ⊢
  rw [step_outbox, List.filterMap_append, List.filterMap_append]
  generalize (EventLoop.step C l a).pm.view = view' at hann
  cases hann with
  | stays hentered hleft =>
    rw [hentered, hleft, List.append_nil, List.append_nil]
    exact h
  | moves timeoutView hle hop hentered hleft =>
    rw [hentered, hleft]
    exact h.append (hR timeoutView hle hop)

theorem announced_start (R : ViewNumber → ViewNumber → Prop) (id : ReplicaID)
    (elector : RoundRobinLeaderElector) (machine : Machine K) (signaturer : DefaultSignaturer K)
    (db : Database) : (start (.new id elector machine signaturer) db).Announced R :=
  ⟨rfl, List.pairwise_singleton _ _⟩

/-- The views for which a replica has sent a `NewView` message, in the order in which it sent
them, are those for which it has sent a `Timeout` message and then the view it is in. They never
decrease, and no view comes twice unless a timeout of the greatest view was taken. -/
theorem views_announced (C : Codec K) (id : ReplicaID) (elector : RoundRobinLeaderElector)
    (machine : Machine K) (signaturer : DefaultSignaturer K) (db : Database)
    (as : List (LoopAction K)) :
    (as.foldl (step C) (start (.new id elector machine signaturer) db)).Announced (· ≤ ·) ∧
      (Run.Each (step C) NoWrap (start (.new id elector machine signaturer) db) as →
        (as.foldl (step C) (start (.new id elector machine signaturer) db)).Announced (· < ·)) := by
  constructor
  · exact Run.foldl_of_kept (announced_start _ id elector machine signaturer db)
      (fun l a h => h.step C fun _ _ _ => le_max_left _ _) as
  · intro hwrap
    refine Run.foldl_of_invariant (announced_start _ id elector machine signaturer db) hwrap ?_
    intro l a h ha
    refine h.step C fun timeoutView hle hop => ?_
    have hne : timeoutView ≠ U64.maxValue := by
      intro hmax
      rw [hmax] at hop
      have hzero : (U64.maxValue + 1 == 0) = false := ha _ hop
      exact absurd hzero (by decide)
    exact lt_max_of_lt_right (lt_of_le_of_lt hle (U64.lt_add_one hne))

end EventLoop

namespace Symbolic

open EventLoop

/-- Views 1 and 2 time out. -/
def twoTimeouts : List (LoopAction symbolic) :=
  round (.timeout oracle 1) 0 ++ round (.timeout oracle 2) 0

theorem views_announced_on_twoTimeouts :
    (twoTimeouts.foldl (step codec) loop₀).enteredViews = [1, 2, 3] ∧
      (twoTimeouts.foldl (step codec) loop₀).leftViews = [1, 2] ∧
      (twoTimeouts.foldl (step codec) loop₀).Announced (· < ·) :=
  ⟨by decide +kernel, by decide +kernel,
    (views_announced codec (replicaId 0)
      ⟨["replica-0", "replica-1", "replica-2", "replica-3"]⟩ (fresh 4 0) (signaturer 4 0)
      createTables twoTimeouts).2 (by decide +kernel)⟩

end Symbolic

/-! ## The timeouts of others -/

namespace HotstuffStorage

theorem compressTc_of_empty {s : HotstuffStorage K} (h : s.tcMap = ∅) :
    s.compressTc = (s, none) := by
  have hkeys : (s.tcMap.keys.filter fun v =>
      s.conf.threshold ≤ ((s.tcMap.lookup v).map HashMap.size).getD 0).max = ⊥ := by
    rw [h]
    rfl
  unfold compressTc
  dsimp only
  rw [hkeys]

/-- With no certificates to count, `append_tc` only queues its own for the flusher, and returns
the view before the current one. -/
theorem appendTc_of_empty {s : HotstuffStorage K} (h : s.tcMap = ∅) (tc : TimeoutCertificate K) :
    (s.appendTc tc).1.tcMap = ∅ ∧ (s.appendTc tc).2 ≤ s.state.currentView := by
  have hle : ∀ v : ViewNumber, (if v = 0 then 0 else v - 1) ≤ v := by
    intro v
    split
    · rename_i hv
      rw [hv]
    · rename_i hv
      have hpos : (1 : ViewNumber) ≤ v := by
        rw [UInt64.le_iff_toNat_le]
        exact Nat.one_le_iff_ne_zero.mpr fun h0 => hv (UInt64.toNat_inj.mp h0)
      rw [UInt64.le_iff_toNat_le, UInt64.toNat_sub_of_le _ _ hpos]
      exact Nat.sub_le _ _
  unfold appendTc
  cases tc.viewSign with
  | part kit =>
    have hnone := compressTc_of_empty
      (s := { s with partialTcQueue := s.partialTcQueue ++ [tc] }.setDirty) h
    dsimp only
    rw [hnone]
    exact ⟨h, hle _⟩
  | combined sign =>
    have hnone := compressTc_of_empty
      (s := { s with combinedTcQueue := s.combinedTcQueue ++ [tc] }.setDirty) h
    dsimp only
    rw [hnone]
    exact ⟨h, hle _⟩

theorem asyncFlush_tcMap (s : HotstuffStorage K) : s.asyncFlush.tcMap = s.tcMap := by
  unfold asyncFlush
  split
  · split <;> rfl
  · rfl

theorem takeTask_tcMap (s : HotstuffStorage K) : s.takeTask.tcMap = s.tcMap := by
  unfold takeTask
  split <;> rfl

end HotstuffStorage

/-- There are no certificates to count, and pacemaker and storage are in one view. -/
structure Core.Uncounted (c : Core K) : Prop where
  tcMap : c.machine.storage.tcMap = ∅
  agrees : c.Agrees

theorem Core.Uncounted.apply {c : Core K} (h : c.Uncounted) (op : Op K) :
    (c.apply op).Uncounted := by
  refine ⟨?_, h.agrees.apply op⟩
  cases op with
  | appendTc tc => exact (HotstuffStorage.appendTc_of_empty h.tcMap tc).1
  | flush => exact (HotstuffStorage.asyncFlush_tcMap _).trans h.tcMap
  | flusher => exact (HotstuffStorage.takeTask_tcMap _).trans h.tcMap
  | event e =>
    have hliveness := congrArg (fun x => x.2.2.1) (c.machine.processSafetyEvent_liveness e)
    exact hliveness.trans h.tcMap
  | updateQcHigh node =>
    have hliveness := congrArg (fun x => x.2.2.1)
      (HotstuffStorage.updateQcHigh_liveness c.machine.storage node node.justify)
    exact hliveness.trans h.tcMap
  | _ => exact h.tcMap

theorem FreshStorage.tcMap_eq {s : HotstuffStorage K} (h : FreshStorage s) : s.tcMap = ∅ := by
  cases h <;> rfl

theorem FreshStorage.currentView_eq {s : HotstuffStorage K} (h : FreshStorage s) :
    s.state.currentView = 0 := by
  cases h <;> rfl

namespace EventLoop

/-- The step changes neither the view nor the consensus, and sends nothing. -/
structure Ignores (C : Codec K) (l : EventLoop K) (a : LoopAction K) : Prop where
  view : (step C l a).pm.view = l.pm.view
  outbox : (step C l a).pm.outbox = l.pm.outbox
  machine : l.pm.machine.Alike (step C l a).pm.machine

theorem ignores_timeout {l : EventLoop K} (h : l.core.Uncounted) (C : Codec K) (o : Oracle K)
    (ctx : Context) (tc : TimeoutCertificate K) : l.Ignores C (.network o (.timeout ctx tc)) := by
  obtain ⟨pm, db, phase⟩ := l
  have hview : pm.view = pm.machine.storage.state.currentView := h.agrees
  have hlt : ¬ (pm.onStorage fun s => (s.appendTc tc).1).view
      < (pm.machine.storage.appendTc tc).2 := by
    rw [not_lt]
    exact (HotstuffStorage.appendTc_of_empty h.tcMap tc).2.trans hview.ge
  cases phase with
  | select =>
    have hstep : (step C ⟨pm, db, .select⟩ (.network o (.timeout ctx tc))).pm =
        pm.onStorage fun s => (s.appendTc tc).1 := if_neg hlt
    refine ⟨?_, ?_, ?_⟩
    · rw [hstep]
      rfl
    · rw [hstep]
      rfl
    · rw [hstep]
      exact .onStorage pm.machine (pm.machine.storage.alike_appendTc tc)
  | _ => exact ⟨rfl, rfl, .refl _⟩

/-- The `Timeout` messages of other replicas have no effect on a replica over a fresh storage, at
any time of any run: it neither changes its view nor its consensus state, nor sends anything. -/
theorem peer_timeouts_ignored (C : Codec K) (id : ReplicaID) (elector : RoundRobinLeaderElector)
    (machine : Machine K) (hm : FreshStorage machine.storage) (signaturer : DefaultSignaturer K)
    (db : Database) (as : List (LoopAction K)) :
    Run.Each (step C) (fun l a => ∀ o ctx tc, a = .network o (.timeout ctx tc) → l.Ignores C a)
      (start (.new id elector machine signaturer) db) as := by
  have hstart : (start (.new id elector machine signaturer) db).core.Uncounted := by
    refine ⟨hm.tcMap_eq, ?_⟩
    have hzero : machine.storage.state.currentView ≤ 1 := by
      rw [hm.currentView_eq]
      decide
    exact inStep_iff.mp ((inStep_start_iff id elector machine signaturer db).mpr hzero)
  refine Run.each_of_invariant (I := fun l => l.core.Uncounted) hstart
    (Run.Each.of_forall (fun _ _ => trivial) _ _) ?_ ?_
  · intro l a hl (_ : True)
    rw [step_core]
    exact Run.foldl_of_kept hl (fun _ op hc => hc.apply op) _
  · intro l a hl _ o ctx tc ha
    rw [ha]
    exact ignores_timeout hl C o ctx tc

end EventLoop

namespace Symbolic

open EventLoop

/-- Replicas 1, 2 and 3 have given up view 5. -/
def peerTimeouts : List (LoopAction symbolic) :=
  [1, 2, 3].flatMap fun i => round (.network oracle (.timeout (.broadcast (replicaId i) 5)
    (.new (replicaId i) 5 ⟨(i, beBytes 5), i⟩ (initQc symbolic)))) 0

/-- Replica 0 is still in view 1. -/
theorem peer_timeouts_ignored_in_view_one :
    (peerTimeouts.foldl (step codec) loop₀).pm.view = 1 ∧
      Run.Each (step codec)
        (fun l a => ∀ o ctx tc, a = .network o (.timeout ctx tc) → l.Ignores codec a) loop₀
        peerTimeouts :=
  ⟨by decide +kernel,
    peer_timeouts_ignored codec (replicaId 0)
      ⟨["replica-0", "replica-1", "replica-2", "replica-3"]⟩ (fresh 4 0) (.inMem _ _ _ _)
      (signaturer 4 0) createTables peerTimeouts⟩

end Symbolic

end HotstuffConsensus
