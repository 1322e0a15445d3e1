import HotstuffConsensus.Follower
import HotstuffConsensus.LeaderRounds
import HotstuffConsensus.Outbox

/-!
# The other loop of the pacemaker (`Pacemaker::run`)

`run` is `event_loop_with_functions` without its hooks. It has no transactions to fetch, so that
`make_new_proposal` is never called, and it drains the ready queue only when the interval ticks,
after the flush: a vote waits for the next tick (`run_votes_on_ticks`).

Replicas that all execute `run`, and receive what they send each other, therefore never get
anything to vote for. They change their views, and stay at the genesis block
(`run_network_idle`).
-/

namespace HotstuffConsensus

open Lib

variable {K : Crypto}

/-! ## The loop -/

namespace RunLoop

def start (pm : Pacemaker K) (db : Database) : EventLoop K := ⟨pm.gotoNewView 1, db, .select⟩

/-- A step of `run`; `top` is no phase of it. -/
def step (C : Codec K) (l : EventLoop K) (a : LoopAction K) : EventLoop K :=
  match l.phase, a with
  | .select, .tick =>
    { l with pm := l.pm.onStorage HotstuffStorage.asyncFlush, phase := .drain }
  -- the loop is left at once, and what is queued is not drained any more
  | .select, .quit => { l with pm := l.pm.onStorage HotstuffStorage.asyncFlush, phase := .down }
  | .select, .network o e => { l with pm := l.pm.processNetworkEvent o e }
  | .select, .timeout o view => { l with pm := l.pm.processLocalTimeout o view }
  | .drain, .ready o =>
    match l.pm.readyQueue with
    | [] => { l with phase := .select }
    | ready :: rest => { l with pm := { l.pm with readyQueue := rest }.processReadyEvent o ready }
  | _, .flusher => l.flusherStep C
  | _, _ => l

/-- What a step does to the pacemaker. -/
inductive Acts (l : EventLoop K) : LoopAction K → Pacemaker K → Phase → Prop
  | stays (a : LoopAction K) : Acts l a l.pm l.phase
  | flushes (a : LoopAction K) (phase : Phase) (hphase : l.phase = .select)
      (htick : phase = .drain → a = .tick) :
      Acts l a (l.pm.onStorage HotstuffStorage.asyncFlush) phase
  | network (o : Oracle K) (e : PeerEvent K) (hphase : l.phase = .select) :
      Acts l (.network o e) (l.pm.processNetworkEvent o e) .select
  | timeout (o : Oracle K) (view : ViewNumber) (hphase : l.phase = .select) :
      Acts l (.timeout o view) (l.pm.processLocalTimeout o view) .select
  | drained (o : Oracle K) (hphase : l.phase = .drain) (hq : l.pm.readyQueue = []) :
      Acts l (.ready o) l.pm .select
  | ready (o : Oracle K) (r : Ready K) (rest : List (Ready K)) (hphase : l.phase = .drain)
      (hq : l.pm.readyQueue = r :: rest) :
      Acts l (.ready o) ({ l.pm with readyQueue := rest }.processReadyEvent o r) .drain
  | flusher : Acts l .flusher (l.pm.onStorage HotstuffStorage.takeTask) l.phase

theorem flusherStep_pm (C : Codec K) (l : EventLoop K) :
    (l.flusherStep C).pm = l.pm.onStorage HotstuffStorage.takeTask := by
  unfold EventLoop.flusherStep HotstuffStorage.takeTask Pacemaker.onStorage
  dsimp only
  cases l.pm.machine.storage.backend with
  | none => rfl
  | some backend =>
    obtain ⟨channel, receiving⟩ := backend
    cases channel <;> rfl

theorem step_acts (C : Codec K) (l : EventLoop K) (a : LoopAction K) :
    Acts l a (step C l a).pm (step C l a).phase := by
  obtain ⟨pm, db, phase⟩ := l
  cases a with
  | flusher =>
    have hstep : step C ⟨pm, db, phase⟩ .flusher = EventLoop.flusherStep C ⟨pm, db, phase⟩ := by
      cases phase <;> rfl
    rw [hstep, flusherStep_pm, (EventLoop.flusherStep_frame C _).1]
    exact .flusher
  | tick =>
    cases phase with
    | select => exact .flushes .tick .drain rfl fun _ => rfl
    | _ => exact .stays _
  | quit =>
    cases phase with
    | select => exact .flushes .quit .down rfl fun h => nomatch h
    | _ => exact .stays _
  | network o e =>
    cases phase with
    | select => exact .network o e rfl
    | _ => exact .stays _
  | timeout o view =>
    cases phase with
    | select => exact .timeout o view rfl
    | _ => exact .stays _
  | ready o =>
    cases phase with
    | drain =>
      unfold step
      dsimp only
      cases hq : pm.readyQueue with
      | nil => exact .drained o rfl hq
      | cons r rest => exact .ready o r rest rfl hq
    | _ => exact .stays _
  | fetch cmds => cases phase <;> exact .stays _
  | finish => cases phase <;> exact .stays _

end RunLoop

/-! ## Proposals and votes -/

/-- Only a beat makes a proposal. -/
theorem Machine.newTx_of_newProposal {m m' : Machine K} {se : SafetyEvent K} {ctx : Context}
    {p : TreeNode K} (h : m.processSafetyEvent se = (m', .ok (.newProposal ctx p))) :
    ∃ cmds, se = .newTx cmds := by
  have hres := congrArg Prod.snd h
  cases se with
  | newTx cmds => exact ⟨cmds, rfl⟩
  | recvProposal ctx' prop =>
    change (m.onRecvProposal ctx' prop prop.justify).2 = _ at hres
    rw [onRecvProposal_eq] at hres
    cases hv : m.verifyProposal prop.justify with
    | error e =>
      rw [hv] at hres
      cases hres
    | ok r =>
      rw [hv] at hres
      dsimp only at hres
      cases ha : m.accepts prop <;> rw [ha] at hres <;> cases hres
  | recvSign ctx' node sign =>
    change (m.onRecvVote ctx' node sign).2 = _ at hres
    rcases m.onRecvVote_output ctx' node sign with ⟨e, he⟩ | he | ⟨v, he⟩ <;>
      rw [he] at hres <;> cases hres
  | newLeader ctx' leader =>
    unfold processSafetyEvent at hres
    dsimp only at hres
    split at hres <;> cases hres
  | _ => cases hres

namespace Pacemaker

theorem emittedOnCheck_proposal (o : Oracle K) (pm : Pacemaker K) (leafHeight : ViewNumber) :
    (pm.emittedOnCheck o leafHeight).filterMap PeerEvent.proposal = [] := by
  unfold emittedOnCheck
  split
  · split
    · rfl
    · split <;> rfl
  · rfl

theorem emittedOnTimeout_proposal (o : Oracle K) (pm : Pacemaker K) (timeoutView : ViewNumber) :
    (pm.emittedOnTimeout o timeoutView).filterMap PeerEvent.proposal = [] := by
  unfold emittedOnTimeout
  split
  · dsimp only
    rw [List.filterMap_append]
    split
    · rw [emittedOnCheck_proposal]
      rfl
    · rfl
  · rfl

theorem emittedOnNetwork_proposal (o : Oracle K) (pm : Pacemaker K) (e : PeerEvent K) :
    (pm.emittedOnNetwork o e).filterMap PeerEvent.proposal = [] := by
  unfold emittedOnNetwork
  split
  · exact emittedOnCheck_proposal _ _ _
  · dsimp only
    split
    · exact pm.emittedOnTimeout_proposal o _
    · rfl
  · rfl
  · rfl

theorem emittedOnReady_proposal (o : Oracle K) (pm : Pacemaker K) {r : Ready K}
    (hr : ∀ ctx p, r ≠ .newProposal ctx p) :
    (pm.emittedOnReady o r).filterMap PeerEvent.proposal = [] := by
  unfold emittedOnReady
  split
  · exact absurd rfl (hr _ _)
  · rw [List.filterMap_cons_none rfl]
    split
    · exact pm.emittedOnTimeout_proposal o _
    · rfl
  · split
    · exact emittedOnCheck_proposal _ _ _
    · rfl
  · exact pm.emittedOnTimeout_proposal o _
  · rfl

end Pacemaker

namespace RunLoop

/-- No proposal was made, and none will be. -/
structure Modest (pm : Pacemaker K) : Prop where
  pends : pm.PendsProposals
  queue : ∀ r ∈ pm.readyQueue, ∀ ctx p, r ≠ .newProposal ctx p
  sent : pm.sentProposals = []

variable {pm pm' : Pacemaker K}

/-- The steps of `run` hand no transactions to the machine. -/
theorem Modest.of_queuesResults (h : Modest pm) (hpends : pm'.PendsProposals)
    (hqueue : Pacemaker.QueuesResults (fun se => ∀ cmds, se ≠ .newTx cmds) pm pm')
    {es : List (PeerEvent K)} (hout : pm'.outbox = pm.outbox ++ es)
    (hes : es.filterMap PeerEvent.proposal = []) : Modest pm' := by
  refine ⟨hpends, ?_, ?_⟩
  · rintro r hr ctx p rfl
    rcases hqueue _ hr with hold | ⟨m, se, hse, hres⟩
    · exact h.queue _ hold ctx p rfl
    · obtain ⟨cmds, hcmds⟩ := Machine.newTx_of_newProposal hres
      exact hse cmds hcmds
  · unfold Pacemaker.sentProposals
    rw [hout, List.filterMap_append, hes, List.append_nil]
    exact h.sent

theorem Modest.pends_ne (h : Modest pm) :
    ∀ sw ∈ pm.pendingProp, ∀ cmds, sw.se ≠ .newTx cmds := by
  intro sw hsw cmds
  obtain ⟨e, rfl⟩ := h.pends sw hsw
  exact fun h => nomatch h

theorem safetyEvent_ne (e : PeerEvent K) : ∀ se ∈ e.safetyEvent, ∀ cmds, se ≠ .newTx cmds := by
  rintro se hse cmds rfl
  unfold PeerEvent.safetyEvent at hse
  split at hse <;> cases hse

theorem Modest.step {l : EventLoop K} (h : Modest l.pm) (C : Codec K) (a : LoopAction K) :
    Modest (step C l a).pm := by
  have hacts := step_acts C l a
  generalize (RunLoop.step C l a).pm = pm', (RunLoop.step C l a).phase = phase' at hacts
  cases hacts with
  | stays => exact h
  | flushes _ _ hphase htick => exact ⟨h.pends, h.queue, h.sent⟩
  | network o e hphase =>
    exact h.of_queuesResults (h.pends.processNetworkEvent o e)
      (l.pm.processNetworkEvent_queuesResults o h.pends_ne (safetyEvent_ne e))
      (l.pm.processNetworkEvent_outbox o e) (l.pm.emittedOnNetwork_proposal o e)
  | timeout o view hphase =>
    exact h.of_queuesResults
      (fun sw hsw => h.pends sw (l.pm.processLocalTimeout_subset o view hsw))
      (l.pm.processLocalTimeout_queuesResults o h.pends_ne view)
      (l.pm.processLocalTimeout_outbox o view) (l.pm.emittedOnTimeout_proposal o view)
  | drained o hphase hq => exact h
  | ready o r rest hphase hq =>
    have hrest : Modest { l.pm with readyQueue := rest } := by
      refine ⟨h.pends, fun r hr => h.queue r ?_, h.sent⟩
      rw [hq]
      exact List.mem_cons_of_mem _ hr
    have hr : ∀ ctx p, r ≠ .newProposal ctx p := h.queue r (by rw [hq]; exact List.mem_cons_self)
    exact hrest.of_queuesResults
      (fun sw hsw => hrest.pends sw (Pacemaker.processReadyEvent_subset o _ r hsw))
      (Pacemaker.processReadyEvent_queuesResults o _ hrest.pends_ne r)
      (Pacemaker.processReadyEvent_outbox o _ r) (Pacemaker.emittedOnReady_proposal o _ hr)
  | flusher => exact ⟨h.pends, h.queue, h.sent⟩

theorem modest_start (id : ReplicaID) (elector : RoundRobinLeaderElector) (machine : Machine K)
    (signaturer : DefaultSignaturer K) (db : Database) :
    Modest (start (.new id elector machine signaturer) db).pm :=
  ⟨fun _ h => (nomatch h), fun _ h => (nomatch h), rfl⟩

/-- Outside the draining loop, and as long as it does not tick, no vote is sent. -/
theorem step_sentVotes {l : EventLoop K} (C : Codec K) {a : LoopAction K}
    (hphase : l.phase ≠ .drain) (ha : a ≠ .tick) :
    (step C l a).phase ≠ .drain ∧ (step C l a).pm.sentVotes = l.pm.sentVotes := by
  have hacts := step_acts C l a
  generalize (step C l a).pm = pm', (step C l a).phase = phase' at hacts
  cases hacts with
  | stays => exact ⟨hphase, rfl⟩
  | flushes _ _ hselect htick => exact ⟨fun hdrain => ha (htick hdrain), rfl⟩
  | network o e hselect =>
    have hsent := (l.pm.processNetworkEvent_effect o e).sent
    rw [Option.toList_none, List.append_nil] at hsent
    exact ⟨fun h => (nomatch h), hsent⟩
  | timeout o view hselect =>
    have hsent := (l.pm.processLocalTimeout_effect o view).sent
    rw [Option.toList_none, List.append_nil] at hsent
    exact ⟨fun h => (nomatch h), hsent⟩
  | drained o hdrain hq => exact absurd hdrain hphase
  | ready o r rest hdrain hq => exact absurd hdrain hphase
  | flusher => exact ⟨hphase, rfl⟩

/-- A replica that executes `run` never sends a proposal, and sends votes only after the flush of
a tick: until the loop ticks again, nothing it receives makes it vote. -/
theorem run_votes_on_ticks (C : Codec K) (id : ReplicaID) (elector : RoundRobinLeaderElector)
    (machine : Machine K) (signaturer : DefaultSignaturer K) (db : Database)
    (as bs : List (LoopAction K)) :
    let l := as.foldl (step C) (start (.new id elector machine signaturer) db)
    l.pm.sentProposals = [] ∧
      (l.phase ≠ .drain → (∀ b ∈ bs, b ≠ .tick) →
        (bs.foldl (step C) l).pm.sentVotes = l.pm.sentVotes) := by
  intro l
  constructor
  · have hmodest : Modest l.pm :=
      Run.foldl_of_kept (I := fun l : EventLoop K => Modest l.pm)
        (modest_start id elector machine signaturer db) (fun _ a h => h.step C a) as
    exact hmodest.sent
  · intro hphase hbs
    have hend := Run.foldl_of_invariant
      (I := fun l' : EventLoop K => l'.phase ≠ .drain ∧ l'.pm.sentVotes = l.pm.sentVotes)
      ⟨hphase, rfl⟩ (Run.Each.of_mem hbs l) (fun l' b hl' hb => by
        obtain ⟨hphase', hsent⟩ := step_sentVotes C hl'.1 hb
        exact ⟨hphase', hsent.trans hl'.2⟩)
    exact hend.2

end RunLoop

/-! ## A network of such replicas -/

/-- A message of a replica that knows the genesis block only. -/
def PeerEvent.Barren : PeerEvent K → Prop
  | .newView _ qcHigh => qcHigh = initQc K
  | .timeout _ _ => True
  | _ => False

namespace Pacemaker

/-- Nothing was proposed to the replica, and it has told so. -/
structure Barren (pm : Pacemaker K) : Prop where
  storage : pm.machine.storage.AtGenesis
  pending : pm.pendingProp = []
  sync : pm.syncState = .idle
  queue : ∀ r ∈ pm.readyQueue, ∃ ctx, r = .updateQCHigh ctx (initNode K)
  outbox : ∀ e ∈ pm.outbox, e.Barren

namespace Barren

variable {pm : Pacemaker K}

theorem of_alike (h : pm.Barren) (f : HotstuffStorage K → HotstuffStorage K)
    (hf : pm.machine.storage.Alike (f pm.machine.storage)) : (pm.onStorage f).Barren :=
  ⟨h.storage.of_alike hf, h.pending, h.sync, h.queue, h.outbox⟩

theorem timedOut (h : pm.Barren) (timeoutView : ViewNumber) : (pm.timedOut timeoutView).Barren := by
  have htc := h.storage.of_alike (HotstuffStorage.alike_appendTc _
    (pm.signTc pm.view pm.machine.storage.state.qcHigh))
  refine ⟨?_, h.pending, h.sync, h.queue, ?_⟩
  · exact ((htc.increaseView _).of_alike
      (HotstuffStorage.alike_cleanNewViewSet _ _)).increaseView _
  · rw [timedOut_outbox]
    intro e he
    rcases List.mem_append.mp he with he | he
    · exact h.outbox e he
    · rcases List.mem_pair.mp he with rfl | rfl
      · trivial
      · exact h.storage.qcHigh

theorem processLocalTimeout (h : pm.Barren) (o : Oracle K) (timeoutView : ViewNumber) :
    (pm.processLocalTimeout o timeoutView).Barren := by
  have hnext := h.timedOut timeoutView
  rw [processLocalTimeout_eq, hnext.sync]
  split
  · exact hnext
  · exact h

/-- The certificate of the genesis block is no news. -/
theorem recvNewViewMsg (h : pm.Barren) (ctx : Context) :
    (pm.emitSafetyEvent (.recvNewViewMsg ctx (initQc K))).Barren := by
  have hget : pm.machine.storage.get (initQc K).node = some (initNode K) := h.storage.genesis
  have hres : pm.machine.processSafetyEvent (.recvNewViewMsg ctx (initQc K)) =
      (pm.machine, .ok pm.machine.formUpdateQcHigh) := by
    show pm.machine.onRecvNewView (initQc K) = _
    unfold Machine.onRecvNewView
    rw [hget]
    dsimp only
    rw [h.storage.updateQcHigh]
  have hpm : pm.emitSafetyEvent (.recvNewViewMsg ctx (initQc K)) =
      { pm with readyQueue := pm.readyQueue ++ [pm.machine.formUpdateQcHigh] } := by
    unfold emitSafetyEvent
    rw [hres]
    rfl
  rw [hpm]
  refine ⟨h.storage, h.pending, h.sync, ?_, h.outbox⟩
  intro r hr
  rcases List.mem_append.mp hr with hr | hr
  · exact h.queue r hr
  · rw [List.mem_singleton.mp hr]
    refine ⟨.response pm.machine.selfId pm.machine.storage.state.currentView, ?_⟩
    unfold Machine.formUpdateQcHigh
    rw [h.storage.leaf]

theorem processNetworkEvent (h : pm.Barren) (o : Oracle K) {e : PeerEvent K} (he : e.Barren) :
    (pm.processNetworkEvent o e).Barren := by
  match e, he with
  | .newView ctx qcHigh, he =>
    have hqc : qcHigh = initQc K := he
    subst hqc
    have hstored := h.of_alike (fun s => s.insertNewView ctx.view ctx.sender (initQc K))
      (HotstuffStorage.alike_insertNewView _ ctx.view ctx.sender _)
    exact hstored.recvNewViewMsg ctx
  | .timeout ctx tc, _ =>
    have htc := h.of_alike (fun s => (s.appendTc tc).1) (HotstuffStorage.alike_appendTc _ tc)
    unfold Pacemaker.processNetworkEvent
    dsimp only
    split
    · exact htc.processLocalTimeout o _
    · exact htc

/-- The `UpdateQCHigh` events in the queue are about the genesis block. -/
theorem processReadyEvent (h : pm.Barren) (o : Oracle K) (ctx : Context) :
    (pm.processReadyEvent o (.updateQCHigh ctx (initNode K))).Barren := by
  have hupdate : pm.machine.storage.livenessUpdateQcHigh (initNode K) (initNode K).justify =
      pm.machine.storage.setDirty := by
    unfold HotstuffStorage.livenessUpdateQcHigh
    rw [h.storage.updateQcHigh]
  have halike := HotstuffStorage.alike_setDirty pm.machine.storage
  rw [← hupdate] at halike
  exact h.of_alike (fun s => s.livenessUpdateQcHigh (initNode K) (initNode K).justify) halike

theorem sent (h : pm.Barren) : pm.sentVotes = [] ∧ pm.sentProposals = [] := by
  constructor
  · refine List.filterMap_eq_nil_iff.mpr fun e he => ?_
    have hb := h.outbox e he
    cases e <;> first | rfl | exact False.elim hb
  · refine List.filterMap_eq_nil_iff.mpr fun e he => ?_
    have hb := h.outbox e he
    cases e <;> first | rfl | exact False.elim hb

end Barren

end Pacemaker

namespace RunLoop

theorem barren_start (id : ReplicaID) (elector : RoundRobinLeaderElector) {machine : Machine K}
    (hm : FreshStorage machine.storage) (hzero : initNodeHash K ≠ (GenericQC.zeroed K).node)
    (signaturer : DefaultSignaturer K) (db : Database) :
    (start (.new id elector machine signaturer) db).pm.Barren := by
  have hgenesis := hm.atGenesis hzero
  refine ⟨?_, rfl, rfl, fun _ h => (nomatch h), ?_⟩
  · exact (hgenesis.increaseView 1).of_alike (HotstuffStorage.alike_cleanNewViewSet _ 1)
  · intro e he
    rw [List.mem_singleton.mp he]
    exact hgenesis.qcHigh

theorem barren_step (C : Codec K) {l : EventLoop K} (h : l.pm.Barren) {a : LoopAction K}
    (ha : ∀ o e, a = .network o e → e.Barren) : (step C l a).pm.Barren := by
  have hacts := step_acts C l a
  generalize (step C l a).pm = pm', (step C l a).phase = phase' at hacts
  cases hacts with
  | stays => exact h
  | flushes _ _ hphase htick => exact h.of_alike _ (HotstuffStorage.alike_asyncFlush _)
  | network o e hphase => exact h.processNetworkEvent o (ha o e rfl)
  | timeout o view hphase => exact h.processLocalTimeout o view
  | drained o hphase hq => exact h
  | ready o r rest hphase hq =>
    obtain ⟨ctx, rfl⟩ := h.queue r (by rw [hq]; exact List.mem_cons_self)
    have hrest : Pacemaker.Barren { l.pm with readyQueue := rest } := by
      refine ⟨h.storage, h.pending, h.sync, fun r hr => h.queue r ?_, h.outbox⟩
      rw [hq]
      exact List.mem_cons_of_mem _ hr
    exact hrest.processReadyEvent o ctx
  | flusher => exact h.of_alike _ (HotstuffStorage.alike_takeTask _)

variable {n : ℕ}

/-- One replica of the network takes a step. -/
def networkStep (C : Codec K) (ν : Fin n → EventLoop K) (a : Fin n × LoopAction K) :
    Fin n → EventLoop K :=
  Function.update ν a.1 (step C (ν a.1) a.2)

/-- What a replica receives was sent by a replica of the network. -/
def Closed (ν : Fin n → EventLoop K) (a : Fin n × LoopAction K) : Prop :=
  ∀ o e, a.2 = .network o e → ∃ i, e ∈ (ν i).pm.outbox

/-- Replicas that all execute `run` and receive each other's messages only, in whatever order and
however often, never send a proposal or a vote, and stay at the genesis block. -/
theorem run_network_idle (C : Codec K) (id : Fin n → ReplicaID)
    (elector : RoundRobinLeaderElector) (machine : Fin n → Machine K)
    (hm : ∀ i, FreshStorage (machine i).storage)
    (hzero : initNodeHash K ≠ (GenericQC.zeroed K).node)
    (signaturer : Fin n → DefaultSignaturer K) (db : Fin n → Database)
    (as : List (Fin n × LoopAction K))
    (hclosed : Run.Each (networkStep C) Closed
      (fun i => start (.new (id i) elector (machine i) (signaturer i)) (db i)) as) (i : Fin n) :
    let pm := (as.foldl (networkStep C)
      (fun i => start (.new (id i) elector (machine i) (signaturer i)) (db i)) i).pm
    pm.machine.storage.AtGenesis ∧ pm.sentVotes = [] ∧ pm.sentProposals = [] := by
  intro pm
  have hbarren : ∀ j, (as.foldl (networkStep C)
      (fun i => start (.new (id i) elector (machine i) (signaturer i)) (db i)) j).pm.Barren := by
    refine Run.foldl_of_invariant (I := fun ν : Fin n → EventLoop K => ∀ j, (ν j).pm.Barren)
      (fun j => barren_start (id j) elector (hm j) hzero (signaturer j) (db j)) hclosed ?_
    intro ν a hν ha j
    unfold networkStep
    by_cases hj : j = a.1
    · subst hj
      rw [Function.update_self]
      refine barren_step C (hν a.1) fun o e hae => ?_
      obtain ⟨k, hk⟩ := ha o e hae
      exact (hν k).outbox e hk
    · rw [Function.update_of_ne hj]
      exact hν j
  exact ⟨(hbarren i).storage, (hbarren i).sent⟩

end RunLoop

namespace Symbolic

open RunLoop

def electorOfFour : RoundRobinLeaderElector :=
  ⟨["replica-0", "replica-1", "replica-2", "replica-3"]⟩

def runLoop₀ : EventLoop symbolic :=
  start (.new (replicaId 0) electorOfFour (fresh 4 0) (signaturer 4 0)) createTables

/-- Replica 0 receives a proposal. -/
def proposedRun : List (LoopAction symbolic) :=
  [.network oracle (.newProposal (.broadcast (replicaId 1) 1) a1)]

/-- Then its view times out, and a `NewView` message comes. -/
def waitingRun : List (LoopAction symbolic) :=
  [.timeout oracle 1,
    .network oracle (.newView (.single (replicaId 1) (replicaId 0) 2) (initQc symbolic))]

/-- At last the loop ticks. -/
def drainedRun : List (LoopAction symbolic) := [.tick, .ready oracle]

theorem run_votes_on_ticks_on_proposedRun :
    (waitingRun.foldl (step codec) (proposedRun.foldl (step codec) runLoop₀)).pm.sentVotes = [] ∧
      ((proposedRun ++ waitingRun ++ drainedRun).foldl (step codec) runLoop₀).pm.sentVotes =
        [a1] := by
  refine ⟨?_, by decide +kernel⟩
  unfold runLoop₀
  rw [(run_votes_on_ticks codec (replicaId 0) electorOfFour (fresh 4 0) (signaturer 4 0)
    createTables proposedRun waitingRun).2 (by decide +kernel) (by
      intro b hb
      rcases List.mem_pair.mp hb with rfl | rfl <;> exact fun h => nomatch h)]
  decide +kernel

/-- The `NewView` message of replica 0 for view 1 comes to a replica, which then drains. -/
def idleRun (i : Fin 4) : List (Fin 4 × LoopAction symbolic) :=
  [(i, .network oracle (.newView (.single (replicaId 0) (electorOfFour.getLeader 1) 1)
    (initQc symbolic))), (i, .tick), (i, .ready oracle)]

theorem closed_idleRun : Run.Each (networkStep codec) Closed
    (fun i => start (.new (replicaId i) electorOfFour (fresh 4 i) (signaturer 4 i)) createTables)
    (idleRun 1) := by
  refine ⟨?_, ?_, ?_, trivial⟩
  · rintro o e ⟨⟩
    exact ⟨0, List.mem_singleton.mpr rfl⟩
  · rintro o e ⟨⟩
  · rintro o e ⟨⟩

theorem run_network_idle_on_idleRun :
    ((idleRun 1).foldl (networkStep codec) (fun i => start (.new (replicaId i) electorOfFour
      (fresh 4 i) (signaturer 4 i)) createTables) 1).pm.machine.storage.AtGenesis :=
  (run_network_idle codec (fun i => replicaId i) electorOfFour (fun i => fresh 4 i)
    (fun i => .inMem _ _ _ _) (by decide +kernel) (fun i => signaturer 4 i)
    (fun _ => createTables) (idleRun 1) closed_idleRun 1).1

end Symbolic

end HotstuffConsensus
