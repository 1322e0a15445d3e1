import HotstuffConsensus.Machine
import HotstuffConsensus.Database

/-!
# The pacemaker (`pacemaker/pacemaker.rs`)

`Pacemaker` owns the machine, buffers proposals until their justify is likely to be known,
and queues what the machine returns. Sends to the network are appended to `outbox`; the
awaited sends and sleeps are single steps and the timer is left out, so that a timeout may
fire at any time. A quit does not force the loop to end at its next round.

Two results of the source are not determined by it: which of several equal entries a
binary heap pops, and in which order the values of a hash map come. Both are taken from
an `Oracle`, over which everything is quantified.
-/

namespace HotstuffConsensus

open Lib

variable {K : Crypto}

/-! ## Leader election -/

/-- FNV-1a over the eight bytes of a word, least significant first. -/
def fnv1a (v : UInt64) : UInt64 :=
  (beBytes v).reverse.foldl (fun h b => (h ^^^ b.toUInt64) * 0x100000001b3) 0xcbf29ce484222325

def viewHash (view : ViewNumber) (total : ℕ) : ℕ := (fnv1a view).toNat % total

/-- The sorted replica ids without repetition. -/
structure RoundRobinLeaderElector where
  roundMapper : List ReplicaID

/-- `get_leader`. The source panics when there are no replicas. -/
def RoundRobinLeaderElector.getLeader (e : RoundRobinLeaderElector) (view : ViewNumber) :
    ReplicaID :=
  e.roundMapper.getD (viewHash view e.roundMapper.length) ""

/-! ## Messages -/

inductive PeerEvent (K : Crypto) where
  | ping (ctx : Context) (cont : String)
  | newProposal (ctx : Context) (prop : TreeNode K)
  | acceptProposal (ctx : Context) (prop : TreeNode K) (sign : Option (SignKit K))
  | newView (ctx : Context) (qcHigh : GenericQC K)
  | timeout (ctx : Context) (tc : TimeoutCertificate K)
  | branchSyncRequest (ctx : Context) (strategy : BranchSyncStrategy)
  | branchSyncResponse (ctx : Context) (strategy : BranchSyncStrategy)
      (branch : Option (List (TreeNode K))) (status : SyncStatus)

/-- `SafetyEventWrapper`, ordered by `view`, the negated justify view. -/
structure SafetyEventWrapper (K : Crypto) where
  se : SafetyEvent K
  view : Int64

/-- `SafetyEventWrapper::from`: `-1 * view as i64`. -/
def SafetyEventWrapper.new (view : ViewNumber) (se : SafetyEvent K) : SafetyEventWrapper K :=
  ⟨se, -view.toInt64⟩

/-- What the source leaves open in a step. -/
structure Oracle (K : Crypto) where
  /-- Which of the greatest heap entries is popped. -/
  tie : ℕ
  /-- The nodes `fetch_branch` returns. -/
  branch : List (TreeNode K)

/-- The positions of the greatest entries of a heap. -/
def greatest (heap : List (SafetyEventWrapper K)) : List ℕ :=
  (List.range heap.length).filter fun i =>
    match heap[i]? with
    | some w => heap.all fun w' => w'.view ≤ w.view
    | none => false

/-- `BinaryHeap::pop`: one of the greatest entries, and the rest. -/
def heapPop (tie : ℕ) (heap : List (SafetyEventWrapper K)) :
    Option (SafetyEventWrapper K × List (SafetyEventWrapper K)) :=
  match (greatest heap)[tie % (greatest heap).length]? with
  | some i => heap[i]?.map fun w => (w, heap.eraseIdx i)
  | none => none

/-- The results `fetch_branch` may return: the stored nodes above `grow_from`, by height.
`batch_size` is ignored by the source. -/
def HotstuffStorage.FetchesBranch (s : HotstuffStorage K) (strategy : BranchSyncStrategy)
    (branch : List (TreeNode K)) : Prop :=
  (branch : Multiset (TreeNode K)) =
      (HashMap.values s.inMemQueue).filter (fun x => strategy.growFrom < x.height) ∧
    branch.Pairwise fun a b => a.height ≤ b.height

/-- The entry `new_view_set(view)` makes when it is missing. -/
def HotstuffStorage.touchNewViewSet (s : HotstuffStorage K) (view : ViewNumber) :
    HotstuffStorage K :=
  { s with newViewSet := s.newViewSet.insert view (s.newViewSetEntry view) }

/-! ## The pacemaker -/

inductive SyncState where
  | synchronizing
  | idle
deriving DecidableEq

structure Pacemaker (K : Crypto) where
  view : ViewNumber
  id : ReplicaID
  elector : RoundRobinLeaderElector
  signaturer : DefaultSignaturer K
  machine : Machine K
  readyQueue : List (Ready K)
  pendingProp : List (SafetyEventWrapper K)
  syncState : SyncState
  outbox : List (PeerEvent K)

/-- `BATCH_SIZE`. -/
def batchSize : ℕ := 8

namespace Pacemaker

def new (id : ReplicaID) (elector : RoundRobinLeaderElector) (machine : Machine K)
    (signaturer : DefaultSignaturer K) : Pacemaker K where
  view := 0
  id := id
  elector := elector
  signaturer := signaturer
  machine := machine
  readyQueue := []
  pendingProp := []
  syncState := .idle
  outbox := []

/-- An operation of `liveness_storage()`. -/
def onStorage (pm : Pacemaker K) (f : HotstuffStorage K → HotstuffStorage K) : Pacemaker K :=
  { pm with machine := { pm.machine with storage := f pm.machine.storage } }

/-- `emit_peer_event`. The code drops an event that it cannot hand to the network in time; the
outbox has every event that it tries to send. -/
def emitPeerEvent (pm : Pacemaker K) (pe : PeerEvent K) : Pacemaker K :=
  { pm with outbox := pm.outbox ++ [pe] }

/-- `emit_safety_event`: every result but `Nil` is queued, errors are logged. -/
def emitSafetyEvent (pm : Pacemaker K) (se : SafetyEvent K) : Pacemaker K :=
  let res := pm.machine.processSafetyEvent se
  let pm := { pm with machine := res.1 }
  match res.2 with
  | .ok .nil => pm
  | .ok ready => { pm with readyQueue := pm.readyQueue ++ [ready] }
  -- what the machine changed before it failed stays
  | .error _ => pm

def updatePmStatus (pm : Pacemaker K) (view : ViewNumber) : Pacemaker K :=
  let newView := max pm.view view
  { pm with view := newView }.onStorage fun s => s.increaseView newView

def gotoNewView (pm : Pacemaker K) (newView : ViewNumber) : Pacemaker K :=
  let pm := pm.updatePmStatus newView
  let pm := pm.onStorage fun s => s.cleanNewViewSet pm.view
  let ctx := Context.single pm.id (pm.elector.getLeader pm.view) pm.view
  pm.emitPeerEvent (.newView ctx pm.machine.storage.state.qcHigh)

def signTc (pm : Pacemaker K) (view : ViewNumber) (qcHigh : GenericQC K) :
    TimeoutCertificate K :=
  .new pm.id pm.view ⟨K.sign pm.signaturer.sks (beBytes view), pm.signaturer.signId⟩ qcHigh

/-- The pending proposal `check_pending_prop` would hand to the machine: the one it pops,
if its justify view is not above `leafHeight`. -/
def releasable (o : Oracle K) (pm : Pacemaker K) (leafHeight : ViewNumber) :
    Option (SafetyEventWrapper K) :=
  match heapPop o.tie pm.pendingProp with
  | some (sw, _) => if (-sw.view).toUInt64 ≤ leafHeight then some sw else none
  | none => none

def checkPendingProp (o : Oracle K) (pm : Pacemaker K) (leafHeight : ViewNumber) :
    Pacemaker K :=
  match heapPop o.tie pm.pendingProp with
  | some (sw, rest) =>
    if (-sw.view).toUInt64 ≤ leafHeight then
      { pm with pendingProp := rest }.emitSafetyEvent sw.se
    else
      -- put back, and asked for unless a sync is under way
      let pm := { pm with pendingProp := rest ++ [sw] }
      match pm.syncState with
      | .idle =>
        let pm := { pm with syncState := .synchronizing }
        let ctx := Context.single pm.id (pm.elector.getLeader pm.view) pm.view
        pm.emitPeerEvent (.branchSyncRequest ctx ⟨leafHeight, batchSize⟩)
      | .synchronizing => pm
  | none => pm

def processLocalTimeout (o : Oracle K) (pm : Pacemaker K) (timeoutView : ViewNumber) :
    Pacemaker K :=
  if pm.view ≤ timeoutView then
    let tc := pm.signTc pm.view pm.machine.storage.state.qcHigh
    let pm := pm.onStorage fun s => (s.appendTc tc).1
    let pm := pm.emitPeerEvent (.timeout (.broadcast pm.id pm.view) tc)
    let pm := pm.gotoNewView (timeoutView + 1)
    let pm := pm.onStorage fun s => s.increaseView pm.view
    match pm.syncState with
    | .synchronizing =>
      { pm with syncState := .idle }.checkPendingProp o pm.machine.storage.state.leaf.height
    | .idle => pm
  else pm

def processNetworkEvent (o : Oracle K) (pm : Pacemaker K) : PeerEvent K → Pacemaker K
  | .newProposal ctx prop =>
    let pm := { pm with pendingProp := pm.pendingProp ++
      [SafetyEventWrapper.new prop.justify.view (.recvProposal ctx prop)] }
    pm.checkPendingProp o pm.machine.storage.state.leaf.height
  | .acceptProposal ctx prop (some sign) => pm.emitSafetyEvent (.recvSign ctx prop sign)
  -- a vote without a signature is ignored
  | .acceptProposal _ _ none => pm
  | .timeout _ tc =>
    let v := (pm.machine.storage.appendTc tc).2
    let pm := pm.onStorage fun s => (s.appendTc tc).1
    if pm.view < v then pm.processLocalTimeout o v else pm
  | .branchSyncRequest ctx strategy =>
    pm.emitPeerEvent (.branchSyncResponse (.single pm.id ctx.sender pm.view) strategy
      (some o.branch) .success)
  | .branchSyncResponse ctx _ (some branch) .success => pm.emitSafetyEvent (.branchSync ctx branch)
  | .branchSyncResponse _ _ _ _ => pm
  | .ping _ _ => pm
  | .newView ctx qcHigh =>
    (pm.onStorage fun s => s.insertNewView ctx.view ctx.sender qcHigh).emitSafetyEvent
      (.recvNewViewMsg ctx qcHigh)

/-- Whether a signature goes to another replica. -/
def toOther (pm : Pacemaker K) (ctx : Context) : Bool :=
  match ctx.dest with
  | .single dest => dest != pm.id
  | _ => false

def processReadyEvent (o : Oracle K) (pm : Pacemaker K) : Ready K → Pacemaker K
  | .nil => pm
  | .internalState _ _ => pm
  | .newProposal ctx prop => pm.emitPeerEvent (.newProposal ctx prop)
  | .updateQCHigh _ node => pm.onStorage fun s => s.livenessUpdateQcHigh node node.justify
  | .signature ctx prop sign =>
    -- the vote leaves here, in the round in which the machine signed
    let pm := pm.emitPeerEvent (.acceptProposal ctx prop (some sign))
    if pm.toOther ctx then pm.processLocalTimeout o prop.height else pm
  | .commitState _ _ => pm
  | .branchSyncDone leaf =>
    match pm.syncState with
    | .synchronizing => { pm with syncState := .idle }.checkPendingProp o leaf.height
    | .idle => pm
  | .proposalReachConsensus propView => pm.processLocalTimeout o propView

/-- `make_new_proposal`. -/
def makeNewProposal (pm : Pacemaker K) (cmds : List Txn) : Pacemaker K × Option (Ready K) :=
  let th := pm.machine.storage.threshold
  let lens := HashMap.size (pm.machine.storage.newViewSetEntry pm.view)
  let pm := pm.onStorage fun s => s.touchNewViewSet pm.view
  if lens ≤ th then (pm, none)
  else
    -- the entries of this view go too, so that one quorum makes one proposal
    let pm := pm.onStorage fun s => s.cleanNewViewSet (pm.view + 1)
    let res := pm.machine.onBeat cmds
    ({ pm with machine := res.1 }, res.2.toOption)

end Pacemaker

/-! ## The event loop -/

/-- Where `event_loop_with_functions` stands: at the top of its body, at the `select!`,
draining the ready queue, or returned. -/
inductive Phase where
  | top
  | select
  | drain
  | down
deriving DecidableEq

/-- The loop with the database its flusher writes to. -/
structure EventLoop (K : Crypto) where
  pm : Pacemaker K
  db : Database
  phase : Phase

/-- The steps of the loop, and those of the flusher task beside it. -/
inductive LoopAction (K : Crypto) where
  /-- The fetched transactions, if any, and the way to the `select!`. -/
  | fetch (cmds : Option (List Txn))
  | tick
  | quit
  | network (o : Oracle K) (e : PeerEvent K)
  | timeout (o : Oracle K) (view : ViewNumber)
  /-- One round of the draining loop. -/
  | ready (o : Oracle K)
  /-- The loop ends, by `end_fn` or after a quit, and flushes. -/
  | finish
  /-- The flusher commits the next task. -/
  | flusher

namespace EventLoop

def start (pm : Pacemaker K) (db : Database) : EventLoop K := ⟨pm.gotoNewView 1, db, .top⟩

/-- The tasks in the channel to the flusher. -/
def pending (l : EventLoop K) : List (DirtyData K) :=
  match l.pm.machine.storage.backend with
  | some backend => backend.channel
  | none => []

/-- `make_new_proposal` with the fetched transactions; its result is queued. -/
def propose (pm : Pacemaker K) (cmds : List Txn) : Pacemaker K :=
  let res := pm.makeNewProposal cmds
  match res.2 with
  | some ready => { res.1 with readyQueue := res.1.readyQueue ++ [ready] }
  | none => res.1

def flusherStep (C : Codec K) (l : EventLoop K) : EventLoop K :=
  match l.pm.machine.storage.backend with
  | some ⟨task :: rest, receiving⟩ =>
    { l with
      pm := l.pm.onStorage fun s => { s with backend := some ⟨rest, receiving⟩ }
      db := l.db.flush C task }
  | _ => l

/-- A step of the loop; a step that is not due changes nothing. -/
def step (C : Codec K) (l : EventLoop K) (a : LoopAction K) : EventLoop K :=
  match l.phase, a with
  | .top, .fetch none =>
    { l with pm := l.pm.onStorage fun s => s.touchNewViewSet l.pm.view, phase := .select }
  | .top, .fetch (some cmds) =>
    let pm := l.pm.onStorage fun s => s.touchNewViewSet l.pm.view
    { l with pm := propose pm cmds, phase := .select }
  | .select, .tick =>
    { l with pm := l.pm.onStorage HotstuffStorage.asyncFlush, phase := .drain }
  | .select, .quit => { l with phase := .drain }
  | .select, .network o e => { l with pm := l.pm.processNetworkEvent o e, phase := .drain }
  | .select, .timeout o view => { l with pm := l.pm.processLocalTimeout o view, phase := .drain }
  | .drain, .ready o =>
    -- a processed event may queue new ones, which are drained in the same round
    match l.pm.readyQueue with
    | [] => { l with phase := .top }
    | ready :: rest => { l with pm := { l.pm with readyQueue := rest }.processReadyEvent o ready }
  -- `end_fn` held or a quit was received: the last flush
  | .top, .finish => { l with pm := l.pm.onStorage HotstuffStorage.asyncFlush, phase := .down }
  | _, .flusher => flusherStep C l
  | _, _ => l

end EventLoop

end HotstuffConsensus
