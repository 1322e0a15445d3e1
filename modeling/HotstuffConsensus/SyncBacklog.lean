import HotstuffConsensus.PacemakerTheorems
import HotstuffConsensus.PendingProposals
import HotstuffConsensus.ReadyQueue
import HotstuffConsensus.VotePool

/-!
# The pending proposals after a branch sync

When a branch sync is done, `check_pending_prop` looks at one pending proposal, and the queue
of ready events is drained. Nothing that is drained then looks at another one: the released
proposal may give a signature, and the sync that would make a timeout look again is over.

So one proposal is released at most, while the leaf it raises may be above the justify views of
others.
-/

namespace HotstuffConsensus

open Lib

variable {K : Crypto}

/-! ## The leaf after a proposal -/

/-- The leaf after `update_qc_high` with the justify of `p`. -/
def HotstuffStorage.leafWith (s : HotstuffStorage K) (p : TreeNode K) : TreeNode K :=
  match s.get p.justify.node, s.get s.state.qcHigh.node with
  | some b, some q => if q.height < b.height then b else s.state.leaf
  | _, _ => s.state.leaf

namespace Machine

/-- The leaf after the proposal `p`: the block its justify names, when the justify is verified
and the block is higher than that of `qc_high`. -/
def leafAfter (m : Machine K) (p : TreeNode K) : TreeNode K :=
  match m.verifyProposal p.justify with
  | .ok _ => (m.stored p).storage.leafWith p
  | .error _ => m.storage.state.leaf

theorem updateNodes_leaf (m : Machine K) (p : TreeNode K) :
    (m.updateNodes p).1.storage.state.leaf = m.storage.leafWith p := by
  -- the lock and the commit leave the leaf alone
  have hqc : (m.updateNodes p).1.storage.state.leaf =
      (updateNodesQcHigh m.storage (m.storage.findThreeChain p) p).state.leaf := by
    obtain ⟨-, hleaf, -⟩ := updateNodesLocked_cases
      (updateNodesQcHigh m.storage (m.storage.findThreeChain p) p) (m.storage.findThreeChain p)
    rcases m.updateNodes_eq_or_commit p with h | ⟨b, h⟩
    · rw [h, hleaf]
    · rw [h, ← hleaf, HotstuffStorage.commit_state]
      split <;> rfl
  rw [hqc]
  unfold updateNodesQcHigh HotstuffStorage.leafWith
  rw [HotstuffStorage.findThreeChain_head?]
  cases m.storage.get p.justify.node with
  | none => rfl
  | some b =>
    unfold HotstuffStorage.updateQcHigh
    cases m.storage.get m.storage.state.qcHigh.node with
    | none => rfl
    | some q =>
      dsimp only
      split <;> rfl

theorem onRecvProposal_leaf (m : Machine K) (ctx : Context) (p : TreeNode K) :
    (m.onRecvProposal ctx p p.justify).1.storage.state.leaf = m.leafAfter p := by
  rw [onRecvProposal_eq]
  unfold leafAfter
  cases m.verifyProposal p.justify with
  | error e => rfl
  | ok r => exact updateNodes_leaf (m.stored p) p

end Machine

namespace Pacemaker

/-! ## Draining the ready queue -/

/-- The loop `while let Some(ready) = ready_queue.pop_front()` ends in `pm'`. -/
inductive Drains : Pacemaker K → Pacemaker K → Prop
  | done {pm : Pacemaker K} (h : pm.readyQueue = []) : Drains pm pm
  | round {pm pm' : Pacemaker K} {ready : Ready K} {rest : List (Ready K)} (o : Oracle K)
      (h : pm.readyQueue = ready :: rest)
      (hrest : Drains ({ pm with readyQueue := rest }.processReadyEvent o ready) pm') : Drains pm pm'

/-- No proposal whose justify view is at most the height of the leaf is pending. -/
def NoBacklog (pm : Pacemaker K) : Prop :=
  ∀ e, pend e ∈ pm.pendingProp → pm.machine.storage.state.leaf.height < e.2.justify.view

/-- The proposal that is looked at and every other one have a justify view above the leaf; or
it is released, and the others have one above the leaf after it. -/
def OneAtMost (o : Oracle K) (pm : Pacemaker K) : Prop :=
  ∀ e rest, heapPop o.tie pm.pendingProp = some (pend e, rest) →
    if e.2.justify.view ≤ pm.machine.storage.state.leaf.height then
      ∀ e', pend e' ∈ rest → (pm.machine.leafAfter e.2).height < e'.2.justify.view
    else
      ∀ e', pend e' ∈ pm.pendingProp → pm.machine.storage.state.leaf.height < e'.2.justify.view

/-- A timeout outside a sync looks at no pending proposal. -/
theorem processLocalTimeout_idle (o : Oracle K) (pm : Pacemaker K) (hsync : pm.syncState = .idle)
    (timeoutView : ViewNumber) : Quiet pm (pm.processLocalTimeout o timeoutView) := by
  have hquiet := pm.quiet_timedOut timeoutView
  rw [processLocalTimeout_eq]
  by_cases hle : pm.view ≤ timeoutView
  · rw [if_pos hle, hquiet.syncState, hsync]
    exact hquiet
  · rw [if_neg hle]
    exact ⟨rfl, rfl, rfl, rfl, rfl, ⟨rfl, rfl, rfl, rfl, rfl⟩⟩

/-- Nor does the signature of a proposal outside a sync. -/
theorem processReadyEvent_signature_idle (o : Oracle K) (pm : Pacemaker K)
    (hsync : pm.syncState = .idle) (ctx : Context) (p : TreeNode K) (sign : SignKit K) :
    (pm.processReadyEvent o (.signature ctx p sign)).pendingProp = pm.pendingProp ∧
      (pm.processReadyEvent o (.signature ctx p sign)).machine.storage.state.leaf =
        pm.machine.storage.state.leaf ∧
      (pm.processReadyEvent o (.signature ctx p sign)).readyQueue = pm.readyQueue := by
  unfold processReadyEvent
  dsimp only
  split
  · have h := processLocalTimeout_idle o
      (pm.emitPeerEvent (.acceptProposal ctx p (some sign))) hsync p.height
    exact ⟨h.pendingProp, h.storage.leaf, h.readyQueue⟩
  · exact ⟨rfl, rfl, rfl⟩

/-- Nothing is queued, or the signature of a proposal outside a sync. -/
def Settled (pm : Pacemaker K) : Prop :=
  pm.readyQueue = [] ∨
    pm.syncState = .idle ∧ ∃ ctx p sign, pm.readyQueue = [.signature ctx p sign]

/-- Draining such a queue ends, and leaves leaf and pending proposals alone. -/
theorem Settled.drains {pm : Pacemaker K} (h : pm.Settled) :
    (∃ pm', Drains pm pm') ∧ ∀ pm', Drains pm pm' → pm'.pendingProp = pm.pendingProp ∧
      pm'.machine.storage.state.leaf = pm.machine.storage.state.leaf := by
  rcases h with hnil | ⟨hsync, ctx, p, sign, hone⟩
  · refine ⟨⟨pm, .done hnil⟩, ?_⟩
    intro pm' hdrains
    cases hdrains with
    | done => exact ⟨rfl, rfl⟩
    | round o hcons =>
      rw [hnil] at hcons
      cases hcons
  · have hsign := fun o =>
      processReadyEvent_signature_idle o { pm with readyQueue := [] } hsync ctx p sign
    constructor
    · exact ⟨_, .round ⟨0, []⟩ hone (.done (hsign ⟨0, []⟩).2.2)⟩
    · intro pm' hdrains
      cases hdrains with
      | done hnil =>
        rw [hone] at hnil
        cases hnil
      | round o hcons hrest =>
        rw [hone] at hcons
        cases hcons
        obtain ⟨hpending, hleaf, hempty⟩ := hsign o
        cases hrest with
        | done => exact ⟨hpending, hleaf⟩
        | round o' hcons' =>
          rw [hempty] at hcons'
          cases hcons'

/-- So there is a backlog after it if there is one before. -/
theorem Settled.noBacklog_iff {pm : Pacemaker K} (h : pm.Settled) :
    (∃ pm', Drains pm pm') ∧ ((∀ pm', Drains pm pm' → pm'.NoBacklog) ↔ pm.NoBacklog) := by
  obtain ⟨⟨pm', hdrains⟩, hsame⟩ := h.drains
  refine ⟨⟨pm', hdrains⟩, ?_, ?_⟩
  · intro hall
    obtain ⟨hpending, hleaf⟩ := hsame pm' hdrains
    have hno := hall pm' hdrains
    unfold NoBacklog at hno ⊢
    rw [hpending, hleaf] at hno
    exact hno
  · intro hno pm'' hdrains'
    obtain ⟨hpending, hleaf⟩ := hsame pm'' hdrains'
    unfold NoBacklog
    rw [hpending, hleaf]
    exact hno

/-- A proposal handed to the machine queues its signature at most. -/
theorem emitSafetyEvent_recvProposal (pm : Pacemaker K) (hqueue : pm.readyQueue = [])
    (hsync : pm.syncState = .idle) (ctx : Context) (p : TreeNode K) :
    (pm.emitSafetyEvent (.recvProposal ctx p)).Settled ∧
      (pm.emitSafetyEvent (.recvProposal ctx p)).machine.storage.state.leaf =
        pm.machine.leafAfter p := by
  have hleaf := pm.machine.onRecvProposal_leaf ctx p
  have hevent : pm.machine.processSafetyEvent (.recvProposal ctx p) =
      pm.machine.onRecvProposal ctx p p.justify := rfl
  unfold emitSafetyEvent Settled
  rw [hevent]
  rw [Machine.onRecvProposal_eq] at hleaf ⊢
  cases hv : pm.machine.verifyProposal p.justify with
  | error e =>
    rw [hv] at hleaf
    exact ⟨Or.inl hqueue, hleaf⟩
  | ok r =>
    rw [hv] at hleaf
    dsimp only at hleaf ⊢
    cases pm.machine.accepts p with
    | false => exact ⟨Or.inl hqueue, hleaf⟩
    | true =>
      refine ⟨Or.inr ⟨hsync, .single pm.machine.selfId ctx.sender
        pm.machine.storage.state.currentView, p, pm.machine.voter.sign p, ?_⟩, hleaf⟩
      show pm.readyQueue ++ [_] = _
      rw [hqueue]
      rfl

theorem processReadyEvent_syncDone (o : Oracle K) {pm : Pacemaker K}
    (hsync : pm.syncState = .synchronizing) (leaf : TreeNode K) :
    pm.processReadyEvent o (.branchSyncDone leaf) =
      { pm with syncState := .idle }.checkPendingProp o leaf.height := by
  unfold processReadyEvent
  rw [hsync]

theorem forall_popped_iff {e : Context × TreeNode K} {rest : List (SafetyEventWrapper K)}
    {P : Context × TreeNode K → List (SafetyEventWrapper K) → Prop} :
    (∀ e' rest', some (pend e, rest) = some (pend e', rest') → P e' rest') ↔ P e rest := by
  constructor
  · exact fun h => h e rest rfl
  · intro h e' rest' heq
    obtain ⟨hpend, rfl⟩ := Prod.mk.inj (Option.some.inj heq)
    obtain rfl := pend_injective hpend
    exact h

/-- Once a sync is done and the ready queue drained, no proposal with a justify view at most
the height of the leaf is pending, exactly when one release was enough. -/
theorem syncDone_noBacklog_iff (o : Oracle K) (pm : Pacemaker K)
    (hsync : pm.syncState = .synchronizing) (hpends : pm.PendsProposals)
    (hqueue : pm.readyQueue = []) :
    (∃ pm', Drains
        (pm.processReadyEvent o (.branchSyncDone pm.machine.storage.state.leaf)) pm') ∧
      ((∀ pm', Drains (pm.processReadyEvent o (.branchSyncDone pm.machine.storage.state.leaf)) pm' →
        pm'.NoBacklog) ↔ pm.OneAtMost o) := by
  rw [processReadyEvent_syncDone o hsync]
  unfold OneAtMost
  cases hpop : heapPop o.tie pm.pendingProp with
  | none =>
    -- nothing is pending
    have hsame : { pm with syncState := .idle }.checkPendingProp o
        pm.machine.storage.state.leaf.height = { pm with syncState := .idle } :=
      checkPendingProp_none _ hpop
    have hempty : pm.pendingProp = [] := by
      by_contra hne
      obtain ⟨sw, rest, hsome⟩ := exists_heapPop hne o.tie
      rw [hpop] at hsome
      cases hsome
    rw [hsame]
    have hsettled : Settled { pm with syncState := .idle } := Or.inl hqueue
    obtain ⟨hdrains, hiff⟩ := hsettled.noBacklog_iff
    refine ⟨hdrains, hiff.trans ⟨fun _ e rest h => (nomatch h), fun _ e he => ?_⟩⟩
    have hmem : pend e ∈ pm.pendingProp := he
    rw [hempty] at hmem
    cases hmem
  | some popped =>
    obtain ⟨sw, rest⟩ := popped
    have hperm := (heapPop_spec hpop).1
    obtain ⟨e, rfl⟩ := hpends sw (hperm.mem_iff.mpr List.mem_cons_self)
    rw [forall_popped_iff]
    by_cases hle : e.2.justify.view ≤ pm.machine.storage.state.leaf.height
    · -- `e` is released
      rw [if_pos hle, checkPendingProp_release { pm with syncState := .idle } hpop hle]
      obtain ⟨hsettled, hleaf⟩ := emitSafetyEvent_recvProposal
        { pm with syncState := .idle, pendingProp := rest } hqueue rfl e.1 e.2
      obtain ⟨hdrains, hiff⟩ := hsettled.noBacklog_iff
      refine ⟨hdrains, hiff.trans ?_⟩
      unfold NoBacklog
      rw [emitSafetyEvent_pendingProp, hleaf]
    · -- `e` is put back
      rw [if_neg hle]
      obtain ⟨hpending, hmachine, hready, -⟩ := checkPendingProp_keep
        { pm with syncState := .idle } hpop (not_le.mp hle)
      have hsettled : ({ pm with syncState := .idle }.checkPendingProp o
          pm.machine.storage.state.leaf.height).Settled := Or.inl (hready.trans hqueue)
      obtain ⟨hdrains, hiff⟩ := hsettled.noBacklog_iff
      refine ⟨hdrains, hiff.trans ?_⟩
      have hback := (List.perm_append_singleton (pend e) rest).trans hperm.symm
      unfold NoBacklog
      rw [hpending, hmachine]
      exact forall_congr' fun e' => by rw [hback.mem_iff]

end Pacemaker

/-! ## Where a finished sync is queued -/

/-- The machine reports a finished sync for a synced branch only. -/
theorem Machine.branchSync_of_syncDone {m : Machine K} {se : SafetyEvent K} {leaf : TreeNode K}
    (h : (m.processSafetyEvent se).2 = .ok (.branchSyncDone leaf)) :
    ∃ ctx branch, se = .branchSync ctx branch := by
  unfold processSafetyEvent at h
  cases se with
  | branchSync ctx branch => exact ⟨ctx, branch, rfl⟩
  | recvProposal ctx prop =>
    dsimp only at h
    rw [onRecvProposal_eq] at h
    cases hv : m.verifyProposal prop.justify with
    | error e =>
      rw [hv] at h
      cases h
    | ok r =>
      rw [hv] at h
      dsimp only at h
      cases ha : m.accepts prop with
      | false =>
        rw [ha] at h
        cases h
      | true =>
        rw [ha] at h
        cases h
  | recvSign ctx node sign =>
    have hpath := m.onRecvVote_path ctx node sign
    dsimp only at h
    rw [h] at hpath
    generalize (m.onRecvVote ctx node sign).1.voter.votingSet = votingSet at hpath
    cases hpath
  | newLeader ctx leader =>
    dsimp only at h
    split at h <;> cases h
  | _ => cases h

namespace Pacemaker

/-- Every finished sync in the queue of `pm'` was in that of `pm`. -/
def AddsNoSyncDone (pm pm' : Pacemaker K) : Prop :=
  ∀ leaf, Ready.branchSyncDone leaf ∈ pm'.readyQueue → Ready.branchSyncDone leaf ∈ pm.readyQueue

theorem QueuesResults.addsNoSyncDone {pm pm' : Pacemaker K}
    (h : QueuesResults (fun se => ∀ ctx branch, se ≠ .branchSync ctx branch) pm pm') :
    AddsNoSyncDone pm pm' := by
  intro leaf hmem
  rcases h _ hmem with hold | ⟨m, se, hse, hres⟩
  · exact hold
  · obtain ⟨ctx, branch, heq⟩ := Machine.branchSync_of_syncDone (congrArg Prod.snd hres)
    exact absurd heq (hse ctx branch)

theorem PendsProposals.ne_branchSync {pm : Pacemaker K} (h : pm.PendsProposals)
    {sw : SafetyEventWrapper K} (hsw : sw ∈ pm.pendingProp) (ctx : Context)
    (branch : List (TreeNode K)) : sw.se ≠ .branchSync ctx branch := by
  obtain ⟨e, rfl⟩ := h sw hsw
  exact fun heq => nomatch heq

/-- A network event reports a finished sync when it is the response, and then as the last
event, with the leaf. -/
theorem processNetworkEvent_syncDone (o : Oracle K) {pm : Pacemaker K} (h : pm.PendsProposals)
    (e : PeerEvent K) :
    AddsNoSyncDone pm (pm.processNetworkEvent o e) ∨
      (pm.processNetworkEvent o e).readyQueue = pm.readyQueue ++
        [.branchSyncDone (pm.processNetworkEvent o e).machine.storage.state.leaf] := by
  by_cases he : ∀ se ∈ e.safetyEvent, ∀ ctx branch, se ≠ .branchSync ctx branch
  · left
    exact (pm.processNetworkEvent_queuesResults o (fun _ => h.ne_branchSync) he).addsNoSyncDone
  · right
    simp only [not_forall, not_not] at he
    obtain ⟨se, hse, ctx, branch, rfl⟩ := he
    unfold PeerEvent.safetyEvent at hse
    -- of the messages with an event only the response has this one
    split at hse <;> cases hse
    rfl

end Pacemaker

namespace EventLoop

/-- Only a proposal of the replica itself is queued before an event comes. A finished sync is
queued last, with the leaf it ended with. -/
def SyncDoneLast (l : EventLoop K) : Prop :=
  match l.phase with
  | .top | .down => l.pm.readyQueue = []
  | .select => ∀ r ∈ l.pm.readyQueue, ∃ ctx p, r = .newProposal ctx p
  | .drain =>
    (∀ leaf, Ready.branchSyncDone leaf ∉ l.pm.readyQueue) ∨
      ∃ before, l.pm.readyQueue = before ++ [.branchSyncDone l.pm.machine.storage.state.leaf] ∧
        ∀ r ∈ before, ∃ ctx p, r = .newProposal ctx p

theorem syncDone_not_mem {queue : List (Ready K)} (h : ∀ r ∈ queue, ∃ ctx p, r = .newProposal ctx p)
    (leaf : TreeNode K) : Ready.branchSyncDone leaf ∉ queue := by
  intro hmem
  obtain ⟨ctx, p, heq⟩ := h _ hmem
  cases heq

/-- A round of the draining loop. -/
theorem round_syncDoneLast (o : Oracle K) {pm : Pacemaker K} (hpends : pm.PendsProposals)
    {ready : Ready K} {rest : List (Ready K)} (hqueue : pm.readyQueue = ready :: rest)
    (h : (∀ leaf, Ready.branchSyncDone leaf ∉ pm.readyQueue) ∨
      ∃ before, pm.readyQueue = before ++ [.branchSyncDone pm.machine.storage.state.leaf] ∧
        ∀ r ∈ before, ∃ ctx p, r = .newProposal ctx p) :
    (∀ leaf, Ready.branchSyncDone leaf ∉
        ({ pm with readyQueue := rest }.processReadyEvent o ready).readyQueue) ∨
      ∃ before, ({ pm with readyQueue := rest }.processReadyEvent o ready).readyQueue =
          before ++ [.branchSyncDone
            ({ pm with readyQueue := rest }.processReadyEvent o ready).machine.storage.state.leaf] ∧
        ∀ r ∈ before, ∃ ctx p, r = .newProposal ctx p := by
  have hadds := ({ pm with readyQueue := rest }.processReadyEvent_queuesResults o
    (fun _ => hpends.ne_branchSync) ready).addsNoSyncDone
  rw [hqueue] at h
  rcases h with hno | ⟨before, hlast, hnew⟩
  · exact Or.inl fun leaf hmem => hno leaf (List.mem_cons_of_mem _ (hadds leaf hmem))
  · cases before with
    | nil =>
      -- the finished sync itself, and nothing behind it
      obtain ⟨-, rfl⟩ := List.cons.inj hlast
      exact Or.inl fun leaf hmem => absurd (hadds leaf hmem) List.not_mem_nil
    | cons first before =>
      obtain ⟨rfl, rfl⟩ := List.cons.inj hlast
      obtain ⟨ctx, p, rfl⟩ := hnew _ List.mem_cons_self
      exact Or.inr ⟨before, rfl, fun r hr => hnew r (List.mem_cons_of_mem _ hr)⟩

theorem step_syncDoneLast (C : Codec K) {l : EventLoop K} (hpends : l.pm.PendsProposals)
    (h : l.SyncDoneLast) (a : LoopAction K) : (l.step C a).SyncDoneLast := by
  unfold SyncDoneLast at h
  unfold step
  split
  · rename_i hphase
    rw [hphase] at h
    intro r hr
    have hnil : r ∈ l.pm.readyQueue := hr
    rw [h] at hnil
    cases hnil
  · rename_i cmds hphase
    rw [hphase] at h
    intro r hr
    rcases propose_readyQueue (l.pm.onStorage fun s => s.touchNewViewSet l.pm.view) cmds hr with
      hold | hnew
    · have hnil : r ∈ l.pm.readyQueue := hold
      rw [h] at hnil
      cases hnil
    · exact hnew
  · rename_i hphase
    rw [hphase] at h
    exact Or.inl (syncDone_not_mem h)
  · rename_i hphase
    rw [hphase] at h
    exact Or.inl (syncDone_not_mem h)
  · rename_i o e hphase
    rw [hphase] at h
    rcases Pacemaker.processNetworkEvent_syncDone o hpends e with hadds | hlast
    · exact Or.inl fun leaf hmem => syncDone_not_mem h leaf (hadds leaf hmem)
    · exact Or.inr ⟨l.pm.readyQueue, hlast, h⟩
  · rename_i o view hphase
    rw [hphase] at h
    have hadds := (l.pm.processLocalTimeout_queuesResults o
      (fun _ => hpends.ne_branchSync) view).addsNoSyncDone
    exact Or.inl fun leaf hmem => syncDone_not_mem h leaf (hadds leaf hmem)
  · rename_i o hphase
    rw [hphase] at h
    split
    · assumption
    · rename_i ready rest hqueue
      unfold SyncDoneLast
      rw [hphase]
      exact round_syncDoneLast o hpends hqueue h
  · rename_i hphase
    rw [hphase] at h
    exact h
  · obtain ⟨hphase, hqueue, -, hstate⟩ := flusherStep_frame C l
    unfold SyncDoneLast
    rw [hphase, hqueue, hstate]
    exact h
  · exact h

/-- In every state of the event loop a finished sync that comes to the front of the queue is
alone in it, and tells the current leaf. -/
theorem run_syncDone_alone (C : Codec K) (id : ReplicaID) (elector : RoundRobinLeaderElector)
    (machine : Machine K) (signaturer : DefaultSignaturer K) (db : Database)
    (as : List (LoopAction K)) (leaf : TreeNode K) (rest : List (Ready K)) :
    let l := as.foldl (step C) (start (.new id elector machine signaturer) db)
    l.phase = .drain → l.pm.readyQueue = .branchSyncDone leaf :: rest →
      rest = [] ∧ leaf = l.pm.machine.storage.state.leaf := by
  intro l hphase hqueue
  have hlast : l.pm.PendsProposals ∧ l.SyncDoneLast := by
    refine Run.foldl_of_kept
      (I := fun l : EventLoop K => l.pm.PendsProposals ∧ l.SyncDoneLast) ?_ ?_ as
    · exact ⟨fun sw hsw => absurd hsw List.not_mem_nil, rfl⟩
    · exact fun l a h => ⟨step_pendsProposals C h.1 a, step_syncDoneLast C h.1 h.2 a⟩
  have h := hlast.2
  unfold SyncDoneLast at h
  rw [hphase] at h
  rcases h with hno | ⟨before, hbefore, hnew⟩
  · rw [hqueue] at hno
    exact absurd List.mem_cons_self (hno leaf)
  · rw [hqueue] at hbefore
    cases before with
    | nil =>
      obtain ⟨hleaf, hrest⟩ := List.cons.inj hbefore
      exact ⟨hrest, Ready.branchSyncDone.inj hleaf⟩
    | cons first before =>
      obtain ⟨hfirst, -⟩ := List.cons.inj hbefore
      rw [← hfirst] at hnew
      exact absurd List.mem_cons_self (syncDone_not_mem hnew leaf)

end EventLoop

namespace Symbolic

open Pacemaker

/-- The proposals `a4` and `a5` come to a replica that has the genesis block only. -/
def behind : Pacemaker symbolic :=
  (atGenesis.processNetworkEvent ⟨0, []⟩ (.newProposal (ctxOf 1) a4)).processNetworkEvent ⟨0, []⟩
    (.newProposal (ctxOf 1) a5)

/-- The same replica when the response to its request has been processed. -/
def syncedWith (branch : List (TreeNode symbolic)) : Pacemaker symbolic :=
  { behind.processNetworkEvent ⟨0, []⟩
      (.branchSyncResponse (ctxOf 1) ⟨0, batchSize⟩ (some branch) .success) with readyQueue := [] }

theorem syncedWith_pendsProposals (branch : List (TreeNode symbolic)) :
    (syncedWith branch).PendsProposals := by
  have hnone : atGenesis.PendsProposals := fun sw hsw => absurd hsw List.not_mem_nil
  exact ((hnone.processNetworkEvent _ _).processNetworkEvent _ _).processNetworkEvent _ _

/-- With a branch up to `a4` the leaf is `a3`: `a4` is released and `a5` has to wait. -/
theorem synced_to_a4_noBacklog : (syncedWith [a1, a2, a3, a4]).syncState = .synchronizing ∧
    ∀ pm', Drains ((syncedWith [a1, a2, a3, a4]).processReadyEvent ⟨0, []⟩
        (.branchSyncDone (syncedWith [a1, a2, a3, a4]).machine.storage.state.leaf)) pm' →
      pm'.NoBacklog := by
  have hsync : (syncedWith [a1, a2, a3, a4]).syncState = .synchronizing := by decide +kernel
  have hpop : heapPop 0 (syncedWith [a1, a2, a3, a4]).pendingProp =
      some (pend (ctxOf 1, a4), [pend (ctxOf 1, a5)]) := by rfl
  have hheight : ((syncedWith [a1, a2, a3, a4]).machine.leafAfter a4).height = 3 := by
    decide +kernel
  refine ⟨hsync, (syncDone_noBacklog_iff ⟨0, []⟩ (syncedWith [a1, a2, a3, a4]) hsync
    (syncedWith_pendsProposals _) rfl).2.mpr ?_⟩
  unfold OneAtMost
  rw [hpop, forall_popped_iff, if_pos (by decide +kernel), hheight]
  intro e' he'
  obtain rfl := pend_injective (List.mem_singleton.mp he')
  decide +kernel

/-- With a branch up to `a5` the leaf is `a4`, and the justify view of `a5` is its height. `a4`
is released and `a5` stays pending. -/
theorem synced_to_a5_backlog : (syncedWith [a1, a2, a3, a4, a5]).syncState = .synchronizing ∧
    ¬ ∀ pm', Drains ((syncedWith [a1, a2, a3, a4, a5]).processReadyEvent ⟨0, []⟩
        (.branchSyncDone (syncedWith [a1, a2, a3, a4, a5]).machine.storage.state.leaf)) pm' →
      pm'.NoBacklog := by
  have hsync : (syncedWith [a1, a2, a3, a4, a5]).syncState = .synchronizing := by decide +kernel
  refine ⟨hsync, fun hall => ?_⟩
  have hpop : heapPop 0 (syncedWith [a1, a2, a3, a4, a5]).pendingProp =
      some (pend (ctxOf 1, a4), [pend (ctxOf 1, a5)]) := by rfl
  have hno := hall _ (.done (by decide +kernel))
  rw [processReadyEvent_syncDone _ hsync, checkPendingProp_release _ hpop (by decide +kernel)] at hno
  unfold NoBacklog at hno
  rw [emitSafetyEvent_pendingProp] at hno
  exact absurd (hno (ctxOf 1, a5) List.mem_cons_self) (by decide +kernel)

end Symbolic

end HotstuffConsensus
