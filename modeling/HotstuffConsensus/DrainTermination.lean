import HotstuffConsensus.SyncBacklog
import HotstuffConsensus.WalkTermination

/-!
# Draining the ready queue

A round of the draining loop takes one event off the ready queue. It hands at most one pending
proposal to the machine, which is no longer pending then, and the machine answers with one event
at most. So with each round there is less to do, and the loop has finitely many rounds.

It ends if each of them returns. A round is stuck when the machine is: on a proposal whose
ancestors go round in the store. In a store with every block under its own hash there are none,
and outside of a sync no proposal is handed over at all.
-/

namespace HotstuffConsensus

open Lib Relation

variable {K : Crypto}

/-! ## When the machine returns -/

namespace Machine

/-- The walk of `safe_node` ends, if a proposal gets so far. -/
def PropReturns (m : Machine K) (prop : TreeNode K) : Prop :=
  ∀ ready prevNode, m.verifyProposal prop.justify = .ok ready →
    m.storage.get prop.justify.node = some prevNode →
    m.storage.state.vheight < prop.height →
    m.storage.ConflictEnds prop m.storage.state.bLocked

/-- So it is for the proposals of a branch, each in its turn. -/
def BranchReturns (m : Machine K) : List (TreeNode K) → Prop
  | [] => True
  | prop :: branch => m.PropReturns prop ∧ ∀ m', m.syncNode prop = some m' → m'.BranchReturns branch

/-- `process_safety_event` returns. The walk is the only loop in it without a bound. -/
def Returns (m : Machine K) : SafetyEvent K → Prop
  | .recvProposal _ prop => m.PropReturns prop
  | .branchSync _ branch => m.BranchReturns branch
  | _ => True

end Machine

/-- The blocks from which the machine walks. -/
def SafetyEvent.walked : SafetyEvent K → List (TreeNode K)
  | .recvProposal _ prop => [prop]
  | .branchSync _ branch => branch
  | _ => []

/-- Every block is stored under its own hash and is in `B`. -/
structure KeyedIn (B : Set (TreeNode K)) (store : BlockStore K) : Prop where
  keyed : Keyed store
  stored : storedBlocks store ⊆ B

theorem KeyedIn.insert {B : Set (TreeNode K)} {store : BlockStore K} (h : KeyedIn B store)
    {x : TreeNode K} (hx : x ∈ B) : KeyedIn B (store.insert x.hash x) where
  keyed := h.keyed.insert x
  stored := by
    rintro y ⟨k, hy⟩
    rcases HashMap.lookup_insert_cases hy with ⟨-, rfl⟩ | hold
    · exact hx
    · exact h.stored ⟨k, hold⟩

theorem KeyedIn.updateQcHigh {B : Set (TreeNode K)} {s : HotstuffStorage K}
    (h : KeyedIn B s.inMemQueue) {x : TreeNode K} (hx : x ∈ B) (qc : GenericQC K) :
    KeyedIn B (s.updateQcHigh x qc).inMemQueue := by
  rcases HotstuffStorage.updateQcHigh_cases s x qc with ⟨-, hsame⟩ | ⟨-, -, hins⟩
  · rw [hsame]
    exact h
  · rw [hins]
    exact h.insert hx

namespace Machine

variable {B : Set (TreeNode K)} {m : Machine K}

theorem processProp_keyedIn (h : KeyedIn B m.storage.inMemQueue) {prop : TreeNode K}
    (hp : prop ∈ B) : KeyedIn B (m.processProp prop).storage.inMemQueue := by
  refine Grows.trans_of_invariant (I := fun s => KeyedIn B s.inMemQueue) ?_
    (m.processProp_grows (N := (· ∈ B)) hp) h
  intro s s' hstep hs
  cases hstep with
  | quiet hq _ _ => rw [hq]; exact hs
  | append p hmem hq _ _ => rw [hq]; exact hs.insert hmem
  | certify node _ hnode _ hq _ _ => rw [hq]; exact hs.insert (hs.stored ⟨_, hnode⟩)

/-- Where the blocks have their own keys and the hashes make no cycle, the machine returns. -/
theorem returns_of_keyedIn (hr : Ranked B) (h : KeyedIn B m.storage.inMemQueue)
    {se : SafetyEvent K} (hse : ∀ x ∈ se.walked, x ∈ B) : m.Returns se := by
  have hprop : ∀ {m : Machine K}, KeyedIn B m.storage.inMemQueue → ∀ prop, m.PropReturns prop := by
    intro m h prop ready prevNode _ _ _
    exact h.keyed.conflictEnds (hr.mono h.stored) _ _
  cases se with
  | recvProposal ctx prop => exact hprop h prop
  | branchSync ctx branch =>
    show m.BranchReturns branch
    have hbranch : ∀ x ∈ branch, x ∈ B := hse
    clear hse
    induction branch generalizing m with
    | nil => trivial
    | cons prop branch ih =>
      refine ⟨hprop h prop, ?_⟩
      intro m' hm'
      rw [syncNode_eq] at hm'
      split at hm'
      · obtain rfl := Option.some.inj hm'
        exact ih (processProp_keyedIn h (hbranch prop List.mem_cons_self))
          fun x hx => hbranch x (List.mem_cons_of_mem _ hx)
      · cases hm'
  | _ => trivial

end Machine

/-- The machine returns from each event among some operations. -/
def Core.Returns (c : Core K) (ops : List (Op K)) : Prop :=
  Run.Each Core.apply (fun c op => ∀ e, op = .event e → c.machine.Returns e) c ops

theorem Core.returns_of_no_event {c : Core K} {ops : List (Op K)}
    (h : ∀ op ∈ ops, ∀ e, op ≠ .event e) : c.Returns ops := by
  unfold Core.Returns
  induction ops generalizing c with
  | nil => trivial
  | cons op ops ih =>
    refine ⟨fun e he => absurd he (h op List.mem_cons_self e), ?_⟩
    exact ih fun op' hop' => h op' (List.mem_cons_of_mem _ hop')

namespace Pacemaker

/-! ## The rounds -/

/-- One round of `while let Some(ready) = ready_queue.pop_front()`. -/
def Round (pm pm' : Pacemaker K) : Prop :=
  ∃ o ready rest, pm.readyQueue = ready :: rest ∧
    pm' = { pm with readyQueue := rest }.processReadyEvent o ready

/-- `process_ready_event` returns in the next round, if there is one. -/
def RoundReturns (pm : Pacemaker K) : Prop :=
  ∀ o ready rest, pm.readyQueue = ready :: rest →
    pm.core.Returns ({ pm with readyQueue := rest }.opsOnReady o ready)

/-- The loop ends: each round returns, and there are finitely many of them. -/
inductive DrainEnds : Pacemaker K → Prop
  | intro {pm : Pacemaker K} (hreturns : pm.RoundReturns)
      (hrest : ∀ pm', Round pm pm' → DrainEnds pm') : DrainEnds pm

/-- The machine returns from each pending proposal that a round of the loop hands to it. -/
def ReleasesReturn (pm : Pacemaker K) : Prop := ∀ pm', ReflTransGen Round pm pm' → pm'.RoundReturns

/-! ## There are finitely many -/

/-- What is left to do. A pending proposal counts twice: it is released, and what the machine
answers is queued. -/
def todo (pm : Pacemaker K) : ℕ := pm.readyQueue.length + 2 * pm.pendingProp.length

theorem emitSafetyEvent_todo (pm : Pacemaker K) (se : SafetyEvent K) :
    (pm.emitSafetyEvent se).todo ≤ pm.todo + 1 := by
  have hqueue : (pm.emitSafetyEvent se).readyQueue.length ≤ pm.readyQueue.length + 1 := by
    unfold emitSafetyEvent
    dsimp only
    split
    · exact Nat.le_succ _
    · show (pm.readyQueue ++ [_]).length ≤ _
      rw [List.length_append, List.length_singleton]
    · exact Nat.le_succ _
  unfold todo
  rw [emitSafetyEvent_pendingProp]
  omega

theorem checkPendingProp_todo (o : Oracle K) (pm : Pacemaker K) (leafHeight : ViewNumber) :
    (pm.checkPendingProp o leafHeight).todo ≤ pm.todo := by
  unfold checkPendingProp
  cases hpop : heapPop o.tie pm.pendingProp with
  | none => exact le_rfl
  | some popped =>
    obtain ⟨sw, rest⟩ := popped
    have hlength : pm.pendingProp.length = rest.length + 1 := (heapPop_spec hpop).1.length_eq
    dsimp only
    split
    · have hemit := { pm with pendingProp := rest }.emitSafetyEvent_todo sw.se
      unfold todo at hemit ⊢
      dsimp only at hemit
      omega
    · have hback : (rest ++ [sw]).length = pm.pendingProp.length := by
        rw [List.length_append, List.length_singleton, hlength]
      unfold todo
      split
      · show pm.readyQueue.length + 2 * (rest ++ [sw]).length ≤ _
        rw [hback]
      · show pm.readyQueue.length + 2 * (rest ++ [sw]).length ≤ _
        rw [hback]

theorem processLocalTimeout_todo (o : Oracle K) (pm : Pacemaker K) (timeoutView : ViewNumber) :
    (pm.processLocalTimeout o timeoutView).todo ≤ pm.todo := by
  rw [processLocalTimeout_eq]
  split
  · split
    · exact checkPendingProp_todo o { pm.timedOut timeoutView with syncState := .idle } _
    · exact le_rfl
  · exact le_rfl

theorem processReadyEvent_todo (o : Oracle K) (pm : Pacemaker K) (ready : Ready K) :
    (pm.processReadyEvent o ready).todo ≤ pm.todo := by
  rcases pm.processReadyEvent_cases o ready with ⟨outbox, hpm, -⟩ | ⟨ctx, node, -, hpm, -⟩ |
    ⟨outbox, timeoutView, hpm, -⟩ | ⟨leafHeight, -, hpm, -⟩
  · rw [hpm]
    exact le_rfl
  · rw [hpm]
    exact le_rfl
  · rw [hpm]
    exact processLocalTimeout_todo o { pm with outbox := outbox } timeoutView
  · rw [hpm]
    exact checkPendingProp_todo o { pm with syncState := .idle } leafHeight

theorem Round.todo_lt {pm pm' : Pacemaker K} (h : Round pm pm') : pm'.todo < pm.todo := by
  obtain ⟨o, ready, rest, hqueue, rfl⟩ := h
  have hle := { pm with readyQueue := rest }.processReadyEvent_todo o ready
  have hpopped : pm.readyQueue.length = rest.length + 1 := by rw [hqueue]; rfl
  unfold todo at hle ⊢
  dsimp only at hle
  omega

/-- So the loop ends when its rounds return. -/
theorem drainEnds_iff (pm : Pacemaker K) : pm.DrainEnds ↔ pm.ReleasesReturn := by
  constructor
  · intro h pm' hrounds
    induction h with
    | @intro pm hreturns _ ih =>
      rcases hrounds.cases_head with rfl | ⟨next, hround, hrounds'⟩
      · exact hreturns
      · exact ih next hround hrounds'
  · intro h
    induction htodo : pm.todo using Nat.strong_induction_on generalizing pm with
    | _ n ih =>
      refine .intro (h pm .refl) ?_
      intro pm' hround
      have hlt := hround.todo_lt
      exact ih pm'.todo (by omega) pm' (fun pm'' hrounds => h pm'' (.head hround hrounds)) rfl

/-! ## Outside of a sync -/

theorem opsOnReady_idle (o : Oracle K) (pm : Pacemaker K) (h : pm.syncState = .idle)
    (ready : Ready K) : ∀ op ∈ pm.opsOnReady o ready, ∀ e, op ≠ .event e := by
  rintro op hop e rfl
  rcases mem_opsOnReady hop with ⟨ctx, node, -, hop⟩ | ⟨tc, hop⟩ | ⟨view, hop⟩ | hop | ⟨hsync, -⟩
  · cases hop
  · cases hop
  · cases hop
  · cases hop
  · rw [h] at hsync
    cases hsync

theorem processReadyEvent_idle (o : Oracle K) (pm : Pacemaker K) (h : pm.syncState = .idle)
    (ready : Ready K) : (pm.processReadyEvent o ready).syncState = .idle := by
  rcases pm.processReadyEvent_cases o ready with ⟨outbox, hpm, -⟩ | ⟨ctx, node, -, hpm, -⟩ |
    ⟨outbox, timeoutView, hpm, -⟩ | ⟨leafHeight, hsync, hpm, -⟩
  · rw [hpm]
    exact h
  · rw [hpm]
    exact h
  · rw [hpm]
    exact (processLocalTimeout_idle o { pm with outbox := outbox } h timeoutView).syncState.trans h
  · rw [h] at hsync
    cases hsync

/-! ## With every block under its own hash -/

/-- The blocks of the store, of the queue and of the pending events are in `B`, and those of the
store have their hashes as keys. -/
structure BlocksIn (B : Set (TreeNode K)) (pm : Pacemaker K) : Prop where
  store : KeyedIn B pm.machine.storage.inMemQueue
  queued : ∀ ctx node, .updateQCHigh ctx node ∈ pm.readyQueue → node ∈ B
  pending : ∀ sw ∈ pm.pendingProp, ∀ x ∈ sw.se.walked, x ∈ B

/-- The proposal on top is handed over when its justify view is not above the leaf. -/
theorem opsOnCheck_release {o : Oracle K} (pm : Pacemaker K) {leafHeight : ViewNumber}
    {e : Context × TreeNode K} {rest : List (SafetyEventWrapper K)}
    (hpop : heapPop o.tie pm.pendingProp = some (pend e, rest))
    (hle : e.2.justify.view ≤ leafHeight) :
    pm.opsOnCheck o leafHeight = [.event (.recvProposal e.1 e.2)] := by
  unfold opsOnCheck releasable
  rw [hpop]
  dsimp only
  rw [toUInt64_neg_pend, if_pos hle]
  rfl

section Keyed

variable {B : Set (TreeNode K)}

theorem BlocksIn.of_frame {pm pm' : Pacemaker K} (h : BlocksIn B pm)
    (hstore : pm'.machine.storage.inMemQueue = pm.machine.storage.inMemQueue)
    (hqueue : pm'.readyQueue ⊆ pm.readyQueue) (hpending : pm'.pendingProp ⊆ pm.pendingProp) :
    BlocksIn B pm' where
  store := by
    rw [hstore]
    exact h.store
  queued := fun ctx node hmem => h.queued ctx node (hqueue hmem)
  pending := fun sw hmem => h.pending sw (hpending hmem)

theorem BlocksIn.popped {pm : Pacemaker K} (h : BlocksIn B pm) {ready : Ready K}
    {rest : List (Ready K)} (hqueue : pm.readyQueue = ready :: rest) :
    BlocksIn B { pm with readyQueue := rest } := by
  refine h.of_frame rfl ?_ fun _ hmem => hmem
  rw [hqueue]
  exact fun _ hmem => List.mem_cons_of_mem _ hmem

theorem BlocksIn.sent {pm : Pacemaker K} (h : BlocksIn B pm) (outbox : List (PeerEvent K)) :
    BlocksIn B { pm with outbox := outbox } :=
  h.of_frame rfl (fun _ hmem => hmem) fun _ hmem => hmem

theorem BlocksIn.idle {pm : Pacemaker K} (h : BlocksIn B pm) :
    BlocksIn B { pm with syncState := .idle } :=
  h.of_frame rfl (fun _ hmem => hmem) fun _ hmem => hmem

theorem BlocksIn.of_quiet {pm pm' : Pacemaker K} (h : BlocksIn B pm) (hq : Quiet pm pm') :
    BlocksIn B pm' := by
  apply h.of_frame hq.storage.inMemQueue
  · rw [hq.readyQueue]
    exact fun _ hmem => hmem
  · rw [hq.pendingProp]
    exact fun _ hmem => hmem

/-- A check after a sync hands a proposal over, and the sync stays over; or nothing happens to
the machine. -/
theorem BlocksIn.checkPendingProp (o : Oracle K) {pm : Pacemaker K} (h : BlocksIn B pm)
    (leafHeight : ViewNumber) :
    ({ pm with syncState := .idle }.checkPendingProp o leafHeight).syncState = .idle ∨
      BlocksIn B ({ pm with syncState := .idle }.checkPendingProp o leafHeight) := by
  have hpending := checkPendingProp_subset o { pm with syncState := .idle } leafHeight
  revert hpending
  unfold Pacemaker.checkPendingProp
  cases heapPop o.tie pm.pendingProp with
  | none => exact fun _ => Or.inl rfl
  | some popped =>
    obtain ⟨sw, rest⟩ := popped
    dsimp only
    split
    · intro _
      left
      unfold emitSafetyEvent
      dsimp only
      split <;> rfl
    · intro hpending
      right
      exact h.of_frame rfl (fun _ hmem => hmem) hpending

theorem BlocksIn.processLocalTimeout (o : Oracle K) {pm : Pacemaker K} (h : BlocksIn B pm)
    (timeoutView : ViewNumber) : (pm.processLocalTimeout o timeoutView).syncState = .idle ∨
      BlocksIn B (pm.processLocalTimeout o timeoutView) := by
  have hout := h.of_quiet (pm.quiet_timedOut timeoutView)
  rw [processLocalTimeout_eq]
  split
  · split
    · exact hout.checkPendingProp o _
    · exact Or.inr hout
  · exact Or.inr h

/-- What a round keeps. -/
theorem Round.blocksIn {pm pm' : Pacemaker K} (hround : Round pm pm')
    (h : pm.syncState = .idle ∨ BlocksIn B pm) : pm'.syncState = .idle ∨ BlocksIn B pm' := by
  obtain ⟨o, ready, rest, hqueue, rfl⟩ := hround
  rcases h with hidle | hblocks
  · exact Or.inl (processReadyEvent_idle o { pm with readyQueue := rest } hidle ready)
  · have hpopped := hblocks.popped hqueue
    rcases { pm with readyQueue := rest }.processReadyEvent_cases o ready with
      ⟨outbox, hpm, -⟩ | ⟨ctx, node, rfl, hpm, -⟩ | ⟨outbox, timeoutView, hpm, -⟩ |
      ⟨leafHeight, -, hpm, -⟩
    · rw [hpm]
      exact Or.inr (hpopped.sent outbox)
    · have hnode : node ∈ B := by
        apply hblocks.queued ctx
        rw [hqueue]
        exact List.mem_cons_self
      rw [hpm]
      exact Or.inr ⟨hpopped.store.updateQcHigh hnode _, hpopped.queued, hpopped.pending⟩
    · rw [hpm]
      exact (hpopped.sent outbox).processLocalTimeout o timeoutView
    · rw [hpm]
      exact hpopped.checkPendingProp o leafHeight

theorem BlocksIn.opsOnCheck_returns (hr : Ranked B) (o : Oracle K) {pm : Pacemaker K}
    (h : BlocksIn B pm) (leafHeight : ViewNumber) :
    pm.core.Returns (pm.opsOnCheck o leafHeight) := by
  unfold opsOnCheck releasable
  cases hpop : heapPop o.tie pm.pendingProp with
  | none => trivial
  | some popped =>
    obtain ⟨sw, rest⟩ := popped
    have hmem : sw ∈ pm.pendingProp := (heapPop_spec hpop).1.mem_iff.mpr List.mem_cons_self
    dsimp only
    split
    · rename_i released hreleased
      split at hreleased
      · obtain rfl := Option.some.inj hreleased
        refine ⟨?_, trivial⟩
        intro e he
        obtain rfl := Op.event.inj he
        exact Machine.returns_of_keyedIn hr h.store (h.pending _ hmem)
      · cases hreleased
    · trivial

theorem BlocksIn.opsOnTimeout_returns (hr : Ranked B) (o : Oracle K) {pm : Pacemaker K}
    (h : BlocksIn B pm) (timeoutView : ViewNumber) :
    pm.core.Returns (pm.opsOnTimeout o timeoutView) := by
  have hout := h.of_quiet (pm.quiet_timedOut timeoutView)
  unfold opsOnTimeout
  split
  · refine Run.each_append.mpr ⟨?_, ?_⟩
    · apply Core.returns_of_no_event
      intro op hop
      simp only [List.mem_cons, List.not_mem_nil, or_false] at hop
      rcases hop with rfl | rfl | rfl <;> exact fun e he => nomatch he
    · split
      · have hcheck := @opsOnCheck_congr K pm (pm.timedOut timeoutView) rfl o
        rw [← hcheck]
        exact hout.opsOnCheck_returns hr o _
      · trivial
  · trivial

theorem BlocksIn.roundReturns (hr : Ranked B) {pm : Pacemaker K} (h : BlocksIn B pm) :
    pm.RoundReturns := by
  intro o ready rest hqueue
  have hpopped := h.popped hqueue
  rcases { pm with readyQueue := rest }.processReadyEvent_cases o ready with
    ⟨outbox, -, hops⟩ | ⟨ctx, node, -, -, hops⟩ | ⟨outbox, timeoutView, -, hops⟩ |
    ⟨leafHeight, -, -, hops⟩
  · rw [hops]
    trivial
  · rw [hops]
    exact ⟨fun e he => (nomatch he), trivial⟩
  · rw [hops]
    exact (hpopped.sent outbox).opsOnTimeout_returns hr o timeoutView
  · rw [hops]
    exact hpopped.idle.opsOnCheck_returns hr o leafHeight

/-- Through all rounds: either the sync is over, or the blocks have their keys. -/
theorem releasesReturn_of_blocksIn (hr : Ranked B) {pm : Pacemaker K}
    (h : pm.syncState = .idle ∨ BlocksIn B pm) : pm.ReleasesReturn := by
  intro pm' hrounds
  have hkept : pm'.syncState = .idle ∨ BlocksIn B pm' := by
    induction hrounds with
    | refl => exact h
    | tail _ hround ih => exact hround.blocksIn ih
  rcases hkept with hidle | hblocks
  · intro o ready rest _
    exact Core.returns_of_no_event
      (opsOnReady_idle o { pm' with readyQueue := rest } hidle ready)
  · exact hblocks.roundReturns hr

end Keyed

/-- The draining loop ends exactly when the machine returns from the pending proposals that the
rounds hand to it. Outside of a sync there are none. When every block is stored under its own
hash, and SHA-256 makes no cycle of the blocks, it always returns. -/
theorem drain_ends (pm : Pacemaker K) :
    (pm.DrainEnds ↔ pm.ReleasesReturn) ∧ (pm.syncState = .idle → pm.DrainEnds) ∧
      ∀ B, Ranked B → BlocksIn B pm → pm.DrainEnds := by
  refine ⟨pm.drainEnds_iff, ?_, ?_⟩
  · intro hidle
    have hnone : Ranked (∅ : Set (TreeNode K)) := ⟨fun _ => 0, fun x hx => absurd hx (by simp)⟩
    exact pm.drainEnds_iff.mpr (releasesReturn_of_blocksIn hnone (Or.inl hidle))
  · intro B hr hblocks
    exact pm.drainEnds_iff.mpr (releasesReturn_of_blocksIn hr (Or.inr hblocks))

end Pacemaker

namespace Symbolic

open Pacemaker

/-- A replica with the genesis block, which learns that its sync is done while `a1` is pending. -/
def syncDone : Pacemaker symbolic :=
  { atGenesis with
    readyQueue := [.branchSyncDone (initNode symbolic)]
    pendingProp := [pend (ctxOf 1, a1)]
    syncState := .synchronizing }

/-- `a1` is released, and the queue drained. -/
theorem syncDone_drain_ends : syncDone.DrainEnds := by
  have hfresh : FreshStorage syncDone.machine.storage := .inMem _ _ _ _
  have hranked : Ranked {x | x ∈ [initNode symbolic, a1]} :=
    ranked_of_forall [initNode symbolic, a1] (fun x hx => hx) (by decide +kernel)
  refine (drain_ends syncDone).2.2 _ hranked ⟨⟨hfresh.keyed, ?_⟩, ?_, ?_⟩
  · exact forall_storedBlocks (by decide +kernel)
  · intro ctx node hmem
    cases List.mem_singleton.mp hmem
  · intro sw hsw
    rw [List.mem_singleton.mp hsw]
    exact fun x hx => List.mem_cons_of_mem _ hx

end Symbolic

namespace Literal

open Pacemaker

/-- A proposal on `block1`. Its justify has the signature of `INIT_QC`, so it is not verified. -/
def block3 : TreeNode literal := ⟨3, [], block1.hash, ⟨0, block1.hash, literal.zeroed⟩⟩

/-- A replica that starts with the storage `s`, and learns that a sync is done while `block3` is
pending. -/
def restarted (s : HotstuffStorage literal) : Pacemaker literal :=
  let machine := Machine.new (.new conf.threshold signaturer) conf.replicaId conf.total none s
  { Pacemaker.new conf.replicaId ⟨[conf.replicaId]⟩ machine signaturer with
    readyQueue := [.branchSyncDone s.state.leaf]
    pendingProp := [pend (.broadcast "replica-1" 3, block3)]
    syncState := .synchronizing }

/-- The event is the one the machine returns for an empty branch. -/
theorem restarted_queued (s : HotstuffStorage literal) (ctx : Context) :
    ∃ ready, ((restarted s).machine.processSafetyEvent (.branchSync ctx [])).2 = .ok ready ∧
      (restarted s).readyQueue = [ready] :=
  ⟨_, rfl, rfl⟩

/-- `block3` is released, and its walk does not get past a block stored under its own parent. -/
theorem restarted_stuck {s : HotstuffStorage literal} {prevNode : TreeNode literal}
    (hprev : s.get block1.hash = some prevNode) (hown : prevNode.parent = block1.hash)
    (hheight : 0 < prevNode.height) (hvheight : s.state.vheight = 2)
    (hlocked : s.state.bLocked.height = 0) : ¬ (restarted s).DrainEnds := by
  intro h
  have hpop : heapPop 0 (restarted s).pendingProp =
      some (pend (.broadcast "replica-1" 3, block3), []) := rfl
  have hround : (restarted s).core.Returns
      ((restarted s).opsOnCheck ⟨0, []⟩ s.state.leaf.height) :=
    (restarted s).drainEnds_iff.mp h _ .refl ⟨0, []⟩ _ [] rfl
  rw [opsOnCheck_release (o := ⟨0, []⟩) (restarted s) hpop UInt64.zero_le] at hround
  have hprop : (restarted s).machine.PropReturns block3 := hround.1 _ rfl
  have hverify : (restarted s).machine.verifyProposal block3.justify = .ok .nil := by
    have hget : (restarted s).machine.storage.get block3.justify.node = some prevNode := hprev
    unfold Machine.verifyProposal
    rw [hget]
    -- the signature is that of `INIT_QC`
    have hinit : block3.justify.isInitQc = true := by decide
    rw [hinit]
    rfl
  have hends : s.ConflictEnds block3 s.state.bLocked := by
    apply hprop _ _ hverify hprev
    show s.state.vheight < 3
    rw [hvheight]
    decide
  unfold HotstuffStorage.ConflictEnds at hends
  rw [hlocked, if_pos (by decide)] at hends
  have hparent : s.inMemQueue.lookup prevNode.parent = some prevNode := by
    rw [hown]
    exact hprev
  exact not_walkEnds_of_own_parent hparent hown.symm hheight (by decide) hends

end Literal

open Literal Pacemaker in
/-- After the restart `block2` is stored under the hash of its parent `block1`. `block3` is
released, and its walk does not get past that hash. -/
theorem restarted_drain_never_ends :
    Persisted codec conf.token Literal.db₀ proposed.settled dbProposed
      [(after voteOps).dirtyData, proposed.dirtyData] ∧
    HotstuffStorage.recover codec dbProposed conf.token dbProposed.join =
      some (rebuiltFrom dbProposed) ∧
    (∃ ready, ((restarted (rebuiltFrom dbProposed)).machine.processSafetyEvent
        (.branchSync (.broadcast "replica-1" 3) [])).2 = .ok ready ∧
      (restarted (rebuiltFrom dbProposed)).readyQueue = [ready]) ∧
    ¬ (restarted (rebuiltFrom dbProposed)).DrainEnds := by
  obtain ⟨hsome, hlookup, -, hvheight, hlocked⟩ := rebuilt_proposed
  exact ⟨persisted_proposed, recover_rebuiltFrom hsome, restarted_queued _ _,
    restarted_stuck hlookup rfl (by decide) hvheight hlocked⟩

end HotstuffConsensus
