import HotstuffConsensus.PacemakerCore
import HotstuffConsensus.ThresholdScheme
import HotstuffConsensus.Lib.Run
import Mathlib.Data.List.Perm.Basic

/-!
# Pending proposals

`pending_prop` is a max-heap, and a proposal is pushed with the negation of its justify view
cast to `i64`. `check_pending_prop` looks at one proposal of the heap, compares its justify
view with the height of the leaf and either hands it to the machine or puts it back.

* The negated views are in the reverse order of the views on each half of the `u64` range,
  and not across.
* A view that is not above the leaf says nothing about the block the justify names.
-/

namespace HotstuffConsensus

open Lib

variable {K : Crypto}

/-! ## The heap -/

theorem mem_greatest {heap : List (SafetyEventWrapper K)} {i : ℕ} :
    i ∈ greatest heap ↔ ∃ w, heap[i]? = some w ∧ ∀ w' ∈ heap, w'.view ≤ w.view := by
  unfold greatest
  rw [List.mem_filter, List.mem_range]
  constructor
  · rintro ⟨hlt, hall⟩
    rw [List.getElem?_eq_getElem hlt] at hall ⊢
    exact ⟨_, rfl, by simpa using hall⟩
  · rintro ⟨w, hw, hall⟩
    obtain ⟨hlt, -⟩ := List.getElem?_eq_some_iff.mp hw
    refine ⟨hlt, ?_⟩
    rw [hw]
    simpa using hall

/-- A heap that is not empty has a greatest entry. -/
theorem exists_greatest {heap : List (SafetyEventWrapper K)} (h : heap ≠ []) :
    ∃ w ∈ heap, ∀ w' ∈ heap, w'.view ≤ w.view := by
  induction heap with
  | nil => exact absurd rfl h
  | cons x rest ih =>
    by_cases hrest : rest = []
    · subst hrest
      exact ⟨x, List.mem_cons_self, by simp⟩
    · obtain ⟨w, hw, hall⟩ := ih hrest
      rcases Int64.le_total w.view x.view with hle | hle
      · refine ⟨x, List.mem_cons_self, ?_⟩
        intro w' hw'
        rcases List.mem_cons.mp hw' with rfl | hmem
        · exact Int64.le_refl _
        · exact Int64.le_trans (hall w' hmem) hle
      · refine ⟨w, List.mem_cons_of_mem _ hw, ?_⟩
        intro w' hw'
        rcases List.mem_cons.mp hw' with rfl | hmem
        · exact hle
        · exact hall w' hmem

/-- `pop` takes a greatest entry out and leaves the others. -/
theorem heapPop_spec {tie : ℕ} {heap rest : List (SafetyEventWrapper K)}
    {sw : SafetyEventWrapper K} (h : heapPop tie heap = some (sw, rest)) :
    heap.Perm (sw :: rest) ∧ ∀ w ∈ heap, w.view ≤ sw.view := by
  unfold heapPop at h
  cases hi : (greatest heap)[tie % (greatest heap).length]? with
  | none =>
    rw [hi] at h
    cases h
  | some i =>
    rw [hi] at h
    obtain ⟨w, hw, heq⟩ := Option.map_eq_some_iff.mp h
    obtain ⟨rfl, rfl⟩ := Prod.mk.inj heq
    obtain ⟨w', hw', hall⟩ := mem_greatest.mp (List.mem_of_getElem? hi)
    obtain rfl := Option.some.inj (hw.symm.trans hw')
    obtain ⟨hlt, rfl⟩ := List.getElem?_eq_some_iff.mp hw
    exact ⟨(List.getElem_cons_eraseIdx_perm hlt).symm, hall⟩

theorem exists_heapPop {heap : List (SafetyEventWrapper K)} (h : heap ≠ []) (tie : ℕ) :
    ∃ sw rest, heapPop tie heap = some (sw, rest) := by
  obtain ⟨w, hw, hall⟩ := exists_greatest h
  obtain ⟨i, hi⟩ := List.mem_iff_getElem?.mp hw
  have hpos : 0 < (greatest heap).length :=
    List.length_pos_of_mem (mem_greatest.mpr ⟨w, hi, hall⟩)
  have hlt := Nat.mod_lt tie hpos
  have hmem := List.getElem_mem hlt
  obtain ⟨w', hw', -⟩ := mem_greatest.mp hmem
  unfold heapPop
  rw [List.getElem?_eq_getElem hlt]
  dsimp only
  rw [hw']
  exact ⟨_, _, rfl⟩

/-! ## The check -/

/-- A proposal as `process_network_event` pushes it. -/
def pend (e : Context × TreeNode K) : SafetyEventWrapper K :=
  SafetyEventWrapper.new e.2.justify.view (.recvProposal e.1 e.2)

theorem pend_injective : Function.Injective (pend (K := K)) := by
  intro e e' h
  obtain ⟨hctx, hprop⟩ := SafetyEvent.recvProposal.inj (congrArg SafetyEventWrapper.se h)
  exact Prod.ext hctx hprop

/-- A justify view comes out of its wrapper as it went in. -/
theorem toUInt64_neg_pend (e : Context × TreeNode K) :
    (-(pend e).view).toUInt64 = e.2.justify.view := by
  show (-(-e.2.justify.view.toInt64)).toUInt64 = _
  rw [Int64.neg_neg, UInt64.toUInt64_toInt64]

namespace Pacemaker

@[simp] theorem emitSafetyEvent_pendingProp (pm : Pacemaker K) (se : SafetyEvent K) :
    (pm.emitSafetyEvent se).pendingProp = pm.pendingProp := by
  unfold emitSafetyEvent
  dsimp only
  split <;> rfl

/-- The proposal on top is handed over when its justify view is not above the leaf. -/
theorem checkPendingProp_release {o : Oracle K} (pm : Pacemaker K) {leafHeight : ViewNumber}
    {e : Context × TreeNode K} {rest : List (SafetyEventWrapper K)}
    (hpop : heapPop o.tie pm.pendingProp = some (pend e, rest))
    (hle : e.2.justify.view ≤ leafHeight) :
    pm.checkPendingProp o leafHeight =
      { pm with pendingProp := rest }.emitSafetyEvent (.recvProposal e.1 e.2) := by
  unfold checkPendingProp
  rw [hpop]
  dsimp only
  rw [toUInt64_neg_pend, if_pos hle]
  rfl

/-- Otherwise it is put back and a sync is under way. -/
theorem checkPendingProp_keep {o : Oracle K} (pm : Pacemaker K) {leafHeight : ViewNumber}
    {e : Context × TreeNode K} {rest : List (SafetyEventWrapper K)}
    (hpop : heapPop o.tie pm.pendingProp = some (pend e, rest))
    (hlt : leafHeight < e.2.justify.view) :
    (pm.checkPendingProp o leafHeight).pendingProp = rest ++ [pend e] ∧
      (pm.checkPendingProp o leafHeight).machine = pm.machine ∧
      (pm.checkPendingProp o leafHeight).readyQueue = pm.readyQueue ∧
      (pm.checkPendingProp o leafHeight).syncState = .synchronizing := by
  unfold checkPendingProp
  rw [hpop]
  dsimp only
  rw [toUInt64_neg_pend, if_neg (not_le.mpr hlt)]
  cases pm.syncState <;> exact ⟨rfl, rfl, rfl, rfl⟩

theorem checkPendingProp_none {o : Oracle K} (pm : Pacemaker K) {leafHeight : ViewNumber}
    (hpop : heapPop o.tie pm.pendingProp = none) : pm.checkPendingProp o leafHeight = pm := by
  unfold checkPendingProp
  rw [hpop]

end Pacemaker

/-! ## Order of the justify views -/

/-- The heaps that some pops leave. -/
inductive Popped (heap : List (SafetyEventWrapper K)) : List (SafetyEventWrapper K) → Prop
  | start : Popped heap heap
  | pop {tie : ℕ} {before after : List (SafetyEventWrapper K)} {sw : SafetyEventWrapper K}
      (h : Popped heap before) (hpop : heapPop tie before = some (sw, after)) : Popped heap after

/-- The negation in `SafetyEventWrapper::from`, and the one that undoes it, do not overflow,
and together give the view back. -/
def ViewKept (view : ViewNumber) : Prop :=
  view.toInt64 ≠ Int64.minValue ∧ -view.toInt64 ≠ Int64.minValue ∧
    (-(-view.toInt64)).toUInt64 = view

/-- Every pop gives a proposal of minimal justify view. -/
def PopsMinimal (pushed : List (Context × TreeNode K)) : Prop :=
  ∀ heap, Popped (pushed.map pend) heap → ∀ tie sw rest, heapPop tie heap = some (sw, rest) →
    ∃ e ∈ pushed, sw = pend e ∧
      ∀ e' ∈ pushed, pend e' ∈ heap → e.2.justify.view ≤ e'.2.justify.view

/-- A proposal whose justify view is not above the leaf is never blocked: there is one that
goes to the machine. -/
def NeverBlocks (pushed : List (Context × TreeNode K)) : Prop :=
  ∀ (o : Oracle K) (pm : Pacemaker K) (leafHeight : ViewNumber),
    Popped (pushed.map pend) pm.pendingProp →
    (∃ e ∈ pushed, pend e ∈ pm.pendingProp ∧ e.2.justify.view ≤ leafHeight) →
    ∃ sw rest, heapPop o.tie pm.pendingProp = some (sw, rest) ∧
      pm.checkPendingProp o leafHeight =
        { pm with pendingProp := rest }.emitSafetyEvent sw.se

/-- All justify views are in one half of the `u64` range. -/
def OneHalf (pushed : List (Context × TreeNode K)) : Prop :=
  (∀ e ∈ pushed, e.2.justify.view.toNat < 2 ^ 63) ∨
    ∀ e ∈ pushed, 2 ^ 63 < e.2.justify.view.toNat

theorem viewKept_iff {view : ViewNumber} : ViewKept view ↔ view.toNat ≠ 2 ^ 63 := by
  unfold ViewKept
  rw [Int64.neg_neg, UInt64.toUInt64_toInt64]
  constructor
  · rintro ⟨hmin, -, -⟩
    exact fun h => hmin (U64.toInt64_eq_minValue_iff.mpr h)
  · intro h
    have hmin : view.toInt64 ≠ Int64.minValue := fun heq => h (U64.toInt64_eq_minValue_iff.mp heq)
    refine ⟨hmin, fun hneg => hmin ?_, rfl⟩
    rw [← @Int64.neg_neg view.toInt64, hneg]
    rfl

/-- On each half of the range the order of the wrapped views is reversed. -/
theorem le_of_pend_le {e e' : Context × TreeNode K}
    (hhalf : (e.2.justify.view.toNat < 2 ^ 63 ∧ e'.2.justify.view.toNat < 2 ^ 63) ∨
      (2 ^ 63 < e.2.justify.view.toNat ∧ 2 ^ 63 < e'.2.justify.view.toNat))
    (hle : (pend e').view ≤ (pend e).view) : e.2.justify.view ≤ e'.2.justify.view := by
  have hint : (-e'.2.justify.view.toInt64).toInt ≤ (-e.2.justify.view.toInt64).toInt :=
    Int64.le_iff_toInt_le.mp hle
  rw [U64.toInt_neg_toInt64 (by omega), U64.toInt_neg_toInt64 (by omega)] at hint
  rw [UInt64.le_iff_toNat_le]
  split at hint <;> split at hint <;> omega

theorem Popped.subset {heap heap' : List (SafetyEventWrapper K)} (h : Popped heap heap') :
    heap' ⊆ heap := by
  induction h with
  | start => exact fun _ hmem => hmem
  | pop _ hpop ih =>
    intro w hw
    exact ih ((heapPop_spec hpop).1.mem_iff.mpr (List.mem_cons_of_mem _ hw))

theorem popsMinimal_of_oneHalf {pushed : List (Context × TreeNode K)} (h : OneHalf pushed) :
    PopsMinimal pushed := by
  intro heap hheap tie sw rest hpop
  obtain ⟨hperm, hmax⟩ := heapPop_spec hpop
  obtain ⟨e, he, rfl⟩ := List.mem_map.mp (hheap.subset (hperm.mem_iff.mpr List.mem_cons_self))
  refine ⟨e, he, rfl, ?_⟩
  intro e' he' hmem
  apply le_of_pend_le _ (hmax _ hmem)
  rcases h with hlow | hhigh
  · exact Or.inl ⟨hlow e he, hlow e' he'⟩
  · exact Or.inr ⟨hhigh e he, hhigh e' he'⟩

theorem neverBlocks_of_popsMinimal {pushed : List (Context × TreeNode K)}
    (h : PopsMinimal pushed) : NeverBlocks pushed := by
  rintro o pm leafHeight hpopped ⟨e', he', hmem, hle⟩
  obtain ⟨sw, rest, hpop⟩ := exists_heapPop (List.ne_nil_of_mem hmem) o.tie
  obtain ⟨e, -, rfl, hmin⟩ := h _ hpopped _ _ _ hpop
  exact ⟨pend e, rest, hpop,
    Pacemaker.checkPendingProp_release pm hpop (le_trans (hmin e' he' hmem) hle)⟩

/-- The justify views come back without overflow and in order, and none blocks a smaller one,
exactly when they are all in one half of the `u64` range. -/
theorem popsInOrder_iff_oneHalf (pushed : List (Context × TreeNode K)) :
    ((∀ e ∈ pushed, ViewKept e.2.justify.view) ∧ PopsMinimal pushed ∧ NeverBlocks pushed) ↔
      OneHalf pushed := by
  constructor
  · rintro ⟨hkept, hmin, -⟩
    by_contra hhalf
    obtain ⟨hlow, hhigh⟩ := not_or.mp hhalf
    push Not at hlow hhigh
    obtain ⟨high, hmem, hge⟩ := hlow
    obtain ⟨low, hmem', hle⟩ := hhigh
    have hhigh := viewKept_iff.mp (hkept high hmem)
    have hlow := viewKept_iff.mp (hkept low hmem')
    -- the proposal of the greater view is in front of the one of the smaller
    have hpend : pend high ∈ pushed.map pend := List.mem_map_of_mem hmem
    obtain ⟨sw, rest, hpop⟩ := exists_heapPop (List.ne_nil_of_mem hpend) 0
    obtain ⟨e, he, rfl, hfirst⟩ := hmin _ .start _ _ _ hpop
    have hfront : (pend high).view ≤ (pend e).view := (heapPop_spec hpop).2 _ hpend
    have hkey : (-high.2.justify.view.toInt64).toInt ≤ (-e.2.justify.view.toInt64).toInt :=
      Int64.le_iff_toInt_le.mp hfront
    have hfirst : e.2.justify.view.toNat ≤ low.2.justify.view.toNat :=
      UInt64.le_iff_toNat_le.mp (hfirst low hmem' (List.mem_map_of_mem hmem'))
    have hlt := high.2.justify.view.toNat_lt
    rw [U64.toInt_neg_toInt64 hhigh, U64.toInt_neg_toInt64 (by omega), if_neg (by omega),
      if_pos (by omega)] at hkey
    omega
  · intro h
    have hmin := popsMinimal_of_oneHalf h
    refine ⟨?_, hmin, neverBlocks_of_popsMinimal hmin⟩
    intro e he
    rw [viewKept_iff]
    rcases h with hlow | hhigh
    · exact (hlow e he).ne
    · exact (hhigh e he).ne'

namespace Symbolic

/-- The proposal `a2` with a justify of the given view. -/
def justifiedAt (view : ViewNumber) : Context × TreeNode symbolic :=
  (ctxOf 1, { a2 with justify := { certFor a1 with view := view } })

/-- A proposal with a justify of view `2 ^ 63 + 1` is popped before one with a justify of
view 1. -/
theorem high_view_pops_first :
    ¬ ((∀ e ∈ [justifiedAt 1, justifiedAt 0x8000000000000001], ViewKept e.2.justify.view) ∧
      PopsMinimal [justifiedAt 1, justifiedAt 0x8000000000000001] ∧
      NeverBlocks [justifiedAt 1, justifiedAt 0x8000000000000001]) := by
  rintro ⟨-, hmin, -⟩
  have hpop : (heapPop 0 ([justifiedAt 1, justifiedAt 0x8000000000000001].map pend)).map
      (fun popped => popped.1.view) = some 0x7fffffffffffffff := by decide +kernel
  obtain ⟨⟨sw, rest⟩, hsome, hview⟩ := Option.map_eq_some_iff.mp hpop
  obtain ⟨e, -, rfl, hfirst⟩ := hmin _ .start _ _ _ hsome
  have hle := hfirst (justifiedAt 1) List.mem_cons_self List.mem_cons_self
  have he : e.2.justify.view = 0x8000000000000001 := by
    rw [← toUInt64_neg_pend e, hview]
    rfl
  rw [he] at hle
  exact absurd hle (by decide)

end Symbolic

/-! ## Proposals with an unknown justify -/

namespace Pacemaker

/-- The pending events are proposals, pushed with their own justify view. -/
def PendsProposals (pm : Pacemaker K) : Prop := ∀ sw ∈ pm.pendingProp, ∃ e, sw = pend e

/-- `check_pending_prop` with the height of the current leaf. -/
def checksPending (o : Oracle K) (pm : Pacemaker K) : Pacemaker K :=
  pm.checkPendingProp o pm.machine.storage.state.leaf.height

/-- A proposal that names an unknown block stays pending, with all the others, is not handed
to the machine, and a sync is under way. -/
def KeepsUnknown (o : Oracle K) (pm : Pacemaker K) (p : TreeNode K) : Prop :=
  pm.machine.storage.get p.justify.node = none →
    (pm.checksPending o).pendingProp.Perm pm.pendingProp ∧
      (pm.checksPending o).machine = pm.machine ∧
      (pm.checksPending o).syncState = .synchronizing

/-! Nothing but proposals is ever pending. -/

theorem checkPendingProp_subset (o : Oracle K) (pm : Pacemaker K) (leafHeight : ViewNumber) :
    (pm.checkPendingProp o leafHeight).pendingProp ⊆ pm.pendingProp := by
  unfold checkPendingProp
  cases hpop : heapPop o.tie pm.pendingProp with
  | none => exact fun _ hmem => hmem
  | some popped =>
    obtain ⟨sw, rest⟩ := popped
    have hperm := (heapPop_spec hpop).1
    dsimp only
    split
    · rw [emitSafetyEvent_pendingProp]
      exact fun w hw => hperm.mem_iff.mpr (List.mem_cons_of_mem _ hw)
    · have hback : rest ++ [sw] ⊆ pm.pendingProp :=
        fun w hw => ((List.perm_append_singleton sw rest).trans hperm.symm).mem_iff.mp hw
      split <;> exact hback

theorem processLocalTimeout_subset (o : Oracle K) (pm : Pacemaker K) (timeoutView : ViewNumber) :
    (pm.processLocalTimeout o timeoutView).pendingProp ⊆ pm.pendingProp := by
  unfold processLocalTimeout
  split
  · dsimp only
    split
    · exact checkPendingProp_subset o _ _
    · exact fun _ hmem => hmem
  · exact fun _ hmem => hmem

theorem processReadyEvent_subset (o : Oracle K) (pm : Pacemaker K) (r : Ready K) :
    (pm.processReadyEvent o r).pendingProp ⊆ pm.pendingProp := by
  rcases pm.processReadyEvent_cases o r with ⟨outbox, hpm, -⟩ | ⟨ctx, node, -, hpm, -⟩ |
    ⟨outbox, timeoutView, hpm, -⟩ | ⟨leafHeight, -, hpm, -⟩
  · rw [hpm]
    exact fun _ hmem => hmem
  · rw [hpm]
    exact fun _ hmem => hmem
  · rw [hpm]
    exact processLocalTimeout_subset o { pm with outbox := outbox } timeoutView
  · rw [hpm]
    exact checkPendingProp_subset o { pm with syncState := .idle } leafHeight

/-- A proposal that arrives is one more. -/
theorem PendsProposals.push {pm : Pacemaker K} (h : pm.PendsProposals) (ctx : Context)
    (prop : TreeNode K) : PendsProposals { pm with pendingProp := pm.pendingProp ++
      [SafetyEventWrapper.new prop.justify.view (.recvProposal ctx prop)] } := by
  intro sw hsw
  rcases List.mem_append.mp hsw with hold | hnew
  · exact h sw hold
  · exact ⟨(ctx, prop), List.mem_singleton.mp hnew⟩

theorem PendsProposals.processNetworkEvent {pm : Pacemaker K} (h : pm.PendsProposals)
    (o : Oracle K) (e : PeerEvent K) : (pm.processNetworkEvent o e).PendsProposals := by
  match e with
  | .newProposal ctx prop =>
    exact fun sw hsw => h.push ctx prop sw (checkPendingProp_subset o _ _ hsw)
  | .timeout ctx tc =>
    unfold Pacemaker.processNetworkEvent
    dsimp only
    split
    · exact fun sw hsw => h sw (processLocalTimeout_subset o (pm.onStorage _) _ hsw)
    · exact h
  | .acceptProposal ctx prop (some sign) =>
    unfold Pacemaker.processNetworkEvent PendsProposals
    rw [emitSafetyEvent_pendingProp]
    exact h
  | .branchSyncResponse ctx strategy (some branch) .success =>
    unfold Pacemaker.processNetworkEvent PendsProposals
    rw [emitSafetyEvent_pendingProp]
    exact h
  | .newView ctx qcHigh =>
    unfold Pacemaker.processNetworkEvent PendsProposals
    rw [emitSafetyEvent_pendingProp]
    exact h
  | .acceptProposal ctx prop none => exact h
  | .branchSyncRequest ctx strategy => exact h
  | .branchSyncResponse ctx strategy none status => exact h
  | .branchSyncResponse ctx strategy (some branch) .proposalNonExists => exact h
  | .ping ctx cont => exact h

end Pacemaker

namespace EventLoop

theorem propose_pendingProp (pm : Pacemaker K) (cmds : List Txn) :
    (propose pm cmds).pendingProp = pm.pendingProp := by
  unfold propose Pacemaker.makeNewProposal
  dsimp only
  split <;> split <;> rfl

theorem step_pendsProposals (C : Codec K) {l : EventLoop K} (h : l.pm.PendsProposals)
    (a : LoopAction K) : (l.step C a).pm.PendsProposals := by
  unfold step
  split
  · exact h
  · unfold Pacemaker.PendsProposals
    rw [propose_pendingProp]
    exact h
  · exact h
  · exact h
  · exact h.processNetworkEvent _ _
  · exact fun sw hsw => h sw (Pacemaker.processLocalTimeout_subset _ _ _ hsw)
  · split
    · exact h
    · rename_i ready rest _
      exact fun sw hsw => h sw
        (Pacemaker.processReadyEvent_subset _ { l.pm with readyQueue := rest } ready hsw)
  · exact h
  · unfold flusherStep
    split <;> exact h
  · exact h

/-- In every state of the event loop the pending events are proposals. -/
theorem run_pendsProposals (C : Codec K) (id : ReplicaID) (elector : RoundRobinLeaderElector)
    (machine : Machine K) (signaturer : DefaultSignaturer K) (db : Database)
    (as : List (LoopAction K)) :
    (as.foldl (step C) (start (.new id elector machine signaturer) db)).pm.PendsProposals := by
  refine Run.foldl_of_kept (I := fun l : EventLoop K => l.pm.PendsProposals) ?_ ?_ as
  · exact fun sw hsw => absurd hsw List.not_mem_nil
  · exact fun l a h => step_pendsProposals C h a

end EventLoop

namespace Pacemaker

/-- A proposal with an unknown justify block is kept, and a sync started, exactly when its
justify view is above the leaf. -/
theorem keepsUnknown_iff (o : Oracle K) (pm : Pacemaker K) (ctx : Context) (p : TreeNode K)
    (rest : List (SafetyEventWrapper K))
    (hpop : heapPop o.tie pm.pendingProp = some (pend (ctx, p), rest)) :
    pm.KeepsUnknown o p ↔
      pm.machine.storage.state.leaf.height < p.justify.view ∨
        ∃ node, pm.machine.storage.get p.justify.node = some node := by
  have hperm := (heapPop_spec hpop).1
  unfold KeepsUnknown checksPending
  rcases lt_or_ge pm.machine.storage.state.leaf.height p.justify.view with hlt | hle
  · obtain ⟨hpending, hmachine, -, hsync⟩ := checkPendingProp_keep pm hpop hlt
    constructor
    · exact fun _ => Or.inl hlt
    · intro _ _
      rw [hpending]
      exact ⟨(List.perm_append_singleton _ _).trans hperm.symm, hmachine, hsync⟩
  · have hrelease : (pm.checkPendingProp o pm.machine.storage.state.leaf.height).pendingProp =
        rest := by
      rw [checkPendingProp_release pm hpop hle, emitSafetyEvent_pendingProp]
    constructor
    · intro hkeeps
      refine Or.inr (Option.ne_none_iff_exists'.mp fun hnone => ?_)
      -- the proposal is gone
      have hlength := (hkeeps hnone).1.length_eq
      rw [hrelease, hperm.length_eq, List.length_cons] at hlength
      omega
    · rintro (hlt | ⟨node, hnode⟩) hnone
      · exact absurd hlt (not_lt.mpr hle)
      · rw [hnode] at hnone
        cases hnone

end Pacemaker

namespace Symbolic

/-- A replica that has the genesis block only. -/
def atGenesis : Pacemaker symbolic :=
  Pacemaker.new (replicaId 0) ⟨[replicaId 0, replicaId 1, replicaId 2, replicaId 3]⟩ (fresh 4 0)
    (signaturer 4 0)

/-- The replica with a pending proposal of replica 1. -/
def holding (p : TreeNode symbolic) : Pacemaker symbolic :=
  { atGenesis with pendingProp := [pend (ctxOf 1, p)] }

/-- `a2` names `a1` with the view of `a1`, which is above the genesis block: it is kept. -/
theorem unknown_a1_kept : (fresh 4 0).storage.get a2.justify.node = none ∧
    (holding a2).KeepsUnknown ⟨0, []⟩ a2 := by
  refine ⟨by decide +kernel, ?_⟩
  exact (Pacemaker.keepsUnknown_iff ⟨0, []⟩ (holding a2) (ctxOf 1) a2 [] rfl).mpr
    (Or.inl (by decide +kernel))

/-- A proposal that names `a1` with view 0 is handed to the machine, which rejects it, and no
sync is started. -/
theorem unknown_a1_lost : (fresh 4 0).storage.get (justifiedAt 0).2.justify.node = none ∧
    ¬ (holding (justifiedAt 0).2).KeepsUnknown ⟨0, []⟩ (justifiedAt 0).2 := by
  have hnone : (fresh 4 0).storage.get (justifiedAt 0).2.justify.node = none := by decide +kernel
  refine ⟨hnone, fun hkeeps => ?_⟩
  have hidle : ((holding (justifiedAt 0).2).checksPending ⟨0, []⟩).syncState = .idle := by
    decide +kernel
  rw [(hkeeps hnone).2.2] at hidle
  cases hidle

end Symbolic

end HotstuffConsensus
