import HotstuffConsensus.Pacemaker
import HotstuffConsensus.ThresholdScheme
import HotstuffConsensus.Lib.SortDedup

/-!
# What a branch sync fetches

A replica that receives a proposal ahead of its leaf asks the leader for the blocks above the
height of the leaf, and `fetch_branch` returns all of those. The height is all the leader learns
of the requester's store: a block that the requester lacks is fetched exactly when it is above
the requester's leaf, and a leaf on another branch may be above what is missing.

Nor does the leader choose a branch: `fetch_branch` returns what is above the height on every
fork, past its own leaf and past the batch size. `fetchesBranch_isBranch_iff` says for which
stores the result is the documented branch all the same.
-/

namespace HotstuffConsensus

open Lib

variable {K : Crypto}

namespace HotstuffStorage

/-- The block that the justify of `p` names, and its ancestors by justify links, as far as they
are stored. -/
inductive JustifyAncestor (s : HotstuffStorage K) (p : TreeNode K) : TreeNode K → Prop
  | named {x : TreeNode K} (h : s.get p.justify.node = some x) : JustifyAncestor s p x
  | justify {y x : TreeNode K} (hy : JustifyAncestor s p y) (h : s.get y.justify.node = some x) :
      JustifyAncestor s p x

theorem JustifyAncestor.stored {s : HotstuffStorage K} {p x : TreeNode K}
    (h : JustifyAncestor s p x) : x ∈ HashMap.values s.inMemQueue := by
  rw [HashMap.mem_values]
  cases h with
  | named h => exact ⟨_, h⟩
  | justify _ h => exact ⟨_, h⟩

/-- A fetched branch has the stored blocks above `grow_from`, and no others. -/
theorem FetchesBranch.mem_iff {s : HotstuffStorage K} {strategy : BranchSyncStrategy}
    {branch : List (TreeNode K)} (h : s.FetchesBranch strategy branch) {x : TreeNode K} :
    x ∈ branch ↔ x ∈ HashMap.values s.inMemQueue ∧ strategy.growFrom < x.height := by
  rw [← Multiset.mem_coe, h.1, Multiset.mem_filter]

/-- What `requester` lacks of the blocks behind `p` that `responder` stores. -/
def Missing (requester responder : HotstuffStorage K) (p x : TreeNode K) : Prop :=
  responder.JustifyAncestor p x ∧ requester.get x.hash = none

/-- The strategy of the request that `requester` sends. -/
def syncStrategy (requester : HotstuffStorage K) : BranchSyncStrategy :=
  ⟨requester.state.leaf.height, batchSize⟩

/-- It is enough to look at all blocks of the responder. -/
theorem missing_above {requester responder : HotstuffStorage K}
    (h : ∀ x ∈ HashMap.values responder.inMemQueue, requester.get x.hash = none →
      requester.state.leaf.height < x.height) (p : TreeNode K) :
    ∀ x, Missing requester responder p x → requester.state.leaf.height < x.height := by
  intro x hx
  exact h x hx.1.stored hx.2

/-- A branch sync fetches all that is missing exactly when all that is missing is above the
requester's leaf. -/
theorem fetches_missing_iff (requester responder : HotstuffStorage K) (p : TreeNode K)
    (branch : List (TreeNode K))
    (hbranch : responder.FetchesBranch requester.syncStrategy branch) :
    (∀ x, Missing requester responder p x → x ∈ branch) ↔
      ∀ x, Missing requester responder p x → requester.state.leaf.height < x.height := by
  refine forall₂_congr ?_
  intro x hx
  rw [hbranch.mem_iff]
  exact and_iff_right hx.1.stored

end HotstuffStorage

/-! ## The request -/

/-- The strategy of a branch sync request. -/
def PeerEvent.request : PeerEvent K → Option BranchSyncStrategy
  | .branchSyncRequest _ strategy => some strategy
  | _ => none

namespace Pacemaker

theorem emitSafetyEvent_outbox (pm : Pacemaker K) (se : SafetyEvent K) :
    (pm.emitSafetyEvent se).outbox = pm.outbox := by
  unfold emitSafetyEvent
  dsimp only
  split <;> rfl

/-- `check_pending_prop` asks for the blocks above `leafHeight`, if it asks for any. -/
theorem checkPendingProp_outbox (o : Oracle K) (pm : Pacemaker K) (leafHeight : ViewNumber) :
    (pm.checkPendingProp o leafHeight).outbox = pm.outbox ∨
      ∃ ctx, (pm.checkPendingProp o leafHeight).outbox =
        pm.outbox ++ [.branchSyncRequest ctx ⟨leafHeight, batchSize⟩] := by
  unfold checkPendingProp
  split
  · dsimp only
    split
    · exact Or.inl (emitSafetyEvent_outbox _ _)
    · split
      · exact Or.inr ⟨_, rfl⟩
      · exact Or.inl rfl
  · exact Or.inl rfl

/-- What a replica asks for when a proposal arrives. -/
theorem newProposal_request (o : Oracle K) (pm : Pacemaker K) (ctx : Context) (p : TreeNode K) :
    (pm.processNetworkEvent o (.newProposal ctx p)).outbox = pm.outbox ∨
      ∃ ctx', (pm.processNetworkEvent o (.newProposal ctx p)).outbox =
        pm.outbox ++ [.branchSyncRequest ctx' pm.machine.storage.syncStrategy] :=
  checkPendingProp_outbox o
    { pm with pendingProp := pm.pendingProp ++
        [SafetyEventWrapper.new p.justify.view (.recvProposal ctx p)] } _

end Pacemaker

namespace Symbolic

open HotstuffStorage

/-- A fork: two blocks on the genesis block, without `a1`. -/
def b3 : TreeNode symbolic := block 12 3 (initNodeHash symbolic) (initQc symbolic)

@[inherit_doc b3]
def b4 : TreeNode symbolic := block 13 4 b3.hash (certFor b3)

/-- Blocks on `a1`, above the fork. -/
def a6 : TreeNode symbolic := block 10 6 a1.hash (certFor a1)

@[inherit_doc a6]
def a7 : TreeNode symbolic := block 11 7 a6.hash (certFor a6)

/-- Replica 0 has the fork, and `b3` for its leaf. -/
def onFork : Machine symbolic := (fresh 4 0).run [deliver b3, deliver b4]

/-- Replica 1 has `a1` and `a6`. -/
def onMain : Machine symbolic := (fresh 4 1).run [deliver a1, deliver a6]

/-- The pacemaker of replica 0 when `a7` has arrived. -/
def afterA7 : Pacemaker symbolic :=
  (Pacemaker.new (replicaId 0) ⟨[replicaId 0, replicaId 1, replicaId 2, replicaId 3]⟩ onFork
    (signaturer 4 0)).processNetworkEvent ⟨0, []⟩ (.newProposal (ctxOf 1) a7)

/-- Replica 0 asks for the blocks above its leaf, and replica 1 answers with `a6`; `a1` behind
it, which replica 0 does not have, is not fetched. -/
theorem missing_block_not_fetched :
    afterA7.outbox.filterMap PeerEvent.request = [onFork.storage.syncStrategy] ∧
      onMain.storage.get a7.justify.node = some a6 ∧
      onMain.storage.get a6.justify.node = some a1 ∧
      onMain.storage.get a1.justify.node = some (initNode symbolic) ∧
      onMain.storage.FetchesBranch onFork.storage.syncStrategy [a6] ∧
      ¬ ∀ x, Missing onFork.storage onMain.storage a7 x → x ∈ [a6] := by
  have ha6 : onMain.storage.get a7.justify.node = some a6 := by decide +kernel
  have ha1 : onMain.storage.get a6.justify.node = some a1 := by decide +kernel
  have hmissing : Missing onFork.storage onMain.storage a7 a1 :=
    ⟨.justify (.named ha6) ha1, by decide +kernel⟩
  refine ⟨by decide +kernel, ha6, ha1, by decide +kernel, ⟨by decide +kernel, ?_⟩, ?_⟩
  · exact List.pairwise_singleton _ _
  · intro h
    exact absurd (h a1 hmissing) (by decide +kernel)

/-- Replica 1 with the chain up to `a3`. -/
def withChain : Machine symbolic := (fresh 4 1).run [deliver a1, deliver a2, deliver a3]

/-- A replica that has the genesis block only gets the chain behind `a4`. -/
theorem chain_fetched_from_genesis :
    Missing (fresh 4 0).storage withChain.storage a4 a3 ∧
      ∀ x, Missing (fresh 4 0).storage withChain.storage a4 x → x ∈ [a1, a2, a3] := by
  have hbranch : withChain.storage.FetchesBranch (fresh 4 0).storage.syncStrategy
      [a1, a2, a3] := ⟨by decide +kernel, by decide +kernel⟩
  have habove : ∀ x ∈ HashMap.values withChain.storage.inMemQueue,
      (fresh 4 0).storage.get x.hash = none →
        (fresh 4 0).storage.state.leaf.height < x.height := by decide +kernel
  refine ⟨⟨.named (by decide +kernel), by decide +kernel⟩, ?_⟩
  exact (fetches_missing_iff (fresh 4 0).storage withChain.storage a4 _ hbranch).mpr
    (missing_above habove a4)

end Symbolic

/-! ## One branch -/

namespace HotstuffStorage

/-- The documented result of `fetch_branch`: a branch of stored blocks above `grow_from`, up to
the responder's leaf and to the batch size. -/
structure IsBranch (s : HotstuffStorage K) (strategy : BranchSyncStrategy)
    (branch : List (TreeNode K)) : Prop where
  sorted : branch.Pairwise fun a b => a.height ≤ b.height
  stored : ∀ x ∈ branch, x ∈ HashMap.values s.inMemQueue
  above : ∀ x ∈ branch, strategy.growFrom < x.height
  upToLeaf : ∀ x ∈ branch, x.height ≤ s.state.leaf.height
  batch : branch.length ≤ strategy.batchSize
  linked : branch.IsChain fun a b => b.parent = a.hash

/-- The stored blocks above `grow_from`. -/
def blocksAbove (s : HotstuffStorage K) (growFrom : ViewNumber) : Multiset (TreeNode K) :=
  (HashMap.values s.inMemQueue).filter fun x => growFrom < x.height

/-- What is stored above `grow_from` is one branch, no longer than the batch and not past the
leaf: of two stored blocks with no height between theirs, the lower is the parent of the
higher. -/
structure SingleBranch (s : HotstuffStorage K) (strategy : BranchSyncStrategy) : Prop where
  batch : Multiset.card (s.blocksAbove strategy.growFrom) ≤ strategy.batchSize
  upToLeaf : ∀ x ∈ s.blocksAbove strategy.growFrom, x.height ≤ s.state.leaf.height
  linked : ∀ a b, {a, b} ≤ s.blocksAbove strategy.growFrom → a.height ≤ b.height →
    (∀ c ∈ s.blocksAbove strategy.growFrom, a.height < c.height → b.height ≤ c.height) →
    b.parent = a.hash

variable {s : HotstuffStorage K} {strategy : BranchSyncStrategy} {branch : List (TreeNode K)}

/-- `fetch_branch` returns something. -/
theorem exists_fetchesBranch (s : HotstuffStorage K) (strategy : BranchSyncStrategy) :
    ∃ branch, s.FetchesBranch strategy branch := by
  obtain ⟨l, hl⟩ := Quot.exists_rep (s.blocksAbove strategy.growFrom)
  obtain ⟨branch, hperm, hsorted⟩ := SortDedup.exists_sortedBy TreeNode.height l
  exact ⟨branch, (Multiset.coe_eq_coe.mpr hperm).trans hl, hsorted⟩

/-- Two stored blocks with no height between theirs may be returned next to each other. -/
theorem exists_fetchesBranch_adjacent {a b : TreeNode K}
    (hab : {a, b} ≤ s.blocksAbove strategy.growFrom) (hle : a.height ≤ b.height)
    (hbetween : ∀ c ∈ s.blocksAbove strategy.growFrom, a.height < c.height →
      b.height ≤ c.height) :
    ∃ l₁ l₂, s.FetchesBranch strategy (l₁ ++ a :: b :: l₂) := by
  obtain ⟨rest, hrest⟩ := Multiset.le_iff_exists_add.mp hab
  obtain ⟨l, rfl⟩ := Quot.exists_rep rest
  have hmem : ∀ c ∈ l, c ∈ s.blocksAbove strategy.growFrom := by
    intro c hc
    rw [hrest]
    exact Multiset.mem_add.mpr (Or.inr hc)
  obtain ⟨l₁, l₂, hperm, hsorted⟩ := SortDedup.exists_sortedBy_adjacent TreeNode.height hle
    fun c hc => hbetween c (hmem c hc)
  exact ⟨l₁, l₂, (Multiset.coe_eq_coe.mpr hperm).trans hrest.symm, hsorted⟩

/-- A sorted arrangement of one branch has its links between neighbours. -/
theorem SingleBranch.isChain (h : s.SingleBranch strategy)
    (hbranch : s.FetchesBranch strategy branch) :
    branch.IsChain fun a b => b.parent = a.hash := by
  obtain ⟨hall, hsorted⟩ := hbranch
  rw [List.isChain_iff_forall_rel_of_append_cons_cons]
  rintro a b l₁ l₂ rfl
  have hsub : {a, b} ≤ s.blocksAbove strategy.growFrom := by
    unfold blocksAbove
    rw [← hall]
    apply Multiset.coe_le.mpr
    exact ((((List.nil_sublist l₂).cons_cons b).cons_cons a).trans
      (List.sublist_append_right l₁ _)).subperm
  rw [List.pairwise_append, List.pairwise_cons, List.pairwise_cons] at hsorted
  obtain ⟨-, ⟨ha, hb, -⟩, hlow⟩ := hsorted
  refine h.linked a b hsub (ha b (by simp)) ?_
  intro c hc hac
  unfold blocksAbove at hc
  rw [← hall, Multiset.mem_coe, List.mem_append, List.mem_cons, List.mem_cons] at hc
  rcases hc with hc | rfl | rfl | hc
  · exact absurd hac (not_lt.mpr (hlow c hc a (by simp)))
  · exact absurd hac (lt_irrefl _)
  · exact le_rfl
  · exact hb c hc

/-- `fetch_branch` can only return the documented branch exactly when what is stored above
`grow_from` is one. -/
theorem fetchesBranch_isBranch_iff (s : HotstuffStorage K) (strategy : BranchSyncStrategy) :
    (∀ branch, s.FetchesBranch strategy branch → s.IsBranch strategy branch) ↔
      s.SingleBranch strategy := by
  constructor
  · intro h
    obtain ⟨branch, hbranch⟩ := exists_fetchesBranch s strategy
    have hcard : Multiset.card (s.blocksAbove strategy.growFrom) = branch.length := by
      unfold blocksAbove
      rw [← hbranch.1]
      rfl
    refine ⟨hcard ▸ (h branch hbranch).batch, ?_, ?_⟩
    · intro x hx
      exact (h branch hbranch).upToLeaf x (hbranch.mem_iff.mpr (Multiset.mem_filter.mp hx))
    · intro a b hab hle hbetween
      obtain ⟨l₁, l₂, hadj⟩ := exists_fetchesBranch_adjacent hab hle hbetween
      exact (List.isChain_append_cons_cons.mp (h _ hadj).linked).2.1
  · intro h branch hbranch
    have hmem : ∀ x ∈ branch, x ∈ s.blocksAbove strategy.growFrom :=
      fun x hx => Multiset.mem_filter.mpr (hbranch.mem_iff.mp hx)
    refine ⟨hbranch.2, ?_, ?_, ?_, ?_, h.isChain hbranch⟩
    · exact fun x hx => (hbranch.mem_iff.mp hx).1
    · exact fun x hx => (hbranch.mem_iff.mp hx).2
    · exact fun x hx => h.upToLeaf x (hmem x hx)
    · have hcard := h.batch
      unfold blocksAbove at hcard
      rw [← hbranch.1] at hcard
      exact hcard

end HotstuffStorage

open Symbolic in
/-- Replica 0 has two blocks on `a1`. All three are returned where a batch of two was asked for,
two of them above the leaf `a1`, and the last is no child of the one before it. -/
theorem not_fetchesBranch_isBranch :
    ((fresh 4 0).run [deliver a1, deliver a2, deliver a2']).storage.FetchesBranch ⟨0, 2⟩
        [a1, a2, a2'] ∧
      ((fresh 4 0).run [deliver a1, deliver a2, deliver a2']).storage.state.leaf.height = 1 ∧
      a2'.parent ≠ a2.hash ∧
      ¬ ((fresh 4 0).run [deliver a1, deliver a2, deliver a2']).storage.IsBranch ⟨0, 2⟩
        [a1, a2, a2'] := by
  refine ⟨⟨by decide +kernel, by decide +kernel⟩, by decide +kernel, by decide +kernel, ?_⟩
  intro h
  exact absurd h.batch (by decide)

end HotstuffConsensus
