import HotstuffConsensus.CommitRule
import HotstuffConsensus.Justify
import HotstuffConsensus.Driver
import HotstuffConsensus.Persistence

/-!
# Branch sync as a sequence of proposals

`on_branch_sync` and `on_recv_proposal` are written separately, and do the same with a node:
a branch is the replay of its nodes as proposals, up to the first that is rejected. So a
branch that is processed to its end may be cut into batches.
-/

namespace HotstuffConsensus

open Lib

variable {K : Crypto}

namespace Machine

/-! ## The replay -/

/-- The deliveries are handed to `on_recv_proposal` one by one, up to the first that is
rejected as `CorruptedQC`. -/
def replay (m : Machine K) : List (Context × TreeNode K) → Machine K
  | [] => m
  | (ctx, prop) :: deliveries =>
    match m.onRecvProposal ctx prop prop.justify with
    | (_, .error .corruptedQC) => m
    | (m, _) => m.replay deliveries

/-- `verify_proposal` has one error. -/
theorem verifyProposal_error {m : Machine K} {qc : GenericQC K} {e : SafetyErr}
    (h : m.verifyProposal qc = .error e) : e = .corruptedQC := by
  unfold verifyProposal at h
  split at h
  · split at h
    · exact (Except.error.inj h).symm
    · cases h
  · exact (Except.error.inj h).symm

/-- The two loops take the same steps. -/
theorem syncNodes_eq_replay (m : Machine K) (deliveries : List (Context × TreeNode K)) :
    m.syncNodes (deliveries.map Prod.snd) = m.replay deliveries := by
  induction deliveries generalizing m with
  | nil => rfl
  | cons d deliveries ih =>
    obtain ⟨ctx, prop⟩ := d
    rw [List.map_cons]
    unfold syncNodes replay
    rw [syncNode_eq, onRecvProposal_eq]
    cases hv : m.verifyProposal prop.justify with
    | error e => rw [verifyProposal_error hv]
    | ok r => exact ih (m.processProp prop)

/-- The loop gets through the whole branch: no round of it breaks. -/
def Completes (m : Machine K) (branch : List (TreeNode K)) : Prop :=
  ∀ round ∈ m.rounds branch, (round.1.syncNode round.2).isSome

theorem completes_cons {m m' : Machine K} {p : TreeNode K} {branch : List (TreeNode K)}
    (h : m.syncNode p = some m') : m.Completes (p :: branch) ↔ m'.Completes branch := by
  unfold Completes
  rw [rounds, h]
  simp only [List.mem_cons, forall_eq_or_imp, h, Option.isSome_some, true_and]

theorem syncNodes_cons {m m' : Machine K} {p : TreeNode K} (h : m.syncNode p = some m')
    (branch : List (TreeNode K)) : m.syncNodes (p :: branch) = m'.syncNodes branch := by
  rw [syncNodes, h]

/-- A first part that is processed to its end is a batch of its own. -/
theorem syncNodes_append {m : Machine K} {first rest : List (TreeNode K)}
    (h : m.Completes (first ++ rest)) :
    m.syncNodes (first ++ rest) = (m.syncNodes first).syncNodes rest ∧
      (m.syncNodes first).Completes rest := by
  induction first generalizing m with
  | nil => exact ⟨rfl, h⟩
  | cons p first ih =>
    have hp : (m.syncNode p).isSome := h (m, p) List.mem_cons_self
    obtain ⟨m', hm'⟩ := Option.isSome_iff_exists.mp hp
    rw [List.cons_append] at h ⊢
    rw [syncNodes_cons hm', syncNodes_cons hm']
    exact ih ((completes_cons hm').mp h)

/-- Batches of a branch that is processed to its end. -/
theorem syncNodes_flatten {m : Machine K} (batches : List (List (TreeNode K)))
    (h : m.Completes batches.flatten) :
    m.syncNodes batches.flatten = batches.foldl (fun m batch => m.syncNodes batch) m := by
  induction batches generalizing m with
  | nil => rfl
  | cons batch batches ih =>
    rw [List.flatten_cons] at h ⊢
    obtain ⟨happend, hrest⟩ := syncNodes_append h
    rw [happend]
    exact ih hrest

/-- Branch sync is the replay of the branch as proposals, whatever contexts these come with,
and a branch whose nodes are all processed may come in any batches. -/
theorem onBranchSync_eq_replay (m : Machine K) :
    (∀ deliveries : List (Context × TreeNode K),
      (m.onBranchSync (deliveries.map Prod.snd)).1.storage = (m.replay deliveries).storage) ∧
    ∀ batches : List (List (TreeNode K)), m.Completes batches.flatten →
      (batches.foldl (fun m batch => (m.onBranchSync batch).1) m).storage =
        (m.onBranchSync batches.flatten).1.storage := by
  constructor
  · intro deliveries
    show (m.syncNodes (deliveries.map Prod.snd)).storage = _
    rw [syncNodes_eq_replay]
  · intro batches h
    show _ = (m.syncNodes batches.flatten).storage
    rw [syncNodes_flatten batches h]
    rfl

open Symbolic in
/-- A chain of three that comes in two batches. -/
theorem batches_of_chain :
    ([[a1], [a2, a3]].foldl (fun m batch => (m.onBranchSync batch).1) (fresh 4 0)).storage =
      ((fresh 4 0).onBranchSync [[a1], [a2, a3]].flatten).1.storage := by
  refine (onBranchSync_eq_replay (fresh 4 0)).2 [[a1], [a2, a3]] ?_
  show ∀ round ∈ (fresh 4 0).rounds [a1, a2, a3], (round.1.syncNode round.2).isSome
  decide +kernel

end Machine

end HotstuffConsensus
