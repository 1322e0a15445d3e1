import HotstuffConsensus.PacemakerTheorems
import HotstuffConsensus.PendingProposals

/-!
# The view after a timeout

`process_local_timeout(v)` goes to view `v + 1`, unless the pacemaker is past `v`. The sum is
taken in `u64`, and `v` may be the height of any proposal the machine signs, so that the view
moves on for every `v` but the last.
-/

namespace HotstuffConsensus

open Lib

variable {K : Crypto}

namespace Pacemaker

@[simp] theorem emitSafetyEvent_view (pm : Pacemaker K) (se : SafetyEvent K) :
    (pm.emitSafetyEvent se).view = pm.view := by
  unfold emitSafetyEvent
  dsimp only
  split <;> rfl

theorem checkPendingProp_view (o : Oracle K) (pm : Pacemaker K) (leafHeight : ViewNumber) :
    (pm.checkPendingProp o leafHeight).view = pm.view := by
  unfold checkPendingProp
  cases heapPop o.tie pm.pendingProp with
  | none => rfl
  | some popped =>
    dsimp only
    split
    · exact emitSafetyEvent_view _ _
    · split <;> rfl

theorem processLocalTimeout_view (o : Oracle K) (pm : Pacemaker K) (v : ViewNumber) :
    (pm.processLocalTimeout o v).view = if pm.view ≤ v then max pm.view (v + 1) else pm.view := by
  rw [processLocalTimeout_eq]
  by_cases hle : pm.view ≤ v
  · rw [if_pos hle, if_pos hle]
    cases (pm.timedOut v).syncState with
    | synchronizing => exact checkPendingProp_view o { pm.timedOut v with syncState := .idle } _
    | idle => rfl
  · rw [if_neg hle, if_neg hle]

/-- A timeout of the current view or a later one leads to the view after it, without overflow.
An earlier one changes nothing. -/
def TimeoutAdvances (o : Oracle K) (pm : Pacemaker K) (v : ViewNumber) : Prop :=
  (pm.view ≤ v → v.toNat + 1 < 2 ^ 64 ∧ (pm.processLocalTimeout o v).view.toNat = v.toNat + 1) ∧
    (v < pm.view → (pm.processLocalTimeout o v).view = pm.view)

/-- Once the signature of a proposal of height `v` is on its way to another replica, the view
is past `v`. -/
def SignatureAdvances (o : Oracle K) (pm : Pacemaker K) (v : ViewNumber) : Prop :=
  ∀ ctx (p : TreeNode K) sign, p.height = v → pm.toOther ctx = true →
    v < (pm.processReadyEvent o (.signature ctx p sign)).view

theorem timeoutAdvances_of_ne (o : Oracle K) (pm : Pacemaker K) {v : ViewNumber}
    (hv : v ≠ U64.maxValue) : pm.TimeoutAdvances o v := by
  have hlt : v.toNat + 1 < 2 ^ 64 := U64.toNat_add_one_lt hv
  constructor
  · intro hle
    refine ⟨hlt, ?_⟩
    rw [processLocalTimeout_view, if_pos hle,
      max_eq_right (le_trans hle (U64.lt_add_one hv).le), UInt64.toNat_add]
    exact Nat.mod_eq_of_lt hlt
  · intro hpast
    rw [processLocalTimeout_view, if_neg (not_le.mpr hpast)]

theorem signatureAdvances_of_ne (o : Oracle K) (pm : Pacemaker K) {v : ViewNumber}
    (hv : v ≠ U64.maxValue) : pm.SignatureAdvances o v := by
  intro ctx p sign hp hto
  have hview : (pm.processReadyEvent o (.signature ctx p sign)).view =
      if pm.view ≤ v then max pm.view (v + 1) else pm.view := by
    unfold processReadyEvent
    dsimp only
    rw [if_pos (show (pm.emitPeerEvent (.acceptProposal ctx p (some sign))).toOther ctx = true
      from hto), hp]
    exact processLocalTimeout_view o _ v
  rw [hview]
  split
  · exact lt_of_lt_of_le (U64.lt_add_one hv) (le_max_right _ _)
  · rename_i hpast
    exact not_le.mp hpast

/-- Timeouts and signatures advance the view as they should for every view but the greatest. -/
theorem view_advances_iff (o : Oracle K) (pm : Pacemaker K) (v : ViewNumber) :
    (pm.TimeoutAdvances o v ∧ pm.SignatureAdvances o v) ↔ v ≠ U64.maxValue := by
  constructor
  · rintro ⟨htimeout, -⟩ rfl
    have hle : pm.view ≤ U64.maxValue :=
      UInt64.le_iff_toNat_le.mpr (Nat.le_of_lt_succ pm.view.toNat_lt)
    have hlt : U64.maxValue.toNat + 1 < 2 ^ 64 := (htimeout.1 hle).1
    exact absurd hlt (by decide)
  · exact fun hv => ⟨timeoutAdvances_of_ne o pm hv, signatureAdvances_of_ne o pm hv⟩

end Pacemaker

namespace Symbolic

open Pacemaker

/-- A block of the greatest height on the genesis block. -/
def topBlock : TreeNode symbolic :=
  block 1 U64.maxValue (initNodeHash symbolic) (initQc symbolic)

/-- A fresh replica signs a block of the greatest height, and neither its signature nor a timeout
of that view takes the replica past it. -/
theorem topBlock_signed_not_passed :
    (∃ sign, ((fresh 4 0).onRecvProposal (ctxOf 1) topBlock topBlock.justify).2 =
      .ok (.signature (.single (replicaId 0) (replicaId 1) 0) topBlock sign)) ∧
    ¬ atGenesis.SignatureAdvances ⟨0, []⟩ topBlock.height ∧
    ¬ atGenesis.TimeoutAdvances ⟨0, []⟩ topBlock.height := by
  have hverify : ∃ r, (fresh 4 0).verifyProposal topBlock.justify = .ok r :=
    Machine.verifyProposal_isOk.mpr ⟨initNode symbolic, by decide +kernel, Or.inl (by decide +kernel)⟩
  have haccepts : (fresh 4 0).accepts topBlock = true := by decide +kernel
  obtain ⟨r, hr⟩ := hverify
  refine ⟨⟨(fresh 4 0).voter.sign topBlock, ?_⟩, ?_, ?_⟩
  · rw [Machine.onRecvProposal_eq, hr]
    dsimp only
    rw [if_pos haccepts]
    rfl
  · intro h
    have hpast := h (.single (replicaId 0) (replicaId 1) 0) topBlock (voteBy 0 topBlock) rfl
      (by decide +kernel)
    exact absurd hpast (by decide +kernel)
  · intro h
    exact absurd (h.1 (by decide +kernel)).1 (by decide +kernel)

end Symbolic

end HotstuffConsensus
