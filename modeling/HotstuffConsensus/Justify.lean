import HotstuffConsensus.MachineTheorems
import HotstuffConsensus.ThresholdScheme

/-!
# Forged justifications

`verify_proposal` skips the signature check when `is_init_qc` holds, on the ground that
only the genesis certificate carries no signature. `is_init_qc` compares bytes 32 to 63
of the encoded signature and nothing else, so a certificate for any stored block is
exempt when it carries the all-zero signature.

A proposal is let through without a justification exactly when it uses this exemption
(`Exempted`), be it delivered alone or within a branch.
-/

namespace HotstuffConsensus

variable {K : Crypto}

namespace Machine

/-- The certificate is the genesis one, or `validate_qc` accepts it for the stored block
it names. -/
def Justified (m : Machine K) (qc : GenericQC K) : Prop :=
  qc = initQc K ∨
    ∃ node, m.storage.get qc.node = some node ∧ m.voter.validateQc node qc.combinedSign = true

/-- The certificate names a stored block, is not the genesis certificate, passes for it
in `is_init_qc`, and its signature is not valid. -/
def Exempted (m : Machine K) (qc : GenericQC K) : Prop :=
  qc.isInitQc = true ∧ qc ≠ initQc K ∧
    ∃ node, m.storage.get qc.node = some node ∧ m.voter.validateQc node qc.combinedSign = false

/-- The rounds of the loop of `on_branch_sync`: the nodes it gets to, each with the
machine at the start of the round. The last one may be the one it breaks at. -/
def rounds (m : Machine K) : List (TreeNode K) → List (Machine K × TreeNode K)
  | [] => []
  | prop :: branch =>
    (m, prop) ::
      match m.syncNode prop with
      | none => []
      | some m => m.rounds branch

/-- The rounds are those of the loop: running them one by one ends where the loop ends. -/
theorem syncNodes_eq_foldl_rounds (m : Machine K) (branch : List (TreeNode K)) :
    m.syncNodes branch =
      (m.rounds branch).foldl (fun m round => (m.syncNode round.2).getD m) m := by
  induction branch generalizing m with
  | nil => rfl
  | cons prop branch ih =>
    unfold syncNodes rounds
    rw [List.foldl_cons]
    cases h : m.syncNode prop with
    | none => rfl
    | some m' => exact ih m'

/-- A round processes its node when `verify_proposal` lets the certificate through. -/
theorem syncNode_isSome {m : Machine K} {prop : TreeNode K} :
    (m.syncNode prop).isSome ↔ ∃ r, m.verifyProposal prop.justify = .ok r := by
  rw [syncNode_eq]
  cases m.verifyProposal prop.justify with
  | ok r => simp
  | error e => simp

theorem onRecvProposal_isOk {m : Machine K} {ctx : Context} {prop : TreeNode K} :
    (∃ r, (m.onRecvProposal ctx prop prop.justify).2 = .ok r) ↔
      ∃ r, m.verifyProposal prop.justify = .ok r := by
  rw [onRecvProposal_eq]
  cases m.verifyProposal prop.justify with
  | ok r => simp
  | error e => simp

/-- What `verify_proposal` lets through is justified unless it is exempted. -/
theorem justified_of_verified_iff (m : Machine K) (qc : GenericQC K) :
    ((∃ r, m.verifyProposal qc = .ok r) → Justified m qc) ↔ ¬ Exempted m qc := by
  rw [verifyProposal_isOk]
  constructor
  · intro h hex
    obtain ⟨hi, hne, node, hnode, hinv⟩ := hex
    rcases h ⟨node, hnode, Or.inl hi⟩ with heq | ⟨node', hnode', hval⟩
    · exact hne heq
    · rw [hnode] at hnode'
      obtain rfl := Option.some.inj hnode'
      rw [hinv] at hval
      cases hval
  · intro hex hok
    obtain ⟨node, hnode, hor⟩ := hok
    by_cases heq : qc = initQc K
    · exact Or.inl heq
    · refine Or.inr ⟨node, hnode, ?_⟩
      rcases hor with hi | hval
      · by_contra hinv
        exact hex ⟨hi, heq, node, hnode, Bool.eq_false_iff.mpr hinv⟩
      · exact hval

/-- A proposal that is not rejected is justified exactly when it does not use the
exemption, and so are the nodes a branch sync processes. -/
theorem justified_iff_not_exempted (m : Machine K) (ctx : Context) (prop : TreeNode K)
    (branch : List (TreeNode K)) :
    (((∃ r, (m.onRecvProposal ctx prop prop.justify).2 = .ok r) → Justified m prop.justify) ↔
      ¬ Exempted m prop.justify) ∧
    ((∀ round ∈ m.rounds branch,
        (round.1.syncNode round.2).isSome → Justified round.1 round.2.justify) ↔
      ∀ round ∈ m.rounds branch, ¬ Exempted round.1 round.2.justify) := by
  constructor
  · rw [onRecvProposal_isOk]
    exact justified_of_verified_iff m prop.justify
  · refine forall₂_congr fun round _ => ?_
    rw [syncNode_isSome]
    exact justified_of_verified_iff round.1 round.2.justify

end Machine

namespace Symbolic

open Machine

/-- A certificate for `a1` with the all-zero signature. -/
def forgedCert : GenericQC symbolic := ⟨1, a1.hash, symbolic.zeroed⟩

def forgedA2 : TreeNode symbolic := block 2 2 a1.hash forgedCert

/-- A replica that has stored `a1`. -/
def withA1 : Machine symbolic := ((fresh 4 0).call (deliver a1)).1

/-- With `a1` stored, a block on it with a forged certificate is signed, and processed
when it comes in a branch. -/
theorem forged_justify_accepted :
    (∃ r, (withA1.onRecvProposal (ctxOf 1) forgedA2 forgedA2.justify).2 = .ok r) ∧
      (withA1, forgedA2) ∈ withA1.rounds [forgedA2] ∧
      (withA1.syncNode forgedA2).isSome ∧ ¬ Justified withA1 forgedA2.justify := by
  have hget : withA1.storage.get forgedCert.node = some a1 := by decide +kernel
  have hinit : forgedCert.isInitQc = true := by decide +kernel
  have hok : ∃ r, withA1.verifyProposal forgedA2.justify = .ok r :=
    verifyProposal_isOk.mpr ⟨a1, hget, Or.inl hinit⟩
  refine ⟨onRecvProposal_isOk.mpr hok, List.mem_cons_self, syncNode_isSome.mpr hok, ?_⟩
  rintro (heq | ⟨node, hnode, hval⟩)
  · exact absurd heq (by decide +kernel)
  · rw [show forgedA2.justify = forgedCert from rfl, hget] at hnode
    obtain rfl := Option.some.inj hnode
    exact absurd hval (by decide +kernel)

end Symbolic

end HotstuffConsensus
