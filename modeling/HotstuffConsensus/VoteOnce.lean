import HotstuffConsensus.MachineTheorems
import HotstuffConsensus.ThresholdScheme

/-!
# Votes

A call signs the proposal that it returns in `Ready::Signature`. Only `on_recv_proposal` does,
for a proposal whose justify passes `verify_proposal` and which it accepts, and so only above
`vheight`.
-/

namespace HotstuffConsensus

variable {K : Crypto}

namespace Machine

/-- The proposal a call signs: the one `on_recv_proposal` returns in `Ready::Signature`. -/
def signs (m : Machine K) (c : Call K) : Option (TreeNode K) :=
  match (m.call c).2 with
  | some (.ok (.signature _ prop _)) => some prop
  | _ => none

/-- A delivered proposal is signed when its justify passes `verify_proposal` and the
proposal is accepted. -/
theorem signs_recvProposal (m : Machine K) (ctx : Context) (prop : TreeNode K) :
    m.signs (.event (.recvProposal ctx prop)) =
      match m.verifyProposal prop.justify with
      | .ok _ => if m.accepts prop then some prop else none
      | .error _ => none := by
  have hcall : (m.call (.event (.recvProposal ctx prop))).2
      = some (m.onRecvProposal ctx prop prop.justify).2 := rfl
  unfold signs
  rw [hcall, onRecvProposal_eq]
  cases hv : m.verifyProposal prop.justify with
  | error e => rfl
  | ok r =>
    dsimp only
    by_cases hacc : m.accepts prop = true
    · rw [if_pos hacc, if_pos hacc]
    · rw [if_neg hacc, if_neg hacc]

theorem signs_recvProposal_eq_some {m : Machine K} {ctx : Context} {prop p : TreeNode K}
    (h : m.signs (.event (.recvProposal ctx prop)) = some p) :
    (∃ r, m.verifyProposal prop.justify = .ok r) ∧ m.accepts prop = true := by
  rw [signs_recvProposal] at h
  split at h
  · rename_i r hv
    split at h
    · rename_i hacc
      exact ⟨⟨r, hv⟩, hacc⟩
    · cases h
  · cases h

/-- Only a delivered proposal is signed, and only above `vheight`. -/
theorem signs_eq_some {m : Machine K} {c : Call K} {p : TreeNode K} (h : m.signs c = some p) :
    (∃ ctx, c = .event (.recvProposal ctx p)) ∧ m.storage.state.vheight < p.height := by
  match c with
  | .event (.recvProposal ctx prop) =>
    rw [signs_recvProposal] at h
    split at h
    · split at h
      · rename_i hacc
        obtain rfl := Option.some.inj h
        exact ⟨⟨ctx, rfl⟩, vheight_lt_of_accepts hacc⟩
      · cases h
    · cases h
  | .event (.recvSign ctx node sign) =>
    have hcall : (m.call (.event (.recvSign ctx node sign))).2
        = some (m.onRecvVote ctx node sign).2 := rfl
    unfold signs at h
    rw [hcall] at h
    rcases m.onRecvVote_output ctx node sign with ⟨e, hout⟩ | hout | ⟨v, hout⟩
    · rw [hout] at h
      cases h
    · rw [hout] at h
      cases h
    · rw [hout] at h
      cases h
  | .event .requestSnapshot => cases h
  | .event (.newTx cmds) => cases h
  | .event (.recvNewViewMsg ctx qc) => cases h
  | .event (.newLeader ctx leader) =>
    obtain ⟨l, heq⟩ := m.newLeader_eq ctx leader
    have hcall : (m.call (.event (.newLeader ctx leader))).2
        = some (m.processSafetyEvent (.newLeader ctx leader)).2 := rfl
    unfold signs at h
    rw [hcall, heq] at h
    cases h
  | .event (.branchSync ctx branch) => cases h
  | .event (.viewChange leader view) => cases h
  | .event (.propose ctx node qc) => cases h
  | .viewChange leader view =>
    have hcall : (m.call (.viewChange leader view)).2 = some (m.onViewChange leader view).2 := rfl
    unfold signs at h
    rw [hcall] at h
    rcases m.onViewChange_cases leader view with heq | ⟨m', -, heq⟩
    · rw [heq] at h
      cases h
    · rw [heq] at h
      cases h
  | .increaseView v => cases h
  | .updateQcHigh node qc => cases h

end Machine

end HotstuffConsensus
