import HotstuffConsensus.ProposalPerView
import HotstuffConsensus.Lib.ChainSafety

/-!
# The size of a quorum

Votes and `NewView` messages are counted against `(total << 1) / 3`, and more than that many are
a quorum. With `f = ⌊(n-1)/3⌋` faulty replicas of `n` this is `n - f`, which the others can always
reach, and two quorums share `f + 1` replicas. The three cases of `n` modulo 3 are those of the
comment at `Machine::threshold`.
-/

namespace HotstuffConsensus

open Lib

variable {K : Crypto}

/-- The number of faulty replicas that `n` replicas tolerate. -/
def faultyBound (n : ℕ) : ℕ := (n - 1) / 3

/-- `(n << 1) / 3` on machine words. -/
def usizeThreshold (n : UInt64) : UInt64 := (n <<< 1) / 3

/-- The shift loses no bit, as there are fewer replicas than bytes of memory. -/
theorem toNat_usizeThreshold {n : UInt64} (h : n.toNat < 2 ^ 63) :
    (usizeThreshold n).toNat = (n.toNat <<< 1) / 3 := by
  have hshift : (n <<< 1).toNat = n.toNat <<< 1 % 2 ^ 64 := UInt64.toNat_shiftLeft n 1
  have hlt : n.toNat <<< 1 < 2 ^ 64 := by
    rw [Nat.shiftLeft_eq]
    omega
  unfold usizeThreshold
  rw [UInt64.toNat_div, hshift, Nat.mod_eq_of_lt hlt]
  rfl

theorem shiftLeft_one_eq (n : ℕ) : n <<< 1 = 2 * n := by
  rw [Nat.shiftLeft_eq, pow_one, Nat.mul_comm]

/-- More than the threshold is at least `n - f`. -/
theorem threshold_lt_iff {n : ℕ} (hn : 1 ≤ n) (size : ℕ) :
    (n <<< 1) / 3 < size ↔ n - faultyBound n ≤ size := by
  unfold faultyBound
  rw [shiftLeft_one_eq]
  omega

namespace Voter

/-- With enough votes `combine_partial_sign` takes the votes of the view. -/
theorem combinePartialSign_of_lt {v : Voter K} {view : ViewNumber}
    (h : v.threshold < v.voteSetSize view) :
    (v.combinePartialSign view).1.votingSet = v.votingSet.erase view := by
  unfold combinePartialSign
  rw [if_neg (not_le.mpr h)]

/-- Otherwise it reports how many are missing. -/
theorem combinePartialSign_of_le {v : Voter K} {view : ViewNumber}
    (h : v.voteSetSize view ≤ v.threshold) :
    v.combinePartialSign view =
      (v, .error (.insufficientSigns (v.threshold + 1) (v.voteSetSize view))) := by
  unfold combinePartialSign
  rw [if_pos h]

end Voter

/-- For every number `n` of replicas, the tests for votes and for `NewView` messages ask for
`n - f` members, and any two sets of that size share `f + 1` members, a correct one among
them. -/
theorem quorum_rule (K : Crypto) {n : ℕ} (hn : 1 ≤ n) :
    (∀ m : Machine K, m.total = n → ∀ size, m.threshold < size ↔ n - faultyBound n ≤ size) ∧
    (∀ v : Voter K, v.threshold = (n <<< 1) / 3 → ∀ view,
      (n - faultyBound n ≤ v.voteSetSize view →
        (v.combinePartialSign view).1.votingSet = v.votingSet.erase view) ∧
      (v.voteSetSize view < n - faultyBound n → v.combinePartialSign view =
        (v, .error (.insufficientSigns (n - faultyBound n) (v.voteSetSize view))))) ∧
    (∀ pm : Pacemaker K, pm.machine.storage.conf.total = n → ∀ cmds,
      (pm.makeNewProposal cmds).2.isSome = true ↔
        n - faultyBound n ≤ HashMap.size (pm.machine.storage.newViewSetEntry pm.view)) ∧
    ∀ replicas A B : Finset ReplicaID, replicas.card = n → A ⊆ replicas → B ⊆ replicas →
      n - faultyBound n ≤ A.card → n - faultyBound n ≤ B.card →
      faultyBound n + 1 ≤ (A ∩ B).card ∧
        ∀ faulty : Finset ReplicaID, faulty.card ≤ faultyBound n → ∃ r ∈ A ∩ B, r ∉ faulty := by
  refine ⟨?_, ?_, ?_, ?_⟩
  · intro m hm size
    unfold Machine.threshold
    rw [hm]
    exact threshold_lt_iff hn size
  · intro v hv view
    have hneeded : v.threshold + 1 = n - faultyBound n := by
      have hmin := threshold_lt_iff hn (v.threshold + 1)
      have hmax := threshold_lt_iff hn v.threshold
      rw [← hv] at hmin hmax
      omega
    constructor
    · intro hle
      apply Voter.combinePartialSign_of_lt
      omega
    · intro hlt
      rw [← hneeded]
      apply Voter.combinePartialSign_of_le
      omega
  · intro pm hpm cmds
    rw [Pacemaker.makeNewProposal_isSome]
    unfold Pacemaker.hasQuorum HotstuffStorage.threshold
    rw [hpm]
    exact threshold_lt_iff hn _
  · intro replicas A B hcard hA hB hAq hBq
    rw [← threshold_lt_iff hn, shiftLeft_one_eq] at hAq hBq
    refine ⟨ChainSafety.lt_card_inter hcard hA hB hAq hBq, ?_⟩
    intro faulty hfaulty
    obtain ⟨r, hrA, hrB, hr⟩ := ChainSafety.exists_correct_inter hcard hfaulty hA hB hAq hBq
    exact ⟨r, Finset.mem_inter.mpr ⟨hrA, hrB⟩, hr⟩

namespace Symbolic

/-- Of four replicas three are a quorum. -/
theorem quorum_of_four : (∀ size, (fresh 4 0).threshold < size ↔ 3 ≤ size) ∧
    ∀ replicas A B : Finset ReplicaID, replicas.card = 4 → A ⊆ replicas → B ⊆ replicas →
      3 ≤ A.card → 3 ≤ B.card → 2 ≤ (A ∩ B).card :=
  ⟨(quorum_rule symbolic (by decide : 1 ≤ 4)).1 (fresh 4 0) rfl,
    fun replicas A B hcard hA hB hAq hBq =>
      ((quorum_rule symbolic (by decide : 1 ≤ 4)).2.2.2 replicas A B hcard hA hB hAq hBq).1⟩

end Symbolic

end HotstuffConsensus
