import HotstuffConsensus.MachineTheorems
import HotstuffConsensus.ThresholdScheme

/-!
# Quorum certificates built from votes

`on_recv_vote` pools votes by height and, when the pool is large enough, combines all of
it. The certificate it builds names the *leaf* at that moment. Neither the other votes
of the pool nor the leaf need to belong to the proposal of the vote that completed it.

The certificate is sound exactly when both do and the votes have enough different signers.
-/

namespace HotstuffConsensus

open Lib

variable {K : Crypto}

namespace Machine

/-- The certificate `on_recv_vote` builds, when the vote completes a quorum. -/
def builtQc (m : Machine K) (ctx : Context) (prop : TreeNode K) (sign : SignKit K) :
    Option (GenericQC K) :=
  (m.voteQuorum ctx prop sign).map m.formQc

/-- The votes of the height of `prop`, the arriving one included. -/
def poolWith (m : Machine K) (ctx : Context) (prop : TreeNode K) (sign : SignKit K) :
    Finmap fun _ : ReplicaID => SignKit K :=
  (m.voter.pool prop.height).insert ctx.sender sign

/-- The certificate names `prop` and verifies for it, and more than `floor(2n/3)`
distinct sign ids of the pool signed exactly `prop`. -/
structure SoundQc (m : Machine K) (ctx : Context) (prop : TreeNode K) (sign : SignKit K)
    (qc : GenericQC K) : Prop where
  names : qc.node = prop.hash
  verifies : m.voter.validateQc prop qc.combinedSign = true
  signed : ∃ ids : Finset SignID, m.total * 2 / 3 < ids.card ∧
    ∀ i ∈ ids, ∃ kit ∈ HashMap.values (m.poolWith ctx prop sign),
      kit.signId = i ∧ m.voter.validateVote prop kit = true

/-- The leaf is still the voted proposal, every vote of its height in the pool is a vote for
it, and with the arriving one they have more than `floor(2n/3)` distinct sign ids. The last is
asked for because the pool is keyed by sender, and a `combine_signatures` that skips a repeated
index instead of failing on it would combine fewer shares than the pool has votes. -/
def PoolsFor (m : Machine K) (ctx : Context) (prop : TreeNode K) (sign : SignKit K) : Prop :=
  m.storage.state.leaf.hash = prop.hash ∧
    (∀ kit ∈ HashMap.values (m.voter.pool prop.height), m.voter.validateVote prop kit = true) ∧
    m.total * 2 / 3 <
      ((HashMap.values (m.poolWith ctx prop sign)).map SignKit.signId).toFinset.card

/-- `ProposalReachConsensus` is returned exactly when a certificate is built, and the
certificate is the one handed to `update_qc_high`. -/
theorem reachConsensus_iff_builtQc {m : Machine K} {ctx : Context} {prop : TreeNode K}
    {sign : SignKit K} :
    (∃ v, (m.onRecvVote ctx prop sign).2 = .ok (.proposalReachConsensus v)) ↔
      ∃ qc, m.builtQc ctx prop sign = some qc ∧
        (m.onRecvVote ctx prop sign).1.storage = m.storage.updateQcHigh prop qc := by
  unfold builtQc
  rcases onRecvVote_cases m ctx prop sign with ⟨s, hs, hout, hst⟩ | ⟨hs, hout, hst⟩
  · rw [hs]
    constructor
    · intro _
      exact ⟨m.formQc s, rfl, hst⟩
    · intro _
      exact ⟨_, hout⟩
  · rw [hs]
    constructor
    · intro ⟨v, hv⟩
      exact absurd hv (hout v)
    · intro ⟨qc, hqc, _⟩
      cases hqc

/-- A completed quorum is reported with the current view. -/
theorem reachConsensus_of_voteQuorum {m : Machine K} {ctx : Context} {prop : TreeNode K}
    {sign : SignKit K} (h : (m.voteQuorum ctx prop sign).isSome) :
    (m.onRecvVote ctx prop sign).2 =
      .ok (.proposalReachConsensus m.storage.state.currentView) := by
  rcases onRecvVote_cases m ctx prop sign with ⟨s, -, hout, -⟩ | ⟨hs, -, -⟩
  · exact hout
  · rw [hs] at h
    cases h

/-- What a completed quorum says about the pool before the vote. -/
theorem voteQuorum_eq_some {m : Machine K} {ctx : Context} {prop : TreeNode K}
    {sign : SignKit K} {s : K.CombinedSign} (h : m.voteQuorum ctx prop sign = some s) :
    m.voter.validateVote prop sign = true ∧
      (m.voter.pool prop.height).lookup ctx.sender = none ∧
      m.threshold < HashMap.size (m.poolWith ctx prop sign) ∧
      K.combineSignatures m.voter.signature.pks
        ((HashMap.values (m.poolWith ctx prop sign)).map fun kit => (kit.signId, kit.sign))
          = some s := by
  unfold voteQuorum at h
  dsimp only at h
  split at h
  · rename_i hc
    exact ⟨hc.1, hc.2.1, hc.2.2.1, h⟩
  · cases h

/-- With an honest arriving vote, the whole pool votes for `prop` when the pool before
did. -/
theorem forall_poolWith_iff {m : Machine K} {ctx : Context} {prop : TreeNode K}
    {sign : SignKit K} (hsign : m.voter.validateVote prop sign = true)
    (hnew : (m.voter.pool prop.height).lookup ctx.sender = none) :
    (∀ kit ∈ HashMap.values (m.poolWith ctx prop sign), m.voter.validateVote prop kit = true) ↔
      ∀ kit ∈ HashMap.values (m.voter.pool prop.height),
        m.voter.validateVote prop kit = true := by
  constructor
  · intro h kit hkit
    obtain ⟨sender, hsender⟩ := HashMap.mem_values.mp hkit
    have hne : sender ≠ ctx.sender := by
      intro heq
      rw [heq, hnew] at hsender
      cases hsender
    apply h kit
    apply HashMap.mem_values.mpr
    refine ⟨sender, ?_⟩
    unfold poolWith
    rw [Finmap.lookup_insert_of_ne _ hne]
    exact hsender
  · intro h kit hkit
    obtain ⟨sender, hsender⟩ := HashMap.mem_values.mp hkit
    rcases HashMap.lookup_insert_cases hsender with ⟨-, hk⟩ | hold
    · rw [hk]
      exact hsign
    · exact h kit (HashMap.mem_values.mpr ⟨sender, hold⟩)

/-- The combined signature of a pool verifies for `prop` exactly when each of its votes
does. -/
theorem validateQc_combined_iff (laws : CombineLaws K) {m : Machine K} {ctx : Context}
    {prop : TreeNode K} {sign : SignKit K} {s : K.CombinedSign}
    (hcomb : K.combineSignatures m.voter.signature.pks
      ((HashMap.values (m.poolWith ctx prop sign)).map fun kit => (kit.signId, kit.sign))
        = some s) :
    m.voter.validateQc prop s = true ↔
      ∀ kit ∈ HashMap.values (m.poolWith ctx prop sign),
        m.voter.validateVote prop kit = true := by
  have hverify := laws.verify_iff _ _ s prop.toBeBytes hcomb
  rw [Multiset.forall_mem_map_iff] at hverify
  exact hverify

/-- In every state a replica reaches, a vote that completes a quorum builds a sound
certificate exactly when the leaf is still the voted proposal and the pool holds votes for
that proposal only, of enough signers. -/
theorem soundQc_iff_poolsFor (laws : CombineLaws K) (start : Machine K) (calls : List (Call K))
    (ctx : Context) (prop : TreeNode K) (sign : SignKit K) (v : ViewNumber)
    (hret : ((start.run calls).onRecvVote ctx prop sign).2 = .ok (.proposalReachConsensus v)) :
    ∃ qc, (start.run calls).builtQc ctx prop sign = some qc ∧
      ((start.run calls).onRecvVote ctx prop sign).1.storage
        = (start.run calls).storage.updateQcHigh prop qc ∧
      (SoundQc (start.run calls) ctx prop sign qc ↔
        PoolsFor (start.run calls) ctx prop sign) := by
  obtain ⟨qc, hqc, hst⟩ := reachConsensus_iff_builtQc.mp ⟨v, hret⟩
  refine ⟨qc, hqc, hst, ?_⟩
  clear hret hst
  revert hqc
  generalize start.run calls = m
  intro hqc
  obtain ⟨s, hs, hform⟩ := Option.map_eq_some_iff.mp hqc
  obtain ⟨hsign, hnew, -, hcomb⟩ := voteQuorum_eq_some hs
  have hnode : qc.node = m.storage.state.leaf.hash := by rw [← hform]; rfl
  have hsig : qc.combinedSign = s := by rw [← hform]; rfl
  have hverify := validateQc_combined_iff laws hcomb
  have hpool := forall_poolWith_iff hsign hnew
  -- the certificate names the leaf, and verifies iff every pooled vote is for `prop`
  constructor
  · intro hsound
    refine ⟨hnode.symm.trans hsound.names, hpool.mp (hverify.mp ?_), ?_⟩
    · rw [← hsig]
      exact hsound.verifies
    · obtain ⟨ids, hcard, hids⟩ := hsound.signed
      refine hcard.trans_le (Finset.card_le_card ?_)
      intro i hi
      obtain ⟨kit, hkit, hid, -⟩ := hids i hi
      exact Multiset.mem_toFinset.mpr (Multiset.mem_map.mpr ⟨kit, hkit, hid⟩)
  · intro ⟨hleaf, hvotes, hcard⟩
    have hall := hpool.mpr hvotes
    refine ⟨hnode.trans hleaf, ?_, ?_⟩
    · rw [hsig]
      exact hverify.mpr hall
    · -- the quorum is the set of all sign ids of the pool
      refine ⟨((HashMap.values (m.poolWith ctx prop sign)).map SignKit.signId).toFinset,
        hcard, ?_⟩
      intro i hi
      obtain ⟨kit, hkit, hid⟩ := Multiset.mem_map.mp (Multiset.mem_toFinset.mp hi)
      exact ⟨kit, hkit, hid, hall kit hkit⟩

end Machine

namespace Symbolic

open Machine

/-- Two votes for the proposal of the only beat, with the leader's own, make a sound
certificate. -/
theorem soundQc_first_beat :
    ∃ qc, ((fresh 4 0).run (beat 1 1 ++ [vote 1 p1])).builtQc (ctxOf 2) p1 (voteBy 2 p1)
        = some qc ∧
      SoundQc ((fresh 4 0).run (beat 1 1 ++ [vote 1 p1])) (ctxOf 2) p1 (voteBy 2 p1) qc := by
  have hquorum : (((fresh 4 0).run (beat 1 1 ++ [vote 1 p1])).voteQuorum (ctxOf 2) p1
      (voteBy 2 p1)).isSome := by decide +kernel
  obtain ⟨qc, hqc, -, hiff⟩ := soundQc_iff_poolsFor symbolic_combineLaws (fresh 4 0)
    (beat 1 1 ++ [vote 1 p1]) (ctxOf 2) p1 (voteBy 2 p1) _ (reachConsensus_of_voteQuorum hquorum)
  refine ⟨qc, hqc, hiff.mpr ⟨by decide +kernel, by decide +kernel, by decide +kernel⟩⟩

/-- The two votes for `p1` arrive after the leader has beaten `p2`: the certificate
signed for `p1` names `p2`. -/
theorem unsoundQc_late_votes :
    ∃ v qc, (((fresh 4 0).run (beat 1 1 ++ beat 2 2 ++ [vote 1 p1])).onRecvVote (ctxOf 2) p1
          (voteBy 2 p1)).2 = .ok (.proposalReachConsensus v) ∧
      ((fresh 4 0).run (beat 1 1 ++ beat 2 2 ++ [vote 1 p1])).builtQc (ctxOf 2) p1 (voteBy 2 p1)
        = some qc ∧
      qc.node = p2.hash ∧
      ¬ SoundQc ((fresh 4 0).run (beat 1 1 ++ beat 2 2 ++ [vote 1 p1])) (ctxOf 2) p1
        (voteBy 2 p1) qc := by
  have hquorum : (((fresh 4 0).run (beat 1 1 ++ beat 2 2 ++ [vote 1 p1])).voteQuorum (ctxOf 2) p1
      (voteBy 2 p1)).isSome := by decide +kernel
  have hqc : (((fresh 4 0).run (beat 1 1 ++ beat 2 2 ++ [vote 1 p1])).builtQc (ctxOf 2) p1
      (voteBy 2 p1)).map GenericQC.node = some p2.hash := by decide +kernel
  obtain ⟨qc, hsome, hnode⟩ := Option.map_eq_some_iff.mp hqc
  refine ⟨_, qc, reachConsensus_of_voteQuorum hquorum, hsome, hnode, ?_⟩
  intro hsound
  have hne : p2.hash ≠ p1.hash := by decide +kernel
  exact hne (hnode.symm.trans hsound.names)

end Symbolic

end HotstuffConsensus
