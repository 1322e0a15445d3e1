import HotstuffConsensus.ChainProgress
import HotstuffConsensus.Outbox
import HotstuffConsensus.ProposalPerView
import HotstuffConsensus.VotePool

/-!
# The machine of a leader

A leader is `Leading` while it has a certificate for the last block of its chain and knows no
block above it. `NewView` messages change nothing then, whatever they carry. A beat makes the next
block (`Proposed`), and the leader's own vote for it is the first of the pool.

The votes that follow are pooled until there is a quorum of them, which combine to a certificate
for the proposal, and the leader is `Leading` again. Votes that come late fill the next pool of
their height and have no effect, if they are no quorum themselves.
-/

namespace HotstuffConsensus

open Lib

variable {K : Crypto} {chain : List (TreeNode K)} {p : TreeNode K} {m₀ m : Machine K}

/-! ## The machine of a leader -/

namespace Machine

/-- `m` has the name, the keys and the thresholds of `m₀`. -/
structure SetUpAs (m₀ m : Machine K) : Prop where
  total : m.total = m₀.total
  selfId : m.selfId = m₀.selfId
  signature : m.voter.signature = m₀.voter.signature
  threshold : m.voter.threshold = m₀.voter.threshold
  conf : m.storage.conf = m₀.storage.conf

/-- The certificate is for the last block of the chain, at the height of that block. -/
structure Certified (m₀ : Machine K) (chain : List (TreeNode K)) (qc : GenericQC K) : Prop where
  node : qc.node = (back chain 0).hash
  view : qc.view = (back chain 0).height
  first : chain = [] → qc = initQc K
  valid : chain ≠ [] → m₀.voter.validateQc (back chain 0) qc.combinedSign = true

/-- A leader that has a certificate for the last block of the chain, and knows no higher one. -/
structure Leading (m₀ m : Machine K) (chain : List (TreeNode K)) : Prop where
  setUp : SetUpAs m₀ m
  leaf : m.storage.state.leaf = back chain 0
  certified : Certified m₀ chain m.storage.state.qcHigh
  stored : m.storage.get (back chain 0).hash = some (back chain 0)
  below : ∀ k x, m.storage.get k = some x → x.height ≤ (back chain 0).height

/-- A leader that has proposed `p` on the last block of the chain. -/
structure Proposed (m₀ m : Machine K) (chain : List (TreeNode K)) (p : TreeNode K) : Prop where
  setUp : SetUpAs m₀ m
  currentView : m.storage.state.currentView = p.height
  leaf : m.storage.state.leaf = p
  certified : Certified m₀ chain m.storage.state.qcHigh
  stored : m.storage.get (back chain 0).hash = some (back chain 0)
  storedLeaf : m.storage.get p.hash = some p
  below : ∀ k x, m.storage.get k = some x → x.height ≤ p.height
  height : (back chain 0).height < p.height

theorem SetUpAs.of_alike {m' : Machine K} (h : SetUpAs m₀ m) (ha : m.Alike m')
    (hconf : m'.storage.conf = m.storage.conf) : SetUpAs m₀ m' := by
  refine ⟨ha.total.trans h.total, ha.selfId.trans h.selfId, ?_, ?_, hconf.trans h.conf⟩
  · rw [ha.voter]
    exact h.signature
  · rw [ha.voter]
    exact h.threshold

/-- The leader's own vote is the first one. -/
theorem onBeat_voter (m : Machine K) (cmds : List Txn) :
    (m.onBeat cmds).1.voter = { m.voter with
      votingSet := m.voter.votingSet.insert (m.makeLeaf cmds).height
        ((m.voter.pool (m.makeLeaf cmds).height).insert m.selfId
          (m.voter.sign (m.makeLeaf cmds))) } :=
  addVote_fst m.voter _ _ _

namespace Leading

theorem of_alike {m' : Machine K} (h : Leading m₀ m chain) (ha : m.Alike m')
    (hconf : m'.storage.conf = m.storage.conf) : Leading m₀ m' chain := by
  refine ⟨h.setUp.of_alike ha hconf, ?_, ?_, ?_, ?_⟩
  · rw [ha.storage.state]
    exact h.leaf
  · rw [ha.storage.state]
    exact h.certified
  · rw [ha.storage.get]
    exact h.stored
  · intro k x hx
    rw [ha.storage.get] at hx
    exact h.below k x hx

theorem increaseView (h : Leading m₀ m chain) (v : ViewNumber) :
    Leading m₀ { m with storage := m.storage.increaseView v } chain :=
  ⟨⟨h.setUp.total, h.setUp.selfId, h.setUp.signature, h.setUp.threshold, h.setUp.conf⟩, h.leaf,
    h.certified, h.stored, h.below⟩

/-- No stored block is above the one `qc_high` names. -/
theorem updateQcHigh_eq (h : Leading m₀ m chain) {k : NodeHash} {x : TreeNode K}
    (hx : m.storage.get k = some x) (qc : GenericQC K) :
    m.storage.updateQcHigh x qc = m.storage := by
  apply HotstuffStorage.updateQcHigh_of_not_raises
  rintro ⟨qcNode, hqc, hlt⟩
  rw [h.certified.node, h.stored] at hqc
  rw [← Option.some.inj hqc] at hlt
  exact absurd (h.below k x hx) (not_le.mpr hlt)

/-- A `NewView` message changes nothing, whatever it carries. -/
theorem onRecvNewView_eq (h : Leading m₀ m chain) (qc : GenericQC K) :
    m.onRecvNewView qc = (m, .ok m.formUpdateQcHigh) := by
  unfold onRecvNewView
  cases hget : m.storage.get qc.node with
  | none => rfl
  | some x =>
    dsimp only
    rw [h.updateQcHigh_eq hget]

theorem livenessUpdateQcHigh_leaf (h : Leading m₀ m chain) :
    m.storage.livenessUpdateQcHigh m.storage.state.leaf m.storage.state.leaf.justify =
      m.storage.setDirty := by
  unfold HotstuffStorage.livenessUpdateQcHigh
  rw [h.leaf, h.updateQcHigh_eq h.stored]

/-- The leader stores what it proposes, on top of the last block. -/
theorem onBeat (h : Leading m₀ m chain) (cmds : List Txn)
    (hview : (back chain 0).height < m.storage.state.currentView)
    (hnew : (m.makeLeaf cmds).hash ≠ (back chain 0).hash) :
    Proposed m₀ (m.onBeat cmds).1 chain (m.makeLeaf cmds) := by
  have hget : ∀ k, (m.onBeat cmds).1.storage.get k =
      if k = (m.makeLeaf cmds).hash then some (m.makeLeaf cmds) else m.storage.get k := by
    intro k
    exact HashMap.lookup_insert_eq_ite _ _ _ _
  refine ⟨⟨h.setUp.total, h.setUp.selfId, ?_, ?_, h.setUp.conf⟩, rfl, rfl, h.certified, ?_, ?_, ?_,
    hview⟩
  · rw [onBeat_voter]
    exact h.setUp.signature
  · rw [onBeat_voter]
    exact h.setUp.threshold
  · rw [hget, if_neg hnew.symm]
    exact h.stored
  · rw [hget, if_pos rfl]
  · intro k x hx
    rw [hget] at hx
    split at hx
    · rw [← Option.some.inj hx]
    · exact (h.below k x hx).trans hview.le

end Leading

/-! ## Votes -/

/-- The pool of a leader that has voted by `kit` for its own proposal, and got `votes` since. -/
structure Pooled (pool : Finmap fun _ : ReplicaID => SignKit K) (selfId : ReplicaID)
    (kit : SignKit K) (votes : List (Context × SignKit K)) : Prop where
  keys : ∀ sender, pool.lookup sender = none ↔
    sender ≠ selfId ∧ sender ∉ votes.map fun w => w.1.sender
  values : HashMap.values pool = kit ::ₘ (votes.map Prod.snd : Multiset (SignKit K))

theorem Pooled.single (selfId : ReplicaID) (kit : SignKit K) :
    Pooled ((∅ : Finmap fun _ : ReplicaID => SignKit K).insert selfId kit) selfId kit [] := by
  constructor
  · intro sender
    rw [HashMap.lookup_insert_eq_ite]
    split
    · rename_i heq
      simp [heq]
    · rename_i hne
      simp [hne]
  · rw [HashMap.values_insert_of_lookup_eq_none (Finmap.lookup_empty selfId)]
    rfl

theorem Pooled.snoc {pool : Finmap fun _ : ReplicaID => SignKit K} {selfId : ReplicaID}
    {kit : SignKit K} {votes : List (Context × SignKit K)} (h : Pooled pool selfId kit votes)
    {w : Context × SignKit K} (hnew : pool.lookup w.1.sender = none) :
    Pooled (pool.insert w.1.sender w.2) selfId kit (votes ++ [w]) := by
  constructor
  · intro sender
    rw [HashMap.lookup_insert_eq_ite, List.map_append, List.map_singleton, List.mem_append,
      List.mem_singleton, not_or, ← and_assoc, ← h.keys]
    split
    · rename_i heq
      simp [heq]
    · rename_i hne
      simp [hne]
  · rw [HashMap.values_insert_of_lookup_eq_none hnew, h.values, Multiset.cons_swap,
      Multiset.cons_coe, List.map_append]
    exact congrArg _ (Multiset.coe_eq_coe.mpr (List.perm_append_singleton _ _).symm)

theorem Pooled.size {pool : Finmap fun _ : ReplicaID => SignKit K} {selfId : ReplicaID}
    {kit : SignKit K} {votes : List (Context × SignKit K)} (h : Pooled pool selfId kit votes) :
    HashMap.size pool = votes.length + 1 := by
  rw [← HashMap.card_values, h.values]
  simp

theorem SetUpAs.onRecvVote (h : SetUpAs m₀ m) (ctx : Context) (prop : TreeNode K)
    (sign : SignKit K) : SetUpAs m₀ (m.onRecvVote ctx prop sign).1 := by
  obtain ⟨hsig, hth, htotal⟩ := m.onRecvVote_fixed ctx prop sign
  refine ⟨htotal.trans h.total, ?_, hsig.trans h.signature, hth.trans h.threshold, ?_⟩
  · exact (m.processSafetyEvent_selfId (.recvSign ctx prop sign)).trans h.selfId
  · exact (congrArg (fun t => t.2.1) (m.processSafetyEvent_liveness (.recvSign ctx prop sign))).trans
      h.conf

namespace Proposed

variable {selfId : ReplicaID} {kit : SignKit K} {votes : List (Context × SignKit K)}
  {w : Context × SignKit K}

/-- A vote that changes the voting sets only. -/
theorem of_storage_eq (h : Proposed m₀ m chain p) {ctx : Context} {sign : SignKit K}
    (hs : (m.onRecvVote ctx p sign).1.storage = m.storage) :
    Proposed m₀ (m.onRecvVote ctx p sign).1 chain p := by
  refine ⟨h.setUp.onRecvVote ctx p sign, ?_, ?_, ?_, ?_, ?_, ?_, h.height⟩ <;> rw [hs]
  · exact h.currentView
  · exact h.leaf
  · exact h.certified
  · exact h.stored
  · exact h.storedLeaf
  · exact h.below

/-- A vote short of a quorum is put into the pool. -/
theorem vote (h : Proposed m₀ m chain p)
    (hpool : Pooled (m.voter.pool p.height) selfId kit votes)
    (hvalid : m₀.voter.validateVote p w.2 = true)
    (hnew : (m.voter.pool p.height).lookup w.1.sender = none)
    (hsize : votes.length + 2 ≤ m₀.threshold) :
    (m.onRecvVote w.1 p w.2).2 = .ok .nil ∧ Proposed m₀ (m.onRecvVote w.1 p w.2).1 chain p ∧
      Pooled ((m.onRecvVote w.1 p w.2).1.voter.pool p.height) selfId kit (votes ++ [w]) := by
  have hth : m.threshold = m₀.threshold := by
    unfold threshold
    rw [h.setUp.total]
  have hnext : Pooled (m.poolWith w.1 p w.2) selfId kit (votes ++ [w]) := hpool.snoc hnew
  have hle : HashMap.size (m.poolWith w.1 p w.2) ≤ m.threshold := by
    rw [hnext.size, List.length_append, hth]
    exact hsize
  have hval : m.voter.validateVote p w.2 = true := by
    unfold Voter.validateVote at hvalid ⊢
    rw [h.setUp.signature]
    exact hvalid
  obtain ⟨hout, hset⟩ : (m.onRecvVote w.1 p w.2).2 = .ok .nil ∧
      (m.onRecvVote w.1 p w.2).1.voter.votingSet = m.votingSetWith w.1 p w.2 := by
    generalize hr : (m.onRecvVote w.1 p w.2).2 = r
    generalize hset : (m.onRecvVote w.1 p w.2).1.voter.votingSet = set
    have hpath := m.onRecvVote_path w.1 p w.2
    rw [hr, hset] at hpath
    cases hpath with
    | invalid hinvalid =>
      rw [hval] at hinvalid
      cases hinvalid
    | duplicate => exact ⟨rfl, rfl⟩
    | pooled => exact ⟨rfl, rfl⟩
    | short e _ _ hlt => exact absurd hle (not_le.mpr hlt)
    | failed e _ _ hlt => exact absurd hle (not_le.mpr hlt)
    | formed v _ _ hlt => exact absurd hle (not_le.mpr hlt)
  refine ⟨hout, h.of_storage_eq ?_, ?_⟩
  · rcases m.onRecvVote_cases w.1 p w.2 with ⟨s, -, hreach, -⟩ | ⟨-, -, hs⟩
    · rw [hout] at hreach
      cases hreach
    · exact hs
  · have hentry := m.entryD_votingSetWith w.1 p w.2 p.height
    rw [if_pos rfl, ← hset] at hentry
    unfold Voter.pool
    rw [hentry]
    exact hnext

/-- The votes of a quorum combine. -/
theorem voteQuorum_isSome (laws : CombineLaws K) (h : Proposed m₀ m chain p)
    (hpool : Pooled (m.voter.pool p.height) selfId kit votes)
    (hvalid : m₀.voter.validateVote p w.2 = true)
    (hnew : (m.voter.pool p.height).lookup w.1.sender = none)
    (hsize : m₀.quorum < votes.length + 2)
    (hkeys : K.threshold m₀.voter.signature.pks < votes.length + 2)
    (hids : (kit :: (votes ++ [w]).map Prod.snd |>.map SignKit.signId).Nodup) :
    (m.voteQuorum w.1 p w.2).isSome := by
  have hnext : Pooled (m.poolWith w.1 p w.2) selfId kit (votes ++ [w]) := hpool.snoc hnew
  have hcard : HashMap.size (m.poolWith w.1 p w.2) = votes.length + 2 := by
    rw [hnext.size, List.length_append]
    rfl
  have hval : m.voter.validateVote p w.2 = true := by
    unfold Voter.validateVote at hvalid ⊢
    rw [h.setUp.signature]
    exact hvalid
  have hm : m.threshold < votes.length + 2 := by
    unfold threshold
    rw [h.setUp.total]
    exact lt_of_le_of_lt (le_max_left _ _) hsize
  have hv : m.voter.threshold < votes.length + 2 := by
    rw [h.setUp.threshold]
    exact lt_of_le_of_lt (le_max_right _ _) hsize
  have hcombine : (K.combineSignatures m.voter.signature.pks ((HashMap.values
      (m.poolWith w.1 p w.2)).map fun kit => (kit.signId, kit.sign))).isSome := by
    rw [laws.isSome_iff, Multiset.card_map, HashMap.card_values, hcard, h.setUp.signature,
      Multiset.map_map, hnext.values, Multiset.cons_coe, Multiset.map_coe]
    exact ⟨hkeys, Multiset.coe_nodup.mpr hids⟩
  unfold voteQuorum
  dsimp only
  rw [if_pos]
  · exact hcombine
  · exact ⟨hval, hnew, lt_of_lt_of_eq hm hcard.symm, lt_of_lt_of_eq hv hcard.symm⟩

/-- A completed quorum makes `p` the certified end of the chain. -/
theorem certify (laws : CombineLaws K) (h : Proposed m₀ m chain p)
    (hpool : Pooled (m.voter.pool p.height) selfId kit votes)
    (hall : ∀ x ∈ kit :: votes.map Prod.snd, m₀.voter.validateVote p x = true)
    (hquorum : (m.voteQuorum w.1 p w.2).isSome) :
    (m.onRecvVote w.1 p w.2).2 = .ok (.proposalReachConsensus p.height) ∧
      Leading m₀ (m.onRecvVote w.1 p w.2).1 (chain ++ [p]) ∧
      (m.onRecvVote w.1 p w.2).1.storage.state.currentView = p.height ∧
      (m.onRecvVote w.1 p w.2).1.storage.inMemQueue = m.storage.inMemQueue := by
  have hsame : ∀ x, m.voter.validateVote p x = m₀.voter.validateVote p x := by
    intro x
    unfold Voter.validateVote
    rw [h.setUp.signature]
  rcases m.onRecvVote_cases w.1 p w.2 with ⟨s, hs, hout, hst⟩ | ⟨hnone, -, -⟩
  · obtain ⟨hval, hnew, -, hcomb⟩ := voteQuorum_eq_some hs
    have hraises : m.storage.Raises p := by
      refine ⟨back chain 0, ?_, h.height⟩
      rw [h.certified.node]
      exact h.stored
    obtain ⟨hstate, hstore⟩ := HotstuffStorage.updateQcHigh_of_raises (m.formQc s) hraises
    rw [← hst] at hstate hstore
    have hget : ∀ k, (m.onRecvVote w.1 p w.2).1.storage.get k =
        if k = p.hash then some p else m.storage.get k := by
      intro k
      unfold HotstuffStorage.get
      rw [hstore, HashMap.lookup_insert_eq_ite]
    have hverifies : m.voter.validateQc p s = true := by
      rw [validateQc_combined_iff laws hcomb, forall_poolWith_iff hval hnew, hpool.values,
        Multiset.cons_coe]
      intro x hx
      rw [hsame]
      exact hall x (Multiset.mem_coe.mp hx)
    refine ⟨?_, ⟨h.setUp.onRecvVote w.1 p w.2, ?_, ⟨?_, ?_, ?_, ?_⟩, ?_, ?_⟩, ?_, ?_⟩
    · rw [hout]
      show Except.ok (Ready.proposalReachConsensus m.storage.state.currentView) = _
      rw [h.currentView]
    · rw [hstate, back_snoc_zero]
    · rw [hstate, back_snoc_zero]
      show m.storage.state.leaf.hash = p.hash
      rw [h.leaf]
    · rw [hstate, back_snoc_zero]
      exact h.currentView
    · intro hnil
      exact absurd hnil (List.append_ne_nil_of_right_ne_nil _ (List.cons_ne_nil _ _))
    · intro _
      rw [hstate, back_snoc_zero]
      unfold Voter.validateQc at hverifies ⊢
      rw [← h.setUp.signature]
      exact hverifies
    · rw [back_snoc_zero, hget, if_pos rfl]
    · intro k x hx
      rw [back_snoc_zero]
      rw [hget] at hx
      split at hx
      · rw [← Option.some.inj hx]
      · exact h.below k x hx
    · rw [hstate]
      exact h.currentView
    · rw [hstore]
      exact HashMap.insert_eq_self h.storedLeaf
  · rw [hnone] at hquorum
    cases hquorum

theorem of_alike {m' : Machine K} (h : Proposed m₀ m chain p) (ha : m.Alike m')
    (hconf : m'.storage.conf = m.storage.conf) : Proposed m₀ m' chain p := by
  refine ⟨h.setUp.of_alike ha hconf, ?_, ?_, ?_, ?_, ?_, ?_, h.height⟩
  · rw [ha.storage.state]
    exact h.currentView
  · rw [ha.storage.state]
    exact h.leaf
  · rw [ha.storage.state]
    exact h.certified
  · rw [ha.storage.get]
    exact h.stored
  · rw [ha.storage.get]
    exact h.storedLeaf
  · intro k x hx
    rw [ha.storage.get] at hx
    exact h.below k x hx

end Proposed

/-- A quorum takes its pool along. -/
theorem pool_of_voteQuorum (m : Machine K) {ctx : Context} {prop : TreeNode K} {sign : SignKit K}
    (h : (m.voteQuorum ctx prop sign).isSome) :
    (m.onRecvVote ctx prop sign).1.voter.pool prop.height = ∅ := by
  rcases m.onRecvVote_pool_cases ctx prop sign with ⟨-, -, -, hpool⟩ | ⟨hreach, -⟩
  · exact hpool
  · rw [reachConsensus_of_voteQuorum h] at hreach
    cases hreach

/-- A vote that completes no quorum has no result, and leaves the storage alone. -/
theorem queued_onRecvVote {ctx : Context} {prop : TreeNode K} {sign : SignKit K}
    (h : reachesConsensus (m.onRecvVote ctx prop sign).2 = false) :
    queued (m.onRecvVote ctx prop sign).2 = [] ∧
      (m.onRecvVote ctx prop sign).1.storage = m.storage := by
  constructor
  · have hpath := m.onRecvVote_path ctx prop sign
    generalize (m.onRecvVote ctx prop sign).1.voter.votingSet = votingSet at hpath
    generalize (m.onRecvVote ctx prop sign).2 = out at hpath h
    cases hpath with
    | invalid | duplicate | pooled | short | failed => rfl
    | formed => cases h
  · rcases m.onRecvVote_cases ctx prop sign with ⟨s, -, hout, -⟩ | ⟨-, -, hs⟩
    · rw [hout] at h
      cases h
    · exact hs

/-- Late votes, valid or not, fill the next pool of their height. -/
theorem Leading.lateVote (h : Leading m₀ m chain) (ctx : Context) (prop : TreeNode K)
    (sign : SignKit K) (hsize : (m.voter.pool prop.height).keys.card < m₀.threshold) :
    Leading m₀ (m.onRecvVote ctx prop sign).1 chain ∧
      queued (m.onRecvVote ctx prop sign).2 = [] ∧
      (m.onRecvVote ctx prop sign).1.storage = m.storage ∧
      ((m.onRecvVote ctx prop sign).1.voter.pool prop.height).keys.card ≤
        (m.voter.pool prop.height).keys.card + 1 := by
  have hth : m.threshold = m₀.threshold := by
    unfold threshold
    rw [h.setUp.total]
  rcases m.onRecvVote_pool_cases ctx prop sign with ⟨-, -, hquorum, -⟩ | ⟨hreach, hkeys⟩
  · have hle := Finset.card_insert_le ctx.sender (m.voter.pool prop.height).keys
    have hlt := lt_of_le_of_lt (le_max_left m.threshold m.voter.threshold) hquorum
    omega
  · obtain ⟨hqueued, hs⟩ := queued_onRecvVote hreach
    refine ⟨⟨h.setUp.onRecvVote ctx prop sign, ?_, ?_, ?_, ?_⟩, hqueued, hs, ?_⟩
    · rw [hs]
      exact h.leaf
    · rw [hs]
      exact h.certified
    · rw [hs]
      exact h.stored
    · rw [hs]
      exact h.below
    · refine (Finset.card_le_card hkeys).trans ?_
      split
      · exact Finset.card_insert_le _ _
      · exact Nat.le_succ _

end Machine

end HotstuffConsensus
