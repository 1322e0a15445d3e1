import HotstuffConsensus.LeaderRounds

/-!
# One block in each view

A leader that gets a quorum of `NewView` messages, transactions to propose and the votes of a
quorum for what it proposed brings its view to an end (`Leads.beat`). Over any number of such views
the proposals form a chain on the genesis block in which each block carries the certificate for
the one before (`leader_progress`), and a follower that is behind is sent exactly the blocks it
lacks.

A follower expects just that: together the two make progress (`fault_free_progress`).
-/

namespace HotstuffConsensus

open Lib

variable {K : Crypto} {chain : List (TreeNode K)} {p : TreeNode K} {m₀ : Machine K}

open EventLoop (ViewsMatch)

/-! ## Chains that grow -/

theorem back_zero (chain : List (TreeNode K)) :
    back chain 0 = chain.getLast?.getD (initNode K) := by
  unfold back
  rw [← List.head?_eq_getElem?, List.head?_reverse]

theorem HonestChain.nil (voter : Voter K) : HonestChain voter [] where
  first := by
    intro a ha
    cases ha
  next := List.IsChain.nil
  distinct := List.nodup_nil
  ne_genesis := by
    intro a ha
    cases ha
  ne_zero := by
    intro a ha
    cases ha

/-- The blocks a leader stores. -/
theorem values_chainStore {voter : Voter K} (h : HonestChain voter chain) :
    HashMap.values (chainStore chain) = ((initNode K :: chain : List (TreeNode K)) :
      Multiset (TreeNode K)) := by
  have hkeys : ∀ (chain : List (TreeNode K)) (k : NodeHash), k ≠ initNodeHash K →
      k ∉ chain.map TreeNode.hash → (chainStore chain).lookup k = none := by
    intro chain k hinit hk
    induction chain using List.reverseRecOn with
    | nil => rw [chainStore, List.foldl_nil, Finmap.lookup_insert_of_ne _ hinit, Finmap.lookup_empty]
    | append_singleton chain p ih =>
      rw [List.map_append, List.mem_append, not_or] at hk
      rw [chainStore_snoc, Finmap.lookup_insert_of_ne _ (fun heq => hk.2 (by simp [heq]))]
      exact ih hk.1
  induction chain using List.reverseRecOn with
  | nil =>
    unfold chainStore
    rw [List.foldl_nil, HashMap.values_insert_of_lookup_eq_none (Finmap.lookup_empty _)]
    rfl
  | append_singleton chain p ih =>
    have hnew : p.hash ∉ chain.map TreeNode.hash := by
      have hdistinct := h.distinct
      rw [List.map_append, List.nodup_append] at hdistinct
      intro hmem
      exact hdistinct.2.2 _ hmem _ (by simp) rfl
    rw [chainStore_snoc, HashMap.values_insert_of_lookup_eq_none
      (hkeys chain p.hash (h.ne_genesis p (by simp)) hnew), ih h.of_append, Multiset.cons_coe]
    exact Multiset.coe_eq_coe.mpr (List.perm_append_singleton p (initNode K :: chain)).symm

theorem HonestChain.snoc {voter : Voter K} (h : HonestChain voter chain)
    (hfollows : Follows (back chain 0) p) (hfirst : chain = [] → p.justify = initQc K)
    (hvalid : chain ≠ [] → voter.validateQc (back chain 0) p.justify.combinedSign = true)
    (hnew : p.hash ∉ initNodeHash K :: (GenericQC.zeroed K).node :: chain.map TreeNode.hash) :
    HonestChain voter (chain ++ [p]) := by
  simp only [List.mem_cons, not_or] at hnew
  refine ⟨?_, ?_, ?_, ?_, ?_⟩
  · intro a ha
    cases chain with
    | nil =>
      obtain rfl := Option.some.inj ha
      exact ⟨hfollows.height, hfollows.parent, hfirst rfl⟩
    | cons b chain => exact h.first a ha
  · refine h.next.append (.singleton p) ?_
    intro a ha b hb
    obtain rfl := Option.some.inj hb
    have hlast : back chain 0 = a := by
      rw [back_zero, Option.mem_def.mp ha]
      rfl
    rw [← hlast]
    refine ⟨hfollows, hvalid ?_⟩
    rintro rfl
    cases ha
  · rw [List.map_append, List.nodup_append]
    refine ⟨h.distinct, List.nodup_singleton _, ?_⟩
    intro a ha b hb heq
    rw [List.mem_singleton.mp hb] at heq
    exact hnew.2.2 (heq ▸ ha)
  · intro a ha
    rcases List.mem_append.mp ha with ha | ha
    · exact h.ne_genesis a ha
    · rw [List.mem_singleton.mp ha]
      exact hnew.1
  · intro a ha
    rcases List.mem_append.mp ha with ha | ha
    · exact h.ne_zero a ha
    · rw [List.mem_singleton.mp ha]
      exact hnew.2.1

/-- The heights of a chain grow. -/
theorem HonestChain.heights {voter : Voter K} (h : HonestChain voter chain) :
    (initNode K :: chain).Pairwise fun a b => a.height < b.height := by
  have hchain : (initNode K :: chain).IsChain fun a b => a.height < b.height := by
    refine List.IsChain.cons (h.next.imp fun a b hab => hab.1.height) ?_
    intro a ha
    exact (h.first a ha).1
  have : IsTrans (TreeNode K) fun a b => a.height < b.height := ⟨fun _ _ _ => lt_trans⟩
  exact hchain.pairwise

/-- A storage that holds a chain returns the end of it after a block. -/
theorem HonestChain.fetchesBranch {voter : Voter K} {before after : List (TreeNode K)}
    (h : HonestChain voter (before ++ after)) {s : HotstuffStorage K}
    (hstore : s.inMemQueue = chainStore (before ++ after)) (batch : ℕ) :
    s.FetchesBranch ⟨(back before 0).height, batch⟩ after := by
  have hheights := h.heights
  rw [← List.cons_append, List.pairwise_append] at hheights
  obtain ⟨hbefore, hafter, hacross⟩ := hheights
  have hlast : back before 0 ∈ initNode K :: before := by
    rcases back_mem before 0 with hmem | hinit
    · exact List.mem_cons_of_mem _ hmem
    · rw [hinit]
      exact List.mem_cons_self
  have hlow : ∀ a ∈ initNode K :: before, a.height ≤ (back before 0).height := by
    intro a ha
    rcases List.eq_nil_or_concat' before with rfl | ⟨init, q, rfl⟩
    · rw [List.mem_singleton.mp ha]
      exact le_refl _
    · rw [back_snoc_zero]
      rw [← List.cons_append] at ha hbefore
      rw [List.pairwise_append] at hbefore
      rcases List.mem_append.mp ha with ha | ha
      · exact (hbefore.2.2 a ha q List.mem_cons_self).le
      · rw [List.mem_singleton.mp ha]
  constructor
  · rw [hstore, values_chainStore h, ← List.cons_append, Multiset.filter_coe, List.filter_append,
      List.filter_eq_nil_iff.mpr, List.filter_eq_self.mpr]
    · rfl
    · intro a ha
      exact decide_eq_true (hacross _ hlast a ha)
    · intro a ha hlt
      exact absurd (of_decide_eq_true hlt) (not_lt.mpr (hlow a ha))
  · exact hafter.imp fun hab => hab.le

theorem EventLoop.ViewsMatch.snoc (h : ViewsMatch (initNode K) chain)
    (hview : p.justify.view = (back chain 0).height) :
    ViewsMatch (initNode K) (chain ++ [p]) := by
  have hgeneral : ∀ (parent : TreeNode K) (chain : List (TreeNode K)), ViewsMatch parent chain →
      p.justify.view = (chain.getLast?.getD parent).height → ViewsMatch parent (chain ++ [p]) := by
    intro parent chain
    induction chain generalizing parent with
    | nil => exact fun _ hview => ⟨hview, trivial⟩
    | cons q chain ih =>
      intro h hview
      refine ⟨h.1, ih q h.2 ?_⟩
      rw [List.getLast?_cons] at hview
      exact hview
  apply hgeneral _ _ h
  rw [← back_zero]
  exact hview

/-! ## Views -/

namespace EventLoop

variable {l : EventLoop K} {votes : List (Context × SignKit K)} {w : Context × SignKit K}

/-- What a leader gets in a view: `NewView` messages, transactions, the votes of other replicas
for what it proposes, and the votes that come too late. -/
structure Beat (K : Crypto) where
  o : Oracle K
  newViews : List (Context × GenericQC K)
  cmds : List Txn
  votes : List (Context × SignKit K)
  late : List (Context × SignKit K)

namespace Beat

def newViewRounds (b : Beat K) : List (LoopAction K) :=
  b.newViews.flatMap fun w => roundOf b.o (.newView w.1 w.2)

/-- The rounds of the view in which `p` is proposed. -/
def actions (b : Beat K) (p : TreeNode K) : List (LoopAction K) :=
  b.newViewRounds ++ proposeRound b.o b.cmds ++
    (b.votes.flatMap (voteRound b.o p) ++ b.late.flatMap (voteRound b.o p))

/-- A quorum of `NewView` messages for the view of `p`, with certificates of any kind, and valid
votes for `p` which are a quorum together with the leader's own. The late ones are none. -/
structure Supports (b : Beat K) (m₀ : Machine K) (p : TreeNode K) : Prop where
  views : ∀ w ∈ b.newViews, w.1.view = p.height
  newViews : m₀.storage.threshold < (b.newViews.map fun w => w.1.sender).toFinset.card
  valid : ∀ w ∈ b.votes, m₀.voter.validateVote p w.2 = true
  senders : (m₀.selfId :: b.votes.map fun w => w.1.sender).Nodup
  ids : ((m₀.voter.sign p :: b.votes.map Prod.snd).map SignKit.signId).Nodup
  votes : b.votes.length = m₀.threshold
  late : b.late.length ≤ m₀.threshold

end Beat

/-- The `NewView` messages of a view are all counted. -/
theorem Leads.newViews (h : l.Leads m₀ chain) (C : Codec K) (o : Oracle K)
    (ws : List (Context × GenericQC K)) (hws : ∀ w ∈ ws, w.1.view = l.pm.view) :
    let l' := (ws.flatMap fun w => roundOf o (.newView w.1 w.2)).foldl (step C) l
    l'.Leads m₀ chain ∧ l'.pm.view = l.pm.view ∧
      l'.pm.machine.storage.state = l.pm.machine.storage.state ∧
      (ws.map fun w => w.1.sender).toFinset ⊆ l'.pm.machine.storage.newViewSenders l.pm.view ∧
      l.pm.machine.storage.newViewSenders l.pm.view ⊆
        l'.pm.machine.storage.newViewSenders l.pm.view := by
  induction ws generalizing l with
  | nil => exact ⟨h, rfl, rfl, Finset.empty_subset _, Finset.Subset.refl _⟩
  | cons w ws ih =>
    obtain ⟨hnext, hview, hstate, hsenders⟩ := h.newView C o w.1 w.2
    have hw := hws w List.mem_cons_self
    obtain ⟨hend, hview', hstate', hnew, hold⟩ := ih hnext (by
      intro w' hw'
      rw [hview]
      exact hws w' (List.mem_cons_of_mem _ hw'))
    rw [hview] at hview' hnew hold
    rw [hstate] at hstate'
    rw [hw] at hsenders
    rw [hsenders] at hold
    rw [List.flatMap_cons, List.foldl_append]
    refine ⟨hend, hview', hstate', ?_, (Finset.subset_insert _ _).trans hold⟩
    rw [List.map_cons, List.toFinset_cons]
    exact Finset.insert_subset (hold (Finset.mem_insert_self _ _)) hnew

/-- All votes but the last of a quorum. -/
theorem Collects.gather (h : l.Collects m₀ chain p votes) (C : Codec K) (o : Oracle K)
    (ws : List (Context × SignKit K)) (hvalid : ∀ w ∈ ws, m₀.voter.validateVote p w.2 = true)
    (hsenders : (m₀.selfId :: (votes ++ ws).map fun w => w.1.sender).Nodup)
    (hsize : (votes ++ ws).length + 1 ≤ m₀.threshold) :
    ((ws.flatMap (voteRound o p)).foldl (step C) l).Collects m₀ chain p (votes ++ ws) := by
  induction ws generalizing l votes with
  | nil =>
    rw [List.append_nil]
    exact h
  | cons w ws ih =>
    rw [List.append_cons] at hsenders hsize
    have hnew : w.1.sender ∉ m₀.selfId :: votes.map fun w => w.1.sender := by
      rw [List.map_append, ← List.cons_append, List.map_append, ← List.cons_append,
        List.nodup_append] at hsenders
      have hinit := hsenders.1
      rw [List.nodup_append] at hinit
      intro hmem
      exact hinit.2.2 _ hmem _ (by simp) rfl
    have hlength : votes.length + 2 ≤ m₀.threshold := by
      rw [List.length_append, List.length_append, List.length_singleton] at hsize
      omega
    rw [List.flatMap_cons, List.foldl_append, List.append_cons]
    exact ih (h.vote C o (hvalid w List.mem_cons_self) hnew hlength)
      (fun w' hw' => hvalid w' (List.mem_cons_of_mem _ hw')) hsenders hsize

theorem Leads.lateVotes (h : l.Leads m₀ chain) (C : Codec K) (o : Oracle K)
    (hp : p.height < l.pm.view) (ws : List (Context × SignKit K))
    (hsize : (l.pm.machine.voter.pool p.height).keys.card + ws.length ≤ m₀.threshold) :
    ((ws.flatMap (voteRound o p)).foldl (step C) l).Leads m₀ chain := by
  induction ws generalizing l with
  | nil => exact h
  | cons w ws ih =>
    rw [List.length_cons] at hsize
    obtain ⟨hnext, hview, hcard⟩ := h.lateVote (w := w) C o hp (by omega)
    rw [List.flatMap_cons, List.foldl_append]
    refine ih hnext ?_ ?_
    · rw [hview]
      exact hp
    · omega

/-- The votes for a proposal of a supported leader end the view. -/
theorem Collects.support (laws : CombineLaws K) (h : l.Collects m₀ chain p []) (he : m₀.Equipped)
    (C : Codec K) {b : Beat K} (hb : b.Supports m₀ p) (hwrap : p.height ≠ U64.maxValue) :
    ((b.votes.flatMap (voteRound b.o p)).foldl (step C) l).Leads m₀ (chain ++ [p]) ∧
      ((b.votes.flatMap (voteRound b.o p)).foldl (step C) l).pm.machine.voter.pool p.height =
        ∅ := by
  obtain ⟨before, w, hvotes⟩ := (List.eq_nil_or_concat' b.votes).resolve_left (by
    intro hnil
    have hlength := hb.votes
    rw [hnil] at hlength
    exact absurd hlength (ne_of_lt he.replicas))
  have hlength : before.length + 1 = m₀.threshold := by
    rw [← hb.votes, hvotes, List.length_append]
    rfl
  have hvalid : ∀ x ∈ before ++ [w], m₀.voter.validateVote p x.2 = true := by
    rw [← hvotes]
    exact hb.valid
  have hids := hb.ids
  rw [hvotes] at hids
  have hnodup := hb.senders
  rw [hvotes, List.map_append, ← List.cons_append, List.nodup_append] at hnodup
  -- all votes but the last
  have hgathered := h.gather C b.o before
    (fun x hx => hvalid x (List.mem_append_left _ hx)) hnodup.1 (le_of_eq hlength)
  rw [List.nil_append] at hgathered
  have hall : ∀ x ∈ m₀.voter.sign p :: before.map Prod.snd, m₀.voter.validateVote p x = true := by
    intro x hx
    rcases List.mem_cons.mp hx with rfl | hx
    · exact he.own p
    · obtain ⟨y, hy, rfl⟩ := List.mem_map.mp hx
      exact hvalid y (List.mem_append_left _ hy)
  have hquorum : m₀.quorum ≤ m₀.threshold := max_le (le_refl _) he.voter
  have hkeys := he.keys
  rw [hvotes, List.flatMap_append, List.foldl_append, List.flatMap_singleton]
  exact hgathered.certify laws C b.o (hvalid w (List.mem_append_right _ List.mem_cons_self))
    (fun hmem => hnodup.2.2 _ hmem _ List.mem_cons_self rfl) hall hids (by omega) (by omega) hwrap

/-- A view in which the leader is supported adds a block to the chain. -/
theorem Leads.beat (laws : CombineLaws K) (h : l.Leads m₀ chain) (he : m₀.Equipped) (C : Codec K)
    {b : Beat K} (hp : p = l.pm.machine.makeLeaf b.cmds) (hb : b.Supports m₀ p)
    (hnew : p.hash ≠ (back chain 0).hash) (hwrap : chain.length + 2 < 2 ^ 64) :
    ((b.actions p).foldl (step C) l).Leads m₀ (chain ++ [p]) := by
  have hheight : p.height = l.pm.view := by
    rw [hp]
    exact h.currentView
  have hnat : p.height.toNat = chain.length + 1 := by
    rw [hheight]
    exact h.view
  have hmax : p.height ≠ U64.maxValue := by
    intro hmax
    rw [hmax] at hnat
    have hmaxNat : U64.maxValue.toNat = 18446744073709551615 := rfl
    omega
  -- the messages that start the view
  obtain ⟨hready, hview, hstate, hsenders, -⟩ := h.newViews C b.o b.newViews (by
    intro w hw
    rw [← hheight]
    exact hb.views w hw)
  obtain ⟨l₁, hl₁⟩ : ∃ l₁, l₁ = b.newViewRounds.foldl (step C) l := ⟨_, rfl⟩
  unfold Beat.newViewRounds at hl₁
  rw [← hl₁] at hready hview hstate hsenders
  have hleaf : l₁.pm.machine.makeLeaf b.cmds = p := by
    rw [hp]
    unfold Machine.makeLeaf
    rw [hstate]
  -- the proposal
  have hcollects := hready.propose C b.o b.cmds (by
    rw [hview]
    exact lt_of_lt_of_le hb.newViews (Finset.card_le_card hsenders)) (by
    rw [hleaf]
    exact hnew)
  rw [hleaf] at hcollects
  -- the votes, and those that come late
  obtain ⟨hleads, hpool⟩ := hcollects.support laws he C hb hmax
  have hlate := hleads.lateVotes (p := p) C b.o (by
    rw [UInt64.lt_iff_toNat_lt, hleads.view, hnat, List.length_append]
    exact Nat.lt_succ_self _) b.late (by
    rw [hpool]
    exact (le_of_eq (Nat.zero_add _)).trans hb.late)
  unfold Beat.actions Beat.newViewRounds
  rw [List.foldl_append, List.foldl_append, List.foldl_append, ← hl₁]
  exact hlate

/-- The runs in which a leader is supported in each of its views, and the chain it proposes. -/
inductive Led (C : Codec K) (m₀ : Machine K) (l₀ : EventLoop K) :
    List (LoopAction K) → List (TreeNode K) → Prop
  | nil : Led C m₀ l₀ [] []
  | beat {as : List (LoopAction K)} {chain : List (TreeNode K)} {p : TreeNode K}
      (h : Led C m₀ l₀ as chain) (b : Beat K)
      (hp : p = (as.foldl (step C) l₀).pm.machine.makeLeaf b.cmds) (hb : b.Supports m₀ p) :
      Led C m₀ l₀ (as ++ b.actions p) (chain ++ [p])

theorem leads_start (id : ReplicaID) (elector : RoundRobinLeaderElector) (machine : Machine K)
    (hm : FreshStorage machine.storage) (hpools : machine.voter.votingSet = ∅)
    (signaturer : DefaultSignaturer K) (db : Database) :
    (start (.new id elector machine signaturer) db).Leads machine [] := by
  have hget : ∀ k, machine.storage.get k =
      if k = initNodeHash K then some (initNode K) else none := by
    intro k
    unfold HotstuffStorage.get
    rw [hm.inMemQueue_eq, HashMap.lookup_insert_eq_ite]
    rfl
  have hfresh : machine.Leading machine [] := by
    refine ⟨⟨rfl, rfl, rfl, rfl, rfl⟩, hm.leaf_eq, ?_, ?_, ?_⟩
    · rw [hm.qcHigh_eq]
      exact ⟨rfl, rfl, fun _ => rfl, fun hne => absurd rfl hne⟩
    · rw [hget]
      exact if_pos rfl
    · intro k x hx
      rw [hget] at hx
      split at hx
      · rw [← Option.some.inj hx]
        exact le_refl _
      · cases hx
  refine ⟨rfl, rfl, rfl, ?_, ?_, rfl, rfl, ?_, rfl, hm.inMemQueue_eq⟩
  · exact (hfresh.increaseView _).of_alike
      (.onStorage _ (HotstuffStorage.alike_cleanNewViewSet _ _)) rfl
  · show max machine.storage.state.currentView (max 0 1) = max 0 1
    obtain ⟨token, hstate⟩ := hm.state_eq
    rw [hstate]
    rfl
  · intro v _
    show HashMap.entryD machine.voter.votingSet v ∅ = ∅
    rw [hpools]
    rfl

/-- The next proposal of a leader is a block on its chain. -/
theorem Leads.extends (h : l.Leads m₀ chain) (cmds : List Txn) {voter : Voter K}
    (hpks : voter.signature.pks = m₀.voter.signature.pks) (hc : HonestChain voter chain)
    (hviews : ViewsMatch (initNode K) chain) (hp : p = l.pm.machine.makeLeaf cmds)
    (hnew : p.hash ∉ initNodeHash K :: (GenericQC.zeroed K).node :: chain.map TreeNode.hash) :
    HonestChain voter (chain ++ [p]) ∧ ViewsMatch (initNode K) (chain ++ [p]) := by
  have hcertified : m₀.Certified chain p.justify := by
    rw [hp]
    exact h.machine.certified
  have hfollows : HotstuffConsensus.Follows (back chain 0) p := by
    refine ⟨?_, ?_, hcertified.node⟩
    · rw [hp, UInt64.lt_iff_toNat_lt, h.height]
      show chain.length < l.pm.machine.storage.state.currentView.toNat
      rw [h.currentView, h.view]
      exact Nat.lt_succ_self _
    · rw [hp]
      exact congrArg TreeNode.hash h.machine.leaf
  refine ⟨hc.snoc hfollows hcertified.first ?_ hnew, hviews.snoc hcertified.view⟩
  intro hne
  have hvalid := hcertified.valid hne
  unfold Voter.validateQc DefaultSignaturer.validateQc at hvalid ⊢
  rw [hpks]
  exact hvalid

/-- A leader that is supported in each view, with the chain it has proposed. -/
theorem Led.leads (laws : CombineLaws K) {C : Codec K} {l₀ : EventLoop K} (he : m₀.Equipped)
    (hstart : l₀.Leads m₀ []) {voter : Voter K}
    (hpks : voter.signature.pks = m₀.voter.signature.pks) {as : List (LoopAction K)}
    (h : Led C m₀ l₀ as chain)
    (hhash : (initNodeHash K :: (GenericQC.zeroed K).node :: chain.map TreeNode.hash).Nodup)
    (hwrap : chain.length + 1 < 2 ^ 64) :
    (as.foldl (step C) l₀).Leads m₀ chain ∧ HonestChain voter chain ∧
      ViewsMatch (initNode K) chain := by
  induction h with
  | nil => exact ⟨hstart, HonestChain.nil voter, trivial⟩
  | @beat as chain p _ b hp hb ih =>
    rw [List.map_append, ← List.cons_append, ← List.cons_append, List.nodup_append] at hhash
    rw [List.length_append] at hwrap
    obtain ⟨hleads, hc, hviews⟩ := ih hhash.1 (by omega)
    have hnew : p.hash ∉ initNodeHash K :: (GenericQC.zeroed K).node :: chain.map TreeNode.hash :=
      fun hmem => hhash.2.2 _ hmem _ List.mem_cons_self rfl
    have hback : p.hash ≠ (back chain 0).hash := by
      intro heq
      rcases back_mem chain 0 with hmem | hinit
      · apply hnew
        rw [heq]
        exact List.mem_cons_of_mem _ (List.mem_cons_of_mem _ (List.mem_map_of_mem hmem))
      · apply hnew
        rw [heq, hinit]
        exact List.mem_cons_self
    rw [List.foldl_append]
    exact ⟨hleads.beat laws he C hp hb hback hwrap, hleads.extends b.cmds hpks hc hviews hp hnew⟩

/-- A leader that is supported in each of its views proposes one block in each, on the one before
and with its certificate. It sends a replica that has the chain up to some block the blocks after
it. -/
theorem leader_progress (laws : CombineLaws K) (C : Codec K) (id : ReplicaID)
    (elector : RoundRobinLeaderElector) (machine : Machine K) (hm : FreshStorage machine.storage)
    (hpools : machine.voter.votingSet = ∅) (he : machine.Equipped)
    (signaturer : DefaultSignaturer K) (db : Database) {as : List (LoopAction K)}
    (h : Led C machine (start (.new id elector machine signaturer) db) as chain)
    (hhash : (initNodeHash K :: (GenericQC.zeroed K).node :: chain.map TreeNode.hash).Nodup)
    (hwrap : chain.length + 1 < 2 ^ 64) :
    let l := as.foldl (step C) (start (.new id elector machine signaturer) db)
    HonestChain machine.voter chain ∧ ViewsMatch (initNode K) chain ∧
      l.pm.sentProposals = chain ∧ l.pm.view.toNat = chain.length + 1 ∧
      l.pm.machine.storage.state.qcHigh.node = (back chain 0).hash ∧
      ∀ before after batch, chain = before ++ after →
        l.pm.machine.storage.FetchesBranch ⟨(back before 0).height, batch⟩ after := by
  obtain ⟨hleads, hc, hviews⟩ := h.leads laws he
    (leads_start id elector machine hm hpools signaturer db) rfl hhash hwrap
  refine ⟨hc, hviews, hleads.sent, hleads.view, hleads.machine.certified.node, ?_⟩
  rintro before after batch rfl
  exact hc.fetchesBranch hleads.store batch

/-- A leader that is supported in each of its views, and a follower that shares its public keys,
gets each proposal and is answered each of its sync requests: the follower votes for every block
the leader proposes, and commits them three blocks behind. -/
theorem fault_free_progress (laws : CombineLaws K) (C : Codec K) (id : ReplicaID)
    (elector : RoundRobinLeaderElector) (machine : Machine K) (hm : FreshStorage machine.storage)
    (hpools : machine.voter.votingSet = ∅) (he : machine.Equipped)
    (signaturer : DefaultSignaturer K) (db : Database) {as : List (LoopAction K)}
    (h : Led C machine (start (.new id elector machine signaturer) db) as chain)
    (hhash : (initNodeHash K :: (GenericQC.zeroed K).node :: chain.map TreeNode.hash).Nodup)
    (hwrap : chain.length + 1 < 2 ^ 64) (id' : ReplicaID) (elector' : RoundRobinLeaderElector)
    (machine' : Machine K) (hm' : FreshStorage machine'.storage)
    (hpks : machine'.voter.signature.pks = machine.voter.signature.pks)
    (signaturer' : DefaultSignaturer K) (db' : Database) (ds : List (Delivery K))
    (hds : ds.map Delivery.p =
      (as.foldl (step C) (start (.new id elector machine signaturer) db)).pm.sentProposals) :
    let l := as.foldl (step C) (start (.new id elector machine signaturer) db)
    let f := (followRun [] ds).foldl (step C) (start (.new id' elector' machine' signaturer') db')
    l.pm.view.toNat = chain.length + 1 ∧ f.pm.sentVotes = l.pm.sentProposals ∧
      f.pm.machine.storage.state.lastCommit = back l.pm.sentProposals 3 := by
  intro l f
  obtain ⟨hleads, hc, hviews⟩ := h.leads laws he
    (leads_start id elector machine hm hpools signaturer db) hpks hhash hwrap
  have hsent : l.pm.sentProposals = chain := hleads.sent
  have hchain : ds.map Delivery.p = chain := hds.trans hsent
  have hend : f.Tracks machine'.voter (ds.map Delivery.p) := by
    rw [← hchain] at hc hviews
    exact (tracks_start id' elector' machine' hm' signaturer' db').followRun C hc hviews
  refine ⟨hleads.view, ?_, ?_⟩
  · rw [hend.sent, hds]
  · rw [hend.machine.progressed.lastCommit, hds]

end EventLoop

namespace Symbolic

open EventLoop

/-- A view in which the other three replicas send `NewView` messages and vote for `p`, the last of
them too late. -/
def supportFor (view : ViewNumber) (tx : UInt8) (p : TreeNode symbolic) : Beat symbolic where
  o := oracle
  newViews := [1, 2, 3].map fun i => (.single (replicaId i) (replicaId 0) view, initQc symbolic)
  cmds := [⟨[tx]⟩]
  votes := [1, 2].map fun i => (ctxOf i, voteBy i p)
  late := [(ctxOf 3, voteBy 3 p)]

/-- What replica 0 proposes in view 1. -/
def lead1 : TreeNode symbolic := loop₀.pm.machine.makeLeaf [⟨[1]⟩]

def leadRun1 : List (LoopAction symbolic) := (supportFor 1 1 lead1).actions lead1

/-- What it proposes in view 2, with the certificate for `lead1`. -/
def lead2 : TreeNode symbolic := (leadRun1.foldl (step codec) loop₀).pm.machine.makeLeaf [⟨[2]⟩]

def leadRun2 : List (LoopAction symbolic) := leadRun1 ++ (supportFor 2 2 lead2).actions lead2

theorem equipped_fresh : (fresh 4 0).Equipped where
  replicas := by decide
  voter := by decide
  keys := by decide
  own x := by
    show decide ((0, x.toBeBytes) = ((0 : SignID), x.toBeBytes)) = true
    exact decide_eq_true rfl

theorem supports_lead1 : (supportFor 1 1 lead1).Supports (fresh 4 0) lead1 := by
  constructor <;> decide +kernel

theorem supports_lead2 : (supportFor 2 2 lead2).Supports (fresh 4 0) lead2 := by
  constructor <;> decide +kernel

theorem led_leadRun2 : Led codec (fresh 4 0) loop₀ leadRun2 [lead1, lead2] := by
  have hfirst : Led codec (fresh 4 0) loop₀ leadRun1 [lead1] := by
    have hrun : leadRun1 = [] ++ (supportFor 1 1 lead1).actions lead1 := rfl
    rw [hrun]
    exact Led.nil.beat (supportFor 1 1 lead1) rfl supports_lead1
  unfold leadRun2
  exact hfirst.beat (supportFor 2 2 lead2) rfl supports_lead2

theorem leads_hashes_nodup : (initNodeHash symbolic :: (GenericQC.zeroed symbolic).node ::
    [lead1, lead2].map TreeNode.hash).Nodup := by decide +kernel

/-- Two blocks are proposed, and one that has the first is sent the second. -/
theorem leader_progress_on_leadRun2 :
    HonestChain (fresh 4 0).voter [lead1, lead2] ∧
      (leadRun2.foldl (step codec) loop₀).pm.sentProposals = [lead1, lead2] ∧
      (leadRun2.foldl (step codec) loop₀).pm.machine.storage.FetchesBranch ⟨1, batchSize⟩
        [lead2] := by
  have hled := led_leadRun2
  unfold loop₀ at hled ⊢
  obtain ⟨hc, -, hsent, -, -, hfetches⟩ := leader_progress symbolic_combineLaws codec (replicaId 0) _
    (fresh 4 0) (.inMem _ _ _ _) rfl equipped_fresh _ _ hled leads_hashes_nodup (by decide)
  exact ⟨hc, hsent, hfetches [lead1] [lead2] batchSize rfl⟩

/-- What it proposes in views 3 and 4. -/
def lead3 : TreeNode symbolic := (leadRun2.foldl (step codec) loop₀).pm.machine.makeLeaf [⟨[3]⟩]

def leadRun3 : List (LoopAction symbolic) := leadRun2 ++ (supportFor 3 3 lead3).actions lead3

@[inherit_doc lead3]
def lead4 : TreeNode symbolic := (leadRun3.foldl (step codec) loop₀).pm.machine.makeLeaf [⟨[4]⟩]

def leadRun4 : List (LoopAction symbolic) := leadRun3 ++ (supportFor 4 4 lead4).actions lead4

theorem supports_lead3 : (supportFor 3 3 lead3).Supports (fresh 4 0) lead3 := by
  constructor <;> decide +kernel

theorem supports_lead4 : (supportFor 4 4 lead4).Supports (fresh 4 0) lead4 := by
  constructor <;> decide +kernel

theorem led_leadRun4 :
    Led codec (fresh 4 0) loop₀ leadRun4 [lead1, lead2, lead3, lead4] := by
  have hthird : Led codec (fresh 4 0) loop₀ leadRun3 [lead1, lead2, lead3] :=
    led_leadRun2.beat (supportFor 3 3 lead3) rfl supports_lead3
  exact hthird.beat (supportFor 4 4 lead4) rfl supports_lead4

/-- Replica 1 votes for the four blocks, and commits the first. -/
theorem fault_free_progress_on_leadRun4 :
    let f := (followRun []
        ([lead1, lead2, lead3, lead4].map fun p => ⟨oracle, ctxOf 0, p, ctxOf 0, ⟨0, batchSize⟩⟩)).foldl
      (step codec) (start (.new (replicaId 1) ⟨["replica-0", "replica-1", "replica-2", "replica-3"]⟩
        (fresh 4 1) (signaturer 4 1)) createTables)
    f.pm.sentVotes = [lead1, lead2, lead3, lead4] ∧
      f.pm.machine.storage.state.lastCommit = lead1 := by
  have hled := led_leadRun4
  have hsent : (leadRun4.foldl (step codec) loop₀).pm.sentProposals =
      [lead1, lead2, lead3, lead4] := by decide +kernel
  have hhash : (initNodeHash symbolic :: (GenericQC.zeroed symbolic).node ::
      [lead1, lead2, lead3, lead4].map TreeNode.hash).Nodup := by decide +kernel
  unfold loop₀ at hled hsent
  obtain ⟨-, hvotes, hcommit⟩ := fault_free_progress symbolic_combineLaws codec (replicaId 0) _
    (fresh 4 0) (.inMem _ _ _ _) rfl equipped_fresh _ _ hled hhash (by decide)
    (replicaId 1) ⟨["replica-0", "replica-1", "replica-2", "replica-3"]⟩ (fresh 4 1)
    (.inMem _ _ _ _) rfl (signaturer 4 1) createTables
    ([lead1, lead2, lead3, lead4].map fun p => ⟨oracle, ctxOf 0, p, ctxOf 0, ⟨0, batchSize⟩⟩)
    hsent.symm
  rw [hsent] at hvotes hcommit
  exact ⟨hvotes, hcommit⟩

end Symbolic

end HotstuffConsensus
