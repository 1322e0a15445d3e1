import HotstuffConsensus.BlockTree
import HotstuffConsensus.VoteOnce

/-!
# Certified blocks in a replica's store

A replica looks blocks up by hash, and a hash covers everything but the justify. What its
store says of a block is therefore which block it justifies: `Knows s k j`. A replica that
never overwrites a block by one with another justify keeps what it knows.

`Sane` is the invariant of such a replica. It is relative to `C`, the pairs of a block and
its justify that a quorum has signed: the justify of every known block is known and
certified, the lock is certified, and what was committed heads a certified three-chain of
consecutive heights.

The steps of a machine keep it under the conditions stated here as tests on the machine
before the step: `genuine`, `keepsJustify` and `commitsChain`.
-/

namespace HotstuffConsensus

open Lib Relation

variable {K : Crypto}

/-- The store holds a block with hash `k` whose justify names `j`. -/
def Knows (s : HotstuffStorage K) (k j : NodeHash) : Prop :=
  ∃ x, s.get k = some x ∧ x.justify.node = j

/-! ## The tests -/

/-- The certificate names `INIT_NODE`, or a stored block for which its signature validates.
`verify_proposal` skips the signature whenever `is_init_qc` holds. -/
def Machine.genuine (m : Machine K) (qc : GenericQC K) : Bool :=
  match m.storage.get qc.node with
  | some y => qc.node == initNodeHash K || m.voter.validateQc y qc.combinedSign
  | none => false

/-- Storing `x` overwrites no block whose justify names another block. -/
def HotstuffStorage.keepsJustify (s : HotstuffStorage K) (x : TreeNode K) : Bool :=
  match s.get x.hash with
  | some y => y.justify.node == x.justify.node
  | none => true

/-- `Raises` as a test. -/
def HotstuffStorage.raises (s : HotstuffStorage K) (node : TreeNode K) : Bool :=
  match s.get s.state.qcHigh.node with
  | some qcNode => decide (qcNode.height < node.height)
  | none => false

theorem HotstuffStorage.raises_eq_true {s : HotstuffStorage K} {node : TreeNode K}
    (h : s.Raises node) : s.raises node = true := by
  obtain ⟨qcNode, hget, hlt⟩ := h
  unfold raises
  rw [hget]
  exact decide_eq_true hlt

/-- If `update_nodes` commits for `p`, the heights of the three-chain are consecutive. -/
def HotstuffStorage.commitsChain (s : HotstuffStorage K) (p : TreeNode K) : Bool :=
  match s.findThreeChain p with
  | [b3, b2, b] =>
    !(b3.parent == b2.hash && b2.parent == b.hash && decide (s.state.committedHeight < b.height))
      || (b3.height.toNat == b2.height.toNat + 1 && b2.height.toNat == b.height.toNat + 1)
  | _ => true

namespace Machine

/-- What is asked of a verified proposal, sent alone or in a branch. -/
def propOk (m : Machine K) (p : TreeNode K) : Bool :=
  m.genuine p.justify && (!m.accepts p || m.storage.keepsJustify p) &&
    (m.stored p).storage.commitsChain p

/-- `propOk` at every round of the loop of `on_branch_sync`. -/
def branchOk (m : Machine K) : List (TreeNode K) → Bool
  | [] => true
  | p :: branch =>
    match m.verifyProposal p.justify with
    | .ok _ => m.propOk p && branchOk (m.processProp p) branch
    | .error _ => true

/-- What is asked of a vote: when it completes a quorum that raises `qc_high`, its proposal
is stored already, or its justify is genuine. -/
def voteOk (m : Machine K) (ctx : Context) (prop : TreeNode K) (sign : SignKit K) : Bool :=
  (m.voteQuorum ctx prop sign).isNone || !m.storage.raises prop ||
    (m.storage.keepsJustify prop && ((m.storage.get prop.hash).isSome || m.genuine prop.justify))

end Machine

/-! ## What a store knows -/

section

variable {s s' : HotstuffStorage K} {x : TreeNode K} {k j j' : NodeHash}

theorem Knows.unique (h : Knows s k j) (h' : Knows s k j') : j = j' := by
  obtain ⟨x, hx, rfl⟩ := h
  obtain ⟨y, hy, rfl⟩ := h'
  rw [hx] at hy
  rw [Option.some.inj hy]

theorem Knows.congr (h : Knows s k j) (hq : s'.inMemQueue = s.inMemQueue) : Knows s' k j := by
  obtain ⟨x, hx, hj⟩ := h
  refine ⟨x, ?_, hj⟩
  unfold HotstuffStorage.get at hx ⊢
  rw [hq]
  exact hx

theorem Knows.get (h : Knows s k j) (hk : Keyed s.inMemQueue) :
    ∃ x, s.get k = some x ∧ x.hash = k ∧ x.justify.node = j := by
  obtain ⟨x, hx, hj⟩ := h
  exact ⟨x, hx, hk k x hx, hj⟩

/-- A write that keeps the justify keeps what is known. -/
theorem Knows.write (h : Knows s k j) (hkeep : s.keepsJustify x = true)
    (hq : s'.inMemQueue = s.inMemQueue.insert x.hash x) : Knows s' k j := by
  obtain ⟨y, hy, hj⟩ := h
  by_cases hk : k = x.hash
  · subst hk
    refine ⟨x, ?_, ?_⟩
    · unfold HotstuffStorage.get
      rw [hq, Finmap.lookup_insert]
    · unfold HotstuffStorage.keepsJustify at hkeep
      rw [hy] at hkeep
      rw [← hj]
      exact (beq_iff_eq.mp hkeep).symm
  · refine ⟨y, ?_, hj⟩
    unfold HotstuffStorage.get at hy ⊢
    rw [hq, Finmap.lookup_insert_of_ne _ hk]
    exact hy

theorem knows_write (hq : s'.inMemQueue = s.inMemQueue.insert x.hash x) :
    Knows s' x.hash x.justify.node := by
  refine ⟨x, ?_, rfl⟩
  unfold HotstuffStorage.get
  rw [hq, Finmap.lookup_insert]

theorem Knows.keepsJustify (h : Knows s x.hash x.justify.node) : s.keepsJustify x = true := by
  obtain ⟨y, hy, hj⟩ := h
  unfold HotstuffStorage.keepsJustify
  rw [hy]
  exact beq_iff_eq.mpr hj

theorem knows_of_keepsJustify (h : s.keepsJustify x = true) (hx : (s.get x.hash).isSome) :
    Knows s x.hash x.justify.node := by
  obtain ⟨y, hy⟩ := Option.isSome_iff_exists.mp hx
  unfold HotstuffStorage.keepsJustify at h
  rw [hy] at h
  exact ⟨y, hy, beq_iff_eq.mp h⟩

/-- What is known after a write was known before, or was written. -/
theorem Knows.of_write (h : Knows s' k j) (hq : s'.inMemQueue = s.inMemQueue.insert x.hash x) :
    Knows s k j ∨ k = x.hash ∧ j = x.justify.node := by
  obtain ⟨y, hy, hj⟩ := h
  unfold HotstuffStorage.get at hy
  rw [hq] at hy
  rcases HashMap.lookup_insert_cases hy with ⟨hk, rfl⟩ | hy
  · exact Or.inr ⟨hk, hj.symm⟩
  · exact Or.inl ⟨y, hy, hj⟩

end

/-! ## The invariant -/

/-- The block with hash `k` is stored, and a quorum signed it as it is stored. -/
def Backs (C : NodeHash → NodeHash → Prop) (s : HotstuffStorage K) (k : NodeHash) : Prop :=
  ∃ j, Knows s k j ∧ (k = initNodeHash K ∨ C k j)

/-- A certified three-chain of consecutive heights over the block with hash `b`. -/
def CommitChain (U : Set (TreeNode K)) (C : NodeHash → NodeHash → Prop) (b : NodeHash) : Prop :=
  ∃ b' b'', C b' b ∧ C b'' b' ∧ Parent U b' b ∧ Parent U b'' b' ∧
    heightOf U b' = heightOf U b + 1 ∧ heightOf U b'' = heightOf U b' + 1

structure Sane (U : Set (TreeNode K)) (C : NodeHash → NodeHash → Prop)
    (s : HotstuffStorage K) : Prop where
  keyed : Keyed s.inMemQueue
  within : ∀ k x, s.inMemQueue.lookup k = some x → x ∈ U
  init : Knows s (initNodeHash K) (GenericQC.zeroed K).node
  justified : ∀ k j, Knows s k j → k = initNodeHash K ∨ Backs C s j
  leaf_mem : s.state.leaf ∈ U
  leaf_known : Knows s s.state.leaf.hash s.state.leaf.justify.node
  locked_mem : s.state.bLocked ∈ U
  locked : s.state.bLocked.hash = initNodeHash K ∨ ∃ j, C s.state.bLocked.hash j
  commit_mem : s.state.lastCommit ∈ U
  committed : s.state.lastCommit.hash = initNodeHash K ∨ CommitChain U C s.state.lastCommit.hash

namespace Sane

variable {U : Set (TreeNode K)} {C C' : NodeHash → NodeHash → Prop} {s s' : HotstuffStorage K}
  {x : TreeNode K}

theorem mono (h : Sane U C s) (hC : ∀ k j, C k j → C' k j) : Sane U C' s where
  keyed := h.keyed
  within := h.within
  init := h.init
  justified k j hkj := by
    rcases h.justified k j hkj with hk | ⟨j', hj', hc⟩
    · exact Or.inl hk
    · exact Or.inr ⟨j', hj', hc.imp_right (hC _ _)⟩
  leaf_mem := h.leaf_mem
  leaf_known := h.leaf_known
  locked_mem := h.locked_mem
  locked := h.locked.imp_right fun ⟨j, hj⟩ => ⟨j, hC _ _ hj⟩
  commit_mem := h.commit_mem
  committed := h.committed.imp_right fun ⟨b', b'', h1, h2, hrest⟩ =>
    ⟨b', b'', hC _ _ h1, hC _ _ h2, hrest⟩

/-- A change that leaves the store alone, and leaf, lock and commit within the invariant. -/
theorem quiet (h : Sane U C s) (hq : s'.inMemQueue = s.inMemQueue)
    (hleaf : s'.state.leaf ∈ U ∧ Knows s s'.state.leaf.hash s'.state.leaf.justify.node)
    (hlock : s'.state.bLocked ∈ U ∧
      (s'.state.bLocked.hash = initNodeHash K ∨ ∃ j, C s'.state.bLocked.hash j))
    (hcommit : s'.state.lastCommit ∈ U ∧
      (s'.state.lastCommit.hash = initNodeHash K ∨ CommitChain U C s'.state.lastCommit.hash)) :
    Sane U C s' where
  keyed := by rw [hq]; exact h.keyed
  within := by rw [hq]; exact h.within
  init := h.init.congr hq
  justified k j hkj := by
    rcases h.justified k j (hkj.congr hq.symm) with hk | ⟨j', hj', hc⟩
    · exact Or.inl hk
    · exact Or.inr ⟨j', hj'.congr hq, hc⟩
  leaf_mem := hleaf.1
  leaf_known := hleaf.2.congr hq
  locked_mem := hlock.1
  locked := hlock.2
  commit_mem := hcommit.1
  committed := hcommit.2

/-- A write that keeps the justify. What is new must have a certified justify. -/
theorem write (h : Sane U C s) (hx : x ∈ U) (hkeep : s.keepsJustify x = true)
    (hjust : Knows s x.hash x.justify.node ∨ Backs C s x.justify.node)
    (hq : s'.inMemQueue = s.inMemQueue.insert x.hash x)
    (hleaf : s'.state.leaf = s.state.leaf ∨ s'.state.leaf = x)
    (hlock : s'.state.bLocked = s.state.bLocked)
    (hcommit : s'.state.lastCommit = s.state.lastCommit) : Sane U C s' where
  keyed := by rw [hq]; exact h.keyed.insert x
  within k y hy := by
    rw [hq] at hy
    rcases HashMap.lookup_insert_cases hy with ⟨-, rfl⟩ | hy
    · exact hx
    · exact h.within k y hy
  init := h.init.write hkeep hq
  justified k j hkj := by
    have hbacks : Backs C s j → Backs C s' j := fun ⟨j', hj', hc⟩ => ⟨j', hj'.write hkeep hq, hc⟩
    have hold : Knows s k j → k = initNodeHash K ∨ Backs C s' j := by
      intro hkj
      exact (h.justified k j hkj).imp_right hbacks
    rcases hkj.of_write hq with hkj | ⟨rfl, rfl⟩
    · exact hold hkj
    · rcases hjust with hjust | hjust
      · exact hold hjust
      · exact Or.inr (hbacks hjust)
  leaf_mem := by
    rcases hleaf with hleaf | hleaf <;> rw [hleaf]
    · exact h.leaf_mem
    · exact hx
  leaf_known := by
    rcases hleaf with hleaf | hleaf <;> rw [hleaf]
    · exact h.leaf_known.write hkeep hq
    · exact knows_write hq
  locked_mem := by rw [hlock]; exact h.locked_mem
  locked := by rw [hlock]; exact h.locked
  commit_mem := by rw [hcommit]; exact h.commit_mem
  committed := by rw [hcommit]; exact h.committed

theorem fresh (hU : HashSound U) (h : FreshStorage s) : Sane U C s := by
  have hget : s.get (initNodeHash K) = some (initNode K) := by
    unfold HotstuffStorage.get
    rw [h.inMemQueue_eq, Finmap.lookup_insert]
  have honly : ∀ k x, s.inMemQueue.lookup k = some x → k = initNodeHash K ∧ x = initNode K := by
    intro k x hx
    rw [h.inMemQueue_eq] at hx
    rcases HashMap.lookup_insert_cases hx with hx | hx
    · exact hx
    · rw [Finmap.lookup_empty] at hx
      cases hx
  have hlock : s.state.bLocked = initNode K := by cases h <;> rfl
  have hcommit : s.state.lastCommit = initNode K := by cases h <;> rfl
  refine ⟨h.keyed, ?_, ⟨_, hget, rfl⟩, ?_, ?_, ?_, ?_, ?_, ?_, ?_⟩
  · intro k x hx
    rw [(honly k x hx).2]
    exact hU.init_mem
  · intro k j hkj
    obtain ⟨x, hx, -⟩ := hkj
    exact Or.inl (honly k x hx).1
  · rw [h.leaf_eq]
    exact hU.init_mem
  · rw [h.leaf_eq]
    exact ⟨_, hget, rfl⟩
  · rw [hlock]
    exact hU.init_mem
  · rw [hlock]
    exact Or.inl rfl
  · rw [hcommit]
    exact hU.init_mem
  · rw [hcommit]
    exact Or.inl rfl

end Sane

/-! ## Chains of justifies -/

section

variable {U : Set (TreeNode K)} {C : NodeHash → NodeHash → Prop} {s : HotstuffStorage K}
  {k j j' : NodeHash}

/-- The justify of `INIT_NODE` names nothing. -/
theorem Sane.ne_init (hU : HashSound U) (h : Sane U C s) (hk : Knows s k j) (hj : Knows s j j') :
    k ≠ initNodeHash K := by
  intro hinit
  subst hinit
  obtain ⟨y, hy, hyj, -⟩ := hj.get h.keyed
  apply hU.ne_zeroed y (h.within j y hy)
  rw [hyj]
  exact hk.unique h.init

/-- From a certified block to its justify. -/
theorem Sane.next (hU : HashSound U) (h : Sane U C s) (hb : Backs C s k) (hk : Knows s k j)
    (hj : Knows s j j') : C k j ∧ Backs C s j := by
  have hne := h.ne_init hU hk hj
  constructor
  · obtain ⟨i, hi, hc⟩ := hb
    rw [hk.unique hi]
    exact hc.resolve_left hne
  · exact (h.justified k j hk).resolve_left hne

theorem Backs.certified (h : Backs C s k) : k = initNodeHash K ∨ ∃ j, C k j := by
  obtain ⟨j, -, hc⟩ := h
  exact hc.imp_right fun hc => ⟨j, hc⟩

/-- The second block of the chain: the justify of the block that `p` justifies. -/
def HotstuffStorage.secondJustify (s : HotstuffStorage K) (p : TreeNode K) : Option (TreeNode K) :=
  (s.get p.justify.node).bind fun b3 => s.get b3.justify.node

/-- The second block of the chain is stored, unless the first is `INIT_NODE`. -/
theorem Sane.exists_secondJustify (h : Sane U C s) {p : TreeNode K}
    (hb : Backs C s p.justify.node) (hne : p.justify.node ≠ initNodeHash K) :
    ∃ z, s.secondJustify p = some z := by
  obtain ⟨j, hk, -⟩ := hb
  obtain ⟨j', ⟨z, hz, -⟩, -⟩ := (h.justified _ j hk).resolve_left hne
  obtain ⟨b3, hb3, hb3j⟩ := hk
  refine ⟨z, ?_⟩
  unfold HotstuffStorage.secondJustify
  rw [hb3, Option.bind_some, hb3j]
  exact hz

/-- The second block of the chain is certified, and it is the justify of the first. -/
theorem Sane.secondJustify (hU : HashSound U) (h : Sane U C s) {p z : TreeNode K}
    (hb : Backs C s p.justify.node) (hz : s.secondJustify p = some z) :
    z ∈ U ∧ C p.justify.node z.hash ∧ Backs C s z.hash := by
  unfold HotstuffStorage.secondJustify at hz
  obtain ⟨b3, hb3, hz⟩ := Option.bind_eq_some_iff.mp hz
  have hzh : z.hash = b3.justify.node := h.keyed _ z hz
  have hk : Knows s p.justify.node z.hash := ⟨b3, hb3, hzh.symm⟩
  have hj : Knows s z.hash z.justify.node := ⟨z, by rw [hzh]; exact hz, rfl⟩
  exact ⟨h.within _ z hz, h.next hU hb hk hj⟩

end

/-! ## `update_nodes` -/

/-- From `s` to `s'` the invariant, what is known, and the height of the lock are kept. -/
structure Progress (U : Set (TreeNode K)) (C : NodeHash → NodeHash → Prop)
    (s s' : HotstuffStorage K) : Prop where
  sane : Sane U C s'
  knows : ∀ k j, Knows s k j → Knows s' k j
  locked : s.state.bLocked.height ≤ s'.state.bLocked.height

namespace Progress

variable {U : Set (TreeNode K)} {C : NodeHash → NodeHash → Prop} {s s' s'' : HotstuffStorage K}

theorem refl (h : Sane U C s) : Progress U C s s := ⟨h, fun _ _ hk => hk, le_refl _⟩

theorem trans (h : Progress U C s s') (h' : Progress U C s' s'') : Progress U C s s'' :=
  ⟨h'.sane, fun k j hk => h'.knows k j (h.knows k j hk), h.locked.trans h'.locked⟩

theorem backs (h : Progress U C s s') {k : NodeHash} (hb : Backs C s k) : Backs C s' k := by
  obtain ⟨j, hj, hc⟩ := hb
  exact ⟨j, h.knows k j hj, hc⟩

/-- The store and the state are the same. -/
theorem of_eq (h : Sane U C s) (hq : s'.inMemQueue = s.inMemQueue)
    (hleaf : s'.state.leaf = s.state.leaf) (hlock : s'.state.bLocked = s.state.bLocked)
    (hcommit : s'.state.lastCommit = s.state.lastCommit) : Progress U C s s' where
  sane := by
    refine h.quiet hq ?_ ?_ ?_
    · rw [hleaf]
      exact ⟨h.leaf_mem, h.leaf_known⟩
    · rw [hlock]
      exact ⟨h.locked_mem, h.locked⟩
    · rw [hcommit]
      exact ⟨h.commit_mem, h.committed⟩
  knows _ _ hk := hk.congr hq
  locked := by rw [hlock]

end Progress

namespace Machine

variable {U : Set (TreeNode K)} {C : NodeHash → NodeHash → Prop}

/-- The first part of `update_nodes` moves the leaf to a stored block at most. -/
theorem updateNodesQcHigh_progress {s : HotstuffStorage K} (h : Sane U C s) (p : TreeNode K) :
    Progress U C s (updateNodesQcHigh s (s.findThreeChain p) p) := by
  unfold updateNodesQcHigh
  rw [HotstuffStorage.findThreeChain_head?]
  cases hb : s.get p.justify.node with
  | none => exact .refl h
  | some b3 =>
    have hstored : s.get b3.hash = some b3 := by
      rw [h.keyed _ b3 hb]
      exact hb
    have hq := HotstuffStorage.updateQcHigh_inMemQueue_of_stored p.justify hstored
    dsimp only
    refine ⟨h.quiet hq ?_ ?_ ?_, fun _ _ hk => hk.congr hq, ?_⟩
    · rcases HotstuffStorage.updateQcHigh_cases s b3 p.justify with ⟨-, hs⟩ | ⟨-, hs, -⟩
      · rw [hs]
        exact ⟨h.leaf_mem, h.leaf_known⟩
      · rw [hs]
        exact ⟨h.within _ b3 hb, b3, hstored, rfl⟩
    · rw [HotstuffStorage.updateQcHigh_bLocked]
      exact ⟨h.locked_mem, h.locked⟩
    · rw [HotstuffStorage.updateQcHigh_lastCommit]
      exact ⟨h.commit_mem, h.committed⟩
    · rw [HotstuffStorage.updateQcHigh_bLocked]

/-- The second part moves the lock to a certified block at most. -/
theorem updateNodesLocked_progress (hU : HashSound U) {s s₁ : HotstuffStorage K}
    (h : Sane U C s) (h₁ : Sane U C s₁) {p : TreeNode K} (hp : Backs C s p.justify.node) :
    Progress U C s₁ (updateNodesLocked s₁ (s.findThreeChain p)) := by
  obtain ⟨hq, hleaf, hcommit, -, hmono, -, hlock⟩ :=
    updateNodesLocked_cases s₁ (s.findThreeChain p)
  refine ⟨h₁.quiet hq ?_ ?_ ?_, fun _ _ hk => hk.congr hq, hmono⟩
  · rw [hleaf]
    exact ⟨h₁.leaf_mem, h₁.leaf_known⟩
  · rcases hlock with hlock | hlock
    · rw [hlock]
      exact ⟨h₁.locked_mem, h₁.locked⟩
    · -- the new lock is the justify of the justify of `p`, certified by the justify
      rw [s.findThreeChain_second? p] at hlock
      obtain ⟨hmem, -, hback⟩ := h.secondJustify hU hp hlock
      exact ⟨hmem, hback.certified⟩
  · rw [hcommit]
    exact ⟨h₁.commit_mem, h₁.committed⟩

/-- The commit at the end: the head of the three-chain, if it is higher. -/
theorem commit_progress {s : HotstuffStorage K} (h : Sane U C s) {b : TreeNode K} (hb : b ∈ U)
    (hchain : s.state.committedHeight < b.height → CommitChain U C b.hash) :
    Progress U C s (s.commit b) := by
  by_cases hle : b.height ≤ s.state.committedHeight
  · have hst : (s.commit b).state = s.state := by rw [HotstuffStorage.commit_state, if_pos hle]
    exact .of_eq h (s.commit_inMemQueue b) (by rw [hst]) (by rw [hst]) (by rw [hst])
  · have hst : (s.commit b).state =
        { s.state with committedHeight := b.height, lastCommit := b } := by
      rw [HotstuffStorage.commit_state, if_neg hle]
    have hq := s.commit_inMemQueue b
    refine ⟨h.quiet hq ?_ ?_ ?_, fun _ _ hk => hk.congr hq, by rw [hst]⟩
    · rw [hst]
      exact ⟨h.leaf_mem, h.leaf_known⟩
    · rw [hst]
      exact ⟨h.locked_mem, h.locked⟩
    · rw [hst]
      exact ⟨hb, Or.inr (hchain (not_le.mp hle))⟩

/-- A chain that passes the test of `update_nodes` and has consecutive heights. -/
theorem commitChain_of_chain (hU : HashSound U) {s : HotstuffStorage K} (h : Sane U C s)
    {p b3 b2 b : TreeNode K} (hp : Backs C s p.justify.node)
    (hchain : s.findThreeChain p = [b3, b2, b]) (h32 : b3.parent = b2.hash)
    (h21 : b2.parent = b.hash) (hc : s.commitsChain p = true) :
    b ∈ U ∧ (s.state.committedHeight < b.height → CommitChain U C b.hash) := by
  obtain ⟨hg3, hg2, hg1⟩ := HotstuffStorage.findThreeChain_eq_three.mp hchain
  have hb3 := h.keyed _ b3 hg3
  have hb2 := h.keyed _ b2 hg2
  have hb1 := h.keyed _ b hg1
  have hm3 := h.within _ b3 hg3
  have hm2 := h.within _ b2 hg2
  have hm1 := h.within _ b hg1
  have hk3 : Knows s b3.hash b2.hash := ⟨b3, by rw [hb3]; exact hg3, hb2.symm⟩
  have hk2 : Knows s b2.hash b.hash := ⟨b2, by rw [hb2]; exact hg2, hb1.symm⟩
  have hk1 : Knows s b.hash b.justify.node := ⟨b, by rw [hb1]; exact hg1, rfl⟩
  rw [← hb3] at hp
  obtain ⟨hc3, hback2⟩ := h.next hU hp hk3 hk2
  obtain ⟨hc2, -⟩ := h.next hU hback2 hk2 hk1
  refine ⟨hm1, ?_⟩
  intro hlt
  unfold HotstuffStorage.commitsChain at hc
  rw [hchain] at hc
  simp only [h32, h21, hlt, beq_self_eq_true, decide_true, Bool.and_true, Bool.not_true,
    Bool.false_or, Bool.and_eq_true, beq_iff_eq] at hc
  refine ⟨b2.hash, b3.hash, hc2, hc3, HashSound.parent_of hm2 hm1 h21,
    HashSound.parent_of hm3 hm2 h32, ?_, ?_⟩
  · rw [hU.heightOf_hash hm2, hU.heightOf_hash hm1]
    exact hc.2
  · rw [hU.heightOf_hash hm3, hU.heightOf_hash hm2]
    exact hc.1

theorem updateNodes_progress (hU : HashSound U) {m : Machine K} (h : Sane U C m.storage)
    {p : TreeNode K} (hp : Backs C m.storage p.justify.node)
    (hc : m.storage.commitsChain p = true) :
    Progress U C m.storage (m.updateNodes p).1.storage ∧
      ∀ z, m.storage.secondJustify p = some z →
        z.height ≤ (m.updateNodes p).1.storage.state.bLocked.height := by
  obtain ⟨s₁, hs₁⟩ : ∃ s₁, s₁ = updateNodesQcHigh m.storage (m.storage.findThreeChain p) p :=
    ⟨_, rfl⟩
  obtain ⟨s₂, hs₂⟩ : ∃ s₂, s₂ = updateNodesLocked s₁ (m.storage.findThreeChain p) := ⟨_, rfl⟩
  have h₁ : Progress U C m.storage s₁ := hs₁ ▸ updateNodesQcHigh_progress h p
  have h₂ : Progress U C s₁ s₂ := hs₂ ▸ updateNodesLocked_progress hU h h₁.sane hp
  obtain ⟨-, -, -, hheight, -, hsecond, -⟩ :=
    hs₂ ▸ updateNodesLocked_cases s₁ (m.storage.findThreeChain p)
  have hget : (m.storage.findThreeChain p)[1]? = m.storage.secondJustify p :=
    m.storage.findThreeChain_second? p
  -- a commit after that leaves the lock where it is
  have hend : ∀ s₃, Progress U C s₂ s₃ → Progress U C m.storage s₃ ∧
      ∀ z, m.storage.secondJustify p = some z → z.height ≤ s₃.state.bLocked.height := by
    intro s₃ h₃
    refine ⟨(h₁.trans h₂).trans h₃, ?_⟩
    intro z hz
    exact (hsecond z (hget.trans hz)).trans h₃.locked
  rw [updateNodes_storage]
  dsimp only
  rw [← hs₁, ← hs₂]
  split
  · rename_i b3 b2 b heq
    split
    · rename_i hpar
      apply hend
      have hbc := commitChain_of_chain hU h hp heq hpar.1 hpar.2 hc
      refine commit_progress h₂.sane hbc.1 ?_
      -- nothing before the commit touches the committed height
      have hsame : s₂.state.committedHeight = m.storage.state.committedHeight := by
        rw [hheight, hs₁]
        exact (updateNodesQcHigh_frame _ _ _).2.2.1
      rw [hsame]
      exact hbc.2
    · exact hend s₂ (.refl h₂.sane)
  · exact hend s₂ (.refl h₂.sane)

/-! ## Proposals and branches -/

/-- A genuine certificate is a certified block, if its signature is only valid for what a
quorum signed. -/
theorem backs_of_genuine {m : Machine K} (h : Sane U C m.storage) {qc : GenericQC K}
    (hsig : ∀ y ∈ U, m.voter.validateQc y qc.combinedSign = true → C y.hash y.justify.node)
    (hg : m.genuine qc = true) : Backs C m.storage qc.node := by
  unfold genuine at hg
  split at hg
  · rename_i y hy
    rw [Bool.or_eq_true, beq_iff_eq] at hg
    refine ⟨y.justify.node, ⟨y, hy, rfl⟩, hg.imp_right ?_⟩
    intro hv
    have hc := hsig y (h.within _ y hy) hv
    rw [h.keyed _ y hy] at hc
    exact hc
  · cases hg

theorem stored_progress {m : Machine K} (h : Sane U C m.storage) {p : TreeNode K} (hp : p ∈ U)
    (hb : Backs C m.storage p.justify.node)
    (hkeep : m.accepts p = true → m.storage.keepsJustify p = true) :
    Progress U C m.storage (m.stored p).storage := by
  unfold stored
  by_cases hacc : m.accepts p = true
  · rw [if_pos hacc]
    have hq : (m.store p).storage.inMemQueue = m.storage.inMemQueue.insert p.hash p := rfl
    refine ⟨h.write hp (hkeep hacc) (Or.inr hb) hq (Or.inl rfl) rfl rfl, ?_, le_refl _⟩
    exact fun _ _ hk => hk.write (hkeep hacc) hq
  · rw [if_neg hacc]
    exact .refl h

/-- Processing a verified proposal keeps the invariant, and leaves a lock at or above the
justify of the proposal's justify. -/
theorem processProp_progress (hU : HashSound U) {m : Machine K} (h : Sane U C m.storage)
    {p : TreeNode K} (hp : p ∈ U) (hb : Backs C m.storage p.justify.node)
    (hok : m.propOk p = true) :
    Progress U C m.storage (m.processProp p).storage ∧
      (p.justify.node = initNodeHash K ∨ ∃ j, C p.justify.node j ∧
        heightOf U j ≤ (m.processProp p).storage.state.bLocked.height.toNat) ∧
      (m.accepts p = true → Knows (m.processProp p).storage p.hash p.justify.node) := by
  unfold propOk at hok
  rw [Bool.and_eq_true, Bool.and_eq_true, Bool.or_eq_true, Bool.not_eq_true'] at hok
  obtain ⟨⟨-, hkeep⟩, hchain⟩ := hok
  have h₁ : Progress U C m.storage (m.stored p).storage := by
    refine stored_progress h hp hb ?_
    intro hacc
    rcases hkeep with hkeep | hkeep
    · rw [hacc] at hkeep
      cases hkeep
    · exact hkeep
  have hb₁ := h₁.backs hb
  obtain ⟨h₂, hlock⟩ := updateNodes_progress hU h₁.sane hb₁ hchain
  refine ⟨h₁.trans h₂, ?_, ?_⟩
  · by_cases hinit : p.justify.node = initNodeHash K
    · exact Or.inl hinit
    right
    obtain ⟨z, hsecond⟩ := h₁.sane.exists_secondJustify hb₁ hinit
    obtain ⟨hz, hc, -⟩ := h₁.sane.secondJustify hU hb₁ hsecond
    refine ⟨z.hash, hc, ?_⟩
    rw [hU.heightOf_hash hz]
    exact UInt64.le_iff_toNat_le.mp (hlock z hsecond)
  · intro hacc
    apply h₂.knows
    unfold stored
    rw [if_pos hacc]
    exact knows_write (s := m.storage) rfl

theorem genuine_of_propOk {m : Machine K} {p : TreeNode K} (hok : m.propOk p = true) :
    m.genuine p.justify = true := by
  unfold propOk at hok
  rw [Bool.and_eq_true, Bool.and_eq_true] at hok
  exact hok.1.1

theorem syncNodes_progress (hU : HashSound U) {m : Machine K} {branch : List (TreeNode K)}
    (h : Sane U C m.storage) (hbranch : ∀ p ∈ branch, p ∈ U)
    (hsig : ∀ p ∈ branch, ∀ y ∈ U,
      m.voter.validateQc y p.justify.combinedSign = true → C y.hash y.justify.node)
    (hok : m.branchOk branch = true) : Progress U C m.storage (m.syncNodes branch).storage := by
  induction branch generalizing m with
  | nil => exact .refl h
  | cons p branch ih =>
    unfold branchOk at hok
    unfold syncNodes
    rw [syncNode_eq]
    cases hv : m.verifyProposal p.justify with
    | error e => exact .refl h
    | ok r =>
      rw [hv] at hok
      dsimp only at hok ⊢
      rw [Bool.and_eq_true] at hok
      have hb := backs_of_genuine h (hsig p List.mem_cons_self) (genuine_of_propOk hok.1)
      have h₁ := (processProp_progress hU h (hbranch p List.mem_cons_self) hb hok.1).1
      refine h₁.trans (ih h₁.sane (fun q hq => hbranch q (List.mem_cons_of_mem _ hq)) ?_ hok.2)
      intro q hq y hy
      rw [processProp_voter]
      exact hsig q (List.mem_cons_of_mem _ hq) y hy

/-! ## The other calls -/

/-- `update_qc_high` with a block of the run. -/
theorem updateQcHigh_progress {s : HotstuffStorage K} (h : Sane U C s) {x : TreeNode K}
    (qc : GenericQC K) (hx : x ∈ U)
    (hnew : s.Raises x → s.keepsJustify x = true ∧
      (Knows s x.hash x.justify.node ∨ Backs C s x.justify.node)) :
    Progress U C s (s.updateQcHigh x qc) := by
  rcases HotstuffStorage.updateQcHigh_cases s x qc with ⟨-, hs⟩ | ⟨hr, hst, hq⟩
  · rw [hs]
    exact .refl h
  · obtain ⟨hkeep, hjust⟩ := hnew hr
    refine ⟨h.write hx hkeep hjust hq (Or.inr (by rw [hst])) (by rw [hst]) (by rw [hst]), ?_, ?_⟩
    · exact fun _ _ hk => hk.write hkeep hq
    · rw [hst]

end Machine

end HotstuffConsensus
