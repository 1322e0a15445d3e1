import HotstuffConsensus.Ancestry
import HotstuffConsensus.BlockWrites

/-!
# Honest chains make progress

A chain of blocks, each on the one before it and with a certificate for it, is signed block by
block by a fresh replica. Each block moves `qc_high` to the block before it, the lock to the
second and the commit to the third before it, whatever gaps the heights have.

The invariant speaks of the end of the chain delivered so far: `back chain j` is the block `j`
steps before the last one, or the genesis block.
-/

namespace HotstuffConsensus

open Lib

variable {K : Crypto} {chain : List (TreeNode K)} {p : TreeNode K}

/-! ## Chains -/

/-- The block `j` steps before the last one of the chain, or the genesis block. -/
def back (chain : List (TreeNode K)) (j : ℕ) : TreeNode K := chain.reverse[j]?.getD (initNode K)

/-- `b` is a block on `a`, and its justify names `a`. -/
structure Follows (a b : TreeNode K) : Prop where
  height : a.height < b.height
  parent : b.parent = a.hash
  justify : b.justify.node = a.hash

/-- A chain on the genesis block with valid certificates, as the replicas of `voter`'s key set
check them. The hashes are distinct, and none is that of the genesis block or the zero hash
that its justify names. -/
structure HonestChain (voter : Voter K) (chain : List (TreeNode K)) : Prop where
  first : ∀ a ∈ chain.head?, 0 < a.height ∧ a.parent = initNodeHash K ∧ a.justify = initQc K
  next : chain.IsChain fun a b => Follows a b ∧ voter.validateQc a b.justify.combinedSign = true
  distinct : (chain.map TreeNode.hash).Nodup
  ne_genesis : ∀ a ∈ chain, a.hash ≠ initNodeHash K
  ne_zero : ∀ a ∈ chain, a.hash ≠ (GenericQC.zeroed K).node

theorem Follows.ne_init {a b : TreeNode K} (h : Follows a b) : b ≠ initNode K := by
  rintro rfl
  exact absurd h.height (not_lt.mpr (UInt64.le_iff_toNat_le.mpr (Nat.zero_le _)))

@[simp] theorem back_nil (j : ℕ) : back ([] : List (TreeNode K)) j = initNode K := rfl

@[simp] theorem back_snoc_zero : back (chain ++ [p]) 0 = p := by
  simp [back]

@[simp] theorem back_snoc_succ (j : ℕ) : back (chain ++ [p]) (j + 1) = back chain j := by
  simp [back]

theorem back_mem (chain : List (TreeNode K)) (j : ℕ) :
    back chain j ∈ chain ∨ back chain j = initNode K := by
  unfold back
  cases h : chain.reverse[j]? with
  | none => exact Or.inr rfl
  | some x => exact Or.inl (List.mem_reverse.mp (List.mem_of_getElem? h))

namespace HonestChain

variable {voter : Voter K}

theorem of_append {rest : List (TreeNode K)} (h : HonestChain voter (chain ++ rest)) :
    HonestChain voter chain := by
  have hmem : ∀ a ∈ chain, a ∈ chain ++ rest := fun a ha => List.mem_append_left _ ha
  refine ⟨?_, (List.isChain_append.mp h.next).1, ?_, ?_, ?_⟩
  · intro a ha
    apply h.first a
    rw [List.head?_append, Option.mem_def.mp ha]
    rfl
  · have hdistinct := h.distinct
    rw [List.map_append, List.nodup_append] at hdistinct
    exact hdistinct.1
  · exact fun a ha => h.ne_genesis a (hmem a ha)
  · exact fun a ha => h.ne_zero a (hmem a ha)

/-- The last block follows the one before it, and `verify_proposal` accepts its certificate for
that one. -/
theorem follows_back (h : HonestChain voter (chain ++ [p])) :
    Follows (back chain 0) p ∧
      (p.justify.isInitQc = true ∨
        voter.validateQc (back chain 0) p.justify.combinedSign = true) := by
  rcases List.eq_nil_or_concat' chain with rfl | ⟨before, q, rfl⟩
  · obtain ⟨hheight, hparent, hjustify⟩ := h.first p rfl
    rw [hjustify]
    exact ⟨⟨hheight, hparent, by rw [hjustify]; rfl⟩, Or.inl isInitQc_initQc⟩
  · obtain ⟨hfollows, hvalid⟩ := (List.isChain_append.mp h.next).2.2 q
      (by simp) p (by simp)
    rw [back_snoc_zero]
    exact ⟨hfollows, Or.inr hvalid⟩

/-- Every block of the chain follows the one before it, down to the genesis block. -/
theorem follows (h : HonestChain voter chain) (j : ℕ) :
    (back chain j = initNode K ∧ back chain (j + 1) = initNode K) ∨
      Follows (back chain (j + 1)) (back chain j) := by
  induction chain using List.reverseRecOn generalizing j with
  | nil => exact Or.inl ⟨rfl, rfl⟩
  | append_singleton chain p ih =>
    cases j with
    | zero =>
      rw [back_snoc_zero, back_snoc_succ]
      exact Or.inr h.follows_back.1
    | succ j =>
      rw [back_snoc_succ, back_snoc_succ]
      exact ih h.of_append j

/-- Over a block that follows another, so does the next. -/
theorem follows_of_follows (h : HonestChain voter chain) {j : ℕ}
    (hj : Follows (back chain (j + 2)) (back chain (j + 1))) :
    Follows (back chain (j + 1)) (back chain j) := by
  rcases h.follows j with ⟨-, hinit⟩ | hfollows
  · exact absurd hinit hj.ne_init
  · exact hfollows

/-- The hash of the last block is new. -/
theorem ne_back (h : HonestChain voter (chain ++ [p])) (j : ℕ) : (back chain j).hash ≠ p.hash := by
  rcases back_mem chain j with hmem | hinit
  · have hdistinct := h.distinct
    rw [List.map_append, List.nodup_append] at hdistinct
    exact hdistinct.2.2 _ (List.mem_map_of_mem hmem) _ (by simp)
  · rw [hinit]
    exact (h.ne_genesis p (by simp)).symm

/-- Only the genesis block may have the zero hash that its justify names. -/
theorem eq_init_of_zero (h : HonestChain voter chain) {j : ℕ}
    (hzero : (back chain j).hash = (GenericQC.zeroed K).node) : back chain j = initNode K := by
  rcases back_mem chain j with hmem | hinit
  · exact absurd hzero (h.ne_zero _ hmem)
  · exact hinit

end HonestChain

/-! ## The store -/

/-- The store holds the chain and the genesis block, under their hashes, and nothing else. -/
structure StoresChain (store : BlockStore K) (chain : List (TreeNode K)) : Prop where
  keyed : Keyed store
  stored : ∀ j, store.lookup (back chain j).hash = some (back chain j)
  only : ∀ k x, store.lookup k = some x → ∃ j, x = back chain j

namespace StoresChain

variable {store : BlockStore K} {voter : Voter K}

theorem insert (h : StoresChain store chain) (hc : HonestChain voter (chain ++ [p])) :
    StoresChain (store.insert p.hash p) (chain ++ [p]) := by
  refine ⟨h.keyed.insert p, ?_, ?_⟩
  · intro j
    cases j with
    | zero =>
      rw [back_snoc_zero]
      exact Finmap.lookup_insert _
    | succ j =>
      rw [back_snoc_succ, Finmap.lookup_insert_of_ne _ (hc.ne_back j)]
      exact h.stored j
  · intro k x hx
    rcases HashMap.lookup_insert_cases hx with ⟨-, rfl⟩ | hx
    · exact ⟨0, back_snoc_zero.symm⟩
    · obtain ⟨j, rfl⟩ := h.only k x hx
      exact ⟨j + 1, (back_snoc_succ j).symm⟩

/-- The justify of a block names the block before it, or nothing that is stored. -/
theorem justify_eq (h : StoresChain store chain) (hc : HonestChain voter chain) {j : ℕ}
    {y : TreeNode K} (hy : store.lookup (back chain j).justify.node = some y) :
    y = back chain (j + 1) := by
  rcases hc.follows j with ⟨hinit, hnext⟩ | hfollows
  · -- the genesis block names the zero hash
    rw [hinit] at hy
    obtain ⟨i, rfl⟩ := h.only _ y hy
    rw [hnext]
    exact hc.eq_init_of_zero (h.keyed _ _ hy)
  · rw [hfollows.justify, h.stored] at hy
    exact (Option.some.inj hy).symm

/-- The block before is one step down. -/
theorem descends (h : StoresChain store chain) (hc : HonestChain voter chain) (j : ℕ) :
    Descends store (back chain (j + 1)) (back chain j) := by
  rcases hc.follows j with ⟨hinit, hnext⟩ | hfollows
  · rw [hinit, hnext]
    exact .here
  · refine .parent ?_ hfollows.height .here
    rw [hfollows.parent]
    exact h.stored (j + 1)

end StoresChain

/-! ## One block -/

namespace Machine

/-- The state after a chain was delivered. -/
structure Progressed (m : Machine K) (chain : List (TreeNode K)) : Prop where
  store : StoresChain m.storage.inMemQueue chain
  vheight : m.storage.state.vheight ≤ (back chain 0).height
  qcHigh : m.storage.state.qcHigh = (chain.getLast?.map TreeNode.justify).getD (initQc K)
  bLocked : m.storage.state.bLocked = back chain 2
  lastCommit : m.storage.state.lastCommit = back chain 3
  committedHeight : m.storage.state.committedHeight = (back chain 3).height

theorem progressed_of_fresh {m : Machine K} (hfresh : FreshStorage m.storage) :
    m.Progressed [] := by
  obtain ⟨token, hstate⟩ := hfresh.state_eq
  have hlookup : m.storage.inMemQueue.lookup (initNodeHash K) = some (initNode K) := by
    rw [hfresh.inMemQueue_eq]
    exact Finmap.lookup_insert _
  refine ⟨⟨hfresh.keyed, fun j => hlookup, ?_⟩, ?_, ?_, ?_, ?_, ?_⟩
  · intro k x hx
    rw [hfresh.inMemQueue_eq] at hx
    rcases HashMap.lookup_insert_cases hx with ⟨-, rfl⟩ | hx
    · exact ⟨0, rfl⟩
    · rw [Finmap.lookup_empty] at hx
      cases hx
  all_goals rw [hstate]
  · exact le_refl _
  all_goals rfl

namespace Progressed

variable {m : Machine K}

/-- `qc_high` names the block before the last. -/
theorem qcHigh_node (h : m.Progressed chain) (hc : HonestChain m.voter chain) :
    m.storage.state.qcHigh.node = (back chain 1).hash := by
  rw [h.qcHigh]
  rcases List.eq_nil_or_concat' chain with rfl | ⟨before, q, rfl⟩
  · rfl
  · rw [List.getLast?_concat, back_snoc_succ]
    exact hc.follows_back.1.justify

/-- The next block passes `verify_proposal`. -/
theorem verified (h : m.Progressed chain) (hc : HonestChain m.voter (chain ++ [p])) :
    ∃ r, m.verifyProposal p.justify = .ok r := by
  obtain ⟨hfollows, hvalid⟩ := hc.follows_back
  refine verifyProposal_isOk.mpr ⟨back chain 0, ?_, hvalid⟩
  rw [hfollows.justify]
  exact h.store.stored 0

/-- The lock is an ancestor of the next block. -/
theorem not_isConflicting (h : m.Progressed chain) (hc : HonestChain m.voter (chain ++ [p])) :
    m.storage.isConflicting p m.storage.state.bLocked = false := by
  have hparent : Descends m.storage.inMemQueue (back chain 0) p := by
    refine .parent ?_ hc.follows_back.1.height .here
    rw [hc.follows_back.1.parent]
    exact h.store.stored 0
  have hlock : Descends m.storage.inMemQueue (back chain 2) p :=
    (hparent.trans (h.store.descends hc.of_append 0)).trans (h.store.descends hc.of_append 1)
  have hle : (back chain 2).height ≤ p.height := by
    rcases hlock.eq_or_lower with heq | ⟨-, hlt⟩
    · rw [heq]
    · exact hlt.le
  unfold HotstuffStorage.isConflicting
  rw [h.bLocked, if_pos hle, walk_of_descends hlock (countBelow_lt_walkFuel _ _), bne_self_eq_false]

/-- The next block passes the voting test. -/
theorem accepts (h : m.Progressed chain) (hc : HonestChain m.voter (chain ++ [p])) :
    m.accepts p = true := by
  have hget : m.storage.get p.justify.node = some (back chain 0) := by
    rw [hc.follows_back.1.justify]
    exact h.store.stored 0
  have hheight : m.storage.state.vheight < p.height :=
    lt_of_le_of_lt h.vheight hc.follows_back.1.height
  unfold Machine.accepts Machine.safeNode
  rw [hget]
  simp [hheight, h.not_isConflicting hc]

theorem stored_store (h : m.Progressed chain) (hc : HonestChain m.voter (chain ++ [p])) :
    StoresChain (m.stored p).storage.inMemQueue (chain ++ [p]) := by
  unfold Machine.stored
  rw [if_pos (h.accepts hc)]
  exact h.store.insert hc

/-- The earlier blocks are found after the next one is stored. -/
theorem stored_get (h : m.Progressed chain) (hc : HonestChain m.voter (chain ++ [p])) (j : ℕ) :
    (m.stored p).storage.get (back chain j).hash = some (back chain j) := by
  rw [← back_snoc_succ]
  exact (h.stored_store hc).stored (j + 1)

theorem processProp_storesChain (h : m.Progressed chain)
    (hc : HonestChain m.voter (chain ++ [p])) :
    StoresChain (m.processProp p).storage.inMemQueue (chain ++ [p]) := by
  rw [processProp_inMemQueue h.store.keyed]
  exact h.stored_store hc

/-- `qc_high` moves to the certificate of the block, and `vheight` is not above the block. -/
theorem processProp_qcHigh (h : m.Progressed chain) (hc : HonestChain m.voter (chain ++ [p])) :
    (m.processProp p).storage.state.qcHigh = p.justify ∧
      (m.processProp p).storage.state.vheight ≤ p.height := by
  have hstate : (m.stored p).storage.state.qcHigh = m.storage.state.qcHigh ∧
      (m.stored p).storage.state.vheight = max m.storage.state.vheight p.height := by
    unfold Machine.stored
    rw [if_pos (h.accepts hc)]
    exact ⟨rfl, rfl⟩
  have hnode := h.qcHigh_node hc.of_append
  have hget : (m.stored p).storage.get p.justify.node = some (back chain 0) := by
    rw [hc.follows_back.1.justify]
    exact h.stored_get hc 0
  have hqc : (m.stored p).storage.get (m.stored p).storage.state.qcHigh.node =
      some (back chain 1) := by
    rw [hstate.1, hnode]
    exact h.stored_get hc 1
  have hlow : (back chain 0).height ≤ p.height := hc.follows_back.1.height.le
  rcases (m.stored p).updateNodes_qcHigh hget with ⟨-, hjustify, hv⟩ | ⟨hno, hkeep, hv⟩
  · exact ⟨hjustify, hv.trans_le hlow⟩
  · refine ⟨hkeep.trans (hstate.1.trans ?_), ?_⟩
    · -- `qc_high` is not raised by the first block only, whose justify it is already
      rcases List.eq_nil_or_concat' chain with rfl | ⟨before, q, rfl⟩
      · rw [h.qcHigh, (hc.first p rfl).2.2]
        rfl
      · rw [back_snoc_succ] at hqc
        rw [back_snoc_zero] at hno
        exact absurd ⟨_, hqc, hc.of_append.follows_back.1.height⟩ hno
    · show (m.stored p).updateNodes p |>.1.storage.state.vheight ≤ p.height
      rw [hv, hstate.2]
      exact max_le (h.vheight.trans hlow) (le_refl _)

/-- The lock moves to the second block before. -/
theorem processProp_bLocked (h : m.Progressed chain) (hc : HonestChain m.voter (chain ++ [p])) :
    (m.processProp p).storage.state.bLocked = back chain 1 := by
  have hs := h.stored_store hc
  have hlocks := (m.stored p).updateNodes_locked p
  have hget : (m.stored p).storage.get p.justify.node = some (back chain 0) := by
    rw [hc.follows_back.1.justify]
    exact h.stored_get hc 0
  have hsecond : ∀ y, ((m.stored p).storage.findThreeChain p)[1]? = some y → y = back chain 1 := by
    intro y hy
    rw [HotstuffStorage.findThreeChain_second?, hget] at hy
    have hy' := hs.justify_eq hc (j := 1) (y := y) (by rw [back_snoc_succ]; exact hy)
    rw [hy', back_snoc_succ]
  have hsame : (m.stored p).storage.state.bLocked = back chain 2 :=
    (m.stored_frame p).1.trans h.bLocked
  rcases hlocks.source with hkeep | hmove
  · rw [hsame] at hkeep
    show ((m.stored p).updateNodes p).1.storage.state.bLocked = _
    rw [hkeep]
    -- a lock that stays is as high as the second block before
    rcases hc.of_append.follows 1 with ⟨h1, h2⟩ | hfollows
    · rw [h1, h2]
    · have hbelow := hc.of_append.follows_of_follows hfollows
      have hfound : ((m.stored p).storage.findThreeChain p)[1]? = some (back chain 1) := by
        rw [HotstuffStorage.findThreeChain_second?, hget, Option.bind_some, hbelow.justify]
        exact h.stored_get hc 1
      have hle := hlocks.second _ hfound
      rw [hkeep] at hle
      exact absurd hfollows.height (not_lt.mpr hle)
  · exact hsecond _ hmove

/-- The commit moves to the third block before. -/
theorem processProp_commit (h : m.Progressed chain) (hc : HonestChain m.voter (chain ++ [p])) :
    (m.processProp p).storage.state.lastCommit = back chain 2 ∧
      (m.processProp p).storage.state.committedHeight = (back chain 2).height := by
  have hs := h.processProp_storesChain hc
  -- a direct three-chain behind `p` ends at the third block before
  have hdirect : ∀ b, (m.processProp p).storage.DirectThreeChain p b → b = back chain 2 := by
    rintro b ⟨b'', b', h'', h', hb, -, -⟩
    have hb'' := hs.justify_eq hc (j := 0) (y := b'') (by rw [back_snoc_zero]; exact h'')
    have hb' := hs.justify_eq hc (j := 1) (y := b') (hb'' ▸ h')
    have hb := hs.justify_eq hc (j := 2) (y := b) (hb' ▸ hb)
    rw [hb, back_snoc_succ]
  rcases processProp_commit_cases h.store.keyed p with ⟨b, hb, hcommit⟩ | ⟨hno, hkeep⟩
  · rw [hcommit.lastCommit, hcommit.committedHeight, hdirect b hb]
    exact ⟨rfl, rfl⟩
  · rw [hkeep.lastCommit, hkeep.committedHeight, h.lastCommit, h.committedHeight]
    rcases hc.of_append.follows 2 with ⟨h2, h3⟩ | hfollows
    · rw [h2, h3]
      exact ⟨rfl, rfl⟩
    · -- otherwise there is such a chain, and its end is above the committed height
      have hfollows₁ := hc.of_append.follows_of_follows hfollows
      have hfollows₀ := hc.of_append.follows_of_follows hfollows₁
      have hget : ∀ j, (m.processProp p).storage.get (back chain j).hash = some (back chain j) := by
        intro j
        unfold HotstuffStorage.get
        rw [processProp_inMemQueue h.store.keyed]
        exact h.stored_get hc j
      have hchain : (m.processProp p).storage.DirectThreeChain p (back chain 2) := by
        refine ⟨back chain 0, back chain 1, ?_, ?_, ?_, hfollows₀.parent, hfollows₁.parent⟩
        · rw [hc.follows_back.1.justify]
          exact hget 0
        · rw [hfollows₀.justify]
          exact hget 1
        · rw [hfollows₁.justify]
          exact hget 2
      have hle := hno _ hchain
      rw [h.committedHeight] at hle
      exact absurd hfollows.height (not_lt.mpr hle)

/-- The next block is signed, and the state moves on by one block. -/
theorem step (h : m.Progressed chain) (hc : HonestChain m.voter (chain ++ [p])) (ctx : Context) :
    (m.onRecvProposal ctx p p.justify).2 = .ok (.signature
        (.single m.selfId ctx.sender m.storage.state.currentView) p (m.voter.sign p)) ∧
      (m.onRecvProposal ctx p p.justify).1.Progressed (chain ++ [p]) ∧
      (m.onRecvProposal ctx p p.justify).1.voter = m.voter := by
  obtain ⟨r, hr⟩ := h.verified hc
  rw [onRecvProposal_eq, hr]
  dsimp only
  rw [if_pos (h.accepts hc)]
  obtain ⟨hqc, hv⟩ := h.processProp_qcHigh hc
  obtain ⟨hlast, hheight⟩ := h.processProp_commit hc
  refine ⟨rfl, ⟨h.processProp_storesChain hc, ?_, ?_, ?_, ?_, ?_⟩, processProp_voter m p⟩
  · rw [back_snoc_zero]
    exact hv
  · rw [List.getLast?_concat]
    exact hqc
  · rw [back_snoc_succ]
    exact h.processProp_bLocked hc
  · rw [back_snoc_succ]
    exact hlast
  · rw [back_snoc_succ]
    exact hheight

end Progressed

/-! ## The chain -/

/-- The calls that deliver proposals. -/
def proposals (deliveries : List (Context × TreeNode K)) : List (Call K) :=
  deliveries.map fun d => .event (.recvProposal d.1 d.2)

theorem run_proposals_snoc (m : Machine K) (before : List (Context × TreeNode K))
    (d : Context × TreeNode K) :
    m.run (proposals (before ++ [d])) =
      ((m.run (proposals before)).onRecvProposal d.1 d.2 d.2.justify).1 := by
  unfold run proposals
  rw [List.map_append, List.foldl_append]
  rfl

theorem run_progressed {m : Machine K} (hfresh : FreshStorage m.storage)
    {deliveries : List (Context × TreeNode K)}
    (hc : HonestChain m.voter (deliveries.map Prod.snd)) :
    (m.run (proposals deliveries)).Progressed (deliveries.map Prod.snd) ∧
      (m.run (proposals deliveries)).voter = m.voter := by
  induction deliveries using List.reverseRecOn with
  | nil => exact ⟨progressed_of_fresh hfresh, rfl⟩
  | append_singleton before d ih =>
    rw [List.map_append] at hc ⊢
    obtain ⟨hprogressed, hvoter⟩ := ih hc.of_append
    rw [← hvoter] at hc
    obtain ⟨-, hnext, hkeep⟩ := hprogressed.step hc d.1
    rw [run_proposals_snoc]
    exact ⟨hnext, hkeep.trans hvoter⟩

/-- A fresh replica signs every block of an honest chain, and ends with `qc_high` at the block
before the last one, the lock at the second and the commit at the third before it. -/
theorem honest_chain_progress (m : Machine K) (hfresh : FreshStorage m.storage)
    (deliveries : List (Context × TreeNode K)) (hne : deliveries ≠ [])
    (hchain : HonestChain m.voter (deliveries.map Prod.snd)) :
    (∀ before d after, deliveries = before ++ d :: after →
      ∃ ctx, ((m.run (proposals before)).onRecvProposal d.1 d.2 d.2.justify).2 =
        .ok (.signature ctx d.2 (m.voter.sign d.2))) ∧
    (m.run (proposals deliveries)).storage.state.qcHigh =
        (back (deliveries.map Prod.snd) 0).justify ∧
    (m.run (proposals deliveries)).storage.state.qcHigh.node =
        (back (deliveries.map Prod.snd) 1).hash ∧
    (m.run (proposals deliveries)).storage.state.bLocked = back (deliveries.map Prod.snd) 2 ∧
    (m.run (proposals deliveries)).storage.state.lastCommit = back (deliveries.map Prod.snd) 3 := by
  obtain ⟨hend, hvoter⟩ := run_progressed hfresh hchain
  refine ⟨?_, ?_, ?_, hend.bLocked, hend.lastCommit⟩
  · rintro before d after rfl
    -- the chain up to `d` is an honest one
    have hc : HonestChain m.voter (before.map Prod.snd ++ [d.2]) := by
      apply HonestChain.of_append
      rw [List.append_assoc, List.singleton_append, ← List.map_cons, ← List.map_append]
      exact hchain
    obtain ⟨hprogressed, hvoter⟩ := run_progressed hfresh hc.of_append
    rw [← hvoter] at hc
    obtain ⟨hsigned, -, -⟩ := hprogressed.step hc d.1
    rw [hvoter] at hsigned
    exact ⟨_, hsigned⟩
  · rw [hend.qcHigh]
    rcases List.eq_nil_or_concat' deliveries with rfl | ⟨before, d, rfl⟩
    · exact absurd rfl hne
    · rw [List.map_append, List.map_singleton, List.getLast?_concat, back_snoc_zero]
      rfl
  · apply hend.qcHigh_node
    rw [hvoter]
    exact hchain

end Machine

namespace Symbolic

/-- The chain `a1` to `a4`, from replica 1. -/
def chainDeliveries : List (Context × TreeNode symbolic) :=
  [(ctxOf 1, a1), (ctxOf 1, a2), (ctxOf 1, a3), (ctxOf 1, a4)]

theorem honestChain_chainDeliveries :
    HonestChain (fresh 4 0).voter (chainDeliveries.map Prod.snd) := by
  have hhash : ∀ a ∈ [a1, a2, a3, a4], a.hash ≠ initNodeHash symbolic := by decide +kernel
  have hzero : ∀ a ∈ [a1, a2, a3, a4], a.hash ≠ (GenericQC.zeroed symbolic).node := by
    decide +kernel
  refine ⟨?_, ?_, by decide +kernel, hhash, hzero⟩
  · intro a ha
    obtain rfl := Option.some.inj ha
    exact ⟨by decide, rfl, rfl⟩
  · refine .cons_cons ⟨⟨by decide, rfl, rfl⟩, by decide +kernel⟩ ?_
    refine .cons_cons ⟨⟨by decide, rfl, rfl⟩, by decide +kernel⟩ ?_
    exact .cons_cons ⟨⟨by decide, rfl, rfl⟩, by decide +kernel⟩ (.singleton _)

end Symbolic

open Symbolic in
/-- After four blocks the lock is at `a2` and `a1` is committed. -/
theorem chain_of_four_progress :
    ((fresh 4 0).run (Machine.proposals chainDeliveries)).storage.state.qcHigh.node = a3.hash ∧
      ((fresh 4 0).run (Machine.proposals chainDeliveries)).storage.state.bLocked = a2 ∧
      ((fresh 4 0).run (Machine.proposals chainDeliveries)).storage.state.lastCommit = a1 :=
  (Machine.honest_chain_progress (fresh 4 0) (.inMem _ _ _ _) chainDeliveries (by decide)
    honestChain_chainDeliveries).2.2

end HotstuffConsensus
