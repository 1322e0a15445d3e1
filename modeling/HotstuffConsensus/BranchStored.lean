import HotstuffConsensus.BranchReplay
import HotstuffConsensus.Ancestry
import HotstuffConsensus.Persistence

/-!
# What a branch sync stores

Whether `on_branch_sync` stores a node is decided by the voting test, in each round anew:
`vheight`, `qc_high` and the lock move while the branch is written. What they are in a round
can be read off the state before the sync, because the earlier nodes move them only through
the blocks that their justifies lead to. `branch_stored_iff` says in these terms when a valid
branch is stored completely.
-/

namespace HotstuffConsensus

open Lib

variable {K : Crypto}

namespace Machine

/-! ## Storing a branch -/

/-- A valid branch: the heights increase, each certificate is valid for a node that is stored
or earlier in the branch, and each node descends from the lock by parent hashes. -/
structure ValidBranch (m : Machine K) (branch : List (TreeNode K)) : Prop where
  sorted : branch.Pairwise fun a b => a.height < b.height
  certified : ∀ before p after, branch = before ++ p :: after →
    ∃ x, (before.foldl insertBlock m.storage.inMemQueue).lookup p.justify.node = some x ∧
      (p.justify = initQc K ∨ m.voter.validateQc x p.justify.combinedSign = true)
  descends : ∀ before p after, branch = before ++ p :: after →
    Reaches (before.foldl insertBlock m.storage.inMemQueue) m.storage.state.bLocked.hash p

/-- After the sync every node of the branch is stored, and a proposal that carries a valid
certificate for the last one is not rejected. -/
structure StoresBranch (m : Machine K) (branch : List (TreeNode K)) : Prop where
  stored : ∀ p ∈ branch, (m.onBranchSync branch).1.storage.get p.hash = some p
  justifies : ∀ last ∈ branch.getLast?, ∀ ctx prop, prop.justify.node = last.hash →
    m.voter.validateQc last prop.justify.combinedSign = true →
    ((m.onBranchSync branch).1.onRecvProposal ctx prop prop.justify).2 ≠ .error .corruptedQC

/-! ## The voting test of a round, read off the state before the sync -/

/-- The block that the certificate of `q` is for, if it is higher than the block under `k`. -/
def certifiedBy (k : NodeHash) (store : BlockStore K) (q : TreeNode K) : Option (TreeNode K) :=
  (store.lookup q.justify.node).filter fun b =>
    (store.lookup k).any fun qcNode => decide (qcNode.height < b.height)

/-- The blocks that the certificates of `nodes` are for and that are higher than the block under
`k`, when the nodes are written one by one. -/
def certifiedAbove (k : NodeHash) : BlockStore K → List (TreeNode K) → List (TreeNode K)
  | _, [] => []
  | store, q :: nodes =>
    let store := insertBlock store q
    (certifiedBy k store q).toList ++ certifiedAbove k store nodes

/-- The lock after `nodes` were written one by one: a higher block two justify links behind a
node takes its place. -/
def lockAfter : BlockStore K → TreeNode K → List (TreeNode K) → TreeNode K
  | _, locked, [] => locked
  | store, locked, q :: nodes =>
    let store := insertBlock store q
    match (store.lookup q.justify.node).bind fun b => store.lookup b.justify.node with
    | some b => lockAfter store (if locked.height < b.height then b else locked) nodes
    | none => lockAfter store locked nodes

/-- The votes of a replica are below `h` once the nodes `before` are stored. A certificate
above `qc_high` takes `vheight` to its block, up or down. -/
def VotesBelow (s : HotstuffStorage K) (before : List (TreeNode K)) (h : ViewNumber) : Prop :=
  (∀ b ∈ certifiedAbove s.state.qcHigh.node s.inMemQueue before, b.height < h) ∧
    (certifiedAbove s.state.qcHigh.node s.inMemQueue before = [] → s.state.vheight < h)

/-- `p` respects the lock that the nodes `before` leave behind. -/
def SafeAfter (s : HotstuffStorage K) (before : List (TreeNode K)) (p : TreeNode K) : Prop :=
  let store := before.foldl insertBlock s.inMemQueue
  let locked := lockAfter s.inMemQueue s.state.bLocked before
  { s with inMemQueue := store }.isConflicting p locked = false ∨
    ∃ b, store.lookup p.justify.node = some b ∧ locked.height < b.height

/-- `p` passes the voting test once the nodes `before` are stored. -/
@[mk_iff]
structure PassesAfter (s : HotstuffStorage K) (before : List (TreeNode K)) (p : TreeNode K) :
    Prop where
  votes : VotesBelow s before p.height
  safe : SafeAfter s before p

theorem certifiedBy_eq_some {k : NodeHash} {store : BlockStore K} {q b : TreeNode K} :
    certifiedBy k store q = some b ↔ store.lookup q.justify.node = some b ∧
      ∃ x, store.lookup k = some x ∧ x.height < b.height := by
  unfold certifiedBy
  rw [Option.filter_eq_some_iff, Option.any_eq_true]
  simp only [decide_eq_true_eq]

theorem mem_certifiedAbove_cons {k : NodeHash} {store : BlockStore K} {q b : TreeNode K}
    {nodes : List (TreeNode K)} :
    b ∈ certifiedAbove k store (q :: nodes) ↔ certifiedBy k (insertBlock store q) q = some b ∨
      b ∈ certifiedAbove k (insertBlock store q) nodes := by
  rw [certifiedAbove, List.mem_append, Option.mem_toList]

theorem certifiedAbove_cons_of_none {k : NodeHash} {store : BlockStore K} {q : TreeNode K}
    (h : certifiedBy k (insertBlock store q) q = none) (nodes : List (TreeNode K)) :
    certifiedAbove k store (q :: nodes) = certifiedAbove k (insertBlock store q) nodes := by
  rw [certifiedAbove, h]
  rfl

/-- Writing the first node keeps SHA-256 free of collisions on the blocks at hand. -/
theorem collisionFree_tail {store : BlockStore K} {q : TreeNode K} {nodes : List (TreeNode K)}
    (h : CollisionFree ({x | x ∈ q :: nodes} ∪ storedBlocks store)) :
    CollisionFree ({x | x ∈ nodes} ∪ storedBlocks (insertBlock store q)) := by
  have hsub : {x | x ∈ nodes} ∪ storedBlocks (insertBlock store q) ⊆
      {x | x ∈ q :: nodes} ∪ storedBlocks store := by
    rintro x (hx | ⟨k, hx⟩)
    · exact Or.inl (List.mem_cons_of_mem _ hx)
    · rcases HashMap.lookup_insert_cases hx with ⟨-, rfl⟩ | hx
      · exact Or.inl List.mem_cons_self
      · exact Or.inr ⟨k, hx⟩
  exact h.mono hsub

/-- The first node overwrites no block of another height. -/
theorem exists_lookup_insertBlock {store : BlockStore K} (hk : Keyed store) {q x : TreeNode K}
    {nodes : List (TreeNode K)} (hsha : CollisionFree ({x | x ∈ q :: nodes} ∪ storedBlocks store))
    {k : NodeHash} (hx : store.lookup k = some x) :
    ∃ y, (insertBlock store q).lookup k = some y ∧ y.height = x.height := by
  have hfit : Fits store q := by
    intro y hy
    exact hsha y (Or.inr ⟨_, hy⟩) q (Or.inl List.mem_cons_self) (hk _ y hy)
  obtain ⟨y, hy, hyx⟩ := hfit.lookup_insert hx
  exact ⟨y, hy, (hashInput_inj hyx).2.1⟩

/-- Of two blocks, above the higher one are those above the lower one that are high enough. -/
theorem mem_certifiedAbove_of_lt {store : BlockStore K} (hk : Keyed store) {k k' : NodeHash}
    {x x' b : TreeNode K} {nodes : List (TreeNode K)}
    (hsha : CollisionFree ({x | x ∈ nodes} ∪ storedBlocks store))
    (hx : store.lookup k = some x) (hx' : store.lookup k' = some x')
    (hlt : x.height < x'.height) :
    b ∈ certifiedAbove k' store nodes ↔
      b ∈ certifiedAbove k store nodes ∧ x'.height < b.height := by
  induction nodes generalizing store x x' with
  | nil => simp only [certifiedAbove, List.not_mem_nil, false_and]
  | cons q nodes ih =>
    obtain ⟨y, hy, hyx⟩ := exists_lookup_insertBlock hk hsha hx
    obtain ⟨y', hy', hyx'⟩ := exists_lookup_insertBlock hk hsha hx'
    have hyy' : y.height < y'.height := by
      rw [hyx, hyx']
      exact hlt
    have htail : b ∈ certifiedAbove k' (insertBlock store q) nodes ↔
        b ∈ certifiedAbove k (insertBlock store q) nodes ∧ y'.height < b.height :=
      ih (hk.insert q) (collisionFree_tail hsha) hy hy' hyy'
    have hhead : certifiedBy k' (insertBlock store q) q = some b ↔
        certifiedBy k (insertBlock store q) q = some b ∧ y'.height < b.height := by
      rw [certifiedBy_eq_some, certifiedBy_eq_some, hy, hy']
      simp only [Option.some.injEq, exists_eq_left']
      constructor
      · rintro ⟨hb, hlow⟩
        exact ⟨⟨hb, hyy'.trans hlow⟩, hlow⟩
      · rintro ⟨⟨hb, -⟩, hlow⟩
        exact ⟨hb, hlow⟩
    rw [mem_certifiedAbove_cons, mem_certifiedAbove_cons, hhead, htail, ← hyx', or_and_right]

/-- A round writes its node, if it passes the voting test, and no other. -/
theorem processProp_store {m : Machine K} (hk : Keyed m.storage.inMemQueue) (p : TreeNode K) :
    (m.processProp p).storage.inMemQueue =
      if m.accepts p then insertBlock m.storage.inMemQueue p else m.storage.inMemQueue := by
  rw [processProp_inMemQueue hk]
  unfold stored
  split <;> rfl

/-- A node that is stored already or passes the voting test is stored in its round. -/
theorem stored_store {m : Machine K} {q : TreeNode K}
    (h : m.storage.get q.hash = some q ∨ m.accepts q = true) :
    (m.stored q).storage.inMemQueue = insertBlock m.storage.inMemQueue q := by
  unfold stored
  split
  · rfl
  · rename_i hacc
    rcases h with h | h
    · exact (HashMap.insert_eq_self h).symm
    · exact absurd h hacc

theorem stored_qcHigh (m : Machine K) (q : TreeNode K) :
    (m.stored q).storage.state.qcHigh = m.storage.state.qcHigh := by
  unfold stored
  split <;> rfl

/-- Storing a node moves `vheight` up to its height at most. -/
theorem stored_vheight_lt {m : Machine K} {q : TreeNode K} {h : ViewNumber} (hq : q.height < h) :
    (m.stored q).storage.state.vheight < h ↔ m.storage.state.vheight < h := by
  unfold stored
  split
  · show max m.storage.state.vheight q.height < h ↔ _
    rw [max_lt_iff, and_iff_left hq]
  · rfl

section Round

variable {m : Machine K} {q x : TreeNode K} {before : List (TreeNode K)}

/-- The lock after a round. -/
theorem lockAfter_processProp (hq : m.storage.get q.hash = some q ∨ m.accepts q = true) :
    lockAfter (insertBlock m.storage.inMemQueue q) (m.processProp q).storage.state.bLocked before =
      lockAfter m.storage.inMemQueue m.storage.state.bLocked (q :: before) := by
  have hsecond : ((m.stored q).storage.findThreeChain q)[1]? =
      ((insertBlock m.storage.inMemQueue q).lookup q.justify.node).bind fun b =>
        (insertBlock m.storage.inMemQueue q).lookup b.justify.node := by
    rw [HotstuffStorage.findThreeChain_second?, ← stored_store hq]
    rfl
  have hlock : (m.processProp q).storage.state.bLocked =
      (updateNodesLocked (updateNodesQcHigh (m.stored q).storage
        ((m.stored q).storage.findThreeChain q) q)
        ((m.stored q).storage.findThreeChain q)).state.bLocked :=
    (m.stored q).updateNodes_bLocked q
  have hframe := (updateNodesQcHigh_frame (m.stored q).storage
    ((m.stored q).storage.findThreeChain q) q).1.trans (m.stored_frame q).1
  rw [hlock, lockAfter]
  unfold updateNodesLocked
  rw [hsecond]
  cases ((insertBlock m.storage.inMemQueue q).lookup q.justify.node).bind fun b =>
      (insertBlock m.storage.inMemQueue q).lookup b.justify.node with
  | none =>
    dsimp only
    rw [hframe]
  | some b =>
    dsimp only
    rw [hframe]
    split
    · rfl
    · rw [hframe]

/-- A round in which the certificate raises `qc_high` to `b`: the votes after it are those that
the certificates above `b` leave. -/
theorem votesBelow_of_raises {store : BlockStore K} (hk : Keyed store) {k : NodeHash}
    {v h : ViewNumber} {b : TreeNode K} (hsha : CollisionFree ({x | x ∈ q :: before} ∪ storedBlocks store))
    (hb : certifiedBy k (insertBlock store q) q = some b) :
    ((∀ c ∈ certifiedAbove q.justify.node (insertBlock store q) before, c.height < h) ∧
        (certifiedAbove q.justify.node (insertBlock store q) before = [] → b.height < h)) ↔
      (∀ c ∈ certifiedAbove k store (q :: before), c.height < h) ∧
        (certifiedAbove k store (q :: before) = [] → v < h) := by
  have hmem : b ∈ certifiedAbove k store (q :: before) := mem_certifiedAbove_cons.mpr (Or.inl hb)
  obtain ⟨hget, x, hx, hlt⟩ := certifiedBy_eq_some.mp hb
  have habove : ∀ c, c ∈ certifiedAbove q.justify.node (insertBlock store q) before ↔
      c ∈ certifiedAbove k (insertBlock store q) before ∧ b.height < c.height :=
    fun c => mem_certifiedAbove_of_lt (hk.insert q) (collisionFree_tail hsha) hx hget hlt
  constructor
  · rintro ⟨hcert, hnone⟩
    have hbh : b.height < h := by
      cases hA : certifiedAbove q.justify.node (insertBlock store q) before with
      | nil => exact hnone hA
      | cons c rest =>
        have hc : c ∈ certifiedAbove q.justify.node (insertBlock store q) before := by
          rw [hA]
          exact List.mem_cons_self
        exact ((habove c).mp hc).2.trans (hcert c hc)
    refine ⟨?_, fun hnil => ?_⟩
    · intro c hc
      rcases mem_certifiedAbove_cons.mp hc with hc | hc
      · rw [← Option.some.inj (hb.symm.trans hc)]
        exact hbh
      · by_cases hbc : b.height < c.height
        · exact hcert c ((habove c).mpr ⟨hc, hbc⟩)
        · exact (not_lt.mp hbc).trans_lt hbh
    · rw [hnil] at hmem
      cases hmem
  · rintro ⟨hcert, -⟩
    refine ⟨?_, fun _ => hcert b hmem⟩
    intro c hc
    exact hcert c (mem_certifiedAbove_cons.mpr (Or.inr ((habove c).mp hc).1))

/-- The votes after a round with a lower node. -/
theorem votesBelow_processProp (hk : Keyed m.storage.inMemQueue)
    (hsha : CollisionFree ({x | x ∈ q :: before} ∪ storedBlocks m.storage.inMemQueue))
    (hx : m.storage.inMemQueue.lookup q.justify.node = some x)
    (hq : m.storage.get q.hash = some q ∨ m.accepts q = true) {h : ViewNumber} (hlow : q.height < h) :
    VotesBelow (m.processProp q).storage before h ↔ VotesBelow m.storage (q :: before) h := by
  have hstore : (m.processProp q).storage.inMemQueue = insertBlock m.storage.inMemQueue q := by
    rw [processProp_inMemQueue hk, stored_store hq]
  obtain ⟨b, hb, -⟩ := exists_lookup_insertBlock hk hsha hx
  have hget : (m.stored q).storage.get q.justify.node = some b := by
    unfold HotstuffStorage.get
    rw [stored_store hq]
    exact hb
  have hraises : (m.stored q).storage.Raises b ↔
      certifiedBy m.storage.state.qcHigh.node (insertBlock m.storage.inMemQueue q) q = some b := by
    rw [certifiedBy_eq_some, and_iff_right hb]
    unfold HotstuffStorage.Raises HotstuffStorage.get
    rw [stored_store hq, stored_qcHigh]
  unfold VotesBelow
  rw [hstore]
  rcases (m.stored q).updateNodes_qcHigh hget with ⟨hr, hqc, hv⟩ | ⟨hno, hqc, hv⟩
  · have hqc' : (m.processProp q).storage.state.qcHigh = q.justify := hqc
    have hv' : (m.processProp q).storage.state.vheight = b.height := hv
    rw [hqc', hv']
    exact votesBelow_of_raises hk hsha (hraises.mp hr)
  · have hqc' : (m.processProp q).storage.state.qcHigh = m.storage.state.qcHigh :=
      hqc.trans (m.stored_qcHigh q)
    have hv' : (m.processProp q).storage.state.vheight = (m.stored q).storage.state.vheight := hv
    have hnone : certifiedBy m.storage.state.qcHigh.node
        (insertBlock m.storage.inMemQueue q) q = none := by
      rw [Option.eq_none_iff_forall_ne_some]
      intro c hc
      rw [Option.some.inj ((certifiedBy_eq_some.mp hc).1.symm.trans hb)] at hc
      exact hno (hraises.mpr hc)
    rw [hqc', hv', certifiedAbove_cons_of_none hnone, stored_vheight_lt hlow]

theorem safeAfter_processProp (hk : Keyed m.storage.inMemQueue)
    (hq : m.storage.get q.hash = some q ∨ m.accepts q = true) {p : TreeNode K} :
    SafeAfter (m.processProp q).storage before p ↔ SafeAfter m.storage (q :: before) p := by
  have hstore : (m.processProp q).storage.inMemQueue = insertBlock m.storage.inMemQueue q := by
    rw [processProp_inMemQueue hk, stored_store hq]
  unfold SafeAfter
  rw [hstore, lockAfter_processProp hq, List.foldl_cons]
  rfl

/-- The voting test itself is the case with no nodes before. -/
theorem accepts_iff_passesAfter (hx : m.storage.inMemQueue.lookup q.justify.node = some x) :
    m.accepts q = true ↔ PassesAfter m.storage [] q := by
  have hx' : m.storage.get q.justify.node = some x := hx
  have hsafe : m.safeNode q x = true ↔ SafeAfter m.storage [] q := by
    show _ ↔ m.storage.isConflicting q m.storage.state.bLocked = false ∨
      ∃ b, m.storage.inMemQueue.lookup q.justify.node = some b ∧
        m.storage.state.bLocked.height < b.height
    rw [hx]
    simp [safeNode]
  unfold accepts
  rw [hx']
  simp only [Bool.and_eq_true, decide_eq_true_eq, hsafe]
  constructor
  · rintro ⟨hv, hs⟩
    exact ⟨⟨(fun b hb => nomatch hb), fun _ => hv⟩, hs⟩
  · rintro ⟨⟨-, hv⟩, hs⟩
    exact ⟨hv rfl, hs⟩

end Round

/-- What is stored after a sync was stored before or is a node of the branch. -/
theorem syncNodes_lookup {m : Machine K} (hk : Keyed m.storage.inMemQueue)
    {branch : List (TreeNode K)} {k : NodeHash} {x : TreeNode K}
    (h : (m.syncNodes branch).storage.get k = some x) : x ∈ branch ∨ m.storage.get k = some x := by
  induction branch generalizing m with
  | nil => exact Or.inr h
  | cons p branch ih =>
    unfold syncNodes at h
    rw [syncNode_eq] at h
    cases hv : m.verifyProposal p.justify with
    | error e =>
      rw [hv] at h
      exact Or.inr h
    | ok r =>
      rw [hv] at h
      rcases ih (processProp_keyed hk p) h with hx | hx
      · exact Or.inl (List.mem_cons_of_mem _ hx)
      · unfold HotstuffStorage.get at hx
        rw [processProp_store hk] at hx
        split at hx
        · rcases HashMap.lookup_insert_cases hx with ⟨-, hxp⟩ | hx
          · rw [hxp]
            exact Or.inl List.mem_cons_self
          · exact Or.inr hx
        · exact Or.inr hx

/-- A round whose certificate is for a stored block does not break the loop. -/
theorem syncNode_of_certified {m : Machine K} {q x : TreeNode K}
    (hx : m.storage.inMemQueue.lookup q.justify.node = some x)
    (hvalid : q.justify = initQc K ∨ m.voter.validateQc x q.justify.combinedSign = true) :
    m.syncNode q = some (m.processProp q) := by
  have hok : ∃ r, m.verifyProposal q.justify = .ok r := by
    refine verifyProposal_isOk.mpr ⟨x, hx, ?_⟩
    rcases hvalid with hinit | hvalid
    · rw [hinit]
      exact Or.inl isInitQc_initQc
    · exact Or.inr hvalid
  obtain ⟨r, hr⟩ := hok
  rw [syncNode_eq, hr]

/-- The certificates of the rest of a branch stay valid after the first round. -/
theorem processProp_certified {m : Machine K} (hk : Keyed m.storage.inMemQueue) {q : TreeNode K}
    {branch : List (TreeNode K)}
    (hcert : ∀ before p after, q :: branch = before ++ p :: after →
      ∃ x, (before.foldl insertBlock m.storage.inMemQueue).lookup p.justify.node = some x ∧
        (p.justify = initQc K ∨ m.voter.validateQc x p.justify.combinedSign = true))
    (hq : m.storage.get q.hash = some q ∨ m.accepts q = true) :
    ∀ before p after, branch = before ++ p :: after →
      ∃ x, (before.foldl insertBlock (m.processProp q).storage.inMemQueue).lookup p.justify.node =
          some x ∧
        (p.justify = initQc K ∨
          (m.processProp q).voter.validateQc x p.justify.combinedSign = true) := by
  intro before p after hbranch
  rw [processProp_inMemQueue hk, stored_store hq, processProp_voter]
  exact hcert (q :: before) p after (by rw [hbranch, List.cons_append])

/-- A node that fails the voting test and was not stored before is not stored by the rest of
the branch either. -/
theorem stored_or_accepts_of_mem {m : Machine K} (hk : Keyed m.storage.inMemQueue)
    {branch : List (TreeNode K)} (hsorted : branch.Pairwise fun a b => a.height < b.height)
    (h : ∀ p ∈ branch, (m.syncNodes branch).storage.get p.hash = some p) :
    ∀ round ∈ m.rounds branch,
      round.1.storage.get round.2.hash = some round.2 ∨ round.1.accepts round.2 = true := by
  induction branch generalizing m with
  | nil => exact fun round hround => nomatch hround
  | cons p branch ih =>
    obtain ⟨hlow, hsorted⟩ := List.pairwise_cons.mp hsorted
    have hnew : p ∉ branch := fun hp => lt_irrefl _ (hlow p hp)
    unfold rounds
    unfold syncNodes at h
    rw [syncNode_eq] at h ⊢
    cases hv : m.verifyProposal p.justify with
    | error e =>
      rw [hv] at h
      intro round hround
      rw [List.mem_singleton.mp hround]
      exact Or.inl (h p List.mem_cons_self)
    | ok r =>
      rw [hv] at h
      have hk' := processProp_keyed hk p
      intro round hround
      rcases List.mem_cons.mp hround with rfl | hround
      · rcases syncNodes_lookup hk' (h p List.mem_cons_self) with hp | hp
        · exact absurd hp hnew
        · unfold HotstuffStorage.get at hp
          rw [processProp_store hk] at hp
          split at hp
          · rename_i hacc
            exact Or.inr hacc
          · exact Or.inl hp
      · exact ih hk' hsorted (fun q hq => h q (List.mem_cons_of_mem _ hq)) round hround

/-- When every node is stored already or passes the voting test in its round, the rounds of a
certified branch all go through and write the branch into the store. -/
theorem syncNodes_store {m : Machine K} (hk : Keyed m.storage.inMemQueue)
    {branch : List (TreeNode K)}
    (hcert : ∀ before p after, branch = before ++ p :: after →
      ∃ x, (before.foldl insertBlock m.storage.inMemQueue).lookup p.justify.node = some x ∧
        (p.justify = initQc K ∨ m.voter.validateQc x p.justify.combinedSign = true))
    (h : ∀ round ∈ m.rounds branch,
      round.1.storage.get round.2.hash = some round.2 ∨ round.1.accepts round.2 = true) :
    (m.syncNodes branch).storage.inMemQueue = branch.foldl insertBlock m.storage.inMemQueue := by
  induction branch generalizing m with
  | nil => rfl
  | cons p branch ih =>
    -- the certificate of the first node is for a block of the store as it is
    obtain ⟨x, hx, hvalid⟩ := hcert [] p branch rfl
    have hnode := syncNode_of_certified hx hvalid
    have hp := h (m, p) List.mem_cons_self
    have hstore : (m.processProp p).storage.inMemQueue = insertBlock m.storage.inMemQueue p := by
      rw [processProp_inMemQueue hk, stored_store hp]
    rw [syncNodes_cons hnode, List.foldl_cons, ← hstore]
    apply ih (processProp_keyed hk p) (processProp_certified hk hcert hp)
    intro round hround
    apply h round
    rw [rounds, hnode]
    exact List.mem_cons_of_mem _ hround

/-- The voting tests of all rounds, read off the state before the sync. -/
theorem stored_or_accepts_iff {m : Machine K} (hk : Keyed m.storage.inMemQueue)
    {branch : List (TreeNode K)} (hsorted : branch.Pairwise fun a b => a.height < b.height)
    (hsha : CollisionFree ({x | x ∈ branch} ∪ storedBlocks m.storage.inMemQueue))
    (hcert : ∀ before p after, branch = before ++ p :: after →
      ∃ x, (before.foldl insertBlock m.storage.inMemQueue).lookup p.justify.node = some x ∧
        (p.justify = initQc K ∨ m.voter.validateQc x p.justify.combinedSign = true)) :
    (∀ round ∈ m.rounds branch,
        round.1.storage.get round.2.hash = some round.2 ∨ round.1.accepts round.2 = true) ↔
      ∀ before p after, branch = before ++ p :: after →
        m.storage.get p.hash = some p ∨ PassesAfter m.storage before p := by
  induction branch generalizing m with
  | nil =>
    refine ⟨?_, fun _ round hround => nomatch hround⟩
    intro _ before p after hsplit
    exact absurd hsplit.symm (by simp)
  | cons q branch ih =>
    obtain ⟨hlow, hsorted⟩ := List.pairwise_cons.mp hsorted
    obtain ⟨x, hx, hvalid⟩ := hcert [] q branch rfl
    have hnode := syncNode_of_certified hx hvalid
    -- a later node is judged in the state after the round as in the state before it
    have hshift : m.storage.get q.hash = some q ∨ m.accepts q = true →
        ∀ before p after, branch = before ++ p :: after →
          ((m.processProp q).storage.get p.hash = some p ∨
              PassesAfter (m.processProp q).storage before p ↔
            m.storage.get p.hash = some p ∨ PassesAfter m.storage (q :: before) p) := by
      intro hq before p after hsplit
      have hp : p ∈ branch := by
        rw [hsplit]
        exact List.mem_append_right _ List.mem_cons_self
      have hne : p.hash ≠ q.hash := by
        intro hhash
        have hinput := hsha p (Or.inl (List.mem_cons_of_mem _ hp)) q (Or.inl List.mem_cons_self) hhash
        exact absurd (hashInput_inj hinput).2.1 (hlow p hp).ne'
      have hget : (m.processProp q).storage.get p.hash = m.storage.get p.hash := by
        unfold HotstuffStorage.get
        rw [processProp_inMemQueue hk, stored_store hq]
        exact Finmap.lookup_insert_of_ne _ hne
      have hsha' : CollisionFree ({x | x ∈ q :: before} ∪ storedBlocks m.storage.inMemQueue) := by
        refine hsha.mono (Set.union_subset_union_left _ ?_)
        rw [hsplit, ← List.cons_append]
        exact fun y hy => List.mem_append_left _ hy
      rw [hget, passesAfter_iff, passesAfter_iff, safeAfter_processProp hk hq,
        votesBelow_processProp hk hsha' hx hq (hlow p hp)]
    have hsha' : m.storage.get q.hash = some q ∨ m.accepts q = true → CollisionFree
        ({x | x ∈ branch} ∪ storedBlocks (m.processProp q).storage.inMemQueue) := by
      intro hq
      rw [processProp_inMemQueue hk, stored_store hq]
      exact collisionFree_tail hsha
    have hrest := fun hq => ih (processProp_keyed hk q) hsorted (hsha' hq)
      (processProp_certified hk hcert hq)
    rw [rounds, hnode]
    constructor
    · intro h before p after hsplit
      have hq := h (m, q) List.mem_cons_self
      cases before with
      | nil =>
        obtain ⟨rfl, -⟩ := List.cons.inj hsplit
        exact hq.imp_right (accepts_iff_passesAfter hx).mp
      | cons q' before =>
        obtain ⟨rfl, hsplit'⟩ := List.cons.inj hsplit
        refine (hshift hq before p after hsplit').mp ?_
        exact (hrest hq).mp (fun round hround => h round (List.mem_cons_of_mem _ hround))
          before p after hsplit'
    · intro h
      have hq := (h [] q branch rfl).imp_right (accepts_iff_passesAfter hx).mpr
      have hafter := (hrest hq).mpr fun before p after hsplit =>
        (hshift hq before p after hsplit).mpr (h (q :: before) p after (by rw [hsplit]; rfl))
      intro round hround
      rcases List.mem_cons.mp hround with rfl | hround
      · exact hq
      · exact hafter round hround

/-- Blocks with hashes of their own are found after they were all written. -/
theorem lookup_foldl_insertBlock_of_mem {store : BlockStore K} {props : List (TreeNode K)}
    {p : TreeNode K} (hown : ∀ q ∈ props, q.hash = p.hash → q = p)
    (hp : p ∈ props ∨ store.lookup p.hash = some p) :
    (props.foldl insertBlock store).lookup p.hash = some p := by
  induction props generalizing store with
  | nil =>
    rcases hp with hp | hp
    · cases hp
    · exact hp
  | cons q props ih =>
    apply ih fun q' hq' => hown q' (List.mem_cons_of_mem _ hq')
    unfold insertBlock
    rw [HashMap.lookup_insert_eq_ite]
    split
    · rename_i hhash
      rw [hown q List.mem_cons_self hhash.symm]
      exact Or.inr rfl
    · rename_i hhash
      rcases hp with hp | hp
      · rcases List.mem_cons.mp hp with rfl | hp
        · exact absurd rfl hhash
        · exact Or.inl hp
      · exact Or.inr hp

/-- A valid branch is stored completely exactly when every round finds its node stored or passes
the voting test. -/
theorem storesBranch_iff_rounds {m : Machine K} (hk : Keyed m.storage.inMemQueue)
    {branch : List (TreeNode K)} (hvalid : m.ValidBranch branch)
    (hsha : CollisionFree {p | p ∈ branch}) :
    m.StoresBranch branch ↔ ∀ round ∈ m.rounds branch,
      round.1.storage.get round.2.hash = some round.2 ∨ round.1.accepts round.2 = true := by
  constructor
  · intro h
    exact stored_or_accepts_of_mem hk hvalid.sorted h.stored
  · intro h
    have hstore := syncNodes_store hk hvalid.certified h
    have hown : ∀ p ∈ branch, ∀ q ∈ branch, q.hash = p.hash → q = p := by
      intro p hp q hq hhash
      have hnodup : (branch.map TreeNode.height).Nodup :=
        List.pairwise_map.mpr (hvalid.sorted.imp ne_of_lt)
      exact List.inj_on_of_nodup_map hnodup hq hp (hashInput_inj (hsha q hq p hp hhash)).2.1
    have hstored : ∀ p ∈ branch, (m.syncNodes branch).storage.get p.hash = some p := by
      intro p hp
      unfold HotstuffStorage.get
      rw [hstore]
      exact lookup_foldl_insertBlock_of_mem (hown p hp) (Or.inl hp)
    refine ⟨hstored, ?_⟩
    intro last hlast ctx prop hname hqc herror
    have hok : ∃ r, (m.syncNodes branch).verifyProposal prop.justify = .ok r := by
      refine verifyProposal_isOk.mpr ⟨last, ?_, Or.inr ?_⟩
      · rw [hname]
        exact hstored last (List.mem_of_getLast? hlast)
      · rw [syncNodes_voter]
        exact hqc
    obtain ⟨r, hr⟩ := onRecvProposal_isOk.mpr hok
    exact nomatch hr.symm.trans herror

/-- A valid branch is stored completely exactly when each of its nodes is stored already or
passes the voting test behind the nodes before it: it is above the certificates of these that
are above `qc_high`, or above `vheight` if there are none, and it respects the lock that these
leave behind. -/
theorem branch_stored_iff (m : Machine K) (hfresh : FreshStorage m.storage)
    (calls : List (Call K)) (branch : List (TreeNode K))
    (hvalid : (m.run calls).ValidBranch branch)
    (hsha : CollisionFree
      ({p | p ∈ branch} ∪ storedBlocks (m.run calls).storage.inMemQueue)) :
    (m.run calls).StoresBranch branch ↔
      ∀ before p after, branch = before ++ p :: after →
        (m.run calls).storage.get p.hash = some p ∨
          PassesAfter (m.run calls).storage before p := by
  have hk : Keyed (m.run calls).storage.inMemQueue := run_keyed hfresh.keyed calls
  rw [storesBranch_iff_rounds hk hvalid (hsha.mono Set.subset_union_left)]
  exact stored_or_accepts_iff hk hvalid.sorted hsha hvalid.certified

end Machine

namespace Symbolic

open Machine

theorem fresh_freshStorage (n : ℕ) (i : SignID) : FreshStorage (fresh n i).storage :=
  .inMem _ _ _ _

theorem branch_split {x y p : TreeNode symbolic} {before after : List (TreeNode symbolic)}
    (h : [x, y] = before ++ p :: after) : (before = [] ∧ p = x) ∨ (before = [x] ∧ p = y) := by
  match before, h with
  | [], h => exact Or.inl ⟨rfl, (List.cons.inj h).1.symm⟩
  | [z], h =>
    obtain ⟨hx, h⟩ := List.cons.inj h
    exact Or.inr ⟨by rw [hx], (List.cons.inj h).1.symm⟩
  | _ :: _ :: before, h =>
    have hlen := congrArg List.length h
    simp at hlen

/-- The branch `a1`, `a2` for a replica with genesis lock and store. -/
theorem validBranch_of_genesis {m : Machine symbolic}
    (hinit : m.storage.get (initNodeHash symbolic) = some (initNode symbolic))
    (hlock : m.storage.state.bLocked = initNode symbolic)
    (hvoter : m.voter.validateQc a1 (certFor a1).combinedSign = true) :
    m.ValidBranch [a1, a2] := by
  have hfound : (insertBlock m.storage.inMemQueue a1).lookup a1.hash = some a1 :=
    Finmap.lookup_insert _
  have hgenesis : Reaches m.storage.inMemQueue m.storage.state.bLocked.hash a1 := by
    rw [hlock]
    exact .parent hinit (.here rfl)
  refine ⟨by decide, ?_, ?_⟩
  · intro before p after h
    rcases branch_split h with ⟨rfl, rfl⟩ | ⟨rfl, rfl⟩
    · exact ⟨initNode symbolic, hinit, Or.inl rfl⟩
    · exact ⟨a1, hfound, Or.inr hvoter⟩
  · intro before p after h
    rcases branch_split h with ⟨rfl, rfl⟩ | ⟨rfl, rfl⟩
    · exact hgenesis
    · have hne : initNodeHash symbolic ≠ a1.hash := by decide +kernel
      have hparent : (insertBlock m.storage.inMemQueue a1).lookup a1.parent =
          some (initNode symbolic) := (Finmap.lookup_insert_of_ne _ hne).trans hinit
      rw [hlock]
      exact .parent hfound (.parent hparent (.here rfl))

/-- A block of height 9 on the genesis block. -/
def b9 : TreeNode symbolic := block 9 9 (initNodeHash symbolic) (initQc symbolic)

/-- The branch with what a replica may have stored before. -/
theorem collisionFree_branch {stored branch : List (TreeNode symbolic)}
    (hall : ∀ p ∈ stored ++ branch, ∀ q ∈ stored ++ branch,
      p.hash = q.hash → p.hashInput = q.hashInput) {store : BlockStore symbolic}
    (hstore : ∀ x ∈ storedBlocks store, x ∈ stored) :
    CollisionFree ({p | p ∈ branch} ∪ storedBlocks store) := by
  have hmem : ∀ x ∈ {p | p ∈ branch} ∪ storedBlocks store, x ∈ stored ++ branch := by
    rintro x (hx | hx)
    · exact List.mem_append_right _ hx
    · exact List.mem_append_left _ (hstore x hx)
  exact fun p hp q hq => hall p (hmem p hp) q (hmem q hq)

/-- The branch `a4`, `a5` for a replica that has voted for the blocks below and is locked on
`a1`. -/
theorem validBranch_of_voted :
    ((fresh 4 0).run [deliver a1, deliver a2, deliver a3]).ValidBranch [a4, a5] := by
  generalize hm : (fresh 4 0).run [deliver a1, deliver a2, deliver a3] = m
  have hlock : m.storage.state.bLocked = a1 := by
    rw [← hm]
    decide +kernel
  have hstore : m.storage.inMemQueue.lookup a1.hash = some a1 ∧
      m.storage.inMemQueue.lookup a2.hash = some a2 ∧
      m.storage.inMemQueue.lookup a3.hash = some a3 := by
    rw [← hm]
    decide +kernel
  have hnext : (insertBlock m.storage.inMemQueue a4).lookup a1.hash = some a1 ∧
      (insertBlock m.storage.inMemQueue a4).lookup a2.hash = some a2 ∧
      (insertBlock m.storage.inMemQueue a4).lookup a3.hash = some a3 ∧
      (insertBlock m.storage.inMemQueue a4).lookup a4.hash = some a4 := by
    rw [← hm]
    decide +kernel
  have hvoter : m.voter.validateQc a3 a4.justify.combinedSign = true ∧
      m.voter.validateQc a4 a5.justify.combinedSign = true := by
    rw [← hm]
    decide +kernel
  refine ⟨by decide, ?_, ?_⟩
  · intro before p after h
    rcases branch_split h with ⟨rfl, rfl⟩ | ⟨rfl, rfl⟩
    · exact ⟨a3, hstore.2.2, Or.inr hvoter.1⟩
    · exact ⟨a4, hnext.2.2.2, Or.inr hvoter.2⟩
  · intro before p after h
    rw [hlock]
    rcases branch_split h with ⟨rfl, rfl⟩ | ⟨rfl, rfl⟩
    · exact .parent hstore.2.2 (.parent hstore.2.1 (.parent hstore.1 (.here rfl)))
    · exact .parent hnext.2.2.2 (.parent hnext.2.2.1
        (.parent hnext.2.1 (.parent hnext.1 (.here rfl))))

end Symbolic

open Symbolic in
/-- It has a `vheight` of 2, and stores the branch. -/
theorem storesBranch_of_voted :
    ((fresh 4 0).run [deliver a1, deliver a2, deliver a3]).storage.state.vheight = 2 ∧
      ((fresh 4 0).run [deliver a1, deliver a2, deliver a3]).StoresBranch [a4, a5] := by
  have hhashes : ∀ p ∈ [initNode symbolic, a1, a2, a3] ++ [a4, a5],
      ∀ q ∈ [initNode symbolic, a1, a2, a3] ++ [a4, a5],
        p.hash = q.hash → p.hashInput = q.hashInput := by
    decide +kernel
  refine ⟨by decide +kernel, ?_⟩
  refine (Machine.branch_stored_iff (fresh 4 0) (fresh_freshStorage 4 0)
    [deliver a1, deliver a2, deliver a3] [a4, a5] validBranch_of_voted
    (collisionFree_branch hhashes (forall_storedBlocks (by decide +kernel)))).mpr ?_
  intro before p after h
  rcases branch_split h with ⟨rfl, rfl⟩ | ⟨rfl, rfl⟩
  · exact Or.inr ⟨⟨by decide +kernel, fun _ => by decide +kernel⟩, Or.inl (by decide +kernel)⟩
  · exact Or.inr ⟨⟨by decide +kernel, fun _ => by decide +kernel⟩, Or.inl (by decide +kernel)⟩

open Symbolic in
/-- A replica that has voted at height 9 stores nothing of the same branch, which is valid for
it as well. -/
theorem not_branch_stored :
    ((fresh 4 0).run [deliver b9]).ValidBranch [a1, a2] ∧
      CollisionFree ({p | p ∈ [a1, a2]} ∪
        storedBlocks ((fresh 4 0).run [deliver b9]).storage.inMemQueue) ∧
      (((fresh 4 0).run [deliver b9]).onBranchSync [a1, a2]).1.storage.get a1.hash = none ∧
      (((fresh 4 0).run [deliver b9]).onBranchSync [a1, a2]).1.storage.get a2.hash = none ∧
      ¬ ((fresh 4 0).run [deliver b9]).StoresBranch [a1, a2] := by
  have hhashes : ∀ p ∈ [initNode symbolic, b9] ++ [a1, a2],
      ∀ q ∈ [initNode symbolic, b9] ++ [a1, a2], p.hash = q.hash → p.hashInput = q.hashInput := by
    decide +kernel
  have ha1 : (((fresh 4 0).run [deliver b9]).onBranchSync [a1, a2]).1.storage.get a1.hash = none := by
    decide +kernel
  refine ⟨validBranch_of_genesis (by decide +kernel) (by decide +kernel) (by decide +kernel),
    collisionFree_branch hhashes (forall_storedBlocks (by decide +kernel)), ha1,
    by decide +kernel, ?_⟩
  intro h
  have hstored := h.stored a1 List.mem_cons_self
  rw [ha1] at hstored
  cases hstored

end HotstuffConsensus
