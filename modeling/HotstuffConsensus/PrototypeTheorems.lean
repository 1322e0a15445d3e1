import HotstuffConsensus.CommitRule
import HotstuffConsensus.Encodings
import HotstuffConsensus.Prototype
import HotstuffConsensus.WalkTermination

/-!
# The prototype against the current implementation

`SameTree` reads the pool of the prototype and the block store of `hss` as one block tree. Over
one tree the two versions take three decisions: whether two blocks conflict, whether the chain
behind a block is a direct three-chain, and which block is locked then.

The walks of the two agree. What the prototype makes of them does not: it takes a block for
another one when the two have the same height and commands, it compares the parent of the first
block of a chain with that block itself, and it locks the proposal instead of the second block of
the chain behind it.
-/

namespace HotstuffConsensus

open Lib

variable {K : Crypto}

/-! ## One tree in two data models -/

/-- The same height, commands and parent. -/
structure SameNode (n : Prototype.TreeNode) (x : TreeNode K) : Prop where
  height : n.height = x.height
  cmds : n.cmds.map Prototype.Cmd.asBytes = x.txs.map Txn.cont
  parent : n.parent = x.parent

/-- The justify of `n` leads to the same block as that of `x`. -/
inductive SameJustify (p : Prototype.Machine K) (s : HotstuffStorage K) (n : Prototype.TreeNode)
    (x : TreeNode K) : Prop
  | named {qc : Prototype.GenericQC K} (hqc : p.getQc n.justify = some qc)
      (hnode : qc.node = x.justify.node)
  | missing (hqc : p.getQc n.justify = none) (hget : s.get x.justify.node = none)
  /-- The genesis block of the prototype is justified by itself, and `INIT_NODE` by zeros. -/
  | genesis (hn : n = .genesis) (hqc : p.findNodeByQc n.justify = some .genesis)
      (hget : s.get x.justify.node = none)

/-- The two machines hold the same blocks, under their hashes and above their parents, with the
same certificates, and the same block is locked. -/
structure SameTree (p : Prototype.Machine K) (s : HotstuffStorage K) : Prop where
  pool : ∀ k, Option.Rel SameNode (p.getNode k) (s.get k)
  justify : ∀ k n x, p.getNode k = some n → s.get k = some x → SameJustify p s n x
  keyed : Keyed s.inMemQueue
  below : ParentsBelow s.inMemQueue
  locked : SameNode p.bLocked s.state.bLocked

theorem Prototype.Cmd.asBytes_injective : Function.Injective Prototype.Cmd.asBytes := by
  intro c d h
  apply String.toByteArray_inj.mp
  apply ByteArray.ext
  exact Array.toList_inj.mp h

namespace SameNode

variable {n n' : Prototype.TreeNode} {x x' : TreeNode K}

theorem hash_eq (h : SameNode n x) : n.hash K = x.hash := by
  unfold Prototype.TreeNode.hash TreeNode.hash TreeNode.hashInput
  rw [List.flatMap_def, List.flatMap_def, h.cmds, h.height, h.parent]

theorem cmds_eq_iff (h : SameNode n x) (h' : SameNode n' x') :
    n.cmds = n'.cmds ↔ x.txs = x'.txs := by
  rw [← (List.map_injective_iff.mpr Prototype.Cmd.asBytes_injective).eq_iff, h.cmds, h'.cmds,
    (List.map_injective_iff.mpr Txn.cont_injective).eq_iff]

/-- Two readings of one block. -/
theorem same_iff (h : SameNode n x) :
    SameNode n x' ↔ x.height = x'.height ∧ x.txs = x'.txs ∧ x.parent = x'.parent := by
  constructor
  · intro h'
    refine ⟨h.height.symm.trans h'.height, ?_, h.parent.symm.trans h'.parent⟩
    exact (h.cmds_eq_iff h').mp rfl
  · rintro ⟨hheight, htxs, hparent⟩
    exact ⟨h.height.trans hheight, h.cmds.trans (congrArg _ htxs), h.parent.trans hparent⟩

end SameNode

namespace SameTree

variable {p : Prototype.Machine K} {s : HotstuffStorage K} {n : Prototype.TreeNode} {x : TreeNode K}

theorem get_cases (h : SameTree p s) (k : NodeHash) : p.getNode k = none ∧ s.get k = none ∨
    ∃ n x, p.getNode k = some n ∧ s.get k = some x ∧ SameNode n x := by
  have hrel := h.pool k
  generalize p.getNode k = n, s.get k = x at hrel ⊢
  cases hrel with
  | some hn => exact Or.inr ⟨_, _, rfl, rfl, hn⟩
  | none => exact Or.inl ⟨rfl, rfl⟩

/-! ## Conflicts -/

theorem walkFuel_eq (h : SameTree p s) : Prototype.walkFuel p.nodePool = walkFuel s.inMemQueue := by
  have hkeys : p.nodePool.keys = s.inMemQueue.keys := by
    ext k
    rw [Finmap.mem_keys, Finmap.mem_keys, ← Finmap.lookup_isSome, ← Finmap.lookup_isSome]
    show (p.getNode k).isSome = true ↔ (s.get k).isSome = true
    rcases h.get_cases k with ⟨hp, hs⟩ | ⟨n, x, hp, hs, -⟩
    · rw [hp, hs]
      exact Iff.rfl
    · rw [hp, hs]
      exact Iff.rfl
  unfold Prototype.walkFuel walkFuel
  rw [← HashMap.card_keys, ← HashMap.card_keys, hkeys]

/-- The two walks go from block to block together. -/
theorem walk_same (h : SameTree p s) (bound : ViewNumber) (fuel : ℕ) (hn : SameNode n x) :
    SameNode (Prototype.walk p.nodePool bound fuel n) (walk s.inMemQueue bound fuel x) := by
  induction fuel generalizing n x with
  | zero => exact hn
  | succ fuel ih =>
    unfold Prototype.walk walk
    rw [hn.height, hn.parent]
    split
    · rcases h.get_cases x.parent with ⟨hp, hs⟩ | ⟨prev, prev', hp, hs, hprev⟩
      · rw [show p.nodePool.lookup x.parent = none from hp,
          show s.inMemQueue.lookup x.parent = none from hs]
        exact hn
      · rw [show p.nodePool.lookup x.parent = some prev from hp,
          show s.inMemQueue.lookup x.parent = some prev' from hs]
        exact ih hprev
    · exact hn

/-- Both walks come to their end within the fuel. -/
theorem walk_ends (h : SameTree p s) (bound : ViewNumber) (hn : SameNode n x)
    (hx : AboveParent s.inMemQueue x) :
    (Prototype.walk p.nodePool bound (Prototype.walkFuel p.nodePool) n).height ≤ bound ∨
      p.getNode (Prototype.walk p.nodePool bound (Prototype.walkFuel p.nodePool) n).parent =
        none := by
  have hends := walkEnds_iff_walkFuel.mp (h.below.walkEnds hx bound)
  have hend := h.walk_same bound (walkFuel s.inMemQueue) hn
  rw [h.walkFuel_eq, hend.height, hend.parent]
  unfold nextBlock at hends
  split at hends
  · right
    rcases h.get_cases (walk s.inMemQueue bound (walkFuel s.inMemQueue) x).parent with
      ⟨hp, -⟩ | ⟨m, y, -, hs, -⟩
    · exact hp
    · have hsome : s.inMemQueue.lookup _ = some y := hs
      rw [hends] at hsome
      cases hsome
  · left
    rename_i hle
    exact not_lt.mp hle

end SameTree

/-- Of `a` and its ancestors, the one at the height of `b` has the commands of `b` exactly when it
is `b`. -/
def CommandsTell (store : BlockStore K) (a b : TreeNode K) : Prop :=
  ∀ z, Descends store z a → z.height = b.height → (z.txs = b.txs ↔ z.hash = b.hash)

namespace SameTree

variable {p : Prototype.Machine K} {s : HotstuffStorage K} {a b n : Prototype.TreeNode}
  {a' b' x : TreeNode K}

/-- The ends of the two walks from `a` are judged alike. -/
theorem walk_agrees_iff (h : SameTree p s) (ha : SameNode a a') (hb : SameNode b b')
    (habove : AboveParent s.inMemQueue a')
    (hsha : CollisionFree ({a', b'} ∪ storedBlocks s.inMemQueue)) :
    (!((Prototype.walk p.nodePool b.height (Prototype.walkFuel p.nodePool) a).height == b.height &&
        (Prototype.walk p.nodePool b.height (Prototype.walkFuel p.nodePool) a).cmds == b.cmds)) =
      ((walk s.inMemQueue b'.height (walkFuel s.inMemQueue) a').hash != b'.hash) ↔
      CommandsTell s.inMemQueue a' b' := by
  have hend := h.walk_same b'.height (walkFuel s.inMemQueue) ha
  have hdesc := descends_walk h.below b'.height (walkFuel s.inMemQueue) habove
  have hfound : ∀ z, Descends s.inMemQueue z a' → z.height = b'.height →
      walk s.inMemQueue b'.height (walkFuel s.inMemQueue) a' = z := by
    intro z hz hheight
    rw [← hheight]
    exact walk_of_descends hz (countBelow_lt_walkFuel _ _)
  rw [h.walkFuel_eq, hb.height]
  generalize Prototype.walk p.nodePool b'.height (walkFuel s.inMemQueue) a = z at hend ⊢
  generalize walk s.inMemQueue b'.height (walkFuel s.inMemQueue) a' = z' at hend hdesc hfound ⊢
  -- both judgements, about the end of the walk in the store
  have hbool : (!(z.height == b'.height && z.cmds == b.cmds)) = (z'.hash != b'.hash) ↔
      (z'.height = b'.height ∧ z'.txs = b'.txs ↔ z'.hash = b'.hash) := by
    have hproto : (!(z.height == b'.height && z.cmds == b.cmds)) = true ↔
        ¬ (z'.height = b'.height ∧ z'.txs = b'.txs) := by
      rw [Bool.not_eq_true', ← Bool.not_eq_true, Bool.and_eq_true, beq_iff_eq, beq_iff_eq,
        hend.height, hend.cmds_eq_iff hb]
    rw [Bool.eq_iff_iff, hproto, bne_iff_ne]
    exact not_iff_not
  rw [hbool]
  constructor
  · intro hiff w hw hheight
    obtain rfl := hfound w hw hheight
    rw [← hiff]
    exact ⟨fun htxs => ⟨hheight, htxs⟩, And.right⟩
  · intro htell
    constructor
    · rintro ⟨hheight, htxs⟩
      exact (htell z' hdesc hheight).mp htxs
    · intro hhash
      have hheight : z'.height = b'.height := by
        have hmem : z' ∈ ({a', b'} ∪ storedBlocks s.inMemQueue : Set _) := by
          rcases hdesc.eq_or_lower with rfl | ⟨hz, -⟩
          · simp
          · simp [hz]
        exact (hashInput_inj (hsha z' hmem b' (by simp) hhash)).2.1
      exact ⟨hheight, (htell z' hdesc hheight).mpr hhash⟩

/-- `is_conflicting` of the two versions. -/
theorem isConflicting_iff (h : SameTree p s) (ha : SameNode a a') (hb : SameNode b b')
    (ha' : AboveParent s.inMemQueue a') (hb' : AboveParent s.inMemQueue b')
    (hsha : CollisionFree ({a', b'} ∪ storedBlocks s.inMemQueue)) :
    p.isConflicting a b = s.isConflicting a' b' ↔
      if b'.height ≤ a'.height then CommandsTell s.inMemQueue a' b'
      else CommandsTell s.inMemQueue b' a' := by
  unfold Prototype.Machine.isConflicting HotstuffStorage.isConflicting
  rw [ha.height, hb.height]
  split
  · exact h.walk_agrees_iff ha hb ha' hsha
  · rw [Set.pair_comm] at hsha
    exact h.walk_agrees_iff hb ha hb' hsha

/-! ## Three-chains -/

/-- A stored block is not its own parent, so the prototype finds no three-chain. -/
theorem isContinuesThreeChain_eq_false (h : SameTree p s) (n : Prototype.TreeNode) :
    Prototype.Machine.isContinuesThreeChain K (p.findThreeChain n) = false := by
  have hstored : ∀ {k b3}, p.getNode k = some b3 → b3.parent ≠ b3.hash K := by
    intro k b3 hb3 hown
    obtain ⟨hnone, -⟩ | ⟨m, y, hm, hy, hsame⟩ := h.get_cases k
    · rw [hnone] at hb3
      cases hb3
    · rw [hm] at hb3
      obtain rfl := Option.some.inj hb3
      rw [hsame.hash_eq, hsame.parent, h.keyed k y hy] at hown
      have hparent : s.inMemQueue.lookup y.parent = some y := by
        rw [hown]
        exact hy
      exact lt_irrefl _ (h.below k y hy y hparent)
  unfold Prototype.Machine.findThreeChain
  cases hb3 : p.findNodeByQc n.justify with
  | none => rfl
  | some b3 =>
    obtain ⟨qc, -, hnode⟩ := Option.bind_eq_some_iff.mp hb3
    have hne : (b3.parent == b3.hash K) = false := beq_eq_false_iff_ne.mpr (hstored hnode)
    dsimp only
    split
    · rfl
    · split
      · rfl
      · unfold Prototype.Machine.isContinuesThreeChain
        dsimp only
        rw [hne, Bool.false_and]

/-- The three-chain tests of the two versions. -/
theorem isContinuesThreeChain_iff (h : SameTree p s) (n : Prototype.TreeNode) (x : TreeNode K) :
    Prototype.Machine.isContinuesThreeChain K (p.findThreeChain n) =
        HotstuffStorage.isConsecutiveThreeChain (s.findThreeChain x) ↔
      ∀ b, ¬ s.DirectThreeChain x b := by
  rw [h.isContinuesThreeChain_eq_false n, eq_comm, ← Bool.not_eq_true,
    HotstuffStorage.isConsecutiveThreeChain_iff]
  simp only [HotstuffStorage.directThreeChain_iff]
  constructor
  · rintro hno b ⟨b3, b2, hchain⟩
    exact hno ⟨b3, b2, b, hchain⟩
  · rintro hno ⟨b3, b2, b, hchain⟩
    exact hno b ⟨b3, b2, hchain⟩

end SameTree

/-! ## Locks -/

namespace Prototype.Machine

variable (p : Prototype.Machine K) (n : Prototype.TreeNode)

/-- The second block of the chain behind `n`. -/
def second : Option Prototype.TreeNode :=
  (p.findNodeByQc n.justify).bind fun b3 => p.findNodeByQc b3.justify

theorem findThreeChain_second? : (p.findThreeChain n)[1]? = p.second n := by
  unfold findThreeChain second
  cases p.findNodeByQc n.justify with
  | none => rfl
  | some b3 =>
    dsimp only
    rw [Option.bind_some]
    cases p.findNodeByQc b3.justify with
    | none => rfl
    | some b2 =>
      dsimp only
      cases p.findNodeByQc b2.justify with
      | none => rfl
      | some b1 => rfl

theorem onCommit_bLocked (fuel : ℕ) : (onCommit fuel p n).bLocked = p.bLocked := by
  induction fuel generalizing n with
  | zero => rfl
  | succ fuel ih =>
    unfold onCommit
    split
    · dsimp only
      split
      · exact ih _
      · rfl
    · rfl

theorem updateNodesQcHigh_bLocked (chain : List Prototype.TreeNode) :
    (p.updateNodesQcHigh chain n).bLocked = p.bLocked := by
  unfold updateNodesQcHigh
  split
  · unfold updateQcHigh updateLeaf
    split
    · split
      · split <;> rfl
      · rfl
    · rfl
  · rfl

/-- The lock moves to `n` when the second block of its chain is higher than the lock. -/
theorem updateNodes_bLocked_eq : (p.updateNodes n).bLocked =
    match p.second n with
    | some b2 => if p.bLocked.height < b2.height then n else p.bLocked
    | none => p.bLocked := by
  have hlock : ∀ m : Prototype.Machine K, m.bLocked = p.bLocked →
      (m.updateNodesLocked p.bLocked (p.findThreeChain n) n).bLocked =
        match p.second n with
        | some b2 => if p.bLocked.height < b2.height then n else p.bLocked
        | none => p.bLocked := by
    intro m hm
    unfold updateNodesLocked
    rw [findThreeChain_second?]
    cases p.second n with
    | none => exact hm
    | some b2 =>
      dsimp only
      split
      · rfl
      · exact hm
  rw [← hlock _ (p.updateNodesQcHigh_bLocked n (p.findThreeChain n))]
  unfold updateNodes
  dsimp only
  split
  · split
    · rw [onCommit_bLocked]
    · rfl
  · rfl

end Prototype.Machine

/-- The second block of the chain behind `x`. -/
def HotstuffStorage.second (s : HotstuffStorage K) (x : TreeNode K) : Option (TreeNode K) :=
  (s.get x.justify.node).bind fun b3 => s.get b3.justify.node

/-- The lock moves to the second block of the chain behind `x` when that is higher. -/
theorem Machine.updateNodes_bLocked_eq (m : Machine K) (x : TreeNode K) :
    (m.updateNodes x).1.storage.state.bLocked =
      match m.storage.second x with
      | some b2 => if m.storage.state.bLocked.height < b2.height then b2
          else m.storage.state.bLocked
      | none => m.storage.state.bLocked := by
  obtain ⟨hlock, -⟩ := updateNodesQcHigh_frame m.storage (m.storage.findThreeChain x) x
  have hsecond : (m.storage.findThreeChain x)[1]? = m.storage.second x :=
    m.storage.findThreeChain_second? x
  rw [updateNodes_bLocked]
  unfold updateNodesLocked
  rw [hsecond]
  cases m.storage.second x with
  | none => exact hlock
  | some b2 =>
    dsimp only
    rw [hlock]
    split
    · rfl
    · exact hlock

namespace SameTree

variable {p : Prototype.Machine K} {s : HotstuffStorage K} {n : Prototype.TreeNode} {x : TreeNode K}

/-- Where the justifies of `n` and `x` lead. -/
theorem first_cases (h : SameTree p s) (hj : SameJustify p s n x) :
    (p.findNodeByQc n.justify = none ∧ s.get x.justify.node = none) ∨
    (∃ b y, p.findNodeByQc n.justify = some b ∧ s.get x.justify.node = some y ∧ SameNode b y ∧
      SameJustify p s b y) ∨
    (p.findNodeByQc n.justify = some .genesis ∧ n = .genesis ∧ s.get x.justify.node = none) := by
  cases hj with
  | @named qc hqc hnode =>
    have hfind : p.findNodeByQc n.justify = p.getNode x.justify.node := by
      unfold Prototype.Machine.findNodeByQc
      rw [hqc, Option.bind_some, hnode]
    rw [hfind]
    rcases h.get_cases x.justify.node with ⟨hp, hs⟩ | ⟨b, y, hp, hs, hsame⟩
    · exact Or.inl ⟨hp, hs⟩
    · exact Or.inr (Or.inl ⟨b, y, hp, hs, hsame, h.justify _ b y hp hs⟩)
  | missing hqc hget =>
    left
    unfold Prototype.Machine.findNodeByQc
    rw [hqc]
    exact ⟨rfl, hget⟩
  | genesis hn hqc hget => exact Or.inr (Or.inr ⟨hqc, hn, hget⟩)

/-- The second blocks of the two chains are the same, except that the prototype goes round at the
genesis block, which is no higher than any lock. -/
theorem second_cases (h : SameTree p s) (hj : SameJustify p s n x) :
    (p.second n = none ∧ s.second x = none) ∨
    (∃ b y, p.second n = some b ∧ s.second x = some y ∧ SameNode b y) ∨
    (p.second n = some .genesis ∧ s.second x = none) := by
  unfold Prototype.Machine.second HotstuffStorage.second
  rcases h.first_cases hj with ⟨hp, hs⟩ | ⟨b, y, hp, hs, -, hj'⟩ | ⟨hp, rfl, hs⟩
  · rw [hp, hs]
    exact Or.inl ⟨rfl, rfl⟩
  · rw [hp, hs, Option.bind_some, Option.bind_some]
    rcases h.first_cases hj' with hnone | ⟨b2, y2, hp2, hs2, hsame, -⟩ | ⟨hp2, -, hs2⟩
    · exact Or.inl hnone
    · exact Or.inr (Or.inl ⟨b2, y2, hp2, hs2, hsame⟩)
    · exact Or.inr (Or.inr ⟨hp2, hs2⟩)
  · rw [hp, hs, Option.bind_some]
    exact Or.inr (Or.inr ⟨hp, rfl⟩)

end SameTree

/-- The second block behind `x` is not above the lock, or is `x`. -/
def LocksItself (s : HotstuffStorage K) (x : TreeNode K) : Prop :=
  ∀ b2, s.second x = some b2 → s.state.bLocked.height < b2.height →
    x.height = b2.height ∧ x.txs = b2.txs ∧ x.parent = b2.parent

/-- The locks after `update_nodes` of the two versions. -/
theorem SameTree.updateNodes_bLocked_iff {p : Prototype.Machine K} {m : Machine K}
    (h : SameTree p m.storage) {n : Prototype.TreeNode} {x : TreeNode K} (hn : SameNode n x)
    (hj : SameJustify p m.storage n x) :
    SameNode (p.updateNodes n).bLocked (m.updateNodes x).1.storage.state.bLocked ↔
      LocksItself m.storage x := by
  rw [Prototype.Machine.updateNodes_bLocked_eq, Machine.updateNodes_bLocked_eq]
  unfold LocksItself
  rcases h.second_cases hj with ⟨hp, hs⟩ | ⟨b, y, hp, hs, hsame⟩ | ⟨hp, hs⟩
  · rw [hp, hs]
    exact ⟨fun _ b2 hb2 => (nomatch hb2), fun _ => h.locked⟩
  · rw [hp, hs]
    dsimp only
    rw [hsame.height, h.locked.height]
    split
    · rename_i hlt
      rw [hn.same_iff]
      constructor
      · intro hxy b2 hb2 _
        rw [← Option.some.inj hb2]
        exact hxy
      · exact fun hall => hall y rfl hlt
    · rename_i hle
      constructor
      · intro _ b2 hb2 hlt
        rw [← Option.some.inj hb2] at hlt
        exact absurd hlt hle
      · exact fun _ => h.locked
  · rw [hp, hs]
    dsimp only
    -- the genesis block has height 0
    have hlow : ¬ p.bLocked.height < Prototype.TreeNode.genesis.height := UInt64.not_lt_zero
    rw [if_neg hlow]
    exact ⟨fun _ b2 hb2 => (nomatch hb2), fun _ => h.locked⟩

/-! ## Both versions -/

/-- The two versions decide alike: on a conflict of `a` and `b`, on the three-chain behind a
block, and on the lock after it. -/
structure DecidesAlike (p : Prototype.Machine K) (m : Machine K) (a b n : Prototype.TreeNode)
    (a' b' x : TreeNode K) : Prop where
  conflicting : p.isConflicting a b = m.storage.isConflicting a' b'
  threeChain : Prototype.Machine.isContinuesThreeChain K (p.findThreeChain n) =
    HotstuffStorage.isConsecutiveThreeChain (m.storage.findThreeChain x)
  locked : SameNode (p.updateNodes n).bLocked (m.updateNodes x).1.storage.state.bLocked

/-- On one block tree the prototype decides like the current implementation exactly when: the
commands of the lower of two blocks tell it from the ancestors of the higher one at its height;
there is no direct three-chain behind the block; and the second block behind it is not above the
lock, or is the block itself. -/
theorem decidesAlike_iff {p : Prototype.Machine K} {m : Machine K} (h : SameTree p m.storage)
    {a b n : Prototype.TreeNode} {a' b' x : TreeNode K} (ha : SameNode a a') (hb : SameNode b b')
    (hn : SameNode n x) (hj : SameJustify p m.storage n x)
    (ha' : AboveParent m.storage.inMemQueue a') (hb' : AboveParent m.storage.inMemQueue b')
    (hsha : CollisionFree ({a', b'} ∪ storedBlocks m.storage.inMemQueue)) :
    DecidesAlike p m a b n a' b' x ↔
      (if b'.height ≤ a'.height then CommandsTell m.storage.inMemQueue a' b'
        else CommandsTell m.storage.inMemQueue b' a') ∧
      (∀ c, ¬ m.storage.DirectThreeChain x c) ∧ LocksItself m.storage x := by
  rw [← h.isConflicting_iff ha hb ha' hb' hsha, ← h.isContinuesThreeChain_iff n x,
    ← h.updateNodes_bLocked_iff hn hj]
  constructor
  · intro hd
    exact ⟨hd.conflicting, hd.threeChain, hd.locked⟩
  · rintro ⟨hc, ht, hl⟩
    exact ⟨hc, ht, hl⟩

/-! ## A tree with a fork -/

theorem sameJustify_of_node {p : Prototype.Machine K} {s : HotstuffStorage K}
    {n : Prototype.TreeNode} {x : TreeNode K}
    (h : (p.getQc n.justify).map Prototype.GenericQC.node = some x.justify.node) :
    SameJustify p s n x := by
  obtain ⟨qc, hqc, hnode⟩ := Option.map_eq_some_iff.mp h
  exact .named hqc hnode

/-- Inserting one block in both data models keeps them the same. -/
theorem rel_insert {pool : Prototype.NodePool} {store : BlockStore K}
    (h : ∀ k, Option.Rel SameNode (pool.lookup k) (store.lookup k)) {n : Prototype.TreeNode}
    {x : TreeNode K} (hn : SameNode n x) (k : NodeHash) :
    Option.Rel SameNode ((pool.insert (n.hash K) n).lookup k)
      ((store.insert x.hash x).lookup k) := by
  rw [HashMap.lookup_insert_eq_ite, HashMap.lookup_insert_eq_ite, hn.hash_eq]
  split
  · exact .some hn
  · exact h k

namespace Literal

/-- A block with its commands and the certificate it carries, in both data models. -/
def both (height : ViewNumber) (cmds : List Prototype.Cmd) (parent : NodeHash)
    (qc : Prototype.GenericQC literal) : Prototype.TreeNode × TreeNode literal :=
  (⟨height, cmds, parent, qc.hash⟩,
    ⟨height, cmds.map fun c => ⟨c.asBytes⟩, parent,
      ⟨qc.view, qc.node, qc.combinedSign.getD literal.zeroed⟩⟩)

theorem both_same (height : ViewNumber) (cmds : List Prototype.Cmd) (parent : NodeHash)
    (qc : Prototype.GenericQC literal) :
    SameNode (both height cmds parent qc).1 (both height cmds parent qc).2 := by
  refine ⟨rfl, ?_, rfl⟩
  unfold both
  rw [List.map_map]
  rfl

/-- A certificate with a signature of the given bytes. -/
def qcWith (byte : UInt8) (e : Prototype.TreeNode × TreeNode literal) :
    Prototype.GenericQC literal :=
  ⟨e.2.height, e.2.hash, some (List.Vector.replicate 96 byte)⟩

/-- A chain of blocks, each with the certificate of the one before. -/
def e1 : Prototype.TreeNode × TreeNode literal :=
  both 1 ["a"] (initNodeHash literal) (.genesis 0 .genesis)

@[inherit_doc e1]
def e2 : Prototype.TreeNode × TreeNode literal := both 2 ["b"] e1.2.hash (qcWith 1 e1)

@[inherit_doc e1]
def e3 : Prototype.TreeNode × TreeNode literal := both 3 ["c"] e2.2.hash (qcWith 2 e2)

@[inherit_doc e1]
def e4 : Prototype.TreeNode × TreeNode literal := both 4 ["d"] e3.2.hash (qcWith 3 e3)

/-- A block beside `e2` with the same commands. -/
def f2 : Prototype.TreeNode × TreeNode literal :=
  both 2 ["b"] (initNodeHash literal) (.genesis 0 .genesis)

/-- The prototype with these blocks, but `e4`. -/
def prototype : Prototype.Machine literal :=
  [e1, e2, e3, f2].foldl (fun p e => p.appendNewNode e.1)
    ([qcWith 1 e1, qcWith 2 e2, qcWith 3 e3].foldl Prototype.Machine.appendNewQc .new)

/-- The current implementation with the same blocks. -/
def current : Machine literal :=
  .new (.new conf.threshold signaturer) conf.replicaId conf.total none
    ([e1, e2, e3, f2].foldl (fun s e => s.appendNewNode e.2) storage₀)

def currentBlocks : List (TreeNode literal) := [initNode literal, e1.2, e2.2, e3.2, f2.2]

theorem current_mem : ∀ x ∈ storedBlocks current.storage.inMemQueue, x ∈ currentBlocks :=
  forall_storedBlocks (by decide +kernel)

theorem current_aboveParent : ∀ x ∈ currentBlocks, AboveParent current.storage.inMemQueue x := by
  have h : ∀ x ∈ currentBlocks, ∀ p ∈ current.storage.inMemQueue.lookup x.parent,
      p.height < x.height := by
    decide +kernel
  exact h

theorem current_collisionFree :
    CollisionFree ({e3.2, e1.2} ∪ storedBlocks current.storage.inMemQueue) := by
  have h : ∀ x ∈ currentBlocks, ∀ y ∈ currentBlocks,
      x.hash = y.hash → x.hashInput = y.hashInput := by
    decide +kernel
  have hmem : ∀ x ∈ ({e3.2, e1.2} ∪ storedBlocks current.storage.inMemQueue : Set _),
      x ∈ currentBlocks := by
    rintro x ((rfl | rfl) | hx)
    · simp [currentBlocks]
    · simp [currentBlocks]
    · exact current_mem x hx
  exact fun x hx y hy => h x (hmem x hx) y (hmem y hy)

/-- The justifies of the stored blocks. -/
theorem current_justify : ∀ e ∈ prototype.nodePool.entries, ∀ x ∈ current.storage.get e.1,
    (prototype.getQc e.2.justify).map Prototype.GenericQC.node = some x.justify.node ∨
      e.2 = .genesis ∧ prototype.findNodeByQc e.2.justify = some .genesis ∧
        current.storage.get x.justify.node = none := by
  decide +kernel

theorem current_sameTree : SameTree prototype current.storage where
  pool := by
    have hempty : ∀ k, Option.Rel (SameNode (K := literal))
        ((∅ : Prototype.NodePool).lookup k) ((∅ : BlockStore literal).lookup k) := by
      intro k
      rw [Finmap.lookup_empty, Finmap.lookup_empty]
      exact .none
    have hgenesis : SameNode .genesis (initNode literal) := ⟨rfl, rfl, rfl⟩
    exact rel_insert (rel_insert (rel_insert (rel_insert (rel_insert hempty hgenesis)
      (both_same _ _ _ _)) (both_same _ _ _ _)) (both_same _ _ _ _)) (both_same _ _ _ _)
  justify := by
    intro k n x hn hx
    rcases current_justify ⟨k, n⟩ (Finmap.lookup_eq_some_iff.mp hn) x hx with hqc | ⟨rfl, hqc, hget⟩
    · exact sameJustify_of_node hqc
    · exact .genesis rfl hqc hget
  keyed := by
    have h : ∀ e ∈ current.storage.inMemQueue.entries, e.2.hash = e.1 := by decide +kernel
    exact fun k x hx => h ⟨k, x⟩ (Finmap.lookup_eq_some_iff.mp hx)
  below := fun k x hx => current_aboveParent x (current_mem x ⟨k, hx⟩)
  locked := ⟨rfl, rfl, rfl⟩

end Literal

open Literal in
/-- `e1` is an ancestor of `e3` for both, and nothing is committed or locked behind `e2`. -/
theorem prototype_decides_alike : DecidesAlike prototype current e3.1 e1.1 e2.1 e3.2 e1.2 e2.2 := by
  have hstored : ∀ {z}, Descends current.storage.inMemQueue z e3.2 → z ∈ currentBlocks := by
    intro z hz
    rcases hz.eq_or_lower with rfl | ⟨hmem, -⟩
    · simp [currentBlocks]
    · exact current_mem z hmem
  refine (decidesAlike_iff current_sameTree (both_same _ _ _ _) (both_same _ _ _ _)
    (both_same _ _ _ _) (sameJustify_of_node (by decide +kernel))
    (current_aboveParent e3.2 (by simp [currentBlocks]))
    (current_aboveParent e1.2 (by simp [currentBlocks])) current_collisionFree).mpr ⟨?_, ?_, ?_⟩
  · rw [if_pos (by decide)]
    have htell : ∀ z ∈ currentBlocks, z.height = e1.2.height →
        (z.txs = e1.2.txs ↔ z.hash = e1.2.hash) := by decide +kernel
    exact fun z hz => htell z (hstored hz)
  · exact (current_sameTree.isContinuesThreeChain_iff e2.1 e2.2).mp (by decide +kernel)
  · have hlow : ∀ b2 ∈ current.storage.second e2.2,
        ¬ current.storage.state.bLocked.height < b2.height := by decide +kernel
    exact fun b2 hb2 hlt => absurd hlt (hlow b2 hb2)

open Literal in
/-- The prototype takes `e2` and `f2` for the same block, finds no three-chain behind `e4`, and
locks `e4` instead of `e2`. -/
theorem prototype_decides_otherwise :
    SameTree prototype current.storage ∧ SameNode e2.1 e2.2 ∧ SameNode f2.1 f2.2 ∧
    SameNode e4.1 e4.2 ∧ SameJustify prototype current.storage e4.1 e4.2 ∧
    (prototype.isConflicting e2.1 f2.1 = false ∧
      current.storage.isConflicting e2.2 f2.2 = true) ∧
    (Prototype.Machine.isContinuesThreeChain literal (prototype.findThreeChain e4.1) = false ∧
      HotstuffStorage.isConsecutiveThreeChain (current.storage.findThreeChain e4.2) = true) ∧
    ((prototype.updateNodes e4.1).bLocked = e4.1 ∧
      (current.updateNodes e4.2).1.storage.state.bLocked = e2.2) ∧
    ¬ DecidesAlike prototype current e2.1 f2.1 e4.1 e2.2 f2.2 e4.2 := by
  have hconflict : prototype.isConflicting e2.1 f2.1 = false ∧
      current.storage.isConflicting e2.2 f2.2 = true := by decide +kernel
  refine ⟨current_sameTree, both_same _ _ _ _, both_same _ _ _ _, both_same _ _ _ _,
    sameJustify_of_node (by decide +kernel), hconflict, by decide +kernel, by decide +kernel, ?_⟩
  intro halike
  have hsame := halike.conflicting
  rw [hconflict.1, hconflict.2] at hsame
  cases hsame

end HotstuffConsensus
