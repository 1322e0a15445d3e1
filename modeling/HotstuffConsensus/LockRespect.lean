import HotstuffConsensus.Ancestry
import HotstuffConsensus.CommitRule
import HotstuffConsensus.VoteOnce
import HotstuffConsensus.Lib.Run

/-!
# Votes and the lock

A vote respects the lock when the proposal descends strictly from the locked block or is
justified above it. `safe_node` tests whether the proposal and the lock lie on one branch, in
either direction, so it also lets through the lock itself and its ancestors. What keeps these
out is `vheight`, and `vheight` may fall below the lock.

In a store whose parent links decrease the height, the votes of a run respect the lock exactly
when no proposal is signed that is not above it, unless its justify is.
-/

namespace HotstuffConsensus

open Lib

variable {K : Crypto} {B : Set (TreeNode K)} {p : TreeNode K}

namespace Machine

/-- The block that the justify of `p` names is higher than the lock. -/
def JustifiedAboveLock (m : Machine K) (p : TreeNode K) : Prop :=
  ∃ b, m.storage.get p.justify.node = some b ∧ m.storage.state.bLocked.height < b.height

/-- `p` descends strictly from the lock: the lock is reached from its parent. -/
def DescendsFromLock (m : Machine K) (p : TreeNode K) : Prop :=
  ∃ q, m.storage.get p.parent = some q ∧
    Reaches m.storage.inMemQueue m.storage.state.bLocked.hash q

/-- A proposal that the call signs descends strictly from the lock or is justified above it. -/
def RespectsLock (m : Machine K) (c : Call K) : Prop :=
  ∀ p, m.signs c = some p → m.DescendsFromLock p ∨ m.JustifiedAboveLock p

/-- A proposal that the call signs is higher than the lock or is justified above it. -/
def VotesAboveLock (m : Machine K) (c : Call K) : Prop :=
  ∀ p, m.signs c = some p →
    m.storage.state.bLocked.height < p.height ∨ m.JustifiedAboveLock p

/-- Before and after the call the stored parent links decrease the height, and the blocks the
replica has to do with are in `B`. -/
structure Orderly (B : Set (TreeNode K)) (m : Machine K) (c : Call K) : Prop where
  before : ParentsBelow m.storage.inMemQueue
  after : ParentsBelow (m.call c).1.storage.inMemQueue
  stored : storedBlocks m.storage.inMemQueue ⊆ B
  signed : ∀ p, m.signs c = some p → p ∈ B
  bLocked : m.storage.state.bLocked ∈ B

/-! ## One call -/

/-- A signed proposal passed the voting test, and is stored. -/
theorem signs_accepts {m : Machine K} {c : Call K} (hk : Keyed m.storage.inMemQueue)
    (h : m.signs c = some p) : m.accepts p = true ∧
      (m.call c).1.storage.inMemQueue = m.storage.inMemQueue.insert p.hash p := by
  obtain ⟨⟨ctx, rfl⟩, -⟩ := signs_eq_some h
  obtain ⟨⟨r, hr⟩, hacc⟩ := signs_recvProposal_eq_some h
  refine ⟨hacc, ?_⟩
  show (m.onRecvProposal ctx p p.justify).1.storage.inMemQueue = _
  rw [onRecvProposal_eq, hr]
  show (m.processProp p).storage.inMemQueue = _
  rw [processProp_inMemQueue hk]
  unfold Machine.stored
  rw [if_pos hacc]
  rfl

/-- A signed proposal is above its parent. -/
theorem Orderly.aboveParent {m : Machine K} {c : Call K} (hk : Keyed m.storage.inMemQueue)
    (ho : Orderly B m c) (h : m.signs c = some p) : AboveParent m.storage.inMemQueue p := by
  intro q hq
  have hafter := ho.after p.hash p
  rw [(signs_accepts hk h).2] at hafter
  have habove := hafter (Finmap.lookup_insert _)
  by_cases hself : p.parent = p.hash
  · -- a block that is its own parent is not above it
    refine absurd (habove p ?_) (lt_irrefl _)
    rw [hself]
    exact Finmap.lookup_insert _
  · apply habove q
    rw [Finmap.lookup_insert_of_ne _ hself]
    exact hq

/-- An accepted proposal above the lock that is not justified above it descends from it. -/
theorem descendsFromLock_of_accepts {m : Machine K} (hacc : m.accepts p = true)
    (hjustify : ¬ m.JustifiedAboveLock p) (hlock : m.storage.state.bLocked.height < p.height)
    (hne : p.hash ≠ m.storage.state.bLocked.hash) : m.DescendsFromLock p := by
  unfold Machine.accepts at hacc
  split at hacc
  · rename_i b hb
    rw [Bool.and_eq_true] at hacc
    unfold Machine.safeNode at hacc
    rw [Bool.or_eq_true, Bool.not_eq_true'] at hacc
    rcases hacc.2 with hconflict | hhigh
    · unfold HotstuffStorage.isConflicting at hconflict
      rw [if_pos hlock.le, bne_eq_false_iff_eq] at hconflict
      have hreach : Reaches m.storage.inMemQueue m.storage.state.bLocked.hash p := by
        rw [← hconflict]
        exact reaches_walk _ _ _
      cases hreach with
      | here hp => exact absurd hp hne
      | parent hq hr => exact ⟨_, hq, hr⟩
    · exact absurd ⟨b, hb, of_decide_eq_true hhigh⟩ hjustify
  · cases hacc

/-- A call respects the lock exactly when it does not sign below it. -/
theorem respectsLock_iff {m : Machine K} {c : Call K} (hB : CollisionFree B)
    (hk : Keyed m.storage.inMemQueue) (ho : Orderly B m c) :
    m.RespectsLock c ↔ m.VotesAboveLock c := by
  have hheight : ∀ z ∈ B, z.hash = m.storage.state.bLocked.hash →
      z.height = m.storage.state.bLocked.height :=
    fun z hz hzl => (hashInput_inj (hB z hz _ ho.bLocked hzl)).2.1
  refine forall₂_congr fun p hp => ?_
  constructor
  · rintro (⟨q, hq, hr⟩ | hjustify)
    · -- heights go down from `p` to its parent, and from there to the lock
      obtain ⟨z, hzl, hd⟩ := hr.descends ho.before (ho.before _ q hq)
      have hqp := ho.aboveParent hk hp q hq
      have hz : z ∈ B ∧ z.height ≤ q.height := by
        rcases hd.eq_or_lower with rfl | ⟨hz, hlt⟩
        · exact ⟨ho.stored ⟨_, hq⟩, le_refl _⟩
        · exact ⟨ho.stored hz, hlt.le⟩
      rw [← hheight z hz.1 hzl]
      exact Or.inl (lt_of_le_of_lt hz.2 hqp)
    · exact Or.inr hjustify
  · rintro (hlock | hjustify)
    · by_cases hjustify : m.JustifiedAboveLock p
      · exact Or.inr hjustify
      · refine Or.inl (descendsFromLock_of_accepts (signs_accepts hk hp).1 hjustify hlock ?_)
        intro hhash
        exact absurd (hheight p (ho.signed p hp) hhash) (ne_of_gt hlock)
    · exact Or.inr hjustify

/-! ## Runs -/

/-- In every run whose stored parent links decrease the height, the votes respect the lock
exactly when each is above it or justified above it. -/
theorem votes_respect_lock_iff (hB : CollisionFree B) (m : Machine K)
    (hfresh : FreshStorage m.storage) (calls : List (Call K))
    (hrun : Run.Each (fun m c => (Machine.call m c).1) (Orderly B) m calls) :
    Run.Each (fun m c => (Machine.call m c).1) RespectsLock m calls ↔
      Run.Each (fun m c => (Machine.call m c).1) VotesAboveLock m calls :=
  Run.each_iff (I := fun m => Keyed m.storage.inMemQueue) hfresh.keyed hrun
    (fun _ _ hk ho => respectsLock_iff hB hk ho) (fun _ c hk _ _ => call_keyed hk c)

/-! ## Evaluated runs -/

instance decidableParentsBelow (store : BlockStore K) : Decidable (ParentsBelow store) :=
  decidable_of_iff (∀ e ∈ store.entries, ∀ p ∈ store.lookup e.2.parent, p.height < e.2.height)
    ⟨fun h _ _ hx => forall_storedBlocks h _ ⟨_, hx⟩,
      fun h e he => h e.1 e.2 (Finmap.lookup_eq_some_iff.mpr he)⟩

instance decidableOrderly [DecidableEq K.CombinedSign] (blocks : List (TreeNode K))
    (m : Machine K) (c : Call K) : Decidable (Orderly {x | x ∈ blocks} m c) :=
  decidable_of_iff (ParentsBelow m.storage.inMemQueue ∧
      ParentsBelow (m.call c).1.storage.inMemQueue ∧
      (∀ e ∈ m.storage.inMemQueue.entries, e.2 ∈ blocks) ∧ (∀ p ∈ m.signs c, p ∈ blocks) ∧
      m.storage.state.bLocked ∈ blocks)
    ⟨fun h => ⟨h.1, h.2.1, forall_storedBlocks h.2.2.1, h.2.2.2.1, h.2.2.2.2⟩,
      fun h => ⟨h.before, h.after,
        fun e he => h.stored ⟨e.1, Finmap.lookup_eq_some_iff.mpr he⟩, h.signed, h.bLocked⟩⟩

instance decidableJustifiedAboveLock (m : Machine K) (p : TreeNode K) :
    Decidable (m.JustifiedAboveLock p) :=
  decidable_of_iff (∃ b ∈ m.storage.get p.justify.node, m.storage.state.bLocked.height < b.height)
    Iff.rfl

instance decidableVotesAboveLock (m : Machine K) (c : Call K) : Decidable (m.VotesAboveLock c) :=
  decidable_of_iff (∀ p ∈ m.signs c,
    m.storage.state.bLocked.height < p.height ∨ m.JustifiedAboveLock p) Iff.rfl

end Machine

namespace Symbolic

open Machine

/-- The proposal of a leader in view 9 that has received `a1` and `a2`. -/
def n9 : TreeNode symbolic :=
  ((fresh 4 0).run [deliver a1, deliver a2, .increaseView 9]).makeLeaf [⟨[9]⟩]

/-- A `NewView` message of replica 2. -/
def newView (qc : GenericQC symbolic) : Call symbolic := .event (.recvNewViewMsg (ctxOf 2) qc)

/-- The blocks of the runs below. -/
def lockBlocks : List (TreeNode symbolic) := [initNode symbolic, a1, a2, a3, a4, a5, n9]

theorem collisionFree_lockBlocks : CollisionFree {x | x ∈ lockBlocks} := by
  have h : ∀ a ∈ lockBlocks, ∀ b ∈ lockBlocks, a.hash = b.hash → a.hashInput = b.hashInput := by
    decide +kernel
  exact h

/-- The leader proposes `n9`, and the first `NewView` message makes it hand `n9` to the pacemaker
as its leaf. Before the pacemaker comes to that, the chain up to `a5` arrives and locks `a3`. Then
`n9` takes `qc_high` back to its own justify, and the second `NewView` message `vheight` down
to 2. -/
def relapse : List (Call symbolic) :=
  [deliver a1, deliver a2] ++ beat 9 9 ++ [newView (certFor a1), deliver a3, deliver a3,
    deliver a4, deliver a5, .updateQcHigh n9 n9.justify, newView (certFor a2)]

theorem orderly_relapse : Run.Each (fun m c => (Machine.call m c).1) (Orderly {x | x ∈ lockBlocks})
    (fresh 4 0) (relapse ++ [deliver a3]) := by
  decide +kernel

end Symbolic

open Symbolic in
/-- The votes for a chain respect the lock. -/
theorem chain_votes_respect_lock :
    Run.Each (fun m c => (Machine.call m c).1) Machine.RespectsLock (fresh 4 0)
      [deliver a1, deliver a2, deliver a3, deliver a4] :=
  (Machine.votes_respect_lock_iff collisionFree_lockBlocks (fresh 4 0) (.inMem _ _ _ _)
    [deliver a1, deliver a2, deliver a3, deliver a4] (by decide +kernel)).mpr (by decide +kernel)

open Symbolic in
/-- After the relapse the replica signs `a3` again, which is the lock itself and is justified by a
lower block. -/
theorem not_votes_respect_lock :
    Run.Each (fun m c => (Machine.call m c).1) (Machine.Orderly {x | x ∈ lockBlocks}) (fresh 4 0)
        (relapse ++ [deliver a3]) ∧
      ((fresh 4 0).run relapse).storage.state.bLocked = a3 ∧
      ((fresh 4 0).run relapse).signs (deliver a3) = some a3 ∧
      ((fresh 4 0).run relapse).storage.get a3.justify.node = some a2 ∧
      ¬ Run.Each (fun m c => (Machine.call m c).1) Machine.RespectsLock (fresh 4 0)
        (relapse ++ [deliver a3]) := by
  have hkeyed : Keyed ((fresh 4 0).run relapse).storage.inMemQueue :=
    Machine.run_keyed (FreshStorage.inMem _ _ _ _).keyed relapse
  have hstate : ((fresh 4 0).run relapse).storage.state.bLocked = a3 ∧
      ((fresh 4 0).run relapse).signs (deliver a3) = some a3 ∧
      ((fresh 4 0).run relapse).storage.get a3.justify.node = some a2 ∧
      ¬ ((fresh 4 0).run relapse).VotesAboveLock (deliver a3) := by decide +kernel
  obtain ⟨hlock, hsigned, hjustify, hvotes⟩ := hstate
  refine ⟨orderly_relapse, hlock, hsigned, hjustify, ?_⟩
  intro h
  exact hvotes ((Machine.respectsLock_iff collisionFree_lockBlocks hkeyed orderly_relapse.at).mp
    h.at)

end HotstuffConsensus
