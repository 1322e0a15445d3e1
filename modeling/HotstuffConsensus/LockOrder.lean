import Mathlib.Data.List.Chain
import HotstuffConsensus.CommitRule

/-!
# Lock and commit only move forward

`trace` lists the states of a run, those between the rounds of a branch sync included. From
each state to the next either one node is processed or lock and commit stay (`Atomic`), so
every law of the run is a law of one such step.

A commit follows the lock because both are read off one chain: the lock goes at least to its
second block, and the commit to the block that the second one's justify names.
-/

namespace HotstuffConsensus

open Lib

variable {K : Crypto}

/-- Every stored block is higher than the block its justify names, if that is stored. -/
def HotstuffStorage.Ascending (s : HotstuffStorage K) : Prop :=
  ∀ k x j, s.get k = some x → s.get x.justify.node = some j → j.height < x.height

namespace Machine

/-- The lock, the committed height and the view do not fall. -/
structure Forward (m m' : Machine K) : Prop where
  lock : m.storage.state.bLocked.height ≤ m'.storage.state.bLocked.height
  commit : m.storage.state.committedHeight ≤ m'.storage.state.committedHeight
  view : m.storage.state.currentView ≤ m'.storage.state.currentView

instance forwardTrans : Trans (Forward (K := K)) Forward Forward where
  trans h h' := ⟨h.lock.trans h'.lock, h.commit.trans h'.commit, h.view.trans h'.view⟩

/-! ## The states of a run -/

/-- The states at the start of the rounds of a branch sync. -/
def during (m : Machine K) : Call K → List (Machine K)
  | .event (.branchSync _ branch) => (m.rounds branch).map Prod.fst
  | _ => [m]

/-- All states of a run. -/
def trace (m : Machine K) : List (Call K) → List (Machine K)
  | [] => [m]
  | c :: calls => m.during c ++ (m.call c).1.trace calls

/-- One step of a trace. -/
inductive Atomic (m m' : Machine K) : Prop
  /-- A node is processed. -/
  | prop (p : TreeNode K) (h : m' = m.processProp p)
  /-- Lock and commit stay. -/
  | idle (h : Idles m.storage m'.storage) (hk : Keyed m.storage.inMemQueue →
      Keyed m'.storage.inMemQueue)

theorem Atomic.refl (m : Machine K) : Atomic m m := .idle (.refl _) id

theorem Atomic.cons_isChain {m m' : Machine K} {rest : List (Machine K)} (h : Atomic m m')
    (hhead : rest.head? = some m') (hrest : rest.IsChain Atomic) :
    (m :: rest).IsChain Atomic := by
  apply hrest.cons
  intro y hy
  rw [hhead] at hy
  rw [← Option.some.inj hy]
  exact h

/-- Each round of a branch sync leads to the next, and the last one to what follows the call. -/
theorem rounds_isChain (m : Machine K) (branch : List (TreeNode K)) {rest : List (Machine K)}
    (hhead : rest.head? = some (m.syncNodes branch)) (hrest : rest.IsChain Atomic) :
    ((m.rounds branch).map Prod.fst ++ rest).head? = some m ∧
      ((m.rounds branch).map Prod.fst ++ rest).IsChain Atomic := by
  induction branch generalizing m with
  | nil => exact ⟨hhead, hrest⟩
  | cons p branch ih =>
    unfold syncNodes at hhead
    unfold rounds
    rw [syncNode_eq] at hhead ⊢
    cases hv : m.verifyProposal p.justify with
    | error e =>
      rw [hv] at hhead
      exact ⟨rfl, (Atomic.refl m).cons_isChain hhead hrest⟩
    | ok r =>
      rw [hv] at hhead
      obtain ⟨hnext, hchain⟩ := ih (m.processProp p) hhead
      exact ⟨rfl, (Atomic.prop p rfl).cons_isChain hnext hchain⟩

theorem call_atomic (m : Machine K) (c : Call K)
    (hsync : ∀ ctx branch, c ≠ .event (.branchSync ctx branch)) : Atomic m (m.call c).1 := by
  by_cases hprop : ∃ ctx p, c = .event (.recvProposal ctx p)
  · obtain ⟨ctx, p, rfl⟩ := hprop
    show Atomic m (m.onRecvProposal ctx p p.justify).1
    rw [onRecvProposal_eq]
    cases m.verifyProposal p.justify with
    | error e => exact .refl m
    | ok r => exact .prop p rfl
  · refine .idle (m.call_idles c ?_ hsync) (fun hk => call_keyed hk c)
    intro ctx p h
    exact hprop ⟨ctx, p, h⟩

/-- The states of a call, followed by a list that starts in the state after it. -/
theorem during_isChain (m : Machine K) (c : Call K) {rest : List (Machine K)}
    (hhead : rest.head? = some (m.call c).1) (hrest : rest.IsChain Atomic) :
    (m.during c ++ rest).head? = some m ∧ (m.during c ++ rest).IsChain Atomic := by
  unfold during
  split
  · exact rounds_isChain m _ hhead hrest
  · rename_i hsync
    exact ⟨rfl, (m.call_atomic c hsync).cons_isChain hhead hrest⟩

theorem trace_isChain (m : Machine K) (calls : List (Call K)) :
    (m.trace calls).head? = some m ∧ (m.trace calls).IsChain Atomic := by
  induction calls generalizing m with
  | nil => exact ⟨rfl, List.isChain_singleton m⟩
  | cons c calls ih =>
    obtain ⟨hhead, hchain⟩ := ih (m.call c).1
    exact during_isChain m c hhead hchain

/-- An invariant of the steps holds in all states of a run. A step may rely on what is known
of the state it leads to. -/
theorem trace_of_invariant {I A : Machine K → Prop} {m : Machine K} {calls : List (Call K)}
    (hm : I m) (hA : ∀ x ∈ m.trace calls, A x)
    (hkeep : ∀ x y, I x → Atomic x y → A y → I y) : ∀ x ∈ m.trace calls, I x := by
  obtain ⟨hhead, hchain⟩ := m.trace_isChain calls
  have hcarry : (m.trace calls).IsChain fun x y => I x → I y := by
    refine hchain.imp_of_mem_imp ?_
    intro x y hx hy hstep hI
    exact hkeep x y hI hstep (hA y hy)
  refine hcarry.induction I _ (fun _ _ h hI => h hI) ?_
  intro hne
  rw [List.head?_eq_some_head hne] at hhead
  rw [Option.some.inj hhead]
  exact hm

/-! ## What a step keeps -/

theorem Level.atomic {m m' : Machine K} (h : Level m) (hstep : Atomic m m') : Level m' := by
  cases hstep with
  | prop p heq =>
    rw [heq]
    exact h.processProp p
  | idle hidle hk => exact h.idle (hk h.keyed) hidle

theorem processProp_forward {m : Machine K} (hk : Keyed m.storage.inMemQueue) (p : TreeNode K) :
    Forward m (m.processProp p) := by
  obtain ⟨hlock, -, -, hview⟩ := m.stored_frame p
  have hlocks := (m.stored p).updateNodes_locked p
  refine ⟨?_, ?_, ?_⟩
  · rw [← hlock]
    exact hlocks.mono
  · rcases processProp_commit_cases hk p with ⟨b, -, hc⟩ | ⟨-, hkeep⟩
    · rw [hc.committedHeight]
      exact hc.above.le
    · rw [hkeep.committedHeight]
  · rw [← hview, ← hlocks.view]
    rfl

theorem Atomic.forward {m m' : Machine K} (h : Atomic m m') (hm : Level m) :
    Forward m m' := by
  cases h with
  | prop p heq =>
    rw [heq]
    exact processProp_forward hm.keyed p
  | idle hidle _ =>
    refine ⟨?_, ?_, hidle.view⟩
    · rw [hidle.bLocked]
    · rw [hidle.committedHeight]

/-- The commit is not above the lock. -/
structure Ordered (m : Machine K) : Prop where
  level : Level m
  order : m.storage.state.committedHeight ≤ m.storage.state.bLocked.height

theorem Ordered.processProp {m : Machine K} (h : Ordered m) (p : TreeNode K)
    (hasc : (m.processProp p).storage.Ascending) : Ordered (m.processProp p) := by
  refine ⟨h.level.processProp p, ?_⟩
  have hlock := (processProp_forward h.level.keyed p).lock
  rcases processProp_commit_cases h.level.keyed p with ⟨b, hchain, hc⟩ | ⟨-, hkeep⟩
  · obtain ⟨b'', b', hb'', hb', hb, -⟩ := hchain
    -- the lock has reached `b'`, which is above the committed block
    have hstore := processProp_inMemQueue h.level.keyed p
    have hsecond : ((m.stored p).storage.findThreeChain p)[1]? = some b' := by
      unfold HotstuffStorage.get at hb'' hb'
      rw [hstore] at hb'' hb'
      rw [HotstuffStorage.findThreeChain_second?]
      unfold HotstuffStorage.get
      rw [hb'']
      exact hb'
    have hreach := ((m.stored p).updateNodes_locked p).second b' hsecond
    rw [hc.committedHeight]
    exact (hasc _ b' b hb' hb).le.trans hreach
  · rw [hkeep.committedHeight]
    exact h.order.trans hlock

theorem Ordered.atomic {m m' : Machine K} (h : Ordered m) (hstep : Atomic m m')
    (hasc : m'.storage.Ascending) : Ordered m' := by
  cases hstep with
  | prop p heq =>
    rw [heq] at hasc ⊢
    exact h.processProp p hasc
  | idle hidle hk =>
    refine ⟨h.level.idle (hk h.level.keyed) hidle, ?_⟩
    rw [hidle.bLocked, hidle.committedHeight]
    exact h.order

theorem ordered_of_fresh {m : Machine K} (hm : FreshStorage m.storage) : Ordered m := by
  obtain ⟨token, hstate⟩ := hm.state_eq
  refine ⟨level_of_fresh hm, ?_⟩
  rw [hstate]
  exact le_refl _

/-! ## Runs -/

/-- In every run lock, commit and view move forward, and the committed height is that of the
last committed block. If all stored blocks are above those their justifies name, the commit
stays behind the lock. -/
theorem lock_and_commit_advance (m : Machine K) (hm : FreshStorage m.storage)
    (calls : List (Call K)) :
    (m.trace calls).Pairwise Forward ∧
      (∀ x ∈ m.trace calls,
        x.storage.state.committedHeight = x.storage.state.lastCommit.height) ∧
      ((∀ x ∈ m.trace calls, x.storage.Ascending) → ∀ x ∈ m.trace calls,
        x.storage.state.committedHeight ≤ x.storage.state.bLocked.height) := by
  have hlevel : ∀ x ∈ m.trace calls, Level x :=
    trace_of_invariant (level_of_fresh hm) (fun _ _ => trivial)
      (fun x y hx hstep _ => hx.atomic hstep)
  refine ⟨?_, fun x hx => (hlevel x hx).height, ?_⟩
  · have hchain : (m.trace calls).IsChain Forward := by
      refine (m.trace_isChain calls).2.imp_of_mem_imp ?_
      intro x y hx hy hstep
      exact hstep.forward (hlevel x hx)
    exact hchain.pairwise
  · intro hasc x hx
    have hordered : ∀ x ∈ m.trace calls, Ordered x :=
      trace_of_invariant (ordered_of_fresh hm) hasc (fun x y hx hstep hy => hx.atomic hstep hy)
    exact (hordered x hx).order

end Machine

namespace Symbolic

open Machine

theorem ascending_iff {s : HotstuffStorage symbolic} :
    s.Ascending ↔ ∀ x ∈ HashMap.values s.inMemQueue, ∀ j ∈ s.get x.justify.node,
      j.height < x.height := by
  constructor
  · intro h x hx j hj
    obtain ⟨k, hk⟩ := HashMap.mem_values.mp hx
    exact h k x j hk hj
  · intro h k x j hk hj
    exact h x (HashMap.mem_values.mpr ⟨k, hk⟩) j hj

instance decidableAscending (s : HotstuffStorage symbolic) : Decidable s.Ascending :=
  decidable_of_iff _ ascending_iff.symm

/-- Four blocks of a chain, the first three in a branch. -/
def branchRun : List (Call symbolic) := [.event (.branchSync (ctxOf 1) [a1, a2, a3]), deliver a4]

/-- The run of `branchRun` commits `a1`, and no state has the commit above the lock. -/
theorem branchRun_ordered :
    ((fresh 4 1).run branchRun).storage.state.lastCommit = a1 ∧
      (∀ x ∈ (fresh 4 1).trace branchRun, x.storage.Ascending) ∧
      ∀ x ∈ (fresh 4 1).trace branchRun,
        x.storage.state.committedHeight ≤ x.storage.state.bLocked.height := by
  have hasc : ∀ x ∈ (fresh 4 1).trace branchRun, x.storage.Ascending := by decide +kernel
  refine ⟨by decide +kernel, hasc, ?_⟩
  exact (lock_and_commit_advance (fresh 4 1) (.inMem _ _ _ _) branchRun).2.2 hasc

end Symbolic

end HotstuffConsensus
