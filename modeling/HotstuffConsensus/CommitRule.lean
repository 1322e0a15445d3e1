import HotstuffConsensus.Justify
import HotstuffConsensus.Growth

/-!
# Lock and commit

Only a proposal whose justify passed `verify_proposal`, delivered alone or in a branch, moves
the lock or the last commit. It commits the head of a direct three-chain: three stored blocks
behind it that are linked both by their justifies and by their parent hashes. Whether the
replica votes for the proposal plays no part in it.

The chain is looked up in the store to which the proposal was just appended. In a store keyed
by hash `update_nodes` does not write anything new, so that is the store at the end of the
step as well.
-/

namespace HotstuffConsensus

open Lib

variable {K : Crypto}

/-- Behind `p` there are three stored blocks, linked by justifies and by parents, and the last
of them is `b`. -/
def HotstuffStorage.DirectThreeChain (s : HotstuffStorage K) (p b : TreeNode K) : Prop :=
  ∃ b'' b', s.get p.justify.node = some b'' ∧ s.get b''.justify.node = some b' ∧
    s.get b'.justify.node = some b ∧ b''.parent = b'.hash ∧ b'.parent = b.hash

namespace HotstuffStorage

variable {s : HotstuffStorage K} {p b : TreeNode K}

theorem directThreeChain_iff :
    s.DirectThreeChain p b ↔
      ∃ b3 b2, s.findThreeChain p = [b3, b2, b] ∧ b3.parent = b2.hash ∧ b2.parent = b.hash := by
  unfold DirectThreeChain
  simp only [findThreeChain_eq_three, and_assoc]

theorem DirectThreeChain.unique {b₁ b₂ : TreeNode K} (h₁ : s.DirectThreeChain p b₁)
    (h₂ : s.DirectThreeChain p b₂) : b₁ = b₂ := by
  obtain ⟨x, y, hx, -⟩ := directThreeChain_iff.mp h₁
  obtain ⟨x', y', hx', -⟩ := directThreeChain_iff.mp h₂
  rw [hx] at hx'
  simp only [List.cons.injEq, and_true] at hx'
  exact hx'.2.2

theorem directThreeChain_congr {s' : HotstuffStorage K} (h : s'.inMemQueue = s.inMemQueue) :
    s'.DirectThreeChain p b ↔ s.DirectThreeChain p b := by
  unfold DirectThreeChain get
  rw [h]

end HotstuffStorage

/-! ## One proposal -/

namespace Machine

/-- The step from `s` to `s'` commits `b`. -/
structure CommitsBlock (s s' : HotstuffStorage K) (b : TreeNode K) : Prop where
  above : s.state.committedHeight < b.height
  lastCommit : s'.state.lastCommit = b
  committedHeight : s'.state.committedHeight = b.height

/-- The step from `s` to `s'` commits nothing. -/
structure KeepsCommit (s s' : HotstuffStorage K) : Prop where
  lastCommit : s'.state.lastCommit = s.state.lastCommit
  committedHeight : s'.state.committedHeight = s.state.committedHeight

theorem commit_cases (s : HotstuffStorage K) (b : TreeNode K) :
    CommitsBlock s (s.commit b) b ∨
      b.height ≤ s.state.committedHeight ∧ KeepsCommit s (s.commit b) := by
  by_cases hle : b.height ≤ s.state.committedHeight
  · have hst : (s.commit b).state = s.state := by rw [HotstuffStorage.commit_state, if_pos hle]
    exact Or.inr ⟨hle, by rw [hst], by rw [hst]⟩
  · have hst : (s.commit b).state =
        { s.state with committedHeight := b.height, lastCommit := b } := by
      rw [HotstuffStorage.commit_state, if_neg hle]
    exact Or.inl ⟨not_le.mp hle, by rw [hst], by rw [hst]⟩

/-- `update_nodes` commits the head of the direct three-chain, if there is one and it is above
the committed height. -/
theorem updateNodes_commit_cases (m : Machine K) (p : TreeNode K) :
    (∃ b, m.storage.DirectThreeChain p b ∧ CommitsBlock m.storage (m.updateNodes p).1.storage b) ∨
      (∀ b, m.storage.DirectThreeChain p b → b.height ≤ m.storage.state.committedHeight) ∧
        KeepsCommit m.storage (m.updateNodes p).1.storage := by
  obtain ⟨s, hs⟩ : ∃ s, s = updateNodesLocked (updateNodesQcHigh m.storage
    (m.storage.findThreeChain p) p) (m.storage.findThreeChain p) := ⟨_, rfl⟩
  obtain ⟨-, hlast, hheight, -⟩ :=
    updateNodesQcHigh_frame m.storage (m.storage.findThreeChain p) p
  obtain ⟨-, -, hlast', hheight', -⟩ := updateNodesLocked_cases
    (updateNodesQcHigh m.storage (m.storage.findThreeChain p) p) (m.storage.findThreeChain p)
  -- nothing before the commit touches what is committed
  have hkeep : KeepsCommit m.storage s := by
    rw [hs]
    exact ⟨hlast'.trans hlast, hheight'.trans hheight⟩
  rw [updateNodes_storage]
  dsimp only
  rw [← hs]
  split
  · rename_i b3 b2 b hchain
    split
    · rename_i hparents
      have hdirect : m.storage.DirectThreeChain p b :=
        HotstuffStorage.directThreeChain_iff.mpr ⟨b3, b2, hchain, hparents⟩
      rcases commit_cases s b with hc | ⟨hle, hc⟩
      · refine Or.inl ⟨b, hdirect, ?_, hc.lastCommit, hc.committedHeight⟩
        rw [← hkeep.committedHeight]
        exact hc.above
      · refine Or.inr ⟨?_, hc.lastCommit.trans hkeep.lastCommit,
          hc.committedHeight.trans hkeep.committedHeight⟩
        intro b' hb'
        rw [hb'.unique hdirect, ← hkeep.committedHeight]
        exact hle
    · rename_i hparents
      refine Or.inr ⟨?_, hkeep⟩
      intro b' hb'
      obtain ⟨x, y, hx, hp⟩ := HotstuffStorage.directThreeChain_iff.mp hb'
      rw [hchain] at hx
      simp only [List.cons.injEq, and_true] at hx
      rw [← hx.1, ← hx.2.1, ← hx.2.2] at hp
      exact absurd hp hparents
  · rename_i hchain
    refine Or.inr ⟨?_, hkeep⟩
    intro b' hb'
    obtain ⟨x, y, hx, -⟩ := HotstuffStorage.directThreeChain_iff.mp hb'
    exact absurd hx (hchain x y b')

/-- The step from `s` to `s'` raises the lock at least to the second block of `chain`, and to no
other block, and leaves the view alone. -/
structure LocksChain (s s' : HotstuffStorage K) (chain : List (TreeNode K)) : Prop where
  mono : s.state.bLocked.height ≤ s'.state.bLocked.height
  second : ∀ b', chain[1]? = some b' → b'.height ≤ s'.state.bLocked.height
  source : s'.state.bLocked = s.state.bLocked ∨ chain[1]? = some s'.state.bLocked
  view : s'.state.currentView = s.state.currentView

/-- Neither `qc_high` nor the commit that may follow touches the lock. -/
theorem updateNodes_bLocked (m : Machine K) (p : TreeNode K) :
    (m.updateNodes p).1.storage.state.bLocked =
      (updateNodesLocked (updateNodesQcHigh m.storage (m.storage.findThreeChain p) p)
        (m.storage.findThreeChain p)).state.bLocked := by
  rcases m.updateNodes_eq_or_commit p with h | ⟨b, h⟩
  · rw [h]
  · rw [h, HotstuffStorage.commit_state]
    split <;> rfl

theorem updateNodes_locked (m : Machine K) (p : TreeNode K) :
    LocksChain m.storage (m.updateNodes p).1.storage (m.storage.findThreeChain p) := by
  obtain ⟨s, hs⟩ : ∃ s, s = updateNodesLocked (updateNodesQcHigh m.storage
    (m.storage.findThreeChain p) p) (m.storage.findThreeChain p) := ⟨_, rfl⟩
  obtain ⟨hlock, -, -, -⟩ := updateNodesQcHigh_frame m.storage (m.storage.findThreeChain p) p
  obtain ⟨-, -, -, -, hmono, hsecond, hsource⟩ := updateNodesLocked_cases
    (updateNodesQcHigh m.storage (m.storage.findThreeChain p) p) (m.storage.findThreeChain p)
  rw [← hs] at hmono hsecond hsource
  rw [hlock] at hmono hsource
  have hlast : (m.updateNodes p).1.storage.state.bLocked = s.state.bLocked := by
    rw [hs]
    exact m.updateNodes_bLocked p
  refine ⟨?_, ?_, ?_, unwritten_currentView.updateNodes m p⟩
  · rw [hlast]
    exact hmono
  · rw [hlast]
    exact hsecond
  · rw [hlast]
    exact hsource

/-- The certificate of a block moves `qc_high` and `vheight` together, if it raises. -/
theorem updateNodes_qcHigh (m : Machine K) {p b : TreeNode K}
    (hb : m.storage.get p.justify.node = some b) :
    (m.storage.Raises b ∧ (m.updateNodes p).1.storage.state.qcHigh = p.justify ∧
        (m.updateNodes p).1.storage.state.vheight = b.height) ∨
      (¬ m.storage.Raises b ∧
        (m.updateNodes p).1.storage.state.qcHigh = m.storage.state.qcHigh ∧
        (m.updateNodes p).1.storage.state.vheight = m.storage.state.vheight) := by
  obtain ⟨s, hs⟩ : ∃ s, s = updateNodesQcHigh m.storage (m.storage.findThreeChain p) p := ⟨_, rfl⟩
  -- lock and commit leave both alone
  have hlocked : (updateNodesLocked s (m.storage.findThreeChain p)).state.qcHigh = s.state.qcHigh ∧
      (updateNodesLocked s (m.storage.findThreeChain p)).state.vheight = s.state.vheight := by
    unfold updateNodesLocked
    split
    · split <;> exact ⟨rfl, rfl⟩
    · exact ⟨rfl, rfl⟩
  have hcommit : ∀ (t : HotstuffStorage K) (c : TreeNode K),
      (t.commit c).state.qcHigh = t.state.qcHigh ∧ (t.commit c).state.vheight = t.state.vheight := by
    intro t c
    rw [HotstuffStorage.commit_state]
    split <;> exact ⟨rfl, rfl⟩
  have hrest : (m.updateNodes p).1.storage.state.qcHigh = s.state.qcHigh ∧
      (m.updateNodes p).1.storage.state.vheight = s.state.vheight := by
    rcases m.updateNodes_eq_or_commit p with h | ⟨c, h⟩
    · rw [h, ← hs]
      exact hlocked
    · rw [h, ← hs, (hcommit _ _).1, (hcommit _ _).2]
      exact hlocked
  rw [hrest.1, hrest.2]
  have hhead : s = m.storage.updateQcHigh b p.justify := by
    rw [hs]
    unfold updateNodesQcHigh
    rw [HotstuffStorage.findThreeChain_head?, hb]
  rw [hhead]
  rcases HotstuffStorage.updateQcHigh_cases m.storage b p.justify with ⟨hno, h⟩ | ⟨hr, hst, -⟩
  · rw [h]
    exact Or.inr ⟨hno, rfl, rfl⟩
  · rw [hst]
    exact Or.inl ⟨hr, rfl, rfl⟩

/-- In a store keyed by hash `update_nodes` writes no block that is not there. -/
theorem updateNodes_inMemQueue {m : Machine K} (hk : Keyed m.storage.inMemQueue)
    (p : TreeNode K) : (m.updateNodes p).1.storage.inMemQueue = m.storage.inMemQueue := by
  have hfirst : (updateNodesQcHigh m.storage (m.storage.findThreeChain p) p).inMemQueue
      = m.storage.inMemQueue := by
    unfold updateNodesQcHigh
    rw [HotstuffStorage.findThreeChain_head?]
    cases hb : m.storage.get p.justify.node with
    | none => rfl
    | some b3 =>
      apply HotstuffStorage.updateQcHigh_inMemQueue_of_stored
      rw [hk _ b3 hb]
      exact hb
  have hsecond := (updateNodesLocked_cases
    (updateNodesQcHigh m.storage (m.storage.findThreeChain p) p) (m.storage.findThreeChain p)).1
  rcases m.updateNodes_eq_or_commit p with hs | ⟨b, hs⟩
  · rw [hs, hsecond, hfirst]
  · rw [hs, HotstuffStorage.commit_inMemQueue, hsecond, hfirst]

/-- Storing a proposal leaves lock, commit and view alone. -/
theorem stored_frame (m : Machine K) (p : TreeNode K) :
    (m.stored p).storage.state.bLocked = m.storage.state.bLocked ∧
      (m.stored p).storage.state.lastCommit = m.storage.state.lastCommit ∧
      (m.stored p).storage.state.committedHeight = m.storage.state.committedHeight ∧
      (m.stored p).storage.state.currentView = m.storage.state.currentView := by
  unfold stored
  split <;> exact ⟨rfl, rfl, rfl, rfl⟩

theorem stored_keyed {m : Machine K} (hk : Keyed m.storage.inMemQueue) (p : TreeNode K) :
    Keyed (m.stored p).storage.inMemQueue := by
  unfold stored
  split
  · exact hk.insert p
  · exact hk

theorem processProp_inMemQueue {m : Machine K} (hk : Keyed m.storage.inMemQueue)
    (p : TreeNode K) :
    (m.processProp p).storage.inMemQueue = (m.stored p).storage.inMemQueue :=
  updateNodes_inMemQueue (stored_keyed hk p) p

theorem processProp_keyed {m : Machine K} (hk : Keyed m.storage.inMemQueue) (p : TreeNode K) :
    Keyed (m.processProp p).storage.inMemQueue := by
  rw [processProp_inMemQueue hk]
  exact stored_keyed hk p

/-- A processed proposal commits the head of the direct three-chain behind it, if there is one
and it is above the committed height. -/
theorem processProp_commit_cases {m : Machine K} (hk : Keyed m.storage.inMemQueue)
    (p : TreeNode K) :
    (∃ b, (m.processProp p).storage.DirectThreeChain p b ∧
        CommitsBlock m.storage (m.processProp p).storage b) ∨
      (∀ b, (m.processProp p).storage.DirectThreeChain p b →
          b.height ≤ m.storage.state.committedHeight) ∧
        KeepsCommit m.storage (m.processProp p).storage := by
  obtain ⟨-, hlast, hheight, -⟩ := m.stored_frame p
  have hstore := processProp_inMemQueue hk p
  rcases (m.stored p).updateNodes_commit_cases p with ⟨b, hb, hc⟩ | ⟨hno, hkeep⟩
  · refine Or.inl ⟨b, (HotstuffStorage.directThreeChain_congr hstore).mpr hb, ?_,
      hc.lastCommit, hc.committedHeight⟩
    rw [← hheight]
    exact hc.above
  · refine Or.inr ⟨?_, hkeep.lastCommit.trans hlast, hkeep.committedHeight.trans hheight⟩
    intro b hb
    rw [← hheight]
    exact hno b ((HotstuffStorage.directThreeChain_congr hstore).mp hb)

/-! ## The other calls -/

/-- Lock and commit stay, and the view does not fall. -/
structure Idles (s s' : HotstuffStorage K) : Prop where
  bLocked : s'.state.bLocked = s.state.bLocked
  lastCommit : s'.state.lastCommit = s.state.lastCommit
  committedHeight : s'.state.committedHeight = s.state.committedHeight
  view : s.state.currentView ≤ s'.state.currentView

theorem Idles.refl (s : HotstuffStorage K) : Idles s s := ⟨rfl, rfl, rfl, le_refl _⟩

theorem Idles.updateQcHigh (s : HotstuffStorage K) (node : TreeNode K) (qc : GenericQC K) :
    Idles s (s.updateQcHigh node qc) := by
  refine ⟨?_, ?_, ?_, ?_⟩
  · exact HotstuffStorage.updateQcHigh_bLocked s node qc
  · exact HotstuffStorage.updateQcHigh_lastCommit s node qc
  · exact HotstuffStorage.updateQcHigh_committedHeight s node qc
  · rw [HotstuffStorage.updateQcHigh_currentView]

theorem Idles.increaseView (s : HotstuffStorage K) (v : ViewNumber) :
    Idles s (s.increaseView v) := ⟨rfl, rfl, rfl, le_max_left _ _⟩

/-- No call moves lock or commit but those that deliver proposals to be verified. -/
theorem call_idles (m : Machine K) (c : Call K)
    (hprop : ∀ ctx p, c ≠ .event (.recvProposal ctx p))
    (hsync : ∀ ctx branch, c ≠ .event (.branchSync ctx branch)) :
    Idles m.storage (m.call c).1.storage := by
  match c with
  | .event (.recvProposal ctx p) => exact absurd rfl (hprop ctx p)
  | .event (.branchSync ctx branch) => exact absurd rfl (hsync ctx branch)
  | .event .requestSnapshot => exact .refl _
  | .event (.recvSign ctx prop sign) =>
    show Idles m.storage (m.onRecvVote ctx prop sign).1.storage
    rcases m.onRecvVote_cases ctx prop sign with ⟨q, -, -, hs⟩ | ⟨-, -, hs⟩
    · rw [hs]
      exact .updateQcHigh _ _ _
    · rw [hs]
      exact .refl _
  | .event (.recvNewViewMsg ctx qc) =>
    show Idles m.storage (m.onRecvNewView qc).1.storage
    rcases m.onRecvNewView_cases qc with ⟨-, heq⟩ | ⟨node, -, heq⟩
    · rw [heq]
      exact .refl _
    · rw [heq]
      exact .updateQcHigh _ _ _
  | .event (.newTx cmds) => exact ⟨rfl, rfl, rfl, le_refl _⟩
  | .event (.newLeader ctx leader) =>
    show Idles m.storage (m.processSafetyEvent (.newLeader ctx leader)).1.storage
    obtain ⟨l, heq⟩ := m.newLeader_eq ctx leader
    rw [heq]
    exact .refl _
  | .event (.viewChange leader view) => exact .refl _
  | .event (.propose ctx node qc) => exact .refl _
  | .viewChange leader view =>
    show Idles m.storage (m.onViewChange leader view).1.storage
    rcases m.onViewChange_cases leader view with heq | ⟨m', hm', heq⟩
    · rw [heq]
      exact .refl _
    · rw [heq, hm']
      exact .increaseView _ _
  | .increaseView view => exact .increaseView _ _
  | .updateQcHigh node qc =>
    have h := Idles.updateQcHigh m.storage node qc
    exact ⟨h.bLocked, h.lastCommit, h.committedHeight, h.view⟩

/-- The node `p` is processed in the call `c`, after its justify was verified, and takes the
machine from `before` to `after`. -/
inductive Processes (m : Machine K) : Call K → Machine K → TreeNode K → Machine K → Prop
  | proposal {ctx : Context} {p : TreeNode K} (hv : ∃ r, m.verifyProposal p.justify = .ok r) :
      Processes m (.event (.recvProposal ctx p)) m p (m.call (.event (.recvProposal ctx p))).1
  | round {ctx : Context} {branch : List (TreeNode K)} {before after : Machine K}
      {p : TreeNode K} (hround : (before, p) ∈ m.rounds branch)
      (hnext : before.syncNode p = some after) :
      Processes m (.event (.branchSync ctx branch)) before p after

theorem Processes.after_eq {m before after : Machine K} {c : Call K} {p : TreeNode K}
    (h : Processes m c before p after) : after = before.processProp p := by
  cases h with
  | @proposal ctx _ hv =>
    obtain ⟨r, hr⟩ := hv
    show (m.onRecvProposal ctx p p.justify).1 = m.processProp p
    rw [onRecvProposal_eq, hr]
  | round _ hnext =>
    rw [syncNode_eq] at hnext
    cases hv : before.verifyProposal p.justify with
    | error e =>
      rw [hv] at hnext
      cases hnext
    | ok r =>
      rw [hv] at hnext
      exact (Option.some.inj hnext).symm

/-- What the rounds of a branch sync keep holds at the start of each of them. -/
theorem rounds_of_invariant {I : Machine K → Prop} (hkeep : ∀ m p, I m → I (m.processProp p))
    {m : Machine K} (hm : I m) {branch : List (TreeNode K)} {round : Machine K × TreeNode K}
    (h : round ∈ m.rounds branch) : I round.1 := by
  induction branch generalizing m with
  | nil => cases h
  | cons p branch ih =>
    unfold rounds at h
    rcases List.mem_cons.mp h with heq | h
    · rw [heq]
      exact hm
    · rw [syncNode_eq] at h
      cases hv : m.verifyProposal p.justify with
      | error e =>
        rw [hv] at h
        cases h
      | ok r =>
        rw [hv] at h
        exact ih (hkeep m p hm) h

theorem Processes.of_invariant {I : Machine K → Prop} (hkeep : ∀ m p, I m → I (m.processProp p))
    {m before after : Machine K} {c : Call K} {p : TreeNode K}
    (h : Processes m c before p after) (hm : I m) : I before := by
  cases h with
  | proposal _ => exact hm
  | round hround _ => exact rounds_of_invariant hkeep hm hround

/-- A call either processes nodes, one after the other, or leaves lock and commit alone. -/
theorem call_of_invariant {I : Machine K → Prop} (hkeep : ∀ m p, I m → I (m.processProp p))
    {m : Machine K} (hm : I m) (c : Call K)
    (hidle : Idles m.storage (m.call c).1.storage → I (m.call c).1) : I (m.call c).1 := by
  by_cases hprop : ∃ ctx p, c = .event (.recvProposal ctx p)
  · obtain ⟨ctx, p, rfl⟩ := hprop
    show I (m.onRecvProposal ctx p p.justify).1
    rw [onRecvProposal_eq_syncNodes]
    exact syncNodes_of_invariant hkeep hm [p]
  by_cases hsync : ∃ ctx branch, c = .event (.branchSync ctx branch)
  · obtain ⟨ctx, branch, rfl⟩ := hsync
    exact syncNodes_of_invariant hkeep hm branch
  · apply hidle
    apply call_idles
    · intro ctx p h
      exact hprop ⟨ctx, p, h⟩
    · intro ctx branch h
      exact hsync ⟨ctx, branch, h⟩

/-- The last change a branch sync makes to the last commit is made by one of its rounds. -/
theorem rounds_of_lastCommit_ne {m : Machine K} {branch : List (TreeNode K)}
    (h : (m.syncNodes branch).storage.state.lastCommit ≠ m.storage.state.lastCommit) :
    ∃ before p after, (before, p) ∈ m.rounds branch ∧ before.syncNode p = some after ∧
      before.storage.state.lastCommit ≠ after.storage.state.lastCommit ∧
      after.storage.state.lastCommit = (m.syncNodes branch).storage.state.lastCommit := by
  induction branch generalizing m with
  | nil => exact absurd rfl h
  | cons p branch ih =>
    unfold syncNodes at h
    unfold syncNodes rounds
    cases hs : m.syncNode p with
    | none =>
      rw [hs] at h
      exact absurd rfl h
    | some m' =>
      rw [hs] at h
      dsimp only at h ⊢
      by_cases hlast : (m'.syncNodes branch).storage.state.lastCommit =
          m'.storage.state.lastCommit
      · rw [hlast] at h ⊢
        exact ⟨m, p, m', List.mem_cons_self, hs, h.symm, rfl⟩
      · obtain ⟨before, q, after, hmem, hnext, hne, heq⟩ := ih hlast
        exact ⟨before, q, after, List.mem_cons_of_mem _ hmem, hnext, hne, heq⟩

/-- A call changes the last commit only by processing a node. -/
theorem processes_of_lastCommit_ne {m : Machine K} {c : Call K}
    (h : (m.call c).1.storage.state.lastCommit ≠ m.storage.state.lastCommit) :
    ∃ before p after, Processes m c before p after ∧
      before.storage.state.lastCommit ≠ after.storage.state.lastCommit ∧
      after.storage.state.lastCommit = (m.call c).1.storage.state.lastCommit := by
  by_cases hprop : ∃ ctx p, c = .event (.recvProposal ctx p)
  · obtain ⟨ctx, p, rfl⟩ := hprop
    cases hv : m.verifyProposal p.justify with
    | error e =>
      have hsame : (m.call (.event (.recvProposal ctx p))).1 = m := by
        show (m.onRecvProposal ctx p p.justify).1 = m
        rw [onRecvProposal_eq, hv]
      rw [hsame] at h
      exact absurd rfl h
    | ok r => exact ⟨m, p, _, .proposal ⟨r, hv⟩, h.symm, rfl⟩
  by_cases hsync : ∃ ctx branch, c = .event (.branchSync ctx branch)
  · obtain ⟨ctx, branch, rfl⟩ := hsync
    obtain ⟨before, p, after, hmem, hnext, hne, heq⟩ := rounds_of_lastCommit_ne h
    exact ⟨before, p, after, .round hmem hnext, hne, heq⟩
  · have hidle := m.call_idles c (fun ctx p hc => hprop ⟨ctx, p, hc⟩)
      (fun ctx branch hc => hsync ⟨ctx, branch, hc⟩)
    exact absurd hidle.lastCommit h

/-! ## Runs -/

/-- What every state of a run has: blocks are stored under their hash, and the committed height
is that of the last committed block. -/
structure Level (m : Machine K) : Prop where
  keyed : Keyed m.storage.inMemQueue
  height : m.storage.state.committedHeight = m.storage.state.lastCommit.height

theorem Level.processProp {m : Machine K} (h : Level m) (p : TreeNode K) :
    Level (m.processProp p) := by
  refine ⟨processProp_keyed h.keyed p, ?_⟩
  rcases processProp_commit_cases h.keyed p with ⟨b, -, hc⟩ | ⟨-, hkeep⟩
  · rw [hc.lastCommit]
    exact hc.committedHeight
  · rw [hkeep.lastCommit, hkeep.committedHeight]
    exact h.height

theorem Level.idle {m m' : Machine K} (h : Level m) (hk : Keyed m'.storage.inMemQueue)
    (hidle : Idles m.storage m'.storage) : Level m' := by
  refine ⟨hk, ?_⟩
  rw [hidle.lastCommit, hidle.committedHeight]
  exact h.height

theorem Level.call {m : Machine K} (h : Level m) (c : Call K) : Level (m.call c).1 :=
  call_of_invariant (fun _ p hm => hm.processProp p) h c (h.idle (call_keyed h.keyed c))

theorem Level.run {m : Machine K} (h : Level m) (calls : List (Call K)) :
    Level (m.run calls) := by
  induction calls generalizing m with
  | nil => exact h
  | cons c calls ih => exact ih (h.call c)

theorem level_of_fresh {m : Machine K} (hm : FreshStorage m.storage) : Level m := by
  obtain ⟨token, hstate⟩ := hm.state_eq
  refine ⟨hm.keyed, ?_⟩
  rw [hstate]
  rfl

/-- A node that is processed in a state reached from a fresh storage commits exactly the head of
a direct three-chain above the committed height. Nothing else changes the last commit. -/
theorem commits_iff_directThreeChain (m : Machine K) (hm : FreshStorage m.storage)
    (calls : List (Call K)) (c : Call K) :
    (∀ before p after, Processes (m.run calls) c before p after → ∀ b,
      (before.storage.state.lastCommit ≠ b ∧ after.storage.state.lastCommit = b ↔
        after.storage.DirectThreeChain p b ∧ before.storage.state.committedHeight < b.height)) ∧
    (((m.run calls).call c).1.storage.state.lastCommit ≠
        (m.run calls).storage.state.lastCommit →
      ∃ before p after, Processes (m.run calls) c before p after ∧
        before.storage.state.lastCommit ≠ after.storage.state.lastCommit ∧
        after.storage.state.lastCommit =
          ((m.run calls).call c).1.storage.state.lastCommit) := by
  refine ⟨?_, processes_of_lastCommit_ne⟩
  intro before p after hproc b
  have hlevel : Level before := hproc.of_invariant (fun _ q hq => hq.processProp q)
    ((level_of_fresh hm).run calls)
  rw [hproc.after_eq]
  rcases processProp_commit_cases hlevel.keyed p with ⟨b', hchain, hc⟩ | ⟨hno, hkeep⟩
  · constructor
    · rintro ⟨-, hb⟩
      rw [← hb, hc.lastCommit]
      exact ⟨hchain, hc.above⟩
    · rintro ⟨hb, hlt⟩
      rw [hb.unique hchain] at hlt ⊢
      refine ⟨?_, hc.lastCommit⟩
      intro heq
      rw [hlevel.height, heq] at hlt
      exact absurd hlt (lt_irrefl _)
  · constructor
    · rintro ⟨hne, hb⟩
      rw [hkeep.lastCommit] at hb
      exact absurd hb hne
    · rintro ⟨hb, hlt⟩
      exact absurd hlt (not_lt.mpr (hno b hb))

end Machine

namespace Symbolic

open Machine

/-- The deliveries of the first three blocks of a chain. -/
def upToA3 : List (Call symbolic) := [deliver a1, deliver a2, deliver a3]

/-- The next block of the chain commits `a1`. -/
theorem a4_commits_a1 :
    ((fresh 4 1).run upToA3).storage.state.lastCommit ≠ a1 ∧
      (((fresh 4 1).run upToA3).call (deliver a4)).1.storage.state.lastCommit = a1 := by
  have hok : ∃ r, ((fresh 4 1).run upToA3).verifyProposal a4.justify = .ok r :=
    verifyProposal_isOk.mpr ⟨a3, by decide +kernel, Or.inr (by decide +kernel)⟩
  have hchain : (((fresh 4 1).run upToA3).call (deliver a4)).1.storage.DirectThreeChain a4 a1 :=
    ⟨a3, a2, by decide +kernel, by decide +kernel, by decide +kernel, by decide +kernel,
      by decide +kernel⟩
  have habove : ((fresh 4 1).run upToA3).storage.state.committedHeight < a1.height := by
    decide +kernel
  have hfresh : FreshStorage (fresh 4 1).storage := .inMem _ _ _ _
  have hproc : Processes ((fresh 4 1).run upToA3) (deliver a4) ((fresh 4 1).run upToA3) a4
      (((fresh 4 1).run upToA3).call (deliver a4)).1 := .proposal hok
  have hiff := (commits_iff_directThreeChain (fresh 4 1) hfresh upToA3 (deliver a4)).1
    _ a4 _ hproc a1
  exact hiff.mpr ⟨hchain, habove⟩

end Symbolic

end HotstuffConsensus
