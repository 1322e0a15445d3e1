import HotstuffConsensus.BlockWrites
import HotstuffConsensus.VoteOnce
import HotstuffConsensus.Lib.Register

/-!
# Voting once, in increasing height

`vheight` is a register with two kinds of writers. `update_vheight` raises it to the height of a
proposal that is stored; `update_leaf` assigns it the height of the new leaf. The latter runs on
a beat and, through `update_qc_high`, for the block that a certificate names: of a quorum, of a
`NewView`, of the pacemaker, and of the very proposal that has just been signed. An assignment
below `vheight` opens a gap, from the height of the new leaf to the `vheight` it overwrites, in
which the replica would sign again.

Every height that was signed stays covered by `vheight` and the gaps. A run that brings no
proposal into a gap therefore signs in increasing height.
-/

namespace HotstuffConsensus

open Lib

variable {K : Crypto}

/-! ## The writers of `vheight` -/

namespace Tree

/-- What a write does to `vheight`. -/
def heightWrite (t : Tree K) : Write K → List (Register.Write ViewNumber)
  -- `append_new_node` is followed by `update_vheight`
  | .append x => [.raise x.height]
  | .install x _ => if t.Raises x then [.assign x.height] else []
  | .lead x => [.assign x.height]

def heightWrites (t : Tree K) : List (Write K) → List (Register.Write ViewNumber)
  | [] => []
  | w :: ws => t.heightWrite w ++ (t.write w).heightWrites ws

theorem heightWrites_append (t : Tree K) (before after : List (Write K)) :
    t.heightWrites (before ++ after) =
      t.heightWrites before ++ (t.run before).heightWrites after := by
  induction before generalizing t with
  | nil => rfl
  | cons w before ih =>
    show t.heightWrite w ++ (t.write w).heightWrites (before ++ after) =
      t.heightWrite w ++ (t.write w).heightWrites before ++ _
    rw [ih, List.append_assoc]
    rfl

end Tree

namespace HotstuffStorage

/-- The writes lead from `s` to `s'`, `vheight` included. -/
structure WritesLead (s s' : HotstuffStorage K) (ws : List (Write K)) : Prop where
  tree : s'.tree = s.tree.run ws
  vheight : s'.state.vheight = Register.run s.state.vheight (s.tree.heightWrites ws)

theorem WritesLead.of_eq {s s' : HotstuffStorage K} (htree : s'.tree = s.tree)
    (hv : s'.state.vheight = s.state.vheight) : WritesLead s s' [] := ⟨htree, hv⟩

theorem WritesLead.trans {s s' s'' : HotstuffStorage K} {before after : List (Write K)}
    (h : WritesLead s s' before) (h' : WritesLead s' s'' after) :
    WritesLead s s'' (before ++ after) := by
  refine ⟨?_, ?_⟩
  · rw [h'.tree, h.tree, Tree.run_append]
  · rw [h'.vheight, h.vheight, h.tree, Tree.heightWrites_append, Register.run_append]

theorem updateQcHigh_writesLead (s : HotstuffStorage K) (x : TreeNode K) (qc : GenericQC K) :
    WritesLead s (s.updateQcHigh x qc) [.install x qc] := by
  refine ⟨s.updateQcHigh_tree x qc, ?_⟩
  show _ = Register.run _ ((if s.tree.Raises x then _ else _) ++ [])
  rcases s.updateQcHigh_cases x qc with ⟨hno, h⟩ | ⟨hr, h, -⟩
  · rw [h, if_neg (fun hr => hno (raises_tree.mp hr))]
    rfl
  · rw [h, if_pos (raises_tree.mpr hr)]
    rfl

theorem commit_vheight (s : HotstuffStorage K) (b : TreeNode K) :
    (s.commit b).state.vheight = s.state.vheight := by
  unfold commit
  split <;> rfl

end HotstuffStorage

namespace Machine

open HotstuffStorage

theorem updateNodesLocked_vheight (s : HotstuffStorage K) (chain : List (TreeNode K)) :
    (updateNodesLocked s chain).state.vheight = s.state.vheight := by
  unfold updateNodesLocked
  split
  · split <;> rfl
  · rfl

theorem updateNodesQcHigh_writesLead (s : HotstuffStorage K) (p : TreeNode K) :
    WritesLead s (updateNodesQcHigh s (s.findThreeChain p) p) (s.certifyWrites p.justify) := by
  unfold updateNodesQcHigh certifyWrites
  rw [findThreeChain_head?]
  cases s.get p.justify.node with
  | none => exact .of_eq rfl rfl
  | some b3 => exact s.updateQcHigh_writesLead b3 p.justify

theorem updateNodes_writesLead (m : Machine K) (p : TreeNode K) :
    WritesLead m.storage (m.updateNodes p).1.storage (m.storage.certifyWrites p.justify) := by
  refine ⟨m.updateNodes_tree p, ?_⟩
  rw [← (updateNodesQcHigh_writesLead m.storage p).vheight]
  rcases m.updateNodes_eq_or_commit p with hs | ⟨b, hs⟩
  · rw [hs, updateNodesLocked_vheight]
  · rw [hs, commit_vheight, updateNodesLocked_vheight]

theorem stored_writesLead (m : Machine K) (p : TreeNode K) :
    WritesLead m.storage (m.stored p).storage (if m.accepts p then [.append p] else []) := by
  refine ⟨m.stored_tree p, ?_⟩
  unfold stored
  split <;> rfl

theorem processProp_writesLead (m : Machine K) (p : TreeNode K) :
    WritesLead m.storage (m.processProp p).storage (m.propWrites p) :=
  (m.stored_writesLead p).trans ((m.stored p).updateNodes_writesLead p)

theorem syncNodes_writesLead (m : Machine K) (branch : List (TreeNode K)) :
    WritesLead m.storage (m.syncNodes branch).storage (m.syncWrites branch) := by
  induction branch generalizing m with
  | nil => exact .of_eq rfl rfl
  | cons p branch ih =>
    unfold syncNodes syncWrites
    rw [syncNode_eq]
    cases m.verifyProposal p.justify with
    | error e => exact .of_eq rfl rfl
    | ok r => exact (m.processProp_writesLead p).trans (ih (m.processProp p))

theorem processSafetyEvent_writesLead (m : Machine K) (e : SafetyEvent K) :
    WritesLead m.storage (m.processSafetyEvent e).1.storage (m.writes e) := by
  match e with
  | .recvProposal ctx p =>
    show WritesLead _ (m.onRecvProposal ctx p p.justify).1.storage _
    rw [onRecvProposal_eq_syncNodes]
    exact m.syncNodes_writesLead [p]
  | .branchSync ctx branch => exact m.syncNodes_writesLead branch
  | .recvSign ctx prop sign =>
    show WritesLead _ (m.onRecvVote ctx prop sign).1.storage (m.voteWrites ctx prop sign)
    unfold voteWrites
    rcases m.onRecvVote_cases ctx prop sign with ⟨c, hquorum, -, hs⟩ | ⟨hquorum, -, hs⟩
    · rw [hs, hquorum]
      exact updateQcHigh_writesLead _ _ _
    · rw [hs, hquorum]
      exact .of_eq rfl rfl
  | .recvNewViewMsg ctx qc =>
    show WritesLead _ (m.onRecvNewView qc).1.storage (m.storage.certifyWrites qc)
    unfold certifyWrites
    rcases m.onRecvNewView_cases qc with ⟨hnone, heq⟩ | ⟨node, hnode, heq⟩
    · rw [heq, hnone]
      exact .of_eq rfl rfl
    · rw [heq, hnode]
      exact updateQcHigh_writesLead _ _ _
  | .newTx cmds => exact ⟨rfl, rfl⟩
  | .newLeader ctx leader =>
    obtain ⟨l, heq⟩ := m.newLeader_eq ctx leader
    rw [heq]
    exact .of_eq rfl rfl
  | .requestSnapshot => exact .of_eq rfl rfl
  | .viewChange leader view => exact .of_eq rfl rfl
  | .propose ctx node qc => exact .of_eq rfl rfl

def callWrites (m : Machine K) : Call K → List (Write K)
  | .event e => m.writes e
  | .updateQcHigh node qc => [.install node qc]
  | _ => []

theorem call_writesLead (m : Machine K) (c : Call K) :
    WritesLead m.storage (m.call c).1.storage (m.callWrites c) := by
  cases c with
  | event e => exact m.processSafetyEvent_writesLead e
  | updateQcHigh node qc =>
    obtain ⟨htree, hv⟩ := m.storage.updateQcHigh_writesLead node qc
    exact ⟨htree, hv⟩
  | increaseView v => exact .of_eq rfl rfl
  | viewChange leader view =>
    show WritesLead _ (m.onViewChange leader view).1.storage []
    rcases m.onViewChange_cases leader view with heq | ⟨m', hm', heq⟩
    · rw [heq]
      exact .of_eq rfl rfl
    · rw [heq, hm']
      exact .of_eq rfl rfl

/-! ## The gaps -/

/-- The proposals signed along a run, in order. -/
def signedProps (m : Machine K) : List (Call K) → List (TreeNode K)
  | [] => []
  | c :: calls => (m.signs c).toList ++ (m.call c).1.signedProps calls

/-- The gaps that a call opens: a block of height `g.1` became the leaf while `vheight` was
`g.2`. -/
def callGaps (m : Machine K) (c : Call K) : List (ViewNumber × ViewNumber) :=
  Register.gaps m.storage.state.vheight (m.storage.tree.heightWrites (m.callWrites c))

/-- The call delivers a proposal in one of the gaps, which passes `verify_proposal` and the test
of `on_recv_proposal`. -/
def hitsGap (gaps : List (ViewNumber × ViewNumber)) (m : Machine K) : Call K → Bool
  | .event (.recvProposal _ prop) =>
    match m.verifyProposal prop.justify with
    | .ok _ => m.accepts prop && gaps.any fun g => decide (prop.height ∈ Set.Ioc g.1 g.2)
    | .error _ => false
  | _ => false

/-- No call of the run hits a gap that was opened before it; `gaps` holds those that were open
before the run. -/
def avoidsGaps (gaps : List (ViewNumber × ViewNumber)) (m : Machine K) : List (Call K) → Bool
  | [] => true
  | c :: calls => !hitsGap gaps m c && avoidsGaps (gaps ++ m.callGaps c) (m.call c).1 calls

/-- The height is covered by `vheight` and the gaps. -/
def Covers (gaps : List (ViewNumber × ViewNumber)) (m : Machine K) (h : ViewNumber) : Prop :=
  Register.Covered gaps m.storage.state.vheight h

/-- Whatever a call writes, a covered height stays covered. -/
theorem Covers.call {gaps : List (ViewNumber × ViewNumber)} {m : Machine K} {h : ViewNumber}
    (hc : Covers gaps m h) (c : Call K) : Covers (gaps ++ m.callGaps c) (m.call c).1 h := by
  unfold Covers callGaps
  rw [(m.call_writesLead c).vheight]
  exact Register.Covered.run hc _

/-- The call that signs a proposal raises `vheight` first. -/
theorem heightWrites_of_signs {m : Machine K} {c : Call K} {p : TreeNode K}
    (h : m.signs c = some p) :
    ∃ ws, m.storage.tree.heightWrites (m.callWrites c) = .raise p.height :: ws := by
  obtain ⟨⟨ctx, rfl⟩, -⟩ := signs_eq_some h
  obtain ⟨⟨r, hv⟩, hacc⟩ := signs_recvProposal_eq_some h
  -- the block is stored before its justify is installed, which may lower `vheight` again
  have hwrites : m.callWrites (.event (.recvProposal ctx p)) =
      .append p :: ((m.stored p).storage.certifyWrites p.justify ++ []) := by
    show m.syncWrites [p] = _
    unfold syncWrites
    rw [hv]
    show m.propWrites p ++ [] = _
    unfold propWrites
    rw [if_pos hacc]
    rfl
  rw [hwrites]
  exact ⟨_, rfl⟩

/-- A signed height is covered from then on. -/
theorem covers_of_signs (gaps : List (ViewNumber × ViewNumber)) {m : Machine K} {c : Call K}
    {p : TreeNode K} (h : m.signs c = some p) :
    Covers (gaps ++ m.callGaps c) (m.call c).1 p.height := by
  obtain ⟨ws, hws⟩ := heightWrites_of_signs h
  unfold Covers callGaps
  rw [(m.call_writesLead c).vheight, hws]
  exact Register.Covered.of_raise gaps _ _ ws

/-- Outside the gaps, what a call signs is higher than every height that is covered. -/
theorem lt_of_signs {gaps : List (ViewNumber × ViewNumber)} {m : Machine K} {c : Call K}
    {p : TreeNode K} {h : ViewNumber} (hhit : hitsGap gaps m c = false) (hs : m.signs c = some p)
    (hc : Covers gaps m h) : h < p.height := by
  obtain ⟨⟨ctx, rfl⟩, hv⟩ := signs_eq_some hs
  refine hc.lt hv ?_
  intro g hg hmem
  -- what is signed was accepted, so a gap around it is hit
  obtain ⟨⟨r, hver⟩, hacc⟩ := signs_recvProposal_eq_some hs
  have hany : (gaps.any fun g => decide (p.height ∈ Set.Ioc g.1 g.2)) = true :=
    List.any_eq_true.mpr ⟨g, hg, decide_eq_true hmem⟩
  unfold hitsGap at hhit
  dsimp only at hhit
  rw [hver, hacc] at hhit
  dsimp only at hhit
  rw [hany] at hhit
  cases hhit

/-- The step of the run: the signed heights stay in order, and covered. -/
theorem signedProps_pairwise {m : Machine K} {calls : List (Call K)}
    {gaps : List (ViewNumber × ViewNumber)} {past : List (TreeNode K)}
    (hpast : past.Pairwise fun p q => p.height < q.height)
    (hcovers : ∀ q ∈ past, Covers gaps m q.height) (h : avoidsGaps gaps m calls = true) :
    (past ++ m.signedProps calls).Pairwise fun p q => p.height < q.height := by
  induction calls generalizing m gaps past with
  | nil =>
    unfold signedProps
    rw [List.append_nil]
    exact hpast
  | cons c calls ih =>
    unfold avoidsGaps at h
    rw [Bool.and_eq_true, Bool.not_eq_true'] at h
    obtain ⟨hhit, hrest⟩ := h
    unfold signedProps
    rw [← List.append_assoc]
    refine ih ?_ ?_ hrest
    · rw [List.pairwise_append]
      refine ⟨hpast, ?_, ?_⟩
      · cases m.signs c <;> simp
      · intro q hq p hp
        exact lt_of_signs hhit (Option.mem_toList.mp hp) (hcovers q hq)
    · intro q hq
      rcases List.mem_append.mp hq with hq | hq
      · exact (hcovers q hq).call c
      · exact covers_of_signs gaps (Option.mem_toList.mp hq)

/-- In every run that brings no proposal into a gap, the signed heights strictly increase. -/
theorem signed_heights_increase (m : Machine K) (calls : List (Call K))
    (h : avoidsGaps [] m calls = true) :
    (m.signedProps calls).Pairwise fun p q => p.height < q.height :=
  signedProps_pairwise List.Pairwise.nil (fun _ hq => nomatch hq) h

end Machine

namespace Symbolic

open Machine

/-- `vheight` falls twice on a chain of three blocks, and each next block lies above the gap. -/
theorem signed_heights_increase_chain :
    avoidsGaps [] (fresh 4 0) [deliver a1, deliver a2, deliver a3] = true ∧
      (fresh 4 0).signedProps [deliver a1, deliver a2, deliver a3] = [a1, a2, a3] ∧
      ((fresh 4 0).signedProps [deliver a1, deliver a2, deliver a3]).Pairwise
        fun p q => p.height < q.height :=
  ⟨by decide +kernel, by decide +kernel, signed_heights_increase _ _ (by decide +kernel)⟩

/-- The certificate in `a2` makes `a1` the leaf again. The gap reaches from 1 to 2, and `a2'` is
signed after `a2`. -/
theorem signed_heights_repeat :
    (fresh 4 0).signedProps [deliver a1, deliver a2, deliver a2'] = [a1, a2, a2'] ∧
      ¬ ((fresh 4 0).signedProps [deliver a1, deliver a2, deliver a2']).Pairwise
        fun p q => p.height < q.height := by
  decide +kernel

end Symbolic

end HotstuffConsensus
