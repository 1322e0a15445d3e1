import HotstuffConsensus.MachineTheorems

/-!
# How block store, leaf and `qc_high` move together

A replica's block store, leaf and `qc_high` are written from many places, but in few
ways. `Grows` lists those of the calls that process proposals, branch syncs, `NewView`
messages and view changes; votes, beats and `UpdateQCHigh` events have an equation of
their own. Every invariant of these three fields is derived from this list.
-/

namespace HotstuffConsensus

open Lib Relation

variable {K : Crypto}

/-- One write to block store, leaf and `qc_high`. The blocks appended come from `N`. -/
inductive Grows (N : TreeNode K → Prop) (s s' : HotstuffStorage K) : Prop
  /-- Neither of the three changes. -/
  | quiet (hq : s'.inMemQueue = s.inMemQueue) (hl : s'.state.leaf = s.state.leaf)
      (hc : s'.state.qcHigh = s.state.qcHigh)
  /-- A proposal is stored. -/
  | append (p : TreeNode K) (hp : N p) (hq : s'.inMemQueue = s.inMemQueue.insert p.hash p)
      (hl : s'.state.leaf = s.state.leaf) (hc : s'.state.qcHigh = s.state.qcHigh)
  /-- A certificate that names a stored block raises `qc_high`; that block is the leaf. -/
  | certify (node : TreeNode K) (qc : GenericQC K) (hn : s.get qc.node = some node)
      (hr : s.Raises node) (hq : s'.inMemQueue = s.inMemQueue.insert node.hash node)
      (hl : s'.state.leaf = node) (hc : s'.state.qcHigh = qc)

namespace Machine

variable {N : TreeNode K → Prop}

theorem updateQcHigh_grows {s : HotstuffStorage K} {node : TreeNode K} {qc : GenericQC K}
    (hn : s.get qc.node = some node) : Grows N s (s.updateQcHigh node qc) := by
  rcases HotstuffStorage.updateQcHigh_cases s node qc with ⟨-, h⟩ | ⟨hr, hst, hq⟩
  · rw [h]
    exact .quiet rfl rfl rfl
  · exact .certify node qc hn hr hq (by rw [hst]) (by rw [hst])

theorem updateNodesQcHigh_grows (s : HotstuffStorage K) (node : TreeNode K) :
    Grows N s (updateNodesQcHigh s (s.findThreeChain node) node) := by
  unfold updateNodesQcHigh
  rw [HotstuffStorage.findThreeChain_head?]
  cases h : s.get node.justify.node with
  | none => exact .quiet rfl rfl rfl
  | some b3 => exact updateQcHigh_grows h

theorem updateNodesLocked_grows (s : HotstuffStorage K) (chain : List (TreeNode K)) :
    Grows N s (updateNodesLocked s chain) := by
  unfold updateNodesLocked
  split
  · split
    · exact .quiet rfl rfl rfl
    · exact .quiet rfl rfl rfl
  · exact .quiet rfl rfl rfl

theorem commit_grows (s : HotstuffStorage K) (b : TreeNode K) : Grows N s (s.commit b) := by
  unfold HotstuffStorage.commit
  split
  · exact .quiet rfl rfl rfl
  · exact .quiet rfl rfl rfl

theorem updateNodes_grows (m : Machine K) (node : TreeNode K) :
    ReflTransGen (Grows N) m.storage (m.updateNodes node).1.storage := by
  have h : ReflTransGen (Grows N) m.storage (updateNodesLocked
      (updateNodesQcHigh m.storage (m.storage.findThreeChain node) node)
      (m.storage.findThreeChain node)) :=
    (ReflTransGen.single (updateNodesQcHigh_grows _ _)).tail (updateNodesLocked_grows _ _)
  rcases m.updateNodes_eq_or_commit node with hs | ⟨b, hs⟩
  · rw [hs]
    exact h
  · rw [hs]
    exact h.tail (commit_grows _ _)

theorem processProp_grows (m : Machine K) {prop : TreeNode K} (hp : N prop) :
    ReflTransGen (Grows N) m.storage (m.processProp prop).storage := by
  unfold processProp
  refine ReflTransGen.trans ?_ (updateNodes_grows _ _)
  split
  · exact ReflTransGen.single (.append prop hp rfl rfl rfl)
  · exact ReflTransGen.refl

theorem syncNodes_grows (m : Machine K) (branch : List (TreeNode K)) (hb : ∀ p ∈ branch, N p) :
    ReflTransGen (Grows N) m.storage (m.syncNodes branch).storage := by
  induction branch generalizing m with
  | nil => exact ReflTransGen.refl
  | cons p branch ih =>
    unfold syncNodes
    rw [syncNode_eq]
    cases m.verifyProposal p.justify with
    | error e => exact ReflTransGen.refl
    | ok r =>
      have hp : N p := hb p (by simp)
      exact (processProp_grows m hp).trans (ih _ fun q hq => hb q (by simp [hq]))

theorem onRecvNewView_grows (m : Machine K) (qc : GenericQC K) :
    Grows N m.storage (m.onRecvNewView qc).1.storage := by
  rcases m.onRecvNewView_cases qc with ⟨-, hsame⟩ | ⟨node, hnode, hraise⟩
  · rw [hsame]
    exact .quiet rfl rfl rfl
  · rw [hraise]
    exact updateQcHigh_grows hnode

end Machine

/-- The blocks a call carries. -/
def Call.nodes : Call K → List (TreeNode K)
  | .event (.recvProposal _ prop) => [prop]
  | .event (.recvSign _ node _) => [node]
  | .event (.branchSync _ branch) => branch
  | .updateQcHigh node _ => [node]
  | _ => []

/-- Votes, beats and `UpdateQCHigh` events. -/
def Call.Special : Call K → Prop
  | .event (.recvSign _ _ _) => True
  | .event (.newTx _) => True
  | .updateQcHigh _ _ => True
  | _ => False

/-- Any other call is a sequence of the writes `Grows` lists. -/
theorem Machine.call_grows (m : Machine K) (c : Call K) (hc : ¬ c.Special) :
    ReflTransGen (Grows (· ∈ c.nodes)) m.storage (m.call c).1.storage := by
  have hquiet : ∀ {N : TreeNode K → Prop} (s' : HotstuffStorage K),
      s'.inMemQueue = m.storage.inMemQueue → s'.state.leaf = m.storage.state.leaf →
      s'.state.qcHigh = m.storage.state.qcHigh → ReflTransGen (Grows N) m.storage s' :=
    fun s' h1 h2 h3 => ReflTransGen.single (.quiet h1 h2 h3)
  match c, hc with
  | .event (.recvSign _ _ _), hc => exact absurd trivial hc
  | .event (.newTx _), hc => exact absurd trivial hc
  | .updateQcHigh _ _, hc => exact absurd trivial hc
  | .event .requestSnapshot, _ => exact hquiet _ rfl rfl rfl
  | .event (.viewChange _ _), _ => exact hquiet _ rfl rfl rfl
  | .event (.propose _ _ _), _ => exact hquiet _ rfl rfl rfl
  | .event (.newLeader ctx leader), _ =>
    show ReflTransGen _ m.storage (m.processSafetyEvent (.newLeader ctx leader)).1.storage
    obtain ⟨l, heq⟩ := m.newLeader_eq ctx leader
    rw [heq]
  | .increaseView v, _ => exact hquiet _ rfl rfl rfl
  | .viewChange leader v, _ =>
    show ReflTransGen _ m.storage (m.onViewChange leader v).1.storage
    rcases m.onViewChange_cases leader v with heq | ⟨m', hm', heq⟩
    · rw [heq]
    · rw [heq, hm']
      exact hquiet _ rfl rfl rfl
  | .event (.recvNewViewMsg _ qc), _ => exact ReflTransGen.single (m.onRecvNewView_grows qc)
  | .event (.branchSync _ branch), _ => exact m.syncNodes_grows branch fun p hp => hp
  | .event (.recvProposal ctx prop), _ =>
    show ReflTransGen _ m.storage (m.onRecvProposal ctx prop prop.justify).1.storage
    rw [onRecvProposal_eq_syncNodes]
    exact m.syncNodes_grows [prop] fun p hp => hp

/-! ## The store stays keyed by hash -/

theorem Grows.keyed {N : TreeNode K → Prop} {s s' : HotstuffStorage K} (h : Grows N s s')
    (hk : Keyed s.inMemQueue) : Keyed s'.inMemQueue := by
  cases h with
  | quiet hq _ _ => rw [hq]; exact hk
  | append p _ hq _ _ => rw [hq]; exact hk.insert p
  | certify node _ _ _ hq _ _ => rw [hq]; exact hk.insert node

/-- What one write keeps, a sequence of them keeps. -/
theorem Grows.trans_of_invariant {N : TreeNode K → Prop} {I : HotstuffStorage K → Prop}
    (hkeep : ∀ s s', Grows N s s' → I s → I s') {s s' : HotstuffStorage K}
    (h : ReflTransGen (Grows N) s s') (hs : I s) : I s' := by
  induction h with
  | refl => exact hs
  | tail _ hstep ih => exact hkeep _ _ hstep ih

theorem Grows.keyed_trans {N : TreeNode K → Prop} {s s' : HotstuffStorage K}
    (h : ReflTransGen (Grows N) s s') (hk : Keyed s.inMemQueue) : Keyed s'.inMemQueue :=
  Grows.trans_of_invariant (I := fun s => Keyed s.inMemQueue) (fun _ _ hstep => hstep.keyed) h hk

theorem HotstuffStorage.updateQcHigh_keyed {s : HotstuffStorage K} (hk : Keyed s.inMemQueue)
    (node : TreeNode K) (qc : GenericQC K) : Keyed (s.updateQcHigh node qc).inMemQueue := by
  rcases updateQcHigh_cases s node qc with ⟨-, h⟩ | ⟨-, -, hq⟩
  · rw [h]
    exact hk
  · rw [hq]
    exact hk.insert node

theorem FreshStorage.inMemQueue_eq {s : HotstuffStorage K} (h : FreshStorage s) :
    s.inMemQueue = (∅ : BlockStore K).insert (initNodeHash K) (initNode K) := by
  cases h <;> rfl

theorem FreshStorage.state_eq {s : HotstuffStorage K} (h : FreshStorage s) :
    ∃ token, s.state = ⟨token, initNode K, initQc K, 0, 0, 0, initNode K, initNode K⟩ := by
  cases h <;> exact ⟨_, rfl⟩

theorem FreshStorage.newViewSet_eq {s : HotstuffStorage K} (h : FreshStorage s) :
    s.newViewSet = ∅ := by
  cases h <;> rfl

theorem FreshStorage.leaf_eq {s : HotstuffStorage K} (h : FreshStorage s) :
    s.state.leaf = initNode K := by
  cases h <;> rfl

theorem FreshStorage.qcHigh_eq {s : HotstuffStorage K} (h : FreshStorage s) :
    s.state.qcHigh = initQc K := by
  cases h <;> rfl

theorem FreshStorage.keyed {s : HotstuffStorage K} (h : FreshStorage s) :
    Keyed s.inMemQueue := by
  rw [h.inMemQueue_eq]
  intro k x hx
  rcases HashMap.lookup_insert_cases hx with ⟨rfl, rfl⟩ | hx
  · rfl
  · rw [Finmap.lookup_empty] at hx
    cases hx

namespace Machine

/-- Every call writes blocks under their own hash only. -/
theorem call_keyed {m : Machine K} (hk : Keyed m.storage.inMemQueue) (c : Call K) :
    Keyed (m.call c).1.storage.inMemQueue := by
  by_cases hc : c.Special
  · match c, hc with
    | .event (.recvSign ctx prop sign), _ =>
      show Keyed (m.onRecvVote ctx prop sign).1.storage.inMemQueue
      rcases onRecvVote_cases m ctx prop sign with ⟨s, -, -, hs⟩ | ⟨-, -, hs⟩
      · rw [hs]
        exact HotstuffStorage.updateQcHigh_keyed hk _ _
      · rw [hs]
        exact hk
    | .event (.newTx cmds), _ => exact hk.insert (m.makeLeaf cmds)
    | .updateQcHigh node qc, _ => exact HotstuffStorage.updateQcHigh_keyed hk node qc
  · exact Grows.keyed_trans (m.call_grows c hc) hk

theorem run_keyed {m : Machine K} (hk : Keyed m.storage.inMemQueue) (calls : List (Call K)) :
    Keyed (m.run calls).storage.inMemQueue := by
  induction calls generalizing m with
  | nil => exact hk
  | cons c calls ih => exact ih (call_keyed hk c)

end Machine

end HotstuffConsensus
