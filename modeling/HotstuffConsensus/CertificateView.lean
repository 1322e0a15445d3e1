import HotstuffConsensus.BlockWrites
import HotstuffConsensus.Driver
import HotstuffConsensus.ReadyQueue

/-!
# The view of a certificate

A certificate carries a view beside the hash of its block, and the view is taken for the height of
the block: pending proposals wait for it, and the database uses it as a key. No signature covers
it and nothing compares the two. `on_recv_vote` puts the current view into the certificate it
forms, and by then the replica may have left the view of the proposal.

When certificates that arrive are right about the height, and no quorum completes after the
replica has left the view of its leaf, every `qc_high` is right about it. Beats and
`Ready::UpdateQCHigh` results need no assumption of their own: their certificates were in place
before.
-/

namespace HotstuffConsensus

open Lib

variable {K : Crypto}

/-- `qc` names a stored block, and its view is the height of that block. -/
def AtHeight (store : BlockStore K) (qc : GenericQC K) : Prop :=
  ∃ x ∈ store.lookup qc.node, qc.view = x.height

instance decidableAtHeight (store : BlockStore K) (qc : GenericQC K) :
    Decidable (AtHeight store qc) :=
  inferInstanceAs (Decidable (∃ x ∈ store.lookup qc.node, qc.view = x.height))

/-- Unless it is at the height of the genesis block, `x` has such a justify. -/
def Backed (store : BlockStore K) (x : TreeNode K) : Prop :=
  0 < x.height → AtHeight store x.justify

theorem AtHeight.insert {store : BlockStore K} {qc : GenericQC K} {x : TreeNode K}
    (h : AtHeight store qc) (hfit : Fits store x) : AtHeight (store.insert x.hash x) qc := by
  obtain ⟨y, hy, hview⟩ := h
  obtain ⟨z, hz, hinput⟩ := hfit.lookup_insert hy
  refine ⟨z, hz, ?_⟩
  rw [hview, (hashInput_inj hinput).2.1]

/-! ## Writes -/

namespace Tree

variable {B : Set (TreeNode K)} {t : Tree K} {w : Write K}

/-- `qc_high` names a stored block of the height that is its view. -/
def QcAtHeight (t : Tree K) : Prop := AtHeight t.store t.qcHigh

/-- The blocks of a tree come from `B` and are backed, and `qc_high` is right. -/
structure Certified (B : Set (TreeNode K)) (t : Tree K) : Prop where
  keyed : Keyed t.store
  stored : ∀ k x, t.store.lookup k = some x → x ∈ B ∧ Backed t.store x
  leaf : t.leaf ∈ B ∧ Backed t.store t.leaf
  leaf_stored : (t.store.lookup t.leaf.hash).isSome
  qcHigh : t.QcAtHeight

/-- The write is one of a backed block of `B`, with a certificate that is right. -/
def Admits (B : Set (TreeNode K)) (t : Tree K) : Write K → Prop
  | .install x qc => t.Raises x → (x ∈ B ∧ Backed t.store x) ∧ AtHeight t.store qc
  | .append x => x ∈ B ∧ Backed t.store x
  | .lead x => x ∈ B ∧ Backed t.store x

theorem Raises.height_pos {x : TreeNode K} (h : t.Raises x) : 0 < x.height := by
  obtain ⟨qcNode, -, hlt⟩ := h
  exact lt_of_le_of_lt (UInt64.zero_le) hlt

theorem Certified.fits (hB : CollisionFree B) (h : t.Certified B) {x : TreeNode K}
    (hx : x ∈ B) : Fits t.store x := by
  intro y hy
  exact hB y (h.stored _ y hy).1 x hx (h.keyed _ y hy)

/-- The leaf is stored, up to fields its hash does not cover. -/
theorem Certified.leaf_lookup (hB : CollisionFree B) (h : t.Certified B) :
    ∃ z, t.store.lookup t.leaf.hash = some z ∧ z.height = t.leaf.height := by
  obtain ⟨z, hz⟩ := Option.isSome_iff_exists.mp h.leaf_stored
  exact ⟨z, hz, (hashInput_inj (h.fits hB h.leaf.1 z hz)).2.1⟩

theorem Certified.insert (hB : CollisionFree B) (h : t.Certified B) {x leaf : TreeNode K}
    {qc : GenericQC K} (hx : x ∈ B ∧ Backed t.store x) (hleaf : leaf = t.leaf ∨ leaf = x)
    (hqc : AtHeight t.store qc) :
    (⟨t.store.insert x.hash x, leaf, qc⟩ : Tree K).Certified B := by
  have hfit := h.fits hB hx.1
  have hgrow : ∀ y : TreeNode K, Backed t.store y → Backed (t.store.insert x.hash x) y := by
    intro y hy hpos
    exact (hy hpos).insert hfit
  refine ⟨h.keyed.insert x, ?_, ?_, ?_, hqc.insert hfit⟩
  · intro k y hy
    rcases HashMap.lookup_insert_cases hy with ⟨-, rfl⟩ | hy
    · exact ⟨hx.1, hgrow y hx.2⟩
    · exact ⟨(h.stored k y hy).1, hgrow y (h.stored k y hy).2⟩
  · rcases hleaf with hl | hl
    · rw [hl]
      exact ⟨h.leaf.1, hgrow _ h.leaf.2⟩
    · rw [hl]
      exact ⟨hx.1, hgrow x hx.2⟩
  · rcases hleaf with hl | hl
    · rw [hl]
      exact HotstuffStorage.Holds.isSome_insert h.leaf_stored _ _
    · show ((t.store.insert x.hash x).lookup leaf.hash).isSome
      rw [hl, Finmap.lookup_insert]
      rfl

theorem Certified.write (hB : CollisionFree B) (h : t.Certified B) (hw : t.Admits B w) :
    (t.write w).Certified B := by
  cases w with
  | append x => exact h.insert hB hw (Or.inl rfl) h.qcHigh
  | lead x => exact h.insert hB hw (Or.inr rfl) h.qcHigh
  | install x qc =>
    show (if t.Raises x then _ else _ : Tree K).Certified B
    split
    · rename_i hr
      exact h.insert hB (hw hr).1 (Or.inr rfl) (hw hr).2
    · exact h

/-- A certificate that is right stays so. -/
theorem Certified.atHeight_write (hB : CollisionFree B) (h : t.Certified B)
    (hw : t.Admits B w) {qc : GenericQC K} (hqc : AtHeight t.store qc) :
    AtHeight (t.write w).store qc := by
  cases w with
  | append x => exact hqc.insert (h.fits hB hw.1)
  | lead x => exact hqc.insert (h.fits hB hw.1)
  | install x qc' =>
    show AtHeight (if t.Raises x then _ else _ : Tree K).store qc
    split
    · rename_i hr
      exact hqc.insert (h.fits hB (hw hr).1.1)
    · exact hqc

variable {ws : List (Write K)}

theorem Certified.run (hB : CollisionFree B) (h : t.Certified B)
    (hws : Run.Each Tree.write (Admits B) t ws) : (t.run ws).Certified B :=
  Run.foldl_of_invariant h hws fun _ _ ht hw => ht.write hB hw

theorem Certified.atHeight_run (hB : CollisionFree B) (h : t.Certified B)
    (hws : Run.Each Tree.write (Admits B) t ws) {qc : GenericQC K} (hqc : AtHeight t.store qc) :
    AtHeight (t.run ws).store qc :=
  (Run.foldl_of_invariant (I := fun t => t.Certified B ∧ AtHeight t.store qc) ⟨h, hqc⟩ hws
    fun _ _ ht hw => ⟨ht.1.write hB hw, ht.1.atHeight_write hB hw ht.2⟩).2

theorem Certified.backed_run (hB : CollisionFree B) (h : t.Certified B)
    (hws : Run.Each Tree.write (Admits B) t ws) {x : TreeNode K} (hx : Backed t.store x) :
    Backed (t.run ws).store x := by
  intro hpos
  exact h.atHeight_run hB hws (hx hpos)

theorem Certified.each_qcAtHeight (hB : CollisionFree B) (h : t.Certified B)
    (hws : Run.Each Tree.write (Admits B) t ws) :
    Run.Each Tree.write (fun t w => (t.write w).QcAtHeight) t ws :=
  Run.each_of_invariant h hws (fun _ _ ht hw => ht.write hB hw)
    fun _ _ ht hw => (ht.write hB hw).qcHigh

end Tree

theorem FreshStorage.certified {B : Set (TreeNode K)} {s : HotstuffStorage K}
    (h : FreshStorage s) (hinit : initNode K ∈ B) : s.tree.Certified B := by
  have hroot : ((∅ : BlockStore K).insert (initNodeHash K) (initNode K)).lookup
      (initNodeHash K) = some (initNode K) := Finmap.lookup_insert _
  have hback : ∀ store : BlockStore K, Backed store (initNode K) := by
    intro store hpos
    exact absurd hpos (lt_irrefl _)
  have hkeyed := h.keyed
  have htree := h.tree_eq
  have hstore : s.tree.store = (∅ : BlockStore K).insert (initNodeHash K) (initNode K) := by
    rw [htree]
  refine ⟨hkeyed, ?_, ?_, ?_, ?_⟩
  · intro k x hx
    rw [hstore] at hx
    rcases HashMap.lookup_insert_cases hx with ⟨-, rfl⟩ | hx
    · exact ⟨hinit, hback _⟩
    · rw [Finmap.lookup_empty] at hx
      cases hx
  · rw [htree]
    exact ⟨hinit, hback _⟩
  · rw [htree]
    show (((∅ : BlockStore K).insert (initNodeHash K) (initNode K)).lookup
      (initNodeHash K)).isSome
    rw [hroot]
    rfl
  · rw [htree]
    exact ⟨initNode K, hroot, rfl⟩

/-! ## The conditions -/

namespace Machine

/-- A node that `verify_proposal` lets through has a justify that is right about the height. -/
def RightJustifies (m : Machine K) (branch : List (TreeNode K)) : Prop :=
  ∀ round ∈ m.rounds branch, (round.1.syncNode round.2).isSome →
    AtHeight round.1.storage.inMemQueue round.2.justify

/-- The proposals that are processed have a right justify, and so does the block of a quorum of
votes that raises `qc_high`; the quorum completes in the view of the leaf. A `NewView`
message that raises `qc_high` has a right certificate. -/
def KeepsViews (m : Machine K) : SafetyEvent K → Prop
  | .recvProposal _ p => m.RightJustifies [p]
  | .branchSync _ branch => m.RightJustifies branch
  | .recvSign ctx prop sign =>
    (m.voteQuorum ctx prop sign).isSome → m.storage.tree.Raises prop →
      m.storage.state.currentView = m.storage.state.leaf.height ∧
        AtHeight m.storage.inMemQueue prop.justify
  | .recvNewViewMsg _ qc =>
    ∀ node ∈ m.storage.get qc.node, m.storage.tree.Raises node → qc.view = node.height
  | _ => True

instance decidableRightJustifies (m : Machine K) (branch : List (TreeNode K)) :
    Decidable (m.RightJustifies branch) :=
  inferInstanceAs (Decidable (∀ round ∈ m.rounds branch, (round.1.syncNode round.2).isSome →
    AtHeight round.1.storage.inMemQueue round.2.justify))

instance decidableKeepsViews (m : Machine K) (e : SafetyEvent K) : Decidable (m.KeepsViews e) :=
  match e with
  | .recvProposal _ p => inferInstanceAs (Decidable (m.RightJustifies [p]))
  | .branchSync _ branch => inferInstanceAs (Decidable (m.RightJustifies branch))
  | .recvSign ctx prop sign =>
    inferInstanceAs (Decidable ((m.voteQuorum ctx prop sign).isSome →
      m.storage.tree.Raises prop → m.storage.state.currentView = m.storage.state.leaf.height ∧
        AtHeight m.storage.inMemQueue prop.justify))
  | .recvNewViewMsg _ qc =>
    inferInstanceAs (Decidable (∀ node ∈ m.storage.get qc.node,
      m.storage.tree.Raises node → qc.view = node.height))
  | .requestSnapshot => isTrue trivial
  | .newTx _ => isTrue trivial
  | .newLeader _ _ => isTrue trivial
  | .viewChange _ _ => isTrue trivial
  | .propose _ _ _ => isTrue trivial

end Machine

/-! ## The writes of the machine -/

section Writes

variable {B : Set (TreeNode K)}

/-- The written blocks come from `B`. -/
def WritesWithin (B : Set (TreeNode K)) (ws : List (Write K)) : Prop := ∀ w ∈ ws, w.block ∈ B

theorem HotstuffStorage.certifyWrites_admitted {s : HotstuffStorage K} (h : s.tree.Certified B)
    (qc : GenericQC K)
    (hqc : ∀ node ∈ s.get qc.node, s.tree.Raises node → qc.view = node.height) :
    Run.Each Tree.write (Tree.Admits B) s.tree (s.certifyWrites qc) := by
  unfold certifyWrites
  cases hnode : s.get qc.node with
  | none => trivial
  | some node =>
    refine ⟨?_, trivial⟩
    intro hr
    exact ⟨h.stored _ node hnode, node, hnode, hqc node hnode hr⟩

namespace Machine

theorem propWrites_admitted (hB : CollisionFree B) {m : Machine K} {p : TreeNode K}
    (h : m.storage.tree.Certified B) (hp : WritesWithin B (m.propWrites p))
    (hjustify : AtHeight m.storage.inMemQueue p.justify) :
    Run.Each Tree.write (Tree.Admits B) m.storage.tree (m.propWrites p) := by
  have hfirst : Run.Each Tree.write (Tree.Admits B) m.storage.tree
      (if m.accepts p then [.append p] else []) := by
    split
    · rename_i hacc
      refine ⟨⟨?_, fun _ => hjustify⟩, trivial⟩
      apply hp (.append p)
      unfold propWrites
      rw [if_pos hacc]
      exact List.mem_append_left _ (List.mem_singleton.mpr rfl)
    · trivial
  unfold propWrites
  refine Run.each_append.mpr ⟨hfirst, ?_⟩
  -- the justify is looked up in the store to which the proposal was appended
  have hstored := h.run hB hfirst
  have hright := h.atHeight_run hB hfirst hjustify
  rw [← stored_tree] at hstored hright
  have hlast := HotstuffStorage.certifyWrites_admitted hstored p.justify <| by
    intro node hnode _
    obtain ⟨x, hx, hview⟩ := hright
    rw [hview, Option.some.inj (hx.symm.trans hnode)]
  rw [stored_tree] at hlast
  exact hlast

theorem syncWrites_admitted (hB : CollisionFree B) {m : Machine K} {branch : List (TreeNode K)}
    (h : m.storage.tree.Certified B) (hw : WritesWithin B (m.syncWrites branch))
    (hright : m.RightJustifies branch) :
    Run.Each Tree.write (Tree.Admits B) m.storage.tree (m.syncWrites branch) := by
  induction branch generalizing m with
  | nil => trivial
  | cons p branch ih =>
    unfold syncWrites at hw ⊢
    unfold RightJustifies rounds at hright
    cases hv : m.verifyProposal p.justify with
    | error e => trivial
    | ok r =>
      rw [syncNode_eq, hv] at hright
      rw [hv] at hw
      dsimp only at hw hright ⊢
      have hjustify := hright (m, p) List.mem_cons_self
        (syncNode_isSome.mpr ⟨r, hv⟩)
      have hfirst := propWrites_admitted hB h
        (fun w hmem => hw w (List.mem_append_left _ hmem)) hjustify
      have hnext := h.run hB hfirst
      rw [← processProp_tree] at hnext
      have hrest := ih hnext (fun w hmem => hw w (List.mem_append_right _ hmem))
        (fun round hmem => hright round (List.mem_cons_of_mem _ hmem))
      rw [processProp_tree] at hrest
      exact Run.each_append.mpr ⟨hfirst, hrest⟩

theorem voteWrites_admitted (hB : CollisionFree B) {m : Machine K} {ctx : Context}
    {prop : TreeNode K} {sign : SignKit K} (h : m.storage.tree.Certified B)
    (hw : WritesWithin B (m.voteWrites ctx prop sign))
    (hk : m.KeepsViews (.recvSign ctx prop sign)) :
    Run.Each Tree.write (Tree.Admits B) m.storage.tree (m.voteWrites ctx prop sign) := by
  unfold voteWrites at hw ⊢
  cases hquorum : m.voteQuorum ctx prop sign with
  | none => trivial
  | some c =>
    rw [hquorum] at hw
    refine ⟨?_, trivial⟩
    intro hr
    obtain ⟨hview, hjustify⟩ := hk (Option.isSome_iff_exists.mpr ⟨c, hquorum⟩) hr
    refine ⟨⟨hw _ (List.mem_singleton.mpr rfl), fun _ => hjustify⟩, ?_⟩
    -- the certificate names the leaf
    obtain ⟨z, hz, hheight⟩ := h.leaf_lookup hB
    exact ⟨z, hz, hview.trans hheight.symm⟩

theorem writes_admitted (hB : CollisionFree B) {m : Machine K} {e : SafetyEvent K}
    (h : m.storage.tree.Certified B) (hw : WritesWithin B (m.writes e)) (hk : m.KeepsViews e) :
    Run.Each Tree.write (Tree.Admits B) m.storage.tree (m.writes e) := by
  match e with
  | .recvProposal ctx p => exact syncWrites_admitted hB h hw hk
  | .branchSync ctx branch => exact syncWrites_admitted hB h hw hk
  | .recvNewViewMsg ctx qc => exact HotstuffStorage.certifyWrites_admitted h qc hk
  | .recvSign ctx prop sign => exact voteWrites_admitted hB h hw hk
  | .newTx cmds =>
    refine ⟨⟨hw _ (List.mem_singleton.mpr rfl), ?_⟩, trivial⟩
    intro _
    exact h.qcHigh
  | .requestSnapshot => trivial
  | .newLeader ctx leader => trivial
  | .viewChange leader view => trivial
  | .propose ctx node qc => trivial

end Machine

end Writes

/-! ## The ready queue -/

namespace Pacemaker

/-- The `Ready::UpdateQCHigh` results of `pm'` that are not yet in the queue of `pm` carry the
leaf. -/
def QueuesLeaf (pm pm' : Pacemaker K) : Prop :=
  ∀ ctx node, .updateQCHigh ctx node ∈ pm'.readyQueue →
    .updateQCHigh ctx node ∈ pm.readyQueue ∨ node = pm'.machine.storage.state.leaf

theorem QueuesLeaf.of_eq {pm pm' : Pacemaker K} (h : pm'.readyQueue = pm.readyQueue) :
    QueuesLeaf pm pm' := by
  intro ctx node hmem
  rw [h] at hmem
  exact Or.inl hmem

/-- A `Ready::UpdateQCHigh` carries the leaf of the machine that returned it. -/
theorem QueuesResults.queuesLeaf {E : SafetyEvent K → Prop} {pm pm' : Pacemaker K}
    (h : QueuesResults E pm pm') : QueuesLeaf pm pm' := by
  intro ctx node hmem
  rcases h _ hmem with hold | ⟨m, se, -, hres⟩
  · exact Or.inl hold
  · have hnode : node ∈ producedNode (some (m.processSafetyEvent se).2) := by
      rw [hres]
      exact List.mem_singleton.mpr rfl
    have hleaf : node = (m.processSafetyEvent se).1.storage.state.leaf :=
      m.producedNode_call (.event se) hnode
    rw [hres] at hleaf
    exact Or.inr hleaf

end Pacemaker

namespace EventLoop

theorem propose_queuesLeaf (pm : Pacemaker K) (cmds : List Txn) :
    Pacemaker.QueuesLeaf pm (propose pm cmds) := by
  intro ctx node hmem
  rcases propose_readyQueue pm cmds hmem with hold | ⟨ctx', p, heq⟩
  · exact Or.inl hold
  · cases heq

theorem step_queuesLeaf (C : Codec K) (l : EventLoop K) (a : LoopAction K) :
    Pacemaker.QueuesLeaf l.pm (step C l a).pm := by
  obtain ⟨pm, db, phase⟩ := l
  cases a with
  | flusher => cases phase <;> exact .of_eq (flusherStep_frame C _).2.1
  | fetch cmds =>
    cases phase with
    | top =>
      cases cmds with
      | none => exact .of_eq rfl
      | some cmds => exact propose_queuesLeaf (pm.onStorage fun s => s.touchNewViewSet pm.view) cmds
    | _ => exact .of_eq rfl
  | tick => cases phase <;> exact .of_eq rfl
  | quit => cases phase <;> exact .of_eq rfl
  | network o e =>
    cases phase with
    | select =>
      exact (pm.processNetworkEvent_queuesResults (E := fun _ => True) o (fun _ _ => trivial)
        (fun _ _ => trivial)).queuesLeaf
    | _ => exact .of_eq rfl
  | timeout o view =>
    cases phase with
    | select =>
      exact (pm.processLocalTimeout_queuesResults (E := fun _ => True) o (fun _ _ => trivial)
        view).queuesLeaf
    | _ => exact .of_eq rfl
  | ready o =>
    cases phase with
    | drain =>
      unfold step
      dsimp only
      cases hq : pm.readyQueue with
      | nil => exact .of_eq rfl
      | cons r rest =>
        have hqueues := { pm with readyQueue := rest }.processReadyEvent_queuesResults
          (E := fun _ => True) o (fun _ _ => trivial) r
        intro ctx node hmem
        rcases hqueues.queuesLeaf ctx node hmem with hold | hnew
        · refine Or.inl ?_
          rw [hq]
          exact List.mem_cons_of_mem r hold
        · exact Or.inr hnew
    | _ => exact .of_eq rfl
  | finish => cases phase <;> exact .of_eq rfl

end EventLoop

namespace Pacemaker

variable {node : TreeNode K}

theorem updateQcHigh_notMem_opsOnCheck (o : Oracle K) (pm : Pacemaker K)
    (leafHeight : ViewNumber) : Op.updateQcHigh node ∉ pm.opsOnCheck o leafHeight := by
  intro h
  obtain ⟨se, hse⟩ := mem_opsOnCheck h
  cases hse

theorem updateQcHigh_notMem_opsOnTimeout (o : Oracle K) (pm : Pacemaker K)
    (timeoutView : ViewNumber) : Op.updateQcHigh node ∉ pm.opsOnTimeout o timeoutView := by
  intro h
  rcases mem_opsOnTimeout h with ⟨tc, hop⟩ | ⟨view, hop⟩ | hop | ⟨-, se, hop⟩ <;> cases hop

theorem updateQcHigh_notMem_opsOnNetwork (o : Oracle K) (pm : Pacemaker K) (e : PeerEvent K) :
    Op.updateQcHigh node ∉ pm.opsOnNetwork o e := by
  unfold opsOnNetwork
  split
  · exact updateQcHigh_notMem_opsOnCheck o _ _
  · simp
  · simp
  · intro h
    rcases List.mem_cons.mp h with h | h
    · cases h
    · split at h
      · exact updateQcHigh_notMem_opsOnTimeout o _ _ h
      · cases h
  · simp
  · simp
  · simp
  · simp
  · simp

/-- The pacemaker calls `update_qc_high` for a `Ready::UpdateQCHigh` only. -/
theorem eq_updateQCHigh_of_mem_opsOnReady {o : Oracle K} {pm : Pacemaker K} {r : Ready K}
    (h : Op.updateQcHigh node ∈ pm.opsOnReady o r) : ∃ ctx, r = .updateQCHigh ctx node := by
  rcases mem_opsOnReady h with ⟨ctx, node', hr, hop⟩ | ⟨tc, hop⟩ | ⟨view, hop⟩ | hop | ⟨-, se, hop⟩
  · obtain rfl := Op.updateQcHigh.inj hop
    exact ⟨ctx, hr⟩
  all_goals cases hop

end Pacemaker

theorem EventLoop.queued_of_mem_ops {l : EventLoop K} {a : LoopAction K} {node : TreeNode K}
    (h : Op.updateQcHigh node ∈ l.ops a) : ∃ ctx, .updateQCHigh ctx node ∈ l.pm.readyQueue := by
  unfold ops at h
  split at h
  · simp at h
  · rename_i cmds
    unfold Pacemaker.opsOnFetch at h
    split at h <;> simp at h
  · simp at h
  · exact absurd h (Pacemaker.updateQcHigh_notMem_opsOnNetwork _ _ _)
  · exact absurd h (Pacemaker.updateQcHigh_notMem_opsOnTimeout _ _ _)
  · split at h
    · cases h
    · rename_i r rest hq
      obtain ⟨ctx, rfl⟩ := Pacemaker.eq_updateQCHigh_of_mem_opsOnReady h
      refine ⟨ctx, ?_⟩
      rw [hq]
      exact List.mem_cons_self
  · simp at h
  · simp at h
  · cases h

/-! ## Runs -/

def Core.KeepsViews (c : Core K) : Op K → Prop
  | .event e => c.machine.KeepsViews e
  | _ => True

theorem Core.runWrites_admitted {B : Set (TreeNode K)} (hB : CollisionFree B) {c : Core K}
    {ops : List (Op K)} (h : c.tree.Certified B) (hw : WritesWithin B (c.runWrites ops))
    (hk : Run.Each Core.apply Core.KeepsViews c ops)
    (hq : ∀ node, .updateQcHigh node ∈ ops → Backed c.tree.store node) :
    Run.Each Tree.write (Tree.Admits B) c.tree (c.runWrites ops) := by
  induction ops generalizing c with
  | nil => trivial
  | cons op ops ih =>
    unfold runWrites at hw ⊢
    have hwop : WritesWithin B (c.writes op) := fun w hmem => hw w (List.mem_append_left _ hmem)
    have hfirst : Run.Each Tree.write (Tree.Admits B) c.tree (c.writes op) := by
      cases op with
      | event e => exact Machine.writes_admitted hB h hwop hk.1
      | updateQcHigh node =>
        have hback := hq node List.mem_cons_self
        refine ⟨?_, trivial⟩
        intro hr
        exact ⟨⟨hwop _ (List.mem_singleton.mpr rfl), hback⟩, hback hr.height_pos⟩
      | _ => trivial
    have hnext := h.run hB hfirst
    have hqueue : ∀ node, .updateQcHigh node ∈ ops →
        Backed (c.tree.run (c.writes op)).store node := by
      intro node hnode
      exact h.backed_run hB hfirst (hq node (List.mem_cons_of_mem _ hnode))
    rw [← apply_tree] at hnext hqueue
    have hrest := ih hnext (fun w hmem => hw w (List.mem_append_right _ hmem)) hk.2 hqueue
    rw [apply_tree] at hrest
    exact Run.each_append.mpr ⟨hfirst, hrest⟩

namespace EventLoop

variable {B : Set (TreeNode K)}

/-- The certificates that arrive in a step and become effective are right, and a quorum of votes
completes in the view of the leaf. -/
def KeepsViews (l : EventLoop K) (a : LoopAction K) : Prop :=
  Run.Each Core.apply Core.KeepsViews l.core (l.ops a)

/-- The blocks written in a step come from `B`. -/
def Within (B : Set (TreeNode K)) (l : EventLoop K) (a : LoopAction K) : Prop :=
  WritesWithin B (l.writes a)

/-- The tree is certified, and the leaves in the ready queue have a right justify. -/
structure Certified (B : Set (TreeNode K)) (l : EventLoop K) : Prop where
  tree : l.tree.Certified B
  queued : ∀ ctx node, .updateQCHigh ctx node ∈ l.pm.readyQueue → Backed l.tree.store node

theorem Certified.writes_admitted (hB : CollisionFree B) {l : EventLoop K} {a : LoopAction K}
    (h : l.Certified B) (hw : l.Within B a) (hk : l.KeepsViews a) :
    Run.Each Tree.write (Tree.Admits B) l.tree (l.writes a) := by
  refine Core.runWrites_admitted hB h.tree hw hk ?_
  intro node hnode
  obtain ⟨ctx, hmem⟩ := queued_of_mem_ops hnode
  exact h.queued ctx node hmem

theorem Certified.step (hB : CollisionFree B) {l : EventLoop K} {a : LoopAction K}
    (h : l.Certified B) (hw : l.Within B a) (hk : l.KeepsViews a) (C : Codec K) :
    (step C l a).Certified B := by
  have hadmits := h.writes_admitted hB hw hk
  have htree := h.tree.run hB hadmits
  rw [← step_tree C] at htree
  refine ⟨htree, ?_⟩
  intro ctx node hmem
  rcases step_queuesLeaf C l a ctx node hmem with hold | hnew
  · have hback := h.tree.backed_run hB hadmits (h.queued ctx node hold)
    rw [← step_tree C] at hback
    exact hback
  · rw [hnew]
    exact htree.leaf.2

/-- A replica that the pacemaker drives over a fresh storage, whose blocks do not collide. If the
certificates that arrive are right about the height and no quorum of votes completes outside the
view of the leaf, then the view of `qc_high` is the height of the block it names, at the start and
throughout the run. -/
theorem qcHigh_at_height (hB : CollisionFree B) (hinit : initNode K ∈ B) (C : Codec K)
    (id : ReplicaID) (elector : RoundRobinLeaderElector) (machine : Machine K)
    (hm : FreshStorage machine.storage) (signaturer : DefaultSignaturer K) (db : Database)
    (as : List (LoopAction K))
    (hw : Run.Each (step C) (Within B) (start (.new id elector machine signaturer) db) as)
    (hk : Run.Each (step C) KeepsViews (start (.new id elector machine signaturer) db) as) :
    (start (.new id elector machine signaturer) db).tree.QcAtHeight ∧
      Run.Each (step C) (Throughout C Tree.QcAtHeight)
        (start (.new id elector machine signaturer) db) as := by
  have hstart : (start (.new id elector machine signaturer) db).Certified B := by
    refine ⟨hm.certified hinit, ?_⟩
    intro ctx node hmem
    cases hmem
  refine ⟨hstart.tree.qcHigh, ?_⟩
  refine Run.each_of_invariant hstart (hw.and hk) ?_ ?_
  · rintro l a hl ⟨hwa, hka⟩
    exact hl.step hB hwa hka C
  · rintro l a hl ⟨hwa, hka⟩
    exact throughout_of_each hl.tree.qcHigh
      (hl.tree.each_qcAtHeight hB (hl.writes_admitted hB hwa hka))

end EventLoop

namespace Symbolic

open EventLoop

instance (c : Core symbolic) (op : Op symbolic) : Decidable (c.KeepsViews op) :=
  match op with
  | .event e => inferInstanceAs (Decidable (c.machine.KeepsViews e))
  | .goto _ | .increaseView | .touch | .clean | .newView _ _ _ | .appendTc _ | .flush | .flusher
  | .updateQcHigh _ => isTrue trivial

instance (l : EventLoop symbolic) (a : LoopAction symbolic) : Decidable (l.KeepsViews a) :=
  inferInstanceAs (Decidable (Run.Each Core.apply Core.KeepsViews l.core (l.ops a)))

/-- The votes of replicas 1 and 2 for the leader's first proposal. -/
def votes : List (LoopAction symbolic) :=
  [1, 2].flatMap fun i =>
    round (.network oracle (.acceptProposal (ctxOf i) p1 (some (voteBy i p1)))) 1

/-- The leader of view 1 makes a proposal and receives the votes for it. -/
def votedRun : List (LoopAction symbolic) := newViews 1 ++ proposal 1 ++ votes

/-- The certificate for the proposal is formed in view 1, the height of the proposal. -/
theorem qcHigh_at_height_on_votedRun :
    (votedRun.foldl (step codec) loop₀).tree.qcHigh.node = p1.hash ∧
      Run.Each (step codec) (Throughout codec Tree.QcAtHeight) loop₀ votedRun := by
  have hfresh : FreshStorage (fresh 4 0).storage := .inMem _ _ _ _
  have hwithin : Run.Each (step codec) (EventLoop.Within goodBlocks) loop₀ votedRun := by
    have h : Run.Each (step codec)
        (fun l a => ∀ w ∈ l.writes a, w.block ∈ [initNode symbolic, p1]) loop₀ votedRun := by
      decide +kernel
    exact h
  refine ⟨by decide +kernel, ?_⟩
  exact (qcHigh_at_height collisionFree_goodBlocks List.mem_cons_self codec (replicaId 0)
    ⟨["replica-0", "replica-1", "replica-2", "replica-3"]⟩ (fresh 4 0) hfresh (signaturer 4 0)
    createTables votedRun hwithin (by decide +kernel)).2

/-- The same, but the leader times out before the votes arrive. -/
def timedOutRun : List (LoopAction symbolic) :=
  newViews 1 ++ proposal 1 ++ round (.timeout oracle 1) 0 ++ votes

/-- The certificate for the proposal of height 1 is formed in view 2. -/
theorem qcHigh_not_at_height_after_timeout :
    FreshStorage (fresh 4 0).storage ∧
      ¬ (timedOutRun.foldl (step codec) loop₀).tree.QcAtHeight := by
  refine ⟨.inMem _ _ _ _, ?_⟩
  have hqc : (timedOutRun.foldl (step codec) loop₀).tree.qcHigh.view = 2 ∧
      (timedOutRun.foldl (step codec) loop₀).tree.store.lookup
        (timedOutRun.foldl (step codec) loop₀).tree.qcHigh.node = some p1 ∧
      p1.height = 1 := by decide +kernel
  rintro ⟨x, hx, hview⟩
  rw [hqc.1, ← Option.some.inj (hqc.2.1.symm.trans hx), hqc.2.2] at hview
  exact absurd hview (by decide)

end Symbolic

end HotstuffConsensus
