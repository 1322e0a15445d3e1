import HotstuffConsensus.CertificateView

/-!
# The order of heights in the block store

Conflicts are decided, and locks and commits are compared, by height, as if every block were
higher than its parent and than the block its justify certifies. Nothing checks this when a block
is stored: a proposal and a branch are compared with `vheight` only, a block that comes with votes
with the block of `qc_high`, and a leader gives its proposal the height of its view, whatever the
height of the leaf it builds on.

So the order is lost exactly when a block arrives, or a view is led, out of order with the blocks
stored before. The writers that take a block from the store keep it: the certificates of a
proposal and of a `NewView` message, and a `Ready::UpdateQCHigh`, unless its block was replaced by
another one under the same hash.
-/

namespace HotstuffConsensus

open Lib

variable {K : Crypto}

/-- `x` is higher than its parent and than the block its justify names, where these are stored. -/
structure Above (store : BlockStore K) (x : TreeNode K) : Prop where
  parent : ∀ p ∈ store.lookup x.parent, p.height < x.height
  justify : ∀ b ∈ store.lookup x.justify.node, b.height < x.height

/-- Every stored block but the genesis block is above those it names. -/
def HeightOrdered (store : BlockStore K) : Prop :=
  ∀ k x, store.lookup k = some x → x ≠ initNode K → Above store x

/-- The block that is called `name` is not the one under `hash`, and lower where it is stored. -/
def AboveStored (store : BlockStore K) (hash : NodeHash) (height : ViewNumber) (name : NodeHash) :
    Prop :=
  name ≠ hash ∧ ∀ b ∈ store.lookup name, b.height < height

/-- The stored blocks that name `hash` are higher. -/
def BelowNaming (store : BlockStore K) (hash : NodeHash) (height : ViewNumber) : Prop :=
  ∀ k z, store.lookup k = some z → k ≠ hash → z ≠ initNode K →
    z.parent = hash ∨ z.justify.node = hash → height < z.height

/-- If `x` is not stored yet, then it is above the blocks that it names and below those that
name it. -/
def ArrivesInOrder (store : BlockStore K) (x : TreeNode K) : Prop :=
  store.lookup x.hash ≠ some x →
    (x ≠ initNode K → AboveStored store x.hash x.height x.parent ∧
      AboveStored store x.hash x.height x.justify.node) ∧
    BelowNaming store x.hash x.height

section Decidable

variable (store : BlockStore K) (hash : NodeHash) (height : ViewNumber)

instance decidableAboveStored (name : NodeHash) : Decidable (AboveStored store hash height name) :=
  inferInstanceAs (Decidable (name ≠ hash ∧ ∀ b ∈ store.lookup name, b.height < height))

variable [DecidableEq K.CombinedSign]

instance decidableBelowNaming : Decidable (BelowNaming store hash height) :=
  decidable_of_iff (∀ e ∈ store.entries, e.1 ≠ hash → e.2 ≠ initNode K →
      e.2.parent = hash ∨ e.2.justify.node = hash → height < e.2.height) <| by
    unfold BelowNaming
    constructor
    · intro h k z hz
      exact h ⟨k, z⟩ (Finmap.lookup_eq_some_iff.mp hz)
    · intro h e he
      exact h e.1 e.2 (Finmap.lookup_eq_some_iff.mpr he)

instance decidableArrivesInOrder (x : TreeNode K) : Decidable (ArrivesInOrder store x) :=
  inferInstanceAs (Decidable (store.lookup x.hash ≠ some x →
    (x ≠ initNode K → AboveStored store x.hash x.height x.parent ∧
      AboveStored store x.hash x.height x.justify.node) ∧
    BelowNaming store x.hash x.height))

end Decidable

theorem Above.insert {store : BlockStore K} {x z : TreeNode K} (h : Above store z)
    (hx : z.parent = x.hash ∨ z.justify.node = x.hash → x.height < z.height) :
    Above (store.insert x.hash x) z := by
  refine ⟨?_, ?_⟩
  · intro p hp
    rcases HashMap.lookup_insert_cases hp with ⟨hname, hpx⟩ | hp
    · rw [hpx]
      exact hx (Or.inl hname)
    · exact h.parent p hp
  · intro b hb
    rcases HashMap.lookup_insert_cases hb with ⟨hname, hbx⟩ | hb
    · rw [hbx]
      exact hx (Or.inr hname)
    · exact h.justify b hb

theorem Above.lt_of_names {store : BlockStore K} {x z : TreeNode K}
    (h : Above (store.insert x.hash x) z) (hx : z.parent = x.hash ∨ z.justify.node = x.hash) :
    x.height < z.height := by
  have hlookup : (store.insert x.hash x).lookup x.hash = some x := Finmap.lookup_insert _
  rcases hx with hx | hx
  · apply h.parent x
    rw [hx]
    exact hlookup
  · apply h.justify x
    rw [hx]
    exact hlookup

/-- Whether a block that is written is above a block that it names can be told before. -/
theorem aboveStored_iff {store : BlockStore K} {x : TreeNode K} {name : NodeHash} :
    AboveStored store x.hash x.height name ↔
      ∀ b ∈ (store.insert x.hash x).lookup name, b.height < x.height := by
  constructor
  · rintro ⟨hne, hlt⟩ b hb
    rw [Finmap.lookup_insert_of_ne _ hne] at hb
    exact hlt b hb
  · intro h
    have hne : name ≠ x.hash := by
      intro heq
      rw [heq, Finmap.lookup_insert] at h
      exact lt_irrefl _ (h x rfl)
    refine ⟨hne, ?_⟩
    intro b hb
    refine h b ?_
    rw [Finmap.lookup_insert_of_ne _ hne]
    exact hb

/-- An ordered store stays ordered exactly when the block that is written arrives in order. -/
theorem heightOrdered_insert_iff {store : BlockStore K} (h : HeightOrdered store)
    (x : TreeNode K) : HeightOrdered (store.insert x.hash x) ↔ ArrivesInOrder store x := by
  constructor
  · intro hnext _
    refine ⟨?_, ?_⟩
    · intro hinit
      have hself := hnext x.hash x (Finmap.lookup_insert _) hinit
      exact ⟨aboveStored_iff.mpr hself.parent, aboveStored_iff.mpr hself.justify⟩
    · intro k z hz hk hinit hname
      have hz' : (store.insert x.hash x).lookup k = some z := by
        rw [Finmap.lookup_insert_of_ne _ hk]
        exact hz
      exact (hnext k z hz' hinit).lt_of_names hname
  · intro harrives
    by_cases hstored : store.lookup x.hash = some x
    · rw [HashMap.insert_eq_self hstored]
      exact h
    · obtain ⟨hself, hothers⟩ := harrives hstored
      intro k z hz hinit
      rw [HashMap.lookup_insert_eq_ite] at hz
      by_cases hk : k = x.hash
      · rw [if_pos hk] at hz
        obtain rfl := Option.some.inj hz
        exact ⟨aboveStored_iff.mp (hself hinit).1, aboveStored_iff.mp (hself hinit).2⟩
      · rw [if_neg hk] at hz
        exact (h k z hz hinit).insert (hothers k z hz hk hinit)

/-! ## Writes -/

namespace Tree

/-- A block is put into the store. -/
def Stores (t : Tree K) : Write K → Prop
  | .install x _ => t.Raises x
  | _ => True

instance decidableStores (t : Tree K) (w : Write K) : Decidable (t.Stores w) :=
  match w with
  | .append _ => isTrue trivial
  | .install x _ => inferInstanceAs (Decidable (t.Raises x))
  | .lead _ => isTrue trivial

theorem write_store (t : Tree K) (w : Write K) :
    (t.write w).store = if t.Stores w then t.store.insert w.block.hash w.block else t.store := by
  cases w with
  | append x => rw [if_pos (show t.Stores (.append x) from trivial)]; rfl
  | lead x => rw [if_pos (show t.Stores (.lead x) from trivial)]; rfl
  | install x qc =>
    show (if t.Raises x then _ else _ : Tree K).store = if t.Raises x then _ else _
    split <;> rfl

def Ordered (t : Tree K) : Prop := HeightOrdered t.store

/-- A block that is put into the store arrives in order. -/
def KeepsOrder (t : Tree K) (w : Write K) : Prop := t.Stores w → ArrivesInOrder t.store w.block

theorem ordered_write_iff {t : Tree K} (h : t.Ordered) (w : Write K) :
    (t.write w).Ordered ↔ t.KeepsOrder w := by
  unfold Ordered KeepsOrder
  rw [write_store]
  by_cases hs : t.Stores w
  · rw [if_pos hs, heightOrdered_insert_iff h]
    exact (imp_iff_right hs).symm
  · rw [if_neg hs]
    exact iff_of_true h (fun hs' => absurd hs' hs)

theorem keyed_write {t : Tree K} (h : Keyed t.store) (w : Write K) : Keyed (t.write w).store := by
  rw [write_store]
  split
  · exact h.insert w.block
  · exact h

theorem keyed_run {t : Tree K} (h : Keyed t.store) (ws : List (Write K)) :
    Keyed (t.run ws).store :=
  Run.foldl_of_kept (I := fun t : Tree K => Keyed t.store) h (fun _ w ht => keyed_write ht w) ws

/-- What is stored under a hash may be replaced, and stays. -/
theorem isSome_write {t : Tree K} {k : NodeHash} (h : (t.store.lookup k).isSome) (w : Write K) :
    ((t.write w).store.lookup k).isSome := by
  rw [write_store]
  split
  · exact HotstuffStorage.Holds.isSome_insert h _ _
  · exact h

theorem isSome_run {t : Tree K} {k : NodeHash} (h : (t.store.lookup k).isSome)
    (ws : List (Write K)) : ((t.run ws).store.lookup k).isSome :=
  Run.foldl_of_kept (I := fun t : Tree K => (t.store.lookup k).isSome) h
    (fun _ w ht => isSome_write ht w) ws

/-- A block is stored under the hash of the leaf. -/
def LeafStored (t : Tree K) : Prop := (t.store.lookup t.leaf.hash).isSome

theorem LeafStored.write {t : Tree K} (h : t.LeafStored) (w : Write K) :
    (t.write w).LeafStored := by
  have hself : ∀ x : TreeNode K, ((t.store.insert x.hash x).lookup x.hash).isSome := by
    intro x
    rw [Finmap.lookup_insert]
    rfl
  cases w with
  | append x => exact isSome_write h (.append x)
  | lead x => exact hself x
  | install x qc =>
    show (if t.Raises x then _ else _ : Tree K).LeafStored
    split
    · exact hself x
    · exact h

theorem LeafStored.run {t : Tree K} (h : t.LeafStored) (ws : List (Write K)) :
    (t.run ws).LeafStored :=
  Run.foldl_of_kept h (fun _ w ht => ht.write w) ws

/-- The writes keep the order, one after the other. -/
def EachKeepsOrder (t : Tree K) (ws : List (Write K)) : Prop := Run.Each Tree.write KeepsOrder t ws

theorem eachKeepsOrder_append {t : Tree K} {before after : List (Write K)} :
    t.EachKeepsOrder (before ++ after) ↔
      t.EachKeepsOrder before ∧ (t.run before).EachKeepsOrder after :=
  Run.each_append

theorem eachKeepsOrder_singleton {t : Tree K} {w : Write K} :
    t.EachKeepsOrder [w] ↔ t.KeepsOrder w :=
  and_iff_left trivial

end Tree

/-! ## The conditions -/

namespace Machine

/-- The block that is called `name` is not `x`, and lower where it is stored above `vheight`. -/
def AboveRecent (m : Machine K) (x : TreeNode K) (name : NodeHash) : Prop :=
  name ≠ x.hash ∧
    ∀ b ∈ m.storage.get name, m.storage.state.vheight < b.height → b.height < x.height

/-- An accepted proposal is compared with `vheight`, so of the blocks that it names only those
above `vheight` matter. -/
def AcceptsInOrder (m : Machine K) (x : TreeNode K) : Prop :=
  m.accepts x = true → m.storage.get x.hash ≠ some x →
    (x ≠ initNode K → m.AboveRecent x x.parent ∧ m.AboveRecent x x.justify.node) ∧
    BelowNaming m.storage.inMemQueue x.hash x.height

/-- The accepted blocks of a branch arrive in order. -/
def SyncsInOrder (m : Machine K) (branch : List (TreeNode K)) : Prop :=
  ∀ round ∈ m.rounds branch, (round.1.syncNode round.2).isSome → round.1.AcceptsInOrder round.2

/-- `current_view` is above the leaf and the block of `qc_high`, and no block that names the new
one came before it. -/
def LeadsInOrder (m : Machine K) (cmds : List Txn) : Prop :=
  let hash := (m.makeLeaf cmds).hash
  m.storage.get hash ≠ some (m.makeLeaf cmds) →
    (m.makeLeaf cmds ≠ initNode K →
      AboveStored m.storage.inMemQueue hash m.storage.state.currentView
        m.storage.state.leaf.hash ∧
      AboveStored m.storage.inMemQueue hash m.storage.state.currentView
        m.storage.state.qcHigh.node) ∧
    BelowNaming m.storage.inMemQueue hash m.storage.state.currentView

def InOrder (m : Machine K) : SafetyEvent K → Prop
  | .recvProposal _ p => m.SyncsInOrder [p]
  | .branchSync _ branch => m.SyncsInOrder branch
  | .recvSign ctx prop sign =>
    (m.voteQuorum ctx prop sign).isSome → m.storage.tree.Raises prop →
      ArrivesInOrder m.storage.inMemQueue prop
  | .newTx cmds => m.LeadsInOrder cmds
  | _ => True

section Decidable

instance decidableAboveRecent (m : Machine K) (x : TreeNode K) (name : NodeHash) :
    Decidable (m.AboveRecent x name) :=
  inferInstanceAs (Decidable (name ≠ x.hash ∧
    ∀ b ∈ m.storage.get name, m.storage.state.vheight < b.height → b.height < x.height))

variable [DecidableEq K.CombinedSign]

instance decidableAcceptsInOrder (m : Machine K) (x : TreeNode K) :
    Decidable (m.AcceptsInOrder x) :=
  inferInstanceAs (Decidable (m.accepts x = true → m.storage.get x.hash ≠ some x →
    (x ≠ initNode K → m.AboveRecent x x.parent ∧ m.AboveRecent x x.justify.node) ∧
    BelowNaming m.storage.inMemQueue x.hash x.height))

instance decidableSyncsInOrder (m : Machine K) (branch : List (TreeNode K)) :
    Decidable (m.SyncsInOrder branch) :=
  inferInstanceAs (Decidable (∀ round ∈ m.rounds branch, (round.1.syncNode round.2).isSome →
    round.1.AcceptsInOrder round.2))

instance decidableLeadsInOrder (m : Machine K) (cmds : List Txn) :
    Decidable (m.LeadsInOrder cmds) :=
  decidableArrivesInOrder m.storage.inMemQueue (m.makeLeaf cmds)

instance decidableInOrder (m : Machine K) (e : SafetyEvent K) : Decidable (m.InOrder e) :=
  match e with
  | .recvProposal _ p => inferInstanceAs (Decidable (m.SyncsInOrder [p]))
  | .branchSync _ branch => inferInstanceAs (Decidable (m.SyncsInOrder branch))
  | .recvSign ctx prop sign =>
    inferInstanceAs (Decidable ((m.voteQuorum ctx prop sign).isSome →
      m.storage.tree.Raises prop → ArrivesInOrder m.storage.inMemQueue prop))
  | .newTx cmds => inferInstanceAs (Decidable (m.LeadsInOrder cmds))
  | .recvNewViewMsg _ _ => isTrue trivial
  | .requestSnapshot => isTrue trivial
  | .newLeader _ _ => isTrue trivial
  | .viewChange _ _ => isTrue trivial
  | .propose _ _ _ => isTrue trivial

end Decidable

end Machine

/-! ## The writes of the machine -/

/-- A certificate installs a block from the store. -/
theorem HotstuffStorage.certifyWrites_keepsOrder {s : HotstuffStorage K}
    (hk : Keyed s.inMemQueue) (qc : GenericQC K) :
    s.tree.EachKeepsOrder (s.certifyWrites qc) := by
  unfold certifyWrites
  cases hnode : s.get qc.node with
  | none => trivial
  | some node =>
    refine ⟨?_, trivial⟩
    intro _ hnew
    have hstored : s.inMemQueue.lookup node.hash = some node := by
      rw [hk _ _ hnode]
      exact hnode
    exact absurd hstored hnew

namespace Machine

variable {m : Machine K}

/-- Up to `vheight` an accepted proposal is above whatever it names. -/
theorem aboveRecent_iff {x : TreeNode K} (hacc : m.accepts x = true) (name : NodeHash) :
    m.AboveRecent x name ↔ AboveStored m.storage.inMemQueue x.hash x.height name := by
  have hv := vheight_lt_of_accepts hacc
  refine and_congr_right fun _ => ⟨?_, ?_⟩
  · intro h b hb
    rcases lt_or_ge m.storage.state.vheight b.height with hlt | hge
    · exact h b hb hlt
    · exact lt_of_le_of_lt hge hv
  · intro h b hb _
    exact h b hb

theorem acceptsInOrder_iff {x : TreeNode K} :
    m.AcceptsInOrder x ↔ (m.accepts x = true → ArrivesInOrder m.storage.inMemQueue x) := by
  unfold AcceptsInOrder ArrivesInOrder
  refine imp_congr_right fun hacc => imp_congr_right fun _ => ?_
  rw [aboveRecent_iff hacc, aboveRecent_iff hacc]

theorem propWrites_keepsOrder_iff (hk : Keyed m.storage.inMemQueue) (p : TreeNode K) :
    m.storage.tree.EachKeepsOrder (m.propWrites p) ↔ m.AcceptsInOrder p := by
  have hcertify : (m.storage.tree.run (if m.accepts p then [.append p] else [])).EachKeepsOrder
      ((m.stored p).storage.certifyWrites p.justify) := by
    have hkeyed : Keyed (m.stored p).storage.tree.store := by
      rw [stored_tree]
      exact Tree.keyed_run hk _
    rw [← stored_tree]
    exact HotstuffStorage.certifyWrites_keepsOrder hkeyed p.justify
  unfold propWrites
  rw [Tree.eachKeepsOrder_append, and_iff_left hcertify, acceptsInOrder_iff]
  by_cases hacc : m.accepts p = true
  · rw [if_pos hacc, Tree.eachKeepsOrder_singleton, imp_iff_right hacc]
    exact imp_iff_right trivial
  · rw [if_neg hacc]
    exact iff_of_true trivial (fun h => absurd h hacc)

theorem syncWrites_keepsOrder_iff (hk : Keyed m.storage.inMemQueue)
    (branch : List (TreeNode K)) :
    m.storage.tree.EachKeepsOrder (m.syncWrites branch) ↔ m.SyncsInOrder branch := by
  induction branch generalizing m with
  | nil => exact iff_of_true trivial (List.forall_mem_nil _)
  | cons p branch ih =>
    unfold syncWrites SyncsInOrder rounds
    rw [List.forall_mem_cons, syncNode_isSome, syncNode_eq]
    cases hv : m.verifyProposal p.justify with
    | error e =>
      refine iff_of_true trivial ⟨?_, List.forall_mem_nil _⟩
      rintro ⟨r, hr⟩
      cases hr
    | ok r =>
      -- accepted or not, the loop goes on behind the node
      have hnext : Keyed (m.processProp p).storage.tree.store := by
        rw [processProp_tree]
        exact Tree.keyed_run hk _
      rw [imp_iff_right ⟨r, rfl⟩, Tree.eachKeepsOrder_append, propWrites_keepsOrder_iff hk,
        ← processProp_tree]
      exact and_congr_right fun _ => ih hnext

theorem writes_keepsOrder_iff (hk : Keyed m.storage.inMemQueue) (e : SafetyEvent K) :
    m.storage.tree.EachKeepsOrder (m.writes e) ↔ m.InOrder e := by
  match e with
  | .recvProposal ctx p => exact syncWrites_keepsOrder_iff hk [p]
  | .branchSync ctx branch => exact syncWrites_keepsOrder_iff hk branch
  | .recvNewViewMsg ctx qc =>
    exact iff_of_true (HotstuffStorage.certifyWrites_keepsOrder hk qc) trivial
  | .recvSign ctx prop sign =>
    show m.storage.tree.EachKeepsOrder (m.voteWrites ctx prop sign) ↔
      ((m.voteQuorum ctx prop sign).isSome → _)
    unfold voteWrites
    cases hquorum : m.voteQuorum ctx prop sign with
    | none => exact iff_of_true trivial (fun h => absurd h Bool.false_ne_true)
    | some c =>
      rw [Option.isSome_some, imp_iff_right rfl]
      exact Tree.eachKeepsOrder_singleton
  | .newTx cmds =>
    -- `make_leaf` takes the height from `current_view`, the parent from the leaf
    show m.storage.tree.EachKeepsOrder [.lead (m.makeLeaf cmds)] ↔ m.LeadsInOrder cmds
    rw [Tree.eachKeepsOrder_singleton]
    exact imp_iff_right trivial
  | .requestSnapshot => exact iff_of_true trivial trivial
  | .newLeader ctx leader => exact iff_of_true trivial trivial
  | .viewChange leader view => exact iff_of_true trivial trivial
  | .propose ctx node qc => exact iff_of_true trivial trivial

end Machine

/-! ## Runs -/

/-- The former leaf of a `Ready::UpdateQCHigh` is stored already, unless another block with its
hash has replaced it. -/
def Core.KeepsOrder (c : Core K) : Op K → Prop
  | .event e => c.machine.InOrder e
  | .updateQcHigh node =>
    ∀ y ∈ c.storage.get node.hash, y ≠ node → c.storage.tree.Raises node →
      ArrivesInOrder c.storage.inMemQueue node
  | _ => True

theorem Core.runWrites_keepsOrder_iff {c : Core K} {ops : List (Op K)} (hk : Keyed c.tree.store)
    (hq : ∀ node, .updateQcHigh node ∈ ops → (c.tree.store.lookup node.hash).isSome) :
    c.tree.EachKeepsOrder (c.runWrites ops) ↔ Run.Each Core.apply Core.KeepsOrder c ops := by
  induction ops generalizing c with
  | nil => exact Iff.rfl
  | cons op ops ih =>
    have hfirst : c.tree.EachKeepsOrder (c.writes op) ↔ c.KeepsOrder op := by
      cases op with
      | event e => exact Machine.writes_keepsOrder_iff hk e
      | updateQcHigh node =>
        obtain ⟨y, hy⟩ := Option.isSome_iff_exists.mp (hq node List.mem_cons_self)
        refine Tree.eachKeepsOrder_singleton.trans ⟨?_, ?_⟩
        · intro h _ _ _ hr
          exact h hr
        · intro h hr hnew
          refine h y hy ?_ hr hnew
          intro heq
          rw [heq] at hy
          exact hnew hy
      | _ => exact iff_of_true trivial trivial
    have hnext : Keyed (c.apply op).tree.store := by
      rw [apply_tree]
      exact Tree.keyed_run hk _
    have hqueue : ∀ node, .updateQcHigh node ∈ ops →
        ((c.apply op).tree.store.lookup node.hash).isSome := by
      intro node hnode
      rw [apply_tree]
      exact Tree.isSome_run (hq node (List.mem_cons_of_mem _ hnode)) _
    unfold runWrites
    rw [Tree.eachKeepsOrder_append, hfirst, ← apply_tree]
    exact and_congr_right fun _ => ih hnext hqueue

theorem FreshStorage.ordered {s : HotstuffStorage K} (h : FreshStorage s) : s.tree.Ordered := by
  rw [h.tree_eq]
  intro k x hx hinit
  rcases HashMap.lookup_insert_cases hx with ⟨-, hx⟩ | hx
  · exact absurd hx hinit
  · rw [Finmap.lookup_empty] at hx
    cases hx

theorem FreshStorage.leafStored {s : HotstuffStorage K} (h : FreshStorage s) :
    s.tree.LeafStored := by
  rw [h.tree_eq]
  show (((∅ : BlockStore K).insert (initNodeHash K) (initNode K)).lookup (initNodeHash K)).isSome
  rw [Finmap.lookup_insert]
  rfl

namespace EventLoop

/-- The blocks that arrive in a step arrive in order, and a view is led in order. -/
def KeepsOrder (l : EventLoop K) (a : LoopAction K) : Prop :=
  Run.Each Core.apply Core.KeepsOrder l.core (l.ops a)

/-- Blocks are stored under their hash, and one is under the hash of the leaf and of every leaf in
the ready queue. -/
structure Stocked (l : EventLoop K) : Prop where
  keyed : Keyed l.tree.store
  leaf : l.tree.LeafStored
  queued : ∀ ctx node, .updateQCHigh ctx node ∈ l.pm.readyQueue →
    (l.tree.store.lookup node.hash).isSome

theorem Stocked.step {l : EventLoop K} (h : l.Stocked) (C : Codec K) (a : LoopAction K) :
    (step C l a).Stocked := by
  have hleaf : (EventLoop.step C l a).tree.LeafStored := by
    rw [step_tree]
    exact h.leaf.run _
  refine ⟨?_, hleaf, ?_⟩
  · rw [step_tree]
    exact Tree.keyed_run h.keyed _
  · intro ctx node hmem
    rcases step_queuesLeaf C l a ctx node hmem with hold | hnew
    · rw [step_tree]
      exact Tree.isSome_run (h.queued ctx node hold) _
    · rw [hnew]
      exact hleaf

theorem ordered_step_iff {l : EventLoop K} (h : l.tree.Ordered) (hs : l.Stocked) (C : Codec K)
    (a : LoopAction K) : Throughout C Tree.Ordered l a ↔ l.KeepsOrder a := by
  have hwrites : Run.Each Tree.write (fun t w => (t.write w).Ordered) l.tree (l.writes a) ↔
      l.tree.EachKeepsOrder (l.writes a) :=
    Run.each_iff h (Run.Each.of_forall (fun _ _ => trivial) _ _)
      (fun t w ht (_ : True) => t.ordered_write_iff ht w) (fun _ _ _ _ hw => hw)
  have hops : l.tree.EachKeepsOrder (l.writes a) ↔ l.KeepsOrder a := by
    refine Core.runWrites_keepsOrder_iff hs.keyed ?_
    intro node hnode
    obtain ⟨ctx, hmem⟩ := queued_of_mem_ops hnode
    exact hs.queued ctx node hmem
  rw [← hops, ← hwrites]
  constructor
  · intro hstep
    exact hstep.2
  · exact throughout_of_each h

/-- A replica that the pacemaker drives over a fresh storage starts with an ordered store. The
store stays so throughout a run exactly when the blocks of accepted proposals and branches, of
vote quorums, and of replaced leaves arrive in order, and views are led in order. -/
theorem heights_ordered_iff (C : Codec K) (id : ReplicaID) (elector : RoundRobinLeaderElector)
    (machine : Machine K) (hm : FreshStorage machine.storage) (signaturer : DefaultSignaturer K)
    (db : Database) (as : List (LoopAction K)) :
    (start (.new id elector machine signaturer) db).tree.Ordered ∧
      (Run.Each (step C) (Throughout C Tree.Ordered)
          (start (.new id elector machine signaturer) db) as ↔
        Run.Each (step C) KeepsOrder (start (.new id elector machine signaturer) db) as) := by
  have hstart : (start (.new id elector machine signaturer) db).tree.Ordered := by
    rw [start_tree]
    exact hm.ordered
  have hstocked : (start (.new id elector machine signaturer) db).Stocked := by
    refine ⟨hm.keyed, ?_, fun _ _ hmem => nomatch hmem⟩
    rw [start_tree]
    exact hm.leafStored
  refine ⟨hstart, ?_⟩
  exact Run.each_iff (I := fun l => l.tree.Ordered ∧ l.Stocked) ⟨hstart, hstocked⟩
    (Run.Each.of_forall (fun _ _ => trivial) _ _)
    (fun l a hl (_ : True) => ordered_step_iff hl.1 hl.2 C a)
    (fun l a hl _ hstep => ⟨hstep.1, hl.2.step C a⟩)

end EventLoop

namespace Symbolic

open EventLoop

instance (c : Core symbolic) (op : Op symbolic) : Decidable (c.KeepsOrder op) :=
  match op with
  | .event e => inferInstanceAs (Decidable (c.machine.InOrder e))
  | .updateQcHigh node =>
    inferInstanceAs (Decidable (∀ y ∈ c.storage.get node.hash, y ≠ node →
      c.storage.tree.Raises node → ArrivesInOrder c.storage.inMemQueue node))
  | .goto _ | .increaseView | .touch | .clean | .newView _ _ _ | .appendTc _ | .flush
  | .flusher => isTrue trivial

instance (l : EventLoop symbolic) (a : LoopAction symbolic) : Decidable (l.KeepsOrder a) :=
  inferInstanceAs (Decidable (Run.Each Core.apply Core.KeepsOrder l.core (l.ops a)))

/-- A block of height 2 on the first proposal, which it certifies. -/
def next1 : TreeNode symbolic := block 2 2 p1.hash (certFor p1)

/-- The leader of view 1 makes a proposal, receives the votes for it and accepts the next one. -/
def orderedRun : List (LoopAction symbolic) :=
  votedRun ++ round (.network oracle (.newProposal (ctxOf 1) next1)) 2

theorem ordered_on_orderedRun :
    (orderedRun.foldl (step codec) loop₀).tree.store.lookup p1.hash = some p1 ∧
      (orderedRun.foldl (step codec) loop₀).tree.store.lookup next1.hash = some next1 ∧
      Run.Each (step codec) (Throughout codec Tree.Ordered) loop₀ orderedRun := by
  have hfresh : FreshStorage (fresh 4 0).storage := .inMem _ _ _ _
  have hiff := (heights_ordered_iff codec (replicaId 0)
    ⟨["replica-0", "replica-1", "replica-2", "replica-3"]⟩ (fresh 4 0) hfresh (signaturer 4 0)
    createTables orderedRun).2
  have hvoted : Run.Each (step codec) KeepsOrder loop₀ votedRun := by decide +kernel
  have hnext : Run.Each (step codec) KeepsOrder (votedRun.foldl (step codec) loop₀)
      (round (.network oracle (.newProposal (ctxOf 1) next1)) 2) := by decide +kernel
  exact ⟨by decide +kernel, by decide +kernel, hiff.mpr (Run.each_append.mpr ⟨hvoted, hnext⟩)⟩

/-- A block of height 5 on the genesis block, and one that certifies it. -/
def high5 : TreeNode symbolic := block 5 5 (initNodeHash symbolic) (initQc symbolic)

@[inherit_doc high5]
def high6 : TreeNode symbolic := block 6 6 high5.hash (certFor high5)

/-- The leader of view 1 receives a branch with these two before it makes its proposal. -/
def aheadBranchRun : List (LoopAction symbolic) :=
  round (.network oracle (.branchSyncResponse (ctxOf 1) ⟨0, batchSize⟩ (some [high5, high6])
    .success)) 1 ++ newViews 1

/-- It is still in view 1, so its proposal has height 1, and a parent of height 5. -/
theorem not_ordered_after_branch :
    FreshStorage (fresh 4 0).storage ∧
      ¬ ((aheadBranchRun ++ proposal 1).foldl (step codec) loop₀).tree.Ordered := by
  refine ⟨.inMem _ _ _ _, ?_⟩
  generalize ht : ((aheadBranchRun ++ proposal 1).foldl (step codec) loop₀).tree = t
  have hstored : t.store.lookup t.leaf.hash = some t.leaf := by
    rw [← ht]
    decide +kernel
  have hinit : t.leaf ≠ initNode symbolic := by
    rw [← ht]
    decide +kernel
  have hparent : t.store.lookup t.leaf.parent = some high5 ∧ t.leaf.height = 1 := by
    rw [← ht]
    decide +kernel
  intro h
  have hlt := (h _ _ hstored hinit).parent high5 hparent.1
  rw [hparent.2] at hlt
  exact absurd hlt (by decide)

end Symbolic

end HotstuffConsensus
