import HotstuffConsensus.Growth
import HotstuffConsensus.Lib.Run
import HotstuffConsensus.ThresholdScheme

/-!
# A replica as the pacemaker drives it

The pacemaker hands every event to the machine and queues what the machine returns. Of
the queued results one acts on the machine again: on `Ready::UpdateQCHigh(node)` the
pacemaker calls `LivenessStorage::update_qc_high(node, node.justify)`, at a later time and
with the leaf of the moment the result was produced.

A `Driver` is the machine with all nodes produced that way; they are consumed in any
order. `Holds` is the part of the state that needs no assumption on the run: blocks are
stored under their hash, and the leaf and the produced nodes are stored.
-/

namespace HotstuffConsensus

open Lib Relation

variable {K : Crypto}

structure Driver (K : Crypto) where
  machine : Machine K
  produced : List (TreeNode K)

/-- The steps of a driven replica; `ready i` processes the `i`-th node produced. -/
inductive Drive (K : Crypto) where
  | event (e : SafetyEvent K)
  | viewChange (leader : ReplicaID) (view : ViewNumber)
  | increaseView (view : ViewNumber)
  | ready (i : ℕ)

/-- The node of a `Ready::UpdateQCHigh`. -/
def producedNode : Option (Except SafetyErr (Ready K)) → List (TreeNode K)
  | some (.ok (.updateQCHigh _ node)) => [node]
  | _ => []

namespace Driver

/-- The call a step makes. -/
def callOf (d : Driver K) : Drive K → Option (Call K)
  | .event e => some (.event e)
  | .viewChange leader view => some (.viewChange leader view)
  | .increaseView view => some (.increaseView view)
  | .ready i => d.produced[i]?.map fun node => .updateQcHigh node node.justify

def perform (d : Driver K) (c : Call K) : Driver K :=
  ⟨(d.machine.call c).1, d.produced ++ producedNode (d.machine.call c).2⟩

def step (d : Driver K) (a : Drive K) : Driver K :=
  match d.callOf a with
  | some c => d.perform c
  | none => d

/-- The blocks that enter with a step: those it carries, or the one a beat makes. -/
def newBlocks (d : Driver K) : Drive K → List (TreeNode K)
  | .event (.newTx cmds) => [d.machine.makeLeaf cmds]
  | .event e => (Call.event e).nodes
  | _ => []

def storage (d : Driver K) : HotstuffStorage K := d.machine.storage

/-- The stored block that `qc_high` names. -/
def qcNode (d : Driver K) : Option (TreeNode K) := d.storage.get d.storage.state.qcHigh.node

end Driver

/-- SHA-256 does not collide on the blocks of `B`: equal hashes have equal inputs. -/
def CollisionFree (B : Set (TreeNode K)) : Prop :=
  ∀ a ∈ B, ∀ b ∈ B, a.hash = b.hash → a.hashInput = b.hashInput

theorem CollisionFree.mono {B B' : Set (TreeNode K)} (h : CollisionFree B') (hsub : B ⊆ B') :
    CollisionFree B := by
  intro a ha b hb
  exact h a (hsub ha) b (hsub hb)

/-! ## What is always stored -/

/-- Blocks are stored under their hash and come from `B`, and so does the leaf, which is
stored. -/
structure HotstuffStorage.Holds (B : Set (TreeNode K)) (s : HotstuffStorage K) : Prop where
  keyed : Keyed s.inMemQueue
  stored : ∀ k x, s.inMemQueue.lookup k = some x → x ∈ B
  leaf_mem : s.state.leaf ∈ B
  leaf_stored : (s.inMemQueue.lookup s.state.leaf.hash).isSome

namespace HotstuffStorage.Holds

variable {B : Set (TreeNode K)} {s s' : HotstuffStorage K}

/-- A block of `B` never overwrites one with other hashed fields. -/
theorem fits (hB : CollisionFree B) (h : s.Holds B) {x : TreeNode K} (hx : x ∈ B) :
    Fits s.inMemQueue x := by
  intro y hy
  exact hB y (h.stored _ y hy) x hx (h.keyed _ y hy)

theorem isSome_insert {store : BlockStore K} {k : NodeHash} (h : (store.lookup k).isSome)
    (k' : NodeHash) (x : TreeNode K) : ((store.insert k' x).lookup k).isSome := by
  rw [HashMap.lookup_insert_eq_ite]
  split
  · rfl
  · exact h

/-- A step that leaves store and leaf alone. -/
theorem quiet (h : s.Holds B) (hq : s'.inMemQueue = s.inMemQueue)
    (hl : s'.state.leaf = s.state.leaf) : s'.Holds B := by
  refine ⟨?_, ?_, ?_, ?_⟩
  · rw [hq]; exact h.keyed
  · rw [hq]; exact h.stored
  · rw [hl]; exact h.leaf_mem
  · rw [hq, hl]; exact h.leaf_stored

/-- A write of a block of `B`, which may become the leaf. -/
theorem write (h : s.Holds B) {x : TreeNode K} (hx : x ∈ B)
    (hq : s'.inMemQueue = s.inMemQueue.insert x.hash x)
    (hl : s'.state.leaf = s.state.leaf ∨ s'.state.leaf = x) : s'.Holds B := by
  have hstored : ∀ k y, s'.inMemQueue.lookup k = some y → y ∈ B := by
    intro k y hy
    rw [hq] at hy
    rcases HashMap.lookup_insert_cases hy with ⟨-, hyx⟩ | hy
    · rw [hyx]
      exact hx
    · exact h.stored k y hy
  refine ⟨by rw [hq]; exact h.keyed.insert x, hstored, ?_, ?_⟩
  · rcases hl with hl | hl <;> rw [hl]
    · exact h.leaf_mem
    · exact hx
  · rw [hq]
    rcases hl with hl | hl <;> rw [hl]
    · exact isSome_insert h.leaf_stored _ _
    · rw [Finmap.lookup_insert]
      rfl

theorem grows {N : TreeNode K → Prop} (hN : ∀ x, N x → x ∈ B) (h : s.Holds B)
    (hg : Grows N s s') : s'.Holds B := by
  cases hg with
  | quiet hq hl _ => exact h.quiet hq hl
  | append p hp hq hl _ => exact h.write (hN p hp) hq (Or.inl hl)
  | certify node qc hn _ hq hl _ => exact h.write (h.stored _ node hn) hq (Or.inr hl)

theorem grows_trans {N : TreeNode K → Prop} (hN : ∀ x, N x → x ∈ B) (h : s.Holds B)
    (hg : ReflTransGen (Grows N) s s') : s'.Holds B := by
  induction hg with
  | refl => exact h
  | tail _ hstep ih => exact ih.grows hN hstep

end HotstuffStorage.Holds

/-! ## The stored keys only grow -/

theorem Grows.isSome_lookup {N : TreeNode K → Prop} {s s' : HotstuffStorage K}
    (hg : Grows N s s') {k : NodeHash} (h : (s.inMemQueue.lookup k).isSome) :
    (s'.inMemQueue.lookup k).isSome := by
  cases hg with
  | quiet hq _ _ => rw [hq]; exact h
  | append _ _ hq _ _ => rw [hq]; exact HotstuffStorage.Holds.isSome_insert h _ _
  | certify _ _ _ _ hq _ _ => rw [hq]; exact HotstuffStorage.Holds.isSome_insert h _ _

theorem Grows.isSome_lookup_trans {N : TreeNode K → Prop} {s s' : HotstuffStorage K}
    (hg : ReflTransGen (Grows N) s s') {k : NodeHash} (h : (s.inMemQueue.lookup k).isSome) :
    (s'.inMemQueue.lookup k).isSome := by
  induction hg with
  | refl => exact h
  | tail _ hstep ih => exact hstep.isSome_lookup ih

/-- `Ready::UpdateQCHigh` carries the leaf after the call. -/
theorem Machine.producedNode_call (m : Machine K) (c : Call K) {node : TreeNode K}
    (h : node ∈ producedNode (m.call c).2) : node = (m.call c).1.storage.state.leaf := by
  match c with
  | .event .requestSnapshot => cases h
  | .event (.recvProposal ctx prop) =>
    have hcall : (m.call (.event (.recvProposal ctx prop))).2
        = some (m.onRecvProposal ctx prop prop.justify).2 := rfl
    rw [hcall, onRecvProposal_eq] at h
    cases hv : m.verifyProposal prop.justify with
    | error e => rw [hv] at h; cases h
    | ok r =>
      rw [hv] at h
      dsimp only at h
      split at h <;> cases h
  | .event (.recvSign ctx prop sign) =>
    have hcall : (m.call (.event (.recvSign ctx prop sign))).2
        = some (m.onRecvVote ctx prop sign).2 := rfl
    rw [hcall] at h
    rcases m.onRecvVote_output ctx prop sign with ⟨e, hout⟩ | hout | ⟨v, hout⟩
    · rw [hout] at h
      cases h
    · rw [hout] at h
      cases h
    · rw [hout] at h
      cases h
  | .event (.newTx cmds) => cases h
  | .event (.recvNewViewMsg ctx qc) => exact List.mem_singleton.mp h
  | .event (.newLeader ctx leader) =>
    obtain ⟨l, heq⟩ := m.newLeader_eq ctx leader
    have hcall : (m.call (.event (.newLeader ctx leader))).2
        = some (m.processSafetyEvent (.newLeader ctx leader)).2 := rfl
    rw [hcall, heq] at h
    cases h
  | .event (.branchSync ctx branch) => cases h
  | .event (.viewChange leader view) => cases h
  | .event (.propose ctx node qc) => cases h
  | .viewChange leader view =>
    have hcall : (m.call (.viewChange leader view)) =
        ((m.onViewChange leader view).1, some (m.onViewChange leader view).2) := rfl
    rw [hcall] at h ⊢
    rcases m.onViewChange_cases leader view with heq | ⟨m', -, heq⟩
    · rw [heq] at h
      cases h
    · rw [heq] at h ⊢
      exact List.mem_singleton.mp h
  | .increaseView v => cases h
  | .updateQcHigh node qc => cases h

/-! ## What a step can do -/

namespace Driver

/-- The two steps that hand `update_qc_high` a block and a certificate which need not name
it: a vote that completes a quorum, and an `UpdateQCHigh` event. Both only act when the
block is above that of `qc_high`. -/
inductive Installs (d : Driver K) : Drive K → TreeNode K → GenericQC K → Prop
  | quorum {ctx : Context} {prop : TreeNode K} {sign : SignKit K} {c : K.CombinedSign}
      (hquorum : d.machine.voteQuorum ctx prop sign = some c) (hr : d.storage.Raises prop) :
      Installs d (.event (.recvSign ctx prop sign)) prop (d.machine.formQc c)
  | ready {i : ℕ} {node : TreeNode K} (hnode : d.produced[i]? = some node)
      (hr : d.storage.Raises node) : Installs d (.ready i) node node.justify

/-- The effect of a step on store, leaf and `qc_high`. -/
inductive Effect (d : Driver K) (a : Drive K) (s' : HotstuffStorage K) : Prop
  /-- Writes listed by `Grows`, of blocks that enter with the step. -/
  | grows (hno : ∀ node qc, ¬ Installs d a node qc)
      (hg : ReflTransGen (Grows (· ∈ d.newBlocks a)) d.storage s')
  /-- The leader makes a proposal. -/
  | beat (cmds : List Txn) (ha : a = .event (.newTx cmds))
      (hq : s'.inMemQueue = d.storage.inMemQueue.insert (d.machine.makeLeaf cmds).hash
        (d.machine.makeLeaf cmds))
      (hl : s'.state.leaf = d.machine.makeLeaf cmds)
      (hc : s'.state.qcHigh = d.storage.state.qcHigh)
  /-- A block and a certificate are installed together. -/
  | install (node : TreeNode K) (qc : GenericQC K) (hi : Installs d a node qc)
      (hq : s'.inMemQueue = d.storage.inMemQueue.insert node.hash node)
      (hl : s'.state.leaf = node) (hc : s'.state.qcHigh = qc)

/-- The effect of a vote. -/
theorem effect_recvSign (d : Driver K) (ctx : Context) (prop : TreeNode K) (sign : SignKit K) :
    Effect d (.event (.recvSign ctx prop sign))
      (d.machine.onRecvVote ctx prop sign).1.storage := by
  rcases d.machine.onRecvVote_cases ctx prop sign with ⟨c, hquorum, -, hs⟩ | ⟨hnone, -, hs⟩
  · rw [hs]
    rcases HotstuffStorage.updateQcHigh_cases d.machine.storage prop (d.machine.formQc c) with
      ⟨hr, hsame⟩ | ⟨hr, hst, hq⟩
    · rw [hsame]
      refine .grows ?_ ReflTransGen.refl
      intro node qc hi
      cases hi with
      | quorum _ hr' => exact hr hr'
    · exact .install prop _ (.quorum hquorum hr) hq (by rw [hst]) (by rw [hst])
  · rw [hs]
    refine .grows ?_ ReflTransGen.refl
    intro node qc hi
    cases hi with
    | quorum hquorum _ =>
      rw [hnone] at hquorum
      cases hquorum

/-- The effect of an `UpdateQCHigh` event. -/
theorem effect_ready (d : Driver K) {i : ℕ} {node : TreeNode K}
    (hnode : d.produced[i]? = some node) :
    Effect d (.ready i) (d.machine.storage.livenessUpdateQcHigh node node.justify) := by
  unfold HotstuffStorage.livenessUpdateQcHigh
  rcases HotstuffStorage.updateQcHigh_cases d.machine.storage node node.justify with
    ⟨hr, hsame⟩ | ⟨hr, hst, hq⟩
  · rw [hsame]
    refine .grows ?_ (ReflTransGen.single (.quiet rfl rfl rfl))
    intro node' qc hi
    cases hi with
    | ready hnode' hr' =>
      rw [hnode] at hnode'
      obtain rfl := Option.some.inj hnode'
      exact hr hr'
  · exact .install node _ (.ready hnode hr) hq (by rw [HotstuffStorage.setDirty_state, hst])
      (by rw [HotstuffStorage.setDirty_state, hst])

/-- The effect of a call that is neither a vote, a beat nor an `UpdateQCHigh` event. -/
theorem effect_ordinary (d : Driver K) {a : Drive K} {c : Call K} (hc : ¬ c.Special)
    (hblocks : d.newBlocks a = c.nodes) (hno : ∀ node qc, ¬ Installs d a node qc) :
    Effect d a (d.machine.call c).1.storage := by
  refine .grows hno ?_
  rw [hblocks]
  exact d.machine.call_grows c hc

/-- An `UpdateQCHigh` event that was produced is performed; there is none otherwise. -/
theorem step_ready_cases (d : Driver K) (i : ℕ) :
    (d.produced[i]? = none ∧ d.step (.ready i) = d) ∨
      ∃ node, d.produced[i]? = some node ∧
        d.step (.ready i) = d.perform (.updateQcHigh node node.justify) := by
  have hcall : d.callOf (.ready i) =
      d.produced[i]?.map fun node => .updateQcHigh node node.justify := rfl
  unfold step
  rw [hcall]
  cases d.produced[i]? with
  | none => exact Or.inl ⟨rfl, rfl⟩
  | some node => exact Or.inr ⟨node, rfl, rfl⟩

/-- Every step has one of the three effects. -/
theorem step_effect (d : Driver K) (a : Drive K) : Effect d a (d.step a).storage := by
  match a with
  | .event (.recvSign ctx prop sign) => exact effect_recvSign d ctx prop sign
  | .event (.newTx cmds) => exact .beat cmds rfl rfl rfl rfl
  | .ready i =>
    rcases d.step_ready_cases i with ⟨hnone, hstep⟩ | ⟨node, hnode, hstep⟩
    · rw [hstep]
      refine .grows ?_ ReflTransGen.refl
      intro node qc hi
      cases hi with
      | ready hnode _ =>
        rw [hnone] at hnode
        cases hnode
    · rw [hstep]
      exact effect_ready d hnode
  | .viewChange leader view =>
    exact effect_ordinary (c := .viewChange leader view) d id rfl (fun _ _ hi => nomatch hi)
  | .increaseView view =>
    exact effect_ordinary (c := .increaseView view) d id rfl (fun _ _ hi => nomatch hi)
  | .event .requestSnapshot =>
    exact effect_ordinary (c := .event .requestSnapshot) d id rfl (fun _ _ hi => nomatch hi)
  | .event (.recvProposal ctx prop) =>
    exact effect_ordinary (c := .event (.recvProposal ctx prop)) d id rfl
      (fun _ _ hi => nomatch hi)
  | .event (.recvNewViewMsg ctx qc) =>
    exact effect_ordinary (c := .event (.recvNewViewMsg ctx qc)) d id rfl
      (fun _ _ hi => nomatch hi)
  | .event (.newLeader ctx leader) =>
    exact effect_ordinary (c := .event (.newLeader ctx leader)) d id rfl
      (fun _ _ hi => nomatch hi)
  | .event (.branchSync ctx branch) =>
    exact effect_ordinary (c := .event (.branchSync ctx branch)) d id rfl
      (fun _ _ hi => nomatch hi)
  | .event (.viewChange leader view) =>
    exact effect_ordinary (c := .event (.viewChange leader view)) d id rfl
      (fun _ _ hi => nomatch hi)
  | .event (.propose ctx node qc) =>
    exact effect_ordinary (c := .event (.propose ctx node qc)) d id rfl
      (fun _ _ hi => nomatch hi)

/-- What a step adds to the produced nodes is the leaf it leaves behind. -/
theorem step_produced {d : Driver K} {a : Drive K} {x : TreeNode K}
    (hx : x ∈ (d.step a).produced) :
    x ∈ d.produced ∨ x = (d.step a).storage.state.leaf := by
  unfold step at hx ⊢
  cases hc : d.callOf a with
  | none =>
    rw [hc] at hx
    exact Or.inl hx
  | some c =>
    rw [hc] at hx
    rcases List.mem_append.mp hx with hx | hx
    · exact Or.inl hx
    · exact Or.inr (d.machine.producedNode_call c hx)

end Driver

/-! ## The invariant of the driver -/

namespace Driver

/-- `Holds`, and the produced nodes are stored too. -/
structure Holds (B : Set (TreeNode K)) (d : Driver K) : Prop where
  storage : d.storage.Holds B
  produced_mem : ∀ x ∈ d.produced, x ∈ B
  produced_stored : ∀ x ∈ d.produced, (d.storage.inMemQueue.lookup x.hash).isSome

variable {B : Set (TreeNode K)}

/-- The blocks of a step come from `B`. -/
def Within (B : Set (TreeNode K)) (d : Driver K) (a : Drive K) : Prop :=
  ∀ x ∈ d.newBlocks a, x ∈ B

/-- Keys are never removed from the store. -/
theorem Effect.isSome_lookup {d : Driver K} {a : Drive K} {s' : HotstuffStorage K}
    (he : Effect d a s') {k : NodeHash} (h : (d.storage.inMemQueue.lookup k).isSome) :
    (s'.inMemQueue.lookup k).isSome := by
  have hinsert := fun x : TreeNode K => HotstuffStorage.Holds.isSome_insert h x.hash x
  cases he with
  | grows _ hg => exact Grows.isSome_lookup_trans hg h
  | beat cmds _ hq _ _ => rw [hq]; exact hinsert _
  | install node _ _ hq _ _ => rw [hq]; exact hinsert node

/-- The block a step makes or installs comes from `B`. -/
theorem Installs.mem {d : Driver K} {a : Drive K} {node : TreeNode K} {qc : GenericQC K}
    (hi : Installs d a node qc) (h : d.Holds B) (hw : Within B d a) : node ∈ B := by
  cases hi with
  | quorum _ _ => exact hw _ (List.mem_singleton.mpr rfl)
  | ready hnode _ => exact h.produced_mem _ (List.mem_of_getElem? hnode)

theorem makeLeaf_mem {d : Driver K} {cmds : List Txn} (hw : Within B d (.event (.newTx cmds))) :
    d.machine.makeLeaf cmds ∈ B :=
  hw _ (List.mem_singleton.mpr rfl)

theorem Effect.holds {d : Driver K} {a : Drive K} {s' : HotstuffStorage K}
    (he : Effect d a s') (h : d.Holds B) (hw : Within B d a) : s'.Holds B := by
  cases he with
  | grows _ hg => exact h.storage.grows_trans hw hg
  | beat cmds ha hq hl _ =>
    subst ha
    exact h.storage.write (makeLeaf_mem hw) hq (Or.inr hl)
  | install node _ hi hq hl _ => exact h.storage.write (hi.mem h hw) hq (Or.inr hl)

/-- The invariant is kept by every step whose blocks come from `B`. -/
theorem step_holds {d : Driver K} {a : Drive K} (h : d.Holds B) (hw : Within B d a) :
    (d.step a).Holds B := by
  have he := step_effect d a
  have hst := he.holds h hw
  refine ⟨hst, ?_, ?_⟩
  · intro x hx
    rcases step_produced hx with hx | hx
    · exact h.produced_mem x hx
    · rw [hx]
      exact hst.leaf_mem
  · intro x hx
    rcases step_produced hx with hx | hx
    · exact he.isSome_lookup (h.produced_stored x hx)
    · rw [hx]
      exact hst.leaf_stored

/-- A replica over a fresh storage, with nothing produced yet. -/
theorem fresh_holds {m : Machine K} (hm : FreshStorage m.storage) (hinit : initNode K ∈ B) :
    (⟨m, []⟩ : Driver K).Holds B := by
  have hleaf : m.storage.state.leaf = initNode K := hm.leaf_eq
  refine ⟨⟨hm.keyed, ?_, ?_, ?_⟩, ?_, ?_⟩
  · intro k x hx
    have hx' : ((∅ : BlockStore K).insert (initNodeHash K) (initNode K)).lookup k = some x := by
      rw [← hm.inMemQueue_eq]
      exact hx
    rcases HashMap.lookup_insert_cases hx' with ⟨-, rfl⟩ | hx'
    · exact hinit
    · rw [Finmap.lookup_empty] at hx'
      cases hx'
  · show m.storage.state.leaf ∈ B
    rw [hleaf]
    exact hinit
  · show (m.storage.inMemQueue.lookup m.storage.state.leaf.hash).isSome
    rw [hleaf, hm.inMemQueue_eq, hash_initNode, Finmap.lookup_insert]
    rfl
  · intro x hx
    cases hx
  · intro x hx
    cases hx

end Driver

namespace Symbolic

open Driver

/-! Runs that are evaluated. -/

/-- Replica 0 of four, with nothing produced. -/
def driven : Driver symbolic := ⟨fresh 4 0, []⟩

/-- A beat in view 1, and one vote for it. -/
def beatRun : List (Drive symbolic) :=
  [.increaseView 1, .event (.newTx [⟨[1]⟩]), .event (.recvSign (ctxOf 1) p1 (voteBy 1 p1))]

/-- The vote that completes the quorum, and a `NewView` message with the certificate for
the proposal. -/
def certifiedRun : List (Drive symbolic) :=
  beatRun ++ [.event (.recvSign (ctxOf 2) p1 (voteBy 2 p1))] ++
    [.event (.recvNewViewMsg (ctxOf 3) (certFor p1))]

/-- The `UpdateQCHigh` event of that message. -/
def goodRun : List (Drive symbolic) := certifiedRun ++ [.ready 0]

/-- The blocks of that run. -/
def goodBlocks : Set (TreeNode symbolic) := {x | x ∈ [initNode symbolic, p1]}

theorem collisionFree_goodBlocks : CollisionFree goodBlocks := by
  have h : ∀ a ∈ [initNode symbolic, p1], ∀ b ∈ [initNode symbolic, p1],
      a.hash = b.hash → a.hashInput = b.hashInput := by decide +kernel
  exact h

theorem within_goodRun : Run.Each step (Within goodBlocks) driven goodRun := by
  have hbeat : ∀ x ∈ (driven.step (.increaseView 1)).newBlocks (.event (.newTx [⟨[1]⟩])),
      x ∈ [initNode symbolic, p1] := by decide +kernel
  have hvote : ∀ x ∈ [p1], x ∈ [initNode symbolic, p1] := by decide +kernel
  have hnone : ∀ x ∈ ([] : List (TreeNode symbolic)), x ∈ [initNode symbolic, p1] := by
    decide +kernel
  exact ⟨hnone, hbeat, hvote, hvote, hnone, hnone, trivial⟩

/-- The event carries the block `qc_high` names already. -/
theorem not_raises_certifiedRun {node : TreeNode symbolic}
    (hnode : (certifiedRun.foldl step driven).produced[0]? = some node) :
    ¬ (certifiedRun.foldl step driven).storage.Raises node := by
  have hprod : (certifiedRun.foldl step driven).produced[0]? = some p1 := by decide +kernel
  have hqc : (certifiedRun.foldl step driven).qcNode = some p1 := by decide +kernel
  rintro ⟨q, hq, hlt⟩
  have hnode' : p1 = node := Option.some.inj (hprod.symm.trans hnode)
  have hq' : p1 = q := Option.some.inj (hqc.symm.trans hq)
  rw [← hnode', ← hq'] at hlt
  exact lt_irrefl _ hlt

/-- Two beats, and then the votes for the first: the one that completes its quorum is still
to come. -/
def lateRun : List (Drive symbolic) :=
  [.increaseView 1, .event (.newTx [⟨[1]⟩]), .increaseView 2, .event (.newTx [⟨[2]⟩]),
    .event (.recvSign (ctxOf 1) p1 (voteBy 1 p1))]

end Symbolic

end HotstuffConsensus
