import HotstuffConsensus.Storage
import Mathlib.Data.List.Basic
import Mathlib.Logic.Relation

/-!
# What the storage operations change

One lemma per operation and observed field, so that nothing below unfolds a storage
operation, and the two facts everything rests on:

* `updateQcHigh` either does nothing or installs certificate, leaf and `vheight`
  together; `Raises` is the test that decides which;
* `Reaches`, ancestry by parent hashes through stored blocks, survives a write under a
  hash that collides with nothing (`Fits`).
-/

namespace HotstuffConsensus

open Lib

variable {K : Crypto}

/-! ## Injectivity of the encodings -/

theorem beBytes_injective {a b : UInt64} (h : beBytes a = beBytes b) : a = b := by
  have hbyte : ∀ (v : UInt64) (k : UInt64), k.toNat < 64 →
      (v >>> k).toUInt8.toNat = v.toNat / 2 ^ k.toNat % 256 := by
    intro v k hk
    rw [UInt64.toNat_toUInt8, UInt64.toNat_shiftRight, Nat.mod_eq_of_lt hk, Nat.shiftRight_eq_div_pow]
  have hlow : ∀ v : UInt64, v.toUInt8.toNat = v.toNat % 256 := fun v => UInt64.toNat_toUInt8 v
  simp only [beBytes, List.cons.injEq, and_true] at h
  obtain ⟨h7, h6, h5, h4, h3, h2, h1, h0⟩ := h
  replace h7 := congrArg UInt8.toNat h7
  replace h6 := congrArg UInt8.toNat h6
  replace h5 := congrArg UInt8.toNat h5
  replace h4 := congrArg UInt8.toNat h4
  replace h3 := congrArg UInt8.toNat h3
  replace h2 := congrArg UInt8.toNat h2
  replace h1 := congrArg UInt8.toNat h1
  replace h0 := congrArg UInt8.toNat h0
  rw [hbyte _ _ (by decide), hbyte _ _ (by decide)] at h7 h6 h5 h4 h3 h2 h1
  rw [hlow, hlow] at h0
  have ha := a.toNat_lt
  have hb := b.toNat_lt
  apply UInt64.toNat_inj.mp
  simp only [show (56 : UInt64).toNat = 56 from rfl, show (48 : UInt64).toNat = 48 from rfl,
    show (40 : UInt64).toNat = 40 from rfl, show (32 : UInt64).toNat = 32 from rfl,
    show (24 : UInt64).toNat = 24 from rfl, show (16 : UInt64).toNat = 16 from rfl,
    show (8 : UInt64).toNat = 8 from rfl] at h7 h6 h5 h4 h3 h2 h1
  omega

/-- The hashed bytes determine the concatenated transactions, the height and the
parent. -/
theorem hashInput_inj {a b : TreeNode K} (h : a.hashInput = b.hashInput) :
    a.txs.flatMap Txn.cont = b.txs.flatMap Txn.cont ∧ a.height = b.height ∧
      a.parent = b.parent := by
  unfold TreeNode.hashInput at h
  obtain ⟨h1, hp⟩ := List.append_inj' h (by simp)
  obtain ⟨ht, hh⟩ := List.append_inj' h1 (by simp [length_beBytes])
  exact ⟨ht, beBytes_injective hh, List.Vector.toList_injective hp⟩

/-- The signed bytes determine the hashed ones, and which block the justify names. -/
theorem toBeBytes_inj {a b : TreeNode K} (h : a.toBeBytes = b.toBeBytes) :
    a.hashInput = b.hashInput ∧ a.justify.view = b.justify.view ∧
      a.justify.node = b.justify.node := by
  unfold TreeNode.toBeBytes at h
  rw [List.append_assoc, List.append_assoc, List.append_assoc, List.append_assoc] at h
  obtain ⟨hh, h⟩ := List.append_inj h (by simp [length_beBytes])
  obtain ⟨hj, h⟩ := List.append_inj h (by simp [length_toBeBytes_qc])
  obtain ⟨hp, ht⟩ := List.append_inj h (by simp)
  unfold GenericQC.toBeBytes at hj
  rw [List.append_assoc, List.append_assoc] at hj
  obtain ⟨hv, hj⟩ := List.append_inj hj (by simp [length_beBytes])
  obtain ⟨hn, -⟩ := List.append_inj hj (by simp)
  refine ⟨?_, beBytes_injective hv, List.Vector.toList_injective hn⟩
  unfold TreeNode.hashInput
  rw [ht, hh, hp]

namespace HotstuffStorage

variable (s : HotstuffStorage K)

/-! ## Fields after an operation -/

@[simp] theorem setDirty_state : s.setDirty.state = s.state := rfl
@[simp] theorem setDirty_inMemQueue : s.setDirty.inMemQueue = s.inMemQueue := rfl

@[simp] theorem insert_state (h : NodeHash) (x : TreeNode K) : (s.insert h x).state = s.state := rfl
@[simp] theorem insert_inMemQueue (h : NodeHash) (x : TreeNode K) :
    (s.insert h x).inMemQueue = s.inMemQueue.insert h x := rfl

@[simp] theorem appendNewNode_state (x : TreeNode K) : (s.appendNewNode x).state = s.state := rfl
@[simp] theorem appendNewNode_inMemQueue (x : TreeNode K) :
    (s.appendNewNode x).inMemQueue = s.inMemQueue.insert x.hash x := rfl

@[simp] theorem appendNewQc_state (qc : GenericQC K) : (s.appendNewQc qc).state = s.state := rfl
@[simp] theorem appendNewQc_inMemQueue (qc : GenericQC K) :
    (s.appendNewQc qc).inMemQueue = s.inMemQueue := rfl

@[simp] theorem updateLeaf_state (x : TreeNode K) :
    (s.updateLeaf x).state = { s.state with vheight := x.height, leaf := x } := rfl
@[simp] theorem updateLeaf_inMemQueue (x : TreeNode K) :
    (s.updateLeaf x).inMemQueue = s.inMemQueue.insert x.hash x := rfl

@[simp] theorem updateLockedNode_state (x : TreeNode K) :
    (s.updateLockedNode x).state = { s.state with bLocked := x } := rfl
@[simp] theorem updateLockedNode_inMemQueue (x : TreeNode K) :
    (s.updateLockedNode x).inMemQueue = s.inMemQueue := rfl

@[simp] theorem increaseView_state (v : ViewNumber) : (s.increaseView v).state =
    { s.state with currentView := max s.state.currentView v } := rfl
@[simp] theorem increaseView_inMemQueue (v : ViewNumber) :
    (s.increaseView v).inMemQueue = s.inMemQueue := rfl

@[simp] theorem updateVheight_state (v : ViewNumber) : (s.updateVheight v).state =
    { s.state with vheight := max s.state.vheight v } := rfl
@[simp] theorem updateVheight_inMemQueue (v : ViewNumber) :
    (s.updateVheight v).inMemQueue = s.inMemQueue := rfl

@[simp] theorem commit_inMemQueue (x : TreeNode K) :
    (s.commit x).inMemQueue = s.inMemQueue := by
  unfold commit
  split <;> rfl

/-- `commit` touches the committed height and block only. -/
theorem commit_state (x : TreeNode K) : (s.commit x).state =
    if x.height ≤ s.state.committedHeight then s.state
    else { s.state with committedHeight := x.height, lastCommit := x } := by
  unfold commit
  split <;> rfl

/-- Timeout certificates touch neither the consensus state nor the block store. -/
theorem appendTc_frame (tc : TimeoutCertificate K) :
    (s.appendTc tc).1.state = s.state ∧ (s.appendTc tc).1.inMemQueue = s.inMemQueue := by
  have hcompress : ∀ s : HotstuffStorage K,
      s.compressTc.1.state = s.state ∧ s.compressTc.1.inMemQueue = s.inMemQueue := by
    intro s
    unfold compressTc
    dsimp only
    split
    · exact ⟨rfl, rfl⟩
    · split <;> exact ⟨rfl, rfl⟩
  unfold appendTc
  dsimp only
  rw [(hcompress _).1, (hcompress _).2]
  split <;> exact ⟨rfl, rfl⟩

theorem appendTc_state (tc : TimeoutCertificate K) : (s.appendTc tc).1.state = s.state :=
  (s.appendTc_frame tc).1

/-- Neither does a flush. -/
theorem asyncFlush_frame : s.asyncFlush.state = s.state ∧ s.asyncFlush.inMemQueue = s.inMemQueue := by
  unfold asyncFlush
  split
  · split <;> exact ⟨rfl, rfl⟩
  · exact ⟨rfl, rfl⟩

/-! ## `update_qc_high` -/

variable {s}

/-- The guard of `update_qc_high`: the block of the current `qc_high` is stored and lower
than `node`. -/
def Raises (s : HotstuffStorage K) (node : TreeNode K) : Prop :=
  ∃ qcNode, s.get s.state.qcHigh.node = some qcNode ∧ qcNode.height < node.height

theorem updateQcHigh_of_raises {node : TreeNode K} (qc : GenericQC K) (h : s.Raises node) :
    (s.updateQcHigh node qc).state =
        { s.state with qcHigh := qc, vheight := node.height, leaf := node } ∧
      (s.updateQcHigh node qc).inMemQueue = s.inMemQueue.insert node.hash node := by
  obtain ⟨qcNode, hq, hlt⟩ := h
  unfold updateQcHigh
  rw [hq]
  dsimp only
  rw [if_pos hlt]
  exact ⟨rfl, rfl⟩

theorem updateQcHigh_of_not_raises {node : TreeNode K} {qc : GenericQC K} (h : ¬ s.Raises node) :
    s.updateQcHigh node qc = s := by
  unfold updateQcHigh
  cases hq : s.get s.state.qcHigh.node with
  | none => rfl
  | some qcNode =>
    dsimp only
    rw [if_neg fun hlt => h ⟨qcNode, hq, hlt⟩]

/-- What `update_qc_high` can do: nothing, or raise. -/
theorem updateQcHigh_cases (s : HotstuffStorage K) (node : TreeNode K) (qc : GenericQC K) :
    (¬ s.Raises node ∧ s.updateQcHigh node qc = s) ∨
    (s.Raises node ∧
      (s.updateQcHigh node qc).state =
        { s.state with qcHigh := qc, vheight := node.height, leaf := node } ∧
      (s.updateQcHigh node qc).inMemQueue = s.inMemQueue.insert node.hash node) := by
  by_cases h : s.Raises node
  · exact Or.inr ⟨h, updateQcHigh_of_raises qc h⟩
  · exact Or.inl ⟨h, updateQcHigh_of_not_raises h⟩

@[simp] theorem updateQcHigh_bLocked (s : HotstuffStorage K) (node : TreeNode K)
    (qc : GenericQC K) : (s.updateQcHigh node qc).state.bLocked = s.state.bLocked := by
  rcases updateQcHigh_cases s node qc with ⟨-, h⟩ | ⟨-, h, -⟩ <;> rw [h]

@[simp] theorem updateQcHigh_lastCommit (s : HotstuffStorage K) (node : TreeNode K)
    (qc : GenericQC K) : (s.updateQcHigh node qc).state.lastCommit = s.state.lastCommit := by
  rcases updateQcHigh_cases s node qc with ⟨-, h⟩ | ⟨-, h, -⟩ <;> rw [h]

@[simp] theorem updateQcHigh_committedHeight (s : HotstuffStorage K) (node : TreeNode K)
    (qc : GenericQC K) :
    (s.updateQcHigh node qc).state.committedHeight = s.state.committedHeight := by
  rcases updateQcHigh_cases s node qc with ⟨-, h⟩ | ⟨-, h, -⟩ <;> rw [h]

@[simp] theorem updateQcHigh_currentView (s : HotstuffStorage K) (node : TreeNode K)
    (qc : GenericQC K) : (s.updateQcHigh node qc).state.currentView = s.state.currentView := by
  rcases updateQcHigh_cases s node qc with ⟨-, h⟩ | ⟨-, h, -⟩ <;> rw [h]

/-- The part of the storage that belongs to the pacemaker, with the configuration. -/
def liveness (s : HotstuffStorage K) : Option (MySQLStorage K) × HotStuffConfig ×
    (Finmap fun _ : ViewNumber => TcSet K) ×
    Finmap fun _ : ViewNumber => Finmap fun _ : ReplicaID => GenericQC K :=
  (s.backend, s.conf, s.tcMap, s.newViewSet)

theorem updateQcHigh_liveness (s : HotstuffStorage K) (node : TreeNode K) (qc : GenericQC K) :
    (s.updateQcHigh node qc).liveness = s.liveness := by
  unfold updateQcHigh
  split
  · split <;> rfl
  · rfl

theorem commit_liveness (s : HotstuffStorage K) (b : TreeNode K) :
    (s.commit b).liveness = s.liveness := by
  unfold commit
  split <;> rfl

/-- `update_qc_high` writes nothing to the store that was not there when its node is
stored already. -/
theorem updateQcHigh_inMemQueue_of_stored {node : TreeNode K} (qc : GenericQC K)
    (h : s.get node.hash = some node) :
    (s.updateQcHigh node qc).inMemQueue = s.inMemQueue := by
  rcases updateQcHigh_cases s node qc with ⟨-, h'⟩ | ⟨-, -, h'⟩
  · rw [h']
  · rw [h', HashMap.insert_eq_self h]

/-! ## Chains by justify links -/

theorem findThreeChain_head? (s : HotstuffStorage K) (node : TreeNode K) :
    (s.findThreeChain node)[0]? = s.get node.justify.node := by
  unfold findThreeChain
  split
  · rename_i h
    rw [h]; rfl
  · rename_i b3 h
    rw [h]
    split
    · rfl
    · split <;> rfl

/-- The second node of the chain is the one the first one's justify names. -/
theorem findThreeChain_second? (s : HotstuffStorage K) (node : TreeNode K) :
    (s.findThreeChain node)[1]? =
      (s.get node.justify.node).bind fun b3 => s.get b3.justify.node := by
  unfold findThreeChain
  split
  · rename_i h
    rw [h]; rfl
  · rename_i b3 h
    rw [h]
    simp only [Option.bind_some]
    split
    · rename_i h2
      rw [h2]; rfl
    · rename_i b2 h2
      rw [h2]
      split <;> rfl

/-- A full chain, link by link. -/
theorem findThreeChain_eq_three {s : HotstuffStorage K} {node b3 b2 b1 : TreeNode K} :
    s.findThreeChain node = [b3, b2, b1] ↔
      s.get node.justify.node = some b3 ∧ s.get b3.justify.node = some b2 ∧
        s.get b2.justify.node = some b1 := by
  unfold findThreeChain
  cases h3 : s.get node.justify.node with
  | none => simp
  | some c3 =>
    dsimp only
    cases h2 : s.get c3.justify.node with
    | none =>
      constructor
      · intro h; simp at h
      · rintro ⟨hc, h, -⟩
        obtain rfl := Option.some.inj hc
        rw [h2] at h; cases h
    | some c2 =>
      dsimp only
      cases h1 : s.get c2.justify.node with
      | none =>
        constructor
        · intro h; simp at h
        · rintro ⟨hc, h, h'⟩
          obtain rfl := Option.some.inj hc
          rw [h2] at h
          obtain rfl := Option.some.inj h
          rw [h1] at h'; cases h'
      | some c1 =>
        simp only [List.cons.injEq, and_true, Option.some.injEq]
        constructor
        · rintro ⟨rfl, rfl, rfl⟩
          exact ⟨rfl, h2, h1⟩
        · rintro ⟨rfl, h, h'⟩
          rw [h2] at h
          obtain rfl := Option.some.inj h
          rw [h1] at h'
          exact ⟨rfl, rfl, Option.some.inj h'⟩

/-- A chain that passes the consecutiveness test has three nodes linked by parents. -/
theorem isConsecutiveThreeChain_iff {chain : List (TreeNode K)} :
    isConsecutiveThreeChain chain = true ↔
      ∃ b3 b2 b, chain = [b3, b2, b] ∧ b3.parent = b2.hash ∧ b2.parent = b.hash := by
  unfold isConsecutiveThreeChain
  split
  · rename_i b3 b2 b
    simp only [Bool.and_eq_true, beq_iff_eq, List.cons.injEq, and_true]
    constructor
    · intro h
      exact ⟨b3, b2, b, ⟨rfl, rfl, rfl⟩, h⟩
    · rintro ⟨c3, c2, c, ⟨rfl, rfl, rfl⟩, h⟩
      exact h
  · rename_i hne
    constructor
    · intro h; cases h
    · rintro ⟨b3, b2, b, rfl, -⟩
      exact absurd rfl (hne b3 b2 b)

end HotstuffStorage

/-! ## Ancestry -/

/-- `h` is reached from `x` by following zero or more parent hashes through stored
blocks. -/
inductive Reaches (store : BlockStore K) (h : NodeHash) : TreeNode K → Prop
  | here {x : TreeNode K} (hx : x.hash = h) : Reaches store h x
  | parent {x p : TreeNode K} (hp : store.lookup x.parent = some p) (hr : Reaches store h p) :
      Reaches store h x

/-- Every block is stored under its own hash. -/
def Keyed (store : BlockStore K) : Prop := ∀ k x, store.lookup k = some x → x.hash = k

/-- Whatever is stored under the hash of `x` has the same hashed bytes as `x`. -/
def Fits (store : BlockStore K) (x : TreeNode K) : Prop :=
  ∀ y, store.lookup x.hash = some y → y.hashInput = x.hashInput

theorem Keyed.insert {store : BlockStore K} (h : Keyed store) (x : TreeNode K) :
    Keyed (store.insert x.hash x) := by
  intro k y hy
  rcases HashMap.lookup_insert_cases hy with ⟨rfl, rfl⟩ | hy
  · rfl
  · exact h k y hy

/-- After a write that fits, every block stored before is still there, up to fields its
hash does not cover. -/
theorem Fits.lookup_insert {store : BlockStore K} {x y : TreeNode K} {k : NodeHash}
    (hfit : Fits store x) (hy : store.lookup k = some y) :
    ∃ z, (store.insert x.hash x).lookup k = some z ∧ z.hashInput = y.hashInput := by
  rw [HashMap.lookup_insert_eq_ite]
  split
  · rename_i hk
    subst hk
    exact ⟨x, rfl, (hfit y hy).symm⟩
  · exact ⟨y, hy, rfl⟩

theorem TreeNode.hash_eq_of_hashInput {a b : TreeNode K} (h : a.hashInput = b.hashInput) :
    a.hash = b.hash := by
  unfold TreeNode.hash
  rw [h]

/-- Ancestry only reads the hashed fields of the block it starts from. -/
theorem Reaches.congr {store : BlockStore K} {h : NodeHash} {x y : TreeNode K}
    (hxy : x.hashInput = y.hashInput) (hr : Reaches store h x) : Reaches store h y := by
  cases hr with
  | here hx => exact .here ((TreeNode.hash_eq_of_hashInput hxy).symm.trans hx)
  | parent hp hr => exact .parent ((hashInput_inj hxy).2.2 ▸ hp) hr

theorem Reaches.insert {store : BlockStore K} {h : NodeHash} {x y : TreeNode K}
    (hfit : Fits store x) (hr : Reaches store h y) : Reaches (store.insert x.hash x) h y := by
  induction hr with
  | here hx => exact .here hx
  | parent hp _ ih =>
    obtain ⟨z, hz, hzp⟩ := hfit.lookup_insert hp
    exact .parent hz (ih.congr hzp.symm)

end HotstuffConsensus
