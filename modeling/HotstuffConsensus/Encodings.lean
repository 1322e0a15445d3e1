import HotstuffConsensus.Driver
import HotstuffConsensus.LiteralScheme

/-!
# What the two encodings of a block tell apart

A block is stored and certified under `TreeNode.hash`, and signed as `TreeNode.toBeBytes`.
The hashed bytes leave out the justify, and both encodings concatenate the transactions
without their lengths. So

* two blocks of one hash have the same signed bytes exactly when their justifies have;
* two blocks of the same signed bytes are the same block exactly when their transactions
  are cut at the same places.
-/

namespace HotstuffConsensus

open Lib

variable {K : Crypto} {a b : TreeNode K}

/-! ## The parts of the two encodings -/

/-- The hashed bytes are the concatenated transactions, the height and the parent. -/
theorem hashInput_eq_iff : a.hashInput = b.hashInput ↔
    a.txs.flatMap Txn.cont = b.txs.flatMap Txn.cont ∧ a.height = b.height ∧
      a.parent = b.parent := by
  constructor
  · exact hashInput_inj
  · rintro ⟨ht, hh, hp⟩
    unfold TreeNode.hashInput
    rw [ht, hh, hp]

theorem toBeBytes_qc_eq_iff {p q : GenericQC K} : p.toBeBytes = q.toBeBytes ↔
    p.view = q.view ∧ p.node = q.node ∧ K.toBytes p.combinedSign = K.toBytes q.combinedSign := by
  constructor
  · intro h
    unfold GenericQC.toBeBytes at h
    obtain ⟨h, hs⟩ := List.append_inj' h (by simp)
    obtain ⟨hv, hn⟩ := List.append_inj' h (by simp)
    exact ⟨beBytes_injective hv, List.Vector.toList_injective hn, List.Vector.toList_injective hs⟩
  · rintro ⟨hv, hn, hs⟩
    unfold GenericQC.toBeBytes
    rw [hv, hn, hs]

/-- The signed bytes are the hashed ones and the justify. -/
theorem toBeBytes_eq_iff : a.toBeBytes = b.toBeBytes ↔
    a.hashInput = b.hashInput ∧ a.justify.toBeBytes = b.justify.toBeBytes := by
  constructor
  · intro h
    refine ⟨(toBeBytes_inj h).1, ?_⟩
    unfold TreeNode.toBeBytes at h
    rw [List.append_assoc, List.append_assoc, List.append_assoc, List.append_assoc] at h
    obtain ⟨-, h⟩ := List.append_inj h (by simp [length_beBytes])
    exact (List.append_inj h (by simp [length_toBeBytes_qc])).1
  · rintro ⟨hin, hj⟩
    obtain ⟨ht, hh, hp⟩ := hashInput_eq_iff.mp hin
    unfold TreeNode.toBeBytes
    rw [ht, hh, hp, hj]

theorem Txn.cont_injective : Function.Injective Txn.cont := by
  intro x y h
  cases x
  cases y
  exact congrArg Txn.mk h

/-- Transactions that concatenate to the same bytes are the same list exactly when they
are cut at the same places. -/
theorem txs_eq_iff {xs ys : List Txn} : xs = ys ↔
    xs.flatMap Txn.cont = ys.flatMap Txn.cont ∧
      xs.map (·.cont.length) = ys.map (·.cont.length) := by
  have hcut : ∀ zs : List Txn, zs.map (·.cont.length) = (zs.map Txn.cont).map List.length :=
    fun zs => by simp
  rw [hcut, hcut, List.flatMap_def, List.flatMap_def, ← List.eq_iff_flatten_eq]
  exact ⟨congrArg _, fun h => List.map_injective_iff.mpr Txn.cont_injective h⟩

theorem collisionFree_pair (h : a.hashInput = b.hashInput) : CollisionFree {a, b} := by
  intro x hx y hy _
  simp only [Set.mem_insert_iff, Set.mem_singleton_iff] at hx hy
  rcases hx with rfl | rfl <;> rcases hy with rfl | rfl
  · rfl
  · exact h
  · exact h.symm
  · rfl

/-! ## The hash and the signed bytes -/

/-- The hash of `a` and `b` tells what was signed: equal hashes mean equal signed bytes,
a certificate that names both certifies both or neither, and storing `b` where `a` is
stored leaves the stored bytes as they were. -/
structure TreeNode.Pinned (a b : TreeNode K) : Prop where
  bytes : a.hash = b.hash → a.toBeBytes = b.toBeBytes
  certificate (S : DefaultSignaturer K) (qc : GenericQC K) : qc.node = a.hash →
    qc.node = b.hash → S.validateQc a qc.combinedSign = S.validateQc b qc.combinedSign
  reinsert (s : HotstuffStorage K) : s.get a.hash = some a → a.hash = b.hash →
    ∀ k, ((s.appendNewNode b).get k).map TreeNode.toBeBytes = (s.get k).map TreeNode.toBeBytes

theorem TreeNode.pinned_iff : a.Pinned b ↔ (a.hash = b.hash → a.toBeBytes = b.toBeBytes) := by
  constructor
  · exact fun h => h.bytes
  · intro h
    refine ⟨h, ?_, ?_⟩
    · intro S qc ha hb
      unfold DefaultSignaturer.validateQc
      rw [h (ha.symm.trans hb)]
    · intro s ha hab k
      show ((s.inMemQueue.insert b.hash b).lookup k).map _ = _
      rw [HashMap.lookup_insert_eq_ite]
      split
      · rename_i hk
        rw [hk, ← hab, ha, Option.map_some, Option.map_some, h hab]
      · rfl

namespace Literal

/-- Two blocks that differ in where their transactions are cut. -/
def cutTwice : TreeNode literal := ⟨1, [⟨[1]⟩, ⟨[2]⟩], initNodeHash literal, initQc literal⟩

@[inherit_doc cutTwice]
def cutOnce : TreeNode literal := ⟨1, [⟨[1, 2]⟩], initNodeHash literal, initQc literal⟩

end Literal

namespace Symbolic

/-- The block `a3` with the certificate of `a1` in place of that of `a2`. -/
def a3' : TreeNode symbolic := { a3 with justify := certFor a1 }

end Symbolic

/-- No signature of the key set verifies on two messages. -/
def DefaultSignaturer.BindsMessages (S : DefaultSignaturer K) : Prop :=
  (∀ i share m m', K.verifyShare S.pks i share m = true → K.verifyShare S.pks i share m' = true →
    m = m') ∧
  ∀ sign m m', K.verify S.pks sign m = true → K.verify S.pks sign m' = true → m = m'

/-- Same height, parent, justify and list of transactions. -/
def TreeNode.SameFields (a b : TreeNode K) : Prop :=
  a.height = b.height ∧ a.parent = b.parent ∧ a.justify = b.justify ∧ a.txs = b.txs

/-- The signed encoding of `a` and `b` is unambiguous: equal bytes mean equal blocks, and
no share and no combined signature is valid for both unless they are. -/
structure TreeNode.Unambiguous (a b : TreeNode K) : Prop where
  bytes : a.toBeBytes = b.toBeBytes → a.SameFields b
  vote (S : DefaultSignaturer K) : S.BindsMessages → ∀ kit, S.validateVote a kit = true →
    S.validateVote b kit = true → a.SameFields b
  qc (S : DefaultSignaturer K) : S.BindsMessages → ∀ sign, S.validateQc a sign = true →
    S.validateQc b sign = true → a.SameFields b

theorem TreeNode.unambiguous_iff :
    a.Unambiguous b ↔ (a.toBeBytes = b.toBeBytes → a.SameFields b) := by
  constructor
  · exact fun h => h.bytes
  · intro h
    refine ⟨h, ?_, ?_⟩
    · intro S hS kit ha hb
      exact h (hS.1 kit.signId kit.sign _ _ ha hb)
    · intro S hS sign ha hb
      exact h (hS.2 sign _ _ ha hb)

/-- The signed encoding is unambiguous exactly when blocks that agree on everything but
the cuts between the transactions also agree on those. -/
theorem signed_bytes_determine_block_iff (hK : Function.Injective K.toBytes)
    (a b : TreeNode K) :
    a.Unambiguous b ↔
      (a.height = b.height → a.parent = b.parent → a.justify = b.justify →
        a.txs.flatMap Txn.cont = b.txs.flatMap Txn.cont →
        a.txs.map (·.cont.length) = b.txs.map (·.cont.length)) := by
  have hjustify : a.justify.toBeBytes = b.justify.toBeBytes ↔ a.justify = b.justify := by
    rw [toBeBytes_qc_eq_iff, GenericQC.ext_iff, hK.eq_iff]
  rw [TreeNode.unambiguous_iff, toBeBytes_eq_iff, hashInput_eq_iff, hjustify]
  unfold TreeNode.SameFields
  constructor
  · intro h hh hp hj ht
    exact (txs_eq_iff.mp (h ⟨⟨ht, hh, hp⟩, hj⟩).2.2.2).2
  · rintro h ⟨⟨ht, hh, hp⟩, hj⟩
    exact ⟨hh, hp, hj, txs_eq_iff.mpr ⟨ht, h hh hp hj ht⟩⟩

open Literal in
theorem unambiguous_cut_init :
    Function.Injective literal.toBytes ∧ cutTwice.Unambiguous (initNode literal) :=
  ⟨fun _ _ h => h, (signed_bytes_determine_block_iff (fun _ _ h => h) cutTwice
    (initNode literal)).mpr fun hh => absurd hh (by decide)⟩

open Literal in
/-- One transaction of two bytes is signed as two of one byte each. -/
theorem not_signed_bytes_determine_block :
    Function.Injective literal.toBytes ∧ cutTwice.toBeBytes = cutOnce.toBeBytes ∧
      cutTwice.txs ≠ cutOnce.txs ∧ ¬ cutTwice.Unambiguous cutOnce := by
  have htxs : cutTwice.txs ≠ cutOnce.txs := by decide
  refine ⟨fun _ _ h => h, rfl, htxs, ?_⟩
  intro h
  exact htxs (h.bytes rfl).2.2.2

end HotstuffConsensus
