import HotstuffConsensus.Machine

/-!
# The documented laws of the threshold scheme, and a scheme that has them

`CombineLaws` is what `threshold_crypto` documents of `combine_signatures`: it fails on a
repeated index or on too few shares and on nothing else, and the result verifies on a
message exactly when every share does.

`symbolic` is a scheme in which a share *is* the pair of signer and message, so that the
laws hold by inspection and every run of a replica can be evaluated.
-/

namespace HotstuffConsensus

/-- The documented behaviour of `PublicKeySet::combine_signatures`. A release that skips repeated
indices, and takes as many shares as it needs, agrees with it where the indices are distinct and
the shares valid. -/
structure CombineLaws (K : Crypto) : Prop where
  isSome_iff (pk : K.PK) (shares : Multiset (SignID × K.Sign)) :
    (K.combineSignatures pk shares).isSome ↔
      K.threshold pk < Multiset.card shares ∧ (shares.map Prod.fst).Nodup
  verify_iff (pk : K.PK) (shares : Multiset (SignID × K.Sign)) (s : K.CombinedSign) (msg : Bytes) :
    K.combineSignatures pk shares = some s →
      (K.verify pk s msg = true ↔ ∀ x ∈ shares, K.verifyShare pk x.1 x.2 msg = true)

/-- A polynomial hash into 32 bytes. -/
def polyDigest (bs : Bytes) : NodeHash :=
  let n := bs.foldl (fun acc b => (acc * 257 + b.toNat + 1) % 2 ^ 256) 1
  ⟨(List.range 32).map fun i => UInt8.ofNat (n / 256 ^ i), by simp⟩

/-- A quorum of symbolic shares, all over `msg`. -/
def symbolicValid (threshold : ℕ) (shares : Multiset (SignID × (SignID × Bytes))) (msg : Bytes) :
    Bool :=
  decide (threshold < Multiset.card shares ∧ (shares.map Prod.fst).Nodup ∧
    ∀ x ∈ shares, x.2 = (x.1, msg))

/-- Combining symbolic shares keeps them all. -/
def symbolicCombine (threshold : ℕ) (shares : Multiset (SignID × (SignID × Bytes))) :
    Option (Option (Multiset (SignID × (SignID × Bytes)))) :=
  if threshold < Multiset.card shares ∧ (shares.map Prod.fst).Nodup then some (some shares)
  else none

theorem symbolicCombine_isSome (threshold : ℕ)
    (shares : Multiset (SignID × (SignID × Bytes))) :
    (symbolicCombine threshold shares).isSome ↔
      threshold < Multiset.card shares ∧ (shares.map Prod.fst).Nodup := by
  unfold symbolicCombine
  split
  · rename_i h
    simpa using h
  · rename_i h
    simpa using h

theorem symbolicCombine_valid {threshold : ℕ} {shares : Multiset (SignID × (SignID × Bytes))}
    {s : Option (Multiset (SignID × (SignID × Bytes)))} (msg : Bytes)
    (h : symbolicCombine threshold shares = some s) :
    s = some shares ∧
      (symbolicValid threshold shares msg = true ↔ ∀ x ∈ shares, x.2 = (x.1, msg)) := by
  unfold symbolicCombine at h
  split at h
  · rename_i hq
    refine ⟨(Option.some.inj h).symm, ?_⟩
    unfold symbolicValid
    rw [decide_eq_true_eq]
    exact ⟨fun hv => hv.2.2, fun hv => ⟨hq.1, hq.2, hv⟩⟩
  · cases h

/-- The symbolic scheme: a public key set is its threshold, a secret key share is its
index, a share records who signed what, and a combined signature is the multiset of its
shares, `none` being the all-zero one. -/
def symbolic : Crypto where
  sha256 := polyDigest
  PK := ℕ
  SK := SignID
  Sign := SignID × Bytes
  CombinedSign := Option (Multiset (SignID × (SignID × Bytes)))
  toBytes
    | none => 0xC0 ::ᵥ List.Vector.replicate 95 0
    | some _ => List.Vector.replicate 96 1
  fromBytes _ := none
  zeroed := none
  sign sk msg := (sk, msg)
  verifyShare _ i share msg := decide (share = (i, msg))
  verify pk s msg :=
    match s with
    | none => false
    | some shares => symbolicValid pk shares msg
  combineSignatures := symbolicCombine
  threshold pk := pk

theorem symbolic_combineLaws : CombineLaws symbolic where
  isSome_iff pk shares := symbolicCombine_isSome pk shares
  verify_iff pk shares s msg h := by
    obtain ⟨rfl, hv⟩ := symbolicCombine_valid msg h
    exact hv.trans (forall₂_congr fun x _ => decide_eq_true_iff.symm)

namespace Symbolic

instance : DecidableEq symbolic.CombinedSign :=
  inferInstanceAs (DecidableEq (Option (Multiset (SignID × (SignID × Bytes)))))

instance : DecidableEq symbolic.Sign := inferInstanceAs (DecidableEq (SignID × Bytes))

instance {K : Crypto} [DecidableEq K.CombinedSign] : DecidableEq (GenericQC K) := fun a b =>
  decidable_of_iff (a.view = b.view ∧ a.node = b.node ∧ a.combinedSign = b.combinedSign)
    GenericQC.ext_iff.symm

instance {K : Crypto} [DecidableEq K.CombinedSign] : DecidableEq (TreeNode K) := fun a b =>
  decidable_of_iff (a.height = b.height ∧ a.txs = b.txs ∧ a.parent = b.parent ∧
    a.justify = b.justify) TreeNode.ext_iff.symm

/-- A combined signature on `msg` by the given signers. -/
def signBy (signers : List SignID) (msg : Bytes) : symbolic.CombinedSign :=
  some (signers.map fun i => (i, (i, msg)))

/-- A valid certificate for `node` by replicas 1, 2 and 3 of four. -/
def certFor (node : TreeNode symbolic) : GenericQC symbolic :=
  ⟨node.height, node.hash, signBy [1, 2, 3] node.toBeBytes⟩

/-- A block with one transaction of one byte. -/
def block (tx : UInt8) (height : ViewNumber) (parent : NodeHash) (justify : GenericQC symbolic) :
    TreeNode symbolic :=
  ⟨height, [⟨[tx]⟩], parent, justify⟩

def replicaId (i : ℕ) : ReplicaID := "replica-" ++ toString i

/-- A share of `node` signed by replica `i`. -/
def voteBy (i : SignID) (node : TreeNode symbolic) : SignKit symbolic := ⟨(i, node.toBeBytes), i⟩

/-- The context of a message of replica `i`. -/
def ctxOf (i : ℕ) : Context := .single (replicaId i) (replicaId 0) 0

def signaturer (n : ℕ) (i : SignID) : DefaultSignaturer symbolic := ⟨i, (n <<< 1) / 3, i⟩

/-- Replica `i` of `n`, over a fresh in-memory storage. -/
def fresh (n : ℕ) (i : SignID) : Machine symbolic :=
  Machine.new (Voter.new ((n <<< 1) / 3) (signaturer n i)) (replicaId i) n none
    (initInMemStorage n (replicaId i) ∅ (signaturer n i))

/-! A short chain, for the runs that are evaluated. -/

/-- A block on the genesis block. -/
def a1 : TreeNode symbolic := block 1 1 (initNodeHash symbolic) (initQc symbolic)

/-- Two blocks of height 2 on `a1`, with the same certificate. -/
def a2 : TreeNode symbolic := block 2 2 a1.hash (certFor a1)

@[inherit_doc a2]
def a2' : TreeNode symbolic := block 3 2 a1.hash (certFor a1)

def a3 : TreeNode symbolic := block 4 3 a2.hash (certFor a2)

/-- The blocks that continue the chain `a1`, `a2`, `a3`. -/
def a4 : TreeNode symbolic := block 5 4 a3.hash (certFor a3)

@[inherit_doc a4]
def a5 : TreeNode symbolic := block 6 5 a4.hash (certFor a4)

/-- The delivery of a proposal of replica 1. -/
def deliver (p : TreeNode symbolic) : Call symbolic := .event (.recvProposal (ctxOf 1) p)

/-- The leader makes a proposal in view `view`. -/
def beat (view : ViewNumber) (tx : UInt8) : List (Call symbolic) :=
  [.increaseView view, .event (.newTx [⟨[tx]⟩])]

/-- The proposals of two beats, in view 1 and then in view 2. -/
def p1 : TreeNode symbolic := ((fresh 4 0).run [.increaseView 1]).makeLeaf [⟨[1]⟩]

@[inherit_doc p1]
def p2 : TreeNode symbolic := ((fresh 4 0).run (beat 1 1 ++ [.increaseView 2])).makeLeaf [⟨[2]⟩]

/-- The arrival of replica `i`'s vote for `p`. -/
def vote (i : ℕ) (p : TreeNode symbolic) : Call symbolic :=
  .event (.recvSign (ctxOf i) p (voteBy i p))

end Symbolic

end HotstuffConsensus
