import Mathlib.Data.Finmap
import Mathlib.Data.Vector.Basic

/-!
# The data of the replicas (`hs-data`)

Blocks (`TreeNode`), quorum certificates (`GenericQC`), signature kits and message
contexts, with the two encodings of a block the protocol rests on:

* `TreeNode.hash`, the name under which a block is stored and certified. It covers the
  transactions, the height and the parent, and *not* the justify;
* `TreeNode.toBeBytes`, the bytes a replica signs. It covers all four fields.

SHA-256 and the threshold signature scheme are third-party code. They enter as the
fields of a `Crypto`, and everything below is parametric in it.
-/

namespace HotstuffConsensus

abbrev Bytes := List UInt8
abbrev ReplicaID := String
abbrev ViewNumber := UInt64
abbrev SignID := ℕ

/-- `NodeHash([u8; 32])`. -/
abbrev NodeHash := List.Vector UInt8 32

/-- `u64::to_be_bytes`. -/
def beBytes (v : UInt64) : Bytes :=
  [(v >>> 56).toUInt8, (v >>> 48).toUInt8, (v >>> 40).toUInt8, (v >>> 32).toUInt8,
    (v >>> 24).toUInt8, (v >>> 16).toUInt8, (v >>> 8).toUInt8, v.toUInt8]

/-- The third-party cryptography: `sha2` and `threshold_crypto`. Nothing is assumed of
the operations here; a theorem that needs a law of theirs names it. -/
structure Crypto where
  /-- `Sha256::finalize` over the concatenated updates. -/
  sha256 : Bytes → NodeHash
  /-- `threshold_crypto::PublicKeySet`. -/
  PK : Type
  /-- `threshold_crypto::SecretKeyShare`. -/
  SK : Type
  /-- `threshold_crypto::SignatureShare`. -/
  Sign : Type
  /-- `threshold_crypto::Signature`. -/
  CombinedSign : Type
  /-- `Signature::to_bytes`. -/
  toBytes : CombinedSign → List.Vector UInt8 96
  /-- `Signature::from_bytes`. -/
  fromBytes : List.Vector UInt8 96 → Option CombinedSign
  /-- The all-zero signature that `std::mem::zeroed` makes. -/
  zeroed : CombinedSign
  /-- `SecretKeyShare::sign`. -/
  sign : SK → Bytes → Sign
  /-- `pks.public_key_share(i).verify(share, msg)`. -/
  verifyShare : PK → SignID → Sign → Bytes → Bool
  /-- `pks.public_key().verify(sign, msg)`. -/
  verify : PK → CombinedSign → Bytes → Bool
  /-- `PublicKeySet::combine_signatures`. The shares come from an iterator over a hash
  map or a hash set, which promises no order, hence the multiset. -/
  combineSignatures : PK → Multiset (SignID × Sign) → Option CombinedSign
  /-- `PublicKeySet::threshold`. -/
  threshold : PK → ℕ

variable {K : Crypto}

/-- `Txn(Vec<u8>)`. -/
structure Txn where
  cont : Bytes
deriving DecidableEq

/-! ## Quorum certificates -/

@[ext] structure GenericQC (K : Crypto) where
  view : ViewNumber
  node : NodeHash
  combinedSign : K.CombinedSign

namespace GenericQC

/-- `GenericQC::hash`: bytes 32 to 63 of the encoded signature, nothing else. -/
def hash (qc : GenericQC K) : Bytes :=
  ((K.toBytes qc.combinedSign).toList.drop 32).take 32

def toBeBytes (qc : GenericQC K) : Bytes :=
  beBytes qc.view ++ qc.node.toList ++ (K.toBytes qc.combinedSign).toList

/-- `unsafe { std::mem::zeroed() }` at type `GenericQC`. -/
def zeroed (K : Crypto) : GenericQC K :=
  ⟨0, List.Vector.replicate 32 0, K.zeroed⟩

end GenericQC

/-! ## Blocks -/

@[ext] structure TreeNode (K : Crypto) where
  height : ViewNumber
  txs : List Txn
  parent : NodeHash
  justify : GenericQC K

namespace TreeNode

/-- The bytes `TreeNode::hash` feeds to SHA-256. -/
def hashInput (node : TreeNode K) : Bytes :=
  node.txs.flatMap Txn.cont ++ beBytes node.height ++ node.parent.toList

def hash (node : TreeNode K) : NodeHash :=
  K.sha256 node.hashInput

/-- `TreeNode::to_be_bytes`, the message that is signed. -/
def toBeBytes (node : TreeNode K) : Bytes :=
  beBytes node.height ++ node.justify.toBeBytes ++ node.parent.toList
    ++ node.txs.flatMap Txn.cont

end TreeNode

/-- `NodeHash::genesis()`. -/
def genesisHash : NodeHash := List.Vector.replicate 32 0xAB

/-- `INIT_NODE`. Its justify is zeroed memory: view 0, the all-zero hash. -/
def initNode (K : Crypto) : TreeNode K :=
  ⟨0, [], genesisHash, GenericQC.zeroed K⟩

/-- `INIT_NODE_HASH`. -/
def initNodeHash (K : Crypto) : NodeHash := (initNode K).hash

/-- `INIT_QC`. -/
def initQc (K : Crypto) : GenericQC K :=
  ⟨0, initNodeHash K, K.zeroed⟩

/-- `INIT_QC_HASH`. -/
def initQcHash (K : Crypto) : Bytes := (initQc K).hash

def GenericQC.isInitQc (qc : GenericQC K) : Bool :=
  qc.hash == initQcHash K

@[simp] theorem hash_initNode : (initNode K).hash = initNodeHash K := rfl

theorem isInitQc_initQc : (initQc K).isInitQc = true := by
  simp [GenericQC.isInitQc, initQcHash]

/-! ## Signature kits and contexts -/

structure SignKit (K : Crypto) where
  sign : K.Sign
  signId : SignID

inductive DeliveryType where
  | broadcast
  | single (dest : ReplicaID)
  | unknown
deriving DecidableEq

/-- `Context`; the source's field names `from` and `to` are keywords here. -/
structure Context where
  sender : ReplicaID
  dest : DeliveryType
  view : ViewNumber
deriving DecidableEq

namespace Context

def single (sender dest : ReplicaID) (view : ViewNumber) : Context :=
  ⟨sender, .single dest, view⟩

def broadcast (sender : ReplicaID) (view : ViewNumber) : Context := ⟨sender, .broadcast, view⟩

def response (sender : ReplicaID) (view : ViewNumber) : Context := ⟨sender, .unknown, view⟩

end Context

/-! ## The signaturer (`cryptokit`) -/

/-- `SignErr::InsufficientSigns(needed, offered)`. -/
structure SignErr where
  needed : ℕ
  offered : ℕ
deriving DecidableEq

structure DefaultSignaturer (K : Crypto) where
  signId : SignID
  pks : K.PK
  sks : K.SK

namespace DefaultSignaturer

def sign (s : DefaultSignaturer K) (node : TreeNode K) : SignKit K :=
  ⟨K.sign s.sks node.toBeBytes, s.signId⟩

def combinePartialSign (s : DefaultSignaturer K) (partialSigns : Multiset (SignKit K)) :
    Except SignErr K.CombinedSign :=
  match K.combineSignatures s.pks (partialSigns.map fun kit => (kit.signId, kit.sign)) with
  | some sign => .ok sign
  | none => .error ⟨K.threshold s.pks, Multiset.card partialSigns⟩

def validateVote (s : DefaultSignaturer K) (prop : TreeNode K) (vote : SignKit K) : Bool :=
  K.verifyShare s.pks vote.signId vote.sign prop.toBeBytes

def validateQc (s : DefaultSignaturer K) (qcNode : TreeNode K) (sign : K.CombinedSign) : Bool :=
  K.verify s.pks sign qcNode.toBeBytes

end DefaultSignaturer

/-! ## The encodings -/

theorem length_beBytes (v : UInt64) : (beBytes v).length = 8 := rfl

theorem length_toBeBytes_qc (qc : GenericQC K) : qc.toBeBytes.length = 136 := by
  simp [GenericQC.toBeBytes, length_beBytes]

end HotstuffConsensus
