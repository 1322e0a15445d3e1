import HotstuffConsensus.Persistence
import HotstuffConsensus.ThresholdScheme
import HotstuffConsensus.Lib.Base64

/-!
# A scheme and a codec for evaluated restarts

In `literal` a combined signature is its 96 bytes. Nothing is ever signed in it; it serves
to evaluate what is written to the database and read back. `literalCodec` uses base64 and
a tagged encoding of the transactions that agrees with JSON on the empty list.
-/

namespace HotstuffConsensus

open Lib

/-- Combined signatures are bytes; the all-zero one is the point at infinity. -/
def literal : Crypto where
  sha256 := polyDigest
  PK := Unit
  SK := Unit
  Sign := Unit
  CombinedSign := List.Vector UInt8 96
  toBytes s := s
  fromBytes b := some b
  zeroed := 0xC0 ::ᵥ List.Vector.replicate 95 0
  sign _ _ := ()
  verifyShare _ _ _ _ := false
  verify _ _ _ := false
  combineSignatures _ _ := none
  threshold _ := 0

namespace Literal

instance : DecidableEq literal.CombinedSign :=
  inferInstanceAs (DecidableEq (List.Vector UInt8 96))

/-- `[]` is written as in JSON. Otherwise 0 opens a transaction and 1 announces a byte. -/
def txsToJson : List Txn → Bytes
  | [] => [91, 93]
  | tx :: txs => 0 :: (tx.cont.flatMap fun b => [1, b]) ++ txsToJson txs

/-- The bytes up to the next transaction, and the transactions from there on. -/
def parse : Bytes → Option (Bytes × List Txn)
  | [91, 93] => some ([], [])
  | 0 :: rest => (parse rest).map fun r => ([], ⟨r.1⟩ :: r.2)
  | 1 :: b :: rest => (parse rest).map fun r => (b :: r.1, r.2)
  | _ => none

theorem parse_bytes (bs rest : Bytes) (txs : List Txn) (tail : Bytes)
    (h : parse rest = some (tail, txs)) :
    parse ((bs.flatMap fun b => [1, b]) ++ rest) = some (bs ++ tail, txs) := by
  induction bs with
  | nil => exact h
  | cons b bs ih =>
    show (parse ((bs.flatMap fun b => [1, b]) ++ rest)).map (fun r => (b :: r.1, r.2)) = _
    rw [ih]
    rfl

theorem parse_txsToJson (txs : List Txn) : parse (txsToJson txs) = some ([], txs) := by
  induction txs with
  | nil => rfl
  | cons tx txs ih =>
    have hbytes := parse_bytes tx.cont (txsToJson txs) txs [] ih
    rw [List.append_nil] at hbytes
    show (parse ((tx.cont.flatMap fun b => [1, b]) ++ txsToJson txs)).map
      (fun r => ([], ⟨r.1⟩ :: r.2)) = _
    rw [hbytes]
    rfl

/-- Base64 for the hashes and signatures. -/
def codec : Codec literal where
  base64Encode b := String.ofList (Base64.encode b)
  base64Decode s := Base64.decode s.toList
  txsToJson := txsToJson
  txsFromJson b := (parse b).map Prod.snd
  viewSignToJson _ := "{}"
  tcFromJson _ := none
  pksToJson _ := []
  pksFromJson _ := some ()
  sksToJson _ := []
  sksFromJson _ := some ()

theorem codec_laws : CodecLaws codec where
  base64 b := by
    show Base64.decode (String.ofList (Base64.encode b)).toList = some b
    rw [String.toList_ofList]
    exact Base64.decode_encode b
  txs txs := by
    show (parse (txsToJson txs)).map Prod.snd = some txs
    rw [parse_txsToJson]
    rfl
  pks _ := rfl
  sks _ := rfl
  tc _ := rfl
  combinedSign _ := rfl

/-- Replica 0 of four, as its own only peer. -/
def conf : HotStuffConfig := ⟨"hotstuff", 4, "replica-0", Finmap.singleton "replica-0" "localhost:8000"⟩

def signaturer : DefaultSignaturer literal := ⟨0, (), ()⟩

def storage₀ : HotstuffStorage literal :=
  initHotstuffStorage conf.token conf.total conf.replicaId conf.peersAddr signaturer

def db₀ : Database :=
  { createTables with
    peers := conf.peersAddr
    hotstuffConf := [⟨conf.token, conf.total, "localhost:8000", conf.replicaId⟩]
    crypto := [⟨conf.token, [], [], 0⟩] }

theorem persisted_init : Persisted codec conf.token db₀ storage₀ db₀ [] := by
  apply Persisted.init
  have haddr : conf.peersAddr.lookup conf.replicaId = some "localhost:8000" :=
    Finmap.lookup_singleton_eq
  show (conf.peersAddr.lookup conf.replicaId).map _ = some db₀
  rw [haddr]
  rfl

theorem drained_init : storage₀.Drained := ⟨true, rfl⟩

/-- The storage after some operations. -/
def after (os : List (StorageOp literal)) : HotstuffStorage literal :=
  os.foldl HotstuffStorage.apply storage₀

theorem after_drained (os : List (StorageOp literal)) : (after os).Drained := by
  have hfold : ∀ s : HotstuffStorage literal, s.Drained →
      (os.foldl HotstuffStorage.apply s).Drained := by
    induction os with
    | nil => exact fun s hs => hs
    | cons o os ih =>
      intro s hs
      obtain ⟨props, hrec⟩ := s.apply_records o
      apply ih
      unfold HotstuffStorage.Drained
      rw [hrec.backend]
      exact hs
  exact hfold storage₀ drained_init

/-- The database after some operations and one flush. -/
def dbAfter (os : List (StorageOp literal)) : Database := db₀.flush codec (after os).dirtyData

/-- A few operations and one flush that is written. -/
theorem persisted_once (os : List (StorageOp literal)) (hdirty : (after os).dirty = true) :
    ∃ s, Persisted codec conf.token db₀ s (dbAfter os) [(after os).dirtyData] ∧ s.Drained ∧
      s.propQueue = [] ∧ s.inMemQueue = (after os).inMemQueue :=
  ⟨(after os).settled, (persisted_init.ops os).settled (after_drained os) hdirty, ⟨true, rfl⟩,
    rfl, rfl⟩

end Literal

end HotstuffConsensus
