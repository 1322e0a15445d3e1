import HotstuffConsensus.Storage
import HotstuffConsensus.Lib.Table

/-!
# The database (`hss/persistor.rs`, `hss/recover.rs`)

The tables, the transaction in which `MySQLFlusher::flush` writes a `FlushTask`, and
`HotstuffStorage::recover`, which reads a storage back. `base64` and `serde_json` are the
fields of a `Codec`. A `None` of the recovery functions is a panic of the source, an
`unwrap` on a missing row or on a failed decoding.

Two writers fill the `qc` table. The loop over the certificates writes the block a
certificate names; the loop over the proposals writes the hash of the *proposal* beside
the signature of its justify. The reader takes the hash of that row for the block the
justify names and for the key of the proposal, and the proposal's own height for the view
of the justify.
-/

namespace HotstuffConsensus

open Lib

variable {K : Crypto}

/-- The encodings of the columns. -/
structure Codec (K : Crypto) where
  base64Encode : Bytes → String
  base64Decode : String → Option Bytes
  /-- `serde_json` of `Vec<Txn>`. -/
  txsToJson : List Txn → Bytes
  txsFromJson : Bytes → Option (List Txn)
  /-- `serde_json` of a `SignType`. -/
  viewSignToJson : SignType K → String
  /-- `serde_json` read as a `TimeoutCertificate`. -/
  tcFromJson : String → Option (TimeoutCertificate K)
  pksToJson : K.PK → Bytes
  pksFromJson : Bytes → Option K.PK
  sksToJson : K.SK → Bytes
  sksFromJson : Bytes → Option K.SK

/-- The encodings round-trip, and a struct is decoded only from a value with that struct's
fields, which a `SignType` does not have. -/
structure CodecLaws (C : Codec K) : Prop where
  base64 : ∀ b, C.base64Decode (C.base64Encode b) = some b
  txs : ∀ txs, C.txsFromJson (C.txsToJson txs) = some txs
  pks : ∀ pks, C.pksFromJson (C.pksToJson pks) = some pks
  sks : ∀ sks, C.sksFromJson (C.sksToJson sks) = some sks
  tc : ∀ viewSign, C.tcFromJson (C.viewSignToJson viewSign) = none
  combinedSign : ∀ sign, K.fromBytes (K.toBytes sign) = some sign

/-! ## Tables -/

structure CombinedTcRow where
  view : ViewNumber
  combinedSign : String

structure CryptoRow where
  token : String
  pkSet : Bytes
  skShare : Bytes
  skId : ℕ

structure ConfRow where
  token : String
  total : ℕ
  selfAddr : String
  selfId : String

structure StateRow where
  token : String
  currentView : ViewNumber
  lastVotedView : ViewNumber
  lockedView : ViewNumber
  committedView : ViewNumber
  executedView : ViewNumber
  leafView : ViewNumber
deriving DecidableEq

structure PartialTcRow where
  view : ViewNumber
  partialSign : String
  replicaId : String

structure ProposalRow where
  view : ViewNumber
  parentHash : String
  justifyView : ViewNumber
  propHash : String
  txn : Bytes
deriving DecidableEq

structure QcRow where
  view : ViewNumber
  nodeHash : String
  combinedSign : String
deriving DecidableEq

structure Database where
  combinedTc : List CombinedTcRow
  crypto : List CryptoRow
  hotstuffConf : List ConfRow
  hotstuffState : List StateRow
  partialTc : List PartialTcRow
  peers : Finmap fun _ : String => String
  proposal : List ProposalRow
  qc : List QcRow

/-- `create_tables` after `drop_tables`. -/
def createTables : Database := ⟨[], [], [], [], [], ∅, [], []⟩

/-- `persist_other_msg`; it panics when the replica is not among its own peers. -/
def persistOtherMsg (C : Codec K) (conf : HotStuffConfig) (signaturer : DefaultSignaturer K) :
    Option Database :=
  (conf.peersAddr.lookup conf.replicaId).map fun addr =>
    { createTables with
      peers := conf.peersAddr
      hotstuffConf := [⟨conf.token, conf.total, addr, conf.replicaId⟩]
      crypto := [⟨conf.token, C.pksToJson signaturer.pks, C.sksToJson signaturer.sks,
        signaturer.signId⟩] }

/-! ## `MySQLFlusher::flush` -/

/-- The `qc` row the loop over the proposals writes: the proposal's own hash. -/
def qcRowOfProp (C : Codec K) (prop : TreeNode K) : QcRow :=
  ⟨prop.justify.view, C.base64Encode prop.hash.toList,
    C.base64Encode (K.toBytes prop.justify.combinedSign).toList⟩

def proposalRow (C : Codec K) (prop : TreeNode K) : ProposalRow :=
  ⟨prop.height, C.base64Encode prop.parent.toList, prop.justify.view,
    C.base64Encode prop.hash.toList, C.txsToJson prop.txs⟩

/-- The `qc` row the loop over the certificates writes. -/
def qcRow (C : Codec K) (qc : GenericQC K) : QcRow :=
  ⟨qc.view, C.base64Encode qc.node.toList, C.base64Encode (K.toBytes qc.combinedSign).toList⟩

def partialTcRow (C : Codec K) (tc : TimeoutCertificate K) : PartialTcRow :=
  ⟨tc.view, C.viewSignToJson tc.viewSign, tc.sender⟩

def combinedTcRow (C : Codec K) (tc : TimeoutCertificate K) : CombinedTcRow :=
  ⟨tc.view, C.viewSignToJson tc.viewSign⟩

/-- The primary key of `partial_tc`. -/
def PartialTcRow.key (row : PartialTcRow) : ViewNumber × String := (row.view, row.replicaId)

def stateRow (state : InMemoryState K) : StateRow :=
  ⟨state.token, state.currentView, state.vheight, state.bLocked.height, state.committedHeight,
    state.lastCommit.height, state.leaf.height⟩

namespace Database

def flushProp (C : Codec K) (db : Database) (prop : TreeNode K) : Database :=
  { db with
    qc := Table.insertIgnore QcRow.view db.qc (qcRowOfProp C prop)
    proposal := Table.insertIgnore ProposalRow.view db.proposal (proposalRow C prop) }

def flushQc (C : Codec K) (db : Database) (qc : GenericQC K) : Database :=
  { db with qc := Table.insertIgnore QcRow.view db.qc (qcRow C qc) }

def flushPartialTc (C : Codec K) (db : Database) (tc : TimeoutCertificate K) : Database :=
  { db with partialTc := Table.insertIgnore PartialTcRow.key db.partialTc (partialTcRow C tc) }

def flushCombinedTc (C : Codec K) (db : Database) (tc : TimeoutCertificate K) : Database :=
  { db with
    combinedTc := Table.insertIgnore CombinedTcRow.view db.combinedTc (combinedTcRow C tc) }

def flushState (db : Database) (state : InMemoryState K) : Database :=
  { db with hotstuffState := Table.replace StateRow.token db.hotstuffState (stateRow state) }

/-- The committed transaction of one flush task. -/
def flush (C : Codec K) (db : Database) (data : DirtyData K) : Database :=
  -- both of the first two loops write to `qc`, and the first row of a view stays
  let db := data.propQueue.foldl (flushProp C) db
  let db := data.justifyQueue.foldl (flushQc C) db
  let db := data.partialTcQueue.foldl (flushPartialTc C) db
  let db := data.combinedTcQueue.foldl (flushCombinedTc C) db
  db.flushState data.state

end Database

/-! ## Recovery -/

/-- `NodeHash::from_vec`: the first 32 bytes, padded with zeros. -/
def NodeHash.fromVec (v : Bytes) : NodeHash :=
  ⟨v.take 32 ++ List.replicate (32 - v.length) 0, by
    rw [List.length_append, List.length_take, List.length_replicate]
    omega⟩

def combinedSignFromVecU8 (v : Bytes) : Option K.CombinedSign :=
  if h : v.length = 96 then K.fromBytes ⟨v, h⟩ else none

/-- `map_row_to_proposal` on a row of `proposal inner join qc`. -/
def mapRowToProposal (C : Codec K) (row : ProposalRow × QcRow) :
    Option (NodeHash × TreeNode K) := do
  let view := row.1.view
  let parentHash ← C.base64Decode row.1.parentHash
  let txs ← C.txsFromJson row.1.txn
  let nodeHash ← C.base64Decode row.2.nodeHash
  let sign ← C.base64Decode row.2.combinedSign
  let combinedSign ← combinedSignFromVecU8 sign
  let nodeHash := NodeHash.fromVec nodeHash
  -- the view of the justify is read from column 0, the view of the proposal, and its hash
  -- is also the key of the node
  some (nodeHash, ⟨view, txs, NodeHash.fromVec parentHash, ⟨view, nodeHash, combinedSign⟩⟩)

namespace Database

/-- `proposal inner join qc on proposal.justify_view = qc.view`. -/
def join (db : Database) : List (ProposalRow × QcRow) :=
  db.proposal.flatMap fun p => (db.qc.filter fun q => q.view = p.justifyView).map fun q => (p, q)

/-- A result of `select * from proposal inner join qc .. order by proposal.justify_view`.
Rows of one `justify_view` come in any order. -/
def IsOrderedJoin (db : Database) (rows : List (ProposalRow × QcRow)) : Prop :=
  rows.Perm db.join ∧ rows.Pairwise fun a b => a.1.justifyView ≤ b.1.justifyView

def getOneNodeByView (C : Codec K) (db : Database) (view : ViewNumber) :
    Option (NodeHash × TreeNode K) :=
  (db.join.filter fun row => row.1.view = view).head?.bind (mapRowToProposal C)

/-- The three nodes of the state are looked up by height; height 0 is `INIT_NODE`. -/
def nodeAt (C : Codec K) (db : Database) (view : ViewNumber) : Option (TreeNode K) :=
  if 0 < view then (db.getOneNodeByView C view).map Prod.snd else some (initNode K)

def recoverHotstuffState (C : Codec K) (db : Database) : Option (InMemoryState K) := do
  let row ← db.hotstuffState.head?
  let leaf ← db.nodeAt C row.leafView
  let bLocked ← db.nodeAt C row.lockedView
  let lastCommit ← db.nodeAt C row.executedView
  -- `qc_high` is not stored; the justify of the leaf takes its place
  some
    { token := row.token, leaf := leaf, qcHigh := leaf.justify, vheight := row.lastVotedView,
      currentView := row.currentView, committedHeight := row.committedView,
      lastCommit := lastCommit, bLocked := bLocked }

/-- `HashSet::insert`, which keeps the certificate that is there. -/
def insertTc (tcs : TcSet K) (tc : TimeoutCertificate K) : TcSet K :=
  if (tcs.lookup (tc.view, tc.sender)).isSome then tcs else tcs.insert (tc.view, tc.sender) tc

def recoverTcMap (C : Codec K) (db : Database) : Option (Finmap fun _ : ViewNumber => TcSet K) :=
  db.partialTc.foldlM (fun tcMap row => (C.tcFromJson row.partialSign).map fun tc =>
    tcMap.insert row.view (insertTc (HashMap.entryD tcMap row.view ∅) tc)) ∅

def recoverHotstuffConfig (db : Database) : Option HotStuffConfig :=
  db.hotstuffConf.head?.map fun row => ⟨row.token, row.total, row.selfId, db.peers⟩

def recoverSignaturer (C : Codec K) (db : Database) (token : String) :
    Option (DefaultSignaturer K) := do
  let row ← Table.select CryptoRow.token db.crypto token
  let pks ← C.pksFromJson row.pkSet
  let sks ← C.sksFromJson row.skShare
  some ⟨row.skId, pks, sks⟩

def insertEntry (store : BlockStore K) (e : NodeHash × TreeNode K) : BlockStore K :=
  store.insert e.1 e.2

/-- The block store read from the rows of the join: `collect` into a hash map. -/
def recoverInMemQueue (C : Codec K) (rows : List (ProposalRow × QcRow)) :
    Option (BlockStore K) :=
  (rows.mapM (mapRowToProposal C)).map fun nodes => nodes.foldl insertEntry ∅

end Database

/-- `HotstuffStorage::recover`. The new backend has a channel of capacity 4 whose receiver is
parked in `recvr_tmp`, so that `receiving` is true: sends succeed until the channel is full.
Nobody takes the tasks; the flusher is spawned by `init`, which drops the tables. -/
def HotstuffStorage.recover (C : Codec K) (db : Database) (token : String)
    (rows : List (ProposalRow × QcRow)) : Option (HotstuffStorage K) := do
  let conf ← db.recoverHotstuffConfig
  let inMemQueue ← Database.recoverInMemQueue C rows
  let state ← db.recoverHotstuffState C
  let tcMap ← db.recoverTcMap C
  let signaturer ← db.recoverSignaturer C token
  some
    { backend := some ⟨[], true⟩, state := state, conf := conf, signaturer := signaturer,
      inMemQueue := inMemQueue, tcMap := tcMap, newViewSet := ∅, combinedTcQueue := [],
      partialTcQueue := [], propQueue := [], justifyQueue := [], dirty := false }

end HotstuffConsensus
