import Mathlib.Data.Finset.Max
import HotstuffConsensus.TimeoutCertificate
import HotstuffConsensus.Lib.U64

/-!
# The storage of a replica (`hss`)

`HotstuffStorage` is the block store, the consensus state (`InMemoryState`) and the
queues of data not yet handed to the database. The methods below are those of the
source's `SafetyStorage` and `LivenessStorage`, as functions on the whole storage.

`updateLeaf` assigns `vheight` and `updateVheight` takes a maximum: both write the same
field, and `updateQcHigh` goes through the former.
-/

namespace HotstuffConsensus

open Lib

variable {K : Crypto}

structure InMemoryState (K : Crypto) where
  token : String
  leaf : TreeNode K
  qcHigh : GenericQC K
  vheight : ViewNumber
  currentView : ViewNumber
  committedHeight : ViewNumber
  lastCommit : TreeNode K
  bLocked : TreeNode K

structure HotStuffConfig where
  token : String
  total : ℕ
  replicaId : ReplicaID
  peersAddr : Finmap fun _ : ReplicaID => String

def HotStuffConfig.threshold (conf : HotStuffConfig) : ℕ := (conf.total <<< 1) / 3

/-- `DirtyData`, the payload of a `FlushTask`. -/
structure DirtyData (K : Crypto) where
  combinedTcQueue : List (TimeoutCertificate K)
  partialTcQueue : List (TimeoutCertificate K)
  propQueue : List (TreeNode K)
  justifyQueue : List (GenericQC K)
  state : InMemoryState K

/-- `MySQLStorage`, seen from the storage: the channel to the flusher task, holding the
tasks it has not received yet, and whether the flusher still receives. -/
structure MySQLStorage (K : Crypto) where
  channel : List (DirtyData K)
  receiving : Bool

/-- `let _ = self.sender.send(task).await`: the task is dropped when nobody receives. -/
def MySQLStorage.asyncFlush (backend : MySQLStorage K) (task : DirtyData K) : MySQLStorage K :=
  if backend.receiving then { backend with channel := backend.channel ++ [task] } else backend

abbrev BlockStore (K : Crypto) := Finmap fun _ : NodeHash => TreeNode K

structure HotstuffStorage (K : Crypto) where
  backend : Option (MySQLStorage K)
  state : InMemoryState K
  conf : HotStuffConfig
  signaturer : DefaultSignaturer K
  inMemQueue : BlockStore K
  tcMap : Finmap fun _ : ViewNumber => TcSet K
  newViewSet : Finmap fun _ : ViewNumber => Finmap fun _ : ReplicaID => GenericQC K
  combinedTcQueue : List (TimeoutCertificate K)
  partialTcQueue : List (TimeoutCertificate K)
  propQueue : List (TreeNode K)
  justifyQueue : List (GenericQC K)
  dirty : Bool

/-! ## The ancestor walk of `is_conflicting` -/

/-- The `while` loop of `is_conflicting`: follow parent hashes through stored blocks
until the height is no longer above `bound` or the parent is unknown. The loop
variables `height_now` and `parent_hash` are those of `node` throughout. -/
def walk (store : BlockStore K) (bound : ViewNumber) : ℕ → TreeNode K → TreeNode K
  | 0, node => node
  | fuel + 1, node =>
    if bound < node.height then
      match store.lookup node.parent with
      | some prev => walk store bound fuel prev
      | none => node
    else node

/-- An acyclic walk enters every stored block at most once, so one step more than there
are stored blocks is enough for the loop to end by itself. -/
def walkFuel (store : BlockStore K) : ℕ := HashMap.size store + 1

namespace HotstuffStorage

def new (token : String) (initNode : TreeNode K) (initQc : GenericQC K) (conf : HotStuffConfig)
    (signaturer : DefaultSignaturer K) (backend : Option (MySQLStorage K)) :
    HotstuffStorage K where
  backend := backend
  state :=
    { token := token, leaf := initNode, qcHigh := initQc, vheight := 0, currentView := 0,
      committedHeight := 0, lastCommit := initNode, bLocked := initNode }
  conf := conf
  signaturer := signaturer
  inMemQueue := ∅
  tcMap := ∅
  newViewSet := ∅
  combinedTcQueue := []
  partialTcQueue := []
  propQueue := []
  justifyQueue := []
  dirty := false

def threshold (s : HotstuffStorage K) : ℕ := (s.conf.total <<< 1) / 3

def asyncFlush (s : HotstuffStorage K) : HotstuffStorage K :=
  if s.dirty then
    match s.backend with
    | some backend =>
      { s with
        backend := some (backend.asyncFlush
          ⟨s.combinedTcQueue, s.partialTcQueue, s.propQueue, s.justifyQueue, s.state⟩)
        combinedTcQueue := [], partialTcQueue := [], propQueue := [], justifyQueue := []
        dirty := false }
    -- in memory only: the queues keep growing and the storage stays dirty
    | none => s
  else s

def get (s : HotstuffStorage K) (nodeHash : NodeHash) : Option (TreeNode K) :=
  s.inMemQueue.lookup nodeHash

def insert (s : HotstuffStorage K) (nodeHash : NodeHash) (prop : TreeNode K) :
    HotstuffStorage K :=
  { s with inMemQueue := s.inMemQueue.insert nodeHash prop, propQueue := s.propQueue ++ [prop] }

def setDirty (s : HotstuffStorage K) : HotstuffStorage K := { s with dirty := true }

/-! ## `SafetyStorage` -/

def appendNewNode (s : HotstuffStorage K) (node : TreeNode K) : HotstuffStorage K :=
  (s.insert node.hash node).setDirty

def appendNewQc (s : HotstuffStorage K) (qc : GenericQC K) : HotstuffStorage K :=
  { s with justifyQueue := s.justifyQueue ++ [qc] }.setDirty

/-- `b'' -> b' -> b` by justify links, as far as the blocks are stored. -/
def findThreeChain (s : HotstuffStorage K) (node : TreeNode K) : List (TreeNode K) :=
  match s.get node.justify.node with
  | none => []
  | some b3 =>
    match s.get b3.justify.node with
    | none => [b3]
    | some b2 =>
      match s.get b2.justify.node with
      | none => [b3, b2]
      | some b1 => [b3, b2, b1]

def updateLeaf (s : HotstuffStorage K) (newLeaf : TreeNode K) : HotstuffStorage K :=
  -- a plain assignment, not the maximum of `update_vheight`: `vheight` may fall
  ({ s with state := { s.state with vheight := newLeaf.height, leaf := newLeaf } }.insert
    newLeaf.hash newLeaf).setDirty

def updateQcHigh (s : HotstuffStorage K) (newQcNode : TreeNode K) (newQcHigh : GenericQC K) :
    HotstuffStorage K :=
  match s.get s.state.qcHigh.node with
  | some qcNode =>
    -- the height of the node handed over, whatever node `newQcHigh` names
    if qcNode.height < newQcNode.height then
      (({ s with state := { s.state with qcHigh := newQcHigh } }.updateLeaf newQcNode).appendNewQc
        newQcHigh).setDirty
    else s
  | none => s

def isConflicting (s : HotstuffStorage K) (a b : TreeNode K) : Bool :=
  -- the walk starts at the higher of the two
  if b.height ≤ a.height then
    (walk s.inMemQueue b.height (walkFuel s.inMemQueue) a).hash != b.hash
  else
    (walk s.inMemQueue a.height (walkFuel s.inMemQueue) b).hash != a.hash

def updateLockedNode (s : HotstuffStorage K) (node : TreeNode K) : HotstuffStorage K :=
  { s with state := { s.state with bLocked := node } }.setDirty

def increaseView (s : HotstuffStorage K) (newView : ViewNumber) : HotstuffStorage K :=
  { s with state := { s.state with currentView := max s.state.currentView newView } }.setDirty

def isConsecutiveThreeChain (chain : List (TreeNode K)) : Bool :=
  match chain with
  -- parent links only, the heights may have gaps
  | [b3, b2, b] => b3.parent == b2.hash && b2.parent == b.hash
  | _ => false

def updateVheight (s : HotstuffStorage K) (vheight : ViewNumber) : HotstuffStorage K :=
  { s with state := { s.state with vheight := max s.state.vheight vheight } }.setDirty

/-- `commit`. The `for` loop over `committed_height + 1 ..= to_commit.height()` only
counts, and leaves `committed_height` at the end of the range. -/
def commit (s : HotstuffStorage K) (toCommit : TreeNode K) : HotstuffStorage K :=
  if toCommit.height ≤ s.state.committedHeight then s
  else
    { s with state :=
        { s.state with committedHeight := toCommit.height, lastCommit := toCommit } }.setDirty

/-! ## `LivenessStorage` -/

/-- `compress_tc`: the highest view with enough certificates leaves `tc_map`, and the
combined certificate is queued when combining succeeds. -/
def compressTc (s : HotstuffStorage K) : HotstuffStorage K × Option ViewNumber :=
  let full := s.tcMap.keys.filter fun v =>
    s.conf.threshold ≤ ((s.tcMap.lookup v).map HashMap.size).getD 0
  match full.max with
  | ⊥ => (s, none)
  | (v : ViewNumber) =>
    -- the view is given up even when the certificates do not combine
    let s' := { s with tcMap := s.tcMap.erase v }
    match (s.tcMap.lookup v).bind
        (combineTimeCertificates s.signaturer v s.state.qcHigh) with
    | some tc => ({ s' with combinedTcQueue := s.combinedTcQueue ++ [tc] }, some v)
    | none => (s', some v)

def appendTc (s : HotstuffStorage K) (tc : TimeoutCertificate K) :
    HotstuffStorage K × ViewNumber :=
  let s' := match tc.viewSign with
    | .part _ => { s with partialTcQueue := s.partialTcQueue ++ [tc] }.setDirty
    | .combined _ => { s with combinedTcQueue := s.combinedTcQueue ++ [tc] }.setDirty
  let (s'', v) := s'.compressTc
  -- `self.get_view().saturating_sub(1)`
  (s'', v.getD (if s''.state.currentView = 0 then 0 else s''.state.currentView - 1))

def isReachThreshold (s : HotstuffStorage K) (view : ViewNumber) : Bool :=
  ((s.tcMap.lookup view).map fun tcs => decide (s.conf.threshold ≤ HashMap.size tcs)).getD false

/-- `<HotstuffStorage as LivenessStorage>::update_qc_high`. -/
def livenessUpdateQcHigh (s : HotstuffStorage K) (node : TreeNode K) (qc : GenericQC K) :
    HotstuffStorage K :=
  (s.updateQcHigh node qc).setDirty

/-- The entry `new_view_set(view)` hands out; the entry is made when it is missing. -/
def newViewSetEntry (s : HotstuffStorage K) (view : ViewNumber) :
    Finmap fun _ : ReplicaID => GenericQC K :=
  HashMap.entryD s.newViewSet view ∅

/-- `new_view_set(view).insert(from, qc)`. -/
def insertNewView (s : HotstuffStorage K) (view : ViewNumber) (sender : ReplicaID)
    (qc : GenericQC K) : HotstuffStorage K :=
  { s with newViewSet := s.newViewSet.insert view ((s.newViewSetEntry view).insert sender qc) }

/-- `clean_new_view_set`: `split_off` keeps the views from the threshold on. -/
def cleanNewViewSet (s : HotstuffStorage K) (viewThreshold : ViewNumber) : HotstuffStorage K :=
  { s with newViewSet := HashMap.filterKeys (viewThreshold ≤ ·) s.newViewSet }

end HotstuffStorage

/-- `init_in_mem_storage` with the genesis constants, as every caller passes them. -/
def initInMemStorage (total : ℕ) (selfId : ReplicaID)
    (peersAddr : Finmap fun _ : ReplicaID => String) (signaturer : DefaultSignaturer K) :
    HotstuffStorage K :=
  let token := "hotstuff_test"
  let hss := HotstuffStorage.new token (initNode K) (initQc K)
    ⟨token, total, selfId, peersAddr⟩ signaturer none
  { hss with inMemQueue := hss.inMemQueue.insert (initNodeHash K) (initNode K) }

/-- `init_hotstuff_storage`: the same with a database, whose tables are fresh and whose
flusher is running. -/
def initHotstuffStorage (token : String) (total : ℕ) (selfId : ReplicaID)
    (peersAddr : Finmap fun _ : ReplicaID => String) (signaturer : DefaultSignaturer K) :
    HotstuffStorage K :=
  let hss := HotstuffStorage.new token (initNode K) (initQc K)
    ⟨token, total, selfId, peersAddr⟩ signaturer (some ⟨[], true⟩)
  { hss with inMemQueue := hss.inMemQueue.insert (initNodeHash K) (initNode K) }

/-- A freshly initialised storage, with or without a database. -/
inductive FreshStorage : HotstuffStorage K → Prop
  | inMem (total : ℕ) (selfId : ReplicaID) (peersAddr : Finmap fun _ : ReplicaID => String)
      (signaturer : DefaultSignaturer K) :
      FreshStorage (initInMemStorage total selfId peersAddr signaturer)
  | database (token : String) (total : ℕ) (selfId : ReplicaID)
      (peersAddr : Finmap fun _ : ReplicaID => String) (signaturer : DefaultSignaturer K) :
      FreshStorage (initHotstuffStorage token total selfId peersAddr signaturer)

end HotstuffConsensus
