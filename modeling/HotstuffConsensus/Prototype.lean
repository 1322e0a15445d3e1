import HotstuffConsensus.Data
import HotstuffConsensus.Lib.HashMap

/-!
# The prototype (`hs-prototype`)

The block pool and the state machine of the version the other crates grew out of. A block has
commands, which are strings, and the hash of its justify instead of the certificate; the
certificates are in a map of their own, under these hashes.

`Machine` has the fields that the methods below read or write. The view, the heights voted for and
executed, the votes, the peers, the keys and the channels are left out.
-/

namespace HotstuffConsensus.Prototype

open Lib

variable {K : Crypto}

abbrev Cmd := String

def Cmd.asBytes (cmd : Cmd) : Bytes := cmd.toUTF8.data.toList

/-- `QCHash([u8; 32])`. -/
abbrev QCHash := List.Vector UInt8 32

/-- `QCHash::genesis()`. -/
def QCHash.genesis : QCHash := List.Vector.replicate 32 0

structure TreeNode where
  height : ViewNumber
  cmds : List Cmd
  parent : NodeHash
  justify : QCHash
deriving DecidableEq

namespace TreeNode

def genesis : TreeNode := ⟨0, [], genesisHash, .genesis⟩

def hash (K : Crypto) (node : TreeNode) : NodeHash :=
  K.sha256 (node.cmds.flatMap Cmd.asBytes ++ beBytes node.height ++ node.parent.toList)

end TreeNode

/-- A certificate; it has no signature for bootstrapping. -/
structure GenericQC (K : Crypto) where
  view : ViewNumber
  node : NodeHash
  combinedSign : Option K.CombinedSign

namespace GenericQC

def genesis (view : ViewNumber) (node : TreeNode) : GenericQC K := ⟨view, node.hash K, none⟩

/-- Bytes 32 to 63 of the signature, or zeros. -/
def hash (qc : GenericQC K) : QCHash :=
  match qc.combinedSign with
  | some v => ((K.toBytes v).drop 32).take 32
  | none => List.Vector.replicate 32 0

end GenericQC

abbrev NodePool := Finmap fun _ : NodeHash => TreeNode

structure Machine (K : Crypto) where
  nodePool : NodePool
  qcMap : Finmap fun _ : QCHash => GenericQC K
  leaf : TreeNode
  leafHigh : ViewNumber
  qcHigh : GenericQC K
  commitHeight : ViewNumber
  bLocked : TreeNode

/-- The `while` loop of `is_conflicting`. -/
def walk (pool : NodePool) (bound : ViewNumber) : ℕ → TreeNode → TreeNode
  | 0, node => node
  | fuel + 1, node =>
    if bound < node.height then
      match pool.lookup node.parent with
      | some prev => walk pool bound fuel prev
      | none => node
    else node

/-- A walk to lower and lower blocks enters each block of the pool at most once. -/
def walkFuel (pool : NodePool) : ℕ := HashMap.size pool + 1

namespace Machine

def new : Machine K :=
  let node := TreeNode.genesis
  let firstQc : GenericQC K := .genesis 0 node
  { nodePool := (∅ : NodePool).insert (node.hash K) node
    qcMap := (∅ : Finmap fun _ : QCHash => GenericQC K).insert firstQc.hash firstQc
    leaf := node
    leafHigh := 0
    qcHigh := firstQc
    commitHeight := 0
    bLocked := node }

/-! ## `MemPool` -/

def appendNewNode (m : Machine K) (node : TreeNode) : Machine K :=
  { m with nodePool := m.nodePool.insert (node.hash K) node }

def appendNewQc (m : Machine K) (qc : GenericQC K) : Machine K :=
  { m with qcMap := m.qcMap.insert qc.hash qc }

def getNode (m : Machine K) (nodeHash : NodeHash) : Option TreeNode := m.nodePool.lookup nodeHash

def getQc (m : Machine K) (qcHash : QCHash) : Option (GenericQC K) := m.qcMap.lookup qcHash

def findNodeByQc (m : Machine K) (qcHash : QCHash) : Option TreeNode :=
  (m.getQc qcHash).bind fun qc => m.getNode qc.node

def findThreeChain (m : Machine K) (node : TreeNode) : List TreeNode :=
  match m.findNodeByQc node.justify with
  | none => []
  | some b3 =>
    match m.findNodeByQc b3.justify with
    | none => [b3]
    | some b2 =>
      match m.findNodeByQc b2.justify with
      | none => [b3, b2]
      | some b1 => [b3, b2, b1]

def updateLeaf (m : Machine K) (newLeaf : TreeNode) : Machine K :=
  if m.leafHigh < newLeaf.height then
    { m with
      leafHigh := newLeaf.height
      leaf := newLeaf
      nodePool := m.nodePool.insert (newLeaf.hash K) newLeaf }
  else m

def updateQcHigh (m : Machine K) (newQcNode : TreeNode) (newQcHigh : GenericQC K) : Machine K :=
  match m.findNodeByQc m.qcHigh.hash with
  | some qcNode =>
    if qcNode.height < newQcNode.height then
      -- `leaf_high` is the height of the new leaf already, so `update_leaf` does nothing
      { m with qcHigh := newQcHigh, leafHigh := newQcNode.height }.updateLeaf newQcNode
    else m
  | none => m

def isConflicting (m : Machine K) (a b : TreeNode) : Bool :=
  let pair := if b.height ≤ a.height then (a, b) else (b, a)
  let node := walk m.nodePool pair.2.height (walkFuel m.nodePool) pair.1
  -- height and commands, not the hash
  !(node.height == pair.2.height && node.cmds == pair.2.cmds)

def updateLockedNode (m : Machine K) (node : TreeNode) : Machine K := { m with bLocked := node }

def isContinuesThreeChain (K : Crypto) (chain : List TreeNode) : Bool :=
  match chain with
  -- the parent of `b_3` is compared with `b_3` itself
  | [b3, b2, b] => b3.parent == b3.hash K && b2.parent == b.hash K
  | _ => false

/-! ## `StateMachine` -/

/-- `on_commit`, which follows the parents down to the lock. -/
def onCommit : ℕ → Machine K → TreeNode → Machine K
  | 0, m, _ => m
  | fuel + 1, m, node =>
    if m.bLocked.height < node.height then
      let m := match m.getNode node.parent with
        | some parent => onCommit fuel m parent
        | none => m
      { m with commitHeight := node.height }
    else m

/-- The first part of `update_nodes`. The source unwraps the certificate: it led to the first
block of the chain. -/
def updateNodesQcHigh (m : Machine K) (chain : List TreeNode) (node : TreeNode) : Machine K :=
  match chain[0]?, m.getQc node.justify with
  | some b3, some b3Qc => m.updateQcHigh b3 b3Qc
  | _, _ => m

/-- The second part of `update_nodes`, with the lock before it. -/
def updateNodesLocked (m : Machine K) (bLock : TreeNode) (chain : List TreeNode)
    (node : TreeNode) : Machine K :=
  match chain[1]? with
  -- it is `node` that is locked, not `b_2`
  | some b2 => if bLock.height < b2.height then m.updateLockedNode node else m
  | none => m

def updateNodes (m : Machine K) (node : TreeNode) : Machine K :=
  let chain := m.findThreeChain node
  let bLock := m.bLocked
  let m := (m.updateNodesQcHigh chain node).updateNodesLocked bLock chain node
  if isContinuesThreeChain K chain then
    match chain.getLast? with
    | some b => onCommit (walkFuel m.nodePool) m b
    | none => m
  else m

def safeNode (m : Machine K) (node prevNode : TreeNode) : Bool :=
  !m.isConflicting node m.bLocked || decide (m.bLocked.height < prevNode.height)

end Machine

end HotstuffConsensus.Prototype
