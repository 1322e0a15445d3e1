import HotstuffConsensus.PacemakerCore
import HotstuffConsensus.CommitRule

/-!
# The writes of a step

Block store, leaf and `qc_high` are the `Tree` of a replica. `Write` lists the ways in which
it is written, and `EventLoop.writes` the writes of a step of the event loop, in order: those
of the proposals it processes, of a quorum of votes, of a `NewView` message, of a beat and of a
`Ready::UpdateQCHigh`. The step and its writes agree (`step_tree`), so an invariant of the tree
has to be checked against single writes only.
-/

namespace HotstuffConsensus

open Lib

variable {K : Crypto}

structure Tree (K : Crypto) where
  store : BlockStore K
  leaf : TreeNode K
  qcHigh : GenericQC K

inductive Write (K : Crypto) where
  /-- `append_new_node`. -/
  | append (x : TreeNode K)
  /-- `update_qc_high`. -/
  | install (x : TreeNode K) (qc : GenericQC K)
  /-- `update_leaf`, on a beat. -/
  | lead (x : TreeNode K)

/-- The block that is written. -/
def Write.block : Write K → TreeNode K
  | .append x => x
  | .install x _ => x
  | .lead x => x

namespace Tree

/-- The guard of `update_qc_high`. -/
def Raises (t : Tree K) (x : TreeNode K) : Prop :=
  ∃ qcNode ∈ t.store.lookup t.qcHigh.node, qcNode.height < x.height

instance decidableRaises (t : Tree K) (x : TreeNode K) : Decidable (t.Raises x) :=
  inferInstanceAs (Decidable (∃ qcNode ∈ t.store.lookup t.qcHigh.node, qcNode.height < x.height))

def write (t : Tree K) : Write K → Tree K
  | .append x => { t with store := t.store.insert x.hash x }
  | .install x qc => if t.Raises x then ⟨t.store.insert x.hash x, x, qc⟩ else t
  | .lead x => ⟨t.store.insert x.hash x, x, t.qcHigh⟩

/-- The tree after some writes. -/
def run (t : Tree K) (ws : List (Write K)) : Tree K := ws.foldl write t

theorem run_append (t : Tree K) (before after : List (Write K)) :
    t.run (before ++ after) = (t.run before).run after :=
  List.foldl_append

end Tree

namespace HotstuffStorage

def tree (s : HotstuffStorage K) : Tree K := ⟨s.inMemQueue, s.state.leaf, s.state.qcHigh⟩

theorem raises_tree {s : HotstuffStorage K} {x : TreeNode K} : s.tree.Raises x ↔ s.Raises x :=
  Iff.rfl

theorem tree_congr {s s' : HotstuffStorage K}
    (h : s'.state = s.state ∧ s'.inMemQueue = s.inMemQueue) : s'.tree = s.tree := by
  unfold tree
  rw [h.1, h.2]

theorem updateQcHigh_tree (s : HotstuffStorage K) (x : TreeNode K) (qc : GenericQC K) :
    (s.updateQcHigh x qc).tree = s.tree.write (.install x qc) := by
  show _ = if s.tree.Raises x then _ else _
  by_cases hr : s.Raises x
  · obtain ⟨hst, hq⟩ := updateQcHigh_of_raises qc hr
    rw [if_pos (raises_tree.mpr hr)]
    unfold tree
    rw [hst, hq]
  · rw [if_neg (fun h => hr (raises_tree.mp h)), updateQcHigh_of_not_raises hr]

theorem commit_tree (s : HotstuffStorage K) (b : TreeNode K) : (s.commit b).tree = s.tree := by
  unfold commit
  split <;> rfl

/-- The write of `update_qc_high` with a certificate and the stored block it names. -/
def certifyWrites (s : HotstuffStorage K) (qc : GenericQC K) : List (Write K) :=
  match s.get qc.node with
  | some node => [.install node qc]
  | none => []

end HotstuffStorage

/-! ## The writes of the machine -/

namespace Machine

/-- The writes of a proposal whose justify was verified. -/
def propWrites (m : Machine K) (p : TreeNode K) : List (Write K) :=
  (if m.accepts p then [.append p] else []) ++ (m.stored p).storage.certifyWrites p.justify

def syncWrites (m : Machine K) : List (TreeNode K) → List (Write K)
  | [] => []
  | p :: branch =>
    match m.verifyProposal p.justify with
    | .error _ => []
    | .ok _ => m.propWrites p ++ (m.processProp p).syncWrites branch

def voteWrites (m : Machine K) (ctx : Context) (prop : TreeNode K) (sign : SignKit K) :
    List (Write K) :=
  match m.voteQuorum ctx prop sign with
  | some combinedSign => [.install prop (m.formQc combinedSign)]
  | none => []

def writes (m : Machine K) : SafetyEvent K → List (Write K)
  -- a proposal writes what a branch of one block does
  | .recvProposal _ p => m.syncWrites [p]
  | .branchSync _ branch => m.syncWrites branch
  | .recvSign ctx prop sign => m.voteWrites ctx prop sign
  | .recvNewViewMsg _ qc => m.storage.certifyWrites qc
  | .newTx cmds => [.lead (m.makeLeaf cmds)]
  | _ => []

theorem updateNodesQcHigh_tree (s : HotstuffStorage K) (p : TreeNode K) :
    (updateNodesQcHigh s (s.findThreeChain p) p).tree = s.tree.run (s.certifyWrites p.justify) := by
  unfold updateNodesQcHigh HotstuffStorage.certifyWrites
  rw [HotstuffStorage.findThreeChain_head?]
  cases s.get p.justify.node with
  | none => rfl
  | some b3 => exact s.updateQcHigh_tree b3 p.justify

theorem updateNodesLocked_tree (s : HotstuffStorage K) (chain : List (TreeNode K)) :
    (updateNodesLocked s chain).tree = s.tree := by
  unfold updateNodesLocked
  split
  · split <;> rfl
  · rfl

/-- Of `update_nodes` only the part that may raise `qc_high` writes the tree. -/
theorem updateNodes_tree (m : Machine K) (p : TreeNode K) :
    (m.updateNodes p).1.storage.tree = m.storage.tree.run (m.storage.certifyWrites p.justify) := by
  rw [← updateNodesQcHigh_tree]
  rcases m.updateNodes_eq_or_commit p with hs | ⟨b, hs⟩
  · rw [hs, updateNodesLocked_tree]
  · rw [hs, HotstuffStorage.commit_tree, updateNodesLocked_tree]

theorem stored_tree (m : Machine K) (p : TreeNode K) :
    (m.stored p).storage.tree =
      m.storage.tree.run (if m.accepts p then [.append p] else []) := by
  unfold stored
  split <;> rfl

theorem processProp_tree (m : Machine K) (p : TreeNode K) :
    (m.processProp p).storage.tree = m.storage.tree.run (m.propWrites p) := by
  unfold propWrites
  rw [Tree.run_append, ← stored_tree]
  exact (m.stored p).updateNodes_tree p

theorem syncNodes_tree (m : Machine K) (branch : List (TreeNode K)) :
    (m.syncNodes branch).storage.tree = m.storage.tree.run (m.syncWrites branch) := by
  induction branch generalizing m with
  | nil => rfl
  | cons p branch ih =>
    unfold syncNodes syncWrites
    rw [syncNode_eq]
    cases m.verifyProposal p.justify with
    | error e => rfl
    | ok r =>
      show ((m.processProp p).syncNodes branch).storage.tree = _
      rw [ih, processProp_tree, ← Tree.run_append]

theorem processSafetyEvent_tree (m : Machine K) (e : SafetyEvent K) :
    (m.processSafetyEvent e).1.storage.tree = m.storage.tree.run (m.writes e) := by
  match e with
  | .recvProposal ctx p =>
    show (m.onRecvProposal ctx p p.justify).1.storage.tree = _
    rw [onRecvProposal_eq_syncNodes]
    exact m.syncNodes_tree [p]
  | .branchSync ctx branch => exact m.syncNodes_tree branch
  | .recvSign ctx prop sign =>
    show (m.onRecvVote ctx prop sign).1.storage.tree =
      m.storage.tree.run (m.voteWrites ctx prop sign)
    unfold voteWrites
    rcases m.onRecvVote_cases ctx prop sign with ⟨c, hquorum, -, hs⟩ | ⟨hquorum, -, hs⟩
    · rw [hs, hquorum]
      exact HotstuffStorage.updateQcHigh_tree _ _ _
    · rw [hs, hquorum]
      rfl
  | .recvNewViewMsg ctx qc =>
    show (m.onRecvNewView qc).1.storage.tree = m.storage.tree.run (m.storage.certifyWrites qc)
    unfold HotstuffStorage.certifyWrites
    rcases m.onRecvNewView_cases qc with ⟨hnone, heq⟩ | ⟨node, hnode, heq⟩
    · rw [heq, hnone]
      rfl
    · rw [heq, hnode]
      exact HotstuffStorage.updateQcHigh_tree _ _ _
  | .newTx cmds => rfl
  | .newLeader ctx leader =>
    obtain ⟨l, heq⟩ := m.newLeader_eq ctx leader
    rw [heq]
    rfl
  | .requestSnapshot => rfl
  | .viewChange leader view => rfl
  | .propose ctx node qc => rfl

end Machine

/-! ## The writes of the event loop -/

namespace Core

def tree (c : Core K) : Tree K := c.storage.tree

def writes (c : Core K) : Op K → List (Write K)
  | .event e => c.machine.writes e
  | .updateQcHigh node => [.install node node.justify]
  | _ => []

/-- The writes of some operations. -/
def runWrites (c : Core K) : List (Op K) → List (Write K)
  | [] => []
  | op :: ops => c.writes op ++ (c.apply op).runWrites ops

theorem apply_tree (c : Core K) (op : Op K) : (c.apply op).tree = c.tree.run (c.writes op) := by
  cases op with
  | goto view => rfl
  | increaseView => rfl
  | touch => rfl
  | clean => rfl
  | newView view sender qc => rfl
  | appendTc tc => exact HotstuffStorage.tree_congr (c.storage.appendTc_frame tc)
  | flush => exact HotstuffStorage.tree_congr c.storage.asyncFlush_frame
  | flusher => exact HotstuffStorage.tree_congr c.storage.takeTask_frame
  | event e => exact c.machine.processSafetyEvent_tree e
  | updateQcHigh node => exact c.storage.updateQcHigh_tree node node.justify

theorem run_tree (c : Core K) (ops : List (Op K)) :
    (c.run ops).tree = c.tree.run (c.runWrites ops) := by
  induction ops generalizing c with
  | nil => rfl
  | cons op ops ih =>
    show ((c.apply op).run ops).tree = _
    unfold runWrites
    rw [ih, apply_tree, ← Tree.run_append]

end Core

namespace EventLoop

def tree (l : EventLoop K) : Tree K := l.core.tree

def writes (l : EventLoop K) (a : LoopAction K) : List (Write K) := l.core.runWrites (l.ops a)

/-- A step acts on the tree by its writes. -/
theorem step_tree (C : Codec K) (l : EventLoop K) (a : LoopAction K) :
    (step C l a).tree = l.tree.run (l.writes a) := by
  unfold tree
  rw [step_core]
  exact l.core.run_tree (l.ops a)

/-- `P` holds of the tree after the step, and after every write in it. -/
def Throughout (C : Codec K) (P : Tree K → Prop) (l : EventLoop K) (a : LoopAction K) : Prop :=
  P (step C l a).tree ∧ Run.Each Tree.write (fun t w => P (t.write w)) l.tree (l.writes a)

/-- What every write keeps holds throughout a step. -/
theorem throughout_of_each {C : Codec K} {P : Tree K → Prop} {l : EventLoop K} {a : LoopAction K}
    (hl : P l.tree)
    (h : Run.Each Tree.write (fun t w => P (t.write w)) l.tree (l.writes a)) :
    Throughout C P l a := by
  refine ⟨?_, h⟩
  rw [step_tree]
  exact Run.foldl_of_invariant hl h fun _ _ _ hw => hw

theorem start_tree (pm : Pacemaker K) (db : Database) :
    (start pm db).tree = pm.machine.storage.tree := rfl

end EventLoop

theorem FreshStorage.tree_eq {s : HotstuffStorage K} (h : FreshStorage s) :
    s.tree = ⟨(∅ : BlockStore K).insert (initNodeHash K) (initNode K), initNode K, initQc K⟩ := by
  unfold HotstuffStorage.tree
  rw [h.inMemQueue_eq, h.leaf_eq, h.qcHigh_eq]

namespace Symbolic

/-! An event loop in which votes can be evaluated. -/

/-- Without a backend nothing is ever encoded. -/
def codec : Codec symbolic where
  base64Encode _ := ""
  base64Decode _ := none
  txsToJson _ := []
  txsFromJson _ := none
  viewSignToJson _ := ""
  tcFromJson _ := none
  pksToJson _ := []
  pksFromJson _ := none
  sksToJson _ := []
  sksFromJson _ := none

/-- Replica 0 of four, over an in-memory storage. -/
def loop₀ : EventLoop symbolic :=
  .start (.new (replicaId 0) ⟨["replica-0", "replica-1", "replica-2", "replica-3"]⟩ (fresh 4 0)
    (signaturer 4 0)) createTables

def oracle : Oracle symbolic := ⟨0, []⟩

/-- A round with one event of the `select!`, after which `n` results are drained. -/
def round (a : LoopAction symbolic) (n : ℕ) : List (LoopAction symbolic) :=
  .fetch none :: a :: List.replicate (n + 1) (.ready oracle)

/-- The `NewView` messages of replicas 1, 2 and 3 for `view`. -/
def newViews (view : ViewNumber) : List (LoopAction symbolic) :=
  [1, 2, 3].flatMap fun i =>
    round (.network oracle (.newView (.single (replicaId i) (replicaId 0) view) (initQc symbolic))) 1

/-- A round in which the leader makes a proposal. -/
def proposal (tx : UInt8) : List (LoopAction symbolic) :=
  [.fetch (some [⟨[tx]⟩]), .quit, .ready oracle, .ready oracle]

end Symbolic

end HotstuffConsensus
