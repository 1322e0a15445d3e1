import HotstuffConsensus.Storage
import HotstuffConsensus.Voter

/-!
# The safety machine (`safety/machine.rs`)

`Machine` is the event-driven HotStuff replica. Every method that takes `&mut self` in
the source returns the machine after the call together with its result; a result may be
an error and the machine changed all the same.
-/

namespace HotstuffConsensus

variable {K : Crypto}

structure Snapshot (K : Crypto) where
  view : ViewNumber
  leader : Option ReplicaID
  qcHigh : GenericQC K
  leaf : TreeNode K
  lockedNode : TreeNode K
  lastCommitted : ViewNumber

inductive SafetyEvent (K : Crypto) where
  | requestSnapshot
  | recvProposal (ctx : Context) (prop : TreeNode K)
  | recvSign (ctx : Context) (node : TreeNode K) (sign : SignKit K)
  | recvNewViewMsg (ctx : Context) (qcHigh : GenericQC K)
  | viewChange (leader : ReplicaID) (view : ViewNumber)
  | propose (ctx : Context) (node : TreeNode K) (qc : GenericQC K)
  | newTx (cmds : List Txn)
  | newLeader (ctx : Context) (leader : ReplicaID)
  | branchSync (ctx : Context) (branch : List (TreeNode K))

inductive Ready (K : Crypto) where
  | nil
  | internalState (ctx : Context) (ss : Snapshot K)
  | newProposal (ctx : Context) (prop : TreeNode K)
  | updateQCHigh (ctx : Context) (node : TreeNode K)
  | signature (ctx : Context) (prop : TreeNode K) (sign : SignKit K)
  | commitState (ctx : Context) (node : TreeNode K)
  | branchSyncDone (leaf : TreeNode K)
  | proposalReachConsensus (view : ViewNumber)

inductive SafetyErr where
  | voterError (e : VoteErr)
  | corruptedVote
  | corruptedQC
deriving DecidableEq

structure Machine (K : Crypto) where
  storage : HotstuffStorage K
  voter : Voter K
  total : ℕ
  selfId : ReplicaID
  leaderId : Option ReplicaID

namespace Machine

def new (voter : Voter K) (selfId : ReplicaID) (total : ℕ) (leaderId : Option ReplicaID)
    (storage : HotstuffStorage K) : Machine K :=
  ⟨storage, voter, total, selfId, leaderId⟩

def threshold (m : Machine K) : ℕ := (m.total <<< 1) / 3

def formUpdateQcHigh (m : Machine K) : Ready K :=
  .updateQCHigh (.response m.selfId m.storage.state.currentView) m.storage.state.leaf

/-- `verify_proposal`: the certificate must name a stored block and verify for it. The
signature is not looked at when `is_init_qc` holds. -/
def verifyProposal (m : Machine K) (justify : GenericQC K) : Except SafetyErr (Ready K) :=
  match m.storage.get justify.node with
  | some qcNode =>
    -- `is_init_qc` looks at the signature only, so the exemption is not the genesis
    -- certificate's alone
    if !justify.isInitQc && !m.voter.validateQc qcNode justify.combinedSign then
      .error .corruptedQC
    else .ok .nil
  | none => .error .corruptedQC

def makeLeaf (m : Machine K) (cmds : List Txn) : TreeNode K :=
  ⟨m.storage.state.currentView, cmds, m.storage.state.leaf.hash, m.storage.state.qcHigh⟩

def onCommit (m : Machine K) (toCommit : TreeNode K) : Machine K × Ready K :=
  let m := { m with storage := m.storage.commit toCommit }
  (m, .commitState (.response m.selfId m.storage.state.currentView) m.storage.state.lastCommit)

/-- The first part of `update_nodes`: `b''` and the certificate for it may raise
`qc_high`. -/
def updateNodesQcHigh (s : HotstuffStorage K) (chain : List (TreeNode K)) (node : TreeNode K) :
    HotstuffStorage K :=
  match chain[0]? with
  | some b3 => s.updateQcHigh b3 node.justify
  | none => s

/-- The second part of `update_nodes`: `b'` may raise the lock. -/
def updateNodesLocked (s : HotstuffStorage K) (chain : List (TreeNode K)) : HotstuffStorage K :=
  match chain[1]? with
  | some b2 => if s.state.bLocked.height < b2.height then s.updateLockedNode b2 else s
  | none => s

def updateNodes (m : Machine K) (node : TreeNode K) : Machine K × Ready K :=
  let chain := m.storage.findThreeChain node
  let m := { m with storage := updateNodesLocked (updateNodesQcHigh m.storage chain node) chain }
  -- the chain was read before `qc_high` and the lock moved
  if HotstuffStorage.isConsecutiveThreeChain chain then
    match chain.getLast? with
    | some b => m.onCommit b
    | none => (m, .nil)
  else (m, .nil)

def safeNode (m : Machine K) (node justifyNode : TreeNode K) : Bool :=
  let locked := m.storage.state.bLocked
  !m.storage.isConflicting node locked || decide (locked.height < justifyNode.height)

def onBeat (m : Machine K) (cmds : List Txn) : Machine K × Except SafetyErr (Ready K) :=
  let prop := m.makeLeaf cmds
  let m := { m with storage := m.storage.updateLeaf prop }
  let ctx := Context.broadcast m.selfId m.storage.state.currentView
  let signKit := m.voter.sign prop
  -- `let _ = add_vote(..)`: the leader's own vote, a duplicate is ignored
  ({ m with voter := (m.voter.addVote ctx prop.height signKit).1 }, .ok (.newProposal ctx prop))

/-- The certificate `on_recv_vote` builds from a combined signature: it names the leaf. -/
def formQc (m : Machine K) (combinedSign : K.CombinedSign) : GenericQC K :=
  ⟨m.storage.state.currentView, m.storage.state.leaf.hash, combinedSign⟩

def onRecvVote (m : Machine K) (ctx : Context) (prop : TreeNode K) (sign : SignKit K) :
    Machine K × Except SafetyErr (Ready K) :=
  if !m.voter.validateVote prop sign then (m, .error .corruptedVote)
  else
    match m.voter.addVote ctx prop.height sign with
    -- a duplicate is logged; the new share has replaced the old one by then
    | (voter, .error _) => ({ m with voter := voter }, .ok .nil)
    | (voter, .ok ()) =>
      if m.threshold < voter.voteSetSize prop.height then
        match voter.combinePartialSign prop.height with
        | (voter, .ok combinedSign) =>
          let qc := m.formQc combinedSign
          -- `prop` becomes the leaf, but `qc` names the leaf it replaces
          ({ m with voter := voter, storage := m.storage.updateQcHigh prop qc },
            .ok (.proposalReachConsensus qc.view))
        | (voter, .error e) => ({ m with voter := voter }, .error (.voterError e))
      else ({ m with voter := voter }, .ok .nil)

/-- The test a verified proposal must pass to be stored: its justify block is known, it
is higher than `vheight`, and `safe_node` holds. -/
def accepts (m : Machine K) (prop : TreeNode K) : Bool :=
  match m.storage.get prop.justify.node with
  | some prevNode => decide (m.storage.state.vheight < prop.height) && m.safeNode prop prevNode
  | none => false

/-- `append_new_node` and `update_vheight`, what is done with an accepted proposal. -/
def store (m : Machine K) (prop : TreeNode K) : Machine K :=
  { m with storage := (m.storage.appendNewNode prop).updateVheight prop.height }

def onRecvProposal (m : Machine K) (ctx : Context) (prop : TreeNode K) (justify : GenericQC K) :
    Machine K × Except SafetyErr (Ready K) :=
  match m.verifyProposal justify with
  | .error e => (m, .error e)
  | .ok ready =>
    match m.storage.get prop.justify.node with
    | some _ =>
      if m.accepts prop then
        let m := m.store prop
        let ready := .signature (.single m.selfId ctx.sender m.storage.state.currentView) prop
          (m.voter.sign prop)
        ((m.updateNodes prop).1, .ok ready)
      -- not voted for, yet the chain behind its justify takes effect
      else ((m.updateNodes prop).1, .ok ready)
    | none =>
      let m := { m with storage := m.storage.appendNewQc prop.justify }
      ((m.updateNodes prop).1, .ok ready)

/-- One round of the loop of `on_branch_sync`; `none` is the `break`. -/
def syncNode (m : Machine K) (prop : TreeNode K) : Option (Machine K) :=
  match m.verifyProposal prop.justify with
  | .error _ => none
  | .ok _ =>
    -- as for a proposal, except that nothing is signed
    let m := if m.accepts prop then m.store prop else m
    some (m.updateNodes prop).1

/-- The loop of `on_branch_sync`. -/
def syncNodes (m : Machine K) : List (TreeNode K) → Machine K
  | [] => m
  | prop :: branch =>
    match m.syncNode prop with
    | none => m
    | some m => m.syncNodes branch

def onBranchSync (m : Machine K) (branch : List (TreeNode K)) :
    Machine K × Except SafetyErr (Ready K) :=
  let m := m.syncNodes branch
  (m, .ok (.branchSyncDone m.storage.state.leaf))

def onViewChange (m : Machine K) (leader : ReplicaID) (view : ViewNumber) :
    Machine K × Except SafetyErr (Ready K) :=
  if m.storage.state.currentView < view then
    let m := { m with leaderId := some leader, voter := m.voter.reset view,
                      storage := m.storage.increaseView view }
    (m, .ok m.formUpdateQcHigh)
  else (m, .ok .nil)

def takeSnapshot (m : Machine K) : Snapshot K where
  view := m.storage.state.currentView
  leader := m.leaderId
  qcHigh := m.storage.state.qcHigh
  leaf := m.storage.state.leaf
  lockedNode := m.storage.state.bLocked
  lastCommitted := m.storage.state.committedHeight

/-- The `RecvNewViewMsg` arm of `process_safety_event`. -/
def onRecvNewView (m : Machine K) (qcHigh : GenericQC K) :
    Machine K × Except SafetyErr (Ready K) :=
  let m := match m.storage.get qcHigh.node with
    -- the signature of `qcHigh` is not verified
    | some qcNode => { m with storage := m.storage.updateQcHigh qcNode qcHigh }
    | none => m
  (m, .ok m.formUpdateQcHigh)

def processSafetyEvent (m : Machine K) (req : SafetyEvent K) :
    Machine K × Except SafetyErr (Ready K) :=
  match req with
  | .requestSnapshot =>
    (m, .ok (.internalState (.broadcast m.selfId m.storage.state.currentView) m.takeSnapshot))
  | .recvProposal ctx prop => m.onRecvProposal ctx prop prop.justify
  | .recvSign ctx node sign => m.onRecvVote ctx node sign
  | .newTx cmds => m.onBeat cmds
  | .recvNewViewMsg _ qcHigh => m.onRecvNewView qcHigh
  | .newLeader ctx leader =>
    if m.storage.state.currentView ≤ ctx.view ∧ m.leaderId.isNone then
      ({ m with leaderId := some leader }, .ok .nil)
    else (m, .ok .nil)
  | .branchSync _ branch => m.onBranchSync branch
  -- the wildcard arm, which logs `recv invalid msg`
  | .viewChange _ _ => (m, .ok .nil)
  | .propose _ _ _ => (m, .ok .nil)

end Machine

/-- The ways a replica's machine and storage are driven: `process_safety_event`,
`on_view_change`, `increase_view`, and `LivenessStorage::update_qc_high`. -/
inductive Call (K : Crypto) where
  | event (e : SafetyEvent K)
  | viewChange (leader : ReplicaID) (view : ViewNumber)
  | increaseView (view : ViewNumber)
  | updateQcHigh (node : TreeNode K) (qc : GenericQC K)

/-- The machine after a call, and its output if the call has one. -/
def Machine.call (m : Machine K) : Call K → Machine K × Option (Except SafetyErr (Ready K))
  | .event e => ((m.processSafetyEvent e).1, some (m.processSafetyEvent e).2)
  | .viewChange leader view => ((m.onViewChange leader view).1, some (m.onViewChange leader view).2)
  | .increaseView view => ({ m with storage := m.storage.increaseView view }, none)
  | .updateQcHigh node qc => ({ m with storage := m.storage.livenessUpdateQcHigh node qc }, none)

/-- The machine after a sequence of calls. -/
def Machine.run (m : Machine K) (calls : List (Call K)) : Machine K :=
  calls.foldl (fun m c => (m.call c).1) m

end HotstuffConsensus
