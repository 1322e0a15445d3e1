import HotstuffConsensus.Prototype
import HotstuffConsensus.Lib.Base64
import HotstuffConsensus.Lib.Run
import HotstuffConsensus.ThresholdScheme

/-!
# A replica of the prototype (`hs-prototype`)

`Replica` is the `Machine` of the source with the fields that `Prototype.Machine` leaves out, and
`Task` is the task that runs it: it takes one message after the other from its channel. A message
that wants an answer carries the sender of a channel; whether somebody still listens there is
part of the message in the model. What is sent is appended to `sent`. An `unwrap` that fails ends
the task.
-/

namespace HotstuffConsensus.Prototype

open Lib

variable {K : Crypto}

structure Context where
  /-- `from`. -/
  sender : ReplicaID
  view : ViewNumber
deriving DecidableEq

def TreeNode.toBeBytes (node : TreeNode) : Bytes :=
  beBytes node.height ++ node.justify.toList ++ node.parent.toList ++ node.cmds.flatMap Cmd.asBytes

def GenericQC.toBeBytes (qc : GenericQC K) : Bytes :=
  beBytes qc.view ++ qc.node.toList ++
    match qc.combinedSign with
    | some sign => (K.toBytes sign).toList
    | none => []

structure Snapshot where
  view : ViewNumber
  leader : Option ReplicaID
  threshold : ℕ
  nodeNum : ℕ
  leaf : List Char
  qcHigh : List Char

/-- The messages to a replica. The `Bool` of a message with a channel is whether there is a
receiver; that of `newTx` is about `step_out`, where the proposal goes. -/
inductive InternalMsg (K : Crypto) where
  | requestSnapshot (listens : Bool)
  | recvProposal (ctx : Context) (prop : TreeNode) (justify : GenericQC K) (listens : Bool)
  | recvSign (ctx : Context) (prop : TreeNode) (sign : SignKit K)
  | recvNewViewMsg (ctx : Context) (node : TreeNode) (qcHigh : GenericQC K)
  | viewChange (leader : ReplicaID) (view : ViewNumber) (listens : Bool)
  | propose (ctx : Context) (node : TreeNode) (qc : GenericQC K)
  | newTx (cmd : Cmd) (listens : Bool)
  | newLeader (ctx : Context) (leader : ReplicaID)
  | down

/-- What is sent on a proposal that is accepted. -/
structure Vote (K : Crypto) where
  ctx : Context
  prop : TreeNode
  kit : SignKit K

/-- What a replica sends. -/
inductive Sent (K : Crypto) where
  | snapshot (ctx : Context) (ss : Snapshot)
  | vote (v : Vote K)
  /-- The leaf and `qc_high`, the answer to a `ViewChange`. -/
  | leaf (leaf : TreeNode) (qcHigh : GenericQC K)
  | propose (ctx : Context) (node : TreeNode) (qc : GenericQC K)

structure Replica (K : Crypto) extends Machine K where
  view : ViewNumber
  /-- The height of the last block voted for. -/
  vheight : ViewNumber
  bExecuted : TreeNode
  peerConf : Finmap fun _ : ReplicaID => String
  selfId : ReplicaID
  leaderId : Option ReplicaID
  signId : SignID
  pks : K.PK
  sks : K.SK
  votingSet : Finmap fun _ : ReplicaID => SignKit K
  decided : Bool
  sent : List (Sent K)

namespace Replica

def new (selfId : ReplicaID) (signId : SignID) (pks : K.PK) (sks : K.SK)
    (peerConf : Finmap fun _ : ReplicaID => String) : Replica K where
  toMachine := .new
  view := 1
  vheight := 0
  bExecuted := .genesis
  peerConf := peerConf
  selfId := selfId
  leaderId := some "node-0"
  signId := signId
  pks := pks
  sks := sks
  votingSet := ∅
  decided := false
  sent := []

/-- A method of `MemPool` or `StateMachine` that touches nothing but the block pool. -/
def onMachine (r : Replica K) (f : Machine K → Machine K) : Replica K :=
  { r with toMachine := f r.toMachine }

def emit (r : Replica K) (e : Sent K) : Replica K := { r with sent := r.sent ++ [e] }

/-! ## `SysConf`, `Crypto` and the votes -/

def threshold (r : Replica K) : ℕ := (HashMap.size r.peerConf <<< 1) / 3

def sign (r : Replica K) (node : TreeNode) : SignKit K :=
  ⟨K.sign r.sks node.toBeBytes, r.signId⟩

/-- `combine_partial_sign`, without its `unwrap`. -/
def combinePartialSign (r : Replica K) : Option K.CombinedSign :=
  K.combineSignatures r.pks ((HashMap.values r.votingSet).map fun kit => (kit.signId, kit.sign))

def reset (r : Replica K) : Replica K := { r with votingSet := ∅, decided := false }

/-- `add_vote`; a second vote of a sender replaces the first. -/
def addVote (r : Replica K) (ctx : Context) (sign : SignKit K) : Replica K × Bool :=
  ({ r with votingSet := r.votingSet.insert ctx.sender sign },
    (r.votingSet.lookup ctx.sender).isNone)

def voteSetSize (r : Replica K) : ℕ := HashMap.size r.votingSet

def context (r : Replica K) : Context := ⟨r.selfId, r.view⟩

/-! ## `HotStuff` -/

/-- The block `on_beat` makes. -/
def newLeaf (r : Replica K) (cmds : List Cmd) : TreeNode :=
  ⟨r.view, cmds, r.leaf.hash K, r.qcHigh.hash⟩

def propose (r : Replica K) (node : TreeNode) (qc : GenericQC K) (listens : Bool) :
    Option (Replica K) :=
  if listens then some (r.emit (.propose r.context node qc)) else none

/-- `on_beat`, whether or not the replica is the leader. -/
def onBeat (r : Replica K) (cmds : List Cmd) (listens : Bool) : Option (Replica K) :=
  let node := r.newLeaf cmds
  let r := r.onMachine fun m => m.updateLeaf node
  r.propose node r.qcHigh listens

/-- The certificate `on_recv_vote` makes: it names the block of the last vote. -/
def formQc (r : Replica K) (prop : TreeNode) (combinedSign : K.CombinedSign) : GenericQC K :=
  ⟨r.view, prop.hash K, some combinedSign⟩

def onRecvVote (r : Replica K) (ctx : Context) (prop : TreeNode) (sign : SignKit K) :
    Option (Replica K) :=
  if r.decided then some r
  else
    let res := r.addVote ctx sign
    if res.2 && decide (res.1.threshold < res.1.voteSetSize) then
      match res.1.combinePartialSign with
      | some combinedSign =>
        let qc := res.1.formQc prop combinedSign
        some ({ res.1 with decided := true }.onMachine fun m =>
          (m.updateQcHigh prop qc).appendNewQc qc)
      | none => none
    else some res.1

/-- A vote, and the block of the proposal is kept. -/
def vote (r : Replica K) (prop : TreeNode) (listens : Bool) : Option (Replica K) :=
  if listens then
    some (({ r with vheight := prop.height }.emit
      (.vote ⟨r.context, prop, r.sign prop⟩)).onMachine fun m => m.appendNewNode prop)
  else none

def onRecvProposal (r : Replica K) (ctx : Context) (prop : TreeNode) (justify : GenericQC K)
    (listens : Bool) : Option (Replica K) :=
  if r.leaderId = some ctx.sender then
    let r := r.onMachine fun m => m.appendNewQc justify
    let voted := match r.findNodeByQc prop.justify with
      | some prevNode =>
        if r.vheight < prop.height ∧ r.safeNode prop prevNode then r.vote prop listens else some r
      | none => some r
    voted.map fun r => r.onMachine fun m => m.updateNodes prop
  else some r

def snapshot (r : Replica K) : Snapshot where
  view := r.view
  leader := r.leaderId
  threshold := r.threshold
  nodeNum := HashMap.size r.nodePool
  -- the last executed block, although it is called the leaf
  leaf := Base64.encode r.bExecuted.toBeBytes
  qcHigh := Base64.encode r.qcHigh.toBeBytes

def processInternalMsg (r : Replica K) : InternalMsg K → Option (Replica K)
  | .requestSnapshot listens =>
    if listens then some (r.emit (.snapshot r.context r.snapshot)) else none
  | .recvProposal ctx prop justify listens => r.onRecvProposal ctx prop justify listens
  | .recvSign ctx prop sign => r.onRecvVote ctx prop sign
  | .newTx cmd listens => r.onBeat [cmd] listens
  | .recvNewViewMsg _ _ qcHigh =>
    match r.getNode qcHigh.node with
    | some qcNode => some (r.onMachine fun m => m.updateQcHigh qcNode qcHigh)
    | none => some r
  | .newLeader ctx leader =>
    if r.view ≤ ctx.view ∧ r.leaderId.isNone then some { r with leaderId := some leader }
    else some r
  | .viewChange leader view listens =>
    if r.view < view then
      let r := { r with view := view, leaderId := some leader }.reset
      -- the result of this send is dropped
      some (if listens then r.emit (.leaf r.leaf r.qcHigh) else r)
    else some r
  -- the wildcard arm, which logs `recv invalid msg`
  | .propose _ _ _ => some r
  | .down => some r

end Replica

/-- The task that runs a replica. -/
structure Task (K : Crypto) where
  replica : Replica K
  running : Bool

namespace Task

/-- One round of `run`. A task that has ended takes no message any more. -/
def step (t : Task K) (msg : InternalMsg K) : Task K :=
  if t.running then
    match msg with
    | .down => { t with running := false }
    | msg =>
      match t.replica.processInternalMsg msg with
      | some replica => { t with replica := replica }
      | none => { t with running := false }
  else t

end Task

/-! ## What a message does -/

def Sent.asVote : Sent K → Option (Vote K)
  | .vote v => some v
  | _ => none

def Sent.asProposal : Sent K → Option TreeNode
  | .propose _ node _ => some node
  | _ => none

namespace Replica

/-- The votes that were sent. -/
def votes (r : Replica K) : List (Vote K) := r.sent.filterMap Sent.asVote

/-- The blocks that were proposed. -/
def proposals (r : Replica K) : List TreeNode := r.sent.filterMap Sent.asProposal

/-- What a message does to a replica. -/
inductive Acts (r : Replica K) : InternalMsg K → Replica K → Prop
  | stays (msg : InternalMsg K) : Acts r msg r
  | tells (msg : InternalMsg K) (e : Sent K) (hvote : e.asVote = none)
      (hprop : e.asProposal = none) : Acts r msg (r.emit e)
  | beats (cmd : Cmd) (listens : Bool) :
      Acts r (.newTx cmd listens) ((r.onMachine fun m => m.updateLeaf (r.newLeaf [cmd])).emit
        (.propose r.context (r.newLeaf [cmd])
          (r.onMachine fun m => m.updateLeaf (r.newLeaf [cmd])).qcHigh))
  | pools (ctx : Context) (prop : TreeNode) (sign : SignKit K) (hdecided : r.decided = false) :
      Acts r (.recvSign ctx prop sign) (r.addVote ctx sign).1
  | certifies (ctx : Context) (prop : TreeNode) (sign : SignKit K) (combinedSign : K.CombinedSign)
      (hdecided : r.decided = false) (hnew : r.votingSet.lookup ctx.sender = none)
      (hsize : r.threshold < (r.addVote ctx sign).1.voteSetSize)
      (hcombined : (r.addVote ctx sign).1.combinePartialSign = some combinedSign) :
      Acts r (.recvSign ctx prop sign) ({ (r.addVote ctx sign).1 with decided := true }.onMachine
        fun m => (m.updateQcHigh prop (r.formQc prop combinedSign)).appendNewQc
          (r.formQc prop combinedSign))
  | looks (ctx : Context) (prop : TreeNode) (justify : GenericQC K) (listens : Bool)
      (hleader : r.leaderId = some ctx.sender) :
      Acts r (.recvProposal ctx prop justify listens)
        (r.onMachine fun m => (m.appendNewQc justify).updateNodes prop)
  | votes (ctx : Context) (prop : TreeNode) (justify : GenericQC K) (listens : Bool)
      (hleader : r.leaderId = some ctx.sender) (hheight : r.vheight < prop.height) :
      Acts r (.recvProposal ctx prop justify listens)
        (({ r with vheight := prop.height }.emit (.vote ⟨r.context, prop, r.sign prop⟩)).onMachine
          fun m => ((m.appendNewQc justify).appendNewNode prop).updateNodes prop)
  | learns (ctx : Context) (node qcNode : TreeNode) (qcHigh : GenericQC K) :
      Acts r (.recvNewViewMsg ctx node qcHigh) (r.onMachine fun m => m.updateQcHigh qcNode qcHigh)
  | follows (ctx : Context) (leader : ReplicaID) (hnone : r.leaderId = none) :
      Acts r (.newLeader ctx leader) { r with leaderId := some leader }
  | moves (leader : ReplicaID) (view : ViewNumber) (listens : Bool) (hview : r.view < view)
      (sent : List (Sent K)) (hvotes : sent.filterMap Sent.asVote = r.votes)
      (hprops : sent.filterMap Sent.asProposal = r.proposals) :
      Acts r (.viewChange leader view listens)
        { { r with view := view, leaderId := some leader }.reset with sent := sent }

theorem onRecvVote_acts {r r' : Replica K} {ctx : Context} {prop : TreeNode} {sign : SignKit K}
    (h : r.onRecvVote ctx prop sign = some r') : Acts r (.recvSign ctx prop sign) r' := by
  unfold onRecvVote at h
  split at h
  · cases h
    exact .stays _
  · rename_i hdecided
    have hundecided : r.decided = false := by simpa using hdecided
    dsimp only at h
    split at h
    · rename_i hquorum
      obtain ⟨hnew, hsize⟩ := Bool.and_eq_true_iff.mp hquorum
      split at h
      · rename_i s hs
        cases h
        exact .certifies ctx prop sign s hundecided (Option.isNone_iff_eq_none.mp hnew)
          (of_decide_eq_true hsize) hs
      · cases h
    · cases h
      exact .pools ctx prop sign hundecided

theorem onRecvProposal_acts {r r' : Replica K} {ctx : Context} {prop : TreeNode}
    {justify : GenericQC K} {listens : Bool}
    (h : r.onRecvProposal ctx prop justify listens = some r') :
    Acts r (.recvProposal ctx prop justify listens) r' := by
  unfold onRecvProposal at h
  split at h
  · rename_i hleader
    dsimp only at h
    split at h
    · split at h
      · rename_i hvote
        unfold vote at h
        split at h
        · cases h
          exact .votes ctx prop justify listens hleader hvote.1
        · cases h
      · cases h
        exact .looks ctx prop justify listens hleader
    · cases h
      exact .looks ctx prop justify listens hleader
  · cases h
    exact .stays _

theorem processInternalMsg_acts {r r' : Replica K} {msg : InternalMsg K}
    (h : r.processInternalMsg msg = some r') : Acts r msg r' := by
  cases msg with
  | requestSnapshot listens =>
    unfold processInternalMsg at h
    dsimp only at h
    split at h
    · cases h
      exact .tells _ _ rfl rfl
    · cases h
  | recvProposal ctx prop justify listens => exact onRecvProposal_acts h
  | recvSign ctx prop sign => exact onRecvVote_acts h
  | newTx cmd listens =>
    unfold processInternalMsg onBeat propose at h
    dsimp only at h
    split at h
    · cases h
      exact .beats cmd listens
    · cases h
  | recvNewViewMsg ctx node qcHigh =>
    unfold processInternalMsg at h
    dsimp only at h
    split at h
    · cases h
      exact .learns ctx node _ qcHigh
    · cases h
      exact .stays _
  | newLeader ctx leader =>
    unfold processInternalMsg at h
    dsimp only at h
    split at h
    · rename_i hnone
      cases h
      exact .follows ctx leader (Option.isNone_iff_eq_none.mp hnone.2)
    · cases h
      exact .stays _
  | viewChange leader view listens =>
    unfold processInternalMsg at h
    dsimp only at h
    split at h
    · rename_i hview
      cases h
      cases listens with
      | false => exact .moves leader view false hview r.sent rfl rfl
      | true =>
        refine .moves leader view true hview (r.sent ++ [.leaf r.leaf r.qcHigh]) ?_ ?_
        · rw [List.filterMap_append]
          exact List.append_nil _
        · rw [List.filterMap_append]
          exact List.append_nil _
    · cases h
      exact .stays _
  | propose ctx node qc =>
    cases h
    exact .stays _
  | down =>
    cases h
    exact .stays _

end Replica

theorem Task.step_acts (t : Task K) (msg : InternalMsg K) :
    t.replica.Acts msg (t.step msg).replica := by
  unfold step
  split
  · split
    · exact .stays _
    · split
      · rename_i replica hreplica
        exact Replica.processInternalMsg_acts hreplica
      · exact .stays _
  · exact .stays _

/-! ## Votes -/

namespace Replica

variable {r r' : Replica K} {msg : InternalMsg K}

/-- The configuration and the last executed block are never changed. -/
theorem Acts.fixed (h : Acts r msg r') :
    r'.selfId = r.selfId ∧ r'.signId = r.signId ∧ r'.sks = r.sks ∧
      r'.bExecuted = r.bExecuted := by
  cases h <;> exact ⟨rfl, rfl, rfl, rfl⟩

/-- A vote is for a proposal of the leader above all blocks voted for. -/
theorem Acts.votes_cases (h : Acts r msg r') :
    (r'.votes = r.votes ∧ r'.vheight = r.vheight) ∨
      ∃ ctx prop justify listens, msg = .recvProposal ctx prop justify listens ∧
        r.leaderId = some ctx.sender ∧ r.vheight < prop.height ∧
        r'.votes = r.votes ++ [⟨r.context, prop, r.sign prop⟩] ∧ r'.vheight = prop.height := by
  cases h with
  | tells msg e hvote hprop =>
    refine Or.inl ⟨?_, rfl⟩
    show (r.sent ++ [e]).filterMap Sent.asVote = _
    rw [List.filterMap_append, List.filterMap_cons_none hvote]
    exact List.append_nil _
  | beats cmd listens =>
    refine Or.inl ⟨?_, rfl⟩
    show (r.sent ++ [_]).filterMap Sent.asVote = _
    rw [List.filterMap_append]
    exact List.append_nil _
  | votes ctx prop justify listens hleader hheight =>
    refine Or.inr ⟨ctx, prop, justify, listens, rfl, hleader, hheight, ?_, rfl⟩
    show (r.sent ++ [_]).filterMap Sent.asVote = _
    rw [List.filterMap_append]
    rfl
  | moves leader view listens hview sent hvotes hprops => exact Or.inl ⟨hvotes, rfl⟩
  | _ => exact Or.inl ⟨rfl, rfl⟩

end Replica

namespace Task

/-- The task of a replica that has received `msgs`. -/
def after (r : Replica K) (msgs : List (InternalMsg K)) : Task K := msgs.foldl step ⟨r, true⟩

theorem after_snoc (r : Replica K) (msgs : List (InternalMsg K)) (msg : InternalMsg K) :
    after r (msgs ++ [msg]) = (after r msgs).step msg := List.foldl_concat _ _ _ _

/-- A message of a run is one of every longer run. -/
theorem exists_before_snoc {msgs : List (InternalMsg K)} {msg : InternalMsg K}
    {P : List (InternalMsg K) → InternalMsg K → Prop}
    (h : ∃ before m after, msgs = before ++ m :: after ∧ P before m) :
    ∃ before m after, msgs ++ [msg] = before ++ m :: after ∧ P before m := by
  obtain ⟨before, m, after, rfl, hP⟩ := h
  exact ⟨before, m, after ++ [msg], by rw [List.append_assoc, List.cons_append], hP⟩

/-- The vote is one of the replica itself, for a proposal that its leader sent. -/
def Grounded (r₀ : Replica K) (msgs : List (InternalMsg K)) (v : Vote K) : Prop :=
  v.ctx.sender = r₀.selfId ∧ v.kit = r₀.sign v.prop ∧
    ∃ before m after, msgs = before ++ m :: after ∧
      ∃ ctx justify listens, m = .recvProposal ctx v.prop justify listens ∧
        (Task.after r₀ before).replica.leaderId = some ctx.sender

/-- What a replica has voted for. -/
structure Voted (r₀ : Replica K) (msgs : List (InternalMsg K)) (r : Replica K) : Prop where
  selfId : r.selfId = r₀.selfId
  signId : r.signId = r₀.signId
  sks : r.sks = r₀.sks
  increasing : r.votes.Pairwise fun v w => v.prop.height < w.prop.height
  below : ∀ v ∈ r.votes, v.prop.height ≤ r.vheight
  grounded : ∀ v ∈ r.votes, Grounded r₀ msgs v

theorem voted_after (r₀ : Replica K) (hsent : r₀.sent = []) (msgs : List (InternalMsg K)) :
    Voted r₀ msgs (after r₀ msgs).replica := by
  induction msgs using List.reverseRecOn with
  | nil =>
    have hvotes : r₀.votes = [] := by
      unfold Replica.votes
      rw [hsent]
      rfl
    refine ⟨rfl, rfl, rfl, ?_, ?_, ?_⟩
    · show r₀.votes.Pairwise _
      rw [hvotes]
      exact List.Pairwise.nil
    · intro v hv
      change v ∈ r₀.votes at hv
      rw [hvotes] at hv
      cases hv
    · intro v hv
      change v ∈ r₀.votes at hv
      rw [hvotes] at hv
      cases hv
  | append_singleton msgs msg ih =>
    rw [after_snoc]
    have hacts := (after r₀ msgs).step_acts msg
    obtain ⟨hself, hsign, hsks, -⟩ := hacts.fixed
    have hkept : ∀ v ∈ (after r₀ msgs).replica.votes, Grounded r₀ (msgs ++ [msg]) v := by
      intro v hv
      obtain ⟨hsender, hkit, hfrom⟩ := ih.grounded v hv
      exact ⟨hsender, hkit, exists_before_snoc hfrom⟩
    rcases hacts.votes_cases with ⟨hvotes, hheight⟩ |
      ⟨ctx, prop, justify, listens, rfl, hleader, hlt, hvotes, hheight⟩
    · refine ⟨hself.trans ih.selfId, hsign.trans ih.signId, hsks.trans ih.sks, ?_, ?_, ?_⟩
      · rw [hvotes]
        exact ih.increasing
      · rw [hvotes, hheight]
        exact ih.below
      · rw [hvotes]
        exact hkept
    · refine ⟨hself.trans ih.selfId, hsign.trans ih.signId, hsks.trans ih.sks, ?_, ?_, ?_⟩
      · rw [hvotes, List.pairwise_append]
        refine ⟨ih.increasing, List.pairwise_singleton _ _, ?_⟩
        intro v hv w hw
        rw [List.mem_singleton.mp hw]
        exact lt_of_le_of_lt (ih.below v hv) hlt
      · rw [hvotes, hheight]
        intro v hv
        rcases List.mem_append.mp hv with hv | hv
        · exact (ih.below v hv).trans (le_of_lt hlt)
        · rw [List.mem_singleton.mp hv]
      · rw [hvotes]
        intro v hv
        rcases List.mem_append.mp hv with hv | hv
        · exact hkept v hv
        · rw [List.mem_singleton.mp hv]
          refine ⟨ih.selfId, ?_, msgs, _, [], rfl, ctx, justify, listens, rfl, hleader⟩
          unfold Replica.sign
          rw [ih.sks, ih.signId]

/-- In every run a replica of the prototype votes for blocks of strictly increasing heights. Each
vote carries its own id and signature, and is for a proposal that came from the replica it took
for the leader at that time. -/
theorem votes_in_order (selfId : ReplicaID) (signId : SignID) (pks : K.PK) (sks : K.SK)
    (peerConf : Finmap fun _ : ReplicaID => String) (msgs : List (InternalMsg K)) :
    (after (.new selfId signId pks sks peerConf) msgs).replica.votes.Pairwise
        (fun v w => v.prop.height < w.prop.height) ∧
      ∀ v ∈ (after (.new selfId signId pks sks peerConf) msgs).replica.votes,
        Grounded (.new selfId signId pks sks peerConf) msgs v := by
  have hvoted := voted_after (.new selfId signId pks sks peerConf) rfl msgs
  exact ⟨hvoted.increasing, hvoted.grounded⟩

end Task

/-! ## Certificates -/

namespace Replica

variable {r r' : Replica K} {msg : InternalMsg K}

/-- The certificate that a message completes. -/
def certificate (r : Replica K) : InternalMsg K → Option (GenericQC K)
  | .recvSign ctx prop sign =>
    if r.decided then none
    else
      let res := r.addVote ctx sign
      if res.2 && decide (res.1.threshold < res.1.voteSetSize) then
        res.1.combinePartialSign.map (res.1.formQc prop)
      else none
  | _ => none

/-- A replica that has decided stays so until its view is over. -/
theorem Acts.view_decided (h : Acts r msg r') :
    r.view ≤ r'.view ∧ (r.decided = true → r'.decided = true ∨ r.view < r'.view) := by
  cases h with
  | pools ctx prop sign hdecided =>
    exact ⟨le_refl _, fun h => absurd (h.symm.trans hdecided) (by decide)⟩
  | certifies ctx prop sign s hdecided hnew hsize hs => exact ⟨le_refl _, fun _ => Or.inl rfl⟩
  | moves leader view listens hview sent hvotes hprops =>
    exact ⟨le_of_lt hview, fun _ => Or.inr hview⟩
  | _ => exact ⟨le_refl _, fun h => Or.inl h⟩

/-- Votes are added within a view, and thrown away when it is left. -/
theorem Acts.votingSet_cases (h : Acts r msg r') :
    (r'.votingSet = r.votingSet ∧ r'.view = r.view) ∨
      (∃ ctx prop sign, msg = .recvSign ctx prop sign ∧
        r'.votingSet = r.votingSet.insert ctx.sender sign ∧ r'.view = r.view) ∨
      r'.votingSet = ∅ := by
  cases h with
  | pools ctx prop sign hdecided => exact Or.inr (Or.inl ⟨ctx, prop, sign, rfl, rfl, rfl⟩)
  | certifies ctx prop sign s hdecided hnew hsize hs =>
    exact Or.inr (Or.inl ⟨ctx, prop, sign, rfl, rfl, rfl⟩)
  | moves leader view listens hview sent hvotes hprops => exact Or.inr (Or.inr rfl)
  | _ => exact Or.inl ⟨rfl, rfl⟩

end Replica

namespace Task

variable {r₀ : Replica K} {msgs : List (InternalMsg K)}

def certificate (t : Task K) (msg : InternalMsg K) : Option (GenericQC K) :=
  if t.running then t.replica.certificate msg else none

/-- The certificates of a run, in the order in which they are formed. -/
def certificates (t : Task K) : List (InternalMsg K) → List (GenericQC K)
  | [] => []
  | msg :: msgs => (t.certificate msg).toList ++ (t.step msg).certificates msgs

/-- A certificate is of the current view and the only one of it, and combines the pooled votes,
which are of more than `threshold` senders. The step stores it. -/
theorem certificate_spec {t : Task K} {msg : InternalMsg K} {qc : GenericQC K}
    (h : t.certificate msg = some qc) :
    t.replica.decided = false ∧ qc.view = t.replica.view ∧
      (t.step msg).replica.view = t.replica.view ∧ (t.step msg).replica.decided = true ∧
      t.replica.threshold < (t.step msg).replica.voteSetSize ∧
      qc.combinedSign = (t.step msg).replica.combinePartialSign ∧
      (t.step msg).replica.getQc qc.hash = some qc := by
  obtain ⟨r, running⟩ := t
  cases running with
  | false => cases h
  | true =>
    cases msg with
    | recvSign ctx prop sign =>
      have hcert : r.certificate (.recvSign ctx prop sign) = some qc := h
      unfold Replica.certificate at hcert
      dsimp only at hcert
      split at hcert
      · cases hcert
      · rename_i hdecided
        split at hcert
        · rename_i hquorum
          obtain ⟨s, hs, rfl⟩ := Option.map_eq_some_iff.mp hcert
          have hundecided : r.decided = false := by simpa using hdecided
          have hstep : (step ⟨r, true⟩ (.recvSign ctx prop sign)).replica =
              { (r.addVote ctx sign).1 with decided := true }.onMachine fun m =>
                (m.updateQcHigh prop (r.formQc prop s)).appendNewQc (r.formQc prop s) := by
            simp only [step, Replica.processInternalMsg, Replica.onRecvVote, hundecided, hquorum,
              hs, if_true, Bool.false_eq_true, if_false]
            rfl
          rw [hstep]
          refine ⟨hundecided, rfl, rfl, rfl, ?_, hs.symm, Finmap.lookup_insert _⟩
          exact of_decide_eq_true (Bool.and_eq_true_iff.mp hquorum).2
        · cases hcert
    | _ => cases h

theorem certificates_increase (t : Task K) (msgs : List (InternalMsg K)) :
    (t.certificates msgs).Pairwise (fun a b => a.view < b.view) ∧
      ∀ qc ∈ t.certificates msgs, t.replica.view ≤ qc.view ∧
        (t.replica.decided = true → t.replica.view < qc.view) := by
  induction msgs generalizing t with
  | nil => exact ⟨List.Pairwise.nil, fun qc hqc => nomatch hqc⟩
  | cons msg msgs ih =>
    obtain ⟨hincreasing, habove⟩ := ih (t.step msg)
    obtain ⟨hview, hdecided⟩ := (t.step_acts msg).view_decided
    have hlater : ∀ qc ∈ (t.step msg).certificates msgs, t.replica.view ≤ qc.view ∧
        (t.replica.decided = true → t.replica.view < qc.view) := by
      intro qc hqc
      refine ⟨hview.trans (habove qc hqc).1, fun hd => ?_⟩
      rcases hdecided hd with hd' | hlt
      · exact lt_of_le_of_lt hview ((habove qc hqc).2 hd')
      · exact lt_of_lt_of_le hlt (habove qc hqc).1
    unfold certificates
    cases hcert : t.certificate msg with
    | none => exact ⟨hincreasing, hlater⟩
    | some qc =>
      obtain ⟨hundecided, hqc, hview', hdecided', -, -, -⟩ := certificate_spec hcert
      constructor
      · refine List.pairwise_cons.mpr ⟨fun qc' hqc' => ?_, hincreasing⟩
        rw [hqc, ← hview']
        exact (habove qc' hqc').2 hdecided'
      · intro qc' hqc'
        rcases List.mem_cons.mp hqc' with rfl | hqc'
        · refine ⟨le_of_eq hqc.symm, fun hd => ?_⟩
          rw [hundecided] at hd
          cases hd
        · exact hlater qc' hqc'

/-- The pooled votes were received in the current view. -/
theorem collected_after (hr₀ : r₀.votingSet = ∅) (msgs : List (InternalMsg K)) {sender : ReplicaID}
    {kit : SignKit K} (h : (after r₀ msgs).replica.votingSet.lookup sender = some kit) :
    ∃ before m rest, msgs = before ++ m :: rest ∧ ∃ ctx prop, m = .recvSign ctx prop kit ∧
      ctx.sender = sender ∧
        (after r₀ before).replica.view = (after r₀ msgs).replica.view := by
  induction msgs using List.reverseRecOn generalizing kit with
  | nil =>
    change r₀.votingSet.lookup sender = some kit at h
    rw [hr₀] at h
    cases h
  | append_singleton msgs msg ih =>
    rw [after_snoc] at h ⊢
    rcases ((after r₀ msgs).step_acts msg).votingSet_cases with ⟨hset, hview⟩ |
      ⟨ctx, prop, sign, rfl, hset, hview⟩ | hset
    · rw [hset] at h
      rw [hview]
      exact exists_before_snoc (ih h)
    · rw [hset] at h
      rw [hview]
      by_cases hsender : sender = ctx.sender
      · subst hsender
        rw [Finmap.lookup_insert] at h
        cases h
        exact ⟨msgs, _, [], rfl, ctx, prop, rfl, rfl, rfl⟩
      · rw [Finmap.lookup_insert_of_ne _ hsender] at h
        exact exists_before_snoc (ih h)
    · rw [hset] at h
      cases h

/-- In every run the certificates that a replica forms are of strictly increasing views, so it
forms at most one in a view. Each is stored, and combines the votes of more than two thirds of
the peers, all of them received in the view of the certificate. -/
theorem one_certificate_per_view (selfId : ReplicaID) (signId : SignID) (pks : K.PK) (sks : K.SK)
    (peerConf : Finmap fun _ : ReplicaID => String) (msgs : List (InternalMsg K)) :
    (certificates ⟨.new selfId signId pks sks peerConf, true⟩ msgs).Pairwise
        (fun a b => a.view < b.view) ∧
      ∀ before msg rest qc, msgs = before ++ msg :: rest →
        (after (.new selfId signId pks sks peerConf) before).certificate msg = some qc →
        let r := (after (.new selfId signId pks sks peerConf) (before ++ [msg])).replica
        (after (.new selfId signId pks sks peerConf) before).replica.threshold < r.voteSetSize ∧
          qc.combinedSign = r.combinePartialSign ∧ r.getQc qc.hash = some qc ∧
          ∀ sender kit, r.votingSet.lookup sender = some kit →
            ∃ past m later, before ++ [msg] = past ++ m :: later ∧
              ∃ ctx prop, m = .recvSign ctx prop kit ∧ ctx.sender = sender ∧
                (after (.new selfId signId pks sks peerConf) past).replica.view = qc.view := by
  refine ⟨(certificates_increase _ msgs).1, ?_⟩
  intro before msg rest qc _ hcert
  obtain ⟨-, hqc, hview, -, hsize, hsign, hstored⟩ := certificate_spec hcert
  dsimp only
  rw [after_snoc]
  refine ⟨hsize, hsign, hstored, fun sender kit hlookup => ?_⟩
  rw [← after_snoc] at hlookup
  have hcollected := collected_after rfl (before ++ [msg]) hlookup
  rw [after_snoc, hview, ← hqc] at hcollected
  exact hcollected

end Task

/-! ## Blocks -/

namespace Machine

variable (m : Machine K) (node : TreeNode)

/-- `update_leaf` comes too late in `update_qc_high`, and does nothing. -/
theorem updateQcHigh_frame (qc : GenericQC K) :
    (m.updateQcHigh node qc).nodePool = m.nodePool ∧
      (m.updateQcHigh node qc).commitHeight = m.commitHeight ∧
      (m.updateQcHigh node qc).leaf = m.leaf := by
  unfold updateQcHigh
  split
  · split
    · unfold updateLeaf
      rw [if_neg (lt_irrefl _)]
      exact ⟨rfl, rfl, rfl⟩
    · exact ⟨rfl, rfl, rfl⟩
  · exact ⟨rfl, rfl, rfl⟩

theorem onCommit_frame (fuel : ℕ) :
    (onCommit fuel m node).nodePool = m.nodePool ∧ (onCommit fuel m node).leaf = m.leaf := by
  induction fuel generalizing node with
  | zero => exact ⟨rfl, rfl⟩
  | succ fuel ih =>
    unfold onCommit
    split
    · dsimp only
      split
      · exact ih _
      · exact ⟨rfl, rfl⟩
    · exact ⟨rfl, rfl⟩

/-- The first two parts of `update_nodes`. -/
theorem updateNodesLocked_frame (chain : List TreeNode) (bLock : TreeNode) :
    ((m.updateNodesQcHigh chain node).updateNodesLocked bLock chain node).nodePool = m.nodePool ∧
      ((m.updateNodesQcHigh chain node).updateNodesLocked bLock chain node).commitHeight =
        m.commitHeight ∧
      ((m.updateNodesQcHigh chain node).updateNodesLocked bLock chain node).leaf = m.leaf := by
  have hqc : (m.updateNodesQcHigh chain node).nodePool = m.nodePool ∧
      (m.updateNodesQcHigh chain node).commitHeight = m.commitHeight ∧
      (m.updateNodesQcHigh chain node).leaf = m.leaf := by
    unfold updateNodesQcHigh
    split
    · exact m.updateQcHigh_frame _ _
    · exact ⟨rfl, rfl, rfl⟩
  unfold updateNodesLocked
  split
  · split
    · exact hqc
    · exact hqc
  · exact hqc

theorem updateNodes_frame :
    (m.updateNodes node).nodePool = m.nodePool ∧ (m.updateNodes node).leaf = m.leaf := by
  obtain ⟨hpool, -, hleaf⟩ := m.updateNodesLocked_frame node (m.findThreeChain node) m.bLocked
  unfold updateNodes
  dsimp only
  split
  · split
    · rw [(onCommit_frame _ _ _).1, (onCommit_frame _ _ _).2]
      exact ⟨hpool, hleaf⟩
    · exact ⟨hpool, hleaf⟩
  · exact ⟨hpool, hleaf⟩

/-- No block of the pool is its own parent. -/
def NoLoops : Prop := ∀ k b, m.getNode k = some b → b.parent ≠ b.hash K

variable {m node}

/-- The test for a three-chain compares a block with its own parent. -/
theorem NoLoops.isContinuesThreeChain (h : m.NoLoops) :
    isContinuesThreeChain K (m.findThreeChain node) = false := by
  unfold findThreeChain
  cases hfind : m.findNodeByQc node.justify with
  | none => rfl
  | some b3 =>
    obtain ⟨qc, -, hb3⟩ := Option.bind_eq_some_iff.mp hfind
    have hne := beq_false_of_ne (h qc.node b3 hb3)
    dsimp only
    split
    · rfl
    · split
      · rfl
      · unfold Machine.isContinuesThreeChain
        dsimp only
        rw [hne]
        rfl

theorem NoLoops.updateNodes_commitHeight (h : m.NoLoops) :
    (m.updateNodes node).commitHeight = m.commitHeight := by
  unfold updateNodes
  dsimp only
  rw [h.isContinuesThreeChain]
  exact (m.updateNodesLocked_frame node _ _).2.1

theorem NoLoops.of_pool {m' : Machine K} (h : m.NoLoops) (hpool : m'.nodePool = m.nodePool) :
    m'.NoLoops := by
  intro k b hb
  unfold getNode at hb
  rw [hpool] at hb
  exact h k b hb

theorem NoLoops.insert {m' : Machine K} (h : m.NoLoops) (hnode : node.parent ≠ node.hash K)
    (hpool : m'.nodePool = m.nodePool.insert (node.hash K) node) : m'.NoLoops := by
  intro k b hb
  unfold getNode at hb
  rw [hpool] at hb
  rcases HashMap.lookup_insert_cases hb with ⟨-, rfl⟩ | hb
  · exact hnode
  · exact h k b hb

end Machine

namespace Replica

variable {r r' : Replica K} {msg : InternalMsg K}

/-- The blocks that a message brings into the pool. -/
def newBlocks (r : Replica K) : InternalMsg K → List TreeNode
  | .recvProposal _ prop _ _ => [prop]
  | .newTx cmd _ => [r.newLeaf [cmd]]
  | _ => []

/-- No three-chain was found. -/
structure Uncommitted (r : Replica K) : Prop where
  noLoops : r.NoLoops
  commitHeight : r.commitHeight = 0
  bExecuted : r.bExecuted = .genesis

theorem Uncommitted.acts (h : r.Uncommitted) (hacts : Acts r msg r')
    (hnew : ∀ b ∈ r.newBlocks msg, b.parent ≠ b.hash K) : r'.Uncommitted := by
  have hexecuted := hacts.fixed.2.2.2.trans h.bExecuted
  cases hacts with
  | beats cmd listens =>
    have hblock := hnew (r.newLeaf [cmd]) List.mem_cons_self
    have hleaf : Machine.NoLoops (r.updateLeaf (r.newLeaf [cmd])) ∧
        (r.updateLeaf (r.newLeaf [cmd])).commitHeight = r.commitHeight := by
      unfold Machine.updateLeaf
      split
      · exact ⟨h.noLoops.insert hblock rfl, rfl⟩
      · exact ⟨h.noLoops, rfl⟩
    exact ⟨hleaf.1, hleaf.2.trans h.commitHeight, hexecuted⟩
  | certifies ctx prop sign s hdecided hnew hsize hs =>
    obtain ⟨hpool, hcommit, -⟩ := r.updateQcHigh_frame prop (r.formQc prop s)
    exact ⟨h.noLoops.of_pool hpool, hcommit.trans h.commitHeight, hexecuted⟩
  | looks ctx prop justify listens hleader =>
    have hqc : (r.appendNewQc justify).NoLoops := h.noLoops.of_pool rfl
    exact ⟨hqc.of_pool (Machine.updateNodes_frame _ _).1,
      hqc.updateNodes_commitHeight.trans h.commitHeight, hexecuted⟩
  | votes ctx prop justify listens hleader hheight =>
    have hstored : ((r.appendNewQc justify).appendNewNode prop).NoLoops :=
      h.noLoops.insert (hnew prop List.mem_cons_self) rfl
    exact ⟨hstored.of_pool (Machine.updateNodes_frame _ _).1,
      hstored.updateNodes_commitHeight.trans h.commitHeight, hexecuted⟩
  | learns ctx node qcNode qcHigh =>
    obtain ⟨hpool, hcommit, -⟩ := r.updateQcHigh_frame qcNode qcHigh
    exact ⟨h.noLoops.of_pool hpool, hcommit.trans h.commitHeight, hexecuted⟩
  | _ => exact ⟨h.noLoops, h.commitHeight, hexecuted⟩

/-- A beat proposes a block on the leaf, which may become the leaf. Nothing else moves the leaf. -/
theorem Acts.proposals_cases (h : Acts r msg r') :
    (r'.proposals = r.proposals ∧ r'.leaf = r.leaf) ∨
      ∃ cmds, r'.proposals = r.proposals ++ [r.newLeaf cmds] ∧
        (r'.leaf = r.leaf ∨ r'.leaf = r.newLeaf cmds) := by
  cases h with
  | tells msg e hvote hprop =>
    refine Or.inl ⟨?_, rfl⟩
    show (r.sent ++ [e]).filterMap Sent.asProposal = _
    rw [List.filterMap_append, List.filterMap_cons_none hprop]
    exact List.append_nil _
  | beats cmd listens =>
    refine Or.inr ⟨[cmd], ?_, ?_⟩
    · show (r.sent ++ [_]).filterMap Sent.asProposal = _
      rw [List.filterMap_append]
      rfl
    · show (r.updateLeaf (r.newLeaf [cmd])).leaf = _ ∨ (r.updateLeaf (r.newLeaf [cmd])).leaf = _
      unfold Machine.updateLeaf
      split
      · exact Or.inr rfl
      · exact Or.inl rfl
  | certifies ctx prop sign s hdecided hnew hsize hs =>
    exact Or.inl ⟨rfl, (r.updateQcHigh_frame prop (r.formQc prop s)).2.2⟩
  | looks ctx prop justify listens hleader =>
    exact Or.inl ⟨rfl, ((r.appendNewQc justify).updateNodes_frame prop).2⟩
  | votes ctx prop justify listens hleader hheight =>
    refine Or.inl ⟨?_, (((r.appendNewQc justify).appendNewNode prop).updateNodes_frame prop).2⟩
    show (r.sent ++ [_]).filterMap Sent.asProposal = _
    rw [List.filterMap_append]
    exact List.append_nil _
  | learns ctx node qcNode qcHigh =>
    exact Or.inl ⟨rfl, (r.updateQcHigh_frame qcNode qcHigh).2.2⟩
  | moves leader view listens hview sent hvotes hprops => exact Or.inl ⟨hprops, rfl⟩
  | _ => exact Or.inl ⟨rfl, rfl⟩

end Replica

namespace Task

/-- The prototype commits nothing: in every run in which no block is its own parent, the commit
height stays 0 and the last executed block, which is what a snapshot calls the leaf, is the
genesis block. -/
theorem prototype_never_commits (selfId : ReplicaID) (signId : SignID) (pks : K.PK) (sks : K.SK)
    (peerConf : Finmap fun _ : ReplicaID => String) (msgs : List (InternalMsg K))
    (hgenesis : TreeNode.genesis.parent ≠ TreeNode.genesis.hash K)
    (hnew : Run.Each step (fun t msg => ∀ b ∈ t.replica.newBlocks msg, b.parent ≠ b.hash K)
      ⟨.new selfId signId pks sks peerConf, true⟩ msgs) :
    (after (.new selfId signId pks sks peerConf) msgs).replica.commitHeight = 0 ∧
      (after (.new selfId signId pks sks peerConf) msgs).replica.bExecuted = .genesis := by
  have hstart : (Replica.new selfId signId pks sks peerConf).Uncommitted := by
    refine ⟨?_, rfl, rfl⟩
    have hempty : ({ (Machine.new : Machine K) with nodePool := ∅ } : Machine K).NoLoops := by
      intro k b hb
      cases hb
    exact hempty.insert hgenesis rfl
  have hend := Run.foldl_of_invariant (I := fun t : Task K => t.replica.Uncommitted) hstart hnew
    (fun t msg ht hmsg => ht.acts (t.step_acts msg) hmsg)
  exact ⟨hend.commitHeight, hend.bExecuted⟩

/-- The leaf is the genesis block or an own proposal, and the proposals extend such blocks. -/
structure OwnBlocks (r : Replica K) : Prop where
  leaf : r.leaf = .genesis ∨ r.leaf ∈ r.proposals
  parents : ∀ before p rest, r.proposals = before ++ p :: rest →
    p.parent = TreeNode.genesis.hash K ∨ ∃ q ∈ before, p.parent = q.hash K

theorem OwnBlocks.acts {r r' : Replica K} {msg : InternalMsg K} (h : OwnBlocks r)
    (hacts : r.Acts msg r') : OwnBlocks r' := by
  rcases hacts.proposals_cases with ⟨hprops, hleaf⟩ | ⟨cmds, hprops, hleaf⟩
  · refine ⟨?_, ?_⟩
    · rw [hprops, hleaf]
      exact h.leaf
    · rw [hprops]
      exact h.parents
  · refine ⟨?_, ?_⟩
    · rw [hprops]
      rcases hleaf with hleaf | hleaf
      · rw [hleaf]
        exact h.leaf.imp_right fun hmem => List.mem_append_left _ hmem
      · rw [hleaf]
        exact Or.inr (List.mem_append_right _ List.mem_cons_self)
    · intro before p rest heq
      rw [hprops] at heq
      rcases List.eq_nil_or_concat' rest with rfl | ⟨rest, x, rfl⟩
      · obtain ⟨rfl, hp⟩ := List.append_inj' heq rfl
        obtain rfl : r.newLeaf cmds = p := List.head_eq_of_cons_eq hp
        rcases h.leaf with hleaf | hmem
        · exact Or.inl (by rw [← hleaf]; rfl)
        · exact Or.inr ⟨r.leaf, hmem, rfl⟩
      · rw [← List.cons_append, ← List.append_assoc] at heq
        exact h.parents before p rest (List.append_inj' heq rfl).1

/-- A replica of the prototype extends no block but its own: in every run each block that it
proposes has the genesis block or one of its own earlier proposals as its parent. -/
theorem prototype_extends_own_blocks (selfId : ReplicaID) (signId : SignID) (pks : K.PK)
    (sks : K.SK) (peerConf : Finmap fun _ : ReplicaID => String) (msgs : List (InternalMsg K))
    (before : List TreeNode) (p : TreeNode) (rest : List TreeNode)
    (hp : (after (.new selfId signId pks sks peerConf) msgs).replica.proposals =
      before ++ p :: rest) :
    p.parent = TreeNode.genesis.hash K ∨ ∃ q ∈ before, p.parent = q.hash K := by
  have hstart : OwnBlocks (Replica.new selfId signId pks sks peerConf) :=
    ⟨Or.inl rfl, fun before p rest h => by
      have hnil : ([] : List TreeNode) = before ++ p :: rest := h
      cases before <;> cases hnil⟩
  have hend : OwnBlocks (after (.new selfId signId pks sks peerConf) msgs).replica :=
    Run.foldl_of_kept (I := fun t : Task K => OwnBlocks t.replica) hstart
      (fun t msg ht => ht.acts (t.step_acts msg)) msgs
  exact hend.parents before p rest hp

end Task

namespace Symbolic

open Prototype.Task HotstuffConsensus.Symbolic

def peers : Finmap fun _ : ReplicaID => String :=
  ([⟨"node-0", "localhost:8000"⟩, ⟨"node-1", "localhost:8001"⟩, ⟨"node-2", "localhost:8002"⟩,
    ⟨"node-3", "localhost:8003"⟩] : List (Σ _ : ReplicaID, String)).toFinmap

def node₀ : Replica symbolic :=
  .new "node-0" 0 (signaturer 4 0).pks (signaturer 4 0).sks peers

/-- The first block of node 0. -/
def first : TreeNode := node₀.newLeaf ["tx"]

/-- The vote of node `i` for it. -/
def voteOf (i : SignID) (id : ReplicaID) : InternalMsg symbolic :=
  .recvSign ⟨id, 1⟩ first ⟨symbolic.sign (signaturer 4 i).sks first.toBeBytes, i⟩

/-- A transaction, and two votes for the block with it. -/
def twoVotes : List (InternalMsg symbolic) :=
  [.newTx "tx" true, voteOf 1 "node-1", voteOf 2 "node-2"]

/-- The third vote completes the certificate; it and the votes before were received in view 1. -/
theorem one_certificate_per_view_on_twoVotes :
    ((after node₀ twoVotes).certificate (voteOf 3 "node-3")).isSome = true ∧
      (after node₀ twoVotes).replica.threshold <
        (after node₀ (twoVotes ++ [voteOf 3 "node-3"])).replica.voteSetSize := by
  have hsome : ((after node₀ twoVotes).certificate (voteOf 3 "node-3")).isSome = true := by
    decide +kernel
  obtain ⟨qc, hqc⟩ := Option.isSome_iff_exists.mp hsome
  refine ⟨hsome, ?_⟩
  unfold node₀ at hqc ⊢
  exact ((one_certificate_per_view "node-0" 0 (signaturer 4 0).pks (signaturer 4 0).sks peers
    (twoVotes ++ [voteOf 3 "node-3"])).2 twoVotes (voteOf 3 "node-3") [] qc rfl hqc).1

/-- The leader gets its own proposal as well, and votes for it. -/
def ownProposal : List (InternalMsg symbolic) :=
  [.newTx "tx" true, .recvProposal ⟨"node-0", 1⟩ first (.genesis 0 .genesis) true]

theorem votes_in_order_on_ownProposal :
    ∃ v ∈ (after node₀ ownProposal).replica.votes, v.prop = first ∧ v.ctx.sender = "node-0" := by
  have hvotes : (after node₀ ownProposal).replica.votes.map Vote.prop = [first] := by
    decide +kernel
  obtain ⟨v, hv, hprop⟩ : ∃ v ∈ (after node₀ ownProposal).replica.votes, v.prop = first :=
    List.mem_map.mp (hvotes ▸ List.mem_singleton.mpr rfl)
  refine ⟨v, hv, hprop, ?_⟩
  unfold node₀ at hv
  exact ((votes_in_order "node-0" 0 (signaturer 4 0).pks (signaturer 4 0).sks peers
    ownProposal).2 v hv).1

theorem prototype_never_commits_on_ownProposal :
    (after node₀ ownProposal).replica.votes.map Vote.prop = [first] ∧
      (after node₀ ownProposal).replica.commitHeight = 0 := by
  refine ⟨by decide +kernel, ?_⟩
  unfold node₀
  exact (prototype_never_commits "node-0" 0 (signaturer 4 0).pks (signaturer 4 0).sks peers
    ownProposal (by decide +kernel) (by decide +kernel)).1

/-- A block of node 1 on the genesis block. -/
def foreign : TreeNode := ⟨2, ["foreign"], TreeNode.genesis.hash symbolic, first.justify⟩

/-- Between its two proposals node 0 votes for the block of node 1. -/
def foreignProposal : List (InternalMsg symbolic) :=
  [.newTx "tx" true, .viewChange "node-1" 2 true,
    .recvProposal ⟨"node-1", 2⟩ foreign (.genesis 0 .genesis) true, .newTx "ty" true]

/-- The second block of node 0. -/
def second : TreeNode := (after node₀ (foreignProposal.take 3)).replica.newLeaf ["ty"]

/-- It extends the first one, not the block that was voted for. -/
theorem prototype_extends_own_blocks_on_foreignProposal :
    (after node₀ foreignProposal).replica.votes.map Vote.prop = [foreign] ∧
      (after node₀ foreignProposal).replica.proposals = [first] ++ second :: [] ∧
      (second.parent = TreeNode.genesis.hash symbolic ∨
        ∃ q ∈ [first], second.parent = q.hash symbolic) := by
  have hprops : (after node₀ foreignProposal).replica.proposals = [first] ++ second :: [] := by
    decide +kernel
  refine ⟨by decide +kernel, hprops, ?_⟩
  unfold node₀ at hprops
  exact prototype_extends_own_blocks "node-0" 0 (signaturer 4 0).pks (signaturer 4 0).sks peers
    foreignProposal [first] second [] hprops

end Symbolic

end HotstuffConsensus.Prototype
