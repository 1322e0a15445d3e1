import HotstuffConsensus.Database
import HotstuffConsensus.StorageTheorems

/-!
# The tables as functions of what was flushed

The flushed tasks are read as two lists, the proposals and the certificates offered to
the `qc` table. A row of `proposal` is the first proposal of its height, a row of `qc` the
first certificate of its view, and what recovery reads back is computed from the two
lists (`restoreNode`, `restoreState`) without tables and encodings.
-/

namespace HotstuffConsensus

open Lib

variable {K : Crypto}

/-! ## Decoding one row -/

theorem NodeHash.fromVec_toList (h : NodeHash) : NodeHash.fromVec h.toList = h := by
  apply List.Vector.toList_injective
  show h.toList.take 32 ++ List.replicate (32 - h.toList.length) 0 = h.toList
  have hlen : h.toList.length = 32 := h.toList_length
  rw [hlen, List.take_of_length_le (le_of_eq hlen), Nat.sub_self, List.replicate_zero,
    List.append_nil]

theorem combinedSignFromVecU8_toBytes {C : Codec K} (laws : CodecLaws C) (s : K.CombinedSign) :
    combinedSignFromVecU8 (K.toBytes s).toList = some s := by
  have hlen : (K.toBytes s).toList.length = 96 := (K.toBytes s).toList_length
  unfold combinedSignFromVecU8
  rw [dif_pos hlen]
  have hvec : (⟨(K.toBytes s).toList, hlen⟩ : List.Vector UInt8 96) = K.toBytes s :=
    List.Vector.toList_injective rfl
  rw [hvec]
  exact laws.combinedSign s

/-- The certificate the flusher records for a proposal: the proposal's own hash stands
where the block of the justify belongs. -/
def recordedQc (prop : TreeNode K) : GenericQC K :=
  ⟨prop.justify.view, prop.hash, prop.justify.combinedSign⟩

/-- The node read back from the row of `prop` joined with the row of `qc`. -/
def restored (prop : TreeNode K) (qc : GenericQC K) : TreeNode K :=
  ⟨prop.height, prop.txs, prop.parent, ⟨prop.height, qc.node, qc.combinedSign⟩⟩

theorem mapRowToProposal_eq {C : Codec K} (laws : CodecLaws C) (prop : TreeNode K)
    (qc : GenericQC K) :
    mapRowToProposal C (proposalRow C prop, qcRow C qc) = some (qc.node, restored prop qc) := by
  unfold mapRowToProposal proposalRow qcRow
  simp only [laws.base64, laws.txs, Option.bind_eq_bind, Option.bind_some,
    combinedSignFromVecU8_toBytes laws, NodeHash.fromVec_toList]
  rfl

/-! ## What a flush writes -/

/-- The certificates a task offers to the `qc` table, in the order of the two loops. -/
def DirtyData.certs (data : DirtyData K) : List (GenericQC K) :=
  data.propQueue.map recordedQc ++ data.justifyQueue

/-- All proposals of the flushed tasks, in order. -/
def flushedProps (tasks : List (DirtyData K)) : List (TreeNode K) :=
  tasks.flatMap DirtyData.propQueue

/-- All certificates of the flushed tasks, in order. -/
def flushedCerts (tasks : List (DirtyData K)) : List (GenericQC K) :=
  tasks.flatMap DirtyData.certs

namespace Database

section Fields

variable (C : Codec K) (db : Database)

theorem foldl_flushProp (props : List (TreeNode K)) :
    props.foldl (flushProp C) db =
      { db with
        qc := (props.map (qcRowOfProp C)).foldl (Table.insertIgnore QcRow.view) db.qc
        proposal := (props.map (proposalRow C)).foldl (Table.insertIgnore ProposalRow.view)
          db.proposal } := by
  induction props generalizing db with
  | nil => rfl
  | cons p props ih => exact ih (flushProp C db p)

theorem foldl_flushQc (qcs : List (GenericQC K)) :
    qcs.foldl (flushQc C) db =
      { db with qc := (qcs.map (qcRow C)).foldl (Table.insertIgnore QcRow.view) db.qc } := by
  induction qcs generalizing db with
  | nil => rfl
  | cons q qcs ih => exact ih (flushQc C db q)

theorem foldl_flushPartialTc (tcs : List (TimeoutCertificate K)) :
    tcs.foldl (flushPartialTc C) db =
      { db with partialTc :=
          (tcs.map (partialTcRow C)).foldl (Table.insertIgnore PartialTcRow.key) db.partialTc } := by
  induction tcs generalizing db with
  | nil => rfl
  | cons tc tcs ih => exact ih (flushPartialTc C db tc)

theorem foldl_flushCombinedTc (tcs : List (TimeoutCertificate K)) :
    tcs.foldl (flushCombinedTc C) db =
      { db with
        combinedTc := (tcs.map (combinedTcRow C)).foldl (Table.insertIgnore CombinedTcRow.view)
          db.combinedTc } := by
  induction tcs generalizing db with
  | nil => rfl
  | cons tc tcs ih => exact ih (flushCombinedTc C db tc)

/-- All tables after a flush. -/
theorem flush_eq (data : DirtyData K) : db.flush C data =
    { db with
      proposal := (data.propQueue.map (proposalRow C)).foldl
        (Table.insertIgnore ProposalRow.view) db.proposal
      qc := (data.certs.map (qcRow C)).foldl (Table.insertIgnore QcRow.view) db.qc
      partialTc := (data.partialTcQueue.map (partialTcRow C)).foldl
        (Table.insertIgnore PartialTcRow.key) db.partialTc
      combinedTc := (data.combinedTcQueue.map (combinedTcRow C)).foldl
        (Table.insertIgnore CombinedTcRow.view) db.combinedTc
      hotstuffState := Table.replace StateRow.token db.hotstuffState (stateRow data.state) } := by
  have hcerts : data.certs.map (qcRow C) =
      data.propQueue.map (qcRowOfProp C) ++ data.justifyQueue.map (qcRow C) := by
    unfold DirtyData.certs
    rw [List.map_append, List.map_map]
    rfl
  unfold flush
  dsimp only
  rw [foldl_flushProp, foldl_flushQc, foldl_flushPartialTc, foldl_flushCombinedTc, hcerts,
    List.foldl_append]
  rfl

end Fields

/-! ## Tables after a list of flushes -/

variable {C : Codec K}

theorem foldl_flush_proposal (tasks : List (DirtyData K)) (db : Database) :
    (tasks.foldl (flush C) db).proposal =
      ((flushedProps tasks).map (proposalRow C)).foldl (Table.insertIgnore ProposalRow.view)
        db.proposal := by
  induction tasks generalizing db with
  | nil => rfl
  | cons t tasks ih =>
    rw [List.foldl_cons, ih, flush_eq]
    unfold flushedProps
    rw [List.flatMap_cons, List.map_append, List.foldl_append]

theorem foldl_flush_qc (tasks : List (DirtyData K)) (db : Database) :
    (tasks.foldl (flush C) db).qc =
      ((flushedCerts tasks).map (qcRow C)).foldl (Table.insertIgnore QcRow.view) db.qc := by
  induction tasks generalizing db with
  | nil => rfl
  | cons t tasks ih =>
    rw [List.foldl_cons, ih, flush_eq]
    unfold flushedCerts
    rw [List.flatMap_cons, List.map_append, List.foldl_append]

theorem foldl_flush_partialTc (tasks : List (DirtyData K)) (db : Database) :
    (tasks.foldl (flush C) db).partialTc =
      ((tasks.flatMap DirtyData.partialTcQueue).map (partialTcRow C)).foldl
        (Table.insertIgnore PartialTcRow.key) db.partialTc := by
  induction tasks generalizing db with
  | nil => rfl
  | cons t tasks ih =>
    rw [List.foldl_cons, ih, flush_eq, List.flatMap_cons, List.map_append, List.foldl_append]

/-- The tables written at initialisation stay as they are. -/
theorem foldl_flush_config (tasks : List (DirtyData K)) (db : Database) :
    (tasks.foldl (flush C) db).hotstuffConf = db.hotstuffConf ∧
      (tasks.foldl (flush C) db).peers = db.peers ∧
      (tasks.foldl (flush C) db).crypto = db.crypto := by
  induction tasks generalizing db with
  | nil => exact ⟨rfl, rfl, rfl⟩
  | cons t tasks ih =>
    have h := ih (db.flush C t)
    rw [List.foldl_cons, h.1, h.2.1, h.2.2, flush_eq]
    exact ⟨rfl, rfl, rfl⟩

/-- The first flushed proposal of a height. -/
def firstProp (tasks : List (DirtyData K)) (height : ViewNumber) : Option (TreeNode K) :=
  (flushedProps tasks).find? fun p => p.height = height

/-- The first flushed certificate of a view. -/
def firstCert (tasks : List (DirtyData K)) (view : ViewNumber) : Option (GenericQC K) :=
  (flushedCerts tasks).find? fun q => q.view = view

section Select

variable {tasks : List (DirtyData K)} {db₀ : Database}

theorem select_proposal (h : db₀.proposal = []) (height : ViewNumber) :
    Table.select ProposalRow.view (tasks.foldl (flush C) db₀).proposal height =
      (firstProp tasks height).map (proposalRow C) := by
  rw [foldl_flush_proposal, Table.select_foldl, h]
  unfold Table.select firstProp
  rw [List.find?_nil, Option.none_or, List.find?_map]
  rfl

theorem select_qc (h : db₀.qc = []) (view : ViewNumber) :
    Table.select QcRow.view (tasks.foldl (flush C) db₀).qc view =
      (firstCert tasks view).map (qcRow C) := by
  rw [foldl_flush_qc, Table.select_foldl, h]
  unfold Table.select firstCert
  rw [List.find?_nil, Option.none_or, List.find?_map]
  rfl

theorem unique_proposal (h : db₀.proposal = []) :
    Table.Unique ProposalRow.view (tasks.foldl (flush C) db₀).proposal := by
  rw [foldl_flush_proposal, h]
  exact Table.unique_foldl _ (Table.unique_nil _) _

theorem unique_qc (h : db₀.qc = []) :
    Table.Unique QcRow.view (tasks.foldl (flush C) db₀).qc := by
  rw [foldl_flush_qc, h]
  exact Table.unique_foldl _ (Table.unique_nil _) _

end Select

/-- With unique keys, the join has one row for each proposal whose certificate is there. -/
theorem join_eq {db : Database} (h : Table.Unique QcRow.view db.qc) :
    db.join = db.proposal.flatMap fun p =>
      (Table.select QcRow.view db.qc p.justifyView).toList.map fun q => (p, q) := by
  unfold join
  congr 1
  funext p
  rw [Table.filter_eq_select h]

/-- The rows of the join at one height. -/
theorem join_filter {db : Database} (hp : Table.Unique ProposalRow.view db.proposal)
    (hq : Table.Unique QcRow.view db.qc) (view : ViewNumber) :
    (db.join.filter fun row => row.1.view = view) =
      ((Table.select ProposalRow.view db.proposal view).bind fun p =>
        (Table.select QcRow.view db.qc p.justifyView).map fun q => (p, q)).toList := by
  rw [join_eq hq, List.filter_flatMap]
  have hrow : ∀ p : ProposalRow,
      (((Table.select QcRow.view db.qc p.justifyView).toList.map fun q => (p, q)).filter
        fun row => row.1.view = view) =
      if p.view = view then
        ((Table.select QcRow.view db.qc p.justifyView).map fun q => (p, q)).toList
      else [] := by
    intro p
    by_cases hv : p.view = view
    · rw [if_pos hv]
      cases Table.select QcRow.view db.qc p.justifyView with
      | none => rfl
      | some q => simp [hv]
    · rw [if_neg hv]
      cases Table.select QcRow.view db.qc p.justifyView with
      | none => rfl
      | some q => simp [hv]
  simp only [hrow]
  rw [Table.flatMap_ite_eq, Table.filter_eq_select hp]
  cases Table.select ProposalRow.view db.proposal view with
  | none => rfl
  | some p => simp

/-! ## Recovery from the flushed tasks -/

/-- The node recovery finds at a height above 0. -/
def restoreProp (tasks : List (DirtyData K)) (view : ViewNumber) :
    Option (NodeHash × TreeNode K) :=
  (firstProp tasks view).bind fun p =>
    (firstCert tasks p.justify.view).map fun q => (q.node, restored p q)

/-- The node recovery puts into the state for a height. -/
def restoreNode (tasks : List (DirtyData K)) (view : ViewNumber) : Option (TreeNode K) :=
  if 0 < view then (restoreProp tasks view).map Prod.snd else some (initNode K)

/-- The state recovery returns when the last task was `last`. -/
def restoreState (tasks : List (DirtyData K)) (last : InMemoryState K) :
    Option (InMemoryState K) :=
  (restoreNode tasks last.leaf.height).bind fun leaf =>
    (restoreNode tasks last.bLocked.height).bind fun bLocked =>
      (restoreNode tasks last.lastCommit.height).map fun lastCommit =>
        { last with leaf := leaf, qcHigh := leaf.justify, bLocked := bLocked,
                    lastCommit := lastCommit }

variable {tasks : List (DirtyData K)} {db₀ : Database}

theorem getOneNodeByView_eq (laws : CodecLaws C) (hp : db₀.proposal = []) (hq : db₀.qc = [])
    (view : ViewNumber) :
    (tasks.foldl (flush C) db₀).getOneNodeByView C view = restoreProp tasks view := by
  unfold getOneNodeByView restoreProp
  rw [join_filter (unique_proposal hp) (unique_qc hq), select_proposal hp]
  cases firstProp tasks view with
  | none => rfl
  | some p =>
    simp only [Option.map_some, Option.bind_some]
    have hview : (proposalRow C p).justifyView = p.justify.view := rfl
    rw [hview, select_qc hq]
    cases firstCert tasks p.justify.view with
    | none => rfl
    | some q =>
      show mapRowToProposal C (proposalRow C p, qcRow C q) = _
      rw [mapRowToProposal_eq laws]
      rfl

theorem nodeAt_eq (laws : CodecLaws C) (hp : db₀.proposal = []) (hq : db₀.qc = [])
    (view : ViewNumber) :
    (tasks.foldl (flush C) db₀).nodeAt C view = restoreNode tasks view := by
  unfold nodeAt restoreNode
  rw [getOneNodeByView_eq laws hp hq]

/-- The state table holds the last flushed state, as long as all carry one token. -/
theorem foldl_flush_hotstuffState {token : String} (hs : db₀.hotstuffState = [])
    (htok : ∀ t ∈ tasks, t.state.token = token) :
    (tasks.foldl (flush C) db₀).hotstuffState =
      (tasks.getLast?.map fun t => stateRow t.state).toList := by
  induction tasks using List.reverseRecOn with
  | nil => exact hs
  | append_singleton tasks t ih =>
    rw [List.foldl_append, List.foldl_cons, List.foldl_nil, flush_eq,
      ih fun t' ht' => htok t' (List.mem_append_left _ ht'), List.getLast?_concat]
    unfold Table.replace
    have hold : ((tasks.getLast?.map fun t => stateRow t.state).toList.filter
        fun r' => StateRow.token r' ≠ StateRow.token (stateRow t.state)) = [] := by
      rw [List.filter_eq_nil_iff]
      intro row hrow
      obtain ⟨t', ht', rfl⟩ := Option.map_eq_some_iff.mp (Option.mem_toList.mp hrow)
      have hmem : t' ∈ tasks := List.mem_of_getLast? ht'
      have h1 : (stateRow t'.state).token = token :=
        htok t' (List.mem_append_left _ hmem)
      have h2 : (stateRow t.state).token = token := htok t (by simp)
      simp [h1, h2]
    rw [hold]
    rfl

/-- Recovery of the state, as a function of the flushed tasks. -/
theorem recoverHotstuffState_eq (laws : CodecLaws C) {token : String} (hp : db₀.proposal = [])
    (hq : db₀.qc = []) (hs : db₀.hotstuffState = [])
    (htok : ∀ t ∈ tasks, t.state.token = token) :
    (tasks.foldl (flush C) db₀).recoverHotstuffState C =
      tasks.getLast?.bind fun t => restoreState tasks t.state := by
  unfold recoverHotstuffState
  rw [foldl_flush_hotstuffState hs htok]
  cases tasks.getLast? with
  | none => rfl
  | some t =>
    simp only [Option.map_some, Option.toList_some, List.head?_cons, Option.bind_eq_bind,
      Option.bind_some, nodeAt_eq laws hp hq]
    unfold restoreState
    have hleaf : (stateRow t.state).leafView = t.state.leaf.height := rfl
    have hlocked : (stateRow t.state).lockedView = t.state.bLocked.height := rfl
    have hcommit : (stateRow t.state).executedView = t.state.lastCommit.height := rfl
    rw [hleaf, hlocked, hcommit]
    cases restoreNode tasks t.state.leaf.height with
    | none => rfl
    | some leaf =>
      cases restoreNode tasks t.state.bLocked.height with
      | none => rfl
      | some bLocked =>
        cases restoreNode tasks t.state.lastCommit.height with
        | none => rfl
        | some lastCommit => rfl

/-- A flushed partial certificate makes the recovery of the certificates fail. -/
theorem recoverTcMap_eq (laws : CodecLaws C) (h : db₀.partialTc = []) :
    (tasks.foldl (flush C) db₀).recoverTcMap C =
      if tasks.flatMap DirtyData.partialTcQueue = [] then some ∅ else none := by
  unfold recoverTcMap
  rw [foldl_flush_partialTc, h]
  split
  · rename_i hnil
    rw [hnil]
    rfl
  · rename_i hne
    have hrows : ((tasks.flatMap DirtyData.partialTcQueue).map (partialTcRow C)).foldl
        (Table.insertIgnore PartialTcRow.key) [] ≠ [] := by
      rw [ne_eq, Table.foldl_eq_nil_iff, List.map_eq_nil_iff]
      exact hne
    obtain ⟨row, rows, hcons⟩ := List.exists_cons_of_ne_nil hrows
    have hmem : row ∈ ((tasks.flatMap DirtyData.partialTcQueue).map (partialTcRow C)).foldl
        (Table.insertIgnore PartialTcRow.key) [] := by
      rw [hcons]
      exact List.mem_cons_self
    rw [hcons]
    rcases Table.mem_of_mem_foldl _ hmem with hrow | hrow
    · cases hrow
    · obtain ⟨tc, -, rfl⟩ := List.mem_map.mp hrow
      have hdecode : C.tcFromJson (partialTcRow C tc).partialSign = none := laws.tc tc.viewSign
      rw [List.foldlM_cons, hdecode]
      rfl

end Database

/-- What `recover` reads, and what it starts with. -/
theorem HotstuffStorage.recover_cases {C : Codec K} {db : Database} {token : String}
    {rows : List (ProposalRow × QcRow)} {s : HotstuffStorage K}
    (h : HotstuffStorage.recover C db token rows = some s) :
    Database.recoverInMemQueue C rows = some s.inMemQueue ∧
      db.recoverHotstuffState C = some s.state ∧
      ∃ conf signaturer tcMap, s =
        { backend := some ⟨[], true⟩, state := s.state, conf := conf, signaturer := signaturer,
          inMemQueue := s.inMemQueue, tcMap := tcMap, newViewSet := ∅, combinedTcQueue := [],
          partialTcQueue := [], propQueue := [], justifyQueue := [], dirty := false } := by
  unfold recover at h
  obtain ⟨conf, -, h⟩ := Option.bind_eq_some_iff.mp h
  obtain ⟨inMemQueue, hstore, h⟩ := Option.bind_eq_some_iff.mp h
  obtain ⟨state, hstate, h⟩ := Option.bind_eq_some_iff.mp h
  obtain ⟨tcMap, -, h⟩ := Option.bind_eq_some_iff.mp h
  obtain ⟨signaturer, -, h⟩ := Option.bind_eq_some_iff.mp h
  obtain rfl := Option.some.inj h
  exact ⟨hstore, hstate, conf, signaturer, tcMap, rfl⟩

end HotstuffConsensus
