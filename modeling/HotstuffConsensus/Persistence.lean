import HotstuffConsensus.DatabaseTheorems

/-!
# Storage and database together

A storage made by `init_hotstuff_storage`, its flusher and the database. `async_flush`
hands a task to the channel; at any later time the flusher takes it out and commits it.
`Persisted` lists what can be reached, with the tasks handed over so far.

Flushing is first in, first out, so that a database with nothing left in the channel is
the one obtained from the tasks alone, and the block store is what was ever put into the
proposal queue.
-/

namespace HotstuffConsensus

open Lib

variable {K : Crypto}

/-- The operations of `SafetyStorage` and `LivenessStorage`. -/
inductive StorageOp (K : Crypto) where
  | appendNewNode (node : TreeNode K)
  | appendNewQc (qc : GenericQC K)
  | updateLeaf (node : TreeNode K)
  | updateQcHigh (node : TreeNode K) (qc : GenericQC K)
  | updateLockedNode (node : TreeNode K)
  | increaseView (view : ViewNumber)
  | updateVheight (vheight : ViewNumber)
  | commit (node : TreeNode K)
  | appendTc (tc : TimeoutCertificate K)
  | livenessUpdateQcHigh (node : TreeNode K) (qc : GenericQC K)
  | insertNewView (view : ViewNumber) (sender : ReplicaID) (qc : GenericQC K)
  | cleanNewViewSet (view : ViewNumber)

namespace HotstuffStorage

def apply (s : HotstuffStorage K) : StorageOp K → HotstuffStorage K
  | .appendNewNode node => s.appendNewNode node
  | .appendNewQc qc => s.appendNewQc qc
  | .updateLeaf node => s.updateLeaf node
  | .updateQcHigh node qc => s.updateQcHigh node qc
  | .updateLockedNode node => s.updateLockedNode node
  | .increaseView view => s.increaseView view
  | .updateVheight vheight => s.updateVheight vheight
  | .commit node => s.commit node
  | .appendTc tc => (s.appendTc tc).1
  | .livenessUpdateQcHigh node qc => s.livenessUpdateQcHigh node qc
  | .insertNewView view sender qc => s.insertNewView view sender qc
  | .cleanNewViewSet view => s.cleanNewViewSet view

/-- The payload of the task `async_flush` sends. -/
def dirtyData (s : HotstuffStorage K) : DirtyData K :=
  ⟨s.combinedTcQueue, s.partialTcQueue, s.propQueue, s.justifyQueue, s.state⟩

@[simp] theorem dirtyData_state (s : HotstuffStorage K) : s.dirtyData.state = s.state := rfl

/-- What `async_flush` sends; a clean storage sends nothing. -/
def flushTask (s : HotstuffStorage K) : List (DirtyData K) :=
  if s.dirty then [s.dirtyData] else []

/-- The storage after a flush that was written: nothing is queued and the channel is empty. -/
def settled (s : HotstuffStorage K) : HotstuffStorage K :=
  { s with backend := some ⟨[], true⟩, combinedTcQueue := [], partialTcQueue := [],
           propQueue := [], justifyQueue := [], dirty := false }

/-- The channel to the flusher is empty. -/
def Drained (s : HotstuffStorage K) : Prop := ∃ receiving, s.backend = some ⟨[], receiving⟩

end HotstuffStorage

/-- A storage and its database, reached from `init_hotstuff_storage` with the tables `db₀`,
and the tasks handed over on the way. -/
inductive Persisted (C : Codec K) (token : String) (db₀ : Database) :
    HotstuffStorage K → Database → List (DirtyData K) → Prop
  | init (total : ℕ) (selfId : ReplicaID) (peersAddr : Finmap fun _ : ReplicaID => String)
      (signaturer : DefaultSignaturer K)
      (hdb : persistOtherMsg C ⟨token, total, selfId, peersAddr⟩ signaturer = some db₀) :
      Persisted C token db₀ (initHotstuffStorage token total selfId peersAddr signaturer) db₀ []
  | op {s : HotstuffStorage K} {db : Database} {tasks : List (DirtyData K)}
      (h : Persisted C token db₀ s db tasks) (o : StorageOp K) :
      Persisted C token db₀ (s.apply o) db tasks
  | asyncFlush {s : HotstuffStorage K} {db : Database} {tasks : List (DirtyData K)}
      (h : Persisted C token db₀ s db tasks) :
      Persisted C token db₀ s.asyncFlush db (tasks ++ s.flushTask)
  | flusher {s : HotstuffStorage K} {db : Database} {tasks : List (DirtyData K)}
      {task : DirtyData K} {rest : List (DirtyData K)} {receiving : Bool}
      (h : Persisted C token db₀ s db tasks)
      (hch : s.backend = some ⟨task :: rest, receiving⟩) :
      Persisted C token db₀ { s with backend := some ⟨rest, receiving⟩ } (db.flush C task) tasks

/-! ## What an operation records -/

/-- `insert` on the block store alone. -/
def insertBlock (store : BlockStore K) (x : TreeNode K) : BlockStore K := store.insert x.hash x

/-- The operation inserts the blocks `props` into the store and into the proposal queue,
and touches neither the channel nor the token. -/
structure RecordsProps (s s' : HotstuffStorage K) (props : List (TreeNode K)) : Prop where
  backend : s'.backend = s.backend
  token : s'.state.token = s.state.token
  queue : s'.propQueue = s.propQueue ++ props
  store : s'.inMemQueue = props.foldl insertBlock s.inMemQueue

theorem RecordsProps.none {s s' : HotstuffStorage K} (hb : s'.backend = s.backend)
    (ht : s'.state.token = s.state.token) (hq : s'.propQueue = s.propQueue)
    (hs : s'.inMemQueue = s.inMemQueue) : RecordsProps s s' [] :=
  ⟨hb, ht, by rw [hq, List.append_nil], hs⟩

namespace HotstuffStorage

theorem updateQcHigh_records (s : HotstuffStorage K) (node : TreeNode K) (qc : GenericQC K) :
    ∃ props, RecordsProps s (s.updateQcHigh node qc) props := by
  unfold updateQcHigh
  split
  · split
    · exact ⟨[node], rfl, rfl, rfl, rfl⟩
    · exact ⟨[], .none rfl rfl rfl rfl⟩
  · exact ⟨[], .none rfl rfl rfl rfl⟩

theorem compressTc_records (s : HotstuffStorage K) : RecordsProps s s.compressTc.1 [] := by
  unfold compressTc
  dsimp only
  split
  · exact .none rfl rfl rfl rfl
  · split
    · exact .none rfl rfl rfl rfl
    · exact .none rfl rfl rfl rfl

theorem appendTc_records (s : HotstuffStorage K) (tc : TimeoutCertificate K) :
    RecordsProps s (s.appendTc tc).1 [] := by
  unfold appendTc
  dsimp only
  split
  · have h := compressTc_records { s with partialTcQueue := s.partialTcQueue ++ [tc] }.setDirty
    exact ⟨h.backend, h.token, h.queue, h.store⟩
  · have h := compressTc_records { s with combinedTcQueue := s.combinedTcQueue ++ [tc] }.setDirty
    exact ⟨h.backend, h.token, h.queue, h.store⟩

/-- Every operation records the blocks it stores. -/
theorem apply_records (s : HotstuffStorage K) (o : StorageOp K) :
    ∃ props, RecordsProps s (s.apply o) props := by
  match o with
  | .appendNewNode node => exact ⟨[node], rfl, rfl, rfl, rfl⟩
  | .appendNewQc qc => exact ⟨[], .none rfl rfl rfl rfl⟩
  | .updateLeaf node => exact ⟨[node], rfl, rfl, rfl, rfl⟩
  | .updateQcHigh node qc => exact s.updateQcHigh_records node qc
  | .updateLockedNode node => exact ⟨[], .none rfl rfl rfl rfl⟩
  | .increaseView view => exact ⟨[], .none rfl rfl rfl rfl⟩
  | .updateVheight vheight => exact ⟨[], .none rfl rfl rfl rfl⟩
  | .commit node =>
    refine ⟨[], ?_⟩
    show RecordsProps s (s.commit node) []
    unfold commit
    split
    · exact .none rfl rfl rfl rfl
    · exact .none rfl rfl rfl rfl
  | .appendTc tc => exact ⟨[], s.appendTc_records tc⟩
  | .livenessUpdateQcHigh node qc =>
    obtain ⟨props, h⟩ := s.updateQcHigh_records node qc
    exact ⟨props, h.backend, h.token, h.queue, h.store⟩
  | .insertNewView view sender qc => exact ⟨[], .none rfl rfl rfl rfl⟩
  | .cleanNewViewSet view => exact ⟨[], .none rfl rfl rfl rfl⟩

end HotstuffStorage

/-! ## The invariant -/

namespace Persisted

variable {C : Codec K} {token : String} {db₀ db : Database} {s : HotstuffStorage K}
  {tasks : List (DirtyData K)}

/-- The tables as `init_hotstuff_storage` leaves them. -/
structure FreshTables (C : Codec K) (token : String) (db : Database) : Prop where
  proposal : db.proposal = []
  qc : db.qc = []
  hotstuffState : db.hotstuffState = []
  partialTc : db.partialTc = []
  conf : db.hotstuffConf ≠ []
  crypto : ∃ pks sks id, db.crypto = [⟨token, C.pksToJson pks, C.sksToJson sks, id⟩]

/-- What is committed and what is still in the channel add up to the tasks handed over,
all tasks carry the token, and the store is what went through the proposal queue. -/
structure Invariant (C : Codec K) (token : String) (db₀ : Database) (s : HotstuffStorage K)
    (db : Database) (tasks : List (DirtyData K)) : Prop where
  tables : FreshTables C token db₀
  channel : ∃ pending, s.backend = some ⟨pending, true⟩ ∧
    pending.foldl (Database.flush C) db = tasks.foldl (Database.flush C) db₀
  ownToken : s.state.token = token
  tokens : ∀ t ∈ tasks, t.state.token = token
  store : s.inMemQueue = (flushedProps tasks ++ s.propQueue).foldl insertBlock
    ((∅ : BlockStore K).insert (initNodeHash K) (initNode K))

theorem freshTables {conf : HotStuffConfig} {signaturer : DefaultSignaturer K}
    (h : persistOtherMsg C conf signaturer = some db₀) : FreshTables C conf.token db₀ := by
  unfold persistOtherMsg at h
  obtain ⟨addr, -, hdb⟩ := Option.map_eq_some_iff.mp h
  rw [← hdb]
  exact ⟨rfl, rfl, rfl, rfl, List.cons_ne_nil _ _, signaturer.pks, signaturer.sks,
    signaturer.signId, rfl⟩

/-- An operation. -/
theorem Invariant.apply (h : Invariant C token db₀ s db tasks) (o : StorageOp K) :
    Invariant C token db₀ (s.apply o) db tasks := by
  obtain ⟨props, hrec⟩ := s.apply_records o
  refine ⟨h.tables, ?_, hrec.token.trans h.ownToken, h.tokens, ?_⟩
  · rw [hrec.backend]
    exact h.channel
  · rw [hrec.store, hrec.queue, h.store]
    simp only [List.foldl_append]

/-- A flush moves the queues into a task, and the task into the channel. -/
theorem Invariant.asyncFlush (h : Invariant C token db₀ s db tasks) :
    Invariant C token db₀ s.asyncFlush db (tasks ++ s.flushTask) := by
  obtain ⟨pending, hbackend, hsettle⟩ := h.channel
  unfold HotstuffStorage.asyncFlush HotstuffStorage.flushTask
  split
  · rw [hbackend]
    dsimp only
    refine ⟨h.tables, ?_, h.ownToken, ?_, ?_⟩
    · refine ⟨pending ++ [s.dirtyData], rfl, ?_⟩
      rw [List.foldl_append, List.foldl_append, hsettle]
    · intro t ht
      rcases List.mem_append.mp ht with ht | ht
      · exact h.tokens t ht
      · rw [List.mem_singleton.mp ht]
        exact h.ownToken
    · rw [List.append_nil]
      unfold flushedProps
      rw [List.flatMap_append, List.flatMap_cons, List.flatMap_nil, List.append_nil]
      exact h.store
  · rw [List.append_nil]
    exact h

/-- The flusher moves a task from the channel into the database. -/
theorem Invariant.flusher {task : DirtyData K} {rest : List (DirtyData K)} {receiving : Bool}
    (h : Invariant C token db₀ s db tasks) (hch : s.backend = some ⟨task :: rest, receiving⟩) :
    Invariant C token db₀ { s with backend := some ⟨rest, receiving⟩ } (db.flush C task)
      tasks := by
  obtain ⟨pending, hbackend, hsettle⟩ := h.channel
  have hsame := Option.some.inj (hch.symm.trans hbackend)
  have hpending : task :: rest = pending := congrArg MySQLStorage.channel hsame
  have hreceiving : receiving = true := congrArg MySQLStorage.receiving hsame
  refine ⟨h.tables, ⟨rest, by rw [hreceiving], ?_⟩, h.ownToken, h.tokens, h.store⟩
  rw [← hsettle, ← hpending]
  rfl

theorem invariant (h : Persisted C token db₀ s db tasks) : Invariant C token db₀ s db tasks := by
  induction h with
  | init total selfId peersAddr signaturer hdb =>
    exact ⟨freshTables hdb, ⟨[], rfl, rfl⟩, rfl, fun t ht => (nomatch ht), rfl⟩
  | op _ o ih => exact ih.apply o
  | asyncFlush _ ih => exact ih.asyncFlush
  | flusher _ hch ih => exact ih.flusher hch

/-- With the channel empty, the database is what the tasks make of the initial one. -/
theorem db_eq (h : Persisted C token db₀ s db tasks) (hd : s.Drained) :
    db = tasks.foldl (Database.flush C) db₀ := by
  obtain ⟨pending, hbackend, hsettle⟩ := h.invariant.channel
  obtain ⟨receiving, hdrained⟩ := hd
  have hsame := Option.some.inj (hbackend.symm.trans hdrained)
  have hpending : pending = [] := congrArg MySQLStorage.channel hsame
  rw [hpending] at hsettle
  exact hsettle

theorem ops (h : Persisted C token db₀ s db tasks) (os : List (StorageOp K)) :
    Persisted C token db₀ (os.foldl HotstuffStorage.apply s) db tasks := by
  induction os generalizing s with
  | nil => exact h
  | cons o os ih => exact ih (h.op o)

/-- One more flush of a dirty storage, written to the database. -/
theorem settled (h : Persisted C token db₀ s db tasks) (hd : s.Drained)
    (hdirty : s.dirty = true) :
    Persisted C token db₀ s.settled (db.flush C s.dirtyData) (tasks ++ [s.dirtyData]) := by
  obtain ⟨receiving, hbackend⟩ := hd
  obtain ⟨pending, hpending, -⟩ := h.invariant.channel
  have hsame := Option.some.inj (hbackend.symm.trans hpending)
  have hreceiving : receiving = true := congrArg MySQLStorage.receiving hsame
  have hflush : s.asyncFlush = { s.settled with backend := some ⟨[s.dirtyData], true⟩ } := by
    unfold HotstuffStorage.asyncFlush
    rw [if_pos hdirty, hbackend, hreceiving]
    rfl
  have hsent := h.asyncFlush
  have htask : s.flushTask = [s.dirtyData] := by
    unfold HotstuffStorage.flushTask
    rw [if_pos hdirty]
  rw [htask] at hsent
  have hwritten := hsent.flusher (by rw [hflush])
  rw [hflush] at hwritten
  exact hwritten

/-- The rows of `proposal` are those of blocks. -/
theorem mem_proposal (h : Persisted C token db₀ s db tasks) {row : ProposalRow}
    (hrow : row ∈ db.proposal) : ∃ p : TreeNode K, row = proposalRow C p := by
  induction h with
  | init total selfId peersAddr signaturer hdb =>
    rw [(freshTables hdb).proposal] at hrow
    cases hrow
  | op _ o ih => exact ih hrow
  | asyncFlush _ ih => exact ih hrow
  | flusher _ hch ih =>
    rw [Database.flush_eq] at hrow
    rcases Table.mem_of_mem_foldl _ hrow with hold | hnew
    · exact ih hold
    · obtain ⟨p, -, rfl⟩ := List.mem_map.mp hnew
      exact ⟨p, rfl⟩

/-- Recovery of the state, with everything written. -/
theorem recoverHotstuffState_eq (laws : CodecLaws C) (h : Persisted C token db₀ s db tasks)
    (hd : s.Drained) :
    db.recoverHotstuffState C =
      tasks.getLast?.bind fun t => Database.restoreState tasks t.state := by
  have hinv := h.invariant
  rw [h.db_eq hd]
  exact Database.recoverHotstuffState_eq laws hinv.tables.proposal hinv.tables.qc
    hinv.tables.hotstuffState hinv.tokens

end Persisted

end HotstuffConsensus
