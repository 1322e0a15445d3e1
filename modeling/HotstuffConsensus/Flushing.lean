import HotstuffConsensus.Persistence
import HotstuffConsensus.PacemakerCore
import HotstuffConsensus.ThresholdScheme

/-!
# What a flush sends

`async_flush` moves the four queues into a task, sends the task and clears the dirty flag.
`MySQLStorage::async_flush` drops the result of the send.

* A flush is all right exactly when the flusher receives. When it has stopped, the task is gone
  and `Ok(())` is returned.
* Every operation that changes the state or a queue sets the flag. A clean storage has nothing
  in its queues, and the state of the last task.
-/

namespace HotstuffConsensus

open Lib

variable {K : Crypto}

/-- `Sender::send`: it fails, and gives the task back, when nobody receives. -/
def MySQLStorage.send (backend : MySQLStorage K) (task : DirtyData K) :
    MySQLStorage K × Except (DirtyData K) Unit :=
  if backend.receiving then ({ backend with channel := backend.channel ++ [task] }, .ok ())
  else (backend, .error task)

/-- `MySQLStorage::async_flush` sends and drops the result. -/
theorem MySQLStorage.asyncFlush_eq_send (backend : MySQLStorage K) (task : DirtyData K) :
    backend.asyncFlush task = (backend.send task).1 := by
  unfold asyncFlush send
  split <;> rfl

namespace HotstuffStorage

/-! ## A flush that fails -/

/-- `async_flush` with its result; `ε` is `sqlx::Error`. -/
def asyncFlushResult (ε : Type) (s : HotstuffStorage K) : HotstuffStorage K × Except ε Unit :=
  if !s.dirty then (s, .ok ())
  else
    match s.backend with
    | some backend =>
      -- the queues are moved into the task before it is sent, whatever comes of it
      ({ s with
          backend := some (backend.send s.dirtyData).1
          combinedTcQueue := [], partialTcQueue := [], propQueue := [], justifyQueue := []
          dirty := false }, .ok ())
    | none => (s, .ok ())

theorem asyncFlushResult_fst (ε : Type) (s : HotstuffStorage K) :
    (s.asyncFlushResult ε).1 = s.asyncFlush := by
  unfold asyncFlushResult asyncFlush
  cases s.dirty with
  | false => rfl
  | true =>
    cases s.backend with
    | none => rfl
    | some backend =>
      simp only [MySQLStorage.asyncFlush_eq_send]
      rfl

theorem asyncFlushResult_snd (ε : Type) (s : HotstuffStorage K) :
    (s.asyncFlushResult ε).2 = .ok () := by
  unfold asyncFlushResult
  split
  · rfl
  · split <;> rfl

/-- A flush whose task cannot be sent returns an error and leaves queues and flag alone. When it
returns `Ok`, the queues are handed to the flusher, once and in order. -/
def FlushLosesNothing (ε : Type) (s : HotstuffStorage K) (backend : MySQLStorage K) : Prop :=
  ((∃ task, (backend.send s.dirtyData).2 = .error task) →
    (∃ e, (s.asyncFlushResult ε).2 = .error e) ∧
      (s.asyncFlushResult ε).1.dirtyData = s.dirtyData ∧
      (s.asyncFlushResult ε).1.dirty = s.dirty) ∧
  ((s.asyncFlushResult ε).2 = .ok () →
    ∃ backend', (s.asyncFlushResult ε).1.backend = some backend' ∧
      backend'.channel = backend.channel ++ [s.dirtyData])

/-- A flush of dirty data loses nothing exactly when the flusher receives. -/
theorem flushLosesNothing_iff (ε : Type) (s : HotstuffStorage K) (backend : MySQLStorage K)
    (hb : s.backend = some backend) (hd : s.dirty = true) :
    s.FlushLosesNothing ε backend ↔ backend.receiving = true := by
  have hbackend : (s.asyncFlushResult ε).1.backend = some (backend.send s.dirtyData).1 := by
    unfold asyncFlushResult
    rw [hd, hb]
    rfl
  unfold FlushLosesNothing
  rw [hbackend, asyncFlushResult_snd]
  unfold MySQLStorage.send
  cases backend.receiving with
  | true =>
    constructor
    · exact fun _ => rfl
    · intro _
      refine ⟨?_, fun _ => ⟨_, rfl, rfl⟩⟩
      rintro ⟨task, hsend⟩
      cases hsend
  | false =>
    constructor
    · rintro ⟨hfail, -⟩
      obtain ⟨⟨e, he⟩, -⟩ := hfail ⟨_, rfl⟩
      cases he
    · intro h
      cases h

/-! ## A clean storage -/

theorem updateQcHigh_dirty (s : HotstuffStorage K) (node : TreeNode K) (qc : GenericQC K) :
    (s.updateQcHigh node qc).dirty = true ∨ s.updateQcHigh node qc = s := by
  unfold updateQcHigh
  split
  · split
    · exact Or.inl rfl
    · exact Or.inr rfl
  · exact Or.inr rfl

theorem compressTc_dirty (s : HotstuffStorage K) : s.compressTc.1.dirty = s.dirty := by
  unfold compressTc
  dsimp only
  split
  · rfl
  · split <;> rfl

theorem appendTc_dirty (s : HotstuffStorage K) (tc : TimeoutCertificate K) :
    (s.appendTc tc).1.dirty = true := by
  unfold appendTc
  cases tc.viewSign with
  | part kit => exact compressTc_dirty _
  | combined sign => exact compressTc_dirty _

/-- An operation sets the flag, or leaves flag, queues and state alone. -/
theorem apply_dirty (s : HotstuffStorage K) (o : StorageOp K) :
    (s.apply o).dirty = true ∨
      (s.apply o).dirty = s.dirty ∧ (s.apply o).dirtyData = s.dirtyData := by
  match o with
  | .appendNewNode node => exact Or.inl rfl
  | .appendNewQc qc => exact Or.inl rfl
  | .updateLeaf node => exact Or.inl rfl
  | .updateQcHigh node qc =>
    rcases s.updateQcHigh_dirty node qc with h | h
    · exact Or.inl h
    · refine Or.inr ⟨?_, ?_⟩
      · exact congrArg dirty h
      · exact congrArg dirtyData h
  | .updateLockedNode node => exact Or.inl rfl
  | .increaseView view => exact Or.inl rfl
  | .updateVheight vheight => exact Or.inl rfl
  | .commit node =>
    show (s.commit node).dirty = true ∨
      (s.commit node).dirty = s.dirty ∧ (s.commit node).dirtyData = s.dirtyData
    unfold commit
    split
    · exact Or.inr ⟨rfl, rfl⟩
    · exact Or.inl rfl
  | .appendTc tc => exact Or.inl (s.appendTc_dirty tc)
  | .livenessUpdateQcHigh node qc => exact Or.inl rfl
  | .insertNewView view sender qc => exact Or.inr ⟨rfl, rfl⟩
  | .cleanNewViewSet view => exact Or.inr ⟨rfl, rfl⟩

/-- Nothing is queued, and the state is `state`. -/
def NothingNew (s : HotstuffStorage K) (state : InMemoryState K) : Prop :=
  s.dirtyData = ⟨[], [], [], [], state⟩

end HotstuffStorage

/-- How a storage gets its first state: a new one, a new one with fresh tables, or a recovered
one. -/
inductive Opened : HotstuffStorage K → Prop
  | new (token : String) (node : TreeNode K) (qc : GenericQC K) (conf : HotStuffConfig)
      (signaturer : DefaultSignaturer K) (backend : MySQLStorage K) :
      Opened (HotstuffStorage.new token node qc conf signaturer (some backend))
  | init (token : String) (total : ℕ) (selfId : ReplicaID)
      (peersAddr : Finmap fun _ : ReplicaID => String) (signaturer : DefaultSignaturer K) :
      Opened (initHotstuffStorage token total selfId peersAddr signaturer)
  | recovered (C : Codec K) (db : Database) (token : String) (rows : List (ProposalRow × QcRow))
      {s : HotstuffStorage K} (h : HotstuffStorage.recover C db token rows = some s) : Opened s

/-- What happens to a storage with a backend. -/
inductive FlushAction (K : Crypto) where
  /-- An operation of `SafetyStorage` or `LivenessStorage`. -/
  | op (o : StorageOp K)
  /-- `new_view_set(view)`. -/
  | newViewSet (view : ViewNumber)
  | flush
  /-- The flusher takes a task from the channel. -/
  | flusher
  /-- The flusher stops receiving. -/
  | stop

/-- A storage, and the tasks its flushes have sent. -/
structure Flushed (K : Crypto) where
  storage : HotstuffStorage K
  sent : List (DirtyData K)

namespace Flushed

def step (f : Flushed K) : FlushAction K → Flushed K
  | .op o => { f with storage := f.storage.apply o }
  | .newViewSet view => { f with storage := f.storage.touchNewViewSet view }
  | .flush => ⟨f.storage.asyncFlush, f.sent ++ f.storage.flushTask⟩
  | .flusher => { f with storage := f.storage.takeTask }
  | .stop =>
    { f with storage := { f.storage with
        backend := f.storage.backend.map fun backend => { backend with receiving := false } } }

/-- The state sent last, or the first one when nothing has been sent. -/
def lastState (first : InMemoryState K) (f : Flushed K) : InMemoryState K :=
  (f.sent.getLast?.map DirtyData.state).getD first

/-- There is a backend, and a storage that is not dirty has nothing new. -/
structure Clean (first : InMemoryState K) (f : Flushed K) : Prop where
  backend : f.storage.backend.isSome
  clean : f.storage.dirty = false → f.storage.NothingNew (f.lastState first)

theorem clean_of_opened {s : HotstuffStorage K} (h : Opened s) : Clean s.state ⟨s, []⟩ := by
  cases h with
  | new token node qc conf signaturer backend => exact ⟨rfl, fun _ => rfl⟩
  | init token total selfId peersAddr signaturer => exact ⟨rfl, fun _ => rfl⟩
  | recovered C db token rows h =>
    obtain ⟨-, -, conf, signaturer, tcMap, hs⟩ := HotstuffStorage.recover_cases h
    rw [hs]
    exact ⟨rfl, fun _ => rfl⟩

/-- A flush leaves a clean storage alone, and sends the state of a dirty one. -/
theorem Clean.flush {first : InMemoryState K} {f : Flushed K} (h : Clean first f) :
    Clean first (f.step .flush) := by
  obtain ⟨backend, hb⟩ := Option.isSome_iff_exists.mp h.backend
  show Clean first ⟨f.storage.asyncFlush, f.sent ++ f.storage.flushTask⟩
  unfold HotstuffStorage.asyncFlush HotstuffStorage.flushTask
  cases hd : f.storage.dirty with
  | true =>
    rw [if_pos rfl, if_pos rfl, hb]
    refine ⟨rfl, fun _ => ?_⟩
    unfold lastState
    rw [List.getLast?_concat]
    rfl
  | false =>
    rw [if_neg (by decide), if_neg (by decide), List.append_nil]
    exact h

theorem Clean.step {first : InMemoryState K} {f : Flushed K} (h : Clean first f)
    (a : FlushAction K) : Clean first (f.step a) := by
  cases a with
  | op o =>
    obtain ⟨props, hrecords⟩ := f.storage.apply_records o
    constructor
    · show (f.storage.apply o).backend.isSome
      rw [hrecords.backend]
      exact h.backend
    · intro hclean
      rcases f.storage.apply_dirty o with hdirty | ⟨hflag, hdata⟩
      · have hset : (f.step (.op o)).storage.dirty = true := hdirty
        rw [hset] at hclean
        cases hclean
      · exact hdata.trans (h.clean (hflag.symm.trans hclean))
  | newViewSet view => exact ⟨h.backend, h.clean⟩
  | flush => exact h.flush
  | flusher =>
    show Clean first ⟨f.storage.takeTask, f.sent⟩
    unfold HotstuffStorage.takeTask
    split
    · exact ⟨rfl, h.clean⟩
    · exact h
  | stop =>
    refine ⟨?_, h.clean⟩
    obtain ⟨backend, hb⟩ := Option.isSome_iff_exists.mp h.backend
    show (f.storage.backend.map _).isSome
    rw [hb]
    rfl

/-- The tasks in the first channel and those sent since are the ones the flusher has taken, in
order, and the ones in the channel; when it has stopped, nothing is said. -/
def Delivers (first : MySQLStorage K) (f : Flushed K) : Prop :=
  ∀ backend, f.storage.backend = some backend → backend.receiving = true →
    ∃ taken, first.channel ++ f.sent = taken ++ backend.channel

theorem Delivers.flush {first : MySQLStorage K} {f : Flushed K} (h : Delivers first f) :
    Delivers first (f.step .flush) := by
  intro backend' hb' hr
  change f.storage.asyncFlush.backend = some backend' at hb'
  show ∃ taken, first.channel ++ (f.sent ++ f.storage.flushTask) = taken ++ backend'.channel
  unfold HotstuffStorage.asyncFlush at hb'
  unfold HotstuffStorage.flushTask
  cases hd : f.storage.dirty with
  | false =>
    rw [if_neg (by rw [hd]; decide)] at hb'
    rw [if_neg (by decide), List.append_nil]
    exact h backend' hb' hr
  | true =>
    rw [if_pos hd] at hb'
    cases hb : f.storage.backend with
    | none =>
      rw [hb] at hb'
      exact absurd (hb.symm.trans hb') (fun h => nomatch h)
    | some backend =>
      rw [hb] at hb'
      obtain rfl := Option.some.inj hb'
      unfold MySQLStorage.asyncFlush at hr ⊢
      cases hrecv : backend.receiving with
      | false =>
        rw [if_neg (by rw [hrecv]; decide), hrecv] at hr
        cases hr
      | true =>
        obtain ⟨taken, htaken⟩ := h backend hb hrecv
        refine ⟨taken, ?_⟩
        rw [if_pos rfl, if_pos rfl, ← List.append_assoc, htaken, List.append_assoc]
        rfl

theorem Delivers.step {first : MySQLStorage K} {f : Flushed K} (h : Delivers first f)
    (a : FlushAction K) : Delivers first (f.step a) := by
  cases a with
  | op o =>
    obtain ⟨props, hrecords⟩ := f.storage.apply_records o
    intro backend hb
    exact h backend (hrecords.backend.symm.trans hb)
  | newViewSet view => exact h
  | flush => exact h.flush
  | flusher =>
    intro backend hb hr
    change f.storage.takeTask.backend = some backend at hb
    unfold HotstuffStorage.takeTask at hb
    split at hb
    · rename_i task rest receiving hold
      obtain rfl := Option.some.inj hb
      obtain ⟨taken, htaken⟩ := h _ hold hr
      exact ⟨taken ++ [task], by rw [List.append_assoc]; exact htaken⟩
    · exact h backend hb hr
  | stop =>
    intro backend hb hr
    obtain ⟨old, -, rfl⟩ := Option.map_eq_some_iff.mp hb
    cases hr

/-- While the flusher receives, no task that a flush has sent is lost, doubled or moved. -/
theorem sent_eq_taken_append_channel (s : HotstuffStorage K) {first : MySQLStorage K}
    (hfirst : s.backend = some first) (as : List (FlushAction K)) :
    Delivers first (as.foldl step ⟨s, []⟩) := by
  refine Run.foldl_of_kept (I := Delivers first) ?_ (fun _ a hf => hf.step a) as
  intro backend hb _
  obtain rfl := Option.some.inj (hfirst.symm.trans hb)
  exact ⟨[], List.append_nil _⟩

/-- Whatever is done with a storage that has a backend, when it is not dirty its queues are
empty and its state is the one sent last, or the first one. -/
theorem clean_has_nothing_new (s : HotstuffStorage K) (h : Opened s) (as : List (FlushAction K))
    (hclean : (as.foldl step ⟨s, []⟩).storage.dirty = false) :
    (as.foldl step ⟨s, []⟩).storage.NothingNew ((as.foldl step ⟨s, []⟩).lastState s.state) := by
  have hinv : Clean s.state (as.foldl step ⟨s, []⟩) :=
    Run.foldl_of_kept (I := Clean s.state) (clean_of_opened h) (fun _ a hf => hf.step a) as
  exact hinv.clean hclean

end Flushed

namespace Symbolic

open HotstuffStorage

/-- A fresh storage of four replicas with a database. -/
def opened : HotstuffStorage symbolic :=
  initHotstuffStorage "hotstuff_test" 4 (replicaId 0) ∅ (signaturer 4 0)

/-- The storage with `a1` in its queue, and a flusher that receives or not. -/
def unflushed (receiving : Bool) : HotstuffStorage symbolic :=
  { opened.appendNewNode a1 with backend := some ⟨[], receiving⟩ }

/-- With a flusher that receives `a1` is handed over. -/
theorem received_flush_loses_nothing : (unflushed true).FlushLosesNothing Unit ⟨[], true⟩ :=
  (flushLosesNothing_iff Unit (unflushed true) ⟨[], true⟩ rfl rfl).mpr rfl

/-- Without one `a1` is lost, and the flush returns `Ok`. -/
theorem stopped_flush_loses_a1 : (unflushed false).backend = some ⟨[], false⟩ ∧
    (unflushed false).dirty = true ∧ (unflushed false).propQueue = [a1] ∧
    (unflushed false).asyncFlush.propQueue = [] ∧
    ¬ (unflushed false).FlushLosesNothing Unit ⟨[], false⟩ := by
  refine ⟨rfl, rfl, rfl, rfl, ?_⟩
  rintro ⟨hfail, -⟩
  obtain ⟨⟨e, he⟩, -⟩ := hfail ⟨_, rfl⟩
  rw [asyncFlushResult_snd] at he
  cases he

/-- After `a1` and a flush, the state is the one that was sent. -/
theorem flushed_a1_nothing_new :
    ([.op (.appendNewNode a1), .op (.updateVheight 1), .flush].foldl Flushed.step
      ⟨opened, []⟩).storage.NothingNew { opened.state with vheight := 1 } :=
  Flushed.clean_has_nothing_new opened (.init _ _ _ _ _)
    [.op (.appendNewNode a1), .op (.updateVheight 1), .flush] rfl

end Symbolic

end HotstuffConsensus
