import HotstuffConsensus.BlockWrites
import HotstuffConsensus.Flushing
import HotstuffConsensus.LockOrder
import HotstuffConsensus.VoteDurability

/-!
# The database along a run

A flush hands the state of the moment to the channel and the flusher commits it later, while
the loop goes on. The row of `hotstuff_state` is therefore the state of an earlier time
(`Chronicle`): the row and the tasks under way are the states at certain times of the run, in
order, and a commit drops the first of them. Views, locks and commits only move forward in
memory, so they only move forward in the row.

The other tables only grow: a row that was written is neither changed nor removed.
-/

namespace HotstuffConsensus

open Lib

variable {K : Crypto}

/-! ## The tables -/

namespace Database

/-- What is in the tables stays, and nothing is added to those of the configuration. -/
structure ExtendedBy (db db' : Database) : Prop where
  proposal : db.proposal <+: db'.proposal
  qc : db.qc <+: db'.qc
  partialTc : db.partialTc <+: db'.partialTc
  combinedTc : db.combinedTc <+: db'.combinedTc
  crypto : db'.crypto = db.crypto
  hotstuffConf : db'.hotstuffConf = db.hotstuffConf
  peers : db'.peers = db.peers

theorem ExtendedBy.refl (db : Database) : db.ExtendedBy db :=
  ⟨List.prefix_refl _, List.prefix_refl _, List.prefix_refl _, List.prefix_refl _, rfl, rfl, rfl⟩

theorem ExtendedBy.trans {db db' db'' : Database} (h : db.ExtendedBy db')
    (h' : db'.ExtendedBy db'') : db.ExtendedBy db'' where
  proposal := h.proposal.trans h'.proposal
  qc := h.qc.trans h'.qc
  partialTc := h.partialTc.trans h'.partialTc
  combinedTc := h.combinedTc.trans h'.combinedTc
  crypto := h'.crypto.trans h.crypto
  hotstuffConf := h'.hotstuffConf.trans h.hotstuffConf
  peers := h'.peers.trans h.peers

theorem extendedBy_flush (C : Codec K) (db : Database) (data : DirtyData K) :
    db.ExtendedBy (db.flush C data) := by
  rw [flush_eq]
  exact ⟨Table.prefix_foldl _ _ _, Table.prefix_foldl _ _ _, Table.prefix_foldl _ _ _,
    Table.prefix_foldl _ _ _, rfl, rfl, rfl⟩

end Database

/-- The second row is of the same replica, and neither its views nor its lock nor its commits are
behind those of the first. -/
structure StateRow.NotAfter (row row' : StateRow) : Prop where
  token : row'.token = row.token
  currentView : row.currentView ≤ row'.currentView
  lockedView : row.lockedView ≤ row'.lockedView
  committedView : row.committedView ≤ row'.committedView
  executedView : row.executedView ≤ row'.executedView

theorem StateRow.NotAfter.refl (row : StateRow) : row.NotAfter row :=
  ⟨rfl, le_refl _, le_refl _, le_refl _, le_refl _⟩

theorem StateRow.NotAfter.trans {row row' row'' : StateRow} (h : row.NotAfter row')
    (h' : row'.NotAfter row'') : row.NotAfter row'' where
  token := h'.token.trans h.token
  currentView := h.currentView.trans h'.currentView
  lockedView := h.lockedView.trans h'.lockedView
  committedView := h.committedView.trans h'.committedView
  executedView := h.executedView.trans h'.executedView

/-! ## The state in memory -/

namespace Machine

/-- The row a flush of the machine's state writes. -/
def row (m : Machine K) : StateRow := stateRow m.storage.state

theorem Forward.row_notAfter {m m' : Machine K} (h : Forward m m') (hm : Level m) (hm' : Level m')
    (htoken : m'.storage.state.token = m.storage.state.token) : m.row.NotAfter m'.row := by
  refine ⟨htoken, h.view, h.lock, h.commit, ?_⟩
  show m.storage.state.lastCommit.height ≤ m'.storage.state.lastCommit.height
  rw [← hm.height, ← hm'.height]
  exact h.commit

/-- One machine follows from another if it is level again and its row is not before the other's. -/
structure Succeeds (m m' : Machine K) : Prop where
  level : Level m'
  row : m.row.NotAfter m'.row

theorem Succeeds.trans {m m' m'' : Machine K} (h : Succeeds m m') (h' : Succeeds m' m'') :
    Succeeds m m'' := ⟨h'.level, h.row.trans h'.row⟩

theorem Level.succeeds_refl {m : Machine K} (h : Level m) : Succeeds m m := ⟨h, .refl _⟩

theorem Level.succeeds_atomic {m m' : Machine K} (h : Level m) (hstep : Atomic m m')
    (htoken : m'.storage.state.token = m.storage.state.token) : Succeeds m m' :=
  ⟨h.atomic hstep, (hstep.forward h).row_notAfter h (h.atomic hstep) htoken⟩

theorem Level.succeeds_processSafetyEvent {m : Machine K} (h : Level m) (e : SafetyEvent K) :
    Succeeds m (m.processSafetyEvent e).1 := by
  by_cases hsync : ∃ ctx branch, e = .branchSync ctx branch
  · obtain ⟨ctx, branch, rfl⟩ := hsync
    refine syncNodes_of_invariant (I := Succeeds m) ?_ h.succeeds_refl branch
    intro m' p hm'
    exact hm'.trans (hm'.level.succeeds_atomic (.prop p rfl) (unwritten_token.processProp m' p))
  · refine h.succeeds_atomic (m.call_atomic (.event e) ?_) (unwritten_token.processSafetyEvent m e)
    intro ctx branch heq
    exact hsync ⟨ctx, branch, Call.event.inj heq⟩

end Machine

namespace Core

open Machine

/-- An operation on the storage that leaves the blocks, the lock and the commit alone. -/
theorem succeeds_onStorage {c : Core K} (h : c.machine.Level)
    {f : HotstuffStorage K → HotstuffStorage K}
    (hstore : (f c.storage).inMemQueue = c.storage.inMemQueue)
    (hidle : Idles c.storage (f c.storage))
    (htoken : (f c.storage).state.token = c.storage.state.token) :
    c.machine.Succeeds (c.onStorage f).machine := by
  refine h.succeeds_atomic (.idle hidle ?_) htoken
  intro hk
  show Keyed (f c.storage).inMemQueue
  rw [hstore]
  exact hk

theorem succeeds_of_state_eq {c : Core K} (h : c.machine.Level)
    {f : HotstuffStorage K → HotstuffStorage K}
    (hstore : (f c.storage).inMemQueue = c.storage.inMemQueue)
    (hstate : (f c.storage).state = c.storage.state) :
    c.machine.Succeeds (c.onStorage f).machine := by
  apply succeeds_onStorage h hstore
  · constructor <;> rw [hstate]
  · rw [hstate]

theorem succeeds_apply {c : Core K} (h : c.machine.Level) (op : Op K) :
    c.machine.Succeeds (c.apply op).machine := by
  cases op with
  | goto view =>
    exact succeeds_onStorage (c := { c with view := max c.view view }) h rfl
      ⟨rfl, rfl, rfl, le_max_left _ _⟩ rfl
  | increaseView => exact succeeds_onStorage h rfl (.increaseView c.storage _) rfl
  | touch => exact succeeds_of_state_eq h rfl rfl
  | clean => exact succeeds_of_state_eq h rfl rfl
  | newView view sender qc => exact succeeds_of_state_eq h rfl rfl
  | appendTc tc =>
    exact succeeds_of_state_eq h (c.storage.appendTc_frame tc).2 (c.storage.appendTc_frame tc).1
  | flush =>
    exact succeeds_of_state_eq h c.storage.asyncFlush_frame.2 c.storage.asyncFlush_frame.1
  | flusher =>
    exact succeeds_of_state_eq h c.storage.takeTask_frame.2 c.storage.takeTask_frame.1
  | event e => exact h.succeeds_processSafetyEvent e
  | updateQcHigh node =>
    have hidle := Idles.updateQcHigh c.storage node node.justify
    refine h.succeeds_atomic (.idle ⟨hidle.bLocked, hidle.lastCommit, hidle.committedHeight,
      hidle.view⟩ ?_) (unwritten_token.qcHigh c.storage node node.justify)
    intro hk
    exact HotstuffStorage.updateQcHigh_keyed hk node node.justify

theorem succeeds_run {c : Core K} (h : c.machine.Level) (ops : List (Op K)) :
    c.machine.Succeeds (c.run ops).machine := by
  refine Run.foldl_of_kept (I := fun c' : Core K => c.machine.Succeeds c'.machine)
    h.succeeds_refl ?_ ops
  intro c' op hc'
  exact hc'.trans (succeeds_apply hc'.level op)

end Core

/-- A fresh storage has flushed nothing. -/
theorem FreshStorage.channel_eq {s : HotstuffStorage K} (h : FreshStorage s)
    {backend : MySQLStorage K} (hb : s.backend = some backend) : backend.channel = [] := by
  cases h with
  | inMem => cases hb
  | database =>
    cases hb
    rfl

/-! ## Rows and times -/

namespace EventLoop

variable (C : Codec K)

/-- The row a flush would write now. -/
def row (l : EventLoop K) : StateRow := l.pm.machine.row

theorem step_succeeds {l : EventLoop K} (h : l.pm.machine.Level) (a : LoopAction K) :
    l.pm.machine.Succeeds (step C l a).pm.machine := by
  have hcore : (step C l a).core.machine = (l.core.run (l.ops a)).machine := by rw [step_core]
  show l.pm.machine.Succeeds (step C l a).core.machine
  rw [hcore]
  exact Core.succeeds_run (c := l.core) h (l.ops a)

theorem run_succeeds {l : EventLoop K} (h : l.pm.machine.Level) (as : List (LoopAction K)) :
    l.pm.machine.Succeeds (as.foldl (step C) l).pm.machine := by
  refine Run.foldl_of_kept (I := fun l' : EventLoop K => l.pm.machine.Succeeds l'.pm.machine)
    h.succeeds_refl ?_ as
  intro l' a hl'
  exact hl'.trans (step_succeeds C hl'.level a)

/-- In memory views, locks and commits only move forward. -/
theorem row_notAfter {l : EventLoop K} (h : l.pm.machine.Level) {as₁ as₂ : List (LoopAction K)}
    (hle : as₁ <+: as₂) : (as₁.foldl (step C) l).row.NotAfter (as₂.foldl (step C) l).row := by
  obtain ⟨rest, rfl⟩ := hle
  rw [List.foldl_append]
  exact (run_succeeds C (run_succeeds C h as₁).level rest).row

/-- The rows committed and under way are the states at the given times of a run, in order. -/
structure Chronicle (l₀ : EventLoop K) (as : List (LoopAction K))
    (times : List (List (LoopAction K))) : Prop where
  rows : (as.foldl (step C) l₀).db.hotstuffState ++
      (as.foldl (step C) l₀).pending.map (fun task => stateRow task.state) =
    times.map fun t => (t.foldl (step C) l₀).row
  single : (as.foldl (step C) l₀).db.hotstuffState.length ≤ 1
  past : ∀ t ∈ times, t <+: as
  order : times.Pairwise (· <+: ·)

variable {C}

theorem step_extendedBy (C : Codec K) (l : EventLoop K) (a : LoopAction K) :
    l.db.ExtendedBy (step C l a).db := by
  rcases step_cases C l a with ⟨-, -, -, hdb, -⟩ | ⟨-, hstep⟩ | ⟨-, -, hm⟩
  · rw [hdb]
    exact .refl _
  · rw [hstep]
    rcases flusherStep_cases C l with ⟨-, hsame⟩ | ⟨task, rest, -, -, hdb⟩
    · rw [hsame]
      exact .refl _
    · rw [hdb]
      exact l.db.extendedBy_flush C task
  · rw [hm.db]
    exact .refl _

namespace Chronicle

variable {l₀ : EventLoop K} {as : List (LoopAction K)} {times : List (List (LoopAction K))}

/-- A step that leaves the rows alone. -/
theorem stay (h : Chronicle C l₀ as times) {a : LoopAction K}
    (hdb : (step C (as.foldl (step C) l₀) a).db = (as.foldl (step C) l₀).db)
    (hpending : (step C (as.foldl (step C) l₀) a).pending = (as.foldl (step C) l₀).pending) :
    Chronicle C l₀ (as ++ [a]) times := by
  refine ⟨?_, ?_, fun t ht => (h.past t ht).trans (List.prefix_append as [a]), h.order⟩
  · rw [List.foldl_append, List.foldl_cons, List.foldl_nil, hdb, hpending]
    exact h.rows
  · rw [List.foldl_append, List.foldl_cons, List.foldl_nil, hdb]
    exact h.single

/-- A flush adds the time at which it is made. -/
theorem flush (h : Chronicle C l₀ as times) {a : LoopAction K} {task : DirtyData K}
    (hdb : (step C (as.foldl (step C) l₀) a).db = (as.foldl (step C) l₀).db)
    (htask : task.state = (as.foldl (step C) l₀).pm.machine.storage.state)
    (hpending : (step C (as.foldl (step C) l₀) a).pending =
      (as.foldl (step C) l₀).pending ++ [task]) :
    Chronicle C l₀ (as ++ [a]) (times ++ [as]) := by
  refine ⟨?_, ?_, ?_, ?_⟩
  · rw [List.foldl_append, List.foldl_cons, List.foldl_nil, hdb, hpending, List.map_append,
      ← List.append_assoc, h.rows, List.map_append, List.map_singleton, List.map_singleton, htask]
    rfl
  · rw [List.foldl_append, List.foldl_cons, List.foldl_nil, hdb]
    exact h.single
  · intro t ht
    refine List.IsPrefix.trans ?_ (List.prefix_append as [a])
    rcases List.mem_append.mp ht with ht | ht
    · exact h.past t ht
    · rw [List.mem_singleton.mp ht]
  · rw [List.pairwise_append]
    refine ⟨h.order, List.pairwise_singleton _ _, ?_⟩
    intro t ht t' ht'
    rw [List.mem_singleton.mp ht']
    exact h.past t ht

/-- All rows are of one replica. -/
theorem token_eq (h : Chronicle C l₀ as times) (hm : l₀.pm.machine.Level) {row : StateRow}
    (hrow : row ∈ (as.foldl (step C) l₀).db.hotstuffState ++
      (as.foldl (step C) l₀).pending.map fun task => stateRow task.state) :
    row.token = l₀.row.token := by
  rw [h.rows] at hrow
  obtain ⟨t, -, rfl⟩ := List.mem_map.mp hrow
  exact (row_notAfter C hm t.nil_prefix).token

/-- A commit replaces the row by the first one under way. -/
theorem commit (h : Chronicle C l₀ as times) (hm : l₀.pm.machine.Level) {a : LoopAction K}
    {task : DirtyData K} {rest : List (DirtyData K)}
    (hpending : (as.foldl (step C) l₀).pending = task :: rest)
    (hdb : (step C (as.foldl (step C) l₀) a).db = (as.foldl (step C) l₀).db.flush C task)
    (hrest : (step C (as.foldl (step C) l₀) a).pending = rest) :
    Chronicle C l₀ (as ++ [a]) (times.drop (as.foldl (step C) l₀).db.hotstuffState.length) := by
  have hreplaced : (step C (as.foldl (step C) l₀) a).db.hotstuffState = [stateRow task.state] := by
    have hflush : ((as.foldl (step C) l₀).db.flush C task).hotstuffState =
        Table.replace StateRow.token (as.foldl (step C) l₀).db.hotstuffState
          (stateRow task.state) := by
      rw [Database.flush_eq]
    rw [hdb, hflush]
    apply Table.replace_eq_singleton
    intro row hrow
    have hhead : stateRow task.state ∈
        (as.foldl (step C) l₀).pending.map fun task => stateRow task.state := by
      rw [hpending]
      exact List.mem_cons_self
    rw [h.token_eq hm (List.mem_append_left _ hrow), h.token_eq hm (List.mem_append_right _ hhead)]
  refine ⟨?_, ?_, ?_, h.order.drop⟩
  · rw [List.foldl_append, List.foldl_cons, List.foldl_nil, hreplaced, hrest, List.map_drop,
      ← h.rows, List.drop_left, hpending]
    rfl
  · rw [List.foldl_append, List.foldl_cons, List.foldl_nil, hreplaced]
    exact le_refl _
  · intro t ht
    exact (h.past t (List.mem_of_mem_drop ht)).trans (List.prefix_append as [a])

/-- A step adds at most the time at which it is made. -/
theorem step (h : Chronicle C l₀ as times) (hm : l₀.pm.machine.Level) (a : LoopAction K) :
    ∃ times', Chronicle C l₀ (as ++ [a]) times' ∧ ∀ t ∈ times', t ∈ times ∨ t = as := by
  rcases step_cases C (as.foldl (EventLoop.step C) l₀) a with
    ⟨-, -, -, hdb, hpm⟩ | ⟨-, hstep⟩ | ⟨-, -, hmoves⟩
  · have hadd := pending_asyncFlush hpm
    rcases (as.foldl (EventLoop.step C) l₀).handedTasks_cases with hnil | ⟨task, htask, hone⟩
    · rw [hnil, List.append_nil] at hadd
      exact ⟨times, h.stay hdb hadd, fun t ht => Or.inl ht⟩
    · rw [hone] at hadd
      refine ⟨times ++ [as], h.flush hdb htask hadd, ?_⟩
      intro t ht
      rcases List.mem_append.mp ht with ht | ht
      · exact Or.inl ht
      · exact Or.inr (List.mem_singleton.mp ht)
  · rcases flusherStep_cases C (as.foldl (EventLoop.step C) l₀) with
      ⟨-, hsame⟩ | ⟨task, rest, hpending, hrest, hdb⟩
    · refine ⟨times, h.stay ?_ ?_, fun t ht => Or.inl ht⟩
      · rw [hstep, hsame]
      · rw [hstep, hsame]
    · rw [← hstep] at hrest hdb
      exact ⟨_, h.commit hm hpending hdb hrest, fun t ht => Or.inl (List.mem_of_mem_drop ht)⟩
  · refine ⟨times, h.stay hmoves.db ?_, fun t ht => Or.inl ht⟩
    unfold pending
    rw [hmoves.backend]

/-- From a time on, only later states are added. -/
theorem extend (h : Chronicle C l₀ as times) (hm : l₀.pm.machine.Level)
    {t₀ : List (LoopAction K)} (hafter : ∀ t ∈ times, t₀ <+: t) (hpast : t₀ <+: as)
    (rest : List (LoopAction K)) :
    ∃ times', Chronicle C l₀ (as ++ rest) times' ∧ ∀ t ∈ times', t₀ <+: t := by
  induction rest generalizing as times with
  | nil =>
    rw [List.append_nil]
    exact ⟨times, h, hafter⟩
  | cons a rest ih =>
    obtain ⟨times', h', hnew⟩ := h.step hm a
    rw [List.append_cons]
    refine ih h' ?_ (hpast.trans (List.prefix_append as [a]))
    intro t ht
    rcases hnew t ht with hold | rfl
    · exact hafter t hold
    · exact hpast

/-- A committed row is the state of the first time. -/
theorem row_eq (h : Chronicle C l₀ as times)
    (hne : (as.foldl (EventLoop.step C) l₀).db.hotstuffState ≠ []) :
    ∃ t ∈ times, (as.foldl (EventLoop.step C) l₀).db.hotstuffState =
      [(t.foldl (EventLoop.step C) l₀).row] ∧ ∀ t' ∈ times, t <+: t' := by
  obtain ⟨row, hrow⟩ := List.length_eq_one_iff.mp
    (le_antisymm h.single (List.length_pos_iff.mpr hne))
  have hrows := h.rows
  rw [hrow] at hrows
  cases times with
  | nil => cases hrows
  | cons t times =>
    rw [hrow, (List.cons.inj hrows).1]
    refine ⟨t, List.mem_cons_self, rfl, ?_⟩
    intro t' ht'
    rcases List.mem_cons.mp ht' with rfl | ht'
    · exact List.prefix_refl t'
    · exact List.rel_of_pairwise_cons h.order ht'

end Chronicle

theorem chronicle_nil (C : Codec K) {l₀ : EventLoop K} (hdb : l₀.db.hotstuffState = [])
    (hpending : l₀.pending = []) : Chronicle C l₀ [] [] := by
  refine ⟨?_, ?_, ?_, List.Pairwise.nil⟩
  · show l₀.db.hotstuffState ++ l₀.pending.map _ = []
    rw [hdb, hpending]
    rfl
  · show l₀.db.hotstuffState.length ≤ 1
    rw [hdb]
    exact Nat.zero_le 1
  · intro t ht
    cases ht

/-- A row that was committed is only replaced by another one. -/
theorem hotstuffState_ne_nil (C : Codec K) {l : EventLoop K} (h : l.db.hotstuffState ≠ [])
    (as : List (LoopAction K)) : (as.foldl (step C) l).db.hotstuffState ≠ [] := by
  refine Run.foldl_of_kept (I := fun l : EventLoop K => l.db.hotstuffState ≠ []) h ?_ as
  intro l a hl
  rcases step_cases C l a with ⟨-, -, -, hdb, -⟩ | ⟨-, hstep⟩ | ⟨-, -, hm⟩
  · rw [hdb]
    exact hl
  · rw [hstep]
    rcases flusherStep_cases C l with ⟨-, hsame⟩ | ⟨task, rest, -, -, hdb⟩
    · rw [hsame]
      exact hl
    · rw [hdb, Database.flush_eq]
      exact List.append_ne_nil_of_right_ne_nil _ (List.cons_ne_nil _ _)
  · rw [hm.db]
    exact hl

end EventLoop

namespace Symbolic

open EventLoop

/-- Replica 0 of four, over a fresh database. -/
def recorder : Machine symbolic :=
  .new (.new 2 (signaturer 4 0)) (replicaId 0) 4 none opened

def recorderLoop : EventLoop symbolic :=
  .start (.new (replicaId 0) ⟨["replica-0", "replica-1", "replica-2", "replica-3"]⟩ recorder
    (signaturer 4 0)) createTables

/-- A timeout of `view`, and a flush that is handed over. -/
def timeoutAndFlush (view : ViewNumber) : List (LoopAction symbolic) :=
  round (.timeout oracle view) 0 ++ round .tick 0

/-- Two timeouts with a flush each, the first of which is committed. -/
def recordedRun : List (LoopAction symbolic) :=
  timeoutAndFlush 1 ++ [.flusher] ++ timeoutAndFlush 2

end Symbolic

end HotstuffConsensus
