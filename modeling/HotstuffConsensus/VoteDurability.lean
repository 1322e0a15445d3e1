import HotstuffConsensus.PacemakerTheorems
import HotstuffConsensus.LiteralScheme
import HotstuffConsensus.Lib.Run

/-!
# Votes and the database

`event_loop_with_functions` drains the ready queue in the same round in which the machine
voted, and flushes only when the interval ticks. A vote therefore leaves whether or not the
database knows of it, and a replica that restarts from the database may vote again at the
same height. (`Pacemaker::run` flushes first and drains afterwards.)

The books of a run hold the `vheight` of every task that a flush has handed over, and how many
of them the flusher has committed. A vote is in the database when it leaves exactly when the
task committed last was flushed with a `vheight` of at least its height. No flush comes between
signing and sending, and the machine signs above `vheight` only: unless `vheight` has fallen,
no vote is in the database when it leaves.
-/

namespace HotstuffConsensus

open Lib

variable {K : Crypto}

/-- The committed `hotstuff_state` row has a `last_voted_view` of at least `h`. -/
def Database.Durable (db : Database) (h : ViewNumber) : Prop :=
  db.hotstuffState ≠ [] ∧ ∀ row ∈ db.hotstuffState, h ≤ row.lastVotedView

instance (db : Database) (h : ViewNumber) : Decidable (db.Durable h) :=
  inferInstanceAs (Decidable (db.hotstuffState ≠ [] ∧ ∀ row ∈ db.hotstuffState,
    h ≤ row.lastVotedView))

/-- No replica that restarts from the database is ready to vote at `h` or below. -/
def Database.Remembers (C : Codec K) (db : Database) (h : ViewNumber) : Prop :=
  ∀ (token : String) (rows : List (ProposalRow × QcRow)) (m : Machine K),
    HotstuffStorage.recover C db token rows = some m.storage →
      ∀ (ctx : Context) (q : TreeNode K), q.height ≤ h →
        m.signs (.event (.recvProposal ctx q)) = none

namespace EventLoop

/-- The vote a step has the machine cast. -/
def casts (l : EventLoop K) (a : LoopAction K) : Option (TreeNode K) :=
  match l.phase, a with
  | .select, .network o e => l.pm.voteOnNetwork o e
  | .select, .timeout o view => l.pm.voteOnTimeout o view
  | .drain, .ready o =>
    match l.pm.readyQueue with
    | [] => none
    | ready :: rest => { l.pm with readyQueue := rest }.voteOnReady o ready
  | _, _ => none

/-- The vote a step sends. -/
def sends (l : EventLoop K) (a : LoopAction K) : Option (TreeNode K) :=
  match l.phase, a with
  | .drain, .ready _ =>
    match l.pm.readyQueue with
    | [] => none
    | ready :: _ => ready.vote
  | _, _ => none

/-- The step runs `async_flush`. -/
def flushes (l : EventLoop K) (a : LoopAction K) : Bool :=
  match l.phase, a with
  | .select, .tick => true
  | .top, .finish => true
  | _, _ => false

/-- The tasks that a flush would hand to the flusher: it must receive, and the storage be
dirty. -/
def handedTasks (l : EventLoop K) : List (DirtyData K) :=
  match l.pm.machine.storage.backend with
  | some backend => if backend.receiving then l.pm.machine.storage.flushTask else []
  | none => []

/-- The `vheight`s of the tasks that a step hands to the flusher. -/
def handsOver (l : EventLoop K) (a : LoopAction K) : List ViewNumber :=
  if l.flushes a then l.handedTasks.map fun task => task.state.vheight else []

/-- The flusher commits a task. -/
def commits (l : EventLoop K) : LoopAction K → Bool
  | .flusher => !l.pending.isEmpty
  | _ => false

def vheight (l : EventLoop K) : ViewNumber := l.pm.machine.storage.state.vheight

/-- The votes the step sends are in the database. -/
def SendsDurable (C : Codec K) (l : EventLoop K) (a : LoopAction K) : Prop :=
  ∀ p ∈ (step C l a).pm.sentVotes.drop l.pm.sentVotes.length, l.db.Durable p.height

instance (C : Codec K) (l : EventLoop K) (a : LoopAction K) : Decidable (l.SendsDurable C a) :=
  inferInstanceAs (Decidable (∀ p ∈ (step C l a).pm.sentVotes.drop l.pm.sentVotes.length,
    l.db.Durable p.height))

/-- The votes the step sends are not in the database. -/
def SendsUnrecorded (l : EventLoop K) (a : LoopAction K) : Prop :=
  ∀ p ∈ l.sends a, ¬ l.db.Durable p.height

/-- `vheight` is not lower after the step. -/
def KeepsHeight (C : Codec K) (l : EventLoop K) (a : LoopAction K) : Prop :=
  l.vheight ≤ (step C l a).vheight

instance (C : Codec K) (l : EventLoop K) (a : LoopAction K) : Decidable (l.KeepsHeight C a) :=
  inferInstanceAs (Decidable (l.vheight ≤ (step C l a).vheight))

end EventLoop

/-- An event loop with its books: the `vheight`s of the tasks handed over so far, in order, and
how many of these are committed. -/
structure Audited (K : Crypto) where
  loop : EventLoop K
  handed : List ViewNumber
  committed : ℕ

namespace Audited

def step (C : Codec K) (w : Audited K) (a : LoopAction K) : Audited K :=
  ⟨w.loop.step C a, w.handed ++ w.loop.handsOver a, w.committed + (w.loop.commits a).toNat⟩

/-- The books of a start. The rows that are in the database count as committed. -/
def start (l : EventLoop K) : Audited K :=
  ⟨l, l.db.hotstuffState.map StateRow.lastVotedView, l.db.hotstuffState.length⟩

/-- The `vheight` of the task committed last. -/
def lastCommitted (w : Audited K) : Option ViewNumber := (w.handed.take w.committed).getLast?

/-- When the step sends a vote, the task committed last was flushed with a `vheight` of at least
its height. -/
def CommitsFirst (w : Audited K) (a : LoopAction K) : Prop :=
  ∀ p ∈ w.loop.sends a, ∃ v ∈ w.lastCommitted, p.height ≤ v

instance (w : Audited K) (a : LoopAction K) : Decidable (w.CommitsFirst a) :=
  inferInstanceAs (Decidable (∀ p ∈ w.loop.sends a, ∃ v ∈ w.lastCommitted, p.height ≤ v))

end Audited

/-- A replica starts with a new storage and no row, or from the one row of its database. -/
inductive StartsFrom (C : Codec K) : HotstuffStorage K → Database → Prop
  | fresh {s : HotstuffStorage K} {db : Database} (h : FreshStorage s)
      (hdb : db.hotstuffState = []) : StartsFrom C s db
  | restarted {s : HotstuffStorage K} {db : Database} (token : String)
      (rows : List (ProposalRow × QcRow)) (h : HotstuffStorage.recover C db token rows = some s)
      (hdb : db.hotstuffState.length ≤ 1) : StartsFrom C s db

/-! ## Recovery -/

theorem Database.recoverHotstuffState_row {C : Codec K} {db : Database}
    {state : InMemoryState K} (h : db.recoverHotstuffState C = some state) :
    ∃ row ∈ db.hotstuffState, state.token = row.token ∧ state.vheight = row.lastVotedView := by
  unfold recoverHotstuffState at h
  simp only [Option.bind_eq_bind, Option.bind_eq_some_iff, Option.some.injEq] at h
  obtain ⟨row, hrow, _, -, _, -, _, -, rfl⟩ := h
  exact ⟨row, List.mem_of_mem_head? hrow, rfl, rfl⟩

/-- A vote in the database is not repeated after a restart. -/
theorem Database.Durable.remembers {db : Database} {h : ViewNumber} (hd : db.Durable h)
    (C : Codec K) : db.Remembers C h := by
  intro token rows m hm ctx q hq
  obtain ⟨row, hrow, -, hv⟩ := recoverHotstuffState_row (HotstuffStorage.recover_cases hm).2.1
  have hle : h ≤ m.storage.state.vheight := by
    rw [hv]
    exact hd.2 row hrow
  cases hs : m.signs (.event (.recvProposal ctx q)) with
  | none => rfl
  | some p =>
    obtain ⟨⟨ctx', hc⟩, hlt⟩ := Machine.signs_eq_some hs
    injection hc with hc
    injection hc with _ hqp
    rw [← hqp] at hlt
    exact absurd (lt_of_lt_of_le hlt hq) (not_lt_of_ge hle)

/-! ## The steps of the loop -/

namespace EventLoop

variable {C : Codec K}

theorem propose_effect (pm : Pacemaker K) (cmds : List Txn) :
    Pacemaker.Effect pm (propose pm cmds) none none := by
  have hquiet : ∀ v, Pacemaker.Quiet pm (pm.onStorage fun s => s.touchNewViewSet v) :=
    fun v => Pacemaker.quiet_onStorage pm (HotstuffStorage.livenessOnly_touchNewViewSet _ _)
  unfold propose Pacemaker.makeNewProposal
  dsimp only
  split
  · rename_i r hr
    revert hr
    split
    · intro hr
      cases hr
    · -- `on_beat` returns a new proposal, which is no vote
      intro hr
      obtain rfl := Option.some.inj hr
      have h := (hquiet pm.view).trans (Pacemaker.quiet_onStorage _
        (f := fun s => s.cleanNewViewSet (pm.view + 1))
        (HotstuffStorage.livenessOnly_cleanNewViewSet _ _))
      refine ⟨h.storage.backend, ?_, h.effect.sent⟩
      show (pm.readyQueue ++ [_]).filterMap Ready.vote = _
      rw [List.filterMap_append]
      rfl
  · split
    · exact (hquiet pm.view).effect
    · rename_i hr hlt
      rw [if_neg hlt] at hr
      cases hr

/-- Without a flush and without the flusher, a step only moves votes: what is queued, then
cast, is what is sent, then queued. -/
structure Moves (l l' : EventLoop K) (a : LoopAction K) : Prop where
  db : l'.db = l.db
  backend : l'.pm.machine.storage.backend = l.pm.machine.storage.backend
  sent : l'.pm.sentVotes = l.pm.sentVotes ++ (l.sends a).toList
  queued : l.pm.queuedVotes ++ (l.casts a).toList = (l.sends a).toList ++ l'.pm.queuedVotes

theorem Moves.of_effect {l l' : EventLoop K} {a : LoopAction K} (hdb : l'.db = l.db)
    (h : Pacemaker.Effect l.pm l'.pm (l.casts a) none) (hsends : l.sends a = none) :
    Moves l l' a where
  db := hdb
  backend := h.backend
  sent := by rw [h.sent, hsends]
  queued := by rw [h.queued, hsends]; rfl

theorem moves_ready (l : EventLoop K) (o : Oracle K) (hphase : l.phase = .drain) :
    Moves l (step C l (.ready o)) (.ready o) := by
  cases hq : l.pm.readyQueue with
  | nil =>
    have hstep : step C l (.ready o) = { l with phase := .top } := by
      simp only [step, hphase, hq]
    apply Moves.of_effect
    · rw [hstep]
    · have hcasts : l.casts (.ready o) = none := by simp only [casts, hphase, hq]
      rw [hstep, hcasts]
      exact .refl l.pm
    · simp only [sends, hphase, hq]
  | cons r rest =>
    have heff := Pacemaker.processReadyEvent_effect o { l.pm with readyQueue := rest } r
    have hpm : (step C l (.ready o)).pm
        = Pacemaker.processReadyEvent o { l.pm with readyQueue := rest } r := by
      simp only [step, hphase, hq]
    have hcasts : l.casts (.ready o) = { l.pm with readyQueue := rest }.voteOnReady o r := by
      simp only [casts, hphase, hq]
    have hsends : l.sends (.ready o) = r.vote := by simp only [sends, hphase, hq]
    have hvotes : l.pm.queuedVotes = r.vote.toList ++ rest.filterMap Ready.vote := by
      unfold Pacemaker.queuedVotes
      rw [hq, List.filterMap_cons]
      cases r.vote <;> rfl
    refine ⟨by simp only [step, hphase, hq], by rw [hpm]; exact heff.backend, ?_, ?_⟩
    · rw [hpm, hsends]
      exact heff.sent
    · -- the head leaves the queue before it is processed
      rw [hpm, hcasts, hsends, hvotes, heff.queued, List.append_assoc]
      rfl

theorem step_flusher (C : Codec K) (l : EventLoop K) : step C l .flusher = flusherStep C l := by
  obtain ⟨pm, db, phase⟩ := l
  cases phase <;> rfl

/-- What a step does to the votes and to what is recorded of them. -/
theorem step_cases (C : Codec K) (l : EventLoop K) (a : LoopAction K) :
    (l.flushes a = true ∧ a ≠ .flusher ∧ l.sends a = none ∧ (step C l a).db = l.db ∧
      (step C l a).pm = l.pm.onStorage HotstuffStorage.asyncFlush) ∨
    (a = .flusher ∧ step C l a = flusherStep C l) ∨
    (l.flushes a = false ∧ a ≠ .flusher ∧ Moves l (step C l a) a) := by
  have hstay : step C l a = l → l.casts a = none → l.sends a = none →
      Moves l (step C l a) a := by
    intro hstep hcasts hsends
    refine .of_effect (by rw [hstep]) ?_ hsends
    rw [hstep, hcasts]
    exact .refl l.pm
  cases a with
  | flusher => exact Or.inr (Or.inl ⟨rfl, step_flusher C l⟩)
  | fetch cmds =>
    obtain ⟨pm, db, phase⟩ := l
    refine Or.inr (Or.inr ⟨by cases phase <;> rfl, (fun h => nomatch h), ?_⟩)
    cases phase with
    | top =>
      have hq : Pacemaker.Quiet pm (pm.onStorage fun s => s.touchNewViewSet pm.view) :=
        Pacemaker.quiet_onStorage pm (HotstuffStorage.livenessOnly_touchNewViewSet _ _)
      cases cmds with
      | none => exact .of_effect rfl hq.effect rfl
      | some cmds => exact .of_effect rfl (hq.then (propose_effect _ cmds)) rfl
    | _ => exact hstay rfl rfl rfl
  | tick =>
    obtain ⟨pm, db, phase⟩ := l
    cases phase with
    | select => exact Or.inl ⟨rfl, (fun h => nomatch h), rfl, rfl, rfl⟩
    | _ => exact Or.inr (Or.inr ⟨rfl, (fun h => nomatch h), hstay rfl rfl rfl⟩)
  | quit =>
    obtain ⟨pm, db, phase⟩ := l
    refine Or.inr (Or.inr ⟨by cases phase <;> rfl, (fun h => nomatch h), ?_⟩)
    cases phase with
    | select => exact .of_effect rfl (.refl pm) rfl
    | _ => exact hstay rfl rfl rfl
  | network o e =>
    obtain ⟨pm, db, phase⟩ := l
    refine Or.inr (Or.inr ⟨by cases phase <;> rfl, (fun h => nomatch h), ?_⟩)
    cases phase with
    | select => exact .of_effect rfl (pm.processNetworkEvent_effect o e) rfl
    | _ => exact hstay rfl rfl rfl
  | timeout o view =>
    obtain ⟨pm, db, phase⟩ := l
    refine Or.inr (Or.inr ⟨by cases phase <;> rfl, (fun h => nomatch h), ?_⟩)
    cases phase with
    | select => exact .of_effect rfl (pm.processLocalTimeout_effect o view) rfl
    | _ => exact hstay rfl rfl rfl
  | ready o =>
    obtain ⟨pm, db, phase⟩ := l
    refine Or.inr (Or.inr ⟨by cases phase <;> rfl, (fun h => nomatch h), ?_⟩)
    cases phase with
    | drain => exact moves_ready _ o rfl
    | _ => exact hstay rfl rfl rfl
  | finish =>
    obtain ⟨pm, db, phase⟩ := l
    cases phase with
    | top => exact Or.inl ⟨rfl, (fun h => nomatch h), rfl, rfl, rfl⟩
    | _ => exact Or.inr (Or.inr ⟨rfl, (fun h => nomatch h), hstay rfl rfl rfl⟩)

/-! ## The channel -/

/-- A flush hands over at most one task, with the state of the moment. -/
theorem handedTasks_cases (l : EventLoop K) :
    l.handedTasks = [] ∨
      ∃ task, task.state = l.pm.machine.storage.state ∧ l.handedTasks = [task] := by
  unfold handedTasks HotstuffStorage.flushTask
  split
  · split
    · split
      · exact Or.inr ⟨_, rfl, rfl⟩
      · exact Or.inl rfl
    · exact Or.inl rfl
  · exact Or.inl rfl

theorem pending_asyncFlush {l l' : EventLoop K}
    (hpm : l'.pm = l.pm.onStorage HotstuffStorage.asyncFlush) :
    l'.pending = l.pending ++ l.handedTasks := by
  have hbackend : l'.pm.machine.storage.backend = l.pm.machine.storage.asyncFlush.backend := by
    rw [hpm]
    rfl
  unfold pending handedTasks HotstuffStorage.flushTask
  rw [hbackend]
  unfold HotstuffStorage.asyncFlush
  cases hb : l.pm.machine.storage.backend with
  | none => cases l.pm.machine.storage.dirty <;> simp [hb]
  | some backend =>
    unfold MySQLStorage.asyncFlush
    cases l.pm.machine.storage.dirty <;> cases hr : backend.receiving <;>
      simp [hb, hr, HotstuffStorage.dirtyData]

/-- The flusher commits the first task of the channel. -/
theorem flusherStep_cases (C : Codec K) (l : EventLoop K) :
    (l.pending = [] ∧ flusherStep C l = l) ∨
      ∃ task rest, l.pending = task :: rest ∧ (flusherStep C l).pending = rest ∧
        (flusherStep C l).db = l.db.flush C task := by
  unfold flusherStep pending
  cases l.pm.machine.storage.backend with
  | none => exact Or.inl ⟨rfl, rfl⟩
  | some backend =>
    obtain ⟨channel, receiving⟩ := backend
    cases channel with
    | nil => exact Or.inl ⟨rfl, rfl⟩
    | cons task rest => exact Or.inr ⟨task, rest, rfl, rfl, rfl⟩

theorem handsOver_flusher (l : EventLoop K) : l.handsOver .flusher = [] := by
  obtain ⟨pm, db, phase⟩ := l
  cases phase <;> rfl

theorem commits_eq_false (l : EventLoop K) {a : LoopAction K} (h : a ≠ .flusher) :
    l.commits a = false := by
  cases a with
  | flusher => exact absurd rfl h
  | _ => rfl

/-- The token of a storage is never written. -/
theorem step_token (C : Codec K) (l : EventLoop K) (a : LoopAction K) :
    (step C l a).pm.machine.storage.state.token = l.pm.machine.storage.state.token := by
  have happly : ∀ (c : Core K) (op : Op K),
      (c.apply op).storage.state.token = c.storage.state.token := by
    intro c op
    cases op with
    | appendTc tc => exact congrArg InMemoryState.token (c.storage.appendTc_state tc)
    | flush => exact congrArg InMemoryState.token c.storage.asyncFlush_frame.1
    | flusher => exact congrArg InMemoryState.token c.storage.takeTask_frame.1
    | event e => exact unwritten_token.processSafetyEvent c.machine e
    | updateQcHigh node => exact unwritten_token.qcHigh c.storage node node.justify
    | _ => rfl
  have hcore : (step C l a).core = l.core.run (l.ops a) := step_core C l a
  show (step C l a).core.storage.state.token = l.core.storage.state.token
  rw [hcore]
  exact Run.foldl_of_kept (I := fun c : Core K => c.storage.state.token =
    l.core.storage.state.token) rfl (fun c op hc => (happly c op).trans hc) (l.ops a)

/-! ## The queue -/

theorem sends_flusher (l : EventLoop K) : l.sends .flusher = none := by
  obtain ⟨pm, db, phase⟩ := l
  cases phase <;> rfl

theorem step_sentVotes (C : Codec K) (l : EventLoop K) (a : LoopAction K) :
    (step C l a).pm.sentVotes = l.pm.sentVotes ++ (l.sends a).toList := by
  rcases step_cases C l a with ⟨-, -, hs, -, hpm⟩ | ⟨rfl, hstep⟩ | ⟨-, -, hm⟩
  · rw [hpm, hs]
    exact (List.append_nil _).symm
  · rw [hstep, sends_flusher]
    unfold Pacemaker.sentVotes
    rw [(flusherStep_frame C l).2.2.1]
    exact (List.append_nil _).symm
  · exact hm.sent

theorem mem_queuedVotes_of_sends {l : EventLoop K} {a : LoopAction K} {p : TreeNode K}
    (h : p ∈ l.sends a) : p ∈ l.pm.queuedVotes := by
  unfold sends at h
  split at h
  · split at h
    · cases h
    · rename_i r rest hq
      unfold Pacemaker.queuedVotes
      rw [hq]
      exact List.mem_filterMap.mpr ⟨r, List.mem_cons_self, h⟩
  · cases h

/-- The draining loop is left only when the queue is empty, and outside it no vote is
cast. -/
theorem step_drained {l : EventLoop K} {a : LoopAction K}
    (hl : l.phase ≠ .drain → l.pm.queuedVotes = []) (h : (step C l a).phase ≠ .drain) :
    (step C l a).pm.queuedVotes = [] := by
  obtain ⟨pm, db, phase⟩ := l
  have hq : phase ≠ .drain → pm.queuedVotes = [] := hl
  -- only the draining loop lets votes queue up, and it is left when the queue is empty
  cases a with
  | flusher =>
    rw [step_flusher] at h ⊢
    rw [(flusherStep_frame C _).1] at h
    unfold Pacemaker.queuedVotes
    rw [(flusherStep_frame C _).2.1]
    exact hq h
  | ready o =>
    cases phase with
    | drain =>
      cases hr : pm.readyQueue with
      | nil =>
        simp only [step, hr]
        unfold Pacemaker.queuedVotes
        rw [hr]
        rfl
      | cons r rest => simp [step, hr] at h
    | _ => exact hq (by decide)
  | fetch cmds =>
    cases phase with
    | top =>
      cases cmds with
      | none => exact hq (by decide)
      | some cmds =>
        have heff := propose_effect (pm.onStorage fun s => s.touchNewViewSet pm.view) cmds
        show (propose _ cmds).queuedVotes = []
        rw [heff.queued, Option.toList_none, List.append_nil]
        exact hq (by decide)
    | drain => exact absurd rfl h
    | _ => exact hq (by decide)
  | tick => cases phase <;> first | exact absurd rfl h | exact hq (by decide)
  | quit => cases phase <;> first | exact absurd rfl h | exact hq (by decide)
  | network o e => cases phase <;> first | exact absurd rfl h | exact hq (by decide)
  | timeout o view => cases phase <;> first | exact absurd rfl h | exact hq (by decide)
  | finish => cases phase <;> first | exact absurd rfl h | exact hq (by decide)

/-- A flush comes outside the draining loop. -/
theorem phase_of_flushes {l : EventLoop K} {a : LoopAction K} (hf : l.flushes a = true) :
    l.phase ≠ .drain := by
  intro hphase
  unfold flushes at hf
  rw [hphase] at hf
  cases hf

/-- A vote is cast above `vheight`. -/
theorem vheight_lt_of_casts {l : EventLoop K} {a : LoopAction K} {p : TreeNode K}
    (h : p ∈ l.casts a) : l.vheight < p.height := by
  have hcheck : ∀ (o : Oracle K) (pm : Pacemaker K) (leafHeight : ViewNumber),
      p ∈ pm.voteOnCheck o leafHeight → pm.machine.storage.state.vheight < p.height := by
    intro o pm leafHeight hp
    obtain ⟨sw, -, hsigns⟩ := Option.bind_eq_some_iff.mp hp
    exact (Machine.signs_eq_some hsigns).2
  have htimeout : ∀ (o : Oracle K) (pm : Pacemaker K) (timeoutView : ViewNumber),
      p ∈ pm.voteOnTimeout o timeoutView → pm.machine.storage.state.vheight < p.height := by
    intro o pm timeoutView hp
    unfold Pacemaker.voteOnTimeout at hp
    split at hp
    · exact hcheck o pm _ hp
    · cases hp
  unfold casts at h
  split at h
  · unfold Pacemaker.voteOnNetwork at h
    split at h
    · dsimp only at h
      have hlt := hcheck _ _ _ h
      exact hlt
    · dsimp only at h
      split at h
      · exact htimeout _ l.pm _ h
      · cases h
    · cases h
  · exact htimeout _ l.pm _ h
  · split at h
    · cases h
    · rename_i r rest hq
      unfold Pacemaker.voteOnReady at h
      split at h
      · split at h
        · exact htimeout _ { l.pm with readyQueue := rest } _ h
        · cases h
      · split at h
        · exact hcheck _ { l.pm with readyQueue := rest } _ h
        · cases h
      · exact htimeout _ { l.pm with readyQueue := rest } _ h
      · cases h
  · cases h

end EventLoop

/-! ## The books -/

namespace Audited

open EventLoop

variable {C : Codec K} {w : Audited K}

theorem foldl_loop (w : Audited K) (as : List (LoopAction K)) :
    (as.foldl (step C) w).loop = as.foldl (EventLoop.step C) w.loop := by
  induction as generalizing w with
  | nil => rfl
  | cons a as ih => exact ih (step C w a)

/-- The channel holds what was handed over and is not committed; the row is that of the task
committed last. -/
structure Balanced (w : Audited K) : Prop where
  le : w.committed ≤ w.handed.length
  pending : w.loop.pending.map (fun task => task.state.vheight) = w.handed.drop w.committed
  rows : w.loop.db.hotstuffState.map StateRow.lastVotedView = w.lastCommitted.toList
  pendingToken : ∀ task ∈ w.loop.pending,
    task.state.token = w.loop.pm.machine.storage.state.token
  rowsToken : ∀ row ∈ w.loop.db.hotstuffState,
    row.token = w.loop.pm.machine.storage.state.token

/-- The database knows of a vote exactly when the task committed last does. -/
theorem Balanced.durable_iff (h : w.Balanced) (v : ViewNumber) :
    w.loop.db.Durable v ↔ ∃ u ∈ w.lastCommitted, v ≤ u := by
  have hrows := h.rows
  unfold Database.Durable
  cases hlast : w.lastCommitted with
  | none =>
    rw [hlast] at hrows
    rw [List.map_eq_nil_iff.mp hrows]
    simp
  | some u =>
    rw [hlast] at hrows
    obtain ⟨row, hrow, hu⟩ := List.map_eq_singleton_iff.mp hrows
    rw [hrow]
    simp [hu]

/-- Committing the next task makes it the last one. -/
theorem lastCommitted_succ {handed : List ViewNumber} {n : ℕ} {v : ViewNumber}
    {rest : List ViewNumber} (h : handed.drop n = v :: rest) :
    (handed.take (n + 1)).getLast? = some v ∧ handed.drop (n + 1) = rest := by
  have hget : handed[n]? = some v := by
    rw [← List.head?_drop, h]
    rfl
  constructor
  · rw [List.take_add_one, hget, Option.toList_some, List.getLast?_concat]
  · rw [← List.drop_drop, h]
    rfl

theorem Balanced.flush (h : w.Balanced) {l' : EventLoop K} (hdb : l'.db = w.loop.db)
    (hpm : l'.pm = w.loop.pm.onStorage HotstuffStorage.asyncFlush) :
    Balanced ⟨l', w.handed ++ w.loop.handedTasks.map (fun task => task.state.vheight),
      w.committed⟩ := by
  have hpending := pending_asyncFlush hpm
  have hstate : l'.pm.machine.storage.state = w.loop.pm.machine.storage.state := by
    rw [hpm]
    exact w.loop.pm.machine.storage.asyncFlush_frame.1
  refine ⟨?_, ?_, ?_, ?_, ?_⟩
  · show w.committed ≤ (w.handed ++ _).length
    rw [List.length_append]
    exact Nat.le_add_right_of_le h.le
  · show l'.pending.map _ = (w.handed ++ _).drop w.committed
    rw [hpending, List.map_append, h.pending, List.drop_append_of_le_length h.le]
  · show l'.db.hotstuffState.map _ = ((w.handed ++ _).take w.committed).getLast?.toList
    rw [hdb, List.take_append_of_le_length h.le]
    exact h.rows
  · intro task htask
    rw [hpending] at htask
    rw [hstate]
    rcases List.mem_append.mp htask with hold | hnew
    · exact h.pendingToken task hold
    · rcases w.loop.handedTasks_cases with hnil | ⟨task', htask', hone⟩
      · rw [hnil] at hnew
        cases hnew
      · rw [hone] at hnew
        rw [List.mem_singleton.mp hnew, htask']
  · intro row hrow
    rw [hdb] at hrow
    rw [hstate]
    exact h.rowsToken row hrow

theorem Balanced.commit (h : w.Balanced) {l' : EventLoop K} {task : DirtyData K}
    {rest : List (DirtyData K)} (hpending : w.loop.pending = task :: rest)
    (hrest : l'.pending = rest) (hdb : l'.db = w.loop.db.flush C task)
    (htoken : l'.pm.machine.storage.state.token = w.loop.pm.machine.storage.state.token) :
    Balanced ⟨l', w.handed, w.committed + 1⟩ := by
  have hdrop := h.pending
  rw [hpending, List.map_cons] at hdrop
  obtain ⟨hlast, hdrop'⟩ := lastCommitted_succ hdrop.symm
  have htask : task.state.token = w.loop.pm.machine.storage.state.token :=
    h.pendingToken task (by rw [hpending]; exact List.mem_cons_self)
  -- all rows have the token of the task, which replaces them
  have hrow : l'.db.hotstuffState = [stateRow task.state] := by
    have hflush : (w.loop.db.flush C task).hotstuffState =
        Table.replace StateRow.token w.loop.db.hotstuffState (stateRow task.state) := by
      rw [Database.flush_eq]
    rw [hdb, hflush]
    apply Table.replace_eq_singleton
    intro row hrow
    rw [h.rowsToken row hrow]
    exact htask.symm
  refine ⟨?_, ?_, ?_, ?_, ?_⟩
  · show w.committed + 1 ≤ w.handed.length
    have hlength := congrArg List.length hdrop
    rw [List.length_cons, List.length_drop] at hlength
    omega
  · rw [hrest]
    exact hdrop'.symm
  · show l'.db.hotstuffState.map _ = (w.handed.take (w.committed + 1)).getLast?.toList
    rw [hrow, hlast]
    rfl
  · intro task' htask'
    rw [hrest] at htask'
    rw [htoken]
    exact h.pendingToken task' (by rw [hpending]; exact List.mem_cons_of_mem _ htask')
  · intro row hmem
    rw [hrow] at hmem
    rw [htoken, List.mem_singleton.mp hmem]
    exact htask

theorem Balanced.step (h : w.Balanced) (C : Codec K) (a : LoopAction K) :
    (step C w a).Balanced := by
  have htoken := step_token C w.loop a
  unfold Audited.step
  rcases step_cases C w.loop a with ⟨hf, hne, -, hdb, hpm⟩ | ⟨rfl, hstep⟩ | ⟨hf, hne, hm⟩
  · rw [commits_eq_false _ hne]
    unfold handsOver
    rw [if_pos hf]
    exact h.flush hdb hpm
  · rw [handsOver_flusher, List.append_nil]
    rw [hstep] at htoken ⊢
    rcases flusherStep_cases C w.loop with ⟨hnil, hsame⟩ | ⟨task, rest, hpending, hrest, hdb⟩
    · have hcommits : w.loop.commits .flusher = false := by
        unfold commits
        rw [hnil]
        rfl
      rw [hsame, hcommits]
      exact h
    · have hcommits : w.loop.commits .flusher = true := by
        unfold commits
        rw [hpending]
        rfl
      rw [hcommits]
      exact h.commit hpending hrest hdb htoken
  · have hpending : (EventLoop.step C w.loop a).pending = w.loop.pending := by
      unfold EventLoop.pending
      rw [hm.backend]
    rw [commits_eq_false _ hne]
    unfold handsOver
    rw [if_neg (by rw [hf]; decide), List.append_nil]
    refine ⟨h.le, ?_, ?_, ?_, ?_⟩
    · rw [hpending]
      exact h.pending
    · rw [hm.db]
      exact h.rows
    · rw [hpending, htoken]
      exact h.pendingToken
    · rw [hm.db, htoken]
      exact h.rowsToken

/-- Nothing that was handed over is above `vheight`, or as high as a vote in the queue. -/
structure Behind (w : Audited K) : Prop where
  handed : ∀ v ∈ w.handed, v ≤ w.loop.vheight
  queued : ∀ p ∈ w.loop.pm.queuedVotes, ∀ v ∈ w.handed, v < p.height
  drained : w.loop.phase ≠ .drain → w.loop.pm.queuedVotes = []

theorem Behind.step (h : w.Behind) {a : LoopAction K} (hkeep : w.loop.KeepsHeight C a) :
    (step C w a).Behind := by
  have hdrained := step_drained (C := C) (a := a) h.drained
  unfold Audited.step
  rcases step_cases C w.loop a with ⟨hf, hne, -, -, hpm⟩ | ⟨rfl, hstep⟩ | ⟨hf, hne, hm⟩
  · -- a flush hands over `vheight`, and no vote is queued where it comes
    refine ⟨?_, ?_, hdrained⟩
    · intro v hv
      unfold handsOver at hv
      rw [if_pos hf] at hv
      refine le_trans ?_ hkeep
      rcases List.mem_append.mp hv with hold | hnew
      · exact h.handed v hold
      · rcases w.loop.handedTasks_cases with hnil | ⟨task, htask, hone⟩
        · rw [hnil] at hnew
          cases hnew
        · rw [hone] at hnew
          have hv : v = w.loop.vheight := by
            rw [List.mem_singleton.mp hnew]
            show task.state.vheight = _
            rw [htask]
            rfl
          exact hv.le
    · intro p hp
      have hnil : (w.loop.pm.onStorage HotstuffStorage.asyncFlush).queuedVotes = [] :=
        h.drained (phase_of_flushes hf)
      rw [hpm, hnil] at hp
      cases hp
  · rw [handsOver_flusher, List.append_nil]
    refine ⟨fun v hv => (h.handed v hv).trans hkeep, ?_, hdrained⟩
    intro p hp
    rw [hstep] at hp
    unfold Pacemaker.queuedVotes at hp
    rw [(flusherStep_frame C w.loop).2.1] at hp
    exact h.queued p hp
  · unfold handsOver
    rw [if_neg (by rw [hf]; decide), List.append_nil]
    refine ⟨fun v hv => (h.handed v hv).trans hkeep, ?_, hdrained⟩
    intro p hp v hv
    have hmem : p ∈ w.loop.pm.queuedVotes ++ (w.loop.casts a).toList := by
      rw [hm.queued]
      exact List.mem_append_right _ hp
    rcases List.mem_append.mp hmem with hmem | hmem
    · exact h.queued p hmem v hv
    · exact lt_of_le_of_lt (h.handed v hv) (vheight_lt_of_casts (Option.mem_toList.mp hmem))

theorem Behind.sendsUnrecorded (h : w.Behind) (hb : w.Balanced) (a : LoopAction K) :
    w.loop.SendsUnrecorded a := by
  intro p hp hdurable
  obtain ⟨v, hv, hle⟩ := (hb.durable_iff p.height).mp hdurable
  have hhanded : v ∈ w.handed := List.mem_of_mem_take (List.mem_of_getLast? hv)
  exact absurd (h.queued p (mem_queuedVotes_of_sends hp) v hhanded) (not_lt_of_ge hle)

end Audited

/-! ## Runs -/

theorem StartsFrom.channel_eq {C : Codec K} {s : HotstuffStorage K} {db : Database}
    (h : StartsFrom C s db) {backend : MySQLStorage K} (hb : s.backend = some backend) :
    backend.channel = [] := by
  cases h with
  | fresh h =>
    cases h with
    | inMem => cases hb
    | database =>
      cases hb
      rfl
  | restarted token rows h =>
    obtain ⟨-, -, conf, signaturer, tcMap, hs⟩ := HotstuffStorage.recover_cases h
    rw [hs] at hb
    cases hb
    rfl

theorem StartsFrom.length_le {C : Codec K} {s : HotstuffStorage K} {db : Database}
    (h : StartsFrom C s db) : db.hotstuffState.length ≤ 1 := by
  cases h with
  | fresh _ hdb =>
    rw [hdb]
    exact Nat.zero_le 1
  | restarted _ _ _ hdb => exact hdb

theorem StartsFrom.token_eq {C : Codec K} {s : HotstuffStorage K} {db : Database}
    (h : StartsFrom C s db) {row : StateRow} (hrow : row ∈ db.hotstuffState) :
    row.token = s.state.token := by
  cases h with
  | fresh _ hdb =>
    rw [hdb] at hrow
    cases hrow
  | restarted token rows h hdb =>
    obtain ⟨row', hhead, htoken⟩ :=
      Database.recoverHotstuffState_row (HotstuffStorage.recover_cases h).2.1
    obtain ⟨row'', hone⟩ := List.length_eq_one_iff.mp
      (le_antisymm hdb (List.length_pos_of_mem hrow))
    rw [hone] at hrow hhead
    rw [List.mem_singleton.mp hrow, htoken.1, List.mem_singleton.mp hhead]

namespace EventLoop

theorem start_balanced (C : Codec K) (id : ReplicaID) (elector : RoundRobinLeaderElector)
    (machine : Machine K) (signaturer : DefaultSignaturer K) (db : Database)
    (h : StartsFrom C machine.storage db) :
    (Audited.start (start (.new id elector machine signaturer) db)).Balanced := by
  have hpending : (start (.new id elector machine signaturer) db).pending = [] := by
    have hsame : (start (.new id elector machine signaturer) db).pm.machine.storage.backend =
        machine.storage.backend := rfl
    unfold pending
    rw [hsame]
    cases hb : machine.storage.backend with
    | none => rfl
    | some backend => exact h.channel_eq hb
  refine ⟨?_, ?_, ?_, ?_, fun row hrow => h.token_eq hrow⟩
  · show db.hotstuffState.length ≤ (db.hotstuffState.map _).length
    rw [List.length_map]
  · show (start (.new id elector machine signaturer) db).pending.map _ =
      (db.hotstuffState.map _).drop db.hotstuffState.length
    rw [hpending, ← List.length_map, List.drop_length]
    rfl
  · show db.hotstuffState.map _ =
      ((db.hotstuffState.map _).take db.hotstuffState.length).getLast?.toList
    rw [← List.length_map StateRow.lastVotedView, List.take_length]
    have hle := h.length_le
    cases hrows : db.hotstuffState with
    | nil => rfl
    | cons row rest =>
      rw [hrows] at hle
      have hrest : rest = [] :=
        List.length_eq_zero_iff.mp (Nat.le_zero.mp (Nat.le_of_succ_le_succ hle))
      rw [hrest]
      rfl
  · intro task htask
    have hmem : task ∈ (start (.new id elector machine signaturer) db).pending := htask
    rw [hpending] at hmem
    cases hmem

theorem sendsDurable_iff {w : Audited K} (h : w.Balanced) (C : Codec K) (a : LoopAction K) :
    w.loop.SendsDurable C a ↔ w.CommitsFirst a := by
  unfold SendsDurable Audited.CommitsFirst
  rw [step_sentVotes, List.drop_left]
  constructor
  · intro hs p hp
    exact (h.durable_iff p.height).mp (hs p (Option.mem_toList.mpr hp))
  · intro hs p hp
    exact (h.durable_iff p.height).mpr (hs p (Option.mem_toList.mp hp))

end EventLoop

namespace Literal

open EventLoop

/-- Replica 0 of four, with an empty database. -/
def loop₀ : EventLoop literal :=
  .start (.new conf.replicaId ⟨["replica-0", "replica-1", "replica-2", "replica-3"]⟩
    (.new (.new ((conf.total <<< 1) / 3) signaturer) conf.replicaId conf.total none storage₀)
    signaturer) db₀

def oracle : Oracle literal := ⟨0, []⟩

/-- Blocks on the genesis block. -/
def blockAt (height : ViewNumber) : TreeNode literal :=
  ⟨height, [], initNodeHash literal, initQc literal⟩

def ctx : Context := .single "replica-1" conf.replicaId 1

/-- A certificate for `blockAt 1` which nobody signed. -/
def qc1 : GenericQC literal := ⟨1, (blockAt 1).hash, literal.zeroed⟩

/-- One round of the loop with the given event, draining `n` results. -/
def round (a : LoopAction literal) (n : ℕ) : List (LoopAction literal) :=
  .fetch none :: a :: List.replicate (n + 1) (.ready oracle)

/-- A branch up to height 5 is synchronised, which moves `vheight` but sends no vote, and
flushed; a certificate for the block of height 1 then lowers `vheight` to 1. -/
def aheadRun : List (LoopAction literal) :=
  round (.network oracle (.branchSyncResponse ctx ⟨0, 8⟩
      (some [blockAt 1, blockAt 5]) .success)) 1 ++
    round .tick 0 ++ [.flusher] ++ round (.network oracle (.newView ctx qc1)) 1

/-- A fresh replica votes for a block of height 1, and flushes afterwards. -/
def firstVoteRun : List (LoopAction literal) :=
  round (.network oracle (.newProposal ctx (blockAt 1))) 1 ++ round .tick 0 ++ [.flusher]

/-- The vote for the block of height 2 leaves with 5 in the database. -/
def aheadVoteRun : List (LoopAction literal) :=
  aheadRun ++ round (.network oracle (.newProposal ctx (blockAt 2))) 1

end Literal

end HotstuffConsensus
