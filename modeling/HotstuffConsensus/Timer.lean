import HotstuffConsensus.Announcements
import HotstuffConsensus.ReadyQueue

/-!
# The view timer (`pacemaker/timer.rs`)

To the event loop a timeout may come at any time and of any view. Here the loop has its timer.
`goto_new_view(view)` stops the tasks of the timer and starts one more, which sends
`ViewTimeout(view)` over a channel that holds one event. A stopped task may have its delay over
already, and a task that is about to send is not stopped any more, so events of views that are
long over come late; they are of earlier views and change nothing. An event of the current view
leads to the next one and to no other (`timeout_moves_one_view`).

The timer of the current view is not lost: until the loop returns there is one task of it that is
not stopped, or its event is under way (`timeout_always_pending`). A loop that waits therefore
leaves its view, whatever late events are before it in the channel (`waiting_loop_moves_on`).
-/

namespace HotstuffConsensus

open Lib

variable {K : Crypto}

/-! ## The timer -/

/-- A task of `start` in its `select!`. -/
structure TimerTask where
  /-- The delay is that of `ViewTimeout(view)`. -/
  view : ViewNumber
  /-- A `()` was sent to its `end_ch`. -/
  stopped : Bool

/-- The tasks that wait, the events of those that are about to send, and the channel. -/
structure DefaultTimer where
  waiting : List TimerTask
  sending : List ViewNumber
  timeoutCh : Option ViewNumber

namespace DefaultTimer

def new : DefaultTimer := ⟨[], [], none⟩

def start (t : DefaultTimer) (view : ViewNumber) : DefaultTimer :=
  { t with waiting := t.waiting ++ [⟨view, false⟩] }

def stopViewTimer (t : DefaultTimer) : DefaultTimer :=
  { t with waiting := t.waiting.map fun task => { task with stopped := true } }

def viewTimeout (t : DefaultTimer) (thisView : ViewNumber) : DefaultTimer :=
  t.stopViewTimer.start thisView

/-- The delay of a task is over. A stopped task may still take this branch of its `select!`. -/
def expire (t : DefaultTimer) (i : ℕ) : DefaultTimer :=
  match t.waiting[i]? with
  | some task => { t with waiting := t.waiting.eraseIdx i, sending := t.sending ++ [task.view] }
  | none => t

/-- A stopped task ends. -/
def cancel (t : DefaultTimer) (i : ℕ) : DefaultTimer :=
  match t.waiting[i]? with
  | some task => if task.stopped then { t with waiting := t.waiting.eraseIdx i } else t
  | none => t

/-- The event of a task enters the channel, once there is room. -/
def send (t : DefaultTimer) (i : ℕ) : DefaultTimer :=
  match t.sending[i]?, t.timeoutCh with
  | some view, none => { t with sending := t.sending.eraseIdx i, timeoutCh := some view }
  | _, _ => t

/-- The views whose timeout may still come. -/
def pending (t : DefaultTimer) : List ViewNumber :=
  t.waiting.map TimerTask.view ++ (t.sending ++ t.timeoutCh.toList)

/-- The views whose timeout will come if nothing stops it. -/
def live (t : DefaultTimer) : List ViewNumber :=
  (t.waiting.filter fun task => !task.stopped).map TimerTask.view ++
    (t.sending ++ t.timeoutCh.toList)

end DefaultTimer

/-! ## The event loop with its timer -/

/-- The view for which an operation starts a timer. -/
def Op.armed : Op K → Option ViewNumber
  | .goto view => some view
  | _ => none

structure TimedLoop (K : Crypto) where
  loop : EventLoop K
  timer : DefaultTimer

inductive TimedAction (K : Crypto) where
  /-- A step of the loop other than a timeout. -/
  | act (a : LoopAction K)
  /-- `timeout_ch.recv()`. -/
  | receive (o : Oracle K)
  | expire (i : ℕ)
  | cancel (i : ℕ)
  | send (i : ℕ)

namespace TimedLoop

def start (pm : Pacemaker K) (db : Database) : TimedLoop K :=
  ⟨.start pm db, DefaultTimer.new.viewTimeout 1⟩

/-- A step of the loop with the timers it starts. -/
def perform (C : Codec K) (t : TimedLoop K) (a : LoopAction K) : TimedLoop K :=
  ⟨t.loop.step C a, ((t.loop.ops a).filterMap Op.armed).foldl DefaultTimer.viewTimeout t.timer⟩

/-- The pacemaker of a loop that has returned is dropped, and its timer with it. -/
def dropped (t : TimedLoop K) : TimedLoop K :=
  match t.loop.phase with
  | .down => { t with timer := t.timer.stopViewTimer }
  | _ => t

def step (C : Codec K) (t : TimedLoop K) : TimedAction K → TimedLoop K
  | .act (.timeout _ _) => t
  | .act a => (t.perform C a).dropped
  | .receive o =>
    match t.loop.phase, t.timer.timeoutCh with
    | .select, some view =>
      { t with timer := { t.timer with timeoutCh := none } }.perform C (.timeout o view)
    | _, _ => t
  | .expire i => { t with timer := t.timer.expire i }
  | .cancel i => { t with timer := t.timer.cancel i }
  | .send i => { t with timer := t.timer.send i }

end TimedLoop

/-! ## What a step starts -/

/-- A step starts no timer, or one for the view after a view that is not over yet. -/
def Arms (view : ViewNumber) (armed : List ViewNumber) : Prop :=
  armed = [] ∨ ∃ v, view ≤ v ∧ armed = [v + 1]

/-- The view after some operations. -/
theorem Core.run_view (c : Core K) (ops : List (Op K)) :
    (c.run ops).view = (ops.filterMap Op.armed).foldl max c.view := by
  induction ops generalizing c with
  | nil => rfl
  | cons op ops ih =>
    show ((c.apply op).run ops).view = _
    rw [ih]
    cases op <;> rfl

namespace Pacemaker

theorem armed_opsOnCheck (o : Oracle K) (pm : Pacemaker K) (leafHeight : ViewNumber) :
    (pm.opsOnCheck o leafHeight).filterMap Op.armed = [] := by
  unfold opsOnCheck
  split <;> rfl

theorem armed_opsOnTimeout (o : Oracle K) (pm : Pacemaker K) (timeoutView : ViewNumber) :
    (pm.opsOnTimeout o timeoutView).filterMap Op.armed =
      if pm.view ≤ timeoutView then [timeoutView + 1] else [] := by
  unfold opsOnTimeout
  by_cases hle : pm.view ≤ timeoutView
  · rw [if_pos hle, if_pos hle, List.filterMap_append]
    cases pm.syncState with
    | synchronizing =>
      dsimp only
      rw [armed_opsOnCheck]
      rfl
    | idle => rfl
  · rw [if_neg hle, if_neg hle]
    rfl

theorem arms_opsOnTimeout (o : Oracle K) (pm : Pacemaker K) (timeoutView : ViewNumber) :
    Arms pm.view ((pm.opsOnTimeout o timeoutView).filterMap Op.armed) := by
  rw [armed_opsOnTimeout]
  by_cases hle : pm.view ≤ timeoutView
  · rw [if_pos hle]
    exact Or.inr ⟨timeoutView, hle, rfl⟩
  · rw [if_neg hle]
    exact Or.inl rfl

theorem arms_opsOnNetwork (o : Oracle K) (pm : Pacemaker K) (e : PeerEvent K) :
    Arms pm.view ((pm.opsOnNetwork o e).filterMap Op.armed) := by
  match e with
  | .ping ctx cont => exact Or.inl rfl
  | .newProposal ctx prop => exact Or.inl (armed_opsOnCheck _ _ _)
  | .acceptProposal ctx prop (some sign) => exact Or.inl rfl
  | .acceptProposal ctx prop none => exact Or.inl rfl
  | .newView ctx qcHigh => exact Or.inl rfl
  | .timeout ctx tc =>
    unfold opsOnNetwork
    dsimp only
    rw [List.filterMap_cons_none rfl]
    split
    · exact (pm.onStorage fun s => (s.appendTc tc).1).arms_opsOnTimeout o _
    · exact Or.inl rfl
  | .branchSyncRequest ctx strategy => exact Or.inl rfl
  | .branchSyncResponse ctx strategy (some branch) .success => exact Or.inl rfl
  | .branchSyncResponse ctx strategy none status => exact Or.inl rfl
  | .branchSyncResponse ctx strategy (some branch) .proposalNonExists => exact Or.inl rfl

theorem arms_opsOnReady (o : Oracle K) (pm : Pacemaker K) (r : Ready K) :
    Arms pm.view ((pm.opsOnReady o r).filterMap Op.armed) := by
  unfold opsOnReady
  split
  · exact Or.inl rfl
  · split
    · exact pm.arms_opsOnTimeout o _
    · exact Or.inl rfl
  · split
    · exact Or.inl (pm.armed_opsOnCheck o _)
    · exact Or.inl rfl
  · exact pm.arms_opsOnTimeout o _
  · exact Or.inl rfl

end Pacemaker

namespace EventLoop

theorem arms_ops (l : EventLoop K) (a : LoopAction K) :
    Arms l.pm.view ((l.ops a).filterMap Op.armed) := by
  unfold ops
  split
  · exact Or.inl rfl
  · unfold Pacemaker.opsOnFetch
    split <;> exact Or.inl rfl
  · exact Or.inl rfl
  · exact l.pm.arms_opsOnNetwork _ _
  · exact l.pm.arms_opsOnTimeout _ _
  · split
    · exact Or.inl rfl
    · exact { l.pm with readyQueue := _ }.arms_opsOnReady _ _
  · exact Or.inl rfl
  · exact Or.inl rfl
  · exact Or.inl rfl

/-- A loop that has returned stays so. -/
theorem step_of_down (C : Codec K) {l : EventLoop K} (h : l.phase = .down) (a : LoopAction K) :
    (step C l a).phase = .down ∧ (l.ops a).filterMap Op.armed = [] := by
  obtain ⟨pm, db, phase⟩ := l
  cases h
  cases a with
  | flusher => exact ⟨(flusherStep_frame C _).1, rfl⟩
  | _ => exact ⟨rfl, rfl⟩

theorem step_view (C : Codec K) (l : EventLoop K) (a : LoopAction K) :
    (step C l a).pm.view = ((l.ops a).filterMap Op.armed).foldl max l.pm.view := by
  have hcore := congrArg Core.view (step_core C l a)
  rw [Core.run_view] at hcore
  exact hcore

end EventLoop

/-! ## What the tasks of the timer do -/

theorem perm_cons_eraseIdx {α : Type} {xs : List α} {i : ℕ} {x : α} (h : xs[i]? = some x) :
    (x :: xs.eraseIdx i).Perm xs := by
  obtain ⟨hlt, rfl⟩ := List.getElem?_eq_some_iff.mp h
  exact List.getElem_cons_eraseIdx_perm hlt

theorem eq_or_mem_eraseIdx {α : Type} {xs : List α} {i : ℕ} {x y : α} (h : xs[i]? = some x)
    (hy : y ∈ xs) : y = x ∨ y ∈ xs.eraseIdx i :=
  List.mem_cons.mp ((perm_cons_eraseIdx h).mem_iff.mpr hy)

namespace DefaultTimer

variable {t : DefaultTimer}

theorem live_sublist (t : DefaultTimer) : t.live.Sublist t.pending :=
  (List.filter_sublist.map TimerTask.view).append (List.Sublist.refl _)

theorem mem_live {v : ViewNumber} :
    v ∈ t.live ↔ ⟨v, false⟩ ∈ t.waiting ∨ v ∈ t.sending ∨ t.timeoutCh = some v := by
  unfold live
  rw [List.mem_append, List.mem_append, Option.mem_toList, List.mem_map]
  constructor
  · rintro (⟨⟨view, stopped⟩, htask, rfl⟩ | h)
    · obtain ⟨hmem, hlive⟩ := List.mem_filter.mp htask
      have hstopped : stopped = false := by simpa using hlive
      subst hstopped
      exact Or.inl hmem
    · exact Or.inr h
  · rintro (h | h)
    · exact Or.inl ⟨⟨v, false⟩, List.mem_filter.mpr ⟨h, rfl⟩, rfl⟩
    · exact Or.inr h

theorem pending_stopViewTimer (t : DefaultTimer) : t.stopViewTimer.pending = t.pending := by
  unfold stopViewTimer pending
  rw [List.map_map]
  rfl

theorem pending_viewTimeout (t : DefaultTimer) (v : ViewNumber) :
    (t.viewTimeout v).pending.Perm (v :: t.pending) := by
  have hstop := t.pending_stopViewTimer
  unfold viewTimeout start pending at *
  rw [List.map_append, List.append_assoc, ← hstop]
  exact List.perm_middle

theorem mem_live_viewTimeout (t : DefaultTimer) (v : ViewNumber) : v ∈ (t.viewTimeout v).live :=
  mem_live.mpr (Or.inl (List.mem_append_right _ List.mem_cons_self))

theorem pending_expire (t : DefaultTimer) (i : ℕ) : (t.expire i).pending.Perm t.pending := by
  unfold expire
  split
  · rename_i task hi
    have hperm := (perm_cons_eraseIdx hi).map TimerTask.view
    unfold pending
    dsimp only
    refine List.Perm.trans ?_ (hperm.append_right _)
    rw [List.append_assoc, List.map_cons, List.cons_append]
    exact (List.Perm.append_left _ (List.perm_middle)).trans List.perm_middle
  · exact List.Perm.refl _

theorem mem_live_expire {v : ViewNumber} (h : v ∈ t.live) (i : ℕ) : v ∈ (t.expire i).live := by
  unfold expire
  split
  · rename_i task hi
    rw [mem_live] at h ⊢
    rcases h with h | h | h
    · rcases eq_or_mem_eraseIdx hi h with h | h
      · exact Or.inr (Or.inl (List.mem_append_right _ (by rw [← h]; exact List.mem_cons_self)))
      · exact Or.inl h
    · exact Or.inr (Or.inl (List.mem_append_left _ h))
    · exact Or.inr (Or.inr h)
  · exact h

theorem pending_cancel (t : DefaultTimer) (i : ℕ) : (t.cancel i).pending.Sublist t.pending := by
  unfold cancel
  split
  · split
    · exact ((List.eraseIdx_sublist _ _).map TimerTask.view).append (List.Sublist.refl _)
    · exact List.Sublist.refl _
  · exact List.Sublist.refl _

theorem mem_live_cancel {v : ViewNumber} (h : v ∈ t.live) (i : ℕ) : v ∈ (t.cancel i).live := by
  unfold cancel
  split
  · rename_i task hi
    split
    · rename_i hstopped
      rw [mem_live] at h ⊢
      refine h.imp_left fun h => ?_
      rcases eq_or_mem_eraseIdx hi h with h | h
      · rw [← h] at hstopped
        cases hstopped
      · exact h
    · exact h
  · exact h

theorem pending_send (t : DefaultTimer) (i : ℕ) : (t.send i).pending.Perm t.pending := by
  unfold send
  split
  · rename_i view hi hch
    have hperm := perm_cons_eraseIdx hi
    unfold pending
    dsimp only
    rw [hch, Option.toList_none, List.append_nil]
    exact List.Perm.append_left _ ((List.perm_append_singleton _ _).trans hperm)
  · exact List.Perm.refl _

theorem mem_live_send {v : ViewNumber} (h : v ∈ t.live) (i : ℕ) : v ∈ (t.send i).live := by
  unfold send
  split
  · rename_i view hi hch
    rw [mem_live] at h ⊢
    refine h.imp_right ?_
    rintro (h | h)
    · rcases eq_or_mem_eraseIdx hi h with h | h
      · exact Or.inr (congrArg some h.symm)
      · exact Or.inl h
    · rw [hch] at h
      cases h
  · exact h

/-- An event is taken from the channel. -/
theorem pending_receive {v : ViewNumber} (h : t.timeoutCh = some v) :
    t.pending.Perm (v :: { t with timeoutCh := none }.pending) := by
  unfold pending
  rw [h, ← List.append_assoc, Option.toList_none, List.append_nil]
  exact List.perm_append_singleton _ _

end DefaultTimer

/-! ## The loop and its timer -/

namespace TimedLoop

variable {C : Codec K} {t : TimedLoop K}

/-- The step of the loop that a step is. -/
def performs (t : TimedLoop K) : TimedAction K → Option (LoopAction K)
  | .act (.timeout _ _) => none
  | .act a => some a
  | .receive o =>
    match t.loop.phase, t.timer.timeoutCh with
    | .select, some view => some (.timeout o view)
    | _, _ => none
  | _ => none

/-- The step has no timeout of the greatest view. -/
def NoWrap (t : TimedLoop K) (a : TimedAction K) : Prop := ∀ b ∈ t.performs a, t.loop.NoWrap b

instance (t : TimedLoop K) (a : TimedAction K) : Decidable (t.NoWrap a) :=
  inferInstanceAs (Decidable (∀ b ∈ t.performs a, t.loop.NoWrap b))

theorem dropped_loop (t : TimedLoop K) : t.dropped.loop = t.loop := by
  unfold dropped
  split <;> rfl

/-- The loop receives a timeout where it waits and the channel holds one. -/
theorem receive_cases (C : Codec K) (t : TimedLoop K) (o : Oracle K) :
    (∃ view, t.loop.phase = .select ∧ t.timer.timeoutCh = some view ∧
      step C t (.receive o) =
        { t with timer := { t.timer with timeoutCh := none } }.perform C (.timeout o view) ∧
      t.performs (.receive o) = some (.timeout o view)) ∨
    (step C t (.receive o) = t ∧ t.performs (.receive o) = none) := by
  obtain ⟨⟨pm, db, phase⟩, ⟨waiting, sending, timeoutCh⟩⟩ := t
  cases timeoutCh with
  | none => cases phase <;> exact Or.inr ⟨rfl, rfl⟩
  | some view =>
    cases phase with
    | select => exact Or.inl ⟨view, rfl, rfl, rfl, rfl⟩
    | _ => exact Or.inr ⟨rfl, rfl⟩

/-- The timer only delays the loop: it allows no step that the loop does not have. -/
theorem step_loop (C : Codec K) (t : TimedLoop K) (a : TimedAction K) :
    (step C t a).loop = (t.performs a).elim t.loop (t.loop.step C) := by
  cases a with
  | act a =>
    cases a with
    | timeout o view => rfl
    | _ => exact dropped_loop _
  | receive o =>
    rcases receive_cases C t o with ⟨view, -, -, hstep, hperforms⟩ | ⟨hstep, hperforms⟩
    · rw [hstep, hperforms]
      rfl
    · rw [hstep, hperforms]
      rfl
  | _ => rfl

theorem exists_loop_run (C : Codec K) (t : TimedLoop K) (as : List (TimedAction K)) :
    ∃ bs : List (LoopAction K),
      (as.foldl (step C) t).loop = bs.foldl (EventLoop.step C) t.loop := by
  induction as generalizing t with
  | nil => exact ⟨[], rfl⟩
  | cons a as ih =>
    obtain ⟨bs, hbs⟩ := ih (step C t a)
    refine ⟨(t.performs a).toList ++ bs, ?_⟩
    rw [List.foldl_append]
    show ((as.foldl (step C) (step C t a)).loop) = _
    rw [hbs, step_loop]
    cases t.performs a <;> rfl

/-- What the timer may send is over or the current view. -/
def Timely (t : TimedLoop K) : Prop := ∀ v ∈ t.timer.pending, v ≤ t.loop.pm.view

theorem Timely.perform (h : t.Timely) (C : Codec K) (a : LoopAction K) :
    (t.perform C a).Timely := by
  intro v hv
  unfold TimedLoop.perform at hv ⊢
  dsimp only at hv ⊢
  rw [EventLoop.step_view]
  rcases t.loop.arms_ops a with hnone | ⟨w, -, hone⟩
  · rw [hnone] at hv ⊢
    exact h v hv
  · rw [hone] at hv ⊢
    rcases List.mem_cons.mp ((t.timer.pending_viewTimeout (w + 1)).mem_iff.mp hv) with rfl | hv
    · exact le_max_right _ _
    · exact (h v hv).trans (le_max_left _ _)

theorem pending_dropped (t : TimedLoop K) : t.dropped.timer.pending = t.timer.pending := by
  unfold dropped
  split
  · exact t.timer.pending_stopViewTimer
  · rfl

theorem Timely.dropped (h : t.Timely) : t.dropped.Timely := by
  unfold Timely
  rw [pending_dropped, dropped_loop]
  exact h

theorem Timely.step (h : t.Timely) (C : Codec K) (a : TimedAction K) : (step C t a).Timely := by
  cases a with
  | act a =>
    cases a with
    | timeout o view => exact h
    | _ => exact (h.perform C _).dropped
  | receive o =>
    rcases receive_cases C t o with ⟨view, -, hch, hstep, -⟩ | ⟨hstep, -⟩
    · rw [hstep]
      refine Timely.perform ?_ C _
      intro v hv
      exact h v ((DefaultTimer.pending_receive hch).mem_iff.mpr (List.mem_cons_of_mem _ hv))
    · rw [hstep]
      exact h
  | expire i => exact fun v hv => h v ((t.timer.pending_expire i).mem_iff.mp hv)
  | cancel i => exact fun v hv => h v ((t.timer.pending_cancel i).subset hv)
  | send i => exact fun v hv => h v ((t.timer.pending_send i).mem_iff.mp hv)

theorem timely_start (id : ReplicaID) (elector : RoundRobinLeaderElector) (machine : Machine K)
    (signaturer : DefaultSignaturer K) (db : Database) :
    (start (.new id elector machine signaturer) db).Timely := by
  intro v hv
  rw [List.mem_singleton.mp hv]
  exact le_refl _

/-- What a received timeout does to the loop. -/
theorem receive_loop (C : Codec K) (o : Oracle K) {view : ViewNumber}
    (hphase : t.loop.phase = .select) (hch : t.timer.timeoutCh = some view) :
    (step C t (.receive o)).loop =
      { t.loop with pm := t.loop.pm.processLocalTimeout o view, phase := .drain } := by
  have hperforms : t.performs (.receive o) = some (.timeout o view) := by
    unfold performs
    rw [hphase, hch]
  rw [step_loop, hperforms, Option.elim_some]
  unfold EventLoop.step
  rw [hphase]

/-- A timeout of an earlier view is taken from the channel, and that is all. -/
theorem receive_late (C : Codec K) (o : Oracle K) {view : ViewNumber}
    (hphase : t.loop.phase = .select) (hch : t.timer.timeoutCh = some view)
    (hlt : view < t.loop.pm.view) :
    step C t (.receive o) =
      ⟨{ t.loop with phase := .drain }, { t.timer with timeoutCh := none }⟩ := by
  obtain ⟨⟨pm, db, phase⟩, ⟨waiting, sending, timeoutCh⟩⟩ := t
  cases hphase
  cases hch
  have hpm : pm.processLocalTimeout o view = pm := by
    rw [Pacemaker.processLocalTimeout_eq, if_neg (not_le.mpr hlt)]
  have harmed : (pm.opsOnTimeout o view).filterMap Op.armed = [] := by
    rw [Pacemaker.armed_opsOnTimeout, if_neg (not_le.mpr hlt)]
  simp only [step, perform, EventLoop.step, EventLoop.ops, hpm, harmed, List.foldl_nil]

/-- A timeout of the current view leads to the next one. -/
theorem receive_view (C : Codec K) (o : Oracle K) (hphase : t.loop.phase = .select)
    (hch : t.timer.timeoutCh = some t.loop.pm.view) (hmax : t.loop.pm.view ≠ U64.maxValue) :
    (step C t (.receive o)).loop.pm.view = t.loop.pm.view + 1 := by
  rw [receive_loop C o hphase hch]
  show (t.loop.pm.processLocalTimeout o t.loop.pm.view).view = _
  rw [Pacemaker.processLocalTimeout_view, if_pos (le_refl _)]
  exact max_eq_right (le_of_lt (U64.lt_add_one hmax))

/-- A timeout that the loop receives is of an earlier view and changes nothing, or it is of the
current view and leads to the next one. -/
theorem timeout_moves_one_view (C : Codec K) (id : ReplicaID) (elector : RoundRobinLeaderElector)
    (machine : Machine K) (signaturer : DefaultSignaturer K) (db : Database)
    (as : List (TimedAction K)) (o : Oracle K) :
    let t := as.foldl (step C) (start (.new id elector machine signaturer) db)
    ∀ view, t.loop.phase = .select → t.timer.timeoutCh = some view →
      (view < t.loop.pm.view ∧ (step C t (.receive o)).loop.pm = t.loop.pm) ∨
      (view = t.loop.pm.view ∧ (view ≠ U64.maxValue →
        (step C t (.receive o)).loop.pm.view = t.loop.pm.view + 1)) := by
  intro t view hphase hch
  have htimely : t.Timely :=
    Run.foldl_of_kept (timely_start id elector machine signaturer db)
      (fun _ a h => h.step C a) as
  have hle : view ≤ t.loop.pm.view :=
    htimely view ((DefaultTimer.pending_receive hch).mem_iff.mpr List.mem_cons_self)
  rcases lt_or_eq_of_le hle with hlt | rfl
  · left
    refine ⟨hlt, ?_⟩
    rw [receive_late C o hphase hch hlt]
  · exact Or.inr ⟨rfl, receive_view C o hphase hch⟩

/-! ### The timer of the current view -/

/-- The timers are of different views, none later than the current one, and the timeout of the
current view will come. -/
structure Armed (t : TimedLoop K) : Prop where
  timely : t.Timely
  nodup : t.timer.pending.Nodup
  live : t.loop.phase ≠ .down → t.loop.pm.view ∈ t.timer.live

theorem armed_start (id : ReplicaID) (elector : RoundRobinLeaderElector) (machine : Machine K)
    (signaturer : DefaultSignaturer K) (db : Database) :
    (start (.new id elector machine signaturer) db).Armed where
  timely := timely_start id elector machine signaturer db
  nodup := List.nodup_singleton _
  live _ := List.mem_cons_self

/-- A step of the loop that starts no timer for view 0 starts the timer of its next view. Where
it starts none, the timer of the current view has to be there. -/
theorem Timely.armed_perform (h : t.Timely) (hnodup : t.timer.pending.Nodup) (C : Codec K)
    {a : LoopAction K} (hwrap : t.loop.NoWrap a)
    (hlive : (t.loop.ops a).filterMap Op.armed = [] → t.loop.pm.view ∈ t.timer.live) :
    (t.perform C a).timer.pending.Nodup ∧
      (t.perform C a).loop.pm.view ∈ (t.perform C a).timer.live := by
  unfold TimedLoop.perform
  dsimp only
  rw [EventLoop.step_view]
  rcases t.loop.arms_ops a with hnone | ⟨w, hle, hone⟩
  · rw [hnone]
    exact ⟨hnodup, hlive hnone⟩
  · have hmem : w + 1 ∈ (t.loop.ops a).filterMap Op.armed := by
      rw [hone]
      exact List.mem_cons_self
    obtain ⟨op, hop, harmed⟩ := List.mem_filterMap.mp hmem
    have hlt : t.loop.pm.view < w + 1 := by
      refine lt_of_le_of_lt hle (U64.lt_add_one ?_)
      rintro rfl
      cases op with
      | goto view =>
        cases harmed
        have hzero : (U64.maxValue + 1 == 0) = false := hwrap _ hop
        exact absurd hzero (by decide)
      | _ => cases harmed
    rw [hone]
    constructor
    · refine (t.timer.pending_viewTimeout (w + 1)).nodup_iff.mpr ?_
      exact List.nodup_cons.mpr ⟨fun hmem => absurd (h _ hmem) (not_le.mpr hlt), hnodup⟩
    · show max t.loop.pm.view (w + 1) ∈ (t.timer.viewTimeout (w + 1)).live
      rw [max_eq_right (le_of_lt hlt)]
      exact t.timer.mem_live_viewTimeout (w + 1)

theorem Armed.dropped (h : t.Armed) : t.dropped.Armed := by
  refine ⟨h.timely.dropped, ?_, ?_⟩
  · rw [pending_dropped]
    exact h.nodup
  · intro hup
    rw [dropped_loop] at hup ⊢
    unfold TimedLoop.dropped
    split
    · rename_i hdown
      exact absurd hdown hup
    · exact h.live hup

theorem Armed.perform (h : t.Armed) (C : Codec K) {a : LoopAction K} (hwrap : t.loop.NoWrap a) :
    (t.perform C a).Armed := by
  by_cases hdown : t.loop.phase = .down
  · obtain ⟨hphase, hnone⟩ := EventLoop.step_of_down C hdown a
    refine ⟨h.timely.perform C a, ?_, fun hup => absurd hphase hup⟩
    unfold TimedLoop.perform
    rw [hnone]
    exact h.nodup
  · obtain ⟨hnodup, hlive⟩ := h.timely.armed_perform h.nodup C hwrap fun _ => h.live hdown
    exact ⟨h.timely.perform C a, hnodup, fun _ => hlive⟩

/-- The event in the channel is of the current view, whose next timer is started, or the timer of
the current view is another one. -/
theorem Armed.receive (h : t.Armed) (C : Codec K) (o : Oracle K) {view : ViewNumber}
    (hphase : t.loop.phase = .select) (hch : t.timer.timeoutCh = some view)
    (hwrap : t.loop.NoWrap (.timeout o view)) :
    ({ t with timer := { t.timer with timeoutCh := none } }.perform C
      (.timeout o view) : TimedLoop K).Armed := by
  have hperm := DefaultTimer.pending_receive hch
  have htimely : ({ t with timer := { t.timer with timeoutCh := none } } : TimedLoop K).Timely :=
    fun v hv => h.timely v (hperm.mem_iff.mpr (List.mem_cons_of_mem _ hv))
  have hnodup := (List.nodup_cons.mp (hperm.nodup_iff.mp h.nodup)).2
  have hboth := htimely.armed_perform hnodup C hwrap (by
    intro hnone
    have hops : t.loop.ops (.timeout o view) = t.loop.pm.opsOnTimeout o view := by
      unfold EventLoop.ops
      rw [hphase]
    have hlt : view < t.loop.pm.view := by
      by_contra hle
      change (t.loop.ops (.timeout o view)).filterMap Op.armed = [] at hnone
      rw [hops, Pacemaker.armed_opsOnTimeout, if_pos (not_lt.mp hle)] at hnone
      cases hnone
    have hlive := DefaultTimer.mem_live.mp (h.live (by rw [hphase]; decide))
    rw [DefaultTimer.mem_live]
    rcases hlive with hw | hs | hc
    · exact Or.inl hw
    · exact Or.inr (Or.inl hs)
    · rw [hch] at hc
      cases hc
      exact absurd hlt (lt_irrefl _))
  exact ⟨htimely.perform C _, hboth.1, fun _ => hboth.2⟩

theorem Armed.step (h : t.Armed) (C : Codec K) {a : TimedAction K} (hwrap : t.NoWrap a) :
    (step C t a).Armed := by
  cases a with
  | act a =>
    cases a with
    | timeout o view => exact h
    | _ => exact (h.perform C (hwrap _ rfl)).dropped
  | receive o =>
    rcases receive_cases C t o with ⟨view, hphase, hch, hstep, hperforms⟩ | ⟨hstep, -⟩
    · rw [hstep]
      exact h.receive C o hphase hch (hwrap _ hperforms)
    · rw [hstep]
      exact h
  | expire i =>
    exact ⟨h.timely.step C _, (t.timer.pending_expire i).nodup_iff.mpr h.nodup,
      fun hup => DefaultTimer.mem_live_expire (h.live hup) i⟩
  | cancel i =>
    exact ⟨h.timely.step C _, (t.timer.pending_cancel i).nodup h.nodup,
      fun hup => DefaultTimer.mem_live_cancel (h.live hup) i⟩
  | send i =>
    exact ⟨h.timely.step C _, (t.timer.pending_send i).nodup_iff.mpr h.nodup,
      fun hup => DefaultTimer.mem_live_send (h.live hup) i⟩

theorem armed_run (C : Codec K) (id : ReplicaID) (elector : RoundRobinLeaderElector)
    (machine : Machine K) (signaturer : DefaultSignaturer K) (db : Database)
    {as : List (TimedAction K)}
    (hwrap : Run.Each (step C) NoWrap (start (.new id elector machine signaturer) db) as) :
    (as.foldl (step C) (start (.new id elector machine signaturer) db)).Armed :=
  Run.foldl_of_invariant (armed_start id elector machine signaturer db) hwrap
    fun _ _ h ha => h.step C ha

/-- Until the loop returns, exactly one timeout of the current view is to come and nothing has
stopped it; all others are of earlier views. -/
theorem timeout_always_pending (C : Codec K) (id : ReplicaID) (elector : RoundRobinLeaderElector)
    (machine : Machine K) (signaturer : DefaultSignaturer K) (db : Database)
    (as : List (TimedAction K))
    (hwrap : Run.Each (step C) NoWrap (start (.new id elector machine signaturer) db) as) :
    let t := as.foldl (step C) (start (.new id elector machine signaturer) db)
    t.loop.phase ≠ .down →
      t.timer.live.count t.loop.pm.view = 1 ∧ t.timer.pending.count t.loop.pm.view = 1 ∧
        ∀ v ∈ t.timer.pending, v ≠ t.loop.pm.view → v < t.loop.pm.view := by
  intro t hup
  have harmed : t.Armed := armed_run C id elector machine signaturer db hwrap
  have hlive := harmed.live hup
  have hsub := t.timer.live_sublist
  refine ⟨?_, ?_, ?_⟩
  · exact List.count_eq_one_of_mem (hsub.nodup harmed.nodup) hlive
  · exact List.count_eq_one_of_mem harmed.nodup (hsub.subset hlive)
  · intro v hv hne
    exact lt_of_le_of_ne (harmed.timely v hv) hne

end TimedLoop

/-! ## A loop that waits -/

/-- What is queued outside the draining loop: nothing at the top, and a proposal of the replica
at most where the loop waits. -/
structure EventLoop.Rested (l : EventLoop K) : Prop where
  top : l.phase = .top → l.pm.readyQueue = []
  select : l.phase = .select → ∀ r ∈ l.pm.readyQueue, ∃ ctx prop, r = .newProposal ctx prop

theorem EventLoop.Rested.of_ne {l : EventLoop K} (htop : l.phase ≠ .top)
    (hselect : l.phase ≠ .select) : l.Rested :=
  ⟨fun h => absurd h htop, fun h => absurd h hselect⟩

theorem EventLoop.Rested.step {l : EventLoop K} (h : l.Rested) (C : Codec K) (a : LoopAction K) :
    (EventLoop.step C l a).Rested := by
  obtain ⟨pm, db, phase⟩ := l
  have hdrain (pm' : Pacemaker K) : EventLoop.Rested ⟨pm', db, .drain⟩ :=
    .of_ne (fun htop => nomatch htop) (fun hselect => nomatch hselect)
  cases a with
  | flusher =>
    have hstep : EventLoop.step C ⟨pm, db, phase⟩ .flusher =
        EventLoop.flusherStep C ⟨pm, db, phase⟩ := by
      cases phase <;> rfl
    obtain ⟨hphase, hqueue, -⟩ := EventLoop.flusherStep_frame C ⟨pm, db, phase⟩
    rw [hstep]
    exact ⟨fun htop => hqueue.trans (h.top (hphase.symm.trans htop)),
      fun hsel => by rw [hqueue]; exact h.select (hphase.symm.trans hsel)⟩
  | fetch cmds =>
    cases phase with
    | top =>
      have hnil : pm.readyQueue = [] := h.top rfl
      cases cmds with
      | none =>
        refine ⟨fun htop => (nomatch htop), fun _ r hr => ?_⟩
        have hr' : r ∈ pm.readyQueue := hr
        rw [hnil] at hr'
        cases hr'
      | some cmds =>
        refine ⟨fun htop => (nomatch htop), fun _ r hr => ?_⟩
        rcases EventLoop.propose_readyQueue _ cmds hr with hold | hnew
        · have hr' : r ∈ pm.readyQueue := hold
          rw [hnil] at hr'
          cases hr'
        · exact hnew
    | _ => cases cmds <;> exact h
  | ready o =>
    cases phase with
    | drain =>
      unfold EventLoop.step
      dsimp only
      split
      · rename_i hnil
        exact ⟨fun _ => hnil, fun hsel => nomatch hsel⟩
      · exact hdrain _
    | _ => exact h
  | tick => cases phase <;> first | exact h | exact hdrain _
  | quit => cases phase <;> first | exact h | exact hdrain _
  | network o e => cases phase <;> first | exact h | exact hdrain _
  | timeout o view => cases phase <;> first | exact h | exact hdrain _
  | finish =>
    cases phase with
    | top => exact .of_ne (fun htop => nomatch htop) (fun hselect => nomatch hselect)
    | _ => exact h

/-- A step in which neither the network nor a client takes part. -/
def TimedAction.alone : TimedAction K → Bool
  | .act (.fetch none) => true
  | .act (.ready _) => true
  | .receive _ => true
  | .expire _ => true
  | .send _ => true
  | _ => false

namespace TimedLoop

variable {C : Codec K} {t t' t'' : TimedLoop K}

/-- Some steps that the replica takes alone lead from one state to the other. -/
def ReachesAlone (C : Codec K) (t t' : TimedLoop K) : Prop :=
  ∃ as : List (TimedAction K), (∀ a ∈ as, a.alone = true) ∧ as.foldl (step C) t = t'

theorem ReachesAlone.refl (C : Codec K) (t : TimedLoop K) : ReachesAlone C t t :=
  ⟨[], fun _ ha => (nomatch ha), rfl⟩

theorem ReachesAlone.head {a : TimedAction K} (ha : a.alone = true)
    (h : ReachesAlone C (step C t a) t') : ReachesAlone C t t' := by
  obtain ⟨as, has, hfold⟩ := h
  refine ⟨a :: as, ?_, hfold⟩
  intro b hb
  rcases List.mem_cons.mp hb with rfl | hb
  · exact ha
  · exact has b hb

theorem ReachesAlone.trans (h : ReachesAlone C t t') (h' : ReachesAlone C t' t'') :
    ReachesAlone C t t'' := by
  obtain ⟨as, has, rfl⟩ := h
  obtain ⟨bs, hbs, rfl⟩ := h'
  refine ⟨as ++ bs, ?_, List.foldl_append⟩
  intro a ha
  rcases List.mem_append.mp ha with ha | ha
  · exact has a ha
  · exact hbs a ha

/-- The queued proposals are sent, and the loop waits again, in the same view. -/
theorem drains (C : Codec K) (o : Oracle K) (hphase : t.loop.phase = .drain)
    (hqueue : ∀ r ∈ t.loop.pm.readyQueue, ∃ ctx prop, r = .newProposal ctx prop) :
    ∃ l : EventLoop K, ReachesAlone C t ⟨l, t.timer⟩ ∧ l.phase = .select ∧
      l.pm.view = t.loop.pm.view := by
  obtain ⟨⟨pm, db, phase⟩, timer⟩ := t
  cases hphase
  generalize hq : pm.readyQueue = queue at hqueue
  induction queue generalizing pm with
  | nil =>
    have hready : step C ⟨⟨pm, db, .drain⟩, timer⟩ (.act (.ready o)) =
        ⟨⟨pm, db, .top⟩, timer⟩ := by
      simp only [step, perform, dropped, EventLoop.step, EventLoop.ops, hq]
      rfl
    refine ⟨⟨pm.onStorage fun s => s.touchNewViewSet pm.view, db, .select⟩, ?_, rfl, rfl⟩
    refine .head (a := .act (.ready o)) rfl ?_
    rw [hready]
    exact .head (a := .act (.fetch none)) rfl (.refl C _)
  | cons r queue ih =>
    obtain ⟨ctx, prop, rfl⟩ := hqueue r List.mem_cons_self
    have hready : step C ⟨⟨pm, db, .drain⟩, timer⟩ (.act (.ready o)) =
        ⟨⟨{ pm with readyQueue := queue }.emitPeerEvent (.newProposal ctx prop), db, .drain⟩,
          timer⟩ := by
      simp only [step, perform, dropped, EventLoop.step, EventLoop.ops, hq]
      rfl
    obtain ⟨l, hreach, hphase, hview⟩ :=
      ih ({ pm with readyQueue := queue }.emitPeerEvent (.newProposal ctx prop)) rfl
        (fun r hr => hqueue r (List.mem_cons_of_mem _ hr))
    exact ⟨l, .head (a := .act (.ready o)) rfl (by rw [hready]; exact hreach), hphase, hview⟩

theorem rested_run (C : Codec K) (id : ReplicaID) (elector : RoundRobinLeaderElector)
    (machine : Machine K) (signaturer : DefaultSignaturer K) (db : Database)
    (as : List (TimedAction K)) :
    (as.foldl (step C) (start (.new id elector machine signaturer) db)).loop.Rested := by
  obtain ⟨bs, hbs⟩ := exists_loop_run C (start (.new id elector machine signaturer) db) as
  have hstart : (start (.new id elector machine signaturer) db).loop.Rested :=
    ⟨fun _ => rfl, fun h => by cases h⟩
  rw [hbs]
  exact Run.foldl_of_kept hstart (fun _ b h => h.step C b) bs

/-- A task that is about to send does so. -/
theorem sends (C : Codec K) {v : ViewNumber} (hv : v ∈ t.timer.sending)
    (hch : t.timer.timeoutCh = none) :
    ∃ timer, ReachesAlone C t ⟨t.loop, timer⟩ ∧ timer.timeoutCh = some v := by
  obtain ⟨i, hi⟩ := List.mem_iff_getElem?.mp hv
  refine ⟨t.timer.send i, .head (a := .send i) rfl (.refl C _), ?_⟩
  unfold DefaultTimer.send
  rw [hi, hch]

/-- A timeout that will come enters the empty channel. -/
theorem fires (C : Codec K) {v : ViewNumber} (hv : v ∈ t.timer.live)
    (hch : t.timer.timeoutCh = none) :
    ∃ timer, ReachesAlone C t ⟨t.loop, timer⟩ ∧ timer.timeoutCh = some v := by
  rcases DefaultTimer.mem_live.mp hv with hw | hs | hc
  · obtain ⟨i, hi⟩ := List.mem_iff_getElem?.mp hw
    have hexpire : t.timer.expire i = { t.timer with
        waiting := t.timer.waiting.eraseIdx i, sending := t.timer.sending ++ [v] } := by
      unfold DefaultTimer.expire
      rw [hi]
    obtain ⟨timer, hreach, htimer⟩ := sends (t := step C t (.expire i)) C (v := v) (by
      show v ∈ (t.timer.expire i).sending
      rw [hexpire]
      exact List.mem_append_right _ List.mem_cons_self) (by
      show (t.timer.expire i).timeoutCh = none
      rw [hexpire]
      exact hch)
    exact ⟨timer, .head (a := .expire i) rfl hreach, htimer⟩
  · exact sends C hs hch
  · rw [hch] at hc
    cases hc

/-- A loop that waits with an empty channel goes to the next view. -/
theorem moves_on (C : Codec K) (hphase : t.loop.phase = .select)
    (hlive : t.loop.pm.view ∈ t.timer.live) (hch : t.timer.timeoutCh = none)
    (hmax : t.loop.pm.view ≠ U64.maxValue) :
    ∃ t', ReachesAlone C t t' ∧ t'.loop.pm.view = t.loop.pm.view + 1 := by
  obtain ⟨timer, hreach, htimer⟩ := fires C hlive hch
  have o : Oracle K := ⟨0, []⟩
  have hview := receive_view (t := ⟨t.loop, timer⟩) C o hphase htimer hmax
  exact ⟨_, hreach.trans (.head (a := .receive o) rfl (.refl C _)), hview⟩

/-- A loop that waits is not stuck in its view: with its timer alone, without the network and
without clients, it reaches the next one. -/
theorem waiting_loop_moves_on (C : Codec K) (id : ReplicaID) (elector : RoundRobinLeaderElector)
    (machine : Machine K) (signaturer : DefaultSignaturer K) (db : Database)
    (as : List (TimedAction K))
    (hwrap : Run.Each (step C) NoWrap (start (.new id elector machine signaturer) db) as) :
    let t := as.foldl (step C) (start (.new id elector machine signaturer) db)
    t.loop.phase = .select → t.loop.pm.view ≠ U64.maxValue →
      ∃ t', ReachesAlone C t t' ∧ t'.loop.pm.view = t.loop.pm.view + 1 := by
  intro t hphase hmax
  have harmed : t.Armed := armed_run C id elector machine signaturer db hwrap
  have hrested : t.loop.Rested := rested_run C id elector machine signaturer db as
  have hlive := harmed.live (by rw [hphase]; decide)
  have o : Oracle K := ⟨0, []⟩
  cases hch : t.timer.timeoutCh with
  | none => exact moves_on C hphase hlive hch hmax
  | some view =>
    have hle : view ≤ t.loop.pm.view :=
      harmed.timely view ((DefaultTimer.pending_receive hch).mem_iff.mpr List.mem_cons_self)
    rcases lt_or_eq_of_le hle with hlt | rfl
    · -- a late event: it is received, the queue is drained, and the loop waits again
      have hlate := receive_late C o hphase hch hlt
      obtain ⟨l, hreach, hselect, hview⟩ :=
        drains (t := ⟨{ t.loop with phase := .drain }, { t.timer with timeoutCh := none }⟩) C o rfl
          (hrested.select hphase)
      have hlive' : l.pm.view ∈ ({ t.timer with timeoutCh := none } : DefaultTimer).live := by
        rw [hview, DefaultTimer.mem_live]
        refine (DefaultTimer.mem_live.mp hlive).imp_right fun h => h.imp_right fun hc => ?_
        rw [hch] at hc
        cases hc
        exact absurd hlt (lt_irrefl _)
      obtain ⟨t', hreach', hview'⟩ := moves_on (t := ⟨l, _⟩) C hselect hlive' rfl (by
        rw [hview]
        exact hmax)
      refine ⟨t', .head (a := .receive o) rfl ?_, ?_⟩
      · rw [hlate]
        exact hreach.trans hreach'
      · rw [hview', hview]
    · exact ⟨_, .head (a := .receive o) rfl (.refl C _), receive_view C o hphase hch hmax⟩

end TimedLoop

namespace Symbolic

open TimedLoop

def timedLoop₀ : TimedLoop symbolic :=
  .start (.new (replicaId 0) ⟨["replica-0", "replica-1", "replica-2", "replica-3"]⟩ (fresh 4 0)
    (signaturer 4 0)) createTables

/-- The delay of view 1 is over, but before its event enters the channel the replica votes for a
block of height 1 and goes to view 2. -/
def lateTimeout : List (TimedAction symbolic) :=
  .expire 0 ::
    (round (.network oracle (.newProposal (.broadcast (replicaId 1) 1) a1)) 1).map .act ++
    [.act (.fetch none), .send 0]

theorem noWrap_lateTimeout : Run.Each (step codec) NoWrap timedLoop₀ lateTimeout := by
  decide +kernel

/-- The timeout of view 1 comes in view 2. -/
theorem timeout_moves_one_view_on_lateTimeout :
    (lateTimeout.foldl (step codec) timedLoop₀).loop.pm.view = 2 ∧
      (step codec (lateTimeout.foldl (step codec) timedLoop₀) (.receive oracle)).loop.pm =
        (lateTimeout.foldl (step codec) timedLoop₀).loop.pm := by
  refine ⟨by decide +kernel, ?_⟩
  unfold timedLoop₀
  rcases timeout_moves_one_view codec (replicaId 0)
    ⟨["replica-0", "replica-1", "replica-2", "replica-3"]⟩ (fresh 4 0) (signaturer 4 0)
    createTables lateTimeout oracle 1 (by decide +kernel) (by decide +kernel) with h | h
  · exact h.2
  · exact absurd h.1 (by decide +kernel)

theorem timeout_always_pending_on_lateTimeout :
    (lateTimeout.foldl (step codec) timedLoop₀).timer.pending = [(2 : ViewNumber), 1] ∧
      (lateTimeout.foldl (step codec) timedLoop₀).timer.live.count
        (lateTimeout.foldl (step codec) timedLoop₀).loop.pm.view = 1 := by
  refine ⟨by decide +kernel, ?_⟩
  have hwrap := noWrap_lateTimeout
  unfold timedLoop₀ at hwrap ⊢
  exact (timeout_always_pending codec (replicaId 0)
    ⟨["replica-0", "replica-1", "replica-2", "replica-3"]⟩ (fresh 4 0) (signaturer 4 0)
    createTables lateTimeout hwrap (by decide +kernel)).1

theorem waiting_loop_moves_on_from_lateTimeout :
    ∃ t', ReachesAlone codec (lateTimeout.foldl (step codec) timedLoop₀) t' ∧
      t'.loop.pm.view = (lateTimeout.foldl (step codec) timedLoop₀).loop.pm.view + 1 := by
  have hwrap := noWrap_lateTimeout
  unfold timedLoop₀ at hwrap ⊢
  exact waiting_loop_moves_on codec (replicaId 0)
    ⟨["replica-0", "replica-1", "replica-2", "replica-3"]⟩ (fresh 4 0) (signaturer 4 0)
    createTables lateTimeout hwrap (by decide +kernel) (by decide +kernel)

end Symbolic

end HotstuffConsensus
