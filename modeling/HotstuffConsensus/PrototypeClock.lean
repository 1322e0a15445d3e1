import HotstuffConsensus.PrototypeReplica

/-!
# The clock of the prototype (`hs-prototype`: `main.rs`, `pacemaker.rs`)

`default_timer` counts ticks and sends each one with the deadline it is measured against; the
deadline moves on by `step` once it is passed. The pacemaker goes to the next view on a tick that
reaches its deadline, and sends a `ViewChange` to the replica, in whose channel it waits among the
messages of the network.

The three tasks run side by side. Whatever the order of their steps, the pacemaker counts the
multiples of `step` among the ticks, and the replica goes through the same views one by one
(`views_follow_clock`).

The counters of the timer are natural numbers here; where `lifetime + step` is a 64-bit word, so
are they.
-/

namespace HotstuffConsensus.Prototype

open Lib

variable {K : Crypto}

/-- The state of `default_timer`. -/
structure Clock where
  tick : ℕ
  deadline : ℕ
  lifetime : ℕ
  step : ℕ
  /-- The loop was left and the sender of the ticks dropped. -/
  ended : Bool

namespace Clock

def new (lifetime step : ℕ) : Clock := ⟨0, step, lifetime, step, false⟩

/-- What follows a tick that was sent. -/
def next (c : Clock) : Clock :=
  { c with
    tick := c.tick + 1
    deadline := if c.deadline < c.tick + 1 then c.deadline + c.step else c.deadline }

end Clock

structure DefaultPacemaker where
  view : ViewNumber
  tick : ℕ
  deadline : ℕ
  leader : Option ReplicaID

namespace DefaultPacemaker

def new (leader : Option ReplicaID) : DefaultPacemaker := ⟨1, 0, 1 <<< 10, leader⟩

def touchDeadline (pm : DefaultPacemaker) : Bool := decide (pm.deadline ≤ pm.tick)

/-- A tick is received, without the `view_change` that may follow. -/
def receive (pm : DefaultPacemaker) (newTick deadline : ℕ) : DefaultPacemaker :=
  let pm := { pm with tick := max newTick pm.tick, deadline := deadline }
  if pm.touchDeadline then { pm with view := pm.view + 1 } else pm

/-- The message of `view_change`; the pacemaker unwraps the leader. -/
def viewChange (pm : DefaultPacemaker) (listens : Bool) : Option (InternalMsg K) :=
  pm.leader.map fun leader => .viewChange leader pm.view listens

end DefaultPacemaker

/-- The timer, the pacemaker and the replica, with the channels between them. -/
structure System (K : Crypto) where
  clock : Clock
  tickCh : List (ℕ × ℕ)
  pm : DefaultPacemaker
  /-- The pacemaker has not panicked. -/
  running : Bool
  /-- The message that the pacemaker waits to send. -/
  blocked : Option (InternalMsg K)
  stepIn : List (InternalMsg K)
  task : Task K

inductive SystemAction (K : Crypto) where
  | tick
  /-- `tick_ch.recv()`; `listens` is whether the answer to a `ViewChange` is still received. -/
  | receive (listens : Bool)
  | sendViewChange
  /-- Another task sends a message to the replica. Only the pacemaker sends a `ViewChange`. -/
  | deliver (msg : InternalMsg K)
  | process

namespace System

def start (lifetime step : ℕ) (leader : Option ReplicaID) (r : Replica K) : System K :=
  ⟨.new lifetime step, [], .new leader, true, none, [], ⟨r, true⟩⟩

/-- A tick is received. -/
def receive (s : System K) (listens : Bool) (newTick deadline : ℕ) (rest : List (ℕ × ℕ)) :
    System K :=
  let pm := s.pm.receive newTick deadline
  let s := { s with tickCh := rest, pm := pm }
  if pm.touchDeadline then
    match pm.viewChange listens with
    | some msg => { s with blocked := some msg }
    | none => { s with running := false }
  else s

def step (s : System K) : SystemAction K → System K
  | .tick =>
    if s.clock.ended then s
    -- the channel is closed when the task of the pacemaker has ended
    else if s.clock.lifetime ≤ s.clock.tick ∨ !s.running then
      { s with clock := { s.clock with ended := true } }
    else if s.tickCh.length < 16 then
      { s with tickCh := s.tickCh ++ [(s.clock.tick, s.clock.deadline)], clock := s.clock.next }
    else s
  | .receive listens =>
    match s.running, s.blocked, s.tickCh with
    | true, none, (newTick, deadline) :: rest => s.receive listens newTick deadline rest
    -- `select!` without a branch left panics
    | true, none, [] => if s.clock.ended then { s with running := false } else s
    | _, _, _ => s
  | .sendViewChange =>
    match s.blocked with
    | some msg =>
      -- the channel is closed when the task of the replica has ended
      if s.task.running then
        if s.stepIn.length < 64 then { s with stepIn := s.stepIn ++ [msg], blocked := none } else s
      else { s with running := false, blocked := none }
    | none => s
  | .deliver (.viewChange _ _ _) => s
  | .deliver msg =>
    if s.task.running ∧ s.stepIn.length < 64 then { s with stepIn := s.stepIn ++ [msg] } else s
  | .process =>
    match s.task.running, s.stepIn with
    | true, msg :: rest => { s with stepIn := rest, task := s.task.step msg }
    | _, _ => s

end System

/-! ## The deadlines -/

/-- The deadline that is sent with a tick. -/
def deadlineAt (step : ℕ) : ℕ → ℕ
  | 0 => step
  | t + 1 => if deadlineAt step t < t + 1 then deadlineAt step t + step else deadlineAt step t

/-- The deadline of a tick is the least multiple of `step` which is not below it. -/
theorem deadlineAt_spec {step : ℕ} (hstep : 0 < step) (t : ℕ) :
    step ∣ deadlineAt step (t + 1) ∧ t + 1 ≤ deadlineAt step (t + 1) ∧
      deadlineAt step (t + 1) ≤ t + step := by
  induction t with
  | zero =>
    have hfirst : deadlineAt step 1 = step := if_neg (by show ¬step < 0 + 1; omega)
    rw [hfirst]
    exact ⟨dvd_rfl, hstep, by omega⟩
  | succ t ih =>
    obtain ⟨hdvd, hge, hle⟩ := ih
    rw [deadlineAt]
    split
    · exact ⟨(Nat.dvd_add_right hdvd).mpr dvd_rfl, by omega, by omega⟩
    · exact ⟨hdvd, by omega, by omega⟩

/-- A tick reaches its deadline when it is a positive multiple of `step`. -/
theorem deadlineAt_le_iff {step : ℕ} (hstep : 0 < step) (t : ℕ) :
    deadlineAt step (t + 1) ≤ t + 1 ↔ step ∣ t + 1 := by
  obtain ⟨hdvd, hge, hle⟩ := deadlineAt_spec hstep t
  constructor
  · intro h
    rwa [le_antisymm h hge] at hdvd
  · intro h
    -- two multiples of `step` less than `step` apart are equal
    have hsub := Nat.eq_zero_of_dvd_of_lt (Nat.dvd_sub hdvd h) (by omega)
    omega

/-- The view after a tick. -/
theorem view_next {step : ℕ} (hstep : 0 < step) (n : ℕ) :
    1 + n / step = 1 + (n - 1) / step + if deadlineAt step n ≤ n then 1 else 0 := by
  cases n with
  | zero =>
    have hfirst : ¬deadlineAt step 0 ≤ 0 := by show ¬step ≤ 0; omega
    rw [if_neg hfirst, Nat.zero_sub, Nat.add_zero]
  | succ t =>
    rw [Nat.succ_div, Nat.add_sub_cancel, if_congr (deadlineAt_le_iff hstep t) rfl rfl]
    omega

namespace System

/-- The ticks from `n` on wait in the channel; the pacemaker has received those before. -/
structure Ticks (lifetime step n : ℕ) (s : System K) : Prop where
  ends : s.clock.lifetime = lifetime
  every : s.clock.step = step
  deadline : s.clock.deadline = deadlineAt step s.clock.tick
  bound : s.clock.tick ≤ lifetime
  start : n ≤ s.clock.tick
  waiting : s.tickCh = (List.range' n (s.clock.tick - n)).map fun t => (t, deadlineAt step t)
  tick : s.pm.tick = n - 1
  view : s.pm.view.toNat = 1 + (n - 1) / step

namespace Ticks

variable {lifetime step n : ℕ} {s s' : System K}

/-- A step that concerns the replica only. -/
theorem frame (h : s.Ticks lifetime step n) (hclock : s'.clock = s.clock)
    (hch : s'.tickCh = s.tickCh) (hpm : s'.pm = s.pm) : s'.Ticks lifetime step n := by
  obtain ⟨hends, hevery, hdeadline, hbound, hstart, hwaiting, htick, hview⟩ := h
  rw [← hclock] at hends hevery hdeadline hbound hstart hwaiting
  rw [← hch] at hwaiting
  rw [← hpm] at htick hview
  exact ⟨hends, hevery, hdeadline, hbound, hstart, hwaiting, htick, hview⟩

theorem send (h : s.Ticks lifetime step n) (hlt : s.clock.tick < lifetime) :
    { s with tickCh := s.tickCh ++ [(s.clock.tick, s.clock.deadline)]
             clock := s.clock.next }.Ticks lifetime step n := by
  refine ⟨h.ends, h.every, ?_, hlt, h.start.trans (Nat.le_succ _), ?_, h.tick, h.view⟩
  · show (if s.clock.deadline < s.clock.tick + 1 then _ else _) = _
    rw [h.deadline, h.every]
    rfl
  · have hstart := h.start
    show s.tickCh ++ [(s.clock.tick, s.clock.deadline)] =
      (List.range' n (s.clock.tick + 1 - n)).map _
    rw [Nat.succ_sub hstart, List.range'_concat, List.map_append, ← h.waiting, Nat.one_mul,
      Nat.add_sub_cancel' hstart, h.deadline]
    rfl

/-- What a received tick does to the pacemaker. -/
theorem receive_pm (h : s.Ticks lifetime step n) (hstep : 0 < step)
    (hword : lifetime + step < 2 ^ 64) {newTick deadline : ℕ} {rest : List (ℕ × ℕ)}
    (hch : s.tickCh = (newTick, deadline) :: rest) :
    newTick = n ∧ deadline = deadlineAt step n ∧ n < s.clock.tick ∧
      rest = (List.range' (n + 1) (s.clock.tick - (n + 1))).map (fun t => (t, deadlineAt step t)) ∧
      (s.pm.receive newTick deadline).tick = n ∧
      (s.pm.receive newTick deadline).leader = s.pm.leader ∧
      (s.pm.receive newTick deadline).touchDeadline = decide (deadlineAt step n ≤ n) ∧
      (s.pm.receive newTick deadline).view.toNat = 1 + n / step := by
  have hwaiting := h.waiting
  rw [hch] at hwaiting
  obtain ⟨len, hlen⟩ : ∃ len, s.clock.tick - n = len + 1 := by
    cases hsub : s.clock.tick - n with
    | zero =>
      rw [hsub] at hwaiting
      cases hwaiting
    | succ len => exact ⟨len, rfl⟩
  rw [hlen, List.range'_succ, List.map_cons] at hwaiting
  obtain ⟨hhead, rfl⟩ := List.cons.inj hwaiting
  obtain ⟨rfl, rfl⟩ := Prod.mk.inj hhead
  have hlt : newTick < s.clock.tick := by omega
  have htick : max newTick s.pm.tick = newTick := by
    rw [h.tick]
    omega
  have hview : 1 + newTick / step ≤ lifetime := by
    have hdiv := Nat.div_le_self newTick step
    have hbound := h.bound
    omega
  have hnext := view_next hstep newTick
  refine ⟨rfl, rfl, hlt, by rw [show s.clock.tick - (newTick + 1) = len by omega], ?_⟩
  unfold DefaultPacemaker.receive DefaultPacemaker.touchDeadline
  dsimp only
  rw [htick]
  by_cases htouch : deadlineAt step newTick ≤ newTick
  · rw [if_pos (decide_eq_true htouch)]
    rw [if_pos htouch, ← h.view] at hnext
    refine ⟨rfl, rfl, rfl, ?_⟩
    show (s.pm.view.toNat + 1) % 2 ^ 64 = _
    rw [← hnext]
    exact Nat.mod_eq_of_lt (by omega)
  · rw [if_neg (by simpa using htouch)]
    rw [if_neg htouch, ← h.view] at hnext
    exact ⟨rfl, rfl, rfl, hnext.symm⟩

end Ticks

end System

/-! ## The views -/

def InternalMsg.asViewChange : InternalMsg K → Option (Option ReplicaID × ℕ)
  | .viewChange leader view _ => some (some leader, view.toNat)
  | _ => none

/-- Only a `ViewChange` changes the view, and the leader while there is one. -/
theorem Replica.Acts.view_eq {r r' : Replica K} {msg : InternalMsg K} (h : r.Acts msg r')
    (hmsg : msg.asViewChange = none) (hleader : r.leaderId ≠ none) :
    r'.view = r.view ∧ r'.leaderId = r.leaderId := by
  cases h with
  | follows ctx leader hnone => exact absurd hnone hleader
  | moves leader view listens hview sent hvotes hprops => cases hmsg
  | _ => exact ⟨rfl, rfl⟩

/-- A `ViewChange` to a later view is taken. -/
theorem Task.step_viewChange {t : Task K} {view : ViewNumber} (hrunning : t.running = true)
    (hview : t.replica.view < view) (leader : ReplicaID) (listens : Bool) :
    (t.step (.viewChange leader view listens)).replica.view = view ∧
      (t.step (.viewChange leader view listens)).replica.leaderId = some leader := by
  unfold step Replica.processInternalMsg
  rw [if_pos hrunning]
  dsimp only
  rw [if_pos hview]
  cases listens with
  | false => exact ⟨rfl, rfl⟩
  | true => exact ⟨rfl, rfl⟩

namespace System

/-- The view changes on their way to the replica. -/
def viewChanges (s : System K) : List (Option ReplicaID × ℕ) :=
  (s.stepIn ++ s.blocked.toList).filterMap InternalMsg.asViewChange

/-- The views after that of the replica are on their way. -/
def Underway (leader : Option ReplicaID) (s : System K) : Prop :=
  ∃ k, s.viewChanges = (List.range' (s.task.replica.view.toNat + 1) k).map (fun v => (leader, v)) ∧
    s.task.replica.view.toNat + k ≤ s.pm.view.toNat ∧
    (s.running = true → s.task.replica.view.toNat + k = s.pm.view.toNat)

structure Views (leader : Option ReplicaID) (s : System K) : Prop where
  pmLeader : s.pm.leader = leader
  underway : s.Underway leader
  pos : 1 ≤ s.task.replica.view.toNat
  known : s.task.replica.leaderId ≠ none
  leader_eq : s.task.replica.leaderId =
    if s.task.replica.view.toNat = 1 then some "node-0" else leader

namespace Views

variable {leader : Option ReplicaID} {s s' : System K}

/-- A step without the replica and without the counters of the pacemaker. -/
theorem frame (h : s.Views leader) (hpm : s'.pm = s.pm) (htask : s'.task = s.task)
    (hchanges : s'.viewChanges = s.viewChanges) (hrunning : s'.running = true → s.running = true) :
    s'.Views leader := by
  obtain ⟨hleader, ⟨k, hk, hle, heq⟩, hpos, hknown, hleaderId⟩ := h
  rw [← hpm] at hleader hle heq
  rw [← htask] at hk hle heq hpos hknown hleaderId
  rw [← hchanges] at hk
  exact ⟨hleader, ⟨k, hk, hle, fun hr => heq (hrunning hr)⟩, hpos, hknown, hleaderId⟩

/-- A message of another task. -/
theorem deliver (h : s.Views leader) {msg : InternalMsg K} (hmsg : msg.asViewChange = none) :
    { s with stepIn := s.stepIn ++ [msg] }.Views leader := by
  refine h.frame rfl rfl ?_ id
  unfold viewChanges
  rw [List.filterMap_append, List.filterMap_append, List.filterMap_cons_none hmsg,
    List.filterMap_append]
  exact congrArg (· ++ _) (List.append_nil _)

/-- The pacemaker ends, and with it the message that it waits to send. -/
theorem drop (h : s.Views leader) :
    { s with running := false, blocked := none }.Views leader := by
  obtain ⟨hleader, ⟨k, hk, hle, -⟩, hpos, hknown, hid⟩ := h
  have happend : s.viewChanges = s.stepIn.filterMap InternalMsg.asViewChange ++
      s.blocked.toList.filterMap InternalMsg.asViewChange := List.filterMap_append
  obtain ⟨sent, dropped, hrange, hsent, -⟩ := List.map_eq_append_iff.mp (hk.symm.trans happend)
  obtain ⟨j, hj, rfl, -⟩ := List.range'_eq_append_iff.mp hrange
  refine ⟨hleader, ⟨j, ?_, (Nat.add_le_add_left hj _).trans hle, nofun⟩, hpos, hknown, hid⟩
  unfold viewChanges
  rw [Option.toList_none, List.append_nil]
  exact hsent.symm

/-- A message that is no `ViewChange` leaves the view as it is. -/
theorem process_other (h : s.Views leader) {msg : InternalMsg K} {rest : List (InternalMsg K)}
    (hmsg : msg.asViewChange = none) (hin : s.stepIn = msg :: rest) :
    { s with stepIn := rest, task := s.task.step msg }.Views leader ∧
      (s.task.step msg).replica.view = s.task.replica.view := by
  obtain ⟨hview, hleaderId⟩ := (s.task.step_acts msg).view_eq hmsg h.known
  have hchanges : { s with stepIn := rest, task := s.task.step msg }.viewChanges =
      s.viewChanges := by
    unfold viewChanges
    rw [hin, List.cons_append, List.filterMap_cons_none hmsg]
  obtain ⟨hleader, ⟨k, hk, hle, heq⟩, hpos, hknown, hid⟩ := h
  rw [← hview] at hk hle heq hpos hid
  rw [← hleaderId] at hknown hid
  rw [← hchanges] at hk
  exact ⟨⟨hleader, ⟨k, hk, hle, heq⟩, hpos, hknown, hid⟩, hview⟩

/-- A `ViewChange` is to the next view. -/
theorem process_viewChange (h : s.Views leader) {l : ReplicaID} {v : ViewNumber} {listens : Bool}
    {rest : List (InternalMsg K)} (hrunning : s.task.running = true)
    (hin : s.stepIn = .viewChange l v listens :: rest) :
    { s with stepIn := rest, task := s.task.step (.viewChange l v listens) }.Views leader ∧
      (s.task.step (.viewChange l v listens)).replica.view.toNat =
        s.task.replica.view.toNat + 1 := by
  obtain ⟨hleader, ⟨k, hk, hle, heq⟩, hpos, -, -⟩ := h
  have hcons : s.viewChanges = (some l, v.toNat) ::
      (rest ++ s.blocked.toList).filterMap InternalMsg.asViewChange := by
    unfold viewChanges
    rw [hin]
    rfl
  rw [hcons] at hk
  cases k with
  | zero => cases hk
  | succ k =>
    rw [List.range'_succ, List.map_cons] at hk
    obtain ⟨hhead, htail⟩ := List.cons.inj hk
    obtain ⟨rfl, hv⟩ := Prod.mk.inj hhead
    have hlt : s.task.replica.view < v := by
      rw [UInt64.lt_iff_toNat_lt]
      omega
    obtain ⟨hview, hleaderId⟩ := Task.step_viewChange hrunning hlt l listens
    have hnext := (congrArg UInt64.toNat hview).trans hv
    refine ⟨⟨hleader, ⟨k, ?_, ?_, ?_⟩, ?_, ?_, ?_⟩, hnext⟩
    · rw [hnext]
      exact htail
    · show (s.task.step _).replica.view.toNat + k ≤ s.pm.view.toNat
      omega
    · intro hpm
      have heq := heq hpm
      show (s.task.step _).replica.view.toNat + k = s.pm.view.toNat
      omega
    · rw [hnext]
      omega
    · rw [hleaderId]
      exact Option.some_ne_none l
    · rw [hleaderId, hnext, if_neg (by omega)]

/-- The pacemaker announces each view it goes to. -/
theorem receive (h : s.Views leader) (listens : Bool) {newTick deadline : ℕ} {rest : List (ℕ × ℕ)}
    (hrunning : s.running = true) (hblocked : s.blocked = none)
    (hleader : (s.pm.receive newTick deadline).leader = s.pm.leader)
    (hview : (s.pm.receive newTick deadline).view.toNat = s.pm.view.toNat +
      if (s.pm.receive newTick deadline).touchDeadline = true then 1 else 0) :
    (s.receive listens newTick deadline rest).Views leader := by
  obtain ⟨hpmLeader, ⟨k, hk, hle, heq⟩, hpos, hknown, hid⟩ := h
  have heq := heq hrunning
  rw [hpmLeader] at hleader
  unfold System.receive
  dsimp only
  split
  · rename_i htouch
    rw [if_pos htouch] at hview
    unfold DefaultPacemaker.viewChange
    rw [hleader]
    cases leader with
    | none =>
      refine ⟨hleader, ⟨k, hk, ?_, nofun⟩, hpos, hknown, hid⟩
      show s.task.replica.view.toNat + k ≤ (s.pm.receive newTick deadline).view.toNat
      omega
    | some l =>
      rw [Option.map_some]
      dsimp only
      refine ⟨hleader, ⟨k + 1, ?_, ?_, ?_⟩, hpos, hknown, hid⟩
      · unfold viewChanges at hk ⊢
        rw [hblocked, Option.toList_none, List.append_nil] at hk
        show (s.stepIn ++ [_]).filterMap InternalMsg.asViewChange = _
        rw [List.filterMap_append, hk, List.range'_concat, List.map_append]
        show _ ++ [(some l, (s.pm.receive newTick deadline).view.toNat)] = _ ++ [_]
        rw [hview, ← heq, Nat.one_mul, Nat.add_right_comm]
      · show s.task.replica.view.toNat + (k + 1) ≤ (s.pm.receive newTick deadline).view.toNat
        omega
      · intro _
        show s.task.replica.view.toNat + (k + 1) = (s.pm.receive newTick deadline).view.toNat
        omega
  · rename_i htouch
    rw [if_neg htouch] at hview
    have hsame : s.task.replica.view.toNat + k = (s.pm.receive newTick deadline).view.toNat := by
      omega
    exact ⟨hleader, ⟨k, hk, hsame.le, fun _ => hsame⟩, hpos, hknown, hid⟩

end Views

variable {lifetime step n : ℕ} {leader : Option ReplicaID} {s : System K}

theorem Ticks.receive (h : s.Ticks lifetime step n) (hviews : s.Views leader) (hstep : 0 < step)
    (hword : lifetime + step < 2 ^ 64) (listens : Bool) {newTick deadline : ℕ}
    {rest : List (ℕ × ℕ)} (hrunning : s.running = true) (hblocked : s.blocked = none)
    (hch : s.tickCh = (newTick, deadline) :: rest) :
    (s.receive listens newTick deadline rest).Ticks lifetime step (n + 1) ∧
      (s.receive listens newTick deadline rest).Views leader ∧
      (s.receive listens newTick deadline rest).task = s.task := by
  obtain ⟨rfl, rfl, hlt, hrest, htick, hleader, htouch, hview⟩ := h.receive_pm hstep hword hch
  have hpm : (s.receive listens newTick (deadlineAt step newTick) rest).clock = s.clock ∧
      (s.receive listens newTick (deadlineAt step newTick) rest).tickCh = rest ∧
      (s.receive listens newTick (deadlineAt step newTick) rest).pm =
        s.pm.receive newTick (deadlineAt step newTick) ∧
      (s.receive listens newTick (deadlineAt step newTick) rest).task = s.task := by
    unfold System.receive
    dsimp only
    split
    · split
      · exact ⟨rfl, rfl, rfl, rfl⟩
      · exact ⟨rfl, rfl, rfl, rfl⟩
    · exact ⟨rfl, rfl, rfl, rfl⟩
  obtain ⟨hclock, hch', hpm, htask⟩ := hpm
  refine ⟨?_, ?_, htask⟩
  · refine ⟨?_, ?_, ?_, ?_, ?_, ?_, ?_, ?_⟩
    · rw [hclock, h.ends]
    · rw [hclock, h.every]
    · rw [hclock, h.deadline]
    · rw [hclock]
      exact h.bound
    · rw [hclock]
      exact hlt
    · rw [hclock, hch', hrest]
    · rw [hpm, htick, Nat.add_sub_cancel]
    · rw [hpm, hview, Nat.add_sub_cancel]
  · refine hviews.receive listens hrunning hblocked hleader ?_
    rw [hview, htouch, view_next hstep newTick, h.view]
    simp only [decide_eq_true_eq]

/-- The counters fit together after every step, and the view of the replica is the same as before
or the next one. -/
theorem step_views (hstep : 0 < step) (hword : lifetime + step < 2 ^ 64)
    (hticks : s.Ticks lifetime step n) (hviews : s.Views leader) (a : SystemAction K) :
    (∃ n', (s.step a).Ticks lifetime step n') ∧ (s.step a).Views leader ∧
      ((s.step a).task.replica.view = s.task.replica.view ∨
        (s.step a).task.replica.view.toNat = s.task.replica.view.toNat + 1) := by
  have hstays : (∃ n', s.Ticks lifetime step n') ∧ s.Views leader ∧
      (s.task.replica.view = s.task.replica.view ∨
        s.task.replica.view.toNat = s.task.replica.view.toNat + 1) :=
    ⟨⟨n, hticks⟩, hviews, Or.inl rfl⟩
  cases a with
  | tick =>
    unfold System.step
    dsimp only
    split
    · exact hstays
    · split
      · refine ⟨⟨n, ?_⟩, hviews.frame rfl rfl rfl id, Or.inl rfl⟩
        exact ⟨hticks.ends, hticks.every, hticks.deadline, hticks.bound, hticks.start,
          hticks.waiting, hticks.tick, hticks.view⟩
      · rename_i hgoes
        split
        · have hlt : s.clock.tick < lifetime := by
            rw [← hticks.ends]
            exact lt_of_not_ge fun hge => hgoes (Or.inl hge)
          exact ⟨⟨n, hticks.send hlt⟩, hviews.frame rfl rfl rfl id, Or.inl rfl⟩
        · exact hstays
  | receive listens =>
    unfold System.step
    dsimp only
    split
    · rename_i newTick deadline rest hrunning hblocked hch
      obtain ⟨hticks, hviews, htask⟩ :=
        hticks.receive hviews hstep hword listens hrunning hblocked hch
      exact ⟨⟨n + 1, hticks⟩, hviews, Or.inl (by rw [htask])⟩
    · split
      · exact ⟨⟨n, hticks.frame rfl rfl rfl⟩, hviews.frame rfl rfl rfl nofun, Or.inl rfl⟩
      · exact hstays
    · exact hstays
  | sendViewChange =>
    unfold System.step
    dsimp only
    split
    · rename_i msg hblocked
      split
      · split
        · refine ⟨⟨n, hticks.frame rfl rfl rfl⟩, hviews.frame rfl rfl ?_ id, Or.inl rfl⟩
          unfold viewChanges
          rw [hblocked, Option.toList_none, List.append_nil]
          rfl
        · exact hstays
      · exact ⟨⟨n, hticks.frame rfl rfl rfl⟩, hviews.drop, Or.inl rfl⟩
    · exact hstays
  | deliver msg =>
    cases msg with
    | viewChange l v listens => exact hstays
    | _ =>
      unfold System.step
      dsimp only
      split
      · exact ⟨⟨n, hticks.frame rfl rfl rfl⟩, hviews.deliver rfl, Or.inl rfl⟩
      · exact hstays
  | process =>
    unfold System.step
    dsimp only
    split
    · rename_i msg rest hrunning hin
      cases hmsg : msg.asViewChange with
      | none =>
        obtain ⟨hviews, hview⟩ := hviews.process_other hmsg hin
        exact ⟨⟨n, hticks.frame rfl rfl rfl⟩, hviews, Or.inl hview⟩
      | some change =>
        cases msg with
        | viewChange l v listens =>
          obtain ⟨hviews, hview⟩ := hviews.process_viewChange hrunning hin
          exact ⟨⟨n, hticks.frame rfl rfl rfl⟩, hviews, Or.inr hview⟩
        | _ => cases hmsg
    · exact hstays

/-- In every order of the steps the view of the pacemaker is one more than the number of multiples
of `step` that its ticks have gone through. The view changes on their way to the replica are those
to the views after its own, one each and in order, up to the view of the pacemaker while that
runs; each of them takes the replica one view further, and nothing else does. The leader is
`node-0` in the first view and the one of the pacemaker from then on. -/
theorem views_follow_clock (hstep : 0 < step) (hword : lifetime + step < 2 ^ 64)
    (leader : Option ReplicaID) (selfId : ReplicaID) (signId : SignID) (pks : K.PK) (sks : K.SK)
    (peerConf : Finmap fun _ : ReplicaID => String) (as : List (SystemAction K)) :
    let s := as.foldl System.step (start lifetime step leader (.new selfId signId pks sks peerConf))
    s.pm.view.toNat = 1 + s.pm.tick / step ∧ s.pm.tick ≤ s.clock.tick ∧ s.clock.tick ≤ lifetime ∧
      s.Underway leader ∧
      s.task.replica.leaderId =
        (if s.task.replica.view.toNat = 1 then some "node-0" else leader) ∧
      ∀ a, (s.step a).task.replica.view = s.task.replica.view ∨
        (s.step a).task.replica.view.toNat = s.task.replica.view.toNat + 1 := by
  intro s
  have hstart : (∃ n, (start lifetime step leader
      (.new selfId signId pks sks peerConf : Replica K)).Ticks lifetime step n) ∧
      (start lifetime step leader (.new selfId signId pks sks peerConf : Replica K)).Views leader :=
    ⟨⟨0, rfl, rfl, rfl, Nat.zero_le _, le_rfl, rfl, rfl, by rw [Nat.zero_sub, Nat.zero_div]; rfl⟩,
      rfl, ⟨0, rfl, le_rfl, fun _ => rfl⟩, le_rfl, Option.some_ne_none _, rfl⟩
  have hend : (∃ n, s.Ticks lifetime step n) ∧ s.Views leader := by
    refine Run.foldl_of_kept (I := fun s : System K => (∃ n, s.Ticks lifetime step n) ∧
      s.Views leader) hstart ?_ as
    intro s a hs
    obtain ⟨⟨n, hticks⟩, hviews⟩ := hs
    obtain ⟨hticks, hviews, -⟩ := step_views hstep hword hticks hviews a
    exact ⟨hticks, hviews⟩
  obtain ⟨⟨n, hticks⟩, hviews⟩ := hend
  refine ⟨?_, ?_, hticks.bound, hviews.underway, hviews.leader_eq, ?_⟩
  · rw [hticks.tick]
    exact hticks.view
  · rw [hticks.tick]
    exact (Nat.sub_le _ _).trans hticks.start
  · intro a
    exact (step_views hstep hword hticks hviews a).2.2

end System

namespace Symbolic

open HotstuffConsensus.Symbolic

/-- Six ticks and what follows from the sixth one, which reaches the deadline. -/
def sixTicks : List (SystemAction symbolic) :=
  List.replicate 6 .tick ++ List.replicate 6 (.receive false) ++ [.sendViewChange, .process]

/-- The timer and the pacemaker of `main` with node 0. -/
def clocked : System symbolic := .start 1000 5 (some "node-0") node₀

theorem views_follow_clock_on_sixTicks :
    (sixTicks.foldl System.step clocked).task.replica.view = 2 ∧
      (sixTicks.foldl System.step clocked).pm.view.toNat =
        1 + (sixTicks.foldl System.step clocked).pm.tick / 5 := by
  refine ⟨by decide +kernel, ?_⟩
  unfold clocked node₀
  exact (System.views_follow_clock (by decide) (by decide) (some "node-0") "node-0" 0
    (signaturer 4 0).pks (signaturer 4 0).sks peers sixTicks).1

end Symbolic

end HotstuffConsensus.Prototype
