import HotstuffConsensus.PacemakerCore
import HotstuffConsensus.Growth
import HotstuffConsensus.VoteDurability
import HotstuffConsensus.Lib.ChainSafety

/-!
# One proposal per view

`make_new_proposal` asks for `NewView` messages of `n - f` replicas for the current view, and
throws them away before it makes the proposal. A second proposal in the same view needs a
second set of that size. The two sets share a correct replica, whose message would have been
delivered twice.

The messages are thrown away by `clean_new_view_set(view + 1)`. In the last view of all,
`u64::MAX`, the sum wraps to 0 and nothing is thrown away.
-/

namespace HotstuffConsensus

open Lib

variable {K : Crypto}

/-! ## The senders of `NewView` messages -/

/-- The replicas whose `NewView` messages for `v` are kept. -/
def HotstuffStorage.newViewSenders (s : HotstuffStorage K) (v : ViewNumber) : Finset ReplicaID :=
  (s.newViewSetEntry v).keys

namespace HotstuffStorage

variable (s : HotstuffStorage K)

theorem newViewSetEntry_insert (v w : ViewNumber) (set : Finmap fun _ : ReplicaID => GenericQC K) :
    { s with newViewSet := s.newViewSet.insert w set }.newViewSetEntry v =
      if v = w then set else s.newViewSetEntry v := by
  unfold newViewSetEntry HashMap.entryD
  rw [HashMap.lookup_insert_eq_ite]
  split <;> rfl

theorem newViewSenders_touchNewViewSet (v w : ViewNumber) :
    (s.touchNewViewSet w).newViewSenders v = s.newViewSenders v := by
  unfold newViewSenders touchNewViewSet
  rw [newViewSetEntry_insert]
  split
  · rename_i h
    rw [h]
  · rfl

theorem newViewSenders_insertNewView (v w : ViewNumber) (sender : ReplicaID) (qc : GenericQC K) :
    (s.insertNewView w sender qc).newViewSenders v =
      if v = w then Insert.insert sender (s.newViewSenders v) else s.newViewSenders v := by
  unfold newViewSenders insertNewView
  rw [newViewSetEntry_insert]
  split
  · rename_i h
    rw [HashMap.keys_insert, h]
  · rfl

theorem newViewSenders_cleanNewViewSet (v w : ViewNumber) :
    (s.cleanNewViewSet w).newViewSenders v = if w ≤ v then s.newViewSenders v else ∅ := by
  unfold newViewSenders newViewSetEntry cleanNewViewSet HashMap.entryD
  rw [HashMap.lookup_filterKeys]
  split <;> rfl

theorem newViewSenders_cleanNewViewSet_subset (v w : ViewNumber) :
    (s.cleanNewViewSet w).newViewSenders v ⊆ s.newViewSenders v := by
  rw [newViewSenders_cleanNewViewSet]
  split
  · exact Finset.Subset.refl _
  · exact Finset.empty_subset _

variable {s}

theorem newViewSenders_congr {s' : HotstuffStorage K} (h : s'.newViewSet = s.newViewSet)
    (v : ViewNumber) : s'.newViewSenders v = s.newViewSenders v := by
  unfold newViewSenders newViewSetEntry
  rw [h]

/-- From `s` to `s'` no `NewView` message was added. -/
structure KeepsNewViews (s s' : HotstuffStorage K) : Prop where
  conf : s'.conf = s.conf
  senders : ∀ v, s'.newViewSenders v ⊆ s.newViewSenders v

theorem KeepsNewViews.refl (s : HotstuffStorage K) : KeepsNewViews s s :=
  ⟨rfl, fun _ => Finset.Subset.refl _⟩

theorem KeepsNewViews.trans {s s' s'' : HotstuffStorage K} (h : KeepsNewViews s s')
    (h' : KeepsNewViews s' s'') : KeepsNewViews s s'' :=
  ⟨h'.conf.trans h.conf, fun v => (h'.senders v).trans (h.senders v)⟩

theorem KeepsNewViews.of_eq {s s' : HotstuffStorage K} (hc : s'.conf = s.conf)
    (hn : s'.newViewSet = s.newViewSet) : KeepsNewViews s s' := by
  refine ⟨hc, ?_⟩
  intro v
  rw [newViewSenders_congr hn]

theorem KeepsNewViews.of_liveness {s s' : HotstuffStorage K} (h : s'.liveness = s.liveness) :
    KeepsNewViews s s' := by
  apply KeepsNewViews.of_eq
  · exact congrArg (fun t => t.2.1) h
  · exact congrArg (fun t => t.2.2.2) h

theorem keepsNewViews_appendTc (s : HotstuffStorage K) (tc : TimeoutCertificate K) :
    KeepsNewViews s (s.appendTc tc).1 := by
  have hcompress : ∀ s : HotstuffStorage K, KeepsNewViews s s.compressTc.1 := by
    intro s
    unfold compressTc
    dsimp only
    split
    · exact .refl s
    · split <;> exact .of_eq rfl rfl
  unfold appendTc
  dsimp only
  refine KeepsNewViews.trans ?_ (hcompress _)
  split <;> exact .of_eq rfl rfl

theorem keepsNewViews_asyncFlush (s : HotstuffStorage K) : KeepsNewViews s s.asyncFlush := by
  unfold asyncFlush
  split
  · split
    · exact .of_eq rfl rfl
    · exact .refl s
  · exact .refl s

theorem keepsNewViews_takeTask (s : HotstuffStorage K) : KeepsNewViews s s.takeTask := by
  unfold takeTask
  split
  · exact .of_eq rfl rfl
  · exact .refl s

end HotstuffStorage

/-! ## What a step does to them -/

/-- The operation does not store a `NewView` message. -/
def Op.Quiet : Op K → Prop
  | .newView _ _ _ => False
  | _ => True

theorem Core.apply_keepsNewViews (c : Core K) {op : Op K} (h : op.Quiet) :
    HotstuffStorage.KeepsNewViews c.storage (c.apply op).storage := by
  cases op with
  | goto view =>
    refine ⟨rfl, ?_⟩
    intro v
    exact (c.storage.increaseView (max c.view view)).newViewSenders_cleanNewViewSet_subset v _
  | increaseView => exact .of_eq rfl rfl
  | touch =>
    refine ⟨rfl, ?_⟩
    intro v
    show (c.storage.touchNewViewSet c.view).newViewSenders v ⊆ _
    rw [HotstuffStorage.newViewSenders_touchNewViewSet]
  | clean =>
    refine ⟨rfl, ?_⟩
    intro v
    exact c.storage.newViewSenders_cleanNewViewSet_subset v _
  | newView view sender qc => exact absurd h id
  | appendTc tc => exact HotstuffStorage.keepsNewViews_appendTc _ tc
  | flush => exact HotstuffStorage.keepsNewViews_asyncFlush _
  | flusher => exact HotstuffStorage.keepsNewViews_takeTask _
  | event e => exact .of_liveness (c.machine.processSafetyEvent_liveness e)
  | updateQcHigh node =>
    exact .of_liveness (HotstuffStorage.updateQcHigh_liveness _ node node.justify)

theorem Core.run_keepsNewViews (c : Core K) {ops : List (Op K)} (h : ∀ op ∈ ops, op.Quiet) :
    HotstuffStorage.KeepsNewViews c.storage (c.run ops).storage := by
  induction ops generalizing c with
  | nil => exact .refl _
  | cons op ops ih =>
    have hhead := c.apply_keepsNewViews (h op List.mem_cons_self)
    have htail := ih (c.apply op) fun op' hop' => h op' (List.mem_cons_of_mem _ hop')
    exact hhead.trans htail

namespace Pacemaker

theorem opsOnCheck_quiet (o : Oracle K) (pm : Pacemaker K) (leafHeight : ViewNumber) :
    ∀ op ∈ pm.opsOnCheck o leafHeight, op.Quiet := by
  intro op hop
  obtain ⟨se, rfl⟩ := mem_opsOnCheck hop
  trivial

theorem opsOnTimeout_quiet (o : Oracle K) (pm : Pacemaker K) (timeoutView : ViewNumber) :
    ∀ op ∈ pm.opsOnTimeout o timeoutView, op.Quiet := by
  intro op hop
  rcases mem_opsOnTimeout hop with ⟨tc, rfl⟩ | ⟨view, rfl⟩ | rfl | ⟨-, se, rfl⟩ <;> trivial

theorem opsOnNetwork_quiet (o : Oracle K) (pm : Pacemaker K) (e : PeerEvent K)
    (he : ∀ ctx qc, e ≠ .newView ctx qc) : ∀ op ∈ pm.opsOnNetwork o e, op.Quiet := by
  intro op hop
  unfold opsOnNetwork at hop
  split at hop
  · exact opsOnCheck_quiet o _ _ op hop
  · rw [List.mem_singleton.mp hop]
    trivial
  · cases hop
  · rcases List.mem_cons.mp hop with rfl | hop
    · trivial
    · split at hop
      · exact opsOnTimeout_quiet o _ _ op hop
      · cases hop
  · cases hop
  · rw [List.mem_singleton.mp hop]
    trivial
  · cases hop
  · cases hop
  · exact absurd rfl (he _ _)

theorem opsOnReady_quiet (o : Oracle K) (pm : Pacemaker K) (r : Ready K) :
    ∀ op ∈ pm.opsOnReady o r, op.Quiet := by
  intro op hop
  rcases mem_opsOnReady hop with ⟨ctx, node, -, rfl⟩ | ⟨tc, rfl⟩ | ⟨view, rfl⟩ | rfl |
    ⟨-, se, rfl⟩ <;> trivial

theorem opsOnFetch_quiet (pm : Pacemaker K) (cmds : List Txn) :
    ∀ op ∈ pm.opsOnFetch cmds, op.Quiet := by
  intro op hop
  unfold opsOnFetch at hop
  rcases List.mem_cons.mp hop with rfl | hop
  · trivial
  · split at hop
    · simp only [List.mem_cons, List.not_mem_nil, or_false] at hop
      rcases hop with rfl | rfl <;> trivial
    · cases hop

/-- `make_new_proposal` returns a proposal when there is a quorum. -/
theorem makeNewProposal_isSome {pm : Pacemaker K} {cmds : List Txn} :
    (pm.makeNewProposal cmds).2.isSome = true ↔ pm.hasQuorum := by
  unfold makeNewProposal
  dsimp only
  split
  · rename_i hle
    constructor
    · intro h
      cases h
    · intro h
      exact absurd hle (not_le.mpr h)
  · rename_i hlt
    constructor
    · intro _
      exact not_le.mp hlt
    · intro _
      rfl

end Pacemaker

namespace EventLoop

/-- The `NewView` message a step delivers: its view and its sender. -/
def delivers (l : EventLoop K) (a : LoopAction K) : Option (ViewNumber × ReplicaID) :=
  match l.phase, a with
  | .select, .network _ (.newView ctx _) => some (ctx.view, ctx.sender)
  | _, _ => none

/-- The view in which a step has `make_new_proposal` return `Some`. -/
def proposes (l : EventLoop K) (a : LoopAction K) : Option ViewNumber :=
  match l.phase, a with
  | .top, .fetch (some cmds) =>
    if ((l.pm.onStorage fun s => s.touchNewViewSet l.pm.view).makeNewProposal cmds).2.isSome then
      some l.pm.view
    else none
  | _, _ => none

def storage (l : EventLoop K) : HotstuffStorage K := l.pm.machine.storage

/-- What a step does to the `NewView` messages. -/
inductive NewViewStep (l : EventLoop K) (a : LoopAction K) (s' : HotstuffStorage K) : Prop
  /-- One is delivered. -/
  | deliver (v : ViewNumber) (sender : ReplicaID) (hd : l.delivers a = some (v, sender))
      (hp : l.proposes a = none) (hc : s'.conf = l.storage.conf)
      (hs : ∀ w, s'.newViewSenders w =
        if w = v then insert sender (l.storage.newViewSenders w) else l.storage.newViewSenders w)
  /-- A quorum for the current view is found, and thrown away. -/
  | propose (hd : l.delivers a = none) (hp : l.proposes a = some l.pm.view)
      (hk : HotstuffStorage.KeepsNewViews l.storage s')
      (hq : l.storage.threshold < (l.storage.newViewSenders l.pm.view).card)
      (hclean : l.pm.view ≠ U64.maxValue → s'.newViewSenders l.pm.view = ∅)
  /-- None is added. -/
  | quiet (hd : l.delivers a = none) (hp : l.proposes a = none)
      (hk : HotstuffStorage.KeepsNewViews l.storage s')

theorem newViewStep_deliver (l : EventLoop K) (o : Oracle K) (ctx : Context) (qc : GenericQC K)
    (hphase : l.phase = .select) :
    NewViewStep l (.network o (.newView ctx qc))
      (l.core.run (l.ops (.network o (.newView ctx qc)))).storage := by
  have hops : l.ops (.network o (.newView ctx qc)) =
      [.newView ctx.view ctx.sender qc, .event (.recvNewViewMsg ctx qc)] := by
    simp only [ops, hphase]
    rfl
  have hlive := Machine.processSafetyEvent_liveness
    { l.pm.machine with storage := l.storage.insertNewView ctx.view ctx.sender qc }
    (.recvNewViewMsg ctx qc)
  rw [hops]
  refine .deliver ctx.view ctx.sender ?_ ?_ ?_ ?_
  · simp only [delivers, hphase]
  · simp only [proposes, hphase]
  · exact congrArg (fun t => t.2.1) hlive
  · intro w
    rw [← HotstuffStorage.newViewSenders_insertNewView]
    exact HotstuffStorage.newViewSenders_congr (congrArg (fun t => t.2.2.2) hlive) w

theorem newViewStep_fetch (l : EventLoop K) (cmds : List Txn) (hphase : l.phase = .top) :
    NewViewStep l (.fetch (some cmds)) (l.core.run (l.ops (.fetch (some cmds)))).storage := by
  have hd : l.delivers (.fetch (some cmds)) = none := by simp only [delivers, hphase]
  have hkeep : HotstuffStorage.KeepsNewViews l.storage
      (l.core.run (l.ops (.fetch (some cmds)))).storage := by
    refine l.core.run_keepsNewViews ?_
    intro op hop
    simp only [ops, hphase] at hop
    rcases List.mem_cons.mp hop with rfl | hop
    · trivial
    · exact Pacemaker.opsOnFetch_quiet _ cmds op hop
  by_cases hq : (l.pm.onStorage fun s => s.touchNewViewSet l.pm.view).hasQuorum
  · have hp : l.proposes (.fetch (some cmds)) = some l.pm.view := by
      simp only [proposes, hphase]
      rw [if_pos (Pacemaker.makeNewProposal_isSome.mpr hq)]
    have hops : l.ops (.fetch (some cmds)) = [.touch, .touch, .clean, .event (.newTx cmds)] := by
      simp only [ops, hphase, Pacemaker.opsOnFetch]
      rw [if_pos hq]
    refine .propose hd hp hkeep ?_ ?_
    · unfold Pacemaker.hasQuorum at hq
      rw [← HashMap.card_keys] at hq
      rw [← HotstuffStorage.newViewSenders_touchNewViewSet _ _ l.pm.view]
      exact hq
    · intro hmax
      rw [hops]
      -- the beat does not touch what the cleaning leaves
      show ((l.storage.touchNewViewSet l.pm.view).touchNewViewSet l.pm.view |>.cleanNewViewSet
        (l.pm.view + 1)).newViewSenders l.pm.view = ∅
      rw [HotstuffStorage.newViewSenders_cleanNewViewSet]
      exact if_neg (not_le.mpr (U64.lt_add_one hmax))
  · refine .quiet hd ?_ hkeep
    simp only [proposes, hphase]
    rw [if_neg fun h => hq (Pacemaker.makeNewProposal_isSome.mp h)]

theorem step_newViewStep (C : Codec K) (l : EventLoop K) (a : LoopAction K) :
    NewViewStep l a (step C l a).storage := by
  have hcore : (step C l a).storage = (l.core.run (l.ops a)).storage :=
    congrArg Core.storage (step_core C l a)
  rw [hcore]
  by_cases hnew : l.phase = .select ∧ ∃ o ctx qc, a = .network o (.newView ctx qc)
  · obtain ⟨hphase, o, ctx, qc, rfl⟩ := hnew
    exact newViewStep_deliver l o ctx qc hphase
  by_cases hfetch : l.phase = .top ∧ ∃ cmds, a = .fetch (some cmds)
  · obtain ⟨hphase, cmds, rfl⟩ := hfetch
    exact newViewStep_fetch l cmds hphase
  have hd : l.delivers a = none := by
    unfold delivers
    split
    · rename_i hphase
      exact absurd ⟨hphase, _, _, _, rfl⟩ hnew
    · rfl
  have hp : l.proposes a = none := by
    unfold proposes
    split
    · rename_i hphase
      exact absurd ⟨hphase, _, rfl⟩ hfetch
    · rfl
  refine .quiet hd hp (l.core.run_keepsNewViews ?_)
  intro op hop
  unfold ops at hop
  split at hop
  · rw [List.mem_singleton.mp hop]
    trivial
  · rename_i hphase
    exact absurd ⟨hphase, _, rfl⟩ hfetch
  · rw [List.mem_singleton.mp hop]
    trivial
  · rename_i o e hphase
    refine Pacemaker.opsOnNetwork_quiet o l.pm e ?_ op hop
    intro ctx qc he
    exact hnew ⟨hphase, o, ctx, qc, by rw [he]⟩
  · exact Pacemaker.opsOnTimeout_quiet _ l.pm _ op hop
  · split at hop
    · cases hop
    · exact Pacemaker.opsOnReady_quiet _ _ _ op hop
  · rw [List.mem_singleton.mp hop]
    trivial
  · rw [List.mem_singleton.mp hop]
    trivial
  · cases hop

end EventLoop

/-! ## Runs -/

/-- A loop with the `NewView` messages delivered and the views of the proposals made so far. -/
structure Observed (K : Crypto) where
  loop : EventLoop K
  delivered : List (ViewNumber × ReplicaID)
  proposed : List ViewNumber

namespace Observed

def start (l : EventLoop K) : Observed K := ⟨l, [], []⟩

def step (C : Codec K) (o : Observed K) (a : LoopAction K) : Observed K :=
  ⟨EventLoop.step C o.loop a, o.delivered ++ (o.loop.delivers a).toList,
    o.proposed ++ (o.loop.proposes a).toList⟩

/-- The replicas with a delivered `NewView` message for `v`. -/
def senders (o : Observed K) (v : ViewNumber) : Finset ReplicaID :=
  ((o.delivered.filter fun d => d.1 = v).map Prod.snd).toFinset

/-- The messages come from the replicas, and each correct replica's message for a view comes at
most once. -/
def Allowed (replicas faulty : Finset ReplicaID) (o : Observed K) (a : LoopAction K) : Prop :=
  ∀ d ∈ o.loop.delivers a, d.2 ∈ replicas ∧ (d.2 ∉ faulty → d.2 ∉ o.senders d.1)

instance decidableAllowed (replicas faulty : Finset ReplicaID) (o : Observed K)
    (a : LoopAction K) : Decidable (Allowed replicas faulty o a) :=
  inferInstanceAs (Decidable (∀ d ∈ o.loop.delivers a,
    d.2 ∈ replicas ∧ (d.2 ∉ faulty → d.2 ∉ o.senders d.1)))

/-- At most one proposal was made in a view other than `u64::MAX`, and none in any view without
`NewView` messages of `n - f` replicas. -/
structure OnePerView (n : ℕ) (o : Observed K) : Prop where
  once : ∀ v, v ≠ U64.maxValue → o.proposed.count v ≤ 1
  quorum : ∀ v ∈ o.proposed, n - (n - 1) / 3 ≤ (o.senders v).card

theorem mem_senders {o : Observed K} {v : ViewNumber} {sender : ReplicaID} :
    sender ∈ o.senders v ↔ (v, sender) ∈ o.delivered := by
  unfold senders
  rw [List.mem_toFinset, List.mem_map]
  constructor
  · rintro ⟨⟨w, r⟩, hd, rfl⟩
    rw [List.mem_filter] at hd
    have hw : w = v := of_decide_eq_true hd.2
    rw [← hw]
    exact hd.1
  · intro h
    exact ⟨(v, sender), List.mem_filter.mpr ⟨h, decide_eq_true rfl⟩, rfl⟩

/-- Messages are not forgotten. -/
theorem senders_subset_step (C : Codec K) (o : Observed K) (a : LoopAction K) (v : ViewNumber) :
    o.senders v ⊆ (o.step C a).senders v := by
  intro sender h
  rw [mem_senders] at h ⊢
  exact List.mem_append_left _ h

/-- What holds in every state of a run. -/
structure Invariant (replicas faulty : Finset ReplicaID) (o : Observed K) : Prop where
  total : o.loop.storage.conf.total = replicas.card
  kept : ∀ v, o.loop.storage.newViewSenders v ⊆ o.senders v
  known : ∀ v, o.senders v ⊆ replicas
  quorum : ∀ v ∈ o.proposed, replicas.card - (replicas.card - 1) / 3 ≤ (o.senders v).card
  /-- After a proposal in `v`, what is kept for `v` and was used already comes from faulty
  replicas. -/
  once : ∀ v, v ≠ U64.maxValue → v ∉ o.proposed ∨ o.proposed.count v = 1 ∧
    ∃ used, used ⊆ o.senders v ∧ 2 * replicas.card / 3 < used.card ∧
      ∀ r ∈ used, r ∈ o.loop.storage.newViewSenders v → r ∈ faulty

variable {replicas faulty : Finset ReplicaID} {C : Codec K} {o : Observed K} {a : LoopAction K}

theorem threshold_eq (h : Invariant replicas faulty o) :
    o.loop.storage.threshold = 2 * replicas.card / 3 := by
  unfold HotstuffStorage.threshold
  rw [h.total, Nat.shiftLeft_eq, Nat.mul_comm]

/-- A step that adds no message and makes no proposal. -/
theorem Invariant.quiet (h : Invariant replicas faulty o) (hd : o.loop.delivers a = none)
    (hp : o.loop.proposes a = none)
    (hk : HotstuffStorage.KeepsNewViews o.loop.storage (EventLoop.step C o.loop a).storage) :
    Invariant replicas faulty (o.step C a) := by
  have hsenders : ∀ v, (o.step C a).senders v = o.senders v := by
    intro v
    unfold senders step
    rw [hd, Option.toList_none, List.append_nil]
  have hproposed : (o.step C a).proposed = o.proposed := by
    unfold step
    rw [hp, Option.toList_none, List.append_nil]
  refine ⟨?_, ?_, ?_, ?_, ?_⟩
  · show (EventLoop.step C o.loop a).storage.conf.total = _
    rw [hk.conf]
    exact h.total
  · intro v
    rw [hsenders]
    exact (hk.senders v).trans (h.kept v)
  · intro v
    rw [hsenders]
    exact h.known v
  · intro v hv
    rw [hproposed] at hv
    rw [hsenders]
    exact h.quorum v hv
  · intro v hv
    rw [hproposed, hsenders]
    rcases h.once v hv with hno | ⟨hcount, used, hsub, hcard, hfaulty⟩
    · exact Or.inl hno
    · exact Or.inr ⟨hcount, used, hsub, hcard, fun r hr hkept => hfaulty r hr (hk.senders v hkept)⟩

/-- A delivery. -/
theorem Invariant.deliver (h : Invariant replicas faulty o) {v : ViewNumber} {sender : ReplicaID}
    (hd : o.loop.delivers a = some (v, sender)) (hp : o.loop.proposes a = none)
    (hc : (EventLoop.step C o.loop a).storage.conf = o.loop.storage.conf)
    (hs : ∀ w, (EventLoop.step C o.loop a).storage.newViewSenders w =
      if w = v then insert sender (o.loop.storage.newViewSenders w)
      else o.loop.storage.newViewSenders w)
    (hmem : sender ∈ replicas) (honce : sender ∉ faulty → sender ∉ o.senders v) :
    Invariant replicas faulty (o.step C a) := by
  have hdelivered : ∀ w r, r ∈ (o.step C a).senders w ↔
      r ∈ o.senders w ∨ (w = v ∧ r = sender) := by
    intro w r
    rw [mem_senders, mem_senders]
    unfold step
    rw [hd, Option.toList_some, List.mem_append, List.mem_singleton, Prod.mk.injEq]
  have hkept : ∀ w r, r ∈ (EventLoop.step C o.loop a).storage.newViewSenders w →
      r ∈ o.loop.storage.newViewSenders w ∨ (w = v ∧ r = sender) := by
    intro w r hr
    rw [hs] at hr
    split at hr
    · rename_i hw
      rcases Finset.mem_insert.mp hr with hr | hr
      · exact Or.inr ⟨hw, hr⟩
      · exact Or.inl hr
    · exact Or.inl hr
  have hproposed : (o.step C a).proposed = o.proposed := by
    unfold step
    rw [hp, Option.toList_none, List.append_nil]
  refine ⟨?_, ?_, ?_, ?_, ?_⟩
  · show (EventLoop.step C o.loop a).storage.conf.total = _
    rw [hc]
    exact h.total
  · intro w r hr
    rw [hdelivered]
    rcases hkept w r hr with hr | hr
    · exact Or.inl (h.kept w hr)
    · exact Or.inr hr
  · intro w r hr
    rcases (hdelivered w r).mp hr with hr | ⟨-, hr⟩
    · exact h.known w hr
    · rw [hr]
      exact hmem
  · intro w hw
    rw [hproposed] at hw
    exact (h.quorum w hw).trans (Finset.card_le_card (o.senders_subset_step C a w))
  · intro w hw
    rw [hproposed]
    rcases h.once w hw with hno | ⟨hcount, used, hsub, hcard, hfaulty⟩
    · exact Or.inl hno
    · refine Or.inr ⟨hcount, used, hsub.trans (o.senders_subset_step C a w), hcard, ?_⟩
      intro r hr hkeep
      rcases hkept w r hkeep with hkeep | ⟨rfl, rfl⟩
      · exact hfaulty r hr hkeep
      · -- a used message that comes again comes from a faulty replica
        by_contra hcorrect
        exact honce hcorrect (hsub hr)

/-- A proposal. -/
theorem Invariant.propose (h : Invariant replicas faulty o)
    (hfaulty : faulty.card ≤ (replicas.card - 1) / 3)
    (hd : o.loop.delivers a = none) (hp : o.loop.proposes a = some o.loop.pm.view)
    (hk : HotstuffStorage.KeepsNewViews o.loop.storage (EventLoop.step C o.loop a).storage)
    (hq : o.loop.storage.threshold < (o.loop.storage.newViewSenders o.loop.pm.view).card)
    (hclean : o.loop.pm.view ≠ U64.maxValue →
      (EventLoop.step C o.loop a).storage.newViewSenders o.loop.pm.view = ∅) :
    Invariant replicas faulty (o.step C a) := by
  rw [threshold_eq h] at hq
  have hsenders : ∀ v, (o.step C a).senders v = o.senders v := by
    intro v
    unfold senders step
    rw [hd, Option.toList_none, List.append_nil]
  have hproposed : (o.step C a).proposed = o.proposed ++ [o.loop.pm.view] := by
    unfold step
    rw [hp, Option.toList_some]
  have hsub : o.loop.storage.newViewSenders o.loop.pm.view ⊆ o.senders o.loop.pm.view :=
    h.kept o.loop.pm.view
  refine ⟨?_, ?_, ?_, ?_, ?_⟩
  · show (EventLoop.step C o.loop a).storage.conf.total = _
    rw [hk.conf]
    exact h.total
  · intro v
    rw [hsenders]
    exact (hk.senders v).trans (h.kept v)
  · intro v
    rw [hsenders]
    exact h.known v
  · intro v hv
    rw [hproposed] at hv
    rw [hsenders]
    rcases List.mem_append.mp hv with hv | hv
    · exact h.quorum v hv
    · rw [List.mem_singleton.mp hv]
      have hle := Finset.card_le_card hsub
      omega
  · intro v hv
    rw [hproposed, hsenders]
    by_cases hview : v = o.loop.pm.view
    · subst hview
      rcases h.once _ hv with hno | ⟨-, used, hused, hcard, hrepeat⟩
      · refine Or.inr ⟨?_, _, hsub, hq, ?_⟩
        · rw [List.count_append, List.count_eq_zero_of_not_mem hno, List.count_singleton_self]
        · intro r _ hr
          have hnone : r ∈ (∅ : Finset ReplicaID) := by
            rw [← hclean hv]
            exact hr
          cases hnone
      · -- a correct replica is in both quorums
        obtain ⟨r, hr, hr', hcorrect⟩ := ChainSafety.exists_correct_inter rfl hfaulty
          (hused.trans (h.known _)) (hsub.trans (h.known _)) hcard hq
        exact absurd (hrepeat r hr hr') hcorrect
    · rcases h.once v hv with hno | ⟨hcount, used, hused, hcard, hrepeat⟩
      · refine Or.inl ?_
        rw [List.mem_append, List.mem_singleton]
        rintro (h1 | h2)
        · exact hno h1
        · exact hview h2
      · refine Or.inr ⟨?_, used, hused, hcard, fun r hr hkept => hrepeat r hr (hk.senders v hkept)⟩
        rw [List.count_append, hcount, List.count_singleton, if_neg]
        simpa using fun h => hview h.symm

theorem Invariant.step (h : Invariant replicas faulty o)
    (hfaulty : faulty.card ≤ (replicas.card - 1) / 3) (ha : Allowed replicas faulty o a) :
    Invariant replicas faulty (o.step C a) := by
  cases EventLoop.step_newViewStep C o.loop a with
  | deliver v sender hd hp hc hs =>
    obtain ⟨hmem, honce⟩ := ha (v, sender) hd
    exact h.deliver hd hp hc hs hmem honce
  | propose hd hp hk hq hclean => exact h.propose hfaulty hd hp hk hq hclean
  | quiet hd hp hk => exact h.quiet hd hp hk

theorem Invariant.onePerView (h : Invariant replicas faulty o) : OnePerView replicas.card o := by
  refine ⟨?_, h.quorum⟩
  intro v hv
  rcases h.once v hv with hno | ⟨hcount, -⟩
  · rw [List.count_eq_zero_of_not_mem hno]
    exact Nat.zero_le 1
  · exact hcount.le

theorem start_invariant {l : EventLoop K} (hn : l.storage.conf.total = replicas.card)
    (hempty : ∀ v, l.storage.newViewSenders v = ∅) :
    Invariant replicas faulty (start l) := by
  refine ⟨hn, ?_, ?_, ?_, ?_⟩
  · intro v
    show l.storage.newViewSenders v ⊆ _
    rw [hempty]
    exact Finset.empty_subset _
  · intro v
    exact Finset.empty_subset _
  · intro v hv
    cases hv
  · intro v _
    exact Or.inl List.not_mem_nil

/-- In every run of a pacemaker over a fresh storage of `n` replicas, at most `f` of them faulty,
at most one proposal is made in each view other than `u64::MAX`, and each is preceded by `NewView`
messages of `n - f` replicas for its view. -/
theorem one_proposal_per_view (C : Codec K) (id : ReplicaID) (elector : RoundRobinLeaderElector)
    (machine : Machine K) (signaturer : DefaultSignaturer K) (db : Database)
    (hfresh : FreshStorage machine.storage) (replicas faulty : Finset ReplicaID)
    (hn : machine.storage.conf.total = replicas.card)
    (hfaulty : faulty.card ≤ (replicas.card - 1) / 3) (as : List (LoopAction K))
    (hallowed : Run.Each (step C) (Allowed replicas faulty)
      (start (.start (.new id elector machine signaturer) db)) as) :
    OnePerView replicas.card
      (as.foldl (step C) (start (.start (.new id elector machine signaturer) db))) := by
  have hstart : Invariant replicas faulty
      (start (.start (.new id elector machine signaturer) db)) := by
    refine start_invariant hn ?_
    intro v
    have hsub := machine.storage.increaseView (max 0 1) |>.newViewSenders_cleanNewViewSet_subset
      v (max 0 1)
    have hempty : machine.storage.newViewSenders v = ∅ := by
      unfold HotstuffStorage.newViewSenders HotstuffStorage.newViewSetEntry
      rw [hfresh.newViewSet_eq]
      rfl
    exact Finset.subset_empty.mp (hsub.trans hempty.subset)
  have hend := Run.foldl_of_invariant hstart hallowed fun o a h ha => h.step hfaulty ha
  exact hend.onePerView

end Observed

namespace Literal

open Observed

def replicas : Finset ReplicaID := {"replica-0", "replica-1", "replica-2", "replica-3"}

/-- The `NewView` messages of replicas 1, 2 and 3 for `view`. -/
def newViews (view : ViewNumber) : List (LoopAction literal) :=
  ["replica-1", "replica-2", "replica-3"].flatMap fun sender =>
    round (.network oracle (.newView (.single sender conf.replicaId view) (initQc literal))) 1

/-- A round in which the loop is asked for a proposal. -/
def proposal : List (LoopAction literal) :=
  [.fetch (some []), .quit, .ready oracle, .ready oracle]

/-- Replica 0 makes one proposal in view 1, however often it is asked. -/
theorem one_proposal_in_view_one :
    ((newViews 1 ++ proposal ++ proposal).foldl (step codec) (start loop₀)).proposed = [1] ∧
      OnePerView replicas.card
        ((newViews 1 ++ proposal ++ proposal).foldl (step codec) (start loop₀)) := by
  refine ⟨by decide +kernel, ?_⟩
  exact one_proposal_per_view codec _ _ _ _ _ (.database _ _ _ _ _) replicas
    {"replica-3"} (by decide +kernel) (by decide +kernel) _ (by decide +kernel)

/-- A proposal of height `u64::MAX - 1` takes the replica to the last view, where it makes two
proposals with the same messages. -/
def lastViewRun : List (LoopAction literal) :=
  round (.network oracle (.newProposal ctx (blockAt (U64.maxValue - 1)))) 1 ++
    newViews U64.maxValue ++ proposal ++ proposal

theorem two_proposals_in_last_view :
    FreshStorage storage₀ ∧ storage₀.conf.total = replicas.card ∧
      Run.Each (step codec) (Allowed replicas {"replica-3"}) (start loop₀) lastViewRun ∧
      ¬ ∀ v, (lastViewRun.foldl (step codec) (start loop₀)).proposed.count v ≤ 1 := by
  refine ⟨.database _ _ _ _ _, by decide +kernel, by decide +kernel, ?_⟩
  have hproposed : (lastViewRun.foldl (step codec) (start loop₀)).proposed =
      [U64.maxValue, U64.maxValue] := by decide +kernel
  intro h
  have hcount := h U64.maxValue
  rw [hproposed] at hcount
  exact absurd hcount (by decide)

end Literal

end HotstuffConsensus
