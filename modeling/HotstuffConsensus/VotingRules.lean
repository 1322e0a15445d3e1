import HotstuffConsensus.CertifiedStore

/-!
# The steps of a replica and the voting rules

`stepOk` collects the tests of `CertifiedStore` for each step of a driven replica; a step
that passes keeps the invariant (`step_progress`).

A replica signs in two places. `on_recv_proposal` signs what it accepts, after it compared
the proposal with the lock, and moves the lock afterwards. `on_beat` signs the replica's
own proposal, compares it with nothing and leaves the lock where it is.
-/

namespace HotstuffConsensus

open Lib Relation

variable {K : Crypto}

/-- `safe_node` with `z` in the place of the lock. -/
def Machine.safeFor (m : Machine K) (z x : TreeNode K) : Bool :=
  match m.storage.get x.justify.node with
  | some j => !m.storage.isConflicting x z || decide (z.height < j.height)
  | none => false

namespace Driver

/-- What is asked of a step, whether it signs or not. -/
def stepOk (d : Driver K) : Drive K → Bool
  | .event (.recvProposal _ p) =>
    match d.machine.verifyProposal p.justify with
    | .ok _ => d.machine.propOk p
    | .error _ => true
  | .event (.branchSync _ branch) => d.machine.branchOk branch
  | .event (.recvSign ctx prop sign) => d.machine.voteOk ctx prop sign
  | .event (.newTx cmds) =>
    d.machine.genuine d.storage.state.qcHigh && d.storage.keepsJustify (d.machine.makeLeaf cmds)
  | _ => true

/-- The certificates a step may validate. -/
def certificates (d : Driver K) : Drive K → List (GenericQC K)
  | .event (.recvProposal _ p) => [p.justify]
  | .event (.branchSync _ branch) => branch.map TreeNode.justify
  | .event (.recvSign _ prop _) => [prop.justify]
  | .event (.newTx _) => [d.storage.state.qcHigh]
  | _ => []

/-- The proposal a step signs, and whether in a beat. -/
def signs (d : Driver K) : Drive K → Option (TreeNode K × Bool)
  | .event (.newTx cmds) => some (d.machine.makeLeaf cmds, true)
  | .event (.recvProposal ctx p) =>
    (d.machine.signs (.event (.recvProposal ctx p))).map fun x => (x, false)
  | _ => none

variable {U : Set (TreeNode K)} {C C' : NodeHash → NodeHash → Prop} {d : Driver K} {a : Drive K}

/-- `Sane`, and the produced nodes are known. -/
structure Sane (U : Set (TreeNode K)) (C : NodeHash → NodeHash → Prop) (d : Driver K) : Prop where
  storage : HotstuffConsensus.Sane U C d.storage
  produced : ∀ x ∈ d.produced, x ∈ U ∧ Knows d.storage x.hash x.justify.node

/-- The certificates of the step are valid only for blocks that a quorum signed. -/
def Backed (U : Set (TreeNode K)) (C : NodeHash → NodeHash → Prop) (d : Driver K)
    (a : Drive K) : Prop :=
  ∀ qc ∈ d.certificates a, ∀ y ∈ U,
    d.machine.voter.validateQc y qc.combinedSign = true → C y.hash y.justify.node

/-- Calls that write neither store, leaf, lock nor commit. -/
theorem step_progress_of_eq (h : d.Sane U C)
    (hq : (d.step a).storage.inMemQueue = d.storage.inMemQueue)
    (hst : ∃ v, (d.step a).storage.state = { d.storage.state with currentView := v }) :
    Progress U C d.storage (d.step a).storage := by
  obtain ⟨v, hst⟩ := hst
  exact .of_eq h.storage hq (by rw [hst]) (by rw [hst]) (by rw [hst])

theorem step_progress_recvProposal (hU : HashSound U) {ctx : Context} {p : TreeNode K}
    (h : d.Sane U C) (hw : Within U d (.event (.recvProposal ctx p)))
    (hsig : d.Backed U C (.event (.recvProposal ctx p)))
    (hok : d.stepOk (.event (.recvProposal ctx p)) = true) :
    Progress U C d.storage (d.step (.event (.recvProposal ctx p))).storage := by
  show Progress U C d.storage (d.machine.onRecvProposal ctx p p.justify).1.storage
  rw [Machine.onRecvProposal_eq]
  dsimp only [stepOk] at hok
  cases hv : d.machine.verifyProposal p.justify with
  | error e => exact .refl h.storage
  | ok r =>
    rw [hv] at hok
    dsimp only at hok ⊢
    have hp : p ∈ U := hw p (List.mem_singleton.mpr rfl)
    have hb : Backs C d.storage p.justify.node := Machine.backs_of_genuine h.storage
      (hsig p.justify (List.mem_singleton.mpr rfl)) (Machine.genuine_of_propOk hok)
    exact (Machine.processProp_progress hU h.storage hp hb hok).1

theorem step_progress_recvSign {ctx : Context} {prop : TreeNode K} {sign : SignKit K}
    (h : d.Sane U C) (hw : Within U d (.event (.recvSign ctx prop sign)))
    (hsig : d.Backed U C (.event (.recvSign ctx prop sign)))
    (hok : d.stepOk (.event (.recvSign ctx prop sign)) = true) :
    Progress U C d.storage (d.step (.event (.recvSign ctx prop sign))).storage := by
  show Progress U C d.storage (d.machine.onRecvVote ctx prop sign).1.storage
  rcases d.machine.onRecvVote_cases ctx prop sign with ⟨c, hquorum, -, hs⟩ | ⟨-, -, hs⟩
  · rw [hs]
    refine Machine.updateQcHigh_progress h.storage _ (hw prop (List.mem_singleton.mpr rfl)) ?_
    intro hr
    have hraises : d.machine.storage.raises prop = true := HotstuffStorage.raises_eq_true hr
    dsimp only [stepOk, Machine.voteOk] at hok
    rw [hquorum, hraises, Option.isNone_some, Bool.not_true, Bool.false_or, Bool.false_or,
      Bool.and_eq_true, Bool.or_eq_true] at hok
    obtain ⟨hkeep, hold | hnew⟩ := hok
    · exact ⟨hkeep, Or.inl (knows_of_keepsJustify hkeep hold)⟩
    · exact ⟨hkeep, Or.inr (Machine.backs_of_genuine h.storage
        (hsig prop.justify (List.mem_singleton.mpr rfl)) hnew)⟩
  · rw [hs]
    exact .refl h.storage

theorem step_progress_newTx {cmds : List Txn} (h : d.Sane U C)
    (hw : Within U d (.event (.newTx cmds))) (hsig : d.Backed U C (.event (.newTx cmds)))
    (hok : d.stepOk (.event (.newTx cmds)) = true) :
    Progress U C d.storage (d.step (.event (.newTx cmds))).storage := by
  unfold stepOk at hok
  rw [Bool.and_eq_true] at hok
  obtain ⟨hgen, hkeep⟩ := hok
  have hb : Backs C d.storage d.storage.state.qcHigh.node :=
    Machine.backs_of_genuine h.storage (hsig _ (List.mem_singleton.mpr rfl)) hgen
  have hq : (d.step (.event (.newTx cmds))).storage.inMemQueue =
      d.storage.inMemQueue.insert (d.machine.makeLeaf cmds).hash (d.machine.makeLeaf cmds) := rfl
  refine ⟨h.storage.write (makeLeaf_mem hw) hkeep (Or.inr hb) hq (Or.inr rfl) rfl rfl, ?_,
    le_refl _⟩
  exact fun _ _ hk => hk.write hkeep hq

theorem step_progress_recvNewViewMsg {ctx : Context} {qc : GenericQC K} (h : d.Sane U C) :
    Progress U C d.storage (d.step (.event (.recvNewViewMsg ctx qc))).storage := by
  show Progress U C d.storage (d.machine.onRecvNewView qc).1.storage
  rcases d.machine.onRecvNewView_cases qc with ⟨-, hsame⟩ | ⟨node, hn, hraise⟩
  · rw [hsame]
    exact .refl h.storage
  · rw [hraise]
    have hstored : d.storage.get node.hash = some node := by
      rw [h.storage.keyed _ node hn]
      exact hn
    have hk : Knows d.storage node.hash node.justify.node := ⟨node, hstored, rfl⟩
    exact Machine.updateQcHigh_progress h.storage qc (h.storage.within _ node hn)
      fun _ => ⟨hk.keepsJustify, Or.inl hk⟩

theorem step_progress_ready {i : ℕ} (h : d.Sane U C) :
    Progress U C d.storage (d.step (.ready i)).storage := by
  rcases d.step_ready_cases i with ⟨-, hstep⟩ | ⟨node, hnode, hstep⟩
  · rw [hstep]
    exact .refl h.storage
  · rw [hstep]
    obtain ⟨hmem, hk⟩ := h.produced node (List.mem_of_getElem? hnode)
    have hp := Machine.updateQcHigh_progress h.storage node.justify hmem
      fun _ => ⟨hk.keepsJustify, Or.inl hk⟩
    exact hp.trans (.of_eq hp.sane rfl rfl rfl rfl)

/-- A step that passes keeps the invariant. -/
theorem step_progress (hU : HashSound U) (h : d.Sane U C) (hw : Within U d a)
    (hsig : d.Backed U C a) (hok : d.stepOk a = true) :
    Progress U C d.storage (d.step a).storage := by
  match a with
  | .event (.recvProposal ctx p) => exact step_progress_recvProposal hU h hw hsig hok
  | .event (.recvSign ctx prop sign) => exact step_progress_recvSign h hw hsig hok
  | .event (.newTx cmds) => exact step_progress_newTx h hw hsig hok
  | .event (.recvNewViewMsg ctx qc) => exact step_progress_recvNewViewMsg h
  | .event (.branchSync ctx branch) =>
    refine Machine.syncNodes_progress hU h.storage hw ?_ hok
    intro p hp
    exact hsig p.justify (List.mem_map_of_mem hp)
  | .event .requestSnapshot => exact step_progress_of_eq h rfl ⟨_, rfl⟩
  | .event (.viewChange leader view) => exact step_progress_of_eq h rfl ⟨_, rfl⟩
  | .event (.propose ctx node qc) => exact step_progress_of_eq h rfl ⟨_, rfl⟩
  | .event (.newLeader ctx leader) =>
    show Progress U C d.storage (d.machine.processSafetyEvent (.newLeader ctx leader)).1.storage
    obtain ⟨l, heq⟩ := d.machine.newLeader_eq ctx leader
    rw [heq]
    exact .refl h.storage
  | .viewChange leader view =>
    show Progress U C d.storage (d.machine.onViewChange leader view).1.storage
    rcases d.machine.onViewChange_cases leader view with heq | ⟨m', hm', heq⟩
    · rw [heq]
      exact .refl h.storage
    · rw [heq, hm']
      exact .of_eq h.storage rfl rfl rfl rfl
  | .increaseView view => exact step_progress_of_eq h rfl ⟨_, rfl⟩
  | .ready i => exact step_progress_ready h

/-- What the machine returns for the pacemaker is the leaf, which is known. -/
theorem step_sane (hU : HashSound U) (h : d.Sane U C) (hw : Within U d a)
    (hsig : d.Backed U C a) (hok : d.stepOk a = true) : (d.step a).Sane U C := by
  have hp := step_progress hU h hw hsig hok
  refine ⟨hp.sane, ?_⟩
  intro x hx
  rcases step_produced hx with hx | hx
  · obtain ⟨hmem, hk⟩ := h.produced x hx
    exact ⟨hmem, hp.knows _ _ hk⟩
  · rw [hx]
    exact ⟨hp.sane.leaf_mem, hp.sane.leaf_known⟩

theorem Sane.mono (h : d.Sane U C) (hC : ∀ k j, C k j → C' k j) : d.Sane U C' :=
  ⟨h.storage.mono hC, h.produced⟩

/-! ## Signing -/

/-- What is signed is a block of the step, and its justify is one of its certificates. -/
theorem mem_of_signs {x : TreeNode K} {beat : Bool} (h : d.signs a = some (x, beat)) :
    x ∈ d.newBlocks a ∧ x.justify ∈ d.certificates a := by
  match a with
  | .event (.newTx cmds) =>
    obtain ⟨rfl, -⟩ := Prod.mk.inj (Option.some.inj h)
    exact ⟨List.mem_singleton.mpr rfl, List.mem_singleton.mpr rfl⟩
  | .event (.recvProposal ctx p) =>
    obtain ⟨y, hy, hyx⟩ := Option.map_eq_some_iff.mp h
    obtain ⟨rfl, -⟩ := Prod.mk.inj hyx
    obtain ⟨⟨ctx', hc⟩, -⟩ := Machine.signs_eq_some hy
    injection hc with hc
    injection hc with _ hp
    rw [hp]
    exact ⟨List.mem_singleton.mpr rfl, List.mem_singleton.mpr rfl⟩

/-- A proposal that is received and signed was verified and accepted. -/
theorem signs_received {x : TreeNode K} (h : d.signs a = some (x, false)) :
    ∃ ctx r, a = .event (.recvProposal ctx x) ∧ d.machine.verifyProposal x.justify = .ok r ∧
      d.machine.accepts x = true := by
  match a with
  | .event (.newTx cmds) => cases (Prod.mk.inj (Option.some.inj h)).2
  | .event (.recvProposal ctx p) =>
    obtain ⟨y, hy, hyx⟩ := Option.map_eq_some_iff.mp h
    obtain ⟨rfl, -⟩ := Prod.mk.inj hyx
    have hsame := (Machine.signs_eq_some hy).1
    obtain ⟨ctx', hc⟩ := hsame
    injection hc with hc
    injection hc with _ hp
    subst hp
    obtain ⟨⟨r, hv⟩, hacc⟩ := Machine.signs_recvProposal_eq_some hy
    exact ⟨ctx, r, rfl, hv, hacc⟩

theorem signs_beat {x : TreeNode K} (h : d.signs a = some (x, true)) :
    ∃ cmds, a = .event (.newTx cmds) ∧ x = d.machine.makeLeaf cmds := by
  match a with
  | .event (.newTx cmds) => exact ⟨cmds, rfl, (Prod.mk.inj (Option.some.inj h)).1.symm⟩
  | .event (.recvProposal ctx p) =>
    obtain ⟨y, hy, hyx⟩ := Option.map_eq_some_iff.mp h
    cases (Prod.mk.inj hyx).2

/-- What is signed has a genuine justify. -/
theorem genuine_of_signs {x : TreeNode K} {beat : Bool} (h : d.signs a = some (x, beat))
    (hok : d.stepOk a = true) : d.machine.genuine x.justify = true := by
  cases beat with
  | true =>
    obtain ⟨cmds, rfl, rfl⟩ := signs_beat h
    dsimp only [stepOk] at hok
    rw [Bool.and_eq_true] at hok
    exact hok.1
  | false =>
    obtain ⟨ctx, r, rfl, hv, -⟩ := signs_received h
    dsimp only [stepOk] at hok
    rw [hv] at hok
    exact Machine.genuine_of_propOk hok

/-- A replica knows what it signs. If it was received, the lock is afterwards at or above
the justify of its justify. -/
theorem knows_of_signs (hU : HashSound U) {x : TreeNode K} {beat : Bool} (h : d.Sane U C)
    (hw : Within U d a) (hsig : d.Backed U C a) (hok : d.stepOk a = true)
    (hs : d.signs a = some (x, beat)) :
    Knows (d.step a).storage x.hash x.justify.node ∧
      (beat = false → x.justify.node = initNodeHash K ∨ ∃ j, C x.justify.node j ∧
        heightOf U j ≤ (d.step a).storage.state.bLocked.height.toNat) := by
  cases beat with
  | true =>
    obtain ⟨cmds, rfl, rfl⟩ := signs_beat hs
    have hq : (d.step (.event (.newTx cmds))).storage.inMemQueue =
        d.storage.inMemQueue.insert (d.machine.makeLeaf cmds).hash (d.machine.makeLeaf cmds) := rfl
    exact ⟨knows_write hq, fun hb => nomatch hb⟩
  | false =>
    have hgen := genuine_of_signs hs hok
    obtain ⟨hmem, hcert⟩ := mem_of_signs hs
    obtain ⟨ctx, r, rfl, hv, hacc⟩ := signs_received hs
    have hb : Backs C d.storage x.justify.node :=
      Machine.backs_of_genuine h.storage (hsig _ hcert) hgen
    dsimp only [stepOk] at hok
    rw [hv] at hok
    have hstep : (d.step (.event (.recvProposal ctx x))).storage
        = (d.machine.processProp x).storage := by
      show (d.machine.onRecvProposal ctx x x.justify).1.storage = _
      rw [Machine.onRecvProposal_eq, hv]
    rw [hstep]
    obtain ⟨-, hlock, hknown⟩ := Machine.processProp_progress hU h.storage (hw x hmem) hb hok
    exact ⟨hknown hacc, fun _ => hlock⟩

/-- An accepted proposal passed `safe_node` against the lock. -/
theorem safeFor_of_accepts {m : Machine K} {x : TreeNode K} (h : m.accepts x = true) :
    m.safeFor m.storage.state.bLocked x = true := by
  unfold Machine.accepts at h
  unfold Machine.safeFor
  cases hprev : m.storage.get x.justify.node with
  | none =>
    rw [hprev] at h
    cases h
  | some prev =>
    simp only [hprev, Bool.and_eq_true] at h
    exact h.2

end Driver

/-- What `safeFor` says about the block tree. -/
theorem Machine.safe_of_safeFor {U : Set (TreeNode K)} {C : NodeHash → NodeHash → Prop}
    (hU : HashSound U) {m : Machine K} (h : Sane U C m.storage) {x z : TreeNode K} (hx : x ∈ U)
    (hz : z ∈ U) (hs : m.safeFor z x = true) :
    Extends U x z ∨ Extends U z x ∨ heightOf U z.hash < heightOf U x.justify.node := by
  unfold safeFor at hs
  split at hs
  · rename_i j hj
    rw [Bool.or_eq_true, Bool.not_eq_true', decide_eq_true_eq] at hs
    rcases hs with hs | hs
    · rcases HotstuffStorage.extends_of_not_isConflicting h.keyed h.within hx hz hs with he | he
      · exact Or.inl he
      · exact Or.inr (Or.inl he)
    · right; right
      rw [← h.keyed _ j hj, hU.heightOf_hash hz, hU.heightOf_hash (h.within _ j hj)]
      exact UInt64.lt_iff_toNat_lt.mp hs
  · cases hs

/-! ## The keys of a replica do not change -/

theorem Voter.addVote_signature (v : Voter K) (ctx : Context) (view : ViewNumber)
    (sign : SignKit K) : (v.addVote ctx view sign).1.signature = v.signature := by
  rw [Machine.addVote_fst]

theorem Voter.combinePartialSign_signature (v : Voter K) (view : ViewNumber) :
    (v.combinePartialSign view).1.signature = v.signature := by
  unfold combinePartialSign
  split <;> rfl

theorem Machine.onRecvVote_signature (m : Machine K) (ctx : Context) (prop : TreeNode K)
    (sign : SignKit K) : (m.onRecvVote ctx prop sign).1.voter.signature = m.voter.signature := by
  have hadd := m.voter.addVote_signature ctx prop.height sign
  unfold onRecvVote
  split
  · rfl
  · split
    · rename_i voter e heq
      rw [heq] at hadd
      exact hadd
    · rename_i voter heq
      rw [heq] at hadd
      split
      · have hcombine := voter.combinePartialSign_signature prop.height
        split
        · rename_i voter' c heq'
          rw [heq'] at hcombine
          exact hcombine.trans hadd
        · rename_i voter' e heq'
          rw [heq'] at hcombine
          exact hcombine.trans hadd
      · exact hadd

theorem Driver.step_signature (d : Driver K) (a : Drive K) :
    (d.step a).machine.voter.signature = d.machine.voter.signature := by
  match a with
  | .event (.recvProposal ctx p) =>
    show (d.machine.onRecvProposal ctx p p.justify).1.voter.signature = _
    rw [Machine.onRecvProposal_eq_syncNodes, Machine.syncNodes_voter]
  | .event (.recvSign ctx prop sign) => exact d.machine.onRecvVote_signature ctx prop sign
  | .event (.newTx cmds) => exact d.machine.voter.addVote_signature _ _ _
  | .event (.recvNewViewMsg ctx qc) =>
    show (d.machine.onRecvNewView qc).1.voter.signature = _
    rcases d.machine.onRecvNewView_cases qc with ⟨-, heq⟩ | ⟨node, -, heq⟩
    · rw [heq]
    · rw [heq]
  | .event (.branchSync ctx branch) =>
    exact congrArg Voter.signature (d.machine.syncNodes_voter branch)
  | .event .requestSnapshot => rfl
  | .event (.viewChange leader view) => rfl
  | .event (.propose ctx node qc) => rfl
  | .event (.newLeader ctx leader) =>
    show (d.machine.processSafetyEvent (.newLeader ctx leader)).1.voter.signature = _
    obtain ⟨l, heq⟩ := d.machine.newLeader_eq ctx leader
    rw [heq]
  | .viewChange leader view =>
    show (d.machine.onViewChange leader view).1.voter.signature = _
    rcases d.machine.onViewChange_cases leader view with heq | ⟨m', hm', heq⟩
    · rw [heq]
    · rw [heq, hm']
      rfl
  | .increaseView view => rfl
  | .ready i =>
    rcases d.step_ready_cases i with ⟨-, hstep⟩ | ⟨node, -, hstep⟩
    · rw [hstep]
    · rw [hstep]
      rfl

end HotstuffConsensus
