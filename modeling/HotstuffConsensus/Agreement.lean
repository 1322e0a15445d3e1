import HotstuffConsensus.VotingRules

/-!
# Agreement

A cluster of `n` replicas of which those of `byz` are faulty. The faulty ones have no state
here: whatever they do, they do by the messages the others receive, and a correct replica
may receive any message at any time. Messages that are lost, repeated or reordered are
covered by that as well.

What limits the faulty replicas is cryptography. `Assumed` says that SHA-256 does not
collide on the blocks that occur, and that a certificate that reaches a replica is valid
only for what more than `⌊2n/3⌋` replicas have signed, the faulty ones counting as having
signed everything. The list of `ballots`, what was signed by whom, exists for this only.

Two correct replicas do commit conflicting blocks: `verify_proposal` takes a certificate
with the all-zero signature for any block (`conflicting_commits`). `Disciplined` says of a
step that it goes through none of the gaps of the voting rules; without such steps the
committed blocks agree (`agreement`).
-/

namespace HotstuffConsensus

open Lib Relation

variable {K : Crypto} {n : ℕ}

/-- A proposal that a replica signed, and whether in a beat. -/
structure Ballot (n : ℕ) (K : Crypto) where
  voter : Fin n
  node : TreeNode K
  beat : Bool

/-- The ballot in the block tree. -/
def Ballot.vote (b : Ballot n K) : ChainSafety.Vote (Fin n) NodeHash :=
  ⟨b.voter, b.node.hash, b.node.justify.node⟩

structure Cluster (n : ℕ) (K : Crypto) where
  replica : Fin n → Driver K
  /-- Newest first. -/
  ballots : List (Ballot n K)

namespace Cluster

def votes (σ : Cluster n K) : List (ChainSafety.Vote (Fin n) NodeHash) :=
  σ.ballots.map Ballot.vote

/-- The block a replica committed last. -/
def lastCommit (σ : Cluster n K) (i : Fin n) : TreeNode K :=
  (σ.replica i).storage.state.lastCommit

/-- One replica makes a step; the faulty ones make none. -/
def step (byz : Finset (Fin n)) (σ : Cluster n K) (a : Fin n × Drive K) : Cluster n K :=
  if a.1 ∈ byz then σ
  else
    { replica := Function.update σ.replica a.1 ((σ.replica a.1).step a.2)
      ballots := (((σ.replica a.1).signs a.2).map fun x => ⟨a.1, x.1, x.2⟩).toList ++ σ.ballots }

/-- The correct replicas start over fresh storages, with one set of public keys. -/
structure Initial (byz : Finset (Fin n)) (pk : K.PK) (σ : Cluster n K) : Prop where
  fresh : ∀ i ∉ byz, FreshStorage (σ.replica i).storage
  produced : ∀ i ∉ byz, (σ.replica i).produced = []
  keys : ∀ i ∉ byz, (σ.replica i).machine.voter.signature.pks = pk
  ballots : σ.ballots = []

/-- The replicas that signed the bytes, or may have. -/
def signers (byz : Finset (Fin n)) (σ : Cluster n K) (msg : Bytes) : Finset (Fin n) :=
  Finset.univ.filter fun i =>
    i ∈ byz ∨ ∃ b ∈ σ.ballots, b.voter = i ∧ b.node.toBeBytes = msg

/-- The combined signature is valid only for bytes that more than `⌊2n/3⌋` signed. -/
def Backed (byz : Finset (Fin n)) (pk : K.PK) (σ : Cluster n K) (sign : K.CombinedSign) : Prop :=
  ∀ msg, K.verify pk sign msg = true → 2 * n / 3 < (σ.signers byz msg).card

/-- The cryptography holds at the step: its blocks are among those on which SHA-256 is
sound, and its certificates are backed. -/
def Assumed (byz : Finset (Fin n)) (pk : K.PK) (U : Set (TreeNode K)) (σ : Cluster n K)
    (a : Fin n × Drive K) : Prop :=
  a.1 ∉ byz → Driver.Within U (σ.replica a.1) a.2 ∧
    ∀ qc ∈ (σ.replica a.1).certificates a.2, σ.Backed byz pk qc.combinedSign

/-- What is asked of a proposal that replica `i` signs: it is above all that `i` signed, its
stored parents lead down to the block its justify names, and it respects the justify of the
justify of what `i` signed in a beat, as `safe_node` would if `on_beat` moved the lock. -/
def VoteRule (σ : Cluster n K) (i : Fin n) (x : TreeNode K) : Prop :=
  (∀ b ∈ σ.ballots, b.voter = i → b.node.height < x.height) ∧
    linked (σ.replica i).storage.inMemQueue x.justify.node x.height.toNat x = true ∧
    ∀ b ∈ σ.ballots, b.voter = i → b.beat = true →
      ∀ z ∈ (σ.replica i).storage.secondJustify b.node, (σ.replica i).machine.safeFor z x = true

instance (σ : Cluster n K) (i : Fin n) (x : TreeNode K) : Decidable (σ.VoteRule i x) :=
  inferInstanceAs (Decidable (_ ∧ _ ∧ _))

/-- The step of a correct replica goes through none of the gaps. -/
def Disciplined (byz : Finset (Fin n)) (σ : Cluster n K) (a : Fin n × Drive K) : Prop :=
  a.1 ∉ byz → (σ.replica a.1).stepOk a.2 = true ∧
    ∀ v ∈ (σ.replica a.1).signs a.2, σ.VoteRule a.1 v.1 ∧
      (v.2 = true →
        (σ.replica a.1).machine.safeFor (σ.replica a.1).storage.state.bLocked v.1 = true)

instance (byz : Finset (Fin n)) (σ : Cluster n K) (a : Fin n × Drive K) :
    Decidable (σ.Disciplined byz a) :=
  inferInstanceAs (Decidable (_ → _))

/-! ## One step -/

variable {byz : Finset (Fin n)} {pk : K.PK} {U : Set (TreeNode K)} {σ : Cluster n K}
  {i : Fin n} {a : Drive K}

section Step

variable (hU : HashSound U) (hbyz : byz.card ≤ (n - 1) / 3)

/-- The invariant of the cluster. -/
structure Invariant (pk : K.PK) (σ : Cluster n K) : Prop where
  valid : (blockTree hU hbyz).Valid σ.votes
  sane : ∀ i ∉ byz, (σ.replica i).Sane U ((blockTree hU hbyz).Cert σ.votes)
  keys : ∀ i ∉ byz, (σ.replica i).machine.voter.signature.pks = pk
  known : ∀ b ∈ σ.ballots, b.node ∈ U ∧
    Knows (σ.replica b.voter).storage b.node.hash b.node.justify.node
  covered : ∀ b ∈ σ.ballots, b.beat = false → b.node.justify.node = initNodeHash K ∨
    ∃ j, (blockTree hU hbyz).Cert σ.votes b.node.justify.node j ∧
      heightOf U j ≤ (σ.replica b.voter).storage.state.bLocked.height.toNat

variable {hU hbyz}

theorem mem_votes {y k : NodeHash} :
    ⟨i, y, k⟩ ∈ σ.votes ↔
      ∃ b ∈ σ.ballots, b.voter = i ∧ b.node.hash = y ∧ b.node.justify.node = k := by
  unfold votes
  rw [List.mem_map]
  constructor
  · rintro ⟨b, hb, hv⟩
    injection hv with h₁ h₂ h₃
    exact ⟨b, hb, h₁, h₂, h₃⟩
  · rintro ⟨b, hb, rfl, rfl, rfl⟩
    exact ⟨b, hb, rfl⟩

/-- A valid signature is a certificate of the block tree. -/
theorem cert_of_backed {sign : K.CombinedSign} (hb : σ.Backed byz pk sign) {y : TreeNode K}
    (hv : K.verify pk sign y.toBeBytes = true) :
    (blockTree hU hbyz).Cert σ.votes y.hash y.justify.node := by
  have hcard := hb _ hv
  show 2 * n / 3 < Set.ncard _
  refine lt_of_lt_of_le hcard ?_
  rw [← Set.ncard_coe_finset]
  apply Set.ncard_le_ncard _ (Set.toFinite _)
  intro i hi
  rw [Finset.mem_coe, signers, Finset.mem_filter] at hi
  rcases hi.2 with hi | ⟨b, hbm, hbi, hby⟩
  · exact Or.inl hi
  · obtain ⟨hin, -, hj⟩ := toBeBytes_inj hby
    exact Or.inr (mem_votes.mpr ⟨b, hbm, hbi, TreeNode.hash_eq_of_hashInput hin, hj⟩)

theorem Invariant.backed (h : σ.Invariant hU hbyz pk) (hi : i ∉ byz)
    (ha : σ.Assumed byz pk U (i, a)) :
    (σ.replica i).Backed U ((blockTree hU hbyz).Cert σ.votes) a := by
  intro qc hqc y _ hv
  refine cert_of_backed ((ha hi).2 qc hqc) ?_
  rw [← h.keys i hi]
  exact hv

/-- What a replica signed is no block with the hash of `INIT_NODE`. -/
theorem Invariant.ne_init (h : σ.Invariant hU hbyz pk) {b : Ballot n K} (hb : b ∈ σ.ballots) :
    b.node.hash ≠ initNodeHash K := by
  intro hinit
  have hmem : b.vote ∈ σ.votes := List.mem_map_of_mem hb
  obtain ⟨_, _, -, hvote, -⟩ := h.valid.split hmem
  have hlt : heightOf U b.node.justify.node < heightOf U b.node.hash :=
    ChainSafety.Protocol.height_lt_of_below hvote.extend
  have h0 : heightOf U (initNodeHash K) = 0 := hU.heightOf_hash hU.init_mem
  rw [hinit, h0] at hlt
  exact absurd hlt (Nat.not_lt_zero _)

/-- The lock that a proposal respects because of an earlier ballot of its voter: the one the
code has, or for a beat the block the lock was not moved to. -/
theorem Invariant.exists_lock (h : σ.Invariant hU hbyz pk) (hi : i ∉ byz) {x : TreeNode K}
    (hlock : (σ.replica i).machine.safeFor (σ.replica i).storage.state.bLocked x = true)
    {b : Ballot n K} (hb : b ∈ σ.ballots) (hbi : b.voter = i)
    (hbeat : b.beat = true → ∀ z ∈ (σ.replica i).storage.secondJustify b.node,
      (σ.replica i).machine.safeFor z x = true)
    (hne : b.node.justify.node ≠ initNodeHash K) {k : NodeHash}
    (hk : (blockTree hU hbyz).Cert σ.votes b.node.justify.node k) :
    ∃ z ∈ U, (blockTree hU hbyz).Certified σ.votes z.hash ∧ heightOf U k ≤ heightOf U z.hash ∧
      (σ.replica i).machine.safeFor z x = true := by
  have hsane := (h.sane i hi).storage
  cases hcase : b.beat with
  | false =>
    obtain ⟨j, hj, hle⟩ := (h.covered b hb hcase).resolve_left hne
    obtain ⟨-, rfl⟩ := ChainSafety.Protocol.Cert.unique h.valid hj hk rfl
    rw [hbi] at hle
    refine ⟨_, hsane.locked_mem, hsane.locked, ?_, hlock⟩
    rw [hU.heightOf_hash hsane.locked_mem]
    exact hle
  | true =>
    have hknown := (h.known b hb).2
    rw [hbi] at hknown
    have hback := (hsane.justified _ _ hknown).resolve_left (h.ne_init hb)
    obtain ⟨z, hz⟩ := hsane.exists_secondJustify hback hne
    obtain ⟨hzU, hzc, hzb⟩ := hsane.secondJustify hU hback hz
    obtain ⟨-, rfl⟩ := ChainSafety.Protocol.Cert.unique h.valid hzc hk rfl
    exact ⟨z, hzU, hzb.certified, le_refl _, hbeat hcase z hz⟩

/-- The rules of the block tree hold for what is signed in a disciplined step. -/
theorem Invariant.voteOk (h : σ.Invariant hU hbyz pk) (hi : i ∉ byz)
    (ha : σ.Assumed byz pk U (i, a)) (hd : σ.Disciplined byz (i, a)) {x : TreeNode K} {beat : Bool}
    (hs : (σ.replica i).signs a = some (x, beat)) :
    (blockTree hU hbyz).VoteOk σ.votes ⟨i, x.hash, x.justify.node⟩ := by
  obtain ⟨hok, hrules⟩ := hd hi
  obtain ⟨⟨habove, hlinked, hbeats⟩, hlockBeat⟩ := hrules (x, beat) hs
  have hsane := (h.sane i hi).storage
  obtain ⟨hmem, hcert⟩ := Driver.mem_of_signs hs
  have hx : x ∈ U := (ha hi).1 x hmem
  have hback : Backs ((blockTree hU hbyz).Cert σ.votes) (σ.replica i).storage x.justify.node :=
    Machine.backs_of_genuine hsane (h.backed hi ha _ hcert) (Driver.genuine_of_signs hs hok)
  have hlock : (σ.replica i).machine.safeFor (σ.replica i).storage.state.bLocked x = true := by
    cases beat with
    | true => exact hlockBeat rfl
    | false =>
      obtain ⟨_, _, -, -, hacc⟩ := Driver.signs_received hs
      exact Driver.safeFor_of_accepts hacc
  refine ⟨hi, ?_, hback.certified, ?_, ?_⟩
  · intro y k hy
    obtain ⟨b, hb, hbi, rfl, -⟩ := mem_votes.mp hy
    show heightOf U b.node.hash < heightOf U x.hash
    rw [hU.heightOf_hash (h.known b hb).1, hU.heightOf_hash hx]
    exact UInt64.lt_iff_toNat_lt.mp (habove b hb hbi)
  · exact below_of_linked hU hbyz hsane.keyed hsane.within hx hlinked
  · intro y k k' hy hk hkk'
    obtain ⟨b, hb, hbi, rfl, rfl⟩ := mem_votes.mp hy
    obtain ⟨z, hz, hzc, hle, hsafe⟩ :=
      h.exists_lock hi hlock hb hbi (hbeats b hb hbi) hk hkk'
    exact ⟨z.hash, hzc, hle, Machine.safe_of_safeFor hU hsane hx hz hsafe⟩

/-- The votes after a step of a correct replica. -/
theorem votes_step (hi : i ∉ byz) :
    (step byz σ (i, a)).votes =
      (((σ.replica i).signs a).map fun v => ⟨i, v.1.hash, v.1.justify.node⟩).toList ++ σ.votes := by
  unfold votes step
  rw [if_neg hi]
  cases (σ.replica i).signs a <;> rfl

theorem replica_step (hi : i ∉ byz) (j : Fin n) :
    (step byz σ (i, a)).replica j =
      if j = i then (σ.replica i).step a else σ.replica j := by
  unfold step
  rw [if_neg hi]
  exact Function.update_apply _ _ _ _

theorem mem_ballots_step (hi : i ∉ byz) {b : Ballot n K}
    (hb : b ∈ (step byz σ (i, a)).ballots) :
    b ∈ σ.ballots ∨ b.voter = i ∧ (σ.replica i).signs a = some (b.node, b.beat) := by
  unfold step at hb
  rw [if_neg hi] at hb
  rcases List.mem_append.mp hb with hb | hb
  · right
    obtain ⟨v, hv, rfl⟩ := Option.map_eq_some_iff.mp (Option.mem_toList.mp hb)
    exact ⟨rfl, hv⟩
  · exact Or.inl hb

theorem Invariant.step (h : σ.Invariant hU hbyz pk) (ha : σ.Assumed byz pk U (i, a))
    (hd : σ.Disciplined byz (i, a)) : (step byz σ (i, a)).Invariant hU hbyz pk := by
  by_cases hi : i ∈ byz
  · unfold Cluster.step
    rw [if_pos hi]
    exact h
  have hsane := h.sane i hi
  have hsig := h.backed hi ha
  have hw := (ha hi).1
  have hok := (hd hi).1
  have hprog := Driver.step_progress hU hsane hw hsig hok
  have hsub : σ.votes ⊆ (Cluster.step byz σ (i, a)).votes := by
    rw [votes_step hi]
    exact List.subset_append_right _ _
  have hmono : ∀ k j, (blockTree hU hbyz).Cert σ.votes k j →
      (blockTree hU hbyz).Cert (Cluster.step byz σ (i, a)).votes k j := fun k j hc => hc.mono hsub
  have hself : (Cluster.step byz σ (i, a)).replica i = (σ.replica i).step a := by
    rw [replica_step hi, if_pos rfl]
  -- what a replica knows and its lock never go back
  have hkeep : ∀ j, (∀ k k', Knows (σ.replica j).storage k k' →
        Knows ((Cluster.step byz σ (i, a)).replica j).storage k k') ∧
      (σ.replica j).storage.state.bLocked.height ≤
        ((Cluster.step byz σ (i, a)).replica j).storage.state.bLocked.height := by
    intro j
    rw [replica_step hi]
    split
    · rename_i hji
      rw [hji]
      exact ⟨hprog.knows, hprog.locked⟩
    · exact ⟨fun _ _ hk => hk, le_refl _⟩
  refine ⟨?_, ?_, ?_, ?_, ?_⟩
  · rw [votes_step hi]
    cases hs : (σ.replica i).signs a with
    | none => exact h.valid
    | some v => exact ⟨h.voteOk hi ha hd hs, h.valid⟩
  · intro j hj
    rw [replica_step hi]
    split
    · exact (Driver.step_sane hU hsane hw hsig hok).mono hmono
    · exact (h.sane j hj).mono hmono
  · intro j hj
    rw [replica_step hi]
    split
    · rw [Driver.step_signature]
      exact h.keys i hi
    · exact h.keys j hj
  · intro b hb
    rcases mem_ballots_step hi hb with hb | ⟨hbi, hs⟩
    · obtain ⟨hmem, hk⟩ := h.known b hb
      exact ⟨hmem, (hkeep b.voter).1 _ _ hk⟩
    · have hk := (Driver.knows_of_signs hU hsane hw hsig hok hs).1
      rw [hbi, hself]
      exact ⟨hw _ (Driver.mem_of_signs hs).1, hk⟩
  · intro b hb hbeat
    rcases mem_ballots_step hi hb with hb | ⟨hbi, hs⟩
    · refine (h.covered b hb hbeat).imp_right ?_
      rintro ⟨j, hj, hle⟩
      exact ⟨j, hmono _ _ hj, hle.trans (UInt64.le_iff_toNat_le.mp (hkeep b.voter).2)⟩
    · rw [hbi, hself]
      refine ((Driver.knows_of_signs hU hsane hw hsig hok hs).2 hbeat).imp_right ?_
      rintro ⟨j, hj, hle⟩
      exact ⟨j, hmono _ _ hj, hle⟩

theorem Initial.invariant (h : σ.Initial byz pk) : σ.Invariant hU hbyz pk := by
  have hvotes : σ.votes = [] := by
    unfold votes
    rw [h.ballots]
    rfl
  refine ⟨?_, ?_, h.keys, ?_, ?_⟩
  · rw [hvotes]
    trivial
  · intro i hi
    refine ⟨Sane.fresh hU (h.fresh i hi), ?_⟩
    intro x hx
    rw [h.produced i hi] at hx
    cases hx
  · intro b hb
    rw [h.ballots] at hb
    cases hb
  · intro b hb
    rw [h.ballots] at hb
    cases hb

end Step

/-! ## Runs -/

theorem votes_subset_step (byz : Finset (Fin n)) (σ : Cluster n K) (a : Fin n × Drive K) :
    σ.votes ⊆ (step byz σ a).votes := by
  by_cases hi : a.1 ∈ byz
  · unfold step
    rw [if_pos hi]
    exact List.Subset.refl _
  · rw [show a = (a.1, a.2) from rfl, votes_step hi]
    exact List.subset_append_right _ _

theorem votes_subset_foldl (byz : Finset (Fin n)) (σ : Cluster n K)
    (as : List (Fin n × Drive K)) : σ.votes ⊆ (as.foldl (step byz) σ).votes := by
  induction as generalizing σ with
  | nil => exact List.Subset.refl _
  | cons a as ih => exact List.Subset.trans (votes_subset_step byz σ a) (ih _)

/-- What a correct replica has committed is final. -/
theorem Invariant.final {hU : HashSound U} {hbyz : byz.card ≤ (n - 1) / 3}
    (h : σ.Invariant hU hbyz pk) (hi : i ∉ byz) :
    (blockTree hU hbyz).Final σ.votes (σ.lastCommit i).hash := by
  rcases (h.sane i hi).storage.committed with hinit | ⟨b', b'', h1, h2, hp1, hp2, hh1, hh2⟩
  · exact Or.inl hinit
  · exact Or.inr ⟨b', b'', h1, h2, hp1, hp2, hh1, hh2⟩

/-- Along a run in which the cryptography holds and every step is disciplined, whatever two
correct replicas have committed, each at any time, lies on one branch. -/
theorem agreement (hbyz : byz.card ≤ (n - 1) / 3) (hU : HashSound U) (hσ : σ.Initial byz pk)
    {as : List (Fin n × Drive K)} (hassumed : Run.Each (step byz) (Assumed byz pk U) σ as)
    (hdisc : Run.Each (step byz) (Disciplined byz) σ as) {as₁ as₂ : List (Fin n × Drive K)}
    (h₁ : as₁ <+: as) (h₂ : as₂ <+: as) {i j : Fin n} (hi : i ∉ byz) (hj : j ∉ byz) :
    Extends U ((as₁.foldl (step byz) σ).lastCommit i) ((as₂.foldl (step byz) σ).lastCommit j) ∨
      Extends U ((as₂.foldl (step byz) σ).lastCommit j)
        ((as₁.foldl (step byz) σ).lastCommit i) := by
  have hstart : σ.Invariant hU hbyz pk := hσ.invariant
  -- the invariant at the end of every part of the run
  have hinv : ∀ p, p <+: as → (p.foldl (step byz) σ).Invariant hU hbyz pk := by
    intro p ⟨r, hr⟩
    rw [← hr] at hassumed hdisc
    have hboth := (Run.each_append.mp hassumed).1.and (Run.each_append.mp hdisc).1
    exact Run.foldl_of_invariant hstart hboth fun τ a hτ ha => hτ.step ha.1 ha.2
  -- what was final at that time is final at the end
  have hfinal : ∀ p, p <+: as → ∀ k ∉ byz, (blockTree hU hbyz).Final
      (as.foldl (step byz) σ).votes ((p.foldl (step byz) σ).lastCommit k).hash := by
    intro p hp k hk
    refine ((hinv p hp).final hk).mono ?_
    obtain ⟨r, hr⟩ := hp
    rw [← hr, List.foldl_append]
    exact votes_subset_foldl byz _ r
  exact (hfinal as₁ h₁ i hi).comparable (hinv as (List.prefix_refl as)).valid (hfinal as₂ h₂ j hj)

end Cluster

namespace Symbolic

open Cluster

/-! ## Evaluated runs -/

/-- Four fresh replicas, of which replica 0 is faulty. -/
def cluster₀ : Cluster 4 symbolic := ⟨fun i => ⟨fresh 4 i, []⟩, []⟩

def faulty : Finset (Fin 4) := {0}

def publicKeys : symbolic.PK := (2 : ℕ)

theorem initial_cluster₀ : cluster₀.Initial faulty publicKeys where
  fresh i _ := .inMem 4 (replicaId i) ∅ (signaturer 4 i)
  produced _ _ := rfl
  keys _ _ := rfl
  ballots := rfl

/-- Every share of the combined signature is over bytes that more than `⌊2n/3⌋` signed. -/
def sharesBacked (σ : Cluster 4 symbolic) : symbolic.CombinedSign → Bool
  | none => true
  | some shares => decide (∀ x ∈ shares, 2 * 4 / 3 < (σ.signers faulty x.2.2).card)

theorem backed_of_sharesBacked {σ : Cluster 4 symbolic} {sign : symbolic.CombinedSign}
    (h : sharesBacked σ sign = true) : σ.Backed faulty publicKeys sign := by
  intro msg hv
  match sign with
  | none => cases hv
  | some shares =>
    have hvalid : 2 < Multiset.card shares ∧ (shares.map Prod.fst).Nodup ∧
        ∀ x ∈ shares, x.2 = (x.1, msg) := of_decide_eq_true hv
    obtain ⟨x, hx⟩ := Multiset.card_pos_iff_exists_mem.mp (lt_trans Nat.zero_lt_two hvalid.1)
    have hcard := of_decide_eq_true h x hx
    rw [hvalid.2.2 x hx] at hcard
    exact hcard

/-- `Assumed` for a list of blocks, as a test. -/
def assumedCheck (blocks : List (TreeNode symbolic)) (σ : Cluster 4 symbolic)
    (a : Fin 4 × Drive symbolic) : Bool :=
  decide ((∀ x ∈ (σ.replica a.1).newBlocks a.2, x ∈ blocks) ∧
    ∀ qc ∈ (σ.replica a.1).certificates a.2, sharesBacked σ qc.combinedSign = true)

theorem assumed_of_check {blocks : List (TreeNode symbolic)} {as : List (Fin 4 × Drive symbolic)}
    (h : Run.Each (step faulty) (fun σ a => assumedCheck blocks σ a = true) cluster₀ as) :
    Run.Each (step faulty) (Assumed faulty publicKeys {x | x ∈ blocks}) cluster₀ as := by
  refine Run.each_of_invariant (I := fun _ => True) trivial h (fun _ _ _ _ => trivial) ?_
  intro σ a _ ha
  obtain ⟨hblocks, hcerts⟩ := of_decide_eq_true ha
  exact fun _ => ⟨hblocks, fun qc hqc => backed_of_sharesBacked (hcerts qc hqc)⟩

theorem hashSound_of_check {blocks : List (TreeNode symbolic)}
    (h : (∀ a ∈ blocks, ∀ b ∈ blocks, a.hash = b.hash → a.hashInput = b.hashInput) ∧
      initNode symbolic ∈ blocks ∧ (∀ x ∈ blocks, x.hash ≠ genesisHash) ∧
      ∀ x ∈ blocks, x.hash ≠ (GenericQC.zeroed symbolic).node) :
    HashSound {x | x ∈ blocks} :=
  ⟨h.1, h.2.1, h.2.2.1, h.2.2.2⟩

def chainBlocks : List (TreeNode symbolic) := [initNode symbolic, a1, a2, a3, a4, a5]

/-- The delivery of a proposal to a replica. -/
def deliverTo (i : Fin 4) (p : TreeNode symbolic) : Fin 4 × Drive symbolic :=
  (i, .event (.recvProposal (ctxOf 0) p))

/-- The chain reaches the correct replicas block by block, the last one only replica 1. -/
def chainRun : List (Fin 4 × Drive symbolic) :=
  ([a1, a2, a3, a4].flatMap fun p => [deliverTo 1 p, deliverTo 2 p, deliverTo 3 p]) ++
    [deliverTo 1 a5]

theorem agreement_on_chainRun :
    (chainRun.foldl (step faulty) cluster₀).lastCommit 1 = a2 ∧
      (chainRun.foldl (step faulty) cluster₀).lastCommit 2 = a1 ∧
      (Extends {x | x ∈ chainBlocks} ((chainRun.foldl (step faulty) cluster₀).lastCommit 1)
          ((chainRun.foldl (step faulty) cluster₀).lastCommit 2) ∨
        Extends {x | x ∈ chainBlocks} ((chainRun.foldl (step faulty) cluster₀).lastCommit 2)
          ((chainRun.foldl (step faulty) cluster₀).lastCommit 1)) :=
  ⟨by decide +kernel, by decide +kernel,
    agreement (by decide) (hashSound_of_check (by decide +kernel)) initial_cluster₀
      (assumed_of_check (by decide +kernel)) (by decide +kernel) (List.prefix_refl _)
      (List.prefix_refl _) (by decide) (by decide)⟩

/-- A branch of four blocks on the genesis block; the certificates carry the all-zero
signature. -/
def branch (tx : UInt8) : List (TreeNode symbolic) :=
  let b1 := block tx 1 (initNodeHash symbolic) (initQc symbolic)
  let b2 := block tx 2 b1.hash ⟨1, b1.hash, symbolic.zeroed⟩
  let b3 := block tx 3 b2.hash ⟨2, b2.hash, symbolic.zeroed⟩
  [b1, b2, b3, block tx 4 b3.hash ⟨3, b3.hash, symbolic.zeroed⟩]

/-- The first block of `branch`. -/
def first (tx : UInt8) : TreeNode symbolic := block tx 1 (initNodeHash symbolic) (initQc symbolic)

def forkBlocks : List (TreeNode symbolic) := initNode symbolic :: (branch 1 ++ branch 2)

/-- The faulty replica answers two replicas' sync requests with different branches. -/
def forkRun : List (Fin 4 × Drive symbolic) :=
  [(1, .event (.branchSync (ctxOf 0) (branch 1))), (2, .event (.branchSync (ctxOf 0) (branch 2)))]

/-- Nobody signed anything, and two correct replicas have committed conflicting blocks. -/
theorem conflicting_commits :
    faulty.card ≤ (4 - 1) / 3 ∧ HashSound {x | x ∈ forkBlocks} ∧ cluster₀.Initial faulty publicKeys ∧
      Run.Each (step faulty) (Assumed faulty publicKeys {x | x ∈ forkBlocks}) cluster₀ forkRun ∧
      (forkRun.foldl (step faulty) cluster₀).lastCommit 1 = first 1 ∧
      (forkRun.foldl (step faulty) cluster₀).lastCommit 2 = first 2 ∧
      ¬ Extends {x | x ∈ forkBlocks} (first 1) (first 2) ∧
      ¬ Extends {x | x ∈ forkBlocks} (first 2) (first 1) := by
  have hU : HashSound {x | x ∈ forkBlocks} := hashSound_of_check (by decide +kernel)
  have h₁ : first 1 ∈ forkBlocks := by decide +kernel
  have h₂ : first 2 ∈ forkBlocks := by decide +kernel
  refine ⟨by decide, hU, initial_cluster₀, assumed_of_check (by decide +kernel),
    by decide +kernel, by decide +kernel, ?_, ?_⟩
  · exact hU.not_extends h₁ rfl (by decide +kernel) (by decide +kernel)
  · exact hU.not_extends h₂ rfl (by decide +kernel) (by decide +kernel)

end Symbolic

end HotstuffConsensus
