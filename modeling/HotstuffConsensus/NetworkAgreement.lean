import HotstuffConsensus.Agreement
import HotstuffConsensus.LoopRefinement
import HotstuffConsensus.BlockWrites

/-!
# Agreement of the event loops

A `Network` is one event loop per replica. As in a `Cluster`, the faulty replicas have no state
and the others receive what they receive, in any order; but now a proposal waits in the heap until
the leaf is high enough, a result of the machine waits in the ready queue, and a view changes only
when the pacemaker changes it.

A run of the network is a run of the cluster (`network_refines_cluster`), in which the machine of
every correct replica is alike. The safety of the cluster is therefore that of the network.
-/

namespace HotstuffConsensus

open Lib

variable {K : Crypto} {n : ℕ}

structure Network (n : ℕ) (K : Crypto) where
  loop : Fin n → EventLoop K

namespace Network

/-- One event loop makes a step; those of the faulty replicas make none. -/
def step (C : Codec K) (byz : Finset (Fin n)) (ν : Network n K) (a : Fin n × LoopAction K) :
    Network n K :=
  if a.1 ∈ byz then ν else ⟨Function.update ν.loop a.1 ((ν.loop a.1).step C a.2)⟩

/-- The event loops over the given machines, each with its signature keys and database. -/
def start (elector : RoundRobinLeaderElector) (machine : Fin n → Machine K)
    (signaturer : Fin n → DefaultSignaturer K) (db : Fin n → Database) : Network n K where
  loop i := .start (.new (machine i).selfId elector (machine i) (signaturer i)) (db i)

/-- The block that the machine of a replica committed last. -/
def lastCommit (ν : Network n K) (i : Fin n) : TreeNode K :=
  (ν.loop i).pm.machine.storage.state.lastCommit

/-! ## The run of the cluster -/

/-- The number of `UpdateQCHigh` events that each replica has processed after a step. -/
def countHandled (ν : Network n K) (handled : Fin n → ℕ) (a : Fin n × LoopAction K) : Fin n → ℕ :=
  Function.update handled a.1 (Op.handledAfter (handled a.1) ((ν.loop a.1).ops a.2))

/-- The steps of the cluster that a run of the network is. -/
def clusterSteps (C : Codec K) (byz : Finset (Fin n)) (ν : Network n K) (handled : Fin n → ℕ) :
    List (Fin n × LoopAction K) → List (Fin n × Drive K)
  | [] => []
  | a :: as =>
    ((ν.loop a.1).drives (handled a.1) a.2).map (Prod.mk a.1) ++
      clusterSteps C byz (step C byz ν a)
        (if a.1 ∈ byz then handled else countHandled ν handled a) as

/-- The number of `UpdateQCHigh` events that each replica has processed after a run. -/
def handledAfter (C : Codec K) (byz : Finset (Fin n)) (ν : Network n K) (handled : Fin n → ℕ) :
    List (Fin n × LoopAction K) → Fin n → ℕ
  | [] => handled
  | a :: as =>
    handledAfter C byz (step C byz ν a)
      (if a.1 ∈ byz then handled else countHandled ν handled a) as

/-- The run of the cluster for a run of the network from its start, where every replica enters
view 1. -/
def clusterRun (C : Codec K) (byz : Finset (Fin n)) (ν : Network n K)
    (as : List (Fin n × LoopAction K)) : List (Fin n × Drive K) :=
  (List.finRange n).map (fun i => (i, .increaseView 1)) ++ clusterSteps C byz ν (fun _ => 0) as

/-- The replicas of a cluster before any step. -/
def cluster (machine : Fin n → Machine K) : Cluster n K := ⟨fun i => ⟨machine i, []⟩, []⟩

/-- The driver of every correct replica follows its event loop. -/
def Follows (byz : Finset (Fin n)) (ν : Network n K) (σ : Cluster n K) (handled : Fin n → ℕ) :
    Prop :=
  ∀ i ∉ byz, (ν.loop i).Follows (σ.replica i) (handled i)

variable {byz : Finset (Fin n)} {ν : Network n K} {σ : Cluster n K} {handled : Fin n → ℕ}

/-- Some steps of one correct replica. -/
theorem replica_steps {i : Fin n} (hi : i ∉ byz) (ds : List (Drive K)) (σ : Cluster n K)
    (j : Fin n) :
    ((ds.map (Prod.mk i)).foldl (Cluster.step byz) σ).replica j =
      if j = i then ds.foldl Driver.step (σ.replica i) else σ.replica j := by
  induction ds generalizing σ with
  | nil =>
    split
    · rename_i hji
      rw [hji]
      rfl
    · rfl
  | cons d ds ih =>
    show ((ds.map (Prod.mk i)).foldl (Cluster.step byz) (Cluster.step byz σ (i, d))).replica j = _
    rw [ih, Cluster.replica_step hi, Cluster.replica_step hi, if_pos rfl]
    split <;> rfl

/-- A faulty replica has no steps. -/
theorem faulty_steps {i : Fin n} (hi : i ∈ byz) (ds : List (Drive K)) (σ : Cluster n K) :
    (ds.map (Prod.mk i)).foldl (Cluster.step byz) σ = σ := by
  induction ds with
  | nil => rfl
  | cons d ds ih =>
    have hstep : Cluster.step byz σ (i, d) = σ := if_pos hi
    show (ds.map (Prod.mk i)).foldl (Cluster.step byz) (Cluster.step byz σ (i, d)) = σ
    rw [hstep, ih]

/-- A step of the network is its steps of the cluster. -/
theorem Follows.step (h : Follows byz ν σ handled) (C : Codec K) (a : Fin n × LoopAction K) :
    Follows byz (step C byz ν a)
      ((((ν.loop a.1).drives (handled a.1) a.2).map (Prod.mk a.1)).foldl (Cluster.step byz) σ)
      (if a.1 ∈ byz then handled else countHandled ν handled a) := by
  by_cases hi : a.1 ∈ byz
  · have hν : Network.step C byz ν a = ν := if_pos hi
    rw [hν, faulty_steps hi, if_pos hi]
    exact h
  · have hν : Network.step C byz ν a =
        ⟨Function.update ν.loop a.1 ((ν.loop a.1).step C a.2)⟩ := if_neg hi
    rw [hν, if_neg hi]
    intro j hj
    rw [replica_steps hi]
    by_cases hji : j = a.1
    · rw [if_pos hji, hji]
      unfold countHandled
      dsimp only
      rw [Function.update_self, Function.update_self]
      exact (h a.1 hi).step C a.2
    · rw [if_neg hji]
      unfold countHandled
      dsimp only
      rw [Function.update_of_ne hji, Function.update_of_ne hji]
      exact h j hj

/-- So is a run. -/
theorem Follows.run (h : Follows byz ν σ handled) (C : Codec K) (as : List (Fin n × LoopAction K)) :
    Follows byz (as.foldl (Network.step C byz) ν)
      ((clusterSteps C byz ν handled as).foldl (Cluster.step byz) σ)
      (handledAfter C byz ν handled as) := by
  induction as generalizing ν σ handled with
  | nil => exact h
  | cons a as ih =>
    unfold clusterSteps handledAfter
    rw [List.foldl_append]
    exact ih (h.step C a)

/-- The replicas of a list without repetition enter view 1. -/
theorem replica_enter {is : List (Fin n)} (hnodup : is.Nodup) (σ : Cluster n K) {j : Fin n}
    (hj : j ∉ byz) :
    ((is.map fun i => (i, Drive.increaseView 1)).foldl (Cluster.step byz) σ).replica j =
      if j ∈ is then (σ.replica j).step (.increaseView 1) else σ.replica j := by
  induction is generalizing σ with
  | nil => rfl
  | cons i is ih =>
    obtain ⟨hi, hnodup⟩ := List.nodup_cons.mp hnodup
    show ((is.map _).foldl (Cluster.step byz)
      (Cluster.step byz σ (i, .increaseView 1))).replica j = _
    rw [ih hnodup]
    by_cases hji : j = i
    · rw [if_neg (hji ▸ hi), if_pos (hji ▸ List.mem_cons_self), hji,
        Cluster.replica_step (hji ▸ hj), if_pos rfl]
    · have hsame : (Cluster.step byz σ (i, .increaseView 1)).replica j = σ.replica j := by
        by_cases hbyz : i ∈ byz
        · rw [show Cluster.step byz σ (i, .increaseView 1) = σ from if_pos hbyz]
        · rw [Cluster.replica_step hbyz, if_neg hji]
      have hmem : j ∈ i :: is ↔ j ∈ is := by
        rw [List.mem_cons]
        exact or_iff_right hji
      rw [hsame]
      simp only [hmem]

section Start

variable (C : Codec K) (byz : Finset (Fin n)) (elector : RoundRobinLeaderElector)
  (machine : Fin n → Machine K) (signaturer : Fin n → DefaultSignaturer K) (db : Fin n → Database)

/-- After every run of the network, the cluster has followed it. -/
theorem follows_clusterRun (as : List (Fin n × LoopAction K)) :
    Follows byz (as.foldl (step C byz) (start elector machine signaturer db))
      ((clusterRun C byz (start elector machine signaturer db) as).foldl (Cluster.step byz)
        (cluster machine))
      (handledAfter C byz (start elector machine signaturer db) (fun _ => 0) as) := by
  unfold clusterRun
  rw [List.foldl_append]
  apply Follows.run
  intro i hi
  rw [replica_enter (List.nodup_finRange n) _ hi, if_pos (List.mem_finRange i)]
  exact EventLoop.follows_start (machine i).selfId elector (machine i) (signaturer i) (db i)

/-- Every run of the network, over any machines, is a run of the cluster of the same machines: at
its end each correct replica has the consensus state, the blocks and the votes of its driver, and
the `UpdateQCHigh` events in its ready queue are those of its driver that its steps have not
processed. -/
theorem network_refines_cluster (as : List (Fin n × LoopAction K)) :
    ∀ i ∉ byz,
      (((clusterRun C byz (start elector machine signaturer db) as).foldl (Cluster.step byz)
          (cluster machine)).replica i).machine.Alike
        ((as.foldl (step C byz) (start elector machine signaturer db)).loop i).pm.machine ∧
      (((clusterRun C byz (start elector machine signaturer db) as).foldl (Cluster.step byz)
          (cluster machine)).replica i).produced.drop
            (handledAfter C byz (start elector machine signaturer db) (fun _ => 0) as i) =
        ((as.foldl (step C byz)
          (start elector machine signaturer db)).loop i).pm.readyQueue.filterMap
            Ready.updateNode := by
  intro i hi
  have h := follows_clusterRun C byz elector machine signaturer db as i hi
  exact ⟨h.machine, h.queue⟩

theorem lastCommit_eq (as : List (Fin n × LoopAction K)) {i : Fin n} (hi : i ∉ byz) :
    (as.foldl (step C byz) (start elector machine signaturer db)).lastCommit i =
      ((clusterRun C byz (start elector machine signaturer db) as).foldl (Cluster.step byz)
        (cluster machine)).lastCommit i := by
  have h := follows_clusterRun C byz elector machine signaturer db as i hi
  exact congrArg InMemoryState.lastCommit h.machine.storage.state

/-- The run of the cluster for the beginning of a run is the beginning of that for the run. -/
theorem clusterSteps_append (ν : Network n K) (handled : Fin n → ℕ)
    (as bs : List (Fin n × LoopAction K)) :
    clusterSteps C byz ν handled as <+: clusterSteps C byz ν handled (as ++ bs) := by
  induction as generalizing ν handled with
  | nil => exact List.nil_prefix
  | cons a as ih =>
    unfold clusterSteps
    exact (List.prefix_append_right_inj _).mpr (ih _ _)

theorem clusterRun_mono (ν : Network n K) {as bs : List (Fin n × LoopAction K)}
    (h : as <+: bs) : clusterRun C byz ν as <+: clusterRun C byz ν bs := by
  obtain ⟨rest, rfl⟩ := h
  exact (List.prefix_append_right_inj _).mpr (clusterSteps_append C byz ν _ as rest)

end Start

end Network

/-! ## Agreement -/

namespace Cluster

variable {byz : Finset (Fin n)} {pk : K.PK} {U : Set (TreeNode K)} {σ : Cluster n K}
  {as : List (Fin n × Drive K)} (hU : HashSound U) (hbyz : byz.card ≤ (n - 1) / 3)

/-- The invariant at the end of every part of a run. -/
theorem Initial.invariant_of_le (hσ : σ.Initial byz pk)
    (hassumed : Run.Each (step byz) (Assumed byz pk U) σ as)
    (hdisc : Run.Each (step byz) (Disciplined byz) σ as) {p : List (Fin n × Drive K)}
    (hp : p <+: as) : (p.foldl (step byz) σ).Invariant hU hbyz pk := by
  obtain ⟨r, rfl⟩ := hp
  have hboth := (Run.each_append.mp hassumed).1.and (Run.each_append.mp hdisc).1
  exact Run.foldl_of_invariant hσ.invariant hboth fun τ a hτ ha => hτ.step ha.1 ha.2

/-- What was final at some time of a run is final at its end. -/
theorem Initial.final_of_le (hσ : σ.Initial byz pk)
    (hassumed : Run.Each (step byz) (Assumed byz pk U) σ as)
    (hdisc : Run.Each (step byz) (Disciplined byz) σ as) {p : List (Fin n × Drive K)}
    (hp : p <+: as) {i : Fin n} (hi : i ∉ byz) :
    (blockTree hU hbyz).Final (as.foldl (step byz) σ).votes
      ((p.foldl (step byz) σ).lastCommit i).hash := by
  refine ((hσ.invariant_of_le hU hbyz hassumed hdisc hp).final hi).mono ?_
  obtain ⟨r, rfl⟩ := hp
  rw [List.foldl_append]
  exact votes_subset_foldl byz _ r

end Cluster

namespace Network

variable {byz : Finset (Fin n)} {pk : K.PK} {U : Set (TreeNode K)}
  {machine : Fin n → Machine K} {as as₁ as₂ : List (Fin n × LoopAction K)}

/-- Along a run of the event loops in which the cryptography holds and every step is disciplined,
whatever two correct replicas have committed, each at any time, lies on one branch. -/
theorem commits_agree (hbyz : byz.card ≤ (n - 1) / 3) (hU : HashSound U)
    (hinit : (cluster machine).Initial byz pk) (C : Codec K) (elector : RoundRobinLeaderElector)
    (signaturer : Fin n → DefaultSignaturer K) (db : Fin n → Database)
    (hassumed : Run.Each (Cluster.step byz) (Cluster.Assumed byz pk U) (cluster machine)
      (clusterRun C byz (start elector machine signaturer db) as))
    (hdisc : Run.Each (Cluster.step byz) (Cluster.Disciplined byz) (cluster machine)
      (clusterRun C byz (start elector machine signaturer db) as))
    (h₁ : as₁ <+: as) (h₂ : as₂ <+: as) {i j : Fin n} (hi : i ∉ byz) (hj : j ∉ byz) :
    Extends U ((as₁.foldl (step C byz) (start elector machine signaturer db)).lastCommit i)
        ((as₂.foldl (step C byz) (start elector machine signaturer db)).lastCommit j) ∨
      Extends U ((as₂.foldl (step C byz) (start elector machine signaturer db)).lastCommit j)
        ((as₁.foldl (step C byz) (start elector machine signaturer db)).lastCommit i) := by
  have hvalid := (hinit.invariant_of_le hU hbyz hassumed hdisc (List.prefix_refl _)).valid
  have hfinal₁ := hinit.final_of_le hU hbyz hassumed hdisc (clusterRun_mono C byz _ h₁) hi
  have hfinal₂ := hinit.final_of_le hU hbyz hassumed hdisc (clusterRun_mono C byz _ h₂) hj
  rw [lastCommit_eq C byz elector machine signaturer db as₁ hi,
    lastCommit_eq C byz elector machine signaturer db as₂ hj]
  exact hfinal₁.comparable hvalid hfinal₂

end Network

namespace Symbolic

open Network

def elector : RoundRobinLeaderElector := ⟨["replica-0", "replica-1", "replica-2", "replica-3"]⟩

/-- The event loops of four replicas over fresh in-memory storages. -/
def network₀ : Network 4 symbolic :=
  .start elector (fun i => fresh 4 i) (fun i => signaturer 4 i) (fun _ => createTables)

/-- Replicas 1, 2 and 3. -/
def correct : List (Fin 4) := (List.finRange 4).filter fun i => i ∉ faulty

/-- The correct replicas do the same one after the other. -/
def inTurn (as : List (LoopAction symbolic)) : List (Fin 4 × LoopAction symbolic) :=
  correct.flatMap fun i => as.map (Prod.mk i)

/-- A proposal of the faulty replica. -/
def propose (p : TreeNode symbolic) : List (LoopAction symbolic) :=
  round (.network oracle (.newProposal (ctxOf 0) p)) 1

/-- A proposal that is above the leaf, and the answer to the sync request it causes. -/
def proposeAndSync (parent p : TreeNode symbolic) : List (LoopAction symbolic) :=
  propose p ++ round (.network oracle (.branchSyncResponse (ctxOf 0) ⟨0, batchSize⟩
    (some [parent, p]) .success)) 2

/-- The chain reaches the correct replicas block by block, the last one only replica 1. -/
def networkRun : List (Fin 4 × LoopAction symbolic) :=
  inTurn (propose a1) ++ inTurn (proposeAndSync a1 a2) ++ inTurn (proposeAndSync a2 a3) ++
    inTurn (proposeAndSync a3 a4) ++
    (correct.take 1).flatMap fun i => (proposeAndSync a4 a5).map (Prod.mk i)

/-- Replica 1 at the end of that run, and its driver. -/
theorem network_refines_cluster_on_networkRun :
    ((networkRun.foldl (step codec faulty) network₀).loop 1).pm.machine.storage.state.lastCommit =
        a2 ∧
      handledAfter codec faulty network₀ (fun _ => 0) networkRun 1 = 0 ∧
        (((clusterRun codec faulty network₀ networkRun).foldl (Cluster.step faulty)
            (cluster fun i => fresh 4 i)).replica 1).machine.Alike
          ((networkRun.foldl (step codec faulty) network₀).loop 1).pm.machine ∧
        (((clusterRun codec faulty network₀ networkRun).foldl (Cluster.step faulty)
            (cluster fun i => fresh 4 i)).replica 1).produced.drop
              (handledAfter codec faulty network₀ (fun _ => 0) networkRun 1) =
          ((networkRun.foldl (step codec faulty) network₀).loop 1).pm.readyQueue.filterMap
            Ready.updateNode := by
  refine ⟨by decide +kernel, by decide +kernel, ?_⟩
  unfold network₀
  exact network_refines_cluster codec faulty elector (fun i => fresh 4 i)
    (fun i => signaturer 4 i) (fun _ => createTables) networkRun 1 (by decide)

theorem assumed_networkRun :
    Run.Each (Cluster.step faulty) (Cluster.Assumed faulty publicKeys {x | x ∈ chainBlocks})
      cluster₀ (clusterRun codec faulty network₀ networkRun) :=
  assumed_of_check (by decide +kernel)

theorem disciplined_networkRun :
    Run.Each (Cluster.step faulty) (Cluster.Disciplined faulty) cluster₀
      (clusterRun codec faulty network₀ networkRun) := by decide +kernel

/-- Replica 1 is one commit ahead of replica 2. -/
theorem commits_agree_on_networkRun :
    (networkRun.foldl (step codec faulty) network₀).lastCommit 1 = a2 ∧
      (networkRun.foldl (step codec faulty) network₀).lastCommit 2 = a1 ∧
      (Extends {x | x ∈ chainBlocks} ((networkRun.foldl (step codec faulty) network₀).lastCommit 1)
          ((networkRun.foldl (step codec faulty) network₀).lastCommit 2) ∨
        Extends {x | x ∈ chainBlocks} ((networkRun.foldl (step codec faulty) network₀).lastCommit 2)
          ((networkRun.foldl (step codec faulty) network₀).lastCommit 1)) := by
  refine ⟨by decide +kernel, by decide +kernel, ?_⟩
  exact commits_agree (by decide) (hashSound_of_check (by decide +kernel)) initial_cluster₀ codec
    elector (fun i => signaturer 4 i) (fun _ => createTables) assumed_networkRun
    disciplined_networkRun (List.prefix_refl networkRun) (List.prefix_refl networkRun) (by decide)
    (by decide)

end Symbolic

end HotstuffConsensus
