import HotstuffConsensus.Pacemaker
import HotstuffConsensus.Lib.SortDedup
import Mathlib.Data.String.Basic

/-!
# Leader election (`pacemaker/elector.rs`)

Every replica makes its own table of replica ids from the keys of a hash map, which come in
no particular order, and looks the leader of a view up by a hash of the view. The table
depends on the set of ids only, so the replicas agree on the leader.
-/

namespace HotstuffConsensus

open Lib SortDedup

namespace RoundRobinLeaderElector

/-- `init`; what the table held before is replaced. -/
def init (replicas : List ReplicaID) : RoundRobinLeaderElector := ⟨sortDedup replicas⟩

variable {replicas replicas' : List ReplicaID}

theorem mem_roundMapper_init {id : ReplicaID} : id ∈ (init replicas).roundMapper ↔ id ∈ replicas :=
  mem_sortDedup

theorem init_eq_of_mem_iff (h : ∀ id, id ∈ replicas ↔ id ∈ replicas') :
    init replicas = init replicas' := by
  unfold init
  rw [sortDedup_eq_of_mem_iff h]

/-- The lookup of `get_leader` succeeds, and what it finds is the leader. -/
theorem roundMapper_getLeader (e : RoundRobinLeaderElector) (h : e.roundMapper ≠ [])
    (view : ViewNumber) :
    e.roundMapper[viewHash view e.roundMapper.length]? = some (e.getLeader view) := by
  have hindex : viewHash view e.roundMapper.length < e.roundMapper.length :=
    Nat.mod_lt _ (List.length_pos_iff.mpr h)
  unfold getLeader
  rw [List.getD_eq_getElem?_getD, List.getElem?_eq_getElem hindex, Option.getD_some]

/-- Replicas that know the same set of ids, however they list it, have the same leader in
every view; it is one of the ids, and the lookup stays inside the table. -/
theorem leaders_agree (hne : replicas ≠ []) (hset : ∀ id, id ∈ replicas ↔ id ∈ replicas')
    (view : ViewNumber) :
    (init replicas).getLeader view = (init replicas').getLeader view ∧
      (init replicas).getLeader view ∈ replicas ∧
      (init replicas).roundMapper[viewHash view (init replicas).roundMapper.length]?
        = some ((init replicas).getLeader view) := by
  have hmapper : (init replicas).roundMapper ≠ [] := by
    obtain ⟨id, hid⟩ := List.exists_mem_of_ne_nil _ hne
    exact List.ne_nil_of_mem (mem_roundMapper_init.mpr hid)
  have hlookup := roundMapper_getLeader (init replicas) hmapper view
  refine ⟨by rw [init_eq_of_mem_iff hset], ?_, hlookup⟩
  exact mem_roundMapper_init.mp (List.mem_of_getElem? hlookup)

/-- Two listings of three replicas, one with a repetition. -/
theorem leaders_agree_permuted :
    (init ["b", "a", "c", "a"]).getLeader 7 = (init ["c", "b", "a"]).getLeader 7 ∧
      (init ["b", "a", "c", "a"]).getLeader 7 ∈ ["b", "a", "c", "a"] := by
  have hset : ∀ id, id ∈ ["b", "a", "c", "a"] ↔ id ∈ ["c", "b", "a"] := by
    intro id
    simp only [List.mem_cons, List.not_mem_nil, or_false]
    tauto
  obtain ⟨heq, hmem, -⟩ := leaders_agree (by simp) hset 7
  exact ⟨heq, hmem⟩

end RoundRobinLeaderElector

end HotstuffConsensus
