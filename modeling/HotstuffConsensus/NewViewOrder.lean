import Mathlib.Order.Bounds.Basic
import HotstuffConsensus.NewView

/-!
# `NewView` messages in any order

A leader collects `NewView` messages and then beats. `update_qc_high` compares heights
strictly, so that of several certificates at the greatest height the first one stays, but the
height itself does not depend on the order, and the proposal is made on what was collected.
-/

namespace HotstuffConsensus

open Lib

variable {K : Crypto}

namespace Machine

/-- The replica after a sequence of `NewView` messages. -/
def afterNewViews (m : Machine K) (msgs : List (Context × GenericQC K)) : Machine K :=
  msgs.foldl (fun m msg => m.afterNewView msg.1 msg.2) m

/-- The certificate names the block `x`, which is stored. -/
def Names (m : Machine K) (qc : GenericQC K) (x : TreeNode K) : Prop :=
  m.storage.get qc.node = some x ∧ x.hash = qc.node

/-- The heights of the stored blocks that the certificates of `msgs` name. -/
def namedHeights (m : Machine K) (msgs : List (Context × GenericQC K)) : Set ViewNumber :=
  {h | ∃ msg ∈ msgs, ∃ x, m.storage.get msg.2.node = some x ∧ x.height = h}

theorem namedHeights_snoc {m : Machine K} {msgs : List (Context × GenericQC K)}
    {msg : Context × GenericQC K} {x : TreeNode K} (hx : m.storage.get msg.2.node = some x) :
    m.namedHeights (msgs ++ [msg]) = insert x.height (m.namedHeights msgs) := by
  apply Set.ext
  intro h
  constructor
  · rintro ⟨msg', hmem, y, hy, hh⟩
    rcases List.mem_append.mp hmem with hmem | hmem
    · exact Or.inr ⟨msg', hmem, y, hy, hh⟩
    · rw [List.mem_singleton.mp hmem, hx] at hy
      rw [← hh, ← Option.some.inj hy]
      exact Or.inl rfl
  · rintro (rfl | ⟨msg', hmem, hnamed⟩)
    · exact ⟨msg, List.mem_append_right _ List.mem_cons_self, x, hx, rfl⟩
    · exact ⟨msg', List.mem_append_left _ hmem, hnamed⟩

theorem namedHeights_perm {m : Machine K} {msgs msgs' : List (Context × GenericQC K)}
    (h : msgs.Perm msgs') : m.namedHeights msgs = m.namedHeights msgs' := by
  unfold namedHeights
  simp only [h.mem_iff]

/-- One message: the store stays as it is, and the higher of the two blocks is the one of
`qc_high`. -/
theorem afterNewView_highest {m : Machine K} (ctx : Context) {qc : GenericQC K}
    {q x : TreeNode K} (hq : m.storage.get m.storage.state.qcHigh.node = some q)
    (hnames : m.Names qc x) :
    (m.afterNewView ctx qc).storage.inMemQueue = m.storage.inMemQueue ∧
      ((q.height < x.height ∧ (m.afterNewView ctx qc).storage.state.qcHigh = qc ∧
          (m.afterNewView ctx qc).storage.state.leaf = x) ∨
        (x.height ≤ q.height ∧ m.afterNewView ctx qc = m)) := by
  obtain ⟨hx, hhash⟩ := hnames
  have hafter : m.afterNewView ctx qc = { m with storage := m.storage.updateQcHigh x qc } := by
    show (m.onRecvNewView qc).1 = _
    unfold onRecvNewView
    rw [hx]
  have hstored : m.storage.get x.hash = some x := by
    rw [hhash]
    exact hx
  refine ⟨?_, ?_⟩
  · rw [hafter]
    exact HotstuffStorage.updateQcHigh_inMemQueue_of_stored qc hstored
  · by_cases hlt : q.height < x.height
    · obtain ⟨hst, -⟩ := HotstuffStorage.updateQcHigh_of_raises qc ⟨q, hq, hlt⟩
      refine Or.inl ⟨hlt, ?_, ?_⟩
      · rw [hafter, hst]
      · rw [hafter, hst]
    · refine Or.inr ⟨not_lt.mp hlt, afterNewView_of_not_raises ?_⟩
      intro node hnode hr
      obtain ⟨q', hq', hlt'⟩ := hr
      rw [← Option.some.inj (hq.symm.trans hq'), ← Option.some.inj (hx.symm.trans hnode)] at hlt'
      exact hlt hlt'

/-- What is collected from `msgs` by a replica that starts as `m`. -/
structure Collected (m : Machine K) (msgs : List (Context × GenericQC K)) (m' : Machine K) :
    Prop where
  store : m'.storage.inMemQueue = m.storage.inMemQueue
  highest : ∀ q, m.storage.get m.storage.state.qcHigh.node = some q →
    ∃ q', m'.storage.get m'.storage.state.qcHigh.node = some q' ∧
      IsGreatest (insert q.height (m.namedHeights msgs)) q'.height
  leaf : m'.storage.state.qcHigh ≠ m.storage.state.qcHigh →
    m'.storage.state.leaf.hash = m'.storage.state.qcHigh.node

theorem afterNewViews_collected {m : Machine K} {q : TreeNode K}
    (hq : m.storage.get m.storage.state.qcHigh.node = some q)
    (msgs : List (Context × GenericQC K)) (hmsgs : ∀ msg ∈ msgs, ∃ x, m.Names msg.2 x) :
    Collected m msgs (m.afterNewViews msgs) := by
  induction msgs using List.reverseRecOn with
  | nil =>
    refine ⟨rfl, ?_, fun h => absurd rfl h⟩
    intro q hq
    refine ⟨q, hq, Set.mem_insert _ _, ?_⟩
    rintro h (rfl | ⟨msg, hmem, -⟩)
    · exact le_rfl
    · cases hmem
  | append_singleton msgs msg ih =>
    have h := ih fun msg' hmem => hmsgs msg' (List.mem_append_left _ hmem)
    obtain ⟨x, hx, hhash⟩ := hmsgs msg (List.mem_append_right _ List.mem_cons_self)
    obtain ⟨q', hq', hgreatest⟩ := h.highest q hq
    have hget : ∀ k, (m.afterNewViews msgs).storage.get k = m.storage.get k := by
      intro k
      unfold HotstuffStorage.get
      rw [h.store]
    have hstep : m.afterNewViews (msgs ++ [msg]) =
        (m.afterNewViews msgs).afterNewView msg.1 msg.2 := List.foldl_concat ..
    obtain ⟨hstore, hcases⟩ := afterNewView_highest msg.1 hq' ⟨(hget _).trans hx, hhash⟩
    rw [← hstep] at hstore hcases
    have hset : insert q.height (m.namedHeights (msgs ++ [msg])) =
        insert x.height (insert q.height (m.namedHeights msgs)) := by
      rw [namedHeights_snoc hx, Set.insert_comm]
    refine ⟨hstore.trans h.store, ?_, ?_⟩
    · intro q₀ hq₀
      rw [← Option.some.inj (hq.symm.trans hq₀), hset]
      rcases hcases with ⟨hlt, hqc, -⟩ | ⟨hle, hsame⟩
      · refine ⟨x, ?_, ?_⟩
        · rw [hqc]
          unfold HotstuffStorage.get
          rw [hstore, h.store]
          exact hx
        · have hmax := hgreatest.insert x.height
          rw [max_eq_left hlt.le] at hmax
          exact hmax
      · refine ⟨q', by rw [hsame]; exact hq', ?_⟩
        have hmax := hgreatest.insert x.height
        rw [max_eq_right hle] at hmax
        exact hmax
    · intro hne
      rcases hcases with ⟨-, hqc, hleaf⟩ | ⟨-, hsame⟩
      · rw [hqc, hleaf]
        exact hhash
      · rw [hsame] at hne ⊢
        exact h.leaf hne

/-- After any `NewView` messages for stored blocks, `qc_high` is for a block of the greatest
height among the old one and those named, whatever the order, and the next beat proposes on
it. -/
theorem beats_on_highest (m : Machine K) (msgs : List (Context × GenericQC K)) (q : TreeNode K)
    (hq : m.storage.get m.storage.state.qcHigh.node = some q)
    (hmsgs : ∀ msg ∈ msgs, ∃ x, m.Names msg.2 x) :
    ∃ q', (m.afterNewViews msgs).storage.get
        (m.afterNewViews msgs).storage.state.qcHigh.node = some q' ∧
      IsGreatest (insert q.height (m.namedHeights msgs)) q'.height ∧
      (∀ msgs', msgs.Perm msgs' → ∃ q'', (m.afterNewViews msgs').storage.get
        (m.afterNewViews msgs').storage.state.qcHigh.node = some q'' ∧ q''.height = q'.height) ∧
      ∀ cmds, ∃ ctx prop,
        ((m.afterNewViews msgs).onBeat cmds).2 = .ok (.newProposal ctx prop) ∧
        prop.justify = (m.afterNewViews msgs).storage.state.qcHigh ∧
        ((m.afterNewViews msgs).storage.state.qcHigh ≠ m.storage.state.qcHigh →
          prop.parent = (m.afterNewViews msgs).storage.state.qcHigh.node) := by
  have h := afterNewViews_collected hq msgs hmsgs
  obtain ⟨q', hq', hgreatest⟩ := h.highest q hq
  refine ⟨q', hq', hgreatest, ?_, ?_⟩
  · intro msgs' hperm
    have hmsgs' : ∀ msg ∈ msgs', ∃ x, m.Names msg.2 x :=
      fun msg hmem => hmsgs msg (hperm.mem_iff.mpr hmem)
    obtain ⟨q'', hq'', hgreatest'⟩ := (afterNewViews_collected hq msgs' hmsgs').highest q hq
    rw [← namedHeights_perm hperm] at hgreatest'
    exact ⟨q'', hq'', hgreatest'.unique hgreatest⟩
  · intro cmds
    exact ⟨_, (m.afterNewViews msgs).makeLeaf cmds, rfl, rfl, h.leaf⟩

end Machine

namespace Symbolic

open Machine

/-- A replica that stores `a1` and `a2`. -/
def storing : Machine symbolic := (fresh 4 0).run [deliver a1, deliver a2]

/-- `NewView` messages for `a1`, for `a2`, and for `a2` once more. -/
def highMsgs : List (Context × GenericQC symbolic) :=
  [(ctxOf 1, certFor a1), (ctxOf 2, certFor a2), (ctxOf 3, ⟨7, a2.hash, none⟩)]

/-- They take `qc_high` to `a2`, in each order. -/
theorem beats_on_a2 : ∃ q', (storing.afterNewViews highMsgs).storage.get
      (storing.afterNewViews highMsgs).storage.state.qcHigh.node = some q' ∧ q'.height = 2 ∧
    ∀ msgs', highMsgs.Perm msgs' → ∃ q'', (storing.afterNewViews msgs').storage.get
      (storing.afterNewViews msgs').storage.state.qcHigh.node = some q'' ∧ q''.height = 2 := by
  have hnames : ∀ msg ∈ highMsgs, ∃ x, storing.Names msg.2 x := by
    intro msg hmsg
    simp only [highMsgs, List.mem_cons, List.not_mem_nil, or_false] at hmsg
    rcases hmsg with rfl | rfl | rfl
    · exact ⟨a1, by decide +kernel, rfl⟩
    · exact ⟨a2, by decide +kernel, rfl⟩
    · exact ⟨a2, by decide +kernel, rfl⟩
  obtain ⟨q', hq', -, hperm, -⟩ :=
    beats_on_highest storing highMsgs a1 (by decide +kernel) hnames
  have hheight : q'.height = 2 := by
    have ha2 : (storing.afterNewViews highMsgs).storage.get
        (storing.afterNewViews highMsgs).storage.state.qcHigh.node = some a2 := by decide +kernel
    rw [← Option.some.inj (ha2.symm.trans hq')]
    rfl
  rw [hheight] at hperm
  exact ⟨q', hq', hheight, hperm⟩

end Symbolic

end HotstuffConsensus
