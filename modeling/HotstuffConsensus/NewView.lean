import HotstuffConsensus.Growth
import HotstuffConsensus.ThresholdScheme

/-!
# `NewView` messages

A `NewView` message carries the sender's `qc_high`. The replica looks up the block the
certificate names and hands both to `update_qc_high`; nobody validates the signature, and
what keeps a corrupted certificate out is the height comparison alone.

A message is harmless exactly when it does not get past that comparison with a signature
that `validate_qc` refuses.
-/

namespace HotstuffConsensus

open Lib

variable {K : Crypto}

namespace Machine

/-- The replica after a `NewView` message. -/
def afterNewView (m : Machine K) (ctx : Context) (qc : GenericQC K) : Machine K :=
  (m.processSafetyEvent (.recvNewViewMsg ctx qc)).1

/-- If `qc_high` changes, the new one verifies for the stored block it names; if it does
not, neither does the leaf. -/
def HarmlessNewView (m : Machine K) (ctx : Context) (qc : GenericQC K) : Prop :=
  let m' := m.afterNewView ctx qc
  let qcHigh' := m'.storage.state.qcHigh
  (qcHigh' ≠ m.storage.state.qcHigh → ∃ node, m'.storage.get qcHigh'.node = some node ∧
    m'.voter.validateQc node qcHigh'.combinedSign = true) ∧
  (qcHigh' = m.storage.state.qcHigh → m'.storage.state.leaf = m.storage.state.leaf)

/-- Whenever the certificate names a stored block above that of `qc_high`, its signature
verifies for that block. -/
def VerifiesIfHigher (m : Machine K) (qc : GenericQC K) : Prop :=
  ∀ node, m.storage.get qc.node = some node → m.storage.Raises node →
    m.voter.validateQc node qc.combinedSign = true

/-- A certificate that changes nothing: its block is unknown or not above `qc_high`. -/
theorem afterNewView_of_not_raises {m : Machine K} {ctx : Context} {qc : GenericQC K}
    (h : ∀ node, m.storage.get qc.node = some node → ¬ m.storage.Raises node) :
    m.afterNewView ctx qc = m := by
  show (m.onRecvNewView qc).1 = m
  rcases m.onRecvNewView_cases qc with ⟨-, hsame⟩ | ⟨node, hn, hraise⟩
  · exact hsame
  · rw [hraise, HotstuffStorage.updateQcHigh_of_not_raises (h node hn)]

/-- A certificate that takes effect, in a store keyed by hash. -/
theorem afterNewView_of_raises {m : Machine K} (ctx : Context) {qc : GenericQC K}
    {node : TreeNode K} (hk : Keyed m.storage.inMemQueue) (hn : m.storage.get qc.node = some node)
    (hr : m.storage.Raises node) :
    (m.afterNewView ctx qc).storage.state.qcHigh = qc ∧
      (m.afterNewView ctx qc).storage.get qc.node = some node ∧
      (m.afterNewView ctx qc).voter = m.voter := by
  have hafter : m.afterNewView ctx qc =
      { m with storage := m.storage.updateQcHigh node qc } := by
    show (m.onRecvNewView qc).1 = _
    unfold onRecvNewView
    rw [hn]
  have hstored : m.storage.get node.hash = some node := by
    rw [hk _ _ hn]
    exact hn
  obtain ⟨hst, -⟩ := HotstuffStorage.updateQcHigh_of_raises qc hr
  refine ⟨by rw [hafter, hst], ?_, by rw [hafter]⟩
  have hq := HotstuffStorage.updateQcHigh_inMemQueue_of_stored qc hstored
  rw [hafter]
  unfold HotstuffStorage.get
  rw [hq]
  exact hn

/-- The certificate that is already `qc_high` never raises it. -/
theorem ne_qcHigh_of_raises {m : Machine K} {qc : GenericQC K} {node : TreeNode K}
    (hn : m.storage.get qc.node = some node) (hr : m.storage.Raises node) :
    qc ≠ m.storage.state.qcHigh := by
  intro heq
  obtain ⟨qcNode, hq, hlt⟩ := hr
  rw [← heq, hn] at hq
  obtain rfl := Option.some.inj hq
  exact lt_irrefl _ hlt

/-- In every state a replica reaches, a `NewView` message is harmless exactly when its
certificate verifies or is not higher than `qc_high`. -/
theorem harmlessNewView_iff (m : Machine K) (hfresh : FreshStorage m.storage)
    (calls : List (Call K)) (ctx : Context) (qc : GenericQC K) :
    HarmlessNewView (m.run calls) ctx qc ↔ VerifiesIfHigher (m.run calls) qc := by
  have hk : Keyed (m.run calls).storage.inMemQueue := run_keyed hfresh.keyed calls
  revert hk
  -- only the keyed store is used of the run
  generalize m.run calls = m
  intro hk
  by_cases h : ∃ node, m.storage.get qc.node = some node ∧ m.storage.Raises node
  · obtain ⟨node, hn, hr⟩ := h
    obtain ⟨hqc, hget, hvoter⟩ := afterNewView_of_raises ctx hk hn hr
    have hne := ne_qcHigh_of_raises hn hr
    unfold HarmlessNewView VerifiesIfHigher
    dsimp only
    rw [hqc, hget, hvoter]
    constructor
    · intro hsafe node' hn' _
      obtain ⟨stored, hstored, hval⟩ := hsafe.1 hne
      rw [hn] at hn'
      rw [← Option.some.inj hn', Option.some.inj hstored]
      exact hval
    · intro hver
      exact ⟨fun _ => ⟨node, rfl, hver node hn hr⟩, fun heq => absurd heq hne⟩
  · have hsame : m.afterNewView ctx qc = m :=
      afterNewView_of_not_raises fun node hn hr => h ⟨node, hn, hr⟩
    unfold HarmlessNewView
    dsimp only
    rw [hsame]
    constructor
    · intro _ node hn hr
      exact absurd ⟨node, hn, hr⟩ h
    · intro _
      exact ⟨fun hne => absurd rfl hne, fun _ => rfl⟩

end Machine

namespace Symbolic

open Machine

/-- With `a1` stored, a certificate of a quorum for it takes effect. -/
theorem harmlessNewView_certificate :
    VerifiesIfHigher ((fresh 4 0).run [deliver a1]) (certFor a1) ∧
      (((fresh 4 0).run [deliver a1]).afterNewView (ctxOf 1) (certFor a1)).storage.state.qcHigh
        = certFor a1 ∧
      HarmlessNewView ((fresh 4 0).run [deliver a1]) (ctxOf 1) (certFor a1) := by
  have hver : VerifiesIfHigher ((fresh 4 0).run [deliver a1]) (certFor a1) := by
    intro node hn _
    have ha1 : ((fresh 4 0).run [deliver a1]).storage.get (certFor a1).node = some a1 := by
      decide +kernel
    rw [ha1] at hn
    obtain rfl := Option.some.inj hn
    decide +kernel
  exact ⟨hver, by decide +kernel,
    (harmlessNewView_iff (fresh 4 0) (.inMem 4 _ _ _) [deliver a1] (ctxOf 1) (certFor a1)).mpr hver⟩

/-- A certificate for `a1` that nobody signed. -/
def unsignedCert : GenericQC symbolic := ⟨1, a1.hash, signBy [] a1.toBeBytes⟩

/-- With `a1` stored, a certificate for it that nobody signed becomes `qc_high`. -/
theorem unsigned_newView_takes_effect :
    ¬ HarmlessNewView ((fresh 4 0).run [deliver a1]) (ctxOf 1) unsignedCert := by
  have hqc : (((fresh 4 0).run [deliver a1]).afterNewView (ctxOf 1)
      unsignedCert).storage.state.qcHigh = unsignedCert := by decide +kernel
  have hget : (((fresh 4 0).run [deliver a1]).afterNewView (ctxOf 1)
      unsignedCert).storage.get unsignedCert.node = some a1 := by decide +kernel
  unfold HarmlessNewView
  dsimp only
  rw [hqc, hget]
  intro h
  obtain ⟨node, hn, hval⟩ := h.1 (by decide +kernel)
  obtain rfl := Option.some.inj hn
  exact absurd hval (by decide +kernel)

end Symbolic

end HotstuffConsensus
