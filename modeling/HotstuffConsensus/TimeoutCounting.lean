import HotstuffConsensus.StorageTheorems
import HotstuffConsensus.ThresholdScheme
import HotstuffConsensus.Lib.Run

/-!
# Counting timeout certificates

`append_tc` queues a certificate for the database and compresses `tc_map`, but does not put
the certificate into `tc_map`, which `is_reach_threshold` and `compress_tc` count. A view is
seen to time out only by what a restart has put there.

`Tally` is the storage with what ought to be counted: for each view, the replicas whose
certificates have been appended and not yet compressed. The storage keeps up with it exactly
as long as no certificate completes a set.
-/

namespace HotstuffConsensus

open Lib

variable {K : Crypto}

/-! ## What `append_tc` does to `tc_map` -/

namespace HotstuffStorage

theorem isReachThreshold_iff {s : HotstuffStorage K} {v : ViewNumber} :
    s.isReachThreshold v = true ↔
      ∃ tcs, s.tcMap.lookup v = some tcs ∧ s.conf.threshold ≤ HashMap.size tcs := by
  unfold isReachThreshold
  cases s.tcMap.lookup v with
  | none => simp
  | some tcs => simp

/-- The views with at least `threshold` certificates. -/
def fullViews (s : HotstuffStorage K) : Finset ViewNumber :=
  s.tcMap.keys.filter fun v => s.conf.threshold ≤ ((s.tcMap.lookup v).map HashMap.size).getD 0

theorem compressTc_of_none {s : HotstuffStorage K} (h : s.fullViews.max = ⊥) :
    s.compressTc.1 = s := by
  unfold fullViews at h
  unfold compressTc
  dsimp only
  rw [h]

/-- The certificates of the highest full view are taken out, and combined if they can be. -/
theorem compressTc_of_max {s : HotstuffStorage K} {v : ViewNumber} {tcs : TcSet K}
    (h : s.fullViews.max = (v : WithBot ViewNumber)) (htcs : s.tcMap.lookup v = some tcs) :
    s.compressTc.1.conf = s.conf ∧ s.compressTc.1.tcMap = s.tcMap.erase v ∧
      s.compressTc.1.combinedTcQueue = s.combinedTcQueue ++
        (combineTimeCertificates s.signaturer v s.state.qcHigh tcs).toList := by
  unfold fullViews at h
  unfold compressTc
  dsimp only
  rw [h]
  dsimp only
  rw [htcs, Option.bind_some]
  cases combineTimeCertificates s.signaturer v s.state.qcHigh tcs with
  | none => exact ⟨rfl, rfl, (List.append_nil _).symm⟩
  | some tc => exact ⟨rfl, rfl, rfl⟩

/-- A full view has its certificates. -/
theorem exists_tcs_of_max {s : HotstuffStorage K} {v : ViewNumber}
    (h : s.fullViews.max = (v : WithBot ViewNumber)) :
    ∃ tcs, s.tcMap.lookup v = some tcs ∧ s.conf.threshold ≤ HashMap.size tcs := by
  obtain ⟨hmem, hle⟩ := Finset.mem_filter.mp (Finset.mem_of_max h)
  obtain ⟨tcs, htcs⟩ := Finmap.mem_iff.mp (Finmap.mem_keys.mp hmem)
  rw [htcs] at hle
  exact ⟨tcs, htcs, hle⟩

/-- `compress_tc` leaves `tc_map` alone or removes one full view from it. -/
theorem compressTc_cases (s : HotstuffStorage K) :
    s.compressTc.1.conf = s.conf ∧
      (s.compressTc.1.tcMap = s.tcMap ∨
        ∃ v, s.isReachThreshold v = true ∧ s.compressTc.1.tcMap = s.tcMap.erase v) := by
  cases hmax : s.fullViews.max with
  | bot =>
    rw [compressTc_of_none hmax]
    exact ⟨rfl, Or.inl rfl⟩
  | coe v =>
    obtain ⟨tcs, htcs, hle⟩ := exists_tcs_of_max hmax
    obtain ⟨hconf, hmap, -⟩ := compressTc_of_max hmax htcs
    exact ⟨hconf, Or.inr ⟨v, isReachThreshold_iff.mpr ⟨tcs, htcs, hle⟩, hmap⟩⟩

/-- The certificate itself does not get into `tc_map`. -/
theorem appendTc_cases (s : HotstuffStorage K) (tc : TimeoutCertificate K) :
    (s.appendTc tc).1.conf = s.conf ∧
      ((s.appendTc tc).1.tcMap = s.tcMap ∨
        ∃ v, s.isReachThreshold v = true ∧ (s.appendTc tc).1.tcMap = s.tcMap.erase v) := by
  unfold appendTc
  cases tc.viewSign with
  | part kit => exact compressTc_cases _
  | combined sign => exact compressTc_cases _

end HotstuffStorage

/-! ## What ought to be counted -/

/-- The replicas with a certificate for `v` in a set of certificates. -/
def tcSenders (v : ViewNumber) (tcs : TcSet K) : Finset ReplicaID :=
  (tcs.keys.filter fun k => k.1 = v).image Prod.snd

theorem card_tcSenders_le (v : ViewNumber) (tcs : TcSet K) :
    (tcSenders v tcs).card ≤ HashMap.size tcs := by
  calc (tcSenders v tcs).card ≤ (tcs.keys.filter fun k => k.1 = v).card := Finset.card_image_le
    _ ≤ tcs.keys.card := Finset.card_filter_le _ _
    _ = HashMap.size tcs := HashMap.card_keys tcs

/-- A storage, and for each view the replicas whose certificates have been appended and not
yet compressed. -/
structure Tally (K : Crypto) where
  storage : HotstuffStorage K
  appended : ViewNumber → Finset ReplicaID

namespace Tally

/-- The certificates a storage holds at the start count as appended. -/
def start (s : HotstuffStorage K) : Tally K :=
  ⟨s, fun v => ((s.tcMap.lookup v).map (tcSenders v)).getD ∅⟩

/-- The senders for `v` with those of one more certificate. -/
def added (t : Tally K) (tc : TimeoutCertificate K) (v : ViewNumber) : Finset ReplicaID :=
  if tc.view = v then insert tc.sender (t.appended v) else t.appended v

/-- An `append_tc` call; a view that leaves `tc_map` is compressed. -/
def step (t : Tally K) (tc : TimeoutCertificate K) : Tally K :=
  let s := (t.storage.appendTc tc).1
  ⟨s, fun v => if (t.storage.tcMap.lookup v).isSome ∧ s.tcMap.lookup v = none then ∅
    else t.added tc v⟩

def quorum (t : Tally K) : ℕ := t.storage.conf.total - (t.storage.conf.total - 1) / 3

/-- `is_reach_threshold` tells the views with certificates of `n - f` replicas. -/
def Right (t : Tally K) : Prop :=
  ∀ v, t.storage.isReachThreshold v = true ↔ t.quorum ≤ (t.appended v).card

/-- The certificate brings the senders for its view to `n - f`. -/
def Completes (t : Tally K) (tc : TimeoutCertificate K) : Prop :=
  (t.appended tc.view).card < t.quorum ∧ t.quorum ≤ (t.added tc tc.view).card

/-- Throughout a run `is_reach_threshold` is right, and a call that completes a set returns
its view. -/
def Counts (t : Tally K) (tcs : List (TimeoutCertificate K)) : Prop :=
  t.Right ∧ Run.Each step (fun t tc =>
    (t.Completes tc → (t.storage.appendTc tc).2 = tc.view) ∧ (t.step tc).Right) t tcs

theorem quorum_pos {t : Tally K} (hn : 0 < t.storage.conf.total) : 0 < t.quorum := by
  unfold quorum
  omega

theorem step_quorum (t : Tally K) (tc : TimeoutCertificate K) :
    (t.step tc).quorum = t.quorum := by
  have hconf : (t.step tc).storage.conf = t.storage.conf := (t.storage.appendTc_cases tc).1
  unfold quorum
  rw [hconf]

theorem appended_subset_added (t : Tally K) (tc : TimeoutCertificate K) (v : ViewNumber) :
    t.appended v ⊆ t.added tc v := by
  unfold added
  split
  · exact Finset.subset_insert _ _
  · exact Finset.Subset.refl _

/-- What a call does to one view: it is compressed, and was full, or its certificates in
`tc_map` stay and the sender is added to what ought to be there. -/
theorem step_view (t : Tally K) (tc : TimeoutCertificate K) (v : ViewNumber) :
    (t.storage.isReachThreshold v = true ∧ (t.step tc).storage.isReachThreshold v = false ∧
        (t.step tc).appended v = ∅) ∨
      ((t.step tc).storage.isReachThreshold v = t.storage.isReachThreshold v ∧
        (t.step tc).appended v = t.added tc v) := by
  obtain ⟨hconf, hmap⟩ := t.storage.appendTc_cases tc
  have hreach : ∀ u, (t.step tc).storage.tcMap.lookup u = t.storage.tcMap.lookup u →
      (t.step tc).storage.isReachThreshold u = t.storage.isReachThreshold u := by
    intro u hu
    have hconf' : (t.step tc).storage.conf = t.storage.conf := hconf
    unfold HotstuffStorage.isReachThreshold
    rw [hu, hconf']
  have hstay : (t.step tc).storage.tcMap.lookup v = t.storage.tcMap.lookup v →
      (t.step tc).appended v = t.added tc v := by
    intro hu
    show (if (t.storage.tcMap.lookup v).isSome ∧ (t.step tc).storage.tcMap.lookup v = none
      then ∅ else t.added tc v) = t.added tc v
    rw [hu]
    apply if_neg
    rintro ⟨hsome, hnone⟩
    rw [hnone] at hsome
    cases hsome
  rcases hmap with hsame | ⟨u, hfull, herase⟩
  · have hlook : (t.step tc).storage.tcMap.lookup v = t.storage.tcMap.lookup v :=
      congrArg (Finmap.lookup v) hsame
    exact Or.inr ⟨hreach v hlook, hstay hlook⟩
  · by_cases huv : v = u
    · subst huv
      have hgone : (t.step tc).storage.tcMap.lookup v = none := by
        show (t.storage.appendTc tc).1.tcMap.lookup v = none
        rw [herase]
        exact Finmap.lookup_erase v _
      have hsome : (t.storage.tcMap.lookup v).isSome := by
        obtain ⟨tcs, htcs, -⟩ := HotstuffStorage.isReachThreshold_iff.mp hfull
        rw [htcs]
        rfl
      refine Or.inl ⟨hfull, ?_, if_pos ⟨hsome, hgone⟩⟩
      unfold HotstuffStorage.isReachThreshold
      rw [hgone]
      rfl
    · have hlook : (t.step tc).storage.tcMap.lookup v = t.storage.tcMap.lookup v := by
        show (t.storage.appendTc tc).1.tcMap.lookup v = _
        rw [herase]
        exact Finmap.lookup_erase_ne huv
      exact Or.inr ⟨hreach v hlook, hstay hlook⟩

/-- After a right state the next one is right exactly when no set is completed. -/
theorem step_right_iff {t : Tally K} (hn : 0 < t.storage.conf.total) (ht : t.Right)
    (tc : TimeoutCertificate K) : (t.step tc).Right ↔ ¬ t.Completes tc := by
  constructor
  · rintro hright ⟨hlt, hle⟩
    -- the view of the completed set is not full in `tc_map`, and does not become so
    have hnot : t.storage.isReachThreshold tc.view = false := by
      rw [Bool.eq_false_iff]
      intro hreach
      exact absurd ((ht tc.view).mp hreach) (not_le.mpr hlt)
    rcases t.step_view tc tc.view with ⟨hfull, -⟩ | ⟨hreach, happ⟩
    · rw [hnot] at hfull
      cases hfull
    · have hafter := hright tc.view
      rw [hreach, happ, step_quorum, hnot] at hafter
      exact absurd (hafter.mpr hle) Bool.false_ne_true
  · intro hno v
    rw [step_quorum]
    rcases t.step_view tc v with ⟨-, hreach, happ⟩ | ⟨hreach, happ⟩
    · rw [hreach, happ]
      have hpos := quorum_pos hn
      constructor
      · intro h
        cases h
      · intro h
        rw [Finset.card_empty] at h
        omega
    · rw [hreach, happ, ht v]
      have hgrow := Finset.card_le_card (t.appended_subset_added tc v)
      constructor
      · intro h
        exact h.trans hgrow
      · intro h
        by_cases hv : tc.view = v
        · subst hv
          by_contra hlt
          exact hno ⟨not_le.mp hlt, h⟩
        · have hsame : t.added tc v = t.appended v := if_neg hv
          rw [hsame] at h
          exact h

/-- The sets a storage starts with are right when the full ones come from `n - f` replicas. -/
theorem start_right_iff {s : HotstuffStorage K} (hn : 0 < s.conf.total) :
    (start s).Right ↔ ∀ v tcs, s.tcMap.lookup v = some tcs →
      s.conf.threshold ≤ HashMap.size tcs → (start s).quorum ≤ (tcSenders v tcs).card := by
  have happ : ∀ v tcs, s.tcMap.lookup v = some tcs →
      (start s).appended v = tcSenders v tcs := by
    intro v tcs htcs
    show ((s.tcMap.lookup v).map (tcSenders v)).getD ∅ = _
    rw [htcs]
    rfl
  constructor
  · intro h v tcs htcs hsize
    rw [← happ v tcs htcs]
    exact (h v).mp (HotstuffStorage.isReachThreshold_iff.mpr ⟨tcs, htcs, hsize⟩)
  · intro h v
    constructor
    · intro hreach
      obtain ⟨tcs, htcs, hsize⟩ := HotstuffStorage.isReachThreshold_iff.mp hreach
      rw [happ v tcs htcs]
      exact h v tcs htcs hsize
    · intro hle
      cases htcs : s.tcMap.lookup v with
      | none =>
        have hempty : (start s).appended v = ∅ := by
          show ((s.tcMap.lookup v).map (tcSenders v)).getD ∅ = _
          rw [htcs]
          rfl
        have hpos : 0 < (start s).quorum := quorum_pos hn
        rw [hempty, Finset.card_empty] at hle
        omega
      | some tcs =>
        rw [happ v tcs htcs] at hle
        have hcard := card_tcSenders_le v tcs
        have hth : s.conf.threshold < (start s).quorum := by
          show (s.conf.total <<< 1) / 3 < s.conf.total - (s.conf.total - 1) / 3
          rw [Nat.shiftLeft_eq]
          omega
        have hsize : s.conf.threshold ≤ HashMap.size tcs := by omega
        exact HotstuffStorage.isReachThreshold_iff.mpr ⟨tcs, htcs, hsize⟩

/-- Timeout certificates are counted exactly in the runs in which none completes a set, from a
storage whose full sets come from `n - f` replicas. -/
theorem counts_iff (s : HotstuffStorage K) (hn : 0 < s.conf.total)
    (tcs : List (TimeoutCertificate K)) :
    (start s).Counts tcs ↔
      (∀ v set, s.tcMap.lookup v = some set → s.conf.threshold ≤ HashMap.size set →
        (start s).quorum ≤ (tcSenders v set).card) ∧
      Run.Each step (fun t tc => ¬ t.Completes tc) (start s) tcs := by
  unfold Counts
  rw [start_right_iff hn]
  refine and_congr_right ?_
  intro hstart
  apply Run.each_iff (I := fun t => t.Right ∧ 0 < t.storage.conf.total) (R := fun _ _ => True)
  · exact ⟨(start_right_iff hn).mpr hstart, hn⟩
  · exact Run.Each.of_forall (fun _ _ => trivial) _ _
  · rintro t tc ⟨hright, hpos⟩ -
    rw [step_right_iff hpos hright]
    constructor
    · intro h
      exact h.2
    · intro h
      exact ⟨fun hc => absurd hc h, h⟩
  · rintro t tc ⟨hright, hpos⟩ - ⟨-, hnext⟩
    refine ⟨hnext, ?_⟩
    have hconf : (t.step tc).storage.conf = t.storage.conf := (t.storage.appendTc_cases tc).1
    rw [hconf]
    exact hpos

end Tally

namespace Symbolic

open Tally

/-- The timeout certificate of replica `i` for `view`. -/
def timeoutBy (i : ℕ) (view : ViewNumber) : TimeoutCertificate symbolic :=
  .new (replicaId i) view ⟨(i, beBytes view), i⟩ (initQc symbolic)

instance decidableCompletes (t : Tally symbolic) (tc : TimeoutCertificate symbolic) :
    Decidable (t.Completes tc) :=
  inferInstanceAs (Decidable (_ ∧ _))

/-- Certificates that complete no set: one of them comes twice. -/
theorem counts_two_timeouts :
    (start (fresh 4 0).storage).Counts [timeoutBy 1 1, timeoutBy 2 1, timeoutBy 1 1] := by
  refine (counts_iff (fresh 4 0).storage (by decide) _).mpr ⟨?_, by decide +kernel⟩
  intro v set hset
  have hempty : (fresh 4 0).storage.tcMap.lookup v = none := Finmap.lookup_empty v
  rw [hempty] at hset
  cases hset

/-- Three of four replicas have timed out in view 1. -/
def timedOut : Tally symbolic :=
  (((start (fresh 4 0).storage).step (timeoutBy 1 1)).step (timeoutBy 2 1)).step (timeoutBy 3 1)

/-- The storage does not notice that three of four replicas have timed out. -/
theorem third_timeout_not_counted :
    ¬ (start (fresh 4 0).storage).Counts [timeoutBy 1 1, timeoutBy 2 1, timeoutBy 3 1] := by
  rintro ⟨-, -, -, ⟨-, hright⟩, -⟩
  have hthree : timedOut.quorum ≤ (timedOut.appended 1).card := by decide +kernel
  have hreach : timedOut.storage.isReachThreshold 1 = false := by decide +kernel
  have htrue : timedOut.storage.isReachThreshold 1 = true := (hright 1).mpr hthree
  rw [hreach] at htrue
  cases htrue

end Symbolic

end HotstuffConsensus
