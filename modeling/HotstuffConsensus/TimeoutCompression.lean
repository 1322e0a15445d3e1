import HotstuffConsensus.TimeoutCounting
import HotstuffConsensus.Database

/-!
# Compressing timeout certificates

`compress_tc` takes the set of a view out of `tc_map` when it has `threshold` certificates,
and combines them afterwards. The signature scheme asks for more than `threshold` shares, and
`combine_time_certificates` returns `None` for fewer. The certificates of a view that just
reaches the threshold are lost.
-/

namespace HotstuffConsensus

open Lib

variable {K : Crypto}

/-- A certificate for `v` with a combined signature. -/
def TimeoutCertificate.CombinedFor (tc : TimeoutCertificate K) (v : ViewNumber) : Prop :=
  tc.view = v ∧ ∃ sign, tc.viewSign = .combined sign

namespace HotstuffStorage

/-- The certificates of each view are valid partial ones, of distinct signers. -/
structure SoundTcs (s : HotstuffStorage K) : Prop where
  valid : ∀ (v : ViewNumber) (tcs : TcSet K), s.tcMap.lookup v = some tcs → ∀ tc ∈ HashMap.values tcs,
    ∃ kit, tc.viewSign = .part kit ∧
      K.verifyShare s.signaturer.pks kit.signId kit.sign (beBytes v) = true
  distinct : ∀ (v : ViewNumber) (tcs : TcSet K), s.tcMap.lookup v = some tcs →
    (((HashMap.values tcs).filterMap TimeoutCertificate.partialSign).map SignKit.signId).Nodup

/-- A set that leaves `tc_map` becomes a combined certificate of its view. If none leaves,
`tc_map` is as before. -/
def LosesNone (s : HotstuffStorage K) : Prop :=
  (∀ v, (s.tcMap.lookup v).isSome → s.compressTc.1.tcMap.lookup v = none →
    ∃ tc, tc.CombinedFor v ∧ s.compressTc.1.combinedTcQueue = s.combinedTcQueue ++ [tc]) ∧
  ((∀ v, (s.tcMap.lookup v).isSome → s.compressTc.1.tcMap.lookup v ≠ none) →
    s.compressTc.1.tcMap = s.tcMap)

/-- The set that is taken out is larger than `threshold`. -/
def AboveThreshold (s : HotstuffStorage K) : Prop :=
  ∀ (v : ViewNumber) (tcs : TcSet K), s.fullViews.max = (v : WithBot ViewNumber) →
    s.tcMap.lookup v = some tcs → s.conf.threshold < HashMap.size tcs

/-- Every valid certificate gives its share. -/
theorem SoundTcs.card_partialSigns {s : HotstuffStorage K} (h : s.SoundTcs) {v : ViewNumber}
    {tcs : TcSet K} (htcs : s.tcMap.lookup v = some tcs) :
    Multiset.card ((HashMap.values tcs).filterMap TimeoutCertificate.partialSign) =
      HashMap.size tcs := by
  have hpart : ∀ tc ∈ HashMap.values tcs, tc.partialSign.isSome := by
    intro tc htc
    obtain ⟨kit, hkit, -⟩ := h.valid v tcs htcs tc htc
    unfold TimeoutCertificate.partialSign
    rw [hkit]
    rfl
  rw [← HashMap.card_values]
  generalize HashMap.values tcs = certs at hpart
  induction certs using Quotient.inductionOn with
  | h certs => exact List.filterMap_length_eq_length.mpr hpart

/-- Valid certificates combine when there are more of them than the threshold. -/
theorem SoundTcs.combines_iff (laws : CombineLaws K) {s : HotstuffStorage K} (h : s.SoundTcs)
    {v : ViewNumber} {tcs : TcSet K} (htcs : s.tcMap.lookup v = some tcs) :
    (∃ tc, tc.CombinedFor v ∧
        combineTimeCertificates s.signaturer v s.state.qcHigh tcs = some tc) ↔
      K.threshold s.signaturer.pks < HashMap.size tcs := by
  have hsome := laws.isSome_iff s.signaturer.pks
    (((HashMap.values tcs).filterMap TimeoutCertificate.partialSign).map
      fun kit => (kit.signId, kit.sign))
  rw [Multiset.card_map, h.card_partialSigns htcs, Multiset.map_map] at hsome
  have hiff := hsome.trans (and_iff_left (h.distinct v tcs htcs))
  rw [← hiff]
  unfold combineTimeCertificates DefaultSignaturer.combinePartialSign
  cases K.combineSignatures s.signaturer.pks
      (((HashMap.values tcs).filterMap TimeoutCertificate.partialSign).map
        fun kit => (kit.signId, kit.sign)) with
  | none => simp
  | some sign => exact ⟨fun _ => rfl, fun _ => ⟨_, ⟨rfl, sign, rfl⟩, rfl⟩⟩

/-- Compressing loses no certificate exactly when the set that is taken out is larger than the
threshold. -/
theorem losesNone_iff (laws : CombineLaws K) (s : HotstuffStorage K)
    (hscheme : K.threshold s.signaturer.pks = s.conf.threshold) (hs : s.SoundTcs) :
    s.LosesNone ↔ s.AboveThreshold := by
  cases hmax : s.fullViews.max with
  | bot =>
    have hsame := compressTc_of_none hmax
    constructor
    · intro _ v tcs hv
      rw [hmax] at hv
      cases hv
    · intro _
      refine ⟨fun v hsome hnone => ?_, fun _ => by rw [hsame]⟩
      rw [hsame] at hnone
      rw [hnone] at hsome
      cases hsome
  | coe v =>
    obtain ⟨tcs, htcs, -⟩ := exists_tcs_of_max hmax
    obtain ⟨-, hmap, hqueue⟩ := compressTc_of_max hmax htcs
    have hcombines := hs.combines_iff laws htcs
    rw [hscheme] at hcombines
    have hgone : s.compressTc.1.tcMap.lookup v = none := by
      rw [hmap]
      exact Finmap.lookup_erase _ _
    constructor
    · rintro ⟨hpushed, -⟩ v' tcs' hv' htcs'
      obtain rfl : v = v' := WithBot.coe_inj.mp (hmax.symm.trans hv')
      obtain rfl := Option.some.inj (htcs.symm.trans htcs')
      obtain ⟨tc, htc, hnew⟩ := hpushed v (by rw [htcs]; rfl) hgone
      rw [hqueue] at hnew
      have hone := List.append_cancel_left hnew
      exact hcombines.mp ⟨tc, htc, Option.toList_eq_singleton_iff.mp hone⟩
    · intro habove
      obtain ⟨tc, htc, hcombined⟩ := hcombines.mpr (habove v tcs hmax htcs)
      refine ⟨fun v' hsome hnone => ?_, fun hkept => ?_⟩
      · -- the set of the full view is the only one that leaves
        have hv : v' = v := by
          by_contra hne
          rw [hmap, Finmap.lookup_erase_ne hne] at hnone
          rw [hnone] at hsome
          cases hsome
        rw [hv]
        refine ⟨tc, htc, ?_⟩
        rw [hqueue, hcombined]
        rfl
      · exact absurd hgone (hkept v (by rw [htcs]; rfl))

end HotstuffStorage

namespace Symbolic

open HotstuffStorage

/-- The certificate of replica `i` for view 1. -/
def timeoutOf (i : SignID) : TimeoutCertificate symbolic :=
  .new (replicaId i) 1 ⟨(i, beBytes 1), i⟩ (initQc symbolic)

/-- The certificates of the given replicas, as they are read back. -/
def timeoutsOf : List SignID → TcSet symbolic
  | [] => ∅
  | i :: ids => Database.insertTc (timeoutsOf ids) (timeoutOf i)

/-- A storage of four replicas that holds them. -/
def holdingTimeouts (ids : List SignID) : HotstuffStorage symbolic :=
  { (fresh 4 0).storage with tcMap := Finmap.singleton 1 (timeoutsOf ids) }

theorem mem_timeoutsOf {ids : List SignID} {tc : TimeoutCertificate symbolic}
    (h : tc ∈ HashMap.values (timeoutsOf ids)) : ∃ i, tc = timeoutOf i := by
  induction ids with
  | nil => cases h
  | cons i ids ih =>
    unfold timeoutsOf Database.insertTc at h
    split at h
    · exact ih h
    · obtain ⟨k, hk⟩ := HashMap.mem_values.mp h
      rcases HashMap.lookup_insert_cases hk with ⟨-, hnew⟩ | hold
      · exact ⟨i, hnew⟩
      · exact ih (HashMap.mem_values.mpr ⟨k, hold⟩)

theorem holdingTimeouts_sound {ids : List SignID}
    (h : (((HashMap.values (timeoutsOf ids)).filterMap TimeoutCertificate.partialSign).map
      SignKit.signId).Nodup) : (holdingTimeouts ids).SoundTcs := by
  have hview : ∀ (v : ViewNumber) (tcs : TcSet symbolic),
      (holdingTimeouts ids).tcMap.lookup v = some tcs → v = 1 ∧ tcs = timeoutsOf ids := by
    intro v tcs hlookup
    have hmem := Finmap.mem_of_lookup_eq_some hlookup
    obtain rfl := (Finmap.mem_singleton _ _ _).mp hmem
    exact ⟨rfl, (Option.some.inj ((Finmap.lookup_singleton_eq).symm.trans hlookup)).symm⟩
  constructor
  · intro v tcs hlookup tc htc
    obtain ⟨rfl, rfl⟩ := hview v tcs hlookup
    obtain ⟨i, rfl⟩ := mem_timeoutsOf htc
    exact ⟨_, rfl, decide_eq_true rfl⟩
  · intro v tcs hlookup
    obtain ⟨rfl, rfl⟩ := hview v tcs hlookup
    exact h

/-- The certificates of three replicas of four are combined. -/
theorem three_timeouts_combined : (holdingTimeouts [1, 2, 3]).LosesNone := by
  refine (losesNone_iff symbolic_combineLaws (holdingTimeouts [1, 2, 3]) rfl
    (holdingTimeouts_sound (by decide +kernel))).mpr ?_
  intro v tcs hmax htcs
  have hone : (holdingTimeouts [1, 2, 3]).fullViews.max = ((1 : ViewNumber) : WithBot ViewNumber) := by
    decide +kernel
  obtain rfl : v = 1 := WithBot.coe_inj.mp (hmax.symm.trans hone)
  obtain rfl := Option.some.inj (htcs.symm.trans Finmap.lookup_singleton_eq)
  decide +kernel

/-- Those of two replicas are as many as the threshold. They leave `tc_map` and nothing is
pushed. -/
theorem two_timeouts_lost : (holdingTimeouts [1, 2]).SoundTcs ∧
    symbolic.threshold (holdingTimeouts [1, 2]).signaturer.pks =
      (holdingTimeouts [1, 2]).conf.threshold ∧
    ¬ (holdingTimeouts [1, 2]).LosesNone := by
  refine ⟨holdingTimeouts_sound (by decide +kernel), rfl, ?_⟩
  rintro ⟨hpushed, -⟩
  obtain ⟨tc, -, hqueue⟩ := hpushed 1 (by decide +kernel) (by decide +kernel)
  have hlength := congrArg List.length hqueue
  have hempty : (holdingTimeouts [1, 2]).compressTc.1.combinedTcQueue.length = 0 := by
    decide +kernel
  rw [hempty, List.length_append, List.length_singleton] at hlength
  omega

end Symbolic

end HotstuffConsensus
