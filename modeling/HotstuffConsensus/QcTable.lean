import HotstuffConsensus.RestartGuarantees

/-!
# The two writers of the `qc` table

A certificate reaches the `qc` table through the justify queue, or as the justify of a flushed
proposal. The loop over the proposals binds the hash of the proposal where the other loop binds
the block that the certificate names, and the first row of a view stays.

So the rows are those of queued certificates exactly when, for each view, the proposal that comes
first with a justify of this view happens to be named by a queued certificate of the same view and
signature. Then it does not matter how the data is split into flushes either, as long as there is
one certificate per view.
-/

namespace HotstuffConsensus

open Lib Database

variable {K : Crypto} {C : Codec K}

/-- The certificates in a queue of certificates and in a queue of proposals. -/
def queuedCerts (props : List (TreeNode K)) (qcs : List (GenericQC K)) : List (GenericQC K) :=
  qcs ++ props.map TreeNode.justify

/-- The certificates of the justify queues of some tasks, in order. -/
def flushedQcs (tasks : List (DirtyData K)) : List (GenericQC K) :=
  tasks.flatMap DirtyData.justifyQueue

/-- The tasks are a way of splitting the two queues into flushes. -/
structure Splits (tasks : List (DirtyData K)) (props : List (TreeNode K))
    (qcs : List (GenericQC K)) : Prop where
  props : flushedProps tasks = props
  qcs : flushedQcs tasks = qcs

/-- Certificates of one view are equal. -/
def OneCertPerView (certs : List (GenericQC K)) : Prop :=
  ∀ c ∈ certs, ∀ c' ∈ certs, c.view = c'.view → c = c'

/-- Each row of the table is that of a queued certificate, whatever the flushes; and with one
certificate per view the rows are the same for all ways of splitting the queues. -/
def WritersAgree (C : Codec K) (db₀ : Database) (props : List (TreeNode K))
    (qcs : List (GenericQC K)) : Prop :=
  (∀ tasks, Splits tasks props qcs → ∀ row ∈ (tasks.foldl (flush C) db₀).qc,
    ∃ c ∈ queuedCerts props qcs, row = qcRow C c) ∧
  (OneCertPerView (queuedCerts props qcs) → ∀ tasks tasks', Splits tasks props qcs →
    Splits tasks' props qcs → ∀ row, row ∈ (tasks.foldl (flush C) db₀).qc ↔
      row ∈ (tasks'.foldl (flush C) db₀).qc)

/-- The first proposal with a justify of the given view. -/
def firstJustified (props : List (TreeNode K)) (view : ViewNumber) : Option (TreeNode K) :=
  props.find? fun p => p.justify.view = view

/-- The first proposal of each justify view is named by a queued certificate of this view, with
the signature of its justify. -/
def NamesFirst (props : List (TreeNode K)) (qcs : List (GenericQC K)) : Prop :=
  ∀ view p, firstJustified props view = some p → recordedQc p ∈ queuedCerts props qcs

/-! ## The row of a view -/

theorem qcRow_injective (laws : CodecLaws C) {a b : GenericQC K} (h : qcRow C a = qcRow C b) :
    a = b := by
  obtain ⟨hview, hnode, hsign⟩ := QcRow.mk.inj h
  have hbytes : K.toBytes a.combinedSign = K.toBytes b.combinedSign :=
    List.Vector.toList_injective (base64Encode_injective laws hsign)
  apply GenericQC.ext
  · exact hview
  · exact List.Vector.toList_injective (base64Encode_injective laws hnode)
  · have hdecode := congrArg K.fromBytes hbytes
    rw [laws.combinedSign, laws.combinedSign] at hdecode
    exact Option.some.inj hdecode

theorem mem_qc_iff {db₀ : Database} (hq : db₀.qc = []) {tasks : List (DirtyData K)} {row : QcRow} :
    row ∈ (tasks.foldl (flush C) db₀).qc ↔
      ∃ q, firstCert tasks row.view = some q ∧ qcRow C q = row := by
  rw [Table.mem_iff_select (unique_qc hq), select_qc hq, Option.map_eq_some_iff]

/-- The certificates of a task with a given view: those of the proposals come first. -/
theorem find?_certs (data : DirtyData K) (view : ViewNumber) :
    data.certs.find? (fun q => q.view = view) =
      ((firstJustified data.propQueue view).map recordedQc).or
        (data.justifyQueue.find? fun q => q.view = view) := by
  unfold DirtyData.certs firstJustified
  rw [List.find?_append, List.find?_map]
  rfl

theorem firstCert_cons (data : DirtyData K) (tasks : List (DirtyData K)) (view : ViewNumber) :
    firstCert (data :: tasks) view =
      (data.certs.find? fun q => q.view = view).or (firstCert tasks view) := by
  unfold firstCert flushedCerts
  rw [List.flatMap_cons, List.find?_append]

/-- The row of a view comes from a justify queue, or from the first proposal with a justify of
this view. -/
theorem firstCert_cases {tasks : List (DirtyData K)} {view : ViewNumber} {q : GenericQC K}
    (h : firstCert tasks view = some q) :
    q ∈ flushedQcs tasks ∨
      ∃ p, firstJustified (flushedProps tasks) view = some p ∧ q = recordedQc p := by
  induction tasks with
  | nil => cases h
  | cons data tasks ih =>
    have hprops : firstJustified (flushedProps (data :: tasks)) view =
        (firstJustified data.propQueue view).or (firstJustified (flushedProps tasks) view) := by
      unfold firstJustified flushedProps
      rw [List.flatMap_cons, List.find?_append]
    have hqcs : flushedQcs (data :: tasks) = data.justifyQueue ++ flushedQcs tasks :=
      List.flatMap_cons
    rw [firstCert_cons, find?_certs] at h
    rw [hprops, hqcs]
    cases hp : firstJustified data.propQueue view with
    | some p =>
      rw [hp] at h
      exact Or.inr ⟨p, rfl, (Option.some.inj h).symm⟩
    | none =>
      rw [hp, Option.map_none, Option.none_or] at h
      cases hc : data.justifyQueue.find? (fun q => q.view = view) with
      | some c =>
        rw [hc] at h
        rw [← Option.some.inj h]
        exact Or.inl (List.mem_append_left _ (List.mem_of_find?_eq_some hc))
      | none =>
        rw [hc, Option.none_or] at h
        rcases ih h with hmem | ⟨p, hfirst, hrec⟩
        · exact Or.inl (List.mem_append_right _ hmem)
        · exact Or.inr ⟨p, by rw [Option.none_or]; exact hfirst, hrec⟩

theorem firstCert_view {tasks : List (DirtyData K)} {view : ViewNumber} {q : GenericQC K}
    (h : firstCert tasks view = some q) : q.view = view := by
  have hview := List.find?_some h
  rw [decide_eq_true_eq] at hview
  exact hview

/-- A view has a row exactly when a certificate of it was queued. -/
theorem firstCert_isSome_iff {tasks : List (DirtyData K)} {props : List (TreeNode K)}
    {qcs : List (GenericQC K)} (h : Splits tasks props qcs) (view : ViewNumber) :
    (firstCert tasks view).isSome ↔ ∃ c ∈ queuedCerts props qcs, c.view = view := by
  rw [← h.props, ← h.qcs]
  constructor
  · intro hsome
    obtain ⟨q, hq⟩ := Option.isSome_iff_exists.mp hsome
    rcases firstCert_cases hq with hmem | ⟨p, hfirst, -⟩
    · exact ⟨q, List.mem_append_left _ hmem, firstCert_view hq⟩
    · have hview := List.find?_some hfirst
      rw [decide_eq_true_eq] at hview
      have hp := List.mem_of_find?_eq_some hfirst
      exact ⟨p.justify, List.mem_append_right _ (List.mem_map_of_mem hp), hview⟩
  · rintro ⟨c, hc, hview⟩
    rcases List.mem_append.mp hc with hqc | hprop
    · obtain ⟨t, ht, hct⟩ := List.mem_flatMap.mp hqc
      unfold firstCert
      rw [List.find?_isSome]
      refine ⟨c, ?_, decide_eq_true hview⟩
      exact List.mem_flatMap.mpr ⟨t, ht, List.mem_append_right _ hct⟩
    · obtain ⟨p, hp, rfl⟩ := List.mem_map.mp hprop
      rw [← hview]
      exact firstCert_isSome hp

/-! ## When the writers agree -/

section Main

variable {props : List (TreeNode K)} {qcs : List (GenericQC K)} {db₀ : Database}

theorem NamesFirst.firstCert_mem (h : NamesFirst props qcs) {tasks : List (DirtyData K)}
    (hs : Splits tasks props qcs) {view : ViewNumber} {q : GenericQC K}
    (hq : firstCert tasks view = some q) : q ∈ queuedCerts props qcs := by
  rcases firstCert_cases hq with hmem | ⟨p, hfirst, rfl⟩
  · rw [hs.qcs] at hmem
    exact List.mem_append_left _ hmem
  · rw [hs.props] at hfirst
    exact h view p hfirst

/-- With one certificate per view, the certificate of a view does not depend on the flushes. -/
theorem NamesFirst.firstCert_eq (h : NamesFirst props qcs)
    (hone : OneCertPerView (queuedCerts props qcs)) {tasks tasks' : List (DirtyData K)}
    (hs : Splits tasks props qcs) (hs' : Splits tasks' props qcs) (view : ViewNumber) :
    firstCert tasks view = firstCert tasks' view := by
  have hiff := (firstCert_isSome_iff hs view).trans (firstCert_isSome_iff hs' view).symm
  cases hq : firstCert tasks view with
  | none =>
    rw [hq] at hiff
    cases hq' : firstCert tasks' view with
    | none => rfl
    | some q' =>
      rw [hq'] at hiff
      exact absurd (hiff.mpr rfl) Bool.false_ne_true
  | some q =>
    rw [hq] at hiff
    obtain ⟨q', hq'⟩ := Option.isSome_iff_exists.mp (hiff.mp rfl)
    rw [hq', hone q (h.firstCert_mem hs hq) q' (h.firstCert_mem hs' hq')
      ((firstCert_view hq).trans (firstCert_view hq').symm)]

/-- A flush of everything at once. -/
def flushAll (props : List (TreeNode K)) (qcs : List (GenericQC K)) : DirtyData K :=
  ⟨[], [], props, qcs, ⟨"", initNode K, initQc K, 0, 0, 0, initNode K, initNode K⟩⟩

theorem splits_flushAll (props : List (TreeNode K)) (qcs : List (GenericQC K)) :
    Splits [flushAll props qcs] props qcs :=
  ⟨List.append_nil _, List.append_nil _⟩

/-- The first proposal of a justify view, as everything is flushed at once, is first for the
row of the view. -/
theorem firstCert_flushAll {view : ViewNumber} {p : TreeNode K}
    (h : firstJustified props view = some p) :
    firstCert [flushAll props qcs] view = some (recordedQc p) := by
  have hfirst : firstJustified (flushAll props qcs).propQueue view = some p := h
  rw [firstCert_cons, find?_certs, hfirst]
  rfl

/-- The two writers agree exactly when the first proposal of each justify view is named by a
queued certificate. -/
theorem writersAgree_iff (laws : CodecLaws C) (hq : db₀.qc = []) (props : List (TreeNode K))
    (qcs : List (GenericQC K)) : WritersAgree C db₀ props qcs ↔ NamesFirst props qcs := by
  constructor
  · rintro ⟨hrows, -⟩ view p hfirst
    have hview : p.justify.view = view := by
      have hfound := List.find?_some hfirst
      rw [decide_eq_true_eq] at hfound
      exact hfound
    have hmem : qcRow C (recordedQc p) ∈ ([flushAll props qcs].foldl (flush C) db₀).qc := by
      rw [mem_qc_iff hq]
      refine ⟨recordedQc p, ?_, rfl⟩
      have hrow : (qcRow C (recordedQc p)).view = view := hview
      rw [hrow]
      exact firstCert_flushAll hfirst
    obtain ⟨c, hc, hrow⟩ := hrows _ (splits_flushAll props qcs) _ hmem
    rw [qcRow_injective laws hrow]
    exact hc
  · intro h
    refine ⟨?_, ?_⟩
    · intro tasks hs row hrow
      obtain ⟨q, hfirst, rfl⟩ := (mem_qc_iff hq).mp hrow
      exact ⟨q, h.firstCert_mem hs hfirst, rfl⟩
    · intro hone tasks tasks' hs hs' row
      rw [mem_qc_iff hq, mem_qc_iff hq, h.firstCert_eq hone hs hs']

end Main

open Literal in
/-- A certificate for `block1` itself, with the view and the signature of its justify, makes the
row of `block1` that of a queued certificate. -/
theorem named_block1_agree : WritersAgree codec Literal.db₀ [block1] [recordedQc block1] := by
  refine (writersAgree_iff codec_laws rfl _ _).mpr ?_
  intro view p hfirst
  have hp := List.mem_of_find?_eq_some hfirst
  rw [List.mem_singleton] at hp
  rw [hp]
  exact List.mem_append_left _ List.mem_cons_self

open Literal in
/-- `block1` and the genesis certificate it carries. Flushed together they leave a row that is no
certificate's, and the row is the certificate's when that is flushed before. -/
theorem block1_row_not_queued :
    Splits [flushAll [block1] [initQc literal]] [block1] [initQc literal] ∧
    ([flushAll [block1] [initQc literal]].foldl (flush codec) Literal.db₀).qc =
      [qcRowOfProp codec block1] ∧
    Splits [flushAll [] [initQc literal], flushAll [block1] []] [block1] [initQc literal] ∧
    ([flushAll [] [initQc literal], flushAll [block1] []].foldl (flush codec) Literal.db₀).qc =
      [qcRow codec (initQc literal)] ∧
    qcRowOfProp codec block1 ≠ qcRow codec (initQc literal) ∧
    OneCertPerView (queuedCerts [block1] [initQc literal]) ∧
    ¬ WritersAgree codec Literal.db₀ [block1] [initQc literal] := by
  have hone : ([flushAll [block1] [initQc literal]].foldl (flush codec) Literal.db₀).qc =
      [qcRowOfProp codec block1] := by decide +kernel
  have htwo : ([flushAll [] [initQc literal], flushAll [block1] []].foldl (flush codec)
      Literal.db₀).qc = [qcRow codec (initQc literal)] := by decide +kernel
  have hne : qcRowOfProp codec block1 ≠ qcRow codec (initQc literal) := by decide +kernel
  have hcerts : ∀ c ∈ queuedCerts [block1] [initQc literal], c = initQc literal := by
    decide +kernel
  refine ⟨⟨rfl, rfl⟩, hone, ⟨rfl, rfl⟩, htwo, hne, ?_, ?_⟩
  · intro c hc c' hc' _
    rw [hcerts c hc, hcerts c' hc']
  · rintro ⟨hrows, -⟩
    have hmem : qcRowOfProp codec block1 ∈
        ([flushAll [block1] [initQc literal]].foldl (flush codec) Literal.db₀).qc := by
      rw [hone]
      exact List.mem_cons_self
    obtain ⟨c, hc, hrow⟩ := hrows _ ⟨rfl, rfl⟩ _ hmem
    rw [hcerts c hc] at hrow
    exact hne hrow

end HotstuffConsensus
