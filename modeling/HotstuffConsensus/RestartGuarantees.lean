import HotstuffConsensus.RestartStore

/-!
# What the storage promises to keep

The storage promises not to lose a proposal with a quorum certificate, nor a timeout
certificate. Two things stand against it.

* The `proposal` table is keyed by height, and the first block of a height stays. Which block
  of a height gets certified is decided later, so a certified block has a row exactly when it
  was the first of its height.
* The flusher writes the signature of a partial timeout certificate and the recovery reads a
  whole certificate, so not one of them can be read back.
-/

namespace HotstuffConsensus

open Lib Database

variable {K : Crypto} {C : Codec K} {token : String} {db₀ db : Database} {s : HotstuffStorage K}
  {tasks : List (DirtyData K)}

/-! ## Certified proposals -/

/-- The block with hash `k` is named by `qc_high` or by the justify of another stored block. -/
def HotstuffStorage.Certifies (s : HotstuffStorage K) (k : NodeHash) : Prop :=
  s.state.qcHigh.node = k ∨ ∃ k' y, k' ≠ k ∧ s.get k' = some y ∧ y.justify.node = k

/-- Of all blocks handed over for flushing, a block with hash `k` was the first of its
height. -/
def FirstOfHeight (tasks : List (DirtyData K)) (k : NodeHash) : Prop :=
  ∃ before p after, flushedProps tasks = before ++ p :: after ∧ p.hash = k ∧
    ∀ q ∈ before, q.height ≠ p.height

theorem firstProp_eq_some_iff {p : TreeNode K} : firstProp tasks p.height = some p ↔
    ∃ before after, flushedProps tasks = before ++ p :: after ∧
      ∀ q ∈ before, q.height ≠ p.height := by
  unfold firstProp
  rw [List.find?_eq_some_iff_append]
  simp

theorem base64Encode_injective (laws : CodecLaws C) {a b : Bytes}
    (h : C.base64Encode a = C.base64Encode b) : a = b := by
  have hdecode := congrArg C.base64Decode h
  rw [laws.base64, laws.base64] at hdecode
  exact Option.some.inj hdecode

/-- A row of `proposal` is that of the first block of its height. -/
theorem mem_proposal_iff (hp : db₀.proposal = []) {row : ProposalRow} :
    row ∈ (tasks.foldl (flush C) db₀).proposal ↔
      ∃ p, firstProp tasks p.height = some p ∧ proposalRow C p = row := by
  rw [Table.mem_iff_select (unique_proposal hp), select_proposal hp, Option.map_eq_some_iff]
  constructor
  · rintro ⟨p, hfirst, hrow⟩
    refine ⟨p, ?_, hrow⟩
    rw [firstProp_height hfirst]
    exact hfirst
  · rintro ⟨p, hfirst, rfl⟩
    exact ⟨p, hfirst, rfl⟩

/-- A block has a row of its own exactly when it was the first of its height. -/
theorem exists_proposalRow_iff (laws : CodecLaws C) (hp : db₀.proposal = []) (k : NodeHash) :
    (∃ row ∈ (tasks.foldl (flush C) db₀).proposal, row.propHash = C.base64Encode k.toList) ↔
      FirstOfHeight tasks k := by
  constructor
  · rintro ⟨row, hrow, hhash⟩
    obtain ⟨p, hfirst, rfl⟩ := (mem_proposal_iff hp).mp hrow
    obtain ⟨before, after, hsplit, hbefore⟩ := firstProp_eq_some_iff.mp hfirst
    refine ⟨before, p, after, hsplit, ?_, hbefore⟩
    exact List.Vector.toList_injective (base64Encode_injective laws hhash)
  · rintro ⟨before, p, after, hsplit, hhash, hbefore⟩
    refine ⟨proposalRow C p, (mem_proposal_iff hp).mpr ⟨p, ?_, rfl⟩, ?_⟩
    · exact firstProp_eq_some_iff.mpr ⟨before, after, hsplit, hbefore⟩
    · rw [← hhash]
      rfl

/-- With all tasks written, no certified block is missing in `proposal` exactly when each was
the first of its height. -/
theorem certified_proposals_kept_iff (laws : CodecLaws C)
    (h : Persisted C token db₀ s db tasks) (hd : s.Drained) :
    (∀ k x, s.get k = some x → k ≠ initNodeHash K → s.Certifies k →
      ∃ row ∈ db.proposal, row.propHash = C.base64Encode x.hash.toList) ↔
    ∀ k x, s.get k = some x → k ≠ initNodeHash K → s.Certifies k →
      FirstOfHeight tasks x.hash := by
  refine forall₂_congr fun k x => forall₃_congr fun _ _ _ => ?_
  rw [h.db_eq hd]
  exact exists_proposalRow_iff laws h.invariant.tables.proposal x.hash

namespace Literal

/-- A certificate for `x`; nothing is verified here. -/
def certOf (x : TreeNode literal) : GenericQC literal := ⟨x.height, x.hash, literal.zeroed⟩

/-- `block1` is stored and certified. -/
def certifiedOps : List (StorageOp literal) := [.updateQcHigh block1 (certOf block1)]

/-- A second block of height 1. -/
def block1' : TreeNode literal := ⟨1, [⟨[7]⟩], initNodeHash literal, initQc literal⟩

/-- A block on `block1'` that certifies it. -/
def block2' : TreeNode literal := ⟨2, [], block1'.hash, certOf block1'⟩

/-- Both blocks of height 1 are stored, and then the block on the second. -/
def forkOps : List (StorageOp literal) :=
  [.appendNewNode block1, .appendNewNode block1', .appendNewNode block2']

end Literal

open Literal in
theorem certified_block1_kept :
    ∃ s, Persisted codec conf.token Literal.db₀ s (dbAfter certifiedOps)
        [(after certifiedOps).dirtyData] ∧
      s.Drained ∧ s.propQueue = [] ∧
      ∀ k x, s.get k = some x → k ≠ initNodeHash literal → s.Certifies k →
        ∃ row ∈ (dbAfter certifiedOps).proposal,
          row.propHash = codec.base64Encode x.hash.toList := by
  obtain ⟨s, hs, hd, hqueue, -⟩ := persisted_once certifiedOps (by decide +kernel)
  refine ⟨s, hs, hd, hqueue, (certified_proposals_kept_iff codec_laws hs hd).mpr ?_⟩
  intro k x hx hk _
  have hprops : flushedProps [(after certifiedOps).dirtyData] = [block1] := by decide +kernel
  obtain ⟨hhash, hmem | hinit⟩ := stored_cases hs hqueue hx
  · rw [hprops, List.mem_singleton] at hmem
    exact ⟨[], block1, [], hprops, by rw [hmem], fun q hq => nomatch hq⟩
  · rw [hinit] at hhash
    exact absurd hhash.symm hk

open Literal in
/-- The second block of height 1 is certified by the block on it, and the database has no row of
it. -/
theorem certified_block_lost :
    ∃ s, Persisted codec conf.token Literal.db₀ s (dbAfter forkOps) [(after forkOps).dirtyData] ∧
      s.Drained ∧ s.propQueue = [] ∧
      ¬ ∀ k x, s.get k = some x → k ≠ initNodeHash literal → s.Certifies k →
        ∃ row ∈ (dbAfter forkOps).proposal, row.propHash = codec.base64Encode x.hash.toList := by
  obtain ⟨s, hs, hd, hqueue, hstore⟩ := persisted_once forkOps (by decide +kernel)
  have hget : ∀ k, s.get k = (after forkOps).get k := by
    intro k
    unfold HotstuffStorage.get
    rw [hstore]
  have hfirst : s.get block1'.hash = some block1' := by
    rw [hget]
    decide +kernel
  have hsecond : s.get block2'.hash = some block2' := by
    rw [hget]
    decide +kernel
  have hlost : ¬ ∃ row ∈ (dbAfter forkOps).proposal,
      row.propHash = codec.base64Encode block1'.hash.toList := by decide +kernel
  refine ⟨s, hs, hd, hqueue, ?_⟩
  intro h
  exact hlost (h _ _ hfirst (by decide +kernel)
    (Or.inr ⟨_, block2', by decide +kernel, hsecond, rfl⟩))


/-! ## Partial timeout certificates -/

/-- The partial certificate an operation hands to the storage. -/
def StorageOp.partialTcs : StorageOp K → List (TimeoutCertificate K)
  | .appendTc tc =>
    match tc.viewSign with
    | .part _ => [tc]
    | .combined _ => []
  | _ => []

theorem HotstuffStorage.compressTc_partialTcQueue (s : HotstuffStorage K) :
    s.compressTc.1.partialTcQueue = s.partialTcQueue := by
  unfold compressTc
  dsimp only
  split
  · rfl
  · split <;> rfl

/-- The queue of partial certificates has those that were appended, in order. -/
theorem HotstuffStorage.apply_partialTcQueue (s : HotstuffStorage K) (o : StorageOp K) :
    (s.apply o).partialTcQueue = s.partialTcQueue ++ o.partialTcs := by
  have hqcHigh : ∀ (node : TreeNode K) (qc : GenericQC K),
      (s.updateQcHigh node qc).partialTcQueue = s.partialTcQueue := by
    intro node qc
    unfold updateQcHigh
    split
    · split <;> rfl
    · rfl
  match o with
  | .appendTc tc =>
    show (s.appendTc tc).1.partialTcQueue = _
    unfold appendTc StorageOp.partialTcs
    dsimp only
    rw [compressTc_partialTcQueue]
    cases tc.viewSign with
    | part kit => rfl
    | combined sign => exact (List.append_nil _).symm
  | .updateQcHigh node qc => exact (hqcHigh node qc).trans (List.append_nil _).symm
  | .livenessUpdateQcHigh node qc => exact (hqcHigh node qc).trans (List.append_nil _).symm
  | .commit node =>
    show (s.commit node).partialTcQueue = _
    unfold commit
    split <;> exact (List.append_nil _).symm
  | .appendNewNode _ | .appendNewQc _ | .updateLeaf _ | .updateLockedNode _ | .increaseView _
  | .updateVheight _ | .insertNewView _ _ _ | .cleanNewViewSet _ => exact (List.append_nil _).symm

/-- All partial certificates of the flushed tasks, in order. -/
def flushedPartialTcs (tasks : List (DirtyData K)) : List (TimeoutCertificate K) :=
  tasks.flatMap DirtyData.partialTcQueue

/-- The set of the certificates of `view`. -/
def tcsOfView (tcs : List (TimeoutCertificate K)) (view : ViewNumber) : TcSet K :=
  (tcs.filter fun tc => tc.view = view).foldl insertTc ∅

/-- `recover_tc_map` succeeds and returns the flushed partial certificates, view by view. -/
def RecoversTcs (C : Codec K) (db : Database) (tasks : List (DirtyData K)) : Prop :=
  ∃ tcMap, db.recoverTcMap C = some tcMap ∧
    ∀ view, HashMap.entryD tcMap view ∅ = tcsOfView (flushedPartialTcs tasks) view

/-- With all tasks written, the partial timeout certificates come back exactly when there are
none. -/
theorem partial_tcs_survive_restart_iff (laws : CodecLaws C)
    (h : Persisted C token db₀ s db tasks) (hd : s.Drained) :
    RecoversTcs C db tasks ↔ flushedPartialTcs tasks = [] := by
  unfold RecoversTcs
  rw [h.db_eq hd, recoverTcMap_eq laws h.invariant.tables.partialTc]
  constructor
  · rintro ⟨tcMap, hrecover, -⟩
    by_contra hne
    have hne' : tasks.flatMap DirtyData.partialTcQueue ≠ [] := hne
    rw [if_neg hne'] at hrecover
    cases hrecover
  · intro hnil
    have hnil' : tasks.flatMap DirtyData.partialTcQueue = [] := hnil
    rw [if_pos hnil', hnil]
    exact ⟨∅, rfl, fun view => rfl⟩

open Literal in
/-- A database without partial certificates is read back. -/
theorem no_partial_tcs_survive :
    ∃ s, Persisted codec conf.token Literal.db₀ s (dbAfter certifiedOps)
        [(after certifiedOps).dirtyData] ∧
      s.Drained ∧
      RecoversTcs codec (dbAfter certifiedOps) [(after certifiedOps).dirtyData] := by
  obtain ⟨s, hs, hd, -, -⟩ := persisted_once certifiedOps (by decide +kernel)
  have hnil : (flushedPartialTcs [(after certifiedOps).dirtyData]).isEmpty = true := by
    decide +kernel
  exact ⟨s, hs, hd, (partial_tcs_survive_restart_iff codec_laws hs hd).mpr
    (List.isEmpty_iff.mp hnil)⟩

namespace Literal

/-- A partial timeout certificate of replica 1 for view 1. -/
def timeout1 : TimeoutCertificate literal := .new "replica-1" 1 ⟨(), 1⟩ (initQc literal)

def timeoutOps : List (StorageOp literal) := [.appendTc timeout1]

end Literal

open Literal in
/-- After one flushed partial certificate the recovery panics. -/
theorem partial_tcs_lost_on_restart :
    ∃ s, Persisted codec conf.token Literal.db₀ s (dbAfter timeoutOps)
        [(after timeoutOps).dirtyData] ∧
      s.Drained ∧ flushedPartialTcs [(after timeoutOps).dirtyData] = [timeout1] ∧
      (dbAfter timeoutOps).recoverTcMap codec = none ∧
      ¬ RecoversTcs codec (dbAfter timeoutOps) [(after timeoutOps).dirtyData] := by
  obtain ⟨s, hs, hd, -, -⟩ := persisted_once timeoutOps rfl
  have hnone : (dbAfter timeoutOps).recoverTcMap codec = none := rfl
  refine ⟨s, hs, hd, rfl, hnone, ?_⟩
  rintro ⟨tcMap, hrecover, -⟩
  rw [hnone] at hrecover
  cases hrecover

end HotstuffConsensus
