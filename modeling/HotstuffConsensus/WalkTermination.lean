import HotstuffConsensus.Ancestry
import HotstuffConsensus.Flushing
import HotstuffConsensus.RestartGuarantees
import HotstuffConsensus.Lib.Walk

/-!
# Whether the walk of `is_conflicting` ends

The `while` loop of `is_conflicting` follows parent hashes through the store, and nothing compares
the heights on the way. When every block is stored under its own hash, the blocks of the walk name
each other by hash, and SHA-256 makes no cycle of them.

A store that is filled by the operations of a storage is like that. A store rebuilt by `recover`
is like that when the `qc` row of each proposal has the hash of the proposal: the key is read from
there. If the certificate of a block was flushed before the proposal on that block, the key of the
proposal is the hash of its own parent, and a walk that gets there never leaves.
-/

namespace HotstuffConsensus

open Lib Database

variable {K : Crypto} {store : BlockStore K} {bound : ViewNumber} {x : TreeNode K}

/-- The block a round of the loop goes to; `none` when the loop is left. -/
def nextBlock (store : BlockStore K) (bound : ViewNumber) (x : TreeNode K) : Option (TreeNode K) :=
  if bound < x.height then store.lookup x.parent else none

/-- The loop is left after finitely many rounds. -/
def WalkEnds (store : BlockStore K) (bound : ViewNumber) (x : TreeNode K) : Prop :=
  ∃ rounds, nextBlock store bound (walk store bound rounds x) = none

/-- The loop of `is_conflicting(a, b)` is left. -/
def HotstuffStorage.ConflictEnds (s : HotstuffStorage K) (a b : TreeNode K) : Prop :=
  if b.height ≤ a.height then WalkEnds s.inMemQueue b.height a
  else WalkEnds s.inMemQueue a.height b

/-- SHA-256 makes no cycle of parent hashes on the blocks of `B`: a rank decreases from a block to
those whose hash is its parent. -/
def Ranked (B : Set (TreeNode K)) : Prop :=
  ∃ rank : TreeNode K → ℕ, ∀ x ∈ B, ∀ y ∈ B, y.hash = x.parent → rank y < rank x

theorem Ranked.mono {B B' : Set (TreeNode K)} (h : Ranked B') (hsub : B ⊆ B') : Ranked B := by
  obtain ⟨rank, hrank⟩ := h
  exact ⟨rank, fun x hx y hy => hrank x (hsub hx) y (hsub hy)⟩

/-- Ranks by height, on blocks that are all in a list. -/
theorem ranked_of_forall {B : Set (TreeNode K)} (blocks : List (TreeNode K))
    (hB : ∀ x ∈ B, x ∈ blocks)
    (h : ∀ x ∈ blocks, ∀ y ∈ blocks, y.hash = x.parent → y.height < x.height) : Ranked B := by
  refine ⟨fun x => x.height.toNat, ?_⟩
  intro x hx y hy hparent
  exact UInt64.lt_iff_toNat_lt.mp (h x (hB x hx) y (hB y hy) hparent)

/-! ## The loop as a walk -/

theorem walk_eq_advance (store : BlockStore K) (bound : ViewNumber) (n : ℕ) (x : TreeNode K) :
    walk store bound n x = Walk.advance (nextBlock store bound) n x := by
  induction n generalizing x with
  | zero => rfl
  | succ n ih =>
    unfold walk Walk.advance nextBlock
    split
    · cases store.lookup x.parent with
      | none => rfl
      | some prev => exact ih prev
    · rfl

theorem walkEnds_iff_ends : WalkEnds store bound x ↔ Walk.Ends (nextBlock store bound) x := by
  unfold WalkEnds Walk.Ends
  simp only [walk_eq_advance]

theorem lookup_of_nextBlock {y : TreeNode K} (h : nextBlock store bound x = some y) :
    store.lookup x.parent = some y := by
  unfold nextBlock at h
  split at h
  · exact h
  · cases h

/-- The fuel of `walk` is enough for every loop that ends. -/
theorem walkEnds_iff_walkFuel :
    WalkEnds store bound x ↔
      nextBlock store bound (walk store bound (walkFuel store) x) = none := by
  constructor
  · intro h
    rw [walkEnds_iff_ends] at h
    have hwithin := h.within TreeNode.parent store.keys
      (fun y z hz => Finmap.mem_keys.mpr (Finmap.mem_of_lookup_eq_some (lookup_of_nextBlock hz)))
      (fun y y' z z' hkey hz hz' => by
        have hsame := lookup_of_nextBlock hz
        rw [hkey, lookup_of_nextBlock hz'] at hsame
        exact (Option.some.inj hsame).symm)
    have hcard : store.keys.card = HashMap.size store := HashMap.card_keys store
    rw [walk_eq_advance]
    unfold walkFuel
    rw [← hcard, Walk.advance_add, Walk.advance_of_none hwithin]
    exact hwithin
  · exact fun h => ⟨_, h⟩

/-- With every block under its own hash, and no cycle of hashes, every loop ends. -/
theorem Keyed.walkEnds (hk : Keyed store) (hr : Ranked (storedBlocks store)) (bound : ViewNumber)
    (x : TreeNode K) : WalkEnds store bound x := by
  obtain ⟨rank, hrank⟩ := hr
  rw [walkEnds_iff_ends]
  cases hnext : nextBlock store bound x with
  | none => exact ⟨0, hnext⟩
  | some p =>
    rw [Walk.ends_iff_of_some hnext]
    apply Walk.ends_of_rank (S := storedBlocks store) rank
    · intro y hy z hz
      have hlookup := lookup_of_nextBlock hz
      exact ⟨⟨_, hlookup⟩, hrank y hy z ⟨_, hlookup⟩ (hk _ z hlookup)⟩
    · exact ⟨_, lookup_of_nextBlock hnext⟩

/-- With every block above its parent, the height is the rank. -/
theorem ParentsBelow.walkEnds (hs : ParentsBelow store) (hx : AboveParent store x)
    (bound : ViewNumber) : WalkEnds store bound x := by
  rw [walkEnds_iff_ends]
  apply Walk.ends_of_rank (S := {y | AboveParent store y}) fun y => y.height.toNat
  · intro y hy z hz
    have hlookup := lookup_of_nextBlock hz
    exact ⟨hs _ z hlookup, UInt64.lt_iff_toNat_lt.mp (hy z hlookup)⟩
  · exact hx

/-- A block that is stored under its own parent hash is never left. -/
theorem not_walkEnds_of_own_parent {p : TreeNode K} (hp : store.lookup p.parent = some p)
    (hx : x.parent = p.parent) (hbp : bound < p.height) (hbx : bound < x.height) :
    ¬ WalkEnds store bound x := by
  rw [walkEnds_iff_ends]
  apply Walk.not_ends_of_stays (S := {y | y.parent = p.parent ∧ bound < y.height})
  · rintro y ⟨hparent, hheight⟩
    refine ⟨p, ⟨rfl, hbp⟩, ?_⟩
    unfold nextBlock
    rw [if_pos hheight, hparent]
    exact hp
  · exact ⟨hx, hbx⟩

theorem Keyed.conflictEnds {s : HotstuffStorage K} (hk : Keyed s.inMemQueue)
    (hr : Ranked (storedBlocks s.inMemQueue)) (a b : TreeNode K) : s.ConflictEnds a b := by
  unfold HotstuffStorage.ConflictEnds
  split
  · exact hk.walkEnds hr _ _
  · exact hk.walkEnds hr _ _

/-! ## Stores filled by operations -/

theorem keyed_foldl_insertBlock (hk : Keyed store) (props : List (TreeNode K)) :
    Keyed (props.foldl insertBlock store) := by
  induction props generalizing store with
  | nil => exact hk
  | cons p props ih => exact ih (hk.insert p)

/-- Whatever is done with a storage, its blocks stay under their hashes. -/
theorem Flushed.step_keyed {f : Flushed K} (h : Keyed f.storage.inMemQueue) (a : FlushAction K) :
    Keyed (f.step a).storage.inMemQueue := by
  cases a with
  | op o =>
    obtain ⟨props, hrec⟩ := f.storage.apply_records o
    show Keyed (f.storage.apply o).inMemQueue
    rw [hrec.store]
    exact keyed_foldl_insertBlock h props
  | newViewSet view => exact h
  | flush =>
    show Keyed f.storage.asyncFlush.inMemQueue
    rw [f.storage.asyncFlush_frame.2]
    exact h
  | flusher =>
    show Keyed f.storage.takeTask.inMemQueue
    rw [f.storage.takeTask_frame.2]
    exact h
  | stop => exact h

/-! ## Stores rebuilt from the database -/

/-- In the rows that `recover` reads, each proposal stands beside a certificate row with its own
hash. -/
def Database.OwnRows (db : Database) : Prop :=
  ∀ row ∈ db.join, row.2.nodeHash = row.1.propHash

instance Database.decidableOwnRows (db : Database) : Decidable db.OwnRows :=
  inferInstanceAs (Decidable (∀ row ∈ db.join, row.2.nodeHash = row.1.propHash))

/-- The key of a decoded row is then the hash of the block. -/
theorem mapRowToProposal_keyed {C : Codec K} (laws : CodecLaws C) {p : TreeNode K} {q : QcRow}
    (hq : q.nodeHash = (proposalRow C p).propHash) {e : NodeHash × TreeNode K}
    (h : mapRowToProposal C (proposalRow C p, q) = some e) : e.2.hash = e.1 := by
  unfold mapRowToProposal at h
  dsimp only at h
  rw [hq] at h
  simp only [proposalRow, laws.base64, laws.txs, Option.bind_eq_bind, Option.bind_some,
    NodeHash.fromVec_toList, Option.bind_eq_some_iff] at h
  obtain ⟨sign, -, combinedSign, -, h⟩ := h
  rw [← Option.some.inj h]
  -- the justify is not part of what is hashed
  rfl

/-- A decoded list has decoded rows only. -/
theorem exists_row_of_mem_mapM {C : Codec K} {rows : List (ProposalRow × QcRow)}
    {entries : List (NodeHash × TreeNode K)} (h : rows.mapM (mapRowToProposal C) = some entries)
    {e : NodeHash × TreeNode K} (he : e ∈ entries) :
    ∃ row ∈ rows, mapRowToProposal C row = some e := by
  induction rows generalizing entries with
  | nil =>
    cases h
    cases he
  | cons row rows ih =>
    rw [List.mapM_cons] at h
    obtain ⟨e₀, he₀, h⟩ := Option.bind_eq_some_iff.mp h
    obtain ⟨rest, hrest, h⟩ := Option.bind_eq_some_iff.mp h
    rw [← Option.some.inj h] at he
    rcases List.mem_cons.mp he with rfl | hmem
    · exact ⟨row, List.mem_cons_self, he₀⟩
    · obtain ⟨r, hr, hre⟩ := ih hrest hmem
      exact ⟨r, List.mem_cons_of_mem _ hr, hre⟩

/-- A store rebuilt from own rows has every block under its hash. -/
theorem Persisted.recover_keyed {C : Codec K} (laws : CodecLaws C) {token : String}
    {db₀ db : Database} {s s' : HotstuffStorage K} {tasks : List (DirtyData K)}
    (h : Persisted C token db₀ s db tasks) (hown : db.OwnRows)
    {rows : List (ProposalRow × QcRow)} (hrows : db.IsOrderedJoin rows)
    (hrec : HotstuffStorage.recover C db token rows = some s') : Keyed s'.inMemQueue := by
  obtain ⟨hstore, -⟩ := HotstuffStorage.recover_cases hrec
  obtain ⟨entries, hmap, hfold⟩ := Option.map_eq_some_iff.mp hstore
  intro k x hx
  rw [← hfold] at hx
  rcases lookup_foldl_entries hx with he | he
  · obtain ⟨row, hrow, hdecode⟩ := exists_row_of_mem_mapM hmap he
    have hjoin := hrows.1.mem_iff.mp hrow
    have hownRow := hown row hjoin
    obtain ⟨r, hr, hmem⟩ := List.mem_flatMap.mp hjoin
    obtain ⟨q, -, hpair⟩ := List.mem_map.mp hmem
    obtain ⟨p, hp⟩ := h.mem_proposal hr
    rw [← hpair, hp] at hownRow hdecode
    exact mapRowToProposal_keyed laws hownRow hdecode
  · rw [Finmap.lookup_empty] at he
    cases he

/-- Where SHA-256 makes no cycle on the stored blocks, the loop of `is_conflicting` ends for all
blocks, in every storage that some operations and flushes made of a fresh one, and in every
storage rebuilt from tables in which the proposals stand beside certificate rows with their own
hashes. -/
theorem conflict_walk_ends (C : Codec K) (laws : CodecLaws C) :
    (∀ s₀ : HotstuffStorage K, FreshStorage s₀ → ∀ as : List (FlushAction K),
      Ranked (storedBlocks (as.foldl Flushed.step ⟨s₀, []⟩).storage.inMemQueue) →
      ∀ a b, (as.foldl Flushed.step ⟨s₀, []⟩).storage.ConflictEnds a b) ∧
    ∀ (token : String) (db₀ db : Database) (s : HotstuffStorage K) (tasks : List (DirtyData K)),
      Persisted C token db₀ s db tasks → db.OwnRows →
      ∀ rows s', db.IsOrderedJoin rows → HotstuffStorage.recover C db token rows = some s' →
      Ranked (storedBlocks s'.inMemQueue) → ∀ a b, s'.ConflictEnds a b := by
  refine ⟨?_, ?_⟩
  · intro s₀ hfresh as hranked
    have hkeyed : Keyed (as.foldl Flushed.step ⟨s₀, []⟩).storage.inMemQueue :=
      Run.foldl_of_kept (I := fun f : Flushed K => Keyed f.storage.inMemQueue) hfresh.keyed
        (fun _ a hf => Flushed.step_keyed hf a) as
    exact hkeyed.conflictEnds hranked
  · intro token db₀ db s tasks h hown rows s' hrows hrec hranked
    exact (h.recover_keyed laws hown hrows hrec).conflictEnds hranked

namespace Literal

/-- `block1` is proposed and certified. -/
def voteOps : List (StorageOp literal) :=
  [.updateLeaf block1, .updateQcHigh block1 (certOf block1)]

/-- The proposal on `block1`, with the certificate of it. -/
def block2 : TreeNode literal := ⟨2, [], block1.hash, certOf block1⟩

/-- The storage that has flushed the certificate, and then proposes `block2`. -/
def proposed : HotstuffStorage literal := (after voteOps).settled.updateLeaf block2

/-- The tables after both flushes. -/
def dbProposed : Database := (dbAfter voteOps).flush codec proposed.dirtyData

theorem persisted_proposed : Persisted codec conf.token db₀ proposed.settled dbProposed
    [(after voteOps).dirtyData, proposed.dirtyData] := by
  have hvotes := (persisted_init.ops voteOps).settled (after_drained voteOps)
    (by decide +kernel)
  exact (hvotes.op (.updateLeaf block2)).settled ⟨true, rfl⟩ rfl

/-- What `recover` makes of some tables, with the rows in the order of the join. -/
def rebuiltFrom (db : Database) : HotstuffStorage literal :=
  (HotstuffStorage.recover codec db conf.token db.join).getD storage₀

theorem recover_rebuiltFrom {db : Database}
    (h : (HotstuffStorage.recover codec db conf.token db.join).isSome = true) :
    HotstuffStorage.recover codec db conf.token db.join = some (rebuiltFrom db) := by
  unfold rebuiltFrom
  obtain ⟨s, hs⟩ := Option.isSome_iff_exists.mp h
  rw [hs]
  rfl

/-- After the restart the only block is `block2`, under the hash of `block1`. -/
theorem rebuilt_proposed :
    (HotstuffStorage.recover codec dbProposed conf.token dbProposed.join).isSome = true ∧
    (rebuiltFrom dbProposed).inMemQueue.lookup block1.hash =
      some (restored block2 (certOf block1)) ∧
    (∀ e ∈ (rebuiltFrom dbProposed).inMemQueue.entries, e.2 = restored block2 (certOf block1)) ∧
    (rebuiltFrom dbProposed).state.vheight = 2 ∧
    (rebuiltFrom dbProposed).state.bLocked.height = 0 := by
  decide +kernel

end Literal

open Literal in
/-- The walk ends in a store of two blocks, before and after a restart. -/
theorem block1_walk_ends :
    (([.op (.updateLeaf block1), .flush].foldl Flushed.step ⟨storage₀, []⟩).storage.ConflictEnds
      block1 (initNode literal)) ∧
    (rebuiltFrom (dbAfter leafOps)).ConflictEnds block1 (initNode literal) := by
  obtain ⟨s, hs, -, -, -⟩ := persisted_once leafOps (by decide +kernel)
  obtain ⟨hsome, hentries⟩ :
      (HotstuffStorage.recover codec (dbAfter leafOps) conf.token (dbAfter leafOps).join).isSome ∧
      ∀ e ∈ (rebuiltFrom (dbAfter leafOps)).inMemQueue.entries,
        e.2 = restored block1 (recordedQc block1) := by decide +kernel
  have hdirect := (conflict_walk_ends codec codec_laws).1 storage₀ (.database _ _ _ _ _)
    [.op (.updateLeaf block1), .flush]
  have hrebuilt := (conflict_walk_ends codec codec_laws).2 conf.token Literal.db₀ _ s _ hs
    (by decide +kernel) _ _ ⟨List.Perm.refl _, by decide +kernel⟩
    (recover_rebuiltFrom hsome)
  refine ⟨hdirect ?_ _ _, hrebuilt ?_ _ _⟩
  · apply ranked_of_forall [initNode literal, block1]
    · exact forall_storedBlocks (by decide +kernel)
    · decide +kernel
  · apply ranked_of_forall [restored block1 (recordedQc block1)]
    · intro x hx
      have hone : x = restored block1 (recordedQc block1) :=
        forall_storedBlocks (P := (· = restored block1 (recordedQc block1))) hentries x hx
      exact List.mem_singleton.mpr hone
    · decide +kernel

open Literal in
/-- After a restart `block2` is stored under the hash of `block1`, which is its parent. A walk from
`block2` down to the genesis block never ends, although the hashes make no cycle. -/
theorem block2_walk_never_ends :
    Persisted codec conf.token Literal.db₀ proposed.settled dbProposed
      [(after voteOps).dirtyData, proposed.dirtyData] ∧
    dbProposed.IsOrderedJoin dbProposed.join ∧
    HotstuffStorage.recover codec dbProposed conf.token dbProposed.join =
      some (rebuiltFrom dbProposed) ∧
    Ranked (storedBlocks proposed.inMemQueue ∪ storedBlocks (rebuiltFrom dbProposed).inMemQueue) ∧
    ¬ (rebuiltFrom dbProposed).ConflictEnds block2 (initNode literal) := by
  obtain ⟨hsome, hlookup, hentries, -, -⟩ := rebuilt_proposed
  refine ⟨persisted_proposed, ⟨List.Perm.refl _, by decide +kernel⟩, recover_rebuiltFrom hsome,
    ?_, ?_⟩
  · apply ranked_of_forall
      [initNode literal, block1, block2, restored block2 (certOf block1)]
    · rintro x (hx | hx)
      · exact forall_storedBlocks (P := fun x => x ∈ [initNode literal, block1, block2,
          restored block2 (certOf block1)]) (by decide +kernel) x hx
      · have hone : x = restored block2 (certOf block1) :=
          forall_storedBlocks (P := (· = restored block2 (certOf block1))) hentries x hx
        rw [hone]
        simp
    · decide +kernel
  · unfold HotstuffStorage.ConflictEnds
    rw [if_pos (by decide)]
    exact not_walkEnds_of_own_parent (p := restored block2 (certOf block1)) hlookup rfl
      (by decide) (by decide)

end HotstuffConsensus
