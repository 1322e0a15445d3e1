import HotstuffConsensus.RestartState
import HotstuffConsensus.Driver
import HotstuffConsensus.Lib.SortDedup

/-!
# The block store after a restart

Recovery rebuilds the store from the join of the two tables. The key of a node is the hash
in its `qc` row, which is also what its justify is made to name, and the view of the
justify is made the node's height. The store comes back exactly when every stored block
looks like that and its rows are its own; the genesis block, as it is stored at
initialisation and never flushed, does not.
-/

namespace HotstuffConsensus

open Lib Database

variable {K : Crypto}

/-! ## Stores filled by a list of blocks -/

section Fold

variable {store : BlockStore K}

theorem lookup_foldl_insertBlock {props : List (TreeNode K)} {k : NodeHash} {x : TreeNode K}
    (h : (props.foldl insertBlock store).lookup k = some x) :
    (x ∈ props ∧ x.hash = k) ∨ store.lookup k = some x := by
  induction props generalizing store with
  | nil => exact Or.inr h
  | cons p props ih =>
    rcases ih h with ⟨hx, hk⟩ | hx
    · exact Or.inl ⟨List.mem_cons_of_mem _ hx, hk⟩
    · rcases HashMap.lookup_insert_cases hx with ⟨hk, hxp⟩ | hx
      · rw [hxp]
        exact Or.inl ⟨List.mem_cons_self, hk.symm⟩
      · exact Or.inr hx

theorem isSome_foldl_insertBlock {props : List (TreeNode K)} {k : NodeHash}
    (h : (store.lookup k).isSome ∨ ∃ p ∈ props, p.hash = k) :
    ((props.foldl insertBlock store).lookup k).isSome := by
  induction props generalizing store with
  | nil =>
    rcases h with h | ⟨p, hp, -⟩
    · exact h
    · cases hp
  | cons p props ih =>
    apply ih
    rcases h with h | ⟨q, hq, hk⟩
    · exact Or.inl (HotstuffStorage.Holds.isSome_insert h _ _)
    · rcases List.mem_cons.mp hq with hqp | hq
      · left
        unfold insertBlock
        rw [← hk, hqp, Finmap.lookup_insert]
        rfl
      · exact Or.inr ⟨q, hq, hk⟩

end Fold

/-- A map filled from a list of entries holds entries of the list only. -/
theorem lookup_foldl_entries {entries : List (NodeHash × TreeNode K)} {store : BlockStore K}
    {k : NodeHash} {x : TreeNode K}
    (h : (entries.foldl insertEntry store).lookup k = some x) :
    (k, x) ∈ entries ∨ store.lookup k = some x := by
  induction entries generalizing store with
  | nil => exact Or.inr h
  | cons e entries ih =>
    rcases ih h with hx | hx
    · exact Or.inl (List.mem_cons_of_mem _ hx)
    · rcases HashMap.lookup_insert_cases hx with ⟨hk, hxe⟩ | hx
      · rw [hk, hxe]
        exact Or.inl List.mem_cons_self
      · exact Or.inr hx

/-- Every key of the list is in the map. -/
theorem isSome_foldl_entries {entries : List (NodeHash × TreeNode K)} {store : BlockStore K}
    {k : NodeHash} (h : (store.lookup k).isSome ∨ ∃ x, (k, x) ∈ entries) :
    ((entries.foldl insertEntry store).lookup k).isSome := by
  induction entries generalizing store with
  | nil =>
    rcases h with h | ⟨x, hx⟩
    · exact h
    · cases hx
  | cons e entries ih =>
    apply ih
    rcases h with h | ⟨x, hx⟩
    · exact Or.inl (HotstuffStorage.Holds.isSome_insert h _ _)
    · rcases List.mem_cons.mp hx with hxe | hx
      · left
        unfold insertEntry
        rw [← hxe, Finmap.lookup_insert]
        rfl
      · exact Or.inr ⟨x, hx⟩

/-- A map filled from the entries of another map is that map, in whatever order they
come. -/
theorem foldl_entries_eq {entries : List (NodeHash × TreeNode K)} {store : BlockStore K}
    (hin : ∀ e ∈ entries, store.lookup e.1 = some e.2)
    (hall : ∀ k x, store.lookup k = some x → (k, x) ∈ entries) :
    entries.foldl insertEntry ∅ = store := by
  apply Finmap.ext_lookup
  intro k
  cases hk : store.lookup k with
  | none =>
    cases hr : (entries.foldl insertEntry (∅ : BlockStore K)).lookup k with
    | none => rfl
    | some y =>
      rcases lookup_foldl_entries hr with hy | hy
      · rw [hin _ hy] at hk
        cases hk
      · rw [Finmap.lookup_empty] at hy
        cases hy
  | some x =>
    have hsome : ((entries.foldl insertEntry (∅ : BlockStore K)).lookup k).isSome :=
      isSome_foldl_entries (Or.inr ⟨x, hall k x hk⟩)
    obtain ⟨y, hy⟩ := Option.isSome_iff_exists.mp hsome
    rcases lookup_foldl_entries hy with hmem | hmem
    · rw [hy, ← hk, hin _ hmem]
    · rw [Finmap.lookup_empty] at hmem
      cases hmem

/-! ## The rows of the join -/

section Join

variable {C : Codec K} {tasks : List (DirtyData K)} {db₀ : Database}

/-- A flushed proposal has left a certificate of its justify view. -/
theorem firstCert_isSome {p : TreeNode K} (hp : p ∈ flushedProps tasks) :
    (firstCert tasks p.justify.view).isSome := by
  obtain ⟨t, ht, hpt⟩ := List.mem_flatMap.mp hp
  unfold firstCert
  rw [List.find?_isSome]
  refine ⟨recordedQc p, ?_, decide_eq_true rfl⟩
  apply List.mem_flatMap.mpr
  exact ⟨t, ht, List.mem_append_left _ (List.mem_map_of_mem hpt)⟩

theorem firstProp_mem {v : ViewNumber} {p : TreeNode K} (h : firstProp tasks v = some p) :
    p ∈ flushedProps tasks :=
  List.mem_of_find?_eq_some h

/-- The rows of the join are the pairs of a first proposal and a first certificate. -/
theorem mem_join_iff (hp : db₀.proposal = []) (hq : db₀.qc = [])
    {row : ProposalRow × QcRow} :
    row ∈ (tasks.foldl (flush C) db₀).join ↔
      ∃ v p q, firstProp tasks v = some p ∧ firstCert tasks p.justify.view = some q ∧
        row = (proposalRow C p, qcRow C q) := by
  unfold join
  constructor
  · intro h
    -- a row of either table is the first one offered for its key
    obtain ⟨r, hr, h⟩ := List.mem_flatMap.mp h
    obtain ⟨c, hc, hrow⟩ := List.mem_map.mp h
    obtain ⟨hc, hview⟩ := List.mem_filter.mp hc
    rw [decide_eq_true_eq] at hview
    have hsel := (Table.mem_iff_select (unique_proposal hp)).mp hr
    rw [select_proposal hp] at hsel
    obtain ⟨p, hfirst, hpr⟩ := Option.map_eq_some_iff.mp hsel
    have hselc := (Table.mem_iff_select (unique_qc hq)).mp hc
    rw [select_qc hq, hview, ← hpr] at hselc
    obtain ⟨q, hfirstq, hqc⟩ := Option.map_eq_some_iff.mp hselc
    refine ⟨r.view, p, q, hfirst, hfirstq, ?_⟩
    rw [← hrow, hpr, hqc]
  · intro ⟨v, p, q, hfirst, hfirstq, hrow⟩
    have hheight := firstProp_height hfirst
    have hcview : q.view = p.justify.view := by
      have h := List.find?_some hfirstq
      rw [decide_eq_true_eq] at h
      exact h
    have hmemp : proposalRow C p ∈ (tasks.foldl (flush C) db₀).proposal := by
      rw [Table.mem_iff_select (unique_proposal hp), select_proposal hp]
      have hv : (proposalRow C p).view = v := hheight
      rw [hv, hfirst]
      rfl
    have hmemq : qcRow C q ∈ (tasks.foldl (flush C) db₀).qc := by
      rw [Table.mem_iff_select (unique_qc hq), select_qc hq]
      have hv : (qcRow C q).view = p.justify.view := hcview
      rw [hv, hfirstq]
      rfl
    apply List.mem_flatMap.mpr
    refine ⟨proposalRow C p, hmemp, ?_⟩
    apply List.mem_map.mpr
    refine ⟨qcRow C q, ?_, hrow.symm⟩
    apply List.mem_filter.mpr
    exact ⟨hmemq, decide_eq_true hcview⟩

/-- The rows of the join decode to the nodes recovery finds at the heights. -/
theorem decoded_iff (laws : CodecLaws C) (hp : db₀.proposal = []) (hq : db₀.qc = [])
    {e : NodeHash × TreeNode K} :
    (∃ row ∈ (tasks.foldl (flush C) db₀).join, mapRowToProposal C row = some e) ↔
      ∃ v, restoreProp tasks v = some e := by
  constructor
  · intro ⟨row, hrow, he⟩
    obtain ⟨v, p, q, hfirst, hfirstq, hpair⟩ := (mem_join_iff hp hq).mp hrow
    rw [hpair, mapRowToProposal_eq laws] at he
    refine ⟨v, ?_⟩
    unfold restoreProp
    rw [hfirst, Option.bind_some, hfirstq]
    exact he
  · intro ⟨v, he⟩
    obtain ⟨p, hfirst, he⟩ := Option.bind_eq_some_iff.mp he
    obtain ⟨q, hfirstq, he⟩ := Option.map_eq_some_iff.mp he
    refine ⟨(proposalRow C p, qcRow C q), ?_, ?_⟩
    · exact (mem_join_iff hp hq).mpr ⟨v, p, q, hfirst, hfirstq, rfl⟩
    · rw [mapRowToProposal_eq laws, he]

/-- When every row decodes, the decoded list has the decoded rows. -/
theorem mapM_decoded {rows : List (ProposalRow × QcRow)}
    (h : ∀ row ∈ rows, ∃ e, mapRowToProposal C row = some e) :
    ∃ entries, rows.mapM (mapRowToProposal C) = some entries ∧
      ∀ e, e ∈ entries ↔ ∃ row ∈ rows, mapRowToProposal C row = some e := by
  induction rows with
  | nil => exact ⟨[], rfl, fun e => by simp⟩
  | cons row rows ih =>
    obtain ⟨entries, hmap, hmem⟩ := ih fun r hr => h r (List.mem_cons_of_mem _ hr)
    obtain ⟨e₀, he₀⟩ := h row List.mem_cons_self
    refine ⟨e₀ :: entries, ?_, ?_⟩
    · rw [List.mapM_cons, he₀, hmap]
      rfl
    · intro e
      rw [List.mem_cons, hmem]
      constructor
      · intro he
        rcases he with he | ⟨r, hr, he⟩
        · exact ⟨row, List.mem_cons_self, by rw [he₀, he]⟩
        · exact ⟨r, List.mem_cons_of_mem _ hr, he⟩
      · intro ⟨r, hr, he⟩
        rcases List.mem_cons.mp hr with hrr | hr
        · rw [hrr, he₀] at he
          exact Or.inl (Option.some.inj he).symm
        · exact Or.inr ⟨r, hr, he⟩

/-- Every result of the join query decodes, to the nodes recovery finds at the heights. -/
theorem recoverInMemQueue_eq (laws : CodecLaws C) (hp : db₀.proposal = []) (hq : db₀.qc = [])
    {rows : List (ProposalRow × QcRow)} (hrows : (tasks.foldl (flush C) db₀).IsOrderedJoin rows) :
    ∃ entries : List (NodeHash × TreeNode K),
      recoverInMemQueue C rows = some (entries.foldl insertEntry ∅) ∧
      ∀ e, e ∈ entries ↔ ∃ v, restoreProp tasks v = some e := by
  have hdecode : ∀ row ∈ rows, ∃ e, mapRowToProposal C row = some e := by
    intro row hrow
    obtain ⟨v, p, q, -, -, hpair⟩ := (mem_join_iff hp hq).mp (hrows.1.mem_iff.mp hrow)
    exact ⟨_, by rw [hpair, mapRowToProposal_eq laws]⟩
  obtain ⟨entries, hmap, hmem⟩ := mapM_decoded hdecode
  refine ⟨entries, ?_, ?_⟩
  · unfold recoverInMemQueue
    rw [hmap]
    rfl
  · intro e
    rw [hmem, ← decoded_iff laws hp hq]
    constructor
    · intro ⟨row, hrow, he⟩
      exact ⟨row, hrows.1.mem_iff.mp hrow, he⟩
    · intro ⟨row, hrow, he⟩
      exact ⟨row, hrows.1.mem_iff.mpr hrow, he⟩

/-- The query has a result. -/
theorem exists_orderedJoin (db : Database) : ∃ rows, db.IsOrderedJoin rows := by
  obtain ⟨rows, hperm, hsorted⟩ :=
    SortDedup.exists_sortedBy (fun row : ProposalRow × QcRow => row.1.justifyView) db.join
  exact ⟨rows, hperm, hsorted⟩

end Join

/-! ## When the store comes back -/

/-- The rows of the block are its own: its justify names the block itself in the view of
its height, the first flushed proposal of its height has its transactions and parent, and
the first flushed certificate of that proposal's justify view has its hash and
signature. -/
def Intact (tasks : List (DirtyData K)) (k : NodeHash) (x : TreeNode K) : Prop :=
  x.justify.view = x.height ∧ x.justify.node = k ∧
    ∃ p q, firstProp tasks x.height = some p ∧ firstCert tasks p.justify.view = some q ∧
      p.txs = x.txs ∧ p.parent = x.parent ∧ q.node = k ∧
      q.combinedSign = x.justify.combinedSign

/-- What recovery needs in order not to panic: a flushed state, a row for each node of
positive height it mentions, and no flushed partial timeout certificate. -/
structure Readable (tasks : List (DirtyData K)) : Prop where
  state : ∃ last, tasks.getLast? = some last ∧
    ∀ v ∈ [last.state.leaf.height, last.state.bLocked.height, last.state.lastCommit.height],
      v ≠ 0 → ∃ p ∈ flushedProps tasks, p.height = v
  tcs : ∀ t ∈ tasks, t.partialTcQueue = []

/-- A height can be looked up when it is 0 or has a proposal. -/
theorem restoreNode_isSome {tasks : List (DirtyData K)} {v : ViewNumber} :
    (restoreNode tasks v).isSome ↔ (v ≠ 0 → ∃ p ∈ flushedProps tasks, p.height = v) := by
  unfold restoreNode
  by_cases h0 : v = 0
  · have hpos : ¬ (0 : ViewNumber) < v := by
      rw [h0]
      exact lt_irrefl _
    rw [if_neg hpos]
    constructor
    · intro _ hne
      exact absurd h0 hne
    · intro _
      rfl
  · rw [if_pos (pos_of_ne_zero h0)]
    constructor
    · intro h _
      obtain ⟨x, hx⟩ := Option.isSome_iff_exists.mp h
      obtain ⟨e, he, -⟩ := Option.map_eq_some_iff.mp hx
      obtain ⟨p, hfirst, -⟩ := Option.bind_eq_some_iff.mp he
      exact ⟨p, firstProp_mem hfirst, firstProp_height hfirst⟩
    · intro h
      obtain ⟨p, hp, hv⟩ := h h0
      have hfirst : (firstProp tasks v).isSome := by
        unfold firstProp
        rw [List.find?_isSome]
        exact ⟨p, hp, decide_eq_true hv⟩
      obtain ⟨p', hp'⟩ := Option.isSome_iff_exists.mp hfirst
      obtain ⟨q, hq⟩ := Option.isSome_iff_exists.mp (firstCert_isSome (firstProp_mem hp'))
      unfold restoreProp
      rw [hp', Option.bind_some, hq]
      rfl

theorem restoreState_isSome {tasks : List (DirtyData K)} {state : InMemoryState K} :
    (restoreState tasks state).isSome ↔
      ∀ v ∈ [state.leaf.height, state.bLocked.height, state.lastCommit.height],
        v ≠ 0 → ∃ p ∈ flushedProps tasks, p.height = v := by
  simp only [List.mem_cons, List.not_mem_nil, or_false, forall_eq_or_imp, forall_eq]
  rw [← restoreNode_isSome, ← restoreNode_isSome, ← restoreNode_isSome]
  unfold restoreState
  cases restoreNode tasks state.leaf.height with
  | none => simp
  | some leaf =>
    cases restoreNode tasks state.bLocked.height with
    | none => simp
    | some bLocked =>
      cases restoreNode tasks state.lastCommit.height with
      | none => simp
      | some lastCommit => simp

section Main

variable {C : Codec K} {token : String} {db₀ db : Database} {s : HotstuffStorage K}
  {tasks : List (DirtyData K)}

/-- The configuration was written at initialisation, and no flush touches it. -/
theorem exists_recoverHotstuffConfig (h : Persisted C token db₀ s db tasks) (hd : s.Drained) :
    ∃ conf, db.recoverHotstuffConfig = some conf := by
  obtain ⟨row, rows, hrow⟩ := List.exists_cons_of_ne_nil h.invariant.tables.conf
  have htable : db.hotstuffConf = row :: rows := by
    rw [h.db_eq hd, (foldl_flush_config tasks db₀).1, hrow]
  refine ⟨⟨row.token, row.total, row.selfId, db.peers⟩, ?_⟩
  unfold recoverHotstuffConfig
  rw [htable]
  rfl

/-- So were the keys. -/
theorem exists_recoverSignaturer (laws : CodecLaws C) (h : Persisted C token db₀ s db tasks)
    (hd : s.Drained) : ∃ sig, db.recoverSignaturer C token = some sig := by
  obtain ⟨pks, sks, id, hcrypto⟩ := h.invariant.tables.crypto
  refine ⟨⟨id, pks, sks⟩, ?_⟩
  unfold recoverSignaturer Table.select
  rw [h.db_eq hd, (foldl_flush_config tasks db₀).2.2, hcrypto]
  simp [laws.pks, laws.sks]

/-- Recovery succeeds exactly when the database is readable, and then its store is the one
read from the join. -/
theorem recover_eq_some (laws : CodecLaws C) (h : Persisted C token db₀ s db tasks)
    (hd : s.Drained) {rows : List (ProposalRow × QcRow)} {store : BlockStore K}
    (hstore : recoverInMemQueue C rows = some store) :
    (∃ s', HotstuffStorage.recover C db token rows = some s' ∧ s'.inMemQueue = s.inMemQueue) ↔
      Readable tasks ∧ store = s.inMemQueue := by
  have htc : db.recoverTcMap C =
      if tasks.flatMap DirtyData.partialTcQueue = [] then some ∅ else none := by
    rw [h.db_eq hd]
    exact recoverTcMap_eq laws h.invariant.tables.partialTc
  have hnil : tasks.flatMap DirtyData.partialTcQueue = [] ↔
      ∀ t ∈ tasks, t.partialTcQueue = [] := List.flatMap_eq_nil_iff
  obtain ⟨conf, hconf⟩ := exists_recoverHotstuffConfig h hd
  obtain ⟨sig, hsig⟩ := exists_recoverSignaturer laws h hd
  -- what is left to fail is the state and the timeout certificates
  unfold HotstuffStorage.recover
  rw [hconf, hstore, hsig, htc, h.recoverHotstuffState_eq laws hd]
  simp only [Option.bind_eq_bind, Option.bind_some]
  constructor
  · intro ⟨s', hs', hsame⟩
    obtain ⟨state, hstate, hs'⟩ := Option.bind_eq_some_iff.mp hs'
    obtain ⟨tcMap, htcMap, hs'⟩ := Option.bind_eq_some_iff.mp hs'
    obtain ⟨last, hlast, hrest⟩ := Option.bind_eq_some_iff.mp hstate
    refine ⟨⟨⟨last, hlast, ?_⟩, ?_⟩, ?_⟩
    · rw [← restoreState_isSome]
      exact Option.isSome_iff_exists.mpr ⟨state, hrest⟩
    · rw [← hnil]
      by_contra hne
      rw [if_neg hne] at htcMap
      cases htcMap
    · rw [← hsame, ← Option.some.inj hs']
  · intro ⟨hread, hsame⟩
    obtain ⟨last, hlast, hheights⟩ := hread.state
    obtain ⟨state, hstate⟩ := Option.isSome_iff_exists.mp (restoreState_isSome.mpr hheights)
    rw [hlast, Option.bind_some, hstate, if_pos (hnil.mpr hread.tcs)]
    exact ⟨_, rfl, hsame⟩

/-- A stored block is one of the flushed ones or the genesis block, when nothing is left in
the queue. -/
theorem stored_cases (h : Persisted C token db₀ s db tasks) (hqueue : s.propQueue = [])
    {k : NodeHash} {x : TreeNode K} (hx : s.inMemQueue.lookup k = some x) :
    x.hash = k ∧ (x ∈ flushedProps tasks ∨ x = initNode K) := by
  rw [h.invariant.store, hqueue, List.append_nil] at hx
  rcases lookup_foldl_insertBlock hx with ⟨hmem, hk⟩ | hx
  · exact ⟨hk, Or.inl hmem⟩
  · rcases HashMap.lookup_insert_cases hx with ⟨hk, hxi⟩ | hx
    · rw [hxi, hk]
      exact ⟨rfl, Or.inr rfl⟩
    · rw [Finmap.lookup_empty] at hx
      cases hx

/-- Every flushed block is stored. -/
theorem flushed_stored (h : Persisted C token db₀ s db tasks) (hqueue : s.propQueue = [])
    {p : TreeNode K} (hp : p ∈ flushedProps tasks) :
    ∃ x, s.inMemQueue.lookup p.hash = some x := by
  rw [h.invariant.store, hqueue, List.append_nil]
  exact Option.isSome_iff_exists.mp (isSome_foldl_insertBlock (Or.inr ⟨p, hp, rfl⟩))

/-- If one result of the query gives the store back, the database is readable and every
stored block is intact. -/
theorem intact_of_recovered (laws : CodecLaws C) (h : Persisted C token db₀ s db tasks)
    (hd : s.Drained) {rows : List (ProposalRow × QcRow)} (hrows : db.IsOrderedJoin rows)
    (hrecover : ∃ s', HotstuffStorage.recover C db token rows = some s' ∧
      s'.inMemQueue = s.inMemQueue) :
    Readable tasks ∧ ∀ k x, s.inMemQueue.lookup k = some x → Intact tasks k x := by
  have htables := h.invariant.tables
  have hdb := h.db_eq hd
  obtain ⟨entries, hrec, hmem⟩ := recoverInMemQueue_eq laws htables.proposal htables.qc
    (hdb ▸ hrows)
  obtain ⟨hread, hsame⟩ := (recover_eq_some laws h hd hrec).mp hrecover
  refine ⟨hread, ?_⟩
  intro k x hx
  rw [← hsame] at hx
  rcases lookup_foldl_entries hx with he | he
  · obtain ⟨v, hv⟩ := (hmem _).mp he
    -- the height of the decoded node is the one it was found at
    have hheight : v = x.height := by
      obtain ⟨p, hfirst, hq⟩ := Option.bind_eq_some_iff.mp hv
      obtain ⟨q, -, heq⟩ := Option.map_eq_some_iff.mp hq
      rw [← (Prod.mk.inj heq).2]
      exact (firstProp_height hfirst).symm
    rw [hheight] at hv
    exact restoreProp_eq_iff.mp hv
  · rw [Finmap.lookup_empty] at he
    cases he

/-- If every stored block is intact, every result of the query gives the store back. -/
theorem recovered_of_intact (laws : CodecLaws C) (h : Persisted C token db₀ s db tasks)
    (hd : s.Drained) (hqueue : s.propQueue = [])
    (hsha : CollisionFree {x | x = initNode K ∨ x ∈ flushedProps tasks})
    (hread : Readable tasks)
    (hintact : ∀ k x, s.inMemQueue.lookup k = some x → Intact tasks k x)
    {rows : List (ProposalRow × QcRow)} (hrows : db.IsOrderedJoin rows) :
    ∃ s', HotstuffStorage.recover C db token rows = some s' ∧ s'.inMemQueue = s.inMemQueue := by
  have htables := h.invariant.tables
  have hdb := h.db_eq hd
  obtain ⟨entries, hrec, hmem⟩ := recoverInMemQueue_eq laws htables.proposal htables.qc
    (hdb ▸ hrows)
  apply (recover_eq_some laws h hd hrec).mpr
  refine ⟨hread, foldl_entries_eq ?_ ?_⟩
  · intro e he
    obtain ⟨v, hv⟩ := (hmem e).mp he
    obtain ⟨p, hfirst, -⟩ := Option.bind_eq_some_iff.mp hv
    -- the flushed proposal is stored, up to its justify, and the stored one is intact
    obtain ⟨x, hx⟩ := flushed_stored h hqueue (firstProp_mem hfirst)
    obtain ⟨hhash, hmemx⟩ := stored_cases h hqueue hx
    have hinput := hsha x hmemx.symm p (Or.inr (firstProp_mem hfirst)) hhash
    have hheight : x.height = v := (hashInput_inj hinput).2.1.trans (firstProp_height hfirst)
    have hfound := restoreProp_eq_iff.mpr (hintact _ x hx)
    rw [hheight, hv] at hfound
    rw [Option.some.inj hfound]
    exact hx
  · intro k x hx
    exact (hmem _).mpr ⟨x.height, restoreProp_eq_iff.mpr (hintact k x hx)⟩

/-- With all dirty data flushed and written, `recover` rebuilds the block store in every
order in which the rows may come, exactly when the database is readable and every stored
block is intact. -/
theorem store_survives_restart_iff (laws : CodecLaws C) (h : Persisted C token db₀ s db tasks)
    (hd : s.Drained) (hqueue : s.propQueue = [])
    (hsha : CollisionFree {x | x = initNode K ∨ x ∈ flushedProps tasks}) :
    (∀ rows, db.IsOrderedJoin rows → ∃ s', HotstuffStorage.recover C db token rows = some s' ∧
        s'.inMemQueue = s.inMemQueue) ↔
      Readable tasks ∧ ∀ k x, s.inMemQueue.lookup k = some x → Intact tasks k x := by
  constructor
  · intro hall
    obtain ⟨rows, hrows⟩ := exists_orderedJoin db
    exact intact_of_recovered laws h hd hrows (hall rows hrows)
  · intro ⟨hread, hintact⟩ rows hrows
    exact recovered_of_intact laws h hd hqueue hsha hread hintact hrows

end Main

namespace Literal

/-- The genesis block with the genesis certificate for its justify, in the place of zeroed
memory. Its hash is that of `INIT_NODE`. -/
def selfGenesis : TreeNode literal := ⟨0, [], genesisHash, initQc literal⟩

/-- It is stored over `INIT_NODE`, and `selfBlock` on it. -/
def ownOps : List (StorageOp literal) := [.appendNewNode selfGenesis, .appendNewNode selfBlock]

theorem flushedProps_ownOps :
    flushedProps [(after ownOps).dirtyData] = [selfGenesis, selfBlock] := by decide +kernel

theorem lookup_ownOps {k : NodeHash} {x : TreeNode literal}
    (h : (after ownOps).inMemQueue.lookup k = some x) :
    k = x.hash ∧ (x = selfGenesis ∨ x = selfBlock) := by
  have hstore : (after ownOps).inMemQueue =
      ((∅ : BlockStore literal).insert selfGenesis.hash selfGenesis).insert
        selfBlock.hash selfBlock := by decide +kernel
  rw [hstore] at h
  rcases HashMap.lookup_insert_cases h with ⟨rfl, rfl⟩ | h
  · exact ⟨rfl, Or.inr rfl⟩
  · rcases HashMap.lookup_insert_cases h with ⟨rfl, rfl⟩ | h
    · exact ⟨rfl, Or.inl rfl⟩
    · rw [Finmap.lookup_empty] at h
      cases h

/-- A store that holds these two blocks survives a flush and a restart. -/
theorem ownJustifies_survive_restart :
    ∃ s, Persisted codec conf.token db₀ s (dbAfter ownOps) [(after ownOps).dirtyData] ∧
      s.Drained ∧ s.propQueue = [] ∧ s.inMemQueue = (after ownOps).inMemQueue ∧
      (dbAfter ownOps).join.length = 2 ∧
      ∀ rows, (dbAfter ownOps).IsOrderedJoin rows →
        ∃ s', HotstuffStorage.recover codec (dbAfter ownOps) conf.token rows = some s' ∧
          s'.inMemQueue = s.inMemQueue := by
  obtain ⟨s, hs, hd, hqueue, hstore⟩ := persisted_once ownOps (by decide +kernel)
  refine ⟨s, hs, hd, hqueue, hstore, by decide +kernel, ?_⟩
  have hsha : CollisionFree
      {x | x = initNode literal ∨ x ∈ flushedProps [(after ownOps).dirtyData]} := by
    have hall : ∀ p ∈ [initNode literal, selfGenesis, selfBlock],
        ∀ q ∈ [initNode literal, selfGenesis, selfBlock],
          p.hash = q.hash → p.hashInput = q.hashInput := by
      decide +kernel
    have hmem : ∀ x ∈ {x | x = initNode literal ∨
        x ∈ flushedProps [(after ownOps).dirtyData]},
        x ∈ [initNode literal, selfGenesis, selfBlock] := by
      rintro x (hx | hx)
      · rw [hx]
        exact List.mem_cons_self
      · rw [flushedProps_ownOps] at hx
        exact List.mem_cons_of_mem _ hx
    exact fun p hp q hq => hall p (hmem p hp) q (hmem q hq)
  have hread : Readable [(after ownOps).dirtyData] := by
    refine ⟨⟨_, rfl, ?_⟩, ?_⟩
    · have hleaf : (after ownOps).dirtyData.state.leaf.height = 0 := by decide +kernel
      have hlocked : (after ownOps).dirtyData.state.bLocked.height = 0 := by decide +kernel
      have hcommit : (after ownOps).dirtyData.state.lastCommit.height = 0 := by
        decide +kernel
      intro v hv hne
      rw [List.getLast_singleton, hleaf, hlocked, hcommit] at hv
      simp [hne] at hv
    · intro t ht
      rw [List.mem_singleton.mp ht]
      rfl
  apply (store_survives_restart_iff codec_laws hs hd hqueue hsha).mpr
  refine ⟨hread, ?_⟩
  intro k x hx
  rw [hstore] at hx
  obtain ⟨rfl, rfl | rfl⟩ := lookup_ownOps hx
  · refine ⟨rfl, ?_, selfGenesis, recordedQc selfGenesis, ?_, ?_, rfl, rfl, ?_, rfl⟩ <;>
      decide +kernel
  · refine ⟨rfl, ?_, selfBlock, recordedQc selfBlock, ?_, ?_, rfl, rfl, ?_, rfl⟩ <;>
      decide +kernel

/-- A block of height 1 is stored beside the genesis block and flushed. `INIT_NODE` is not
recovered, since its justify does not name it. -/
theorem store_lost_on_restart :
    ∃ s, Persisted codec conf.token db₀ s (dbAfter leafOps) [(after leafOps).dirtyData] ∧
      s.Drained ∧ s.propQueue = [] ∧
      ¬ ∀ rows, (dbAfter leafOps).IsOrderedJoin rows →
        ∃ s', HotstuffStorage.recover codec (dbAfter leafOps) conf.token rows = some s' ∧
          s'.inMemQueue = s.inMemQueue := by
  obtain ⟨s, hs, hd, hqueue, hstore⟩ := persisted_once leafOps (by decide +kernel)
  refine ⟨s, hs, hd, hqueue, ?_⟩
  intro hall
  obtain ⟨rows, hrows⟩ := exists_orderedJoin (dbAfter leafOps)
  obtain ⟨-, hintact⟩ := intact_of_recovered codec_laws hs hd hrows (hall rows hrows)
  have hgenesis : s.inMemQueue.lookup (initNodeHash literal) = some (initNode literal) := by
    rw [hstore]
    decide +kernel
  have hnode := (hintact _ _ hgenesis).2.1
  exact absurd hnode (by decide +kernel)

end Literal

end HotstuffConsensus
