import HotstuffConsensus.QuorumCertificate

/-!
# The pools of votes

`on_recv_vote` adds a vote to the pool of its height before it looks at the result, and
`combine_partial_sign` removes the pool before it looks at its own. `VotePath` lists the ways
through the two.

* A vote that is rejected has changed the pools by then, except for a vote that was there
  already.
* A combined pool is gone, and `vote_decided` is never read: late votes fill the next one.
-/

namespace HotstuffConsensus

open Lib

variable {K : Crypto}

namespace Machine

/-- The voting sets with one more vote. -/
def votingSetWith (m : Machine K) (ctx : Context) (prop : TreeNode K) (sign : SignKit K) :
    Finmap fun _ : ViewNumber => Finmap fun _ : ReplicaID => SignKit K :=
  m.voter.votingSet.insert prop.height (m.poolWith ctx prop sign)

/-- What the signatures of the pool combine to once the vote is in. -/
def combined (m : Machine K) (ctx : Context) (prop : TreeNode K) (sign : SignKit K) :
    Option K.CombinedSign :=
  K.combineSignatures m.voter.signature.pks
    ((HashMap.values (m.poolWith ctx prop sign)).map fun kit => (kit.signId, kit.sign))

/-- The ways through `on_recv_vote`, with what is left of the voting sets. -/
inductive VotePath (m : Machine K) (ctx : Context) (prop : TreeNode K) (sign : SignKit K) :
    Finmap (fun _ : ViewNumber => Finmap fun _ : ReplicaID => SignKit K) →
    Except SafetyErr (Ready K) → Prop
  | invalid (hval : m.voter.validateVote prop sign = false) :
      VotePath m ctx prop sign m.voter.votingSet (.error .corruptedVote)
  | duplicate {old : SignKit K} (hval : m.voter.validateVote prop sign = true)
      (hold : (m.voter.pool prop.height).lookup ctx.sender = some old) :
      VotePath m ctx prop sign (m.votingSetWith ctx prop sign) (.ok .nil)
  | pooled (hval : m.voter.validateVote prop sign = true)
      (hnew : (m.voter.pool prop.height).lookup ctx.sender = none)
      (hsize : HashMap.size (m.poolWith ctx prop sign) ≤ m.threshold) :
      VotePath m ctx prop sign (m.votingSetWith ctx prop sign) (.ok .nil)
  /-- The voter asks for more votes than the machine. -/
  | short (e : VoteErr) (hval : m.voter.validateVote prop sign = true)
      (hnew : (m.voter.pool prop.height).lookup ctx.sender = none)
      (hm : m.threshold < HashMap.size (m.poolWith ctx prop sign))
      (hv : HashMap.size (m.poolWith ctx prop sign) ≤ m.voter.threshold) :
      VotePath m ctx prop sign (m.votingSetWith ctx prop sign) (.error (.voterError e))
  /-- The signatures do not combine. -/
  | failed (e : VoteErr) (hval : m.voter.validateVote prop sign = true)
      (hnew : (m.voter.pool prop.height).lookup ctx.sender = none)
      (hm : m.threshold < HashMap.size (m.poolWith ctx prop sign))
      (hv : m.voter.threshold < HashMap.size (m.poolWith ctx prop sign))
      (hcomb : m.combined ctx prop sign = none) :
      VotePath m ctx prop sign ((m.votingSetWith ctx prop sign).erase prop.height)
        (.error (.voterError e))
  | formed {s : K.CombinedSign} (v : ViewNumber) (hval : m.voter.validateVote prop sign = true)
      (hnew : (m.voter.pool prop.height).lookup ctx.sender = none)
      (hm : m.threshold < HashMap.size (m.poolWith ctx prop sign))
      (hv : m.voter.threshold < HashMap.size (m.poolWith ctx prop sign))
      (hcomb : m.combined ctx prop sign = some s) :
      VotePath m ctx prop sign ((m.votingSetWith ctx prop sign).erase prop.height)
        (.ok (.proposalReachConsensus v))

theorem onRecvVote_path (m : Machine K) (ctx : Context) (prop : TreeNode K) (sign : SignKit K) :
    VotePath m ctx prop sign (m.onRecvVote ctx prop sign).1.voter.votingSet
      (m.onRecvVote ctx prop sign).2 := by
  unfold onRecvVote
  cases hval : m.voter.validateVote prop sign with
  | false => exact .invalid hval
  | true =>
    rw [if_neg (by simp)]
    have hpool := addVote_pool m.voter ctx prop.height sign
    have hfst := addVote_fst m.voter ctx prop.height sign
    have hok := @addVote_isOk K m.voter ctx prop.height sign
    rcases hadd : m.voter.addVote ctx prop.height sign with ⟨voter, r⟩
    rw [hadd] at hpool hfst hok
    dsimp only at hpool hfst hok ⊢
    have hset : voter.votingSet = m.votingSetWith ctx prop sign := by
      rw [hfst]
      rfl
    cases r with
    | error e =>
      cases hold : (m.voter.pool prop.height).lookup ctx.sender with
      | none => exact absurd (hok.mpr hold) (by simp)
      | some old =>
        rw [hset]
        exact .duplicate hval hold
    | ok u =>
      cases u
      dsimp only
      have hnew := hok.mp rfl
      have hsize : voter.voteSetSize prop.height = HashMap.size (m.poolWith ctx prop sign) := by
        rw [Voter.voteSetSize_eq_size_pool, hpool]
        rfl
      have hth : voter.threshold = m.voter.threshold := by rw [hfst]
      by_cases hm : m.threshold < voter.voteSetSize prop.height
      · rw [if_pos hm]
        rw [hsize] at hm
        unfold Voter.combinePartialSign
        by_cases hv : voter.voteSetSize prop.height ≤ voter.threshold
        · rw [if_pos hv]
          dsimp only
          rw [hset]
          rw [hsize, hth] at hv
          exact .short _ hval hnew hm hv
        · rw [if_neg hv]
          rw [hsize, hth] at hv
          have hcomb : K.combineSignatures voter.signature.pks
              ((HashMap.values (voter.pool prop.height)).map fun kit => (kit.signId, kit.sign)) =
                m.combined ctx prop sign := by
            rw [hpool, hfst]
            rfl
          unfold DefaultSignaturer.combinePartialSign
          rw [hcomb]
          cases hc : m.combined ctx prop sign with
          | none =>
            dsimp only
            rw [hset]
            exact .failed _ hval hnew hm (not_le.mp hv) hc
          | some s =>
            dsimp only
            rw [hset]
            exact .formed _ hval hnew hm (not_le.mp hv) hc
      · rw [if_neg hm]
        rw [hsize] at hm
        dsimp only
        rw [hset]
        exact .pooled hval hnew (not_lt.mp hm)

/-! ## Rejected votes -/

/-- `on_recv_vote` returns an error, or discards the vote as a duplicate. -/
def RejectsVote (m : Machine K) (ctx : Context) (prop : TreeNode K) (sign : SignKit K) : Prop :=
  (∃ e, (m.onRecvVote ctx prop sign).2 = .error e) ∨
    m.voter.validateVote prop sign = true ∧
      ∃ e, (m.voter.addVote ctx prop.height sign).2 = .error e

/-- Voting sets and storage are those before the call. -/
def UnchangedByVote (m : Machine K) (ctx : Context) (prop : TreeNode K) (sign : SignKit K) : Prop :=
  (m.onRecvVote ctx prop sign).1.voter.votingSet = m.voter.votingSet ∧
    (m.onRecvVote ctx prop sign).1.storage = m.storage

/-- The signature is invalid, or the pool holds this very vote already. In a machine that
combines single votes there may also be no pool yet. -/
def LeavesNoTrace (m : Machine K) (ctx : Context) (prop : TreeNode K) (sign : SignKit K) : Prop :=
  m.voter.validateVote prop sign = false ∨
    (m.voter.pool prop.height).lookup ctx.sender = some sign ∨
    m.voter.votingSet.lookup prop.height = none ∧ m.voter.threshold = 0

theorem lookup_poolWith (m : Machine K) (ctx : Context) (prop : TreeNode K) (sign : SignKit K) :
    (m.poolWith ctx prop sign).lookup ctx.sender = some sign := Finmap.lookup_insert _

/-- The pool of a height, if there is one, is its entry in the voting sets. -/
theorem lookup_votingSet_of_pool {v : Voter K} {view : ViewNumber} {sender : ReplicaID}
    {sign : SignKit K} (h : (v.pool view).lookup sender = some sign) :
    v.votingSet.lookup view = some (v.pool view) := by
  unfold Voter.pool HashMap.entryD at h ⊢
  cases hp : v.votingSet.lookup view with
  | none =>
    rw [hp, Option.getD_none, Finmap.lookup_empty] at h
    cases h
  | some p => rfl

/-- Adding a vote changes nothing exactly when it is there already. -/
theorem votingSetWith_eq_iff {m : Machine K} {ctx : Context} {prop : TreeNode K}
    {sign : SignKit K} :
    m.votingSetWith ctx prop sign = m.voter.votingSet ↔
      (m.voter.pool prop.height).lookup ctx.sender = some sign := by
  constructor
  · intro h
    have hentry : m.voter.votingSet.lookup prop.height = some (m.poolWith ctx prop sign) := by
      rw [← h]
      exact Finmap.lookup_insert _
    have hpool : m.voter.pool prop.height = m.poolWith ctx prop sign := by
      unfold Voter.pool HashMap.entryD
      rw [hentry]
      rfl
    rw [hpool]
    exact m.lookup_poolWith ctx prop sign
  · intro h
    have hsame : m.poolWith ctx prop sign = m.voter.pool prop.height := HashMap.insert_eq_self h
    unfold votingSetWith
    rw [hsame]
    exact HashMap.insert_eq_self (lookup_votingSet_of_pool h)

/-- Adding a vote and removing its pool changes nothing exactly when there was no pool. -/
theorem votingSetWith_erase_eq_iff {m : Machine K} {ctx : Context} {prop : TreeNode K}
    {sign : SignKit K} :
    (m.votingSetWith ctx prop sign).erase prop.height = m.voter.votingSet ↔
      m.voter.votingSet.lookup prop.height = none := by
  constructor
  · intro h
    rw [← h]
    exact Finmap.lookup_erase _ _
  · intro h
    apply Finmap.ext_lookup
    intro v
    by_cases hv : v = prop.height
    · rw [hv, Finmap.lookup_erase, h]
    · rw [Finmap.lookup_erase_ne hv]
      exact Finmap.lookup_insert_of_ne _ hv

theorem card_poolWith (m : Machine K) (ctx : Context) (prop : TreeNode K) (sign : SignKit K) :
    HashMap.size (m.poolWith ctx prop sign) =
      (insert ctx.sender (m.voter.pool prop.height).keys).card := by
  unfold poolWith
  rw [← HashMap.card_keys, HashMap.keys_insert]

/-- With no pool yet, the vote is alone in it. -/
theorem size_poolWith_of_none {m : Machine K} (ctx : Context) {prop : TreeNode K}
    (sign : SignKit K) (h : m.voter.votingSet.lookup prop.height = none) :
    HashMap.size (m.poolWith ctx prop sign) = 1 := by
  have hempty : m.voter.pool prop.height = ∅ := by
    unfold Voter.pool HashMap.entryD
    rw [h]
    rfl
  rw [card_poolWith, hempty]
  rfl

theorem size_poolWith_pos (m : Machine K) (ctx : Context) (prop : TreeNode K) (sign : SignKit K) :
    0 < HashMap.size (m.poolWith ctx prop sign) := by
  rw [card_poolWith]
  exact Finset.card_pos.mpr (Finset.insert_nonempty _ _)

/-- A rejected vote leaves voting sets and storage as they were exactly when its signature is
invalid or it is in the pool already. -/
theorem rejected_vote_unchanged_iff (m : Machine K) (ctx : Context) (prop : TreeNode K)
    (sign : SignKit K) (h : m.RejectsVote ctx prop sign) :
    m.UnchangedByVote ctx prop sign ↔ m.LeavesNoTrace ctx prop sign := by
  have hpath := m.onRecvVote_path ctx prop sign
  have hcases := m.onRecvVote_cases ctx prop sign
  have hdup := @addVote_isOk K m.voter ctx prop.height sign
  unfold RejectsVote at h
  unfold UnchangedByVote LeavesNoTrace
  generalize (m.onRecvVote ctx prop sign).1.voter.votingSet = votingSet at hpath
  generalize (m.onRecvVote ctx prop sign).1.storage = storage at hcases ⊢
  generalize (m.onRecvVote ctx prop sign).2 = out at hpath hcases h
  -- only a vote that completes a quorum reaches the storage
  have hstorage : (∀ v, out ≠ .ok (.proposalReachConsensus v)) → storage = m.storage := by
    intro hout
    rcases hcases with ⟨s, -, hout', -⟩ | ⟨-, -, hst⟩
    · exact absurd hout' (hout _)
    · exact hst
  cases hpath with
  | invalid hval => exact ⟨fun _ => Or.inl hval, fun _ => ⟨rfl, hstorage (by simp)⟩⟩
  | duplicate hval hold =>
    rw [votingSetWith_eq_iff, and_iff_left (hstorage (by simp))]
    constructor
    · exact fun heq => Or.inr (Or.inl heq)
    · rintro (hinv | heq | ⟨hnone, -⟩)
      · rw [hval] at hinv
        cases hinv
      · exact heq
      · rw [lookup_votingSet_of_pool hold] at hnone
        cases hnone
  | pooled hval hnew hsize =>
    -- neither an error nor a duplicate
    rcases h with ⟨e, he⟩ | ⟨-, e, he⟩
    · cases he
    · rw [hdup.mpr hnew] at he
      cases he
  | short e hval hnew hm hv =>
    rw [votingSetWith_eq_iff, and_iff_left (hstorage (by simp)), hnew]
    constructor
    · intro heq
      cases heq
    · rintro (hinv | heq | ⟨-, hzero⟩)
      · rw [hval] at hinv
        cases hinv
      · cases heq
      · have hpos := m.size_poolWith_pos ctx prop sign
        omega
  | failed e hval hnew hm hv hcomb =>
    rw [votingSetWith_erase_eq_iff, and_iff_left (hstorage (by simp)), hnew]
    constructor
    · intro hnone
      have hone := size_poolWith_of_none ctx sign hnone
      exact Or.inr (Or.inr ⟨hnone, by omega⟩)
    · rintro (hinv | heq | ⟨hnone, -⟩)
      · rw [hval] at hinv
        cases hinv
      · cases heq
      · exact hnone
  | formed v hval hnew hm hv hcomb =>
    rcases h with ⟨e, he⟩ | ⟨-, e, he⟩
    · cases he
    · rw [hdup.mpr hnew] at he
      cases he

/-! ## One certificate per height -/

/-- The arguments of `on_recv_vote`. -/
abbrev Vote (K : Crypto) := Context × TreeNode K × SignKit K

/-- The machine after a sequence of votes. -/
def afterVotes (m : Machine K) : List (Vote K) → Machine K
  | [] => m
  | (ctx, prop, sign) :: rest => (m.onRecvVote ctx prop sign).1.afterVotes rest

/-- The pool is combined into a certificate. -/
def reachesConsensus : Except SafetyErr (Ready K) → Bool
  | .ok (.proposalReachConsensus _) => true
  | _ => false

/-- How often `combine_partial_sign` succeeds for the height `v`. -/
def certificates (m : Machine K) (v : ViewNumber) : List (Vote K) → ℕ
  | [] => 0
  | (ctx, prop, sign) :: rest =>
    (if prop.height = v ∧ reachesConsensus (m.onRecvVote ctx prop sign).2 then 1 else 0) +
      (m.onRecvVote ctx prop sign).1.certificates v rest

/-- The replicas that send a valid vote for the height `v`. -/
def votersFor (signature : DefaultSignaturer K) (v : ViewNumber) (votes : List (Vote K)) :
    Finset ReplicaID :=
  ((votes.filter fun w => w.2.1.height = v ∧ signature.validateVote w.2.1 w.2.2).map
    fun w => w.1.sender).toFinset

/-- A pool of more votes than this is combined. -/
def quorum (m : Machine K) : ℕ := max m.threshold m.voter.threshold

/-- However the votes for the height `v` are divided into earlier and later ones, one of the
two parts is too small for a certificate. -/
def OneQuorum (m : Machine K) (v : ViewNumber) (votes : List (Vote K)) : Prop :=
  ∀ k ≤ votes.length,
    ((m.voter.pool v).keys ∪ votersFor m.voter.signature v (votes.take k)).card ≤ m.quorum ∨
      (votersFor m.voter.signature v (votes.drop k)).card ≤ m.quorum

theorem votersFor_cons (signature : DefaultSignaturer K) (v : ViewNumber) (w : Vote K)
    (votes : List (Vote K)) :
    votersFor signature v (w :: votes) =
      if w.2.1.height = v ∧ signature.validateVote w.2.1 w.2.2 then
        insert w.1.sender (votersFor signature v votes)
      else votersFor signature v votes := by
  unfold votersFor
  rw [List.filter_cons]
  by_cases h : w.2.1.height = v ∧ signature.validateVote w.2.1 w.2.2
  · rw [if_pos (by simpa using h), if_pos h, List.map_cons, List.toFinset_cons]
  · rw [if_neg (by simpa using h), if_neg h]

theorem combinePartialSign_fixed (v : Voter K) (view : ViewNumber) :
    (v.combinePartialSign view).1.signature = v.signature ∧
      (v.combinePartialSign view).1.threshold = v.threshold := by
  unfold Voter.combinePartialSign
  split <;> exact ⟨rfl, rfl⟩

/-- The keys and the thresholds of a machine stay. -/
theorem onRecvVote_fixed (m : Machine K) (ctx : Context) (prop : TreeNode K) (sign : SignKit K) :
    (m.onRecvVote ctx prop sign).1.voter.signature = m.voter.signature ∧
      (m.onRecvVote ctx prop sign).1.voter.threshold = m.voter.threshold ∧
      (m.onRecvVote ctx prop sign).1.total = m.total := by
  have hadd := addVote_fst m.voter ctx prop.height sign
  unfold onRecvVote
  cases m.voter.validateVote prop sign with
  | false => exact ⟨rfl, rfl, rfl⟩
  | true =>
    rw [if_neg (by simp)]
    rcases hr : m.voter.addVote ctx prop.height sign with ⟨voter, r⟩
    rw [hr] at hadd
    dsimp only at hadd
    have hsig : voter.signature = m.voter.signature := by rw [hadd]
    have hth : voter.threshold = m.voter.threshold := by rw [hadd]
    cases r with
    | error e => exact ⟨hsig, hth, rfl⟩
    | ok u =>
      cases u
      dsimp only
      by_cases hsize : m.threshold < voter.voteSetSize prop.height
      · rw [if_pos hsize]
        obtain ⟨hsig', hth'⟩ := combinePartialSign_fixed voter prop.height
        rcases hc : voter.combinePartialSign prop.height with ⟨voter', out⟩
        rw [hc] at hsig' hth'
        cases out with
        | error e => exact ⟨hsig'.trans hsig, hth'.trans hth, rfl⟩
        | ok s => exact ⟨hsig'.trans hsig, hth'.trans hth, rfl⟩
      · rw [if_neg hsize]
        exact ⟨hsig, hth, rfl⟩

theorem onRecvVote_quorum (m : Machine K) (ctx : Context) (prop : TreeNode K)
    (sign : SignKit K) : (m.onRecvVote ctx prop sign).1.quorum = m.quorum := by
  obtain ⟨-, hth, htotal⟩ := m.onRecvVote_fixed ctx prop sign
  unfold quorum threshold
  rw [hth, htotal]

theorem entryD_votingSetWith (m : Machine K) (ctx : Context) (prop : TreeNode K)
    (sign : SignKit K) (v : ViewNumber) :
    HashMap.entryD (m.votingSetWith ctx prop sign) v ∅ =
      if v = prop.height then m.poolWith ctx prop sign else m.voter.pool v := by
  unfold HashMap.entryD votingSetWith
  rw [HashMap.lookup_insert_eq_ite]
  split <;> rfl

theorem entryD_erase (m : Machine K) (ctx : Context) (prop : TreeNode K) (sign : SignKit K)
    (v : ViewNumber) :
    HashMap.entryD ((m.votingSetWith ctx prop sign).erase prop.height) v ∅ =
      if v = prop.height then ∅ else m.voter.pool v := by
  by_cases hv : v = prop.height
  · rw [if_pos hv, hv]
    unfold HashMap.entryD
    rw [Finmap.lookup_erase]
    rfl
  · have hrest := m.entryD_votingSetWith ctx prop sign v
    rw [if_neg hv] at hrest ⊢
    rw [← hrest]
    unfold HashMap.entryD
    rw [Finmap.lookup_erase_ne hv]

/-- A vote changes the pool of its own height only. -/
theorem onRecvVote_pool_of_ne (m : Machine K) (ctx : Context) {prop : TreeNode K}
    (sign : SignKit K) {v : ViewNumber} (hv : v ≠ prop.height) :
    (m.onRecvVote ctx prop sign).1.voter.pool v = m.voter.pool v := by
  have hpath := m.onRecvVote_path ctx prop sign
  have hwith := m.entryD_votingSetWith ctx prop sign v
  have herase := m.entryD_erase ctx prop sign v
  rw [if_neg hv] at hwith herase
  unfold Voter.pool
  generalize (m.onRecvVote ctx prop sign).1.voter.votingSet = votingSet at hpath ⊢
  generalize (m.onRecvVote ctx prop sign).2 = out at hpath
  cases hpath with
  | invalid => rfl
  | duplicate | pooled | short => exact hwith
  | failed | formed => exact herase

/-- A certificate takes more votes than `quorum` and leaves the pool empty. Any other vote
adds its sender at most. -/
theorem onRecvVote_pool_cases (m : Machine K) (ctx : Context) (prop : TreeNode K)
    (sign : SignKit K) :
    (reachesConsensus (m.onRecvVote ctx prop sign).2 = true ∧
      m.voter.validateVote prop sign = true ∧
      m.quorum < (insert ctx.sender (m.voter.pool prop.height).keys).card ∧
      (m.onRecvVote ctx prop sign).1.voter.pool prop.height = ∅) ∨
    (reachesConsensus (m.onRecvVote ctx prop sign).2 = false ∧
      ((m.onRecvVote ctx prop sign).1.voter.pool prop.height).keys ⊆
        if m.voter.validateVote prop sign then insert ctx.sender (m.voter.pool prop.height).keys
        else (m.voter.pool prop.height).keys) := by
  have hpath := m.onRecvVote_path ctx prop sign
  have hwith := m.entryD_votingSetWith ctx prop sign prop.height
  have herase := m.entryD_erase ctx prop sign prop.height
  have hcard := m.card_poolWith ctx prop sign
  have hkeys : (m.poolWith ctx prop sign).keys =
      insert ctx.sender (m.voter.pool prop.height).keys := HashMap.keys_insert _ _ _
  rw [if_pos rfl] at hwith herase
  unfold Voter.pool at hkeys hcard ⊢
  generalize (m.onRecvVote ctx prop sign).1.voter.votingSet = votingSet at hpath ⊢
  generalize (m.onRecvVote ctx prop sign).2 = out at hpath ⊢
  cases hpath with
  | invalid hval =>
    rw [hval]
    exact Or.inr ⟨rfl, subset_rfl⟩
  | duplicate hval | pooled hval | short _ hval =>
    rw [hval, hwith, hkeys]
    exact Or.inr ⟨rfl, subset_rfl⟩
  | failed _ hval =>
    rw [herase]
    exact Or.inr ⟨rfl, Finset.empty_subset _⟩
  | formed v hval _ hm hv =>
    rw [hcard] at hm hv
    exact Or.inl ⟨rfl, hval, max_lt hm hv, herase⟩

theorem votersFor_cons_of_valid {signature : DefaultSignaturer K} {ctx : Context}
    {prop : TreeNode K} {sign : SignKit K} (hval : signature.validateVote prop sign = true)
    (votes : List (Vote K)) :
    votersFor signature prop.height ((ctx, prop, sign) :: votes) =
      insert ctx.sender (votersFor signature prop.height votes) := by
  rw [votersFor_cons]
  exact if_pos ⟨rfl, hval⟩

theorem votersFor_subset_cons (signature : DefaultSignaturer K) (v : ViewNumber) (w : Vote K)
    (votes : List (Vote K)) : votersFor signature v votes ⊆ votersFor signature v (w :: votes) := by
  rw [votersFor_cons]
  split
  · exact Finset.subset_insert _ _
  · exact subset_rfl

/-- The step of the run: who is in the pool of the height `v`, or still votes for it. -/
theorem certifies_or_pools (m : Machine K) (ctx : Context) (prop : TreeNode K) (sign : SignKit K)
    (v : ViewNumber) :
    ((prop.height = v ∧ reachesConsensus (m.onRecvVote ctx prop sign).2 = true) ∧
      m.quorum < ((m.voter.pool v).keys ∪
        votersFor m.voter.signature v [(ctx, prop, sign)]).card ∧
      (m.onRecvVote ctx prop sign).1.voter.pool v = ∅) ∨
    (¬(prop.height = v ∧ reachesConsensus (m.onRecvVote ctx prop sign).2 = true) ∧
      ∀ votes, ((m.onRecvVote ctx prop sign).1.voter.pool v).keys ∪
          votersFor m.voter.signature v votes ⊆
        (m.voter.pool v).keys ∪ votersFor m.voter.signature v ((ctx, prop, sign) :: votes)) := by
  by_cases hv : prop.height = v
  · subst hv
    rcases m.onRecvVote_pool_cases ctx prop sign with ⟨hout, hval, hcard, hempty⟩ | ⟨hout, hkeys⟩
    · refine Or.inl ⟨⟨rfl, hout⟩, ?_, hempty⟩
      rw [votersFor_cons_of_valid hval, Finset.union_insert]
      exact lt_of_lt_of_le hcard (Finset.card_le_card (Finset.insert_subset_insert _
        Finset.subset_union_left))
    · refine Or.inr ⟨by simp [hout], fun votes => ?_⟩
      have hrest := votersFor_subset_cons m.voter.signature prop.height (ctx, prop, sign) votes
      cases hval : m.voter.validateVote prop sign with
      | false =>
        rw [hval] at hkeys
        exact Finset.union_subset_union hkeys hrest
      | true =>
        rw [hval, if_pos rfl] at hkeys
        rw [votersFor_cons_of_valid hval, Finset.union_insert, ← Finset.insert_union]
        exact Finset.union_subset_union_left hkeys
  · refine Or.inr ⟨fun h => hv h.1, fun votes => ?_⟩
    rw [m.onRecvVote_pool_of_ne ctx sign (Ne.symm hv)]
    exact Finset.union_subset_union_right (votersFor_subset_cons _ _ _ _)

/-- A certificate needs a quorum of the pool and the votes. -/
theorem quorum_lt_of_certificates {m : Machine K} {v : ViewNumber} {votes : List (Vote K)}
    (h : 0 < m.certificates v votes) :
    m.quorum < ((m.voter.pool v).keys ∪ votersFor m.voter.signature v votes).card := by
  induction votes generalizing m with
  | nil => cases h
  | cons w rest ih =>
    obtain ⟨ctx, prop, sign⟩ := w
    rw [certificates] at h
    rcases m.certifies_or_pools ctx prop sign v with ⟨-, hcard, -⟩ | ⟨hnot, hkept⟩
    · refine lt_of_lt_of_le hcard (Finset.card_le_card (Finset.union_subset_union_right ?_))
      rw [votersFor_cons, votersFor_cons]
      split
      · exact Finset.insert_subset_insert _ (Finset.empty_subset _)
      · exact Finset.empty_subset _
    · rw [if_neg hnot, Nat.zero_add] at h
      have hcard := ih h
      rw [onRecvVote_quorum, (m.onRecvVote_fixed ctx prop sign).1] at hcard
      exact lt_of_lt_of_le hcard (Finset.card_le_card (hkept rest))

/-- Two certificates need two quorums, one after the other. -/
theorem quorums_of_certificates {m : Machine K} {v : ViewNumber} {votes : List (Vote K)}
    (h : 1 < m.certificates v votes) :
    ∃ k ≤ votes.length,
      m.quorum < ((m.voter.pool v).keys ∪
        votersFor m.voter.signature v (votes.take k)).card ∧
      m.quorum < (votersFor m.voter.signature v (votes.drop k)).card := by
  induction votes generalizing m with
  | nil => cases h
  | cons w rest ih =>
    obtain ⟨ctx, prop, sign⟩ := w
    rw [certificates] at h
    have hquorum := m.onRecvVote_quorum ctx prop sign
    have hsig := (m.onRecvVote_fixed ctx prop sign).1
    rcases m.certifies_or_pools ctx prop sign v with ⟨hyes, hcard, hempty⟩ | ⟨hnot, hkept⟩
    · -- the pool starts again with the votes after this one
      rw [if_pos hyes] at h
      have hlate := quorum_lt_of_certificates (Nat.lt_of_add_lt_add_left h)
      rw [hempty, hquorum, hsig, Finmap.keys_empty, Finset.empty_union] at hlate
      exact ⟨1, Nat.le_add_left 1 _, hcard, hlate⟩
    · rw [if_neg hnot, Nat.zero_add] at h
      obtain ⟨k, hk, hearly, hlate⟩ := ih h
      rw [hquorum, hsig] at hearly hlate
      refine ⟨k + 1, Nat.succ_le_succ hk, ?_, hlate⟩
      exact lt_of_lt_of_le hearly (Finset.card_le_card (hkept (rest.take k)))

/-- However the votes for a height come, `combine_partial_sign` succeeds for it at most once
between resets, if they do not hold two quorums one after the other. -/
theorem certificates_le_one (m : Machine K) (v : ViewNumber) (votes : List (Vote K))
    (h : m.OneQuorum v votes) : m.certificates v votes ≤ 1 := by
  by_contra hmany
  obtain ⟨k, hk, hearly, hlate⟩ := quorums_of_certificates (not_le.mp hmany)
  rcases h k hk with hle | hle
  · exact absurd hearly (not_lt.mpr hle)
  · exact absurd hlate (not_lt.mpr hle)

/-! The condition is exact for a threshold scheme that asks for no more shares than the
replica, when a vote names its sender by its sign id. -/

/-- The pool of the height `v` waits for a quorum, and its votes combine once there is one. -/
structure Fills (senderOf : SignID → ReplicaID) (v : ViewNumber) (m : Machine K) : Prop where
  small : (m.voter.pool v).keys.card ≤ m.quorum
  own : ∀ sender kit, (m.voter.pool v).lookup sender = some kit → senderOf kit.signId = sender
  scheme : K.threshold m.voter.signature.pks ≤ m.quorum

/-- Votes that name their senders have distinct sign ids. -/
theorem nodup_signIds {pool : Finmap fun _ : ReplicaID => SignKit K}
    {senderOf : SignID → ReplicaID}
    (h : ∀ sender kit, pool.lookup sender = some kit → senderOf kit.signId = sender) :
    ((HashMap.values pool).map SignKit.signId).Nodup := by
  apply Multiset.Nodup.of_map senderOf
  have hkeys : (((HashMap.values pool).map SignKit.signId).map senderOf) = pool.entries.keys := by
    unfold HashMap.values
    rw [Multiset.map_map, Multiset.map_map]
    apply Multiset.map_congr rfl
    rintro ⟨sender, kit⟩ hmem
    exact h sender kit (Finmap.lookup_eq_some_iff.mpr hmem)
  rw [hkeys]
  exact Multiset.nodup_keys.mpr pool.nodupKeys

theorem Fills.own_poolWith {senderOf : SignID → ReplicaID} {m : Machine K} {ctx : Context}
    {prop : TreeNode K} {sign : SignKit K} (h : m.Fills senderOf prop.height)
    (hid : senderOf sign.signId = ctx.sender) (sender : ReplicaID) (kit : SignKit K)
    (hkit : (m.poolWith ctx prop sign).lookup sender = some kit) :
    senderOf kit.signId = sender := by
  rcases HashMap.lookup_insert_cases hkit with ⟨rfl, rfl⟩ | hold
  · exact hid
  · exact h.own sender kit hold

/-- A pool that waits keeps what it has, takes the vote in, or becomes a certificate. -/
theorem Fills.pool_cases (laws : CombineLaws K) {senderOf : SignID → ReplicaID} {m : Machine K}
    {ctx : Context} {prop : TreeNode K} {sign : SignKit K} (h : m.Fills senderOf prop.height)
    (hid : senderOf sign.signId = ctx.sender) :
    (m.voter.validateVote prop sign = false ∧
      (m.onRecvVote ctx prop sign).1.voter.pool prop.height = m.voter.pool prop.height) ∨
    (m.voter.validateVote prop sign = true ∧
      (m.onRecvVote ctx prop sign).1.voter.pool prop.height = m.poolWith ctx prop sign ∧
      HashMap.size (m.poolWith ctx prop sign) ≤ m.quorum) ∨
    (reachesConsensus (m.onRecvVote ctx prop sign).2 = true ∧
      (m.onRecvVote ctx prop sign).1.voter.pool prop.height = ∅) := by
  have hpath := m.onRecvVote_path ctx prop sign
  have hwith := m.entryD_votingSetWith ctx prop sign prop.height
  have herase := m.entryD_erase ctx prop sign prop.height
  rw [if_pos rfl] at hwith herase
  have hpool : (m.onRecvVote ctx prop sign).1.voter.pool prop.height =
      HashMap.entryD (m.onRecvVote ctx prop sign).1.voter.votingSet prop.height ∅ := rfl
  rw [hpool]
  generalize (m.onRecvVote ctx prop sign).1.voter.votingSet = votingSet at hpath ⊢
  generalize (m.onRecvVote ctx prop sign).2 = out at hpath ⊢
  cases hpath with
  | invalid hval => exact Or.inl ⟨hval, rfl⟩
  | @duplicate old hval hold =>
    refine Or.inr (Or.inl ⟨hval, hwith, ?_⟩)
    have hmem : ctx.sender ∈ (m.voter.pool prop.height).keys :=
      Finmap.mem_keys.mpr (Finmap.mem_of_lookup_eq_some hold)
    rw [card_poolWith, Finset.insert_eq_self.mpr hmem]
    exact h.small
  | pooled hval _ hsize =>
    exact Or.inr (Or.inl ⟨hval, hwith, le_max_of_le_left hsize⟩)
  | short _ hval _ _ hv => exact Or.inr (Or.inl ⟨hval, hwith, le_max_of_le_right hv⟩)
  | failed _ _ _ hm hv hcomb =>
    -- there are enough votes, of distinct sign ids
    have hsome : (m.combined ctx prop sign).isSome := by
      apply (laws.isSome_iff _ _).mpr
      rw [Multiset.card_map, HashMap.card_values, Multiset.map_map]
      exact ⟨lt_of_le_of_lt h.scheme (max_lt hm hv), nodup_signIds (h.own_poolWith hid)⟩
    rw [hcomb] at hsome
    cases hsome
  | formed v => exact Or.inr (Or.inr ⟨rfl, herase⟩)

/-- A vote leaves the pool waiting, and if it completes no certificate its sender is in. -/
theorem Fills.onRecvVote (laws : CombineLaws K) {senderOf : SignID → ReplicaID} {m : Machine K}
    {v : ViewNumber} (h : m.Fills senderOf v) {ctx : Context} (prop : TreeNode K)
    {sign : SignKit K} (hid : senderOf sign.signId = ctx.sender) :
    (m.onRecvVote ctx prop sign).1.Fills senderOf v ∧
      (¬(prop.height = v ∧ reachesConsensus (m.onRecvVote ctx prop sign).2 = true) →
        ∀ votes, (m.voter.pool v).keys ∪
            votersFor m.voter.signature v ((ctx, prop, sign) :: votes) ⊆
          ((m.onRecvVote ctx prop sign).1.voter.pool v).keys ∪
            votersFor m.voter.signature v votes) := by
  have hquorum := m.onRecvVote_quorum ctx prop sign
  have hsig := (m.onRecvVote_fixed ctx prop sign).1
  have hscheme := h.scheme
  rw [← hquorum, ← hsig] at hscheme
  by_cases hv : v = prop.height
  · subst hv
    rcases h.pool_cases laws hid with ⟨hval, hpool⟩ | ⟨hval, hpool, hsize⟩ | ⟨hout, hpool⟩
    · refine ⟨⟨?_, ?_, hscheme⟩, fun _ votes => ?_⟩
      · rw [hpool, hquorum]
        exact h.small
      · rw [hpool]
        exact h.own
      · have hinv : ¬ m.voter.signature.validateVote prop sign = true := Bool.eq_false_iff.mp hval
        rw [hpool, votersFor_cons, if_neg (fun hw => hinv hw.2)]
    · refine ⟨⟨?_, ?_, hscheme⟩, fun _ votes => ?_⟩
      · rw [hpool, hquorum, HashMap.card_keys]
        exact hsize
      · rw [hpool]
        exact h.own_poolWith hid
      · have hkeys : (m.poolWith ctx prop sign).keys =
            insert ctx.sender (m.voter.pool prop.height).keys := HashMap.keys_insert _ _ _
        rw [hpool, hkeys, votersFor_cons_of_valid hval, Finset.union_insert, Finset.insert_union]
    · refine ⟨⟨?_, ?_, hscheme⟩, fun hnot => absurd ⟨rfl, hout⟩ hnot⟩
      · rw [hpool, Finmap.keys_empty]
        exact Nat.zero_le _
      · intro sender kit hkit
        rw [hpool, Finmap.lookup_empty] at hkit
        cases hkit
  · have hpool := m.onRecvVote_pool_of_ne ctx sign hv
    refine ⟨⟨?_, ?_, hscheme⟩, fun _ votes => ?_⟩
    · rw [hpool, hquorum]
      exact h.small
    · rw [hpool]
      exact h.own
    · rw [hpool, votersFor_cons, if_neg (fun hw => hv hw.1.symm)]

/-- A quorum of the pool and the votes makes a certificate. -/
theorem Fills.certificates_pos (laws : CombineLaws K) {senderOf : SignID → ReplicaID}
    {m : Machine K} {v : ViewNumber} (h : m.Fills senderOf v) {votes : List (Vote K)}
    (hids : ∀ w ∈ votes, senderOf w.2.2.signId = w.1.sender)
    (hcard : m.quorum < ((m.voter.pool v).keys ∪ votersFor m.voter.signature v votes).card) :
    0 < m.certificates v votes := by
  induction votes generalizing m with
  | nil =>
    have hnone : votersFor m.voter.signature v [] = ∅ := rfl
    rw [hnone, Finset.union_empty] at hcard
    exact absurd h.small (not_le.mpr hcard)
  | cons w rest ih =>
    obtain ⟨ctx, prop, sign⟩ := w
    obtain ⟨hfills, hkept⟩ := h.onRecvVote laws prop (hids _ List.mem_cons_self)
    rw [certificates]
    by_cases hyes : prop.height = v ∧ reachesConsensus (m.onRecvVote ctx prop sign).2 = true
    · rw [if_pos hyes]
      omega
    · rw [if_neg hyes, Nat.zero_add]
      apply ih hfills (fun w hw => hids w (List.mem_cons_of_mem _ hw))
      rw [onRecvVote_quorum, (m.onRecvVote_fixed ctx prop sign).1]
      exact lt_of_lt_of_le hcard (Finset.card_le_card (hkept hyes rest))

theorem certificates_append (m : Machine K) (v : ViewNumber) (early late : List (Vote K)) :
    m.certificates v (early ++ late) =
      m.certificates v early + (m.afterVotes early).certificates v late := by
  induction early generalizing m with
  | nil => rw [List.nil_append, certificates, Nat.zero_add, afterVotes]
  | cons w rest ih =>
    obtain ⟨ctx, prop, sign⟩ := w
    rw [List.cons_append, certificates, certificates, afterVotes, ih, Nat.add_assoc]

theorem Fills.afterVotes (laws : CombineLaws K) {senderOf : SignID → ReplicaID} {m : Machine K}
    {v : ViewNumber} (h : m.Fills senderOf v) {votes : List (Vote K)}
    (hids : ∀ w ∈ votes, senderOf w.2.2.signId = w.1.sender) :
    (m.afterVotes votes).Fills senderOf v ∧ (m.afterVotes votes).quorum = m.quorum ∧
      (m.afterVotes votes).voter.signature = m.voter.signature := by
  induction votes generalizing m with
  | nil => exact ⟨h, rfl, rfl⟩
  | cons w rest ih =>
    obtain ⟨ctx, prop, sign⟩ := w
    obtain ⟨hfills, -⟩ := h.onRecvVote laws prop (hids _ List.mem_cons_self)
    obtain ⟨hrest, hquorum, hsig⟩ := ih hfills (fun w hw => hids w (List.mem_cons_of_mem _ hw))
    rw [m.onRecvVote_quorum] at hquorum
    rw [(m.onRecvVote_fixed ctx prop sign).1] at hsig
    exact ⟨hrest, hquorum, hsig⟩

/-- With two quorums one after the other there are two certificates. -/
theorem Fills.oneQuorum_of_certificates (laws : CombineLaws K) {senderOf : SignID → ReplicaID}
    {m : Machine K} {v : ViewNumber} (h : m.Fills senderOf v) {votes : List (Vote K)}
    (hids : ∀ w ∈ votes, senderOf w.2.2.signId = w.1.sender)
    (hle : m.certificates v votes ≤ 1) : m.OneQuorum v votes := by
  intro k hk
  by_contra hmany
  obtain ⟨hearly, hlate⟩ := not_or.mp hmany
  have hidsEarly : ∀ w ∈ votes.take k, senderOf w.2.2.signId = w.1.sender :=
    fun w hw => hids w (List.mem_of_mem_take hw)
  obtain ⟨hfills, hquorum, hsig⟩ := h.afterVotes laws hidsEarly
  have hfirst := h.certificates_pos laws hidsEarly (not_le.mp hearly)
  have hsecond := hfills.certificates_pos laws
    (fun w hw => hids w (List.mem_of_mem_drop hw)) (by
      rw [hquorum, hsig]
      exact lt_of_lt_of_le (not_le.mp hlate) (Finset.card_le_card Finset.subset_union_right))
  rw [← List.take_append_drop k votes, certificates_append] at hle
  omega

end Machine

namespace Symbolic

open Machine

instance : DecidableEq (SignKit symbolic) := fun a b =>
  decidable_of_iff (a.sign = b.sign ∧ a.signId = b.signId) (by cases a; cases b; simp)

/-- A replica that has the vote of replica 1 for `a2`. -/
def voted : Machine symbolic := (fresh 4 0).run [vote 1 a2]

/-- The same vote comes again, and is discarded. -/
theorem repeated_vote_unchanged :
    voted.RejectsVote (ctxOf 1) a2 (voteBy 1 a2) ∧
      voted.UnchangedByVote (ctxOf 1) a2 (voteBy 1 a2) := by
  have hrejects : voted.RejectsVote (ctxOf 1) a2 (voteBy 1 a2) :=
    Or.inr ⟨by decide +kernel, .duplicateVote (replicaId 1), by decide +kernel⟩
  have hheld : (voted.voter.pool a2.height).lookup (ctxOf 1).sender = some (voteBy 1 a2) := by
    decide +kernel
  exact ⟨hrejects, (rejected_vote_unchanged_iff voted (ctxOf 1) a2 (voteBy 1 a2) hrejects).mpr
    (Or.inr (Or.inl hheld))⟩

/-- Replica 1 then votes for `a2'`, of the same height. The vote is discarded as a duplicate
and has replaced the first one. -/
theorem second_vote_replaces :
    voted.RejectsVote (ctxOf 1) a2' (voteBy 1 a2') ∧
      ¬ voted.UnchangedByVote (ctxOf 1) a2' (voteBy 1 a2') := by
  refine ⟨Or.inr ⟨by decide +kernel, .duplicateVote (replicaId 1), by decide +kernel⟩, ?_⟩
  intro hunchanged
  have hchanged : (voted.onRecvVote (ctxOf 1) a2' (voteBy 1 a2')).1.voter.votingSet ≠
      voted.voter.votingSet := by decide +kernel
  exact hchanged hunchanged.1

/-- The votes of the given replicas for `a2`, in the order they arrive. -/
def votesOf (ids : List ℕ) : List (Vote symbolic) := ids.map fun i => (ctxOf i, a2, voteBy i a2)

/-- Three votes make a certificate. The fourth one, and the first one again, are late. -/
theorem late_votes_one_certificate :
    (fresh 4 0).OneQuorum 2 (votesOf [1, 2, 3, 0, 1]) ∧
      (fresh 4 0).certificates 2 (votesOf [1, 2, 3, 0, 1]) ≤ 1 := by
  have hone : (fresh 4 0).OneQuorum 2 (votesOf [1, 2, 3, 0, 1]) := by
    unfold OneQuorum
    decide +kernel
  exact ⟨hone, certificates_le_one _ 2 _ hone⟩

/-- The same three votes delivered twice make two certificates. -/
theorem redelivered_votes_two_certificates :
    ¬ (fresh 4 0).certificates 2 (votesOf [1, 2, 3, 1, 2, 3]) ≤ 1 := by
  have htwo : (fresh 4 0).certificates 2 (votesOf [1, 2, 3, 1, 2, 3]) = 2 := by decide +kernel
  rw [htwo]
  decide

end Symbolic

end HotstuffConsensus
