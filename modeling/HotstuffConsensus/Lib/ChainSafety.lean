import Mathlib.Data.Set.Card
import Mathlib.Logic.Relation

/-!
# Safety of three-chain commits

Replicas vote for blocks of a tree. A vote names a block and the block that justifies it;
a block is certified when a quorum voted for it with one and the same justify. What is
asked of a vote is `VoteOk`: it is above all earlier votes of its voter, its justify is
certified and below it on its own branch, and it respects a lock at least as high as the
justify of the justify of every earlier vote.

Under these rules a block that heads a certified three-chain of consecutive heights is an
ancestor of every certified block above it (`anc_of_threeChain`), so any two such blocks
lie on one branch (`comparable`).

The votes are kept in one list, newest first. Everything goes by induction on it: a
certified block has a correct voter, and the rules were checked against the votes cast
before that one.
-/

namespace Lib.ChainSafety

open Relation

/-- Two sets of more than `⌊2n/3⌋` of `n` replicas share more than `⌊(n-1)/3⌋`. -/
theorem lt_card_inter {ι : Type*} [DecidableEq ι] {n : ℕ} {replicas : Finset ι}
    (hn : replicas.card = n) {A B : Finset ι} (hAn : A ⊆ replicas) (hBn : B ⊆ replicas)
    (hA : 2 * n / 3 < A.card) (hB : 2 * n / 3 < B.card) : (n - 1) / 3 < (A ∩ B).card := by
  have hcount := Finset.card_union_add_card_inter A B
  have hall := Finset.card_le_card (Finset.union_subset hAn hBn)
  omega

/-- So they share one that is not among `⌊(n-1)/3⌋` faulty ones. -/
theorem exists_correct_inter {ι : Type*} [DecidableEq ι] {n : ℕ} {replicas faulty : Finset ι}
    (hn : replicas.card = n) (hf : faulty.card ≤ (n - 1) / 3) {A B : Finset ι}
    (hAn : A ⊆ replicas) (hBn : B ⊆ replicas) (hA : 2 * n / 3 < A.card)
    (hB : 2 * n / 3 < B.card) : ∃ i, i ∈ A ∧ i ∈ B ∧ i ∉ faulty := by
  have hlt : faulty.card < (A ∩ B).card := lt_of_le_of_lt hf (lt_card_inter hn hAn hBn hA hB)
  obtain ⟨i, hi, hni⟩ := Finset.exists_mem_notMem_of_card_lt_card hlt
  rw [Finset.mem_inter] at hi
  exact ⟨i, hi.1, hi.2, hni⟩

/-- A tree of blocks, and a set of replicas any two quorums of which share a correct one. -/
structure Protocol (ι η : Type*) where
  height : η → ℕ
  parent : η → η → Prop
  genesis : η
  faulty : Set ι
  quorum : Set ι → Prop
  parent_unique : ∀ {x y z}, parent x y → parent x z → y = z
  height_genesis : height genesis = 0
  parent_genesis : ∀ x, ¬ parent genesis x
  quorum_inter : ∀ {A B}, quorum A → quorum B → ∃ i, i ∈ A ∧ i ∈ B ∧ i ∉ faulty
  quorum_mono : ∀ {A B}, quorum A → A ⊆ B → quorum B

structure Vote (ι η : Type*) where
  voter : ι
  block : η
  justify : η

variable {ι η : Type*} (P : Protocol ι η)

namespace Protocol

/-- `y` is reached from `x` by following parents. -/
def Anc (x y : η) : Prop := ReflTransGen P.parent x y

/-- A parent that is lower than the child. -/
def Below (x y : η) : Prop := P.parent x y ∧ P.height y < P.height x

/-- A quorum voted for `x` with justify `j`; a faulty replica may vote for anything. -/
def Cert (l : List (Vote ι η)) (x j : η) : Prop :=
  P.quorum {i | i ∈ P.faulty ∨ ⟨i, x, j⟩ ∈ l}

def Certified (l : List (Vote ι η)) (x : η) : Prop := x = P.genesis ∨ ∃ j, P.Cert l x j

/-- The rules for a vote cast after the votes of `l`. -/
structure VoteOk (l : List (Vote ι η)) (v : Vote ι η) : Prop where
  correct : v.voter ∉ P.faulty
  above : ∀ y k, ⟨v.voter, y, k⟩ ∈ l → P.height y < P.height v.block
  certified : P.Certified l v.justify
  extend : TransGen P.Below v.block v.justify
  safe : ∀ y k k', ⟨v.voter, y, k⟩ ∈ l → k ≠ P.genesis → P.Cert l k k' →
    ∃ lock, P.Certified l lock ∧ P.height k' ≤ P.height lock ∧
      (P.Anc v.block lock ∨ P.Anc lock v.block ∨ P.height lock < P.height v.justify)

/-- Every vote obeyed the rules when it was cast. -/
def Valid : List (Vote ι η) → Prop
  | [] => True
  | v :: l => P.VoteOk l v ∧ Valid l

/-- `b` heads a certified three-chain of consecutive heights. -/
structure ThreeChain (l : List (Vote ι η)) (b b' b'' : η) : Prop where
  cert' : P.Cert l b' b
  cert'' : P.Cert l b'' b'
  parent' : P.parent b' b
  parent'' : P.parent b'' b'
  height' : P.height b' = P.height b + 1
  height'' : P.height b'' = P.height b' + 1

variable {P} {l l' L : List (Vote ι η)} {x y j k b b' b'' : η} {i : ι}

/-! ## Certificates -/

theorem Cert.mono (h : P.Cert l x j) (hl : l ⊆ l') : P.Cert l' x j := by
  refine P.quorum_mono h ?_
  intro i hi
  rcases hi with hi | hi
  · exact Or.inl hi
  · exact Or.inr (hl hi)

theorem Certified.mono (h : P.Certified l x) (hl : l ⊆ l') : P.Certified l' x := by
  rcases h with h | ⟨j, h⟩
  · exact Or.inl h
  · exact Or.inr ⟨j, h.mono hl⟩

/-- Two certificates share a correct voter. -/
theorem Cert.inter (hx : P.Cert l x j) (hy : P.Cert l' y k) :
    ∃ i, i ∉ P.faulty ∧ ⟨i, x, j⟩ ∈ l ∧ ⟨i, y, k⟩ ∈ l' := by
  obtain ⟨i, hi, hi', hni⟩ := P.quorum_inter hx hy
  exact ⟨i, hni, hi.resolve_left hni, hi'.resolve_left hni⟩

/-- A vote that was cast obeyed the rules. -/
theorem Valid.split (hv : P.Valid L) {v : Vote ι η} (h : v ∈ L) :
    ∃ l₁ l₂, L = l₁ ++ v :: l₂ ∧ P.VoteOk l₂ v ∧ P.Valid l₂ := by
  induction L with
  | nil => cases h
  | cons u L ih =>
    obtain ⟨hu, hL⟩ := hv
    rcases List.mem_cons.mp h with rfl | h
    · exact ⟨[], L, rfl, hu, hL⟩
    · obtain ⟨l₁, l₂, rfl, hok, hv₂⟩ := ih hL h
      exact ⟨u :: l₁, l₂, rfl, hok, hv₂⟩

theorem Valid.of_append {l₁ : List (Vote ι η)} (hv : P.Valid (l₁ ++ l)) : P.Valid l := by
  induction l₁ with
  | nil => exact hv
  | cons u l₁ ih => exact ih hv.2

/-- A replica votes once at each height. -/
theorem Valid.unique (hv : P.Valid L) (hx : ⟨i, x, j⟩ ∈ L) (hy : ⟨i, y, k⟩ ∈ L)
    (hh : P.height x = P.height y) : x = y ∧ j = k := by
  induction L with
  | nil => cases hx
  | cons u L ih =>
    obtain ⟨hu, hL⟩ := hv
    rcases List.mem_cons.mp hx with hxu | hxl
    · rcases List.mem_cons.mp hy with hyu | hyl
      · rw [← hxu] at hyu
        injection hyu with _ h₁ h₂
        exact ⟨h₁.symm, h₂.symm⟩
      · subst hxu
        have hlt : P.height y < P.height x := hu.above y k hyl
        omega
    · rcases List.mem_cons.mp hy with hyu | hyl
      · subst hyu
        have hlt : P.height x < P.height y := hu.above x j hxl
        omega
      · exact ih hL hxl hyl

/-- There is one certified block at each height, with one justify. -/
theorem Cert.unique (hv : P.Valid L) (hx : P.Cert L x j) (hy : P.Cert L y k)
    (hh : P.height x = P.height y) : x = y ∧ j = k := by
  obtain ⟨i, -, hxi, hyi⟩ := hx.inter hy
  exact hv.unique hxi hyi hh

/-- The lower of two votes of a replica was cast first. -/
theorem Valid.earlier {l₁ : List (Vote ι η)} (hv : P.Valid (l₁ ++ ⟨i, x, j⟩ :: l))
    (hy : ⟨i, y, k⟩ ∈ l₁ ++ ⟨i, x, j⟩ :: l) (hlt : P.height y < P.height x) :
    ⟨i, y, k⟩ ∈ l := by
  induction l₁ with
  | nil =>
    rcases List.mem_cons.mp hy with hy | hy
    · injection hy with _ h₁ _
      rw [h₁] at hlt
      exact absurd hlt (lt_irrefl _)
    · exact hy
  | cons u l₁ ih =>
    obtain ⟨hu, hrest⟩ := hv
    rcases List.mem_cons.mp hy with hy | hy
    · -- cast after the vote for `x`, it would have to be higher
      subst hy
      have hgt := hu.above x j (List.mem_append_right _ List.mem_cons_self)
      exact absurd hlt (not_lt_of_gt hgt)
    · exact ih hrest hy

/-! ## Branches -/

theorem anc_of_below (h : TransGen P.Below x y) : P.Anc x y := by
  induction h with
  | single h => exact ReflTransGen.single h.1
  | tail _ h ih => exact ReflTransGen.tail ih h.1

theorem height_lt_of_below (h : TransGen P.Below x y) : P.height y < P.height x := by
  induction h with
  | single h => exact h.2
  | tail _ h ih => exact h.2.trans ih

/-- The ancestors of a block lie on one branch. -/
theorem Anc.total (hx : P.Anc b x) (hy : P.Anc b y) : P.Anc x y ∨ P.Anc y x :=
  ReflTransGen.total_of_right_unique (fun _ _ _ h h' => P.parent_unique h h') hx hy

theorem Anc.eq_of_genesis (h : P.Anc P.genesis x) : x = P.genesis := by
  rcases ReflTransGen.cases_head h with h | ⟨c, hc, -⟩
  · exact h.symm
  · exact absurd hc (P.parent_genesis c)

/-- A path of lower and lower parents meets every ancestor, unless that is further down. -/
theorem anc_below_cases (h : TransGen P.Below b j) (hx : P.Anc b x) :
    x = b ∨ P.height x < P.height b ∧ P.Anc x j ∨ P.Anc j x := by
  induction h using TransGen.head_induction_on with
  | single h =>
    rcases ReflTransGen.cases_head hx with hx | ⟨c, hc, hx⟩
    · exact Or.inl hx.symm
    · rw [P.parent_unique hc h.1] at hx
      exact Or.inr (Or.inr hx)
  | head h hrest ih =>
    rcases ReflTransGen.cases_head hx with hx | ⟨c, hc, hx⟩
    · exact Or.inl hx.symm
    · rw [P.parent_unique hc h.1] at hx
      rcases ih hx with rfl | ⟨hlt, hanc⟩ | hanc
      · exact Or.inr (Or.inl ⟨h.2, anc_of_below hrest⟩)
      · exact Or.inr (Or.inl ⟨hlt.trans h.2, hanc⟩)
      · exact Or.inr (Or.inr hanc)

/-- A certified block had a correct voter, who checked the rules. -/
theorem Cert.voteOk (hv : P.Valid L) (h : P.Cert L x j) :
    ∃ i l₁ l₂, L = l₁ ++ ⟨i, x, j⟩ :: l₂ ∧ P.VoteOk l₂ ⟨i, x, j⟩ ∧ P.Valid l₂ := by
  obtain ⟨i, -, hi, -⟩ := h.inter h
  obtain ⟨l₁, l₂, hL, hok, hv₂⟩ := hv.split hi
  exact ⟨i, l₁, l₂, hL, hok, hv₂⟩

theorem subset_append_cons (l₁ : List (Vote ι η)) (v : Vote ι η) (l₂ : List (Vote ι η)) :
    l₂ ⊆ l₁ ++ v :: l₂ :=
  fun _ hu => List.mem_append_right _ (List.mem_cons_of_mem _ hu)

theorem Certified.eq_genesis (hv : P.Valid L) (h : P.Certified L x) (h0 : P.height x = 0) :
    x = P.genesis := by
  rcases h with h | ⟨j, h⟩
  · exact h
  · obtain ⟨i, _, _, -, hok, -⟩ := h.voteOk hv
    have hlt : P.height j < P.height x := height_lt_of_below hok.extend
    omega

/-- Certified blocks descend from the genesis block, and what lies below them is lower. -/
theorem Certified.descends (hv : P.Valid L) (h : P.Certified L x) :
    P.Anc x P.genesis ∧ ∀ y, P.Anc x y → y = x ∨ P.height y < P.height x := by
  induction hn : P.height x using Nat.strong_induction_on generalizing x with
  | _ n ih =>
    rcases h with rfl | ⟨j, h⟩
    · exact ⟨ReflTransGen.refl, fun y hy => Or.inl hy.eq_of_genesis⟩
    · obtain ⟨i, l₁, l₂, rfl, hok, hv₂⟩ := h.voteOk hv
      have hlt : P.height j < P.height x := height_lt_of_below hok.extend
      have hj : P.Certified (l₁ ++ ⟨i, x, j⟩ :: l₂) j :=
        hok.certified.mono (subset_append_cons _ _ _)
      obtain ⟨hgen, hlow⟩ := ih (P.height j) (by omega) hj rfl
      refine ⟨ReflTransGen.trans (anc_of_below hok.extend) hgen, ?_⟩
      intro y hy
      rcases anc_below_cases hok.extend hy with rfl | ⟨hly, -⟩ | hjy
      · exact Or.inl rfl
      · exact Or.inr (by rw [← hn]; exact hly)
      · rcases hlow y hjy with rfl | hly
        · exact Or.inr (by rw [← hn]; exact hlt)
        · exact Or.inr (by rw [← hn]; exact hly.trans hlt)

/-! ## Safety -/

theorem ThreeChain.anc' (h : P.ThreeChain L b b' b'') : P.Anc b' b := ReflTransGen.single h.parent'

theorem ThreeChain.anc'' (h : P.ThreeChain L b b' b'') : P.Anc b'' b :=
  ReflTransGen.tail (ReflTransGen.single h.parent'') h.parent'

theorem ThreeChain.certified (hv : P.Valid L) (h : P.ThreeChain L b b' b'') :
    P.Certified L b := by
  obtain ⟨i, l₁, l₂, rfl, hok, -⟩ := h.cert'.voteOk hv
  exact hok.certified.mono (subset_append_cons _ _ _)

/-- When a replica has voted for the top of the three-chain, its middle was certified with
the head as its justify. -/
theorem ThreeChain.cert_of_vote (hv : P.Valid L) (h : P.ThreeChain L b b' b'') (hl : l ⊆ L)
    (hvl : P.Valid l) (hi : ⟨i, b'', b'⟩ ∈ l) : b' ≠ P.genesis ∧ P.Cert l b' b := by
  have hne : b' ≠ P.genesis := by
    intro hg
    have h1 := h.height'
    rw [hg, P.height_genesis] at h1
    omega
  obtain ⟨l₁, l₂, rfl, hok, -⟩ := hvl.split hi
  rcases hok.certified with hg | ⟨k, hk⟩
  · exact absurd hg hne
  · have hkl := hk.mono (subset_append_cons l₁ ⟨i, b'', b'⟩ l₂)
    obtain ⟨-, rfl⟩ := Cert.unique hv (hkl.mono hl) h.cert' rfl
    exact ⟨hne, hkl⟩

/-- The voter that the certificates of the three-chain and of a block above it share was
locked at the head. -/
theorem ThreeChain.anc_of_locked_vote (hv : P.Valid L) (h : P.ThreeChain L b b' b'')
    (hvl : P.Valid l) (hl : l ⊆ L) (hok : P.VoteOk l ⟨i, x, j⟩) (hi : ⟨i, b'', b'⟩ ∈ l)
    (hb : P.height b ≤ P.height x)
    (ih : ∀ y, P.Certified l y → P.height b ≤ P.height y → P.Anc y b) : P.Anc x b := by
  obtain ⟨hne, hcert⟩ := h.cert_of_vote hv hl hvl hi
  obtain ⟨lock, hlock, hle, hsafe⟩ := hok.safe b'' b' b hi hne hcert
  have hlb : P.Anc lock b := ih lock hlock hle
  rcases hsafe with hsafe | hsafe | hsafe
  · exact ReflTransGen.trans hsafe hlb
  · -- both lie on the branch of the lock, where heights tell which is lower
    rcases Anc.total hsafe hlb with hxb | hbx
    · exact hxb
    · rcases ((h.certified hv).descends hv).2 x hbx with rfl | hlt
      · exact ReflTransGen.refl
      · omega
  · have hj : P.Anc j b := ih j hok.certified (hle.trans hsafe.le)
    exact ReflTransGen.trans (anc_of_below hok.extend) hj

/-- Every certified block at or above the head of a three-chain descends from it. -/
theorem ThreeChain.anc_of_certified (hv : P.Valid L) (h : P.ThreeChain L b b' b'')
    (hx : P.Certified L x) (hb : P.height b ≤ P.height x) : P.Anc x b := by
  have hbL := h.certified hv
  -- induction on the votes cast so far; `L` stays the list of all votes
  have key : ∀ l₀ l, L = l₀ ++ l → ∀ x, P.Certified l x → P.height b ≤ P.height x →
      P.Anc x b := by
    intro l₀ l
    induction hn : l.length using Nat.strong_induction_on generalizing l₀ l with
    | _ n ih =>
      intro hL x hx hb
      have hvl : P.Valid l := Valid.of_append (hL ▸ hv)
      have hl : l ⊆ L := hL ▸ List.subset_append_right l₀ l
      rcases hx with rfl | ⟨j, hx⟩
      · rw [P.height_genesis] at hb
        rw [hbL.eq_genesis hv (by omega)]
        exact ReflTransGen.refl
      · have h' := h.height'
        have h'' := h.height''
        have hxL : P.Cert L x j := hx.mono hl
        rcases Nat.lt_trichotomy (P.height x) (P.height b'') with hlt | heq | hgt
        · by_cases hxb' : P.height x = P.height b'
          · obtain ⟨rfl, -⟩ := Cert.unique hv hxL h.cert' hxb'
            exact h.anc'
          · have hxb : P.height x = P.height b := by omega
            rcases hbL with hg | ⟨k, hbk⟩
            · rw [hg]
              exact ((Certified.descends hvl (Or.inr ⟨j, hx⟩)).1)
            · obtain ⟨rfl, -⟩ := Cert.unique hv hxL hbk hxb
              exact ReflTransGen.refl
        · obtain ⟨rfl, -⟩ := Cert.unique hv hxL h.cert'' heq
          exact h.anc''
        · obtain ⟨i, -, hxi, hbi⟩ := hx.inter h.cert''
          obtain ⟨l₁, l₂, rfl, hok, hv₂⟩ := hvl.split hxi
          have hL' : L = (l₀ ++ l₁) ++ ⟨i, x, j⟩ :: l₂ := by rw [hL, List.append_assoc]
          have hbi₂ : ⟨i, b'', b'⟩ ∈ l₂ := Valid.earlier (hL' ▸ hv) (hL' ▸ hbi) hgt
          have hl₂ : l₂ ⊆ L := fun u hu => hl (subset_append_cons l₁ _ l₂ hu)
          refine h.anc_of_locked_vote hv hv₂ hl₂ hok hbi₂ hb ?_
          intro y hy hby
          refine ih l₂.length ?_ (l₀ ++ l₁ ++ [⟨i, x, j⟩]) l₂ rfl ?_ y hy hby
          · rw [← hn, List.length_append, List.length_cons]
            omega
          · rw [hL', List.append_assoc (l₀ ++ l₁)]
            rfl
  exact key [] L rfl x hx hb

/-- A block is final when it is the genesis block or heads a three-chain. -/
def Final (P : Protocol ι η) (l : List (Vote ι η)) (b : η) : Prop :=
  b = P.genesis ∨ ∃ b' b'', P.ThreeChain l b b' b''

theorem Final.certified (hv : P.Valid L) (h : P.Final L b) : P.Certified L b := by
  rcases h with h | ⟨b', b'', h⟩
  · exact Or.inl h
  · exact h.certified hv

theorem Final.mono (h : P.Final l b) (hl : l ⊆ l') : P.Final l' b := by
  rcases h with h | ⟨b', b'', h⟩
  · exact Or.inl h
  · exact Or.inr ⟨b', b'', h.cert'.mono hl, h.cert''.mono hl, h.parent', h.parent'', h.height',
      h.height''⟩

theorem Final.anc_of_certified (hv : P.Valid L) (h : P.Final L b) (hx : P.Certified L x)
    (hb : P.height b ≤ P.height x) : P.Anc x b := by
  rcases h with rfl | ⟨b', b'', h⟩
  · exact (hx.descends hv).1
  · exact h.anc_of_certified hv hx hb

/-- Final blocks lie on one branch. -/
theorem Final.comparable (hv : P.Valid L) (hx : P.Final L x) (hy : P.Final L y) :
    P.Anc x y ∨ P.Anc y x := by
  rcases le_total (P.height x) (P.height y) with hle | hle
  · exact Or.inr (hx.anc_of_certified hv (hy.certified hv) hle)
  · exact Or.inl (hy.anc_of_certified hv (hx.certified hv) hle)

end Protocol

end Lib.ChainSafety
