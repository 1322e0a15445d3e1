import HotstuffConsensus.Data
import HotstuffConsensus.Lib.HashMap

/-!
# Collecting votes (`safety/voter.rs`)

Votes are pooled by height and keyed by the sender named in the message context. A
second vote of a sender replaces the first one and is then reported as a duplicate.
-/

namespace HotstuffConsensus

open Lib

variable {K : Crypto}

inductive VoteErr where
  | duplicateVote (sender : ReplicaID)
  | insufficientSigns (needed offered : ℕ)
deriving DecidableEq

structure Voter (K : Crypto) where
  view : ViewNumber
  signature : DefaultSignaturer K
  threshold : ℕ
  votingSet : Finmap fun _ : ViewNumber => Finmap fun _ : ReplicaID => SignKit K
  voteDecided : Bool

namespace Voter

def new (threshold : ℕ) (signature : DefaultSignaturer K) : Voter K :=
  ⟨0, signature, threshold, ∅, false⟩

def sign (v : Voter K) (node : TreeNode K) : SignKit K := v.signature.sign node

def validateVote (v : Voter K) (prop : TreeNode K) (vote : SignKit K) : Bool :=
  v.signature.validateVote prop vote

def validateQc (v : Voter K) (qcNode : TreeNode K) (sign : K.CombinedSign) : Bool :=
  v.signature.validateQc qcNode sign

def voteSetSize (v : Voter K) (view : ViewNumber) : ℕ :=
  ((v.votingSet.lookup view).map HashMap.size).getD 0

/-- The pool of `view`, empty when no vote for it is held. -/
def pool (v : Voter K) (view : ViewNumber) : Finmap fun _ : ReplicaID => SignKit K :=
  HashMap.entryD v.votingSet view ∅

/-- `combine_partial_sign`: the pool is removed whether or not combining succeeds. -/
def combinePartialSign (v : Voter K) (view : ViewNumber) :
    Voter K × Except VoteErr K.CombinedSign :=
  if v.voteSetSize view ≤ v.threshold then
    (v, .error (.insufficientSigns (v.threshold + 1) (v.voteSetSize view)))
  else
    let res := match v.signature.combinePartialSign (HashMap.values (v.pool view)) with
      | .ok s => .ok s
      | .error e => .error (.insufficientSigns e.needed e.offered)
    ({ v with voteDecided := true, votingSet := v.votingSet.erase view }, res)

def reset (v : Voter K) (newView : ViewNumber) : Voter K :=
  { v with view := newView, votingSet := ∅, voteDecided := false }

def addVote (v : Voter K) (ctx : Context) (view : ViewNumber) (sign : SignKit K) :
    Voter K × Except VoteErr Unit :=
  -- `insert` replaces the share of the sender before the duplicate is noticed
  let v' := { v with votingSet := v.votingSet.insert view ((v.pool view).insert ctx.sender sign) }
  match (v.pool view).lookup ctx.sender with
  | none => (v', .ok ())
  | some _ => (v', .error (.duplicateVote ctx.sender))

theorem voteSetSize_eq_size_pool (v : Voter K) (view : ViewNumber) :
    v.voteSetSize view = HashMap.size (v.pool view) := by
  unfold voteSetSize pool HashMap.entryD
  cases h : v.votingSet.lookup view with
  | none => rfl
  | some p => rfl

end Voter

end HotstuffConsensus
