import HotstuffConsensus.Data
import HotstuffConsensus.Lib.HashMap

/-!
# Timeout certificates and branch synchronisation data (`pacemaker/data.rs`)
-/

namespace HotstuffConsensus

open Lib

variable {K : Crypto}

inductive SignType (K : Crypto) where
  | part (kit : SignKit K)
  | combined (sign : K.CombinedSign)

structure TimeoutCertificate (K : Crypto) where
  sender : ReplicaID
  view : ViewNumber
  viewSign : SignType K
  qcHigh : GenericQC K

/-- `HashSet<TimeoutCertificate>`. The source compares and hashes certificates by view
and sender only, so a set of them is a map from that pair. -/
abbrev TcSet (K : Crypto) := Finmap fun _ : ViewNumber × ReplicaID => TimeoutCertificate K

namespace TimeoutCertificate

def new (sender : ReplicaID) (view : ViewNumber) (viewSign : SignKit K) (qcHigh : GenericQC K) :
    TimeoutCertificate K :=
  ⟨sender, view, .part viewSign, qcHigh⟩

def compressed (sender : ReplicaID) (view : ViewNumber) (viewSign : K.CombinedSign)
    (qcHigh : GenericQC K) : TimeoutCertificate K :=
  ⟨sender, view, .combined viewSign, qcHigh⟩

/-- The signature kit of a partial certificate. -/
def partialSign (tc : TimeoutCertificate K) : Option (SignKit K) :=
  match tc.viewSign with
  | .part kit => some kit
  | .combined _ => none

end TimeoutCertificate

def combineTimeCertificates (signaturer : DefaultSignaturer K) (view : ViewNumber)
    (qcHigh : GenericQC K) (tcs : TcSet K) : Option (TimeoutCertificate K) :=
  match signaturer.combinePartialSign
      ((HashMap.values tcs).filterMap TimeoutCertificate.partialSign) with
  | .ok s => some (.compressed "" view s qcHigh)
  | .error _ => none

/-- `BranchSyncStrategy::Grow`, the only strategy. -/
structure BranchSyncStrategy where
  growFrom : ViewNumber
  batchSize : ℕ
deriving DecidableEq

inductive SyncStatus where
  | success
  | proposalNonExists
deriving DecidableEq

end HotstuffConsensus
