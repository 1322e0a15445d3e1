import HotstuffConsensus.VoteGaps
import HotstuffConsensus.Justify
import HotstuffConsensus.NewView
import HotstuffConsensus.QuorumCertificate
import HotstuffConsensus.QcHighMonotone
import HotstuffConsensus.LeafCoherence
import HotstuffConsensus.RestartState
import HotstuffConsensus.RestartStore
import HotstuffConsensus.Pacemaker
import HotstuffConsensus.PacemakerTheorems
import HotstuffConsensus.VoteDurability
import HotstuffConsensus.BlockTree
import HotstuffConsensus.CertifiedStore
import HotstuffConsensus.VotingRules
import HotstuffConsensus.Agreement
import HotstuffConsensus.LeaderElection
import HotstuffConsensus.LockOrder
import HotstuffConsensus.TimeoutCounting
import HotstuffConsensus.ViewAgreement
import HotstuffConsensus.ProposalPerView
import HotstuffConsensus.ClosedStore
import HotstuffConsensus.BranchSync
import HotstuffConsensus.HeightOrder
import HotstuffConsensus.CertificateView
import HotstuffConsensus.Encodings
import HotstuffConsensus.Ancestry
import HotstuffConsensus.BranchReplay
import HotstuffConsensus.BranchStored
import HotstuffConsensus.ChainProgress
import HotstuffConsensus.LockRespect
import HotstuffConsensus.RestartGuarantees
import HotstuffConsensus.NewViewOrder
import HotstuffConsensus.VotePool
import HotstuffConsensus.PendingProposals
import HotstuffConsensus.SyncBacklog
import HotstuffConsensus.ViewProgress
import HotstuffConsensus.TimeoutCompression
import HotstuffConsensus.Flushing
import HotstuffConsensus.QuorumSize
import HotstuffConsensus.QcTable
import HotstuffConsensus.WalkTermination
import HotstuffConsensus.DrainTermination
import HotstuffConsensus.PrototypeTheorems
import HotstuffConsensus.Transparency
import HotstuffConsensus.LoopRefinement
import HotstuffConsensus.NetworkAgreement
import HotstuffConsensus.Outbox
import HotstuffConsensus.Announcements
import HotstuffConsensus.Follower
import HotstuffConsensus.FollowerProgress
import HotstuffConsensus.DatabaseHistory
import HotstuffConsensus.Leader
import HotstuffConsensus.LeaderRounds
import HotstuffConsensus.LeaderProgress
import HotstuffConsensus.Timer
import HotstuffConsensus.PacemakerRun
import HotstuffConsensus.PrototypeReplica
import HotstuffConsensus.PrototypeClock
