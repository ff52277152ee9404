import TruthLinked.Core.BytecodeFormat
import TruthLinked.Ledger.ParamCache
import TruthLinked.Compiler.Dispatch
import TruthLinked.Compiler.Positions
import TruthLinked.Compiler.Ownership
import TruthLinked.Consensus.Equivocation
import TruthLinked.Consensus.BatchCommitment
import TruthLinked.Consensus.SnapshotQuorum
import TruthLinked.Consensus.TipOrder
import TruthLinked.Consensus.CertificateShape
import TruthLinked.Consensus.FinalizationTask
import TruthLinked.Consensus.AttestationRace
import TruthLinked.Consensus.SyncAtomic
import TruthLinked.Consensus.SyncServe
import TruthLinked.Consensus.NonceLanes
import TruthLinked.Ledger.Registries
import TruthLinked.Staking.Accountability
import TruthLinked.DonaDb.ChainWalk
import TruthLinked.DonaDb.ClockCache
import TruthLinked.DonaDb.Recovery
import TruthLinked.DonaDb.Queue
import TruthLinked.DonaDb.Writers
import TruthLinked.DonaDb.AtHeight
import TruthLinked.DonaDb.Scans
import TruthLinked.Ledger.NftOwnership
import TruthLinked.Ledger.StakingPositions
import TruthLinked.Ledger.TokenSupply
import TruthLinked.Ledger.TreasuryRuns
import TruthLinked.Consensus.UniqueQuorum
import TruthLinked.Consensus.ForkSwitch
import TruthLinked.Zk.Completeness
import TruthLinked.Ledger.Commitments
import TruthLinked.Axiom.Division
import TruthLinked.Staking.Shares
import TruthLinked.Ledger.RecordEffects
import TruthLinked.Ledger.UrlPatterns
import TruthLinked.Ledger.StorageDeltas
import TruthLinked.Ledger.Preimages
import TruthLinked.Ledger.QuorumPercent
import TruthLinked.Ledger.UrlBonds
import TruthLinked.Ledger.Amounts
import TruthLinked.Consensus.SnapshotStore
