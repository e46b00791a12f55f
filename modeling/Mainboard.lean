import Mainboard.AllocationSafety
import Mainboard.ArchiveLosses
import Mainboard.ArchivedListing
import Mainboard.ArgumentDrops
import Mainboard.BlobCustody
import Mainboard.BlockLines
import Mainboard.BlockStyle
import Mainboard.BusyRuns
import Mainboard.CanonicalLock
import Mainboard.CapturedLogs
import Mainboard.CardExclusion
import Mainboard.Collecting
import Mainboard.CollectionEviction
import Mainboard.CollectionMerge
import Mainboard.CollectionPasses
import Mainboard.CommitTrailers
import Mainboard.DeletionScope
import Mainboard.EventLines
import Mainboard.EvictionCustody
import Mainboard.FileComponents
import Mainboard.FrameSurvival
import Mainboard.GitignoreLines
import Mainboard.GrantScopes
import Mainboard.GrantStore
import Mainboard.HeldCancelled
import Mainboard.HeldPublishing
import Mainboard.HeldReleases
import Mainboard.HeldVanished
import Mainboard.HoldRelet
import Mainboard.IgnoreJoining
import Mainboard.ImportClosure
import Mainboard.ImportPlaces
import Mainboard.ImportRespelling
import Mainboard.ImportWalk
import Mainboard.JournalViews
import Mainboard.KeeperSweep
import Mainboard.LineMoves
import Mainboard.ListReading
import Mainboard.ListingRoundTrip
import Mainboard.LockBlocks
import Mainboard.LockNaming
import Mainboard.LockReading
import Mainboard.LockRespelled
import Mainboard.LockSettling
import Mainboard.LockStanding
import Mainboard.LockTwice
import Mainboard.MemberExcludes
import Mainboard.MirrorObstacles
import Mainboard.OutboxCustody
import Mainboard.OwedRequirements
import Mainboard.PixiLock
import Mainboard.PlanRounds
import Mainboard.ProofBisection
import Mainboard.PushServing
import Mainboard.ReaperRuling
import Mainboard.RefusedSolve
import Mainboard.Registry
import Mainboard.Relocation
import Mainboard.RentBudget
import Mainboard.RetainedRoots
import Mainboard.RootCustody
import Mainboard.RootReduction
import Mainboard.Runs
import Mainboard.ScopeAgreement
import Mainboard.SealedFiles
import Mainboard.SeenNews
import Mainboard.SegmentedStream
import Mainboard.SerialPlan
import Mainboard.SettlementEvidence
import Mainboard.SnapshotIdempotence
import Mainboard.SourceListing
import Mainboard.Spool
import Mainboard.SpoolFollowing
import Mainboard.SpoolPages
import Mainboard.SpoolServing
import Mainboard.StableSort
import Mainboard.QuotedText
import Mainboard.StatementInlining
import Mainboard.SyntaxUnifier
import Mainboard.TelemetryDelivery
import Mainboard.TextBytes
import Mainboard.TextHygiene
import Mainboard.TrialFragments
import Mainboard.TrialLedger
import Mainboard.UnifierMatching
import Mainboard.VerdictLifecycle
import Mainboard.VerdictReading
import Mainboard.VerifiedReferences
import Mainboard.WatchPublishing
import Mainboard.Worklists
