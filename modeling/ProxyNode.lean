import ProxyNode.Base.Files
import ProxyNode.Base.Interleave
import ProxyNode.Base.Journal
import ProxyNode.Base.LastWrite
import ProxyNode.Base.Lists
import ProxyNode.Base.Loop
import ProxyNode.Base.SortedMap
import ProxyNode.Base.Table
import ProxyNode.Base.Text
import ProxyNode.Base.Wire
import ProxyNode.Spec.Address
import ProxyNode.Spec.AddressClient
import ProxyNode.Spec.AskNonces
import ProxyNode.Spec.AskProof
import ProxyNode.Spec.AskSigner
import ProxyNode.Spec.Client
import ProxyNode.Spec.Clock
import ProxyNode.Spec.Consent
import ProxyNode.Spec.Daemon
import ProxyNode.Spec.FileStore
import ProxyNode.Spec.Kv
import ProxyNode.Spec.Limiter
import ProxyNode.Spec.Log
import ProxyNode.Spec.McpTools
import ProxyNode.Spec.Mesh
import ProxyNode.Spec.MoveCallbacks
import ProxyNode.Spec.OAuth
import ProxyNode.Spec.Op
import ProxyNode.Spec.OplogFile
import ProxyNode.Spec.PageApply
import ProxyNode.Spec.Peers
import ProxyNode.Spec.Pull
import ProxyNode.Spec.PullAuth
import ProxyNode.Spec.Puller
import ProxyNode.Spec.Quarantine
import ProxyNode.Spec.RawLog
import ProxyNode.Spec.Relay
import ProxyNode.Spec.RelayAuth
import ProxyNode.Spec.RelayRoutes
import ProxyNode.Spec.RelayRun
import ProxyNode.Spec.Replica
import ProxyNode.Spec.Retention
import ProxyNode.Spec.Roster
import ProxyNode.Spec.RowOp
import ProxyNode.Spec.Rows
import ProxyNode.Spec.Server
import ProxyNode.Spec.SqlLog
import ProxyNode.Spec.SqlQueries
import ProxyNode.Spec.SqlRun
import ProxyNode.Spec.SqlTables
import ProxyNode.Spec.Startup
import ProxyNode.Spec.Sweep
import ProxyNode.Spec.Watch
import ProxyNode.Spec.WireKeys
import ProxyNode.Sanity.Acceptance
import ProxyNode.Sanity.Admission
import ProxyNode.Sanity.Arrivals
import ProxyNode.Sanity.AskChecks
import ProxyNode.Sanity.AskWords
import ProxyNode.Sanity.Compaction
import ProxyNode.Sanity.Delivery
import ProxyNode.Sanity.Drain
import ProxyNode.Sanity.DrainLoop
import ProxyNode.Sanity.Durability
import ProxyNode.Sanity.Envelope
import ProxyNode.Sanity.Exchange
import ProxyNode.Sanity.Heads
import ProxyNode.Sanity.Keys
import ProxyNode.Sanity.LogReads
import ProxyNode.Sanity.Mirror
import ProxyNode.Sanity.OAuthChecks
import ProxyNode.Sanity.OAuthSteps
import ProxyNode.Sanity.Outcome
import ProxyNode.Sanity.Page
import ProxyNode.Sanity.PageFill
import ProxyNode.Sanity.PageRoom
import ProxyNode.Sanity.Percent
import ProxyNode.Sanity.RelayPage
import ProxyNode.Sanity.RelayPull
import ProxyNode.Sanity.Replay
import ProxyNode.Sanity.Roster
import ProxyNode.Sanity.RowRuns
import ProxyNode.Sanity.RowWrite
import ProxyNode.Sanity.Runs
import ProxyNode.Sanity.Scopes
import ProxyNode.Sanity.Serving
import ProxyNode.Sanity.SqlOrder
import ProxyNode.Sanity.Stream
import ProxyNode.Sanity.StreamDrain
import ProxyNode.Sanity.StreamPage
import ProxyNode.Sanity.Winners
import ProxyNode.Proofs.AckedFloor
import ProxyNode.Proofs.AddressForms
import ProxyNode.Proofs.AskOnce
import ProxyNode.Proofs.AuditDrain
import ProxyNode.Proofs.BatchApplied
import ProxyNode.Proofs.BatchLookup
import ProxyNode.Proofs.CallbackDelivery
import ProxyNode.Proofs.ChunkFrame
import ProxyNode.Proofs.ClaimSafety
import ProxyNode.Proofs.ConsentDestination
import ProxyNode.Proofs.CrashSafety
import ProxyNode.Proofs.DrainCompletes
import ProxyNode.Proofs.EnvelopeBytes
import ProxyNode.Proofs.FailedPage
import ProxyNode.Proofs.FirstContact
import ProxyNode.Proofs.HeadWinners
import ProxyNode.Proofs.HonestAsk
import ProxyNode.Proofs.HorizonFloor
import ProxyNode.Proofs.HostilePeer
import ProxyNode.Proofs.KeyBytes
import ProxyNode.Proofs.KeysStored
import ProxyNode.Proofs.LimiterWindows
import ProxyNode.Proofs.ListedTools
import ProxyNode.Proofs.LocalWrites
import ProxyNode.Proofs.LogPages
import ProxyNode.Proofs.MeshDelivery
import ProxyNode.Proofs.OplogFile
import ProxyNode.Proofs.PageAccepted
import ProxyNode.Proofs.PageProgress
import ProxyNode.Proofs.PageRace
import ProxyNode.Proofs.PartyGrants
import ProxyNode.Proofs.PullBinding
import ProxyNode.Proofs.ReadFaults
import ProxyNode.Proofs.RedirectReturn
import ProxyNode.Proofs.RelayReplay
import ProxyNode.Proofs.RemoteClasses
import ProxyNode.Proofs.ReplayConverges
import ProxyNode.Proofs.ResetDelivery
import ProxyNode.Proofs.RetentionKeeps
import ProxyNode.Proofs.Revocation
import ProxyNode.Proofs.RosterKept
import ProxyNode.Proofs.RoutesAgree
import ProxyNode.Proofs.RowConverges
import ProxyNode.Proofs.RowCreator
import ProxyNode.Proofs.RowKeys
import ProxyNode.Proofs.ScopeWords
import ProxyNode.Proofs.SharedKeys
import ProxyNode.Proofs.SignedAsk
import ProxyNode.Proofs.SigningInputs
import ProxyNode.Proofs.SqlOrder
import ProxyNode.Proofs.SqlRefines
import ProxyNode.Proofs.StoreSweep
import ProxyNode.Proofs.StreamContiguous
import ProxyNode.Proofs.TokenOrigin
import ProxyNode.Proofs.UndecodableOp
import ProxyNode.Proofs.Verdicts
import ProxyNode.Proofs.WatchersWoken
