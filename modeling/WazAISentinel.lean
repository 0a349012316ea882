import WazAISentinel.SyncProtocol.LostAcknowledgement
import WazAISentinel.SyncProtocol.AgentSyncProtocol
import WazAISentinel.InventorySync.AgentIsolation
import WazAISentinel.SyncProtocol.AckSoundness
import WazAISentinel.IndexerConnector.CallOrder
import WazAISentinel.VersionMatcher.VersionObjectRpm
import WazAISentinel.VersionMatcher.DpkgOrder
import WazAISentinel.VersionMatcher.PEP440Order
import WazAISentinel.VulnerabilityScanner.TranslationCache
import WazAISentinel.Shared.RbtreeCorrect
import WazAISentinel.Shared.BqueueOp
import WazAISentinel.Remoted.NetBuffer
import WazAISentinel.Shared.BatchQueueItems
import WazAISentinel.Shared.IndexedQueueUpsert
import WazAISentinel.Shared.HashOp
import WazAISentinel.OsCrypto.MsgsReplay
import WazAISentinel.OsCrypto.MsgsRejected
import WazAISentinel.OsRegex.OsMatch
import WazAISentinel.OsRegex.OsRegexSearch
import WazAISentinel.LogicExpr.Meaning
import WazAISentinel.Builder.FilterGuard
import WazAISentinel.Builder.PolicyRun
import WazAISentinel.Builder.AssetBuilder
import WazAISentinel.Bk.Backend
import WazAISentinel.Bk.Tracing
import WazAISentinel.Router.Orchestrator
import WazAISentinel.Logpar.RoundTrip
import WazAISentinel.Hlp.Quoted
import WazAISentinel.Base.FieldPaths
import WazAISentinel.Base.EventFraming
import WazAISentinel.Defs.Definitions
import WazAISentinel.Rbac.CheckRule
import WazAISentinel.Schemf.Validator
import WazAISentinel.Streamlog.Channel
import WazAISentinel.Store.CacheAgreement
import WazAISentinel.Sca.PatternMatches
