import BackendTemplates.Library.JsonOrder
import BackendTemplates.Media.StatusPaths
import BackendTemplates.Media.Convergence
import BackendTemplates.Media.Replay
import BackendTemplates.Media.Fingerprint
import BackendTemplates.Auth.Refresh
import BackendTemplates.Auth.Revocation
import BackendTemplates.Auth.Chains
import BackendTemplates.Auth.Lifecycle
import BackendTemplates.Logs.LiveTail
import BackendTemplates.Logs.BackScroll
import BackendTemplates.Logs.LogViewer
import BackendTemplates.Logs.EndOfHistory
import BackendTemplates.Shared.RelayDelivery
import BackendTemplates.Shared.Pagination
import BackendTemplates.Media.KeysetWalk
import BackendTemplates.Processing.JoinSoundness
import BackendTemplates.Processing.ProducerOrder
import BackendTemplates.Processing.JoinTiming
import BackendTemplates.Processing.JoinOnce
import BackendTemplates.Processing.FanOut
import BackendTemplates.Logs.TailUi
import BackendTemplates.Logs.Rotation
import BackendTemplates.Auth.BreakGlass
import BackendTemplates.Media.EventStream
import BackendTemplates.Media.FeedLimiter
import BackendTemplates.Admin.LoginRedirect
import BackendTemplates.Shared.Cursor
import BackendTemplates.Logs.TruncatedRecord
import BackendTemplates.Logs.CsvExport
import BackendTemplates.Pipeline.Deliveries
import BackendTemplates.Pipeline.Settlement
import BackendTemplates.Auth.KeyRevocation
import BackendTemplates.Logs.CursorTokens
import BackendTemplates.Logs.WrittenLog
import BackendTemplates.Media.LiveFeed
import BackendTemplates.Shared.RelayRecovery
import BackendTemplates.Media.ConsumerRecovery
