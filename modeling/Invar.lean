import Invar.Common.RegistryRuns
import Invar.Common.Rollback
import Invar.Redis.RespChunks
import Invar.Redis.RespRoundTrip
import Invar.Redis.Increments
import Invar.Redis.ElementScans
import Invar.Redis.JsonPaths
import Invar.Redis.ScriptValues
import Invar.Redis.StoreCommands
import Invar.Redis.ZsetAdds
import Invar.Redis.ZsetPops
import Invar.Redis.ZsetNumbers
import Invar.Redis.StreamMetadata
import Invar.Redis.StreamRanges
import Invar.Redis.BloomReplies
import Invar.Redis.BloomGrowth
import Invar.Redis.PatternLanguage
import Invar.Redis.BitOps
import Invar.System.ScriptAtomicity
import Invar.System.WakeAfterCommit
import Invar.System.WatchSafety
import Invar.System.Delivery
import Invar.System.ReadWakeups
import Invar.System.Attempts
import Invar.System.MultiBlock
import Invar.System.ConnectionRuns
