import Metcalfe.Network.Clock
import Metcalfe.Network.Conservation
import Metcalfe.Network.Order
import Metcalfe.Network.Bfs
import Metcalfe.Network.Compose
import Metcalfe.Network.Due
import Metcalfe.Import.Complete
import Metcalfe.Lua.Capability
import Metcalfe.Lua.Shell
import Metcalfe.WSClient.Messages
import Metcalfe.WSClient.Invoke
import Metcalfe.Beast.BlockStream
import Metcalfe.Http.Message
import Metcalfe.ValidatorSite.Server
import Metcalfe.Overlay.ShortRead
import Metcalfe.Library.Signed
import Metcalfe.TimeKeeper.CloseTime
import Metcalfe.Path.Same
import Metcalfe.Amendment.Round
import Metcalfe.Amendment.LifeCycle
import Metcalfe.Library.Tally
import Metcalfe.Timing.ParallelFor
import Metcalfe.Network.Indexes
import Metcalfe.Beast.Base64
import Metcalfe.Library.Json
import Metcalfe.ValidatorSite.Document
import Metcalfe.Lua.Activation
import Metcalfe.Lua.LedgerSeq
import Metcalfe.Lua.Handles
import Metcalfe.Lua.Query
import Metcalfe.Import.Reread
import Metcalfe.Jtx.Amount
import Metcalfe.OversizeMeta.Bfind
import Metcalfe.Import.Progress
import Metcalfe.Library.Stateful
import Metcalfe.Library.Durable
import Metcalfe.Library.DurableMap
import Metcalfe.Nudb.Growth
import Metcalfe.Nudb.Open
import Metcalfe.Nudb.Gentex
import Metcalfe.Nudb.Moments
import Metcalfe.Nudb.Create
import Metcalfe.Nudb.Guarantees
import Metcalfe.Nudb.Lookup
import Metcalfe.Nudb.Agree
