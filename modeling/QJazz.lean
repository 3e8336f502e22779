import QJazz.Cache.Eviction
import QJazz.Cache.Inversion.Storages
import QJazz.Cache.Locations
import QJazz.Cache.Reload
import QJazz.Cache.Substitution
import QJazz.Calendar.Rfc822
import QJazz.Config.MergePatch
import QJazz.Config.Proxy
import QJazz.Config.Service
import QJazz.Map.ApiResponse
import QJazz.Map.Forward
import QJazz.Map.Links
import QJazz.Map.Routing
import QJazz.Ogc.Extent
import QJazz.Pool.ChunkSize
import QJazz.Pool.Queue.Custody
import QJazz.Pool.Queue.Wakeup
import QJazz.Pool.Reconfigure
import QJazz.Pool.Recycling.Update
import QJazz.Pool.RendezVous
import QJazz.Pool.Session.Cancel
import QJazz.Processes.Callback
import QJazz.Processes.Cleanup
import QJazz.Processes.DescriptionCache
import QJazz.Processes.Freshness
import QJazz.Processes.Holder
import QJazz.Processes.Isolation
import QJazz.Processes.Links
import QJazz.Processes.Recovery
import QJazz.Processes.Submission
import QJazz.Processing.BoundingBox
import QJazz.Processing.Defaults
import QJazz.Processing.Inputs
import QJazz.Processing.LayerOutputs
import QJazz.Processing.OutputFormats
import QJazz.Processing.WellKnownText
import QJazz.Rpc.Administration
import QJazz.Rpc.Cache.Pinned
import QJazz.Rpc.Cache.Visibility
import QJazz.Rpc.DumpCache.Progress
import QJazz.Rpc.EndOfStream
import QJazz.Rpc.MemoryGuard
import QJazz.Rpc.Messages.Requests
import QJazz.Rpc.OpMap
import QJazz.Rpc.Replies.LayerPages
import QJazz.Rpc.Signals.Deliveries
import QJazz.Rpc.Streams
import QJazz.Store.Download
import QJazz.Store.Keys
import QJazz.Store.Upload
