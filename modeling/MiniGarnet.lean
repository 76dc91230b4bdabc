import MiniGarnet.Lib.Lts
import MiniGarnet.Lib.Bits
import MiniGarnet.Tsavorite.Geometry
import MiniGarnet.Tsavorite.Record
import MiniGarnet.Tsavorite.Hash
import MiniGarnet.Tsavorite.Index
import MiniGarnet.Tsavorite.OneEntry
import MiniGarnet.Tsavorite.TailProtocol
import MiniGarnet.Tsavorite.Epoch
import MiniGarnet.Tsavorite.EpochProtocol
import MiniGarnet.Tsavorite.Log
import MiniGarnet.Tsavorite.Watermarks
import MiniGarnet.Tsavorite.PageReuse
import MiniGarnet.Tsavorite.LogScan
import MiniGarnet.Tsavorite.Store
import MiniGarnet.Tsavorite.Attempts
import MiniGarnet.Tsavorite.Checkpoint
import MiniGarnet.Tsavorite.CheckpointCalls
import MiniGarnet.Tsavorite.PhaseBarrier
import MiniGarnet.Tsavorite.ChainInv
import MiniGarnet.Tsavorite.Sessions
import MiniGarnet.Tsavorite.SessionInv
import MiniGarnet.Tsavorite.OverflowArena
import MiniGarnet.Tsavorite.LostUpdates
import MiniGarnet.Tsavorite.SingleSession
import MiniGarnet.Tsavorite.DeviceFaults
import MiniGarnet.Garnet.Aof
import MiniGarnet.Garnet.CommitWait
import MiniGarnet.Garnet.Pipelining
import MiniGarnet.Garnet.Counters
import MiniGarnet.Garnet.Expired
import MiniGarnet.Garnet.RecordSize
import MiniGarnet.Garnet.Replay
import MiniGarnet.Garnet.Regions
import MiniGarnet.Garnet.Isolation
import MiniGarnet.Garnet.LatchTable
import MiniGarnet.Garnet.RequestCodec
import MiniGarnet.Garnet.Glob
import MiniGarnet.Lib.Memory
import MiniGarnet.Tsavorite.RecordBytes
import MiniGarnet.Tsavorite.RecordWalk
import MiniGarnet.Tsavorite.DrainActions
import MiniGarnet.Garnet.Admission
import MiniGarnet.Garnet.ExecQueue
import MiniGarnet.Tsavorite.Live
import MiniGarnet.Tsavorite.FarLog
import MiniGarnet.Tsavorite.Scan
import MiniGarnet.Tsavorite.Recovery
import MiniGarnet.Tsavorite.RecoveredTail
import MiniGarnet.Tsavorite.Durability
import MiniGarnet.Tsavorite.Metadata
import MiniGarnet.Tsavorite.Progress
import MiniGarnet.Tsavorite.Linearized
import MiniGarnet.Tsavorite.LiveScan
import MiniGarnet.Garnet.Rebuilt
import MiniGarnet.Garnet.Restarts
