import SawtoothRaft.Lib.Bytes
import SawtoothRaft.Lib.Destutter
import SawtoothRaft.Lib.Exec
import SawtoothRaft.Lib.Justified
import SawtoothRaft.Lib.LeadsTo
import SawtoothRaft.Lib.Lockstep
import SawtoothRaft.Lib.Lru
import SawtoothRaft.Lib.Run
import SawtoothRaft.Lib.Since
import SawtoothRaft.Lib.Wire
import SawtoothRaft.Storage.Message
import SawtoothRaft.Storage.Files
import SawtoothRaft.Storage.FsStorage
import SawtoothRaft.Storage.CachedStorage
import SawtoothRaft.Storage.PlainLog
import SawtoothRaft.Storage.FsSpec
import SawtoothRaft.Storage.Refine
import SawtoothRaft.Storage.Crash
import SawtoothRaft.Storage.Coherence
import SawtoothRaft.Storage.ColdStart
import SawtoothRaft.Storage.Intact
import SawtoothRaft.Storage.Overwrite
import SawtoothRaft.Storage.Truncated
import SawtoothRaft.Storage.Restartable
import SawtoothRaft.Storage.Failure
import SawtoothRaft.Storage.Refill
import SawtoothRaft.Storage.Crowding
import SawtoothRaft.Storage.FirstOpening
import SawtoothRaft.Storage.Terms
import SawtoothRaft.Storage.Compaction
import SawtoothRaft.Storage.Resurrect
import SawtoothRaft.Storage.Image
import SawtoothRaft.Node.BlockQueue
import SawtoothRaft.Node.Config
import SawtoothRaft.Node.Node
import SawtoothRaft.Node.Spec
import SawtoothRaft.Node.Round
import SawtoothRaft.Node.Run
import SawtoothRaft.Node.Books
import SawtoothRaft.Node.Invariant
import SawtoothRaft.Node.Leader
import SawtoothRaft.Node.Steady
import SawtoothRaft.Node.Opening
import SawtoothRaft.Node.Persist
import SawtoothRaft.Node.Life
import SawtoothRaft.Node.Membership
import SawtoothRaft.Node.Stages
import SawtoothRaft.Node.Builder
import SawtoothRaft.Node.Discipline
import SawtoothRaft.Node.Aloof
import SawtoothRaft.Node.Restart
import SawtoothRaft.Node.Acknowledge
import SawtoothRaft.Node.Configured
import SawtoothRaft.Node.Network
import SawtoothRaft.Node.Provenance
import SawtoothRaft.Node.ConfChange
import SawtoothRaft.Node.RaftId
import SawtoothRaft.Node.Shuffle
import SawtoothRaft.Node.Twin
import SawtoothRaft.Node.Acts
import SawtoothRaft.Node.Contract
import SawtoothRaft.Node.Backlog
import SawtoothRaft.Node.Pace
import SawtoothRaft.Node.Routing
import SawtoothRaft.Node.Blame
import SawtoothRaft.Node.Liveness
import SawtoothRaft.Node.Reign
import SawtoothRaft.Node.Replicas
import SawtoothRaft.Node.Torn
import SawtoothRaft.Engine.Ticker
import SawtoothRaft.Engine.Loop
import SawtoothRaft.Engine.Start
