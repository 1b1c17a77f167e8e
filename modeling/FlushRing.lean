import FlushRing.Transition
import FlushRing.Extents
import FlushRing.Submission
import FlushRing.Lines
import FlushRing.Word
import FlushRing.Uring
import FlushRing.Buffer
import FlushRing.Buffer.Ops
import FlushRing.Buffer.Increment
import FlushRing.Buffer.Record
import FlushRing.Buffer.Tiled
import FlushRing.Buffer.Shared
import FlushRing.Ring
import FlushRing.Ring.Rotation
import FlushRing.Threads.Effects
import FlushRing.Threads.Ownership
import FlushRing.Threads.InFlight
import FlushRing.Threads.Acknowledge
import FlushRing.Threads.Lifecycle
import FlushRing.Threads.Dispatch
import FlushRing.Threads.Owner
import FlushRing.Threads.Length
import FlushRing.Threads.Address
import FlushRing.Threads.Stranded
import FlushRing.Threads.Filling
import FlushRing.Threads.Bounds
import FlushRing.Threads.Manual
import FlushRing.Threads.Alone
import FlushRing.Threads.Serial
import FlushRing.Threads.Progress
import FlushRing.Threads.Logging
import FlushRing.Threads.Stalling
import FlushRing.Client.Machine
import FlushRing.Client.Calls
import FlushRing.Client.Moves
import FlushRing.Client.Regions
import FlushRing.Client.Filling
import FlushRing.Client.Delivery
import FlushRing.Threads.Contents
import FlushRing.Threads.Delivery
import FlushRing.Threads.Durability
import FlushRing.Threads.Completed
import FlushRing.Client.Persist
import FlushRing.Client.Completions
import FlushRing.Client.Tracking
import FlushRing.Client.Alignment
import FlushRing.Client.Recovery
import FlushRing.Client.Storeless
import FlushRing.Client.Ledger
import FlushRing.Client.Observers
import FlushRing.Client.Polling
import FlushRing.QuikIO.Window
import FlushRing.QuikIO.Calls
import FlushRing.QuikIO.Barriers
import FlushRing.QuikIO.Reading
import FlushRing.QuikIO.Serial
import FlushRing.Writer.Messages
import FlushRing.Writer.Progress
