import FlushRing.QuikIO.Read
import FlushRing.Threads.Delivery

/-! The logging example reads back what the channel reported. -/

open Transition Extents

namespace FlushRing

variable {L : Nat}

/-- The message as the channel carries it. -/
def Sent.range (m : Sent L) : Usize × Usize := (m.file_offset, m.byte_count)

section Reads
variable {file : Nat → Nat → UInt8} {result : Nat → Int} {i : Nat} {m : Sent L}

end Reads

namespace Threads

variable {T : Type} [Fintype T] [DecidableEq T]
variable {options : BufferRingOptions} {s s' : Threads T L} {a : Action T}

end Threads

end FlushRing
