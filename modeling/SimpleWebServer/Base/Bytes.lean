import Mathlib.Data.List.Basic

/-!
# Bytes, system call results and faults

The vocabulary shared by the modules of the server: the bytes that move through
it, the answers of `read` and `write` on a file descriptor, and the ways in which
a piece of C++ stops being an ordinary computation.
-/

namespace SimpleWebServer.Base

abbrev Byte := UInt8

abbrev Bytes := List Byte

/-- The bytes of an ASCII text. -/
def ascii (text : String) : Bytes := text.toList.map fun char => UInt8.ofNat char.toNat

/-- The `errno` values the server tells apart: a call to repeat later, or a real failure. -/
inductive Errno where
  | again
  | intr
  | other
  deriving DecidableEq, Repr

/-- What `read(fd, ptr, room)` did: a negative result with its `errno`, or the bytes it stored. -/
inductive ReadResult where
  | error (errno : Errno)
  | data (bytes : Bytes)
  deriving DecidableEq, Repr

/-- The `int` that `read` returns; `0` is the end of the stream. -/
def ReadResult.count : ReadResult → Int
  | .error _ => -1
  | .data bytes => bytes.length

/-- The bytes `read` stored behind the pointer it was given. -/
def ReadResult.bytes : ReadResult → Bytes
  | .error _ => []
  | .data bytes => bytes

/-- What `write(fd, ptr, size)` did: a negative result with its `errno`, or the number accepted. -/
inductive WriteResult where
  | error (errno : Errno)
  | wrote (count : Nat)
  deriving DecidableEq, Repr

/-- The `int` that `write` returns. -/
def WriteResult.count : WriteResult → Int
  | .error _ => -1
  | .wrote count => count

/-- The number of bytes `write` took over. -/
def WriteResult.accepted : WriteResult → Nat
  | .error _ => 0
  | .wrote count => count

/-- The ways in which a computation leaves the normal path of the C++ program. -/
inductive Fault where
  /-- a failed `assert` -/
  | assertion
  /-- a failed `assertm`, which throws `runtime_error` -/
  | assertm
  /-- `std::length_error` from a string longer than `max_size()` -/
  | lengthError
  /-- `std::invalid_argument` from `stoi` -/
  | invalidArgument
  /-- `std::out_of_range` from `stoi` -/
  | outOfRange
  /-- memory read outside the object a pointer belongs to -/
  | wildRead
  /-- a string built from bytes that are not part of the input consumed so far -/
  | sliceOutside
  deriving DecidableEq, Repr

end SimpleWebServer.Base
