import SimpleWebServer.Base.Bytes
import SimpleWebServer.Lib.Runs

/-!
# The logger

`Logger` collects the log strings in blocks of fixed capacity.  `write_buf` fills the last
block of `buf_list` and appends further blocks, `flush_buf` writes the first block to the
log file and keeps it as an empty one.  Both run under the mutex.  A block pointer is
modelled by the block it points to, with its address; address `0` is the null pointer.
-/

namespace SimpleWebServer.Logging

open SimpleWebServer.Base

/-- `Logger::DayTime` -/
structure DayTime where
  day : Int
  hour : Int
  min : Int
  sec : Int
  deriving DecidableEq, Repr

/-- `is_after(dt)` -/
def DayTime.isAfter (ti dt : DayTime) : Bool :=
  decide (dt.day ≠ ti.day ∧ ti.hour ≤ dt.hour ∧ ti.min ≤ dt.min ∧ ti.sec ≤ dt.sec)

/-- `Logger::BufBlock`; `buf` holds the first `writen` bytes. -/
structure BufBlock where
  address : Nat
  capacity : Nat
  buf : Bytes
  fits : buf.length ≤ capacity
  deriving DecidableEq, Repr

namespace BufBlock

/-- What a null pointer is read as. -/
def null : BufBlock where
  address := 0
  capacity := 0
  buf := []
  fits := Nat.le_refl 0

/-- `make_shared<BufBlock>(capacity)` -/
def new (address capacity : Nat) : BufBlock where
  address := address
  capacity := capacity
  buf := []
  fits := Nat.zero_le capacity

def writen (block : BufBlock) : Nat := block.buf.length

def isFull (block : BufBlock) : Bool := block.writen == block.capacity

/-- `min(capacity - writen, size)` -/
def room (block : BufBlock) (size : Nat) : Nat := min (block.capacity - block.writen) size

/-- `write_buf(log, size)`, which returns `room` -/
def writeBuf (block : BufBlock) (log : Bytes) : BufBlock where
  address := block.address
  capacity := block.capacity
  buf := block.buf ++ log.take (block.room log.length)
  fits := by
    have fits := block.fits
    rw [List.length_append, List.length_take, room, writen]
    omega

/-- `flush_buf`, after the bytes were written -/
def flushBuf (block : BufBlock) : BufBlock where
  address := block.address
  capacity := block.capacity
  buf := []
  fits := Nat.zero_le block.capacity

@[simp]
theorem new_buf (address capacity : Nat) : (new address capacity).buf = [] := rfl

@[simp]
theorem new_capacity (address capacity : Nat) : (new address capacity).capacity = capacity := rfl

@[simp]
theorem writeBuf_capacity (block : BufBlock) (log : Bytes) :
    (block.writeBuf log).capacity = block.capacity := rfl

@[simp]
theorem writeBuf_buf (block : BufBlock) (log : Bytes) :
    (block.writeBuf log).buf = block.buf ++ log.take (block.room log.length) := rfl

@[simp]
theorem flushBuf_buf (block : BufBlock) : block.flushBuf.buf = [] := rfl

@[simp]
theorem flushBuf_capacity (block : BufBlock) : block.flushBuf.capacity = block.capacity := rfl

theorem isFull_iff (block : BufBlock) : block.isFull = true ↔ block.writen = block.capacity := by
  rw [isFull, beq_iff_eq]

end BufBlock

/-- The constants of the class that its two functions read. -/
structure Config where
  isAsync : Bool
  bufBlockNum : Nat
  bufBlockSize : Nat
  bufBlockSize_pos : 0 < bufBlockSize
  deriving DecidableEq, Repr

/-- The values that the source gives them. -/
def Config.source : Config where
  isAsync := true
  bufBlockNum := 256
  bufBlockSize := 4 * 1024 * 1024
  bufBlockSize_pos := by decide

/-- A file is known by the bytes written to it since it was opened. -/
structure Logger where
  config : Config
  rollTime : DayTime
  bufList : List BufBlock := []
  emptyBufList : List BufBlock := []
  /-- the address of the next new block -/
  nextAddress : Nat := 1
  /-- the files that were closed -/
  closed : List Bytes := []
  /-- the file behind `fd` -/
  file : Bytes := []
  deriving DecidableEq, Repr

namespace Logger

/-- `buf_list.size() + empty_buf_list.size()` -/
def blocks (logger : Logger) : Nat := logger.bufList.length + logger.emptyBufList.length

/-! ## `write_buf` -/

/-- `buf_list.empty() || buf_list.back()->is_full()` -/
def needsBlock (logger : Logger) : Bool :=
  match logger.bufList.getLast? with
  | none => true
  | some block => block.isFull

/-- The head of the loop: a block with room becomes the last one. -/
def takeBlock (logger : Logger) : Logger :=
  if logger.needsBlock then
    match logger.emptyBufList with
    | [] =>
        { logger with
          bufList := logger.bufList ++ [.new logger.nextAddress logger.config.bufBlockSize]
          nextAddress := logger.nextAddress + 1 }
    | block :: rest =>
        { logger with bufList := logger.bufList ++ [block], emptyBufList := rest }
  else logger

/-- `buf_list.back()->write_buf(log, size)` and the number it returns -/
def writeBack (logger : Logger) (log : Bytes) : Nat × Logger :=
  match logger.bufList.getLast? with
  | none => (0, logger)
  | some block =>
      (block.room log.length,
        { logger with bufList := logger.bufList.dropLast ++ [block.writeBuf log] })

/-- The loop: each iteration passes the whole string again. -/
def writeLoop (log : Bytes) : Nat → Int → Logger → Logger
  | 0, _, logger => logger
  | fuel + 1, remain, logger =>
      if 0 < remain then
        let written := logger.takeBlock.writeBack log
        writeLoop log fuel (remain - written.1) written.2
      else logger

/-- The block lists after the loop of `write_buf`; every iteration copies at least a byte. -/
def fill (logger : Logger) (log : Bytes) : Logger :=
  logger.writeLoop log log.length log.length

/-! ## `flush_buf` -/

/-- `reset_file_fd` -/
def resetFileFd (logger : Logger) : Logger :=
  { logger with closed := logger.closed ++ [logger.file], file := [] }

/-- The roll of the log file at time `ti`. -/
def roll (logger : Logger) (ti : DayTime) : Logger :=
  if ti.isAfter logger.rollTime then { logger with rollTime := ti }.resetFileFd else logger

/-- `list::resize` for a list of pointers -/
def resize (blocks : List BufBlock) (count : Nat) : List BufBlock :=
  blocks.take count ++ List.replicate (count - blocks.length) .null

/-- The check of the number of blocks. -/
def trim (logger : Logger) : Logger :=
  if logger.config.bufBlockNum < logger.blocks then
    let excess := logger.blocks - logger.config.bufBlockNum
    { logger with
      emptyBufList := resize logger.emptyBufList (min logger.emptyBufList.length excess)
      bufList :=
        if logger.config.bufBlockNum < logger.bufList.length then
          resize logger.bufList (logger.bufList.length - logger.config.bufBlockNum)
        else logger.bufList }
  else logger

/-- Write the first block to the file. -/
def flushFront (logger : Logger) : Logger :=
  match logger.bufList with
  | [] => logger
  | block :: rest =>
      { logger with
        file := logger.file ++ block.buf
        emptyBufList := logger.emptyBufList ++ [block.flushBuf]
        bufList := rest }

/-- `flush_buf` up to its recursive call, at time `ti` -/
def flushOne (logger : Logger) (ti : DayTime) : Logger := ((logger.roll ti).trim).flushFront

/-- The recursion of `flush_buf`; its calls read the clock one after the other. -/
def flushLoop (isFull : Bool) : Nat → (Nat → DayTime) → Logger → Logger
  | 0, _, logger => logger
  | fuel + 1, clock, logger =>
      let flushed := logger.flushOne (clock 0)
      if flushed.bufList ≠ [] ∧ isFull = true then
        flushLoop isFull fuel (fun call => clock (call + 1)) flushed
      else flushed

/-- `flush_buf(is_full)`; every call takes a block out of a list that has one. -/
def flushBuf (logger : Logger) (isFull : Bool) (clock : Nat → DayTime) : Logger :=
  logger.flushLoop isFull (logger.bufList.length + 1) clock

/-- `write_buf(log, log.length)`; without the flush thread it flushes at time `ti`. -/
def writeBuf (logger : Logger) (log : Bytes) (ti : DayTime) : Logger :=
  if logger.config.isAsync then logger.fill log
  else (logger.fill log).flushBuf false fun _ => ti

/-- The logger that the constructor leaves on the day `day`. -/
def new (config : Config) (day : Int) : Logger where
  config := config
  rollTime := ⟨day, 0, 0, 0⟩

end Logger

end SimpleWebServer.Logging
