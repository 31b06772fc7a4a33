import SimpleWebServer.Base.Bytes
import Mathlib.Tactic.Ring

/-!
# Memory seen through a pointer

A pointer is an address, an address may or may not belong to a living object, and
pointer arithmetic may leave the object.  Reading is therefore partial.
-/

namespace SimpleWebServer.Base

/-- The readable bytes by address; `none` lies outside every object. -/
abbrev Memory := Int → Option Byte

namespace Memory

/-- The `count` bytes from `pointer` on, when all of them are readable. -/
def read (memory : Memory) : (pointer : Int) → (count : Nat) → Option Bytes
  | _, 0 => some []
  | pointer, count + 1 =>
      match memory pointer, read memory (pointer + 1) count with
      | some byte, some rest => some (byte :: rest)
      | _, _ => none

/-- One object that holds exactly `bytes`, from `pointer` on. -/
def ofBytes (pointer : Int) (bytes : Bytes) : Memory := fun address =>
  if pointer ≤ address then bytes[(address - pointer).toNat]? else none

/-- From `pointer` on the memory holds `bytes`. -/
def Holds (memory : Memory) (pointer : Int) (bytes : Bytes) : Prop :=
  ∀ index : Nat, index < bytes.length → memory (pointer + index) = bytes[index]?

theorem holds_ofBytes (pointer : Int) (bytes : Bytes) :
    (ofBytes pointer bytes).Holds pointer bytes := by
  intro index inside
  rw [ofBytes, if_pos (by omega), add_sub_cancel_left, Int.toNat_natCast]

theorem holds_nil (memory : Memory) (pointer : Int) : memory.Holds pointer [] := by
  intro index inside
  cases inside

theorem holds_cons_iff (memory : Memory) (pointer : Int) (byte : Byte) (rest : Bytes) :
    memory.Holds pointer (byte :: rest) ↔
      memory pointer = some byte ∧ memory.Holds (pointer + 1) rest := by
  constructor
  · intro holds
    refine ⟨by simpa using holds 0 (by simp), ?_⟩
    intro index inside
    have entry := holds (index + 1) (by simpa using inside)
    rw [List.getElem?_cons_succ] at entry
    rw [← entry]
    congr 1
    omega
  · rintro ⟨head, tail⟩ index inside
    cases index with
    | zero => simpa using head
    | succ index =>
        rw [List.getElem?_cons_succ, ← tail index (by simpa using inside)]
        congr 1
        omega

theorem holds_append_iff (memory : Memory) (pointer : Int) (first second : Bytes) :
    memory.Holds pointer (first ++ second) ↔
      memory.Holds pointer first ∧ memory.Holds (pointer + first.length) second := by
  induction first generalizing pointer with
  | nil => simp [holds_nil]
  | cons byte rest ih =>
      rw [List.cons_append, holds_cons_iff, holds_cons_iff, ih, and_assoc]
      simp only [List.length_cons, Nat.cast_add, Nat.cast_one, add_assoc, add_comm (1 : Int)]

theorem read_of_holds {memory : Memory} {pointer : Int} {bytes : Bytes}
    (holds : memory.Holds pointer bytes) : memory.read pointer bytes.length = some bytes := by
  induction bytes generalizing pointer with
  | nil => rfl
  | cons byte rest ih =>
      obtain ⟨head, tail⟩ := (holds_cons_iff memory pointer byte rest).mp holds
      rw [List.length_cons, read, head, ih tail]

theorem read_length {memory : Memory} {pointer : Int} {count : Nat} {bytes : Bytes}
    (found : memory.read pointer count = some bytes) : bytes.length = count := by
  induction count generalizing pointer bytes with
  | zero =>
      obtain rfl := Option.some.inj found
      rfl
  | succ count ih =>
      rw [read] at found
      split at found
      · rename_i byte rest _ tail
        obtain rfl := Option.some.inj found
        rw [List.length_cons, ih tail]
      · cases found

/-- Reading inside the held bytes gives the slice of them. -/
theorem Holds.read_slice {memory : Memory} {pointer : Int} {bytes : Bytes}
    (holds : memory.Holds pointer bytes) {offset count : Nat}
    (inside : offset + count ≤ bytes.length) :
    memory.read (pointer + offset) count = some ((bytes.drop offset).take count) := by
  have sliceLength : ((bytes.drop offset).take count).length = count := by
    rw [List.length_take, List.length_drop]
    omega
  have slice : memory.Holds (pointer + offset) ((bytes.drop offset).take count) := by
    intro index below
    rw [List.getElem?_take_of_lt (by omega), List.getElem?_drop,
      ← holds (offset + index) (by omega)]
    congr 1
    push_cast
    ring
  have read := read_of_holds slice
  rwa [sliceLength] at read

/-- Every byte of a successful read lies in readable memory. -/
theorem read_isSome {memory : Memory} {pointer : Int} {count : Nat} {bytes : Bytes}
    (taken : memory.read pointer count = some bytes) {index : Nat} (inside : index < count) :
    (memory (pointer + index)).isSome := by
  induction count generalizing pointer bytes index with
  | zero => cases inside
  | succ count ih =>
      cases head : memory pointer with
      | none => simp [read, head] at taken
      | some byte =>
          cases tail : memory.read (pointer + 1) count with
          | none => simp [read, head, tail] at taken
          | some rest =>
              cases index with
              | zero => simp [head]
              | succ index =>
                  have found := ih tail (show index < count by omega)
                  have address :
                      pointer + 1 + (index : Int) = pointer + ((index + 1 : Nat) : Int) := by
                    push_cast
                    ring
                  rwa [address] at found

end Memory

end SimpleWebServer.Base
