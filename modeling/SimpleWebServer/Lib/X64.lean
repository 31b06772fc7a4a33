import Mathlib.Data.BitVec
import Mathlib.Logic.Function.Basic

/-!
# Memory and registers of an x86-64 processor

Memory is a byte at each 64-bit address, and a word is eight bytes, the lowest first.  The
instructions are those of straight-line code that moves words between registers and memory
and ends in a `ret`.  The flags are left out: no instruction here reads them.
-/

namespace SimpleWebServer.Lib.X64

abbrev Word := BitVec 64

/-! ## Regions -/

/-- Bytes in a row; addresses wrap around. -/
structure Region where
  base : Word
  size : Nat
  deriving DecidableEq, Repr

namespace Region

def Has (region : Region) (address : Word) : Prop :=
  (address - region.base).toNat < region.size

instance (region : Region) (address : Word) : Decidable (region.Has address) :=
  inferInstanceAs (Decidable (_ < _))

/-- No address is in both. -/
def Apart (region other : Region) : Prop := ∀ address, region.Has address → ¬ other.Has address

/-- Every address of `region` is in `outer`. -/
def Inside (region outer : Region) : Prop := ∀ address, region.Has address → outer.Has address

/-- The eight bytes of the word at an address. -/
def word (address : Word) : Region := ⟨address, 8⟩

/-- The part of `size` bytes that begins `offset` bytes behind the base. -/
def part (region : Region) (offset size : Nat) : Region :=
  ⟨region.base + BitVec.ofNat 64 offset, size⟩

theorem Apart.symm {region other : Region} (apart : region.Apart other) : other.Apart region :=
  fun address has hasToo => apart address hasToo has

theorem Apart.mono {region other smaller otherSmaller : Region} (apart : region.Apart other)
    (inside : smaller.Inside region) (otherInside : otherSmaller.Inside other) :
    smaller.Apart otherSmaller :=
  fun address has hasToo => apart address (inside address has) (otherInside address hasToo)

theorem Inside.refl (region : Region) : region.Inside region := fun _ has => has

theorem part_inside {region : Region} {offset size : Nat} (fits : offset + size ≤ region.size)
    (small : region.size ≤ 2 ^ 64) : (region.part offset size).Inside region := by
  intro address has
  simp only [Has, part] at *
  bv_omega

/-- A region that ends before another one begins. -/
theorem apart_of_below {region other : Region}
    (below : region.base.toNat + region.size ≤ other.base.toNat)
    (small : other.base.toNat + other.size ≤ 2 ^ 64) : region.Apart other := by
  intro address has hasToo
  simp only [Has] at *
  bv_omega

end Region

/-- The mask `-16` takes an address to the multiple of 16 at or below it. -/
theorem toNat_and_neg_sixteen (address : Word) :
    (address &&& (-16 : Word)).toNat = address.toNat - address.toNat % 16 := by
  have mask : (-16 : Word) = BitVec.allOnes 64 <<< 4 := by decide
  rw [mask, ← BitVec.shiftLeft_ushiftRight, BitVec.toNat_shiftLeft, BitVec.toNat_ushiftRight,
    Nat.shiftLeft_eq, Nat.shiftRight_eq_div_pow]
  have small := address.isLt
  omega

/-! ## Words in memory -/

/-- The byte at each address. -/
abbrev Memory := Word → BitVec 8

/-- Two memories are the same on a region. -/
def Agree (region : Region) (mem other : Memory) : Prop :=
  ∀ address, region.Has address → mem address = other address

theorem Agree.refl (region : Region) (mem : Memory) : Agree region mem mem := fun _ _ => rfl

theorem Agree.symm {region : Region} {mem other : Memory} (agree : Agree region mem other) :
    Agree region other mem := fun address has => (agree address has).symm

theorem Agree.trans {region : Region} {first second third : Memory}
    (head : Agree region first second) (tail : Agree region second third) :
    Agree region first third := fun address has => (head address has).trans (tail address has)

theorem Agree.mono {region outer : Region} {mem other : Memory} (agree : Agree outer mem other)
    (inside : region.Inside outer) : Agree region mem other :=
  fun address has => agree address (inside address has)

namespace Memory

/-- Bytes in a row as one number, the lowest first. -/
def loadBytes (mem : Memory) (address : Word) : (count : Nat) → BitVec (8 * count)
  | 0 => 0
  | count + 1 => loadBytes mem (address + 1) count ++ mem address

def load (mem : Memory) (address : Word) : Word := mem.loadBytes address 8

def store (mem : Memory) (address value : Word) : Memory := fun other =>
  if (Region.word address).Has other then value.extractLsb' (8 * (other - address).toNat) 8
  else mem other

theorem word_has_offset (address : Word) {offset : Nat} (small : offset < 8) :
    (Region.word address).Has (address + BitVec.ofNat 64 offset) := by
  simp only [Region.Has, Region.word]
  bv_omega

theorem getLsbD_loadBytes (mem : Memory) (address : Word) {count bit : Nat}
    (small : bit < 8 * count) : (mem.loadBytes address count).getLsbD bit =
      (mem (address + BitVec.ofNat 64 (bit / 8))).getLsbD (bit % 8) := by
  induction count generalizing address bit with
  | zero => exact absurd small (Nat.not_lt_zero bit)
  | succ count ih =>
      rw [loadBytes, BitVec.getLsbD_append]
      split_ifs with first
      · rw [Nat.div_eq_of_lt first, Nat.mod_eq_of_lt first, BitVec.add_zero]
      · obtain ⟨behind, rfl⟩ := Nat.exists_eq_add_of_le (Nat.le_of_not_lt first)
        have next : address + 1 + BitVec.ofNat 64 (behind / 8) =
            address + BitVec.ofNat 64 (behind / 8 + 1) := by
          bv_omega
        rw [Nat.add_sub_cancel_left, ih (address + 1) (by omega), next,
          Nat.add_div_left behind (by decide), Nat.add_mod_left]

theorem getLsbD_load (mem : Memory) (address : Word) {bit : Nat} (small : bit < 64) :
    (mem.load address).getLsbD bit =
      (mem (address + BitVec.ofNat 64 (bit / 8))).getLsbD (bit % 8) :=
  mem.getLsbD_loadBytes address small

theorem load_congr {mem other : Memory} {address : Word}
    (agree : Agree (Region.word address) mem other) : mem.load address = other.load address := by
  apply BitVec.eq_of_getLsbD_eq
  intro bit small
  have inWord : bit / 8 < 8 := by omega
  rw [getLsbD_load mem address small, getLsbD_load other address small,
    agree _ (word_has_offset address inWord)]

theorem agree_store {mem : Memory} {region : Region} {address : Word}
    (apart : region.Apart (Region.word address)) (value : Word) :
    Agree region (mem.store address value) mem :=
  fun other has => if_neg (apart other has)

theorem load_store (mem : Memory) (address value : Word) :
    (mem.store address value).load address = value := by
  apply BitVec.eq_of_getLsbD_eq
  intro bit small
  have inWord : bit / 8 < 8 := by omega
  have offset : (address + BitVec.ofNat 64 (bit / 8) - address).toNat = bit / 8 := by bv_omega
  rw [getLsbD_load _ address small, store, if_pos (word_has_offset address inWord), offset,
    BitVec.getLsbD_extractLsb', decide_eq_true (Nat.mod_lt bit (by decide)), Bool.true_and,
    Nat.div_add_mod]

theorem load_store_of_apart (mem : Memory) {address other : Word}
    (apart : (Region.word address).Apart (Region.word other)) (value : Word) :
    (mem.store other value).load address = mem.load address :=
  load_congr (agree_store apart value)

/-! ### Words in a row -/

/-- The last word is stored first. -/
def storeWords (mem : Memory) (address : Word) : List Word → Memory
  | [] => mem
  | value :: rest => (storeWords mem (address + 8) rest).store address value

def loadWords (mem : Memory) (address : Word) : Nat → List Word
  | 0 => []
  | count + 1 => mem.load address :: loadWords mem (address + 8) count

theorem agree_storeWords {mem : Memory} {region : Region} {address : Word} {values : List Word}
    (apart : region.Apart ⟨address, 8 * values.length⟩) (small : 8 * values.length ≤ 2 ^ 64) :
    Agree region (mem.storeWords address values) mem := by
  induction values generalizing address with
  | nil => exact Agree.refl region mem
  | cons value rest ih =>
      rw [List.length_cons] at apart small
      have first : (Region.word address).Inside ⟨address, 8 * (rest.length + 1)⟩ := by
        intro other has
        simp only [Region.Has, Region.word] at *
        omega
      have others : Region.Inside ⟨address + 8, 8 * rest.length⟩
          ⟨address, 8 * (rest.length + 1)⟩ := by
        intro other has
        simp only [Region.Has] at *
        bv_omega
      have below := ih (apart.mono (Region.Inside.refl region) others) (by omega)
      exact (agree_store (apart.mono (Region.Inside.refl region) first) value).trans below

theorem loadWords_congr {mem other : Memory} {address : Word} {count : Nat}
    (agree : Agree ⟨address, 8 * count⟩ mem other) (small : 8 * count ≤ 2 ^ 64) :
    mem.loadWords address count = other.loadWords address count := by
  induction count generalizing address with
  | zero => rfl
  | succ count ih =>
      have first : (Region.word address).Inside ⟨address, 8 * (count + 1)⟩ := by
        intro other has
        simp only [Region.Has, Region.word] at *
        omega
      have others : Region.Inside ⟨address + 8, 8 * count⟩ ⟨address, 8 * (count + 1)⟩ := by
        intro other has
        simp only [Region.Has] at *
        bv_omega
      rw [loadWords, loadWords, load_congr (agree.mono first),
        ih (agree.mono others) (by omega)]

/-- The words that were stored are loaded again. -/
theorem loadWords_storeWords (mem : Memory) (address : Word) (values : List Word)
    (small : 8 * values.length ≤ 2 ^ 64) :
    (mem.storeWords address values).loadWords address values.length = values := by
  induction values generalizing address with
  | nil => rfl
  | cons value rest ih =>
      rw [List.length_cons] at small
      have apart : Region.Apart ⟨address + 8, 8 * rest.length⟩ (Region.word address) := by
        intro other has hasToo
        simp only [Region.Has, Region.word] at *
        bv_omega
      rw [List.length_cons, loadWords, storeWords, load_store,
        loadWords_congr (agree_store apart value) (by omega), ih (address + 8) (by omega)]

/-- A word that is stored replaces one of the words in a row. -/
theorem loadWords_store (mem : Memory) (address value : Word) {index count : Nat}
    (inRow : index < count) (small : 8 * count ≤ 2 ^ 64) :
    (mem.store (address + BitVec.ofNat 64 (8 * index)) value).loadWords address count =
      (mem.loadWords address count).set index value := by
  induction count generalizing address index with
  | zero => exact absurd inRow (Nat.not_lt_zero index)
  | succ count ih =>
      cases index with
      | zero =>
          have apart : Region.Apart ⟨address + 8, 8 * count⟩ (Region.word address) := by
            intro other has hasToo
            simp only [Region.Has, Region.word] at *
            bv_omega
          have same : address + BitVec.ofNat 64 (8 * 0) = address := by simp
          rw [same, loadWords, loadWords, load_store,
            loadWords_congr (agree_store apart value) (by omega), List.set_cons_zero]
      | succ index =>
          have next : address + BitVec.ofNat 64 (8 * (index + 1)) =
              address + 8 + BitVec.ofNat 64 (8 * index) := by
            bv_omega
          have apart : (Region.word address).Apart
              (Region.word (address + 8 + BitVec.ofNat 64 (8 * index))) := by
            intro other has hasToo
            simp only [Region.Has, Region.word] at *
            bv_omega
          rw [loadWords, loadWords, next, load_store_of_apart mem apart, ih (address + 8)
            (Nat.lt_of_succ_lt_succ inRow) (by omega), List.set_cons_succ]

/-! ### Bytes set to zero -/

theorem load_zeros (address : Word) : load (fun _ => 0) address = 0 := by
  simp [load, loadBytes]

theorem loadWords_zeros (address : Word) (count : Nat) :
    loadWords (fun _ => 0) address count = List.replicate count 0 := by
  induction count generalizing address with
  | zero => rfl
  | succ count ih => rw [loadWords, load_zeros, ih, List.replicate_succ]

/-- `memset` of a region to zero -/
def zero (mem : Memory) (region : Region) : Memory := fun address =>
  if region.Has address then 0 else mem address

theorem agree_zero {mem : Memory} {region other : Region} (apart : region.Apart other) :
    Agree region (mem.zero other) mem :=
  fun address has => if_neg (apart address has)

end Memory

/-! ## Registers and instructions -/

inductive Reg where
  | rax | rbx | rcx | rdx | rsi | rdi | rbp | rsp
  | r8 | r9 | r10 | r11 | r12 | r13 | r14 | r15
  deriving DecidableEq, Repr

structure Machine where
  reg : Reg → Word
  mem : Memory

/-- An instruction with its operands in the order of the assembler, the destination last. -/
inductive Instr where
  /-- `leaq disp(base), dst` -/
  | lea (disp : Nat) (base dst : Reg)
  /-- `movq src, disp(base)` -/
  | store (src : Reg) (disp : Nat) (base : Reg)
  /-- `movq disp(base), dst` -/
  | load (disp : Nat) (base dst : Reg)
  /-- `xorq src, dst` -/
  | xor (src dst : Reg)
  /-- `pushq disp(base)` -/
  | push (disp : Nat) (base : Reg)
  deriving DecidableEq, Repr

namespace Machine

/-- The address of the operand `disp(base)`. -/
def operand (m : Machine) (disp : Nat) (base : Reg) : Word := m.reg base + BitVec.ofNat 64 disp

def setReg (m : Machine) (dst : Reg) (value : Word) : Machine where
  reg := Function.update m.reg dst value
  mem := m.mem

/-- A word is pushed. -/
def push (m : Machine) (value : Word) : Machine where
  reg := Function.update m.reg .rsp (m.reg .rsp - 8)
  mem := m.mem.store (m.reg .rsp - 8) value

def exec (m : Machine) : Instr → Machine
  | .lea disp base dst => m.setReg dst (m.operand disp base)
  | .store src disp base => { m with mem := m.mem.store (m.operand disp base) (m.reg src) }
  | .load disp base dst => m.setReg dst (m.mem.load (m.operand disp base))
  | .xor src dst => m.setReg dst (m.reg dst ^^^ m.reg src)
  | .push disp base => m.push (m.mem.load (m.operand disp base))

/-- Straight-line code. -/
def execAll (m : Machine) : List Instr → Machine
  | [] => m
  | instr :: rest => (m.exec instr).execAll rest

/-- `ret`: the address it goes to, and the machine there -/
def ret (m : Machine) : Word × Machine :=
  (m.mem.load (m.reg .rsp), m.setReg .rsp (m.reg .rsp + 8))

/-- `call` of a routine whose code before its `ret` is `body`, from in front of `back` -/
def call (m : Machine) (body : List Instr) (back : Word) : Word × Machine :=
  ((m.push back).execAll body).ret

theorem execAll_append (m : Machine) (first second : List Instr) :
    m.execAll (first ++ second) = (m.execAll first).execAll second := by
  induction first generalizing m with
  | nil => rfl
  | cons instr rest ih => exact ih (m.exec instr)

end Machine

end SimpleWebServer.Lib.X64
