import SimpleWebServer.Lib.X64

/-!
# The switch from one coroutine to another

`co_swap` saves the registers of the running coroutine in its `Coroutine` and takes over
those of another.  Here its instructions are run one by one: what they do to the registers
and to memory, byte for byte.
-/

namespace SimpleWebServer.Co

open SimpleWebServer.Lib.X64

/-- `Coroutine::regs_t`, which is the beginning of a `Coroutine`. -/
structure Regs where
  r15 : Word
  r14 : Word
  r13 : Word
  r12 : Word
  r9 : Word
  r8 : Word
  rbp : Word
  rdi : Word
  rsi : Word
  ret : Word
  rdx : Word
  rcx : Word
  rbx : Word
  rsp : Word
  deriving DecidableEq, Repr

/-- `co_swap` up to the `xorq`: the registers are saved in the `Coroutine` in `rdi`. -/
def coSwapSave : List Instr :=
  [.lea 0 .rsp .rax,
    .store .rax 104 .rdi,
    .store .rbx 96 .rdi,
    .store .rcx 88 .rdi,
    .store .rdx 80 .rdi,
    .load 0 .rax .rax,
    .store .rax 72 .rdi,
    .store .rsi 64 .rdi,
    .store .rdi 56 .rdi,
    .store .rbp 48 .rdi,
    .store .r8 40 .rdi,
    .store .r9 32 .rdi,
    .store .r12 24 .rdi,
    .store .r13 16 .rdi,
    .store .r14 8 .rdi,
    .store .r15 0 .rdi,
    .xor .rax .rax]

/-- `co_swap` behind it: those of the `Coroutine` in `rsi` are taken over. -/
def coSwapTake : List Instr :=
  [.load 48 .rsi .rbp,
    .load 104 .rsi .rsp,
    .load 0 .rsi .r15,
    .load 8 .rsi .r14,
    .load 16 .rsi .r13,
    .load 24 .rsi .r12,
    .load 32 .rsi .r9,
    .load 40 .rsi .r8,
    .load 56 .rsi .rdi,
    .load 80 .rsi .rdx,
    .load 88 .rsi .rcx,
    .load 96 .rsi .rbx,
    .lea 8 .rsp .rsp,
    .push 72 .rsi,
    .load 64 .rsi .rsi]

/-- `co_swap`, whose last instruction is a `ret` -/
def coSwap : List Instr := coSwapSave ++ coSwapTake

namespace Regs

def words (regs : Regs) : List Word :=
  [regs.r15, regs.r14, regs.r13, regs.r12, regs.r9, regs.r8, regs.rbp, regs.rdi, regs.rsi,
    regs.ret, regs.rdx, regs.rcx, regs.rbx, regs.rsp]

/-- The bytes of `regs` in the `Coroutine` at the address `co`. -/
def region (co : Word) : Region := ⟨co, 112⟩

/-- What the `Coroutine` at the address `co` has in `regs`. -/
def ofMemory (mem : Memory) (co : Word) : Regs where
  r15 := mem.load co
  r14 := mem.load (co + 8)
  r13 := mem.load (co + 16)
  r12 := mem.load (co + 24)
  r9 := mem.load (co + 32)
  r8 := mem.load (co + 40)
  rbp := mem.load (co + 48)
  rdi := mem.load (co + 56)
  rsi := mem.load (co + 64)
  ret := mem.load (co + 72)
  rdx := mem.load (co + 80)
  rcx := mem.load (co + 88)
  rbx := mem.load (co + 96)
  rsp := mem.load (co + 104)

/-- The registers at the entry of a routine, with its return address. -/
def ofMachine (m : Machine) : Regs where
  r15 := m.reg .r15
  r14 := m.reg .r14
  r13 := m.reg .r13
  r12 := m.reg .r12
  r9 := m.reg .r9
  r8 := m.reg .r8
  rbp := m.reg .rbp
  rdi := m.reg .rdi
  rsi := m.reg .rsi
  ret := m.mem.load (m.reg .rsp)
  rdx := m.reg .rdx
  rcx := m.reg .rcx
  rbx := m.reg .rbx
  rsp := m.reg .rsp

/-- The registers behind the `ret`; `r10` and `r11` are not touched. -/
def taken (regs : Regs) (reg : Reg → Word) : Reg → Word
  | .rax => 0
  | .rbx => regs.rbx
  | .rcx => regs.rcx
  | .rdx => regs.rdx
  | .rsi => regs.rsi
  | .rdi => regs.rdi
  | .rbp => regs.rbp
  | .rsp => regs.rsp + 8
  | .r8 => regs.r8
  | .r9 => regs.r9
  | .r10 => reg .r10
  | .r11 => reg .r11
  | .r12 => regs.r12
  | .r13 => regs.r13
  | .r14 => regs.r14
  | .r15 => regs.r15

end Regs

/-! ## A coroutine that has not run -/

/-- `st_size` -/
def stSize : Nat := 128 * 1024

/-- `sp` in `set_callback`, for a stack that begins at `st` -/
def firstStackPointer (st : Word) : Word := (st + BitVec.ofNat 64 stSize - 8) &&& (-16 : Word)

/--
What `set_callback` writes to `regs` and `st` of the `Coroutine` at `co`, whose `co_fun` is at
`coFun`.  The stack is filled when `st` gets its size, which is the first time.
-/
def setCallback (mem : Memory) (co st coFun : Word) (first : Bool) : Memory :=
  let cleared := mem.zero (Regs.region co)
  let resized := if first then cleared.zero ⟨st, stSize⟩ else cleared
  let sp := firstStackPointer st
  (((resized.store sp 0).store (co + 104) sp).store (co + 72) coFun).store (co + 56) co

/-- The registers with which it begins. -/
def Regs.fresh (co st coFun : Word) : Regs where
  r15 := 0
  r14 := 0
  r13 := 0
  r12 := 0
  r9 := 0
  r8 := 0
  rbp := 0
  rdi := co
  rsi := 0
  ret := coFun
  rdx := 0
  rcx := 0
  rbx := 0
  rsp := firstStackPointer st

/-! ## What the instructions do -/

namespace Regs

theorem words_length (regs : Regs) : regs.words.length = 14 := rfl

/-- The registers are written to the `Coroutine` at the address `co`. -/
def save (regs : Regs) (mem : Memory) (co : Word) : Memory := mem.storeWords co regs.words

theorem ofMemory_words (mem : Memory) (co : Word) :
    (ofMemory mem co).words = mem.loadWords co 14 := by
  simp [words, ofMemory, Memory.loadWords, BitVec.add_assoc]

theorem words_injective {regs other : Regs} (same : regs.words = other.words) : regs = other := by
  cases regs
  cases other
  simpa [words] using same

/-- What was saved is found again. -/
theorem ofMemory_save (regs : Regs) (mem : Memory) (co : Word) :
    ofMemory (regs.save mem co) co = regs := by
  apply words_injective
  rw [ofMemory_words]
  exact mem.loadWords_storeWords co regs.words (by rw [words_length]; decide)

theorem ofMemory_congr {mem other : Memory} {co : Word} (agree : Agree (region co) mem other) :
    ofMemory mem co = ofMemory other co := by
  apply words_injective
  rw [ofMemory_words, ofMemory_words]
  exact Memory.loadWords_congr agree (by decide)

/-- The bytes outside of the `Coroutine` stay. -/
theorem agree_save (regs : Regs) (mem : Memory) {co : Word} {other : Region}
    (apart : other.Apart (region co)) : Agree other (regs.save mem co) mem :=
  Memory.agree_storeWords apart (by rw [words_length]; decide)

end Regs

/-- The first part saves the registers with the return address, and clears `rax`. -/
theorem execAll_coSwapSave {m : Machine}
    (apart : (Region.word (m.reg .rsp)).Apart (Regs.region (m.reg .rdi))) :
    m.execAll coSwapSave =
      ⟨Function.update m.reg .rax 0, (Regs.ofMachine m).save m.mem (m.reg .rdi)⟩ := by
  -- four words have been saved when the return address is read
  have saved : ((Regs.region (m.reg .rdi)).part 80 32).Inside (Regs.region (m.reg .rdi)) := by
    apply Region.part_inside <;> simp [Regs.region]
  have room : 8 * [m.reg .rdx, m.reg .rcx, m.reg .rbx, m.reg .rsp].length ≤ 2 ^ 64 := by simp
  have kept : Agree (Region.word (m.reg .rsp)) (m.mem.storeWords (m.reg .rdi + 80)
      [m.reg .rdx, m.reg .rcx, m.reg .rbx, m.reg .rsp]) m.mem :=
    Memory.agree_storeWords (apart.mono (Region.Inside.refl _) saved) room
  have back := Memory.load_congr kept
  simp only [Memory.storeWords, BitVec.add_assoc, BitVec.reduceAdd, BitVec.ofNat_eq_ofNat] at back
  simp [coSwapSave, Machine.execAll, Machine.exec, Machine.operand, Machine.setReg,
    Function.update, Regs.save, Regs.words, Regs.ofMachine, Memory.storeWords, BitVec.add_assoc,
    back]

/-- The second part takes the registers over, and puts the return address under them. -/
theorem ret_execAll_coSwapTake {m : Machine}
    (apart : (Regs.region (m.reg .rsi)).Apart
      (Region.word (Regs.ofMemory m.mem (m.reg .rsi)).rsp)) :
    (m.execAll coSwapTake).ret =
      ((Regs.ofMemory m.mem (m.reg .rsi)).ret,
        ⟨Function.update ((Regs.ofMemory m.mem (m.reg .rsi)).taken m.reg) .rax (m.reg .rax),
          m.mem.store (Regs.ofMemory m.mem (m.reg .rsi)).rsp
            (Regs.ofMemory m.mem (m.reg .rsi)).ret⟩) := by
  have part : ((Regs.region (m.reg .rsi)).part 64 8).Inside (Regs.region (m.reg .rsi)) := by
    apply Region.part_inside <;> simp [Regs.region]
  have rsi := Memory.load_store_of_apart m.mem (apart.mono part (Region.Inside.refl _))
    (Regs.ofMemory m.mem (m.reg .rsi)).ret
  simp only [Regs.region, Regs.ofMemory, BitVec.ofNat_eq_ofNat] at rsi
  have reg : (m.execAll coSwapTake).ret.2.reg =
      Function.update ((Regs.ofMemory m.mem (m.reg .rsi)).taken m.reg) .rax (m.reg .rax) := by
    funext name
    cases name <;>
      simp [coSwapTake, Machine.execAll, Machine.exec, Machine.operand, Machine.setReg,
        Machine.ret, Machine.push, Function.update, Regs.ofMemory, Regs.taken, rsi]
  have mem : (m.execAll coSwapTake).ret.2.mem = m.mem.store
      (Regs.ofMemory m.mem (m.reg .rsi)).rsp (Regs.ofMemory m.mem (m.reg .rsi)).ret := by
    simp [coSwapTake, Machine.execAll, Machine.exec, Machine.operand, Machine.setReg,
      Machine.ret, Machine.push, Function.update, Regs.ofMemory]
  have target : (m.execAll coSwapTake).ret.1 = (Regs.ofMemory m.mem (m.reg .rsi)).ret := by
    simp [coSwapTake, Machine.execAll, Machine.exec, Machine.operand, Machine.setReg,
      Machine.ret, Machine.push, Function.update, Regs.ofMemory, Memory.load_store]
  rw [← reg, ← mem, ← target]

/-- The memory once the caller of `co_swap` has been saved. -/
def savedMemory (m : Machine) (back : Word) : Memory :=
  (Regs.ofMachine (m.push back)).save (m.push back).mem (m.reg .rdi)

/-- What a call of `co_swap` does; `m` is the machine in front of the call. -/
theorem call_coSwap {m : Machine} {back : Word} {found : Regs}
    (savedApart : (Region.word (m.reg .rsp - 8)).Apart (Regs.region (m.reg .rdi)))
    (isFound : Regs.ofMemory (savedMemory m back) (m.reg .rsi) = found)
    (foundApart : (Regs.region (m.reg .rsi)).Apart (Region.word found.rsp)) :
    m.call coSwap back =
      (found.ret, ⟨found.taken m.reg, (savedMemory m back).store found.rsp found.ret⟩) := by
  let saved : Machine := ⟨Function.update (m.push back).reg .rax 0, savedMemory m back⟩
  have saves : (m.push back).execAll coSwapSave = saved := execAll_coSwapSave savedApart
  have rsi : saved.reg .rsi = m.reg .rsi := by simp [saved, Machine.push]
  have takes : (saved.execAll coSwapTake).ret = (found.ret,
      ⟨Function.update (found.taken saved.reg) .rax (saved.reg .rax),
        saved.mem.store found.rsp found.ret⟩) := by
    have same : Regs.ofMemory saved.mem (saved.reg .rsi) = found := by rw [rsi, ← isFound]
    rw [← same] at foundApart ⊢
    apply ret_execAll_coSwapTake
    rw [rsi] at foundApart ⊢
    exact foundApart
  have reg : Function.update (found.taken saved.reg) .rax (saved.reg .rax) =
      found.taken m.reg := by
    funext name
    cases name <;> simp [saved, Regs.taken, Machine.push, Function.update]
  rw [Machine.call, coSwap, Machine.execAll_append, saves, takes, reg]

/-! ## What `set_callback` does -/

namespace Regs

theorem words_store (mem : Memory) (co value : Word) {index : Nat} (inRegs : index < 14) :
    (ofMemory (mem.store (co + BitVec.ofNat 64 (8 * index)) value) co).words =
      (ofMemory mem co).words.set index value := by
  rw [ofMemory_words, ofMemory_words, mem.loadWords_store co value inRegs (by decide)]

theorem words_zero (mem : Memory) (co : Word) :
    (ofMemory (mem.zero (region co)) co).words = List.replicate 14 0 := by
  have agree : Agree (region co) (mem.zero (region co)) (fun _ => 0) := fun _ has => if_pos has
  rw [ofMemory_congr agree, ofMemory_words, Memory.loadWords_zeros]

end Regs

/-- The first word is on the stack. -/
theorem firstStackPointer_bounds {st : Word} (noWrap : st.toNat + stSize ≤ 2 ^ 64) :
    stSize - 24 < (firstStackPointer st - st).toNat ∧
      (firstStackPointer st - st).toNat + 8 ≤ stSize := by
  have masked := toNat_and_neg_sixteen (st + BitVec.ofNat 64 stSize - 8)
  rw [firstStackPointer]
  generalize (st + BitVec.ofNat 64 stSize - 8) &&& (-16 : Word) = sp at *
  have top : (st + BitVec.ofNat 64 stSize - 8).toNat = st.toNat + stSize - 8 := by
    simp only [stSize] at *
    bv_omega
  rw [top] at masked
  simp only [stSize] at *
  bv_omega

theorem firstStackPointer_aligned (st : Word) : (firstStackPointer st).toNat % 16 = 0 := by
  rw [firstStackPointer, toNat_and_neg_sixteen]
  omega

/--
The word behind it, where `co_fun` has its return address, is on the stack when `st` begins in
the first half of sixteen bytes.
-/
theorem word_behind_firstStackPointer_iff {st : Word} (noWrap : st.toNat + stSize ≤ 2 ^ 64) :
    (Region.word (firstStackPointer st + 8)).Inside ⟨st, stSize⟩ ↔ st.toNat % 16 < 8 := by
  have bounds := firstStackPointer_bounds noWrap
  have aligned := firstStackPointer_aligned st
  simp only [stSize] at bounds noWrap
  constructor
  · intro inside
    have last := inside (firstStackPointer st + 15) (by
      simp only [Region.Has, Region.word]
      bv_omega)
    simp only [Region.Has, stSize] at last
    bv_omega
  · intro firstHalf address has
    simp only [Region.Has, Region.word, stSize] at *
    bv_omega

theorem word_firstStackPointer_inside {st : Word} (noWrap : st.toNat + stSize ≤ 2 ^ 64) :
    (Region.word (firstStackPointer st)).Inside ⟨st, stSize⟩ := by
  have bounds := firstStackPointer_bounds noWrap
  intro address has
  simp only [Region.Has, Region.word, stSize] at *
  bv_omega

section setCallback

variable {mem : Memory} {co st coFun : Word} {first : Bool}

/-- The first resume takes over the fresh registers. -/
theorem ofMemory_setCallback (apart : (Regs.region co).Apart ⟨st, stSize⟩)
    (noWrap : st.toNat + stSize ≤ 2 ^ 64) :
    Regs.ofMemory (setCallback mem co st coFun first) co = Regs.fresh co st coFun := by
  have resized (cleared : Memory) :
      Agree (Regs.region co) (if first then cleared.zero ⟨st, stSize⟩ else cleared) cleared := by
    split
    · exact Memory.agree_zero apart
    · exact Agree.refl _ _
  have marked (other : Memory) : Agree (Regs.region co) (other.store (firstStackPointer st) 0)
      other :=
    Memory.agree_store (apart.mono (Region.Inside.refl _)
      (word_firstStackPointer_inside noWrap)) 0
  have cleared := (marked _).trans (resized (mem.zero (Regs.region co)))
  apply Regs.words_injective
  change (Regs.ofMemory (((Memory.store _ (co + BitVec.ofNat 64 (8 * 13)) _).store
    (co + BitVec.ofNat 64 (8 * 9)) _).store (co + BitVec.ofNat 64 (8 * 7)) _) co).words = _
  rw [Regs.words_store _ co _ (by decide), Regs.words_store _ co _ (by decide),
    Regs.words_store _ co _ (by decide), Regs.ofMemory_congr cleared, Regs.words_zero]
  rfl

/-- What is neither in the `Coroutine` nor on its stack stays. -/
theorem agree_setCallback {other : Region} (apartRegs : other.Apart (Regs.region co))
    (apartStack : other.Apart ⟨st, stSize⟩) (noWrap : st.toNat + stSize ≤ 2 ^ 64) :
    Agree other (setCallback mem co st coFun first) mem := by
  have small : (Regs.region co).size ≤ 2 ^ 64 := by simp [Regs.region]
  have kept (values : Memory) (value : Word) {offset : Nat} (fits : offset + 8 ≤ 112) :
      Agree other (values.store (co + BitVec.ofNat 64 offset) value) values :=
    Memory.agree_store (apartRegs.mono (Region.Inside.refl _)
      (Region.part_inside fits small)) value
  have resized (cleared : Memory) :
      Agree other (if first then cleared.zero ⟨st, stSize⟩ else cleared) cleared := by
    split
    · exact Memory.agree_zero apartStack
    · exact Agree.refl _ _
  have marked (values : Memory) : Agree other (values.store (firstStackPointer st) 0) values :=
    Memory.agree_store (apartStack.mono (Region.Inside.refl _)
      (word_firstStackPointer_inside noWrap)) 0
  have cleared : Agree other (mem.zero (Regs.region co)) mem := Memory.agree_zero apartRegs
  exact (kept _ co (by decide)).trans ((kept _ coFun (by decide)).trans
    ((kept _ _ (by decide)).trans ((marked _).trans ((resized _).trans cleared))))

end setCallback

end SimpleWebServer.Co
