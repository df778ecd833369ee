import Libdft.Moves
import Libdft.Syscall

/-! What Pin says about an instruction, and the calls that the instrumentation inserts before
it. A call is run once for each execution with the arguments that Pin passes it then; a
predicated call is left out where the instruction is not executed. -/
namespace Libdft.Core

open TagMap TagTraits

/-- The opcodes whose `case` of `ins_inspect` does something; the others are not told apart. -/
inductive Iclass where
  | adc | add | addLock | addpd | addsd | addss | and | or | por
  | xor | sbb | sub | pxor | subsd | psubb | psubw | psubd | xorps | xorpd
  | div | idiv | mul | imul | mulsd | mulpd | divsd | bsf | bsr | tzcnt | mov
  | movd | movq | movaps | movapd | movdqu | movdqa | movups | movupd | movss
  | vmovd | vmovq | vmovaps | vmovapd | vmovdqu | vmovdqa | vmovups | vmovupd | vmovss
  | movsdXmm | cvtsi2sd | cvtsd2si | movlpd | movlps | movhpd | movhps
  | cmovb | cmovbe | cmovl | cmovle | cmovnb | cmovnbe | cmovnl | cmovnle
  | cmovno | cmovnp | cmovns | cmovnz | cmovo | cmovp | cmovs | cmovz
  | movbe | movsx | movzx | movsxd | cbw | cwd | cwde | cdq | cdqe | cqo
  | setb | setbe | setl | setle | setnb | setnbe | setnl | setnle
  | setno | setnp | setns | setnz | seto | setp | sets | setz
  | stmxcsr | smsw | str | lar | rdpmc | rdtsc | cpuid | lahf
  | cmpxchg | cmpxchgLock | xchg | xadd | xaddLock | xlat
  | lodsb | lodsw | lodsd | lodsq | stosb | stosw | stosd | stosq | movsq | movsd | movsw | movsb
  | salc | pop | push | popa | popad | pusha | pushad | pushf | pushfd | pushfq | lea | pcmpeqb
  | ignored
  deriving DecidableEq, Repr

/-- Operands that are not registers come with their size in bytes. -/
inductive Operand where
  | reg (r : Reg)
  | mem (size : Nat)
  | imm (size : Nat)
  | other (size : Nat)
  deriving DecidableEq, Repr

/-- `INS` -/
structure Ins where
  opcode : Iclass
  operands : List Operand
  operandIsImplicit : Nat → Bool
  memoryBaseReg : Reg
  memoryIndexReg : Reg
  repPrefix : Bool
  repCountRegister : Reg

namespace Operand

def isMemory : Operand → Bool | mem _ => true | _ => false

/-- Of operands that are not registers. -/
def size : Operand → Nat
  | mem size | imm size | other size => size
  | reg _ => 0

end Operand

namespace Ins

def operandIsMemory (ins : Ins) (k : Nat) : Bool := ins.operands[k]?.any Operand.isMemory

def operandIsReg (ins : Ins) (k : Nat) : Bool :=
  match ins.operands[k]? with
  | some (.reg _) => true
  | _ => false

def operandIsImmediate (ins : Ins) (k : Nat) : Bool :=
  match ins.operands[k]? with
  | some (.imm _) => true
  | _ => false

def operandReg (ins : Ins) (k : Nat) : Reg :=
  match ins.operands[k]? with
  | some (.reg r) => r
  | _ => .invalid

/-- In bits. -/
def operandWidth (ins : Ins) (k : Nat) : Nat := 8 * (ins.operands[k]?.map Operand.size).getD 0

def memoryOperandCount (ins : Ins) : Nat := ins.operands.countP Operand.isMemory

/-- `INS_MemoryWriteSize`: the size of the first memory operand. -/
def memoryWriteSize (ins : Ins) : Nat := ((ins.operands.find? Operand.isMemory).map Operand.size).getD 0

variable {ins : Ins} {o : Operand} {r r' : Reg} {n : Nat} {rest : List Operand}

theorem operandReg_first (list : ins.operands = .reg r :: rest) : ins.operandReg 0 = r := by simp [operandReg,list]

theorem operandReg_second (list : ins.operands = o :: .reg r :: rest) : ins.operandReg 1 = r := by simp [operandReg,list]

theorem memory_second (list : ins.operands = o :: .mem n :: rest) : ins.operandIsMemory 1 := by
  simp [operandIsMemory,list,Operand.isMemory]

theorem count_registers (list : ins.operands = .reg r :: .reg r' :: rest) (none : rest.countP Operand.isMemory = 0) :
    ins.memoryOperandCount = 0 := by
  simp [memoryOperandCount,list,Operand.isMemory,none]

theorem count_load (list : ins.operands = .reg r :: .mem n :: rest) : ins.memoryOperandCount ≠ 0 := by
  simp [memoryOperandCount,list,Operand.isMemory]

theorem count_store (list : ins.operands = .mem n :: rest) : ins.memoryOperandCount ≠ 0 := by
  simp [memoryOperandCount,list,Operand.isMemory]

end Ins

/-- What Pin passes to the calls at one execution. -/
structure Exec where
  memoryreadEa : BitVec 64
  memorywriteEa : BitVec 64
  regValue : Reg → BitVec 64
  /-- The instruction is executed: its condition holds, or its count is not zero. -/
  executed : Bool
  firstRepIteration : Bool
  memory : Syscall.Memory

/-- An execution that reads and writes one address, with nothing in registers or memory. -/
def Exec.plain (addr : BitVec 64) : Exec := ⟨addr,addr,fun _ => 0,true,true,fun _ => 0⟩

abbrev Calls (T : Type) := List (Exec → Analysis T Unit)

section Insert
variable {T : Type}

def call (fn : Analysis T Unit) : Calls T := [fun _ => fn]
def rCall (fn : Nat → Analysis T Unit) (dst : Reg) : Calls T := [fun _ => fn (regIndx dst)]
def mCallW (fn : BitVec 64 → Analysis T Unit) : Calls T := [fun exec => fn exec.memorywriteEa]
def mCallR (fn : BitVec 64 → Analysis T Unit) : Calls T := [fun exec => fn exec.memoryreadEa]
def r2rCall (fn : Nat → Nat → Analysis T Unit) (dst src : Reg) : Calls T := [fun _ => fn (regIndx dst) (regIndx src)]
def m2rCall (fn : Nat → BitVec 64 → Analysis T Unit) (dst : Reg) : Calls T :=
  [fun exec => fn (regIndx dst) exec.memoryreadEa]
def r2mCall (fn : BitVec 64 → Nat → Analysis T Unit) (src : Reg) : Calls T :=
  [fun exec => fn exec.memorywriteEa (regIndx src)]
def rr2rCall (fn : Nat → Nat → Nat → Analysis T Unit) (dst src1 src2 : Reg) : Calls T :=
  [fun _ => fn (regIndx dst) (regIndx src1) (regIndx src2)]

/-- `INS_InsertPredicatedCall` -/
def predicated (calls : Calls T) : Calls T := calls.map fun call exec => if exec.executed then call exec else pure ()

def r2rCallP (fn : Nat → Nat → Analysis T Unit) (dst src : Reg) : Calls T := predicated (r2rCall fn dst src)
def m2rCallP (fn : Nat → BitVec 64 → Analysis T Unit) (dst : Reg) : Calls T := predicated (m2rCall fn dst)
def m2mCall (fn : BitVec 64 → BitVec 64 → Analysis T Unit) : Calls T :=
  predicated [fun exec => fn exec.memorywriteEa exec.memoryreadEa]

/-- `INS_InsertIfCall` and `INS_InsertThenCall` -/
def ifThenCall (test : Exec → Analysis T Bool) (fn : Exec → Analysis T Unit) : Calls T :=
  [fun exec => do if ← test exec then fn exec]

/-- `tagmap_clrn` on the running process's shadow memory. -/
def clearMemory [TagTraits T] (addr : BitVec 64) (n : Nat) : Analysis T Unit :=
  modify fun s => { s with tagDir := tagmapClrn s.tagDir addr.toNat n }

def mClearN [TagTraits T] (n : Nat) : Calls T := mCallW fun addr => clearMemory addr n

/-- The calls of one execution, in the order they were inserted. -/
def Calls.run (calls : Calls T) (exec : Exec) : Analysis T Unit := calls.forM fun call => call exec

theorem run_single (fn : Exec → Analysis T Unit) (exec : Exec) : Calls.run [fn] exec = fn exec := by
  simp [Calls.run]

@[simp] theorem run_nil (exec : Exec) : Calls.run ([] : Calls T) exec = pure () := rfl

@[simp] theorem run_append (calls calls' : Calls T) (exec : Exec) :
    Calls.run (calls ++ calls') exec = (do calls.run exec; Calls.run calls' exec) := by
  simp [Calls.run]

@[simp] theorem run_call (fn : Analysis T Unit) (exec : Exec) : (call fn).run exec = fn := run_single _ exec
@[simp] theorem run_rCall (fn : Nat → Analysis T Unit) (dst : Reg) (exec : Exec) :
    (rCall fn dst).run exec = fn (regIndx dst) := run_single _ exec
@[simp] theorem run_mCallW (fn : BitVec 64 → Analysis T Unit) (exec : Exec) :
    (mCallW fn).run exec = fn exec.memorywriteEa := run_single _ exec
@[simp] theorem run_mCallR (fn : BitVec 64 → Analysis T Unit) (exec : Exec) :
    (mCallR fn).run exec = fn exec.memoryreadEa := run_single _ exec
@[simp] theorem run_r2rCall (fn : Nat → Nat → Analysis T Unit) (dst src : Reg) (exec : Exec) :
    (r2rCall fn dst src).run exec = fn (regIndx dst) (regIndx src) := run_single _ exec
@[simp] theorem run_m2rCall (fn : Nat → BitVec 64 → Analysis T Unit) (dst : Reg) (exec : Exec) :
    (m2rCall fn dst).run exec = fn (regIndx dst) exec.memoryreadEa := run_single _ exec
@[simp] theorem run_r2mCall (fn : BitVec 64 → Nat → Analysis T Unit) (src : Reg) (exec : Exec) :
    (r2mCall fn src).run exec = fn exec.memorywriteEa (regIndx src) := run_single _ exec
@[simp] theorem run_rr2rCall (fn : Nat → Nat → Nat → Analysis T Unit) (dst src1 src2 : Reg) (exec : Exec) :
    (rr2rCall fn dst src1 src2).run exec = fn (regIndx dst) (regIndx src1) (regIndx src2) := run_single _ exec
@[simp] theorem run_mClearN [TagTraits T] (n : Nat) (exec : Exec) :
    (mClearN n : Calls T).run exec = clearMemory exec.memorywriteEa n := run_single _ exec
@[simp] theorem run_ifThenCall (test : Exec → Analysis T Bool) (fn : Exec → Analysis T Unit) (exec : Exec) :
    (ifThenCall test fn).run exec = (do if ← test exec then fn exec) := run_single _ exec

/-- Nothing is done for an instruction that is not executed. -/
@[simp] theorem run_predicated (calls : Calls T) (exec : Exec) :
    (predicated calls).run exec = if exec.executed then calls.run exec else pure () := by
  by_cases executed : exec.executed
  · simp [Calls.run,predicated,executed]
  · induction calls with
    | nil => simp [predicated,executed]
    | cons call calls ih => simpa [Calls.run,predicated,executed] using ih

@[simp] theorem run_r2rCallP (fn : Nat → Nat → Analysis T Unit) (dst src : Reg) (exec : Exec) :
    (r2rCallP fn dst src).run exec = if exec.executed then fn (regIndx dst) (regIndx src) else pure () := by
  simp [r2rCallP]
@[simp] theorem run_m2rCallP (fn : Nat → BitVec 64 → Analysis T Unit) (dst : Reg) (exec : Exec) :
    (m2rCallP fn dst).run exec = if exec.executed then fn (regIndx dst) exec.memoryreadEa else pure () := by
  simp [m2rCallP]
@[simp] theorem run_m2mCall (fn : BitVec 64 → BitVec 64 → Analysis T Unit) (exec : Exec) :
    (m2mCall fn).run exec = if exec.executed then fn exec.memorywriteEa exec.memoryreadEa else pure () := by
  simp [m2mCall,run_single]

theorem look_clearMemory [TagTraits T] (s : TagState T) (addr : BitVec 64) (n : Nat) :
    ∃ s', clearMemory addr n s = .ok ((),s') ∧ ∀ p, s'.look p = s.look p ∨ s'.look p = some clearedVal := by
  refine ⟨{ s with tagDir := tagmapClrn s.tagDir addr.toNat n },rfl,fun p => ?_⟩
  cases p with
  | reg row byte => exact .inl rfl
  | mem a =>
    have cleared := getb_clrn tagmapSetb_puts s.tagDir addr.toNat n a.toNat
    show tagmapGetb (clrn tagmapSetb s.tagDir addr.toNat n) a.toNat = _ ∨ tagmapGetb (clrn tagmapSetb _ _ n) _ = _
    rw [cleared]
    split
    · exact .inr rfl
    · exact .inl rfl

end Insert

/-! Choices that several dispatchers make in the same order. -/

/-- `REG_is_gr64`, `REG_is_gr32` and so on down to `REG_is_mm`. -/
def Reg.byClass (r : Reg) (opq opl opw opx opy rest : α) : α :=
  if r.isGr64 then opq
  else if r.isGr32 then opl
  else if r.isGr16 then opw
  else if r.isXmm then opx
  else if r.isYmm then opy
  else if r.isMm then opq
  else rest

/-- The halves of a word that two byte registers are. -/
def byHalf (dst src : Reg) (opbL opbU opbLu opbUl : α) : α :=
  if dst.isLower8 && src.isLower8 then opbL
  else if dst.isUpper8 && src.isUpper8 then opbU
  else if dst.isLower8 then opbLu
  else opbUl

/-- Bytes that the two dispatchers by class move for a register. -/
def classWidth (r : Reg) : Nat := r.byClass 8 4 2 16 32 1

/-- Where byte `i` of a register has its tag. -/
def regByte (r : Reg) (i : Nat) : Place := rtags (regIndx r) (if r.isUpper8 then 1 + i else i)

theorem Reg.byClass_ind {p : α → Prop} {r : Reg} (q : p opq) (l : p opl) (w : p opw) (x : p opx) (y : p opy)
    (other : p rest) : p (r.byClass opq opl opw opx opy rest) := by
  cases r <;> assumption

theorem classWidth_le (r : Reg) : classWidth r ≤ 32 := by
  apply Reg.byClass_ind (p := (· ≤ 32)) <;> decide

theorem regByte_inside (r : Reg) {i : Nat} (small : i < classWidth r) : (regByte r i).Inside := by
  have byte : (if r.isUpper8 then 1 + i else i) < tagsPerGpr := by
    cases r with
    | upper8 h =>
      obtain rfl : i = 0 := Nat.lt_one_iff.mp small
      show 1 < tagsPerGpr
      decide
    | invalid | gr64 _ | gr32 _ | gr16 _ | lower8 _ | xmm _ | ymm _ | zmm _ | mm _ | st _ | seg _ | other _ =>
      exact Nat.lt_of_lt_of_le small (classWidth_le _)
  exact ⟨regIndx_le r,byte⟩

theorem regByte_inj (r : Reg) (i j : Nat) : regByte r i = regByte r j ↔ i = j := by
  unfold regByte
  split <;> simp [rtags_inj]

end Libdft.Core
