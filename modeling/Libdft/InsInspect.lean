import Libdft.InsBinary
import Libdft.InsXchg

/-! `libdft_core.cpp`: the routines that name their registers, and the switch over opcodes. A
body of the switch that falls through into the next one is followed by it here. -/
namespace Libdft.Core

open TagTraits TagOps

variable {T : Type} [TagOps T]

section Routines

def cbw : Analysis T Unit := copy (rtags dftRegRax 1) (rtags dftRegRax 0)
def cwde : Analysis T Unit := copyEach 2 (fun i => rtags dftRegRax (i + 2)) (rtags dftRegRax)
def cdqe : Analysis T Unit := copyEach 4 (fun i => rtags dftRegRax (i + 4)) (rtags dftRegRax)
def cwd : Analysis T Unit := copyEach 2 (rtags dftRegRdx) (rtags dftRegRax)
def cdq : Analysis T Unit := copyEach 4 (rtags dftRegRdx) (rtags dftRegRax)
def cqo : Analysis T Unit := copyEach 8 (rtags dftRegRdx) (rtags dftRegRax)

/-- Where the `i`th of the registers on the stack is, the stack pointer being left out. -/
def stackOffset (shift i : Nat) : Nat := if i < dftRegRsp then i <<< shift else (i - 1) <<< shift

/-- `m2r_restore_opw` and `m2r_restore_opl`: the loop variable, not the row, is compared with the
row of the stack pointer. -/
def m2rRestore (shift : Nat) (src : BitVec 64) : Analysis T Unit := forEach 8 fun i => do
  if i = dftRegRsp then return ()
  let srcTag ← fetchEach (1 <<< shift) (mtags (src + BitVec.ofNat 64 (stackOffset shift i)))
  assignEach (1 <<< shift) (rtags (dftRegRdi + i)) srcTag

def m2rRestoreOpw (src : BitVec 64) : Analysis T Unit := m2rRestore 1 src
def m2rRestoreOpl (src : BitVec 64) : Analysis T Unit := m2rRestore 2 src

/-- `r2m_save_opw` and `r2m_save_opl`: the loop variable is the row. -/
def r2mSave (shift : Nat) (dst : BitVec 64) : Analysis T Unit := forEach (dftRegXmm0 - dftRegRdi) fun k => do
  let i := dftRegRdi + k
  if i = dftRegRsp then return ()
  let srcTag ← fetchEach (1 <<< shift) (rtags i)
  assignEach (1 <<< shift) (mtags (dst + BitVec.ofNat 64 (stackOffset shift i))) srcTag

def r2mSaveOpw (dst : BitVec 64) : Analysis T Unit := r2mSave 1 dst
def r2mSaveOpl (dst : BitVec 64) : Analysis T Unit := r2mSave 2 dst

end Routines

/-- `reg_eq` -/
def regEq (ins : Ins) : Bool :=
  !ins.operandIsImmediate 1 && ins.memoryOperandCount == 0 && ins.operandReg 0 == ins.operandReg 1

/-- The groups of `case` labels that share a body. -/
inductive Entry where
  | binary | binaryUnlessEqual | unitary | imul | binaryThenMov | mov | xfer | movlp | movhp | cmov | movbe
  | movsx | movsxd | cbw | cwd | cwde | cdq | cdqe | cqo | set | clear | clearL2 | clearL4
  | cmpxchg | xchg | xadd | xlat | lodsb | lodsw | lodsd | lodsq | stosb | stosw | stosd | stosq
  | movsq | movsd | movsw | movsb | pop | push | popa | popad | pusha | pushad | pushf | pushfd | pushfq | lea
  | ignored
  deriving DecidableEq, Repr

def Iclass.entry : Iclass → Entry
  | adc | add | addLock | addpd | addsd | addss | and | or | por => .binary
  | xor | sbb | sub | pxor | subsd | psubb | psubw | psubd | xorps | xorpd => .binaryUnlessEqual
  | div | idiv | mul => .unitary
  | imul => .imul
  | mulsd | mulpd | divsd => .binaryThenMov
  | bsf | bsr | tzcnt | mov => .mov
  | movd | movq | movaps | movapd | movdqu | movdqa | movups | movupd | movss
  | vmovd | vmovq | vmovaps | vmovapd | vmovdqu | vmovdqa | vmovups | vmovupd | vmovss
  | movsdXmm | cvtsi2sd | cvtsd2si => .xfer
  | movlpd | movlps => .movlp
  | movhpd | movhps => .movhp
  | cmovb | cmovbe | cmovl | cmovle | cmovnb | cmovnbe | cmovnl | cmovnle
  | cmovno | cmovnp | cmovns | cmovnz | cmovo | cmovp | cmovs | cmovz => .cmov
  | movbe => .movbe
  | movsx | movzx => .movsx
  | movsxd => .movsxd
  | cbw => .cbw
  | cwd => .cwd
  | cwde => .cwde
  | cdq => .cdq
  | cdqe => .cdqe
  | cqo => .cqo
  | setb | setbe | setl | setle | setnb | setnbe | setnl | setnle
  | setno | setnp | setns | setnz | seto | setp | sets | setz => .set
  | stmxcsr | smsw | str | lar | lahf | salc => .clear
  | rdpmc | rdtsc => .clearL2
  | cpuid => .clearL4
  | cmpxchg | cmpxchgLock => .cmpxchg
  | xchg => .xchg
  | xadd | xaddLock => .xadd
  | xlat => .xlat
  | lodsb => .lodsb
  | lodsw => .lodsw
  | lodsd => .lodsd
  | lodsq => .lodsq
  | stosb => .stosb
  | stosw => .stosw
  | stosd => .stosd
  | stosq => .stosq
  | movsq => .movsq
  | movsd => .movsd
  | movsw => .movsw
  | movsb => .movsb
  | pop => .pop
  | push => .push
  | popa => .popa
  | popad => .popad
  | pusha => .pusha
  | pushad => .pushad
  | pushf => .pushf
  | pushfd => .pushfd
  | pushfq => .pushfq
  | lea => .lea
  | pcmpeqb => .binary
  | ignored => .ignored

/-- The body after the label `XED_ICLASS_MOV`. -/
def movBody (ins : Ins) : Calls T :=
  if ins.operandIsImmediate 1 || ins.operandIsReg 1 && (ins.operandReg 1).isSeg then insClearOp ins else insXferOp ins

/-- `ins_inspect`: the calls inserted for an instruction. -/
def insInspect (ins : Ins) : Calls T :=
  match ins.opcode.entry with
  | .binary => insBinaryOp ins
  | .binaryUnlessEqual => if regEq ins then insClearOp ins else insBinaryOp ins
  | .unitary => insUnitaryOp ins
  | .imul => if ins.operandIsImplicit 1 then insUnitaryOp ins else insBinaryOp ins
  | .binaryThenMov => insBinaryOp ins ++ movBody ins
  | .mov => movBody ins
  | .xfer => insXferOp ins
  | .movlp => insMovlp ins
  | .movhp => insMovhp ins
  | .cmov => insXferOpPredicated ins
  | .movbe => insMovbeOp ins
  | .movsx => insMovsxOp ins
  | .movsxd => insMovsxdOp ins
  | .cbw => call cbw
  | .cwd => call cwd
  | .cwde => call cwde
  | .cdq => call cdq
  | .cdqe => call cdqe
  | .cqo => call cqo
  | .set => insClearOpPredicated ins
  | .clear => insClearOp ins
  | .clearL2 => insClearOpL2
  | .clearL4 => insClearOpL4
  | .cmpxchg => insCmpxchgOp ins
  | .xchg => insXchgOp ins
  | .xadd => insXaddOp ins
  | .xlat => m2rCall m2rXferOpbL (.lower8 .rax)
  | .lodsb => m2rCallP m2rXferOpbL (.lower8 .rax)
  | .lodsw => m2rCallP m2rXferOpw (.gr16 .rax)
  | .lodsd => m2rCallP m2rXferOpl (.gr32 .rax)
  | .lodsq => m2rCallP m2rXferOpq (.gr64 .rax)
  | .stosb => insStosb ins
  | .stosw => insStosw ins
  | .stosd => insStosd ins
  | .stosq => insStosq ins
  | .movsq => m2mCall m2mXferOpq
  | .movsd => m2mCall m2mXferOpl
  | .movsw => m2mCall m2mXferOpw
  | .movsb => m2mCall m2mXferOpb
  | .pop => insPopOp ins
  | .push => insPushOp ins
  | .popa => mCallR m2rRestoreOpw
  | .popad => mCallR m2rRestoreOpl
  | .pusha => mCallW r2mSaveOpw
  | .pushad => mCallW r2mSaveOpl
  | .pushf => mClearN 2
  | .pushfd => mClearN 4
  | .pushfq => mClearN 8
  | .lea => insLea ins
  | .ignored => []

/-- One execution of an instrumented instruction. -/
def analyse (ins : Ins) (exec : Exec) : Analysis T Unit := (insInspect ins).run exec

end Libdft.Core
