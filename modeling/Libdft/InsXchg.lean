import Libdft.InsXfer

/-! `ins_xchg_op.cpp`: compare-and-exchange by way of a scratch row, exchange, and exchange with
addition. -/
namespace Libdft.Core

open TagTraits TagOps

variable {T : Type} [TagOps T]

section Cmpxchg

/-- Saves the first `saved` tags of RAX in the scratch row and gives RAX `n` tags. -/
def cmpxchgFast (saved n : Nat) (src : Nat → Place) : Analysis T Unit := do
  let saveTags ← fetchEach saved (rtags dftRegRax)
  assignEach saved (rtags dftRegHelper1) saveTags
  let srcTags ← fetchEach n src
  assignEach n (rtags dftRegRax) srcTags

/-- Restores RAX from the scratch row and gives the destination `n` tags. -/
def cmpxchgSlow (saved n : Nat) (dst src : Nat → Place) : Analysis T Unit := do
  let savedTags ← fetchEach saved (rtags dftRegHelper1)
  assignEach saved (rtags dftRegRax) savedTags
  let srcTags ← fetchEach n src
  assignEach n dst srcTags

/-- Only 32 bits of the values are compared. -/
def cmpxchgR2rOpqFast (dstVal : BitVec 32) (src : Nat) (srcVal : BitVec 32) : Analysis T Bool := do
  cmpxchgFast 8 8 (rtags src)
  return dstVal == srcVal
def cmpxchgR2rOplFast (dstVal : BitVec 32) (src : Nat) (srcVal : BitVec 32) : Analysis T Bool := do
  cmpxchgFast 4 4 (rtags src)
  return dstVal == srcVal
def cmpxchgR2rOpwFast (dstVal : BitVec 16) (src : Nat) (srcVal : BitVec 16) : Analysis T Bool := do
  cmpxchgFast 4 2 (rtags src)
  return dstVal == srcVal

def cmpxchgR2rOpqSlow (dst src : Nat) : Analysis T Unit := cmpxchgSlow 8 8 (rtags dst) (rtags src)
def cmpxchgR2rOplSlow (dst src : Nat) : Analysis T Unit := cmpxchgSlow 4 4 (rtags dst) (rtags src)
def cmpxchgR2rOpwSlow (dst src : Nat) : Analysis T Unit := cmpxchgSlow 4 2 (rtags dst) (rtags src)

def cmpxchgM2rOpqFast (memory : Syscall.Memory) (dstVal : BitVec 32) (src : BitVec 64) : Analysis T Bool := do
  cmpxchgFast 8 8 (mtags src)
  return dstVal == memory.load32 src
def cmpxchgM2rOplFast (memory : Syscall.Memory) (dstVal : BitVec 32) (src : BitVec 64) : Analysis T Bool := do
  cmpxchgFast 4 4 (mtags src)
  return dstVal == memory.load32 src
def cmpxchgM2rOpwFast (memory : Syscall.Memory) (dstVal : BitVec 16) (src : BitVec 64) : Analysis T Bool := do
  cmpxchgFast 4 2 (mtags src)
  return dstVal == BitVec.ofNat 16 (memory.load src 2)

def cmpxchgR2mOpqSlow (dst : BitVec 64) (src : Nat) : Analysis T Unit := cmpxchgSlow 8 8 (mtags dst) (rtags src)
def cmpxchgR2mOplSlow (dst : BitVec 64) (src : Nat) : Analysis T Unit := cmpxchgSlow 4 4 (mtags dst) (rtags src)
def cmpxchgR2mOpwSlow (dst : BitVec 64) (src : Nat) : Analysis T Unit := cmpxchgSlow 4 2 (mtags dst) (rtags src)

/-- The calls of one register form: the values of the accumulator and of the destination are passed. -/
def cmpxchgR2r (accumulator dst src : Reg) (w : Nat)
    (fast : BitVec w → Nat → BitVec w → Analysis T Bool) (slow : Nat → Nat → Analysis T Unit) : Calls T :=
  ifThenCall (fun exec => fast ((exec.regValue accumulator).setWidth w) (regIndx dst) ((exec.regValue dst).setWidth w))
    fun _ => slow (regIndx dst) (regIndx src)

def cmpxchgR2m (accumulator src : Reg) (w : Nat)
    (fast : Syscall.Memory → BitVec w → BitVec 64 → Analysis T Bool) (slow : BitVec 64 → Nat → Analysis T Unit) : Calls T :=
  ifThenCall (fun exec => fast exec.memory ((exec.regValue accumulator).setWidth w) exec.memoryreadEa)
    fun exec => slow exec.memorywriteEa (regIndx src)

def insCmpxchgOp (ins : Ins) : Calls T :=
  let src := ins.operandReg 1
  if ins.memoryOperandCount = 0 then
    let dst := ins.operandReg 0
    if dst.isGr64 then cmpxchgR2r (.gr32 .rax) dst src 32 cmpxchgR2rOpqFast cmpxchgR2rOpqSlow
    else if dst.isGr32 then cmpxchgR2r (.gr32 .rax) dst src 32 cmpxchgR2rOplFast cmpxchgR2rOplSlow
    else if dst.isGr16 then cmpxchgR2r (.gr16 .rax) dst src 16 cmpxchgR2rOpwFast cmpxchgR2rOpwSlow
    else []
  else if src.isGr64 then cmpxchgR2m (.gr32 .rax) src 32 cmpxchgM2rOpqFast cmpxchgR2mOpqSlow
  else if src.isGr32 then cmpxchgR2m (.gr32 .rax) src 32 cmpxchgM2rOplFast cmpxchgR2mOplSlow
  else if src.isGr16 then cmpxchgR2m (.gr16 .rax) src 16 cmpxchgM2rOpwFast cmpxchgR2mOpwSlow
  else []

end Cmpxchg

section Xchg

/-- Both operands are read before either is written. -/
def exchange (n : Nat) (dst src : Nat → Place) : Analysis T Unit := do
  let dstTag ← fetchEach n dst
  let srcTag ← fetchEach n src
  assignEach n dst srcTag
  assignEach n src dstTag

def xchgR2rOpbUl (dst src : Nat) : Analysis T Unit := exchange 1 (fun _ => rtags dst 1) fun _ => rtags src 0
def xchgR2rOpbLu (dst src : Nat) : Analysis T Unit := exchange 1 (fun _ => rtags dst 0) fun _ => rtags src 1
def xchgR2rOpbU (dst src : Nat) : Analysis T Unit := exchange 1 (fun _ => rtags dst 1) fun _ => rtags src 1
def xchgR2rOpbL (dst src : Nat) : Analysis T Unit := exchange 1 (fun _ => rtags dst 0) fun _ => rtags src 0
def xchgR2rOpw (dst src : Nat) : Analysis T Unit := exchange 2 (rtags dst) (rtags src)

def xchgM2rOpbU (dst : Nat) (src : BitVec 64) : Analysis T Unit := exchange 1 (fun _ => rtags dst 1) fun _ => .mem src
def xchgM2rOpbL (dst : Nat) (src : BitVec 64) : Analysis T Unit := exchange 1 (fun _ => rtags dst 0) fun _ => .mem src
def xchgM2rOpw (dst : Nat) (src : BitVec 64) : Analysis T Unit := exchange 2 (rtags dst) (mtags src)
def xchgM2rOpq (dst : Nat) (src : BitVec 64) : Analysis T Unit := exchange 8 (rtags dst) (mtags src)
def xchgM2rOpl (dst : Nat) (src : BitVec 64) : Analysis T Unit := exchange 4 (rtags dst) (mtags src)

/-- The three calls by which two registers of 8 or 4 bytes change places. -/
def xchgByHelper (fn : Nat → Nat → Analysis T Unit) (dst src : Reg) : Calls T :=
  [fun _ => fn 0 (regIndx dst),fun _ => fn (regIndx dst) (regIndx src),fun _ => fn (regIndx src) 0]

def xchgM2r (r : Reg) : Nat → BitVec 64 → Analysis T Unit :=
  if r.isGr64 then xchgM2rOpq
  else if r.isGr32 then xchgM2rOpl
  else if r.isGr16 then xchgM2rOpw
  else if r.isUpper8 then xchgM2rOpbU
  else xchgM2rOpbL

def insXchgOp (ins : Ins) : Calls T :=
  let dst := ins.operandReg 0
  let src := ins.operandReg 1
  if ins.memoryOperandCount = 0 then
    if dst.isGr64 then xchgByHelper r2rXferOpq dst src
    else if dst.isGr32 then xchgByHelper r2rXferOpl dst src
    else if dst.isGr16 then r2rCall xchgR2rOpw dst src
    else if dst.isGr8 then r2rCall (byHalf dst src xchgR2rOpbL xchgR2rOpbU xchgR2rOpbLu xchgR2rOpbUl) dst src
    else []
  else if ins.operandIsMemory 1 then m2rCall (xchgM2r dst) dst
  else [fun exec => xchgM2r src (regIndx src) exec.memorywriteEa]

end Xchg

section Xadd

/-- The byte forms read the destination's tag again for the union. -/
def xaddByte (dst src : Place) : Analysis T Unit := do
  let tmpTag ← fetch dst
  combine dst src
  assign src tmpTag

/-- One loop writes both operands. -/
def xaddEach (n : Nat) (dst src : Nat → Place) : Analysis T Unit := do
  let dstTag ← fetchEach n dst
  let srcTag ← fetchEach n src
  forEach n fun i => do
    assign (dst i) (tagCombine (dstTag i) (srcTag i))
    assign (src i) (dstTag i)

def xaddR2rOpbUl (dst src : Nat) : Analysis T Unit := xaddByte (rtags dst 1) (rtags src 0)
def xaddR2rOpbLu (dst src : Nat) : Analysis T Unit := xaddByte (rtags dst 0) (rtags src 1)
def xaddR2rOpbU (dst src : Nat) : Analysis T Unit := xaddByte (rtags dst 1) (rtags src 1)
def xaddR2rOpbL (dst src : Nat) : Analysis T Unit := xaddByte (rtags dst 0) (rtags src 0)

def xaddR2rOpw (dst src : Nat) : Analysis T Unit := do
  let dstTag ← fetchEach 2 (rtags dst)
  let srcTag ← fetchEach 2 (rtags src)
  assignEach 2 (rtags dst) fun i => tagCombine (dstTag i) (srcTag i)
  assignEach 2 (rtags src) dstTag

def xaddR2rOpl (dst src : Nat) : Analysis T Unit := xaddEach 4 (rtags dst) (rtags src)
def xaddR2rOpq (dst src : Nat) : Analysis T Unit := xaddEach 8 (rtags dst) (rtags src)

/-- The register is written first. -/
def xaddR2m (n : Nat) (dst src : Nat → Place) : Analysis T Unit := do
  let srcTag ← fetchEach n src
  let dstTag ← fetchEach n dst
  assignEach n src dstTag
  assignEach n dst fun i => tagCombine (dstTag i) (srcTag i)

def xaddR2mOpbU (dst : BitVec 64) (src : Nat) : Analysis T Unit := xaddR2m 1 (fun _ => .mem dst) fun _ => rtags src 1
def xaddR2mOpbL (dst : BitVec 64) (src : Nat) : Analysis T Unit := xaddR2m 1 (fun _ => .mem dst) fun _ => rtags src 0
def xaddR2mOpw (dst : BitVec 64) (src : Nat) : Analysis T Unit := xaddR2m 2 (mtags dst) (rtags src)
def xaddR2mOpl (dst : BitVec 64) (src : Nat) : Analysis T Unit := xaddEach 4 (mtags dst) (rtags src)
def xaddR2mOpq (dst : BitVec 64) (src : Nat) : Analysis T Unit := xaddEach 8 (mtags dst) (rtags src)

def insXaddOp (ins : Ins) : Calls T :=
  let src := ins.operandReg 1
  if ins.memoryOperandCount = 0 then
    let dst := ins.operandReg 0
    if dst.isGr64 then r2rCall xaddR2rOpq dst src
    else if dst.isGr32 then r2rCall xaddR2rOpl dst src
    else if dst.isGr16 then r2rCall xaddR2rOpw dst src
    else if dst.isGr8 then r2rCall (byHalf dst src xaddR2rOpbL xaddR2rOpbU xaddR2rOpbLu xaddR2rOpbUl) dst src
    else []
  else if src.isGr64 then r2mCall xaddR2mOpq src
  else if src.isGr32 then r2mCall xaddR2mOpl src
  else if src.isGr16 then r2mCall xaddR2mOpw src
  else if src.isUpper8 then r2mCall xaddR2mOpbU src
  else r2mCall xaddR2mOpbL src

end Xadd
end Libdft.Core
