import Libdft.InsXfer

/-! `ins_binary_op.cpp`, `ins_unitary_op.cpp` and `ins_movsx_op.cpp`: the routines that unite the
tags of two operands, those of the one-operand forms that write to RDX and RAX, and those that
repeat the tags of a short operand. -/
namespace Libdft.Core

open TagTraits TagOps

variable {T : Type} [TagOps T]

section Binary

def r2rBinaryOpbUl (dst src : Nat) : Analysis T Unit := combine (rtags dst 1) (rtags src 0)
def r2rBinaryOpbLu (dst src : Nat) : Analysis T Unit := combine (rtags dst 0) (rtags src 1)
def r2rBinaryOpbU (dst src : Nat) : Analysis T Unit := combine (rtags dst 1) (rtags src 1)
def r2rBinaryOpbL (dst src : Nat) : Analysis T Unit := combine (rtags dst 0) (rtags src 0)
def r2rBinaryOpw (dst src : Nat) : Analysis T Unit := combineEach 2 (rtags dst) (rtags src)
def r2rBinaryOpl (dst src : Nat) : Analysis T Unit := combineEach 4 (rtags dst) (rtags src)
def r2rBinaryOpq (dst src : Nat) : Analysis T Unit := combineEach 8 (rtags dst) (rtags src)
def r2rBinaryOpx (dst src : Nat) : Analysis T Unit := combineEach 16 (rtags dst) (rtags src)
def r2rBinaryOpy (dst src : Nat) : Analysis T Unit := combineEach 32 (rtags dst) (rtags src)

/-- The byte forms alone name the memory operand first. -/
def m2rBinaryOpb (dst : Place) (src : BitVec 64) : Analysis T Unit := do
  let srcTag ← fetch (.mem src)
  let dstTag ← fetch dst
  assign dst (tagCombine srcTag dstTag)

def m2rBinaryOpbU (dst : Nat) (src : BitVec 64) : Analysis T Unit := m2rBinaryOpb (rtags dst 1) src
def m2rBinaryOpbL (dst : Nat) (src : BitVec 64) : Analysis T Unit := m2rBinaryOpb (rtags dst 0) src
def m2rBinaryOpw (dst : Nat) (src : BitVec 64) : Analysis T Unit := combineEach 2 (rtags dst) (mtags src)
def m2rBinaryOpl (dst : Nat) (src : BitVec 64) : Analysis T Unit := combineEach 4 (rtags dst) (mtags src)
def m2rBinaryOpq (dst : Nat) (src : BitVec 64) : Analysis T Unit := combineEach 8 (rtags dst) (mtags src)
def m2rBinaryOpx (dst : Nat) (src : BitVec 64) : Analysis T Unit := combineEach 16 (rtags dst) (mtags src)
def m2rBinaryOpy (dst : Nat) (src : BitVec 64) : Analysis T Unit := combineEach 32 (rtags dst) (mtags src)

def r2mBinaryOpbU (dst : BitVec 64) (src : Nat) : Analysis T Unit := combine (.mem dst) (rtags src 1)
def r2mBinaryOpbL (dst : BitVec 64) (src : Nat) : Analysis T Unit := combine (.mem dst) (rtags src 0)
def r2mBinaryOpw (dst : BitVec 64) (src : Nat) : Analysis T Unit := combineEach 2 (mtags dst) (rtags src)
def r2mBinaryOpl (dst : BitVec 64) (src : Nat) : Analysis T Unit := combineEach 4 (mtags dst) (rtags src)
def r2mBinaryOpq (dst : BitVec 64) (src : Nat) : Analysis T Unit := combineEach 8 (mtags dst) (rtags src)
def r2mBinaryOpx (dst : BitVec 64) (src : Nat) : Analysis T Unit := combineEach 16 (mtags dst) (rtags src)
def r2mBinaryOpy (dst : BitVec 64) (src : Nat) : Analysis T Unit := combineEach 32 (mtags dst) (rtags src)

def r2rBinary (dst src : Reg) : Nat → Nat → Analysis T Unit :=
  dst.byClass r2rBinaryOpq r2rBinaryOpl r2rBinaryOpw r2rBinaryOpx r2rBinaryOpy
    (byHalf dst src r2rBinaryOpbL r2rBinaryOpbU r2rBinaryOpbLu r2rBinaryOpbUl)

def m2rBinary (dst : Reg) : Nat → BitVec 64 → Analysis T Unit :=
  dst.byClass m2rBinaryOpq m2rBinaryOpl m2rBinaryOpw m2rBinaryOpx m2rBinaryOpy
    (if dst.isUpper8 then m2rBinaryOpbU else m2rBinaryOpbL)

def r2mBinary (src : Reg) : BitVec 64 → Nat → Analysis T Unit :=
  src.byClass r2mBinaryOpq r2mBinaryOpl r2mBinaryOpw r2mBinaryOpx r2mBinaryOpy
    (if src.isUpper8 then r2mBinaryOpbU else r2mBinaryOpbL)

theorem r2rBinary_eq (dst src : Reg) (row row' : Nat) :
    (r2rBinary dst src row row' : Analysis T Unit) =
      let each (n : Nat) : Analysis T Unit := combineEach n (rtags row) (rtags row')
      let half (i j : Nat) : Analysis T Unit := combine (rtags row i) (rtags row' j)
      dst.byClass (each 8) (each 4) (each 2) (each 16) (each 32)
        (byHalf dst src (half 0 0) (half 1 1) (half 0 1) (half 1 0)) := by
  cases dst <;> cases src <;> rfl

theorem m2rBinary_eq (dst : Reg) (row : Nat) (addr : BitVec 64) :
    (m2rBinary dst row addr : Analysis T Unit) =
      let each (n : Nat) : Analysis T Unit := combineEach n (rtags row) (mtags addr)
      dst.byClass (each 8) (each 4) (each 2) (each 16) (each 32)
        (m2rBinaryOpb (rtags row (if dst.isUpper8 then 1 else 0)) addr) := by
  cases dst <;> rfl

theorem r2mBinary_eq (src : Reg) (addr : BitVec 64) (row : Nat) :
    (r2mBinary src addr row : Analysis T Unit) =
      let each (n : Nat) : Analysis T Unit := combineEach n (mtags addr) (rtags row)
      src.byClass (each 8) (each 4) (each 2) (each 16) (each 32)
        (combine (.mem addr) (rtags row (if src.isUpper8 then 1 else 0))) := by
  cases src <;> rfl

def insBinaryOp (ins : Ins) : Calls T :=
  if ins.operandIsImmediate 1 then []
  else if ins.memoryOperandCount = 0 then
    r2rCall (r2rBinary (ins.operandReg 0) (ins.operandReg 1)) (ins.operandReg 0) (ins.operandReg 1)
  else if ins.operandIsMemory 1 then m2rCall (m2rBinary (ins.operandReg 0)) (ins.operandReg 0)
  else r2mCall (r2mBinary (ins.operandReg 1)) (ins.operandReg 1)

end Binary

section Unitary

/-- `RTAG[DFT_REG_RAX][0]` and `RTAG[DFT_REG_RAX][1]` united with one tag, as they are read. -/
def unitaryByte (tmpTag : T) : Analysis T Unit := forEach 2 fun i => do
  assign (rtags dftRegRax i) (tagCombine (← fetch (rtags dftRegRax i)) tmpTag)

/-- RDX and RAX united with `n` tags, in one loop. -/
def unitaryEach (n : Nat) (src : Nat → Place) : Analysis T Unit := do
  let tmpTag ← fetchEach n src
  let dst1Tag ← fetchEach n (rtags dftRegRdx)
  let dst2Tag ← fetchEach n (rtags dftRegRax)
  forEach n fun i => do
    assign (rtags dftRegRdx i) (tagCombine (dst1Tag i) (tmpTag i))
    assign (rtags dftRegRax i) (tagCombine (dst2Tag i) (tmpTag i))

def r2rUnitaryOpbU (src : Nat) : Analysis T Unit := do unitaryByte (← fetch (rtags src 1))
def r2rUnitaryOpbL (src : Nat) : Analysis T Unit := do unitaryByte (← fetch (rtags src 0))

/-- Written out in the source: both bytes of RDX, then both of RAX. -/
def r2rUnitaryOpw (src : Nat) : Analysis T Unit := do
  let tmpTag ← fetchEach 2 (rtags src)
  let dst1Tag ← fetchEach 2 (rtags dftRegRdx)
  let dst2Tag ← fetchEach 2 (rtags dftRegRax)
  assignEach 2 (rtags dftRegRdx) fun i => tagCombine (dst1Tag i) (tmpTag i)
  assignEach 2 (rtags dftRegRax) fun i => tagCombine (dst2Tag i) (tmpTag i)

def r2rUnitaryOpq (src : Nat) : Analysis T Unit := unitaryEach 8 (rtags src)
def r2rUnitaryOpl (src : Nat) : Analysis T Unit := unitaryEach 4 (rtags src)

def m2rUnitaryOpb (src : BitVec 64) : Analysis T Unit := do
  let tmpTag ← fetch (.mem src)
  let dstTag ← fetchEach 2 (rtags dftRegRax)
  assignEach 2 (rtags dftRegRax) fun i => tagCombine (dstTag i) tmpTag

def m2rUnitaryOpw (src : BitVec 64) : Analysis T Unit := unitaryEach 2 (mtags src)
def m2rUnitaryOpq (src : BitVec 64) : Analysis T Unit := unitaryEach 8 (mtags src)
def m2rUnitaryOpl (src : BitVec 64) : Analysis T Unit := unitaryEach 4 (mtags src)

def insUnitaryOp (ins : Ins) : Calls T :=
  if ins.operandIsMemory 0 then
    match ins.memoryWriteSize with
    | 8 => mCallR m2rUnitaryOpq
    | 4 => mCallR m2rUnitaryOpl
    | 2 => mCallR m2rUnitaryOpw
    | _ => mCallR m2rUnitaryOpb
  else
    let src := ins.operandReg 0
    if src.isGr64 then rCall r2rUnitaryOpq src
    else if src.isGr32 then rCall r2rUnitaryOpl src
    else if src.isGr16 then rCall r2rUnitaryOpw src
    else if src.isUpper8 then rCall r2rUnitaryOpbU src
    else rCall r2rUnitaryOpbL src

end Unitary

section Movsx

/-- One tag for all of the first `n` bytes of a row. -/
def repeatTag (n dst : Nat) (src : Place) : Analysis T Unit := do
  let srcTag ← fetch src
  assignEach n (rtags dst) fun _ => srcTag

def movsxR2rOpwbU (dst src : Nat) : Analysis T Unit := repeatTag 2 dst (rtags src 1)
def movsxR2rOpwbL (dst src : Nat) : Analysis T Unit := repeatTag 2 dst (rtags src 0)
def movsxR2rOplbU (dst src : Nat) : Analysis T Unit := repeatTag 4 dst (rtags src 1)
def movsxR2rOplbL (dst src : Nat) : Analysis T Unit := repeatTag 4 dst (rtags src 0)
def movsxR2rOpqbU (dst src : Nat) : Analysis T Unit := repeatTag 8 dst (rtags src 1)
def movsxR2rOpqbL (dst src : Nat) : Analysis T Unit := repeatTag 8 dst (rtags src 0)
def movsxR2rOplw (dst src : Nat) : Analysis T Unit := copyEach 4 (rtags dst) fun i => rtags src (i % 2)
def movsxR2rOpqw (dst src : Nat) : Analysis T Unit := copyEach 8 (rtags dst) fun i => rtags src (i % 2)
def movsxR2rOpql (dst src : Nat) : Analysis T Unit := copyEach 8 (rtags dst) fun i => rtags src (i % 4)

def movsxM2rOpwb (dst : Nat) (src : BitVec 64) : Analysis T Unit := repeatTag 2 dst (.mem src)
def movsxM2rOplb (dst : Nat) (src : BitVec 64) : Analysis T Unit := repeatTag 4 dst (.mem src)
def movsxM2rOpqb (dst : Nat) (src : BitVec 64) : Analysis T Unit := repeatTag 8 dst (.mem src)

/-- The tags of a short operand in memory, repeated. -/
def repeatTags (n size dst : Nat) (src : BitVec 64) : Analysis T Unit := do
  let srcTags ← fetchEach size (mtags src)
  assignEach n (rtags dst) fun i => srcTags (i % size)

def movsxM2rOplw (dst : Nat) (src : BitVec 64) : Analysis T Unit := repeatTags 4 2 dst src
def movsxM2rOpqw (dst : Nat) (src : BitVec 64) : Analysis T Unit := repeatTags 8 2 dst src
def movsxM2rOpql (dst : Nat) (src : BitVec 64) : Analysis T Unit := repeatTags 8 4 dst src

def insMovsxOp (ins : Ins) : Calls T :=
  let dst := ins.operandReg 0
  if ins.memoryOperandCount = 0 then
    let src := ins.operandReg 1
    if dst.isGr16 then
      if src.isUpper8 then r2rCall movsxR2rOpwbU dst src else r2rCall movsxR2rOpwbL dst src
    else if src.isGr16 then
      if dst.isGr64 then r2rCall movsxR2rOpqw dst src
      else if dst.isGr32 then r2rCall movsxR2rOplw dst src
      else []
    else if src.isUpper8 then
      if dst.isGr64 then r2rCall movsxR2rOpqbU dst src
      else if dst.isGr32 then r2rCall movsxR2rOplbU dst src
      else []
    else if dst.isGr64 then r2rCall movsxR2rOpqbL dst src
    else if dst.isGr32 then r2rCall movsxR2rOplbL dst src
    else []
  else if dst.isGr16 then m2rCall movsxM2rOpwb dst
  else if ins.memoryWriteSize = 2 then
    if dst.isGr64 then m2rCall movsxM2rOpqw dst
    else if dst.isGr32 then m2rCall movsxM2rOplw dst
    else []
  else if dst.isGr64 then m2rCall movsxM2rOpqb dst
  else if dst.isGr32 then m2rCall movsxM2rOplb dst
  else []

/-- The last call is made for every destination. -/
def insMovsxdOp (ins : Ins) : Calls T :=
  let dst := ins.operandReg 0
  (if dst.isGr64 then [] else insXferOp ins) ++
  if ins.memoryOperandCount = 0 then r2rCall movsxR2rOpql dst (ins.operandReg 1) else m2rCall movsxM2rOpql dst

end Movsx
end Libdft.Core
