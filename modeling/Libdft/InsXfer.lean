import Libdft.InsHelper

/-! `ins_clear_op.cpp` and `ins_xfer_op.cpp`: the routines that clear tags or copy them, and the
choice among them by operand. -/
namespace Libdft.Core

open TagTraits TagOps

section Clear
variable {T : Type} [TagTraits T]

/-- The bytes of one row that a clearing routine goes over. -/
def clearRow (n row : Nat) : Analysis T Unit := forEach n fun i => assign (rtags row i) clearedVal

def rClrl4 : Analysis T Unit := forEach 8 fun i => do
  assign (rtags dftRegRdx i) clearedVal
  assign (rtags dftRegRcx i) clearedVal
  assign (rtags dftRegRbx i) clearedVal
  assign (rtags dftRegRax i) clearedVal

def rClrl2 : Analysis T Unit := forEach 8 fun i => do
  assign (rtags dftRegRdx i) clearedVal
  assign (rtags dftRegRax i) clearedVal

def rClrbL (reg : Nat) : Analysis T Unit := assign (rtags reg 0) clearedVal
def rClrbU (reg : Nat) : Analysis T Unit := assign (rtags reg 1) clearedVal
def rClrw (reg : Nat) : Analysis T Unit := clearRow 2 reg
def rClrl (reg : Nat) : Analysis T Unit := clearRow 4 reg
def rClrq (reg : Nat) : Analysis T Unit := clearRow 8 reg
def rClrx (reg : Nat) : Analysis T Unit := clearRow 16 reg
/-- Half of the register. -/
def rClry (reg : Nat) : Analysis T Unit := clearRow 16 reg

def insClearOp (ins : Ins) : Calls T :=
  if ins.operandIsMemory 0 then mClearN (ins.operandWidth 0 / 8)
  else
    let dst := ins.operandReg 0
    if dst.isGr64 then rCall rClrq dst
    else if dst.isGr32 then rCall rClrl dst
    else if dst.isGr16 then rCall rClrw dst
    else if dst.isXmm then rCall rClrx dst
    else if dst.isMm then rCall rClrq dst
    else if dst.isYmm then rCall rClry dst
    else if dst.isUpper8 then rCall rClrbU dst
    else rCall rClrbL dst

def insClearOpPredicated (ins : Ins) : Calls T :=
  if ins.memoryOperandCount = 0 then
    let dst := ins.operandReg 0
    if dst.isUpper8 then predicated (rCall rClrbU dst) else predicated (rCall rClrbL dst)
  else predicated (mClearN 1)

def insClearOpL2 : Calls T := call rClrl2
def insClearOpL4 : Calls T := call rClrl4

end Clear

section Xfer
variable {T : Type} [TagOps T]

def r2rXferOpbUl (dst src : Nat) : Analysis T Unit := copy (rtags dst 1) (rtags src 0)
def r2rXferOpbLu (dst src : Nat) : Analysis T Unit := copy (rtags dst 0) (rtags src 1)
def r2rXferOpbU (dst src : Nat) : Analysis T Unit := copy (rtags dst 1) (rtags src 1)
def r2rXferOpbL (dst src : Nat) : Analysis T Unit := copy (rtags dst 0) (rtags src 0)
def r2rXferOpw (dst src : Nat) : Analysis T Unit := copyEach 2 (rtags dst) (rtags src)
def r2rXferOpl (dst src : Nat) : Analysis T Unit := copyEach 4 (rtags dst) (rtags src)
def r2rXferOpq (dst src : Nat) : Analysis T Unit := copyEach 8 (rtags dst) (rtags src)
def r2rXferOpx (dst src : Nat) : Analysis T Unit := copyEach 16 (rtags dst) (rtags src)
def r2rXferOpy (dst src : Nat) : Analysis T Unit := copyEach 32 (rtags dst) (rtags src)

def m2rXferOpbU (dst : Nat) (src : BitVec 64) : Analysis T Unit := copy (rtags dst 1) (.mem src)
def m2rXferOpbL (dst : Nat) (src : BitVec 64) : Analysis T Unit := copy (rtags dst 0) (.mem src)
def m2rXferOpw (dst : Nat) (src : BitVec 64) : Analysis T Unit := copyEach 2 (rtags dst) (mtags src)
def m2rXferOpl (dst : Nat) (src : BitVec 64) : Analysis T Unit := copyEach 4 (rtags dst) (mtags src)
def m2rXferOpq (dst : Nat) (src : BitVec 64) : Analysis T Unit := copyEach 8 (rtags dst) (mtags src)
def m2rXferOpx (dst : Nat) (src : BitVec 64) : Analysis T Unit := copyEach 16 (rtags dst) (mtags src)
def m2rXferOpy (dst : Nat) (src : BitVec 64) : Analysis T Unit := copyEach 32 (rtags dst) (mtags src)

def r2mXferOpbU (dst : BitVec 64) (src : Nat) : Analysis T Unit := copy (.mem dst) (rtags src 1)
def r2mXferOpbL (dst : BitVec 64) (src : Nat) : Analysis T Unit := copy (.mem dst) (rtags src 0)
def r2mXferOpw (dst : BitVec 64) (src : Nat) : Analysis T Unit := copyEach 2 (mtags dst) (rtags src)
def r2mXferOpl (dst : BitVec 64) (src : Nat) : Analysis T Unit := copyEach 4 (mtags dst) (rtags src)
def r2mXferOpq (dst : BitVec 64) (src : Nat) : Analysis T Unit := copyEach 8 (mtags dst) (rtags src)
def r2mXferOpx (dst : BitVec 64) (src : Nat) : Analysis T Unit := copyEach 16 (mtags dst) (rtags src)
def r2mXferOpy (dst : BitVec 64) (src : Nat) : Analysis T Unit := copyEach 32 (mtags dst) (rtags src)

def m2mXferOpb (dst src : BitVec 64) : Analysis T Unit := copy (.mem dst) (.mem src)
def m2mXferOpw (dst src : BitVec 64) : Analysis T Unit := copyEach 2 (mtags dst) (mtags src)
def m2mXferOpl (dst src : BitVec 64) : Analysis T Unit := copyEach 4 (mtags dst) (mtags src)
def m2mXferOpq (dst src : BitVec 64) : Analysis T Unit := copyEach 8 (mtags dst) (mtags src)

def m2rXferOpqH (dst : Nat) (src : BitVec 64) : Analysis T Unit := copyEach 8 (fun i => rtags dst (i + 8)) (mtags src)
def r2mXferOpqH (dst : BitVec 64) (src : Nat) : Analysis T Unit := copyEach 8 (mtags dst) fun i => rtags src (i + 8)

def eflagsDf (eflags : BitVec 64) : BitVec 64 := eflags &&& 0x0400

/-- The loop of `r2m_xfer_opbn` and its siblings over `len` bytes, `len` being their shifted
count; the tags of the first `size` bytes of RAX are repeated. -/
def stosLoop (size : Nat) (dst len eflags : BitVec 64) : Analysis T Unit := do
  let srcTag ← fetchEach size (rtags dftRegRax)
  if eflagsDf eflags = 0 then forEach len.toNat fun i => assign (mtags dst i) (srcTag (i % size))
  else forEach len.toNat fun i => assign (mtags (dst - len + 1) i) (srcTag (i % size))

def r2mXferOpbn (dst count eflags : BitVec 64) : Analysis T Unit := stosLoop 1 dst count eflags
def r2mXferOpwn (dst count eflags : BitVec 64) : Analysis T Unit := stosLoop 2 dst (count <<< 1) eflags
def r2mXferOpln (dst count eflags : BitVec 64) : Analysis T Unit := stosLoop 4 dst (count <<< 2) eflags
def r2mXferOpqn (dst count eflags : BitVec 64) : Analysis T Unit := stosLoop 8 dst (count <<< 2) eflags

def lea (n dst base index : Nat) : Analysis T Unit := forEach n fun i => do
  assign (rtags dst i) (tagCombine (← fetch (rtags base i)) (← fetch (rtags index i)))

def leaOpw (dst base index : Nat) : Analysis T Unit := lea 2 dst base index
def leaOpl (dst base index : Nat) : Analysis T Unit := lea 4 dst base index
def leaOpq (dst base index : Nat) : Analysis T Unit := lea 8 dst base index

def m2rXferOpwRev (dst : Nat) (src : BitVec 64) : Analysis T Unit := copyEach 2 (rtags dst) fun i => mtags src (1 - i)
def m2rXferOplRev (dst : Nat) (src : BitVec 64) : Analysis T Unit := copyEach 4 (rtags dst) fun i => mtags src (3 - i)
def m2rXferOpqRev (dst : Nat) (src : BitVec 64) : Analysis T Unit := copyEach 8 (rtags dst) fun i => mtags src (7 - i)
def r2mXferOpwRev (dst : BitVec 64) (src : Nat) : Analysis T Unit :=
  copyEach 2 (mtags dst) fun i => rtags src (1 - i)
def r2mXferOplRev (dst : BitVec 64) (src : Nat) : Analysis T Unit := copyEach 4 (fun i => mtags dst (3 - i)) (rtags src)
def r2mXferOpqRev (dst : BitVec 64) (src : Nat) : Analysis T Unit := copyEach 8 (fun i => mtags dst (7 - i)) (rtags src)

/-! The dispatchers. -/

def r2rXfer (dst src : Reg) : Nat → Nat → Analysis T Unit :=
  dst.byClass r2rXferOpq r2rXferOpl r2rXferOpw r2rXferOpx r2rXferOpy
    (byHalf dst src r2rXferOpbL r2rXferOpbU r2rXferOpbLu r2rXferOpbUl)

def m2rXfer (dst : Reg) : Nat → BitVec 64 → Analysis T Unit :=
  dst.byClass m2rXferOpq m2rXferOpl m2rXferOpw m2rXferOpx m2rXferOpy
    (if dst.isUpper8 then m2rXferOpbU else m2rXferOpbL)

def r2mXfer (src : Reg) : BitVec 64 → Nat → Analysis T Unit :=
  src.byClass r2mXferOpq r2mXferOpl r2mXferOpw r2mXferOpx r2mXferOpy
    (if src.isUpper8 then r2mXferOpbU else r2mXferOpbL)

theorem r2rXfer_eq (dst src : Reg) (row row' : Nat) :
    (r2rXfer dst src row row' : Analysis T Unit) =
      let each (n : Nat) : Analysis T Unit := copyEach n (rtags row) (rtags row')
      let half (i j : Nat) : Analysis T Unit := copy (rtags row i) (rtags row' j)
      dst.byClass (each 8) (each 4) (each 2) (each 16) (each 32)
        (byHalf dst src (half 0 0) (half 1 1) (half 0 1) (half 1 0)) := by
  cases dst <;> cases src <;> rfl

theorem m2rXfer_eq (dst : Reg) (row : Nat) (addr : BitVec 64) :
    (m2rXfer dst row addr : Analysis T Unit) =
      let each (n : Nat) : Analysis T Unit := copyEach n (rtags row) (mtags addr)
      dst.byClass (each 8) (each 4) (each 2) (each 16) (each 32)
        (copy (rtags row (if dst.isUpper8 then 1 else 0)) (.mem addr)) := by
  cases dst <;> rfl

theorem r2mXfer_eq (src : Reg) (addr : BitVec 64) (row : Nat) :
    (r2mXfer src addr row : Analysis T Unit) =
      let each (n : Nat) : Analysis T Unit := copyEach n (mtags addr) (rtags row)
      src.byClass (each 8) (each 4) (each 2) (each 16) (each 32)
        (copy (.mem addr) (rtags row (if src.isUpper8 then 1 else 0))) := by
  cases src <;> rfl

theorem r2mXfer_bytes (r : Reg) (addr : BitVec 64) :
    (r2mXfer r addr (regIndx r) : Analysis T Unit) = copyEach (classWidth r) (mtags addr) (regByte r) := by
  cases r with
  | gr64 _ | gr32 _ | gr16 _ | xmm _ | ymm _ | mm _ => rfl
  | upper8 _ | invalid | lower8 _ | zmm _ | st _ | seg _ | other _ =>
    refine Eq.trans ?_ (copyEach_one _ _).symm
    rw [mtags_zero]
    rfl

theorem m2rXfer_bytes (r : Reg) (addr : BitVec 64) :
    (m2rXfer r (regIndx r) addr : Analysis T Unit) = copyEach (classWidth r) (regByte r) (mtags addr) := by
  cases r with
  | gr64 _ | gr32 _ | gr16 _ | xmm _ | ymm _ | mm _ => rfl
  | upper8 _ | invalid | lower8 _ | zmm _ | st _ | seg _ | other _ =>
    refine Eq.trans ?_ (copyEach_one _ _).symm
    rw [mtags_zero]
    rfl

def insXferOp (ins : Ins) : Calls T :=
  if ins.memoryOperandCount = 0 then
    r2rCall (r2rXfer (ins.operandReg 0) (ins.operandReg 1)) (ins.operandReg 0) (ins.operandReg 1)
  else if ins.operandIsMemory 1 then m2rCall (m2rXfer (ins.operandReg 0)) (ins.operandReg 0)
  else r2mCall (r2mXfer (ins.operandReg 1)) (ins.operandReg 1)

def insXferOpPredicated (ins : Ins) : Calls T :=
  let dst := ins.operandReg 0
  if ins.memoryOperandCount = 0 then
    let src := ins.operandReg 1
    if dst.isGr64 then r2rCallP r2rXferOpq dst src
    else if dst.isGr32 then r2rCallP r2rXferOpl dst src
    else r2rCallP r2rXferOpw dst src
  else if dst.isGr64 then m2rCallP m2rXferOpq dst
  else if dst.isGr32 then m2rCallP m2rXferOpl dst
  else m2rCallP m2rXferOpw dst

/-- The last choice of `ins_push_op` and `ins_pop_op`, by `INS_MemoryWriteSize`. -/
def m2mXfer (ins : Ins) : Calls T :=
  if ins.memoryWriteSize = 8 then m2mCall m2mXferOpq
  else if ins.memoryWriteSize = 4 then m2mCall m2mXferOpl
  else m2mCall m2mXferOpw

def insPushOp (ins : Ins) : Calls T :=
  if ins.operandIsReg 0 then
    let src := ins.operandReg 0
    if src.isGr64 then r2mCall r2mXferOpq src
    else if src.isGr32 then r2mCall r2mXferOpl src
    else r2mCall r2mXferOpw src
  else if ins.operandIsMemory 0 then m2mXfer ins
  else mClearN (ins.operandWidth 0 / 8)

def insPopOp (ins : Ins) : Calls T :=
  if ins.operandIsReg 0 then
    let dst := ins.operandReg 0
    if dst.isGr64 then m2rCall m2rXferOpq dst
    else if dst.isGr32 then m2rCall m2rXferOpl dst
    else m2rCall m2rXferOpw dst
  else if ins.operandIsMemory 0 then m2mXfer ins
  else []

/-- The count and the flags are read from registers when the call is made. -/
def insStosIns (ins : Ins) (fn : BitVec 64 → BitVec 64 → BitVec 64 → Analysis T Unit) : Calls T :=
  predicated (ifThenCall (fun exec => pure exec.firstRepIteration) fun exec =>
    fn exec.memorywriteEa (exec.regValue ins.repCountRegister) (exec.regValue (ins.operandReg 4)))

def insStosb (ins : Ins) : Calls T :=
  if ins.repPrefix then insStosIns ins r2mXferOpbn else r2mCall r2mXferOpbL (.lower8 .rax)
def insStosw (ins : Ins) : Calls T :=
  if ins.repPrefix then insStosIns ins r2mXferOpwn else r2mCall r2mXferOpw (.gr16 .rax)
def insStosd (ins : Ins) : Calls T :=
  if ins.repPrefix then insStosIns ins r2mXferOpln else r2mCall r2mXferOpw (.gr32 .rax)
def insStosq (ins : Ins) : Calls T :=
  if ins.repPrefix then insStosIns ins r2mXferOpqn else r2mCall r2mXferOpw (.gr64 .rax)

def insMovlp (ins : Ins) : Calls T :=
  if ins.operandIsMemory 0 then r2mCall r2mXferOpq (ins.operandReg 1) else m2rCall m2rXferOpq (ins.operandReg 0)

def insMovhp (ins : Ins) : Calls T :=
  if ins.operandIsMemory 0 then r2mCall r2mXferOpqH (ins.operandReg 1) else m2rCall m2rXferOpqH (ins.operandReg 0)

/-- The choice by destination that `ins_lea` makes for one register and for two. -/
def leaSized (dst : Reg) (opq opl opw : Calls T) : Calls T :=
  if dst.isGr64 then opq else if dst.isGr32 then opl else if dst.isGr16 then opw else []

def insLea (ins : Ins) : Calls T :=
  let base := ins.memoryBaseReg
  let indx := ins.memoryIndexReg
  let dst := ins.operandReg 0
  if base = .invalid ∧ indx = .invalid then insClearOp ins
  else if indx = .invalid then
    leaSized dst (r2rCall r2rXferOpq dst base) (r2rCall r2rXferOpl dst base) (r2rCall r2rXferOpw dst base)
  else if base = .invalid then
    leaSized dst (r2rCall r2rXferOpq dst indx) (r2rCall r2rXferOpl dst indx) (r2rCall r2rXferOpw dst indx)
  else leaSized dst (rr2rCall leaOpq dst base indx) (rr2rCall leaOpl dst base indx) (rr2rCall leaOpw dst base indx)

def insMovbeOp (ins : Ins) : Calls T :=
  if ins.operandIsMemory 1 then
    let dst := ins.operandReg 0
    if dst.isGr64 then m2rCall m2rXferOpqRev dst
    else if dst.isGr32 then m2rCall m2rXferOplRev dst
    else if dst.isGr16 then m2rCall m2rXferOpwRev dst
    else []
  else
    let src := ins.operandReg 1
    if src.isGr64 then r2mCall r2mXferOpqRev src
    else if src.isGr32 then r2mCall r2mXferOplRev src
    else if src.isGr16 then r2mCall r2mXferOpwRev src
    else []

end Xfer
end Libdft.Core
