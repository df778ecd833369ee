import Libdft.SyscallHook
import Libdft.SyscallTable

/-! The hooks of `tools/mytool.cpp`, which taint what is read from the input files by the
offset in the file. -/
namespace Libdft.MyTool

open Syscall TagMap
open SyscallHook (Env fileName stdinFileno taintBytes)
open SyscallTable (pageSz mapGrowsdown)

def fuzzingInputFile : List Char := "input".toList

/-- `tag_dir` and the variables of the tool. -/
structure Tool (T : Type) where
  tagDir : TagDir T
  fdset : Finset Int
  stdinReadOff : BitVec 32

variable {T : Type} [TagTraits T] (env : Env T) (mem : Memory) (fuel : Nat) (ctx : SyscallCtx) (s : Tool T)

def postOpenHook : Outcome (Tool T) := do
  let fd := asInt ctx.ret
  if fd < 0 then return s
  else
    let fileName ← fileName env (ctx.arg 0)
    return if strstr fileName fuzzingInputFile then { s with fdset := insert fd s.fdset } else s

def postOpenatHook : Outcome (Tool T) := do
  let fd := asInt ctx.ret
  let fileName ← fileName env (ctx.arg 1)
  return if strstr fileName fuzzingInputFile then { s with fdset := insert fd s.fdset } else s

def postCloseHook : Tool T :=
  if ctx.ret.toInt < 0 then s else { s with fdset := s.fdset.erase (asInt (ctx.arg 0)) }

def postReadHook : Outcome (Tool T) := do
  let nr := ctx.ret
  if nr.toInt ≤ 0 then return s
  else
    let fd := asInt (ctx.arg 0)
    let buf := ctx.arg 1
    if fd ∈ s.fdset then
      let readOff := if fd = stdinFileno then s.stdinReadOff else asUnsigned (env.lseek fd) - asUnsigned nr
      let stdinReadOff := if fd = stdinFileno then s.stdinReadOff + asUnsigned nr else s.stdinReadOff
      let tagDir ← taintBytes env fuel readOff buf nr s.tagDir
      return { s with tagDir, stdinReadOff }
    else return { s with tagDir := tagmapClrn s.tagDir buf.toNat nr.toNat }

def postPread64Hook : Outcome (Tool T) := do
  let nr := ctx.ret
  if nr.toInt ≤ 0 then return s
  else
    let fd := asInt (ctx.arg 0)
    let buf := ctx.arg 1
    if fd ∈ s.fdset then
      let readOff := asUnsigned (ctx.arg 3)
      let tagDir ← taintBytes env fuel readOff buf nr s.tagDir
      return { s with tagDir }
    else return { s with tagDir := tagmapClrn s.tagDir buf.toNat nr.toNat }

/-- The inner loop of `post_readv_hook`; `read_off` goes on with every byte. -/
def taintIovec (base : BitVec 64) (n : Nat) (readOff : BitVec 32) (dir : TagDir T) : BitVec 32 × TagDir T :=
  (List.range n).foldl (fun (readOff, dir) i =>
    (readOff + 1, tagmapSetb dir (base + BitVec.ofNat 64 i).toNat (env.tagAlloc readOff))) (readOff, dir)

/-- The loop of `post_readv_hook` from one `struct iovec` on, with `left` passes to go. -/
def readvLoop (tracked : Bool) (iov : BitVec 64) : (left : Nat) → (bytesReaded : BitVec 64) → BitVec 32 → TagDir T → TagDir T
  | 0, _, _, dir => dir
  | left + 1, bytesReaded, readOff, dir =>
    if bytesReaded > 0 then
      let iovBase := mem.load64 iov
      let iovLen := mem.load64 (iov + 8)
      let iovTot := if bytesReaded ≥ iovLen then iovLen else bytesReaded
      let (readOff, dir) :=
        if tracked then taintIovec env iovBase iovTot.toNat readOff dir
        else (readOff, tagmapClrn dir iovBase.toNat iovTot.toNat)
      readvLoop tracked (iov + 16) left (bytesReaded - iovTot) readOff dir
    else dir

def postReadvHook : Tool T :=
  if ctx.ret.toInt ≤ 0 then s
  else
    let tracked := decide (asInt (ctx.arg 0) ∈ s.fdset)
    let tagDir := readvLoop env mem tracked (ctx.arg 1) (asInt (ctx.arg 2)).toNat ctx.ret 0 s.tagDir
    { s with tagDir }

/-- "estimate offset" of `post_mmap_hook` -/
def mmapOffset (length : BitVec 64) : BitVec 64 :=
  if length < pageSz then pageSz else length + pageSz - length % pageSz

/-- The hook moves `ctx->ret` itself; nothing reads it afterwards. -/
def postMmapHook : Outcome (Tool T) := do
  if ctx.ret = mapFailed then return s
  else
    let offset := mmapOffset (ctx.arg 1)
    let fd := asInt (ctx.arg 4)
    let addr := ctx.ret
    let ret := if asUnsigned (ctx.arg 3) &&& mapGrowsdown ≠ 0 then ctx.ret - offset else ctx.ret
    if fd ∈ s.fdset then
      let tagDir ← taintBytes env fuel 0 addr offset s.tagDir
      return { s with tagDir }
    else return { s with tagDir := tagmapClrn s.tagDir ret.toNat offset.toNat }

/-- The system calls that `main` gives a post hook, and `lseek`, which has none. -/
inductive ToolCall where
  | open | openat | close | read | pread64 | readv | mmap | lseek
  deriving DecidableEq, Repr

def ToolCall.post : ToolCall → Outcome (Tool T)
  | .open => postOpenHook env ctx s
  | .openat => postOpenatHook env ctx s
  | .close => return postCloseHook ctx s
  | .read => postReadHook env fuel ctx s
  | .pread64 => postPread64Hook env fuel ctx s
  | .readv => return postReadvHook env mem ctx s
  | .mmap => postMmapHook env fuel ctx s
  | .lseek => return s

end Libdft.MyTool
