import Libdft.Syscall
import Libdft.TagMap
import Libdft.Loop
import Mathlib.Data.Finset.Insert

/-! The taint source: the post hooks of the file system calls, over the shadow memory
and the set of tracked descriptors. The allocator of tags, the file position that
`lseek` reports and the strings of the application are parameters. -/
namespace Libdft.SyscallHook

open Syscall TagMap

def fuzzingInputFile : List Char := "cur_input".toList

/-- `STDIN_FILENO` -/
def stdinFileno : Int := 0

structure Env (T : Type) where
  tagAlloc : BitVec 32 → T
  /-- `lseek(fd, 0, SEEK_CUR)` -/
  lseek : Int → BitVec 64
  /-- The string at an address of the application, if it can be read. -/
  cstring : BitVec 64 → Option (List Char)

/-- `tag_dir` and the variables of the hooks. -/
structure Taint (T : Type) where
  tagDir : TagDir T
  fuzzingFdSet : Finset Int
  stdinReadOff : BitVec 32
  tainted : Bool

variable {T : Type} [TagTraits T] (env : Env T) (fuel : Nat) (ctx : SyscallCtx) (s : Taint T)

def isFuzzingFd (fd : Int) : Bool := fd = stdinFileno ∨ fd ∈ s.fuzzingFdSet

def addFuzzingFd (fd : Int) : Taint T :=
  if fd > 0 then { s with fuzzingFdSet := insert fd s.fuzzingFdSet } else s

def removeFuzzingFd (fd : Int) : Taint T := { s with fuzzingFdSet := s.fuzzingFdSet.erase fd }

/-- What `strstr` reads; it does not come back from an address that cannot be read. -/
def fileName (addr : BitVec 64) : Outcome (List Char) :=
  match env.cstring addr with
  | some name => return name
  | none => .trapped

def postOpenHook : Outcome (Taint T) := do
  let fd := asInt ctx.ret
  if fd < 0 then return s
  else
    let fileName ← fileName env (ctx.arg 0)
    return if strstr fileName fuzzingInputFile then addFuzzingFd s fd else s

/-- Whether the call has failed is not asked. -/
def postOpenatHook : Outcome (Taint T) := do
  let fd := asInt ctx.ret
  let fileName ← fileName env (ctx.arg 1)
  return if strstr fileName fuzzingInputFile then addFuzzingFd s fd else s

def postDupHook : Taint T :=
  let ret := asInt ctx.ret
  if ret < 0 then s
  else
    let oldFd := asInt (ctx.arg 0)
    if isFuzzingFd s oldFd then addFuzzingFd s ret else s

/-- For `dup2` and `dup3`. -/
def postDup2Hook : Taint T :=
  let ret := asInt ctx.ret
  if ret < 0 then s
  else
    let oldFd := asInt (ctx.arg 0)
    let newFd := asInt (ctx.arg 1)
    if isFuzzingFd s oldFd then addFuzzingFd s newFd else s

def postCloseHook : Taint T :=
  if ctx.ret.toInt < 0 then s
  else
    let fd := asInt (ctx.arg 0)
    if isFuzzingFd s fd then removeFuzzingFd s fd else s

/-- `for (unsigned int i = 0; i < count; i++)`, with a 64-bit `count`: one tag for one byte. -/
def taintBytes (readOff : BitVec 32) (buf count : BitVec 64) (dir : TagDir T) : Outcome (TagDir T) :=
  loop (fun (i, dir) =>
    if i.toNat < count.toNat then
      return .again (i + 1, tagmapSetb dir (buf + i.setWidth 64).toNat (env.tagAlloc (readOff + i)))
    else return .leave dir) fuel ((0 : BitVec 32), dir)

section TaintBytes
variable (readOff : BitVec 32) (buf : BitVec 64) (dir : TagDir T)

/-- The first `n` passes of `taintBytes`. -/
def taintRange (n : Nat) : TagDir T :=
  (List.range n).foldl (fun dir i =>
    tagmapSetb dir (buf + (BitVec.ofNat 32 i).setWidth 64).toNat (env.tagAlloc (readOff + BitVec.ofNat 32 i))) dir

theorem taintRange_succ (n : Nat) : taintRange env readOff buf dir (n + 1) =
    tagmapSetb (taintRange env readOff buf dir n) (buf + (BitVec.ofNat 32 n).setWidth 64).toNat
      (env.tagAlloc (readOff + BitVec.ofNat 32 n)) := by
  rw [taintRange,List.range_succ,List.foldl_append]
  rfl

theorem taintBytes_returns {count : BitVec 64} (small : count.toNat < 2 ^ 32) :
    Returns (fun fuel => taintBytes env fuel readOff buf count dir) (taintRange env readOff buf dir count.toNat) := by
  refine loop_returns (fun s => s.1.toNat ≤ count.toNat ∧ s.2 = taintRange env readOff buf dir s.1.toNat)
    (fun s => count.toNat - s.1.toNat) ?_ ⟨Nat.zero_le _,rfl⟩
  rintro ⟨i,dir'⟩ ⟨bound,passes⟩
  change i.toNat ≤ count.toNat at bound
  change dir' = taintRange env readOff buf dir i.toNat at passes
  subst passes
  by_cases more : i.toNat < count.toNat
  · have next : (i + 1).toNat = i.toNat + 1 := by
      rw [BitVec.toNat_add]
      exact Nat.mod_eq_of_lt (by change i.toNat + 1 < 2 ^ 32; omega)
    refine ⟨_,if_pos more,⟨?_,?_⟩,?_⟩
    · change (i + 1).toNat ≤ count.toNat
      omega
    · change _ = taintRange env readOff buf dir (i + 1).toNat
      rw [next,taintRange_succ,BitVec.ofNat_toNat,BitVec.setWidth_eq]
    · change count.toNat - (i + 1).toNat < count.toNat - i.toNat
      omega
  · refine ⟨_,if_neg more,?_⟩
    change taintRange env readOff buf dir i.toNat = _
    rw [Nat.le_antisymm bound (Nat.not_lt.mp more)]

/-- The 32-bit counter never reaches a bound of 2^32 or more. -/
theorem taintBytes_running {count : BitVec 64} (large : 2 ^ 32 ≤ count.toNat) :
    taintBytes env fuel readOff buf count dir = .running := by
  refine loop_running (fun _ => True) ?_ trivial fuel
  rintro ⟨i,dir'⟩ _
  exact ⟨_,if_pos (Nat.lt_of_lt_of_le i.isLt large),trivial⟩

/-- How far an address is above the buffer's start, with wrap-around. -/
def distance (a : Nat) : BitVec 64 := BitVec.ofNat 64 a - buf

theorem getb_taintRange {n : Nat} (small : n ≤ 2 ^ 32) (a : Nat) :
    tagmapGetb (taintRange env readOff buf dir n) a =
      if (distance buf a).toNat < n ∧ a ≤ maxAddr then some (env.tagAlloc (readOff + (distance buf a).setWidth 32))
      else tagmapGetb dir a := by
  induction n with
  | zero => simp [taintRange]
  | succ n ih =>
    rw [taintRange_succ,tagmapSetb_puts,ih (by omega)]
    by_cases user : a ≤ maxAddr
    · have here : a = (buf + (BitVec.ofNat 32 n).setWidth 64).toNat ↔ (distance buf a).toNat = n := by
        unfold maxAddr at user
        have := buf.isLt
        simp only [distance,BitVec.toNat_add,BitVec.toNat_setWidth,BitVec.toNat_ofNat,BitVec.toNat_sub]
        omega
      by_cases last : (distance buf a).toNat = n
      · have low : (distance buf a).setWidth 32 = BitVec.ofNat 32 n := by
          rw [← last]
          exact (BitVec.ofNat_toNat 32 _).symm
        rw [if_pos ⟨here.mpr last,user⟩,if_pos ⟨by omega,user⟩,low]
      · rw [if_neg (fun h => last (here.mp h.1))]
        exact if_congr (and_congr_left fun _ => by omega) rfl rfl
    · simp [user]

end TaintBytes

def postReadHook : Outcome (Taint T) := do
  let nr := ctx.ret
  -- `nr` is a `size_t`
  if nr.toNat ≤ 0 then return s
  else
    let fd := asInt (ctx.arg 0)
    let buf := ctx.arg 1
    let count := ctx.arg 2
    if isFuzzingFd s fd then
      let readOff := if fd = stdinFileno then s.stdinReadOff else asUnsigned (env.lseek fd) - asUnsigned nr
      let stdinReadOff := if fd = stdinFileno then s.stdinReadOff + asUnsigned nr else s.stdinReadOff
      let count := if count > nr + 32 then nr + 32 else count
      let tagDir ← taintBytes env fuel readOff buf count s.tagDir
      return { s with tagDir, stdinReadOff, tainted := true }
    else return { s with tagDir := tagmapClrn s.tagDir buf.toNat nr.toNat }

def postPread64Hook : Outcome (Taint T) := do
  let nr := ctx.ret
  if nr.toNat ≤ 0 then return s
  else
    let fd := asInt (ctx.arg 0)
    let buf := ctx.arg 1
    let count := ctx.arg 2
    let readOff := asUnsigned (ctx.arg 3)
    if isFuzzingFd s fd then
      let count := if count > nr + 32 then nr + 32 else count
      let tagDir ← taintBytes env fuel readOff buf count s.tagDir
      return { s with tagDir, tainted := true }
    else return { s with tagDir := tagmapClrn s.tagDir buf.toNat count.toNat }

def postMmapHook : Outcome (Taint T) := do
  let ret := ctx.ret
  let fd := asInt (ctx.arg 4)
  let prot := asUnsigned (ctx.arg 2)
  if ret = mapFailed ∨ prot &&& 1 = 0 then return s
  else
    let buf := ctx.arg 0
    let nr := ctx.arg 1
    let readOff := ctx.arg 5
    if isFuzzingFd s fd then
      -- `read_off + i` is an `off_t`, but `tag_alloc` takes its low 32 bits
      let tagDir ← taintBytes env fuel (asUnsigned readOff) buf nr s.tagDir
      return { s with tagDir, tainted := true }
    else return { s with tagDir := tagmapClrn s.tagDir buf.toNat nr.toNat }

def postMunmapHook : Taint T :=
  if ctx.ret = mapFailed then s
  else
    let buf := ctx.arg 0
    let nr := ctx.arg 1
    { s with tagDir := tagmapClrn s.tagDir buf.toNat nr.toNat }

/-- The system calls that `hook_file_syscall` gives a post hook. -/
inductive FileCall where
  | open | openat | dup | dup2 | dup3 | close | read | pread64 | mmap | munmap
  deriving DecidableEq, Repr

/-- `hook_file_syscall` -/
def FileCall.post : FileCall → Outcome (Taint T)
  | .open => postOpenHook env ctx s
  | .openat => postOpenatHook env ctx s
  | .dup => return postDupHook ctx s
  | .dup2 | .dup3 => return postDup2Hook ctx s
  | .close => return postCloseHook ctx s
  | .read => postReadHook env fuel ctx s
  | .pread64 => postPread64Hook env fuel ctx s
  | .mmap => postMmapHook env fuel ctx s
  | .munmap => return postMunmapHook ctx s

end Libdft.SyscallHook
