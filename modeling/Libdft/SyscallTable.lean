import Libdft.Syscall
import Mathlib.Data.Fin.VecNotation

/-! The system call descriptors as they are shipped, and the default post hooks. A hook
is the list of what it does in order: loads from the memory of the application, and
calls of `tagmap_clrn`. Sizes of C types are a parameter; the layout of the structures
that hooks walk through and the command numbers are those of x86-64 Linux. -/
namespace Libdft.SyscallTable

open Syscall

inductive CType where
  | short | int | unsigned | long | unsignedLong | u32 | size | off | loff | time | timer | uid | gid | git
  | stat | statfs | ustat | sigaction | sigset | siginfo | stack | fdSet | timeval | timespec | timezone | timex
  | itimerval | itimerspec | sockaddr | msghdr | rusage | rlimit | utsname | sysinfo | schedParam | schedAttr
  | cpuSet | aioContext | ioEvent | mqAttr | epollEvent | perfEventAttr | fileHandle | getcpuCache
  | robustListHeadPtr | ifDqinfo | ifDqblk | fsQuotaStat | fsDiskQuota | flock | fOwnerEx | msqidDs | msginfo
  | shmidDs | shminfo | semidDs | seminfo
  deriving DecidableEq

structure Abi where
  sizeof : CType → Nat
  positive : ∀ t, 0 < sizeof t
  small : ∀ t, sizeof t < 2 ^ 16

def Abi.bytes (abi : Abi) (t : CType) : BitVec 64 := BitVec.ofNat 64 (abi.sizeof t)

inductive Effect where
  | read (addr : BitVec 64) (size : Nat)
  /-- `tagmap_clrn(addr, n)` before `n` is converted -/
  | clear (addr n : BitVec 64)
  deriving DecidableEq, Repr

def pageSz : BitVec 64 := 4096
def mapGrowsdown : BitVec 32 := 0x100
def mpolFNode : BitVec 64 := 1
def mpolFAddr : BitVec 64 := 2
def mpolFMemsAllowed : BitVec 64 := 4
def qGetfmt : Int := 0x800004
def qGetinfo : Int := 0x800005
def qGetquota : Int := 0x800007
def qXgetquota : Int := 0x5803
def qXgetqstat : Int := 0x5805
def fGetlk : Int := 5
def fGetownEx : Int := 16
def ipcStat : Int := 2
def ipcInfo : Int := 3
def msgStat : Int := 11
def msgInfo : Int := 12
def shmStat : Int := 13
def shmInfo : Int := 14
def semStat : Int := 18
def semInfo : Int := 19

section Hooks
variable (abi : Abi) (ctx : SyscallCtx) (mem : Memory)

/-- The bytes that the call returned are in the buffer. -/
def clearReturned (buf : Fin 6) : List Effect :=
  if ctx.ret.toInt ≤ 0 then [] else [.clear (ctx.arg buf) ctx.ret]

def postReadHook : List Effect := clearReturned ctx 1
def postReadlinkatHook : List Effect := clearReturned ctx 2
def postLookupDcookieHook : List Effect := clearReturned ctx 1
def postGetdentsHook : List Effect := clearReturned ctx 1
def postGetcwdHook : List Effect := clearReturned ctx 0
def postModifyLdtHook : List Effect := clearReturned ctx 1

def clearReturnedUnlessNull (buf : Fin 6) : List Effect :=
  if ctx.ret.toInt ≤ 0 ∨ ctx.arg buf = 0 then [] else [.clear (ctx.arg buf) ctx.ret]

def postListxattrHook : List Effect := clearReturnedUnlessNull ctx 1
def postGetxattrHook : List Effect := clearReturnedUnlessNull ctx 2

def postGetgroupsHook : List Effect :=
  if ctx.ret.toInt ≤ 0 ∨ ctx.arg 1 = 0 then [] else [.clear (ctx.arg 1) (abi.bytes .gid * ctx.ret)]

/-- The hook moves `ctx->ret` itself; nothing reads it afterwards. -/
def postMmapHook : List Effect :=
  let offset := ctx.arg 1
  if ctx.ret = mapFailed then []
  else
    let offset := if offset < pageSz then pageSz else offset + pageSz - offset % pageSz
    let ret := if asUnsigned (ctx.arg 3) &&& mapGrowsdown ≠ 0 then ctx.ret - offset else ctx.ret
    [.clear ret offset]

/-- The loop of `post_readv_hook` from one `struct iovec` on, with `left` passes to go. -/
def readvLoop (iov : BitVec 64) : (left : Nat) → (tot : BitVec 64) → List Effect
  | 0, _ => []
  | left + 1, tot =>
    if tot > 0 then
      let iovLen := mem.load64 (iov + 8)
      let iovTot := if tot ≥ iovLen then iovLen else tot
      .read (iov + 8) 8 :: .read iov 8 :: .clear (mem.load64 iov) iovTot :: readvLoop (iov + 16) left (tot - iovTot)
    else []

def postReadvHook : List Effect :=
  if ctx.ret.toInt ≤ 0 then [] else readvLoop mem (ctx.arg 1) (asInt (ctx.arg 2)).toNat ctx.ret

def postEpollWaitHook : List Effect :=
  if ctx.ret.toInt ≤ 0 then [] else [.clear (ctx.arg 1) (abi.bytes .epollEvent * ctx.ret)]

def postPollHook : List Effect :=
  if ctx.ret.toInt ≤ 0 then []
  else (List.range (ctx.arg 1).toNat).map fun i => .clear (ctx.arg 0 + 8 * BitVec.ofNat 64 i + 6) (abi.bytes .short)

def postMqTimedreceiveHook : List Effect :=
  if ctx.ret.toInt ≤ 0 then []
  else .clear (ctx.arg 1) ctx.ret :: if ctx.arg 3 ≠ 0 then [.clear (ctx.arg 3) (abi.bytes .size)] else []

def postGetMempolicyHook : List Effect :=
  let flags := ctx.arg 4
  let mode : Effect := .clear (ctx.arg 0) (abi.bytes .int)
  let nodemask : Effect := .clear (ctx.arg 1) (abi.bytes .unsignedLong)
  if ctx.ret.toInt < 0 then []
  else if flags = 0 then [mode, nodemask]
  else if flags &&& mpolFMemsAllowed ≠ 0 then [nodemask]
  else if flags &&& mpolFAddr ≠ 0 ∧ flags &&& mpolFNode = 0 then
    (if ctx.arg 0 ≠ 0 then [mode] else []) ++ if ctx.arg 1 ≠ 0 then [nodemask] else []
  else if flags &&& mpolFAddr ≠ 0 ∧ flags &&& mpolFNode ≠ 0 then [mode]
  else if flags &&& mpolFNode ≠ 0 then [mode]
  else []

def postIoGeteventsHook : List Effect :=
  if ctx.ret.toInt ≤ 0 then []
  else .clear (ctx.arg 3) (abi.bytes .ioEvent * ctx.ret) ::
    if ctx.arg 4 ≠ 0 then [.clear (ctx.arg 4) (abi.bytes .timespec)] else []

def postMincoreHook : List Effect :=
  if ctx.ret.toInt < 0 then [] else [.clear (ctx.arg 2) ((ctx.arg 1 + pageSz - 1) / pageSz)]

def postRtSigpendingHook : List Effect :=
  if ctx.ret.toInt < 0 then [] else [.clear (ctx.arg 0) (ctx.arg 1)]

def postQuotactlHook : List Effect :=
  if ctx.ret.toInt < 0 then []
  else
    let cmd := asInt (ctx.arg 0)
    if cmd = qGetfmt then [.clear (ctx.arg 3) (abi.bytes .u32)]
    else if cmd = qGetinfo then [.clear (ctx.arg 3) (abi.bytes .ifDqinfo)]
    else if cmd = qGetquota then [.clear (ctx.arg 3) (abi.bytes .ifDqblk)]
    else if cmd = qXgetqstat then [.clear (ctx.arg 3) (abi.bytes .fsQuotaStat)]
    else if cmd = qXgetquota then [.clear (ctx.arg 3) (abi.bytes .fsDiskQuota)]
    else []

def postFcntlHook : List Effect :=
  if ctx.ret.toInt < 0 then []
  else
    let cmd := asInt (ctx.arg 1)
    if cmd = fGetlk then [.clear (ctx.arg 2) (abi.bytes .flock)]
    else if cmd = fGetownEx then [.clear (ctx.arg 2) (abi.bytes .fOwnerEx)]
    else []

def postSyslogHook : List Effect :=
  if ctx.ret.toInt ≤ 0 then []
  else if asInt (ctx.arg 0) = 2 ∨ asInt (ctx.arg 0) = 3 ∨ asInt (ctx.arg 0) = 4 then [.clear (ctx.arg 1) ctx.ret]
  else []

/-- `oldval`, `oldlenp`, `newval` and `newlen` are at offsets 16, 24, 32 and 40. -/
def postSysctlHook : List Effect :=
  if ctx.ret.toInt < 0 then []
  else
    let sa := ctx.arg 0
    let oldval := mem.load64 (sa + 16)
    let oldlenp := mem.load64 (sa + 24)
    [.read (sa + 32) 8, .read (sa + 40) 8, .clear (mem.load64 (sa + 32)) (mem.load64 (sa + 40)), .read (sa + 16) 8] ++
      if oldval ≠ 0 then
        [.read (sa + 24) 8, .read oldlenp 8, .clear oldval (mem.load64 oldlenp), .clear oldlenp (abi.bytes .size)]
      else []

/-- Source address, ancillary data and flags of a `struct msghdr`: `msg_name`, `msg_namelen`,
`msg_control`, `msg_controllen` and `msg_flags` are at offsets 0, 8, 32, 40 and 48. -/
def headerEffects (m : BitVec 64) : List Effect :=
  let name := mem.load64 m
  let control := mem.load64 (m + 32)
  .read m 8 ::
    (if name ≠ 0 then
      [.read (m + 8) 4, .clear name ((mem.load32 (m + 8)).setWidth 64), .clear (m + 8) (abi.bytes .int)]
    else []) ++
  .read (m + 32) 8 ::
    (if control ≠ 0 then
      [.read (m + 40) 8, .clear control (mem.load64 (m + 40)), .clear (m + 40) (abi.bytes .int)]
    else []) ++
  [.clear (m + 48) (abi.bytes .int)]

/-- The loop over `msg_iov` of the header `m`, from the vector `iov` on with `left` vectors to
go; `msg_iov` and `msg_iovlen` are at offsets 16 and 24. -/
def msgIovLoop (m iov : BitVec 64) : (left : Nat) → (tot : BitVec 64) → List Effect
  | 0, _ => [.read (m + 24) 8]
  | left + 1, tot =>
    .read (m + 24) 8 ::
      if tot > 0 then
        let iovLen := mem.load64 (iov + 8)
        let iovTot := if tot > iovLen then iovLen else tot
        .read (m + 16) 8 :: .read (iov + 8) 8 :: .read iov 8 :: .clear (mem.load64 iov) iovTot ::
          msgIovLoop m (iov + 16) left (tot - iovTot)
      else []

def iovEffects (m tot : BitVec 64) : List Effect :=
  msgIovLoop mem m (mem.load64 (m + 16)) (mem.load64 (m + 24)).toNat tot

/-- A `struct mmsghdr` takes 64 bytes, with `msg_len` at offset 56. The last call is outside
the test of `ctx->arg[SYSCALL_ARG4]`. -/
def postRecvmmsgHook : List Effect :=
  if ctx.ret.toInt < 0 then []
  else
    (List.range ctx.ret.toNat).flatMap (fun i =>
      let msg := ctx.arg 1 + 64 * BitVec.ofNat 64 i
      headerEffects abi mem msg ++
        [.read (msg + 56) 4, .clear (msg + 56) (abi.bytes .unsigned)] ++
        iovEffects mem msg ((mem.load32 (msg + 56)).setWidth 64)) ++
    [.clear (ctx.arg 4) (abi.bytes .timespec)]

def postRecvmsgHook : List Effect :=
  if ctx.ret.toInt ≤ 0 then []
  else headerEffects abi mem (ctx.arg 1) ++ iovEffects mem (ctx.arg 1) ctx.ret

def postMsgctlHook : List Effect :=
  if ctx.ret.toInt < 0 then []
  else
    let cmd := asInt (ctx.arg 1)
    if cmd = ipcStat ∨ cmd = msgStat then [.clear (ctx.arg 2) (abi.bytes .msqidDs)]
    else if cmd = ipcInfo ∨ cmd = msgInfo then [.clear (ctx.arg 2) (abi.bytes .msginfo)]
    else []

def postShmctlHook : List Effect :=
  if ctx.ret.toInt < 0 then []
  else
    let cmd := asInt (ctx.arg 1)
    if cmd = ipcStat ∨ cmd = shmStat then [.clear (ctx.arg 2) (abi.bytes .shmidDs)]
    else if cmd = ipcInfo ∨ cmd = shmInfo then [.clear (ctx.arg 2) (abi.bytes .shminfo)]
    else []

/-- The `union semun` is looked for behind `arg[SYSCALL_ARG4]`. -/
def postSemctlHook : List Effect :=
  if ctx.ret.toInt < 0 then []
  else
    let su := ctx.arg 4
    let cmd := asInt (ctx.arg 2)
    if cmd = ipcStat ∨ cmd = semStat then [.read su 8, .clear (mem.load64 su) (abi.bytes .semidDs)]
    else if cmd = ipcInfo ∨ cmd = semInfo then [.read su 8, .clear (mem.load64 su) (abi.bytes .seminfo)]
    else []

def postMsgrcvHook : List Effect :=
  if ctx.ret.toInt ≤ 0 then [] else [.clear (ctx.arg 1) (ctx.ret + abi.bytes .long)]

/-- A value-result length: an `int` says how much of the buffer was filled. -/
def clearLength (buf len : BitVec 64) : List Effect :=
  [.read len 4, .clear buf ((mem.load32 len).signExtend 64), .clear len (abi.bytes .int)]

def postAcceptHook : List Effect :=
  if ctx.ret.toInt < 0 then []
  else if ctx.arg 1 ≠ 0 then clearLength abi mem (ctx.arg 1) (ctx.arg 2) else []

def postRecvfromHook : List Effect :=
  if ctx.ret.toInt ≤ 0 then []
  else .clear (ctx.arg 1) ctx.ret :: if ctx.arg 4 ≠ 0 then clearLength abi mem (ctx.arg 4) (ctx.arg 5) else []

def postGetsockoptHook : List Effect :=
  if ctx.ret.toInt < 0 then [] else clearLength abi mem (ctx.arg 3) (ctx.arg 4)

end Hooks

inductive Callback where
  | read | readlinkat | lookupDcookie | getdents | getcwd | modifyLdt | listxattr | getxattr | getgroups | mmap
  | readv | epollWait | poll | mqTimedreceive | getMempolicy | ioGetevents | mincore | rtSigpending | quotactl
  | fcntl | syslog | sysctl | recvmmsg | recvmsg | msgctl | shmctl | semctl | msgrcv | accept | recvfrom | getsockopt
  deriving DecidableEq

def Callback.run (abi : Abi) (ctx : SyscallCtx) (mem : Memory) : Callback → List Effect
  | read => postReadHook ctx
  | readlinkat => postReadlinkatHook ctx
  | lookupDcookie => postLookupDcookieHook ctx
  | getdents => postGetdentsHook ctx
  | getcwd => postGetcwdHook ctx
  | modifyLdt => postModifyLdtHook ctx
  | listxattr => postListxattrHook ctx
  | getxattr => postGetxattrHook ctx
  | getgroups => postGetgroupsHook abi ctx
  | mmap => postMmapHook ctx
  | readv => postReadvHook ctx mem
  | epollWait => postEpollWaitHook abi ctx
  | poll => postPollHook abi ctx
  | mqTimedreceive => postMqTimedreceiveHook abi ctx
  | getMempolicy => postGetMempolicyHook abi ctx
  | ioGetevents => postIoGeteventsHook abi ctx
  | mincore => postMincoreHook ctx
  | rtSigpending => postRtSigpendingHook ctx
  | quotactl => postQuotactlHook abi ctx
  | fcntl => postFcntlHook abi ctx
  | syslog => postSyslogHook ctx
  | sysctl => postSysctlHook abi ctx mem
  | recvmmsg => postRecvmmsgHook abi ctx mem
  | recvmsg => postRecvmsgHook abi ctx mem
  | msgctl => postMsgctlHook abi ctx
  | shmctl => postShmctlHook abi ctx
  | semctl => postSemctlHook abi ctx mem
  | msgrcv => postMsgrcvHook abi ctx
  | accept => postAcceptHook abi ctx mem
  | recvfrom => postRecvfromHook abi ctx mem
  | getsockopt => postGetsockoptHook abi ctx mem

/-- An entry of `map_args`. -/
inductive Size where
  | zero
  | sizeof (t : CType)
  /-- `sizeof(t) * 2` -/
  | twice (t : CType)
  deriving DecidableEq

instance : OfNat Size 0 := ⟨.zero⟩

def Size.bytes (abi : Abi) : Size → Nat
  | zero => 0
  | sizeof t => abi.sizeof t
  | twice t => abi.sizeof t * 2

theorem Size.bytes_lt (abi : Abi) (size : Size) : size.bytes abi < 2 ^ 32 := by
  cases size with
  | zero => exact Nat.pos_of_neZero _
  | sizeof t =>
    have := abi.small t
    change abi.sizeof t < _
    omega
  | twice t =>
    have := abi.small t
    change abi.sizeof t * 2 < _
    omega

structure SyscallDesc where
  nargs : Fin 7
  saveArgs : Nat
  retvalArgs : Nat
  mapArgs : Fin 6 → Size
  pre : Option Callback
  post : Option Callback

def noMap : Fin 6 → Size := fun _ => 0

/-- `{nargs, 0, 0, {0, 0, 0, 0, 0, 0}, NULL, NULL}` -/
def plain (nargs : Fin 7) : SyscallDesc := ⟨nargs, 0, 0, noMap, none, none⟩

/-- `{nargs, 1, 0, {0, 0, 0, 0, 0, 0}, NULL, post}` -/
def hooked (nargs : Fin 7) (post : Callback) : SyscallDesc := ⟨nargs, 1, 0, noMap, none, some post⟩

/-- `{nargs, 0, 1, mapArgs, NULL, NULL}` -/
def mapped (nargs : Fin 7) (mapArgs : Fin 6 → Size) : SyscallDesc := ⟨nargs, 0, 1, mapArgs, none, none⟩

/-- The rows of `syscall_desc`, ten system calls to a heading. -/
def rows : List SyscallDesc := [
  -- 0
  hooked 3 .read,
  plain 3, plain 3, plain 1,
  mapped 2 ![0, .sizeof .stat, 0, 0, 0, 0],
  mapped 2 ![0, .sizeof .stat, 0, 0, 0, 0],
  mapped 2 ![0, .sizeof .stat, 0, 0, 0, 0],
  hooked 3 .poll,
  plain 3,
  hooked 6 .mmap,
  -- 10
  plain 3, plain 2, plain 1,
  mapped 3 ![0, 0, .sizeof .sigaction, 0, 0, 0],
  mapped 4 ![0, .sizeof .sigset, .sizeof .sigset, 0, 0, 0],
  plain 1,
  ⟨3, 1, 0, noMap, none, none⟩,
  hooked 4 .read,
  plain 4,
  hooked 3 .readv,
  -- 20
  plain 3, plain 2,
  mapped 1 ![.twice .int, 0, 0, 0, 0, 0],
  mapped 5 ![0, .sizeof .fdSet, .sizeof .fdSet, .sizeof .fdSet, .sizeof .timeval, 0],
  plain 0, plain 5, plain 3,
  hooked 3 .mincore,
  plain 3, plain 3,
  -- 30
  plain 3,
  hooked 3 .shmctl,
  plain 1, plain 2, plain 0,
  mapped 2 ![.sizeof .timespec, .sizeof .timespec, 0, 0, 0, 0],
  mapped 2 ![0, .sizeof .itimerval, 0, 0, 0, 0],
  plain 1,
  mapped 3 ![0, 0, .sizeof .itimerval, 0, 0, 0],
  plain 0,
  -- 40
  mapped 4 ![0, 0, .sizeof .off, 0, 0, 0],
  plain 3,
  mapped 3 ![0, .sizeof .sockaddr, 0, 0, 0, 0],
  hooked 3 .accept,
  mapped 6 ![0, 0, 0, 0, .sizeof .sockaddr, 0],
  hooked 6 .recvfrom,
  mapped 3 ![0, .sizeof .msghdr, 0, 0, 0, 0],
  hooked 3 .recvmsg,
  plain 2,
  mapped 3 ![0, .sizeof .sockaddr, 0, 0, 0, 0],
  -- 50
  plain 2,
  hooked 3 .accept,
  hooked 3 .accept,
  mapped 4 ![0, 0, 0, .twice .int, 0, 0],
  ⟨5, 0, 1, noMap, none, none⟩,
  hooked 5 .getsockopt,
  ⟨4, 0, 1, noMap, none, none⟩,
  plain 0, plain 0, plain 3,
  -- 60
  plain 1,
  mapped 4 ![0, .sizeof .int, 0, .sizeof .rusage, 0, 0],
  plain 2,
  mapped 1 ![.sizeof .utsname, 0, 0, 0, 0, 0],
  plain 3, plain 3,
  hooked 4 .semctl,
  ⟨1, 0, 1, noMap, none, none⟩,
  plain 2, plain 4,
  -- 70
  hooked 5 .msgrcv,
  hooked 3 .msgctl,
  hooked 3 .fcntl,
  plain 2, plain 1, plain 1, plain 2, plain 2,
  hooked 3 .getdents,
  hooked 2 .getcwd,
  -- 80
  plain 1, plain 1, plain 2, plain 2, plain 1, plain 2, plain 2, plain 1, plain 2,
  ⟨3, 0, 1, noMap, none, none⟩,
  -- 90
  plain 2, plain 2, plain 3, plain 3, plain 3, plain 1,
  mapped 2 ![.sizeof .timeval, .sizeof .timezone, 0, 0, 0, 0],
  mapped 2 ![0, .sizeof .rlimit, 0, 0, 0, 0],
  mapped 2 ![0, .sizeof .rusage, 0, 0, 0, 0],
  mapped 1 ![.sizeof .sysinfo, 0, 0, 0, 0, 0],
  -- 100
  mapped 1 ![.sizeof .sysinfo, 0, 0, 0, 0, 0],
  plain 4, plain 0,
  hooked 3 .syslog,
  plain 0, plain 1, plain 1, plain 0, plain 0, plain 2,
  -- 110
  plain 0, plain 0, plain 0, plain 2, plain 2,
  hooked 2 .getgroups,
  plain 2, plain 3,
  mapped 3 ![.sizeof .uid, .sizeof .uid, .sizeof .uid, 0, 0, 0],
  plain 3,
  -- 120
  mapped 3 ![.sizeof .git, .sizeof .git, .sizeof .git, 0, 0, 0],
  plain 1, plain 1, plain 1, plain 1, plain 2, plain 2,
  hooked 2 .rtSigpending,
  mapped 4 ![0, .sizeof .siginfo, 0, 0, 0, 0],
  mapped 3 ![0, 0, .sizeof .siginfo, 0, 0, 0],
  -- 130
  plain 1,
  mapped 2 ![0, .sizeof .stack, 0, 0, 0, 0],
  plain 2, plain 3, plain 1, plain 1,
  mapped 2 ![0, .sizeof .ustat, 0, 0, 0, 0],
  mapped 2 ![0, .sizeof .statfs, 0, 0, 0, 0],
  mapped 2 ![0, .sizeof .statfs, 0, 0, 0, 0],
  plain 3,
  -- 140
  plain 2, plain 3, plain 2,
  mapped 2 ![0, .sizeof .schedParam, 0, 0, 0, 0],
  plain 3, plain 1, plain 1, plain 1,
  mapped 2 ![0, .sizeof .timespec, 0, 0, 0, 0],
  plain 2,
  -- 150
  plain 2, plain 1, plain 0, plain 0,
  hooked 3 .modifyLdt,
  plain 2,
  hooked 1 .sysctl,
  plain 5,
  ⟨2, 0, 1, noMap, none, none⟩,
  mapped 1 ![.sizeof .timex, 0, 0, 0, 0, 0],
  -- 160
  plain 2, plain 1, plain 0, plain 1, plain 2, plain 5, plain 2, plain 2, plain 1, plain 4,
  -- 170
  plain 2, plain 2, plain 1, plain 3, plain 1, plain 3, plain 2, plain 1, plain 1,
  hooked 4 .quotactl,
  -- 180
  plain 1, plain 1, plain 1, plain 1, plain 1, plain 1, plain 0, plain 3, plain 5, plain 5,
  -- 190
  plain 5,
  hooked 4 .getxattr,
  hooked 4 .getxattr,
  hooked 4 .getxattr,
  hooked 3 .listxattr,
  hooked 3 .listxattr,
  hooked 3 .listxattr,
  plain 2, plain 2, plain 2,
  -- 200
  plain 2,
  mapped 1 ![.sizeof .time, 0, 0, 0, 0, 0],
  plain 6, plain 3,
  mapped 3 ![0, 0, .sizeof .cpuSet, 0, 0, 0],
  plain 1,
  mapped 2 ![0, .sizeof .aioContext, 0, 0, 0, 0],
  plain 1,
  hooked 4 .ioGetevents,
  plain 3,
  -- 210
  mapped 3 ![0, 0, .sizeof .ioEvent, 0, 0, 0],
  plain 1,
  hooked 3 .lookupDcookie,
  plain 1, plain 1, plain 1, plain 5,
  hooked 3 .getdents,
  plain 1, plain 0,
  -- 220
  plain 4, plain 4,
  mapped 3 ![0, 0, .sizeof .timer, 0, 0, 0],
  mapped 4 ![0, 0, 0, .sizeof .itimerspec, 0, 0],
  mapped 2 ![0, .sizeof .itimerspec, 0, 0, 0, 0],
  plain 1, plain 1, plain 2,
  mapped 2 ![0, .sizeof .timespec, 0, 0, 0, 0],
  mapped 2 ![0, .sizeof .timespec, 0, 0, 0, 0],
  -- 230
  mapped 4 ![0, 0, 0, .sizeof .timespec, 0, 0],
  plain 1,
  hooked 4 .epollWait,
  plain 4, plain 3, plain 2, plain 1, plain 6, plain 3,
  hooked 5 .getMempolicy,
  -- 240
  plain 4, plain 1, plain 5,
  hooked 5 .mqTimedreceive,
  plain 2,
  mapped 3 ![0, 0, .sizeof .mqAttr, 0, 0, 0],
  plain 4,
  mapped 5 ![0, 0, .sizeof .siginfo, 0, .sizeof .rusage, 0],
  plain 4, plain 4,
  -- 250
  plain 5, plain 3, plain 2, plain 0, plain 3, plain 2, plain 4, plain 4, plain 3, plain 4,
  -- 260
  plain 5, plain 3,
  mapped 4 ![0, 0, .sizeof .stat, 0, 0, 0],
  plain 3, plain 4, plain 5, plain 3,
  hooked 4 .readlinkat,
  plain 3, plain 3,
  -- 270
  mapped 6 ![0, .sizeof .fdSet, .sizeof .fdSet, .sizeof .fdSet, 0, 0],
  hooked 5 .poll,
  plain 1, plain 2,
  mapped 3 ![0, .sizeof .robustListHeadPtr, .sizeof .size, 0, 0, 0],
  mapped 6 ![0, .sizeof .loff, 0, .sizeof .loff, 0, 0],
  plain 4, plain 4, plain 4,
  mapped 6 ![0, 0, 0, 0, .sizeof .int, 0],
  -- 280
  plain 4,
  ⟨6, 1, 0, noMap, none, none⟩,
  ⟨3, 0, 1, ![0, .sizeof .sigset, 0, 0, 0, 0], none, some .epollWait⟩,
  plain 2, plain 1, plain 4,
  mapped 4 ![0, 0, 0, .sizeof .itimerspec, 0, 0],
  mapped 2 ![0, .sizeof .itimerspec, 0, 0, 0, 0],
  hooked 4 .accept,
  plain 4,
  -- 290
  plain 2, plain 1,
  ⟨3, 1, 0, noMap, none, none⟩,
  mapped 2 ![.twice .int, 0, 0, 0, 0, 0],
  plain 1, plain 5, plain 5,
  mapped 4 ![0, 0, 0, .sizeof .siginfo, 0, 0],
  mapped 5 ![.sizeof .perfEventAttr, 0, 0, 0, 0, 0],
  hooked 5 .recvmmsg,
  -- 300
  plain 2, plain 5,
  mapped 4 ![0, 0, 0, .sizeof .rlimit, 0, 0],
  mapped 5 ![0, 0, .sizeof .fileHandle, .sizeof .int, 0, 0],
  mapped 3 ![0, 0, .sizeof .fileHandle, 0, 0, 0],
  mapped 2 ![0, .sizeof .timex, 0, 0, 0, 0],
  plain 1, plain 4, plain 2,
  mapped 3 ![.sizeof .unsigned, .sizeof .unsigned, .sizeof .getcpuCache, 0, 0, 0],
  -- 310
  plain 6, plain 6, plain 5, plain 3, plain 3,
  mapped 4 ![0, .sizeof .schedAttr, 0, 0, 0, 0]
]

theorem rows_length : rows.length = syscallMax := by decide +kernel

def syscallDesc (nr : Fin syscallMax) : SyscallDesc := rows.get (nr.cast rows_length.symm)

theorem syscallDesc_mem (nr : Fin syscallMax) : (syscallDesc nr,nr.val) ∈ rows.zipIdx := by
  have numbered (table : List SyscallDesc) (i : Fin table.length) : (table.get i,i.val) ∈ table.zipIdx :=
    List.mk_mem_zipIdx_iff_getElem?.mpr (List.getElem?_eq_getElem i.isLt)
  have row := numbered rows (nr.cast rows_length.symm)
  rw [Fin.val_cast] at row
  exact row

end Libdft.SyscallTable
