import Libdft.DefaultHandling

/-! Whether a system call is handled by what it was given alone. The arguments that earlier
calls of the thread left in its context are arbitrary; two hooks of the shipped table
look at one of them. -/
namespace Libdft.StaleArguments

open Syscall SyscallTable SyscallApi TagMap TagTraits

/-- The arguments that a hook looks at. -/
def uses : Callback → List (Fin 6)
  | .read | .lookupDcookie | .getdents | .modifyLdt | .listxattr | .getgroups => [1]
  | .epollWait | .recvmsg | .msgrcv => [1]
  | .readlinkat | .getxattr => [2]
  | .getcwd | .sysctl => [0]
  | .mmap | .mqTimedreceive => [1, 3]
  | .readv | .mincore | .fcntl | .msgctl | .shmctl | .accept => [1, 2]
  | .poll | .rtSigpending | .syslog => [0, 1]
  | .getMempolicy => [0, 1, 4]
  | .ioGetevents | .getsockopt => [3, 4]
  | .quotactl => [0, 3]
  | .recvmmsg => [1, 4]
  | .semctl => [2, 4]
  | .recvfrom => [1, 4, 5]

/-- A hook does nothing with the other arguments. -/
theorem run_congr (abi : Abi) (mem : Memory) {ctx ctx' : SyscallCtx} (callback : Callback)
    (ret : ctx.ret = ctx'.ret) (args : ∀ i ∈ uses callback, ctx.arg i = ctx'.arg i) :
    callback.run abi ctx mem = callback.run abi ctx' mem := by
  cases callback <;> simp only [uses,List.forall_mem_cons] at args
  case read | lookupDcookie | getdents | modifyLdt | readlinkat | getcwd =>
    simp only [Callback.run,postReadHook,postLookupDcookieHook,postGetdentsHook,postModifyLdtHook,postReadlinkatHook,
      postGetcwdHook,clearReturned,ret,args]
  case listxattr | getxattr =>
    simp only [Callback.run,postListxattrHook,postGetxattrHook,clearReturnedUnlessNull,ret,args]
  case mmap => simp only [Callback.run,postMmapHook,ret,args]
  case readv | recvmmsg | recvmsg =>
    simp only [Callback.run,postReadvHook,postRecvmmsgHook,postRecvmsgHook,ret,args]
  case getgroups | epollWait | poll | mqTimedreceive | getMempolicy | ioGetevents | mincore | rtSigpending =>
    simp only [Callback.run,postGetgroupsHook,postEpollWaitHook,postPollHook,postMqTimedreceiveHook,
      postGetMempolicyHook,postIoGeteventsHook,postMincoreHook,postRtSigpendingHook,ret,args]
  case quotactl | fcntl | syslog | sysctl | msgctl | shmctl | semctl | msgrcv =>
    simp only [Callback.run,postQuotactlHook,postFcntlHook,postSyslogHook,postSysctlHook,postMsgctlHook,
      postShmctlHook,postSemctlHook,postMsgrcvHook,ret,args]
  case accept | recvfrom | getsockopt =>
    simp only [Callback.run,postAcceptHook,postRecvfromHook,postGetsockoptHook,ret,args]

/-- `__NR_semctl` and `__NR_io_getevents` -/
def nrSemctl : Nat := 66
def nrIoGetevents : Nat := 208

/-- The hook looks at saved arguments only. -/
def Covered (d : SyscallDesc) : Bool :=
  match d.post with
  | none => true
  | some callback => (uses callback).all fun i => i.val < d.nargs.val

/-- Both facts are read off the table in one pass, with each row's number beside it. -/
theorem table_rows : ∀ row ∈ rows.zipIdx, row.1.pre = none ∧
    (Covered row.1 ∨ row.2 = nrSemctl ∨ row.2 = nrIoGetevents) := by
  decide +kernel

theorem covered (nr : Fin syscallMax) (semctl : nr.val ≠ nrSemctl) (getevents : nr.val ≠ nrIoGetevents) :
    Covered (syscallDesc nr) :=
  (table_rows _ (syscallDesc_mem nr)).2.resolve_right (not_or.mpr ⟨semctl,getevents⟩)

theorem pre_none (nr : Fin syscallMax) : (syscallDesc nr).pre = none := (table_rows _ (syscallDesc_mem nr)).1

/-- Both hooks look one argument too far. -/
theorem semctl_row (nr : Fin syscallMax) (row : nr.val = nrSemctl) :
    (syscallDesc nr).nargs = 4 ∧ Saves (syscallDesc nr) ∧ (syscallDesc nr).post = some .semctl := by
  obtain rfl : nr = ⟨nrSemctl,by decide⟩ := Fin.ext row
  decide +kernel

theorem getevents_row (nr : Fin syscallMax) (row : nr.val = nrIoGetevents) :
    (syscallDesc nr).nargs = 4 ∧ Saves (syscallDesc nr) ∧ (syscallDesc nr).post = some .ioGetevents := by
  obtain rfl : nr = ⟨nrIoGetevents,by decide⟩ := Fin.ext row
  decide +kernel

section Call
variable (abi : Abi) (mem : Memory) (nr : Fin syscallMax) (args : Fin 6 → BitVec 64) (ret : BitVec 64)

/-- What happens around one system call of a thread with the given context. -/
def callEffects (ctx : SyscallCtx) : List Effect :=
  let entered := sysenterSave abi syscallDesc ctx mem nr args
  entered.2 ++ (sysexitSave abi syscallDesc entered.1 mem ret).2

/-- The context that the post hook finds. -/
def saved (ctx : SyscallCtx) : SyscallCtx := ⟨some nr, saveArgs (syscallDesc nr).nargs ctx.arg args, ret⟩

theorem callEffects_eq (ctx : SyscallCtx) :
    callEffects abi mem nr args ret ctx =
      if Saves (syscallDesc nr) then
        match (syscallDesc nr).post with
        | some callback => callback.run abi (saved nr args ret ctx) mem
        | none => clearMapped abi (saved nr args ret ctx) (syscallDesc nr)
      else [] := by
  unfold callEffects sysenterSave
  rw [dif_pos nr.isLt]
  by_cases saves : Saves (syscallDesc nr)
  · cases post : (syscallDesc nr).post <;>
      simp [saves,pre_none,runCallback,sysexitSave,post,saved]
  · simp [saves,sysexitSave]

variable {nr}

theorem saved_arg {i : Fin 6} (inside : i.val < (syscallDesc nr).nargs.val) (ctx : SyscallCtx) :
    (saved nr args ret ctx).arg i = args i := if_pos inside

theorem saved_arg_stale {i : Fin 6} (outside : ¬ i.val < (syscallDesc nr).nargs.val) (ctx : SyscallCtx) :
    (saved nr args ret ctx).arg i = ctx.arg i := if_neg outside

theorem clearMapped_saved (ctx ctx' : SyscallCtx) :
    clearMapped abi (saved nr args ret ctx) (syscallDesc nr) =
      clearMapped abi (saved nr args ret ctx') (syscallDesc nr) := by
  unfold clearMapped
  congr 1
  funext i
  by_cases inside : i.val < (syscallDesc nr).nargs.val
  · rw [saved_arg args ret inside ctx,saved_arg args ret inside ctx']
  · rw [if_neg (fun h => inside h.1),if_neg (fun h => inside h.1)]

/-- Every other call is handled by its own arguments. -/
theorem callEffects_independent (semctl : nr.val ≠ nrSemctl) (getevents : nr.val ≠ nrIoGetevents)
    (ctx ctx' : SyscallCtx) : callEffects abi mem nr args ret ctx = callEffects abi mem nr args ret ctx' := by
  have inside := covered nr semctl getevents
  rw [callEffects_eq,callEffects_eq]
  split
  · cases post : (syscallDesc nr).post with
    | none => exact clearMapped_saved abi args ret ctx ctx'
    | some callback =>
      refine run_congr abi mem callback rfl fun i used => ?_
      have small : i.val < (syscallDesc nr).nargs.val := by
        simp only [Covered,post,List.all_eq_true,decide_eq_true_iff] at inside
        exact inside i used
      rw [saved_arg args ret small ctx,saved_arg args ret small ctx']
  · rfl

theorem callEffects_getevents (number : nr.val = nrIoGetevents) (ctx : SyscallCtx) :
    callEffects abi mem nr args ret ctx =
      if ret.toInt ≤ 0 then []
      else .clear (args 3) (abi.bytes .ioEvent * ret) ::
        if ctx.arg 4 ≠ 0 then [.clear (ctx.arg 4) (abi.bytes .timespec)] else [] := by
  obtain ⟨nargs,saves,post⟩ := getevents_row nr number
  have own : (saved nr args ret ctx).arg 3 = args 3 := saved_arg args ret (by rw [nargs]; decide) ctx
  have stale : (saved nr args ret ctx).arg 4 = ctx.arg 4 := saved_arg_stale args ret (by rw [nargs]; decide) ctx
  rw [callEffects_eq,if_pos saves,post]
  simp only [Callback.run,postIoGeteventsHook,own,stale]
  rfl

theorem callEffects_semctl (number : nr.val = nrSemctl) (ctx : SyscallCtx) :
    callEffects abi mem nr args ret ctx =
      if ret.toInt < 0 then []
      else if asInt (args 2) = ipcStat ∨ asInt (args 2) = semStat then
        [.read (ctx.arg 4) 8, .clear (mem.load64 (ctx.arg 4)) (abi.bytes .semidDs)]
      else if asInt (args 2) = ipcInfo ∨ asInt (args 2) = semInfo then
        [.read (ctx.arg 4) 8, .clear (mem.load64 (ctx.arg 4)) (abi.bytes .seminfo)]
      else [] := by
  obtain ⟨nargs,saves,post⟩ := semctl_row nr number
  have own : (saved nr args ret ctx).arg 2 = args 2 := saved_arg args ret (by rw [nargs]; decide) ctx
  have stale : (saved nr args ret ctx).arg 4 = ctx.arg 4 := saved_arg_stale args ret (by rw [nargs]; decide) ctx
  rw [callEffects_eq,if_pos saves,post]
  simp only [Callback.run,postSemctlHook,own,stale]
  rfl

end Call

/-- The loads from the application. -/
def reads (effects : List Effect) : List (BitVec 64 × Nat) :=
  effects.filterMap fun
    | .read addr size => some (addr, size)
    | .clear _ _ => none

section View
variable {T : Type} [TagTraits T]

/-- The same tags afterwards, and the same loads on the way. -/
structure SameView (dir : TagDir T) (effects effects' : List Effect) : Prop where
  tags : ∀ a, tagmapGetb (applyEffects dir effects) a = tagmapGetb (applyEffects dir effects') a
  loads : reads effects = reads effects'

def Independent (abi : Abi) (mem : Memory) (nr : Fin syscallMax) (args : Fin 6 → BitVec 64) (ret : BitVec 64)
    (dir : TagDir T) : Prop :=
  ∀ ctx ctx' : SyscallCtx, ctx.nr = ctx'.nr → ctx.ret = ctx'.ret →
    SameView dir (callEffects abi mem nr args ret ctx) (callEffects abi mem nr args ret ctx')

/-- A thread context that an earlier call left with this sixth of its arguments. -/
def leftover (stale : BitVec 64) : SyscallCtx := ⟨none, fun _ => stale, 0⟩

variable {abi : Abi} {mem : Memory} {nr : Fin syscallMax} {args : Fin 6 → BitVec 64} {ret : BitVec 64} {dir : TagDir T}

/-- The commands of `semctl` for which the hook looks behind the argument. -/
def semctlCommands : List Int := [ipcStat, semStat, ipcInfo, semInfo]

theorem semctl_independent_iff (number : nr.val = nrSemctl) :
    Independent abi mem nr args ret dir ↔ (0 ≤ ret.toInt → asInt (args 2) ∉ semctlCommands) := by
  have effects := callEffects_semctl abi mem args ret number
  constructor
  · intro independent success command
    have loads := (independent (leftover 0) (leftover 1) rfl rfl).loads
    have looks (ctx : SyscallCtx) : reads (callEffects abi mem nr args ret ctx) = [(ctx.arg 4,8)] := by
      rw [effects,if_neg (Int.not_lt.mpr success)]
      split
      next => rfl
      next other =>
        simp only [semctlCommands,List.mem_cons,List.not_mem_nil,or_false] at command
        rw [if_pos (by tauto)]
        rfl
    rw [looks,looks] at loads
    exact absurd loads (by decide)
  · intro harmless ctx ctx' _ _
    have nothing (ctx : SyscallCtx) : callEffects abi mem nr args ret ctx = [] := by
      rw [effects]
      by_cases failed : ret.toInt < 0
      · rw [if_pos failed]
      · have other := harmless (Int.not_lt.mp failed)
        simp only [semctlCommands,List.mem_cons,List.not_mem_nil,or_false,not_or] at other
        rw [if_neg failed,if_neg (by tauto),if_neg (by tauto)]
    rw [nothing,nothing]
    exact ⟨fun _ => rfl,rfl⟩

/-- The bytes behind the fifth argument are reached from that address upwards only. -/
theorem cleared_stale {stale : BitVec 64} {a : Nat} (present : stale ≠ 0)
    (inside : cleared stale.toNat (abi.bytes .timespec).toNat a) : 0 < a := by
  have positive : stale.toNat ≠ 0 := fun zero => present (BitVec.eq_of_toNat_eq zero)
  have := inside.1
  omega

/-- Where nothing else carries a tag, a stale timeout changes none. -/
theorem getb_getevents (number : nr.val = nrIoGetevents) (success : 0 < ret.toInt)
    (clear : ∀ a, 0 < a → a ≤ maxAddr → ¬ cleared (args 3).toNat (abi.bytes .ioEvent * ret).toNat a →
      tagmapGetb dir a = some clearedVal) (ctx : SyscallCtx) (a : Nat) :
    tagmapGetb (applyEffects dir (callEffects abi mem nr args ret ctx)) a =
      if cleared (args 3).toNat (abi.bytes .ioEvent * ret).toNat a ∧ a ≤ maxAddr then some clearedVal
      else tagmapGetb dir a := by
  rw [callEffects_getevents abi mem args ret number,if_neg (Int.not_le.mpr success),getb_applyEffects]
  by_cases window : cleared (args 3).toNat (abi.bytes .ioEvent * ret).toNat a
  · exact if_congr (and_congr_left fun _ => iff_of_true ⟨_,List.mem_cons_self,window⟩ window) rfl rfl
  · refine Eq.trans ?_ (if_neg fun h => window h.1).symm
    refine ite_eq_right_iff.mpr ?_
    rintro ⟨⟨effect,member,clears⟩,user⟩
    rcases List.mem_cons.mp member with rfl | member
    · exact absurd clears window
    · split at member
      next present =>
        rw [List.mem_singleton] at member
        subst member
        exact (clear a (cleared_stale present clears) user window).symm
      next => cases member

theorem reads_getevents (number : nr.val = nrIoGetevents) (ctx : SyscallCtx) :
    reads (callEffects abi mem nr args ret ctx) = [] := by
  rw [callEffects_getevents abi mem args ret number]
  split
  · rfl
  · split <;> rfl

theorem getevents_independent_iff (number : nr.val = nrIoGetevents) :
    Independent abi mem nr args ret dir ↔
      (0 < ret.toInt → ∀ a, 0 < a → a ≤ maxAddr →
        ¬ cleared (args 3).toNat (abi.bytes .ioEvent * ret).toNat a → tagmapGetb dir a = some clearedVal) := by
  have effects := callEffects_getevents abi mem args ret number
  constructor
  · intro independent success a positive user outside
    have tags := (independent (leftover 0) (leftover (BitVec.ofNat 64 a)) rfl rfl).tags a
    have address : (BitVec.ofNat 64 a).toNat = a := by
      unfold maxAddr at user
      rw [BitVec.toNat_ofNat]
      omega
    have present : (leftover (BitVec.ofNat 64 a)).arg 4 ≠ 0 := by
      intro zero
      have := congrArg BitVec.toNat zero
      change (BitVec.ofNat 64 a).toNat = 0 at this
      omega
    have here : cleared (BitVec.ofNat 64 a).toNat (abi.bytes .timespec).toNat a := by
      have positive := abi.positive .timespec
      have small := abi.small .timespec
      refine (cleared_iff _ (by omega) user).mpr ?_
      omega
    rw [effects,effects,if_neg (Int.not_le.mpr success),if_neg (Int.not_le.mpr success),if_pos present,
      if_neg (by simp [leftover]),getb_applyEffects,getb_applyEffects,if_neg,if_pos] at tags
    · exact tags
    · exact ⟨⟨_,List.mem_cons_of_mem _ List.mem_cons_self,here⟩,user⟩
    · rintro ⟨⟨effect,member,clears⟩,_⟩
      rw [List.mem_singleton] at member
      subst member
      exact outside clears
  · intro clear ctx ctx' _ _
    refine ⟨fun a => ?_,by rw [reads_getevents number,reads_getevents number]⟩
    by_cases success : 0 < ret.toInt
    · rw [getb_getevents number success (clear success),getb_getevents number success (clear success)]
    · rw [effects,effects,if_pos (Int.not_lt.mp success),if_pos (Int.not_lt.mp success)]

/-- A call of the shipped table is handled by its own arguments and memory alone, but for
successful `io_getevents` calls, whose stale fifth argument clears tags outside the
events, and the four `semctl` commands that dereference theirs. -/
theorem independent_iff (abi : Abi) (mem : Memory) (nr : Fin syscallMax) (args : Fin 6 → BitVec 64) (ret : BitVec 64)
    (dir : TagDir T) :
    Independent abi mem nr args ret dir ↔
      (nr.val = nrIoGetevents → 0 < ret.toInt → ∀ a, 0 < a → a ≤ maxAddr →
        ¬ cleared (args 3).toNat (abi.bytes .ioEvent * ret).toNat a → tagmapGetb dir a = some clearedVal) ∧
      (nr.val = nrSemctl → 0 ≤ ret.toInt → asInt (args 2) ∉ semctlCommands) := by
  by_cases getevents : nr.val = nrIoGetevents
  · rw [getevents_independent_iff getevents,forall_prop_of_true getevents]
    exact (and_iff_left fun semctl => absurd (getevents.symm.trans semctl) (by decide)).symm
  · by_cases semctl : nr.val = nrSemctl
    · rw [semctl_independent_iff semctl,forall_prop_of_true semctl]
      exact (and_iff_right fun number => absurd number getevents).symm
    · refine iff_of_true (fun ctx ctx' _ _ => ?_) ⟨fun number => absurd number getevents,fun number => absurd number semctl⟩
      rw [callEffects_independent abi mem args ret semctl getevents ctx ctx']
      exact ⟨fun _ => rfl,rfl⟩

/-- A successful `semctl(id, 0, IPC_STAT, buf)` loads from wherever an earlier call's fifth argument points. -/
theorem semctl_depends :
    ¬ ∀ (abi : Abi) (mem : Memory) (nr : Fin syscallMax) (args : Fin 6 → BitVec 64) (ret : BitVec 64)
      (dir : TagDir UInt8), Independent abi mem nr args ret dir := by
  intro claim
  have independent := claim sampleAbi (fun _ => 0) ⟨66,by decide⟩ (fun _ => 2) 0 empty
  rw [semctl_independent_iff rfl] at independent
  exact absurd (independent (by decide)) (by decide)

end View

end Libdft.StaleArguments
