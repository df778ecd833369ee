import Libdft.SyscallHook

/-! What the taint source does with a failed system call: for each hook, exactly when
the tags of memory, the tracked descriptors and the position of standard input stay as
they were. A hook that never comes back has not left them unchanged. -/
namespace Libdft.FailedCalls

open Syscall SyscallHook TagMap TagTraits

variable {T : Type} [TagTraits T]

structure SameTaint (s next : Taint T) : Prop where
  tags : ∀ a, tagmapGetb next.tagDir a = tagmapGetb s.tagDir a
  fds : next.fuzzingFdSet = s.fuzzingFdSet
  stdin : next.stdinReadOff = s.stdinReadOff

def Unchanged (env : Env T) (ctx : SyscallCtx) (s : Taint T) (call : FileCall) : Prop :=
  ∃ next, Returns (fun fuel => call.post env fuel ctx s) next ∧ SameTaint s next

/-- `add_fuzzing_fd` has no effect. -/
def NothingToAdd (s : Taint T) (fd : Int) : Prop := 0 < fd → fd ∈ s.fuzzingFdSet

/-- The user bytes of the buffer hold the tags that the loop over it would store, and
the loop ends. -/
def AlreadyTainted (env : Env T) (s : Taint T) (readOff : BitVec 32) (buf count : BitVec 64) : Prop :=
  count.toNat < 2 ^ 32 ∧ ∀ a ≤ maxAddr, (distance buf a).toNat < count.toNat →
    tagmapGetb s.tagDir a = some (env.tagAlloc (readOff + (distance buf a).setWidth 32))

/-- The user bytes that `tagmap_clrn` goes over are clear. -/
def AlreadyClear (s : Taint T) (buf n : BitVec 64) : Prop :=
  ∀ a ≤ maxAddr, cleared buf.toNat n.toNat a → tagmapGetb s.tagDir a = some clearedVal

/-- How many bytes `read` and `pread64` taint. -/
def taintedCount (nr count : BitVec 64) : BitVec 64 := if count > nr + 32 then nr + 32 else count

/-- The path can be read, and where it is the input file's there is nothing to add. -/
def PathHarmless (env : Env T) (s : Taint T) (addr : BitVec 64) (fd : Int) : Prop :=
  ∃ path, env.cstring addr = some path ∧ (strstr path fuzzingInputFile → NothingToAdd s fd)

/-- Nothing that the hook would do to the taint state makes a difference. -/
def Harmless (env : Env T) (ctx : SyscallCtx) (s : Taint T) : FileCall → Prop
  | .open => 0 ≤ asInt ctx.ret → PathHarmless env s (ctx.arg 0) (asInt ctx.ret)
  | .openat => PathHarmless env s (ctx.arg 1) (asInt ctx.ret)
  | .dup => isFuzzingFd s (asInt (ctx.arg 0)) → NothingToAdd s (asInt ctx.ret)
  | .dup2 | .dup3 =>
    0 ≤ asInt ctx.ret → isFuzzingFd s (asInt (ctx.arg 0)) → NothingToAdd s (asInt (ctx.arg 1))
  | .close => True
  | .read =>
    let fd := asInt (ctx.arg 0)
    if isFuzzingFd s fd then
      if fd = stdinFileno then
        asUnsigned ctx.ret = 0 ∧
          AlreadyTainted env s s.stdinReadOff (ctx.arg 1) (taintedCount ctx.ret (ctx.arg 2))
      else AlreadyTainted env s (asUnsigned (env.lseek fd) - asUnsigned ctx.ret) (ctx.arg 1)
        (taintedCount ctx.ret (ctx.arg 2))
    else AlreadyClear s (ctx.arg 1) ctx.ret
  | .pread64 =>
    if isFuzzingFd s (asInt (ctx.arg 0)) then
      AlreadyTainted env s (asUnsigned (ctx.arg 3)) (ctx.arg 1) (taintedCount ctx.ret (ctx.arg 2))
    else AlreadyClear s (ctx.arg 1) (ctx.arg 2)
  | .mmap =>
    ctx.ret = mapFailed ∨ asUnsigned (ctx.arg 2) &&& 1 = 0 ∨
      if isFuzzingFd s (asInt (ctx.arg 4)) then
        AlreadyTainted env s (asUnsigned (ctx.arg 5)) (ctx.arg 0) (ctx.arg 1)
      else AlreadyClear s (ctx.arg 0) (ctx.arg 1)
  | .munmap => ctx.ret = mapFailed ∨ AlreadyClear s (ctx.arg 0) (ctx.arg 1)

section Effects
variable {s : Taint T}

theorem SameTaint.refl (s : Taint T) : SameTaint s s := ⟨fun _ => rfl,rfl,rfl⟩

theorem sameTaint_add {fd : Int} : SameTaint s (addFuzzingFd s fd) ↔ NothingToAdd s fd := by
  unfold addFuzzingFd NothingToAdd
  split
  next positive =>
    constructor
    · intro same _
      exact Finset.insert_eq_self.mp same.fds
    · intro member
      exact ⟨fun _ => rfl,Finset.insert_eq_self.mpr (member positive),rfl⟩
  next negative => exact iff_of_true (.refl s) fun positive => absurd positive negative

theorem sameTaint_clrn {buf n : BitVec 64} :
    SameTaint s { s with tagDir := tagmapClrn s.tagDir buf.toNat n.toNat } ↔ AlreadyClear s buf n := by
  constructor
  · intro same a user inside
    have := same.tags a
    rw [tagmapClrn,getb_clrn tagmapSetb_puts,if_pos ⟨inside,user⟩] at this
    exact this.symm
  · intro clear
    refine ⟨fun a => ?_,rfl,rfl⟩
    rw [tagmapClrn,getb_clrn tagmapSetb_puts]
    split
    next h => exact (clear a h.2 h.1).symm
    next => rfl

/-- The part that `read`, `pread64` and `mmap` share for a tracked descriptor. -/
theorem sameTaint_taintBytes {env : Env T} {readOff stdin : BitVec 32} {buf count : BitVec 64} :
    (∃ next, Returns (fun fuel => taintBytes env fuel readOff buf count s.tagDir >>= fun tagDir =>
        (pure { s with tagDir, stdinReadOff := stdin, tainted := true } : Outcome (Taint T))) next ∧ SameTaint s next) ↔
      stdin = s.stdinReadOff ∧ AlreadyTainted env s readOff buf count := by
  by_cases small : count.toNat < 2 ^ 32
  · have returns := (taintBytes_returns env readOff buf s.tagDir small).map fun tagDir =>
      ({ s with tagDir, stdinReadOff := stdin, tainted := true } : Taint T)
    constructor
    · rintro ⟨next,returns',same⟩
      cases returns'.unique returns
      refine ⟨same.stdin,small,fun a user inside => ?_⟩
      have := same.tags a
      rw [getb_taintRange env readOff buf s.tagDir (by omega),if_pos ⟨inside,user⟩] at this
      exact this.symm
    · rintro ⟨rfl,_,tainted⟩
      refine ⟨_,returns,fun a => ?_,rfl,rfl⟩
      rw [getb_taintRange env readOff buf s.tagDir (by omega)]
      split
      next h => exact (tainted a h.2 h.1).symm
      next => rfl
  · constructor
    · rintro ⟨next,returns,_⟩
      simp only [taintBytes_running env _ readOff buf s.tagDir (Nat.not_lt.mp small),Outcome.running_bind] at returns
      exact absurd returns not_returns_running
    · rintro ⟨_,h,_⟩
      exact absurd h small

theorem branch_iff {p : Prop} [Decidable p] {yes yes' no : Prop} (h : yes ↔ yes') :
    (if p then yes else no) ↔ if p then yes' else no := by
  split
  · exact h
  · exact Iff.rfl

/-- Taint the buffer of a tracked descriptor, clear that of another. -/
theorem sameTaint_source {env : Env T} {readOff stdin : BitVec 32} {buf count n : BitVec 64} {tracked : Bool} :
    (∃ next, Returns (fun fuel =>
        if tracked then taintBytes env fuel readOff buf count s.tagDir >>= fun tagDir =>
          (pure { s with tagDir, stdinReadOff := stdin, tainted := true } : Outcome (Taint T))
        else pure { s with tagDir := tagmapClrn s.tagDir buf.toNat n.toNat }) next ∧ SameTaint s next) ↔
      if tracked then stdin = s.stdinReadOff ∧ AlreadyTainted env s readOff buf count else AlreadyClear s buf n := by
  cases tracked with
  | true => exact sameTaint_taintBytes
  | false =>
    refine Iff.trans ⟨?_,fun same => ⟨_,⟨0,fun _ _ => rfl⟩,same⟩⟩ sameTaint_clrn
    rintro ⟨next,returns,same⟩
    rwa [returns.eq_of fun _ => rfl] at same

theorem unchanged_of_returned {env : Env T} {ctx : SyscallCtx} {call : FileCall} {next : Taint T}
    (returned : ∀ fuel, call.post env fuel ctx s = .returned next) : Unchanged env ctx s call ↔ SameTaint s next := by
  constructor
  · rintro ⟨_,returns,same⟩
    rwa [returns.eq_of returned] at same
  · exact fun same => ⟨next,⟨0,fun fuel _ => returned fuel⟩,same⟩

/-- A conditional effect is harmless when its condition makes the effect harmless. -/
theorem sameTaint_ite {p : Prop} [Decidable p] {next : Taint T} :
    SameTaint s (if p then next else s) ↔ (p → SameTaint s next) := by
  split
  next h => exact ⟨fun same _ => same,fun same => same h⟩
  next h => exact iff_of_true (.refl s) fun yes => absurd yes h

end Effects

section Hooks
variable {env : Env T} {ctx : SyscallCtx} {s : Taint T}

/-- The end of the hooks of `open` and `openat`. -/
theorem path_unchanged {call : FileCall} {addr : BitVec 64} {fd : Int}
    (hook : ∀ fuel, call.post env fuel ctx s = fileName env addr >>= fun path =>
      return if strstr path fuzzingInputFile then addFuzzingFd s fd else s) :
    Unchanged env ctx s call ↔ PathHarmless env s addr fd := by
  unfold PathHarmless
  cases read : env.cstring addr with
  | none =>
    have stops (fuel : Nat) : call.post env fuel ctx s = .trapped := by simp [hook,fileName,read]
    refine iff_of_false ?_ ?_
    · rintro ⟨_,⟨enough,returns⟩,_⟩
      cases (stops enough).symm.trans (returns enough (Nat.le_refl _))
    · rintro ⟨_,none,_⟩
      cases none
  | some path =>
    have returned (fuel : Nat) : call.post env fuel ctx s = .returned (if strstr path fuzzingInputFile then addFuzzingFd s fd else s) := by
      simp [hook,fileName,read]
    refine (unchanged_of_returned returned).trans (sameTaint_ite.trans ((imp_congr_right fun _ => sameTaint_add).trans ?_))
    simp

theorem open_unchanged : Unchanged env ctx s .open ↔ Harmless env ctx s .open := by
  by_cases negative : asInt ctx.ret < 0
  · have returned (fuel : Nat) : FileCall.open.post env fuel ctx s = .returned s := if_pos negative
    exact iff_of_true ((unchanged_of_returned returned).mpr (.refl s)) fun positive => absurd positive (Int.not_le.mpr negative)
  · have hook (fuel : Nat) : FileCall.open.post env fuel ctx s = fileName env (ctx.arg 0) >>= fun path =>
        return if strstr path fuzzingInputFile then addFuzzingFd s (asInt ctx.ret) else s := if_neg negative
    exact (path_unchanged hook).trans ⟨fun same _ => same,fun same => same (Int.not_lt.mp negative)⟩

theorem openat_unchanged : Unchanged env ctx s .openat ↔ Harmless env ctx s .openat :=
  path_unchanged fun _ => rfl

theorem dup_unchanged : Unchanged env ctx s .dup ↔ Harmless env ctx s .dup := by
  refine (unchanged_of_returned fun _ => rfl).trans ?_
  by_cases negative : asInt ctx.ret < 0
  · rw [postDupHook,if_pos negative]
    exact iff_of_true (.refl s) fun _ positive => absurd positive (by omega)
  · rw [postDupHook,if_neg negative]
    exact sameTaint_ite.trans (imp_congr_right fun _ => sameTaint_add)

theorem postDup2Hook_same (env : Env T) : SameTaint s (postDup2Hook ctx s) ↔ Harmless env ctx s .dup2 := by
  by_cases negative : asInt ctx.ret < 0
  · rw [postDup2Hook,if_pos negative]
    exact iff_of_true (.refl s) fun positive => absurd positive (by omega)
  · rw [postDup2Hook,if_neg negative]
    refine sameTaint_ite.trans ((imp_congr_right fun _ => sameTaint_add).trans ?_)
    exact ⟨fun h _ => h,fun h => h (Int.not_lt.mp negative)⟩

theorem close_unchanged (failed : ctx.ret.toInt < 0) : Unchanged env ctx s .close :=
  ⟨s,⟨0,fun _ _ => congrArg Outcome.returned (if_pos failed)⟩,.refl s⟩

theorem read_unchanged (nonzero : 0 < ctx.ret.toNat) : Unchanged env ctx s .read ↔ Harmless env ctx s .read := by
  have hook (fuel : Nat) : FileCall.read.post env fuel ctx s = postReadHook env fuel ctx s := rfl
  simp only [Unchanged,hook,postReadHook,if_neg (Nat.not_le.mpr nonzero)]
  refine sameTaint_source.trans (branch_iff ?_)
  by_cases stdin : asInt (ctx.arg 0) = stdinFileno
  · simp [stdin,taintedCount]
  · simp [stdin,taintedCount]

theorem pread64_unchanged (nonzero : 0 < ctx.ret.toNat) :
    Unchanged env ctx s .pread64 ↔ Harmless env ctx s .pread64 := by
  have hook (fuel : Nat) : FileCall.pread64.post env fuel ctx s = postPread64Hook env fuel ctx s := rfl
  simp only [Unchanged,hook,postPread64Hook,if_neg (Nat.not_le.mpr nonzero)]
  exact sameTaint_source.trans (branch_iff (and_iff_right rfl))

theorem mmap_unchanged : Unchanged env ctx s .mmap ↔ Harmless env ctx s .mmap := by
  have hook (fuel : Nat) : FileCall.mmap.post env fuel ctx s = postMmapHook env fuel ctx s := rfl
  by_cases guard : ctx.ret = mapFailed ∨ asUnsigned (ctx.arg 2) &&& 1 = 0
  · have skipped (fuel : Nat) : FileCall.mmap.post env fuel ctx s = .returned s := if_pos guard
    exact iff_of_true ((unchanged_of_returned skipped).mpr (.refl s)) (guard.imp_right .inl)
  · simp only [Unchanged,hook,postMmapHook,if_neg guard]
    refine (sameTaint_source.trans (branch_iff (and_iff_right rfl))).trans ?_
    exact ⟨fun h => .inr (.inr h),fun h => (or_assoc.mpr h).resolve_left guard⟩

theorem munmap_unchanged : Unchanged env ctx s .munmap ↔ Harmless env ctx s .munmap := by
  refine (unchanged_of_returned fun _ => rfl).trans ?_
  by_cases guard : ctx.ret = mapFailed
  · rw [postMunmapHook,if_pos guard]
    exact iff_of_true (.refl s) (.inl guard)
  · rw [postMunmapHook,if_neg guard]
    exact sameTaint_clrn.trans ⟨.inr,fun h => h.resolve_left guard⟩

end Hooks

/-- Each hook leaves the taint state alone after a failed call exactly when what it goes
on to do makes no difference; no hook but that of `close` takes the failure into account
for every negative value. -/
theorem failed_unchanged_iff_harmless (env : Env T) (ctx : SyscallCtx) (s : Taint T) (call : FileCall)
    (failed : ctx.ret.toInt < 0) : Unchanged env ctx s call ↔ Harmless env ctx s call := by
  have nonzero : 0 < ctx.ret.toNat := by
    rw [BitVec.toInt_eq_toNat_cond] at failed
    split at failed <;> omega
  cases call with
  | «open» => exact open_unchanged
  | openat => exact openat_unchanged
  | dup => exact dup_unchanged
  | dup2 | dup3 => exact (unchanged_of_returned fun _ => rfl).trans (postDup2Hook_same env)
  | close => exact iff_of_true (close_unchanged failed) trivial
  | read => exact read_unchanged nonzero
  | pread64 => exact pread64_unchanged nonzero
  | mmap => exact mmap_unchanged
  | munmap => exact munmap_unchanged

/-- `read(0, (void *)0x1000, 16)` and other calls with these arguments, failed with `EAGAIN`. -/
def failedRead : SyscallCtx := ⟨none,fun i => if i = 1 then 0x1000 else if i = 2 then 16 else 0,-11⟩

/-- The null pointer alone cannot be read. -/
def sampleEnv : Env UInt8 := ⟨fun _ => 1,fun _ => 0,fun addr => if addr = 0 then none else some fuzzingInputFile⟩

def sampleTaint : Taint UInt8 := ⟨TagMap.empty,∅,0,false⟩

/-- `openat` of a path that can be read, and of the null pointer. -/
theorem failed_unchanged_iff_harmless_openat : Unchanged sampleEnv failedRead sampleTaint .openat ∧
    ¬ Unchanged sampleEnv { failedRead with arg := fun _ => 0 } sampleTaint .openat := by
  have exact (ctx : SyscallCtx) (failed : ctx.ret.toInt < 0) := failed_unchanged_iff_harmless sampleEnv ctx sampleTaint .openat failed
  constructor
  · exact (exact failedRead (by decide)).mpr ⟨_,rfl,fun _ positive => absurd positive (by decide)⟩
  · rw [exact { failedRead with arg := fun _ => 0 } (by decide)]
    rintro ⟨_,none,_⟩
    cases none

/-- A failed read from standard input moves `stdin_read_off` and tags the buffer. -/
theorem failed_read_changes :
    ¬ ∀ (env : Env UInt8) (ctx : SyscallCtx) (s : Taint UInt8) (call : FileCall), ctx.ret.toInt < 0 →
      Unchanged env ctx s call := by
  intro claim
  have unchanged := claim sampleEnv failedRead sampleTaint .read (by decide)
  rw [read_unchanged (by decide)] at unchanged
  have stdin : asUnsigned failedRead.ret = 0 := unchanged.1
  exact absurd stdin (by decide)

end Libdft.FailedCalls
