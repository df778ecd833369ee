import Libdft.SyscallApi
import Mathlib.Data.Fintype.Basic

/-! Default post-syscall handling, for every table of descriptors: what it clears, and
exactly when that is nothing after a failed call. -/
namespace Libdft.SyscallApi

open Syscall SyscallTable TagMap TagTraits

/-- A byte of an argument that the call returns a value in. -/
def Mapped (abi : Abi) (d : SyscallDesc) (arg : Fin 6 → BitVec 64) (a : Nat) : Prop :=
  ∃ i : Fin 6, i.val < d.nargs.val ∧ 0 < (d.mapArgs i).bytes abi ∧ arg i ≠ 0 ∧
    (arg i).toNat ≤ a ∧ a < (arg i).toNat + (d.mapArgs i).bytes abi

instance (abi : Abi) (d : SyscallDesc) (arg : Fin 6 → BitVec 64) (a : Nat) : Decidable (Mapped abi d arg a) :=
  inferInstanceAs (Decidable (∃ _ : Fin 6, _))

/-- A user address is not reached around the end of the address space. -/
theorem cleared_iff (addr : BitVec 64) {n a : Nat} (small : n < 2 ^ 32) (user : a ≤ maxAddr) :
    cleared addr.toNat (BitVec.ofNat 64 n).toNat a ↔ addr.toNat ≤ a ∧ a < addr.toNat + n := by
  unfold cleared
  unfold maxAddr at user
  rw [BitVec.toNat_ofNat]
  omega

theorem clearedBy_clearMapped (abi : Abi) (ctx : SyscallCtx) (d : SyscallDesc) {a : Nat} (user : a ≤ maxAddr) :
    ClearedBy (clearMapped abi ctx d) a ↔ Mapped abi d ctx.arg a := by
  have cell (i : Fin 6) := cleared_iff (ctx.arg i) ((d.mapArgs i).bytes_lt abi) user
  simp only [ClearedBy,clearMapped,List.mem_flatMap,List.mem_finRange,true_and,Mapped]
  constructor
  · rintro ⟨effect,⟨i,member⟩,clears⟩
    split at member
    next h =>
      rw [List.mem_singleton] at member
      subst member
      exact ⟨i,h.1,h.2.1,h.2.2,(cell i).mp clears⟩
    next => cases member
  · rintro ⟨i,inside,positive,present,bounds⟩
    refine ⟨.clear (ctx.arg i) (BitVec.ofNat 64 ((d.mapArgs i).bytes abi)),⟨i,?_⟩,(cell i).mpr bounds⟩
    rw [if_pos ⟨inside,positive,present⟩]
    exact List.mem_cons_self

section Exit
variable {T : Type} [TagTraits T]

/-- After a failed call no tag changes. -/
def FailureAtomic (abi : Abi) (table : Fin syscallMax → SyscallDesc) (ctx : SyscallCtx) (mem : Memory)
    (ret : BitVec 64) (dir : TagDir T) : Prop :=
  ret.toInt < 0 → ∀ a, tagmapGetb (applyEffects dir (sysexitSave abi table ctx mem ret).2) a = tagmapGetb dir a

/-- After a successful call the mapped bytes are clear and no other tag changes. -/
def SuccessExact (abi : Abi) (table : Fin syscallMax → SyscallDesc) (ctx : SyscallCtx) (mem : Memory)
    (d : SyscallDesc) (ret : BitVec 64) (dir : TagDir T) : Prop :=
  0 ≤ ret.toInt → ∀ a, tagmapGetb (applyEffects dir (sysexitSave abi table ctx mem ret).2) a =
    if Mapped abi d ctx.arg a ∧ a ≤ maxAddr then some clearedVal else tagmapGetb dir a

variable {abi : Abi} {table : Fin syscallMax → SyscallDesc} {ctx : SyscallCtx} {mem : Memory} {ret : BitVec 64}

theorem saves_of_retvalArgs {d : SyscallDesc} (returns : d.retvalArgs ≠ 0) : Saves d := by
  intro zero
  exact returns (Nat.or_eq_zero_iff.mp zero).2

/-- No return value is less than zero, so the arguments are always traversed. -/
theorem sysexitSave_default {nr : Fin syscallMax} (saved : ctx.nr = some nr) (returns : (table nr).retvalArgs ≠ 0)
    (default : (table nr).post = none) :
    (sysexitSave abi table ctx mem ret).2 = clearMapped abi ctx (table nr) := by
  simp [sysexitSave,saved,saves_of_retvalArgs returns,default,clearMapped]

theorem getb_default {nr : Fin syscallMax} (saved : ctx.nr = some nr) (returns : (table nr).retvalArgs ≠ 0)
    (default : (table nr).post = none) (dir : TagDir T) (a : Nat) :
    tagmapGetb (applyEffects dir (sysexitSave abi table ctx mem ret).2) a =
      if Mapped abi (table nr) ctx.arg a ∧ a ≤ maxAddr then some clearedVal else tagmapGetb dir a := by
  rw [sysexitSave_default saved returns default,getb_applyEffects]
  exact if_congr (and_congr_left fun user => clearedBy_clearMapped abi ctx (table nr) user) rfl rfl

/-- Successful calls are handled exactly; a failed call is handled like a successful one,
and so goes unnoticed only where every mapped byte is clear already. -/
theorem default_handling_iff (abi : Abi) (table : Fin syscallMax → SyscallDesc) (ctx : SyscallCtx) (mem : Memory)
    (ret : BitVec 64) (dir : TagDir T) {nr : Fin syscallMax} (saved : ctx.nr = some nr)
    (returns : (table nr).retvalArgs ≠ 0) (default : (table nr).post = none) :
    FailureAtomic abi table ctx mem ret dir ∧ SuccessExact abi table ctx mem (table nr) ret dir ↔
      0 ≤ ret.toInt ∨ ∀ a ≤ maxAddr, Mapped abi (table nr) ctx.arg a → tagmapGetb dir a = some clearedVal := by
  have exact' : SuccessExact abi table ctx mem (table nr) ret dir := fun _ a => getb_default saved returns default dir a
  refine (and_iff_left exact').trans ?_
  unfold FailureAtomic
  simp only [getb_default saved returns default dir]
  constructor
  · intro atomic
    refine (Int.lt_or_le ret.toInt 0).symm.imp_right fun failed a user mapped => ?_
    have unchanged := atomic failed a
    rw [if_pos ⟨mapped,user⟩] at unchanged
    exact unchanged.symm
  · rintro (success | clear) failed a
    · omega
    · split
      next h => exact (clear a h.2 h.1).symm
      next => rfl

end Exit

/-- The sizes of the types that the samples use, and 8 for the rest. -/
def sampleAbi : Abi where
  sizeof
    | .stat => 144
    | .ioEvent => 32
    | .timespec => 16
    | _ => 8
  positive t := by split <;> decide
  small t := by split <;> decide

/-- `__NR_fstat` -/
def nrFstat : Fin syscallMax := ⟨5,by decide⟩

/-- `fstat(3, (void *)0x1000)` -/
def sampleFstat : SyscallCtx := ⟨some nrFstat,fun i => if i = 0 then 3 else 0x1000,0⟩

def sampleDir : TagDir UInt8 := tagmapSetb empty 0x1000 7

theorem default_handling_iff_fstat :
    FailureAtomic sampleAbi syscallDesc sampleFstat (fun _ => 0) 0 sampleDir ∧
      SuccessExact sampleAbi syscallDesc sampleFstat (fun _ => 0) (syscallDesc nrFstat) 0 sampleDir :=
  (default_handling_iff sampleAbi syscallDesc sampleFstat (fun _ => 0) 0 sampleDir rfl (by decide) (by decide)).mpr
    (.inl (by decide))

/-- `fstat` fails with `EBADF`, and the buffer loses its tags. -/
theorem failed_fstat_clears :
    ¬ ∀ (abi : Abi) (ctx : SyscallCtx) (mem : Memory) (ret : BitVec 64) (dir : TagDir UInt8) (nr : Fin syscallMax),
      ctx.nr = some nr → (syscallDesc nr).retvalArgs ≠ 0 → (syscallDesc nr).post = none →
      FailureAtomic abi syscallDesc ctx mem ret dir ∧ SuccessExact abi syscallDesc ctx mem (syscallDesc nr) ret dir := by
  intro claim
  have atomic := (claim sampleAbi sampleFstat (fun _ => 0) (-9) sampleDir nrFstat rfl (by decide) (by decide)).1 (by decide) 0x1000
  rw [getb_default (rfl : sampleFstat.nr = some nrFstat) (by decide) (by decide),if_pos (by decide)] at atomic
  exact absurd atomic (by decide)

end Libdft.SyscallApi
