import Libdft.FailedCalls

/-! The loops that taint a buffer byte by byte: when they end, and whether a mapped file is
tainted where it was mapped. -/
namespace Libdft.SyscallHook

open Syscall TagMap TagTraits FailedCalls

/-- The hooks with such a loop. -/
inductive TaintingHook where
  | read | pread64 | mmap

namespace TaintingHook
variable {T : Type} [TagTraits T]

def run (env : Env T) (fuel : Nat) (ctx : SyscallCtx) (s : Taint T) : TaintingHook → Outcome (Taint T)
  | read => postReadHook env fuel ctx s
  | pread64 => postPread64Hook env fuel ctx s
  | mmap => postMmapHook env fuel ctx s

/-- What the counter of the loop is compared with. -/
def bound (ctx : SyscallCtx) : TaintingHook → BitVec 64
  | read | pread64 => taintedCount ctx.ret (ctx.arg 2)
  | mmap => ctx.arg 1

/-- The hook comes to its loop. -/
def Reaches (ctx : SyscallCtx) (s : Taint T) : TaintingHook → Prop
  | read | pread64 => ctx.ret ≠ 0 ∧ isFuzzingFd s (asInt (ctx.arg 0))
  | mmap => ctx.ret ≠ mapFailed ∧ asUnsigned (ctx.arg 2) &&& 1 ≠ 0 ∧ isFuzzingFd s (asInt (ctx.arg 4))

theorem run_unreached (env : Env T) (ctx : SyscallCtx) (s : Taint T) (hook : TaintingHook) (unreached : ¬ hook.Reaches ctx s) :
    ∃ s', ∀ fuel, hook.run env fuel ctx s = .returned s' := by
  have none : ctx.ret = 0 → ctx.ret.toNat ≤ 0 := fun zero => by simp [zero]
  cases hook with
  | read =>
    by_cases zero : ctx.ret = 0
    · exact ⟨s,fun fuel => if_pos (none zero)⟩
    · have untracked : ¬ isFuzzingFd s (asInt (ctx.arg 0)) := fun tracked => unreached ⟨zero,tracked⟩
      have some : ¬ ctx.ret.toNat ≤ 0 := fun le => zero (BitVec.eq_of_toNat_eq (Nat.le_zero.mp le))
      exact ⟨_,fun fuel => (if_neg some).trans (if_neg untracked)⟩
  | pread64 =>
    by_cases zero : ctx.ret = 0
    · exact ⟨s,fun fuel => if_pos (none zero)⟩
    · have untracked : ¬ isFuzzingFd s (asInt (ctx.arg 0)) := fun tracked => unreached ⟨zero,tracked⟩
      have some : ¬ ctx.ret.toNat ≤ 0 := fun le => zero (BitVec.eq_of_toNat_eq (Nat.le_zero.mp le))
      exact ⟨_,fun fuel => (if_neg some).trans (if_neg untracked)⟩
  | mmap =>
    by_cases guard : ctx.ret = mapFailed ∨ asUnsigned (ctx.arg 2) &&& 1 = 0
    · exact ⟨s,fun fuel => if_pos guard⟩
    · obtain ⟨success,readable⟩ := not_or.mp guard
      have untracked : ¬ isFuzzingFd s (asInt (ctx.arg 4)) := fun tracked => unreached ⟨success,readable,tracked⟩
      exact ⟨_,fun fuel => (if_neg guard).trans (if_neg untracked)⟩

/-- What is left of a hook is its loop. -/
theorem run_reached (env : Env T) (ctx : SyscallCtx) (s : Taint T) (hook : TaintingHook) (reached : hook.Reaches ctx s) :
    ∃ (readOff : BitVec 32) (buf : BitVec 64) (leave : TagDir T → Taint T), ∀ fuel, hook.run env fuel ctx s =
      taintBytes env fuel readOff buf (hook.bound ctx) s.tagDir >>= fun dir => .returned (leave dir) := by
  cases hook with
  | read =>
    obtain ⟨nonzero,tracked⟩ := reached
    have some : ¬ ctx.ret.toNat ≤ 0 := fun le => nonzero (BitVec.eq_of_toNat_eq (Nat.le_zero.mp le))
    exact ⟨_,_,_,fun fuel => (if_neg some).trans (if_pos tracked)⟩
  | pread64 =>
    obtain ⟨nonzero,tracked⟩ := reached
    have some : ¬ ctx.ret.toNat ≤ 0 := fun le => nonzero (BitVec.eq_of_toNat_eq (Nat.le_zero.mp le))
    exact ⟨_,_,_,fun fuel => (if_neg some).trans (if_pos tracked)⟩
  | mmap =>
    obtain ⟨success,readable,tracked⟩ := reached
    exact ⟨_,_,_,fun fuel => (if_neg (not_or.mpr ⟨success,readable⟩)).trans (if_pos tracked)⟩

/-- A hook ends if and only if the bound of its loop, where it comes to it, fits the counter. -/
theorem terminates_iff (env : Env T) (ctx : SyscallCtx) (s : Taint T) (hook : TaintingHook) :
    Terminates (fun fuel => hook.run env fuel ctx s) ↔ (hook.Reaches ctx s → (hook.bound ctx).toNat < 2 ^ 32) := by
  by_cases reached : hook.Reaches ctx s
  · obtain ⟨readOff,buf,leave,run⟩ := run_reached env ctx s hook reached
    by_cases small : (hook.bound ctx).toNat < 2 ^ 32
    · obtain ⟨enough,returns⟩ := taintBytes_returns env readOff buf s.tagDir small
      refine iff_of_true ⟨enough,fun fuel more => ?_⟩ fun _ => small
      simp [run,returns fuel more]
    · refine iff_of_false ?_ fun bound => small (bound reached)
      rintro ⟨enough,ends⟩
      apply ends enough (Nat.le_refl enough)
      simp [run,taintBytes_running env enough readOff buf s.tagDir (Nat.le_of_not_lt small)]
  · obtain ⟨s',run⟩ := run_unreached env ctx s hook reached
    refine iff_of_true ⟨0,fun fuel _ => ?_⟩ fun reached' => absurd reached' reached
    simp [run]

/-- `mmap(NULL, len, PROT_READ, …, 0, 0)` at 0x10000 -/
def mappedStdin (len : BitVec 64) : SyscallCtx := ⟨none,fun i => if i = 1 then len else if i = 2 then 1 else 0,0x10000⟩

/-- A file of 4 GiB is mapped. -/
theorem mmap_loops : ¬ ∀ (env : Env UInt8) (ctx : SyscallCtx) (s : Taint UInt8) (hook : TaintingHook),
    Terminates fun fuel => hook.run env fuel ctx s := by
  intro claim
  obtain ⟨enough,ends⟩ := claim sampleEnv (mappedStdin 0x100000000) sampleTaint .mmap
  have reached : TaintingHook.mmap.Reaches (mappedStdin 0x100000000) sampleTaint := by
    refine ⟨?_,?_,?_⟩ <;> decide
  obtain ⟨readOff,buf,leave,run⟩ := run_reached sampleEnv _ _ _ reached
  apply ends enough (Nat.le_refl enough)
  simp only [run]
  rw [taintBytes_running sampleEnv enough readOff buf _ (by decide)]
  rfl

end TaintingHook

/-! Mapped files. -/

section Mapped
variable {T : Type} [TagTraits T]

/-- A mapping that succeeded, with `PROT_READ`. -/
structure Maps (ctx : SyscallCtx) : Prop where
  success : ctx.ret ≠ mapFailed
  readable : asUnsigned (ctx.arg 2) &&& 1 ≠ 0
  short : (ctx.arg 1).toNat < 2 ^ 32
  user : ctx.ret.toNat + (ctx.arg 1).toNat ≤ maxAddr + 1

/-- The tag of a byte of the mapping. -/
def mappedTag (env : Env T) (ctx : SyscallCtx) (s : Taint T) (i : Nat) : T :=
  if isFuzzingFd s (asInt (ctx.arg 4)) then env.tagAlloc (asUnsigned (ctx.arg 5) + BitVec.ofNat 32 i) else clearedVal

/-- Whatever is tracked and tainted, the bytes mapped and no others get the tags of the file. -/
def TaintsMapping (env : Env T) (ctx : SyscallCtx) : Prop :=
  ∀ s : Taint T, ∃ s', Returns (fun fuel => postMmapHook env fuel ctx s) s' ∧ ∀ a ≤ maxAddr,
    tagmapGetb s'.tagDir a = if ctx.ret.toNat ≤ a ∧ a < ctx.ret.toNat + (ctx.arg 1).toNat
      then some (mappedTag env ctx s (a - ctx.ret.toNat)) else tagmapGetb s.tagDir a

/-- The hook tags the range at the address that was asked for. -/
theorem postMmapHook_returns (env : Env T) {ctx : SyscallCtx} (maps : Maps ctx) (s : Taint T) :
    ∃ s', Returns (fun fuel => postMmapHook env fuel ctx s) s' ∧ ∀ a ≤ maxAddr,
      (¬ (distance (ctx.arg 0) a).toNat < (ctx.arg 1).toNat → tagmapGetb s'.tagDir a = tagmapGetb s.tagDir a) ∧
      ((ctx.arg 0).toNat ≤ a ∧ a < (ctx.arg 0).toNat + (ctx.arg 1).toNat →
        tagmapGetb s'.tagDir a = some (mappedTag env ctx s (a - (ctx.arg 0).toNat))) := by
  have buf := (ctx.arg 0).isLt
  have above {a : Nat} (user : a ≤ maxAddr) (le : (ctx.arg 0).toNat ≤ a) :
      (distance (ctx.arg 0) a).toNat = a - (ctx.arg 0).toNat := by
    unfold maxAddr at user
    simp only [distance,BitVec.toNat_sub,BitVec.toNat_ofNat]
    omega
  have guard : ¬ (ctx.ret = mapFailed ∨ asUnsigned (ctx.arg 2) &&& 1 = 0) := not_or.mpr ⟨maps.success,maps.readable⟩
  by_cases tracked : isFuzzingFd s (asInt (ctx.arg 4))
  · obtain ⟨enough,returns⟩ := taintBytes_returns env (asUnsigned (ctx.arg 5)) (ctx.arg 0) s.tagDir maps.short
    refine ⟨{ s with tagDir := taintRange env (asUnsigned (ctx.arg 5)) (ctx.arg 0) s.tagDir (ctx.arg 1).toNat, tainted := true },
      ⟨enough,fun fuel more => ?_⟩,fun a user => ⟨fun outside => ?_,fun inside => ?_⟩⟩
    · simp only [postMmapHook,if_neg guard,if_pos tracked,returns fuel more]
      rfl
    · rw [getb_taintRange _ _ _ _ (Nat.le_of_lt maps.short),if_neg fun h => outside h.1]
    · have place := above user inside.1
      have low : (distance (ctx.arg 0) a).setWidth 32 = BitVec.ofNat 32 (a - (ctx.arg 0).toNat) := by
        rw [← place]
        exact (BitVec.ofNat_toNat 32 _).symm
      rw [getb_taintRange _ _ _ _ (Nat.le_of_lt maps.short),if_pos ⟨by omega,user⟩,low,mappedTag,if_pos tracked]
  · refine ⟨_,⟨0,fun fuel _ => (if_neg guard).trans (if_neg tracked)⟩,fun a user => ?_⟩
    have range := Nat.mod_eq_of_lt maps.short
    have written := getb_clrn tagmapSetb_puts s.tagDir (ctx.arg 0).toNat (ctx.arg 1).toNat a
    change tagmapGetb (tagmapClrn _ _ _) a = _ at written
    unfold cleared maxAddr at *
    refine ⟨fun outside => ?_,fun inside => ?_⟩
    · rw [written,if_neg]
      rintro ⟨⟨le,lt⟩,_⟩
      rw [above user le] at outside
      omega
    · rw [written,if_pos ⟨⟨inside.1,by omega⟩,user⟩,mappedTag,if_neg tracked]

/-- A mapping is tainted where it is if and only if it is at the address that was asked for, or empty. -/
theorem taintsMapping_iff [Nontrivial T] (env : Env T) {ctx : SyscallCtx} (maps : Maps ctx) :
    TaintsMapping env ctx ↔ ctx.arg 0 = ctx.ret ∨ ctx.arg 1 = 0 := by
  have length := maps.short
  have range := maps.user
  have user {a : Nat} (inside : a < ctx.ret.toNat + (ctx.arg 1).toNat) : a ≤ maxAddr := by omega
  constructor
  · intro taints
    by_contra neither
    obtain ⟨moved,some⟩ := not_or.mp neither
    have positive : 0 < (ctx.arg 1).toNat := Nat.pos_of_ne_zero fun zero => some (BitVec.eq_of_toNat_eq zero)
    have apart : (ctx.arg 0).toNat ≠ ctx.ret.toNat := fun same => moved (BitVec.eq_of_toNat_eq same)
    have far (a : Nat) : (distance (ctx.arg 0) a).toNat = (2 ^ 64 - (ctx.arg 0).toNat + a % 2 ^ 64) % 2 ^ 64 := by
      rw [distance,BitVec.toNat_sub,BitVec.toNat_ofNat]
    have bound := (ctx.arg 0).isLt
    -- the first byte of the mapping, or its last one, is not in the range that was asked for
    obtain ⟨a,⟨above,inside⟩,outside⟩ : ∃ a, (ctx.ret.toNat ≤ a ∧ a < ctx.ret.toNat + (ctx.arg 1).toNat) ∧
        ¬ (distance (ctx.arg 0) a).toNat < (ctx.arg 1).toNat := by
      unfold maxAddr at range
      by_cases first : (distance (ctx.arg 0) ctx.ret.toNat).toNat < (ctx.arg 1).toNat
      · refine ⟨ctx.ret.toNat + ((ctx.arg 1).toNat - 1),by omega,?_⟩
        rw [far] at first ⊢
        omega
      · exact ⟨ctx.ret.toNat,by omega,first⟩
    let untracked : Taint T := ⟨TagMap.empty,∅,0,false⟩
    obtain ⟨tag,wrong⟩ := exists_ne (mappedTag env ctx untracked (a - ctx.ret.toNat))
    obtain ⟨s',returns,tags⟩ := taints { untracked with tagDir := tagmapSetb untracked.tagDir a tag }
    obtain ⟨t,returns',frame⟩ := postMmapHook_returns env maps { untracked with tagDir := tagmapSetb untracked.tagDir a tag }
    obtain rfl := returns.unique returns'
    have kept := (frame a (user inside)).1 outside
    rw [tags a (user inside),if_pos ⟨above,inside⟩,tagmapSetb_puts,if_pos ⟨rfl,user inside⟩] at kept
    exact wrong (Option.some.inj kept).symm
  · intro requested s
    obtain ⟨s',returns,tags⟩ := postMmapHook_returns env maps s
    refine ⟨s',returns,fun a inUser => ?_⟩
    rcases requested with same | nothing
    · rw [same] at tags
      split
      next inside => exact (tags a inUser).2 inside
      next outside =>
        refine (tags a inUser).1 fun near => outside ?_
        unfold maxAddr at *
        simp only [distance,BitVec.toNat_sub,BitVec.toNat_ofNat] at near
        omega
    · have zero : (ctx.arg 1).toNat = 0 := by rw [nothing]; rfl
      rw [zero] at tags ⊢
      rw [if_neg (by omega)]
      exact (tags a inUser).1 (Nat.not_lt_zero _)

end Mapped

/-- `mmap((void *)0x10000, 4096, PROT_READ, …, 0, 0)` at an address of the kernel's choice -/
def mappedPage (requested : BitVec 64) : SyscallCtx :=
  ⟨none,fun i => if i = 0 then requested else if i = 1 then 4096 else if i = 2 then 1 else 0,0x10000⟩

theorem mappedPage_maps (requested : BitVec 64) : Maps (mappedPage requested) :=
  ⟨show (0x10000 : BitVec 64) ≠ mapFailed by decide,show asUnsigned 1 &&& 1 ≠ 0 by decide,
    show (4096 : BitVec 64).toNat < 2 ^ 32 by decide,show (0x10000 : BitVec 64).toNat + (4096 : BitVec 64).toNat ≤ maxAddr + 1 by decide⟩

theorem taintsMapping_iff_fixed : TaintsMapping sampleEnv (mappedPage 0x10000) := by
  have : Nontrivial UInt8 := ⟨0,1,by decide⟩
  exact (taintsMapping_iff sampleEnv (mappedPage_maps 0x10000)).mpr (.inl rfl)

/-- Without a requested address the tags go to the bytes from 0 on. -/
theorem mmap_untainted : ¬ ∀ (env : Env UInt8) (ctx : SyscallCtx), Maps ctx → TaintsMapping env ctx := by
  intro claim
  obtain ⟨s',returns,tags⟩ := claim sampleEnv (mappedPage 0) (mappedPage_maps 0) sampleTaint
  obtain ⟨t,returns',frame⟩ := postMmapHook_returns sampleEnv (mappedPage_maps 0) sampleTaint
  obtain rfl := returns.unique returns'
  have kept := (frame 0x10000 (by decide)).1 (by decide)
  rw [tags 0x10000 (by decide),if_pos (by decide)] at kept
  exact absurd (kept.trans (getb_empty (by decide))) (by decide)

end Libdft.SyscallHook
