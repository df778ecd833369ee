import Libdft.SyscallApi
import Libdft.FailedCalls

/-! Ranges that the hooks of mapped memory and of untracked input clear, next to the ranges that
the kernel has written. The length of `tagmap_clrn` is a `UINT32`. -/
namespace Libdft.ClearedRanges

open Syscall SyscallHook TagMap TagTraits

def InRange (addr n a : Nat) : Prop := addr ≤ a ∧ a < addr + n

instance (addr n a : Nat) : Decidable (InRange addr n a) := inferInstanceAs (Decidable (_ ∧ _))

section Clrn
variable {T : Type} [TagTraits T]

def IsClear (dir : TagDir T) (a : Nat) : Prop := tagmapGetb dir a = some clearedVal

/-- The user's bytes of the range have the cleared tag, and every other byte has its old one. -/
def ClearsExactly (dir dir' : TagDir T) (addr n : Nat) : Prop :=
  ∀ a ≤ maxAddr, tagmapGetb dir' a = if InRange addr n a then some clearedVal else tagmapGetb dir a

/-- The bytes on which the two ranges differ have the cleared tag. -/
def ClearBetween (dir : TagDir T) (addr n n' : Nat) : Prop :=
  ∀ a ≤ maxAddr, ¬ (InRange addr n a ↔ InRange addr n' a) → IsClear dir a

/-- Bytes that a length of 32 bits leaves out have the cleared tag. -/
def TailClear (dir : TagDir T) (addr n : Nat) : Prop :=
  ∀ a ≤ maxAddr, addr + n % 2 ^ 32 ≤ a → a < addr + n → IsClear dir a

theorem TailClear.of_lt {dir : TagDir T} (small : n < 2 ^ 32) : TailClear dir addr n := by
  intro a _ above inside
  rw [Nat.mod_eq_of_lt small] at above
  omega

theorem tailClear_iff (dir : TagDir T) (addr n : Nat) : TailClear dir addr n ↔ ClearBetween dir addr (n % 2 ^ 32) n := by
  have le := Nat.mod_le n (2 ^ 32)
  have differ (a : Nat) : ¬ (InRange addr (n % 2 ^ 32) a ↔ InRange addr n a) ↔ addr + n % 2 ^ 32 ≤ a ∧ a < addr + n := by
    unfold InRange
    omega
  simp only [TailClear,ClearBetween,differ,and_imp]

/-- No sum wraps for a byte that has a tag. -/
theorem cleared_iff {addr n a : Nat} (user : a ≤ maxAddr) : cleared addr n a ↔ InRange addr (n % 2 ^ 32) a := by
  unfold cleared InRange maxAddr at *
  omega

theorem clrn_clears_iff (dir : TagDir T) (addr n n' : Nat) :
    ClearsExactly dir (tagmapClrn dir addr n') addr n ↔ ClearBetween dir addr (n' % 2 ^ 32) n := by
  unfold ClearsExactly ClearBetween IsClear
  refine forall₂_congr fun a user => ?_
  rw [tagmapClrn,getb_clrn tagmapSetb_puts]
  simp only [user,and_true,cleared_iff user]
  by_cases written : InRange addr (n' % 2 ^ 32) a <;> by_cases wanted : InRange addr n a <;> simp [wanted,eq_comm]

theorem ClearsExactly.agree {dir dir₁ dir₂ : TagDir T} (first : ClearsExactly dir dir₁ addr n)
    (second : ClearsExactly dir dir₂ addr n) (a : Nat) : tagmapGetb dir₁ a = tagmapGetb dir₂ a := by
  by_cases user : a ≤ maxAddr
  · rw [first a user,second a user]
  · rw [getb_beyond _ (Nat.lt_of_not_le user),getb_beyond _ (Nat.lt_of_not_le user)]

end Clrn

section Hooks
variable {T : Type} [TagTraits T] (env : Env T) (ctx : SyscallCtx) (s : Taint T)

theorem postMmapHook_untracked (success : ctx.ret ≠ mapFailed) (readable : asUnsigned (ctx.arg 2) &&& 1 ≠ 0)
    (untracked : ¬ isFuzzingFd s (asInt (ctx.arg 4))) (fuel : Nat) :
    postMmapHook env fuel ctx s =
      .returned { s with tagDir := tagmapClrn s.tagDir (ctx.arg 0).toNat (ctx.arg 1).toNat } := by
  have goes : ¬ (ctx.ret = mapFailed ∨ asUnsigned (ctx.arg 2) &&& 1 = 0) := not_or.mpr ⟨success,readable⟩
  simp only [postMmapHook,if_neg goes,if_neg untracked]
  rfl

/-- The two hooks clear the range of the call if and only if what a length of 32 bits leaves out was clear. -/
theorem unmapped_clear_iff (success : ctx.ret ≠ mapFailed) :
    (ClearsExactly s.tagDir (postMunmapHook ctx s).tagDir (ctx.arg 0).toNat (ctx.arg 1).toNat ↔
      TailClear s.tagDir (ctx.arg 0).toNat (ctx.arg 1).toNat) ∧
    (asUnsigned (ctx.arg 2) &&& 1 ≠ 0 → ¬ isFuzzingFd s (asInt (ctx.arg 4)) →
      ∃ s', (∀ fuel, postMmapHook env fuel ctx s = .returned s') ∧
        (ClearsExactly s.tagDir s'.tagDir (ctx.arg 0).toNat (ctx.arg 1).toNat ↔
          TailClear s.tagDir (ctx.arg 0).toNat (ctx.arg 1).toNat)) := by
  have clears : ClearsExactly s.tagDir (tagmapClrn s.tagDir (ctx.arg 0).toNat (ctx.arg 1).toNat) (ctx.arg 0).toNat
      (ctx.arg 1).toNat ↔ TailClear s.tagDir (ctx.arg 0).toNat (ctx.arg 1).toNat := by
    rw [clrn_clears_iff,tailClear_iff]
  constructor
  · simpa only [postMunmapHook,if_neg success] using clears
  · exact fun readable untracked => ⟨_,postMmapHook_untracked env ctx s success readable untracked,clears⟩

end Hooks

/-- One tainted byte. -/
def taintedAt (a : Nat) : Taint UInt8 := { FailedCalls.sampleTaint with tagDir := tagmapSetb TagMap.empty a 1 }

theorem taintedAt_taint {a : Nat} (user : a ≤ maxAddr) : ¬ IsClear (taintedAt a).tagDir a := by
  intro clear
  have stored := tagmapSetb_puts (TagMap.empty : TagDir UInt8) a 1 a
  rw [if_pos ⟨rfl,user⟩] at stored
  exact absurd (stored.symm.trans clear) (by decide)

/-- `munmap((void *)0x10000, n) = 0` -/
def unmapped (n : BitVec 64) : SyscallCtx := ⟨none,fun i => if i = 0 then 0x10000 else if i = 1 then n else 0,0⟩

theorem unmapped_clear_iff_page :
    ClearsExactly (taintedAt 0x10000).tagDir (postMunmapHook (unmapped 4096) (taintedAt 0x10000)).tagDir 0x10000 4096 :=
  (unmapped_clear_iff FailedCalls.sampleEnv (unmapped 4096) (taintedAt 0x10000) (by decide)).1.mpr (.of_lt (by decide))

/-- Nothing of a range of 4 GiB is cleared. -/
theorem unmapped_keeps :
    ¬ ∀ (ctx : SyscallCtx) (s : Taint UInt8), ctx.ret ≠ mapFailed → (ctx.arg 0).toNat + (ctx.arg 1).toNat ≤ 2 ^ 47 →
      ClearsExactly s.tagDir (postMunmapHook ctx s).tagDir (ctx.arg 0).toNat (ctx.arg 1).toNat := by
  intro claim
  have clears := claim (unmapped 0x100000000) (taintedAt 0x10000) (by decide) (by decide)
  simp only [postMunmapHook,if_neg (show (unmapped 0x100000000).ret ≠ mapFailed by decide)] at clears
  rw [clrn_clears_iff] at clears
  exact taintedAt_taint (by decide) (clears 0x10000 (by decide) (by decide))

/-! The default handling of `mmap`. -/

section Default
variable {T : Type} [TagTraits T] (ctx : SyscallCtx)

/-- The length in whole pages. -/
def pages (len : Nat) : Nat := (len + 4095) / 4096 * 4096

/-- What the hook passes on for a length: a page too much where the length is whole pages. -/
theorem rounded_eq {len : BitVec 64} (positive : 1 ≤ len.toNat) (small : len.toNat ≤ 2 ^ 31) :
    (if len < SyscallTable.pageSz then SyscallTable.pageSz
      else len + SyscallTable.pageSz - len % SyscallTable.pageSz).toNat =
        pages len.toNat + if len.toNat % 4096 = 0 then 4096 else 0 := by
  have page : SyscallTable.pageSz.toNat = 4096 := rfl
  unfold pages
  split
  next short =>
    have below : len.toNat < 4096 := short
    rw [page]
    split <;> omega
  next long =>
    have above : 4096 ≤ len.toNat := Nat.le_of_not_lt long
    rw [BitVec.toNat_sub,BitVec.toNat_add,BitVec.toNat_umod,page]
    split <;> omega

theorem default_mmap_effect (dir : TagDir T) (success : ctx.ret ≠ mapFailed)
    (upwards : asUnsigned (ctx.arg 3) &&& SyscallTable.mapGrowsdown = 0) (positive : 1 ≤ (ctx.arg 1).toNat)
    (small : (ctx.arg 1).toNat ≤ 2 ^ 31) :
    SyscallApi.applyEffects dir (SyscallTable.postMmapHook ctx) =
      tagmapClrn dir ctx.ret.toNat (pages (ctx.arg 1).toNat + if (ctx.arg 1).toNat % 4096 = 0 then 4096 else 0) := by
  rw [← rounded_eq positive small]
  simp [SyscallTable.postMmapHook,success,upwards,SyscallApi.applyEffects,SyscallApi.applyEffect]

/-- The default hook clears the mapped pages alone if and only if the length is no whole number of
pages, or the page after them was clear. -/
theorem default_mmap_iff (dir : TagDir T) (success : ctx.ret ≠ mapFailed)
    (upwards : asUnsigned (ctx.arg 3) &&& SyscallTable.mapGrowsdown = 0) (positive : 1 ≤ (ctx.arg 1).toNat)
    (small : (ctx.arg 1).toNat ≤ 2 ^ 31) :
    ClearsExactly dir (SyscallApi.applyEffects dir (SyscallTable.postMmapHook ctx)) ctx.ret.toNat (pages (ctx.arg 1).toNat) ↔
      ((ctx.arg 1).toNat % 4096 = 0 →
        ∀ a ≤ maxAddr, InRange (ctx.ret.toNat + (ctx.arg 1).toNat) 4096 a → IsClear dir a) := by
  have bound : pages (ctx.arg 1).toNat + (if (ctx.arg 1).toNat % 4096 = 0 then 4096 else 0) < 2 ^ 32 := by
    unfold pages
    split <;> omega
  rw [default_mmap_effect ctx dir success upwards positive small,clrn_clears_iff,Nat.mod_eq_of_lt bound]
  unfold ClearBetween
  by_cases whole : (ctx.arg 1).toNat % 4096 = 0
  · have exact : pages (ctx.arg 1).toNat = (ctx.arg 1).toNat := by
      unfold pages
      omega
    simp only [whole,if_true,exact,forall_const]
    refine forall₂_congr fun a user => imp_congr_left ?_
    unfold InRange
    omega
  · simp [whole]

end Default

/-- `mmap(NULL, len, …)` at 0x10000 -/
def mapped (len : BitVec 64) : SyscallCtx := ⟨none,fun i => if i = 1 then len else 0,0x10000⟩

theorem default_mmap_iff_short :
    ClearsExactly (taintedAt 0x11000).tagDir
      (SyscallApi.applyEffects (taintedAt 0x11000).tagDir (SyscallTable.postMmapHook (mapped 100))) 0x10000 (pages 100) :=
  (default_mmap_iff (mapped 100) _ (by decide) (by decide) (by decide) (by decide)).mpr fun whole => absurd whole (by decide)

/-- A mapping of one page wipes the tags of the page behind it. -/
theorem default_mmap_wipes :
    ¬ ∀ (ctx : SyscallCtx) (dir : TagDir UInt8), ctx.ret ≠ mapFailed →
      asUnsigned (ctx.arg 3) &&& SyscallTable.mapGrowsdown = 0 → ctx.ret.toNat % 4096 = 0 →
      1 ≤ (ctx.arg 1).toNat → (ctx.arg 1).toNat ≤ 2 ^ 31 →
      ClearsExactly dir (SyscallApi.applyEffects dir (SyscallTable.postMmapHook ctx)) ctx.ret.toNat
        (pages (ctx.arg 1).toNat) := by
  intro claim
  have clears := claim (mapped 4096) (taintedAt 0x11000).tagDir (by decide) (by decide) (by decide) (by decide) (by decide)
  rw [default_mmap_effect (mapped 4096) _ (by decide) (by decide) (by decide) (by decide),clrn_clears_iff] at clears
  exact taintedAt_taint (by decide) (clears 0x11000 (by decide) (by decide))

/-! Input from a descriptor that is not tracked. -/

section Input
variable {T : Type} [TagTraits T] (env : Env T) (ctx : SyscallCtx) (s : Taint T)

/-- The tags after the three hooks for one call: each clears what was read, and nothing else. -/
structure Overwrites (dir afterRead afterPread afterDefault : TagDir T) (buf nr : Nat) : Prop where
  read : ClearsExactly dir afterRead buf nr
  pread : ClearsExactly dir afterPread buf nr
  default : ClearsExactly dir afterDefault buf nr
  agree : ∀ a, tagmapGetb afterRead a = tagmapGetb afterPread a ∧ tagmapGetb afterPread a = tagmapGetb afterDefault a

/-- The three hooks overwrite what was read if and only if the bytes are clear on which that range
differs from those of 32-bit lengths: its own, and for `pread64` the count. -/
theorem untainted_input_iff (positive : 0 < ctx.ret.toInt) (untracked : ¬ isFuzzingFd s (asInt (ctx.arg 0))) :
    ∃ read pread, (∀ fuel, postReadHook env fuel ctx s = .returned read) ∧
      (∀ fuel, postPread64Hook env fuel ctx s = .returned pread) ∧
      (Overwrites s.tagDir read.tagDir pread.tagDir
          (SyscallApi.applyEffects s.tagDir (SyscallTable.postReadHook ctx)) (ctx.arg 1).toNat ctx.ret.toNat ↔
        TailClear s.tagDir (ctx.arg 1).toNat ctx.ret.toNat ∧
        ClearBetween s.tagDir (ctx.arg 1).toNat ((ctx.arg 2).toNat % 2 ^ 32) ctx.ret.toNat) := by
  have some : ctx.ret ≠ 0 := by
    intro zero
    simp [zero] at positive
  have some' : ¬ ctx.ret.toNat ≤ 0 := fun le => some (BitVec.eq_of_toNat_eq (Nat.le_zero.mp le))
  have default : SyscallApi.applyEffects s.tagDir (SyscallTable.postReadHook ctx) =
      tagmapClrn s.tagDir (ctx.arg 1).toNat ctx.ret.toNat := by
    simp [SyscallTable.postReadHook,SyscallTable.clearReturned,Int.not_le.mpr positive,SyscallApi.applyEffects,
      SyscallApi.applyEffect]
  refine ⟨{ s with tagDir := tagmapClrn s.tagDir (ctx.arg 1).toNat ctx.ret.toNat },
    { s with tagDir := tagmapClrn s.tagDir (ctx.arg 1).toNat (ctx.arg 2).toNat },fun fuel => ?_,fun fuel => ?_,?_⟩
  · simp [postReadHook,some',untracked]
  · simp [postPread64Hook,some',untracked]
  · rw [default,tailClear_iff,← clrn_clears_iff,← clrn_clears_iff]
    constructor
    · exact fun overwrites => ⟨overwrites.read,overwrites.pread⟩
    · rintro ⟨read,pread⟩
      exact ⟨read,pread,read,fun a => ⟨read.agree pread a,pread.agree read a⟩⟩

end Input

/-- `pread64(3, (void *)0x10000, count, 0) = 1` -/
def shortRead (count : BitVec 64) : SyscallCtx :=
  ⟨none,fun i => if i = 0 then 3 else if i = 1 then 0x10000 else if i = 2 then count else 0,1⟩

theorem untainted_input_iff_full : ∃ read pread, (∀ fuel, postReadHook FailedCalls.sampleEnv fuel (shortRead 1) (taintedAt 0x10001) = .returned read) ∧
    (∀ fuel, postPread64Hook FailedCalls.sampleEnv fuel (shortRead 1) (taintedAt 0x10001) = .returned pread) ∧
    Overwrites (taintedAt 0x10001).tagDir read.tagDir pread.tagDir
      (SyscallApi.applyEffects (taintedAt 0x10001).tagDir (SyscallTable.postReadHook (shortRead 1))) 0x10000 1 := by
  obtain ⟨read,pread,first,second,exact⟩ :=
    untainted_input_iff FailedCalls.sampleEnv (shortRead 1) (taintedAt 0x10001) (by decide) (by decide)
  exact ⟨read,pread,first,second,exact.mpr ⟨.of_lt (by decide),fun _ _ differ => absurd Iff.rfl differ⟩⟩

/-- `pread64` clears the byte after the one that was read. -/
theorem short_pread_clears :
    ¬ ∀ (env : Env UInt8) (ctx : SyscallCtx) (s pread : Taint UInt8), 0 < ctx.ret.toInt → ctx.ret.toNat ≤ (ctx.arg 2).toNat →
      ¬ isFuzzingFd s (asInt (ctx.arg 0)) → (∀ fuel, postPread64Hook env fuel ctx s = .returned pread) →
      ClearsExactly s.tagDir pread.tagDir (ctx.arg 1).toNat ctx.ret.toNat := by
  intro claim
  have clears := claim FailedCalls.sampleEnv (shortRead 2) (taintedAt 0x10001)
    { taintedAt 0x10001 with tagDir := tagmapClrn (taintedAt 0x10001).tagDir 0x10000 2 } (by decide) (by decide) (by decide)
    fun _ => rfl
  exact taintedAt_taint (by decide) ((clrn_clears_iff _ 0x10000 1 2).mp clears 0x10001 (by decide) (by decide))

end Libdft.ClearedRanges
