import Mathlib.Algebra.Ring.Nat
import Mathlib.Data.List.Infix
import Mathlib.Tactic.Common

/-! What the system call hooks have in common: the saved context of a call, the C
conversions of 64-bit values, and the memory of the application. -/
namespace Libdft.Syscall

/-- `SYSCALL_MAX` -/
def syscallMax : Nat := 316

/-- `SYSCALL_ARG_NUM` is not 0, so an argument can be named by a numeral. -/
instance neZero_argNum : NeZero 6 := ⟨by decide⟩

/-- `syscall_ctx_t`. No number stands for -1; the CPU context behind `aux` is read by no hook. -/
structure SyscallCtx where
  nr : Option (Fin syscallMax)
  /-- `arg[SYSCALL_ARG_NUM]` -/
  arg : Fin 6 → BitVec 64
  ret : BitVec 64

/-- Conversion of a 64-bit value to `int`. -/
def asInt (x : BitVec 64) : Int := (x.setWidth 32).toInt

/-- Conversion of a 64-bit value to `unsigned int`. -/
def asUnsigned (x : BitVec 64) : BitVec 32 := x.setWidth 32

/-- `MAP_FAILED`, `(void *)-1` -/
def mapFailed : BitVec 64 := -1

/-- The memory of the application. -/
abbrev Memory := BitVec 64 → BitVec 8

/-- The little-endian value of `size` bytes. -/
def Memory.load (mem : Memory) (addr : BitVec 64) : Nat → Nat
  | 0 => 0
  | size + 1 => (mem addr).toNat + 256 * mem.load (addr + 1) size

def Memory.load32 (mem : Memory) (addr : BitVec 64) : BitVec 32 := BitVec.ofNat 32 (mem.load addr 4)
def Memory.load64 (mem : Memory) (addr : BitVec 64) : BitVec 64 := BitVec.ofNat 64 (mem.load addr 8)

/-- `strstr(haystack, needle) != NULL` -/
def strstr (haystack needle : List Char) : Bool := haystack.tails.any needle.isPrefixOf

theorem strstr_iff : strstr haystack needle ↔ needle <:+: haystack := by
  simp [strstr,List.infix_iff_prefix_suffix,and_comm]

end Libdft.Syscall
