import Libdft.TagTrait
import Libdft.Syscall

/-! The registers of the VCPU and the places that have tags. Registers are named as Pin names
them, by class and number; what Pin itself does is not modelled. An index outside the
register file and the null tag pointer are faults, after which nothing is claimed. -/
namespace Libdft.Core

open TagMap TagTraits

/-- `GRP_NUM` -/
def grpNum : Nat := 43
/-- `TAGS_PER_GPR` -/
def tagsPerGpr : Nat := 32

def dftRegHelper1 : Nat := 0
def dftRegRdi : Nat := 3
def dftRegRsp : Nat := 6
def dftRegRbx : Nat := 7
def dftRegRdx : Nat := 8
def dftRegRcx : Nat := 9
def dftRegRax : Nat := 10
def dftRegXmm0 : Nat := 19
def dftRegSt0 : Nat := 35

inductive Gpr where
  | rdi | rsi | rbp | rsp | rbx | rdx | rcx | rax | r8 | r9 | r10 | r11 | r12 | r13 | r14 | r15
  deriving DecidableEq, Repr

/-- The registers whose second byte has a name: AH, BH, CH and DH. -/
inductive High where
  | ah | bh | ch | dh
  deriving DecidableEq, Repr

/-- Pin's `REG`. The last constructor stands for every register that has no row of its own and
is in no class that is asked for: the instruction pointer, flags, control and mask registers. -/
inductive Reg where
  | invalid
  | gr64 (g : Gpr)
  | gr32 (g : Gpr)
  | gr16 (g : Gpr)
  | lower8 (g : Gpr)
  | upper8 (h : High)
  | xmm (n : Fin 32)
  | ymm (n : Fin 32)
  | zmm (n : Fin 32)
  | mm (n : Fin 8)
  | st (n : Fin 8)
  | seg (n : Fin 6)
  | other (n : Nat)
  deriving DecidableEq, Repr

def Gpr.row : Gpr → Nat
  | rdi => 3 | rsi => 4 | rbp => 5 | rsp => 6
  | rbx => 7 | rdx => 8 | rcx => 9 | rax => 10
  | r8 => 11 | r9 => 12 | r10 => 13 | r11 => 14
  | r12 => 15 | r13 => 16 | r14 => 17 | r15 => 18

def High.gpr : High → Gpr
  | ah => .rax | bh => .rbx | ch => .rcx | dh => .rdx

/-- `REG_INDX` -/
def regIndx : Reg → Nat
  | .gr64 g | .gr32 g | .gr16 g | .lower8 g => g.row
  | .upper8 h => h.gpr.row
  | .xmm n | .ymm n => if n.val < 16 then dftRegXmm0 + n.val else grpNum
  | .mm n | .st n => dftRegSt0 + n.val
  | .invalid | .zmm _ | .seg _ | .other _ => grpNum

namespace Reg

def isGr64 : Reg → Bool | gr64 _ => true | _ => false
def isGr32 : Reg → Bool | gr32 _ => true | _ => false
def isGr16 : Reg → Bool | gr16 _ => true | _ => false
def isLower8 : Reg → Bool | lower8 _ => true | _ => false
def isUpper8 : Reg → Bool | upper8 _ => true | _ => false
def isGr8 (r : Reg) : Bool := r.isLower8 || r.isUpper8
def isXmm : Reg → Bool | xmm _ => true | _ => false
def isYmm : Reg → Bool | ymm _ => true | _ => false
def isMm : Reg → Bool | mm _ => true | _ => false
def isSeg : Reg → Bool | seg _ => true | _ => false

end Reg

theorem Gpr.row_lt (g : Gpr) : g.row < dftRegXmm0 := by cases g <;> decide

/-- Only registers without a row of their own share the last one. -/
theorem regIndx_le (r : Reg) : regIndx r ≤ grpNum := by
  have row (g : Gpr) : g.row ≤ grpNum := Nat.le_trans (Nat.le_of_lt g.row_lt) (by decide)
  cases r with
  | gr64 g | gr32 g | gr16 g | lower8 g => exact row g
  | upper8 h => exact row h.gpr
  | xmm n | ymm n =>
    simp only [regIndx,dftRegXmm0,grpNum]
    split <;> omega
  | mm n | st n =>
    simp only [regIndx,dftRegSt0,grpNum]
    omega
  | invalid | zmm _ | seg _ | other _ => exact Nat.le_refl _

/-- A byte of a register's row, or a byte of memory. -/
inductive Place where
  | reg (row byte : Nat)
  | mem (addr : BitVec 64)
  deriving DecidableEq

/-- Indices of the array `gpr[GRP_NUM + 1][TAGS_PER_GPR]`. -/
def Place.Inside : Place → Prop
  | reg row byte => row ≤ grpNum ∧ byte < tagsPerGpr
  | mem _ => True

instance : DecidablePred Place.Inside
  | .reg _ _ => inferInstanceAs (Decidable (_ ∧ _))
  | .mem _ => inferInstanceAs (Decidable True)

/-- The rows of the running thread, `RTAG`, and the shadow memory. -/
structure TagState (T : Type) where
  gpr : Nat → Nat → T
  tagDir : TagDir T

inductive Fault where
  | outside
  | nullTag
  deriving DecidableEq

/-- What an analysis routine does. -/
abbrev Analysis (T α : Type) := StateT (TagState T) (Except Fault) α

variable {T : Type} [TagTraits T]

namespace TagState

/-- The tag at a place; nothing where the pointer to it is null. -/
def look (s : TagState T) : Place → Option T
  | .reg row byte => some (s.gpr row byte)
  | .mem addr => tagmapGetb s.tagDir addr.toNat

def put (s : TagState T) (tag : T) : Place → TagState T
  | .reg row byte => { s with gpr := Function.update s.gpr row (Function.update (s.gpr row) byte tag) }
  | .mem addr => { s with tagDir := tagmapSetb s.tagDir addr.toNat tag }

@[simp] theorem look_reg (s : TagState T) (row byte : Nat) : s.look (.reg row byte) = some (s.gpr row byte) := rfl

/-- A write changes one place, unless that place has no tag. -/
theorem look_put (s : TagState T) (tag : T) (p q : Place) :
    (s.put tag p).look q = if q = p then (s.look q).map fun _ => tag else s.look q := by
  cases p with
  | reg row byte =>
    cases q with
    | reg row' byte' =>
      by_cases sameRow : row' = row
      · subst sameRow
        by_cases sameByte : byte' = byte
        · subst sameByte
          simp [put]
        · simp [put,sameByte]
      · simp [put,sameRow]
    | mem addr => rfl
  | mem addr =>
    cases q with
    | reg row byte => rfl
    | mem addr' =>
      show tagmapGetb (tagmapSetb s.tagDir addr.toNat tag) addr'.toNat = _
      rw [tagmapSetb_puts]
      by_cases same : addr' = addr
      · subst same
        by_cases user : addr'.toNat ≤ maxAddr
        · simp [user,look,getb_user _ user]
        · simp [user,look,getb_beyond _ (Nat.lt_of_not_le user)]
      · have apart : addr'.toNat ≠ addr.toNat := fun eq => same (BitVec.eq_of_toNat_eq eq)
        simp [same,apart,look]

end TagState

/-- `RTAG[row][byte]`, or `MTAG(addr)`. -/
def fetch (p : Place) : Analysis T T := fun s =>
  if p.Inside then
    match s.look p with
    | some tag => .ok (tag, s)
    | none => .error .nullTag
  else .error .outside

/-- `RTAG[row][byte] = tag`, or `tagmap_setb(addr, tag)`. -/
def assign (p : Place) (tag : T) : Analysis T Unit := fun s =>
  if p.Inside then .ok ((), s.put tag p) else .error .outside

/-- `for (i = 0; i < n; i++)` -/
def forEach (n : Nat) (body : Nat → Analysis T Unit) : Analysis T Unit := (List.range n).forM body

end Libdft.Core
