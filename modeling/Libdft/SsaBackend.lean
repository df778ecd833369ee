import Mathlib.Data.Finset.Sort
import Mathlib.Data.Finset.Image
import Mathlib.Data.Fintype.Pi
import Mathlib.Data.Nat.Bitwise

/-! What the ssa tags ask of the decision-diagram backend: handles for sets of
assignments to 24 variables, and the two ways between an offset and an assignment.
The backend's own tables and its collection are not modelled. -/
namespace Libdft.Ssa

/-- `TAG_WIDTH` -/
def tagWidth : Nat := 24

/-- One variable per bit of an offset. -/
abbrev Assignment := Fin tagWidth → Bool

/-- What the worker's tasks return and what enumeration lists. -/
structure Backend where
  cube : Assignment → Nat
  union : Nat → Nat → Nat
  enum : Nat → List Assignment

/-- `array[VAR_ORDER]` for every bit of the offset. -/
def offsetArray (offset : Nat) : Assignment := fun i => (1 <<< i.val) &&& offset != 0

/-- `offset += 1 << i` for every variable that is set; the sum stays below 2^24. -/
def arrayOffset (res : Assignment) : Nat :=
  Fin.foldl tagWidth (fun offset i => if res i then offset + 1 <<< i.val else offset) 0

/-- The sorted `offset_buf` of a diagram. -/
def offsetBuf (backend : Backend) (bdd : Nat) : List Nat :=
  ((backend.enum bdd).map arrayOffset).mergeSort (· ≤ ·)

theorem offsetArray_apply (offset : Nat) (i : Fin tagWidth) : offsetArray offset i = offset.testBit i := by
  rw [offsetArray,Nat.one_shiftLeft]
  by_cases bit : offset.testBit i
  · rw [bit,bne_iff_ne]
    intro zero
    have := congrArg (Nat.testBit · i) zero
    simp [bit] at this
  · rw [Bool.eq_false_iff.mpr bit,bne_eq_false_iff_eq]
    refine Nat.eq_of_testBit_eq fun j => ?_
    rw [Nat.testBit_and,Nat.testBit_two_pow,Nat.zero_testBit]
    by_cases same : i.val = j
    · subst same
      simp [bit]
    · simp [same]

private theorem sum_spec (n : Nat) (f : Fin n → Bool) :
    Fin.foldl n (fun offset i => if f i then offset + 1 <<< i.val else offset) 0 < 2 ^ n ∧
      ∀ i : Fin n, (Fin.foldl n (fun offset i => if f i then offset + 1 <<< i.val else offset) 0).testBit i = f i := by
  induction n with
  | zero => exact ⟨Nat.one_pos,fun i => i.elim0⟩
  | succ n ih =>
    obtain ⟨small,bits⟩ := ih fun i => f i.castSucc
    rw [Fin.foldl_succ_last]
    simp only [Fin.val_castSucc,Fin.val_last,Nat.one_shiftLeft] at small bits ⊢
    generalize Fin.foldl n (fun offset i => if f i.castSucc then offset + 2 ^ i.val else offset) 0 =
      low at small bits ⊢
    constructor
    · rw [Nat.pow_succ]
      split <;> omega
    · intro i
      refine Fin.lastCases ?_ (fun i => ?_) i
      · rw [Fin.val_last]
        split
        · rename_i set
          rw [Nat.add_comm,Nat.testBit_two_pow_add_eq,Nat.testBit_lt_two_pow small,set]
          rfl
        · rename_i unset
          rw [Nat.testBit_lt_two_pow small,Bool.eq_false_iff.mpr unset]
      · rw [Fin.val_castSucc,← bits i]
        split
        · rw [Nat.add_comm,Nat.testBit_two_pow_add_gt i.isLt]
        · rfl

theorem arrayOffset_lt (res : Assignment) : arrayOffset res < 2 ^ tagWidth := (sum_spec tagWidth res).1

@[simp] theorem offsetArray_arrayOffset (res : Assignment) : offsetArray (arrayOffset res) = res := by
  funext i
  rw [offsetArray_apply]
  exact (sum_spec tagWidth res).2 i

theorem arrayOffset_offsetArray {offset : Nat} (small : offset < 2 ^ tagWidth) :
    arrayOffset (offsetArray offset) = offset := by
  refine Nat.eq_of_testBit_eq fun i => ?_
  by_cases bound : i < tagWidth
  · have bit := (sum_spec tagWidth (offsetArray offset)).2 ⟨i,bound⟩
    rw [offsetArray_apply] at bit
    exact bit
  · have far : 2 ^ tagWidth ≤ 2 ^ i := Nat.pow_le_pow_right (by decide) (Nat.le_of_not_lt bound)
    rw [Nat.testBit_lt_two_pow (Nat.lt_of_lt_of_le (arrayOffset_lt _) far),
      Nat.testBit_lt_two_pow (Nat.lt_of_lt_of_le small far)]

theorem arrayOffset_injective : Function.Injective arrayOffset := fun a b same => by
  rw [← offsetArray_arrayOffset a,same,offsetArray_arrayOffset]

/-- The assignments of a set of offsets. -/
def assignments (offsets : Finset Nat) : Finset Assignment := offsets.image offsetArray

/-- Offsets that the 24 variables can tell apart. -/
def Narrow (offsets : Finset Nat) : Prop := ∀ o ∈ offsets, o < 2 ^ tagWidth

theorem mem_assignments {offsets : Finset Nat} (narrow : Narrow offsets) {o : Nat} (small : o < 2 ^ tagWidth) :
    offsetArray o ∈ assignments offsets ↔ o ∈ offsets := by
  rw [assignments,Finset.mem_image]
  constructor
  · rintro ⟨o',member,same⟩
    have := congrArg arrayOffset same
    rw [arrayOffset_offsetArray (narrow o' member),arrayOffset_offsetArray small] at this
    exact this ▸ member
  · exact fun member => ⟨o,member,rfl⟩

theorem assignments_injective {S T : Finset Nat} (narrowS : Narrow S) (narrowT : Narrow T)
    (same : assignments S = assignments T) : S = T := by
  ext o
  constructor <;> intro member
  · exact (mem_assignments narrowT (narrowS o member)).mp
      (same ▸ (mem_assignments narrowS (narrowS o member)).mpr member)
  · exact (mem_assignments narrowS (narrowT o member)).mp
      (same ▸ (mem_assignments narrowT (narrowT o member)).mpr member)

/-- A backend whose handles are canonical: one for each set of assignments, the empty
one being `mtbdd_false`. -/
structure Canonical (backend : Backend) where
  bdd : Finset Assignment → Nat
  injective : Function.Injective bdd
  falseBdd : bdd ∅ = 0
  cube : ∀ a, backend.cube a = bdd {a}
  union : ∀ A B, backend.union (bdd A) (bdd B) = bdd (A ∪ B)
  enum_nodup : ∀ A, (backend.enum (bdd A)).Nodup
  mem_enum : ∀ A a, a ∈ backend.enum (bdd A) ↔ a ∈ A

namespace Canonical

variable {backend : Backend} (canonical : Canonical backend)

/-- The handle of a set of offsets. -/
def handle (offsets : Finset Nat) : Nat := canonical.bdd (assignments offsets)

theorem handle_injective {S T : Finset Nat} (narrowS : Narrow S) (narrowT : Narrow T)
    (same : canonical.handle S = canonical.handle T) : S = T :=
  assignments_injective narrowS narrowT (canonical.injective same)

theorem handle_singleton (o : Nat) : backend.cube (offsetArray o) = canonical.handle {o} := by
  rw [canonical.cube,handle,assignments,Finset.image_singleton]

theorem handle_union (S T : Finset Nat) :
    backend.union (canonical.handle S) (canonical.handle T) = canonical.handle (S ∪ T) := by
  rw [handle,handle,canonical.union,handle,assignments,assignments,assignments,Finset.image_union]

theorem handle_empty : canonical.handle ∅ = 0 := by
  rw [handle,assignments,Finset.image_empty,canonical.falseBdd]

/-- Enumeration and sort give back the offsets in increasing order. -/
theorem offsetBuf_handle {S : Finset Nat} (narrow : Narrow S) :
    offsetBuf backend (canonical.handle S) = S.sort (· ≤ ·) := by
  have nodup : ((backend.enum (canonical.handle S)).map arrayOffset).Nodup :=
    (canonical.enum_nodup _).map arrayOffset_injective
  have sorted := List.pairwise_mergeSort' (· ≤ ·)
    ((backend.enum (canonical.handle S)).map arrayOffset)
  have nodup' : (offsetBuf backend (canonical.handle S)).Nodup :=
    (List.mergeSort_perm _ _).nodup_iff.mpr nodup
  refine List.Perm.eq_of_pairwise' sorted (Finset.pairwise_sort S (· ≤ ·))
    ((List.perm_ext_iff_of_nodup nodup' (Finset.sort_nodup S (· ≤ ·))).mpr fun o => ?_)
  rw [offsetBuf,List.mem_mergeSort,List.mem_map,Finset.mem_sort]
  constructor
  · rintro ⟨a,member,rfl⟩
    have listed := (canonical.mem_enum _ a).mp member
    rw [← offsetArray_arrayOffset a] at listed
    exact (mem_assignments narrow (arrayOffset_lt a)).mp listed
  · intro member
    have small := narrow o member
    exact ⟨offsetArray o,(canonical.mem_enum _ _).mpr ((mem_assignments narrow small).mpr member),
      arrayOffset_offsetArray small⟩

end Canonical

end Libdft.Ssa
