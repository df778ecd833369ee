import Libdft.TagMap
import Mathlib.Data.Finset.Insert
import Mathlib.Data.Finset.Lattice.Basic
import Mathlib.Order.SetNotation

/-! `tag_alloc` and `tag_combine` of `tag_trait.cpp` for the two back ends whose operations
keep no state. The label and cell back ends are modelled on their own. -/
namespace Libdft

/-- The operations of one choice of `tag_t`; an offset is an `unsigned int`. -/
class TagOps (T : Type) extends TagTraits T where
  tagAlloc : BitVec 32 → T
  tagCombine : T → T → T

/-- `TAG_UINT8` -/
instance : TagOps UInt8 where
  toTagTraits := inferInstance
  tagAlloc offset := if 0 < offset then 1 else 0
  tagCombine := (· ||| ·)

/-- `TAG_SET` -/
instance : TagOps (Finset (BitVec 32)) where
  toTagTraits := inferInstance
  tagAlloc offset := {offset}
  tagCombine := (· ∪ ·)

open TagTraits TagOps in
/-- Nothing tainted comes from tags that are cleared. -/
class LawfulTagOps (T : Type) [TagOps T] : Prop where
  combine_cleared : tagCombine (clearedVal : T) clearedVal = clearedVal

instance : LawfulTagOps UInt8 := ⟨rfl⟩
instance : LawfulTagOps (Finset (BitVec 32)) := ⟨Finset.union_self ∅⟩

end Libdft
