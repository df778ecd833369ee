import Mathlib.Data.Fintype.Card
import Mathlib.Data.Finset.Card

/-! Counting the holders of shared things: how many places refer to each thing, and
how the number changes when one place is made to refer to another. -/
namespace Libdft

variable {ι γ : Type} [Fintype ι] [DecidableEq γ]

/-- The places that refer to `c`. -/
def owners (refs : ι → Option γ) (c : γ) : Nat :=
  (Finset.univ.filter fun i => refs i = some c).card

/-- One if the reference is to `c`. -/
def hits (ref : Option γ) (c : γ) : Nat := if ref = some c then 1 else 0

@[simp] theorem hits_none (c : γ) : hits none c = 0 := rfl

@[simp] theorem hits_self (c : γ) : hits (some c) c = 1 := if_pos rfl

theorem hits_other {ref : Option γ} (other : ref ≠ some c) : hits ref c = 0 := if_neg other

theorem owners_le (refs : ι → Option γ) (c : γ) : owners refs c ≤ Fintype.card ι :=
  Finset.card_le_univ _

theorem owners_pos {refs : ι → Option γ} (h : refs i = some c) : 0 < owners refs c :=
  Finset.card_pos.mpr ⟨i,by simp [h]⟩

theorem owners_eq_zero {refs : ι → Option γ} : owners refs c = 0 ↔ ∀ i, refs i ≠ some c := by
  simp [owners,Finset.filter_eq_empty_iff]

/-- One place leaves what it referred to and joins what it refers to now. -/
theorem owners_update [DecidableEq ι] (refs : ι → Option γ) (i : ι) (v : Option γ) (c : γ) :
    owners (Function.update refs i v) c + hits (refs i) c = owners refs c + hits v c := by
  have split (f : ι → Option γ) : owners f c =
      hits (f i) c + ((Finset.univ.erase i).filter fun j => f j = some c).card := by
    rw [owners,hits,← Finset.insert_erase (Finset.mem_univ i),Finset.filter_insert]
    split
    · rw [Finset.card_insert_of_notMem (by simp),Nat.add_comm]
      simp
    · simp
  have rest : ((Finset.univ.erase i).filter fun j => Function.update refs i v j = some c) =
      (Finset.univ.erase i).filter fun j => refs j = some c := by
    refine Finset.filter_congr fun j member => ?_
    rw [Function.update_of_ne (Finset.ne_of_mem_erase member)]
  rw [split (Function.update refs i v),split refs,rest,Function.update_self]
  omega

end Libdft
