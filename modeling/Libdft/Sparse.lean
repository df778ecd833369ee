import Mathlib.Algebra.Ring.Nat
import Mathlib.Logic.Function.Basic
import Mathlib.Tactic.Common

/-! Arrays of optional blocks, where a missing block reads as the blank one and is
allocated by the first change. Nested arrays are read and changed level by level;
nothing is said about space. -/
namespace Libdft.Sparse

variable {ι β : Type} (blank : β)

def read (t : ι → Option β) (i : ι) : β := (t i).getD blank

@[simp] theorem read_empty (i : ι) : read blank (fun _ => none) i = blank := rfl

variable [DecidableEq ι]

/-- Change one block, allocating it if it is missing. -/
def modify (t : ι → Option β) (i : ι) (change : β → β) : ι → Option β :=
  Function.update t i (some (change (read blank t i)))

@[simp] theorem read_modify_self (t : ι → Option β) (i : ι) (change : β → β) :
    read blank (modify blank t i change) i = change (read blank t i) := by
  simp [read,modify]

@[simp] theorem read_modify_other {t : ι → Option β} {i j : ι} (apart : j ≠ i) (change : β → β) :
    read blank (modify blank t i change) j = read blank t j := by
  simp [read,modify,apart]

section Nested
variable {κ γ : Type} [DecidableEq κ] (inner : γ)

/-- Through two levels only the changed entry differs. -/
theorem read_read_modify (t : ι → Option (κ → Option γ)) (i j : ι) (k l : κ) (change : γ → γ) :
    read inner (read (fun _ => none) (modify (fun _ => none) t i fun row => modify inner row k change) j) l =
      if j = i ∧ l = k then change (read inner (read (fun _ => none) t i) k)
      else read inner (read (fun _ => none) t j) l := by
  by_cases row : j = i
  · subst row
    by_cases column : l = k
    · subst column
      simp
    · simp [column]
  · simp [row]

end Nested

end Libdft.Sparse
