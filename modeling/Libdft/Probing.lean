import Mathlib.Logic.Function.Basic
import Mathlib.Tactic.Common

/-! Insert-only hash tables with open addressing. A key has a probe sequence, and a slot is filled
once. Where every entry has only other keys before it on its probe sequence, no key is in the table
twice, and whoever comes to an empty slot knows that the key is nowhere. -/
namespace Libdft

/-- A probe sequence for every key. -/
structure Probing (K C : Type) where
  start : K → C
  next : K → C → C
  pos : C → Nat

namespace Probing
variable {K C : Type} (P : Probing K C)

/-- The cursor after `n` steps. -/
def cursor (k : K) : Nat → C
  | 0 => P.start k
  | n + 1 => P.next k (cursor k n)

def position (k : K) (n : Nat) : Nat := P.pos (P.cursor k n)

/-- The first `n` slots on the probe sequence have other keys. -/
def Passed (slots : Nat → Option K) (k : K) (n : Nat) : Prop :=
  ∀ j < n, ∃ k', slots (P.position k j) = some k' ∧ k' ≠ k

/-- Every key was put where its probe sequence first had room. -/
def Consistent (slots : Nat → Option K) : Prop :=
  ∀ p k, slots p = some k → ∃ n, P.position k n = p ∧ P.Passed slots k n

/-- Slots that are filled stay as they are. -/
def Keeps (slots slots' : Nat → Option K) : Prop := ∀ p k, slots p = some k → slots' p = some k

variable {P} {slots slots' : Nat → Option K} {k k' : K} {n p p' : Nat}

theorem Keeps.refl : Keeps slots slots := fun _ _ here => here

theorem Keeps.fill (empty : slots p = none) : Keeps slots (Function.update slots p (some k)) := by
  intro q k' here
  have other : q ≠ p := by
    rintro rfl
    simp [here] at empty
  rwa [Function.update_of_ne other]

theorem Passed.keep (passed : P.Passed slots k n) (keeps : Keeps slots slots') : P.Passed slots' k n := by
  intro j below
  obtain ⟨k',here,other⟩ := passed j below
  exact ⟨k',keeps _ _ here,other⟩

theorem Passed.zero : P.Passed slots k 0 := fun _ below => absurd below (Nat.not_lt_zero _)

theorem Passed.succ (passed : P.Passed slots k n) (here : slots (P.position k n) = some k') (other : k' ≠ k) :
    P.Passed slots k (n + 1) := by
  intro j below
  rcases Nat.lt_succ_iff_lt_or_eq.mp below with earlier | rfl
  · exact passed j earlier
  · exact ⟨k',here,other⟩

theorem Consistent.empty : P.Consistent fun _ => none := fun _ _ here => by cases here

/-- The slot that holds a key is not among those it had to pass. -/
theorem Passed.first (passed : P.Passed slots k n) (here : slots (P.position k m) = some k) : n ≤ m := by
  by_contra later
  obtain ⟨k',there,other⟩ := passed m (Nat.lt_of_not_le later)
  exact other (Option.some.inj (there.symm.trans here))

theorem Consistent.unique (consistent : P.Consistent slots) (here : slots p = some k) (there : slots p' = some k) :
    p = p' := by
  obtain ⟨n,rfl,passed⟩ := consistent p k here
  obtain ⟨n',rfl,passed'⟩ := consistent p' k there
  rw [Nat.le_antisymm (passed.first there) (passed'.first here)]

theorem Consistent.fill (consistent : P.Consistent slots) (passed : P.Passed slots k n)
    (empty : slots (P.position k n) = none) : P.Consistent (Function.update slots (P.position k n) (some k)) := by
  have keeps : Keeps slots _ := Keeps.fill (k := k) empty
  intro p k' here
  by_cases same : p = P.position k n
  · subst same
    rw [Function.update_self] at here
    obtain rfl := Option.some.inj here
    exact ⟨n,rfl,passed.keep keeps⟩
  · rw [Function.update_of_ne same] at here
    obtain ⟨m,place,passed'⟩ := consistent p k' here
    exact ⟨m,place,passed'.keep keeps⟩

end Probing
end Libdft
