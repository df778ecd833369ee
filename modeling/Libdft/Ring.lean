import Mathlib.Algebra.Ring.Nat
import Mathlib.Tactic.Common
import Mathlib.Logic.Function.Basic

/-! A circular buffer that keeps one slot empty, and the queue it holds. Slots
outside the queue keep whatever was written there last. -/
namespace Libdft

structure Ring (α : Type) where
  head : Nat
  tail : Nat
  slots : Nat → α

namespace Ring

variable {n : Nat} {r : Ring α}

def push (n : Nat) (r : Ring α) (x : α) : Ring α :=
  { r with slots := Function.update r.slots r.tail x, tail := (r.tail + 1) % n }

def pop (n : Nat) (r : Ring α) : Ring α := { r with head := (r.head + 1) % n }

def count (n : Nat) (r : Ring α) : Nat := (r.tail + n - r.head) % n

/-- The queue, next entry first. -/
def contents (n : Nat) (r : Ring α) : List α :=
  (List.range (r.count n)).map fun k => r.slots ((r.head + k) % n)

structure Fits (n : Nat) (r : Ring α) : Prop where
  head : r.head < n
  tail : r.tail < n

@[simp] theorem length_contents : (r.contents n).length = r.count n := by simp [contents]

theorem Fits.count_lt (fits : Fits n r) : r.count n < n :=
  Nat.mod_lt _ (Nat.lt_of_le_of_lt (Nat.zero_le _) fits.head)

theorem Fits.count_eq (fits : Fits n r) :
    r.count n = if r.head ≤ r.tail then r.tail - r.head else r.tail + n - r.head := by
  have head := fits.head
  have tail := fits.tail
  unfold count
  split
  · rename_i le
    rw [show r.tail + n - r.head = r.tail - r.head + n by omega,Nat.add_mod_right,
      Nat.mod_eq_of_lt (by omega)]
  · exact Nat.mod_eq_of_lt (by omega)

theorem Fits.count_eq_zero (fits : Fits n r) : r.count n = 0 ↔ r.head = r.tail := by
  have head := fits.head
  have tail := fits.tail
  rw [fits.count_eq]
  split <;> omega

theorem Fits.contents_eq_nil (fits : Fits n r) : r.contents n = [] ↔ r.head = r.tail := by
  rw [← List.length_eq_zero_iff,length_contents,fits.count_eq_zero]

/-- The free slots, by the case split on which index is ahead. -/
theorem Fits.room (fits : Fits n r) :
    (if r.head ≤ r.tail then n - 1 - (r.tail - r.head) else r.head - r.tail - 1) =
      n - 1 - r.count n := by
  have head := fits.head
  have tail := fits.tail
  rw [fits.count_eq]
  split <;> omega

theorem succ_mod (bound : cur < n) : (cur + 1) % n = if cur + 1 = n then 0 else cur + 1 := by
  split
  · rename_i wrap
    rw [wrap,Nat.mod_self]
  · exact Nat.mod_eq_of_lt (by omega)

theorem Fits.push (fits : Fits n r) (x : α) : Fits n (r.push n x) :=
  ⟨fits.head,Nat.mod_lt _ (Nat.lt_of_le_of_lt (Nat.zero_le _) fits.head)⟩

theorem Fits.pop (fits : Fits n r) : Fits n (r.pop n) :=
  ⟨Nat.mod_lt _ (Nat.lt_of_le_of_lt (Nat.zero_le _) fits.head),fits.tail⟩

theorem Fits.count_push (fits : Fits n r) (room : r.count n + 1 < n) (x : α) :
    (r.push n x).count n = r.count n + 1 := by
  have head := fits.head
  have tail := fits.tail
  have before := fits.count_eq
  rw [(fits.push x).count_eq]
  simp only [Ring.push,succ_mod tail]
  split at before <;> split <;> split <;> omega

theorem Fits.count_pop (fits : Fits n r) (some : r.head ≠ r.tail) :
    r.count n = (r.pop n).count n + 1 := by
  have head := fits.head
  have tail := fits.tail
  rw [fits.pop.count_eq,fits.count_eq]
  simp only [Ring.pop,succ_mod head]
  split <;> split <;> split <;> omega

theorem Fits.tail_eq (fits : Fits n r) : r.tail = (r.head + r.count n) % n := by
  have head := fits.head
  have tail := fits.tail
  have before := fits.count_eq
  split at before
  · rw [show r.head + r.count n = r.tail by omega,Nat.mod_eq_of_lt tail]
  · rw [show r.head + r.count n = r.tail + n by omega,Nat.add_mod_right,Nat.mod_eq_of_lt tail]

theorem mod_ne (head : cur < n) (less : i < j) (bound : j < n) : (cur + i) % n ≠ (cur + j) % n := by
  intro same
  have split (k : Nat) (below : k < n) : (cur + k) % n = if cur + k < n then cur + k else cur + k - n := by
    split
    · exact Nat.mod_eq_of_lt ‹_›
    · rw [Nat.mod_eq_sub_mod (by omega),Nat.mod_eq_of_lt (by omega)]
  rw [split i (by omega),split j bound] at same
  split at same <;> split at same <;> omega

theorem Fits.contents_push (fits : Fits n r) (room : r.count n + 1 < n) (x : α) :
    (r.push n x).contents n = r.contents n ++ [x] := by
  rw [contents,fits.count_push room,List.range_succ,List.map_append]
  congr 1
  · refine List.map_congr_left fun k member => ?_
    have below := List.mem_range.mp member
    refine Function.update_of_ne ?_ _ _
    show (r.head + k) % n ≠ r.tail
    rw [fits.tail_eq]
    exact mod_ne fits.head below (by omega)
  · simp only [Ring.push,List.map_cons,List.map_nil]
    rw [← fits.tail_eq,Function.update_self]

theorem Fits.contents_pop (fits : Fits n r) (some : r.head ≠ r.tail) :
    r.contents n = r.slots r.head :: (r.pop n).contents n := by
  rw [contents,fits.count_pop some,List.range_succ_eq_map,List.map_cons,List.map_map,Nat.add_zero,
    Nat.mod_eq_of_lt fits.head,contents]
  congr 1
  refine List.map_congr_left fun k _ => ?_
  show r.slots ((r.head + (k + 1)) % n) = r.slots (((r.head + 1) % n + k) % n)
  rw [Nat.mod_add_mod,Nat.add_right_comm,Nat.add_assoc]

/-- A batch of pushes that finds room enough. -/
theorem Fits.pushAll (fits : Fits n r) (xs : List α) (room : r.count n + xs.length < n) :
    Fits n (xs.foldl (Ring.push n) r) ∧
      (xs.foldl (Ring.push n) r).contents n = r.contents n ++ xs := by
  induction xs generalizing r with
  | nil => exact ⟨fits,(List.append_nil _).symm⟩
  | cons x xs ih =>
    rw [List.length_cons] at room
    have one := fits.count_push (by omega) x
    obtain ⟨keep,all⟩ := ih (fits.push x) (by omega)
    refine ⟨keep,?_⟩
    rw [List.foldl_cons,all,fits.contents_push (by omega),List.append_assoc]
    rfl

end Ring

end Libdft
