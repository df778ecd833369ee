import Libdft.EwahBits
import Libdft.SsaNogc

/-! Compressed bitmaps as tags: the bits of a bitmap are the offsets of its tag. `logicalor` pads its
operands in place, which are tags that somebody else may hold. -/
namespace Libdft.Ewah

open Ssa

def countOnes (w : Word) : Nat := (List.range wordinbits).countP fun j => w.getLsbD j

def Marker.ones (m : Marker) : Nat := (if m.runningBit then m.runningLength * wordinbits else 0) + (m.literals.map countOnes).sum

namespace EWAHBoolArray

def numberOfOnes (a : EWAHBoolArray) : Nat := (a.markers.map Marker.ones).sum

variable {a b : EWAHBoolArray}

theorem enough_words (missingbits : Nat) :
    missingbits ≤ (missingbits / wordinbits + if missingbits % wordinbits ≠ 0 then 1 else 0) * wordinbits := by
  have whole := Nat.div_add_mod missingbits wordinbits
  have less := Nat.mod_lt missingbits (by decide : 0 < wordinbits)
  rw [Nat.add_mul,Nat.mul_comm]
  split <;> omega

/-- Zero words up to the size. -/
theorem padWithZeroes_spec (ok : a.Ok) (totalbits : Nat) :
    (a.padWithZeroes totalbits).Ok ∧ (a.padWithZeroes totalbits).sizeinbits = max a.sizeinbits totalbits ∧
    ∀ i, (a.padWithZeroes totalbits).bit i = a.bit i := by
  unfold padWithZeroes
  split
  next enough => exact ⟨ok,by omega,fun _ => rfl⟩
  next short =>
    dsimp only
    generalize rest : (if 0 < a.last.literals.length ∧ 0 < a.sizeinbits % wordinbits then wordinbits - a.sizeinbits % wordinbits else 0) = avail
    generalize number : ((totalbits - a.sizeinbits - avail) / wordinbits +
      if (totalbits - a.sizeinbits - avail) % wordinbits ≠ 0 then 1 else 0) = wordstoadd
    have covers := ok.covers
    have inside : a.sizeinbits + avail ≤ a.words.length * wordinbits := by
      rw [← rest]
      split
      next ragged =>
        simp only [wordinbits] at covers ragged ⊢
        omega
      next => omega
    have enough : totalbits - a.sizeinbits - avail ≤ wordstoadd * wordinbits := by
      rw [← number]
      exact enough_words _
    obtain ⟨words,fits⟩ := addStreamOfEmptyWords_emits a false wordstoadd
    have same (i : Nat) : EWAHBoolArray.bit { a.addStreamOfEmptyWords false wordstoadd with sizeinbits := totalbits } i = a.bit i :=
      bit_zeros words i
    have long : (a.addStreamOfEmptyWords false wordstoadd).words.length = a.words.length + wordstoadd := by
      rw [words,List.length_append,List.length_replicate]
    refine ⟨⟨fits ok.fits,?_,fun i beyond => ?_⟩,(Nat.max_eq_right (by omega)).symm,same⟩
    · change totalbits ≤ (a.addStreamOfEmptyWords false wordstoadd).words.length * wordinbits
      rw [long,Nat.add_mul]
      omega
    · change totalbits ≤ i at beyond
      rw [same]
      exact ok.clear i (by omega)

theorem makeSameSize_spec (ok : a.Ok) (ok' : b.Ok) :
    (makeSameSize a b).1.Ok ∧ (makeSameSize a b).2.Ok ∧ (makeSameSize a b).1.sizeinbits = (makeSameSize a b).2.sizeinbits ∧
    (∀ i, (makeSameSize a b).1.bit i = a.bit i) ∧ ∀ i, (makeSameSize a b).2.bit i = b.bit i := by
  unfold makeSameSize
  split
  next shorter =>
    obtain ⟨padded,size,same⟩ := padWithZeroes_spec ok' a.sizeinbits
    exact ⟨ok,padded,(size.trans (Nat.max_eq_right (Nat.le_of_lt shorter))).symm,fun _ => rfl,same⟩
  next =>
    split
    next shorter =>
      obtain ⟨padded,size,same⟩ := padWithZeroes_spec ok b.sizeinbits
      exact ⟨padded,ok',size.trans (Nat.max_eq_right (Nat.le_of_lt shorter)),same,fun _ => rfl⟩
    next =>
      have equal : a.sizeinbits = b.sizeinbits := by omega
      exact ⟨ok,ok',equal,fun _ => rfl,fun _ => rfl⟩

theorem bit_orWords {c : EWAHBoolArray} {i : Nat} (words : c.words = orWords a.words b.words)
    (inside : i / wordinbits < a.words.length) (inside' : i / wordinbits < b.words.length) : c.bit i = (a.bit i || b.bit i) := by
  rw [bit,bit,bit,words,orWords,List.getD_eq_getElem?_getD,List.getElem?_zipWith,List.getD_eq_getElem?_getD,List.getD_eq_getElem?_getD,
    List.getElem?_eq_getElem inside,List.getElem?_eq_getElem inside']
  exact BitVec.getLsbD_or

/-- The container is the union, and the operands are what they were. -/
theorem logicalor_spec (ok : a.Ok) (ok' : b.Ok) :
    ((a.logicalor b).1.Ok ∧ ∀ i, (a.logicalor b).1.bit i = (a.bit i || b.bit i)) ∧
    ((a.logicalor b).2.1.Ok ∧ ∀ i, (a.logicalor b).2.1.bit i = a.bit i) ∧
    (a.logicalor b).2.2.Ok ∧ ∀ i, (a.logicalor b).2.2.bit i = b.bit i := by
  obtain ⟨left,right,size,same,same'⟩ := makeSameSize_spec ok ok'
  obtain ⟨words,fits⟩ := logicalor_words a b
  have total : (a.logicalor b).1.sizeinbits = (makeSameSize a b).1.sizeinbits := rfl
  have covers := left.covers
  have covers' := right.covers
  have long : (a.logicalor b).1.words.length = min (makeSameSize a b).1.words.length (makeSameSize a b).2.words.length := by
    rw [words,length_orWords]
  have union (i : Nat) : (a.logicalor b).1.bit i = (a.bit i || b.bit i) := by
    rw [← same,← same']
    by_cases inside : i / wordinbits < (a.logicalor b).1.words.length
    · exact bit_orWords words (by omega) (by omega)
    · have beyond := (Nat.le_div_iff_mul_le (by decide : 0 < wordinbits)).mp (Nat.le_of_not_lt inside)
      have past : (makeSameSize a b).1.sizeinbits ≤ i := by
        rcases Nat.le_total (makeSameSize a b).1.words.length (makeSameSize a b).2.words.length with le | le
        · rw [long,Nat.min_eq_left le] at beyond
          omega
        · rw [long,Nat.min_eq_right le] at beyond
          omega
      rw [bit_beyond beyond,left.clear i past,right.clear i (size ▸ past)]
      rfl
  refine ⟨⟨⟨fits,?_,fun i past => ?_⟩,union⟩,⟨left,same⟩,right,same'⟩
  · rw [total,long]
    rcases Nat.le_total (makeSameSize a b).1.words.length (makeSameSize a b).2.words.length with le | le
    · rwa [Nat.min_eq_left le]
    · rwa [Nat.min_eq_right le,size]
  · rw [total] at past
    rw [union,← same,← same',left.clear i past,right.clear i (size ▸ past)]
    rfl

/-! Emptiness. -/

theorem countOnes_eq_zero (w : Word) : countOnes w = 0 ↔ w = 0 := by
  rw [countOnes,List.countP_eq_zero]
  constructor
  · intro none
    apply BitVec.eq_of_getLsbD_eq
    intro j small
    have off := none j (List.mem_range.mpr small)
    rw [Bool.not_eq_true] at off
    rw [off]
    exact BitVec.getLsbD_zero.symm
  · rintro rfl j _
    simp

theorem ones_eq_zero (m : Marker) : m.ones = 0 ↔ ∀ w ∈ m.words, w = 0 := by
  rw [Marker.ones,Nat.add_eq_zero_iff,List.sum_eq_zero_iff_forall_eq_nat,Marker.words]
  simp only [List.mem_append,List.mem_replicate,List.mem_map,forall_exists_index,and_imp,forall_apply_eq_imp_iff₂,countOnes_eq_zero]
  constructor
  · rintro ⟨run,literals⟩ w (⟨some,rfl⟩ | literal)
    · cases bit : m.runningBit with
      | false => rfl
      | true =>
        rw [bit,if_pos rfl,Nat.mul_eq_zero] at run
        exact absurd (run.resolve_right (by decide)) some
    · exact literals w literal
  · intro all
    refine ⟨?_,fun w literal => all w (.inr literal)⟩
    split
    next set =>
      by_cases none : m.runningLength = 0
      · rw [none,Nat.zero_mul]
      · have zero := all (clean m.runningBit) (.inl ⟨none,rfl⟩)
        rw [set] at zero
        exact absurd zero (by decide)
    next => rfl

theorem numberOfOnes_eq_zero (a : EWAHBoolArray) : a.numberOfOnes = 0 ↔ ∀ i, a.bit i = false := by
  have all : a.numberOfOnes = 0 ↔ ∀ w ∈ a.words, w = 0 := by
    rw [numberOfOnes,List.sum_eq_zero_iff_forall_eq_nat,words]
    simp only [List.mem_map,List.mem_flatMap,forall_exists_index,and_imp,forall_apply_eq_imp_iff₂,ones_eq_zero]
    exact ⟨fun each w m member inside => each m member w inside,fun each m member w inside => each w m member inside⟩
  rw [all]
  constructor
  · intro zero i
    by_cases inside : i / wordinbits < a.words.length
    · rw [bit,List.getD_eq_getElem _ _ inside,zero _ (List.getElem_mem inside)]
      exact BitVec.getLsbD_zero
    · exact bit_beyond ((Nat.le_div_iff_mul_le (by decide)).mp (Nat.le_of_not_lt inside))
  · intro off w member
    obtain ⟨k,inside,rfl⟩ := List.getElem_of_mem member
    apply BitVec.eq_of_getLsbD_eq
    intro j small
    have place : (wordinbits * k + j) / wordinbits = k ∧ (wordinbits * k + j) % wordinbits = j := by
      simp only [wordinbits]
      omega
    have here := off (wordinbits * k + j)
    rw [bit,place.1,place.2,List.getD_eq_getElem _ _ inside] at here
    rw [here]
    exact BitVec.getLsbD_zero.symm

end EWAHBoolArray

open EWAHBoolArray

/-- `tag_alloc` -/
def tagAlloc (offset : BitVec 32) : EWAHBoolArray := (empty.set (offset.setWidth 64)).1

/-- `tag_combine`, with what it leaves of its operands -/
def tagCombine (lhs rhs : EWAHBoolArray) : EWAHBoolArray × EWAHBoolArray × EWAHBoolArray := lhs.logicalor rhs

/-- A tag that came about so, whatever it was an operand of since. -/
inductive Held : Expr → EWAHBoolArray → Prop where
  | null : Held .null empty
  | alloc (offset : BitVec 32) : Held (.alloc offset.toNat) (tagAlloc offset)
  | combine : Held lhs a → Held rhs b → Held (.combine lhs rhs) (tagCombine a b).1
  | left : Held lhs a → Held rhs b → Held lhs (tagCombine a b).2.1
  | right : Held lhs a → Held rhs b → Held rhs (tagCombine a b).2.2

theorem Held.spec (held : Held e a) : a.Ok ∧ ∀ i, a.bit i = decide (i ∈ e.offsets) := by
  induction held with
  | null => exact ⟨empty_ok,fun i => bit_beyond (Nat.zero_le i)⟩
  | alloc offset =>
    have same : (offset.setWidth 64).toNat = offset.toNat := BitVec.toNat_setWidth_of_le (by decide)
    have small : InRange (offset.setWidth 64) := by
      rw [InRange,same]
      omega
    have there := (set_spec empty_exact small (Nat.zero_le _)).2
    refine ⟨(there.exact empty_exact (Nat.zero_le _)).toOk,fun i => ?_⟩
    rw [tagAlloc,there.bits,bit_beyond (Nat.zero_le i),same]
    simp [Expr.offsets]
  | combine _ _ ihl ihr =>
    obtain ⟨⟨ok,union⟩,_⟩ := logicalor_spec ihl.1 ihr.1
    refine ⟨ok,fun i => ?_⟩
    rw [tagCombine,union,ihl.2,ihr.2,Expr.offsets]
    simp
  | left _ _ ihl ihr =>
    obtain ⟨_,⟨ok,same⟩,_⟩ := logicalor_spec ihl.1 ihr.1
    exact ⟨ok,fun i => (same i).trans (ihl.2 i)⟩
  | right _ _ ihl ihr =>
    obtain ⟨_,_,ok,same⟩ := logicalor_spec ihl.1 ihr.1
    exact ⟨ok,fun i => (same i).trans (ihr.2 i)⟩

/-- The bits of a tag are its offsets, whatever it was combined with since; a raw iterator reads its
buffer as it was written, and it has no ones exactly if it has no offset. -/
theorem bits_are_offsets (held : Held e a) :
    (∀ i, a.bit i = decide (i ∈ e.offsets)) ∧ rawIterator (bufferOf a.markers) = a.markers ∧ (a.numberOfOnes = 0 ↔ e.offsets = ∅) := by
  obtain ⟨ok,bits⟩ := held.spec
  refine ⟨bits,rawIterator_bufferOf ok.fits,?_⟩
  rw [numberOfOnes_eq_zero,Finset.eq_empty_iff_forall_notMem]
  simp only [bits,decide_eq_false_iff_not]

theorem bits_are_offsets_padded : (tagCombine (tagCombine (tagAlloc 3) (tagAlloc 70000)).2.1 (tagAlloc 40)).1.bit 40 = true ∧
    (tagCombine (tagCombine (tagAlloc 3) (tagAlloc 70000)).2.1 (tagAlloc 40)).1.bit 70000 = false := by
  have padded : Held (.alloc 3) (tagCombine (tagAlloc 3) (tagAlloc 70000)).2.1 := .left (.alloc 3) (.alloc 70000)
  have bits := (bits_are_offsets (.combine padded (.alloc 40))).1
  exact ⟨(bits 40).trans (by decide),(bits 70000).trans (by decide)⟩

end Libdft.Ewah
