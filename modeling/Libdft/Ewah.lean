import Mathlib.Algebra.Ring.Nat
import Mathlib.Data.List.Basic
import Mathlib.Tactic.Common

/-! Compressed bitmaps of `ewah.h`, with words of 32 bits: a buffer of running length words, each with
the literal words that follow it. A running length word has a bit, 16 bits for the length of its run
of clean words and 15 for the number of literal words. -/
namespace Libdft.Ewah

abbrev Word := BitVec 32

def wordinbits : Nat := 32
def largestrunninglengthcount : Nat := 0xffff
def largestliteralcount : Nat := 0x7fff

/-- A word whose bits are all equal. -/
def clean (v : Bool) : Word := if v then ~~~0 else 0

/-- A running length word, and the literal words after it. -/
structure Marker where
  runningBit : Bool
  runningLength : Nat
  literals : List Word
  deriving DecidableEq, Repr

namespace Marker

def size (m : Marker) : Nat := m.runningLength + m.literals.length

/-- The words that it stands for. -/
def words (m : Marker) : List Word := List.replicate m.runningLength (clean m.runningBit) ++ m.literals

/-- The fields hold the lengths. -/
structure Fits (m : Marker) : Prop where
  run : m.runningLength ≤ largestrunninglengthcount
  literal : m.literals.length ≤ largestliteralcount

def discardFirstWords (m : Marker) (x : Nat) : Marker :=
  if x ≤ m.runningLength then { m with runningLength := m.runningLength - x }
  else { m with runningLength := 0, literals := m.literals.drop (x - m.runningLength) }

@[simp] theorem length_words (m : Marker) : m.words.length = m.size := by simp [words,size]

theorem words_discard (m : Marker) (x : Nat) : (m.discardFirstWords x).words = m.words.drop x := by
  unfold discardFirstWords
  split
  next inside =>
    rw [words,words,List.drop_append_of_le_length (by simpa using inside),List.drop_replicate]
  next outside =>
    have gone : (List.replicate m.runningLength (clean m.runningBit)).drop x = [] :=
      List.drop_eq_nil_of_le (by rw [List.length_replicate]; omega)
    rw [words,words,List.drop_append,gone,List.length_replicate,List.replicate_zero]

/-- The running length word. -/
def word (m : Marker) : Word := BitVec.ofNat 32 (m.literals.length * 2 ^ 17 + m.runningLength * 2 + m.runningBit.toNat)

end Marker

def getRunningBit (data : Word) : Bool := data &&& 1 ≠ 0
def getRunningLength (data : Word) : Nat := ((data >>> 1) &&& 0xffff).toNat
def getNumberOfLiteralWords (data : Word) : Nat := (data >>> 17).toNat

/-- The buffer as it is in memory. -/
def bufferOf (markers : List Marker) : List Word := markers.flatMap fun m => m.word :: m.literals

/-- What a raw iterator reads from a buffer. -/
def rawIterator : List Word → List Marker
  | [] => []
  | data :: rest =>
    ⟨getRunningBit data,getRunningLength data,rest.take (getNumberOfLiteralWords data)⟩ ::
      rawIterator (rest.drop (getNumberOfLiteralWords data))
termination_by buffer => buffer.length
decreasing_by
  rw [List.length_drop,List.length_cons]
  omega

theorem Marker.Fits.fields {m : Marker} (fits : m.Fits) :
    getRunningBit m.word = m.runningBit ∧ getRunningLength m.word = m.runningLength ∧ getNumberOfLiteralWords m.word = m.literals.length := by
  obtain ⟨run,literal⟩ := fits
  simp only [largestrunninglengthcount,largestliteralcount] at run literal
  have low := m.runningBit.toNat_le
  have value : m.word.toNat = m.literals.length * 2 ^ 17 + m.runningLength * 2 + m.runningBit.toNat := by
    rw [Marker.word,BitVec.toNat_ofNat,Nat.mod_eq_of_lt (by omega)]
  refine ⟨?_,?_,?_⟩
  · have bit : (m.word &&& 1).toNat = m.runningBit.toNat := by
      rw [BitVec.toNat_and,value]
      change _ &&& 1 = _
      rw [Nat.and_one_is_mod]
      omega
    rw [getRunningBit]
    cases here : m.runningBit with
    | false =>
      rw [here] at bit
      have zero : m.word &&& 1 = 0 := BitVec.eq_of_toNat_eq bit
      exact decide_eq_false (not_not.mpr zero)
    | true =>
      rw [here] at bit
      refine decide_eq_true fun zero => ?_
      rw [zero] at bit
      cases bit
  · rw [getRunningLength,BitVec.toNat_and,BitVec.toNat_ushiftRight,value,Nat.shiftRight_eq_div_pow]
    change _ &&& (2 ^ 16 - 1) = _
    rw [Nat.and_two_pow_sub_one_eq_mod]
    omega
  · rw [getNumberOfLiteralWords,BitVec.toNat_ushiftRight,value,Nat.shiftRight_eq_div_pow]
    omega

/-- Markers whose lengths fit are read back. -/
theorem rawIterator_bufferOf {markers : List Marker} (fits : ∀ m ∈ markers, m.Fits) : rawIterator (bufferOf markers) = markers := by
  induction markers with
  | nil => rw [bufferOf,List.flatMap_nil,rawIterator]
  | cons m markers ih =>
    obtain ⟨bit,run,literal⟩ := (fits m (List.mem_cons_self ..)).fields
    have rest := ih fun m' member => fits m' (List.mem_cons_of_mem m member)
    rw [bufferOf] at rest ⊢
    rw [List.flatMap_cons,List.cons_append,rawIterator,bit,run,literal,List.take_left,List.drop_left,rest]

/-- `buffer`, with the running length word at `lastRLW` apart. -/
structure EWAHBoolArray where
  before : List Marker
  last : Marker
  sizeinbits : Nat
  deriving DecidableEq, Repr

namespace EWAHBoolArray

def empty : EWAHBoolArray := ⟨[],⟨false,0,[]⟩,0⟩

def markers (a : EWAHBoolArray) : List Marker := a.before ++ [a.last]

def words (a : EWAHBoolArray) : List Word := a.markers.flatMap Marker.words

def Fits (a : EWAHBoolArray) : Prop := ∀ m ∈ a.markers, m.Fits

/-- `buffer.push_back(0)` with what is then set in the new word and behind it. -/
def push (a : EWAHBoolArray) (m : Marker) : EWAHBoolArray := { a with before := a.before ++ [a.last], last := m }

def setLast (a : EWAHBoolArray) (m : Marker) : EWAHBoolArray := { a with last := m }

/-- The last running length word is one of clean words of the bit, with no literal ones. -/
def align (a : EWAHBoolArray) (v : Bool) : EWAHBoolArray :=
  if a.last.runningBit ≠ v ∧ a.last.size = 0 then a.setLast { a.last with runningBit := v }
  else if a.last.literals.length ≠ 0 ∨ a.last.runningBit ≠ v then a.push ⟨v,0,[]⟩
  else a

/-- New running length words for what is left of a run. -/
def addRuns (v : Bool) (number : Nat) (a : EWAHBoolArray) : EWAHBoolArray :=
  if largestrunninglengthcount ≤ number then
    addRuns v (number - largestrunninglengthcount) (a.push ⟨v,largestrunninglengthcount,[]⟩)
  else if 0 < number then a.push ⟨v,number,[]⟩
  else a
termination_by number
decreasing_by
  simp only [largestrunninglengthcount] at *
  omega

def fastaddStreamOfEmptyWords (a : EWAHBoolArray) (v : Bool) (number : Nat) : EWAHBoolArray :=
  let a := a.align v
  let runlen := a.last.runningLength
  let whatwecanadd := min number (largestrunninglengthcount - runlen)
  (a.setLast { a.last with runningLength := runlen + whatwecanadd }).addRuns v (number - whatwecanadd)

/-- The same with a size. -/
def addStreamOfEmptyWords (a : EWAHBoolArray) (v : Bool) (number : Nat) : EWAHBoolArray :=
  if number = 0 then a
  else { a.fastaddStreamOfEmptyWords v number with sizeinbits := a.sizeinbits + number * wordinbits }

def addLiteralWord (a : EWAHBoolArray) (newdata : Word) : EWAHBoolArray :=
  if largestliteralcount ≤ a.last.literals.length then a.push ⟨false,0,[newdata]⟩
  else a.setLast { a.last with literals := a.last.literals ++ [newdata] }

def addEmptyWord (a : EWAHBoolArray) (v : Bool) : EWAHBoolArray :=
  let noliteralword := a.last.literals.length = 0
  let runlen := a.last.runningLength
  let a := if noliteralword ∧ runlen = 0 then a.setLast { a.last with runningBit := v } else a
  if noliteralword ∧ a.last.runningBit = v ∧ runlen < largestrunninglengthcount then
    a.setLast { a.last with runningLength := runlen + 1 }
  else a.push ⟨v,1,[]⟩

def add (a : EWAHBoolArray) (newdata : Word) : EWAHBoolArray :=
  let a := { a with sizeinbits := a.sizeinbits + wordinbits }
  if newdata = 0 then a.addEmptyWord false
  else if newdata = ~~~0 then a.addEmptyWord true
  else a.addLiteralWord newdata

def addStreamOfDirtyWords (a : EWAHBoolArray) (v : List Word) : EWAHBoolArray :=
  if v.length = 0 then a
  else
    let whatwecanadd := min v.length (largestliteralcount - a.last.literals.length)
    let a' := { a with
      last := { a.last with literals := a.last.literals ++ v.take whatwecanadd }
      sizeinbits := a.sizeinbits + whatwecanadd * wordinbits }
    if whatwecanadd < v.length then (a'.push ⟨false,0,[]⟩).addStreamOfDirtyWords (v.drop whatwecanadd)
    else a'
termination_by (v.length,a.last.literals.length)
decreasing_by
  simp only [largestliteralcount] at *
  by_cases room : a.last.literals.length < 0x7fff
  · refine Prod.Lex.left _ _ ?_
    simp only [List.length_drop]
    omega
  · have none : min v.length (0x7fff - a.last.literals.length) = 0 := by omega
    simp only [none,List.drop_zero]
    refine Prod.Lex.right _ ?_
    simp only [push,List.length_nil]
    omega

def padWithZeroes (a : EWAHBoolArray) (totalbits : Nat) : EWAHBoolArray :=
  if totalbits ≤ a.sizeinbits then a
  else
    let missingbits := totalbits - a.sizeinbits
    let remain := a.sizeinbits % wordinbits
    -- the rest of a literal word that the size ends in
    let avail := if 0 < a.last.literals.length ∧ 0 < remain then wordinbits - remain else 0
    let missingbits := missingbits - avail
    let wordstoadd := missingbits / wordinbits + if missingbits % wordinbits ≠ 0 then 1 else 0
    { a.addStreamOfEmptyWords false wordstoadd with sizeinbits := totalbits }

/-- The smaller bitmap is padded in place. -/
def makeSameSize (this a : EWAHBoolArray) : EWAHBoolArray × EWAHBoolArray :=
  if a.sizeinbits < this.sizeinbits then (this,a.padWithZeroes this.sizeinbits)
  else if this.sizeinbits < a.sizeinbits then (this.padWithZeroes a.sizeinbits,a)
  else (this,a)

/-- The run of the shorter of two buffered running length words, over what the other one has there. -/
def orRun (prey predator : Marker) (container : EWAHBoolArray) : EWAHBoolArray :=
  let predatorrl := predator.runningLength
  let preyrl := prey.runningLength
  if prey.runningBit = false then
    if preyrl ≤ predatorrl then container.addStreamOfEmptyWords predator.runningBit preyrl
    else
      (container.addStreamOfEmptyWords predator.runningBit predatorrl).addStreamOfDirtyWords (predator.literals.take (preyrl - predatorrl))
  else container.addStreamOfEmptyWords true preyrl

/-- Literal words of the shorter one over what is left of the other's run. -/
def orLiterals (prey predator : Marker) (container : EWAHBoolArray) (tobediscarded : Nat) : EWAHBoolArray :=
  if predator.runningBit = false then container.addStreamOfDirtyWords (prey.literals.take tobediscarded)
  else container.addStreamOfEmptyWords true tobediscarded

/-- One pass of the loop of `logicalor`: the shorter one is used up. -/
def orPass (prey predator : Marker) (container : EWAHBoolArray) : Marker × EWAHBoolArray :=
  let container := orRun prey predator container
  let predator := predator.discardFirstWords prey.runningLength
  let prey := prey.discardFirstWords prey.runningLength
  let tobediscarded := min predator.runningLength prey.literals.length
  let container := orLiterals prey predator container tobediscarded
  let predator := predator.discardFirstWords tobediscarded
  let prey := prey.discardFirstWords tobediscarded
  let nbreDirtyPrey := prey.literals.length
  (predator.discardFirstWords nbreDirtyPrey,(prey.literals.zipWith (· ||| ·) predator.literals).foldl add container)

/-- The loop, with the words that the raw iterators have still to read. -/
def orLoop (rlwi : Marker) (i : List Marker) (rlwj : Marker) (j : List Marker) (container : EWAHBoolArray) : EWAHBoolArray :=
  if rlwi.size < rlwj.size then
    let (rlwj,container) := orPass rlwi rlwj container
    match i with
    | [] => container
    | next :: i => orLoop next i rlwj j container
  else
    let (rlwi,container) := orPass rlwj rlwi container
    match j with
    | [] => container
    | next :: j => orLoop rlwi i next j container
termination_by i.length + j.length

/-- `container` on return, and the two bitmaps as they are left. -/
def logicalor (this a : EWAHBoolArray) : EWAHBoolArray × EWAHBoolArray × EWAHBoolArray :=
  let (this,a) := makeSameSize this a
  let container := match a.markers,this.markers with
    | rlwi :: i,rlwj :: j => orLoop rlwi i rlwj j empty
    | _,_ => empty
  ({ container with sizeinbits := this.sizeinbits },this,a)

/-! What is appended. -/

/-- The words follow those that were there. -/
structure Emits (a a' : EWAHBoolArray) (ws : List Word) : Prop where
  words : a'.words = a.words ++ ws
  fits : a.Fits → a'.Fits

variable {a b c : EWAHBoolArray} {ws ws' : List Word}

theorem Emits.refl (a : EWAHBoolArray) : Emits a a [] := ⟨(List.append_nil _).symm,id⟩

theorem Emits.trans (first : Emits a b ws) (second : Emits b c ws') : Emits a c (ws ++ ws') :=
  ⟨by rw [second.words,first.words,List.append_assoc],second.fits ∘ first.fits⟩

theorem words_eq (a : EWAHBoolArray) : a.words = a.before.flatMap Marker.words ++ a.last.words := by
  simp [words,markers]

theorem Fits.last (fits : a.Fits) : a.last.Fits := fits _ (by simp [markers])

theorem push_emits (a : EWAHBoolArray) {m : Marker} (fits : m.Fits) : Emits a (a.push m) m.words where
  words := by simp [words,markers,push]
  fits before := by
    intro m' member
    rcases List.mem_append.mp member with old | new
    · exact before m' old
    · exact List.mem_singleton.mp new ▸ fits

theorem Fits.setLast (fits : a.Fits) {m : Marker} (fit : m.Fits) : (a.setLast m).Fits := by
  intro m' member
  rcases List.mem_append.mp member with old | new
  · exact fits m' (List.mem_append_left _ old)
  · exact List.mem_singleton.mp new ▸ fit

theorem setLast_emits (a : EWAHBoolArray) {m : Marker} (words : m.words = a.last.words ++ ws) (fits : a.last.Fits → m.Fits) :
    Emits a (a.setLast m) ws where
  words := by
    rw [words_eq,words_eq a,List.append_assoc,← words]
    rfl
  fits before := before.setLast (fits before.last)

theorem align_emits (a : EWAHBoolArray) (v : Bool) : Emits a (a.align v) [] := by
  unfold align
  split
  next empty =>
    obtain ⟨run,literals⟩ := Nat.add_eq_zero_iff.mp empty.2
    refine setLast_emits a ?_ fun fits => ⟨fits.run,fits.literal⟩
    simp [Marker.words,run]
  next =>
    split
    · exact push_emits a ⟨Nat.zero_le _,Nat.zero_le _⟩
    · exact .refl a

theorem align_last (a : EWAHBoolArray) (v : Bool) : (a.align v).last.literals = [] ∧ (a.align v).last.runningBit = v := by
  unfold align
  split
  next empty => exact ⟨List.eq_nil_of_length_eq_zero (Nat.add_eq_zero_iff.mp empty.2).2,rfl⟩
  next =>
    split
    next => exact ⟨rfl,rfl⟩
    next aligned =>
      rw [not_or,not_not,not_not] at aligned
      exact ⟨List.eq_nil_of_length_eq_zero aligned.1,aligned.2⟩

theorem addRuns_emits (v : Bool) (number : Nat) (a : EWAHBoolArray) : Emits a (addRuns v number a) (List.replicate number (clean v)) := by
  induction number, a using addRuns.induct with
  | v => exact v
  | case1 number a more ih =>
    rw [addRuns,if_pos more]
    have first := push_emits a (m := ⟨v,largestrunninglengthcount,[]⟩) ⟨Nat.le_refl _,Nat.zero_le _⟩
    have both := first.trans ih
    rwa [Marker.words,List.append_nil,← List.replicate_add,Nat.add_sub_cancel' more] at both
  | case2 number a few some =>
    rw [addRuns,if_neg few,if_pos some]
    have last := push_emits a (m := ⟨v,number,[]⟩) ⟨Nat.le_of_not_le few,Nat.zero_le _⟩
    rwa [Marker.words,List.append_nil] at last
  | case3 number a few none =>
    obtain rfl : number = 0 := by omega
    rw [addRuns,if_neg few,if_neg none]
    exact .refl a

theorem fastadd_emits (a : EWAHBoolArray) (v : Bool) (number : Nat) :
    Emits a (a.fastaddStreamOfEmptyWords v number) (List.replicate number (clean v)) := by
  obtain ⟨literals,bit⟩ := align_last a v
  unfold fastaddStreamOfEmptyWords
  dsimp only
  generalize added : min number (largestrunninglengthcount - (a.align v).last.runningLength) = whatwecanadd
  have longer : Emits (a.align v) ((a.align v).setLast { (a.align v).last with runningLength := (a.align v).last.runningLength + whatwecanadd })
      (List.replicate whatwecanadd (clean v)) := by
    refine setLast_emits _ ?_ fun fits => ⟨?_,fits.literal⟩
    · simp only [Marker.words,literals,bit,List.append_nil]
      exact List.replicate_add ..
    · have run := fits.run
      simp only
      omega
  have whole := ((align_emits a v).trans longer).trans (addRuns_emits v (number - whatwecanadd) _)
  rwa [List.nil_append,← List.replicate_add,Nat.add_sub_cancel' (by omega)] at whole

theorem addStreamOfEmptyWords_emits (a : EWAHBoolArray) (v : Bool) (number : Nat) :
    Emits a (a.addStreamOfEmptyWords v number) (List.replicate number (clean v)) := by
  unfold addStreamOfEmptyWords
  split
  next none =>
    subst none
    exact .refl a
  next =>
    obtain ⟨words,fits⟩ := fastadd_emits a v number
    exact ⟨words,fits⟩

theorem addLiteralWord_emits (a : EWAHBoolArray) (newdata : Word) : Emits a (a.addLiteralWord newdata) [newdata] := by
  unfold addLiteralWord
  split
  next => exact push_emits a (m := ⟨false,0,[newdata]⟩) ⟨Nat.zero_le _,Nat.le_add_left 1 0x7ffe⟩
  next room =>
    refine setLast_emits a (by simp [Marker.words]) fun fits => ⟨fits.run,?_⟩
    rw [List.length_append,List.length_singleton]
    omega

theorem addEmptyWord_emits (a : EWAHBoolArray) (v : Bool) : Emits a (a.addEmptyWord v) [clean v] := by
  unfold addEmptyWord
  dsimp only
  generalize turned : (if a.last.literals.length = 0 ∧ a.last.runningLength = 0 then a.setLast { a.last with runningBit := v } else a) = a'
  have same : Emits a a' [] ∧ a'.last.literals = a.last.literals ∧ a'.last.runningLength = a.last.runningLength := by
    rw [← turned]
    split
    next empty =>
      refine ⟨setLast_emits a ?_ fun fits => ⟨fits.run,fits.literal⟩,rfl,rfl⟩
      simp [Marker.words,empty.2]
    next => exact ⟨.refl a,rfl,rfl⟩
  obtain ⟨emits,literals,run⟩ := same
  split
  next room =>
    refine emits.trans (setLast_emits a' ?_ fun fits => ⟨room.2.2,fits.literal⟩)
    have none : a'.last.literals = [] := literals.trans (List.eq_nil_of_length_eq_zero room.1)
    simp [Marker.words,none,run,room.2.1,List.replicate_succ']
  next => exact emits.trans (push_emits a' (m := ⟨v,1,[]⟩) ⟨Nat.le_add_left 1 0xfffe,Nat.zero_le _⟩)

theorem add_emits (a : EWAHBoolArray) (newdata : Word) : Emits a (a.add newdata) [newdata] := by
  have of {b : EWAHBoolArray} (emits : Emits { a with sizeinbits := a.sizeinbits + wordinbits } b [newdata]) : Emits a b [newdata] :=
    ⟨emits.words,emits.fits⟩
  unfold add
  dsimp only
  split
  next zeroes =>
    subst zeroes
    exact of (addEmptyWord_emits _ false)
  next =>
    split
    next ones =>
      subst ones
      exact of (addEmptyWord_emits _ true)
    next => exact of (addLiteralWord_emits _ newdata)

theorem addAll_emits (a : EWAHBoolArray) (ws : List Word) : Emits a (ws.foldl add a) ws := by
  induction ws generalizing a with
  | nil => exact .refl a
  | cons w ws ih => exact (add_emits a w).trans (ih _)

theorem literals_emits (a : EWAHBoolArray) {n : Nat} (room : n ≤ largestliteralcount - a.last.literals.length) (v : List Word) (size : Nat) :
    Emits a { a with last := { a.last with literals := a.last.literals ++ v.take n }, sizeinbits := size } (v.take n) := by
  have emits : Emits a (a.setLast { a.last with literals := a.last.literals ++ v.take n }) (v.take n) := by
    refine setLast_emits a (by simp [Marker.words]) fun fits => ⟨fits.run,?_⟩
    have few := fits.literal
    simp only [List.length_append,List.length_take]
    omega
  exact ⟨emits.words,emits.fits⟩

theorem addStreamOfDirtyWords_emits (a : EWAHBoolArray) (v : List Word) : Emits a (a.addStreamOfDirtyWords v) v := by
  induction a, v using addStreamOfDirtyWords.induct with
  | case1 a v none =>
    rw [addStreamOfDirtyWords,if_pos none,List.eq_nil_of_length_eq_zero none]
    exact .refl a
  | case2 a v some can a' more ih =>
    rw [addStreamOfDirtyWords,if_neg some]
    dsimp only
    rw [if_pos more]
    have first := literals_emits a (Nat.min_le_right v.length _) v (a.sizeinbits + can * wordinbits)
    have whole := (first.trans (push_emits a' (m := ⟨false,0,[]⟩) ⟨Nat.zero_le _,Nat.zero_le _⟩)).trans ih
    rwa [Marker.words,List.append_nil,List.replicate_zero,List.append_nil,List.take_append_drop] at whole
  | case3 a v some can all =>
    rw [addStreamOfDirtyWords,if_neg some]
    dsimp only
    rw [if_neg all]
    obtain ⟨words,fits⟩ := literals_emits a (Nat.min_le_right v.length _) v (a.sizeinbits + can * wordinbits)
    exact ⟨words.trans (by rw [List.take_of_length_le (Nat.le_of_not_lt all)]),fits⟩

end EWAHBoolArray
end Libdft.Ewah
