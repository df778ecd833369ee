import Libdft.EwahUnion
import Mathlib.Data.List.GetD

/-! The bits of a bitmap. They are set in increasing order only: a bit before the size of the bitmap is
left as it is, and the others extend the bitmap. -/
namespace Libdft.Ewah

namespace EWAHBoolArray

/-- `lastRunningLengthWord.setRunningLength(lastRunningLengthWord.getRunningLength() - 1)`, in 16 bits -/
def shorten (a : EWAHBoolArray) : EWAHBoolArray :=
  a.setLast { a.last with runningLength := (a.last.runningLength + largestrunninglengthcount) % (largestrunninglengthcount + 1) }

/-- `dist`, in the arithmetic of `size_t` -/
def distance (i sizeinbits : BitVec 64) : Nat := ((i + 32) / 32 - (sizeinbits + 32 - 1) / 32).toNat

def set (a : EWAHBoolArray) (i : BitVec 64) : EWAHBoolArray × Bool :=
  if i.toNat < a.sizeinbits then (a,false)
  else
    let dist := distance i (BitVec.ofNat 64 a.sizeinbits)
    let a := { a with sizeinbits := (i + 1).toNat }
    let one := (1 : Word) <<< (i.toNat % wordinbits)
    if 0 < dist then
      let a := if 1 < dist then a.fastaddStreamOfEmptyWords false (dist - 1) else a
      (a.addLiteralWord one,true)
    else if a.last.literals.length = 0 then (a.shorten.addLiteralWord one,true)
    else
      let dirty := a.last.literals.getLastD 0 ||| one
      -- a literal word that becomes a clean one
      if dirty = ~~~0 then ((a.setLast { a.last with literals := a.last.literals.dropLast }).addEmptyWord true,true)
      else (a.setLast { a.last with literals := a.last.literals.dropLast ++ [dirty] },true)

/-- The arguments are of type `int`. -/
def bitmapOf (positions : List (BitVec 32)) : EWAHBoolArray := positions.foldl (fun ans i => (ans.set (i.signExtend 64)).1) empty

/-- The loop of `get`, over the running length words that are left. -/
def getFrom (pos wordChecked : Nat) : List Marker → Bool
  | [] => false
  | rle :: j =>
    let wordpos := pos / wordinbits
    let wordChecked := wordChecked + rle.runningLength
    if wordpos < wordChecked then rle.runningBit
    else if wordpos < wordChecked + rle.literals.length then
      rle.literals.getD (wordpos - wordChecked) 0 &&& (1 : Word) <<< (pos % wordinbits) ≠ 0
    else getFrom pos (wordChecked + rle.literals.length) j

def get (a : EWAHBoolArray) (pos : Nat) : Bool := if a.sizeinbits ≤ pos then false else getFrom pos 0 a.markers

/-- The bit that a word of the bitmap stands for. -/
def bit (a : EWAHBoolArray) (i : Nat) : Bool := (a.words.getD (i / wordinbits) 0).getLsbD (i % wordinbits)

/-- The words go as far as the size does, and nothing is set after it. -/
structure Ok (a : EWAHBoolArray) : Prop where
  fits : a.Fits
  covers : a.sizeinbits ≤ a.words.length * wordinbits
  clear : ∀ i, a.sizeinbits ≤ i → a.bit i = false

/-- No word is past the size, and the last running length word has some of them. -/
structure Exact (a : EWAHBoolArray) : Prop extends Ok a where
  whole : a.words.length = (a.sizeinbits + wordinbits - 1) / wordinbits
  filled : 0 < a.sizeinbits → 0 < a.last.size

variable {a b c : EWAHBoolArray} {i : Nat}

theorem bit_beyond (beyond : a.words.length * wordinbits ≤ i) : a.bit i = false := by
  have outside : a.words.length ≤ i / wordinbits := (Nat.le_div_iff_mul_le (by decide)).mpr beyond
  rw [bit,List.getD_eq_default _ _ outside]
  exact BitVec.getLsbD_zero

theorem bit_zeros {k : Nat} (words : b.words = a.words ++ List.replicate k (clean false)) (i : Nat) : b.bit i = a.bit i := by
  by_cases inside : i / wordinbits < a.words.length
  · rw [bit,bit,words,List.getD_append _ _ _ _ inside]
  · have zero : (List.replicate k (clean false)).getD (i / wordinbits - a.words.length) 0 = 0 := by
      by_cases more : i / wordinbits - a.words.length < k
      · simp [List.getD_eq_getElem?_getD,more,clean]
      · exact List.getD_eq_default _ _ (by rw [List.length_replicate]; omega)
    rw [bit,bit,words,List.getD_append_right _ _ _ _ (Nat.le_of_not_lt inside),zero,List.getD_eq_default _ _ (Nat.le_of_not_lt inside)]

theorem empty_ok : empty.Ok := ⟨empty_fits,Nat.zero_le _,fun _ _ => bit_beyond (Nat.zero_le _)⟩

theorem empty_exact : empty.Exact := ⟨empty_ok,rfl,fun some => absurd some (Nat.lt_irrefl 0)⟩

theorem getLsbD_one_shift {j k : Nat} (small : j < wordinbits) : ((1 : Word) <<< k).getLsbD j = decide (j = k) := by
  have one : ((1 : Word) <<< k).getLsbD j = (decide (j < 32) && !decide (j < k) && decide (j - k = 0)) := by
    simp [BitVec.getLsbD_shiftLeft,BitVec.getLsbD_one]
  have below : decide (j < 32) = true := decide_eq_true small
  rw [one,below,Bool.true_and]
  rcases Nat.lt_trichotomy j k with less | rfl | more
  · simp [less,Nat.ne_of_lt less]
  · simp
  · simp [Nat.not_lt_of_lt more,Nat.ne_of_gt more]
    omega

/-! What `get` reads. -/

theorem clean_getLsbD (v : Bool) {j : Nat} (small : j < wordinbits) : (clean v).getLsbD j = v := by
  cases v with
  | false => exact BitVec.getLsbD_zero
  | true => exact BitVec.getLsbD_allOnes.trans (decide_eq_true small)

theorem clean_or (w : Word) : clean false ||| w = w := BitVec.zero_or

theorem and_one_shift_ne_zero (w : Word) {k : Nat} (small : k < wordinbits) : decide (w &&& (1 : Word) <<< k ≠ 0) = w.getLsbD k := by
  have here : (w &&& (1 : Word) <<< k).getLsbD k = w.getLsbD k := by
    rw [BitVec.getLsbD_and,getLsbD_one_shift small,decide_eq_true rfl,Bool.and_true]
  cases on : w.getLsbD k with
  | true =>
    refine decide_eq_true fun zero => ?_
    rw [zero,on] at here
    exact absurd (BitVec.getLsbD_zero.symm.trans here) Bool.false_ne_true
  | false =>
    refine decide_eq_false (not_not.mpr (BitVec.eq_of_getLsbD_eq fun j below => ?_))
    rw [BitVec.getLsbD_and,getLsbD_one_shift below]
    by_cases same : j = k
    · rw [same,on,Bool.false_and]
      exact BitVec.getLsbD_zero.symm
    · rw [decide_eq_false same,Bool.and_false]
      exact BitVec.getLsbD_zero.symm

theorem getFrom_eq {pos : Nat} (markers : List Marker) {wordChecked : Nat} (checked : wordChecked ≤ pos / wordinbits) :
    getFrom pos wordChecked markers = ((markers.flatMap Marker.words).getD (pos / wordinbits - wordChecked) 0).getLsbD (pos % wordinbits) := by
  have small : pos % wordinbits < wordinbits := Nat.mod_lt pos (by decide)
  induction markers generalizing wordChecked with
  | nil => exact BitVec.getLsbD_zero.symm
  | cons rle j ih =>
    have length : (List.replicate rle.runningLength (clean rle.runningBit)).length = rle.runningLength := List.length_replicate
    rw [getFrom,List.flatMap_cons,Marker.words,List.append_assoc]
    split
    next run =>
      rw [List.getD_append _ _ _ _ (by omega),List.getD_replicate _ (by omega),clean_getLsbD _ small]
    next after =>
      rw [List.getD_append_right _ _ _ _ (by omega),length,Nat.sub_sub]
      split
      next literal => rw [List.getD_append _ _ _ _ (by omega),and_one_shift_ne_zero _ small]
      next past => rw [List.getD_append_right _ _ _ _ (by omega),Nat.sub_sub,ih (by omega)]

theorem get_eq_bit (ok : a.Ok) (pos : Nat) : a.get pos = a.bit pos := by
  unfold get
  split
  next past => exact (ok.clear pos past).symm
  next => exact getFrom_eq a.markers (Nat.zero_le _)

/-! What `set` leaves. -/

theorem addRuns_sizeinbits (v : Bool) (number : Nat) (a : EWAHBoolArray) : (addRuns v number a).sizeinbits = a.sizeinbits := by
  induction number, a using addRuns.induct with
  | v => exact v
  | case1 number a more ih => rw [addRuns,if_pos more,ih,push]
  | case2 number a few some => rw [addRuns,if_neg few,if_pos some,push]
  | case3 number a few none => rw [addRuns,if_neg few,if_neg none]

theorem fastadd_sizeinbits (a : EWAHBoolArray) (v : Bool) (number : Nat) : (a.fastaddStreamOfEmptyWords v number).sizeinbits = a.sizeinbits := by
  have aligned : (a.align v).sizeinbits = a.sizeinbits := by
    unfold align
    split
    · rfl
    · split <;> rfl
  rw [fastaddStreamOfEmptyWords,addRuns_sizeinbits,setLast,aligned]

theorem addLiteralWord_sizeinbits (a : EWAHBoolArray) (newdata : Word) : (a.addLiteralWord newdata).sizeinbits = a.sizeinbits := by
  unfold addLiteralWord
  split <;> rfl

theorem addLiteralWord_filled (a : EWAHBoolArray) (newdata : Word) : 0 < (a.addLiteralWord newdata).last.size := by
  unfold addLiteralWord
  split
  next => exact Nat.succ_pos 0
  next =>
    change 0 < a.last.runningLength + (a.last.literals ++ [newdata]).length
    rw [List.length_append,List.length_singleton]
    omega

theorem addEmptyWord_sizeinbits (a : EWAHBoolArray) (v : Bool) : (a.addEmptyWord v).sizeinbits = a.sizeinbits := by
  unfold addEmptyWord
  dsimp only
  split <;> split <;> rfl

theorem addEmptyWord_filled (a : EWAHBoolArray) (v : Bool) : 0 < (a.addEmptyWord v).last.size := by
  unfold addEmptyWord
  dsimp only
  generalize (if a.last.literals.length = 0 ∧ a.last.runningLength = 0 then a.setLast { a.last with runningBit := v } else a) = a'
  split
  next =>
    change 0 < a.last.runningLength + 1 + a'.last.literals.length
    omega
  next => exact Nat.succ_pos 0

/-- The bit is set, and is the last one. -/
structure SetAt (i : Nat) (a b : EWAHBoolArray) : Prop where
  size : b.sizeinbits = i + 1
  long : b.words.length = i / wordinbits + 1
  fits : b.Fits
  filled : 0 < b.last.size
  bits : ∀ j, b.bit j = (a.bit j || decide (j = i))

/-- A bit of the last word. -/
theorem bit_last {ws : List Word} {w : Word} (long : ws.length = i / wordinbits) (old : a.words = ws ++ [w])
    (new : b.words = ws ++ [w ||| (1 : Word) <<< (i % wordinbits)]) (j : Nat) : b.bit j = (a.bit j || decide (j = i)) := by
  have whole := Nat.div_add_mod i wordinbits
  have whole' := Nat.div_add_mod j wordinbits
  have inside : j % wordinbits < wordinbits := Nat.mod_lt j (by decide)
  rw [bit,bit,old,new]
  rcases Nat.lt_trichotomy (j / wordinbits) (i / wordinbits) with less | same | more
  · have other : j ≠ i := by rintro rfl; omega
    rw [List.getD_append _ _ _ _ (long ▸ less),List.getD_append _ _ _ _ (long ▸ less),decide_eq_false other,Bool.or_false]
  · have here : j / wordinbits - ws.length = 0 := by omega
    have place : j % wordinbits = i % wordinbits ↔ j = i := by
      constructor
      · intro low
        rw [← whole,← whole',same,low]
      · rintro rfl
        rfl
    rw [List.getD_append_right _ _ _ _ (by omega),List.getD_append_right _ _ _ _ (by omega),here,List.getD_cons_zero,List.getD_cons_zero,
      BitVec.getLsbD_or,getLsbD_one_shift inside,decide_eq_decide.mpr place]
  · have other : j ≠ i := by rintro rfl; omega
    have short (x : Word) : (ws ++ [x]).length ≤ j / wordinbits := by
      rw [List.length_append,List.length_singleton]
      omega
    rw [List.getD_eq_default _ _ (short _),List.getD_eq_default _ _ (short _),decide_eq_false other,Bool.or_false]

theorem SetAt.of_last {ws : List Word} {w : Word} (long : ws.length = i / wordinbits) (old : c.words = ws ++ [w]) (same : ∀ j, c.bit j = a.bit j)
    (new : b.words = ws ++ [w ||| (1 : Word) <<< (i % wordinbits)]) (size : b.sizeinbits = i + 1) (fits : b.Fits) (filled : 0 < b.last.size) :
    SetAt i a b where
  size := size
  long := by rw [new,List.length_append,List.length_singleton,long]
  fits := fits
  filled := filled
  bits j := by rw [bit_last long old new,same]

theorem SetAt.exact (at_i : SetAt i a b) (exact : a.Exact) (ahead : a.sizeinbits ≤ i) : b.Exact where
  fits := at_i.fits
  covers := by
    have less := Nat.mod_lt i (by decide : 0 < wordinbits)
    have whole := Nat.div_add_mod i wordinbits
    rw [at_i.size,at_i.long,Nat.add_mul,Nat.mul_comm]
    omega
  clear j past := by
    rw [at_i.size] at past
    rw [at_i.bits,exact.clear j (by omega),decide_eq_false (by omega),Bool.or_false]
  whole := by
    rw [at_i.size,at_i.long]
    simp only [wordinbits]
    omega
  filled _ := at_i.filled

/-- After the words that are there. -/
theorem set_far (exact : a.Exact) {k : Nat} (far : a.words.length + k = i / wordinbits) :
    SetAt i a ((if 1 < k + 1 then { a with sizeinbits := i + 1 }.fastaddStreamOfEmptyWords false k else { a with sizeinbits := i + 1 }).addLiteralWord
      ((1 : Word) <<< (i % wordinbits))) := by
  generalize grown : (if 1 < k + 1 then { a with sizeinbits := i + 1 }.fastaddStreamOfEmptyWords false k else { a with sizeinbits := i + 1 }) = a'
  have zeros : Emits { a with sizeinbits := i + 1 } a' (List.replicate k (clean false)) ∧ a'.sizeinbits = i + 1 := by
    rw [← grown]
    split
    next => exact ⟨fastadd_emits _ false k,fastadd_sizeinbits _ false k⟩
    next none =>
      obtain rfl : k = 0 := by omega
      exact ⟨.refl _,rfl⟩
  obtain ⟨zeros,size⟩ := zeros
  have longer : (a'.addEmptyWord false).words = a.words ++ List.replicate (k + 1) (clean false) := by
    rw [List.replicate_succ',← List.append_assoc]
    exact (zeros.trans (addEmptyWord_emits a' false)).words.trans (List.append_assoc ..).symm
  have literal := addLiteralWord_emits a' ((1 : Word) <<< (i % wordinbits))
  refine .of_last ?_ (addEmptyWord_emits a' false).words (bit_zeros longer) ?_ ?_ ?_ (addLiteralWord_filled ..)
  · rw [zeros.words,List.length_append,List.length_replicate]
    exact far
  · rw [literal.words,clean_or]
  · rw [addLiteralWord_sizeinbits,size]
  · exact literal.fits (zeros.fits exact.fits)

theorem shorten_eq (fits : a.Fits) (some : 0 < a.last.runningLength) :
    a.shorten = a.setLast { a.last with runningLength := a.last.runningLength - 1 } := by
  have run := fits.last.run
  simp only [largestrunninglengthcount] at run
  have less : (a.last.runningLength + largestrunninglengthcount) % (largestrunninglengthcount + 1) = a.last.runningLength - 1 := by
    simp only [largestrunninglengthcount]
    omega
  rw [shorten,less]

/-- In the last clean word, which is one of zeros. -/
theorem set_run (exact : a.Exact) (ahead : a.sizeinbits ≤ i) (near : a.words.length = i / wordinbits + 1) (none : a.last.literals.length = 0) :
    SetAt i a ({ a with sizeinbits := i + 1 }.shorten.addLiteralWord ((1 : Word) <<< (i % wordinbits))) := by
  have literals : a.last.literals = [] := List.eq_nil_of_length_eq_zero none
  have started : 0 < a.sizeinbits := by
    refine Nat.pos_of_ne_zero fun zero => ?_
    have whole := exact.whole
    rw [zero,near] at whole
    simp only [wordinbits] at whole
    omega
  obtain ⟨run,more⟩ : ∃ run, a.last.runningLength = run + 1 := Nat.exists_eq_succ_of_ne_zero fun zero => by
    have filled := exact.filled started
    rw [Marker.size,zero,none] at filled
    exact Nat.lt_irrefl 0 filled
  have old : a.words = (a.before.flatMap Marker.words ++ List.replicate run (clean a.last.runningBit)) ++ [clean a.last.runningBit] := by
    rw [words_eq,Marker.words,literals,List.append_nil,more,List.replicate_succ',List.append_assoc]
  have long : (a.before.flatMap Marker.words ++ List.replicate run (clean a.last.runningBit)).length = i / wordinbits := by
    rw [old,List.length_append,List.length_singleton] at near
    exact Nat.succ.inj near
  have zero : a.last.runningBit = false := by
    have off := exact.clear i ahead
    rwa [bit,old,List.getD_append_right _ _ _ _ (Nat.le_of_eq long),long,Nat.sub_self,List.getD_cons_zero,
      clean_getLsbD _ (Nat.mod_lt i (by decide))] at off
  have shorter := shorten_eq (a := { a with sizeinbits := i + 1 }) exact.fits (Nat.lt_of_lt_of_eq (Nat.succ_pos run) more.symm)
  have left : { a with sizeinbits := i + 1 }.shorten.words = a.before.flatMap Marker.words ++ List.replicate run (clean a.last.runningBit) := by
    rw [shorter,words_eq]
    simp [setLast,Marker.words,literals,more]
  have literal := addLiteralWord_emits { a with sizeinbits := i + 1 }.shorten ((1 : Word) <<< (i % wordinbits))
  refine .of_last long old (fun _ => rfl) ?_ ?_ (literal.fits ?_) (addLiteralWord_filled ..)
  · rw [literal.words,left,zero,clean_or]
  · rw [addLiteralWord_sizeinbits]
    rfl
  · have fits := exact.fits.last
    rw [shorter]
    exact Fits.setLast exact.fits ⟨Nat.le_trans (Nat.sub_le ..) fits.run,fits.literal⟩

/-- In the last literal word, which may become a clean one. -/
theorem set_literal (exact : a.Exact) (near : a.words.length = i / wordinbits + 1) (some : a.last.literals.length ≠ 0) :
    SetAt i a
      (if a.last.literals.getLastD 0 ||| (1 : Word) <<< (i % wordinbits) = ~~~0 then
        ({ a with sizeinbits := i + 1 }.setLast { a.last with literals := a.last.literals.dropLast }).addEmptyWord true
      else { a with sizeinbits := i + 1 }.setLast
        { a.last with literals := a.last.literals.dropLast ++ [a.last.literals.getLastD 0 ||| (1 : Word) <<< (i % wordinbits)] }) := by
  obtain ⟨literals,w,split_last⟩ := List.eq_nil_or_concat' a.last.literals |>.resolve_left fun none => some (by rw [none]; rfl)
  have dropped : a.last.literals.dropLast = literals := by rw [split_last,List.dropLast_concat]
  have last : a.last.literals.getLastD 0 = w := by rw [split_last,List.getLastD_concat]
  rw [dropped,last]
  generalize marker : a.last.runningLength = run
  have old : a.words = (a.before.flatMap Marker.words ++ (List.replicate run (clean a.last.runningBit) ++ literals)) ++ [w] := by
    rw [words_eq,Marker.words,split_last,marker,List.append_assoc,List.append_assoc]
  have long : (a.before.flatMap Marker.words ++ (List.replicate run (clean a.last.runningBit) ++ literals)).length = i / wordinbits := by
    rw [old,List.length_append,List.length_singleton] at near
    exact Nat.succ.inj near
  have fits := exact.fits.last
  have few := fits.literal
  rw [split_last,List.length_append,List.length_singleton] at few
  split
  next ones =>
    have clean_word := addEmptyWord_emits ({ a with sizeinbits := i + 1 }.setLast { a.last with literals := literals }) true
    refine .of_last long old (fun _ => rfl) ?_ ?_ (clean_word.fits (Fits.setLast exact.fits ⟨fits.run,Nat.le_of_succ_le few⟩)) (addEmptyWord_filled ..)
    · rw [clean_word.words,words_eq,ones]
      simp [setLast,Marker.words,clean,marker]
    · rw [addEmptyWord_sizeinbits]
      rfl
  next =>
    refine .of_last long old (fun _ => rfl) ?_ rfl (Fits.setLast exact.fits ⟨fits.run,?_⟩) ?_
    · rw [words_eq]
      simp [setLast,Marker.words,marker]
    · rw [List.length_append,List.length_singleton]
      exact few
    · change 0 < a.last.runningLength + (literals ++ [_]).length
      rw [List.length_append,List.length_singleton]
      omega

/-- Positions whose words can be counted. -/
abbrev InRange (i : BitVec 64) : Prop := i.toNat + 32 < 2 ^ 64

theorem distance_eq {i : BitVec 64} (small : InRange i) (ahead : size ≤ i.toNat) :
    distance i (BitVec.ofNat 64 size) = (i.toNat + wordinbits) / wordinbits - (size + wordinbits - 1) / wordinbits := by
  have word : (32 : BitVec 64).toNat = 32 := rfl
  have one : (1 : BitVec 64).toNat = 1 := rfl
  have up : ((i + 32) / 32).toNat = (i.toNat + 32) / 32 := by
    rw [BitVec.toNat_udiv,BitVec.toNat_add,word]
    omega
  have down : ((BitVec.ofNat 64 size + 32 - 1) / 32).toNat = (size + 31) / 32 := by
    rw [BitVec.toNat_udiv,BitVec.toNat_sub,BitVec.toNat_add,BitVec.toNat_ofNat,word,one]
    omega
  rw [distance,BitVec.toNat_sub,up,down]
  simp only [wordinbits]
  omega

theorem set_spec {i : BitVec 64} (exact : a.Exact) (small : InRange i) (ahead : a.sizeinbits ≤ i.toNat) :
    (a.set i).2 = true ∧ SetAt i.toNat a (a.set i).1 := by
  have whole := exact.whole
  have next : (i + 1).toNat = i.toNat + 1 := by
    rw [BitVec.toNat_add]
    exact Nat.mod_eq_of_lt (Nat.lt_of_le_of_lt (Nat.add_le_add_left (by decide) i.toNat) small)
  unfold set
  rw [if_neg (Nat.not_lt_of_le ahead),next,distance_eq small ahead]
  dsimp only
  generalize i.toNat = i at ahead ⊢
  split
  next far =>
    refine ⟨rfl,?_⟩
    generalize dist : (i + wordinbits) / wordinbits - (a.sizeinbits + wordinbits - 1) / wordinbits = k at far ⊢
    obtain ⟨k,rfl⟩ := Nat.exists_eq_succ_of_ne_zero (Nat.ne_of_gt far)
    refine set_far exact (k := k) ?_
    rw [whole]
    simp only [wordinbits] at dist ⊢
    omega
  next near =>
    have last : a.words.length = i / wordinbits + 1 := by
      rw [whole]
      simp only [wordinbits] at near ⊢
      omega
    split
    next none => exact ⟨rfl,set_run exact ahead last none⟩
    next some =>
      have there := set_literal exact last some
      split
      next ones =>
        rw [if_pos ones] at there
        exact ⟨rfl,there⟩
      next other =>
        rw [if_neg other] at there
        exact ⟨rfl,there⟩

/-! One bit after the other. -/

/-- Whatever is before it is smaller. -/
def Rises (positions : List Nat) (i : Nat) : Prop := ∃ before after, positions = before ++ i :: after ∧ ∀ j ∈ before, j < i

theorem rises_cons (p : Nat) (positions : List Nat) : Rises (p :: positions) i ↔ p = i ∨ p < i ∧ Rises positions i := by
  constructor
  · rintro ⟨before,after,same,smaller⟩
    cases before with
    | nil => exact .inl (List.cons.inj same).1
    | cons q before =>
      obtain ⟨rfl,rest⟩ := List.cons.inj same
      exact .inr ⟨smaller p (List.mem_cons_self ..),before,after,rest,fun j member => smaller j (List.mem_cons_of_mem p member)⟩
  · rintro (rfl | ⟨less,before,after,rfl,smaller⟩)
    · exact ⟨[],positions,rfl,by simp⟩
    · exact ⟨p :: before,after,rfl,List.forall_mem_cons.mpr ⟨less,smaller⟩⟩

section Sets
variable {p : BitVec 64}

theorem set_behind (behind : p.toNat < a.sizeinbits) : a.set p = (a,false) := by rw [set,if_pos behind]

theorem set_exact (exact : a.Exact) (small : InRange p) : (a.set p).1.Exact := by
  by_cases behind : p.toNat < a.sizeinbits
  · rwa [set_behind behind]
  · have ahead := Nat.le_of_not_lt behind
    exact (set_spec exact small ahead).2.exact exact ahead

theorem sets_spec {positions : List (BitVec 64)} (exact : a.Exact) (small : ∀ p ∈ positions, InRange p) :
    (positions.foldl (fun ans i => (ans.set i).1) a).Exact ∧
    ∀ i, (positions.foldl (fun ans i => (ans.set i).1) a).bit i = true ↔
      a.bit i = true ∨ a.sizeinbits ≤ i ∧ Rises (positions.map BitVec.toNat) i := by
  induction positions generalizing a with
  | nil =>
    refine ⟨exact,fun i => (or_iff_left ?_).symm⟩
    rintro ⟨_,before,after,none,_⟩
    exact List.append_ne_nil_of_right_ne_nil before (List.cons_ne_nil i after) none.symm
  | cons p positions ih =>
    obtain ⟨inside,small⟩ := List.forall_mem_cons.mp small
    obtain ⟨done,bits⟩ := ih (set_exact exact inside) small
    refine ⟨done,fun i => (bits i).trans ?_⟩
    rw [List.map_cons,rises_cons]
    by_cases behind : p.toNat < a.sizeinbits
    · rw [set_behind behind]
      refine or_congr_right (and_congr_right fun past => ?_)
      have less : p.toNat < i := Nat.lt_of_lt_of_le behind past
      simp only [less,Nat.ne_of_lt less,false_or,true_and]
    · have ahead := Nat.le_of_not_lt behind
      have there := (set_spec exact inside ahead).2
      rw [there.bits,there.size,Bool.or_eq_true,decide_eq_true_eq]
      constructor
      · rintro ((old | rfl) | ⟨past,rises⟩)
        · exact .inl old
        · exact .inr ⟨ahead,.inl rfl⟩
        · exact .inr ⟨by omega,.inr ⟨past,rises⟩⟩
      · rintro (old | ⟨past,rfl | ⟨less,rises⟩⟩)
        · exact .inl (.inl old)
        · exact .inl (.inr rfl)
        · exact .inr ⟨less,rises⟩

/-- To set a bit says whether this changes it. -/
theorem set_answers (exact : a.Exact) (small : InRange p) : (a.set p).2 = true ↔ (a.set p).1.get p.toNat ≠ a.get p.toNat := by
  by_cases behind : p.toNat < a.sizeinbits
  · rw [set_behind behind]
    exact iff_of_false Bool.false_ne_true fun changed => changed rfl
  · have ahead := Nat.le_of_not_lt behind
    obtain ⟨answer,there⟩ := set_spec exact small ahead
    refine iff_of_true answer ?_
    rw [get_eq_bit (there.exact exact ahead).toOk,get_eq_bit exact.toOk,there.bits,exact.clear _ ahead,decide_eq_true rfl]
    exact Bool.noConfusion

end Sets

/-- An `int` that is not negative is the same position. -/
theorem signExtend_position {p : BitVec 32} (nonneg : 0 ≤ p.toInt) : (p.signExtend 64).toNat = p.toNat ∧ InRange (p.signExtend 64) := by
  have positive : p.msb = false := by
    rw [BitVec.msb_eq_toInt]
    exact decide_eq_false (Int.not_lt.mpr nonneg)
  have same : (p.signExtend 64).toNat = p.toNat := by
    rw [BitVec.signExtend_eq_setWidth_of_msb_false positive]
    exact BitVec.toNat_setWidth_of_le (by decide)
  have bound := p.isLt
  exact ⟨same,by rw [InRange,same]; omega⟩

/-- A bit can be got exactly if it was set after smaller ones only, and to set another one says
whether this changes it. -/
theorem got_as_set {positions : List (BitVec 32)} (nonneg : ∀ p ∈ positions, 0 ≤ p.toInt) :
    (∀ i, (bitmapOf positions).get i = true ↔ Rises (positions.map BitVec.toNat) i) ∧
    ∀ i, InRange i → (((bitmapOf positions).set i).2 = true ↔
      ((bitmapOf positions).set i).1.get i.toNat ≠ (bitmapOf positions).get i.toNat) := by
  have mapped : bitmapOf positions = (positions.map (BitVec.signExtend 64)).foldl (fun ans i => (ans.set i).1) empty := by
    rw [bitmapOf,List.foldl_map]
  have small : ∀ p ∈ positions.map (BitVec.signExtend 64), InRange p :=
    List.forall_mem_map.mpr fun p member => (signExtend_position (nonneg p member)).2
  have same : (positions.map (BitVec.signExtend 64)).map BitVec.toNat = positions.map BitVec.toNat := by
    rw [List.map_map]
    exact List.map_congr_left fun p member => (signExtend_position (nonneg p member)).1
  obtain ⟨exact,bits⟩ := sets_spec empty_exact small
  rw [← mapped] at exact bits
  refine ⟨fun i => ?_,fun i inside => set_answers exact inside⟩
  have off : empty.bit i = false := bit_beyond (Nat.zero_le i)
  rw [get_eq_bit exact.toOk,bits,off,same]
  exact ⟨fun set => (set.resolve_left Bool.false_ne_true).2,fun rises => .inr ⟨Nat.zero_le i,rises⟩⟩

/-- The third position comes after a larger one. -/
theorem got_as_set_mixed : (bitmapOf [3,33,20]).get 33 = true ∧ (bitmapOf [3,33,20]).get 20 = false ∧
    ((bitmapOf [3,33,20]).set 34).1.get 34 ≠ (bitmapOf [3,33,20]).get 34 := by
  obtain ⟨gets,sets⟩ := @got_as_set [3,33,20] (by simp)
  refine ⟨(gets 33).mpr ⟨[3],[20],rfl,by decide⟩,?_,(sets 34 (by decide)).mp (by decide)⟩
  rw [← Bool.not_eq_true,gets]
  simp [rises_cons]

end EWAHBoolArray
end Libdft.Ewah
