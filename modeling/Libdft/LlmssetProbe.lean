import Libdft.LlmssetThreads
import Mathlib.Data.Fintype.EquivFin
import Mathlib.Data.Nat.ModEq

/-! The probe sequence of `sylvan_table.c` in closed form: the eight slots of a cache line from the
first one on, line after line at an odd distance. It comes to every slot. -/
namespace Libdft.Llmsset

/-- Slot `j` of the cache line of `b`, counted from `b` and around the line. -/
def line (b : Word) (j : Nat) : Word := (b &&& clMask) ||| ((b + BitVec.ofNat 64 j) &&& clMaskR)

theorem and_clMaskR (b : Word) : (b &&& clMaskR).toNat = b.toNat % 8 := by
  rw [BitVec.toNat_and]
  exact Nat.and_two_pow_sub_one_eq_mod b.toNat 3

theorem and_clMask (b : Word) : b &&& clMask = (b >>> 3) <<< 3 := by
  apply BitVec.eq_of_getLsbD_eq
  intro i small
  have mask : ∀ i : Fin 64, clMask.getLsbD i = decide (3 ≤ i.val) := by decide
  have here := mask ⟨i,small⟩
  simp only at here
  rw [BitVec.getLsbD_and,here,BitVec.getLsbD_shiftLeft]
  by_cases low : 3 ≤ i
  · have shift : 3 + (i - 3) = i := by omega
    simp [low,small,shift]
  · have below : i < 3 := by omega
    simp [low,below]

theorem line_toNat (b : Word) (j : Nat) : (line b j).toNat = b.toNat / 8 * 8 + (b.toNat + j) % 8 := by
  have high : (b &&& clMask).toNat = 2 ^ 3 * (b.toNat / 8) := by
    have bound := b.isLt
    rw [and_clMask,BitVec.toNat_shiftLeft,BitVec.toNat_ushiftRight,Nat.shiftRight_eq_div_pow,Nat.shiftLeft_eq,Nat.mod_eq_of_lt (by omega)]
    omega
  have low : ((b + BitVec.ofNat 64 j) &&& clMaskR).toNat = (b.toNat + j) % 8 := by
    rw [and_clMaskR,BitVec.toNat_add,BitVec.toNat_ofNat]
    omega
  rw [line,BitVec.toNat_or,high,low,← Nat.two_pow_add_eq_or_of_lt (Nat.mod_lt _ (by decide))]
  omega

theorem line_zero (b : Word) : line b 0 = b := by
  apply BitVec.eq_of_toNat_eq
  rw [line_toNat]
  omega

theorem beside_line (h last : Word) (b : Word) (i j : Nat) : Cursor.beside ⟨h,line b j,last,i⟩ = line b (j + 1) := by
  apply BitVec.eq_of_toNat_eq
  have one : Cursor.beside ⟨h,line b j,last,i⟩ = line (line b j) 1 := rfl
  rw [one,line_toNat,line_toNat,line_toNat]
  omega

theorem line_wraps {b : Word} {j : Nat} (small : j < 8) : line b (j + 1) = b ↔ j = 7 := by
  rw [← BitVec.toNat_inj,line_toNat]
  omega

namespace Params
variable (p : Params) (k : Key)

/-- `hash_rehash` on line `m`. -/
def rehash (m : Nat) : Word := p.hashOf k + BitVec.ofNat 64 m * p.step k

def lineStart (m : Nat) : Word := p.rehash k m &&& p.mask

theorem rehash_succ (m : Nat) : p.rehash k m + p.step k = p.rehash k (m + 1) := by
  rw [rehash,rehash,BitVec.ofNat_add,BitVec.add_mul,BitVec.one_mul,BitVec.add_assoc]

theorem cursor_eq (n : Nat) :
    p.probing.cursor k n = ⟨p.rehash k (n / 8),line (p.lineStart k (n / 8)) (n % 8),p.lineStart k (n / 8),n / 8⟩ := by
  induction n with
  | zero =>
    have first : p.rehash k 0 = p.hashOf k := by simp [rehash]
    show Cursor.start p k = _
    simp [Cursor.start,line_zero,lineStart,first]
  | succ n ih =>
    have small : n % 8 < 8 := Nat.mod_lt n (by decide)
    rw [Probing.cursor,ih]
    show Cursor.next p k _ = _
    unfold Cursor.next
    rw [beside_line]
    by_cases wraps : n % 8 = 7
    · have next : (n + 1) / 8 = n / 8 + 1 := by omega
      have first : (n + 1) % 8 = 0 := by omega
      rw [if_pos ((line_wraps small).mpr wraps),next,first,line_zero]
      simp only [rehash_succ,lineStart]
    · have same : (n + 1) / 8 = n / 8 := by omega
      have next : (n + 1) % 8 = n % 8 + 1 := by omega
      rw [if_neg fun back => wraps ((line_wraps small).mp back),same,next]

/-- The distance between lines, in lines. -/
def stride : Nat := ((p.hashOf k >>> 20) ||| 1).toNat

theorem stride_odd : p.stride k % 2 = 1 := by
  have bit : ((p.hashOf k >>> 20) ||| 1#64).getLsbD 0 = true := by
    rw [BitVec.getLsbD_or]
    simp
  rw [BitVec.getLsbD,Nat.testBit_zero,decide_eq_true_iff] at bit
  exact bit

theorem tableSize_dvd : p.tableSize ∣ 2 ^ 64 := Nat.pow_dvd_pow 2 (Nat.le_trans p.index_le (by decide))

theorem lines : p.tableSize = 8 * 2 ^ (p.sizeLog - 3) := by
  have large := p.region_le
  rw [tableSize,show 8 = 2 ^ 3 from rfl,← Nat.pow_add]
  congr 1
  omega

theorem lineStart_toNat (m : Nat) : (p.lineStart k m).toNat = ((p.hashOf k).toNat + 8 * (m * p.stride k)) % p.tableSize := by
  have positive : 0 < p.tableSize := Nat.two_pow_pos _
  have small : p.tableSize - 1 < 2 ^ 64 := by
    have := p.tableSize_le
    omega
  have shift : (p.step k).toNat = p.stride k * 8 % 2 ^ 64 := by
    rw [step,BitVec.toNat_shiftLeft,Nat.shiftLeft_eq]
    rfl
  rw [lineStart,BitVec.toNat_and,mask,BitVec.toNat_ofNat,Nat.mod_eq_of_lt small,tableSize,Nat.and_two_pow_sub_one_eq_mod]
  rw [rehash,BitVec.toNat_add,BitVec.toNat_mul,BitVec.toNat_ofNat,shift]
  have big : Nat.ModEq (2 ^ 64) ((p.hashOf k).toNat + m % 2 ^ 64 * (p.stride k * 8 % 2 ^ 64) % 2 ^ 64)
      ((p.hashOf k).toNat + 8 * (m * p.stride k)) := by
    refine Nat.ModEq.add_left _ ((Nat.mod_modEq _ _).trans ?_)
    rw [Nat.mul_left_comm,Nat.mul_comm 8]
    exact (Nat.mod_modEq _ _).mul (Nat.mod_modEq _ _)
  exact (Nat.mod_mod_of_dvd _ (tableSize_dvd p)).trans (big.of_dvd (tableSize_dvd p))

/-- Lines follow one another at the stride, and around the table. -/
theorem position_eq (n : Nat) : p.probing.position k n =
    8 * (((p.hashOf k).toNat / 8 + n / 8 * p.stride k) % 2 ^ (p.sizeLog - 3)) + ((p.hashOf k).toNat + n) % 8 := by
  have slot : p.probing.position k n = (line (p.lineStart k (n / 8)) (n % 8)).toNat := by
    rw [Probing.position,cursor_eq]
    rfl
  rw [slot,line_toNat,lineStart_toNat,lines]
  generalize n / 8 * p.stride k = far
  have high : ((p.hashOf k).toNat + 8 * far) / 8 = (p.hashOf k).toNat / 8 + far := Nat.add_mul_div_left _ _ (by decide)
  have low : ((p.hashOf k).toNat + 8 * far) % (8 * 2 ^ (p.sizeLog - 3)) % 8 = (p.hashOf k).toNat % 8 := by
    rw [Nat.mod_mul_right_mod,Nat.add_mul_mod_self_left]
  rw [Nat.mod_mul_right_div_self,high]
  omega

theorem position_lt (n : Nat) : p.probing.position k n < p.tableSize := by
  rw [position_eq,lines]
  have inside := Nat.mod_lt ((p.hashOf k).toNat / 8 + n / 8 * p.stride k) (Nat.two_pow_pos (p.sizeLog - 3))
  omega

theorem position_injective {n n' : Nat} (small : n < p.tableSize) (small' : n' < p.tableSize)
    (same : p.probing.position k n = p.probing.position k n') : n = n' := by
  rw [position_eq,position_eq] at same
  rw [lines] at small small'
  have place : n % 8 = n' % 8 := by omega
  have lines : Nat.ModEq (2 ^ (p.sizeLog - 3)) ((p.hashOf k).toNat / 8 + n / 8 * p.stride k)
      ((p.hashOf k).toNat / 8 + n' / 8 * p.stride k) := by
    rw [Nat.ModEq]
    omega
  have odd : Nat.gcd 2 (p.stride k) = 1 := by rw [Nat.gcd_rec,p.stride_odd,Nat.gcd_one_left]
  have coprime : Nat.gcd (2 ^ (p.sizeLog - 3)) (p.stride k) = 1 := Nat.Coprime.pow_left _ odd
  have line := (Nat.ModEq.add_left_cancel' _ lines).cancel_right_of_coprime coprime
  rw [Nat.ModEq,Nat.mod_eq_of_lt (by omega),Nat.mod_eq_of_lt (by omega)] at line
  omega

theorem position_surjective (q : Nat) (inside : q < p.tableSize) : ∃ n < p.tableSize, p.probing.position k n = q := by
  let probe (n : Fin p.tableSize) : Fin p.tableSize := ⟨p.probing.position k n,position_lt p k n⟩
  have injective : Function.Injective probe := by
    intro n n' same
    have slots : p.probing.position k n = p.probing.position k n' := Fin.mk.inj same
    exact Fin.ext (position_injective p k n.isLt n'.isLt slots)
  obtain ⟨n,here⟩ := Finite.surjective_of_injective injective ⟨q,inside⟩
  exact ⟨n,n.isLt,congrArg Fin.val here⟩

/-- One probe for each slot, until all have been tried. -/
theorem tries_each_slot_once (q : Fin p.tableSize) : ∃! n : Fin p.tableSize, p.probing.position k n = q := by
  obtain ⟨n,small,here⟩ := position_surjective p k q q.isLt
  refine ⟨⟨n,small⟩,here,fun n' here' => Fin.ext ?_⟩
  exact position_injective p k n'.isLt small (here'.trans here.symm)

end Params

/-! What a lookup that returns 0 has seen. -/

/-- All regions between the last one that was owned and the next to be tried have been found taken. -/
def Tested (p : Params) (d : Dbs) (count r : Nat) : Prop :=
  r < p.regions ∧ count < p.regions ∧ ∀ j, 0 < j → j < p.regions - count → isMarked d.bitmap1 ((r + p.regions - j) % p.regions) = true

def Sought (p : Params) (d : Dbs) : Pc → Prop
  | .test _ count r | .grab _ count r _ => Tested p d count r
  | _ => True

/-- A step of a thread, as far as regions are concerned. -/
structure Seeks (p : Params) (s : State) (t : Tid) (s' : State) : Prop where
  others : ∀ u, u ≠ t → s'.pc u = s.pc u
  owners : ∀ r, isMarked s.dbs.bitmap1 r = true → isMarked s'.dbs.bitmap1 r = true
  own : Sought p s'.dbs (s'.pc t)

theorem Sought.mono {p : Params} {d d' : Dbs} {pc : Pc} (sought : Sought p d pc)
    (owners : ∀ r, isMarked d.bitmap1 r = true → isMarked d'.bitmap1 r = true) : Sought p d' pc := by
  cases pc with
  | test l count r | grab l count r v => exact ⟨sought.1,sought.2.1,fun j some below => owners _ (sought.2.2 j some below)⟩
  | _ => trivial

namespace Seeks
variable {p : Params} {s : State} {t : Tid} {l : Lookup}

theorem goto {pc : Pc} (own : Sought p s.dbs pc) : Seeks p s t (s.goto t pc) where
  others u other := s.goto_other t pc other
  owners _ := id
  own := by simpa using own

theorem finish (idx : Nat) (created : Bool) : Seeks p s t (s.finish t l idx created) :=
  have idle : Seeks p s t (s.goto t .idle) := goto trivial
  ⟨idle.others,idle.owners,idle.own⟩

theorem moveOn : Seeks p s t (s.moveOn p t l) := by
  unfold State.moveOn
  split
  · exact finish 0 false
  · exact goto trivial

theorem examine (v : Word) : Seeks p s t (s.examine p t l v) := by
  unfold State.examine
  split
  · exact goto trivial
  · exact moveOn

theorem wrap_lt (p : Params) (next : Nat) : (if next ≥ p.regions then 0 else next) < p.regions := by
  split
  · exact Invariant.regions_pos p
  next inside => exact Nat.lt_of_not_le inside

theorem seek_all (next : Nat) : Seeks p s t (s.seek p t l p.regions next) := by
  obtain ⟨count,more⟩ := Nat.exists_eq_succ_of_ne_zero (Nat.ne_of_gt (Invariant.regions_pos p))
  rw [more]
  refine goto ⟨wrap_lt p next,by omega,fun j some below => ?_⟩
  omega

/-- One more region was taken. -/
theorem seek_next {count r : Nat} (tested : Tested p s.dbs count r) (taken : isMarked s.dbs.bitmap1 r = true) :
    Seeks p s t (s.seek p t l count (r + 1)) := by
  cases count with
  | zero => exact finish 0 false
  | succ count =>
    obtain ⟨inside,fewer,before⟩ := tested
    refine goto ⟨wrap_lt p _,by omega,fun j some below => ?_⟩
    have back : ((if r + 1 ≥ p.regions then 0 else r + 1) + p.regions - j) % p.regions = (r + p.regions - (j - 1)) % p.regions := by
      split
      next last =>
        have here : r + p.regions - (j - 1) = 0 + p.regions - j + p.regions := by omega
        rw [here,Nat.add_mod_right]
      next => congr 1; omega
    rw [back]
    rcases Nat.eq_or_lt_of_le some with one | more
    · rw [← one,Nat.sub_self,Nat.sub_zero,Nat.add_mod_right,Nat.mod_eq_of_lt inside]
      exact taken
    · exact before (j - 1) (by omega) (by omega)

theorem claim : Seeks p s t (s.claim p t l) := by
  unfold State.claim
  split
  · exact goto trivial
  · exact seek_all _

/-- Writes to other parts of the table. -/
theorem goto_change {d' : Dbs} {pc : Pc} (same : d'.bitmap1 = s.dbs.bitmap1) (own : Sought p d' pc) :
    Seeks p s t ({ s with dbs := d' }.goto t pc) where
  others u other := State.goto_other _ t pc other
  owners r marked := by
    change isMarked d'.bitmap1 r = true
    rwa [same]
  own := by simpa using own

theorem finish_change {d' : Dbs} (same : d'.bitmap1 = s.dbs.bitmap1) (idx : Nat) (created : Bool) :
    Seeks p s t ({ s with dbs := d' }.finish t l idx created) :=
  have idle : Seeks p s t ({ s with dbs := d' }.goto t .idle) := goto_change same trivial
  ⟨idle.others,idle.owners,idle.own⟩

theorem advance (sought : Sought p s.dbs (s.pc t)) : Seeks p s t (s.advance p t) := by
  cases here : s.pc t with
  | idle =>
    simp only [State.advance,here]
    exact ⟨fun _ _ => rfl,fun _ => id,sought⟩
  | read l =>
    simp only [State.advance,here]
    split
    · split
      · exact claim
      · exact goto trivial
    · exact examine _
  | scan l r i =>
    simp only [State.advance,here]
    split
    · split
      · exact goto trivial
      · exact goto trivial
    · exact seek_all _
  | test l count r =>
    rw [here] at sought
    simp only [State.advance,here]
    split
    next taken => exact seek_next sought (by rw [isMarked,decide_eq_true_iff]; exact taken)
    next => exact goto sought
  | grab l count r v =>
    rw [here] at sought
    simp only [State.advance,here]
    split
    next read =>
      subst read
      refine ⟨fun u other => State.goto_other _ t _ other,fun c marked => ?_,?_⟩
      · change isMarked (Function.update s.dbs.bitmap1 (r / 64) (s.dbs.bitmap1 (r / 64) ||| bit (r % 64))) c = true
        rw [isMarked_or (Nat.mod_lt r (by decide)),marked,Bool.true_or]
      · rw [State.goto_self]
        trivial
    next => exact goto sought
  | load l r i j | loadRelease l c =>
    simp only [State.advance,here]
    exact goto trivial
  | store l r i j w | writeA l | writeB l =>
    simp only [State.advance,here]
    refine goto_change ?_ trivial
    rfl
  | publish l =>
    simp only [State.advance,here]
    split
    · refine finish_change ?_ _ _
      rfl
    · exact goto trivial
  | reread l =>
    simp only [State.advance,here]
    exact examine _
  | compareA l c =>
    simp only [State.advance,here]
    split
    · exact goto trivial
    · exact moveOn
  | compareB l c =>
    simp only [State.advance,here]
    split
    · split
      · exact goto trivial
      · exact finish _ _
    · exact moveOn
  | storeRelease l c w =>
    simp only [State.advance,here]
    refine finish_change ?_ _ _
    rfl

end Seeks

/-- Every region has an owner or had one, or all slots that a lookup tries hold other contents. -/
def Exhausted (p : Params) (s : State) (k : Key) : Prop :=
  (∀ r < p.regions, isMarked s.dbs.bitmap1 r = true) ∨ p.probing.Passed s.dbs.slots k (8 * p.threshold)

theorem Exhausted.grow {p : Params} {s s' : State} {k : Key} (exhausted : Exhausted p s k)
    (owners : ∀ r, isMarked s.dbs.bitmap1 r = true → isMarked s'.dbs.bitmap1 r = true) (grows : Grows s.dbs s'.dbs) : Exhausted p s' k := by
  rcases exhausted with owned | passed
  · exact .inl fun r inside => owners r (owned r inside)
  · exact .inr (passed.keep grows.keeps)

structure Watched (p : Params) (s : State) : Prop where
  inv : Invariant p s
  sought : ∀ t, Sought p s.dbs (s.pc t)

theorem Watched.step {p : Params} {s next : State} {a : Act} (watched : Watched p s) (one : Step p s a next) : Watched p next := by
  refine ⟨watched.inv.step one,fun u => ?_⟩
  have follow {t : Tid} (seeks : Seeks p s t next) : Sought p next.dbs (next.pc u) := by
    by_cases self : u = t
    · exact self ▸ seeks.own
    · rw [seeks.others u self]
      exact (watched.sought u).mono seeks.owners
  cases one with
  | call => exact follow (.goto trivial)
  | run => exact follow (.advance (watched.sought _))

section Fails
variable {p : Params} {s : State} {t : Tid} {l : Lookup} {k : Key} {c : Bool}

theorem moveOn_fails (searching : Searching p s.dbs l) (filled : s.dbs.table l.slot ≠ 0)
    (other : s.dbs.data (indexOf (s.dbs.table l.slot)) ≠ l.key) (failed : (s.moveOn p t l).log = ⟨k,0,c⟩ :: s.log) :
    Exhausted p s k := by
  unfold State.moveOn at failed
  split at failed
  next up =>
    obtain ⟨rfl,_⟩ : l.key = k ∧ false = c := by simpa [State.finish] using failed
    obtain ⟨n,place,passed⟩ := searching
    have slot : p.probing.position l.key n = l.slot := congrArg (fun c : Cursor => c.idx.toNat) place.symm
    rw [place,Params.cursor_eq] at up
    simp only [Cursor.givesUp,beside_line,line_wraps (Nat.mod_lt n (by decide : 0 < 8)),decide_eq_true_iff] at up
    have here := passed.succ (by rw [slot]; exact slots_filled filled) other
    have far : n + 1 = 8 * p.threshold := by omega
    exact .inr (far ▸ here)
  next => simp at failed

theorem seek_fails {count r next : Nat} (tested : Tested p s.dbs count r) (taken : isMarked s.dbs.bitmap1 r = true)
    (failed : (s.seek p t l count next).log = ⟨k,0,c⟩ :: s.log) : Exhausted p s k := by
  cases count with
  | succ count => simp [State.seek] at failed
  | zero =>
    obtain ⟨inside,_,before⟩ := tested
    refine .inl fun r' inside' => ?_
    by_cases here : r' = r
    · rwa [here]
    by_cases below : r' < r
    · have back : (r + p.regions - (r - r')) % p.regions = r' := by
        rw [show r + p.regions - (r - r') = r' + p.regions by omega,Nat.add_mod_right,Nat.mod_eq_of_lt inside']
      exact back ▸ before (r - r') (by omega) (by omega)
    · have back : (r + p.regions - (r + p.regions - r')) % p.regions = r' := by
        rw [show r + p.regions - (r + p.regions - r') = r' by omega,Nat.mod_eq_of_lt inside']
      exact back ▸ before (r + p.regions - r') (by omega) (by omega)

theorem seek_goes_on (next : Nat) : (s.seek p t l p.regions next).log = s.log := by
  obtain ⟨count,more⟩ := Nat.exists_eq_succ_of_ne_zero (Nat.ne_of_gt (Invariant.regions_pos p))
  rw [more]
  rfl

theorem examine_fails (inv : Invariant p s) (searching : Searching p s.dbs l) (filled : s.dbs.table l.slot ≠ 0)
    (failed : (s.examine p t l (s.dbs.table l.slot)).log = ⟨k,0,c⟩ :: s.log) : Exhausted p s k := by
  unfold State.examine at failed
  split at failed
  next => simp at failed
  next differ =>
    refine moveOn_fails searching filled (fun same => differ ?_) failed
    rw [inv.table.hashed l.slot filled,same]

theorem Watched.fails (watched : Watched p s) (failed : (s.advance p t).log = ⟨k,0,c⟩ :: s.log) : Exhausted p s k := by
  have fits := watched.inv.fits t
  have sought := watched.sought t
  cases here : s.pc t with
  | idle | load l r i j | store l r i j w | writeA l | writeB l | loadRelease l d => simp [State.advance,here] at failed
  | read l =>
    rw [here] at fits
    simp only [State.advance,here] at failed
    split at failed
    · split at failed
      · unfold State.claim at failed
        split at failed
        · simp at failed
        · simp [seek_goes_on] at failed
      · simp at failed
    next filled => exact examine_fails watched.inv fits.1 filled failed
  | scan l r i =>
    simp only [State.advance,here] at failed
    split at failed
    · split at failed
      · simp at failed
      · simp at failed
    · simp [seek_goes_on] at failed
  | test l count r =>
    rw [here] at sought
    simp only [State.advance,here] at failed
    split at failed
    next taken => exact seek_fails sought (by rw [isMarked,decide_eq_true_iff]; exact taken) failed
    next => simp at failed
  | grab l count r v =>
    simp only [State.advance,here] at failed
    split at failed
    · simp at failed
    · simp at failed
  | publish l =>
    rw [here] at fits
    simp only [State.advance,here] at failed
    split at failed
    · have large := fits.2.1.large
      simp [State.finish] at failed
      omega
    · simp at failed
  | reread l =>
    rw [here] at fits
    simp only [State.advance,here] at failed
    exact examine_fails watched.inv fits.1.1 fits.2 failed
  | compareA l d =>
    rw [here] at fits
    obtain ⟨⟨searching,_⟩,filled,rfl⟩ := fits
    simp only [State.advance,here] at failed
    split at failed
    · simp at failed
    next differ => exact moveOn_fails searching filled (fun same => differ (congrArg Prod.fst same)) failed
  | compareB l d =>
    rw [here] at fits
    obtain ⟨⟨searching,_⟩,⟨filled,rfl⟩,_⟩ := fits
    simp only [State.advance,here] at failed
    split at failed
    · split at failed
      · simp at failed
      · have large := (watched.inv.table.inside _ ⟨_,filled,rfl⟩).1
        simp [State.finish] at failed
        omega
    next differ => exact moveOn_fails searching filled (fun same => differ (congrArg Prod.snd same)) failed
  | storeRelease l d w =>
    rw [here] at fits
    have large := (watched.inv.table.inside _ fits.2.1.1).1
    simp [State.advance,here,State.finish] at failed
    omega

end Fails

/-- A lookup in any interleaving returns 0 only when it has tried all there is to try. -/
theorem zero_means_exhausted {p : Params} {s₀ s s' : State} (initial : Initial p s₀) (run : Run (Step p) s₀ trace s)
    (one : Step p s a s') (returned : s'.log = ⟨k,0,c⟩ :: s.log) : Exhausted p s k := by
  have first : Watched p s₀ := ⟨initial.invariant,fun t => by rw [initial.idle t]; trivial⟩
  have watched := run.invariant (Watched p) (fun _ _ _ => Watched.step) first
  cases one with
  | call => simp at returned
  | run => exact watched.fails returned

/-- One region only, and thread 0 has it. -/
def oneRegion : Params := ⟨9,by decide,by decide,sizeThreshold 9,by decide,fun _ => 0,2⟩

def starved : List Act := [.call 0 (5,7),.run 0,.run 0,.run 0,.call 1 (5,8),.run 1]

theorem zero_means_exhausted_starved : ∃ s s', Run (Step oneRegion) .fresh starved s ∧ Step oneRegion s (.run 1) s' ∧
    s'.log = [⟨(5,8),0,false⟩] ∧ Exhausted oneRegion s (5,8) := by
  have run := run_replay (step_perform oneRegion) (show feasible State.enabled _ .fresh starved = true by decide)
  have one : Step oneRegion (replay (State.perform oneRegion) .fresh starved) (.run 1) _ := .run fun idle => by
    have busy : ((replay (State.perform oneRegion) .fresh starved).pc 1).isIdle = false := by decide
    rw [idle] at busy
    cases busy
  have initial : Initial oneRegion .fresh := ⟨Dbs.fresh_ok _ _,fun _ => rfl,fun _ => rfl,rfl⟩
  exact ⟨_,_,run,one,by decide,zero_means_exhausted initial run one (c := false) (by decide)⟩

end Libdft.Llmsset
