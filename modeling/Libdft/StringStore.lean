import Libdft.XferWidth

/-! String stores: the calls inserted for STOS, with a REP prefix or without, next to one
element stored after another. -/
namespace Libdft.Core

open TagTraits TagOps

/-- Bytes of an element. -/
def elementSize : Iclass → Option Nat
  | .stosb => some 1
  | .stosw => some 2
  | .stosd => some 4
  | .stosq => some 8
  | _ => none

/-- STOS with elements of `w` bytes; the count is not in the flags. -/
structure StringStore (ins : Ins) (w : Nat) : Prop where
  size : elementSize ins.opcode = some w
  registers : ins.repCountRegister ≠ ins.operandReg 4

/-- Where element `k` goes. -/
def elementAddr (w : Nat) (eflags dst : BitVec 64) (k : Nat) : BitVec 64 :=
  if eflagsDf eflags = 0 then dst + BitVec.ofNat 64 (k * w) else dst - BitVec.ofNat 64 (k * w)

/-- What Pin passes when element `k` is stored: the count goes down, and the first iteration has all of it. -/
def iteration (ins : Ins) (w : Nat) (count eflags : BitVec 64) (exec : Exec) (k : Nat) : Exec :=
  { exec with
    memorywriteEa := elementAddr w eflags exec.memorywriteEa k
    regValue := fun r =>
      if r = ins.repCountRegister then count - BitVec.ofNat 64 k
      else if r = ins.operandReg 4 then eflags
      else exec.regValue r
    executed := true
    firstRepIteration := k = 0 }

/-- Without the prefix there is one element. -/
def elements (ins : Ins) (count : BitVec 64) : Nat := if ins.repPrefix then count.toNat else 1

section Runs
variable {T : Type} [TagOps T] {count : BitVec 64}

/-- Byte `j` of the element has the tag of byte `j` of RAX. -/
def storeElement (w : Nat) (addr : BitVec 64) : Analysis T Unit := copyEach w (mtags addr) (rtags dftRegRax)

/-- The calls have the effect of the elements stored one by one, and no other memory tag changes. -/
def StoresElements (T : Type) [TagOps T] (ins : Ins) (w : Nat) (count eflags : BitVec 64) : Prop :=
  ∀ (exec : Exec) (s : TagState T), ∃ s' t,
    forEach (elements ins count) (fun k => analyse ins (iteration ins w count eflags exec k)) s = .ok ((),s') ∧
    forEach (elements ins count) (fun k => storeElement w (elementAddr w eflags exec.memorywriteEa k)) s = .ok ((),t) ∧
    (∀ p, s'.look p = t.look p) ∧
    ∀ a, (∀ k < elements ins count, ∀ j < w, .mem a ≠ mtags (elementAddr w eflags exec.memorywriteEa k) j) →
      s'.look (.mem a) = s.look (.mem a)

/-- The prefixed form goes up, in elements of four bytes at most, and its bytes are fewer than
2^64; or it stores bytes. The form without prefix stores a word at most. -/
def Batches (ins : Ins) (w : Nat) (count eflags : BitVec 64) : Prop :=
  if ins.repPrefix then w = 1 ∨ eflagsDf eflags = 0 ∧ w ≤ 4 ∧ count.toNat * w < 2 ^ 64 else w ≤ 2

/-- What the routine for elements of `w` bytes shifts its count by. -/
def countShift : Nat → Nat
  | 1 => 0
  | 2 => 1
  | _ => 2

theorem elementSize_cases {op : Iclass} (size : elementSize op = some w) :
    op = .stosb ∧ w = 1 ∨ op = .stosw ∧ w = 2 ∨ op = .stosd ∧ w = 4 ∨ op = .stosq ∧ w = 8 := by
  cases op <;> simp_all [elementSize]

theorem StringStore.width {ins : Ins} (store : StringStore ins w) : w = 1 ∨ w = 2 ∨ w = 4 ∨ w = 8 := by
  rcases elementSize_cases store.size with ⟨_,h⟩ | ⟨_,h⟩ | ⟨_,h⟩ | ⟨_,h⟩ <;> simp [h]

/-- The call of the form with the prefix. -/
theorem analyse_prefixed {ins : Ins} (store : StringStore ins w) (rep : ins.repPrefix) (exec : Exec) :
    (analyse ins exec : Analysis T Unit) =
      if exec.executed then
        if exec.firstRepIteration then
          stosLoop w exec.memorywriteEa (exec.regValue ins.repCountRegister <<< countShift w)
            (exec.regValue (ins.operandReg 4))
        else pure ()
      else pure () := by
  rcases elementSize_cases store.size with ⟨op,rfl⟩ | ⟨op,rfl⟩ | ⟨op,rfl⟩ | ⟨op,rfl⟩ <;>
    simp [analyse,insInspect,Iclass.entry,op,insStosb,insStosw,insStosd,insStosq,rep,insStosIns,r2mXferOpbn,
      r2mXferOpwn,r2mXferOpln,r2mXferOpqn,countShift]

/-- The call of the form without it. -/
theorem analyse_plain {ins : Ins} (store : StringStore ins w) (rep : ins.repPrefix = false) (exec : Exec) :
    (analyse ins exec : Analysis T Unit) = storeElement (min w 2) exec.memorywriteEa := by
  have rax : Gpr.rax.row = dftRegRax := rfl
  rcases elementSize_cases store.size with ⟨op,rfl⟩ | ⟨op,rfl⟩ | ⟨op,rfl⟩ | ⟨op,rfl⟩
  · have single : (analyse ins exec : Analysis T Unit) = copy (.mem exec.memorywriteEa) (rtags dftRegRax 0) := by
      simp [analyse,insInspect,Iclass.entry,op,insStosb,rep,r2mXferOpbL,regIndx,rax]
    rw [single,storeElement,← mtags_zero exec.memorywriteEa]
    exact (copyEach_one (mtags exec.memorywriteEa) (rtags dftRegRax)).symm
  · simp [analyse,insInspect,Iclass.entry,op,insStosw,rep,r2mXferOpw,regIndx,rax,storeElement]
  · simp [analyse,insInspect,Iclass.entry,op,insStosd,rep,r2mXferOpw,regIndx,rax,storeElement]
  · simp [analyse,insInspect,Iclass.entry,op,insStosq,rep,r2mXferOpw,regIndx,rax,storeElement]

/-- All iterations of the form with the prefix are the first one. -/
theorem analyse_iterations {ins : Ins} (store : StringStore ins w) (rep : ins.repPrefix) (counted : 0 < count.toNat)
    (eflags : BitVec 64) (exec : Exec) :
    forEach count.toNat (fun k => (analyse ins (iteration ins w count eflags exec k) : Analysis T Unit)) =
      stosLoop w exec.memorywriteEa (count <<< countShift w) eflags := by
  have later (k : Nat) (_ : k < count.toNat) (positive : 0 < k) :
      (analyse ins (iteration ins w count eflags exec k) : Analysis T Unit) = pure () := by
    simp [analyse_prefixed store rep,iteration,Nat.ne_of_gt positive]
  rw [forEach_first counted later]
  simp [analyse_prefixed store rep,iteration,elementAddr,store.registers.symm]

/-! What the two sides wrote. -/

theorem stosLoop_wrote (s : TagState T) (row : w ≤ tagsPerGpr) (positive : 0 < w) (dst len eflags : BitVec 64) :
    ∃ s', stosLoop w dst len eflags s = .ok ((),s') ∧
      Wrote s s' len.toNat (mtags (if eflagsDf eflags = 0 then dst else dst - len + 1)) fun i =>
        s.gpr dftRegRax (i % w) := by
  obtain ⟨tags,fetched,read⟩ := fetchEach_ok (rtags dftRegRax) (T := T) (s := s) (n := w)
    (v := s.gpr dftRegRax) (fun k small => ⟨by decide,Nat.lt_of_lt_of_le small row⟩) fun _ _ => rfl
  have phase : (fun i => tags (i % w)) = fun i => s.gpr dftRegRax (i % w) :=
    funext fun i => read _ (Nat.mod_lt i positive)
  have written (start : BitVec 64) := assignEach_wrote (mtags start) (s := s) (n := len.toNat) (fun i => tags (i % w))
    (fun j k lt small same => absurd ((mtags_inj (Nat.lt_trans lt (small.trans len.isLt)) (small.trans len.isLt)).mp same)
      (Nat.ne_of_lt lt)) fun _ _ => trivial
  rw [phase] at written
  unfold stosLoop
  split
  · obtain ⟨s',run,wrote⟩ := written dst
    refine ⟨s',?_,wrote⟩
    rw [bind_ok fetched]
    exact (congrArg (fun tags => assignEach len.toNat (mtags dst) tags s) phase).trans run
  · obtain ⟨s',run,wrote⟩ := written (dst - len + 1)
    refine ⟨s',?_,wrote⟩
    rw [bind_ok fetched]
    exact (congrArg (fun tags => assignEach len.toNat (mtags (dst - len + 1)) tags s) phase).trans run

/-- A byte that two elements share is the byte of one number in both. -/
theorem elementAddr_phase (width : w = 1 ∨ w = 2 ∨ w = 4 ∨ w = 8) {i j : Nat}
    (same : mtags (elementAddr w eflags dst (i / w)) (i % w) = mtags (elementAddr w eflags dst (j / w)) (j % w)) :
    i % w = j % w := by
  have addresses := Place.mem.inj same
  unfold elementAddr at addresses
  split at addresses <;> rcases width with rfl | rfl | rfl | rfl <;> bv_omega

theorem elements_wrote (s : TagState T) (width : w = 1 ∨ w = 2 ∨ w = 4 ∨ w = 8) (n : Nat) (eflags dst : BitVec 64) :
    ∃ t, forEach n (fun k => storeElement w (elementAddr w eflags dst k)) s = .ok ((),t) ∧
      Wrote s t (n * w) (fun i => mtags (elementAddr w eflags dst (i / w)) (i % w)) fun i => s.gpr dftRegRax (i % w) := by
  have bytes : forEach n (fun k => storeElement w (elementAddr w eflags dst k)) =
      (copyEach (n * w) (fun i => mtags (elementAddr w eflags dst (i / w)) (i % w)) fun i => rtags dftRegRax (i % w) :
        Analysis T Unit) :=
    (forEach_mul n w fun k j => copy (mtags (elementAddr w eflags dst k) j) (rtags dftRegRax j)).symm
  have phase (i : Nat) : i % w < tagsPerGpr := by
    have small : i % w < w := Nat.mod_lt i (by omega)
    exact Nat.lt_of_lt_of_le small (by rcases width with rfl | rfl | rfl | rfl <;> decide)
  rw [bytes]
  exact copyEach_wrote _ _ (fun i j _ _ same => congrArg _ (elementAddr_phase width same)) (fun _ _ _ _ => nofun)
    (fun _ _ => trivial) (fun i _ => ⟨by decide,phase i⟩) fun _ _ => rfl

/-- Byte `i` of the elements going up. -/
theorem element_up (up : eflagsDf eflags = 0) (w : Nat) (dst : BitVec 64) (i : Nat) :
    mtags (elementAddr w eflags dst (i / w)) (i % w) = mtags dst i := by
  rw [mtags,elementAddr,if_pos up,BitVec.add_assoc,← BitVec.ofNat_add,Nat.div_add_mod']
  rfl

/-- Elements of one byte going down. -/
theorem element_down (down : eflagsDf eflags ≠ 0) (dst : BitVec 64) (i : Nat) :
    mtags (elementAddr 1 eflags dst (i / 1)) (i % 1) = .mem (dst - BitVec.ofNat 64 i) := by
  rw [mtags,elementAddr,if_neg down,Nat.div_one,Nat.mul_one,Nat.mod_one]
  simp

/-- A run that writes the same tags to the same bytes has the effect of the elements. -/
theorem stores_of_wrote {ins : Ins} (store : StringStore ins w)
    (wrote : ∀ (exec : Exec) (s : TagState T), ∃ s' n dst v,
      forEach (elements ins count) (fun k => analyse ins (iteration ins w count eflags exec k)) s = .ok ((),s') ∧
      Wrote s s' n dst v ∧
      (∀ i < n, ∃ j < elements ins count * w,
        mtags (elementAddr w eflags exec.memorywriteEa (j / w)) (j % w) = dst i ∧ s.gpr dftRegRax (j % w) = v i) ∧
      ∀ j < elements ins count * w, ∃ i < n,
        dst i = mtags (elementAddr w eflags exec.memorywriteEa (j / w)) (j % w)) : StoresElements T ins w count eflags := by
  intro exec s
  obtain ⟨s',n,dst,v,run,batch,covers,covered⟩ := wrote exec s
  obtain ⟨t,stored,each⟩ := elements_wrote s store.width (elements ins count) eflags exec.memorywriteEa
  refine ⟨s',t,run,stored,batch.look_eq each covers covered,fun a apart => batch.frame _ fun i small same => ?_⟩
  obtain ⟨j,below,place,_⟩ := covers i small
  have positive : 0 < w := by
    rcases store.width with rfl | rfl | rfl | rfl <;> decide
  exact apart (j / w) (Nat.div_lt_of_lt_mul (Nat.mul_comm _ w ▸ below)) (j % w) (Nat.mod_lt j positive) (same.trans place.symm)

/-- Where the two sides agree on tainted registers and clean memory, they go over the same bytes of memory with tags. -/
theorem covered_of_agree {tag : T} (taint : tag ≠ clearedVal) {s' t : TagState T}
    (batch : Wrote (tainted tag) s' m dst v) (each : Wrote (tainted tag) t n dst' fun _ => tag)
    (agree : ∀ p, s'.look p = t.look p) (small : i < n) (memory : (tainted tag).look (dst' i) = some clearedVal) :
    ∃ k < m, dst' i = dst k := by
  by_contra uncovered
  have frame := batch.frame (dst' i) fun k below same => uncovered ⟨k,below,same⟩
  have hit := each.hit i small
  rw [← agree,frame,memory] at hit
  exact taint (Option.some.inj hit).symm

theorem count_shift (width : w = 1 ∨ w = 2 ∨ w = 4) (small : count.toNat * w < 2 ^ 64) :
    (count <<< countShift w : BitVec 64).toNat = count.toNat * w := by
  rcases width with rfl | rfl | rfl <;> simp [countShift,Nat.shiftLeft_eq] <;> omega

/-- Where the shift loses something, some byte is left out. -/
theorem count_shift_lt (width : w = 1 ∨ w = 2 ∨ w = 4 ∨ w = 8) (counted : 0 < count.toNat)
    (lost : w ≤ 4 → 2 ^ 64 ≤ count.toNat * w) : (count <<< countShift w : BitVec 64).toNat < count.toNat * w := by
  rcases width with rfl | rfl | rfl | rfl <;> simp [countShift,Nat.shiftLeft_eq] <;> omega

/-- The prefixed form, where it is right. -/
theorem prefixed_stores {ins : Ins} (store : StringStore ins w) (rep : ins.repPrefix) (counted : 0 < count.toNat)
    (batches : w = 1 ∨ eflagsDf eflags = 0 ∧ w ≤ 4 ∧ count.toNat * w < 2 ^ 64) :
    StoresElements T ins w count eflags := by
  apply stores_of_wrote store
  have times : elements ins count = count.toNat := if_pos rep
  have width := store.width
  intro exec s
  have positive : 0 < w := by omega
  obtain ⟨s',run,wrote⟩ := stosLoop_wrote s (w := w) (by rcases width with rfl | rfl | rfl | rfl <;> decide) positive
    exec.memorywriteEa (count <<< countShift w) eflags
  have len : (count <<< countShift w : BitVec 64).toNat = count.toNat * w :=
    count_shift (by omega) (by rcases batches with rfl | ⟨_,_,small⟩ <;> omega)
  rw [len] at wrote
  rw [times,analyse_iterations store rep counted]
  refine ⟨s',_,_,_,run,wrote,?_⟩
  by_cases up : eflagsDf eflags = 0
  · simp only [if_pos up,element_up up]
    exact ⟨fun i small => ⟨i,small,rfl,rfl⟩,fun i small => ⟨i,small,rfl⟩⟩
  · -- the call goes over the same bytes from the last one on
    obtain rfl : w = 1 := batches.resolve_right fun h => up h.1
    have back (i : Nat) (small : i < count.toNat * 1) :
        mtags (exec.memorywriteEa - count <<< countShift 1 + 1) i =
          .mem (exec.memorywriteEa - BitVec.ofNat 64 (count.toNat - 1 - i)) := by
      have whole : count = BitVec.ofNat 64 count.toNat := by simp
      rw [mtags,countShift,BitVec.shiftLeft_zero]
      congr 1
      bv_omega
    simp only [if_neg up,element_down up]
    refine ⟨fun i small => ⟨count.toNat - 1 - i,by omega,(back i small).symm,by simp [Nat.mod_one]⟩,fun i small => ?_⟩
    refine ⟨count.toNat - 1 - i,by omega,?_⟩
    rw [back _ (by omega)]
    congr 3
    omega

/-- The form without prefix, where it is right. -/
theorem plain_stores {ins : Ins} (store : StringStore ins w) (rep : ins.repPrefix = false) (word : w ≤ 2)
    (count eflags : BitVec 64) : StoresElements T ins w count eflags := by
  apply stores_of_wrote store
  have times : elements ins count = 1 := by simp [elements,rep]
  intro exec s
  obtain ⟨t,run,wrote⟩ := elements_wrote s store.width 1 eflags exec.memorywriteEa
  rw [times]
  refine ⟨t,_,_,_,?_,wrote,fun i small => ⟨i,small,rfl,rfl⟩,fun i small => ⟨i,small,rfl⟩⟩
  rw [forEach_one] at run ⊢
  rw [analyse_plain store rep,Nat.min_eq_left word]
  exact run

/-- The call of the prefixed form covers the elements, if it has their effect. -/
theorem prefixed_covers {ins : Ins} (store : StringStore ins w) (rep : ins.repPrefix) (counted : 0 < count.toNat) {tag : T}
    (taint : tag ≠ clearedVal) (stores : StoresElements T ins w count eflags) (dst : BitVec 64) {i : Nat}
    (small : i < count.toNat * w) {p : Place} (addr : mtags (elementAddr w eflags dst (i / w)) (i % w) = p)
    (memory : (tainted tag).look p = some clearedVal) :
    ∃ k < (count <<< countShift w).toNat,
      p = mtags (if eflagsDf eflags = 0 then dst else dst - count <<< countShift w + 1) k := by
  have width := store.width
  obtain ⟨s',t,run,stored,agree,_⟩ := stores (.plain dst) (tainted tag)
  rw [elements,if_pos rep] at run stored
  rw [analyse_iterations store rep counted] at run
  obtain ⟨s'',run',batch⟩ := stosLoop_wrote (tainted tag) (w := w) (by rcases width with rfl | rfl | rfl | rfl <;> decide)
    (by omega) dst (count <<< countShift w) eflags
  obtain rfl : s' = s'' := by simpa using run.symm.trans run'
  obtain ⟨t',stored',each⟩ := elements_wrote (tainted tag) width count.toNat eflags dst
  obtain rfl : t = t' := by simpa using stored.symm.trans stored'
  simpa only [addr] using covered_of_agree taint batch each agree small ((congrArg _ addr).trans memory)

/-- The second byte of the first element is above where the call going down ends. -/
theorem down_uncovered {ins : Ins} (store : StringStore ins w) (rep : ins.repPrefix) (counted : 0 < count.toNat)
    (wide : w ≠ 1) (down : eflagsDf eflags ≠ 0) {tag : T} (taint : tag ≠ clearedVal) :
    ¬ StoresElements T ins w count eflags := by
  intro stores
  have wider : 1 < w := by
    have width := store.width
    omega
  have second : mtags (elementAddr w eflags 0 (1 / w)) (1 % w) = mtags 0 1 := by
    rw [Nat.div_eq_of_lt wider,Nat.mod_eq_of_lt wider,elementAddr,if_neg down,Nat.zero_mul]
    rfl
  have several : 1 < count.toNat * w := Nat.lt_of_lt_of_le wider (Nat.le_mul_of_pos_left w counted)
  obtain ⟨k,small,same⟩ := prefixed_covers store rep counted taint stores 0 several second (tainted_memory tag (by decide))
  rw [if_neg down] at same
  have address := Place.mem.inj same
  bv_omega

/-- Where the shifted count is short of the elements, the first byte after it is left out. -/
theorem up_uncovered {ins : Ins} (store : StringStore ins w) (rep : ins.repPrefix) (counted : 0 < count.toNat)
    (up : eflagsDf eflags = 0) (short : (count <<< countShift w : BitVec 64).toNat < count.toNat * w) {tag : T}
    (taint : tag ≠ clearedVal) : ¬ StoresElements T ins w count eflags := by
  intro stores
  have after : mtags (elementAddr w eflags (-(count <<< countShift w)) ((count <<< countShift w).toNat / w))
      ((count <<< countShift w).toNat % w) = mtags 0 0 := by
    rw [element_up up]
    generalize count <<< countShift w = len
    rw [mtags_zero,mtags,BitVec.ofNat_toNat,BitVec.setWidth_eq,BitVec.add_comm,BitVec.add_right_neg]
    rfl
  obtain ⟨k,small,same⟩ := prefixed_covers store rep counted taint stores _ short after (tainted_memory tag (by decide))
  rw [if_pos up] at same
  have address := Place.mem.inj same
  bv_omega

/-- A word is less than the element. -/
theorem plain_uncovered {ins : Ins} (store : StringStore ins w) (rep : ins.repPrefix = false) (wide : ¬ w ≤ 2)
    (count eflags : BitVec 64) {tag : T} (taint : tag ≠ clearedVal) : ¬ StoresElements T ins w count eflags := by
  intro stores
  have width := store.width
  obtain ⟨s',t,run,stored,agree,_⟩ := stores (.plain 0) (tainted tag)
  simp only [elements,rep,Bool.false_eq_true,if_false] at run stored
  have first : (iteration ins w count eflags (.plain 0) 0).memorywriteEa = 0 := by
    simp [iteration,elementAddr,Exec.plain]
  rw [forEach_one,analyse_plain store rep,first,Nat.min_eq_right (by omega : 2 ≤ w)] at run
  obtain ⟨s'',run',batch⟩ := copyEach_wrote (mtags 0) (rtags dftRegRax) (s := tainted tag) (n := 2)
    (v := fun _ => tag) (fun _ _ _ _ _ => rfl) (fun _ _ _ _ => nofun) (fun _ _ => trivial)
    (fun k small => ⟨by decide,Nat.lt_trans small (by decide)⟩) fun _ _ => rfl
  obtain rfl : s' = s'' := by simpa [storeElement] using run.symm.trans run'
  obtain ⟨t',stored',each⟩ := elements_wrote (tainted tag) width 1 eflags (Exec.plain 0).memorywriteEa
  obtain rfl : t = t' := by simpa using stored.symm.trans stored'
  have third : mtags (elementAddr w eflags (Exec.plain 0).memorywriteEa (2 / w)) (2 % w) = mtags 0 2 := by
    rw [Nat.div_eq_of_lt (by omega : 2 < w),Nat.mod_eq_of_lt (by omega : 2 < w),elementAddr,Nat.zero_mul]
    simp [Exec.plain]
  obtain ⟨k,small,same⟩ := covered_of_agree taint batch each agree (by omega : 2 < 1 * w)
    ((congrArg _ third).trans (tainted_memory tag (by decide)))
  rw [third] at same
  have numbers := (mtags_inj (by decide : 2 < 2 ^ 64) (by omega)).mp same
  omega

/-- A string store has the effect of its elements if and only if it is of bytes, or goes up in
words or double words that the count's shift does not lose, or stores no more than a word. -/
theorem stores_iff [Nontrivial T] {ins : Ins} (store : StringStore ins w) (counted : 0 < count.toNat) (eflags : BitVec 64) :
    StoresElements T ins w count eflags ↔ Batches ins w count eflags := by
  obtain ⟨tag,taint⟩ := exists_ne (clearedVal : T)
  have width := store.width
  cases rep : ins.repPrefix with
  | false =>
    have word : Batches ins w count eflags ↔ w ≤ 2 := by simp [Batches,rep]
    rw [word]
    refine ⟨fun stores => ?_,fun word => plain_stores store rep word count eflags⟩
    by_contra wide
    exact plain_uncovered store rep wide count eflags taint stores
  | true =>
    have batch : Batches ins w count eflags ↔ w = 1 ∨ eflagsDf eflags = 0 ∧ w ≤ 4 ∧ count.toNat * w < 2 ^ 64 := by
      simp [Batches,rep]
    rw [batch]
    refine ⟨fun stores => ?_,prefixed_stores store rep counted⟩
    by_cases wide : w = 1
    · exact .inl wide
    · refine .inr ?_
      by_cases up : eflagsDf eflags = 0
      · refine ⟨up,?_⟩
        by_contra lost
        refine up_uncovered store rep counted up (count_shift_lt width counted fun small => ?_) taint stores
        exact Nat.le_of_not_lt fun fits => lost ⟨small,fits⟩
      · exact absurd stores (down_uncovered store rep counted wide up taint)

end Runs

/-- `REP STOSW` -/
def repStosw : Ins :=
  ⟨.stosw,[.mem 2,.reg (.gr64 .rdi),.reg (.seg 0),.reg (.gr16 .rax),.reg (.other 0)],fun k => k ≠ 0,.gr64 .rdi,.invalid,
    true,.gr64 .rcx⟩

/-- `STOSD` -/
def stosd : Ins :=
  ⟨.stosd,[.mem 4,.reg (.gr64 .rdi),.reg (.seg 0),.reg (.gr32 .rax),.reg (.other 0)],fun k => k ≠ 0,.gr64 .rdi,.invalid,
    false,.gr64 .rcx⟩

theorem stores_iff_repStosw : StoresElements UInt8 repStosw 2 3 0 := by
  have store : StringStore repStosw 2 := ⟨rfl,by decide⟩
  have : Nontrivial UInt8 := ⟨0,1,by decide⟩
  refine (stores_iff store (by decide) 0).mpr ?_
  exact Or.inr ⟨by decide,by decide,by decide⟩

/-- One double word is stored, and only two of its bytes get a tag. -/
theorem stosd_short : ¬ StoresElements UInt8 stosd 4 1 0 :=
  plain_uncovered ⟨rfl,by decide⟩ rfl (by decide) 1 0 (show (1 : UInt8) ≠ 0 by decide)

end Libdft.Core
