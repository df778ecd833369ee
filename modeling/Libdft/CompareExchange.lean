import Libdft.Exchange

/-! Compare and exchange. The first call moves the destination's tags to RAX, the second takes
that back and moves the source's tags to the destination; the values that are compared say
whether there is a second call. -/
namespace Libdft.Core

open TagTraits TagOps TagMap

/-- CMPXCHG with operands of 2, 4 or 8 bytes; memory is only ever the destination. -/
structure CompareExchanges (form : BinaryForm) (ins : Ins) : Prop where
  operands : ExchangeForm form ins
  opcode : ins.opcode.entry = .cmpxchg
  wide : form.width ≠ 1
  notLoad : ∀ dst, form ≠ .load dst

/-- What Pin passes is one machine's: EAX is the low half of RAX, and the memory operand has one
address. -/
structure Exec.Coherent (exec : Exec) : Prop where
  low : (exec.regValue (.gr32 .rax)).setWidth 32 = (exec.regValue (.gr64 .rax)).setWidth 32
  address : exec.memoryreadEa = exec.memorywriteEa

/-- RAX at a width in bytes. -/
def accumulator : Nat → Reg
  | 8 => .gr64 .rax
  | 4 => .gr32 .rax
  | _ => .gr16 .rax

namespace BinaryForm

def accumulatorValue (form : BinaryForm) (exec : Exec) : Nat :=
  (exec.regValue (accumulator form.width)).toNat % 2 ^ (8 * form.width)

def destinationValue (form : BinaryForm) (exec : Exec) : Nat :=
  match form with
  | registers dst _ | load dst => (exec.regValue dst).toNat % 2 ^ (8 * form.width)
  | store _ => exec.memory.load exec.memorywriteEa form.width

/-- The values are the same. -/
def Equal (form : BinaryForm) (exec : Exec) : Prop := form.accumulatorValue exec = form.destinationValue exec

/-- The low 32 bits are. -/
def LowEqual (form : BinaryForm) (exec : Exec) : Prop :=
  form.accumulatorValue exec % 2 ^ 32 = form.destinationValue exec % 2 ^ 32

instance (form : BinaryForm) (exec : Exec) : Decidable (form.Equal exec) := Nat.decEq _ _
instance (form : BinaryForm) (exec : Exec) : Decidable (form.LowEqual exec) := Nat.decEq _ _

theorem Equal.low {form : BinaryForm} {exec : Exec} (equal : form.Equal exec) : form.LowEqual exec :=
  congrArg (· % 2 ^ 32) equal

end BinaryForm

section Values

theorem load_lt (memory : Syscall.Memory) (n : Nat) (addr : BitVec 64) : memory.load addr n < 256 ^ n := by
  induction n generalizing addr with
  | zero => exact Nat.one_pos
  | succ n ih =>
    have byte : (memory addr).toNat < 256 := (memory addr).isLt
    have rest := ih (addr + 1)
    rw [Syscall.Memory.load,Nat.pow_succ]
    omega

theorem load_eight (memory : Syscall.Memory) (addr : BitVec 64) :
    memory.load addr 8 = memory.load addr 4 + 2 ^ 32 * memory.load (addr + 1 + 1 + 1 + 1) 4 := by
  simp only [Syscall.Memory.load]
  omega

theorem setWidth_eq_iff (x y : BitVec 64) (n : Nat) : x.setWidth n = y.setWidth n ↔ x.toNat % 2 ^ n = y.toNat % 2 ^ n := by
  rw [← BitVec.toNat_inj,BitVec.toNat_setWidth,BitVec.toNat_setWidth]

theorem setWidth_ofNat_iff (x : BitVec 64) (m n : Nat) : x.setWidth n = BitVec.ofNat n m ↔ x.toNat % 2 ^ n = m % 2 ^ n := by
  rw [← BitVec.toNat_inj,BitVec.toNat_setWidth,BitVec.toNat_ofNat]

variable {form : BinaryForm} {ins : Ins} {exec : Exec}

/-- Up to 32 bits the comparison is of the whole values. -/
theorem BinaryForm.LowEqual.equal (low : form.LowEqual exec) (small : form.width ≤ 4) : form.Equal exec := by
  have fits : 2 ^ (8 * form.width) ≤ 2 ^ 32 := Nat.pow_le_pow_right (by decide) (by omega)
  have positive : 0 < 2 ^ (8 * form.width) := Nat.two_pow_pos _
  have first : form.accumulatorValue exec < 2 ^ 32 := Nat.lt_of_lt_of_le (Nat.mod_lt _ positive) fits
  have second : form.destinationValue exec < 2 ^ 32 := by
    refine Nat.lt_of_lt_of_le ?_ fits
    cases form with
    | registers dst src | load dst => exact Nat.mod_lt _ positive
    | store src =>
      rw [Nat.pow_mul]
      exact load_lt _ _ _
  rwa [LowEqual,Nat.mod_eq_of_lt first,Nat.mod_eq_of_lt second] at low

end Values

section Routines
variable {T : Type} [TagOps T] {s : TagState T} {a b : Nat → Place}

/-- The destination has the source's tags, and nothing else changed but the scratch row. -/
structure Moved (n : Nat) (dst src : Nat → Place) (s s' : TagState T) : Prop where
  moved : ∀ i < n, s'.look (dst i) = s.look (src i)
  frame : ∀ p, ¬ Scratch p → (∀ i < n, p ≠ dst i) → s'.look p = s.look p

theorem rax_not_scratch (i : Nat) : ¬ Scratch (rtags dftRegRax i) := fun ⟨_,same⟩ => absurd (rtags_inj.mp same).1 (by decide)

/-- What the first call leaves: RAX's tags are in the scratch row, and RAX has the destination's. -/
structure Speculated (saved n : Nat) (dst : Nat → Place) (s t : TagState T) : Prop where
  held : ∀ k < saved, t.look (rtags dftRegHelper1 k) = s.look (rtags dftRegRax k)
  moved : Moved n (rtags dftRegRax) dst s t

theorem cmpxchgFast_speculated (paired : Paired n a b) (fits : n ≤ saved) (inside : saved ≤ tagsPerGpr)
    (tagged : ∀ k < n, (s.look (a k)).isSome) : ∃ t, cmpxchgFast saved n a s = .ok ((),t) ∧ Speculated saved n a s t := by
  have row (row : Nat) (known : row ≤ grpNum) (k : Nat) (small : k < saved) : (rtags row k).Inside :=
    ⟨known,Nat.lt_of_lt_of_le small inside⟩
  obtain ⟨u,run,save⟩ := moveEach_wrote (s := s) (v := s.gpr dftRegRax) (rtags dftRegHelper1) (rtags dftRegRax)
    (fun _ _ lt _ => rtags_apart _ lt) (row dftRegHelper1 (by decide)) (row dftRegRax (by decide)) fun _ _ => rfl
  have same (p : Place) (kept : ¬ Scratch p) : u.look p = s.look p := save.frame p fun k _ => (kept ⟨k,·⟩)
  obtain ⟨t,run',wrote⟩ := moveEach_wrote (s := u) (rtags dftRegRax) a (fun _ _ lt _ => rtags_apart _ lt)
    (fun k small => row dftRegRax (by decide) k (Nat.lt_of_lt_of_le small fits)) (fun k small => (paired.inside k small).1)
    fun k small => (same _ (paired.kept k small).1).trans (look_tagAt (tagged k small))
  refine ⟨t,?_,fun k small => ?_,fun k small => ?_,fun p kept outside => ?_⟩
  · have moves : cmpxchgFast (T := T) saved n a = (do
        (do let saveTags ← fetchEach saved (rtags dftRegRax); assignEach saved (rtags dftRegHelper1) saveTags)
        (do let srcTags ← fetchEach n a; assignEach n (rtags dftRegRax) srcTags)) := by
      simp only [cmpxchgFast,bind_assoc]
    rw [moves,bind_ok run,run']
  · rw [wrote.frame _ fun j _ => fun same => absurd (rtags_inj.mp same).1 (by decide),save.hit k small]
    rfl
  · rw [wrote.hit k small,same _ (rax_not_scratch k),look_tagAt (tagged k small)]
    rfl
  · rw [wrote.frame p outside,same p kept]

/-- The second call finds what the first one saved. -/
theorem cmpxchgSlow_moved {t : TagState T} (paired : Paired n a b) (speculated : Speculated saved n a s t) (fits : n ≤ saved)
    (inside : saved ≤ tagsPerGpr) (tagged : ∀ k < n, (s.look (a k)).isSome ∧ (s.look (b k)).isSome) :
    ∃ s', cmpxchgSlow saved n a b t = .ok ((),s') ∧ Moved n a b s s' := by
  have row (row : Nat) (known : row ≤ grpNum) (k : Nat) (small : k < saved) : (rtags row k).Inside :=
    ⟨known,Nat.lt_of_lt_of_le small inside⟩
  obtain ⟨u,run,restored⟩ := moveEach_wrote (s := t) (v := s.gpr dftRegRax) (rtags dftRegRax) (rtags dftRegHelper1)
    (fun _ _ lt _ => rtags_apart _ lt) (row dftRegRax (by decide)) (row dftRegHelper1 (by decide))
    fun k small => speculated.held k small
  have same (p : Place) (kept : ¬ Scratch p) : u.look p = s.look p := by
    by_cases any : ∃ k < saved, p = rtags dftRegRax k
    · obtain ⟨k,small,rfl⟩ := any
      rw [restored.hit k small]
      rfl
    · rw [restored.frame p fun k small same => any ⟨k,small,same⟩,
        speculated.moved.frame p kept fun k small same => any ⟨k,Nat.lt_of_lt_of_le small fits,same⟩]
  obtain ⟨srcTags,fetched',srcEq⟩ := fetchEach_ok (s := u) b (fun k small => (paired.inside k small).2)
    fun k small => (same _ (paired.kept k small).2).trans (look_tagAt (tagged k small).2)
  obtain ⟨s',run',wrote⟩ := paired.assignFirst u srcTags
  refine ⟨s',?_,fun k small => ?_,fun p kept outside => ?_⟩
  · have moves : cmpxchgSlow (T := T) saved n a b = (do
        (do let saveTags ← fetchEach saved (rtags dftRegHelper1); assignEach saved (rtags dftRegRax) saveTags)
        (do let srcTags ← fetchEach n b; assignEach n a srcTags)) := by
      simp only [cmpxchgSlow,bind_assoc]
    rw [moves,bind_ok run,bind_ok fetched',run']
  · rw [wrote.hit k small,same _ (paired.kept k small).1,look_tagAt (tagged k small).1,look_tagAt (tagged k small).2,srcEq k small]
    rfl
  · rw [wrote.frame p outside,same p kept]

end Routines

section Dispatch
variable {T : Type} [TagOps T] {form : BinaryForm} {ins : Ins} {exec : Exec}

omit [TagOps T] in
/-- The first call, and the second one after it where the answer is yes. -/
theorem run_answered (test : Exec → Analysis T Unit) (answer : Exec → Bool) (fn : Exec → Analysis T Unit) (exec : Exec)
    (p : Prop) [Decidable p] (yes : answer exec ↔ p) :
    (ifThenCall (fun exec => do test exec; return answer exec) fn).run exec = (do test exec; if p then fn exec) := by
  by_cases holds : p
  · simp [yes.mpr holds,holds]
  · simp [Bool.eq_false_iff.mpr (mt yes.mp holds),holds]

/-- All the calls of one execution. -/
theorem analyse_cmpxchg (compares : CompareExchanges form ins) (coherent : exec.Coherent) :
    ∃ saved, form.width ≤ saved ∧ saved ≤ tagsPerGpr ∧ (analyse ins exec : Analysis T Unit) = (do
      cmpxchgFast saved form.width (form.dst exec)
      if form.LowEqual exec then cmpxchgSlow saved form.width (form.dst exec) (form.src exec)) := by
  have wide := compares.wide
  simp only [analyse,insInspect,compares.opcode]
  cases form with
  | load dst => exact absurd rfl (compares.notLoad dst)
  | registers dst src =>
    obtain ⟨same,rest,list,none⟩ := compares.operands.operands
    have general : (gprWidth dst).isSome := compares.operands.general
    have count : ins.memoryOperandCount = 0 := Ins.count_registers list none
    have first : ins.operandReg 0 = dst := Ins.operandReg_first list
    have second : ins.operandReg 1 = src := Ins.operandReg_second list
    rw [insCmpxchgOp,if_pos count,first,second]
    cases dst with
    | gr64 g =>
      cases src with
      | gr64 g' =>
        refine ⟨8,Nat.le_refl 8,by decide,run_answered (fun _ => cmpxchgFast 8 8 (rtags g.row)) _ _ exec _ ?_⟩
        rw [beq_iff_eq,coherent.low,setWidth_eq_iff,BinaryForm.LowEqual]
        show _ ↔ (exec.regValue (.gr64 .rax)).toNat % 2 ^ 64 % 2 ^ 32 = (exec.regValue (.gr64 g)).toNat % 2 ^ 64 % 2 ^ 32
        omega
      | _ => exact absurd same Bool.false_ne_true
    | gr32 g =>
      cases src with
      | gr32 g' =>
        refine ⟨4,Nat.le_refl 4,by decide,run_answered (fun _ => cmpxchgFast 4 4 (rtags g.row)) _ _ exec _ ?_⟩
        rw [beq_iff_eq,setWidth_eq_iff]
        show _ ↔ (exec.regValue (.gr32 .rax)).toNat % 2 ^ 32 % 2 ^ 32 = (exec.regValue (.gr32 g)).toNat % 2 ^ 32 % 2 ^ 32
        omega
      | _ => exact absurd same Bool.false_ne_true
    | gr16 g =>
      cases src with
      | gr16 g' =>
        refine ⟨4,(by decide : 2 ≤ 4),by decide,run_answered (fun _ => cmpxchgFast 4 2 (rtags g.row)) _ _ exec _ ?_⟩
        rw [beq_iff_eq,setWidth_eq_iff]
        show _ ↔ (exec.regValue (.gr16 .rax)).toNat % 2 ^ 16 % 2 ^ 32 = (exec.regValue (.gr16 g)).toNat % 2 ^ 16 % 2 ^ 32
        omega
      | _ => exact absurd same Bool.false_ne_true
    | lower8 g | upper8 h => exact absurd rfl wide
    | invalid | xmm _ | ymm _ | zmm _ | mm _ | st _ | seg _ | other _ => cases general
  | store src =>
    obtain ⟨size,rest,list⟩ := compares.operands.operands
    have general : (gprWidth src).isSome := compares.operands.general
    have count : ins.memoryOperandCount ≠ 0 := Ins.count_store list
    have second : ins.operandReg 1 = src := Ins.operandReg_second list
    rw [insCmpxchgOp,if_neg count,second]
    cases src with
    | gr64 g =>
      refine ⟨8,Nat.le_refl 8,by decide,(run_answered (fun exec => cmpxchgFast 8 8 (mtags exec.memoryreadEa)) (fun exec =>
        (exec.regValue (.gr32 .rax)).setWidth 32 == exec.memory.load32 exec.memoryreadEa) _ exec ((BinaryForm.store (.gr64 g)).LowEqual exec) ?_).trans ?_⟩
      · rw [beq_iff_eq,coherent.low,coherent.address,Syscall.Memory.load32,setWidth_ofNat_iff,BinaryForm.LowEqual]
        show _ ↔ (exec.regValue (.gr64 .rax)).toNat % 2 ^ 64 % 2 ^ 32 = exec.memory.load exec.memorywriteEa 8 % 2 ^ 32
        rw [load_eight]
        omega
      · rw [coherent.address]
        rfl
    | gr32 g =>
      refine ⟨4,Nat.le_refl 4,by decide,(run_answered (fun exec => cmpxchgFast 4 4 (mtags exec.memoryreadEa)) (fun exec =>
        (exec.regValue (.gr32 .rax)).setWidth 32 == exec.memory.load32 exec.memoryreadEa) _ exec ((BinaryForm.store (.gr32 g)).LowEqual exec) ?_).trans ?_⟩
      · rw [beq_iff_eq,coherent.address,Syscall.Memory.load32,setWidth_ofNat_iff,BinaryForm.LowEqual]
        show _ ↔ (exec.regValue (.gr32 .rax)).toNat % 2 ^ 32 % 2 ^ 32 = exec.memory.load exec.memorywriteEa 4 % 2 ^ 32
        omega
      · rw [coherent.address]
        rfl
    | gr16 g =>
      refine ⟨4,(by decide : 2 ≤ 4),by decide,(run_answered (fun exec => cmpxchgFast 4 2 (mtags exec.memoryreadEa)) (fun exec =>
        (exec.regValue (.gr16 .rax)).setWidth 16 == BitVec.ofNat 16 (exec.memory.load exec.memoryreadEa 2)) _ exec ((BinaryForm.store (.gr16 g)).LowEqual exec) ?_).trans ?_⟩
      · rw [beq_iff_eq,coherent.address,setWidth_ofNat_iff,BinaryForm.LowEqual]
        show _ ↔ (exec.regValue (.gr16 .rax)).toNat % 2 ^ 16 % 2 ^ 32 = exec.memory.load exec.memorywriteEa 2 % 2 ^ 32
        have bound := load_lt exec.memory 2 exec.memorywriteEa
        omega
      · rw [coherent.address]
        rfl
    | lower8 g | upper8 h => exact absurd rfl wide
    | invalid | xmm _ | ymm _ | zmm _ | mm _ | st _ | seg _ | other _ => cases general

/-- What the calls leave: the values' low 32 bits decide. -/
theorem analyse_moved (compares : CompareExchanges form ins) (coherent : exec.Coherent) (readable : form.Readable exec)
    (s : TagState T) : ∃ s', analyse ins exec s = .ok ((),s') ∧
      if form.LowEqual exec then Moved form.width (form.dst exec) (form.src exec) s s'
      else Moved form.width (rtags dftRegRax) (form.dst exec) s s' := by
  have paired := compares.operands.paired exec
  have tagged := (form.readable_iff s exec).mp readable
  obtain ⟨saved,fits,inside,calls⟩ := analyse_cmpxchg (T := T) compares coherent
  obtain ⟨t,run,speculated⟩ := cmpxchgFast_speculated paired fits inside fun k small => (tagged k small).1
  rw [calls]
  by_cases low : form.LowEqual exec
  · obtain ⟨s',run',moved⟩ := cmpxchgSlow_moved paired speculated fits inside tagged
    refine ⟨s',?_,by rwa [if_pos low]⟩
    rw [bind_ok run,if_pos low]
    exact run'
  · refine ⟨t,?_,by rw [if_neg low]; exact speculated.moved⟩
    rw [bind_ok run,if_neg low]
    rfl

end Dispatch

section Outcome
variable {T : Type} [TagOps T] {form : BinaryForm} {ins : Ins} {exec : Exec} {s : TagState T}

/-- The tags follow the instruction: its destination is written where the values are the same, and RAX
where they are not. -/
def Outcome (form : BinaryForm) (exec : Exec) (s s' : TagState T) : Prop :=
  if form.Equal exec then Moved form.width (form.dst exec) (form.src exec) s s'
  else Moved form.width (rtags dftRegRax) (form.dst exec) s s'

/-- RAX is the same as itself. -/
theorem dst_rax (compares : CompareExchanges form ins) (differ : ¬ form.Equal exec) (i j : Nat) :
    form.dst exec i ≠ rtags dftRegRax j := by
  have general := compares.operands.general
  have wide := compares.wide
  cases form with
  | load dst => exact absurd rfl (compares.notLoad dst)
  | store src => exact mtags_ne_rtags _
  | registers dst src =>
    intro same
    have row : regIndx dst = dftRegRax := (rtags_inj.mp same).1
    have only (g : Gpr) (row : g.row = dftRegRax) : g = .rax := by cases g <;> first | rfl | exact absurd row (by decide)
    apply differ
    cases dst with
    | gr64 g | gr32 g | gr16 g =>
      obtain rfl := only g row
      rfl
    | lower8 g | upper8 h => exact absurd rfl wide
    | invalid | xmm _ | ymm _ | zmm _ | mm _ | st _ | seg _ | other _ => cases general

/-- Moving the source's tags to the destination looks like moving the destination's to RAX if and only if
all three have the same. -/
theorem Moved.turned_iff {n : Nat} {a b : Nat → Place} {s' : TagState T} (moved : Moved n a b s s') (paired : Paired n a b)
    (apart : ∀ i j, a i ≠ rtags dftRegRax j) :
    Moved n (rtags dftRegRax) a s s' ↔
      ∀ i < n, s.look (rtags dftRegRax i) = s.look (a i) ∧ s.look (b i) = s.look (a i) := by
  constructor
  · intro turned i small
    refine ⟨?_,?_⟩
    · rw [← moved.frame _ (rax_not_scratch i) fun j _ => (apart j i).symm,turned.moved i small]
    · rw [← moved.moved i small,turned.frame _ (paired.kept i small).1 fun j _ => apart i j]
  · intro same
    refine ⟨fun i small => ?_,fun p kept _ => ?_⟩
    · rw [moved.frame _ (rax_not_scratch i) fun j _ => (apart j i).symm,(same i small).1]
    · by_cases any : ∃ i < n, p = a i
      · obtain ⟨i,small,rfl⟩ := any
        rw [moved.moved i small,(same i small).2]
      · exact moved.frame p kept fun i small same => any ⟨i,small,same⟩

/-- The calls follow the instruction unless two different 64-bit values have one low half, and then
where RAX, the destination and the source have the same tags. -/
theorem outcome_iff (compares : CompareExchanges form ins) (coherent : exec.Coherent) (readable : form.Readable exec)
    (s : TagState T) : (∃ s', analyse ins exec s = .ok ((),s') ∧ Outcome form exec s s') ↔
      ¬ (form.width = 8 ∧ form.LowEqual exec ∧ ¬ form.Equal exec) ∨
      ∀ i < form.width, s.look (rtags dftRegRax i) = s.look (form.dst exec i) ∧
        s.look (form.src exec i) = s.look (form.dst exec i) := by
  obtain ⟨s',run,moved⟩ := analyse_moved compares coherent readable s
  have result : (∃ s', analyse ins exec s = .ok ((),s') ∧ Outcome form exec s s') ↔ Outcome form exec s s' := by
    refine ⟨?_,fun outcome => ⟨s',run,outcome⟩⟩
    rintro ⟨t,run',outcome⟩
    obtain rfl : t = s' := by simpa using run'.symm.trans run
    exact outcome
  rw [result,Outcome]
  by_cases equal : form.Equal exec
  · rw [if_pos equal.low] at moved
    rw [if_pos equal]
    exact ⟨fun _ => .inl fun truncated => truncated.2.2 equal,fun _ => moved⟩
  rw [if_neg equal]
  by_cases low : form.LowEqual exec
  · rw [if_pos low] at moved
    have wide : form.width = 8 := by
      have sizes := compares.operands.sizes
      have narrow : ¬ form.width ≤ 4 := fun small => equal (low.equal small)
      omega
    rw [moved.turned_iff (compares.operands.paired exec) (dst_rax compares equal),or_iff_right]
    exact fun not => not ⟨wide,low,equal⟩
  · rw [if_neg low] at moved
    exact ⟨fun _ => .inl fun truncated => low truncated.2.1,fun _ => moved⟩

end Outcome

/-- `CMPXCHG RBX, RCX` -/
def cmpxchgRbxRcx : Ins :=
  ⟨.cmpxchg,[.reg (.gr64 .rbx),.reg (.gr64 .rcx),.reg (.gr64 .rax)],fun _ => false,.invalid,.invalid,false,.invalid⟩

/-- RAX is 2^32, and the other registers are zero. -/
def raxExec : Exec := { Exec.plain 0 with regValue := fun r => if r = .gr64 .rax then 0x100000000 else 0 }

theorem cmpxchgRbxRcx_compares : CompareExchanges (.registers (.gr64 .rbx) (.gr64 .rcx)) cmpxchgRbxRcx :=
  ⟨⟨⟨rfl,[.reg (.gr64 .rax)],rfl,rfl⟩,rfl⟩,rfl,by decide,nofun⟩

theorem raxExec_coherent : raxExec.Coherent := ⟨by decide,rfl⟩

theorem outcome_iff_plain : ∃ s', analyse cmpxchgRbxRcx (.plain 0) (rowTainted dftRegRcx) = .ok ((),s') ∧
    Outcome (.registers (.gr64 .rbx) (.gr64 .rcx)) (.plain 0) (rowTainted dftRegRcx) s' :=
  (outcome_iff cmpxchgRbxRcx_compares ⟨rfl,rfl⟩ trivial _).mpr (.inl fun truncated => truncated.2.2 rfl)

/-- RAX and RBX differ above 32 bits, and RBX is given the tags of RCX all the same. -/
theorem cmpxchg_truncates : ¬ ∀ (form : BinaryForm) (ins : Ins) (exec : Exec) (s s' : TagState UInt8),
    CompareExchanges form ins → exec.Coherent → form.Readable exec → analyse ins exec s = .ok ((),s') →
      Outcome form exec s s' := by
  intro claim
  obtain ⟨s',run,moved⟩ := analyse_moved cmpxchgRbxRcx_compares raxExec_coherent trivial (rowTainted dftRegRcx)
  have outcome := claim _ _ _ _ s' cmpxchgRbxRcx_compares raxExec_coherent trivial run
  rw [if_pos (by decide)] at moved
  rw [Outcome,if_neg (by decide)] at outcome
  have tainted := moved.moved 0 (by decide)
  have clean := outcome.frame (regByte (.gr64 .rbx) 0) (gpr_not_scratch rfl 0) fun j _ same =>
    absurd (rtags_inj.mp same).1 (by decide)
  exact absurd (Option.some.inj (tainted.symm.trans clean)) (by decide)

end Libdft.Core
