import Libdft.MemoryMoves

/-! Moves that widen: MOVSX, MOVZX and MOVSXD. The tags of the source are repeated over the
destination. -/
namespace Libdft.Core

open TagTraits TagOps TagMap

/-- Bytes of a general register. -/
def gprWidth : Reg → Option Nat
  | .gr64 _ => some 8
  | .gr32 _ => some 4
  | .gr16 _ => some 2
  | .lower8 _ | .upper8 _ => some 1
  | _ => none

theorem gprWidth_eq {r : Reg} (width : gprWidth r = some n) : n = classWidth r := by
  cases r <;> simp_all [gprWidth,classWidth,Reg.byClass,Reg.isGr64,Reg.isGr32,Reg.isGr16,Reg.isXmm,Reg.isYmm,Reg.isMm]

inductive WideSource where
  | reg (r : Reg)
  | mem

namespace WideSource

def bytes (src : WideSource) (exec : Exec) : Nat → Place :=
  match src with
  | reg r => regByte r
  | mem => mtags exec.memoryreadEa

/-- The operands after the destination, for a source of `n` bytes. -/
def Operand (src : WideSource) (n : Nat) (operands : List Core.Operand) : Prop :=
  match src with
  | reg r => gprWidth r = some n ∧ ∃ rest, operands = .reg r :: rest ∧ rest.countP Operand.isMemory = 0
  | mem => ∃ rest, operands = .mem n :: rest

def User (src : WideSource) (exec : Exec) (n : Nat) : Prop :=
  match src with
  | reg _ => True
  | mem => UserBytes exec.memoryreadEa n

end WideSource

/-- A widening move to `d` bytes from `n` bytes, as the instruction set has them. -/
structure Widens (ins : Ins) (dst : Reg) (src : WideSource) (d n : Nat) : Prop where
  opcode : ins.opcode.entry = .movsx ∧ (d, n) ∈ [(2,1),(4,1),(8,1),(4,2),(8,2)] ∨
    ins.opcode.entry = .movsxd ∧ (d, n) ∈ [(8,4),(4,4)]
  width : gprWidth dst = some d
  operands : ∃ rest, ins.operands = .reg dst :: rest ∧ src.Operand n rest

section Routines
variable {T : Type} [TagOps T] {s : TagState T}

theorem repeatTag_wrote {row : Nat} (place : Place) (inside : row ≤ grpNum) (fits : n ≤ tagsPerGpr) (there : place.Inside)
    {tag : T} (read : s.look place = some tag) :
    ∃ s', repeatTag n row place s = .ok ((),s') ∧ Wrote s s' n (rtags row) fun _ => tag := by
  obtain ⟨s',run,wrote⟩ := assignEach_wrote (rtags row) (fun _ => tag) (s := s) (n := n) (fun _ _ _ _ _ => rfl)
    fun k small => ⟨inside,Nat.lt_of_lt_of_le small fits⟩
  refine ⟨s',?_,wrote⟩
  rw [repeatTag,bind_ok (fetch_ok there read),run]

/-- The tags of `n` bytes, over and over; each is read from its place when it is needed. -/
theorem copyEach_repeat {row : Nat} (src : Nat → Place) (positive : 0 < n) (inside : row ≤ grpNum) (fits : d ≤ tagsPerGpr)
    (fresh : ∀ j k, rtags row j = src k → j = k) (there : ∀ k < n, (src k).Inside) {v : Nat → T}
    (read : ∀ k < n, s.look (src k) = some (v k)) :
    ∃ s', copyEach d (rtags row) (fun i => src (i % n)) s = .ok ((),s') ∧ Wrote s s' d (rtags row) fun i => v (i % n) := by
  refine copyEach_wrote (rtags row) (fun i => src (i % n)) ?_ ?_ (fun k small => ⟨inside,Nat.lt_of_lt_of_le small fits⟩)
    (fun k _ => there _ (Nat.mod_lt k positive)) fun k _ => read _ (Nat.mod_lt k positive)
  · intro j k _ _ same
    rw [(rtags_inj.mp same).2]
  · intro j k _ _ same
    rw [fresh j (k % n) same,Nat.mod_mod]

theorem repeatTags_wrote {row : Nat} (addr : BitVec 64) (positive : 0 < n) (inside : row ≤ grpNum) (fits : d ≤ tagsPerGpr)
    {v : Nat → T} (read : ∀ k < n, s.look (mtags addr k) = some (v k)) :
    ∃ s', repeatTags d n row addr s = .ok ((),s') ∧ Wrote s s' d (rtags row) fun i => v (i % n) := by
  obtain ⟨tags,fetched,same⟩ := fetchEach_ok (mtags addr) (fun _ _ => mtags_inside addr) read
  have phase : (fun i => tags (i % n)) = fun i => v (i % n) := funext fun i => same _ (Nat.mod_lt i positive)
  obtain ⟨s',run,wrote⟩ := assignEach_wrote (rtags row) (fun i => tags (i % n)) (s := s) (n := d)
    (fun j k _ _ same => by rw [(rtags_inj.mp same).2]) fun k small => ⟨inside,Nat.lt_of_lt_of_le small fits⟩
  refine ⟨s',?_,phase ▸ wrote⟩
  rw [repeatTags,bind_ok fetched,run]

/-- The routines for a source of `n` bytes, more than one, and `m` bytes of a row. -/
def WideSource.repeatCall (src : WideSource) (m n row : Nat) (exec : Exec) : Analysis T Unit :=
  match src with
  | reg r => copyEach m (rtags row) fun i => regByte r (i % n)
  | mem => repeatTags m n row exec.memoryreadEa

end Routines

/-! The calls of an instruction. -/

section Dispatch
variable {T : Type} [TagOps T] {ins : Ins} {dst : Reg} {d n : Nat}

theorem Widens.of_movsx {src : WideSource} (widens : Widens ins dst src d n) (small : n < 4) :
    ins.opcode.entry = .movsx ∧ (n = 1 ∨ n = 2 ∧ dst.isGr16 = false) ∧ (dst.isGr16 ∨ dst.isGr32 ∨ dst.isGr64) := by
  obtain ⟨opcode,width,_⟩ := widens
  rcases opcode with ⟨movsx,form⟩ | ⟨_,form⟩
  · refine ⟨movsx,?_⟩
    cases dst <;> simp_all [gprWidth,Reg.isGr16,Reg.isGr32,Reg.isGr64] <;> omega
  · simp only [List.mem_cons,Prod.mk.injEq,List.not_mem_nil,or_false] at form
    omega

theorem memoryWriteSize_second {rest : List Operand} (list : ins.operands = .reg dst :: .mem n :: rest) : ins.memoryWriteSize = n := by
  rw [Ins.memoryWriteSize,list]
  rfl

theorem analyse_movsxByte {src : WideSource} (widens : Widens ins dst src d 1) (exec : Exec) :
    (analyse ins exec : Analysis T Unit) = repeatTag d (regIndx dst) (src.bytes exec 0) := by
  obtain ⟨movsx,_,general⟩ := widens.of_movsx (by decide)
  obtain ⟨rest,list,operand⟩ := widens.operands
  have width := widens.width
  have first : ins.operandReg 0 = dst := Ins.operandReg_first list
  cases src with
  | reg r =>
    obtain ⟨byte,rest,rfl,none⟩ := operand
    have count : ins.memoryOperandCount = 0 := Ins.count_registers list none
    have second : ins.operandReg 1 = r := Ins.operandReg_second list
    simp only [analyse,insInspect,movsx,insMovsxOp,if_pos count,first,second]
    cases dst <;> cases r <;> simp_all [gprWidth,Reg.isGr16,Reg.isGr32,Reg.isGr64,Reg.isUpper8] <;> subst width <;> rfl
  | mem =>
    obtain ⟨rest,rfl⟩ := operand
    have count : ins.memoryOperandCount ≠ 0 := Ins.count_load list
    have size := memoryWriteSize_second list
    simp only [analyse,insInspect,movsx,insMovsxOp,if_neg count,first,size]
    simp only [WideSource.bytes,mtags_zero]
    cases dst <;> simp_all [gprWidth,Reg.isGr16,Reg.isGr32,Reg.isGr64] <;> subst width <;> rfl

theorem analyse_movsxWord {src : WideSource} (widens : Widens ins dst src d 2) (exec : Exec) :
    (analyse ins exec : Analysis T Unit) = src.repeatCall d 2 (regIndx dst) exec := by
  obtain ⟨movsx,wide,general⟩ := widens.of_movsx (by decide)
  obtain ⟨rest,list,operand⟩ := widens.operands
  have width := widens.width
  have first : ins.operandReg 0 = dst := Ins.operandReg_first list
  cases src with
  | reg r =>
    obtain ⟨word,rest,rfl,none⟩ := operand
    have count : ins.memoryOperandCount = 0 := Ins.count_registers list none
    have second : ins.operandReg 1 = r := Ins.operandReg_second list
    simp only [analyse,insInspect,movsx,insMovsxOp,if_pos count,first,second]
    cases dst <;> cases r <;> simp_all [gprWidth,Reg.isGr16,Reg.isGr32,Reg.isGr64] <;> subst width <;> rfl
  | mem =>
    obtain ⟨rest,rfl⟩ := operand
    have count : ins.memoryOperandCount ≠ 0 := Ins.count_load list
    have size := memoryWriteSize_second list
    simp only [analyse,insInspect,movsx,insMovsxOp,if_neg count,first,size]
    cases dst <;> simp_all [gprWidth,Reg.isGr16,Reg.isGr32,Reg.isGr64] <;> subst width <;> rfl

/-- The calls for MOVSXD: a transfer for every destination that is not of 8 bytes, and the one that repeats. -/
theorem analyse_movsxd {src : WideSource} (widens : Widens ins dst src d 4) (exec : Exec) :
    (analyse ins exec : Analysis T Unit) = (do
      if d = 4 then copyEach 4 (rtags (regIndx dst)) (src.bytes exec)
      src.repeatCall 8 4 (regIndx dst) exec) := by
  obtain ⟨opcode,width,rest,list,operand⟩ := widens
  have movsxd : ins.opcode.entry = .movsxd ∧ (d = 8 ∨ d = 4) := by
    rcases opcode with ⟨_,form⟩ | ⟨movsxd,form⟩
    · simp at form
    · exact ⟨movsxd,by simpa using form⟩
  have first : ins.operandReg 0 = dst := Ins.operandReg_first list
  have general : (∃ g, dst = .gr64 g) ∧ d = 8 ∨ (∃ g, dst = .gr32 g) ∧ d = 4 := by
    cases dst <;> simp_all [gprWidth] <;> omega
  cases src with
  | reg r =>
    obtain ⟨long,rest,rfl,none⟩ := operand
    have count : ins.memoryOperandCount = 0 := Ins.count_registers list none
    have second : ins.operandReg 1 = r := Ins.operandReg_second list
    obtain ⟨g',rfl⟩ : ∃ g, r = .gr32 g := by cases r <;> simp_all [gprWidth]
    rcases general with ⟨⟨g,rfl⟩,rfl⟩ | ⟨⟨g,rfl⟩,rfl⟩
    · simp only [analyse,insInspect,movsxd.1,insMovsxdOp,if_pos count,first,second,Reg.isGr64,if_true,List.nil_append,run_r2rCall]
      rfl
    · simp only [analyse,insInspect,movsxd.1,insMovsxdOp,insXferOp,if_pos count,first,second,Reg.isGr64,Bool.false_eq_true,
        if_false,if_true,run_append,run_r2rCall]
      rfl
  | mem =>
    obtain ⟨rest,rfl⟩ := operand
    have count : ins.memoryOperandCount ≠ 0 := Ins.count_load list
    have memory : ins.operandIsMemory 1 := Ins.memory_second list
    rcases general with ⟨⟨g,rfl⟩,rfl⟩ | ⟨⟨g,rfl⟩,rfl⟩
    · simp only [analyse,insInspect,movsxd.1,insMovsxdOp,if_neg count,first,Reg.isGr64,if_true,List.nil_append,run_m2rCall]
      rfl
    · simp only [analyse,insInspect,movsxd.1,insMovsxdOp,insXferOp,if_neg count,if_pos memory,first,Reg.isGr64,Bool.false_eq_true,
        if_false,if_true,run_append,run_m2rCall]
      rfl

/-! What the calls wrote. -/

section Wrote
variable {exec : Exec} {s : TagState T}

theorem Widens.inside {src : WideSource} (widens : Widens ins dst src d n) (exec : Exec) {k : Nat} (small : k < n) :
    (src.bytes exec k).Inside := by
  obtain ⟨rest,list,operand⟩ := widens.operands
  cases src with
  | reg r => exact regByte_inside r (gprWidth_eq operand.1 ▸ small)
  | mem => exact mtags_inside _

theorem Widens.read {src : WideSource} (_ : Widens ins dst src d n) (user : src.User exec n) {k : Nat} (small : k < n) :
    s.look (src.bytes exec k) = some (tagAt s (src.bytes exec k)) := by
  cases src with
  | reg r => exact look_tagAt rfl
  | mem => exact user.tagged s small

/-- A byte of a source of more than one byte is the destination's byte of the same number, if it is one. -/
theorem Widens.fresh {src : WideSource} (widens : Widens ins dst src d n) (wide : n ≠ 1) (exec : Exec) {j k : Nat}
    (same : rtags (regIndx dst) j = src.bytes exec k) : j = k := by
  obtain ⟨rest,list,operand⟩ := widens.operands
  cases src with
  | mem => exact absurd same (rtags_ne_mtags _)
  | reg r =>
    have lower : r.isUpper8 = false := by
      have width := operand.1
      cases r <;> first | rfl | exact absurd (Option.some.inj width).symm wide
    simpa [WideSource.bytes,regByte,lower,rtags_inj] using (rtags_inj.mp same).2

theorem Widens.fits {src : WideSource} (widens : Widens ins dst src d n) : d ≤ tagsPerGpr :=
  gprWidth_eq widens.width ▸ classWidth_le dst

/-- The repeating call of a source of more than one byte. -/
theorem Widens.repeats {src : WideSource} (widens : Widens ins dst src d n) (wide : n ≠ 1) (positive : 0 < n) (fits : m ≤ tagsPerGpr)
    {v : Nat → T} (read : ∀ k < n, s.look (src.bytes exec k) = some (v k)) :
    ∃ s', src.repeatCall m n (regIndx dst) exec s = .ok ((),s') ∧
      Wrote s s' m (rtags (regIndx dst)) fun i => v (i % n) := by
  cases src with
  | reg r =>
    exact copyEach_repeat (regByte r) positive (regIndx_le dst) fits (fun j k same => widens.fresh wide exec same)
      (fun k small => widens.inside exec small) read
  | mem => exact repeatTags_wrote exec.memoryreadEa positive (regIndx_le dst) fits read

/-- MOVSXD writes 8 bytes, whatever its destination. -/
theorem widens_wrote {src : WideSource} (widens : Widens ins dst src d n) (user : src.User exec n) :
    ∃ s', analyse ins exec s = .ok ((),s') ∧
      Wrote s s' (if n = 4 then 8 else d) (rtags (regIndx dst)) fun i => tagAt s (src.bytes exec (i % n)) := by
  have read (k : Nat) (small : k < n) := widens.read (s := s) user small
  have sizes : n = 1 ∨ n = 2 ∨ n = 4 ∧ (d = 4 ∨ d = 8) := by
    rcases widens.opcode with ⟨_,form⟩ | ⟨_,form⟩ <;>
      simp only [List.mem_cons,Prod.mk.injEq,List.not_mem_nil,or_false] at form <;> omega
  rcases sizes with rfl | rfl | ⟨rfl,rfl | rfl⟩
  · rw [analyse_movsxByte widens,if_neg (by decide)]
    have single : (fun i => tagAt s (src.bytes exec (i % 1))) = fun _ => tagAt s (src.bytes exec 0) :=
      funext fun i => by rw [Nat.mod_one]
    rw [single]
    exact repeatTag_wrote _ (regIndx_le dst) widens.fits (widens.inside exec Nat.one_pos) (read 0 Nat.one_pos)
  · rw [analyse_movsxWord widens,if_neg (by decide)]
    exact widens.repeats (by decide) (by decide) widens.fits read
  · rw [analyse_movsxd widens,if_pos rfl,if_pos rfl]
    have phase : (copyEach 4 (rtags (regIndx dst)) (src.bytes exec) : Analysis T Unit) =
        copyEach 4 (rtags (regIndx dst)) fun i => src.bytes exec (i % 4) :=
      forEach_congr fun k small => by simp only [Nat.mod_eq_of_lt small]
    obtain ⟨t,moved,first⟩ := copyEach_repeat (d := 4) (src.bytes exec) (by decide) (regIndx_le dst) (by decide)
      (fun j k same => widens.fresh (by decide) exec same) (fun k small => widens.inside exec small) read
    have again (k : Nat) (small : k < 4) : t.look (src.bytes exec k) = some (tagAt s (src.bytes exec k)) := by
      by_cases own : rtags (regIndx dst) k = src.bytes exec k
      · rw [← own,first.hit k small,Nat.mod_eq_of_lt small,own,read k small]
        rfl
      · rw [first.frame,read k small]
        intro j _ same
        obtain rfl := widens.fresh (by decide) exec same.symm
        exact own same.symm
    obtain ⟨s',repeated,second⟩ := widens.repeats (m := 8) (by decide) (by decide) (by decide) again
    refine ⟨s',?_,first.rewritten second (by decide)⟩
    rw [phase,bind_ok moved]
    exact repeated
  · rw [analyse_movsxd widens,if_pos rfl,if_neg (by decide)]
    obtain ⟨s',repeated,wrote⟩ := widens.repeats (m := 8) (by decide) (by decide) (by decide) read
    exact ⟨s',repeated,wrote⟩

/-- The source's tags are repeated over the destination, and no other tag changes. -/
structure Replicates (dst : Reg) (src : WideSource) (d n : Nat) (exec : Exec) (s s' : TagState T) : Prop where
  repeated : ∀ i < d, s'.look (rtags (regIndx dst) i) = s.look (src.bytes exec (i % n))
  frame : ∀ p, (∀ i < d, p ≠ rtags (regIndx dst) i) → s'.look p = s.look p

/-- A widening move replicates the source's tags if and only if it is no MOVSXD to a destination of 4
bytes, or the 4 bytes above had the tags of the source. -/
theorem replicates_iff {src : WideSource} (widens : Widens ins dst src d n) (user : src.User exec n) (s : TagState T) :
    ∃ s', analyse ins exec s = .ok ((),s') ∧ (Replicates dst src d n exec s s' ↔
      (d = 4 → n = 4 → ∀ i < 4, s.look (rtags (regIndx dst) (4 + i)) = s.look (src.bytes exec i))) := by
  obtain ⟨s',run,wrote⟩ := widens_wrote (s := s) widens user
  refine ⟨s',run,?_⟩
  have positive : 0 < n := by
    rcases widens.opcode with ⟨_,form⟩ | ⟨_,form⟩ <;>
      simp only [List.mem_cons,Prod.mk.injEq,List.not_mem_nil,or_false] at form <;> omega
  have hit (i : Nat) (small : i < if n = 4 then 8 else d) :
      s'.look (rtags (regIndx dst) i) = s.look (src.bytes exec (i % n)) := by
    rw [wrote.hit i small,widens.read (s := s) user (Nat.mod_lt i positive)]
    rfl
  by_cases narrow : d = 4 ∧ n = 4
  · obtain ⟨rfl,rfl⟩ := narrow
    simp only [if_true,forall_const] at hit wrote ⊢
    constructor
    · intro replicates i small
      have kept := replicates.frame (rtags (regIndx dst) (4 + i)) fun j below same => by
        have := (rtags_inj.mp same).2
        omega
      rw [← kept,hit (4 + i) (by omega),Nat.add_mod_left,Nat.mod_eq_of_lt small]
    · intro above
      refine ⟨fun i small => hit i (by omega),fun p apart => ?_⟩
      by_cases upper : ∃ i < 4, p = rtags (regIndx dst) (4 + i)
      · obtain ⟨i,small,rfl⟩ := upper
        rw [hit (4 + i) (by omega),Nat.add_mod_left,Nat.mod_eq_of_lt small,above i small]
      · apply wrote.frame
        rintro i small rfl
        by_cases low : i < 4
        · exact apart i low rfl
        · exact upper ⟨i - 4,by omega,by rw [Nat.add_sub_cancel' (Nat.le_of_not_lt low)]⟩
  · have width : (if n = 4 then 8 else d) = d := by
      rcases widens.opcode with ⟨_,form⟩ | ⟨_,form⟩ <;>
        simp only [List.mem_cons,Prod.mk.injEq,List.not_mem_nil,or_false] at form <;> split <;> omega
    rw [width] at hit wrote
    exact iff_of_true ⟨hit,wrote.frame⟩ fun four four' => absurd ⟨four,four'⟩ narrow

end Wrote

end Dispatch

/-- `MOVZX EAX, AH` -/
def movzxEaxAh : Ins := ⟨.movzx,[.reg (.gr32 .rax),.reg (.upper8 .ah)],fun _ => false,.invalid,.invalid,false,.invalid⟩

/-- `MOVSXD EAX, ECX` -/
def movsxdEaxEcx : Ins := ⟨.movsxd,[.reg (.gr32 .rax),.reg (.gr32 .rcx)],fun _ => false,.invalid,.invalid,false,.invalid⟩

theorem replicates_iff_movzxEaxAh : ∃ s', analyse movzxEaxAh (.plain 0) (rowTainted dftRegRax) = .ok ((),s') ∧
    Replicates (.gr32 .rax) (.reg (.upper8 .ah)) 4 1 (.plain 0) (rowTainted dftRegRax) s' := by
  have widens : Widens movzxEaxAh (.gr32 .rax) (.reg (.upper8 .ah)) 4 1 :=
    ⟨.inl ⟨rfl,by decide⟩,rfl,_,rfl,rfl,[],rfl,rfl⟩
  obtain ⟨s',run,replicates⟩ := replicates_iff widens trivial (rowTainted dftRegRax)
  exact ⟨s',run,replicates.mpr fun _ four => absurd four (by decide)⟩

/-- The upper half of RAX is tainted with ECX. -/
theorem movsxd_overwrites : ¬ ∀ (ins : Ins) (dst : Reg) (src : WideSource) (d n : Nat) (exec : Exec) (s s' : TagState UInt8),
    Widens ins dst src d n → src.User exec n → analyse ins exec s = .ok ((),s') → Replicates dst src d n exec s s' := by
  intro claim
  have widens : Widens movsxdEaxEcx (.gr32 .rax) (.reg (.gr32 .rcx)) 4 4 :=
    ⟨.inr ⟨rfl,by decide⟩,rfl,_,rfl,rfl,[],rfl,rfl⟩
  have user : (WideSource.reg (.gr32 .rcx)).User (.plain 0) 4 := trivial
  obtain ⟨s',run,wrote⟩ := widens_wrote (s := rowTainted dftRegRcx) widens user
  have kept := (claim _ _ _ _ _ _ _ s' widens trivial run).frame (rtags dftRegRax 4) (by decide)
  rw [show rtags dftRegRax 4 = rtags (regIndx (.gr32 .rax)) 4 from rfl,wrote.hit 4 (by decide)] at kept
  exact absurd kept (by decide)

end Libdft.Core
