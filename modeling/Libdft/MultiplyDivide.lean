import Libdft.Widening

/-! Multiplication and division with one operand: RAX and RDX are inputs and outputs that the
instruction does not name. -/
namespace Libdft.Core

open TagTraits TagOps TagMap

/-- MUL, DIV, IDIV, or IMUL in its one-operand form, on `w` bytes. -/
structure OneOperand (ins : Ins) (src : WideSource) (w : Nat) : Prop where
  opcode : ins.opcode = .mul ∨ ins.opcode = .div ∨ ins.opcode = .idiv ∨ ins.opcode = .imul ∧ ins.operandIsImplicit 1
  size : w = 2 ∨ w = 4 ∨ w = 8
  operand : match src with
    | .reg r => gprWidth r = some w ∧ ins.operandReg 0 = r ∧ ins.operandIsMemory 0 = false
    | .mem => ∃ rest, ins.operands = .mem w :: rest

/-- What the instruction reads besides its operand: the dividend is in both registers. -/
def implicitInputs : Iclass → List Nat
  | .div | .idiv => [dftRegRax, dftRegRdx]
  | _ => [dftRegRax]

section Run
variable {T : Type} [TagOps T] {s : TagState T} {ins : Ins} {src : WideSource} {exec : Exec}

/-- The operand's tags go into both registers. -/
theorem unitaryEach_wrote (place : Nat → Place) (fits : w ≤ tagsPerGpr) (inside : ∀ k < w, (place k).Inside) {tmp : Nat → T}
    (read : ∀ k < w, s.look (place k) = some (tmp k)) :
    ∃ s' u v, unitaryEach w place s = .ok ((),s') ∧ WroteBoth s s' w (rtags dftRegRdx) u (rtags dftRegRax) v ∧
      ∀ k < w, u k = tagCombine (s.gpr dftRegRdx k) (tmp k) ∧ v k = tagCombine (s.gpr dftRegRax k) (tmp k) := by
  have rdx (k : Nat) (small : k < w) : (rtags dftRegRdx k).Inside := ⟨by decide,Nat.lt_of_lt_of_le small fits⟩
  have rax (k : Nat) (small : k < w) : (rtags dftRegRax k).Inside := ⟨by decide,Nat.lt_of_lt_of_le small fits⟩
  have rows : dftRegRdx ≠ dftRegRax := by decide
  obtain ⟨tmpTag,fetched,tmpEq⟩ := fetchEach_ok place inside read
  obtain ⟨dst1Tag,fetched1,dst1Eq⟩ := fetchEach_ok (s := s) (v := s.gpr dftRegRdx) (rtags dftRegRdx) rdx fun _ _ => rfl
  obtain ⟨dst2Tag,fetched2,dst2Eq⟩ := fetchEach_ok (s := s) (v := s.gpr dftRegRax) (rtags dftRegRax) rax fun _ _ => rfl
  obtain ⟨s',run,wrote⟩ := assignBoth_wrote (s := s) (a := rtags dftRegRdx) (b := rtags dftRegRax)
    (fun i => tagCombine (dst1Tag i) (tmpTag i)) (fun i => tagCombine (dst2Tag i) (tmpTag i))
    (fun j k lt _ same => Nat.ne_of_lt lt (rtags_inj.mp same).2) (fun j k lt _ same => Nat.ne_of_lt lt (rtags_inj.mp same).2)
    (fun j k _ _ same => rows (rtags_inj.mp same).1) rdx rax
  refine ⟨s',_,_,?_,wrote,fun k small => ⟨by rw [dst1Eq k small,tmpEq k small],by rw [dst2Eq k small,tmpEq k small]⟩⟩
  rw [unitaryEach,bind_ok fetched,bind_ok fetched1,bind_ok fetched2,run]

/-- Of the routines for registers the one for words writes RDX first, and then RAX. -/
theorem r2rUnitaryOpw_wrote {row : Nat} (inside : row ≤ grpNum) :
    ∃ s' u v, r2rUnitaryOpw row s = .ok ((),s') ∧ WroteBoth s s' 2 (rtags dftRegRdx) u (rtags dftRegRax) v ∧
      ∀ k < 2, u k = tagCombine (s.gpr dftRegRdx k) (s.gpr row k) ∧ v k = tagCombine (s.gpr dftRegRax k) (s.gpr row k) := by
  have fits (row : Nat) (inside : row ≤ grpNum) (k : Nat) (small : k < 2) : (rtags row k).Inside :=
    ⟨inside,Nat.lt_trans small (by decide)⟩
  have rdx := fits dftRegRdx (by decide)
  have rax := fits dftRegRax (by decide)
  obtain ⟨tmpTag,fetched,tmpEq⟩ := fetchEach_ok (s := s) (v := s.gpr row) (rtags row) (fits row inside) fun _ _ => rfl
  obtain ⟨dst1Tag,fetched1,dst1Eq⟩ := fetchEach_ok (s := s) (v := s.gpr dftRegRdx) (rtags dftRegRdx) rdx fun _ _ => rfl
  obtain ⟨dst2Tag,fetched2,dst2Eq⟩ := fetchEach_ok (s := s) (v := s.gpr dftRegRax) (rtags dftRegRax) rax fun _ _ => rfl
  have bytes (row j k : Nat) (lt : j < k) : rtags row j ≠ rtags row k := fun same => Nat.ne_of_lt lt (rtags_inj.mp same).2
  obtain ⟨t,run,first⟩ := assignEach_wrote (rtags dftRegRdx) (s := s) (fun i => tagCombine (dst1Tag i) (tmpTag i))
    (fun j k lt _ same => absurd same (bytes _ j k lt)) rdx
  obtain ⟨s',run',second⟩ := assignEach_wrote (rtags dftRegRax) (s := t) (fun i => tagCombine (dst2Tag i) (tmpTag i))
    (fun j k lt _ same => absurd same (bytes _ j k lt)) rax
  refine ⟨s',_,_,?_,first.both second,fun k small => ⟨by rw [dst1Eq k small,tmpEq k small],by rw [dst2Eq k small,tmpEq k small]⟩⟩
  rw [r2rUnitaryOpw,bind_ok fetched,bind_ok fetched1,bind_ok fetched2,bind_ok run,run']

theorem analyse_oneOperand (one : OneOperand ins src w) (exec : Exec) :
    (analyse ins exec : Analysis T Unit) = (insUnitaryOp ins).run exec := by
  rcases one.opcode with op | op | op | ⟨op,implicit⟩
  · simp only [analyse,insInspect,op,Iclass.entry]
  · simp only [analyse,insInspect,op,Iclass.entry]
  · simp only [analyse,insInspect,op,Iclass.entry]
  · simp only [analyse,insInspect,op,Iclass.entry,if_pos implicit]

theorem oneOperand_wrote (one : OneOperand ins src w) (user : src.User exec w) :
    ∃ s' u v, analyse ins exec s = .ok ((),s') ∧ WroteBoth s s' w (rtags dftRegRdx) u (rtags dftRegRax) v ∧
      ∀ k < w, u k = tagCombine (s.gpr dftRegRdx k) (tagAt s (src.bytes exec k)) ∧
        v k = tagCombine (s.gpr dftRegRax k) (tagAt s (src.bytes exec k)) := by
  have fits : w ≤ tagsPerGpr := by
    rcases one.size with rfl | rfl | rfl <;> decide
  rw [analyse_oneOperand one]
  have operand := one.operand
  cases src with
  | mem =>
    obtain ⟨rest,list⟩ := operand
    have memory : ins.operandIsMemory 0 := by simp [Ins.operandIsMemory,list,Operand.isMemory]
    have size : ins.memoryWriteSize = w := by
      rw [Ins.memoryWriteSize,list]
      rfl
    have routine : (insUnitaryOp ins : Calls T).run exec = unitaryEach w (mtags exec.memoryreadEa) := by
      rw [insUnitaryOp,if_pos memory,size]
      rcases one.size with rfl | rfl | rfl <;> exact run_mCallR _ exec
    rw [routine]
    exact unitaryEach_wrote _ fits (fun _ _ => mtags_inside _) fun k small => user.tagged s small
  | reg r =>
    obtain ⟨width,first,notMemory⟩ := operand
    have inside (k : Nat) (small : k < w) : (rtags (regIndx r) k).Inside :=
      ⟨regIndx_le r,Nat.lt_of_lt_of_le small fits⟩
    rw [insUnitaryOp,if_neg (by simp [notMemory]),first]
    cases r with
    | gr64 g =>
      obtain rfl := Option.some.inj width
      simp only [Reg.isGr64,Reg.isGr32,Reg.isGr16,Bool.false_eq_true,if_false,if_true,run_rCall]
      exact unitaryEach_wrote _ fits inside fun _ _ => rfl
    | gr32 g =>
      obtain rfl := Option.some.inj width
      simp only [Reg.isGr64,Reg.isGr32,Reg.isGr16,Bool.false_eq_true,if_false,if_true,run_rCall]
      exact unitaryEach_wrote _ fits inside fun _ _ => rfl
    | gr16 g =>
      obtain rfl := Option.some.inj width
      simp only [Reg.isGr64,Reg.isGr32,Reg.isGr16,Bool.false_eq_true,if_false,if_true,run_rCall]
      exact r2rUnitaryOpw_wrote (regIndx_le _)
    | lower8 g | upper8 h =>
      obtain rfl := Option.some.inj width
      exact absurd one.size (by decide)
    | invalid | xmm _ | ymm _ | zmm _ | mm _ | st _ | seg _ | other _ => cases width

end Run

section Labels
variable {T : Type} [TagOps T] [TagLabels T] {s : TagState T} {ins : Ins} {src : WideSource} {exec : Exec}

/-- The labels of every byte of every input are in the bytes of its number of both outputs. -/
def KeepsInputs (ins : Ins) (src : WideSource) (w : Nat) (exec : Exec) (s s' : TagState T) : Prop :=
  ∀ i < w, ∀ out ∈ [dftRegRax, dftRegRdx],
    labels (tagAt s (src.bytes exec i)) ⊆ labels (s'.gpr out i) ∧
    ∀ input ∈ implicitInputs ins.opcode, labels (s.gpr input i) ⊆ labels (s'.gpr out i)

/-- Each of the two registers keeps its own labels and gets the operand's; none go from one to the other. -/
structure UnitesOperand (src : WideSource) (w : Nat) (exec : Exec) (s s' : TagState T) : Prop where
  united : ∀ i < w, ∀ out ∈ [dftRegRax, dftRegRdx],
    labels (s'.gpr out i) = labels (s.gpr out i) ∪ labels (tagAt s (src.bytes exec i))
  frame : ∀ p, (∀ i < w, p ≠ rtags dftRegRax i ∧ p ≠ rtags dftRegRdx i) → s'.look p = s.look p

theorem oneOperand_unites (one : OneOperand ins src w) (user : src.User exec w) (s : TagState T) :
    ∃ s', analyse ins exec s = .ok ((),s') ∧ UnitesOperand src w exec s s' := by
  obtain ⟨s',u,v,run,wrote,tags⟩ := oneOperand_wrote (s := s) one user
  have rows : dftRegRdx ≠ dftRegRax := by decide
  refine ⟨s',run,fun i small out member => ?_,fun p outside => ?_⟩
  · rcases List.mem_pair.mp member with rfl | rfl
    · have tag : s'.gpr dftRegRax i = v i := Option.some.inj (wrote.second i small)
      rw [tag,(tags i small).2,labels_combine]
    · have tag : s'.gpr dftRegRdx i = u i :=
        Option.some.inj (wrote.first i small fun j _ same => rows (rtags_inj.mp same).1)
      rw [tag,(tags i small).1,labels_combine]
  · exact wrote.frame p (fun i small => (outside i small).2) fun i small => (outside i small).1

end Labels

/-- `MUL RCX` -/
def mulRcx : Ins := ⟨.mul,[.reg (.gr64 .rcx)],fun _ => false,.invalid,.invalid,false,.invalid⟩

theorem mulRcx_oneOperand : OneOperand mulRcx (.reg (.gr64 .rcx)) 8 := ⟨.inl rfl,.inr (.inr rfl),rfl,rfl,rfl⟩

theorem oneOperand_unites_mulRcx : ∃ s', analyse mulRcx (.plain 0) (rowTainted dftRegRcx) = .ok ((),s') ∧
    UnitesOperand (.reg (.gr64 .rcx)) 8 (.plain 0) (rowTainted dftRegRcx) s' :=
  oneOperand_unites mulRcx_oneOperand trivial (rowTainted dftRegRcx)

/-- The upper half of a product does not get the taint of RAX. -/
theorem mul_loses : ¬ ∀ (ins : Ins) (src : WideSource) (w : Nat) (exec : Exec) (s s' : TagState UInt8),
    OneOperand ins src w → src.User exec w → analyse ins exec s = .ok ((),s') → KeepsInputs ins src w exec s s' := by
  intro claim
  have user : (WideSource.reg (.gr64 .rcx)).User (.plain 0) 8 := trivial
  obtain ⟨s',u,v,run,wrote,tags⟩ := oneOperand_wrote (s := rowTainted dftRegRax) mulRcx_oneOperand user
  have keeps := (claim _ _ _ _ _ s' mulRcx_oneOperand trivial run 0 (by decide) dftRegRdx (by decide)).2 dftRegRax (by decide)
  have clean : s'.gpr dftRegRdx 0 = 0 := by
    have tag := wrote.first 0 (by decide) fun j _ same => absurd (rtags_inj.mp same).1 (by decide)
    rw [(tags 0 (by decide)).1] at tag
    exact Option.some.inj tag
  rw [clean] at keeps
  have lost : Nat.testBit 0 0 = true := keeps (show Nat.testBit 1 0 = true from rfl)
  simp at lost

end Libdft.Core
