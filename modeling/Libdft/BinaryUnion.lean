import Libdft.InsInspect
import Libdft.Triple
import Mathlib.Data.Finset.Lattice.Basic

/-! Two-operand instructions that unite the tags of their operands. A tag is read as a set of
labels, whatever the order of the arguments of `tag_combine`; the forms are those that the
instruction set has, with operands of one class. -/
namespace Libdft.Core

open TagTraits TagOps TagMap

/-- What a tag stands for. -/
class TagLabels (T : Type) [TagOps T] where
  Label : Type
  labels : T → Set Label
  labels_combine (a b : T) : labels (tagCombine a b) = labels a ∪ labels b

export TagLabels (labels labels_combine)

/-- Each bit of a byte is a label. -/
instance : TagLabels UInt8 where
  Label := Nat
  labels tag := { bit | tag.toNat.testBit bit }
  labels_combine a b := by
    ext bit
    simp [tagCombine,UInt8.toNat_or,Nat.testBit_or]

instance : TagLabels (Finset (BitVec 32)) where
  Label := BitVec 32
  labels tag := tag
  labels_combine a b := by
    show ((a ∪ b : Finset (BitVec 32)) : Set (BitVec 32)) = _
    simp

/-- Registers that one instruction of this group can have as its operands. -/
def sameClass : Reg → Reg → Bool
  | .gr64 _, .gr64 _ | .gr32 _, .gr32 _ | .gr16 _, .gr16 _ | .xmm _, .xmm _ | .ymm _, .ymm _ | .mm _, .mm _ => true
  | dst, src => dst.isGr8 && src.isGr8

inductive BinaryForm where
  | registers (dst src : Reg)
  | load (dst : Reg)
  | store (src : Reg)

namespace BinaryForm

/-- The register that selects the width. -/
def selector : BinaryForm → Reg
  | registers dst _ => dst
  | load dst => dst
  | store src => src

def width (form : BinaryForm) : Nat := classWidth form.selector

def dst (form : BinaryForm) (exec : Exec) : Nat → Place :=
  match form with
  | registers dst _ | load dst => regByte dst
  | store _ => mtags exec.memorywriteEa

def src (form : BinaryForm) (exec : Exec) : Nat → Place :=
  match form with
  | registers _ src | store src => regByte src
  | load _ => mtags exec.memoryreadEa

/-- The first operands of the instruction; the others are not memory. -/
def Operands (form : BinaryForm) (operands : List Operand) : Prop :=
  match form with
  | registers dst src => sameClass dst src ∧
      ∃ rest, operands = .reg dst :: .reg src :: rest ∧ rest.countP Operand.isMemory = 0
  | load dst => ∃ size rest, operands = .reg dst :: .mem size :: rest
  | store src => ∃ size rest, operands = .mem size :: .reg src :: rest

/-- Memory that has tags. -/
def Readable (form : BinaryForm) (exec : Exec) : Prop :=
  match form with
  | registers _ _ => True
  | load _ => ∀ i < form.width, (exec.memoryreadEa + BitVec.ofNat 64 i).toNat ≤ maxAddr
  | store _ => ∀ i < form.width, (exec.memorywriteEa + BitVec.ofNat 64 i).toNat ≤ maxAddr

end BinaryForm

/-- The opcode sends the form to `ins_binary_op`. Equal registers are a clear for some opcodes,
and those of the last kind have XMM registers. -/
structure Routed (ins : Ins) (form : BinaryForm) : Prop where
  operands : form.Operands ins.operands
  entry : ins.opcode.entry = .binary ∨
    ins.opcode.entry = .binaryUnlessEqual ∧ (∀ dst src, form = .registers dst src → dst ≠ src) ∨
    ins.opcode.entry = .imul ∧ ins.operandIsImplicit 1 = false ∨
    ins.opcode.entry = .binaryThenMov ∧ form.selector.isXmm

section Forms
variable {T : Type} [TagOps T]

theorem r2rBinary_bytes {dst src : Reg} (same : sameClass dst src) :
    (r2rBinary dst src (regIndx dst) (regIndx src) : Analysis T Unit) =
      combineEach (classWidth dst) (regByte dst) (regByte src) := by
  cases dst <;> cases src <;> first | rfl | exact (combineEach_one (regByte _) (regByte _)).symm | cases same

theorem r2rXfer_bytes {dst src : Reg} (same : sameClass dst src) :
    (r2rXfer dst src (regIndx dst) (regIndx src) : Analysis T Unit) =
      copyEach (classWidth dst) (regByte dst) (regByte src) := by
  cases dst <;> cases src <;> first | rfl | exact (copyEach_one (regByte _) (regByte _)).symm | cases same

theorem r2mBinary_bytes (r : Reg) (addr : BitVec 64) :
    (r2mBinary r addr (regIndx r) : Analysis T Unit) = combineEach (classWidth r) (mtags addr) (regByte r) := by
  cases r with
  | gr64 _ | gr32 _ | gr16 _ | xmm _ | ymm _ | mm _ => rfl
  | upper8 _ | invalid | lower8 _ | zmm _ | st _ | seg _ | other _ =>
    refine Eq.trans ?_ (combineEach_one _ _).symm
    rw [mtags_zero]
    rfl

/-- Only the byte forms unite in the other order. -/
theorem m2rBinary_bytes (r : Reg) (addr : BitVec 64) :
    (m2rBinary r (regIndx r) addr : Analysis T Unit) = combineEach (classWidth r) (regByte r) (mtags addr) ∨
      classWidth r = 1 ∧ (m2rBinary r (regIndx r) addr : Analysis T Unit) = m2rBinaryOpb (regByte r 0) addr := by
  cases r with
  | gr64 _ | gr32 _ | gr16 _ | xmm _ | ymm _ | mm _ => exact .inl rfl
  | upper8 _ | invalid | lower8 _ | zmm _ | st _ | seg _ | other _ => exact .inr ⟨rfl,rfl⟩

end Forms

/-! Places of a form: the bytes of the destination are apart, and a byte of the source is at most
the destination's byte of the same number. -/

namespace BinaryForm
variable {form : BinaryForm} {exec : Exec} {ins : Ins}

theorem width_le (form : BinaryForm) : form.width ≤ 32 := classWidth_le _

theorem dst_inj (form : BinaryForm) (exec : Exec) {i j : Nat} (hi : i < form.width) (hj : j < form.width)
    (same : form.dst exec i = form.dst exec j) : i = j := by
  have bound := form.width_le
  cases form with
  | registers dst src => exact (regByte_inj dst i j).mp same
  | load dst => exact (regByte_inj dst i j).mp same
  | store src => exact (mtags_inj (by omega) (by omega)).mp same

theorem src_dst (operands : form.Operands ins.operands) {i j : Nat} (hi : i < form.width) (hj : j < form.width)
    (same : form.src exec i = form.dst exec j) : i = j := by
  cases form with
  | load dst => exact absurd same.symm (rtags_ne_mtags _)
  | store src => exact absurd same (rtags_ne_mtags _)
  | registers dst src =>
    have classes := operands.1
    cases dst <;> cases src <;>
      first
      | exact (rtags_inj.mp same).2
      | exact (Nat.lt_one_iff.mp hi).trans (Nat.lt_one_iff.mp hj).symm
      | cases classes

theorem dst_inside (form : BinaryForm) (exec : Exec) {i : Nat} (hi : i < form.width) : (form.dst exec i).Inside := by
  cases form with
  | registers dst src => exact regByte_inside dst hi
  | load dst => exact regByte_inside dst hi
  | store src => exact mtags_inside _

theorem src_inside (operands : form.Operands ins.operands) (exec : Exec) {i : Nat} (hi : i < form.width) :
    (form.src exec i).Inside := by
  cases form with
  | load dst => exact mtags_inside _
  | store src => exact regByte_inside src hi
  | registers dst src =>
    have same : classWidth dst = classWidth src := by
      have classes := operands.1
      cases dst <;> cases src <;> first | rfl | cases classes
    exact regByte_inside src (same ▸ hi)

/-- Both operands have tags exactly where memory that is read is the user's. -/
theorem readable_iff {T : Type} [TagTraits T] (s : TagState T) (form : BinaryForm) (exec : Exec) :
    form.Readable exec ↔ ∀ i < form.width, (s.look (form.dst exec i)).isSome ∧ (s.look (form.src exec i)).isSome := by
  have memory (a : BitVec 64) : (s.look (.mem a)).isSome ↔ a.toNat ≤ maxAddr := by
    by_cases user : a.toNat ≤ maxAddr
    · simp [TagState.look,getb_user _ user,user]
    · simp [TagState.look,getb_beyond _ (Nat.lt_of_not_le user),user]
  cases form with
  | registers d p => exact ⟨fun _ _ _ => ⟨rfl,rfl⟩,fun _ => trivial⟩
  | load d =>
    exact ⟨fun readable i small => ⟨rfl,(memory _).mpr (readable i small)⟩,
      fun tags i small => (memory _).mp (tags i small).2⟩
  | store p =>
    exact ⟨fun readable i small => ⟨(memory _).mpr (readable i small),rfl⟩,
      fun tags i small => (memory _).mp (tags i small).1⟩

end BinaryForm

section Run
variable {T : Type} [TagOps T] {form : BinaryForm} {ins : Ins} {exec : Exec} {s : TagState T}

/-- The tag at a place that has one. -/
def tagAt (s : TagState T) (p : Place) : T := (s.look p).getD clearedVal

theorem tagAt_eq {p : Place} {tag : T} (read : s.look p = some tag) : tagAt s p = tag := by simp [tagAt,read]

theorem look_tagAt {p : Place} (tagged : (s.look p).isSome) : s.look p = some (tagAt s p) := by
  obtain ⟨tag,read⟩ := Option.isSome_iff_exists.mp tagged
  rw [tagAt_eq read,read]

/-- The tags united, in one order or the other. -/
def United (u old v : T) : Prop := u = tagCombine old v ∨ u = tagCombine v old

/-- `ins_binary_op` alone. -/
theorem insBinaryOp_form (operands : form.Operands ins.operands) (exec : Exec) :
    (insBinaryOp ins).run exec = combineEach (T := T) form.width (form.dst exec) (form.src exec) ∨
      form.width = 1 ∧ ∃ dst, form = .load dst ∧
        (insBinaryOp ins).run exec = m2rBinaryOpb (T := T) (regByte dst 0) exec.memoryreadEa := by
  cases form with
  | registers dst src =>
    obtain ⟨same,rest,list,none⟩ := operands
    have immediate : ¬ ins.operandIsImmediate 1 := by simp [Ins.operandIsImmediate,list]
    have count : ins.memoryOperandCount = 0 := Ins.count_registers list none
    have first : ins.operandReg 0 = dst := Ins.operandReg_first list
    have second : ins.operandReg 1 = src := Ins.operandReg_second list
    rw [insBinaryOp,if_neg immediate,if_pos count,run_r2rCall,first,second,r2rBinary_bytes same]
    exact .inl rfl
  | load dst =>
    obtain ⟨size,rest,list⟩ := operands
    have immediate : ¬ ins.operandIsImmediate 1 := by simp [Ins.operandIsImmediate,list]
    have count : ins.memoryOperandCount ≠ 0 := Ins.count_load list
    have memory : ins.operandIsMemory 1 := Ins.memory_second list
    have first : ins.operandReg 0 = dst := Ins.operandReg_first list
    rw [insBinaryOp,if_neg immediate,if_neg count,if_pos memory,run_m2rCall,first]
    rcases m2rBinary_bytes (T := T) dst exec.memoryreadEa with each | ⟨one,byte⟩
    · exact .inl each
    · exact .inr ⟨one,dst,rfl,byte⟩
  | store src =>
    obtain ⟨size,rest,list⟩ := operands
    have immediate : ¬ ins.operandIsImmediate 1 := by simp [Ins.operandIsImmediate,list]
    have count : ins.memoryOperandCount ≠ 0 := Ins.count_store list
    have memory : ¬ ins.operandIsMemory 1 := by simp [Ins.operandIsMemory,list,Operand.isMemory]
    have second : ins.operandReg 1 = src := Ins.operandReg_second list
    rw [insBinaryOp,if_neg immediate,if_neg count,if_neg memory,run_r2mCall,second,r2mBinary_bytes]
    exact .inl rfl

theorem m2rBinaryOpb_ok {p : Place} {addr : BitVec 64} {old tag : T} (inside : p.Inside) (readDst : s.look p = some old)
    (read : s.look (.mem addr) = some tag) : m2rBinaryOpb p addr s = .ok ((),s.put (tagCombine tag old) p) := by
  rw [m2rBinaryOpb,bind_ok (fetch_ok (p := .mem addr) trivial read),bind_ok (fetch_ok inside readDst),assign_ok inside]

theorem insBinaryOp_united (operands : form.Operands ins.operands) {old v : Nat → T}
    (readDst : ∀ i < form.width, s.look (form.dst exec i) = some (old i))
    (read : ∀ i < form.width, s.look (form.src exec i) = some (v i)) :
    ∃ s' u, (insBinaryOp ins).run exec s = .ok ((),s') ∧ Wrote s s' form.width (form.dst exec) u ∧
      ∀ i, United (u i) (old i) (v i) := by
  have apart (j k : Nat) (lt : j < k) (small : k < form.width) : form.dst exec j ≠ form.dst exec k :=
    fun same => Nat.ne_of_lt lt (form.dst_inj exec (Nat.lt_trans lt small) small same)
  rcases insBinaryOp_form (T := T) operands exec with each | ⟨one,dst,rfl,byte⟩
  · obtain ⟨s',run,wrote⟩ := combineEach_wrote old apart
      (fun j k lt small same => Nat.ne_of_gt lt (BinaryForm.src_dst operands small (Nat.lt_trans lt small) same.symm))
      (fun i small => form.dst_inside exec small) (fun i small => BinaryForm.src_inside operands exec small) readDst read
    exact ⟨s',_,each ▸ run,wrote,fun _ => .inl rfl⟩
  · have zero : 0 < (BinaryForm.load dst).width := one ▸ Nat.one_pos
    have source : s.look (.mem exec.memoryreadEa) = some (v 0) := by
      rw [← mtags_zero]
      exact read 0 zero
    refine ⟨_,fun i => tagCombine (v i) (old i),byte ▸ m2rBinaryOpb_ok (regByte_inside dst zero) (readDst 0 zero) source,?_,
      fun _ => .inr rfl⟩
    rw [one]
    exact Wrote.one s (regByte dst) fun i => tagCombine (v i) (old i)

/-- The transfer that follows the union for some opcodes. -/
theorem movBody_form (operands : form.Operands ins.operands) (isXmm : form.selector.isXmm) (exec : Exec) :
    (movBody ins).run exec = copyEach (T := T) form.width (form.dst exec) (form.src exec) := by
  cases form with
  | registers dst src =>
    obtain ⟨same,rest,list,none⟩ := operands
    have count : ins.memoryOperandCount = 0 := Ins.count_registers list none
    have first : ins.operandReg 0 = dst := Ins.operandReg_first list
    have second : ins.operandReg 1 = src := Ins.operandReg_second list
    have moved : (movBody ins : Calls T) = insXferOp ins := by
      have plain : src.isSeg = false := by
        cases dst <;> cases src <;> first | rfl | cases same
      simp [movBody,Ins.operandIsImmediate,Ins.operandIsReg,Ins.operandReg,list,plain]
    rw [moved,insXferOp,if_pos count,run_r2rCall,first,second,r2rXfer_bytes same]
    rfl
  | load dst =>
    obtain ⟨size,rest,list⟩ := operands
    have count : ins.memoryOperandCount ≠ 0 := Ins.count_load list
    have memory : ins.operandIsMemory 1 := Ins.memory_second list
    have first : ins.operandReg 0 = dst := Ins.operandReg_first list
    have moved : (movBody ins : Calls T) = insXferOp ins := by
      simp [movBody,Ins.operandIsImmediate,Ins.operandIsReg,list]
    rw [moved,insXferOp,if_neg count,if_pos memory,run_m2rCall,first,m2rXfer_bytes]
    rfl
  | store src =>
    obtain ⟨size,rest,list⟩ := operands
    have count : ins.memoryOperandCount ≠ 0 := Ins.count_store list
    have memory : ¬ ins.operandIsMemory 1 := by simp [Ins.operandIsMemory,list,Operand.isMemory]
    have second : ins.operandReg 1 = src := Ins.operandReg_second list
    have moved : (movBody ins : Calls T) = insXferOp ins := by
      have plain : src.isSeg = false := by
        change src.isXmm = true at isXmm
        cases src <;> first | rfl | cases isXmm
      simp [movBody,Ins.operandIsImmediate,Ins.operandIsReg,Ins.operandReg,list,plain]
    rw [moved,insXferOp,if_neg count,if_neg memory,run_r2mCall,second,r2mXfer_bytes]
    rfl

/-- All the calls of one execution: the union, and for some opcodes a transfer after it. -/
theorem analyse_form (routed : Routed ins form) (exec : Exec) :
    (analyse ins exec : Analysis T Unit) = (do
      (insBinaryOp ins).run exec
      if ins.opcode.entry = .binaryThenMov then copyEach form.width (form.dst exec) (form.src exec)) := by
  have equal (unequal : ∀ dst src, form = .registers dst src → dst ≠ src) : ¬ regEq ins := by
    intro eq
    simp only [regEq,Bool.and_eq_true,beq_iff_eq] at eq
    have operands := routed.operands
    cases form with
    | registers dst src =>
      obtain ⟨_,rest,list,_⟩ := operands
      exact unequal dst src rfl (by simpa [Ins.operandReg,list] using eq.2)
    | load dst =>
      obtain ⟨size,rest,list⟩ := operands
      simp [Ins.memoryOperandCount,list,Operand.isMemory] at eq
    | store src =>
      obtain ⟨size,rest,list⟩ := operands
      simp [Ins.memoryOperandCount,list,Operand.isMemory] at eq
  rcases routed.entry with binary | ⟨clears,unequal⟩ | ⟨imul,explicit⟩ | ⟨both,isXmm⟩
  · simp [analyse,insInspect,binary]
  · simp [analyse,insInspect,clears,equal unequal]
  · simp [analyse,insInspect,imul,explicit]
  · simp [analyse,insInspect,both,movBody_form routed.operands isXmm]

end Run

section Union
variable {T : Type} [TagOps T] [TagLabels T] {form : BinaryForm} {ins : Ins}

theorem United.labels_eq {u old v : T} (united : United u old v) : labels u = labels old ∪ labels v := by
  rcases united with rfl | rfl
  · exact labels_combine old v
  · rw [labels_combine,Set.union_comm]

/-- Every byte of the destination has the union of its tag and the source's, and nothing else changed. -/
def Unites (form : BinaryForm) (ins : Ins) (exec : Exec) (s : TagState T) : Prop :=
  ∃ s', analyse ins exec s = .ok ((),s') ∧
    (∀ i < form.width, ∃ old tag new, s.look (form.dst exec i) = some old ∧ s.look (form.src exec i) = some tag ∧
      s'.look (form.dst exec i) = some new ∧ labels new = labels old ∪ labels tag) ∧
    ∀ p, (∀ i < form.width, p ≠ form.dst exec i) → s'.look p = s.look p

/-- For the opcodes that fall through, the destination has no label of its own. -/
def Absorbed (form : BinaryForm) (ins : Ins) (exec : Exec) (s : TagState T) : Prop :=
  ins.opcode.entry = .binaryThenMov → ∀ i < form.width, ∀ old tag, s.look (form.dst exec i) = some old →
    s.look (form.src exec i) = some tag → labels old ⊆ labels tag

/-- What the calls leave: the union, or where a transfer follows the source's labels alone. -/
theorem analyse_labels (routed : Routed ins form) (exec : Exec) {s : TagState T} {old v : Nat → T}
    (readDst : ∀ i < form.width, s.look (form.dst exec i) = some (old i))
    (read : ∀ i < form.width, s.look (form.src exec i) = some (v i)) :
    ∃ s', analyse ins exec s = .ok ((),s') ∧
      (∀ i < form.width, ∃ new, s'.look (form.dst exec i) = some new ∧
        labels new = if ins.opcode.entry = .binaryThenMov then labels (v i) else labels (old i) ∪ labels (v i)) ∧
      ∀ p, (∀ i < form.width, p ≠ form.dst exec i) → s'.look p = s.look p := by
  have operands := routed.operands
  obtain ⟨t,u,run,wrote,united⟩ := insBinaryOp_united operands readDst read
  have hit (i : Nat) (small : i < form.width) : t.look (form.dst exec i) = some (u i) := by
    rw [wrote.hit i small,readDst i small]
    rfl
  rw [analyse_form routed]
  by_cases follows : ins.opcode.entry = .binaryThenMov
  · -- a byte of the source is read after the union, where it may be the destination's own byte
    have source (i : Nat) (small : i < form.width) :
        (t.look (form.src exec i)).isSome ∧ labels (tagAt t (form.src exec i)) = labels (v i) := by
      by_cases own : form.src exec i = form.dst exec i
      · have same : old i = v i := Option.some.inj ((readDst i small).symm.trans (own ▸ read i small))
        rw [own,tagAt_eq (hit i small),(united i).labels_eq,same,Set.union_self,hit i small]
        exact ⟨rfl,rfl⟩
      · have apart (j : Nat) (lt : j < form.width) : form.src exec i ≠ form.dst exec j :=
          fun same => own (BinaryForm.src_dst operands small lt same ▸ same)
        have kept := (wrote.frame _ apart).trans (read i small)
        rw [tagAt_eq kept,kept]
        exact ⟨rfl,rfl⟩
    obtain ⟨s',copied,moved⟩ := copyEach_wrote (form.dst exec) (form.src exec) (s := t) (n := form.width)
      (v := fun i => tagAt t (form.src exec i))
      (fun j k lt small same => absurd (form.dst_inj exec (Nat.lt_trans lt small) small same) (Nat.ne_of_lt lt))
      (fun j k lt small same =>
        absurd (BinaryForm.src_dst operands small (Nat.lt_trans lt small) same.symm) (Nat.ne_of_gt lt))
      (fun i small => form.dst_inside exec small) (fun i small => BinaryForm.src_inside operands exec small)
      fun i small => look_tagAt (source i small).1
    refine ⟨s',?_,fun i small => ⟨tagAt t (form.src exec i),?_,?_⟩,fun p apart => ?_⟩
    · rw [bind_ok run,if_pos follows]
      exact copied
    · rw [moved.hit i small,hit i small]
      rfl
    · rw [if_pos follows,(source i small).2]
    · rw [moved.frame p apart,wrote.frame p apart]
  · refine ⟨t,?_,fun i small => ⟨u i,hit i small,?_⟩,wrote.frame⟩
    · rw [bind_ok run,if_neg follows]
      rfl
    · rw [if_neg follows,(united i).labels_eq]

/-- An instruction unites the tags of its operands if and only if the memory it reads has tags and,
for the opcodes that fall through, the transfer loses nothing. -/
theorem unites_iff (routed : Routed ins form) (exec : Exec) (s : TagState T) :
    Unites form ins exec s ↔ form.Readable exec ∧ Absorbed form ins exec s := by
  constructor
  · rintro ⟨s',run,union,frame⟩
    have readable : form.Readable exec := (form.readable_iff s exec).mpr fun i small => by
      obtain ⟨old,tag,_,readDst,read,_⟩ := union i small
      simp [readDst,read]
    refine ⟨readable,fun follows i small old tag readDst read => ?_⟩
    have places := (form.readable_iff s exec).mp readable
    obtain ⟨t,run',final,_⟩ := analyse_labels routed exec (fun i small => look_tagAt (places i small).1)
      fun i small => look_tagAt (places i small).2
    obtain rfl : t = s' := by simpa using run'.symm.trans run
    obtain ⟨new,newIs,newLabels⟩ := final i small
    obtain ⟨old',tag',new',readDst',read',newIs',union'⟩ := union i small
    obtain rfl : old' = old := Option.some.inj (readDst'.symm.trans readDst)
    obtain rfl : tag' = tag := Option.some.inj (read'.symm.trans read)
    obtain rfl : new' = new := Option.some.inj (newIs'.symm.trans newIs)
    rw [if_pos follows,tagAt_eq read,union'] at newLabels
    exact Set.union_eq_right.mp newLabels
  · rintro ⟨readable,absorbed⟩
    have places := (form.readable_iff s exec).mp readable
    have readDst (i : Nat) (small : i < form.width) := look_tagAt (places i small).1
    have read (i : Nat) (small : i < form.width) := look_tagAt (places i small).2
    obtain ⟨s',run,final,frame⟩ := analyse_labels routed exec readDst read
    refine ⟨s',run,fun i small => ?_,frame⟩
    obtain ⟨new,newIs,newLabels⟩ := final i small
    refine ⟨_,_,new,readDst i small,read i small,newIs,newLabels.trans ?_⟩
    split
    next follows => exact (Set.union_eq_right.mpr (absorbed follows i small _ _ (readDst i small) (read i small))).symm
    next => rfl

end Union

/-- `ADD AH, AL` -/
def addAhAl : Ins := ⟨.add,[.reg (.upper8 .ah),.reg (.lower8 .rax)],fun _ => false,.invalid,.invalid,false,.invalid⟩

/-- `MULSD XMM0, XMM1` -/
def mulsdXmm0Xmm1 : Ins := ⟨.mulsd,[.reg (.xmm 0),.reg (.xmm 1)],fun _ => false,.invalid,.invalid,false,.invalid⟩

/-- Row `row` has tag 1. -/
def rowTainted (row : Nat) : TagState UInt8 := ⟨fun r _ => if r = row then 1 else 0,empty⟩

theorem unites_iff_addAhAl :
    Unites (.registers (.upper8 .ah) (.lower8 .rax)) addAhAl (.plain 0) (rowTainted dftRegRax) := by
  have routed : Routed addAhAl (.registers (.upper8 .ah) (.lower8 .rax)) := ⟨⟨rfl,[],rfl,rfl⟩,Or.inl rfl⟩
  exact (unites_iff routed _ _).mpr ⟨trivial,nofun⟩

/-- The product of a tainted register and a clean one is clean. -/
theorem mulsd_loses : ¬ Unites (.registers (.xmm 0) (.xmm 1)) mulsdXmm0Xmm1 (.plain 0) (rowTainted dftRegXmm0) := by
  have routed : Routed mulsdXmm0Xmm1 (.registers (.xmm 0) (.xmm 1)) :=
    ⟨⟨rfl,[],rfl,rfl⟩,Or.inr (Or.inr (Or.inr ⟨rfl,rfl⟩))⟩
  rintro ⟨s',run,union,_⟩
  have readDst (i : Nat) (_ : i < 16) : (rowTainted dftRegXmm0).look (regByte (.xmm 0) i) = some 1 := rfl
  have read (i : Nat) (_ : i < 16) : (rowTainted dftRegXmm0).look (regByte (.xmm 1) i) = some 0 := rfl
  obtain ⟨t,run',final,_⟩ := analyse_labels routed (.plain 0) readDst read
  obtain rfl : t = s' := by simpa using run'.symm.trans run
  obtain ⟨old,tag,new,readDst,_,newIs,union⟩ := union 0 (by decide)
  obtain ⟨new',newIs',source⟩ := final 0 (by decide)
  obtain rfl : new' = new := Option.some.inj (newIs'.symm.trans newIs)
  obtain rfl : 1 = old := Option.some.inj readDst
  have follows : mulsdXmm0Xmm1.opcode.entry = .binaryThenMov := rfl
  rw [if_pos follows,union] at source
  have lost : Nat.testBit 0 0 = true := source.le (Or.inl (show Nat.testBit 1 0 = true from rfl))
  simp at lost

end Libdft.Core
