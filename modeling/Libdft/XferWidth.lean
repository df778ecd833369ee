import Libdft.Triple
import Libdft.InsInspect

/-! Transfers between one register and one memory operand: the number of tags that move is
chosen by the class of the register, and compared here with the size of the operand. -/
namespace Libdft.Core

open TagTraits TagOps

variable {T : Type} [TagOps T]

inductive Form where
  | store
  | load

def Form.operands (form : Form) (r : Reg) (size : Nat) : List Operand :=
  match form with
  | store => [.mem size,.reg r]
  | load => [.reg r,.mem size]

/-- The opcode sends the form to `ins_xfer_op`. The three that fall through to it load XMM registers. -/
def Form.Sent (form : Form) (entry : Entry) (r : Reg) : Prop :=
  match form with
  | store => entry = .xfer ∨ entry = .mov ∧ r.isSeg = false
  | load => entry = .xfer ∨ entry = .mov ∨ entry = .binaryThenMov ∧ r.isXmm

/-- An instruction with one register and one memory operand. -/
structure Transfers (form : Form) (ins : Ins) (r : Reg) (size : Nat) : Prop where
  sent : form.Sent ins.opcode.entry r
  operands : ∃ rest, ins.operands = form.operands r size ++ rest

/-- The registers after one execution. -/
def regsAfter (ins : Ins) (exec : Exec) (s : TagState T) : Except Fault (Nat → Nat → T) :=
  (analyse ins exec s).map fun result => result.2.gpr

/-- Exactly the operand's bytes: a store writes the register's tags to them and to no other byte,
and what a load leaves in the registers depends on no other byte. -/
def Exact (T : Type) [TagOps T] (form : Form) (ins : Ins) (r : Reg) (size : Nat) : Prop :=
  match form with
  | .store => ∀ (exec : Exec) (s : TagState T), ∃ s', analyse ins exec s = .ok ((),s') ∧
      (∀ a, (∀ i < size, .mem a ≠ mtags exec.memorywriteEa i) → s'.look (.mem a) = s.look (.mem a)) ∧
      ∀ i < size, s'.look (mtags exec.memorywriteEa i) =
        (s.look (mtags exec.memorywriteEa i)).bind fun _ => s.look (regByte r i)
  | .load => ∀ (exec : Exec) (s t : TagState T), s.gpr = t.gpr →
      (∀ i < size, s.look (mtags exec.memoryreadEa i) = t.look (mtags exec.memoryreadEa i)) →
      regsAfter ins exec s = regsAfter ins exec t

/-! The one call that is left of the dispatch. -/

theorem insXferOp_store {ins : Ins} (operands : ins.operands = .mem size :: .reg r :: rest) (exec : Exec) :
    (insXferOp ins : Calls T).run exec = copyEach (classWidth r) (mtags exec.memorywriteEa) (regByte r) := by
  have count : ins.memoryOperandCount ≠ 0 := Ins.count_store operands
  have second : ¬ ins.operandIsMemory 1 := by simp [Ins.operandIsMemory,operands,Operand.isMemory]
  have src : ins.operandReg 1 = r := Ins.operandReg_second operands
  rw [insXferOp,if_neg count,if_neg second,run_r2mCall,src,r2mXfer_bytes]

theorem insXferOp_load {ins : Ins} (operands : ins.operands = .reg r :: .mem size :: rest) (exec : Exec) :
    (insXferOp ins : Calls T).run exec = copyEach (classWidth r) (regByte r) (mtags exec.memoryreadEa) := by
  have count : ins.memoryOperandCount ≠ 0 := Ins.count_load operands
  have second : ins.operandIsMemory 1 := Ins.memory_second operands
  have dst : ins.operandReg 0 = r := Ins.operandReg_first operands
  rw [insXferOp,if_neg count,if_pos second,run_m2rCall,dst,m2rXfer_bytes]

theorem movBody_load {ins : Ins} (operands : ins.operands = .reg r :: .mem size :: rest) :
    (movBody ins : Calls T) = insXferOp ins := by
  simp [movBody,Ins.operandIsImmediate,Ins.operandIsReg,operands]

theorem movBody_store {ins : Ins} (operands : ins.operands = .mem size :: .reg r :: rest) (other : r.isSeg = false) :
    (movBody ins : Calls T) = insXferOp ins := by
  simp [movBody,Ins.operandIsImmediate,Ins.operandIsReg,Ins.operandReg,operands,other]

theorem analyse_store {ins : Ins} (transfers : Transfers .store ins r size) (exec : Exec) :
    (analyse ins exec : Analysis T Unit) = copyEach (classWidth r) (mtags exec.memorywriteEa) (regByte r) := by
  obtain ⟨rest,operands⟩ := transfers.operands
  change ins.operands = .mem size :: .reg r :: rest at operands
  rcases transfers.sent with xfer | ⟨mov,other⟩
  · simp only [analyse,insInspect,xfer]
    exact insXferOp_store operands exec
  · simp only [analyse,insInspect,mov,movBody_store operands other]
    exact insXferOp_store operands exec

def Form.Fits (form : Form) (width size : Nat) : Prop :=
  match form with
  | store => width = size
  | load => width ≤ size

/-! Stores. -/

section Store
variable {ins : Ins} {r : Reg} {size : Nat}

theorem store_wrote (transfers : Transfers .store ins r size) (exec : Exec) (s : TagState T) :
    ∃ s' v, analyse ins exec s = .ok ((),s') ∧ Wrote s s' (classWidth r) (mtags exec.memorywriteEa) v ∧
      ∀ i, s.look (regByte r i) = some (v i) := by
  have small (i : Nat) (lt : i < classWidth r) : i < 2 ^ 64 :=
    Nat.lt_of_lt_of_le lt (Nat.le_trans (classWidth_le r) (by decide))
  rw [analyse_store transfers]
  obtain ⟨s',run,wrote⟩ := copyEach_wrote (mtags exec.memorywriteEa) (regByte r) (s := s)
    (n := classWidth r) (v := fun i => s.gpr (regIndx r) (if r.isUpper8 then 1 + i else i))
    (fun j k lt inside same =>
      absurd ((mtags_inj (small j (Nat.lt_trans lt inside)) (small k inside)).mp same) (Nat.ne_of_lt lt))
    (fun _ _ _ _ => nofun) (fun _ _ => trivial) (fun i lt => regByte_inside r lt) fun _ _ => rfl
  exact ⟨s',_,run,wrote,fun _ => rfl⟩

theorem store_exact (transfers : Transfers .store ins r size) (same : classWidth r = size) : Exact T .store ins r size := by
  intro exec s
  obtain ⟨s',v,run,wrote,tags⟩ := store_wrote transfers exec s
  rw [same] at wrote
  refine ⟨s',run,fun a outside => wrote.frame _ outside,fun i lt => ?_⟩
  rw [wrote.hit i lt,tags i]
  cases s.look (mtags exec.memorywriteEa i) <;> rfl

/-- Registers all tainted with one tag, and memory that has no taint. -/
def tainted (tag : T) : TagState T := ⟨fun _ _ => tag,TagMap.empty⟩

theorem tainted_memory (tag : T) {i : Nat} (small : i < 2 ^ 32) :
    (tainted tag).look (mtags 0 i) = some clearedVal := by
  have value : (0 + BitVec.ofNat 64 i : BitVec 64).toNat = i := by
    show (0#64 + BitVec.ofNat 64 i).toNat = i
    rw [BitVec.zero_add,BitVec.toNat_ofNat]
    omega
  apply TagMap.getb_empty
  rw [value,TagMap.maxAddr]
  omega

/-- The first byte on which the two widths differ is wrong. -/
theorem store_inexact (transfers : Transfers .store ins r size) (differ : classWidth r ≠ size) {tag : T}
    (taint : tag ≠ clearedVal) : ¬ Exact T .store ins r size := by
  intro exact
  have bound := classWidth_le r
  obtain ⟨s',run,outside,inside⟩ := exact (.plain 0) (tainted tag)
  obtain ⟨t,v,run',wrote,tags⟩ := store_wrote transfers (.plain 0) (tainted tag)
  obtain rfl : s' = t := by simpa using run.symm.trans run'
  have apart (i j : Nat) (hi : i ≤ 32) (hj : j ≤ 32) (ne : i ≠ j) : mtags 0 i ≠ mtags 0 j :=
    fun same => ne ((mtags_inj (by omega) (by omega)).mp same)
  rcases Nat.lt_or_gt_of_ne differ with short | long
  · have wrong : s'.look (mtags 0 (classWidth r)) = ((tainted tag).look (mtags 0 (classWidth r))).bind fun _ =>
      (tainted tag).look (regByte r (classWidth r)) := inside (classWidth r) short
    have frame := wrote.frame (mtags 0 (classWidth r)) fun k lt => apart _ k bound (by omega) (Nat.ne_of_gt lt)
    rw [frame,tainted_memory tag (by omega)] at wrong
    exact taint (Option.some.inj wrong).symm
  · have wrong : s'.look (mtags 0 size) = (tainted tag).look (mtags 0 size) :=
      outside (0 + BitVec.ofNat 64 size) fun k lt => apart size k (by omega) (by omega) (Nat.ne_of_gt lt)
    have hit : s'.look (mtags 0 size) = ((tainted tag).look (mtags 0 size)).map fun _ => v size := wrote.hit size long
    have tag' : v size = tag := (Option.some.inj (tags size)).symm
    rw [wrong,tainted_memory tag (by omega),tag'] at hit
    exact taint (Option.some.inj hit).symm

end Store

/-! Loads. -/

section Load
variable {ins : Ins} {r : Reg} {size : Nat}

/-- What a fall-through leaves before the transfer: nothing, or the union of the same bytes. -/
theorem analyse_load {ins : Ins} (transfers : Transfers .load ins r size) (exec : Exec) :
    ∃ before : Analysis T Unit,
      (before = pure () ∨ before = combineEach (classWidth r) (regByte r) (mtags exec.memoryreadEa)) ∧
      analyse ins exec = (do before; copyEach (classWidth r) (regByte r) (mtags exec.memoryreadEa)) := by
  obtain ⟨rest,operands⟩ := transfers.operands
  change ins.operands = .reg r :: .mem size :: rest at operands
  rcases transfers.sent with xfer | mov | ⟨both,isXmm⟩
  · refine ⟨pure (),.inl rfl,?_⟩
    simp only [analyse,insInspect,xfer,pure_bind]
    exact insXferOp_load operands exec
  · refine ⟨pure (),.inl rfl,?_⟩
    simp only [analyse,insInspect,mov,movBody_load operands,pure_bind]
    exact insXferOp_load operands exec
  · refine ⟨_,.inr rfl,?_⟩
    have union : (insBinaryOp ins : Calls T).run exec = combineEach (classWidth r) (regByte r) (mtags exec.memoryreadEa) := by
      have count : ins.memoryOperandCount ≠ 0 := Ins.count_load operands
      have second : ins.operandIsMemory 1 := Ins.memory_second operands
      have immediate : ¬ ins.operandIsImmediate 1 := by simp [Ins.operandIsImmediate,operands]
      have dst : ins.operandReg 0 = r := Ins.operandReg_first operands
      rw [insBinaryOp,if_neg immediate,if_neg count,if_pos second,run_m2rCall,dst]
      cases r with
      | xmm n => rfl
      | invalid | gr64 _ | gr32 _ | gr16 _ | lower8 _ | upper8 _ | ymm _ | zmm _ | mm _ | st _ | seg _ | other _ =>
        cases isXmm
    simp only [analyse,insInspect,both,run_append,movBody_load operands,union]
    rw [insXferOp_load operands exec]

/-- The same registers, and the same tags in the operand's bytes. -/
def SameSource (addr : BitVec 64) (size : Nat) (s t : TagState T) : Prop :=
  s.gpr = t.gpr ∧ ∀ i < size, s.look (mtags addr i) = t.look (mtags addr i)

theorem fetch_parallel {addr : BitVec 64} {p : Place}
    (read : ∀ s t : TagState T, SameSource addr size s t → s.look p = t.look p) :
    Parallel (SameSource addr size) (fetch (T := T) p) := by
  intro s t same
  simp only [fetch,read s t same]
  by_cases inside : p.Inside
  · simp only [if_pos inside]
    cases t.look p with
    | none => rfl
    | some tag => exact ⟨rfl,same⟩
  · simp only [if_neg inside]

theorem assign_parallel {addr : BitVec 64} (row byte : Nat) (tag : T) :
    Parallel (SameSource addr size) (assign (rtags row byte) tag) := by
  intro s t same
  simp only [assign]
  by_cases inside : (rtags row byte).Inside
  · simp only [if_pos inside]
    refine ⟨trivial,?_,fun i small => same.2 i small⟩
    simp only [rtags,TagState.put,same.1]
  · simp only [if_neg inside]

theorem load_exact (transfers : Transfers .load ins r size) (fits : classWidth r ≤ size) : Exact T .load ins r size := by
  intro exec s t registers bytes
  have reg (i : Nat) : Parallel (SameSource exec.memoryreadEa size) (fetch (T := T) (regByte r i)) :=
    fetch_parallel fun s t same => congrArg (fun gpr : Nat → Nat → T => some (gpr _ _)) same.1
  have mem (i : Nat) (small : i < classWidth r) :
      Parallel (SameSource exec.memoryreadEa size) (fetch (T := T) (mtags exec.memoryreadEa i)) :=
    fetch_parallel fun s t same => same.2 i (Nat.lt_of_lt_of_le small fits)
  have copies : Parallel (SameSource exec.memoryreadEa size)
      (copyEach (T := T) (classWidth r) (regByte r) (mtags exec.memoryreadEa)) :=
    .forM fun i small => .bind (mem i (List.mem_range.mp small)) fun tag => assign_parallel _ _ tag
  have unions : Parallel (SameSource exec.memoryreadEa size)
      (combineEach (T := T) (classWidth r) (regByte r) (mtags exec.memoryreadEa)) :=
    .forM fun i small => .bind (reg i) fun _ => .bind (mem i (List.mem_range.mp small)) fun _ => assign_parallel _ _ _
  obtain ⟨before,shape,run⟩ := analyse_load (T := T) transfers exec
  have first : Parallel (SameSource exec.memoryreadEa size) before := by
    rcases shape with rfl | rfl
    · exact .pure ()
    · exact unions
  have outcome := Parallel.bind first (fun _ => copies) s t ⟨registers,bytes⟩
  rw [regsAfter,regsAfter,run]
  revert outcome
  cases (do before; copyEach (classWidth r) (regByte r) (mtags exec.memoryreadEa) : Analysis T Unit) s with
  | error fault =>
    cases (do before; copyEach (classWidth r) (regByte r) (mtags exec.memoryreadEa) : Analysis T Unit) t with
    | error fault' =>
      rintro rfl
      rfl
    | ok result => exact False.elim
  | ok result =>
    cases (do before; copyEach (classWidth r) (regByte r) (mtags exec.memoryreadEa) : Analysis T Unit) t with
    | error fault => exact False.elim
    | ok result' => exact fun outcome => congrArg Except.ok outcome.2.1

/-- Where its bytes can be read, a load puts their tags in the register. -/
theorem load_result (transfers : Transfers .load ins r size) (exec : Exec) {s : TagState T} {v : Nat → T}
    (read : ∀ i < classWidth r, s.look (mtags exec.memoryreadEa i) = some (v i)) :
    ∃ s', analyse ins exec s = .ok ((),s') ∧ ∀ i < classWidth r, s'.look (regByte r i) = some (v i) := by
  have inside (i : Nat) (small : i < classWidth r) := regByte_inside r small
  have apart (j k : Nat) (lt : j < k) : regByte r j ≠ regByte r k :=
    fun same => Nat.ne_of_lt lt ((regByte_inj r j k).mp same)
  have disjoint (j k : Nat) : regByte r j ≠ mtags exec.memoryreadEa k := rtags_ne_mtags _
  have memory (k : Nat) : (mtags exec.memoryreadEa k).Inside := mtags_inside _
  have finish (u : TagState T) (read : ∀ i < classWidth r, u.look (mtags exec.memoryreadEa i) = some (v i)) :
      ∃ s', copyEach (classWidth r) (regByte r) (mtags exec.memoryreadEa) u = .ok ((),s') ∧
        ∀ i < classWidth r, s'.look (regByte r i) = some (v i) := by
    obtain ⟨s',run,wrote⟩ := copyEach_wrote _ _ (fun j k lt _ same => absurd same (apart j k lt))
      (fun j k _ _ same => absurd same (disjoint j k)) inside (fun k _ => memory k) read
    exact ⟨s',run,fun i small => (wrote.hit i small).trans rfl⟩
  obtain ⟨before,shape,run⟩ := analyse_load (T := T) transfers exec
  rw [run]
  rcases shape with rfl | rfl
  · exact finish s read
  · obtain ⟨t,union,wrote⟩ := combineEach_wrote (fun i => s.gpr _ _) (s := s) (fun j k lt _ => apart j k lt)
      (fun j k _ _ => disjoint j k) inside (fun k _ => memory k) (fun _ _ => rfl) read
    obtain ⟨s',copied,tags⟩ := finish t fun i small =>
      (wrote.frame _ fun k _ => (disjoint k i).symm).trans (read i small)
    refine ⟨s',?_,tags⟩
    rw [bind_ok union,copied]

/-- One tainted byte beyond the operand gets into the register. -/
theorem load_inexact (transfers : Transfers .load ins r size) (beyond : size < classWidth r) {tag : T}
    (taint : tag ≠ clearedVal) : ¬ Exact T .load ins r size := by
  intro exact
  have bound := classWidth_le r
  have clean (i : Nat) (small : i < classWidth r) : (tainted (clearedVal : T)).look (mtags 0 i) = some clearedVal :=
    tainted_memory _ (by omega)
  have apart (i : Nat) (small : i < 2 ^ 32) : mtags 0 i = mtags 0 size ↔ i = size :=
    mtags_inj (by omega) (by omega)
  have dirty (i : Nat) (small : i < classWidth r) : ((tainted clearedVal).put tag (mtags 0 size)).look (mtags 0 i) =
      some (if i = size then tag else clearedVal) := by
    rw [TagState.look_put,clean i small]
    simp only [apart i (by omega)]
    split <;> rfl
  obtain ⟨s',run,tags⟩ := load_result transfers (.plain 0) clean
  obtain ⟨t',run',tags'⟩ := load_result transfers (.plain 0) dirty
  have same := exact (.plain 0) (tainted clearedVal) ((tainted clearedVal).put tag (mtags 0 size)) rfl fun i small => by
    refine (clean i (by omega)).trans (.trans ?_ (dirty i (by omega)).symm)
    rw [if_neg (Nat.ne_of_lt small)]
  simp only [regsAfter,run,run',Except.map] at same
  have registers : s'.look (regByte r size) = t'.look (regByte r size) :=
    congrArg (fun gpr : Nat → Nat → T => some (gpr _ _)) (Except.ok.inj same)
  rw [tags size beyond,tags' size beyond,if_pos rfl] at registers
  exact taint (Option.some.inj registers).symm

end Load

/-- A transfer is exact for every address and every tag state if and only if the class of the
register has the operand's width, or for a load no more than that. -/
theorem xfer_exact_iff [Nontrivial T] {form : Form} {ins : Ins} {r : Reg} {size : Nat}
    (transfers : Transfers form ins r size) : Exact T form ins r size ↔ form.Fits (classWidth r) size := by
  obtain ⟨tag,taint⟩ := exists_ne (clearedVal : T)
  cases form with
  | store => exact ⟨fun exact => by_contra fun differ => store_inexact transfers differ taint exact,store_exact transfers⟩
  | load =>
    exact ⟨fun exact => Nat.le_of_not_lt fun beyond => load_inexact transfers beyond taint exact,load_exact transfers⟩

/-- `MOVQ qword ptr [m], XMM0` -/
def movqStore : Ins :=
  ⟨.movq,[.mem 8,.reg (.xmm ⟨0,by decide⟩)],fun _ => false,.gr64 .rdi,.invalid,false,.invalid⟩

/-- `MOVAPS xmmword ptr [m], XMM0` -/
def movapsStore : Ins :=
  ⟨.movaps,[.mem 16,.reg (.xmm ⟨0,by decide⟩)],fun _ => false,.gr64 .rdi,.invalid,false,.invalid⟩

theorem xfer_exact_iff_movaps : Exact UInt8 .store movapsStore (.xmm ⟨0,by decide⟩) 16 := by
  have two : Nontrivial UInt8 := ⟨0,1,by decide⟩
  have transfers : Transfers .store movapsStore (.xmm ⟨0,by decide⟩) 16 := ⟨Or.inl rfl,[],rfl⟩
  exact (xfer_exact_iff transfers).mpr rfl

/-- The store of a quadword changes the tag of the byte after it. -/
theorem movq_inexact : ¬ Exact UInt8 .store movqStore (.xmm ⟨0,by decide⟩) 8 ∧
    (tainted (1 : UInt8)).look (mtags 0 8) = some 0 ∧
    ∃ s', analyse movqStore (.plain 0) (tainted (1 : UInt8)) = .ok ((),s') ∧ s'.look (mtags 0 8) = some 1 := by
  have transfers : Transfers .store movqStore (.xmm ⟨0,by decide⟩) 8 := ⟨Or.inl rfl,[],rfl⟩
  have clean : (tainted (1 : UInt8)).look (mtags 0 8) = some 0 := tainted_memory 1 (by decide)
  refine ⟨store_inexact transfers (by decide) (by decide : (1 : UInt8) ≠ 0),clean,?_⟩
  obtain ⟨s',v,run,wrote,tags⟩ := store_wrote transfers (.plain 0) (tainted (1 : UInt8))
  have tag : v 8 = 1 := (Option.some.inj (tags 8)).symm
  have hit : s'.look (mtags 0 8) = ((tainted 1).look (mtags 0 8)).map fun _ => v 8 := wrote.hit 8 (by decide)
  exact ⟨s',run,hit.trans ((congrArg (Option.map fun _ => v 8) clean).trans (congrArg some tag))⟩

end Libdft.Core
