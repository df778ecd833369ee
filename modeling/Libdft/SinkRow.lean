import Libdft.ClearedTags

/-! The row that all registers without one of their own share: the dispatchers that can write to
it, the tags that reach it then, and what follows for a run of any instructions. -/
namespace Libdft.Core

open TagTraits TagOps

variable {T : Type} [TagOps T]

/-! What reaches the shared row. -/

/-- The width with which the two dispatchers by class write to a register that has no row. -/
def sinkWidth (dst : Reg) : Nat := if dst.isXmm then 16 else if dst.isYmm then 32 else 1

def bytes (n : Nat) (src : Nat → Place) : List Place := (List.range n).map src

def sinks (dst : Reg) (feeds : List Place) : List Place := if regIndx dst = grpNum then feeds else []

/-- For `ins_xfer_op` and `ins_binary_op`. -/
def operandFeeds (ins : Ins) (exec : Exec) : List Place :=
  let dst := ins.operandReg 0
  if ins.memoryOperandCount = 0 then sinks dst (bytes (sinkWidth dst) (rtags (regIndx (ins.operandReg 1))))
  else if ins.operandIsMemory 1 then sinks dst (bytes (sinkWidth dst) (mtags exec.memoryreadEa))
  else []

/-- A destination that is an unknown register gets as many bytes as the caller's last choice moves. -/
def sourceFeeds (n : Nat) (ins : Ins) (exec : Exec) : List Place :=
  sinks (ins.operandReg 0) <|
    if ins.memoryOperandCount = 0 then bytes n (rtags (regIndx (ins.operandReg 1))) else bytes n (mtags exec.memoryreadEa)

/-- For a memory operand that is not the second: its bytes are written before bytes of memory are read. -/
def storeFeeds (ins : Ins) : List Place :=
  sinks (ins.operandReg 0) <|
    if ins.memoryOperandCount = 0 ∨ ins.operandIsMemory 1 then [] else bytes 32 (rtags (regIndx (ins.operandReg 1)))

/-- The first operand's bytes, which exchanges give to the second. -/
def exchangeFeeds (dst src : Reg) : List Place :=
  sinks src <|
    if dst.isGr64 then bytes 8 (rtags (regIndx dst))
    else if dst.isGr32 then bytes 4 (rtags (regIndx dst))
    else if dst.isGr16 then bytes 2 (rtags (regIndx dst))
    else if dst.isLower8 then [rtags (regIndx dst) 0]
    else if dst.isUpper8 then [rtags (regIndx dst) 1]
    else []

/-- The places whose tags an execution moves to the shared row. -/
def sinkFeeds (ins : Ins) (exec : Exec) : List Place :=
  match ins.opcode.entry with
  | .binary | .binaryUnlessEqual | .binaryThenMov | .mov | .xfer => operandFeeds ins exec
  | .imul => if ins.operandIsImplicit 1 then [] else operandFeeds ins exec
  | .cmov => if exec.executed then sourceFeeds 2 ins exec else []
  | .movsxd => operandFeeds ins exec ++ sourceFeeds 4 ins exec ++ storeFeeds ins
  | .movlp | .movhp =>
    if ins.operandIsMemory 0 then [] else sinks (ins.operandReg 0) (bytes 8 (mtags exec.memoryreadEa))
  | .pop => if ins.operandIsReg 0 then sinks (ins.operandReg 0) (bytes 2 (mtags exec.memoryreadEa)) else []
  | .xchg =>
    if ins.memoryOperandCount = 0 then exchangeFeeds (ins.operandReg 0) (ins.operandReg 1)
    else if ins.operandIsMemory 1 then sinks (ins.operandReg 0) [.mem exec.memoryreadEa]
    else sinks (ins.operandReg 1) [.mem exec.memorywriteEa]
  | .xadd =>
    if ins.memoryOperandCount = 0 then exchangeFeeds (ins.operandReg 0) (ins.operandReg 1)
    else sinks (ins.operandReg 1) [.mem exec.memorywriteEa]
  | _ => []

/-- A register whose row may be written: either no tag of it is watched, or what is written is watched. -/
structure Guarded (Z : Place → Prop) (dst : Reg) (n : Nat) (src : Nat → Place) : Prop where
  own : regIndx dst ≠ grpNum → ∀ i, ¬ Z (rtags (regIndx dst) i)
  fed : regIndx dst = grpNum → ∀ i < n, Z (src i)

theorem sinks_own {dst : Reg} (own : regIndx dst ≠ grpNum) (feeds : List Place) : sinks dst feeds = [] := if_neg own

theorem zone_guarded {dst : Reg} {feeds : List Place} (none : regIndx dst ≠ grpNum → feeds = [])
    (mem : regIndx dst = grpNum → ∀ i < n, src i ∈ feeds) : Guarded (Zone feeds) dst n src :=
  ⟨fun own => none own ▸ zone_own own,fun shared i small => .inr (mem shared i small)⟩

theorem sinks_guarded (dst : Reg) (n : Nat) (src : Nat → Place) :
    Guarded (Zone (sinks dst (bytes n src))) dst n src :=
  zone_guarded (fun own => sinks_own own _) fun shared i small => by
    simp only [sinks,if_pos shared,bytes,List.mem_map,List.mem_range]
    exact ⟨i,small,rfl⟩

namespace Guarded
variable {Z : Place → Prop} {dst : Reg} {src : Nat → Place}

theorem serves (guarded : Guarded Z dst n src) (z : Z (rtags (regIndx dst) i)) (small : j < n) : Z (src j) := by
  by_cases shared : regIndx dst = grpNum
  · exact guarded.fed shared j small
  · exact absurd z (guarded.own shared i)

/-- Whatever the width, if the register has a row; the right width, if it has not. -/
theorem byClass {move : Place → Place → Analysis T Unit} (guarded : Guarded Z dst (sinkWidth dst) src)
    (keeps : ∀ d s, (Z d → Z s) → Keeps (ClearAt Z) (move d s)) {rest : Analysis T Unit}
    (restKeeps : (regIndx dst = grpNum → sinkWidth dst = 1) → Keeps (ClearAt Z) rest) :
    let each n := forEach n fun i => move (rtags (regIndx dst) i) (src i)
    Keeps (ClearAt Z) (dst.byClass (each 8) (each 4) (each 2) (each 16) (each 32) rest) := by
  have own (n : Nat) (h : regIndx dst ≠ grpNum) :
      Keeps (ClearAt Z) (forEach n fun i => move (rtags (regIndx dst) i) (src i)) :=
    forEach_keeps fun i _ => keeps _ _ fun z => absurd z (guarded.own h i)
  have all (n : Nat) (same : sinkWidth dst = n) :
      Keeps (ClearAt Z) (forEach n fun i => move (rtags (regIndx dst) i) (src i)) :=
    forEach_keeps fun i small => keeps _ _ fun z => guarded.serves z (same ▸ small)
  cases dst with
  | gr64 g => exact own 8 (Nat.ne_of_lt (Nat.lt_trans g.row_lt (by decide)))
  | gr32 g => exact own 4 (Nat.ne_of_lt (Nat.lt_trans g.row_lt (by decide)))
  | gr16 g => exact own 2 (Nat.ne_of_lt (Nat.lt_trans g.row_lt (by decide)))
  | mm n => exact own 8 (Nat.ne_of_lt (Nat.lt_of_lt_of_le (Nat.add_lt_add_left n.isLt dftRegSt0) (by decide)))
  | xmm n => exact all 16 rfl
  | ymm n => exact all 32 rfl
  | invalid | lower8 _ | upper8 _ | zmm _ | st _ | seg _ | other _ => exact restKeeps fun _ => rfl

/-- A register without a row is neither half of a word. -/
theorem byHalf (move : Place → Place → Analysis T Unit) {src : Reg}
    (guarded : Guarded Z dst 1 (rtags (regIndx src)))
    (keeps : ∀ d s, (Z d → Z s) → Keeps (ClearAt Z) (move d s)) :
    let half i j := move (rtags (regIndx dst) i) (rtags (regIndx src) j)
    Keeps (ClearAt Z) (byHalf dst src (half 0 0) (half 1 1) (half 0 1) (half 1 0)) := by
  by_cases shared : regIndx dst = grpNum
  · cases dst with
    | lower8 g => exact absurd shared (Nat.ne_of_lt (Nat.lt_trans g.row_lt (by decide)))
    | upper8 h => exact absurd shared (Nat.ne_of_lt (Nat.lt_trans h.gpr.row_lt (by decide)))
    | invalid | gr64 _ | gr32 _ | gr16 _ | xmm _ | ymm _ | zmm _ | mm _ | st _ | seg _ | other _ =>
      exact keeps _ _ fun z => guarded.serves z Nat.one_pos
  · have any (i j : Nat) : Keeps (ClearAt Z) (move (rtags (regIndx dst) i) (rtags (regIndx src) j)) :=
      keeps _ _ fun z => absurd z (guarded.own shared i)
    simp only [Core.byHalf]
    exact .ite (fun _ => any 0 0) fun _ => .ite (fun _ => any 1 1) fun _ => .ite (fun _ => any 0 1) fun _ => any 1 0

theorem mono (guarded : Guarded Z dst n src) (le : m ≤ n) : Guarded Z dst m src :=
  ⟨guarded.own,fun shared i small => guarded.fed shared i (Nat.lt_of_lt_of_le small le)⟩

end Guarded

theorem sinkWidth_pos (dst : Reg) : 1 ≤ sinkWidth dst := by
  unfold sinkWidth
  split
  · decide
  · split <;> decide

section Dispatch
variable {Z : Place → Prop} {ins : Ins} {exec : Exec}

theorem r2rXfer_keeps {dst src : Reg} (guarded : Guarded Z dst (sinkWidth dst) (rtags (regIndx src))) :
    Keeps (ClearAt (T := T) Z) (r2rXfer dst src (regIndx dst) (regIndx src)) := by
  have half := (guarded.mono (sinkWidth_pos dst)).byHalf (copy (T := T)) fun _ _ => copy_keeps
  rw [r2rXfer_eq]
  exact guarded.byClass (fun _ _ => copy_keeps) fun _ => half

theorem r2rBinary_keeps [LawfulTagOps T] {dst src : Reg}
    (guarded : Guarded Z dst (sinkWidth dst) (rtags (regIndx src))) :
    Keeps (ClearAt (T := T) Z) (r2rBinary dst src (regIndx dst) (regIndx src)) := by
  have half := (guarded.mono (sinkWidth_pos dst)).byHalf (combine (T := T)) fun _ _ => combine_keeps
  rw [r2rBinary_eq]
  exact guarded.byClass (fun _ _ => combine_keeps) fun _ => half

theorem m2rXfer_keeps {dst : Reg} {addr : BitVec 64} (guarded : Guarded Z dst (sinkWidth dst) (mtags addr)) :
    Keeps (ClearAt (T := T) Z) (m2rXfer dst (regIndx dst) addr) := by
  rw [m2rXfer_eq]
  refine guarded.byClass (fun _ _ => copy_keeps) fun _ => copy_keeps fun z => ?_
  simpa using guarded.serves z (sinkWidth_pos dst)

theorem m2rBinary_keeps [LawfulTagOps T] {dst : Reg} {addr : BitVec 64}
    (guarded : Guarded Z dst (sinkWidth dst) (mtags addr)) :
    Keeps (ClearAt (T := T) Z) (m2rBinary dst (regIndx dst) addr) := by
  rw [m2rBinary_eq]
  refine guarded.byClass (fun _ _ => combine_keeps) fun _ => ?_
  refine (fetch_yields _).bind fun tag => .fact fun cleared => ?_
  refine (fetch_yields _).bind fun old => .fact fun oldCleared => assign_keeps fun z => ?_
  have source := guarded.serves z (sinkWidth_pos dst)
  rw [oldCleared z,cleared (by simpa using source),LawfulTagOps.combine_cleared]

/-- A store keeps what its register's bytes keep. -/
theorem byClass_store {move : Place → Place → Analysis T Unit} {src : Reg} {addr : BitVec 64}
    (keeps : ∀ d s, (Z d → Z s) → Keeps (ClearAt Z) (move d s))
    (stored : ∀ i, Z (mtags addr i) → ∀ j < 32, Z (rtags (regIndx src) j)) :
    let each n := forEach n fun i => move (mtags addr i) (rtags (regIndx src) i)
    Keeps (ClearAt Z) (src.byClass (each 8) (each 4) (each 2) (each 16) (each 32)
      (move (.mem addr) (rtags (regIndx src) (if src.isUpper8 then 1 else 0)))) := by
  have all (n : Nat) (le : n ≤ 32) :
      Keeps (ClearAt Z) (forEach n fun i => move (mtags addr i) (rtags (regIndx src) i)) :=
    forEach_keeps fun i small => keeps _ _ fun z => stored i z i (Nat.lt_of_lt_of_le small le)
  have byte (j : Nat) (small : j < 32) : Keeps (ClearAt Z) (move (.mem addr) (rtags (regIndx src) j)) :=
    keeps _ _ fun z => stored 0 (by simpa using z) j small
  simp only [Reg.byClass]
  refine .ite (fun _ => all 8 (by decide)) fun _ => .ite (fun _ => all 4 (by decide)) fun _ => ?_
  refine .ite (fun _ => all 2 (by decide)) fun _ => .ite (fun _ => all 16 (by decide)) fun _ => ?_
  refine .ite (fun _ => all 32 (by decide)) fun _ => .ite (fun _ => all 8 (by decide)) fun _ => byte _ ?_
  split <;> decide

/-- What is watched is enough for a dispatch by the class of an operand. -/
structure Watched (Z : Place → Prop) (ins : Ins) (exec : Exec) : Prop where
  r2r : ins.memoryOperandCount = 0 →
    Guarded Z (ins.operandReg 0) (sinkWidth (ins.operandReg 0)) (rtags (regIndx (ins.operandReg 1)))
  m2r : ins.memoryOperandCount ≠ 0 → ins.operandIsMemory 1 →
    Guarded Z (ins.operandReg 0) (sinkWidth (ins.operandReg 0)) (mtags exec.memoryreadEa)
  r2m : ins.memoryOperandCount ≠ 0 → ¬ ins.operandIsMemory 1 →
    ∀ i, Z (mtags exec.memorywriteEa i) → ∀ j < 32, Z (rtags (regIndx (ins.operandReg 1)) j)

theorem insXferOp_keeps (watched : Watched Z ins exec) : Keeps (ClearAt (T := T) Z) ((insXferOp ins).run exec) := by
  unfold insXferOp
  split
  next none => simpa using r2rXfer_keeps (watched.r2r none)
  next some =>
    split
    next load => simpa using m2rXfer_keeps (watched.m2r some load)
    next store =>
      rw [run_r2mCall,r2mXfer_eq]
      exact byClass_store (fun _ _ => copy_keeps) (watched.r2m some store)

theorem insBinaryOp_keeps [LawfulTagOps T] (watched : Watched Z ins exec) :
    Keeps (ClearAt (T := T) Z) ((insBinaryOp ins).run exec) := by
  unfold insBinaryOp
  split
  next => exact .skip
  next =>
    split
    next none => simpa using r2rBinary_keeps (watched.r2r none)
    next some =>
      split
      next load => simpa using m2rBinary_keeps (watched.m2r some load)
      next store =>
        rw [run_r2mCall,r2mBinary_eq]
        exact byClass_store (fun _ _ => combine_keeps) (watched.r2m some store)

theorem operandFeeds_watched (ins : Ins) (exec : Exec) : Watched (Zone (operandFeeds ins exec)) ins exec := by
  constructor
  · intro none
    simpa only [operandFeeds,if_pos none] using sinks_guarded _ _ _
  · intro some load
    simpa only [operandFeeds,if_neg some,if_pos load] using sinks_guarded _ _ _
  · intro some store i z
    have nothing : operandFeeds ins exec = [] := by simp only [operandFeeds,if_neg some,if_neg store]
    simp [nothing,Zone,Place.Sink,mtags] at z

end Dispatch

/-! Calls that may write to the row of an operand of any class. -/

section Shared
variable {Z : Place → Prop} {dst src : Nat → Place}

theorem insMovsxdOp_keeps (ins : Ins) (exec : Exec) :
    Keeps (ClearAt (T := T) (Zone (operandFeeds ins exec ++ sourceFeeds 4 ins exec ++ storeFeeds ins)))
      ((insMovsxdOp ins).run exec) := by
  have own (h : regIndx (ins.operandReg 0) ≠ grpNum) :
      operandFeeds ins exec ++ sourceFeeds 4 ins exec ++ storeFeeds ins = [] := by
    simp [operandFeeds,sourceFeeds,storeFeeds,sinks,h]
  have operand (shared : regIndx (ins.operandReg 0) = grpNum) {n : Nat} {src : Nat → Place}
      (feeds : operandFeeds ins exec = sinks (ins.operandReg 0) (bytes n src)) (i : Nat) (small : i < n) :
      src i ∈ operandFeeds ins exec ++ sourceFeeds 4 ins exec ++ storeFeeds ins := by
    have mem : src i ∈ bytes n src := List.mem_map.mpr ⟨i,List.mem_range.mpr small,rfl⟩
    simp [feeds,sinks,shared,mem]
  have watched : Watched (Zone (operandFeeds ins exec ++ sourceFeeds 4 ins exec ++ storeFeeds ins)) ins exec := by
    constructor
    · intro none
      exact zone_guarded own fun shared => operand shared (by simp only [operandFeeds,if_pos none])
    · intro some load
      exact zone_guarded own fun shared => operand shared (by simp only [operandFeeds,if_neg some,if_pos load])
    · intro some store i z j small
      by_cases shared : regIndx (ins.operandReg 0) = grpNum
      · have mem : rtags (regIndx (ins.operandReg 1)) j ∈ bytes 32 (rtags (regIndx (ins.operandReg 1))) :=
          List.mem_map.mpr ⟨j,List.mem_range.mpr small,rfl⟩
        exact .inr (by simp [storeFeeds,sinks,shared,some,store,mem])
      · rw [own shared] at z
        exact absurd z (zone_mtags _ _)
  have last (src : Nat → Place)
      (feeds : sourceFeeds 4 ins exec = sinks (ins.operandReg 0) (bytes 4 src)) :
      Guarded (Zone (operandFeeds ins exec ++ sourceFeeds 4 ins exec ++ storeFeeds ins)) (ins.operandReg 0) 4 src :=
    zone_guarded own fun shared i small => by
      have mem : src i ∈ bytes 4 src := List.mem_map.mpr ⟨i,List.mem_range.mpr small,rfl⟩
      simp [feeds,sinks,shared,mem]
  have first : Keeps (ClearAt (T := T) (Zone (operandFeeds ins exec ++ sourceFeeds 4 ins exec ++ storeFeeds ins)))
      (Calls.run (if (ins.operandReg 0).isGr64 then [] else insXferOp ins) exec) := by
    split
    · exact Keeps.skip
    · exact insXferOp_keeps watched
  rw [insMovsxdOp,run_append]
  refine .bind first fun _ => ?_
  split
  next none =>
    rw [run_r2rCall]
    refine copyEach_keeps fun i small z => ?_
    exact (last _ (by simp only [sourceFeeds,if_pos none])).serves z (Nat.mod_lt i (by decide))
  next some =>
    rw [run_m2rCall]
    refine Triple.bind (fetchEach_yields _ _) fun tags => .fact fun cleared => assignEach_keeps fun i small z => ?_
    have guarded := last (mtags exec.memoryreadEa) (by simp only [sourceFeeds,if_neg some])
    have small' : i % 4 < 4 := Nat.mod_lt i (by decide)
    exact cleared (i % 4) small' (guarded.serves z small')

/-- A register given by its class alone, as `ins_pop_op` and `ins_xfer_op_predicated` do. -/
theorem copyEach_own {r : Reg} (own : regIndx r ≠ grpNum) {feeds : List Place} (nothing : sinks r feeds = [])
    (n : Nat) (src : Nat → Place) :
    Keeps (ClearAt (T := T) (Zone (sinks r feeds))) (copyEach n (rtags (regIndx r)) src) := by
  rw [nothing]
  exact copyEach_other _ _ (zone_own own)

/-- The last choice of a dispatcher that knows two or three classes. -/
theorem copyEach_sinks (r : Reg) (n : Nat) (src : Nat → Place) (offset : Nat) :
    Keeps (ClearAt (T := T) (Zone (sinks r (bytes n src)))) (copyEach n (fun i => rtags (regIndx r) (i + offset)) src) :=
  copyEach_keeps fun i small z => (sinks_guarded r n src).serves (i := i + offset) z small

theorem insXferOpPredicated_keeps (ins : Ins) (exec : Exec) :
    Keeps (ClearAt (T := T) (Zone (if exec.executed then sourceFeeds 2 ins exec else [])))
      ((insXferOpPredicated ins).run exec) := by
  have wide (own : regIndx (ins.operandReg 0) ≠ grpNum) (n : Nat) (src : Nat → Place) :
      Keeps (ClearAt (T := T) (Zone (sourceFeeds 2 ins exec))) (copyEach n (rtags (regIndx (ins.operandReg 0))) src) :=
    copyEach_own own (sinks_own own _) n src
  by_cases executed : exec.executed
  · rw [if_pos executed]
    unfold insXferOpPredicated
    dsimp only
    by_cases none : ins.memoryOperandCount = 0
    · rw [if_pos none]
      repeat' split
      all_goals rw [run_r2rCallP,if_pos executed]
      · exact wide (own_gr64 ‹_›) 8 _
      · exact wide (own_gr32 ‹_›) 4 _
      · rw [sourceFeeds,if_pos none]
        exact copyEach_sinks _ 2 _ 0
    · rw [if_neg none]
      repeat' split
      all_goals rw [run_m2rCallP,if_pos executed]
      · exact wide (own_gr64 ‹_›) 8 _
      · exact wide (own_gr32 ‹_›) 4 _
      · rw [sourceFeeds,if_neg none]
        exact copyEach_sinks _ 2 _ 0
  · rw [if_neg executed]
    unfold insXferOpPredicated
    dsimp only
    repeat' split
    all_goals first | rw [run_r2rCallP,if_neg executed] | rw [run_m2rCallP,if_neg executed]
    all_goals exact Keeps.skip

theorem insPopOp_keeps (ins : Ins) (exec : Exec) :
    Keeps (ClearAt (T := T) (Zone (if ins.operandIsReg 0 then
      sinks (ins.operandReg 0) (bytes 2 (mtags exec.memoryreadEa)) else []))) ((insPopOp ins).run exec) := by
  unfold insPopOp
  dsimp only
  by_cases register : ins.operandIsReg 0
  · rw [if_pos register,if_pos register]
    repeat' split
    all_goals rw [run_m2rCall]
    · exact copyEach_own (own_gr64 ‹_›) (sinks_own (own_gr64 ‹_›) _) 8 _
    · exact copyEach_own (own_gr32 ‹_›) (sinks_own (own_gr32 ‹_›) _) 4 _
    · exact copyEach_sinks _ 2 _ 0
  · rw [if_neg register,if_neg register]
    split
    · exact m2mXfer_keeps ins exec
    · exact Keeps.skip

/-- The two dispatchers for half of an XMM register. -/
theorem halfXmm_keeps (ins : Ins) (exec : Exec) (offset : Nat) :
    Keeps (ClearAt (T := T) (Zone (if ins.operandIsMemory 0 then []
      else sinks (ins.operandReg 0) (bytes 8 (mtags exec.memoryreadEa)))))
      (Calls.run (if ins.operandIsMemory 0 then
          r2mCall (fun addr row => copyEach 8 (mtags addr) fun i => rtags row (i + offset)) (ins.operandReg 1)
        else m2rCall (fun row addr => copyEach 8 (fun i => rtags row (i + offset)) (mtags addr)) (ins.operandReg 0)) exec) := by
  by_cases store : ins.operandIsMemory 0
  · rw [if_pos store,if_pos store,run_r2mCall]
    exact copyEach_other _ _ fun _ => zone_mtags _ _
  · rw [if_neg store,if_neg store,run_m2rCall]
    exact copyEach_sinks _ 8 _ offset

/-- Both operands are watched, or neither is, byte by byte. -/
def Matched (Z : Place → Prop) (n : Nat) (dst src : Nat → Place) : Prop := ∀ i < n, Z (dst i) ↔ Z (src i)

theorem sinks_matched {r : Reg} {n : Nat} {other : Nat → Place} (offset : Nat) (unwatched : ∀ i, ¬ Zone [] (other i)) :
    Matched (Zone (sinks r (bytes n other))) n other fun i => rtags (regIndx r) (i + offset) := by
  intro i small
  by_cases shared : regIndx r = grpNum
  · have mem : other i ∈ bytes n other := List.mem_map.mpr ⟨i,List.mem_range.mpr small,rfl⟩
    refine iff_of_true (.inr ?_) (.inl shared)
    rw [sinks,if_pos shared]
    exact mem
  · rw [sinks_own shared]
    exact iff_of_false (unwatched i) (zone_own shared _)

theorem Matched.symm (matched : Matched Z n dst src) : Matched Z n src dst := fun i small => (matched i small).symm

theorem exchange_keeps (matched : Matched Z n dst src) : Keeps (ClearAt (T := T) Z) (exchange n dst src) := by
  refine Triple.bind (fetchEach_yields n dst) fun dstTag => .fact fun dstCleared => ?_
  refine Triple.bind (fetchEach_yields n src) fun srcTag => .fact fun srcCleared => ?_
  exact .bind (assignEach_keeps fun i small z => srcCleared i small ((matched i small).mp z)) fun _ =>
    assignEach_keeps fun i small z => dstCleared i small ((matched i small).mpr z)

theorem xaddByte_keeps [LawfulTagOps T] {d p : Place} (matched : Z d ↔ Z p) :
    Keeps (ClearAt (T := T) Z) (xaddByte d p) :=
  Triple.bind (fetch_yields d) fun _ => .fact fun cleared =>
    .bind (combine_keeps matched.mp) fun _ => assign_keeps fun z => cleared (matched.mpr z)

theorem union_cleared [LawfulTagOps T] {a b : T} (left : a = clearedVal) (right : b = clearedVal) :
    tagCombine a b = clearedVal := by
  rw [left,right,LawfulTagOps.combine_cleared]

/-- The tags of both operands, both read in advance. -/
theorem operands_keep {n : Nat} {rest : (Nat → T) → (Nat → T) → Analysis T Unit}
    (each : ∀ dstTag srcTag : Nat → T, (∀ i < n, Z (dst i) → dstTag i = clearedVal) →
      (∀ i < n, Z (src i) → srcTag i = clearedVal) → Keeps (ClearAt Z) (rest dstTag srcTag)) :
    Keeps (ClearAt Z) (do rest (← fetchEach n dst) (← fetchEach n src)) := by
  refine Triple.bind (fetchEach_yields n dst) fun dstTag => .fact fun dstCleared => ?_
  exact Triple.bind (fetchEach_yields n src) fun srcTag => .fact fun srcCleared => each _ _ dstCleared srcCleared

theorem xaddEach_keeps [LawfulTagOps T] (matched : Matched Z n dst src) :
    Keeps (ClearAt (T := T) Z) (xaddEach n dst src) := by
  apply operands_keep
  intro dstTag srcTag dstCleared srcCleared
  refine forEach_keeps fun i small => .bind (assign_keeps fun z => ?_) fun _ => assign_keeps fun z => ?_
  · exact union_cleared (dstCleared i small z) (srcCleared i small ((matched i small).mp z))
  · exact dstCleared i small ((matched i small).mpr z)

theorem xaddR2rOpw_keeps [LawfulTagOps T] {d p : Nat} (matched : Matched Z 2 (rtags d) (rtags p)) :
    Keeps (ClearAt (T := T) Z) (xaddR2rOpw d p) := by
  apply operands_keep
  intro dstTag srcTag dstCleared srcCleared
  refine .bind (assignEach_keeps fun i small z => ?_) fun _ => assignEach_keeps fun i small z => ?_
  · exact union_cleared (dstCleared i small z) (srcCleared i small ((matched i small).mp z))
  · exact dstCleared i small ((matched i small).mpr z)

theorem xaddR2m_keeps [LawfulTagOps T] (matched : Matched Z n dst src) :
    Keeps (ClearAt (T := T) Z) (xaddR2m n dst src) := by
  apply operands_keep
  intro srcTag dstTag srcCleared dstCleared
  refine .bind (assignEach_keeps fun i small z => ?_) fun _ => assignEach_keeps fun i small z => ?_
  · exact dstCleared i small ((matched i small).mpr z)
  · exact union_cleared (dstCleared i small z) (srcCleared i small ((matched i small).mp z))

/-- A row that takes watched tags may be watched from then on. -/
theorem copyEach_extends (fed : ∀ i < n, Z (src i)) :
    Triple (ClearAt (T := T) Z) (copyEach n dst src) fun _ => ClearAt fun q => Z q ∨ ∃ i < n, q = dst i := by
  induction n with
  | zero => exact .pure () fun s clear q z => clear q (z.resolve_right (by simp))
  | succ n ih =>
    rw [copyEach,forEach_succ]
    refine (ih fun i small => fed i (Nat.lt_succ_of_lt small)).bind fun _ => ?_
    refine Triple.bind (fetch_yields _) fun tag => .fact fun cleared => assign_clears ?_ fun _ => ?_
    · rintro q (z | ⟨i,small,rfl⟩) other
      · exact .inl z
      · rcases Nat.lt_succ_iff_lt_or_eq.mp small with earlier | rfl
        · exact .inr ⟨i,earlier,rfl⟩
        · exact absurd rfl other
    · exact cleared (.inl (fed n (Nat.lt_succ_self n)))

/-- The scratch row hands on the tags of the first operand. -/
theorem xchgByHelper_keeps {dst src : Reg} (own : regIndx dst ≠ grpNum) (n : Nat) (exec : Exec) :
    Keeps (ClearAt (T := T) (Zone (sinks src (bytes n (rtags (regIndx dst))))))
      ((xchgByHelper (fun d s => copyEach n (rtags d) (rtags s)) dst src).run exec) := by
  have helper : ∀ i, ¬ Zone [] (rtags 0 i) := zone_own (by decide)
  let move (d p : Nat) : Analysis T Unit := copyEach n (rtags d) (rtags p)
  have run : (xchgByHelper move dst src).run exec =
      (do move 0 (regIndx dst); move (regIndx dst) (regIndx src); move (regIndx src) 0) := by
    simp [xchgByHelper,Calls.run]
  rw [run]
  by_cases shared : regIndx src = grpNum
  · rw [sinks,if_pos shared]
    refine (copyEach_extends fun i small => ?_).bind fun _ => .bind (copyEach_keeps fun i _ _ => ?_) fun _ => ?_
    · exact .inr (List.mem_map.mpr ⟨i,List.mem_range.mpr small,rfl⟩)
    · exact .inl (.inl shared)
    · refine Triple.imp (copyEach_keeps fun i small _ => ?_) fun _ _ clear q z => clear q (.inl z)
      exact .inr ⟨i,small,rfl⟩
  · rw [sinks_own shared]
    exact .bind (copyEach_other _ _ helper) fun _ => .bind (copyEach_other _ _ (zone_own own)) fun _ =>
      copyEach_other _ _ (zone_own shared)

/-- The byte forms of an exchange, by the halves that the operands are. -/
theorem byHalf_exchange (move : Place → Place → Analysis T Unit) {dst : Reg} (src : Reg) (known : dst.isGr8)
    (keeps : ∀ {Z : Place → Prop} {d p : Place}, (Z d ↔ Z p) → Keeps (ClearAt Z) (move d p)) :
    let half i j := move (rtags (regIndx dst) i) (rtags (regIndx src) j)
    Keeps (ClearAt (Zone (exchangeFeeds dst src)))
      (byHalf dst src (half 0 0) (half 1 1) (half 0 1) (half 1 0)) := by
  have own : regIndx dst ≠ grpNum := own_class (by simp [known])
  have any (i j : Nat) : Keeps (ClearAt (Zone (sinks src [rtags (regIndx dst) i])))
      (move (rtags (regIndx dst) i) (rtags (regIndx src) j)) := by
    have matched : Matched (Zone (sinks src [rtags (regIndx dst) i])) 1 (fun _ => rtags (regIndx dst) i) _ :=
      sinks_matched j fun _ => zone_own own i
    have byte := matched 0 Nat.one_pos
    simp only [Nat.zero_add] at byte
    exact keeps byte
  cases dst with
  | lower8 g =>
    simp only [byHalf,exchangeFeeds,Reg.isGr64,Reg.isGr32,Reg.isGr16,Reg.isLower8,Reg.isUpper8]
    exact .ite (fun _ => any 0 0) fun _ => .ite (fun h => by simp at h) fun _ => any 0 1
  | upper8 h =>
    simp only [byHalf,exchangeFeeds,Reg.isGr64,Reg.isGr32,Reg.isGr16,Reg.isLower8,Reg.isUpper8]
    exact .ite (fun h => by simp at h) fun _ => .ite (fun _ => any 1 1) fun _ => any 1 0
  | invalid | gr64 _ | gr32 _ | gr16 _ | xmm _ | ymm _ | zmm _ | mm _ | st _ | seg _ | other _ => cases known

theorem exchangeFeeds_word {dst src : Reg} (n : Nat)
    (word : exchangeFeeds dst src = sinks src (bytes n (rtags (regIndx dst)))) (own : regIndx dst ≠ grpNum) :
    Matched (Zone (exchangeFeeds dst src)) n (rtags (regIndx dst)) (rtags (regIndx src)) := by
  rw [word]
  exact sinks_matched 0 (zone_own own)

/-- An exchange of a register with memory. -/
theorem memory_matched (r : Reg) (n : Nat) (addr : BitVec 64) (own : regIndx r ≠ grpNum) {feeds : List Place}
    (given : feeds = sinks r [.mem addr]) : Matched (Zone feeds) n (rtags (regIndx r)) (mtags addr) := by
  rw [given,sinks_own own]
  exact fun i _ => iff_of_false (zone_own own i) (zone_mtags addr i)

theorem memory_byte (r : Reg) (i : Nat) (addr : BitVec 64) :
    Matched (Zone (sinks r [.mem addr])) 1 (fun _ => rtags (regIndx r) i) fun _ => .mem addr := by
  have matched : Matched (Zone (sinks r [.mem addr])) 1 (fun _ => .mem addr) fun k => rtags (regIndx r) (k + i) :=
    sinks_matched i fun _ => zone_mem addr
  intro k small
  obtain rfl : k = 0 := Nat.lt_one_iff.mp small
  simpa using (matched 0 small).symm

theorem xchgM2r_keeps (r : Reg) (addr : BitVec 64) :
    Keeps (ClearAt (T := T) (Zone (sinks r [.mem addr]))) (xchgM2r r (regIndx r) addr) := by
  unfold xchgM2r
  repeat' split
  · exact exchange_keeps (memory_matched r 8 addr (own_gr64 ‹_›) rfl)
  · exact exchange_keeps (memory_matched r 4 addr (own_gr32 ‹_›) rfl)
  · exact exchange_keeps (memory_matched r 2 addr (own_gr16 ‹_›) rfl)
  · exact exchange_keeps (memory_byte r 1 addr)
  · exact exchange_keeps (memory_byte r 0 addr)

theorem insXchgOp_keeps (ins : Ins) (exec : Exec) :
    Keeps (ClearAt (T := T) (Zone (
      if ins.memoryOperandCount = 0 then exchangeFeeds (ins.operandReg 0) (ins.operandReg 1)
      else if ins.operandIsMemory 1 then sinks (ins.operandReg 0) [.mem exec.memoryreadEa]
      else sinks (ins.operandReg 1) [.mem exec.memorywriteEa]))) ((insXchgOp ins).run exec) := by
  generalize dstIs : ins.operandReg 0 = dst
  generalize srcIs : ins.operandReg 1 = src
  unfold insXchgOp
  dsimp only
  rw [dstIs,srcIs]
  by_cases none : ins.memoryOperandCount = 0
  · rw [if_pos none,if_pos none]
    split
    next gr64 =>
      rw [exchangeFeeds,if_pos gr64]
      exact xchgByHelper_keeps (own_gr64 gr64) 8 exec
    next gr64 =>
      split
      next gr32 =>
        rw [exchangeFeeds,if_neg gr64,if_pos gr32]
        exact xchgByHelper_keeps (own_gr32 gr32) 4 exec
      next gr32 =>
        split
        next gr16 =>
          rw [run_r2rCall]
          refine exchange_keeps (exchangeFeeds_word 2 ?_ (own_gr16 gr16))
          rw [exchangeFeeds,if_neg gr64,if_neg gr32,if_pos gr16]
        next =>
          split
          next gr8 =>
            rw [run_r2rCall]
            have half := byHalf_exchange (T := T) (fun d p => exchange 1 (fun _ => d) fun _ => p) src gr8
              fun {_ _ _} same => exchange_keeps fun _ _ => same
            cases dst <;> cases src <;> exact half
          next => exact Keeps.skip
  · rw [if_neg none,if_neg none]
    split
    · rw [run_m2rCall]
      exact xchgM2r_keeps dst _
    · rw [run_single]
      exact xchgM2r_keeps src _

theorem insXaddOp_keeps [LawfulTagOps T] (ins : Ins) (exec : Exec) :
    Keeps (ClearAt (T := T) (Zone (
      if ins.memoryOperandCount = 0 then exchangeFeeds (ins.operandReg 0) (ins.operandReg 1)
      else sinks (ins.operandReg 1) [.mem exec.memorywriteEa]))) ((insXaddOp ins).run exec) := by
  generalize dstIs : ins.operandReg 0 = dst
  generalize srcIs : ins.operandReg 1 = src
  unfold insXaddOp
  dsimp only
  rw [dstIs,srcIs]
  by_cases none : ins.memoryOperandCount = 0
  · rw [if_pos none,if_pos none]
    split
    next gr64 =>
      rw [run_r2rCall]
      refine xaddEach_keeps (exchangeFeeds_word 8 ?_ (own_gr64 gr64))
      rw [exchangeFeeds,if_pos gr64]
    next gr64 =>
      split
      next gr32 =>
        rw [run_r2rCall]
        refine xaddEach_keeps (exchangeFeeds_word 4 ?_ (own_gr32 gr32))
        rw [exchangeFeeds,if_neg gr64,if_pos gr32]
      next gr32 =>
        split
        next gr16 =>
          rw [run_r2rCall]
          refine xaddR2rOpw_keeps (exchangeFeeds_word 2 ?_ (own_gr16 gr16))
          rw [exchangeFeeds,if_neg gr64,if_neg gr32,if_pos gr16]
        next =>
          split
          next gr8 =>
            rw [run_r2rCall]
            have half := byHalf_exchange (xaddByte (T := T)) src gr8 xaddByte_keeps
            cases dst <;> cases src <;> exact half
          next => exact Keeps.skip
  · rw [if_neg none,if_neg none]
    repeat' split
    all_goals rw [run_r2mCall]
    · exact xaddEach_keeps (memory_matched src 8 _ (own_gr64 ‹_›) rfl).symm
    · exact xaddEach_keeps (memory_matched src 4 _ (own_gr32 ‹_›) rfl).symm
    · exact xaddR2m_keeps (memory_matched src 2 _ (own_gr16 ‹_›) rfl).symm
    · exact xaddR2m_keeps (memory_byte src 1 _).symm
    · exact xaddR2m_keeps (memory_byte src 0 _).symm

end Shared

/-! One instruction, and a run of them. -/

theorem movBody_keeps (ins : Ins) (exec : Exec) :
    Keeps (ClearAt (T := T) (Zone (operandFeeds ins exec))) ((movBody ins).run exec) := by
  unfold movBody
  split
  · exact insClearOp_keeps ins exec
  · exact insXferOp_keeps (operandFeeds_watched ins exec)

/-- One execution leaves the shared row cleared if the tags that reach it are. -/
theorem analyse_keeps [LawfulTagOps T] (ins : Ins) (exec : Exec) :
    Keeps (ClearAt (T := T) (Zone (sinkFeeds ins exec))) (analyse ins exec) := by
  have rax : ∀ i, ¬ Zone [] (rtags dftRegRax i) := zone_own (by decide)
  have rdx : ∀ i, ¬ Zone [] (rtags dftRegRdx i) := zone_own (by decide)
  have binary := insBinaryOp_keeps (T := T) (operandFeeds_watched ins exec)
  unfold analyse insInspect sinkFeeds
  cases ins.opcode.entry
  case binary => exact binary
  case binaryUnlessEqual =>
    dsimp only
    split
    · exact insClearOp_keeps ins exec
    · exact binary
  case unitary => exact insUnitaryOp_keeps ins exec
  case imul =>
    dsimp only
    split
    · exact insUnitaryOp_keeps ins exec
    · exact binary
  case binaryThenMov =>
    dsimp only
    rw [run_append]
    exact .bind binary fun _ => movBody_keeps ins exec
  case mov => exact movBody_keeps ins exec
  case xfer => exact insXferOp_keeps (operandFeeds_watched ins exec)
  case movlp => exact halfXmm_keeps ins exec 0
  case movhp => exact halfXmm_keeps ins exec 8
  case cmov => exact insXferOpPredicated_keeps ins exec
  case movbe => exact insMovbeOp_keeps ins exec
  case movsx => exact insMovsxOp_keeps ins exec
  case movsxd => exact insMovsxdOp_keeps ins exec
  case cbw => exact call_keeps (copy_other _ (rax 1))
  case cwd => exact call_keeps (copyEach_other 2 _ rdx)
  case cwde => exact call_keeps (copyEach_other 2 _ fun i => rax (i + 2))
  case cdq => exact call_keeps (copyEach_other 4 _ rdx)
  case cdqe => exact call_keeps (copyEach_other 4 _ fun i => rax (i + 4))
  case cqo => exact call_keeps (copyEach_other 8 _ rdx)
  case set => exact insClearOpPredicated_keeps ins exec
  case clear => exact insClearOp_keeps ins exec
  case clearL2 => exact call_keeps rClrl2_keeps
  case clearL4 => exact call_keeps rClrl4_keeps
  case cmpxchg => exact insCmpxchgOp_keeps ins exec
  case xchg => exact insXchgOp_keeps ins exec
  case xadd => exact insXaddOp_keeps ins exec
  case xlat => exact m2rCall_keeps (copy_other _ (rax 0))
  case lodsb => exact m2rCallP_keeps (copy_other _ (rax 0))
  case lodsw => exact m2rCallP_keeps (copyEach_other 2 _ rax)
  case lodsd => exact m2rCallP_keeps (copyEach_other 4 _ rax)
  case lodsq => exact m2rCallP_keeps (copyEach_other 8 _ rax)
  case stosb =>
    exact insStos_keeps (fun _ _ _ => stosLoop_keeps _ _ _ _) (fun _ _ => copy_other _ (zone_mem _)) _ ins exec
  case stosw =>
    exact insStos_keeps (fun _ _ _ => stosLoop_keeps _ _ _ _) (fun _ _ => copyEach_other _ _ (zone_mtags _)) _ ins exec
  case stosd =>
    exact insStos_keeps (fun _ _ _ => stosLoop_keeps _ _ _ _) (fun _ _ => copyEach_other _ _ (zone_mtags _)) _ ins exec
  case stosq =>
    exact insStos_keeps (fun _ _ _ => stosLoop_keeps _ _ _ _) (fun _ _ => copyEach_other _ _ (zone_mtags _)) _ ins exec
  case movsq => exact m2mCall_keeps (copyEach_other 8 _ (zone_mtags _))
  case movsd => exact m2mCall_keeps (copyEach_other 4 _ (zone_mtags _))
  case movsw => exact m2mCall_keeps (copyEach_other 2 _ (zone_mtags _))
  case movsb => exact m2mCall_keeps (copy_other _ (zone_mem _))
  case pop => exact insPopOp_keeps ins exec
  case push => exact insPushOp_keeps ins exec
  case popa => exact mCallR_keeps (m2rRestore_keeps 1 _)
  case popad => exact mCallR_keeps (m2rRestore_keeps 2 _)
  case pusha => exact mCallW_keeps (r2mSave_keeps 1 _)
  case pushad => exact mCallW_keeps (r2mSave_keeps 2 _)
  case pushf => exact mCallW_keeps (clearMemory_keeps _ 2)
  case pushfd => exact mCallW_keeps (clearMemory_keeps _ 4)
  case pushfq => exact mCallW_keeps (clearMemory_keeps _ 8)
  case lea => exact insLea_keeps ins exec
  case ignored => exact Keeps.skip

/-- `RTAG[GRP_NUM]` is cleared. -/
def SinkClear (s : TagState T) : Prop := ∀ i, s.gpr grpNum i = clearedVal

/-- No tag that the execution moves to the shared row is tainted. -/
def Harmless (ins : Ins) (exec : Exec) (s : TagState T) : Prop :=
  ∀ p ∈ sinkFeeds ins exec, ∀ tag, s.look p = some tag → tag = clearedVal

theorem sinkClear_step [LawfulTagOps T] {s s' : TagState T} (clear : SinkClear s) (harmless : Harmless ins exec s)
    (step : analyse ins exec s = .ok ((),s')) : SinkClear s' := by
  have before : ClearAt (Zone (sinkFeeds ins exec)) s := by
    rintro (⟨row,i⟩ | addr) (sink | fed) tag read
    · obtain rfl : row = grpNum := sink
      exact (Option.some.inj read).symm.trans (clear i)
    · exact harmless _ fed tag read
    · cases sink
    · exact harmless _ fed tag read
  intro i
  exact analyse_keeps ins exec s () s' before step (rtags grpNum i) (.inl rfl) _ rfl

/-- The states after any number of executions, each of them allowed where it started. -/
inductive Reaches (allowed : Ins → Exec → TagState T → Prop) (s : TagState T) : TagState T → Prop where
  | start : Reaches allowed s s
  | step (ins : Ins) (exec : Exec) :
    Reaches allowed s t → allowed ins exec t → analyse ins exec t = .ok ((),t') → Reaches allowed s t'

/-- The shared row stays cleared in every run that moves no taint to it: what an instruction
reads there never came from another one. -/
theorem sinkRow_clear [LawfulTagOps T] {s t : TagState T} (clear : SinkClear s) (run : Reaches Harmless s t) :
    SinkClear t := by
  induction run with
  | start => exact clear
  | step ins exec _ harmless step ih => exact sinkClear_step ih harmless step

/-- `MOV DS, src` -/
def movDs (src : Gpr) : Ins :=
  ⟨.mov,[.reg (.seg 3),.reg (.gr16 src)],fun _ => false,.invalid,.invalid,false,.invalid⟩

/-- `LEA RCX, [RIP]` -/
def leaRcxRip : Ins :=
  ⟨.lea,[.reg (.gr64 .rcx),.other 8],fun _ => false,.other 0,.invalid,false,.invalid⟩

/-- Only RAX is tainted. -/
def raxTainted : TagState UInt8 := ⟨fun row _ => if row = dftRegRax then 1 else 0,TagMap.empty⟩

theorem raxTainted_clear : SinkClear raxTainted := fun _ => rfl

theorem sinkRow_clear_movDsCx : ∃ t : TagState UInt8, t.gpr dftRegRax 1 = 1 ∧ SinkClear t := by
  have harmless : Harmless (movDs .rcx) (.plain 0) raxTainted := by
    intro p mem tag read
    obtain rfl := List.mem_singleton.mp mem
    exact (Option.some.inj read).symm
  exact ⟨_,rfl,sinkRow_clear raxTainted_clear (.step (movDs .rcx) (.plain 0) .start harmless rfl)⟩

/-- The tag of AX gets into RCX by way of a segment register and the instruction pointer. -/
theorem sinkRow_tainted :
    (¬ ∀ s t : TagState UInt8, SinkClear s → Reaches (fun _ _ _ => True) s t → SinkClear t) ∧
    ∃ t, Reaches (fun _ _ _ => True) raxTainted t ∧ t.gpr dftRegRcx 1 = 1 := by
  have mov : Reaches (fun _ _ _ => True) raxTainted (raxTainted.put 1 (rtags grpNum 1)) :=
    .step (movDs .rax) (.plain 0) .start trivial rfl
  constructor
  · intro claim
    exact absurd (claim _ _ raxTainted_clear mov 1) (by decide)
  · exact ⟨_,.step leaRcxRip (.plain 0) mov trivial rfl,rfl⟩

end Libdft.Core
