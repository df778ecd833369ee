import Libdft.SinkRow

/-! The bytes of the register file that no register of the row's class has. Every row has as many tags
as the widest register, and the routines are shared between the classes; none of them writes
to a byte that the general-purpose, MMX and x87 registers do not have. -/
namespace Libdft.Core

open TagTraits TagOps

/-- Byte 8 and the bytes after it, of the rows of the general-purpose, MMX and x87 registers. -/
def Place.Narrow : Place → Prop
  | reg row byte => (dftRegRdi ≤ row ∧ row < dftRegXmm0 ∨ dftRegSt0 ≤ row ∧ row < grpNum) ∧ 8 ≤ byte
  | mem _ => False

/-- Where a routine may write. -/
structure Place.Room (p : Place) : Prop where
  inside : p.Inside
  other : ¬ p.Narrow

theorem room_mem (addr : BitVec 64) : (Place.mem addr).Room := ⟨trivial,id⟩
theorem room_mtags (addr : BitVec 64) (i : Nat) : (mtags addr i).Room := room_mem _

theorem room_low {row i : Nat} (inside : row ≤ grpNum) (low : i < 8) : (rtags row i).Room :=
  ⟨⟨inside,Nat.lt_trans low (by decide)⟩,fun narrow => Nat.not_le_of_lt low narrow.2⟩

theorem room_reg (r : Reg) {i : Nat} (low : i < 8) : (rtags (regIndx r) i).Room := room_low (regIndx_le r) low

/-- Vector registers have rows between those of the others, or share the last one. -/
theorem room_vector {r : Reg} (vector : r.isXmm || r.isYmm) {i : Nat} (small : i < 32) : (rtags (regIndx r) i).Room := by
  refine ⟨⟨regIndx_le r,small⟩,fun narrow => ?_⟩
  obtain ⟨rows,-⟩ := narrow
  cases r with
  | xmm n | ymm n =>
    simp only [regIndx] at rows
    unfold dftRegRdi dftRegXmm0 dftRegSt0 grpNum at rows
    split at rows <;> omega
  | invalid | gr64 _ | gr32 _ | gr16 _ | lower8 _ | upper8 _ | zmm _ | mm _ | st _ | seg _ | other _ => cases vector

theorem inside_reg (r : Reg) {i : Nat} (small : i < 32) : (rtags (regIndx r) i).Inside := ⟨regIndx_le r,small⟩

variable {T : Type} [TagOps T]

/-- The narrow bytes are as they were. -/
def Spares (s s' : TagState T) : Prop := ∀ p : Place, p.Narrow → s'.look p = s.look p

/-- A routine that uses no index beyond the register file and spares the narrow bytes. -/
abbrev Calm (x : Analysis T α) : Prop := Confined Spares (· = Fault.nullTag) x

namespace Calm
variable {dst src : Nat → Place} {p q : Place} {tag : T}

theorem pure (a : α) : Calm (Pure.pure a : Analysis T α) := Confined.pure (fun _ _ _ => rfl) a

theorem skip : Calm (Pure.pure () : Analysis T Unit) := pure ()

theorem bind {x : Analysis T α} {f : α → Analysis T β} (first : Calm x) (rest : ∀ a, Calm (f a)) : Calm (x >>= f) :=
  Confined.bind (fun _ _ _ h h' p narrow => (h' p narrow).trans (h p narrow)) first rest

theorem ite {c : Prop} [Decidable c] {x y : Analysis T α} (yes : c → Calm x) (no : ¬ c → Calm y) :
    Calm (if c then x else y) := by
  split
  next h => exact yes h
  next h => exact no h

theorem forEach {body : Nat → Analysis T Unit} (each : ∀ k < n, Calm (body k)) : Calm (forEach n body) :=
  Confined.forM (fun _ _ _ => rfl) (fun _ _ _ h h' p narrow => (h' p narrow).trans (h p narrow))
    fun k mem => each k (List.mem_range.mp mem)

theorem fetch (inside : p.Inside) : Calm (fetch p : Analysis T T) := by
  constructor
  · intro s tag s' run
    unfold Core.fetch at run
    rw [if_pos inside] at run
    cases read : s.look p with
    | none => simp [read] at run
    | some found =>
      simp only [read,Except.ok.injEq,Prod.mk.injEq] at run
      exact run.2 ▸ fun _ _ => rfl
  · intro s fault run
    unfold Core.fetch at run
    rw [if_pos inside] at run
    cases read : s.look p with
    | none =>
      simp only [read,Except.error.injEq] at run
      exact run.symm
    | some found => simp [read] at run

theorem assign (room : p.Room) (tag : T) : Calm (assign p tag) := by
  constructor
  · intro s _ s' run q narrow
    rw [assign_ok room.inside] at run
    simp only [Except.ok.injEq,Prod.mk.injEq,true_and] at run
    rw [← run,TagState.look_put,if_neg]
    rintro rfl
    exact room.other narrow
  · intro s fault run
    rw [assign_ok room.inside] at run
    cases run

theorem copy (room : p.Room) (inside : q.Inside) : Calm (copy p q : Analysis T Unit) :=
  bind (fetch inside) fun _ => assign room _

theorem combine (room : p.Room) (inside : q.Inside) : Calm (combine p q : Analysis T Unit) :=
  bind (fetch room.inside) fun _ => bind (fetch inside) fun _ => assign room _

theorem fetchEach (inside : ∀ k < n, (src k).Inside) : Calm (fetchEach n src : Analysis T (Nat → T)) := by
  refine bind ?_ fun _ => pure _
  exact Confined.mapM (fun _ _ _ => rfl) (fun _ _ _ h h' p narrow => (h' p narrow).trans (h p narrow))
    fun k mem => fetch (inside k (List.mem_range.mp mem))

theorem assignEach (room : ∀ k < n, (dst k).Room) (tags : Nat → T) : Calm (assignEach n dst tags) :=
  forEach fun k small => assign (room k small) _

theorem copyEach (room : ∀ k < n, (dst k).Room) (inside : ∀ k < n, (src k).Inside) :
    Calm (copyEach n dst src : Analysis T Unit) :=
  forEach fun k small => copy (room k small) (inside k small)

theorem clearMemory (addr : BitVec 64) (n : Nat) : Calm (clearMemory addr n : Analysis T Unit) where
  ends s _ s' run := by
    cases run
    rintro (⟨row,byte⟩ | addr) narrow
    · rfl
    · exact absurd narrow id
  fails _ _ run := nomatch run

end Calm

/-! The routines that several dispatchers insert. -/

section Routines
variable {dst src : Nat → Place} {exec : Exec}

/-- A width of eight bytes at most, for whatever register. -/
theorem copyReg_calm (r : Reg) {n : Nat} (low : n ≤ 8) (inside : ∀ k < n, (src k).Inside) :
    Calm (copyEach n (rtags (regIndx r)) src : Analysis T Unit) :=
  .copyEach (fun _ small => room_reg r (Nat.lt_of_lt_of_le small low)) inside

theorem inside_low (r : Reg) {n : Nat} (low : n ≤ 32) : ∀ k < n, (rtags (regIndx r) k).Inside :=
  fun _ small => inside_reg r (Nat.lt_of_lt_of_le small low)

theorem storeReg_calm (addr : BitVec 64) (r : Reg) {n : Nat} (low : n ≤ 32) :
    Calm (copyEach n (mtags addr) (rtags (regIndx r)) : Analysis T Unit) :=
  .copyEach (fun _ _ => room_mtags _ _) (inside_low r low)

theorem clearRow_calm (r : Reg) {n : Nat} (low : n ≤ 8) : Calm (clearRow n (regIndx r) : Analysis T Unit) :=
  .forEach fun _ small => .assign (room_reg r (Nat.lt_of_lt_of_le small low)) _

/-- What is moved into a register, by its class. -/
theorem byClass_calm {move : Place → Place → Analysis T Unit} (dst : Reg) (src : Nat → Place)
    (inside : ∀ k < 32, (src k).Inside) (calm : ∀ p q : Place, p.Room → q.Inside → Calm (move p q))
    {rest : Analysis T Unit} (restCalm : Calm rest) :
    let each n := forEach n fun i => move (rtags (regIndx dst) i) (src i)
    Calm (dst.byClass (each 8) (each 4) (each 2) (each 16) (each 32) rest) := by
  have low (n : Nat) (low : n ≤ 8) : Calm (forEach n fun i => move (rtags (regIndx dst) i) (src i)) :=
    .forEach fun k small => calm _ _ (room_reg dst (Nat.lt_of_lt_of_le small low)) (inside k (by omega))
  have vector (n : Nat) (le : n ≤ 32) (vector : dst.isXmm || dst.isYmm) :
      Calm (forEach n fun i => move (rtags (regIndx dst) i) (src i)) :=
    .forEach fun k small => calm _ _ (room_vector vector (Nat.lt_of_lt_of_le small le)) (inside k (by omega))
  cases dst with
  | gr64 _ | mm _ => exact low 8 (by decide)
  | gr32 _ => exact low 4 (by decide)
  | gr16 _ => exact low 2 (by decide)
  | xmm n => exact vector 16 (by decide) rfl
  | ymm n => exact vector 32 (by decide) rfl
  | invalid | lower8 _ | upper8 _ | zmm _ | st _ | seg _ | other _ => exact restCalm

theorem byClassStore_calm {move : Place → Place → Analysis T Unit} (src : Reg) (addr : BitVec 64)
    (calm : ∀ p q : Place, p.Room → q.Inside → Calm (move p q)) :
    let each n := forEach n fun i => move (mtags addr i) (rtags (regIndx src) i)
    Calm (src.byClass (each 8) (each 4) (each 2) (each 16) (each 32)
      (move (.mem addr) (rtags (regIndx src) (if src.isUpper8 then 1 else 0)))) := by
  have each (n : Nat) (low : n ≤ 32) : Calm (forEach n fun i => move (mtags addr i) (rtags (regIndx src) i)) :=
    .forEach fun k small => calm _ _ (room_mtags addr k) (inside_low src low k small)
  apply Reg.byClass_ind (p := fun x => Calm x)
  · exact each 8 (by decide)
  · exact each 4 (by decide)
  · exact each 2 (by decide)
  · exact each 16 (by decide)
  · exact each 32 (by decide)
  · refine calm _ _ (room_mem addr) (inside_reg src ?_)
    split <;> decide

theorem byHalf_calm (move : Place → Place → Analysis T Unit) (dst src : Reg)
    (calm : ∀ p q : Place, p.Room → q.Room → Calm (move p q)) :
    let half i j := move (rtags (regIndx dst) i) (rtags (regIndx src) j)
    Calm (byHalf dst src (half 0 0) (half 1 1) (half 0 1) (half 1 0)) := by
  have half (i j : Nat) (low : i < 8) (low' : j < 8) : Calm (move (rtags (regIndx dst) i) (rtags (regIndx src) j)) :=
    calm _ _ (room_reg dst low) (room_reg src low')
  simp only [byHalf]
  refine .ite (fun _ => half 0 0 ?_ ?_) fun _ => .ite (fun _ => half 1 1 ?_ ?_) fun _ =>
    .ite (fun _ => half 0 1 ?_ ?_) fun _ => half 1 0 ?_ ?_
  all_goals decide

theorem r2rXfer_calm (dst src : Reg) : Calm (r2rXfer dst src (regIndx dst) (regIndx src) : Analysis T Unit) := by
  have half := byHalf_calm (T := T) copy dst src fun _ _ room room' => .copy room room'.inside
  rw [r2rXfer_eq]
  exact byClass_calm dst _ (fun _ => inside_reg src) (fun _ _ => .copy) half

theorem r2rBinary_calm (dst src : Reg) : Calm (r2rBinary dst src (regIndx dst) (regIndx src) : Analysis T Unit) := by
  have half := byHalf_calm (T := T) combine dst src fun _ _ room room' => .combine room room'.inside
  rw [r2rBinary_eq]
  exact byClass_calm dst _ (fun _ => inside_reg src) (fun _ _ => .combine) half

theorem room_half (r : Reg) : (rtags (regIndx r) (if r.isUpper8 then 1 else 0)).Room := by
  refine room_reg r ?_
  split <;> decide

theorem m2rXfer_calm (dst : Reg) (addr : BitVec 64) : Calm (m2rXfer dst (regIndx dst) addr : Analysis T Unit) := by
  rw [m2rXfer_eq]
  exact byClass_calm dst _ (fun _ _ => mtags_inside addr) (fun _ _ => .copy) (.copy (room_half dst) trivial)

theorem m2rBinary_calm (dst : Reg) (addr : BitVec 64) : Calm (m2rBinary dst (regIndx dst) addr : Analysis T Unit) := by
  rw [m2rBinary_eq]
  refine byClass_calm dst _ (fun _ _ => mtags_inside addr) (fun _ _ => .combine) ?_
  exact .bind (.fetch trivial) fun _ => .bind (.fetch (room_half dst).inside) fun _ => .assign (room_half dst) _

theorem insXferOp_calm (ins : Ins) (exec : Exec) : Calm ((insXferOp ins).run exec : Analysis T Unit) := by
  unfold insXferOp
  split
  · simpa using r2rXfer_calm (ins.operandReg 0) (ins.operandReg 1)
  · split
    · simpa using m2rXfer_calm (ins.operandReg 0) exec.memoryreadEa
    · rw [run_r2mCall,r2mXfer_eq]
      exact byClassStore_calm (ins.operandReg 1) _ fun _ _ => .copy

theorem insBinaryOp_calm (ins : Ins) (exec : Exec) : Calm ((insBinaryOp ins).run exec : Analysis T Unit) := by
  unfold insBinaryOp
  split
  · exact .skip
  · split
    · simpa using r2rBinary_calm (ins.operandReg 0) (ins.operandReg 1)
    · split
      · simpa using m2rBinary_calm (ins.operandReg 0) exec.memoryreadEa
      · rw [run_r2mCall,r2mBinary_eq]
        exact byClassStore_calm (ins.operandReg 1) _ fun _ _ => .combine

theorem clearByte_calm (r : Reg) {i : Nat} (low : i < 8) :
    Calm (assign (rtags (regIndx r) i) clearedVal : Analysis T Unit) := .assign (room_reg r low) _

theorem insClearOp_calm (ins : Ins) (exec : Exec) : Calm ((insClearOp ins).run exec : Analysis T Unit) := by
  have vector (known : (ins.operandReg 0).isXmm || (ins.operandReg 0).isYmm) :
      Calm (clearRow 16 (regIndx (ins.operandReg 0)) : Analysis T Unit) :=
    .forEach fun _ small => .assign (room_vector known (Nat.lt_trans small (by decide))) _
  unfold insClearOp
  split
  · simpa using Calm.clearMemory _ _
  · dsimp only
    repeat' split
    all_goals rw [run_rCall]
    · exact clearRow_calm _ (by decide)
    · exact clearRow_calm _ (by decide)
    · exact clearRow_calm _ (by decide)
    next known => exact vector (by simp [known])
    · exact clearRow_calm _ (by decide)
    next known => exact vector (by simp [known])
    · exact clearByte_calm _ (by decide)
    · exact clearByte_calm _ (by decide)

theorem insClearOpPredicated_calm (ins : Ins) (exec : Exec) :
    Calm ((insClearOpPredicated ins).run exec : Analysis T Unit) := by
  unfold insClearOpPredicated
  dsimp only
  repeat' split
  all_goals
    simp only [run_predicated,run_rCall,run_mClearN]
    refine .ite (fun _ => ?_) fun _ => .skip
  · exact clearByte_calm _ (by decide)
  · exact clearByte_calm _ (by decide)
  · exact .clearMemory _ _

/-! Routines that name their registers. -/

theorem room_named {row i : Nat} (named : row ∈ [dftRegHelper1,dftRegRdx,dftRegRcx,dftRegRbx,dftRegRax]) (low : i < 8) :
    (rtags row i).Room := by
  refine room_low ?_ low
  revert row
  decide

theorem rClrl2_calm : Calm (rClrl2 : Analysis T Unit) :=
  .forEach fun _ low => .bind (.assign (room_named (by decide) low) _) fun _ => .assign (room_named (by decide) low) _

theorem rClrl4_calm : Calm (rClrl4 : Analysis T Unit) :=
  .forEach fun _ low => .bind (.assign (room_named (by decide) low) _) fun _ =>
    .bind (.assign (room_named (by decide) low) _) fun _ => .bind (.assign (room_named (by decide) low) _) fun _ =>
      .assign (room_named (by decide) low) _

/-- The rows of RDX and RAX, for the routines that have them for a second destination. -/
theorem room_rdx {n : Nat} (low : n ≤ 8) : ∀ k < n, (rtags dftRegRdx k).Room :=
  fun _ small => room_named (by decide) (Nat.lt_of_lt_of_le small low)

theorem room_rax {n : Nat} (low : n ≤ 8) : ∀ k < n, (rtags dftRegRax k).Room :=
  fun _ small => room_named (by decide) (Nat.lt_of_lt_of_le small low)

theorem unitaryByte_calm (tag : T) : Calm (unitaryByte tag) :=
  .forEach fun k small => by
    have room := room_rax (by decide : 2 ≤ 8) k small
    exact .bind (.fetch room.inside) fun _ => .assign room _

theorem unitaryEach_calm {n : Nat} (low : n ≤ 8) (inside : ∀ k < n, (src k).Inside) :
    Calm (unitaryEach n src : Analysis T Unit) := by
  have rdx := room_rdx low
  have rax := room_rax low
  refine .bind (.fetchEach inside) fun _ => .bind (.fetchEach fun k small => (rdx k small).inside) fun _ => ?_
  refine .bind (.fetchEach fun k small => (rax k small).inside) fun _ => .forEach fun k small => ?_
  exact .bind (.assign (rdx k small) _) fun _ => .assign (rax k small) _

theorem insUnitaryOp_calm (ins : Ins) (exec : Exec) : Calm ((insUnitaryOp ins).run exec : Analysis T Unit) := by
  have rdx := room_rdx (by decide : 2 ≤ 8)
  have rax := room_rax (by decide : 2 ≤ 8)
  have byte (i : Nat) (small : i < 32) : Calm (do unitaryByte (← fetch (rtags (regIndx (ins.operandReg 0)) i)) : Analysis T Unit) :=
    .bind (.fetch (inside_reg _ small)) unitaryByte_calm
  have word : Calm (r2rUnitaryOpw (regIndx (ins.operandReg 0)) : Analysis T Unit) :=
    .bind (.fetchEach (inside_low _ (by decide))) fun _ => .bind (.fetchEach fun k small => (rdx k small).inside) fun _ =>
      .bind (.fetchEach fun k small => (rax k small).inside) fun _ => .bind (.assignEach rdx _) fun _ => .assignEach rax _
  have memory : Calm (m2rUnitaryOpb exec.memoryreadEa : Analysis T Unit) :=
    .bind (.fetch trivial) fun _ => .bind (.fetchEach fun k small => (rax k small).inside) fun _ => .assignEach rax _
  unfold insUnitaryOp
  dsimp only
  repeat' split
  all_goals simp only [run_mCallR,run_rCall]
  case h_1 | h_2 | h_3 => exact unitaryEach_calm (by decide) fun _ _ => mtags_inside _
  case h_4 => exact memory
  · exact unitaryEach_calm (by decide) (inside_low _ (by decide))
  · exact unitaryEach_calm (by decide) (inside_low _ (by decide))
  · exact word
  · exact byte 1 (by decide)
  · exact byte 0 (by decide)

/-! Dispatchers by the class of a general-purpose register, or for want of another one. -/

theorem insXferOpPredicated_calm (ins : Ins) (exec : Exec) :
    Calm ((insXferOpPredicated ins).run exec : Analysis T Unit) := by
  unfold insXferOpPredicated
  dsimp only
  repeat' split
  all_goals
    simp only [run_r2rCallP,run_m2rCallP]
    refine .ite (fun _ => copyReg_calm _ (by decide) ?_) fun _ => .skip
  all_goals first | exact inside_low _ (by decide) | exact fun _ _ => mtags_inside _

theorem insMovbeOp_calm (ins : Ins) (exec : Exec) : Calm ((insMovbeOp ins).run exec : Analysis T Unit) := by
  unfold insMovbeOp
  dsimp only
  repeat' split
  all_goals simp only [run_r2mCall,run_m2rCall,run_nil]
  all_goals
    first
    | exact .skip
    | exact copyReg_calm _ (by decide) fun _ _ => mtags_inside _
    | exact .copyEach (fun _ _ => room_mtags _ _) fun _ _ => inside_reg _ (by omega)

theorem repeatTag_calm (r : Reg) {n : Nat} (low : n ≤ 8) {p : Place} (inside : p.Inside) :
    Calm (repeatTag n (regIndx r) p : Analysis T Unit) :=
  .bind (.fetch inside) fun _ => .assignEach (fun _ small => room_reg r (Nat.lt_of_lt_of_le small low)) _

theorem repeatTags_calm (r : Reg) {n : Nat} (low : n ≤ 8) (size : Nat) (addr : BitVec 64) :
    Calm (repeatTags n size (regIndx r) addr : Analysis T Unit) :=
  .bind (.fetchEach fun _ _ => mtags_inside _) fun _ =>
    .assignEach (fun _ small => room_reg r (Nat.lt_of_lt_of_le small low)) _

theorem insMovsxOp_calm (ins : Ins) (exec : Exec) : Calm ((insMovsxOp ins).run exec : Analysis T Unit) := by
  unfold insMovsxOp
  dsimp only
  repeat' split
  all_goals simp only [run_r2rCall,run_m2rCall,run_nil]
  all_goals
    first
    | exact .skip
    | exact repeatTag_calm _ (by decide) trivial
    | exact repeatTag_calm _ (by decide) (inside_reg _ (by decide))
    | exact repeatTags_calm _ (by decide) _ _
    | exact copyReg_calm _ (by decide) fun _ _ => inside_reg _ (by omega)

theorem insMovsxdOp_calm (ins : Ins) (exec : Exec) : Calm ((insMovsxdOp ins).run exec : Analysis T Unit) := by
  rw [insMovsxdOp,run_append]
  refine .bind ?_ fun _ => ?_
  · split
    · exact .skip
    · exact insXferOp_calm ins exec
  · split
    · rw [run_r2rCall]
      exact copyReg_calm _ (by decide) fun _ _ => inside_reg _ (by omega)
    · rw [run_m2rCall]
      exact repeatTags_calm _ (by decide) 4 _

/-! Exchanges. -/

theorem room_helper {n : Nat} (low : n ≤ 8) : ∀ k < n, (rtags dftRegHelper1 k).Room :=
  fun _ small => room_named (by decide) (Nat.lt_of_lt_of_le small low)

theorem cmpxchgFast_calm {saved n : Nat} (low : saved ≤ 8) (low' : n ≤ 8) (inside : ∀ k < n, (src k).Inside)
    (answer : Bool) : Calm (do cmpxchgFast saved n src; return answer : Analysis T Bool) := by
  refine .bind ?_ fun _ => .pure answer
  refine .bind (.fetchEach fun k small => (room_rax low k small).inside) fun _ => ?_
  refine .bind (.assignEach (room_helper low) _) fun _ => ?_
  exact .bind (.fetchEach inside) fun _ => .assignEach (room_rax low') _

theorem cmpxchgSlow_calm {saved n : Nat} (low : saved ≤ 8) (room : ∀ k < n, (dst k).Room)
    (inside : ∀ k < n, (src k).Inside) : Calm (cmpxchgSlow saved n dst src : Analysis T Unit) := by
  refine .bind (.fetchEach fun k small => (room_helper low k small).inside) fun _ => ?_
  refine .bind (.assignEach (room_rax low) _) fun _ => ?_
  exact .bind (.fetchEach inside) fun _ => .assignEach room _

theorem ifThen_calm {test : Analysis T Bool} {fn : Analysis T Unit} (tested : Calm test) (done : Calm fn) :
    Calm (do if ← test then fn) :=
  .bind tested fun _ => .ite (fun _ => done) fun _ => .skip

theorem insCmpxchgOp_calm (ins : Ins) (exec : Exec) : Calm ((insCmpxchgOp ins).run exec : Analysis T Unit) := by
  have r2r (dst src : Reg) (saved n : Nat) (low : saved ≤ 8) (low' : n ≤ 8) (answer : Bool) :
      Calm (do if ← (do cmpxchgFast saved n (rtags (regIndx dst)); return answer) then
        cmpxchgSlow saved n (rtags (regIndx dst)) (rtags (regIndx src)) : Analysis T Unit) :=
    ifThen_calm (cmpxchgFast_calm low low' (inside_low dst (by omega)) answer)
      (cmpxchgSlow_calm low (fun _ small => room_reg dst (Nat.lt_of_lt_of_le small low')) (inside_low src (by omega)))
  have r2m (read write : BitVec 64) (src : Reg) (saved n : Nat) (low : saved ≤ 8) (low' : n ≤ 8) (answer : Bool) :
      Calm (do if ← (do cmpxchgFast saved n (mtags read); return answer) then
        cmpxchgSlow saved n (mtags write) (rtags (regIndx src)) : Analysis T Unit) :=
    ifThen_calm (cmpxchgFast_calm low low' (fun _ _ => mtags_inside read) answer)
      (cmpxchgSlow_calm low (fun _ _ => room_mtags write _) (inside_low src (by omega)))
  unfold insCmpxchgOp
  dsimp only
  repeat' split
  all_goals simp only [cmpxchgR2r,cmpxchgR2m,run_ifThenCall,run_nil]
  · exact r2r _ _ 8 8 (by decide) (by decide) _
  · exact r2r _ _ 4 4 (by decide) (by decide) _
  · exact r2r _ _ 4 2 (by decide) (by decide) _
  · exact .skip
  · exact r2m _ _ _ 8 8 (by decide) (by decide) _
  · exact r2m _ _ _ 4 4 (by decide) (by decide) _
  · exact r2m _ _ _ 4 2 (by decide) (by decide) _
  · exact .skip

theorem exchange_calm {n : Nat} (room : ∀ k < n, (dst k).Room) (room' : ∀ k < n, (src k).Room) :
    Calm (exchange n dst src : Analysis T Unit) :=
  .bind (.fetchEach fun k small => (room k small).inside) fun _ =>
    .bind (.fetchEach fun k small => (room' k small).inside) fun _ =>
      .bind (.assignEach room _) fun _ => .assignEach room' _

theorem xaddByte_calm {p q : Place} (room : p.Room) (room' : q.Room) : Calm (xaddByte p q : Analysis T Unit) :=
  .bind (.fetch room.inside) fun _ => .bind (.combine room room'.inside) fun _ => .assign room' _

theorem xaddEach_calm {n : Nat} (room : ∀ k < n, (dst k).Room) (room' : ∀ k < n, (src k).Room) :
    Calm (xaddEach n dst src : Analysis T Unit) :=
  .bind (.fetchEach fun k small => (room k small).inside) fun _ =>
    .bind (.fetchEach fun k small => (room' k small).inside) fun _ =>
      .forEach fun k small => .bind (.assign (room k small) _) fun _ => .assign (room' k small) _

theorem xaddR2m_calm {n : Nat} (room : ∀ k < n, (dst k).Room) (room' : ∀ k < n, (src k).Room) :
    Calm (xaddR2m n dst src : Analysis T Unit) :=
  .bind (.fetchEach fun k small => (room' k small).inside) fun _ =>
    .bind (.fetchEach fun k small => (room k small).inside) fun _ =>
      .bind (.assignEach room' _) fun _ => .assignEach room _

theorem xaddR2rOpw_calm (dst src : Reg) : Calm (xaddR2rOpw (regIndx dst) (regIndx src) : Analysis T Unit) := by
  have room (r : Reg) (k : Nat) (small : k < 2) : (rtags (regIndx r) k).Room := room_reg r (by omega)
  exact .bind (.fetchEach fun k small => (room dst k small).inside) fun _ =>
    .bind (.fetchEach fun k small => (room src k small).inside) fun _ =>
      .bind (.assignEach (room dst) _) fun _ => .assignEach (room src) _

/-- The scratch row and the rows of two registers. -/
theorem xchgByHelper_calm (dst src : Reg) {n : Nat} (low : n ≤ 8) (exec : Exec) :
    Calm ((xchgByHelper (fun d s => copyEach n (rtags d) (rtags s)) dst src).run exec : Analysis T Unit) := by
  let move (d p : Nat) : Analysis T Unit := copyEach n (rtags d) (rtags p)
  have run : (xchgByHelper move dst src).run exec =
      (do move 0 (regIndx dst); move (regIndx dst) (regIndx src); move (regIndx src) 0) := by
    simp [xchgByHelper,Calls.run]
  have helper := room_helper low
  rw [run]
  refine .bind (.copyEach helper (inside_low dst (by omega))) fun _ => ?_
  refine .bind (copyReg_calm dst low (inside_low src (by omega))) fun _ => ?_
  exact copyReg_calm src low fun k small => (helper k small).inside

theorem xchgM2r_calm (r : Reg) (addr : BitVec 64) : Calm (xchgM2r r (regIndx r) addr : Analysis T Unit) := by
  unfold xchgM2r
  repeat' split
  all_goals
    refine exchange_calm (fun k small => ?_) fun _ _ => room_mem _
    exact room_reg r (by omega)

theorem insXchgOp_calm (ins : Ins) (exec : Exec) : Calm ((insXchgOp ins).run exec : Analysis T Unit) := by
  generalize dstIs : ins.operandReg 0 = dst
  generalize srcIs : ins.operandReg 1 = src
  unfold insXchgOp
  dsimp only
  rw [dstIs,srcIs]
  split
  · split
    · exact xchgByHelper_calm dst src (by decide : 8 ≤ 8) exec
    · split
      · exact xchgByHelper_calm dst src (by decide : 4 ≤ 8) exec
      · split
        · rw [run_r2rCall]
          exact exchange_calm (fun _ _ => room_reg dst (by omega)) fun _ _ => room_reg src (by omega)
        · split
          · rw [run_r2rCall]
            have half := byHalf_calm (T := T) (fun d p => exchange 1 (fun _ => d) fun _ => p) dst src
              fun _ _ room room' => exchange_calm (fun _ _ => room) fun _ _ => room'
            cases dst <;> cases src <;> exact half
          · exact .skip
  · split
    · rw [run_m2rCall]
      exact xchgM2r_calm dst _
    · rw [run_single]
      exact xchgM2r_calm src _

theorem insXaddOp_calm (ins : Ins) (exec : Exec) : Calm ((insXaddOp ins).run exec : Analysis T Unit) := by
  generalize dstIs : ins.operandReg 0 = dst
  generalize srcIs : ins.operandReg 1 = src
  have each (n : Nat) (low : n ≤ 8) : ∀ k < n, (rtags (regIndx src) k).Room := fun _ small => room_reg src (by omega)
  have byte (i : Nat) (low : i < 8) : ∀ k < 1, (rtags (regIndx src) i).Room := fun _ _ => room_reg src low
  unfold insXaddOp
  dsimp only
  rw [dstIs,srcIs]
  split
  · split
    · rw [run_r2rCall]
      exact xaddEach_calm (fun _ small => room_reg dst small) (each 8 (by decide))
    · split
      · rw [run_r2rCall]
        exact xaddEach_calm (fun _ small => room_reg dst (by omega)) (each 4 (by decide))
      · split
        · rw [run_r2rCall]
          exact xaddR2rOpw_calm dst src
        · split
          · rw [run_r2rCall]
            have half := byHalf_calm (xaddByte (T := T)) dst src fun _ _ => xaddByte_calm
            cases dst <;> cases src <;> exact half
          · exact .skip
  · repeat' split
    all_goals rw [run_r2mCall]
    · exact xaddEach_calm (fun _ _ => room_mtags _ _) (each 8 (by decide))
    · exact xaddEach_calm (fun _ _ => room_mtags _ _) (each 4 (by decide))
    · exact xaddR2m_calm (fun _ _ => room_mtags _ _) (each 2 (by decide))
    · exact xaddR2m_calm (fun _ _ => room_mem _) (byte 1 (by decide))
    · exact xaddR2m_calm (fun _ _ => room_mem _) (byte 0 (by decide))

/-! Addresses, strings and the stack. -/

theorem lea_calm (dst base index : Reg) {n : Nat} (low : n ≤ 8) :
    Calm (lea n (regIndx dst) (regIndx base) (regIndx index) : Analysis T Unit) :=
  .forEach fun _ small => .bind (.fetch (inside_reg base (by omega))) fun _ =>
    .bind (.fetch (inside_reg index (by omega))) fun _ => .assign (room_reg dst (by omega)) _

theorem insLea_calm (ins : Ins) (exec : Exec) : Calm ((insLea ins).run exec : Analysis T Unit) := by
  unfold insLea leaSized
  dsimp only
  repeat' split
  all_goals try simp only [run_r2rCall,run_rr2rCall,run_nil]
  all_goals
    first
    | exact .skip
    | exact insClearOp_calm _ _
    | exact lea_calm _ _ _ (by decide)
    | exact copyReg_calm _ (by decide) (inside_low _ (by decide))

theorem m2mXfer_calm (ins : Ins) (exec : Exec) : Calm ((m2mXfer ins).run exec : Analysis T Unit) := by
  unfold m2mXfer
  repeat' split
  all_goals
    simp only [run_m2mCall]
    exact .ite (fun _ => .copyEach (fun _ _ => room_mtags _ _) fun _ _ => mtags_inside _) fun _ => .skip

theorem insPushOp_calm (ins : Ins) (exec : Exec) : Calm ((insPushOp ins).run exec : Analysis T Unit) := by
  unfold insPushOp
  dsimp only
  repeat' split
  all_goals try simp only [run_r2mCall,run_mClearN]
  all_goals
    first
    | exact storeReg_calm _ _ (by decide)
    | exact m2mXfer_calm _ _
    | exact .clearMemory _ _

theorem insPopOp_calm (ins : Ins) (exec : Exec) : Calm ((insPopOp ins).run exec : Analysis T Unit) := by
  unfold insPopOp
  dsimp only
  repeat' split
  all_goals try simp only [run_m2rCall,run_nil]
  all_goals
    first
    | exact .skip
    | exact m2mXfer_calm _ _
    | exact copyReg_calm _ (by decide) fun _ _ => mtags_inside _

theorem stosLoop_calm {size : Nat} (low : size ≤ 8) (dst len eflags : BitVec 64) :
    Calm (stosLoop size dst len eflags : Analysis T Unit) :=
  .bind (.fetchEach fun k small => (room_rax low k small).inside) fun _ =>
    .ite (fun _ => .forEach fun _ _ => .assign (room_mtags _ _) _) fun _ => .forEach fun _ _ => .assign (room_mtags _ _) _

/-- Both forms of a string store. -/
theorem insStos_calm {fn : BitVec 64 → BitVec 64 → BitVec 64 → Analysis T Unit} {element : BitVec 64 → Nat → Analysis T Unit}
    (all : ∀ dst count eflags, Calm (fn dst count eflags)) (r : Reg) (one : ∀ dst, Calm (element dst (regIndx r)))
    (ins : Ins) (exec : Exec) :
    Calm ((if ins.repPrefix then insStosIns ins fn else r2mCall element r).run exec) := by
  split
  · simp only [insStosIns,run_predicated,run_ifThenCall]
    exact .ite (fun _ => ifThen_calm (.pure _) (all _ _ _)) fun _ => .skip
  · rw [run_r2mCall]
    exact one _

theorem m2rRestore_calm {shift : Nat} (narrow : shift ≤ 2) (addr : BitVec 64) :
    Calm (m2rRestore shift addr : Analysis T Unit) := by
  have width : 1 <<< shift ≤ 4 := by
    rw [Nat.one_shiftLeft]
    exact Nat.pow_le_pow_right (by decide) narrow
  refine .forEach fun i small => .ite (fun _ => .skip) fun _ => ?_
  refine .bind (.fetchEach fun _ _ => mtags_inside _) fun _ => .assignEach (fun k below => ?_) _
  refine room_low ?_ (by omega)
  unfold dftRegRdi grpNum
  omega

theorem r2mSave_calm {shift : Nat} (narrow : shift ≤ 2) (addr : BitVec 64) :
    Calm (r2mSave shift addr : Analysis T Unit) := by
  have width : 1 <<< shift ≤ 4 := by
    rw [Nat.one_shiftLeft]
    exact Nat.pow_le_pow_right (by decide) narrow
  refine .forEach fun i small => .ite (fun _ => .skip) fun _ => ?_
  refine .bind (.fetchEach fun k below => (room_low ?_ (by omega)).inside) fun _ => .assignEach (fun _ _ => room_mtags _ _) _
  unfold dftRegXmm0 dftRegRdi at *
  unfold grpNum
  omega

theorem insMovlp_calm (ins : Ins) (exec : Exec) : Calm ((insMovlp ins).run exec : Analysis T Unit) := by
  unfold insMovlp
  split
  · rw [run_r2mCall]
    exact storeReg_calm _ _ (by decide)
  · rw [run_m2rCall]
    exact copyReg_calm _ (by decide) fun _ _ => mtags_inside _

end Routines

/-- The register operands of `MOVLP*` and `MOVHP*` are XMM registers. -/
def HalvesXmm (ins : Ins) : Prop :=
  ins.opcode.entry = .movlp ∨ ins.opcode.entry = .movhp → ∀ r, .reg r ∈ ins.operands → r.isXmm

theorem operandReg_cases (ins : Ins) (k : Nat) : ins.operandReg k = .invalid ∨ .reg (ins.operandReg k) ∈ ins.operands := by
  unfold Ins.operandReg
  split
  next r read => exact .inr (List.mem_of_getElem? read)
  next => exact .inl rfl

/-- The upper half is written to XMM registers only, or to the row that has no class. -/
theorem insMovhp_calm (ins : Ins) (exec : Exec) (halves : ∀ r, .reg r ∈ ins.operands → r.isXmm) :
    Calm ((insMovhp ins).run exec : Analysis T Unit) := by
  unfold insMovhp
  split
  · rw [run_r2mCall]
    exact .copyEach (fun _ _ => room_mtags _ _) fun _ _ => inside_reg _ (by omega)
  · rw [run_m2rCall]
    refine .copyEach (fun i small => ?_) fun _ _ => mtags_inside _
    rcases operandReg_cases ins 0 with invalid | member
    · rw [invalid]
      refine ⟨inside_reg _ (by omega),fun narrow => ?_⟩
      exact absurd narrow.1 (by decide)
    · exact room_vector (by simp [halves _ member]) (by omega)

section Inserted
variable {exec : Exec}

theorem call_calm {fn : Analysis T Unit} (calm : Calm fn) : Calm ((call fn).run exec) := by
  simpa using calm

theorem mCallR_calm {fn : BitVec 64 → Analysis T Unit} (calm : Calm (fn exec.memoryreadEa)) :
    Calm ((mCallR fn).run exec) := by
  simpa using calm

theorem mCallW_calm {fn : BitVec 64 → Analysis T Unit} (calm : Calm (fn exec.memorywriteEa)) :
    Calm ((mCallW fn).run exec) := by
  simpa using calm

theorem m2rCallP_calm {fn : Nat → BitVec 64 → Analysis T Unit} {dst : Reg}
    (calm : Calm (fn (regIndx dst) exec.memoryreadEa)) : Calm ((m2rCallP fn dst).run exec) := by
  rw [run_m2rCallP]
  exact .ite (fun _ => calm) fun _ => .skip

theorem m2mCall_calm {fn : BitVec 64 → BitVec 64 → Analysis T Unit}
    (calm : Calm (fn exec.memorywriteEa exec.memoryreadEa)) : Calm ((m2mCall fn).run exec) := by
  rw [run_m2mCall]
  exact .ite (fun _ => calm) fun _ => .skip

end Inserted

/-- One execution of any instruction. -/
theorem analyse_calm (ins : Ins) (exec : Exec) (halves : HalvesXmm ins) : Calm (analyse ins exec : Analysis T Unit) := by
  have rax (i : Nat) (low : i < 8) : (rtags dftRegRax i).Room := room_rax (le_refl 8) i low
  have rdx (i : Nat) (low : i < 8) : (rtags dftRegRdx i).Room := room_rdx (le_refl 8) i low
  have mov : Calm ((movBody ins).run exec : Analysis T Unit) := by
    unfold movBody
    split
    · exact insClearOp_calm ins exec
    · exact insXferOp_calm ins exec
  unfold analyse insInspect
  cases entry : ins.opcode.entry
  case binary => exact insBinaryOp_calm ins exec
  case binaryUnlessEqual =>
    dsimp only
    split
    · exact insClearOp_calm ins exec
    · exact insBinaryOp_calm ins exec
  case unitary => exact insUnitaryOp_calm ins exec
  case imul =>
    dsimp only
    split
    · exact insUnitaryOp_calm ins exec
    · exact insBinaryOp_calm ins exec
  case binaryThenMov =>
    dsimp only
    rw [run_append]
    exact .bind (insBinaryOp_calm ins exec) fun _ => mov
  case mov => exact mov
  case xfer => exact insXferOp_calm ins exec
  case movlp => exact insMovlp_calm ins exec
  case movhp => exact insMovhp_calm ins exec (halves (.inr entry))
  case cmov => exact insXferOpPredicated_calm ins exec
  case movbe => exact insMovbeOp_calm ins exec
  case movsx => exact insMovsxOp_calm ins exec
  case movsxd => exact insMovsxdOp_calm ins exec
  case cbw => exact call_calm (.copy (rax 1 (by decide)) (rax 0 (by decide)).inside)
  case cwd => exact call_calm (.copyEach (fun i _ => rdx i (by omega)) fun i _ => (rax i (by omega)).inside)
  case cwde => exact call_calm (.copyEach (fun i _ => rax (i + 2) (by omega)) fun i _ => (rax i (by omega)).inside)
  case cdq => exact call_calm (.copyEach (fun i _ => rdx i (by omega)) fun i _ => (rax i (by omega)).inside)
  case cdqe => exact call_calm (.copyEach (fun i _ => rax (i + 4) (by omega)) fun i _ => (rax i (by omega)).inside)
  case cqo => exact call_calm (.copyEach rdx fun i low => (rax i low).inside)
  case set => exact insClearOpPredicated_calm ins exec
  case clear => exact insClearOp_calm ins exec
  case clearL2 => exact call_calm rClrl2_calm
  case clearL4 => exact call_calm rClrl4_calm
  case cmpxchg => exact insCmpxchgOp_calm ins exec
  case xchg => exact insXchgOp_calm ins exec
  case xadd => exact insXaddOp_calm ins exec
  case xlat =>
    dsimp only
    rw [run_m2rCall]
    exact .copy (rax 0 (by decide)) trivial
  case lodsb => exact m2rCallP_calm (.copy (rax 0 (by decide)) trivial)
  case lodsw => exact m2rCallP_calm (copyReg_calm _ (by decide) fun _ _ => mtags_inside _)
  case lodsd => exact m2rCallP_calm (copyReg_calm _ (by decide) fun _ _ => mtags_inside _)
  case lodsq => exact m2rCallP_calm (copyReg_calm _ (by decide) fun _ _ => mtags_inside _)
  case stosb =>
    exact insStos_calm (fun _ _ _ => stosLoop_calm (by decide) _ _ _) _
      (fun _ => .copy (room_mem _) (rax 0 (by decide)).inside) ins exec
  case stosw =>
    exact insStos_calm (fun _ _ _ => stosLoop_calm (by decide) _ _ _) _ (fun _ => storeReg_calm _ _ (by decide)) ins exec
  case stosd =>
    exact insStos_calm (fun _ _ _ => stosLoop_calm (by decide) _ _ _) _ (fun _ => storeReg_calm _ _ (by decide)) ins exec
  case stosq =>
    exact insStos_calm (fun _ _ _ => stosLoop_calm (by decide) _ _ _) _ (fun _ => storeReg_calm _ _ (by decide)) ins exec
  case movsq => exact m2mCall_calm (.copyEach (fun _ _ => room_mtags _ _) fun _ _ => mtags_inside _)
  case movsd => exact m2mCall_calm (.copyEach (fun _ _ => room_mtags _ _) fun _ _ => mtags_inside _)
  case movsw => exact m2mCall_calm (.copyEach (fun _ _ => room_mtags _ _) fun _ _ => mtags_inside _)
  case movsb => exact m2mCall_calm (.copy (room_mem _) trivial)
  case pop => exact insPopOp_calm ins exec
  case push => exact insPushOp_calm ins exec
  case popa => exact mCallR_calm (m2rRestore_calm (by decide) _)
  case popad => exact mCallR_calm (m2rRestore_calm (by decide) _)
  case pusha => exact mCallW_calm (r2mSave_calm (by decide) _)
  case pushad => exact mCallW_calm (r2mSave_calm (by decide) _)
  case pushf => exact mCallW_calm (.clearMemory _ 2)
  case pushfd => exact mCallW_calm (.clearMemory _ 4)
  case pushfq => exact mCallW_calm (.clearMemory _ 8)
  case lea => exact insLea_calm ins exec
  case ignored => exact .skip

/-- The rows of the general-purpose, MMX and x87 registers have no tag beyond the bytes of the register. -/
def Slim (s : TagState T) : Prop := ∀ row byte, (Place.reg row byte).Narrow → s.gpr row byte = clearedVal

theorem slim_step {ins : Ins} {exec : Exec} {s s' : TagState T} (slim : Slim s) (halves : HalvesXmm ins)
    (step : analyse ins exec s = .ok ((),s')) : Slim s' := by
  intro row byte narrow
  have kept := (analyse_calm ins exec halves).ends s () s' step (.reg row byte) narrow
  rw [TagState.look_reg,TagState.look_reg] at kept
  exact (Option.some.inj kept).trans (slim row byte narrow)

theorem slim_run {s t : TagState T} (slim : Slim s) (run : Reaches (fun ins _ _ => HalvesXmm ins) s t) : Slim t := by
  induction run with
  | start => exact slim
  | step ins exec _ halves step ih => exact slim_step ih halves step

/-- `MOVD` or `MOVQ` from a general-purpose register to an XMM register. -/
structure GprToXmm (ins : Ins) (n : Fin 32) : Prop where
  opcode : ins.opcode ∈ [.movd,.movq,.vmovd,.vmovq]
  operands : ∃ r rest, ins.operands = .reg (.xmm n) :: .reg r :: rest ∧ (r.isGr64 || r.isGr32) ∧
    rest.countP Operand.isMemory = 0

theorem gprToXmm_clears {ins : Ins} {n : Fin 32} (moves : GprToXmm ins n) (exec : Exec) {t : TagState T} (slim : Slim t) :
    ∃ t', analyse ins exec t = .ok ((),t') ∧ ∀ j, 8 ≤ j → j < 16 → t'.gpr (regIndx (.xmm n)) j = clearedVal := by
  obtain ⟨r,rest,operands,known,none⟩ := moves.operands
  have entry : ins.opcode.entry = .xfer := by
    have opcode := moves.opcode
    simp only [List.mem_cons,List.not_mem_nil,or_false] at opcode
    rcases opcode with eq | eq | eq | eq <;> rw [eq] <;> rfl
  obtain ⟨g,row⟩ : ∃ g : Gpr, regIndx r = g.row := by
    cases r with
    | gr64 g | gr32 g => exact ⟨g,rfl⟩
    | invalid | gr16 _ | lower8 _ | upper8 _ | xmm _ | ymm _ | zmm _ | mm _ | st _ | seg _ | other _ => cases known
  have call : (analyse ins exec : Analysis T Unit) = copyEach 16 (rtags (regIndx (.xmm n))) (rtags g.row) := by
    simp only [analyse,insInspect,entry]
    rw [insXferOp,if_pos (Ins.count_registers operands none),run_r2rCall,Ins.operandReg_first operands,
      Ins.operandReg_second operands,row]
    rfl
  have rowOf : g.row < regIndx (.xmm n) := by
    have := g.row_lt
    simp only [regIndx]
    split
    · exact Nat.lt_of_lt_of_le this (Nat.le_add_right ..)
    · exact Nat.lt_trans this (by decide)
  have other (j k : Nat) : rtags (regIndx (.xmm n)) j ≠ rtags g.row k := fun same =>
    Nat.ne_of_gt rowOf (rtags_inj.mp same).1
  have dstInside : ∀ k < 16, (rtags (regIndx (.xmm n)) k).Inside := fun _ small => inside_reg (.xmm n) (by omega)
  have srcInside : ∀ k < 16, (rtags g.row k).Inside := fun _ small => inside_reg (.gr64 g) (by omega)
  obtain ⟨t',run,wrote⟩ := copyEach_wrote (s := t) (v := t.gpr g.row) _ _
    (fun j k less _ same => absurd same (rtags_apart _ less)) (fun j k _ _ same => absurd same (other j k)) dstInside
    srcInside fun _ _ => rfl
  refine ⟨t',call ▸ run,fun j high small => ?_⟩
  have hit : t'.gpr (regIndx (.xmm n)) j = t.gpr g.row j := Option.some.inj (wrote.hit j small)
  have low : dftRegRdi ≤ g.row := by cases g <;> decide
  rw [hit,slim g.row j ⟨.inl ⟨low,g.row_lt⟩,high⟩]

/-- Narrow rows stay narrow in every run of any instructions, no routine leaves the register file, and
the wide copy of a general-purpose register clears what is beyond it. -/
theorem narrow_rows {s t : TagState T} (clear : ∀ row byte, s.gpr row byte = clearedVal)
    (run : Reaches (fun ins _ _ => HalvesXmm ins) s t) :
    Slim t ∧ (∀ ins exec, HalvesXmm ins → analyse ins exec t ≠ .error .outside) ∧
      ∀ ins n, GprToXmm ins n → ∀ exec, ∃ t', analyse ins exec t = .ok ((),t') ∧
        ∀ j, 8 ≤ j → j < 16 → t'.gpr (regIndx (.xmm n)) j = clearedVal := by
  have slim : Slim t := slim_run (fun row byte _ => clear row byte) run
  refine ⟨slim,fun ins exec halves stuck => ?_,fun ins n moves exec => gprToXmm_clears moves exec slim⟩
  exact absurd ((analyse_calm ins exec halves).fails t .outside stuck) (by decide)

/-- `MOVDQU XMM0, [mem]` -/
def movdquXmm0 : Ins :=
  ⟨.movdqu,[.reg (.xmm ⟨0,Nat.succ_pos 31⟩),.mem 16],fun _ => false,.invalid,.invalid,false,.invalid⟩

/-- `MOVQ XMM0, RAX` -/
def movqXmm0Rax : Ins :=
  ⟨.movq,[.reg (.xmm ⟨0,Nat.succ_pos 31⟩),.reg (.gr64 .rax)],fun _ => false,.invalid,.invalid,false,.invalid⟩

/-- One byte of memory is tainted, and no register. -/
def memoryTainted : TagState UInt8 := ⟨fun _ _ => 0,TagMap.tagmapSetb TagMap.empty 0x1008 1⟩

/-- A vector load taints the upper half of XMM0, and the copy from RAX clears it. -/
theorem narrow_rows_movq : ∃ t : TagState UInt8, t.gpr dftRegXmm0 8 = 1 ∧
    ∃ t', analyse movqXmm0Rax (.plain 0) t = .ok ((),t') ∧ ∀ j, 8 ≤ j → j < 16 → t'.gpr dftRegXmm0 j = 0 := by
  have halves : HalvesXmm movdquXmm0 := by
    rintro (low | high)
    · cases low
    · cases high
  have moves : GprToXmm movqXmm0Rax ⟨0,Nat.succ_pos 31⟩ := ⟨by decide,.gr64 .rax,[],rfl,rfl,rfl⟩
  have clear (row byte : Nat) : memoryTainted.gpr row byte = clearedVal := rfl
  exact ⟨_,rfl,(narrow_rows clear (.step movdquXmm0 (.plain 0x1000) .start halves rfl)).2.2 _ _ moves (.plain 0)⟩

end Libdft.Core
