import Libdft.Triple
import Libdft.InsInspect

/-! What the analysis routines keep cleared: a set of places stays without taint if every tag
written to it comes from it. The routines that can write only to memory or to registers with
rows of their own, and those that clear, keep the row that the other registers share. -/
namespace Libdft.Core

open TagTraits TagOps

theorem forEach_keeps {T : Type} {P : TagState T → Prop} {body : Nat → Analysis T Unit} (each : ∀ k < n, Keeps P (body k)) :
    Keeps P (forEach n body) :=
  Keeps.forM fun k mem => each k (List.mem_range.mp mem)

theorem ifThen_keeps {T : Type} {P : TagState T → Prop} {test : Analysis T Bool} {fn : Analysis T Unit}
    (tested : Keeps P test) (done : Keeps P fn) : Keeps P (do if ← test then fn) :=
  .bind tested fun _ => .ite (fun _ => done) fun _ => Keeps.skip

section Inserted
variable {T : Type} {P : TagState T → Prop} {exec : Exec}

theorem call_keeps {fn : Analysis T Unit} (keeps : Keeps P fn) : Keeps P ((call fn).run exec) := by
  simpa using keeps

theorem mCallR_keeps {fn : BitVec 64 → Analysis T Unit} (keeps : Keeps P (fn exec.memoryreadEa)) :
    Keeps P ((mCallR fn).run exec) := by
  simpa using keeps

theorem mCallW_keeps {fn : BitVec 64 → Analysis T Unit} (keeps : Keeps P (fn exec.memorywriteEa)) :
    Keeps P ((mCallW fn).run exec) := by
  simpa using keeps

theorem m2rCall_keeps {fn : Nat → BitVec 64 → Analysis T Unit} {dst : Reg}
    (keeps : Keeps P (fn (regIndx dst) exec.memoryreadEa)) : Keeps P ((m2rCall fn dst).run exec) := by
  simpa using keeps

theorem predicated_keeps {calls : Calls T} (keeps : Keeps P (calls.run exec)) : Keeps P ((predicated calls).run exec) := by
  rw [run_predicated]
  exact .ite (fun _ => keeps) fun _ => Keeps.skip

theorem m2rCallP_keeps {fn : Nat → BitVec 64 → Analysis T Unit} {dst : Reg}
    (keeps : Keeps P (fn (regIndx dst) exec.memoryreadEa)) : Keeps P ((m2rCallP fn dst).run exec) :=
  predicated_keeps (m2rCall_keeps keeps)

theorem m2mCall_keeps {fn : BitVec 64 → BitVec 64 → Analysis T Unit}
    (keeps : Keeps P (fn exec.memorywriteEa exec.memoryreadEa)) : Keeps P ((m2mCall fn).run exec) :=
  predicated_keeps (by simpa [run_single] using keeps)

end Inserted

variable {T : Type} [TagOps T]

/-- A byte of the shared row. -/
def Place.Sink : Place → Prop
  | reg row _ => row = grpNum
  | mem _ => False

/-- The tags at certain places, as far as there are any, are cleared. -/
def ClearAt (Z : Place → Prop) (s : TagState T) : Prop := ∀ p, Z p → ∀ tag, s.look p = some tag → tag = clearedVal

section Moves
variable {Z : Place → Prop}

theorem fetch_yields (p : Place) :
    Triple (ClearAt (T := T) Z) (fetch p) fun tag s => ClearAt Z s ∧ (Z p → tag = clearedVal) := by
  intro s tag s' clear run
  unfold fetch at run
  split at run
  · cases read : s.look p with
    | none => simp [read] at run
    | some found =>
      simp only [read,Except.ok.injEq,Prod.mk.injEq] at run
      obtain ⟨rfl,rfl⟩ := run
      exact ⟨clear,fun z => clear p z found read⟩
  · cases run

theorem assign_clears {Z' : Place → Prop} {p : Place} {tag : T} (others : ∀ q, Z' q → q ≠ p → Z q)
    (cleared : Z' p → tag = clearedVal) : Triple (ClearAt Z) (assign p tag) fun _ => ClearAt Z' := by
  intro s _ s' clear run q z tag' read
  unfold assign at run
  split at run
  · simp only [Except.ok.injEq,Prod.mk.injEq,true_and] at run
    subst run
    rw [TagState.look_put] at read
    split at read
    next same =>
      subst same
      simp only [Option.map_eq_some_iff] at read
      obtain ⟨_,_,rfl⟩ := read
      exact cleared z
    next other => exact clear q (others q z other) tag' read
  · cases run

theorem assign_keeps {p : Place} {tag : T} (cleared : Z p → tag = clearedVal) : Keeps (ClearAt Z) (assign p tag) :=
  assign_clears (fun _ z _ => z) cleared

theorem copy_keeps {dst src : Place} (fed : Z dst → Z src) : Keeps (ClearAt (T := T) Z) (copy dst src) :=
  (fetch_yields src).bind fun _ => .fact fun cleared => assign_keeps fun z => cleared (fed z)

theorem combine_keeps [LawfulTagOps T] {dst src : Place} (fed : Z dst → Z src) :
    Keeps (ClearAt (T := T) Z) (combine dst src) := by
  refine (fetch_yields dst).bind fun old => .fact fun oldCleared => ?_
  refine (fetch_yields src).bind fun tag => .fact fun cleared => ?_
  apply assign_keeps
  intro z
  rw [oldCleared z,cleared (fed z),LawfulTagOps.combine_cleared]

theorem assignEach_keeps {dst : Nat → Place} {tags : Nat → T}
    (cleared : ∀ k < n, Z (dst k) → tags k = clearedVal) : Keeps (ClearAt Z) (assignEach n dst tags) :=
  forEach_keeps fun k small => assign_keeps (cleared k small)

theorem fetchEach_yields (n : Nat) (src : Nat → Place) :
    Triple (ClearAt (T := T) Z) (fetchEach n src) fun tags s =>
      ClearAt Z s ∧ ∀ k < n, Z (src k) → tags k = clearedVal := by
  refine (Triple.mapM fun k _ => fetch_yields (src k)).bind fun tags => ?_
  refine .pure _ fun s h => ⟨h.1,fun k small z => ?_⟩
  have length := h.2.length_eq
  rw [List.length_range] at length
  have tag := (List.forall₂_iff_get.mp h.2).2 k (by simpa using small) (length ▸ small)
  simp only [List.get_eq_getElem,List.getElem_range] at tag
  show tags.getD k clearedVal = clearedVal
  rw [List.getD_eq_getElem _ _ (length ▸ small)]
  exact tag z

theorem copyEach_keeps {dst src : Nat → Place} (fed : ∀ k < n, Z (dst k) → Z (src k)) :
    Keeps (ClearAt (T := T) Z) (copyEach n dst src) :=
  forEach_keeps fun k small => copy_keeps (fed k small)

theorem clearMemory_keeps (addr : BitVec 64) (n : Nat) : Keeps (ClearAt (T := T) Z) (clearMemory addr n) := by
  intro s _ s' clear run p z tag read
  obtain ⟨t,done,looks⟩ := look_clearMemory s addr n
  obtain rfl : t = s' := by simpa [done] using run
  rcases looks p with same | cleared
  · exact clear p z tag (same ▸ read)
  · simpa [read] using cleared

end Moves

/-! Calls that write to memory, to rows of their own, or only cleared tags. -/

/-- The shared row and what reaches it. -/
def Zone (feeds : List Place) (p : Place) : Prop := p.Sink ∨ p ∈ feeds

theorem zone_own {row : Nat} (own : row ≠ grpNum) (i : Nat) : ¬ Zone [] (rtags row i) := by
  simpa [Zone,Place.Sink,rtags] using own

section Quiet
variable {Z : Place → Prop}

theorem fetch_keeps (p : Place) : Keeps (ClearAt (T := T) Z) (fetch p) := (fetch_yields p).imp fun _ _ h => h.1

theorem fetchEach_keeps (n : Nat) (src : Nat → Place) : Keeps (ClearAt (T := T) Z) (fetchEach n src) :=
  (fetchEach_yields n src).imp fun _ _ h => h.1

theorem assign_other {p : Place} (tag : T) (other : ¬ Z p) : Keeps (ClearAt Z) (assign p tag) :=
  assign_keeps fun z => absurd z other

theorem assignEach_other {dst : Nat → Place} (n : Nat) (tags : Nat → T) (other : ∀ i, ¬ Z (dst i)) :
    Keeps (ClearAt Z) (assignEach n dst tags) :=
  assignEach_keeps fun i _ z => absurd z (other i)

theorem copyEach_other {dst : Nat → Place} (n : Nat) (src : Nat → Place) (other : ∀ i, ¬ Z (dst i)) :
    Keeps (ClearAt (T := T) Z) (copyEach n dst src) :=
  copyEach_keeps fun i _ z => absurd z (other i)

theorem copy_other {dst : Place} (src : Place) (other : ¬ Z dst) : Keeps (ClearAt (T := T) Z) (copy dst src) :=
  copy_keeps fun z => absurd z other

theorem zone_mem (addr : BitVec 64) : ¬ Zone [] (.mem addr) := by simp [Zone,Place.Sink]
theorem zone_mtags (addr : BitVec 64) (i : Nat) : ¬ Zone [] (mtags addr i) := zone_mem _

theorem own_row (g : Gpr) : g.row ≠ grpNum := Nat.ne_of_lt (Nat.lt_trans g.row_lt (by decide))

/-- Registers of the classes that most dispatchers ask for have rows of their own. -/
theorem own_class {r : Reg} (known : r.isGr64 || r.isGr32 || r.isGr16 || r.isGr8) : regIndx r ≠ grpNum := by
  cases r with
  | gr64 g | gr32 g | gr16 g | lower8 g => exact own_row g
  | upper8 h => exact own_row h.gpr
  | invalid | xmm _ | ymm _ | zmm _ | mm _ | st _ | seg _ | other _ => cases known

theorem own_gr64 {r : Reg} (known : r.isGr64) : regIndx r ≠ grpNum := own_class (by simp [known])
theorem own_gr32 {r : Reg} (known : r.isGr32) : regIndx r ≠ grpNum := own_class (by simp [known])
theorem own_gr16 {r : Reg} (known : r.isGr16) : regIndx r ≠ grpNum := own_class (by simp [known])

theorem clearRow_keeps (n row : Nat) : Keeps (ClearAt (T := T) Z) (clearRow n row) :=
  forEach_keeps fun _ _ => assign_keeps fun _ => rfl

theorem insClearOp_keeps (ins : Ins) (exec : Exec) : Keeps (ClearAt (T := T) Z) ((insClearOp ins).run exec) := by
  unfold insClearOp
  split
  · simpa using clearMemory_keeps _ _
  · have byte (i : Nat) (r : Reg) : Keeps (ClearAt (T := T) Z) (assign (rtags (regIndx r) i) clearedVal) :=
      assign_keeps fun _ => rfl
    dsimp only
    repeat' split
    all_goals rw [run_rCall]
    all_goals first | exact clearRow_keeps _ _ | exact byte _ _

theorem insClearOpPredicated_keeps (ins : Ins) (exec : Exec) :
    Keeps (ClearAt (T := T) Z) ((insClearOpPredicated ins).run exec) := by
  have byte (i : Nat) (r : Reg) : Keeps (ClearAt (T := T) Z) (assign (rtags (regIndx r) i) clearedVal) :=
    assign_keeps fun _ => rfl
  unfold insClearOpPredicated
  dsimp only
  repeat' split
  all_goals
    simp only [run_predicated,run_rCall,run_mClearN]
    refine .ite (fun _ => ?_) fun _ => Keeps.skip
  · exact byte 1 _
  · exact byte 0 _
  · exact clearMemory_keeps _ _

theorem rClrl2_keeps : Keeps (ClearAt (T := T) Z) rClrl2 :=
  forEach_keeps fun _ _ => .bind (assign_keeps fun _ => rfl) fun _ => assign_keeps fun _ => rfl

theorem rClrl4_keeps : Keeps (ClearAt (T := T) Z) rClrl4 :=
  forEach_keeps fun _ _ => .bind (assign_keeps fun _ => rfl) fun _ => .bind (assign_keeps fun _ => rfl) fun _ =>
    .bind (assign_keeps fun _ => rfl) fun _ => assign_keeps fun _ => rfl

theorem unitaryByte_keeps (tag : T) : Keeps (ClearAt (Zone [])) (unitaryByte tag) :=
  forEach_keeps fun i _ => .bind (fetch_keeps _) fun _ => assign_other _ (zone_own (by decide) i)

theorem unitaryEach_keeps (n : Nat) (src : Nat → Place) : Keeps (ClearAt (T := T) (Zone [])) (unitaryEach n src) :=
  .bind (fetchEach_keeps _ _) fun _ => .bind (fetchEach_keeps _ _) fun _ => .bind (fetchEach_keeps _ _) fun _ =>
    forEach_keeps fun i _ => .bind (assign_other _ (zone_own (by decide) i)) fun _ =>
      assign_other _ (zone_own (by decide) i)

theorem insUnitaryOp_keeps (ins : Ins) (exec : Exec) :
    Keeps (ClearAt (T := T) (Zone [])) ((insUnitaryOp ins).run exec) := by
  have rdx : ∀ i, ¬ Zone [] (rtags dftRegRdx i) := zone_own (by decide)
  have rax : ∀ i, ¬ Zone [] (rtags dftRegRax i) := zone_own (by decide)
  have byte (p : Place) : Keeps (ClearAt (T := T) (Zone [])) (do unitaryByte (← fetch p)) :=
    .bind (fetch_keeps _) unitaryByte_keeps
  have word (row : Nat) : Keeps (ClearAt (T := T) (Zone [])) (r2rUnitaryOpw row) :=
    .bind (fetchEach_keeps _ _) fun _ => .bind (fetchEach_keeps _ _) fun _ => .bind (fetchEach_keeps _ _) fun _ =>
      .bind (assignEach_other _ _ rdx) fun _ => assignEach_other _ _ rax
  have memory (addr : BitVec 64) : Keeps (ClearAt (T := T) (Zone [])) (m2rUnitaryOpb addr) :=
    .bind (fetch_keeps _) fun _ => .bind (fetchEach_keeps _ _) fun _ => assignEach_other _ _ rax
  unfold insUnitaryOp
  dsimp only
  repeat' split
  all_goals simp only [run_mCallR,run_rCall]
  case h_1 | h_2 | h_3 => exact unitaryEach_keeps _ _
  case h_4 => exact memory _
  · exact unitaryEach_keeps _ _
  · exact unitaryEach_keeps _ _
  · exact word _
  · exact byte _
  · exact byte _

theorem repeatTag_keeps {dst : Nat} (own : dst ≠ grpNum) (n : Nat) (src : Place) :
    Keeps (ClearAt (T := T) (Zone [])) (repeatTag n dst src) :=
  .bind (fetch_keeps _) fun _ => assignEach_other _ _ (zone_own own)

theorem repeatTags_keeps {dst : Nat} (own : dst ≠ grpNum) (n size : Nat) (src : BitVec 64) :
    Keeps (ClearAt (T := T) (Zone [])) (repeatTags n size dst src) :=
  .bind (fetchEach_keeps _ _) fun _ => assignEach_other _ _ (zone_own own)

/-- A destination of no known class gets no call. -/
theorem insMovsxOp_keeps (ins : Ins) (exec : Exec) :
    Keeps (ClearAt (T := T) (Zone [])) ((insMovsxOp ins).run exec) := by
  unfold insMovsxOp
  dsimp only
  repeat' split
  all_goals simp only [run_r2rCall,run_m2rCall,run_nil]
  all_goals
    first
    | exact Keeps.skip
    | exact repeatTag_keeps (own_gr64 ‹_›) _ _
    | exact repeatTag_keeps (own_gr32 ‹_›) _ _
    | exact repeatTag_keeps (own_gr16 ‹_›) _ _
    | exact repeatTags_keeps (own_gr64 ‹_›) _ _ _
    | exact repeatTags_keeps (own_gr32 ‹_›) _ _ _
    | exact copyEach_other _ _ (zone_own (own_gr64 ‹_›))
    | exact copyEach_other _ _ (zone_own (own_gr32 ‹_›))

theorem insMovbeOp_keeps (ins : Ins) (exec : Exec) :
    Keeps (ClearAt (T := T) (Zone [])) ((insMovbeOp ins).run exec) := by
  unfold insMovbeOp
  dsimp only
  repeat' split
  all_goals simp only [run_r2mCall,run_m2rCall,run_nil]
  all_goals
    first
    | exact Keeps.skip
    | exact copyEach_other _ _ fun _ => zone_mtags _ _
    | exact copyEach_other _ _ (zone_own (own_gr64 ‹_›))
    | exact copyEach_other _ _ (zone_own (own_gr32 ‹_›))
    | exact copyEach_other _ _ (zone_own (own_gr16 ‹_›))

theorem cmpxchgFast_keeps (saved n : Nat) (src : Nat → Place) :
    Keeps (ClearAt (T := T) (Zone [])) (cmpxchgFast saved n src) :=
  .bind (fetchEach_keeps _ _) fun _ => .bind (assignEach_other _ _ (zone_own (by decide))) fun _ =>
    .bind (fetchEach_keeps _ _) fun _ => assignEach_other _ _ (zone_own (by decide))

theorem cmpxchgSlow_keeps (saved n : Nat) {dst : Nat → Place} (src : Nat → Place) (other : ∀ i, ¬ Zone [] (dst i)) :
    Keeps (ClearAt (T := T) (Zone [])) (cmpxchgSlow saved n dst src) :=
  .bind (fetchEach_keeps _ _) fun _ => .bind (assignEach_other _ _ (zone_own (by decide))) fun _ =>
    .bind (fetchEach_keeps _ _) fun _ => assignEach_other _ _ other

theorem fast_keeps (saved n : Nat) (src : Nat → Place) (answer : Bool) :
    Keeps (ClearAt (T := T) (Zone [])) (do cmpxchgFast saved n src; return answer) :=
  .bind (cmpxchgFast_keeps saved n src) fun _ => .pure answer fun _ h => h

theorem insCmpxchgOp_keeps (ins : Ins) (exec : Exec) :
    Keeps (ClearAt (T := T) (Zone [])) ((insCmpxchgOp ins).run exec) := by
  unfold insCmpxchgOp
  dsimp only
  repeat' split
  all_goals simp only [cmpxchgR2r,cmpxchgR2m,run_ifThenCall,run_nil]
  all_goals
    first
    | exact Keeps.skip
    | exact ifThen_keeps (fast_keeps _ _ _ _) (cmpxchgSlow_keeps _ _ _ (zone_own (own_gr64 ‹_›)))
    | exact ifThen_keeps (fast_keeps _ _ _ _) (cmpxchgSlow_keeps _ _ _ (zone_own (own_gr32 ‹_›)))
    | exact ifThen_keeps (fast_keeps _ _ _ _) (cmpxchgSlow_keeps _ _ _ (zone_own (own_gr16 ‹_›)))
    | exact ifThen_keeps (fast_keeps _ _ _ _) (cmpxchgSlow_keeps _ _ _ (zone_mtags _))

theorem lea_keeps {dst : Nat} (own : dst ≠ grpNum) (n base index : Nat) :
    Keeps (ClearAt (T := T) (Zone [])) (lea n dst base index) :=
  forEach_keeps fun i _ => .bind (fetch_keeps _) fun _ => .bind (fetch_keeps _) fun _ =>
    assign_other _ (zone_own own i)

theorem insLea_keeps (ins : Ins) (exec : Exec) : Keeps (ClearAt (T := T) (Zone [])) ((insLea ins).run exec) := by
  unfold insLea leaSized
  dsimp only
  repeat' split
  all_goals try simp only [run_r2rCall,run_rr2rCall,run_nil]
  all_goals
    first
    | exact Keeps.skip
    | exact insClearOp_keeps _ _
    | exact lea_keeps (own_gr64 ‹_›) _ _ _
    | exact lea_keeps (own_gr32 ‹_›) _ _ _
    | exact lea_keeps (own_gr16 ‹_›) _ _ _
    | exact copyEach_other _ _ (zone_own (own_gr64 ‹_›))
    | exact copyEach_other _ _ (zone_own (own_gr32 ‹_›))
    | exact copyEach_other _ _ (zone_own (own_gr16 ‹_›))

theorem m2mXfer_keeps (ins : Ins) (exec : Exec) : Keeps (ClearAt (T := T) (Zone [])) ((m2mXfer ins).run exec) := by
  unfold m2mXfer
  repeat' split
  all_goals
    simp only [run_m2mCall]
    exact .ite (fun _ => copyEach_other _ _ fun _ => zone_mtags _ _) fun _ => Keeps.skip

theorem insPushOp_keeps (ins : Ins) (exec : Exec) :
    Keeps (ClearAt (T := T) (Zone [])) ((insPushOp ins).run exec) := by
  unfold insPushOp
  dsimp only
  repeat' split
  all_goals try simp only [run_r2mCall,run_mClearN]
  all_goals
    first
    | exact copyEach_other _ _ fun _ => zone_mtags _ _
    | exact m2mXfer_keeps _ _
    | exact clearMemory_keeps _ _

theorem stosLoop_keeps (size : Nat) (dst len eflags : BitVec 64) :
    Keeps (ClearAt (T := T) (Zone [])) (stosLoop size dst len eflags) :=
  .bind (fetchEach_keeps _ _) fun _ => .ite (fun _ => forEach_keeps fun _ _ => assign_other _ (zone_mtags _ _))
    fun _ => forEach_keeps fun _ _ => assign_other _ (zone_mtags _ _)

/-- Both forms of a string store. -/
theorem insStos_keeps {fn : BitVec 64 → BitVec 64 → BitVec 64 → Analysis T Unit}
    {element : BitVec 64 → Nat → Analysis T Unit} (all : ∀ dst count eflags, Keeps (ClearAt (Zone [])) (fn dst count eflags))
    (one : ∀ dst src, Keeps (ClearAt (Zone [])) (element dst src)) (r : Reg) (ins : Ins) (exec : Exec) :
    Keeps (ClearAt (Zone [])) ((if ins.repPrefix then insStosIns ins fn else r2mCall element r).run exec) := by
  split
  · simp only [insStosIns,run_predicated,run_ifThenCall]
    exact .ite (fun _ => ifThen_keeps (.pure _ fun _ h => h) (all _ _ _)) fun _ => Keeps.skip
  · simpa using one _ _

theorem m2rRestore_keeps (shift : Nat) (src : BitVec 64) :
    Keeps (ClearAt (T := T) (Zone [])) (m2rRestore shift src) := by
  refine forEach_keeps fun i small => .ite (fun _ => Keeps.skip) fun _ => ?_
  have own : dftRegRdi + i ≠ grpNum := Nat.ne_of_lt (Nat.lt_trans (Nat.add_lt_add_left small dftRegRdi) (by decide))
  exact .bind (fetchEach_keeps _ _) fun _ => assignEach_other _ _ (zone_own own)

theorem r2mSave_keeps (shift : Nat) (dst : BitVec 64) : Keeps (ClearAt (T := T) (Zone [])) (r2mSave shift dst) :=
  forEach_keeps fun _ _ => .ite (fun _ => Keeps.skip) fun _ =>
    .bind (fetchEach_keeps _ _) fun _ => assignEach_other _ _ fun _ => zone_mtags _ _

end Quiet

end Libdft.Core
