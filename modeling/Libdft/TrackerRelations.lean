import Libdft.Relational
import Libdft.InsInspect

/-! The routines look at no tag: whatever relation between the tags of two back ends holds of
cleared tags and is kept by their unions, every routine keeps it at every place, and fails in
one build where it fails in the other. -/
namespace Libdft.Core

open TagMap TagTraits TagOps

variable {T U : Type} [TagOps T] [TagOps U]

/-- What the routines rely on. -/
class TagRelation (R : T → U → Prop) : Prop where
  cleared : R clearedVal clearedVal
  combine : R a b → R a' b' → R (tagCombine a a') (tagCombine b b')

/-- Tags at the same place are related. -/
def Tagwise (R : T → U → Prop) (s : TagState T) (t : TagState U) : Prop :=
  ∀ p, p.Inside → Option.Rel R (s.look p) (t.look p)

section Steps
variable {R : T → U → Prop}

theorem Tagwise.put {s : TagState T} {t : TagState U} (tags : Tagwise R s t) {a : T} {b : U} (related : R a b)
    (p : Place) : Tagwise R (s.put a p) (t.put b p) := by
  intro q inside
  rw [TagState.look_put,TagState.look_put]
  have before := tags q inside
  split
  · cases left : s.look q <;> cases right : t.look q <;> simp_all
  · exact before

theorem fetch_coupled (p : Place) : Coupled (Tagwise R) R (fetch p : Analysis T T) (fetch p : Analysis U U) := by
  intro s t tags
  by_cases inside : p.Inside
  · have places := tags p inside
    cases left : s.look p with
    | none =>
      cases right : t.look p with
      | none => exact .inl ⟨.nullTag,by simp [fetch,inside,left],by simp [fetch,inside,right]⟩
      | some b => simp [left,right] at places
    | some a =>
      cases right : t.look p with
      | none => simp [left,right] at places
      | some b =>
        rw [left,right,Option.rel_some_some] at places
        exact .inr ⟨a,b,s,t,fetch_ok inside left,fetch_ok inside right,places,tags⟩
  · exact .inl ⟨.outside,by simp [fetch,inside],by simp [fetch,inside]⟩

theorem assign_coupled (p : Place) {a : T} {b : U} (related : R a b) :
    Lockstep (Tagwise R) (assign p a) (assign p b) := by
  intro s t tags
  by_cases inside : p.Inside
  · exact .inr ⟨(),(),_,_,assign_ok inside a,assign_ok inside b,trivial,tags.put related p⟩
  · exact .inl ⟨.outside,by simp [assign,inside],by simp [assign,inside]⟩

theorem forEach_coupled {body : Nat → Analysis T Unit} {body' : Nat → Analysis U Unit}
    (each : ∀ k < n, Lockstep (Tagwise R) (body k) (body' k)) :
    Lockstep (Tagwise R) (forEach n body) (forEach n body') :=
  .forM fun k mem => each k (List.mem_range.mp mem)

theorem assignEach_coupled (n : Nat) (dst : Nat → Place) {tags : Nat → T} {tags' : Nat → U}
    (related : ∀ i, R (tags i) (tags' i)) : Lockstep (Tagwise R) (assignEach n dst tags) (assignEach n dst tags') :=
  forEach_coupled fun k _ => assign_coupled (dst k) (related k)

theorem copy_coupled (dst src : Place) : Lockstep (Tagwise R) (copy dst src) (copy dst src) :=
  (fetch_coupled src).bind fun _ _ related => assign_coupled dst related

theorem copyEach_coupled (n : Nat) (dst src : Nat → Place) :
    Lockstep (Tagwise R) (copyEach n dst src) (copyEach n dst src) :=
  forEach_coupled fun k _ => copy_coupled (dst k) (src k)

theorem repeatTag_coupled (n dst : Nat) (src : Place) : Lockstep (Tagwise R) (repeatTag n dst src) (repeatTag n dst src) :=
  (fetch_coupled src).bind fun _ _ tag => assignEach_coupled n _ fun _ => tag

variable [TagRelation R]

theorem combine_coupled (dst src : Place) : Lockstep (Tagwise R) (combine dst src) (combine dst src) :=
  (fetch_coupled dst).bind fun _ _ old => (fetch_coupled src).bind fun _ _ related =>
    assign_coupled dst (TagRelation.combine old related)

theorem combineEach_coupled (n : Nat) (dst src : Nat → Place) :
    Lockstep (Tagwise R) (combineEach n dst src) (combineEach n dst src) :=
  forEach_coupled fun k _ => combine_coupled (dst k) (src k)

theorem fetchEach_coupled (n : Nat) (src : Nat → Place) :
    Coupled (Tagwise R) (fun tags tags' => ∀ i, R (tags i) (tags' i)) (fetchEach n src) (fetchEach n src) := by
  refine (Coupled.mapM fun k _ => fetch_coupled (src k)).bind fun tags tags' related => .pure fun i => ?_
  rcases Nat.lt_or_ge i tags.length with small | large
  · have small' := related.length_eq ▸ small
    rw [List.getD_eq_getElem _ _ small,List.getD_eq_getElem _ _ small']
    exact (List.forall₂_iff_get.mp related).2 i small small'
  · have large' := related.length_eq ▸ large
    rw [List.getD_eq_default _ _ large,List.getD_eq_default _ _ large']
    exact TagRelation.cleared

theorem clearMemory_coupled (addr : BitVec 64) (n : Nat) :
    Lockstep (Tagwise R) (clearMemory addr n) (clearMemory addr n) := by
  refine .modify fun s t tags p inside => ?_
  cases p with
  | reg row byte => exact tags _ inside
  | mem a =>
    change Option.Rel R (tagmapGetb (clrn tagmapSetb s.tagDir addr.toNat n) a.toNat)
      (tagmapGetb (clrn tagmapSetb t.tagDir addr.toNat n) a.toNat)
    rw [getb_clrn tagmapSetb_puts,getb_clrn tagmapSetb_puts]
    split
    · exact .some TagRelation.cleared
    · exact tags (.mem a) inside

theorem clear_coupled (p : Place) : Lockstep (Tagwise R) (assign p clearedVal) (assign p clearedVal) :=
  assign_coupled p TagRelation.cleared

theorem clearRow_coupled (n row : Nat) : Lockstep (Tagwise R) (clearRow n row) (clearRow n row) :=
  forEach_coupled fun i _ => clear_coupled (rtags row i)

end Steps

/-! The routines. -/

section Routines
variable {R : T → U → Prop} [TagRelation R]

theorem rClrl2_coupled : Lockstep (Tagwise R) rClrl2 rClrl2 :=
  forEach_coupled fun _ _ => (clear_coupled _).bind fun _ _ _ => clear_coupled _

theorem rClrl4_coupled : Lockstep (Tagwise R) rClrl4 rClrl4 :=
  forEach_coupled fun _ _ => (clear_coupled _).bind fun _ _ _ => (clear_coupled _).bind fun _ _ _ =>
    (clear_coupled _).bind fun _ _ _ => clear_coupled _

theorem stosLoop_coupled (size : Nat) (dst len eflags : BitVec 64) :
    Lockstep (Tagwise R) (stosLoop size dst len eflags) (stosLoop size dst len eflags) :=
  (fetchEach_coupled size _).bind fun _ _ related =>
    .ite (fun _ => forEach_coupled fun i _ => assign_coupled _ (related (i % size)))
      fun _ => forEach_coupled fun i _ => assign_coupled _ (related (i % size))

theorem lea_coupled (n dst base index : Nat) : Lockstep (Tagwise R) (lea n dst base index) (lea n dst base index) :=
  forEach_coupled fun _ _ => (fetch_coupled _).bind fun _ _ first => (fetch_coupled _).bind fun _ _ second =>
    assign_coupled _ (TagRelation.combine first second)

theorem m2rBinaryOpb_coupled (dst : Place) (src : BitVec 64) :
    Lockstep (Tagwise R) (m2rBinaryOpb dst src) (m2rBinaryOpb dst src) :=
  (fetch_coupled _).bind fun _ _ first => (fetch_coupled _).bind fun _ _ second =>
    assign_coupled _ (TagRelation.combine first second)

theorem unitaryByte_coupled (src : Place) :
    Lockstep (Tagwise R) (do unitaryByte (← fetch src)) (do unitaryByte (← fetch src)) :=
  (fetch_coupled src).bind fun _ _ tag => forEach_coupled fun _ _ => (fetch_coupled _).bind fun _ _ old =>
    assign_coupled _ (TagRelation.combine old tag)

theorem unitaryEach_coupled (n : Nat) (src : Nat → Place) :
    Lockstep (Tagwise R) (unitaryEach n src) (unitaryEach n src) :=
  (fetchEach_coupled n _).bind fun _ _ tags => (fetchEach_coupled n _).bind fun _ _ rdx =>
    (fetchEach_coupled n _).bind fun _ _ rax => forEach_coupled fun i _ =>
      (assign_coupled _ (TagRelation.combine (rdx i) (tags i))).bind fun _ _ _ =>
        assign_coupled _ (TagRelation.combine (rax i) (tags i))

theorem r2rUnitaryOpw_coupled (src : Nat) : Lockstep (Tagwise R) (r2rUnitaryOpw src) (r2rUnitaryOpw src) :=
  (fetchEach_coupled 2 _).bind fun _ _ tags => (fetchEach_coupled 2 _).bind fun _ _ rdx =>
    (fetchEach_coupled 2 _).bind fun _ _ rax =>
      (assignEach_coupled 2 _ fun i => TagRelation.combine (rdx i) (tags i)).bind fun _ _ _ =>
        assignEach_coupled 2 _ fun i => TagRelation.combine (rax i) (tags i)

theorem m2rUnitaryOpb_coupled (src : BitVec 64) : Lockstep (Tagwise R) (m2rUnitaryOpb src) (m2rUnitaryOpb src) :=
  (fetch_coupled _).bind fun _ _ tag => (fetchEach_coupled 2 _).bind fun _ _ old =>
    assignEach_coupled 2 _ fun i => TagRelation.combine (old i) tag

theorem repeatTags_coupled (n size dst : Nat) (src : BitVec 64) :
    Lockstep (Tagwise R) (repeatTags n size dst src) (repeatTags n size dst src) :=
  (fetchEach_coupled size _).bind fun _ _ tags => assignEach_coupled n _ fun i => tags (i % size)

theorem cmpxchgFast_coupled (saved n : Nat) (src : Nat → Place) :
    Lockstep (Tagwise R) (cmpxchgFast saved n src) (cmpxchgFast saved n src) :=
  (fetchEach_coupled saved _).bind fun _ _ old => (assignEach_coupled saved _ old).bind fun _ _ _ =>
    (fetchEach_coupled n src).bind fun _ _ tags => assignEach_coupled n _ tags

theorem cmpxchgSlow_coupled (saved n : Nat) (dst src : Nat → Place) :
    Lockstep (Tagwise R) (cmpxchgSlow saved n dst src) (cmpxchgSlow saved n dst src) :=
  (fetchEach_coupled saved _).bind fun _ _ old => (assignEach_coupled saved _ old).bind fun _ _ _ =>
    (fetchEach_coupled n src).bind fun _ _ tags => assignEach_coupled n dst tags

theorem exchange_coupled (n : Nat) (dst src : Nat → Place) :
    Lockstep (Tagwise R) (exchange n dst src) (exchange n dst src) :=
  (fetchEach_coupled n dst).bind fun _ _ old => (fetchEach_coupled n src).bind fun _ _ tags =>
    (assignEach_coupled n dst tags).bind fun _ _ _ => assignEach_coupled n src old

theorem xaddByte_coupled (dst src : Place) : Lockstep (Tagwise R) (xaddByte dst src) (xaddByte dst src) :=
  (fetch_coupled dst).bind fun _ _ old => (combine_coupled dst src).bind fun _ _ _ => assign_coupled src old

theorem xaddEach_coupled (n : Nat) (dst src : Nat → Place) :
    Lockstep (Tagwise R) (xaddEach n dst src) (xaddEach n dst src) :=
  (fetchEach_coupled n dst).bind fun _ _ old => (fetchEach_coupled n src).bind fun _ _ tags =>
    forEach_coupled fun i _ => (assign_coupled _ (TagRelation.combine (old i) (tags i))).bind fun _ _ _ =>
      assign_coupled _ (old i)

theorem xaddR2rOpw_coupled (dst src : Nat) : Lockstep (Tagwise R) (xaddR2rOpw dst src) (xaddR2rOpw dst src) :=
  (fetchEach_coupled 2 _).bind fun _ _ old => (fetchEach_coupled 2 _).bind fun _ _ tags =>
    (assignEach_coupled 2 _ fun i => TagRelation.combine (old i) (tags i)).bind fun _ _ _ =>
      assignEach_coupled 2 _ old

theorem xaddR2m_coupled (n : Nat) (dst src : Nat → Place) : Lockstep (Tagwise R) (xaddR2m n dst src) (xaddR2m n dst src) :=
  (fetchEach_coupled n src).bind fun _ _ tags => (fetchEach_coupled n dst).bind fun _ _ old =>
    (assignEach_coupled n src old).bind fun _ _ _ =>
      assignEach_coupled n dst fun i => TagRelation.combine (old i) (tags i)

theorem m2rRestore_coupled (shift : Nat) (src : BitVec 64) :
    Lockstep (Tagwise R) (m2rRestore shift src) (m2rRestore shift src) :=
  forEach_coupled fun _ _ => .ite (fun _ => .pure trivial) fun _ =>
    (fetchEach_coupled _ _).bind fun _ _ tags => assignEach_coupled _ _ tags

theorem r2mSave_coupled (shift : Nat) (dst : BitVec 64) :
    Lockstep (Tagwise R) (r2mSave shift dst) (r2mSave shift dst) :=
  forEach_coupled fun _ _ => .ite (fun _ => .pure trivial) fun _ =>
    (fetchEach_coupled _ _).bind fun _ _ tags => assignEach_coupled _ _ tags

end Routines

/-! The choices among them. -/

/-- The calls inserted for one instruction in two builds. -/
def CallsCoupled (R : T → U → Prop) (calls : Calls T) (calls' : Calls U) : Prop :=
  ∀ exec, Lockstep (Tagwise R) (calls.run exec) (calls'.run exec)

namespace CallsCoupled
variable {R : T → U → Prop} {calls more : Calls T} {calls' more' : Calls U}

theorem nil : CallsCoupled R ([] : Calls T) ([] : Calls U) := fun _ => .pure trivial

theorem single {fn : Exec → Analysis T Unit} {fn' : Exec → Analysis U Unit}
    (each : ∀ exec, Lockstep (Tagwise R) (fn exec) (fn' exec)) : CallsCoupled R [fn] [fn'] := by
  intro exec
  rw [run_single,run_single]
  exact each exec

theorem append (first : CallsCoupled R calls calls') (second : CallsCoupled R more more') :
    CallsCoupled R (calls ++ more) (calls' ++ more') := by
  intro exec
  rw [run_append,run_append]
  exact (first exec).bind fun _ _ _ => second exec

theorem predicated (each : CallsCoupled R calls calls') : CallsCoupled R (predicated calls) (predicated calls') := by
  intro exec
  rw [run_predicated,run_predicated]
  exact .ite (fun _ => each exec) fun _ => .pure trivial

theorem ite {c : Prop} [Decidable c] (yes : CallsCoupled R calls calls') (no : CallsCoupled R more more') :
    CallsCoupled R (if c then calls else more) (if c then calls' else more') := by
  split
  · exact yes
  · exact no

theorem ifThen {test : Exec → Analysis T Bool} {test' : Exec → Analysis U Bool} {fn : Exec → Analysis T Unit}
    {fn' : Exec → Analysis U Unit} (tested : ∀ exec, Coupled (Tagwise R) Eq (test exec) (test' exec))
    (done : ∀ exec, Lockstep (Tagwise R) (fn exec) (fn' exec)) : CallsCoupled R (ifThenCall test fn) (ifThenCall test' fn') := by
  refine single fun exec => (tested exec).bind ?_
  rintro a _ rfl
  exact .ite (fun _ => done exec) fun _ => .pure trivial

end CallsCoupled

theorem Reg.byClass_rel {r : Reg} {p : α → β → Prop} (q : p opq opq') (l : p opl opl') (w : p opw opw') (x : p opx opx')
    (y : p opy opy') (other : p rest rest') :
    p (r.byClass opq opl opw opx opy rest) (r.byClass opq' opl' opw' opx' opy' rest') := by
  cases r <;> assumption

theorem byHalf_rel {dst src : Reg} {p : α → β → Prop} (ll : p opbL opbL') (uu : p opbU opbU') (lu : p opbLu opbLu')
    (ul : p opbUl opbUl') : p (byHalf dst src opbL opbU opbLu opbUl) (byHalf dst src opbL' opbU' opbLu' opbUl') := by
  cases dst <;> cases src <;> assumption

section Inserted
variable {R : T → U → Prop}

theorem rCall_coupled {fn : Nat → Analysis T Unit} {fn' : Nat → Analysis U Unit}
    (each : ∀ dst, Lockstep (Tagwise R) (fn dst) (fn' dst)) (dst : Reg) : CallsCoupled R (rCall fn dst) (rCall fn' dst) :=
  .single fun _ => each _

theorem r2rCall_coupled {fn : Nat → Nat → Analysis T Unit} {fn' : Nat → Nat → Analysis U Unit}
    (each : ∀ dst src, Lockstep (Tagwise R) (fn dst src) (fn' dst src)) (dst src : Reg) :
    CallsCoupled R (r2rCall fn dst src) (r2rCall fn' dst src) :=
  .single fun _ => each _ _

theorem m2rCall_coupled {fn : Nat → BitVec 64 → Analysis T Unit} {fn' : Nat → BitVec 64 → Analysis U Unit}
    (each : ∀ dst src, Lockstep (Tagwise R) (fn dst src) (fn' dst src)) (dst : Reg) :
    CallsCoupled R (m2rCall fn dst) (m2rCall fn' dst) :=
  .single fun _ => each _ _

theorem r2mCall_coupled {fn : BitVec 64 → Nat → Analysis T Unit} {fn' : BitVec 64 → Nat → Analysis U Unit}
    (each : ∀ dst src, Lockstep (Tagwise R) (fn dst src) (fn' dst src)) (src : Reg) :
    CallsCoupled R (r2mCall fn src) (r2mCall fn' src) :=
  .single fun _ => each _ _

theorem m2mCall_coupled {fn : BitVec 64 → BitVec 64 → Analysis T Unit} {fn' : BitVec 64 → BitVec 64 → Analysis U Unit}
    (each : ∀ dst src, Lockstep (Tagwise R) (fn dst src) (fn' dst src)) : CallsCoupled R (m2mCall fn) (m2mCall fn') :=
  .predicated (.single fun _ => each _ _)

theorem mCallR_coupled {fn : BitVec 64 → Analysis T Unit} {fn' : BitVec 64 → Analysis U Unit}
    (each : ∀ src, Lockstep (Tagwise R) (fn src) (fn' src)) : CallsCoupled R (mCallR fn) (mCallR fn') :=
  .single fun _ => each _

theorem mCallW_coupled {fn : BitVec 64 → Analysis T Unit} {fn' : BitVec 64 → Analysis U Unit}
    (each : ∀ dst, Lockstep (Tagwise R) (fn dst) (fn' dst)) : CallsCoupled R (mCallW fn) (mCallW fn') :=
  .single fun _ => each _

theorem mClearN_coupled [TagRelation R] (n : Nat) : CallsCoupled R (mClearN n) (mClearN n) :=
  mCallW_coupled fun dst => clearMemory_coupled dst n

end Inserted

section Dispatchers
variable (R : T → U → Prop) (ins : Ins)

theorem insXferOp_coupled : CallsCoupled R (insXferOp ins) (insXferOp ins) := by
  refine .ite (r2rCall_coupled (fun dst src => ?_) _ _) (.ite (m2rCall_coupled (fun dst src => ?_) _)
    (r2mCall_coupled (fun dst src => ?_) _))
  · rw [r2rXfer_eq,r2rXfer_eq]
    have each (n : Nat) := copyEach_coupled (R := R) n (rtags dst) (rtags src)
    have half (i j : Nat) := copy_coupled (R := R) (rtags dst i) (rtags src j)
    exact Reg.byClass_rel (each 8) (each 4) (each 2) (each 16) (each 32)
      (byHalf_rel (half 0 0) (half 1 1) (half 0 1) (half 1 0))
  · rw [m2rXfer_eq,m2rXfer_eq]
    have each (n : Nat) := copyEach_coupled (R := R) n (rtags dst) (mtags src)
    exact Reg.byClass_rel (each 8) (each 4) (each 2) (each 16) (each 32) (copy_coupled _ _)
  · rw [r2mXfer_eq,r2mXfer_eq]
    have each (n : Nat) := copyEach_coupled (R := R) n (mtags dst) (rtags src)
    exact Reg.byClass_rel (each 8) (each 4) (each 2) (each 16) (each 32) (copy_coupled _ _)

theorem insXferOpPredicated_coupled : CallsCoupled R (insXferOpPredicated ins) (insXferOpPredicated ins) := by
  have register (n : Nat) := CallsCoupled.predicated (r2rCall_coupled (R := R)
    (fun dst src => copyEach_coupled n (rtags dst) (rtags src)) (ins.operandReg 0) (ins.operandReg 1))
  have memory (n : Nat) := CallsCoupled.predicated (m2rCall_coupled (R := R)
    (fun dst src => copyEach_coupled n (rtags dst) (mtags src)) (ins.operandReg 0))
  exact .ite (.ite (register 8) (.ite (register 4) (register 2))) (.ite (memory 8) (.ite (memory 4) (memory 2)))

theorem m2mCopy_coupled (n : Nat) : CallsCoupled R (m2mCall fun dst src => copyEach n (mtags dst) (mtags src))
    (m2mCall fun dst src => copyEach n (mtags dst) (mtags src)) :=
  m2mCall_coupled fun dst src => copyEach_coupled n (mtags dst) (mtags src)

theorem m2rCopy_coupled (n : Nat) (dst : Reg) : CallsCoupled R (m2rCall (fun dst src => copyEach n (rtags dst) (mtags src)) dst)
    (m2rCall (fun dst src => copyEach n (rtags dst) (mtags src)) dst) :=
  m2rCall_coupled (fun dst src => copyEach_coupled n (rtags dst) (mtags src)) dst

theorem r2mCopy_coupled (n : Nat) (src : Reg) : CallsCoupled R (r2mCall (fun dst src => copyEach n (mtags dst) (rtags src)) src)
    (r2mCall (fun dst src => copyEach n (mtags dst) (rtags src)) src) :=
  r2mCall_coupled (fun dst src => copyEach_coupled n (mtags dst) (rtags src)) src

theorem m2mXfer_coupled : CallsCoupled R (m2mXfer ins) (m2mXfer ins) :=
  .ite (m2mCopy_coupled R 8) (.ite (m2mCopy_coupled R 4) (m2mCopy_coupled R 2))

/-- Both forms of a string store. -/
theorem insStos_coupled {fn : BitVec 64 → BitVec 64 → BitVec 64 → Analysis T Unit}
    {fn' : BitVec 64 → BitVec 64 → BitVec 64 → Analysis U Unit}
    (all : ∀ dst count eflags, Lockstep (Tagwise R) (fn dst count eflags) (fn' dst count eflags)) {one : Calls T}
    {one' : Calls U} (element : CallsCoupled R one one') :
    CallsCoupled R (if ins.repPrefix then insStosIns ins fn else one) (if ins.repPrefix then insStosIns ins fn' else one') :=
  .ite (.predicated (.ifThen (fun _ => .pure rfl) fun _ => all _ _ _)) element

theorem insPopOp_coupled : CallsCoupled R (insPopOp ins) (insPopOp ins) :=
  .ite (.ite (m2rCopy_coupled R 8 _) (.ite (m2rCopy_coupled R 4 _) (m2rCopy_coupled R 2 _)))
    (.ite (m2mXfer_coupled R ins) .nil)

theorem insMovlp_coupled : CallsCoupled R (insMovlp ins) (insMovlp ins) :=
  .ite (r2mCopy_coupled R 8 _) (m2rCopy_coupled R 8 _)

theorem insMovhp_coupled : CallsCoupled R (insMovhp ins) (insMovhp ins) :=
  .ite (r2mCall_coupled (fun _ _ => copyEach_coupled 8 _ _) _) (m2rCall_coupled (fun _ _ => copyEach_coupled 8 _ _) _)

theorem leaSized_coupled (dst : Reg) {opq opl opw : Calls T} {opq' opl' opw' : Calls U} (q : CallsCoupled R opq opq')
    (l : CallsCoupled R opl opl') (w : CallsCoupled R opw opw') :
    CallsCoupled R (leaSized dst opq opl opw) (leaSized dst opq' opl' opw') :=
  .ite q (.ite l (.ite w .nil))

theorem insMovbeOp_coupled : CallsCoupled R (insMovbeOp ins) (insMovbeOp ins) := by
  have load (n : Nat) (src : BitVec 64 → Nat → Place) := m2rCall_coupled (R := R)
    (fun dst addr => copyEach_coupled n (rtags dst) (src addr)) (ins.operandReg 0)
  have store (n : Nat) (dst : BitVec 64 → Nat → Place) (src : Nat → Nat → Place) := r2mCall_coupled (R := R)
    (fun addr row => copyEach_coupled n (dst addr) (src row)) (ins.operandReg 1)
  exact .ite (.ite (load 8 _) (.ite (load 4 _) (.ite (load 2 _) .nil)))
    (.ite (store 8 _ _) (.ite (store 4 _ _) (.ite (store 2 _ _) .nil)))

variable [TagRelation R]

theorem insClearOp_coupled : CallsCoupled R (insClearOp ins) (insClearOp ins) := by
  have row (n : Nat) := rCall_coupled (R := R) (clearRow_coupled n) (ins.operandReg 0)
  have byte (i : Nat) := rCall_coupled (R := R) (fun reg => clear_coupled (rtags reg i)) (ins.operandReg 0)
  exact .ite (mClearN_coupled _) (.ite (row 8) (.ite (row 4) (.ite (row 2) (.ite (row 16) (.ite (row 8) (.ite (row 16)
    (.ite (byte 1) (byte 0))))))))

theorem insClearOpPredicated_coupled : CallsCoupled R (insClearOpPredicated ins) (insClearOpPredicated ins) := by
  have byte (i : Nat) := rCall_coupled (R := R) (fun reg => clear_coupled (rtags reg i)) (ins.operandReg 0)
  exact .ite (.ite (.predicated (byte 1)) (.predicated (byte 0))) (.predicated (mClearN_coupled 1))

theorem insPushOp_coupled : CallsCoupled R (insPushOp ins) (insPushOp ins) :=
  .ite (.ite (r2mCopy_coupled R 8 _) (.ite (r2mCopy_coupled R 4 _) (r2mCopy_coupled R 2 _)))
    (.ite (m2mXfer_coupled R ins) (mClearN_coupled _))

theorem insLea_coupled : CallsCoupled R (insLea ins) (insLea ins) := by
  have one (n : Nat) (src : Reg) := r2rCall_coupled (R := R) (fun dst src => copyEach_coupled n (rtags dst) (rtags src))
    (ins.operandReg 0) src
  have two (n : Nat) : CallsCoupled R (rr2rCall (lea n) (ins.operandReg 0) ins.memoryBaseReg ins.memoryIndexReg)
      (rr2rCall (lea n) (ins.operandReg 0) ins.memoryBaseReg ins.memoryIndexReg) :=
    .single fun _ => lea_coupled n _ _ _
  exact .ite (insClearOp_coupled R ins) (.ite (leaSized_coupled R _ (one 8 _) (one 4 _) (one 2 _))
    (.ite (leaSized_coupled R _ (one 8 _) (one 4 _) (one 2 _)) (leaSized_coupled R _ (two 8) (two 4) (two 2))))

theorem insBinaryOp_coupled : CallsCoupled R (insBinaryOp ins) (insBinaryOp ins) := by
  refine .ite .nil (.ite (r2rCall_coupled (fun dst src => ?_) _ _) (.ite (m2rCall_coupled (fun dst src => ?_) _)
    (r2mCall_coupled (fun dst src => ?_) _)))
  · rw [r2rBinary_eq,r2rBinary_eq]
    have each (n : Nat) := combineEach_coupled (R := R) n (rtags dst) (rtags src)
    have half (i j : Nat) := combine_coupled (R := R) (rtags dst i) (rtags src j)
    exact Reg.byClass_rel (each 8) (each 4) (each 2) (each 16) (each 32)
      (byHalf_rel (half 0 0) (half 1 1) (half 0 1) (half 1 0))
  · rw [m2rBinary_eq,m2rBinary_eq]
    have each (n : Nat) := combineEach_coupled (R := R) n (rtags dst) (mtags src)
    exact Reg.byClass_rel (each 8) (each 4) (each 2) (each 16) (each 32) (m2rBinaryOpb_coupled _ _)
  · rw [r2mBinary_eq,r2mBinary_eq]
    have each (n : Nat) := combineEach_coupled (R := R) n (mtags dst) (rtags src)
    exact Reg.byClass_rel (each 8) (each 4) (each 2) (each 16) (each 32) (combine_coupled _ _)

theorem insUnitaryOp_coupled : CallsCoupled R (insUnitaryOp ins) (insUnitaryOp ins) := by
  have memory (n : Nat) := mCallR_coupled (R := R) fun src => unitaryEach_coupled n (mtags src)
  have register (n : Nat) := rCall_coupled (R := R) (fun src => unitaryEach_coupled n (rtags src)) (ins.operandReg 0)
  have byte (i : Nat) := rCall_coupled (R := R) (fun src => unitaryByte_coupled (rtags src i)) (ins.operandReg 0)
  refine .ite ?_ (.ite (register 8) (.ite (register 4) (.ite (rCall_coupled r2rUnitaryOpw_coupled _)
    (.ite (byte 1) (byte 0)))))
  split
  · exact memory 8
  · exact memory 4
  · exact memory 2
  · exact mCallR_coupled m2rUnitaryOpb_coupled

theorem insMovsxOp_coupled : CallsCoupled R (insMovsxOp ins) (insMovsxOp ins) := by
  have byte (n i : Nat) := r2rCall_coupled (R := R) (fun dst src => repeatTag_coupled n dst (rtags src i))
    (ins.operandReg 0) (ins.operandReg 1)
  have wide (n size : Nat) := r2rCall_coupled (R := R)
    (fun dst src => copyEach_coupled n (rtags dst) fun i => rtags src (i % size)) (ins.operandReg 0) (ins.operandReg 1)
  have load (n : Nat) := m2rCall_coupled (R := R) (fun dst src => repeatTag_coupled n dst (.mem src)) (ins.operandReg 0)
  have loads (n size : Nat) := m2rCall_coupled (R := R) (repeatTags_coupled n size) (ins.operandReg 0)
  refine .ite (.ite (.ite (byte 2 1) (byte 2 0)) (.ite (.ite (wide 8 2) (.ite (wide 4 2) .nil)) (.ite ?_ ?_)))
    (.ite (load 2) (.ite (.ite (loads 8 2) (.ite (loads 4 2) .nil)) (.ite (load 8) (.ite (load 4) .nil))))
  · exact .ite (byte 8 1) (.ite (byte 4 1) .nil)
  · exact .ite (byte 8 0) (.ite (byte 4 0) .nil)

theorem insMovsxdOp_coupled : CallsCoupled R (insMovsxdOp ins) (insMovsxdOp ins) :=
  .append (.ite .nil (insXferOp_coupled R ins)) (.ite (r2rCall_coupled (fun _ _ => copyEach_coupled 8 _ _) _ _)
    (m2rCall_coupled (repeatTags_coupled 8 4) _))

theorem insCmpxchgOp_coupled : CallsCoupled R (insCmpxchgOp ins) (insCmpxchgOp ins) := by
  have fast (saved n : Nat) (src : Nat → Place) (answer : Bool) :
      Coupled (Tagwise R) Eq (do cmpxchgFast saved n src; return answer) (do cmpxchgFast saved n src; return answer) :=
    (cmpxchgFast_coupled saved n src).bind fun _ _ _ => .pure rfl
  have registers (saved n : Nat) (answer : Exec → Bool) :=
    CallsCoupled.ifThen (R := R) (fun exec => fast saved n (rtags (regIndx (ins.operandReg 0))) (answer exec)) fun _ =>
      cmpxchgSlow_coupled saved n (rtags (regIndx (ins.operandReg 0))) (rtags (regIndx (ins.operandReg 1)))
  have memory (saved n : Nat) (answer : Exec → Bool) :=
    CallsCoupled.ifThen (R := R) (fun exec => fast saved n (mtags exec.memoryreadEa) (answer exec)) fun exec =>
      cmpxchgSlow_coupled saved n (mtags exec.memorywriteEa) (rtags (regIndx (ins.operandReg 1)))
  exact .ite (.ite (registers 8 8 _) (.ite (registers 4 4 _) (.ite (registers 4 2 _) .nil)))
    (.ite (memory 8 8 _) (.ite (memory 4 4 _) (.ite (memory 4 2 _) .nil)))

theorem insXchgOp_coupled : CallsCoupled R (insXchgOp ins) (insXchgOp ins) := by
  have threefold (n : Nat) (dst src : Reg) : CallsCoupled R (xchgByHelper (fun a b => copyEach n (rtags a) (rtags b)) dst src)
      (xchgByHelper (fun a b => copyEach n (rtags a) (rtags b)) dst src) :=
    .append (.single fun _ => copyEach_coupled n _ _) (.append (.single fun _ => copyEach_coupled n _ _)
      (.single fun _ => copyEach_coupled n _ _))
  have byte (i j : Nat) (dst src : Nat) := exchange_coupled (R := R) 1 (fun _ => rtags dst i) fun _ => rtags src j
  have memory (r : Reg) (row : Nat) (addr : BitVec 64) : Lockstep (Tagwise R) (xchgM2r r row addr) (xchgM2r r row addr) := by
    unfold xchgM2r
    repeat' split
    all_goals exact exchange_coupled _ _ _
  refine .ite (.ite (threefold 8 _ _) (.ite (threefold 4 _ _) (.ite (r2rCall_coupled (fun _ _ => exchange_coupled 2 _ _) _ _)
    (.ite (r2rCall_coupled (fun dst src => ?_) _ _) .nil)))) (.ite (m2rCall_coupled (memory _) _) (.single fun _ => memory _ _ _))
  unfold byHalf
  repeat' split
  all_goals exact byte _ _ dst src

theorem insXaddOp_coupled : CallsCoupled R (insXaddOp ins) (insXaddOp ins) := by
  have each (n : Nat) := r2rCall_coupled (R := R) (fun dst src => xaddEach_coupled n (rtags dst) (rtags src))
    (ins.operandReg 0) (ins.operandReg 1)
  have eachMemory (n : Nat) := r2mCall_coupled (R := R) (fun dst src => xaddEach_coupled n (mtags dst) (rtags src))
    (ins.operandReg 1)
  have memory (n : Nat) (dst : BitVec 64 → Nat → Place) (src : Nat → Nat → Place) := r2mCall_coupled (R := R)
    (fun addr row => xaddR2m_coupled n (dst addr) (src row)) (ins.operandReg 1)
  refine .ite (.ite (each 8) (.ite (each 4) (.ite (r2rCall_coupled xaddR2rOpw_coupled _ _)
    (.ite (r2rCall_coupled (fun dst src => ?_) _ _) .nil))))
    (.ite (eachMemory 8) (.ite (eachMemory 4) (.ite (memory 2 _ _) (.ite (memory 1 _ _) (memory 1 _ _)))))
  unfold byHalf
  repeat' split
  all_goals exact xaddByte_coupled _ _

theorem movBody_coupled : CallsCoupled R (movBody ins) (movBody ins) :=
  .ite (insClearOp_coupled R ins) (insXferOp_coupled R ins)

theorem insInspect_coupled : CallsCoupled R (insInspect ins) (insInspect ins) := by
  have routine {fn : Analysis T Unit} {fn' : Analysis U Unit} (each : Lockstep (Tagwise R) fn fn') :
      CallsCoupled R (call fn) (call fn') :=
    .single fun _ => each
  unfold insInspect
  cases ins.opcode.entry with
  | binary => exact insBinaryOp_coupled R ins
  | binaryUnlessEqual => exact .ite (insClearOp_coupled R ins) (insBinaryOp_coupled R ins)
  | unitary => exact insUnitaryOp_coupled R ins
  | imul => exact .ite (insUnitaryOp_coupled R ins) (insBinaryOp_coupled R ins)
  | binaryThenMov => exact .append (insBinaryOp_coupled R ins) (movBody_coupled R ins)
  | mov => exact movBody_coupled R ins
  | xfer => exact insXferOp_coupled R ins
  | movlp => exact insMovlp_coupled R ins
  | movhp => exact insMovhp_coupled R ins
  | cmov => exact insXferOpPredicated_coupled R ins
  | movbe => exact insMovbeOp_coupled R ins
  | movsx => exact insMovsxOp_coupled R ins
  | movsxd => exact insMovsxdOp_coupled R ins
  | cbw => exact routine (copy_coupled _ _)
  | cwd | cwde | cdq | cdqe | cqo => exact routine (copyEach_coupled _ _ _)
  | set => exact insClearOpPredicated_coupled R ins
  | clear => exact insClearOp_coupled R ins
  | clearL2 => exact routine rClrl2_coupled
  | clearL4 => exact routine rClrl4_coupled
  | cmpxchg => exact insCmpxchgOp_coupled R ins
  | xchg => exact insXchgOp_coupled R ins
  | xadd => exact insXaddOp_coupled R ins
  | xlat => exact m2rCall_coupled (fun _ _ => copy_coupled _ _) _
  | lodsb => exact .predicated (m2rCall_coupled (fun _ _ => copy_coupled _ _) _)
  | lodsw | lodsd | lodsq => exact .predicated (m2rCopy_coupled R _ _)
  | stosb => exact insStos_coupled R ins (fun _ _ _ => stosLoop_coupled _ _ _ _) (r2mCall_coupled (fun _ _ => copy_coupled _ _) _)
  | stosw | stosd | stosq => exact insStos_coupled R ins (fun _ _ _ => stosLoop_coupled _ _ _ _) (r2mCopy_coupled R _ _)
  | movsq | movsd | movsw => exact m2mCopy_coupled R _
  | movsb => exact m2mCall_coupled fun _ _ => copy_coupled _ _
  | pop => exact insPopOp_coupled R ins
  | push => exact insPushOp_coupled R ins
  | popa | popad => exact mCallR_coupled (m2rRestore_coupled _)
  | pusha | pushad => exact mCallW_coupled (r2mSave_coupled _)
  | pushf | pushfd | pushfq => exact mClearN_coupled _
  | lea => exact insLea_coupled R ins
  | ignored => exact .nil

/-- One execution of an instruction keeps the relation, or fails in both builds. -/
theorem analyse_coupled (exec : Exec) : Lockstep (Tagwise R) (analyse ins exec) (analyse ins exec) :=
  insInspect_coupled R ins exec

end Dispatchers
end Libdft.Core
