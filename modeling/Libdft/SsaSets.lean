import Libdft.SsaCells
import Libdft.SsaNogc
import Mathlib.Combinatorics.Colex

/-! Tags of the collecting build as sets of input offsets. Every operation is matched
with what it does to the expressions that tags stand for; the cells that a collection
recycles belong to no live tag, so no other tag changes its set. -/
namespace Libdft.Ssa

/-- What an operation does to the expressions that tags stand for. -/
def Op.apply (exprs : Obj → Expr) : Op → Obj → Expr
  | .alloc dst offset => Function.update exprs dst (.alloc offset)
  | .combine dst lhs rhs => Function.update exprs dst (.combine (exprs lhs) (exprs rhs))
  | .copyConstruct dst src | .copyAssign dst src => Function.update exprs dst (exprs src)
  | .moveConstruct dst src | .moveAssign dst src =>
    Function.update (Function.update exprs dst (exprs src)) src .null
  | .destroy x => Function.update exprs x .null

/-- The expression each tag stands for after some operations. -/
def meanings (ops : List Op) : Obj → Expr := ops.foldl Op.apply fun _ => .null

/-- Allocations of offsets that fit the 24 variables. -/
def Op.InRange : Op → Prop
  | .alloc _ offset => offset < 2 ^ tagWidth
  | _ => True

/-- The sorted `offset_buf` of `ssa_tag_print`. -/
def State.tagOffsets (backend : Backend) (s : State) (x : Loc) : List Nat :=
  match s.tags x with
  | none => []
  | some c => offsetBuf backend (s.pool.bdd c)

variable {backend : Backend} {canonical : Canonical backend} {s next : State} {dst src : Loc} {c : Cell}
  {S T : Finset Nat} {bdd bdd' : Cell → Nat} {ref : Option Cell}

/-- A reference stands for a set: null for the empty one, a cell for the set of its diagram. -/
structure Decodes (canonical : Canonical backend) (bdd : Cell → Nat) (ref : Option Cell)
    (S : Finset Nat) : Prop where
  narrow : Narrow S
  null : ref = none → S = ∅
  cell : ∀ c, ref = some c → S ≠ ∅ ∧ bdd c = canonical.handle S

theorem decodes_null : Decodes canonical bdd none ∅ :=
  ⟨Nogc.narrow_empty,fun _ => rfl,fun c refers => by cases refers⟩

theorem Decodes.frame (decodes : Decodes canonical bdd ref S) (same : ∀ c, ref = some c → bdd' c = bdd c) :
    Decodes canonical bdd' ref S :=
  ⟨decodes.narrow,decodes.null,fun c refers =>
    ⟨(decodes.cell c refers).1,(same c refers).trans (decodes.cell c refers).2⟩⟩

/-- Every tag decodes to its set, and the cached set is the union of the cached operands. -/
structure Meaning (canonical : Canonical backend) (s : State) (sets : Loc → Finset Nat) : Prop where
  decodes : ∀ x, Decodes canonical s.pool.bdd (s.tags x) (sets x)
  cache : sets (.inr .v) = sets (.inr .l) ∪ sets (.inr .r)

namespace Meaning

variable {sets : Loc → Finset Nat}

/-- Equal tags, one of them not null, stand for one set. -/
theorem eq_of_same (meaning : Meaning canonical s sets) {x y : Loc} (some : s.tags y ≠ none)
    (same : s.same (s.tags x) (s.tags y) = true) : sets x = sets y := by
  obtain ⟨d,atY⟩ := Option.ne_none_iff_exists'.mp some
  have right := (meaning.decodes y).cell d atY
  cases atX : s.tags x with
  | none => simp [State.same,atX,atY] at same
  | some c =>
    have left := (meaning.decodes x).cell c atX
    have value : s.pool.bdd c = s.pool.bdd d := by
      simp only [State.same,atX,atY,Bool.or_eq_true,beq_iff_eq] at same
      rcases same with rfl | same
      · rfl
      · exact same
    exact canonical.handle_injective (meaning.decodes x).narrow (meaning.decodes y).narrow
      (left.2.symm.trans (value.trans right.2))

theorem bddOf (meaning : Meaning canonical s sets) {x : Loc} (some : s.tags x ≠ none) :
    s.bddOf x = canonical.handle (sets x) := by
  obtain ⟨c,refers⟩ := Option.ne_none_iff_exists'.mp some
  rw [State.bddOf,refers]
  exact ((meaning.decodes x).cell c refers).2

theorem ne_empty (meaning : Meaning canonical s sets) {x : Loc} (some : s.tags x ≠ none) :
    sets x ≠ ∅ := by
  obtain ⟨c,refers⟩ := Option.ne_none_iff_exists'.mp some
  exact ((meaning.decodes x).cell c refers).1

theorem update (meaning : Meaning canonical s sets) (x : Loc)
    (decodes : Decodes canonical s.pool.bdd ref S) (y : Loc) :
    Decodes canonical s.pool.bdd (Function.update s.tags x ref y) (Function.update sets x S y) := by
  by_cases here : y = x
  · rw [here,Function.update_self,Function.update_self]
    exact decodes
  · rw [Function.update_of_ne here,Function.update_of_ne here]
    exact meaning.decodes y

/-- An object is made to refer to something else; the diagrams and the cache stay. -/
theorem assign (meaning : Meaning canonical s sets) (d : Obj)
    (decodes : Decodes canonical s.pool.bdd ref S)
    (tags : next.tags = Function.update s.tags (.inl d) ref) (bdd : next.pool.bdd = s.pool.bdd) :
    Meaning canonical next (Function.update sets (.inl d) S) := by
  refine ⟨fun y => ?_,?_⟩
  · rw [tags,bdd]
    exact meaning.update (.inl d) decodes y
  · simp only [Function.update_of_ne Sum.inr_ne_inl]
    exact meaning.cache

theorem copy (meaning : Meaning canonical s sets) (d : Obj) (src : Loc) :
    Meaning canonical (s.copyConstruct (.inl d) src) (Function.update sets (.inl d) (sets src)) :=
  meaning.assign d (meaning.decodes src) rfl rfl

/-- The three cache assignments, for a value that is the union of the operands. -/
theorem remember (meaning : Meaning canonical s sets) (lhs rhs value : Obj)
    (union : sets (.inl value) = sets (.inl lhs) ∪ sets (.inl rhs)) :
    ∃ sets', Meaning canonical (s.remember (.inl lhs) (.inl rhs) (.inl value)) sets' ∧
      ∀ x, sets' (.inl x) = sets (.inl x) := by
  refine ⟨Sum.elim (fun x => sets (.inl x)) fun
    | .l => sets (.inl lhs)
    | .r => sets (.inl rhs)
    | .v => sets (.inl value),⟨?_,union⟩,fun _ => rfl⟩
  have tags : (s.remember (.inl lhs) (.inl rhs) (.inl value)).tags =
      Sum.elim (fun x => s.tags (.inl x)) fun
        | .l => s.tags (.inl lhs)
        | .r => s.tags (.inl rhs)
        | .v => s.tags (.inl value) := by
    funext x
    rcases x with x | _ | _ | _ <;>
      simp [State.remember,State.copyAssign,State.setTag,State.setCounts,Function.update]
  intro x
  rw [tags]
  rcases x with x | _ | _ | _
  · exact meaning.decodes (.inl x)
  · exact meaning.decodes (.inl lhs)
  · exact meaning.decodes (.inl rhs)
  · exact meaning.decodes (.inl value)

/-- A spare cell becomes the tag of one object; no live tag refers to it. -/
theorem mint (meaning : Meaning canonical s sets) (inv : Invariant s) {s' : State} (d : Obj)
    (taken : Invariant.Taken s s' c) (narrow : Narrow S) (some : S ≠ ∅) :
    Meaning canonical (s'.mint (.inl d) c (canonical.handle S)) (Function.update sets (.inl d) S) := by
  have others (x : Loc) : Decodes canonical (Function.update s'.pool.bdd c (canonical.handle S))
      (s.tags x) (sets x) := by
    refine (meaning.decodes x).frame fun c' refers => ?_
    have live := taken.tags ▸ refers
    rw [Function.update_of_ne]
    · exact taken.bdd c' (inv.handedInside c' (inv.issued x c' refers))
    · rintro rfl
      exact taken.spare.unowned x live
  refine ⟨fun x => ?_,?_⟩
  · rw [State.mint_tags,State.mint_bdd,taken.tags]
    by_cases here : x = .inl d
    · rw [here,Function.update_self,Function.update_self]
      refine ⟨narrow,fun none => (by cases none),fun c' refers => ⟨some,?_⟩⟩
      cases refers
      rw [Function.update_self]
    · rw [Function.update_of_ne here,Function.update_of_ne here]
      exact others x
  · simp only [Function.update_of_ne Sum.inr_ne_inl]
    exact meaning.cache

theorem move (meaning : Meaning canonical s sets) (dst src : Obj)
    (tags : next.tags = Function.update (Function.update s.tags (.inl dst) (s.tags (.inl src)))
      (.inl src) none) (bdd : next.pool.bdd = s.pool.bdd) :
    Meaning canonical next
      (Function.update (Function.update sets (.inl dst) (sets (.inl src))) (.inl src) ∅) := by
  have first : Meaning canonical (s.setTag (.inl dst) (s.tags (.inl src)))
      (Function.update sets (.inl dst) (sets (.inl src))) :=
    meaning.assign dst (meaning.decodes _) rfl rfl
  exact first.assign src decodes_null tags bdd

/-- Whichever way a combination answers, the new tag stands for the union. -/
theorem combined (meaning : Meaning canonical s sets) (inv : Invariant s) {d lhs rhs : Obj}
    (vacant : s.tags (.inl d) = none)
    (combined : Combined backend s (.inl d) (.inl lhs) (.inl rhs) next) :
    ∃ sets', Meaning canonical next sets' ∧ ∀ x, sets' (.inl x) =
      Function.update (fun x => sets (.inl x)) d (sets (.inl lhs) ∪ sets (.inl rhs)) x := by
  have answer {sets' : Loc → Finset Nat} {S : Finset Nat}
      (same : ∀ x, sets' (.inl x) = sets (.inl x)) (union : S = sets (.inl lhs) ∪ sets (.inl rhs))
      (x : Obj) : Function.update sets' (.inl d) S (.inl x) =
        Function.update (fun x => sets (.inl x)) d (sets (.inl lhs) ∪ sets (.inl rhs)) x := by
    by_cases here : x = d
    · rw [here,Function.update_self,Function.update_self,union]
    · rw [Function.update_of_ne (fun eq => here (Sum.inl.inj eq)),Function.update_of_ne here,same]
  have narrow (x : Loc) := (meaning.decodes x).narrow
  have wide := Nogc.narrow_union (narrow (.inl lhs)) (narrow (.inl rhs))
  cases combined with
  | nullLeft null =>
    have none := (meaning.decodes (.inl lhs)).null null
    exact ⟨_,meaning.copy d _,answer (fun _ => rfl) (by rw [none,Finset.empty_union])⟩
  | nullRight null =>
    have none := (meaning.decodes (.inl rhs)).null null
    exact ⟨_,meaning.copy d _,answer (fun _ => rfl) (by rw [none,Finset.union_empty])⟩
  | equal someL someR same =>
    have equal := meaning.eq_of_same someR same
    exact ⟨_,meaning.copy d _,answer (fun _ => rfl) (by rw [equal,Finset.union_self])⟩
  | hit someL someR sameL sameR =>
    have left := meaning.eq_of_same someL sameL
    have right := meaning.eq_of_same someR sameR
    exact ⟨_,meaning.copy d _,answer (fun _ => rfl) (by rw [meaning.cache,left,right])⟩
  | left someL someR result =>
    rw [meaning.bddOf someL,meaning.bddOf someR,canonical.handle_union] at result
    have union := canonical.handle_injective wide (narrow _) result
    obtain ⟨sets',remembered,same⟩ := meaning.remember lhs rhs lhs union.symm
    exact ⟨_,remembered.copy d (.inl lhs),answer same ((same lhs).trans union.symm)⟩
  | right someL someR result =>
    rw [meaning.bddOf someL,meaning.bddOf someR,canonical.handle_union] at result
    have union := canonical.handle_injective wide (narrow _) result
    obtain ⟨sets',remembered,same⟩ := meaning.remember lhs rhs rhs union.symm
    exact ⟨_,remembered.copy d (.inl rhs),answer same ((same rhs).trans union.symm)⟩
  | fresh someL someR taken =>
    rw [meaning.bddOf someL,meaning.bddOf someR,canonical.handle_union]
    have some : sets (.inl lhs) ∪ sets (.inl rhs) ≠ ∅ := fun none =>
      meaning.ne_empty someL (Finset.union_eq_empty.mp none).1
    have apart (x : Obj) (live : s.tags (.inl x) ≠ none) : (.inl x : Loc) ≠ .inl d := by
      rintro same
      exact live (same ▸ vacant)
    have minted := meaning.mint inv d taken wide some
    obtain ⟨sets',remembered,same⟩ := minted.remember lhs rhs d (by
      rw [Function.update_self,Function.update_of_ne (apart lhs someL),
        Function.update_of_ne (apart rhs someR)])
    exact ⟨sets',remembered,fun x => (same x).trans (answer (fun _ => rfl) rfl x)⟩

end Meaning

/-- A state whose tags stand for the given expressions. -/
def Stands (canonical : Canonical backend) (s : State) (exprs : Obj → Expr) : Prop :=
  Invariant s ∧ ∃ sets, Meaning canonical s sets ∧ ∀ x, sets (.inl x) = (exprs x).offsets

theorem offsets_update (exprs : Obj → Expr) (dst : Obj) (e : Expr) (x : Obj) :
    (Function.update exprs dst e x).offsets =
      Function.update (fun x => (exprs x).offsets) dst e.offsets x :=
  Function.apply_update (fun _ => Expr.offsets) exprs dst e x

theorem stands_start : Stands canonical State.start fun _ => .null :=
  ⟨.start,fun _ => ∅,⟨fun _ => decodes_null,(Finset.union_empty _).symm⟩,fun _ => rfl⟩

theorem step_stands {op : Op} {exprs : Obj → Expr} (stands : Stands canonical s exprs)
    (step : Step backend s op next) (inRange : op.InRange) :
    Stands canonical next (op.apply exprs) := by
  obtain ⟨inv,sets,meaning,same⟩ := stands
  refine ⟨step_invariant inv step,?_⟩
  have assigned (d : Obj) (S : Finset Nat) (e : Expr) (eq : S = e.offsets) (x : Obj) :
      Function.update sets (.inl d) S (.inl x) = (Function.update exprs d e x).offsets := by
    by_cases here : x = d
    · rw [here,Function.update_self,Function.update_self,eq]
    · rw [Function.update_of_ne (fun eq => here (Sum.inl.inj eq)),Function.update_of_ne here,same]
  have moved (dst src x : Obj) :
      Function.update (Function.update sets (.inl dst) (sets (.inl src))) (.inl src) ∅ (.inl x) =
        (Function.update (Function.update exprs dst (exprs src)) src .null x).offsets := by
    by_cases here : x = src
    · rw [here,Function.update_self,Function.update_self]
      rfl
    · rw [Function.update_of_ne (fun eq => here (Sum.inl.inj eq)),Function.update_of_ne here]
      exact assigned dst _ _ (same src) x
  cases step with
  | @alloc dst offset _ vacant returns =>
    obtain ⟨s',c,taken,returns'⟩ := ssaTagAlloc_spec backend (.inl dst) offset inv
    obtain rfl := returns.unique returns'
    have narrow : Narrow {offset} := fun o member => Finset.mem_singleton.mp member ▸ inRange
    rw [canonical.handle_singleton]
    exact ⟨_,meaning.mint inv dst taken narrow (Finset.singleton_ne_empty offset),
      assigned dst _ (.alloc offset) rfl⟩
  | @combine dst lhs rhs _ vacant returns =>
    obtain ⟨next',combined,returns'⟩ := ssaTagCombine_spec backend (.inl dst) (.inl lhs) (.inl rhs) inv
    obtain rfl := returns.unique returns'
    obtain ⟨sets',meaning',answer⟩ := meaning.combined inv vacant combined
    refine ⟨sets',meaning',fun x => ?_⟩
    rw [answer x,Op.apply,offsets_update]
    simp only [same]
    rfl
  | @copyConstruct dst src _ => exact ⟨_,meaning.copy dst _,assigned dst _ _ (same src)⟩
  | @copyAssign dst src =>
    exact ⟨_,meaning.assign dst (meaning.decodes (.inl src)) rfl rfl,assigned dst _ _ (same src)⟩
  | @moveConstruct dst src _ => exact ⟨_,meaning.move dst src rfl rfl,moved dst src⟩
  | @moveAssign dst src => exact ⟨_,meaning.move dst src rfl rfl,moved dst src⟩
  | @destroy x => exact ⟨_,meaning.assign x decodes_null rfl rfl,assigned x ∅ .null rfl⟩

theorem Stands.tagOffsets_eq {exprs : Obj → Expr} (stands : Stands canonical s exprs) (x : Obj) :
    s.tagOffsets backend (.inl x) = (exprs x).offsets.sort (· ≤ ·) := by
  obtain ⟨_,sets,meaning,same⟩ := stands
  rw [← same x,State.tagOffsets]
  cases refers : s.tags (.inl x) with
  | none => rw [(meaning.decodes _).null refers,Finset.sort_empty]
  | some c =>
    dsimp only
    rw [((meaning.decodes _).cell c refers).2]
    exact canonical.offsetBuf_handle (meaning.decodes _).narrow

theorem run_stands {ops : List Op} {exprs : Obj → Expr} (run : Run (Step backend) s ops next)
    (stands : Stands canonical s exprs) (inRange : ∀ op ∈ ops, op.InRange) :
    Stands canonical next (ops.foldl Op.apply exprs) := by
  induction run generalizing exprs with
  | nil => exact stands
  | cons one _ ih =>
    exact ih (step_stands stands one (inRange _ (.head _))) fun op member => inRange op (.tail _ member)

theorem meanings_inRange {ops : List Op} (inRange : ∀ op ∈ ops, op.InRange) (x : Obj) :
    (meanings ops x).InRange := by
  have keep (exprs : Obj → Expr) (known : ∀ x, (exprs x).InRange) (op : Op) (small : op.InRange)
      (x : Obj) : (op.apply exprs x).InRange := by
    have put (f : Obj → Expr) (all : ∀ x, (f x).InRange) (d : Obj) (e : Expr) (one : e.InRange)
        (x : Obj) : (Function.update f d e x).InRange := by
      by_cases here : x = d
      · rw [here,Function.update_self]
        exact one
      · rw [Function.update_of_ne here]
        exact all x
    cases op with
    | alloc dst offset => exact put exprs known dst (.alloc offset) small x
    | combine dst lhs rhs => exact put exprs known dst (.combine _ _) ⟨known lhs,known rhs⟩ x
    | copyConstruct dst src | copyAssign dst src => exact put exprs known dst _ (known src) x
    | moveConstruct dst src | moveAssign dst src =>
      exact put _ (put exprs known dst _ (known src)) src .null trivial x
    | destroy y => exact put exprs known y .null trivial x
  have all (exprs : Obj → Expr) (known : ∀ x, (exprs x).InRange) :
      ∀ x, (ops.foldl Op.apply exprs x).InRange := by
    induction ops generalizing exprs with
    | nil => exact known
    | cons op ops ih =>
      exact ih (fun op member => inRange op (.tail _ member)) _ (keep exprs known op (inRange op (.head _)))
  exact all (fun _ => .null) (fun _ => trivial) x

/-- Every live tag decodes to the offsets of its expression in increasing order, and the
build without collection decodes that expression to the same list after any history. -/
theorem tags_decode (canonical : Canonical backend) {ops : List Op}
    (run : Run (Step backend) State.start ops s) (inRange : ∀ op ∈ ops, op.InRange) (x : Obj) :
    s.tagOffsets backend (.inl x) = (meanings ops x).offsets.sort (· ≤ ·) ∧
    ∀ history : List Expr, (∀ e ∈ history, e.InRange) →
      Nogc.tagOffsets backend (Nogc.eval backend (meanings ops x) (Nogc.session backend history)).2 =
        (meanings ops x).offsets.sort (· ≤ ·) := by
  have stands : Stands canonical s (meanings ops) := run_stands run stands_start inRange
  exact ⟨stands.tagOffsets_eq x,fun history before =>
    Nogc.tagOffsets_eval canonical (meanings_inRange inRange x) before⟩

/-- A backend that keeps a set of assignments as the bits of its handle. -/
def bitBackend : Backend where
  cube a := 2 ^ arrayOffset a
  union := (· ||| ·)
  enum n := n.bitIndices.map offsetArray

theorem mem_equivBitIndices {n i : Nat} : i ∈ Finset.equivBitIndices n ↔ n.testBit i = true := by
  simp

/-- The handles of `bitBackend` are canonical. -/
def bitCanonical : Canonical bitBackend where
  bdd A := Finset.equivBitIndices.symm (A.image arrayOffset)
  injective A B same := Finset.image_injective arrayOffset_injective
    (Finset.equivBitIndices.symm.injective same)
  falseBdd := rfl
  cube a := by simp [bitBackend]
  union A B := by
    refine Finset.equivBitIndices.injective (Finset.ext fun i => ?_)
    rw [mem_equivBitIndices,bitBackend,Nat.testBit_or,Bool.or_eq_true,← mem_equivBitIndices,
      ← mem_equivBitIndices,Equiv.apply_symm_apply,Equiv.apply_symm_apply,Equiv.apply_symm_apply,
      Finset.image_union,Finset.mem_union]
  enum_nodup A := by
    refine List.Nodup.map_on ?_ Nat.bitIndices_nodup
    intro i memberI j memberJ same
    rw [Nat.mem_bitIndices,← mem_equivBitIndices,Equiv.apply_symm_apply] at memberI memberJ
    obtain ⟨a,_,rfl⟩ := Finset.mem_image.mp memberI
    obtain ⟨b,_,rfl⟩ := Finset.mem_image.mp memberJ
    rw [offsetArray_arrayOffset,offsetArray_arrayOffset] at same
    rw [same]
  mem_enum A a := by
    rw [bitBackend,List.mem_map]
    constructor
    · rintro ⟨i,member,rfl⟩
      rw [Nat.mem_bitIndices,← mem_equivBitIndices,Equiv.apply_symm_apply] at member
      obtain ⟨b,memberB,rfl⟩ := Finset.mem_image.mp member
      rwa [offsetArray_arrayOffset]
    · intro member
      refine ⟨arrayOffset a,?_,offsetArray_arrayOffset a⟩
      rw [Nat.mem_bitIndices,← mem_equivBitIndices,Equiv.apply_symm_apply]
      exact Finset.mem_image_of_mem _ member

theorem alloc_step {d : Obj} (backend : Backend) (inv : Invariant s) (vacant : s.tags (.inl d) = none) (offset : Nat) :
    ∃ next c, Step backend s (.alloc d offset) next ∧ Invariant next ∧
      next.tags = Function.update s.tags (.inl d) (some c) := by
  obtain ⟨s',c,taken,returns⟩ := ssaTagAlloc_spec backend (.inl d) offset inv
  refine ⟨_,c,.alloc vacant returns,taken.mint vacant _,?_⟩
  rw [State.mint_tags,taken.tags]

/-- Two allocations, their union, and a move that leaves a null tag behind. -/
theorem tags_decode_union : ∃ s, Run (Step bitBackend) State.start
    [.alloc 0 5,.alloc 1 3,.combine 2 0 1,.moveAssign 0 2] s ∧
      s.tagOffsets bitBackend (.inl 0) = ({5} ∪ {3} : Finset Nat).sort (· ≤ ·) := by
  obtain ⟨s1,c,first,inv1,tags1⟩ := alloc_step (d := 0) bitBackend .start rfl 5
  have vacant1 : s1.tags (.inl 1) = none := by
    rw [tags1,Function.update_of_ne (by decide)]
    rfl
  obtain ⟨s2,c',second,inv2,tags2⟩ := alloc_step bitBackend inv1 vacant1 3
  have vacant2 : s2.tags (.inl 2) = none := by
    rw [tags2,Function.update_of_ne (by decide),tags1,Function.update_of_ne (by decide)]
    rfl
  obtain ⟨s3,_,third⟩ := ssaTagCombine_spec bitBackend (.inl 2) (.inl 0) (.inl 1) inv2
  have run : Run (Step bitBackend) State.start
      [.alloc 0 5,.alloc 1 3,.combine 2 0 1,.moveAssign 0 2] _ :=
    .cons first (.cons second (.cons (.combine vacant2 third) (.cons .moveAssign .nil)))
  have inRange : ∀ op ∈ [Op.alloc 0 5,.alloc 1 3,.combine 2 0 1,.moveAssign 0 2], op.InRange := by
    simp [Op.InRange,tagWidth]
  exact ⟨_,run,(tags_decode bitCanonical run inRange 0).1⟩

end Libdft.Ssa
