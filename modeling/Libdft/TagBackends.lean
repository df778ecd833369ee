import Libdft.TagTrait
import Libdft.BddEmptiness
import Libdft.SsaSets

/-! One expression in the four back ends. The pure ones evaluate it; a process of the label
back end has it in its log, and a run of the cell back end leaves it in an object, with the
parts evaluated in any order. Only emptiness is compared. -/
namespace Libdft.TagBackends

open TagTraits TagOps Ssa

def eval (T : Type) [TagOps T] : Expr → T
  | .null => clearedVal
  | .alloc offset => tagAlloc (BitVec.ofNat 32 offset)
  | .combine lhs rhs => tagCombine (eval T lhs) (eval T rhs)

/-- Whether `tag_alloc` is called at all. -/
def Allocates : Expr → Prop
  | .null => False
  | .alloc _ => True
  | .combine lhs rhs => Allocates lhs ∨ Allocates rhs

/-- Whether `tag_alloc` is called for an offset other than the first byte's. -/
def AllocatesLater : Expr → Prop
  | .null => False
  | .alloc offset => offset ≠ 0
  | .combine lhs rhs => AllocatesLater lhs ∨ AllocatesLater rhs

theorem AllocatesLater.allocates {e : Expr} (later : AllocatesLater e) : Allocates e := by
  induction e with
  | null => exact later
  | alloc offset => trivial
  | combine lhs rhs ihl ihr => exact later.imp ihl ihr

theorem allocates_iff (e : Expr) : Allocates e ↔ e.offsets ≠ ∅ := by
  induction e with
  | null => simp [Allocates,Expr.offsets]
  | alloc offset => simp [Allocates,Expr.offsets]
  | combine lhs rhs ihl ihr =>
    simp only [Allocates,Expr.offsets,ihl,ihr,ne_eq,Finset.union_eq_empty]
    tauto

/-- A byte has a bit set once an offset other than 0 was among the operands. -/
theorem uint8_empty_iff {e : Expr} (inRange : e.InRange) :
    tagIsEmpty (eval UInt8 e) = true ↔ ¬ AllocatesLater e := by
  rw [empty_iff]
  induction e with
  | null => exact iff_of_true rfl id
  | alloc offset =>
    have small : offset < 2 ^ 32 := Nat.lt_trans inRange (by decide)
    have positive : 0 < BitVec.ofNat 32 offset ↔ offset ≠ 0 := by
      simp only [BitVec.lt_def,BitVec.toNat_ofNat,Nat.mod_eq_of_lt small]
      exact Nat.pos_iff_ne_zero
    show (if 0 < BitVec.ofNat 32 offset then (1 : UInt8) else 0) = 0 ↔ ¬ offset ≠ 0
    by_cases first : offset = 0
    · rw [if_neg fun h => positive.mp h first]
      simp [first]
    · rw [if_pos (positive.mpr first)]
      exact iff_of_false (by decide) (fun h => h first)
  | combine lhs rhs ihl ihr =>
    show eval UInt8 lhs ||| eval UInt8 rhs = 0 ↔ ¬ (AllocatesLater lhs ∨ AllocatesLater rhs)
    rw [UInt8.or_eq_zero_iff,not_or]
    exact and_congr (ihl inRange.1) (ihr inRange.2)

theorem set_empty_iff (e : Expr) :
    tagIsEmpty (eval (Finset (BitVec 32)) e) = true ↔ ¬ Allocates e := by
  rw [empty_iff]
  induction e with
  | null => exact iff_of_true rfl id
  | alloc offset => exact iff_of_false (Finset.singleton_ne_empty _) (fun h => h trivial)
  | combine lhs rhs ihl ihr =>
    show eval (Finset (BitVec 32)) lhs ∪ eval (Finset (BitVec 32)) rhs = ∅ ↔ _
    rw [Finset.union_eq_empty,Allocates,not_or]
    exact and_congr ihl ihr

/-! The label back end. -/

/-- A process of `BDDTag` and the expressions it has labels for. -/
structure Labelling where
  tag : BddTag.BDDTag
  log : List (Expr × Nat)

/-- A label that an expression may be combined through: 0, or one returned before. -/
inductive Held (log : List (Expr × Nat)) : Expr → Nat → Prop where
  | cleared : Held log .null 0
  | logged : (e, l) ∈ log → Held log e l

namespace Labelling

def start : Labelling := ⟨.new,[]⟩

/-- One call of `tag_alloc` or `tag_combine`. -/
inductive Step (p : Labelling) : Expr → Labelling → Prop where
  | alloc : offset < 2 ^ tagWidth → Returns (fun fuel => p.tag.insert fuel offset) (b,l) →
      Step p (.alloc offset) ⟨b,(.alloc offset,l) :: p.log⟩
  | combine : Held p.log lhs l1 → Held p.log rhs l2 →
      Returns (fun fuel => p.tag.combine fuel l1 l2) (b,l) →
      Step p (.combine lhs rhs) ⟨b,(.combine lhs rhs,l) :: p.log⟩

open BddTag BDDTag

/-- What a label has to be for its expression. -/
structure Fits (b : BDDTag) (e : Expr) (l : Nat) : Prop where
  denotes : ∃ offs, Denotes b l offs ∧ ∀ v ∈ offs, v ≤ maxLb
  empty : l = 0 ↔ ¬ Allocates e

theorem Fits.keep {b b' : BDDTag} {e : Expr} {l : Nat} (fits : Fits b e l) (trie : Trie b) (keeps : Keeps b b') :
    Fits b' e l := by
  obtain ⟨⟨offs,denotes,small⟩,empty⟩ := fits
  exact ⟨⟨offs,denotes.keep trie keeps,small⟩,empty⟩

structure Invariant (p : Labelling) : Prop where
  trie : Trie p.tag
  fits : ∀ e l, (e, l) ∈ p.log → Fits p.tag e l

variable {p next : Labelling} {e lhs rhs : Expr} {l l1 l2 : Nat} {calls : List Expr}

theorem Invariant.held (inv : Invariant p) (held : Held p.log e l) : Fits p.tag e l := by
  cases held with
  | cleared => exact ⟨⟨[],.root,by simp⟩,by simp [Allocates]⟩
  | logged member => exact inv.fits e l member

theorem Invariant.insert_ends (inv : Invariant p) {offset fuel : Nat} (small : offset < 2 ^ tagWidth)
    (budget : 2 ^ 32 < fuel) : (p.tag.insert fuel offset).Ends fun r =>
      Trie r.1 ∧ Keeps p.tag r.1 ∧ Fits r.1 (.alloc offset) r.2 := by
  have bound : offset < 2 ^ 24 := small
  refine (BDDTag.insert_ends inv.trie (by omega) (by omega)).imp ?_
  intro r extended
  obtain ⟨offs,grown,exact⟩ := extended.grown inv.trie
  refine ⟨grown.trie,grown.keeps,⟨offs,grown.denotes,fun v member => ?_⟩,iff_of_false ?_ (fun h => h trivial)⟩
  · have : v = offset := (exact v).mpr member
    have : maxLb = 2 ^ 24 - 1 := rfl
    omega
  · intro zero
    have none := (zero ▸ grown.denotes : Denotes r.1 0 offs).eq_nil
    have some := (exact offset).mp rfl
    simp [none] at some

theorem Invariant.combine_ends (inv : Invariant p) {fuel : Nat} (first : Held p.log lhs l1)
    (second : Held p.log rhs l2) (budget : 2 ^ 32 < fuel) : (p.tag.combine fuel l1 l2).Ends fun r =>
      Trie r.1 ∧ Keeps p.tag r.1 ∧ Fits r.1 (.combine lhs rhs) r.2 := by
  obtain ⟨⟨xs,denotes1,small1⟩,empty1⟩ := inv.held first
  obtain ⟨⟨ys,denotes2,small2⟩,empty2⟩ := inv.held second
  refine (combine_empty_iff inv.trie denotes1 denotes2 (fun v h => h.elim (small1 v) (small2 v)) budget).imp ?_
  rintro r ⟨offs,grown,small,empty⟩
  refine ⟨grown.trie,grown.keeps,⟨offs,grown.denotes,small⟩,?_⟩
  rw [empty,empty1,empty2,Allocates,not_or]

theorem Invariant.grow {b : BDDTag} (inv : Invariant p) (keeps : Keeps p.tag b) (trie : Trie b)
    (fits : Fits b e l) : Invariant ⟨b,(e,l) :: p.log⟩ := by
  refine ⟨trie,fun e' l' member => ?_⟩
  rcases List.mem_cons.mp member with same | member
  · cases same
    exact fits
  · exact (inv.fits e' l' member).keep inv.trie keeps

theorem step_invariant (inv : Invariant p) (step : Step p e next) : Invariant next := by
  cases step with
  | alloc small returns =>
    obtain ⟨trie,keeps,fits⟩ := returns.post ⟨2 ^ 32 + 1,fun fuel h => inv.insert_ends small (by omega)⟩
    exact inv.grow keeps trie fits
  | combine first second returns =>
    obtain ⟨trie,keeps,fits⟩ := returns.post
      ⟨2 ^ 32 + 1,fun fuel h => inv.combine_ends first second (by omega)⟩
    exact inv.grow keeps trie fits

theorem run_invariant (run : Run Step start calls p) : Invariant p :=
  run.invariant Invariant (fun _ _ _ inv step => step_invariant inv step) ⟨trie_new,by simp [start]⟩

/-- A call returns, unless it finds the node vector full and stops the process. -/
theorem terminates (run : Run Step start calls p) :
    (∀ offset < 2 ^ tagWidth, Terminates fun fuel => p.tag.insert fuel offset) ∧
    ∀ lhs rhs l1 l2, Held p.log lhs l1 → Held p.log rhs l2 →
      Terminates fun fuel => p.tag.combine fuel l1 l2 := by
  have inv := run_invariant run
  constructor
  · intro offset small
    exact .of_ends ⟨2 ^ 32 + 1,fun fuel h => inv.insert_ends small (by omega)⟩
  · intro lhs rhs l1 l2 first second
    exact .of_ends ⟨2 ^ 32 + 1,fun fuel h => inv.combine_ends first second (by omega)⟩

theorem empty_iff (run : Run Step start calls p) (held : Held p.log e l) :
    tagIsEmpty l = true ↔ ¬ Allocates e :=
  TagTraits.empty_iff.trans ((run_invariant run).held held).empty

end Labelling

/-! The cell back end. -/

theorem cell_empty_iff {backend : Backend} (canonical : Canonical backend) {ops : List Op} {s : State}
    (run : Run (Ssa.Step backend) State.start ops s) (inRange : ∀ op ∈ ops, op.InRange) (x : Obj) :
    tagIsEmpty (s.tags (.inl x)) = true ↔ ¬ Allocates (meanings ops x) := by
  have stands : Stands canonical s (meanings ops) := run_stands run stands_start inRange
  obtain ⟨_,sets,meaning,same⟩ := stands
  have decodes := meaning.decodes (.inl x)
  rw [same x] at decodes
  rw [TagTraits.empty_iff,allocates_iff,not_not]
  constructor
  · exact decodes.null
  · intro none
    by_contra some
    obtain ⟨c,refers⟩ := Option.ne_none_iff_exists'.mp some
    exact (decodes.cell c refers).1 none

theorem cell_returns {backend : Backend} {ops : List Op} {s : State}
    (run : Run (Ssa.Step backend) State.start ops s) (dst : Obj) :
    (∀ offset, ∃ next, Returns (fun fuel => s.ssaTagAlloc backend fuel (.inl dst) offset) next) ∧
    ∀ lhs rhs, ∃ next,
      Returns (fun fuel => s.ssaTagCombine backend fuel (.inl dst) (.inl lhs) (.inl rhs)) next := by
  have inv := Ssa.run_invariant run
  constructor
  · intro offset
    obtain ⟨_,_,_,returns⟩ := ssaTagAlloc_spec backend (.inl dst) offset inv
    exact ⟨_,returns⟩
  · intro lhs rhs
    obtain ⟨next,_,returns⟩ := ssaTagCombine_spec backend (.inl dst) (.inl lhs) (.inl rhs) inv
    exact ⟨next,returns⟩

/-- What is asked of an expression: each instance finds its tag empty just when nothing
was allocated in it, and the calls of the two instances with a state come to an end. -/
structure Agree {backend : Backend} (canonical : Canonical backend) (e : Expr) : Prop where
  uint8 : tagIsEmpty (eval UInt8 e) = true ↔ ¬ Allocates e
  set : tagIsEmpty (eval (Finset (BitVec 32)) e) = true ↔ ¬ Allocates e
  bdd : ∀ calls p l, Run Labelling.Step .start calls p → Held p.log e l →
    (tagIsEmpty l = true ↔ ¬ Allocates e)
  bddEnds : ∀ calls p, Run Labelling.Step .start calls p →
    (∀ offset < 2 ^ tagWidth, Terminates fun fuel => p.tag.insert fuel offset) ∧
    ∀ lhs rhs l1 l2, Held p.log lhs l1 → Held p.log rhs l2 →
      Terminates fun fuel => p.tag.combine fuel l1 l2
  ssa : ∀ ops s x, Run (Ssa.Step backend) State.start ops s → (∀ op ∈ ops, op.InRange) →
    meanings ops x = e → (tagIsEmpty (s.tags (.inl x)) = true ↔ ¬ Allocates e)
  ssaReturns : ∀ ops s, Run (Ssa.Step backend) State.start ops s → ∀ dst,
    (∀ offset, ∃ next, Returns (fun fuel => s.ssaTagAlloc backend fuel (.inl dst) offset) next) ∧
    ∀ lhs rhs, ∃ next,
      Returns (fun fuel => s.ssaTagCombine backend fuel (.inl dst) (.inl lhs) (.inl rhs)) next

/-- The four instances agree on an expression unless all it allocates is offset 0, which
the byte instance encodes as its cleared value. -/
theorem agree_iff {backend : Backend} (canonical : Canonical backend) {e : Expr} (inRange : e.InRange) :
    Agree canonical e ↔ (Allocates e → AllocatesLater e) := by
  constructor
  · intro agree allocates
    by_contra first
    exact agree.uint8.mp ((uint8_empty_iff inRange).mpr first) allocates
  · intro later
    refine ⟨?_,set_empty_iff e,fun calls p l run held => Labelling.empty_iff run held,
      fun calls p run => Labelling.terminates run,?_,fun ops s run => cell_returns run⟩
    · rw [uint8_empty_iff inRange]
      exact not_congr ⟨AllocatesLater.allocates,later⟩
    · rintro ops s x run each rfl
      exact cell_empty_iff canonical run each x

theorem agree_iff_pair : Agree bitCanonical (.combine (.alloc 0) (.alloc 7)) := by
  have inRange : Expr.InRange (.combine (.alloc 0) (.alloc 7)) := by simp [Expr.InRange,tagWidth]
  have later : AllocatesLater (.combine (.alloc 0) (.alloc 7)) := by simp [AllocatesLater]
  exact (agree_iff bitCanonical inRange).mpr fun _ => later

/-- The first byte of the input is not tainted in the byte instance. -/
theorem first_byte_lost : ¬ Agree bitCanonical (.alloc 0) ∧
    tagIsEmpty (eval UInt8 (.alloc 0)) = true ∧ tagIsEmpty (eval (Finset (BitVec 32)) (.alloc 0)) = false :=
  ⟨fun agree => agree.uint8.mp (by decide) trivial,by decide,by decide⟩

end Libdft.TagBackends
