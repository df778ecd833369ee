import Libdft.BddTag
import Mathlib.Tactic.Common

/-! The shape of the label trie that `insert` and `combine` keep. A node hanging
from a right link is a label; the chain of left links below a label spells a gap.
A split leaves the lower part of a gap without any link to it, and the invariant
is stated so that it holds of such nodes too. -/
namespace Libdft.BddTag.BDDTag

variable {b b' : BDDTag} {i c cur last num : Nat}

@[simp] theorem size_pushNode (n : TagNode) : (b.pushNode n).size = b.size + 1 := by
  simp [pushNode,size]

@[simp] theorem size_setLeft : (b.setLeft i c).size = b.size := by simp [setLeft,size]
@[simp] theorem size_setRight : (b.setRight i c).size = b.size := by simp [setRight,size]
@[simp] theorem size_setSeg (f : TagSeg → TagSeg) : (b.setSeg i f).size = b.size := by
  simp [setSeg,size]
@[simp] theorem size_setBegin : (b.setBegin i c).size = b.size := by simp [setBegin]
@[simp] theorem size_setSign : (b.setSign i).size = b.size := by simp [setSign]

theorem node_pushNode (n : TagNode) (i : Nat) :
    (b.pushNode n).node i = if i = b.size then n else b.node i := by
  simp only [pushNode,node,size,Array.getD_eq_getD_getElem?,Array.getElem?_push]
  split <;> simp_all

theorem node_modify (f : TagNode → TagNode) (bound : cur < b.size) (i : Nat) :
    BDDTag.node ⟨b.nodes.modify cur f⟩ i = if i = cur then f (b.node i) else b.node i := by
  have inside : cur < b.nodes.size := bound
  simp only [node,Array.getD_eq_getD_getElem?,Array.getElem?_modify]
  by_cases same : cur = i
  · subst same; simp [inside]
  · simp [same,Ne.symm same]

/-- Nodes reached by a right link, and the root, are the ones calls hand out. -/
def IsLabel (b : BDDTag) (c : Nat) : Prop := c = 0 ∨ ∃ i < b.size, (b.node i).right = c

instance : Decidable (b.IsLabel c) := inferInstanceAs (Decidable (_ ∨ ∃ i < _, _))

@[simp] theorem isLabel_zero : b.IsLabel 0 := .inl rfl

/-- The label heading the chain of left links that a node lies on. -/
def head (b : BDDTag) (i : Nat) : Nat := if b.IsLabel i then i else (b.node i).parent

theorem head_of_label (h : b.IsLabel i) : b.head i = i := if_pos h

theorem head_of_not_label (h : ¬ b.IsLabel i) : b.head i = (b.node i).parent := if_neg h

structure Trie (b : BDDTag) : Prop where
  size_pos : 0 < b.size
  size_le : b.size ≤ maxLb
  root_parent : (b.node 0).parent = 0
  root_begin : (b.node 0).seg.begin = 0
  root_end : (b.node 0).seg.end_ = 0
  left_bound : ∀ i < b.size, (b.node i).left ≠ 0 → i < (b.node i).left ∧ (b.node i).left < b.size
  right_bound : ∀ i < b.size, (b.node i).right ≠ 0 → i < (b.node i).right ∧ (b.node i).right < b.size
  parent_lt : ∀ i < b.size, i ≠ 0 → (b.node i).parent < i
  parent_label : ∀ i < b.size, b.IsLabel (b.node i).parent
  parent_end : ∀ i < b.size, i ≠ 0 → (b.node (b.node i).parent).seg.end_ ≤ (b.node i).seg.begin
  span : ∀ i < b.size, i ≠ 0 → (b.node i).seg.begin < (b.node i).seg.end_
  end_lt : ∀ i < b.size, (b.node i).seg.end_ < 2 ^ 32
  left_begin : ∀ i < b.size, (b.node i).left ≠ 0 →
    (b.node (b.node i).left).seg.begin = (b.node i).seg.end_
  left_parent : ∀ i < b.size, (b.node i).left ≠ 0 → (b.node (b.node i).left).parent = b.head i
  left_injective : ∀ i < b.size, ∀ j < b.size, (b.node i).left ≠ 0 →
    (b.node i).left = (b.node j).left → i = j
  left_not_label : ∀ i < b.size, (b.node i).left ≠ 0 → ¬ b.IsLabel (b.node i).left
  right_begin : ∀ i < b.size, (b.node i).right ≠ 0 →
    (b.node (b.node i).right).seg.begin = (b.node i).seg.end_
  right_end : ∀ i < b.size, (b.node i).right ≠ 0 →
    (b.node (b.node i).right).seg.end_ = (b.node i).seg.end_ + 1
  right_parent : ∀ i < b.size, (b.node i).right ≠ 0 → (b.node (b.node i).right).parent = b.head i

/-- Segments of any length, laid end to end along the links. -/
structure Laid (b : BDDTag) : Prop where
  size_pos : 0 < b.size
  size_le : b.size ≤ maxLb
  root_begin : (b.node 0).seg.begin = 0
  root_end : (b.node 0).seg.end_ = 0
  left_lt : ∀ i < b.size, (b.node i).left < b.size
  right_lt : ∀ i < b.size, (b.node i).right < b.size
  parent_label : ∀ i < b.size, b.IsLabel (b.node i).parent
  parent_end : ∀ i < b.size, i ≠ 0 → (b.node (b.node i).parent).seg.end_ ≤ (b.node i).seg.begin
  span : ∀ i < b.size, i ≠ 0 → (b.node i).seg.begin < (b.node i).seg.end_
  end_lt : ∀ i < b.size, (b.node i).seg.end_ < 2 ^ 32
  left_begin : ∀ i < b.size, (b.node i).left ≠ 0 →
    (b.node (b.node i).left).seg.begin = (b.node i).seg.end_
  left_parent : ∀ i < b.size, (b.node i).left ≠ 0 → (b.node (b.node i).left).parent = b.head i
  left_injective : ∀ i < b.size, ∀ j < b.size, (b.node i).left ≠ 0 →
    (b.node i).left = (b.node j).left → i = j
  left_not_label : ∀ i < b.size, (b.node i).left ≠ 0 → ¬ b.IsLabel (b.node i).left
  right_begin : ∀ i < b.size, (b.node i).right ≠ 0 →
    (b.node (b.node i).right).seg.begin = (b.node i).seg.end_
  right_parent : ∀ i < b.size, (b.node i).right ≠ 0 → (b.node (b.node i).right).parent = b.head i

theorem node_new (i : Nat) : new.node i = .make 0 0 0 := by
  cases i with
  | zero => rfl
  | succ i => rfl

theorem trie_new : Trie new := by
  have label : ∀ c, new.IsLabel c ↔ c = 0 := by
    intro c
    simp [IsLabel,node_new,TagNode.make,eq_comm]
  have size : new.size = 1 := rfl
  constructor <;> simp [node_new,TagNode.make,tagOff,size,label,maxLb,lbWidth]

namespace Laid

theorem label_lt (laid : Laid b) (label : b.IsLabel c) : c < b.size := by
  rcases label with rfl | ⟨i,bound,rfl⟩
  · exact laid.size_pos
  · exact laid.right_lt i bound

theorem label_small (laid : Laid b) (label : b.IsLabel c) : c < 2 ^ 24 :=
  Nat.lt_of_lt_of_le (laid.label_lt label) (Nat.le_trans laid.size_le (by decide))

theorem head_label (laid : Laid b) (bound : i < b.size) : b.IsLabel (b.head i) := by
  unfold head
  split
  · assumption
  · exact laid.parent_label i bound

theorem parent_before (laid : Laid b) (bound : i < b.size) (nonzero : i ≠ 0) :
    (b.node (b.node i).parent).seg.end_ < (b.node i).seg.end_ :=
  Nat.lt_of_le_of_lt (laid.parent_end i bound nonzero) (laid.span i bound nonzero)

/-- Along a chain of left links the offsets only grow. -/
theorem head_end (laid : Laid b) (bound : i < b.size) :
    (b.node (b.head i)).seg.end_ ≤ (b.node i).seg.end_ := by
  by_cases label : b.IsLabel i
  · rw [head_of_label label]
  · have nonzero : i ≠ 0 := fun zero => label (zero ▸ isLabel_zero)
    rw [head_of_not_label label]
    exact Nat.le_of_lt (laid.parent_before bound nonzero)

theorem left_end (laid : Laid b) (inside : cur < b.size) (nonzero : (b.node cur).left ≠ 0) :
    (b.node cur).seg.end_ < (b.node (b.node cur).left).seg.end_ := by
  have span := laid.span _ (laid.left_lt cur inside) nonzero
  rwa [laid.left_begin cur inside nonzero] at span

theorem right_end (laid : Laid b) (inside : cur < b.size) (nonzero : (b.node cur).right ≠ 0) :
    (b.node cur).seg.end_ < (b.node (b.node cur).right).seg.end_ := by
  have span := laid.span _ (laid.right_lt cur inside) nonzero
  rwa [laid.right_begin cur inside nonzero] at span

end Laid

namespace Trie

theorem laid (h : Trie b) : Laid b where
  size_pos := h.size_pos
  size_le := h.size_le
  root_begin := h.root_begin
  root_end := h.root_end
  left_lt i bound := by
    by_cases none : (b.node i).left = 0
    · rw [none]; exact h.size_pos
    · exact (h.left_bound i bound none).2
  right_lt i bound := by
    by_cases none : (b.node i).right = 0
    · rw [none]; exact h.size_pos
    · exact (h.right_bound i bound none).2
  parent_label := h.parent_label
  parent_end := h.parent_end
  span := h.span
  end_lt := h.end_lt
  left_begin := h.left_begin
  left_parent := h.left_parent
  left_injective := h.left_injective
  left_not_label := h.left_not_label
  right_begin := h.right_begin
  right_parent := h.right_parent

theorem label_lt (h : Trie b) (label : b.IsLabel c) : c < b.size := h.laid.label_lt label

theorem label_end (h : Trie b) (label : b.IsLabel c) (nonzero : c ≠ 0) :
    (b.node c).seg.end_ = (b.node c).seg.begin + 1 := by
  rcases label with rfl | ⟨i,bound,rfl⟩
  · exact absurd rfl nonzero
  · rw [h.right_end i bound nonzero,h.right_begin i bound nonzero]

end Trie

/-- What a later state keeps of an earlier one: every node's end and parent, and
of the nodes that calls hand out also the begin. -/
structure Keeps (b b' : BDDTag) : Prop where
  size_le : b.size ≤ b'.size
  label : ∀ c, b.IsLabel c → b'.IsLabel c
  parent : ∀ i < b.size, (b'.node i).parent = (b.node i).parent
  end_ : ∀ i < b.size, (b'.node i).seg.end_ = (b.node i).seg.end_
  begin : ∀ c < b.size, b.IsLabel c → (b'.node c).seg.begin = (b.node c).seg.begin

theorem Keeps.refl (b : BDDTag) : Keeps b b :=
  ⟨Nat.le_refl _,fun _ h => h,fun _ _ => rfl,fun _ _ => rfl,fun _ _ _ => rfl⟩

theorem Keeps.trans {b'' : BDDTag} (first : Keeps b b') (second : Keeps b' b'') : Keeps b b'' where
  size_le := Nat.le_trans first.size_le second.size_le
  label c h := second.label c (first.label c h)
  parent i h := (second.parent i (Nat.lt_of_lt_of_le h first.size_le)).trans (first.parent i h)
  end_ i h := (second.end_ i (Nat.lt_of_lt_of_le h first.size_le)).trans (first.end_ i h)
  begin c h label :=
    (second.begin c (Nat.lt_of_lt_of_le h first.size_le) (first.label c label)).trans
      (first.begin c h label)

/-- A fresh zero-run of length `num` below `cur`, taking over its left link; a longer
run that hung there before starts after the new one. -/
structure Hung (b b' : BDDTag) (cur last num : Nat) : Prop where
  size : b'.size = b.size + 1
  fresh : b'.node b.size = ⟨0,0,last,⟨false,(b.node cur).seg.end_,(b.node cur).seg.end_ + num⟩⟩
  left : ∀ i < b.size, (b'.node i).left = if i = cur then b.size else (b.node i).left
  right : ∀ i < b.size, (b'.node i).right = (b.node i).right
  parent : ∀ i < b.size, (b'.node i).parent = (b.node i).parent
  end_ : ∀ i < b.size, (b'.node i).seg.end_ = (b.node i).seg.end_
  begin : ∀ i < b.size, (b'.node i).seg.begin = (b.node i).seg.begin ∨
    i = (b.node cur).left ∧ i ≠ 0 ∧ (b'.node i).seg.begin = (b.node cur).seg.end_ + num ∧
      (b.node cur).seg.end_ + num < (b.node i).seg.end_

namespace Hung

theorem isLabel_iff (hung : Hung b b' cur last num) (c : Nat) :
    b'.IsLabel c ↔ b.IsLabel c := by
  constructor
  · rintro (rfl | ⟨i,bound,rfl⟩)
    · exact isLabel_zero
    · rw [hung.size] at bound
      by_cases old : i < b.size
      · exact .inr ⟨i,old,(hung.right i old).symm⟩
      · have new : i = b.size := by omega
        subst new
        simp [hung.fresh]
  · rintro (rfl | ⟨i,bound,rfl⟩)
    · exact isLabel_zero
    · exact .inr ⟨i,by rw [hung.size]; omega,hung.right i bound⟩

theorem head_old (hung : Hung b b' cur last num) (bound : i < b.size) :
    b'.head i = b.head i := by
  simp only [head,hung.isLabel_iff,hung.parent i bound]

theorem head_fresh (hung : Hung b b' cur last num) (laid : Laid b) : b'.head b.size = last := by
  rw [head_of_not_label,hung.fresh]
  rw [hung.isLabel_iff]
  exact fun label => Nat.lt_irrefl _ (laid.label_lt label)

theorem begin_label (hung : Hung b b' cur last num) (laid : Laid b) (inside : cur < b.size)
    (bound : c < b.size) (label : b.IsLabel c) :
    (b'.node c).seg.begin = (b.node c).seg.begin := by
  rcases hung.begin c bound with same | ⟨rfl,nonzero,_⟩
  · exact same
  · exact absurd label (laid.left_not_label cur inside nonzero)

theorem keeps (hung : Hung b b' cur last num) (laid : Laid b) (inside : cur < b.size) :
    Keeps b b' where
  size_le := by rw [hung.size]; omega
  label c := (hung.isLabel_iff c).mpr
  parent := hung.parent
  end_ := hung.end_
  begin _ := hung.begin_label laid inside

theorem old_or_fresh (hung : Hung b b' cur last num) (bound : i < b'.size) : i < b.size ∨ i = b.size := by
  rw [hung.size] at bound
  omega

/-- The left links are the old ones but for that of `cur`, which leads to the fresh run. -/
theorem left_cases (hung : Hung b b' cur last num) (bound : i < b'.size) (nonzero : (b'.node i).left ≠ 0) :
    i = cur ∧ (b'.node i).left = b.size ∨ i < b.size ∧ i ≠ cur ∧ (b'.node i).left = (b.node i).left := by
  rcases hung.old_or_fresh bound with old | rfl
  · have left := hung.left i old
    split at left
    next eq => exact .inl ⟨eq,left⟩
    next ne => exact .inr ⟨old,ne,left⟩
  · simp [hung.fresh] at nonzero

theorem right_old (hung : Hung b b' cur last num) (bound : i < b'.size) (nonzero : (b'.node i).right ≠ 0) :
    i < b.size ∧ (b'.node i).right = (b.node i).right := by
  rcases hung.old_or_fresh bound with old | rfl
  · exact ⟨old,hung.right i old⟩
  · simp [hung.fresh] at nonzero

theorem laid (hung : Hung b b' cur last num) (laid : Laid b) (inside : cur < b.size)
    (heads : b.head cur = last) (positive : 0 < num)
    (fits : (b.node cur).seg.end_ + num < 2 ^ 32) (room : b.size < maxLb) : Laid b' := by
  have lastLabel : b.IsLabel last := heads ▸ laid.head_label inside
  have lastLt : last < b.size := laid.label_lt lastLabel
  have size := hung.size
  have sizePos := laid.size_pos
  constructor
  case size_pos => omega
  case size_le => omega
  case root_begin =>
    rw [hung.begin_label laid inside sizePos isLabel_zero,laid.root_begin]
  case root_end => rw [hung.end_ 0 sizePos,laid.root_end]
  case left_lt =>
    intro i bound
    rcases hung.old_or_fresh bound with old | rfl
    · have before := laid.left_lt i old
      rw [hung.left i old]
      split <;> omega
    · rw [hung.fresh]; dsimp only; omega
  case right_lt =>
    intro i bound
    rcases hung.old_or_fresh bound with old | rfl
    · have before := laid.right_lt i old
      rw [hung.right i old]; omega
    · rw [hung.fresh]; dsimp only; omega
  case parent_label =>
    intro i bound
    rw [hung.isLabel_iff]
    rcases hung.old_or_fresh bound with old | rfl
    · rw [hung.parent i old]; exact laid.parent_label i old
    · rw [hung.fresh]; exact lastLabel
  case parent_end =>
    intro i bound nonzero
    rcases hung.old_or_fresh bound with old | rfl
    · rw [hung.parent i old,hung.end_ _ (laid.label_lt (laid.parent_label i old))]
      have before := laid.parent_end i old nonzero
      rcases hung.begin i old with same | ⟨rfl,nonzero,same,_⟩
      · rw [same]; exact before
      · rw [same]
        rw [laid.left_begin cur inside nonzero] at before
        omega
    · rw [hung.fresh]
      show (b'.node last).seg.end_ ≤ _
      rw [hung.end_ last lastLt,← heads]
      exact laid.head_end inside
  case span =>
    intro i bound nonzero
    rcases hung.old_or_fresh bound with old | rfl
    · rw [hung.end_ i old]
      have before := laid.span i old nonzero
      rcases hung.begin i old with same | ⟨_,_,same,less⟩ <;> omega
    · simp [hung.fresh]; omega
  case end_lt =>
    intro i bound
    rcases hung.old_or_fresh bound with old | rfl
    · rw [hung.end_ i old]; exact laid.end_lt i old
    · rw [hung.fresh]; exact fits
  case left_begin =>
    intro i bound nonzero
    rcases hung.left_cases bound nonzero with ⟨rfl,left⟩ | ⟨old,other,left⟩
    · rw [left,hung.fresh,hung.end_ i inside]
    · rw [left] at nonzero ⊢
      rw [hung.end_ i old]
      rcases hung.begin _ (laid.left_lt i old) with same | ⟨moved,_⟩
      · rw [same]; exact laid.left_begin i old nonzero
      · exact absurd (laid.left_injective i old cur inside nonzero moved) other
  case left_parent =>
    intro i bound nonzero
    rcases hung.left_cases bound nonzero with ⟨rfl,left⟩ | ⟨old,_,left⟩
    · rw [left,hung.fresh,hung.head_old inside,heads]
    · rw [left] at nonzero ⊢
      rw [hung.head_old old,hung.parent _ (laid.left_lt i old)]
      exact laid.left_parent i old nonzero
  case left_injective =>
    intro i boundI j boundJ nonzero same
    rcases hung.left_cases boundI nonzero with ⟨rfl,leftI⟩ | ⟨oldI,_,leftI⟩
    · rcases hung.left_cases boundJ (same ▸ nonzero) with ⟨rfl,_⟩ | ⟨oldJ,_,leftJ⟩
      · rfl
      · have below := laid.left_lt j oldJ
        omega
    · have below := laid.left_lt i oldI
      rcases hung.left_cases boundJ (same ▸ nonzero) with ⟨rfl,leftJ⟩ | ⟨oldJ,_,leftJ⟩
      · omega
      · exact laid.left_injective i oldI j oldJ (leftI ▸ nonzero) (leftI.symm.trans (same.trans leftJ))
  case left_not_label =>
    intro i bound nonzero
    rw [hung.isLabel_iff]
    rcases hung.left_cases bound nonzero with ⟨_,left⟩ | ⟨old,_,left⟩
    · rw [left]
      exact fun label => Nat.lt_irrefl _ (laid.label_lt label)
    · rw [left] at nonzero ⊢
      exact laid.left_not_label i old nonzero
  case right_begin =>
    intro i bound nonzero
    obtain ⟨old,right⟩ := hung.right_old bound nonzero
    rw [right] at nonzero ⊢
    rw [hung.end_ i old,hung.begin_label laid inside (laid.right_lt i old) (.inr ⟨i,old,rfl⟩)]
    exact laid.right_begin i old nonzero
  case right_parent =>
    intro i bound nonzero
    obtain ⟨old,right⟩ := hung.right_old bound nonzero
    rw [right] at nonzero ⊢
    rw [hung.head_old old,hung.parent _ (laid.right_lt i old)]
    exact laid.right_parent i old nonzero

theorem trie (hung : Hung b b' cur last num) (trie : Trie b) (inside : cur < b.size)
    (heads : b.head cur = last) (positive : 0 < num)
    (fits : (b.node cur).seg.end_ + num < 2 ^ 32) (room : b.size < maxLb) : Trie b' := by
  have laid := hung.laid trie.laid inside heads positive fits room
  have lastLt : last < b.size := trie.label_lt (heads ▸ trie.laid.head_label inside)
  have size := hung.size
  refine ⟨laid.size_pos,laid.size_le,?_,laid.root_begin,laid.root_end,?_,?_,?_,laid.parent_label,laid.parent_end,
    laid.span,laid.end_lt,laid.left_begin,laid.left_parent,laid.left_injective,laid.left_not_label,laid.right_begin,?_,
    laid.right_parent⟩
  · rw [hung.parent 0 trie.size_pos,trie.root_parent]
  · intro i bound nonzero
    refine ⟨?_,laid.left_lt i bound⟩
    rcases hung.left_cases bound nonzero with ⟨rfl,left⟩ | ⟨old,_,left⟩
    · rw [left]; exact inside
    · rw [left] at nonzero ⊢
      exact (trie.left_bound i old nonzero).1
  · intro i bound nonzero
    refine ⟨?_,laid.right_lt i bound⟩
    obtain ⟨old,right⟩ := hung.right_old bound nonzero
    rw [right] at nonzero ⊢
    exact (trie.right_bound i old nonzero).1
  · intro i bound nonzero
    rcases hung.old_or_fresh bound with old | rfl
    · rw [hung.parent i old]; exact trie.parent_lt i old nonzero
    · rw [hung.fresh]; exact lastLt
  · intro i bound nonzero
    obtain ⟨old,right⟩ := hung.right_old bound nonzero
    rw [right] at nonzero ⊢
    rw [hung.end_ i old,hung.end_ _ (trie.right_bound i old nonzero).2]
    exact trie.right_end i old nonzero

end Hung

/-- A fresh segment of `num` bytes below `cur`, taking over its right link; a longer one that hung
there before starts after it, and has it for its parent. -/
structure Shot (b b' : BDDTag) (cur last num : Nat) : Prop where
  size : b'.size = b.size + 1
  fresh : b'.node b.size =
    ⟨0,(b.node cur).right,last,⟨false,(b.node cur).seg.end_,(b.node cur).seg.end_ + num⟩⟩
  left : ∀ i < b.size, (b'.node i).left = (b.node i).left
  right : ∀ i < b.size, (b'.node i).right = if i = cur then b.size else (b.node i).right
  parent : ∀ i < b.size, (b'.node i).parent =
    if i ≠ 0 ∧ i = (b.node cur).right then b.size else (b.node i).parent
  end_ : ∀ i < b.size, (b'.node i).seg.end_ = (b.node i).seg.end_
  begin : ∀ i < b.size, (b'.node i).seg.begin =
    if i ≠ 0 ∧ i = (b.node cur).right then (b.node cur).seg.end_ + num else (b.node i).seg.begin
  longer : (b.node cur).right ≠ 0 → (b.node cur).seg.end_ + num < (b.node (b.node cur).right).seg.end_
  alone : ∀ i < b.size, (b.node i).right ≠ 0 → (b.node i).right = (b.node cur).right → i = cur

namespace Shot

theorem isLabel_iff (shot : Shot b b' cur last num) (inside : cur < b.size) (c : Nat) :
    b'.IsLabel c ↔ b.IsLabel c ∨ c = b.size := by
  have next : b.size < b'.size := by rw [shot.size]; omega
  constructor
  · rintro (rfl | ⟨i,bound,rfl⟩)
    · exact .inl isLabel_zero
    · rw [shot.size] at bound
      rcases Nat.lt_succ_iff_lt_or_eq.mp bound with old | rfl
      · rw [shot.right i old]
        split
        · exact .inr rfl
        · exact .inl (.inr ⟨i,old,rfl⟩)
      · rw [shot.fresh]
        exact .inl (.inr ⟨cur,inside,rfl⟩)
  · rintro ((rfl | ⟨i,bound,rfl⟩) | rfl)
    · exact isLabel_zero
    · by_cases eq : i = cur
      · exact .inr ⟨b.size,next,by rw [shot.fresh,eq]⟩
      · exact .inr ⟨i,Nat.lt_trans bound next,by rw [shot.right i bound,if_neg eq]⟩
    · exact .inr ⟨cur,Nat.lt_trans inside next,by rw [shot.right cur inside,if_pos rfl]⟩

theorem isLabel_old (shot : Shot b b' cur last num) (inside : cur < b.size) (bound : c < b.size) :
    b'.IsLabel c ↔ b.IsLabel c := by
  rw [shot.isLabel_iff inside,or_iff_left (Nat.ne_of_lt bound)]

/-- Only a label can be moved. -/
theorem unmoved (shot : Shot b b' cur last num) (inside : cur < b.size) (bound : i < b.size) (other : ¬ b.IsLabel i) :
    (b'.node i).parent = (b.node i).parent ∧ (b'.node i).seg.begin = (b.node i).seg.begin := by
  have kept : ¬ (i ≠ 0 ∧ i = (b.node cur).right) := fun moved => other (.inr ⟨cur,inside,moved.2.symm⟩)
  rw [shot.parent i bound,shot.begin i bound,if_neg kept,if_neg kept]
  exact ⟨rfl,rfl⟩

theorem head_old (shot : Shot b b' cur last num) (inside : cur < b.size) (bound : i < b.size) :
    b'.head i = b.head i := by
  by_cases label : b.IsLabel i
  · rw [head_of_label label,head_of_label ((shot.isLabel_old inside bound).mpr label)]
  · rw [head_of_not_label label,head_of_not_label (mt (shot.isLabel_old inside bound).mp label),
      (shot.unmoved inside bound label).1]

theorem head_fresh (shot : Shot b b' cur last num) (inside : cur < b.size) : b'.head b.size = b.size :=
  head_of_label ((shot.isLabel_iff inside _).mpr (.inr rfl))

theorem old_or_fresh (shot : Shot b b' cur last num) (bound : i < b'.size) : i < b.size ∨ i = b.size := by
  rw [shot.size] at bound
  omega

/-- A right link other than that of `cur` leads where it led, to a segment that is as it was. -/
theorem other_right (shot : Shot b b' cur last num) (laid : Laid b) (bound : i < b.size) (other : i ≠ cur)
    (nonzero : (b.node i).right ≠ 0) :
    (b'.node (b.node i).right).parent = (b.node (b.node i).right).parent ∧
      (b'.node (b.node i).right).seg.begin = (b.node (b.node i).right).seg.begin := by
  have below := laid.right_lt i bound
  have kept : ¬ ((b.node i).right ≠ 0 ∧ (b.node i).right = (b.node cur).right) :=
    fun moved => other (shot.alone i bound nonzero moved.2)
  rw [shot.parent _ below,shot.begin _ below,if_neg kept,if_neg kept]
  exact ⟨rfl,rfl⟩

theorem left_old (shot : Shot b b' cur last num) (bound : i < b'.size) (nonzero : (b'.node i).left ≠ 0) :
    i < b.size ∧ (b'.node i).left = (b.node i).left := by
  rcases shot.old_or_fresh bound with old | rfl
  · exact ⟨old,shot.left i old⟩
  · simp [shot.fresh] at nonzero

/-- The right link of `cur` leads to the fresh segment, and that of the fresh segment where the one of
`cur` led. -/
theorem right_cases (shot : Shot b b' cur last num) (bound : i < b'.size) :
    i = cur ∧ (b'.node i).right = b.size ∨ i = b.size ∧ (b'.node i).right = (b.node cur).right ∨
      i < b.size ∧ i ≠ cur ∧ (b'.node i).right = (b.node i).right := by
  rcases shot.old_or_fresh bound with old | rfl
  · have right := shot.right i old
    split at right
    next eq => exact .inl ⟨eq,right⟩
    next ne => exact .inr (.inr ⟨old,ne,right⟩)
  · exact .inr (.inl ⟨rfl,by rw [shot.fresh]⟩)

theorem laid (shot : Shot b b' cur last num) (laid : Laid b) (inside : cur < b.size)
    (heads : b.head cur = last) (positive : 0 < num)
    (fits : (b.node cur).seg.end_ + num < 2 ^ 32) (room : b.size < maxLb) : Laid b' := by
  have lastLabel : b.IsLabel last := heads ▸ laid.head_label inside
  have lastLt : last < b.size := laid.label_lt lastLabel
  have size := shot.size
  have sizePos := laid.size_pos
  have root : ¬ ((0 : Nat) ≠ 0 ∧ 0 = (b.node cur).right) := fun moved => moved.1 rfl
  constructor
  case size_pos => omega
  case size_le => omega
  case root_begin => rw [shot.begin 0 sizePos,if_neg root,laid.root_begin]
  case root_end => rw [shot.end_ 0 sizePos,laid.root_end]
  case left_lt =>
    intro i bound
    rcases shot.old_or_fresh bound with old | rfl
    · have before := laid.left_lt i old
      rw [shot.left i old]; omega
    · rw [shot.fresh]; dsimp only; omega
  case right_lt =>
    intro i bound
    rcases shot.right_cases bound with ⟨rfl,right⟩ | ⟨rfl,right⟩ | ⟨old,_,right⟩
    · omega
    · have before := laid.right_lt cur inside
      omega
    · have before := laid.right_lt i old
      omega
  case parent_label =>
    intro i bound
    rw [shot.isLabel_iff inside]
    rcases shot.old_or_fresh bound with old | rfl
    · rw [shot.parent i old]
      split
      · exact .inr rfl
      · exact .inl (laid.parent_label i old)
    · rw [shot.fresh]; exact .inl lastLabel
  case parent_end =>
    intro i bound nonzero
    rcases shot.old_or_fresh bound with old | rfl
    · rw [shot.parent i old,shot.begin i old]
      split
      · rw [shot.fresh]
      · rw [shot.end_ _ (laid.label_lt (laid.parent_label i old))]
        exact laid.parent_end i old nonzero
    · rw [shot.fresh]
      show (b'.node last).seg.end_ ≤ _
      rw [shot.end_ last lastLt,← heads]
      exact laid.head_end inside
  case span =>
    intro i bound nonzero
    rcases shot.old_or_fresh bound with old | rfl
    · rw [shot.end_ i old,shot.begin i old]
      split
      next moved => rw [moved.2]; exact shot.longer (moved.2 ▸ moved.1)
      next => exact laid.span i old nonzero
    · rw [shot.fresh]; dsimp only; omega
  case end_lt =>
    intro i bound
    rcases shot.old_or_fresh bound with old | rfl
    · rw [shot.end_ i old]; exact laid.end_lt i old
    · rw [shot.fresh]; exact fits
  case left_begin =>
    intro i bound nonzero
    obtain ⟨old,left⟩ := shot.left_old bound nonzero
    rw [left] at nonzero ⊢
    rw [shot.end_ i old,(shot.unmoved inside (laid.left_lt i old) (laid.left_not_label i old nonzero)).2]
    exact laid.left_begin i old nonzero
  case left_parent =>
    intro i bound nonzero
    obtain ⟨old,left⟩ := shot.left_old bound nonzero
    rw [left] at nonzero ⊢
    rw [shot.head_old inside old,(shot.unmoved inside (laid.left_lt i old) (laid.left_not_label i old nonzero)).1]
    exact laid.left_parent i old nonzero
  case left_injective =>
    intro i boundI j boundJ nonzero same
    obtain ⟨oldI,leftI⟩ := shot.left_old boundI nonzero
    obtain ⟨oldJ,leftJ⟩ := shot.left_old boundJ (same ▸ nonzero)
    exact laid.left_injective i oldI j oldJ (leftI ▸ nonzero) (leftI.symm.trans (same.trans leftJ))
  case left_not_label =>
    intro i bound nonzero
    obtain ⟨old,left⟩ := shot.left_old bound nonzero
    rw [left] at nonzero ⊢
    rw [shot.isLabel_old inside (laid.left_lt i old)]
    exact laid.left_not_label i old nonzero
  case right_begin =>
    intro i bound nonzero
    rcases shot.right_cases bound with ⟨rfl,right⟩ | ⟨rfl,right⟩ | ⟨old,other,right⟩
    · rw [right,shot.fresh,shot.end_ i inside]
    · rw [right] at nonzero ⊢
      rw [shot.begin _ (laid.right_lt cur inside),if_pos ⟨nonzero,rfl⟩,shot.fresh]
    · rw [right] at nonzero ⊢
      rw [shot.end_ i old,(shot.other_right laid old other nonzero).2]
      exact laid.right_begin i old nonzero
  case right_parent =>
    intro i bound nonzero
    rcases shot.right_cases bound with ⟨rfl,right⟩ | ⟨rfl,right⟩ | ⟨old,other,right⟩
    · rw [right,shot.fresh,shot.head_old inside inside,heads]
    · rw [right] at nonzero ⊢
      rw [shot.head_fresh inside,shot.parent _ (laid.right_lt cur inside),if_pos ⟨nonzero,rfl⟩]
    · rw [right] at nonzero ⊢
      rw [shot.head_old inside old,(shot.other_right laid old other nonzero).1]
      exact laid.right_parent i old nonzero

end Shot

/-- A fresh one-byte label below `cur`, where no right link was before. -/
structure Budded (b b' : BDDTag) (cur last : Nat) : Prop where
  free : (b.node cur).right = 0
  size : b'.size = b.size + 1
  fresh : b'.node b.size = ⟨0,0,last,⟨false,(b.node cur).seg.end_,(b.node cur).seg.end_ + 1⟩⟩
  left : ∀ i < b.size, (b'.node i).left = (b.node i).left
  right : ∀ i < b.size, (b'.node i).right = if i = cur then b.size else (b.node i).right
  parent : ∀ i < b.size, (b'.node i).parent = (b.node i).parent
  seg : ∀ i < b.size, (b'.node i).seg = (b.node i).seg

namespace Budded

theorem shot (budded : Budded b b' cur last) : Shot b b' cur last 1 where
  size := budded.size
  fresh := by rw [budded.fresh,budded.free]
  left := budded.left
  right := budded.right
  parent i bound := by rw [budded.parent i bound,if_neg fun moved => moved.1 (moved.2.trans budded.free)]
  end_ i bound := by rw [budded.seg i bound]
  begin i bound := by rw [budded.seg i bound,if_neg fun moved => moved.1 (moved.2.trans budded.free)]
  longer nonzero := absurd budded.free nonzero
  alone i _ nonzero same := absurd (same.trans budded.free) nonzero

theorem isLabel_iff (budded : Budded b b' cur last) (inside : cur < b.size) (c : Nat) :
    b'.IsLabel c ↔ b.IsLabel c ∨ c = b.size := budded.shot.isLabel_iff inside c

theorem isLabel_old (budded : Budded b b' cur last) (inside : cur < b.size) (bound : c < b.size) :
    b'.IsLabel c ↔ b.IsLabel c := budded.shot.isLabel_old inside bound

theorem head_old (budded : Budded b b' cur last) (inside : cur < b.size) (bound : i < b.size) :
    b'.head i = b.head i := budded.shot.head_old inside bound

theorem keeps (budded : Budded b b' cur last) (inside : cur < b.size) : Keeps b b' where
  size_le := by rw [budded.size]; omega
  label c h := (budded.isLabel_iff inside c).mpr (.inl h)
  parent := budded.parent
  end_ i h := by rw [budded.seg i h]
  begin i h _ := by rw [budded.seg i h]

theorem right_cases (budded : Budded b b' cur last) (bound : i < b'.size) (nonzero : (b'.node i).right ≠ 0) :
    i = cur ∧ (b'.node i).right = b.size ∨ i < b.size ∧ i ≠ cur ∧ (b'.node i).right = (b.node i).right := by
  rcases budded.shot.right_cases bound with label | ⟨_,right⟩ | old
  · exact .inl label
  · exact absurd (right.trans budded.free) nonzero
  · exact .inr old

theorem trie (budded : Budded b b' cur last) (trie : Trie b) (inside : cur < b.size)
    (heads : b.head cur = last) (fits : (b.node cur).seg.end_ + 1 < 2 ^ 32)
    (room : b.size < maxLb) : Trie b' := by
  have shot := budded.shot
  have laid := shot.laid trie.laid inside heads Nat.one_pos fits room
  have lastLt : last < b.size := trie.label_lt (heads ▸ trie.laid.head_label inside)
  have size := budded.size
  refine ⟨laid.size_pos,laid.size_le,?_,laid.root_begin,laid.root_end,?_,?_,?_,laid.parent_label,laid.parent_end,
    laid.span,laid.end_lt,laid.left_begin,laid.left_parent,laid.left_injective,laid.left_not_label,laid.right_begin,?_,
    laid.right_parent⟩
  · rw [budded.parent 0 trie.size_pos,trie.root_parent]
  · intro i bound nonzero
    refine ⟨?_,laid.left_lt i bound⟩
    obtain ⟨old,left⟩ := shot.left_old bound nonzero
    rw [left] at nonzero ⊢
    exact (trie.left_bound i old nonzero).1
  · intro i bound nonzero
    refine ⟨?_,laid.right_lt i bound⟩
    rcases budded.right_cases bound nonzero with ⟨rfl,right⟩ | ⟨old,_,right⟩
    · rw [right]; exact inside
    · rw [right] at nonzero ⊢
      exact (trie.right_bound i old nonzero).1
  · intro i bound nonzero
    rcases shot.old_or_fresh bound with old | rfl
    · rw [budded.parent i old]; exact trie.parent_lt i old nonzero
    · rw [budded.fresh]; exact lastLt
  · intro i bound nonzero
    rcases budded.right_cases bound nonzero with ⟨rfl,right⟩ | ⟨old,_,right⟩
    · rw [right,budded.fresh,budded.seg i inside]
    · rw [right] at nonzero ⊢
      rw [budded.seg i old,budded.seg _ (trie.right_bound i old nonzero).2]
      exact trie.right_end i old nonzero

end Budded

end Libdft.BddTag.BDDTag
