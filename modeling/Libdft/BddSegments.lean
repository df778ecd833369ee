import Libdft.BddInsert

/-! The label trie with segments of any length. A chain of right links below a node spells one
segment after another, and a node that is hung into such a chain takes over the rest of it: a
label may get a new parent and a later begin, but the bytes along its chain of parents stay. -/
namespace Libdft.BddTag.BDDTag

variable {b b' : BDDTag} {i j c cur last num v fuel : Nat}

/-- Each node hangs from one right link at most. -/
structure SegTrie (b : BDDTag) : Prop extends Laid b where
  right_injective : ∀ i < b.size, ∀ j < b.size, (b.node i).right ≠ 0 →
    (b.node i).right = (b.node j).right → i = j

theorem segTrie_new : SegTrie new :=
  ⟨trie_new.laid,fun i _ _ _ nonzero => absurd (by rw [node_new]; rfl) nonzero⟩

/-- The bytes of a label: those of its own segment and those of its parent. -/
inductive Has (b : BDDTag) (v : Nat) : Nat → Prop where
  | own : l ≠ 0 → (b.node l).seg.begin ≤ v → v < (b.node l).seg.end_ → Has b v l
  | up : l ≠ 0 → Has b v (b.node l).parent → Has b v l

theorem not_has_zero : ¬ b.Has v 0 := by
  rintro (⟨nonzero,_,_⟩ | ⟨nonzero,_⟩) <;> exact nonzero rfl

theorem has_iff (nonzero : c ≠ 0) : b.Has v c ↔
    ((b.node c).seg.begin ≤ v ∧ v < (b.node c).seg.end_) ∨ b.Has v (b.node c).parent := by
  constructor
  · rintro (⟨_,above,below⟩ | ⟨_,has⟩)
    · exact .inl ⟨above,below⟩
    · exact .inr has
  · rintro (⟨above,below⟩ | has)
    · exact .own nonzero above below
    · exact .up nonzero has

namespace Laid

/-- Up the chain of parents, which ends because the offsets fall. -/
theorem label_induction (laid : Laid b) {motive : Nat → Prop} (root : motive 0)
    (step : ∀ c, b.IsLabel c → c ≠ 0 → motive (b.node c).parent → motive c) (label : b.IsLabel c) : motive c := by
  induction measure : (b.node c).seg.end_ using Nat.strongRecOn generalizing c with
  | ind m ih =>
    by_cases zero : c = 0
    · exact zero ▸ root
    · have bound := laid.label_lt label
      exact step c label zero (ih _ (measure ▸ laid.parent_before bound zero) (laid.parent_label c bound) rfl)

theorem has_lt (laid : Laid b) (label : b.IsLabel c) (has : b.Has v c) : v < (b.node c).seg.end_ := by
  induction has with
  | own _ _ below => exact below
  | up nonzero _ ih =>
    have bound := laid.label_lt label
    exact Nat.lt_trans (ih (laid.parent_label _ bound)) (laid.parent_before bound nonzero)

end Laid

/-- What a later state keeps of an earlier one: every node's end, and every label's bytes. -/
structure Preserves (b b' : BDDTag) : Prop where
  size_le : b.size ≤ b'.size
  label : ∀ c, b.IsLabel c → b'.IsLabel c
  end_ : ∀ i < b.size, (b'.node i).seg.end_ = (b.node i).seg.end_
  has : ∀ c, b.IsLabel c → ∀ v, b'.Has v c ↔ b.Has v c

theorem Preserves.refl (b : BDDTag) : Preserves b b :=
  ⟨Nat.le_refl _,fun _ h => h,fun _ _ => rfl,fun _ _ _ => Iff.rfl⟩

theorem Preserves.trans {b'' : BDDTag} (first : Preserves b b') (second : Preserves b' b'') : Preserves b b'' where
  size_le := Nat.le_trans first.size_le second.size_le
  label c h := second.label c (first.label c h)
  end_ i h := (second.end_ i (Nat.lt_of_lt_of_le h first.size_le)).trans (first.end_ i h)
  has c h v := (second.has c (first.label c h) v).trans (first.has c h v)

/-! What the two loops can do to a trie. -/

theorem Hung.preserves (hung : Hung b b' cur last num) (laid : Laid b) (inside : cur < b.size) : Preserves b b' where
  size_le := by rw [hung.size]; omega
  label c := (hung.isLabel_iff c).mpr
  end_ := hung.end_
  has c label := by
    refine laid.label_induction (motive := fun c => ∀ v, b'.Has v c ↔ b.Has v c) (fun v => ?_) (fun c label nonzero ih v => ?_) label
    · exact iff_of_false not_has_zero not_has_zero
    · have bound := laid.label_lt label
      rw [has_iff nonzero,has_iff nonzero,hung.begin_label laid inside bound label,hung.end_ c bound,hung.parent c bound,ih v]

theorem Hung.segTrie (hung : Hung b b' cur last num) (trie : SegTrie b) (inside : cur < b.size)
    (heads : b.head cur = last) (positive : 0 < num)
    (fits : (b.node cur).seg.end_ + num < 2 ^ 32) (room : b.size < maxLb) : SegTrie b' := by
  refine ⟨hung.laid trie.toLaid inside heads positive fits room,fun i boundI j boundJ nonzero same => ?_⟩
  obtain ⟨oldI,rightI⟩ := hung.right_old boundI nonzero
  obtain ⟨oldJ,rightJ⟩ := hung.right_old boundJ (same ▸ nonzero)
  exact trie.right_injective i oldI j oldJ (rightI ▸ nonzero) (rightI.symm.trans (same.trans rightJ))

theorem Shot.has_fresh (shot : Shot b b' cur last num) (laid : Laid b) (v : Nat) : b'.Has v b.size ↔
    (b.node cur).seg.end_ ≤ v ∧ v < (b.node cur).seg.end_ + num ∨ b'.Has v last := by
  rw [has_iff (Nat.ne_of_gt laid.size_pos),shot.fresh]

/-- The moved segment loses the bytes that its new parent has. -/
theorem Shot.has_old (shot : Shot b b' cur last num) (laid : Laid b) (inside : cur < b.size) (heads : b.head cur = last)
    (label : b.IsLabel c) (v : Nat) : b'.Has v c ↔ b.Has v c := by
  refine laid.label_induction (motive := fun c => ∀ v, b'.Has v c ↔ b.Has v c) (fun v => ?_) (fun c label nonzero ih v => ?_) label v
  · exact iff_of_false not_has_zero not_has_zero
  · have bound := laid.label_lt label
    rw [has_iff nonzero,has_iff nonzero,shot.parent c bound,shot.begin c bound,shot.end_ c bound]
    by_cases moved : c ≠ 0 ∧ c = (b.node cur).right
    · have some : (b.node cur).right ≠ 0 := moved.2 ▸ moved.1
      have parent : (b.node c).parent = last := by rw [moved.2,laid.right_parent cur inside some,heads]
      have begin := laid.right_begin cur inside some
      have longer := shot.longer some
      rw [if_pos moved,if_pos moved,shot.has_fresh laid,← parent,ih v]
      rw [← moved.2] at begin longer
      rw [begin,← or_assoc]
      refine or_congr_left ⟨fun one => ?_,fun whole => ?_⟩ <;> omega
    · rw [if_neg moved,if_neg moved,ih v]

theorem Shot.preserves (shot : Shot b b' cur last num) (laid : Laid b) (inside : cur < b.size) (heads : b.head cur = last) :
    Preserves b b' where
  size_le := by rw [shot.size]; omega
  label c label := (shot.isLabel_iff inside c).mpr (.inl label)
  end_ := shot.end_
  has _ label := shot.has_old laid inside heads label

theorem Shot.segTrie (shot : Shot b b' cur last num) (trie : SegTrie b) (inside : cur < b.size)
    (heads : b.head cur = last) (positive : 0 < num)
    (fits : (b.node cur).seg.end_ + num < 2 ^ 32) (room : b.size < maxLb) : SegTrie b' := by
  have laid := trie.toLaid
  refine ⟨shot.laid laid inside heads positive fits room,fun i boundI j boundJ nonzero same => ?_⟩
  have below := laid.right_lt cur inside
  rcases shot.right_cases boundI with ⟨rfl,rightI⟩ | ⟨rfl,rightI⟩ | ⟨oldI,otherI,rightI⟩
  · rcases shot.right_cases boundJ with ⟨rfl,_⟩ | ⟨rfl,rightJ⟩ | ⟨oldJ,_,rightJ⟩
    · rfl
    · omega
    · have belowJ := laid.right_lt j oldJ
      omega
  · rcases shot.right_cases boundJ with ⟨rfl,rightJ⟩ | ⟨rfl,_⟩ | ⟨oldJ,otherJ,rightJ⟩
    · omega
    · rfl
    · exact absurd (shot.alone j oldJ (by rwa [same,rightJ] at nonzero) (by rw [← rightJ,← same,rightI])) otherJ
  · have belowI := laid.right_lt i oldI
    have someI : (b.node i).right ≠ 0 := rightI ▸ nonzero
    rcases shot.right_cases boundJ with ⟨rfl,rightJ⟩ | ⟨rfl,rightJ⟩ | ⟨oldJ,_,rightJ⟩
    · omega
    · exact absurd (shot.alone i oldI someI (by rw [← rightI,same,rightJ])) otherI
    · exact trie.right_injective i oldI j oldJ someI (rightI.symm.trans (same.trans rightJ))

/-! The loop over right links. -/

/-- The nodes along the right links below a node. -/
inductive Rights (b : BDDTag) : Nat → Nat → Prop where
  | last : (b.node k).right ≠ 0 → Rights b k (b.node k).right
  | next : (b.node k).right ≠ 0 → Rights b (b.node k).right l → Rights b k l

/-- A walk to `hi` that goes past a node finds one that ends there. -/
def Whole (b : BDDTag) (i hi : Nat) : Prop :=
  (b.node i).right ≠ 0 → (b.node (b.node i).right).seg.end_ < hi → ∃ l, Rights b i l ∧ (b.node l).seg.end_ = hi

theorem Rights.label (rights : Rights b i c) (laid : Laid b) (inside : i < b.size) : b.IsLabel c ∧ c ≠ 0 := by
  induction rights with
  | last nonzero => exact ⟨.inr ⟨_,inside,rfl⟩,nonzero⟩
  | next _ _ ih => exact ih (laid.right_lt _ inside)

theorem Rights.end_lt (rights : Rights b i c) (laid : Laid b) (inside : i < b.size) :
    (b.node i).seg.end_ < (b.node c).seg.end_ := by
  induction rights with
  | last nonzero => exact laid.right_end inside nonzero
  | next nonzero _ ih => exact Nat.lt_trans (laid.right_end inside nonzero) (ih (laid.right_lt _ inside))

/-- One segment after another: together they are one. -/
theorem Rights.has_iff (rights : Rights b i c) (laid : Laid b) (inside : i < b.size) (v : Nat) :
    b.Has v c ↔ b.Has v (b.head i) ∨ (b.node i).seg.end_ ≤ v ∧ v < (b.node c).seg.end_ := by
  induction rights with
  | @last i nonzero => rw [BDDTag.has_iff nonzero,laid.right_parent i inside nonzero,laid.right_begin i inside nonzero,or_comm]
  | @next i l nonzero rest ih =>
    have below := laid.right_lt i inside
    have label : b.IsLabel (b.node i).right := .inr ⟨i,inside,rfl⟩
    have longer := laid.right_end inside nonzero
    have rest := rest.end_lt laid below
    rw [ih below,head_of_label label,BDDTag.has_iff nonzero,laid.right_parent i inside nonzero,laid.right_begin i inside nonzero,
      or_comm (b := b.Has v (b.head i)),or_assoc]
    refine or_congr_right ⟨?_,fun whole => ?_⟩
    · rintro (one | two) <;> omega
    · omega

/-- The node that ends `num` further on is found, or a segment is hung for it. -/
inductive OneRun (b : BDDTag) (cur last num : Nat) : BDDTag → Nat → Prop where
  | found : Rights b cur l → (b.node l).seg.end_ = (b.node cur).seg.end_ + num → OneRun b cur last num b l
  | shot : Shot b next cur last num → b.size < maxLb → OneRun b cur last num next b.size

@[simp] theorem size_setParent : (b.setParent i c).size = b.size := by simp [setParent,size]

theorem node_setParent (inside : cur < b.size) (i : Nat) :
    (b.setParent cur c).node i = if i = cur then { b.node i with parent := c } else b.node i :=
  node_modify _ inside i

theorem shot_leaf (laid : Laid b) (inside : cur < b.size)
    (fits : (b.node cur).seg.end_ + num < 2 ^ 32) (free : (b.node cur).right = 0) :
    Shot b ((b.pushNode (.make last (b.node cur).seg.end_ ((b.node cur).seg.end_ + num))).setRight
      cur b.size) cur last num := by
  rw [make_seg (laid.end_lt cur inside) fits]
  have apart : b.size ≠ cur := Nat.ne_of_gt inside
  have room : cur < (b.pushNode ⟨0,0,last,⟨false,(b.node cur).seg.end_,(b.node cur).seg.end_ + num⟩⟩).size := by
    rw [size_pushNode]; omega
  have node (i : Nat) := node_setRight (c := b.size) room i
  have unmoved (i : Nat) : ¬ (i ≠ 0 ∧ i = (b.node cur).right) := fun moved => moved.1 (moved.2.trans free)
  constructor
  case size => simp
  case fresh => rw [node,if_neg apart,node_pushNode,if_pos rfl,free]
  case longer => exact fun nonzero => absurd free nonzero
  case alone => exact fun i _ nonzero same => absurd (same.trans free) nonzero
  all_goals
    intro i bound
    simp only [node,node_pushNode,Nat.ne_of_lt bound,unmoved i,ite_false]
    split <;> rfl

theorem shot_split (trie : SegTrie b) (inside : cur < b.size)
    (fits : (b.node cur).seg.end_ + num < 2 ^ 32) (some : (b.node cur).right ≠ 0)
    (longer : (b.node cur).seg.end_ + num < (b.node (b.node cur).right).seg.end_) :
    Shot b (((((b.pushNode (.make last (b.node cur).seg.end_ ((b.node cur).seg.end_ + num))).setRight
      cur b.size).setRight b.size (b.node cur).right).setParent (b.node cur).right b.size).setBegin
      (b.node cur).right ((b.node cur).seg.end_ + num)) cur last num := by
  rw [make_seg (trie.end_lt cur inside) fits]
  have below := trie.right_lt cur inside
  have apart : b.size ≠ cur := Nat.ne_of_gt inside
  have other : b.size ≠ (b.node cur).right := Nat.ne_of_gt below
  have size := size_pushNode (b := b) ⟨0,0,last,⟨false,(b.node cur).seg.end_,(b.node cur).seg.end_ + num⟩⟩
  have hung (i : Nat) := node_setRight (c := b.size) (show cur < (b.pushNode _).size by rw [size]; omega) i
  have linked (i : Nat) := node_setRight (c := (b.node cur).right)
    (show b.size < ((b.pushNode _).setRight cur b.size).size by rw [size_setRight,size]; omega) i
  have moved (i : Nat) := node_setParent (c := b.size)
    (show (b.node cur).right < (((b.pushNode _).setRight cur b.size).setRight b.size (b.node cur).right).size by
      rw [size_setRight,size_setRight,size]; omega) i
  have begins (i : Nat) := node_setBegin (c := (b.node cur).seg.end_ + num)
    (show (b.node cur).right < ((((b.pushNode _).setRight cur b.size).setRight b.size (b.node cur).right).setParent
      (b.node cur).right b.size).size by rw [size_setParent,size_setRight,size_setRight,size]; omega) i
  constructor
  case size => simp
  case fresh => rw [begins,if_neg other,moved,if_neg other,linked,if_pos rfl,hung,if_neg apart,node_pushNode,if_pos rfl]
  case longer => exact fun _ => longer
  case alone => exact fun i bound nonzero same => trie.right_injective i bound cur inside nonzero same
  all_goals
    intro i bound
    simp only [begins,moved,linked,hung,node_pushNode,Nat.ne_of_lt bound,ite_false]
    by_cases next : i = (b.node cur).right
    · simp only [next,ne_eq,some,not_false_eq_true,and_self,ite_true,tagOff,Nat.mod_eq_of_lt fits]
      try split <;> rfl
    · simp only [next,and_false,ite_false]
      try split <;> rfl

theorem Rights.snoc (rights : Rights b i j) (some : (b.node j).right ≠ 0) : Rights b i (b.node j).right := by
  induction rights with
  | last nonzero => exact .next nonzero (.last some)
  | next nonzero _ ih => exact .next nonzero (ih some)

theorem Rights.tail (rights : Rights b i c) :
    (b.node i).right ≠ 0 ∧ (c = (b.node i).right ∨ Rights b (b.node i).right c) := by
  cases rights with
  | last nonzero => exact ⟨nonzero,.inl rfl⟩
  | next nonzero rest => exact ⟨nonzero,.inr rest⟩

theorem offSub_right (laid : Laid b) (inside : cur < b.size) (nonzero : (b.node cur).right ≠ 0) :
    offSub (b.node (b.node cur).right).seg.end_ (b.node cur).seg.end_ =
      (b.node (b.node cur).right).seg.end_ - (b.node cur).seg.end_ := by
  have := laid.end_lt _ (laid.right_lt cur inside)
  have := laid.right_end inside nonzero
  rw [offSub]
  omega

/-- The walk goes on only towards a node that ends where it should. -/
theorem runNOnes_ends (trie : SegTrie b) (inside : cur < b.size)
    (fits : (b.node cur).seg.end_ + num < 2 ^ 32) (positive : 0 < num) (budget : num < fuel)
    (whole : b.Whole cur ((b.node cur).seg.end_ + num)) :
    (b.insertNOnes fuel cur num last).Ends fun r => OneRun b cur last num r.1 r.2 := by
  have laid := trie.toLaid
  let inv : BDDTag × Nat × Nat → Prop := fun s =>
    (s.1 = b ∧ s.2.1 = cur ∧ s.2.2 = num) ∨
    (s.1 = b ∧ Rights b cur s.2.1 ∧ (b.node s.2.1).seg.end_ + s.2.2 = (b.node cur).seg.end_ + num ∧
      (s.2.2 ≠ 0 → ∃ l, Rights b s.2.1 l ∧ (b.node l).seg.end_ = (b.node cur).seg.end_ + num)) ∨
    (s.2.2 = 0 ∧ OneRun b cur last num s.1 s.2.1)
  refine loop_ends inv (fun s => s.2.2) ?_ (.inl ⟨rfl,rfl,rfl⟩) budget
  rintro ⟨b₁,i,n⟩ (⟨same,here,total⟩ | ⟨same,rights,total,target⟩ | ⟨stop,done⟩)
  · obtain rfl : b₁ = b := same
    obtain rfl : i = cur := here
    obtain rfl : n = num := total
    dsimp only [insertNOnesPass]
    rw [if_neg (Nat.ne_of_gt positive)]
    by_cases none : (b₁.node i).right = 0
    · rw [if_pos none]
      refine (allocNode_ends fun room => ?_).bind fun r h => h
      exact ⟨.inr (.inr ⟨rfl,.shot (shot_leaf laid inside fits none) room⟩),positive⟩
    have below := laid.right_lt i inside
    have longer := laid.right_end inside none
    rw [if_neg none,offSub_right laid inside none]
    by_cases splits : n < (b₁.node (b₁.node i).right).seg.end_ - (b₁.node i).seg.end_
    · rw [if_pos splits]
      refine (allocNode_ends fun room => ?_).bind fun r h => h
      exact ⟨.inr (.inr ⟨rfl,.shot (shot_split trie inside fits none (by omega)) room⟩),positive⟩
    · rw [if_neg splits]
      refine ⟨.inr (.inl ⟨rfl,.last none,by dsimp only; omega,fun more => ?_⟩),by dsimp only; omega⟩
      obtain ⟨l,passed,ends⟩ := whole none (by dsimp only at more; omega)
      rcases passed.tail.2 with rfl | rest
      · dsimp only at more; omega
      · exact ⟨l,rest,ends⟩
  · obtain rfl : b₁ = b := same
    dsimp only at rights total target
    have bound := laid.label_lt (rights.label laid inside).1
    dsimp only [insertNOnesPass]
    by_cases stop : n = 0
    · rw [if_pos stop]
      have reached : (b₁.node i).seg.end_ = (b₁.node cur).seg.end_ + num := by omega
      exact OneRun.found rights reached
    obtain ⟨l,passed,ends⟩ := target stop
    obtain ⟨none,rest⟩ := passed.tail
    have below := laid.right_lt i bound
    have longer := laid.right_end bound none
    have within : (b₁.node (b₁.node i).right).seg.end_ ≤ (b₁.node l).seg.end_ := by
      rcases rest with rfl | rest
      · exact Nat.le_refl _
      · exact Nat.le_of_lt (rest.end_lt laid below)
    rw [if_neg stop,if_neg none,offSub_right laid bound none,if_neg (by omega)]
    refine ⟨.inr (.inl ⟨rfl,rights.snoc none,by dsimp only; omega,fun more => ?_⟩),by dsimp only; omega⟩
    rcases rest with rfl | rest
    · dsimp only at more; omega
    · exact ⟨l,rest,ends⟩
  · obtain rfl : n = 0 := stop
    exact done

end Libdft.BddTag.BDDTag
