import Libdft.BddTrie

/-! What one call of the two insertion loops can do to a trie: nothing, or one
fresh node at a place that the walk determines. Every later fact about `insert`
and `combine` is derived from these two descriptions. -/
namespace Libdft.BddTag.BDDTag

variable {b b' : BDDTag} {i j c cur last num fuel : Nat}

/-- The chain of left links below a node, the node included. -/
inductive Spine (b : BDDTag) (start : Nat) : Nat → Prop where
  | here : Spine b start start
  | left : Spine b start z → (b.node z).left ≠ 0 → Spine b start (b.node z).left

namespace Spine

theorem lt_size (laid : Laid b) (inside : cur < b.size) (spine : Spine b cur i) : i < b.size := by
  induction spine with
  | here => exact inside
  | left _ nonzero ih => exact laid.left_lt _ ih

theorem head_eq (laid : Laid b) (inside : cur < b.size) (spine : Spine b cur i) :
    b.head i = b.head cur := by
  induction spine with
  | here => rfl
  | left below nonzero ih =>
    have bound := below.lt_size laid inside
    rw [head_of_not_label (laid.left_not_label _ bound nonzero),laid.left_parent _ bound nonzero,ih]

end Spine

/-- Below `cur` the node ending `num` further on is found, or a run is hung for it. -/
inductive ZeroRun (b : BDDTag) (cur last num : Nat) : BDDTag → Nat → Prop where
  | found : Spine b cur z → (b.node z).seg.end_ = (b.node cur).seg.end_ + num →
      ZeroRun b cur last num b z
  | hung : Spine b cur z → Hung b next z last n → 0 < n →
      (b.node z).seg.end_ + n = (b.node cur).seg.end_ + num →
      ((b.node z).left ≠ 0 →
        (b.node cur).seg.end_ + num < (b.node (b.node z).left).seg.end_) →
      b.size < maxLb → ZeroRun b cur last num next b.size

theorem node_setLeft (inside : cur < b.size) (i : Nat) :
    (b.setLeft cur c).node i = if i = cur then { b.node i with left := c } else b.node i :=
  node_modify _ inside i

theorem node_setRight (inside : cur < b.size) (i : Nat) :
    (b.setRight cur c).node i = if i = cur then { b.node i with right := c } else b.node i :=
  node_modify _ inside i

theorem node_setBegin (inside : cur < b.size) (i : Nat) :
    (b.setBegin cur c).node i =
      if i = cur then { b.node i with seg := { (b.node i).seg with begin := tagOff c } }
      else b.node i :=
  node_modify _ inside i

theorem make_seg {x y : Nat} (hx : x < 2 ^ 32) (hy : y < 2 ^ 32) :
    TagNode.make last x y = ⟨0,0,last,⟨false,x,y⟩⟩ := by
  simp only [TagNode.make,tagOff,Nat.mod_eq_of_lt hx,Nat.mod_eq_of_lt hy]

private theorem node_graft (inside : cur < b.size) (n : TagNode) (i : Nat) :
    ((b.pushNode n).setLeft cur b.size).node i =
      if i = b.size then n else if i = cur then { b.node i with left := b.size } else b.node i := by
  rw [node_setLeft (by rw [size_pushNode]; omega),node_pushNode]
  by_cases new : i = b.size
  · have : i ≠ cur := by omega
    simp [new]; omega
  · simp [new]

theorem hung_leaf (laid : Laid b) (inside : cur < b.size)
    (fits : (b.node cur).seg.end_ + num < 2 ^ 32) :
    Hung b ((b.pushNode (.make last (b.node cur).seg.end_ ((b.node cur).seg.end_ + num))).setLeft
      cur b.size) cur last num := by
  rw [make_seg (laid.end_lt cur inside) fits]
  have old (i : Nat) (bound : i < b.size) : i ≠ b.size := Nat.ne_of_lt bound
  constructor
  case size => simp
  case fresh => rw [node_graft inside,if_pos rfl]
  all_goals
    intro i bound
    simp only [node_graft inside,old i bound,ite_false]
    split <;> simp

theorem hung_split (laid : Laid b) (inside : cur < b.size)
    (fits : (b.node cur).seg.end_ + num < 2 ^ 32) (some : (b.node cur).left ≠ 0)
    (longer : (b.node cur).seg.end_ + num < (b.node (b.node cur).left).seg.end_) :
    Hung b (((b.pushNode (.make last (b.node cur).seg.end_ ((b.node cur).seg.end_ + num))).setLeft
      cur b.size).setBegin (b.node cur).left ((b.node cur).seg.end_ + num)) cur last num := by
  rw [make_seg (laid.end_lt cur inside) fits]
  have below := laid.left_lt cur inside
  have old (i : Nat) (bound : i < b.size) : i ≠ b.size := Nat.ne_of_lt bound
  have hung : (b.node cur).left < ((b.pushNode ⟨0,0,last,⟨false,(b.node cur).seg.end_,
      (b.node cur).seg.end_ + num⟩⟩).setLeft cur b.size).size := by simp; omega
  have node (i : Nat) := node_setBegin (c := (b.node cur).seg.end_ + num) hung i
  have apart : b.size ≠ (b.node cur).left := by omega
  constructor
  case size => simp
  case fresh => rw [node,if_neg apart,node_graft inside,if_pos rfl]
  case begin =>
    intro i bound
    simp only [node,node_graft inside,old i bound,ite_false]
    by_cases split : i = (b.node cur).left
    · refine .inr ⟨split,split ▸ some,?_,split ▸ longer⟩
      simp only [split,ite_true,tagOff,Nat.mod_eq_of_lt fits]
    · left
      simp only [split,ite_false]
      split <;> rfl
  all_goals
    intro i bound
    simp only [node,node_graft inside,old i bound,ite_false]
    repeat' split
    all_goals rfl

theorem getSegSize_left (laid : Laid b) (inside : cur < b.size) (nonzero : (b.node cur).left ≠ 0) :
    (b.node (b.node cur).left).getSegSize =
      (b.node (b.node cur).left).seg.end_ - (b.node cur).seg.end_ := by
  have below := laid.left_lt cur inside
  have := laid.end_lt _ below
  have := laid.left_end inside nonzero
  rw [TagNode.getSegSize,laid.left_begin cur inside nonzero,offSub]
  omega

theorem allocNode_ends {post : BDDTag × Nat → Prop} {x y : Nat}
    (fresh : b.size < maxLb → post (b.pushNode (.make last x y),b.size)) :
    (b.allocNode last x y).Ends post := by
  unfold allocNode
  by_cases room : b.size < maxLb
  · rw [if_pos room]; exact fresh room
  · rw [if_neg room]; trivial

/-- What one pass of `insert_n_zeros` does at a node, `n` positions being left. -/
inductive ZeroStep (b : BDDTag) (i n last : Nat) : Pass (BDDTag × Nat × Nat) (BDDTag × Nat) → Prop where
  | stop : n = 0 → ZeroStep b i n last (.leave (b,i))
  | hung : Hung b next i last n → 0 < n →
      ((b.node i).left ≠ 0 → (b.node i).seg.end_ + n < (b.node (b.node i).left).seg.end_) →
      b.size < maxLb → ZeroStep b i n last (.again (next,b.size,0))
  | down : (b.node i).left ≠ 0 → m < n → (b.node (b.node i).left).seg.end_ + m = (b.node i).seg.end_ + n →
      ZeroStep b i n last (.again (b,(b.node i).left,m))

theorem insertNZerosPass_ends (laid : Laid b) (inside : i < b.size) (fits : (b.node i).seg.end_ + num < 2 ^ 32) :
    (insertNZerosPass last (b,i,num)).Ends (ZeroStep b i num last) := by
  dsimp only [insertNZerosPass]
  by_cases stop : num = 0
  · rw [if_pos stop]
    exact .stop stop
  rw [if_neg stop]
  have positive := Nat.pos_of_ne_zero stop
  by_cases none : (b.node i).left = 0
  · rw [if_pos none]
    refine (allocNode_ends fun room => ?_).bind fun r h => h
    exact .hung (hung_leaf laid inside fits) positive (fun some => absurd none some) room
  rw [if_neg none,getSegSize_left laid inside none]
  have longer := laid.left_end inside none
  by_cases splits : num < (b.node (b.node i).left).seg.end_ - (b.node i).seg.end_
  · rw [if_pos splits]
    refine (allocNode_ends fun room => ?_).bind fun r h => h
    exact .hung (hung_split laid inside fits none (by omega)) positive (fun _ => by omega) room
  · rw [if_neg splits]
    exact .down none (by omega) (by omega)

theorem insertNZeros_ends (laid : Laid b) (inside : cur < b.size)
    (fits : (b.node cur).seg.end_ + num < 2 ^ 32) (budget : num < fuel) :
    (b.insertNZeros fuel cur num last).Ends fun r => ZeroRun b cur last num r.1 r.2 := by
  let inv : BDDTag × Nat × Nat → Prop := fun s =>
    (s.1 = b ∧ Spine b cur s.2.1 ∧ (b.node s.2.1).seg.end_ + s.2.2 = (b.node cur).seg.end_ + num) ∨
    (s.2.2 = 0 ∧ ZeroRun b cur last num s.1 s.2.1)
  refine loop_ends inv (fun s => s.2.2) ?_ (.inl ⟨rfl,.here,rfl⟩) budget
  rintro ⟨b₁,i,n⟩ (⟨same,spine,total⟩ | ⟨stop,done⟩)
  · obtain rfl : b₁ = b := same
    dsimp only at spine total
    have bound := spine.lt_size laid inside
    refine (insertNZerosPass_ends laid bound (by omega)).imp ?_
    rintro _ (stop | ⟨hung,positive,longer,room⟩ | ⟨some,less,rest⟩)
    · exact ZeroRun.found spine (by show (b₁.node i).seg.end_ = _; omega)
    · exact ⟨.inr ⟨rfl,.hung spine hung positive total (fun some => total ▸ longer some) room⟩,positive⟩
    · exact ⟨.inl ⟨rfl,spine.left some,by dsimp only; omega⟩,less⟩
  · obtain rfl : n = 0 := stop
    exact done

/-- The state and node that a run of zeros ends in, as far as later calls care. -/
structure Reached (b b' : BDDTag) (last pos z : Nat) : Prop where
  trie : Trie b'
  keeps : Keeps b b'
  inside : z < b'.size
  heads : b'.head z = last
  end_ : (b'.node z).seg.end_ = pos

theorem ZeroRun.reached (run : ZeroRun b cur last num b' i) (trie : Trie b) (inside : cur < b.size)
    (heads : b.head cur = last) (fits : (b.node cur).seg.end_ + num < 2 ^ 32) :
    Reached b b' last ((b.node cur).seg.end_ + num) i := by
  cases run with
  | found spine total =>
    exact ⟨trie,Keeps.refl b,spine.lt_size trie.laid inside,
      (spine.head_eq trie.laid inside).trans heads,total⟩
  | hung spine hung positive total _ room =>
    have bound := spine.lt_size trie.laid inside
    have headz := (spine.head_eq trie.laid inside).trans heads
    refine ⟨hung.trie trie bound headz positive (by omega) room,hung.keeps trie.laid bound,?_,
      hung.head_fresh trie.laid,?_⟩
    · rw [hung.size]; omega
    · rw [hung.fresh]; exact total

/-- The label one byte past `cur` is found, or a fresh one is hung there. -/
inductive OneBit (b : BDDTag) (cur last : Nat) : BDDTag → Nat → Prop where
  | found : (b.node cur).right ≠ 0 → OneBit b cur last b (b.node cur).right
  | budded : Budded b next cur last → b.size < maxLb → OneBit b cur last next b.size

theorem budded_leaf (trie : Trie b) (inside : cur < b.size)
    (fits : (b.node cur).seg.end_ + 1 < 2 ^ 32) (free : (b.node cur).right = 0) :
    Budded b ((b.pushNode (.make last (b.node cur).seg.end_ ((b.node cur).seg.end_ + 1))).setRight
      cur b.size) cur last := by
  rw [make_seg (trie.end_lt cur inside) fits]
  have old (i : Nat) (bound : i < b.size) : i ≠ b.size := Nat.ne_of_lt bound
  have room : cur < (b.pushNode ⟨0,0,last,⟨false,(b.node cur).seg.end_,
      (b.node cur).seg.end_ + 1⟩⟩).size := by rw [size_pushNode]; omega
  have node (i : Nat) := node_setRight (c := b.size) room i
  constructor
  case free => exact free
  case size => simp
  case fresh =>
    have apart : b.size ≠ cur := Nat.ne_of_gt inside
    rw [node,if_neg apart,node_pushNode,if_pos rfl]
  all_goals
    intro i bound
    simp only [node,node_pushNode,old i bound,ite_false]
    split <;> rfl

/-- What one pass of `insert_n_ones` does at a node, one position being left. -/
inductive OneStep (b : BDDTag) (i last : Nat) : Pass (BDDTag × Nat × Nat) (BDDTag × Nat) → Prop where
  | budded : Budded b next i last → b.size < maxLb → OneStep b i last (.again (next,b.size,0))
  | down : (b.node i).right ≠ 0 → OneStep b i last (.again (b,(b.node i).right,0))

theorem right_size (trie : Trie b) (inside : i < b.size) (some : (b.node i).right ≠ 0) :
    offSub (b.node (b.node i).right).seg.end_ (b.node i).seg.end_ = 1 := by
  rw [trie.right_end i inside some,offSub]
  omega

theorem insertNOnesPass_ends (trie : Trie b) (inside : i < b.size) (fits : (b.node i).seg.end_ + 1 < 2 ^ 32) :
    (insertNOnesPass last (b,i,1)).Ends (OneStep b i last) := by
  dsimp only [insertNOnesPass]
  rw [if_neg Nat.one_ne_zero]
  by_cases none : (b.node i).right = 0
  · rw [if_pos none]
    refine (allocNode_ends fun room => ?_).bind fun r h => h
    exact .budded (budded_leaf trie inside fits none) room
  · rw [if_neg none,right_size trie inside none,if_neg (Nat.lt_irrefl 1)]
    exact .down none

theorem insertNOnes_ends (trie : Trie b) (inside : cur < b.size)
    (fits : (b.node cur).seg.end_ + 1 < 2 ^ 32) (budget : 1 < fuel) :
    (b.insertNOnes fuel cur 1 last).Ends fun r => OneBit b cur last r.1 r.2 := by
  let inv : BDDTag × Nat × Nat → Prop := fun s =>
    (s.1 = b ∧ s.2.1 = cur ∧ s.2.2 = 1) ∨ (s.2.2 = 0 ∧ OneBit b cur last s.1 s.2.1)
  refine loop_ends inv (fun s => s.2.2) ?_ (.inl ⟨rfl,rfl,rfl⟩) budget
  rintro ⟨b₁,i,n⟩ (⟨same,here,one⟩ | ⟨stop,done⟩)
  · obtain rfl : b₁ = b := same
    obtain rfl : i = cur := here
    obtain rfl : n = 1 := one
    refine (insertNOnesPass_ends trie inside fits).imp ?_
    rintro _ (⟨budded,room⟩ | some)
    · exact ⟨.inr ⟨rfl,.budded budded room⟩,Nat.one_pos⟩
    · exact ⟨.inr ⟨rfl,.found some⟩,Nat.one_pos⟩
  · obtain rfl : n = 0 := stop
    exact done

/-- The label that a one-bit insertion ends in, as far as later calls care. -/
structure Labelled (b b' : BDDTag) (last pos z : Nat) : Prop where
  trie : Trie b'
  keeps : Keeps b b'
  label : b'.IsLabel z
  nonzero : z ≠ 0
  parent : (b'.node z).parent = last
  begin : (b'.node z).seg.begin = pos

theorem OneBit.labelled (bit : OneBit b cur last b' i) (trie : Trie b) (inside : cur < b.size)
    (heads : b.head cur = last) (fits : (b.node cur).seg.end_ + 1 < 2 ^ 32) :
    Labelled b b' last (b.node cur).seg.end_ i := by
  cases bit with
  | found some =>
    exact ⟨trie,Keeps.refl b,.inr ⟨cur,inside,rfl⟩,some,
      (trie.right_parent cur inside some).trans heads,trie.right_begin cur inside some⟩
  | budded budded room =>
    refine ⟨budded.trie trie inside heads fits room,budded.keeps inside,
      (budded.isLabel_iff inside _).mpr (.inr rfl),Nat.ne_of_gt trie.size_pos,?_,?_⟩
    all_goals rw [budded.fresh]

end Libdft.BddTag.BDDTag
