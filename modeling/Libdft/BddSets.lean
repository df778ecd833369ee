import Libdft.BddInsert
import Mathlib.Data.Finset.Lattice.Basic

/-! The sets that labels stand for. A label denotes the begins along its parent
chain; `insert` and `combine` are specified by the denotation of what they return,
and `Keeps` carries every earlier denotation over to the new state. -/
namespace Libdft.BddTag.BDDTag

variable {b b' b'' : BDDTag} {c cur last pos fuel : Nat} {offs : List Nat}

/-- The parent chain of a label, latest offset first. -/
inductive Denotes (b : BDDTag) : Nat → List Nat → Prop where
  | root : Denotes b 0 []
  | label : b.IsLabel l → l ≠ 0 → Denotes b (b.node l).parent rest →
      Denotes b l ((b.node l).seg.begin :: rest)

namespace Denotes

theorem isLabel (denotes : Denotes b c offs) : b.IsLabel c := by
  cases denotes with
  | root => exact isLabel_zero
  | label label _ _ => exact label

theorem keep (denotes : Denotes b c offs) (trie : Trie b) (keeps : Keeps b b') :
    Denotes b' c offs := by
  induction denotes with
  | root => exact .root
  | label label nonzero _ ih =>
    have bound := trie.label_lt label
    rw [← keeps.begin _ bound label]
    rw [← keeps.parent _ bound] at ih
    exact .label (keeps.label _ label) nonzero ih

theorem lt_end (denotes : Denotes b c offs) (trie : Trie b) :
    ∀ x ∈ offs, x < (b.node c).seg.end_ := by
  induction denotes with
  | root => simp
  | label label nonzero _ ih =>
    have bound := trie.label_lt label
    have begins := trie.span _ bound nonzero
    have chained := trie.parent_end _ bound nonzero
    intro x member
    rcases List.mem_cons.mp member with rfl | member
    · exact begins
    · have := ih x member
      omega

theorem begin_le (denotes : Denotes b c offs) (trie : Trie b) (nonzero : c ≠ 0) :
    ∀ x ∈ offs, x ≤ (b.node c).seg.begin := by
  intro x member
  have := denotes.lt_end trie x member
  rw [trie.label_end denotes.isLabel nonzero] at this
  omega

theorem descending (denotes : Denotes b c offs) (trie : Trie b) : offs.Pairwise (· > ·) := by
  induction denotes with
  | root => exact .nil
  | label label nonzero rest ih =>
    refine .cons ?_ ih
    intro x member
    exact Nat.lt_of_lt_of_le (rest.lt_end trie x member)
      (trie.parent_end _ (trie.label_lt label) nonzero)

theorem unique {offs' : List Nat} (denotes : Denotes b c offs) (other : Denotes b c offs') :
    offs = offs' := by
  induction denotes generalizing offs' with
  | root =>
    cases other with
    | root => rfl
    | label _ nonzero _ => exact absurd rfl nonzero
  | label _ nonzero _ ih =>
    cases other with
    | root => exact absurd rfl nonzero
    | label _ _ rest => rw [ih rest]

theorem eq_nil (denotes : Denotes b 0 offs) : offs = [] := denotes.unique .root

theorem cons_of_ne_zero (denotes : Denotes b c offs) (nonzero : c ≠ 0) :
    ∃ rest, offs = (b.node c).seg.begin :: rest ∧ Denotes b (b.node c).parent rest := by
  cases denotes with
  | root => exact absurd rfl nonzero
  | label _ _ rest => exact ⟨_,rfl,rest⟩

end Denotes

theorem Labelled.denotes (labelled : Labelled b b' last pos c) (trie : Trie b)
    (denotes : Denotes b last offs) : Denotes b' c (pos :: offs) := by
  have chain := Denotes.label labelled.label labelled.nonzero
    (labelled.parent.symm ▸ denotes.keep trie labelled.keeps)
  rwa [labelled.begin] at chain

/-- One more offset below a label: a run of zeros up to it, if any, and one bit. -/
inductive Appended (b : BDDTag) (last x : Nat) : BDDTag → Nat → Prop where
  | offset : (b.node last).seg.end_ ≤ x → x + 1 < 2 ^ 32 →
      ZeroRun b last last (x - (b.node last).seg.end_) between z →
      OneBit between z last next l → Appended b last x next l

theorem Appended.labelled (appended : Appended b last pos b' c) (trie : Trie b)
    (label : b.IsLabel last) : Labelled b b' last pos c := by
  obtain ⟨above,fits,run,bit⟩ := appended
  have inside := trie.label_lt label
  have reached := run.reached trie inside (head_of_label label) (by omega)
  have end_ := reached.end_
  have labelled := bit.labelled reached.trie reached.inside reached.heads (by omega)
  exact ⟨labelled.trie,reached.keeps.trans labelled.keeps,labelled.label,labelled.nonzero,
    labelled.parent,by rw [labelled.begin]; omega⟩

/-- The calls behind one gap and the offset after it, as `insert` and `combine` make them. -/
def appendOffset (fuel : Nat) (b : BDDTag) (last gap : Nat) : Outcome (BDDTag × Nat) := do
  let (b, zeroLb) ← b.insertNZeros fuel last gap last
  b.insertNOnes fuel zeroLb 1 last

theorem appendOffset_ends {gap : Nat} (trie : Trie b) (label : b.IsLabel last)
    (fits : (b.node last).seg.end_ + gap + 1 < 2 ^ 32) (budget : gap + 1 < fuel) :
    (b.appendOffset fuel last gap).Ends fun r =>
      Appended b last ((b.node last).seg.end_ + gap) r.1 r.2 := by
  have inside := trie.label_lt label
  have zeros : (b.insertNZeros fuel last gap last).Ends fun r => ZeroRun b last last gap r.1 r.2 :=
    insertNZeros_ends trie.laid inside (by omega) (by omega)
  refine zeros.bind ?_
  rintro ⟨b₁,z⟩ run
  have reached := run.reached trie inside (head_of_label label) (by omega)
  have fitsOne : (b₁.node z).seg.end_ + 1 < 2 ^ 32 := by rw [reached.end_]; exact fits
  refine Outcome.Ends.imp (insertNOnes_ends reached.trie reached.inside fitsOne (by omega)) ?_
  intro r bit
  refine .offset (Nat.le_add_right ..) fits ?_ bit
  rwa [Nat.add_sub_cancel_left]

/-- Two states that differ in signs only. -/
structure SameShape (b b' : BDDTag) : Prop where
  size : b'.size = b.size
  left : ∀ i, (b'.node i).left = (b.node i).left
  right : ∀ i, (b'.node i).right = (b.node i).right
  parent : ∀ i, (b'.node i).parent = (b.node i).parent
  begin : ∀ i, (b'.node i).seg.begin = (b.node i).seg.begin
  end_ : ∀ i, (b'.node i).seg.end_ = (b.node i).seg.end_

namespace SameShape

theorem symm (same : SameShape b b') : SameShape b' b where
  size := same.size.symm
  left i := (same.left i).symm
  right i := (same.right i).symm
  parent i := (same.parent i).symm
  begin i := (same.begin i).symm
  end_ i := (same.end_ i).symm

theorem isLabel_iff (same : SameShape b b') (c : Nat) : b'.IsLabel c ↔ b.IsLabel c := by
  simp only [IsLabel,same.size,same.right]

theorem head_eq (same : SameShape b b') (i : Nat) : b'.head i = b.head i := by
  simp only [head,same.isLabel_iff,same.parent]

theorem laid (same : SameShape b b') (laid : Laid b) : Laid b' := by
  constructor <;>
    simp only [same.size,same.left,same.right,same.parent,same.begin,same.end_,same.isLabel_iff,
      same.head_eq]
  case size_pos => exact laid.size_pos
  case size_le => exact laid.size_le
  case root_begin => exact laid.root_begin
  case root_end => exact laid.root_end
  case left_lt => exact laid.left_lt
  case right_lt => exact laid.right_lt
  case parent_label => exact laid.parent_label
  case parent_end => exact laid.parent_end
  case span => exact laid.span
  case end_lt => exact laid.end_lt
  case left_begin => exact laid.left_begin
  case left_parent => exact laid.left_parent
  case left_injective => exact laid.left_injective
  case left_not_label => exact laid.left_not_label
  case right_begin => exact laid.right_begin
  case right_parent => exact laid.right_parent

theorem trie (same : SameShape b b') (trie : Trie b) : Trie b' := by
  have laid := same.laid trie.laid
  refine ⟨laid.size_pos,laid.size_le,?_,laid.root_begin,laid.root_end,?_,?_,?_,laid.parent_label,laid.parent_end,
    laid.span,laid.end_lt,laid.left_begin,laid.left_parent,laid.left_injective,laid.left_not_label,laid.right_begin,?_,
    laid.right_parent⟩
  all_goals simp only [same.size,same.left,same.right,same.parent,same.end_]
  · exact trie.root_parent
  · exact trie.left_bound
  · exact trie.right_bound
  · exact trie.parent_lt
  · exact trie.right_end

theorem keeps (same : SameShape b b') : Keeps b b' where
  size_le := Nat.le_of_eq same.size.symm
  label c := (same.isLabel_iff c).mpr
  parent i _ := same.parent i
  end_ i _ := same.end_ i
  begin c _ _ := same.begin c

end SameShape

theorem setSign_sameShape (inside : c < b.size) : SameShape b (b.setSign c) := by
  have node (i : Nat) : (b.setSign c).node i =
      if i = c then { b.node i with seg := { (b.node i).seg with sign := true } } else b.node i :=
    node_modify _ inside i
  constructor
  case size => simp
  all_goals
    intro i
    rw [node i]
    split <;> rfl

/-- Offsets appended one after the other, with signs set in between. -/
inductive Appends (b : BDDTag) (base : Nat) : List Nat → BDDTag → Nat → Prop where
  | start : Appends b base [] b base
  | offset : Appends b base xs mid m → Appended mid m x next l → Appends b base (xs ++ [x]) next l
  | sign : Appends b base xs mid l → SameShape mid next → Appends b base xs next l

/-- A later state and what one of its labels stands for. -/
structure Grown (b b' : BDDTag) (l : Nat) (offs : List Nat) : Prop where
  trie : Trie b'
  keeps : Keeps b b'
  denotes : Denotes b' l offs

theorem Appends.grown {xs : List Nat} (appends : Appends b cur xs b' c) (trie : Trie b)
    (denotes : Denotes b cur offs) : Grown b b' c (xs.reverse ++ offs) := by
  induction appends with
  | start => exact ⟨trie,Keeps.refl b,denotes⟩
  | offset _ appended ih =>
    have labelled := appended.labelled ih.trie ih.denotes.isLabel
    refine ⟨labelled.trie,ih.keeps.trans labelled.keeps,?_⟩
    rw [List.reverse_append]
    exact labelled.denotes ih.trie ih.denotes
  | sign _ same ih =>
    exact ⟨same.trie ih.trie,ih.keeps.trans same.keeps,ih.denotes.keep ih.trie same.keeps⟩

/-- What `insert` and `combine` do: above a label that exists already, they append the
offsets of the wanted set that it does not have. -/
structure Extended (b : BDDTag) (wanted : Nat → Prop) (b' : BDDTag) (l : Nat) : Prop where
  chain : ∃ base offs xs, Denotes b base offs ∧ Appends b base xs b' l ∧
    (offs.reverse ++ xs).Pairwise (· < ·) ∧ ∀ v, wanted v ↔ v ∈ offs ∨ v ∈ xs

theorem Extended.grown (extended : Extended b wanted b' c) (trie : Trie b) :
    ∃ offs, Grown b b' c offs ∧ ∀ v, wanted v ↔ v ∈ offs := by
  obtain ⟨base,offs,xs,denotes,appends,_,exact⟩ := extended.chain
  refine ⟨_,appends.grown trie denotes,fun v => ?_⟩
  rw [exact v,List.mem_append,List.mem_reverse,or_comm]

theorem Extended.of_denotes (denotes : Denotes b c offs) (trie : Trie b) :
    Extended b (· ∈ offs) b c :=
  ⟨c,offs,[],denotes,.start,by
    rw [List.append_nil,List.pairwise_reverse]; exact denotes.descending trie,by simp⟩

theorem insert_eq (b : BDDTag) (pos fuel : Nat) : b.insert fuel pos = b.appendOffset fuel root pos := rfl

theorem insert_ends (trie : Trie b) (fits : pos + 1 < 2 ^ 32) (budget : pos + 1 < fuel) :
    (b.insert fuel pos).Ends fun r => Extended b (· = pos) r.1 r.2 := by
  rw [insert_eq]
  have start := trie.root_end
  refine (appendOffset_ends trie isLabel_zero (by rw [start]; omega) budget).imp ?_
  intro r appended
  rw [start,Nat.zero_add] at appended
  exact ⟨0,[],[pos],.root,.offset .start appended,by simp,by simp⟩

/-- The walk of `combine` down both chains keeps what each of its steps keeps; `weight` falls from a
label to its parent. -/
theorem gather_rule {l1 l2 : Nat} (laid : Laid b) (inv : Gather → Prop) (weight : Nat → Nat)
    (falls : ∀ s, inv s → (s.l1 ≠ 0 → weight (b.node s.l1).parent < weight s.l1) ∧
      (s.l2 ≠ 0 → weight (b.node s.l2).parent < weight s.l2))
    (takeFirst : ∀ s, inv s → s.l1 ≠ 0 → (b.node s.l2).seg.begin ≤ (b.node s.l1).seg.begin →
      inv { s.note b s.l1 with l1 := (b.node s.l1).parent })
    (takeSecond : ∀ s, inv s → s.l1 ≠ 0 → s.l2 ≠ 0 → (b.node s.l1).seg.begin < (b.node s.l2).seg.begin →
      inv { s.note b s.l2 with l2 := (b.node s.l2).parent })
    (start : inv ⟨l1,l2,maxLb,[]⟩) (budget : weight l1 + weight l2 < fuel) :
    (b.gather fuel l1 l2).Ends fun s => inv s ∧ ¬ (0 < s.l1 ∧ s.l1 ≠ s.l2) := by
  refine loop_ends inv (fun s => weight s.l1 + weight s.l2) ?_ start budget
  intro s holds
  obtain ⟨falls1,falls2⟩ := falls s holds
  unfold gatherPass
  by_cases go : 0 < s.l1 ∧ s.l1 ≠ s.l2
  · rw [if_pos go]
    have nonzero := Nat.ne_of_gt go.1
    by_cases less : (b.node s.l1).seg.begin < (b.node s.l2).seg.begin
    · rw [if_pos less]
      have nonzero2 : s.l2 ≠ 0 := by
        intro zero
        rw [zero,laid.root_begin] at less
        omega
      have := falls2 nonzero2
      refine ⟨takeSecond s holds nonzero nonzero2 less,?_⟩
      unfold Gather.note
      split <;> dsimp only <;> omega
    · rw [if_neg less]
      have := falls1 nonzero
      refine ⟨takeFirst s holds nonzero (Nat.le_of_not_lt less),?_⟩
      unfold Gather.note
      split <;> dsimp only <;> omega
  · rw [if_neg go]
    exact ⟨holds,go⟩

/-- The begins of the stacked labels, top first. -/
def begins (b : BDDTag) (stack : List Nat) : List Nat := stack.map fun c => (b.node c).seg.begin

/-- While `combine` walks both chains: what is stacked lies above what is left, and
together they are the offsets asked for. -/
structure Gathering (b : BDDTag) (wanted : Nat → Prop) (room : Nat) (s : Gather)
    (xs ys : List Nat) : Prop where
  first : Denotes b s.l1 xs
  second : Denotes b s.l2 ys
  labels : ∀ c ∈ s.stack, b.IsLabel c ∧ c ≠ 0
  ascending : (b.begins s.stack).Pairwise (· < ·)
  above : ∀ v ∈ b.begins s.stack, s.lastBegin ≤ v
  tight : s.lastBegin = maxLb ∨ s.lastBegin ∈ b.begins s.stack
  below : ∀ v, v ∈ xs ∨ v ∈ ys → v ≤ s.lastBegin ∧ v < maxLb
  exact : ∀ v, wanted v ↔ (v ∈ xs ∨ v ∈ ys) ∨ v ∈ b.begins s.stack
  short : s.stack.length + (s.l1 + s.l2) ≤ room

namespace Gathering

variable {wanted : Nat → Prop} {room : Nat} {s : Gather} {xs ys : List Nat}

theorem swap (g : Gathering b wanted room s xs ys) :
    Gathering b wanted room ⟨s.l2,s.l1,s.lastBegin,s.stack⟩ ys xs where
  first := g.second
  second := g.first
  labels := g.labels
  ascending := g.ascending
  above := g.above
  tight := g.tight
  below v h := g.below v h.symm
  exact v := by rw [g.exact v,or_comm (a := v ∈ xs)]
  short := by have := g.short; dsimp only; omega

/-- The head with the larger begin is noted and its chain steps to the parent. -/
theorem take (g : Gathering b wanted room s xs ys) (trie : Trie b) (nonzero : s.l1 ≠ 0)
    (larger : ∀ v ∈ ys, v ≤ (b.node s.l1).seg.begin) :
    ∃ rest, Gathering b wanted room { s.note b s.l1 with l1 := (b.node s.l1).parent } rest ys := by
  obtain ⟨rest,rfl,parent⟩ := g.first.cons_of_ne_zero nonzero
  have bound := trie.label_lt g.first.isLabel
  have falls := trie.parent_lt s.l1 bound nonzero
  have short := g.short
  obtain ⟨le,small⟩ := g.below (b.node s.l1).seg.begin (.inl List.mem_cons_self)
  have under (v : Nat) (member : v ∈ rest) : v ≤ (b.node s.l1).seg.begin :=
    g.first.begin_le trie nonzero v (List.mem_cons_of_mem _ member)
  have remaining (v : Nat) (member : v ∈ rest ∨ v ∈ ys) : v ≤ (b.node s.l1).seg.begin ∧ v < maxLb :=
    ⟨member.elim (under v) (larger v),(g.below v (member.imp (List.mem_cons_of_mem _) id)).2⟩
  refine ⟨rest,?_⟩
  by_cases fresh : (b.node s.l1).seg.begin < s.lastBegin
  · simp only [Gather.note,fresh,ite_true]
    refine ⟨parent,g.second,?_,?_,?_,.inr List.mem_cons_self,remaining,?_,?_⟩
    · intro c member
      rcases List.mem_cons.mp member with rfl | member
      · exact ⟨g.first.isLabel,nonzero⟩
      · exact g.labels c member
    · exact .cons (fun v member => Nat.lt_of_lt_of_le fresh (g.above v member)) g.ascending
    · intro v member
      rcases List.mem_cons.mp member with rfl | member
      · exact Nat.le_refl _
      · exact Nat.le_trans le (g.above v member)
    · intro v
      rw [g.exact v]
      simp only [begins,List.map_cons,List.mem_cons]
      tauto
    · simp only [List.length_cons]; omega
  · -- the begin equals `last_begin`, so the same offset is on the stack already
    have same : (b.node s.l1).seg.begin = s.lastBegin := by omega
    have stacked : (b.node s.l1).seg.begin ∈ b.begins s.stack := by
      rcases g.tight with full | stacked
      · omega
      · rwa [same]
    simp only [Gather.note,fresh,ite_false]
    refine ⟨parent,g.second,g.labels,g.ascending,g.above,g.tight,?_,?_,by dsimp only; omega⟩
    · intro v member
      rw [← same]
      exact remaining v member
    · intro v
      rw [g.exact v]
      simp only [List.mem_cons]
      constructor
      · rintro ((((rfl | h) | h)) | h)
        · exact .inr stacked
        · exact .inl (.inl h)
        · exact .inl (.inr h)
        · exact .inr h
      · tauto

end Gathering

/-- The first half of `combine`: a base label and, above it, the stacked rest. -/
structure Gathered (b : BDDTag) (wanted : Nat → Prop) (room : Nat) (base : Nat)
    (stack : List Nat) : Prop where
  labels : ∀ c ∈ stack, b.IsLabel c ∧ c ≠ 0
  ascending : (b.begins stack).Pairwise (· < ·)
  split : ∃ offs, Denotes b base offs ∧ (∀ v ∈ offs, ∀ w ∈ b.begins stack, v ≤ w) ∧
    ∀ v, wanted v ↔ v ∈ offs ∨ v ∈ b.begins stack
  short : stack.length ≤ room

theorem gather_ends {l1 l2 : Nat} {xs ys : List Nat} (trie : Trie b) (first : Denotes b l1 xs)
    (second : Denotes b l2 ys) (small : ∀ v, v ∈ xs ∨ v ∈ ys → v < maxLb)
    (budget : l1 + l2 < fuel) :
    (b.gather fuel l1 l2).Ends fun s =>
      Gathered b (fun v => v ∈ xs ∨ v ∈ ys) (l1 + l2) (if 0 < s.l1 then s.l1 else s.l2) s.stack := by
  have started : Gathering b (fun v => v ∈ xs ∨ v ∈ ys) (l1 + l2) ⟨l1,l2,maxLb,[]⟩ xs ys := by
    refine ⟨first,second,?_,?_,?_,.inl rfl,?_,?_,?_⟩
    · simp
    · exact .nil
    · simp [begins]
    · intro v member
      exact ⟨Nat.le_of_lt (small v member),small v member⟩
    · simp [begins]
    · simp
  have walk := gather_rule trie.laid (fun s => ∃ xs' ys', Gathering b (fun v => v ∈ xs ∨ v ∈ ys) (l1 + l2) s xs' ys')
    (fun l => l) ?_ ?_ ?_ ⟨xs,ys,started⟩ budget
  · refine walk.imp ?_
    rintro s ⟨⟨xs',ys',g⟩,done⟩
    have below (v : Nat) (member : v ∈ xs' ∨ v ∈ ys') (w : Nat) (stacked : w ∈ b.begins s.stack) :
        v ≤ w := Nat.le_trans (g.below v member).1 (g.above w stacked)
    have short : s.stack.length ≤ l1 + l2 := by have := g.short; omega
    refine ⟨g.labels,g.ascending,?_,short⟩
    by_cases zero : s.l1 = 0
    · rw [if_neg (by omega)]
      have none : xs' = [] := (zero ▸ g.first : Denotes b 0 xs').eq_nil
      refine ⟨ys',g.second,fun v member => below v (.inr member),?_⟩
      intro v
      rw [g.exact v,none]
      simp
    · have same : s.l1 = s.l2 := by omega
      rw [if_pos (by omega)]
      have equal : xs' = ys' := g.first.unique (same ▸ g.second)
      refine ⟨xs',g.first,fun v member => below v (.inl member),?_⟩
      intro v
      rw [g.exact v,equal]
      simp
  · rintro s ⟨xs',ys',g⟩
    exact ⟨trie.parent_lt s.l1 (trie.label_lt g.first.isLabel),trie.parent_lt s.l2 (trie.label_lt g.second.isLabel)⟩
  · rintro s ⟨xs',ys',g⟩ nonzero larger
    obtain ⟨rest,next⟩ := g.take trie nonzero fun v member => by
      by_cases zero : s.l2 = 0
      · have none : ys' = [] := (zero ▸ g.second : Denotes b 0 ys').eq_nil
        simp [none] at member
      · exact Nat.le_trans (g.second.begin_le trie zero v member) larger
    exact ⟨rest,ys',next⟩
  · rintro s ⟨xs',ys',g⟩ nonzero nonzero2 less
    obtain ⟨rest,next⟩ := g.swap.take trie nonzero2 fun v member =>
      Nat.le_trans (g.first.begin_le trie nonzero v member) (Nat.le_of_lt less)
    refine ⟨xs',rest,?_⟩
    have back := next.swap
    unfold Gather.note at back ⊢
    dsimp only at back ⊢
    split at back <;> (rename_i h; simpa only [h,ite_true,ite_false] using back)

end Libdft.BddTag.BDDTag
