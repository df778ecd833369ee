import Libdft.BddCombine

/-! When `combine` answers with the empty label. Offsets up to `MAX_LB` itself are allowed
here; `combine` and `find` pass over a segment that begins there, so nothing is said about
the sets of the labels. -/
namespace Libdft.BddTag.BDDTag

variable {b : BDDTag} {room fuel : Nat} {s : Gather} {xs ys : List Nat}

/-- While `combine` walks both chains and may pass over a segment that begins at `MAX_LB`:
once both chains are used up something is on the stack. -/
structure Walking (b : BDDTag) (room : Nat) (s : Gather) (xs ys : List Nat) : Prop where
  first : Denotes b s.l1 xs
  second : Denotes b s.l2 ys
  labels : ∀ c ∈ s.stack, b.IsLabel c ∧ c ≠ 0
  ascending : (b.begins s.stack).Pairwise (· < ·)
  above : ∀ v ∈ b.begins s.stack, s.lastBegin ≤ v ∧ v ≤ maxLb
  fresh : s.stack = [] → s.lastBegin = maxLb
  below : ∀ v, v ∈ xs ∨ v ∈ ys → v ≤ s.lastBegin
  bounded : s.lastBegin ≤ maxLb
  alive : s.stack ≠ [] ∨ s.l2 ≠ 0 ∨ s.l1 ≠ 0 ∧ (b.node s.l1).seg.begin < maxLb
  short : s.stack.length + (s.l1 + s.l2) ≤ room

namespace Walking

/-- A head whose begin is not below `last_begin` is passed over. -/
theorem note_cases (b : BDDTag) (s : Gather) (lb : Nat) :
    (b.node lb).seg.begin < s.lastBegin ∧
      s.note b lb = { s with stack := lb :: s.stack, lastBegin := (b.node lb).seg.begin } ∨
    s.lastBegin ≤ (b.node lb).seg.begin ∧ s.note b lb = s := by
  unfold Gather.note
  split
  · exact .inl ⟨‹_›,rfl⟩
  · exact .inr ⟨by omega,rfl⟩

/-- What is left of the two chains after one of them made a step. -/
theorem remaining (w : Walking b room s xs ys) {lb : Nat} {xs' ys' : List Nat}
    (under : ∀ v, v ∈ xs' ∨ v ∈ ys' → v ≤ (b.node lb).seg.begin)
    (old : ∀ v, v ∈ xs' ∨ v ∈ ys' → v ∈ xs ∨ v ∈ ys) :
    ∀ v, v ∈ xs' ∨ v ∈ ys' → v ≤ (s.note b lb).lastBegin := by
  intro v member
  rcases note_cases b s lb with ⟨_,noted⟩ | ⟨_,noted⟩
  · rw [noted]
    exact under v member
  · rw [noted]
    exact w.below v (old v member)

/-- The stack after a head was noted. -/
structure Noted (b : BDDTag) (s next : Gather) : Prop where
  labels : ∀ c ∈ next.stack, b.IsLabel c ∧ c ≠ 0
  ascending : (b.begins next.stack).Pairwise (· < ·)
  above : ∀ v ∈ b.begins next.stack, next.lastBegin ≤ v ∧ v ≤ maxLb
  fresh : next.stack = [] → next.lastBegin = maxLb
  bounded : next.lastBegin ≤ maxLb
  short : next.stack.length ≤ s.stack.length + 1

theorem noted (w : Walking b room s xs ys) {lb : Nat} (label : b.IsLabel lb) (nonzero : lb ≠ 0)
    (le : (b.node lb).seg.begin ≤ s.lastBegin) : Noted b s (s.note b lb) := by
  rcases note_cases b s lb with ⟨less,noted⟩ | ⟨_,noted⟩
  · rw [noted]
    have low : (b.node lb).seg.begin ≤ maxLb := Nat.le_trans le w.bounded
    refine ⟨?_,?_,?_,nofun,low,Nat.le_refl _⟩
    · intro c member
      rcases List.mem_cons.mp member with rfl | member
      · exact ⟨label,nonzero⟩
      · exact w.labels c member
    · exact .cons (fun v member => Nat.lt_of_lt_of_le less (w.above v member).1) w.ascending
    · intro v member
      rcases List.mem_cons.mp member with rfl | member
      · exact ⟨Nat.le_refl _,low⟩
      · have := w.above v member
        exact ⟨Nat.le_trans le this.1,this.2⟩
  · rw [noted]
    exact ⟨w.labels,w.ascending,w.above,w.fresh,w.bounded,Nat.le_succ _⟩

/-- The first chain steps to its parent. -/
theorem stepFirst (w : Walking b room s xs ys) (trie : Trie b) (nonzero : s.l1 ≠ 0)
    (larger : ∀ v ∈ ys, v ≤ (b.node s.l1).seg.begin) :
    ∃ rest, Walking b room { s.note b s.l1 with l1 := (b.node s.l1).parent } rest ys := by
  obtain ⟨rest,rfl,parent⟩ := w.first.cons_of_ne_zero nonzero
  have le := w.below _ (.inl List.mem_cons_self)
  have noted := w.noted w.first.isLabel nonzero le
  have falls := trie.parent_lt s.l1 (trie.label_lt w.first.isLabel) nonzero
  have short := w.short
  have grew := noted.short
  have kept : (s.note b s.l1).l2 = s.l2 := by unfold Gather.note; split <;> rfl
  refine ⟨rest,parent,kept.symm ▸ w.second,noted.labels,noted.ascending,noted.above,noted.fresh,?_,
    noted.bounded,?_,?_⟩
  · refine w.remaining (fun v member => ?_) fun v member => member.imp (List.mem_cons_of_mem _) id
    exact member.elim (fun h => w.first.begin_le trie nonzero v (.tail _ h)) (larger v)
  · rcases note_cases b s s.l1 with ⟨_,same⟩ | ⟨past,same⟩
    · rw [same]
      exact .inl (List.cons_ne_nil _ _)
    · rw [same]
      rcases w.alive with stacked | second | ⟨_,small⟩
      · exact .inl stacked
      · exact .inr (.inl second)
      · refine .inl fun empty => ?_
        have := w.fresh empty
        omega
  · dsimp only
    rw [kept]
    omega

/-- The second chain steps to its parent; the head of the first one begins below it. -/
theorem stepSecond (w : Walking b room s xs ys) (trie : Trie b) (first : s.l1 ≠ 0) (nonzero : s.l2 ≠ 0)
    (less : (b.node s.l1).seg.begin < (b.node s.l2).seg.begin) :
    ∃ rest, Walking b room { s.note b s.l2 with l2 := (b.node s.l2).parent } xs rest := by
  obtain ⟨rest,rfl,parent⟩ := w.second.cons_of_ne_zero nonzero
  have le := w.below _ (.inr List.mem_cons_self)
  have noted := w.noted w.second.isLabel nonzero le
  have falls := trie.parent_lt s.l2 (trie.label_lt w.second.isLabel) nonzero
  have short := w.short
  have grew := noted.short
  have small := w.bounded
  have kept : (s.note b s.l2).l1 = s.l1 := by unfold Gather.note; split <;> rfl
  refine ⟨rest,kept.symm ▸ w.first,parent,noted.labels,noted.ascending,noted.above,noted.fresh,?_,
    noted.bounded,?_,?_⟩
  · refine w.remaining (fun v member => ?_) fun v member => member.imp id (List.mem_cons_of_mem _)
    refine member.elim (fun h => ?_) fun h => w.second.begin_le trie nonzero v (.tail _ h)
    exact Nat.le_trans (w.first.begin_le trie first v h) (Nat.le_of_lt less)
  · dsimp only
    rw [kept]
    exact .inr (.inr ⟨first,by omega⟩)
  · dsimp only
    rw [kept]
    omega

end Walking

/-- The first half of `combine`: a base label and a stack above it, not both empty. -/
structure Walked (b : BDDTag) (room base : Nat) (stack : List Nat) : Prop where
  gathered : ∃ wanted, Gathered b wanted room base stack ∧ ∀ v, wanted v → v ≤ maxLb
  some : base ≠ 0 ∨ stack ≠ []

theorem gather_walked {l1 l2 : Nat} (trie : Trie b) (first : Denotes b l1 xs) (second : Denotes b l2 ys)
    (small : ∀ v, v ∈ xs ∨ v ∈ ys → v ≤ maxLb) (some : l2 ≠ 0) (budget : l1 + l2 < fuel) :
    (b.gather fuel l1 l2).Ends fun s => Walked b (l1 + l2) (if 0 < s.l1 then s.l1 else s.l2) s.stack := by
  have started : Walking b (l1 + l2) ⟨l1,l2,maxLb,[]⟩ xs ys := by
    refine ⟨first,second,?_,.nil,?_,fun _ => rfl,small,Nat.le_refl _,.inr (.inl some),?_⟩
    · simp
    · simp [begins]
    · simp
  have walk := gather_rule trie.laid (fun s => ∃ xs' ys', Walking b (l1 + l2) s xs' ys') (fun l => l) ?_ ?_ ?_
    ⟨xs,ys,started⟩ budget
  · refine walk.imp ?_
    rintro s ⟨⟨xs',ys',w⟩,done⟩
    have short : s.stack.length ≤ l1 + l2 := by have := w.short; omega
    have base (offs : List Nat) (c : Nat) (denotes : Denotes b c offs)
        (under : ∀ v ∈ offs, v ∈ xs' ∨ v ∈ ys') (alive : c ≠ 0 ∨ s.stack ≠ []) :
        Walked b (l1 + l2) c s.stack := by
      refine ⟨⟨fun v => v ∈ offs ∨ v ∈ b.begins s.stack,⟨w.labels,w.ascending,⟨offs,denotes,?_,fun _ => Iff.rfl⟩,
        short⟩,?_⟩,alive⟩
      · intro v member u stacked
        exact Nat.le_trans (w.below v (under v member)) (w.above u stacked).1
      · rintro v (member | stacked)
        · exact Nat.le_trans (w.below v (under v member)) w.bounded
        · exact (w.above v stacked).2
    by_cases zero : s.l1 = 0
    · rw [if_neg (by omega)]
      refine base ys' s.l2 w.second (fun v member => .inr member) ?_
      rcases w.alive with stacked | second | ⟨first,_⟩
      · exact .inr stacked
      · exact .inl second
      · exact absurd zero first
    · rw [if_pos (by omega)]
      exact base xs' s.l1 w.first (fun v member => .inl member) (.inl zero)
  · rintro s ⟨xs',ys',w⟩
    exact ⟨trie.parent_lt s.l1 (trie.label_lt w.first.isLabel),trie.parent_lt s.l2 (trie.label_lt w.second.isLabel)⟩
  · rintro s ⟨xs',ys',w⟩ nonzero larger
    obtain ⟨rest,next⟩ := w.stepFirst trie nonzero fun v member => by
      by_cases zero : s.l2 = 0
      · have none : ys' = [] := (zero ▸ w.second : Denotes b 0 ys').eq_nil
        simp [none] at member
      · exact Nat.le_trans (w.second.begin_le trie zero v member) larger
    exact ⟨rest,ys',next⟩
  · rintro s ⟨xs',ys',w⟩ nonzero nonzero2 less
    obtain ⟨rest,next⟩ := w.stepSecond trie nonzero nonzero2 less
    exact ⟨xs',rest,next⟩

/-- A union is empty only if both operands are; every label still denotes what it did. -/
theorem combine_empty_iff {m1 m2 : Nat} (trie : Trie b) (first : Denotes b m1 xs) (second : Denotes b m2 ys)
    (small : ∀ v, v ∈ xs ∨ v ∈ ys → v ≤ maxLb) (budget : 2 ^ 32 < fuel) :
    (b.combine fuel m1 m2).Ends fun r => ∃ offs, Grown b r.1 r.2 offs ∧ (∀ v ∈ offs, v ≤ maxLb) ∧
      (r.2 = 0 ↔ m1 = 0 ∧ m2 = 0) := by
  have small1 := trie.laid.label_small first.isLabel
  have small2 := trie.laid.label_small second.isLabel
  refine combine_rule (f := false) (g := false) small1 small2 ?_ ?_ fun some1 some2 => ?_
  · intro zero1
    exact ⟨ys,⟨trie,Keeps.refl b,second⟩,fun v member => small v (.inr member),by simp [flagged,zero1]⟩
  · intro trivial
    refine ⟨xs,⟨trie,Keeps.refl b,first⟩,fun v member => small v (.inl member),?_⟩
    rcases trivial with zero2 | same
    · simp [flagged,zero2]
    · simp [flagged,same]
  have some1 : m1 ≠ 0 := some1
  have some2 : m2 ≠ 0 := some2
  have walked : (b.gather fuel (min m1 m2) (max m1 m2)).Ends fun s =>
      Walked b (min m1 m2 + max m1 m2) (if 0 < s.l1 then s.l1 else s.l2) s.stack := by
    rcases Nat.le_total m1 m2 with le | le
    · rw [Nat.min_eq_left le,Nat.max_eq_right le]
      exact gather_walked trie first second small some2 (by omega)
    · rw [Nat.min_eq_right le,Nat.max_eq_left le]
      exact gather_walked trie second first (fun v h => small v h.symm) some1 (by omega)
  refine walked.imp fun s walked => ?_
  obtain ⟨wanted,gathered,bounded⟩ := walked.gathered
  obtain ⟨offs,denotes,refill,_,exact⟩ := gathered.refill trie
  have short := gathered.short
  refine (reinsert_ends refill (by omega) budget).imp ?_
  rintro ⟨b',m⟩ appends
  have grown := appends.grown trie denotes
  refine ⟨_,grown,fun v member => bounded v ((exact v).mpr ?_),?_⟩
  · rw [List.mem_append,List.mem_reverse] at member
    exact member.symm
  · have nonempty : m ≠ 0 := by
      rintro rfl
      have none := grown.denotes.eq_nil
      rw [List.append_eq_nil_iff,List.reverse_eq_nil_iff] at none
      rcases walked.some with base | stacked
      · obtain ⟨rest,some,_⟩ := denotes.cons_of_ne_zero base
        exact List.cons_ne_nil _ _ (some.symm.trans none.2)
      · have root : (if 0 < s.l1 then s.l1 else s.l2) = 0 := by
          by_contra base
          obtain ⟨rest,some,_⟩ := denotes.cons_of_ne_zero base
          exact List.cons_ne_nil _ _ (some.symm.trans none.2)
        rw [root] at none
        obtain ⟨c,stack,eq⟩ := List.exists_cons_of_ne_nil stacked
        simp [missing,begins,eq,trie.root_end] at none
    simp [flagged,nonempty,some1]

end Libdft.BddTag.BDDTag
