import Libdft.BddSession

/-! Labels for offsets of any size. `combine` and `find` pass over every segment that begins at
`MAX_LB` or after it; the trie itself has room for all offsets below the last one, and a label
keeps its chain whatever is called later. -/
namespace Libdft.BddTag.BDDTag

variable {b : BDDTag} {room pos l fuel : Nat} {s : Gather} {xs ys : List Nat}

/-- While `combine` walks both chains: nothing is stacked while the begins are out of reach, and
what is stacked lies above what is left. -/
structure Skimming (b : BDDTag) (room : Nat) (s : Gather) (xs ys : List Nat) : Prop where
  first : Denotes b s.l1 xs
  second : Denotes b s.l2 ys
  labels : ∀ c ∈ s.stack, b.IsLabel c ∧ c ≠ 0
  ascending : (b.begins s.stack).Pairwise (· < ·)
  above : ∀ v ∈ b.begins s.stack, s.lastBegin ≤ v
  below : s.stack ≠ [] → ∀ v, v ∈ xs ∨ v ∈ ys → v ≤ s.lastBegin
  short : s.stack.length + (s.l1 + s.l2) ≤ room

namespace Skimming

theorem swap (k : Skimming b room s xs ys) : Skimming b room ⟨s.l2,s.l1,s.lastBegin,s.stack⟩ ys xs where
  first := k.second
  second := k.first
  labels := k.labels
  ascending := k.ascending
  above := k.above
  below stacked v member := k.below stacked v member.symm
  short := by have := k.short; dsimp only; omega

/-- The head with the larger begin is noted, or passed over, and its chain steps to the parent. -/
theorem take (k : Skimming b room s xs ys) (trie : Trie b) (nonzero : s.l1 ≠ 0)
    (larger : ∀ v ∈ ys, v ≤ (b.node s.l1).seg.begin) :
    ∃ rest, Skimming b room { s.note b s.l1 with l1 := (b.node s.l1).parent } rest ys := by
  obtain ⟨rest,rfl,parent⟩ := k.first.cons_of_ne_zero nonzero
  have falls := trie.parent_lt s.l1 (trie.label_lt k.first.isLabel) nonzero
  have short := k.short
  refine ⟨rest,?_⟩
  by_cases fresh : (b.node s.l1).seg.begin < s.lastBegin
  · simp only [Gather.note,fresh,ite_true]
    refine ⟨parent,k.second,?_,?_,?_,?_,by simp only [List.length_cons]; omega⟩
    · intro c member
      rcases List.mem_cons.mp member with rfl | member
      · exact ⟨k.first.isLabel,nonzero⟩
      · exact k.labels c member
    · exact .cons (fun v member => Nat.lt_of_lt_of_le fresh (k.above v member)) k.ascending
    · intro v member
      rcases List.mem_cons.mp member with rfl | member
      · exact Nat.le_refl _
      · exact Nat.le_trans (Nat.le_of_lt fresh) (k.above v member)
    · rintro - v (member | member)
      · exact k.first.begin_le trie nonzero v (.tail _ member)
      · exact larger v member
  · simp only [Gather.note,fresh,ite_false]
    refine ⟨parent,k.second,k.labels,k.ascending,k.above,?_,by dsimp only; omega⟩
    exact fun stacked v member => k.below stacked v (member.imp_left (.tail _))

end Skimming

/-- The first half of `combine` on any two chains: a base label and, above it, the stack. -/
theorem gather_skims {l1 l2 : Nat} (trie : Trie b) (first : Denotes b l1 xs) (second : Denotes b l2 ys)
    (budget : l1 + l2 < fuel) : (b.gather fuel l1 l2).Ends fun s =>
      ∃ wanted, Gathered b wanted (l1 + l2) (if 0 < s.l1 then s.l1 else s.l2) s.stack := by
  have started : Skimming b (l1 + l2) ⟨l1,l2,maxLb,[]⟩ xs ys :=
    ⟨first,second,by simp,.nil,by simp [begins],by simp,by simp⟩
  have walk := gather_rule trie.laid (fun s => ∃ xs' ys', Skimming b (l1 + l2) s xs' ys') (fun l => l) ?_ ?_ ?_
    ⟨xs,ys,started⟩ budget
  · refine walk.imp ?_
    rintro s ⟨⟨xs',ys',k⟩,done⟩
    have short : s.stack.length ≤ l1 + l2 := by have := k.short; omega
    have base (c : Nat) (offs : List Nat) (denotes : Denotes b c offs) (part : ∀ v ∈ offs, v ∈ xs' ∨ v ∈ ys') :
        Gathered b (fun v => v ∈ offs ∨ v ∈ b.begins s.stack) (l1 + l2) c s.stack := by
      refine ⟨k.labels,k.ascending,⟨offs,denotes,fun v member w stacked => ?_,fun _ => Iff.rfl⟩,short⟩
      have some : s.stack ≠ [] := by
        intro empty
        simp [empty,begins] at stacked
      exact Nat.le_trans (k.below some v (part v member)) (k.above w stacked)
    split
    · exact ⟨_,base s.l1 xs' k.first fun _ => .inl⟩
    · exact ⟨_,base s.l2 ys' k.second fun _ => .inr⟩
  · rintro s ⟨xs',ys',k⟩
    exact ⟨trie.parent_lt s.l1 (trie.label_lt k.first.isLabel),trie.parent_lt s.l2 (trie.label_lt k.second.isLabel)⟩
  · rintro s ⟨xs',ys',k⟩ nonzero larger
    obtain ⟨rest,next⟩ := k.take trie nonzero fun v member => by
      by_cases zero : s.l2 = 0
      · have none : ys' = [] := (zero ▸ k.second : Denotes b 0 ys').eq_nil
        simp [none] at member
      · exact Nat.le_trans (k.second.begin_le trie zero v member) larger
    exact ⟨rest,ys',next⟩
  · rintro s ⟨xs',ys',k⟩ nonzero nonzero2 less
    obtain ⟨rest,next⟩ := k.swap.take trie nonzero2 fun v member =>
      Nat.le_trans (k.first.begin_le trie nonzero v member) (Nat.le_of_lt less)
    refine ⟨xs',rest,?_⟩
    have back := next.swap
    unfold Gather.note at back ⊢
    dsimp only at back ⊢
    split at back <;> (rename_i h; simpa only [h,ite_true,ite_false] using back)

theorem gather_sorted {m1 m2 : Nat} (trie : Trie b) (first : Denotes b m1 xs) (second : Denotes b m2 ys)
    (budget : m1 + m2 < fuel) : (b.gather fuel (min m1 m2) (max m1 m2)).Ends fun s =>
      ∃ wanted, Gathered b wanted (m1 + m2) (if 0 < s.l1 then s.l1 else s.l2) s.stack := by
  rcases Nat.le_total m1 m2 with le | le
  · rw [Nat.min_eq_left le,Nat.max_eq_right le]
    exact gather_skims trie first second budget
  · rw [Nat.min_eq_right le,Nat.max_eq_left le,Nat.add_comm m1]
    exact gather_skims trie second first (by omega)

/-- A union of any two labels is a label, and every chain stays as it was. -/
theorem combine_grows {f g : Bool} {m1 m2 : Nat} (trie : Trie b) (first : Denotes b m1 xs)
    (second : Denotes b m2 ys) (budget : 2 ^ 32 < fuel) :
    (b.combine fuel (flagged f m1) (flagged g m2)).Ends fun r =>
      ∃ m offs, r.2 = flagged (f || g) m ∧ Grown b r.1 m offs := by
  have small1 := trie.laid.label_small first.isLabel
  have small2 := trie.laid.label_small second.isLabel
  refine combine_rule small1 small2 ?_ ?_ fun _ _ => ?_
  · exact fun _ => ⟨m2,ys,rfl,trie,Keeps.refl b,second⟩
  · exact fun _ => ⟨m1,xs,rfl,trie,Keeps.refl b,first⟩
  refine (gather_sorted trie first second (by omega)).imp ?_
  rintro s ⟨wanted,g⟩
  obtain ⟨offs,denotes,refill,-,-⟩ := g.refill trie
  have short := g.short
  refine (reinsert_ends refill (by omega) budget).imp ?_
  rintro ⟨b',m⟩ appends
  exact ⟨m,_,rfl,appends.grown trie denotes⟩

/-- What `insert` returns stands for the one offset. -/
theorem insert_grows (trie : Trie b) (fits : pos + 1 < 2 ^ 32) (budget : pos + 1 < fuel) :
    (b.insert fuel pos).Ends fun r => Grown b r.1 r.2 [pos] := by
  rw [insert_eq]
  have start := trie.root_end
  refine (appendOffset_ends trie isLabel_zero (by rw [start]; omega) budget).imp ?_
  intro r appended
  rw [start,Nat.zero_add] at appended
  have labelled := appended.labelled trie isLabel_zero
  exact ⟨labelled.trie,labelled.keeps,labelled.denotes trie .root⟩

/-- The one segment of a label for one offset is listed unless it begins at `MAX_LB` or after it. -/
theorem find_one (trie : Trie b) (denotes : Denotes b l [pos]) :
    Returns (fun fuel => b.find fuel l) (if pos < maxLb then [(b.node l).seg] else []) ∧
      (b.node l).seg.begin = pos ∧ (b.node l).seg.end_ = pos + 1 := by
  have nonzero : l ≠ 0 := by
    rintro rfl
    exact absurd denotes.eq_nil (by simp)
  obtain ⟨rest,eq,parent⟩ := denotes.cons_of_ne_zero nonzero
  obtain ⟨begins,rfl⟩ := List.cons.inj eq
  have top : (b.node l).parent = 0 := by
    by_contra some
    obtain ⟨_,eq,_⟩ := parent.cons_of_ne_zero some
    simp at eq
  refine ⟨⟨2,fun fuel enough => ?_⟩,begins.symm,begins ▸ trie.label_end denotes.isLabel nonzero⟩
  obtain ⟨k,rfl⟩ : ∃ k, fuel = k + 2 := ⟨fuel - 2,by omega⟩
  have mask : l &&& lbMask = l := flagged_and_mask (trie.laid.label_small denotes.isLabel) false
  have left (lastBegin : Nat) (tagList : List TagSeg) :
      loop (findPass b) (k + 1) (0,lastBegin,tagList) = .returned tagList := rfl
  show b.find (k + 2) l = _
  unfold find
  rw [mask,loop_succ]
  simp only [findPass,if_pos (Nat.pos_of_ne_zero nonzero),← begins,top]
  by_cases low : pos < maxLb
  · simp [low,left]
  · simp [low,left]

end BDDTag

/-! Processes that call `insert` for any offset that has a byte after it. -/

/-- The nodes, and the labels that were returned. -/
structure Process where
  tag : BDDTag
  labels : List Nat

/-- A label to combine: zero, one returned before, either with LEN set. -/
inductive Held (labels : List Nat) : Nat → Prop where
  | zero : Held labels 0
  | returned : l ∈ labels → Held labels l
  | withLen : Held labels l → Held labels (l ||| lenLb)

namespace Process

def start : Process := ⟨.new,[]⟩

inductive Step (p : Process) : Call → Process → Prop where
  | insert : pos + 1 < 2 ^ 32 → Returns (fun fuel => p.tag.insert fuel pos) (b,l) →
      Step p (.insert pos) ⟨b,l :: p.labels⟩
  | combine : Held p.labels l1 → Held p.labels l2 → Returns (fun fuel => p.tag.combine fuel l1 l2) (b,l) →
      Step p (.combine l1 l2) ⟨b,l :: p.labels⟩

open BDDTag

structure Invariant (p : Process) : Prop where
  trie : Trie p.tag
  chains : ∀ l ∈ p.labels, ∃ f m offs, l = flagged f m ∧ Denotes p.tag m offs

variable {p next q : Process} {b : BDDTag} {l l1 l2 m pos fuel : Nat} {offs : List Nat}

theorem Invariant.held (inv : Invariant p) (held : Held p.labels l) :
    ∃ f m offs, l = flagged f m ∧ Denotes p.tag m offs := by
  induction held with
  | zero => exact ⟨false,0,[],rfl,.root⟩
  | returned member => exact inv.chains _ member
  | withLen _ ih =>
    obtain ⟨f,m,offs,rfl,denotes⟩ := ih
    exact ⟨true,m,offs,flagged_or_lenLb f m,denotes⟩

theorem Invariant.grow {f : Bool} (inv : Invariant p) (grown : Grown p.tag b m offs) :
    Invariant ⟨b,flagged f m :: p.labels⟩ := by
  refine ⟨grown.trie,fun l member => ?_⟩
  rcases List.mem_cons.mp member with rfl | member
  · exact ⟨f,m,offs,rfl,grown.denotes⟩
  · obtain ⟨f,m,offs,rfl,denotes⟩ := inv.chains l member
    exact ⟨f,m,offs,rfl,denotes.keep inv.trie grown.keeps⟩

theorem Invariant.combine_ends (inv : Invariant p) (first : Held p.labels l1) (second : Held p.labels l2)
    (budget : 2 ^ 32 < fuel) : (p.tag.combine fuel l1 l2).Ends fun r =>
      ∃ f m offs, r.2 = flagged f m ∧ Grown p.tag r.1 m offs := by
  obtain ⟨f,m1,xs,rfl,denotes1⟩ := inv.held first
  obtain ⟨g,m2,ys,rfl,denotes2⟩ := inv.held second
  refine (combine_grows inv.trie denotes1 denotes2 budget).imp ?_
  rintro r ⟨m,offs,label,grown⟩
  exact ⟨_,m,offs,label,grown⟩

/-- One call leaves every chain as it was. -/
theorem step_keeps {call : Call} (inv : Invariant p) (step : Step p call next) :
    Invariant next ∧ Keeps p.tag next.tag := by
  cases step with
  | insert fits returns =>
    have grown := returns.post ⟨2 ^ 32 + 1,fun fuel h => insert_grows inv.trie fits (by omega)⟩
    exact ⟨inv.grow (f := false) grown,grown.keeps⟩
  | combine first second returns =>
    obtain ⟨f,m,offs,rfl,grown⟩ := returns.post
      ⟨2 ^ 32 + 1,fun fuel h => inv.combine_ends first second (by omega)⟩
    exact ⟨inv.grow grown,grown.keeps⟩

theorem run_keeps {calls : List Call} (run : Run Step p calls q) (inv : Invariant p) :
    Invariant q ∧ Keeps p.tag q.tag := by
  have kept := run.invariant (fun r => Invariant r ∧ Keeps p.tag r.tag) ?_ ⟨inv,Keeps.refl _⟩
  · exact kept
  · rintro r call next ⟨invR,keeps⟩ step
    obtain ⟨invNext,kept⟩ := step_keeps invR step
    exact ⟨invNext,keeps.trans kept⟩

theorem run_invariant {calls : List Call} (run : Run Step start calls p) : Invariant p :=
  (run_keeps run ⟨trie_new,by simp [start]⟩).1

/-- The label that `insert` returned for an offset is listed by `find` as the one segment of that
offset, now and after any further calls, exactly if the offset lies below `MAX_LB`. -/
theorem find_insert_iff {calls later : List Call} (run : Run Step start calls p) (fits : pos + 1 < 2 ^ 32)
    (returns : Returns (fun fuel => p.tag.insert fuel pos) (b,l)) (after : Run Step ⟨b,l :: p.labels⟩ later q) :
    (∃ seg, Returns (fun fuel => q.tag.find fuel l) [seg] ∧ seg.begin = pos ∧ seg.end_ = pos + 1) ↔ pos < maxLb := by
  have inv := run_invariant run
  have grown := returns.post ⟨2 ^ 32 + 1,fun fuel h => insert_grows inv.trie fits (by omega)⟩
  obtain ⟨invQ,keeps⟩ := run_keeps after (inv.grow (f := false) grown)
  obtain ⟨found,begins,ends⟩ := find_one invQ.trie (grown.denotes.keep grown.trie keeps)
  constructor
  · rintro ⟨seg,listed,-⟩
    by_contra high
    rw [if_neg high] at found
    exact List.cons_ne_nil _ _ (listed.unique found)
  · intro low
    rw [if_pos low] at found
    exact ⟨_,found,begins,ends⟩

/-- A later offset splits the gap before the first one, and both are combined. -/
theorem find_insert_iff_split : ∃ q, Run Step start [.insert 5,.insert 3,.combine 2 4] q ∧
    ∃ seg, Returns (fun fuel => q.tag.find fuel 2) [seg] ∧ seg.begin = 5 ∧ seg.end_ = 6 := by
  have first : ∃ b, Returns (fun fuel => start.tag.insert fuel 5) (b,2) ∧
      ∃ q, Run Step ⟨b,[2]⟩ [.insert 3,.combine 2 4] q :=
    ⟨_,(insert_steady _ _).returns (n := 7) rfl,_,
      .cons (.insert (l := 4) (by decide) ((insert_steady _ _).returns (n := 7) rfl)) <|
      .cons (.combine (l := 6) (.returned (.tail _ (.head _))) (.returned (.head _))
        ((combine_steady _ _ _).returns (n := 7) rfl)) .nil⟩
  obtain ⟨b,returns,q,after⟩ := first
  refine ⟨q,.cons (.insert (by decide) returns) after,?_⟩
  exact (find_insert_iff (p := start) .nil (by decide) returns after).mpr (by decide)

/-- The byte after the first 16 MiB has a label that `find` lists nothing for. -/
theorem insert_not_found : ¬ ∀ calls p pos b l, Run Step start calls p → pos + 1 < 2 ^ 32 →
    Returns (fun fuel => p.tag.insert fuel pos) (b,l) →
    ∃ seg, Returns (fun fuel => b.find fuel l) [seg] ∧ seg.begin = pos ∧ seg.end_ = pos + 1 := by
  intro claim
  have inserted : ∃ b, Returns (fun fuel => start.tag.insert fuel 0x1000000) (b,2) :=
    ⟨_,(insert_steady _ _).returns (n := 7) rfl⟩
  obtain ⟨b,returns⟩ := inserted
  obtain ⟨seg,listed,-⟩ := claim [] start 0x1000000 b 2 .nil (by decide) returns
  have grown := returns.post ⟨2 ^ 32 + 1,fun fuel h => insert_grows trie_new (by decide) (by omega)⟩
  have nothing := (find_one grown.trie grown.denotes).1
  exact List.cons_ne_nil _ _ (listed.unique nothing)

/-- The calls come to an end, unless they find the node vector full and stop the process. -/
theorem terminates {calls : List Call} (run : Run Step start calls p) :
    (∀ pos, pos + 1 < 2 ^ 32 → Terminates fun fuel => p.tag.insert fuel pos) ∧
    ∀ l1 l2, Held p.labels l1 → Held p.labels l2 → Terminates fun fuel => p.tag.combine fuel l1 l2 := by
  have inv := run_invariant run
  constructor
  · exact fun pos fits => .of_ends ⟨2 ^ 32 + 1,fun fuel h => insert_grows inv.trie fits (by omega)⟩
  · exact fun l1 l2 first second => .of_ends ⟨2 ^ 32 + 1,fun fuel h => inv.combine_ends first second (by omega)⟩

end Process

end Libdft.BddTag
