import Libdft.BddMerge
import Libdft.BddSession
import Mathlib.Order.Interval.Finset.Nat

/-! Runs in which a label just inserted may be widened at once by `set_size`. Each label keeps the
bytes it was handed out for as long as no call takes one of three branches: `set_size` on a node
that was there before, a segment left out because another one begins where it does, and a walk of
`insert_n_ones` that hangs a segment below a node it has gone past. -/
namespace Libdft.BddTag.BDDTag

variable {b b' b₁ : BDDTag} {z c cur last l pos n fuel m1 m2 : Nat}

/-- Nothing hangs at the position yet. -/
def Vacant (b : BDDTag) (pos : Nat) : Prop :=
  ∀ z, Spine b root z → (b.node z).seg.end_ = pos → (b.node z).right = 0

/-- What the two loops of `combine` read off both chains fits the trie. -/
structure Mergeable (b : BDDTag) (m1 m2 : Nat) : Prop where
  untied : Untied b (min m1 m2) (max m1 m2)
  aligned : ∀ s, Returns (fun fuel => b.gather fuel (min m1 m2) (max m1 m2)) s →
    Aligned b s.base (fun v => b.Has v (min m1 m2) ∨ b.Has v (max m1 m2)) s.stack

theorem insertRuns_ends (trie : SegTrie b) (fits : pos + 1 < 2 ^ 32) (budget : pos + 1 < fuel) :
    (b.insert fuel pos).Ends fun r => ∃ b₁ z, ZeroRun b root root pos b₁ z ∧ OneRun b₁ z root 1 r.1 r.2 := by
  have label : b.IsLabel root := isLabel_zero
  have start : (b.node root).seg.end_ = 0 := trie.root_end
  refine (insertNZeros_ends trie.toLaid (trie.toLaid.label_lt label) (by rw [start]; omega) (by omega)).bind ?_
  rintro ⟨b₁,z⟩ run
  dsimp only at run
  obtain ⟨trie₁,bound,_,ends⟩ := run.placed trie label (by rw [start]; omega)
  rw [start] at ends
  have whole : Whole b₁ z ((b₁.node z).seg.end_ + 1) := by
    intro some short
    have := trie₁.toLaid.right_end bound some
    omega
  exact (runNOnes_ends trie₁ bound (by omega) Nat.one_pos (by omega) whole).imp fun r ones => ⟨b₁,z,run,ones⟩

/-- A run of zeros from the root and a segment after it. -/
theorem OneRun.gained_root (ones : OneRun b₁ z root n b' l) (run : ZeroRun b root root pos b₁ z) (trie : SegTrie b)
    (positive : 0 < n) (fits : pos + n < 2 ^ 32) : Gained b b' root root pos (pos + n) l := by
  have label : b.IsLabel root := isLabel_zero
  have start : (b.node root).seg.end_ = 0 := trie.root_end
  obtain ⟨trie₁,bound,heads,ends⟩ := run.placed trie label (by rw [start]; omega)
  rw [start,Nat.zero_add] at ends
  have gained := ones.gained trie₁ bound heads positive (by omega)
  rw [ends] at gained
  exact run.gained trie label fun _ _ => gained

theorem node_setSize (inside : cur < b.size) (i : Nat) : (b.setSize cur n).node i =
    if i = cur then { b.node i with seg := { (b.node i).seg with
      end_ := tagOff ((b.node i).seg.end_ + (n + 2 ^ 64 - 1)) } } else b.node i :=
  node_modify _ inside i

theorem setSize_one (laid : Laid b) (inside : cur < b.size) : SameShape b (b.setSize cur 1) := by
  have fits := laid.end_lt cur inside
  have total : tagOff ((b.node cur).seg.end_ + (1 + 2 ^ 64 - 1)) = (b.node cur).seg.end_ := by
    unfold tagOff; omega
  have same (i : Nat) : (b.setSize cur 1).node i = b.node i := by
    rw [node_setSize inside]
    split
    next here => rw [here,total]
    next => rfl
  constructor
  case size => exact size_setSeg _
  all_goals
    intro i
    rw [same i]

/-- A fresh segment below which nothing hangs is as good as one of the new size. -/
theorem Shot.sized (shot : Shot b b' cur last 1) (free : (b.node cur).right = 0) (positive : 0 < n)
    (fits : (b.node cur).seg.end_ + n < 2 ^ 32) : Shot b (b'.setSize b.size n) cur last n := by
  have fresh : b.size < b'.size := by rw [shot.size]; omega
  have old (i : Nat) (bound : i < b.size) : (b'.setSize b.size n).node i = b'.node i := by
    rw [node_setSize fresh,if_neg (Nat.ne_of_lt bound)]
  have kept (i : Nat) : ¬ (i ≠ 0 ∧ i = (b.node cur).right) := fun moved => moved.1 (moved.2.trans free)
  constructor
  case size => exact (size_setSeg _).trans shot.size
  case fresh =>
    rw [node_setSize fresh,if_pos rfl,shot.fresh,free]
    have total : tagOff ((b.node cur).seg.end_ + 1 + (n + 2 ^ 64 - 1)) = (b.node cur).seg.end_ + n := by
      unfold tagOff; omega
    simp only [total]
  case left => exact fun i bound => by rw [old i bound,shot.left i bound]
  case right => exact fun i bound => by rw [old i bound,shot.right i bound]
  case parent => exact fun i bound => by rw [old i bound,shot.parent i bound]
  case end_ => exact fun i bound => by rw [old i bound,shot.end_ i bound]
  case begin => exact fun i bound => by rw [old i bound,shot.begin i bound,if_neg (kept i),if_neg (kept i)]
  case longer => exact fun nonzero => absurd free nonzero
  case alone => exact shot.alone

/-- `set_size` on the label just inserted at a vacant position. -/
theorem Vacant.sized (vacant : Vacant b pos) (run : ZeroRun b root root pos b₁ z) (ones : OneRun b₁ z root 1 b' l)
    (trie : SegTrie b) (positive : 0 < n) (fits : pos + n < 2 ^ 32) :
    Gained b (b'.setSize l n) root root pos (pos + n) l := by
  have label : b.IsLabel root := isLabel_zero
  have start : (b.node root).seg.end_ = 0 := trie.root_end
  obtain ⟨trie₁,bound,_,ends⟩ := run.placed trie label (by rw [start]; omega)
  rw [start,Nat.zero_add] at ends
  have free : (b₁.node z).right = 0 := by
    cases run with
    | found spine _ => exact vacant z spine ends
    | hung _ hung _ _ _ _ => rw [hung.fresh]
  have resized : OneRun b₁ z root n (b'.setSize l n) l := by
    cases ones with
    | found rights _ => exact absurd free rights.tail.1
    | shot shot room => exact .shot (shot.sized free positive (by omega)) room
  exact resized.gained_root run trie positive fits

/-- The result of a call and the bytes that it is for. -/
structure Handed (b b' : BDDTag) (wanted : Nat → Prop) (l : Nat) : Prop where
  trie : SegTrie b'
  preserves : Preserves b b'
  label : b'.IsLabel l
  has : ∀ v, wanted v ↔ b'.Has v l

theorem Gained.handed {lo hi : Nat} (gained : Gained b b' root root lo hi l) :
    Handed b b' (fun v => lo ≤ v ∧ v < hi) l where
  trie := gained.trie
  preserves := gained.preserves
  label := gained.label
  has v := by
    rw [gained.has v]
    exact (or_iff_right not_has_zero).symm

theorem Handed.congr {wanted wanted' : Nat → Prop} (handed : Handed b b' wanted l) (same : ∀ v, wanted' v ↔ wanted v) :
    Handed b b' wanted' l :=
  ⟨handed.trie,handed.preserves,handed.label,fun v => (same v).trans (handed.has v)⟩

theorem unite_ends {f g : Bool} (trie : SegTrie b) (label1 : b.IsLabel m1) (label2 : b.IsLabel m2)
    (small1 : m1 ≠ 0 → (b.node m1).seg.begin < maxLb) (small2 : m2 ≠ 0 → (b.node m2).seg.begin < maxLb)
    (mergeable : Mergeable b m1 m2) (budget : 2 ^ 33 < fuel) :
    (b.combine fuel (flagged f m1) (flagged g m2)).Ends fun r =>
      ∃ m, r.2 = flagged (f || g) m ∧ Handed b r.1 (fun v => b.Has v m1 ∨ b.Has v m2) m := by
  have laid := trie.toLaid
  have lt1 := laid.label_small label1
  have lt2 := laid.label_small label2
  have own {m : Nat} (label : b.IsLabel m) : Handed b b (fun v => b.Has v m) m := ⟨trie,.refl b,label,fun _ => Iff.rfl⟩
  refine combine_rule lt1 lt2 ?_ ?_ fun _ _ => ?_
  · rintro rfl
    exact ⟨m2,rfl,(own label2).congr fun v => or_iff_right not_has_zero⟩
  · rintro (rfl | rfl)
    · exact ⟨m1,rfl,(own label1).congr fun v => or_iff_left not_has_zero⟩
    · exact ⟨m1,rfl,(own label1).congr fun v => or_self_iff⟩
  have bytes (v : Nat) : b.Has v m1 ∨ b.Has v m2 ↔ b.Has v (min m1 m2) ∨ b.Has v (max m1 m2) := by
    rcases Nat.le_total m1 m2 with le | le
    · rw [Nat.min_eq_left le,Nat.max_eq_right le]
    · rw [Nat.min_eq_right le,Nat.max_eq_left le,or_comm]
  have read : (b.gather fuel (min m1 m2) (max m1 m2)).Ends fun s =>
      Reading b (min m1 m2) (max m1 m2) s ∧ ¬ (0 < s.l1 ∧ s.l1 ≠ s.l2) := by
    have untied := mergeable.untied
    rcases Nat.le_total m1 m2 with le | le
    · rw [Nat.min_eq_left le,Nat.max_eq_right le] at untied ⊢
      exact gather_reads laid label1 label2 small1 small2 untied budget
    · rw [Nat.min_eq_right le,Nat.max_eq_left le] at untied ⊢
      exact gather_reads laid label2 label1 small2 small1 untied budget
  cases gathered : b.gather fuel (min m1 m2) (max m1 m2) with
  | trapped => trivial
  | running => exact absurd gathered read.not_running
  | returned s =>
    obtain ⟨r,ended⟩ := read.of_eq gathered
    obtain ⟨base,solid,exact⟩ := r.done laid ended
    have aligned := mergeable.aligned s ((loop_steady_fixed _ _).returns gathered)
    have filling : Filling b s.base (fun v => b.Has v (min m1 m2) ∨ b.Has v (max m1 m2)) s.stack :=
      ⟨trie,base,r.pile.labels,exact,solid,r.pile.ascending.imp .inl,aligned⟩
    have short := r.short
    have fits (m : Nat) (label : b.IsLabel m) := laid.end_lt m (laid.label_lt label)
    have deep : s.stack.length < fuel := by
      have := fits m1 label1
      have := fits m2 label2
      rcases Nat.le_total m1 m2 with le | le
      · rw [Nat.min_eq_left le,Nat.max_eq_right le] at short
        omega
      · rw [Nat.min_eq_right le,Nat.max_eq_left le] at short
        omega
    refine (refill_ends filling deep (by omega)).imp ?_
    rintro ⟨b',m⟩ ⟨preserves,done⟩
    dsimp only at preserves done
    refine ⟨m,rfl,done.trie,preserves,done.label,fun v => ?_⟩
    rw [bytes v,done.exact v,or_iff_left]
    rintro ⟨c,member,_⟩
    simp at member

/-- The walk of `find`: the begins fall from one segment to the next. -/
theorem find_chain (laid : Laid b) (label : b.IsLabel c) :
    ∃ segs : List TagSeg, (∀ v, b.Has v c ↔ ∃ seg ∈ segs, seg.begin ≤ v ∧ v < seg.end_) ∧
      ∀ lastBegin tagList fuel, (c ≠ 0 → (b.node c).seg.begin < lastBegin) → (b.node c).seg.end_ < fuel →
        loop (findPass b) fuel (c,lastBegin,tagList) = .returned (tagList ++ segs) := by
  refine laid.label_induction (motive := fun c => ∃ segs : List TagSeg,
    (∀ v, b.Has v c ↔ ∃ seg ∈ segs, seg.begin ≤ v ∧ v < seg.end_) ∧
      ∀ lastBegin tagList fuel, (c ≠ 0 → (b.node c).seg.begin < lastBegin) → (b.node c).seg.end_ < fuel →
        loop (findPass b) fuel (c,lastBegin,tagList) = .returned (tagList ++ segs)) ?_ ?_ label
  · refine ⟨[],fun v => iff_of_false not_has_zero (by simp),fun lastBegin tagList fuel _ budget => ?_⟩
    obtain ⟨k,rfl⟩ := Nat.exists_eq_add_of_lt budget
    rw [List.append_nil]
    rfl
  · rintro l label nonzero ⟨segs,bytes,walk⟩
    have bound := laid.label_lt label
    refine ⟨(b.node l).seg :: segs,fun v => ?_,fun lastBegin tagList fuel small budget => ?_⟩
    · rw [has_iff nonzero,bytes v]
      simp
    · obtain ⟨k,rfl⟩ : ∃ k, fuel = k + 1 := ⟨fuel - 1,by omega⟩
      have before := laid.parent_before bound nonzero
      have low := laid.parent_end l bound nonzero
      have pass : findPass b (l,lastBegin,tagList) = .returned (.again ((b.node l).parent,
          (b.node l).seg.begin,tagList ++ [(b.node l).seg])) := by
        unfold findPass
        dsimp only
        rw [if_pos (Nat.pos_of_ne_zero nonzero),if_pos (small nonzero)]
        rfl
      rw [loop_succ,pass,Outcome.returned_bind]
      dsimp only
      have falls (some : (b.node l).parent ≠ 0) : (b.node (b.node l).parent).seg.begin < (b.node l).seg.begin :=
        Nat.lt_of_lt_of_le (laid.span _ (laid.label_lt (laid.parent_label l bound)) some) low
      rw [walk _ _ k falls (by omega),List.append_assoc]
      rfl

end Libdft.BddTag.BDDTag

namespace Libdft.BddTag

/-- `find` returns, and the segments it lists cover exactly the given offsets. -/
def Spans (b : BDDTag) (l : Nat) (offsets : Finset Nat) : Prop :=
  ∃ segs, Returns (fun fuel => b.find fuel l) segs ∧
    ∀ v, v ∈ offsets ↔ ∃ seg ∈ segs, seg.begin ≤ v ∧ v < seg.end_

/-- `sized` is `insert` followed at once by `set_size` on the label it returned. -/
inductive SegCall where
  | insert (pos : Nat)
  | sized (pos n : Nat)
  | combine (l1 l2 : Nat)

/-- What a label stands for, when it has been handed out for these offsets. -/
structure Stands (b : BDDTag) (label : Nat) (offsets : Finset Nat) (hasLen : Bool) : Prop where
  exact : ∃ lb, label = BDDTag.flagged hasLen lb ∧ b.IsLabel lb ∧ ∀ v, v ∈ offsets ↔ b.Has v lb
  small : ∀ v ∈ offsets, v < maxLb

namespace Stands

variable {b b' : BDDTag} {label l : Nat} {offsets : Finset Nat} {hasLen : Bool}

theorem keep (stands : Stands b label offsets hasLen) (preserves : b.Preserves b') : Stands b' label offsets hasLen := by
  obtain ⟨lb,flags,isLabel,exact⟩ := stands.exact
  exact ⟨⟨lb,flags,preserves.label lb isLabel,fun v => (exact v).trans (preserves.has lb isLabel v).symm⟩,stands.small⟩

/-- The first byte of a label is one of its bytes. -/
theorem begin_small (stands : Stands b label offsets hasLen) (laid : b.Laid) (isLabel : b.IsLabel l)
    (exact : ∀ v, v ∈ offsets ↔ b.Has v l) (nonzero : l ≠ 0) : (b.node l).seg.begin < maxLb :=
  stands.small _ ((exact _).mpr (.own nonzero (Nat.le_refl _) (laid.span l (laid.label_lt isLabel) nonzero)))

theorem spans (stands : Stands b label offsets hasLen) (laid : b.Laid) : Spans b label offsets := by
  obtain ⟨lb,rfl,isLabel,exact⟩ := stands.exact
  obtain ⟨segs,bytes,walk⟩ := BDDTag.find_chain laid isLabel
  have covers (v : Nat) : v ∈ offsets ↔ ∃ seg ∈ segs, seg.begin ≤ v ∧ v < seg.end_ := (exact v).trans (bytes v)
  have fits := laid.end_lt lb (laid.label_lt isLabel)
  have found (fuel : Nat) (budget : 2 ^ 32 ≤ fuel) : b.find fuel (BDDTag.flagged hasLen lb) =
      .returned (if 1 < segs.length then segs.reverse else segs) := by
    unfold BDDTag.find
    rw [BDDTag.flagged_and_mask (laid.label_small isLabel)]
    rw [walk maxLb [] fuel (stands.begin_small laid isLabel exact) (by omega),Outcome.returned_bind,List.nil_append]
    rfl
  refine ⟨_,⟨2 ^ 32,found⟩,fun v => ?_⟩
  rw [covers v]
  split
  · simp only [List.mem_reverse]
  · rfl

end Stands

namespace Session

inductive SegStep (s : Session) : SegCall → Session → Prop where
  | insert : pos < maxLb → Returns (fun fuel => s.tag.insert fuel pos) (b,l) →
      SegStep s (.insert pos) ⟨b,⟨l,{pos},false⟩ :: s.log⟩
  | sized : 0 < n → pos + n ≤ maxLb → Returns (fun fuel => s.tag.insert fuel pos) (b,l) →
      SegStep s (.sized pos n) ⟨b.setSize l n,⟨l,Finset.Ico pos (pos + n),false⟩ :: s.log⟩
  | combine : Operand s.log l1 offsets1 hasLen1 → Operand s.log l2 offsets2 hasLen2 →
      Returns (fun fuel => s.tag.combine fuel l1 l2) (b,l) →
      SegStep s (.combine l1 l2) ⟨b,⟨l,offsets1 ∪ offsets2,hasLen1 || hasLen2⟩ :: s.log⟩

/-- Every label handed out so far covers the offsets it was handed out for: a byte, the bytes that
`set_size` gave it, or what both operands covered. -/
def Faithful (s : Session) : Prop := ∀ e ∈ s.log, Spans s.tag e.label e.offsets

/-- The call takes none of the branches that lose or change bytes. -/
def Harmless (s : Session) : SegCall → Prop
  | .insert _ => True
  | .sized pos n => n = 1 ∨ s.tag.Vacant pos
  | .combine l1 l2 => s.tag.Mergeable (l1 &&& lbMask) (l2 &&& lbMask)

variable {s next : Session} {l : Nat} {offsets : Finset Nat} {hasLen : Bool}

structure SegInvariant (s : Session) : Prop where
  trie : s.tag.SegTrie
  stands : ∀ e ∈ s.log, Stands s.tag e.label e.offsets e.hasLen

theorem segInvariant_start : SegInvariant start := ⟨BDDTag.segTrie_new,by simp [start]⟩

theorem SegInvariant.operand (inv : SegInvariant s) (operand : Operand s.log l offsets hasLen) :
    Stands s.tag l offsets hasLen := by
  induction operand with
  | zero => exact ⟨⟨0,rfl,BDDTag.isLabel_zero,fun v => iff_of_false (by simp) BDDTag.not_has_zero⟩,by simp⟩
  | logged member => exact inv.stands _ member
  | withLen _ ih =>
    obtain ⟨lb,rfl,isLabel,exact⟩ := ih.exact
    exact ⟨⟨lb,BDDTag.flagged_or_lenLb _ lb,isLabel,exact⟩,ih.small⟩

theorem SegInvariant.grow {b : BDDTag} {m : Nat} (inv : SegInvariant s) (f : Bool)
    (handed : s.tag.Handed b (· ∈ offsets) m) (small : ∀ v ∈ offsets, v < maxLb) :
    SegInvariant ⟨b,⟨BDDTag.flagged f m,offsets,f⟩ :: s.log⟩ := by
  refine ⟨handed.trie,fun e member => ?_⟩
  rcases List.mem_cons.mp member with rfl | member
  · exact ⟨⟨m,rfl,handed.label,handed.has⟩,small⟩
  · exact (inv.stands e member).keep handed.preserves

theorem SegInvariant.insert {b : BDDTag} {pos : Nat} (inv : SegInvariant s) (small : pos < maxLb)
    (returns : Returns (fun fuel => s.tag.insert fuel pos) (b,l)) :
    ∃ b₁ z, s.tag.ZeroRun root root pos b₁ z ∧ b₁.OneRun z root 1 b l := by
  have bound : pos < 2 ^ 24 := Nat.lt_trans small (by decide)
  exact returns.post ⟨2 ^ 32,fun fuel enough => BDDTag.insertRuns_ends inv.trie (by omega) (by omega)⟩

theorem segStep_invariant {call : SegCall} (inv : SegInvariant s) (step : Guarded Harmless SegStep s call next) :
    SegInvariant next := by
  obtain ⟨harmless,step⟩ := step
  cases step with
  | @insert pos _ _ small returns =>
    obtain ⟨_,_,run,ones⟩ := inv.insert small returns
    have bound : pos < 2 ^ 24 := Nat.lt_trans small (by decide)
    have gained := ones.gained_root run inv.trie Nat.one_pos (by omega)
    refine inv.grow false (gained.handed.congr fun v => ?_) (by simpa using small)
    rw [Finset.mem_singleton]
    omega
  | @sized n pos b _ positive small returns =>
    obtain ⟨_,_,run,ones⟩ := inv.insert (by omega) returns
    have bound : pos + n < 2 ^ 25 := Nat.lt_of_le_of_lt small (by decide)
    have within : ∀ v ∈ Finset.Ico pos (pos + n), v < maxLb := by
      intro v member
      have := (Finset.mem_Ico.mp member).2
      omega
    rcases harmless with rfl | vacant
    · have gained := ones.gained_root run inv.trie Nat.one_pos (by omega)
      have same := BDDTag.setSize_one gained.trie.toLaid (gained.trie.toLaid.label_lt gained.label)
      have handed := gained.handed
      refine inv.grow false ⟨same.segTrie handed.trie,handed.preserves.trans same.preserves,
        same.preserves.label _ handed.label,fun v => ?_⟩ within
      rw [Finset.mem_Ico,same.preserves.has _ handed.label]
      exact handed.has v
    · have gained := BDDTag.Vacant.sized vacant run ones inv.trie positive (by omega)
      exact inv.grow false (gained.handed.congr fun v => Finset.mem_Ico) within
  | combine first second returns =>
    have stands1 := inv.operand first
    have stands2 := inv.operand second
    obtain ⟨m1,rfl,label1,exact1⟩ := stands1.exact
    obtain ⟨m2,rfl,label2,exact2⟩ := stands2.exact
    have laid := inv.trie.toLaid
    have mergeable : s.tag.Mergeable m1 m2 := by
      have both : s.tag.Mergeable (BDDTag.flagged _ m1 &&& lbMask) (BDDTag.flagged _ m2 &&& lbMask) := harmless
      rwa [BDDTag.flagged_and_mask (laid.label_small label1),BDDTag.flagged_and_mask (laid.label_small label2)] at both
    obtain ⟨m,rfl,handed⟩ := returns.post ⟨2 ^ 33 + 1,fun fuel enough => BDDTag.unite_ends inv.trie label1 label2
      (stands1.begin_small laid label1 exact1) (stands2.begin_small laid label2 exact2) mergeable (by omega)⟩
    refine inv.grow _ (handed.congr fun v => ?_) fun v member => ?_
    · rw [Finset.mem_union,exact1,exact2]
    · rcases Finset.mem_union.mp member with member | member
      · exact stands1.small v member
      · exact stands2.small v member

/-- In a run of harmless calls no label ever loses or gains a byte. -/
theorem faithful_of_harmless {calls : List SegCall} (run : Run (Guarded Harmless SegStep) start calls s) :
    Faithful s := by
  have inv := run.invariant SegInvariant (fun _ _ _ inv step => segStep_invariant inv step) segInvariant_start
  exact fun e member => (inv.stands e member).spans inv.trie.toLaid

theorem aligned_of_ends {b : BDDTag} {cur : Nat} {wanted : Nat → Prop} {stack : List Nat}
    (h : ∀ r < b.size, b.IsLabel r → ∀ d ∈ stack,
      ¬ ((b.node d).seg.begin < (b.node r).seg.end_ ∧ (b.node r).seg.end_ < (b.node d).seg.end_)) :
    BDDTag.Aligned b cur wanted stack := by
  intro r _ label _ pre d post split passed above under
  have member : d ∈ stack := by rw [split]; simp
  by_cases bound : r < b.size
  · exact absurd ⟨above,under⟩ (h r bound label d member)
  · have outside : b.nodes.size ≤ r := Nat.le_of_not_lt bound
    have blank : (b.node r).seg.end_ = 0 := by simp [BDDTag.node,outside,TagNode.make,tagOff]
    omega

theorem vacant_of_nodes {b : BDDTag} {pos : Nat}
    (h : ∀ z < b.size, (b.node z).seg.end_ = pos → (b.node z).right = 0) : b.Vacant pos := by
  intro z _ ends
  by_cases bound : z < b.size
  · exact h z bound ends
  · have outside : b.nodes.size ≤ z := Nat.le_of_not_lt bound
    simp [BDDTag.node,outside,TagNode.make]

/-- Two segments that touch, and their union: no label ends inside either. -/
theorem faithful_of_harmless_touching : ∃ s,
    Run (Guarded Harmless SegStep) start [.sized 5 3,.sized 8 2,.combine 2 4] s ∧ Faithful s := by
  let five : BDDTag := ⟨#[⟨1,0,0,⟨false,0,0⟩⟩,⟨0,2,0,⟨false,0,5⟩⟩,⟨0,0,0,⟨false,5,6⟩⟩]⟩
  let first := five.setSize 2 3
  let eight : BDDTag := ⟨#[⟨1,0,0,⟨false,0,0⟩⟩,⟨3,2,0,⟨false,0,5⟩⟩,⟨0,0,0,⟨false,5,8⟩⟩,
    ⟨0,4,0,⟨false,5,8⟩⟩,⟨0,0,0,⟨false,8,9⟩⟩]⟩
  let second := eight.setSize 4 2
  have one : Guarded Harmless SegStep start (.sized 5 3) ⟨first,[⟨2,Finset.Ico 5 8,false⟩]⟩ :=
    ⟨.inr (vacant_of_nodes (by decide)),
      .sized (by decide) (by decide) ((BDDTag.insert_steady _ _).returns (n := 12) (by decide))⟩
  have two : Guarded Harmless SegStep ⟨first,[⟨2,Finset.Ico 5 8,false⟩]⟩ (.sized 8 2)
      ⟨second,[⟨4,Finset.Ico 8 10,false⟩,⟨2,Finset.Ico 5 8,false⟩]⟩ :=
    ⟨.inr (vacant_of_nodes (by decide)),
      .sized (by decide) (by decide) ((BDDTag.insert_steady _ _).returns (n := 12) (by decide))⟩
  have mergeable : second.Mergeable 2 4 := by
    refine ⟨?_,fun s returns => ?_⟩
    · rintro c1 c2 (⟨_⟩ | ⟨_,up⟩) _ _ some
      · exact absurd rfl some
      · rcases up with ⟨nonzero⟩ | ⟨nonzero,_⟩ <;> exact absurd rfl nonzero
    · have read : Returns (fun fuel => second.gather fuel 2 4) ⟨0,0,5,[2,4]⟩ :=
        (loop_steady_fixed _ _).returns (n := 12) rfl
      obtain rfl := returns.unique read
      exact aligned_of_ends (by decide)
  let whole : BDDTag := ⟨#[⟨1,0,0,⟨false,0,0⟩⟩,⟨3,2,0,⟨false,0,5⟩⟩,⟨0,5,0,⟨false,5,8⟩⟩,
    ⟨0,4,0,⟨false,5,8⟩⟩,⟨0,0,0,⟨false,8,10⟩⟩,⟨0,0,2,⟨false,8,10⟩⟩]⟩
  let log : List Entry := [⟨4,Finset.Ico 8 10,false⟩,⟨2,Finset.Ico 5 8,false⟩]
  have left : Operand log 2 (Finset.Ico 5 8) false := .logged (.tail _ (.head _))
  have right : Operand log 4 (Finset.Ico 8 10) false := .logged (.head _)
  have union : Returns (fun fuel => second.combine fuel 2 4) (whole,5) :=
    (BDDTag.combine_steady _ _ _).returns (n := 12) (by decide)
  have three : Guarded Harmless SegStep ⟨second,log⟩ (.combine 2 4)
      ⟨whole,⟨5,Finset.Ico 5 8 ∪ Finset.Ico 8 10,false || false⟩ :: log⟩ := ⟨mergeable,.combine left right union⟩
  exact ⟨_,.cons one (.cons two (.cons three .nil)),faithful_of_harmless (.cons one (.cons two (.cons three .nil)))⟩

/-- The label of 1 has the label of 5 to its right; the union with 5 to 7 walks past that label and
hangs 6 and 7 below 1. -/
theorem walk_not_faithful : ¬ ∀ calls s, Run SegStep start calls s → Faithful s := by
  intro claim
  have run : ∃ b, Run SegStep start [.sized 5 3,.insert 1,.insert 5,.combine 4 6,.combine 4 2]
      ⟨b,[⟨9,{1} ∪ Finset.Ico 5 8,false⟩,⟨8,{1} ∪ {5},false⟩,⟨6,{5},false⟩,⟨4,{1},false⟩,⟨2,Finset.Ico 5 8,false⟩]⟩ ∧
      Returns (fun fuel => b.find fuel 9) [⟨false,1,2⟩,⟨false,6,8⟩] :=
    ⟨_,.cons (.sized (l := 2) (by decide) (by decide) ((BDDTag.insert_steady _ _).returns (n := 12) rfl)) <|
      .cons (.insert (l := 4) (by decide) ((BDDTag.insert_steady _ _).returns (n := 12) rfl)) <|
      .cons (.insert (l := 6) (by decide) ((BDDTag.insert_steady _ _).returns (n := 12) rfl)) <|
      .cons (.combine (l := 8) (.logged (.tail _ (.head _))) (.logged (.head _))
        ((BDDTag.combine_steady _ _ _).returns (n := 12) rfl)) <|
      .cons (.combine (l := 9) (.logged (.tail _ (.tail _ (.head _)))) (.logged (.tail _ (.tail _ (.tail _ (.head _)))))
        ((BDDTag.combine_steady _ _ _).returns (n := 12) rfl)) .nil,
      ((loop_steady_fixed _ _).bind fun _ => .const _).returns (n := 12) rfl⟩
  obtain ⟨b,run,found⟩ := run
  obtain ⟨segs,returns,covers⟩ := claim _ _ run _ (.head _)
  obtain rfl := found.unique returns
  have five := (covers 5).mp (by decide)
  simp at five

end Session

end Libdft.BddTag
