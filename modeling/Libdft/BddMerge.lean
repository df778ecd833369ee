import Libdft.BddSegments
import Libdft.BddSets

/-! `combine` on segments of any length. The first loop reads both chains of parents and changes
nothing; the second takes the stacked segments in, one after the other. What the two loops of the
insertion may find below the label reached so far is stated beforehand, of the state before. -/
namespace Libdft.BddTag.BDDTag

variable {b b' b'' : BDDTag} {i j r cur last lo hi num fuel : Nat} {wanted : Nat → Prop}

/-- The nodes that links lead to. -/
inductive Leads (b : BDDTag) (start : Nat) : Nat → Prop where
  | here : Leads b start start
  | left : Leads b start k → (b.node k).left ≠ 0 → Leads b start (b.node k).left
  | right : Leads b start k → (b.node k).right ≠ 0 → Leads b start (b.node k).right

namespace Leads

theorem trans (first : Leads b cur i) (second : Leads b i j) : Leads b cur j := by
  induction second with
  | here => exact first
  | left _ nonzero ih => exact ih.left nonzero
  | right _ nonzero ih => exact ih.right nonzero

theorem lt_size (leads : Leads b cur i) (laid : Laid b) (inside : cur < b.size) : i < b.size := by
  induction leads with
  | here => exact inside
  | left _ _ ih => exact laid.left_lt _ ih
  | right _ _ ih => exact laid.right_lt _ ih

theorem end_le (leads : Leads b cur i) (laid : Laid b) (inside : cur < b.size) :
    (b.node cur).seg.end_ ≤ (b.node i).seg.end_ := by
  induction leads with
  | here => exact Nat.le_refl _
  | left before nonzero ih => exact Nat.le_trans ih (Nat.le_of_lt (laid.left_end (before.lt_size laid inside) nonzero))
  | right before nonzero ih => exact Nat.le_trans ih (Nat.le_of_lt (laid.right_end (before.lt_size laid inside) nonzero))

theorem tail (leads : Leads b cur i) : i = cur ∨ ((b.node cur).left ≠ 0 ∧ Leads b (b.node cur).left i) ∨
    ((b.node cur).right ≠ 0 ∧ Leads b (b.node cur).right i) := by
  induction leads with
  | here => exact .inl rfl
  | left _ nonzero ih =>
    rcases ih with rfl | ⟨some,rest⟩ | ⟨some,rest⟩
    · exact .inr (.inl ⟨nonzero,.here⟩)
    · exact .inr (.inl ⟨some,rest.left nonzero⟩)
    · exact .inr (.inr ⟨some,rest.left nonzero⟩)
  | right _ nonzero ih =>
    rcases ih with rfl | ⟨some,rest⟩ | ⟨some,rest⟩
    · exact .inr (.inr ⟨nonzero,.here⟩)
    · exact .inr (.inl ⟨some,rest.right nonzero⟩)
    · exact .inr (.inr ⟨some,rest.right nonzero⟩)

end Leads

theorem Spine.leads (spine : Spine b cur i) : Leads b cur i := by
  induction spine with
  | here => exact .here
  | left _ nonzero ih => exact ih.left nonzero

theorem Rights.leads (rights : Rights b i j) : Leads b i j := by
  induction rights with
  | last nonzero => exact .right .here nonzero
  | next nonzero _ ih => exact (Leads.right .here nonzero).trans ih

/-- Above the node that gets the fresh segment no link changes. -/
theorem Shot.leads_old (shot : Shot b b' cur last num) (laid : Laid b) (inside : i < b.size)
    (above : (b.node cur).seg.end_ < (b.node i).seg.end_) (leads : Leads b' i r) : Leads b i r := by
  have other (k : Nat) (before : Leads b i k) : k ≠ cur := by
    rintro rfl
    exact absurd (before.end_le laid inside) (Nat.not_le_of_lt above)
  induction leads with
  | here => exact .here
  | left _ nonzero ih =>
    have same := shot.left _ (ih.lt_size laid inside)
    rw [same] at nonzero ⊢
    exact ih.left nonzero
  | right _ nonzero ih =>
    have same := shot.right _ (ih.lt_size laid inside)
    rw [if_neg (other _ ih)] at same
    rw [same] at nonzero ⊢
    exact ih.right nonzero

theorem Shot.rights (shot : Shot b b' cur last num) (laid : Laid b) (inside : i < b.size)
    (above : (b.node cur).seg.end_ < (b.node i).seg.end_) (rights : Rights b i r) : Rights b' i r := by
  induction rights with
  | @last k nonzero =>
    have same := shot.right k inside
    rw [if_neg (by rintro rfl; omega)] at same
    rw [← same] at nonzero ⊢
    exact .last nonzero
  | @next k l nonzero _ ih =>
    have same := shot.right k inside
    rw [if_neg (by rintro rfl; omega)] at same
    have rest := ih (laid.right_lt k inside) (Nat.lt_trans above (laid.right_end inside nonzero))
    rw [← same] at nonzero rest
    exact .next nonzero rest

/-- What taking in the bytes from `lo` to `hi` amounts to: a label for them and for those of `last`,
found below `start` or hung there. -/
structure Gained (b b' : BDDTag) (start last lo hi l : Nat) : Prop where
  trie : SegTrie b'
  preserves : Preserves b b'
  label : b'.IsLabel l
  nonzero : l ≠ 0
  end_ : (b'.node l).seg.end_ = hi
  has : ∀ v, b'.Has v l ↔ b.Has v last ∨ lo ≤ v ∧ v < hi
  moved : ∀ c, b.IsLabel c → (b'.node c).seg.begin = (b.node c).seg.begin ∨
    (b.node c).seg.begin = lo ∧ (b'.node c).seg.begin = hi
  below : ∀ r, Leads b' l r → b'.IsLabel r → hi < (b'.node r).seg.end_ →
    b.IsLabel r ∧ Leads b start r ∧ ∀ l, Rights b r l → Rights b' r l

theorem OneRun.gained (run : OneRun b i last num b' r) (trie : SegTrie b) (inside : i < b.size)
    (heads : b.head i = last) (positive : 0 < num) (fits : (b.node i).seg.end_ + num < 2 ^ 32) :
    Gained b b' i last (b.node i).seg.end_ ((b.node i).seg.end_ + num) r := by
  have laid := trie.toLaid
  cases run with
  | found rights ends =>
    obtain ⟨label,nonzero⟩ := rights.label laid inside
    refine ⟨trie,.refl b,label,nonzero,ends,fun v => ?_,fun _ _ => .inl rfl,fun r leads labelR _ =>
      ⟨labelR,rights.leads.trans leads,fun _ h => h⟩⟩
    rw [rights.has_iff laid inside,heads,ends]
  | shot shot room =>
    have preserves := shot.preserves laid inside heads
    have lastLabel : b.IsLabel last := heads ▸ laid.head_label inside
    refine ⟨shot.segTrie trie inside heads positive fits room,preserves,(shot.isLabel_iff inside _).mpr (.inr rfl),
      Nat.ne_of_gt laid.size_pos,by rw [shot.fresh],fun v => ?_,fun c label => ?_,fun r leads label above => ?_⟩
    · rw [shot.has_fresh laid,preserves.has last lastLabel,or_comm]
    · rw [shot.begin c (laid.label_lt label)]
      by_cases next : c ≠ 0 ∧ c = (b.node i).right
      · rw [if_pos next]
        refine .inr ⟨?_,rfl⟩
        rw [next.2]
        exact laid.right_begin i inside (next.2 ▸ next.1)
      · rw [if_neg next]
        exact .inl rfl
    · rcases leads.tail with rfl | ⟨some,_⟩ | ⟨some,rest⟩
      · rw [shot.fresh] at above
        exact absurd above (Nat.lt_irrefl _)
      · rw [shot.fresh] at some
        exact absurd rfl some
      · rw [shot.fresh] at some rest
        have below := laid.right_lt i inside
        have beyond := laid.right_end inside some
        have old := shot.leads_old laid below beyond rest
        have bound := old.lt_size laid below
        exact ⟨(shot.isLabel_old inside bound).mp label,(Leads.right .here some).trans old,fun l rights =>
          shot.rights laid bound (Nat.lt_of_lt_of_le beyond (old.end_le laid below)) rights⟩

/-! Signs do not matter. -/

theorem SameShape.segTrie (same : SameShape b b') (trie : SegTrie b) : SegTrie b' where
  toLaid := same.laid trie.toLaid
  right_injective := by
    simp only [same.size,same.right]
    exact trie.right_injective

theorem SameShape.has (same : SameShape b b') (has : b.Has i j) : b'.Has i j := by
  induction has with
  | own nonzero above below => exact .own nonzero (same.begin _ ▸ above) (same.end_ _ ▸ below)
  | up nonzero _ ih => exact .up nonzero (same.parent _ ▸ ih)

theorem SameShape.rights (same : SameShape b b') (rights : Rights b i j) : Rights b' i j := by
  induction rights with
  | last nonzero =>
    rw [← same.right] at nonzero ⊢
    exact .last nonzero
  | next nonzero _ ih =>
    rw [← same.right] at nonzero ih
    exact .next nonzero ih

theorem SameShape.leads (same : SameShape b b') (leads : Leads b i j) : Leads b' i j := by
  induction leads with
  | here => exact .here
  | left _ nonzero ih =>
    rw [← same.left] at nonzero ⊢
    exact ih.left nonzero
  | right _ nonzero ih =>
    rw [← same.right] at nonzero ⊢
    exact ih.right nonzero

theorem SameShape.preserves (same : SameShape b b') : Preserves b b' where
  size_le := Nat.le_of_eq same.size.symm
  label c := (same.isLabel_iff c).mpr
  end_ i _ := same.end_ i
  has _ _ _ := ⟨same.symm.has,same.has⟩

/-! The second loop. -/

/-- The bytes of the stacked segments. -/
def Stacked (b : BDDTag) (stack : List Nat) (v : Nat) : Prop :=
  ∃ c ∈ stack, (b.node c).seg.begin ≤ v ∧ v < (b.node c).seg.end_

/-- Where a label below `cur` has the wanted bytes up to its end, and that end falls inside what a
stacked segment adds, right links go on to the end of that segment. -/
def Aligned (b : BDDTag) (cur : Nat) (wanted : Nat → Prop) (stack : List Nat) : Prop :=
  ∀ r, Leads b cur r → b.IsLabel r → (∀ v, b.Has v r ↔ wanted v ∧ v < (b.node r).seg.end_) →
    ∀ pre d post, stack = pre ++ d :: post → (∀ c ∈ cur :: pre, (b.node c).seg.end_ < (b.node r).seg.end_) →
      (b.node d).seg.begin < (b.node r).seg.end_ → (b.node r).seg.end_ < (b.node d).seg.end_ →
      ∃ l, Rights b r l ∧ (b.node l).seg.end_ = (b.node d).seg.end_

/-- While `combine` empties its stack. A segment that a split has moved begins where `cur` ends, or
further down; the others are in order. -/
structure Filling (b : BDDTag) (cur : Nat) (wanted : Nat → Prop) (stack : List Nat) : Prop where
  trie : SegTrie b
  label : b.IsLabel cur
  labels : ∀ c ∈ stack, b.IsLabel c
  exact : ∀ v, wanted v ↔ b.Has v cur ∨ b.Stacked stack v
  solid : ∀ c ∈ stack, ∀ v, (b.node c).seg.begin ≤ v → v < (b.node cur).seg.end_ → b.Has v cur
  ordered : stack.Pairwise fun c d => (b.node c).seg.begin ≤ (b.node d).seg.begin ∨
    (b.node c).seg.begin ≤ (b.node cur).seg.end_
  aligned : Aligned b cur wanted stack

namespace Filling

variable {next l : Nat} {stack : List Nat}

theorem sameShape (f : Filling b cur wanted stack) (same : SameShape b b') : Filling b' cur wanted stack where
  trie := same.segTrie f.trie
  label := (same.isLabel_iff cur).mpr f.label
  labels c member := (same.isLabel_iff c).mpr (f.labels c member)
  exact v := by
    rw [f.exact v,same.preserves.has cur f.label]
    simp only [Stacked,same.begin,same.end_]
  solid c member v := by
    rw [same.begin,same.end_,same.preserves.has cur f.label]
    exact f.solid c member v
  ordered := by
    simp only [same.begin,same.end_]
    exact f.ordered
  aligned r leads label bytes pre d post split := by
    rw [same.isLabel_iff] at label
    simp only [same.begin,same.end_,same.preserves.has r label] at bytes ⊢
    intro passed above inside
    obtain ⟨l,rights,ends⟩ := f.aligned r (same.symm.leads leads) label bytes pre d post split passed above inside
    exact ⟨l,same.rights rights,ends⟩

/-- A segment that ends no later than `cur` adds nothing. -/
theorem skip (f : Filling b cur wanted (next :: stack))
    (known : (b.node next).seg.end_ ≤ (b.node cur).seg.end_) : Filling b cur wanted stack where
  trie := f.trie
  label := f.label
  labels c member := f.labels c (.tail _ member)
  exact v := by
    rw [f.exact v]
    constructor
    · rintro (has | ⟨c,member,above,below⟩)
      · exact .inl has
      · rcases List.mem_cons.mp member with rfl | member
        · exact .inl (f.solid c List.mem_cons_self v above (by omega))
        · exact .inr ⟨c,member,above,below⟩
    · rintro (has | ⟨c,member,rest⟩)
      · exact .inl has
      · exact .inr ⟨c,.tail _ member,rest⟩
  solid c member := f.solid c (.tail _ member)
  ordered := f.ordered.of_cons
  aligned r leads label bytes pre d post split passed := by
    refine f.aligned r leads label bytes (next :: pre) d post (by rw [split]; rfl) fun c member => ?_
    rcases List.mem_cons.mp member with rfl | member
    · exact passed c List.mem_cons_self
    · rcases List.mem_cons.mp member with rfl | member
      · exact Nat.lt_of_le_of_lt known (passed cur List.mem_cons_self)
      · exact passed c (.tail _ member)

/-- What comes first: the end of `cur` or the begin of the segment, whichever is further up. -/
structure Starts (b : BDDTag) (cur next lo : Nat) : Prop where
  cur_le : (b.node cur).seg.end_ ≤ lo
  begin_le : (b.node next).seg.begin ≤ lo
  one : lo = (b.node cur).seg.end_ ∨ lo = (b.node next).seg.begin
  inside : lo < (b.node next).seg.end_

theorem reach {c v : Nat} (f : Filling b cur wanted (next :: stack)) (starts : Starts b cur next lo)
    (member : c ∈ next :: stack) (above : (b.node c).seg.begin ≤ v) : b.Has v cur ∨ lo ≤ v := by
  have one := starts.one
  by_cases old : v < (b.node cur).seg.end_
  · exact .inl (f.solid c member v above old)
  · rcases List.mem_cons.mp member with rfl | member
    · exact .inr (by omega)
    · have := (List.pairwise_cons.mp f.ordered).1 c member
      exact .inr (by omega)

/-- Below `lo` all wanted bytes are those of `cur`. -/
theorem wanted_iff (f : Filling b cur wanted (next :: stack)) (starts : Starts b cur next lo) (v : Nat)
    (below : v < (b.node next).seg.end_) : wanted v ↔ b.Has v cur ∨ lo ≤ v := by
  have begins := starts.begin_le
  rw [f.exact v]
  constructor
  · rintro (has | ⟨c,member,above,_⟩)
    · exact .inl has
    · exact f.reach starts member above
  · rintro (has | above)
    · exact .inl has
    · exact .inr ⟨next,List.mem_cons_self,by omega,below⟩

/-- A walk that starts where the bytes of `cur` end runs into no misplaced end. -/
theorem whole (f : Filling b cur wanted (next :: stack)) (starts : Starts b cur next lo)
    (leads : Leads b cur i) (inside : i < b.size) (heads : b.head i = cur) (ends : (b.node i).seg.end_ = lo) :
    Whole b i (b.node next).seg.end_ := by
  intro some short
  have laid := f.trie.toLaid
  have longer := laid.right_end inside some
  have label : b.IsLabel (b.node i).right := .inr ⟨i,inside,rfl⟩
  have bytes (v : Nat) : b.Has v (b.node i).right ↔ wanted v ∧ v < (b.node (b.node i).right).seg.end_ := by
    rw [(Rights.last some).has_iff laid inside,heads,ends]
    constructor
    · rintro (has | ⟨above,below⟩)
      · have := laid.has_lt f.label has
        have := starts.cur_le
        exact ⟨(f.wanted_iff starts v (by omega)).mpr (.inl has),by omega⟩
      · exact ⟨(f.wanted_iff starts v (by omega)).mpr (.inr above),below⟩
    · rintro ⟨want,below⟩
      exact ((f.wanted_iff starts v (by omega)).mp want).imp_right fun above => ⟨above,below⟩
  have passed : ∀ c ∈ [cur], (b.node c).seg.end_ < (b.node (b.node i).right).seg.end_ := by
    have := starts.cur_le
    simp only [List.mem_singleton,forall_eq]
    omega
  have := starts.begin_le
  obtain ⟨l,rights,reaches⟩ :=
    f.aligned _ (leads.right some) label bytes [] next stack rfl passed (by omega) short
  exact ⟨l,.next some rights,reaches⟩

/-- A segment whose bytes from `lo` on have been taken in. -/
theorem gain (f : Filling b cur wanted (next :: stack)) (starts : Starts b cur next lo)
    (gained : Gained b b' cur cur lo (b.node next).seg.end_ l) : Filling b' l wanted stack := by
  have laid := f.trie.toLaid
  have first := starts.cur_le
  have second := starts.begin_le
  have inside := starts.inside
  have ends (c : Nat) (label : b.IsLabel c) := gained.preserves.end_ c (laid.label_lt label)
  refine ⟨gained.trie,gained.label,fun c member => gained.preserves.label c (f.labels c (.tail _ member)),fun v => ?_,
    fun c member v above below => ?_,?_,fun r leads label bytes pre d post split passed above under => ?_⟩
  · rw [gained.has v]
    constructor
    · intro want
      by_cases below : v < (b.node next).seg.end_
      · exact .inl (((f.wanted_iff starts v below).mp want).imp_right fun above => ⟨above,below⟩)
      · rcases (f.exact v).mp want with has | ⟨c,member,above,under⟩
        · exact .inl (.inl has)
        · rcases List.mem_cons.mp member with rfl | member
          · exact absurd under below
          · have label := f.labels c (.tail _ member)
            have := gained.moved c label
            exact .inr ⟨c,member,by omega,by rwa [ends c label]⟩
    · rintro ((has | ⟨above,below⟩) | ⟨c,member,above,below⟩)
      · exact (f.exact v).mpr (.inl has)
      · exact (f.wanted_iff starts v below).mpr (.inr above)
      · have label := f.labels c (.tail _ member)
        have := gained.moved c label
        rw [ends c label] at below
        exact (f.exact v).mpr (.inr ⟨c,.tail _ member,by omega,below⟩)
  · rw [gained.end_] at below
    have := gained.moved c (f.labels c (.tail _ member))
    have reach := f.reach starts (.tail _ member) (show (b.node c).seg.begin ≤ v by omega)
    exact (gained.has v).mpr (reach.imp_right fun above => ⟨above,below⟩)
  · refine f.ordered.of_cons.imp_of_mem fun {c d} memberC memberD order => ?_
    have := gained.moved c (f.labels c (.tail _ memberC))
    have := gained.moved d (f.labels d (.tail _ memberD))
    rw [gained.end_]
    omega
  · have beyond := passed l List.mem_cons_self
    rw [gained.end_] at beyond
    obtain ⟨old,below,keep⟩ := gained.below r leads label beyond
    have member : d ∈ next :: stack := by rw [split]; simp
    have := gained.moved d (f.labels d member)
    rw [ends r old] at beyond passed above under bytes
    rw [ends d (f.labels d member)] at under ⊢
    have bytes (v : Nat) := (gained.preserves.has r old v).symm.trans (bytes v)
    have before : ∀ c ∈ cur :: next :: pre, (b.node c).seg.end_ < (b.node r).seg.end_ := by
      intro c member
      rcases List.mem_cons.mp member with rfl | member
      · omega
      · rcases List.mem_cons.mp member with rfl | member
        · exact beyond
        · have inner : c ∈ next :: stack := by rw [split]; simp [member]
          rw [← ends c (f.labels c inner)]
          exact passed c (.tail _ member)
    obtain ⟨j,rights,reaches⟩ :=
      f.aligned r below old bytes (next :: pre) d post (by rw [split]; rfl) before (by omega) under
    exact ⟨j,keep j rights,(ends j (rights.label laid (laid.label_lt old)).1).trans reaches⟩

end Filling

theorem Gained.after {start last l : Nat} (gained : Gained b b' i last lo hi l) (leads : Leads b start i) :
    Gained b b' start last lo hi l :=
  { gained with below := fun r reached label above =>
      (gained.below r reached label above).imp id fun ⟨rest,keep⟩ => ⟨leads.trans rest,keep⟩ }

/-- Below a fresh run of zeros there is nothing yet. -/
theorem Hung.gained {l z n : Nat} (hung : Hung b b' z last n) (laid : Laid b) (inside : z < b.size) (lastLabel : b.IsLabel last)
    (gained : Gained b' b'' b.size last lo hi l) : Gained b b'' last last lo hi l := by
  have preserves := hung.preserves laid inside
  refine ⟨gained.trie,preserves.trans gained.preserves,gained.label,gained.nonzero,gained.end_,fun v => ?_,fun c label => ?_,
    fun r leads label above => ?_⟩
  · rw [gained.has v,preserves.has last lastLabel]
  · rw [← hung.begin_label laid inside (laid.label_lt label) label]
    exact gained.moved c (preserves.label c label)
  · obtain ⟨old,rest,_⟩ := gained.below r leads label above
    rw [hung.isLabel_iff] at old
    rcases rest.tail with rfl | ⟨some,_⟩ | ⟨some,_⟩
    · exact absurd (laid.label_lt old) (Nat.lt_irrefl _)
    all_goals
      rw [hung.fresh] at some
      exact absurd rfl some

theorem ZeroRun.gained {z n l : Nat} (run : ZeroRun b last last n b' z) (trie : SegTrie b) (label : b.IsLabel last)
    (gained : b'.head z = last → z < b'.size → Gained b' b'' z last lo hi l) : Gained b b'' last last lo hi l := by
  have laid := trie.toLaid
  have inside := laid.label_lt label
  cases run with
  | found spine _ =>
    have heads := (spine.head_eq laid inside).trans (head_of_label label)
    exact (gained heads (spine.lt_size laid inside)).after spine.leads
  | hung spine hung _ _ _ _ =>
    have size := hung.size
    exact hung.gained laid (spine.lt_size laid inside) label (gained (hung.head_fresh laid) (by omega))

/-- The place that a run of zeros ends in. -/
structure Placed (b : BDDTag) (last pos z : Nat) : Prop where
  trie : SegTrie b
  inside : z < b.size
  heads : b.head z = last
  end_ : (b.node z).seg.end_ = pos

theorem ZeroRun.placed {n z : Nat} (run : ZeroRun b last last n b' z) (trie : SegTrie b) (label : b.IsLabel last)
    (fits : (b.node last).seg.end_ + n < 2 ^ 32) : Placed b' last ((b.node last).seg.end_ + n) z := by
  have laid := trie.toLaid
  have inside := laid.label_lt label
  cases run with
  | found spine total =>
    exact ⟨trie,spine.lt_size laid inside,(spine.head_eq laid inside).trans (head_of_label label),total⟩
  | hung spine hung positive total _ room =>
    have bound := spine.lt_size laid inside
    have heads := (spine.head_eq laid inside).trans (head_of_label label)
    refine ⟨hung.segTrie trie bound heads positive (by omega) room,?_,hung.head_fresh laid,?_⟩
    · rw [hung.size]; omega
    · rw [hung.fresh]; exact total

theorem mergeSegment_ends {next : Nat} {stack : List Nat} (f : Filling b cur wanted (next :: stack)) (budget : 2 ^ 32 < fuel) :
    (b.mergeSeg fuel cur (b.node next).seg).Ends fun s => Preserves b s.1 ∧ Filling s.1 s.2 wanted stack := by
  have trie := f.trie
  have laid := trie.toLaid
  have inside := laid.label_lt f.label
  have nextLabel := f.labels next List.mem_cons_self
  have fits := laid.end_lt next (laid.label_lt nextLabel)
  unfold mergeSeg
  by_cases touches : (b.node next).seg.begin ≤ (b.node cur).seg.end_
  · rw [if_pos touches]
    by_cases beyond : (b.node cur).seg.end_ < (b.node next).seg.end_
    · rw [if_pos beyond]
      have starts : Filling.Starts b cur next (b.node cur).seg.end_ := ⟨Nat.le_refl _,touches,.inl rfl,beyond⟩
      have width : offSub (b.node next).seg.end_ (b.node cur).seg.end_ =
          (b.node next).seg.end_ - (b.node cur).seg.end_ := by rw [offSub]; omega
      have total : (b.node cur).seg.end_ + ((b.node next).seg.end_ - (b.node cur).seg.end_) =
          (b.node next).seg.end_ := by omega
      have whole := f.whole starts .here inside (head_of_label f.label) rfl
      rw [width]
      refine (runNOnes_ends trie inside (by omega) (by omega) (by omega) (by rwa [total])).imp ?_
      intro s run
      have gained := run.gained trie inside (head_of_label f.label) (by omega) (by omega)
      rw [total] at gained
      exact ⟨gained.preserves,f.gain starts gained⟩
    · rw [if_neg beyond]
      exact ⟨.refl b,f.skip (by omega)⟩
  · rw [if_neg touches]
    have span := laid.span next (laid.label_lt nextLabel) (by rintro rfl; rw [laid.root_begin] at touches; omega)
    have starts : Filling.Starts b cur next (b.node next).seg.begin := ⟨by omega,Nat.le_refl _,.inr rfl,span⟩
    have gap : offSub (b.node next).seg.begin (b.node cur).seg.end_ =
        (b.node next).seg.begin - (b.node cur).seg.end_ := by rw [offSub]; omega
    have width : offSub (b.node next).seg.end_ (b.node next).seg.begin =
        (b.node next).seg.end_ - (b.node next).seg.begin := by rw [offSub]; omega
    have reach : (b.node cur).seg.end_ + ((b.node next).seg.begin - (b.node cur).seg.end_) =
        (b.node next).seg.begin := by omega
    have total : (b.node next).seg.begin + ((b.node next).seg.end_ - (b.node next).seg.begin) =
        (b.node next).seg.end_ := by omega
    rw [gap,width]
    refine (insertNZeros_ends laid inside (by omega) (by omega)).bind ?_
    rintro ⟨b₁,z⟩ run
    dsimp only at run
    obtain ⟨trie₁,bound,heads,ends⟩ := run.placed trie f.label (by omega)
    rw [reach] at ends
    have whole : Whole b₁ z (b.node next).seg.end_ := by
      cases run with
      | found spine _ => exact f.whole starts spine.leads bound heads ends
      | hung _ hung _ _ _ _ =>
        intro some
        rw [hung.fresh] at some
        exact absurd rfl some
    refine (runNOnes_ends trie₁ bound (by omega) (by omega) (by omega) (by rwa [ends,total])).imp ?_
    intro s ones
    have gained := ones.gained trie₁ bound heads (by omega) (by omega)
    rw [ends,total] at gained
    have gained := run.gained trie f.label fun _ _ => gained
    exact ⟨gained.preserves,f.gain starts gained⟩

theorem refill_ends {stack : List Nat} (start : Filling b cur wanted stack) (deep : stack.length < fuel)
    (budget : 2 ^ 32 < fuel) :
    (b.reinsert fuel cur stack).Ends fun s => Preserves b s.1 ∧ Filling s.1 s.2 wanted [] := by
  refine loop_ends (fun s => Preserves b s.1 ∧ Filling s.1 s.2.1 wanted s.2.2) (fun s => s.2.2.length) ?_
    ⟨.refl b,start⟩ deep
  rintro ⟨b₁,i,stack₁⟩ ⟨preserves,f⟩
  dsimp only at preserves f
  cases stack₁ with
  | nil => exact ⟨preserves,f⟩
  | cons next stack₁ =>
    refine (mergeSegment_ends f budget).bind ?_
    rintro ⟨b₂,j⟩ ⟨more,f⟩
    dsimp only at more f
    refine ⟨?_,by simp⟩
    dsimp only
    split
    · have same := setSign_sameShape (f.trie.toLaid.label_lt f.label)
      exact ⟨preserves.trans (more.trans same.preserves),f.sameShape same⟩
    · exact ⟨preserves.trans more,f⟩

/-! The first loop. -/

/-- The chain of parents of a label. -/
inductive Up (b : BDDTag) : Nat → Nat → Prop where
  | here : l ≠ 0 → Up b l l
  | up : l ≠ 0 → Up b (b.node l).parent k → Up b l k

/-- A segment of the second chain that begins where one of the first does is left out, unless the
first chain ends there: its bytes are all in the first label. -/
def Untied (b : BDDTag) (l1 l2 : Nat) : Prop :=
  ∀ c1 c2, Up b l1 c1 → Up b l2 c2 → (b.node c1).seg.begin = (b.node c2).seg.begin → (b.node c1).parent ≠ 0 →
    ∀ v, (b.node c2).seg.begin ≤ v → v < (b.node c2).seg.end_ → b.Has v l1

/-- The labels stacked so far, with rising begins from `last_begin` on. -/
structure Pile (b : BDDTag) (lastBegin : Nat) (stack : List Nat) : Prop where
  labels : ∀ c ∈ stack, b.IsLabel c
  ascending : stack.Pairwise fun c d => (b.node c).seg.begin ≤ (b.node d).seg.begin
  above : ∀ c ∈ stack, lastBegin ≤ (b.node c).seg.begin

theorem Pile.push {c lastBegin : Nat} {stack : List Nat} (pile : Pile b lastBegin stack) (label : b.IsLabel c)
    (fresh : (b.node c).seg.begin < lastBegin) : Pile b (b.node c).seg.begin (c :: stack) where
  labels d member := by
    rcases List.mem_cons.mp member with rfl | member
    · exact label
    · exact pile.labels d member
  ascending := .cons (fun d member => Nat.le_trans (Nat.le_of_lt fresh) (pile.above d member)) pile.ascending
  above d member := by
    rcases List.mem_cons.mp member with rfl | member
    · exact Nat.le_refl _
    · exact Nat.le_trans (Nat.le_of_lt fresh) (pile.above d member)

/-- The label that the second loop of `combine` starts from. -/
def Gather.base (s : Gather) : Nat := if 0 < s.l1 then s.l1 else s.l2

/-- While `combine` walks both chains down. -/
structure Reading (b : BDDTag) (l1 l2 : Nat) (s : Gather) : Prop where
  label1 : b.IsLabel s.l1
  label2 : b.IsLabel s.l2
  up1 : ∀ c, Up b s.l1 c → Up b l1 c
  up2 : ∀ c, Up b s.l2 c → Up b l2 c
  pile : Pile b s.lastBegin s.stack
  low1 : s.l1 ≠ 0 → (b.node s.l1).seg.begin < s.lastBegin
  low2 : s.l2 ≠ 0 → (b.node s.l2).seg.begin < s.lastBegin ∨ (b.node s.l2).seg.begin = s.lastBegin ∧
    ∃ c1, Up b l1 c1 ∧ (b.node c1).seg.begin = (b.node s.l2).seg.begin ∧ (b.node c1).parent = s.l1
  first : ∀ v, b.Has v l1 → b.Has v s.l1 ∨ b.Stacked s.stack v
  second : ∀ v, b.Has v l2 → b.Has v s.l2 ∨ b.Has v l1 ∨ b.Stacked s.stack v
  sound : ∀ v, b.Has v s.l1 ∨ b.Has v s.l2 ∨ b.Stacked s.stack v → b.Has v l1 ∨ b.Has v l2
  short : s.stack.length + (b.node s.l1).seg.end_ + (b.node s.l2).seg.end_ ≤
    (b.node l1).seg.end_ + (b.node l2).seg.end_

namespace Reading

variable {l1 l2 v : Nat} {s : Gather}

theorem start (label1 : b.IsLabel l1) (label2 : b.IsLabel l2)
    (small1 : l1 ≠ 0 → (b.node l1).seg.begin < maxLb) (small2 : l2 ≠ 0 → (b.node l2).seg.begin < maxLb) :
    Reading b l1 l2 ⟨l1,l2,maxLb,[]⟩ where
  label1 := label1
  label2 := label2
  up1 _ h := h
  up2 _ h := h
  pile := ⟨by simp,.nil,by simp⟩
  low1 := small1
  low2 nonzero := .inl (small2 nonzero)
  first _ has := .inl has
  second _ has := .inl has
  sound v := by simp [Stacked]
  short := by simp

theorem stacked_cons {c : Nat} {stack : List Nat} : b.Stacked (c :: stack) v ↔
    ((b.node c).seg.begin ≤ v ∧ v < (b.node c).seg.end_) ∨ b.Stacked stack v := by
  simp [Stacked]

/-- The first chain's segment always begins below the last one that was stacked. -/
theorem take_first (r : Reading b l1 l2 s) (laid : Laid b) (nonzero : s.l1 ≠ 0)
    (larger : (b.node s.l2).seg.begin ≤ (b.node s.l1).seg.begin) :
    Reading b l1 l2 { s.note b s.l1 with l1 := (b.node s.l1).parent } := by
  have bound := laid.label_lt r.label1
  have low := laid.parent_end s.l1 bound nonzero
  have before := laid.parent_before bound nonzero
  have parent := laid.parent_label s.l1 bound
  have fresh := r.low1 nonzero
  have short := r.short
  simp only [Gather.note,fresh,ite_true]
  constructor
  case label1 => exact parent
  case label2 => exact r.label2
  case up1 => exact fun c up => r.up1 c (.up nonzero up)
  case up2 => exact r.up2
  case pile => exact r.pile.push r.label1 fresh
  case low1 => exact fun some => Nat.lt_of_lt_of_le (laid.span _ (laid.label_lt parent) some) low
  case low2 =>
    intro some
    rcases Nat.lt_or_eq_of_le larger with less | same
    · exact .inl less
    · exact .inr ⟨same,s.l1,r.up1 _ (.here nonzero),same.symm,rfl⟩
  case first =>
    intro v has
    rw [stacked_cons]
    rcases r.first v has with has | stacked
    · rcases (has_iff nonzero).mp has with own | has
      · exact .inr (.inl own)
      · exact .inl has
    · exact .inr (.inr stacked)
  case second =>
    intro v has
    rw [stacked_cons]
    rcases r.second v has with has | has | stacked
    · exact .inl has
    · exact .inr (.inl has)
    · exact .inr (.inr (.inr stacked))
  case sound =>
    intro v has
    rw [stacked_cons] at has
    refine r.sound v ?_
    rw [has_iff nonzero]
    tauto
  case short => simp only [List.length_cons]; omega

theorem take_second (r : Reading b l1 l2 s) (laid : Laid b) (untied : Untied b l1 l2) (go : s.l1 ≠ 0)
    (less : (b.node s.l1).seg.begin < (b.node s.l2).seg.begin) :
    Reading b l1 l2 { s.note b s.l2 with l2 := (b.node s.l2).parent } := by
  have nonzero : s.l2 ≠ 0 := by
    intro zero
    rw [zero,laid.root_begin] at less
    omega
  have bound := laid.label_lt r.label2
  have low := laid.parent_end s.l2 bound nonzero
  have before := laid.parent_before bound nonzero
  have parent := laid.parent_label s.l2 bound
  have short := r.short
  have falls (some : (b.node s.l2).parent ≠ 0) : (b.node (b.node s.l2).parent).seg.begin < (b.node s.l2).seg.begin :=
    Nat.lt_of_lt_of_le (laid.span _ (laid.label_lt parent) some) low
  rcases r.low2 nonzero with fresh | ⟨same,c1,up1,begins,leads⟩
  · simp only [Gather.note,fresh,ite_true]
    constructor
    case label1 => exact r.label1
    case label2 => exact parent
    case up1 => exact r.up1
    case up2 => exact fun c up => r.up2 c (.up nonzero up)
    case pile => exact r.pile.push r.label2 fresh
    case low1 => exact fun _ => less
    case low2 => exact fun some => .inl (falls some)
    case first =>
      intro v has
      rw [stacked_cons]
      exact (r.first v has).imp_right .inr
    case second =>
      intro v has
      rw [stacked_cons]
      rcases r.second v has with has | has | stacked
      · rcases (has_iff nonzero).mp has with own | has
        · exact .inr (.inr (.inl own))
        · exact .inl has
      · exact .inr (.inl has)
      · exact .inr (.inr (.inr stacked))
    case sound =>
      intro v has
      rw [stacked_cons] at has
      refine r.sound v ?_
      rw [has_iff (c := s.l2) nonzero]
      tauto
    case short => simp only [List.length_cons]; omega
  · -- a segment that begins here has just been taken from the first chain
    simp only [Gather.note,same,Nat.lt_irrefl,ite_false]
    constructor
    case label1 => exact r.label1
    case label2 => exact parent
    case up1 => exact r.up1
    case up2 => exact fun c up => r.up2 c (.up nonzero up)
    case pile => exact r.pile
    case low1 => exact r.low1
    case low2 => exact fun some => .inl (same ▸ falls some)
    case first => exact r.first
    case second =>
      intro v has
      rcases r.second v has with has | has | stacked
      · rcases (has_iff nonzero).mp has with ⟨above,below⟩ | has
        · exact .inr (.inl (untied c1 s.l2 up1 (r.up2 _ (.here nonzero)) begins (by rwa [leads]) v above below))
        · exact .inl has
      · exact .inr (.inl has)
      · exact .inr (.inr stacked)
    case sound =>
      intro v has
      refine r.sound v ?_
      rw [has_iff (c := s.l2) nonzero]
      tauto
    case short => dsimp only; omega

/-- When the walk is over: a base label, and the stack above it. -/
theorem done (r : Reading b l1 l2 s) (laid : Laid b) (ended : ¬ (0 < s.l1 ∧ s.l1 ≠ s.l2)) : b.IsLabel s.base ∧
    (∀ c ∈ s.stack, ∀ v, (b.node c).seg.begin ≤ v → v < (b.node s.base).seg.end_ → b.Has v s.base) ∧
    ∀ v, b.Has v l1 ∨ b.Has v l2 ↔ b.Has v s.base ∨ b.Stacked s.stack v := by
  have solid (low : s.base ≠ 0 → (b.node s.base).seg.begin ≤ s.lastBegin) (c : Nat) (member : c ∈ s.stack) (v : Nat)
      (above : (b.node c).seg.begin ≤ v) (below : v < (b.node s.base).seg.end_) : b.Has v s.base := by
    have nonzero : s.base ≠ 0 := by
      intro zero
      rw [zero,laid.root_end] at below
      omega
    have := r.pile.above c member
    have := low nonzero
    exact .own nonzero (by omega) below
  by_cases zero : s.l1 = 0
  · have base : s.base = s.l2 := if_neg (by omega)
    rw [base] at solid ⊢
    refine ⟨r.label2,solid fun some => ?_,fun v => ⟨?_,fun has => r.sound v (.inr has)⟩⟩
    · rcases r.low2 some with less | ⟨same,_⟩
      · exact Nat.le_of_lt less
      · exact Nat.le_of_eq same
    · have first (has : b.Has v l1) : b.Has v s.l2 ∨ b.Stacked s.stack v := by
        rcases r.first v has with has | stacked
        · exact absurd (zero ▸ has) not_has_zero
        · exact .inr stacked
      rintro (has | has)
      · exact first has
      · rcases r.second v has with has | has | stacked
        · exact .inl has
        · exact first has
        · exact .inr stacked
  · have same : s.l1 = s.l2 := by omega
    have base : s.base = s.l1 := if_pos (by omega)
    rw [base] at solid ⊢
    refine ⟨r.label1,solid fun some => Nat.le_of_lt (r.low1 some),fun v => ⟨?_,fun has => r.sound v ?_⟩⟩
    · rintro (has | has)
      · exact r.first v has
      · rcases r.second v has with has | has | stacked
        · exact .inl (same ▸ has)
        · exact r.first v has
        · exact .inr stacked
    · exact has.imp_right .inr

end Reading

theorem gather_reads {l1 l2 : Nat} (laid : Laid b) (label1 : b.IsLabel l1) (label2 : b.IsLabel l2)
    (small1 : l1 ≠ 0 → (b.node l1).seg.begin < maxLb) (small2 : l2 ≠ 0 → (b.node l2).seg.begin < maxLb)
    (untied : Untied b l1 l2) (budget : 2 ^ 33 < fuel) :
    (b.gather fuel l1 l2).Ends fun s => Reading b l1 l2 s ∧ ¬ (0 < s.l1 ∧ s.l1 ≠ s.l2) := by
  have fits1 := laid.end_lt l1 (laid.label_lt label1)
  have fits2 := laid.end_lt l2 (laid.label_lt label2)
  refine gather_rule laid (Reading b l1 l2) (fun l => (b.node l).seg.end_) (fun s r => ?_) (fun s r nonzero larger => r.take_first laid nonzero larger)
    (fun s r nonzero _ less => r.take_second laid untied nonzero less) (.start label1 label2 small1 small2) (by omega)
  exact ⟨laid.parent_before (laid.label_lt r.label1),laid.parent_before (laid.label_lt r.label2)⟩

end Libdft.BddTag.BDDTag
