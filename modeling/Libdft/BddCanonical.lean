import Libdft.BddSession
import Mathlib.Data.Finset.Sort

/-! When equal sets share one label. `insert_n_zeros` forgets to hang the lower part
of a gap below the upper one when it splits it, where `insert_n_ones` relinks; what
lay below stays readable but no later call reaches it. Runs without such a split
are canonical. Nothing is said about the number of labels a run uses. -/
namespace Libdft.BddTag.BDDTag

variable {b b' between : BDDTag} {i j c l z cur last x : Nat} {offs : List Nat}

theorem Spine.end_le (spine : Spine b cur i) (trie : Trie b) (inside : cur < b.size) :
    (b.node cur).seg.end_ ≤ (b.node i).seg.end_ := by
  induction spine with
  | here => exact Nat.le_refl _
  | left below nonzero ih =>
    exact Nat.le_trans ih (Nat.le_of_lt (trie.laid.left_end (below.lt_size trie.laid inside) nonzero))

theorem Spine.tail (spine : Spine b cur i) :
    i = cur ∨ (b.node cur).left ≠ 0 ∧ Spine b (b.node cur).left i := by
  induction spine with
  | here => exact .inl rfl
  | left below nonzero ih =>
    rcases ih with rfl | ⟨some,rest⟩
    · exact .inr ⟨nonzero,.here⟩
    · exact .inr ⟨some,rest.left nonzero⟩

theorem Spine.comparable (first : Spine b cur i) (second : Spine b cur j) :
    Spine b i j ∨ Spine b j i := by
  induction first with
  | here => exact .inl second
  | left _ nonzero ih =>
    rcases ih with down | up
    · rcases down.tail with rfl | ⟨_,rest⟩
      · exact .inr (.left .here nonzero)
      · exact .inl rest
    · exact .inr (up.left nonzero)

/-- A chain of left links has one node for each end. -/
theorem Spine.eq_of_end (trie : Trie b) (inside : cur < b.size) (first : Spine b cur i)
    (second : Spine b cur j) (same : (b.node i).seg.end_ = (b.node j).seg.end_) : i = j := by
  have boundI := first.lt_size trie.laid inside
  have boundJ := second.lt_size trie.laid inside
  rcases first.comparable second with down | up
  · rcases down.tail with rfl | ⟨some,rest⟩
    · rfl
    · have := rest.end_le trie (trie.left_bound i boundI some).2
      have := trie.laid.left_end boundI some
      omega
  · rcases up.tail with rfl | ⟨some,rest⟩
    · rfl
    · have := rest.end_le trie (trie.left_bound j boundJ some).2
      have := trie.laid.left_end boundJ some
      omega

/-- Every node is on the chain of left links below the label at its head. -/
def Reachable (b : BDDTag) : Prop := ∀ i < b.size, Spine b (b.head i) i

theorem reachable_new : Reachable new := by
  intro i inside
  obtain rfl : i = 0 := Nat.lt_one_iff.mp inside
  rw [head_of_label isLabel_zero]
  exact .here

/-- Every label hangs to the right of a node on the chain below its parent. -/
theorem Reachable.label (reach : Reachable b) (trie : Trie b) (label : b.IsLabel l) (nonzero : l ≠ 0) :
    ∃ j, Spine b (b.node l).parent j ∧ (b.node j).right = l := by
  rcases label with rfl | ⟨i,inside,rfl⟩
  · exact absurd rfl nonzero
  · exact ⟨i,trie.right_parent i inside nonzero ▸ reach i inside,rfl⟩

/-- In a trie without cut-off labels, equal offsets mean the same label. -/
theorem Reachable.canonical (reach : Reachable b) (trie : Trie b) (denotes : Denotes b l offs)
    (other : Denotes b c offs) : l = c := by
  induction denotes generalizing c with
  | root =>
    by_cases zero : c = 0
    · exact zero.symm
    · obtain ⟨_,eq,_⟩ := other.cons_of_ne_zero zero
      exact absurd eq (by simp)
  | @label l rest label nonzero parent ih =>
    have nonzero' : c ≠ 0 := by
      rintro rfl
      exact absurd other.eq_nil (by simp)
    obtain ⟨rest',eq,parent'⟩ := other.cons_of_ne_zero nonzero'
    obtain ⟨begins,rfl⟩ := List.cons.inj eq
    have sameParent := ih parent'
    obtain ⟨i,spine,rfl⟩ := reach.label trie label nonzero
    obtain ⟨j,spine',rfl⟩ := reach.label trie other.isLabel nonzero'
    have inside := trie.label_lt parent.isLabel
    rw [← sameParent] at spine'
    have boundI := spine.lt_size trie.laid inside
    have boundJ := spine'.lt_size trie.laid inside
    rw [trie.right_begin i boundI nonzero,trie.right_begin j boundJ nonzero'] at begins
    rw [spine.eq_of_end trie inside spine' begins]

theorem Spine.hung {num : Nat} (spine : Spine b l i) (hung : Hung b b' z last num) (trie : Trie b)
    (inside : l < b.size) (free : (b.node z).left = 0) : Spine b' l i := by
  induction spine with
  | here => exact .here
  | @left k below nonzero ih =>
    have same : (b'.node k).left = (b.node k).left := by
      rw [hung.left k (below.lt_size trie.laid inside),if_neg]
      rintro rfl
      exact nonzero free
    rw [← same] at nonzero ⊢
    exact ih.left nonzero

theorem Reachable.hung {num : Nat} (reach : Reachable b) (hung : Hung b b' z last num)
    (trie : Trie b) (free : (b.node z).left = 0) (fresh : Spine b' last b.size) : Reachable b' := by
  intro i bound
  rcases hung.old_or_fresh bound with old | rfl
  · rw [hung.head_old old]
    exact (reach i old).hung hung trie (trie.label_lt (trie.laid.head_label old)) free
  · rwa [hung.head_fresh trie.laid]

theorem Spine.budded (spine : Spine b l i) (budded : Budded b b' z last) (trie : Trie b)
    (inside : l < b.size) : Spine b' l i := by
  induction spine with
  | here => exact .here
  | @left k below nonzero ih =>
    have same := budded.left k (below.lt_size trie.laid inside)
    rw [← same] at nonzero ⊢
    exact ih.left nonzero

theorem Reachable.budded (reach : Reachable b) (budded : Budded b b' z last) (trie : Trie b)
    (inside : z < b.size) : Reachable b' := by
  intro i bound
  rcases budded.shot.old_or_fresh bound with old | rfl
  · rw [budded.head_old inside old]
    exact (reach i old).budded budded trie (trie.label_lt (trie.laid.head_label old))
  · rw [budded.shot.head_fresh inside]
    exact .here

theorem SameShape.spine (same : SameShape b b') (spine : Spine b l i) : Spine b' l i := by
  induction spine with
  | here => exact .here
  | left _ nonzero ih =>
    rw [← same.left] at nonzero ⊢
    exact ih.left nonzero

theorem Reachable.sameShape (reach : Reachable b) (same : SameShape b b') : Reachable b' := by
  intro i bound
  rw [same.size] at bound
  rw [same.head_eq]
  exact same.spine (reach i bound)

/-- A gap below `last` that `x` would fall into. -/
def Straddles (b : BDDTag) (last x : Nat) : Prop :=
  ∃ z, Spine b last z ∧ (b.node z).left ≠ 0 ∧ (b.node z).seg.end_ < x ∧
    x < (b.node (b.node z).left).seg.end_

/-- Where an offset is appended without a split, its run of zeros hangs at the bottom. -/
theorem ZeroRun.reachable (run : ZeroRun b last last (x - (b.node last).seg.end_) between z)
    (trie : Trie b) (inside : last < b.size) (above : (b.node last).seg.end_ ≤ x)
    (reach : Reachable b) (whole : ¬ Straddles b last x) : Reachable between := by
  cases run with
  | found _ _ => exact reach
  | @hung y _ n spine hung positive total longer _ =>
    have free : (b.node y).left = 0 := by
      by_contra some
      exact whole ⟨y,spine,some,by omega,by have := longer some; omega⟩
    have link := hung.left y (spine.lt_size trie.laid inside)
    rw [if_pos rfl] at link
    have down := (spine.hung hung trie inside free).left (by rw [link]; have := trie.size_pos; omega)
    rw [link] at down
    exact reach.hung hung trie free down

theorem Appended.reachable (appended : Appended b last x b' c) (trie : Trie b)
    (label : b.IsLabel last) (reach : Reachable b) (whole : ¬ Straddles b last x) :
    Reachable b' := by
  obtain ⟨above,fits,run,bit⟩ := appended
  have inside := trie.label_lt label
  have reached := run.reached trie inside (head_of_label label) (by omega)
  have reach := run.reachable trie inside above reach whole
  cases bit with
  | found _ => exact reach
  | budded budded _ =>
    exact reach.budded budded reached.trie reached.inside

/-- What appending below `last` leaves alone: the chains below all other labels. -/
structure Local (b b' : BDDTag) (last : Nat) : Prop where
  label : ∀ i < b.size, b'.IsLabel i → b.IsLabel i
  left : ∀ i < b.size, b.head i ≠ last → (b'.node i).left = (b.node i).left
  fresh : ∀ i, b.size ≤ i → i < b'.size → (b'.node i).left = 0

theorem ZeroRun.onlyBelow {num : Nat} (run : ZeroRun b last last num between z) (trie : Trie b)
    (label : b.IsLabel last) : Local b between last := by
  cases run with
  | found _ _ => exact ⟨fun _ _ h => h,fun _ _ _ => rfl,by omega⟩
  | @hung y _ _ spine hung =>
    refine ⟨fun i _ h => (hung.isLabel_iff i).mp h,?_,?_⟩
    · intro i bound other
      rw [hung.left i bound,if_neg]
      rintro rfl
      exact other ((spine.head_eq trie.laid (trie.label_lt label)).trans (head_of_label label))
    · intro i old new
      have : i = b.size := by rw [hung.size] at new; omega
      rw [this,hung.fresh]

theorem Appended.onlyBelow (appended : Appended b last x b' c) (trie : Trie b)
    (label : b.IsLabel last) : Local b b' last := by
  obtain @⟨between,_,_,_,above,fits,run,bit⟩ := appended
  have inside := trie.label_lt label
  have reached := run.reached trie inside (head_of_label label) (by omega)
  have zeros := run.onlyBelow trie label
  cases bit with
  | found _ => exact zeros
  | budded budded _ =>
    have grow := reached.keeps.size_le
    refine ⟨fun i bound h => zeros.label i bound ((budded.isLabel_old reached.inside (by omega)).mp h),
      fun i bound other => (budded.left i (by omega)).trans (zeros.left i bound other),?_⟩
    intro i old new
    rw [budded.size] at new
    by_cases last : i = between.size
    · rw [last,budded.fresh]
    · rw [budded.left i (by omega)]
      exact zeros.fresh i old (by omega)

theorem Local.denotes (onlyBelow : Local b b' last) (trie : Trie b) (keeps : Keeps b b')
    (denotes : Denotes b' l offs) (bound : l < b.size) : Denotes b l offs := by
  induction denotes with
  | root => exact .root
  | @label l rest label nonzero _ ih =>
    have old := onlyBelow.label l bound label
    rw [keeps.parent l bound] at ih
    rw [keeps.begin l bound old]
    exact .label old nonzero (ih (Nat.lt_trans (trie.parent_lt l bound nonzero) bound))

theorem Local.spine (onlyBelow : Local b b' last) (trie : Trie b) (bound : l < b.size)
    (other : b.head l ≠ last) (spine : Spine b' l z) : Spine b l z := by
  induction spine with
  | here => exact .here
  | @left k _ nonzero ih =>
    have same := onlyBelow.left k (ih.lt_size trie.laid bound)
      (by rw [ih.head_eq trie.laid bound]; exact other)
    rw [same] at nonzero ⊢
    exact ih.left nonzero

/-- The offsets `xs`, appended above the set `offs` one by one, fall into no gap. -/
def Clear (b : BDDTag) (offs xs : List Nat) : Prop :=
  ∀ pre x rest, xs = pre ++ x :: rest → ∀ l, Denotes b l (pre.reverse ++ offs) → ¬ Straddles b l x

theorem Clear.drop {ys : List Nat} (clear : Clear b offs (ys ++ xs)) :
    Clear b (ys.reverse ++ offs) xs := by
  intro pre x rest eq l denotes
  refine clear (ys ++ pre) x rest (by rw [eq,List.append_assoc]) l ?_
  rwa [List.reverse_append,List.append_assoc]

theorem Clear.sameShape {xs : List Nat} (clear : Clear b offs xs) (same : SameShape b b')
    (trie : Trie b) : Clear b' offs xs := by
  rintro pre x rest eq l denotes ⟨z,spine,nonzero,below,above⟩
  rw [same.left] at nonzero above
  rw [same.end_] at below above
  exact clear pre x rest eq l (denotes.keep (same.trie trie) same.symm.keeps)
    ⟨z,same.symm.spine spine,nonzero,below,above⟩

theorem Clear.appended {xs : List Nat} (clear : Clear b offs (x :: xs)) (trie : Trie b)
    (denotes : Denotes b last offs) (appended : Appended b last x b' c) :
    Clear b' (x :: offs) xs := by
  have labelled := appended.labelled trie denotes.isLabel
  have onlyBelow := appended.onlyBelow trie denotes.isLabel
  have keeps := labelled.keeps
  rintro pre y rest eq l denotes' ⟨z,spine,nonzero,below,above⟩
  by_cases old : l < b.size
  · have was := onlyBelow.denotes trie keeps denotes' old
    have other : b.head l ≠ last := by
      rw [head_of_label was.isLabel]
      rintro rfl
      have := congrArg List.length (denotes.unique was)
      simp at this
      omega
    have chain := onlyBelow.spine trie old other spine
    have bound := chain.lt_size trie.laid old
    rw [onlyBelow.left z bound (by rwa [chain.head_eq trie.laid old])] at nonzero above
    rw [keeps.end_ z bound] at below
    rw [keeps.end_ _ (trie.left_bound z bound nonzero).2] at above
    refine clear (x :: pre) y rest (by rw [eq]; rfl) l ?_ ⟨z,chain,nonzero,below,above⟩
    rwa [List.reverse_cons,List.append_assoc]
  · -- a fresh label has no chain below it yet
    have none := onlyBelow.fresh l (by omega) (labelled.trie.label_lt denotes'.isLabel)
    rcases spine.tail with rfl | ⟨some,_⟩
    · exact nonzero none
    · exact some none

theorem Appends.clear {xs ys : List Nat} (appends : Appends b cur xs b' c) (trie : Trie b)
    (reach : Reachable b) (denotes : Denotes b cur offs) (clear : Clear b offs (xs ++ ys)) :
    Reachable b' ∧ Clear b' (xs.reverse ++ offs) ys := by
  induction appends generalizing ys with
  | start => exact ⟨reach,clear⟩
  | @offset xs mid m x _ _ before appended ih =>
    rw [List.append_assoc] at clear
    obtain ⟨reach,clear⟩ := ih clear
    have grown := before.grown trie denotes
    refine ⟨appended.reachable grown.trie grown.denotes.isLabel reach ?_,?_⟩
    · exact clear [] x ys rfl m grown.denotes
    · rw [List.reverse_append]
      exact clear.appended grown.trie grown.denotes appended
  | sign before same ih =>
    obtain ⟨reach,clear⟩ := ih clear
    exact ⟨reach.sameShape same,clear.sameShape same (before.grown trie denotes).trie⟩

theorem Extended.reachable {wanted : Nat → Prop} {xs : List Nat} (extended : Extended b wanted b' l)
    (trie : Trie b) (reach : Reachable b) (sorted : xs.Pairwise (· < ·))
    (exact : ∀ v, wanted v ↔ v ∈ xs) (clear : Clear b [] xs) : Reachable b' := by
  obtain ⟨base,offs,ys,denotes,appends,increasing,members⟩ := extended.chain
  have same : xs = offs.reverse ++ ys := by
    refine sorted.eq_of_mem_iff increasing fun v => ?_
    rw [← exact v,members v,List.mem_append,List.mem_reverse]
  have above := (same ▸ clear).drop
  rw [List.reverse_reverse,List.append_nil] at above
  rw [← List.append_nil ys] at above
  exact (appends.clear trie reach denotes above).1

end Libdft.BddTag.BDDTag

namespace Libdft.BddTag.Session

open BDDTag (Clear Reachable)

variable {s next : Session} {call : Call}

/-- No two labels whose segments cover the same offsets, LEN aside. -/
def Canonical (s : Session) : Prop :=
  ∀ e ∈ s.log, ∀ e' ∈ s.log, ∀ offsets, Finds s.tag e.label offsets →
    Finds s.tag e'.label offsets → e.label &&& lbMask = e'.label &&& lbMask

/-- The call wants no offset inside a gap that already hangs below the label of the
smaller offsets it wants. -/
def SplitFree (s : Session) : Call → Prop
  | .insert pos => Clear s.tag [] [pos]
  | .combine l1 l2 => ∀ offsets1 offsets2 f g, Operand s.log l1 offsets1 f →
      Operand s.log l2 offsets2 g → Clear s.tag [] ((offsets1 ∪ offsets2).sort (· ≤ ·))

theorem step_reachable (inv : Invariant s) (reach : Reachable s.tag)
    (step : Guarded SplitFree Step s call next) : Reachable next.tag := by
  obtain ⟨clear,step⟩ := step
  cases step with
  | @insert pos _ _ small returns =>
    have extended := returns.post ⟨2 ^ 32 + 1,fun fuel h => inv.insert_ends small (by omega)⟩
    have whole : Clear s.tag [] [pos] := clear
    exact extended.reachable inv.trie reach (by simp) (by simp) whole
  | @combine _ offsets1 _ _ offsets2 _ _ _ first second returns =>
    obtain ⟨m,_,extended⟩ := returns.post
      ⟨2 ^ 32 + 1,fun fuel h => inv.combine_ends first second (by omega)⟩
    exact extended.reachable inv.trie reach (Finset.sortedLT_sort _).pairwise
      (fun v => (Finset.mem_sort _).symm) (clear _ _ _ _ first second)

theorem run_reachable {calls : List Call} (run : Run (Guarded SplitFree Step) start calls s) :
    Invariant s ∧ Reachable s.tag :=
  run.invariant (fun s => Invariant s ∧ Reachable s.tag)
    (fun _ _ _ keep step => ⟨step_invariant keep.1 step.2,step_reachable keep.1 keep.2 step⟩)
    ⟨invariant_start,BDDTag.reachable_new⟩

theorem canonical_of_split_free {calls : List Call}
    (run : Run (Guarded SplitFree Step) start calls s) : Canonical s := by
  obtain ⟨inv,reach⟩ := run_reachable run
  intro e member e' member' offsets finds finds'
  have means := inv.means e member
  have means' := inv.means e' member'
  have same : e.offsets = e'.offsets :=
    ((means.finds inv.trie).unique finds).trans (finds'.unique (means'.finds inv.trie))
  obtain ⟨lb,offs,label,denotes,exact⟩ := means.denotes
  obtain ⟨lb',offs',label',denotes',exact'⟩ := means'.denotes
  have equal : offs = offs' := by
    refine (denotes.descending inv.trie).eq_of_mem_iff (denotes'.descending inv.trie) fun v => ?_
    rw [← exact,same,exact']
  subst equal
  rw [label,label',BDDTag.flagged_and_mask (inv.trie.laid.label_small denotes.isLabel),
    BDDTag.flagged_and_mask (inv.trie.laid.label_small denotes'.isLabel)]
  exact reach.canonical inv.trie denotes denotes'

theorem clear_of_nodes {b : BDDTag} {x : Nat} (h : ∀ z < b.size, (b.node z).left = 0 ∨
    x ≤ (b.node z).seg.end_ ∨ (b.node (b.node z).left).seg.end_ ≤ x) : Clear b [] [x] := by
  rintro pre y rest eq l _ ⟨z,_,nonzero,below,above⟩
  have member : y ∈ [x] := by rw [eq]; simp
  obtain rfl := List.mem_singleton.mp member
  by_cases bound : z < b.size
  · have := h z bound
    omega
  · refine nonzero ?_
    have outside : b.nodes.size ≤ z := Nat.le_of_not_lt bound
    simp [BDDTag.node,outside,TagNode.make]

/-- Rising offsets hang each gap below the last one; the first is then asked for again. -/
theorem rising_run : ∃ s, Run (Guarded SplitFree Step) start [.insert 3,.insert 5,.insert 3] s := by
  let first : BDDTag := ⟨#[⟨1,0,0,⟨false,0,0⟩⟩,⟨0,2,0,⟨false,0,3⟩⟩,⟨0,0,0,⟨false,3,4⟩⟩]⟩
  let second : BDDTag := ⟨#[⟨1,0,0,⟨false,0,0⟩⟩,⟨3,2,0,⟨false,0,3⟩⟩,⟨0,0,0,⟨false,3,4⟩⟩,
    ⟨0,4,0,⟨false,3,5⟩⟩,⟨0,0,0,⟨false,5,6⟩⟩]⟩
  have one : Guarded SplitFree Step start (.insert 3) ⟨first,[⟨2,{3},false⟩]⟩ :=
    ⟨clear_of_nodes (by decide),.insert (by decide) ((BDDTag.insert_steady _ _).returns (n := 7) (by decide))⟩
  have two : Guarded SplitFree Step ⟨first,[⟨2,{3},false⟩]⟩ (.insert 5)
      ⟨second,[⟨4,{5},false⟩,⟨2,{3},false⟩]⟩ :=
    ⟨clear_of_nodes (by decide),.insert (by decide) ((BDDTag.insert_steady _ _).returns (n := 7) (by decide))⟩
  have three : Guarded SplitFree Step ⟨second,[⟨4,{5},false⟩,⟨2,{3},false⟩]⟩ (.insert 3)
      ⟨second,[⟨2,{3},false⟩,⟨4,{5},false⟩,⟨2,{3},false⟩]⟩ :=
    ⟨clear_of_nodes (by decide),.insert (by decide) ((BDDTag.insert_steady _ _).returns (n := 7) (by decide))⟩
  exact ⟨_,.cons one (.cons two (.cons three .nil))⟩

theorem canonical_of_split_free_rising : ∃ s,
    Run (Guarded SplitFree Step) start [.insert 3,.insert 5,.insert 3] s ∧ Canonical s := by
  obtain ⟨s,run⟩ := rising_run
  exact ⟨s,run,canonical_of_split_free run⟩

/-- After the split at 3 the label of 5 is cut off, and 5 gets a second one. -/
theorem split_not_canonical : ¬ ∀ calls s, Run Step start calls s → Canonical s := by
  intro claim
  have run : ∃ b, Run Step start [.insert 5,.insert 3,.insert 5]
      ⟨b,[⟨6,{5},false⟩,⟨4,{3},false⟩,⟨2,{5},false⟩]⟩ :=
    ⟨_,.cons (.insert (l := 2) (by decide) ((BDDTag.insert_steady _ _).returns (n := 7) rfl)) <|
      .cons (.insert (l := 4) (by decide) ((BDDTag.insert_steady _ _).returns (n := 7) rfl)) <|
      .cons (.insert (l := 6) (by decide) ((BDDTag.insert_steady _ _).returns (n := 7) rfl)) .nil⟩
  obtain ⟨b,run⟩ := run
  have inv := run_invariant run
  have finds (e : Entry) (member : e ∈ [⟨6,{5},false⟩,⟨4,{3},false⟩,⟨2,{5},false⟩]) :
      Finds b e.label e.offsets := (inv.means e member).finds inv.trie
  have same := claim _ _ run _ (.head _) _ (.tail _ (.tail _ (.head _))) _
    (finds _ (.head _)) (finds _ (.tail _ (.tail _ (.head _))))
  exact absurd same (by decide)

end Libdft.BddTag.Session
