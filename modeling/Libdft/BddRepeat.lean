import Libdft.BddCanonical
import Libdft.BddOffsets

/-! A union that is asked for again. The first call leaves the chains of parents as they were, so
the second one finds the same base and the same stack, and every gap and bit that the first one
hung, so it hangs nothing. Without `set_sign` no segment has a sign to set. -/
namespace Libdft.BddTag.BDDTag

variable {b b' between : BDDTag} {c i l m cur last x num fuel : Nat} {xs stack : List Nat}

/-- No segment has its sign set. -/
def Unsigned (b : BDDTag) : Prop := ∀ i, (b.node i).seg.sign = false

namespace Unsigned

theorem new : Unsigned new := fun i => by rw [node_new]; rfl

theorem pushNode (plain : Unsigned b) (parent x y : Nat) : Unsigned (b.pushNode (.make parent x y)) := by
  intro i
  rw [node_pushNode]
  split
  · rfl
  · exact plain i

theorem modify (plain : Unsigned b) (f : TagNode → TagNode) (keeps : ∀ n, (f n).seg.sign = n.seg.sign) (i : Nat) :
    Unsigned ⟨b.nodes.modify i f⟩ := by
  intro j
  have before := plain j
  simp only [node,Array.getD_eq_getD_getElem?,Array.getElem?_modify] at before ⊢
  split
  · cases read : b.nodes[j]? with
    | none => rfl
    | some n =>
      rw [read] at before
      exact (keeps n).trans before
  · exact before

theorem setLeft (plain : Unsigned b) (i c : Nat) : Unsigned (b.setLeft i c) :=
  plain.modify (fun n => { n with left := c }) (fun _ => rfl) i

theorem setRight (plain : Unsigned b) (i c : Nat) : Unsigned (b.setRight i c) :=
  plain.modify (fun n => { n with right := c }) (fun _ => rfl) i

theorem setParent (plain : Unsigned b) (i c : Nat) : Unsigned (b.setParent i c) :=
  plain.modify (fun n => { n with parent := c }) (fun _ => rfl) i

theorem setBegin (plain : Unsigned b) (i c : Nat) : Unsigned (b.setBegin i c) :=
  plain.modify (fun n => { n with seg := { n.seg with begin := tagOff c } }) (fun _ => rfl) i

theorem allocNode (plain : Unsigned b) (parent x y : Nat) :
    (b.allocNode parent x y).Allows fun r => Unsigned r.1 := by
  dsimp only [BDDTag.allocNode]
  split
  · exact .returned (plain.pushNode parent x y)
  · nofun

theorem insertNZeros (plain : Unsigned b) (fuel cur num last : Nat) :
    (b.insertNZeros fuel cur num last).Allows fun r => Unsigned r.1 := by
  refine loop_allows (fun s => Unsigned s.1) ?_ plain fuel
  rintro ⟨b,i,n⟩ plain
  dsimp only [insertNZerosPass]
  split
  · exact .returned plain
  split
  · refine (plain.allocNode _ _ _).bind fun r plain => ?_
    exact .returned (plain.setLeft _ _)
  split
  · refine (plain.allocNode _ _ _).bind fun r plain => ?_
    exact .returned ((plain.setLeft _ _).setBegin _ _)
  · exact .returned plain

theorem insertNOnes (plain : Unsigned b) (fuel cur num last : Nat) :
    (b.insertNOnes fuel cur num last).Allows fun r => Unsigned r.1 := by
  refine loop_allows (fun s => Unsigned s.1) ?_ plain fuel
  rintro ⟨b,i,n⟩ plain
  dsimp only [insertNOnesPass]
  split
  · exact .returned plain
  split
  · refine (plain.allocNode _ _ _).bind fun r plain => ?_
    exact .returned (plain.setRight _ _)
  split
  · refine (plain.allocNode _ _ _).bind fun r plain => ?_
    exact .returned ((((plain.setRight _ _).setRight _ _).setParent _ _).setBegin _ _)
  · exact .returned plain

theorem mergeSeg (plain : Unsigned b) (fuel cur : Nat) (seg : TagSeg) :
    (b.mergeSeg fuel cur seg).Allows fun r => Unsigned r.1 := by
  dsimp only [BDDTag.mergeSeg]
  split
  · split
    · exact plain.insertNOnes _ _ _ _
    · exact .returned plain
  · exact (plain.insertNZeros _ _ _ _).bind fun r plain => plain.insertNOnes _ _ _ _

theorem reinsert (plain : Unsigned b) (fuel cur : Nat) (stack : List Nat) :
    (b.reinsert fuel cur stack).Allows fun r => Unsigned r.1 := by
  refine loop_allows (fun s => Unsigned s.1) ?_ plain fuel
  rintro ⟨b,i,_ | ⟨next,stack⟩⟩ plain
  · exact .returned plain
  · refine (Unsigned.mergeSeg plain fuel i (b.node next).seg).bind fun r kept => .returned ?_
    have off : (b.node next).seg.sign = false := plain next
    simpa only [off,Bool.false_eq_true,if_false] using kept

theorem insert (plain : Unsigned b) (fuel pos : Nat) : (b.insert fuel pos).Allows fun r => Unsigned r.1 :=
  (plain.insertNZeros fuel root pos root).bind fun r plain => plain.insertNOnes fuel r.2 1 root

theorem combine (plain : Unsigned b) (fuel l1 l2 : Nat) : (b.combine fuel l1 l2).Allows fun r => Unsigned r.1 := by
  dsimp only [BDDTag.combine]
  split
  · exact .returned plain
  split
  · exact .returned plain
  · have walk (x y : Nat) : (b.gather fuel x y).Allows fun _ => True := fun _ _ => True.intro
    refine (walk _ _).bind fun s _ => ?_
    exact (plain.reinsert fuel _ s.stack).bind fun r plain => .returned plain

end Unsigned

/-! The nodes that a call has found or hung. -/

/-- The way from a label over the bits of the offsets that follow it. -/
inductive Path (b : BDDTag) : Nat → List Nat → Nat → Prop where
  | stop : Path b h [] h
  | next : Spine b h z → (b.node z).seg.end_ = v → (b.node z).right ≠ 0 → Path b (b.node z).right vs e →
      Path b h (v :: vs) e

namespace Path

variable {h z e v : Nat} {vs : List Nat}

theorem snoc (path : Path b h vs m) (spine : Spine b m z) (ends : (b.node z).seg.end_ = v)
    (some : (b.node z).right ≠ 0) : Path b h (vs ++ [v]) (b.node z).right := by
  induction path with
  | stop => exact .next spine ends some .stop
  | next spine' ends' some' _ ih => exact .next spine' ends' some' (ih spine)

theorem end_le (path : Path b h vs e) (trie : Trie b) (inside : h < b.size) :
    (b.node h).seg.end_ ≤ (b.node e).seg.end_ := by
  induction path with
  | stop => exact Nat.le_refl _
  | next spine _ some _ ih =>
    have bound := spine.lt_size trie.laid inside
    have := spine.end_le trie inside
    have := trie.laid.right_end bound some
    have := ih (trie.laid.right_lt _ bound)
    omega

theorem sameShape (path : Path b h vs e) (same : SameShape b b') : Path b' h vs e := by
  induction path with
  | stop => exact .stop
  | @next h z _ _ _ spine ends some _ ih =>
    rw [← same.right] at some ih
    exact .next (same.spine spine) ((same.end_ z).trans ends) some ih

end Path

/-- The chains below other labels are still there. -/
theorem Local.spine_kept {z : Nat} (onlyBelow : Local b b' last) (trie : Trie b) (bound : l < b.size)
    (other : b.head l ≠ last) (spine : Spine b l z) : Spine b' l z := by
  induction spine with
  | here => exact .here
  | @left k below nonzero ih =>
    have same := onlyBelow.left k (below.lt_size trie.laid bound)
      (by rw [below.head_eq trie.laid bound]; exact other)
    rw [← same] at nonzero ⊢
    exact ih.left nonzero

/-- The chain down to where a run of zeros was hung leads to that run. -/
theorem Spine.to_fresh {z n : Nat} (spine : Spine b l z) (hung : Hung b b' z last n) (trie : Trie b)
    (inside : l < b.size) : Spine b' l b.size := by
  have bound := spine.lt_size trie.laid inside
  have kept (k : Nat) (upper : Spine b l k) (early : (b.node k).seg.end_ ≤ (b.node z).seg.end_) : Spine b' l k := by
    induction upper with
    | here => exact .here
    | @left k below nonzero ih =>
      have longer := trie.laid.left_end (below.lt_size trie.laid inside) nonzero
      have same : (b'.node k).left = (b.node k).left := by
        rw [hung.left k (below.lt_size trie.laid inside),if_neg]
        rintro rfl
        omega
      rw [← same] at nonzero ⊢
      exact (ih (by omega)).left nonzero
  have link := hung.left z bound
  rw [if_pos rfl] at link
  have down := (kept z spine (Nat.le_refl _)).left (by rw [link]; have := trie.size_pos; omega)
  rwa [link] at down

theorem ZeroRun.spine {z : Nat} (run : ZeroRun b last last num between z) (trie : Trie b) (inside : last < b.size) :
    Spine between last z := by
  cases run with
  | found spine _ => exact spine
  | hung spine hung => exact spine.to_fresh hung trie inside

/-- The offset that was appended is there. -/
theorem Appended.path (appended : Appended b last x b' c) (trie : Trie b) (label : b.IsLabel last) :
    Path b' last [x] c := by
  obtain @⟨between,z,_,_,above,fits,run,bit⟩ := appended
  have inside := trie.label_lt label
  have reached := run.reached trie inside (head_of_label label) (by omega)
  have spine := run.spine trie inside
  have ends : (between.node z).seg.end_ = x := by rw [reached.end_]; omega
  cases bit with
  | found some => exact .next spine ends some .stop
  | budded budded _ =>
    have link := budded.right z reached.inside
    rw [if_pos rfl] at link
    have fresh : (b'.node z).right ≠ 0 := by
      have := reached.trie.size_pos
      omega
    have step : Path b' last [x] (b'.node z).right :=
      .next (spine.budded budded reached.trie (Nat.lt_of_lt_of_le inside reached.keeps.size_le))
        (by rw [budded.seg z reached.inside,ends]) fresh .stop
    rwa [link] at step

theorem Appended.right {z : Nat} (appended : Appended b last x b' c) (trie : Trie b) (label : b.IsLabel last)
    (bound : z < b.size) (some : (b.node z).right ≠ 0) : (b'.node z).right = (b.node z).right := by
  obtain @⟨between,y,_,_,above,fits,run,bit⟩ := appended
  have reached := run.reached trie (trie.label_lt label) (head_of_label label) (by omega)
  have zeros : (between.node z).right = (b.node z).right := by
    cases run with
    | found _ _ => rfl
    | hung _ hung => exact hung.right z bound
  cases bit with
  | found _ => exact zeros
  | budded budded _ =>
    rw [budded.right z (Nat.lt_of_lt_of_le bound reached.keeps.size_le),if_neg,zeros]
    rintro rfl
    exact some (zeros.symm.trans budded.free)

/-- What was there before an offset was appended further on is still there. -/
theorem Path.appended {h e : Nat} {vs : List Nat} (path : Path b h vs e) (trie : Trie b)
    (appended : Appended b last x b' c) (label : b.IsLabel last) (inside : b.IsLabel h)
    (before : (b.node e).seg.end_ ≤ (b.node last).seg.end_) : Path b' h vs e := by
  induction path with
  | stop => exact .stop
  | @next h z _ _ e spine ends some rest ih =>
    have bound := trie.label_lt inside
    have boundZ := spine.lt_size trie.laid bound
    have other : h ≠ last := by
      rintro rfl
      have := spine.end_le trie bound
      have := trie.laid.right_end boundZ some
      have := rest.end_le trie (trie.laid.right_lt z boundZ)
      omega
    have keeps := (appended.labelled trie label).keeps
    have rightLink := appended.right trie label boundZ some
    have later := ih (.inr ⟨z,boundZ,rfl⟩) before
    rw [← rightLink] at some later
    refine .next ?_ ((keeps.end_ z boundZ).trans ends) some later
    exact (appended.onlyBelow trie label).spine_kept trie bound (by rwa [head_of_label inside]) spine

theorem Appends.path {offs : List Nat} (appends : Appends b cur xs b' c) (trie : Trie b) (denotes : Denotes b cur offs) :
    Path b' cur xs c := by
  induction appends with
  | start => exact .stop
  | @offset xs mid m x next l before appended ih =>
    have grown := before.grown trie denotes
    have label := grown.denotes.isLabel
    have kept := ih.appended grown.trie appended label (grown.keeps.label _ denotes.isLabel) (Nat.le_refl _)
    obtain _ | ⟨spine,ends,some,_ | _⟩ := appended.path grown.trie label
    exact kept.snoc spine ends some
  | sign _ same ih => exact ih.sameShape same

/-! Calls that find what they look for. -/

theorem insertNZeros_found {z : Nat} (trie : Trie b) (inside : cur < b.size) (spine : Spine b cur z)
    (total : (b.node z).seg.end_ = (b.node cur).seg.end_ + num) (budget : num < fuel) :
    b.insertNZeros fuel cur num last = .returned (b,z) := by
  refine loop_reaches (fun s => s.1 = b ∧ Spine b cur s.2.1 ∧ Spine b s.2.1 z ∧
    (b.node s.2.1).seg.end_ + s.2.2 = (b.node z).seg.end_) (fun s => s.2.2) ?_ ⟨rfl,.here,spine,total.symm⟩ budget
  rintro ⟨b₁,i,n⟩ ⟨same,upper,lower,rest⟩
  obtain rfl : b₁ = b := same
  dsimp only at upper lower rest
  have bound := upper.lt_size trie.laid inside
  dsimp only [insertNZerosPass]
  by_cases stop : n = 0
  · rw [if_pos stop]
    have here : i = z := upper.eq_of_end trie inside spine (by omega)
    exact ⟨_,rfl,congrArg (Prod.mk b₁) here⟩
  rw [if_neg stop]
  rcases lower.tail with here | ⟨some,down⟩
  · rw [here] at rest
    omega
  have longer := trie.laid.left_end bound some
  have reach := down.end_le trie (trie.laid.left_lt i bound)
  rw [if_neg some,getSegSize_left trie.laid bound some,if_neg (by omega)]
  exact ⟨_,rfl,⟨rfl,upper.left some,down,by dsimp only; omega⟩,by dsimp only; omega⟩

theorem insertNOnes_found (trie : Trie b) (inside : cur < b.size) (some : (b.node cur).right ≠ 0) (budget : 1 < fuel) :
    b.insertNOnes fuel cur 1 last = .returned (b,(b.node cur).right) := by
  refine loop_reaches (fun s => s = (b,cur,1) ∨ s = (b,(b.node cur).right,0)) (fun s => s.2.2) ?_ (.inl rfl) budget
  rintro _ (rfl | rfl)
  · dsimp only [insertNOnesPass]
    rw [if_neg Nat.one_ne_zero,if_neg some,right_size trie inside some,if_neg (Nat.lt_irrefl 1)]
    exact ⟨_,rfl,.inr rfl,Nat.one_pos⟩
  · exact ⟨_,rfl,rfl⟩

/-- The stack that is left when `cur` has been reached, and the way from there. -/
structure Retrace (b : BDDTag) (goal cur : Nat) (stack : List Nat) : Prop where
  label : b.IsLabel cur
  labels : ∀ c ∈ stack, b.IsLabel c ∧ c ≠ 0
  ascending : (b.begins stack).Pairwise (· < ·)
  above : ∀ v ∈ b.begins stack, (b.node cur).seg.end_ ≤ v + 1
  path : Path b cur (b.missing cur stack) goal

namespace Retrace

variable {goal next : Nat}

/-- A segment that `cur` ends in is passed over. -/
theorem skip (r : Retrace b goal cur (next :: stack)) (known : (b.node cur).seg.end_ = (b.node next).seg.begin + 1) :
    Retrace b goal cur stack := by
  refine ⟨r.label,fun c member => r.labels c (.tail _ member),r.ascending.of_cons,
    fun v member => r.above v (.tail _ member),?_⟩
  have path := r.path
  simpa [missing,begins,known] using path

/-- Any other segment is the first thing on the way. -/
theorem step (r : Retrace b goal cur (next :: stack)) (trie : Trie b)
    (under : (b.node cur).seg.end_ ≤ (b.node next).seg.begin) :
    ∃ z, Spine b cur z ∧ (b.node z).seg.end_ = (b.node next).seg.begin ∧ (b.node z).right ≠ 0 ∧
      Retrace b goal (b.node z).right stack := by
  have above : ∀ v ∈ b.begins stack, (b.node next).seg.begin < v := (List.pairwise_cons.mp r.ascending).1
  have rest : b.missing cur stack = b.begins stack :=
    List.filter_eq_self.mpr fun v member => by have := above v member; simp only [decide_eq_true_eq]; omega
  have first : b.missing cur (next :: stack) = (b.node next).seg.begin :: b.begins stack := by
    rw [← rest,missing,missing,begins,List.map_cons,List.filter_cons_of_pos (by simpa using under)]
    rfl
  have path := r.path
  rw [first] at path
  obtain _ | ⟨spine,ends,some,path⟩ := path
  rename_i z
  have inside := spine.lt_size trie.laid (trie.label_lt r.label)
  have reached : (b.node (b.node z).right).seg.end_ = (b.node next).seg.begin + 1 := by
    rw [trie.right_end z inside some,ends]
  refine ⟨z,spine,ends,some,.inr ⟨z,inside,rfl⟩,fun c member => r.labels c (.tail _ member),r.ascending.of_cons,?_,?_⟩
  · intro v member
    have := above v member
    omega
  · rwa [missing,List.filter_eq_self.mpr fun v member => by
      have := above v member
      simp only [decide_eq_true_eq]
      omega]

end Retrace

theorem mergeSeg_found {goal next : Nat} (r : Retrace b goal cur (next :: stack)) (trie : Trie b)
    (budget : 2 ^ 32 < fuel) :
    ∃ l, b.mergeSeg fuel cur (b.node next).seg = .returned (b,l) ∧ Retrace b goal l stack := by
  obtain ⟨label,nonzero⟩ := r.labels next List.mem_cons_self
  have ends := trie.label_end label nonzero
  have fits := trie.end_lt next (trie.label_lt label)
  have above : (b.node cur).seg.end_ ≤ (b.node next).seg.begin + 1 := r.above _ List.mem_cons_self
  have inside := trie.label_lt r.label
  unfold mergeSeg
  by_cases beyond : (b.node cur).seg.end_ < (b.node next).seg.end_
  · obtain ⟨z,spine,touch,some,rest⟩ := r.step trie (by omega)
    refine ⟨_,?_,rest⟩
    have insideZ := spine.lt_size trie.laid inside
    by_cases touches : (b.node next).seg.begin ≤ (b.node cur).seg.end_
    · have here : cur = z := (Spine.here).eq_of_end trie inside spine (by omega)
      have one : offSub (b.node next).seg.end_ (b.node cur).seg.end_ = 1 := by rw [offSub]; omega
      rw [if_pos touches,if_pos beyond,one,insertNOnes_found trie inside (here ▸ some) (by omega),here]
    · have one : offSub (b.node next).seg.end_ (b.node next).seg.begin = 1 := by rw [offSub]; omega
      have gap : offSub (b.node next).seg.begin (b.node cur).seg.end_ =
          (b.node next).seg.begin - (b.node cur).seg.end_ := by rw [offSub]; omega
      rw [if_neg touches,one,gap,insertNZeros_found trie inside spine (by omega) (by omega),Outcome.returned_bind]
      exact insertNOnes_found trie insideZ some (by omega)
  · rw [if_pos (by omega),if_neg beyond]
    exact ⟨cur,rfl,r.skip (by omega)⟩

theorem reinsert_found {goal : Nat} (r : Retrace b goal cur stack) (trie : Trie b) (plain : Unsigned b)
    (deep : stack.length < fuel) (budget : 2 ^ 32 < fuel) : b.reinsert fuel cur stack = .returned (b,goal) := by
  refine loop_reaches (fun s => s.1 = b ∧ Retrace b goal s.2.1 s.2.2) (fun s => s.2.2.length) ?_ ⟨rfl,r⟩ deep
  rintro ⟨b₁,i,stack₁⟩ ⟨same,r₁⟩
  obtain rfl : b₁ = b := same
  cases stack₁ with
  | nil =>
    obtain _ | _ := r₁.path
    exact ⟨_,rfl,rfl⟩
  | cons next stack₁ =>
    obtain ⟨l,merged,rest⟩ := mergeSeg_found r₁ trie budget
    have off : (b₁.node next).seg.sign = false := plain next
    refine ⟨.again (b₁,l,stack₁),?_,⟨rfl,rest⟩,by simp⟩
    simp [reinsertPass,merged,off]

/-- Chains that a later state has kept are walked the same way. -/
theorem gather_kept {l1 l2 : Nat} (trie : Trie b) (keeps : Keeps b b') (label1 : b.IsLabel l1) (label2 : b.IsLabel l2) :
    b'.gather fuel l1 l2 = b.gather fuel l1 l2 := by
  refine loop_congr (fun s => b.IsLabel s.l1 ∧ b.IsLabel s.l2) ?_ ?_ ⟨label1,label2⟩ fuel
  · rintro s ⟨first,second⟩
    have bound1 := trie.label_lt first
    have bound2 := trie.label_lt second
    simp only [gatherPass,Gather.note,keeps.begin _ bound1 first,keeps.begin _ bound2 second,keeps.parent _ bound1,
      keeps.parent _ bound2]
  · rintro s next ⟨first,second⟩ pass
    have parent1 := trie.parent_label _ (trie.label_lt first)
    have parent2 := trie.parent_label _ (trie.label_lt second)
    unfold gatherPass at pass
    split at pass
    · split at pass
      · cases pass
        unfold Gather.note
        split <;> exact ⟨first,parent2⟩
      · cases pass
        unfold Gather.note
        split <;> exact ⟨parent1,second⟩
    · cases pass

theorem combine_comm (b : BDDTag) (fuel l1 l2 : Nat) : b.combine fuel l1 l2 = b.combine fuel l2 l1 := by
  unfold combine
  by_cases zero1 : l1 = 0
  · by_cases zero2 : l2 = 0 <;> simp [zero1,zero2]
  by_cases zero2 : l2 = 0
  · simp [zero1,zero2]
  by_cases same : l1 = l2
  · rw [same]
  · have other : ¬ l2 = l1 := fun eq => same eq.symm
    simp only [zero1,zero2,same,other,or_false,if_false,Bool.or_comm (hasLenLb l2),Nat.min_comm (l2 &&& lbMask),
      Nat.max_comm (l2 &&& lbMask)]

/-- What was taken in from a stack can be read off again. -/
theorem Gathered.retrace {wanted : Nat → Prop} {room base : Nat} (gathered : Gathered b wanted room base stack)
    (trie : Trie b) (deep : stack.length < fuel) (budget : 2 ^ 32 < fuel)
    (fill : b.reinsert fuel base stack = .returned (b',m)) : Trie b' ∧ Keeps b b' ∧ Retrace b' m base stack := by
  obtain ⟨offs,denotes,refill,-,-⟩ := gathered.refill trie
  have appends : Appends b base (b.missing base stack) b' m := (reinsert_ends refill deep budget).of_eq fill
  obtain ⟨grown,keeps,-⟩ := appends.grown trie denotes
  have begins := begins_keep trie keeps gathered.labels
  have ends := keeps.end_ base (trie.label_lt denotes.isLabel)
  refine ⟨grown,keeps,keeps.label _ denotes.isLabel,fun c member => ?_,?_,?_,?_⟩
  · exact ⟨keeps.label c (gathered.labels c member).1,(gathered.labels c member).2⟩
  · rw [begins]
    exact gathered.ascending
  · rw [begins,ends]
    exact refill.above
  · rw [missing,begins,ends]
    exact appends.path trie denotes

/-- A union that was just formed is found again, and the nodes stay as they are. -/
theorem combine_found {f g : Bool} {m1 m2 r : Nat} {offs1 offs2 : List Nat} (trie : Trie b) (plain : Unsigned b)
    (first : Denotes b m1 offs1) (second : Denotes b m2 offs2)
    (returns : Returns (fun fuel => b.combine fuel (flagged f m1) (flagged g m2)) (b',r)) :
    Returns (fun fuel => b'.combine fuel (flagged f m1) (flagged g m2)) (b',r) := by
  have small1 := trie.laid.label_small first.isLabel
  have small2 := trie.laid.label_small second.isLabel
  rcases combine_cases (f := f) (g := g) small1 small2 with ⟨m,-,answer⟩ | ⟨-,-,both⟩
  · obtain ⟨rfl,rfl⟩ := Prod.mk.inj (returns.eq_of (answer b))
    exact returns
  obtain ⟨n,run⟩ := returns
  obtain ⟨enough,le,large⟩ : ∃ enough, n ≤ enough ∧ 2 ^ 33 ≤ enough :=
    ⟨max n (2 ^ 33),Nat.le_max_left ..,Nat.le_max_right ..⟩
  have once : b.combine enough (flagged f m1) (flagged g m2) = .returned (b',r) := run enough le
  rw [both] at once
  cases walk : b.gather enough (min m1 m2) (max m1 m2) with
  | trapped => simp [walk] at once
  | running => simp [walk] at once
  | returned s =>
    rw [walk,Outcome.returned_bind] at once
    cases fill : b.reinsert enough (if 0 < s.l1 then s.l1 else s.l2) s.stack with
    | trapped => simp [fill] at once
    | running => simp [fill] at once
    | returned filled =>
      rw [fill,Outcome.returned_bind] at once
      obtain ⟨next,m⟩ := filled
      obtain ⟨rfl,rfl⟩ := Prod.mk.inj (Outcome.returned.inj once)
      obtain ⟨wanted,gathered⟩ := (gather_sorted trie first second (by omega)).of_eq walk
      have short := gathered.short
      obtain ⟨trieNext,keeps,retrace⟩ := gathered.retrace trie (by omega) (by omega) fill
      have plainNext : Unsigned next := plain.reinsert _ _ _ _ fill
      have label1 : b.IsLabel (min m1 m2) := by
        rcases min_choice m1 m2 with eq | eq <;> rw [eq]
        exacts [first.isLabel,second.isLabel]
      have label2 : b.IsLabel (max m1 m2) := by
        rcases max_choice m1 m2 with eq | eq <;> rw [eq]
        exacts [first.isLabel,second.isLabel]
      refine ⟨enough,fun fuel more => ?_⟩
      have again : b.gather fuel (min m1 m2) (max m1 m2) = .returned s :=
        (loop_steady_fixed (gatherPass b) _ enough fuel more fun stuck => nomatch walk.symm.trans stuck).trans walk
      show next.combine fuel (flagged f m1) (flagged g m2) = _
      rw [both,gather_kept trie keeps label1 label2,again,Outcome.returned_bind,
        reinsert_found retrace trieNext plainNext (by omega) (by omega)]
      rfl

end Libdft.BddTag.BDDTag

namespace Libdft.BddTag.Session

open BDDTag

variable {s next : Session} {b : BDDTag} {l1 l2 r : Nat} {offsets1 offsets2 : Finset Nat} {f g : Bool}

theorem run_unsigned {calls : List Call} (run : Run Step start calls s) : Unsigned s.tag := by
  refine run.invariant (fun s => Unsigned s.tag) ?_ Unsigned.new
  rintro s call next plain (⟨-,n,returns⟩ | ⟨-,-,n,returns⟩)
  · exact plain.insert n _ _ (returns n (Nat.le_refl n))
  · exact plain.combine n _ _ _ (returns n (Nat.le_refl n))

/-- A union asked for again, in either order, is the same label and costs no node. -/
theorem combine_again {calls : List Call} (run : Run Step start calls s) (first : Operand s.log l1 offsets1 f)
    (second : Operand s.log l2 offsets2 g) (returns : Returns (fun fuel => s.tag.combine fuel l1 l2) (b,r)) :
    Returns (fun fuel => b.combine fuel l1 l2) (b,r) ∧ Returns (fun fuel => b.combine fuel l2 l1) (b,r) := by
  have inv := run_invariant run
  obtain ⟨m1,xs,rfl,denotes1,-⟩ := (inv.operand first).denotes
  obtain ⟨m2,ys,rfl,denotes2,-⟩ := (inv.operand second).denotes
  have again := combine_found inv.trie (run_unsigned run) denotes1 denotes2 returns
  refine ⟨again,?_⟩
  have swapped (fuel : Nat) := combine_comm b fuel (flagged g m2) (flagged f m1)
  simpa only [swapped] using again

/-- Joining the offsets 3 and 5 hangs a gap and a bit, the first time. -/
theorem combine_again_gap : ∃ b : BDDTag, Returns (fun fuel => b.combine fuel 2 (4 ||| lenLb)) (b,6 ||| lenLb) ∧
    Returns (fun fuel => b.combine fuel (4 ||| lenLb) 2) (b,6 ||| lenLb) := by
  have run : ∃ b₁ : BDDTag, Run Step start [.insert 5,.insert 3] ⟨b₁,[⟨4,{3},false⟩,⟨2,{5},false⟩]⟩ ∧
      ∃ b : BDDTag, Returns (fun fuel => b₁.combine fuel 2 (4 ||| lenLb)) (b,6 ||| lenLb) :=
    ⟨_,.cons (.insert (l := 2) (by decide) ((insert_steady _ _).returns (n := 7) rfl)) <|
      .cons (.insert (l := 4) (by decide) ((insert_steady _ _).returns (n := 7) rfl)) .nil,
      _,(combine_steady _ _ _).returns (n := 7) rfl⟩
  obtain ⟨b₁,run,b,returns⟩ := run
  exact ⟨b,combine_again run (.logged (.tail _ (.head _))) (.withLen (.logged (.head _))) returns⟩

end Libdft.BddTag.Session
