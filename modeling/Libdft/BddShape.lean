import Libdft.BddCanonical
import Libdft.BddOffsets

/-! How the begins, the widths and the parent fields of the trie go with its links, between the calls and
at every pass of the loops within them. All sizes are unsigned, and none of them wraps. Only the left links
are not what they should be: `insert_n_zeros` forgets the lower part of a gap that it splits. -/
namespace Libdft.BddTag.BDDTag

variable {b b' : BDDTag} {i c cur last num : Nat} {offs : List Nat}

/-- The pieces of the gaps that were hung below a label, each beginning where another one ends. The left
links lead from piece to piece until a split cuts the lower ones off. -/
inductive Strand (b : BDDTag) (h : Nat) : Nat → Prop where
  | here : Strand b h h
  | piece : Strand b h z → x < b.size → ¬ b.IsLabel x → (b.node x).parent = h →
      (b.node x).seg.begin = (b.node z).seg.end_ → Strand b h x

/-- The links, and what the segments and the parent fields at their ends say. A right child names the
label it hangs from, or else the one at the head of the gap it hangs from. -/
structure Shaped (b : BDDTag) : Prop where
  child : ∀ x < b.size, ∀ c ≠ 0, c = (b.node x).left ∨ c = (b.node x).right →
    (x < c ∧ c < b.size) ∧ (b.node c).seg.begin = (b.node x).seg.end_ ∧ (b.node c).seg.begin < (b.node c).seg.end_
  byte : ∀ x < b.size, (b.node x).right ≠ 0 →
    (b.node (b.node x).right).seg.end_ = (b.node (b.node x).right).seg.begin + 1
  label : ∀ x < b.size, (b.node x).right ≠ 0 → b.IsLabel x → (b.node (b.node x).right).parent = x
  gap : ∀ x < b.size, (b.node x).right ≠ 0 → ¬ b.IsLabel x → ∃ h, (b.node (b.node x).right).parent = h ∧
    b.IsLabel h ∧ Strand b h x ∧ ∀ h', b.IsLabel h' → Spine b h' x → h' = h
  parent : ∀ c < b.size, c ≠ 0 → (b.node c).parent < c

/-- Left links lead to every gap with a right child from the label that the child names. -/
structure Represented (b : BDDTag) : Prop extends Shaped b where
  chain : ∀ x < b.size, (b.node x).right ≠ 0 → ¬ b.IsLabel x → Spine b (b.node (b.node x).right).parent x

/-- Every piece of a gap begins where another node below the same label ends, linked to it or not. -/
structure Sound (b : BDDTag) : Prop where
  trie : Trie b
  pieces : ∀ i < b.size, ¬ b.IsLabel i →
    ∃ j < b.size, (b.node j).seg.end_ = (b.node i).seg.begin ∧ b.head j = (b.node i).parent

namespace Sound

theorem new : Sound new where
  trie := trie_new
  pieces i bound other := by
    have zero : i = 0 := Nat.lt_one_iff.mp bound
    exact absurd (zero ▸ isLabel_zero) other

theorem strand (sound : Sound b) (inside : i < b.size) : Strand b (b.head i) i := by
  have trie := sound.trie
  induction ends : (b.node i).seg.end_ using Nat.strong_induction_on generalizing i with
  | _ e ih =>
    by_cases label : b.IsLabel i
    · rw [head_of_label label]
      exact .here
    · obtain ⟨j,bound,touch,heads⟩ := sound.pieces i inside label
      have nonzero : i ≠ 0 := fun zero => label (zero ▸ isLabel_zero)
      have span := trie.span i inside nonzero
      have before := ih _ (by omega) bound rfl
      rw [heads] at before
      rw [head_of_not_label label]
      exact .piece before inside label rfl touch.symm

theorem shaped (sound : Sound b) : Shaped b where
  child x inside c nonzero link := by
    have trie := sound.trie
    rcases link with rfl | rfl
    · have bound := trie.left_bound x inside nonzero
      exact ⟨bound,trie.left_begin x inside nonzero,trie.span _ bound.2 nonzero⟩
    · have bound := trie.right_bound x inside nonzero
      exact ⟨bound,trie.right_begin x inside nonzero,trie.span _ bound.2 nonzero⟩
  byte x inside some := sound.trie.label_end (.inr ⟨x,inside,rfl⟩) some
  label x inside some label := by rw [sound.trie.right_parent x inside some,head_of_label label]
  gap x inside some _ := by
    have laid := sound.trie.laid
    refine ⟨b.head x,sound.trie.right_parent x inside some,laid.head_label inside,sound.strand inside,?_⟩
    intro h label spine
    rw [spine.head_eq laid (laid.label_lt label),head_of_label label]
  parent := sound.trie.parent_lt

theorem represented (sound : Sound b) (reach : Reachable b) : Represented b where
  toShaped := sound.shaped
  chain x inside some _ := sound.trie.right_parent x inside some ▸ reach x inside

theorem hung (sound : Sound b) (hung : Hung b b' cur last num) (inside : cur < b.size) (heads : b.head cur = last)
    (trie : Trie b') : Sound b' := by
  refine ⟨trie,fun i bound other => ?_⟩
  rw [hung.isLabel_iff] at other
  have grown : b.size < b'.size := by
    rw [hung.size]
    omega
  rcases hung.old_or_fresh bound with old | rfl
  · rw [hung.parent i old]
    rcases hung.begin i old with same | ⟨rfl,nonzero,same,-⟩
    · obtain ⟨j,boundJ,touch,heads⟩ := sound.pieces i old other
      exact ⟨j,Nat.lt_trans boundJ grown,by rw [hung.end_ j boundJ,same,touch],by rw [hung.head_old boundJ,heads]⟩
    · -- the lower part of the gap that was split follows the new piece
      refine ⟨b.size,grown,by rw [hung.fresh,same],?_⟩
      rw [hung.head_fresh sound.trie.laid,sound.trie.left_parent cur inside nonzero,heads]
  · refine ⟨cur,Nat.lt_trans inside grown,by rw [hung.end_ cur inside,hung.fresh],?_⟩
    rw [hung.head_old inside,hung.fresh]
    exact heads

theorem budded (sound : Sound b) (budded : Budded b b' cur last) (inside : cur < b.size) (trie : Trie b') : Sound b' := by
  refine ⟨trie,fun i bound other => ?_⟩
  rw [budded.isLabel_iff inside,not_or] at other
  rw [budded.size] at bound
  have old : i < b.size := by have := other.2; omega
  obtain ⟨j,boundJ,touch,heads⟩ := sound.pieces i old other.1
  refine ⟨j,by rw [budded.size]; omega,?_,?_⟩
  · rw [budded.seg j boundJ,budded.seg i old,touch]
  · rw [budded.head_old inside boundJ,budded.parent i old,heads]

theorem sameShape (sound : Sound b) (same : SameShape b b') : Sound b' := by
  refine ⟨same.trie sound.trie,fun i bound other => ?_⟩
  rw [same.size] at bound
  rw [same.isLabel_iff] at other
  obtain ⟨j,boundJ,touch,heads⟩ := sound.pieces i bound other
  exact ⟨j,by rwa [same.size],by rw [same.end_,same.begin,touch],by rw [same.head_eq,same.parent,heads]⟩

theorem zeroRun (sound : Sound b) (run : ZeroRun b cur last num b' i) (inside : cur < b.size) (heads : b.head cur = last)
    (fits : (b.node cur).seg.end_ + num < 2 ^ 32) : Sound b' := by
  have trie := (run.reached sound.trie inside heads fits).trie
  cases run with
  | found _ _ => exact sound
  | hung spine hung =>
    have laid := sound.trie.laid
    exact sound.hung hung (spine.lt_size laid inside) ((spine.head_eq laid inside).trans heads) trie

theorem oneBit (sound : Sound b) (bit : OneBit b cur last b' i) (inside : cur < b.size) (heads : b.head cur = last)
    (fits : (b.node cur).seg.end_ + 1 < 2 ^ 32) : Sound b' := by
  have trie := (bit.labelled sound.trie inside heads fits).trie
  cases bit with
  | found _ => exact sound
  | budded budded _ => exact sound.budded budded inside trie

theorem appended {x : Nat} (sound : Sound b) (appended : Appended b last x b' c) (label : b.IsLabel last) : Sound b' := by
  obtain ⟨above,fits,run,bit⟩ := appended
  have inside := sound.trie.label_lt label
  have heads := head_of_label label
  have reached := run.reached sound.trie inside heads (by omega)
  have ends := reached.end_
  exact (sound.zeroRun run inside heads (by omega)).oneBit bit reached.inside reached.heads (by omega)

theorem appends {xs : List Nat} (sound : Sound b) (appends : Appends b cur xs b' c) (denotes : Denotes b cur offs) :
    Sound b' := by
  induction appends with
  | start => exact sound
  | offset before appended ih => exact ih.appended appended (before.grown sound.trie denotes).denotes.isLabel
  | sign _ same ih => exact ih.sameShape same

theorem extended {wanted : Nat → Prop} (sound : Sound b) (extended : Extended b wanted b' c) : Sound b' := by
  obtain ⟨_,_,_,denotes,appends,-⟩ := extended.chain
  exact sound.appends appends denotes

end Sound

/-! The calls of the two insertion loops. -/

inductive Bit where
  | zeros | ones
  deriving DecidableEq

theorem zeros_ne_ones : Bit.zeros ≠ .ones := by decide

/-- A call of `insert_n_zeros` or `insert_n_ones`. -/
structure LoopCall where
  bit : Bit
  tag : BDDTag
  curLb : Nat
  num : Nat
  lastOneLb : Nat

namespace LoopCall

def run (c : LoopCall) (fuel : Nat) : Outcome (BDDTag × Nat) :=
  match c.bit with
  | .zeros => c.tag.insertNZeros fuel c.curLb c.num c.lastOneLb
  | .ones => c.tag.insertNOnes fuel c.curLb c.num c.lastOneLb

def pass (c : LoopCall) : BDDTag × Nat × Nat → Outcome (Pass (BDDTag × Nat × Nat) (BDDTag × Nat)) :=
  match c.bit with
  | .zeros => insertNZerosPass c.lastOneLb
  | .ones => insertNOnesPass c.lastOneLb

def child (c : LoopCall) (b : BDDTag) (curLb : Nat) : Nat :=
  match c.bit with
  | .zeros => (b.node curLb).left
  | .ones => (b.node curLb).right

def nextSize (c : LoopCall) (b : BDDTag) (curLb : Nat) : Nat :=
  match c.bit with
  | .zeros => (b.node (c.child b curLb)).getSegSize
  | .ones => offSub (b.node (c.child b curLb)).seg.end_ (b.node curLb).seg.end_

theorem run_eq (c : LoopCall) (fuel : Nat) : c.run fuel = loop c.pass fuel (c.tag,c.curLb,c.num) := by
  unfold run pass
  cases c.bit <;> rfl

/-- The states at the head of the loop: the nodes, `cur_lb` and `num`. -/
def Reaches (c : LoopCall) (b : BDDTag) (curLb num : Nat) : Prop :=
  Visits (fun _ => c.pass) (c.tag,c.curLb,c.num) (b,curLb,num)

/-- No difference wraps: at every pass `next_size` is the distance to the end of the next node, what is
left of `num` falls by what has been passed, the loop is left when nothing is left, and the node it
returns ends `num` positions after the first one. -/
structure Exact (c : LoopCall) : Prop where
  room : (c.tag.node c.curLb).seg.end_ + c.num < 2 ^ 32
  terminates : Terminates c.run
  shape : ∀ b i n, c.Reaches b i n → Shaped b ∧ i < b.size
  size : ∀ b i n, c.Reaches b i n → c.child b i ≠ 0 → (b.node i).seg.end_ + c.nextSize b i = (b.node (c.child b i)).seg.end_
  total : ∀ b i n, c.Reaches b i n → (b.node i).seg.end_ + n = (c.tag.node c.curLb).seg.end_ + c.num
  falls : ∀ b i n b' j m, c.Reaches b i n → c.pass (b,i,n) = .returned (.again (b',j,m)) → m < n
  left : ∀ b i n r, c.Reaches b i n → c.pass (b,i,n) = .returned (.leave r) → n = 0
  ends : ∀ b z, Returns c.run (b,z) → (b.node z).seg.end_ = (c.tag.node c.curLb).seg.end_ + c.num

/-- A call that `insert` or `combine` makes: it starts at a node below `last_one_lb`, in reach of its end. -/
structure Sane (c : LoopCall) : Prop where
  sound : Sound c.tag
  inside : c.curLb < c.tag.size
  heads : c.tag.head c.curLb = c.lastOneLb
  fits : (c.tag.node c.curLb).seg.end_ + c.num < 2 ^ 32
  one : c.bit = .ones → c.num = 1

/-- At the head of the loop. -/
structure Along (c : LoopCall) (b : BDDTag) (i n : Nat) : Prop where
  sound : Sound b
  inside : i < b.size
  heads : n ≠ 0 → b.head i = c.lastOneLb
  total : (b.node i).seg.end_ + n = (c.tag.node c.curLb).seg.end_ + c.num
  one : c.bit = .ones → n ≤ 1

/-- What one pass does to it. -/
inductive Advances (c : LoopCall) (b : BDDTag) (i n : Nat) : Pass (BDDTag × Nat × Nat) (BDDTag × Nat) → Prop where
  | leave : n = 0 → Advances c b i n (.leave (b,i))
  | again : c.Along next j m → m < n → Advances c b i n (.again (next,j,m))

variable {c : LoopCall} {n : Nat}

theorem Along.fits (along : c.Along b i n) (sane : c.Sane) : (b.node i).seg.end_ + n < 2 ^ 32 :=
  along.total ▸ sane.fits

theorem Along.hung (along : c.Along b i n) (sane : c.Sane) (hung : Hung b b' i c.lastOneLb n) (positive : 0 < n)
    (room : b.size < maxLb) : c.Along b' b.size 0 := by
  have heads := along.heads (Nat.ne_of_gt positive)
  have trie := hung.trie along.sound.trie along.inside heads positive (along.fits sane) room
  refine ⟨along.sound.hung hung along.inside heads trie,?_,fun some => absurd rfl some,?_,fun _ => Nat.zero_le 1⟩
  · rw [hung.size]
    exact Nat.lt_succ_self _
  · rw [← along.total,hung.fresh]
    rfl

theorem Along.budded (along : c.Along b i 1) (sane : c.Sane) (budded : Budded b b' i c.lastOneLb)
    (room : b.size < maxLb) : c.Along b' b.size 0 := by
  have heads := along.heads Nat.one_ne_zero
  have trie := budded.trie along.sound.trie along.inside heads (along.fits sane) room
  refine ⟨along.sound.budded budded along.inside trie,?_,fun some => absurd rfl some,?_,fun _ => Nat.zero_le 1⟩
  · rw [budded.size]
    exact Nat.lt_succ_self _
  · rw [← along.total,budded.fresh]

theorem Along.pass (along : c.Along b i n) (sane : c.Sane) : (c.pass (b,i,n)).Ends (Advances c b i n) := by
  have trie := along.sound.trie
  have inside := along.inside
  have fits := along.fits sane
  unfold LoopCall.pass
  cases kind : c.bit with
  | zeros =>
    refine (insertNZerosPass_ends trie.laid inside fits).imp ?_
    rintro _ (stop | ⟨hung,positive,-,room⟩ | ⟨some,less,rest⟩)
    · exact .leave stop
    · exact .again (along.hung sane hung positive room) positive
    · refine .again ⟨along.sound,(trie.left_bound i inside some).2,fun _ => ?_,rest.trans along.total,?_⟩ less
      · rw [head_of_not_label (trie.left_not_label i inside some),trie.left_parent i inside some]
        exact along.heads (by omega)
      · exact fun ones => absurd (kind.symm.trans ones) zeros_ne_ones
  | ones =>
    have one := along.one kind
    obtain rfl | rfl : n = 0 ∨ n = 1 := by omega
    · exact .leave rfl
    · refine (insertNOnesPass_ends trie inside fits).imp ?_
      rintro _ (⟨budded,room⟩ | some)
      · exact .again (along.budded sane budded room) Nat.one_pos
      · refine .again ⟨along.sound,(trie.right_bound i inside some).2,fun some => absurd rfl some,?_,
          fun _ => Nat.zero_le 1⟩ Nat.one_pos
        rw [← along.total]
        exact trie.right_end i inside some

theorem Along.start (sane : c.Sane) : c.Along c.tag c.curLb c.num :=
  ⟨sane.sound,sane.inside,fun _ => sane.heads,rfl,fun kind => Nat.le_of_eq (sane.one kind)⟩

theorem Along.reached (sane : c.Sane) (reaches : c.Reaches b i n) : c.Along b i n := by
  refine Visits.invariant (fun s => c.Along s.1 s.2.1 s.2.2) ?_ reaches (.start sane)
  rintro ⟨b,i,n⟩ next along ⟨enough,goes⟩
  have advances := (along.pass sane).of_eq (goes enough (Nat.le_refl _))
  cases advances with
  | again along _ => exact along

/-- The difference that a pass takes is that of two ends. -/
theorem Along.size (along : c.Along b i n) (some : c.child b i ≠ 0) :
    (b.node i).seg.end_ + c.nextSize b i = (b.node (c.child b i)).seg.end_ := by
  have trie := along.sound.trie
  have inside := along.inside
  unfold nextSize child at *
  cases kind : c.bit with
  | zeros =>
    simp only [kind] at some ⊢
    rw [getSegSize_left trie.laid inside some]
    exact Nat.add_sub_of_le (Nat.le_of_lt (trie.laid.left_end inside some))
  | ones =>
    simp only [kind] at some ⊢
    rw [right_size trie inside some,trie.right_end i inside some]

theorem Sane.terminates (sane : c.Sane) : Terminates c.run := by
  have stops (fuel : Nat) (enough : c.num + 1 ≤ fuel) : (c.run fuel).Ends fun _ => True := by
    rw [run_eq]
    refine loop_ends (fun s => c.Along s.1 s.2.1 s.2.2) (fun s => s.2.2) ?_ (.start sane) enough
    rintro ⟨b,i,n⟩ along
    refine (along.pass sane).imp ?_
    rintro _ (none | ⟨along,less⟩)
    · trivial
    · exact ⟨along,less⟩
  exact .of_ends ⟨c.num + 1,stops⟩

theorem Sane.ends {z : Nat} (sane : c.Sane) (returns : Returns c.run (b,z)) :
    (b.node z).seg.end_ = (c.tag.node c.curLb).seg.end_ + c.num := by
  obtain ⟨enough,ends⟩ := returns
  have once := ends enough (Nat.le_refl _)
  rw [run_eq] at once
  obtain ⟨⟨b',i,n⟩,visits,left⟩ := Visits.of_loop once
  have along := Along.reached sane visits
  have advances := (along.pass sane).of_eq left
  cases advances with
  | leave none =>
    rw [← along.total,none]
    rfl

theorem Sane.exact (sane : c.Sane) : c.Exact where
  room := sane.fits
  terminates := sane.terminates
  shape b i n reaches := by
    have along := Along.reached sane reaches
    exact ⟨along.sound.shaped,along.inside⟩
  size b i n reaches := (Along.reached sane reaches).size
  total b i n reaches := (Along.reached sane reaches).total
  falls b i n b' j m reaches again := by
    have advances := ((Along.reached sane reaches).pass sane).of_eq again
    cases advances with
    | again _ less => exact less
  left b i n r reaches left := by
    have advances := ((Along.reached sane reaches).pass sane).of_eq left
    cases advances with
    | leave none => exact none
  ends b z := sane.ends

end LoopCall

/-! The calls that `insert` and `combine` make. -/

/-- The calls for one segment that `combine` takes in. -/
inductive Merges (b : BDDTag) (curLb : Nat) (seg : TagSeg) : LoopCall → Prop where
  | touching : seg.begin ≤ (b.node curLb).seg.end_ → (b.node curLb).seg.end_ < seg.end_ →
      Merges b curLb seg ⟨.ones,b,curLb,offSub seg.end_ (b.node curLb).seg.end_,curLb⟩
  | gap : (b.node curLb).seg.end_ < seg.begin →
      Merges b curLb seg ⟨.zeros,b,curLb,offSub seg.begin (b.node curLb).seg.end_,curLb⟩
  | past : (b.node curLb).seg.end_ < seg.begin →
      Returns (fun fuel => b.insertNZeros fuel curLb (offSub seg.begin (b.node curLb).seg.end_) curLb) (next,z) →
      Merges b curLb seg ⟨.ones,next,z,offSub seg.end_ seg.begin,curLb⟩

inductive Makes (b : BDDTag) : Call → LoopCall → Prop where
  | zeros : Makes b (.insert pos) ⟨.zeros,b,root,pos,root⟩
  | one : Returns (fun fuel => b.insertNZeros fuel root pos root) (next,z) →
      Makes b (.insert pos) ⟨.ones,next,z,1,root⟩
  | combine : l1 ≠ 0 → l2 ≠ 0 → l1 ≠ l2 →
      Returns (fun fuel => b.gather fuel (min (l1 &&& lbMask) (l2 &&& lbMask)) (max (l1 &&& lbMask) (l2 &&& lbMask))) s →
      Visits reinsertPass (b,if 0 < s.l1 then s.l1 else s.l2,s.stack) (mid,curLb,next :: stack) →
      Merges mid curLb (mid.node next).seg call → Makes b (.combine l1 l2) call

open LoopCall

/-- A run of zeros that starts at a label, and then the bit behind it. -/
theorem sane_past {z : Nat} (sound : Sound b) (label : b.IsLabel last) (fits : (b.node last).seg.end_ + num + 1 < 2 ^ 32)
    (returns : Returns (fun fuel => b.insertNZeros fuel last num last) (b',z)) : Sane ⟨.ones,b',z,1,last⟩ := by
  have inside := sound.trie.label_lt label
  have heads := head_of_label label
  have run : ZeroRun b last last num b' z :=
    returns.post ⟨num + 1,fun fuel enough => insertNZeros_ends sound.trie.laid inside (by omega) enough⟩
  have reached := run.reached sound.trie inside heads (by omega)
  exact ⟨sound.zeroRun run inside heads (by omega),reached.inside,reached.heads,by rwa [reached.end_],fun _ => rfl⟩

theorem Merges.sane {first : BDDTag} {base next : Nat} {goal stack : List Nat} {call : LoopCall} (sound : Sound b)
    (r : Refill first base goal b cur (next :: stack)) (merges : Merges b cur (b.node next).seg call) : Sane call := by
  obtain ⟨label,nonzero⟩ := r.labels next List.mem_cons_self
  have ends := sound.trie.label_end label nonzero
  have fits := sound.trie.end_lt next (sound.trie.label_lt label)
  have above : (b.node cur).seg.end_ ≤ (b.node next).seg.begin + 1 := r.above _ List.mem_cons_self
  cases merges with
  | touching touches beyond =>
    have one : offSub (b.node next).seg.end_ (b.node cur).seg.end_ = 1 := by
      rw [offSub]
      omega
    rw [one]
    exact ⟨sound,sound.trie.label_lt r.label,head_of_label r.label,by dsimp only; omega,fun _ => rfl⟩
  | gap under =>
    have gap : offSub (b.node next).seg.begin (b.node cur).seg.end_ =
        (b.node next).seg.begin - (b.node cur).seg.end_ := by
      rw [offSub]
      omega
    rw [gap]
    exact ⟨sound,sound.trie.label_lt r.label,head_of_label r.label,by dsimp only; omega,fun ones => absurd ones zeros_ne_ones⟩
  | past under returns =>
    have one : offSub (b.node next).seg.end_ (b.node next).seg.begin = 1 := by
      rw [offSub]
      omega
    have gap : offSub (b.node next).seg.begin (b.node cur).seg.end_ =
        (b.node next).seg.begin - (b.node cur).seg.end_ := by
      rw [offSub]
      omega
    rw [one]
    rw [gap] at returns
    exact sane_past sound r.label (by omega) returns

theorem Makes.sane_insert {pos : Nat} {call : LoopCall} (sound : Sound b) (fits : pos + 1 < 2 ^ 32)
    (makes : Makes b (.insert pos) call) : Sane call := by
  have start : (b.node root).seg.end_ = 0 := sound.trie.root_end
  cases makes with
  | zeros =>
    refine ⟨sound,sound.trie.size_pos,head_of_label isLabel_zero,?_,fun ones => absurd ones zeros_ne_ones⟩
    dsimp only
    omega
  | one returns => exact sane_past sound isLabel_zero (by omega) returns

theorem Makes.sane_combine {f g : Bool} {m1 m2 : Nat} {xs ys : List Nat} {call : LoopCall} (sound : Sound b)
    (first : Denotes b m1 xs) (second : Denotes b m2 ys) (makes : Makes b (.combine (flagged f m1) (flagged g m2)) call) :
    Sane call := by
  have trie := sound.trie
  cases makes with
  | combine _ _ _ walked visits merges =>
    rw [flagged_and_mask (trie.laid.label_small first.isLabel),
      flagged_and_mask (trie.laid.label_small second.isLabel)] at walked
    obtain ⟨wanted,gathered⟩ := walked.post ⟨m1 + m2 + 1,fun fuel enough => gather_sorted trie first second enough⟩
    obtain ⟨offs,denotes,refill,-,-⟩ := gathered.refill trie
    have filling := visits.invariant (fun s => Refill b _ _ s.1 s.2.1 s.2.2) ?_ refill
    · obtain ⟨xs,appends,-⟩ := filling.done
      exact merges.sane (sound.appends appends denotes) filling
    · rintro ⟨b₁,i,stack⟩ next r goes
      exact (goes.post ⟨2 ^ 32 + 1,fun fuel enough => reinsertPass_ends r enough⟩).1

end Libdft.BddTag.BDDTag

namespace Libdft.BddTag.Session

open BDDTag

variable {s next : Session}

/-- The calls that the process may go on with. -/
def Allowed (s : Session) : Call → Prop
  | .insert pos => pos < maxLb
  | .combine l1 l2 => (∃ offsets f, Operand s.log l1 offsets f) ∧ ∃ offsets f, Operand s.log l2 offsets f

theorem run_sound {calls : List Call} (run : Run Step start calls s) : Sound s.tag := by
  refine (run.invariant (fun s => Invariant s ∧ Sound s.tag) ?_ ⟨invariant_start,Sound.new⟩).2
  rintro s call next ⟨inv,sound⟩ step
  refine ⟨step_invariant inv step,?_⟩
  cases step with
  | insert small returns =>
    exact sound.extended (returns.post ⟨2 ^ 32 + 1,fun fuel enough => inv.insert_ends small (by omega)⟩)
  | combine first second returns =>
    obtain ⟨m,-,extended⟩ := returns.post ⟨2 ^ 32 + 1,fun fuel enough => inv.combine_ends first second (by omega)⟩
    exact sound.extended extended

/-- After any calls the segments and the parent fields go with the links, and so they do at every pass
of the loops of the next call, where no difference wraps and exactly the positions asked for are passed.
After calls that split no gap the left links lead to every gap with a right child, too. -/
theorem trie_represented {calls : List Call} (run : Run Step start calls s) :
    Shaped s.tag ∧ (∀ call, Allowed s call → ∀ c, Makes s.tag call c → c.Exact) ∧
    (Run (Guarded SplitFree Step) start calls s → Represented s.tag) := by
  have inv := run_invariant run
  have sound := run_sound run
  refine ⟨sound.shaped,fun call allowed c makes => ?_,fun whole => sound.represented (run_reachable whole).2⟩
  cases call with
  | insert pos =>
    have small : pos < 2 ^ 24 := Nat.lt_trans allowed (by decide)
    exact (makes.sane_insert sound (by omega)).exact
  | combine l1 l2 =>
    obtain ⟨⟨_,f,first⟩,_,g,second⟩ := allowed
    obtain ⟨m1,xs,rfl,denotes1,-⟩ := (inv.operand first).denotes
    obtain ⟨m2,ys,rfl,denotes2,-⟩ := (inv.operand second).denotes
    exact (makes.sane_combine sound denotes1 denotes2).exact

/-- The offset 3 splits the gap before 5. -/
theorem split_run : ∃ b, Run Step start [.insert 5,.insert 3] ⟨b,[⟨4,{3},false⟩,⟨2,{5},false⟩]⟩ ∧
    (b.node 0).left = 3 ∧ (b.node 3).left = 0 ∧ (b.node 1).right = 2 ∧ b.size = 5 ∧ (b.node 2).parent = 0 ∧
    ∀ i < 5, (b.node i).right ≠ 1 :=
  ⟨_,.cons (.insert (l := 2) (by decide) ((insert_steady _ _).returns (n := 7) rfl)) <|
    .cons (.insert (l := 4) (by decide) ((insert_steady _ _).returns (n := 7) rfl)) .nil,
    rfl,rfl,rfl,rfl,rfl,by decide⟩

/-- A call for 4 passes the upper part of a gap that was split; rising offsets split none. -/
theorem trie_represented_split : (∃ s, Run Step start [.insert 5,.insert 3] s ∧ Shaped s.tag ∧
    LoopCall.Exact ⟨.zeros,s.tag,root,4,root⟩) ∧
    ∃ s, Run (Guarded SplitFree Step) start [.insert 3,.insert 5,.insert 3] s ∧ Represented s.tag := by
  obtain ⟨b,run,-⟩ := split_run
  obtain ⟨s,rising⟩ := rising_run
  obtain ⟨shaped,exact,-⟩ := trie_represented run
  exact ⟨⟨_,run,shaped,exact (.insert 4) (show 4 < maxLb by decide) _ .zeros⟩,s,rising,(trie_represented rising.of_guarded).2.2 rising⟩

/-- No left link leads to the lower part of the gap, where the label of 5 hangs. -/
theorem split_not_represented : ¬ ∀ calls s, Run Step start calls s → Represented s.tag := by
  intro claim
  obtain ⟨b,run,first,last,right,size,parent,other⟩ := split_run
  have represented := claim _ _ run
  change Represented b at represented
  have unlabelled : ¬ b.IsLabel 1 := by
    rintro (impossible | ⟨i,inside,right⟩)
    · cases impossible
    · exact other i (size ▸ inside) right
  have chain := represented.chain 1 (by rw [size]; decide) (by rw [right]; decide) unlabelled
  rw [right,parent] at chain
  rcases chain.tail with impossible | ⟨_,below⟩
  · cases impossible
  · rw [first] at below
    rcases below.tail with impossible | ⟨some,_⟩
    · cases impossible
    · exact some last

end Libdft.BddTag.Session
