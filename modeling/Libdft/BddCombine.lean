import Libdft.BddSets

/-! `combine` and `find` in terms of the sets that labels denote. Both are total on
tries; a full node vector is the only way for `combine` not to return. -/
namespace Libdft.BddTag.BDDTag

variable {b b' b'' : BDDTag} {c cur last room pos fuel : Nat} {offs : List Nat} {stack : List Nat}
  {wanted : Nat → Prop}

theorem begins_keep (trie : Trie b) (keeps : Keeps b b')
    (labels : ∀ c ∈ stack, b.IsLabel c ∧ c ≠ 0) : b'.begins stack = b.begins stack :=
  List.map_congr_left fun c member =>
    keeps.begin c (trie.label_lt (labels c member).1) (labels c member).1

/-- The stacked offsets that `cur` does not end in already. -/
def missing (b : BDDTag) (cur : Nat) (stack : List Nat) : List Nat :=
  (b.begins stack).filter fun v => (b.node cur).seg.end_ ≤ v

/-- While `combine` empties its stack: the rest of it lies above the label reached. -/
structure Refill (b : BDDTag) (base : Nat) (goal : List Nat) (b' : BDDTag) (cur : Nat)
    (stack : List Nat) : Prop where
  trie : Trie b'
  label : b'.IsLabel cur
  labels : ∀ c ∈ stack, b'.IsLabel c ∧ c ≠ 0
  ascending : (b'.begins stack).Pairwise (· < ·)
  above : ∀ v ∈ b'.begins stack, (b'.node cur).seg.end_ ≤ v + 1
  done : ∃ xs, Appends b base xs b' cur ∧ xs ++ b'.missing cur stack = goal

namespace Refill

variable {base next : Nat} {goal : List Nat}

theorem sign (r : Refill b base goal b' cur stack) : Refill b base goal (b'.setSign cur) cur stack := by
  have same := setSign_sameShape (r.trie.label_lt r.label)
  have begins : (b'.setSign cur).begins stack = b'.begins stack :=
    begins_keep r.trie same.keeps r.labels
  obtain ⟨xs,appends,split⟩ := r.done
  refine ⟨same.trie r.trie,(same.isLabel_iff _).mpr r.label,?_,?_,?_,xs,.sign appends same,?_⟩
  · intro c member
    rw [same.isLabel_iff]
    exact r.labels c member
  · rw [begins]; exact r.ascending
  · rw [begins,same.end_]; exact r.above
  · rw [← split,missing,missing,begins,same.end_]

/-- A stacked offset that `cur` ends in is dropped. -/
theorem skip (r : Refill b base goal b' cur (next :: stack))
    (known : (b'.node cur).seg.end_ = (b'.node next).seg.begin + 1) :
    Refill b base goal b' cur stack := by
  obtain ⟨xs,appends,split⟩ := r.done
  refine ⟨r.trie,r.label,fun c member => r.labels c (.tail _ member),r.ascending.of_cons,
    fun v member => r.above v (.tail _ member),xs,appends,?_⟩
  rw [← split]
  simp [missing,begins,known]

theorem append (r : Refill b base goal b' cur (next :: stack))
    (appended : Appended b' cur (b'.node next).seg.begin b'' c) :
    Refill b base goal b'' c stack := by
  have labelled := appended.labelled r.trie r.label
  have old (c : Nat) (member : c ∈ stack) := r.labels c (.tail _ member)
  have begins : b''.begins stack = b'.begins stack := begins_keep r.trie labelled.keeps old
  have end_ : (b''.node c).seg.end_ = (b'.node next).seg.begin + 1 := by
    rw [labelled.trie.label_end labelled.label labelled.nonzero,labelled.begin]
  have above : ∀ v ∈ b'.begins stack, (b'.node next).seg.begin < v :=
    (List.pairwise_cons.mp r.ascending).1
  obtain ⟨xs,appends,split⟩ := r.done
  have under : (b'.node cur).seg.end_ ≤ (b'.node next).seg.begin := by
    cases appended; assumption
  refine ⟨labelled.trie,labelled.label,fun c member => ⟨labelled.keeps.label c (old c member).1,
    (old c member).2⟩,?_,?_,_,.offset appends appended,?_⟩
  · rw [begins]; exact r.ascending.of_cons
  · intro v member
    rw [begins] at member
    have := above v member
    omega
  · -- nothing of the rest is filtered out, before or after
    have keepAll : ∀ v ∈ b'.begins stack,
        decide ((b'.node cur).seg.end_ ≤ v) = decide ((b''.node c).seg.end_ ≤ v) := by
      intro v member
      have := above v member
      rw [end_]
      simp only [decide_eq_decide]
      omega
    have cons : b'.missing cur (next :: stack) =
        (b'.node next).seg.begin :: b'.missing cur stack := by
      rw [missing,missing,BDDTag.begins,List.map_cons,List.filter_cons_of_pos (by simpa using under)]
      rfl
    rw [← split,cons,List.append_assoc,List.singleton_append]
    congr 2
    rw [missing,missing,begins]
    exact (List.filter_congr keepAll).symm

end Refill

theorem mergeSeg_ends {base next : Nat} {goal : List Nat}
    (r : Refill b base goal b' cur (next :: stack)) (budget : 2 ^ 32 < fuel) :
    (b'.mergeSeg fuel cur (b'.node next).seg).Ends fun s => Refill b base goal s.1 s.2 stack := by
  obtain ⟨label,nonzero⟩ := r.labels next List.mem_cons_self
  have ends := r.trie.label_end label nonzero
  have fits := r.trie.end_lt next (r.trie.label_lt label)
  have above : (b'.node cur).seg.end_ ≤ (b'.node next).seg.begin + 1 :=
    r.above _ List.mem_cons_self
  unfold mergeSeg
  by_cases touches : (b'.node next).seg.begin ≤ (b'.node cur).seg.end_
  · rw [if_pos touches]
    by_cases beyond : (b'.node cur).seg.end_ < (b'.node next).seg.end_
    · rw [if_pos beyond]
      have one : offSub (b'.node next).seg.end_ (b'.node cur).seg.end_ = 1 := by rw [offSub]; omega
      rw [one]
      refine (insertNOnes_ends r.trie (r.trie.label_lt r.label) (by omega) (by omega)).imp ?_
      intro s bit
      exact r.append (.offset (by omega) (by omega) (.found .here (by omega)) bit)
    · rw [if_neg beyond]
      exact r.skip (by omega)
  · rw [if_neg touches]
    have one : offSub (b'.node next).seg.end_ (b'.node next).seg.begin = 1 := by rw [offSub]; omega
    have gap : offSub (b'.node next).seg.begin (b'.node cur).seg.end_ =
        (b'.node next).seg.begin - (b'.node cur).seg.end_ := by rw [offSub]; omega
    rw [one,gap]
    refine (appendOffset_ends r.trie r.label (by omega) (by omega)).imp ?_
    intro s appended
    rw [Nat.add_sub_of_le (by omega)] at appended
    exact r.append appended

/-- One pass of the second half takes in one segment. -/
theorem reinsertPass_ends {base : Nat} {goal : List Nat} (r : Refill b base goal b' cur stack) (budget : 2 ^ 32 < fuel) :
    (reinsertPass fuel (b',cur,stack)).Ends (PassSpec (fun s => Refill b base goal s.1 s.2.1 s.2.2)
      (fun s => s.2.2.length) (fun r => Appends b base goal r.1 r.2) (b',cur,stack)) := by
  cases stack with
  | nil =>
    obtain ⟨xs,appends,split⟩ := r.done
    simp only [missing,begins,List.map_nil,List.filter_nil,List.append_nil] at split
    exact split ▸ appends
  | cons next stack =>
    refine (mergeSeg_ends r budget).bind ?_
    rintro ⟨b₂,j⟩ r₂
    refine ⟨?_,by simp⟩
    dsimp only at r₂ ⊢
    split
    · exact r₂.sign
    · exact r₂

theorem reinsert_ends {base : Nat} {goal : List Nat} (start : Refill b base goal b' cur stack)
    (deep : stack.length < fuel) (budget : 2 ^ 32 < fuel) :
    (b'.reinsert fuel cur stack).Ends fun r => Appends b base goal r.1 r.2 :=
  loop_ends (fun s => Refill b base goal s.1 s.2.1 s.2.2) (fun s => s.2.2.length)
    (fun _ r => reinsertPass_ends r budget) start deep

/-- What the first half hands to the second. -/
theorem Gathered.refill {base : Nat} (g : Gathered b wanted room base stack) (trie : Trie b) :
    ∃ offs, Denotes b base offs ∧ Refill b base (b.missing base stack) b base stack ∧
      (offs.reverse ++ b.missing base stack).Pairwise (· < ·) ∧
      ∀ v, wanted v ↔ v ∈ offs ∨ v ∈ b.missing base stack := by
  obtain ⟨offs,denotes,under,exact⟩ := g.split
  have reach : ∀ v ∈ b.begins stack, (b.node base).seg.end_ ≤ v + 1 := by
    intro v member
    by_cases zero : base = 0
    · rw [zero,trie.root_end]; omega
    · obtain ⟨rest,rfl,_⟩ := denotes.cons_of_ne_zero zero
      have := under _ List.mem_cons_self v member
      rw [trie.label_end denotes.isLabel zero]
      omega
  refine ⟨offs,denotes,⟨trie,denotes.isLabel,g.labels,g.ascending,reach,[],.start,rfl⟩,?_,?_⟩
  · rw [List.pairwise_append]
    refine ⟨?_,g.ascending.filter _,?_⟩
    · rw [List.pairwise_reverse]; exact denotes.descending trie
    · intro v member w missed
      have := denotes.lt_end trie v (List.mem_reverse.mp member)
      have := (List.mem_filter.mp missed).2
      simp only [decide_eq_true_eq] at this
      omega
  · intro v
    rw [exact v]
    constructor
    · rintro (member | member)
      · exact .inl member
      · by_cases past : (b.node base).seg.end_ ≤ v
        · exact .inr (List.mem_filter.mpr ⟨member,by simpa using past⟩)
        · -- `v` is the offset that `base` ends in
          have := reach v member
          have nonzero : base ≠ 0 := by
            rintro rfl
            rw [trie.root_end] at past
            omega
          have := trie.label_end denotes.isLabel nonzero
          obtain ⟨rest,rfl,_⟩ := denotes.cons_of_ne_zero nonzero
          left
          rw [show v = (b.node base).seg.begin by omega]
          exact List.mem_cons_self
    · rintro (member | member)
      · exact .inl member
      · exact .inr (List.mem_of_mem_filter member)

/-- A label as calls return it, possibly with the LEN flag. -/
def flagged (hasLen : Bool) (lb : Nat) : Nat := if hasLen then lb ||| lenLb else lb

theorem lt_lenLb (small : c < 2 ^ 24) : c < lenLb := by unfold lenLb; omega

theorem hasLenLb_flagged (small : c < 2 ^ 24) (f : Bool) : hasLenLb (flagged f c) = f := by
  cases f with
  | false => simpa [hasLenLb,flagged] using lt_lenLb small
  | true => simpa [hasLenLb,flagged] using Nat.right_le_or

theorem flagged_and_mask (small : c < 2 ^ 24) (f : Bool) : flagged f c &&& lbMask = c := by
  have mask : lbMask = 2 ^ 24 - 1 := rfl
  have plain : c &&& lbMask = c := by rw [mask,Nat.and_two_pow_sub_one_of_lt_two_pow small]
  cases f with
  | false => exact plain
  | true =>
    have none : lenLb &&& lbMask = 0 := by decide
    show (c ||| lenLb) &&& lbMask = c
    rw [Nat.and_or_distrib_right,plain,none,Nat.or_zero]

theorem flagged_or_lenLb (f : Bool) (c : Nat) : flagged f c ||| lenLb = flagged true c := by
  cases f with
  | false => rfl
  | true => simp [flagged]

theorem flagged_zero {f : Bool} (small : c < 2 ^ 24) (zero : flagged f c = 0) : c = 0 ∧ f = false := by
  have hasLen := hasLenLb_flagged small f
  have mask := flagged_and_mask small f
  rw [zero] at hasLen mask
  exact ⟨by rw [← mask,Nat.zero_and],hasLen.symm.trans rfl⟩

theorem Extended.congr {wanted' : Nat → Prop} {l : Nat} (extended : Extended b wanted b' l)
    (same : ∀ v, wanted v ↔ wanted' v) : Extended b wanted' b' l := by
  obtain ⟨base,offs,xs,denotes,appends,sorted,exact⟩ := extended.chain
  exact ⟨base,offs,xs,denotes,appends,sorted,fun v => (same v).symm.trans (exact v)⟩

/-- `combine` on labels as calls return them: one of them is the answer, or both chains are walked
and the stack is taken in again. The labels alone decide which. -/
theorem combine_cases {f g : Bool} {m1 m2 : Nat} (small1 : m1 < 2 ^ 24) (small2 : m2 < 2 ^ 24) :
    (∃ m, (m1 = 0 ∧ m = m2 ∨ (m2 = 0 ∨ m1 = m2) ∧ m = m1) ∧ ∀ (b : BDDTag) fuel,
      b.combine fuel (flagged f m1) (flagged g m2) = .returned (b,flagged (f || g) m)) ∨
    flagged f m1 ≠ 0 ∧ flagged g m2 ≠ 0 ∧ ∀ (b : BDDTag) fuel,
      b.combine fuel (flagged f m1) (flagged g m2) = (do
        let s ← b.gather fuel (min m1 m2) (max m1 m2)
        let r ← b.reinsert fuel (if 0 < s.l1 then s.l1 else s.l2) s.stack
        return (r.1,flagged (f || g) r.2)) := by
  unfold combine
  by_cases zero1 : flagged f m1 = 0
  · obtain ⟨rfl,rfl⟩ := flagged_zero small1 zero1
    exact .inl ⟨m2,.inl ⟨rfl,rfl⟩,fun b fuel => by rw [if_pos zero1]; rfl⟩
  by_cases trivial : flagged g m2 = 0 ∨ flagged f m1 = flagged g m2
  · refine .inl ⟨m1,.inr ⟨?_,rfl⟩,fun b fuel => ?_⟩
    · rcases trivial with zero2 | same
      · exact .inl (flagged_zero small2 zero2).1
      · exact .inr (by rw [← flagged_and_mask small1 f,same,flagged_and_mask small2])
    · rw [if_neg zero1,if_pos trivial]
      rcases trivial with zero2 | same
      · obtain ⟨-,rfl⟩ := flagged_zero small2 zero2
        simp
      · have flags : f = g := by rw [← hasLenLb_flagged small1 f,same,hasLenLb_flagged small2]
        simp [flags]
  · refine .inr ⟨zero1,fun zero2 => trivial (.inl zero2),fun b fuel => ?_⟩
    rw [if_neg zero1,if_neg trivial]
    simp only [hasLenLb_flagged small1,hasLenLb_flagged small2,flagged_and_mask small1,
      flagged_and_mask small2]
    cases f <;> cases g <;> rfl

theorem combine_rule {f g : Bool} {m1 m2 : Nat} {post : BDDTag × Nat → Prop} (small1 : m1 < 2 ^ 24)
    (small2 : m2 < 2 ^ 24) (first : m1 = 0 → post (b,flagged (f || g) m2))
    (second : m2 = 0 ∨ m1 = m2 → post (b,flagged (f || g) m1))
    (joined : flagged f m1 ≠ 0 → flagged g m2 ≠ 0 → (b.gather fuel (min m1 m2) (max m1 m2)).Ends fun s =>
      (b.reinsert fuel (if 0 < s.l1 then s.l1 else s.l2) s.stack).Ends fun r => post (r.1,flagged (f || g) r.2)) :
    (b.combine fuel (flagged f m1) (flagged g m2)).Ends post := by
  rcases combine_cases (f := f) (g := g) small1 small2 with
    ⟨m,⟨zero,rfl⟩ | ⟨trivial,rfl⟩,answer⟩ | ⟨some1,some2,both⟩
  · rw [answer]
    exact first zero
  · rw [answer]
    exact second trivial
  · rw [both]
    exact (joined some1 some2).bind fun s ends => ends.bind fun r done => done

theorem combine_ends {f g : Bool} {m1 m2 : Nat} {xs ys : List Nat} (trie : Trie b)
    (first : Denotes b m1 xs) (second : Denotes b m2 ys)
    (small : ∀ v, v ∈ xs ∨ v ∈ ys → v < maxLb) (budget : 2 ^ 32 < fuel) :
    (b.combine fuel (flagged f m1) (flagged g m2)).Ends fun r =>
      ∃ m, r.2 = flagged (f || g) m ∧ Extended b (fun v => v ∈ xs ∨ v ∈ ys) r.1 m := by
  have small1 := trie.laid.label_small first.isLabel
  have small2 := trie.laid.label_small second.isLabel
  refine combine_rule small1 small2 ?_ ?_ fun _ _ => ?_
  · rintro rfl
    obtain rfl := first.eq_nil
    exact ⟨m2,rfl,(Extended.of_denotes second trie).congr (by simp)⟩
  · rintro (rfl | rfl)
    · obtain rfl := second.eq_nil
      exact ⟨m1,rfl,(Extended.of_denotes first trie).congr (by simp)⟩
    · obtain rfl := first.unique second
      exact ⟨m1,rfl,(Extended.of_denotes first trie).congr (by simp)⟩
  have gathered : (b.gather fuel (min m1 m2) (max m1 m2)).Ends fun s =>
      Gathered b (fun v => v ∈ xs ∨ v ∈ ys) (min m1 m2 + max m1 m2)
        (if 0 < s.l1 then s.l1 else s.l2) s.stack := by
    rcases Nat.le_total m1 m2 with le | le
    · rw [Nat.min_eq_left le,Nat.max_eq_right le]
      exact gather_ends trie first second small (by omega)
    · rw [Nat.min_eq_right le,Nat.max_eq_left le]
      refine (gather_ends trie second first (fun v h => small v h.symm) (by omega)).imp ?_
      intro s g
      simpa only [or_comm] using g
  refine gathered.imp fun s g => ?_
  obtain ⟨offs,denotes,refill,sorted,exact⟩ := g.refill trie
  have short := g.short
  refine (reinsert_ends refill (by omega) budget).imp ?_
  rintro ⟨b',m⟩ appends
  exact ⟨m,rfl,_,offs,_,denotes,appends,sorted,exact⟩

/-- The segments `find` lists: one byte each, in the order of the offsets. -/
structure Lists (segs : List TagSeg) (offs : List Nat) : Prop where
  begins : segs.map TagSeg.begin = offs
  bytes : ∀ seg ∈ segs, seg.end_ = seg.begin + 1

theorem Lists.reverse {segs : List TagSeg} (lists : Lists segs offs) :
    Lists segs.reverse offs.reverse :=
  ⟨by rw [List.map_reverse,lists.begins],fun seg member => lists.bytes seg (List.mem_reverse.mp member)⟩

/-- The walk of `find` up a parent chain whose begins all lie below `last_begin`. -/
theorem find_walk (trie : Trie b) (denotes : Denotes b c offs) :
    ∃ segs, Lists segs offs ∧ ∀ lastBegin tagList fuel, (∀ v ∈ offs, v < lastBegin) → c < fuel →
      loop (findPass b) fuel (c,lastBegin,tagList) = .returned (tagList ++ segs) := by
  induction denotes with
  | root =>
    refine ⟨[],⟨rfl,by simp⟩,?_⟩
    intro lastBegin tagList fuel _ budget
    obtain ⟨k,rfl⟩ := Nat.exists_eq_add_of_lt budget
    rw [List.append_nil]
    rfl
  | @label l rest label nonzero parent ih =>
    have bound := trie.label_lt label
    have falls := trie.parent_lt l bound nonzero
    have below := ((Denotes.label label nonzero parent).descending trie)
    obtain ⟨segs,lists,walk⟩ := ih
    refine ⟨(b.node l).seg :: segs,⟨by rw [List.map_cons,lists.begins],?_⟩,?_⟩
    · intro seg member
      rcases List.mem_cons.mp member with rfl | member
      · exact trie.label_end label nonzero
      · exact lists.bytes seg member
    · intro lastBegin tagList fuel small budget
      obtain ⟨k,rfl⟩ : ∃ k, fuel = k + 1 := ⟨fuel - 1,by omega⟩
      have pass : findPass b (l,lastBegin,tagList) = .returned (.again ((b.node l).parent,
          (b.node l).seg.begin,tagList ++ [(b.node l).seg])) := by
        unfold findPass
        dsimp only
        rw [if_pos (Nat.pos_of_ne_zero nonzero),if_pos (small _ List.mem_cons_self)]
        rfl
      rw [loop_succ,pass,Outcome.returned_bind]
      dsimp only
      rw [walk _ _ k (List.pairwise_cons.mp below).1 (by omega),List.append_assoc]
      rfl

theorem find_returns {f : Bool} (trie : Trie b) (denotes : Denotes b c offs)
    (small : ∀ v ∈ offs, v < maxLb) :
    ∃ segs, Returns (fun fuel => b.find fuel (flagged f c)) segs ∧ Lists segs offs.reverse := by
  have smallLabel := trie.laid.label_small denotes.isLabel
  obtain ⟨segs,lists,walk⟩ := find_walk trie denotes
  refine ⟨segs.reverse,⟨2 ^ 24,?_⟩,lists.reverse⟩
  intro fuel budget
  unfold find
  rw [flagged_and_mask smallLabel]
  dsimp only
  rw [walk maxLb [] fuel small (by omega),Outcome.returned_bind,List.nil_append]
  by_cases several : 1 < segs.length
  · rw [if_pos several]; rfl
  · rw [if_neg several]
    match segs with
    | [] => rfl
    | [_] => rfl
    | _ :: _ :: _ => simp at several

end Libdft.BddTag.BDDTag
