import Libdft.BddCombine
import Libdft.Run
import Mathlib.Data.Finset.Union

/-! A process that calls `insert` and `combine`, with a log of every label it was
given and of the set the label was given for. A call that finds the node vector
full stops the process, so it takes no step. -/
namespace Libdft.BddTag

/-- A returned label, the offsets it was returned for, and whether it has the LEN flag. -/
structure Entry where
  label : Nat
  offsets : Finset Nat
  hasLen : Bool
  deriving DecidableEq

structure Session where
  tag : BDDTag
  log : List Entry

inductive Call where
  | insert (pos : Nat)
  | combine (l1 l2 : Nat)

/-- The labels a caller may hold: zero, a label returned before, either with LEN set. -/
inductive Operand (log : List Entry) : Nat → Finset Nat → Bool → Prop where
  | zero : Operand log 0 ∅ false
  | logged : e ∈ log → Operand log e.label e.offsets e.hasLen
  | withLen : Operand log l offsets hasLen → Operand log (l ||| lenLb) offsets true

namespace Session

def start : Session := ⟨.new,[]⟩

inductive Step (s : Session) : Call → Session → Prop where
  | insert : pos < maxLb → Returns (fun fuel => s.tag.insert fuel pos) (b,l) →
      Step s (.insert pos) ⟨b,⟨l,{pos},false⟩ :: s.log⟩
  | combine : Operand s.log l1 offsets1 hasLen1 → Operand s.log l2 offsets2 hasLen2 →
      Returns (fun fuel => s.tag.combine fuel l1 l2) (b,l) →
      Step s (.combine l1 l2) ⟨b,⟨l,offsets1 ∪ offsets2,hasLen1 || hasLen2⟩ :: s.log⟩

end Session

/-- Segments in increasing order, without overlap, that cover exactly the given offsets. -/
structure Covers (segs : List TagSeg) (offsets : Finset Nat) : Prop where
  increasing : (segs.map TagSeg.begin).Pairwise (· < ·)
  disjoint : segs.Pairwise fun s t => ∀ v, ¬ ((s.begin ≤ v ∧ v < s.end_) ∧ t.begin ≤ v ∧ v < t.end_)
  exact : ∀ v, v ∈ offsets ↔ ∃ seg ∈ segs, seg.begin ≤ v ∧ v < seg.end_

/-- `find` returns, and what it lists covers the given offsets. -/
def Finds (b : BDDTag) (l : Nat) (offsets : Finset Nat) : Prop :=
  ∃ segs, Returns (fun fuel => b.find fuel l) segs ∧ Covers segs offsets

theorem Covers.unique {segs : List TagSeg} {offsets offsets' : Finset Nat}
    (covers : Covers segs offsets) (other : Covers segs offsets') : offsets = offsets' := by
  ext v
  rw [covers.exact,other.exact]

theorem Finds.unique {b : BDDTag} {l : Nat} {offsets offsets' : Finset Nat}
    (finds : Finds b l offsets) (other : Finds b l offsets') : offsets = offsets' := by
  obtain ⟨segs,returns,covers⟩ := finds
  obtain ⟨segs',returns',covers'⟩ := other
  obtain rfl := returns.unique returns'
  exact covers.unique covers'

/-- What an entry's label stands for in a state. -/
structure Means (b : BDDTag) (label : Nat) (offsets : Finset Nat) (hasLen : Bool) : Prop where
  denotes : ∃ lb offs, label = BDDTag.flagged hasLen lb ∧ b.Denotes lb offs ∧
    ∀ v, v ∈ offsets ↔ v ∈ offs
  small : ∀ v ∈ offsets, v < maxLb

namespace Means

variable {b b' : BDDTag} {label l : Nat} {offsets : Finset Nat} {hasLen : Bool}

theorem keep (means : Means b label offsets hasLen) (trie : b.Trie) (keeps : b.Keeps b') :
    Means b' label offsets hasLen := by
  obtain ⟨lb,offs,flags,denotes,exact⟩ := means.denotes
  exact ⟨⟨lb,offs,flags,denotes.keep trie keeps,exact⟩,means.small⟩

theorem hasLenLb_eq (means : Means b label offsets hasLen) (trie : b.Trie) :
    hasLenLb label = hasLen := by
  obtain ⟨lb,offs,rfl,denotes,_⟩ := means.denotes
  exact BDDTag.hasLenLb_flagged (trie.laid.label_small denotes.isLabel) hasLen

theorem finds (means : Means b label offsets hasLen) (trie : b.Trie) : Finds b label offsets := by
  obtain ⟨lb,offs,rfl,denotes,exact⟩ := means.denotes
  obtain ⟨segs,returns,lists⟩ := BDDTag.find_returns (f := hasLen) trie denotes fun v member =>
    means.small v ((exact v).mpr member)
  have increasing : (segs.map TagSeg.begin).Pairwise (· < ·) := by
    rw [lists.begins,List.pairwise_reverse]
    exact denotes.descending trie
  refine ⟨segs,returns,increasing,?_,?_⟩
  · refine (List.Pairwise.and_mem.mp (List.pairwise_map.mp increasing)).imp ?_
    rintro s t ⟨ms,_,less⟩ v ⟨⟨_,under⟩,above,_⟩
    rw [lists.bytes s ms] at under
    omega
  · intro v
    rw [exact v,← List.mem_reverse,← lists.begins,List.mem_map]
    constructor
    · rintro ⟨seg,member,rfl⟩
      exact ⟨seg,member,Nat.le_refl _,by rw [lists.bytes seg member]; omega⟩
    · rintro ⟨seg,member,above,under⟩
      rw [lists.bytes seg member] at under
      exact ⟨seg,member,by omega⟩

end Means

namespace Session

structure Invariant (s : Session) : Prop where
  trie : s.tag.Trie
  means : ∀ e ∈ s.log, Means s.tag e.label e.offsets e.hasLen

variable {s next : Session} {l : Nat} {offsets : Finset Nat} {hasLen : Bool}

theorem invariant_start : Invariant start := ⟨BDDTag.trie_new,by simp [start]⟩

theorem Invariant.operand (inv : Invariant s) (operand : Operand s.log l offsets hasLen) :
    Means s.tag l offsets hasLen := by
  induction operand with
  | zero => exact ⟨⟨0,[],rfl,.root,by simp⟩,by simp⟩
  | logged member => exact inv.means _ member
  | withLen _ ih =>
    obtain ⟨lb,offs,rfl,denotes,exact⟩ := ih.denotes
    exact ⟨⟨lb,offs,BDDTag.flagged_or_lenLb _ lb,denotes,exact⟩,ih.small⟩

/-- One more entry for a label that a call has just built. -/
theorem Invariant.grow {b : BDDTag} {m : Nat} (inv : Invariant s) (f : Bool)
    (extended : s.tag.Extended (· ∈ offsets) b m) (small : ∀ v ∈ offsets, v < maxLb) :
    Invariant ⟨b,⟨BDDTag.flagged f m,offsets,f⟩ :: s.log⟩ := by
  obtain ⟨offs,grown,exact⟩ := extended.grown inv.trie
  refine ⟨grown.trie,?_⟩
  intro e member
  rcases List.mem_cons.mp member with rfl | member
  · exact ⟨⟨m,offs,rfl,grown.denotes,exact⟩,small⟩
  · exact (inv.means e member).keep inv.trie grown.keeps

theorem Invariant.insert_ends {pos fuel : Nat} (inv : Invariant s) (small : pos < maxLb)
    (budget : 2 ^ 32 < fuel) :
    (s.tag.insert fuel pos).Ends fun r => s.tag.Extended (· ∈ ({pos} : Finset Nat)) r.1 r.2 := by
  have bound : pos < 2 ^ 24 := Nat.lt_trans small (by decide)
  refine (BDDTag.insert_ends inv.trie (by omega) (by omega)).imp ?_
  intro r extended
  exact extended.congr (by simp)

theorem Invariant.combine_ends {l1 l2 fuel : Nat} {offsets1 offsets2 : Finset Nat} {f g : Bool}
    (inv : Invariant s) (first : Operand s.log l1 offsets1 f) (second : Operand s.log l2 offsets2 g)
    (budget : 2 ^ 32 < fuel) :
    (s.tag.combine fuel l1 l2).Ends fun r =>
      ∃ m, r.2 = BDDTag.flagged (f || g) m ∧ s.tag.Extended (· ∈ offsets1 ∪ offsets2) r.1 m := by
  have means1 := inv.operand first
  have means2 := inv.operand second
  obtain ⟨m1,xs,rfl,denotes1,exact1⟩ := means1.denotes
  obtain ⟨m2,ys,rfl,denotes2,exact2⟩ := means2.denotes
  have small (v : Nat) : v ∈ xs ∨ v ∈ ys → v < maxLb
    | .inl member => means1.small v ((exact1 v).mpr member)
    | .inr member => means2.small v ((exact2 v).mpr member)
  refine (BDDTag.combine_ends inv.trie denotes1 denotes2 small budget).imp ?_
  rintro r ⟨m,label,extended⟩
  exact ⟨m,label,extended.congr fun v => by rw [Finset.mem_union,exact1,exact2]⟩

theorem step_invariant {call : Call} (inv : Invariant s) (step : Step s call next) :
    Invariant next := by
  cases step with
  | insert small returns =>
    have extended := returns.post ⟨2 ^ 32 + 1,fun fuel h => inv.insert_ends small (by omega)⟩
    exact inv.grow false extended (by simpa using small)
  | combine first second returns =>
    obtain ⟨m,rfl,extended⟩ := returns.post
      ⟨2 ^ 32 + 1,fun fuel h => inv.combine_ends first second (by omega)⟩
    refine inv.grow _ extended ?_
    intro v member
    rcases Finset.mem_union.mp member with member | member
    · exact (inv.operand first).small v member
    · exact (inv.operand second).small v member

theorem run_invariant {calls : List Call} (run : Run Step start calls s) : Invariant s :=
  run.invariant Invariant (fun _ _ _ inv step => step_invariant inv step) invariant_start

/-- Every label handed out so far still stands for the set it was returned for, carries
LEN as an operand gave it, and is listed by `find`; further calls come to an end. -/
theorem labels_denote_sets {calls : List Call} (run : Run Step start calls s) :
    (∀ l offsets hasLen, Operand s.log l offsets hasLen →
      hasLenLb l = hasLen ∧ Finds s.tag l offsets) ∧
    (∀ pos < maxLb, Terminates fun fuel => s.tag.insert fuel pos) ∧
    (∀ l1 l2 offsets1 offsets2 f g, Operand s.log l1 offsets1 f → Operand s.log l2 offsets2 g →
      Terminates fun fuel => s.tag.combine fuel l1 l2) := by
  have inv := run_invariant run
  refine ⟨?_,?_,?_⟩
  · intro l offsets hasLen operand
    have means := inv.operand operand
    exact ⟨means.hasLenLb_eq inv.trie,means.finds inv.trie⟩
  · intro pos small
    exact .of_ends ⟨2 ^ 32 + 1,fun fuel h => inv.insert_ends small (by omega)⟩
  · intro l1 l2 offsets1 offsets2 f g first second
    exact .of_ends ⟨2 ^ 32 + 1,fun fuel h => inv.combine_ends first second (by omega)⟩

/-- The second call splits the gap below the first label, the third joins both sets. -/
theorem labels_denote_sets_split : ∃ s, Run Step start
    [.insert 5,.insert 3,.combine 2 (4 ||| lenLb)] s ∧
      hasLenLb (6 ||| lenLb) = true ∧ Finds s.tag (6 ||| lenLb) ({5} ∪ {3}) := by
  have run : ∃ b, Run Step start [.insert 5,.insert 3,.combine 2 (4 ||| lenLb)]
      ⟨b,[⟨6 ||| lenLb,{5} ∪ {3},true⟩,⟨4,{3},false⟩,⟨2,{5},false⟩]⟩ :=
    ⟨_,.cons (.insert (l := 2) (by decide) ((BDDTag.insert_steady _ _).returns (n := 7) rfl)) <|
      .cons (.insert (l := 4) (by decide) ((BDDTag.insert_steady _ _).returns (n := 7) rfl)) <|
      .cons (.combine (l := 6 ||| lenLb) (.logged (.tail _ (.head _)))
        (.withLen (.logged (.head _))) ((BDDTag.combine_steady _ _ _).returns (n := 7) rfl)) .nil⟩
  obtain ⟨b,run⟩ := run
  exact ⟨_,run,(labels_denote_sets run).1 _ _ _ (.logged (.head _))⟩

end Session

end Libdft.BddTag
