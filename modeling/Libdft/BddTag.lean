import Libdft.Loop
import Mathlib.Data.Nat.Bitwise

/-! The label trie of `bdd_tag.h` and `bdd_tag.cpp`. Labels and offsets are 32-bit
and the run lengths 64-bit unsigned; the arithmetic that can wrap says so. Reading
past the node vector gives a blank node, which `BddTrie` shows never happens. -/
namespace Libdft.BddTag

def lbWidth : Nat := 24
def maxLb : Nat := (1 <<< lbWidth) - 1
def lbMask : Nat := maxLb
def lenLb : Nat := 0xF0000000
def root : Nat := 0

/-- `BDD_HAS_LEN_LB`. -/
def hasLenLb (lb : Nat) : Bool := decide (lenLb ≤ lb)

def tagOff (x : Nat) : Nat := x % 2 ^ 32

/-- Subtraction of two 32-bit offsets. -/
def offSub (x y : Nat) : Nat := (x + 2 ^ 32 - y) % 2 ^ 32

structure TagSeg where
  sign : Bool
  begin : Nat
  end_ : Nat
  deriving DecidableEq, Repr

structure TagNode where
  left : Nat
  right : Nat
  parent : Nat
  seg : TagSeg
  deriving DecidableEq, Repr

/-- The constructor `TagNode(p, begin, end)`. -/
def TagNode.make (parent : Nat) (begin end_ : Nat) : TagNode :=
  ⟨0, 0, parent, ⟨false, tagOff begin, tagOff end_⟩⟩

def TagNode.getSegSize (n : TagNode) : Nat := offSub n.seg.end_ n.seg.begin

structure BDDTag where
  nodes : Array TagNode
  deriving DecidableEq, Repr

namespace BDDTag

def new : BDDTag := ⟨#[.make root 0 0]⟩

def size (b : BDDTag) : Nat := b.nodes.size

def node (b : BDDTag) (lb : Nat) : TagNode := b.nodes.getD lb (.make 0 0 0)

def setLeft (b : BDDTag) (lb child : Nat) : BDDTag :=
  ⟨b.nodes.modify lb fun n => { n with left := child }⟩

def setRight (b : BDDTag) (lb child : Nat) : BDDTag :=
  ⟨b.nodes.modify lb fun n => { n with right := child }⟩

def setParent (b : BDDTag) (lb parent : Nat) : BDDTag :=
  ⟨b.nodes.modify lb fun n => { n with parent := parent }⟩

def setSeg (b : BDDTag) (lb : Nat) (f : TagSeg → TagSeg) : BDDTag :=
  ⟨b.nodes.modify lb fun n => { n with seg := f n.seg }⟩

def setBegin (b : BDDTag) (lb : Nat) (begin : Nat) : BDDTag :=
  b.setSeg lb fun seg => { seg with begin := tagOff begin }

def pushNode (b : BDDTag) (n : TagNode) : BDDTag := ⟨b.nodes.push n⟩

/-- `5 / *(&a)` with `a == 0` stops the process once the vector is full. -/
def allocNode (b : BDDTag) (parent : Nat) (begin end_ : Nat) : Outcome (BDDTag × Nat) :=
  let lb := b.size
  if lb < maxLb then .returned (b.pushNode (.make parent begin end_), lb) else .trapped

def insertNZerosPass (lastOneLb : Nat) :
    BDDTag × Nat × Nat → Outcome (Pass (BDDTag × Nat × Nat) (BDDTag × Nat))
  | (b, curLb, num) =>
    if num = 0 then return .leave (b, curLb)
    else
      let next := (b.node curLb).left
      let nextSize := (b.node next).getSegSize
      if next = 0 then do
        let off := (b.node curLb).seg.end_
        let (b, newLb) ← b.allocNode lastOneLb off (off + num)
        return .again (b.setLeft curLb newLb, newLb, 0)
      else if num < nextSize then do
        -- the new node takes over the left link of `curLb`; its own left link stays 0
        let off := (b.node curLb).seg.end_
        let (b, newLb) ← b.allocNode lastOneLb off (off + num)
        return .again ((b.setLeft curLb newLb).setBegin next (off + num), newLb, 0)
      else return .again (b, next, num - nextSize)

def insertNZeros (fuel : Nat) (b : BDDTag) (curLb : Nat) (num : Nat) (lastOneLb : Nat) :
    Outcome (BDDTag × Nat) :=
  loop (insertNZerosPass lastOneLb) fuel (b, curLb, num)

def insertNOnesPass (lastOneLb : Nat) :
    BDDTag × Nat × Nat → Outcome (Pass (BDDTag × Nat × Nat) (BDDTag × Nat))
  | (b, curLb, num) =>
    if num = 0 then return .leave (b, curLb)
    else
      let next := (b.node curLb).right
      let lastEnd := (b.node curLb).seg.end_
      if next = 0 then do
        let (b, newLb) ← b.allocNode lastOneLb lastEnd (lastEnd + num)
        return .again (b.setRight curLb newLb, newLb, 0)
      else
        let nextEnd := (b.node next).seg.end_
        let nextSize := offSub nextEnd lastEnd
        if num < nextSize then do
          let (b, newLb) ← b.allocNode lastOneLb lastEnd (lastEnd + num)
          let b := (b.setRight curLb newLb).setRight newLb next
          return .again ((b.setParent next newLb).setBegin next (lastEnd + num), newLb, 0)
        else return .again (b, next, num - nextSize)

def insertNOnes (fuel : Nat) (b : BDDTag) (curLb : Nat) (num : Nat) (lastOneLb : Nat) :
    Outcome (BDDTag × Nat) :=
  loop (insertNOnesPass lastOneLb) fuel (b, curLb, num)

def insert (fuel : Nat) (b : BDDTag) (pos : Nat) : Outcome (BDDTag × Nat) := do
  let (b, curLb) ← b.insertNZeros fuel root pos root
  b.insertNOnes fuel curLb 1 root

def setSign (b : BDDTag) (lb : Nat) : BDDTag := b.setSeg lb fun seg => { seg with sign := true }

def setSize (b : BDDTag) (lb : Nat) (size : Nat) : BDDTag :=
  b.setSeg lb fun seg => { seg with end_ := tagOff (seg.end_ + (size + 2 ^ 64 - 1)) }

/-- Loop state of the first half of `combine`: both chains, `last_begin` and the stack. -/
structure Gather where
  l1 : Nat
  l2 : Nat
  lastBegin : Nat
  stack : List Nat

/-- `lb_st.push(lb)` and the update of `last_begin`, skipped for a begin already pushed. -/
def Gather.note (b : BDDTag) (s : Gather) (lb : Nat) : Gather :=
  if (b.node lb).seg.begin < s.lastBegin then
    { s with stack := lb :: s.stack, lastBegin := (b.node lb).seg.begin }
  else s

def gatherPass (b : BDDTag) (s : Gather) : Outcome (Pass Gather Gather) :=
  if 0 < s.l1 ∧ s.l1 ≠ s.l2 then
    if (b.node s.l1).seg.begin < (b.node s.l2).seg.begin then
      return .again { s.note b s.l2 with l2 := (b.node s.l2).parent }
    else return .again { s.note b s.l1 with l1 := (b.node s.l1).parent }
  else return .leave s

def gather (fuel : Nat) (b : BDDTag) (l1 l2 : Nat) : Outcome Gather :=
  loop (gatherPass b) fuel ⟨l1, l2, maxLb, []⟩

/-- The two ways of taking one popped segment in: it touches `curLb`, or a gap precedes it. -/
def mergeSeg (fuel : Nat) (b : BDDTag) (curLb : Nat) (nextSeg : TagSeg) : Outcome (BDDTag × Nat) :=
  let curSeg := (b.node curLb).seg
  if nextSeg.begin ≤ curSeg.end_ then
    if curSeg.end_ < nextSeg.end_ then
      b.insertNOnes fuel curLb (offSub nextSeg.end_ curSeg.end_) curLb
    else return (b, curLb)
  else do
    let (b, zeroLb) ← b.insertNZeros fuel curLb (offSub nextSeg.begin curSeg.end_) curLb
    b.insertNOnes fuel zeroLb (offSub nextSeg.end_ nextSeg.begin) curLb

def reinsertPass (fuel : Nat) :
    BDDTag × Nat × List Nat → Outcome (Pass (BDDTag × Nat × List Nat) (BDDTag × Nat))
  | (b, curLb, []) => return .leave (b, curLb)
  | (b, curLb, next :: stack) => do
    let nextSeg := (b.node next).seg
    let (b, curLb) ← b.mergeSeg fuel curLb nextSeg
    return .again (if nextSeg.sign then b.setSign curLb else b, curLb, stack)

def reinsert (fuel : Nat) (b : BDDTag) (curLb : Nat) (stack : List Nat) :
    Outcome (BDDTag × Nat) :=
  loop (reinsertPass fuel) fuel (b, curLb, stack)

def combine (fuel : Nat) (b : BDDTag) (l1 l2 : Nat) : Outcome (BDDTag × Nat) :=
  if l1 = 0 then return (b, l2)
  else if l2 = 0 ∨ l1 = l2 then return (b, l1)
  else do
    let hasLen := hasLenLb l1 || hasLenLb l2
    let m1 := l1 &&& lbMask
    let m2 := l2 &&& lbMask
    let s ← b.gather fuel (min m1 m2) (max m1 m2)
    let curLb := if 0 < s.l1 then s.l1 else s.l2
    let (b, curLb) ← b.reinsert fuel curLb s.stack
    return (b, if hasLen then curLb ||| lenLb else curLb)

/-- Loop state of `find`: the label, `last_begin` and the segments pushed so far. -/
def findPass (b : BDDTag) :
    Nat × Nat × List TagSeg → Outcome (Pass (Nat × Nat × List TagSeg) (List TagSeg))
  | (lb, lastBegin, tagList) =>
    if 0 < lb then
      let seg := (b.node lb).seg
      if seg.begin < lastBegin then
        return .again ((b.node lb).parent, seg.begin, tagList ++ [seg])
      else return .again ((b.node lb).parent, lastBegin, tagList)
    else return .leave tagList

def find (fuel : Nat) (b : BDDTag) (lb : Nat) : Outcome (List TagSeg) := do
  let tagList ← loop (findPass b) fuel (lb &&& lbMask, maxLb, [])
  return if 1 < tagList.length then tagList.reverse else tagList

theorem insertNZeros_steady (b : BDDTag) (curLb num lastOneLb : Nat) :
    Steady fun fuel => b.insertNZeros fuel curLb num lastOneLb :=
  loop_steady_fixed _ _

theorem insertNOnes_steady (b : BDDTag) (curLb num lastOneLb : Nat) :
    Steady fun fuel => b.insertNOnes fuel curLb num lastOneLb :=
  loop_steady_fixed _ _

theorem insert_steady (b : BDDTag) (pos : Nat) : Steady fun fuel => b.insert fuel pos :=
  (b.insertNZeros_steady root pos root).bind fun r => r.1.insertNOnes_steady r.2 1 root

theorem mergeSeg_steady (b : BDDTag) (curLb : Nat) (nextSeg : TagSeg) :
    Steady fun fuel => b.mergeSeg fuel curLb nextSeg :=
  .ite (.ite (b.insertNOnes_steady _ _ _) (.const _))
    ((b.insertNZeros_steady _ _ _).bind fun r => r.1.insertNOnes_steady r.2 _ _)

theorem combine_steady (b : BDDTag) (l1 l2 : Nat) : Steady fun fuel => b.combine fuel l1 l2 := by
  refine .ite (.const _) (.ite (.const _) ?_)
  have gather (x y : Nat) : Steady fun fuel => b.gather fuel x y := loop_steady_fixed _ _
  have reinsert (curLb : Nat) (stack : List Nat) : Steady fun fuel => b.reinsert fuel curLb stack := by
    refine loop_steady ?_ _
    rintro ⟨b,curLb,_ | ⟨next,stack⟩⟩
    · exact .const _
    · exact (b.mergeSeg_steady curLb (b.node next).seg).bind fun _ => .const _
  exact (gather _ _).bind fun s => (reinsert _ s.stack).bind fun _ => .const _

end BDDTag

end Libdft.BddTag
