import Libdft.Loop
import Libdft.Ring

/-! The cell pool of `ssa_tag_gc.cpp`: blocks of cells, the free ring and `ssa_gc`.
Counts are 64-bit. The block list is its length, a cell's address the pair of its
block and its index; `registered` counts the protections of a cell's `bdd` field. -/
namespace Libdft.Ssa

/-- `SSA_BLK` -/
def ssaBlk : Nat := 0x10000
/-- `SSA_GC_THRESHOLD` -/
def ssaGcThreshold : Nat := ssaBlk / 2
/-- The count of a cell that was never used. -/
def neverUsed : Nat := 0xffffffffffffffff

structure Cell where
  blk : Nat
  idx : Nat
  deriving DecidableEq, Repr

structure Pool where
  /-- `_h`, `_t` and `_q` of `free_ssa` -/
  freeSsa : Ring Cell
  gcLock : Nat
  blocks : Nat
  refCount : Cell → Nat
  bdd : Cell → Nat
  registered : Cell → Nat

/-- The free slots, as both `add_ssa_blk` and `ssa_gc` compute them. -/
def emptyCount (r : Ring Cell) : Nat :=
  if r.head ≤ r.tail then ssaBlk - 1 - (r.tail - r.head) else r.head - r.tail - 1

namespace Pool

/-- Cells in the order in which `ssa_gc` visits them. -/
def cells (p : Pool) : List Cell :=
  (List.range p.blocks).flatMap fun blk => (List.range ssaBlk).map (Cell.mk blk)

def addSsaBlk (p : Pool) : Pool :=
  { p with
    blocks := p.blocks + 1
    refCount := fun c => if c.blk = p.blocks then neverUsed else p.refCount c
    bdd := fun c => if c.blk = p.blocks then 0xffffffffffffffff else p.bdd c
    freeSsa := ((List.range (emptyCount p.freeSsa)).map (Cell.mk p.blocks)).foldl (Ring.push ssaBlk)
      p.freeSsa }

def isFree (p : Pool) (c : Cell) : Bool := p.refCount c == 0 || p.refCount c == neverUsed

/-- Locals of `ssa_gc`; the tail of `ring` is `temp_t`. -/
structure GcScan where
  ring : Ring Cell
  emptyCount : Nat
  registered : Cell → Nat

/-- A free cell enters the ring; only a used one has a `bdd` to unprotect. -/
def gcEnqueue (p : Pool) (g : GcScan) (c : Cell) : GcScan where
  ring := g.ring.push ssaBlk c
  emptyCount := (g.emptyCount + 2 ^ 64 - 1) % 2 ^ 64
  registered :=
    if p.refCount c = 0 ∧ p.bdd c ≠ 0 then Function.update g.registered c (g.registered c - 1)
    else g.registered

/-- The two nested loops of `ssa_gc`; the flag says that `goto exit_gc` was taken. -/
def gcScan (p : Pool) : List Cell → GcScan → GcScan × Bool
  | [], g => (g, false)
  | c :: rest, g =>
    if p.isFree c then
      let g := p.gcEnqueue g c
      if g.emptyCount = 0 then (g, true) else p.gcScan rest g
    else p.gcScan rest g

def gcStart (p : Pool) : GcScan := ⟨p.freeSsa, emptyCount p.freeSsa, p.registered⟩

/-- `free_ssa._t = temp_t` -/
def settle (p : Pool) (g : GcScan) : Pool := { p with freeSsa := g.ring, registered := g.registered }

def ssaGc (p : Pool) : Pool :=
  let (g, exitGc) := p.gcScan p.cells p.gcStart
  let p := p.settle g
  let p := if exitGc = false ∧ ssaGcThreshold < g.emptyCount then p.addSsaBlk else p
  { p with gcLock := 0 }

/-- The compare-and-swap that takes `gc_lock`. -/
def lock (p : Pool) : Pool := { p with gcLock := 1 }

/-- The inner loop of an allocation: wait while the ring looks empty from `idx`. -/
def waitPass (idx : Nat) (p : Pool) : Outcome (Pass Pool Pool) :=
  if idx = p.freeSsa.tail then
    if p.gcLock = 0 then return .again p.lock.ssaGc else return .again p
  else return .leave p

/-- The allocation loop shared by `ssa_tag_alloc` and `ssa_tag_combine`. -/
def victimPass (fuel : Nat) (p : Pool) : Outcome (Pass Pool (Pool × Cell)) := do
  let idx := p.freeSsa.head
  let p ← loop (waitPass idx) fuel p
  if p.freeSsa.head = idx then
    return .leave ({ p with freeSsa := p.freeSsa.pop ssaBlk }, p.freeSsa.slots idx)
  else return .again p

def victim (fuel : Nat) (p : Pool) : Outcome (Pool × Cell) := loop (victimPass fuel) fuel p

/-- The pool before the first block. -/
def empty : Pool := ⟨⟨0, 0, fun _ => ⟨0, 0⟩⟩, 0, 0, fun _ => 0, fun _ => 0, fun _ => 0⟩

/-- The pool part of `ssa_init`. -/
def ssaInit : Pool := empty.addSsaBlk

theorem victim_steady (p : Pool) : Steady fun fuel => p.victim fuel := by
  refine loop_steady (fun p => ?_) p
  exact (loop_steady_fixed (waitPass p.freeSsa.head) p).bind fun _ => .const _

end Pool

end Libdft.Ssa
