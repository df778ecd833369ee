import Libdft.SsaPool
import Libdft.Run

/-! Any number of threads in the allocation loop of `ssa_tag_alloc` and `ssa_tag_combine`,
one access to shared memory at a time and in any order. The body of `ssa_gc` is one
step; so is every compare-and-swap. -/
namespace Libdft.Ssa.Threads

abbrev Tid := Nat

/-- The next access of a thread. -/
inductive Pc where
  | readHead
  | testTail (idx : Nat)
  | tryLock (idx : Nat)
  | collect (idx : Nat)
  | casHead (idx : Nat)
  | readSlot (idx : Nat)
  | mark (c : Cell)
  deriving DecidableEq

structure State where
  pool : Pool
  pc : Tid → Pc
  /-- The cells obtained and not given back since, each with the thread that obtained it. -/
  held : List (Tid × Cell)

inductive Act where
  | run (t : Tid)
  /-- The last reference to a cell that `t` obtained goes away. -/
  | drop (t : Tid) (c : Cell)

namespace State

def goto (s : State) (t : Tid) (pc : Pc) : State := { s with pc := Function.update s.pc t pc }

def setCount (s : State) (c : Cell) (n : Nat) : State :=
  { s with pool := { s.pool with refCount := Function.update s.pool.refCount c n } }

def head (s : State) : Nat := s.pool.freeSsa.head
def tail (s : State) : Nat := s.pool.freeSsa.tail
def slot (s : State) (idx : Nat) : Cell := s.pool.freeSsa.slots idx
/-- What is between `_h` and `_t`. -/
def free (s : State) : List Cell := s.pool.freeSsa.contents ssaBlk

/-- After `ssa_init`. -/
def start : State := ⟨.ssaInit, fun _ => .readHead, []⟩

end State

inductive Step (s : State) : Act → State → Prop where
  | readHead : s.pc t = .readHead → Step s (.run t) (s.goto t (.testTail s.head))
  | looksEmpty : s.pc t = .testTail idx → idx = s.tail → Step s (.run t) (s.goto t (.tryLock idx))
  | looksFilled : s.pc t = .testTail idx → idx ≠ s.tail → Step s (.run t) (s.goto t (.casHead idx))
  | locked : s.pc t = .tryLock idx → s.pool.gcLock = 0 →
      Step s (.run t) ({ s with pool := s.pool.lock }.goto t (.collect idx))
  | busy : s.pc t = .tryLock idx → s.pool.gcLock ≠ 0 → Step s (.run t) (s.goto t (.testTail idx))
  | collect : s.pc t = .collect idx → Step s (.run t) ({ s with pool := s.pool.ssaGc }.goto t (.testTail idx))
  | taken : s.pc t = .casHead idx → s.head = idx →
      Step s (.run t) ({ s with pool := { s.pool with freeSsa := s.pool.freeSsa.pop ssaBlk } }.goto t (.readSlot idx))
  | lost : s.pc t = .casHead idx → s.head ≠ idx → Step s (.run t) (s.goto t .readHead)
  | readSlot : s.pc t = .readSlot idx →
      Step s (.run t) ({ s with held := (t, s.slot idx) :: s.held }.goto t (.mark (s.slot idx)))
  | mark : s.pc t = .mark c → Step s (.run t) ((s.setCount c 1).goto t .readHead)
  | drop : (t, c) ∈ s.held → s.pc t ≠ .mark c →
      Step s (.drop t c) { s.setCount c 0 with held := s.held.erase (t, c) }

/-- The thread has moved `_h` and not yet set the count of the cell it gets. -/
def Pc.Taking : Pc → Prop
  | .readSlot _ | .mark _ => True
  | _ => False

/-- A collection starts on an empty ring while no thread is taking a cell, and `_h` is not
moved past `_t`. -/
def Orderly (s : State) : Act → Prop
  | .drop _ _ => True
  | .run t =>
    match s.pc t with
    | .collect _ => s.head = s.tail ∧ ∀ other, ¬ (s.pc other).Taking
    | .casHead idx => s.head = idx → s.head ≠ s.tail
    | _ => True

/-- Every cell has one holder, and no cell is in the ring twice. -/
structure Safe (s : State) : Prop where
  once : (s.held.map Prod.snd).Nodup
  distinct : s.free.Nodup

/-- The fill loop of `ssa_gc` always has a slot left when it goes on. -/
def FindsRoom (s : State) : Prop :=
  ∀ seen, seen <+: s.pool.cells → (s.pool.gcScan seen s.pool.gcStart).2 = false →
    0 < (s.pool.gcScan seen s.pool.gcStart).1.emptyCount

/-- The step is the body of `ssa_gc`. -/
def Collects (s : State) (a : Act) : Prop := ∃ t idx, a = .run t ∧ s.pc t = .collect idx

end Libdft.Ssa.Threads
