import Libdft.SsaPool
import Libdft.SsaBackend
import Mathlib.Data.Fintype.Sum
import Mathlib.Data.Fintype.Option

/-! `ssa_tag` values of the build with reference counts, and the two operations that
make new ones. Storage without a live object holds the null reference. A tag takes
eight bytes, so its address is one of 2^61; the three cache tags are apart. -/
namespace Libdft.Ssa

inductive Cache where
  | l | r | v
  deriving DecidableEq

instance : Fintype Cache := ⟨{.l, .r, .v}, fun x => by cases x <;> simp⟩

/-- How many tags fit into the address space. -/
def tagSlots : Nat := 2 ^ 61

instance : NeZero tagSlots := ⟨by decide⟩

abbrev Obj := Fin tagSlots

/-- The places that hold a tag: objects of the program and `cb_cache_l/r/v`. -/
abbrev Loc := Obj ⊕ Cache

structure State where
  pool : Pool
  tags : Loc → Option Cell
  /-- Every cell taken from the ring so far. -/
  handed : List Cell

/-- `rhs.ssa_ref->ref_count++`, if there is one. -/
def incr (refCount : Cell → Nat) : Option Cell → Cell → Nat
  | none => refCount
  | some c => Function.update refCount c ((refCount c + 1) % 2 ^ 64)

/-- `ssa_ref->ref_count--`, if there is one. -/
def decr (refCount : Cell → Nat) : Option Cell → Cell → Nat
  | none => refCount
  | some c => Function.update refCount c ((refCount c + 2 ^ 64 - 1) % 2 ^ 64)

namespace State

def setTag (s : State) (x : Loc) (ref : Option Cell) : State :=
  { s with tags := Function.update s.tags x ref }

def setCounts (s : State) (refCount : Cell → Nat) : State :=
  { s with pool := { s.pool with refCount } }

/-- `ssa_tag(const ssa_tag &rhs)` -/
def copyConstruct (s : State) (dst src : Loc) : State :=
  (s.setCounts (incr s.pool.refCount (s.tags src))).setTag dst (s.tags src)

/-- `ssa_tag(ssa_tag &&rhs)` -/
def moveConstruct (s : State) (dst src : Loc) : State :=
  (s.setTag dst (s.tags src)).setTag src none

/-- `~ssa_tag()` -/
def destroy (s : State) (x : Loc) : State :=
  (s.setCounts (decr s.pool.refCount (s.tags x))).setTag x none

/-- `operator=(const ssa_tag &rhs)` -/
def copyAssign (s : State) (dst src : Loc) : State :=
  (s.setCounts (decr (incr s.pool.refCount (s.tags src)) (s.tags dst))).setTag dst (s.tags src)

/-- `operator=(ssa_tag &&rhs)` -/
def moveAssign (s : State) (dst src : Loc) : State :=
  ((s.setCounts (decr s.pool.refCount (s.tags dst))).setTag dst (s.tags src)).setTag src none

/-- `operator==` -/
def same (s : State) : Option Cell → Option Cell → Bool
  | some a, some b => a == b || s.pool.bdd a == s.pool.bdd b
  | none, none => true
  | _, _ => false

/-- A cell from the ring becomes the tag at `dst`, with one reference and a value. -/
def mint (s : State) (dst : Loc) (c : Cell) (bdd : Nat) : State :=
  { s with
    pool := { s.pool with
      refCount := Function.update s.pool.refCount c 1
      bdd := Function.update s.pool.bdd c bdd
      registered := Function.update s.pool.registered c (s.pool.registered c + 1) }
    handed := c :: s.handed }.setTag dst (some c)

@[simp] theorem mint_tags (s : State) (dst : Loc) (c : Cell) (bdd : Nat) :
    (s.mint dst c bdd).tags = Function.update s.tags dst (some c) := rfl

@[simp] theorem mint_bdd (s : State) (dst : Loc) (c : Cell) (bdd : Nat) :
    (s.mint dst c bdd).pool.bdd = Function.update s.pool.bdd c bdd := rfl

def takeVictim (fuel : Nat) (s : State) : Outcome (State × Cell) := do
  let (pool, c) ← s.pool.victim fuel
  return ({ s with pool }, c)

def ssaTagAlloc (backend : Backend) (fuel : Nat) (s : State) (dst : Loc) (offset : Nat) :
    Outcome State := do
  let (s, c) ← s.takeVictim fuel
  return s.mint dst c (backend.cube (offsetArray offset))

/-- The three cache assignments after a task. -/
def remember (s : State) (lhs rhs value : Loc) : State :=
  ((s.copyAssign (.inr .l) lhs).copyAssign (.inr .r) rhs).copyAssign (.inr .v) value

def bddOf (s : State) (x : Loc) : Nat := ((s.tags x).map s.pool.bdd).getD 0

def ssaTagCombine (backend : Backend) (fuel : Nat) (s : State) (dst lhs rhs : Loc) :
    Outcome State :=
  if s.tags lhs = none then return s.copyConstruct dst rhs
  else if s.tags rhs = none ∨ s.same (s.tags lhs) (s.tags rhs) then
    return s.copyConstruct dst lhs
  else if s.same (s.tags (.inr .l)) (s.tags lhs) ∧ s.same (s.tags (.inr .r)) (s.tags rhs) then
    return s.copyConstruct dst (.inr .v)
  else
    let res := backend.union (s.bddOf lhs) (s.bddOf rhs)
    if res = s.bddOf lhs then return (s.remember lhs rhs lhs).copyConstruct dst lhs
    else if res = s.bddOf rhs then return (s.remember lhs rhs rhs).copyConstruct dst rhs
    else do
      let (s, c) ← s.takeVictim fuel
      return (s.mint dst c res).remember lhs rhs dst

/-- After `ssa_init` and `ssa_thread_start`. -/
def start : State := ⟨.ssaInit, fun _ => none, []⟩

end State

inductive Op where
  | alloc (dst : Obj) (offset : Nat)
  | combine (dst lhs rhs : Obj)
  | copyConstruct (dst src : Obj)
  | moveConstruct (dst src : Obj)
  | copyAssign (dst src : Obj)
  | moveAssign (dst src : Obj)
  | destroy (x : Obj)

/-- One operation. A constructor, or a call whose result is constructed, needs storage
without a live object. -/
inductive Step (backend : Backend) (s : State) : Op → State → Prop where
  | alloc : s.tags (.inl dst) = none →
      Returns (fun fuel => s.ssaTagAlloc backend fuel (.inl dst) offset) next →
      Step backend s (.alloc dst offset) next
  | combine : s.tags (.inl dst) = none →
      Returns (fun fuel => s.ssaTagCombine backend fuel (.inl dst) (.inl lhs) (.inl rhs)) next →
      Step backend s (.combine dst lhs rhs) next
  | copyConstruct : s.tags (.inl dst) = none →
      Step backend s (.copyConstruct dst src) (s.copyConstruct (.inl dst) (.inl src))
  | moveConstruct : s.tags (.inl dst) = none →
      Step backend s (.moveConstruct dst src) (s.moveConstruct (.inl dst) (.inl src))
  | copyAssign : Step backend s (.copyAssign dst src) (s.copyAssign (.inl dst) (.inl src))
  | moveAssign : Step backend s (.moveAssign dst src) (s.moveAssign (.inl dst) (.inl src))
  | destroy : Step backend s (.destroy x) (s.destroy (.inl x))

end Libdft.Ssa
