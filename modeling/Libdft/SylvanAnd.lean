import Libdft.DecisionDiagram
import Libdft.Loop

/-! The conjunction that the tag workers call, in its variants for one worker: with collections of
the unique table and without. The table and the operation cache are any that keep the laws below. -/
namespace Libdft.Sylvan

open Diagram

def sylvanFalse : Edge := ⟨false,0⟩
def sylvanTrue : Edge := ⟨true,0⟩

/-- `nodes`: looking a content up finds the index that has it, or stores it at a free one. Index 0
is no node, and says that the table is full. -/
class UniqueTable (Θ : Type) where
  nodes : Θ → Nodes
  lookup : Θ → Node → Nat × Θ
  lookup_found (t : Θ) (n : Node) (i : Nat) : nodes t i = some n → i ≠ 0 → lookup t n = (i,t)
  lookup_stored (t : Θ) (n : Node) : (lookup t n).1 ≠ 0 → nodes (lookup t n).2 (lookup t n).1 = some n
  lookup_extends (t : Θ) (n : Node) : Extends (nodes t) (nodes (lookup t n).2)
  nodes_zero (t : Θ) : nodes t 0 = none

/-- Entries of the operation cache under `CACHE_BDD_AND`; a new entry may push others out. -/
class OpCache (C : Type) where
  get : C → Edge → Edge → Option Edge
  put : C → Edge → Edge → Edge → C
  get_put (c : C) (a b r a' b' x : Edge) : get (put c a b r) a' b' = some x → a' = a ∧ b' = b ∧ x = r ∨ get c a' b' = some x

structure State (Θ C : Type) where
  table : Θ
  cache : C

variable {Θ C : Type} [UniqueTable Θ] [OpCache C]

open UniqueTable (lookup)

/-- `MTBDD_GETNODE` -/
def getNode (s : State Θ C) (e : Edge) : Node := (UniqueTable.nodes s.table e.index).getD ⟨0,0,sylvanFalse⟩

/-- `_mtbdd_makenode_nogc` and `_mtbdd_makenode`, with what they do when the table is full. -/
def makenodeUnless (full : State Θ C → Node → Outcome (Nat × State Θ C)) (var : Nat) (low high : Edge) (s : State Θ C) :
    Outcome (Edge × State Θ C) := do
  let mark := low.mark
  let (low, high) := if low.mark then (low.toggle, high.toggle) else (low, high)
  let n : Node := ⟨var,low.index,high⟩
  let (index, table) := lookup s.table n
  let (index, s) ← if index = 0 then full { s with table } n else pure (index, { s with table })
  return (⟨mark,index⟩, s)

/-- `exit(1)` -/
def tableFull (_ : State Θ C) (_ : Node) : Outcome (Nat × State Θ C) := .trapped

/-- A collection, and a second try. -/
def collectAndRetry (gc : State Θ C → Outcome (State Θ C)) (s : State Θ C) (n : Node) : Outcome (Nat × State Θ C) := do
  let s ← gc s
  let (index, table) := lookup s.table n
  if index = 0 then .trapped else return (index, { s with table })

/-- `mtbdd_makenode_nogc` -/
def mtbddMakenodeNogc (var : Nat) (low high : Edge) (s : State Θ C) : Outcome (Edge × State Θ C) :=
  if low = high then return (low, s) else makenodeUnless tableFull var low high s

/-- `mtbdd_makenode` -/
def mtbddMakenode (gc : State Θ C → Outcome (State Θ C)) (var : Nat) (low high : Edge) (s : State Θ C) :
    Outcome (Edge × State Θ C) :=
  if low = high then return (low, s) else makenodeUnless (collectAndRetry gc) var low high s

/-- `granularity < 2 || prev_level == 0 ? 1 : prev_level / granularity != level / granularity` -/
def cachenow (granularity : Int) (prevLevel level : Nat) : Bool :=
  granularity < 2 ∨ prevLevel = 0 ∨ (prevLevel : Int) / granularity ≠ (level : Int) / granularity

/-- The calls of a variant: what it does before an operation, and how it makes a node. -/
structure Variant (Θ C : Type) where
  gcTest : State Θ C → Outcome (State Θ C)
  makenode : Nat → Edge → Edge → State Θ C → Outcome (Edge × State Θ C)

/-- One recursive call, or what stands for it. -/
def andCofactor (call : Edge → Edge → State Θ C → Outcome (Edge × State Θ C)) (a b : Edge) (s : State Θ C) :
    Outcome (Edge × State Θ C) :=
  if a = sylvanTrue then return (b, s)
  else if a = sylvanFalse ∨ b = sylvanFalse then return (sylvanFalse, s)
  else if b = sylvanTrue then return (a, s)
  else call a b s

/-- "Get cofactors": the edges below a node of the level, or twice the edge to a deeper one. -/
def cofactors (e : Edge) (n : Node) (level : Nat) : Edge × Edge :=
  if level = n.var then (e.transfer ⟨false,n.low⟩, e.transfer n.high) else (e, e)

/-- The two halves of "Recursive computation", and what is around them. -/
def andNodes (variant : Variant Θ C) (granularity : Int) (call : Nat → Edge → Edge → State Θ C → Outcome (Edge × State Θ C))
    (a b : Edge) (prevLevel : Nat) (s : State Θ C) : Outcome (Edge × State Θ C) := do
  let na := getNode s a
  let nb := getNode s b
  let level := min na.var nb.var
  let now := cachenow granularity prevLevel level
  match if now then OpCache.get s.cache a b else none with
  | some result => return (result, s)
  | none =>
    let (aLow, aHigh) := cofactors a na level
    let (bLow, bHigh) := cofactors b nb level
    let (high, s) ← andCofactor (call level) aHigh bHigh s
    let (low, s) ← andCofactor (call level) aLow bLow s
    let (result, s) ← variant.makenode level low high s
    return (result, if now then { s with cache := OpCache.put s.cache a b result } else s)

/-- The body of both variants. References that only a collection looks at are left out. -/
def sylvanAndWith (variant : Variant Θ C) (granularity : Int) :
    (fuel : Nat) → (a b : Edge) → (prevLevel : Nat) → State Θ C → Outcome (Edge × State Θ C)
  | 0, _, _, _, _ => .running
  | fuel + 1, a, b, prevLevel, s => do
    if a = sylvanTrue then return (b, s)
    else if b = sylvanTrue then return (a, s)
    else if a = sylvanFalse then return (sylvanFalse, s)
    else if b = sylvanFalse then return (sylvanFalse, s)
    else if a = b then return (a, s)
    else if a = b.toggle then return (sylvanFalse, s)
    else
      let s ← variant.gcTest s
      let call level a b s := sylvanAndWith variant granularity fuel a b level s
      -- "Improve for caching"
      if a.index > b.index then andNodes variant granularity call b a prevLevel s
      else andNodes variant granularity call a b prevLevel s

def sylvanAndNogcAlone (granularity : Int) (fuel : Nat) (a b : Edge) (prevLevel : Nat) (s : State Θ C) :
    Outcome (Edge × State Θ C) :=
  sylvanAndWith ⟨fun s => return s,mtbddMakenodeNogc⟩ granularity fuel a b prevLevel s

/-- `sylvan_gc_test` lets a collection begin that another thread has asked for. -/
def sylvanAndAlone (gcTest gc : State Θ C → Outcome (State Θ C)) (granularity : Int) (fuel : Nat) (a b : Edge)
    (prevLevel : Nat) (s : State Θ C) : Outcome (Edge × State Θ C) :=
  sylvanAndWith ⟨gcTest,mtbddMakenode gc⟩ granularity fuel a b prevLevel s

/-- `task_type` 2 of `lace_steal_loop_ex` -/
def combineTask (and : Edge → Edge → Nat → State Θ C → Outcome (Edge × State Θ C)) (arg1 arg2 : Edge) (s : State Θ C) :
    Outcome (Edge × State Θ C) := do
  let (res, s) ← and arg1.toggle arg2.toggle 0 s
  return (res.toggle, s)

end Libdft.Sylvan
