import Libdft.Probing
import Libdft.Run
import Mathlib.Algebra.Ring.Nat

/-! `sylvan_table.c`: the unique table of the decision diagrams, and any number of threads that
look contents up in it, one access to shared memory at a time and in any order. An access of
`|=` or `&=` is two, a read and a write; a compare-and-swap is one. The callbacks of custom
contents are not used and not modelled. -/
namespace Libdft.Llmsset

abbrev Word := BitVec 64
abbrev Tid := Nat

/-- The 16 bytes of a data bucket, `d_ptr[0]` and `d_ptr[1]`. -/
abbrev Key := Word × Word

/-- `sylvan_tabhash16`, over the contents of `sylvan_tabhash_table` -/
def sylvanTabhash16 (t : Nat → Word) (a b seed : Word) : Word :=
  let byte (x : Word) (i : Nat) : Nat := ((x >>> (8 * i)) &&& 0xff).toNat
  let seed := (List.range 8).foldl (fun seed i => seed ^^^ t (256 * i + byte a i)) seed
  (List.range 8).foldl (fun seed i => seed ^^^ t (256 * (8 + i) + byte b i)) seed

/-- What is fixed while lookups run: the size, a power of two of at least one region and within
the 40 bits of an index, the threshold, the table of the hash function, and `lace_n_workers_id`. -/
structure Params where
  sizeLog : Nat
  region_le : 9 ≤ sizeLog
  index_le : sizeLog ≤ 40
  threshold : Nat
  threshold_pos : 0 < threshold
  tabhashTable : Nat → Word
  workers : Nat

/-- `192 - 2 * __builtin_clzll(table_size)`, where `llmsset_set_size` puts the threshold -/
def sizeThreshold (sizeLog : Nat) : Nat := 192 - 2 * (63 - sizeLog)

def clMask : Word := ~~~7
def clMaskR : Word := 7
def maskIndex : Word := 0x000000ffffffffff
def maskHash : Word := 0xffffff0000000000

namespace Params
variable (p : Params)

def tableSize : Nat := 2 ^ p.sizeLog
def mask : Word := BitVec.ofNat 64 (p.tableSize - 1)
/-- `table_size/(64*8)` -/
def regions : Nat := p.tableSize / 512

def hashOf (k : Key) : Word := sylvanTabhash16 p.tabhashTable k.1 k.2 14695981039346656037
def step (k : Key) : Word := ((p.hashOf k >>> 20) ||| 1) <<< 3
def hash (k : Key) : Word := p.hashOf k &&& maskHash

end Params

/-- The local variables of the probe sequence. -/
structure Cursor where
  hashRehash : Word
  idx : Word
  last : Word
  i : Nat
  deriving DecidableEq

namespace Cursor
variable (p : Params) (k : Key)

def start : Cursor := ⟨p.hashOf k,p.hashOf k &&& p.mask,p.hashOf k &&& p.mask,0⟩

/-- The next slot of the cache line. -/
def beside (c : Cursor) : Word := (c.idx &&& clMask) ||| ((c.idx + 1) &&& clMaskR)

/-- "find next idx on probe sequence" -/
def next (c : Cursor) : Cursor :=
  if c.beside = c.last then
    let h := c.hashRehash + p.step k
    ⟨h,h &&& p.mask,h &&& p.mask,c.i + 1⟩
  else { c with idx := c.beside }

/-- `++i == dbs->threshold` -/
def givesUp (c : Cursor) : Bool := c.beside = c.last ∧ c.i + 1 = p.threshold

end Cursor

def Params.probing (p : Params) : Probing Key Cursor := ⟨Cursor.start p,Cursor.next p,fun c => c.idx.toNat⟩

/-- `0x8000000000000000LL >> j` -/
def bit (j : Nat) : Word := 0x8000000000000000 >>> j

structure Dbs where
  table : Nat → Word
  data : Nat → Key
  bitmap1 : Nat → Word
  bitmap2 : Nat → Word

/-- The bit of an index in a bitmap. -/
def isMarked (bitmap : Nat → Word) (index : Nat) : Bool := bitmap (index / 64) &&& bit (index % 64) ≠ 0

/-- `v & MASK_INDEX` -/
def indexOf (v : Word) : Nat := (v &&& maskIndex).toNat

/-- The arguments and the local variables of `llmsset_lookup2`; `cidx` is 0 until a data bucket is claimed. -/
structure Lookup where
  key : Key
  cursor : Cursor
  cidx : Nat

def Lookup.slot (l : Lookup) : Nat := l.cursor.idx.toNat

/-- The next access of a thread. -/
inductive Pc where
  | idle
  /-- `v = *bucket` -/
  | read (l : Lookup)
  /-- `v = *ptr`, word `i` of region `r` of `bitmap2` -/
  | scan (l : Lookup) (r i : Nat)
  /-- `*ptr |= (0x8000000000000000LL>>j)`, the read and the write -/
  | load (l : Lookup) (r i j : Nat)
  | store (l : Lookup) (r i j : Nat) (w : Word)
  /-- `v = *ptr` of `bitmap1`, for region `r` -/
  | test (l : Lookup) (count r : Nat)
  /-- `cas(ptr, v, v|mask)` -/
  | grab (l : Lookup) (count r : Nat) (v : Word)
  | writeA (l : Lookup)
  | writeB (l : Lookup)
  /-- `cas(bucket, 0, hash | cidx)` -/
  | publish (l : Lookup)
  | reread (l : Lookup)
  /-- `d_ptr[0] == a` and `d_ptr[1] == b` -/
  | compareA (l : Lookup) (d : Nat)
  | compareB (l : Lookup) (d : Nat)
  /-- `release_data_bucket`, the read and the write -/
  | loadRelease (l : Lookup) (d : Nat)
  | storeRelease (l : Lookup) (d : Nat) (w : Word)

/-- What a lookup returned. -/
structure Return where
  key : Key
  idx : Nat
  created : Bool
  deriving DecidableEq

structure State where
  dbs : Dbs
  /-- `my_region`; nothing is -1. -/
  myRegion : Tid → Option Nat
  pc : Tid → Pc
  log : List Return

inductive Act where
  | call (t : Tid) (k : Key)
  | run (t : Tid)

namespace State
variable (p : Params)

def goto (s : State) (t : Tid) (pc : Pc) : State := { s with pc := Function.update s.pc t pc }

def finish (s : State) (t : Tid) (l : Lookup) (idx : Nat) (created : Bool) : State :=
  { s.goto t .idle with log := ⟨l.key,idx,created⟩ :: s.log }

/-- The rest of the loop's body, from "find next idx" on. -/
def moveOn (s : State) (t : Tid) (l : Lookup) : State :=
  if l.cursor.givesUp p then s.finish t l 0 false else s.goto t (.read { l with cursor := l.cursor.next p l.key })

/-- The comparison of the hashes. -/
def examine (s : State) (t : Tid) (l : Lookup) (v : Word) : State :=
  if p.hash l.key = v &&& maskHash then s.goto t (.compareA l (indexOf v)) else s.moveOn p t l

/-- The head of the loop that tries one region after another; `next` is `my_region + 1`. -/
def seek (s : State) (t : Tid) (l : Lookup) (count next : Nat) : State :=
  match count with
  | 0 => s.finish t l 0 false
  | count + 1 => s.goto t (.test l count (if next ≥ p.regions then 0 else next))

/-- The head of `claim_data_bucket`; a worker without a region starts at a share of its own. -/
def claim (s : State) (t : Tid) (l : Lookup) : State :=
  match s.myRegion t with
  | some r => s.goto t (.scan l r 0)
  | none => s.seek p t l p.regions (t * p.regions / p.workers)

/-- One access of a thread, and what it does on its own up to the next one. -/
def advance (s : State) (t : Tid) : State :=
  match s.pc t with
  | .idle => s
  | .read l =>
    let v := s.dbs.table l.slot
    if v = 0 then if l.cidx = 0 then s.claim p t l else s.goto t (.publish l)
    else s.examine p t l v
  | .scan l r i =>
    if i < 8 then
      let v := s.dbs.bitmap2 (8 * r + i)
      if v = BitVec.allOnes 64 then s.goto t (.scan l r (i + 1)) else s.goto t (.load l r i (~~~v).clz.toNat)
    else s.seek p t l p.regions (r + 1)
  | .load l r i j => s.goto t (.store l r i j (s.dbs.bitmap2 (8 * r + i)))
  | .store l r i j w =>
    { s with dbs.bitmap2 := Function.update s.dbs.bitmap2 (8 * r + i) (w ||| bit j) }.goto t
      (.writeA { l with cidx := (8 * r + i) * 64 + j })
  | .test l count r =>
    let v := s.dbs.bitmap1 (r / 64)
    if v &&& bit (r % 64) ≠ 0 then s.seek p t l count (r + 1) else s.goto t (.grab l count r v)
  | .grab l count r v =>
    if s.dbs.bitmap1 (r / 64) = v then
      { s with
        dbs.bitmap1 := Function.update s.dbs.bitmap1 (r / 64) (v ||| bit (r % 64))
        myRegion := Function.update s.myRegion t (some r) }.goto t (.scan l r 0)
    else s.goto t (.test l count r)
  | .writeA l => { s with dbs.data := Function.update s.dbs.data l.cidx (l.key.1,(s.dbs.data l.cidx).2) }.goto t (.writeB l)
  | .writeB l => { s with dbs.data := Function.update s.dbs.data l.cidx ((s.dbs.data l.cidx).1,l.key.2) }.goto t (.publish l)
  | .publish l =>
    if s.dbs.table l.slot = 0 then
      { s with dbs.table := Function.update s.dbs.table l.slot (p.hash l.key ||| BitVec.ofNat 64 l.cidx) }.finish t l l.cidx true
    else s.goto t (.reread l)
  | .reread l => s.examine p t l (s.dbs.table l.slot)
  | .compareA l d => if (s.dbs.data d).1 = l.key.1 then s.goto t (.compareB l d) else s.moveOn p t l
  | .compareB l d =>
    if (s.dbs.data d).2 = l.key.2 then
      if l.cidx ≠ 0 then s.goto t (.loadRelease l d) else s.finish t l d false
    else s.moveOn p t l
  | .loadRelease l d => s.goto t (.storeRelease l d (s.dbs.bitmap2 (l.cidx / 64)))
  | .storeRelease l d w =>
    { s with dbs.bitmap2 := Function.update s.dbs.bitmap2 (l.cidx / 64) (w &&& ~~~bit (l.cidx % 64)) }.finish t l d false

end State

section Goto
variable (s : State) (t : Tid) (pc : Pc)

@[simp] theorem State.goto_self : (s.goto t pc).pc t = pc := Function.update_self ..
@[simp] theorem State.goto_dbs : (s.goto t pc).dbs = s.dbs := rfl
@[simp] theorem State.goto_myRegion : (s.goto t pc).myRegion = s.myRegion := rfl
@[simp] theorem State.goto_log : (s.goto t pc).log = s.log := rfl
theorem State.goto_other {u : Tid} (other : u ≠ t) : (s.goto t pc).pc u = s.pc u := Function.update_of_ne other ..

end Goto

inductive Step (p : Params) (s : State) : Act → State → Prop where
  | call : s.pc t = .idle → Step p s (.call t k) (s.goto t (.read ⟨k,.start p k,0⟩))
  | run : s.pc t ≠ .idle → Step p s (.run t) (s.advance p t)

/-! Runs by a given schedule. -/

def Pc.isIdle : Pc → Bool
  | .idle => true
  | _ => false

namespace State
variable (p : Params)

def enabled (s : State) : Act → Bool
  | .call t _ => (s.pc t).isIdle
  | .run t => !(s.pc t).isIdle

def perform (s : State) : Act → State
  | .call t k => s.goto t (.read ⟨k,.start p k,0⟩)
  | .run t => s.advance p t

end State

theorem Pc.isIdle_iff {pc : Pc} : pc.isIdle = true ↔ pc = .idle := by cases pc <;> simp [isIdle]

theorem step_perform (p : Params) (s : State) (a : Act) (enabled : s.enabled a = true) : Step p s a (s.perform p a) := by
  cases a with
  | call t k => exact .call (Pc.isIdle_iff.mp enabled)
  | run t =>
    refine .run fun idle => ?_
    simp [State.enabled,idle,Pc.isIdle] at enabled

end Libdft.Llmsset
