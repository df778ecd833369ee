import Libdft.Run
import Mathlib.Algebra.Ring.Nat
import Mathlib.Logic.Function.Basic

/-! `sylvan_cache.c`: the operation cache, and any number of threads that get and put, one access to
shared memory at a time and in any order. A status word says whether its bucket is locked, and
counts the puts. Entries of two buckets, which nothing makes, are not modelled. -/
namespace Libdft.OperationCache

abbrev Word := BitVec 64
abbrev Status := BitVec 32
abbrev Tid := Nat

@[ext] structure Key where
  a : Word
  b : Word
  c : Word
  deriving DecidableEq

/-- `struct cache_entry` -/
structure Entry extends Key where
  res : Word
  deriving DecidableEq

/-- `cache_hash` -/
def cacheHash (k : Key) : Word :=
  let prime : Word := 1099511628211
  let hash : Word := 14695981039346656037
  let hash := hash ^^^ (k.a >>> 32)
  let hash := (hash ^^^ k.a) * prime
  let hash := (hash ^^^ k.b) * prime
  (hash ^^^ k.c) * prime

def lockBit : Status := 0x80000000
/-- Locked, or part of an entry of two buckets. -/
def busyBits : Status := 0xc0000000
def hashBits : Status := 0x3fff0000
def tagBits : Status := 0x0000ffff

/-- `(hash>>32) & 0x3fff0000` -/
def hashMask (k : Key) : Status := (cacheHash k >>> 32).setWidth 32 &&& hashBits

/-- `((s+1) & 0x0000ffff) | hash_mask` -/
def nextStatus (s : Status) (k : Key) : Status := ((s + 1) &&& tagBits) ||| hashMask k

def isLocked (s : Status) : Bool := s &&& lockBit ≠ 0

/-- What makes a get give up at once: a locked bucket, or another hash. -/
def refuses (s : Status) (k : Key) : Bool := s &&& busyBits ≠ 0 ∨ (s ^^^ (cacheHash k >>> 32).setWidth 32) &&& hashBits ≠ 0

/-- The local variables of `cache_get`; `since` is history: how often its bucket had been claimed
when it read the status. -/
structure Get where
  key : Key
  s : Status
  since : Nat

/-- The next access of a thread. -/
inductive Pc where
  | idle
  /-- `s = *s_bucket` of a get -/
  | look (k : Key)
  | matchA (g : Get)
  | matchB (g : Get)
  | matchC (g : Get)
  /-- `*res = bucket->res` -/
  | copy (g : Get)
  /-- `*s_bucket == s` -/
  | check (g : Get) (res : Word)
  /-- `s = *s_bucket` of a put -/
  | enter (e : Entry)
  /-- `cas(s_bucket, s, new_s | 0x80000000)` -/
  | claim (e : Entry) (s : Status)
  | writeA (e : Entry) (newS : Status)
  | writeB (e : Entry) (newS : Status)
  | writeC (e : Entry) (newS : Status)
  | writeRes (e : Entry) (newS : Status)
  /-- `*s_bucket = new_s` -/
  | unlock (e : Entry) (newS : Status)

/-- What a get returned; `turns` is how often the bucket was claimed while it ran. -/
structure Return where
  key : Key
  result : Option Word
  turns : Nat
  deriving DecidableEq

/-- `claims` and `stored` are history: how often each bucket was claimed, and the entries of the
puts that have been completed, from the last one on. -/
structure State where
  status : Nat → Status
  table : Nat → Entry
  pc : Tid → Pc
  log : List Return
  claims : Nat → Nat
  stored : Nat → List Entry

inductive Act where
  | get (t : Tid) (k : Key)
  | put (t : Tid) (e : Entry)
  | run (t : Tid)

/-- The bucket of a key; `mask` is `cache_mask`. -/
def bucket (mask : Word) (k : Key) : Nat := (cacheHash k &&& mask).toNat

namespace State
variable (mask : Word)

def goto (s : State) (t : Tid) (pc : Pc) : State := { s with pc := Function.update s.pc t pc }

def leave (s : State) (t : Tid) (k : Key) (result : Option Word) (turns : Nat) : State :=
  { s.goto t .idle with log := ⟨k,result,turns⟩ :: s.log }

def setTable (s : State) (q : Nat) (e : Entry) : State := { s with table := Function.update s.table q e }

/-- How often the bucket has been claimed since a get read its status. -/
def turns (s : State) (g : Get) : Nat := s.claims (bucket mask g.key) - g.since

/-- One comparison of a part of the key. -/
def compare (s : State) (t : Tid) (g : Get) (same : Bool) (next : Pc) : State :=
  if same then s.goto t next else s.leave t g.key none (s.turns mask g)

/-- One access of a thread, and what it does on its own up to the next one. -/
def advance (s : State) (t : Tid) : State :=
  match s.pc t with
  | .idle => s
  | .look k =>
    let q := bucket mask k
    if refuses (s.status q) k then s.leave t k none 0 else s.goto t (.matchA ⟨k,s.status q,s.claims q⟩)
  | .matchA g => s.compare mask t g ((s.table (bucket mask g.key)).a = g.key.a) (.matchB g)
  | .matchB g => s.compare mask t g ((s.table (bucket mask g.key)).b = g.key.b) (.matchC g)
  | .matchC g => s.compare mask t g ((s.table (bucket mask g.key)).c = g.key.c) (.copy g)
  | .copy g => s.goto t (.check g (s.table (bucket mask g.key)).res)
  | .check g res => s.leave t g.key (if s.status (bucket mask g.key) = g.s then some res else none) (s.turns mask g)
  | .enter e =>
    let st := s.status (bucket mask e.toKey)
    if isLocked st then s.goto t .idle else s.goto t (.claim e st)
  | .claim e st =>
    let q := bucket mask e.toKey
    if s.status q = st then
      { s with
        status := Function.update s.status q (nextStatus st e.toKey ||| lockBit)
        claims := Function.update s.claims q (s.claims q + 1) }.goto t (.writeA e (nextStatus st e.toKey))
    else s.goto t .idle
  | .writeA e newS => (s.setTable (bucket mask e.toKey) { s.table (bucket mask e.toKey) with a := e.a }).goto t (.writeB e newS)
  | .writeB e newS => (s.setTable (bucket mask e.toKey) { s.table (bucket mask e.toKey) with b := e.b }).goto t (.writeC e newS)
  | .writeC e newS => (s.setTable (bucket mask e.toKey) { s.table (bucket mask e.toKey) with c := e.c }).goto t (.writeRes e newS)
  | .writeRes e newS =>
    (s.setTable (bucket mask e.toKey) { s.table (bucket mask e.toKey) with res := e.res }).goto t (.unlock e newS)
  | .unlock e newS =>
    let q := bucket mask e.toKey
    { s with
      status := Function.update s.status q newS
      stored := Function.update s.stored q (e :: s.stored q) }.goto t .idle

end State

inductive Step (mask : Word) (s : State) : Act → State → Prop where
  | get : s.pc t = .idle → Step mask s (.get t k) (s.goto t (.look k))
  | put : s.pc t = .idle → Step mask s (.put t e) (s.goto t (.enter e))
  | run : s.pc t ≠ .idle → Step mask s (.run t) (s.advance mask t)

/-! Status words. -/

/-- The count of puts in a status word. -/
def tag (s : Status) : Nat := (s &&& tagBits).toNat

theorem tag_eq (s : Status) : tag s = s.toNat % 2 ^ 16 := by
  rw [tag,BitVec.toNat_and]
  exact Nat.and_two_pow_sub_one_eq_mod s.toNat 16

theorem tag_or_lock (s : Status) : tag (s ||| lockBit) = tag s := by
  have apart : lockBit &&& tagBits = 0 := by decide
  rw [tag,tag,BitVec.and_or_distrib_right,apart]
  simp

theorem tag_succ (s : Status) : tag (s + 1) = (tag s + 1) % 2 ^ 16 := by
  have one : (1 : Status).toNat = 1 := rfl
  rw [tag_eq,tag_eq,BitVec.toNat_add,one]
  omega

theorem tag_nextStatus (s : Status) (k : Key) : tag (nextStatus s k) = (tag s + 1) % 2 ^ 16 := by
  have apart : hashBits &&& tagBits = 0 := by decide
  have low : nextStatus s k &&& tagBits = (s + 1) &&& tagBits := by
    rw [nextStatus,hashMask,BitVec.and_or_distrib_right,BitVec.and_assoc,BitVec.and_assoc,apart,BitVec.and_self]
    simp
  rw [← tag_succ,tag,tag,low]

theorem isLocked_or (s : Status) : isLocked (s ||| lockBit) = true := by
  rw [isLocked,decide_eq_true_iff,BitVec.and_or_distrib_right,BitVec.and_self]
  intro zero
  have bit := congrArg (BitVec.getLsbD · 31) zero
  simp [lockBit] at bit

theorem isLocked_nextStatus (s : Status) (k : Key) : isLocked (nextStatus s k) = false := by
  have apart : tagBits &&& lockBit = 0 := by decide
  have apart' : hashBits &&& lockBit = 0 := by decide
  rw [isLocked,decide_eq_false_iff_not,not_not,nextStatus,hashMask,BitVec.and_or_distrib_right,BitVec.and_assoc,BitVec.and_assoc,
    apart,apart']
  simp

/-- A get that goes on has read the status of an unlocked bucket. -/
theorem isLocked_of_not_refuses {s : Status} {k : Key} (goesOn : refuses s k = false) : isLocked s = false := by
  rw [refuses,decide_eq_false_iff_not,not_or,not_not] at goesOn
  have part : busyBits &&& lockBit = lockBit := by decide
  rw [isLocked,decide_eq_false_iff_not,not_not,← part,← BitVec.and_assoc,goesOn.1]
  simp

section Goto
variable (s : State) (t : Tid) (pc : Pc)

@[simp] theorem State.goto_self : (s.goto t pc).pc t = pc := Function.update_self ..
@[simp] theorem State.goto_status : (s.goto t pc).status = s.status := rfl
@[simp] theorem State.goto_table : (s.goto t pc).table = s.table := rfl
@[simp] theorem State.goto_claims : (s.goto t pc).claims = s.claims := rfl
@[simp] theorem State.goto_stored : (s.goto t pc).stored = s.stored := rfl
@[simp] theorem State.goto_log : (s.goto t pc).log = s.log := rfl
theorem State.goto_other {u : Tid} (other : u ≠ t) : (s.goto t pc).pc u = s.pc u := Function.update_of_ne other ..

end Goto

def Pc.isIdle : Pc → Bool
  | .idle => true
  | _ => false

namespace State
variable (mask : Word)

def enabled (s : State) : Act → Bool
  | .get t _ | .put t _ => (s.pc t).isIdle
  | .run t => !(s.pc t).isIdle

def perform (s : State) : Act → State
  | .get t k => s.goto t (.look k)
  | .put t e => s.goto t (.enter e)
  | .run t => s.advance mask t

end State

theorem Pc.isIdle_iff {pc : Pc} : pc.isIdle = true ↔ pc = .idle := by cases pc <;> simp [isIdle]

theorem step_perform (mask : Word) (s : State) (a : Act) (enabled : s.enabled a = true) : Step mask s a (s.perform mask a) := by
  cases a with
  | get t k => exact .get (Pc.isIdle_iff.mp enabled)
  | put t e => exact .put (Pc.isIdle_iff.mp enabled)
  | run t =>
    refine .run fun idle => ?_
    simp [State.enabled,idle,Pc.isIdle] at enabled

/-- Before the first put. -/
def State.fresh : State := ⟨fun _ => 0,fun _ => ⟨⟨0,0,0⟩,0⟩,fun _ => .idle,[],fun _ => 0,fun _ => []⟩

/-- No get takes a bucket that was never written for an entry. -/
theorem refuses_blank : refuses 0 ⟨0,0,0⟩ = true := by decide

end Libdft.OperationCache
