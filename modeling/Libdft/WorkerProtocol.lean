import Libdft.Run
import Mathlib.Algebra.Ring.Nat

/-! An application thread and its tag worker. They share one slot of `ssa_p` and the flag that ends
the worker; every access to either is one step, in any order. The thread asks for what it likes,
and the worker may find any result. -/
namespace Libdft.Worker

/-- What a request asks for: `task_type` 1 and 2. -/
inductive Kind where
  | cube
  | combine
  deriving DecidableEq, Repr

def Kind.code : Kind → BitVec 64
  | .cube => 1
  | .combine => 2

structure Request where
  kind : Kind
  arg1 : BitVec 64
  arg2 : BitVec 64
  deriving DecidableEq, Repr

/-- `SSA_Task`; `quit` is a pointer to the thread's flag. -/
structure SsaTask where
  taskType : BitVec 64
  arg1 : BitVec 64
  arg2 : BitVec 64
  res : BitVec 64

/-- The next access of the thread. -/
inductive ThreadPc where
  | idle
  | setArg2 (r : Request)
  | setType (r : Request)
  | wait
  | result
  | waitQuit
  | finished

/-- The next access of the worker in `lace_steal_loop_ex`. -/
inductive WorkerPc where
  | testQuit
  | testCube
  | testCombine
  | loadArg1 (kind : Kind)
  | loadArg2 (kind : Kind) (arg1 : BitVec 64)
  | execute (kind : Kind) (arg1 arg2 : BitVec 64)
  | clearType (kind : Kind)
  | exiting
  | exited

structure State where
  slot : SsaTask
  quit : Bool
  thread : ThreadPc
  worker : WorkerPc
  /-- Requests whose `task_type` has been written. -/
  posted : List Request
  /-- What the worker has executed, with the results. -/
  executed : List (Request × BitVec 64)
  /-- Results that the thread has read, each with the number of requests posted until then. -/
  answers : List (Nat × BitVec 64)

/-- `lace_spawn_worker` has handed the slot out as it was; `ssa_thread_start` has cleared the flag. -/
def State.start (slot : SsaTask) : State := ⟨slot,false,.idle,.testQuit,[],[],[]⟩

def WorkerPc.afterTask : Kind → WorkerPc
  | .cube => .testCombine
  | .combine => .testQuit

inductive Act where
  | thread
  | worker
  deriving DecidableEq, Repr

inductive Step (s : State) : Act → State → Prop where
  /-- `ssa_tag_alloc` or `ssa_tag_combine` begins with the arguments. -/
  | setArg1 : s.thread = .idle →
      Step s .thread { s with slot := { s.slot with arg1 := r.arg1 }, thread := .setArg2 r }
  | setArg2 : s.thread = .setArg2 r →
      Step s .thread { s with slot := { s.slot with arg2 := r.arg2 }, thread := .setType r }
  | post : s.thread = .setType r →
      Step s .thread { s with slot := { s.slot with taskType := r.kind.code }, thread := .wait, posted := s.posted ++ [r] }
  | spin : s.thread = .wait → s.slot.taskType ≠ 0 → Step s .thread s
  | seen : s.thread = .wait → s.slot.taskType = 0 → Step s .thread { s with thread := .result }
  | read : s.thread = .result → Step s .thread { s with answers := s.answers ++ [(s.posted.length,s.slot.res)] }
  /-- The result is taken out, or left where it is. -/
  | clear : s.thread = .result → Step s .thread { s with slot := { s.slot with res := 0 }, thread := .idle }
  | leave : s.thread = .result → Step s .thread { s with thread := .idle }
  /-- `ssa_thread_fini` -/
  | raise : s.thread = .idle → Step s .thread { s with quit := true, thread := .waitQuit }
  | spinQuit : s.thread = .waitQuit → s.quit = true → Step s .thread s
  | finish : s.thread = .waitQuit → s.quit = false → Step s .thread { s with thread := .finished }
  | goOn : s.worker = .testQuit → s.quit = false → Step s .worker { s with worker := .testCube }
  | exits : s.worker = .testQuit → s.quit = true → Step s .worker { s with worker := .exiting }
  | isCube : s.worker = .testCube → s.slot.taskType = Kind.cube.code → Step s .worker { s with worker := .loadArg1 .cube }
  | notCube : s.worker = .testCube → s.slot.taskType ≠ Kind.cube.code → Step s .worker { s with worker := .testCombine }
  | isCombine : s.worker = .testCombine → s.slot.taskType = Kind.combine.code →
      Step s .worker { s with worker := .loadArg1 .combine }
  | notCombine : s.worker = .testCombine → s.slot.taskType ≠ Kind.combine.code → Step s .worker { s with worker := .testQuit }
  | loadArg1 : s.worker = .loadArg1 kind → Step s .worker { s with worker := .loadArg2 kind s.slot.arg1 }
  | loadArg2 : s.worker = .loadArg2 kind arg1 → Step s .worker { s with worker := .execute kind arg1 s.slot.arg2 }
  | execute : s.worker = .execute kind arg1 arg2 →
      Step s .worker { s with
        slot := { s.slot with res }
        worker := .clearType kind
        executed := s.executed ++ [(⟨kind,arg1,arg2⟩,res)] }
  | clearType : s.worker = .clearType kind →
      Step s .worker { s with slot := { s.slot with taskType := 0 }, worker := .afterTask kind }
  | acknowledge : s.worker = .exiting → Step s .worker { s with quit := false, worker := .exited }

/-- The requests that the worker has executed. -/
def State.done (s : State) : List Request := s.executed.map Prod.fst

/-- Each request is executed once, in order and with its arguments: all of them are, while the
thread does not wait and when the worker has acknowledged; and each result read is that of
the request posted last. -/
structure Right (s : State) : Prop where
  executed : s.done <+: s.posted
  settled : s.thread ≠ .wait → s.done = s.posted
  acknowledged : s.worker = .exited → s.done = s.posted
  answers : ∀ n v, (n,v) ∈ s.answers → ∃ earlier r later, s.posted = earlier ++ r :: later ∧ n = earlier.length + 1 ∧
    s.executed[earlier.length]? = some (r,v)

end Libdft.Worker
