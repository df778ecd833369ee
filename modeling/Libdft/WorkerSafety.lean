import Libdft.WorkerProtocol

/-! What every interleaving of the thread and its worker keeps, when the slot that is handed out
asks for nothing; and what goes wrong when it does. -/
namespace Libdft.Worker

/-- The worker looks for a request, and its loop goes on. -/
def WorkerPc.Looks : WorkerPc → Prop
  | testQuit | testCube | testCombine => True
  | _ => False

/-- The worker looks for the request, or is at it. -/
def WorkerPc.Serves (r : Request) : WorkerPc → Prop
  | testQuit | testCube | testCombine => True
  | loadArg1 kind => kind = r.kind
  | loadArg2 kind arg1 => kind = r.kind ∧ arg1 = r.arg1
  | execute kind arg1 arg2 => kind = r.kind ∧ arg1 = r.arg1 ∧ arg2 = r.arg2
  | _ => False

/-- The worker is at a request that it has not executed. -/
def WorkerPc.Busy : WorkerPc → Prop
  | loadArg1 _ | loadArg2 _ _ | execute _ _ _ => True
  | _ => False

/-- The thread has not posted what it is writing. -/
def ThreadPc.Between : ThreadPc → Prop
  | idle | setArg2 _ | setType _ => True
  | _ => False

/-- The slot asks for nothing. -/
def SsaTask.Quiet (slot : SsaTask) : Prop := slot.taskType ≠ Kind.cube.code ∧ slot.taskType ≠ Kind.combine.code

/-- The thread is between two requests, and has written the arguments it says. -/
def Prepares (slot : SsaTask) : ThreadPc → Prop
  | .idle => True
  | .setArg2 r => slot.arg1 = r.arg1
  | .setType r => slot.arg1 = r.arg1 ∧ slot.arg2 = r.arg2
  | _ => False

/-- One request is posted and not executed. -/
structure Asked (s : State) (r : Request) : Prop where
  waits : s.thread = .wait
  posted : s.posted = s.done ++ [r]
  type : s.slot.taskType = r.kind.code
  arg1 : s.slot.arg1 = r.arg1
  arg2 : s.slot.arg2 = r.arg2

/-- All requests are executed, and the slot has the result of the last. -/
structure Executed (s : State) (r : Request) : Prop where
  all : s.done = s.posted
  last : s.executed.getLast? = some (r,s.slot.res)

/-- Where the two parties are. -/
inductive Phase (s : State) : Prop where
  | between : Prepares s.slot s.thread → s.done = s.posted → s.slot.Quiet → s.worker.Looks → s.quit = false → Phase s
  | asked : Asked s r → s.worker.Serves r → s.quit = false → Phase s
  | executed : Executed s r → s.thread = .wait → s.slot.taskType = r.kind.code → s.worker = .clearType r.kind →
      s.quit = false → Phase s
  | answered : Executed s r → s.thread = .wait ∨ s.thread = .result → s.slot.taskType = 0 → s.worker.Looks →
      s.quit = false → Phase s
  | leaving : s.thread = .waitQuit → s.done = s.posted → s.slot.Quiet → s.worker.Looks ∨ s.worker = .exiting →
      s.quit = true → Phase s
  | left : s.thread = .waitQuit ∨ s.thread = .finished → s.done = s.posted → s.worker = .exited → s.quit = false → Phase s

theorem code_ne_zero (kind : Kind) : kind.code ≠ 0 := by cases kind <;> decide

theorem code_inj {kind kind' : Kind} (same : kind.code = kind'.code) : kind = kind' := by
  cases kind <;> cases kind' <;> first | rfl | exact absurd same (by decide)

theorem SsaTask.Quiet.code_ne {slot : SsaTask} (quiet : slot.Quiet) (kind : Kind) : slot.taskType ≠ kind.code := by
  cases kind with
  | cube => exact quiet.1
  | combine => exact quiet.2

theorem quiet_of_zero {slot : SsaTask} (zero : slot.taskType = 0) : slot.Quiet :=
  ⟨fun same => code_ne_zero .cube (same.symm.trans zero),fun same => code_ne_zero .combine (same.symm.trans zero)⟩

theorem WorkerPc.Looks.serves {w : WorkerPc} (looks : w.Looks) (r : Request) : w.Serves r := by
  cases w <;> trivial

/-! What the place of one party says about the other. -/

namespace Phase
variable {s : State}

theorem of_between (phase : Phase s) (between : s.thread.Between) :
    Prepares s.slot s.thread ∧ s.done = s.posted ∧ s.slot.Quiet ∧ s.worker.Looks ∧ s.quit = false := by
  cases phase with
  | between prepares all quiet looks on => exact ⟨prepares,all,quiet,looks,on⟩
  | asked asked => exact (asked.waits ▸ between : ThreadPc.Between .wait).elim
  | executed _ waits => exact (waits ▸ between : ThreadPc.Between .wait).elim
  | answered _ here =>
    rcases here with here | here
    · exact (here ▸ between : ThreadPc.Between .wait).elim
    · exact (here ▸ between : ThreadPc.Between .result).elim
  | leaving here => exact (here ▸ between : ThreadPc.Between .waitQuit).elim
  | left here =>
    rcases here with here | here
    · exact (here ▸ between : ThreadPc.Between .waitQuit).elim
    · exact (here ▸ between : ThreadPc.Between .finished).elim

/-- Once the slot asks for nothing, a waiting thread has its answer. -/
theorem of_seen (phase : Phase s) (here : s.thread = .wait ∧ s.slot.taskType = 0 ∨ s.thread = .result) :
    ∃ r, Executed s r ∧ s.slot.taskType = 0 ∧ s.worker.Looks ∧ s.quit = false := by
  cases phase with
  | answered executed _ zero looks on => exact ⟨_,executed,zero,looks,on⟩
  | between prepares =>
    rcases here with ⟨here,_⟩ | here
    · exact (here ▸ prepares : Prepares s.slot .wait).elim
    · exact (here ▸ prepares : Prepares s.slot .result).elim
  | asked asked =>
    rcases here with ⟨_,zero⟩ | here
    · exact absurd (asked.type.symm.trans zero) (code_ne_zero _)
    · cases here.symm.trans asked.waits
  | executed _ waits type =>
    rcases here with ⟨_,zero⟩ | here
    · exact absurd (type.symm.trans zero) (code_ne_zero _)
    · cases here.symm.trans waits
  | leaving waits =>
    rcases here with ⟨here,_⟩ | here <;> cases here.symm.trans waits
  | left waits =>
    rcases here with ⟨here,_⟩ | here <;> rcases waits with waits | waits <;> cases here.symm.trans waits

/-- The worker goes on looking. -/
theorem look (phase : Phase s) (looks : s.worker.Looks) {w : WorkerPc} (looks' : w.Looks) : Phase { s with worker := w } := by
  cases phase with
  | between prepares all quiet _ on => exact .between prepares all quiet looks' on
  | asked asked _ on => exact .asked ⟨asked.waits,asked.posted,asked.type,asked.arg1,asked.arg2⟩ (looks'.serves _) on
  | executed _ _ _ here => exact (here ▸ looks : WorkerPc.Looks (.clearType _)).elim
  | answered executed here zero _ on => exact .answered ⟨executed.all,executed.last⟩ here zero looks' on
  | leaving here all quiet _ off => exact .leaving here all quiet (.inl looks') off
  | left _ _ here => exact (here ▸ looks : WorkerPc.Looks .exited).elim

/-- What the worker finds is a request. -/
theorem of_type (phase : Phase s) (looks : s.worker.Looks) (type : s.slot.taskType = kind.code) :
    ∃ r, Asked s r ∧ kind = r.kind ∧ s.quit = false := by
  cases phase with
  | asked asked _ on => exact ⟨_,asked,code_inj (type.symm.trans asked.type),on⟩
  | between _ _ quiet | leaving _ _ quiet => exact absurd type (quiet.code_ne kind)
  | answered _ _ zero => exact absurd (type.symm.trans zero) (code_ne_zero kind)
  | executed _ _ _ here => exact (here ▸ looks : WorkerPc.Looks (.clearType _)).elim
  | left _ _ here => exact (here ▸ looks : WorkerPc.Looks .exited).elim

theorem not_busy {w : WorkerPc} (looks : w.Looks) : ¬ w.Busy := by
  cases w <;> first | exact id | exact looks.elim

theorem of_busy (phase : Phase s) (busy : s.worker.Busy) : ∃ r, Asked s r ∧ s.worker.Serves r ∧ s.quit = false := by
  cases phase with
  | asked asked serves on => exact ⟨_,asked,serves,on⟩
  | between _ _ _ looks | answered _ _ _ looks => exact absurd busy (not_busy looks)
  | executed _ _ _ here => exact (here ▸ busy : WorkerPc.Busy (.clearType _)).elim
  | leaving _ _ _ here =>
    rcases here with looks | here
    · exact absurd busy (not_busy looks)
    · exact (here ▸ busy : WorkerPc.Busy .exiting).elim
  | left _ _ here => exact (here ▸ busy : WorkerPc.Busy .exited).elim

/-- The worker is past the request. -/
theorem of_clearing (phase : Phase s) (here : s.worker = .clearType kind) :
    ∃ r, Executed s r ∧ s.thread = .wait ∧ s.quit = false := by
  cases phase with
  | executed executed waits _ _ on => exact ⟨_,executed,waits,on⟩
  | asked _ serves => exact (here ▸ serves : WorkerPc.Serves _ (.clearType kind)).elim
  | between _ _ _ looks | answered _ _ _ looks => exact (here ▸ looks : WorkerPc.Looks (.clearType kind)).elim
  | leaving _ _ _ there =>
    rcases there with looks | there
    · exact (here ▸ looks : WorkerPc.Looks (.clearType kind)).elim
    · cases here.symm.trans there
  | left _ _ there => cases here.symm.trans there

/-- The flag is up only while the thread waits for the worker to go. -/
theorem of_quit (phase : Phase s) (off : s.quit = true) : s.thread = .waitQuit ∧ s.done = s.posted ∧ s.slot.Quiet := by
  cases phase with
  | leaving here all quiet _ _ => exact ⟨here,all,quiet⟩
  | between _ _ _ _ on | asked _ _ on | executed _ _ _ _ on | answered _ _ _ _ on | left _ _ _ on => cases on.symm.trans off

theorem of_waitQuit (phase : Phase s) (here : s.thread = .waitQuit) (on : s.quit = false) :
    s.done = s.posted ∧ s.worker = .exited := by
  cases phase with
  | left _ all exited _ => exact ⟨all,exited⟩
  | leaving _ _ _ _ off => cases on.symm.trans off
  | between prepares => exact (here ▸ prepares : Prepares s.slot .waitQuit).elim
  | asked asked => cases here.symm.trans asked.waits
  | executed _ waits => cases here.symm.trans waits
  | answered _ there => rcases there with there | there <;> cases here.symm.trans there

theorem of_exiting (phase : Phase s) (here : s.worker = .exiting) : s.thread = .waitQuit ∧ s.done = s.posted := by
  cases phase with
  | leaving waits all => exact ⟨waits,all⟩
  | asked _ serves => exact (here ▸ serves : WorkerPc.Serves _ .exiting).elim
  | between _ _ _ looks | answered _ _ _ looks => exact (here ▸ looks : WorkerPc.Looks .exiting).elim
  | executed _ _ _ there | left _ _ there => cases here.symm.trans there

end Phase

/-! Steps. -/

section Steps
variable {s next : State}

theorem thread_step (phase : Phase s) (step : Step s .thread next) : Phase next := by
  cases step with
  | setArg1 here =>
    obtain ⟨_,all,quiet,looks,on⟩ := phase.of_between (here ▸ trivial)
    exact .between rfl all quiet looks on
  | setArg2 here =>
    obtain ⟨prepares,all,quiet,looks,on⟩ := phase.of_between (here ▸ trivial)
    rw [here] at prepares
    exact .between ⟨prepares,rfl⟩ all quiet looks on
  | post here =>
    obtain ⟨prepares,all,_,looks,on⟩ := phase.of_between (here ▸ trivial)
    rw [here] at prepares
    exact .asked ⟨rfl,congrArg (· ++ _) all.symm,rfl,prepares.1,prepares.2⟩ (looks.serves _) on
  | spin | spinQuit => exact phase
  | seen here zero =>
    obtain ⟨r,executed,zero,looks,on⟩ := phase.of_seen (.inl ⟨here,zero⟩)
    exact .answered ⟨executed.all,executed.last⟩ (.inr rfl) zero looks on
  | read here =>
    obtain ⟨r,executed,zero,looks,on⟩ := phase.of_seen (.inr here)
    exact .answered ⟨executed.all,executed.last⟩ (.inr here) zero looks on
  | clear here | leave here =>
    obtain ⟨r,executed,zero,looks,on⟩ := phase.of_seen (.inr here)
    exact .between trivial executed.all (quiet_of_zero zero) looks on
  | raise here =>
    obtain ⟨_,all,quiet,looks,_⟩ := phase.of_between (here ▸ trivial)
    exact .leaving rfl all quiet (.inl looks) rfl
  | finish here on =>
    obtain ⟨all,exited⟩ := phase.of_waitQuit here on
    exact .left (.inr rfl) all exited on

theorem worker_step (phase : Phase s) (step : Step s .worker next) : Phase next := by
  cases step with
  | goOn here | notCube here | notCombine here => exact phase.look (here ▸ trivial) trivial
  | exits here off =>
    obtain ⟨waits,all,quiet⟩ := phase.of_quit off
    exact .leaving waits all quiet (.inr rfl) off
  | isCube here type | isCombine here type =>
    obtain ⟨r,asked,same,on⟩ := phase.of_type (here ▸ trivial) type
    exact .asked ⟨asked.waits,asked.posted,asked.type,asked.arg1,asked.arg2⟩ same on
  | loadArg1 here =>
    obtain ⟨r,asked,serves,on⟩ := phase.of_busy (here ▸ trivial)
    rw [here] at serves
    exact .asked ⟨asked.waits,asked.posted,asked.type,asked.arg1,asked.arg2⟩ ⟨serves,asked.arg1⟩ on
  | loadArg2 here =>
    obtain ⟨r,asked,serves,on⟩ := phase.of_busy (here ▸ trivial)
    rw [here] at serves
    exact .asked ⟨asked.waits,asked.posted,asked.type,asked.arg1,asked.arg2⟩ ⟨serves.1,serves.2,asked.arg2⟩ on
  | execute here =>
    obtain ⟨r,asked,serves,on⟩ := phase.of_busy (here ▸ trivial)
    rw [here] at serves
    obtain ⟨rfl,rfl,rfl⟩ := serves
    refine .executed ⟨?_,List.getLast?_concat⟩ asked.waits asked.type rfl on
    simp [State.done,asked.posted]
  | @clearType kind here =>
    obtain ⟨r,executed,waits,on⟩ := phase.of_clearing here
    exact .answered ⟨executed.all,executed.last⟩ (.inl waits) rfl (by cases kind <;> trivial) on
  | acknowledge here =>
    obtain ⟨waits,all⟩ := phase.of_exiting here
    exact .left (.inl waits) all rfl rfl

theorem phase_step (phase : Phase s) (step : Step s act next) : Phase next := by
  cases act with
  | thread => exact thread_step phase step
  | worker => exact worker_step phase step

/-- The result of request number `n` was `v`. -/
def Answer (s : State) (n : Nat) (v : BitVec 64) : Prop :=
  ∃ earlier r later, s.posted = earlier ++ r :: later ∧ n = earlier.length + 1 ∧ s.executed[earlier.length]? = some (r,v)

/-- Requests and executions are only added to. -/
theorem step_grows (step : Step s act next) :
    (∃ more, next.posted = s.posted ++ more) ∧ ∃ more, next.executed = s.executed ++ more := by
  cases step with
  | post => exact ⟨⟨_,rfl⟩,[],(List.append_nil _).symm⟩
  | execute => exact ⟨⟨[],(List.append_nil _).symm⟩,_,rfl⟩
  | setArg1 | setArg2 | spin | seen | read | clear | leave | raise | spinQuit | finish | goOn | exits | isCube | notCube
  | isCombine | notCombine | loadArg1 | loadArg2 | clearType | acknowledge =>
    exact ⟨⟨[],(List.append_nil _).symm⟩,[],(List.append_nil _).symm⟩

theorem Answer.step (answer : Answer s n v) (step : Step s act next) : Answer next n v := by
  obtain ⟨earlier,r,later,posted,number,result⟩ := answer
  obtain ⟨⟨more,posted'⟩,more',executed⟩ := step_grows step
  refine ⟨earlier,r,later ++ more,by simp [posted',posted],number,?_⟩
  rw [executed,List.getElem?_append_left (List.getElem?_eq_some_iff.mp result).1,result]

/-- The slot's result is that of the request posted last. -/
theorem Executed.answer {r : Request} (executed : Executed s r) : Answer s s.posted.length s.slot.res := by
  obtain ⟨earlier,split⟩ := List.getLast?_eq_some_iff.mp executed.last
  have posted : s.posted = earlier.map Prod.fst ++ [r] := by
    rw [← executed.all,State.done,split,List.map_append]
    rfl
  refine ⟨earlier.map Prod.fst,r,[],posted,by simp [posted],?_⟩
  simp [split]

structure Invariant (s : State) : Prop where
  phase : Phase s
  answers : ∀ n v, (n,v) ∈ s.answers → Answer s n v

theorem Invariant.start {slot : SsaTask} (quiet : slot.Quiet) : Invariant (.start slot) :=
  ⟨.between trivial rfl quiet trivial rfl,nofun⟩

theorem Invariant.step (inv : Invariant s) (step : Step s act next) : Invariant next := by
  refine ⟨phase_step inv.phase step,fun n v member => ?_⟩
  have old (member : (n,v) ∈ s.answers) : Answer next n v := (inv.answers n v member).step step
  cases step with
  | read here =>
    rcases List.mem_append.mp member with earlier | now
    · exact old earlier
    · obtain ⟨rfl,rfl⟩ := Prod.mk.inj (List.mem_singleton.mp now)
      obtain ⟨r,executed,_⟩ := inv.phase.of_seen (.inr here)
      exact executed.answer
  | post | execute | setArg1 | setArg2 | spin | seen | clear | leave | raise | spinQuit | finish | goOn | exits | isCube
  | notCube | isCombine | notCombine | loadArg1 | loadArg2 | clearType | acknowledge => exact old member

theorem Invariant.right (inv : Invariant s) : Right s where
  executed := by
    cases inv.phase with
    | asked asked => exact ⟨_,asked.posted.symm⟩
    | between _ all | leaving _ all | left _ all => exact all ▸ List.prefix_rfl
    | executed executed | answered executed => exact executed.all ▸ List.prefix_rfl
  settled busy := by
    cases inv.phase with
    | asked asked => exact absurd asked.waits busy
    | between _ all | leaving _ all | left _ all => exact all
    | executed executed | answered executed => exact executed.all
  acknowledged here := by
    cases inv.phase with
    | asked _ serves => exact (here ▸ serves : WorkerPc.Serves _ .exited).elim
    | between _ all | leaving _ all | left _ all => exact all
    | executed executed | answered executed => exact executed.all
  answers := inv.answers

end Steps

/-- A slot that asks for something from the start is served. -/
theorem spurious_run (slot : SsaTask) (kind : Kind) (type : slot.taskType = kind.code) :
    ∃ trace s, Run Step (.start slot) trace s ∧ s.posted = [] ∧ s.done ≠ [] := by
  have served (t : State) (here : t.worker = .loadArg1 kind) (posted : t.posted = []) :
      ∃ s, Run Step t [.worker,.worker,.worker] s ∧ s.posted = [] ∧ s.done ≠ [] :=
    ⟨_,.cons (.loadArg1 here) (.cons (.loadArg2 rfl) (.cons (@Step.execute _ kind _ _ 0 rfl) .nil)),posted,by simp [State.done]⟩
  cases kind with
  | cube =>
    obtain ⟨s,run,spurious⟩ := served { State.start slot with worker := .loadArg1 .cube } rfl rfl
    exact ⟨_,s,.cons (.goOn rfl rfl) (.cons (.isCube rfl type) run),spurious⟩
  | combine =>
    obtain ⟨s,run,spurious⟩ := served { State.start slot with worker := .loadArg1 .combine } rfl rfl
    have notCube : slot.taskType ≠ Kind.cube.code := fun same => by cases code_inj (same.symm.trans type)
    exact ⟨_,s,.cons (.goOn rfl rfl) (.cons (.notCube rfl notCube) (.cons (.isCombine rfl type) run)),spurious⟩

/-- Every interleaving is right if and only if the slot asks for nothing when it is handed out. -/
theorem right_iff (slot : SsaTask) :
    (∀ trace s, Run Step (.start slot) trace s → Right s) ↔ slot.taskType ≠ 1 ∧ slot.taskType ≠ 2 := by
  constructor
  · intro always
    have quiet (kind : Kind) : slot.taskType ≠ kind.code := fun type => by
      obtain ⟨trace,s,run,posted,done⟩ := spurious_run slot kind type
      exact done (List.prefix_nil.mp (posted ▸ (always trace s run).executed))
    exact ⟨quiet .cube,quiet .combine⟩
  · intro quiet trace s run
    exact (run.invariant Invariant (fun _ _ _ inv step => inv.step step) (.start quiet)).right

/-- A slot that asks for a cube: the request posted while the worker is at it is lost, and the
thread takes what the worker found for its own result. -/
theorem request_lost : ¬ ∀ (slot : SsaTask) (trace : List Act) (s : State), Run Step (.start slot) trace s → Right s := by
  intro claim
  obtain ⟨trace,s,run,result,posted,done⟩ : ∃ trace s, Run Step (.start ⟨1,0,0,0⟩) trace s ∧ s.thread = .result ∧
      s.posted = [⟨.combine,5,6⟩] ∧ s.done = [⟨.cube,0,0⟩] :=
    ⟨_,_,.cons (.goOn rfl rfl) (.cons (.isCube rfl rfl) (.cons (.loadArg1 rfl) (.cons (.loadArg2 rfl)
      (.cons (@Step.setArg1 _ ⟨.combine,5,6⟩ rfl) (.cons (.setArg2 rfl) (.cons (.post rfl)
        (.cons (@Step.execute _ .cube 0 0 7 rfl) (.cons (.clearType rfl) (.cons (.seen rfl rfl) .nil))))))))),rfl,rfl,rfl⟩
  have settled := (claim _ _ _ run).settled (by rw [result]; nofun)
  rw [posted,done] at settled
  exact absurd settled (by decide)

end Libdft.Worker
