import Libdft.SyscallHook
import Libdft.Run

/-! Descriptor tracking against the kernel's descriptor table. Every open descriptor
carries how it came about; standard input is descriptor 0, whatever it refers to. A
call that fails returns `-errno` and leaves the table as it was, but for a `close`,
which may have given its descriptor up all the same. -/
namespace Libdft.Descriptors

open Syscall SyscallHook

/-- How a descriptor came to refer to its description. -/
inductive Lineage where
  | inherited
  | opened (path : List Char)
  | duplicate (source : Nat) (of : Lineage)

/-- Opened from the input file, or a duplicate of such a description or of standard input. -/
def Lineage.Tainted : Lineage → Prop
  | .inherited => False
  | .opened path => fuzzingInputFile <:+: path
  | .duplicate source of => source = 0 ∨ of.Tainted

abbrev Table := Nat → Option Lineage

/-- `fd` is the descriptor that the low half of a register names. -/
def Names (arg : BitVec 64) (fd : Nat) : Prop := asInt arg = fd

def Failed (ret : BitVec 64) : Prop := -4095 ≤ ret.toInt ∧ ret.toInt < 0

/-- A successful call returns a descriptor, which is an `int`. -/
def Result (ret : BitVec 64) (fd : Nat) : Prop := ret.toInt = fd ∧ fd < 2 ^ 31

variable {T : Type}

structure Call (T : Type) where
  call : FileCall
  ctx : SyscallCtx
  env : Env T
  /-- Whether a `close` that fails gives its descriptor up. -/
  releases : Bool

/-- The path given to `open` or `openat`, if it can be read. -/
def Call.path (c : Call T) : Option (List Char) :=
  c.env.cstring (if c.call = .openat then c.ctx.arg 1 else c.ctx.arg 0)

/-- What a call does to the table. -/
inductive Effect (table : Table) (c : Call T) : Table → Prop where
  | failed : Failed c.ctx.ret → c.call ∈ [.open,.openat,.dup,.dup2,.dup3,.close] → ¬ (c.call = .close ∧ c.releases = true) →
      Effect table c table
  | released : Failed c.ctx.ret → c.call = .close → c.releases = true → Names (c.ctx.arg 0) fd → table fd = some lineage →
      Effect table c (Function.update table fd none)
  | opened : c.path = some path → Result c.ctx.ret fd → table fd = none → c.call ∈ [.open,.openat] →
      Effect table c (Function.update table fd (some (.opened path)))
  | dup : c.call = .dup → Names (c.ctx.arg 0) old → table old = some lineage → Result c.ctx.ret fd → table fd = none →
      Effect table c (Function.update table fd (some (.duplicate old lineage)))
  /-- The target is closed first if it is open. -/
  | dup2 : c.call ∈ [.dup2,.dup3] → Names (c.ctx.arg 0) old → Names (c.ctx.arg 1) target → table old = some lineage →
      Result c.ctx.ret target → old ≠ target →
      Effect table c (Function.update table target (some (.duplicate old lineage)))
  /-- `dup2` of a descriptor onto itself; `dup3` fails then. -/
  | same : c.call = .dup2 → Names (c.ctx.arg 0) old → Names (c.ctx.arg 1) old → table old = some lineage → Result c.ctx.ret old →
      Effect table c table
  | close : c.call = .close → Names (c.ctx.arg 0) fd → table fd = some lineage → c.ctx.ret = 0 →
      Effect table c (Function.update table fd none)

structure State (T : Type) where
  table : Table
  taint : Taint T

/-- The kernel acts, then the post hook runs. -/
inductive Step [TagTraits T] (s : State T) (c : Call T) : State T → Prop where
  | mk : Effect s.table c table →
      Returns (fun fuel => c.call.post c.env fuel c.ctx s.taint) taint → Step s c ⟨table,taint⟩

/-- Descriptors may be inherited, but none is tracked. -/
def State.Initial (s : State T) : Prop :=
  s.taint.fuzzingFdSet = ∅ ∧ ∀ fd lineage, s.table fd = some lineage → lineage = .inherited

/-- The set follows the table. -/
def State.Follows (s : State T) : Prop :=
  ∀ fd : Nat, 0 < fd → ((fd : Int) ∈ s.taint.fuzzingFdSet ↔ ∃ lineage, s.table fd = some lineage ∧ lineage.Tainted)

structure Keeps (s : State T) (c : Call T) : Prop where
  /-- No untracked description goes over a tracked one. -/
  target : c.call ∈ [.dup2,.dup3] → 0 ≤ asInt c.ctx.ret →
    isFuzzingFd s.taint (asInt (c.ctx.arg 0)) ∨ asInt (c.ctx.arg 1) ∉ s.taint.fuzzingFdSet
  /-- No tracked descriptor is given up by a `close` that fails. -/
  failed : c.call = .close → Failed c.ctx.ret → c.releases = true → asInt (c.ctx.arg 0) ∉ s.taint.fuzzingFdSet
  /-- The hook of `openat` can read the path, whether the call has failed or not. -/
  readable : c.call = .openat → c.path ≠ none

theorem asInt_result {ret : BitVec 64} {fd : Nat} (result : Result ret fd) : asInt ret = fd := by
  obtain ⟨value,small⟩ := result
  unfold asInt
  rw [BitVec.toInt_eq_toNat_cond,BitVec.toNat_setWidth]
  rw [BitVec.toInt_eq_toNat_cond] at value
  have := ret.isLt
  split at value <;> split <;> omega

theorem asInt_failed {ret : BitVec 64} (failed : Failed ret) : asInt ret < 0 := by
  obtain ⟨low,high⟩ := failed
  unfold asInt
  rw [BitVec.toInt_eq_toNat_cond,BitVec.toNat_setWidth]
  rw [BitVec.toInt_eq_toNat_cond] at low high
  have := ret.isLt
  split at low <;> split <;> omega

theorem mem_addFuzzingFd {s : Taint T} {x fd : Int} :
    fd ∈ (addFuzzingFd s x).fuzzingFdSet ↔ (0 < x ∧ fd = x) ∨ fd ∈ s.fuzzingFdSet := by
  unfold addFuzzingFd
  split
  next positive => simp [positive]
  next negative => simp [negative]

/-- No descriptor other than the target changes its status. -/
theorem addFuzzingFd_other {s : Taint T} {target fd : Nat} (apart : fd ≠ target) :
    (fd : Int) ∈ (addFuzzingFd s target).fuzzingFdSet ↔ (fd : Int) ∈ s.fuzzingFdSet := by
  rw [mem_addFuzzingFd]
  exact or_iff_right fun h => apart (Int.ofNat.inj h.2)

theorem addFuzzingFd_self {s : Taint T} {target : Nat} (positive : 0 < target) :
    (target : Int) ∈ (addFuzzingFd s target).fuzzingFdSet := by
  rw [mem_addFuzzingFd]
  exact .inl ⟨by omega,rfl⟩

/-- Adding a tracked descriptor again changes nothing. -/
theorem addFuzzingFd_tracked {s : Taint T} {fd : Int} (tracked : isFuzzingFd s fd) : addFuzzingFd s fd = s := by
  unfold addFuzzingFd
  split
  next positive =>
    have member : fd ∈ s.fuzzingFdSet := (of_decide_eq_true tracked).resolve_left (by unfold stdinFileno; omega)
    rw [Finset.insert_eq_of_mem member]
  next => rfl

theorem initial_follows {s : State T} (initial : s.Initial) : s.Follows := by
  intro fd _
  rw [initial.1]
  refine iff_of_false (Finset.notMem_empty _) ?_
  rintro ⟨lineage,opened,tainted⟩
  rw [initial.2 fd lineage opened] at tainted
  exact tainted

namespace State.Follows

variable {s : State T} (follows : s.Follows)
include follows

theorem not_tracked {fd : Nat} (closed : s.table fd = none) (positive : 0 < fd) :
    (fd : Int) ∉ s.taint.fuzzingFdSet := by
  rw [follows fd positive,closed]
  rintro ⟨_,impossible,_⟩
  cases impossible

/-- What the hooks ask of a source descriptor is what the duplicate would inherit. -/
theorem isFuzzingFd_iff {fd : Nat} (opened : s.table fd = some lineage) :
    isFuzzingFd s.taint fd ↔ (Lineage.duplicate fd lineage).Tainted := by
  unfold isFuzzingFd Lineage.Tainted stdinFileno
  rw [decide_eq_true_iff]
  rcases Nat.eq_zero_or_pos fd with zero | positive
  · simp [zero]
  · rw [follows fd positive,opened]
    simp [Nat.ne_of_gt positive]

/-- One entry of the table changes, and the set changes with it. -/
theorem update {fd : Nat} {entry : Option Lineage} {taint : Taint T}
    (others : ∀ other : Nat, other ≠ fd → ((other : Int) ∈ taint.fuzzingFdSet ↔ (other : Int) ∈ s.taint.fuzzingFdSet))
    (here : 0 < fd → ((fd : Int) ∈ taint.fuzzingFdSet ↔ ∃ lineage, entry = some lineage ∧ lineage.Tainted)) :
    State.Follows ⟨Function.update s.table fd entry,taint⟩ := by
  intro other positive
  by_cases same : other = fd
  · subst same
    simpa using here positive
  · change (other : Int) ∈ taint.fuzzingFdSet ↔ ∃ lineage, Function.update s.table fd entry other = some lineage ∧ _
    rw [Function.update_of_ne same,others other same]
    exact follows other positive

/-- A descriptor is set up, and tracked exactly when its description is tainted. -/
theorem add {fd : Nat} {lineage : Lineage} {source : Bool} (tainted : source ↔ lineage.Tainted)
    (fresh : source = false → 0 < fd → (fd : Int) ∉ s.taint.fuzzingFdSet) :
    State.Follows ⟨Function.update s.table fd (some lineage),if source then addFuzzingFd s.taint fd else s.taint⟩ := by
  cases source with
  | true =>
    refine follows.update (fun other apart => addFuzzingFd_other apart) fun positive => ?_
    exact iff_of_true (addFuzzingFd_self positive) ⟨lineage,rfl,tainted.mp rfl⟩
  | false =>
    refine follows.update (fun _ _ => Iff.rfl) fun positive => iff_of_false (fresh rfl positive) ?_
    rintro ⟨_,same,h⟩
    cases same
    exact Bool.false_ne_true (tainted.mpr h)

end State.Follows

variable [TagTraits T]

/-- A hook that sees an error changes nothing, once it has read what it reads. -/
theorem post_failed {c : Call T} {s : Taint T} {fuel : Nat} (failed : Failed c.ctx.ret)
    (tracked : c.call ∈ [.open,.openat,.dup,.dup2,.dup3,.close]) (readable : c.call = .openat → c.path ≠ none) :
    c.call.post c.env fuel c.ctx s = .returned s := by
  have negative := asInt_failed failed
  have add : addFuzzingFd s (asInt c.ctx.ret) = s := if_neg (by omega)
  cases call : c.call <;> simp [call] at tracked
  case «open» => exact if_pos negative
  case openat =>
    obtain ⟨path,read⟩ := Option.ne_none_iff_exists'.mp (readable call)
    have here : c.env.cstring (c.ctx.arg 1) = some path := by simpa [Call.path,call] using read
    change postOpenatHook c.env c.ctx s = _
    simp [postOpenatHook,fileName,here,add]
  case dup | dup2 | dup3 => exact congrArg Outcome.returned (if_pos negative)
  case close => exact congrArg Outcome.returned (if_pos failed.2)

theorem post_opened {c : Call T} {s : Taint T} {fuel fd : Nat} (result : Result c.ctx.ret fd) (read : c.path = some path)
    (opens : c.call ∈ [.open,.openat]) :
    c.call.post c.env fuel c.ctx s = .returned (if strstr path fuzzingInputFile then addFuzzingFd s fd else s) := by
  have value := asInt_result result
  cases call : c.call <;> simp [call] at opens <;> simp [Call.path,call] at read
  case «open» =>
    change postOpenHook c.env c.ctx s = _
    simp [postOpenHook,fileName,value,read]
  case openat =>
    change postOpenatHook c.env c.ctx s = _
    simp [postOpenatHook,fileName,value,read]

theorem post_dup2 {c : Call T} {s : Taint T} {fuel old target fd : Nat} (source : Names (c.ctx.arg 0) old)
    (onto : Names (c.ctx.arg 1) target) (result : Result c.ctx.ret fd) (dups : c.call ∈ [.dup2,.dup3]) :
    c.call.post c.env fuel c.ctx s = .returned (if isFuzzingFd s old then addFuzzingFd s target else s) := by
  have hook : postDup2Hook c.ctx s = if isFuzzingFd s old then addFuzzingFd s target else s := by
    rw [postDup2Hook,asInt_result result,source,onto,if_neg (by omega)]
  cases call : c.call <;> simp [call] at dups
  all_goals exact congrArg Outcome.returned hook

/-- The hook comes back from a call that keeps what is tracked, and the set follows the table. -/
theorem call_follows {s : State T} {c : Call T} {table : Table} (follows : s.Follows) (keeps : Keeps s c)
    (effect : Effect s.table c table) :
    ∃ taint, (∀ fuel, c.call.post c.env fuel c.ctx s.taint = .returned taint) ∧ State.Follows ⟨table,taint⟩ := by
  cases effect with
  | failed failed tracked _ => exact ⟨s.taint,fun _ => post_failed failed tracked keeps.readable,follows⟩
  | @released fd _ failed call releases source opened =>
    have other : c.call = .openat → c.path ≠ none := fun same => by cases call.symm.trans same
    have untracked := keeps.failed call failed releases
    rw [source] at untracked
    refine ⟨s.taint,fun _ => post_failed failed (by simp [call]) other,follows.update (fun _ _ => Iff.rfl) fun _ => ?_⟩
    exact iff_of_false untracked (by simp)
  | opened read result fresh opens =>
    exact ⟨_,fun _ => post_opened result read opens,follows.add strstr_iff fun _ positive => follows.not_tracked fresh positive⟩
  | @dup old lineage fd call source opened result fresh =>
    have hook (fuel : Nat) : c.call.post c.env fuel c.ctx s.taint =
        .returned (if isFuzzingFd s.taint old then addFuzzingFd s.taint fd else s.taint) := by
      rw [call]
      change Outcome.returned (postDupHook c.ctx s.taint) = _
      rw [postDupHook,asInt_result result,source,if_neg (by omega)]
    exact ⟨_,hook,follows.add (follows.isFuzzingFd_iff opened) fun _ positive => follows.not_tracked fresh positive⟩
  | dup2 dups source target opened result _ =>
    have kept := keeps.target dups (by rw [asInt_result result]; omega)
    rw [source,target] at kept
    refine ⟨_,fun _ => post_dup2 source target result dups,follows.add (follows.isFuzzingFd_iff opened) fun untracked _ => kept.resolve_left ?_⟩
    rw [untracked]
    exact Bool.false_ne_true
  | same call source target opened result =>
    refine ⟨_,fun _ => post_dup2 source target result (by simp [call]),?_⟩
    split
    next tracked => rw [addFuzzingFd_tracked tracked]; exact follows
    next => exact follows
  | @close fd _ call source opened success =>
    have hook (fuel : Nat) : c.call.post c.env fuel c.ctx s.taint =
        .returned (if isFuzzingFd s.taint fd then removeFuzzingFd s.taint fd else s.taint) := by
      rw [call]
      change Outcome.returned (postCloseHook c.ctx s.taint) = _
      rw [postCloseHook,source,if_neg (by rw [success]; decide)]
    refine ⟨_,hook,?_⟩
    split
    next =>
      refine follows.update (fun other apart => ?_) fun _ => ?_
      · exact Finset.mem_erase.trans (and_iff_right fun same => apart (Int.ofNat.inj same))
      · simp [removeFuzzingFd]
    next untracked =>
      refine follows.update (fun _ _ => Iff.rfl) fun _ => iff_of_false (fun member => untracked ?_) (by simp)
      exact decide_eq_true (.inr member)

/-- The kernel and the hook stay together over one call that keeps what is tracked. -/
theorem step_follows {s next : State T} {c : Call T} (follows : s.Follows) (keeps : Keeps s c)
    (step : Step s c next) : next.Follows := by
  obtain ⟨effect,returns⟩ := step
  obtain ⟨taint,hook,after⟩ := call_follows follows keeps effect
  rwa [returns.eq_of hook]

/-- In every run whose calls keep what is tracked the set follows the kernel's table, and no hook of a
further one of them stops the process. -/
theorem tracked_iff_tainted {s final : State T} {calls : List (Call T)} (initial : s.Initial)
    (run : Run (Guarded Keeps Step) s calls final) :
    (∀ fd : Nat, 0 < fd → ((fd : Int) ∈ final.taint.fuzzingFdSet ↔ ∃ lineage, final.table fd = some lineage ∧ lineage.Tainted)) ∧
    ∀ c table, Keeps final c → Effect final.table c table → ∃ next, next.table = table ∧ Step final c next := by
  have follows : final.Follows :=
    run.invariant State.Follows (fun _ _ _ follows one => step_follows follows one.1 one.2) (initial_follows initial)
  refine ⟨follows,fun c table keeps effect => ?_⟩
  obtain ⟨taint,hook,_⟩ := call_follows follows keeps effect
  exact ⟨⟨table,taint⟩,rfl,.mk effect ⟨0,fun fuel _ => hook fuel⟩⟩

/-! A process with descriptors 0, 1 and 2, and two files at hand. -/

def sampleEnv : Env UInt8 :=
  ⟨fun _ => 1,fun _ => 0,fun addr =>
    if addr = 0 then none else some (if addr = 1 then "/tmp/cur_input".toList else "/tmp/log".toList)⟩

def sampleStart : State UInt8 :=
  ⟨fun fd => if fd < 3 then some .inherited else none,TagMap.empty,∅,0,false⟩

/-- Every `close` that fails gives its descriptor up. -/
def sampleCall (call : FileCall) (arg0 arg1 ret : BitVec 64) : Call UInt8 :=
  ⟨call,⟨none,fun i => if i = 0 then arg0 else arg1,ret⟩,sampleEnv,true⟩

theorem sampleStart_initial : sampleStart.Initial := by
  refine ⟨rfl,fun fd lineage opened => ?_⟩
  change (if fd < 3 then some Lineage.inherited else none) = some lineage at opened
  split at opened
  · exact (Option.some.inj opened).symm
  · cases opened

theorem Step.of_post {s : State T} {c : Call T} (effect : Effect s.table c table)
    (hook : ∀ fuel, c.call.post c.env fuel c.ctx s.taint = .returned taint) : Step s c ⟨table,taint⟩ :=
  .mk effect ⟨0,fun fuel _ => hook fuel⟩

theorem result_three : Result 3 3 := ⟨by decide,by decide⟩
theorem result_four : Result 4 4 := ⟨by decide,by decide⟩

theorem names_three : Names 3 3 := by
  unfold Names
  decide

theorem names_four : Names 4 4 := by
  unfold Names
  decide

omit [TagTraits T] in
theorem keeps_of_other {s : State T} {c : Call T} (other : c.call ∈ [.open,.dup]) : Keeps s c where
  target dups := by cases call : c.call <;> simp_all
  failed same := by cases call : c.call <;> simp_all
  readable same := by cases call : c.call <;> simp_all

/-- The input file is duplicated onto 4 and closed; 3 is used again for the other file, whose `close`
fails but gives it up. -/
def reopened : List (Call UInt8) :=
  [sampleCall .open 1 0 3,sampleCall .dup2 3 4 4,sampleCall .close 3 0 0,sampleCall .open 2 0 3,sampleCall .close 3 0 (-5)]

theorem tracked_iff_tainted_reopened :
    ∃ final : State UInt8, Run (Guarded Keeps Step) sampleStart reopened final ∧
      ((4 : Nat) : Int) ∈ final.taint.fuzzingFdSet ∧ ((3 : Nat) : Int) ∉ final.taint.fuzzingFdSet := by
  obtain ⟨final,run,three,four⟩ : ∃ final, Run (Guarded Keeps Step) sampleStart reopened final ∧ final.table 3 = none ∧
      final.table 4 = some (.duplicate 3 (.opened "/tmp/cur_input".toList)) :=
    ⟨_,.cons ⟨keeps_of_other (by decide),.of_post (.opened rfl result_three rfl (by decide)) fun _ => rfl⟩
      (.cons ⟨⟨fun _ _ => .inl (by decide),nofun,nofun⟩,
          .of_post (.dup2 (by decide) names_three names_four rfl result_four (by decide)) fun _ => rfl⟩
        (.cons ⟨⟨fun dups => absurd dups (by decide),fun _ failed => absurd failed.2 (by decide),nofun⟩,
            .of_post (.close rfl names_three rfl rfl) fun _ => rfl⟩
          (.cons ⟨keeps_of_other (by decide),.of_post (.opened rfl result_three rfl (by decide)) fun _ => rfl⟩
            (.cons ⟨⟨fun dups => absurd dups (by decide),fun _ _ _ => by decide,nofun⟩,
              .of_post (.released ⟨by decide,by decide⟩ rfl rfl names_three rfl) fun _ => rfl⟩ .nil)))),rfl,rfl⟩
  have exact := (tracked_iff_tainted sampleStart_initial run).1
  refine ⟨final,run,(exact 4 (by decide)).mpr ⟨_,four,.inr ?_⟩,fun member => ?_⟩
  · exact strstr_iff.mp (by decide)
  · obtain ⟨_,opened,_⟩ := (exact 3 (by decide)).mp member
    cases three.symm.trans opened

/-- Descriptor 3 stays tracked although `dup2` has put another file there. -/
theorem dup2_leaves_target_tracked :
    ¬ ∀ (s final : State UInt8) (calls : List (Call UInt8)) (fd : Nat), s.Initial → Run Step s calls final → 0 < fd →
      ((fd : Int) ∈ final.taint.fuzzingFdSet ↔ ∃ lineage, final.table fd = some lineage ∧ lineage.Tainted) := by
  intro claim
  obtain ⟨final,run,tracked,table⟩ : ∃ final, Run Step sampleStart
      [sampleCall .open 1 0 3,sampleCall .open 2 0 4,sampleCall .dup2 4 3 3] final ∧
      (3 : Int) ∈ final.taint.fuzzingFdSet ∧
      final.table 3 = some (.duplicate 4 (.opened "/tmp/log".toList)) :=
    ⟨_,.cons (.of_post (.opened rfl result_three rfl (by decide)) fun _ => rfl)
      (.cons (.of_post (.opened rfl result_four rfl (by decide)) fun _ => rfl)
        (.cons (.of_post (.dup2 (by decide) names_four names_three rfl result_three (by decide))
          fun _ => rfl) .nil)),by decide,rfl⟩
  obtain ⟨lineage,opened,tainted⟩ := (claim _ _ _ 3 sampleStart_initial run (by decide)).mp tracked
  rw [table] at opened
  cases opened
  exact absurd tainted (by simp [Lineage.Tainted,← strstr_iff]; decide)

end Libdft.Descriptors
