import Libdft.SyscallTable
import Libdft.TagMap

/-! The two functions that run around every system call of a thread, over any table of
descriptors. What they do to the tags and what they load from the application is the
list of effects of the callbacks and of the default handling. -/
namespace Libdft.SyscallApi

open Syscall SyscallTable TagMap TagTraits

variable (abi : Abi) (table : Fin syscallMax → SyscallDesc) (ctx : SyscallCtx) (mem : Memory)

/-- The descriptor asks for the arguments of its calls. -/
def Saves (d : SyscallDesc) : Prop := d.saveArgs ||| d.retvalArgs ≠ 0

instance (d : SyscallDesc) : Decidable (Saves d) := inferInstanceAs (Decidable (_ ≠ _))

/-- The switch on `nargs` falls through from the last argument to the first. -/
def saveArgs (nargs : Fin 7) (old args : Fin 6 → BitVec 64) : Fin 6 → BitVec 64 :=
  fun i => if i.val < nargs.val then args i else old i

def runCallback : Option Callback → List Effect
  | none => []
  | some callback => callback.run abi ctx mem

def sysenterSave (nr : Nat) (args : Fin 6 → BitVec 64) : SyscallCtx × List Effect :=
  if known : nr < syscallMax then
    let d := table ⟨nr, known⟩
    let ctx := { ctx with nr := some ⟨nr, known⟩ }
    if Saves d then
      let ctx := { ctx with arg := saveArgs d.nargs ctx.arg args }
      (ctx, runCallback abi ctx mem d.pre)
    else (ctx, [])
  else ({ ctx with nr := none }, [])

/-- One pass over the arguments map. -/
def clearMapped (d : SyscallDesc) : List Effect :=
  (List.finRange 6).flatMap fun i =>
    if i.val < d.nargs.val ∧ 0 < (d.mapArgs i).bytes abi ∧ ctx.arg i ≠ 0 then
      [.clear (ctx.arg i) (BitVec.ofNat 64 ((d.mapArgs i).bytes abi))]
    else []

def sysexitSave (ret : BitVec 64) : SyscallCtx × List Effect :=
  match ctx.nr with
  | none => (ctx, [])
  | some nr =>
    let d := table nr
    if Saves d then
      let ctx := { ctx with ret }
      match d.post with
      | some callback => (ctx, callback.run abi ctx mem)
      | none =>
        -- `ret` is an `ADDRINT`
        if ctx.ret.toNat < 0 then (ctx, []) else (ctx, clearMapped abi ctx d)
    else (ctx, [])

section Tags
variable {T : Type} [TagTraits T]

def applyEffect (dir : TagDir T) : Effect → TagDir T
  | .read _ _ => dir
  | .clear addr n => tagmapClrn dir addr.toNat n.toNat

def applyEffects (dir : TagDir T) (effects : List Effect) : TagDir T := effects.foldl applyEffect dir

end Tags

/-- The effect clears the tag of `a`. -/
def Clears (a : Nat) : Effect → Prop
  | .read _ _ => False
  | .clear addr n => cleared addr.toNat n.toNat a

instance (a : Nat) : DecidablePred (Clears a)
  | .read _ _ => inferInstanceAs (Decidable False)
  | .clear _ _ => inferInstanceAs (Decidable (cleared _ _ _))

def ClearedBy (effects : List Effect) (a : Nat) : Prop := ∃ effect ∈ effects, Clears a effect

instance (effects : List Effect) (a : Nat) : Decidable (ClearedBy effects a) :=
  inferInstanceAs (Decidable (∃ effect ∈ effects, Clears a effect))

section Tags
variable {T : Type} [TagTraits T]

theorem getb_applyEffects (dir : TagDir T) (effects : List Effect) (a : Nat) :
    tagmapGetb (applyEffects dir effects) a =
      if ClearedBy effects a ∧ a ≤ maxAddr then some clearedVal else tagmapGetb dir a := by
  induction effects generalizing dir with
  | nil => simp [applyEffects,ClearedBy]
  | cons effect effects ih =>
    change tagmapGetb (applyEffects (applyEffect dir effect) effects) a = _
    rw [ih]
    have split : ClearedBy (effect :: effects) a ↔ Clears a effect ∨ ClearedBy effects a := by
      simp [ClearedBy]
    cases effect with
    | read addr size => simp [split,Clears,applyEffect]
    | clear addr n =>
      rw [applyEffect,tagmapClrn,getb_clrn tagmapSetb_puts]
      by_cases user : a ≤ maxAddr
      · by_cases later : ClearedBy effects a <;> simp [split,later,user,Clears]
      · simp [user]

end Tags

end Libdft.SyscallApi
