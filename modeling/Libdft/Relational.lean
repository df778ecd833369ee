import Libdft.Triple
import Mathlib.Data.List.Forall2

/-! Two computations side by side, each with a state of its own: they fail alike or end alike.
The rules follow the ways in which computations are put together. -/
namespace Libdft

variable {σ τ ε α α' β β' ι : Type}

/-- From states related by `S`: one fault for both, or results related by `Q` and states related by `S`. -/
def Coupled (S : σ → τ → Prop) (Q : α → β → Prop) (x : StateT σ (Except ε) α) (y : StateT τ (Except ε) β) : Prop :=
  ∀ s t, S s t → (∃ fault, x s = .error fault ∧ y t = .error fault) ∨
    ∃ a b s' t', x s = .ok (a,s') ∧ y t = .ok (b,t') ∧ Q a b ∧ S s' t'

/-- Of computations that are run for what they do to the state. -/
abbrev Lockstep (S : σ → τ → Prop) (x : StateT σ (Except ε) Unit) (y : StateT τ (Except ε) Unit) : Prop :=
  Coupled S (fun _ _ => True) x y

namespace Coupled
variable {S : σ → τ → Prop} {Q : α → β → Prop} {Q' : α' → β' → Prop}

theorem pure {a : α} {b : β} (related : Q a b) :
    Coupled S Q (Pure.pure a : StateT σ (Except ε) α) (Pure.pure b) :=
  fun s t states => .inr ⟨a,b,s,t,rfl,rfl,related,states⟩

theorem bind {x : StateT σ (Except ε) α} {y : StateT τ (Except ε) β} {f : α → StateT σ (Except ε) α'}
    {g : β → StateT τ (Except ε) β'} (first : Coupled S Q x y) (rest : ∀ a b, Q a b → Coupled S Q' (f a) (g b)) :
    Coupled S Q' (x >>= f) (y >>= g) := by
  intro s t states
  rcases first s t states with ⟨fault,left,right⟩ | ⟨a,b,s',t',left,right,results,after⟩
  · exact .inl ⟨fault,bind_error left,bind_error right⟩
  · rw [bind_ok left,bind_ok right]
    exact rest a b results s' t' after

theorem ite {c : Prop} [Decidable c] {x x' : StateT σ (Except ε) α} {y y' : StateT τ (Except ε) β}
    (yes : c → Coupled S Q x y) (no : ¬ c → Coupled S Q x' y') :
    Coupled S Q (if c then x else x') (if c then y else y') := by
  split
  next h => exact yes h
  next h => exact no h

theorem modify {f : σ → σ} {g : τ → τ} (each : ∀ s t, S s t → S (f s) (g t)) :
    Lockstep S (modify f : StateT σ (Except ε) Unit) (modify g) :=
  fun s t states => .inr ⟨(),(),f s,g t,rfl,rfl,trivial,each s t states⟩

theorem forM {items : List ι} {f : ι → StateT σ (Except ε) Unit} {g : ι → StateT τ (Except ε) Unit}
    (each : ∀ i ∈ items, Lockstep S (f i) (g i)) : Lockstep S (items.forM f) (items.forM g) := by
  induction items with
  | nil => exact pure trivial
  | cons item items ih =>
    exact (each item List.mem_cons_self).bind fun _ _ _ => ih fun i mem => each i (List.mem_cons_of_mem _ mem)

theorem mapM {items : List ι} {f : ι → StateT σ (Except ε) α} {g : ι → StateT τ (Except ε) β}
    (each : ∀ i ∈ items, Coupled S Q (f i) (g i)) : Coupled S (List.Forall₂ Q) (items.mapM f) (items.mapM g) := by
  induction items with
  | nil =>
    rw [List.mapM_nil,List.mapM_nil]
    exact pure .nil
  | cons item items ih =>
    rw [List.mapM_cons,List.mapM_cons]
    refine (each item List.mem_cons_self).bind fun a b first => ?_
    refine (ih fun i mem => each i (List.mem_cons_of_mem _ mem)).bind fun as bs rest => ?_
    exact pure (.cons first rest)

end Coupled
end Libdft
