import Mathlib.Tactic.Common

/-! Partial correctness of computations that keep a state and may fail: what holds after a run
that did not fail. The rules follow the ways in which computations are put together. -/
namespace Libdft

variable {σ ε α β : Type} {P Q : σ → Prop}

section Bind
variable {x : StateT σ (Except ε) α} {f : α → StateT σ (Except ε) β} {s t u : σ} {a : α} {b : β} {fault : ε}

theorem bind_ok (run : x s = .ok (a,t)) : (x >>= f) s = f a t := by
  change StateT.bind x f s = _
  rw [StateT.bind,run]
  rfl

theorem bind_error (run : x s = .error fault) : (x >>= f) s = .error fault := by
  change StateT.bind x f s = _
  rw [StateT.bind,run]
  rfl

theorem bind_eq_ok (run : (x >>= f) s = .ok (b,u)) : ∃ a t, x s = .ok (a,t) ∧ f a t = .ok (b,u) := by
  cases first : x s with
  | error fault => simp [bind_error first] at run
  | ok result => exact ⟨result.1,result.2,rfl,(bind_ok first).symm.trans run⟩

theorem bind_eq_error (run : (x >>= f) s = .error fault) :
    x s = .error fault ∨ ∃ a t, x s = .ok (a,t) ∧ f a t = .error fault := by
  cases first : x s with
  | error fault' =>
    rw [bind_error first] at run
    exact .inl (congrArg _ (Except.error.inj run))
  | ok result => exact .inr ⟨result.1,result.2,rfl,(bind_ok first).symm.trans run⟩

end Bind

def Triple (P : σ → Prop) (x : StateT σ (Except ε) α) (R : α → σ → Prop) : Prop :=
  ∀ s a s', P s → x s = .ok (a,s') → R a s'

/-- An invariant of a computation. -/
abbrev Keeps (P : σ → Prop) (x : StateT σ (Except ε) α) : Prop := Triple P x fun _ => P

namespace Triple

theorem pure (a : α) {R : α → σ → Prop} (holds : ∀ s, P s → R a s) :
    Triple P (Pure.pure a : StateT σ (Except ε) α) R := by
  intro s b s' before run
  cases run
  exact holds s before

theorem bind {x : StateT σ (Except ε) α} {f : α → StateT σ (Except ε) β} {M : α → σ → Prop} {R : β → σ → Prop}
    (first : Triple P x M) (rest : ∀ a, Triple (M a) (f a) R) : Triple P (x >>= f) R := by
  intro s b s' before run
  obtain ⟨a,t,done,follows⟩ := bind_eq_ok run
  exact rest a t b s' (first s a t before done) follows

theorem imp {x : StateT σ (Except ε) α} {R R' : α → σ → Prop} (triple : Triple P x R)
    (weaker : ∀ a s, R a s → R' a s) : Triple P x R' :=
  fun s a s' before run => weaker a s' (triple s a s' before run)

/-- A fact that does not mention the state. -/
theorem fact {x : StateT σ (Except ε) α} {R : α → σ → Prop} {h : Prop} (triple : h → Triple P x R) :
    Triple (fun s => P s ∧ h) x R :=
  fun s a s' both run => triple both.2 s a s' both.1 run

theorem ite {c : Prop} [Decidable c] {x y : StateT σ (Except ε) α} {R : α → σ → Prop}
    (yes : c → Triple P x R) (no : ¬ c → Triple P y R) : Triple P (if c then x else y) R := by
  split
  next h => exact yes h
  next h => exact no h

/-- What each item yields, when none of them disturbs `P`. -/
theorem mapM {items : List β} {f : β → StateT σ (Except ε) α} {q : β → α → Prop}
    (each : ∀ b ∈ items, Triple P (f b) fun a s => P s ∧ q b a) :
    Triple P (items.mapM f) fun results s => P s ∧ List.Forall₂ q items results := by
  induction items with
  | nil =>
    rw [List.mapM_nil]
    exact pure [] fun _ h => ⟨h,.nil⟩
  | cons item items ih =>
    rw [List.mapM_cons]
    refine (each item List.mem_cons_self).bind fun a => fact fun first => ?_
    refine (ih fun b mem => each b (List.mem_cons_of_mem _ mem)).bind fun results => ?_
    exact pure (a :: results) fun s h => ⟨h.1,.cons first h.2⟩

end Triple

namespace Keeps

theorem skip : Keeps P (Pure.pure () : StateT σ (Except ε) Unit) := Triple.pure () fun _ h => h

theorem bind {x : StateT σ (Except ε) α} {f : α → StateT σ (Except ε) β} (first : Keeps P x)
    (rest : ∀ a, Keeps P (f a)) : Keeps P (x >>= f) :=
  Triple.bind first rest

theorem forM {items : List β} {body : β → StateT σ (Except ε) PUnit} (each : ∀ b ∈ items, Keeps P (body b)) :
    Keeps P (items.forM body) := by
  induction items with
  | nil => exact Triple.pure PUnit.unit fun _ h => h
  | cons item items ih =>
    exact bind (each item List.mem_cons_self) fun _ => ih fun b mem => each b (List.mem_cons_of_mem _ mem)

end Keeps

/-- From related states, the same outcome and related states. -/
def Parallel (R : σ → σ → Prop) (x : StateT σ (Except ε) α) : Prop :=
  ∀ s t, R s t → match x s, x t with
    | .ok (a,s'), .ok (b,t') => a = b ∧ R s' t'
    | .error e, .error e' => e = e'
    | _, _ => False

namespace Parallel
variable {R : σ → σ → Prop}

theorem pure (a : α) : Parallel R (Pure.pure a : StateT σ (Except ε) α) := fun _ _ related => ⟨rfl,related⟩

theorem bind {x : StateT σ (Except ε) α} {f : α → StateT σ (Except ε) β} (first : Parallel R x)
    (rest : ∀ a, Parallel R (f a)) : Parallel R (x >>= f) := by
  intro s t related
  have before := first s t related
  cases left : x s with
  | error e =>
    cases right : x t with
    | error e' =>
      rw [bind_error left,bind_error right]
      simpa [left,right] using before
    | ok result => simp [left,right] at before
  | ok result =>
    cases right : x t with
    | error e' => simp [left,right] at before
    | ok result' =>
      obtain ⟨a,s'⟩ := result
      obtain ⟨b,t'⟩ := result'
      simp only [left,right] at before
      obtain ⟨rfl,after⟩ := before
      rw [bind_ok left,bind_ok right]
      exact rest a s' t' after

theorem forM {items : List β} {body : β → StateT σ (Except ε) PUnit} (each : ∀ b ∈ items, Parallel R (body b)) :
    Parallel R (items.forM body) := by
  induction items with
  | nil => exact pure PUnit.unit
  | cons item items ih =>
    exact bind (each item List.mem_cons_self) fun _ => ih fun b mem => each b (List.mem_cons_of_mem _ mem)

end Parallel

/-- From any state: a run that fails, fails in an expected way, and one that ends leaves a related state. -/
structure Confined (R : σ → σ → Prop) (F : ε → Prop) (x : StateT σ (Except ε) α) : Prop where
  ends : ∀ s a s', x s = .ok (a,s') → R s s'
  fails : ∀ s fault, x s = .error fault → F fault

namespace Confined
variable {R : σ → σ → Prop} {F : ε → Prop}

theorem pure (refl : ∀ s, R s s) (a : α) : Confined R F (Pure.pure a : StateT σ (Except ε) α) where
  ends s b s' run := by
    cases run
    exact refl s
  fails _ _ run := nomatch run

theorem bind (trans : ∀ s t u, R s t → R t u → R s u) {x : StateT σ (Except ε) α} {f : α → StateT σ (Except ε) β}
    (first : Confined R F x) (rest : ∀ a, Confined R F (f a)) : Confined R F (x >>= f) := by
  constructor
  · intro s b s' run
    obtain ⟨a,t,done,follows⟩ := bind_eq_ok run
    exact trans s t s' (first.ends s a t done) ((rest a).ends t b s' follows)
  · intro s fault run
    rcases bind_eq_error run with stuck | ⟨a,t,_,stuck⟩
    · exact first.fails s fault stuck
    · exact (rest a).fails t fault stuck

theorem forM (refl : ∀ s, R s s) (trans : ∀ s t u, R s t → R t u → R s u) {items : List β}
    {body : β → StateT σ (Except ε) PUnit} (each : ∀ b ∈ items, Confined R F (body b)) :
    Confined R F (items.forM body) := by
  induction items with
  | nil => exact pure refl PUnit.unit
  | cons item items ih =>
    exact bind trans (each item List.mem_cons_self) fun _ => ih fun b mem => each b (List.mem_cons_of_mem _ mem)

theorem mapM (refl : ∀ s, R s s) (trans : ∀ s t u, R s t → R t u → R s u) {items : List β}
    {f : β → StateT σ (Except ε) α} (each : ∀ b ∈ items, Confined R F (f b)) : Confined R F (items.mapM f) := by
  induction items with
  | nil =>
    rw [List.mapM_nil]
    exact pure refl []
  | cons item items ih =>
    rw [List.mapM_cons]
    refine bind trans (each item List.mem_cons_self) fun a => ?_
    exact bind trans (ih fun b mem => each b (List.mem_cons_of_mem _ mem)) fun results => pure refl (a :: results)

end Confined
end Libdft
