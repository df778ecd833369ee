import Mathlib.Algebra.Ring.Nat
import Mathlib.Logic.Relation
import Mathlib.Tactic.Common

/-! Calls and loops of a C program with an explicit budget of loop passes.
Running out of passes is an outcome of its own: it is never a result, and the
rules below only ever conclude that a large enough budget avoids it. -/
namespace Libdft

/-- What a call does: come back with a value, stop the process, or still loop. -/
inductive Outcome (α : Type) where
  | returned (value : α)
  | trapped
  | running
  deriving DecidableEq, Repr

namespace Outcome

def bind (x : Outcome α) (f : α → Outcome β) : Outcome β :=
  match x with
  | .returned a => f a
  | .trapped => .trapped
  | .running => .running

instance : Monad Outcome where
  pure := .returned
  bind := bind

@[simp] theorem pure_eq (a : α) : (pure a : Outcome α) = .returned a := rfl

@[simp] theorem returned_bind (a : α) (f : α → Outcome β) : (Outcome.returned a >>= f) = f a := rfl
@[simp] theorem trapped_bind (f : α → Outcome β) : (Outcome.trapped >>= f) = .trapped := rfl
@[simp] theorem running_bind (f : α → Outcome β) : (Outcome.running >>= f) = .running := rfl

/-- The call comes to an end, and whatever it returns satisfies `post`. -/
def Ends (x : Outcome α) (post : α → Prop) : Prop :=
  match x with
  | .returned a => post a
  | .trapped => True
  | .running => False

@[simp] theorem ends_returned {post : α → Prop} : (Outcome.returned a).Ends post ↔ post a := Iff.rfl
@[simp] theorem ends_trapped {post : α → Prop} : (Outcome.trapped).Ends post ↔ True := Iff.rfl
@[simp] theorem ends_running {post : α → Prop} : ¬ (Outcome.running).Ends post := id

theorem Ends.imp {x : Outcome α} {post weaker : α → Prop} (h : x.Ends post)
    (weaken : ∀ a, post a → weaker a) : x.Ends weaker := by
  cases x with
  | returned a => exact weaken a h
  | trapped => trivial
  | running => exact h

theorem Ends.bind {x : Outcome α} {f : α → Outcome β} {middle : α → Prop} {post : β → Prop}
    (first : x.Ends middle) (second : ∀ a, middle a → (f a).Ends post) : (x >>= f).Ends post := by
  cases x with
  | returned a => exact second a first
  | trapped => trivial
  | running => exact absurd first ends_running

theorem Ends.of_eq {x : Outcome α} {post : α → Prop} (h : x.Ends post)
    (eq : x = .returned a) : post a := by
  subst eq; exact h

theorem Ends.not_running {x : Outcome α} {post : α → Prop} (h : x.Ends post) : x ≠ .running := by
  rintro rfl; exact h

/-- Whatever the call returns satisfies `post`; it need not return. -/
def Allows (x : Outcome α) (post : α → Prop) : Prop := ∀ a, x = .returned a → post a

theorem Allows.returned {post : α → Prop} (h : post a) : (Outcome.returned a).Allows post := by
  rintro _ ⟨⟩
  exact h

theorem Allows.bind {x : Outcome α} {f : α → Outcome β} {middle : α → Prop} {post : β → Prop}
    (first : x.Allows middle) (second : ∀ a, middle a → (f a).Allows post) : (x >>= f).Allows post := by
  intro b eq
  cases x with
  | returned a => exact second a (first a rfl) b eq
  | trapped => cases eq
  | running => cases eq

end Outcome

/-- With enough passes the call returns `value`. -/
def Returns (call : Nat → Outcome α) (value : α) : Prop :=
  ∃ enough, ∀ fuel, enough ≤ fuel → call fuel = .returned value

/-- With enough passes the call is over, one way or the other. -/
def Terminates (call : Nat → Outcome α) : Prop :=
  ∃ enough, ∀ fuel, enough ≤ fuel → call fuel ≠ .running

theorem Returns.unique {call : Nat → Outcome α} (h : Returns call a) (h' : Returns call b) : a = b := by
  obtain ⟨n, hn⟩ := h
  obtain ⟨m, hm⟩ := h'
  have same := (hn (max n m) (Nat.le_max_left ..)).symm.trans (hm (max n m) (Nat.le_max_right ..))
  exact Outcome.returned.inj same

theorem Returns.eq_of {call : Nat → Outcome α} (h : Returns call b) (each : ∀ fuel, call fuel = .returned a) : b = a :=
  h.unique ⟨0,fun fuel _ => each fuel⟩

theorem Returns.map {call : Nat → Outcome α} (h : Returns call a) (f : α → β) :
    Returns (fun fuel => call fuel >>= fun x => pure (f x)) (f a) := by
  obtain ⟨n,hn⟩ := h
  exact ⟨n,fun fuel enough => by simp [hn fuel enough]⟩

theorem not_returns_running : ¬ Returns (fun _ => .running) a := by
  rintro ⟨n,hn⟩
  cases hn n (Nat.le_refl n)

/-- A postcondition that holds from some budget on holds of the returned value. -/
theorem Returns.post {call : Nat → Outcome α} (h : Returns call a) {post : α → Prop}
    (ends : ∃ enough, ∀ fuel, enough ≤ fuel → (call fuel).Ends post) : post a := by
  obtain ⟨n, hn⟩ := h
  obtain ⟨m, hm⟩ := ends
  exact (hm (max n m) (Nat.le_max_right ..)).of_eq (hn (max n m) (Nat.le_max_left ..))

theorem Terminates.of_ends {call : Nat → Outcome α} {post : α → Prop}
    (ends : ∃ enough, ∀ fuel, enough ≤ fuel → (call fuel).Ends post) : Terminates call := by
  obtain ⟨n, hn⟩ := ends
  exact ⟨n, fun fuel h => (hn fuel h).not_running⟩

/-- A larger budget does not change an outcome that a smaller one reached. -/
def Steady (call : Nat → Outcome α) : Prop :=
  ∀ fuel more, fuel ≤ more → call fuel ≠ .running → call more = call fuel

namespace Steady

theorem const (x : Outcome α) : Steady fun _ => x := fun _ _ _ _ => rfl

theorem bind {call : Nat → Outcome α} {f : α → Nat → Outcome β} (first : Steady call)
    (second : ∀ a, Steady (f a)) : Steady fun fuel => call fuel >>= fun a => f a fuel := by
  intro fuel more le stopped
  cases reached : call fuel with
  | returned a =>
    simp only [reached,Outcome.returned_bind] at stopped ⊢
    rw [first fuel more le (by simp [reached]),reached]
    exact second a fuel more le stopped
  | trapped =>
    simp only [reached,Outcome.trapped_bind]
    rw [first fuel more le (by simp [reached]),reached]
    rfl
  | running => simp [reached] at stopped

theorem ite {p : Prop} [Decidable p] {yes no : Nat → Outcome α} (whenYes : Steady yes)
    (whenNo : Steady no) : Steady fun fuel => if p then yes fuel else no fuel := by
  by_cases h : p
  · simpa only [h,ite_true] using whenYes
  · simpa only [h,ite_false] using whenNo

/-- One evaluation settles what the call returns. -/
theorem returns {call : Nat → Outcome α} (steady : Steady call) (h : call n = .returned a) :
    Returns call a :=
  ⟨n,fun fuel enough => by rw [steady n fuel enough (by simp [h]),h]⟩

end Steady

/-- One pass of a loop body leaves the loop or goes round again. -/
inductive Pass (σ ρ : Type) where
  | leave (result : ρ)
  | again (state : σ)

def loop (body : σ → Outcome (Pass σ ρ)) : Nat → σ → Outcome ρ
  | 0, _ => .running
  | fuel + 1, s => do
    match ← body s with
    | .leave r => return r
    | .again next => loop body fuel next

theorem loop_succ (body : σ → Outcome (Pass σ ρ)) (fuel : Nat) (s : σ) :
    loop body (fuel + 1) s = (do
      match ← body s with
      | .leave r => return r
      | .again next => loop body fuel next) := rfl

theorem loop_steady {body : Nat → σ → Outcome (Pass σ ρ)} (steady : ∀ s, Steady (body · s)) (s : σ) :
    Steady fun fuel => loop (body fuel) fuel s := by
  intro fuel more le
  have apart (n m : Nat) (below : n ≤ m) : loop (body fuel) n s ≠ .running →
      loop (body more) m s = loop (body fuel) n s := by
    induction n generalizing m s with
    | zero => exact fun stopped => absurd rfl stopped
    | succ n ih =>
      obtain ⟨m,rfl⟩ : ∃ k, m = k + 1 := ⟨m - 1,by omega⟩
      intro stopped
      rw [loop_succ] at stopped
      rw [loop_succ,loop_succ]
      have same : body fuel s ≠ .running → body more s = body fuel s := steady s fuel more le
      cases pass : body fuel s with
      | running => simp [pass] at stopped
      | trapped => rw [same (by simp [pass]),pass]; rfl
      | returned next =>
        rw [same (by simp [pass]),pass]
        rw [pass] at stopped
        cases next with
        | leave r => rfl
        | again next => exact ih next m (by omega) stopped
  exact apart fuel more le

theorem loop_steady_fixed (body : σ → Outcome (Pass σ ρ)) (s : σ) : Steady fun fuel => loop body fuel s :=
  have steady (s : σ) : Steady fun _ => body s := .const _
  loop_steady steady s

/-- The obligation on one pass: leaving establishes `post`, going round keeps the
invariant and lowers the variant. -/
def PassSpec (inv : σ → Prop) (variant : σ → Nat) (post : ρ → Prop) (s : σ) : Pass σ ρ → Prop
  | .leave r => post r
  | .again next => inv next ∧ variant next < variant s

/-- Total correctness of a loop whose variant stays below the budget. -/
theorem loop_ends {body : σ → Outcome (Pass σ ρ)} (inv : σ → Prop) (variant : σ → Nat)
    {post : ρ → Prop} (step : ∀ s, inv s → (body s).Ends (PassSpec inv variant post s))
    {s : σ} (init : inv s) {fuel : Nat} (budget : variant s < fuel) :
    (loop body fuel s).Ends post := by
  induction fuel generalizing s with
  | zero => omega
  | succ fuel ih =>
    rw [loop_succ]
    refine (step s init).bind ?_
    rintro (r | next) pass
    · exact pass
    · exact ih pass.1 (by have := pass.2; omega)

/-- A loop without traps and with one possible result reaches it within its budget. -/
theorem loop_reaches {body : σ → Outcome (Pass σ ρ)} (inv : σ → Prop) (variant : σ → Nat) {result : ρ}
    (step : ∀ s, inv s → ∃ pass, body s = .returned pass ∧ PassSpec inv variant (· = result) s pass)
    {s : σ} (init : inv s) {fuel : Nat} (budget : variant s < fuel) : loop body fuel s = .returned result := by
  induction fuel generalizing s with
  | zero => omega
  | succ fuel ih =>
    obtain ⟨pass,eq,spec⟩ := step s init
    rw [loop_succ,eq,Outcome.returned_bind]
    cases pass with
    | leave r => exact congrArg Outcome.returned spec
    | again next => exact ih spec.1 (by have := spec.2; omega)

theorem loop_returns {body : σ → Outcome (Pass σ ρ)} (inv : σ → Prop) (variant : σ → Nat) {result : ρ}
    (step : ∀ s, inv s → ∃ pass, body s = .returned pass ∧ PassSpec inv variant (· = result) s pass)
    {s : σ} (init : inv s) : Returns (fun fuel => loop body fuel s) result :=
  ⟨variant s + 1,fun _ enough => loop_reaches inv variant step init enough⟩

/-- Partial correctness of a loop: its invariant holds when it is left, if it is left. -/
theorem loop_allows {body : σ → Outcome (Pass σ ρ)} (inv : σ → Prop) {post : ρ → Prop}
    (step : ∀ s, inv s → (body s).Allows fun
      | .leave r => post r
      | .again next => inv next)
    {s : σ} (init : inv s) (fuel : Nat) : (loop body fuel s).Allows post := by
  induction fuel generalizing s with
  | zero => nofun
  | succ fuel ih =>
    rw [loop_succ]
    refine (step s init).bind ?_
    rintro (r | next) holds
    · exact .returned holds
    · exact ih holds

/-- Two bodies that agree wherever one of the loops can be make the same loop. -/
theorem loop_congr {body body' : σ → Outcome (Pass σ ρ)} (inv : σ → Prop)
    (same : ∀ s, inv s → body' s = body s) (keeps : ∀ s next, inv s → body s = .returned (.again next) → inv next)
    {s : σ} (init : inv s) (fuel : Nat) : loop body' fuel s = loop body fuel s := by
  induction fuel generalizing s with
  | zero => rfl
  | succ fuel ih =>
    rw [loop_succ,loop_succ,same s init]
    cases pass : body s with
    | returned next =>
      cases next with
      | leave r => rfl
      | again next => exact ih (keeps s next init pass)
    | trapped => rfl
    | running => rfl

/-- With enough budget for what it calls, one pass goes round from the first state to the second. -/
def Goes (body : Nat → σ → Outcome (Pass σ ρ)) (s next : σ) : Prop := Returns (body · s) (.again next)

/-- The states in which a loop meets its head. -/
def Visits (body : Nat → σ → Outcome (Pass σ ρ)) (s t : σ) : Prop := Relation.ReflTransGen (Goes body) s t

theorem Visits.invariant {body : Nat → σ → Outcome (Pass σ ρ)} (inv : σ → Prop)
    (step : ∀ s next, inv s → Goes body s next → inv next) (visits : Visits body s t) (init : inv s) : inv t := by
  induction visits with
  | refl => exact init
  | tail _ goes ih => exact step _ _ ih goes

/-- A loop is left from a state that it visits. -/
theorem Visits.of_loop {body : σ → Outcome (Pass σ ρ)} {fuel : Nat} (ends : loop body fuel s = .returned r) :
    ∃ t, Visits (fun _ => body) s t ∧ body t = .returned (.leave r) := by
  induction fuel generalizing s with
  | zero => cases ends
  | succ fuel ih =>
    rw [loop_succ] at ends
    cases pass : body s with
    | trapped => simp [pass] at ends
    | running => simp [pass] at ends
    | returned way =>
      rw [pass,Outcome.returned_bind] at ends
      cases way with
      | leave r' =>
        cases ends
        exact ⟨s,.refl,pass⟩
      | again next =>
        obtain ⟨t,visits,left⟩ := ih ends
        exact ⟨t,.head ⟨0,fun _ _ => pass⟩ visits,left⟩

/-- A loop that keeps its invariant while never leaving exhausts every budget. -/
theorem loop_running {body : σ → Outcome (Pass σ ρ)} (inv : σ → Prop)
    (step : ∀ s, inv s → ∃ next, body s = .returned (.again next) ∧ inv next)
    {s : σ} (init : inv s) (fuel : Nat) : loop body fuel s = .running := by
  induction fuel generalizing s with
  | zero => rfl
  | succ fuel ih =>
    obtain ⟨next, again, keep⟩ := step s init
    rw [loop_succ, again, Outcome.returned_bind]
    exact ih keep

end Libdft
