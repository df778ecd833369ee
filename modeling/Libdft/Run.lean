import Mathlib.Tactic.Common

/-! Finite runs of a labelled transition relation. Invariants and
conditions on the steps are stated once here; a run carries no fairness. -/
namespace Libdft

inductive Run (step : σ → α → σ → Prop) : σ → List α → σ → Prop where
  | nil : Run step s [] s
  | cons : step s a next → Run step next rest final → Run step s (a :: rest) final

/-- The same steps, taken only from states that allow the action. -/
def Guarded (allowed : σ → α → Prop) (step : σ → α → σ → Prop) (s : σ) (a : α) (next : σ) : Prop :=
  allowed s a ∧ step s a next

namespace Run

theorem append (first : Run step s xs middle) (second : Run step middle ys final) :
    Run step s (xs ++ ys) final := by
  induction first with
  | nil => exact second
  | cons one _ ih => exact .cons one (ih second)

theorem snoc (first : Run step s xs middle) (last : step middle a final) :
    Run step s (xs ++ [a]) final :=
  first.append (.cons last .nil)

theorem invariant (property : σ → Prop)
    (preserved : ∀ s a next, property s → step s a next → property next)
    (run : Run step s trace final) (initial : property s) : property final := by
  induction run with
  | nil => exact initial
  | cons one _ ih => exact ih (preserved _ _ _ initial one)

theorem weaken {step weaker : σ → α → σ → Prop} (run : Run step s trace final)
    (each : ∀ s a next, step s a next → weaker s a next) : Run weaker s trace final := by
  induction run with
  | nil => exact .nil
  | cons one _ ih => exact .cons (each _ _ _ one) ih

theorem of_guarded {allowed : σ → α → Prop} (run : Run (Guarded allowed step) s trace final) :
    Run step s trace final :=
  run.weaken fun _ _ _ one => one.2

end Run

/-! Where what an action does is a function, a schedule decides the run. -/

section Schedule
variable (enabled : σ → α → Bool) (perform : σ → α → σ)

def replay (s : σ) : List α → σ
  | [] => s
  | a :: acts => replay (perform s a) acts

def feasible (s : σ) : List α → Bool
  | [] => true
  | a :: acts => enabled s a && feasible (perform s a) acts

theorem run_replay {enabled : σ → α → Bool} {perform : σ → α → σ} {step : σ → α → σ → Prop}
    (sound : ∀ s a, enabled s a = true → step s a (perform s a)) (possible : feasible enabled perform s acts = true) :
    Run step s acts (replay perform s acts) := by
  induction acts generalizing s with
  | nil => exact .nil
  | cons a acts ih =>
    rw [feasible,Bool.and_eq_true] at possible
    exact .cons (sound s a possible.1) (ih possible.2)

end Schedule

end Libdft
