import Mathlib.Algebra.BigOperators.Group.Finset.Basic
import Mathlib.Algebra.Order.BigOperators.Group.Finset

/-!
Agents that take steps on a shared state, one at a time and in any order.
`step a s` is the state after the step of agent `a`, or `none` when it has none.
A state is reachable under a condition on the steps when some order of steps
that all meet it leads there; what the start has and every such step keeps, every
reachable state has (`Reachable.invariant`). `run` follows a schedule, and what
it reaches is reachable (`run_reachable`). A sum over the agents changes in a
step by what the part of the agent that moves changes by (`sum_update`).
-/
namespace Straid.Interleavings

variable {σ α : Type*} (step : α → σ → Option σ) (ok : σ → α → Prop)

/-- The states that steps which meet the condition `ok` lead to. -/
inductive Reachable (start : σ) : σ → Prop
  | start : Reachable start start
  | step {s s' : σ} {a : α} (before : Reachable start s) (meets : ok s a) (next : step a s = some s') :
    Reachable start s'

/-- The state after the steps of a schedule, if they all meet the condition. -/
def run [∀ s a, Decidable (ok s a)] : List α → σ → Option σ
  | [], s => some s
  | a :: schedule, s => if ok s a then (step a s).bind (run schedule) else none

variable {step ok}

theorem Reachable.invariant {P : σ → Prop} {start s : σ} (reachable : Reachable step ok start s) (init : P start)
    (keep : ∀ {s s' a}, P s → ok s a → step a s = some s' → P s') : P s := by
  induction reachable with
  | start => exact init
  | step _ meets next ih => exact keep ih meets next

theorem Reachable.trans {start s s' : σ} (first : Reachable step ok start s) (second : Reachable step ok s s') :
    Reachable step ok start s' := by
  induction second with
  | start => exact first
  | step _ meets next ih => exact .step ih meets next

theorem run_append [∀ s a, Decidable (ok s a)] (first second : List α) (s : σ) :
    run step ok (first ++ second) s = (run step ok first s).bind (run step ok second) := by
  induction first generalizing s with
  | nil => rfl
  | cons a first ih =>
    simp only [List.cons_append, run]
    split
    · cases step a s with
      | none => rfl
      | some s' => exact ih s'
    · rfl

theorem run_reachable [∀ s a, Decidable (ok s a)] {schedule : List α} {start s : σ}
    (result : run step ok schedule start = some s) : Reachable step ok start s := by
  induction schedule generalizing start with
  | nil =>
    obtain rfl := Option.some.inj result
    exact .start
  | cons a schedule ih =>
    rw [run] at result
    split at result
    · next meets =>
      obtain ⟨middle, next, rest⟩ := Option.bind_eq_some_iff.mp result
      exact (Reachable.step .start meets next).trans (ih rest)
    · contradiction

/-! ### Sums over the agents -/

theorem sum_update {β : Type*} (f : Nat → β) (h : Nat → β → Nat) {n i : Nat} (lt : i < n) (x : β) :
    ∑ u ∈ Finset.range n, h u (Function.update f i x u) + h i (f i) = ∑ u ∈ Finset.range n, h u (f u) + h i x := by
  have others : ∑ u ∈ (Finset.range n).erase i, h u (Function.update f i x u) = ∑ u ∈ (Finset.range n).erase i, h u (f u) :=
    Finset.sum_congr rfl fun u member => by rw [Function.update_of_ne (Finset.ne_of_mem_erase member)]
  have after := Finset.add_sum_erase (Finset.range n) (fun u => h u (Function.update f i x u)) (Finset.mem_range.mpr lt)
  have before := Finset.add_sum_erase (Finset.range n) (fun u => h u (f u)) (Finset.mem_range.mpr lt)
  simp only [Function.update_self] at after
  omega

/-- The parts of the others are at most their bounds. -/
theorem sum_le_others {f bound : Nat → Nat} {n i : Nat} (lt : i < n) (le : ∀ u < n, f u ≤ bound u) :
    ∑ u ∈ Finset.range n, f u + bound i ≤ ∑ u ∈ Finset.range n, bound u + f i := by
  have here := Finset.add_sum_erase (Finset.range n) f (Finset.mem_range.mpr lt)
  have bounds := Finset.add_sum_erase (Finset.range n) bound (Finset.mem_range.mpr lt)
  have others : ∑ u ∈ (Finset.range n).erase i, f u ≤ ∑ u ∈ (Finset.range n).erase i, bound u :=
    Finset.sum_le_sum fun u member => le u (Finset.mem_range.mp (Finset.mem_of_mem_erase member))
  omega

theorem sum_zero {f : Nat → Nat} {n : Nat} (zero : ∀ i < n, f i = 0) : ∑ i ∈ Finset.range n, f i = 0 :=
  Finset.sum_eq_zero fun i member => zero i (Finset.mem_range.mp member)

end Straid.Interleavings
