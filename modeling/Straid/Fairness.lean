import Straid.Interleavings
import Mathlib.Data.Nat.Find
import Mathlib.Order.OrderIsoNat

/-!
Endless schedules of agents that take steps on a shared state. Under a fair
schedule every agent has another turn (`Fair.turn`), and what the steps of the
others keep still holds when it comes (`Fair.turn_of`). A measure that no step
makes larger stays the same from some turn on (`exists_constant`), so an agent
whose step would make it smaller from then on has no turn. The states of a
schedule are reachable (`follow_reachable`).
-/
namespace Straid.Fairness
open Interleavings

variable {σ α : Type*} (step : α → σ → Option σ)

/-- The state after the first turns of a schedule. An agent that has no step
    lets its turn pass. -/
def follow (schedule : Nat → α) (start : σ) : Nat → σ
  | 0 => start
  | n + 1 => (step (schedule n) (follow schedule start n)).getD (follow schedule start n)

/-- Every one of the agents has a turn after every turn. -/
def Fair (agents : α → Prop) (schedule : Nat → α) : Prop := ∀ a, agents a → ∀ n, ∃ m, n ≤ m ∧ schedule m = a

theorem follow_succ (schedule : Nat → α) (start : σ) (n : Nat) : follow step schedule start (n + 1) = follow step schedule start n ∨
    step (schedule n) (follow step schedule start n) = some (follow step schedule start (n + 1)) := by
  cases next : step (schedule n) (follow step schedule start n) with
  | none => exact .inl (by rw [follow, next, Option.getD_none])
  | some s => exact .inr (by rw [follow, next, Option.getD_some])

variable {step} {agents : α → Prop} {schedule : Nat → α} {start : σ}

theorem follow_next {n : Nat} {s : σ} (next : step (schedule n) (follow step schedule start n) = some s) :
    follow step schedule start (n + 1) = s := by
  rw [follow, next, Option.getD_some]

theorem follow_reachable (n : Nat) : Reachable step (fun _ _ => True) start (follow step schedule start n) := by
  induction n with
  | zero => exact .start
  | succ n ih =>
    rcases follow_succ step schedule start n with same | next
    · rwa [same]
    · exact .step ih trivial next

/-- The next turn of an agent. -/
theorem Fair.turn (fair : Fair agents schedule) {a : α} (agent : agents a) (n : Nat) :
    ∃ m, n ≤ m ∧ schedule m = a ∧ ∀ k, n ≤ k → k < m → schedule k ≠ a := by
  classical
  have some_turn := fair a agent n
  obtain ⟨low, here⟩ := Nat.find_spec some_turn
  exact ⟨Nat.find some_turn, low, here, fun k after before same => Nat.find_min some_turn before ⟨after, same⟩⟩

/-- What holds, and the turns of the others keep, holds at the next turn of an
    agent. -/
theorem Fair.turn_of (fair : Fair agents schedule) {a : α} (agent : agents a) {Q : Nat → Prop} {n : Nat}
    (stays : ∀ k, n ≤ k → schedule k ≠ a → Q k → Q (k + 1)) (holds : Q n) : ∃ m, n ≤ m ∧ schedule m = a ∧ Q m := by
  obtain ⟨m, low, here, others⟩ := fair.turn agent n
  refine ⟨m, low, here, ?_⟩
  have upto : ∀ k, n ≤ k → k ≤ m → Q k := by
    intro k after
    induction k, after using Nat.le_induction with
    | base => exact fun _ => holds
    | succ k after ih => exact fun before => stays k after (others k after (by omega)) (ih (by omega))
  exact upto m low (Nat.le_refl m)

theorem exists_constant {f : Nat → Nat} (down : ∀ n, f (n + 1) ≤ f n) : ∃ n, ∀ m, n ≤ m → f m = f n := by
  have anti : Antitone f := antitone_nat_of_succ_le down
  obtain ⟨n, same⟩ := WellFoundedGT.monotone_chain_condition (⟨fun n => OrderDual.toDual (f n), anti⟩ : Nat →o Natᵒᵈ)
  exact ⟨n, fun m after => (same m after).symm⟩

end Straid.Fairness
