import Straid.Define
import Mathlib.Data.List.Induction

/-!
The ring of a thread between two submissions. A ring has `RING_QD` entries, and
the code uses the pointer that `io_uring_get_sqe` returns without a check. Paths
prepare runs of entries and submit after each; they fit exactly when no run is
longer than the ring (`fits_runs_iff`).
-/
namespace Straid.Rings

/-- `RING_QD`, the number of entries of a ring. -/
def RING_QD : Nat := 32

/-- What a path does with its ring: the preparation of an entry by
    `iouring_rprep` or `iouring_wprep`, and `io_uring_submit`. -/
inductive RingOp
  | prep
  | submit
  deriving DecidableEq

/-- `io_uring_get_sqe`, with the number of entries that are prepared: `none` for
    `NULL`. -/
def io_uring_get_sqe (pending : Nat) : Option Nat := if pending = RING_QD then none else some (pending + 1)

def ring_step (pending : Nat) : RingOp → Option Nat
  | .prep => io_uring_get_sqe pending
  | .submit => some 0

/-- The entries that are prepared after some operations, when no pointer was
    `NULL`. -/
def ring_run (pending : Nat) (ops : List RingOp) : Option Nat := ops.foldlM ring_step pending

/-- The entries that are prepared since the last submission. -/
def prepared : List RingOp → Nat := List.foldl (fun n op => match op with | .prep => n + 1 | .submit => 0) 0

/-- The ring is never overfilled, and no pointer is `NULL`. -/
structure Fits (ops : List RingOp) : Prop where
  bounded : ∀ before after, ops = before ++ after → prepared before ≤ RING_QD
  never_null : ∃ pending, ring_run 0 ops = some pending

/-- Runs of entries with a submission after each. -/
def runs (counts : List Nat) : List RingOp := counts.flatMap fun n => List.replicate n .prep ++ [.submit]

/-- A loop that prepares an entry in every round. -/
def prep_each {α : Type*} (rounds : List α) : List RingOp := rounds.map fun _ => .prep

theorem prepared_prep (ops : List RingOp) : prepared (ops ++ [.prep]) = prepared ops + 1 := by
  simp [prepared]

theorem prepared_submit (ops : List RingOp) : prepared (ops ++ [.submit]) = 0 := by
  simp [prepared]

/-- A ring that starts empty has the prepared entries pending, as long as there
    is room for them. -/
theorem ring_run_prepared {ops : List RingOp} (bounded : ∀ before after, ops = before ++ after → prepared before ≤ RING_QD) :
    ring_run 0 ops = some (prepared ops) := by
  induction ops using List.reverseRecOn with
  | nil => rfl
  | append_singleton ops op ih =>
    have before := ih fun before after split => bounded before (after ++ [op]) (by rw [split, List.append_assoc])
    rw [ring_run, List.foldlM_append, ← ring_run, before]
    cases op with
    | prep =>
      have room := bounded (ops ++ [.prep]) [] (List.append_nil _).symm
      rw [prepared_prep] at room ⊢
      simp only [List.foldlM_cons, List.foldlM_nil, ring_step, io_uring_get_sqe]
      rw [Option.bind_eq_bind, Option.bind_some, if_neg (by omega)]
      rfl
    | submit =>
      rw [prepared_submit]
      rfl

/-- The entries that are pending, when no pointer was `NULL`, are the prepared
    ones, and there was room for them. -/
theorem ring_run_some {ops : List RingOp} {pending : Nat} (result : ring_run 0 ops = some pending) :
    pending = prepared ops ∧ pending ≤ RING_QD := by
  induction ops using List.reverseRecOn generalizing pending with
  | nil =>
    obtain rfl := Option.some.inj result
    exact ⟨rfl, Nat.zero_le _⟩
  | append_singleton ops op ih =>
    rw [ring_run, List.foldlM_append, ← ring_run] at result
    obtain ⟨before, earlier, last⟩ := Option.bind_eq_some_iff.mp result
    obtain ⟨rfl, room⟩ := ih earlier
    rw [List.foldlM_cons] at last
    obtain ⟨after, step, same⟩ := Option.bind_eq_some_iff.mp last
    obtain rfl := Option.some.inj same
    cases op with
    | prep =>
      rw [ring_step, io_uring_get_sqe, Option.ite_none_left_eq_some, Option.some.injEq] at step
      rw [prepared_prep]
      omega
    | submit =>
      obtain rfl := Option.some.inj step
      exact ⟨(prepared_submit ops).symm, Nat.zero_le _⟩

/-- A ring that gives no `NULL` is never overfilled. -/
theorem fits_iff (ops : List RingOp) : Fits ops ↔ ∃ pending, ring_run 0 ops = some pending := by
  refine ⟨Fits.never_null, fun run => ⟨?_, run⟩⟩
  rintro before after rfl
  obtain ⟨_, run⟩ := run
  rw [ring_run, List.foldlM_append, ← ring_run] at run
  obtain ⟨pending, earlier, _⟩ := Option.bind_eq_some_iff.mp run
  obtain ⟨rfl, room⟩ := ring_run_some earlier
  exact room

/-- The entries of one run, after operations that leave none pending. -/
theorem prepared_run {before : List RingOp} (none : prepared before = 0) (n : Nat) :
    prepared (before ++ List.replicate n .prep) = n := by
  induction n with
  | zero => rw [List.replicate_zero, List.append_nil, none]
  | succ n ih => rw [List.replicate_succ', ← List.append_assoc, prepared_prep, ih]

theorem prepared_runs (counts : List Nat) : prepared (runs counts) = 0 := by
  induction counts using List.reverseRecOn with
  | nil => rfl
  | append_singleton counts n _ =>
    rw [runs, List.flatMap_append, List.flatMap_singleton, ← List.append_assoc, prepared_submit]

/-- A beginning of some runs ends inside one of them. -/
theorem runs_split {counts : List Nat} {before after : List RingOp} (split : runs counts = before ++ after) :
    prepared before = 0 ∨ ∃ n ∈ counts, prepared before ≤ n := by
  induction counts using List.reverseRecOn generalizing before after with
  | nil =>
    obtain ⟨rfl, _⟩ := List.append_eq_nil_iff.mp split.symm
    exact .inl rfl
  | append_singleton counts n ih =>
    rw [runs, List.flatMap_append, List.flatMap_singleton] at split
    rcases List.append_eq_append_iff.mp split with ⟨run, rfl, rest⟩ | ⟨rest, earlier, _⟩
    · -- The beginning ends in the last run.
      refine .inr ⟨n, by simp, ?_⟩
      rcases List.append_eq_append_iff.mp rest with ⟨last, rfl, one⟩ | ⟨rest, entries, _⟩
      · cases last with
        | nil => rw [List.append_nil, ← runs, prepared_run (prepared_runs counts)]
        | cons op last =>
          obtain ⟨rfl, none⟩ := List.cons_eq_cons.mp one
          obtain ⟨rfl, _⟩ := List.append_eq_nil_iff.mp none.symm
          rw [← List.append_assoc, prepared_submit]
          exact Nat.zero_le n
      · have few := congrArg List.length entries
        rw [List.length_replicate, List.length_append] at few
        have same : run = List.replicate run.length .prep := List.eq_replicate_of_mem fun op member =>
          List.eq_of_mem_replicate (entries ▸ List.mem_append_left _ member)
        rw [same, ← runs, prepared_run (prepared_runs counts)]
        omega
    · rcases ih earlier with none | ⟨m, member, few⟩
      · exact .inl none
      · exact .inr ⟨m, List.mem_append_left _ member, few⟩

/-- Runs of entries fit exactly when each of them does. -/
theorem fits_runs_iff (counts : List Nat) : Fits (runs counts) ↔ ∀ n ∈ counts, n ≤ RING_QD := by
  constructor
  · intro fits n member
    obtain ⟨earlier, later, rfl⟩ := List.append_of_mem member
    have bound := fits.bounded (runs earlier ++ List.replicate n .prep) (.submit :: runs later) (by simp [runs])
    rwa [prepared_run (prepared_runs earlier)] at bound
  · intro room
    have bounded : ∀ before after, runs counts = before ++ after → prepared before ≤ RING_QD := by
      intro before after split
      rcases runs_split split with none | ⟨n, member, few⟩
      · omega
      · exact Nat.le_trans few (room n member)
    exact ⟨bounded, _, ring_run_prepared bounded⟩

theorem prep_each_eq {α : Type*} (rounds : List α) : prep_each rounds = List.replicate rounds.length .prep := List.map_const' ..

/-- A loop of preparations and a submission. -/
theorem prep_submit_iff {α : Type*} (rounds : List α) :
    (∃ pending, ring_run 0 (prep_each rounds ++ [.submit]) = some pending) ↔ rounds.length ≤ RING_QD := by
  have one : prep_each rounds ++ [.submit] = runs [rounds.length] := by simp [prep_each_eq, runs]
  rw [← fits_iff, one, fits_runs_iff]
  simp

end Straid.Rings
