import Straid.Interleavings
import Mathlib.Data.List.Basic
import Mathlib.Data.List.Nodup
import Mathlib.Data.List.Perm.Basic
import Mathlib.Data.List.Range
import Mathlib.Algebra.Order.BigOperators.Group.List
import Mathlib.Algebra.Order.Ring.Nat

/-!
The workers of `trace_st.cc` and `trace_md.cc` that replay a trace. A request is
put together from three vectors with a shared counter each, and other workers
may take steps in between. Nobody runs past the end of a vector (`proceeds`).
When the workers take the lengths and the directions in the order in which they
took the offsets (`InOrder`), every request is a record, none is issued twice,
and at the end all of the first `W * (n / W)` are issued (`faithful_of_inOrder`).
Otherwise requests mix two records (`mixed_request`).
-/
namespace Straid.TraceReplay
open Interleavings

/-- A loaded trace. The loader appends to all three vectors at once. -/
structure Trace where
  iodir_l : List Bool
  off_l : List Nat
  len_l : List Nat
  off_size : off_l.length = iodir_l.length
  len_size : len_l.length = iodir_l.length

/-- A request as it is issued, before its range is adjusted. -/
structure Request where
  iodir : Bool
  offset : Nat
  length : Nat
  deriving DecidableEq, Repr

/-- Where a worker is in a round of its loop, with the indices at which it took
    what it has so far. -/
inductive Pc
  | off
  | len (off : Nat)
  | iodir (off len : Nat)
  | issue (off len iodir : Nat)
  deriving DecidableEq, Repr

/-- A worker: the rounds it has behind it, and where it is. -/
structure Worker where
  io : Nat
  pc : Pc
  deriving DecidableEq, Repr

/-- The counters, the workers and the requests issued so far. -/
structure System where
  off_cnt : Nat
  len_cnt : Nat
  iodir_cnt : Nat
  workers : Nat → Worker
  issued : List Request

/-- The counters are reset before a trace. -/
def System.start : System := ⟨0, 0, 0, fun _ => ⟨0, .off⟩, []⟩

variable (t : Trace) (W : Nat)

/-- The request of the indices at which its parts were taken. -/
def Trace.request (off len iodir : Nat) : Request :=
  ⟨t.iodir_l.getD iodir false, t.off_l.getD off 0, t.len_l.getD len 0⟩

def Trace.record (i : Nat) : Request := t.request i i i

def Trace.records : List Request := (List.range t.iodir_l.length).map t.record

/-- The number of requests of each worker. -/
def count : Nat := t.iodir_l.length / W

/-- A step of worker `thread_id` of `worker_run`: a `fetch_add` of one of the
    counters with the element it stands for, or the request. A worker has no step
    after its last round, and none when `at` fails. -/
def step (thread_id : Nat) (st : System) : Option System :=
  let w := st.workers thread_id
  if thread_id ≥ W then none
  else
    match w.pc with
    | .off =>
      if w.io < count t W ∧ st.off_cnt < t.off_l.length then
        some { st with
          off_cnt := st.off_cnt + 1
          workers := Function.update st.workers thread_id ⟨w.io, .len st.off_cnt⟩ }
      else none
    | .len off =>
      if st.len_cnt < t.len_l.length then
        some { st with
          len_cnt := st.len_cnt + 1
          workers := Function.update st.workers thread_id ⟨w.io, .iodir off st.len_cnt⟩ }
      else none
    | .iodir off len =>
      if st.iodir_cnt < t.iodir_l.length then
        some { st with
          iodir_cnt := st.iodir_cnt + 1
          workers := Function.update st.workers thread_id ⟨w.io, .issue off len st.iodir_cnt⟩ }
      else none
    | .issue off len iodir =>
      some { st with
        issued := st.issued ++ [t.request off len iodir]
        workers := Function.update st.workers thread_id ⟨w.io + 1, .off⟩ }

/-- The worker takes a length or a direction in its turn: at the index at which
    it took the offset. -/
def InOrder (st : System) (thread_id : Nat) : Prop :=
  match (st.workers thread_id).pc with
  | .len off => st.len_cnt = off
  | .iodir off _ => st.iodir_cnt = off
  | _ => True

instance (st : System) (thread_id : Nat) : Decidable (InOrder st thread_id) := by
  unfold InOrder
  split <;> infer_instance

/-- The worker has its last round behind it. -/
def Done (st : System) (thread_id : Nat) : Prop :=
  (st.workers thread_id).pc = .off ∧ ¬ (st.workers thread_id).io < count t W

/-- The requests are records: none mixes two, none is issued twice, and none of
    the first `W * (n / W)` is left out when all workers are done, which nothing
    keeps them from. -/
structure Faithful (st : System) : Prop where
  unmixed : ∃ indices : List Nat, indices.Nodup ∧ (∀ i ∈ indices, i < W * count t W) ∧ st.issued = indices.map t.record
  complete : (∀ thread_id < W, Done t W st thread_id) → st.issued.Perm (t.records.take (W * count t W))
  proceeds : ∀ thread_id < W, ¬ Done t W st thread_id → (step t W thread_id st).isSome

variable {t W}

/-! ### Steps -/

/-- The four steps of a worker. -/
theorem step_cases {thread_id : Nat} {st st' : System} (next : step t W thread_id st = some st') :
    thread_id < W ∧
    (((st.workers thread_id).pc = .off ∧ (st.workers thread_id).io < count t W ∧ st' = { st with
        off_cnt := st.off_cnt + 1
        workers := Function.update st.workers thread_id ⟨(st.workers thread_id).io, .len st.off_cnt⟩ }) ∨
      (∃ off, (st.workers thread_id).pc = .len off ∧ st' = { st with
        len_cnt := st.len_cnt + 1
        workers := Function.update st.workers thread_id ⟨(st.workers thread_id).io, .iodir off st.len_cnt⟩ }) ∨
      (∃ off len, (st.workers thread_id).pc = .iodir off len ∧ st' = { st with
        iodir_cnt := st.iodir_cnt + 1
        workers := Function.update st.workers thread_id ⟨(st.workers thread_id).io, .issue off len st.iodir_cnt⟩ }) ∨
      (∃ off len iodir, (st.workers thread_id).pc = .issue off len iodir ∧ st' = { st with
        issued := st.issued ++ [t.request off len iodir]
        workers := Function.update st.workers thread_id ⟨(st.workers thread_id).io + 1, .off⟩ })) := by
  unfold step at next
  split at next
  · contradiction
  · next lt =>
    refine ⟨by omega, ?_⟩
    cases at_pc : (st.workers thread_id).pc with
    | off =>
      simp only [at_pc, Option.ite_none_right_eq_some, Option.some.injEq] at next
      exact .inl ⟨rfl, next.1.1, next.2.symm⟩
    | len off =>
      simp only [at_pc, Option.ite_none_right_eq_some, Option.some.injEq] at next
      exact .inr (.inl ⟨off, rfl, next.2.symm⟩)
    | iodir off len =>
      simp only [at_pc, Option.ite_none_right_eq_some, Option.some.injEq] at next
      exact .inr (.inr (.inl ⟨off, len, rfl, next.2.symm⟩))
    | issue off len iodir =>
      simp only [at_pc, Option.some.injEq] at next
      exact .inr (.inr (.inr ⟨off, len, iodir, rfl, next.symm⟩))

/-! ### Counting -/

/-- How many counters a worker has advanced in its round. -/
def Pc.taken : Pc → Nat
  | .off => 0
  | .len _ => 1
  | .iodir _ _ => 2
  | .issue _ _ _ => 3

/-- How often a worker has advanced counter `k`. -/
def Worker.advanced (k : Nat) (w : Worker) : Nat := w.io + min 1 (w.pc.taken - k)

/-- How often the workers have advanced counter `k`. -/
def total (W : Nat) (workers : Nat → Worker) (k : Nat) : Nat :=
  ((List.range W).map fun thread_id => (workers thread_id).advanced k).sum

/-- A counter stands at the number of times it was advanced, and no worker has
    begun more rounds than it has. -/
structure Counted (t : Trace) (W : Nat) (st : System) : Prop where
  off : st.off_cnt = total W st.workers 0
  len : st.len_cnt = total W st.workers 1
  iodir : st.iodir_cnt = total W st.workers 2
  rounds : ∀ thread_id, (st.workers thread_id).advanced 0 ≤ count t W

/-- The workers below `W`, with one of them in front. -/
theorem workers_perm {thread_id : Nat} (lt : thread_id < W) :
    (List.range W).Perm (thread_id :: (List.range W).erase thread_id) :=
  List.perm_cons_erase (List.mem_range.mpr lt)

theorem other_worker {thread_id u : Nat} (member : u ∈ (List.range W).erase thread_id) : u ≠ thread_id :=
  (List.nodup_range.mem_erase_iff.mp member).1

theorem total_split (workers : Nat → Worker) (k : Nat) {thread_id : Nat} (lt : thread_id < W) :
    total W workers k = (workers thread_id).advanced k +
      (((List.range W).erase thread_id).map fun u => (workers u).advanced k).sum := by
  rw [total, ((workers_perm lt).map _).sum_eq, List.map_cons, List.sum_cons]

/-- One worker changes the total by its own change. -/
theorem total_update (workers : Nat → Worker) (k : Nat) {thread_id : Nat} (lt : thread_id < W) (w : Worker) :
    total W (Function.update workers thread_id w) k + (workers thread_id).advanced k =
      total W workers k + w.advanced k := by
  have others : (((List.range W).erase thread_id).map fun u => (Function.update workers thread_id w u).advanced k) =
      ((List.range W).erase thread_id).map fun u => (workers u).advanced k := by
    refine List.map_congr_left fun u member => ?_
    rw [Function.update_of_ne (other_worker member)]
  rw [total_split _ k lt, total_split workers k lt, others, Function.update_self]
  omega

theorem counted_start : Counted t W System.start where
  off := by simp [total, System.start, Worker.advanced, Pc.taken]
  len := by simp [total, System.start, Worker.advanced, Pc.taken]
  iodir := by simp [total, System.start, Worker.advanced, Pc.taken]
  rounds thread_id := Nat.zero_le _

/-- A worker and the counters change by the same. -/
theorem counted_update {thread_id : Nat} {st : System} (counted : Counted t W st) (lt : thread_id < W) {w : Worker}
    {off_cnt len_cnt iodir_cnt : Nat} (issued : List Request)
    (off : off_cnt + (st.workers thread_id).advanced 0 = st.off_cnt + w.advanced 0)
    (len : len_cnt + (st.workers thread_id).advanced 1 = st.len_cnt + w.advanced 1)
    (iodir : iodir_cnt + (st.workers thread_id).advanced 2 = st.iodir_cnt + w.advanced 2)
    (rounds : w.advanced 0 ≤ count t W) :
    Counted t W ⟨off_cnt, len_cnt, iodir_cnt, Function.update st.workers thread_id w, issued⟩ where
  off := by
    have change := total_update st.workers 0 lt w
    have before := counted.off
    simp only
    omega
  len := by
    have change := total_update st.workers 1 lt w
    have before := counted.len
    simp only
    omega
  iodir := by
    have change := total_update st.workers 2 lt w
    have before := counted.iodir
    simp only
    omega
  rounds u := by
    by_cases same : u = thread_id
    · simpa only [same, Function.update_self] using rounds
    · simpa only [Function.update_of_ne same] using counted.rounds u

/-- Every step advances the counter that it says it does. -/
theorem counted_step {thread_id : Nat} {st st' : System} (counted : Counted t W st)
    (next : step t W thread_id st = some st') : Counted t W st' := by
  obtain ⟨lt, cases⟩ := step_cases next
  have own := counted.rounds thread_id
  rcases cases with ⟨pc, more, rfl⟩ | ⟨off, pc, rfl⟩ | ⟨off, len, pc, rfl⟩ | ⟨off, len, iodir, pc, rfl⟩ <;>
    simp only [Worker.advanced, pc, Pc.taken] at own <;>
    apply counted_update counted lt <;> simp only [Worker.advanced, pc, Pc.taken] <;> omega

/-! ### Proceeding -/

theorem sum_le {n : Nat} {f : Nat → Nat} (few : ∀ u, f u ≤ n) (ids : List Nat) : (ids.map f).sum ≤ ids.length * n := by
  induction ids with
  | nil => simp
  | cons u ids ih =>
    have first := few u
    rw [List.map_cons, List.sum_cons, List.length_cons, Nat.succ_mul]
    omega

theorem advanced_mono (w : Worker) (k : Nat) : w.advanced k ≤ w.advanced 0 := by
  unfold Worker.advanced
  omega

/-- All counters stay within the rounds of all workers, and below while a worker
    that has a round to do has not advanced the counter in it. -/
theorem total_lt {st : System} (counted : Counted t W st) (k : Nat) {thread_id : Nat} (lt : thread_id < W)
    (behind : (st.workers thread_id).advanced k < count t W) : total W st.workers k < W * count t W := by
  have each : ∀ u, (st.workers u).advanced k ≤ count t W := fun u =>
    Nat.le_trans (advanced_mono _ k) (counted.rounds u)
  have others := sum_le each ((List.range W).erase thread_id)
  have number : ((List.range W).erase thread_id).length + 1 = W := by
    rw [List.length_erase_of_mem (List.mem_range.mpr lt), List.length_range]
    omega
  have product : W * count t W = ((List.range W).erase thread_id).length * count t W + count t W := by
    rw [← Nat.succ_mul, Nat.succ_eq_add_one, number]
  rw [total_split st.workers k lt]
  omega

theorem rounds_le (t : Trace) (W : Nat) : W * count t W ≤ t.iodir_l.length := Nat.mul_div_le _ _

/-- A worker that is not done has a step: `at` does not fail. -/
theorem step_exists {st : System} (counted : Counted t W st) {thread_id : Nat} (lt : thread_id < W)
    (todo : ¬ Done t W st thread_id) : (step t W thread_id st).isSome := by
  have all := rounds_le t W
  have off_size := t.off_size
  have len_size := t.len_size
  have begun := counted.rounds thread_id
  have below := fun k behind => total_lt counted k lt behind
  rw [step, if_neg (by omega)]
  cases at_pc : (st.workers thread_id).pc with
  | off =>
    have more : (st.workers thread_id).io < count t W := by
      by_contra last
      exact todo ⟨at_pc, last⟩
    have room := below 0 (by simpa [Worker.advanced, at_pc, Pc.taken] using more)
    rw [← counted.off] at room
    simp only
    rw [if_pos ⟨more, by omega⟩]
    rfl
  | len off =>
    simp only [Worker.advanced, at_pc, Pc.taken] at begun below
    have room := below 1 (by omega)
    rw [← counted.len] at room
    simp only
    rw [if_pos (by omega)]
    rfl
  | iodir off len =>
    simp only [Worker.advanced, at_pc, Pc.taken] at begun below
    have room := below 2 (by omega)
    rw [← counted.iodir] at room
    simp only
    rw [if_pos (by omega)]
    rfl
  | issue off len iodir => rfl

/-! ### Tickets -/

/-- The index at which a worker took the offset of its round. -/
def Pc.ticket : Pc → Option Nat
  | .off => none
  | .len i => some i
  | .iodir i _ => some i
  | .issue i _ _ => some i

/-- The tickets of the workers. -/
def held (W : Nat) (workers : Nat → Worker) : List Nat :=
  (List.range W).filterMap fun thread_id => (workers thread_id).pc.ticket

/-- The parts of a request are taken at one index, and every index that the
    offset counter has passed is that of an issued request or of a worker. -/
structure Ordered (t : Trace) (W : Nat) (st : System) : Prop where
  iodir : ∀ thread_id off len, (st.workers thread_id).pc = .iodir off len → len = off
  issue : ∀ thread_id off len iodir, (st.workers thread_id).pc = .issue off len iodir → len = off ∧ iodir = off
  tickets : ∃ indices : List Nat, st.issued = indices.map t.record ∧
    (indices ++ held W st.workers).Perm (List.range st.off_cnt)

theorem ordered_start : Ordered t W System.start where
  iodir _ _ _ at_iodir := by cases at_iodir
  issue _ _ _ _ at_issue := by cases at_issue
  tickets := ⟨[], rfl, by simp [held, System.start, Pc.ticket]⟩

theorem held_same {workers : Nat → Worker} {thread_id : Nat} {w : Worker}
    (ticket : w.pc.ticket = (workers thread_id).pc.ticket) : held W (Function.update workers thread_id w) = held W workers := by
  unfold held
  refine List.filterMap_congr fun u _ => ?_
  by_cases same : u = thread_id
  · rw [same, Function.update_self, ticket]
  · rw [Function.update_of_ne same]

/-- A worker without a ticket takes one. -/
theorem held_take (workers : Nat → Worker) {thread_id i : Nat} (lt : thread_id < W)
    (without : (workers thread_id).pc.ticket = none) {w : Worker} (ticket : w.pc.ticket = some i) :
    (held W (Function.update workers thread_id w)).Perm (i :: held W workers) := by
  have others : ((List.range W).erase thread_id).filterMap (fun u => (Function.update workers thread_id w u).pc.ticket) =
      ((List.range W).erase thread_id).filterMap fun u => (workers u).pc.ticket := by
    refine List.filterMap_congr fun u member => ?_
    rw [Function.update_of_ne (other_worker member)]
  have after := (workers_perm lt).filterMap fun u => (Function.update workers thread_id w u).pc.ticket
  have before := (workers_perm lt).filterMap fun u => (workers u).pc.ticket
  rw [List.filterMap_cons, Function.update_self, ticket, others] at after
  rw [List.filterMap_cons, without] at before
  exact after.trans (before.symm.cons i)

/-- A worker gives its ticket back. -/
theorem held_give (workers : Nat → Worker) {thread_id i : Nat} (lt : thread_id < W)
    (ticket : (workers thread_id).pc.ticket = some i) {w : Worker} (without : w.pc.ticket = none) :
    (held W workers).Perm (i :: held W (Function.update workers thread_id w)) := by
  have back := held_take (Function.update workers thread_id w) lt (by rw [Function.update_self]; exact without) ticket
  rwa [Function.update_idem, Function.update_eq_self] at back

/-- Where a worker is after one of them has moved. -/
theorem pc_update {workers : Nat → Worker} {thread_id u : Nat} {w : Worker} {pc : Pc}
    (at_pc : (Function.update workers thread_id w u).pc = pc) : w.pc = pc ∨ (workers u).pc = pc := by
  by_cases same : u = thread_id
  · rw [same, Function.update_self] at at_pc
    exact .inl at_pc
  · rw [Function.update_of_ne same] at at_pc
    exact .inr at_pc

theorem ordered_step {thread_id : Nat} {st st' : System} (ordered : Ordered t W st) (in_order : InOrder st thread_id)
    (next : step t W thread_id st = some st') : Ordered t W st' := by
  obtain ⟨indices, issued, perm⟩ := ordered.tickets
  obtain ⟨lt, cases⟩ := step_cases next
  rcases cases with ⟨pc, _, rfl⟩ | ⟨off, pc, rfl⟩ | ⟨off, len, pc, rfl⟩ | ⟨off, len, iodir, pc, rfl⟩
  · -- The offset: the next index is a new ticket.
    refine ⟨?_, ?_, indices, issued, ?_⟩
    · intro u off len at_iodir
      rcases pc_update at_iodir with own | other
      · cases own
      · exact ordered.iodir u off len other
    · intro u off len iodir at_issue
      rcases pc_update at_issue with own | other
      · cases own
      · exact ordered.issue u off len iodir other
    · have taken := held_take st.workers lt (by rw [pc]; rfl)
        (w := ⟨(st.workers thread_id).io, .len st.off_cnt⟩) rfl
      have moved := (taken.append_left indices).trans List.perm_middle
      rw [List.range_succ]
      exact moved.trans ((perm.cons _).trans (List.perm_append_singleton ..).symm)
  · -- The length, in turn: it is taken at the index of the ticket.
    have turn : st.len_cnt = off := by
      unfold InOrder at in_order
      rwa [pc] at in_order
    refine ⟨?_, ?_, indices, issued, ?_⟩
    · intro u o len at_iodir
      rcases pc_update at_iodir with own | other
      · cases own
        exact turn
      · exact ordered.iodir u o len other
    · intro u o len iodir at_issue
      rcases pc_update at_issue with own | other
      · cases own
      · exact ordered.issue u o len iodir other
    · rw [held_same (by rw [pc]; rfl)]
      exact perm
  · -- The direction, in turn.
    have turn : st.iodir_cnt = off := by
      unfold InOrder at in_order
      rwa [pc] at in_order
    refine ⟨?_, ?_, indices, issued, ?_⟩
    · intro u o l at_iodir
      rcases pc_update at_iodir with own | other
      · cases own
      · exact ordered.iodir u o l other
    · intro u o l i at_issue
      rcases pc_update at_issue with own | other
      · cases own
        exact ⟨ordered.iodir thread_id off len pc, turn⟩
      · exact ordered.issue u o l i other
    · rw [held_same (by rw [pc]; rfl)]
      exact perm
  · -- The request: the ticket is used.
    obtain ⟨same_len, same_iodir⟩ := ordered.issue thread_id off len iodir pc
    subst len iodir
    refine ⟨?_, ?_, indices ++ [off], ?_, ?_⟩
    · intro u o l at_iodir
      rcases pc_update at_iodir with own | other
      · cases own
      · exact ordered.iodir u o l other
    · intro u o l i at_issue
      rcases pc_update at_issue with own | other
      · cases own
      · exact ordered.issue u o l i other
    · rw [List.map_append, issued]
      rfl
    · have given := held_give st.workers (w := ⟨(st.workers thread_id).io + 1, .off⟩) lt
        (by rw [pc]; rfl) rfl
      rw [List.append_assoc]
      exact (given.symm.append_left indices).trans perm

/-! ### Runs -/

theorem off_cnt_le {st : System} (counted : Counted t W st) : st.off_cnt ≤ W * count t W := by
  have all := sum_le counted.rounds (List.range W)
  rw [counted.off]
  rwa [List.length_range] at all

/-- When all workers are done, the offset counter has passed all their rounds. -/
theorem off_cnt_done {st : System} (counted : Counted t W st) (done : ∀ thread_id < W, Done t W st thread_id) :
    st.off_cnt = W * count t W := by
  have each : ∀ u ∈ List.range W, (st.workers u).advanced 0 = count t W := by
    intro u member
    obtain ⟨at_off, last⟩ := done u (List.mem_range.mp member)
    have begun := counted.rounds u
    simp only [Worker.advanced, at_off, Pc.taken] at begun ⊢
    omega
  rw [counted.off, total, List.map_congr_left each, List.map_const', List.sum_replicate_nat, List.length_range]

theorem held_done {st : System} (done : ∀ thread_id < W, Done t W st thread_id) : held W st.workers = [] := by
  refine List.filterMap_eq_nil_iff.mpr fun u member => ?_
  rw [(done u (List.mem_range.mp member)).1]
  rfl

theorem faithful_of_ordered {st : System} (counted : Counted t W st) (ordered : Ordered t W st) : Faithful t W st := by
  obtain ⟨indices, issued, perm⟩ := ordered.tickets
  have below := off_cnt_le counted
  constructor
  · refine ⟨indices, ?_, ?_, issued⟩
    · exact (List.nodup_append.mp (perm.nodup_iff.mpr List.nodup_range)).1
    · intro i member
      have passed := List.mem_range.mp (perm.subset (List.mem_append_left _ member))
      omega
  · intro done
    have all := rounds_le t W
    rw [held_done done, List.append_nil, off_cnt_done counted done] at perm
    rw [issued, Trace.records, ← List.map_take, List.take_range, Nat.min_eq_left all]
    exact perm.map _
  · intro thread_id lt todo
    exact step_exists counted lt todo

/-- In every run whose workers take the lengths and the directions in their
    turns, the requests are the records. -/
theorem faithful_of_inOrder {st : System} (reachable : Reachable (step t W) InOrder System.start st) : Faithful t W st := by
  have both : Counted t W st ∧ Ordered t W st := by
    refine reachable.invariant (P := fun st => Counted t W st ∧ Ordered t W st) ⟨counted_start, ordered_start⟩ ?_
    intro before after thread_id inv in_order next
    exact ⟨counted_step inv.1 next, ordered_step inv.2 in_order next⟩
  exact faithful_of_ordered both.1 both.2

/-- A read and a write. -/
def two_records : Trace := ⟨[false, true], [4096, 8192], [512, 1024], rfl, rfl⟩

/-- Two workers that take their turns: the second starts while the first has its
    offset, and waits for it. -/
theorem faithful_two_workers : ∃ st, Reachable (step two_records 2) InOrder System.start st ∧
    st.issued = [⟨true, 8192, 1024⟩, ⟨false, 4096, 512⟩] ∧ Faithful two_records 2 st := by
  have result : (run (step two_records 2) InOrder [0, 1, 0, 1, 0, 1, 1, 0] System.start).map System.issued =
      some [⟨true, 8192, 1024⟩, ⟨false, 4096, 512⟩] := by decide +kernel
  obtain ⟨st, reached, issued⟩ := Option.map_eq_some_iff.mp result
  have reachable := run_reachable reached
  exact ⟨st, reachable, issued, faithful_of_inOrder reachable⟩

/-- As many records as there are workers, no two with the same offset or
    length. -/
def many_records : Trace where
  iodir_l := List.replicate 32 true
  off_l := (List.range 32).map (4096 * ·)
  len_l := (List.range 32).map fun i => 4096 * (i + 1)
  off_size := by decide
  len_size := by decide

/-- The first worker takes its offset, the second one its offset and the length
    of the first: it issues the offset of record 1 with the length of record 0. -/
theorem mixed_request : ∃ st, Reachable (step many_records 32) (fun _ _ => True) System.start st ∧
    st.issued = [⟨true, 4096, 4096⟩] ∧ ¬ Faithful many_records 32 st := by
  have result : (run (step many_records 32) (fun _ _ => True) [0, 1, 1, 1, 1] System.start).map System.issued =
      some [⟨true, 4096, 4096⟩] := by decide +kernel
  obtain ⟨st, reached, issued⟩ := Option.map_eq_some_iff.mp result
  refine ⟨st, run_reachable reached, issued, fun faithful => ?_⟩
  obtain ⟨indices, _, below, same⟩ := faithful.unmixed
  have there : (⟨true, 4096, 4096⟩ : Request) ∈ indices.map many_records.record := by
    rw [← same, issued]
    exact List.mem_cons_self
  obtain ⟨i, member, record⟩ := List.mem_map.mp there
  have none_of : ∀ i < 32 * count many_records 32, many_records.record i ≠ ⟨true, 4096, 4096⟩ := by decide +kernel
  exact none_of i (below i member) record

end Straid.TraceReplay
