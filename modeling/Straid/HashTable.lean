import Straid.Interleavings
import Straid.Metadata
import Mathlib.Data.List.Basic

/-!
Concurrent calls of `searchget_SST` of `SShashtable`. Looking up a stripe and
inserting an entry for it are two steps. A call that finds an entry gives it to
the caller, and as long as all do, there is one entry for each stripe
(`one_entry_of_found`). A call that finds none makes an entry that shadows the
one of the caller, and puts it in the place of whatever another thread has
inserted: the table hands out one entry for each stripe exactly when no call has
returned from there (`one_entry_iff`).
-/
namespace Straid.HashTable
open Interleavings
open Metadata (SSTEntry)

/-- A call of `searchget_SST`: the stripe and what the variable that it is given
    for the entry holds. A pointer is the index of an entry in the heap, or `none`
    for `NULL`. -/
structure Call where
  stripeid : Nat
  entry : Option Nat
  deriving DecidableEq, Repr

/-- What a call returns, with the variable as it leaves it. -/
structure Return where
  stripeid : Nat
  ret : Bool
  entry : Option Nat
  deriving DecidableEq, Repr

/-- Where a thread is in a call: before `find`, or before `insert_or_assign` of
    the entry that it has made. -/
inductive Pc
  | find
  | insert (entry : Nat)
  deriving DecidableEq, Repr

/-- A thread: the calls it has behind it, and where it is in the next one. -/
structure Thread where
  calls : Nat
  pc : Pc
  deriving DecidableEq, Repr

/-- The table, the entries made so far, the threads and the calls that have
    returned. -/
structure System where
  tablehash : Nat → Option Nat
  heap : List SSTEntry
  threads : Nat → Thread
  returned : List Return

/-- A table with the entries of earlier calls. -/
def System.start (tablehash : Nat → Option Nat) (heap : List SSTEntry) : System :=
  ⟨tablehash, heap, fun _ => ⟨0, .find⟩, []⟩

def search_SST (st : System) (stripeid : Nat) : Option Nat := st.tablehash stripeid

/-- The thread moves on to its next call. -/
def System.leave (st : System) (thread_id : Nat) (r : Return) : System :=
  { st with
    threads := Function.update st.threads thread_id ⟨(st.threads thread_id).calls + 1, .find⟩
    returned := st.returned ++ [r] }

variable (calls : Nat → List Call)

/-- A step of `searchget_SST` of a thread: `find`, with `new SSTEntry` when it
    finds nothing, or `insert_or_assign`. -/
def step (thread_id : Nat) (st : System) : Option System :=
  match (calls thread_id)[(st.threads thread_id).calls]? with
  | none => none
  | some call =>
    match (st.threads thread_id).pc with
    | .find =>
      match st.tablehash call.stripeid with
      | some entry => some (st.leave thread_id ⟨call.stripeid, true, some entry⟩)
      | none => some { st with
          heap := st.heap ++ [⟨thread_id, false, false⟩]
          threads := Function.update st.threads thread_id ⟨(st.threads thread_id).calls, .insert st.heap.length⟩ }
    | .insert entry =>
      -- The variable of the caller is another one than that of the new entry.
      some (System.leave { st with tablehash := Function.update st.tablehash call.stripeid (some entry) } thread_id
        ⟨call.stripeid, false, call.entry⟩)

/-- Every call that has returned has given its caller the entry that the table
    has for the stripe, and all callers for a stripe the same one. -/
structure OneEntry (st : System) : Prop where
  found : ∀ r ∈ st.returned, ∃ entry, r.entry = some entry ∧ search_SST st r.stripeid = some entry
  same : ∀ r ∈ st.returned, ∀ r' ∈ st.returned, r.stripeid = r'.stripeid → r.entry = r'.entry

/-- The step is not the insertion of a call that has found nothing. -/
def Finds (st : System) (thread_id : Nat) : Prop := (st.threads thread_id).pc = .find

instance (st : System) (thread_id : Nat) : Decidable (Finds st thread_id) := inferInstanceAs (Decidable (_ = _))

variable {calls}

/-- The three steps of a thread. -/
theorem step_cases {thread_id : Nat} {st st' : System} (next : step calls thread_id st = some st') :
    ∃ call ∈ calls thread_id,
      ((∃ entry, (st.threads thread_id).pc = .find ∧ st.tablehash call.stripeid = some entry ∧
          st' = st.leave thread_id ⟨call.stripeid, true, some entry⟩) ∨
        ((st.threads thread_id).pc = .find ∧ st.tablehash call.stripeid = none ∧ st' = { st with
          heap := st.heap ++ [⟨thread_id, false, false⟩]
          threads := Function.update st.threads thread_id ⟨(st.threads thread_id).calls, .insert st.heap.length⟩ }) ∨
        ∃ entry, (st.threads thread_id).pc = .insert entry ∧ st' = System.leave { st with
          tablehash := Function.update st.tablehash call.stripeid (some entry) } thread_id
          ⟨call.stripeid, false, call.entry⟩) := by
  unfold step at next
  cases now : (calls thread_id)[(st.threads thread_id).calls]? with
  | none => simp [now] at next
  | some call =>
    refine ⟨call, List.mem_of_getElem? now, ?_⟩
    cases pc : (st.threads thread_id).pc with
    | find =>
      cases there : st.tablehash call.stripeid with
      | some entry =>
        simp only [now, pc, there, Option.some.injEq] at next
        exact .inl ⟨entry, rfl, rfl, next.symm⟩
      | none =>
        simp only [now, pc, there, Option.some.injEq] at next
        exact .inr (.inl ⟨rfl, rfl, next.symm⟩)
    | insert entry =>
      simp only [now, pc, Option.some.injEq] at next
      exact .inr (.inr ⟨entry, rfl, next.symm⟩)

variable {ok : System → Nat → Prop} {tablehash : Nat → Option Nat} {heap : List SSTEntry}

/-- As long as no call has returned from an insertion, the table is as at the
    start, and every call has what it found there. -/
structure Untouched (tablehash : Nat → Option Nat) (st : System) : Prop where
  table : st.tablehash = tablehash
  found : ∀ r ∈ st.returned, ∃ entry, r.entry = some entry ∧ tablehash r.stripeid = some entry

theorem untouched {st : System} (reachable : Reachable (step calls) ok (.start tablehash heap) st)
    (hits : ∀ r ∈ st.returned, r.ret = true) : Untouched tablehash st := by
  revert hits
  refine reachable.invariant (P := fun st => (∀ r ∈ st.returned, r.ret = true) → Untouched tablehash st) ?_ ?_
  · intro _
    exact ⟨rfl, fun r member => absurd member List.not_mem_nil⟩
  · intro st st' thread_id before _ next hits
    obtain ⟨call, _, ⟨entry, _, there, rfl⟩ | ⟨_, _, rfl⟩ | ⟨entry, _, rfl⟩⟩ := step_cases next
    · obtain ⟨table, found⟩ := before fun r member => hits r (List.mem_append_left _ member)
      refine ⟨table, fun r member => ?_⟩
      rcases List.mem_append.mp member with old | new
      · exact found r old
      · rw [List.mem_singleton.mp new, ← table]
        exact ⟨entry, rfl, there⟩
    · obtain ⟨table, found⟩ := before hits
      exact ⟨table, found⟩
    · exact absurd (hits _ (List.mem_append_right _ (List.mem_singleton.mpr rfl))) Bool.false_ne_true

theorem oneEntry_of_hits {st : System} (reachable : Reachable (step calls) ok (.start tablehash heap) st)
    (hits : ∀ r ∈ st.returned, r.ret = true) : OneEntry st := by
  obtain ⟨table, found⟩ := untouched reachable hits
  refine ⟨fun r member => ?_, fun r member r' member' same => ?_⟩
  · rw [search_SST, table]
    exact found r member
  · obtain ⟨entry, own, there⟩ := found r member
    obtain ⟨entry', own', there'⟩ := found r' member'
    rw [own, own', ← there, ← there', same]

/-- In every run in which no call that has found nothing comes to its insertion,
    there is one entry for each stripe. -/
theorem one_entry_of_found {st : System} (reachable : Reachable (step calls) Finds (.start tablehash heap) st) :
    OneEntry st := by
  refine oneEntry_of_hits reachable (reachable.invariant (P := fun st => ∀ r ∈ st.returned, r.ret = true) ?_ ?_)
  · exact fun r member => absurd member List.not_mem_nil
  · intro st st' thread_id before finds next r member
    obtain ⟨call, _, ⟨entry, _, _, rfl⟩ | ⟨_, _, rfl⟩ | ⟨entry, pc, rfl⟩⟩ := step_cases next
    · rcases List.mem_append.mp member with old | new
      · exact before r old
      · rw [List.mem_singleton.mp new]
    · exact before r member
    · rw [Finds, pc] at finds
      cases finds

/-- Two threads that look up a stripe with an entry, one of them twice. -/
theorem one_entry_two_threads : ∃ st, Reachable (step fun _ => [⟨5, none⟩, ⟨5, some 7⟩]) Finds
    (.start (Function.update (fun _ => none) 5 (some 0)) [⟨3, false, false⟩]) st ∧
    st.returned = [⟨5, true, some 0⟩, ⟨5, true, some 0⟩, ⟨5, true, some 0⟩] ∧ OneEntry st := by
  have result : (run (step fun _ => [⟨5, none⟩, ⟨5, some 7⟩]) Finds [0, 1, 0]
      (.start (Function.update (fun _ => none) 5 (some 0)) [⟨3, false, false⟩])).map System.returned =
      some [⟨5, true, some 0⟩, ⟨5, true, some 0⟩, ⟨5, true, some 0⟩] := by decide
  obtain ⟨st, reached, returned⟩ := Option.map_eq_some_iff.mp result
  have reachable := run_reachable reached
  exact ⟨st, reachable, returned, one_entry_of_found reachable⟩

/-- The first call for a stripe returns without an entry. Of two first calls at
    the same time, the second one replaces the entry of the first. -/
theorem entry_not_set :
    ∃ st, Reachable (step fun _ => [⟨5, none⟩]) (fun _ _ => True) (.start (fun _ => none) []) st ∧
    st.returned = [⟨5, false, none⟩, ⟨5, false, none⟩] ∧ st.heap.length = 2 ∧ ¬ OneEntry st := by
  have result : (run (step fun _ => [⟨5, none⟩]) (fun _ _ => True) [0, 1, 0, 1] (.start (fun _ => none) [])).map
      (fun st => (st.returned, st.heap.length)) = some ([⟨5, false, none⟩, ⟨5, false, none⟩], 2) := by decide
  obtain ⟨st, reached, returned⟩ := Option.map_eq_some_iff.mp result
  obtain ⟨returned, made⟩ := Prod.mk.inj returned
  refine ⟨st, run_reachable reached, returned, made, fun one => ?_⟩
  obtain ⟨entry, own, _⟩ := one.found ⟨5, false, none⟩ (returned ▸ List.mem_cons_self)
  cases own

/-! ### Insertions -/

/-- A call that has returned from an insertion has left the variable of the
    caller as it was, and the table has a newer entry for the stripe. -/
structure Missed (heap : List SSTEntry) (st : System) : Prop where
  grown : heap.length ≤ st.heap.length
  made : ∀ thread_id entry, (st.threads thread_id).pc = .insert entry → heap.length ≤ entry
  newer : ∀ r ∈ st.returned, r.ret = false →
    (∀ entry, r.entry = some entry → entry < heap.length) ∧
      ∃ entry, st.tablehash r.stripeid = some entry ∧ heap.length ≤ entry

/-- Where a thread is after one of them has moved. -/
theorem made_update {threads : Nat → Thread} {thread_id : Nat} {w : Thread} {len : Nat}
    (made : ∀ u entry, (threads u).pc = .insert entry → len ≤ entry)
    (own : ∀ entry, w.pc = .insert entry → len ≤ entry) :
    ∀ u entry, (Function.update threads thread_id w u).pc = .insert entry → len ≤ entry :=
  (Function.forall_update_iff threads fun _ w => ∀ entry, w.pc = .insert entry → len ≤ entry).mpr ⟨own, fun u _ => made u⟩

/-- Every step keeps it, when the variables of the callers point at no entry that
    is still to be made. -/
theorem missed_step {thread_id : Nat} {st st' : System} (missed : Missed heap st)
    (known : ∀ call ∈ calls thread_id, ∀ entry, call.entry = some entry → entry < heap.length)
    (next : step calls thread_id st = some st') : Missed heap st' := by
  obtain ⟨grown, made, newer⟩ := missed
  obtain ⟨call, member, ⟨entry, _, _, rfl⟩ | ⟨_, _, rfl⟩ | ⟨entry, pc, rfl⟩⟩ := step_cases next
  · -- An entry was found: the call returns `true`.
    refine ⟨grown, made_update made (fun _ inserts => by cases inserts), fun r there failed => ?_⟩
    rcases List.mem_append.mp there with old | new
    · exact newer r old failed
    · rw [List.mem_singleton.mp new] at failed
      cases failed
  · -- None was found: the entry made is the newest.
    refine ⟨?_, made_update made ?_, newer⟩
    · rw [List.length_append]
      omega
    · rintro _ ⟨rfl⟩
      exact grown
  · -- The insertion, which can replace an entry that is newer than the start, too.
    have fresh := made thread_id entry pc
    refine ⟨grown, made_update made (fun _ inserts => by cases inserts), fun r there failed => ?_⟩
    rcases List.mem_append.mp there with old | new
    · obtain ⟨own, entry', found, newer'⟩ := newer r old failed
      refine ⟨own, ?_⟩
      by_cases same : r.stripeid = call.stripeid
      · exact ⟨entry, by simp only [System.leave, same, Function.update_self], fresh⟩
      · exact ⟨entry', by simpa only [System.leave, Function.update_of_ne same] using found, newer'⟩
    · rw [List.mem_singleton.mp new]
      exact ⟨known call member, entry, Function.update_self .., fresh⟩

/-- In every run, there is one entry for each stripe exactly as long as all calls
    that have returned had found theirs. -/
theorem one_entry_iff
    (known : ∀ thread_id, ∀ call ∈ calls thread_id, ∀ entry, call.entry = some entry → entry < heap.length)
    {st : System} (reachable : Reachable (step calls) ok (.start tablehash heap) st) :
    OneEntry st ↔ ∀ r ∈ st.returned, r.ret = true := by
  refine ⟨fun one r member => ?_, oneEntry_of_hits reachable⟩
  have start : Missed heap (.start tablehash heap) :=
    ⟨Nat.le_refl _, (fun _ _ pc => by cases pc), fun r member => absurd member List.not_mem_nil⟩
  have missed : Missed heap st := reachable.invariant (P := Missed heap) start
    fun before _ next => missed_step before (known _) next
  cases ret : r.ret with
  | true => rfl
  | false =>
    obtain ⟨entry, own, there⟩ := one.found r member
    obtain ⟨older, entry', there', newer⟩ := missed.newer r member ret
    have less := older entry own
    rw [search_SST, there', Option.some.injEq] at there
    omega

end Straid.HashTable
