import Straid.Locks

/-!
Who owns an entry of the table of stripes, over all orders of steps. An entry is
locked when exactly one thread holds it, and its `SSTthreadid` is the number of
that thread from the store after the lock is taken to the one before it is
released, and `INT16_MAX` at all other times (`owned_of_reachable`). So whatever
a thread that delegates loads from the entry, the number that it goes on with is
that of a worker, although the code does not exclude `NUM_THREADS`.
-/
namespace Straid.Ownership
open LogFiles Metadata Split Threads Interleavings Locks

variable (g : Geometry)

/-- The cells `SSTthreadid` of the entries. -/
def thread_id (st : System) (s : Nat) : Nat := (st.sst s).SSTthreadid

/-- The entry of a thread has its number. -/
def Named : Pc → Bool
  | .thaw | .freeze | .load_len | .copy .. | .reset _ | .submit _ | .clear_thread => true
  | _ => false

/-- The worker whose queue a thread is to use. -/
def worker : Pc → Option Nat
  | .check_frozen wid _ | .fetch_add wid _ | .store_slot wid _ _ | .spin wid _ _ => some wid
  | _ => none

/-- A thread is between its compare and exchange on an entry and its release of
    it. -/
def Holds (st : System) (t s : Nat) : Prop := (st.threads t).pc.holds = true ∧ (st.threads t).entry g = s

/-- The owner of each entry. -/
structure Owned (st : System) : Prop where
  locked : ∀ s, locked st s = true ↔ ∃ t, Holds g st t s ∧ ∀ u, Holds g st u s → u = t
  owner : ∀ s, thread_id st s = INT16_MAX ∨ Holds g st (thread_id st s) s
  inside : ∀ t, (st.threads t).pc.inside = true → thread_id st ((st.threads t).entry g) = t
  free : ∀ s, Threads.locked st s = false → thread_id st s = INT16_MAX
  loads : ∀ t, (st.threads t).pc = .load_wid → thread_id st ((st.threads t).entry g) ≤ NUM_THREADS →
    thread_id st ((st.threads t).entry g) < NUM_THREADS
  worker : ∀ t wid, worker (st.threads t).pc = some wid → wid < NUM_THREADS

/-- What every step keeps. -/
structure OwnerInv (st : System) : Prop where
  locks : LockInv g st
  holder : ∀ s, locked st s = true → ∃ t, Holds g st t s
  named : ∀ t, Named (st.threads t).pc = true → thread_id st ((st.threads t).entry g) = t
  clear : ∀ s, (∀ t, Named (st.threads t).pc = true → (st.threads t).entry g ≠ s) → thread_id st s = INT16_MAX
  few : ∀ t, NUM_THREADS ≤ t → (st.threads t).pc = .idle ∧ (st.threads t).calls = []
  worker : ∀ t wid, worker (st.threads t).pc = some wid → wid < NUM_THREADS

/-- What a step of thread `t` does to the numbers in the entries. -/
inductive NameEffect (t : Nat) (st st' : System) : Prop
  | keeps (same : Named (st'.threads t).pc = Named (st.threads t).pc)
      (entry : Named (st.threads t).pc = true → (st'.threads t).entry g = (st.threads t).entry g)
      (ids : thread_id st' = thread_id st)
  | stores (pc : (st.threads t).pc = .store_thread) (pc' : (st'.threads t).pc = .thaw)
      (entry : (st'.threads t).entry g = (st.threads t).entry g)
      (ids : thread_id st' = Function.update (thread_id st) ((st.threads t).entry g) t)
  | clears (pc : (st.threads t).pc = .clear_thread) (pc' : (st'.threads t).pc = .unlock)
      (ids : thread_id st' = Function.update (thread_id st) ((st.threads t).entry g) INT16_MAX)

variable {g} {t : Nat} {st st' : System}

/-! ### Steps -/

theorem named_holds {pc : Pc} (named : Named pc = true) : pc.holds = true := by
  cases pc <;> simp_all [Named, Pc.holds]

theorem inside_named {pc : Pc} (inside : pc.inside = true) : Named pc = true := by
  cases pc <;> simp_all [Named, Pc.inside]

theorem thread_id_store (st : System) (s : Nat) (f : SSTEntry → SSTEntry) :
    thread_id (st.store s f) = Function.update (thread_id st) s (f (st.sst s)).SSTthreadid := by
  funext r
  simp only [thread_id, System.store, Function.update_apply]
  split <;> rfl

/-- A change of an entry that keeps its number. -/
theorem thread_id_keeps (st : System) (s : Nat) {f : SSTEntry → SSTEntry}
    (keeps : (f (st.sst s)).SSTthreadid = (st.sst s).SSTthreadid) : thread_id (st.store s f) = thread_id st := by
  rw [thread_id_store, keeps]
  exact Function.update_eq_self s (thread_id st)

theorem thread_id_goto (st : System) (t : Nat) (pc : Pc) : thread_id (st.goto t pc) = thread_id st := rfl

theorem thread_id_set (st : System) (t : Nat) (th : Thread) (event : Event) :
    thread_id ((st.record event).set t th) = thread_id st := rfl

theorem next_named (th : Thread) : Named th.next.pc = false := by
  cases later : th.later <;> simp [Thread.next, later, Named]

theorem name_effect (next : step g t st = some st') : NameEffect g t st st' := by
  have goto : ∀ pc' : Pc, Named pc' = Named (st.threads t).pc → NameEffect g t st (st.goto t pc') :=
    fun pc' same => .keeps (by simpa using same) (by simp [Thread.entry]) rfl
  cases pc : (st.threads t).pc with
  | idle =>
    simp only [step, pc, begin_call] at next
    split at next
    · contradiction
    · next uio calls _ =>
      simp only [Option.bind_eq_bind, Option.bind_eq_some_iff] at next
      obtain ⟨_, _, next⟩ := next
      cases split : split_stripe_aligned g uio with
      | nil => simp [split] at next
      | cons piece later =>
        simp only [split, Option.some.injEq] at next
        subst next
        exact .keeps (by simp [pc, Named]) (by simp [pc, Named]) rfl
  | loop =>
    simp only [step, pc, Option.some.injEq] at next
    subst next
    split
    · exact goto _ (by simp [pc, Named])
    · refine .keeps (by simp [pc, Named]) (by simp [pc, Named]) ?_
      rw [thread_id_goto, thread_id_keeps st _ rfl]
  | store_thread =>
    simp only [step, pc, Option.some.injEq] at next
    subst next
    refine .stores pc (by simp) (by simp [Thread.entry]) ?_
    rw [thread_id_goto, thread_id_store]
  | thaw =>
    simp only [step, pc, Option.some.injEq] at next
    subst next
    refine .keeps (by simp [pc, Named]) (by simp [Thread.entry]) ?_
    rw [thread_id_goto, thread_id_keeps st _ rfl]
  | freeze =>
    simp only [step, pc, freeze, Option.bind_eq_bind, Option.bind_eq_some_iff, Option.some.injEq] at next
    obtain ⟨_, _, i, _, rfl⟩ := next
    refine .keeps ?_ (by simp [Thread.entry]) (by rw [thread_id_goto, thread_id_keeps st i rfl])
    simp only [System.goto, System.set, System.store, Function.update_self, pc]
    split <;> rfl
  | load_len =>
    simp only [step, pc, load_len] at next
    split at next
    · split at next
      · contradiction
      · obtain rfl := Option.some.inj next
        exact goto _ (by simp [pc, Named])
    · obtain rfl := Option.some.inj next
      exact goto _ (by simp [pc, Named])
  | copy qlen bat_dios =>
    simp only [step, pc, Option.some.injEq] at next
    subst next
    refine .keeps ?_ (by simp [copy, Thread.entry]) rfl
    simp only [copy, System.goto, System.set, System.record, Function.update_self, pc]
    split <;> rfl
  | reset bat_dios =>
    simp only [step, pc, Option.some.injEq] at next
    subst next
    exact .keeps (by simp [pc, Named]) (by simp [Thread.entry]) rfl
  | submit bat_dios =>
    simp only [step, pc, submit, Option.bind_eq_bind, Option.bind_eq_some_iff, Option.some.injEq] at next
    obtain ⟨_, _, rfl⟩ := next
    exact .keeps (by simp [pc, Named]) (by simp [Thread.entry]) rfl
  | clear_thread =>
    simp only [step, pc, Option.some.injEq] at next
    subst next
    refine .clears pc (by simp) ?_
    rw [thread_id_goto, thread_id_store]
  | unlock =>
    simp only [step, pc, Option.some.injEq] at next
    subst next
    refine .keeps (by simpa [pc, Named] using next_named (st.threads t)) (by simp [pc, Named]) ?_
    rw [thread_id_set, thread_id_keeps st _ rfl]
  | load_frozen =>
    simp only [step, pc, Option.some.injEq] at next
    subst next
    split <;> exact goto _ (by simp [pc, Named])
  | load_thread =>
    simp only [step, pc, Option.some.injEq] at next
    subst next
    split <;> exact goto _ (by simp [pc, Named])
  | load_wid =>
    simp only [step, pc, load_wid] at next
    split at next
    · obtain rfl := Option.some.inj next
      exact goto _ (by simp [pc, Named])
    · split at next
      · contradiction
      · obtain ⟨dio, _, rfl⟩ := Option.map_eq_some_iff.mp next
        exact goto _ (by simp [pc, Named])
  | check_frozen wid dio =>
    simp only [step, pc, Option.some.injEq] at next
    subst next
    split <;> exact goto _ (by simp [pc, Named])
  | fetch_add wid dio =>
    simp only [step, pc, fetch_add] at next
    split at next
    · contradiction
    · obtain rfl := Option.some.inj next
      exact .keeps (by simp [pc, Named]) (by simp [Thread.entry]) rfl
  | store_slot wid idx dio =>
    simp only [step, pc, Option.some.injEq] at next
    subst next
    exact .keeps (by simp [pc, Named]) (by simp [Thread.entry]) rfl
  | spin wid idx dio =>
    simp only [step, pc, Option.some.injEq, spin] at next
    subst next
    split
    · exact .keeps rfl (fun _ => rfl) rfl
    · exact .keeps (by simpa [pc, Named] using next_named (st.threads t)) (by simp [pc, Named]) rfl

/-- A thread that may take a step has a number below `NUM_THREADS`. -/
theorem few_step (next : step g t st = some st') (few : ∀ t, NUM_THREADS ≤ t → (st.threads t).pc = .idle ∧ (st.threads t).calls = []) :
    t < NUM_THREADS := by
  by_contra more
  obtain ⟨idle, none⟩ := few t (by omega)
  simp [step, idle, begin_call, none] at next

/-- The worker of a thread is one that it had, or one that it has just loaded. -/
theorem worker_step (next : step g t st = some st') {wid : Nat} (has : worker (st'.threads t).pc = some wid) :
    worker (st.threads t).pc = some wid ∨ wid < NUM_THREADS := by
  have without : ∀ th : Thread, worker th.next.pc = none := by
    intro th
    cases later : th.later <;> simp [Thread.next, later, worker]
  have holding : ∀ pc : Pc, pc.holds = true → worker pc = none := by
    intro pc held
    cases pc <;> simp_all [Pc.holds, worker]
  cases step_effect next with
  | begins => simp [worker] at has
  | looks pc' busy free free' slotless _ before _ same =>
    cases pc : (st.threads t).pc with
    | load_wid =>
      simp only [step, pc, load_wid] at next
      split at next
      · obtain rfl := Option.some.inj next
        simp [worker] at has
      · split at next
        · contradiction
        · obtain ⟨dio, _, rfl⟩ := Option.map_eq_some_iff.mp next
          simp only [System.goto, System.set, Function.update_self, worker, Option.some.injEq] at has
          exact .inr (by omega)
    | check_frozen w dio =>
      simp only [step, pc, Option.some.injEq] at next
      subst next
      simp only [System.goto, System.set, Function.update_self] at has
      split at has
      · simp [worker] at has
      · exact .inl has
    | loop =>
      simp only [step, pc, Option.some.injEq] at next
      subst next
      split at has <;> simp [worker] at has
    | load_frozen =>
      simp only [step, pc, Option.some.injEq] at next
      subst next
      simp only [System.goto, System.set, Function.update_self] at has
      split at has <;> simp [worker] at has
    | load_thread =>
      simp only [step, pc, Option.some.injEq] at next
      subst next
      simp only [System.goto, System.set, Function.update_self] at has
      split at has <;> simp [worker] at has
    | _ => simp [pc, Pc.holds, Pc.delegates, Pc.fetches] at busy free slotless before
  | takes => simp [worker] at has
  | works pc' _ held' _ _ _ _ _ _ _ same =>
    rw [same.threads, Function.update_self, holding pc' held'] at has
    contradiction
  | loads => simp [worker] at has
  | copies =>
    simp only [copy, System.goto, System.set, System.record, Function.update_self] at has
    split at has <;> simp [worker] at has
  | resets => simp [worker] at has
  | submits => simp [worker] at has
  | releases => simp [without] at has
  | fetches pc => exact .inl (by simpa [pc, worker] using has)
  | fills pc => exact .inl (by simpa [pc, worker] using has)
  | waits => exact .inl has
  | leaves => simp [without] at has

/-! ### The invariant -/

/-- A step that locks an entry leaves its thread with the lock. -/
theorem takes_holds (effect : Effect g t st st') {s : Nat} (free : locked st s = false) (taken : locked st' s = true) :
    Holds g st' t s := by
  have unchanged : locked st' = locked st → Holds g st' t s := by
    intro same
    rw [same, free] at taken
    cases taken
  cases effect with
  | looks _ _ _ _ _ _ _ _ same => exact unchanged same.locks
  | works _ _ _ _ _ _ _ _ _ _ same => exact unchanged same.locks
  | takes loop unlocked =>
    by_cases here : s = (st.threads t).entry g
    · exact ⟨by simp [Pc.holds], by simp [Thread.entry, here]⟩
    · have same : locked st s = true := by simpa [locked, here] using taken
      rw [free] at same
      cases same
  | releases pc =>
    by_cases here : s = (st.threads t).entry g
    · simp [locked, here] at taken
    · have same : locked st s = true := by simpa [locked, here] using taken
      rw [free] at same
      cases same
  | _ => exact unchanged rfl

/-- A locked entry has a thread that holds it. -/
theorem holder_step (effect : Effect g t st st') (holder : ∀ s, locked st s = true → ∃ t, Holds g st t s) (s : Nat)
    (locked' : locked st' s = true) : ∃ u, Holds g st' u s := by
  have frame := fun {u : Nat} (other : u ≠ t) => effect_frame effect other
  have kept : ∀ u, u ≠ t → Holds g st u s → Holds g st' u s := by
    intro u other holds
    rwa [Holds, frame other]
  cases before : locked st s with
  | false => exact ⟨t, takes_holds effect before locked'⟩
  | true =>
    obtain ⟨u, holds⟩ := holder s before
    by_cases own : u = t
    · subst own
      cases lock_effect effect with
      | keeps same entry locks => exact ⟨u, same.trans holds.1, (entry holds.1).trans holds.2⟩
      | takes free =>
        have held := holds.1
        rw [free] at held
        cases held
      | releases held free locks =>
        rw [locks, ← holds.2, Function.update_self] at locked'
        cases locked'
    · exact ⟨u, kept u own holds⟩

/-- A step keeps the number of every entry with a named thread. -/
theorem named_step (next : step g t st = some st') (locks : LockInv g st)
    (named : ∀ t, Named (st.threads t).pc = true → thread_id st ((st.threads t).entry g) = t) (u : Nat)
    (named' : Named (st'.threads u).pc = true) : thread_id st' ((st'.threads u).entry g) = u := by
  have frame := fun {u : Nat} (other : u ≠ t) => effect_frame (step_effect next) other
  -- No other named thread is at the entry that a thread with a lock changes.
  have apart : (st.threads t).pc.holds = true → u ≠ t → (st'.threads u).entry g ≠ (st.threads t).entry g := by
    intro held other same
    rw [frame other] at named' same
    exact other (locks.one u t (named_holds named') held same)
  cases name_effect next with
  | keeps same entry ids =>
    rw [ids]
    by_cases own : u = t
    · subst own
      rw [same] at named'
      rw [entry named']
      exact named u named'
    · rw [frame own] at named' ⊢
      exact named u named'
  | stores pc pc' entry ids =>
    rw [ids]
    by_cases own : u = t
    · rw [own, entry, Function.update_self]
    · rw [Function.update_of_ne (apart (by simp [pc, Pc.holds]) own), frame own]
      rw [frame own] at named'
      exact named u named'
  | clears pc pc' ids =>
    rw [ids]
    by_cases own : u = t
    · rw [own, pc'] at named'
      cases named'
    · rw [Function.update_of_ne (apart (by simp [pc, Pc.holds]) own), frame own]
      rw [frame own] at named'
      exact named u named'

/-- An entry without a named thread has no number. -/
theorem clear_step (next : step g t st = some st')
    (clear : ∀ s, (∀ t, Named (st.threads t).pc = true → (st.threads t).entry g ≠ s) → thread_id st s = INT16_MAX) (s : Nat)
    (none : ∀ u, Named (st'.threads u).pc = true → (st'.threads u).entry g ≠ s) : thread_id st' s = INT16_MAX := by
  have frame := fun {u : Nat} (other : u ≠ t) => effect_frame (step_effect next) other
  have others : ∀ u, u ≠ t → Named (st.threads u).pc = true → (st.threads u).entry g ≠ s := by
    intro u other named
    rw [← frame other] at named ⊢
    exact none u named
  cases name_effect next with
  | keeps same entry ids =>
    rw [ids]
    refine clear s fun u named => ?_
    by_cases own : u = t
    · subst own
      rw [← entry named]
      exact none u (same.trans named)
    · exact others u own named
  | stores pc pc' entry ids =>
    have elsewhere : (st.threads t).entry g ≠ s := entry ▸ none t (by simp [pc', Named])
    rw [ids, Function.update_of_ne (Ne.symm elsewhere)]
    refine clear s fun u named => ?_
    by_cases own : u = t
    · exact own ▸ elsewhere
    · exact others u own named
  | clears pc pc' ids =>
    rw [ids]
    by_cases here : s = (st.threads t).entry g
    · rw [here, Function.update_self]
    · rw [Function.update_of_ne here]
      refine clear s fun u named => ?_
      by_cases own : u = t
      · exact own ▸ Ne.symm here
      · exact others u own named

theorem owner_step (next : step g t st = some st') (inv : OwnerInv g st) : OwnerInv g st' := by
  have effect := step_effect next
  refine ⟨locks_step effect inv.locks, holder_step effect inv.holder, named_step next inv.locks inv.named,
    clear_step next inv.clear, ?_, ?_⟩
  · intro u more
    have other : u ≠ t := by
      rintro rfl
      have := few_step next inv.few
      omega
    rw [effect_frame effect other]
    exact inv.few u more
  · intro u wid has
    by_cases own : u = t
    · subst own
      exact (worker_step next has).elim (inv.worker u wid) id
    · rw [effect_frame effect own] at has
      exact inv.worker u wid has

/-- A thread whose number is too high has no calls. -/
theorem few_of_ids {calls : Nat → List UioInfo}
    (ids : ∀ t, ∀ uio ∈ calls t, uio.user_id = t ∧ uio.user_id < NUM_THREADS) (t : Nat) (more : NUM_THREADS ≤ t) :
    calls t = [] := by
  refine List.eq_nil_iff_forall_not_mem.mpr fun uio member => ?_
  have := ids t uio member
  omega

theorem owner_start {calls : Nat → List UioInfo} (few : ∀ t, NUM_THREADS ≤ t → calls t = []) :
    OwnerInv g (System.start calls) where
  locks := locks_start calls
  holder s held := by simp [locked, System.start, SSTEntry.fresh] at held
  named t named := by simp [System.start, Named] at named
  clear s _ := rfl
  few t more := ⟨rfl, few t more⟩
  worker t wid has := by simp [System.start, worker] at has

/-- What the invariant says of the owner of an entry. -/
theorem owned_of_inv (inv : OwnerInv g st) : Owned g st := by
  have unique : ∀ {t u s}, Holds g st t s → Holds g st u s → u = t := fun first second =>
    inv.locks.one _ _ second.1 first.1 (second.2.trans first.2.symm)
  have owner : ∀ s, thread_id st s = INT16_MAX ∨ Holds g st (thread_id st s) s := by
    intro s
    by_cases none : ∀ t, Named (st.threads t).pc = true → (st.threads t).entry g ≠ s
    · exact .inl (inv.clear s none)
    · push Not at none
      obtain ⟨t, named, rfl⟩ := none
      rw [inv.named t named]
      exact .inr ⟨named_holds named, rfl⟩
  have small : ∀ {t s}, Holds g st t s → t < NUM_THREADS := by
    intro t s holds
    by_contra more
    have idle := (inv.few t (by omega)).1
    have held := holds.1
    rw [idle] at held
    cases held
  constructor
  · intro s
    constructor
    · intro held
      obtain ⟨t, holds⟩ := inv.holder s held
      exact ⟨t, holds, fun u other => unique holds other⟩
    · rintro ⟨t, ⟨held, rfl⟩, _⟩
      exact inv.locks.held t held
  · exact owner
  · exact fun t inside => inv.named t (inside_named inside)
  · intro s free
    refine (owner s).resolve_right fun holds => ?_
    have held := inv.locks.held _ holds.1
    rw [holds.2, free] at held
    cases held
  · intro t _ le
    cases owner ((st.threads t).entry g) with
    | inl none =>
      rw [none] at le
      exact absurd le (by decide)
    | inr holds => exact small holds
  · exact inv.worker

/-- In every state that any order of steps of the threads reaches, an entry is
    locked exactly when one thread holds it, its number is that of the thread or
    none, and the workers that the threads use exist. -/
theorem owned_of_reachable {calls : Nat → List UioInfo}
    (ids : ∀ t, ∀ uio ∈ calls t, uio.user_id = t ∧ uio.user_id < NUM_THREADS)
    (reachable : Reachable (step g) (fun _ _ => True) (System.start calls) st) : Owned g st := by
  have start := owner_start (g := g) (few_of_ids ids)
  exact owned_of_inv (reachable.invariant (P := OwnerInv g) start fun inv _ next => owner_step next inv)

/-- Two threads with requests in one stripe. -/
def two_writers : Nat → List UioInfo
  | 0 => [⟨0, true, 4096, 0, 4096⟩]
  | 1 => [⟨1, true, 4096, 8192, 4096⟩]
  | _ => []

theorem two_writers_ids : ∀ t, ∀ uio ∈ two_writers t, uio.user_id = t ∧ uio.user_id < NUM_THREADS
  | 0 => by decide
  | 1 => by decide
  | _ + 2 => by simp [two_writers]

/-- The second finds the number of the first, which holds the entry. -/
theorem owned_two_writers : ∃ st, Reachable (step defaultGeometry) (fun _ _ => True) (System.start two_writers) st ∧
    ((st.threads 1).pc.fetches = some 0 ∧ thread_id st 0 = 0) ∧ Owned defaultGeometry st := by
  have result : (run (step defaultGeometry) (fun _ _ => True) [0, 0, 0, 0, 1, 1, 1, 1, 1, 1] (System.start two_writers)).map
      (fun st => ((st.threads 1).pc.fetches, thread_id st 0)) = some (some 0, 0) := by decide +kernel
  obtain ⟨st, reached, seen⟩ := Option.map_eq_some_iff.mp result
  have reachable := run_reachable reached
  exact ⟨st, reachable, Prod.mk.injEq .. ▸ seen, owned_of_reachable two_writers_ids reachable⟩

end Straid.Ownership
