import Straid.Ownership
import Straid.Queues
import Mathlib.Data.Finset.Card
import Mathlib.Data.Finset.Range

/-!
How long the queue of a thread gets. Its slots are taken by `fetch_add` and given
back only when the thread writes a partial stripe: `encode_fullstripe` looks at
no queue, and nothing makes a request that was announced before a lock was
released come before the copy of the queue. A request is in time when the thread
of the queue still collects under the lock of its entry; each other thread has
one such request in a hold, since it waits for the lock then (`waiters_keep`).
When every other request finds room for one more of each thread, a queue never
runs out of slots (`slots_of_timed`). Without the condition it does, after two
full stripes (`slots_run_out`).
-/
namespace Straid.QueueBounds
open LogFiles Metadata Split Encode Threads Interleavings Locks Queues Ownership

variable (g : Geometry)

/-- The queue that a thread has a slot of. -/
def queued : Pc → Option Nat
  | .store_slot wid _ _ | .spin wid _ _ => some wid
  | _ => none

/-- Thread `u` has a slot of the queue of thread `w`, and is at the same entry. -/
def WaitsFor (st : System) (w u : Nat) : Prop :=
  queued (st.threads u).pc = some w ∧ (st.threads u).entry g = (st.threads w).entry g

instance (st : System) (w u : Nat) : Decidable (WaitsFor g st w u) := inferInstanceAs (Decidable (_ ∧ _))

def waiters (st : System) (w : Nat) : Finset Nat := (Finset.range NUM_THREADS).filter (WaitsFor g st w)

/-- The most requests in a queue that no request in time went to. -/
def LATE_SLOTS : Nat := BATCH_SLOTS - NUM_THREADS + 1

/-- The most requests in the queue of a thread. -/
def room (st : System) (w : Nat) : Nat :=
  if (st.threads w).pc.drains then BATCH_SLOTS
  else if (st.threads w).collects g then LATE_SLOTS + (waiters g st w).card
  else LATE_SLOTS

/-- The next step of thread `t` puts a request into a queue only while the thread
    of the queue collects under the lock of the same entry, or while the queue has
    room for a request of every thread. -/
def Timed (st : System) (t : Nat) : Prop := ∀ wid ∈ (st.threads t).pc.fetches,
  (st.threads wid).collects g = true ∧ (st.threads wid).entry g = (st.threads t).entry g ∨
    st.inqueue_data_len wid + NUM_THREADS ≤ BATCH_SLOTS

instance (st : System) (t : Nat) : Decidable (Timed g st t) := inferInstanceAs (Decidable (∀ _ ∈ _, _))

/-- No queue is longer than its slots, and the slot that the next request is put
    into exists. -/
structure Slots (st : System) : Prop where
  lens : ∀ w, st.inqueue_data_len w ≤ BATCH_SLOTS
  index : ∀ t, Timed g st t → ∀ wid ∈ (st.threads t).pc.fetches, st.inqueue_data_len wid < BATCH_SLOTS

/-- What every step in time keeps. -/
structure RoomInv (st : System) : Prop where
  locks : LockInv g st
  few : ∀ t, NUM_THREADS ≤ t → (st.threads t).pc = .idle ∧ (st.threads t).calls = []
  lens : ∀ w, st.inqueue_data_len w ≤ room g st w

variable {g} {t : Nat} {st st' : System}

/-! ### Waiting threads -/

theorem queued_free {pc : Pc} (slotless : pc.delegates = false) : queued pc = none := by
  cases pc <;> simp_all [Pc.delegates, queued]

theorem holds_queued {pc : Pc} (held : pc.holds = true) : queued pc = none := by
  cases pc <;> simp_all [Pc.holds, queued]

theorem collects_holds {th : Thread} (collects : th.collects g = true) : th.pc.holds = true := by
  by_contra free
  rw [(free_idle (by simpa using free)).1] at collects
  cases collects

theorem mem_waiters {w u : Nat} : u ∈ waiters g st w ↔ u < NUM_THREADS ∧ WaitsFor g st w u := by
  rw [waiters, Finset.mem_filter, Finset.mem_range]

theorem late_le_room (w : Nat) : LATE_SLOTS ≤ room g st w := by
  rw [room]
  split
  · decide
  · split
    · exact Nat.le_add_right ..
    · exact Nat.le_refl _

/-- A thread that collects is below `NUM_THREADS`, and does not wait for itself. -/
theorem room_le (few : ∀ t, NUM_THREADS ≤ t → (st.threads t).pc = .idle ∧ (st.threads t).calls = []) (w : Nat) :
    room g st w ≤ BATCH_SLOTS := by
  rw [room]
  split
  · exact Nat.le_refl _
  · split
    · next collects =>
      have held := collects_holds collects
      have small : w < NUM_THREADS := by
        by_contra more
        rw [(few w (by omega)).1] at held
        cases held
      have others : waiters g st w ⊆ (Finset.range NUM_THREADS).erase w := by
        intro u member
        obtain ⟨below, waits, _⟩ := mem_waiters.mp member
        refine Finset.mem_erase.mpr ⟨?_, Finset.mem_range.mpr below⟩
        rintro rfl
        rw [holds_queued held] at waits
        cases waits
      have card := Finset.card_le_card others
      rw [Finset.card_erase_of_mem (Finset.mem_range.mpr small), Finset.card_range] at card
      simp only [LATE_SLOTS, BATCH_SLOTS, NUM_THREADS] at *
      omega
    · decide

/-- A thread waits as long as the lock of its entry is held. -/
theorem waits_keep (effect : Effect g t st st') (locks : LockInv g st) {w : Nat} (other : w ≠ t)
    (collects : (st.threads w).collects g = true) (waits : WaitsFor g st w t) : WaitsFor g st' w t := by
  obtain ⟨slot, equal⟩ := waits
  have keeps : ∀ pc, queued pc = some w → st'.threads t = { st.threads t with pc := pc } → WaitsFor g st' w t := by
    intro pc slot' own
    rw [WaitsFor, own, effect_frame effect other]
    exact ⟨slot', equal⟩
  cases id effect with
  | @fills wid idx dio pc => exact keeps (.spin wid idx dio) (by simpa [pc, queued] using slot) (by simp)
  | waits => exact keeps _ slot rfl
  | leaves pc free =>
    have taken := locks.held w (collects_holds collects)
    rw [← equal, free] at taken
    cases taken
  | looks _ _ _ _ slotless => simp [queued_free slotless] at slot
  | works _ held => simp [holds_queued held] at slot
  | begins idle => simp [idle, queued] at slot
  | takes loop => simp [loop, queued] at slot
  | loads pc => simp [pc, queued] at slot
  | copies pc => simp [pc, queued] at slot
  | resets pc => simp [pc, queued] at slot
  | submits pc => simp [pc, queued] at slot
  | releases pc => simp [pc, queued] at slot
  | fetches pc => simp [pc, queued] at slot

theorem waiters_keep (effect : Effect g t st st') (locks : LockInv g st) {w : Nat} (other : w ≠ t)
    (collects : (st.threads w).collects g = true) : waiters g st w ⊆ waiters g st' w := by
  intro u member
  obtain ⟨below, waits⟩ := mem_waiters.mp member
  refine mem_waiters.mpr ⟨below, ?_⟩
  by_cases own : u = t
  · subst own
    exact waits_keep effect locks other collects waits
  · rwa [WaitsFor, effect_frame effect own, effect_frame effect other]

theorem room_keep (effect : Effect g t st st') (locks : LockInv g st) {w : Nat} (other : w ≠ t) :
    room g st w ≤ room g st' w := by
  rw [room, room, effect_frame effect other]
  split
  · exact Nat.le_refl _
  · split
    · next collects => exact Nat.add_le_add_left (Finset.card_le_card (waiters_keep effect locks other collects)) _
    · exact Nat.le_refl _

/-- A thread that goes on collecting keeps its waiting threads. -/
theorem waiters_own (frame : ∀ u, u ≠ t → st'.threads u = st.threads u) (entry : (st'.threads t).entry g = (st.threads t).entry g)
    (held : (st.threads t).pc.holds = true) : waiters g st t ⊆ waiters g st' t := by
  intro u member
  obtain ⟨below, slot, equal⟩ := mem_waiters.mp member
  have other : u ≠ t := by
    rintro rfl
    rw [holds_queued held] at slot
    cases slot
  refine mem_waiters.mpr ⟨below, ?_⟩
  rw [WaitsFor, frame u other, entry]
  exact ⟨slot, equal⟩

/-! ### Steps -/

/-- The queue of the thread that takes the step. -/
theorem room_own (effect : Effect g t st st') (timed : Timed g st t) (inv : RoomInv g st) :
    st'.inqueue_data_len t ≤ room g st' t := by
  have late : (st.threads t).collects g = false → (st.threads t).pc.drains = false →
      st.inqueue_data_len t ≤ room g st' t := by
    intro idle leaves
    have before := inv.lens t
    simp only [room, idle, leaves] at before
    exact before.trans (late_le_room t)
  have free : (st.threads t).pc.holds = false → st.inqueue_data_len t ≤ room g st' t :=
    fun free => late (free_idle free).1 (free_idle (g := g) free).2
  have drains : (st'.threads t).pc.drains = true → st.inqueue_data_len t ≤ room g st' t := by
    intro drains
    rw [room, if_pos drains]
    exact (inv.lens t).trans (room_le inv.few t)
  cases id effect with
  | begins idle => exact free (by simp [idle, Pc.holds])
  | looks pc' _ before _ _ _ _ _ same =>
    rw [same.len]
    exact free before
  | takes loop => exact free (by simp [loop, Pc.holds])
  | works pc' held _ leaves leaves' _ _ _ fewer empty same =>
    have own : st'.threads t = { st.threads t with pc := pc' } := by rw [same.threads, Function.update_self]
    rw [same.len]
    cases before : (st.threads t).collects g with
    | false => exact late before leaves
    | true =>
      cases after : (st'.threads t).collects g with
      | false =>
        rw [empty before (own ▸ after)]
        exact Nat.zero_le _
      | true =>
        have bound := inv.lens t
        have more := Finset.card_le_card (waiters_own (g := g) (fun u other => effect_frame effect other)
          (by rw [own, Thread.entry, Thread.entry]) held)
        have leaves_after : (st'.threads t).pc.drains = false := by rw [own]; exact leaves'
        simp only [room, leaves, leaves_after, before, after, if_true, Bool.false_eq_true, if_false] at bound ⊢
        omega
  | loads => exact drains (by simp [Pc.drains])
  | copies =>
    refine drains ?_
    simp only [copy, System.goto, System.set, System.record, Function.update_self]
    split <;> rfl
  | resets => simp
  | submits pc => exact late (by simp [Thread.collects, pc]) (by simp [pc, Pc.drains])
  | releases pc => exact late (by simp [Thread.collects, pc]) (by simp [pc, Pc.drains])
  | @fetches wid dio pc =>
    by_cases own : wid = t
    · -- The thread does not collect, so its own queue has to have room.
      subst own
      have spare := (timed wid (by simp [pc, Pc.fetches])).resolve_left (by simp [Thread.collects, pc])
      refine le_trans ?_ (late_le_room wid)
      simp only [LATE_SLOTS, BATCH_SLOTS, NUM_THREADS, System.goto, System.set, System.set_len, Function.update_self] at *
      omega
    · simpa [Ne.symm own] using free (by simp [pc, Pc.holds])
  | fills pc => exact free (by simp [pc, Pc.holds])
  | waits pc => exact free (by simp [pc, Pc.holds])
  | leaves pc => exact free (by simp [pc, Pc.holds])

/-- A request in time is one of a thread that did not wait before. -/
theorem room_fetch (timed : Timed g st t) (inv : RoomInv g st) (small : t < NUM_THREADS) {wid : Nat} {dio : DioInfo}
    (pc : (st.threads t).pc = .fetch_add wid dio) (other : wid ≠ t)
    (effect : Effect g t st st') (own : st'.threads t = { st.threads t with pc := .store_slot wid (st.inqueue_data_len wid) dio }) :
    st.inqueue_data_len wid + 1 ≤ room g st' wid := by
  rcases timed wid (by simp [pc, Pc.fetches]) with ⟨collects, equal⟩ | spare
  · have joins : insert t (waiters g st wid) ⊆ waiters g st' wid := by
      refine Finset.insert_subset (mem_waiters.mpr ⟨small, ?_⟩) (waiters_keep effect inv.locks other collects)
      rw [WaitsFor, own, effect_frame effect other]
      exact ⟨rfl, equal.symm⟩
    have absent : t ∉ waiters g st wid := by
      intro member
      have slot := (mem_waiters.mp member).2.1
      rw [pc] at slot
      cases slot
    have card := Finset.card_le_card joins
    rw [Finset.card_insert_of_notMem absent] at card
    have bound := inv.lens wid
    have leaves := collects_leaves collects
    rw [room, effect_frame effect other]
    simp only [room, leaves, collects, if_true, Bool.false_eq_true, if_false] at bound ⊢
    omega
  · refine le_trans ?_ (late_le_room wid)
    simp only [LATE_SLOTS, BATCH_SLOTS, NUM_THREADS] at *
    omega

theorem few_keeps (effect : Effect g t st st') (small : t < NUM_THREADS)
    (few : ∀ t, NUM_THREADS ≤ t → (st.threads t).pc = .idle ∧ (st.threads t).calls = []) (u : Nat) (more : NUM_THREADS ≤ u) :
    (st'.threads u).pc = .idle ∧ (st'.threads u).calls = [] := by
  rw [effect_frame effect (by omega)]
  exact few u more

theorem room_step (next : step g t st = some st') (timed : Timed g st t) (inv : RoomInv g st) : RoomInv g st' := by
  have effect := step_effect next
  have small := few_step next inv.few
  refine ⟨locks_step effect inv.locks, few_keeps effect small inv.few, fun w => ?_⟩
  by_cases own : w = t
  · subst own
    exact room_own effect timed inv
  · have same := (inv.lens w).trans (room_keep effect inv.locks own)
    cases id effect with
    | looks _ _ _ _ _ _ _ _ private' => rwa [private'.len]
    | works _ _ _ _ _ _ _ _ _ _ private' => rwa [private'.len]
    | resets => simpa [own] using same
    | @fetches wid dio pc =>
      by_cases queue : w = wid
      · subst queue
        simpa using room_fetch timed inv small pc own effect (by simp)
      · simpa [queue] using same
    | _ => exact same

theorem slots_of_inv (inv : RoomInv g st) : Slots g st where
  lens w := (inv.lens w).trans (room_le inv.few w)
  index t timed wid fetches := by
    have small : t < NUM_THREADS := by
      by_contra more
      rw [(inv.few t (by omega)).1] at fetches
      cases fetches
    cases pc : (st.threads t).pc with
    | fetch_add w dio =>
      obtain rfl : w = wid := by simpa [pc, Pc.fetches] using fetches
      by_cases own : w = t
      · subst own
        have spare := (timed w fetches).resolve_left (by simp [Thread.collects, pc])
        simp only [BATCH_SLOTS, NUM_THREADS] at *
        omega
      · have effect := Effect.fetches (g := g) pc
        exact (room_fetch timed inv small pc own effect (by simp)).trans (room_le (few_keeps effect small inv.few) w)
    | _ => simp [pc, Pc.fetches] at fetches

theorem room_start {calls : Nat → List UioInfo} (few : ∀ t, NUM_THREADS ≤ t → calls t = []) : RoomInv g (System.start calls) where
  locks := locks_start calls
  few t more := ⟨rfl, few t more⟩
  lens _ := Nat.zero_le _

/-- In every state that steps in time lead to, no queue is longer than its slots,
    and the next request has one. -/
theorem slots_of_timed {calls : Nat → List UioInfo}
    (ids : ∀ t, ∀ uio ∈ calls t, uio.user_id = t ∧ uio.user_id < NUM_THREADS)
    (reachable : Reachable (step g) (Timed g) (System.start calls) st) : Slots g st :=
  slots_of_inv (reachable.invariant (P := RoomInv g) (room_start (few_of_ids ids)) fun inv timed next => room_step next timed inv)

/-- A request in time, with two threads at one stripe. -/
theorem slots_two_writers : ∃ st, Reachable (step defaultGeometry) (Timed defaultGeometry) (System.start two_writers) st ∧
    st.inqueue_data_len 0 = 1 ∧ Slots defaultGeometry st := by
  have result : (run (step defaultGeometry) (Timed defaultGeometry) [0, 0, 0, 0, 1, 1, 1, 1, 1, 1, 1]
      (System.start two_writers)).map (fun st => st.inqueue_data_len 0) = some 1 := by decide +kernel
  obtain ⟨st, reached, len⟩ := Option.map_eq_some_iff.mp result
  have reachable := run_reachable reached
  exact ⟨st, reachable, len, slots_of_timed two_writers_ids reachable⟩

/-- Thread 0 writes the first stripe three times, the others write to its first
    block. -/
def one_full_stripe : Nat → List UioInfo
  | 0 => List.replicate 3 ⟨0, true, 4096, 0, 458752⟩
  | t + 1 => if t + 1 < NUM_THREADS then List.replicate 3 ⟨t + 1, true, 4096, 0, 4096⟩ else []

theorem one_full_stripe_valid (t : Nat) :
    ∀ uio ∈ one_full_stripe t, uio.Valid defaultGeometry ∧ uio.user_id = t := by
  cases t with
  | zero => decide
  | succ t =>
    intro uio member
    rw [one_full_stripe] at member
    split at member
    · next small =>
      obtain rfl := List.eq_of_mem_replicate member
      exact ⟨⟨small, (by decide : 4096 ≠ 0), (by decide : 0 < 4096),
        (by decide : 0 + 4096 ≤ defaultGeometry.USER_SPACE_LEN)⟩, rfl⟩
    · cases member

/-- Thread 0 takes the lock, the others put their requests into its queue, it
    writes its stripe, and they go on. -/
def round (others : List Nat) : List Nat :=
  [0, 0, 0, 0] ++ others.flatMap (List.replicate 8) ++ [0, 0, 0, 0] ++ others

/-- After thread 0 has written two full stripes, its queue has fifty requests,
    and the next one finds no slot. -/
theorem slots_run_out : (∀ t, ∀ uio ∈ one_full_stripe t, uio.Valid defaultGeometry ∧ uio.user_id = t) ∧
    ∃ st, Reachable (step defaultGeometry) (fun _ _ => True) (System.start one_full_stripe) st ∧
      ∃ t wid, (st.threads t).pc.fetches = some wid ∧ BATCH_SLOTS ≤ st.inqueue_data_len wid := by
  refine ⟨one_full_stripe_valid, ?_⟩
  have result : (run (step defaultGeometry) (fun _ _ => True)
      (round (List.range' 1 31) ++ round (List.range' 1 19) ++ [0, 0, 0, 0] ++ List.replicate 6 20)
      (System.start one_full_stripe)).map (fun st => ((st.threads 20).pc.fetches, st.inqueue_data_len 0)) =
        some (some 0, 50) := by decide +kernel
  obtain ⟨st, reached, seen⟩ := Option.map_eq_some_iff.mp result
  obtain ⟨fetches, len⟩ := Prod.mk.injEq .. ▸ seen
  exact ⟨st, run_reachable reached, 20, 0, fetches, by rw [len, BATCH_SLOTS]⟩

end Straid.QueueBounds
