import Straid.Queues

/-!
Writes that are handed to the thread with the lock. A thread that has filled a
slot waits until the lock is free. When requests come in time (`Timely`), each
for the entry that the thread of the queue has locked, the slot is copied once,
by that thread, which submits its batch before it releases the lock
(`handed_over_of_timely`): the slot belongs to one waiting thread until it is
copied (`Uses`), then it is in a batch that is copied under the lock and not yet
submitted (`Held`), then it is delivered.
-/
namespace Straid.Handoffs
open LogFiles Metadata Split Threads Locks Queues Interleavings

variable (g : Geometry)

/-- A thread that collects under the lock that the other one waits for. -/
def SameEntry (w u : Thread) : Prop := w.entry g = u.entry g

instance (w u : Thread) : Decidable (SameEntry g w u) := inferInstanceAs (Decidable (_ = _))

/-- The event copies a slot of this writer. -/
def copiesFor (writer : Nat × Nat) : Event → Bool
  | .copied _ _ slot => slot.writer == some writer
  | _ => false

/-- How often a slot of this writer was copied. -/
def copies (log : List Event) (writer : Nat × Nat) : Nat := log.countP (copiesFor writer)

/-- A thread copied the slot under the lock of entry `s`, and has not released a
    lock since. -/
def Copied (log : List Event) (owner s : Nat) (slot : Slot) : Prop := ∃ since before,
  log = since ++ .copied owner s slot :: before ∧ ∀ event ∈ since, ∀ r, event ≠ .released owner r

/-- A thread copied the slot under the lock of entry `s`, and submitted it before
    it released the lock. -/
def Delivered (log : List Event) (s : Nat) (slot : Slot) : Prop := ∃ owner v_dios bat_dios later since,
  log = later ++ .submitted owner s v_dios bat_dios :: since ∧ slot ∈ bat_dios ∧ Copied since owner s slot

/-- Every write that a thread left to another was copied exactly once, and
    delivered. -/
def HandedOver (st : System) : Prop := ∀ s slot, Event.delegated s slot ∈ st.log →
  Delivered st.log s slot ∧ ∃ writer, slot.writer = some writer ∧ copies st.log writer = 1

/-- The slot that a thread is waiting for. -/
def waits : Pc → Option (Nat × Nat)
  | .spin wid idx _ => some (wid, idx)
  | _ => none

/-- The slot as a thread fills it. -/
def request (st : System) (t : Nat) : Slot := ⟨(st.threads t).pc.dio.getD default, some (t, (st.threads t).count)⟩

/-- A slot is for thread `t`: it is to fill it, or has filled it and it is not yet
    copied. -/
def Uses (st : System) (t w i : Nat) : Prop := (st.threads t).pc.fills = some (w, i) ∨
  waits (st.threads t).pc = some (w, i) ∧ copies st.log (t, (st.threads t).count) = 0

/-- A slot is in the batch of a thread with the lock of entry `s`. -/
def Held (st : System) (s : Nat) (slot : Slot) : Prop :=
  ∃ w, slot ∈ (st.threads w).pc.batch ∧ (st.threads w).entry g = s

/-- The slots that are yet to be copied are for one thread each. -/
structure SlotInv (st : System) : Prop where
  live : ∀ t w i, Uses st t w i → LiveIn g st w i ∧ (st.threads w).entry g = (st.threads t).entry g
  unique : ∀ t u w i, Uses st t w i → Uses st u w i → t = u
  used : ∀ w i, LiveIn g st w i → ∃ t, Uses st t w i

/-- What holds between two steps. -/
structure HandInv (st : System) : Prop where
  locks : LockInv g st
  len : LenInv g st
  sound : ∀ t, Sound g t (st.threads t)
  slots : SlotInv g st
  mine : ∀ t w i, waits (st.threads t).pc = some (w, i) → copies st.log (t, (st.threads t).count) = 0 →
    st.v_batchque2 w i = request st t
  taken : ∀ t, waits (st.threads t).pc ≠ none → copies st.log (t, (st.threads t).count) ≠ 0 →
    copies st.log (t, (st.threads t).count) = 1 ∧
      (Held g st ((st.threads t).entry g) (request st t) ∨ Delivered st.log ((st.threads t).entry g) (request st t))
  fresh : ∀ t n, (st.threads t).count < n ∨ n = (st.threads t).count ∧ waits (st.threads t).pc = none →
    copies st.log (t, n) = 0
  copied : ∀ w, ∀ slot ∈ (st.threads w).pc.batch, Copied st.log w ((st.threads w).entry g) slot
  handed : HandedOver st

variable {g} {t : Nat} {st st' : System}

/-! ### The log -/

theorem copies_cons (event : Event) (log : List Event) (writer : Nat × Nat) :
    copies (event :: log) writer = copies log writer + if copiesFor writer event then 1 else 0 := by
  simp [copies, List.countP_cons]

theorem Copied.cons {log : List Event} {owner s : Nat} {slot : Slot} (copied : Copied log owner s slot) {event : Event}
    (keeps : ∀ r, event ≠ .released owner r) : Copied (event :: log) owner s slot := by
  obtain ⟨since, before, rfl, none⟩ := copied
  refine ⟨event :: since, before, rfl, fun other member => ?_⟩
  rcases List.mem_cons.mp member with rfl | earlier
  · exact keeps
  · exact none other earlier

theorem Delivered.cons {log : List Event} {s : Nat} {slot : Slot} (delivered : Delivered log s slot) (event : Event) :
    Delivered (event :: log) s slot := by
  obtain ⟨owner, v_dios, bat_dios, later, since, rfl, member, copied⟩ := delivered
  exact ⟨owner, v_dios, bat_dios, event :: later, since, rfl, member, copied⟩

/-- An event that is neither a copy nor the end of a wait keeps what was handed
    over. -/
theorem HandedOver.record (handed : HandedOver st) {event : Event} (log : st'.log = event :: st.log)
    (no_copy : ∀ writer, copies st.log writer = 1 → copiesFor writer event = false)
    (no_end : ∀ s slot, event ≠ .delegated s slot) : HandedOver st' := by
  intro s slot member
  rw [log] at member ⊢
  rcases List.mem_cons.mp member with rfl | earlier
  · exact absurd rfl (no_end s slot)
  · obtain ⟨delivered, writer, wrote, once⟩ := handed s slot earlier
    refine ⟨delivered.cons event, writer, wrote, ?_⟩
    rw [copies_cons, no_copy writer once, once]
    rfl

/-- What a step that copies no slot and ends no wait adds to the log. -/
inductive LogStep (st st' : System) : Prop
  | same (log : st'.log = st.log)
  | event (event : Event) (log : st'.log = event :: st.log) (no_copy : ∀ writer, copiesFor writer event = false)
      (no_end : ∀ s slot, event ≠ .delegated s slot)
      (held : ∀ w, (st'.threads w).pc.batch ≠ [] → ∀ r, event ≠ .released w r)

namespace LogStep

theorem copies_eq (step : LogStep st st') (writer : Nat × Nat) : copies st'.log writer = copies st.log writer := by
  cases step with
  | same log => rw [log]
  | event event log no_copy => simp [log, copies_cons, no_copy]

theorem copied (step : LogStep st st') {w s : Nat} {slot : Slot} (copied : Copied st.log w s slot)
    (batch : (st'.threads w).pc.batch ≠ []) : Copied st'.log w s slot := by
  cases step with
  | same log => rwa [log]
  | event event log _ _ held => exact log ▸ copied.cons (held w batch)

theorem delivered (step : LogStep st st') {s : Nat} {slot : Slot} (delivered : Delivered st.log s slot) :
    Delivered st'.log s slot := by
  cases step with
  | same log => rwa [log]
  | event event log => exact log ▸ delivered.cons event

theorem handed (step : LogStep st st') (handed : HandedOver st) : HandedOver st' := by
  cases step with
  | same log => rwa [HandedOver, log]
  | event event log no_copy no_end => exact handed.record log (fun writer _ => no_copy writer) no_end

end LogStep

/-! ### Locks and queues -/

theorem live_holds {w i : Nat} (live : LiveIn g st w i) : (st.threads w).pc.holds = true := by
  by_contra free
  exact not_live (by simpa using free) _ _ live

theorem batch_holds {pc : Pc} {slot : Slot} (member : slot ∈ pc.batch) : pc.holds = true := by
  cases pc <;> simp_all [Pc.batch, Pc.holds]

/-- Nobody holds an entry that is not locked. -/
theorem free_apart (locks : LockInv g st) {s : Nat} (free : locked st s = false) {w : Nat}
    (holds : (st.threads w).pc.holds = true) : (st.threads w).entry g ≠ s := by
  intro equal
  have taken := locks.held w holds
  rw [equal, free] at taken
  cases taken

theorem waits_fills {pc : Pc} {w i : Nat} (waiting : waits pc = some (w, i)) : pc.fills = none := by
  cases pc <;> simp_all [Pc.fills, waits]

theorem not_uses (fills : (st.threads t).pc.fills = none) (idle : waits (st.threads t).pc = none) (w i : Nat) :
    ¬ Uses st t w i := by
  simp [Uses, fills, idle]

/-! ### The steps -/

/-- The slots after a step that copies those in `gone`, or none. -/
theorem SlotInv.keeps (inv : SlotInv g st) (gone : Nat → Nat → Prop)
    (live : ∀ w i, LiveIn g st' w i ↔ LiveIn g st w i ∧ ¬ gone w i)
    (uses : ∀ v w i, Uses st' v w i ↔ Uses st v w i ∧ ¬ gone w i)
    (entry : ∀ v w i, Uses st' v w i → LiveIn g st' w i →
      (st'.threads w).entry g = (st.threads w).entry g ∧ (st'.threads v).entry g = (st.threads v).entry g) :
    SlotInv g st' := by
  refine ⟨?_, ?_, ?_⟩
  · intro v w i use
    obtain ⟨before, stays⟩ := (uses v w i).mp use
    obtain ⟨was_live, equal⟩ := inv.live v w i before
    have is_live := (live w i).mpr ⟨was_live, stays⟩
    obtain ⟨queue, own⟩ := entry v w i use is_live
    exact ⟨is_live, by rw [queue, own, equal]⟩
  · intro v x w i use use'
    exact inv.unique v x w i ((uses v w i).mp use).1 ((uses x w i).mp use').1
  · intro w i is_live
    obtain ⟨was_live, stays⟩ := (live w i).mp is_live
    obtain ⟨v, before⟩ := inv.used w i was_live
    exact ⟨v, (uses v w i).mpr ⟨before, stays⟩⟩

/-- A write that was copied before the step is still in the batch, or is
    delivered. -/
theorem taken_keeps (inv : HandInv g st) {v : Nat} (same : st'.threads v = st.threads v)
    (count : copies st'.log (v, (st.threads v).count) = copies st.log (v, (st.threads v).count))
    (waiting : waits (st'.threads v).pc ≠ none) (some_copied : copies st'.log (v, (st'.threads v).count) ≠ 0)
    (held : ∀ w, ∀ slot ∈ (st.threads w).pc.batch,
      slot ∈ (st'.threads w).pc.batch ∧ (st'.threads w).entry g = (st.threads w).entry g ∨
        Delivered st'.log ((st.threads w).entry g) slot)
    (delivered : ∀ s slot, Delivered st.log s slot → Delivered st'.log s slot) :
    copies st'.log (v, (st'.threads v).count) = 1 ∧
      (Held g st' ((st'.threads v).entry g) (request st' v) ∨
        Delivered st'.log ((st'.threads v).entry g) (request st' v)) := by
  have filled : request st' v = request st v := by rw [request, request, same]
  rw [same] at waiting some_copied
  rw [filled, same]
  rw [count] at some_copied ⊢
  obtain ⟨once, taken⟩ := inv.taken v waiting some_copied
  refine ⟨once, ?_⟩
  rcases taken with ⟨w, member, equal⟩ | before
  · rcases held w _ member with ⟨still, entry⟩ | now
    · exact .inl ⟨w, still, entry.trans equal⟩
    · exact .inr (equal ▸ now)
  · exact .inr (delivered _ _ before)

/-- A step of a thread that neither has a slot nor copies one. -/
theorem hand_keeps (inv : HandInv g st) (locks : LockInv g st') (len : LenInv g st')
    (sound : ∀ u, Sound g u (st'.threads u)) (frame : ∀ u, u ≠ t → st'.threads u = st.threads u)
    (keeps : KeepsQueues g st st') (idle : waits (st.threads t).pc = none) (idle' : waits (st'.threads t).pc = none)
    (count : (st.threads t).count ≤ (st'.threads t).count) (log : LogStep st st')
    (held : ∀ w, ∀ slot ∈ (st.threads w).pc.batch,
      slot ∈ (st'.threads w).pc.batch ∨ Delivered st'.log ((st.threads w).entry g) slot) : HandInv g st' := by
  have entry : ∀ u, Engaged g st' u → (st'.threads u).entry g = (st.threads u).entry g := by
    intro u engaged
    obtain ⟨pc, eq⟩ := keeps.same u engaged
    rw [eq]
    rfl
  have waiting : ∀ u, waits (st'.threads u).pc ≠ none → st'.threads u = st.threads u := by
    intro u waiting
    refine frame u ?_
    rintro rfl
    exact waiting idle'
  have uses : ∀ u w i, Uses st' u w i ↔ Uses st u w i := by
    intro u w i
    rw [Uses, Uses, keeps.fills, log.copies_eq]
    by_cases own : u = t
    · subst own
      simp [idle, idle']
    · rw [frame u own]
  refine ⟨locks, len, sound, ?_, ?_, ?_, ?_, ?_, log.handed inv.handed⟩
  · refine inv.slots.keeps (fun _ _ => False) (by simpa using keeps.live) (by simpa using uses) ?_
    intro u w i use live
    refine ⟨entry w (.inr (.inl ⟨i, live⟩)), ?_⟩
    rcases use with filling | ⟨waiting', _⟩
    · exact entry u (.inl (by simp [filling]))
    · rw [waiting u (by simp [waiting'])]
  · intro u w i waiting' none_copied
    have same := waiting u (by simp [waiting'])
    rw [same] at waiting' none_copied
    rw [log.copies_eq] at none_copied
    rw [keeps.slots, request, same]
    exact inv.mine u w i waiting' none_copied
  · intro u waiting' some_copied
    refine taken_keeps inv (waiting u waiting') (log.copies_eq _) waiting' some_copied ?_ fun _ _ => log.delivered
    intro w slot member
    rcases held w slot member with still | delivered
    · exact .inl ⟨still, entry w (.inr (.inr (List.ne_nil_of_mem still)))⟩
    · exact .inr delivered
  · intro u n next
    rw [log.copies_eq]
    by_cases own : u = t
    · subst own
      refine inv.fresh u n ?_
      rcases next with later | ⟨rfl, _⟩
      · exact .inl (by omega)
      · by_cases same : (st'.threads u).count = (st.threads u).count
        · exact .inr ⟨same, idle⟩
        · exact .inl (by omega)
    · rw [frame u own] at next
      exact inv.fresh u n next
  · intro w slot member
    have batch := List.ne_nil_of_mem member
    rw [entry w (.inr (.inr batch))]
    exact log.copied (inv.copied w slot (keeps.batch w slot member)) batch

theorem goto_entry (st : System) (t : Nat) (pc : Pc) (u : Nat) :
    ((st.goto t pc).threads u).entry g = (st.threads u).entry g := by
  by_cases own : u = t
  · subst own
    simp [Thread.entry]
  · simp [own]

/-- A slot that is copied is of a thread that waits for it, and was not copied
    before. -/
theorem copy_target (inv : HandInv g st) {qlen : Nat} {bat_dios : List Slot} (pc : (st.threads t).pc = .copy qlen bat_dios)
    (ready : ∀ u, (st.threads u).pc.fills ≠ some (t, bat_dios.length)) : ∃ u,
      waits (st.threads u).pc = some (t, bat_dios.length) ∧ copies st.log (u, (st.threads u).count) = 0 ∧
      (st.threads t).entry g = (st.threads u).entry g ∧ st.v_batchque2 t bat_dios.length = request st u := by
  have live : LiveIn g st t bat_dios.length := (live_copy pc _ _).mpr ⟨Nat.le_refl _, (inv.len.copying t _ _ pc).2⟩
  obtain ⟨u, use⟩ := inv.slots.used t bat_dios.length live
  obtain ⟨waiting, none_copied⟩ := use.resolve_left (ready u)
  exact ⟨u, waiting, none_copied, (inv.slots.live u _ _ use).2, inv.mine u _ _ waiting none_copied⟩

theorem copies_copied {log : List Event} {owner s u : Nat} (writer : Nat × Nat) :
    copies (.copied owner s (request st u) :: log) writer =
      copies log writer + if writer = (u, (st.threads u).count) then 1 else 0 := by
  rw [copies_cons]
  by_cases own : writer = (u, (st.threads u).count)
  · simp [copiesFor, request, own]
  · simp [copiesFor, request, own, Ne.symm own]

/-- What the copy of the slot of thread `u` changes. -/
structure CopiedSlot (g : Geometry) (st after : System) (t u : Nat) (bat_dios : List Slot) : Prop where
  entry : ∀ v, (after.threads v).entry g = (st.threads v).entry g
  frame : ∀ v, v ≠ t → after.threads v = st.threads v
  count : (after.threads t).count = (st.threads t).count
  fills : (after.threads t).pc.fills = none
  waits : waits (after.threads t).pc = none
  batch : (after.threads t).pc.batch = bat_dios ++ [request st u]
  log : after.log = .copied t ((st.threads t).entry g) (request st u) :: st.log
  slots : after.v_batchque2 = st.v_batchque2

theorem copy_effect {u qlen : Nat} {bat_dios : List Slot} (slot : st.v_batchque2 t bat_dios.length = request st u) :
    CopiedSlot g st (copy t ((st.threads t).entry g) qlen bat_dios st) t u bat_dios := by
  have at_copy : ((copy t ((st.threads t).entry g) qlen bat_dios st).threads t).pc.fills = none ∧
      waits ((copy t ((st.threads t).entry g) qlen bat_dios st).threads t).pc = none ∧
      ((copy t ((st.threads t).entry g) qlen bat_dios st).threads t).pc.batch = bat_dios ++ [request st u] := by
    rw [copy, goto_own, ← slot]
    split <;> exact ⟨rfl, rfl, rfl⟩
  refine ⟨fun v => goto_entry (st.record _) t _ v, fun v own => goto_other (st.record _) _ own, by simp [copy],
    at_copy.1, at_copy.2.1, at_copy.2.2, ?_, rfl⟩
  rw [copy, slot]
  rfl

theorem CopiedSlot.copies {after : System} {u : Nat} {bat_dios : List Slot} (effect : CopiedSlot g st after t u bat_dios)
    (writer : Nat × Nat) :
    copies after.log writer = copies st.log writer + if writer = (u, (st.threads u).count) then 1 else 0 := by
  rw [effect.log]
  exact copies_copied writer

theorem CopiedSlot.same_copies {after : System} {u : Nat} {bat_dios : List Slot}
    (effect : CopiedSlot g st after t u bat_dios) {v : Nat} (different : v ≠ u) (n : Nat) :
    Handoffs.copies after.log (v, n) = Handoffs.copies st.log (v, n) := by
  rw [effect.copies, if_neg (by simp [different])]
  rfl

/-- The thread that waited for the copy no longer uses the slot; every other slot
    is used as before. -/
theorem CopiedSlot.uses {after : System} {u qlen : Nat} {bat_dios : List Slot}
    (effect : CopiedSlot g st after t u bat_dios) (pc : (st.threads t).pc = .copy qlen bat_dios)
    (waiting : Handoffs.waits (st.threads u).pc = some (t, bat_dios.length)) (v w i : Nat) :
    Uses after v w i ↔ Uses st v w i ∧ v ≠ u := by
  by_cases own : v = t
  · subst own
    have before : ¬ Uses st v w i := not_uses (by simp [pc, Pc.fills]) (by simp [pc, Handoffs.waits]) w i
    exact iff_of_false (not_uses effect.fills effect.waits w i) fun use => before use.1
  · rw [Uses, Uses, effect.frame v own]
    by_cases different : v = u
    · subst different
      simp [waits_fills waiting, effect.copies]
    · simp [effect.same_copies different, different]

/-- The copy of a slot: the thread that uses it has its write in the batch. -/
theorem hand_copy (inv : HandInv g st) {qlen : Nat} {bat_dios : List Slot} (pc : (st.threads t).pc = .copy qlen bat_dios)
    (ready : ∀ u, (st.threads u).pc.fills ≠ some (t, bat_dios.length)) {after : System}
    (eq : after = copy t ((st.threads t).entry g) qlen bat_dios st) (locks : LockInv g after) (len : LenInv g after)
    (sound : ∀ u, Sound g u (after.threads u)) : HandInv g after := by
  obtain ⟨u, waiting, none_copied, equal, slot⟩ := copy_target inv pc ready
  have effect : CopiedSlot g st after t u bat_dios := eq ▸ copy_effect slot
  have uses := effect.uses pc waiting
  have waiting_other : ∀ v, waits (after.threads v).pc ≠ none → v ≠ t := by
    rintro v waits rfl
    exact waits effect.waits
  have batch : ∀ w, ∀ item ∈ (st.threads w).pc.batch, item ∈ (after.threads w).pc.batch := by
    intro w item member
    by_cases own : w = t
    · subst own
      rw [effect.batch]
      exact List.mem_append_left _ (by simpa [pc, Pc.batch] using member)
    · rwa [effect.frame w own]
  refine ⟨locks, len, sound, ?_, ?_, ?_, ?_, ?_, ?_⟩
  · refine inv.slots.keeps (fun w i => w = t ∧ i = bat_dios.length) (fun w i => eq ▸ live_copy_step inv.len pc _ w i) ?_
      fun v w _ _ _ => ⟨effect.entry w, effect.entry v⟩
    intro v w i
    rw [uses]
    refine and_congr_right fun before => not_congr ⟨?_, ?_⟩
    · rintro rfl
      have place := before.resolve_left (by simp [waits_fills waiting])
      rw [waiting, Option.some.injEq, Prod.mk.injEq] at place
      exact ⟨place.1.1.symm, place.1.2.symm⟩
    · rintro ⟨rfl, rfl⟩
      exact inv.slots.unique v u _ _ before (.inr ⟨waiting, none_copied⟩)
  · intro v w i waiting' fresh
    have different := ((uses v w i).mp (.inr ⟨waiting', fresh⟩)).2
    have own := waiting_other v (by simp [waiting'])
    rw [effect.frame v own] at waiting' fresh
    rw [effect.same_copies different] at fresh
    rw [effect.slots, request, effect.frame v own]
    exact inv.mine v w i waiting' fresh
  · intro v waiting' some_copied
    have own := waiting_other v waiting'
    by_cases different : v = u
    · subst different
      have same : request after v = request st v := by rw [request, request, effect.frame v own]
      rw [effect.entry, same, effect.frame v own, effect.copies, if_pos rfl, none_copied]
      refine ⟨rfl, .inl ⟨t, ?_, (effect.entry t).trans equal⟩⟩
      rw [effect.batch]
      exact List.mem_append_right _ List.mem_cons_self
    · exact taken_keeps inv (effect.frame v own) (effect.same_copies different _) waiting' some_copied
        (fun w item member => .inl ⟨batch w item member, effect.entry w⟩) fun _ _ before => effect.log ▸ before.cons _
  · intro v n next
    have before : (st.threads v).count < n ∨ n = (st.threads v).count ∧ waits (st.threads v).pc = none := by
      by_cases own : v = t
      · subst own
        rw [effect.count] at next
        exact next.imp_right fun this => ⟨this.1, by simp [pc, waits]⟩
      · rwa [effect.frame v own] at next
    have apart : (v, n) ≠ (u, (st.threads u).count) := by
      rintro same
      obtain ⟨rfl, rfl⟩ := Prod.mk.injEq .. ▸ same
      simp [waiting] at before
    rw [effect.copies, if_neg apart]
    exact inv.fresh v n before
  · intro w item member
    rw [effect.entry, effect.log]
    by_cases own : w = t
    · subst own
      rw [effect.batch] at member
      rcases List.mem_append.mp member with old | new
      · exact (inv.copied w item (by simpa [pc, Pc.batch] using old)).cons (by simp)
      · rw [List.mem_singleton.mp new]
        exact ⟨[], st.log, rfl, by simp⟩
    · rw [effect.frame w own] at member
      exact (inv.copied w item member).cons (by simp)
  · refine inv.handed.record effect.log (fun writer once => ?_) (by simp)
    simp only [copiesFor, request, beq_eq_false_iff_ne, ne_eq, Option.some.injEq]
    rintro rfl
    omega

/-- A step that takes or fills a slot: what is said of the log stays. -/
theorem hand_slots (inv : HandInv g st) (locks : LockInv g st') (len : LenInv g st')
    (sound : ∀ u, Sound g u (st'.threads u)) (entry : ∀ u, (st'.threads u).entry g = (st.threads u).entry g)
    (frame : ∀ u, u ≠ t → st'.threads u = st.threads u) (count : (st'.threads t).count = (st.threads t).count)
    (log : st'.log = st.log) (idle : waits (st.threads t).pc = none) (batch : (st.threads t).pc.batch = [])
    (batch' : (st'.threads t).pc.batch = [])
    (slots : SlotInv g st') (mine : ∀ v w i, waits (st'.threads v).pc = some (w, i) → copies st'.log (v, (st'.threads v).count) = 0 →
      st'.v_batchque2 w i = request st' v) : HandInv g st' := by
  refine ⟨locks, len, sound, slots, mine, ?_, ?_, ?_, ?_⟩
  · intro v waiting some_copied
    have own : v ≠ t := by
      rintro rfl
      rw [log, count] at some_copied
      exact some_copied (inv.fresh v _ (.inr ⟨rfl, idle⟩))
    refine taken_keeps inv (frame v own) (by rw [log]) waiting some_copied ?_ fun _ _ before => log ▸ before
    intro w slot member
    have other : w ≠ t := by
      rintro rfl
      simp [batch] at member
    exact .inl ⟨by rwa [frame w other], entry w⟩
  · intro v n next
    rw [log]
    refine inv.fresh v n ?_
    by_cases own : v = t
    · subst own
      rw [count] at next
      exact next.imp_right fun this => ⟨this.1, idle⟩
    · rwa [frame v own] at next
  · intro w slot member
    have own : w ≠ t := by
      rintro rfl
      simp [batch'] at member
    rw [frame w own] at member
    rw [entry, log]
    exact inv.copied w slot member
  · rw [HandedOver, log]
    exact inv.handed

/-- A slot is taken: its thread uses it from now on. -/
theorem hand_fetch (inv : HandInv g st) {wid : Nat} {dio : DioInfo} (pc : (st.threads t).pc = .fetch_add wid dio)
    (collects : (st.threads wid).collects g = true) (equal : (st.threads wid).entry g = (st.threads t).entry g)
    {after : System} (eq : after = (st.set_len wid (st.inqueue_data_len wid + 1)).goto t
      (.store_slot wid (st.inqueue_data_len wid) dio)) (locks : LockInv g after) (len : LenInv g after)
    (sound : ∀ u, Sound g u (after.threads u)) : HandInv g after := by
  have entry : ∀ u, (after.threads u).entry g = (st.threads u).entry g :=
    fun u => by rw [eq]; exact goto_entry (st.set_len ..) t _ u
  have frame : ∀ u, u ≠ t → after.threads u = st.threads u := fun u own => by rw [eq]; exact goto_other (st.set_len ..) _ own
  have live_iff : ∀ w i, LiveIn g after w i ↔ LiveIn g st w i ∨ w = wid ∧ i = st.inqueue_data_len wid :=
    fun w i => eq ▸ live_fetch_step pc collects w i
  have log : after.log = st.log := by rw [eq]; rfl
  have slots : after.v_batchque2 = st.v_batchque2 := by rw [eq]; rfl
  have pc' : (after.threads t).pc = .store_slot wid (st.inqueue_data_len wid) dio := by rw [eq, goto_own]
  -- The slot is past the ones in use.
  have last : ∀ i, LiveIn g st wid i → i < st.inqueue_data_len wid := by
    intro i live
    rw [LiveIn, live_collects _ (collects_leaves collects)] at live
    exact live.2
  have uses : ∀ v w i, Uses after v w i ↔ v = t ∧ w = wid ∧ i = st.inqueue_data_len wid ∨ v ≠ t ∧ Uses st v w i := by
    intro v w i
    by_cases own : v = t
    · subst own
      simp [Uses, pc', Pc.fills, waits, eq_comm]
    · simp [Uses, frame v own, log, own]
  refine hand_slots inv locks len sound entry frame (by simp [eq]) log (by simp [pc, waits]) (by simp [pc, Pc.batch])
    (by simp [pc', Pc.batch]) ⟨?_, ?_, ?_⟩ ?_
  · intro v w i use
    rw [entry, entry, live_iff]
    rcases (uses v w i).mp use with ⟨rfl, rfl, rfl⟩ | ⟨_, before⟩
    · exact ⟨.inr ⟨rfl, rfl⟩, equal⟩
    · exact ⟨.inl (inv.slots.live v w i before).1, (inv.slots.live v w i before).2⟩
  · intro v x w i use use'
    rcases (uses v w i).mp use with ⟨rfl, rfl, rfl⟩ | ⟨_, before⟩ <;>
      rcases (uses x _ _).mp use' with ⟨rfl, _, other⟩ | ⟨_, before'⟩
    · rfl
    · exact absurd (last _ (inv.slots.live x _ _ before').1) (Nat.lt_irrefl _)
    · subst_vars
      exact absurd (last _ (inv.slots.live v _ _ before).1) (Nat.lt_irrefl _)
    · exact inv.slots.unique v x w i before before'
  · intro w i live
    rcases (live_iff w i).mp live with was_live | ⟨rfl, rfl⟩
    · obtain ⟨v, before⟩ := inv.slots.used w i was_live
      have own : v ≠ t := by
        rintro rfl
        simp [Uses, pc, Pc.fills, waits] at before
      exact ⟨v, (uses v w i).mpr (.inr ⟨own, before⟩)⟩
    · exact ⟨t, (uses t _ _).mpr (.inl ⟨rfl, rfl, rfl⟩)⟩
  · intro v w i waiting fresh
    have own : v ≠ t := by
      rintro rfl
      simp [pc', waits] at waiting
    rw [frame v own, log] at fresh
    rw [frame v own] at waiting
    rw [slots, request, frame v own]
    exact inv.mine v w i waiting fresh

/-- A slot is filled: its thread goes on using it. -/
theorem hand_fill (inv : HandInv g st) {wid idx : Nat} {dio : DioInfo} (pc : (st.threads t).pc = .store_slot wid idx dio)
    {after : System} (eq : after = (st.set_slot wid idx ⟨dio, some (t, (st.threads t).count)⟩).goto t (.spin wid idx dio))
    (locks : LockInv g after) (len : LenInv g after) (sound : ∀ u, Sound g u (after.threads u)) : HandInv g after := by
  have entry : ∀ u, (after.threads u).entry g = (st.threads u).entry g :=
    fun u => by rw [eq]; exact goto_entry (st.set_slot ..) t _ u
  have frame : ∀ u, u ≠ t → after.threads u = st.threads u := fun u own => by rw [eq]; exact goto_other (st.set_slot ..) _ own
  have live_iff : ∀ w i, LiveIn g after w i ↔ LiveIn g st w i := fun w i => eq ▸ live_fill_step pc _ w i
  have log : after.log = st.log := by rw [eq]; rfl
  have pc' : (after.threads t).pc = .spin wid idx dio := by rw [eq, goto_own]
  have count : (after.threads t).count = (st.threads t).count := by simp [eq]
  have fresh : copies st.log (t, (st.threads t).count) = 0 := inv.fresh t _ (.inr ⟨rfl, by simp [pc, waits]⟩)
  have filling : Uses st t wid idx := .inl (by simp [pc, Pc.fills])
  have uses : ∀ v w i, Uses after v w i ↔ Uses st v w i := by
    intro v w i
    by_cases own : v = t
    · subst own
      simp [Uses, pc, pc', Pc.fills, waits, log, count, fresh]
    · simp [Uses, frame v own, log]
  refine hand_slots inv locks len sound entry frame count log (by simp [pc, waits]) (by simp [pc, Pc.batch])
    (by simp [pc', Pc.batch]) (inv.slots.keeps (fun _ _ => False) (by simpa using live_iff) (by simpa using uses)
      fun v w _ _ _ => ⟨entry w, entry v⟩) ?_
  intro v w i waiting none_copied
  by_cases own : v = t
  · subst own
    simp only [pc', waits, Option.some.injEq, Prod.mk.injEq] at waiting
    obtain ⟨rfl, rfl⟩ := waiting
    rw [request, pc', count, eq, System.goto, System.set, set_slot_own]
    rfl
  · -- The slot of another thread is not overwritten.
    have use : Uses st v w i := (uses v w i).mp (.inr ⟨waiting, none_copied⟩)
    rw [frame v own] at waiting none_copied
    rw [log] at none_copied
    have apart : ¬ (w = wid ∧ i = idx) := by
      rintro ⟨rfl, rfl⟩
      exact own (inv.slots.unique v t _ _ use filling)
    rw [request, frame v own, eq, System.goto, System.set, set_slot_other _ _ apart]
    exact inv.mine v w i waiting none_copied

/-- When the lock is free, the write of a thread that waits for it was copied once
    and delivered. -/
theorem leave_delivered (inv : HandInv g st) {wid idx : Nat} {dio : DioInfo} (pc : (st.threads t).pc = .spin wid idx dio)
    (free : locked st ((st.threads t).entry g) = false) :
    Delivered st.log ((st.threads t).entry g) ⟨dio, some (t, (st.threads t).count)⟩ ∧
      copies st.log (t, (st.threads t).count) = 1 := by
  have waiting : waits (st.threads t).pc = some (wid, idx) := by simp [pc, waits]
  have some_copied : copies st.log (t, (st.threads t).count) ≠ 0 := by
    intro none_copied
    obtain ⟨live, equal⟩ := inv.slots.live t wid idx (.inr ⟨waiting, none_copied⟩)
    exact free_apart inv.locks free (live_holds live) equal
  obtain ⟨once, taken⟩ := inv.taken t (by simp [waiting]) some_copied
  have mine : request st t = ⟨dio, some (t, (st.threads t).count)⟩ := by simp [request, pc, Pc.dio]
  rw [mine] at taken
  refine ⟨?_, once⟩
  -- Whoever has the slot in a batch has the lock.
  rcases taken with ⟨w, member, equal⟩ | delivered
  · exact absurd equal (free_apart inv.locks free (batch_holds member))
  · exact delivered

/-- The end of a wait: the write was delivered. -/
theorem hand_leave (inv : HandInv g st) {wid idx : Nat} {dio : DioInfo} (pc : (st.threads t).pc = .spin wid idx dio)
    (free : locked st ((st.threads t).entry g) = false) {after : System}
    (eq : after = (st.record (.delegated ((st.threads t).entry g) ⟨dio, some (t, (st.threads t).count)⟩)).set t
      (st.threads t).next) (locks : LockInv g after) (len : LenInv g after) (sound : ∀ u, Sound g u (after.threads u)) :
    HandInv g after := by
  obtain ⟨delivered, once⟩ := leave_delivered inv pc free
  have frame : ∀ u, u ≠ t → after.threads u = st.threads u := fun u own => by simp [eq, own]
  have log : after.log = .delegated ((st.threads t).entry g) ⟨dio, some (t, (st.threads t).count)⟩ :: st.log := by rw [eq]; rfl
  have slots : after.v_batchque2 = st.v_batchque2 := by rw [eq]; rfl
  have next : (after.threads t).pc.fills = none ∧ waits (after.threads t).pc = none ∧ (after.threads t).pc.batch = [] ∧
      (after.threads t).count = (st.threads t).count + 1 := by
    simp only [eq, System.set, System.record, Function.update_self, Thread.next]
    split <;> exact ⟨rfl, rfl, rfl, rfl⟩
  have same_copies : ∀ writer, copies after.log writer = copies st.log writer := by
    intro writer
    rw [log, copies_cons]
    rfl
  have free' : (after.threads t).pc.holds = false := by simp [eq, next_holds]
  have live_iff : ∀ w i, LiveIn g after w i ↔ LiveIn g st w i := by
    intro w i
    by_cases own : w = t
    · subst own
      exact iff_of_false (not_live free' _ _) (not_live (by simp [pc, Pc.holds]) _ _)
    · rw [LiveIn, LiveIn, frame w own, eq]
      rfl
  have uses : ∀ v w i, Uses after v w i ↔ Uses st v w i := by
    intro v w i
    by_cases own : v = t
    · subst own
      exact iff_of_false (not_uses next.1 next.2.1 w i) (by simp [Uses, pc, Pc.fills, once])
    · simp [Uses, frame v own, same_copies]
  refine ⟨locks, len, sound, ?_, ?_, ?_, ?_, ?_, ?_⟩
  · refine inv.slots.keeps (fun _ _ => False) (by simpa using live_iff) (by simpa using uses) ?_
    intro v w i use live
    have queue : w ≠ t := by
      rintro rfl
      exact not_live free' _ _ live
    have own : v ≠ t := by
      rintro rfl
      exact not_uses next.1 next.2.1 _ _ use
    rw [frame w queue, frame v own]
    exact ⟨rfl, rfl⟩
  · intro v w i waiting fresh
    have own : v ≠ t := by
      rintro rfl
      rw [next.2.1] at waiting
      cases waiting
    rw [frame v own] at waiting
    rw [frame v own, same_copies] at fresh
    rw [slots, request, frame v own]
    exact inv.mine v w i waiting fresh
  · intro v waiting some_copied
    have own : v ≠ t := by
      rintro rfl
      exact waiting next.2.1
    refine taken_keeps inv (frame v own) (same_copies _) waiting some_copied ?_ fun _ _ before => log ▸ before.cons _
    intro w slot member
    have other : w ≠ t := by
      rintro rfl
      simp [pc, Pc.batch] at member
    rw [frame w other]
    exact .inl ⟨member, rfl⟩
  · intro v n later
    rw [same_copies]
    refine inv.fresh v n ?_
    by_cases own : v = t
    · subst own
      rw [next.2.2.2] at later
      exact .inl (by omega)
    · rwa [frame v own] at later
  · intro w slot member
    have own : w ≠ t := by
      rintro rfl
      simp [next.2.2.1] at member
    rw [frame w own] at member ⊢
    exact log ▸ (inv.copied w slot member).cons (by simp)
  · intro s slot member
    rw [log] at member
    rw [log]
    rcases List.mem_cons.mp member with same | earlier
    · obtain ⟨rfl, rfl⟩ := Event.delegated.injEq .. ▸ same
      exact ⟨delivered.cons _, _, rfl, by rw [← log, same_copies]; exact once⟩
    · obtain ⟨delivered, writer, wrote, once⟩ := inv.handed s slot earlier
      exact ⟨delivered.cons _, writer, wrote, by rw [← log, same_copies]; exact once⟩

/-- A step that neither copies a slot nor takes or fills one, of a thread that
    does not wait. -/
theorem hand_quiet (effect : Effect g t st st') (timely : Timely g (SameEntry g) st t) (inv : HandInv g st)
    (copies : (st.threads t).pc.copies = none) (fetches : (st.threads t).pc.fetches = none)
    (fills : (st.threads t).pc.fills = none) (idle : waits (st.threads t).pc = none)
    (idle' : waits (st'.threads t).pc = none) (count : (st.threads t).count ≤ (st'.threads t).count)
    (log : LogStep st st') (held : ∀ slot ∈ (st.threads t).pc.batch,
      slot ∈ (st'.threads t).pc.batch ∨ Delivered st'.log ((st.threads t).entry g) slot) : HandInv g st' := by
  refine hand_keeps inv (locks_step effect inv.locks) (len_step effect timely inv.len) (sound_step effect inv.sound)
    (fun u => effect_frame effect) (keeps_queues effect inv.len copies fetches fills) idle idle' count log ?_
  intro w slot member
  by_cases own : w = t
  · subst own
    exact held slot member
  · exact .inl (by rwa [effect_frame effect own])

theorem holds_quiet {pc : Pc} (held : pc.holds = true) : pc.fetches = none ∧ pc.fills = none ∧ waits pc = none := by
  cases pc <;> simp_all [Pc.holds, Pc.fetches, Pc.fills, waits]

theorem free_quiet {pc : Pc} (free : pc.holds = false) : pc.copies = none ∧ pc.batch = [] := by
  cases pc <;> simp_all [Pc.holds, Pc.copies, Pc.batch]

theorem slotless_quiet {pc : Pc} (slotless : pc.delegates = false) : pc.fills = none ∧ waits pc = none := by
  cases pc <;> simp_all [Pc.delegates, Pc.fills, waits]

theorem leaves_quiet {pc : Pc} (leaves : pc.drains = false) : pc.copies = none := by
  cases pc <;> simp_all [Pc.drains, Pc.copies]

theorem next_quiet (th : Thread) : waits th.next.pc = none ∧ th.next.pc.batch = [] := by
  unfold Thread.next
  split <;> exact ⟨rfl, rfl⟩

theorem next_count (th : Thread) : th.next.count = th.count + 1 := by
  unfold Thread.next
  split <;> rfl

theorem hand_step (effect : Effect g t st st') (timely : Timely g (SameEntry g) st t) (inv : HandInv g st) :
    HandInv g st' := by
  have locks := locks_step effect inv.locks
  have len := len_step effect timely inv.len
  have sound := sound_step effect inv.sound
  have quiet := hand_quiet effect timely inv
  cases id effect with
  | begins idle =>
    exact quiet (by simp [idle, Pc.copies]) (by simp [idle, Pc.fetches]) (by simp [idle, Pc.fills])
      (by simp [idle, waits]) (by simp [waits]) (by simp) (.same rfl) (by simp [idle, Pc.batch])
  | looks pc' _ free free' slotless slotless' before _ same =>
    have own : st'.threads t = { st.threads t with pc := pc' } := by rw [same.threads, Function.update_self]
    exact quiet (free_quiet free).1 before (slotless_quiet slotless).1 (slotless_quiet slotless).2
      (by simp [own, slotless_quiet slotless']) (by simp [own]) (.same same.log) (by simp [free_quiet free])
  | takes loop =>
    exact quiet (by simp [loop, Pc.copies]) (by simp [loop, Pc.fetches]) (by simp [loop, Pc.fills])
      (by simp [loop, waits]) (by simp [waits]) (by simp) (.same rfl) (by simp [loop, Pc.batch])
  | works pc' held held' leaves _ batch _ _ _ _ same =>
    have own : st'.threads t = { st.threads t with pc := pc' } := by rw [same.threads, Function.update_self]
    obtain ⟨fetches, fills, idle⟩ := holds_quiet held
    exact quiet (leaves_quiet leaves) fetches fills idle (by simp [own, holds_quiet held']) (by simp [own])
      (.same same.log) (by simp [batch])
  | loads pc =>
    exact quiet (by simp [pc, Pc.copies]) (by simp [pc, Pc.fetches]) (by simp [pc, Pc.fills])
      (by simp [pc, waits]) (by simp [waits]) (by simp) (.same rfl) (by simp [pc, Pc.batch])
  | copies pc => exact hand_copy inv pc (copy_ready timely inv.sound pc) rfl locks len sound
  | resets pc =>
    exact quiet (by simp [pc, Pc.copies]) (by simp [pc, Pc.fetches]) (by simp [pc, Pc.fills])
      (by simp [pc, waits]) (by simp [waits]) (by simp) (.same rfl) fun slot member => .inl (by simpa [pc, Pc.batch] using member)
  | @submits bat_dios pc v_dios =>
    -- The lock is not released since the batch was copied.
    refine quiet (by simp [pc, Pc.copies]) (by simp [pc, Pc.fetches]) (by simp [pc, Pc.fills])
      (by simp [pc, waits]) (by simp [waits]) (by simp) ?_ fun slot member => .inr ?_
    · exact .event _ rfl (fun _ => rfl) (by simp) (by simp)
    · exact ⟨t, v_dios, bat_dios, [], st.log, rfl, by simpa [pc, Pc.batch] using member, inv.copied t slot member⟩
  | releases pc =>
    refine quiet (by simp [pc, Pc.copies]) (by simp [pc, Pc.fetches]) (by simp [pc, Pc.fills])
      (by simp [pc, waits]) (by simp [next_quiet]) (by simp [next_count]) ?_ (by simp [pc, Pc.batch])
    refine .event _ rfl (fun _ => rfl) (by simp) fun w batch r same => ?_
    obtain ⟨rfl, _⟩ := Event.released.injEq .. ▸ same
    simp [next_quiet] at batch
  | @fetches wid dio pc =>
    obtain ⟨collects, equal⟩ := timely.1 wid (by simp [pc, Pc.fetches])
    exact hand_fetch inv pc collects equal rfl locks len sound
  | fills pc => exact hand_fill inv pc rfl locks len sound
  | waits => exact inv
  | leaves pc free => exact hand_leave inv pc free rfl locks len sound

/-! ### Runs -/

theorem start_hands {calls : Nat → List UioInfo} (valid : ∀ t, ∀ uio ∈ calls t, uio.Valid g ∧ uio.user_id = t) :
    HandInv g (System.start calls) where
  locks := locks_start calls
  len := start_len calls
  sound := start_sound valid
  slots := {
    live := fun t w i use => absurd use (not_uses rfl rfl w i)
    unique := fun t u w i use => absurd use (not_uses rfl rfl w i)
    used := fun w i live => absurd live (not_live (by simp [System.start, Pc.holds]) _ _) }
  mine t w i waiting := by simp [System.start, waits] at waiting
  taken t waiting := by simp [System.start, waits] at waiting
  fresh t n _ := rfl
  copied w slot member := by simp [System.start, Pc.batch] at member
  handed s slot member := by simp [System.start] at member

/-- When every request is put into a queue only while the thread of the queue
    collects under the lock that the request waits for, and no slot is copied
    before it is filled, every write that was left to another thread is handed
    over, in every state that such steps reach. -/
theorem handed_over_of_timely {calls : Nat → List UioInfo} (valid : ∀ t, ∀ uio ∈ calls t, uio.Valid g ∧ uio.user_id = t)
    (reachable : Reachable (step g) (Timely g (SameEntry g)) (System.start calls) st) : HandedOver st :=
  (reachable.invariant (start_hands valid) fun inv timely next => hand_step (step_effect next) timely inv).handed

/-- The first copies the request of the second, which returns then. -/
theorem handed_over_one_chunk : ∃ st, Reachable (step defaultGeometry) (Timely defaultGeometry (SameEntry defaultGeometry))
    (System.start one_stripe) st ∧ (∃ slot, Event.delegated 0 slot ∈ st.log) ∧ HandedOver st := by
  have result : (run (step defaultGeometry) (Timely defaultGeometry (SameEntry defaultGeometry))
      ([0, 0, 0, 0] ++ List.replicate 8 1 ++ List.replicate 7 0 ++ [1]) (System.start one_stripe)).map
        (fun st => st.log.head?) = some (some (.delegated 0 ⟨⟨0, 4096, 8192, 4096, 0⟩, some (1, 0)⟩)) := by decide +kernel
  obtain ⟨st, reached, last⟩ := Option.map_eq_some_iff.mp result
  have reachable := run_reachable reached
  exact ⟨st, reachable, ⟨_, List.mem_of_head? last⟩, handed_over_of_timely one_stripe_valid reachable⟩

/-- The second takes its slot when the first has written and has released the
    lock. -/
theorem handed_over_late : (∀ t, ∀ uio ∈ one_stripe t, uio.Valid defaultGeometry ∧ uio.user_id = t) ∧
    ∃ st, Reachable (step defaultGeometry) (fun _ _ => True) (System.start one_stripe) st ∧ ¬ HandedOver st := by
  refine ⟨one_stripe_valid, ?_⟩
  have result : (run (step defaultGeometry) (fun _ _ => True)
      ([0, 0, 0, 0] ++ List.replicate 6 1 ++ List.replicate 5 0 ++ [1, 1, 1]) (System.start one_stripe)).map
        (fun st => (st.log.head?, copies st.log (1, 0))) =
      some (some (.delegated 0 ⟨⟨0, 4096, 8192, 4096, 0⟩, some (1, 0)⟩), 0) := by decide +kernel
  obtain ⟨st, reached, seen⟩ := Option.map_eq_some_iff.mp result
  obtain ⟨last, none_copied⟩ := Prod.mk.injEq .. ▸ seen
  refine ⟨st, run_reachable reached, fun handed => ?_⟩
  obtain ⟨_, writer, wrote, once⟩ := handed _ _ (List.mem_of_head? last)
  obtain rfl := Option.some.inj wrote
  rw [none_copied] at once
  cases once

end Straid.Handoffs
