import Straid.Locks

/-!
The queues of delegated requests over all orders of steps. A thread that has a
lock for a partial stripe collects requests until it loads the length of its
queue, then it copies the slots one after another and empties the queue
(`len_step`). A queue belongs to a thread and not to a stripe, and nothing keeps
others from putting requests into it at other times; `Timely` is the condition
that requests are put into it only while its thread collects, and that no slot
is copied before it is filled. `queue_effect` sorts the steps by what they do to
the slots that are yet to be copied.
-/
namespace Straid.Queues
open LogFiles Metadata Split Encode Threads Locks Interleavings

variable (g : Geometry)

/-- A slot of a queue of length `len` that its thread is yet to copy. -/
def Live (th : Thread) (len i : Nat) : Prop :=
  match th.pc with
  | .copy qlen bat_dios => bat_dios.length ≤ i ∧ i < qlen
  | _ => th.collects g = true ∧ i < len

/-- The queues of threads that neither collect nor drain are empty. -/
structure LenInv (st : System) : Prop where
  empty : ∀ t, (st.threads t).collects g = false → (st.threads t).pc.drains = false → st.inqueue_data_len t = 0
  copying : ∀ t qlen bat_dios, (st.threads t).pc = .copy qlen bat_dios →
    st.inqueue_data_len t = qlen ∧ bat_dios.length < qlen

/-- A thread whose requests are valid. -/
structure Sound (t : Nat) (th : Thread) : Prop where
  calls : ∀ uio ∈ th.calls, uio.Valid g ∧ uio.user_id = t
  thread : th.pc ≠ .idle → t < NUM_THREADS
  piece : th.pc ≠ .idle → OneStripe g th.piece
  later : ∀ piece ∈ th.later, OneStripe g piece
  request : ∀ dio ∈ th.pc.dio, s_uio2dio g th.piece = some dio

/-- The next step of thread `t` puts a request into a queue only while the thread
    of the queue collects for it, and copies no slot that is still to be
    filled. -/
def Timely (collectsFor : Thread → Thread → Prop) (st : System) (t : Nat) : Prop :=
  (∀ wid ∈ (st.threads t).pc.fetches, (st.threads wid).collects g = true ∧
    collectsFor (st.threads wid) (st.threads t)) ∧
  ∀ idx ∈ (st.threads t).pc.copies, ∀ u < NUM_THREADS, (st.threads u).pc.fills ≠ some (t, idx)

instance (collectsFor : Thread → Thread → Prop) [∀ w u, Decidable (collectsFor w u)] (st : System) (t : Nat) :
    Decidable (Timely g collectsFor st t) := inferInstanceAs (Decidable (_ ∧ _))

/-- A slot of the queue of thread `w` that it is yet to copy. -/
def LiveIn (st : System) (w i : Nat) : Prop := Live g (st.threads w) (st.inqueue_data_len w) i

/-- A thread has to do with a queue: it is to fill a slot, or it has slots to copy
    or has copied some. -/
def Engaged (st : System) (t : Nat) : Prop :=
  (st.threads t).pc.fills ≠ none ∨ (∃ i, LiveIn g st t i) ∨ (st.threads t).pc.batch ≠ []

/-- A step that neither copies a slot, nor takes or fills one. -/
structure KeepsQueues (st st' : System) : Prop where
  slots : st'.v_batchque2 = st.v_batchque2
  fills : ∀ u, (st'.threads u).pc.fills = (st.threads u).pc.fills
  live : ∀ w i, LiveIn g st' w i ↔ LiveIn g st w i
  batch : ∀ w, ∀ slot ∈ (st'.threads w).pc.batch, slot ∈ (st.threads w).pc.batch
  same : ∀ u, Engaged g st' u → ∃ pc, st'.threads u = { st.threads u with pc := pc }

/-- What a step of thread `t` does to the queues. -/
inductive QueueEffect (t : Nat) (st : System) : System → Prop
  | keeps {st' : System} (keeps : KeepsQueues g st st') : QueueEffect t st st'
  | copies {qlen : Nat} {bat_dios : List Slot} (pc : (st.threads t).pc = .copy qlen bat_dios) :
      QueueEffect t st (copy t ((st.threads t).entry g) qlen bat_dios st)
  | fetches {wid : Nat} {dio : DioInfo} (pc : (st.threads t).pc = .fetch_add wid dio) :
      QueueEffect t st ((st.set_len wid (st.inqueue_data_len wid + 1)).goto t
        (.store_slot wid (st.inqueue_data_len wid) dio))
  | fills {wid idx : Nat} {dio : DioInfo} (pc : (st.threads t).pc = .store_slot wid idx dio) :
      QueueEffect t st ((st.set_slot wid idx ⟨dio, some (t, (st.threads t).count)⟩).goto t (.spin wid idx dio))

variable {g} {t : Nat} {st st' : System}

/-! ### Lengths -/

theorem free_idle {th : Thread} (free : th.pc.holds = false) : th.collects g = false ∧ th.pc.drains = false := by
  unfold Thread.collects
  cases pc : th.pc <;> simp_all [Pc.holds, Pc.drains]

theorem drains_of_copy {pc : Pc} {qlen : Nat} {bat_dios : List Slot} (copy : pc = .copy qlen bat_dios) :
    pc.drains = true := by
  rw [copy]
  rfl

/-- When a step leaves the lengths of the other queues alone, the invariant is
    about its own thread. -/
theorem len_of_own (effect : Effect g t st st') (inv : LenInv g st)
    (lens : ∀ u, u ≠ t → st'.inqueue_data_len u = st.inqueue_data_len u)
    (empty : (st'.threads t).collects g = false → (st'.threads t).pc.drains = false → st'.inqueue_data_len t = 0)
    (copying : ∀ qlen bat_dios, (st'.threads t).pc = .copy qlen bat_dios →
      st'.inqueue_data_len t = qlen ∧ bat_dios.length < qlen) : LenInv g st' := by
  constructor
  · intro u
    by_cases own : u = t
    · exact own ▸ empty
    · rw [effect_frame effect own, lens u own]
      exact inv.empty u
  · intro u
    by_cases own : u = t
    · exact own ▸ copying
    · rw [effect_frame effect own, lens u own]
      exact inv.copying u

/-- A step that ends without the lock, from a queue that is empty. -/
theorem len_of_free (effect : Effect g t st st') (inv : LenInv g st) (free : (st'.threads t).pc.holds = false)
    (len : st'.inqueue_data_len = st.inqueue_data_len) (empty : st.inqueue_data_len t = 0) : LenInv g st' := by
  refine len_of_own effect inv (fun u _ => by rw [len]) (fun _ _ => by rw [len, empty]) fun qlen bat_dios copy => ?_
  have drains := drains_of_copy copy
  rw [(free_idle (g := g) free).2] at drains
  cases drains

theorem len_step {collectsFor : Thread → Thread → Prop} (effect : Effect g t st st') (timely : Timely g collectsFor st t)
    (inv : LenInv g st) : LenInv g st' := by
  have empty_free : (st.threads t).pc.holds = false → st.inqueue_data_len t = 0 :=
    fun free => inv.empty t (free_idle free).1 (free_idle (g := g) free).2
  cases id effect with
  | begins idle => exact len_of_free effect inv (by simp [Pc.holds]) rfl (empty_free (by simp [idle, Pc.holds]))
  | looks pc' _ free free' _ _ _ _ same =>
    exact len_of_free effect inv (by simp [same.threads, free']) same.len (empty_free free)
  | takes loop =>
    exact len_of_own effect inv (fun _ _ => rfl) (fun _ _ => empty_free (by simp [loop, Pc.holds])) (by simp)
  | works pc' _ _ leaves leaves' _ _ _ _ empty same =>
    refine len_of_own effect inv (fun u _ => by rw [same.len]) ?_ fun qlen bat_dios copy => ?_
    · rw [same.threads, same.len, Function.update_self]
      intro collects _
      cases before : (st.threads t).collects g with
      | true => exact empty before collects
      | false => exact inv.empty t before leaves
    · rw [same.threads, Function.update_self] at copy
      rw [drains_of_copy copy] at leaves'
      cases leaves'
  | loads pc some_len =>
    exact len_of_own effect inv (fun _ _ => rfl) (by simp [Pc.drains]) (by simp; exact some_len)
  | @copies qlen bat_dios pc =>
    have before := inv.copying t _ _ pc
    refine len_of_own effect inv (fun _ _ => rfl) ?_ ?_ <;>
      simp only [copy, System.goto, System.set, System.record, Function.update_self] <;> split
    · simp [Pc.drains]
    · simp [Pc.drains]
    · simp
    · simp
      omega
  | resets pc =>
    exact len_of_own effect inv (fun u other => by simp [other]) (by simp) (by simp)
  | submits pc =>
    have empty := inv.empty t (by simp [Thread.collects, pc]) (by simp [pc, Pc.drains])
    exact len_of_own effect inv (fun _ _ => rfl) (fun _ _ => empty) (by simp)
  | releases pc =>
    have empty := inv.empty t (by simp [Thread.collects, pc]) (by simp [pc, Pc.drains])
    exact len_of_free effect inv (by simp [next_holds]) rfl empty
  | @fetches wid dio pc =>
    -- The queue is of a thread that collects, so it may have requests.
    have collects := (timely.1 wid (by simp [pc, Pc.fetches])).1
    have other : wid ≠ t := by
      rintro rfl
      simp [Thread.collects, pc] at collects
    constructor
    · intro u idle leaves
      by_cases queue : u = wid
      · rw [queue, effect_frame effect other, collects] at idle
        cases idle
      · by_cases own : u = t
        · simpa [own, other.symm] using empty_free (by simp [pc, Pc.holds])
        · rw [effect_frame effect own] at idle leaves
          simpa [queue] using inv.empty u idle leaves
    · intro u qlen bat_dios copy
      by_cases own : u = t
      · simp [own] at copy
      · rw [effect_frame effect own] at copy
        have queue : u ≠ wid := by
          rintro rfl
          simp [Thread.collects, copy] at collects
        simpa [queue] using inv.copying u _ _ copy
  | fills pc => exact len_of_free effect inv (by simp [Pc.holds]) rfl (empty_free (by simp [pc, Pc.holds]))
  | waits => exact inv
  | leaves pc => exact len_of_free effect inv (by simp [next_holds]) rfl (empty_free (by simp [pc, Pc.holds]))

/-! ### Slots -/

/-- A thread that collects has not begun to copy. -/
theorem collects_leaves {th : Thread} (collects : th.collects g = true) : th.pc.drains = false := by
  unfold Thread.collects at collects
  cases pc : th.pc <;> simp_all [Pc.drains]

theorem live_copy {th : Thread} {qlen : Nat} {bat_dios : List Slot} (pc : th.pc = .copy qlen bat_dios) (len i : Nat) :
    Live g th len i ↔ bat_dios.length ≤ i ∧ i < qlen := by
  rw [Live, pc]

theorem live_collects (th : Thread) (leaves : th.pc.drains = false) (len i : Nat) :
    Live g th len i ↔ th.collects g = true ∧ i < len := by
  unfold Live
  split
  · next copy => simp [copy, Pc.drains] at leaves
  · rfl

theorem not_live {th : Thread} (free : th.pc.holds = false) (len i : Nat) : ¬ Live g th len i := by
  obtain ⟨idle, leaves⟩ := free_idle (g := g) free
  simp [live_collects _ leaves, idle]

/-- A step that leaves the slots alone, and the requests of its thread, has no
    effect on the queues when it does not change what the thread has to do with
    them. -/
theorem queue_keeps (effect : Effect g t st st') (slots : st'.v_batchque2 = st.v_batchque2)
    (fills : (st'.threads t).pc.fills = (st.threads t).pc.fills) (lens : ∀ u, u ≠ t → st'.inqueue_data_len u = st.inqueue_data_len u)
    (live : ∀ i, LiveIn g st' t i ↔ LiveIn g st t i)
    (batch : ∀ slot ∈ (st'.threads t).pc.batch, slot ∈ (st.threads t).pc.batch)
    (same : Engaged g st' t → ∃ pc, st'.threads t = { st.threads t with pc := pc }) : QueueEffect g t st st' := by
  refine .keeps ⟨slots, fun u => ?_, fun w i => ?_, fun w slot member => ?_, fun u engaged => ?_⟩
  · by_cases own : u = t
    · rw [own, fills]
    · rw [effect_frame effect own]
  · by_cases own : w = t
    · exact own ▸ live i
    · rw [LiveIn, LiveIn, effect_frame effect own, lens w own]
  · by_cases own : w = t
    · subst own
      exact batch slot member
    · rwa [effect_frame effect own] at member
  · by_cases own : u = t
    · exact own ▸ same (own ▸ engaged)
    · exact ⟨_, effect_frame effect own⟩

/-- A step to a state without the lock and without a slot to fill, from one
    without slots to copy or to fill. -/
theorem queue_free (effect : Effect g t st st') (slots : st'.v_batchque2 = st.v_batchque2)
    (len : st'.inqueue_data_len = st.inqueue_data_len) (idle : ∀ i, ¬ LiveIn g st t i)
    (free' : (st'.threads t).pc.holds = false) (fills : (st.threads t).pc.fills = none)
    (fills' : (st'.threads t).pc.fills = none) : QueueEffect g t st st' := by
  have batch : (st'.threads t).pc.batch = [] := by
    cases pc : (st'.threads t).pc <;> simp_all [Pc.holds, Pc.batch]
  refine queue_keeps effect slots (fills'.trans fills.symm) (fun u _ => by rw [len]) (fun i => ?_) ?_ ?_
  · exact iff_of_false (not_live free' _ _) (idle i)
  · simp [batch]
  · rintro (filling | ⟨i, live⟩ | some_batch)
    · exact absurd fills' filling
    · exact absurd live (not_live free' _ _)
    · exact absurd batch some_batch

theorem next_fills (th : Thread) : th.next.pc.fills = none := by
  unfold Thread.next
  split <;> rfl

theorem queue_effect (effect : Effect g t st st') (inv : LenInv g st) : QueueEffect g t st st' := by
  have no_slot : ∀ pc : Pc, pc.delegates = false → pc.fills = none := by
    intro pc slotless
    cases pc <;> simp_all [Pc.delegates, Pc.fills]
  have no_fill : ∀ pc : Pc, pc.holds = true → pc.fills = none := by
    intro pc held
    cases pc <;> simp_all [Pc.holds, Pc.fills]
  cases id effect with
  | begins idle =>
    exact queue_free effect rfl rfl (fun i => not_live (by simp [idle, Pc.holds]) _ i) (by simp [Pc.holds])
      (by simp [idle, Pc.fills]) (by simp [Pc.fills])
  | looks pc' _ free free' slotless slotless' _ _ same =>
    exact queue_free effect same.slots same.len (fun i => not_live free _ i) (by simp [same.threads, free'])
      (no_slot _ slotless) (by simp [same.threads, no_slot _ slotless'])
  | takes loop =>
    have empty := inv.empty t (by simp [Thread.collects, loop]) (by simp [loop, Pc.drains])
    refine queue_keeps effect rfl (by simp [loop, Pc.fills]) (fun _ _ => rfl) (fun i => ?_) (by simp [Pc.batch])
      fun _ => ⟨_, Function.update_self ..⟩
    simp [LiveIn, Live, loop, empty, Thread.collects]
  | works pc' held held' leaves leaves' batch batch' _ fewer empty same =>
    have own : st'.threads t = { st.threads t with pc := pc' } := by rw [same.threads, Function.update_self]
    refine queue_keeps effect same.slots (by rw [own, no_fill _ held]; exact no_fill _ held') (fun u _ => by rw [same.len])
      (fun i => ?_) (by rw [own]; simp [batch']) fun _ => ⟨pc', own⟩
    rw [LiveIn, LiveIn, own, same.len, live_collects _ leaves, live_collects { st.threads t with pc := pc' } leaves']
    refine ⟨fun live => ⟨fewer live.1, live.2⟩, fun live => ⟨?_, live.2⟩⟩
    by_contra idle
    have := empty live.1 (by simpa using idle)
    omega
  | loads pc some_len =>
    have collects : (st.threads t).collects g = true := by
      by_contra idle
      have := inv.empty t (by simpa using idle) (by simp [pc, Pc.drains])
      omega
    refine queue_keeps effect rfl (by simp [pc, Pc.fills]) (fun _ _ => rfl) (fun i => ?_) (by simp [Pc.batch])
      fun _ => ⟨_, Function.update_self ..⟩
    rw [LiveIn, LiveIn, live_collects (st.threads t) (by simp [pc, Pc.drains])]
    simp [Live, collects]
  | copies pc => exact .copies pc
  | resets pc =>
    refine queue_keeps effect rfl (by simp [pc, Pc.fills]) (fun u other => by simp [other]) (fun i => ?_)
      (by simp [pc, Pc.batch]) fun _ => ⟨_, Function.update_self ..⟩
    simp [LiveIn, Live, pc, Thread.collects]
  | submits pc =>
    refine queue_keeps effect rfl (by simp [pc, Pc.fills]) (fun _ _ => rfl) (fun i => ?_) (by simp [Pc.batch])
      fun _ => ⟨_, Function.update_self ..⟩
    simp [LiveIn, Live, pc, Thread.collects]
  | releases pc =>
    exact queue_free effect rfl rfl (fun i => by simp [LiveIn, Live, pc, Thread.collects]) (by simp [next_holds])
      (by simp [pc, Pc.fills]) (by simp [next_fills])
  | fetches pc => exact .fetches pc
  | fills pc => exact .fills pc
  | waits => exact .keeps ⟨rfl, fun _ => rfl, fun _ _ => Iff.rfl, fun _ _ member => member, fun u _ => ⟨_, rfl⟩⟩
  | leaves pc =>
    exact queue_free effect rfl rfl (fun i => not_live (by simp [pc, Pc.holds]) _ i) (by simp [next_holds])
      (by simp [pc, Pc.fills]) (by simp [next_fills])

/-- A step that does not start at one of the three instructions keeps the
    queues. -/
theorem keeps_queues (effect : Effect g t st st') (inv : LenInv g st) (copies : (st.threads t).pc.copies = none)
    (fetches : (st.threads t).pc.fetches = none) (fills : (st.threads t).pc.fills = none) : KeepsQueues g st st' := by
  cases queue_effect effect inv with
  | keeps keeps => exact keeps
  | copies pc => simp [pc, Pc.copies] at copies
  | fetches pc => simp [pc, Pc.fetches] at fetches
  | fills pc => simp [pc, Pc.fills] at fills

/-! ### Threads -/

theorem sound_pc {th : Thread} (sound : Sound g t th) (busy : th.pc ≠ .idle) {pc' : Pc}
    (request : ∀ dio ∈ pc'.dio, dio ∈ th.pc.dio ∨ s_uio2dio g th.piece = some dio) : Sound g t { th with pc := pc' } where
  calls := sound.calls
  thread _ := sound.thread busy
  piece _ := sound.piece busy
  later := sound.later
  request dio member := (request dio member).elim (sound.request dio) id

theorem sound_next {th : Thread} (sound : Sound g t th) (busy : th.pc ≠ .idle) : Sound g t th.next := by
  have thread := sound.thread busy
  unfold Thread.next
  split
  · next rest => exact ⟨sound.calls, by simp, by simp, by simp [rest], by simp [Pc.dio]⟩
  · next piece later rest =>
    have ones := sound.later
    rw [rest] at ones
    exact ⟨sound.calls, fun _ => thread, fun _ => ones piece List.mem_cons_self,
      fun p member => ones p (List.mem_cons_of_mem _ member), by simp [Pc.dio]⟩

theorem sound_step (effect : Effect g t st st') (sound : ∀ u, Sound g u (st.threads u)) (u : Nat) :
    Sound g u (st'.threads u) := by
  by_cases own : u = t
  · subst own
    have this := sound u
    have dio : ∀ pc : Pc, pc.holds = true → pc.dio = none := by
      intro pc held
      cases pc <;> simp_all [Pc.holds, Pc.dio]
    have goto : ∀ pc' : Pc, (st.threads u).pc ≠ .idle → (∀ dio ∈ pc'.dio, dio ∈ (st.threads u).pc.dio) →
        Sound g u { st.threads u with pc := pc' } :=
      fun pc' busy request => sound_pc this busy fun dio member => .inl (request dio member)
    cases effect with
    | @begins uio calls piece later idle call split =>
      have valid := this.calls uio (by rw [call]; exact List.mem_cons_self)
      have ones : ∀ p ∈ piece :: later, OneStripe g p := fun p member => piece_oneStripe valid.1 (split ▸ member)
      simp only [System.set, Function.update_self]
      exact {
        calls := fun other member => this.calls other (by rw [call]; exact List.mem_cons_of_mem _ member)
        thread := fun _ => valid.2 ▸ valid.1.thread
        piece := fun _ => ones piece List.mem_cons_self
        later := fun p member => ones p (List.mem_cons_of_mem _ member)
        request := by simp [Pc.dio] }
    | looks pc' busy _ _ _ _ _ request same =>
      rw [same.threads, Function.update_self]
      exact sound_pc this busy request
    | works pc' held held' _ _ _ _ _ _ _ same =>
      rw [same.threads, Function.update_self]
      exact goto _ (by rintro idle; simp [idle, Pc.holds] at held) (by simp [dio _ held'])
    | takes loop => simpa using goto _ (by simp [loop]) (by simp [Pc.dio])
    | loads pc => simpa using goto _ (by simp [pc]) (by simp [Pc.dio])
    | copies pc =>
      simp only [copy, System.goto, System.set, System.record, Function.update_self]
      refine goto _ (by simp [pc]) ?_
      split <;> simp [Pc.dio]
    | resets pc => simpa using goto _ (by simp [pc]) (by simp [Pc.dio])
    | submits pc => simpa using goto _ (by simp [pc]) (by simp [Pc.dio])
    | releases pc => simpa using sound_next this (by simp [pc])
    | fetches pc => simpa using goto _ (by simp [pc]) (by simp [pc, Pc.dio])
    | fills pc => simpa using goto _ (by simp [pc]) (by simp [pc, Pc.dio])
    | waits => exact this
    | leaves pc => simpa using sound_next this (by simp [pc])
  · rw [effect_frame effect own]
    exact sound u

/-- A slot is copied only when it is filled. -/
theorem copy_ready {collectsFor : Thread → Thread → Prop} (timely : Timely g collectsFor st t)
    (sound : ∀ u, Sound g u (st.threads u)) {qlen : Nat} {bat_dios : List Slot}
    (pc : (st.threads t).pc = .copy qlen bat_dios) (u : Nat) : (st.threads u).pc.fills ≠ some (t, bat_dios.length) := by
  intro filling
  have busy : (st.threads u).pc ≠ .idle := by
    intro idle
    simp [idle, Pc.fills] at filling
  exact timely.2 _ (by simp [pc, Pc.copies]) u ((sound u).thread busy) filling

theorem start_sound {calls : Nat → List UioInfo} (valid : ∀ t, ∀ uio ∈ calls t, uio.Valid g ∧ uio.user_id = t) (t : Nat) :
    Sound g t ((System.start calls).threads t) :=
  ⟨valid t, by simp [System.start], by simp [System.start], by simp [System.start], by simp [System.start, Pc.dio]⟩

theorem start_len (calls : Nat → List UioInfo) : LenInv g (System.start calls) :=
  ⟨fun _ _ _ => rfl, fun _ _ _ copy => by simp [System.start] at copy⟩

/-! ### The slots that are yet to be copied -/

theorem live_copy_step (inv : LenInv g st) {qlen : Nat} {bat_dios : List Slot} (pc : (st.threads t).pc = .copy qlen bat_dios)
    (s w i : Nat) : LiveIn g (copy t s qlen bat_dios st) w i ↔ LiveIn g st w i ∧ ¬ (w = t ∧ i = bat_dios.length) := by
  by_cases own : w = t
  · subst own
    have shorter := (inv.copying w _ _ pc).2
    rw [LiveIn, LiveIn, live_copy pc]
    simp only [copy, System.goto, System.set, System.record, Function.update_self]
    split
    · simp only [Live, Thread.collects]
      simp
      omega
    · rw [live_copy rfl]
      simp
      omega
  · simp [LiveIn, copy, own]

theorem live_fetch_step {wid : Nat} {dio : DioInfo} (pc : (st.threads t).pc = .fetch_add wid dio)
    (collects : (st.threads wid).collects g = true) (w i : Nat) :
    LiveIn g ((st.set_len wid (st.inqueue_data_len wid + 1)).goto t (.store_slot wid (st.inqueue_data_len wid) dio)) w i ↔
      LiveIn g st w i ∨ w = wid ∧ i = st.inqueue_data_len wid := by
  have other : wid ≠ t := by
    rintro rfl
    simp [Thread.collects, pc] at collects
  have leaves := collects_leaves collects
  by_cases own : w = t
  · subst own
    refine iff_of_false (not_live (by simp [Pc.holds]) _ _) ?_
    rintro (live | ⟨same, _⟩)
    · exact not_live (by simp [pc, Pc.holds]) _ _ live
    · exact other same.symm
  · by_cases queue : w = wid
    · subst queue
      simp [LiveIn, own, live_collects _ leaves, collects]
      omega
    · simp [LiveIn, own, queue]

theorem live_fill_step {wid idx : Nat} {dio : DioInfo} (pc : (st.threads t).pc = .store_slot wid idx dio) (slot : Slot)
    (w i : Nat) : LiveIn g ((st.set_slot wid idx slot).goto t (.spin wid idx dio)) w i ↔ LiveIn g st w i := by
  by_cases own : w = t
  · subst own
    exact iff_of_false (not_live (by simp [Pc.holds]) _ _) (not_live (by simp [pc, Pc.holds]) _ _)
  · simp [LiveIn, own]

/-! ### Two threads -/

/-- Two threads with requests of one chunk each, in one stripe. -/
def one_stripe : Nat → List UioInfo
  | 0 => [⟨0, true, 4096, 0, 4096⟩]
  | 1 => [⟨1, true, 4096, 8192, 4096⟩]
  | _ => []

theorem one_stripe_valid : ∀ t, ∀ uio ∈ one_stripe t, uio.Valid defaultGeometry ∧ uio.user_id = t
  | 0 => by decide
  | 1 => by decide
  | _ + 2 => by simp [one_stripe]

end Straid.Queues
