import Straid.Handoffs
import Straid.Submissions

/-!
Concurrent writes against one flat array of bytes. A `Machine` is the threads of
`raid_write_direct` with the bytes of the devices: the step that submits the
writes of a piece and of its batch puts them on the devices in any order, with
any writes to parity chunks, or anywhere when the parity does not stay in its
chunk; that is what `raid_write` leaves on them (`raid_write_moves`). When every
request is inside one chunk, no row is past the largest `int` and requests come in
time, the calls take effect one after another (`linearizable`): at each moment the
user space is what the calls that have landed leave, each after those that ended
before it began. `Tracks` says which calls have landed, by the steps of the
threads, and `Contents` what they left.
-/
namespace Straid.Linearization
open LogFiles Metadata Split Encode EcEncoder PartialStripe SequentialWrites StorageMod Cuts Overlays Threads Locks Queues
  Handoffs Interleavings
open Submissions (ParityWrite InRow piece_inRow)

/-- The threads and the devices, with the writes that have landed, in order. -/
structure Machine where
  sys : System
  devs : Nat → Nat → Byte
  landed : List Slot

/-- The next step of a thread. If it submits writes, they land in the order of
    `landed`, with the writes of the parity: to parity chunks, or `stray` ones. -/
structure Turn (g : Geometry) where
  thread : Nat
  landed : List Slot
  parity : List (ParityWrite g)
  stray : List DeviceWrite

variable (g : Geometry)

/-- What a thread submits: its own device requests and those of its batch. -/
def submission (t : Nat) (th : Thread) (v_dios : List DioInfo) (bat_dios : List Slot) : List Slot :=
  v_dios.map (fun dio => ⟨dio, some (t, th.count)⟩) ++ bat_dios

/-- The parity of a submission stays in a chunk: the piece is a whole stripe, or all
    requests are in the row of its stripe, and that is not past the largest `int`. -/
def ParityKept (piece : UioInfo) (dios : List DioInfo) : Prop :=
  is_fullstripe g piece.user_offset piece.length = true ∨ stripeOf g piece * g.SCHUNK_SIZE ≤ INT_MAX ∧
    ∀ dio ∈ dios, InRow g (stripeOf g piece) dio

instance (piece : UioInfo) (dios : List DioInfo) : Decidable (ParityKept g piece dios) := inferInstanceAs (Decidable (_ ∨ _))

/-- A step of the machine. The writes that a thread submits are on the devices
    before its next step, for it waits for them. Those of a parity that does not
    stay in a chunk may be anywhere. -/
def move (mem : Nat → Byte) (turn : Turn g) (m : Machine) : Option Machine :=
  let th := m.sys.threads turn.thread
  match th.pc with
  | .submit bat_dios => do
    let v_dios ← split_chunk2dio g th.piece
    if turn.landed.Perm (submission turn.thread th v_dios bat_dios) ∧
        (turn.stray.length = 0 ∨ ¬ ParityKept g th.piece (turn.landed.map Slot.dio)) then
      let writes ← data_writes g mem (turn.landed.map Slot.dio)
      let sys ← step g turn.thread m.sys
      some ⟨sys, applyAll m.devs (writes ++ turn.parity.map ParityWrite.write ++ turn.stray), m.landed ++ turn.landed⟩
    else none
  | _ => (step g turn.thread m.sys).map fun sys => { m with sys := sys }

def Machine.start (calls : Nat → List UioInfo) (devs : Nat → Nat → Byte) : Machine := ⟨System.start calls, devs, []⟩

/-- A request inside one chunk. -/
def InChunk (uio : UioInfo) : Prop := (uio.user_offset + uio.length - 1) / g.SCHUNK_SIZE = uio.user_offset / g.SCHUNK_SIZE

instance (uio : UioInfo) : Decidable (InChunk g uio) := inferInstanceAs (Decidable (_ = _))

/-- Call number `w.2` of thread `w.1`. -/
def call_at (calls : Nat → List UioInfo) (mem : Nat → Byte) (w : Nat × Nat) : Option Call :=
  (calls w.1)[w.2]?.map fun uio => ⟨uio, mem⟩

/-- The calls of the list, and no others, have taken effect one after another:
    all that have ended, and of each thread perhaps the one it is in. -/
structure Linear (calls : Nat → List UioInfo) (mem : Nat → Byte) (devs : Nat → Nat → Byte) (m : Machine)
    (order : List (Nat × Nat)) : Prop where
  nodup : order.Nodup
  ended : ∀ t n, n < (m.sys.threads t).count → (t, n) ∈ order
  begun : ∀ t n, (t, n) ∈ order → n < (m.sys.threads t).count ∨
    n = (m.sys.threads t).count ∧ (m.sys.threads t).pc ≠ .idle
  program : order.Pairwise fun a b => a.1 = b.1 → a.2 < b.2
  bytes : ∀ x < g.USER_SPACE_LEN, user_byte g m.devs x =
    last_written (user_byte g devs) (order.filterMap (call_at calls mem)) x

variable {g} {t : Nat} {st st' : System}

/-! ### What a step does to the current call of its thread -/

/-- The writes of the piece that a thread is at have been submitted by itself. -/
def settled : Pc → Bool
  | .clear_thread | .unlock => true
  | _ => false

/-- What a step of thread `t` does to the call that it is in. -/
inductive Stage (g : Geometry) (t : Nat) (st st' : System) : Prop
  | stays (same : st' = st)
  | goes (pc' : Pc) (busy : (st.threads t).pc ≠ .idle) (busy' : pc' ≠ .idle)
      (thread : st'.threads t = { st.threads t with pc := pc' }) (still : settled pc' = settled (st.threads t).pc)
      (idle : waits (st.threads t).pc = none) (idle' : waits pc' = none) (batch : pc'.batch = (st.threads t).pc.batch)
      (log : st'.log = st.log)
  | begins {uio : UioInfo} {calls : List UioInfo} {piece : UioInfo} {later : List UioInfo}
      (idle : (st.threads t).pc = .idle) (call : (st.threads t).calls = uio :: calls)
      (split : split_stripe_aligned g uio = piece :: later)
      (thread : st'.threads t = ⟨calls, uio, piece, later, (st.threads t).count, .loop⟩) (log : st'.log = st.log)
  | copies {qlen : Nat} {bat_dios : List Slot} (pc : (st.threads t).pc = .copy qlen bat_dios)
      (same : st' = copy t ((st.threads t).entry g) qlen bat_dios st)
  | submits {bat_dios : List Slot} (pc : (st.threads t).pc = .submit bat_dios)
      (thread : st'.threads t = { st.threads t with pc := .clear_thread })
      (copies : ∀ w, Handoffs.copies st'.log w = Handoffs.copies st.log w)
  | fills {wid idx : Nat} {dio : DioInfo} (pc : (st.threads t).pc = .store_slot wid idx dio)
      (thread : st'.threads t = { st.threads t with pc := .spin wid idx dio }) (log : st'.log = st.log)
  | ends (done : (st.threads t).pc = .unlock ∨
        (∃ wid idx dio, (st.threads t).pc = .spin wid idx dio) ∧ locked st ((st.threads t).entry g) = false)
      (thread : st'.threads t = (st.threads t).next) (copies : ∀ w, Handoffs.copies st'.log w = Handoffs.copies st.log w)

/-- A thread in a call whose piece it has neither submitted nor put into a queue,
    with nothing in its batch. -/
structure Plain (pc : Pc) : Prop where
  busy : pc ≠ .idle
  free : settled pc = false
  idle : waits pc = none
  batch : pc.batch = []

theorem plain_stage {pc' : Pc} (plain : Plain (st.threads t).pc) (plain' : Plain pc')
    (thread : st'.threads t = { st.threads t with pc := pc' }) (log : st'.log = st.log) : Stage g t st st' :=
  .goes pc' plain.busy plain'.busy thread (by rw [plain.free, plain'.free]) plain.idle plain'.idle
    (by rw [plain.batch, plain'.batch]) log

theorem goto_stage {pc' : Pc} (plain : Plain (st.threads t).pc) (plain' : Plain pc') : Stage g t st (st.goto t pc') :=
  plain_stage plain plain' (by simp) rfl

theorem store_stage {pc' : Pc} {s : Nat} {f : SSTEntry → SSTEntry} (plain : Plain (st.threads t).pc) (plain' : Plain pc') :
    Stage g t st ((st.store s f).goto t pc') :=
  plain_stage plain plain' (by simp) rfl

theorem begin_stage (pc : (st.threads t).pc = .idle) (next : begin_call g t (st.threads t) st = some st') :
    Stage g t st st' := by
  unfold begin_call at next
  split at next
  · contradiction
  · next uio calls call =>
    simp only [Option.bind_eq_bind, Option.bind_eq_some_iff] at next
    obtain ⟨_, _, next⟩ := next
    cases split : split_stripe_aligned g uio with
    | nil => simp [split] at next
    | cons piece later =>
      simp only [split, Option.some.injEq] at next
      subst next
      exact .begins pc call split (by simp) rfl

theorem freeze_stage (plain : Plain (st.threads t).pc) (next : Threads.freeze g t (st.threads t) st = some st') :
    Stage g t st st' := by
  simp only [Threads.freeze, Option.bind_eq_bind, Option.bind_eq_some_iff, Option.some.injEq] at next
  obtain ⟨_, _, i, _, rfl⟩ := next
  split
  · exact store_stage plain ⟨by simp, rfl, rfl, rfl⟩
  · exact store_stage plain ⟨by simp, rfl, rfl, rfl⟩

theorem load_len_stage (plain : Plain (st.threads t).pc) (next : load_len t st = some st') : Stage g t st st' := by
  simp only [load_len] at next
  split at next
  · split at next
    · contradiction
    · obtain rfl := Option.some.inj next
      exact goto_stage plain ⟨by simp, rfl, rfl, rfl⟩
  · obtain rfl := Option.some.inj next
    exact goto_stage plain ⟨by simp, rfl, rfl, rfl⟩

theorem load_wid_stage {s : Nat} (plain : Plain (st.threads t).pc)
    (next : load_wid g t s (st.threads t) st = some st') : Stage g t st st' := by
  simp only [load_wid] at next
  split at next
  · obtain rfl := Option.some.inj next
    exact goto_stage plain ⟨by simp, rfl, rfl, rfl⟩
  · split at next
    · contradiction
    · obtain ⟨dio, _, rfl⟩ := Option.map_eq_some_iff.mp next
      exact goto_stage plain ⟨by simp, rfl, rfl, rfl⟩

theorem submit_step {bat_dios : List Slot} (pc : (st.threads t).pc = .submit bat_dios) (next : step g t st = some st') :
    st'.threads t = { st.threads t with pc := .clear_thread } ∧ ∀ w, copies st'.log w = copies st.log w := by
  simp only [step, pc, submit, Option.bind_eq_bind, Option.bind_eq_some_iff, Option.some.injEq] at next
  obtain ⟨v_dios, _, rfl⟩ := next
  exact ⟨by simp, fun w => copies_cons ..⟩

theorem step_stage (next : step g t st = some st') : Stage g t st st' := by
  cases pc : (st.threads t).pc with
  | idle =>
    simp only [step, pc] at next
    exact begin_stage pc next
  | loop =>
    have plain : Plain (st.threads t).pc := pc ▸ ⟨by simp, rfl, rfl, rfl⟩
    simp only [step, pc, Option.some.injEq] at next
    subst next
    split
    · exact goto_stage plain ⟨by simp, rfl, rfl, rfl⟩
    · exact store_stage plain ⟨by simp, rfl, rfl, rfl⟩
  | store_thread =>
    simp only [step, pc, Option.some.injEq] at next
    exact next ▸ store_stage (pc ▸ ⟨by simp, rfl, rfl, rfl⟩) ⟨by simp, rfl, rfl, rfl⟩
  | thaw =>
    simp only [step, pc, Option.some.injEq] at next
    exact next ▸ store_stage (pc ▸ ⟨by simp, rfl, rfl, rfl⟩) ⟨by simp, rfl, rfl, rfl⟩
  | freeze =>
    simp only [step, pc] at next
    exact freeze_stage (pc ▸ ⟨by simp, rfl, rfl, rfl⟩) next
  | load_len =>
    simp only [step, pc] at next
    exact load_len_stage (pc ▸ ⟨by simp, rfl, rfl, rfl⟩) next
  | copy qlen bat_dios =>
    simp only [step, pc, Option.some.injEq] at next
    exact .copies pc next.symm
  | reset bat_dios =>
    simp only [step, pc, Option.some.injEq] at next
    subst next
    exact .goes (.submit bat_dios) (by simp [pc]) (by simp) (by simp) (by simp [pc, settled]) (by simp [pc, waits]) rfl
      (by simp [pc, Pc.batch]) rfl
  | submit bat_dios =>
    obtain ⟨thread, log⟩ := submit_step pc next
    exact .submits pc thread log
  | clear_thread =>
    simp only [step, pc, Option.some.injEq] at next
    subst next
    exact .goes .unlock (by simp [pc]) (by simp) (by simp) (by simp [pc, settled]) (by simp [pc, waits]) rfl
      (by simp [pc, Pc.batch]) rfl
  | unlock =>
    simp only [step, pc, Option.some.injEq] at next
    subst next
    exact .ends (.inl pc) (by simp) fun w => copies_cons ..
  | load_frozen =>
    have plain : Plain (st.threads t).pc := pc ▸ ⟨by simp, rfl, rfl, rfl⟩
    simp only [step, pc, Option.some.injEq] at next
    subst next
    split
    · exact goto_stage plain ⟨by simp, rfl, rfl, rfl⟩
    · exact goto_stage plain ⟨by simp, rfl, rfl, rfl⟩
  | load_thread =>
    have plain : Plain (st.threads t).pc := pc ▸ ⟨by simp, rfl, rfl, rfl⟩
    simp only [step, pc, Option.some.injEq] at next
    subst next
    split
    · exact goto_stage plain ⟨by simp, rfl, rfl, rfl⟩
    · exact goto_stage plain ⟨by simp, rfl, rfl, rfl⟩
  | load_wid =>
    simp only [step, pc] at next
    exact load_wid_stage (pc ▸ ⟨by simp, rfl, rfl, rfl⟩) next
  | check_frozen wid dio =>
    have plain : Plain (st.threads t).pc := pc ▸ ⟨by simp, rfl, rfl, rfl⟩
    simp only [step, pc, Option.some.injEq] at next
    subst next
    split
    · exact goto_stage plain ⟨by simp, rfl, rfl, rfl⟩
    · exact goto_stage plain ⟨by simp, rfl, rfl, rfl⟩
  | fetch_add wid dio =>
    simp only [step, pc, fetch_add] at next
    split at next
    · contradiction
    · obtain rfl := Option.some.inj next
      have plain' : Plain (.store_slot wid (st.inqueue_data_len wid) dio) := ⟨by simp, rfl, rfl, rfl⟩
      exact plain_stage (pc ▸ ⟨by simp, rfl, rfl, rfl⟩) plain' (by simp) rfl
  | store_slot wid idx dio =>
    simp only [step, pc, Option.some.injEq] at next
    subst next
    exact .fills pc (by simp) rfl
  | spin wid idx dio =>
    simp only [step, pc, Option.some.injEq, spin] at next
    subst next
    split
    · exact .stays rfl
    · next free => exact .ends (.inr ⟨⟨wid, idx, dio, pc⟩, by simpa [locked] using free⟩) (by simp) fun w => copies_cons ..

/-! ### Which calls have landed -/

/-- How often the writes of a call have landed. -/
def times (landed : List Slot) (w : Nat × Nat) : Nat := (landed.map Slot.writer).count (some w)

/-- The writes of a call are in a batch. -/
def Batched (st : System) (w : Nat × Nat) : Prop := ∃ o, ∃ slot ∈ (st.threads o).pc.batch, slot.writer = some w

/-- The writes of the call that a thread is in have landed: it has submitted them,
    or they were copied and are in no batch any more. -/
def Landed (st : System) (t : Nat) : Prop := settled (st.threads t).pc = true ∨
  waits (st.threads t).pc ≠ none ∧ copies st.log (t, (st.threads t).count) ≠ 0 ∧
    ¬ Batched st (t, (st.threads t).count)

/-- What the writes in a batch are, and how often those of a call have landed. -/
structure Tracks (g : Geometry) (st : System) (landed : List Slot) : Prop where
  batch : ∀ o, ∀ slot ∈ (st.threads o).pc.batch, ∃ u, slot = request st u ∧ waits (st.threads u).pc ≠ none ∧
    copies st.log (u, (st.threads u).count) ≠ 0 ∧ (st.threads o).entry g = (st.threads u).entry g
  nodup : ∀ o, ((st.threads o).pc.batch.map Slot.writer).Nodup
  past : ∀ t n, n < (st.threads t).count → times landed (t, n) = 1
  done : ∀ t, Landed st t → times landed (t, (st.threads t).count) = 1
  pending : ∀ t, ¬ Landed st t → times landed (t, (st.threads t).count) = 0
  future : ∀ t n, (st.threads t).count < n → times landed (t, n) = 0

variable {landed : List Slot}

theorem batched_waits (tracks : Tracks g st landed) {u : Nat} (batched : Batched st (u, (st.threads u).count)) :
    waits (st.threads u).pc ≠ none ∧ copies st.log (u, (st.threads u).count) ≠ 0 ∧
      ∃ o, (st.threads o).pc.batch ≠ [] ∧ (st.threads o).entry g = (st.threads u).entry g := by
  obtain ⟨o, slot, member, writer⟩ := batched
  obtain ⟨v, rfl, waiting, copied, entry⟩ := tracks.batch o slot member
  obtain ⟨rfl, _⟩ := Prod.mk.injEq .. ▸ Option.some.inj writer
  exact ⟨waiting, copied, o, List.ne_nil_of_mem member, entry⟩

/-- A step that copies no slot and after which no more writes have landed. -/
theorem tracks_keeps (tracks : Tracks g st landed) (frame : ∀ u, u ≠ t → st'.threads u = st.threads u)
    (log : ∀ w, copies st'.log w = copies st.log w) (batch : (st'.threads t).pc.batch = (st.threads t).pc.batch)
    (free : ¬ Batched st (t, (st.threads t).count))
    (entry : (st.threads t).pc.batch ≠ [] → (st'.threads t).entry g = (st.threads t).entry g)
    (count : (st'.threads t).count = (st.threads t).count ∧ (Landed st' t ↔ Landed st t) ∨
      (st'.threads t).count = (st.threads t).count + 1 ∧ Landed st t ∧ ¬ Landed st' t) : Tracks g st' landed := by
  have batches : ∀ o, (st'.threads o).pc.batch = (st.threads o).pc.batch := by
    intro o
    by_cases own : o = t
    · rw [own, batch]
    · rw [frame o own]
  have batched : ∀ w, Batched st' w ↔ Batched st w := by
    intro w
    simp only [Batched, batches]
  have others : ∀ u, u ≠ t → (Landed st' u ↔ Landed st u) := by
    intro u own
    rw [Landed, Landed, batched, log, frame u own]
  refine ⟨?_, ?_, ?_, ?_, ?_, ?_⟩
  · intro o slot member
    rw [batches] at member
    obtain ⟨u, same, waiting, copied, equal⟩ := tracks.batch o slot member
    have own : u ≠ t := by
      rintro rfl
      exact free ⟨o, slot, member, by rw [same]; rfl⟩
    refine ⟨u, by rw [same, request, request, frame u own], by rwa [frame u own], by rwa [frame u own, log], ?_⟩
    rw [frame u own, ← equal]
    by_cases holder : o = t
    · rw [holder]
      exact entry (holder ▸ List.ne_nil_of_mem member)
    · rw [frame o holder]
  · intro o
    rw [batches]
    exact tracks.nodup o
  · intro u n before
    by_cases own : u = t
    · subst own
      rcases count with ⟨same, _⟩ | ⟨next, landed, _⟩
      · exact tracks.past u n (same ▸ before)
      · rcases Nat.lt_succ_iff_lt_or_eq.mp (next ▸ before) with earlier | rfl
        · exact tracks.past u n earlier
        · exact tracks.done u landed
    · exact tracks.past u n (frame u own ▸ before)
  · intro u now
    by_cases own : u = t
    · subst own
      rcases count with ⟨same, still⟩ | ⟨_, _, not⟩
      · exact same ▸ tracks.done u (still.mp now)
      · exact absurd now not
    · rw [frame u own]
      exact tracks.done u ((others u own).mp now)
  · intro u now
    by_cases own : u = t
    · subst own
      rcases count with ⟨same, still⟩ | ⟨next, _, _⟩
      · exact same ▸ tracks.pending u fun before => now (still.mpr before)
      · rw [next]
        exact tracks.future u _ (Nat.lt_succ_self _)
    · rw [frame u own]
      exact tracks.pending u fun before => now ((others u own).mpr before)
  · intro u n after
    refine tracks.future u n ?_
    by_cases own : u = t
    · subst own
      rcases count with ⟨same, _⟩ | ⟨next, _, _⟩ <;> omega
    · exact frame u own ▸ after

theorem landed_settled (idle : waits (st.threads t).pc = none) : Landed st t ↔ settled (st.threads t).pc = true := by
  simp [Landed, idle]

theorem not_batched (tracks : Tracks g st landed) (idle : waits (st.threads t).pc = none) :
    ¬ Batched st (t, (st.threads t).count) := fun batched => (batched_waits tracks batched).1 idle

theorem batch_settled {pc : Pc} (some_batch : pc.batch ≠ []) : settled pc = false := by
  cases pc <;> simp_all [Pc.batch, settled]

section
variable {after : System} {u : Nat} {bat_dios : List Slot}

/-- A copy changes what is in batches for the writer of the slot only. -/
theorem copied_batched (effect : CopiedSlot g st after t u bat_dios) (batch : (st.threads t).pc.batch = bat_dios)
    {v : Nat} (apart : v ≠ u) : Batched after (v, (st.threads v).count) ↔ Batched st (v, (st.threads v).count) := by
  constructor
  · rintro ⟨o, item, member, writer⟩
    by_cases own : o = t
    · subst own
      rw [effect.batch] at member
      rcases List.mem_append.mp member with old | new
      · exact ⟨o, item, batch ▸ old, writer⟩
      · rw [List.mem_singleton.mp new] at writer
        exact absurd (Prod.mk.injEq .. ▸ Option.some.inj writer).1.symm apart
    · exact ⟨o, item, effect.frame o own ▸ member, writer⟩
  · rintro ⟨o, item, member, writer⟩
    by_cases own : o = t
    · subst own
      exact ⟨o, item, by rw [effect.batch]; exact List.mem_append_left _ (batch ▸ member), writer⟩
    · exact ⟨o, item, by rwa [effect.frame o own], writer⟩

theorem copied_count (effect : CopiedSlot g st after t u bat_dios) (v : Nat) :
    (after.threads v).count = (st.threads v).count := by
  by_cases own : v = t
  · rw [own, effect.count]
  · rw [effect.frame v own]

/-- Nobody's writes land with a copy. -/
theorem copied_landed (effect : CopiedSlot g st after t u bat_dios) {qlen : Nat} (pc : (st.threads t).pc = .copy qlen bat_dios)
    (none_copied : copies st.log (u, (st.threads u).count) = 0) (v : Nat) : Landed after v ↔ Landed st v := by
  by_cases own : v = t
  · subst own
    have idle : waits (st.threads v).pc = none := by simp [pc, waits]
    have still : settled (after.threads v).pc = false := batch_settled (by simp [effect.batch])
    rw [landed_settled effect.waits, landed_settled idle, still, pc]
    simp [settled]
  · rw [Landed, Landed, copied_count effect, effect.frame v own]
    by_cases target : v = u
    · subst target
      have now : Batched after (v, (st.threads v).count) :=
        ⟨t, request st v, by rw [effect.batch]; exact List.mem_append_right _ List.mem_cons_self, rfl⟩
      simp [none_copied, now]
    · rw [effect.same_copies target, copied_batched effect (by rw [pc]; rfl) target]

end

/-- The thread that waits for a copy has its writes in the batch then. -/
theorem tracks_copy (tracks : Tracks g st landed) (hand : HandInv g st) {qlen : Nat} {bat_dios : List Slot}
    (pc : (st.threads t).pc = .copy qlen bat_dios)
    (ready : ∀ u, (st.threads u).pc.fills ≠ some (t, bat_dios.length)) :
    Tracks g (copy t ((st.threads t).entry g) qlen bat_dios st) landed := by
  obtain ⟨u, waiting, none_copied, equal, slot⟩ := copy_target hand pc ready
  have effect : CopiedSlot g st (copy t ((st.threads t).entry g) qlen bat_dios st) t u bat_dios := copy_effect slot
  generalize copy t ((st.threads t).entry g) qlen bat_dios st = after at effect
  have other : u ≠ t := by
    rintro rfl
    simp [pc, waits] at waiting
  have batch : (st.threads t).pc.batch = bat_dios := by rw [pc]; rfl
  have count := copied_count effect
  have landed_iff := copied_landed effect pc none_copied
  have before : ¬ Batched st (u, (st.threads u).count) := fun batched => (batched_waits tracks batched).2.1 none_copied
  refine ⟨?_, ?_, ?_, ?_, ?_, ?_⟩
  · intro o item member
    have known : item = request st u ∧ o = t ∨ item ∈ (st.threads o).pc.batch := by
      by_cases own : o = t
      · subst own
        rw [effect.batch] at member
        rcases List.mem_append.mp member with old | new
        · exact .inr (batch ▸ old)
        · exact .inl ⟨List.mem_singleton.mp new, rfl⟩
      · exact .inr (effect.frame o own ▸ member)
    rcases known with ⟨rfl, rfl⟩ | old
    · refine ⟨u, by rw [request, request, effect.frame u other], by simp [effect.frame u other, waiting], ?_, ?_⟩
      · rw [count, effect.copies, if_pos rfl]
        omega
      · rw [effect.entry, effect.entry, equal]
    · obtain ⟨v, same, waiting', copied, entry⟩ := tracks.batch o item old
      have own : v ≠ t := by
        rintro rfl
        simp [pc, waits] at waiting'
      refine ⟨v, by rw [same, request, request, effect.frame v own], by rwa [effect.frame v own], ?_, ?_⟩
      · rw [count, effect.copies]
        omega
      · rw [effect.entry, effect.entry, entry]
  · intro o
    by_cases own : o = t
    · subst own
      rw [effect.batch, List.map_append, List.nodup_append]
      refine ⟨batch ▸ tracks.nodup o, List.nodup_singleton _, ?_⟩
      rintro writer old _ new rfl
      obtain ⟨item, member, writer⟩ := List.mem_map.mp old
      rw [List.map_singleton, List.mem_singleton] at new
      exact before ⟨o, item, batch ▸ member, by rw [writer, new]; rfl⟩
    · rw [effect.frame o own]
      exact tracks.nodup o
  · intro v n earlier
    exact tracks.past v n (count v ▸ earlier)
  · intro v now
    rw [count]
    exact tracks.done v ((landed_iff v).mp now)
  · intro v now
    rw [count]
    exact tracks.pending v fun before => now ((landed_iff v).mpr before)
  · intro v n later
    exact tracks.future v n (count v ▸ later)

/-- A step that submits no writes. -/
theorem tracks_other (next : step g t st = some st') (timely : Timely g (SameEntry g) st t) (hand : HandInv g st)
    (tracks : Tracks g st landed) (quiet : ∀ bat_dios, (st.threads t).pc ≠ .submit bat_dios) : Tracks g st' landed := by
  have frame := fun u (own : u ≠ t) => effect_frame (step_effect next) own
  have free := fun idle => not_batched (t := t) tracks idle
  cases step_stage next with
  | stays same => exact same ▸ tracks
  | goes pc' _ _ thread still idle idle' batch log =>
    have after : Landed st' t ↔ _ := landed_settled (by rw [thread, idle'])
    refine tracks_keeps tracks frame (fun w => by rw [log]) (by rw [thread, batch]) (free idle)
      (fun _ => by rw [thread]; rfl) (.inl ⟨by rw [thread], ?_⟩)
    rw [after, landed_settled idle, thread, still]
  | begins idle _ _ thread log =>
    have away : waits (st.threads t).pc = none := by simp [idle, waits]
    have after : Landed st' t ↔ _ := landed_settled (by rw [thread]; rfl)
    refine tracks_keeps tracks frame (fun w => by rw [log]) (by rw [thread, idle]; rfl) (free away)
      (fun some_batch => by simp [idle, Pc.batch] at some_batch) (.inl ⟨by rw [thread], ?_⟩)
    rw [after, landed_settled away, thread, idle]
    simp [settled]
  | copies pc same => exact same ▸ tracks_copy tracks hand pc (copy_ready timely hand.sound pc)
  | submits pc => exact absurd pc (quiet _)
  | fills pc thread log =>
    have away : waits (st.threads t).pc = none := by simp [pc, waits]
    have fresh := hand.fresh t (st.threads t).count (.inr ⟨rfl, away⟩)
    refine tracks_keeps tracks frame (fun w => by rw [log]) (by rw [thread, pc]; rfl) (free away)
      (fun some_batch => by simp [pc, Pc.batch] at some_batch) (.inl ⟨by rw [thread], ?_⟩)
    rw [landed_settled away, Landed, thread, log, fresh, pc]
    simp [settled]
  | ends done thread log =>
    have batch : (st.threads t).pc.batch = [] := by
      rcases done with pc | ⟨⟨wid, idx, dio, pc⟩, _⟩ <;> rw [pc] <;> rfl
    have away : ¬ Batched st (t, (st.threads t).count) := by
      rcases done with pc | ⟨_, unlocked⟩
      · exact free (by simp [pc, waits])
      · intro batched
        obtain ⟨_, _, o, some_batch, equal⟩ := batched_waits tracks batched
        obtain ⟨slot, member⟩ := List.exists_mem_of_ne_nil _ some_batch
        exact free_apart hand.locks unlocked (batch_holds member) equal
    have finished : Landed st t := by
      rcases done with pc | ⟨⟨wid, idx, dio, pc⟩, unlocked⟩
      · exact .inl (by rw [pc]; rfl)
      · have copied := (leave_delivered hand pc unlocked).2
        exact .inr ⟨by simp [pc, waits], by omega, away⟩
    have after : Landed st' t ↔ _ := landed_settled (by rw [thread]; exact (next_quiet _).1)
    refine tracks_keeps tracks frame log (by rw [thread, batch]; exact (next_quiet _).2) away
      (fun some_batch => absurd batch some_batch) (.inr ⟨by rw [thread, next_count], finished, ?_⟩)
    rw [after, thread]
    unfold Thread.next
    split <;> simp [settled]

theorem times_append (xs ys : List Slot) (w : Nat × Nat) : times (xs ++ ys) w = times xs w + times ys w := by
  rw [times, List.map_append, List.count_append]
  rfl

/-- How often the writes of a call are in what a thread submits. -/
theorem times_submission (tracks : Tracks g st landed) {bat_dios ls : List Slot}
    (pc : (st.threads t).pc = .submit bat_dios) {dio : DioInfo}
    (perm : ls.Perm (submission t (st.threads t) [dio] bat_dios)) (v n : Nat) : times ls (v, n) =
      if n = (st.threads v).count ∧ (v = t ∨ ∃ slot ∈ bat_dios, slot.writer = some (v, n)) then 1 else 0 := by
  have batch : (st.threads t).pc.batch = bat_dios := by rw [pc]; rfl
  have nodup := tracks.nodup t
  have known := tracks.batch t
  rw [batch] at nodup known
  have writers : ∀ slot ∈ bat_dios, slot.writer = some (v, n) → n = (st.threads v).count ∧ v ≠ t := by
    intro slot member writer
    obtain ⟨u, rfl, waiting, _⟩ := known slot member
    obtain ⟨rfl, rfl⟩ := Prod.mk.injEq .. ▸ Option.some.inj writer
    refine ⟨rfl, ?_⟩
    rintro rfl
    simp [pc, waits] at waiting
  rw [times, (perm.map Slot.writer).count_eq]
  simp only [submission, List.map_cons, List.map_nil, List.singleton_append, List.count_cons, beq_iff_eq,
    Option.some.injEq, Prod.mk.injEq]
  by_cases there : ∃ slot ∈ bat_dios, slot.writer = some (v, n)
  · obtain ⟨slot, member, writer⟩ := there
    obtain ⟨now, other⟩ := writers slot member writer
    rw [List.count_eq_one_of_mem nodup (writer ▸ List.mem_map_of_mem member), if_neg (fun own => other own.1.symm),
      if_pos ⟨now, .inr ⟨slot, member, writer⟩⟩]
  · rw [List.count_eq_zero_of_not_mem (fun member => there (by simpa using member))]
    by_cases own : v = t
    · subst own
      by_cases now : n = (st.threads v).count
      · simp [now]
      · simp [now, Ne.symm now]
    · simp [own, Ne.symm own, there]

/-- Writes are in the batch of one thread. -/
theorem batch_apart (tracks : Tracks g st landed) (locks : LockInv g st) {o u : Nat} (other : o ≠ t)
    (here : ∃ slot ∈ (st.threads t).pc.batch, slot.writer = some (u, (st.threads u).count)) :
    ¬ ∃ slot ∈ (st.threads o).pc.batch, slot.writer = some (u, (st.threads u).count) := by
  rintro ⟨item, member', writer'⟩
  obtain ⟨slot, member, writer⟩ := here
  obtain ⟨v, rfl, _, _, entry⟩ := tracks.batch t slot member
  obtain ⟨v', rfl, _, _, entry'⟩ := tracks.batch o item member'
  obtain ⟨rfl, _⟩ := Prod.mk.injEq .. ▸ Option.some.inj writer
  obtain ⟨rfl, _⟩ := Prod.mk.injEq .. ▸ Option.some.inj writer'
  exact other (locks.one o t (batch_holds member') (batch_holds member) (entry'.trans entry.symm))

theorem batched_not_landed (tracks : Tracks g st landed) {u : Nat} (batched : Batched st (u, (st.threads u).count)) :
    ¬ Landed st u := by
  have waiting := (batched_waits tracks batched).1
  rintro (done | ⟨_, _, gone⟩)
  · cases kind : (st.threads u).pc <;> simp_all [waits, settled]
  · exact gone batched

/-- What is in batches after a thread has submitted its own. -/
theorem submitted_batched (tracks : Tracks g st landed) (locks : LockInv g st)
    (thread : st'.threads t = { st.threads t with pc := .clear_thread })
    (frame : ∀ u, u ≠ t → st'.threads u = st.threads u) (u : Nat) : Batched st' (u, (st.threads u).count) ↔
      Batched st (u, (st.threads u).count) ∧
        ¬ ∃ slot ∈ (st.threads t).pc.batch, slot.writer = some (u, (st.threads u).count) := by
  constructor
  · rintro ⟨o, slot, member, writer⟩
    have other : o ≠ t := by
      rintro rfl
      simp [thread, Pc.batch] at member
    rw [frame o other] at member
    exact ⟨⟨o, slot, member, writer⟩, fun here => batch_apart tracks locks other here ⟨slot, member, writer⟩⟩
  · rintro ⟨⟨o, slot, member, writer⟩, gone⟩
    have other : o ≠ t := by
      rintro rfl
      exact gone ⟨slot, member, writer⟩
    exact ⟨o, slot, by rwa [frame o other], writer⟩

/-- The writes of a thread and of its batch have landed after it has submitted
    them. -/
theorem tracks_submit (tracks : Tracks g st landed) (locks : LockInv g st) {bat_dios ls : List Slot}
    (pc : (st.threads t).pc = .submit bat_dios) (thread : st'.threads t = { st.threads t with pc := .clear_thread })
    (frame : ∀ u, u ≠ t → st'.threads u = st.threads u) (log : ∀ w, copies st'.log w = copies st.log w) {dio : DioInfo}
    (perm : ls.Perm (submission t (st.threads t) [dio] bat_dios)) : Tracks g st' (landed ++ ls) := by
  have counted := times_submission tracks pc perm
  have batch : (st.threads t).pc.batch = bat_dios := by rw [pc]; rfl
  have count : ∀ v, (st'.threads v).count = (st.threads v).count := by
    intro v
    by_cases own : v = t
    · rw [own, thread]
    · rw [frame v own]
  have batched := submitted_batched tracks locks thread frame
  rw [batch] at batched
  have idle : waits (st.threads t).pc = none := by simp [pc, waits]
  have mine : ¬ Landed st t := by
    rw [landed_settled idle, pc]
    simp [settled]
  have now : Landed st' t := .inl (by rw [thread]; rfl)
  have batched_before : ∀ u, (∃ slot ∈ bat_dios, slot.writer = some (u, (st.threads u).count)) →
      Batched st (u, (st.threads u).count) := fun u here => ⟨t, by rw [batch]; exact here⟩
  have landed_iff : ∀ u, u ≠ t → (Landed st' u ↔
      Landed st u ∨ ∃ slot ∈ bat_dios, slot.writer = some (u, (st.threads u).count)) := by
    intro u other
    rw [Landed, count, batched, frame u other, log, Landed]
    by_cases here : ∃ slot ∈ bat_dios, slot.writer = some (u, (st.threads u).count)
    · obtain ⟨waiting, copied, _⟩ := batched_waits tracks (batched_before u here)
      simp [here, waiting, copied]
    · simp [here]
  refine ⟨?_, ?_, ?_, ?_, ?_, ?_⟩
  · intro o slot member
    have other : o ≠ t := by
      rintro rfl
      simp [thread, Pc.batch] at member
    rw [frame o other] at member
    obtain ⟨u, same, waiting, copied, entry⟩ := tracks.batch o slot member
    have own : u ≠ t := by
      rintro rfl
      exact waiting idle
    exact ⟨u, by rw [same, request, request, frame u own], by rwa [frame u own], by rwa [frame u own, log],
      by rw [frame u own, frame o other, entry]⟩
  · intro o
    by_cases own : o = t
    · rw [own, thread]
      exact List.nodup_nil
    · rw [frame o own]
      exact tracks.nodup o
  · intro v n before
    rw [count] at before
    rw [times_append, counted, tracks.past v n before, if_neg (by omega)]
  · intro v landed
    rw [count, times_append, counted]
    by_cases own : v = t
    · subst own
      rw [tracks.pending v mine, if_pos ⟨rfl, .inl rfl⟩]
    · by_cases here : ∃ slot ∈ bat_dios, slot.writer = some (v, (st.threads v).count)
      · rw [tracks.pending v (batched_not_landed tracks (batched_before v here)), if_pos ⟨rfl, .inr here⟩]
      · rw [tracks.done v (((landed_iff v own).mp landed).resolve_right here), if_neg (by simp [own, here])]
  · intro v not_landed
    rw [count, times_append, counted]
    have own : v ≠ t := by
      rintro rfl
      exact not_landed now
    rw [landed_iff v own, not_or] at not_landed
    rw [tracks.pending v not_landed.1, if_neg (by simp [own, not_landed.2])]
  · intro v n after
    rw [count] at after
    rw [times_append, counted, tracks.future v n after, if_neg (by omega)]

/-! ### Requests inside one chunk -/

theorem split_chunk {uio : UioInfo} (valid : uio.Valid g) (chunk : InChunk g uio) : split_stripe_aligned g uio = [uio] := by
  have one : (uio.user_offset + uio.length - 1) / g.SSTRIPE_DATASIZE = uio.user_offset / g.SSTRIPE_DATASIZE := by
    rw [← user2stripe_eq, ← user2stripe_eq]
    exact congrArg (· / g.DATACHUNK_NUM) chunk
  rw [split_stripe_aligned_valid valid, cut_one valid.positive one g.stripe_pos]
  simp [pieceOf]

/-- The device request for a request inside one chunk. -/
def dio_of (g : Geometry) (uio : UioInfo) : DioInfo :=
  ⟨devOf g uio.user_offset, uio.buf, devoffOf g uio.user_offset, uio.length, 0⟩

theorem chunk_dios {uio : UioInfo} (one : OneStripe g uio) (chunk : InChunk g uio) :
    split_chunk2dio g uio = some [dio_of g uio] := by
  rw [split_chunk2dio_piece one, piece_dios, cut_one one.positive chunk g.chunk_pos]
  simp [dioOf, dio_of]

theorem chunk_dio {uio : UioInfo} (one : OneStripe g uio) : s_uio2dio g uio = some (dio_of g uio) := by
  have user := one.user
  have positive := one.positive
  rw [s_uio2dio, checked_dio_eq _ one.buffer (by omega), dio_of]

theorem chunk_flat {uio : UioInfo} (one : OneStripe g uio) (chunk : InChunk g uio) (mem : Nat → Byte) :
    ∃ w : DeviceWrite, iouring_wprep g (dio_of g uio).dev_id (shift mem (dio_of g uio).buf) (dio_of g uio).dev_offset
        (dio_of g uio).length = some w ∧
      ∀ devs, flat g (w.apply devs) = put (flat g devs) ⟨uio, mem⟩ := by
  refine ⟨_, iouring_wprep_eq (devOf_lt _) _ _ _, fun devs => ?_⟩
  have written := piece_writes_flat (c := ⟨uio, mem⟩) one devs
  rw [piece_writes, cut_one one.positive chunk g.chunk_pos] at written
  simpa [pieceWrite, dio_of] using written

/-- A thread and its calls: the piece that it is at is the call itself. -/
structure Mine (cs : List UioInfo) (th : Thread) : Prop where
  rest : th.calls = cs.drop (th.count + if th.pc = .idle then 0 else 1)
  piece : th.pc ≠ .idle → cs[th.count]? = some th.piece
  whole : th.pc ≠ .idle → th.uio = th.piece
  last : th.later = []

theorem mine_step {cs : List UioInfo} (valid : ∀ uio ∈ cs, uio.Valid g ∧ uio.user_id = t) (chunk : ∀ uio ∈ cs, InChunk g uio)
    (next : step g t st = some st') (mine : Mine cs (st.threads t)) : Mine cs (st'.threads t) := by
  have goes : ∀ pc' : Pc, (st.threads t).pc ≠ .idle → pc' ≠ .idle →
      st'.threads t = { st.threads t with pc := pc' } → Mine cs (st'.threads t) := by
    intro pc' busy busy' thread
    have rest := mine.rest
    rw [if_neg busy] at rest
    rw [thread]
    exact ⟨by rw [if_neg busy']; exact rest, fun _ => mine.piece busy, fun _ => mine.whole busy, mine.last⟩
  cases step_stage next with
  | stays same => exact same ▸ mine
  | goes pc' busy busy' thread => exact goes pc' busy busy' thread
  | @begins uio calls piece later idle call split thread =>
    have rest := mine.rest
    rw [if_pos idle, Nat.add_zero, call] at rest
    have here : cs[(st.threads t).count]? = some uio := by
      rw [← List.head?_drop, ← rest]
      rfl
    have member := List.mem_of_getElem? here
    rw [split_chunk (valid uio member).1 (chunk uio member)] at split
    obtain ⟨rfl, rfl⟩ := List.cons.injEq .. ▸ split
    rw [thread]
    refine ⟨?_, fun _ => here, fun _ => rfl, rfl⟩
    rw [if_neg (by simp), ← List.tail_drop, ← rest]
    rfl
  | @copies qlen bat_dios pc same =>
    subst same
    by_cases last : bat_dios.length + 1 = qlen
    · exact goes (.reset (bat_dios ++ [st.v_batchque2 t bat_dios.length])) (by simp [pc]) (by simp) (by simp [copy, last])
    · exact goes (.copy qlen (bat_dios ++ [st.v_batchque2 t bat_dios.length])) (by simp [pc]) (by simp)
        (by simp [copy, last])
  | submits pc thread => exact goes .clear_thread (by simp [pc]) (by simp) thread
  | fills pc thread => exact goes _ (by simp [pc]) (by simp) thread
  | ends done thread =>
    have busy : (st.threads t).pc ≠ .idle := by
      rcases done with pc | ⟨⟨_, _, _, pc⟩, _⟩ <;> simp [pc]
    have rest := mine.rest
    rw [if_neg busy] at rest
    rw [thread, Thread.next, mine.last]
    exact ⟨by simpa using rest, fun idle => absurd rfl idle, fun idle => absurd rfl idle, rfl⟩

/-! ### What has landed -/

variable (g) in
/-- What landed is calls of the threads, and the user space is what they left. -/
structure Contents (calls : Nat → List UioInfo) (mem : Nat → Byte) (devs : Nat → Nat → Byte) (m : Machine) : Prop where
  known : ∀ slot ∈ m.landed, ∃ w uio, slot.writer = some w ∧ (calls w.1)[w.2]? = some uio ∧ slot.dio = dio_of g uio
  program : (m.landed.map Slot.writer).Pairwise fun a b => ∀ t n k, a = some (t, n) → b = some (t, k) → n < k
  bytes : flat g m.devs = last_written (flat g devs) ((m.landed.filterMap Slot.writer).filterMap (call_at calls mem))

variable {calls : Nat → List UioInfo} {mem : Nat → Byte}

theorem landed_flat (one : ∀ t, ∀ uio ∈ calls t, OneStripe g uio ∧ InChunk g uio) {ls : List Slot}
    (known : ∀ slot ∈ ls, ∃ w uio, slot.writer = some w ∧ (calls w.1)[w.2]? = some uio ∧ slot.dio = dio_of g uio)
    (devs : Nat → Nat → Byte) : ∃ writes, data_writes g mem (ls.map Slot.dio) = some writes ∧
      flat g (applyAll devs writes) =
        last_written (flat g devs) ((ls.filterMap Slot.writer).filterMap (call_at calls mem)) := by
  induction ls generalizing devs with
  | nil => exact ⟨[], rfl, rfl⟩
  | cons slot ls ih =>
    obtain ⟨w, uio, writer, here, same⟩ := known slot List.mem_cons_self
    obtain ⟨inside, chunk⟩ := one w.1 uio (List.mem_of_getElem? here)
    obtain ⟨first, prepared, lands⟩ := chunk_flat inside chunk mem
    obtain ⟨writes, rest, left⟩ := ih (fun slot member => known slot (List.mem_cons_of_mem _ member)) (first.apply devs)
    refine ⟨first :: writes, ?_, ?_⟩
    · rw [data_writes] at rest ⊢
      rw [List.map_cons, List.mapM_cons, same, prepared, rest]
      rfl
    · rw [applyAll_cons, left, lands, List.filterMap_cons_some writer]
      have call : call_at calls mem w = some ⟨uio, mem⟩ := by rw [call_at, here, Option.map_some]
      rw [List.filterMap_cons_some call, last_written, last_written, List.foldl_cons]

/-! ### The machine -/

variable (g) in
/-- What holds between two steps of the machine. -/
structure MachineInv (calls : Nat → List UioInfo) (mem : Nat → Byte) (devs : Nat → Nat → Byte) (m : Machine) : Prop where
  hand : HandInv g m.sys
  mine : ∀ t, Mine (calls t) (m.sys.threads t)
  tracks : Tracks g m.sys m.landed
  contents : Contents g calls mem devs m

variable {devs : Nat → Nat → Byte} {m m' : Machine} {turn : Turn g}

theorem Mine.one {cs : List UioInfo} {th : Thread} (mine : Mine cs th) (one : ∀ uio ∈ cs, OneStripe g uio ∧ InChunk g uio)
    (busy : th.pc ≠ .idle) : OneStripe g th.piece ∧ InChunk g th.piece :=
  one _ (List.mem_of_getElem? (mine.piece busy))

/-- What a step of the machine is. -/
theorem move_cases (next : move g mem turn m = some m') : step g turn.thread m.sys = some m'.sys ∧
    ((∀ bat_dios, (m.sys.threads turn.thread).pc ≠ .submit bat_dios) ∧ m'.devs = m.devs ∧ m'.landed = m.landed ∨
      ∃ bat_dios v_dios writes, (m.sys.threads turn.thread).pc = .submit bat_dios ∧
        split_chunk2dio g (m.sys.threads turn.thread).piece = some v_dios ∧
        turn.landed.Perm (submission turn.thread (m.sys.threads turn.thread) v_dios bat_dios) ∧
        (turn.stray = [] ∨ ¬ ParityKept g (m.sys.threads turn.thread).piece (turn.landed.map Slot.dio)) ∧
        data_writes g mem (turn.landed.map Slot.dio) = some writes ∧
        m'.devs = applyAll m.devs (writes ++ turn.parity.map ParityWrite.write ++ turn.stray) ∧
        m'.landed = m.landed ++ turn.landed) := by
  simp only [move] at next
  split at next
  · next bat_dios pc =>
    simp only [Option.bind_eq_bind, Option.bind_eq_some_iff] at next
    obtain ⟨v_dios, split, next⟩ := next
    split at next
    · next may =>
      simp only [Option.bind_eq_some_iff, Option.some.injEq] at next
      obtain ⟨writes, prepared, sys, stepped, rfl⟩ := next
      exact ⟨stepped, .inr ⟨bat_dios, v_dios, writes, pc, split, may.1, may.2.imp_left List.eq_nil_of_length_eq_zero,
        prepared, rfl, rfl⟩⟩
    · cases next
  · next other =>
    obtain ⟨sys, stepped, rfl⟩ := Option.map_eq_some_iff.mp next
    exact ⟨stepped, .inl ⟨other, rfl, rfl⟩⟩

/-- A thread that is to submit has a step, which puts these writes on the devices. -/
theorem move_submit {bat_dios : List Slot} (pc : (m.sys.threads t).pc = .submit bat_dios) {v_dios : List DioInfo}
    (split : split_chunk2dio g (m.sys.threads t).piece = some v_dios) {writes : List DeviceWrite}
    (prepared : data_writes g mem (v_dios ++ bat_dios.map Slot.dio) = some writes) (parity : List (ParityWrite g))
    (stray : List DeviceWrite)
    (may : stray = [] ∨ ¬ ParityKept g (m.sys.threads t).piece (v_dios ++ bat_dios.map Slot.dio)) : ∃ turn m',
    turn.thread = t ∧ move g mem turn m = some m' ∧
      m'.devs = applyAll m.devs (writes ++ parity.map ParityWrite.write ++ stray) := by
  have dios : (submission t (m.sys.threads t) v_dios bat_dios).map Slot.dio = v_dios ++ bat_dios.map Slot.dio := by
    simp [submission, Function.comp_def]
  have room : stray.length = 0 ∨ ¬ ParityKept g (m.sys.threads t).piece (v_dios ++ bat_dios.map Slot.dio) :=
    may.imp_left List.length_eq_zero_iff.mpr
  have stepped : step g t m.sys = submit g t ((m.sys.threads t).entry g) (m.sys.threads t) bat_dios m.sys := by
    simp only [step, pc]
  let turn : Turn g := ⟨t, submission t (m.sys.threads t) v_dios bat_dios, parity, stray⟩
  let sys := (m.sys.record (.submitted t ((m.sys.threads t).entry g) v_dios bat_dios)).goto t .clear_thread
  refine ⟨turn, ⟨sys, applyAll m.devs (writes ++ parity.map ParityWrite.write ++ stray), m.landed ++ turn.landed⟩, rfl,
    ?_, rfl⟩
  simp only [move, turn, sys, pc, split, dios, prepared, stepped, submit, Option.bind_eq_bind, Option.bind_some,
    List.Perm.refl, true_and, room, ↓reduceIte]

/-- A call of `raid_write` for a piece encodes its device requests. -/
theorem raid_write_cases {isal : Isal} {piece : UioInfo} (one : OneStripe g piece) {st after : Store} {written : Submission}
    (result : raid_write g isal mem piece st = some (written, after)) : ∃ (before : Store) (writes : List DeviceWrite),
    before.devs = st.devs ∧ ReconstructWrite.queued before = ReconstructWrite.queued st ∧
      (is_fullstripe g piece.user_offset piece.length = true ∧
          encode_fullstripe g isal mem piece.user_id (piece_dios g piece) before = some (writes, after) ∨
        is_fullstripe g piece.user_offset piece.length = false ∧
          encode_partialstripe g isal mem piece.user_id (piece_dios g piece) before = some (writes, after)) := by
  simp only [raid_write, split_chunk2dio_piece one, Option.bind_eq_bind, Option.bind_some] at result
  split at result
  · contradiction
  refine ⟨{ st with blk_bitmap := (split_block piece).foldl (fun b offset => b.reset (offset / BLK_SIZE)) st.blk_bitmap },
    written.writes, rfl, rfl, ?_⟩
  split at result
  · next full =>
    obtain ⟨⟨writes, left⟩, encoded, same⟩ := Option.bind_eq_some_iff.mp result
    obtain ⟨rfl, rfl⟩ := Prod.mk.inj (Option.some.inj same)
    exact .inl ⟨full, encoded⟩
  · next short =>
    obtain ⟨⟨writes, left⟩, encoded, same⟩ := Option.bind_eq_some_iff.mp result
    obtain ⟨rfl, rfl⟩ := Prod.mk.inj (Option.some.inj same)
    exact .inr ⟨Bool.not_eq_true _ ▸ short, encoded⟩

/-- What `raid_write` leaves on the devices, for the piece of a thread and with its
    batch in the queue, a step of the machine leaves there. -/
theorem raid_write_moves (isal : Isal) {bat_dios : List Slot} (pc : (m.sys.threads t).pc = .submit bat_dios)
    (one : OneStripe g (m.sys.threads t).piece)
    (alone : is_fullstripe g (m.sys.threads t).piece.user_offset (m.sys.threads t).piece.length = true → bat_dios = [])
    {st after : Store} (same : st.devs = m.devs)
    (queue : bat_dios.map Slot.dio = ReconstructWrite.queued st (m.sys.threads t).piece.user_id) {written : Submission}
    (result : raid_write g isal mem (m.sys.threads t).piece st = some (written, after)) :
    ∃ turn m', turn.thread = t ∧ move g mem turn m = some m' ∧ m'.devs = after.devs := by
  have split := split_chunk2dio_piece one
  obtain ⟨before, writes, devs, queues, ⟨full, encoded⟩ | ⟨short, encoded⟩⟩ := raid_write_cases one result
  · -- The whole stripe, with nothing in the batch.
    obtain ⟨offset, length⟩ := (is_fullstripe_iff ..).mp full
    have user := one.user
    have positive := one.positive
    have entry : (m.sys.threads t).piece.user_offset / g.SSTRIPE_DATASIZE ≤ g.USER_SPACE_LEN / g.SSTRIPE_DATASIZE + 100 := by
      rw [← user2stripe_eq]
      exact user_entry (by omega)
    obtain rfl := alone full
    obtain ⟨_, dwrites, parity, left, returned, prepared, _, changed⟩ :=
      Submissions.full_submits isal entry one.thread mem (m.sys.threads t).piece.buf before
    rw [← Option.some.inj (split.symm.trans (FullStripe.split_chunk2dio_full entry offset length))] at returned prepared
    obtain ⟨_, rfl⟩ := Prod.mk.inj (Option.some.inj (returned.symm.trans encoded))
    obtain ⟨turn, m', thread, moved, now⟩ := move_submit pc split (by simpa using prepared) parity [] (.inl rfl)
    exact ⟨turn, m', thread, moved, by rw [now, changed, List.append_nil, devs, same]⟩
  · obtain ⟨some_dio, dwrites, pwrites, par, prepared, parities, rfl, changed⟩ := Submissions.partial_writes isal encoded
    rw [head_stripe one, queues, ← queue] at parities
    rw [queues, ← queue] at prepared
    rw [devs, same] at changed
    by_cases kept : ParityKept g (m.sys.threads t).piece (piece_dios g (m.sys.threads t).piece ++ bat_dios.map Slot.dio)
    · obtain ⟨row, rows⟩ := kept.resolve_left (by simp [short])
      obtain ⟨parity, rfl, _⟩ :=
        Submissions.parity_kept (List.append_ne_nil_of_left_ne_nil some_dio _) rows row parities
      obtain ⟨turn, m', thread, moved, now⟩ := move_submit pc split prepared parity [] (.inl rfl)
      exact ⟨turn, m', thread, moved, by rw [now, changed, List.append_nil]⟩
    · obtain ⟨turn, m', thread, moved, now⟩ := move_submit pc split prepared [] pwrites (.inr kept)
      exact ⟨turn, m', thread, moved, by rw [now, changed, List.map_nil, List.append_nil]⟩

/-- The writes that a thread submits are of its current call and of the current
    calls of others, none of which has landed. -/
theorem submission_known (one : ∀ t, ∀ uio ∈ calls t, OneStripe g uio ∧ InChunk g uio)
    (inv : MachineInv g calls mem devs m) {bat_dios : List Slot} (pc : (m.sys.threads t).pc = .submit bat_dios) :
    ∀ slot ∈ submission t (m.sys.threads t) [dio_of g (m.sys.threads t).piece] bat_dios, ∃ u uio,
      slot.writer = some (u, (m.sys.threads u).count) ∧ (calls u)[(m.sys.threads u).count]? = some uio ∧
      slot.dio = dio_of g uio ∧ stripeOf g uio = stripeOf g (m.sys.threads t).piece ∧ ¬ Landed m.sys u := by
  have batch : (m.sys.threads t).pc.batch = bat_dios := by rw [pc]; rfl
  intro slot member
  rcases List.mem_append.mp member with own | other
  · obtain rfl := List.mem_singleton.mp own
    refine ⟨t, _, rfl, (inv.mine t).piece (by simp [pc]), rfl, rfl, ?_⟩
    rw [landed_settled (by simp [pc, waits]), pc]
    simp [settled]
  · rw [← batch] at other
    obtain ⟨u, rfl, waiting, _, entry⟩ := inv.tracks.batch t slot other
    obtain ⟨wid, idx, dio, spin⟩ : ∃ wid idx dio, (m.sys.threads u).pc = .spin wid idx dio := by
      cases kind : (m.sys.threads u).pc <;> simp_all [waits]
    have busy : (m.sys.threads u).pc ≠ .idle := by simp [spin]
    refine ⟨u, _, rfl, (inv.mine u).piece busy, ?_, ?_, ?_⟩
    · have made := (inv.hand.sound u).request dio (by simp [spin, Pc.dio])
      rw [chunk_dio ((inv.mine u).one (one u) busy).1, Option.some.injEq] at made
      simp [request, spin, Pc.dio, made]
    · rw [Thread.entry, Thread.entry, (inv.mine t).whole (by simp [pc]), (inv.mine u).whole busy] at entry
      exact entry.symm
    · rintro (done | ⟨_, _, gone⟩)
      · simp [spin, settled] at done
      · exact gone ⟨t, _, other, rfl⟩

/-- Nothing that landed is of a later call of its thread, or of the current one
    unless that has landed. -/
theorem landed_before (tracks : Tracks g st landed) {n : Nat} (member : some (t, n) ∈ landed.map Slot.writer)
    (open_call : ¬ Landed st t) : n < (st.threads t).count := by
  have some_times : times landed (t, n) ≠ 0 := fun none => List.count_eq_zero.mp none member
  rcases Nat.lt_trichotomy n (st.threads t).count with before | rfl | after
  · exact before
  · exact absurd (tracks.pending t open_call) some_times
  · exact absurd (tracks.future t n after) some_times

/-- No write is twice among those that a thread submits. -/
theorem submission_nodup (one : ∀ t, ∀ uio ∈ calls t, OneStripe g uio ∧ InChunk g uio)
    (inv : MachineInv g calls mem devs m) {bat_dios : List Slot} (pc : (m.sys.threads t).pc = .submit bat_dios)
    {ls : List Slot} (perm : ls.Perm (submission t (m.sys.threads t) [dio_of g (m.sys.threads t).piece] bat_dios)) :
    (ls.map Slot.writer).Nodup := by
  refine List.nodup_iff_count_le_one.mpr fun writer => ?_
  by_cases there : writer ∈ ls.map Slot.writer
  · obtain ⟨slot, member, rfl⟩ := List.mem_map.mp there
    obtain ⟨u, _, writer, _⟩ := submission_known one inv pc slot (perm.mem_iff.mp member)
    have counted := times_submission inv.tracks pc perm u (m.sys.threads u).count
    rw [times, ← writer] at counted
    rw [counted]
    split <;> decide
  · rw [List.count_eq_zero_of_not_mem there]
    exact Nat.zero_le _

theorem contents_submit (one : ∀ t, ∀ uio ∈ calls t, OneStripe g uio ∧ InChunk g uio)
    (inv : MachineInv g calls mem devs m) {bat_dios : List Slot} (pc : (m.sys.threads turn.thread).pc = .submit bat_dios)
    (perm : turn.landed.Perm (submission turn.thread (m.sys.threads turn.thread)
      [dio_of g (m.sys.threads turn.thread).piece] bat_dios))
    {writes : List DeviceWrite} (prepared : data_writes g mem (turn.landed.map Slot.dio) = some writes)
    (left : m'.devs = applyAll m.devs (writes ++ turn.parity.map ParityWrite.write ++ []))
    (appended : m'.landed = m.landed ++ turn.landed) : Contents g calls mem devs m' := by
  have new : ∀ slot ∈ turn.landed, _ := fun slot member => submission_known one inv pc slot (perm.mem_iff.mp member)
  have known : ∀ slot ∈ turn.landed, ∃ w uio, slot.writer = some w ∧ (calls w.1)[w.2]? = some uio ∧
      slot.dio = dio_of g uio := by
    intro slot member
    obtain ⟨u, uio, writer, here, same, _, _⟩ := new slot member
    exact ⟨_, uio, writer, here, same⟩
  refine ⟨?_, ?_, ?_⟩
  · rw [appended]
    intro slot member
    rcases List.mem_append.mp member with old | fresh
    · exact inv.contents.known slot old
    · exact known slot fresh
  · rw [appended, List.map_append, List.pairwise_append]
    refine ⟨inv.contents.program, ?_, ?_⟩
    · -- No thread has two calls among the new ones.
      refine (submission_nodup one inv pc perm).imp_of_mem fun first second apart t n k same same' => ?_
      obtain ⟨slot, member, rfl⟩ := List.mem_map.mp first
      obtain ⟨slot', member', rfl⟩ := List.mem_map.mp second
      obtain ⟨u, _, writer, _⟩ := new slot member
      obtain ⟨u', _, writer', _⟩ := new slot' member'
      rw [writer, Option.some.injEq, Prod.mk.injEq] at same
      rw [writer', Option.some.injEq, Prod.mk.injEq] at same'
      obtain ⟨rfl, rfl⟩ := same
      obtain ⟨rfl, rfl⟩ := same'
      exact absurd (writer.trans writer'.symm) apart
    · intro a old b fresh t n k same same'
      obtain ⟨slot, member, rfl⟩ := List.mem_map.mp fresh
      obtain ⟨u, _, writer, _, _, _, open_call⟩ := new slot member
      rw [writer, Option.some.injEq, Prod.mk.injEq] at same'
      obtain ⟨rfl, rfl⟩ := same'
      exact landed_before inv.tracks (same ▸ old) open_call
  · obtain ⟨writes', prepared', lands⟩ := @landed_flat _ _ mem one _ known m.devs
    rw [prepared, Option.some.injEq] at prepared'
    subst prepared'
    have parity : ∀ w ∈ turn.parity.map ParityWrite.write, ∀ x, ¬ w.Covers (devOf g x) (devoffOf g x) := by
      intro w member
      obtain ⟨p, _, rfl⟩ := List.mem_map.mp member
      exact parity_apart p.one rfl (Nat.le_add_right ..) (by have := p.inside; simp only [ParityWrite.write]; omega)
    rw [left, List.append_nil, applyAll_append, flat_frame parity, lands, inv.contents.bytes, appended, List.filterMap_append,
      List.filterMap_append, last_written, last_written, last_written, List.foldl_append]

/-- Requests of one stripe whose row is not past the largest `int` have their parity
    in a chunk. -/
theorem submission_kept (one : ∀ t, ∀ uio ∈ calls t, OneStripe g uio ∧ InChunk g uio)
    (narrow : ∀ t, ∀ uio ∈ calls t, Narrow g uio) (inv : MachineInv g calls mem devs m) {bat_dios : List Slot}
    (pc : (m.sys.threads t).pc = .submit bat_dios) {ls : List Slot}
    (perm : ls.Perm (submission t (m.sys.threads t) [dio_of g (m.sys.threads t).piece] bat_dios)) :
    ParityKept g (m.sys.threads t).piece (ls.map Slot.dio) := by
  have own := List.mem_of_getElem? ((inv.mine t).piece (by simp [pc]))
  refine (narrow t _ own).imp_right fun row => ⟨row, fun dio member => ?_⟩
  obtain ⟨slot, there, rfl⟩ := List.mem_map.mp member
  obtain ⟨u, uio, _, here, same, stripe, _⟩ := submission_known one inv pc slot (perm.mem_iff.mp there)
  obtain ⟨inside, chunk⟩ := one u uio (List.mem_of_getElem? here)
  have dios : piece_dios g uio = [dio_of g uio] :=
    Option.some.inj ((split_chunk2dio_piece inside).symm.trans (chunk_dios inside chunk))
  rw [same, ← stripe]
  exact piece_inRow inside _ (dios ▸ List.mem_singleton_self _)

theorem move_inv (valid : ∀ t, ∀ uio ∈ calls t, uio.Valid g ∧ uio.user_id = t) (chunk : ∀ t, ∀ uio ∈ calls t, InChunk g uio)
    (narrow : ∀ t, ∀ uio ∈ calls t, Narrow g uio) (one : ∀ t, ∀ uio ∈ calls t, OneStripe g uio ∧ InChunk g uio)
    (timely : Timely g (SameEntry g) m.sys turn.thread)
    (next : move g mem turn m = some m') (inv : MachineInv g calls mem devs m) : MachineInv g calls mem devs m' := by
  obtain ⟨stepped, moved⟩ := move_cases next
  have effect := step_effect stepped
  have frame := fun u (own : u ≠ turn.thread) => effect_frame effect own
  have mine : ∀ t, Mine (calls t) (m'.sys.threads t) := by
    intro t
    by_cases own : t = turn.thread
    · subst own
      exact mine_step (valid _) (chunk _) stepped (inv.mine _)
    · rw [frame t own]
      exact inv.mine t
  have hand := hand_step effect timely inv.hand
  rcases moved with ⟨quiet, devs_same, landed_same⟩ | ⟨bat_dios, v_dios, writes, pc, split, perm, stray, prepared,
    left, appended⟩
  · refine ⟨hand, mine, ?_, ?_⟩
    · rw [landed_same]
      exact tracks_other stepped timely inv.hand inv.tracks quiet
    · exact ⟨landed_same ▸ inv.contents.known, landed_same ▸ inv.contents.program,
        by rw [devs_same, landed_same]; exact inv.contents.bytes⟩
  · obtain ⟨inside, chunk⟩ := (inv.mine turn.thread).one (one _) (by simp [pc])
    rw [chunk_dios inside chunk, Option.some.injEq] at split
    subst split
    rw [stray.resolve_right (not_not_intro (submission_kept one narrow inv pc perm))] at left
    refine ⟨hand, mine, ?_, contents_submit one inv pc perm prepared left appended⟩
    rw [appended]
    obtain ⟨thread, log⟩ := submit_step pc stepped
    exact tracks_submit inv.tracks inv.hand.locks pc thread frame log perm

theorem inv_start (valid : ∀ t, ∀ uio ∈ calls t, uio.Valid g ∧ uio.user_id = t) (devs : Nat → Nat → Byte) :
    MachineInv g calls mem devs (Machine.start calls devs) where
  hand := start_hands valid
  mine t := ⟨rfl, fun busy => absurd rfl busy, fun busy => absurd rfl busy, rfl⟩
  tracks := {
    batch := fun o slot member => by simp [Machine.start, System.start, Pc.batch] at member
    nodup := fun o => List.nodup_nil
    past := fun t n before => by simp [Machine.start, System.start] at before
    done := fun t landed => absurd ((landed_settled rfl).mp landed) (by simp [Machine.start, System.start, settled])
    pending := fun t _ => rfl
    future := fun t n _ => rfl }
  contents := ⟨by simp [Machine.start], List.Pairwise.nil, rfl⟩

/-! ### Runs -/

/-- The calls that have landed have taken effect one after another. -/
theorem linear_of_inv (inv : MachineInv g calls mem devs m) :
    Linear g calls mem devs m (m.landed.filterMap Slot.writer) := by
  have writers : ∀ w, w ∈ m.landed.filterMap Slot.writer ↔ some w ∈ m.landed.map Slot.writer := by
    intro w
    simp [List.mem_filterMap, List.mem_map]
  have program : (m.landed.filterMap Slot.writer).Pairwise fun a b => a.1 = b.1 → a.2 < b.2 := by
    have pairs := List.pairwise_map.mp inv.contents.program
    refine List.pairwise_filterMap.mpr (pairs.imp fun order a first b second same => ?_)
    obtain ⟨t, n⟩ := a
    obtain ⟨u, k⟩ := b
    obtain rfl : t = u := same
    exact order t n k first second
  refine ⟨?_, ?_, ?_, program, ?_⟩
  · exact program.imp fun order same => by
      subst same
      exact absurd (order rfl) (Nat.lt_irrefl _)
  · intro t n before
    have once := inv.tracks.past t n before
    exact (writers _).mpr (List.count_pos_iff.mp (by rw [times] at once; omega))
  · intro t n member
    by_cases landed : Landed m.sys t
    · have not_after : ¬ (m.sys.threads t).count < n := by
        intro after
        exact List.count_eq_zero.mp (inv.tracks.future t n after) ((writers _).mp member)
      by_cases now : n = (m.sys.threads t).count
      · refine .inr ⟨now, fun idle => ?_⟩
        simp [Landed, idle, settled, waits] at landed
      · exact .inl (by omega)
    · exact .inl (landed_before inv.tracks ((writers _).mp member) landed)
  · intro x user
    rw [user_byte_eq user, inv.contents.bytes]
    exact last_written_congr (user_byte_eq user devs).symm _

/-- What has landed stays, in the same order. -/
theorem landed_grows {ok : Machine → Turn g → Prop} (later : Reachable (move g mem) ok m m') :
    ∃ new, m'.landed = m.landed ++ new := by
  refine later.invariant (P := fun m' => ∃ new, m'.landed = m.landed ++ new) ⟨[], (List.append_nil _).symm⟩ ?_
  rintro before after turn ⟨new, grown⟩ _ next
  rcases (move_cases next).2 with ⟨_, _, same⟩ | ⟨_, _, _, _, _, _, _, _, _, appended⟩
  · exact ⟨new, same.trans grown⟩
  · exact ⟨new ++ turn.landed, by rw [appended, grown, List.append_assoc]⟩

theorem inv_of_reachable (valid : ∀ t, ∀ uio ∈ calls t, uio.Valid g ∧ uio.user_id = t)
    (chunk : ∀ t, ∀ uio ∈ calls t, InChunk g uio) (narrow : ∀ t, ∀ uio ∈ calls t, Narrow g uio)
    (reachable : Reachable (move g mem) (fun m turn => Timely g (SameEntry g) m.sys turn.thread) (Machine.start calls devs) m) :
    MachineInv g calls mem devs m := by
  have one : ∀ t, ∀ uio ∈ calls t, OneStripe g uio ∧ InChunk g uio := by
    intro t uio member
    obtain ⟨request, _⟩ := valid t uio member
    refine ⟨piece_oneStripe request ?_, chunk t uio member⟩
    rw [split_chunk request (chunk t uio member)]
    exact List.mem_cons_self
  exact reachable.invariant (inv_start valid devs) fun inv timely next => move_inv valid chunk narrow one timely next inv

/-- Concurrent calls for requests inside one chunk each, in rows that do not start
    past the largest `int`, with requests put into queues in time, take effect one
    after another: in every state that steps of the machine reach, the user space is
    what the calls that have landed leave, and what lands later comes after them. So
    a call that has ended is before every call that has not begun. -/
theorem linearizable (valid : ∀ t, ∀ uio ∈ calls t, uio.Valid g ∧ uio.user_id = t)
    (chunk : ∀ t, ∀ uio ∈ calls t, InChunk g uio) (narrow : ∀ t, ∀ uio ∈ calls t, Narrow g uio)
    (first : Reachable (move g mem) (fun m turn => Timely g (SameEntry g) m.sys turn.thread) (Machine.start calls devs) m)
    (second : Reachable (move g mem) (fun m turn => Timely g (SameEntry g) m.sys turn.thread) m m') :
    ∃ order later, Linear g calls mem devs m order ∧ Linear g calls mem devs m' (order ++ later) := by
  obtain ⟨new, grown⟩ := landed_grows second
  refine ⟨_, new.filterMap Slot.writer, linear_of_inv (inv_of_reachable valid chunk narrow first), ?_⟩
  rw [← List.filterMap_append, ← grown]
  exact linear_of_inv (inv_of_reachable valid chunk narrow (first.trans second))

/-- The turns of two threads with requests in one stripe. The second puts its
    request into the queue of the first, and its write lands first. -/
def two_turns : List (Turn defaultGeometry) :=
  ([0, 0, 0, 0] ++ List.replicate 8 1 ++ List.replicate 7 0 ++ [1]).map fun t =>
    ⟨t, [⟨⟨0, 4096, 8192, 4096, 0⟩, some (1, 0)⟩, ⟨⟨0, 4096, 0, 4096, 0⟩, some (0, 0)⟩], [], []⟩

theorem one_stripe_chunk : ∀ t, ∀ uio ∈ one_stripe t, InChunk defaultGeometry uio
  | 0 => by decide
  | 1 => by decide
  | _ + 2 => by simp [one_stripe]

theorem one_stripe_narrow : ∀ t, ∀ uio ∈ one_stripe t, Narrow defaultGeometry uio
  | 0 => by decide
  | 1 => by decide
  | _ + 2 => by simp [one_stripe]

theorem linearizable_one_stripe : ∃ m, m.landed.map Slot.writer = [some (1, 0), some (0, 0)] ∧
    ∃ order later, Linear defaultGeometry one_stripe (fun a => a) (fun _ _ => 0) m order ∧
      Linear defaultGeometry one_stripe (fun a => a) (fun _ _ => 0) m (order ++ later) := by
  have result : (run (move defaultGeometry fun a => a)
      (fun m turn => Timely defaultGeometry (SameEntry defaultGeometry) m.sys turn.thread) two_turns
      (Machine.start one_stripe fun _ _ => 0)).map (fun m => m.landed.map Slot.writer) =
      some [some (1, 0), some (0, 0)] := by decide +kernel
  obtain ⟨m, reached, landed⟩ := Option.map_eq_some_iff.mp result
  exact ⟨m, landed, linearizable one_stripe_valid one_stripe_chunk one_stripe_narrow (run_reachable reached) .start⟩

end Straid.Linearization
