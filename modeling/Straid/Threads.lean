import Straid.Encode
import Straid.Interleavings

/-!
Threads that run `raid_write_direct` at the same time. Every load, store,
compare and exchange or fetch and add of an atomic cell is one step of a thread,
and so is the assignment to a slot of `v_batchque2` and the copy of one slot into
`bat_dios`; `step` is the next step of a thread. Of `raid_write` only these steps
are kept, with the device requests that it submits. The log of what threads did,
and the name that a slot keeps of the write it is for, are there for the
statements only.
-/
namespace Straid.Threads
open LogFiles Metadata Split Encode

/-- A slot of a queue, with the write that it is for: its thread, and how many
    pieces that thread had handled. -/
structure Slot where
  dio : DioInfo
  writer : Option (Nat × Nat)
  deriving DecidableEq

/-- Where a thread is in `raid_write_direct`, with what it keeps in local
    variables. -/
inductive Pc
  /-- Before its next call. -/
  | idle
  /-- At the top of the loop, before the compare and exchange. -/
  | loop
  /-- With the lock, up to the call of `raid_write`. -/
  | store_thread
  | thaw
  /-- In `raid_write`. -/
  | freeze
  | load_len
  | copy (qlen : Nat) (bat_dios : List Slot)
  | reset (bat_dios : List Slot)
  | submit (bat_dios : List Slot)
  /-- After `raid_write`. -/
  | clear_thread
  | unlock
  /-- Without the lock, in the branch that delegates. -/
  | load_frozen
  | load_thread
  | load_wid
  | check_frozen (wid : Nat) (dio : DioInfo)
  | fetch_add (wid : Nat) (dio : DioInfo)
  | store_slot (wid idx : Nat) (dio : DioInfo)
  | spin (wid idx : Nat) (dio : DioInfo)
  deriving DecidableEq

/-- A thread: the requests of its calls to come, the request of the call it is
    in, the piece it is at and the pieces after it, and the number of pieces it
    has handled. -/
structure Thread where
  calls : List UioInfo
  uio : UioInfo
  piece : UioInfo
  later : List UioInfo
  count : Nat
  pc : Pc
  deriving DecidableEq

/-- What threads did. -/
inductive Event
  /-- The holder of an entry copied a slot into its batch. -/
  | copied (owner entry : Nat) (slot : Slot)
  /-- It submitted the writes of its own device requests and of its batch. -/
  | submitted (owner entry : Nat) (v_dios : List DioInfo) (bat_dios : List Slot)
  /-- It released the lock of the entry. -/
  | released (owner entry : Nat)
  /-- A thread left the branch that delegates, with `handled` set. -/
  | delegated (entry : Nat) (slot : Slot)
  deriving DecidableEq

/-- The shared cells and the threads. -/
structure System where
  sst : Nat → SSTEntry
  v_batchque2 : Nat → Nat → Slot
  inqueue_data_len : Nat → Nat
  threads : Nat → Thread
  log : List Event

variable (g : Geometry)

/-- The entry of the table of stripes that a thread locks: that of the offset of
    its request. -/
def Thread.entry (th : Thread) : Nat := user2stripe g th.uio.user_offset

/-- The stripe of the piece that a thread is at. -/
def Thread.stripe (th : Thread) : Nat := user2stripe g th.piece.user_offset

/-- A thread after a piece is handled. -/
def Thread.next (th : Thread) : Thread :=
  match th.later with
  | [] => { th with count := th.count + 1, pc := .idle }
  | piece :: later => { th with piece := piece, later := later, count := th.count + 1, pc := .loop }

namespace System

def set (st : System) (t : Nat) (th : Thread) : System := { st with threads := Function.update st.threads t th }

def goto (st : System) (t : Nat) (pc : Pc) : System := st.set t { st.threads t with pc := pc }

def store (st : System) (s : Nat) (f : SSTEntry → SSTEntry) : System :=
  { st with sst := Function.update st.sst s (f (st.sst s)) }

def set_len (st : System) (wid len : Nat) : System :=
  { st with inqueue_data_len := Function.update st.inqueue_data_len wid len }

def set_slot (st : System) (wid idx : Nat) (slot : Slot) : System :=
  { st with v_batchque2 := Function.update st.v_batchque2 wid (Function.update (st.v_batchque2 wid) idx slot) }

def record (st : System) (event : Event) : System := { st with log := event :: st.log }

end System

attribute [simp] System.set System.goto System.store System.set_len System.set_slot System.record

/-! ### The steps -/

/-- The start of a call: the request is split, and its entry found. -/
def begin_call (t : Nat) (th : Thread) (st : System) : Option System :=
  match th.calls with
  | [] => none
  | uio :: calls => do
    let _ ← search_SST g (user2stripe g uio.user_offset)
    match split_stripe_aligned g uio with
    | [] => none
    | piece :: later => some (st.set t ⟨calls, uio, piece, later, th.count, .loop⟩)

/-- `is_frozen.store(true)`, on the entry of the piece. Only a partial stripe
    looks at the queue. -/
def freeze (t : Nat) (th : Thread) (st : System) : Option System := do
  let v_dios ← split_chunk2dio g th.piece
  let i ← search_SST g (ofInt (devoff2stripe g (v_dios.headD default).dev_offset))
  some ((st.store i fun e => { e with is_frozen := true }).goto t
    (if is_fullstripe g th.piece.user_offset th.piece.length then .submit [] else .load_len))

/-- `batchque_len->load()`. -/
def load_len (t : Nat) (st : System) : Option System :=
  let qlen := st.inqueue_data_len t
  if qlen > 0 then
    if qlen > BATCH_SLOTS then none else some (st.goto t (.copy qlen []))
  else some (st.goto t (.submit []))

/-- The copy of the next slot into `bat_dios`. -/
def copy (t s qlen : Nat) (bat_dios : List Slot) (st : System) : System :=
  let slot := st.v_batchque2 t bat_dios.length
  (st.record (.copied t s slot)).goto t
    (if bat_dios.length + 1 = qlen then .reset (bat_dios ++ [slot]) else .copy qlen (bat_dios ++ [slot]))

/-- The submission of the writes of the piece and of the batch. When the batch is more
    than the ring of the thread holds is in `Straid.Completion`. -/
def submit (t s : Nat) (th : Thread) (bat_dios : List Slot) (st : System) : Option System := do
  let v_dios ← split_chunk2dio g th.piece
  some ((st.record (.submitted t s v_dios bat_dios)).goto t .clear_thread)

/-- The second load of `SSTthreadid`, and what follows it up to the next load. -/
def load_wid (t s : Nat) (th : Thread) (st : System) : Option System :=
  let wid := (st.sst s).SSTthreadid
  if wid > NUM_THREADS then some (st.goto t .loop)
  else if wid = NUM_THREADS then none
  else (s_uio2dio g th.piece).map fun dio => st.goto t (.check_frozen wid dio)

/-- `queue_len->fetch_add(1)`, and the bounds check of the slot. -/
def fetch_add (t wid : Nat) (dio : DioInfo) (st : System) : Option System :=
  let idx := st.inqueue_data_len wid
  if idx ≥ BATCH_SLOTS then none else some ((st.set_len wid (idx + 1)).goto t (.store_slot wid idx dio))

/-- The load of `stripe_lock` while the thread waits. -/
def spin (t s : Nat) (dio : DioInfo) (th : Thread) (st : System) : System :=
  if (st.sst s).stripe_lock then st
  else (st.record (.delegated s ⟨dio, some (t, th.count)⟩)).set t th.next

/-- The next step of thread `t`, the one whose requests have `user_id` `t`. -/
def step (t : Nat) (st : System) : Option System :=
  let th := st.threads t
  let s := th.entry g
  match th.pc with
  | .idle => begin_call g t th st
  | .loop =>
    some (if (st.sst s).stripe_lock then st.goto t .load_frozen
      else (st.store s fun e => { e with stripe_lock := true }).goto t .store_thread)
  | .store_thread => some ((st.store s fun e => { e with SSTthreadid := t }).goto t .thaw)
  | .thaw => some ((st.store s fun e => { e with is_frozen := false }).goto t .freeze)
  | .freeze => freeze g t th st
  | .load_len => load_len t st
  | .copy qlen bat_dios => some (copy t s qlen bat_dios st)
  | .reset bat_dios => some ((st.set_len t 0).goto t (.submit bat_dios))
  | .submit bat_dios => submit g t s th bat_dios st
  | .clear_thread => some ((st.store s fun e => { e with SSTthreadid := INT16_MAX }).goto t .unlock)
  | .unlock => some (((st.store s fun e => { e with stripe_lock := false }).record (.released t s)).set t th.next)
  | .load_frozen => some (st.goto t (if (st.sst s).is_frozen then .loop else .load_thread))
  | .load_thread => some (st.goto t (if (st.sst s).SSTthreadid < NUM_THREADS then .load_wid else .loop))
  | .load_wid => load_wid g t s th st
  | .check_frozen wid dio => some (st.goto t (if (st.sst s).is_frozen then .loop else .fetch_add wid dio))
  | .fetch_add wid dio => fetch_add t wid dio st
  | .store_slot wid idx dio => some ((st.set_slot wid idx ⟨dio, some (t, th.count)⟩).goto t (.spin wid idx dio))
  | .spin _ _ dio => some (spin t s dio th st)

/-- The system before the first step, when thread `t` is to make `calls t`. -/
def System.start (calls : Nat → List UioInfo) : System where
  sst := fun _ => SSTEntry.fresh
  v_batchque2 := fun _ _ => ⟨default, none⟩
  inqueue_data_len := fun _ => 0
  threads := fun t => ⟨calls t, ⟨0, false, 0, 0, 0⟩, ⟨0, false, 0, 0, 0⟩, [], 0, .idle⟩
  log := []

/-! ### What a step does -/

/-- A thread has the lock of its entry. -/
def Pc.holds : Pc → Bool
  | .store_thread | .thaw | .freeze | .load_len | .copy .. | .reset _ | .submit _ | .clear_thread | .unlock => true
  | _ => false

/-- A thread is in `raid_write`. -/
def Pc.inside : Pc → Bool
  | .freeze | .load_len | .copy .. | .reset _ | .submit _ => true
  | _ => false

/-- A thread copies its queue, or has copied it and is to empty it. -/
def Pc.drains : Pc → Bool
  | .copy .. | .reset _ => true
  | _ => false

/-- A thread has a slot of a queue. -/
def Pc.delegates : Pc → Bool
  | .store_slot .. | .spin .. => true
  | _ => false

/-- The queue and the slot that a thread is to fill. -/
def Pc.fills : Pc → Option (Nat × Nat)
  | .store_slot wid idx _ => some (wid, idx)
  | _ => none

/-- The queue that a thread is to take a slot of. -/
def Pc.fetches : Pc → Option Nat
  | .fetch_add wid _ => some wid
  | _ => none

/-- The slot of its queue that a thread copies next. -/
def Pc.copies : Pc → Option Nat
  | .copy _ bat_dios => some bat_dios.length
  | _ => none

/-- The device request of a thread that delegates. -/
def Pc.dio : Pc → Option DioInfo
  | .check_frozen _ dio | .fetch_add _ dio | .store_slot _ _ dio | .spin _ _ dio => some dio
  | _ => none

/-- What a thread has copied out of its queue. -/
def Pc.batch : Pc → List Slot
  | .copy _ bat_dios | .reset bat_dios | .submit bat_dios => bat_dios
  | _ => []

/-- A thread has a lock for a partial stripe, and has not looked at its queue. -/
def Thread.collects (th : Thread) : Bool :=
  (match th.pc with
    | .store_thread | .thaw | .freeze | .load_len => true
    | _ => false) && !is_fullstripe g th.piece.user_offset th.piece.length

def locked (st : System) (s : Nat) : Bool := (st.sst s).stripe_lock

/-- A step of thread `t` that makes it `th'` and changes no lock, no queue and
    not the log. -/
structure Private (t : Nat) (th' : Thread) (st st' : System) : Prop where
  threads : st'.threads = Function.update st.threads t th'
  locks : locked st' = locked st
  slots : st'.v_batchque2 = st.v_batchque2
  len : st'.inqueue_data_len = st.inqueue_data_len
  log : st'.log = st.log

/-- What a step of thread `t` does. -/
inductive Effect (t : Nat) (st : System) : System → Prop
  /-- The start of a call. -/
  | begins {uio : UioInfo} {calls : List UioInfo} {piece : UioInfo} {later : List UioInfo}
      (idle : (st.threads t).pc = .idle) (call : (st.threads t).calls = uio :: calls)
      (split : split_stripe_aligned g uio = piece :: later) :
      Effect t st (st.set t ⟨calls, uio, piece, later, (st.threads t).count, .loop⟩)
  /-- A step without the lock and without a slot. -/
  | looks {st' : System} (pc' : Pc) (busy : (st.threads t).pc ≠ .idle) (free : (st.threads t).pc.holds = false)
      (free' : pc'.holds = false) (slotless : (st.threads t).pc.delegates = false) (slotless' : pc'.delegates = false)
      (before : (st.threads t).pc.fetches = none)
      (request : ∀ dio ∈ pc'.dio, dio ∈ (st.threads t).pc.dio ∨ s_uio2dio g (st.threads t).piece = some dio)
      (same : Private t { st.threads t with pc := pc' } st st') : Effect t st st'
  /-- The lock is taken. -/
  | takes (loop : (st.threads t).pc = .loop) (free : locked st ((st.threads t).entry g) = false) :
      Effect t st ((st.store ((st.threads t).entry g) fun e => { e with stripe_lock := true }).goto t .store_thread)
  /-- A step with the lock that leaves the queue alone. -/
  | works {st' : System} (pc' : Pc) (held : (st.threads t).pc.holds = true) (held' : pc'.holds = true)
      (leaves : (st.threads t).pc.drains = false) (leaves' : pc'.drains = false)
      (batch : (st.threads t).pc.batch = []) (batch' : pc'.batch = [])
      (enters : pc'.inside = true → (st.threads t).pc.inside = true ∨ (st.threads t).pc = .thaw)
      (fewer : ({ st.threads t with pc := pc' } : Thread).collects g = true → (st.threads t).collects g = true)
      (empty : (st.threads t).collects g = true → ({ st.threads t with pc := pc' } : Thread).collects g = false →
        st.inqueue_data_len t = 0)
      (same : Private t { st.threads t with pc := pc' } st st') : Effect t st st'
  /-- The length of a queue with requests in it is loaded. -/
  | loads (pc : (st.threads t).pc = .load_len) (some_len : 0 < st.inqueue_data_len t) :
      Effect t st (st.goto t (.copy (st.inqueue_data_len t) []))
  | copies {qlen : Nat} {bat_dios : List Slot} (pc : (st.threads t).pc = .copy qlen bat_dios) :
      Effect t st (copy t ((st.threads t).entry g) qlen bat_dios st)
  | resets {bat_dios : List Slot} (pc : (st.threads t).pc = .reset bat_dios) :
      Effect t st ((st.set_len t 0).goto t (.submit bat_dios))
  | submits {bat_dios : List Slot} (pc : (st.threads t).pc = .submit bat_dios) (v_dios : List DioInfo) :
      Effect t st ((st.record (.submitted t ((st.threads t).entry g) v_dios bat_dios)).goto t .clear_thread)
  | releases (pc : (st.threads t).pc = .unlock) :
      Effect t st (((st.store ((st.threads t).entry g) fun e => { e with stripe_lock := false }).record
        (.released t ((st.threads t).entry g))).set t (st.threads t).next)
  | fetches {wid : Nat} {dio : DioInfo} (pc : (st.threads t).pc = .fetch_add wid dio) :
      Effect t st ((st.set_len wid (st.inqueue_data_len wid + 1)).goto t
        (.store_slot wid (st.inqueue_data_len wid) dio))
  | fills {wid idx : Nat} {dio : DioInfo} (pc : (st.threads t).pc = .store_slot wid idx dio) :
      Effect t st ((st.set_slot wid idx ⟨dio, some (t, (st.threads t).count)⟩).goto t (.spin wid idx dio))
  | waits {wid idx : Nat} {dio : DioInfo} (pc : (st.threads t).pc = .spin wid idx dio) : Effect t st st
  | leaves {wid idx : Nat} {dio : DioInfo} (pc : (st.threads t).pc = .spin wid idx dio)
      (free : locked st ((st.threads t).entry g) = false) :
      Effect t st ((st.record (.delegated ((st.threads t).entry g) ⟨dio, some (t, (st.threads t).count)⟩)).set t
        (st.threads t).next)

variable {g}

theorem goto_stripe (st : System) (t : Nat) (pc : Pc) (u : Nat) :
    ((st.goto t pc).threads u).stripe g = (st.threads u).stripe g := by
  by_cases own : u = t
  · subst own
    simp [Thread.stripe]
  · simp [own]

theorem goto_other (st : System) {t u : Nat} (pc : Pc) (other : u ≠ t) : (st.goto t pc).threads u = st.threads u := by
  simp [other]

theorem goto_own (st : System) (t : Nat) (pc : Pc) : ((st.goto t pc).threads t).pc = pc := by simp

theorem set_slot_own (st : System) (wid idx : Nat) (slot : Slot) : (st.set_slot wid idx slot).v_batchque2 wid idx = slot := by
  simp

theorem set_slot_other (st : System) {wid idx w i : Nat} (slot : Slot) (other : ¬ (w = wid ∧ i = idx)) :
    (st.set_slot wid idx slot).v_batchque2 w i = st.v_batchque2 w i := by
  simp only [System.set_slot, Function.update_apply]
  split
  · next queue =>
    subst queue
    rw [Function.update_of_ne fun same => other ⟨rfl, same⟩]
  · rfl

theorem goto_private (st : System) (t : Nat) (pc : Pc) : Private t { st.threads t with pc := pc } st (st.goto t pc) :=
  ⟨rfl, rfl, rfl, rfl, rfl⟩

/-- A change of an entry that keeps its lock. -/
theorem store_private (st : System) (t s : Nat) (pc : Pc) {f : SSTEntry → SSTEntry}
    (keeps : (f (st.sst s)).stripe_lock = (st.sst s).stripe_lock) :
    Private t { st.threads t with pc := pc } st ((st.store s f).goto t pc) where
  threads := rfl
  locks := by
    funext r
    simp only [locked, System.goto, System.set, System.store, Function.update_apply]
    split
    · next same => rw [same, keeps]
    · rfl
  slots := rfl
  len := rfl
  log := rfl

theorem begin_call_effect {t : Nat} {st st' : System} (pc : (st.threads t).pc = .idle)
    (next : begin_call g t (st.threads t) st = some st') : Effect g t st st' := by
  unfold begin_call at next
  split at next
  · contradiction
  · next uio calls call =>
    simp only [Option.bind_eq_bind, Option.bind_eq_some_iff] at next
    obtain ⟨_, _, next⟩ := next
    cases split : split_stripe_aligned g uio with
    | nil => simp [split] at next
    | cons piece later =>
      simp only [split, Option.some.injEq] at next
      exact next ▸ .begins pc call split

theorem freeze_effect {t : Nat} {st st' : System} (pc : (st.threads t).pc = .freeze)
    (next : freeze g t (st.threads t) st = some st') : Effect g t st st' := by
  simp only [freeze, Option.bind_eq_bind, Option.bind_eq_some_iff, Option.some.injEq] at next
  obtain ⟨_, _, i, _, rfl⟩ := next
  have quiet := fun pc' => store_private st t i pc' (f := fun e => { e with is_frozen := true }) rfl
  cases full : is_fullstripe g (st.threads t).piece.user_offset (st.threads t).piece.length with
  | true =>
    refine .works (.submit []) ?_ ?_ ?_ ?_ ?_ ?_ ?_ ?_ ?_ (quiet _) <;>
      simp [pc, full, Pc.holds, Pc.drains, Pc.batch, Pc.inside, Thread.collects]
  | false =>
    refine .works .load_len ?_ ?_ ?_ ?_ ?_ ?_ ?_ ?_ ?_ (quiet _) <;>
      simp [pc, full, Pc.holds, Pc.drains, Pc.batch, Pc.inside, Thread.collects]

theorem load_len_effect {t : Nat} {st st' : System} (pc : (st.threads t).pc = .load_len)
    (next : load_len t st = some st') : Effect g t st st' := by
  simp only [load_len] at next
  split at next
  · next some_len =>
    split at next
    · contradiction
    · obtain rfl := Option.some.inj next
      exact .loads pc some_len
  · next empty =>
    obtain rfl := Option.some.inj next
    refine .works (.submit []) ?_ ?_ ?_ ?_ ?_ ?_ ?_ ?_ ?_ (goto_private st t _) <;>
      simp [pc, Pc.holds, Pc.drains, Pc.batch, Pc.inside, Thread.collects]
    omega

theorem load_wid_effect {t s : Nat} {st st' : System} (pc : (st.threads t).pc = .load_wid)
    (next : load_wid g t s (st.threads t) st = some st') : Effect g t st st' := by
  simp only [load_wid] at next
  split at next
  · obtain rfl := Option.some.inj next
    exact .looks .loop (by simp [pc]) (by simp [pc, Pc.holds]) rfl (by simp [pc, Pc.delegates]) rfl
      (by simp [pc, Pc.fetches]) (by simp [Pc.dio]) (goto_private st t _)
  · split at next
    · contradiction
    · obtain ⟨dio, made, rfl⟩ := Option.map_eq_some_iff.mp next
      exact .looks (.check_frozen _ dio) (by simp [pc]) (by simp [pc, Pc.holds]) rfl (by simp [pc, Pc.delegates]) rfl
        (by simp [pc, Pc.fetches]) (by simp [Pc.dio, made]) (goto_private st t _)

/-- Every step has one of the effects. -/
theorem step_effect {t : Nat} {st st' : System} (next : step g t st = some st') : Effect g t st st' := by
  have looks : ∀ pc' : Pc, (st.threads t).pc ≠ .idle → (st.threads t).pc.holds = false →
      (st.threads t).pc.delegates = false → pc'.holds = false → pc'.delegates = false →
      (st.threads t).pc.fetches = none → (∀ dio ∈ pc'.dio, dio ∈ (st.threads t).pc.dio) → Effect g t st (st.goto t pc') :=
    fun pc' busy free slotless free' slotless' before request => .looks pc' busy free free' slotless slotless' before
      (fun dio member => .inl (request dio member)) (goto_private st t pc')
  cases pc : (st.threads t).pc with
  | idle =>
    simp only [step, pc] at next
    exact begin_call_effect pc next
  | loop =>
    simp only [step, pc, Option.some.injEq] at next
    subst next
    split
    · exact looks _ (by simp [pc]) (by simp [pc, Pc.holds]) (by simp [pc, Pc.delegates]) rfl rfl (by simp [pc, Pc.fetches])
        (by simp [Pc.dio])
    · next free => exact .takes pc (by simpa [locked] using free)
  | store_thread =>
    simp only [step, pc, Option.some.injEq] at next
    subst next
    refine .works .thaw ?_ ?_ ?_ ?_ ?_ ?_ ?_ ?_ ?_ (store_private st t _ _ rfl) <;>
      simp +contextual [pc, Pc.holds, Pc.drains, Pc.batch, Pc.inside, Thread.collects]
  | thaw =>
    simp only [step, pc, Option.some.injEq] at next
    subst next
    refine .works .freeze ?_ ?_ ?_ ?_ ?_ ?_ ?_ ?_ ?_ (store_private st t _ _ rfl) <;>
      simp +contextual [pc, Pc.holds, Pc.drains, Pc.batch, Pc.inside, Thread.collects]
  | freeze =>
    simp only [step, pc] at next
    exact freeze_effect pc next
  | load_len =>
    simp only [step, pc] at next
    exact load_len_effect pc next
  | copy qlen bat_dios =>
    simp only [step, pc, Option.some.injEq] at next
    exact next ▸ .copies pc
  | reset bat_dios =>
    simp only [step, pc, Option.some.injEq] at next
    exact next ▸ .resets pc
  | submit bat_dios =>
    simp only [step, pc, submit, Option.bind_eq_bind, Option.bind_eq_some_iff, Option.some.injEq] at next
    obtain ⟨v_dios, _, rfl⟩ := next
    exact .submits pc v_dios
  | clear_thread =>
    simp only [step, pc, Option.some.injEq] at next
    subst next
    refine .works .unlock ?_ ?_ ?_ ?_ ?_ ?_ ?_ ?_ ?_ (store_private st t _ _ rfl) <;>
      simp +contextual [pc, Pc.holds, Pc.drains, Pc.batch, Pc.inside, Thread.collects]
  | unlock =>
    simp only [step, pc, Option.some.injEq] at next
    exact next ▸ .releases pc
  | load_frozen =>
    simp only [step, pc, Option.some.injEq] at next
    subst next
    split <;> exact looks _ (by simp [pc]) (by simp [pc, Pc.holds]) (by simp [pc, Pc.delegates]) rfl rfl (by simp [pc, Pc.fetches])
      (by simp [pc, Pc.dio])
  | load_thread =>
    simp only [step, pc, Option.some.injEq] at next
    subst next
    split <;> exact looks _ (by simp [pc]) (by simp [pc, Pc.holds]) (by simp [pc, Pc.delegates]) rfl rfl (by simp [pc, Pc.fetches])
      (by simp [pc, Pc.dio])
  | load_wid =>
    simp only [step, pc] at next
    exact load_wid_effect pc next
  | check_frozen wid dio =>
    simp only [step, pc, Option.some.injEq] at next
    subst next
    split <;> exact looks _ (by simp [pc]) (by simp [pc, Pc.holds]) (by simp [pc, Pc.delegates]) rfl rfl (by simp [pc, Pc.fetches])
      (by simp [pc, Pc.dio])
  | fetch_add wid dio =>
    simp only [step, pc, fetch_add] at next
    split at next
    · contradiction
    · obtain rfl := Option.some.inj next
      exact .fetches pc
  | store_slot wid idx dio =>
    simp only [step, pc, Option.some.injEq] at next
    exact next ▸ .fills pc
  | spin wid idx dio =>
    simp only [step, pc, Option.some.injEq, spin] at next
    subst next
    split
    · exact .waits pc
    · next free => exact .leaves pc (by simpa [locked] using free)

end Straid.Threads
