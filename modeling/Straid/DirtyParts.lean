import Straid.AtomicBitvector
import Straid.Interleavings

/-!
Threads that change the bitmap of blocks while `bitmap_run` flushes it. A change
is two steps, of the word and of the count of its part, and the pass sets a count
back only after it has prepared the flush request of the part. No order of steps
forgets to make a request (`none_forgotten`): until one of the part of a change is
submitted, it is in the ring, or the part has a count, or the thread is about to
count. So when the calls have ended, a pass in which every part is due submits
the requests of all parts with a count (`pass_submits_all`). What bytes a request
writes is another matter.
-/
namespace Straid.DirtyParts
open Metadata BitmapFlush AtomicBitvector Rings Interleavings

/-- Where a thread is in `set` or `reset`: before a call, or before the count of
    the part. -/
inductive Pc
  | idle
  | add (part : Nat)
  deriving DecidableEq, Repr

structure Thread where
  calls : List BitOp
  pc : Pc
  deriving DecidableEq, Repr

/-- Where a pass of `bitmap_run` is: at a part, before the count of a part is set
    back, or before the submission. -/
inductive Flusher
  | check (part : Nat)
  | clear (part : Nat)
  | submit
  deriving DecidableEq, Repr

/-- The bitmap, the address of its vector and its place in the store, the threads
    and the pass, with the requests in the ring. The changes of words, and which
    parts have one that no submitted request of the part came after, are there for
    the statements only. -/
structure System where
  bitmap : AtomicBv
  Part_bitnum : Nat
  v_updated_cnt : Nat → Nat
  object : Nat
  store_offset : Nat
  threads : Nat → Thread
  flusher : Flusher
  ring : List Flush
  log : List BitOp
  changed : Nat → Bool

/-- The next step is of a thread, or of the pass; at a part, the time since its
    last flush says whether it is due. -/
inductive Agent
  | thread (t : Nat)
  | pass (due : Bool)
  deriving DecidableEq, Repr

namespace System

/-- A new bitmap, when thread `t` is to make `calls t`. -/
def start (max_bitnum Factor object store_offset : Nat) (calls : Nat → List BitOp) : System where
  bitmap := AtomicBv.fresh max_bitnum
  Part_bitnum := Factor
  v_updated_cnt := fun _ => 0
  object := object
  store_offset := store_offset
  threads := fun t => ⟨calls t, .idle⟩
  flusher := .check 0
  ring := []
  log := []
  changed := fun _ => false

variable (st : System)

def Part_cnt : Nat := st.bitmap.size / st.Part_bitnum + 1

/-- The flush request of a part. -/
def flush (part : Nat) : Flush := part_flush (BitmapFlush.fresh st.bitmap.size st.Part_bitnum) st.object st.store_offset part

def set (t : Nat) (th : Thread) : System := { st with threads := Function.update st.threads t th }

/-- The end of the round of a part. -/
def next (part : Nat) : System :=
  { st with flusher := if part + 1 < st.Part_cnt then .check (part + 1) else .submit }

/-- The access of the word in `set` or `reset`. -/
def change_bit (t : Nat) (op : BitOp) (calls : List BitOp) : Option System :=
  if op.idx ≥ st.bitmap.size then some (st.set t ⟨calls, .idle⟩)
  else (change st.bitmap op).map fun bitmap =>
    { st.set t ⟨calls, .add (op.idx / st.Part_bitnum)⟩ with
      bitmap := bitmap
      log := st.log ++ [op]
      changed := Function.update st.changed (op.idx / st.Part_bitnum) true }

/-- `v_updated_cnt[part].fetch_add(1)`. -/
def count (t part : Nat) : System :=
  { st.set t ⟨(st.threads t).calls, .idle⟩ with
    v_updated_cnt := Function.update st.v_updated_cnt part (st.v_updated_cnt part + 1) }

/-- The load of the count of a part, and the preparation of its request. -/
def check (part : Nat) (due : Bool) : Option System :=
  if st.v_updated_cnt part > 0 ∧ due then
    (io_uring_get_sqe st.ring.length).map fun _ => { st with ring := st.ring ++ [st.flush part], flusher := .clear part }
  else some (st.next part)

/-- `v_updated_cnt[part].store(0)`. -/
def clear (part : Nat) : System :=
  { st with v_updated_cnt := Function.update st.v_updated_cnt part 0 }.next part

/-- The submission, when there is something to submit, and the wait. -/
def submit : System :=
  { st with ring := [], flusher := .check 0, changed := fun part => st.changed part && !st.ring.contains (st.flush part) }

end System

def step (agent : Agent) (st : System) : Option System :=
  match agent with
  | .thread t =>
    match (st.threads t).pc with
    | .idle =>
      match (st.threads t).calls with
      | [] => none
      | op :: calls => st.change_bit t op calls
    | .add part => some (st.count t part)
  | .pass due =>
    match st.flusher with
    | .check part => st.check part due
    | .clear part => some (st.clear part)
    | .submit => some st.submit

/-! ### No change is forgotten -/

/-- The words have the bits that the changes leave in their order, and a part
    with a change that no submitted request of the part came after has one in the
    ring, or is counted, or is about to be. -/
structure Sound (max_bitnum Factor : Nat) (st : System) : Prop where
  bits : Holds st.bitmap (run_ops st.log (BitmapFlush.fresh max_bitnum Factor))
  kept : ∀ part, st.changed part = true →
    st.flush part ∈ st.ring ∨ 0 < st.v_updated_cnt part ∨ ∃ t, (st.threads t).pc = .add part

structure FlushInv (max_bitnum Factor : Nat) (st : System) : Prop where
  sound : Sound max_bitnum Factor st
  parts : st.Part_bitnum = Factor
  cleared : ∀ part, st.flusher = .clear part → st.flush part ∈ st.ring
  first : st.flusher = .check 0 → st.ring = []
  counted : ∀ part, 0 < st.v_updated_cnt part → part < st.Part_cnt
  adding : ∀ t part, (st.threads t).pc = .add part → part < st.Part_cnt

variable {max_bitnum Factor object store_offset t : Nat} {st st' : System}

theorem run_ops_append (ops : List BitOp) (op : BitOp) (b : BlkBitmap) :
    run_ops (ops ++ [op]) b = BitOp.apply (run_ops ops b) op := by
  simp [run_ops]

theorem size_eq (inv : FlushInv max_bitnum Factor st) : st.bitmap.size = max_bitnum :=
  inv.sound.bits.size.trans (run_ops_frame st.log (BitmapFlush.fresh max_bitnum Factor)).1

/-- Another thread that is about to count still is. -/
theorem adding_other {part u : Nat} {th : Thread} (idle : (st.threads t).pc = .idle)
    (adding : (st.threads u).pc = .add part) : ((st.set t th).threads u).pc = .add part := by
  have other : u ≠ t := by
    rintro rfl
    rw [idle] at adding
    cases adding
  simpa [System.set, other] using adding

theorem skip_inv {calls : List BitOp} (idle : (st.threads t).pc = .idle) (inv : FlushInv max_bitnum Factor st) :
    FlushInv max_bitnum Factor (st.set t ⟨calls, .idle⟩) := by
  refine { inv with sound := ⟨inv.sound.bits, fun part changed => ?_⟩, adding := fun u part adding => ?_ }
  · rcases inv.sound.kept part changed with prepared | counted | ⟨u, adding⟩
    · exact .inl prepared
    · exact .inr (.inl counted)
    · exact .inr (.inr ⟨u, adding_other idle adding⟩)
  · by_cases own : u = t
    · subst own
      simp [System.set] at adding
    · exact inv.adding u part (by simpa [System.set, own] using adding)

theorem change_inv {op : BitOp} {calls : List BitOp} (idle : (st.threads t).pc = .idle)
    (next : st.change_bit t op calls = some st') (inv : FlushInv max_bitnum Factor st) : FlushInv max_bitnum Factor st' := by
  rw [System.change_bit] at next
  split at next
  · rw [Option.some.injEq] at next
    exact next ▸ skip_inv idle inv
  · next inside =>
    obtain ⟨bitmap, changes, rfl⟩ := Option.map_eq_some_iff.mp next
    obtain ⟨after, changes', holds⟩ := change_holds inv.sound.bits op
    obtain rfl : bitmap = after := Option.some.inj (changes.symm.trans changes')
    have size : bitmap.size = st.bitmap.size := by
      rw [holds.size, (apply_frame _ op).1, inv.sound.bits.size]
    have parts : bitmap.size / st.Part_bitnum + 1 = st.Part_cnt := by rw [size, System.Part_cnt]
    refine { inv with sound := ⟨?_, fun part changed => ?_⟩, counted := ?_, adding := fun u part adding => ?_ }
    · rw [run_ops_append]
      exact holds
    · by_cases own : part = op.idx / st.Part_bitnum
      · subst own
        exact .inr (.inr ⟨t, by simp [System.set]⟩)
      · rcases inv.sound.kept part (by simpa [own] using changed) with prepared | counted | ⟨u, adding⟩
        · exact .inl prepared
        · exact .inr (.inl counted)
        · exact .inr (.inr ⟨u, adding_other idle adding⟩)
    · intro part counted
      show part < bitmap.size / st.Part_bitnum + 1
      rw [parts]
      exact inv.counted part counted
    · show part < bitmap.size / st.Part_bitnum + 1
      rw [parts]
      by_cases own : u = t
      · subst own
        obtain rfl : op.idx / st.Part_bitnum = part := by simpa [System.set] using adding
        exact Nat.lt_succ_of_le (Nat.div_le_div_right (by omega))
      · exact inv.adding u part (by simpa [System.set, own] using adding)

theorem count_inv {part : Nat} (adding : (st.threads t).pc = .add part) (inv : FlushInv max_bitnum Factor st) :
    FlushInv max_bitnum Factor (st.count t part) := by
  refine { inv with sound := ⟨inv.sound.bits, fun other changed => ?_⟩, counted := ?_, adding := fun u other now => ?_ }
  · by_cases own : other = part
    · subst own
      exact .inr (.inl (by simp [System.count]))
    · rcases inv.sound.kept other changed with prepared | counted | ⟨u, now⟩
      · exact .inl prepared
      · exact .inr (.inl (by simpa [System.count, own] using counted))
      · have apart : u ≠ t := by
          rintro rfl
          rw [adding] at now
          exact own (Pc.add.inj now).symm
        exact .inr (.inr ⟨u, by simpa [System.count, System.set, apart] using now⟩)
  · intro other counted
    by_cases own : other = part
    · subst own
      exact inv.adding t other adding
    · exact inv.counted other (by simpa [System.count, own] using counted)
  · by_cases own : u = t
    · subst own
      simp [System.count, System.set] at now
    · exact inv.adding u other (by simpa [System.count, System.set, own] using now)

theorem next_inv (part : Nat) (inv : FlushInv max_bitnum Factor st) : FlushInv max_bitnum Factor (st.next part) := by
  refine { inv with sound := ⟨inv.sound.bits, inv.sound.kept⟩, cleared := fun other at_clear => ?_, first := ?_ }
  · simp only [System.next] at at_clear
    split at at_clear <;> cases at_clear
  · intro at_first
    simp only [System.next] at at_first
    split at at_first <;> cases at_first

theorem check_inv {part : Nat} {due : Bool} (next : st.check part due = some st') (inv : FlushInv max_bitnum Factor st) :
    FlushInv max_bitnum Factor st' := by
  rw [System.check] at next
  split at next
  · obtain ⟨_, _, rfl⟩ := Option.map_eq_some_iff.mp next
    refine { inv with sound := ⟨inv.sound.bits, fun other changed => ?_⟩, cleared := ?_, first := ?_ }
    · exact (inv.sound.kept other changed).imp_left (List.mem_append_left _)
    · rintro other ⟨rfl⟩
      exact List.mem_append_right _ List.mem_cons_self
    · rintro ⟨⟩
  · rw [Option.some.injEq] at next
    exact next ▸ next_inv part inv

/-- The count of a part that is in the ring is set back. -/
theorem clear_inv {part : Nat} (at_clear : st.flusher = .clear part) (inv : FlushInv max_bitnum Factor st) :
    FlushInv max_bitnum Factor (st.clear part) := by
  have prepared := inv.cleared part at_clear
  refine @next_inv _ _ { st with v_updated_cnt := Function.update st.v_updated_cnt part 0 } part
    { inv with sound := ⟨inv.sound.bits, fun other changed => ?_⟩, counted := fun other counted => ?_ }
  · by_cases own : other = part
    · subst own
      exact .inl prepared
    · exact (inv.sound.kept other changed).imp_right fun kept => by simpa [own] using kept
  · by_cases own : other = part
    · subst own
      simp at counted
    · exact inv.counted other (by simpa [own] using counted)

theorem submit_inv (inv : FlushInv max_bitnum Factor st) : FlushInv max_bitnum Factor st.submit := by
  refine { inv with sound := ⟨inv.sound.bits, fun part changed => ?_⟩, cleared := ?_, first := fun _ => rfl }
  · simp only [System.submit, Bool.and_eq_true, Bool.not_eq_true', List.contains_eq_mem, decide_eq_false_iff_not] at changed
    exact (inv.sound.kept part changed.1).imp_left fun prepared => absurd prepared changed.2
  · rintro part ⟨⟩

theorem step_inv {agent : Agent} (next : step agent st = some st') (inv : FlushInv max_bitnum Factor st) :
    FlushInv max_bitnum Factor st' := by
  cases agent with
  | thread t =>
    cases pc : (st.threads t).pc with
    | idle =>
      cases calls : (st.threads t).calls with
      | nil => simp [step, pc, calls] at next
      | cons op calls' =>
        simp only [step, pc, calls] at next
        exact change_inv pc next inv
    | add part =>
      simp only [step, pc, Option.some.injEq] at next
      exact next ▸ count_inv pc inv
  | pass due =>
    cases at_part : st.flusher with
    | check part =>
      simp only [step, at_part] at next
      exact check_inv next inv
    | clear part =>
      simp only [step, at_part, Option.some.injEq] at next
      exact next ▸ clear_inv at_part inv
    | submit =>
      simp only [step, at_part, Option.some.injEq] at next
      exact next ▸ submit_inv inv

theorem start_inv (max_bitnum Factor object store_offset : Nat) (calls : Nat → List BitOp) :
    FlushInv max_bitnum Factor (System.start max_bitnum Factor object store_offset calls) where
  sound := ⟨fresh_holds max_bitnum Factor, by simp [System.start]⟩
  parts := rfl
  cleared := by simp [System.start]
  first _ := rfl
  counted := by simp [System.start]
  adding := by simp [System.start]

variable {ok : System → Agent → Prop} {calls : Nat → List BitOp}

theorem inv_of_reachable (reachable : Reachable step ok (System.start max_bitnum Factor object store_offset calls) st) :
    FlushInv max_bitnum Factor st :=
  reachable.invariant (P := FlushInv max_bitnum Factor) (start_inv max_bitnum Factor object store_offset calls) fun inv _ next =>
    step_inv next inv

/-- In every order of the steps of the threads and of the pass, whichever parts
    are due. -/
theorem none_forgotten (reachable : Reachable step ok (System.start max_bitnum Factor object store_offset calls) st) :
    Sound max_bitnum Factor st :=
  (inv_of_reachable reachable).sound

/-! ### A pass after the calls -/

/-- The next step is of the pass, before its submission, and every part is due. -/
def PassOnly (st : System) (agent : Agent) : Prop := agent = .pass true ∧ st.flusher ≠ .submit

/-- The parts with a count among `n` parts from `part` on. -/
def counted_from (st : System) (part n : Nat) : List Nat :=
  (List.range' part n).filter fun q => 0 < st.v_updated_cnt q

/-- The parts with a count. -/
def dirty (st : System) : List Nat := counted_from st 0 st.Part_cnt

/-- The first part that the pass has still to look at. -/
def System.position (st : System) : Nat :=
  match st.flusher with
  | .check part => part
  | .clear part => part + 1
  | .submit => st.Part_cnt

/-- The requests in the ring after the pass. -/
def System.needed (st : System) : List Flush :=
  st.ring ++ (counted_from st st.position (st.Part_cnt - st.position)).map st.flush

/-- What holds while only the pass moves. -/
structure PassInv (st : System) : Prop where
  kept : ∀ part, st.changed part = true → st.flush part ∈ st.ring ∨ 0 < st.v_updated_cnt part
  ahead : ∀ part, 0 < st.v_updated_cnt part → part < st.Part_cnt ∧ (st.position ≤ part ∨ st.flusher = .clear part)
  check : ∀ part, st.flusher = .check part → part < st.Part_cnt
  clear : ∀ part, st.flusher = .clear part → part < st.Part_cnt ∧ st.flush part ∈ st.ring
  room : st.ring.length ≤ RING_QD

theorem counted_from_succ (st : System) (part n : Nat) : counted_from st part (n + 1) =
    if 0 < st.v_updated_cnt part then part :: counted_from st (part + 1) n else counted_from st (part + 1) n := by
  rw [counted_from, List.range'_succ, List.filter_cons]
  simp [counted_from]

theorem next_position {part : Nat} (lt : part < st.Part_cnt) : (st.next part).position = part + 1 := by
  unfold System.next
  by_cases more : part + 1 < st.Part_cnt
  · simp [System.position, more]
  · simp only [System.position, if_neg more]
    show st.Part_cnt = part + 1
    omega

/-- The end of a round with no count at the part or before it. -/
theorem next_pass {part : Nat} (kept : ∀ q, st.changed q = true → st.flush q ∈ st.ring ∨ 0 < st.v_updated_cnt q)
    (ahead : ∀ q, 0 < st.v_updated_cnt q → part < q ∧ q < st.Part_cnt) (lt : part < st.Part_cnt)
    (room : st.ring.length ≤ RING_QD) : PassInv (st.next part) := by
  refine ⟨kept, fun q counted => ⟨(ahead q counted).2, .inl ?_⟩, fun q at_check => ?_, fun q at_clear => ?_, room⟩
  · rw [next_position lt]
    exact (ahead q counted).1
  · simp only [System.next] at at_check
    split at at_check
    · next more =>
      obtain rfl := Flusher.check.inj at_check
      exact more
    · cases at_check
  · simp only [System.next] at at_clear
    split at at_clear <;> cases at_clear

theorem next_needed {part : Nat} (lt : part < st.Part_cnt) :
    (st.next part).needed = st.ring ++ (counted_from st (part + 1) (st.Part_cnt - (part + 1))).map st.flush := by
  rw [System.needed, next_position lt]
  rfl

/-- The steps that are left before the submission. -/
def System.left (st : System) : Nat :=
  2 * (st.Part_cnt - st.position) + match st.flusher with
    | .clear _ => 1
    | _ => 0

theorem next_left {part : Nat} (lt : part < st.Part_cnt) : (st.next part).left = 2 * (st.Part_cnt - (part + 1)) := by
  rw [System.left, next_position lt]
  unfold System.next
  split <;> rfl

/-- The pass comes to a part with changes: it prepares its request, or there is no
    room for that. -/
theorem prepare_pass (inv : PassInv st) {part : Nat} (at_part : st.flusher = .check part)
    (counted : 0 < st.v_updated_cnt part) :
    (∃ st', step (.pass true) st = some st' ∧ PassInv st' ∧ st'.needed = st.needed ∧ st'.left < st.left) ∨
      step (.pass true) st = none ∧ RING_QD < st.needed.length := by
  have lt := inv.check part at_part
  have position : st.position = part := by rw [System.position, at_part]
  have split : st.Part_cnt - part = st.Part_cnt - (part + 1) + 1 := by omega
  have left : st.left = 2 * (st.Part_cnt - part) := by rw [System.left, position, at_part, Nat.add_zero]
  have needed : st.needed = st.ring ++ (counted_from st part (st.Part_cnt - part)).map st.flush := by
    rw [System.needed, position]
  rw [split, counted_from_succ, if_pos counted, List.map_cons] at needed
  by_cases full : st.ring.length = RING_QD
  · refine .inr ⟨?_, ?_⟩
    · simp [step, at_part, System.check, counted, io_uring_get_sqe, full]
    · rw [needed, List.length_append, List.length_cons]
      omega
  · refine .inl ⟨{ st with ring := st.ring ++ [st.flush part], flusher := .clear part }, ?_, ?_, ?_, ?_⟩
    · simp [step, at_part, System.check, counted, io_uring_get_sqe, full]
    · refine ⟨fun q changed => (inv.kept q changed).imp_left (List.mem_append_left _), fun q some_count => ?_, ?_, ?_, ?_⟩
      · obtain ⟨fits, place⟩ := inv.ahead q some_count
        have from_part : part ≤ q := by simpa [position, at_part] using place
        refine ⟨fits, ?_⟩
        rcases Nat.eq_or_lt_of_le from_part with rfl | later
        · exact .inr rfl
        · exact .inl later
      · rintro q ⟨⟩
      · rintro q ⟨rfl⟩
        exact ⟨lt, List.mem_append_right _ List.mem_cons_self⟩
      · have room := inv.room
        rw [List.length_append, List.length_singleton]
        omega
    · rw [needed]
      exact (List.append_cons ..).symm
    · rw [left]
      show 2 * (st.Part_cnt - (part + 1)) + 1 < _
      omega

/-- The pass comes to a part without changes. -/
theorem skip_pass (inv : PassInv st) {part : Nat} (at_part : st.flusher = .check part)
    (none : ¬ 0 < st.v_updated_cnt part) :
    ∃ st', step (.pass true) st = some st' ∧ PassInv st' ∧ st'.needed = st.needed ∧ st'.left < st.left := by
  have lt := inv.check part at_part
  have position : st.position = part := by rw [System.position, at_part]
  have split : st.Part_cnt - part = st.Part_cnt - (part + 1) + 1 := by omega
  refine ⟨st.next part, ?_, next_pass inv.kept (fun q some_count => ?_) lt inv.room, ?_, ?_⟩
  · simp [step, at_part, System.check, none]
  · obtain ⟨fits, place⟩ := inv.ahead q some_count
    have from_part : part ≤ q := by simpa [position, at_part] using place
    have other : part ≠ q := fun same => none (same ▸ some_count)
    omega
  · rw [next_needed lt, System.needed, position, split, counted_from_succ, if_neg none]
  · rw [next_left lt, System.left, position, at_part]
    omega

/-- The pass clears the count of a part that it has prepared. -/
theorem clear_pass (inv : PassInv st) {part : Nat} (at_part : st.flusher = .clear part) :
    ∃ st', step (.pass true) st = some st' ∧ PassInv st' ∧ st'.needed = st.needed ∧ st'.left < st.left := by
  obtain ⟨lt, prepared⟩ := inv.clear part at_part
  have position : st.position = part + 1 := by rw [System.position, at_part]
  have left : st.left = 2 * (st.Part_cnt - (part + 1)) + 1 := by rw [System.left, position, at_part]
  have rest : counted_from { st with v_updated_cnt := Function.update st.v_updated_cnt part 0 } (part + 1)
      (st.Part_cnt - (part + 1)) = counted_from st (part + 1) (st.Part_cnt - (part + 1)) := by
    refine List.filter_congr fun q member => ?_
    have other : q ≠ part := by
      have := (List.mem_range'_1.mp member).1
      omega
    simp [other]
  refine ⟨st.clear part, by simp [step, at_part], next_pass (fun q changed => ?_) (fun q some_count => ?_) lt inv.room,
    ?_, ?_⟩
  · by_cases own : q = part
    · subst own
      exact .inl prepared
    · exact (inv.kept q changed).imp_right fun some_count => by simpa [own] using some_count
  · have other : q ≠ part := by
      rintro rfl
      simp at some_count
    obtain ⟨fits, place⟩ := inv.ahead q (by simpa [other] using some_count)
    rw [position, at_part, Flusher.clear.injEq] at place
    exact ⟨by omega, fits⟩
  · have needed := @next_needed { st with v_updated_cnt := Function.update st.v_updated_cnt part 0 } part lt
    rw [System.clear, needed, System.needed, position]
    exact congrArg (fun parts => st.ring ++ parts.map st.flush) rest
  · have after := @next_left { st with v_updated_cnt := Function.update st.v_updated_cnt part 0 } part lt
    rw [System.clear, after, left]
    exact Nat.lt_succ_self _

/-- A step of the pass before its submission needs the same requests in all, and
    fails only without room for one. -/
theorem pass_step (inv : PassInv st) (before : st.flusher ≠ .submit) :
    (∃ st', step (.pass true) st = some st' ∧ PassInv st' ∧ st'.needed = st.needed ∧ st'.left < st.left) ∨
      step (.pass true) st = none ∧ RING_QD < st.needed.length := by
  cases at_part : st.flusher with
  | submit => exact absurd at_part before
  | check part =>
    by_cases counted : 0 < st.v_updated_cnt part
    · exact prepare_pass inv at_part counted
    · exact .inl (skip_pass inv at_part counted)
  | clear part => exact .inl (clear_pass inv at_part)

/-- The submission leaves no part with a count, and none with a change that its
    request does not come after. -/
theorem submit_pass (inv : PassInv st) (at_end : st.flusher = .submit) (part : Nat) :
    st.submit.changed part = false ∧ st.submit.v_updated_cnt part = 0 := by
  have not_counted : ¬ 0 < st.v_updated_cnt part := by
    intro counted
    obtain ⟨fits, place⟩ := inv.ahead part counted
    rw [System.position, at_end] at place
    rcases place with after | other
    · exact Nat.lt_irrefl _ (Nat.lt_of_le_of_lt after fits)
    · cases other
  refine ⟨?_, Nat.eq_zero_of_not_pos not_counted⟩
  cases changed : st.changed part with
  | false => simp [System.submit, changed]
  | true =>
    have prepared := (inv.kept part changed).resolve_right not_counted
    simp [System.submit, prepared]

/-- What the pass needs before its submission is in the ring. -/
theorem needed_submit (at_end : st.flusher = .submit) : st.needed = st.ring := by
  rw [System.needed, System.position, at_end, Nat.sub_self]
  exact List.append_nil _

/-- A pass with room for its requests comes to the submission. -/
theorem pass_reaches (inv : PassInv st) (room : st.needed.length ≤ RING_QD) :
    ∃ st', Reachable step PassOnly st st' ∧ st'.flusher = .submit := by
  induction left : st.left using Nat.strong_induction_on generalizing st with
  | _ n ih =>
    by_cases before : st.flusher = .submit
    · exact ⟨st, .start, before⟩
    · rcases pass_step inv before with ⟨st', next, inv', needed, less⟩ | ⟨_, full⟩
      · obtain ⟨last, rest, submits⟩ := ih st'.left (left ▸ less) inv' (needed ▸ room) rfl
        have first : Reachable step PassOnly st st' := .step .start ⟨rfl, before⟩ next
        exact ⟨last, first.trans rest, submits⟩
      · omega

/-- Up to the submission the pass needs the same requests. -/
theorem pass_needed (inv : PassInv st) (reachable : Reachable step PassOnly st st') :
    PassInv st' ∧ st'.needed = st.needed := by
  refine reachable.invariant (P := fun st' => PassInv st' ∧ st'.needed = st.needed) ⟨inv, rfl⟩ ?_
  rintro before after agent ⟨inv, needed⟩ ⟨rfl, not_end⟩ next
  rcases pass_step inv not_end with ⟨after', next', inv', same, _⟩ | ⟨none, _⟩
  · obtain rfl := Option.some.inj (next.symm.trans next')
    exact ⟨inv', same.trans needed⟩
  · rw [none] at next
    cases next

/-- While all calls are between their steps, a pass in which every part is due
    comes to its submission exactly when the ring has room for the requests of the
    parts with a count. These it submits, which leaves no part with a change that no
    submitted request of the part came after. -/
theorem pass_submits_all (reachable : Reachable step ok (System.start max_bitnum Factor object store_offset calls) st)
    (ended : ∀ t, (st.threads t).pc = .idle) (begins : st.flusher = .check 0) :
    ((∃ st', Reachable step PassOnly st st' ∧ st'.flusher = .submit) ↔ (dirty st).length ≤ RING_QD) ∧
    ∀ st', Reachable step PassOnly st st' → st'.flusher = .submit →
      st'.ring = (dirty st).map st.flush ∧ ∀ part, st'.submit.changed part = false ∧ st'.submit.v_updated_cnt part = 0 := by
  have inv := inv_of_reachable reachable
  have empty := inv.first begins
  have position : st.position = 0 := by rw [System.position, begins]
  have needed : st.needed = (dirty st).map st.flush := by
    rw [System.needed, position, empty, List.nil_append, Nat.sub_zero, dirty]
  have alone : PassInv st := by
    refine ⟨fun part changed => ?_, fun part counted => ?_, ?_, ?_, by rw [empty]; exact Nat.zero_le _⟩
    · rcases inv.sound.kept part changed with prepared | counted | ⟨t, adding⟩
      · exact .inl prepared
      · exact .inr counted
      · rw [ended t] at adding
        cases adding
    · exact ⟨inv.counted part counted, .inl (position ▸ Nat.zero_le part)⟩
    · intro part at_check
      rw [begins] at at_check
      obtain rfl := Flusher.check.inj at_check
      exact Nat.succ_pos _
    · intro part at_clear
      rw [begins] at at_clear
      cases at_clear
  have submitted : ∀ st', Reachable step PassOnly st st' → st'.flusher = .submit →
      PassInv st' ∧ st'.ring = (dirty st).map st.flush := by
    intro st' runs at_end
    obtain ⟨inv', same⟩ := pass_needed alone runs
    exact ⟨inv', by rw [← needed_submit at_end, same, needed]⟩
  refine ⟨⟨?_, fun room => pass_reaches alone (by rw [needed, List.length_map]; exact room)⟩, fun st' runs at_end => ?_⟩
  · rintro ⟨st', runs, at_end⟩
    obtain ⟨inv', requests⟩ := submitted st' runs at_end
    have room := inv'.room
    rwa [requests, List.length_map] at room
  · obtain ⟨inv', requests⟩ := submitted st' runs at_end
    exact ⟨requests, submit_pass inv' at_end⟩

/-! ### Two threads -/

/-- Two threads that change bits of one part, and of another. -/
def two_threads : Nat → List BitOp
  | 0 => [.set 3 true, .reset 70]
  | 1 => [.set 5 true]
  | _ => []

/-- The second thread changes its bit after the pass has prepared the request of the
    part, and counts it after the count is set back. -/
theorem none_forgotten_two : ∃ st, Reachable step (fun _ _ => True) (System.start 100 64 0 512 two_threads) st ∧
    (st.ring, st.v_updated_cnt 0, st.changed 0) = ([⟨0, 512, 512⟩], 1, true) ∧ Sound 100 64 st := by
  have result : (run step (fun _ _ => True)
      [.thread 0, .thread 0, .pass true, .thread 1, .pass true, .thread 1] (System.start 100 64 0 512 two_threads)).map
      (fun st => (st.ring, st.v_updated_cnt 0, st.changed 0)) = some ([⟨0, 512, 512⟩], 1, true) := by decide
  obtain ⟨st, reached, seen⟩ := Option.map_eq_some_iff.mp result
  have reachable := run_reachable reached
  exact ⟨st, reachable, seen, none_forgotten reachable⟩

theorem step_other {agent : Agent} (next : step agent st = some st') (rest : st.threads t = ⟨[], .idle⟩) :
    st'.threads t = ⟨[], .idle⟩ := by
  cases agent with
  | thread u =>
    by_cases own : t = u
    · subst own
      simp [step, rest] at next
    · cases pc : (st.threads u).pc with
      | idle =>
        cases calls : (st.threads u).calls with
        | nil => simp [step, pc, calls] at next
        | cons op calls' =>
          simp only [step, pc, calls, System.change_bit] at next
          split at next
          · obtain rfl := Option.some.inj next
            simpa [System.set, own] using rest
          · obtain ⟨_, _, rfl⟩ := Option.map_eq_some_iff.mp next
            simpa [System.set, own] using rest
      | add part =>
        simp only [step, pc, Option.some.injEq] at next
        subst next
        simpa [System.count, System.set, own] using rest
  | pass due =>
    cases at_part : st.flusher with
    | check part =>
      simp only [step, at_part, System.check] at next
      split at next
      · obtain ⟨_, _, rfl⟩ := Option.map_eq_some_iff.mp next
        exact rest
      · exact Option.some.inj next ▸ rest
    | clear part =>
      simp only [step, at_part, Option.some.injEq] at next
      exact next ▸ rest
    | submit =>
      simp only [step, at_part, Option.some.injEq] at next
      exact next ▸ rest

/-- The calls have ended before the pass, which has the requests of two parts. -/
theorem pass_submits_all_two : ∃ st, Reachable step (fun _ _ => True) (System.start 100 64 0 512 two_threads) st ∧
    dirty st = [0, 1] ∧ ((∃ st', Reachable step PassOnly st st' ∧ st'.flusher = .submit) ↔ (dirty st).length ≤ RING_QD) ∧
    ∀ st', Reachable step PassOnly st st' → st'.flusher = .submit →
      st'.ring = (dirty st).map st.flush ∧ ∀ part, st'.submit.changed part = false ∧ st'.submit.v_updated_cnt part = 0 := by
  have result : (run step (fun _ _ => True) [.thread 0, .thread 1, .thread 0, .thread 1, .thread 0, .thread 0]
      (System.start 100 64 0 512 two_threads)).map (fun st => (dirty st, st.flusher, st.threads 0, st.threads 1)) =
      some ([0, 1], .check 0, ⟨[], .idle⟩, ⟨[], .idle⟩) := by decide
  obtain ⟨st, reached, seen⟩ := Option.map_eq_some_iff.mp result
  simp only [Prod.mk.injEq] at seen
  obtain ⟨parts, begins, first, second⟩ := seen
  have reachable := run_reachable reached
  have ended : ∀ t, (st.threads t).pc = .idle := by
    intro t
    match t with
    | 0 => rw [first]
    | 1 => rw [second]
    | t + 2 =>
      have rest : st.threads (t + 2) = ⟨[], .idle⟩ := reachable.invariant
        (P := fun st => st.threads (t + 2) = ⟨[], .idle⟩) rfl fun before _ next => step_other next before
      rw [rest]
  exact ⟨st, reachable, parts, pass_submits_all reachable ended begins⟩

end Straid.DirtyParts
