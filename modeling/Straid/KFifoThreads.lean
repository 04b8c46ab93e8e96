import Straid.KFifo
import Straid.Interleavings

/-!
Threads that call `enqueue` and `dequeue` of one queue at the same time. Every
load of `head`, `tail` or a slot and every compare and exchange is one step of a
thread, the loads of `findIndex` and `segment_has_stuff` one by one; `step` is
the next step of a thread. `step_effect` sorts the steps by what they do to the
cells and to the item that the thread is enqueueing. The lists of items that
were enqueued and dequeued are there for the statements only.
-/
namespace Straid.KFifoThreads
open KFifo KFifo.KQueue

/-- A call, with the item to enqueue. The cell that holds the item is not one of
    the queue, and nobody changes it. -/
inductive Call
  | enqueue (item : Nat)
  | dequeue
  deriving DecidableEq

/-- Where a thread is, with its local variables. -/
inductive Pc
  | idle
  /-- In the loop of `enqueue`, up to the exchange of a slot. -/
  | enq_tail (item : Nat)
  | enq_head (item tail_old : Nat)
  | enq_find (item tail_old head_old random i : Nat)
  | enq_check (item tail_old head_old : Nat) (found : Option (Nat × Nat))
  | enq_slot (item tail_old item_index old : Nat)
  /-- In `committed`. -/
  | com_slot (item tail_old index : Nat)
  | com_head (item tail_old index : Nat)
  | com_tail (item tail_old index head_curr : Nat)
  | com_version (item index head_curr : Nat)
  | com_undo (item index : Nat)
  /-- In the loop of `enqueue`, without a free slot. -/
  | full_head (item tail_old head_old : Nat)
  | full_stuff (item tail_old head_old i : Nat)
  | full_check (item tail_old head_old : Nat)
  | full_move_head (item tail_old head_old : Nat)
  | full_move_tail (item tail_old : Nat)
  /-- In the loop of `dequeue`. -/
  | deq_head
  | deq_find (head_old random i : Nat)
  | deq_tail (head_old : Nat) (found : Option (Nat × Nat))
  | deq_check (head_old tail_old : Nat) (found : Option (Nat × Nat))
  | deq_move_tail (tail_old item_index old : Nat)
  | deq_slot (item_index old : Nat)
  | deq_empty (head_old tail_old : Nat)
  | deq_move_head (head_old : Nat)
  deriving DecidableEq

/-- A thread and its calls to come. -/
structure Thread where
  calls : List Call
  pc : Pc
  deriving DecidableEq

/-- The queue and the threads, the items whose `enqueue` returned true and those
    that a `dequeue` returned. -/
structure System where
  q : KQueue
  threads : Nat → Thread
  enqueued : List Nat
  dequeued : List Nat

/-- The first step of a call. -/
def Call.entry : Call → Pc
  | .enqueue item => .enq_tail item
  | .dequeue => .deq_head

namespace System

def set (st : System) (t : Nat) (th : Thread) : System := { st with threads := Function.update st.threads t th }

def goto (st : System) (t : Nat) (pc : Pc) : System := st.set t { st.threads t with pc := pc }

/-- A change of the queue. -/
def cells (st : System) (q : KQueue) : System := { st with q := q }

/-- The return of true from `enqueue`. -/
def answer (st : System) (t item : Nat) : System := { st.goto t .idle with enqueued := item :: st.enqueued }

/-- The return of true from `dequeue`. -/
def take (st : System) (t old : Nat) : System := { st.goto t .idle with dequeued := old :: st.dequeued }

/-- The system before the first step, when thread `t` is to make `calls t`. -/
def start (size k : Nat) (rands : Nat → Nat) (calls : Nat → List Call) : System where
  q := fresh size k rands
  threads := fun t => ⟨calls t, .idle⟩
  enqueued := []
  dequeued := []

end System

attribute [simp] System.set System.goto System.cells System.answer System.take

/-! ### The steps -/

/-- A load of `findIndex` from slot `start + (random + i) % k`: the slot if it is
    as asked, the next load, or the end of the search. -/
def find (q : KQueue) (start random i : Nat) (empty : Bool) (next : Nat → Pc) (found : Option (Nat × Nat) → Pc) : Pc :=
  let index := (start + (random + i) % q.k) % q.size
  let old := q.arr index
  if (empty && old == 0) || (!empty && old != 0) then found (some (index, old))
  else if i + 1 < q.k then next (i + 1)
  else found none

/-- The slot and `tail` are as they were: the exchange of the slot, or what
    follows when every slot was taken, up to the next access. -/
def enq_checked (q : KQueue) (item tail_old head_old : Nat) : Option (Nat × Nat) → Pc
  | some (item_index, old) => .enq_slot item tail_old item_index old
  | none =>
    if (tail_old + q.k) % q.size = head_old then .full_head item tail_old head_old
    else .full_move_tail item tail_old

/-- `head` is as it was. -/
def deq_checked (head_old tail_old : Nat) : Option (Nat × Nat) → Pc
  | some (item_index, old) =>
    if head_old = tail_old then .deq_move_tail tail_old item_index old else .deq_slot item_index old
  | none => if head_old = tail_old then .deq_empty head_old tail_old else .deq_move_head head_old

/-- The load of `tail` in `committed`, and the tests of the regions. -/
def com_tail (st : System) (t item tail_old index head_curr : Nat) : System :=
  let tail_curr := st.q.tail
  if in_valid_region tail_old tail_curr head_curr then st.answer t item
  else if not_in_valid_region tail_old tail_curr head_curr then st.goto t (.com_undo item index)
  else st.goto t (.com_version item index head_curr)

/-- The exchange of a slot by `enqueue`. -/
def enq_slot (st : System) (t item tail_old item_index old : Nat) : System :=
  match st.q.exchange item_index old item with
  | (true, q) => (st.goto t (.com_slot item tail_old item_index)).cells q
  | (false, _) => st.goto t (.enq_tail item)

/-- The exchange of a slot by `committed`. -/
def com_undo (st : System) (t item index : Nat) : System :=
  match st.q.exchange index item 0 with
  | (true, q) => (st.goto t (.enq_tail item)).cells q
  | (false, _) => st.answer t item

/-- The exchange of a slot by `dequeue`. -/
def deq_slot (st : System) (t item_index old : Nat) : System :=
  match st.q.exchange item_index old 0 with
  | (true, q) => (st.take t old).cells q
  | (false, _) => st.goto t .deq_head

/-- The next step of thread `t`. -/
def step (t : Nat) (st : System) : Option System :=
  let th := st.threads t
  let q := st.q
  match th.pc with
  | .idle =>
    match th.calls with
    | [] => none
    | call :: calls => some (st.set t ⟨calls, call.entry⟩)
  | .enq_tail item => some (st.goto t (.enq_head item q.tail))
  | .enq_head item tail_old =>
    some ((st.goto t (.enq_find item tail_old q.head (q.rands 0 % q.k) 0)).cells q.draw)
  | .enq_find item tail_old head_old random i =>
    some (st.goto t (find q tail_old random i true (.enq_find item tail_old head_old random)
      (.enq_check item tail_old head_old)))
  | .enq_check item tail_old head_old found =>
    some (st.goto t (if tail_old = q.tail then enq_checked q item tail_old head_old found else .enq_tail item))
  | .enq_slot item tail_old item_index old => some (enq_slot st t item tail_old item_index old)
  | .com_slot item tail_old index =>
    some (if q.arr tail_old ≠ item then st.answer t item else st.goto t (.com_head item tail_old index))
  | .com_head item tail_old index => some (st.goto t (.com_tail item tail_old index q.head))
  | .com_tail item tail_old index head_curr => some (com_tail st t item tail_old index head_curr)
  | .com_version item index head_curr =>
    some (if q.head = head_curr then st.answer t item else st.goto t (.com_undo item index))
  | .com_undo item index => some (com_undo st t item index)
  | .full_head item tail_old head_old =>
    some (st.goto t (if head_old = q.head then .full_stuff item tail_old head_old 0 else .full_move_tail item tail_old))
  | .full_stuff item tail_old head_old i =>
    some (st.goto t (if q.arr ((head_old + i) % q.size) ≠ 0 then .full_check item tail_old head_old
      else if i + 1 < q.k then .full_stuff item tail_old head_old (i + 1)
      else .full_move_head item tail_old head_old))
  | .full_check item tail_old head_old =>
    some (st.goto t (if head_old = q.head then .idle else .full_move_head item tail_old head_old))
  | .full_move_head item tail_old head_old =>
    some ((st.goto t (.full_move_tail item tail_old)).cells (q.move_head_forward head_old))
  | .full_move_tail item tail_old => some ((st.goto t (.enq_tail item)).cells (q.move_tail_forward tail_old))
  | .deq_head => some ((st.goto t (.deq_find q.head (q.rands 0 % q.k) 0)).cells q.draw)
  | .deq_find head_old random i =>
    some (st.goto t (find q head_old random i false (.deq_find head_old random) (.deq_tail head_old)))
  | .deq_tail head_old found => some (st.goto t (.deq_check head_old q.tail found))
  | .deq_check head_old tail_old found =>
    some (st.goto t (if head_old = q.head then deq_checked head_old tail_old found else .deq_head))
  | .deq_move_tail tail_old item_index old =>
    some ((st.goto t (.deq_slot item_index old)).cells (q.move_tail_forward tail_old))
  | .deq_slot item_index old => some (deq_slot st t item_index old)
  | .deq_empty head_old tail_old =>
    some (st.goto t (if tail_old = q.tail then .idle else .deq_move_head head_old))
  | .deq_move_head head_old => some ((st.goto t .deq_head).cells (q.move_head_forward head_old))

/-! ### What a step does -/

/-- The item that a thread is to enqueue, and that is in no slot. -/
def Pc.offers : Pc → Option Nat
  | .enq_tail item | .enq_head item _ | .enq_find item .. | .enq_check item .. | .enq_slot item .. => some item
  | .full_head item .. | .full_stuff item .. | .full_check item .. | .full_move_head item .. => some item
  | .full_move_tail item _ => some item
  | _ => none

/-- The item that a thread has put into a slot, before `enqueue` returns. -/
def Pc.placed : Pc → Option Nat
  | .com_slot item .. | .com_head item .. | .com_tail item .. | .com_version item .. | .com_undo item _ => some item
  | _ => none

/-- The slot that `enqueue` is to exchange, and the value that it expects. -/
def Pc.stores : Pc → Option (Nat × Nat)
  | .enq_slot _ _ item_index old => some (item_index, old)
  | _ => none

/-- The value of `head` that a thread expects when it is to move it. -/
def Pc.moves_head : Pc → Option Nat
  | .full_move_head _ _ head_old | .deq_move_head head_old => some head_old
  | _ => none

def Pc.moves_tail : Pc → Option Nat
  | .full_move_tail _ tail_old | .deq_move_tail tail_old .. => some tail_old
  | _ => none

/-- The slot that a thread has found was empty for `enqueue`, and not for
    `dequeue`. -/
def Looked : Pc → Prop
  | .enq_check _ _ _ (some (_, old)) | .enq_slot _ _ _ old => old = 0
  | .deq_tail _ (some (_, old)) | .deq_check _ _ (some (_, old)) | .deq_move_tail _ _ old | .deq_slot _ old => old ≠ 0
  | _ => True

/-- The queue after `head` has moved on. -/
def head_moved (q : KQueue) : KQueue := { q with head := (q.head + q.k) % q.size }

/-- The queue after `tail` has moved on. -/
def tail_moved (q : KQueue) : KQueue := { q with tail := (q.tail + q.k) % q.size }

/-- The queue after the exchange of a slot. -/
def set_slot (q : KQueue) (index x : Nat) : KQueue := { q with arr := Function.update q.arr index x }

/-- The thread goes on with its item where it was. -/
structure SameItem (pc pc' : Pc) : Prop where
  offers : pc'.offers = pc.offers
  placed : pc'.placed = pc.placed
  looked : Looked pc'

/-- What a step of thread `t` does. -/
inductive Effect (t : Nat) (st : System) : System → Prop
  | begins {call : Call} {calls : List Call} (idle : (st.threads t).pc = .idle)
      (next : (st.threads t).calls = call :: calls) : Effect t st (st.set t ⟨calls, call.entry⟩)
  /-- No cell changes. -/
  | looks {q' : KQueue} (pc' : Pc) (same : q' = st.q ∨ q' = st.q.draw) (item : SameItem (st.threads t).pc pc') :
      Effect t st ((st.goto t pc').cells q')
  | moves_head (pc' : Pc) (moves : (st.threads t).pc.moves_head = some st.q.head) (item : SameItem (st.threads t).pc pc') :
      Effect t st ((st.goto t pc').cells (head_moved st.q))
  | moves_tail (pc' : Pc) (moves : (st.threads t).pc.moves_tail = some st.q.tail) (item : SameItem (st.threads t).pc pc') :
      Effect t st ((st.goto t pc').cells (tail_moved st.q))
  /-- The item of an `enqueue` goes to a slot. -/
  | stores {item tail_old index : Nat} (pc : (st.threads t).pc = .enq_slot item tail_old index 0)
      (free : st.q.arr index = 0) : Effect t st ((st.goto t (.com_slot item tail_old index)).cells (set_slot st.q index item))
  /-- It is taken back. -/
  | undoes {item index : Nat} (pc : (st.threads t).pc = .com_undo item index) (there : st.q.arr index = item) :
      Effect t st ((st.goto t (.enq_tail item)).cells (set_slot st.q index 0))
  | answers {item : Nat} (placed : (st.threads t).pc.placed = some item) : Effect t st (st.answer t item)
  | refuses {item : Nat} (offers : (st.threads t).pc.offers = some item) : Effect t st (st.goto t .idle)
  /-- A `dequeue` takes the item of a slot. -/
  | takes {index old : Nat} (pc : (st.threads t).pc = .deq_slot index old) (there : st.q.arr index = old)
      (item : old ≠ 0) : Effect t st ((st.take t old).cells (set_slot st.q index 0))

variable {t : Nat} {st st' : System}

theorem find_cases (q : KQueue) (start random i : Nat) (empty : Bool) (next : Nat → Pc) (found : Option (Nat × Nat) → Pc) :
    (∃ index old, find q start random i empty next found = found (some (index, old)) ∧ (empty = true ↔ old = 0)) ∨
      find q start random i empty next found = next (i + 1) ∨ find q start random i empty next found = found none := by
  rw [find]
  split
  · next fits =>
    refine .inl ⟨_, _, rfl, ?_⟩
    cases empty <;> simpa using fits
  · split
    · exact .inr (.inl rfl)
    · exact .inr (.inr rfl)

theorem looks_effect {p : Pc} (pc' : Pc) (pc : (st.threads t).pc = p) (item : SameItem p pc') {q' : KQueue}
    (same : q' = st.q ∨ q' = st.q.draw) : Effect t st ((st.goto t pc').cells q') := by
  subst pc
  exact .looks pc' same item

theorem goto_effect {p : Pc} (pc' : Pc) (pc : (st.threads t).pc = p) (item : SameItem p pc') :
    Effect t st (st.goto t pc') :=
  looks_effect pc' pc item (.inl rfl)

theorem head_effect {p : Pc} {head_old : Nat} (pc' : Pc) (pc : (st.threads t).pc = p)
    (moves : p.moves_head = some head_old) (item : SameItem p pc') :
    Effect t st ((st.goto t pc').cells (st.q.move_head_forward head_old)) := by
  subst pc
  rw [move_head_forward]
  split
  · next same => exact same ▸ .moves_head pc' (same ▸ moves) item
  · exact .looks pc' (.inl rfl) item

theorem tail_effect {p : Pc} {tail_old : Nat} (pc' : Pc) (pc : (st.threads t).pc = p)
    (moves : p.moves_tail = some tail_old) (item : SameItem p pc') :
    Effect t st ((st.goto t pc').cells (st.q.move_tail_forward tail_old)) := by
  subst pc
  rw [move_tail_forward]
  split
  · next same => exact same ▸ .moves_tail pc' (same ▸ moves) item
  · exact .looks pc' (.inl rfl) item

/-- Every step has one of the effects. -/
theorem step_effect (next : step t st = some st') (looked : Looked (st.threads t).pc) : Effect t st st' := by
  cases pc : (st.threads t).pc with
  | idle =>
    simp only [step, pc] at next
    cases calls : (st.threads t).calls with
    | nil => simp [calls] at next
    | cons call calls' =>
      simp only [calls, Option.some.injEq] at next
      exact next ▸ .begins pc calls
  | enq_tail item =>
    simp only [step, pc, Option.some.injEq] at next
    subst next
    exact goto_effect _ pc ⟨rfl, rfl, trivial⟩
  | enq_head item tail_old =>
    simp only [step, pc, Option.some.injEq] at next
    subst next
    refine looks_effect (.enq_find item tail_old _ _ 0) pc ?_ (.inr rfl)
    exact ⟨rfl, rfl, trivial⟩
  | enq_find item tail_old head_old random i =>
    simp only [step, pc, Option.some.injEq] at next
    subst next
    refine goto_effect _ pc ?_
    rcases find_cases st.q tail_old random i true (.enq_find item tail_old head_old random)
      (.enq_check item tail_old head_old) with ⟨index, old, found, free⟩ | more | none
    · rw [found]
      exact ⟨rfl, rfl, free.mp rfl⟩
    · rw [more]
      exact ⟨rfl, rfl, trivial⟩
    · rw [none]
      exact ⟨rfl, rfl, trivial⟩
  | enq_check item tail_old head_old found =>
    simp only [step, pc, Option.some.injEq] at next
    subst next
    rw [pc] at looked
    refine goto_effect _ pc ?_
    split
    · cases found with
      | some slot => exact ⟨rfl, rfl, looked⟩
      | none =>
        rw [enq_checked]
        split <;> exact ⟨rfl, rfl, trivial⟩
    · exact ⟨rfl, rfl, trivial⟩
  | enq_slot item tail_old item_index old =>
    simp only [step, pc, Option.some.injEq] at next
    subst next
    rw [pc] at looked
    obtain rfl : old = 0 := looked
    rw [enq_slot, exchange]
    by_cases free : st.q.arr item_index = 0
    · rw [if_pos free]
      exact .stores pc free
    · rw [if_neg free]
      exact goto_effect _ pc ⟨rfl, rfl, trivial⟩
  | com_slot item tail_old index =>
    simp only [step, pc, Option.some.injEq] at next
    subst next
    split
    · exact .answers (by rw [pc]; rfl)
    · exact goto_effect _ pc ⟨rfl, rfl, trivial⟩
  | com_head item tail_old index =>
    simp only [step, pc, Option.some.injEq] at next
    subst next
    exact goto_effect _ pc ⟨rfl, rfl, trivial⟩
  | com_tail item tail_old index head_curr =>
    simp only [step, pc, Option.some.injEq] at next
    subst next
    rw [com_tail]
    split
    · exact .answers (by rw [pc]; rfl)
    · split <;> exact goto_effect _ pc ⟨rfl, rfl, trivial⟩
  | com_version item index head_curr =>
    simp only [step, pc, Option.some.injEq] at next
    subst next
    split
    · exact .answers (by rw [pc]; rfl)
    · exact goto_effect _ pc ⟨rfl, rfl, trivial⟩
  | com_undo item index =>
    simp only [step, pc, Option.some.injEq] at next
    subst next
    rw [com_undo, exchange]
    by_cases there : st.q.arr index = item
    · rw [if_pos there]
      exact .undoes pc there
    · rw [if_neg there]
      exact .answers (by rw [pc]; rfl)
  | full_head item tail_old head_old =>
    simp only [step, pc, Option.some.injEq] at next
    subst next
    refine goto_effect _ pc ?_
    split <;> exact ⟨rfl, rfl, trivial⟩
  | full_stuff item tail_old head_old i =>
    simp only [step, pc, Option.some.injEq] at next
    subst next
    refine goto_effect _ pc ?_
    split
    · exact ⟨rfl, rfl, trivial⟩
    · split <;> exact ⟨rfl, rfl, trivial⟩
  | full_check item tail_old head_old =>
    simp only [step, pc, Option.some.injEq] at next
    subst next
    split
    · exact .refuses (by rw [pc]; rfl)
    · exact goto_effect _ pc ⟨rfl, rfl, trivial⟩
  | full_move_head item tail_old head_old =>
    simp only [step, pc, Option.some.injEq] at next
    subst next
    exact head_effect _ pc rfl ⟨rfl, rfl, trivial⟩
  | full_move_tail item tail_old =>
    simp only [step, pc, Option.some.injEq] at next
    subst next
    exact tail_effect _ pc rfl ⟨rfl, rfl, trivial⟩
  | deq_head =>
    simp only [step, pc, Option.some.injEq] at next
    subst next
    refine looks_effect (.deq_find _ _ 0) pc ?_ (.inr rfl)
    exact ⟨rfl, rfl, trivial⟩
  | deq_find head_old random i =>
    simp only [step, pc, Option.some.injEq] at next
    subst next
    refine goto_effect _ pc ?_
    rcases find_cases st.q head_old random i false (.deq_find head_old random) (.deq_tail head_old) with
      ⟨index, old, found, taken⟩ | more | none
    · rw [found]
      exact ⟨rfl, rfl, fun zero => Bool.false_ne_true (taken.mpr zero)⟩
    · rw [more]
      exact ⟨rfl, rfl, trivial⟩
    · rw [none]
      exact ⟨rfl, rfl, trivial⟩
  | deq_tail head_old found =>
    simp only [step, pc, Option.some.injEq] at next
    subst next
    rw [pc] at looked
    refine goto_effect _ pc ⟨rfl, rfl, ?_⟩
    cases found with
    | some slot => exact looked
    | none => trivial
  | deq_check head_old tail_old found =>
    simp only [step, pc, Option.some.injEq] at next
    subst next
    rw [pc] at looked
    refine goto_effect _ pc ?_
    split
    · cases found with
      | some slot =>
        rw [deq_checked]
        split <;> exact ⟨rfl, rfl, looked⟩
      | none =>
        rw [deq_checked]
        split <;> exact ⟨rfl, rfl, trivial⟩
    · exact ⟨rfl, rfl, trivial⟩
  | deq_move_tail tail_old item_index old =>
    simp only [step, pc, Option.some.injEq] at next
    subst next
    rw [pc] at looked
    exact tail_effect _ pc rfl ⟨rfl, rfl, looked⟩
  | deq_slot item_index old =>
    simp only [step, pc, Option.some.injEq] at next
    subst next
    rw [pc] at looked
    rw [deq_slot, exchange]
    by_cases there : st.q.arr item_index = old
    · rw [if_pos there]
      exact .takes pc there looked
    · rw [if_neg there]
      exact goto_effect _ pc ⟨rfl, rfl, trivial⟩
  | deq_empty head_old tail_old =>
    simp only [step, pc, Option.some.injEq] at next
    subst next
    refine goto_effect _ pc ?_
    split <;> exact ⟨rfl, rfl, trivial⟩
  | deq_move_head head_old =>
    simp only [step, pc, Option.some.injEq] at next
    subst next
    exact head_effect _ pc rfl ⟨rfl, rfl, trivial⟩

/-! ### Exchanges that succeed -/

theorem step_moves_head (next : step t st = some st') (moves : (st.threads t).pc.moves_head = some st.q.head) :
    st'.q = head_moved st.q := by
  have moved : st.q.move_head_forward st.q.head = head_moved st.q := if_pos rfl
  cases pc : (st.threads t).pc with
  | full_move_head item tail_old head_old =>
    obtain rfl : head_old = st.q.head := by simpa [pc, Pc.moves_head] using moves
    simp only [step, pc, Option.some.injEq] at next
    rw [← next, ← moved]
    rfl
  | deq_move_head head_old =>
    obtain rfl : head_old = st.q.head := by simpa [pc, Pc.moves_head] using moves
    simp only [step, pc, Option.some.injEq] at next
    rw [← next, ← moved]
    rfl
  | _ => simp [pc, Pc.moves_head] at moves

theorem step_moves_tail (next : step t st = some st') (moves : (st.threads t).pc.moves_tail = some st.q.tail) :
    st'.q = tail_moved st.q := by
  have moved : st.q.move_tail_forward st.q.tail = tail_moved st.q := if_pos rfl
  cases pc : (st.threads t).pc with
  | full_move_tail item tail_old =>
    obtain rfl : tail_old = st.q.tail := by simpa [pc, Pc.moves_tail] using moves
    simp only [step, pc, Option.some.injEq] at next
    rw [← next, ← moved]
    rfl
  | deq_move_tail tail_old item_index old =>
    obtain rfl : tail_old = st.q.tail := by simpa [pc, Pc.moves_tail] using moves
    simp only [step, pc, Option.some.injEq] at next
    rw [← next, ← moved]
    rfl
  | _ => simp [pc, Pc.moves_tail] at moves

theorem step_stores (next : step t st = some st') {index : Nat}
    (stores : (st.threads t).pc.stores = some (index, st.q.arr index)) :
    ∃ item ∈ (st.threads t).pc.offers, st'.q = set_slot st.q index item := by
  cases pc : (st.threads t).pc with
  | enq_slot item tail_old item_index old =>
    obtain ⟨rfl, rfl⟩ : item_index = index ∧ old = st.q.arr index := by simpa [pc, Pc.stores] using stores
    have exchanged : st.q.exchange item_index (st.q.arr item_index) item = (true, set_slot st.q item_index item) := if_pos rfl
    simp only [step, pc, enq_slot, exchanged, Option.some.injEq] at next
    refine ⟨item, rfl, ?_⟩
    rw [← next]
    rfl
  | _ => simp [pc, Pc.stores] at stores

end Straid.KFifoThreads
