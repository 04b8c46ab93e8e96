import Straid.XorSums
import Mathlib.Algebra.Order.Group.Multiset
import Mathlib.Data.Multiset.Range
import Mathlib.Data.Multiset.Filter
import Mathlib.Order.Interval.Finset.Nat

/-!
The relaxed queue of `kfifo.h`, used by one thread at a time. The array is
divided into segments of `k` slots; `0` marks a slot as empty. `Inv` says which
segments have no empty slot and which have only empty ones. Two rounds of each
loop are enough, and end at a slot of the tail or of the head segment
(`enqueue_ends`, `dequeue_ends`). Their consequences for the callers are
`enqueue_spec` and `dequeue_spec`: an item is added to or taken from the stored
items, and a call fails only for a queue that is nearly full or empty.
-/
namespace Straid.KFifo
open XorSums

/-- `KQueue`, with the values that `rand` will return. -/
structure KQueue where
  size : Nat
  k : Nat
  head : Nat
  tail : Nat
  arr : Nat → Nat
  rands : Nat → Nat

namespace KQueue
variable (q : KQueue)

/-- The constructor. -/
def fresh (size k : Nat) (rands : Nat → Nat) : KQueue := ⟨size, k, 0, 0, fun _ => 0, rands⟩

def is_queue_full (head_old tail_old : Nat) : Bool :=
  if (tail_old + q.k) % q.size = head_old ∧ head_old = q.head then true else false

/-- The slots that `findIndex` looks at, in order. -/
def probes (start random : Nat) : List Nat :=
  (List.range q.k).map (fun i => (start + (random + i) % q.k) % q.size)

/-- `findIndex`: the slot that is found and its item. -/
def findIndex (start : Nat) (empty : Bool) : Option (Nat × Nat) × KQueue :=
  let random := q.rands 0 % q.k
  let found := (q.probes start random).find? fun index =>
    (empty && q.arr index == 0) || (!empty && q.arr index != 0)
  (found.map fun index => (index, q.arr index), { q with rands := fun n => q.rands (n + 1) })

def segment_has_stuff (head_old : Nat) : Bool :=
  (List.range q.k).any fun i => q.arr ((head_old + i) % q.size) != 0

def in_valid_region (_tail_old tail_current head_current : Nat) : Bool :=
  if tail_current < head_current then true else false

def not_in_valid_region (_tail_old tail_current head_current : Nat) : Bool :=
  if tail_current < head_current then true else false

/-- A slot after a `compare_exchange_strong`, and whether it succeeded. -/
def exchange (index expected new : Nat) : Bool × KQueue :=
  if q.arr index = expected then (true, { q with arr := Function.update q.arr index new }) else (false, q)

def committed (tail_old item_new index : Nat) : Bool × KQueue :=
  if q.arr tail_old ≠ item_new then (true, q)
  else
    let head_curr := q.head
    let tail_curr := q.tail
    if in_valid_region tail_old tail_curr head_curr then (true, q)
    else if not_in_valid_region tail_old tail_curr head_curr then
      match q.exchange index item_new 0 with
      | (false, q) => (true, q)
      | (true, q) => (false, q)
    else if q.head = head_curr then (true, q)
    else
      match q.exchange index item_new 0 with
      | (false, q) => (true, q)
      | (true, q) => (false, q)

def move_tail_forward (tail_old : Nat) : KQueue :=
  if q.tail = tail_old then { q with tail := (tail_old + q.k) % q.size } else q

def move_head_forward (head_old : Nat) : KQueue :=
  if q.head = head_old then { q with head := (head_old + q.k) % q.size } else q

/-- One round of the loop of `enqueue`: the answer, if the round gives one. -/
def enqueue_round (new_item : Nat) : Option Bool × KQueue :=
  let tail_old := q.tail
  let head_old := q.head
  let (found_free_space, q) := q.findIndex tail_old true
  if tail_old = q.tail then
    match found_free_space with
    | some (item_index, old) =>
      match q.exchange item_index old new_item with
      | (true, q) =>
        match q.committed tail_old new_item item_index with
        | (true, q) => (some true, q)
        | (false, q) => (none, q)
      | (false, q) => (none, q)
    | none =>
      if q.is_queue_full head_old tail_old then
        if q.segment_has_stuff head_old && head_old == q.head then (some false, q)
        else (none, (q.move_head_forward head_old).move_tail_forward tail_old)
      else (none, q.move_tail_forward tail_old)
  else (none, q)

/-- `enqueue`, for at most `fuel` rounds. -/
def enqueue : Nat → KQueue → Nat → Option (Bool × KQueue)
  | 0, _, _ => none
  | fuel + 1, q, new_item =>
    match q.enqueue_round new_item with
    | (some answer, q) => some (answer, q)
    | (none, q) => enqueue fuel q new_item

/-- One round of the loop of `dequeue`: the answer and the item, if the round
    gives them. -/
def dequeue_round : Option (Option Nat) × KQueue :=
  let head_old := q.head
  let (found_index, q) := q.findIndex head_old false
  let tail_old := q.tail
  if head_old = q.head then
    match found_index with
    | some (item_index, old) =>
      let q := if head_old = tail_old then q.move_tail_forward tail_old else q
      match q.exchange item_index old 0 with
      | (true, q) => (some (some old), q)
      | (false, q) => (none, q)
    | none =>
      if head_old = tail_old ∧ tail_old = q.tail then (some none, q)
      else (none, q.move_head_forward head_old)
  else (none, q)

/-- `dequeue`, for at most `fuel` rounds: the item, or that there is none. -/
def dequeue : Nat → KQueue → Option (Option Nat × KQueue)
  | 0, _ => none
  | fuel + 1, q =>
    match q.dequeue_round with
    | (some answer, q) => some (answer, q)
    | (none, q) => dequeue fuel q

/-! ### The invariant -/

/-- The slots of the segments strictly between head and tail, going round. -/
def Between (i : Nat) : Prop :=
  (q.head + q.k ≤ i ∧ i < q.tail) ∨ (q.tail < q.head ∧ (q.head + q.k ≤ i ∨ i < q.tail))

/-- The slots of the segments that are not from head to tail, going round. -/
def Outside (i : Nat) : Prop :=
  (q.head ≤ q.tail ∧ (i < q.head ∨ q.tail + q.k ≤ i)) ∨ (q.tail + q.k ≤ i ∧ i < q.head)

/-- What holds between the calls. -/
structure Inv : Prop where
  k_pos : 0 < q.k
  size_dvd : q.k ∣ q.size
  size_two : 2 * q.k ≤ q.size
  head_dvd : q.k ∣ q.head
  head_lt : q.head < q.size
  tail_dvd : q.k ∣ q.tail
  tail_lt : q.tail < q.size
  full : ∀ i < q.size, q.Between i → q.arr i ≠ 0
  empty : ∀ i < q.size, q.Outside i → q.arr i = 0

/-- The stored items. -/
def stored : Multiset Nat := ((Multiset.range q.size).map q.arr).filter (· ≠ 0)

/-- The slots of `q` under a head that is at most one segment further on, past a
    segment without items, and any tail. -/
structure Moved (p : KQueue) : Prop where
  size : p.size = q.size
  k : p.k = q.k
  arr : p.arr = q.arr
  head : p.head = q.head ∨
    p.head = (q.head + q.k) % q.size ∧ ∀ i, q.head ≤ i → i < q.head + q.k → q.arr i = 0

theorem fresh_inv {size k : Nat} (pos : 0 < k) (dvd : k ∣ size) (two : 2 * k ≤ size) (rands : Nat → Nat) :
    (fresh size k rands).Inv where
  k_pos := pos
  size_dvd := dvd
  size_two := two
  head_dvd := dvd_zero k
  head_lt := by show 0 < size; omega
  tail_dvd := dvd_zero k
  tail_lt := by show 0 < size; omega
  full i _ between := by simp [Between, fresh] at between
  empty _ _ _ := rfl

theorem fresh_stored (size k : Nat) (rands : Nat → Nat) : (fresh size k rands).stored = 0 := by
  simp [stored, fresh, Multiset.mem_replicate]

variable {q}

theorem dvd_gap {k a b : Nat} (da : k ∣ a) (db : k ∣ b) (less : a < b) : a + k ≤ b := by
  obtain ⟨m, rfl⟩ := da
  obtain ⟨n, rfl⟩ := db
  have fewer : m < n := Nat.lt_of_mul_lt_mul_left less
  calc k * m + k = k * (m + 1) := (Nat.mul_succ k m).symm
    _ ≤ k * n := Nat.mul_le_mul_left k fewer

theorem next_segment {k size a : Nat} (da : k ∣ a) (ds : k ∣ size) (less : a < size) :
    (a + k = size ∧ (a + k) % size = 0) ∨ (a + k < size ∧ (a + k) % size = a + k) := by
  have gap := dvd_gap da ds less
  rcases Nat.eq_or_lt_of_le gap with last | more
  · exact .inl ⟨last, by rw [last, Nat.mod_self]⟩
  · exact .inr ⟨more, Nat.mod_eq_of_lt more⟩

theorem next_dvd {k size a : Nat} (da : k ∣ a) (ds : k ∣ size) : k ∣ (a + k) % size :=
  (Nat.dvd_mod_iff ds).mpr (Nat.dvd_add da (Nat.dvd_refl k))

theorem stored_update {i : Nat} (inside : i < q.size) (x : Nat) :
    ({ q with arr := Function.update q.arr i x } : KQueue).stored + Multiset.filter (· ≠ 0) {q.arr i} =
      q.stored + Multiset.filter (· ≠ 0) {x} := by
  have member : i ∈ Multiset.range q.size := Multiset.mem_range.mpr inside
  have others : ((Multiset.range q.size).erase i).map (Function.update q.arr i x) =
      ((Multiset.range q.size).erase i).map q.arr := by
    refine Multiset.map_congr rfl fun j there => ?_
    have apart := ((Multiset.nodup_range q.size).mem_erase_iff.mp there).1
    exact Function.update_of_ne apart _ _
  have split : Multiset.range q.size = i ::ₘ (Multiset.range q.size).erase i := (Multiset.cons_erase member).symm
  unfold stored
  simp only
  rw [split, Multiset.map_cons, Multiset.map_cons, others, Function.update_self, ← Multiset.singleton_add,
    ← Multiset.singleton_add, Multiset.filter_add, Multiset.filter_add]
  ac_rfl

theorem stored_insert {i x : Nat} (inside : i < q.size) (free : q.arr i = 0) (item : x ≠ 0) :
    ({ q with arr := Function.update q.arr i x } : KQueue).stored = x ::ₘ q.stored := by
  have change := stored_update inside x
  rw [free] at change
  simpa [Multiset.filter_singleton, item, Multiset.add_comm] using change

theorem stored_remove {i : Nat} (inside : i < q.size) (taken : q.arr i ≠ 0) :
    q.stored = q.arr i ::ₘ ({ q with arr := Function.update q.arr i 0 } : KQueue).stored := by
  have change := stored_update inside 0
  simpa [Multiset.filter_singleton, taken, Multiset.add_comm] using change.symm

/-! ### Searching a segment -/

theorem mem_probes {start random index : Nat} (inside : start + q.k ≤ q.size) :
    index ∈ q.probes start random ↔ start ≤ index ∧ index < start + q.k := by
  have round := rotation_perm q.k random
  have positions : ∀ j, j ∈ (List.range q.k).map (fun i => (random + i) % q.k) ↔ j < q.k := fun j => by
    rw [round.mem_iff, List.mem_range]
  have probes : q.probes start random =
      ((List.range q.k).map (fun i => (random + i) % q.k)).map (fun j => (start + j) % q.size) := by
    rw [List.map_map]
    rfl
  rw [probes, List.mem_map]
  constructor
  · rintro ⟨j, member, rfl⟩
    have low := (positions j).mp member
    rw [Nat.mod_eq_of_lt (by omega)]
    omega
  · rintro ⟨low, high⟩
    refine ⟨index - start, (positions _).mpr (by omega), ?_⟩
    rw [Nat.mod_eq_of_lt (by omega)]
    omega

/-- `findIndex` changes nothing but the values that `rand` will return. -/
@[simp] theorem findIndex_state (q : KQueue) (start : Nat) (empty : Bool) :
    (q.findIndex start empty).2 = { q with rands := fun n => q.rands (n + 1) } := rfl

/-- What `findIndex` finds is a slot of the segment, empty or not as asked. -/
theorem findIndex_some {start item_index old : Nat} {empty : Bool} (inside : start + q.k ≤ q.size)
    (found : (q.findIndex start empty).1 = some (item_index, old)) :
    start ≤ item_index ∧ item_index < start + q.k ∧ old = q.arr item_index ∧ (empty = true ↔ old = 0) := by
  simp only [findIndex, Option.map_eq_some_iff, Prod.mk.injEq] at found
  obtain ⟨index, found, rfl, rfl⟩ := found
  have slot := (mem_probes inside).mp (List.mem_of_find?_eq_some found)
  have fits := List.find?_some found
  refine ⟨slot.1, slot.2, rfl, ?_⟩
  cases empty <;> simpa using fits

/-- When `findIndex` finds nothing, every slot of the segment is the other way. -/
theorem findIndex_none {start : Nat} {empty : Bool} (inside : start + q.k ≤ q.size)
    (found : (q.findIndex start empty).1 = none) {index : Nat} (low : start ≤ index) (high : index < start + q.k) :
    empty = true ↔ q.arr index ≠ 0 := by
  simp only [findIndex, Option.map_eq_none_iff] at found
  have other := List.find?_eq_none.mp found index ((mem_probes inside).mpr ⟨low, high⟩)
  cases empty <;> simpa using other

theorem segment_has_stuff_iff {start : Nat} (inside : start + q.k ≤ q.size) : q.segment_has_stuff start = true ↔
    ∃ index, start ≤ index ∧ index < start + q.k ∧ q.arr index ≠ 0 := by
  simp only [segment_has_stuff, List.any_eq_true, List.mem_range, bne_iff_ne]
  constructor
  · rintro ⟨i, low, stuff⟩
    rw [Nat.mod_eq_of_lt (by omega)] at stuff
    exact ⟨start + i, by omega, by omega, stuff⟩
  · rintro ⟨index, low, high, stuff⟩
    refine ⟨index - start, by omega, ?_⟩
    rw [Nat.mod_eq_of_lt (by omega)]
    rwa [Nat.add_sub_cancel' low]

/-! ### The changes of the calls -/

theorem committed_eq (q : KQueue) (tail_old item_new index : Nat) :
    q.committed tail_old item_new index = (true, q) := by
  by_cases other : q.arr tail_old ≠ item_new
  · simp [committed, other]
  · by_cases valid : q.tail < q.head <;> simp [committed, other, in_valid_region, not_in_valid_region, valid]

theorem Inv.inside (inv : q.Inv) : q.head + q.k ≤ q.size ∧ q.tail + q.k ≤ q.size :=
  ⟨dvd_gap inv.head_dvd inv.size_dvd inv.head_lt, dvd_gap inv.tail_dvd inv.size_dvd inv.tail_lt⟩

theorem Inv.next_lt (inv : q.Inv) (a : Nat) : (a + q.k) % q.size < q.size :=
  Nat.mod_lt _ (by have := inv.head_lt; omega)

theorem Inv.rands (inv : q.Inv) (rands : Nat → Nat) : ({ q with rands := rands } : KQueue).Inv where
  __ := inv

/-- A slot that is not between head and tail may change, and one that is outside
    may be emptied. -/
theorem Inv.update (inv : q.Inv) {i x : Nat} (slot : ¬ q.Between i) (out : x = 0 ∨ ¬ q.Outside i) :
    ({ q with arr := Function.update q.arr i x } : KQueue).Inv where
  __ := inv
  full j inside between := by
    have apart : j ≠ i := fun same => slot (same ▸ between)
    show Function.update q.arr i x j ≠ 0
    rw [Function.update_of_ne apart]
    exact inv.full j inside between
  empty j inside outside := by
    show Function.update q.arr i x j = 0
    by_cases same : j = i
    · subst same
      rw [Function.update_self]
      exact out.resolve_right fun not => not outside
    · rw [Function.update_of_ne same]
      exact inv.empty j inside outside

/-- The tail moves on from a segment with no empty slot, or from the head
    segment, unless it would meet the head. -/
theorem Inv.tail_forward (inv : q.Inv)
    (filled : q.head = q.tail ∨ ∀ i, q.tail ≤ i → i < q.tail + q.k → q.arr i ≠ 0)
    (room : (q.tail + q.k) % q.size ≠ q.head) : ({ q with tail := (q.tail + q.k) % q.size } : KQueue).Inv := by
  have inside := inv.inside
  have behind := fun less => dvd_gap inv.tail_dvd inv.head_dvd less
  have next := next_segment inv.tail_dvd inv.size_dvd inv.tail_lt
  refine { inv with tail_dvd := next_dvd inv.tail_dvd inv.size_dvd, tail_lt := inv.next_lt _, full := ?_, empty := ?_ }
  · intro i lt between
    by_cases before : q.Between i
    · exact inv.full i lt before
    · simp only [Between] at before between lt
      rcases filled with same | filled
      · omega
      · exact filled i (by omega) (by omega)
  · intro i lt outside
    refine inv.empty i lt ?_
    simp only [Outside] at outside lt ⊢
    omega

/-- The head moves on from a segment with only empty slots, unless the tail is
    there. -/
theorem Inv.head_forward (inv : q.Inv) (apart : q.head ≠ q.tail)
    (empty : ∀ i, q.head ≤ i → i < q.head + q.k → q.arr i = 0) :
    ({ q with head := (q.head + q.k) % q.size } : KQueue).Inv := by
  have inside := inv.inside
  have ahead := fun less => dvd_gap inv.head_dvd inv.tail_dvd less
  have next := next_segment inv.head_dvd inv.size_dvd inv.head_lt
  refine { inv with head_dvd := next_dvd inv.head_dvd inv.size_dvd, head_lt := inv.next_lt _, full := ?_, empty := ?_ }
  · intro i lt between
    refine inv.full i lt ?_
    simp only [Between] at between lt ⊢
    omega
  · intro i lt outside
    by_cases before : q.Outside i
    · exact inv.empty i lt before
    · simp only [Outside] at before outside lt
      exact empty i (by omega) (by omega)

/-- Head and tail move on together when the tail would meet the head and the
    head segment has only empty slots. -/
theorem Inv.both_forward (inv : q.Inv) (meets : (q.tail + q.k) % q.size = q.head)
    (filled : ∀ i, q.tail ≤ i → i < q.tail + q.k → q.arr i ≠ 0) :
    ({ q with head := (q.head + q.k) % q.size, tail := (q.tail + q.k) % q.size } : KQueue).Inv := by
  have inside := inv.inside
  have two := inv.size_two
  have pos := inv.k_pos
  have next_tail := next_segment inv.tail_dvd inv.size_dvd inv.tail_lt
  have next_head := next_segment inv.head_dvd inv.size_dvd inv.head_lt
  refine { inv with
    head_dvd := next_dvd inv.head_dvd inv.size_dvd, head_lt := inv.next_lt _, tail_dvd := next_dvd inv.tail_dvd inv.size_dvd,
    tail_lt := inv.next_lt _, full := ?_, empty := ?_ }
  · intro i lt between
    by_cases before : q.Between i
    · exact inv.full i lt before
    · simp only [Between] at before between lt
      exact filled i (by omega) (by omega)
  · intro i lt outside
    refine inv.empty i lt ?_
    simp only [Outside] at outside lt ⊢
    omega

/-! ### Enqueue -/

/-- `q` with the values that `rand` will return after one call. -/
def draw (q : KQueue) : KQueue := { q with rands := fun n => q.rands (n + 1) }

theorem Inv.draw (inv : q.Inv) : q.draw.Inv := inv.rands _

theorem enqueue_round_cases (inv : q.Inv) (x : Nat) :
    (∃ i, q.tail ≤ i ∧ i < q.tail + q.k ∧ q.arr i = 0 ∧
      q.enqueue_round x = (some true, { q.draw with arr := Function.update q.arr i x })) ∨
    ((∀ i, q.tail ≤ i → i < q.tail + q.k → q.arr i ≠ 0) ∧ (q.tail + q.k) % q.size = q.head ∧
      (∃ i, q.head ≤ i ∧ i < q.head + q.k ∧ q.arr i ≠ 0) ∧ q.enqueue_round x = (some false, q.draw)) ∨
    ((∀ i, q.tail ≤ i → i < q.tail + q.k → q.arr i ≠ 0) ∧ (q.tail + q.k) % q.size = q.head ∧
      (∀ i, q.head ≤ i → i < q.head + q.k → q.arr i = 0) ∧
      q.enqueue_round x =
        (none, { q.draw with head := (q.head + q.k) % q.size, tail := (q.tail + q.k) % q.size })) ∨
    ((∀ i, q.tail ≤ i → i < q.tail + q.k → q.arr i ≠ 0) ∧ (q.tail + q.k) % q.size ≠ q.head ∧
      q.enqueue_round x = (none, { q.draw with tail := (q.tail + q.k) % q.size })) := by
  have inside := inv.inside
  cases found : (q.findIndex q.tail true).1 with
  | some slot =>
    obtain ⟨item_index, old⟩ := slot
    obtain ⟨low, high, value, free⟩ := findIndex_some inside.2 found
    have zero : q.arr item_index = 0 := by rw [← value]; exact free.mp rfl
    refine .inl ⟨item_index, low, high, zero, ?_⟩
    simp [enqueue_round, found, exchange, value, committed_eq, draw]
  | none =>
    have filled : ∀ i, q.tail ≤ i → i < q.tail + q.k → q.arr i ≠ 0 := fun i low high =>
      (findIndex_none inside.2 found low high).mp rfl
    refine .inr ?_
    by_cases meets : (q.tail + q.k) % q.size = q.head
    · by_cases stuff : q.segment_has_stuff q.head = true
      · refine .inl ⟨filled, meets, (segment_has_stuff_iff inside.1).mp stuff, ?_⟩
        have same : ({ q with rands := fun n => q.rands (n + 1) } : KQueue).segment_has_stuff q.head = true := stuff
        simp [enqueue_round, found, is_queue_full, meets, same, draw]
      · refine .inr (.inl ⟨filled, meets, fun i low high => ?_, ?_⟩)
        · by_contra item
          exact stuff ((segment_has_stuff_iff inside.1).mpr ⟨i, low, high, item⟩)
        · have same : ¬ ({ q with rands := fun n => q.rands (n + 1) } : KQueue).segment_has_stuff q.head = true := stuff
          simp [enqueue_round, found, is_queue_full, meets, same, draw, move_head_forward, move_tail_forward]
    · refine .inr (.inr ⟨filled, meets, ?_⟩)
      simp [enqueue_round, found, is_queue_full, meets, draw, move_tail_forward]

/-- A slot of the tail segment takes the item. -/
theorem Inv.enqueued (inv : q.Inv) {i : Nat} (low : q.tail ≤ i) (high : i < q.tail + q.k) (x : Nat) :
    ({ q.draw with arr := Function.update q.arr i x } : KQueue).Inv := by
  have inside := inv.inside
  have behind := fun less => dvd_gap inv.tail_dvd inv.head_dvd less
  have between : ¬ q.Between i := by
    unfold Between
    omega
  have outside : ¬ q.Outside i := by
    unfold Outside
    omega
  exact (inv.update (x := x) between (.inr outside)).rands _

theorem enqueued_stored (inv : q.Inv) {i : Nat} (high : i < q.tail + q.k) (free : q.arr i = 0) (x : Nat) :
    ({ q.draw with arr := Function.update q.arr i x } : KQueue).stored = if x = 0 then q.stored else x ::ₘ q.stored := by
  have lt : i < q.size := by
    have := inv.inside
    omega
  split
  · rename_i zero
    have same : Function.update q.arr i x = q.arr := by rw [zero, ← free, Function.update_eq_self]
    unfold stored draw
    rw [same]
  · exact stored_insert lt free ‹_›

/-- A queue whose segments other than the head segment have no empty slot, and
    the head segment an item, stores more than `size - k` items. -/
theorem nearly_full (inv : q.Inv) (meets : (q.tail + q.k) % q.size = q.head)
    (filled : ∀ i, q.tail ≤ i → i < q.tail + q.k → q.arr i ≠ 0)
    (stuff : ∃ i, q.head ≤ i ∧ i < q.head + q.k ∧ q.arr i ≠ 0) : q.size < q.stored.card + q.k := by
  have inside := inv.inside
  have next := next_segment inv.tail_dvd inv.size_dvd inv.tail_lt
  obtain ⟨i, low, high, item⟩ := stuff
  have count : q.stored.card + ((Multiset.range q.size).filter (fun j => q.arr j = 0)).card = q.size := by
    have split := congrArg Multiset.card (Multiset.filter_add_not (fun j => q.arr j ≠ 0) (Multiset.range q.size))
    rw [Multiset.card_add, Multiset.card_range] at split
    unfold stored
    rw [Multiset.filter_map, Multiset.card_map]
    simpa using split
  -- Every empty slot is one of the `k - 1` other slots of the head segment.
  have few : ((Multiset.range q.size).filter (fun j => q.arr j = 0)).card ≤ ((Finset.Ico q.head (q.head + q.k)).erase i).card := by
    refine Multiset.card_le_card ((Multiset.le_iff_subset ((Multiset.nodup_range _).filter _)).mpr fun j there => ?_)
    obtain ⟨lt, zero⟩ := Multiset.mem_filter.mp there
    rw [Multiset.mem_range] at lt
    have between : ¬ q.Between j := fun between => inv.full j lt between zero
    have tail : ¬ (q.tail ≤ j ∧ j < q.tail + q.k) := fun here => filled j here.1 here.2 zero
    refine Finset.mem_erase.mpr ⟨fun same : j = i => item (by rw [← same]; exact zero), Finset.mem_Ico.mpr ?_⟩
    unfold Between at between
    omega
  rw [Finset.card_erase_of_mem (Finset.mem_Ico.mpr ⟨low, high⟩), Nat.card_Ico] at few
  have := inv.k_pos
  omega

/-- A call whose first round gives no answer and whose second does. -/
theorem enqueue_again {p r : KQueue} {x : Nat} {answer : Bool} (round : q.enqueue_round x = (none, p))
    (again : p.enqueue_round x = (some answer, r)) (fuel : Nat) : enqueue (fuel + 2) q x = some (answer, r) := by
  rw [enqueue, round]
  simp only [enqueue, again]

theorem Moved.refl (q : KQueue) : q.Moved q := ⟨rfl, rfl, rfl, .inl rfl⟩

theorem Moved.stored_eq {p : KQueue} (moved : q.Moved p) : p.stored = q.stored := by
  rw [stored, stored, moved.size, moved.arr]

/-- Two rounds of `enqueue` are enough: the item goes to an empty slot of the tail
    segment, after head and tail have moved on, or the queue is nearly full. -/
theorem enqueue_ends (inv : q.Inv) (x fuel : Nat) :
    (∃ p i, q.Moved p ∧ p.Inv ∧ p.tail ≤ i ∧ i < p.tail + p.k ∧ p.arr i = 0 ∧
      enqueue (fuel + 2) q x = some (true, { p.draw with arr := Function.update p.arr i x })) ∨
    (q.size < q.stored.card + q.k ∧ enqueue (fuel + 2) q x = some (false, q.draw)) := by
  -- A round of the loop ends the call when the tail segment has an empty slot.
  have last : ∀ p : KQueue, q.Moved p → p.Inv → p.arr p.tail = 0 → q.enqueue_round x = (none, p) →
      ∃ p i, q.Moved p ∧ p.Inv ∧ p.tail ≤ i ∧ i < p.tail + p.k ∧ p.arr i = 0 ∧
        enqueue (fuel + 2) q x = some (true, { p.draw with arr := Function.update p.arr i x }) := by
    intro p moved pinv free first
    have pos := pinv.k_pos
    rcases enqueue_round_cases pinv x with ⟨i, low, high, zero, round⟩ | ⟨filled, _⟩ | ⟨filled, _⟩ | ⟨filled, _⟩
    · exact ⟨p, i, moved, pinv, low, high, zero, enqueue_again first round fuel⟩
    · exact absurd free (filled p.tail (by omega) (by omega))
    · exact absurd free (filled p.tail (by omega) (by omega))
    · exact absurd free (filled p.tail (by omega) (by omega))
  have pos := inv.k_pos
  rcases enqueue_round_cases inv x with ⟨i, low, high, zero, round⟩ | ⟨filled, meets, stuff, round⟩ |
    ⟨filled, meets, empty, round⟩ | ⟨filled, room, round⟩
  · exact .inl ⟨q, i, .refl q, inv, low, high, zero, by rw [enqueue, round]⟩
  · exact .inr ⟨nearly_full inv meets filled stuff, by rw [enqueue, round]⟩
  · have free : q.arr ((q.tail + q.k) % q.size) = 0 := empty _ (by omega) (by omega)
    have moved := Inv.both_forward (q := q.draw) inv.draw meets filled
    refine .inl (last _ ?_ moved free round)
    exact ⟨rfl, rfl, rfl, .inr ⟨rfl, empty⟩⟩
  · have next := next_segment inv.tail_dvd inv.size_dvd inv.tail_lt
    have behind := fun less => dvd_gap inv.tail_dvd inv.head_dvd less
    have less := inv.head_lt
    have free : q.arr ((q.tail + q.k) % q.size) = 0 := by
      refine inv.empty _ (inv.next_lt _) ?_
      unfold Outside
      omega
    have moved := Inv.tail_forward (q := q.draw) inv.draw (.inr filled) room
    refine .inl (last _ ?_ moved free round)
    exact ⟨rfl, rfl, rfl, .inl rfl⟩

/-- Two rounds of `enqueue` are enough. The item is stored, unless it is `0`,
    which no slot can hold; or the queue is nearly full and stays as it is. -/
theorem enqueue_spec (inv : q.Inv) (x fuel : Nat) : ∃ answer q', enqueue (fuel + 2) q x = some (answer, q') ∧
    q'.Inv ∧ q'.size = q.size ∧ q'.k = q.k ∧
    (answer = true → q'.stored = if x = 0 then q.stored else x ::ₘ q.stored) ∧
    (answer = false → q'.stored = q.stored ∧ q.size < q.stored.card + q.k) := by
  rcases enqueue_ends inv x fuel with ⟨p, i, moved, pinv, low, high, free, call⟩ | ⟨nearly, call⟩
  · refine ⟨true, _, call, pinv.enqueued low high x, moved.size, moved.k, fun _ => ?_, by simp⟩
    rw [enqueued_stored pinv high free x, moved.stored_eq]
  · exact ⟨false, q.draw, call, inv.draw, rfl, rfl, by simp, fun _ => ⟨rfl, nearly⟩⟩

/-! ### Dequeue -/

theorem dequeue_round_cases (inv : q.Inv) :
    (∃ i, q.head ≤ i ∧ i < q.head + q.k ∧ q.arr i ≠ 0 ∧
      q.dequeue_round = (some (some (q.arr i)),
        { q.draw with
          tail := if q.head = q.tail then (q.tail + q.k) % q.size else q.tail
          arr := Function.update q.arr i 0 })) ∨
    ((∀ i, q.head ≤ i → i < q.head + q.k → q.arr i = 0) ∧ q.head = q.tail ∧
      q.dequeue_round = (some none, q.draw)) ∨
    ((∀ i, q.head ≤ i → i < q.head + q.k → q.arr i = 0) ∧ q.head ≠ q.tail ∧
      q.dequeue_round = (none, { q.draw with head := (q.head + q.k) % q.size })) := by
  have inside := inv.inside
  cases found : (q.findIndex q.head false).1 with
  | some slot =>
    obtain ⟨item_index, old⟩ := slot
    obtain ⟨low, high, value, taken⟩ := findIndex_some inside.1 found
    have item : q.arr item_index ≠ 0 := fun zero => by
      rw [← value] at zero
      exact absurd (taken.mpr zero) (by decide)
    refine .inl ⟨item_index, low, high, item, ?_⟩
    have finds : (q.findIndex q.head false) = (some (item_index, old), q.draw) := Prod.ext found rfl
    by_cases same : q.head = q.tail
    · simp only [dequeue_round, finds]
      simp [exchange, value, draw, move_tail_forward, same]
    · simp only [dequeue_round, finds]
      simp [exchange, value, draw, same]
  | none =>
    have empty : ∀ i, q.head ≤ i → i < q.head + q.k → q.arr i = 0 := fun i low high => by
      by_contra item
      exact absurd ((findIndex_none inside.1 found low high).mpr item) (by decide)
    have finds : (q.findIndex q.head false) = (none, q.draw) := Prod.ext found rfl
    refine .inr ?_
    by_cases same : q.head = q.tail
    · refine .inl ⟨empty, same, ?_⟩
      simp only [dequeue_round, finds]
      simp [draw, same]
    · refine .inr ⟨empty, same, ?_⟩
      simp only [dequeue_round, finds]
      simp [draw, move_head_forward, same]

/-- A slot of the head segment gives its item. -/
theorem Inv.dequeued (inv : q.Inv) {i : Nat} (low : q.head ≤ i) (high : i < q.head + q.k) :
    ({ q.draw with
      tail := if q.head = q.tail then (q.tail + q.k) % q.size else q.tail
      arr := Function.update q.arr i 0 } : KQueue).Inv := by
  have inside := inv.inside
  have two := inv.size_two
  have pos := inv.k_pos
  have ahead := fun less => dvd_gap inv.head_dvd inv.tail_dvd less
  have between : ¬ q.Between i := by
    unfold Between
    omega
  have emptied := inv.update (x := 0) between (.inl rfl)
  by_cases same : q.head = q.tail
  · have next := next_segment inv.tail_dvd inv.size_dvd inv.tail_lt
    have room : (q.tail + q.k) % q.size ≠ q.head := by omega
    have moved := (emptied.tail_forward (.inl same) room).draw
    rw [if_pos same]
    exact moved
  · rw [if_neg same]
    exact emptied.draw

/-- A queue with only empty slots in its one segment stores nothing. -/
theorem stored_empty (inv : q.Inv) (same : q.head = q.tail)
    (empty : ∀ i, q.head ≤ i → i < q.head + q.k → q.arr i = 0) : q.stored = 0 := by
  refine Multiset.filter_eq_nil.mpr fun x member item => item ?_
  obtain ⟨i, lt, rfl⟩ := Multiset.mem_map.mp member
  rw [Multiset.mem_range] at lt
  by_cases outside : q.Outside i
  · exact inv.empty i lt outside
  · unfold Outside at outside
    exact empty i (by omega) (by omega)

theorem dequeue_again {p r : KQueue} {answer : Option Nat} (round : q.dequeue_round = (none, p))
    (again : p.dequeue_round = (some answer, r)) (fuel : Nat) : dequeue (fuel + 2) q = some (answer, r) := by
  rw [dequeue, round]
  simp only [dequeue, again]

/-- Two rounds of `dequeue` are enough: the item of a slot of the head segment is
    taken, after the head has moved on, or nothing is stored. -/
theorem dequeue_ends (inv : q.Inv) (fuel : Nat) :
    (∃ p i, q.Moved p ∧ p.Inv ∧ p.head ≤ i ∧ i < p.head + p.k ∧ p.arr i ≠ 0 ∧
      dequeue (fuel + 2) q = some (some (p.arr i),
        { p.draw with
          tail := if p.head = p.tail then (p.tail + p.k) % p.size else p.tail
          arr := Function.update p.arr i 0 })) ∨
    (q.stored = 0 ∧ ∃ p, q.Moved p ∧ p.Inv ∧ dequeue (fuel + 2) q = some (none, p.draw)) := by
  have pos := inv.k_pos
  rcases dequeue_round_cases inv with ⟨i, low, high, taken, round⟩ | ⟨empty, same, round⟩ | ⟨empty, apart, round⟩
  · exact .inl ⟨q, i, .refl q, inv, low, high, taken, by rw [dequeue, round]⟩
  · exact .inr ⟨stored_empty inv same empty, q, .refl q, inv, by rw [dequeue, round]⟩
  · -- The next segment is between head and tail, or it is the tail's.
    have next := next_segment inv.head_dvd inv.size_dvd inv.head_lt
    have ahead := fun less => dvd_gap inv.head_dvd inv.tail_dvd less
    have tail_lt := inv.tail_lt
    have item : (q.head + q.k) % q.size ≠ q.tail → q.arr ((q.head + q.k) % q.size) ≠ 0 := fun more => by
      refine inv.full _ (inv.next_lt _) ?_
      unfold Between
      omega
    have moved : q.Moved { q.draw with head := (q.head + q.k) % q.size } := ⟨rfl, rfl, rfl, .inr ⟨rfl, empty⟩⟩
    have pinv := Inv.head_forward (q := q.draw) inv.draw apart empty
    rcases dequeue_round_cases pinv with ⟨i, low, high, taken, again⟩ | ⟨none_left, same, again⟩ | ⟨none_left, more, _⟩
    · exact .inl ⟨_, i, moved, pinv, low, high, taken, dequeue_again round again fuel⟩
    · refine .inr ⟨?_, _, moved, pinv, dequeue_again round again fuel⟩
      rw [← moved.stored_eq]
      exact stored_empty pinv same none_left
    · exact absurd (none_left _ (Nat.le_refl _) (Nat.lt_add_of_pos_right pos)) (item more)

/-- Two rounds of `dequeue` are enough. A stored item is taken, unless there is
    none. -/
theorem dequeue_spec (inv : q.Inv) (fuel : Nat) : ∃ answer q', dequeue (fuel + 2) q = some (answer, q') ∧
    q'.Inv ∧ q'.size = q.size ∧ q'.k = q.k ∧
    (∀ x, answer = some x → x ≠ 0 ∧ q.stored = x ::ₘ q'.stored) ∧
    (answer = none → q.stored = 0 ∧ q'.stored = 0) := by
  rcases dequeue_ends inv fuel with ⟨p, i, moved, pinv, low, high, taken, call⟩ | ⟨none_stored, p, moved, pinv, call⟩
  · refine ⟨_, _, call, pinv.dequeued low high, moved.size, moved.k, ?_, by simp⟩
    intro x answer
    obtain rfl := Option.some.inj answer
    refine ⟨taken, ?_⟩
    have lt : i < p.size := by
      have := pinv.inside
      omega
    rw [← moved.stored_eq]
    exact stored_remove lt taken
  · refine ⟨none, p.draw, call, pinv.draw, moved.size, moved.k, by simp, fun _ => ⟨none_stored, ?_⟩⟩
    have same : p.draw.stored = p.stored := rfl
    rw [same, moved.stored_eq, none_stored]

end KQueue
end Straid.KFifo
