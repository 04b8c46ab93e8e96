import Straid.Metadata
import Straid.RandomOffsets
import Straid.Workloads

/-!
Where the tests of the benchmark write and read (`worker.h`, `bench.cc`): the
offsets of the threads that draw them or read in sequence. `Rand_offset_align` of
the worker divides by the number of multiples that it draws from, and the random
reads have the space of one thread. So the threads come to an offset in every
round, for any draws and with requests in the user space, exactly for the sizes of
which two have room in that space (`test_requests_iff`). Whether `raid_read` and
`raid_write_direct` then serve the requests is not their concern.
-/
namespace Straid.BenchRequests
open Alignments AlignedRanges Metadata RandomOffsets Workloads

/-- `Rand_offset_align` of the worker, with what `rand` returns. -/
def Rand_offset_align (baseoff max_offset align rand : Nat) : Option Nat :=
  (udiv max_offset align).bind fun n => draw_offset baseoff (u64_sub n 1) align rand

/-- The offset of round `i` of a loop, but for writes in sequence. -/
def round_offset (info : WorkerInfo) (i iosize rand : Nat) : Option Nat :=
  if info.is_rand then
    Rand_offset_align info.offset (if info.io_dir then DATASET_SIZE else DATASET_SIZE / NUM_THREADS) iosize rand
  else some (u64 (info.offset + u64 (i * iosize)))

/-- `thread_worker`, but for writes in sequence: its requests, with what `rand`
    returns for each. -/
def requests (info : WorkerInfo) (workload_buf : Nat) (rands : Nat → Nat) : Option (List UioInfo) :=
  (thread_worker info).zipIdx.mapM fun (access, n) =>
    (round_offset info (n % info.count.toNat) access.iosize (rands n)).map fun offset =>
      ⟨info.thread_id, info.io_dir, workload_buf + access.last_buf_start, offset, access.iosize⟩

/-- The tests but for the writes in sequence. -/
def drawn_tests (wild : Bool) (i G_IOSIZE : Nat) : List WorkerInfo :=
  [test_RandWrite wild i G_IOSIZE, test_SeqRead i G_IOSIZE, test_RandRead i G_IOSIZE]

/-! ### The rounds -/

theorem mapM_all {α β : Type*} {f : α → Option β} {P : β → Prop} (xs : List α) :
    (∃ ys, xs.mapM f = some ys ∧ ∀ y ∈ ys, P y) ↔ ∀ x ∈ xs, ∃ y, f x = some y ∧ P y := by
  induction xs with
  | nil => simp
  | cons x xs ih =>
    rw [List.forall_mem_cons, ← ih]
    constructor
    · rintro ⟨ys, made, all⟩
      rw [List.mapM_cons] at made
      obtain ⟨y, first, made⟩ := Option.bind_eq_some_iff.mp made
      obtain ⟨rest, later, made⟩ := Option.bind_eq_some_iff.mp made
      obtain rfl := Option.some.inj made
      obtain ⟨own, others⟩ := List.forall_mem_cons.mp all
      exact ⟨⟨y, first, own⟩, rest, later, others⟩
    · rintro ⟨⟨y, first, own⟩, rest, later, others⟩
      exact ⟨y :: rest, by simp [first, later], List.forall_mem_cons.mpr ⟨own, others⟩⟩

theorem iterations_length (n : Nat) {iosize : Nat} (pos : 0 < iosize) (start : Nat) :
    (iterations false n iosize start).1.length = n := by
  induction n generalizing iosize start with
  | zero => rfl
  | succ n ih =>
    have rounded := Nat.lt_of_lt_of_le pos (le_round_up iosize (a := BLK_SIZE) (by decide))
    rw [iterations_succ n pos, List.length_cons, ih rounded]

section
variable {g : Geometry} {io_dir is_degr_read is_rand : Bool} {iosize offset thread_id workload_buf : Nat} {rands : Nat → Nat}

/-- The accesses of a thread of a test: as many as its buffer has of the size
    given, all of the rounded size. -/
theorem worker_accesses (is_rand : Bool) (offset thread_id : Nat) (reads : io_dir = false → is_degr_read = false)
    (pos : 0 < iosize) :
    ∃ accesses, thread_worker (test_info io_dir is_rand is_degr_read offset thread_id iosize) = accesses ∧
      accesses.length = DATASET_SIZE / NUM_THREADS / iosize ∧
      ∀ access ∈ accesses, access.iosize = round_up iosize BLK_SIZE := by
  have worker : thread_worker (test_info io_dir is_rand is_degr_read offset thread_id iosize) =
      (iterations false (DATASET_SIZE / NUM_THREADS / iosize) iosize 0).1 := by
    have one : loops false (toInt (DATASET_SIZE / iosize / NUM_THREADS)) LOOP iosize =
        (iterations false (DATASET_SIZE / NUM_THREADS / iosize) iosize 0).1 := by
      simp only [LOOP, loops, test_count, Int.toNat_natCast, List.append_nil]
    rw [← one]
    cases io_dir with
    | false => simp only [thread_worker, test_info, reads rfl, Bool.false_eq_true, ↓reduceIte]
    | true => simp only [thread_worker, test_info, ↓reduceIte]
  refine ⟨_, worker, iterations_length _ pos 0, fun access member => ?_⟩
  obtain ⟨_, _, rfl⟩ := (mem_iterations _ pos 0 access).mp member
  rfl

/-- A thread of a test makes valid requests when each of its rounds has an offset
    with room for one. -/
theorem requests_iff (reads : io_dir = false → is_degr_read = false) (pos : 0 < iosize) (thread : thread_id < NUM_THREADS)
    (buffer : workload_buf ≠ 0) :
    (∃ made, requests (test_info io_dir is_rand is_degr_read offset thread_id iosize) workload_buf rands = some made ∧
        ∀ q ∈ made, q.Valid g) ↔
      ∀ n < DATASET_SIZE / NUM_THREADS / iosize, ∃ r,
        round_offset (test_info io_dir is_rand is_degr_read offset thread_id iosize) n (round_up iosize BLK_SIZE) (rands n) =
          some r ∧ r + round_up iosize BLK_SIZE ≤ g.USER_SPACE_LEN := by
  obtain ⟨accesses, worker, length, sizes⟩ := worker_accesses is_rand offset thread_id reads pos
  have rounded := Nat.lt_of_lt_of_le pos (le_round_up iosize (a := BLK_SIZE) (by decide))
  have count : (test_info io_dir is_rand is_degr_read offset thread_id iosize).count.toNat =
      DATASET_SIZE / NUM_THREADS / iosize := by
    rw [test_info, test_count, Int.toNat_natCast]
  rw [requests, worker, mapM_all, count]
  constructor
  · intro all n less
    have here : (accesses[n], n) ∈ accesses.zipIdx := List.mem_zipIdx_iff_getElem?.mpr (List.getElem?_eq_getElem (by omega))
    obtain ⟨q, made, valid⟩ := all _ here
    simp only [Nat.mod_eq_of_lt less, sizes _ (List.getElem_mem _), Option.map_eq_some_iff] at made
    obtain ⟨r, drawn, rfl⟩ := made
    exact ⟨r, drawn, valid.user⟩
  · rintro all ⟨access, n⟩ member
    have found := List.mem_zipIdx_iff_getElem?.mp member
    obtain ⟨inside, _⟩ := List.getElem?_eq_some_iff.mp found
    obtain ⟨r, drawn, room⟩ := all n (by simp only at inside; omega)
    have size := sizes access (List.mem_of_getElem? found)
    refine ⟨⟨thread_id, io_dir, workload_buf + access.last_buf_start, r, access.iosize⟩, ?_, thread, ?_, ?_, ?_⟩
    · simp only [Nat.mod_eq_of_lt (length ▸ inside), size, drawn, Option.map_some]
      rfl
    · exact Nat.ne_of_gt (Nat.lt_of_lt_of_le (Nat.pos_of_ne_zero buffer) (Nat.le_add_right ..))
    · exact size ▸ rounded
    · exact size ▸ room

/-! ### The draws -/

/-- With room for two requests the draw is of a multiple with room behind it. -/
theorem drawn_room (max_offset : Nat) {baseoff align rand : Nat} (pos : 0 < align) (several : 2 * align ≤ max_offset)
    (room : baseoff + max_offset ≤ g.USER_SPACE_LEN) :
    ∃ r, Rand_offset_align baseoff max_offset align rand = some r ∧ r + align ≤ g.USER_SPACE_LEN := by
  have user := g.user_signed
  have max : 2 ≤ max_offset / align := (Nat.le_div_iff_mul_le pos).mpr several
  have less := Nat.div_le_self max_offset align
  have multiples := Nat.div_mul_le_self max_offset align
  have draw : rand % (max_offset / align - 1) * align + align ≤ max_offset :=
    draw_le (by omega) (Nat.le_trans (Nat.mul_le_mul_right align (Nat.sub_le ..)) multiples) rand
  refine ⟨rand % (max_offset / align - 1) * align + baseoff, ?_, by omega⟩
  rw [Rand_offset_align, udiv, if_neg (by omega), Option.bind_some, u64_sub_small (by omega) (by omega),
    draw_offset_eq _ (by omega), u64_small (by omega)]

/-- With room for one there is no multiple to draw from. -/
theorem not_drawn {max_offset align : Nat} (pos : 0 < align) (one : align ≤ max_offset) (few : ¬ 2 * align ≤ max_offset)
    (baseoff rand : Nat) : Rand_offset_align baseoff max_offset align rand = none := by
  have single : max_offset / align = 1 := by
    refine Nat.le_antisymm (Nat.le_of_lt_succ ((Nat.div_lt_iff_lt_mul pos).mpr (by omega))) ?_
    exact (Nat.le_div_iff_mul_le pos).mpr (by omega)
  rw [Rand_offset_align, udiv, if_neg (by omega), Option.bind_some, single]
  rfl

/-- The space of a thread begins inside the first `DATASET_SIZE` bytes. -/
theorem base_inside {i : Nat} (thread : i < NUM_THREADS) (align : Nat) :
    o_align (i * (DATASET_SIZE / NUM_THREADS)) align + DATASET_SIZE / NUM_THREADS ≤ DATASET_SIZE := by
  have space : DATASET_SIZE / NUM_THREADS * NUM_THREADS = DATASET_SIZE := by decide
  have product := Nat.mul_le_mul_right (DATASET_SIZE / NUM_THREADS) (Nat.succ_le_of_lt thread)
  have aligned : o_align (i * (DATASET_SIZE / NUM_THREADS)) align ≤ i * (DATASET_SIZE / NUM_THREADS) := Nat.sub_le ..
  rw [Nat.succ_mul, Nat.mul_comm NUM_THREADS, space] at product
  omega

/-- Reads in sequence have room in the user space, also of sizes that are rounded
    up. -/
theorem row_room {kb n : Nat} (less : n < DATASET_SIZE / NUM_THREADS / (kb * KB)) :
    n * round_up (kb * KB) BLK_SIZE + round_up (kb * KB) BLK_SIZE ≤ DATASET_SIZE := by
  have size : round_up (kb * KB) BLK_SIZE ≤ 4 * (kb * KB) := round_up_le ⟨kb, by unfold KB BLK_SIZE; ring⟩ (by omega)
  have rows := Nat.mul_le_mul_right (kb * KB) (Nat.succ_le_of_lt less)
  have fits := Nat.div_mul_le_self (DATASET_SIZE / NUM_THREADS) (kb * KB)
  have space : 4 * (DATASET_SIZE / NUM_THREADS) ≤ DATASET_SIZE := by decide
  calc n * round_up (kb * KB) BLK_SIZE + round_up (kb * KB) BLK_SIZE
      = (n + 1) * round_up (kb * KB) BLK_SIZE := (Nat.succ_mul ..).symm
    _ ≤ (n + 1) * (4 * (kb * KB)) := Nat.mul_le_mul_left _ size
    _ = 4 * ((n + 1) * (kb * KB)) := by ring
    _ ≤ 4 * (DATASET_SIZE / NUM_THREADS) := Nat.mul_le_mul_left 4 (Nat.le_trans rows fits)
    _ ≤ DATASET_SIZE := space

/-- The threads of the tests that do not write in sequence make a request in every
    round, a valid one whatever is drawn, exactly when a random read has two
    requests in the space of its thread. Otherwise its first draw divides by zero. -/
theorem test_requests_iff {kb i : Nat} {wild : Bool} {info : WorkerInfo} (pos : 0 < kb)
    (few : kb * KB ≤ DATASET_SIZE / NUM_THREADS) (thread : i < NUM_THREADS) (test : info ∈ drawn_tests wild i (kb * KB))
    (buffer : workload_buf ≠ 0) (room : 2 * DATASET_SIZE ≤ g.USER_SPACE_LEN) :
    (∃ made, requests info workload_buf rands = some made ∧ ∀ q ∈ made, q.Valid g) ↔
      (info.io_dir = false ∧ info.is_rand = true → 2 * round_up (kb * KB) BLK_SIZE ≤ DATASET_SIZE / NUM_THREADS) := by
  have bytes : 0 < kb * KB := Nat.mul_pos pos (by decide)
  have rounded := Nat.lt_of_lt_of_le bytes (le_round_up (kb * KB) (a := BLK_SIZE) (by decide))
  have inside : round_up (kb * KB) BLK_SIZE ≤ DATASET_SIZE / NUM_THREADS := round_up_le (by decide) few
  have threads : 2 * (DATASET_SIZE / NUM_THREADS) ≤ DATASET_SIZE := by decide
  have base := base_inside thread (kb * KB)
  simp only [drawn_tests, List.mem_cons, List.not_mem_nil, or_false] at test
  rcases test with rfl | rfl | rfl
  · rw [test_RandWrite, requests_iff (by simp) bytes thread buffer]
    simp only [round_offset, test_info, Bool.true_eq_false, ↓reduceIte, false_and, false_implies, iff_true]
    exact fun n _ => drawn_room DATASET_SIZE rounded (by omega) (by omega)
  · rw [test_SeqRead, requests_iff (fun _ => rfl) bytes thread buffer]
    simp only [round_offset, test_info, Bool.false_eq_true, ↓reduceIte, Nat.zero_add, and_false, false_implies, iff_true]
    intro n less
    have user := g.user_signed
    have row := row_room less
    have small : u64 (n * round_up (kb * KB) BLK_SIZE) = n * round_up (kb * KB) BLK_SIZE := u64_small (by omega)
    exact ⟨_, rfl, by rw [small, small]; omega⟩
  · rw [test_RandRead, requests_iff (fun _ => rfl) bytes thread buffer]
    simp only [round_offset, test_info, Bool.false_eq_true, ↓reduceIte, and_self, true_implies]
    constructor
    · intro runs
      obtain ⟨r, drawn, _⟩ := runs 0 (Nat.div_pos few bytes)
      by_contra large
      rw [not_drawn rounded inside large] at drawn
      contradiction
    · intro several n _
      exact drawn_room (DATASET_SIZE / NUM_THREADS) rounded several (by omega)

end

/-- Random reads of 16 MB, and of one block more. -/
theorem test_requests_half : (∃ made, requests (test_RandRead 31 (16384 * KB)) 4096 (fun n => n) = some made ∧
      ∀ q ∈ made, q.Valid defaultGeometry) ∧
    ¬ ∃ made, requests (test_RandRead 31 (16388 * KB)) 4096 (fun n => n) = some made ∧
      ∀ q ∈ made, q.Valid defaultGeometry := by
  have half : test_RandRead 31 (16384 * KB) ∈ drawn_tests true 31 (16384 * KB) := by simp [drawn_tests]
  have more : test_RandRead 31 (16388 * KB) ∈ drawn_tests true 31 (16388 * KB) := by simp [drawn_tests]
  constructor
  · exact (test_requests_iff (by decide) (by decide) (by decide) half (by decide) (by decide)).mpr fun _ => by decide
  · rw [test_requests_iff (by decide) (by decide) (by decide) more (by decide) (by decide)]
    exact fun runs => absurd (runs ⟨rfl, rfl⟩) (by decide)

end Straid.BenchRequests
