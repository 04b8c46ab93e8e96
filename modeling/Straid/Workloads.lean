import Straid.AlignedRanges
import Mathlib.Data.List.Basic

/-!
How the benchmark (`bench.cc`, `worker.h`) walks through the buffer of a thread.
The number of requests comes from the size as it is given, and the requests are
of that size rounded up to blocks. They stay in the buffer exactly when it holds
as many of the rounded size as of the given one (`inside_buffer_iff`).
-/
namespace Straid.Workloads
open Alignments AlignedRanges

/-- `LOOP`, the number of loops of a test. -/
def LOOP : Nat := 1

/-- `Worker_Info`, but for the pointers. -/
structure WorkerInfo where
  thread_id : Nat
  io_dir : Bool
  is_rand : Bool
  is_degr_read : Bool
  io_size : Nat
  count : Int
  loop : Nat
  offset : Nat
  workload_len : Nat
  deriving DecidableEq, Repr

/-- The part of the buffer that a request is for. Where the request is on the
    user space makes no difference to it. -/
structure Access where
  last_buf_start : Nat
  iosize : Nat
  deriving DecidableEq, Repr

/-- The rounding of the size in the loops. -/
def round_iosize (iosize : Nat) : Nat :=
  if iosize < BLK_SIZE ∨ iosize % BLK_SIZE ≠ 0 then iosize + (BLK_SIZE - iosize % BLK_SIZE) else iosize

/-- The iterations of a loop, and the size after them. A degraded read makes no
    requests, and does not round. -/
def iterations (is_degr_read : Bool) : Nat → Nat → Nat → List Access × Nat
  | 0, iosize, _ => ([], iosize)
  | n + 1, iosize, last_buf_start =>
    if is_degr_read then iterations is_degr_read n iosize (last_buf_start + iosize)
    else
      let iosize := round_iosize iosize
      let (accesses, last) := iterations is_degr_read n iosize (last_buf_start + iosize)
      (⟨last_buf_start, iosize⟩ :: accesses, last)

/-- All loops, with the size that each leaves to the next one. -/
def loops (is_degr_read : Bool) (count : Int) : Nat → Nat → List Access
  | 0, _ => []
  | n + 1, iosize =>
    let (accesses, iosize) := iterations is_degr_read count.toNat iosize 0
    accesses ++ loops is_degr_read count n iosize

/-- `thread_worker`: the requests that it makes. A write is never a degraded
    read. -/
def thread_worker (info : WorkerInfo) : List Access :=
  if info.io_dir then loops false info.count info.loop info.io_size
  else loops info.is_degr_read info.count info.loop info.io_size

/-- What a test gives to a thread. -/
def test_info (io_dir is_rand is_degr_read : Bool) (offset thread_id iosize : Nat) : WorkerInfo where
  thread_id := thread_id
  io_dir := io_dir
  is_rand := is_rand
  is_degr_read := is_degr_read
  io_size := iosize
  count := toInt (DATASET_SIZE / iosize / NUM_THREADS)
  loop := LOOP
  offset := offset
  workload_len := DATASET_SIZE / NUM_THREADS

/-- The tests, for a size `G_IOSIZE`. Those of writes leave `is_degr_read` as it
    is in the memory that they get. -/
def test_SeqWrite (wild : Bool) (i G_IOSIZE : Nat) : WorkerInfo :=
  test_info true false wild (o_align (i * (DATASET_SIZE / NUM_THREADS)) G_IOSIZE) i G_IOSIZE

def test_RandWrite (wild : Bool) (i G_IOSIZE : Nat) : WorkerInfo :=
  test_info true true wild (o_align (i * (DATASET_SIZE / NUM_THREADS)) G_IOSIZE) i G_IOSIZE

def test_SeqRead (i G_IOSIZE : Nat) : WorkerInfo := test_info false false false 0 i G_IOSIZE

def test_RandRead (i G_IOSIZE : Nat) : WorkerInfo :=
  test_info false true false (o_align (i * (DATASET_SIZE / NUM_THREADS)) G_IOSIZE) i G_IOSIZE

/-- What the tests give to thread `i`. -/
def tests (wild : Bool) (i G_IOSIZE : Nat) : List WorkerInfo :=
  [test_SeqWrite wild i G_IOSIZE, test_RandWrite wild i G_IOSIZE, test_SeqRead i G_IOSIZE, test_RandRead i G_IOSIZE]

/-- No request goes past the end of the buffer. -/
def InsideBuffer (info : WorkerInfo) : Prop :=
  ∀ access ∈ thread_worker info, access.last_buf_start + access.iosize ≤ info.workload_len

instance (info : WorkerInfo) : Decidable (InsideBuffer info) := inferInstanceAs (Decidable (∀ _ ∈ _, _))

/-! ### Loops -/

theorem round_iosize_eq {iosize : Nat} (pos : 0 < iosize) : round_iosize iosize = round_up iosize BLK_SIZE := by
  unfold round_iosize round_up BLK_SIZE
  split <;> split <;> omega

theorem iterations_succ (n : Nat) {iosize : Nat} (pos : 0 < iosize) (start : Nat) : iterations false (n + 1) iosize start =
    (⟨start, round_up iosize BLK_SIZE⟩ ::
        (iterations false n (round_up iosize BLK_SIZE) (start + round_up iosize BLK_SIZE)).1,
      (iterations false n (round_up iosize BLK_SIZE) (start + round_up iosize BLK_SIZE)).2) := by
  rw [iterations, if_neg Bool.false_ne_true, round_iosize_eq pos]

/-- The requests of a loop are one behind the other, and all of the rounded
    size. -/
theorem mem_iterations (n : Nat) {iosize : Nat} (pos : 0 < iosize) (start : Nat) (access : Access) :
    access ∈ (iterations false n iosize start).1 ↔
      ∃ i < n, access = ⟨start + i * round_up iosize BLK_SIZE, round_up iosize BLK_SIZE⟩ := by
  induction n generalizing iosize start with
  | zero => simp [iterations]
  | succ n ih =>
    have rounded := Nat.lt_of_lt_of_le pos (le_round_up iosize (a := BLK_SIZE) (by decide))
    rw [iterations_succ n pos, List.mem_cons, ih rounded, round_up_again, Nat.exists_lt_succ_left, Nat.zero_mul,
      Nat.add_zero]
    simp only [Nat.succ_mul, Nat.add_assoc, Nat.add_comm (round_up iosize BLK_SIZE)]

/-- The size that a loop leaves is rounded to the same. -/
theorem iterations_size (n : Nat) {iosize : Nat} (pos : 0 < iosize) (start : Nat) :
    0 < (iterations false n iosize start).2 ∧
      round_up (iterations false n iosize start).2 BLK_SIZE = round_up iosize BLK_SIZE := by
  induction n generalizing iosize start with
  | zero => exact ⟨pos, rfl⟩
  | succ n ih =>
    have rounded := Nat.lt_of_lt_of_le pos (le_round_up iosize (a := BLK_SIZE) (by decide))
    obtain ⟨positive, same⟩ := ih rounded (start + round_up iosize BLK_SIZE)
    rw [iterations_succ n pos]
    exact ⟨positive, same.trans (round_up_again ..)⟩

theorem mem_first_loop (n : Nat) {iosize : Nat} (pos : 0 < iosize) (access : Access) :
    access ∈ (iterations false n iosize 0).1 ↔
      ∃ i < n, access = ⟨i * round_up iosize BLK_SIZE, round_up iosize BLK_SIZE⟩ := by
  simpa only [Nat.zero_add] using mem_iterations n pos 0 access

/-- Every loop makes the requests of the first one. -/
theorem mem_loops (count : Int) (n : Nat) {iosize : Nat} (pos : 0 < iosize) (access : Access) :
    access ∈ loops false count (n + 1) iosize ↔
      ∃ i < count.toNat, access = ⟨i * round_up iosize BLK_SIZE, round_up iosize BLK_SIZE⟩ := by
  have once := mem_first_loop count.toNat pos access
  induction n generalizing iosize with
  | zero => simp only [loops, List.append_nil, once]
  | succ n ih =>
    obtain ⟨positive, same⟩ := iterations_size count.toNat pos 0
    have later := ih positive (mem_first_loop count.toNat positive access)
    rw [same] at later
    rw [loops, List.mem_append]
    exact (or_congr once later).trans (or_self_iff ..)

/-! ### The buffer -/

/-- A test makes as many requests as the buffer holds of the given size. -/
theorem test_count (iosize : Nat) :
    toInt (DATASET_SIZE / iosize / NUM_THREADS) = (DATASET_SIZE / NUM_THREADS / iosize : Nat) := by
  have small : DATASET_SIZE / iosize / NUM_THREADS < 2 ^ 31 := by
    have quotient := Nat.div_le_self DATASET_SIZE iosize
    have dataset : DATASET_SIZE < 2 ^ 31 := by decide
    exact Nat.lt_of_le_of_lt (Nat.div_le_self ..) (by omega)
  rw [toInt_small small, Nat.div_div_eq_div_mul, Nat.div_div_eq_div_mul, Nat.mul_comm]

/-- Requests one behind the other stay in the buffer when all of them together
    have room. -/
theorem row_inside_iff (n : Nat) {size len : Nat} : (∀ i < n, i * size + size ≤ len) ↔ n * size ≤ len := by
  cases n with
  | zero => simp
  | succ n =>
    rw [Nat.succ_mul]
    constructor
    · intro inside
      exact inside n (Nat.lt_succ_self n)
    · intro room i less
      have before := Nat.mul_le_mul_right size (Nat.le_of_lt_succ less)
      omega

/-- A thread of a test that does not read degraded. -/
theorem inside_test_iff {io_dir is_degr_read : Bool} (reads : io_dir = false → is_degr_read = false) {iosize : Nat}
    (pos : 0 < iosize) (is_rand : Bool) (offset thread_id : Nat) :
    InsideBuffer (test_info io_dir is_rand is_degr_read offset thread_id iosize) ↔
      DATASET_SIZE / NUM_THREADS / iosize * round_up iosize BLK_SIZE ≤ DATASET_SIZE / NUM_THREADS := by
  have worker : thread_worker (test_info io_dir is_rand is_degr_read offset thread_id iosize) =
      loops false (toInt (DATASET_SIZE / iosize / NUM_THREADS)) (0 + 1) iosize := by
    cases io_dir with
    | false => simp only [thread_worker, test_info, LOOP, reads rfl, Bool.false_eq_true, ↓reduceIte]
    | true => simp only [thread_worker, test_info, LOOP, ↓reduceIte]
  have members := mem_loops (toInt (DATASET_SIZE / iosize / NUM_THREADS)) 0 pos
  rw [InsideBuffer, worker, ← row_inside_iff]
  constructor
  · intro inside i less
    rw [← Int.toNat_natCast (DATASET_SIZE / NUM_THREADS / iosize), ← test_count] at less
    exact inside ⟨i * round_up iosize BLK_SIZE, round_up iosize BLK_SIZE⟩ ((members _).mpr ⟨i, less, rfl⟩)
  · intro row access made
    obtain ⟨i, less, rfl⟩ := (members access).mp made
    rw [test_count, Int.toNat_natCast] at less
    exact row i less

/-- As many rounded requests fit as the test makes exactly when as many fit as
    of the given size. -/
theorem fits_iff {len size rounded : Nat} (pos : 0 < size) (le : size ≤ rounded) :
    len / size * rounded ≤ len ↔ len / size = len / rounded := by
  have fewer : len / rounded ≤ len / size := Nat.div_le_div_left le pos
  rw [← Nat.le_div_iff_mul_le (Nat.lt_of_lt_of_le pos le)]
  omega

/-- A thread of a test stays in its buffer exactly when the buffer holds as many
    requests of the rounded size as of the given one. -/
theorem inside_buffer_iff {kb : Nat} (pos : 0 < kb) (wild : Bool) (i : Nat) {info : WorkerInfo}
    (test : info ∈ tests wild i (kb * KB)) : InsideBuffer info ↔
      DATASET_SIZE / NUM_THREADS / (kb * KB) = DATASET_SIZE / NUM_THREADS / round_up (kb * KB) BLK_SIZE := by
  have bytes : 0 < kb * KB := Nat.mul_pos pos (by decide)
  rw [← fits_iff bytes (le_round_up _ (by decide))]
  simp only [tests, List.mem_cons, List.not_mem_nil, or_false] at test
  rcases test with rfl | rfl | rfl | rfl
  · exact inside_test_iff (by simp) bytes _ _ _
  · exact inside_test_iff (by simp) bytes _ _ _
  · exact inside_test_iff (fun _ => rfl) bytes _ _ _
  · exact inside_test_iff (fun _ => rfl) bytes _ _ _

/-- Requests of 64 KB, and of 16383 KB, two of which are rounded up to all of the
    buffer. -/
theorem inside_buffer_some :
    InsideBuffer (test_SeqWrite true 3 (64 * KB)) ∧ InsideBuffer (test_RandRead 3 (16383 * KB)) := by
  have write : test_SeqWrite true 3 (64 * KB) ∈ tests true 3 (64 * KB) := by simp [tests]
  have read : test_RandRead 3 (16383 * KB) ∈ tests true 3 (16383 * KB) := by simp [tests]
  exact ⟨(inside_buffer_iff (by decide) true 3 write).mpr (by decide),
    (inside_buffer_iff (by decide) true 3 read).mpr (by decide)⟩

/-- Of 1 KB there are 32768 requests, of 4 KB each. -/
theorem outside_buffer : ¬ InsideBuffer (test_SeqWrite false 0 (1 * KB)) ∧ ¬ InsideBuffer (test_SeqRead 0 (5 * KB)) := by
  constructor
  · rw [test_SeqWrite, inside_test_iff (by simp) (by decide)]
    decide
  · rw [test_SeqRead, inside_test_iff (fun _ => rfl) (by decide)]
    decide

end Straid.Workloads
