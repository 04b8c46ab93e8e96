import Mathlib.Data.Nat.Basic
import Mathlib.Data.Int.Basic
import Mathlib.Tactic.Ring

/-!
The compile-time constants of `define.h` and the machine integers of the code.
The constants a deployment edits (the numbers of chunks, the chunk size, the user
space) are the fields of a `Geometry`, together with what the code checks of
them or takes for granted of their types; the others keep their values.
-/
namespace Straid

/-- One byte of a device or of a buffer. -/
abbrev Byte := BitVec 8

/-- The contents of a buffer, by position. -/
abbrev Buf := Nat → Byte

/-! ### Machine integers -/

/-- What a `uint64_t` keeps of a natural number. -/
def u64 (n : Nat) : Nat := n % 2 ^ 64

/-- The difference of two `uint64_t`. -/
def u64_sub (a b : Nat) : Nat := (a + (2 ^ 64 - b % 2 ^ 64)) % 2 ^ 64

/-- A `uint64_t` converted to `int`. -/
def toInt (n : Nat) : Int := Int.bmod n (2 ^ 32)

/-- A signed value converted to `uint64_t`. -/
def ofInt (i : Int) : Nat := (i % 2 ^ 64).toNat

/-- `INT_MAX` of `limits.h`. -/
def INT_MAX : Nat := 2147483647

/-- `INT16_MAX` of `stdint.h`. -/
def INT16_MAX : Nat := 32767

theorem u64_small {n : Nat} (small : n < 2 ^ 64) : u64 n = n := Nat.mod_eq_of_lt small

theorem u64_sub_small {a b : Nat} (small : a < 2 ^ 64) (le : b ≤ a) : u64_sub a b = a - b := by
  unfold u64_sub
  omega

theorem toInt_small {n : Nat} (small : n < 2 ^ 31) : toInt n = n := by
  unfold toInt
  rw [Int.bmod_def]
  split <;> omega

theorem ofInt_small {n : Nat} (small : n < 2 ^ 64) : ofInt n = n := by
  unfold ofInt
  omega

/-! ### Constants -/

/-- `KMAX`: `ecEncoder` exits when there are more data chunks. -/
def KMAX : Nat := 64

/-- `NUM_THREADS`, also the number of workers `NUM_WORKERS`. -/
def NUM_THREADS : Nat := 32

/-- `KB`, `MB` and `GB`. -/
def KB : Nat := 1024
def MB : Nat := 1024 * 1024
def GB : Nat := 1024 * 1024 * 1024

/-- `ALIGN_SIZE`, also `SECTOR_SIZE`. -/
def ALIGN_SIZE : Nat := 512

/-- `DATASET_SIZE`, the bytes that the benchmark writes and reads in a loop. -/
def DATASET_SIZE : Nat := 1 * GB

/-- `BLK_SIZE`, the size of a block in the bitmap. -/
def BLK_SIZE : Nat := 4 * 1024

/-- `PCACHE_SIZE`, the capacity of the parity cache. -/
def PCACHE_SIZE : Nat := 4096 * 16

/-- The tags of read requests. -/
def NVME_FAILED_REQ : Nat := 408
def NVME_FFAIL_SIG : Nat := 911

/-- The constants of a deployment. The main programs assert `DATACHUNK_NUM > 1`
    and `PARITYCHUNK_NUM <= 2`, the constructor of `ecEncoder` exits for more
    than `KMAX` data chunks or no parity chunk, chunk sizes are passed as `int`,
    and so is the number of every stripe that the table of stripes holds. -/
structure Geometry where
  DATACHUNK_NUM : Nat
  PARITYCHUNK_NUM : Nat
  SCHUNK_SIZE : Nat
  USER_SPACE_LEN : Nat
  data_many : 1 < DATACHUNK_NUM
  data_max : DATACHUNK_NUM ≤ KMAX
  parity_pos : 1 ≤ PARITYCHUNK_NUM
  parity_max : PARITYCHUNK_NUM ≤ 2
  chunk_pos : 0 < SCHUNK_SIZE
  chunk_int : SCHUNK_SIZE < 2 ^ 31
  user_signed : USER_SPACE_LEN < 2 ^ 63
  stripes_int : USER_SPACE_LEN / (SCHUNK_SIZE * DATACHUNK_NUM) + 100 < 2 ^ 31

namespace Geometry
variable (g : Geometry)

/-- `NUM_DEVFILES`, also `NUM_DEV`. -/
def NUM_DEVFILES : Nat := g.DATACHUNK_NUM + g.PARITYCHUNK_NUM

/-- `SSTRIPE_DATASIZE`, the user bytes of a stripe. -/
def SSTRIPE_DATASIZE : Nat := g.SCHUNK_SIZE * g.DATACHUNK_NUM

theorem data_pos : 0 < g.DATACHUNK_NUM := by
  have := g.data_many
  omega

theorem data_lt_devices : g.DATACHUNK_NUM < g.NUM_DEVFILES := by
  have := g.parity_pos
  unfold NUM_DEVFILES
  omega

theorem devices_pos : 0 < g.NUM_DEVFILES := by
  have := g.data_lt_devices
  omega

theorem devices_small : g.NUM_DEVFILES ≤ 66 := by
  have := g.data_max
  have := g.parity_max
  unfold NUM_DEVFILES KMAX at *
  omega

theorem stripe_pos : 0 < g.SSTRIPE_DATASIZE := Nat.mul_pos g.chunk_pos g.data_pos

theorem stripe_size : g.SSTRIPE_DATASIZE = g.DATACHUNK_NUM * g.SCHUNK_SIZE := Nat.mul_comm ..

theorem stripe_small : g.SSTRIPE_DATASIZE < 2 ^ 37 := by
  have chunk := g.chunk_int
  have data := g.data_max
  unfold SSTRIPE_DATASIZE KMAX at *
  have less : g.SCHUNK_SIZE * g.DATACHUNK_NUM ≤ g.SCHUNK_SIZE * 64 := Nat.mul_le_mul_left _ data
  omega

theorem chunk_le_stripe : g.SCHUNK_SIZE ≤ g.SSTRIPE_DATASIZE := Nat.le_mul_of_pos_right _ g.data_pos

end Geometry

/-- The constants as `define.h` has them: seven data chunks and one parity chunk
    of 64 KB, and a user space of 90 GB. -/
def defaultGeometry : Geometry where
  DATACHUNK_NUM := 7
  PARITYCHUNK_NUM := 1
  SCHUNK_SIZE := 64 * 1024
  USER_SPACE_LEN := 90 * 1024 * 1024 * 1024
  data_many := by decide
  data_max := by decide
  parity_pos := by decide
  parity_max := by decide
  chunk_pos := by decide
  chunk_int := by decide
  user_signed := by decide
  stripes_int := by decide

/-- Six data chunks and two parity chunks. -/
def raid6Geometry : Geometry where
  DATACHUNK_NUM := 6
  PARITYCHUNK_NUM := 2
  SCHUNK_SIZE := 64 * 1024
  USER_SPACE_LEN := 90 * 1024 * 1024 * 1024
  data_many := by decide
  data_max := by decide
  parity_pos := by decide
  parity_max := by decide
  chunk_pos := by decide
  chunk_int := by decide
  user_signed := by decide
  stripes_int := by decide

/-- Sixty-four data chunks of a gigabyte. -/
def wideGeometry : Geometry where
  DATACHUNK_NUM := 64
  PARITYCHUNK_NUM := 1
  SCHUNK_SIZE := 1024 * 1024 * 1024
  USER_SPACE_LEN := 90 * 1024 * 1024 * 1024
  data_many := by decide
  data_max := by decide
  parity_pos := by decide
  parity_max := by decide
  chunk_pos := by decide
  chunk_int := by decide
  user_signed := by decide
  stripes_int := by decide

end Straid
