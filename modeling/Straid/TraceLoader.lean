import Straid.AlignedRanges
import Straid.Metadata
import Straid.TraceReplay

/-!
From the line of a trace to a request (`trace_st.cc`): the loader rounds the
range of a record to blocks, and that of a write of more than a stripe to
stripes, and `worker_run` moves the offset into the user space and rounds to
sectors. The offset is moved only when it is beyond the end of the user space,
and without regard to the length (`request_in_space_iff`).
-/
namespace Straid.TraceLoader
open Alignments AlignedRanges LogFiles Metadata TraceReplay

/-- The first field of a line: `"R"`, `"W"` or another text. -/
inductive Direction
  | R
  | W
  | other
  deriving DecidableEq, Repr

/-- A line of a trace, with its numbers as `uint64_t`. -/
structure Record where
  dir : Direction
  range : Range
  deriving DecidableEq, Repr

variable (g : Geometry)

/-- The range of a record as it is loaded. -/
def loaded_range (r : Record) : Range :=
  let range := ol_align r.range BLK_SIZE
  if r.dir = .W ∧ range.length > g.SSTRIPE_DATASIZE then ol_align range g.SSTRIPE_DATASIZE else range

/-- What the loader keeps of a record. -/
def load (r : Record) : Option Request :=
  let range := loaded_range g r
  if range.length > 100 * MB then none else some ⟨r.dir != .R, range.offset, range.length⟩

/-- A number that `worker_run` makes a multiple of `ALIGN_SIZE`. -/
def sector_align (n : Nat) : Nat := if n % ALIGN_SIZE ≠ 0 then u64 (n - n % ALIGN_SIZE + ALIGN_SIZE) else n

/-- The request that `worker_run` passes to `raid_read` or `raid_write_direct`. -/
def adjust (q : Request) : Request :=
  let offset := if q.offset > g.USER_SPACE_LEN then q.offset % g.USER_SPACE_LEN else q.offset
  ⟨q.iodir, sector_align offset, sector_align q.length⟩

/-- The request has bytes, all of them in the user space, each in a stripe with
    an entry in the table of stripes and in a block with a bit in the bitmap. -/
structure InSpace (q : Request) : Prop where
  positive : 0 < q.length
  inside : q.offset + q.length ≤ g.USER_SPACE_LEN
  stripes : ∀ x, q.offset ≤ x → x < q.offset + q.length → search_SST g (user2stripe g x) = some (user2stripe g x)
  blocks : ∀ x, q.offset ≤ x → x < q.offset + q.length → x / BLK_SIZE < (BlkBitmap.fresh g).size

/-- A write of more than a stripe, after the rounding to blocks. -/
def Large (r : Record) : Prop := r.dir = .W ∧ g.SSTRIPE_DATASIZE < l_align r.range.length BLK_SIZE

instance (r : Record) : Decidable (Large g r) := inferInstanceAs (Decidable (_ ∧ _))

/-- The first byte of the blocks, or of the stripes, that a record is about. -/
def first (r : Record) : Nat :=
  if Large g r then round_down (round_down r.range.offset BLK_SIZE) g.SSTRIPE_DATASIZE
  else round_down r.range.offset BLK_SIZE

/-- The length in blocks, or in stripes. It is `0` when a `uint64_t` cannot hold
    it. -/
def size (r : Record) : Nat :=
  if Large g r then l_align (l_align r.range.length BLK_SIZE) g.SSTRIPE_DATASIZE else l_align r.range.length BLK_SIZE

/-- The blocks or stripes of a record have bytes, do not start at the end of the
    user space, and from their offset modulo the user space on end inside. -/
structure Fits (r : Record) : Prop where
  positive : 0 < size g r
  start : first g r ≠ g.USER_SPACE_LEN
  last : round_up (first g r % g.USER_SPACE_LEN) ALIGN_SIZE + round_up (size g r) ALIGN_SIZE ≤ g.USER_SPACE_LEN

variable {g}

theorem loaded_range_eq (r : Record) : loaded_range g r = ⟨first g r, size g r⟩ := by
  unfold loaded_range first size
  by_cases large : Large g r
  · rw [if_pos large, if_pos large]
    exact if_pos large
  · rw [if_neg large, if_neg large]
    exact if_neg large

theorem sector_align_eq {n : Nat} (small : n < 2 ^ 63) : sector_align n = round_up n ALIGN_SIZE := by
  have below := Nat.mod_le n ALIGN_SIZE
  rw [sector_align, u64_small (by unfold ALIGN_SIZE; omega), round_up]

/-- What is kept of a record is not longer than `100 * MB`. -/
theorem load_some {r : Record} {q : Request} (kept : load g r = some q) :
    size g r ≤ 100 * MB ∧ q = ⟨r.dir != .R, first g r, size g r⟩ := by
  simp only [load, loaded_range_eq] at kept
  split at kept
  · contradiction
  · next short =>
    rw [Option.some.injEq] at kept
    exact ⟨Nat.le_of_not_lt short, kept.symm⟩

/-- The offset comes into the user space, or to the end of it. -/
theorem adjust_eq (some_space : 0 < g.USER_SPACE_LEN) {q : Request} (short : q.length < 2 ^ 63) : adjust g q =
    ⟨q.iodir, round_up (if q.offset > g.USER_SPACE_LEN then q.offset % g.USER_SPACE_LEN else q.offset) ALIGN_SIZE,
      round_up q.length ALIGN_SIZE⟩ := by
  have user := g.user_signed
  have inside := Nat.mod_lt q.offset some_space
  have small : (if q.offset > g.USER_SPACE_LEN then q.offset % g.USER_SPACE_LEN else q.offset) < 2 ^ 63 := by
    split <;> omega
  rw [adjust, sector_align_eq short, sector_align_eq small]

/-- What lies in the user space has entries in the table of stripes and in the
    bitmap. -/
theorem inSpace_iff (q : Request) : InSpace g q ↔ 0 < q.length ∧ q.offset + q.length ≤ g.USER_SPACE_LEN := by
  constructor
  · intro space
    exact ⟨space.positive, space.inside⟩
  · rintro ⟨positive, inside⟩
    refine ⟨positive, inside, fun x _ last => ?_, fun x _ last => ?_⟩
    · have stripe : user2stripe g x ≤ g.USER_SPACE_LEN / g.SSTRIPE_DATASIZE := by
        rw [user2stripe_eq]
        exact Nat.div_le_div_right (by omega)
      exact search_SST_eq (by omega)
    · simp only [BlkBitmap.fresh, BLK_SIZE]
      omega

/-- The request of a record that the loader keeps is in the user space exactly
    when its blocks or stripes fit. -/
theorem request_in_space_iff {r : Record} {q : Request} (kept : load g r = some q) :
    InSpace g (adjust g q) ↔ Fits g r := by
  obtain ⟨short, rfl⟩ := load_some kept
  have sector : 0 < ALIGN_SIZE := by decide
  have above := le_round_up (size g r) sector
  rw [inSpace_iff]
  rcases Nat.eq_zero_or_pos g.USER_SPACE_LEN with nothing | some_space
  · -- Without a user space nothing is in it.
    constructor
    · rintro ⟨positive, inside⟩
      omega
    · rintro ⟨positive, _, last⟩
      omega
  · rw [adjust_eq some_space (Nat.lt_of_le_of_lt short (by decide))]
    simp only [round_up_pos sector]
    rcases Nat.lt_trichotomy (first g r) g.USER_SPACE_LEN with before | at_end | beyond
    · rw [if_neg (by omega)]
      have start := Nat.mod_eq_of_lt before
      constructor
      · rintro ⟨positive, inside⟩
        exact ⟨positive, by omega, by rwa [start]⟩
      · rintro ⟨positive, _, last⟩
        exact ⟨positive, by rwa [start] at last⟩
    · -- The end of the user space is not moved.
      rw [if_neg (by omega)]
      have behind := le_round_up (first g r) sector
      constructor
      · rintro ⟨positive, inside⟩
        omega
      · rintro ⟨_, start, _⟩
        exact absurd at_end start
    · rw [if_pos beyond]
      constructor
      · rintro ⟨positive, inside⟩
        exact ⟨positive, by omega, inside⟩
      · rintro ⟨positive, _, last⟩
        exact ⟨positive, last⟩

/-- A write of more than a stripe, beyond the user space. -/
theorem request_far_write : ∃ q, load defaultGeometry ⟨.W, ⟨96637943808, 500000⟩⟩ = some q ∧
    InSpace defaultGeometry (adjust defaultGeometry q) := by
  have kept : load defaultGeometry ⟨.W, ⟨96637943808, 500000⟩⟩ = some ⟨true, 96637943808, 917504⟩ := by decide
  exact ⟨_, kept, (request_in_space_iff kept).mpr ⟨by decide, by decide, by decide⟩⟩

/-- A read at the end of the user space stays there, a read of the last block
    ends one block behind it, and a record with the length `-1` becomes a request
    without bytes. -/
theorem request_out_of_space :
    load defaultGeometry ⟨.R, ⟨96636764160, 4096⟩⟩ = some ⟨false, 96636764160, 8192⟩ ∧
    ¬ InSpace defaultGeometry (adjust defaultGeometry ⟨false, 96636764160, 8192⟩) ∧
    load defaultGeometry ⟨.R, ⟨96636760064, 4096⟩⟩ = some ⟨false, 96636760064, 8192⟩ ∧
    ¬ InSpace defaultGeometry (adjust defaultGeometry ⟨false, 96636760064, 8192⟩) ∧
    load defaultGeometry ⟨.R, ⟨0, 2 ^ 64 - 1⟩⟩ = some ⟨false, 0, 0⟩ ∧
    ¬ InSpace defaultGeometry (adjust defaultGeometry ⟨false, 0, 0⟩) := by
  refine ⟨by decide, ?_, by decide, ?_, by decide, ?_⟩
  · intro space
    exact absurd space.inside (by decide)
  · intro space
    exact absurd space.inside (by decide)
  · intro space
    exact absurd space.positive (by decide)

end Straid.TraceLoader
