import Straid.Alignments
import Straid.Define

/-!
The rounding of ranges in `tools.cc`. `ol_align` rounds the offset down and the
length up, one without regard to the other, and the length always up to the next
multiple. Its range covers the given one when the two remainders are together at
most the alignment, and is the least one that does when they are not both zero
(`leastCover_ol_align_iff`). The loaders of traces call it twice
(`covers_twice_iff`).
-/
namespace Straid.AlignedRanges
open Alignments

def o_align (offset align : Nat) : Nat := offset - offset % align

def l_align (length align : Nat) : Nat := u64 ((length / align + 1) * align)

/-- `ol_align`, which replaces a length and an offset. -/
def ol_align (r : Range) (align : Nat) : Range := ⟨o_align r.offset align, l_align r.length align⟩

/-- `BLK_SIZE` and then `SSTRIPE_DATASIZE`, as the loaders of traces align. -/
def align_twice (g : Geometry) (r : Range) : Range := ol_align (ol_align r BLK_SIZE) g.SSTRIPE_DATASIZE

/-- The alignment of a length stays in a `uint64_t`. -/
def NoOverflow (length align : Nat) : Prop := (length / align + 1) * align < 2 ^ 64

instance (length align : Nat) : Decidable (NoOverflow length align) := inferInstanceAs (Decidable (_ < _))

theorem l_align_eq {length align : Nat} (fits : NoOverflow length align) :
    l_align length align = round_down length align + align := by
  rw [l_align, u64_small fits, Nat.succ_mul, Nat.div_mul_self_eq_mod_sub_self, round_down]

/-- The range covers the given one when the two remainders are together at most
    the alignment. -/
theorem ol_align_covers_iff {r : Range} {align : Nat} (fits : NoOverflow r.length align) :
    (ol_align r align).Covers r ↔ r.offset % align + r.length % align ≤ align := by
  have offset := round_down_add_mod r.offset align
  have length := round_down_add_mod r.length align
  have first : (ol_align r align).offset = round_down r.offset align := rfl
  have size : (ol_align r align).length = round_down r.length align + align := l_align_eq fits
  constructor
  · intro covers
    have last := covers.last
    omega
  · intro small
    exact ⟨by omega, by omega⟩

/-- What the least cover adds to the length rounded down. -/
theorem hull_length (r : Range) (align : Nat) :
    (hull align r).length = round_down r.length align + round_up (r.offset % align + r.length % align) align := by
  have length := round_down_add_mod r.length align
  have sum : round_down r.length align + (r.offset % align + r.length % align) = r.offset % align + r.length := by omega
  rw [← round_up_add (dvd_round_down ..), sum, hull]

/-- `ol_align` gives the least cover exactly when the remainders are together at
    least `1` and at most the alignment. -/
theorem leastCover_ol_align_iff {align : Nat} (pos : 0 < align) {r : Range} (fits : NoOverflow r.length align) :
    LeastCover align r (ol_align r align) ↔
      0 < r.offset % align + r.length % align ∧ r.offset % align + r.length % align ≤ align := by
  have size : (ol_align r align).length = round_down r.length align + align := l_align_eq fits
  have least := hull_length r align
  rw [leastCover_iff pos, ← round_up_self_iff pos]
  constructor
  · intro same
    rw [same, least] at size
    omega
  · intro same
    have lengths : (ol_align r align).length = (hull align r).length := by omega
    exact congrArg (Range.mk (o_align r.offset align)) lengths

/-- What the range of two calls leaves of the alignments. -/
theorem covers_twice_iff {a b : Nat} {r : Range} (fits : NoOverflow r.length a)
    (fits_twice : NoOverflow (l_align r.length a) b) :
    (ol_align (ol_align r a) b).Covers r ↔
      r.offset % a + round_down r.offset a % b + (r.length % a + (round_down r.length a + a) % b) ≤ a + b := by
  have offset := round_down_add_mod r.offset a
  have length := round_down_add_mod r.length a
  have offset' := round_down_add_mod (round_down r.offset a) b
  have length' := round_down_add_mod (round_down r.length a + a) b
  have first : (ol_align (ol_align r a) b).offset = round_down (round_down r.offset a) b := rfl
  have size : (ol_align (ol_align r a) b).length = round_down (round_down r.length a + a) b + b := by
    rw [← l_align_eq fits]
    exact l_align_eq fits_twice
  constructor
  · intro covers
    have last := covers.last
    omega
  · intro small
    exact ⟨by omega, by omega⟩

/-- One call gives the least cover exactly when the remainders are together at
    least `1` and at most the alignment. Two calls cover exactly when the
    remainders of both are together at most the sum of the alignments. -/
theorem aligned_cover_iff (g : Geometry) {align : Nat} (pos : 0 < align) (r : Range) (fits : NoOverflow r.length align) :
    (LeastCover align r (ol_align r align) ↔
      0 < r.offset % align + r.length % align ∧ r.offset % align + r.length % align ≤ align) ∧
    (NoOverflow r.length BLK_SIZE → NoOverflow (l_align r.length BLK_SIZE) g.SSTRIPE_DATASIZE →
      ((align_twice g r).Covers r ↔
        r.offset % BLK_SIZE + round_down r.offset BLK_SIZE % g.SSTRIPE_DATASIZE +
            (r.length % BLK_SIZE + (round_down r.length BLK_SIZE + BLK_SIZE) % g.SSTRIPE_DATASIZE) ≤
          BLK_SIZE + g.SSTRIPE_DATASIZE)) :=
  ⟨leastCover_ol_align_iff pos fits, covers_twice_iff⟩

/-- A hundred bytes behind the first of a block. -/
theorem aligned_cover_hundred : LeastCover BLK_SIZE ⟨4097, 100⟩ (ol_align ⟨4097, 100⟩ BLK_SIZE) ∧
    (align_twice defaultGeometry ⟨4097, 100⟩).Covers ⟨4097, 100⟩ := by
  obtain ⟨once, twice⟩ := aligned_cover_iff defaultGeometry (show 0 < BLK_SIZE by decide) ⟨4097, 100⟩ (by decide)
  exact ⟨once.mpr (by decide), (twice (by decide) (by decide)).mpr (by decide)⟩

/-- A block becomes two blocks, two bytes across the end of a block are not
    covered, and some bytes across the end of a stripe are not covered by two
    calls. -/
theorem uncovered_ranges : ol_align ⟨0, 4096⟩ BLK_SIZE = ⟨0, 8192⟩ ∧
    ¬ LeastCover BLK_SIZE ⟨0, 4096⟩ (ol_align ⟨0, 4096⟩ BLK_SIZE) ∧
    ¬ LeastCover BLK_SIZE ⟨4095, 2⟩ (ol_align ⟨4095, 2⟩ BLK_SIZE) ∧
    ¬ (align_twice defaultGeometry ⟨458751, 4097⟩).Covers ⟨458751, 4097⟩ := by
  refine ⟨by decide, ?_, ?_, ?_⟩
  · intro cover
    have same := cover.unchanged ⟨by decide, by decide⟩
    exact absurd same (by decide)
  · intro cover
    have last := cover.covers.last
    exact absurd last (by decide)
  · intro covers
    have last := covers.last
    exact absurd last (by decide)

end Straid.AlignedRanges
