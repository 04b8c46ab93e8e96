import Mathlib.Data.Nat.Basic
import Mathlib.Algebra.Order.Ring.Nat

/-!
Rounding of natural numbers to multiples of another one, and ranges whose ends
are such multiples. The range from an offset rounded down to an end rounded up is
the least one around a given range (`leastCover_iff`).
-/
namespace Straid.Alignments

/-- The largest multiple of `a` that is not above `n`. -/
def round_down (n a : Nat) : Nat := n - n % a

/-- The least multiple of `a` that is not below `n`. -/
def round_up (n a : Nat) : Nat := if n % a ≠ 0 then n - n % a + a else n

theorem round_down_le (n a : Nat) : round_down n a ≤ n := Nat.sub_le ..

theorem dvd_round_down (n a : Nat) : a ∣ round_down n a := Nat.dvd_sub_mod n

theorem le_round_down {n m a : Nat} (dvd : a ∣ m) (le : m ≤ n) : m ≤ round_down n a := by
  obtain ⟨k, rfl⟩ := dvd
  rcases Nat.eq_zero_or_pos a with rfl | pos
  · simp
  · rw [round_down, ← Nat.div_mul_self_eq_mod_sub_self, Nat.mul_comm]
    refine Nat.mul_le_mul_right a ((Nat.le_div_iff_mul_le pos).mpr ?_)
    rwa [Nat.mul_comm]

theorem dvd_round_up (n a : Nat) : a ∣ round_up n a := by
  unfold round_up
  split
  · exact Nat.dvd_add (Nat.dvd_sub_mod n) (Nat.dvd_refl a)
  · exact Nat.dvd_of_mod_eq_zero (by omega)

theorem le_round_up (n : Nat) {a : Nat} (pos : 0 < a) : n ≤ round_up n a := by
  have rest := Nat.mod_lt n pos
  unfold round_up
  split <;> omega

theorem round_up_lt (n : Nat) {a : Nat} (pos : 0 < a) : round_up n a < n + a := by
  have rest := Nat.mod_le n a
  unfold round_up
  split <;> omega

theorem round_up_of_dvd {n a : Nat} (dvd : a ∣ n) : round_up n a = n := by
  rw [round_up, if_neg (by simpa using Nat.mod_eq_zero_of_dvd dvd)]

/-- Nothing between `n` and `round_up n a` is a multiple of `a`. -/
theorem round_up_le {n m a : Nat} (dvd : a ∣ m) (le : n ≤ m) : round_up n a ≤ m := by
  unfold round_up
  split
  · next rest =>
    have below := Nat.mod_le n a
    have less : n - n % a < m := by omega
    obtain ⟨gap, eq⟩ := Nat.dvd_sub dvd (Nat.dvd_sub_mod n)
    have pos : 0 < gap := by
      rcases Nat.eq_zero_or_pos gap with rfl | pos
      · omega
      · exact pos
    have step := Nat.le_mul_of_pos_right a pos
    omega
  · exact le

theorem round_up_le_iff {n m a : Nat} (pos : 0 < a) (dvd : a ∣ m) : round_up n a ≤ m ↔ n ≤ m :=
  ⟨fun le => Nat.le_trans (le_round_up n pos) le, round_up_le dvd⟩

theorem round_up_again (n a : Nat) : round_up (round_up n a) a = round_up n a := round_up_of_dvd (dvd_round_up ..)

theorem round_up_pos {n a : Nat} (pos : 0 < a) : 0 < round_up n a ↔ 0 < n := by
  have le_zero := round_up_le_iff (n := n) pos (Nat.dvd_zero a)
  omega

theorem round_up_self_iff {n a : Nat} (pos : 0 < a) : round_up n a = a ↔ 0 < n ∧ n ≤ a := by
  constructor
  · intro same
    have above := le_round_up n pos
    have below := round_up_lt n pos
    omega
  · rintro ⟨positive, small⟩
    have above := le_round_up n pos
    have below := round_up_le (Nat.dvd_refl a) small
    have multiple := Nat.le_of_dvd (by omega) (dvd_round_up n a)
    omega

theorem round_up_add {m a : Nat} (dvd : a ∣ m) (n : Nat) : round_up (m + n) a = m + round_up n a := by
  have same : (m + n) % a = n % a := by rw [Nat.add_mod, Nat.mod_eq_zero_of_dvd dvd, Nat.zero_add, Nat.mod_mod]
  have below := Nat.mod_le n a
  unfold round_up
  rw [same]
  split <;> omega

theorem round_down_add_mod (n a : Nat) : round_down n a + n % a = n := by
  have below := Nat.mod_le n a
  unfold round_down
  omega

/-! ### Ranges -/

/-- A range of bytes, given by its first byte and its length. -/
structure Range where
  offset : Nat
  length : Nat
  deriving DecidableEq, Repr

/-- The bytes of `inner` are bytes of the range. -/
structure Range.Covers (r inner : Range) : Prop where
  first : r.offset ≤ inner.offset
  last : inner.offset + inner.length ≤ r.offset + r.length

structure Range.Aligned (a : Nat) (r : Range) : Prop where
  offset : a ∣ r.offset
  length : a ∣ r.length

/-- The range is aligned, covers `inner`, and every aligned range that covers
    `inner` covers it too. An aligned range is its own least cover. -/
structure LeastCover (a : Nat) (inner r : Range) : Prop where
  aligned : r.Aligned a
  covers : r.Covers inner
  least : ∀ other : Range, other.Aligned a → other.Covers inner → other.Covers r
  unchanged : inner.Aligned a → r = inner

/-- The range from the offset rounded down to the end rounded up. -/
def hull (a : Nat) (inner : Range) : Range := ⟨round_down inner.offset a, round_up (inner.offset % a + inner.length) a⟩

variable {a : Nat}

theorem Range.Covers.trans {r s t : Range} (outer : r.Covers s) (inner : s.Covers t) : r.Covers t :=
  ⟨Nat.le_trans outer.first inner.first, Nat.le_trans inner.last outer.last⟩

theorem Range.Covers.antisymm {r s : Range} (one : r.Covers s) (two : s.Covers r) : r = s := by
  obtain ⟨offset, length⟩ := r
  obtain ⟨offset', length'⟩ := s
  obtain ⟨first, last⟩ := one
  obtain ⟨first', last'⟩ := two
  simp only at first last first' last'
  rw [Range.mk.injEq]
  omega

theorem hull_aligned (a : Nat) (inner : Range) : (hull a inner).Aligned a := ⟨dvd_round_down .., dvd_round_up ..⟩

theorem hull_covers (pos : 0 < a) (inner : Range) : (hull a inner).Covers inner := by
  have last := le_round_up (inner.offset % a + inner.length) pos
  have split := round_down_add_mod inner.offset a
  refine ⟨round_down_le .., ?_⟩
  simp only [hull]
  omega

theorem hull_least {inner other : Range} (aligned : other.Aligned a) (covers : other.Covers inner) :
    other.Covers (hull a inner) := by
  have split := round_down_add_mod inner.offset a
  have last := covers.last
  have first := le_round_down aligned.offset covers.first
  have rounded : round_up (round_down inner.offset a + (inner.offset % a + inner.length)) a ≤
      other.offset + other.length :=
    round_up_le (Nat.dvd_add aligned.offset aligned.length) (by omega)
  rw [round_up_add (dvd_round_down ..)] at rounded
  exact ⟨first, rounded⟩

theorem hull_of_aligned {inner : Range} (aligned : inner.Aligned a) : hull a inner = inner := by
  have rest := Nat.mod_eq_zero_of_dvd aligned.offset
  rw [hull, round_down, rest, Nat.zero_add, Nat.sub_zero, round_up_of_dvd aligned.length]

/-- There is one least cover. -/
theorem leastCover_iff (pos : 0 < a) {inner r : Range} : LeastCover a inner r ↔ r = hull a inner := by
  constructor
  · intro cover
    have outer := hull_least cover.aligned cover.covers
    exact outer.antisymm (cover.least _ (hull_aligned a inner) (hull_covers pos inner))
  · rintro rfl
    exact ⟨hull_aligned a inner, hull_covers pos inner, fun _ => hull_least, hull_of_aligned⟩

end Straid.Alignments
