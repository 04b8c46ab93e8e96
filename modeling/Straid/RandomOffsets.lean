import Straid.Alignments
import Straid.Define

/-!
The random offsets of the load generator (`load.cc`). `Rand_offset_align` draws a
multiple of the alignment above the base offset, draws once more when it is
beyond the user space, and rounds up at the end. A request of the size of the
alignment at that offset is inside the user space exactly when the draw that
counts is of a low enough multiple (`in_space_iff`).
-/
namespace Straid.RandomOffsets
open Alignments

variable (g : Geometry)

/-- Division and remainder of `uint64_t`, which fail for a divisor `0`. -/
def udiv (n d : Nat) : Option Nat := if d = 0 then none else some (n / d)
def umod (n d : Nat) : Option Nat := if d = 0 then none else some (n % d)

/-- A draw, with what `rand` returns: one of the first `max` multiples of the
    alignment, counted from the base offset. -/
def draw_offset (baseoff max align rand : Nat) : Option Nat := (umod rand max).map fun k => u64 (k * align + baseoff)

/-- The end of `Rand_offset_align`: the offset rounded up, if the assertion
    holds. -/
def round_offset (ret align : Nat) : Option Nat :=
  let ret := if ret % align ≠ 0 then u64 (ret - ret % align + align) else ret
  if ret ≤ g.USER_SPACE_LEN then some ret else none

/-- `Rand_offset_align`, with what `rand` returns for the first draw and for the
    second one. -/
def Rand_offset_align (baseoff max_offset align rand rand' : Nat) : Option Nat :=
  (udiv max_offset align).bind fun n => (draw_offset baseoff (u64_sub n 1) align rand).bind fun ret =>
    if ret > g.USER_SPACE_LEN then
      (udiv (u64_sub g.USER_SPACE_LEN baseoff) align).bind fun max_aligned_offsets =>
        (draw_offset baseoff max_aligned_offsets align rand').bind fun ret => round_offset g ret align
    else round_offset g ret align

/-- The call returns an offset for a request of `align` bytes in the user space
    from `baseoff` on. -/
def InSpace (baseoff max_offset align rand rand' : Nat) : Prop :=
  ∃ r, Rand_offset_align g baseoff max_offset align rand rand' = some r ∧
    align ∣ r ∧ baseoff ≤ r ∧ r + align ≤ g.USER_SPACE_LEN

/-- The number of multiples of `align` below `n`. -/
def slots (n align : Nat) : Nat := round_up n align / align

/-- Where the draws may come out. A first draw in the user space, or else the
    second one, has to leave room for one more multiple behind the multiples
    below `baseoff`. A first draw beyond `2 ^ 64` is seen modulo it, below
    `baseoff`, and has to be rounded up to where `baseoff` is. -/
def Lands (baseoff max_offset align rand rand' : Nat) : Prop :=
  let draw := rand % (max_offset / align - 1)
  let redraw := rand' % ((g.USER_SPACE_LEN - baseoff) / align)
  if draw * align + baseoff ≤ g.USER_SPACE_LEN then draw + slots baseoff align < g.USER_SPACE_LEN / align
  else if draw * align + baseoff < 2 ^ 64 then redraw + slots baseoff align < g.USER_SPACE_LEN / align
  else slots (draw * align + baseoff - 2 ^ 64) align = slots baseoff align

instance (baseoff max_offset align rand rand' : Nat) : Decidable (Lands g baseoff max_offset align rand rand') := by
  unfold Lands
  infer_instance

variable {g}

theorem slots_mul (n align : Nat) : slots n align * align = round_up n align := Nat.div_mul_cancel (dvd_round_up ..)

/-- The end gives an offset with room for a request exactly when the offset
    rounded up is one. -/
theorem round_offset_iff {baseoff ret align : Nat} (pos : 0 < align) (ret_user : ret ≤ g.USER_SPACE_LEN)
    (align_user : align ≤ g.USER_SPACE_LEN) :
    (∃ r, round_offset g ret align = some r ∧ align ∣ r ∧ baseoff ≤ r ∧ r + align ≤ g.USER_SPACE_LEN) ↔
      baseoff ≤ round_up ret align ∧ round_up ret align + align ≤ g.USER_SPACE_LEN := by
  have user := g.user_signed
  have rounded : (if ret % align ≠ 0 then u64 (ret - ret % align + align) else ret) = round_up ret align := by
    rw [u64_small (by omega), round_up]
  simp only [round_offset, rounded]
  constructor
  · rintro ⟨r, same, _, above, below⟩
    split at same
    · cases same
      exact ⟨above, below⟩
    · contradiction
  · rintro ⟨above, below⟩
    exact ⟨round_up ret align, if_pos (by omega), dvd_round_up .., above, below⟩

/-- A draw in the user space. -/
theorem draw_iff {baseoff k align : Nat} (pos : 0 < align) (draw_user : k * align + baseoff ≤ g.USER_SPACE_LEN)
    (align_user : align ≤ g.USER_SPACE_LEN) :
    (∃ r, round_offset g (k * align + baseoff) align = some r ∧
        align ∣ r ∧ baseoff ≤ r ∧ r + align ≤ g.USER_SPACE_LEN) ↔
      k + slots baseoff align < g.USER_SPACE_LEN / align := by
  have above := le_round_up baseoff pos
  have room : round_up (k * align + baseoff) align + align = (k + slots baseoff align + 1) * align := by
    rw [round_up_add (Nat.dvd_mul_left ..), ← slots_mul]
    ring
  rw [round_offset_iff pos draw_user align_user, room, ← Nat.le_div_iff_mul_le pos, Nat.succ_le_iff]
  refine and_iff_right ?_
  rw [round_up_add (Nat.dvd_mul_left ..)]
  omega

/-- A draw that is seen modulo `2 ^ 64`, below the base offset. -/
theorem wrapped_iff {baseoff ret align : Nat} (pos : 0 < align) (below : ret < baseoff)
    (room : 2 * align ≤ g.USER_SPACE_LEN - baseoff) :
    (∃ r, round_offset g ret align = some r ∧ align ∣ r ∧ baseoff ≤ r ∧ r + align ≤ g.USER_SPACE_LEN) ↔
      slots ret align = slots baseoff align := by
  have near := round_up_lt ret pos
  have above := le_round_up baseoff pos
  have less : round_up ret align ≤ round_up baseoff align := round_up_le (dvd_round_up ..) (by omega)
  have slots_iff : slots ret align = slots baseoff align ↔ round_up ret align = round_up baseoff align := by
    rw [← slots_mul ret, ← slots_mul baseoff, Nat.mul_left_inj (by omega)]
  rw [round_offset_iff pos (by omega) (by omega), slots_iff]
  constructor
  · rintro ⟨reaches, _⟩
    exact Nat.le_antisymm less (round_up_le (dvd_round_up ..) reaches)
  · intro same
    exact ⟨by omega, by omega⟩

theorem draw_le {m n d : Nat} (pos : 0 < m) (le : m * d ≤ n) (k : Nat) : k % m * d + d ≤ n := by
  have less := Nat.mod_lt k pos
  have multiple := Nat.mul_le_mul_right d (Nat.succ_le_of_lt less)
  rw [Nat.succ_mul] at multiple
  omega

theorem draw_offset_eq (baseoff : Nat) {max : Nat} (pos : 0 < max) (align rand : Nat) :
    draw_offset baseoff max align rand = some (u64 (rand % max * align + baseoff)) := by
  rw [draw_offset, umod, if_neg (Nat.ne_of_gt pos), Option.map_some]

/-- No divisor is `0`. What the call does with the draws. -/
theorem rand_offset_eq {baseoff max_offset align : Nat} (pos : 0 < align) (base_user : baseoff ≤ g.USER_SPACE_LEN)
    (room : align ≤ g.USER_SPACE_LEN - baseoff) (several : 2 * align ≤ max_offset) (small : max_offset < 2 ^ 64)
    (rand rand' : Nat) {ret : Nat} (first : u64 (rand % (max_offset / align - 1) * align + baseoff) = ret) :
    Rand_offset_align g baseoff max_offset align rand rand' = round_offset g (if ret > g.USER_SPACE_LEN then
      u64 (rand' % ((g.USER_SPACE_LEN - baseoff) / align) * align + baseoff) else ret) align := by
  have user := g.user_signed
  have max : 2 ≤ max_offset / align := (Nat.le_div_iff_mul_le pos).mpr several
  have less := Nat.div_le_self max_offset align
  have aligned : 1 ≤ (g.USER_SPACE_LEN - baseoff) / align := (Nat.le_div_iff_mul_le pos).mpr (by omega)
  have divides : ∀ n, udiv n align = some (n / align) := fun n => if_neg (by omega)
  have minus : u64_sub (max_offset / align) 1 = max_offset / align - 1 := u64_sub_small (by omega) (by omega)
  have left : u64_sub g.USER_SPACE_LEN baseoff = g.USER_SPACE_LEN - baseoff := u64_sub_small (by omega) base_user
  have draw := draw_offset_eq baseoff (show 0 < max_offset / align - 1 by omega) align rand
  have redraw := draw_offset_eq baseoff aligned align rand'
  rw [Rand_offset_align, divides, Option.bind_some, minus, draw, Option.bind_some, first, left, divides,
    Option.bind_some, redraw, Option.bind_some]
  exact (apply_ite (round_offset g · align) ..).symm

/-- The call gives an offset in the user space exactly when the draws come out
    low enough. -/
theorem in_space_iff {baseoff max_offset align : Nat} (base_user : baseoff < g.USER_SPACE_LEN) (pos : 0 < align)
    (room : 2 * align ≤ g.USER_SPACE_LEN - baseoff) (several : 2 * align ≤ max_offset) (small : max_offset < 2 ^ 64)
    (rand rand' : Nat) :
    InSpace g baseoff max_offset align rand rand' ↔ Lands g baseoff max_offset align rand rand' := by
  have user := g.user_signed
  have max : 2 ≤ max_offset / align := (Nat.le_div_iff_mul_le pos).mpr several
  have multiples := Nat.div_mul_le_self max_offset align
  have draw : rand % (max_offset / align - 1) * align + align ≤ max_offset :=
    draw_le (by omega) (Nat.le_trans (Nat.mul_le_mul_right align (Nat.sub_le ..)) multiples) rand
  have redraw : rand' % ((g.USER_SPACE_LEN - baseoff) / align) * align + align ≤ g.USER_SPACE_LEN - baseoff :=
    draw_le (Nat.le_trans (by decide) ((Nat.le_div_iff_mul_le pos).mpr room)) (Nat.div_mul_le_self ..) rand'
  unfold InSpace Lands
  rw [rand_offset_eq pos (by omega) (by omega) several small rand rand' rfl]
  simp only
  generalize rand % (max_offset / align - 1) = k at draw ⊢
  generalize rand' % ((g.USER_SPACE_LEN - baseoff) / align) = k' at redraw ⊢
  by_cases inside : k * align + baseoff ≤ g.USER_SPACE_LEN
  · rw [u64_small (by omega), if_neg (by omega), if_pos inside]
    exact draw_iff pos inside (by omega)
  · rw [if_neg inside]
    by_cases narrow : k * align + baseoff < 2 ^ 64
    · rw [u64_small narrow, if_pos (by omega), if_pos narrow, u64_small (by omega)]
      exact draw_iff pos (by omega) (by omega)
    · -- The sum wraps around once, and comes out below `baseoff`.
      have wrapped : u64 (k * align + baseoff) = k * align + baseoff - 2 ^ 64 := by
        unfold u64
        omega
      rw [wrapped, if_neg (by omega), if_neg narrow]
      exact wrapped_iff pos (by omega) room

/-- A draw in the middle of the user space. -/
theorem in_space_third_block : InSpace defaultGeometry 8192 32768 4096 2 0 :=
  (in_space_iff (by decide) (by decide) (by decide) (by decide) (by decide) 2 0).mpr (by decide)

/-- The last draw for a base two blocks before the end of the user space is the
    end itself. From a base that is not a multiple of the alignment, an offset
    can be rounded up beyond the end, where the assertion fails. -/
theorem out_of_space : Rand_offset_align defaultGeometry (96636764160 - 8192) 16384 4096 2 0 = some 96636764160 ∧
    ¬ InSpace defaultGeometry (96636764160 - 8192) 16384 4096 2 0 ∧
    Rand_offset_align defaultGeometry (96636764160 - 65536) 114688 28672 2 0 = none := by
  have last : Rand_offset_align defaultGeometry (96636764160 - 8192) 16384 4096 2 0 = some 96636764160 := by decide
  refine ⟨last, ?_, by decide⟩
  rintro ⟨r, result, _, _, below⟩
  rw [last, Option.some.injEq] at result
  subst result
  exact absurd below (by decide)

end Straid.RandomOffsets
