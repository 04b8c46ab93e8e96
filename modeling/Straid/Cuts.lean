import Mathlib.Algebra.Order.Ring.Nat
import Mathlib.Data.List.Basic
import Mathlib.Data.List.Chain
import Mathlib.Data.List.Range
import Mathlib.Tactic.Common

/-!
An interval of positions cut at the multiples of a width. `piece w off len K` is
the part of `[off, off + len)` in block `K`, the positions from `K * w` up to
`(K + 1) * w`; `cut w off len` lists the parts of the blocks the interval meets.
The parts are not empty (`piece_pos`), lie in their blocks (`piece_low`,
`piece_high`) and together are the interval, in order (`cut_positions`). A cut
of the parts at a divisor of the width is a cut of the interval
(`cut_blocks_total`).
-/
namespace Straid.Cuts

/-! ### Blocks -/

theorem block_low (w x : Nat) : x / w * w ≤ x := Nat.div_mul_le_self x w

theorem block_high {w : Nat} (wide : 0 < w) (x : Nat) : x < x / w * w + w := by
  have := Nat.div_add_mod' x w
  have := Nat.mod_lt x wide
  omega

theorem block_unique {w K x : Nat} (low : K * w ≤ x) (high : x < K * w + w) : x / w = K := by
  have wide : 0 < w := by omega
  apply Nat.le_antisymm
  · exact Nat.lt_succ_iff.mp ((Nat.div_lt_iff_lt_mul wide).mpr (by rw [Nat.succ_mul]; exact high))
  · exact (Nat.le_div_iff_mul_le wide).mpr low

/-! ### Parts of an interval -/

/-- Where the part of `[off, off + len)` in block `K` starts. -/
def start (w off K : Nat) : Nat := max off (K * w)

/-- Where it ends. -/
def stop (w off len K : Nat) : Nat := min (off + len) (K * w + w)

/-- The part of `[off, off + len)` in block `K`: its start and its length. -/
def piece (w off len K : Nat) : Nat × Nat := (start w off K, stop w off len K - start w off K)

/-- The number of blocks that `[off, off + len)` meets, for a positive `len`. -/
def blocks (w off len : Nat) : Nat := (off + len - 1) / w + 1 - off / w

/-- The parts of `[off, off + len)`, in order. -/
def cut (w off len : Nat) : List (Nat × Nat) :=
  (List.range' (off / w) (blocks w off len)).map (piece w off len)

section
variable {w off len : Nat}

theorem block_order (w off : Nat) (some_len : 0 < len) : off / w ≤ (off + len - 1) / w :=
  Nat.div_le_div_right (by omega)

theorem blocks_pos (w off : Nat) (some_len : 0 < len) : 0 < blocks w off len := by
  have := block_order w off some_len
  unfold blocks
  omega

theorem mem_blocks (some_len : 0 < len) {K : Nat} :
    K ∈ List.range' (off / w) (blocks w off len) ↔ off / w ≤ K ∧ K ≤ (off + len - 1) / w := by
  have := block_order w off some_len
  simp only [List.mem_range'_1, blocks]
  omega

theorem mem_cut (some_len : 0 < len) {p : Nat × Nat} :
    p ∈ cut w off len ↔ ∃ K, off / w ≤ K ∧ K ≤ (off + len - 1) / w ∧ p = piece w off len K := by
  simp only [cut, List.mem_map, mem_blocks some_len, and_assoc]
  constructor
  · rintro ⟨K, low, high, rfl⟩; exact ⟨K, low, high, rfl⟩
  · rintro ⟨K, low, high, rfl⟩; exact ⟨K, low, high, rfl⟩

/-- A block that the interval meets starts below the interval's end and ends
    above its start. -/
theorem block_meets (wide : 0 < w) (some_len : 0 < len) {K : Nat} (low : off / w ≤ K)
    (high : K ≤ (off + len - 1) / w) : K * w < off + len ∧ off < K * w + w := by
  have below : K * w ≤ off + len - 1 := (Nat.le_div_iff_mul_le wide).mp high
  have above := block_high wide off
  have grows : off / w * w ≤ K * w := Nat.mul_le_mul_right w low
  omega

theorem piece_pos (wide : 0 < w) (some_len : 0 < len) {K : Nat} (low : off / w ≤ K)
    (high : K ≤ (off + len - 1) / w) : start w off K < stop w off len K := by
  have meets := block_meets wide some_len low high
  unfold start stop
  omega

theorem piece_low (w off K : Nat) : K * w ≤ start w off K := by
  unfold start
  omega

theorem piece_high (w off len K : Nat) : stop w off len K ≤ K * w + w := by
  unfold stop
  omega

theorem start_first (w off : Nat) : start w off (off / w) = off := by
  have := block_low w off
  unfold start
  omega

theorem stop_last (wide : 0 < w) (off : Nat) (some_len : 0 < len) : stop w off len ((off + len - 1) / w) = off + len := by
  have := block_high wide (off + len - 1)
  unfold stop
  omega

/-- The loops that cut an interval take the rest of the block, or the rest of
    the interval when that is shorter. -/
theorem shorter_rest (w off len K x : Nat) :
    (if off + len - x > K * w + w - x then K * w + w - x else off + len - x) = stop w off len K - x := by
  unfold stop
  split <;> omega

/-- Below the last block, the next part starts where one ends. -/
theorem stop_start (wide : 0 < w) {K : Nat} (low : off / w ≤ K) (high : K < (off + len - 1) / w) :
    stop w off len K = start w off (K + 1) ∧ start w off (K + 1) = (K + 1) * w := by
  have next : (K + 1) * w ≤ off + len - 1 := (Nat.le_div_iff_mul_le wide).mp high
  have above := block_high wide off
  have grows : off / w * w ≤ K * w := Nat.mul_le_mul_right w low
  unfold stop start
  rw [Nat.succ_mul] at *
  omega

/-- The positions of the parts of the first `n + 1` blocks. -/
theorem positions_upto (wide : 0 < w) (some_len : 0 < len) (n : Nat) (inside : off / w + n ≤ (off + len - 1) / w) :
    ((List.range' (off / w) (n + 1)).map (piece w off len)).flatMap (fun p => List.range' p.1 p.2) =
      List.range' off (stop w off len (off / w + n) - off) := by
  induction n with
  | zero => simp [piece, start_first]
  | succ n ih =>
    have joined : stop w off len (off / w + n) = start w off (off / w + n + 1) ∧ _ :=
      stop_start wide (by omega) (by omega)
    have before : start w off (off / w + n) < stop w off len (off / w + n) :=
      piece_pos wide some_len (by omega) (by omega)
    have after : start w off (off / w + n + 1) < stop w off len (off / w + n + 1) :=
      piece_pos wide some_len (by omega) (by omega)
    have first : off ≤ start w off (off / w + n) := by unfold start; omega
    rw [List.range'_1_concat, List.map_append, List.flatMap_append, ih (by omega)]
    simp only [List.map_cons, List.map_nil, List.flatMap_cons, List.flatMap_nil, List.append_nil, piece,
      ← Nat.add_assoc]
    -- The part of the next block continues where the positions so far end.
    have continues : start w off (off / w + n + 1) = off + (stop w off len (off / w + n) - off) := by omega
    rw [continues, List.range'_append_1]
    congr 1
    omega

/-- The parts together are the interval, in order. -/
theorem cut_positions (wide : 0 < w) (off : Nat) (some_len : 0 < len) :
    (cut w off len).flatMap (fun p => List.range' p.1 p.2) = List.range' off len := by
  have order := block_order w off some_len
  have count : blocks w off len = ((off + len - 1) / w - off / w) + 1 := by unfold blocks; omega
  have reach : off / w + ((off + len - 1) / w - off / w) = (off + len - 1) / w := by omega
  rw [cut, count, positions_upto wide some_len _ (by omega), reach, stop_last wide off some_len]
  congr 1
  omega

theorem cut_one (some_len : 0 < len) (one : (off + len - 1) / w = off / w) (wide : 0 < w) :
    cut w off len = [(off, len)] := by
  have last := stop_last wide off some_len
  have count : blocks w off len = 1 := by unfold blocks; omega
  rw [one] at last
  simp only [cut, count, List.range'_one, List.map_cons, List.map_nil, piece, start_first, last]
  congr 2
  omega

theorem cut_head (w off : Nat) (some_len : 0 < len) :
    ∃ rest, cut w off len = (off, stop w off len (off / w) - off) :: rest := by
  obtain ⟨n, count⟩ := Nat.exists_eq_succ_of_ne_zero (Nat.pos_iff_ne_zero.mp (blocks_pos w off some_len))
  refine ⟨(List.range' (off / w + 1) n).map (piece w off len), ?_⟩
  rw [cut, count, List.range'_succ, List.map_cons, piece, start_first]

/-- The parts of an interval are inside it, and each in its block. -/
theorem cut_inside (wide : 0 < w) (some_len : 0 < len) {p : Nat × Nat} (member : p ∈ cut w off len) :
    0 < p.2 ∧ off ≤ p.1 ∧ p.1 + p.2 ≤ off + len ∧ (p.1 + p.2 - 1) / w = p.1 / w := by
  obtain ⟨K, low, high, rfl⟩ := (mem_cut some_len).mp member
  have some_piece := piece_pos wide some_len low high
  have bottom := piece_low w off K
  have top := piece_high w off len K
  have first : off ≤ start w off K := Nat.le_max_left ..
  have last : stop w off len K ≤ off + len := Nat.min_le_left ..
  simp only [piece]
  refine ⟨by omega, first, by omega, ?_⟩
  rw [block_unique (K := K) (x := start w off K) (by omega) (by omega),
    block_unique (K := K) (by omega) (by omega)]

/-- A part starts where the interval does or where a block does. -/
theorem cut_first (some_len : 0 < len) {p : Nat × Nat} (member : p ∈ cut w off len) : p.1 = off ∨ w ∣ p.1 := by
  obtain ⟨K, _, _, rfl⟩ := (mem_cut some_len).mp member
  simp only [piece, start]
  rcases Nat.le_total off (K * w) with le | le
  · exact .inr (by rw [Nat.max_eq_right le]; exact Nat.dvd_mul_left w K)
  · exact .inl (Nat.max_eq_left le)

/-- The parts are of the blocks that the interval meets, one of each. -/
theorem cut_blocks (wide : 0 < w) (some_len : 0 < len) :
    (cut w off len).map (fun p => p.1 / w) = List.range' (off / w) (blocks w off len) := by
  rw [cut, List.map_map]
  conv_rhs => rw [← List.map_id (List.range' (off / w) (blocks w off len))]
  refine List.map_congr_left fun K member => ?_
  obtain ⟨low, high⟩ := (mem_blocks some_len).mp member
  have some_piece := piece_pos wide some_len low high
  have bottom := piece_low w off K
  have top := piece_high w off len K
  show start w off K / w = K
  exact block_unique bottom (by omega)

/-- Each part starts where the one before it ends. -/
theorem cut_adjacent (wide : 0 < w) (some_len : 0 < len) : (cut w off len).IsChain fun p q => q.1 = p.1 + p.2 := by
  rw [cut, List.isChain_map, List.isChain_iff_getElem]
  intro i inside
  rw [List.length_range', blocks] at inside
  have low : off / w ≤ off / w + i := Nat.le_add_right ..
  have high : off / w + i < (off + len - 1) / w := by omega
  have some_piece := piece_pos wide some_len low (Nat.le_of_lt high)
  have joined := (stop_start wide low high).1
  simp only [List.getElem_range', piece, Nat.one_mul, ← Nat.add_assoc]
  omega

/-- Every position of the interval is in a part. -/
theorem cut_covers (wide : 0 < w) (some_len : 0 < len) {x : Nat} (low : off ≤ x) (high : x < off + len) :
    ∃ p ∈ cut w off len, p.1 ≤ x ∧ x < p.1 + p.2 := by
  have member : x ∈ (cut w off len).flatMap fun p => List.range' p.1 p.2 := by
    rw [cut_positions wide off some_len]
    exact List.mem_range'_1.mpr ⟨low, high⟩
  obtain ⟨p, part, inside⟩ := List.mem_flatMap.mp member
  exact ⟨p, part, List.mem_range'_1.mp inside⟩

/-- The blocks of the parts in the first `n + 1` wide blocks are those of the
    interval up to the end of the last one. -/
theorem blocks_upto {d : Nat} (wide : 0 < w) (some_d : 0 < d) (some_len : 0 < len) (n : Nat)
    (inside : off / (w * d) + n ≤ (off + len - 1) / (w * d)) :
    (((List.range' (off / (w * d)) (n + 1)).map (piece (w * d) off len)).map fun p => blocks w p.1 p.2).sum =
      (stop (w * d) off len (off / (w * d) + n) - 1) / w + 1 - off / w := by
  have wider := Nat.mul_pos wide some_d
  induction n with
  | zero =>
    have some_piece := piece_pos wider some_len (Nat.le_refl _) (block_order (w * d) off some_len)
    rw [start_first] at some_piece
    rw [Nat.zero_add, List.range'_one]
    simp only [List.map_cons, List.map_nil, List.sum_cons, List.sum_nil, piece, start_first, blocks, Nat.add_zero]
    rw [Nat.add_sub_cancel' (Nat.le_of_lt some_piece)]
  | succ n ih =>
    obtain ⟨joined, edge⟩ : stop (w * d) off len (off / (w * d) + n) = start (w * d) off (off / (w * d) + n + 1) ∧
        start (w * d) off (off / (w * d) + n + 1) = (off / (w * d) + n + 1) * (w * d) :=
      stop_start wider (by omega) (by omega)
    have before : start (w * d) off (off / (w * d) + n) < stop (w * d) off len (off / (w * d) + n) :=
      piece_pos wider some_len (by omega) (by omega)
    have after : start (w * d) off (off / (w * d) + n + 1) < stop (w * d) off len (off / (w * d) + n + 1) :=
      piece_pos wider some_len (by omega) (by omega)
    have first : off ≤ start (w * d) off (off / (w * d) + n) := Nat.le_max_left ..
    rw [List.range'_1_concat, List.map_append, List.map_append, List.sum_append, ih (by omega)]
    simp only [List.map_cons, List.map_nil, List.sum_cons, List.sum_nil, piece, ← Nat.add_assoc, Nat.add_zero, blocks]
    -- A wide block ends where a block does.
    generalize off / (w * d) + n + 1 = K at *
    have multiple : K * (w * d) = K * d * w := by rw [Nat.mul_comm w d, Nat.mul_assoc]
    have whole : (K * d * w - 1) / w + 1 = K * d := by
      obtain ⟨m, eq⟩ : ∃ m, K * d = m + 1 := ⟨K * d - 1, by
        have : K * d ≠ 0 := by
          intro zero
          rw [multiple, zero] at edge
          omega
        omega⟩
      rw [eq, Nat.succ_mul]
      congr 1
      exact block_unique (by omega) (by omega)
    have low : off / w ≤ K * d := by
      rw [← Nat.mul_div_cancel (K * d) wide, ← multiple, ← edge]
      exact Nat.div_le_div_right (by omega)
    have high : K * d ≤ (stop (w * d) off len K - 1) / w := by
      rw [← Nat.mul_div_cancel (K * d) wide, ← multiple, ← edge]
      exact Nat.div_le_div_right (by omega)
    rw [joined, edge, multiple, Nat.mul_div_cancel _ wide, whole,
      show K * d * w + (stop (w * d) off len K - K * d * w) - 1 = stop (w * d) off len K - 1 by
        rw [← multiple, ← edge]; omega]
    omega

/-- Cutting at the multiples of a width and then at those of a divisor of it
    meets the blocks that one cut meets. -/
theorem cut_blocks_total {d : Nat} (wide : 0 < w) (some_d : 0 < d) (some_len : 0 < len) :
    ((cut (w * d) off len).map fun p => blocks w p.1 p.2).sum = blocks w off len := by
  have wider := Nat.mul_pos wide some_d
  have order := block_order (w * d) off some_len
  have count : blocks (w * d) off len = ((off + len - 1) / (w * d) - off / (w * d)) + 1 := by unfold blocks; omega
  have reach : off / (w * d) + ((off + len - 1) / (w * d) - off / (w * d)) = (off + len - 1) / (w * d) := by omega
  rw [cut, count, blocks_upto wide some_d some_len _ (by omega), reach, stop_last wider off some_len]
  rfl

end
end Straid.Cuts
