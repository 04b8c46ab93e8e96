import Straid.EcEncoder

/-!
The second parity as a sum. Multiplication by the generator is linear
(`gf_mul2_xor`), so the second parity of a family of bytes is the sum of its
values, each multiplied by the power of its index (`qSyndrome_eq`); a family with
one or two values that are not zero has a short sum (`qSyndrome_one`,
`qSyndrome_two`). The first 127 powers are distinct (`powers_inj`), more than two
indices of data chunks add up to.
-/
namespace Straid.Syndromes
open EcEncoder XorSums

theorem gf_mul2_zero : gf_mul2 0 = 0 := by decide

/-- Multiplication by the generator distributes over sums. -/
theorem gf_mul2_xor (a b : Byte) : gf_mul2 (a ^^^ b) = gf_mul2 a ^^^ gf_mul2 b := by
  have shifted : (a ^^^ b) <<< 1 = (a <<< 1) ^^^ (b <<< 1) := BitVec.shiftLeft_xor_distrib ..
  have reduced : ∀ s t : Bool, (if (s ^^ t) = true then 0x1d else 0 : Byte) =
      (if s = true then 0x1d else 0) ^^^ (if t = true then 0x1d else 0) := by decide
  unfold gf_mul2
  rw [shifted, BitVec.msb_xor, reduced]
  ac_rfl

theorem gf_mul2_sum (xs : List Byte) : gf_mul2 (xorSum xs) = xorSum (xs.map gf_mul2) := by
  induction xs with
  | nil => exact gf_mul2_zero
  | cons x xs ih => rw [xorSum_cons, gf_mul2_xor, ih, List.map_cons, xorSum_cons]

theorem power_zero (i : Nat) : gf_mul2^[i] 0 = 0 := Function.iterate_fixed gf_mul2_zero i

theorem qSyndrome_cons (b : Byte) (bytes : List Byte) : qSyndrome (b :: bytes) = b ^^^ gf_mul2 (qSyndrome bytes) := rfl

/-- The second parity is the sum of the bytes, each multiplied by the power of
    its index. -/
theorem qSyndrome_eq (f : Nat → Byte) (n : Nat) :
    qSyndrome ((List.range n).map f) = xorSum ((List.range n).map fun i => gf_mul2^[i] (f i)) := by
  induction n generalizing f with
  | zero => rfl
  | succ n ih =>
    rw [List.range_succ_eq_map, List.map_cons, List.map_map, qSyndrome_cons, ih (f ∘ Nat.succ), gf_mul2_sum,
      List.map_cons, xorSum_cons, List.map_map, List.map_map]
    congr 2
    refine List.map_congr_left fun i _ => ?_
    exact (Function.iterate_succ_apply' gf_mul2 i (f (i + 1))).symm

theorem qSyndrome_one {f : Nat → Byte} {n k : Nat} (lt : k < n) (others : ∀ j < n, j ≠ k → f j = 0) :
    qSyndrome ((List.range n).map f) = gf_mul2^[k] (f k) := by
  rw [qSyndrome_eq]
  apply xorSum_one List.nodup_range (List.mem_range.mpr lt)
  intro j member other
  rw [others j (List.mem_range.mp member) other, power_zero]

theorem qSyndrome_two {f : Nat → Byte} {n k l : Nat} (first : k < n) (second : l < n) (apart : l ≠ k)
    (others : ∀ j < n, j ≠ k → j ≠ l → f j = 0) :
    qSyndrome ((List.range n).map f) = gf_mul2^[k] (f k) ^^^ gf_mul2^[l] (f l) := by
  rw [qSyndrome_eq]
  apply xorSum_two List.nodup_range (List.mem_range.mpr first) (List.mem_range.mpr second) apart
  intro j member other different
  rw [others j (List.mem_range.mp member) other different, power_zero]

/-- The powers of the generator below 127 are distinct. -/
theorem powers_inj {a b : Nat} (la : a < 127) (lb : b < 127) (same : gf_mul2^[a] 1 = gf_mul2^[b] 1) : a = b := by
  have distinct : ((List.range 127).map fun i => gf_mul2^[i] 1).Nodup := by decide +kernel
  exact List.inj_on_of_nodup_map distinct (List.mem_range.mpr la) (List.mem_range.mpr lb) same

end Straid.Syndromes
