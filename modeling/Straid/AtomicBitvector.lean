import Straid.BitmapFlush

/-!
The bits of the bitmap of blocks in the words of `atomic_bitvector.hpp`. Each of
`set`, `reset` and `test` is one access of one word; a change of a bit changes no
other bit of its word (`bit_update`), and what a call returns is the bit as it was.
So the words keep the bits of `BlkBitmap` (`change_holds`).
-/
namespace Straid.AtomicBitvector
open Metadata BitmapFlush

def blockIndex (bit : Nat) : Nat := bit / kBitsPerBlock

def bitOffset (bit : Nat) : Nat := bit % kBitsPerBlock

/-- `kOne << bitOffset(idx)`. -/
def mask (idx : Nat) : BitVec kBitsPerBlock := BitVec.twoPow kBitsPerBlock (bitOffset idx)

/-- `atomic_bv_t`. -/
structure AtomicBv where
  size : Nat
  data_ : Nat → BitVec kBitsPerBlock

namespace AtomicBv

/-- The constructor. -/
def fresh (N : Nat) : AtomicBv := ⟨N, fun _ => 0⟩

/-- A word after `fetch_or` or `fetch_and`. -/
def update (bv : AtomicBv) (idx : Nat) (word : BitVec kBitsPerBlock) : AtomicBv :=
  { bv with data_ := Function.update bv.data_ (blockIndex idx) word }

/-- `set(idx)`: the bit as it was. There is no result when the assertion fails. -/
def set (bv : AtomicBv) (idx : Nat) : Option (Bool × AtomicBv) :=
  if idx < bv.size then
    let word := bv.data_ (blockIndex idx)
    some (word &&& mask idx != 0, bv.update idx (word ||| mask idx))
  else none

def reset (bv : AtomicBv) (idx : Nat) : Option (Bool × AtomicBv) :=
  if idx < bv.size then
    let word := bv.data_ (blockIndex idx)
    some (word &&& mask idx != 0, bv.update idx (word &&& ~~~mask idx))
  else none

/-- `set(idx, value)`. -/
def set_value (bv : AtomicBv) (idx : Nat) (value : Bool) : Option (Bool × AtomicBv) :=
  if value then bv.set idx else bv.reset idx

def test (bv : AtomicBv) (idx : Nat) : Option Bool :=
  if idx < bv.size then some (bv.data_ (blockIndex idx) &&& mask idx != 0) else none

/-- A bit of a word. -/
def bit (bv : AtomicBv) (idx : Nat) : Bool := (bv.data_ (blockIndex idx)).getLsbD (bitOffset idx)

end AtomicBv

/-- The change of the words by `BLK_Bitmap::set` or `reset`. -/
def change (bv : AtomicBv) : BitOp → Option AtomicBv
  | .set idx value => if idx ≥ bv.size then some bv else (bv.set_value idx value).map Prod.snd
  | .reset idx => if idx ≥ bv.size then some bv else (bv.reset idx).map Prod.snd

/-! ### Bits of a word -/

theorem bitOffset_lt (idx : Nat) : bitOffset idx < kBitsPerBlock := Nat.mod_lt _ (by decide)

theorem same_bit {i j : Nat} : i = j ↔ blockIndex i = blockIndex j ∧ bitOffset i = bitOffset j := by
  unfold blockIndex bitOffset kBitsPerBlock
  omega

theorem getLsbD_mask (idx i : Nat) : (mask idx).getLsbD i = decide (i = bitOffset idx) := by
  rw [mask, BitVec.getLsbD_twoPow, decide_eq_true (bitOffset_lt idx), Bool.true_and]
  exact decide_eq_decide.mpr eq_comm

/-- `word & mask` is not zero exactly when the bit is set. -/
theorem and_mask (word : BitVec kBitsPerBlock) (idx : Nat) :
    (word &&& mask idx != 0) = word.getLsbD (bitOffset idx) := by
  have single : word &&& mask idx = if word.getLsbD (bitOffset idx) then mask idx else 0 := BitVec.and_twoPow ..
  have some_bit : mask idx ≠ 0 := by
    intro zero
    have own := getLsbD_mask idx (bitOffset idx)
    rw [zero] at own
    simp at own
  rw [single]
  cases word.getLsbD (bitOffset idx) with
  | true => simpa using some_bit
  | false => simp

/-- A call changes its bit and no other one, of its word or of another. -/
theorem bit_update (bv : AtomicBv) (idx : Nat) {word : BitVec kBitsPerBlock} {value : Bool}
    (own : word.getLsbD (bitOffset idx) = value)
    (others : ∀ i < kBitsPerBlock, i ≠ bitOffset idx → word.getLsbD i = (bv.data_ (blockIndex idx)).getLsbD i) (i : Nat) :
    (bv.update idx word).bit i = Function.update bv.bit idx value i := by
  show (Function.update bv.data_ (blockIndex idx) word (blockIndex i)).getLsbD (bitOffset i) = _
  by_cases same : i = idx
  · subst same
    rw [Function.update_self, Function.update_self, own]
  · rw [Function.update_of_ne same]
    by_cases block : blockIndex i = blockIndex idx
    · have other : bitOffset i ≠ bitOffset idx := fun offset => same (same_bit.mpr ⟨block, offset⟩)
      rw [block, Function.update_self, others _ (bitOffset_lt i) other, AtomicBv.bit, block]
    · rw [Function.update_of_ne block, AtomicBv.bit]

theorem set_spec {bv : AtomicBv} {idx : Nat} (inside : idx < bv.size) : ∃ after, bv.set idx = some (bv.bit idx, after) ∧
    after.size = bv.size ∧ ∀ i, after.bit i = Function.update bv.bit idx true i := by
  have call : bv.set idx = some (bv.bit idx, bv.update idx (bv.data_ (blockIndex idx) ||| mask idx)) := by
    simp only [AtomicBv.set, if_pos inside, and_mask]
    rfl
  refine ⟨_, call, rfl, bit_update bv idx ?_ ?_⟩
  · rw [BitVec.getLsbD_or, getLsbD_mask]
    simp
  · intro i _ other
    rw [BitVec.getLsbD_or, getLsbD_mask]
    simp [other]

theorem reset_spec {bv : AtomicBv} {idx : Nat} (inside : idx < bv.size) :
    ∃ after, bv.reset idx = some (bv.bit idx, after) ∧ after.size = bv.size ∧
      ∀ i, after.bit i = Function.update bv.bit idx false i := by
  have call : bv.reset idx = some (bv.bit idx, bv.update idx (bv.data_ (blockIndex idx) &&& ~~~mask idx)) := by
    simp only [AtomicBv.reset, if_pos inside, and_mask]
    rfl
  refine ⟨_, call, rfl, bit_update bv idx ?_ ?_⟩
  · rw [BitVec.getLsbD_and, BitVec.getLsbD_not, getLsbD_mask]
    simp
  · intro i lt other
    rw [BitVec.getLsbD_and, BitVec.getLsbD_not, getLsbD_mask]
    simp [other, lt]

theorem set_value_spec {bv : AtomicBv} {idx : Nat} (inside : idx < bv.size) (value : Bool) :
    ∃ after, bv.set_value idx value = some (bv.bit idx, after) ∧ after.size = bv.size ∧
      ∀ i, after.bit i = Function.update bv.bit idx value i := by
  cases value with
  | true => exact set_spec inside
  | false => exact reset_spec inside

theorem test_eq {bv : AtomicBv} {idx : Nat} (inside : idx < bv.size) : bv.test idx = some (bv.bit idx) := by
  rw [AtomicBv.test, if_pos inside, and_mask]
  rfl

theorem fresh_bit (N i : Nat) : (AtomicBv.fresh N).bit i = false := BitVec.getLsbD_zero

/-! ### The bitmap of blocks -/

/-- The words have the bits of the bitmap. -/
structure Holds (bv : AtomicBv) (b : BlkBitmap) : Prop where
  size : bv.size = b.size
  bits : ∀ i, bv.bit i = b.bits i

theorem fresh_holds (max_bitnum Factor : Nat) : Holds (AtomicBv.fresh max_bitnum) (BitmapFlush.fresh max_bitnum Factor) :=
  ⟨rfl, fresh_bit max_bitnum⟩

/-- A change of the words is the change of the bitmap; no assertion fails. -/
theorem change_holds {bv : AtomicBv} {b : BlkBitmap} (holds : Holds bv b) (op : BitOp) :
    ∃ after, change bv op = some after ∧ Holds after (BitOp.apply b op) := by
  by_cases out : op.idx ≥ b.size
  · rw [apply_outside out]
    refine ⟨bv, ?_, holds⟩
    cases op with
    | set idx value => exact if_pos (holds.size ▸ out)
    | reset idx => exact if_pos (holds.size ▸ out)
  · have inside : op.idx < bv.size := holds.size ▸ Nat.lt_of_not_le out
    have bits : bv.bit = b.bits := funext holds.bits
    cases op with
    | set idx value =>
      obtain ⟨after, call, size, changed⟩ := set_value_spec inside value
      refine ⟨after, (if_neg (Nat.not_le_of_lt inside)).trans (congrArg (Option.map Prod.snd) call), ?_⟩
      rw [show BitOp.apply b (.set idx value) = _ from if_neg out]
      exact ⟨size.trans holds.size, bits ▸ changed⟩
    | reset idx =>
      obtain ⟨after, call, size, changed⟩ := reset_spec inside
      refine ⟨after, (if_neg (Nat.not_le_of_lt inside)).trans (congrArg (Option.map Prod.snd) call), ?_⟩
      rw [show BitOp.apply b (.reset idx) = _ from if_neg out]
      exact ⟨size.trans holds.size, bits ▸ changed⟩

end Straid.AtomicBitvector
