import Straid.EcEncoder
import Straid.Metadata
import Straid.Rings

/-!
The thread that persists the bitmap of blocks (`BLK_Bitmap::bitmap_run`). The
bits are in the words of a vector, eight to a byte. A pass flushes the parts with
changes, each as if it had eight bytes for every bit, and from the address of the
vector instead of that of its words: no part is flushed right
(`flush_not_exact`), so a pass writes the bitmap back exactly when there is
nothing to write (`writes_back_iff`).
-/
namespace Straid.BitmapFlush
open Metadata EcEncoder Overlays Rings

/-- The constructor of `BLK_Bitmap`. -/
def fresh (max_bitnum Factor : Nat) : BlkBitmap := ⟨max_bitnum, Factor, fun _ => false, fun _ => 0⟩

def Part_cnt (b : BlkBitmap) : Nat := b.size / b.Part_bitnum + 1

/-- A change of a bit. -/
inductive BitOp
  | set (idx : Nat) (value : Bool)
  | reset (idx : Nat)
  deriving DecidableEq, Repr

def BitOp.idx : BitOp → Nat
  | .set idx _ => idx
  | .reset idx => idx

def BitOp.apply (b : BlkBitmap) : BitOp → BlkBitmap
  | .set idx value => b.set idx value
  | .reset idx => b.reset idx

def run_ops (ops : List BitOp) (b : BlkBitmap) : BlkBitmap := ops.foldl BitOp.apply b

/-! ### The storage -/

/-- The bytes and the bits of a word of `data_`. -/
def sizeof_block : Nat := 8
def kBitsPerBlock : Nat := 64

/-- The number of words of `data_`. -/
def kNumBlocks (b : BlkBitmap) : Nat := (b.size + kBitsPerBlock - 1) / kBitsPerBlock

/-- A bit in a place where bytes are stored from an address on. Words are stored
    with their low byte first. -/
def stored_bit (bytes : Nat → Byte) (address i : Nat) : Bool := (bytes (address + i / 8)).getLsbD (i % 8)

/-- The memory with the bitmap: the address of the vector `data_`, that of its
    words, and the bytes. -/
structure Memory (b : BlkBitmap) where
  object : Nat
  data : Nat
  bytes : Buf
  holds : ∀ i < b.size, stored_bit bytes data i = b.bits i

/-! ### The pass -/

/-- A write to the store that a pass prepares. -/
structure Flush where
  buf : Nat
  offset : Nat
  length : Nat
  deriving DecidableEq, Repr

/-- `Flush_TH`, in nanoseconds. -/
def Flush_TH : Nat := 100 * 1000

/-- The write of a part, with the vector at `object`. -/
def part_flush (b : BlkBitmap) (object store_offset part : Nat) : Flush :=
  let off := u64 (part * b.Part_bitnum * sizeof_block)
  ⟨object + off, u64 (store_offset + off), u64 (b.Part_bitnum * sizeof_block)⟩

/-- The loop of a pass over parts: the writes, and the bitmap with the counts
    set back. `time` is since the last flush of each part, `flushed` the number
    of entries of the ring that are prepared. -/
def flush_parts (object store_offset : Nat) (time : Nat → Nat) :
    List Nat → Nat → BlkBitmap → Option (List Flush × BlkBitmap)
  | [], _, b => some ([], b)
  | part :: parts, flushed, b =>
    if b.v_updated_cnt part > 0 ∧ time part ≥ Flush_TH then
      match io_uring_get_sqe flushed with
      | none => none
      | some flushed =>
        let after := { b with v_updated_cnt := Function.update b.v_updated_cnt part 0 }
        (flush_parts object store_offset time parts flushed after).map fun result =>
          (part_flush b object store_offset part :: result.1, result.2)
    else flush_parts object store_offset time parts flushed b

/-- A pass of `bitmap_run`. -/
def bitmap_run (b : BlkBitmap) (object store_offset : Nat) (time : Nat → Nat) : Option (List Flush × BlkBitmap) :=
  flush_parts object store_offset time (List.range (Part_cnt b)) 0 b

/-- The store after the writes of a pass. -/
def written (bytes : Buf) (flushes : List Flush) (store : Nat → Byte) : Nat → Byte :=
  flushes.foldl (fun store f => overlay store f.offset f.length (shift bytes f.buf)) store

/-! ### What a pass is for -/

variable {b : BlkBitmap}

/-- A write is of the bytes with the bits of a part, to the same place in the
    store, and of the words of the bitmap only. -/
structure Exact (mem : Memory b) (store_offset part : Nat) (f : Flush) : Prop where
  bytes : ∀ a, f.buf ≤ a ∧ a < f.buf + f.length ↔
    ∃ i, part * b.Part_bitnum ≤ i ∧ i < (part + 1) * b.Part_bitnum ∧ i < b.size ∧ a = mem.data + i / 8
  position : f.offset + mem.data = store_offset + f.buf
  inside : mem.data ≤ f.buf ∧ f.buf + f.length ≤ mem.data + kNumBlocks b * sizeof_block

/-- A pass answers, it flushes each part with changes as it should and nothing
    else, and if the store has the bits of the other parts, it has all bits after
    the pass. -/
structure WritesBack (mem : Memory b) (store_offset : Nat) (time : Nat → Nat) (store : Nat → Byte)
    (flushes : List Flush) (after : BlkBitmap) : Prop where
  answers : bitmap_run b mem.object store_offset time = some (flushes, after)
  each : ∀ part < Part_cnt b, 0 < b.v_updated_cnt part → ∃ f ∈ flushes, Exact mem store_offset part f
  only : ∀ f ∈ flushes, ∃ part < Part_cnt b, 0 < b.v_updated_cnt part ∧ Exact mem store_offset part f
  persisted : (∀ i < b.size, b.v_updated_cnt (i / b.Part_bitnum) = 0 → stored_bit store store_offset i = b.bits i) →
    ∀ i < b.size, stored_bit (written mem.bytes flushes store) store_offset i = b.bits i

/-! ### Changes -/

theorem apply_frame (b : BlkBitmap) (op : BitOp) :
    (BitOp.apply b op).size = b.size ∧ (BitOp.apply b op).Part_bitnum = b.Part_bitnum := by
  cases op with
  | set idx value =>
    simp only [BitOp.apply, BlkBitmap.set]
    split <;> exact ⟨rfl, rfl⟩
  | reset idx =>
    simp only [BitOp.apply, BlkBitmap.reset]
    split <;> exact ⟨rfl, rfl⟩

theorem apply_outside {op : BitOp} (out : b.size ≤ op.idx) : BitOp.apply b op = b := by
  cases op with
  | set idx value => exact if_pos out
  | reset idx => exact if_pos out

/-- A change counts for its part, and none counts down. -/
theorem apply_count (b : BlkBitmap) (op : BitOp) (part : Nat) : (BitOp.apply b op).v_updated_cnt part =
    b.v_updated_cnt part + if op.idx < b.size ∧ part = op.idx / b.Part_bitnum then 1 else 0 := by
  by_cases out : b.size ≤ op.idx
  · rw [apply_outside out, if_neg (by omega), Nat.add_zero]
  · have counted : (BitOp.apply b op).v_updated_cnt = Function.update b.v_updated_cnt (op.idx / b.Part_bitnum)
        (b.v_updated_cnt (op.idx / b.Part_bitnum) + 1) := by
      cases op with
      | set idx value => exact congrArg BlkBitmap.v_updated_cnt (if_neg out)
      | reset idx => exact congrArg BlkBitmap.v_updated_cnt (if_neg out)
    rw [counted]
    by_cases same : part = op.idx / b.Part_bitnum
    · rw [if_pos ⟨by omega, same⟩, same, Function.update_self]
    · rw [if_neg (fun own => same own.2), Function.update_of_ne same, Nat.add_zero]

theorem run_ops_frame (ops : List BitOp) (b : BlkBitmap) :
    (run_ops ops b).size = b.size ∧ (run_ops ops b).Part_bitnum = b.Part_bitnum := by
  induction ops generalizing b with
  | nil => exact ⟨rfl, rfl⟩
  | cons op ops ih =>
    obtain ⟨size, parts⟩ := ih (BitOp.apply b op)
    obtain ⟨size', parts'⟩ := apply_frame b op
    exact ⟨size.trans size', parts.trans parts'⟩

/-- A part has changes when it had some, or one of the operations is on a bit in
    it. -/
theorem run_ops_dirty (ops : List BitOp) (b : BlkBitmap) (part : Nat) : 0 < (run_ops ops b).v_updated_cnt part ↔
    0 < b.v_updated_cnt part ∨ ∃ op ∈ ops, op.idx < b.size ∧ part = op.idx / b.Part_bitnum := by
  induction ops generalizing b with
  | nil => simp [run_ops]
  | cons op ops ih =>
    obtain ⟨size, parts⟩ := apply_frame b op
    have rest := ih (BitOp.apply b op)
    rw [size, parts, apply_count] at rest
    rw [List.exists_mem_cons_iff, ← or_assoc]
    refine rest.trans (or_congr_left ?_)
    split <;> simp_all

/-! ### Passes -/

/-- Every write of a pass has eight bytes for each bit of a part. -/
theorem flush_parts_length {object store_offset : Nat} {time : Nat → Nat} {parts : List Nat} {flushed : Nat}
    {flushes : List Flush} {after : BlkBitmap}
    (answer : flush_parts object store_offset time parts flushed b = some (flushes, after)) :
    ∀ f ∈ flushes, f.length = u64 (b.Part_bitnum * sizeof_block) := by
  induction parts generalizing flushed b flushes with
  | nil =>
    rw [flush_parts, Option.some.injEq, Prod.mk.injEq] at answer
    rw [← answer.1]
    exact fun f member => absurd member List.not_mem_nil
  | cons part parts ih =>
    rw [flush_parts] at answer
    split at answer
    · cases room : io_uring_get_sqe flushed with
      | none =>
        simp only [room] at answer
        cases answer
      | some entries =>
        simp only [room, Option.map_eq_some_iff, Prod.mk.injEq] at answer
        obtain ⟨⟨rest, last⟩, answer, rfl, rfl⟩ := answer
        intro f member
        rcases List.mem_cons.mp member with rfl | later
        · rfl
        · exact ih answer f later
    · exact ih answer

/-- A pass over parts without changes writes nothing. -/
theorem flush_parts_clean (object store_offset : Nat) (time : Nat → Nat) (parts : List Nat) (flushed : Nat)
    (clean : ∀ part, b.v_updated_cnt part = 0) :
    flush_parts object store_offset time parts flushed b = some ([], b) := by
  induction parts with
  | nil => rfl
  | cons part parts ih =>
    rw [flush_parts, if_neg (fun due => by have := clean part; omega)]
    exact ih

/-- No write with eight bytes for every bit of a part is of the bytes with its
    bits. -/
theorem flush_not_exact {mem : Memory b} (some_bits : 0 < b.Part_bitnum) {store_offset part : Nat} {f : Flush}
    (eightfold : f.length = b.Part_bitnum * 8) : ¬ Exact mem store_offset part f := by
  intro exact
  obtain ⟨i, low, _, _, at_first⟩ := (exact.bytes f.buf).mp (by omega)
  obtain ⟨j, _, high, _, at_last⟩ := (exact.bytes (f.buf + f.length - 1)).mp (by omega)
  rw [Nat.succ_mul] at high
  omega

/-- After any changes of a new bitmap, a pass writes the bitmap back exactly when
    all changes were of bits that it does not have, so that no part is due. -/
theorem writes_back_iff {max_bitnum Factor : Nat} (some_bits : 0 < Factor) (small : Factor * sizeof_block < 2 ^ 64)
    (ops : List BitOp) (mem : Memory (run_ops ops (fresh max_bitnum Factor))) (store_offset : Nat)
    (time : Nat → Nat) (store : Nat → Byte) :
    (∃ flushes after, WritesBack mem store_offset time store flushes after) ↔ ∀ op ∈ ops, max_bitnum ≤ op.idx := by
  obtain ⟨size, parts⟩ := run_ops_frame ops (fresh max_bitnum Factor)
  have dirty := run_ops_dirty ops (fresh max_bitnum Factor)
  constructor
  · rintro ⟨flushes, after, answers, each, _, _⟩ op member
    by_contra inside
    have part : op.idx / Factor < Part_cnt (run_ops ops (fresh max_bitnum Factor)) := by
      rw [Part_cnt, size, parts]
      exact Nat.lt_succ_of_le (Nat.div_le_div_right (by show op.idx ≤ max_bitnum; omega))
    have changed := (dirty (op.idx / Factor)).mpr (.inr ⟨op, member, Nat.lt_of_not_le inside, rfl⟩)
    obtain ⟨f, made, exact⟩ := each _ part changed
    have length := flush_parts_length answers f made
    rw [parts] at length
    exact flush_not_exact (by rw [parts]; exact some_bits) (by rw [parts]; exact length.trans (u64_small small)) exact
  · intro outside
    have clean : ∀ part, (run_ops ops (fresh max_bitnum Factor)).v_updated_cnt part = 0 := by
      intro part
      by_contra changed
      rcases (dirty part).mp (Nat.pos_of_ne_zero changed) with before | ⟨op, member, inside, _⟩
      · exact absurd before (Nat.lt_irrefl 0)
      · exact absurd (outside op member) (Nat.not_le_of_lt inside)
    refine ⟨[], _, flush_parts_clean _ _ _ _ _ clean, ?_, ?_, fun stored i inside => stored i inside (clean _)⟩
    · intro part _ changed
      rw [clean part] at changed
      exact absurd changed (Nat.lt_irrefl 0)
    · exact fun f member => absurd member List.not_mem_nil

/-- The memory of a bitmap of one word with the first bit set, and zeros where the
    vector is. -/
def one_bit : Memory (run_ops [.set 0 true] (fresh 64 1024)) where
  object := 0
  data := 65536
  bytes := fun a => if a = 65536 then 1 else 0
  holds := by decide

/-- Changes of bits behind the end change nothing. -/
theorem writes_back_nothing : ∃ flushes after, WritesBack (b := run_ops [.reset 64, .set 4096 true] (fresh 64 1024))
    ⟨0, 65536, fun _ => 0, by decide⟩ 512 (fun _ => 200000) (fun _ => 0) flushes after :=
  (writes_back_iff (by decide) (by decide) _ _ _ _ _).mpr (by decide)

/-- The bits are in 8 bytes, from 65536 on. The pass writes 8192 bytes from 0 on,
    and the bit that is set is not set in the store. -/
theorem bit_lost : ∃ after, bitmap_run (run_ops [.set 0 true] (fresh 64 1024)) one_bit.object 512 (fun _ => 200000) =
      some ([⟨0, 512, 8192⟩], after) ∧
    (¬ ∃ flushes after, WritesBack one_bit 512 (fun _ => 200000) (fun _ => 0) flushes after) ∧
    (run_ops [.set 0 true] (fresh 64 1024)).bits 0 = true ∧
    stored_bit (written one_bit.bytes [⟨0, 512, 8192⟩] fun _ => 0) 512 0 = false := by
  have pass : (bitmap_run (run_ops [.set 0 true] (fresh 64 1024)) one_bit.object 512 fun _ => 200000).map Prod.fst =
      some [⟨0, 512, 8192⟩] := by decide +kernel
  obtain ⟨⟨flushes, after⟩, answers, rfl⟩ := Option.map_eq_some_iff.mp pass
  refine ⟨after, answers, ?_, by decide, by decide +kernel⟩
  rintro ⟨flushes', after', writes⟩
  obtain ⟨rfl, _⟩ := Prod.mk.inj (Option.some.inj (answers.symm.trans writes.answers))
  obtain ⟨f, made, exact⟩ := writes.each 0 (by decide) (by decide)
  rw [List.mem_singleton.mp made] at exact
  exact absurd exact.inside.1 (by decide)

end Straid.BitmapFlush
