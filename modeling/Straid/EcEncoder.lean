import Straid.Define
import Straid.Overlays
import Straid.XorSums

/-!
The erasure coding of `ecEncoder.h`. The library that does the arithmetic is not
part of the code: `Isal` is what its documentation says of the two functions
that are called, over the contents of the vectors at the call.
-/
namespace Straid.EcEncoder
open Overlays XorSums

/-! ### The coding library -/

/-- Multiplication by the generator of the field of 256 elements that the
    second parity uses. -/
def gf_mul2 (b : Byte) : Byte := (b <<< 1) ^^^ (if b.msb then 0x1d else 0)

/-- The second parity of the bytes of the data chunks at one position: the sum
    of the bytes, each multiplied by a power of the generator. -/
def qSyndrome (bytes : List Byte) : Byte := bytes.foldr (fun b sum => b ^^^ gf_mul2 sum) 0

/-- The two functions of the library. `xor_gen vects len` is the last vector
    after the call, `pq_gen vects len` the last two. -/
structure Isal where
  xor_gen : List Buf → Nat → Buf
  pq_gen : List Buf → Nat → Buf × Buf
  /-- The last vector is the exclusive or of the others. -/
  xor_gen_spec : ∀ (sources : List Buf) (dest : Buf) (len i : Nat), 2 ≤ sources.length →
    xor_gen (sources ++ [dest]) len i = if i < len then xorSum (sources.map (· i)) else dest i
  /-- The last two vectors are the two parities of the others. -/
  pq_gen_spec : ∀ (sources : List Buf) (p q : Buf) (len i : Nat), 2 ≤ sources.length →
    (pq_gen (sources ++ [p, q]) len).1 i = (if i < len then xorSum (sources.map (· i)) else p i) ∧
      (pq_gen (sources ++ [p, q]) len).2 i = (if i < len then qSyndrome (sources.map (· i)) else q i)

/-- A library that does what the documentation says and nothing else. -/
def Isal.reference : Isal where
  xor_gen vects len i := if i < len then xorSum (vects.dropLast.map (· i)) else (vects.getLastD fun _ => 0) i
  pq_gen vects len :=
    (fun i => if i < len then xorSum ((vects.take (vects.length - 2)).map (· i))
      else (vects.getD (vects.length - 2) fun _ => 0) i,
     fun i => if i < len then qSyndrome ((vects.take (vects.length - 2)).map (· i))
      else (vects.getD (vects.length - 1) fun _ => 0) i)
  xor_gen_spec sources dest len i _ := by simp [List.getLastD_eq_getLast?]
  pq_gen_spec sources p q len i _ := by simp

/-! ### The encoder -/

variable (g : Geometry) (isal : Isal)

/-- `do_full_encode`: the parity buffers after the call. -/
def do_full_encode (databufs paritybufs : Nat → Buf) : Nat → Buf :=
  let sources := (List.range g.DATACHUNK_NUM).map databufs
  if g.PARITYCHUNK_NUM = 1 then
    Function.update paritybufs 0 (isal.xor_gen (sources ++ [paritybufs 0]) g.SCHUNK_SIZE)
  else if g.PARITYCHUNK_NUM = 2 then
    let pq := isal.pq_gen (sources ++ [paritybufs 0, paritybufs 1]) g.SCHUNK_SIZE
    Function.update (Function.update paritybufs 0 pq.1) 1 pq.2
  else paritybufs

/-- The buffer from a position on. -/
def shift (b : Buf) (off : Nat) : Buf := fun i => b (off + i)

/-- The loop of `do_part_encode` from update `i` on, on the temporary and the
    parity buffers. With one parity chunk an update out of the chunk ends it,
    with two it fails. -/
def part_encode_loop (oridatabufs newdatabufs : Nat → Buf) :
    List (Nat × Nat) → Nat → (Nat → Buf) → (Nat → Buf) → Option ((Nat → Buf) × (Nat → Buf))
  | [], _, tempbufs, paritybufs => some (tempbufs, paritybufs)
  | (offset, length) :: rest, i, tempbufs, paritybufs =>
    if g.PARITYCHUNK_NUM = 1 then
      if u64 (offset + length) > g.SCHUNK_SIZE then some (tempbufs, paritybufs)
      else
        let temp := isal.xor_gen [oridatabufs i, newdatabufs i, tempbufs i] length
        let sum := isal.xor_gen [temp, shift (paritybufs 0) offset, shift (paritybufs 0) offset] length
        part_encode_loop oridatabufs newdatabufs rest (i + 1) (Function.update tempbufs i temp)
          (Function.update paritybufs 0 (overlay (paritybufs 0) offset length sum))
    else if g.PARITYCHUNK_NUM = 2 then
      if u64 (offset + length) > g.SCHUNK_SIZE then none
      else
        let temp := isal.xor_gen [oridatabufs i, newdatabufs i, tempbufs i] length
        let pq := isal.pq_gen [temp, shift (paritybufs 0) offset, shift (paritybufs 1) offset,
          shift (paritybufs 0) offset, shift (paritybufs 1) offset] length
        part_encode_loop oridatabufs newdatabufs rest (i + 1) (Function.update tempbufs i temp)
          (Function.update (Function.update paritybufs 0 (overlay (paritybufs 0) offset length pq.1)) 1
            (overlay (paritybufs 1) offset length pq.2))
    else some (tempbufs, paritybufs)

/-- `do_part_encode`, for the old and new bytes of the updates at `offsets` with
    `lengths`: the temporary and the parity buffers after the call. -/
def do_part_encode (oridatabufs newdatabufs tempbufs paritybufs : Nat → Buf) (offsets lengths : List Nat) :
    Option ((Nat → Buf) × (Nat → Buf)) :=
  part_encode_loop g isal oridatabufs newdatabufs (offsets.zip lengths) 0 tempbufs paritybufs

variable {g}

/-- A full encoding with one parity chunk leaves in it, at every position, the
    exclusive or of the data chunks. -/
theorem do_full_encode_xor (one : g.PARITYCHUNK_NUM = 1) (databufs paritybufs : Nat → Buf) {i : Nat}
    (inside : i < g.SCHUNK_SIZE) : do_full_encode g isal databufs paritybufs 0 i =
      xorSum ((List.range g.DATACHUNK_NUM).map (fun c => databufs c i)) := by
  have many := g.data_many
  simp only [do_full_encode, one, ↓reduceIte, Function.update_self]
  rw [isal.xor_gen_spec _ _ _ _ (by simp; omega), if_pos inside, List.map_map]
  rfl

/-- A full encoding with two parity chunks leaves in them the exclusive or and
    the second parity of the data chunks. -/
theorem do_full_encode_pq (two : g.PARITYCHUNK_NUM = 2) (databufs paritybufs : Nat → Buf) {i : Nat}
    (inside : i < g.SCHUNK_SIZE) :
    do_full_encode g isal databufs paritybufs 0 i = xorSum ((List.range g.DATACHUNK_NUM).map (fun c => databufs c i)) ∧
      do_full_encode g isal databufs paritybufs 1 i =
        qSyndrome ((List.range g.DATACHUNK_NUM).map (fun c => databufs c i)) := by
  have many := g.data_many
  have spec := isal.pq_gen_spec ((List.range g.DATACHUNK_NUM).map databufs) (paritybufs 0) (paritybufs 1)
    g.SCHUNK_SIZE i (by simp; omega)
  rw [if_pos inside, if_pos inside, List.map_map] at spec
  have other : ¬ g.PARITYCHUNK_NUM = 1 := by omega
  rw [do_full_encode, if_neg other, if_pos two]
  exact ⟨by rw [Function.update_of_ne (by decide), Function.update_self]; exact spec.1,
    by rw [Function.update_self]; exact spec.2⟩

/-- Parity chunk `p` of the bytes of the data chunks at one position. -/
def parity (p : Nat) (bytes : List Byte) : Byte := if p = 0 then xorSum bytes else qSyndrome bytes

theorem do_full_encode_parity (databufs paritybufs : Nat → Buf) {p i : Nat} (chunk : p < g.PARITYCHUNK_NUM)
    (inside : i < g.SCHUNK_SIZE) : do_full_encode g isal databufs paritybufs p i =
      parity p ((List.range g.DATACHUNK_NUM).map (fun c => databufs c i)) := by
  have max := g.parity_max
  have some_parity : g.PARITYCHUNK_NUM = 1 ∨ g.PARITYCHUNK_NUM = 2 := by omega
  rcases some_parity with one | two
  · obtain rfl : p = 0 := by omega
    exact do_full_encode_xor isal one databufs paritybufs inside
  · have both := do_full_encode_pq isal two databufs paritybufs inside
    have number : p = 0 ∨ p = 1 := by omega
    rcases number with rfl | rfl
    · exact both.1
    · exact both.2

theorem part_encode_total (oridatabufs newdatabufs : Nat → Buf) (updates : List (Nat × Nat)) (i : Nat)
    (tempbufs paritybufs : Nat → Buf) (inside : ∀ u ∈ updates, u.1 + u.2 ≤ g.SCHUNK_SIZE) :
    ∃ bufs, part_encode_loop g isal oridatabufs newdatabufs updates i tempbufs paritybufs = some bufs := by
  have small := g.chunk_int
  induction updates generalizing i tempbufs paritybufs with
  | nil => exact ⟨_, rfl⟩
  | cons u rest ih =>
    have here := inside u List.mem_cons_self
    have fits : ¬ u64 (u.1 + u.2) > g.SCHUNK_SIZE := by rw [u64_small (by omega)]; omega
    have tail := fun v member => inside v (List.mem_cons_of_mem _ member)
    simp only [part_encode_loop, fits, ↓reduceIte]
    split
    · exact ih _ _ _ tail
    · split
      · exact ih _ _ _ tail
      · exact ⟨_, rfl⟩

end Straid.EcEncoder
