import Straid.Cuts
import Straid.Metadata

/-!
How requests are split (`storageMod.cc`): into stripes (`split_stripe_aligned`),
a piece of one stripe into device requests (`split_chunk2dio`), a read into
chunks (`split_schunk`) and a write into blocks of the bitmap (`split_block`).
Each loop of the code is a recursion on the number of rounds left. The first two
cut a request at the multiples of a width, the size of a stripe and of a chunk:
`split_stripe_aligned_eq` and `split_chunk2dio_eq` say so, and everything else
about them follows from `Straid.Cuts`. The loop over the stripes counts in an
`int`. It makes the rounds of `split_stripe_aligned` and ends as long as the last
stripe is not the largest `int` (`split_stripe_aligned_loop_eq`), so for every
request inside the user space (`split_stripe_aligned_loop_valid`).
-/
namespace Straid.Split
open LogFiles Metadata Cuts

variable (g : Geometry)

/-! ### The loops of the code -/

/-- The rounds of the loop of `split_stripe_aligned`, from stripe `i` on. -/
def stripe_pieces (usr_id : Nat) (iswrite : Bool) : Nat → Int → Nat → Nat → Nat → List UioInfo
  | 0, _, _, _, _ => []
  | n + 1, i, start_off, start_buf, remain_len =>
    let this_stripe_eoff := u64 (stripe2useroff g i + g.SSTRIPE_DATASIZE)
    let this_stripe_len := u64_sub this_stripe_eoff start_off
    let stripe_len := if remain_len > this_stripe_len then this_stripe_len else remain_len
    ⟨usr_id, iswrite, start_buf, start_off, stripe_len⟩ ::
      stripe_pieces usr_id iswrite n (i + 1) (u64 (start_off + this_stripe_len)) (start_buf + this_stripe_len)
        (u64_sub remain_len this_stripe_len)

/-- `split_stripe_aligned`, with a round for each stripe from the first one to the
    last. -/
def split_stripe_aligned (uio : UioInfo) : List UioInfo :=
  let start_stripeid := (user2dev g uio.user_offset).stripeid
  let end_stripeid := (user2dev g (u64_sub (u64 (uio.user_offset + uio.length)) 1)).stripeid
  stripe_pieces g uio.user_id uio.is_write (end_stripeid + 1 - start_stripeid).toNat start_stripeid
    uio.user_offset uio.buf uio.length

/-- The loop of `split_stripe_aligned` with its test, for the number of tests that
    it may make: `none` when it goes on after them. Its variable is an `int`, and
    after the largest one comes the smallest. -/
def stripe_loop (usr_id : Nat) (iswrite : Bool) (end_stripeid : Int) : Nat → Int → Nat → Nat → Nat → Option (List UioInfo)
  | 0, _, _, _, _ => none
  | n + 1, i, start_off, start_buf, remain_len =>
    if i ≤ end_stripeid then
      let this_stripe_eoff := u64 (stripe2useroff g i + g.SSTRIPE_DATASIZE)
      let this_stripe_len := u64_sub this_stripe_eoff start_off
      let stripe_len := if remain_len > this_stripe_len then this_stripe_len else remain_len
      (stripe_loop usr_id iswrite end_stripeid n (Int.bmod (i + 1) (2 ^ 32)) (u64 (start_off + this_stripe_len))
        (start_buf + this_stripe_len) (u64_sub remain_len this_stripe_len)).map
          (⟨usr_id, iswrite, start_buf, start_off, stripe_len⟩ :: ·)
    else some []

/-- `split_stripe_aligned` with the test of its loop. -/
def split_stripe_aligned_loop (tests : Nat) (uio : UioInfo) : Option (List UioInfo) :=
  let start_stripeid := (user2dev g uio.user_offset).stripeid
  let end_stripeid := (user2dev g (u64_sub (u64 (uio.user_offset + uio.length)) 1)).stripeid
  stripe_loop g uio.user_id uio.is_write end_stripeid tests start_stripeid uio.user_offset uio.buf uio.length

/-- The loop of `split_chunk2dio`, from device position `i` on. -/
def chunk_dios (buf stripe_soff : Nat) (s_chunkpos : Int) : Nat → Nat → Nat → Nat → Nat → List DioInfo
  | 0, _, _, _, _ => []
  | n + 1, i, start_buf, start_off, remain_len =>
    let dev_offset := (user2dev g start_off).converted_offset
    let distance := logical_distance s_chunkpos (toInt i) g.NUM_DEVFILES
    let this_chunk_eoff := u64 (stripe_soff + ofInt (g.SCHUNK_SIZE * (distance + 1)))
    let this_chunk_len := u64_sub this_chunk_eoff start_off
    let length := if remain_len > this_chunk_len then this_chunk_len else remain_len
    let dev_id := if i ≥ g.NUM_DEVFILES then toInt (i - g.NUM_DEVFILES) else toInt i
    ⟨dev_id, buf + start_buf, dev_offset, length, 0⟩ ::
      chunk_dios buf stripe_soff s_chunkpos n (i + 1) (u64 (start_buf + length)) (u64 (start_off + this_chunk_len))
        (u64_sub remain_len this_chunk_len)

def split_chunk2dio (uio : UioInfo) : Option (List DioInfo) :=
  let first := user2dev g uio.user_offset
  let last := user2dev g (u64_sub (u64 (uio.user_offset + uio.length)) 1)
  if first.stripeid ≠ last.stripeid then none
  else
    let end_chunkpos := if last.devid < first.devid then last.devid + g.NUM_DEVFILES else last.devid
    some (chunk_dios g uio.buf (stripe2useroff g first.stripeid) (stripe2datapos g first.stripeid)
      (ofInt end_chunkpos + 1 - ofInt first.devid) (ofInt first.devid) 0 uio.user_offset uio.length)

/-- The inner loop of `split_schunk`. Only the first branch moves on. -/
def read_pieces (usr_id : Nat) (iswrite : Bool) : Nat → Nat → Nat → Nat → List UioInfo
  | 0, _, _, _ => []
  | n + 1, start_off, start_buf, remain_len =>
    if remain_len > g.SCHUNK_SIZE then
      ⟨usr_id, iswrite, start_buf, start_off, g.SCHUNK_SIZE⟩ ::
        read_pieces usr_id iswrite n (u64 (start_off + g.SCHUNK_SIZE)) (start_buf + g.SCHUNK_SIZE)
          (u64_sub remain_len g.SCHUNK_SIZE)
    else
      ⟨usr_id, iswrite, start_buf, start_off, remain_len⟩ ::
        read_pieces usr_id iswrite n start_off start_buf remain_len

/-- One round of the outer loop of `split_schunk`, for one piece of
    `split_stripe_aligned`. -/
def split_schunk_stripe (uio piece : UioInfo) : List UioInfo :=
  let s_chunkpos := (user2dev g piece.user_offset).devid
  let e_chunkpos := (user2dev g (u64_sub (u64 (piece.user_offset + piece.length)) 1)).devid
  let e_chunkpos := if e_chunkpos < s_chunkpos then e_chunkpos + g.NUM_DEVFILES else e_chunkpos
  read_pieces g uio.user_id uio.is_write (ofInt e_chunkpos + 1 - ofInt s_chunkpos) piece.user_offset piece.buf
    piece.length

def split_schunk (uio : UioInfo) : List UioInfo :=
  (split_stripe_aligned g uio).flatMap (split_schunk_stripe g uio)

/-- `split_block`, as the offsets of the blocks; their lengths are `BLK_SIZE`. -/
def split_block (uio : UioInfo) : List Nat :=
  let start_off := if uio.user_offset % BLK_SIZE ≠ 0 then uio.user_offset - uio.user_offset % BLK_SIZE
    else uio.user_offset
  let total_length := if uio.length % BLK_SIZE ≠ 0 then u64 (uio.length + (BLK_SIZE - uio.length % BLK_SIZE))
    else uio.length
  (List.range (total_length / BLK_SIZE)).map (fun i => u64 (start_off + i * BLK_SIZE))

/-- The number of chunks that a request touches. -/
def touched_chunks (uio : UioInfo) : Nat := blocks g.SCHUNK_SIZE uio.user_offset uio.length

variable {g}

/-! ### Splitting into stripes -/

/-- The piece of a request that `split_stripe_aligned` makes of one part. -/
def pieceOf (uio : UioInfo) (p : Nat × Nat) : UioInfo :=
  ⟨uio.user_id, uio.is_write, uio.buf + (p.1 - uio.user_offset), p.1, p.2⟩

theorem last_byte {off len : Nat} (positive : 0 < len) (fits : off + len ≤ 2 ^ 64) :
    u64_sub (u64 (off + len)) 1 = off + len - 1 := by
  unfold u64_sub u64
  omega

/-- The loop, from the part of stripe `K` on. -/
theorem stripe_pieces_eq {uio : UioInfo} (positive : 0 < uio.length) (short : uio.length < 2 ^ 64)
    (fits : uio.user_offset + uio.length ≤ 2 ^ 64) (n K : Nat) (low : uio.user_offset / g.SSTRIPE_DATASIZE ≤ K)
    (count : K + n = (uio.user_offset + uio.length - 1) / g.SSTRIPE_DATASIZE + 1) :
    stripe_pieces g uio.user_id uio.is_write n K (start g.SSTRIPE_DATASIZE uio.user_offset K)
        (uio.buf + (start g.SSTRIPE_DATASIZE uio.user_offset K - uio.user_offset))
        (uio.user_offset + uio.length - start g.SSTRIPE_DATASIZE uio.user_offset K) =
      (List.range' K n).map (fun i => pieceOf uio (piece g.SSTRIPE_DATASIZE uio.user_offset uio.length i)) := by
  induction n generalizing K with
  | zero => rfl
  | succ n ih =>
    have wide := g.stripe_pos
    have small := g.stripe_small
    have first := piece_low g.SSTRIPE_DATASIZE uio.user_offset K
    have inside : start g.SSTRIPE_DATASIZE uio.user_offset K < stop g.SSTRIPE_DATASIZE uio.user_offset uio.length K :=
      piece_pos wide positive low (by omega)
    -- The code reaches the end of the stripe although it computes modulo `2 ^ 64`.
    have this_len : u64_sub (u64 (stripe2useroff g (K : Int) + g.SSTRIPE_DATASIZE))
        (start g.SSTRIPE_DATASIZE uio.user_offset K) =
          K * g.SSTRIPE_DATASIZE + g.SSTRIPE_DATASIZE - start g.SSTRIPE_DATASIZE uio.user_offset K := by
      have product : (K : Int) * (g.SSTRIPE_DATASIZE : Nat) = ((K * g.SSTRIPE_DATASIZE : Nat) : Int) := by push_cast; rfl
      unfold stripe2useroff ofInt u64_sub u64 stop at *
      rw [product]
      omega
    rw [stripe_pieces, this_len, shorter_rest, List.range'_succ, List.map_cons]
    congr 1
    cases n with
    | zero => rfl
    | succ n =>
      -- Not the last stripe: the next part starts at the end of this stripe.
      have next : stop g.SSTRIPE_DATASIZE uio.user_offset uio.length K = start g.SSTRIPE_DATASIZE uio.user_offset (K + 1) ∧
          start g.SSTRIPE_DATASIZE uio.user_offset (K + 1) = (K + 1) * g.SSTRIPE_DATASIZE :=
        stop_start wide low (by omega)
      have later : start g.SSTRIPE_DATASIZE uio.user_offset (K + 1) < stop g.SSTRIPE_DATASIZE uio.user_offset uio.length (K + 1) :=
        piece_pos wide positive (by omega) (by omega)
      have request : uio.user_offset ≤ start g.SSTRIPE_DATASIZE uio.user_offset K := Nat.le_max_left ..
      have reach : stop g.SSTRIPE_DATASIZE uio.user_offset uio.length (K + 1) ≤ uio.user_offset + uio.length :=
        Nat.min_le_left ..
      rw [← ih (K + 1) (by omega) (by omega)]
      rw [Nat.succ_mul] at next
      congr 1
      · unfold u64; omega
      · omega
      · rw [u64_sub_small] <;> omega

/-- The number of rounds, as the code counts them. -/
theorem stripe_rounds {off len : Nat} (some_len : 0 < len) : ((((off + len - 1) / g.SSTRIPE_DATASIZE : Nat) : Int) + 1 -
    ((off / g.SSTRIPE_DATASIZE : Nat) : Int)).toNat = blocks g.SSTRIPE_DATASIZE off len := by
  have order := block_order g.SSTRIPE_DATASIZE off some_len
  unfold blocks
  omega

/-- `split_stripe_aligned` cuts a request at the multiples of the stripe size. -/
theorem split_stripe_aligned_eq {uio : UioInfo} (positive : 0 < uio.length) (short : uio.length < 2 ^ 64)
    (fits : uio.user_offset + uio.length ≤ 2 ^ 64) (int : user2stripe g (uio.user_offset + uio.length - 1) < 2 ^ 31) :
    split_stripe_aligned g uio = (cut g.SSTRIPE_DATASIZE uio.user_offset uio.length).map (pieceOf uio) := by
  have order := block_order g.SSTRIPE_DATASIZE uio.user_offset positive
  rw [user2stripe_eq] at int
  unfold split_stripe_aligned
  rw [last_byte positive fits, user2dev_eq (by omega) (by rw [user2stripe_eq]; omega),
    user2dev_eq (by omega) (by rw [user2stripe_eq]; omega)]
  simp only [user2stripe_eq]
  have loop := stripe_pieces_eq positive short fits (blocks g.SSTRIPE_DATASIZE uio.user_offset uio.length)
    (uio.user_offset / g.SSTRIPE_DATASIZE) (Nat.le_refl _) (by unfold blocks; omega)
  rw [start_first] at loop
  simp only [Nat.sub_self, Nat.add_zero, Nat.add_sub_cancel_left] at loop
  rw [stripe_rounds positive, loop, cut, List.map_map]
  rfl

/-- Below the largest `int`, the loop makes a round for each stripe that is left
    and ends. -/
theorem stripe_loop_eq {usr_id : Nat} {iswrite : Bool} {last : Nat} (int : last < 2 ^ 31 - 1) {n K tests : Nat}
    (count : K + n = last + 1) (enough : n < tests) (start_off start_buf remain_len : Nat) :
    stripe_loop g usr_id iswrite last tests K start_off start_buf remain_len =
      some (stripe_pieces g usr_id iswrite n K start_off start_buf remain_len) := by
  induction n generalizing K tests start_off start_buf remain_len with
  | zero =>
    obtain ⟨tests, rfl⟩ := Nat.exists_eq_succ_of_ne_zero (show tests ≠ 0 by omega)
    rw [stripe_loop, if_neg (by omega), stripe_pieces]
  | succ n ih =>
    obtain ⟨tests, rfl⟩ := Nat.exists_eq_succ_of_ne_zero (show tests ≠ 0 by omega)
    have next : Int.bmod ((K : Int) + 1) (2 ^ 32) = ((K + 1 : Nat) : Int) := by
      rw [Int.bmod_def]
      split <;> omega
    rw [stripe_loop, if_pos (by omega), next]
    dsimp only
    rw [ih (K := K + 1) (by omega) (by omega), Option.map_some, stripe_pieces, Nat.cast_succ]

/-- A loop to the largest `int` does not end. -/
theorem stripe_loop_endless (usr_id : Nat) (iswrite : Bool) (tests : Nat) {i : Int} (int : i ≤ 2 ^ 31 - 1)
    (start_off start_buf remain_len : Nat) :
    stripe_loop g usr_id iswrite (2 ^ 31 - 1) tests i start_off start_buf remain_len = none := by
  induction tests generalizing i start_off start_buf remain_len with
  | zero => rfl
  | succ tests ih =>
    have again : Int.bmod (i + 1) (2 ^ 32) ≤ 2 ^ 31 - 1 := by
      have := Int.bmod_lt (x := i + 1) (m := 2 ^ 32) (by decide)
      omega
    rw [stripe_loop, if_pos int, Option.map_eq_none_iff]
    exact ih again ..

/-- The loop ends with the pieces of `split_stripe_aligned`, after one test more
    than there are stripes. -/
theorem split_stripe_aligned_loop_eq {uio : UioInfo} (positive : 0 < uio.length) (short : uio.length < 2 ^ 64)
    (fits : uio.user_offset + uio.length ≤ 2 ^ 64) (int : user2stripe g (uio.user_offset + uio.length - 1) < 2 ^ 31 - 1)
    {tests : Nat} (enough : blocks g.SSTRIPE_DATASIZE uio.user_offset uio.length < tests) :
    split_stripe_aligned_loop g tests uio = some (split_stripe_aligned g uio) := by
  have order := block_order g.SSTRIPE_DATASIZE uio.user_offset positive
  rw [user2stripe_eq] at int
  rw [split_stripe_aligned_loop, split_stripe_aligned, last_byte positive fits,
    user2dev_eq (by omega) (by rw [user2stripe_eq]; omega), user2dev_eq (by omega) (by rw [user2stripe_eq]; omega)]
  simp only [user2stripe_eq]
  rw [stripe_rounds positive]
  exact stripe_loop_eq int (by unfold blocks; omega) enough ..

/-! ### Splitting into chunks -/

/-- The device request that `split_chunk2dio` makes of one part. -/
def dioOf (uio : UioInfo) (p : Nat × Nat) : DioInfo :=
  ⟨devOf g p.1, uio.buf + (p.1 - uio.user_offset), devoffOf g p.1, p.2, 0⟩

/-- The loop variable of `split_chunk2dio` at chunk `c` of stripe `s`, when the
    loop starts at chunk `a`: how far it is from the first data chunk, and the
    device it stands for. -/
theorem chunk_position {s a c : Nat} (le : a ≤ c) (lt : c < g.DATACHUNK_NUM) :
    logical_distance (stripe2datapos g s) ((dataDev g s a + (c - a) : Nat) : Int) g.NUM_DEVFILES = c ∧
      (if dataDev g s a + (c - a) ≥ g.NUM_DEVFILES then dataDev g s a + (c - a) - g.NUM_DEVFILES
        else dataDev g s a + (c - a)) = dataDev g s c := by
  have data := g.data_lt_devices
  have low := Nat.mod_lt s g.devices_pos
  rw [stripe2datapos_eq]
  unfold dataDev logical_distance
  rw [← wrap_mod (by omega : a < g.NUM_DEVFILES), ← wrap_mod (by omega : c < g.NUM_DEVFILES)]
  generalize s % g.NUM_DEVFILES = r at low ⊢
  constructor
  · split <;> split <;> omega
  · split <;> split <;> split <;> omega

/-- The end of chunk `c` of stripe `s`, as the code computes it modulo `2 ^ 64`
    from the start of the stripe, is the right one to measure from a position in
    the chunk. -/
theorem chunk_end {s c x : Nat} (lt : c < g.DATACHUNK_NUM)
    (low : (s * g.DATACHUNK_NUM + c) * g.SCHUNK_SIZE ≤ x)
    (high : x < (s * g.DATACHUNK_NUM + c) * g.SCHUNK_SIZE + g.SCHUNK_SIZE) :
    u64_sub (u64 (stripe2useroff g s + ofInt (g.SCHUNK_SIZE * ((c : Int) + 1)))) x =
      (s * g.DATACHUNK_NUM + c) * g.SCHUNK_SIZE + g.SCHUNK_SIZE - x := by
  have small := g.chunk_int
  have data := g.stripe_small
  have upto : c * g.SCHUNK_SIZE + g.SCHUNK_SIZE ≤ g.SSTRIPE_DATASIZE := by
    have := Nat.mul_le_mul_right g.SCHUNK_SIZE lt
    rw [g.stripe_size]
    rwa [Nat.succ_mul] at this
  have start : (s : Int) * (g.SSTRIPE_DATASIZE : Nat) = ((s * g.SSTRIPE_DATASIZE : Nat) : Int) := by push_cast; rfl
  have part : (g.SCHUNK_SIZE : Int) * ((c : Int) + 1) = ((c * g.SCHUNK_SIZE + g.SCHUNK_SIZE : Nat) : Int) := by
    push_cast
    ring
  have chunk : (s * g.DATACHUNK_NUM + c) * g.SCHUNK_SIZE = s * g.SSTRIPE_DATASIZE + c * g.SCHUNK_SIZE := by
    rw [g.stripe_size]
    ring
  rw [chunk] at low high ⊢
  unfold stripe2useroff ofInt u64_sub u64
  rw [start, part]
  omega

theorem start_chunk (off len K : Nat) (inside : start g.SCHUNK_SIZE off K < stop g.SCHUNK_SIZE off len K) :
    start g.SCHUNK_SIZE off K / g.SCHUNK_SIZE = K := by
  have := piece_low g.SCHUNK_SIZE off K
  have := piece_high g.SCHUNK_SIZE off len K
  exact block_unique (by omega) (by omega)

theorem chunk_place {s c x : Nat} (lt : c < g.DATACHUNK_NUM) (chunk : x / g.SCHUNK_SIZE = s * g.DATACHUNK_NUM + c) :
    user2stripe g x = s ∧ chunkOf g x = c ∧ devOf g x = dataDev g s c := by
  have stripe : user2stripe g x = s := by
    unfold user2stripe
    rw [chunk, Nat.add_comm, Nat.add_mul_div_right _ _ g.data_pos, Nat.div_eq_of_lt lt, Nat.zero_add]
  have inside : chunkOf g x = c := by
    unfold chunkOf
    rw [chunk, Nat.add_comm, Nat.add_mul_mod_self_right, Nat.mod_eq_of_lt lt]
  exact ⟨stripe, inside, by unfold devOf; rw [stripe, inside]⟩

/-- The loop, from chunk `c` of stripe `s` on, for a request that starts in chunk
    `a` of the stripe and ends in chunk `b`. -/
theorem chunk_dios_eq {uio : UioInfo} (positive : 0 < uio.length) (short : uio.length < 2 ^ 64)
    (fits : uio.user_offset + uio.length ≤ 2 ^ 64) {s a b : Nat} (int : s < 2 ^ 31) (inside : b < g.DATACHUNK_NUM)
    (first : uio.user_offset / g.SCHUNK_SIZE = s * g.DATACHUNK_NUM + a)
    (last : (uio.user_offset + uio.length - 1) / g.SCHUNK_SIZE = s * g.DATACHUNK_NUM + b) (n c : Nat)
    (low : a ≤ c) (count : c + n = b + 1) :
    chunk_dios g uio.buf (stripe2useroff g s) (stripe2datapos g s) n (dataDev g s a + (c - a))
        (start g.SCHUNK_SIZE uio.user_offset (s * g.DATACHUNK_NUM + c) - uio.user_offset)
        (start g.SCHUNK_SIZE uio.user_offset (s * g.DATACHUNK_NUM + c))
        (uio.user_offset + uio.length - start g.SCHUNK_SIZE uio.user_offset (s * g.DATACHUNK_NUM + c)) =
      (List.range' (s * g.DATACHUNK_NUM + c) n).map
        (fun i => dioOf (g := g) uio (piece g.SCHUNK_SIZE uio.user_offset uio.length i)) := by
  induction n generalizing c with
  | zero => rfl
  | succ n ih =>
    have lt : c < g.DATACHUNK_NUM := by omega
    have devices := g.devices_small
    have request : uio.user_offset ≤ start g.SCHUNK_SIZE uio.user_offset (s * g.DATACHUNK_NUM + c) := Nat.le_max_left ..
    have bottom := piece_low g.SCHUNK_SIZE uio.user_offset (s * g.DATACHUNK_NUM + c)
    have top := piece_high g.SCHUNK_SIZE uio.user_offset uio.length (s * g.DATACHUNK_NUM + c)
    have below : stop g.SCHUNK_SIZE uio.user_offset uio.length (s * g.DATACHUNK_NUM + c) ≤
      uio.user_offset + uio.length := Nat.min_le_left ..
    have some_piece : start g.SCHUNK_SIZE uio.user_offset (s * g.DATACHUNK_NUM + c) <
        stop g.SCHUNK_SIZE uio.user_offset uio.length (s * g.DATACHUNK_NUM + c) :=
      piece_pos g.chunk_pos positive (by omega) (by omega)
    obtain ⟨user, _, device⟩ := chunk_place lt (start_chunk uio.user_offset uio.length _ some_piece)
    obtain ⟨distance, position⟩ := chunk_position (g := g) (s := s) low lt
    have start_device : dataDev g s a < g.NUM_DEVFILES := dataDev_lt ..
    have many := g.data_lt_devices
    have this_len := chunk_end lt bottom (by omega)
    have variable_int : ∀ i, i ≤ dataDev g s a + (c - a) → toInt i = i := fun i le => toInt_small (by omega)
    have dev_id : (if dataDev g s a + (c - a) ≥ g.NUM_DEVFILES then toInt (dataDev g s a + (c - a) - g.NUM_DEVFILES)
        else toInt (dataDev g s a + (c - a))) = (dataDev g s c : Int) := by
      rw [← position, variable_int _ (Nat.le_refl _), variable_int _ (Nat.sub_le _ _)]
      split <;> rfl
    rw [chunk_dios, dev_id, variable_int _ (Nat.le_refl _), distance, this_len, shorter_rest,
      user2dev_eq (by omega) (by rw [user]; exact int), List.range'_succ, List.map_cons]
    congr 1
    · simp only [dioOf, piece, device]
    · cases n with
      | zero => rfl
      | succ n =>
        -- Not the last chunk: the next part starts at the end of this chunk.
        have next : stop g.SCHUNK_SIZE uio.user_offset uio.length (s * g.DATACHUNK_NUM + c) =
              start g.SCHUNK_SIZE uio.user_offset (s * g.DATACHUNK_NUM + c + 1) ∧
            start g.SCHUNK_SIZE uio.user_offset (s * g.DATACHUNK_NUM + c + 1) =
              (s * g.DATACHUNK_NUM + c + 1) * g.SCHUNK_SIZE :=
          stop_start g.chunk_pos (by omega) (by omega)
        have later : start g.SCHUNK_SIZE uio.user_offset (s * g.DATACHUNK_NUM + c + 1) <
            stop g.SCHUNK_SIZE uio.user_offset uio.length (s * g.DATACHUNK_NUM + c + 1) :=
          piece_pos g.chunk_pos positive (by omega) (by omega)
        have reach : stop g.SCHUNK_SIZE uio.user_offset uio.length (s * g.DATACHUNK_NUM + c + 1) ≤
            uio.user_offset + uio.length := Nat.min_le_left ..
        have tail := ih (c + 1) (by omega) (by omega)
        rw [← Nat.add_assoc] at tail
        rw [← tail]
        rw [Nat.succ_mul] at next
        congr 1
        · omega
        · unfold u64; omega
        · unfold u64; omega
        · rw [u64_sub_small] <;> omega

/-- The loops over device positions of a request inside one stripe have a round
    for every chunk that the request meets. -/
theorem device_rounds {off len : Nat} (positive : 0 < len) (one : user2stripe g (off + len - 1) = user2stripe g off) :
    ofInt (if ((devOf g (off + len - 1) : Nat) : Int) < ((devOf g off : Nat) : Int) then
        ((devOf g (off + len - 1) : Nat) : Int) + (g.NUM_DEVFILES : Nat) else ((devOf g (off + len - 1) : Nat) : Int)) +
        1 - ofInt ((devOf g off : Nat) : Int) = blocks g.SCHUNK_SIZE off len := by
  have order := block_order g.SCHUNK_SIZE off positive
  have chunk_first := chunk_split (g := g) off
  have chunk_last := chunk_split (g := g) (off + len - 1)
  have lt_last := chunkOf_lt (g := g) (off + len - 1)
  unfold devOf blocks
  rw [one] at chunk_last ⊢
  have position := (chunk_position (g := g) (s := user2stripe g off) (a := chunkOf g off) (by omega) lt_last).2
  have low := dataDev_lt (g := g) (user2stripe g off) (chunkOf g off)
  have devices := g.devices_small
  have data := g.data_lt_devices
  unfold ofInt
  split at position <;> split <;> omega

theorem split_chunk2dio_eq {uio : UioInfo} (positive : 0 < uio.length) (short : uio.length < 2 ^ 64)
    (fits : uio.user_offset + uio.length ≤ 2 ^ 64) (int : user2stripe g uio.user_offset < 2 ^ 31)
    (one : user2stripe g (uio.user_offset + uio.length - 1) = user2stripe g uio.user_offset) :
    split_chunk2dio g uio =
      some ((cut g.SCHUNK_SIZE uio.user_offset uio.length).map (dioOf (g := g) uio)) := by
  have order := block_order g.SCHUNK_SIZE uio.user_offset positive
  have chunk_first := chunk_split (g := g) uio.user_offset
  have chunk_last := chunk_split (g := g) (uio.user_offset + uio.length - 1)
  have lt_last := chunkOf_lt (g := g) (uio.user_offset + uio.length - 1)
  have low := dataDev_lt (g := g) (user2stripe g uio.user_offset) (chunkOf g uio.user_offset)
  have devices := g.devices_small
  have loop := chunk_dios_eq positive short fits int lt_last chunk_first.symm (by rw [← one]; exact chunk_last.symm)
    (blocks g.SCHUNK_SIZE uio.user_offset uio.length) (chunkOf g uio.user_offset) (Nat.le_refl _)
    (by unfold blocks; rw [one] at chunk_last; omega)
  rw [chunk_first, start_first] at loop
  simp only [Nat.sub_self, Nat.add_zero, Nat.add_sub_cancel_left] at loop
  unfold split_chunk2dio
  rw [last_byte positive fits, user2dev_eq (by omega) int, user2dev_eq (by omega) (by rw [one]; exact int)]
  simp only [one, ne_eq, not_true_eq_false, ↓reduceIte, Option.some.injEq]
  rw [device_rounds positive one, ofInt_small (by unfold devOf; omega), cut, List.map_map]
  exact loop

/-! ### Pieces of a request -/

/-- A request that `raid_write` takes: valid, and inside one stripe. -/
@[mk_iff]
structure OneStripe (g : Geometry) (uio : UioInfo) : Prop extends uio.Valid g where
  one : user2stripe g (uio.user_offset + uio.length - 1) = user2stripe g uio.user_offset

instance (uio : UioInfo) : Decidable (OneStripe g uio) := decidable_of_iff' _ (oneStripe_iff g uio)

theorem split_stripe_aligned_valid {uio : UioInfo} (valid : uio.Valid g) : split_stripe_aligned g uio =
    (cut g.SSTRIPE_DATASIZE uio.user_offset uio.length).map (pieceOf uio) := by
  have user := valid.user
  have signed := g.user_signed
  have positive := valid.positive
  exact split_stripe_aligned_eq positive (by omega) (by omega) (table_bounds (user_entry (by omega))).1

/-- The loop ends for every valid request. -/
theorem split_stripe_aligned_loop_valid {uio : UioInfo} (valid : uio.Valid g) {tests : Nat}
    (enough : blocks g.SSTRIPE_DATASIZE uio.user_offset uio.length < tests) :
    split_stripe_aligned_loop g tests uio = some (split_stripe_aligned g uio) := by
  have user := valid.user
  have signed := g.user_signed
  have positive := valid.positive
  have stripes := g.stripes_int
  rw [← Geometry.SSTRIPE_DATASIZE] at stripes
  refine split_stripe_aligned_loop_eq positive (by omega) (by omega) ?_ enough
  have := Nat.div_le_div_right (c := g.SSTRIPE_DATASIZE) (show uio.user_offset + uio.length - 1 ≤ g.USER_SPACE_LEN by omega)
  rw [user2stripe_eq]
  omega

theorem pieceOf_oneStripe {uio : UioInfo} (valid : uio.Valid g) {p : Nat × Nat}
    (member : p ∈ cut g.SSTRIPE_DATASIZE uio.user_offset uio.length) : OneStripe g (pieceOf uio p) := by
  have user := valid.user
  have buffer := valid.buffer
  obtain ⟨some_piece, low, high, one⟩ := cut_inside g.stripe_pos valid.positive member
  exact {
    thread := valid.thread
    buffer := by simp only [pieceOf]; omega
    positive := some_piece
    user := by simp only [pieceOf]; omega
    one := by simp only [pieceOf, user2stripe_eq, one] }

theorem piece_oneStripe {uio piece : UioInfo} (valid : uio.Valid g) (member : piece ∈ split_stripe_aligned g uio) :
    OneStripe g piece := by
  rw [split_stripe_aligned_valid valid] at member
  obtain ⟨p, there, rfl⟩ := List.mem_map.mp member
  exact pieceOf_oneStripe valid there

theorem read_pieces_length (usr_id : Nat) (iswrite : Bool) (n start_off start_buf remain_len : Nat) :
    (read_pieces g usr_id iswrite n start_off start_buf remain_len).length = n := by
  induction n generalizing start_off start_buf remain_len with
  | zero => rfl
  | succ n ih =>
    rw [read_pieces]
    split <;> rw [List.length_cons, ih]

/-- A read has a part for each chunk that it touches. -/
theorem split_schunk_length {uio : UioInfo} (valid : uio.Valid g) : (split_schunk g uio).length = touched_chunks g uio := by
  have user := valid.user
  have signed := g.user_signed
  have rounds : ∀ p ∈ cut g.SSTRIPE_DATASIZE uio.user_offset uio.length,
      (split_schunk_stripe g uio (pieceOf uio p)).length = blocks g.SCHUNK_SIZE p.1 p.2 := by
    intro p member
    obtain ⟨some_piece, low, high, stripe⟩ := cut_inside g.stripe_pos valid.positive member
    have one : user2stripe g (p.1 + p.2 - 1) = user2stripe g p.1 := by rw [user2stripe_eq, user2stripe_eq, stripe]
    have last : u64_sub (u64 (p.1 + p.2)) 1 = p.1 + p.2 - 1 := last_byte some_piece (by omega)
    have at_first := user2dev_user (g := g) (x := p.1) (by omega)
    have at_last := user2dev_user (g := g) (x := p.1 + p.2 - 1) (by omega)
    simp only [split_schunk_stripe, pieceOf, last, at_first, at_last, device_rounds some_piece one, read_pieces_length]
  rw [split_schunk, split_stripe_aligned_valid valid, List.flatMap_map, List.length_flatMap, List.map_congr_left rounds]
  exact cut_blocks_total g.chunk_pos g.data_pos valid.positive

/-- The device requests of a piece. -/
def piece_dios (g : Geometry) (uio : UioInfo) : List DioInfo :=
  (cut g.SCHUNK_SIZE uio.user_offset uio.length).map (dioOf (g := g) uio)

theorem split_chunk2dio_piece {uio : UioInfo} (piece : OneStripe g uio) :
    split_chunk2dio g uio = some (piece_dios g uio) := by
  have user := piece.user
  have signed := g.user_signed
  have positive := piece.positive
  exact split_chunk2dio_eq positive (by omega) (by omega) (table_bounds (user_entry (by omega))).1 piece.one

theorem chunk_places {β : Type*} (F : Nat → Nat → Nat → β) {off : Nat} {r : Nat × Nat} (low : off ≤ r.1)
    (one : (r.1 + r.2 - 1) / g.SCHUNK_SIZE = r.1 / g.SCHUNK_SIZE) :
    ((List.range r.2).map fun i => F (devOf g r.1) (devoffOf g r.1 + i) (r.1 - off + i)) =
      (List.range' r.1 r.2).map fun x => F (devOf g x) (devoffOf g x) (x - off) := by
  rw [List.range'_eq_map_range, List.map_map]
  refine List.map_congr_left fun i member => ?_
  rw [List.mem_range] at member
  have between : (r.1 + i) / g.SCHUNK_SIZE = r.1 / g.SCHUNK_SIZE := by
    have low : r.1 / g.SCHUNK_SIZE ≤ (r.1 + i) / g.SCHUNK_SIZE := Nat.div_le_div_right (by omega)
    have high : (r.1 + i) / g.SCHUNK_SIZE ≤ (r.1 + r.2 - 1) / g.SCHUNK_SIZE := Nat.div_le_div_right (by omega)
    omega
  obtain ⟨device, offset⟩ := same_chunk (g := g) (Nat.le_add_right r.1 i) between
  simp only [Function.comp_apply, device, offset]
  rw [Nat.add_sub_cancel_left, Nat.sub_add_comm low]

end Straid.Split
