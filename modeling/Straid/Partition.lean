import Straid.StorageMod
import Mathlib.Data.List.Nodup

/-!
What the splits of `storageMod.cc` are for. The loop of `split_stripe_aligned`
ends with an exact partition of a request into its stripes, unless the last one is
the largest `int` or past it (`split_stripe_aligned_partition`), and the device
requests of `split_chunk2dio` are an exact translation of a piece to device
offsets (`split_chunk2dio_exact`), on every rotation of the stripes whose numbers
an `int` holds. Offsets are the numbers below `2 ^ 64`. The blocks of
`split_block` are those of the piece only when the two roundings do not lose one
(`recorded_iff`).
-/
namespace Straid.Partition
open LogFiles Metadata Split Cuts Encode EcEncoder StorageMod

/-! ### Stripes -/

variable (g : Geometry)

/-- The pieces are a partition of the request into stripes. -/
structure PartitionOf (uio : UioInfo) (pieces : List UioInfo) : Prop where
  ordered : pieces.Pairwise fun p q => user2stripe g p.user_offset < user2stripe g q.user_offset
  touched : ∀ s, s ∈ pieces.map (fun p => user2stripe g p.user_offset) ↔
    ∃ x, uio.user_offset ≤ x ∧ x < uio.user_offset + uio.length ∧ user2stripe g x = s
  nonempty : ∀ p ∈ pieces, 0 < p.length
  one_stripe : ∀ p ∈ pieces, ∀ x, p.user_offset ≤ x → x < p.user_offset + p.length →
    user2stripe g x = user2stripe g p.user_offset
  adjacent : pieces.IsChain fun p q => q.user_offset = p.user_offset + p.length
  joined : pieces.flatMap (fun p => List.range' p.user_offset p.length) = List.range' uio.user_offset uio.length
  buffer : ∀ p ∈ pieces, uio.user_offset ≤ p.user_offset ∧ p.buf = uio.buf + (p.user_offset - uio.user_offset)
  request : ∀ p ∈ pieces, p.user_id = uio.user_id ∧ p.is_write = uio.is_write

variable {g}

/-- The stripes of the pieces are those between the first and the last one. -/
theorem piece_stripes {uio : UioInfo} (positive : 0 < uio.length) :
    ((cut g.SSTRIPE_DATASIZE uio.user_offset uio.length).map (pieceOf uio)).map (fun p => user2stripe g p.user_offset) =
      List.range' (uio.user_offset / g.SSTRIPE_DATASIZE) (blocks g.SSTRIPE_DATASIZE uio.user_offset uio.length) := by
  rw [List.map_map, ← cut_blocks g.stripe_pos positive]
  exact List.map_congr_left fun p _ => user2stripe_eq p.1

/-- A stripe between the first and the last one of a request has a byte of the
    request. -/
theorem stripe_touched {uio : UioInfo} (positive : 0 < uio.length) (s : Nat) :
    s ∈ List.range' (uio.user_offset / g.SSTRIPE_DATASIZE) (blocks g.SSTRIPE_DATASIZE uio.user_offset uio.length) ↔
      ∃ x, uio.user_offset ≤ x ∧ x < uio.user_offset + uio.length ∧ user2stripe g x = s := by
  rw [mem_blocks positive]
  constructor
  · rintro ⟨low, high⟩
    have some_piece := piece_pos g.stripe_pos positive low high
    have bottom := piece_low g.SSTRIPE_DATASIZE uio.user_offset s
    have top := piece_high g.SSTRIPE_DATASIZE uio.user_offset uio.length s
    have first : uio.user_offset ≤ start g.SSTRIPE_DATASIZE uio.user_offset s := Nat.le_max_left ..
    have last : stop g.SSTRIPE_DATASIZE uio.user_offset uio.length s ≤ uio.user_offset + uio.length := Nat.min_le_left ..
    refine ⟨start g.SSTRIPE_DATASIZE uio.user_offset s, first, by omega, ?_⟩
    rw [user2stripe_eq]
    exact block_unique bottom (by omega)
  · rintro ⟨x, low, high, rfl⟩
    rw [user2stripe_eq]
    exact ⟨Nat.div_le_div_right low, Nat.div_le_div_right (by omega)⟩

/-- The pieces of a request are a partition into one for each stripe that it
    touches. The length that is left wraps below zero in the last round, when
    nothing reads it any more. -/
theorem pieces_partition {uio : UioInfo} (positive : 0 < uio.length) (short : uio.length < 2 ^ 64)
    (fits : uio.user_offset + uio.length ≤ 2 ^ 64) (int : user2stripe g (uio.user_offset + uio.length - 1) < 2 ^ 31) :
    PartitionOf g uio (split_stripe_aligned g uio) := by
  rw [split_stripe_aligned_eq positive short fits int]
  have stripes := piece_stripes (g := g) positive
  have inside : ∀ p ∈ (cut g.SSTRIPE_DATASIZE uio.user_offset uio.length).map (pieceOf uio),
      ∃ r ∈ cut g.SSTRIPE_DATASIZE uio.user_offset uio.length, p = pieceOf uio r := by
    intro p member
    obtain ⟨r, part, rfl⟩ := List.mem_map.mp member
    exact ⟨r, part, rfl⟩
  constructor
  · rw [← List.pairwise_map (R := (· < ·)), stripes]
    exact List.pairwise_lt_range'
  · intro s
    rw [stripes]
    exact stripe_touched positive s
  · intro p member
    obtain ⟨r, part, rfl⟩ := inside p member
    exact (cut_inside g.stripe_pos positive part).1
  · intro p member x low high
    obtain ⟨r, part, rfl⟩ := inside p member
    obtain ⟨_, _, _, one⟩ := cut_inside g.stripe_pos positive part
    simp only [pieceOf] at low high ⊢
    rw [user2stripe_eq, user2stripe_eq]
    apply Nat.le_antisymm
    · exact one ▸ Nat.div_le_div_right (by omega)
    · exact Nat.div_le_div_right low
  · rw [List.isChain_map]
    exact cut_adjacent g.stripe_pos positive
  · rw [List.flatMap_map]
    exact cut_positions g.stripe_pos uio.user_offset positive
  · intro p member
    obtain ⟨r, part, rfl⟩ := inside p member
    exact ⟨(cut_inside g.stripe_pos positive part).2.1, rfl⟩
  · intro p member
    obtain ⟨r, _, rfl⟩ := inside p member
    exact ⟨rfl, rfl⟩

/-- The split of a request whose last stripe is below the largest `int` ends, after
    a test of its loop for each stripe and one more, with a partition of the request
    into one piece for each stripe that it touches. -/
theorem split_stripe_aligned_partition {uio : UioInfo} (positive : 0 < uio.length) (short : uio.length < 2 ^ 64)
    (fits : uio.user_offset + uio.length ≤ 2 ^ 64) (int : user2stripe g (uio.user_offset + uio.length - 1) < 2 ^ 31 - 1) :
    ∃ pieces, PartitionOf g uio pieces ∧ ∀ tests, blocks g.SSTRIPE_DATASIZE uio.user_offset uio.length < tests →
      split_stripe_aligned_loop g tests uio = some pieces :=
  ⟨_, pieces_partition positive short fits (by omega), fun _ enough =>
    split_stripe_aligned_loop_eq positive short fits int enough⟩

/-- A request of three stripes that starts and ends inside one. -/
theorem split_stripe_aligned_three : ∃ pieces, PartitionOf defaultGeometry ⟨0, true, 4096, 454656, 921600⟩ pieces ∧
    ∀ tests, blocks defaultGeometry.SSTRIPE_DATASIZE 454656 921600 < tests →
      split_stripe_aligned_loop defaultGeometry tests ⟨0, true, 4096, 454656, 921600⟩ = some pieces :=
  split_stripe_aligned_partition (by decide) (by decide) (by decide) (by decide)

/-- The split of a byte of the stripe with the largest `int` as its number does not
    end. -/
theorem split_stripe_aligned_endless : user2stripe defaultGeometry (985162418028544 + 1 - 1) < 2 ^ 31 ∧
    (∀ tests, split_stripe_aligned_loop defaultGeometry tests ⟨0, true, 4096, 985162418028544, 1⟩ = none) ∧
    ¬ ∃ tests pieces, split_stripe_aligned_loop defaultGeometry tests ⟨0, true, 4096, 985162418028544, 1⟩ = some pieces ∧
      PartitionOf defaultGeometry ⟨0, true, 4096, 985162418028544, 1⟩ pieces := by
  have first : (user2dev defaultGeometry 985162418028544).stripeid = 2 ^ 31 - 1 := by decide
  have last : (user2dev defaultGeometry (u64_sub (u64 (985162418028544 + 1)) 1)).stripeid = 2 ^ 31 - 1 := by decide
  have endless : ∀ tests, split_stripe_aligned_loop defaultGeometry tests ⟨0, true, 4096, 985162418028544, 1⟩ = none := by
    intro tests
    rw [split_stripe_aligned_loop]
    dsimp only
    rw [last, first]
    exact stripe_loop_endless 0 true tests (Int.le_refl _) ..
  refine ⟨by decide, endless, ?_⟩
  rintro ⟨tests, pieces, ends, _⟩
  rw [endless] at ends
  cases ends

/-! ### Chunks -/

variable (g) in
/-- A device request has the byte of a device at an offset. -/
def Covers (dio : DioInfo) (dev_id : Int) (offset : Nat) : Prop :=
  dio.dev_id = dev_id ∧ dio.dev_offset ≤ offset ∧ offset < dio.dev_offset + dio.length

variable (g) in
/-- The device requests are a translation of the request. -/
structure TranslationOf (uio : UioInfo) (dios : List DioInfo) : Prop where
  some_dio : 1 ≤ dios.length
  few : dios.length ≤ g.DATACHUNK_NUM
  devices : dios.Pairwise fun d e => d.dev_id ≠ e.dev_id
  device : ∀ dio ∈ dios, 0 ≤ dio.dev_id ∧ dio.dev_id < g.NUM_DEVFILES
  nonempty : ∀ dio ∈ dios, 0 < dio.length
  row : ∀ dio ∈ dios, (dio.dev_offset + dio.length - 1) / g.SCHUNK_SIZE = dio.dev_offset / g.SCHUNK_SIZE
  byte : ∀ x, uio.user_offset ≤ x → x < uio.user_offset + uio.length →
    ∃ dio ∈ dios, Covers dio (user2dev g x).devid (user2dev g x).converted_offset ∧
      dio.buf + ((user2dev g x).converted_offset - dio.dev_offset) = uio.buf + (x - uio.user_offset) ∧
      ∀ other ∈ dios, Covers other (user2dev g x).devid (user2dev g x).converted_offset → other = dio
  no_other : ∀ dio ∈ dios, ∀ o, dio.dev_offset ≤ o → o < dio.dev_offset + dio.length →
    ∃ x, uio.user_offset ≤ x ∧ x < uio.user_offset + uio.length ∧
      (user2dev g x).devid = dio.dev_id ∧ (user2dev g x).converted_offset = o

/-- The number of a chunk that a request inside one stripe meets. -/
theorem chunk_number {off len K : Nat} (one : user2stripe g (off + len - 1) = user2stripe g off)
    (low : off / g.SCHUNK_SIZE ≤ K) (high : K ≤ (off + len - 1) / g.SCHUNK_SIZE) :
    ∃ c < g.DATACHUNK_NUM, K = user2stripe g off * g.DATACHUNK_NUM + c := by
  have first := chunk_split (g := g) off
  have last := chunk_split (g := g) (off + len - 1)
  have inside := chunkOf_lt (g := g) (off + len - 1)
  rw [one] at last
  exact ⟨K - user2stripe g off * g.DATACHUNK_NUM, by omega, by omega⟩

/-- The parts of a request inside one stripe are on different devices. -/
theorem cut_devices {off len : Nat} (some_len : 0 < len) (one : user2stripe g (off + len - 1) = user2stripe g off) :
    (cut g.SCHUNK_SIZE off len).Pairwise fun p q => devOf g p.1 ≠ devOf g q.1 := by
  rw [cut, List.pairwise_map]
  refine List.Pairwise.imp_of_mem (fun {K L} first second apart => ?_)
    List.pairwise_lt_range'
  obtain ⟨low, high⟩ := (mem_blocks some_len).mp first
  obtain ⟨low', high'⟩ := (mem_blocks some_len).mp second
  obtain ⟨c, inside, rfl⟩ := chunk_number one low high
  obtain ⟨d, inside', rfl⟩ := chunk_number one low' high'
  have number := start_chunk off len _ (piece_pos g.chunk_pos some_len low high)
  have number' := start_chunk off len _ (piece_pos g.chunk_pos some_len low' high')
  simp only [piece, (chunk_place inside number).2.2, (chunk_place inside' number').2.2]
  intro same
  have := dataDev_inj inside inside' same
  omega

/-- The place of a byte in a part of a request. -/
theorem part_place {off len : Nat} (some_len : 0 < len) {p : Nat × Nat} (part : p ∈ cut g.SCHUNK_SIZE off len) {x : Nat}
    (low : p.1 ≤ x) (high : x < p.1 + p.2) : devOf g x = devOf g p.1 ∧ devoffOf g x = devoffOf g p.1 + (x - p.1) := by
  obtain ⟨_, _, _, one⟩ := cut_inside g.chunk_pos some_len part
  refine same_chunk low (Nat.le_antisymm ?_ (Nat.div_le_div_right low))
  exact one ▸ Nat.div_le_div_right (by omega)

/-- A request inside one stripe has at most one part for each data chunk. -/
theorem few_parts {off len : Nat} (one : user2stripe g (off + len - 1) = user2stripe g off) :
    (cut g.SCHUNK_SIZE off len).length ≤ g.DATACHUNK_NUM := by
  have first := chunk_split (g := g) off
  have last := chunk_split (g := g) (off + len - 1)
  have small := chunkOf_lt (g := g) (off + len - 1)
  rw [one] at last
  simp only [cut, List.length_map, List.length_range', blocks]
  omega

/-- A part stays in the row of its first byte. -/
theorem part_row {off len : Nat} (some_len : 0 < len) {p : Nat × Nat} (part : p ∈ cut g.SCHUNK_SIZE off len) :
    (devoffOf g p.1 + p.2 - 1) / g.SCHUNK_SIZE = devoffOf g p.1 / g.SCHUNK_SIZE := by
  obtain ⟨some_part, _, _, chunk⟩ := cut_inside g.chunk_pos some_len part
  obtain ⟨_, last⟩ := part_place some_len part (x := p.1 + p.2 - 1) (by omega) (by omega)
  have same : user2stripe g (p.1 + p.2 - 1) = user2stripe g p.1 := by
    unfold user2stripe
    rw [chunk]
  have row := devoffOf_row (g := g) p.1
  have row' := devoffOf_row (g := g) (p.1 + p.2 - 1)
  rw [same] at row'
  rw [devoff_div row.1 row.2]
  exact devoff_div (by omega) (by omega)

/-- A byte of a request is in a part, on its device and as far from its start. -/
theorem byte_part {off len : Nat} (some_len : 0 < len) {x : Nat} (low : off ≤ x) (high : x < off + len) :
    ∃ p ∈ cut g.SCHUNK_SIZE off len, off ≤ p.1 ∧ p.1 ≤ x ∧ x < p.1 + p.2 ∧ devOf g x = devOf g p.1 ∧
      devoffOf g x = devoffOf g p.1 + (x - p.1) := by
  obtain ⟨p, part, first, last⟩ := cut_covers g.chunk_pos some_len low high
  exact ⟨p, part, (cut_inside g.chunk_pos some_len part).2.1, first, last, part_place some_len part first last⟩

/-- A byte of a device that a part has is the place of a byte of the request. -/
theorem part_byte {off len : Nat} (some_len : 0 < len) {p : Nat × Nat} (part : p ∈ cut g.SCHUNK_SIZE off len) {o : Nat}
    (low : devoffOf g p.1 ≤ o) (high : o < devoffOf g p.1 + p.2) :
    ∃ x, off ≤ x ∧ x < off + len ∧ devOf g x = devOf g p.1 ∧ devoffOf g x = o := by
  obtain ⟨_, after, before, _⟩ := cut_inside g.chunk_pos some_len part
  obtain ⟨device, offset⟩ := part_place some_len part (x := p.1 + (o - devoffOf g p.1)) (by omega) (by omega)
  exact ⟨p.1 + (o - devoffOf g p.1), by omega, by omega, device, by omega⟩

/-- The split of a request inside one stripe translates each of its bytes to its
    place, and nothing else. -/
theorem split_chunk2dio_exact {uio : UioInfo} (positive : 0 < uio.length) (short : uio.length < 2 ^ 64)
    (fits : uio.user_offset + uio.length ≤ 2 ^ 64) (int : user2stripe g uio.user_offset < 2 ^ 31)
    (one : user2stripe g (uio.user_offset + uio.length - 1) = user2stripe g uio.user_offset) :
    ∃ dios, split_chunk2dio g uio = some dios ∧ TranslationOf g uio dios := by
  refine ⟨_, split_chunk2dio_eq positive short fits int one, ?_⟩
  have place : ∀ x, uio.user_offset ≤ x → x < uio.user_offset + uio.length →
      user2dev g x = ⟨devoffOf g x, devOf g x, user2stripe g x⟩ := by
    intro x low high
    have upper : user2stripe g x ≤ user2stripe g (uio.user_offset + uio.length - 1) := by
      rw [user2stripe_eq, user2stripe_eq]
      exact Nat.div_le_div_right (by omega)
    exact user2dev_eq (by omega) (by omega)
  have apart : ((cut g.SCHUNK_SIZE uio.user_offset uio.length).map (dioOf (g := g) uio)).Pairwise
      fun d e => d.dev_id ≠ e.dev_id := by
    rw [List.pairwise_map]
    exact (cut_devices positive one).imp fun differ same => differ (Int.ofNat_inj.mp same)
  have inside : ∀ dio ∈ (cut g.SCHUNK_SIZE uio.user_offset uio.length).map (dioOf (g := g) uio),
      ∃ p ∈ cut g.SCHUNK_SIZE uio.user_offset uio.length, dio = dioOf (g := g) uio p := by
    intro dio member
    obtain ⟨p, part, rfl⟩ := List.mem_map.mp member
    exact ⟨p, part, rfl⟩
  constructor
  · rw [List.length_map, cut, List.length_map, List.length_range']
    exact blocks_pos g.SCHUNK_SIZE uio.user_offset positive
  · rw [List.length_map]
    exact few_parts one
  · exact apart
  · intro dio member
    obtain ⟨p, _, rfl⟩ := inside dio member
    have := devOf_lt (g := g) p.1
    simp only [dioOf]
    omega
  · intro dio member
    obtain ⟨p, part, rfl⟩ := inside dio member
    exact (cut_inside g.chunk_pos positive part).1
  · intro dio member
    obtain ⟨p, part, rfl⟩ := inside dio member
    exact part_row positive part
  · intro x low high
    obtain ⟨p, part, after, first, last, device, offset⟩ := byte_part (g := g) positive low high
    have member : dioOf (g := g) uio p ∈ (cut g.SCHUNK_SIZE uio.user_offset uio.length).map (dioOf (g := g) uio) :=
      List.mem_map.mpr ⟨p, part, rfl⟩
    rw [place x low high]
    refine ⟨_, member, ⟨?_, ?_, ?_⟩, ?_, ?_⟩
    · simp only [dioOf, device]
    · simp only [dioOf]
      omega
    · simp only [dioOf]
      omega
    · simp only [dioOf]
      omega
    · intro other there covers
      refine List.inj_on_of_nodup_map (f := DioInfo.dev_id) (List.pairwise_map.mpr apart) there member ?_
      exact covers.1.trans (by simp only [dioOf, device])
  · intro dio member o low high
    obtain ⟨p, part, rfl⟩ := inside dio member
    obtain ⟨x, after, before, device, offset⟩ := part_byte positive part low high
    refine ⟨x, after, before, ?_⟩
    rw [place x after before]
    exact ⟨by simp only [dioOf, device], offset⟩

/-- A request of the last three chunks of stripe 3, whose devices wrap past the
    last one. -/
theorem split_chunk2dio_wraps : ∃ dios, split_chunk2dio defaultGeometry ⟨0, true, 4096, 1642496, 192512⟩ = some dios ∧
    TranslationOf defaultGeometry ⟨0, true, 4096, 1642496, 192512⟩ dios :=
  split_chunk2dio_exact (by decide) (by decide) (by decide) (by decide) (by decide)

/-- The first two chunks of stripe `2 ^ 31`, whose number an `int` does not hold: the
    first device request has them both. -/
theorem split_chunk2dio_past_int :
    user2stripe defaultGeometry (985162418487296 + 131072 - 1) = user2stripe defaultGeometry 985162418487296 ∧
    ¬ ∃ dios, split_chunk2dio defaultGeometry ⟨0, true, 4096, 985162418487296, 131072⟩ = some dios ∧
      TranslationOf defaultGeometry ⟨0, true, 4096, 985162418487296, 131072⟩ dios := by
  refine ⟨by decide, ?_⟩
  rintro ⟨dios, split, translation⟩
  have both : split_chunk2dio defaultGeometry ⟨0, true, 4096, 985162418487296, 131072⟩ =
    some [⟨0, 4096, 18446603336221196288, 131072, 0⟩, ⟨1, 135168, 18446683757643104256, 65536, 0⟩] := by decide +kernel
  obtain rfl := Option.some.inj (both.symm.trans split)
  exact absurd (translation.row _ List.mem_cons_self) (by decide)

/-! ### Blocks -/

/-- The indices that `raid_write` passes to `reset` for a request. -/
def reset_indices (uio : UioInfo) : List Nat := (split_block uio).map (· / BLK_SIZE)

/-- A block of the bitmap has a byte of the request. -/
def Written (uio : UioInfo) (block : Nat) : Prop :=
  ∃ x, uio.user_offset ≤ x ∧ x < uio.user_offset + uio.length ∧ x / BLK_SIZE = block

theorem freeze_bitmap {st st' : Store} {stripeid : Int} (result : freeze g st stripeid = some st') :
    st'.blk_bitmap = st.blk_bitmap := by
  obtain ⟨_, _, rfl⟩ := Option.map_eq_some_iff.mp result
  rfl

theorem drain_bitmap {st st' : Store} {tid : Nat} {bat_dios : List DioInfo}
    (result : drain st tid = some (bat_dios, st')) :
    st'.blk_bitmap = st.blk_bitmap := by
  simp only [drain] at result
  split at result
  · split at result
    · contradiction
    · cases result
      rfl
  · cases result
    rfl

theorem encode_fullstripe_bitmap {isal : Isal} {mem : Nat → Byte} {tid : Nat} {v_dios : List DioInfo} {st after : Store}
    {writes : List DeviceWrite} (result : encode_fullstripe g isal mem tid v_dios st = some (writes, after)) :
    after.blk_bitmap = st.blk_bitmap := by
  simp only [encode_fullstripe, Option.bind_eq_bind] at result
  split at result
  · contradiction
  split at result
  · contradiction
  obtain ⟨frozen, froze, result⟩ := Option.bind_eq_some_iff.mp result
  obtain ⟨_, _, result⟩ := Option.bind_eq_some_iff.mp result
  obtain ⟨_, _, result⟩ := Option.bind_eq_some_iff.mp result
  obtain ⟨_, rfl⟩ := Prod.mk.inj (Option.some.inj result)
  show frozen.blk_bitmap = st.blk_bitmap
  exact freeze_bitmap froze

theorem encode_partialstripe_bitmap {isal : Isal} {mem : Nat → Byte} {tid : Nat} {v_dios : List DioInfo} {st after : Store}
    {writes : List DeviceWrite} (result : encode_partialstripe g isal mem tid v_dios st = some (writes, after)) :
    after.blk_bitmap = st.blk_bitmap := by
  rw [encode_partialstripe] at result
  by_cases empty : v_dios.length = 0
  · rw [if_pos empty] at result
    contradiction
  rw [if_neg empty] at result
  by_cases outside : tid ≥ NUM_THREADS
  · rw [if_pos outside] at result
    contradiction
  rw [if_neg outside] at result
  obtain ⟨_, _, result⟩ := Option.bind_eq_some_iff.mp result
  obtain ⟨_, _, result⟩ := Option.bind_eq_some_iff.mp result
  obtain ⟨frozen, froze, result⟩ := Option.bind_eq_some_iff.mp result
  obtain ⟨⟨_, drained⟩, emptied, result⟩ := Option.bind_eq_some_iff.mp result
  have kept := (drain_bitmap emptied).trans (freeze_bitmap froze)
  dsimp only at result
  -- Neither way of encoding changes the bitmap.
  split at result
  · iterate 6 obtain ⟨_, _, result⟩ := Option.bind_eq_some_iff.mp result
    obtain ⟨_, rfl⟩ := Prod.mk.inj (Option.some.inj result)
    exact kept
  · iterate 7 obtain ⟨_, _, result⟩ := Option.bind_eq_some_iff.mp result
    obtain ⟨_, rfl⟩ := Prod.mk.inj (Option.some.inj result)
    exact kept

/-- A write of a piece changes the bitmap at these indices only. -/
theorem raid_write_bitmap {isal : Isal} {mem : Nat → Byte} {uio : UioInfo} {st after : Store} {submission : Submission}
    (result : raid_write g isal mem uio st = some (submission, after)) :
    after.blk_bitmap = (reset_indices uio).foldl BlkBitmap.reset st.blk_bitmap := by
  rw [reset_indices, List.foldl_map]
  simp only [raid_write, Option.bind_eq_bind] at result
  split at result
  · contradiction
  obtain ⟨v_dios, _, result⟩ := Option.bind_eq_some_iff.mp result
  split at result
  · obtain ⟨⟨_, written⟩, encoded, result⟩ := Option.bind_eq_some_iff.mp result
    obtain ⟨_, rfl⟩ := Prod.mk.inj (Option.some.inj result)
    exact encode_fullstripe_bitmap encoded
  · obtain ⟨⟨_, written⟩, encoded, result⟩ := Option.bind_eq_some_iff.mp result
    obtain ⟨_, rfl⟩ := Prod.mk.inj (Option.some.inj result)
    exact encode_partialstripe_bitmap encoded

/-- The loop takes as many blocks as the length needs, from the block of the
    offset on. -/
theorem reset_indices_eq {uio : UioInfo} (user : uio.user_offset + uio.length < 2 ^ 63) :
    reset_indices uio = List.range' (uio.user_offset / BLK_SIZE) ((uio.length + BLK_SIZE - 1) / BLK_SIZE) := by
  have first : (if uio.user_offset % BLK_SIZE ≠ 0 then uio.user_offset - uio.user_offset % BLK_SIZE
      else uio.user_offset) = uio.user_offset / BLK_SIZE * BLK_SIZE := by
    have := Nat.div_add_mod' uio.user_offset BLK_SIZE
    split <;> omega
  have rounds : (if uio.length % BLK_SIZE ≠ 0 then u64 (uio.length + (BLK_SIZE - uio.length % BLK_SIZE))
      else uio.length) / BLK_SIZE = (uio.length + BLK_SIZE - 1) / BLK_SIZE := by
    unfold u64 BLK_SIZE
    split <;> omega
  rw [reset_indices, split_block, first, rounds, List.map_map, List.range'_eq_map_range]
  refine List.map_congr_left fun i member => ?_
  have inside := List.mem_range.mp member
  have below := Nat.div_mul_le_self uio.user_offset BLK_SIZE
  simp only [Function.comp_apply, u64]
  unfold BLK_SIZE at *
  omega

theorem written_iff {uio : UioInfo} (positive : 0 < uio.length) (block : Nat) :
    Written uio block ↔ block ∈ List.range' (uio.user_offset / BLK_SIZE) (blocks BLK_SIZE uio.user_offset uio.length) := by
  rw [mem_blocks positive]
  constructor
  · rintro ⟨x, low, high, rfl⟩
    exact ⟨Nat.div_le_div_right low, Nat.div_le_div_right (by omega)⟩
  · rintro ⟨low, high⟩
    refine ⟨max uio.user_offset (block * BLK_SIZE), ?_⟩
    unfold BLK_SIZE at *
    omega

/-- A write of a piece records the blocks that it writes exactly when the parts
    of a block that its start and its last byte leave over are together less than
    a block. Otherwise the last block is lost. -/
theorem recorded_iff {uio : UioInfo} (piece : OneStripe g uio) :
    (∀ block, block ∈ reset_indices uio ↔ Written uio block) ↔
      uio.user_offset % BLK_SIZE + (uio.length - 1) % BLK_SIZE < BLK_SIZE := by
  have user := piece.user
  have signed := g.user_signed
  have positive := piece.positive
  -- Both sets are runs of blocks from the block of the offset on.
  have counts : (uio.length + BLK_SIZE - 1) / BLK_SIZE = blocks BLK_SIZE uio.user_offset uio.length ↔
      uio.user_offset % BLK_SIZE + (uio.length - 1) % BLK_SIZE < BLK_SIZE := by
    unfold blocks BLK_SIZE
    omega
  rw [← counts, reset_indices_eq (by omega)]
  simp only [written_iff positive, List.mem_range'_1]
  constructor
  · intro same
    generalize (uio.length + BLK_SIZE - 1) / BLK_SIZE = rounds at same ⊢
    have behind := same (uio.user_offset / BLK_SIZE + blocks BLK_SIZE uio.user_offset uio.length)
    have behind' := same (uio.user_offset / BLK_SIZE + rounds)
    omega
  · intro same block
    rw [same]

/-- A request from the middle of a block to the end of the next one. -/
theorem recorded_half_block : (∀ block, block ∈ reset_indices ⟨0, true, 4096, 2048, 6144⟩ ↔
    Written ⟨0, true, 4096, 2048, 6144⟩ block) ↔ 2048 % BLK_SIZE + (6144 - 1) % BLK_SIZE < BLK_SIZE :=
  recorded_iff (g := defaultGeometry) (by decide)

/-- The second block of a write of 4096 bytes from the middle of a block is not
    recorded. -/
theorem recorded_two_halves : OneStripe defaultGeometry ⟨0, true, 4096, 2048, 4096⟩ ∧
    ¬ ∀ block, block ∈ reset_indices ⟨0, true, 4096, 2048, 4096⟩ ↔ Written ⟨0, true, 4096, 2048, 4096⟩ block := by
  refine ⟨by decide, fun same => ?_⟩
  have second : 1 ∈ reset_indices ⟨0, true, 4096, 2048, 4096⟩ := (same 1).mpr ⟨4096, by decide, by decide, by decide⟩
  exact absurd second (by decide)

end Straid.Partition
