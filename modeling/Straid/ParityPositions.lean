import Straid.DeltaEncoding
import Straid.Runs

/-!
The positions of the parity update of a partial stripe with one parity chunk.
The parity is loaded from the start of the row on, updated at the positions of
the device requests in their chunks, and written back from the smallest of their
offsets on, each time for the largest of their lengths. That fits together when
the smallest offset is the start of the row and no request ends past the largest
length (`aligned_of_range`, `range_of_aligned`): for a piece that starts with a
chunk or has a whole chunk in it (`range_iff`).
-/
namespace Straid.ParityPositions
open LogFiles Metadata Split Encode EcEncoder PartialStripe Cuts Overlays DeltaEncoding

variable (g : Geometry) (isal : Isal)

/-- Where the row of a piece starts. -/
def rowStart (uio : UioInfo) : Nat := stripeOf g uio * g.SCHUNK_SIZE

/-- The parity device of a piece. -/
def parityOf (uio : UioInfo) : Nat := parityDev g (stripeOf g uio) 0

/-- Some device request of the piece has position `q` of its chunk in its range. -/
def InRange (uio : UioInfo) (q : Nat) : Prop :=
  ∃ dio ∈ piece_dios g uio, dio.dev_offset ≤ rowStart g uio + q ∧ rowStart g uio + q < dio.dev_offset + dio.length

/-- A state with no delegated requests, whose cache does not have the parity of
    the piece. -/
structure Miss (uio : UioInfo) (st : Store) : Prop extends Ready g st where
  miss : (partialRange g uio).1 ∉ Cache.keys st.cache_mod

/-- The parity update of a piece keeps the positions: in whatever state it
    misses the cache, the byte that is updated for a position of a device request
    was loaded from this position of the parity chunk and is written back to it,
    and no other position of the parity chunk changes. -/
structure Aligned (uio : UioInfo) : Prop where
  loaded : ∀ st, Miss g uio st → ∃ bufs,
    load_parity g st uio.user_id (stripeOf g uio) (partialRange g uio).1 (partialRange g uio).2 = some bufs ∧
    ∀ q, InRange g uio q → bufs 0 q = st.devs (parityOf g uio) (rowStart g uio + q)
  written : ∀ st mem, Miss g uio st → ∃ writes after,
    encode_partialstripe g isal mem uio.user_id (piece_dios g uio) st = some (writes, after) ∧
    (∀ q, InRange g uio q → after.devs (parityOf g uio) (rowStart g uio + q) = after.v_enparitybuf uio.user_id 0 q) ∧
    ∀ q < g.SCHUNK_SIZE, ¬ InRange g uio q →
      after.devs (parityOf g uio) (rowStart g uio + q) = st.devs (parityOf g uio) (rowStart g uio + q)
  covered : ∀ q, InRange g uio q → (partialRange g uio).1 ≤ rowStart g uio + q ∧
    rowStart g uio + q < (partialRange g uio).1 + (partialRange g uio).2

/-- The range starts with the row and no device request ends past its length. -/
def RangeFits (uio : UioInfo) : Prop := (partialRange g uio).1 = rowStart g uio ∧
  ∀ dio ∈ piece_dios g uio, dio.dev_offset + dio.length ≤ rowStart g uio + (partialRange g uio).2

/-- The row starts where an `int` can say, and the piece starts with a chunk or
    has a whole chunk in it. -/
def WholeChunk (uio : UioInfo) : Prop := rowStart g uio ≤ INT_MAX ∧
  (g.SCHUNK_SIZE ∣ uio.user_offset ∨
    ∃ K, uio.user_offset ≤ K * g.SCHUNK_SIZE ∧ K * g.SCHUNK_SIZE + g.SCHUNK_SIZE ≤ uio.user_offset + uio.length)

variable {g}

/-! ### What the path does with the parity chunk -/

/-- The row of a piece ends where a `uint64_t` can say. -/
theorem row_fits {uio : UioInfo} (stripe : OneStripe g uio) : rowStart g uio + g.SCHUNK_SIZE < 2 ^ 64 := by
  have user := stripe.user
  have positive := stripe.positive
  have entry : stripeOf g uio ≤ g.USER_SPACE_LEN / g.SSTRIPE_DATASIZE + 100 := user_entry (by omega)
  exact (table_bounds entry).2.2

/-- On a miss, the parity is read from the start of the row on. -/
theorem load_miss {uio : UioInfo} (stripe : OneStripe g uio) {st : Store} (miss : Miss g uio st) : ∃ bufs,
    load_parity g st uio.user_id (stripeOf g uio) (partialRange g uio).1 (partialRange g uio).2 = some bufs ∧
    ∀ q, bufs 0 q = if q < (partialRange g uio).2 then st.devs (parityOf g uio) (rowStart g uio + q)
      else st.v_enparitybuf uio.user_id 0 q := by
  have pos := g.parity_pos
  have fits := row_fits stripe
  have start : stripe2devoff g (stripeOf g uio) 0 = rowStart g uio := stripe2devoff_eq (by unfold rowStart at fits; omega)
  rcases Cache.search_length miss.cache (partialRange g uio).1 with ⟨_, hit⟩ | ⟨nothing, _⟩
  · exact absurd hit miss.miss
  · have other : ¬ ([] : List Buf).length = g.PARITYCHUNK_NUM := by rw [List.length_nil]; omega
    simp only [load_parity, nothing, if_neg other, stripe2paritypos_eq, v_stdfiles_at_eq (parityDev_lt ..), Option.map_some]
    refine ⟨_, rfl, ?_⟩
    intro q
    rw [if_pos (show 0 < g.PARITYCHUNK_NUM by omega), start]
    simp only [iouring_rprep, overlay, Nat.zero_le, true_and, Nat.zero_add, Nat.sub_zero]
    rfl

/-- The parity chunk after the writes of a piece. -/
theorem parity_after (one : g.PARITYCHUNK_NUM = 1) {uio : UioInfo} (stripe : OneStripe g uio) (devs : Nat → Nat → Byte)
    (mem : Nat → Byte) (par : Nat → Buf) (o : Nat) : applyAll devs (partialWrites g mem uio par) (parityOf g uio) o =
      if (partialRange g uio).1 ≤ o ∧ o < (partialRange g uio).1 + (partialRange g uio).2 then
        par 0 (o - (partialRange g uio).1)
      else devs (parityOf g uio) o := by
  have data : applyAll devs (piece_writes g mem uio) (parityOf g uio) o = devs (parityOf g uio) o := by
    refine applyAll_frame (fun w member covers => ?_) _
    obtain ⟨r, there, rfl⟩ := List.mem_map.mp member
    have device := covers.1
    have same := (piece_part stripe there).2.1
    simp only [pieceWrite, devOf, same] at device
    exact parityDev_ne_dataDev (by omega) (chunkOf_lt _) device.symm
  rw [partialWrites, one, applyAll_append, List.range_one, List.map_singleton, applyAll_cons, applyAll_nil]
  by_cases range : (partialRange g uio).1 ≤ o ∧ o < (partialRange g uio).1 + (partialRange g uio).2
  · rw [if_pos range]
    exact Write.apply_covered ⟨rfl, range⟩
  · rw [if_neg range, ← data]
    exact Write.apply_frame fun covers => range covers.2

/-- The updates of a piece, as positions in the chunk and lengths. -/
theorem updates_eq {uio : UioInfo} (stripe : OneStripe g uio) :
    (chunk_offsets (piece_dios g uio) [] (rowStart g uio)).zip (chunk_lengths (piece_dios g uio) [] (rowStart g uio)) =
      (piece_dios g uio).map fun dio => (dio.dev_offset - rowStart g uio, dio.length) := by
  have fits := row_fits stripe
  simp only [chunk_offsets, chunk_lengths, batch_kept, List.filter_nil, List.append_nil, List.zip_map']
  refine List.map_congr_left fun dio member => ?_
  obtain ⟨r, there, rfl⟩ := mem_piece_dios.mp member
  have row := piece_part stripe there
  have low : rowStart g uio ≤ devoffOf g r.1 := row.2.2.1
  have high : devoffOf g r.1 < 2 ^ 64 := by
    have : stripeOf g uio * g.SCHUNK_SIZE + g.SCHUNK_SIZE < 2 ^ 64 := fits
    omega
  simp only [dioOf, u64_sub_small high low]

/-- The parity buffer that the path computes: the loaded bytes and what the
    updates add to them. -/
theorem encoded_parity (one : g.PARITYCHUNK_NUM = 1) {uio : UioInfo} (stripe : OneStripe g uio) {st : Store}
    {par : Nat → Buf} (encoded : Encoded g isal uio st par) : ∃ loaded old,
    load_parity g st uio.user_id (stripeOf g uio) (partialRange g uio).1 (partialRange g uio).2 = some loaded ∧
    read_old_data g st.devs 0 (piece_dios g uio) (st.v_olddatabuf uio.user_id) = some old ∧
    ∀ q, par 0 q = loaded 0 q ^^^ delta old (st.v_newdatabuf uio.user_id) q 0
      ((piece_dios g uio).map fun dio => (dio.dev_offset - rowStart g uio, dio.length)) := by
  obtain ⟨loaded, old, temp, load, read, loop⟩ := encoded
  have fits := row_fits stripe
  have inside := updates_inside stripe fits
  obtain ⟨temp', par', same, added⟩ := part_encode_loop_delta isal one inside old (st.v_newdatabuf uio.user_id) 0
    (st.v_tempbuf uio.user_id) loaded
  rw [do_part_encode, same] at loop
  obtain ⟨rfl, rfl⟩ := Prod.mk.inj (Option.some.inj loop)
  refine ⟨loaded, old, load, read, ?_⟩
  intro q
  rw [added q]
  exact congrArg (fun updates => _ ^^^ delta old (st.v_newdatabuf uio.user_id) q 0 updates) (updates_eq stripe)

/-! ### The range and the positions -/

/-- The device requests of a piece are in its row. -/
theorem dio_row {uio : UioInfo} (stripe : OneStripe g uio) {dio : DioInfo} (member : dio ∈ piece_dios g uio) :
    0 < dio.length ∧ rowStart g uio ≤ dio.dev_offset ∧
      dio.dev_offset + dio.length ≤ rowStart g uio + g.SCHUNK_SIZE ∧ dio.dev_id.toNat ≠ parityOf g uio := by
  obtain ⟨r, there, rfl⟩ := mem_piece_dios.mp member
  obtain ⟨some_part, same, low, high⟩ := piece_part stripe there
  have pos := g.parity_pos
  refine ⟨some_part, low, high, ?_⟩
  simp only [dioOf, Int.toNat_natCast, devOf, same]
  exact (parityDev_ne_dataDev (by omega) (chunkOf_lt _)).symm

/-- When the range fits, the positions are kept. -/
theorem aligned_of_range (one : g.PARITYCHUNK_NUM = 1) {uio : UioInfo} (stripe : OneStripe g uio) (fits : RangeFits g uio) :
    Aligned g isal uio := by
  obtain ⟨start, ends⟩ := fits
  have short : ∀ q, InRange g uio q → q < (partialRange g uio).2 := by
    rintro q ⟨dio, member, _, high⟩
    have last := ends dio member
    omega
  constructor
  · intro st miss
    obtain ⟨bufs, load, bytes⟩ := load_miss stripe miss
    refine ⟨bufs, load, fun q range => ?_⟩
    rw [bytes q, if_pos (short q range)]
  · intro st mem miss
    obtain ⟨par, after, encoded, written, step⟩ := encode_partialstripe_encoded isal stripe miss.toReady mem
    obtain ⟨loaded, old, load, _, added⟩ := encoded_parity isal one stripe encoded
    obtain ⟨bufs, also, bytes⟩ := load_miss stripe miss
    obtain rfl := Option.some.inj (load.symm.trans also)
    refine ⟨_, after, written, ?_, ?_⟩
    · intro q range
      have low := short q range
      rw [step.devs, step.parity, Function.update_self, parity_after one stripe, start, if_pos (by omega),
        Nat.add_sub_cancel_left]
    · intro q _ out
      rw [step.devs, parity_after one stripe, start]
      by_cases low : q < (partialRange g uio).2
      · -- The byte was loaded from its position and no update is for it.
        have nothing : delta old (st.v_newdatabuf uio.user_id) q 0
            ((piece_dios g uio).map fun dio => (dio.dev_offset - rowStart g uio, dio.length)) = 0 := by
          apply delta_same
          intro n u at_n above below
          obtain ⟨dio, member, rfl⟩ := List.mem_map.mp (List.mem_of_getElem? at_n)
          have row := dio_row stripe member
          simp only at above below
          exact absurd ⟨dio, member, by omega, by omega⟩ out
        rw [if_pos (by omega), Nat.add_sub_cancel_left, added q, nothing, bytes q, if_pos low]
        exact BitVec.xor_zero
      · rw [if_neg (by omega)]
  · intro q range
    have low := short q range
    omega

/-- A state with any contents of the devices in which every piece misses the
    cache. -/
theorem fresh_miss (uio : UioInfo) (devs : Nat → Nat → Byte) :
    Miss g uio (Store.fresh g devs (fun _ => 0) fun _ => 0) where
  toReady := (Runs.fresh_quiet devs _ _).ready
  miss := List.not_mem_nil

/-- When the positions are kept, no device request ends past the length of the
    range: the bytes past it are not loaded. -/
theorem ends_of_aligned {uio : UioInfo} (stripe : OneStripe g uio) (aligned : Aligned g isal uio) {dio : DioInfo}
    (member : dio ∈ piece_dios g uio) : dio.dev_offset + dio.length ≤ rowStart g uio + (partialRange g uio).2 := by
  have row := dio_row stripe member
  by_contra past
  have range : InRange g uio (dio.dev_offset + dio.length - 1 - rowStart g uio) := ⟨dio, member, by omega, by omega⟩
  have miss := fresh_miss (g := g) uio fun _ _ => 0
  obtain ⟨bufs, load, positions⟩ := aligned.loaded _ miss
  obtain ⟨same, also, bytes⟩ := load_miss stripe miss
  obtain rfl := Option.some.inj (load.symm.trans also)
  have stale := positions _ range
  rw [bytes, if_neg (by omega)] at stale
  exact absurd stale (by decide : ¬ (0x1b : Byte) = 0)

/-- Data devices without a byte that is set give updates that change nothing. -/
theorem delta_empty {uio : UioInfo} (stripe : OneStripe g uio) {devs : Nat → Nat → Byte}
    (empty : ∀ d o, d ≠ parityOf g uio → devs d o = 0) {bufs old : Nat → Buf}
    (read : read_old_data g devs 0 (piece_dios g uio) bufs = some old) (q : Nat) :
    delta old (fun _ _ => 0) q 0 ((piece_dios g uio).map fun dio => (dio.dev_offset - rowStart g uio, dio.length)) = 0 := by
  apply delta_same
  intro n u at_n low high
  rw [List.getElem?_map, Option.map_eq_some_iff] at at_n
  obtain ⟨dio, here, rfl⟩ := at_n
  have row := dio_row stripe (List.mem_of_getElem? here)
  rw [(read_old_bytes read).2 n dio here _ (by simp only at low high ⊢; omega)]
  exact empty _ _ row.2.2.2

/-- When the positions are kept, the range starts with the row: a byte of the
    parity chunk that is set stays where it is. -/
theorem start_of_aligned (one : g.PARITYCHUNK_NUM = 1) {uio : UioInfo} (stripe : OneStripe g uio)
    (aligned : Aligned g isal uio) : (partialRange g uio).1 = rowStart g uio := by
  obtain ⟨dio, rest, first⟩ := List.exists_cons_of_length_pos (piece_dios_length stripe).1
  have member : dio ∈ piece_dios g uio := first ▸ List.mem_cons_self
  have row := dio_row stripe member
  have ends := ends_of_aligned isal stripe aligned member
  have range : InRange g uio (dio.dev_offset - rowStart g uio) := ⟨dio, member, by omega, by omega⟩
  have covered := aligned.covered _ range
  rw [Nat.add_sub_cancel' row.2.1] at covered
  by_contra moved
  have miss := fresh_miss (g := g) uio fun d o => if d = parityOf g uio ∧ o = dio.dev_offset then 1 else 0
  obtain ⟨writes, after, written, positions, _⟩ := aligned.written _ (fun _ => 0) miss
  obtain ⟨par, again, encoded, same, step⟩ := encode_partialstripe_encoded isal stripe miss.toReady fun _ => 0
  obtain ⟨rfl, rfl⟩ := Prod.mk.inj (Option.some.inj (written.symm.trans same))
  obtain ⟨loaded, old, load, read, added⟩ := encoded_parity isal one stripe encoded
  obtain ⟨bufs, also, bytes⟩ := load_miss stripe miss
  obtain rfl := Option.some.inj (load.symm.trans also)
  have plain : ∀ q < (partialRange g uio).2, par 0 q = if rowStart g uio + q = dio.dev_offset then 1 else 0 := by
    intro q short
    have nothing := delta_empty stripe (fun d o other => if_neg fun here => other here.1) read q
    have sum := (added q).trans (congrArg (_ ^^^ ·) nothing)
    rw [sum, bytes q, if_pos short]
    simp [Store.fresh]
  have moved_byte := positions _ range
  rw [step.devs, step.parity, Function.update_self, parity_after one stripe, Nat.add_sub_cancel' row.2.1,
    if_pos covered, plain _ (by omega), plain _ (by omega), if_neg (by omega), if_pos (by omega)] at moved_byte
  exact absurd moved_byte (by decide)

theorem range_of_aligned (one : g.PARITYCHUNK_NUM = 1) {uio : UioInfo} (stripe : OneStripe g uio)
    (aligned : Aligned g isal uio) : RangeFits g uio :=
  ⟨start_of_aligned isal one stripe aligned, fun _ member => ends_of_aligned isal stripe aligned member⟩

/-! ### When the range fits -/

/-- The longest of the parts gives the length of the range. -/
theorem longest_part {uio : UioInfo} (stripe : OneStripe g uio) :
    ∃ r ∈ cut g.SCHUNK_SIZE uio.user_offset uio.length, (partialRange g uio).2 = r.2 := by
  have pos := partialRange_pos stripe
  rcases (parity_range_spec (piece_dios g uio) (INT_MAX, 0)).2.2.2.2.2 with same | ⟨dio, member, same⟩
  · exact absurd same (Nat.pos_iff_ne_zero.mp pos)
  · obtain ⟨r, there, rfl⟩ := mem_piece_dios.mp member
    exact ⟨r, there, same⟩

/-- What the range that fits says of a part. -/
theorem part_fits {uio : UioInfo} (stripe : OneStripe g uio) (fits : RangeFits g uio) {r : Nat × Nat}
    (there : r ∈ cut g.SCHUNK_SIZE uio.user_offset uio.length) : r.1 % g.SCHUNK_SIZE + r.2 ≤ (partialRange g uio).2 := by
  have ends := fits.2 _ (mem_piece_dios.mpr ⟨r, there, rfl⟩)
  have same := (piece_part stripe there).2.1
  simp only [dioOf, devoffOf, same] at ends
  unfold rowStart at ends
  omega

/-- When the range fits and the piece starts inside a chunk, the longest part is
    a whole chunk: it starts with a chunk, and the first part ends with one. -/
theorem whole_of_range {uio : UioInfo} (stripe : OneStripe g uio) (fits : RangeFits g uio)
    (inside : ¬ g.SCHUNK_SIZE ∣ uio.user_offset) :
    ∃ K, uio.user_offset ≤ K * g.SCHUNK_SIZE ∧ K * g.SCHUNK_SIZE + g.SCHUNK_SIZE ≤ uio.user_offset + uio.length := by
  have positive := stripe.positive
  have wide := g.chunk_pos
  obtain ⟨longest, there, most⟩ := longest_part stripe
  have at_start : longest.1 % g.SCHUNK_SIZE = 0 := by
    have fit := part_fits stripe fits there
    omega
  obtain ⟨_, first, last, _⟩ := cut_inside wide positive there
  have starts := Nat.div_mul_cancel (Nat.dvd_of_mod_eq_zero at_start)
  have later : uio.user_offset < longest.1 := by
    apply Nat.lt_of_le_of_ne first
    intro same
    exact inside (same ▸ Nat.dvd_of_mod_eq_zero at_start)
  have next : uio.user_offset / g.SCHUNK_SIZE < longest.1 / g.SCHUNK_SIZE :=
    (Nat.div_lt_iff_lt_mul wide).mpr (by rw [starts]; exact later)
  obtain ⟨rest, head⟩ := cut_head g.SCHUNK_SIZE uio.user_offset positive
  have fit := part_fits stripe fits (r := (_, _)) (head ▸ List.mem_cons_self)
  have split := Nat.div_add_mod' uio.user_offset g.SCHUNK_SIZE
  have block := block_high wide uio.user_offset
  have ends : uio.user_offset / g.SCHUNK_SIZE * g.SCHUNK_SIZE + g.SCHUNK_SIZE ≤ longest.1 := by
    have := Nat.mul_le_mul_right g.SCHUNK_SIZE (Nat.succ_le_of_lt next)
    rwa [starts, Nat.succ_mul] at this
  simp only [stop] at fit
  exact ⟨longest.1 / g.SCHUNK_SIZE, by omega, by omega⟩

/-- A whole chunk of the piece is one of its parts. -/
theorem whole_part {uio : UioInfo} (stripe : OneStripe g uio) {K : Nat} (low : uio.user_offset ≤ K * g.SCHUNK_SIZE)
    (high : K * g.SCHUNK_SIZE + g.SCHUNK_SIZE ≤ uio.user_offset + uio.length) :
    (K * g.SCHUNK_SIZE, g.SCHUNK_SIZE) ∈ cut g.SCHUNK_SIZE uio.user_offset uio.length := by
  have wide := g.chunk_pos
  refine (mem_cut stripe.positive).mpr ⟨K, ?_, ?_, ?_⟩
  · exact Nat.div_le_of_le_mul (by rw [Nat.mul_comm]; exact low)
  · exact (Nat.le_div_iff_mul_le wide).mpr (by omega)
  · simp only [piece, start, stop, Nat.max_eq_right low, Nat.min_eq_right high, Nat.add_sub_cancel_left]

/-- A part that starts with its chunk makes the range start with the row. -/
theorem start_of_part {uio : UioInfo} (stripe : OneStripe g uio) (low : rowStart g uio ≤ INT_MAX) {r : Nat × Nat}
    (there : r ∈ cut g.SCHUNK_SIZE uio.user_offset uio.length) (at_start : g.SCHUNK_SIZE ∣ r.1) :
    (partialRange g uio).1 = rowStart g uio := by
  have lows := (parity_range_spec (piece_dios g uio) (INT_MAX, 0)).2.1 _ (mem_piece_dios.mpr ⟨r, there, rfl⟩)
  simp only [dioOf, devoffOf, (piece_part stripe there).2.1, Nat.mod_eq_zero_of_dvd at_start] at lows
  exact Nat.le_antisymm lows (partialRange_row stripe low).1

theorem range_iff {uio : UioInfo} (stripe : OneStripe g uio) : RangeFits g uio ↔ WholeChunk g uio := by
  have positive := stripe.positive
  have wide := g.chunk_pos
  constructor
  · intro fits
    refine ⟨fits.1 ▸ partialRange_int uio, ?_⟩
    by_cases starts : g.SCHUNK_SIZE ∣ uio.user_offset
    · exact .inl starts
    · exact .inr (whole_of_range stripe fits starts)
  · rintro ⟨low, starts | ⟨K, before, behind⟩⟩
    · obtain ⟨rest, head⟩ := cut_head g.SCHUNK_SIZE uio.user_offset positive
      refine ⟨start_of_part stripe low (r := (_, _)) (head ▸ List.mem_cons_self) starts, ?_⟩
      intro dio member
      have length := (parity_range_spec (piece_dios g uio) (INT_MAX, 0)).2.2.2.2.1 dio member
      obtain ⟨r, there, rfl⟩ := mem_piece_dios.mp member
      -- Every part starts with its chunk.
      have at_start : g.SCHUNK_SIZE ∣ r.1 := by
        rcases cut_first positive there with first | chunk
        · exact first ▸ starts
        · exact chunk
      simp only [dioOf, devoffOf, (piece_part stripe there).2.1, Nat.mod_eq_zero_of_dvd at_start, Nat.add_zero] at length ⊢
      exact Nat.add_le_add_left length _
    · have whole := whole_part stripe before behind
      refine ⟨start_of_part stripe low whole (Nat.dvd_mul_left ..), ?_⟩
      intro dio member
      have length := (parity_range_spec (piece_dios g uio) (INT_MAX, 0)).2.2.2.2.1 _ (mem_piece_dios.mpr ⟨_, whole, rfl⟩)
      have row := dio_row stripe member
      simp only [dioOf] at length
      unfold partialRange
      omega

/-- The parity update of a piece keeps the positions exactly when the piece
    starts with a chunk or has a whole chunk in it, in a row whose offset an
    `int` can say. -/
theorem aligned_iff (one : g.PARITYCHUNK_NUM = 1) {uio : UioInfo} (stripe : OneStripe g uio) :
    Aligned g isal uio ↔ WholeChunk g uio :=
  ⟨fun aligned => (range_iff stripe).mp (range_of_aligned isal one stripe aligned),
    fun whole => aligned_of_range isal one stripe ((range_iff stripe).mpr whole)⟩

/-- A block at the start of a chunk. -/
theorem aligned_block : Aligned defaultGeometry .reference ⟨0, true, 4096, 0, 4096⟩ :=
  (aligned_iff _ rfl (by decide)).mpr ⟨by decide, .inl (by decide)⟩

/-- A block inside a chunk. -/
theorem aligned_not_inside : OneStripe defaultGeometry ⟨0, true, 4096, 4096, 4096⟩ ∧
    ¬ Aligned defaultGeometry .reference ⟨0, true, 4096, 4096, 4096⟩ := by
  have stripe : OneStripe defaultGeometry ⟨0, true, 4096, 4096, 4096⟩ := by decide
  refine ⟨stripe, fun aligned => ?_⟩
  exact absurd (start_of_aligned _ rfl stripe aligned) (by decide)

end Straid.ParityPositions
