import Straid.FullStripe
import Straid.ReconstructWrite
import Straid.RequestIds

/-!
How many entries the paths prepare on the ring of a thread between two
submissions: a read has one run, with an entry for each chunk that it touches
(`read_fits_iff`), a write of a partial stripe has three, with the requests of its
queue among them (`write_fits_iff`), and one of a full stripe has one for each
device (`full_fits_iff`); `Room` has both (`room_iff`). So on an array of at most
`RING_QD` devices a full stripe is written, from any state (`raid_write_full`).
-/
namespace Straid.RingDepth
open LogFiles Metadata Split Cuts Encode EcEncoder StorageMod PartialStripe ReconstructWrite RequestIds Rings

/-! ### The paths -/

variable (g : Geometry)

/-- `s_norRead` on its ring. -/
def s_norRead_ring (v_dios : List DioInfo) : List RingOp :=
  if v_dios.length = 0 then [] else prep_each v_dios ++ [.submit]

/-- `raid_read` on the ring of its thread. -/
def raid_read_ring (read_req_id : Nat) (uio : UioInfo) : Option (List RingOp) := do
  if uio.length = 0 then none
  let v_schunks ← read_dios g read_req_id uio
  some (s_norRead_ring v_schunks)

/-- `encode_partialstripe` on the ring of its thread: the parity on a miss and
    the old data of its own requests, then the whole chunks or the old data of
    the queue, then the writes. -/
def encode_partialstripe_ring (tid : Nat) (v_dios : List DioInfo) (st : Store) : Option (List RingOp) := do
  if v_dios.length = 0 then none
  let stripeid := devoff2stripe g (v_dios.headD default).dev_offset
  let start_devoff := stripe2devoff g stripeid 0
  let range := parity_range (INT_MAX, 0) v_dios
  let miss := if (Cache.search st.cache_mod range.1).length = g.PARITYCHUNK_NUM then []
    else prep_each (List.range g.PARITYCHUNK_NUM)
  let (bat_dios, _) ← drain st tid
  let index := (List.range g.DATACHUNK_NUM).filter fun i => ¬ bat_dios.any fun dio => dio.dev_id == toInt i
  let more := if total_length (batch_kept bat_dios start_devoff) >
      u64_sub (g.SCHUNK_SIZE * g.DATACHUNK_NUM) (total_length v_dios) / 2 then prep_each index else prep_each bat_dios
  some (miss ++ prep_each v_dios ++ [.submit] ++ (more ++ [.submit]) ++
    (prep_each v_dios ++ prep_each bat_dios ++ prep_each (List.range g.PARITYCHUNK_NUM) ++ [.submit]))

/-- `encode_fullstripe` on the ring of its thread. -/
def encode_fullstripe_ring (v_dios : List DioInfo) : Option (List RingOp) :=
  if v_dios.length ≠ g.DATACHUNK_NUM then none
  else some (prep_each (List.range g.DATACHUNK_NUM) ++ prep_each (List.range g.PARITYCHUNK_NUM) ++ [.submit])

/-- `raid_write` on the ring of its thread. -/
def raid_write_ring (uio : UioInfo) (st : Store) : Option (List RingOp) := do
  if uio.buf = 0 ∨ uio.length = 0 then none
  let v_dios ← split_chunk2dio g uio
  if is_fullstripe g uio.user_offset uio.length then encode_fullstripe_ring g v_dios
  else encode_partialstripe_ring g uio.user_id v_dios st

/-- `raid_write` with its ring: it has no result when `io_uring_get_sqe` returns
    `NULL`. -/
def raid_write_on_ring (isal : Isal) (mem : Nat → Byte) (uio : UioInfo) (st : Store) : Option (Submission × Store) := do
  let ops ← raid_write_ring g uio st
  let _ ← ring_run 0 ops
  raid_write g isal mem uio st

/-- The requests of a queue are long enough for the branch that reads whole
    chunks. -/
def Rebuilds (uio : UioInfo) (bat_dios : List DioInfo) : Prop :=
  total_length (batch_kept bat_dios (user2stripe g uio.user_offset * g.SCHUNK_SIZE)) > (g.SSTRIPE_DATASIZE - uio.length) / 2

/-- The number of devices below `DATACHUNK_NUM` that no request of a queue is
    for. -/
def other_devices (bat_dios : List DioInfo) : Nat :=
  ((List.range g.DATACHUNK_NUM).filter fun i => ¬ bat_dios.any fun dio => dio.dev_id == toInt i).length

/-- The ring has room for a write of a piece with these requests in the queue. -/
def Room (uio : UioInfo) (bat_dios : List DioInfo) : Prop :=
  if is_fullstripe g uio.user_offset uio.length then g.NUM_DEVFILES ≤ RING_QD
  else touched_chunks g uio + bat_dios.length + g.PARITYCHUNK_NUM ≤ RING_QD ∧
    (Rebuilds g uio bat_dios → other_devices g bat_dios ≤ RING_QD)

instance (uio : UioInfo) (bat_dios : List DioInfo) : Decidable (Rebuilds g uio bat_dios) :=
  inferInstanceAs (Decidable (_ > _))

instance (uio : UioInfo) (bat_dios : List DioInfo) : Decidable (Room g uio bat_dios) :=
  inferInstanceAs (Decidable (ite _ _ _))

/-- The constructed state, on devices of zeros. -/
def idle_store : Store := Store.fresh defaultGeometry (fun _ _ => 0) (fun _ => 0) (fun _ => 0)

/-- The queue of the first thread has a request of every other thread, each for
    the same block. -/
def crowded_store : Store :=
  { idle_store with
    inqueue_data_len := Function.update idle_store.inqueue_data_len 0 31
    v_batchque2 := fun _ _ => ⟨0, 4096, 0, 4096, 0⟩ }

variable {g}

/-! ### Reads -/

/-- A read has one run of entries, one for each chunk that it touches. -/
theorem raid_read_ring_eq {uio : UioInfo} (valid : uio.Valid g) (read_req_id : Nat) :
    raid_read_ring g read_req_id uio = some (runs [touched_chunks g uio]) := by
  have positive := valid.positive
  obtain ⟨v_dios, dios, _, _⟩ := read_dios_numbers valid read_req_id
  have count := ReadPath.read_dios_length valid dios
  have some_chunk : touched_chunks g uio ≠ 0 := Nat.ne_of_gt (blocks_pos g.SCHUNK_SIZE uio.user_offset positive)
  rw [raid_read_ring, if_neg (by omega), dios]
  simp only [Option.bind_eq_bind, Option.bind_some, s_norRead_ring, prep_each_eq, count, if_neg some_chunk]
  simp [runs]

theorem read_fits_iff {uio : UioInfo} (valid : uio.Valid g) (read_req_id : Nat) :
    (∃ ops, raid_read_ring g read_req_id uio = some ops ∧ Fits ops) ↔ touched_chunks g uio ≤ RING_QD := by
  have ring := raid_read_ring_eq valid read_req_id
  rw [← show (∀ n ∈ [touched_chunks g uio], n ≤ RING_QD) ↔ touched_chunks g uio ≤ RING_QD by simp, ← fits_runs_iff]
  constructor
  · rintro ⟨ops, same, fits⟩
    obtain rfl := Option.some.inj (ring.symm.trans same)
    exact fits
  · exact fun fits => ⟨_, ring, fits⟩

/-! ### Writes of a partial stripe -/

/-- A piece has a device request for each chunk that it touches. -/
theorem piece_dios_touched (uio : UioInfo) : (piece_dios g uio).length = touched_chunks g uio := by
  rw [piece_dios, List.length_map, cut, List.length_map, List.length_range', touched_chunks]

theorem total_length_eq (dios : List DioInfo) : total_length dios = u64 (dios.map DioInfo.length).sum := by
  have from_sum : ∀ sum < 2 ^ 64, dios.foldl (fun sum dio => u64 (sum + dio.length)) sum =
      u64 (sum + (dios.map DioInfo.length).sum) := by
    induction dios with
    | nil => exact fun sum small => (u64_small small).symm
    | cons dio dios ih =>
      intro sum _
      rw [List.foldl_cons, ih (u64 (sum + dio.length)) (Nat.mod_lt _ (by decide)), List.map_cons, List.sum_cons]
      unfold u64
      omega
  rw [total_length, from_sum 0 (by decide), Nat.zero_add]

/-- The requests of a piece have its length together. -/
theorem total_length_piece {uio : UioInfo} (piece : OneStripe g uio) : total_length (piece_dios g uio) = uio.length := by
  have user := piece.user
  have signed := g.user_signed
  have lengths : (piece_dios g uio).map DioInfo.length = (cut g.SCHUNK_SIZE uio.user_offset uio.length).map Prod.snd := by
    rw [piece_dios, List.map_map]
    rfl
  rw [total_length_eq, lengths, cut_total g.chunk_pos piece.positive, u64_small (by omega)]

theorem piece_length_le {uio : UioInfo} (piece : OneStripe g uio) : uio.length ≤ g.SSTRIPE_DATASIZE := by
  have positive := piece.positive
  have one := piece.one
  rw [user2stripe_eq, user2stripe_eq] at one
  have low := block_low g.SSTRIPE_DATASIZE uio.user_offset
  have high := block_high g.stripe_pos (uio.user_offset + uio.length - 1)
  rw [one] at high
  omega

/-- The rest of a stripe, as the code computes it. -/
theorem stripe_rest {uio : UioInfo} (piece : OneStripe g uio) :
    u64_sub (g.SCHUNK_SIZE * g.DATACHUNK_NUM) (total_length (piece_dios g uio)) = g.SSTRIPE_DATASIZE - uio.length := by
  have small := g.stripe_small
  rw [total_length_piece piece]
  exact u64_sub_small (Nat.lt_trans small (by decide)) (piece_length_le piece)

/-- A write of a partial stripe has three runs of entries. -/
theorem raid_write_ring_eq {uio : UioInfo} (piece : OneStripe g uio)
    (short : is_fullstripe g uio.user_offset uio.length = false) {st : Store}
    (slots : st.inqueue_data_len uio.user_id ≤ BATCH_SLOTS) : ∃ misses ≤ g.PARITYCHUNK_NUM, ∃ more,
      (Rebuilds g uio (queued st uio.user_id) → more = other_devices g (queued st uio.user_id)) ∧
      (¬ Rebuilds g uio (queued st uio.user_id) → more = st.inqueue_data_len uio.user_id) ∧
      raid_write_ring g uio st = some (runs [misses + touched_chunks g uio, more,
        touched_chunks g uio + st.inqueue_data_len uio.user_id + g.PARITYCHUNK_NUM]) := by
  have positive := piece.positive
  have user := piece.user
  have entry : stripeOf g uio ≤ g.USER_SPACE_LEN / g.SSTRIPE_DATASIZE + 100 := user_entry (by omega)
  have fits := (table_bounds entry).2.2
  have count : (piece_dios g uio).length = touched_chunks g uio := piece_dios_touched uio
  have some_chunk : touched_chunks g uio ≠ 0 := Nat.ne_of_gt (blocks_pos g.SCHUNK_SIZE uio.user_offset positive)
  have batch : (queued st uio.user_id).length = st.inqueue_data_len uio.user_id := by simp [queued]
  obtain ⟨after, emptied, _⟩ := drain_total st uio.user_id slots
  let misses := if (Cache.search st.cache_mod (parity_range (INT_MAX, 0) (piece_dios g uio)).1).length = g.PARITYCHUNK_NUM
    then 0 else g.PARITYCHUNK_NUM
  let more := if total_length (batch_kept (queued st uio.user_id) (stripeOf g uio * g.SCHUNK_SIZE)) >
    (g.SSTRIPE_DATASIZE - uio.length) / 2 then other_devices g (queued st uio.user_id) else st.inqueue_data_len uio.user_id
  have lookup : (if (Cache.search st.cache_mod (parity_range (INT_MAX, 0) (piece_dios g uio)).1).length = g.PARITYCHUNK_NUM
      then [] else List.replicate g.PARITYCHUNK_NUM RingOp.prep) = List.replicate misses RingOp.prep := by
    simp only [misses]
    split <;> rfl
  have old_data : (if total_length (batch_kept (queued st uio.user_id) (stripeOf g uio * g.SCHUNK_SIZE)) >
      (g.SSTRIPE_DATASIZE - uio.length) / 2 then List.replicate (other_devices g (queued st uio.user_id)) RingOp.prep
      else List.replicate (st.inqueue_data_len uio.user_id) RingOp.prep) = List.replicate more RingOp.prep := by
    simp only [more]
    split <;> rfl
  refine ⟨misses, ?_, more, fun branch => if_pos branch, fun branch => if_neg branch, ?_⟩
  · simp only [misses]
    split <;> omega
  · have some_len : ¬ (uio.buf = 0 ∨ uio.length = 0) := by
      have := piece.buffer
      omega
    rw [raid_write_ring, if_neg some_len, split_chunk2dio_piece piece]
    simp only [Option.bind_eq_bind, Option.bind_some, short, Bool.false_eq_true, ↓reduceIte, encode_partialstripe_ring,
      count, if_neg some_chunk, head_stripe piece, stripe2devoff_eq (show stripeOf g uio * g.SCHUNK_SIZE < 2 ^ 64 by omega),
      emptied, prep_each_eq, stripe_rest piece, List.length_range, batch, lookup]
    rw [← other_devices, old_data]
    simp [runs, ← List.replicate_append_replicate]

/-- A write of a partial stripe with a drained queue fits exactly when its
    requests, those of the queue and the parity chunks do, and the chunks that it
    reads in the branch for long queues. -/
theorem write_fits_iff {uio : UioInfo} (piece : OneStripe g uio)
    (short : is_fullstripe g uio.user_offset uio.length = false) {st : Store}
    (slots : st.inqueue_data_len uio.user_id ≤ BATCH_SLOTS) :
    (∃ ops, raid_write_ring g uio st = some ops ∧ Fits ops) ↔
      touched_chunks g uio + st.inqueue_data_len uio.user_id + g.PARITYCHUNK_NUM ≤ RING_QD ∧
        (Rebuilds g uio (queued st uio.user_id) → other_devices g (queued st uio.user_id) ≤ RING_QD) := by
  obtain ⟨misses, parity, more, chunks, requests, ring⟩ := raid_write_ring_eq piece short slots
  have runs_fit : (∃ ops, raid_write_ring g uio st = some ops ∧ Fits ops) ↔ misses + touched_chunks g uio ≤ RING_QD ∧
      more ≤ RING_QD ∧ touched_chunks g uio + st.inqueue_data_len uio.user_id + g.PARITYCHUNK_NUM ≤ RING_QD := by
    rw [ring]
    simp only [Option.some.injEq, exists_eq_left', fits_runs_iff]
    simp
  rw [runs_fit]
  constructor
  · rintro ⟨_, room, writes⟩
    exact ⟨writes, fun branch => chunks branch ▸ room⟩
  · rintro ⟨writes, room⟩
    refine ⟨by omega, ?_, writes⟩
    by_cases branch : Rebuilds g uio (queued st uio.user_id)
    · exact chunks branch ▸ room branch
    · rw [requests branch]
      omega

/-! ### Writes of a full stripe -/

/-- A write of a full stripe has an entry for each device. -/
theorem full_fits_iff {uio : UioInfo} (buffer : uio.buf ≠ 0)
    (entry : uio.user_offset / g.SSTRIPE_DATASIZE ≤ g.USER_SPACE_LEN / g.SSTRIPE_DATASIZE + 100)
    (full : is_fullstripe g uio.user_offset uio.length = true) (st : Store) :
    (∃ ops, raid_write_ring g uio st = some ops ∧ Fits ops) ↔ g.NUM_DEVFILES ≤ RING_QD := by
  obtain ⟨offset, length⟩ := (is_fullstripe_iff ..).mp full
  have pos := g.stripe_pos
  have some_len : ¬ (uio.buf = 0 ∨ uio.length = 0) := by omega
  have ring : raid_write_ring g uio st = some (runs [g.NUM_DEVFILES]) := by
    rw [raid_write_ring, if_neg some_len, FullStripe.split_chunk2dio_full entry offset length]
    simp only [Option.bind_eq_bind, Option.bind_some, full, ↓reduceIte, encode_fullstripe_ring, List.length_map,
      List.length_range, ne_eq, not_true_eq_false, prep_each_eq, List.replicate_append_replicate]
    rw [← Geometry.NUM_DEVFILES]
    simp [runs]
  rw [ring]
  simp [fits_runs_iff]

/-- The entries of a write fit exactly when there is room for it and its queue. -/
theorem room_iff {uio : UioInfo} (piece : OneStripe g uio) {st : Store}
    (slots : st.inqueue_data_len uio.user_id ≤ BATCH_SLOTS) :
    (∃ ops, raid_write_ring g uio st = some ops ∧ Fits ops) ↔ Room g uio (queued st uio.user_id) := by
  have batch : (queued st uio.user_id).length = st.inqueue_data_len uio.user_id := by simp [queued]
  cases full : is_fullstripe g uio.user_offset uio.length with
  | true =>
    have user := piece.user
    have positive := piece.positive
    rw [full_fits_iff piece.buffer (by rw [← user2stripe_eq]; exact user_entry (by omega)) full, Room, if_pos full]
  | false => rw [write_fits_iff piece full slots, Room, if_neg (by simp [full]), batch]

/-- With an entry for each device there is room for every piece, when nothing is
    queued. -/
theorem room_of_array {uio : UioInfo} (piece : OneStripe g uio) (array : g.NUM_DEVFILES ≤ RING_QD) : Room g uio [] := by
  unfold Room
  split
  · exact array
  · have few := (piece_dios_length piece).2
    have count : (piece_dios g uio).length = touched_chunks g uio := piece_dios_touched uio
    rw [count] at few
    refine ⟨?_, fun branch => absurd branch (Nat.not_lt_zero _)⟩
    rw [Geometry.NUM_DEVFILES] at array
    rw [List.length_nil]
    omega

/-- A write has a result when its entries fit and it has one without the ring. -/
theorem on_ring_iff {isal : Isal} {mem : Nat → Byte} {uio : UioInfo} {st : Store} {result : Submission × Store} :
    raid_write_on_ring g isal mem uio st = some result ↔
      (∃ ops, raid_write_ring g uio st = some ops ∧ Fits ops) ∧ raid_write g isal mem uio st = some result := by
  simp only [raid_write_on_ring, Option.bind_eq_bind, Option.bind_eq_some_iff, fits_iff]
  constructor
  · rintro ⟨ops, ring, pending, run, written⟩
    exact ⟨⟨ops, ring, pending, run⟩, written⟩
  · rintro ⟨⟨ops, ring, pending, run⟩, written⟩
    exact ⟨ops, ring, pending, run, written⟩

/-- A write of a full stripe on an array of at most `RING_QD` devices, from any
    state: it is split into one device request for each chunk, it leaves the data
    chunks and their parities on the devices of the stripe, the parities on those
    that hold no data, and changes nothing else. -/
theorem raid_write_full (isal : Isal) {uio : UioInfo} (buffer : uio.buf ≠ 0) (thread : uio.user_id < NUM_THREADS)
    (entry : uio.user_offset / g.SSTRIPE_DATASIZE ≤ g.USER_SPACE_LEN / g.SSTRIPE_DATASIZE + 100)
    (full : is_fullstripe g uio.user_offset uio.length = true) (array : g.NUM_DEVFILES ≤ RING_QD) (mem : Nat → Byte)
    (st : Store) :
    split_chunk2dio g uio = some ((List.range g.DATACHUNK_NUM).map fun i =>
      ⟨((uio.user_offset / g.SSTRIPE_DATASIZE + i) % g.NUM_DEVFILES : Nat), uio.buf + i * g.SCHUNK_SIZE,
        uio.user_offset / g.SSTRIPE_DATASIZE * g.SCHUNK_SIZE, g.SCHUNK_SIZE, 0⟩) ∧
    (∃ submission after, raid_write_on_ring g isal mem uio st = some (submission, after) ∧
      FullStripe.Written g (uio.user_offset / g.SSTRIPE_DATASIZE) mem uio.buf st.devs after.devs) ∧
    ∀ p < g.PARITYCHUNK_NUM, parityDev g (uio.user_offset / g.SSTRIPE_DATASIZE) p < g.NUM_DEVFILES ∧
      (∀ i < g.DATACHUNK_NUM, parityDev g (uio.user_offset / g.SSTRIPE_DATASIZE) p ≠
        (uio.user_offset / g.SSTRIPE_DATASIZE + i) % g.NUM_DEVFILES) ∧
      ∀ r < g.PARITYCHUNK_NUM, parityDev g (uio.user_offset / g.SSTRIPE_DATASIZE) p =
        parityDev g (uio.user_offset / g.SSTRIPE_DATASIZE) r → p = r := by
  obtain ⟨offset, length⟩ := (is_fullstripe_iff ..).mp full
  refine ⟨FullStripe.split_chunk2dio_full entry offset length, ?_, fun p chunk => ⟨parityDev_lt .., ?_, ?_⟩⟩
  · obtain ⟨submission, after, result, written⟩ := FullStripe.stripe_written isal buffer thread entry full mem st
    exact ⟨submission, after, on_ring_iff.mpr ⟨(full_fits_iff buffer entry full st).mpr array, result⟩, written⟩
  · exact fun i data => parityDev_ne_dataDev chunk data
  · exact fun r other => parityDev_inj chunk other

/-- A write of the second stripe. -/
theorem raid_write_full_second : ∃ submission after,
    raid_write_on_ring defaultGeometry Isal.reference (fun a => a) ⟨0, true, 4096, 458752, 458752⟩ idle_store =
      some (submission, after) ∧
    FullStripe.Written defaultGeometry 1 (fun a => a) 4096 (fun _ _ => 0) after.devs :=
  (raid_write_full Isal.reference (by decide) (by decide) (by decide) (by decide) (by decide) _ _).2.1

/-- The first stripe of an array of 65 devices is too much for a ring, and a stripe
    far past the user space is in no table. -/
theorem raid_write_full_overfilled :
    (is_fullstripe wideGeometry 0 wideGeometry.SSTRIPE_DATASIZE = true ∧
      raid_write_on_ring wideGeometry Isal.reference (fun a => a) ⟨0, true, 4096, 0, wideGeometry.SSTRIPE_DATASIZE⟩
        (Store.fresh wideGeometry (fun _ _ => 0) (fun _ => 0) (fun _ => 0)) = none) ∧
    (is_fullstripe defaultGeometry (2 ^ 20 * 458752) 458752 = true ∧
      raid_write_on_ring defaultGeometry Isal.reference (fun a => a) ⟨0, true, 4096, 2 ^ 20 * 458752, 458752⟩ idle_store =
        none) := by
  refine ⟨⟨by decide, Option.eq_none_iff_forall_ne_some.mpr fun result some => ?_⟩, by decide,
    Option.eq_none_iff_forall_ne_some.mpr fun result some => ?_⟩
  · have room := (full_fits_iff (by decide) (by decide) (by decide) _).mp (on_ring_iff.mp some).1
    exact absurd room (by decide)
  · have none : (raid_write defaultGeometry Isal.reference (fun a => a) ⟨0, true, 4096, 2 ^ 20 * 458752, 458752⟩
        idle_store).isNone = true := by decide +kernel
    rw [(on_ring_iff.mp some).2] at none
    cases none

/-- The ring of a thread is never overfilled by a read exactly when it touches at
    most `RING_QD` chunks, and by a write of a partial stripe exactly when what
    it submits together is not more. -/
theorem ring_fits_iff {uio piece : UioInfo} {st : Store} (valid : uio.Valid g) (read_req_id : Nat) (one : OneStripe g piece)
    (short : is_fullstripe g piece.user_offset piece.length = false)
    (few : st.inqueue_data_len piece.user_id ≤ NUM_THREADS - 1) :
    ((∃ ops, raid_read_ring g read_req_id uio = some ops ∧ Fits ops) ↔ touched_chunks g uio ≤ RING_QD) ∧
    ((∃ ops, raid_write_ring g piece st = some ops ∧ Fits ops) ↔
      touched_chunks g piece + st.inqueue_data_len piece.user_id + g.PARITYCHUNK_NUM ≤ RING_QD ∧
        (Rebuilds g piece (queued st piece.user_id) → other_devices g (queued st piece.user_id) ≤ RING_QD)) :=
  ⟨read_fits_iff valid read_req_id, write_fits_iff one short (Nat.le_trans few (by decide))⟩

/-- A read and a write of a block each, with nothing queued. -/
theorem ring_fits_block :
    ((∃ ops, raid_read_ring defaultGeometry 0 ⟨0, false, 4096, 0, 4096⟩ = some ops ∧ Fits ops) ↔
      touched_chunks defaultGeometry ⟨0, false, 4096, 0, 4096⟩ ≤ RING_QD) ∧
    ((∃ ops, raid_write_ring defaultGeometry ⟨0, true, 4096, 0, 4096⟩ idle_store = some ops ∧ Fits ops) ↔
      touched_chunks defaultGeometry ⟨0, true, 4096, 0, 4096⟩ + idle_store.inqueue_data_len 0 +
          defaultGeometry.PARITYCHUNK_NUM ≤ RING_QD ∧
        (Rebuilds defaultGeometry ⟨0, true, 4096, 0, 4096⟩ (queued idle_store 0) →
          other_devices defaultGeometry (queued idle_store 0) ≤ RING_QD)) :=
  ring_fits_iff (by decide) 0 (by decide) (by decide) (by decide)

/-- A read of 33 chunks, and a write of a stripe but its last block with the
    requests of all other threads queued, are too many for a ring. -/
theorem ring_overfilled :
    (UioInfo.Valid defaultGeometry ⟨0, false, 4096, 0, 2162688⟩ ∧ 2162688 ≤ 100 * 1024 * 1024 ∧
      ¬ ∃ ops, raid_read_ring defaultGeometry 0 ⟨0, false, 4096, 0, 2162688⟩ = some ops ∧ Fits ops) ∧
    (OneStripe defaultGeometry ⟨0, true, 4096, 0, 454656⟩ ∧ is_fullstripe defaultGeometry 0 454656 = false ∧
      crowded_store.inqueue_data_len 0 ≤ NUM_THREADS - 1 ∧
      ¬ ∃ ops, raid_write_ring defaultGeometry ⟨0, true, 4096, 0, 454656⟩ crowded_store = some ops ∧ Fits ops) := by
  refine ⟨⟨by decide, by decide, ?_⟩, by decide, by decide, by decide, ?_⟩
  · rw [read_fits_iff (by decide)]
    decide
  · rw [write_fits_iff (by decide) (by decide) (by decide)]
    exact fun fits => absurd fits.1 (by decide)

end Straid.RingDepth
