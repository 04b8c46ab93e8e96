import Straid.FullStripe

/-!
A write of a part of a stripe, with no delegated requests in the queue. The
range of the parity chunk is the smallest offset and the largest length of the
device requests (`partialRange`), which is a range of the stripe's row unless
the row is past the largest `int` (`partialRange_row`). No assertion of the path
fails, and the writes are those of the data and of the parity buffers
(`encode_partialstripe_spec`). `raid_write_spec` has both paths of a write.
-/
namespace Straid.PartialStripe
open LogFiles Metadata Split Encode EcEncoder StorageMod FullStripe Cuts Overlays

variable (g : Geometry) (isal : Isal)

/-- The stripe of a piece. -/
def stripeOf (uio : UioInfo) : Nat := user2stripe g uio.user_offset

/-- The range of the parity chunk that a partial stripe reads and writes: its
    offset and its length. -/
def partialRange (uio : UioInfo) : Nat × Nat := parity_range (INT_MAX, 0) (piece_dios g uio)

/-- The writes of a partial stripe, with the parity buffers `par`. -/
def partialWrites (mem : Nat → Byte) (uio : UioInfo) (par : Nat → Buf) : List DeviceWrite :=
  piece_writes g mem uio ++ (List.range g.PARITYCHUNK_NUM).map fun p =>
    ⟨parityDev g (stripeOf g uio) 0, (partialRange g uio).1, (partialRange g uio).2, par p⟩

/-- What a state between calls is ready for: nobody has delegated a request, and
    the cache is in order. -/
structure Ready (st : Store) : Prop where
  idle : ∀ tid, st.inqueue_data_len tid = 0
  cache : Cache.Inv g st.cache_mod

variable {g}

/-! ### The range of the parity chunk -/

theorem parity_range_cons (range : Nat × Nat) (dio : DioInfo) (dios : List DioInfo) :
    parity_range range (dio :: dios) = parity_range (min range.1 dio.dev_offset, max range.2 dio.length) dios := rfl

/-- The offset of the range is the smallest, its length the largest. -/
theorem parity_range_spec (dios : List DioInfo) (range : Nat × Nat) :
    (parity_range range dios).1 ≤ range.1 ∧ (∀ dio ∈ dios, (parity_range range dios).1 ≤ dio.dev_offset) ∧
      ((parity_range range dios).1 = range.1 ∨ ∃ dio ∈ dios, (parity_range range dios).1 = dio.dev_offset) ∧
      range.2 ≤ (parity_range range dios).2 ∧ (∀ dio ∈ dios, dio.length ≤ (parity_range range dios).2) ∧
      ((parity_range range dios).2 = range.2 ∨ ∃ dio ∈ dios, (parity_range range dios).2 = dio.length) := by
  induction dios generalizing range with
  | nil => simp [parity_range]
  | cons dio dios ih =>
    rw [parity_range_cons]
    obtain ⟨low, lows, smallest, high, highs, largest⟩ := ih (min range.1 dio.dev_offset, max range.2 dio.length)
    simp only at low smallest high largest
    refine ⟨Nat.le_trans low (Nat.min_le_left ..), ?_, ?_, Nat.le_trans (Nat.le_max_left ..) high, ?_, ?_⟩
    · intro d member
      rcases List.mem_cons.mp member with rfl | later
      · exact Nat.le_trans low (Nat.min_le_right ..)
      · exact lows d later
    · rcases smallest with same | ⟨d, member, same⟩
      · rcases Nat.le_total range.1 dio.dev_offset with le | le
        · exact .inl (same.trans (Nat.min_eq_left le))
        · exact .inr ⟨dio, List.mem_cons_self, same.trans (Nat.min_eq_right le)⟩
      · exact .inr ⟨d, List.mem_cons_of_mem _ member, same⟩
    · intro d member
      rcases List.mem_cons.mp member with rfl | later
      · exact Nat.le_trans (Nat.le_max_right ..) high
      · exact highs d later
    · rcases largest with same | ⟨d, member, same⟩
      · rcases Nat.le_total dio.length range.2 with le | le
        · exact .inl (same.trans (Nat.max_eq_left le))
        · exact .inr ⟨dio, List.mem_cons_self, same.trans (Nat.max_eq_right le)⟩
      · exact .inr ⟨d, List.mem_cons_of_mem _ member, same⟩

/-- The parts of a piece are in its stripe, and each in the row. -/
theorem piece_part {uio : UioInfo} (one : OneStripe g uio) {r : Nat × Nat}
    (member : r ∈ cut g.SCHUNK_SIZE uio.user_offset uio.length) : 0 < r.2 ∧ user2stripe g r.1 = stripeOf g uio ∧
      stripeOf g uio * g.SCHUNK_SIZE ≤ devoffOf g r.1 ∧
      devoffOf g r.1 + r.2 ≤ stripeOf g uio * g.SCHUNK_SIZE + g.SCHUNK_SIZE := by
  obtain ⟨some_part, low, high, chunk⟩ := cut_inside g.chunk_pos one.positive member
  have first : user2stripe g uio.user_offset ≤ user2stripe g r.1 := by
    rw [user2stripe_eq, user2stripe_eq]
    exact Nat.div_le_div_right low
  have last : user2stripe g r.1 ≤ user2stripe g (uio.user_offset + uio.length - 1) := by
    rw [user2stripe_eq, user2stripe_eq]
    exact Nat.div_le_div_right (by omega)
  have stripe : user2stripe g r.1 = stripeOf g uio := by
    have := one.one
    unfold stripeOf
    omega
  have upto := block_high g.chunk_pos (r.1 + r.2 - 1)
  have split := Nat.div_add_mod' r.1 g.SCHUNK_SIZE
  rw [chunk] at upto
  refine ⟨some_part, stripe, ?_, ?_⟩ <;> unfold devoffOf <;> rw [stripe] <;> omega

theorem mem_piece_dios {uio : UioInfo} {dio : DioInfo} : dio ∈ piece_dios g uio ↔
    ∃ r ∈ cut g.SCHUNK_SIZE uio.user_offset uio.length, dio = dioOf (g := g) uio r := by
  simp only [piece_dios, List.mem_map, eq_comm]

theorem some_part (g : Geometry) {uio : UioInfo} (positive : 0 < uio.length) :
    ∃ r, r ∈ cut g.SCHUNK_SIZE uio.user_offset uio.length := by
  obtain ⟨rest, head⟩ := cut_head g.SCHUNK_SIZE uio.user_offset positive
  exact ⟨_, head ▸ List.mem_cons_self⟩

theorem partialRange_pos {uio : UioInfo} (one : OneStripe g uio) : 0 < (partialRange g uio).2 := by
  obtain ⟨r, member⟩ := some_part g one.positive
  obtain ⟨_, _, _, _, highs, _⟩ := parity_range_spec (piece_dios g uio) (INT_MAX, 0)
  have le := highs _ (mem_piece_dios.mpr ⟨r, member, rfl⟩)
  have pos := (piece_part one member).1
  simp only [dioOf] at le
  unfold partialRange
  omega

theorem partialRange_int (uio : UioInfo) : (partialRange g uio).1 ≤ INT_MAX := (parity_range_spec _ _).1

theorem partialRange_len {uio : UioInfo} (one : OneStripe g uio) : (partialRange g uio).2 ≤ g.SCHUNK_SIZE := by
  obtain ⟨_, _, _, _, _, largest⟩ := parity_range_spec (piece_dios g uio) (INT_MAX, 0)
  unfold partialRange
  rcases largest with same | ⟨dio, member, same⟩
  · omega
  · obtain ⟨r, there, rfl⟩ := mem_piece_dios.mp member
    have row := piece_part one there
    simp only [dioOf] at same
    omega

/-- Past the largest `int` the range starts there. -/
theorem partialRange_wide {uio : UioInfo} (one : OneStripe g uio) (wide : INT_MAX < stripeOf g uio * g.SCHUNK_SIZE) :
    (partialRange g uio).1 = INT_MAX := by
  obtain ⟨_, _, smallest, _⟩ := parity_range_spec (piece_dios g uio) (INT_MAX, 0)
  have int := partialRange_int (g := g) uio
  unfold partialRange at int ⊢
  rcases smallest with same | ⟨dio, member, same⟩
  · exact same
  · obtain ⟨r, there, rfl⟩ := mem_piece_dios.mp member
    have row := (piece_part one there).2.2.1
    simp only [dioOf] at same
    omega

/-- The range is in the row of the stripe, unless the row is past the largest
    `int`. -/
theorem partialRange_row {uio : UioInfo} (one : OneStripe g uio) (low : stripeOf g uio * g.SCHUNK_SIZE ≤ INT_MAX) :
    stripeOf g uio * g.SCHUNK_SIZE ≤ (partialRange g uio).1 ∧
      (partialRange g uio).1 + (partialRange g uio).2 ≤ stripeOf g uio * g.SCHUNK_SIZE + g.SCHUNK_SIZE := by
  have pos := partialRange_pos one
  obtain ⟨_, lows, smallest, _, _, largest⟩ := parity_range_spec (piece_dios g uio) (INT_MAX, 0)
  unfold partialRange at *
  constructor
  · rcases smallest with same | ⟨dio, member, same⟩
    · omega
    · obtain ⟨r, there, rfl⟩ := mem_piece_dios.mp member
      have row := (piece_part one there).2.2.1
      simp only [dioOf] at same
      omega
  · rcases largest with same | ⟨dio, member, same⟩
    · omega
    · have le := lows dio member
      obtain ⟨r, there, rfl⟩ := mem_piece_dios.mp member
      have row := (piece_part one there).2.2.2
      simp only [dioOf] at same le
      omega

/-! ### The parts of the path -/

theorem read_old_total {dios : List DioInfo} (devices : ∀ dio ∈ dios, ∃ dev < g.NUM_DEVFILES, dio.dev_id = (dev : Nat))
    (devs : Nat → Nat → Byte) (i : Nat) (fits : i + dios.length ≤ BUF_LEN) (bufs : Nat → Buf) :
    ∃ after, read_old_data g devs i dios bufs = some after := by
  induction dios generalizing i bufs with
  | nil => exact ⟨bufs, rfl⟩
  | cons dio dios ih =>
    obtain ⟨dev, lt, device⟩ := devices dio List.mem_cons_self
    rw [List.length_cons] at fits
    obtain ⟨after, rest⟩ := ih (fun d member => devices d (List.mem_cons_of_mem _ member)) (i + 1) (by omega)
      (Function.update bufs i (iouring_rprep devs dev (bufs i) dio.dev_offset dio.length))
    refine ⟨after, ?_⟩
    rw [read_old_data, if_neg (by omega), device, v_stdfiles_at_eq lt]
    exact rest

/-- The old data that is read are the bytes of the devices. -/
theorem read_old_bytes {devs : Nat → Nat → Byte} {dios : List DioInfo} {i : Nat} {bufs after : Nat → Buf}
    (read : read_old_data g devs i dios bufs = some after) :
    (∀ j < i, after j = bufs j) ∧ ∀ n dio, dios[n]? = some dio → ∀ k < dio.length,
      after (i + n) k = devs dio.dev_id.toNat (dio.dev_offset + k) := by
  induction dios generalizing i bufs with
  | nil =>
    obtain rfl := Option.some.inj read
    exact ⟨fun _ _ => rfl, fun n dio at_n => by simp at at_n⟩
  | cons dio dios ih =>
    rw [read_old_data] at read
    split at read
    · contradiction
    · obtain ⟨dev, found, rest⟩ := Option.bind_eq_some_iff.mp read
      obtain ⟨before, later⟩ := ih rest
      have device : dev = dio.dev_id.toNat := by
        rw [v_stdfiles_at, Option.ite_none_right_eq_some] at found
        exact (Option.some.inj found.2).symm
      constructor
      · intro j below
        rw [before j (by omega), Function.update_of_ne (by omega)]
      · intro n d at_n k inside
        cases n with
        | zero =>
          obtain rfl := Option.some.inj at_n
          rw [Nat.add_zero, before i (Nat.lt_succ_self i), Function.update_self, iouring_rprep,
            overlay_inside (Nat.zero_le k) (by omega), device, Nat.sub_zero]
        | succ n =>
          have bytes := later n d (by simpa using at_n) k inside
          rwa [Nat.add_right_comm, Nat.add_assoc] at bytes

/-- The lookup gives parity buffers; on a hit they are those of before. -/
theorem load_parity_total {st : Store} (cache : Cache.Inv g st.cache_mod) (tid s soff slen : Nat)
    (some_len : slen ≠ 0) : ∃ par, load_parity g st tid s soff slen = some par ∧
      (soff ∈ Cache.keys st.cache_mod → par = st.v_enparitybuf tid) := by
  have pos := g.parity_pos
  unfold load_parity
  rcases Cache.search_length cache soff with ⟨length, _⟩ | ⟨nothing, miss⟩
  · exact ⟨_, by rw [if_pos length, Cache.get_eq g some_len (by omega)], fun _ => rfl⟩
  · have other : ¬ ([] : List Buf).length = g.PARITYCHUNK_NUM := by rw [List.length_nil]; omega
    simp only [nothing, if_neg other, stripe2paritypos_eq, v_stdfiles_at_eq (parityDev_lt ..), Option.map_some]
    exact ⟨_, rfl, fun hit => absurd hit miss⟩

theorem drain_idle (tid : Nat) (st : Store) (idle : st.inqueue_data_len tid = 0) : drain st tid = some ([], st) := by
  simp [drain, idle]

/-- Copies of no byte change nothing, however often. -/
theorem gets_eq {ins : List Buf} {len : Nat} (some_len : len ≠ 0) (few : ins.length ≤ g.PARITYCHUNK_NUM)
    (rounds : List Nat) (bufs : Nat → Buf) :
    rounds.foldlM (fun (bufs : Nat → Buf) _ => Cache.get g bufs ins len) bufs = some bufs := by
  induction rounds with
  | nil => rfl
  | cons r rounds ih => simpa [Cache.get_eq g some_len few] using ih

/-- The update of the cache keeps the parity buffers and adds at most the offset
    of the range, and that at least to an empty cache. -/
theorem update_cache_spec {c : Cache.ParityCache} (inv : Cache.Inv g c) (par : Nat → Buf) (soff : Nat) {slen : Nat}
    (some_len : slen ≠ 0) : ∃ after, update_cache g c par (Cache.search c soff) soff slen = some (par, after) ∧
      Cache.Inv g after ∧ (∀ k ∈ Cache.keys after, k = soff ∨ k ∈ Cache.keys c) ∧
        (Cache.keys c = [] → soff ∈ Cache.keys after) := by
  have pos := g.parity_pos
  unfold update_cache
  rcases Cache.search_length inv soff with ⟨length, cached⟩ | ⟨nothing, miss⟩
  · refine ⟨c, ?_, inv, fun k member => .inr member, fun _ => cached⟩
    rw [if_pos length, gets_eq some_len (by omega)]
    rfl
  · obtain ⟨after, inserted, inv', keys, _, first⟩ := Cache.insert_cpy_spec inv miss
    refine ⟨after, ?_, inv', keys, first⟩
    rw [nothing, List.length_nil, if_neg (by omega), inserted]
    rfl

theorem partial_ppos_eq (s : Nat) : partial_ppos g s = (parityDev g s 0 : Nat) := by
  have lt := parityDev_lt (g := g) s 0
  simp only [partial_ppos, stripe2paritypos_eq]
  rw [if_neg (by omega)]

theorem parity_writes_eq (s soff slen : Nat) (par : Nat → Buf) : parity_writes g s par soff slen =
    some ((List.range g.PARITYCHUNK_NUM).map fun p => ⟨parityDev g s 0, soff, slen, par p⟩) := by
  unfold parity_writes
  rw [partial_ppos_eq, ← List.map_id (List.range g.PARITYCHUNK_NUM)]
  refine (mapM_some fun p _ => ?_).trans (by rw [List.map_id])
  exact iouring_wprep_eq (parityDev_lt ..) _ _ _

theorem piece_dios_length {uio : UioInfo} (one : OneStripe g uio) :
    0 < (piece_dios g uio).length ∧ (piece_dios g uio).length ≤ g.DATACHUNK_NUM := by
  have chunk_first := chunk_split (g := g) uio.user_offset
  have chunk_last := chunk_split (g := g) (uio.user_offset + uio.length - 1)
  have last := chunkOf_lt (g := g) (uio.user_offset + uio.length - 1)
  have pos := blocks_pos g.SCHUNK_SIZE uio.user_offset one.positive
  rw [one.one] at chunk_last
  simp only [piece_dios, cut, List.length_map, List.length_range']
  refine ⟨pos, ?_⟩
  unfold blocks
  omega

theorem piece_devices (uio : UioInfo) :
    ∀ dio ∈ piece_dios g uio, ∃ dev < g.NUM_DEVFILES, dio.dev_id = (dev : Nat) := by
  intro dio member
  obtain ⟨r, _, rfl⟩ := mem_piece_dios.mp member
  exact ⟨devOf g r.1, devOf_lt _, rfl⟩

/-- The stripe that the path computes from the first device request is that of
    the piece. -/
theorem head_stripe {uio : UioInfo} (one : OneStripe g uio) :
    devoff2stripe g ((piece_dios g uio).headD default).dev_offset = stripeOf g uio := by
  have user := one.user
  have positive := one.positive
  obtain ⟨dio, rest, first⟩ := List.exists_cons_of_length_pos (piece_dios_length one).1
  obtain ⟨r, there, rfl⟩ := mem_piece_dios.mp (first ▸ List.mem_cons_self)
  obtain ⟨some_part, _, low, high⟩ := piece_part one there
  rw [first, List.headD_cons]
  exact devoff2stripe_row (user_entry (by omega)) low (by simp only [dioOf]; omega)

/-- Reading the old data of one list after another is reading that of both. -/
theorem read_old_append (devs : Nat → Nat → Byte) (xs ys : List DioInfo) (i : Nat) (bufs : Nat → Buf) :
    (read_old_data g devs i xs bufs).bind (read_old_data g devs (i + xs.length) ys) = read_old_data g devs i (xs ++ ys) bufs := by
  induction xs generalizing i bufs with
  | nil => rfl
  | cons dio xs ih =>
    have tail := fun bufs => ih (i + 1) bufs
    simp only [List.length_cons, List.cons_append, read_old_data]
    rw [← Nat.add_assoc, Nat.add_right_comm]
    split
    · rfl
    · simp only [Option.bind_eq_bind, Option.bind_assoc, tail]

theorem updates_inside {uio : UioInfo} (one : OneStripe g uio) (fits : stripeOf g uio * g.SCHUNK_SIZE + g.SCHUNK_SIZE < 2 ^ 64) :
    ∀ u ∈ (chunk_offsets (piece_dios g uio) [] (stripeOf g uio * g.SCHUNK_SIZE)).zip
      (chunk_lengths (piece_dios g uio) [] (stripeOf g uio * g.SCHUNK_SIZE)), u.1 + u.2 ≤ g.SCHUNK_SIZE := by
  intro u member
  simp only [chunk_offsets, chunk_lengths, batch_kept, List.filter_nil, List.append_nil, List.zip_map', List.mem_map] at member
  obtain ⟨dio, there, rfl⟩ := member
  obtain ⟨r, part, rfl⟩ := mem_piece_dios.mp there
  obtain ⟨_, _, low, high⟩ := piece_part one part
  simp only [dioOf]
  rw [u64_sub_small (by omega) low]
  omega

/-! ### The path as a whole -/

/-- What a write of a partial stripe does to the state, with parity buffers
    `par` at its end. -/
structure PartialStep (g : Geometry) (mem : Nat → Byte) (uio : UioInfo) (st : Store) (par : Nat → Buf)
    (after : Store) : Prop where
  devs : after.devs = applyAll st.devs (partialWrites g mem uio par)
  parity : after.v_enparitybuf = Function.update st.v_enparitybuf uio.user_id par
  sst : after.sst = Function.update st.sst (stripeOf g uio) { st.sst (stripeOf g uio) with is_frozen := true }
  ready : Ready g after
  keys : ∀ k ∈ Cache.keys after.cache_mod, k = (partialRange g uio).1 ∨ k ∈ Cache.keys st.cache_mod
  first : Cache.keys st.cache_mod = [] → (partialRange g uio).1 ∈ Cache.keys after.cache_mod

/-- The parity buffers `par` are those that a write of a partial stripe computes,
    with no delegated requests: from the parity and the old data that it loads,
    for the updates of the piece. -/
def Encoded (g : Geometry) (isal : Isal) (uio : UioInfo) (st : Store) (par : Nat → Buf) : Prop := ∃ loaded old temp,
  load_parity g st uio.user_id (stripeOf g uio) (partialRange g uio).1 (partialRange g uio).2 = some loaded ∧
  read_old_data g st.devs 0 (piece_dios g uio) (st.v_olddatabuf uio.user_id) = some old ∧
  do_part_encode g isal old (st.v_newdatabuf uio.user_id) (st.v_tempbuf uio.user_id) loaded
    (chunk_offsets (piece_dios g uio) [] (stripeOf g uio * g.SCHUNK_SIZE))
    (chunk_lengths (piece_dios g uio) [] (stripeOf g uio * g.SCHUNK_SIZE)) = some (temp, par)

/-- With no delegated requests, `encode_partialstripe` writes the data of a piece
    and the parity buffers that it computes, and nothing on the way fails. -/
theorem encode_partialstripe_encoded {uio : UioInfo} (one : OneStripe g uio) {st : Store} (ready : Ready g st)
    (mem : Nat → Byte) : ∃ par after, Encoded g isal uio st par ∧
      encode_partialstripe g isal mem uio.user_id (piece_dios g uio) st = some (partialWrites g mem uio par, after) ∧
      PartialStep g mem uio st par after := by
  have user := one.user
  have positive := one.positive
  have entry : stripeOf g uio ≤ g.USER_SPACE_LEN / g.SSTRIPE_DATASIZE + 100 := user_entry (by omega)
  obtain ⟨int, _, fits⟩ := table_bounds entry
  have some_len : (partialRange g uio).2 ≠ 0 := by have := partialRange_pos one; omega
  obtain ⟨some_dio, few⟩ := piece_dios_length one
  have data := g.data_max
  have wide := g.chunk_pos
  have head := head_stripe one
  have start : stripe2devoff g (stripeOf g uio) 0 = stripeOf g uio * g.SCHUNK_SIZE := stripe2devoff_eq (by omega)
  obtain ⟨loaded, load, _⟩ := load_parity_total ready.cache uio.user_id (stripeOf g uio) (partialRange g uio).1 _ some_len
  obtain ⟨old, read⟩ := read_old_total (piece_devices (g := g) uio) st.devs 0 (by unfold BUF_LEN KMAX at *; omega)
    (st.v_olddatabuf uio.user_id)
  obtain ⟨⟨temp, par⟩, loop⟩ := part_encode_total isal old (st.v_newdatabuf uio.user_id) _ 0
    (st.v_tempbuf uio.user_id) loaded (updates_inside one fits)
  have encoded : do_part_encode g isal old (st.v_newdatabuf uio.user_id) (st.v_tempbuf uio.user_id) loaded
    (chunk_offsets (piece_dios g uio) [] (stripeOf g uio * g.SCHUNK_SIZE))
    (chunk_lengths (piece_dios g uio) [] (stripeOf g uio * g.SCHUNK_SIZE)) = some (temp, par) := loop
  obtain ⟨c, updated, cache, keys, first⟩ := update_cache_spec ready.cache par (partialRange g uio).1 some_len
  have nonempty : ¬ (piece_dios g uio).length = 0 := by omega
  have no_more : ∀ range, parity_range range [] = range := fun _ => rfl
  have no_batch : ∀ o, total_length (batch_kept [] o) = 0 := fun _ => rfl
  have no_writes : data_writes g mem [] = some [] := rfl
  have computed : Encoded g isal uio st par := ⟨loaded, old, temp, load, read, encoded⟩
  unfold partialRange at load updated
  refine ⟨par, { st with
    devs := applyAll st.devs (partialWrites g mem uio par)
    v_endatabuf := Function.update st.v_endatabuf uio.user_id (st.v_endatabuf uio.user_id)
    v_enparitybuf := Function.update st.v_enparitybuf uio.user_id par
    v_olddatabuf := Function.update st.v_olddatabuf uio.user_id old
    v_tempbuf := Function.update st.v_tempbuf uio.user_id temp
    cache_mod := c
    sst := Function.update st.sst (stripeOf g uio) { st.sst (stripeOf g uio) with is_frozen := true } }, computed,
    ?_, rfl, rfl, rfl, ⟨ready.idle, cache⟩, keys, first⟩
  have drained := drain_idle uio.user_id { st with
    sst := Function.update st.sst (stripeOf g uio) { st.sst (stripeOf g uio) with is_frozen := true } }
    (ready.idle uio.user_id)
  unfold encode_partialstripe
  simp only [nonempty, Nat.not_le.mpr one.thread, ↓reduceIte, head, start, load, read, freeze_eq entry,
    Option.bind_eq_bind, Option.bind_some, drained, no_more, no_batch, no_writes, Nat.not_lt_zero, gt_iff_lt,
    read_old_data, encoded, data_writes_piece, parity_writes_eq, updated, List.append_nil]
  rfl

theorem encode_partialstripe_spec {uio : UioInfo} (one : OneStripe g uio) {st : Store} (ready : Ready g st)
    (mem : Nat → Byte) : ∃ par after, encode_partialstripe g isal mem uio.user_id (piece_dios g uio) st =
      some (partialWrites g mem uio par, after) ∧ PartialStep g mem uio st par after := by
  obtain ⟨par, after, _, written, step⟩ := encode_partialstripe_encoded isal one ready mem
  exact ⟨par, after, written, step⟩

end Straid.PartialStripe
