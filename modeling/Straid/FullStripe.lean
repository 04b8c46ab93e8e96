import Straid.StorageMod

/-!
A write of a full stripe. It is split into one device request for each data
chunk (`split_chunk2dio_full`), encoded and written (`encode_fullstripe_eq`).
`stripe_written` has what is on the devices afterwards, from any state before:
the data chunks and their parities on the devices of the stripe, in its row, and
everything else as it was.
-/
namespace Straid.FullStripe
open LogFiles Metadata Split Encode EcEncoder StorageMod Cuts Overlays XorSums

variable (g : Geometry) (isal : Isal)

/-- The device request of data chunk `i` of a full stripe. -/
def fullDio (s buf i : Nat) : DioInfo := ⟨dataDev g s i, buf + i * g.SCHUNK_SIZE, s * g.SCHUNK_SIZE, g.SCHUNK_SIZE, 0⟩

/-- The data buffers of the thread after the data is copied. -/
def fullData (mem : Nat → Byte) (buf : Nat) (endatabuf : Nat → Buf) : Nat → Buf := fun i =>
  if i < g.DATACHUNK_NUM then overlay (endatabuf i) 0 g.SCHUNK_SIZE (shift mem (buf + i * g.SCHUNK_SIZE)) else endatabuf i

/-- The parity buffers after the encoding. -/
def fullParity (mem : Nat → Byte) (buf : Nat) (endatabuf enparitybuf : Nat → Buf) : Nat → Buf :=
  do_full_encode g isal (fullData g mem buf endatabuf) enparitybuf

/-- The writes of a full stripe. -/
def fullWrites (s : Nat) (data par : Nat → Buf) : List DeviceWrite :=
  (List.range g.DATACHUNK_NUM).map (fun i => ⟨dataDev g s i, s * g.SCHUNK_SIZE, g.SCHUNK_SIZE, data i⟩) ++
    (List.range g.PARITYCHUNK_NUM).map (fun p => ⟨parityDev g s p, s * g.SCHUNK_SIZE, g.SCHUNK_SIZE, par p⟩)

/-- The state after a full stripe is written. -/
def fullState (s tid : Nat) (mem : Nat → Byte) (buf : Nat) (st : Store) : Store :=
  let data := fullData g mem buf (st.v_endatabuf tid)
  let par := fullParity g isal mem buf (st.v_endatabuf tid) (st.v_enparitybuf tid)
  { st with
    devs := applyAll st.devs (fullWrites g s data par)
    v_endatabuf := Function.update st.v_endatabuf tid data
    v_enparitybuf := Function.update st.v_enparitybuf tid par
    sst := Function.update st.sst s { st.sst s with is_frozen := true } }

variable {g}

/-! ### The device requests -/

theorem cut_full (s : Nat) : cut g.SCHUNK_SIZE (s * g.SSTRIPE_DATASIZE) g.SSTRIPE_DATASIZE =
    (List.range g.DATACHUNK_NUM).map fun i => ((s * g.DATACHUNK_NUM + i) * g.SCHUNK_SIZE, g.SCHUNK_SIZE) := by
  have wide := g.chunk_pos
  have data := g.data_pos
  have whole : s * g.SSTRIPE_DATASIZE = s * g.DATACHUNK_NUM * g.SCHUNK_SIZE := by rw [g.stripe_size, Nat.mul_assoc]
  have upto : s * g.SSTRIPE_DATASIZE + g.SSTRIPE_DATASIZE = (s * g.DATACHUNK_NUM + g.DATACHUNK_NUM) * g.SCHUNK_SIZE := by
    rw [g.stripe_size]
    ring
  have first : s * g.SSTRIPE_DATASIZE / g.SCHUNK_SIZE = s * g.DATACHUNK_NUM := by
    rw [whole, Nat.mul_div_cancel _ wide]
  have last : (s * g.SSTRIPE_DATASIZE + g.SSTRIPE_DATASIZE - 1) / g.SCHUNK_SIZE = s * g.DATACHUNK_NUM + g.DATACHUNK_NUM - 1 := by
    obtain ⟨n, eq⟩ : ∃ n, g.DATACHUNK_NUM = n + 1 := ⟨g.DATACHUNK_NUM - 1, by omega⟩
    rw [upto, eq, ← Nat.add_assoc, Nat.succ_mul]
    exact block_unique (by rw [Nat.add_sub_cancel]; omega) (by rw [Nat.add_sub_cancel]; omega)
  rw [cut, blocks, first, last, show s * g.DATACHUNK_NUM + g.DATACHUNK_NUM - 1 + 1 - s * g.DATACHUNK_NUM =
    g.DATACHUNK_NUM by omega, List.range'_eq_map_range, List.map_map]
  refine List.map_congr_left fun i member => ?_
  rw [List.mem_range] at member
  have low : s * g.DATACHUNK_NUM * g.SCHUNK_SIZE ≤ (s * g.DATACHUNK_NUM + i) * g.SCHUNK_SIZE :=
    Nat.mul_le_mul_right _ (by omega)
  have high : (s * g.DATACHUNK_NUM + i + 1) * g.SCHUNK_SIZE ≤ (s * g.DATACHUNK_NUM + g.DATACHUNK_NUM) * g.SCHUNK_SIZE :=
    Nat.mul_le_mul_right _ (by omega)
  rw [Nat.succ_mul] at high
  simp only [Function.comp_apply, piece, start, stop]
  refine Prod.ext ?_ ?_ <;> simp only <;> omega

/-- What the splitter makes of a full stripe: `DATACHUNK_NUM` device requests of
    the chunk size, in the order of the data. -/
theorem split_chunk2dio_full {uio : UioInfo} {s : Nat} (entry : s ≤ g.USER_SPACE_LEN / g.SSTRIPE_DATASIZE + 100)
    (offset : uio.user_offset = s * g.SSTRIPE_DATASIZE) (length : uio.length = g.SSTRIPE_DATASIZE) :
    split_chunk2dio g uio = some ((List.range g.DATACHUNK_NUM).map (fullDio g s uio.buf)) := by
  obtain ⟨int, user, row⟩ := table_bounds entry
  have pos := g.stripe_pos
  have small := g.stripe_small
  have first : user2stripe g uio.user_offset = s := by
    rw [user2stripe_eq, offset, Nat.mul_div_cancel _ pos]
  have last : user2stripe g (uio.user_offset + uio.length - 1) = s := by
    rw [user2stripe_eq, offset, length]
    exact block_unique (by omega) (by omega)
  rw [split_chunk2dio_eq (by omega) (by omega) (by omega) (by rw [first]; exact int) (by rw [first, last]), offset, length,
    cut_full, List.map_map]
  refine congrArg some (List.map_congr_left fun i member => ?_)
  rw [List.mem_range] at member
  obtain ⟨stripe, _, device⟩ := chunk_place (g := g) (x := (s * g.DATACHUNK_NUM + i) * g.SCHUNK_SIZE) member
    (Nat.mul_div_cancel _ g.chunk_pos)
  have distance : (s * g.DATACHUNK_NUM + i) * g.SCHUNK_SIZE - s * g.SSTRIPE_DATASIZE = i * g.SCHUNK_SIZE := by
    rw [g.stripe_size, Nat.add_mul, Nat.mul_assoc, Nat.add_sub_cancel_left]
  simp only [Function.comp_apply, dioOf, fullDio, device, devoffOf, stripe, Nat.mul_mod_left, Nat.add_zero, offset,
    distance]

/-! ### The encoding and the writes -/

theorem zipIdx_range_map {α : Type*} (f : Nat → α) (n : Nat) :
    ((List.range n).map f).zipIdx = (List.range n).map fun i => (f i, i) := by
  refine List.ext_getElem (by simp) fun i low high => ?_
  simp

theorem encode_fullstripe_eq {s tid : Nat} (entry : s ≤ g.USER_SPACE_LEN / g.SSTRIPE_DATASIZE + 100)
    (thread : tid < NUM_THREADS) (mem : Nat → Byte) (buf : Nat) (st : Store) :
    encode_fullstripe g isal mem tid ((List.range g.DATACHUNK_NUM).map (fullDio g s buf)) st =
      some (fullWrites g s (fullData g mem buf (st.v_endatabuf tid))
        (fullParity g isal mem buf (st.v_endatabuf tid) (st.v_enparitybuf tid)), fullState g isal s tid mem buf st) := by
  have wide := g.chunk_pos
  have data := g.data_pos
  have head : (((List.range g.DATACHUNK_NUM).map (fullDio g s buf)).headD default) = fullDio g s buf 0 := by
    obtain ⟨n, eq⟩ : ∃ n, g.DATACHUNK_NUM = n + 1 := ⟨g.DATACHUNK_NUM - 1, by omega⟩
    rw [eq, List.range_succ_eq_map]
    rfl
  have stripe : devoff2stripe g (fullDio g s buf 0).dev_offset = s :=
    devoff2stripe_row entry (Nat.le_refl _) (by simp only [fullDio]; omega)
  have copied : stage_data mem ((List.range g.DATACHUNK_NUM).map (fullDio g s buf)) (st.v_endatabuf tid) =
      fullData g mem buf (st.v_endatabuf tid) := by
    funext i
    by_cases low : i < g.DATACHUNK_NUM
    · simp [stage_data, fullData, low, fullDio, Cache.memcpy]
    · simp [stage_data, fullData, low]
  have dwrites : ∀ bufs : Nat → Buf, ((List.range g.DATACHUNK_NUM).map (fullDio g s buf)).zipIdx.mapM (fun dio =>
      iouring_wprep g dio.1.dev_id (bufs dio.2) dio.1.dev_offset g.SCHUNK_SIZE) =
      some ((List.range g.DATACHUNK_NUM).map fun i => ⟨dataDev g s i, s * g.SCHUNK_SIZE, g.SCHUNK_SIZE, bufs i⟩) := by
    intro bufs
    rw [zipIdx_range_map]
    exact mapM_some fun i _ => iouring_wprep_eq (dataDev_lt ..) _ _ _
  have pwrites : ∀ bufs : Nat → Buf, (List.range g.PARITYCHUNK_NUM).mapM (fun i =>
      iouring_wprep g (full_ppos g s i) (bufs i) (fullDio g s buf 0).dev_offset g.SCHUNK_SIZE) =
      some ((List.range g.PARITYCHUNK_NUM).map fun p => ⟨parityDev g s p, s * g.SCHUNK_SIZE, g.SCHUNK_SIZE, bufs p⟩) := by
    intro bufs
    rw [← List.map_id (List.range g.PARITYCHUNK_NUM)]
    refine (mapM_some fun p member => ?_).trans (by rw [List.map_id])
    have chunk : p < g.PARITYCHUNK_NUM := by simpa using member
    rw [id, full_ppos, paritypos_next s p chunk]
    exact iouring_wprep_eq (parityDev_lt ..) _ _ _
  simp only [encode_fullstripe, List.length_map, List.length_range, ne_eq, not_true_eq_false, ↓reduceIte,
    Nat.not_le.mpr thread, head, stripe, copied, freeze_eq entry, dwrites, pwrites, Option.bind_eq_bind,
    Option.bind_some]
  rfl

/-! ### What is on the devices -/

/-- Stripe `s` is written from the buffer at `buf`: its data chunks in order and
    their parities are on its devices, in its row, and nothing else changed. -/
structure Written (g : Geometry) (s : Nat) (mem : Nat → Byte) (buf : Nat) (before after : Nat → Nat → Byte) : Prop where
  data : ∀ i < g.DATACHUNK_NUM, ∀ q < g.SCHUNK_SIZE,
    after ((s + i) % g.NUM_DEVFILES) (s * g.SCHUNK_SIZE + q) = mem (buf + i * g.SCHUNK_SIZE + q)
  parities : ∀ p < g.PARITYCHUNK_NUM, ∀ q < g.SCHUNK_SIZE,
    after (parityDev g s p) (s * g.SCHUNK_SIZE + q) =
      parity p ((List.range g.DATACHUNK_NUM).map fun i => mem (buf + i * g.SCHUNK_SIZE + q))
  frame : ∀ d o, g.NUM_DEVFILES ≤ d ∨ o < s * g.SCHUNK_SIZE ∨ s * g.SCHUNK_SIZE + g.SCHUNK_SIZE ≤ o →
    after d o = before d o

theorem mem_fullWrites {s : Nat} {data par : Nat → Buf} {w : DeviceWrite} : w ∈ fullWrites g s data par ↔
    (∃ i < g.DATACHUNK_NUM, w = ⟨dataDev g s i, s * g.SCHUNK_SIZE, g.SCHUNK_SIZE, data i⟩) ∨
      ∃ p < g.PARITYCHUNK_NUM, w = ⟨parityDev g s p, s * g.SCHUNK_SIZE, g.SCHUNK_SIZE, par p⟩ := by
  simp only [fullWrites, List.mem_append, List.mem_map, List.mem_range]
  constructor
  · rintro (⟨i, low, rfl⟩ | ⟨p, low, rfl⟩)
    · exact .inl ⟨i, low, rfl⟩
    · exact .inr ⟨p, low, rfl⟩
  · rintro (⟨i, low, rfl⟩ | ⟨p, low, rfl⟩)
    · exact .inl ⟨i, low, rfl⟩
    · exact .inr ⟨p, low, rfl⟩

theorem fullWrites_data {s i q : Nat} (chunk : i < g.DATACHUNK_NUM) (inside : q < g.SCHUNK_SIZE) (data par : Nat → Buf)
    (devs : Nat → Nat → Byte) :
    applyAll devs (fullWrites g s data par) (dataDev g s i) (s * g.SCHUNK_SIZE + q) = data i q := by
  refine applyAll_covered ⟨_, mem_fullWrites.mpr (.inl ⟨i, chunk, rfl⟩), rfl, by simp, by simpa using inside⟩ ?_ _
  rintro w member ⟨device, _, _⟩
  rcases mem_fullWrites.mp member with ⟨j, low, rfl⟩ | ⟨p, low, rfl⟩
  · obtain rfl := dataDev_inj low chunk device
    simp
  · exact absurd device (parityDev_ne_dataDev low chunk)

theorem fullWrites_parity {s p q : Nat} (chunk : p < g.PARITYCHUNK_NUM) (inside : q < g.SCHUNK_SIZE)
    (data par : Nat → Buf) (devs : Nat → Nat → Byte) :
    applyAll devs (fullWrites g s data par) (parityDev g s p) (s * g.SCHUNK_SIZE + q) = par p q := by
  refine applyAll_covered ⟨_, mem_fullWrites.mpr (.inr ⟨p, chunk, rfl⟩), rfl, by simp, by simpa using inside⟩ ?_ _
  rintro w member ⟨device, _, _⟩
  rcases mem_fullWrites.mp member with ⟨j, low, rfl⟩ | ⟨r, low, rfl⟩
  · exact absurd device.symm (parityDev_ne_dataDev chunk low)
  · obtain rfl := parityDev_inj low chunk device
    simp

theorem fullWrites_row {s : Nat} {data par : Nat → Buf} {w : DeviceWrite} (member : w ∈ fullWrites g s data par) {d o : Nat}
    (covers : w.Covers d o) : d < g.NUM_DEVFILES ∧ s * g.SCHUNK_SIZE ≤ o ∧ o < s * g.SCHUNK_SIZE + g.SCHUNK_SIZE := by
  obtain ⟨device, low, high⟩ := covers
  rcases mem_fullWrites.mp member with ⟨i, _, rfl⟩ | ⟨p, _, rfl⟩
  · exact ⟨device ▸ dataDev_lt .., low, high⟩
  · exact ⟨device ▸ parityDev_lt .., low, high⟩

theorem fullData_at {i q : Nat} (chunk : i < g.DATACHUNK_NUM) (inside : q < g.SCHUNK_SIZE) (mem : Nat → Byte) (buf : Nat)
    (endatabuf : Nat → Buf) : fullData g mem buf endatabuf i q = mem (buf + i * g.SCHUNK_SIZE + q) := by
  rw [fullData, if_pos chunk, overlay_inside (by omega) (by omega)]
  rfl

/-- The state after a full stripe is written has the stripe on its devices. -/
theorem fullState_written (s tid : Nat) (mem : Nat → Byte) (buf : Nat) (st : Store) :
    Written g s mem buf st.devs (fullState g isal s tid mem buf st).devs where
  data i chunk q inside := by
    show applyAll st.devs (fullWrites g s _ _) (dataDev g s i) _ = _
    rw [fullWrites_data chunk inside, fullData_at chunk inside]
  parities p chunk q inside := by
    show applyAll st.devs (fullWrites g s _ _) (parityDev g s p) _ = _
    rw [fullWrites_parity chunk inside, fullParity, do_full_encode_parity isal _ _ chunk inside]
    refine congrArg _ (List.map_congr_left fun i member => ?_)
    exact fullData_at (List.mem_range.mp member) inside ..
  frame d o out := applyAll_frame (fun w member covers => by
    have := fullWrites_row member covers
    omega) _

/-- The blocks of the bitmap that `raid_write` resets for a request. -/
def resetBlocks (uio : UioInfo) (b : BlkBitmap) : BlkBitmap :=
  (split_block uio).foldl (fun b offset => b.reset (offset / BLK_SIZE)) b

theorem raid_write_full_eq {uio : UioInfo} {s : Nat} (buffer : uio.buf ≠ 0) (thread : uio.user_id < NUM_THREADS)
    (entry : s ≤ g.USER_SPACE_LEN / g.SSTRIPE_DATASIZE + 100) (offset : uio.user_offset = s * g.SSTRIPE_DATASIZE)
    (length : uio.length = g.SSTRIPE_DATASIZE) (mem : Nat → Byte) (st : Store) : raid_write g isal mem uio st =
      some (⟨uio, fullWrites g s (fullData g mem uio.buf (st.v_endatabuf uio.user_id))
        (fullParity g isal mem uio.buf (st.v_endatabuf uio.user_id) (st.v_enparitybuf uio.user_id))⟩,
        fullState g isal s uio.user_id mem uio.buf { st with blk_bitmap := resetBlocks uio st.blk_bitmap }) := by
  have pos := g.stripe_pos
  have full : is_fullstripe g uio.user_offset uio.length = true :=
    (is_fullstripe_iff ..).mpr ⟨by rw [offset, Nat.mul_div_cancel _ pos], length⟩
  have some_len : ¬ (uio.buf = 0 ∨ uio.length = 0) := by omega
  simp only [raid_write, some_len, ↓reduceIte, split_chunk2dio_full entry offset length, full,
    encode_fullstripe_eq isal entry thread, Option.bind_eq_bind, Option.bind_some]
  rfl

/-- A write of a full stripe, from any state. -/
theorem stripe_written {uio : UioInfo} (buffer : uio.buf ≠ 0) (thread : uio.user_id < NUM_THREADS)
    (entry : uio.user_offset / g.SSTRIPE_DATASIZE ≤ g.USER_SPACE_LEN / g.SSTRIPE_DATASIZE + 100)
    (full : is_fullstripe g uio.user_offset uio.length = true) (mem : Nat → Byte) (st : Store) :
    ∃ submission after, raid_write g isal mem uio st = some (submission, after) ∧
      Written g (uio.user_offset / g.SSTRIPE_DATASIZE) mem uio.buf st.devs after.devs := by
  obtain ⟨offset, length⟩ := (is_fullstripe_iff ..).mp full
  exact ⟨_, _, raid_write_full_eq isal buffer thread entry offset length mem st, fullState_written ..⟩

end Straid.FullStripe
