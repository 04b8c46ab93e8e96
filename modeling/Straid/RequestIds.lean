import Straid.DegradedRead
import Straid.ReadPath
import Mathlib.Algebra.Order.BigOperators.Group.List

/-!
The numbers of the device reads of a request and the tags that carry them. A
request takes its numbers from the counter in a row (`read_dios_numbers`), so no
two of its reads share one. A tag has room for the lower half of a number
(`tag_number`), and `get_id` compares the whole number, so a failed read is
found again exactly when the lower half is the number (`resolved_iff`).
-/
namespace Straid.RequestIds
open LogFiles Metadata Split Decode StorageMod Cuts

variable (g : Geometry)

/-- Every failed read is resolved to its own request: `get_id` of the number in
    the tag of its completion gives its position. -/
def Resolved (v_dios : List DioInfo) (failed : Nat → Bool) : Prop :=
  ∀ i dio, v_dios[i]? = some dio → failed i = true →
    get_id v_dios (sget_high32 (failed_tag (u64_merg dio.req_id NVME_FFAIL_SIG))) = some i

variable {g}

/-! ### Tags -/

theorem u64_merg_mod (high low : Nat) : u64_merg high low = u64_merg (high % 2 ^ 32) low := by
  have upper : u64 (high <<< 32) = u64 ((high % 2 ^ 32) <<< 32) := by
    unfold u64
    rw [Nat.shiftLeft_eq, Nat.shiftLeft_eq]
    omega
  unfold u64_merg
  rw [upper]

/-- The tag of a failed read carries the lower half of the number. -/
theorem tag_number (req_id : Nat) : sget_high32 (failed_tag (u64_merg req_id NVME_FFAIL_SIG)) = req_id % 2 ^ 32 := by
  have low : req_id % 2 ^ 32 < 2 ^ 32 := Nat.mod_lt _ (by decide)
  rw [u64_merg_mod]
  exact (DegradedRead.tag_failed low).2

/-- Among requests with distinct numbers, `get_id` finds the position of the
    request with a number and no other. -/
theorem get_id_eq_some_iff {v_dios : List DioInfo} (distinct : (v_dios.map DioInfo.req_id).Nodup) {i : Nat} {dio : DioInfo}
    (here : v_dios[i]? = some dio) (reqid : Nat) : get_id v_dios reqid = some i ↔ dio.req_id = reqid := by
  obtain ⟨inside, rfl⟩ := List.getElem?_eq_some_iff.mp here
  rw [get_id, List.findIdx?_eq_some_iff_getElem]
  constructor
  · rintro ⟨_, same, _⟩
    exact beq_iff_eq.mp same
  · intro same
    refine ⟨inside, beq_iff_eq.mpr same, ?_⟩
    intro j before again
    -- A request before it with the same number would be the same request.
    have numbers : (v_dios.map DioInfo.req_id).get ⟨j, by simp; omega⟩ = (v_dios.map DioInfo.req_id).get ⟨i, by simpa using inside⟩ := by
      simpa [same] using again
    have position := (distinct.getElem_inj_iff).mp numbers
    omega

/-- With distinct numbers that a `uint64_t` holds, the failed reads are resolved
    exactly when their numbers fit in the upper half of a tag. -/
theorem resolved_of_distinct {v_dios : List DioInfo} (distinct : (v_dios.map DioInfo.req_id).Nodup) (failed : Nat → Bool) :
    Resolved v_dios failed ↔ ∀ i dio, v_dios[i]? = some dio → failed i = true → dio.req_id < 2 ^ 32 := by
  have below : ∀ n : Nat, n = n % 2 ^ 32 ↔ n < 2 ^ 32 := by omega
  unfold Resolved
  constructor
  · intro resolved i dio here fails
    have found := resolved i dio here fails
    rw [tag_number, get_id_eq_some_iff distinct here] at found
    exact (below _).mp found
  · intro fit i dio here fails
    rw [tag_number, get_id_eq_some_iff distinct here]
    exact (below _).mpr (fit i dio here fails)

/-! ### The reads of a request -/

/-- The reads of a piece start inside it, at addresses from its buffer on. -/
theorem read_pieces_inside (usr_id : Nat) (iswrite : Bool) {n start_off start_buf remain_len : Nat}
    (positive : 0 < remain_len) (fits : start_off + remain_len < 2 ^ 64) {part : UioInfo}
    (member : part ∈ read_pieces g usr_id iswrite n start_off start_buf remain_len) :
    part.user_offset < start_off + remain_len ∧ start_buf ≤ part.buf := by
  induction n generalizing start_off start_buf remain_len with
  | zero => cases member
  | succ n ih =>
    rw [read_pieces] at member
    split at member
    · next more =>
      cases member with
      | head => constructor <;> simp only <;> omega
      | tail _ later =>
        rw [u64_small (by omega), u64_sub_small (by omega) (by omega)] at later
        have rest := ih (by omega) (by omega) later
        omega
    · cases member with
      | head => constructor <;> simp only <;> omega
      | tail _ later => exact ih positive fits later

/-- An interval meets at most as many blocks as it has positions. -/
theorem blocks_le {w len : Nat} (wide : 0 < w) (off : Nat) (positive : 0 < len) : blocks w off len ≤ len := by
  have most : (off + len - 1) / w ≤ off / w + (len - 1) := by
    rw [← Nat.add_mul_div_right _ _ wide]
    apply Nat.div_le_div_right
    have := Nat.le_mul_of_pos_right (len - 1) wide
    omega
  unfold blocks
  omega

/-- The reads of one piece of a stripe: at most one a byte, inside the piece. -/
theorem split_schunk_stripe_spec {uio : UioInfo} (valid : uio.Valid g) {p : Nat × Nat}
    (member : p ∈ cut g.SSTRIPE_DATASIZE uio.user_offset uio.length) :
    (split_schunk_stripe g uio (pieceOf uio p)).length ≤ p.2 ∧
      ∀ part ∈ split_schunk_stripe g uio (pieceOf uio p), part.user_offset < g.USER_SPACE_LEN ∧ part.buf ≠ 0 := by
  have user := valid.user
  have buffer := valid.buffer
  have signed := g.user_signed
  obtain ⟨some_piece, low, high, stripe⟩ := cut_inside g.stripe_pos valid.positive member
  have one : user2stripe g (p.1 + p.2 - 1) = user2stripe g p.1 := by rw [user2stripe_eq, user2stripe_eq, stripe]
  have last : u64_sub (u64 (p.1 + p.2)) 1 = p.1 + p.2 - 1 := last_byte some_piece (by omega)
  have at_first := user2dev_user (g := g) (x := p.1) (by omega)
  have at_last := user2dev_user (g := g) (x := p.1 + p.2 - 1) (by omega)
  have rounds := device_rounds some_piece one
  simp only [split_schunk_stripe, pieceOf, last, at_first, at_last, rounds]
  constructor
  · rw [read_pieces_length]
    exact blocks_le g.chunk_pos p.1 some_piece
  · intro part there
    have inside := read_pieces_inside uio.user_id uio.is_write some_piece (by omega) there
    omega

/-- The lengths of the parts of a request add up to its length. -/
theorem cut_total {w off len : Nat} (wide : 0 < w) (positive : 0 < len) : ((cut w off len).map Prod.snd).sum = len := by
  have positions := congrArg List.length (cut_positions wide off positive)
  rwa [List.length_flatMap, List.length_range', List.map_congr_left fun p _ => List.length_range'] at positions

theorem split_schunk_spec {uio : UioInfo} (valid : uio.Valid g) : (split_schunk g uio).length ≤ uio.length ∧
    ∀ part ∈ split_schunk g uio, part.user_offset < g.USER_SPACE_LEN ∧ part.buf ≠ 0 := by
  rw [split_schunk, split_stripe_aligned_valid valid, List.flatMap_map]
  constructor
  · rw [List.length_flatMap]
    refine Nat.le_trans (List.sum_le_sum fun p member => ?_) (Nat.le_of_eq (cut_total g.stripe_pos valid.positive))
    exact (split_schunk_stripe_spec valid member).1
  · intro part member
    obtain ⟨p, stripe, there⟩ := List.mem_flatMap.mp member
    exact (split_schunk_stripe_spec valid stripe).2 part there

/-- A read of the user space makes device reads that are numbered from the
    counter on. -/
theorem read_dios_numbers {uio : UioInfo} (valid : uio.Valid g) (read_req_id : Nat) :
    ∃ v_dios, read_dios g read_req_id uio = some v_dios ∧ v_dios.length < 2 ^ 64 ∧
      v_dios.map DioInfo.req_id = (List.range v_dios.length).map fun i => (read_req_id + i + 1) % 2 ^ 64 := by
  have user := valid.user
  have signed := g.user_signed
  obtain ⟨few, inside⟩ := split_schunk_spec valid
  have dios : read_dios g read_req_id uio = some ((split_schunk g uio).zipIdx.map fun chunk =>
      ⟨devOf g chunk.1.user_offset, chunk.1.buf, devoffOf g chunk.1.user_offset, chunk.1.length,
        u64 (u64 (read_req_id + chunk.2) + 1)⟩) := by
    rw [read_dios, ← List.map_id (split_schunk g uio).zipIdx]
    refine (mapM_some fun chunk member => ?_).trans (by rw [List.map_id])
    obtain ⟨offset, buffer⟩ := inside chunk.1 (List.fst_mem_of_mem_zipIdx member)
    exact checked_dio_eq chunk.1 buffer offset _
  refine ⟨_, dios, by simp; omega, ?_⟩
  rw [List.map_map, List.length_map, List.length_zipIdx, List.range_eq_range', ← List.zipIdx_map_snd 0 (split_schunk g uio),
    List.map_map]
  refine List.map_congr_left fun chunk _ => ?_
  show u64 (u64 (read_req_id + chunk.2) + 1) = (read_req_id + chunk.2 + 1) % 2 ^ 64
  unfold u64
  omega

/-- Numbers in a row are distinct modulo `2 ^ 64`. -/
theorem numbers_distinct (read_req_id n : Nat) (few : n < 2 ^ 64) :
    ((List.range n).map fun i => (read_req_id + i + 1) % 2 ^ 64).Nodup := by
  refine List.Nodup.map_on ?_ List.nodup_range
  intro i low j high same
  rw [List.mem_range] at low high
  omega

/-- For every value of the counter and every set of reads that fail, the failed
    reads of a request are resolved exactly when their numbers are below
    `2 ^ 32`. -/
theorem resolved_iff {uio : UioInfo} (valid : uio.Valid g) (read_req_id : Nat) (failed : Nat → Bool) :
    ∃ v_dios, read_dios g read_req_id uio = some v_dios ∧ (Resolved v_dios failed ↔
      ∀ i < v_dios.length, failed i = true → (read_req_id + i + 1) % 2 ^ 64 < 2 ^ 32) := by
  obtain ⟨v_dios, dios, few, numbers⟩ := read_dios_numbers valid read_req_id
  have distinct : (v_dios.map DioInfo.req_id).Nodup := numbers ▸ numbers_distinct read_req_id _ few
  have number : ∀ i dio, v_dios[i]? = some dio → dio.req_id = (read_req_id + i + 1) % 2 ^ 64 := by
    intro i dio here
    obtain ⟨inside, rfl⟩ := List.getElem?_eq_some_iff.mp here
    have both := congrArg (fun ids => ids[i]?) numbers
    simpa [inside] using both
  refine ⟨v_dios, dios, ?_⟩
  rw [resolved_of_distinct distinct]
  constructor
  · intro fit i inside fails
    have here := List.getElem?_eq_getElem inside
    rw [← number i _ here]
    exact fit i _ here fails
  · intro fit i dio here fails
    rw [number i dio here]
    exact fit i (List.getElem?_eq_some_iff.mp here).1 fails

/-- A request of two device reads with numbers below `2 ^ 32`, the second of
    which fails. -/
theorem resolved_second : ∃ v_dios, read_dios defaultGeometry 41 ⟨0, false, 4096, 0, 131072⟩ = some v_dios ∧
    (Resolved v_dios (· == 1) ↔ ∀ i < v_dios.length, (i == 1) = true → (41 + i + 1) % 2 ^ 64 < 2 ^ 32) :=
  resolved_iff (by decide) 41 (· == 1)

/-- The read with the number `2 ^ 32` is taken for a read with the number zero,
    which no request has: `get_id` does not find it. -/
theorem number_wraps : ∃ dio, read_dios defaultGeometry (2 ^ 32 - 1) ⟨0, false, 4096, 0, 4096⟩ = some [dio] ∧
    get_id [dio] (sget_high32 (failed_tag (u64_merg dio.req_id NVME_FFAIL_SIG))) = none ∧
    ¬ Resolved [dio] fun _ => true := by
  refine ⟨⟨0, 4096, 0, 4096, 2 ^ 32⟩, by decide +kernel, by decide +kernel, ?_⟩
  intro resolved
  have found := resolved 0 _ rfl rfl
  exact absurd found (by decide +kernel)

end Straid.RequestIds
