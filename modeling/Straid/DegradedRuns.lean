import Straid.ParityRows
import Straid.ReadBack
import Straid.RequestIds

/-!
Reads that the devices fail, after runs of writes, with one parity chunk. What a
failed read gets from the other devices is the bytes of its device exactly where
the devices sum to zero (`degraded_iff`). Where they do, a read with failures is a
read without (`s_norRead_plain`), so in the rows that a run of writes leaves sound
a request is read back whichever of its device reads fail (`degraded_read_back`).
-/
namespace Straid.DegradedRuns
open LogFiles Metadata Split Encode EcEncoder Decode StorageMod Runs ReadPath SequentialWrites DegradedRead ParityRows Cuts
  Overlays XorSums Rings

variable (g : Geometry) (isal : Isal)

/-- `raid_read` of the build with `RECONST_MOD`: the memory after the call. -/
def raid_read_reconst (devs : Nat → Nat → Byte) (env : ReadEnv) (wild : Nat → Buf) (read_req_id : Nat) (uio : UioInfo)
    (mem : Nat → Byte) : Option (Nat → Byte) := do
  if uio.length = 0 then none
  let v_schunks ← read_dios g read_req_id uio
  s_norRead_reconst g isal devs env wild v_schunks mem

variable {g} {devs : Nat → Nat → Byte} {v_dios : List DioInfo}

/-! ### Where the devices sum to zero -/

/-- A buffer holds the rebuilt bytes when its read fails. -/
theorem rebuilt_bytes (env : ReadEnv) (disjoint : Disjoint v_dios) (order : env.order.Perm (List.range v_dios.length))
    (mem : Nat → Byte) {n : Nat} {dio : DioInfo} (here : v_dios[n]? = some dio) (fails : env.failed n = true) {i : Nat}
    (inside : i < dio.length) : applyAll (fun _ => mem)
      (v_dios.zipIdx.map (firstWrite devs env) ++ (failedDios env v_dios).map (readWrite (rebuilt g devs))) () (dio.buf + i) =
        rebuilt g devs dio.dev_id.toNat (dio.dev_offset + i) := by
  have cell : dio.buf ≤ dio.buf + i ∧ dio.buf + i < dio.buf + dio.length := by omega
  rw [applyAll_append]
  refine applyAll_covered ⟨readWrite (rebuilt g devs) dio, List.mem_map_of_mem ((mem_failedDios order).mpr ⟨n, fails, here⟩),
    rfl, cell⟩ ?_ _
  intro w again covers
  obtain ⟨d, there, rfl⟩ := List.mem_map.mp again
  obtain ⟨m, _, at_m⟩ := (mem_failedDios order).mp there
  obtain rfl := disjoint.position at_m here covers.2 cell
  obtain rfl := Option.some.inj (at_m.symm.trans here)
  simp [readWrite]

theorem reads_hold (disjoint : Disjoint v_dios) (mem : Nat → Byte) :
    Holds devs v_dios mem (applyAll (fun _ => mem) (v_dios.map (readWrite devs)) ()) := by
  have holds := writes_hold devs ⟨fun _ => false, fun _ _ => 0, List.range v_dios.length⟩ disjoint (.refl _) mem
  have reads : v_dios.zipIdx.map (firstWrite devs ⟨fun _ => false, fun _ _ => 0, List.range v_dios.length⟩) =
      v_dios.map (readWrite devs) := by
    conv => rhs; rw [← List.zipIdx_map_fst 0 v_dios, List.map_map]
    rfl
  have none : failedDios ⟨fun _ => false, fun _ _ => 0, List.range v_dios.length⟩ v_dios = [] := by simp [failedDios]
  rwa [reads, none, List.map_nil, List.append_nil] at holds

/-- With failures, a read on devices that sum to zero at its bytes leaves in the
    memory what it leaves without. -/
theorem s_norRead_plain (one : g.PARITYCHUNK_NUM = 1) (request : Request g v_dios) (zero : SumsZero g devs v_dios)
    (few : v_dios.length ≤ RING_QD) (data : g.DATACHUNK_NUM ≤ RING_QD) (env : ReadEnv)
    (order : env.order.Perm (List.range v_dios.length)) (wild : Nat → Buf) (mem : Nat → Byte) :
    s_norRead_reconst g isal devs env wild v_dios mem = s_norRead g devs v_dios mem := by
  obtain ⟨after, result, holds⟩ := s_norRead_holds isal one request zero few env (fun _ => data) order wild mem
  rw [result, s_norRead, read_all_eq devs (fun dio member => device_of request member) (by omega)]
  exact congrArg some (holds.unique (reads_hold request.disjoint mem))

variable (devs)

/-- Reads that all fail return the bytes of their devices only where the devices
    sum to zero, and only with enough entries. -/
theorem sumsZero_of_reads (one : g.PARITYCHUNK_NUM = 1) (request : Request g v_dios) (reads : ReadsBack g isal devs v_dios) :
    v_dios.length ≤ RING_QD ∧ (v_dios ≠ [] → g.DATACHUNK_NUM ≤ RING_QD) ∧ SumsZero g devs v_dios := by
  obtain ⟨after, result, bytes⟩ := reads (all_fail v_dios) (fun _ _ => 0) (fun _ => 0) (.refl _)
  obtain ⟨few, data⟩ := room_of_return isal one request result
  refine ⟨few, data, fun dio member i inside => ?_⟩
  obtain ⟨n, here⟩ := List.mem_iff_getElem?.mp member
  obtain ⟨dev, lt, device⟩ := device_of request member
  have same := bytes dio member i inside
  rw [s_norRead_reconst_eq isal one request few _ fun _ => data (List.ne_nil_of_mem member)] at result
  rw [← Option.some.inj result, rebuilt_bytes _ request.disjoint (.refl _) _ here rfl inside, device,
    Int.toNat_natCast] at same
  exact (rebuilt_eq_iff lt _).mp same

theorem reads_of_sumsZero (one : g.PARITYCHUNK_NUM = 1) (request : Request g v_dios) (few : v_dios.length ≤ RING_QD)
    (data : v_dios ≠ [] → g.DATACHUNK_NUM ≤ RING_QD) (zero : SumsZero g devs v_dios) : ReadsBack g isal devs v_dios := by
  intro env wild mem order
  obtain ⟨after, result, holds⟩ := s_norRead_holds isal one request zero few env
    (fun some_fail => data fun none => some_fail (by rw [none, failedDios]; simp)) order wild mem
  exact ⟨after, result, holds.bytes⟩

/-- With one parity chunk, a read returns the bytes of its devices whichever of
    its device reads fail exactly when the ring has an entry for each of them, and
    for each device that a reconstruction reads, and the devices sum to zero at its
    bytes. -/
theorem degraded_iff (one : g.PARITYCHUNK_NUM = 1) (request : Request g v_dios) : ReadsBack g isal devs v_dios ↔
    v_dios.length ≤ RING_QD ∧ (v_dios ≠ [] → g.DATACHUNK_NUM ≤ RING_QD) ∧ SumsZero g devs v_dios :=
  ⟨sumsZero_of_reads isal devs one request, fun ⟨few, data, zero⟩ => reads_of_sumsZero isal devs one request few data zero⟩

/-- Two reads of two devices with every byte zero. -/
theorem degraded_two :
    ReadsBack defaultGeometry Isal.reference (fun _ _ => 0) [⟨0, 4096, 0, 512, 1⟩, ⟨1, 8192, 512, 512, 2⟩] := by
  have zero : xorSum ((List.range defaultGeometry.NUM_DEVFILES).map fun _ => (0 : Byte)) = 0 := by decide
  exact (degraded_iff Isal.reference (fun _ _ => 0) rfl
    ⟨by decide, by decide, by decide, by decide, by unfold DegradedRead.Disjoint; decide⟩).mpr
      ⟨by decide, fun _ => by decide, fun _ _ _ _ => zero⟩

/-! ### The reads of a request -/

variable {devs} {uio : UioInfo}

theorem chunks_apart (positive : 0 < uio.length) :
    (chunks g uio).Pairwise fun r s => r.1 + r.2 ≤ s.1 ∨ s.1 + s.2 ≤ r.1 := by
  have nodup : ((chunks g uio).flatMap fun r => List.range' r.1 r.2).Nodup := by
    rw [chunks_positions positive]
    exact List.nodup_range'
  refine (List.nodup_flatMap.mp nodup).2.imp_of_mem fun {r s} first second apart => ?_
  have here := (mem_chunks positive first).1
  have there := (mem_chunks positive second).1
  by_contra meet
  push Not at meet
  exact apart (List.mem_range'_1.mpr ⟨Nat.le_max_left r.1 s.1, by omega⟩)
    (List.mem_range'_1.mpr ⟨Nat.le_max_right r.1 s.1, by omega⟩)

/-- The device reads of a request, when their numbers stay below `2 ^ 32`. -/
theorem read_request (valid : uio.Valid g) (aligned : Aligned g uio) {read_req_id : Nat}
    (numbers : read_req_id + (split_schunk g uio).length < 2 ^ 32) {v_dios : List DioInfo}
    (split : read_dios g read_req_id uio = some v_dios) : Request g v_dios := by
  obtain ⟨dios, again, few, ids⟩ := RequestIds.read_dios_numbers valid read_req_id
  obtain rfl := Option.some.inj (split.symm.trans again)
  have made := Option.some.inj (split.symm.trans (read_dios_eq valid aligned read_req_id))
  have count : v_dios.length = (split_schunk g uio).length := by
    rw [split_schunk_length valid, read_dios_length valid split]
  have chunk : ∀ dio ∈ v_dios, ∃ r ∈ chunks g uio, ∃ req_id, dio = chunkDio g uio r req_id := by
    intro dio member
    rw [made] at member
    obtain ⟨p, there, rfl⟩ := List.mem_map.mp member
    exact ⟨p.1, List.fst_mem_of_mem_zipIdx there, _, rfl⟩
  constructor
  · intro dio member
    obtain ⟨r, _, req_id, rfl⟩ := chunk dio member
    have lt := devOf_lt (g := g) r.1
    simp only [chunkDio]
    omega
  · intro dio member
    obtain ⟨r, there, req_id, rfl⟩ := chunk dio member
    obtain ⟨_, _, _, one⟩ := mem_chunks valid.positive there
    have low := block_low g.SCHUNK_SIZE r.1
    have high := block_high g.chunk_pos (r.1 + r.2 - 1)
    rw [one] at high
    simp only [chunkDio]
    omega
  · intro dio member
    have number : dio.req_id ∈ v_dios.map DioInfo.req_id := List.mem_map_of_mem member
    rw [ids] at number
    obtain ⟨i, inside, same⟩ := List.mem_map.mp number
    rw [List.mem_range] at inside
    omega
  · rw [ids]
    exact RequestIds.numbers_distinct read_req_id _ few
  · have apart := chunks_apart (g := g) valid.positive
    rw [← List.zipIdx_map_fst 0 (chunks g uio), List.pairwise_map] at apart
    rw [DegradedRead.Disjoint, made, List.pairwise_map]
    refine apart.imp_of_mem fun {p q} first second => ?_
    have low := (mem_chunks valid.positive (List.fst_mem_of_mem_zipIdx first)).2.1
    have low' := (mem_chunks valid.positive (List.fst_mem_of_mem_zipIdx second)).2.1
    simp only [chunkDio]
    omega

/-- The device reads of a request fetch its bytes, so their sums are those of
    its rows. -/
theorem read_sums (valid : uio.Valid g) (aligned : Aligned g uio) {read_req_id : Nat} {v_dios : List DioInfo}
    (split : read_dios g read_req_id uio = some v_dios)
    (rows : ∀ x, uio.user_offset ≤ x → x < uio.user_offset + uio.length → RowZero g devs (user2stripe g x)) :
    SumsZero g devs v_dios := by
  have made := Option.some.inj (split.symm.trans (read_dios_eq valid aligned read_req_id))
  intro dio member i inside
  rw [made] at member
  obtain ⟨p, there, rfl⟩ := List.mem_map.mp member
  obtain ⟨_, low, high, one⟩ := mem_chunks valid.positive (List.fst_mem_of_mem_zipIdx there)
  simp only [chunkDio] at inside ⊢
  have upto : (p.1.1 + i) / g.SCHUNK_SIZE = p.1.1 / g.SCHUNK_SIZE := by
    have most : (p.1.1 + i) / g.SCHUNK_SIZE ≤ (p.1.1 + p.1.2 - 1) / g.SCHUNK_SIZE := Nat.div_le_div_right (by omega)
    have least : p.1.1 / g.SCHUNK_SIZE ≤ (p.1.1 + i) / g.SCHUNK_SIZE := Nat.div_le_div_right (by omega)
    omega
  have place := (same_chunk (g := g) (Nat.le_add_right p.1.1 i) upto).2
  rw [Nat.add_sub_cancel_left] at place
  rw [← place, devoffOf]
  exact rows (p.1.1 + i) (by omega) (by omega) _ (Nat.mod_lt _ g.chunk_pos)

/-! ### After a run of writes -/

/-- With one parity chunk and an entry of the ring for each device, from devices of
    zeros, after a run of writes: a read of at most as many chunks of stripes that
    the run leaves sound fills its buffer with the bytes last written and changes
    nothing else, whichever of its device reads fail. -/
theorem degraded_read_back (one : g.PARITYCHUNK_NUM = 1) (array : g.NUM_DEVFILES ≤ RING_QD) {calls : List Call}
    (valid : ∀ c ∈ calls, c.uio.Valid g) (narrow : ∀ c ∈ pieces g calls, Narrow g c.uio)
    (rands : Nat → Nat) (wild : Buf) (request : uio.Valid g)
    (aligned : Aligned g uio) (few : touched_chunks g uio ≤ RING_QD) {read_req_id : Nat}
    (numbers : read_req_id + (split_schunk g uio).length < 2 ^ 32)
    (sound : ∀ x, uio.user_offset ≤ x → x < uio.user_offset + uio.length → row_sound g calls (user2stripe g x) = true)
    (env : ReadEnv) (order : env.order.Perm (List.range (split_schunk g uio).length)) (fresh : Nat → Buf)
    (mem : Nat → Byte) : ∃ submissions after,
      run_calls g isal calls (Store.fresh g (fun _ _ => 0) rands wild) = some (submissions, after) ∧
      raid_read_reconst g isal after.devs env fresh read_req_id uio mem =
        some (overlay mem uio.buf uio.length (shift (last_written (fun _ => 0) calls) uio.user_offset)) := by
  obtain ⟨submissions, after, run, changes, _⟩ :=
    run_calls_changes isal valid (fresh_quiet (g := g) (fun _ _ => 0) rands wild)
  obtain ⟨v_dios, split, exact⟩ := read_exact request aligned few read_req_id
  obtain ⟨read, plain, inside, outside⟩ := exact.lands after.devs mem
  have rows : ∀ s, row_sound g calls s = true → RowZero g after.devs s := by
    intro s sound
    refine changes_sound one changes (fun _ q _ => xorSum_zero fun b member => ?_) sound
    obtain ⟨d, _, rfl⟩ := List.mem_map.mp member
    rfl
  have zero := read_sums request aligned split fun x low high => rows _ (sound x low high)
  have count := read_dios_length request split
  have some_len : ¬ uio.length = 0 := by
    have := request.positive
    omega
  have user := request.user
  have written : flat g after.devs = last_written (fun _ => 0) calls := by
    rw [changes_flat changes narrow, last_written_all valid]
    rfl
  have filled : read = overlay mem uio.buf uio.length (shift (last_written (fun _ => 0) calls) uio.user_offset) := by
    funext a
    by_cases low : uio.buf ≤ a ∧ a < uio.buf + uio.length
    · have byte := inside (a - uio.buf) (by omega)
      rw [Nat.add_sub_cancel' low.1] at byte
      rw [overlay_inside low.1 low.2, byte, ← written]
      exact user_byte_eq (by omega) _
    · rw [overlay_outside (by omega), outside a (by omega)]
  refine ⟨submissions, after, run, ?_⟩
  have data := g.data_lt_devices
  have degraded := s_norRead_plain isal one (read_request request aligned numbers split) zero (by rwa [count]) (by omega)
    env (by rwa [count, ← split_schunk_length request]) fresh mem
  simp only [raid_read_reconst, some_len, ↓reduceIte, split, degraded, plain, filled, Option.bind_eq_bind,
    Option.bind_some]

/-- The whole of stripe 0 and a block of stripe 1 are written, and the first two
    chunks are read back, of which the second fails and completes first. -/
theorem degraded_read_back_stripe : ∃ submissions after, run_calls defaultGeometry Isal.reference
    [⟨⟨1, true, 4096, 0, 458752⟩, fun a => a⟩, ⟨⟨2, true, 4096, 458752, 4096⟩, fun a => a⟩]
    (Store.fresh defaultGeometry (fun _ _ => 0) (fun _ => 0) (fun _ => 0)) = some (submissions, after) ∧
    raid_read_reconst defaultGeometry Isal.reference after.devs ⟨fun ios => ios == 1, fun _ _ => 0xff, [1, 0]⟩
      (fun _ _ => 0xff) 41 ⟨0, false, 4096, 0, 131072⟩ (fun _ => 0xee) =
        some (overlay (fun _ => 0xee) 4096 131072 (shift (last_written (fun _ => 0)
          [⟨⟨1, true, 4096, 0, 458752⟩, fun a => a⟩, ⟨⟨2, true, 4096, 458752, 4096⟩, fun a => a⟩]) 0)) := by
  refine degraded_read_back Isal.reference rfl (by decide) ?_ (by decide +kernel) _ _ (by decide +kernel)
    (by decide +kernel) (by decide +kernel) (by decide +kernel) ?_ _
    (by decide +kernel) _ _
  · simp only [List.mem_cons, List.not_mem_nil, or_false, forall_eq_or_imp, forall_eq]
    decide
  · intro x _ high
    have first : user2stripe defaultGeometry x = 0 := by
      rw [user2stripe_eq]
      exact Nat.div_eq_of_lt (Nat.lt_of_lt_of_le high (by decide))
    rw [first]
    decide +kernel

end Straid.DegradedRuns
