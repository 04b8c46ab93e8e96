import Straid.Decode

/-!
Reads that the devices fail, with one parity chunk. `reconstruct_dio` computes the
bytes of a failed read from the other devices (`reconstruct_dio_eq`), and the tags
lead back to the request they came from (`rwait_eq`, `get_id_eq`). On devices that
sum to zero, every buffer then holds the bytes of its device whichever reads fail,
as long as the ring has an entry for each read of a submission, and only then
(`s_norRead_degraded_iff`).
-/
namespace Straid.DegradedRead
open LogFiles Metadata Decode EcEncoder Overlays XorSums Rings

variable {g : Geometry} (isal : Isal) {devs : Nat → Nat → Byte}

/-! ### Reconstruction -/

/-- The exclusive or of the bytes of all devices is zero at every offset. -/
def RowsZero (g : Geometry) (devs : Nat → Nat → Byte) : Prop :=
  ∀ o, xorSum ((List.range g.NUM_DEVFILES).map fun d => devs d o) = 0

/-- The devices sum to zero at every byte of the requests. -/
def SumsZero (g : Geometry) (devs : Nat → Nat → Byte) (v_dios : List DioInfo) : Prop :=
  ∀ dio ∈ v_dios, ∀ i < dio.length, xorSum ((List.range g.NUM_DEVFILES).map fun d => devs d (dio.dev_offset + i)) = 0

/-- The byte that the other devices give for a byte of a device. -/
def rebuilt (g : Geometry) (devs : Nat → Nat → Byte) (dev o : Nat) : Byte :=
  xorSum (((List.range g.NUM_DEVFILES).erase dev).map fun d => devs d o)

theorem rebuilt_eq_iff {dev : Nat} (lt : dev < g.NUM_DEVFILES) (o : Nat) :
    rebuilt g devs dev o = devs dev o ↔ xorSum ((List.range g.NUM_DEVFILES).map fun d => devs d o) = 0 :=
  missing_iff (fun d => devs d o) (List.mem_range.mpr lt)

theorem survivors_eq (dev : Nat) :
    (List.range (g.DATACHUNK_NUM + g.PARITYCHUNK_NUM)).filter (fun i => ¬ toInt i = (dev : Nat)) =
      (List.range g.NUM_DEVFILES).erase dev := by
  have small := g.devices_small
  rw [List.nodup_range.erase_eq_filter]
  refine List.filter_congr fun i member => ?_
  have low : i < g.NUM_DEVFILES := List.mem_range.mp member
  rw [toInt_small (by omega)]
  by_cases same : i = dev <;> simp [same]

theorem survivors_length (one : g.PARITYCHUNK_NUM = 1) {dev : Nat} (lt : dev < g.NUM_DEVFILES) :
    ((List.range g.NUM_DEVFILES).erase dev).length = g.DATACHUNK_NUM := by
  rw [List.length_erase_of_mem (List.mem_range.mpr lt), List.length_range]
  unfold Geometry.NUM_DEVFILES
  omega

/-- A reconstruction has an entry for each of the other devices. -/
theorem reconstruct_ring_iff (one : g.PARITYCHUNK_NUM = 1) {dio : DioInfo} {dev : Nat} (lt : dev < g.NUM_DEVFILES)
    (device : dio.dev_id = (dev : Nat)) (short : dio.length ≤ g.SCHUNK_SIZE) :
    (∃ pending, ring_run 0 (reconstruct_ring g dio) = some pending) ↔ g.DATACHUNK_NUM ≤ RING_QD := by
  rw [reconstruct_ring, if_neg (by omega), prep_submit_iff, device, survivors_eq, survivors_length one lt]

theorem recon_reads_eq (devs : Nat → Nat → Byte) (wild : Nat → Buf) (index : List Nat) (dio : DioInfo) {k : Nat}
    (inside : k < dio.length) : (List.range index.length).map (fun i => recon_reads devs wild index dio i k) =
      index.map fun dev => devs dev (dio.dev_offset + k) := by
  refine List.ext_getElem (by simp) fun i low high => ?_
  have lt : i < index.length := by simpa using low
  simp [recon_reads, lt, overlay, inside]

/-- With one parity chunk, a reconstruction puts the bytes that the other devices
    give into the buffer. -/
theorem reconstruct_dio_eq (one : g.PARITYCHUNK_NUM = 1) (wild : Nat → Buf) {dio : DioInfo} {dev : Nat}
    (lt : dev < g.NUM_DEVFILES) (device : dio.dev_id = (dev : Nat)) (short : dio.length ≤ g.SCHUNK_SIZE)
    (mem : Nat → Byte) : reconstruct_dio g isal devs wild dio mem =
      some (overlay mem dio.buf dio.length (fun i => rebuilt g devs dev (dio.dev_offset + i))) := by
  have many := g.data_many
  have count := survivors_length one lt
  unfold reconstruct_dio
  rw [if_neg (by omega), device, survivors_eq]
  simp only [count]
  rw [if_neg (by omega), encode_dio, if_pos one]
  refine congrArg some (overlay_congr fun k inside => ?_)
  have bytes := recon_reads_eq devs wild ((List.range g.NUM_DEVFILES).erase dev) dio inside
  rw [count] at bytes
  rw [isal.xor_gen_spec _ _ _ _ (by simp; omega), if_pos inside, List.map_map]
  exact congrArg xorSum bytes

/-! ### Tags -/

/-- The requests of the reads that fail, in the order of their completions. -/
def failedDios (env : ReadEnv) (v_dios : List DioInfo) : List DioInfo :=
  env.order.filterMap fun ios => if env.failed ios then v_dios[ios]? else none

/-- The tag of a failed read keeps the number of the request. -/
theorem tag_failed {req_id : Nat} (low : req_id < 2 ^ 32) :
    sget_low32 (failed_tag (u64_merg req_id NVME_FFAIL_SIG)) = NVME_FAILED_REQ ∧
      sget_high32 (failed_tag (u64_merg req_id NVME_FFAIL_SIG)) = req_id := by
  unfold failed_tag NVME_FFAIL_SIG NVME_FAILED_REQ
  rw [low_high low (by omega), sget_high32_eq, low_high (by omega) (by omega), sget_low32_eq, sget_high32_eq]
  omega

theorem tag_plain {req_id : Nat} (low : req_id < 2 ^ 32) :
    sget_low32 (u64_merg req_id NVME_FFAIL_SIG) ≠ NVME_FAILED_REQ := by
  unfold NVME_FFAIL_SIG NVME_FAILED_REQ
  rw [low_high low (by omega), sget_low32_eq]
  omega

/-- `iouring_rwait` gives the tags of the reads that fail, in order. -/
theorem rwait_eq {env : ReadEnv} {v_dios : List DioInfo} (numbers : ∀ dio ∈ v_dios, dio.req_id < 2 ^ 32) :
    iouring_rwait (completions env v_dios) =
      (failedDios env v_dios).map fun dio => failed_tag (u64_merg dio.req_id NVME_FFAIL_SIG) := by
  unfold iouring_rwait completions failedDios
  induction env.order with
  | nil => rfl
  | cons ios order ih =>
    cases found : v_dios[ios]? with
    | none => simpa [List.filterMap_cons, found] using ih
    | some dio =>
      have low := numbers dio (List.mem_of_getElem? found)
      by_cases fails : env.failed ios = true
      · simpa [List.filterMap_cons, found, fails, (tag_failed low).1] using ih
      · simpa [List.filterMap_cons, found, fails, tag_plain low] using ih

theorem get_id_eq {v_dios : List DioInfo} (distinct : (v_dios.map DioInfo.req_id).Nodup) {dio : DioInfo}
    (member : dio ∈ v_dios) : ((get_id v_dios dio.req_id).bind fun vid => v_dios[vid]?) = some dio := by
  unfold get_id
  induction v_dios with
  | nil => simp at member
  | cons first rest ih =>
    rw [List.map_cons, List.nodup_cons] at distinct
    rcases List.mem_cons.mp member with rfl | later
    · simp [List.findIdx?_cons]
    · have other : first.req_id ≠ dio.req_id := fun same =>
        distinct.1 (same ▸ List.mem_map_of_mem later)
      have tail := ih distinct.2 later
      rw [List.findIdx?_cons, beq_false_of_ne other]
      simpa [Option.bind_map] using tail

/-! ### The memory -/

/-- Buffers that hold the bytes of their devices, in a memory that is otherwise
    `mem`. -/
structure Holds (devs : Nat → Nat → Byte) (v_dios : List DioInfo) (mem after : Nat → Byte) : Prop where
  bytes : ∀ dio ∈ v_dios, ∀ i < dio.length, after (dio.buf + i) = devs dio.dev_id.toNat (dio.dev_offset + i)
  frame : ∀ a, (∀ dio ∈ v_dios, a < dio.buf ∨ dio.buf + dio.length ≤ a) → after a = mem a

theorem Holds.unique {v_dios : List DioInfo} {mem after other : Nat → Byte} (holds : Holds devs v_dios mem after)
    (also : Holds devs v_dios mem other) : after = other := by
  funext a
  by_cases out : ∀ dio ∈ v_dios, a < dio.buf ∨ dio.buf + dio.length ≤ a
  · rw [holds.frame a out, also.frame a out]
  · push Not at out
    obtain ⟨dio, member, low, high⟩ := out
    have first := holds.bytes dio member (a - dio.buf) (by omega)
    have second := also.bytes dio member (a - dio.buf) (by omega)
    rw [Nat.add_sub_cancel' low] at first second
    rw [first, second]

/-- What the first round of reads writes for the request at a position. -/
def firstWrite (devs : Nat → Nat → Byte) (env : ReadEnv) (p : DioInfo × Nat) : Write Unit Byte :=
  ⟨(), p.1.buf, p.1.length, if env.failed p.2 then env.junk p.2 else fun i => devs p.1.dev_id.toNat (p.1.dev_offset + i)⟩

theorem read_some_eq {env : ReadEnv} {dios : List DioInfo}
    (devices : ∀ dio ∈ dios, ∃ dev < g.NUM_DEVFILES, dio.dev_id = (dev : Nat)) {ios : Nat}
    (room : ios + dios.length ≤ RING_QD) (mem : Nat → Byte) :
    read_some g devs env ios dios mem =
      some (applyAll (fun _ => mem) ((dios.zipIdx ios).map (firstWrite devs env)) ()) := by
  induction dios generalizing ios mem with
  | nil => rfl
  | cons dio dios ih =>
    rw [List.length_cons] at room
    obtain ⟨dev, lt, device⟩ := devices dio List.mem_cons_self
    have tail := ih (fun d member => devices d (List.mem_cons_of_mem _ member)) (show ios + 1 + dios.length ≤ RING_QD by omega)
    simp only [read_some, device, v_stdfiles_at_eq lt, io_uring_get_sqe_eq (show ios < RING_QD by omega),
      Option.bind_eq_bind, Option.bind_some, tail, List.zipIdx_cons, List.map_cons, applyAll_cons, firstWrite,
      Write.apply_unit, Int.toNat_natCast]

/-- The buffers of requests do not overlap. -/
def Disjoint (v_dios : List DioInfo) : Prop :=
  v_dios.Pairwise fun d e => d.buf + d.length ≤ e.buf ∨ e.buf + e.length ≤ d.buf

/-- With buffers that do not overlap, an address is in the buffer at one
    position only. -/
theorem Disjoint.position {v_dios : List DioInfo} (disjoint : Disjoint v_dios) {m n a : Nat} {d e : DioInfo}
    (at_m : v_dios[m]? = some d) (at_n : v_dios[n]? = some e) (in_d : d.buf ≤ a ∧ a < d.buf + d.length)
    (in_e : e.buf ≤ a ∧ a < e.buf + e.length) : m = n := by
  obtain ⟨lm, rfl⟩ := List.getElem?_eq_some_iff.mp at_m
  obtain ⟨ln, rfl⟩ := List.getElem?_eq_some_iff.mp at_n
  rcases Nat.lt_trichotomy m n with before | same | after
  · have := List.pairwise_iff_getElem.mp disjoint m n lm ln before
    omega
  · exact same
  · have := List.pairwise_iff_getElem.mp disjoint n m ln lm after
    omega

theorem mem_failedDios {env : ReadEnv} {v_dios : List DioInfo} (order : env.order.Perm (List.range v_dios.length))
    {dio : DioInfo} : dio ∈ failedDios env v_dios ↔ ∃ n, env.failed n = true ∧ v_dios[n]? = some dio := by
  simp only [failedDios, List.mem_filterMap]
  constructor
  · rintro ⟨n, _, found⟩
    by_cases fails : env.failed n = true
    · exact ⟨n, fails, by simpa [fails] using found⟩
    · simp [fails] at found
  · rintro ⟨n, fails, found⟩
    have low : n < v_dios.length := (List.getElem?_eq_some_iff.mp found).1
    exact ⟨n, order.mem_iff.mpr (List.mem_range.mpr low), by simp [fails, found]⟩

/-- The reads and the reconstructions leave the bytes of the devices in the
    buffers. -/
theorem writes_hold (devs : Nat → Nat → Byte) (env : ReadEnv) {v_dios : List DioInfo} (disjoint : Disjoint v_dios)
    (order : env.order.Perm (List.range v_dios.length)) (mem : Nat → Byte) : Holds devs v_dios mem
      (applyAll (fun _ => mem)
        (v_dios.zipIdx.map (firstWrite devs env) ++ (failedDios env v_dios).map (readWrite devs)) ()) where
  bytes dio member i inside := by
    obtain ⟨n, at_n⟩ := List.mem_iff_getElem?.mp member
    have here : dio.buf ≤ dio.buf + i ∧ dio.buf + i < dio.buf + dio.length := by omega
    by_cases fails : env.failed n = true
    · -- The last write to the byte is the reconstruction.
      rw [applyAll_append]
      refine applyAll_covered ⟨readWrite devs dio, List.mem_map_of_mem ((mem_failedDios order).mpr ⟨n, fails, at_n⟩),
        rfl, here⟩ ?_ _
      intro w again covers
      obtain ⟨d, there, rfl⟩ := List.mem_map.mp again
      obtain ⟨m, _, at_m⟩ := (mem_failedDios order).mp there
      obtain rfl := disjoint.position at_m at_n covers.2 here
      obtain rfl := Option.some.inj (at_m.symm.trans at_n)
      simp [readWrite]
    · -- No reconstruction writes the byte, and only its own read does.
      refine applyAll_covered ⟨firstWrite devs env (dio, n), List.mem_append_left _
        (List.mem_map_of_mem (List.mem_zipIdx_iff_getElem?.mpr at_n)), rfl, here⟩ ?_ _
      intro w again covers
      rcases List.mem_append.mp again with first | later
      · obtain ⟨⟨d, m⟩, there, rfl⟩ := List.mem_map.mp first
        have at_m := List.mem_zipIdx_iff_getElem?.mp there
        obtain rfl := disjoint.position at_m at_n covers.2 here
        obtain rfl := Option.some.inj (at_m.symm.trans at_n)
        simp [firstWrite, fails]
      · obtain ⟨d, there, rfl⟩ := List.mem_map.mp later
        obtain ⟨m, failed, at_m⟩ := (mem_failedDios order).mp there
        obtain rfl := disjoint.position at_m at_n covers.2 here
        exact absurd failed fails
  frame a out := applyAll_frame (fun w again covers => by
    rcases List.mem_append.mp again with first | later
    · obtain ⟨⟨d, m⟩, there, rfl⟩ := List.mem_map.mp first
      have inside := out d (List.fst_mem_of_mem_zipIdx there)
      have : d.buf ≤ a ∧ a < d.buf + d.length := covers.2
      omega
    · obtain ⟨d, there, rfl⟩ := List.mem_map.mp later
      obtain ⟨m, _, at_m⟩ := (mem_failedDios order).mp there
      have inside := out d (List.mem_of_getElem? at_m)
      have : d.buf ≤ a ∧ a < d.buf + d.length := covers.2
      omega) _

/-- A read whose requests have distinct numbers and separate buffers. -/
structure Request (g : Geometry) (v_dios : List DioInfo) : Prop where
  devices : ∀ dio ∈ v_dios, 0 ≤ dio.dev_id ∧ dio.dev_id < g.NUM_DEVFILES
  short : ∀ dio ∈ v_dios, dio.length ≤ g.SCHUNK_SIZE
  numbers : ∀ dio ∈ v_dios, 1 ≤ dio.req_id ∧ dio.req_id < 2 ^ 32
  distinct : (v_dios.map DioInfo.req_id).Nodup
  disjoint : Disjoint v_dios

theorem device_of {v_dios : List DioInfo} (request : Request g v_dios) {dio : DioInfo} (member : dio ∈ v_dios) :
    ∃ dev < g.NUM_DEVFILES, dio.dev_id = (dev : Nat) := by
  have range := request.devices dio member
  exact ⟨dio.dev_id.toNat, by omega, by omega⟩

theorem failedDios_known (env : ReadEnv) {v_dios : List DioInfo} : ∀ dio ∈ failedDios env v_dios, dio ∈ v_dios := by
  intro dio member
  obtain ⟨n, _, found⟩ := List.mem_filterMap.mp member
  split at found
  · exact List.mem_of_getElem? found
  · cases found

variable {v_dios : List DioInfo}

/-- The loop over the failed reads writes the bytes that the other devices give,
    when the ring has an entry for each of these. -/
theorem retry_eq (one : g.PARITYCHUNK_NUM = 1) (request : Request g v_dios) (wild : Nat → Buf) {fails : List DioInfo}
    (known : ∀ dio ∈ fails, dio ∈ v_dios) (room : fails ≠ [] → g.DATACHUNK_NUM ≤ RING_QD) (mem : Nat → Byte) :
    retry g isal devs wild v_dios (fails.map fun dio => failed_tag (u64_merg dio.req_id NVME_FFAIL_SIG)) mem =
      some (applyAll (fun _ => mem) (fails.map (readWrite (rebuilt g devs))) ()) := by
  induction fails generalizing mem with
  | nil => rfl
  | cons dio fails ih =>
    have member := known dio List.mem_cons_self
    have short := request.short dio member
    obtain ⟨dev, lt, device⟩ := device_of request member
    obtain ⟨_, ring⟩ := (reconstruct_ring_iff one lt device short).mpr (room (List.cons_ne_nil _ _))
    have tail := ih (fun d there => known d (List.mem_cons_of_mem _ there)) fun _ => room (List.cons_ne_nil _ _)
    simp only [List.map_cons, retry, (tag_failed (request.numbers dio member).2).2, get_id_eq request.distinct member, ring,
      reconstruct_dio_eq isal one wild lt device short, Option.bind_eq_bind, Option.bind_some, tail, applyAll_cons,
      readWrite, Write.apply_unit, device, Int.toNat_natCast]

/-- A loop over failed reads that returns had these entries. -/
theorem retry_room (one : g.PARITYCHUNK_NUM = 1) (request : Request g v_dios) (wild : Nat → Buf) {fails : List DioInfo}
    (known : ∀ dio ∈ fails, dio ∈ v_dios) {mem after : Nat → Byte} (result : retry g isal devs wild v_dios
      (fails.map fun dio => failed_tag (u64_merg dio.req_id NVME_FFAIL_SIG)) mem = some after) (some_fail : fails ≠ []) :
    g.DATACHUNK_NUM ≤ RING_QD := by
  cases fails with
  | nil => exact absurd rfl some_fail
  | cons dio fails =>
    have member := known dio List.mem_cons_self
    obtain ⟨dev, lt, device⟩ := device_of request member
    simp only [List.map_cons, retry, (tag_failed (request.numbers dio member).2).2, get_id_eq request.distinct member,
      Option.bind_eq_bind, Option.bind_eq_some_iff] at result
    obtain ⟨pending, ring, _⟩ := result
    exact (reconstruct_ring_iff one lt device (request.short dio member)).mp ⟨pending, ring⟩

/-- The reads of a call that fails some: the buffers of those get the bytes that the
    other devices give. -/
theorem s_norRead_reconst_eq (one : g.PARITYCHUNK_NUM = 1) (request : Request g v_dios) (few : v_dios.length ≤ RING_QD)
    (env : ReadEnv) (room : failedDios env v_dios ≠ [] → g.DATACHUNK_NUM ≤ RING_QD) (wild : Nat → Buf) (mem : Nat → Byte) :
    s_norRead_reconst g isal devs env wild v_dios mem = some (applyAll (fun _ => mem)
      (v_dios.zipIdx.map (firstWrite devs env) ++ (failedDios env v_dios).map (readWrite (rebuilt g devs))) ()) := by
  rw [s_norRead_reconst, read_some_eq (fun dio member => device_of request member) (by omega),
    rwait_eq fun dio member => (request.numbers dio member).2, applyAll_append]
  exact retry_eq isal one request wild (failedDios_known env) room _

/-- Where the devices sum to zero, a reconstruction writes what a read writes. -/
theorem applyAll_rebuilt (request : Request g v_dios) (zero : SumsZero g devs v_dios) {fails : List DioInfo}
    (known : ∀ dio ∈ fails, dio ∈ v_dios) (m : Unit → Nat → Byte) :
    applyAll m (fails.map (readWrite (rebuilt g devs))) = applyAll m (fails.map (readWrite devs)) := by
  induction fails generalizing m with
  | nil => rfl
  | cons dio fails ih =>
    have member := known dio List.mem_cons_self
    obtain ⟨dev, lt, device⟩ := device_of request member
    have same : (readWrite (rebuilt g devs) dio).apply m = (readWrite devs dio).apply m := by
      funext u a
      by_cases covers : (readWrite devs dio).Covers u a
      · obtain ⟨_, low, high⟩ := id covers
        simp only [readWrite] at low high
        rw [Write.apply_covered covers, Write.apply_covered (w := readWrite (rebuilt g devs) dio) covers]
        simp only [readWrite, device, Int.toNat_natCast]
        exact (rebuilt_eq_iff lt _).mpr (zero dio member (a - dio.buf) (by omega))
      · rw [Write.apply_frame covers, Write.apply_frame (w := readWrite (rebuilt g devs) dio) covers]
    rw [List.map_cons, List.map_cons, applyAll_cons, applyAll_cons, same]
    exact ih (fun d there => known d (List.mem_cons_of_mem _ there)) _

/-- There the buffers hold the bytes of their devices, whichever reads fail and in
    whatever order they complete. -/
theorem s_norRead_holds (one : g.PARITYCHUNK_NUM = 1) (request : Request g v_dios) (zero : SumsZero g devs v_dios)
    (few : v_dios.length ≤ RING_QD) (env : ReadEnv) (room : failedDios env v_dios ≠ [] → g.DATACHUNK_NUM ≤ RING_QD)
    (order : env.order.Perm (List.range v_dios.length)) (wild : Nat → Buf) (mem : Nat → Byte) : ∃ after,
    s_norRead_reconst g isal devs env wild v_dios mem = some after ∧ Holds devs v_dios mem after := by
  refine ⟨_, s_norRead_reconst_eq isal one request few env room wild mem, ?_⟩
  rw [applyAll_append, applyAll_rebuilt request zero (failedDios_known env), ← applyAll_append]
  exact writes_hold devs env request.disjoint order mem

/-! ### The ring -/

/-- What is asked of reads that may fail: the buffers get the bytes of the devices,
    whatever fails. -/
def ReadsBack (g : Geometry) (isal : Isal) (devs : Nat → Nat → Byte) (v_dios : List DioInfo) : Prop :=
  ∀ env wild mem, env.order.Perm (List.range v_dios.length) → ∃ after,
    s_norRead_reconst g isal devs env wild v_dios mem = some after ∧
    ∀ dio ∈ v_dios, ∀ i < dio.length, after (dio.buf + i) = devs dio.dev_id.toNat (dio.dev_offset + i)

/-- All reads fail, and complete in order. -/
def all_fail (v_dios : List DioInfo) : ReadEnv := ⟨fun _ => true, fun _ _ => 0, List.range v_dios.length⟩

/-- Reads that return had their entries. -/
theorem few_of_return {env : ReadEnv} {wild : Nat → Buf} {mem after : Nat → Byte}
    (result : s_norRead_reconst g isal devs env wild v_dios mem = some after) : v_dios.length ≤ RING_QD := by
  rw [s_norRead_reconst, Option.bind_eq_bind, Option.bind_eq_some_iff] at result
  obtain ⟨_, read, _⟩ := result
  have few := read_some_room devs (Nat.zero_le RING_QD) read
  omega

/-- Reads that return when all of them fail had the entries of the reconstructions
    too. -/
theorem room_of_return (one : g.PARITYCHUNK_NUM = 1) (request : Request g v_dios) {wild : Nat → Buf} {mem after : Nat → Byte}
    (result : s_norRead_reconst g isal devs (all_fail v_dios) wild v_dios mem = some after) :
    v_dios.length ≤ RING_QD ∧ (v_dios ≠ [] → g.DATACHUNK_NUM ≤ RING_QD) := by
  refine ⟨few_of_return isal result, fun some_dio => ?_⟩
  rw [s_norRead_reconst, Option.bind_eq_bind, Option.bind_eq_some_iff] at result
  obtain ⟨_, _, again⟩ := result
  rw [rwait_eq fun dio member => (request.numbers dio member).2] at again
  refine retry_room isal one request wild (failedDios_known _) again fun none => ?_
  obtain ⟨dio, member⟩ := List.exists_mem_of_ne_nil _ some_dio
  obtain ⟨n, here⟩ := List.mem_iff_getElem?.mp member
  have failed : dio ∈ failedDios (all_fail v_dios) v_dios := (mem_failedDios (.refl _)).mpr ⟨n, rfl, here⟩
  rw [none] at failed
  cases failed

/-- With one parity chunk, on devices whose bytes sum to zero at every offset, the
    buffers hold the bytes of their devices whichever reads fail and in whatever
    order the completions arrive, as when no read fails, exactly when the ring has
    an entry for each request and, if there is one, for each surviving device. -/
theorem s_norRead_degraded_iff (one : g.PARITYCHUNK_NUM = 1) (zero : RowsZero g devs) (request : Request g v_dios) :
    (∀ env wild mem, env.order.Perm (List.range v_dios.length) → ∃ after,
      s_norRead_reconst g isal devs env wild v_dios mem = some after ∧
      (∀ dio ∈ v_dios, ∀ i < dio.length, after (dio.buf + i) = devs dio.dev_id.toNat (dio.dev_offset + i)) ∧
      s_norRead_reconst g isal devs { env with failed := fun _ => false } wild v_dios mem = some after) ↔
    v_dios.length ≤ RING_QD ∧ (v_dios ≠ [] → g.DATACHUNK_NUM ≤ RING_QD) := by
  constructor
  · intro reads
    obtain ⟨after, result, _⟩ := reads (all_fail v_dios) (fun _ _ => 0) (fun _ => 0) (.refl _)
    exact room_of_return isal one request result
  · rintro ⟨few, room⟩ env wild mem order
    have sums : SumsZero g devs v_dios := fun _ _ _ _ => zero _
    have entries : ∀ env : ReadEnv, failedDios env v_dios ≠ [] → g.DATACHUNK_NUM ≤ RING_QD := by
      intro env some_fail
      refine room fun none => some_fail ?_
      rw [none, failedDios]
      simp
    obtain ⟨after, result, holds⟩ := s_norRead_holds isal one request sums few env (entries env) order wild mem
    obtain ⟨plain, returned, also⟩ := s_norRead_holds isal one request sums few { env with failed := fun _ => false }
      (entries _) order wild mem
    exact ⟨after, result, holds.bytes, by rw [returned, also.unique holds]⟩

/-- Two reads of two devices with every byte zero, of which the second fails and
    completes first. -/
theorem s_norRead_degraded_two : ∃ after, s_norRead_reconst defaultGeometry Isal.reference (fun _ _ => 0)
      ⟨fun ios => ios == 1, fun _ _ => 0xff, [1, 0]⟩ (fun _ _ => 0xff) [⟨0, 4096, 0, 512, 1⟩, ⟨1, 8192, 512, 512, 2⟩]
      (fun _ => 0xee) = some after ∧
    (∀ dio ∈ [(⟨0, 4096, 0, 512, 1⟩ : DioInfo), ⟨1, 8192, 512, 512, 2⟩], ∀ i < dio.length, after (dio.buf + i) = 0) ∧
    s_norRead_reconst defaultGeometry Isal.reference (fun _ _ => 0) ⟨fun _ => false, fun _ _ => 0xff, [1, 0]⟩
      (fun _ _ => 0xff) [⟨0, 4096, 0, 512, 1⟩, ⟨1, 8192, 512, 512, 2⟩] (fun _ => 0xee) = some after :=
  (s_norRead_degraded_iff Isal.reference rfl (fun _ => by decide)
    ⟨by decide, by decide, by decide, by decide, by unfold Disjoint; decide⟩).mpr (by decide) _ _ _ (by decide)

/-- Reads of one sector each, into buffers one after another. -/
def sectors (count : Nat) : List DioInfo :=
  (List.range count).map fun i => ⟨(i % 8 : Nat), 4096 + 512 * i, 0, 512, i + 1⟩

/-- 33 reads on devices with every byte zero, as many as `raid_read` makes of a
    request of 33 chunks: the ring has no entry for the last one. -/
theorem s_norRead_overfilled : Request defaultGeometry (sectors 33) ∧ RowsZero defaultGeometry (fun _ _ => 0) ∧
    (∀ env wild mem, s_norRead_reconst defaultGeometry Isal.reference (fun _ _ => 0) env wild (sectors 33) mem = none) ∧
    ¬ ∀ env wild mem, env.order.Perm (List.range (sectors 33).length) → ∃ after,
      s_norRead_reconst defaultGeometry Isal.reference (fun _ _ => 0) env wild (sectors 33) mem = some after ∧
      (∀ dio ∈ sectors 33, ∀ i < dio.length, after (dio.buf + i) = 0) ∧
      s_norRead_reconst defaultGeometry Isal.reference (fun _ _ => 0) { env with failed := fun _ => false } wild
        (sectors 33) mem = some after := by
  have null : ∀ env wild mem,
      s_norRead_reconst defaultGeometry Isal.reference (fun _ _ => 0) env wild (sectors 33) mem = none := by
    intro env wild mem
    refine Option.eq_none_iff_forall_ne_some.mpr fun after result => ?_
    exact absurd (few_of_return Isal.reference result) (by decide)
  have request : Request defaultGeometry (sectors 33) := by
    refine ⟨by decide, by decide, by decide, by decide, ?_⟩
    unfold Disjoint
    decide +kernel
  have zero : xorSum ((List.range defaultGeometry.NUM_DEVFILES).map fun _ => (0 : Byte)) = 0 := by decide
  refine ⟨request, fun _ => zero, null, fun reads => ?_⟩
  obtain ⟨after, result, _⟩ := reads ⟨fun _ => false, fun _ _ => 0, List.range (sectors 33).length⟩ (fun _ _ => 0)
    (fun _ => 0) (.refl _)
  rw [null] at result
  cases result

end Straid.DegradedRead
