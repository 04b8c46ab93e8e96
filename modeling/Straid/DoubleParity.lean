import Straid.DegradedRead
import Straid.Syndromes

/-!
The reconstruction of a data chunk with two parity chunks. `reconstruct_dio`
takes the first `DATACHUNK_NUM` devices that did not fail, in the order of their
numbers, for the data chunks, and leaves the second parity of their bytes
(`reconstruct_dio_two`). On contents with one data chunk that is not zero this is
a sum of at most two powers of the generator (`taken_one`, `taken_two`), so they say
which device the one that is left out can be: the one with the first parity
(`left_out_parity`, `left_out_syndrome`, `left_out_data`). What is left is one
position in one rotation (`reconstructs_iff`).
-/
namespace Straid.DoubleParity
open LogFiles Metadata Decode DegradedRead EcEncoder Overlays XorSums Syndromes

variable (g : Geometry) (isal : Isal)

/-- The row of stripe `s` has the two parities of its data chunks, in the places
    where a full stripe has them. -/
structure TwoParities (s : Nat) (devs : Nat → Nat → Byte) : Prop where
  sum : ∀ q < g.SCHUNK_SIZE, devs (parityDev g s 0) (s * g.SCHUNK_SIZE + q) =
    xorSum ((List.range g.DATACHUNK_NUM).map fun c => devs (dataDev g s c) (s * g.SCHUNK_SIZE + q))
  syndrome : ∀ q < g.SCHUNK_SIZE, devs (parityDev g s 1) (s * g.SCHUNK_SIZE + q) =
    qSyndrome ((List.range g.DATACHUNK_NUM).map fun c => devs (dataDev g s c) (s * g.SCHUNK_SIZE + q))

/-- A failed read of a part of data chunk `f` of stripe `s`. -/
structure FailedRead (s f : Nat) (dio : DioInfo) : Prop where
  chunk : f < g.DATACHUNK_NUM
  device : dio.dev_id = (dataDev g s f : Nat)
  low : s * g.SCHUNK_SIZE ≤ dio.dev_offset
  high : dio.dev_offset + dio.length ≤ s * g.SCHUNK_SIZE + g.SCHUNK_SIZE

/-- Whatever the devices contain, if the row of the stripe has its parities the
    reconstruction puts the bytes of the failed read into its buffer. -/
def Reconstructs (s : Nat) (dio : DioInfo) : Prop := ∀ devs, TwoParities g s devs → ∀ wild mem, ∃ after,
  reconstruct_dio g isal devs wild dio mem = some after ∧
  ∀ k < dio.length, after (dio.buf + k) = devs dio.dev_id.toNat (dio.dev_offset + k)

/-! ### The devices that did not fail -/

/-- The device with number `i` among those that did not fail. -/
def survivor (dev i : Nat) : Nat := if i < dev then i else i + 1

/-- The number of a device among those that did not fail. -/
def number (dev d : Nat) : Nat := if d < dev then d else d - 1

theorem survivor_below {dev i : Nat} (below : i < dev) : survivor dev i = i := if_pos below

theorem survivor_above {dev i : Nat} (above : dev ≤ i) : survivor dev i = i + 1 := if_neg (by omega)

theorem number_below {dev d : Nat} (below : d < dev) : number dev d = d := if_pos below

theorem number_above {dev d : Nat} (above : dev < d) : number dev d = d - 1 := if_neg (by omega)

theorem survivor_number {dev d : Nat} (other : d ≠ dev) : survivor dev (number dev d) = d := by
  cases Nat.lt_or_gt_of_ne other with
  | inl below => rw [number_below below, survivor_below below]
  | inr above =>
    rw [number_above above, survivor_above (by omega)]
    omega

theorem number_survivor (dev i : Nat) : number dev (survivor dev i) = i := by
  cases Nat.lt_or_ge i dev with
  | inl below => rw [survivor_below below, number_below below]
  | inr above => rw [survivor_above above, number_above (by omega), Nat.add_sub_cancel]

theorem survivor_ne (dev i : Nat) : survivor dev i ≠ dev := by
  cases Nat.lt_or_ge i dev with
  | inl below => rw [survivor_below below]; omega
  | inr above => rw [survivor_above above]; omega

theorem number_inj {dev d e : Nat} (one : d ≠ dev) (other : e ≠ dev) (same : number dev d = number dev e) : d = e := by
  rw [← survivor_number one, same, survivor_number other]

theorem survivors_at {n dev i : Nat} (failed : dev < n) (lt : i + 1 < n) :
    ((List.range n).erase dev)[i]? = some (survivor dev i) := by
  have place := (List.nodup_range (n := n)).idxOf_getElem dev (by rw [List.length_range]; exact failed)
  rw [List.getElem_range] at place
  rw [List.erase_eq_eraseIdx_of_idxOf place]
  cases Nat.lt_or_ge i dev with
  | inl below => rw [survivor_below below, List.getElem?_eraseIdx_of_lt below, List.getElem?_range (by omega)]
  | inr above => rw [survivor_above above, List.getElem?_eraseIdx_of_ge above, List.getElem?_range lt]

variable {g}

theorem devices_two (two : g.PARITYCHUNK_NUM = 2) : g.NUM_DEVFILES = g.DATACHUNK_NUM + 2 := by
  rw [Geometry.NUM_DEVFILES, two]

/-- Every device has a chunk of the stripe. -/
theorem device_cases (s : Nat) {d : Nat} (lt : d < g.NUM_DEVFILES) :
    (∃ c < g.DATACHUNK_NUM, d = dataDev g s c) ∨ ∃ p < g.PARITYCHUNK_NUM, d = parityDev g s p := by
  have member := (rotation_perm g.NUM_DEVFILES s).mem_iff.mpr (List.mem_range.mpr lt)
  obtain ⟨j, inside, rfl⟩ := List.mem_map.mp member
  rw [List.mem_range, Geometry.NUM_DEVFILES] at inside
  by_cases data : j < g.DATACHUNK_NUM
  · exact .inl ⟨j, data, rfl⟩
  · refine .inr ⟨j - g.DATACHUNK_NUM, by omega, ?_⟩
    rw [parityDev, Nat.add_assoc, Nat.add_sub_cancel' (by omega)]

/-- With two parity chunks, a reconstruction leaves the second parity of the bytes
    of the first devices that did not fail. -/
theorem reconstruct_dio_two (two : g.PARITYCHUNK_NUM = 2) {s f : Nat} {dio : DioInfo} (failed : FailedRead g s f dio)
    (devs : Nat → Nat → Byte) (wild : Nat → Buf) (mem : Nat → Byte) : ∃ after,
    reconstruct_dio g isal devs wild dio mem = some after ∧ ∀ k < dio.length, after (dio.buf + k) =
      qSyndrome ((List.range g.DATACHUNK_NUM).map fun i => devs (survivor (dataDev g s f) i) (dio.dev_offset + k)) := by
  have many := g.data_many
  have high := failed.high
  have low := failed.low
  have lt := dataDev_lt (g := g) s f
  have devices := devices_two two
  have count : ((List.range g.NUM_DEVFILES).erase (dataDev g s f)).length = g.DATACHUNK_NUM + 1 := by
    rw [List.length_erase_of_mem (List.mem_range.mpr lt), List.length_range]
    omega
  have other : ¬ g.PARITYCHUNK_NUM = 1 := by omega
  rw [reconstruct_dio, if_neg (by omega), failed.device, survivors_eq]
  simp only [count]
  rw [if_neg (by omega), encode_dio, if_neg other, if_pos two]
  refine ⟨_, rfl, ?_⟩
  intro k inside
  rw [overlay_inside (by omega) (by omega), Nat.add_sub_cancel_left,
    (isal.pq_gen_spec _ _ _ _ _ (by simp; omega)).2, if_pos inside, List.map_map]
  refine congrArg qSyndrome (List.map_congr_left fun i member => ?_)
  rw [List.mem_range] at member
  simp only [Function.comp, recon_reads, survivors_at lt (show i + 1 < g.NUM_DEVFILES by omega)]
  rw [overlay_inside (Nat.zero_le k) (by omega), Nat.sub_zero]

/-- What the contents say when the reconstruction is right. -/
theorem reconstructs_bytes (two : g.PARITYCHUNK_NUM = 2) {s f : Nat} {dio : DioInfo} (failed : FailedRead g s f dio) :
    Reconstructs g isal s dio ↔ ∀ devs, TwoParities g s devs → ∀ k < dio.length,
      qSyndrome ((List.range g.DATACHUNK_NUM).map fun i => devs (survivor (dataDev g s f) i) (dio.dev_offset + k)) =
        devs (dataDev g s f) (dio.dev_offset + k) := by
  have device : dio.dev_id.toNat = dataDev g s f := by rw [failed.device, Int.toNat_natCast]
  constructor
  · intro right devs parities k inside
    obtain ⟨after, returned, bytes⟩ := reconstruct_dio_two isal two failed devs (fun _ _ => 0) fun _ => 0
    obtain ⟨again, same, wanted⟩ := right devs parities (fun _ _ => 0) fun _ => 0
    obtain rfl := Option.some.inj (returned.symm.trans same)
    rw [← bytes k inside, wanted k inside, device]
  · intro right devs parities wild mem
    obtain ⟨after, returned, bytes⟩ := reconstruct_dio_two isal two failed devs wild mem
    refine ⟨after, returned, ?_⟩
    intro k inside
    rw [bytes k inside, right devs parities k inside, device]

/-! ### Contents with one data chunk -/

/-- The contents with byte 1 everywhere in data chunk `j` and zero in the others. -/
def unit (g : Geometry) (s j : Nat) : Nat → Byte := fun d =>
  if d = dataDev g s j then 1 else if d = parityDev g s 0 then 1 else if d = parityDev g s 1 then gf_mul2^[j] 1 else 0

theorem unit_data (s j : Nat) : unit g s j (dataDev g s j) = 1 := if_pos rfl

theorem unit_sum (s : Nat) {j : Nat} (chunk : j < g.DATACHUNK_NUM) : unit g s j (parityDev g s 0) = 1 := by
  rw [unit, if_neg (parityDev_ne_dataDev g.parity_pos chunk), if_pos rfl]

theorem unit_syndrome (two : g.PARITYCHUNK_NUM = 2) (s : Nat) {j : Nat} (chunk : j < g.DATACHUNK_NUM) :
    unit g s j (parityDev g s 1) = gf_mul2^[j] 1 := by
  have other : parityDev g s 1 ≠ parityDev g s 0 := fun same =>
    absurd (parityDev_inj (by omega) (by omega) same) (by decide)
  rw [unit, if_neg (parityDev_ne_dataDev (by omega) chunk), if_neg other, if_pos rfl]

theorem unit_zero {s j d : Nat} (data : d ≠ dataDev g s j) (sum : d ≠ parityDev g s 0) (syndrome : d ≠ parityDev g s 1) :
    unit g s j d = 0 := by
  rw [unit, if_neg data, if_neg sum, if_neg syndrome]

theorem unit_other (two : g.PARITYCHUNK_NUM = 2) (s : Nat) {j c : Nat} (chunk : j < g.DATACHUNK_NUM)
    (lt : c < g.DATACHUNK_NUM) (other : c ≠ j) : unit g s j (dataDev g s c) = 0 :=
  unit_zero (fun same => other (dataDev_inj lt chunk same)) (parityDev_ne_dataDev (by omega) lt).symm
    (parityDev_ne_dataDev (by omega) lt).symm

theorem unit_parities (two : g.PARITYCHUNK_NUM = 2) (s : Nat) {j : Nat} (chunk : j < g.DATACHUNK_NUM) :
    TwoParities g s fun d _ => unit g s j d := by
  constructor
  · intro q _
    have sum := xorSum_one List.nodup_range (List.mem_range.mpr chunk) (f := fun c => unit g s j (dataDev g s c))
      fun c member other => unit_other two s chunk (List.mem_range.mp member) other
    rw [sum, unit_sum s chunk, unit_data]
  · intro q _
    have sum := qSyndrome_one (f := fun c => unit g s j (dataDev g s c)) chunk
      fun c lt other => unit_other two s chunk lt other
    rw [sum, unit_syndrome two s chunk, unit_data]

/-! ### The device that is left out -/

/-- What the contents with one data chunk say of the devices that are taken. -/
def UnitsRight (g : Geometry) (s f : Nat) : Prop := ∀ j < g.DATACHUNK_NUM,
  qSyndrome ((List.range g.DATACHUNK_NUM).map fun i => unit g s j (survivor (dataDev g s f) i)) = if j = f then 1 else 0

theorem units_right (two : g.PARITYCHUNK_NUM = 2) {s f : Nat} {dio : DioInfo} (failed : FailedRead g s f dio)
    (some_byte : dio.length ≠ 0) (right : Reconstructs g isal s dio) : UnitsRight g s f := by
  intro j chunk
  have bytes := (reconstructs_bytes isal two failed).mp right _ (unit_parities two s chunk) 0 (by omega)
  refine bytes.trans ?_
  by_cases same : j = f
  · rw [same, if_pos rfl, unit_data]
  · rw [if_neg same, unit_other two s chunk failed.chunk (Ne.symm same)]

/-- The sum of contents that are zero on the devices that are taken, but for one. -/
theorem taken_one (values : Nat → Byte) {D dev d : Nat} (alive : d ≠ dev) (taken : number dev d < D)
    (others : ∀ i < D, survivor dev i ≠ d → values (survivor dev i) = 0) :
    qSyndrome ((List.range D).map fun i => values (survivor dev i)) = gf_mul2^[number dev d] (values d) := by
  have sum := qSyndrome_one (f := fun i => values (survivor dev i)) taken fun i lt other => others i lt fun same =>
    other (same ▸ (number_survivor dev i).symm)
  rw [sum, survivor_number alive]

/-- The same but for two. -/
theorem taken_two (values : Nat → Byte) {D dev d e : Nat} (alive : d ≠ dev) (taken : number dev d < D) (also : e ≠ dev)
    (taken_too : number dev e < D) (apart : e ≠ d)
    (others : ∀ i < D, survivor dev i ≠ d → survivor dev i ≠ e → values (survivor dev i) = 0) :
    qSyndrome ((List.range D).map fun i => values (survivor dev i)) =
      gf_mul2^[number dev d] (values d) ^^^ gf_mul2^[number dev e] (values e) := by
  have sum := qSyndrome_two (f := fun i => values (survivor dev i)) taken taken_too
    (fun same => apart (number_inj also alive same)) fun i lt other different => others i lt
      (fun same => other (same ▸ (number_survivor dev i).symm)) fun same => different (same ▸ (number_survivor dev i).symm)
  rw [sum, survivor_number alive, survivor_number also]

/-- The devices that are taken are those before the one that is left out. -/
theorem taken_lt {dev d out D : Nat} (failed : dev < D + 2) (lt : d < D + 2) (alive : d ≠ dev) (left_alive : out ≠ dev)
    (left_out : number dev out = D) (other : d ≠ out) : number dev d < D := by
  have le : number dev d ≤ D := by
    cases Nat.lt_or_gt_of_ne alive with
    | inl below => rw [number_below below]; omega
    | inr above => rw [number_above above]; omega
  apply Nat.lt_of_le_of_ne le
  intro same
  exact other (number_inj alive left_alive (same.trans left_out.symm))

theorem taken_ne {dev out D i : Nat} (left_out : number dev out = D) (taken : i < D) : survivor dev i ≠ out := by
  intro same
  rw [← same, number_survivor] at left_out
  omega

/-- The second parity is on the device after the first. -/
theorem parityDev_next (s : Nat) : parityDev g s 1 = (parityDev g s 0 + 1) % g.NUM_DEVFILES :=
  (Nat.mod_add_mod ..).symm

theorem parities_apart (two : g.PARITYCHUNK_NUM = 2) (s : Nat) : parityDev g s 1 ≠ parityDev g s 0 :=
  fun same => absurd (parityDev_inj (by omega) (by omega) same) (by decide)

/-- With the first parity left out, the failed chunk is the first one, in the
    rotation where it is on device 1. -/
theorem left_out_parity (two : g.PARITYCHUNK_NUM = 2) {s f : Nat} (chunk : f < g.DATACHUNK_NUM) (right : UnitsRight g s f)
    (left_out : number (dataDev g s f) (parityDev g s 0) = g.DATACHUNK_NUM) :
    s % g.NUM_DEVFILES = 1 ∧ dataDev g s f = 1 := by
  have data : g.DATACHUNK_NUM ≤ 64 := g.data_max
  have devices := devices_two two
  have failed := dataDev_lt (g := g) s f
  have place := parityDev_lt (g := g) s 0
  have sum_alive : parityDev g s 0 ≠ dataDev g s f := parityDev_ne_dataDev (by omega) chunk
  have alive : parityDev g s 1 ≠ dataDev g s f := parityDev_ne_dataDev (by omega) chunk
  have next := parityDev_next (g := g) s
  have last : parityDev g s 0 = g.DATACHUNK_NUM + 1 := by
    cases Nat.lt_or_gt_of_ne sum_alive with
    | inl below =>
      rw [number_below below] at left_out
      rw [left_out, devices, Nat.mod_eq_of_lt (by omega)] at next
      omega
    | inr above =>
      rw [number_above above] at left_out
      omega
  have first : parityDev g s 1 = 0 := by rw [next, last, devices, Nat.mod_self]
  have front : number (dataDev g s f) (parityDev g s 1) = 0 := by
    rw [first] at alive ⊢
    exact number_below (by omega)
  -- The bytes of the failed chunk come back multiplied by its power.
  have power := (taken_one (unit g s f) alive (by omega) fun i lt other =>
    unit_zero (survivor_ne _ _) (taken_ne left_out lt) other).symm.trans (right f chunk)
  rw [front, unit_syndrome two s chunk, if_pos rfl] at power
  obtain rfl : f = 0 := powers_inj (b := 0) (by omega) (by decide) power
  have round : s % g.NUM_DEVFILES = 1 := by
    have rest := Nat.mod_lt s g.devices_pos
    have wrapped := wrap_mod (a := s) g.data_lt_devices
    rw [show (s + g.DATACHUNK_NUM) % g.NUM_DEVFILES = g.DATACHUNK_NUM + 1 from last] at wrapped
    split at wrapped <;> omega
  exact ⟨round, round⟩

/-- The second parity is not left out. -/
theorem left_out_syndrome (two : g.PARITYCHUNK_NUM = 2) {s f : Nat} (chunk : f < g.DATACHUNK_NUM) (right : UnitsRight g s f) :
    number (dataDev g s f) (parityDev g s 1) ≠ g.DATACHUNK_NUM := by
  intro left_out
  have data : g.DATACHUNK_NUM ≤ 64 := g.data_max
  have many := g.data_many
  have devices := devices_two two
  have failed := dataDev_lt (g := g) s f
  have place := parityDev_lt (g := g) s 0
  have alive : parityDev g s 0 ≠ dataDev g s f := parityDev_ne_dataDev (by omega) chunk
  have left_alive : parityDev g s 1 ≠ dataDev g s f := parityDev_ne_dataDev (by omega) chunk
  have first := taken_lt (by omega) (by omega) alive left_alive left_out (parities_apart two s).symm
  -- The first parity stands for the failed chunk only in front.
  have power := (taken_one (unit g s f) alive first fun i lt other =>
    unit_zero (survivor_ne _ _) other (taken_ne left_out lt)).symm.trans (right f chunk)
  rw [unit_sum s chunk, if_pos rfl] at power
  have front : number (dataDev g s f) (parityDev g s 0) = 0 :=
    powers_inj (b := 0) (by omega) (by decide) power
  -- Then it cancels no other chunk.
  obtain ⟨j, lt, different⟩ : ∃ j < g.DATACHUNK_NUM, j ≠ f := ⟨if f = 0 then 1 else 0, by split <;> omega, by split <;> omega⟩
  have moved : dataDev g s j ≠ dataDev g s f := fun same => different (dataDev_inj lt chunk same)
  have apart : dataDev g s j ≠ parityDev g s 0 := (parityDev_ne_dataDev (by omega) lt).symm
  have on := dataDev_lt (g := g) s j
  have second := taken_lt (by omega) (by omega) moved left_alive left_out (parityDev_ne_dataDev (by omega) lt).symm
  have pair := (taken_two (unit g s j) alive first moved second apart
    fun i inside one other => unit_zero other one (taken_ne left_out inside)).symm.trans (right j lt)
  rw [unit_sum s lt, unit_data, if_neg different] at pair
  have same := powers_inj (by omega) (by omega) (BitVec.xor_eq_zero_iff.mp pair)
  exact apart (number_inj moved alive same.symm)

/-- No data chunk is left out. -/
theorem left_out_data (two : g.PARITYCHUNK_NUM = 2) {s f j : Nat} (chunk : f < g.DATACHUNK_NUM) (right : UnitsRight g s f)
    (lt : j < g.DATACHUNK_NUM) (different : j ≠ f) : number (dataDev g s f) (dataDev g s j) ≠ g.DATACHUNK_NUM := by
  intro left_out
  have data : g.DATACHUNK_NUM ≤ 64 := g.data_max
  have devices := devices_two two
  have failed := dataDev_lt (g := g) s f
  have moved : dataDev g s j ≠ dataDev g s f := fun same => different (dataDev_inj lt chunk same)
  have place := parityDev_lt (g := g) s 0
  have place_next := parityDev_lt (g := g) s 1
  have sum_alive : parityDev g s 0 ≠ dataDev g s f := parityDev_ne_dataDev (by omega) chunk
  have syndrome_alive : parityDev g s 1 ≠ dataDev g s f := parityDev_ne_dataDev (by omega) chunk
  have sum := taken_lt (by omega) (by omega) sum_alive moved left_out (parityDev_ne_dataDev (by omega) lt)
  have syndrome := taken_lt (by omega) (by omega) syndrome_alive moved left_out (parityDev_ne_dataDev (by omega) lt)
  have apart := parities_apart two s
  have pair := (taken_two (unit g s j) sum_alive sum syndrome_alive syndrome apart
    fun i inside one other => unit_zero (taken_ne left_out inside) one other).symm.trans (right j lt)
  rw [unit_sum s lt, unit_syndrome two s lt, if_neg different, ← Function.iterate_add_apply] at pair
  have powers := powers_inj (by omega) (by omega) (BitVec.xor_eq_zero_iff.mp pair)
  -- So the second parity is before the first, which is then on the last device.
  have next := parityDev_next (g := g) s
  have last : parityDev g s 0 = g.DATACHUNK_NUM + 1 := by
    by_contra inner
    rw [devices, Nat.mod_eq_of_lt (by omega)] at next
    unfold number at powers
    split at powers <;> split at powers <;> omega
  rw [last, number_above (by omega)] at sum
  omega

/-! ### The one position -/

/-- In the rotation where the second parity is on device 0 and the first data
    chunk on device 1, the second parity of the others and of itself is the first
    data chunk. -/
theorem first_chunk (two : g.PARITYCHUNK_NUM = 2) {s : Nat} (round : s % g.NUM_DEVFILES = 1) {devs : Nat → Nat → Byte}
    (parities : TwoParities g s devs) {q : Nat} (inside : q < g.SCHUNK_SIZE) :
    qSyndrome ((List.range g.DATACHUNK_NUM).map fun i => devs (survivor 1 i) (s * g.SCHUNK_SIZE + q)) =
      devs 1 (s * g.SCHUNK_SIZE + q) := by
  have many := g.data_many
  have devices := devices_two two
  have on : ∀ c < g.DATACHUNK_NUM, dataDev g s c = c + 1 := by
    intro c lt
    rw [dataDev, ← Nat.mod_add_mod, round, Nat.mod_eq_of_lt (by omega), Nat.add_comm]
  have syndrome_on : parityDev g s 1 = 0 := by
    rw [parityDev, Nat.add_assoc, ← Nat.mod_add_mod, round, devices, show 1 + (g.DATACHUNK_NUM + 1) = g.DATACHUNK_NUM + 2 by omega,
      Nat.mod_self]
  have syndrome := parities.syndrome q inside
  obtain ⟨n, count⟩ := Nat.exists_eq_succ_of_ne_zero (show g.DATACHUNK_NUM ≠ 0 by omega)
  have rest : ((List.range n).map fun i => devs (survivor 1 (i + 1)) (s * g.SCHUNK_SIZE + q)) =
      (List.range n).map fun i => devs (dataDev g s (i + 1)) (s * g.SCHUNK_SIZE + q) := by
    refine List.map_congr_left fun i member => ?_
    rw [List.mem_range] at member
    rw [on (i + 1) (by omega)]
    rfl
  rw [syndrome_on, count, List.range_succ_eq_map, List.map_cons, List.map_map, qSyndrome_cons, on 0 (by omega)] at syndrome
  rw [count, List.range_succ_eq_map, List.map_cons, List.map_map, qSyndrome_cons]
  refine (congrArg (fun bytes => _ ^^^ gf_mul2 (qSyndrome bytes)) rest).trans ?_
  refine (congrArg (· ^^^ _) syndrome).trans ?_
  rw [BitVec.xor_assoc]
  exact (congrArg (_ ^^^ ·) BitVec.xor_self).trans BitVec.xor_zero

/-- A reconstruction with two parity chunks is right exactly for no byte or for
    the first data chunk in the rotation where it is on device 1. -/
theorem reconstructs_iff (two : g.PARITYCHUNK_NUM = 2) {s f : Nat} {dio : DioInfo} (failed : FailedRead g s f dio) :
    Reconstructs g isal s dio ↔ dio.length = 0 ∨ s % g.NUM_DEVFILES = 1 ∧ dio.dev_id = 1 := by
  have devices := devices_two two
  have lt := dataDev_lt (g := g) s f
  constructor
  · intro reconstructs
    by_cases some_byte : dio.length = 0
    · exact .inl some_byte
    · have right := units_right isal two failed some_byte reconstructs
      have left_alive := survivor_ne (dataDev g s f) g.DATACHUNK_NUM
      have left_out := number_survivor (dataDev g s f) g.DATACHUNK_NUM
      have last : survivor (dataDev g s f) g.DATACHUNK_NUM < g.NUM_DEVFILES := by
        cases Nat.lt_or_ge g.DATACHUNK_NUM (dataDev g s f) with
        | inl below => rw [survivor_below below]; omega
        | inr above => rw [survivor_above above]; omega
      rcases device_cases s last with ⟨j, chunk, on⟩ | ⟨p, parity, on⟩
      · rw [on] at left_out left_alive
        exact absurd left_out (left_out_data two failed.chunk right chunk fun same => left_alive (same ▸ rfl))
      · rw [on] at left_out
        rcases (show p = 0 ∨ p = 1 by omega) with rfl | rfl
        · obtain ⟨round, device⟩ := left_out_parity two failed.chunk right left_out
          exact .inr ⟨round, by rw [failed.device, device]; rfl⟩
        · exact absurd left_out (left_out_syndrome two failed.chunk right)
  · intro condition
    refine (reconstructs_bytes isal two failed).mpr fun devs parities k inside => ?_
    rcases condition with no_byte | ⟨round, device⟩
    · omega
    · have low := failed.low
      have high := failed.high
      have same := failed.device.symm.trans device
      have on : dataDev g s f = 1 := by omega
      have bytes := first_chunk two round parities (q := dio.dev_offset + k - s * g.SCHUNK_SIZE) (by omega)
      rw [Nat.add_sub_cancel' (by omega)] at bytes
      rw [on]
      exact bytes

theorem reconstructs_device_one : Reconstructs raid6Geometry .reference 1 ⟨1, 4096, 65536, 4096, 0⟩ :=
  (reconstructs_iff .reference rfl (f := 0) ⟨by decide, by decide, by decide, by decide⟩).mpr (.inr ⟨by decide, by decide⟩)

/-- The first data chunk of the first stripe, with byte 1 in it and zero in the
    others: byte 32 is reconstructed. -/
theorem reconstructs_other_byte : FailedRead raid6Geometry 0 0 ⟨0, 4096, 0, 4096, 0⟩ ∧
    TwoParities raid6Geometry 0 (fun d _ => unit raid6Geometry 0 0 d) ∧
    (reconstruct_dio raid6Geometry .reference (fun d _ => unit raid6Geometry 0 0 d) (fun _ _ => 0) ⟨0, 4096, 0, 4096, 0⟩
      fun _ => 0).map (· 4096) = some 32 ∧
    ¬ Reconstructs raid6Geometry .reference 0 ⟨0, 4096, 0, 4096, 0⟩ := by
  have parities := unit_parities (g := raid6Geometry) rfl 0 (j := 0) (by decide)
  have bytes : (reconstruct_dio raid6Geometry .reference (fun d _ => unit raid6Geometry 0 0 d) (fun _ _ => 0)
      ⟨0, 4096, 0, 4096, 0⟩ fun _ => 0).map (· 4096) = some 32 := by
    decide +kernel
  refine ⟨⟨by decide, by decide, by decide, by decide⟩, parities, bytes, ?_⟩
  intro right
  obtain ⟨after, returned, wanted⟩ := right _ parities (fun _ _ => 0) fun _ => 0
  rw [returned, Option.map_some, Option.some.injEq] at bytes
  have byte := (wanted 0 (by decide)).symm.trans bytes
  exact absurd byte (by decide)

end Straid.DoubleParity
