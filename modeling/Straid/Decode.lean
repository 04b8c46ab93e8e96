import Straid.EcEncoder
import Straid.Metadata
import Straid.Rings

/-!
The read path of `decode.cc` and the tags of read requests of `tools.cc`. The
code has two builds: with `RECONST_MOD` a read is tagged with the number of its
request, a device may fail it, and the data is reconstructed from the other
devices. `ReadEnv` says which reads of a call fail, what they leave in their
buffers and in which order the completions arrive. All reads of a call are
prepared on the ring of the thread before one submission, so a call of more than
`RING_QD` uses a pointer that is `NULL`.
-/
namespace Straid.Decode
open Metadata Overlays EcEncoder Rings

/-! ### Tags -/

def u64_merg (high low : Nat) : Nat := u64 (high <<< 32) ||| (low &&& 0xFFFFFFFF)

def sget_low32 (data : Nat) : Nat := data &&& 0xFFFFFFFF

def sget_high32 (data : Nat) : Nat := data >>> 32

/-- The tag that the device puts on the completion of a read that it fails: the
    upper half of the request's tag and `NVME_FAILED_REQ`. -/
def failed_tag (tag : Nat) : Nat := u64_merg (sget_high32 tag) NVME_FAILED_REQ

/-! ### Reads -/

/-- What the devices do with the reads of one call. -/
structure ReadEnv where
  /-- The reads that are failed, by their position. -/
  failed : Nat → Bool
  /-- What a failed read leaves in its buffer. -/
  junk : Nat → Buf
  /-- The positions of the reads in the order of their completions. -/
  order : List Nat

variable (g : Geometry) (isal : Isal) (devs : Nat → Nat → Byte)

/-- The memory after reads that all succeed, from position `ios` on. As many entries
    of the ring are prepared before. -/
def read_all : Nat → List DioInfo → (Nat → Byte) → Option (Nat → Byte)
  | _, [], mem => some mem
  | ios, dio :: dios, mem => do
    let dev ← v_stdfiles_at g dio.dev_id
    let ios ← io_uring_get_sqe ios
    read_all ios dios (overlay mem dio.buf dio.length (fun i => devs dev (dio.dev_offset + i)))

/-- The memory after reads that the devices may fail, from position `ios` on. -/
def read_some (env : ReadEnv) : Nat → List DioInfo → (Nat → Byte) → Option (Nat → Byte)
  | _, [], mem => some mem
  | ios, dio :: dios, mem => do
    let dev ← v_stdfiles_at g dio.dev_id
    let _ ← io_uring_get_sqe ios
    let bytes := if env.failed ios then env.junk ios else fun i => devs dev (dio.dev_offset + i)
    read_some env (ios + 1) dios (overlay mem dio.buf dio.length bytes)

/-- The tags of the completions, in order. -/
def completions (env : ReadEnv) (v_dios : List DioInfo) : List Nat :=
  env.order.filterMap fun ios => v_dios[ios]?.map fun dio =>
    let tag := u64_merg dio.req_id NVME_FFAIL_SIG
    if env.failed ios then failed_tag tag else tag

/-- `iouring_rwait`: the tags of the reads that failed. -/
def iouring_rwait (tags : List Nat) : List Nat := tags.filter fun tag => sget_low32 tag == NVME_FAILED_REQ

/-- `get_id`, with `none` for `-1`. -/
def get_id (v_dios : List DioInfo) (reqid : Nat) : Option Nat := v_dios.findIdx? fun dio => dio.req_id == reqid

/-! ### Reconstruction -/

/-- `encode_dio`: the memory after the data is computed into `origin`. With two
    parity chunks both vectors that the library writes are `origin`, the second
    one last. -/
def encode_dio (databufs : Nat → Buf) (origin dio_len : Nat) (mem : Nat → Byte) : Nat → Byte :=
  let sources := (List.range g.DATACHUNK_NUM).map databufs
  if g.PARITYCHUNK_NUM = 1 then
    overlay mem origin dio_len (isal.xor_gen (sources ++ [shift mem origin]) dio_len)
  else if g.PARITYCHUNK_NUM = 2 then
    overlay mem origin dio_len (isal.pq_gen (sources ++ [shift mem origin, shift mem origin]) dio_len).2
  else mem

/-- The buffers `recondatabuf`, allocated with the bytes `wild`, after the reads
    from the devices `index`. -/
def recon_reads (wild : Nat → Buf) (index : List Nat) (fail_dio : DioInfo) : Nat → Buf := fun i =>
  match index[i]? with
  | some dev => overlay (wild i) 0 fail_dio.length (fun k => devs dev (fail_dio.dev_offset + k))
  | none => wild i

/-- `reconstruct_dio`, with the bytes `wild` in the buffers that it allocates. -/
def reconstruct_dio (wild : Nat → Buf) (fail_dio : DioInfo) (mem : Nat → Byte) : Option (Nat → Byte) :=
  if fail_dio.length > g.SCHUNK_SIZE then some mem
  else
    let index := (List.range (g.DATACHUNK_NUM + g.PARITYCHUNK_NUM)).filter fun i => ¬ toInt i = fail_dio.dev_id
    if index.length > g.DATACHUNK_NUM + g.PARITYCHUNK_NUM - 1 then none
    else some (encode_dio g isal (recon_reads devs wild index fail_dio) fail_dio.buf fail_dio.length mem)

/-- `reconstruct_dio` on the ring of its thread: an entry for each device that it
    reads. -/
def reconstruct_ring (fail_dio : DioInfo) : List RingOp :=
  if fail_dio.length > g.SCHUNK_SIZE then []
  else
    let index := (List.range (g.DATACHUNK_NUM + g.PARITYCHUNK_NUM)).filter fun i => ¬ toInt i = fail_dio.dev_id
    prep_each index ++ [.submit]

/-- The loop of `s_norRead` over the tags of the reads that failed. -/
def retry (wild : Nat → Buf) (v_dios : List DioInfo) : List Nat → (Nat → Byte) → Option (Nat → Byte)
  | [], mem => some mem
  | tag :: tags, mem =>
    match (get_id v_dios (sget_high32 tag)).bind fun vid => v_dios[vid]? with
    | none => retry wild v_dios tags mem
    | some dio => do
      let _ ← ring_run 0 (reconstruct_ring g dio)
      let mem ← reconstruct_dio g isal devs wild dio mem
      retry wild v_dios tags mem

/-- `s_norRead` of the build without `RECONST_MOD`: the memory after the call. -/
def s_norRead (v_dios : List DioInfo) (mem : Nat → Byte) : Option (Nat → Byte) := read_all g devs 0 v_dios mem

/-- `s_norRead` of the build with `RECONST_MOD`. -/
def s_norRead_reconst (env : ReadEnv) (wild : Nat → Buf) (v_dios : List DioInfo) (mem : Nat → Byte) :
    Option (Nat → Byte) := do
  let mem ← read_some g devs env 0 v_dios mem
  retry g isal devs wild v_dios (iouring_rwait (completions env v_dios)) mem

/-! ### Lemmas -/

/-- What a read of a device request writes into the memory. -/
def readWrite (dio : DioInfo) : Write Unit Byte :=
  ⟨(), dio.buf, dio.length, fun i => devs dio.dev_id.toNat (dio.dev_offset + i)⟩

variable {g}

theorem io_uring_get_sqe_eq {pending : Nat} (room : pending < RING_QD) : io_uring_get_sqe pending = some (pending + 1) :=
  if_neg (Nat.ne_of_lt room)

/-- Reads from devices that there are replace the buffers one after another, when
    the ring has an entry for each. -/
theorem read_all_eq {dios : List DioInfo} (devices : ∀ dio ∈ dios, ∃ dev < g.NUM_DEVFILES, dio.dev_id = (dev : Nat))
    {ios : Nat} (room : ios + dios.length ≤ RING_QD) (mem : Nat → Byte) :
    read_all g devs ios dios mem = some (applyAll (fun _ => mem) (dios.map (readWrite devs)) ()) := by
  induction dios generalizing ios mem with
  | nil => rfl
  | cons dio dios ih =>
    rw [List.length_cons] at room
    obtain ⟨dev, lt, device⟩ := devices dio List.mem_cons_self
    have tail := ih (fun d member => devices d (List.mem_cons_of_mem _ member)) (show ios + 1 + dios.length ≤ RING_QD by omega)
    simp only [read_all, device, v_stdfiles_at_eq lt, io_uring_get_sqe_eq (show ios < RING_QD by omega), Option.bind_eq_bind,
      Option.bind_some, tail, List.map_cons, applyAll_cons, readWrite, Write.apply_unit, Int.toNat_natCast]

/-- Reads that return had an entry each. -/
theorem read_all_room {dios : List DioInfo} {ios : Nat} (room : ios ≤ RING_QD) {mem after : Nat → Byte}
    (result : read_all g devs ios dios mem = some after) : ios + dios.length ≤ RING_QD := by
  induction dios generalizing ios mem with
  | nil => exact room
  | cons dio dios ih =>
    simp only [read_all, Option.bind_eq_bind, Option.bind_eq_some_iff, io_uring_get_sqe, Option.ite_none_left_eq_some,
      Option.some.injEq] at result
    obtain ⟨_, _, _, ⟨another, rfl⟩, rest⟩ := result
    have := ih (show ios + 1 ≤ RING_QD by omega) rest
    rw [List.length_cons]
    omega

/-- Reads that the devices may fail return only when they had an entry each. -/
theorem read_some_room {env : ReadEnv} {dios : List DioInfo} {ios : Nat} (room : ios ≤ RING_QD) {mem after : Nat → Byte}
    (result : read_some g devs env ios dios mem = some after) : ios + dios.length ≤ RING_QD := by
  induction dios generalizing ios mem with
  | nil => exact room
  | cons dio dios ih =>
    simp only [read_some, Option.bind_eq_bind, Option.bind_eq_some_iff, io_uring_get_sqe, Option.ite_none_left_eq_some,
      Option.some.injEq] at result
    obtain ⟨_, _, _, ⟨another, _⟩, rest⟩ := result
    have := ih (show ios + 1 ≤ RING_QD by omega) rest
    rw [List.length_cons]
    omega

theorem low_high {high low : Nat} (lh : high < 2 ^ 32) (ll : low < 2 ^ 32) :
    u64_merg high low = high * 2 ^ 32 + low := by
  have fits : high <<< 32 < 2 ^ 64 := by rw [Nat.shiftLeft_eq]; omega
  unfold u64_merg
  rw [u64_small fits, show 0xFFFFFFFF = 2 ^ 32 - 1 from rfl, Nat.and_two_pow_sub_one_of_lt_two_pow ll,
    ← Nat.shiftLeft_add_eq_or_of_lt ll, Nat.shiftLeft_eq]

theorem sget_low32_eq (data : Nat) : sget_low32 data = data % 2 ^ 32 := Nat.and_two_pow_sub_one_eq_mod data 32

theorem sget_high32_eq (data : Nat) : sget_high32 data = data / 2 ^ 32 := Nat.shiftRight_eq_div_pow data 32

end Straid.Decode
