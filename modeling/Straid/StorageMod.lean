import Straid.Decode
import Straid.Encode
import Straid.Split

/-!
The calls of `storageMod.cc`: a write of one piece of a stripe (`raid_write`), a
write of any request (`raid_write_direct`, and `workers_run` for the requests of
a queue) and a read (`raid_read`), each run to its end with no other thread at
work.
-/
namespace Straid.StorageMod
open LogFiles Metadata Split Encode EcEncoder Decode

variable (g : Geometry) (isal : Isal)

/-- What a call of `raid_write` submitted for a piece. -/
structure Submission where
  piece : UioInfo
  writes : List DeviceWrite

/-- `raid_write`: what it submitted, and the state after it. -/
def raid_write (mem : Nat → Byte) (uio : UioInfo) (st : Store) : Option (Submission × Store) := do
  if uio.buf = 0 ∨ uio.length = 0 then none
  let bitmap := (split_block uio).foldl (fun b offset => b.reset (offset / BLK_SIZE)) st.blk_bitmap
  let v_dios ← split_chunk2dio g uio
  let st := { st with blk_bitmap := bitmap }
  let (writes, st) ←
    if is_fullstripe g uio.user_offset uio.length then encode_fullstripe g isal mem uio.user_id v_dios st
    else encode_partialstripe g isal mem uio.user_id v_dios st
  some (⟨uio, writes⟩, st)

/-- One round of the loop of `raid_write_direct`: the piece is written under the
    lock of the stripe of the request's offset. When the lock is taken, the
    thread waits for another one. -/
def write_piece (mem : Nat → Byte) (uio piece : UioInfo) (st : Store) : Option (Submission × Store) := do
  let sse ← search_SST g (user2stripe g uio.user_offset)
  if (st.sst sse).stripe_lock then none
  let st := { st with sst := Function.update st.sst sse ⟨uio.user_id, true, false⟩ }
  let (submission, st) ← raid_write g isal mem piece st
  some (submission, { st with
    sst := Function.update st.sst sse { st.sst sse with SSTthreadid := INT16_MAX, stripe_lock := false } })

/-- The loop of `raid_write_direct`. -/
def write_pieces (mem : Nat → Byte) (uio : UioInfo) : List UioInfo → Store → Option (List Submission × Store)
  | [], st => some ([], st)
  | piece :: pieces, st => do
    let (submission, st) ← write_piece g isal mem uio piece st
    let (submissions, st) ← write_pieces mem uio pieces st
    some (submission :: submissions, st)

/-- `raid_write_direct`, with the user memory `mem`. -/
def raid_write_direct (mem : Nat → Byte) (uio : UioInfo) (st : Store) : Option (List Submission × Store) :=
  let v_suios := split_stripe_aligned g uio
  if v_suios.length = 0 then none else write_pieces g isal mem uio v_suios st

/-- The loop of the write branch of `workers_run`. Every round writes the whole
    request, whatever its piece. -/
def worker_pieces (mem : Nat → Byte) (uio : UioInfo) : List UioInfo → Store → Option (List Submission × Store)
  | [], st => some ([], st)
  | _ :: pieces, st => do
    let (submission, st) ← write_piece g isal mem uio uio st
    let (submissions, st) ← worker_pieces mem uio pieces st
    some (submission :: submissions, st)

/-- The write branch of `workers_run` of the worker `worker_id`, for a request
    from its queue. -/
def workers_run_write (mem : Nat → Byte) (worker_id : Nat) (uio : UioInfo) (st : Store) :
    Option (List Submission × Store) :=
  let uio := { uio with user_id := worker_id }
  let v_suios := split_stripe_aligned g uio
  if v_suios.length = 0 then none else worker_pieces g isal mem uio v_suios st

/-- A call of `raid_write_direct`: the request and the user memory. -/
structure Call where
  uio : UioInfo
  mem : Nat → Byte

/-- Calls one after another. -/
def run_calls : List Call → Store → Option (List Submission × Store)
  | [], st => some ([], st)
  | call :: calls, st => do
    let (submissions, st) ← raid_write_direct g isal call.mem call.uio st
    let (later, st) ← run_calls calls st
    some (submissions ++ later, st)

/-! ### Reads -/

/-- The device requests of `raid_read`, numbered from the counter on. -/
def read_dios (read_req_id : Nat) (uio : UioInfo) : Option (List DioInfo) :=
  (split_schunk g uio).zipIdx.mapM fun chunk => s_uio2id_dio g chunk.1 (u64 (u64 (read_req_id + chunk.2) + 1))

/-- `raid_read`: the memory after the call. -/
def raid_read (devs : Nat → Nat → Byte) (read_req_id : Nat) (uio : UioInfo) (mem : Nat → Byte) :
    Option (Nat → Byte) := do
  if uio.length = 0 then none
  let v_schunks ← read_dios g read_req_id uio
  s_norRead g devs v_schunks mem

end Straid.StorageMod
