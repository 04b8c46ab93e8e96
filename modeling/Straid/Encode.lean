import Straid.Cache
import Straid.EcEncoder
import Straid.Split

/-!
The write paths of `encode.cc`. `Store` is what they read and change: the bytes
of the devices, the buffers of each thread, the cache, the table of stripes, the
bitmap and the queues of delegated requests. Reads and writes that are prepared
on a ring succeed, and a call returns the writes it submitted; what a call is on a
ring of RING_QD entries is in `Straid.RingDepth`. The path of a partial stripe is
divided at the comments of the code: the range of the parity chunk, the parity
from the cache or the devices, the old data, the queue, the encoding, the writes
and the cache again.
-/
namespace Straid.Encode
open LogFiles Metadata Overlays EcEncoder Cache Split Cuts

/-- A write prepared on the ring of a thread. -/
abbrev DeviceWrite := Write Nat Byte

/-- What the write paths read and change. -/
structure Store where
  devs : Nat → Nat → Byte
  v_endatabuf : Nat → Nat → Buf
  v_enparitybuf : Nat → Nat → Buf
  v_olddatabuf : Nat → Nat → Buf
  v_newdatabuf : Nat → Nat → Buf
  v_tempbuf : Nat → Nat → Buf
  cache_mod : ParityCache
  sst : Nat → SSTEntry
  blk_bitmap : BlkBitmap
  v_batchque2 : Nat → Nat → DioInfo
  inqueue_data_len : Nat → Nat

/-- The number of buffers in `v_olddatabuf` and in `v_newdatabuf`. -/
def BUF_LEN : Nat := 100

/-- The number of slots of each queue in `v_batchque2`. -/
def BATCH_SLOTS : Nat := 50

variable (g : Geometry) (isal : Isal)

/-- The state that the constructors make, on devices with contents `devs`. -/
def Store.fresh (devs : Nat → Nat → Byte) (rands : Nat → Nat) (wild : Buf) : Store where
  devs := devs
  v_endatabuf := fun _ _ _ => 0x1a
  v_enparitybuf := fun _ _ _ => 0x1b
  v_olddatabuf := fun _ _ _ => 0
  v_newdatabuf := fun _ _ _ => 0
  v_tempbuf := fun _ _ => wild
  cache_mod := Cache.fresh PCACHE_SIZE rands wild
  sst := fun _ => SSTEntry.fresh
  blk_bitmap := BlkBitmap.fresh g
  v_batchque2 := fun _ _ => default
  inqueue_data_len := fun _ => 0

/-! ### Devices -/

/-- `iouring_rprep`: the buffer after the read. -/
def iouring_rprep (devs : Nat → Nat → Byte) (dev : Nat) (readbuf : Buf) (roffset rlen : Nat) : Buf :=
  overlay readbuf 0 rlen (fun i => devs dev (roffset + i))

/-- `iouring_wprep`, to the device with number `dev_id`. -/
def iouring_wprep (dev_id : Int) (writebuf : Buf) (woffset wlen : Nat) : Option DeviceWrite :=
  (v_stdfiles_at g dev_id).map fun dev => ⟨dev, woffset, wlen, writebuf⟩

/-- `search_SST` and `is_frozen.store(true)`. -/
def freeze (st : Store) (stripeid : Int) : Option Store :=
  (search_SST g (ofInt stripeid)).map fun i =>
    { st with sst := Function.update st.sst i { st.sst i with is_frozen := true } }

/-! ### Full stripes -/

/-- The device of parity chunk `i` on the full stripe path. -/
def full_ppos (stripeid : Int) (i : Nat) : Int :=
  let ppos := stripe2paritypos g stripeid + i
  if ppos ≥ g.NUM_DEVFILES then ppos - g.NUM_DEVFILES else ppos

/-- The data buffers of the thread after the data is copied into them. -/
def stage_data (mem : Nat → Byte) (v_dios : List DioInfo) (endatabuf : Nat → Buf) : Nat → Buf := fun i =>
  match v_dios[i]? with
  | some dio => memcpy (endatabuf i) (shift mem dio.buf) dio.length
  | none => endatabuf i

/-- `encode_fullstripe`, with the user memory `mem`. -/
def encode_fullstripe (mem : Nat → Byte) (tid : Nat) (v_dios : List DioInfo) (st : Store) :
    Option (List DeviceWrite × Store) := do
  if v_dios.length ≠ g.DATACHUNK_NUM then none
  if tid ≥ NUM_THREADS then none
  let stripeid := devoff2stripe g (v_dios.headD default).dev_offset
  let endatabuf := stage_data mem v_dios (st.v_endatabuf tid)
  let st ← freeze g st stripeid
  let enparitybuf := do_full_encode g isal endatabuf (st.v_enparitybuf tid)
  let dwrites ← v_dios.zipIdx.mapM fun dio =>
    iouring_wprep g dio.1.dev_id (endatabuf dio.2) dio.1.dev_offset g.SCHUNK_SIZE
  let pwrites ← (List.range g.PARITYCHUNK_NUM).mapM fun i =>
    iouring_wprep g (full_ppos g stripeid i) (enparitybuf i) (v_dios.headD default).dev_offset g.SCHUNK_SIZE
  let writes := dwrites ++ pwrites
  some (writes, { st with
    devs := applyAll st.devs writes
    v_endatabuf := Function.update st.v_endatabuf tid endatabuf
    v_enparitybuf := Function.update st.v_enparitybuf tid enparitybuf })

/-! ### Partial stripes -/

/-- The loop that widens `pchunk_soff` and `pchunk_slen` by device requests. -/
def parity_range (range : Nat × Nat) (dios : List DioInfo) : Nat × Nat :=
  dios.foldl (fun range dio => (min range.1 dio.dev_offset, max range.2 dio.length)) range

/-- The parity buffers of the thread after the lookup in the cache: `get` on a
    hit, on a miss a read of every parity chunk from the first one's device. -/
def load_parity (st : Store) (tid : Nat) (stripeid : Int) (pchunk_soff pchunk_slen : Nat) : Option (Nat → Buf) :=
  let stemp_ptrs := search st.cache_mod pchunk_soff
  if stemp_ptrs.length = g.PARITYCHUNK_NUM then Cache.get g (st.v_enparitybuf tid) stemp_ptrs pchunk_slen
  else
    (v_stdfiles_at g (stripe2paritypos g stripeid)).map fun dev i =>
      if i < g.PARITYCHUNK_NUM then
        iouring_rprep st.devs dev (st.v_enparitybuf tid i) (stripe2devoff g stripeid 0) pchunk_slen
      else st.v_enparitybuf tid i

/-- Reads of old data into the buffers from number `i` on. -/
def read_old_data (devs : Nat → Nat → Byte) : Nat → List DioInfo → (Nat → Buf) → Option (Nat → Buf)
  | _, [], olddatabuf => some olddatabuf
  | i, dio :: dios, olddatabuf =>
    if i ≥ BUF_LEN then none
    else do
      let dev ← v_stdfiles_at g dio.dev_id
      read_old_data devs (i + 1) dios
        (Function.update olddatabuf i (iouring_rprep devs dev (olddatabuf i) dio.dev_offset dio.length))

/-- The queue of the thread copied into `bat_dios` and emptied. -/
def drain (st : Store) (tid : Nat) : Option (List DioInfo × Store) :=
  let qlen := st.inqueue_data_len tid
  if qlen > 0 then
    if qlen > BATCH_SLOTS then none
    else some ((List.range qlen).map (st.v_batchque2 tid),
      { st with inqueue_data_len := Function.update st.inqueue_data_len tid 0 })
  else some ([], st)

/-- The delegated requests that are not skipped in `v_chunkoff` and `v_length`. -/
def batch_kept (bat_dios : List DioInfo) (start_devoff : Nat) : List DioInfo :=
  bat_dios.filter fun dio => ¬ dio.dev_offset < start_devoff

/-- `v_chunkoff`. -/
def chunk_offsets (v_dios bat_dios : List DioInfo) (start_devoff : Nat) : List Nat :=
  (v_dios ++ batch_kept bat_dios start_devoff).map fun dio => u64_sub dio.dev_offset start_devoff

/-- `v_length`. -/
def chunk_lengths (v_dios bat_dios : List DioInfo) (start_devoff : Nat) : List Nat :=
  (v_dios ++ batch_kept bat_dios start_devoff).map DioInfo.length

/-- A sum of lengths in a `uint64_t`. -/
def total_length (dios : List DioInfo) : Nat := dios.foldl (fun sum dio => u64 (sum + dio.length)) 0

/-- The branch that reads whole chunks: the data and parity buffers of the
    thread after it. -/
def reconstruct_write (st : Store) (tid : Nat) (stripeid : Int) (bat_dios : List DioInfo)
    (enparitybuf : Nat → Buf) : Option ((Nat → Buf) × (Nat → Buf)) := do
  let index := (List.range g.DATACHUNK_NUM).filter fun i => ¬ bat_dios.any fun dio => dio.dev_id == toInt i
  let endatabuf ← index.foldlM (fun (bufs : Nat → Buf) i => do
    let dev ← v_stdfiles_at g (toInt i)
    return Function.update bufs i
      (iouring_rprep st.devs dev (bufs i) (stripe2devoff g stripeid 0) g.SCHUNK_SIZE)) (st.v_endatabuf tid)
  return (endatabuf, do_full_encode g isal endatabuf enparitybuf)

/-- The writes of device requests, from the user memory. -/
def data_writes (mem : Nat → Byte) (dios : List DioInfo) : Option (List DeviceWrite) :=
  dios.mapM fun dio => iouring_wprep g dio.dev_id (shift mem dio.buf) dio.dev_offset dio.length

/-- The device of the parity chunks on the partial stripe path, the same for
    all. -/
def partial_ppos (stripeid : Int) : Int :=
  let ppos := stripe2paritypos g stripeid
  if ppos ≥ g.NUM_DEVFILES then ppos - g.NUM_DEVFILES else ppos

/-- The writes of the parity buffers. -/
def parity_writes (stripeid : Int) (enparitybuf : Nat → Buf) (pchunk_soff pchunk_slen : Nat) :
    Option (List DeviceWrite) :=
  (List.range g.PARITYCHUNK_NUM).mapM fun pchunk =>
    iouring_wprep g (partial_ppos g stripeid) (enparitybuf pchunk) pchunk_soff pchunk_slen

/-- The update of the cache at the end. On a hit the buffers are copied, in the
    direction of the lookup, once for each parity chunk. -/
def update_cache (c : ParityCache) (enparitybuf : Nat → Buf) (stemp_ptrs : List Buf)
    (pchunk_soff pchunk_slen : Nat) : Option ((Nat → Buf) × ParityCache) :=
  if (search c pchunk_soff).length = g.PARITYCHUNK_NUM then do
    let enparitybuf ← (List.range g.PARITYCHUNK_NUM).foldlM
      (fun (bufs : Nat → Buf) _ => Cache.get g bufs stemp_ptrs pchunk_slen) enparitybuf
    return (enparitybuf, c)
  else do
    let c ← insert_cpy g c pchunk_soff g.PARITYCHUNK_NUM
    return (enparitybuf, c)

/-- `encode_partialstripe`, with the user memory `mem`. -/
def encode_partialstripe (mem : Nat → Byte) (tid : Nat) (v_dios : List DioInfo) (st : Store) :
    Option (List DeviceWrite × Store) := do
  if v_dios.length = 0 then none
  if tid ≥ NUM_THREADS then none
  let stripeid := devoff2stripe g (v_dios.headD default).dev_offset
  let start_devoff := stripe2devoff g stripeid 0
  let vios_len := total_length v_dios
  let range := parity_range (INT_MAX, 0) v_dios
  let stemp_ptrs := search st.cache_mod range.1
  let enparitybuf ← load_parity g st tid stripeid range.1 range.2
  let olddatabuf ← read_old_data g st.devs 0 v_dios (st.v_olddatabuf tid)
  let st ← freeze g st stripeid
  let (bat_dios, st) ← drain st tid
  let range := parity_range range bat_dios
  let batch_iolen := total_length (batch_kept bat_dios start_devoff)
  let (endatabuf, olddatabuf, tempbuf, enparitybuf) ←
    if batch_iolen > u64_sub (g.SCHUNK_SIZE * g.DATACHUNK_NUM) vios_len / 2 then do
      let (endatabuf, enparitybuf) ← reconstruct_write g isal st tid stripeid bat_dios enparitybuf
      some (endatabuf, olddatabuf, st.v_tempbuf tid, enparitybuf)
    else do
      let olddatabuf ← read_old_data g st.devs v_dios.length bat_dios olddatabuf
      let (tempbuf, enparitybuf) ← do_part_encode g isal olddatabuf (st.v_newdatabuf tid) (st.v_tempbuf tid)
        enparitybuf (chunk_offsets v_dios bat_dios start_devoff) (chunk_lengths v_dios bat_dios start_devoff)
      some (st.v_endatabuf tid, olddatabuf, tempbuf, enparitybuf)
  let dwrites ← data_writes g mem v_dios
  let bwrites ← data_writes g mem bat_dios
  let pwrites ← parity_writes g stripeid enparitybuf range.1 range.2
  let writes := dwrites ++ bwrites ++ pwrites
  let (enparitybuf, cache_mod) ← update_cache g st.cache_mod enparitybuf stemp_ptrs range.1 range.2
  some (writes, { st with
    devs := applyAll st.devs writes
    v_endatabuf := Function.update st.v_endatabuf tid endatabuf
    v_enparitybuf := Function.update st.v_enparitybuf tid enparitybuf
    v_olddatabuf := Function.update st.v_olddatabuf tid olddatabuf
    v_tempbuf := Function.update st.v_tempbuf tid tempbuf
    cache_mod := cache_mod })

/-! ### The writes of a piece -/

variable {g}

theorem iouring_wprep_eq {dev : Nat} (lt : dev < g.NUM_DEVFILES) (writebuf : Buf) (woffset wlen : Nat) :
    iouring_wprep g dev writebuf woffset wlen = some ⟨dev, woffset, wlen, writebuf⟩ := by
  rw [iouring_wprep, v_stdfiles_at_eq lt, Option.map_some]

theorem freeze_eq {s : Nat} (entry : s ≤ g.USER_SPACE_LEN / g.SSTRIPE_DATASIZE + 100) (st : Store) :
    freeze g st s = some { st with sst := Function.update st.sst s { st.sst s with is_frozen := true } } := by
  have int := (table_bounds entry).1
  rw [freeze, ofInt_small (by omega), search_SST_eq entry, Option.map_some]

theorem devoff2stripe_row {s o : Nat} (entry : s ≤ g.USER_SPACE_LEN / g.SSTRIPE_DATASIZE + 100)
    (low : s * g.SCHUNK_SIZE ≤ o) (high : o < s * g.SCHUNK_SIZE + g.SCHUNK_SIZE) : devoff2stripe g o = s := by
  have row := devoff_div low high
  rw [devoff2stripe_eq (by rw [row]; exact (table_bounds entry).1), row]

/-- The write of one part of a piece. -/
def pieceWrite (g : Geometry) (mem : Nat → Byte) (uio : UioInfo) (r : Nat × Nat) : DeviceWrite :=
  ⟨devOf g r.1, devoffOf g r.1, r.2, shift mem (uio.buf + (r.1 - uio.user_offset))⟩

/-- The writes of a piece. -/
def piece_writes (g : Geometry) (mem : Nat → Byte) (uio : UioInfo) : List DeviceWrite :=
  (cut g.SCHUNK_SIZE uio.user_offset uio.length).map (pieceWrite g mem uio)

theorem data_writes_piece (mem : Nat → Byte) (uio : UioInfo) :
    data_writes g mem (piece_dios g uio) = some (piece_writes g mem uio) :=
  mapM_some fun _ _ => iouring_wprep_eq (devOf_lt _) _ _ _

end Straid.Encode
