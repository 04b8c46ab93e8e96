import Straid.PartialStripe

/-!
The branch of the partial stripe path that reads whole chunks, with one parity
chunk. It reads the devices `0` to `DATACHUNK_NUM - 1` that have no delegated
request into the buffers with their numbers and encodes the buffers
(`encode_partialstripe_branch`). The buffer of a device with a delegated request
keeps what an earlier call left in it (`stale_buffer`), and when all delegated
requests are for the last device, the parity device is read as data
(`parity_read`): no input of the branch gets the parity of its data
(`never_right`).
-/
namespace Straid.ReconstructWrite
open LogFiles Metadata Split Encode EcEncoder PartialStripe Overlays XorSums

variable (g : Geometry) (isal : Isal)

/-- A device request for a part of one data chunk of stripe `s`. -/
structure InChunk (s : Nat) (dio : DioInfo) : Prop where
  data : ∃ c < g.DATACHUNK_NUM, dio.dev_id = (dataDev g s c : Nat)
  row : InRowOf g s dio.dev_offset
  inside : dio.dev_offset + dio.length ≤ s * g.SCHUNK_SIZE + g.SCHUNK_SIZE

instance (s : Nat) (dio : DioInfo) : Decidable (InChunk g s dio) :=
  decidable_of_iff ((∃ c < g.DATACHUNK_NUM, dio.dev_id = (dataDev g s c : Nat)) ∧ InRowOf g s dio.dev_offset ∧
    dio.dev_offset + dio.length ≤ s * g.SCHUNK_SIZE + g.SCHUNK_SIZE)
    ⟨fun parts => ⟨parts.1, parts.2.1, parts.2.2⟩, fun dio => ⟨dio.data, dio.row, dio.inside⟩⟩

/-- The requests in the queue of a thread. -/
def queued (st : Store) (tid : Nat) : List DioInfo := (List.range (st.inqueue_data_len tid)).map (st.v_batchque2 tid)

/-- The requests of a thread and of its queue are for one stripe of the table,
    and those of the queue are long enough for the branch. -/
structure Contended (s tid : Nat) (v_dios : List DioInfo) (st : Store) : Prop where
  entry : s ≤ g.USER_SPACE_LEN / g.SSTRIPE_DATASIZE + 100
  some_dio : v_dios ≠ []
  owner : ∀ dio ∈ v_dios, InChunk g s dio
  batch : ∀ dio ∈ queued st tid, InChunk g s dio
  branch : total_length (batch_kept (queued st tid) (s * g.SCHUNK_SIZE)) >
    u64_sub (g.SCHUNK_SIZE * g.DATACHUNK_NUM) (total_length v_dios) / 2

/-- The buffers that are encoded have the data chunks of the stripe as they are
    after the writes. -/
def Staged (s : Nat) (mem : Nat → Byte) (tid : Nat) (v_dios : List DioInfo) (st : Store) : Prop := ∃ writes after,
  encode_partialstripe g isal mem tid v_dios st = some (writes, after) ∧
  ∃ order : Nat → Nat, ((List.range g.DATACHUNK_NUM).map order).Perm ((List.range g.DATACHUNK_NUM).map (dataDev g s)) ∧
    ∀ c < g.DATACHUNK_NUM, ∀ q < g.SCHUNK_SIZE, after.v_endatabuf tid c q = after.devs (order c) (s * g.SCHUNK_SIZE + q)

/-- The parity that is written is that of the data chunks of the stripe as they
    are after the writes. -/
def ParityRight (s : Nat) (mem : Nat → Byte) (tid : Nat) (v_dios : List DioInfo) (st : Store) : Prop := ∃ writes after,
  encode_partialstripe g isal mem tid v_dios st = some (writes, after) ∧ ∀ q < g.SCHUNK_SIZE,
    after.v_enparitybuf tid 0 q =
      xorSum ((List.range g.DATACHUNK_NUM).map fun c => after.devs (dataDev g s c) (s * g.SCHUNK_SIZE + q))

variable {g}

/-! ### The buffers that are encoded -/

/-- The reads of whole chunks, each into the buffer with the number of its
    device. -/
theorem reads_eq (devs : Nat → Nat → Byte) (o : Nat) {index : List Nat} (apart : index.Nodup)
    (devices : ∀ i ∈ index, i < g.NUM_DEVFILES ∧ i < 2 ^ 31) (bufs : Nat → Buf) :
    index.foldlM (fun (bufs : Nat → Buf) i => do
      let dev ← v_stdfiles_at g (toInt i)
      return Function.update bufs i (iouring_rprep devs dev (bufs i) o g.SCHUNK_SIZE)) bufs =
    some fun i => if i ∈ index then iouring_rprep devs i (bufs i) o g.SCHUNK_SIZE else bufs i := by
  induction index generalizing bufs with
  | nil => simp
  | cons i index ih =>
    obtain ⟨fresh, apart⟩ := List.nodup_cons.mp apart
    obtain ⟨lt, int⟩ := devices i List.mem_cons_self
    rw [List.foldlM_cons, toInt_small int, v_stdfiles_at_eq lt]
    refine (ih apart (fun j member => devices j (List.mem_cons_of_mem _ member)) _).trans ?_
    congr 1
    funext j
    by_cases same : j = i
    · subst same
      rw [if_neg fresh, Function.update_self, if_pos List.mem_cons_self]
    · simp only [Function.update_of_ne same, List.mem_cons, same, false_or]

/-- The buffers after the reads: those of the devices with a delegated request
    are as they were. -/
def staged (g : Geometry) (devs : Nat → Nat → Byte) (o : Nat) (bat_dios : List DioInfo) (bufs : Nat → Buf) : Nat → Buf :=
  fun i => if i < g.DATACHUNK_NUM ∧ ∀ dio ∈ bat_dios, dio.dev_id ≠ (i : Nat) then
    iouring_rprep devs i (bufs i) o g.SCHUNK_SIZE else bufs i

theorem staged_read {devs : Nat → Nat → Byte} {o : Nat} {bat_dios : List DioInfo} {bufs : Nat → Buf} {i q : Nat}
    (lt : i < g.DATACHUNK_NUM) (free : ∀ dio ∈ bat_dios, dio.dev_id ≠ (i : Nat)) (inside : q < g.SCHUNK_SIZE) :
    staged g devs o bat_dios bufs i q = devs i (o + q) := by
  rw [staged, if_pos ⟨lt, free⟩, iouring_rprep, overlay_inside (Nat.zero_le q) (by omega), Nat.sub_zero]

theorem staged_kept {devs : Nat → Nat → Byte} {o : Nat} {bat_dios : List DioInfo} {bufs : Nat → Buf} {dio : DioInfo}
    (member : dio ∈ bat_dios) {i : Nat} (device : dio.dev_id = (i : Nat)) :
    staged g devs o bat_dios bufs i = bufs i := by
  rw [staged, if_neg (fun read => read.2 dio member device)]

theorem staged_zero {devs : Nat → Nat → Byte} {o : Nat} {bat_dios : List DioInfo} {bufs : Nat → Buf} {i : Nat}
    (device : devs i o = 0) (buffer : bufs i 0 = 0) : staged g devs o bat_dios bufs i 0 = 0 := by
  unfold staged
  split
  · rw [iouring_rprep, overlay_inside (Nat.zero_le 0) (by have := g.chunk_pos; omega)]
    exact device
  · exact buffer

theorem reconstruct_write_eq {s : Nat} (fits : s * g.SCHUNK_SIZE < 2 ^ 64) (st : Store) (tid : Nat)
    (bat_dios : List DioInfo) (par : Nat → Buf) : reconstruct_write g isal st tid s bat_dios par =
      some (staged g st.devs (s * g.SCHUNK_SIZE) bat_dios (st.v_endatabuf tid),
        do_full_encode g isal (staged g st.devs (s * g.SCHUNK_SIZE) bat_dios (st.v_endatabuf tid)) par) := by
  have data := g.data_max
  have small : ∀ i ∈ List.range g.DATACHUNK_NUM, i < g.NUM_DEVFILES ∧ i < 2 ^ 31 := by
    intro i member
    rw [List.mem_range] at member
    unfold Geometry.NUM_DEVFILES
    unfold KMAX at data
    omega
  have read := reads_eq (g := g) st.devs (s * g.SCHUNK_SIZE) (List.nodup_range.filter
    fun i => ¬ bat_dios.any fun dio => dio.dev_id == toInt i) (fun i member => small i (List.mem_filter.mp member).1)
    (st.v_endatabuf tid)
  rw [reconstruct_write, stripe2devoff_eq fits]
  refine (congrArg (Option.bind · _) read).trans ?_
  have same : (fun i => if i ∈ (List.range g.DATACHUNK_NUM).filter fun i => ¬ bat_dios.any fun dio => dio.dev_id == toInt i
      then iouring_rprep st.devs i (st.v_endatabuf tid i) (s * g.SCHUNK_SIZE) g.SCHUNK_SIZE
      else st.v_endatabuf tid i) = staged g st.devs (s * g.SCHUNK_SIZE) bat_dios (st.v_endatabuf tid) := by
    funext i
    simp only [staged]
    congr 1
    simp only [List.mem_filter, List.mem_range, eq_iff_iff]
    refine and_congr_right fun lt => ?_
    rw [toInt_small (small i (List.mem_range.mpr lt)).2]
    simp
  rw [Option.bind_some, same]
  rfl

/-! ### The branch in the path -/

theorem drain_queued {st after : Store} {tid : Nat} {bat_dios : List DioInfo}
    (drained : drain st tid = some (bat_dios, after)) :
    bat_dios = queued st tid ∧ after.devs = st.devs ∧ after.v_endatabuf = st.v_endatabuf := by
  simp only [drain] at drained
  split at drained
  · split at drained
    · contradiction
    · obtain ⟨rfl, rfl⟩ := Prod.mk.inj (Option.some.inj drained)
      exact ⟨rfl, rfl, rfl⟩
  · obtain ⟨rfl, rfl⟩ := Prod.mk.inj (Option.some.inj drained)
    have empty : st.inqueue_data_len tid = 0 := by omega
    exact ⟨by rw [queued, empty, List.range_zero, List.map_nil], rfl, rfl⟩

theorem get_same {out bufs : Nat → Buf} {ins : List Buf} {len : Nat} (got : Cache.get g out ins len = some bufs) :
    bufs = out := by
  by_cases refused : len = 0 ∨ ins.length > g.PARITYCHUNK_NUM
  · rw [Cache.get, if_pos refused] at got
    contradiction
  · exact Option.some.inj (got.symm.trans (Cache.get_eq g (by omega) (by omega)))

/-- The update of the cache keeps the parity buffers. -/
theorem update_cache_same {c after : Cache.ParityCache} {par bufs : Nat → Buf} {ptrs : List Buf} {soff slen : Nat}
    (updated : update_cache g c par ptrs soff slen = some (bufs, after)) : bufs = par := by
  have rounds : ∀ (l : List Nat) (bufs : Nat → Buf), l.foldlM (fun (bufs : Nat → Buf) _ => Cache.get g bufs ptrs slen) par =
      some bufs → bufs = par := by
    intro l
    induction l with
    | nil => exact fun bufs same => (Option.some.inj same).symm
    | cons r l ih =>
      intro bufs same
      obtain ⟨next, got, rest⟩ := Option.bind_eq_some_iff.mp same
      obtain rfl := get_same got
      exact ih bufs rest
  unfold update_cache at updated
  split at updated
  · obtain ⟨next, copied, same⟩ := Option.bind_eq_some_iff.mp updated
    obtain ⟨rfl, _⟩ := Prod.mk.inj (Option.some.inj same)
    exact rounds _ _ copied
  · obtain ⟨next, _, same⟩ := Option.bind_eq_some_iff.mp updated
    exact (Prod.mk.inj (Option.some.inj same)).1.symm

/-- The writes of device requests. -/
def requestWrites (mem : Nat → Byte) (dios : List DioInfo) : List DeviceWrite :=
  dios.map fun dio => ⟨dio.dev_id.toNat, dio.dev_offset, dio.length, shift mem dio.buf⟩

theorem data_writes_chunks {s : Nat} {dios : List DioInfo} (chunks : ∀ dio ∈ dios, InChunk g s dio) (mem : Nat → Byte) :
    data_writes g mem dios = some (requestWrites mem dios) := by
  rw [data_writes, requestWrites, ← List.map_id dios]
  refine (mapM_some fun dio member => ?_).trans (by rw [List.map_id])
  obtain ⟨c, _, device⟩ := (chunks dio member).data
  rw [id_eq, device]
  exact iouring_wprep_eq (dataDev_lt ..) _ _ _

/-- The device requests of the thread say which stripe it is. -/
theorem contended_stripe {s tid : Nat} {v_dios : List DioInfo} {st : Store} (input : Contended g s tid v_dios st) :
    devoff2stripe g (v_dios.headD default).dev_offset = s ∧ stripe2devoff g s 0 = s * g.SCHUNK_SIZE := by
  have fits := (table_bounds input.entry).2.2
  obtain ⟨dio, rest, rfl⟩ := List.exists_cons_of_ne_nil input.some_dio
  have row := (input.owner dio List.mem_cons_self).row
  exact ⟨devoff2stripe_row input.entry row.1 row.2, stripe2devoff_eq (by omega)⟩

/-- What a call that takes the branch leaves, with the parity that it loaded and
    the range that it writes. -/
structure Branched (g : Geometry) (isal : Isal) (s : Nat) (mem : Nat → Byte) (tid : Nat) (v_dios : List DioInfo)
    (st after : Store) (loaded : Nat → Buf) (range : Nat × Nat) : Prop where
  data : after.v_endatabuf tid = staged g st.devs (s * g.SCHUNK_SIZE) (queued st tid) (st.v_endatabuf tid)
  parity : after.v_enparitybuf tid = do_full_encode g isal (after.v_endatabuf tid) loaded
  devs : after.devs = applyAll st.devs (requestWrites mem v_dios ++ requestWrites mem (queued st tid) ++
    (List.range g.PARITYCHUNK_NUM).map fun p => ⟨parityDev g s 0, range.1, range.2, after.v_enparitybuf tid p⟩)

/-- A call that takes the branch encodes the buffers after the reads of whole
    chunks, and writes the data of all requests and the parity. -/
theorem encode_partialstripe_branch {s tid : Nat} {v_dios : List DioInfo} {st : Store}
    (input : Contended g s tid v_dios st) {mem : Nat → Byte} {writes : List DeviceWrite} {after : Store}
    (returned : encode_partialstripe g isal mem tid v_dios st = some (writes, after)) :
    ∃ loaded range, Branched g isal s mem tid v_dios st after loaded range := by
  obtain ⟨stripe, start⟩ := contended_stripe input
  have some_dio : ¬ v_dios.length = 0 := fun none => input.some_dio (List.eq_nil_of_length_eq_zero none)
  have fits := (table_bounds input.entry).2.2
  rw [encode_partialstripe, if_neg some_dio] at returned
  by_cases thread : tid ≥ NUM_THREADS
  · rw [if_pos thread] at returned
    contradiction
  · rw [if_neg thread] at returned
    simp only [stripe, start, freeze_eq input.entry, data_writes_chunks input.owner, Option.bind_eq_bind,
      Option.bind_some] at returned
    obtain ⟨loaded, _, returned⟩ := Option.bind_eq_some_iff.mp returned
    obtain ⟨old, _, returned⟩ := Option.bind_eq_some_iff.mp returned
    obtain ⟨⟨bat_dios, drained⟩, emptied, returned⟩ := Option.bind_eq_some_iff.mp returned
    obtain ⟨batch, devs, endata⟩ := drain_queued emptied
    have same : bat_dios = queued st tid := batch
    subst same
    simp only [if_pos input.branch, reconstruct_write_eq isal (show s * g.SCHUNK_SIZE < 2 ^ 64 by omega), data_writes_chunks input.batch,
      parity_writes_eq, Option.bind_some, devs, endata] at returned
    obtain ⟨⟨kept, cache⟩, updated, returned⟩ := Option.bind_eq_some_iff.mp returned
    obtain ⟨rfl, rfl⟩ := Prod.mk.inj (Option.some.inj returned)
    obtain rfl := update_cache_same updated
    refine ⟨loaded, parity_range (parity_range (INT_MAX, 0) v_dios) (queued st tid), ?_, ?_, ?_⟩
    · simp only [Function.update_self]
    · simp only [Function.update_self]
    · simp only [Function.update_self]

theorem drain_total (st : Store) (tid : Nat) (slots : st.inqueue_data_len tid ≤ BATCH_SLOTS) :
    ∃ after, drain st tid = some (queued st tid, after) ∧ after.cache_mod = st.cache_mod := by
  cases Nat.eq_zero_or_pos (st.inqueue_data_len tid) with
  | inl empty => exact ⟨st, by rw [drain_idle tid st empty, queued, empty, List.range_zero, List.map_nil], rfl⟩
  | inr some_slot =>
    refine ⟨{ st with inqueue_data_len := Function.update st.inqueue_data_len tid 0 }, ?_, rfl⟩
    simp only [drain]
    rw [if_pos some_slot, if_neg (by omega), queued]

/-! ### Data without a byte that is set -/

/-- Writes of no byte that is set keep a byte that is not. -/
theorem applyAll_zero {ws : List DeviceWrite} {d o : Nat} (zero : ∀ w ∈ ws, w.Covers d o → ∀ i, w.data i = 0)
    {devs : Nat → Nat → Byte} (empty : devs d o = 0) : applyAll devs ws d o = 0 := by
  by_cases some_covers : ∃ w ∈ ws, w.Covers d o
  · exact applyAll_covered some_covers (fun w member covers => zero w member covers _) devs
  · exact (applyAll_frame (fun w member covers => some_covers ⟨w, member, covers⟩) devs).trans empty

/-- With no byte set in the memory, a byte of a data chunk that is not set stays
    so. -/
theorem data_zero {s tid : Nat} {v_dios : List DioInfo} {st after : Store} {loaded : Nat → Buf} {range : Nat × Nat}
    (branched : Branched g isal s (fun _ => 0) tid v_dios st after loaded range) {c : Nat} (chunk : c < g.DATACHUNK_NUM)
    {o : Nat} (empty : st.devs (dataDev g s c) o = 0) : after.devs (dataDev g s c) o = 0 := by
  have requests : ∀ dios, ∀ w ∈ requestWrites (fun _ => 0) dios, ∀ i, w.data i = 0 := by
    intro dios w member i
    obtain ⟨dio, _, rfl⟩ := List.mem_map.mp member
    rfl
  rw [branched.devs]
  refine applyAll_zero (fun w member covers => ?_) empty
  rcases List.mem_append.mp member with data | parity
  · rcases List.mem_append.mp data with owner | batch
    · exact requests _ w owner
    · exact requests _ w batch
  · obtain ⟨p, chunk_p, rfl⟩ := List.mem_map.mp parity
    have pos := g.parity_pos
    exact absurd covers.1 (parityDev_ne_dataDev (by omega) chunk)

/-- The parity at the first position, when one buffer has a byte set there. -/
theorem parity_one (one : g.PARITYCHUNK_NUM = 1) {s tid : Nat} {mem : Nat → Byte} {v_dios : List DioInfo}
    {st after : Store} {loaded : Nat → Buf} {range : Nat × Nat}
    (branched : Branched g isal s mem tid v_dios st after loaded range) {d : Nat} (buffer : d < g.DATACHUNK_NUM)
    (others : ∀ i < g.DATACHUNK_NUM, i ≠ d → after.v_endatabuf tid i 0 = 0) :
    after.v_enparitybuf tid 0 0 = after.v_endatabuf tid d 0 := by
  rw [branched.parity, do_full_encode_xor isal one _ _ g.chunk_pos]
  apply xorSum_one List.nodup_range (List.mem_range.mpr buffer)
  intro i member other
  exact others i (List.mem_range.mp member) other

/-- A state with other contents of the devices and of the data buffers of a
    thread. -/
def withContents (st : Store) (tid : Nat) (devs : Nat → Nat → Byte) (bufs : Nat → Buf) : Store :=
  { st with devs := devs, v_endatabuf := Function.update st.v_endatabuf tid bufs }

theorem contended_contents {s tid : Nat} {v_dios : List DioInfo} {st : Store} (input : Contended g s tid v_dios st)
    (devs : Nat → Nat → Byte) (bufs : Nat → Buf) : Contended g s tid v_dios (withContents st tid devs bufs) :=
  ⟨input.entry, input.some_dio, input.owner, input.batch, input.branch⟩

/-- Contents with a byte set in one buffer that is encoded and none in the data
    chunks do not give the parity of the data chunks. -/
theorem not_right (one : g.PARITYCHUNK_NUM = 1) {s tid : Nat} {v_dios : List DioInfo} {st : Store}
    (input : Contended g s tid v_dios st) {devs : Nat → Nat → Byte} {bufs : Nat → Buf} {d : Nat}
    (buffer : d < g.DATACHUNK_NUM) (data : ∀ c < g.DATACHUNK_NUM, devs (dataDev g s c) (s * g.SCHUNK_SIZE) = 0)
    (this : staged g devs (s * g.SCHUNK_SIZE) (queued st tid) bufs d 0 = 1)
    (others : ∀ i < g.DATACHUNK_NUM, i ≠ d → staged g devs (s * g.SCHUNK_SIZE) (queued st tid) bufs i 0 = 0) :
    ¬ ParityRight g isal s (fun _ => 0) tid v_dios (withContents st tid devs bufs) := by
  rintro ⟨writes, after, returned, right⟩
  obtain ⟨loaded, range, branched⟩ := encode_partialstripe_branch isal (contended_contents input devs bufs) returned
  have encoded : after.v_endatabuf tid = staged g devs (s * g.SCHUNK_SIZE) (queued st tid) bufs := by
    rw [branched.data]
    simp only [withContents, Function.update_self]
    rfl
  have sum := right 0 g.chunk_pos
  rw [parity_one isal one branched buffer (by rw [encoded]; exact others), encoded, this] at sum
  have zero : xorSum ((List.range g.DATACHUNK_NUM).map fun c => after.devs (dataDev g s c) (s * g.SCHUNK_SIZE + 0)) = 0 := by
    apply xorSum_zero
    intro x member
    obtain ⟨c, chunk, rfl⟩ := List.mem_map.mp member
    exact data_zero isal branched (List.mem_range.mp chunk) (data c (List.mem_range.mp chunk))
  rw [zero] at sum
  exact absurd sum (by decide)

/-! ### The two kinds of batch -/

/-- With a request for the device of a buffer, what an earlier call left in the
    buffer is encoded. -/
theorem stale_buffer (one : g.PARITYCHUNK_NUM = 1) {s tid : Nat} {v_dios : List DioInfo} {st : Store}
    (input : Contended g s tid v_dios st) {dio : DioInfo} (member : dio ∈ queued st tid) {d : Nat}
    (buffer : d < g.DATACHUNK_NUM) (device : dio.dev_id = (d : Nat)) :
    ¬ ParityRight g isal s (fun _ => 0) tid v_dios (withContents st tid (fun _ _ => 0) fun i _ => if i = d then 1 else 0) := by
  apply not_right isal one input buffer (fun _ _ => rfl)
  · rw [staged_kept member device, if_pos rfl]
  · intro i lt other
    apply staged_zero rfl
    exact if_neg other

/-- With requests only for the device past the buffers, the parity device is
    read as if it were a data device. -/
theorem parity_read (one : g.PARITYCHUNK_NUM = 1) {s tid : Nat} {v_dios : List DioInfo} {st : Store}
    (input : Contended g s tid v_dios st) (parity : parityDev g s 0 < g.DATACHUNK_NUM)
    (free : ∀ dio ∈ queued st tid, ∀ i < g.DATACHUNK_NUM, dio.dev_id ≠ (i : Nat)) :
    ¬ ParityRight g isal s (fun _ => 0) tid v_dios
      (withContents st tid (fun d _ => if d = parityDev g s 0 then 1 else 0) fun _ _ => 0) := by
  apply not_right isal one input parity
  · intro c chunk
    exact if_neg (parityDev_ne_dataDev g.parity_pos chunk).symm
  · rw [staged_read parity (fun dio member => free dio member _ parity) g.chunk_pos, if_pos rfl]
  · intro i lt other
    apply staged_zero _ rfl
    exact if_neg other

/-- A batch that is long enough for the branch has a request. -/
theorem some_request {s tid : Nat} {v_dios : List DioInfo} {st : Store} (input : Contended g s tid v_dios st) :
    ∃ dio, dio ∈ queued st tid := by
  apply List.exists_mem_of_ne_nil
  intro empty
  have branch := input.branch
  rw [empty] at branch
  exact absurd branch (Nat.not_lt_zero _)

/-- Whatever the requests of the branch are, some contents of the devices and of
    the buffers get a parity that is not that of the data. -/
theorem some_not_right (one : g.PARITYCHUNK_NUM = 1) {s tid : Nat} {v_dios : List DioInfo} {st : Store}
    (input : Contended g s tid v_dios st) :
    ∃ devs bufs, ¬ ParityRight g isal s (fun _ => 0) tid v_dios (withContents st tid devs bufs) := by
  by_cases buffer : ∃ dio ∈ queued st tid, ∃ d < g.DATACHUNK_NUM, dio.dev_id = (d : Nat)
  · obtain ⟨dio, member, d, lt, device⟩ := buffer
    exact ⟨_, _, stale_buffer isal one input member lt device⟩
  · have free : ∀ dio ∈ queued st tid, ∀ i < g.DATACHUNK_NUM, dio.dev_id ≠ (i : Nat) :=
      fun dio member i lt device => buffer ⟨dio, member, i, lt, device⟩
    -- The request is for the last device, so the parity device is before it.
    obtain ⟨dio, member⟩ := some_request input
    obtain ⟨c, chunk, device⟩ := (input.batch dio member).data
    have past : ¬ dataDev g s c < g.DATACHUNK_NUM := fun lt => free dio member _ lt device
    have other := parityDev_ne_dataDev (g := g) (s := s) g.parity_pos chunk
    have data := dataDev_lt (g := g) s c
    have parity := parityDev_lt (g := g) s 0
    have devices : g.NUM_DEVFILES = g.DATACHUNK_NUM + 1 := by rw [Geometry.NUM_DEVFILES, one]
    exact ⟨_, _, parity_read isal one input (by omega) free⟩

/-- Buffers with the data chunks as they are after the writes give their parity. -/
theorem right_of_staged (one : g.PARITYCHUNK_NUM = 1) {s tid : Nat} {mem : Nat → Byte} {v_dios : List DioInfo}
    {st : Store} (input : Contended g s tid v_dios st) (chunks : Staged g isal s mem tid v_dios st) :
    ParityRight g isal s mem tid v_dios st := by
  obtain ⟨writes, after, returned, order, perm, same⟩ := chunks
  obtain ⟨loaded, range, branched⟩ := encode_partialstripe_branch isal input returned
  refine ⟨writes, after, returned, ?_⟩
  intro q inside
  have columns := perm.map fun d => after.devs d (s * g.SCHUNK_SIZE + q)
  rw [List.map_map, List.map_map] at columns
  rw [branched.parity, do_full_encode_xor isal one _ _ inside]
  refine (congrArg xorSum (List.map_congr_left ?_)).trans (xorSum_perm columns)
  intro c member
  exact same c (List.mem_range.mp member) q inside

/-- No requests of the branch get the data chunks after the writes encoded,
    whatever the devices, the buffers and the memory contain, nor their parity. -/
theorem never_right (one : g.PARITYCHUNK_NUM = 1) {s tid : Nat} {v_dios : List DioInfo} {st : Store}
    (input : Contended g s tid v_dios st) :
    (¬ ∀ devs bufs mem, Staged g isal s mem tid v_dios (withContents st tid devs bufs)) ∧
      ¬ ∀ devs bufs mem, ParityRight g isal s mem tid v_dios (withContents st tid devs bufs) := by
  obtain ⟨devs, bufs, wrong⟩ := some_not_right isal one input
  constructor
  · intro always
    exact wrong (right_of_staged isal one (contended_contents input devs bufs) (always devs bufs _))
  · intro always
    exact wrong (always devs bufs _)

/-- A fresh state with whole chunks of the first stripe in the queue of the first
    thread, for the devices 1 to 5. -/
def five_queued : Store :=
  { Store.fresh defaultGeometry (fun _ _ => 0) (fun _ => 0) (fun _ => 0) with
    v_batchque2 := fun _ i => ⟨i + 1, 4096, 0, 65536, 0⟩
    inqueue_data_len := fun tid => if tid = 0 then 5 else 0 }

theorem five_contended : Contended defaultGeometry 0 0 [⟨0, 4096, 0, 4096, 0⟩] five_queued :=
  ⟨by decide, by decide, by decide, by decide, by decide⟩

theorem never_right_five :
    (¬ ∀ devs bufs mem, Staged defaultGeometry .reference 0 mem 0 [⟨0, 4096, 0, 4096, 0⟩] (withContents five_queued 0 devs bufs)) ∧
      ¬ ∀ devs bufs mem, ParityRight defaultGeometry .reference 0 mem 0 [⟨0, 4096, 0, 4096, 0⟩]
        (withContents five_queued 0 devs bufs) :=
  never_right .reference rfl five_contended

/-- The call returns, and the first byte of the parity of data without a byte that
    is set is what the constructor left in the buffers. -/
theorem parity_of_stale : Contended defaultGeometry 0 0 [⟨0, 4096, 0, 4096, 0⟩] five_queued ∧
    (∃ writes after, encode_partialstripe defaultGeometry .reference (fun _ => 0) 0 [⟨0, 4096, 0, 4096, 0⟩] five_queued =
      some (writes, after) ∧ after.v_enparitybuf 0 0 0 = 0x1a) ∧
    ¬ ParityRight defaultGeometry .reference 0 (fun _ => 0) 0 [⟨0, 4096, 0, 4096, 0⟩] five_queued := by
  have bytes : (encode_partialstripe defaultGeometry .reference (fun _ => 0) 0 [⟨0, 4096, 0, 4096, 0⟩] five_queued).map
      (fun result => (result.2.v_enparitybuf 0 0 0, (List.range 7).map fun c => result.2.devs (dataDev defaultGeometry 0 c) 0)) =
      some (0x1a, [0, 0, 0, 0, 0, 0, 0]) := by
    decide +kernel
  obtain ⟨⟨writes, after⟩, returned, same⟩ := Option.map_eq_some_iff.mp bytes
  obtain ⟨parity, data⟩ := Prod.mk.inj same
  refine ⟨five_contended, ⟨writes, after, returned, parity⟩, ?_⟩
  rintro ⟨writes', after', also, right⟩
  obtain ⟨rfl, rfl⟩ := Prod.mk.inj (Option.some.inj (returned.symm.trans also))
  have sum := right 0 (by decide)
  rw [parity] at sum
  have zero := congrArg xorSum data
  exact absurd (sum.trans zero) (by decide)

end Straid.ReconstructWrite
