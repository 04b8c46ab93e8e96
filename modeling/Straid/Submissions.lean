import Straid.ReconstructWrite
import Straid.SequentialWrites

/-!
What the holder of a lock submits. `encode_partialstripe` with requests in the
queue of its thread submits the writes of its own device requests and of those in
the queue, and writes to a parity chunk of the stripe (`partial_submits`);
`encode_fullstripe` leaves on the devices what the writes of its device requests
and writes to the parity chunks leave (`full_submits`).
-/
namespace Straid.Submissions
open LogFiles Metadata Split Encode EcEncoder FullStripe PartialStripe Overlays
open ReconstructWrite (queued drain_queued)

/-- A write to a parity chunk of a stripe. -/
structure ParityWrite (g : Geometry) where
  stripe : Nat
  chunk : Nat
  off : Nat
  len : Nat
  data : Buf
  one : chunk < g.PARITYCHUNK_NUM
  inside : off + len ≤ g.SCHUNK_SIZE

def ParityWrite.write {g : Geometry} (w : ParityWrite g) : DeviceWrite :=
  ⟨parityDev g w.stripe w.chunk, w.stripe * g.SCHUNK_SIZE + w.off, w.len, w.data⟩

/-- A device request in the row of stripe `s`. -/
def InRow (g : Geometry) (s : Nat) (dio : DioInfo) : Prop :=
  s * g.SCHUNK_SIZE ≤ dio.dev_offset ∧ dio.dev_offset + dio.length ≤ s * g.SCHUNK_SIZE + g.SCHUNK_SIZE

instance (g : Geometry) (s : Nat) (dio : DioInfo) : Decidable (InRow g s dio) := inferInstanceAs (Decidable (_ ∧ _))

variable {g : Geometry} (isal : Isal)

/-- The device requests of a piece are in the row of its stripe. -/
theorem piece_inRow {piece : UioInfo} (one : OneStripe g piece) : ∀ dio ∈ piece_dios g piece, InRow g (stripeOf g piece) dio := by
  intro dio member
  obtain ⟨r, part, rfl⟩ := mem_piece_dios.mp member
  exact (piece_part one part).2.2

theorem parity_range_append (range : Nat × Nat) (dios more : List DioInfo) :
    parity_range range (dios ++ more) = parity_range (parity_range range dios) more := List.foldl_append

/-- The range of the parity chunk for requests in a row is in the row, unless the
    row is past the largest `int`. -/
theorem parity_range_row {s : Nat} {dios : List DioInfo} (some_dio : dios ≠ []) (rows : ∀ dio ∈ dios, InRow g s dio)
    (narrow : s * g.SCHUNK_SIZE ≤ INT_MAX) : s * g.SCHUNK_SIZE ≤ (parity_range (INT_MAX, 0) dios).1 ∧
      (parity_range (INT_MAX, 0) dios).1 + (parity_range (INT_MAX, 0) dios).2 ≤ s * g.SCHUNK_SIZE + g.SCHUNK_SIZE := by
  obtain ⟨_, lows, smallest, _, _, largest⟩ := parity_range_spec dios (INT_MAX, 0)
  constructor
  · rcases smallest with same | ⟨dio, member, same⟩
    · rw [same]
      exact narrow
    · rw [same]
      exact (rows dio member).1
  · obtain ⟨first, there⟩ := List.exists_mem_of_ne_nil _ some_dio
    have low := lows first there
    have row := rows first there
    unfold InRow at row
    rcases largest with same | ⟨dio, member, same⟩
    · rw [same]
      simp only at *
      omega
    · have high := (rows dio member).2
      have before := lows dio member
      omega

theorem data_writes_append {mem : Nat → Byte} {xs ys : List DioInfo} {ws us : List DeviceWrite}
    (first : data_writes g mem xs = some ws) (second : data_writes g mem ys = some us) :
    data_writes g mem (xs ++ ys) = some (ws ++ us) := by
  unfold data_writes at *
  rw [List.mapM_append, first, second]
  rfl

/-- Writes of a range to the first parity chunk's device are writes to a parity
    chunk when the range is in the row. -/
theorem parity_writes_row {s soff slen : Nat} (low : s * g.SCHUNK_SIZE ≤ soff)
    (high : soff + slen ≤ s * g.SCHUNK_SIZE + g.SCHUNK_SIZE) (par : Nat → Buf) :
    ∃ parity : List (ParityWrite g), parity_writes g s par soff slen = some (parity.map ParityWrite.write) ∧
      ∀ w ∈ parity, w.stripe = s := by
  have parities := g.parity_pos
  refine ⟨(List.range g.PARITYCHUNK_NUM).map fun p => ⟨s, 0, soff - s * g.SCHUNK_SIZE, slen, par p, parities, by omega⟩,
    ?_, ?_⟩
  · rw [parity_writes_eq, List.map_map]
    refine congrArg some (List.map_congr_left fun p _ => ?_)
    simp only [ParityWrite.write, Function.comp_apply, Nat.add_sub_cancel' low]
  · intro w member
    obtain ⟨p, _, rfl⟩ := List.mem_map.mp member
    rfl

/-- The partial stripe path with any requests in the queue: it submits the writes of
    all requests and of the range of the parity, and these are all that changes on
    the devices. -/
theorem partial_writes {mem : Nat → Byte} {tid : Nat} {v_dios : List DioInfo} {st after : Store}
    {writes : List DeviceWrite} (result : encode_partialstripe g isal mem tid v_dios st = some (writes, after)) :
    v_dios ≠ [] ∧ ∃ (dwrites pwrites : List DeviceWrite) (par : Nat → Buf),
      data_writes g mem (v_dios ++ queued st tid) = some dwrites ∧
      parity_writes g (devoff2stripe g (v_dios.headD default).dev_offset) par
        (parity_range (INT_MAX, 0) (v_dios ++ queued st tid)).1 (parity_range (INT_MAX, 0) (v_dios ++ queued st tid)).2 =
          some pwrites ∧
      writes = dwrites ++ pwrites ∧ after.devs = applyAll st.devs writes := by
  rw [encode_partialstripe] at result
  by_cases empty : v_dios.length = 0
  · rw [if_pos empty] at result
    cases result
  refine ⟨fun none => empty (by rw [none]; rfl), ?_⟩
  rw [if_neg empty] at result
  by_cases outside : tid ≥ NUM_THREADS
  · rw [if_pos outside] at result
    cases result
  rw [if_neg outside] at result
  obtain ⟨_, _, result⟩ := Option.bind_eq_some_iff.mp result
  obtain ⟨_, _, result⟩ := Option.bind_eq_some_iff.mp result
  obtain ⟨frozen, froze, result⟩ := Option.bind_eq_some_iff.mp result
  obtain ⟨⟨bat_dios, drained⟩, emptied, result⟩ := Option.bind_eq_some_iff.mp result
  obtain ⟨batch, devs, _⟩ := drain_queued emptied
  obtain ⟨_, _, rfl⟩ := Option.map_eq_some_iff.mp froze
  have batch : bat_dios = queued st tid := batch
  have devs : drained.devs = st.devs := devs
  subst batch
  simp only [parity_range_append]
  dsimp only at result
  -- The encodings differ, the writes do not.
  split at result
  · iterate 2 obtain ⟨_, _, result⟩ := Option.bind_eq_some_iff.mp result
    obtain ⟨dwrites, own, result⟩ := Option.bind_eq_some_iff.mp result
    obtain ⟨bwrites, delegated, result⟩ := Option.bind_eq_some_iff.mp result
    obtain ⟨pwrites, parities, result⟩ := Option.bind_eq_some_iff.mp result
    obtain ⟨_, _, result⟩ := Option.bind_eq_some_iff.mp result
    obtain ⟨rfl, rfl⟩ := Prod.mk.inj (Option.some.inj result)
    exact ⟨_, pwrites, _, data_writes_append own delegated, parities, rfl, by rw [← devs]⟩
  · iterate 3 obtain ⟨_, _, result⟩ := Option.bind_eq_some_iff.mp result
    obtain ⟨dwrites, own, result⟩ := Option.bind_eq_some_iff.mp result
    obtain ⟨bwrites, delegated, result⟩ := Option.bind_eq_some_iff.mp result
    obtain ⟨pwrites, parities, result⟩ := Option.bind_eq_some_iff.mp result
    obtain ⟨_, _, result⟩ := Option.bind_eq_some_iff.mp result
    obtain ⟨rfl, rfl⟩ := Prod.mk.inj (Option.some.inj result)
    exact ⟨_, pwrites, _, data_writes_append own delegated, parities, rfl, by rw [← devs]⟩

/-- When all requests are of the row of the stripe, and the row is not past the
    largest `int`, the writes of the parity are in a parity chunk. -/
theorem parity_kept {s : Nat} {dios : List DioInfo} (some_dio : dios ≠ []) (rows : ∀ dio ∈ dios, InRow g s dio)
    (narrow : s * g.SCHUNK_SIZE ≤ INT_MAX) {par : Nat → Buf} {pwrites : List DeviceWrite}
    (parities : parity_writes g s par (parity_range (INT_MAX, 0) dios).1 (parity_range (INT_MAX, 0) dios).2 = some pwrites) :
    ∃ parity : List (ParityWrite g), pwrites = parity.map ParityWrite.write ∧ ∀ w ∈ parity, w.stripe = s := by
  obtain ⟨low, high⟩ := parity_range_row some_dio rows narrow
  obtain ⟨parity, prepared, row⟩ := parity_writes_row low high par
  exact ⟨parity, Option.some.inj (parities.symm.trans prepared), row⟩

/-- The partial stripe path with any requests in the queue: when they are of the
    row of the stripe, and the row is not past the largest `int`, it submits the
    writes of all requests and writes to a parity chunk of the stripe, and these
    are all that changes on the devices. -/
theorem partial_submits {mem : Nat → Byte} {tid s : Nat} {v_dios : List DioInfo} {st after : Store}
    {writes : List DeviceWrite} (stripe : devoff2stripe g (v_dios.headD default).dev_offset = s)
    (rows : ∀ dio ∈ v_dios ++ queued st tid, InRow g s dio) (narrow : s * g.SCHUNK_SIZE ≤ INT_MAX)
    (result : encode_partialstripe g isal mem tid v_dios st = some (writes, after)) :
    ∃ (dwrites : List DeviceWrite) (parity : List (ParityWrite g)),
      data_writes g mem (v_dios ++ queued st tid) = some dwrites ∧ (∀ w ∈ parity, w.stripe = s) ∧
      writes = dwrites ++ parity.map ParityWrite.write ∧ after.devs = applyAll st.devs writes := by
  obtain ⟨some_dio, dwrites, pwrites, par, prepared, parities, same, left⟩ := partial_writes isal result
  rw [stripe] at parities
  obtain ⟨parity, rfl, row⟩ := parity_kept (List.append_ne_nil_of_left_ne_nil some_dio _) rows narrow parities
  exact ⟨dwrites, parity, prepared, row, same, left⟩

/-- Thread 0 with a request of the row of stripe 0 in its queue. -/
def one_queued : Store :=
  { Store.fresh defaultGeometry (fun _ _ => 0) (fun _ => 0) (fun _ => 0) with
    v_batchque2 := fun _ _ => ⟨0, 4096, 8192, 4096, 0⟩
    inqueue_data_len := fun tid => if tid = 0 then 1 else 0 }

theorem partial_submits_one : ∃ writes after,
    encode_partialstripe defaultGeometry Isal.reference (fun a => a) 0 [⟨0, 4096, 0, 4096, 0⟩] one_queued =
      some (writes, after) ∧
    ∃ (dwrites : List DeviceWrite) (parity : List (ParityWrite defaultGeometry)),
      data_writes defaultGeometry (fun a => a) ([⟨0, 4096, 0, 4096, 0⟩] ++ queued one_queued 0) = some dwrites ∧
      (∀ w ∈ parity, w.stripe = 0) ∧ writes = dwrites ++ parity.map ParityWrite.write ∧
      after.devs = applyAll one_queued.devs writes := by
  have returns : (encode_partialstripe defaultGeometry Isal.reference (fun a => a) 0 [⟨0, 4096, 0, 4096, 0⟩]
      one_queued).isSome = true := by decide +kernel
  obtain ⟨⟨writes, after⟩, result⟩ := Option.isSome_iff_exists.mp returns
  exact ⟨writes, after, result, partial_submits Isal.reference (by decide) (by unfold InRow; decide) (by decide) result⟩

/-- Writes with the same effect, one by one. -/
theorem applyAll_congr {ι κ α : Type*} [DecidableEq ι] {f h : κ → Write ι α} {xs : List κ}
    (same : ∀ x ∈ xs, ∀ m, (f x).apply m = (h x).apply m) (m : ι → Nat → α) :
    applyAll m (xs.map f) = applyAll m (xs.map h) := by
  induction xs generalizing m with
  | nil => rfl
  | cons x xs ih =>
    rw [List.map_cons, List.map_cons, applyAll_cons, applyAll_cons, same x List.mem_cons_self,
      ih fun y member => same y (List.mem_cons_of_mem _ member)]

/-- The full stripe path: the data buffers of the thread hold the data of the
    device requests, and a write to each parity chunk follows. -/
theorem full_submits {s tid : Nat} (entry : s ≤ g.USER_SPACE_LEN / g.SSTRIPE_DATASIZE + 100) (thread : tid < NUM_THREADS)
    (mem : Nat → Byte) (buf : Nat) (st : Store) :
    ∃ (writes dwrites : List DeviceWrite) (parity : List (ParityWrite g)) (after : Store),
      encode_fullstripe g isal mem tid ((List.range g.DATACHUNK_NUM).map (fullDio g s buf)) st = some (writes, after) ∧
      data_writes g mem ((List.range g.DATACHUNK_NUM).map (fullDio g s buf)) = some dwrites ∧
      (∀ w ∈ parity, w.stripe = s) ∧ after.devs = applyAll st.devs (dwrites ++ parity.map ParityWrite.write) := by
  have prepared : data_writes g mem ((List.range g.DATACHUNK_NUM).map (fullDio g s buf)) =
      some ((List.range g.DATACHUNK_NUM).map fun i =>
        ⟨dataDev g s i, s * g.SCHUNK_SIZE, g.SCHUNK_SIZE, shift mem (buf + i * g.SCHUNK_SIZE)⟩) :=
    mapM_some fun i _ => iouring_wprep_eq (dataDev_lt ..) _ _ _
  let par := fullParity g isal mem buf (st.v_endatabuf tid) (st.v_enparitybuf tid)
  let parity : List (ParityWrite g) := (List.finRange g.PARITYCHUNK_NUM).map fun p =>
    ⟨s, p.val, 0, g.SCHUNK_SIZE, par p.val, p.isLt, by omega⟩
  have chunks : parity.map ParityWrite.write = (List.range g.PARITYCHUNK_NUM).map fun p =>
      ⟨parityDev g s p, s * g.SCHUNK_SIZE, g.SCHUNK_SIZE, par p⟩ := by
    rw [List.map_map, ← List.map_coe_finRange_eq_range, List.map_map]
    rfl
  refine ⟨_, _, parity, _, encode_fullstripe_eq isal entry thread mem buf st, prepared, ?_, ?_⟩
  · intro w member
    obtain ⟨p, _, rfl⟩ := List.mem_map.mp member
    rfl
  · show applyAll st.devs (fullWrites g s _ par) = _
    rw [fullWrites, applyAll_append, applyAll_append, chunks]
    congr 1
    refine applyAll_congr (fun i member m => ?_) _
    funext d o
    have chunk := List.mem_range.mp member
    by_cases inside : s * g.SCHUNK_SIZE ≤ o ∧ o < s * g.SCHUNK_SIZE + g.SCHUNK_SIZE
    · have same := fullData_at (g := g) chunk (show o - s * g.SCHUNK_SIZE < g.SCHUNK_SIZE by omega) mem buf
        (st.v_endatabuf tid)
      simp only [Write.apply, same, shift]
      rfl
    · rw [Write.apply_frame fun covers => inside covers.2, Write.apply_frame fun covers => inside covers.2]

end Straid.Submissions
