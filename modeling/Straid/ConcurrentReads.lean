import Straid.DegradedRuns
import Straid.Linearization
import Straid.RingDepth

/-!
A `raid_read` while other threads write. Its device reads are submitted together,
if the ring has an entry for each, and complete one at a time, with steps of the
writers in between. What it returns for a chunk is what the writes leave that had
landed at one moment of the read (`reads_linear`): all that ended before the read,
and none that begins after it.
-/
namespace Straid.ConcurrentReads
open LogFiles Metadata Split Decode StorageMod ReadPath SequentialWrites DegradedRuns Overlays Threads Queues Handoffs
  Linearization Interleavings RingDepth Rings

/-- The writers, and a read: its device reads that have not completed, and the
    memory of its thread. -/
structure Session where
  machine : Machine
  waiting : List DioInfo
  memory : Nat → Byte

/-- The next step is of a writer, or one of the device reads completes. -/
inductive Event (g : Geometry)
  | write (turn : Turn g)
  | complete (n : Nat)

variable (g : Geometry) (mem : Nat → Byte)

/-- `raid_read` up to the submission of its device reads, on a ring with none
    pending. -/
def submit_reads (read_req_id : Nat) (uio : UioInfo) : Option (List DioInfo) := do
  if uio.length = 0 then none
  let v_schunks ← read_dios g read_req_id uio
  let _ ← ring_run 0 (s_norRead_ring v_schunks)
  some v_schunks

/-- A step of the session. A device read that completes has put what is on the
    device into its buffer. -/
def proceed (e : Event g) (s : Session) : Option Session :=
  match e with
  | .write turn => (move g mem turn s.machine).map fun m => { s with machine := m }
  | .complete n => s.waiting[n]?.map fun dio =>
      ⟨s.machine, s.waiting.eraseIdx n, (readWrite s.machine.devs dio).apply (fun _ => s.memory) ()⟩

/-- The writers put requests into queues in time. -/
def InTime (s : Session) : Event g → Prop
  | .write turn => Timely g (SameEntry g) s.machine.sys turn.thread
  | .complete _ => True

instance (s : Session) (e : Event g) : Decidable (InTime g s e) := by
  cases e <;> unfold InTime <;> infer_instance

/-- The calls that have landed, in order. -/
def order (m : Machine) : List (Nat × Nat) := m.landed.filterMap Slot.writer

variable {g mem} {calls : Nat → List UioInfo} {devs : Nat → Nat → Byte} {uio : UioInfo} {m : Machine} {s s' : Session}
  {memory : Nat → Byte}

/-- The memory has a chunk of the request as the calls leave it that had landed at
    some moment since `m`. -/
def Got (g : Geometry) (mem : Nat → Byte) (calls : Nat → List UioInfo) (devs : Nat → Nat → Byte) (uio : UioInfo)
    (m : Machine) (s : Session) (r : Nat × Nat) : Prop :=
  ∃ seen, order m <+: seen ∧ seen <+: order s.machine ∧ ∀ x, r.1 ≤ x → x < r.1 + r.2 →
    s.memory (uio.buf + (x - uio.user_offset)) =
      last_written (user_byte g devs) (seen.filterMap (call_at calls mem)) x

/-- What holds between two steps since the device reads were submitted. -/
structure ReadInv (g : Geometry) (mem : Nat → Byte) (calls : Nat → List UioInfo) (devs : Nat → Nat → Byte) (uio : UioInfo)
    (m : Machine) (memory : Nat → Byte) (s : Session) : Prop where
  outside : ∀ a, a < uio.buf ∨ uio.buf + uio.length ≤ a → s.memory a = memory a
  writers : Reachable (move g mem) (fun m turn => Timely g (SameEntry g) m.sys turn.thread) m s.machine
  known : ∀ dio ∈ s.waiting, ∃ r ∈ chunks g uio, ∃ req_id, dio = chunkDio g uio r req_id
  chunks : ∀ r ∈ chunks g uio, (∃ req_id, chunkDio g uio r req_id ∈ s.waiting) ∨ Got g mem calls devs uio m s r

/-- The device reads are submitted exactly when they are at most as many as the ring
    has entries. -/
theorem submit_reads_iff (request : uio.Valid g) (aligned : Aligned g uio) (read_req_id : Nat) (v_dios : List DioInfo) :
    submit_reads g read_req_id uio = some v_dios ↔
      touched_chunks g uio ≤ RING_QD ∧ read_dios g read_req_id uio = some v_dios := by
  have positive := request.positive
  have made := read_dios_eq request aligned read_req_id
  have count := read_dios_length request made
  have some_chunk : touched_chunks g uio ≠ 0 := Nat.ne_of_gt (Cuts.blocks_pos g.SCHUNK_SIZE uio.user_offset positive)
  have ring := prep_submit_iff ((chunks g uio).zipIdx.map fun p => chunkDio g uio p.1 (u64 (u64 (read_req_id + p.2) + 1)))
  rw [count] at ring
  rw [submit_reads, if_neg (by omega), made, ← ring]
  simp only [Option.bind_eq_bind, Option.bind_some, s_norRead_ring, count, if_neg some_chunk, Option.bind_eq_some_iff,
    exists_and_right]

theorem apart_of_ne (positive : 0 < uio.length) {r q : Nat × Nat} (first : r ∈ chunks g uio) (second : q ∈ chunks g uio)
    (other : r ≠ q) : r.1 + r.2 ≤ q.1 ∨ q.1 + q.2 ≤ r.1 :=
  have : Std.Symm fun r q : Nat × Nat => r.1 + r.2 ≤ q.1 ∨ q.1 + q.2 ≤ r.1 := ⟨fun _ _ apart => apart.symm⟩
  (chunks_apart positive).forall first second other

/-- A device read that completes has the bytes of its chunk. -/
theorem chunk_bytes (request : uio.Valid g) {r : Nat × Nat} (member : r ∈ chunks g uio) (req_id : Nat)
    (contents : Nat → Nat → Byte) (memory : Nat → Byte) {x : Nat} (low : r.1 ≤ x) (high : x < r.1 + r.2) :
    (readWrite contents (chunkDio g uio r req_id)).apply (fun _ => memory) () (uio.buf + (x - uio.user_offset)) =
      user_byte g contents x := by
  obtain ⟨some_bytes, first, last, one⟩ := mem_chunks request.positive member
  have user := request.user
  have same : x / g.SCHUNK_SIZE = r.1 / g.SCHUNK_SIZE := by
    apply Nat.le_antisymm
    · rw [← one]
      exact Nat.div_le_div_right (by omega)
    · exact Nat.div_le_div_right low
  obtain ⟨device, offset⟩ := same_chunk (g := g) low same
  have covers : (readWrite contents (chunkDio g uio r req_id)).Covers () (uio.buf + (x - uio.user_offset)) := by
    refine ⟨rfl, ?_, ?_⟩
    · simp only [readWrite, chunkDio]
      omega
    · simp only [readWrite, chunkDio]
      omega
  rw [Write.apply_covered covers, user_byte_eq (by omega), flat, device, offset]
  simp only [readWrite, chunkDio, Int.toNat_natCast]
  congr 1
  omega

/-- Two chunks of the request have different device reads. -/
theorem chunkDio_inj (positive : 0 < uio.length) {r q : Nat × Nat} (first : r ∈ chunks g uio) (second : q ∈ chunks g uio)
    {i j : Nat} (same : chunkDio g uio r i = chunkDio g uio q j) : r = q := by
  have low := (mem_chunks positive first).2.1
  have low' := (mem_chunks positive second).2.1
  simp only [chunkDio, DioInfo.mk.injEq] at same
  exact Prod.ext (by omega) same.2.2.2.1

/-- What has landed stays. -/
theorem order_grows {m' : Machine}
    (later : Reachable (move g mem) (fun m turn => Timely g (SameEntry g) m.sys turn.thread) m m') :
    order m <+: order m' := by
  obtain ⟨new, grown⟩ := landed_grows later
  rw [order, order, grown, List.filterMap_append]
  exact List.prefix_append ..

theorem read_step (valid : ∀ t, ∀ uio ∈ calls t, uio.Valid g ∧ uio.user_id = t)
    (chunk : ∀ t, ∀ uio ∈ calls t, InChunk g uio) (narrow : ∀ t, ∀ uio ∈ calls t, Narrow g uio) (request : uio.Valid g)
    (first : Reachable (move g mem) (fun m turn => Timely g (SameEntry g) m.sys turn.thread) (Machine.start calls devs) m)
    (inv : ReadInv g mem calls devs uio m memory s) {e : Event g} (timely : InTime g s e)
    (next : proceed g mem e s = some s') : ReadInv g mem calls devs uio m memory s' := by
  cases e with
  | write turn =>
    obtain ⟨machine, moved, rfl⟩ := Option.map_eq_some_iff.mp next
    have one : Reachable (move g mem) (fun m turn => Timely g (SameEntry g) m.sys turn.thread) s.machine machine :=
      .step .start timely moved
    refine ⟨inv.outside, .step inv.writers timely moved, inv.known, fun r member => ?_⟩
    refine (inv.chunks r member).imp_right ?_
    rintro ⟨seen, before, upto, bytes⟩
    exact ⟨seen, before, upto.trans (order_grows one), bytes⟩
  | complete n =>
    obtain ⟨dio, here, rfl⟩ := Option.map_eq_some_iff.mp next
    obtain ⟨q, there, id, rfl⟩ := inv.known dio (List.mem_of_getElem? here)
    obtain ⟨_, above, inside, _⟩ := mem_chunks request.positive there
    have frame : ∀ a, a < uio.buf + (q.1 - uio.user_offset) ∨ uio.buf + (q.1 - uio.user_offset) + q.2 ≤ a →
        (readWrite s.machine.devs (chunkDio g uio q id)).apply (fun _ => s.memory) () a = s.memory a := by
      intro a out
      have uncovered : ¬ (readWrite s.machine.devs (chunkDio g uio q id)).Covers () a := by
        rintro ⟨_, from_buf, to_buf⟩
        simp only [readWrite, chunkDio] at from_buf to_buf
        omega
      exact Write.apply_frame (m := fun _ => s.memory) uncovered
    refine ⟨fun a out => ?_, inv.writers, fun d member => inv.known d (List.mem_of_mem_eraseIdx member),
      fun r member => ?_⟩
    · exact (frame a (by omega)).trans (inv.outside a out)
    by_cases own : r = q
    · -- The chunk that is read: it has what has landed by now.
      subst own
      have linear : Linear g calls mem devs s.machine (order s.machine) :=
        linear_of_inv (inv_of_reachable valid chunk narrow (first.trans inv.writers))
      refine .inr ⟨order s.machine, order_grows inv.writers, List.prefix_refl _, fun x low high => ?_⟩
      have user := request.user
      rw [← linear.bytes x (by omega)]
      exact chunk_bytes request there id s.machine.devs s.memory low high
    · rcases inv.chunks r member with ⟨req_id, waits⟩ | ⟨seen, before, upto, bytes⟩
      · obtain ⟨k, at_k⟩ := List.mem_iff_getElem?.mp waits
        have other : k ≠ n := by
          rintro rfl
          exact own (chunkDio_inj request.positive member there (Option.some.inj (at_k.symm.trans here)))
        exact .inl ⟨req_id, List.mem_eraseIdx_iff_getElem?.mpr ⟨k, other, at_k⟩⟩
      · refine .inr ⟨seen, before, upto, fun x low high => ?_⟩
        have apart := apart_of_ne request.positive member there own
        have first_byte := (mem_chunks request.positive member).2.1
        rw [← bytes x low high]
        exact frame _ (by omega)

/-- A read of any chunks during concurrent writes: once its device reads are
    submitted, each chunk is as the calls leave it that had landed at one moment
    between then and the last completion, and nothing else in memory changes. -/
theorem reads_linear (valid : ∀ t, ∀ uio ∈ calls t, uio.Valid g ∧ uio.user_id = t)
    (chunk : ∀ t, ∀ uio ∈ calls t, InChunk g uio) (narrow : ∀ t, ∀ uio ∈ calls t, Narrow g uio) (request : uio.Valid g)
    (aligned : Aligned g uio)
    (first : Reachable (move g mem) (fun m turn => Timely g (SameEntry g) m.sys turn.thread) (Machine.start calls devs) m)
    {read_req_id : Nat} {v_dios : List DioInfo} (submitted : submit_reads g read_req_id uio = some v_dios)
    (reads : Reachable (proceed g mem) (InTime g) ⟨m, v_dios, memory⟩ s) (complete : s.waiting = []) :
    Linear g calls mem devs m (order m) ∧ Linear g calls mem devs s.machine (order s.machine) ∧
      (∀ r ∈ chunks g uio, ∃ seen, order m <+: seen ∧ seen <+: order s.machine ∧ ∀ x, r.1 ≤ x → x < r.1 + r.2 →
        s.memory (uio.buf + (x - uio.user_offset)) =
          last_written (user_byte g devs) (seen.filterMap (call_at calls mem)) x) ∧
      ∀ a, a < uio.buf ∨ uio.buf + uio.length ≤ a → s.memory a = memory a := by
  have split := ((submit_reads_iff request aligned read_req_id v_dios).mp submitted).2
  have made := Option.some.inj (split.symm.trans (read_dios_eq request aligned read_req_id))
  have inv : ReadInv g mem calls devs uio m memory s := by
    refine reads.invariant (P := ReadInv g mem calls devs uio m memory) ?_ fun inv timely next =>
      read_step valid chunk narrow request first inv timely next
    refine ⟨fun _ _ => rfl, .start, fun dio member => ?_, fun r member => ?_⟩
    · rw [made] at member
      obtain ⟨p, there, rfl⟩ := List.mem_map.mp member
      exact ⟨p.1, List.fst_mem_of_mem_zipIdx there, _, rfl⟩
    · obtain ⟨i, at_i⟩ := List.mem_iff_getElem?.mp member
      refine .inl ⟨u64 (u64 (read_req_id + i) + 1), ?_⟩
      rw [made]
      exact List.mem_map.mpr ⟨(r, i), List.mem_zipIdx_iff_getElem?.mpr at_i, rfl⟩
  refine ⟨linear_of_inv (inv_of_reachable valid chunk narrow first),
    linear_of_inv (inv_of_reachable valid chunk narrow (first.trans inv.writers)), fun r member => ?_, inv.outside⟩
  rcases inv.chunks r member with ⟨req_id, waits⟩ | got
  · rw [complete] at waits
    cases waits
  · exact got

/-- A read of two chunks: the second is read before the writes, the first after
    them. -/
def two_chunks : UioInfo := ⟨2, false, 65536, 0, 131072⟩

theorem reads_linear_two_chunks : ∃ s : Session, s.waiting = [] ∧ order s.machine = [(1, 0), (0, 0)] ∧
    ∀ r ∈ chunks defaultGeometry two_chunks, ∃ seen, seen <+: order s.machine ∧ ∀ x, r.1 ≤ x → x < r.1 + r.2 →
      s.memory (65536 + (x - 0)) = last_written (user_byte defaultGeometry fun _ _ => 0)
        (seen.filterMap (call_at one_stripe fun a => a)) x := by
  have submitted : submit_reads defaultGeometry 0 two_chunks = some [⟨0, 65536, 0, 65536, 1⟩, ⟨1, 131072, 0, 65536, 2⟩] := by
    decide +kernel
  have result : (run (proceed defaultGeometry fun a => a) (InTime defaultGeometry)
      ([.complete 1] ++ two_turns.map .write ++ [.complete 0])
      ⟨Machine.start one_stripe fun _ _ => 0, [⟨0, 65536, 0, 65536, 1⟩, ⟨1, 131072, 0, 65536, 2⟩], fun _ => 0xee⟩).map
        (fun s => (s.waiting, order s.machine)) = some ([], [(1, 0), (0, 0)]) := by decide +kernel
  obtain ⟨s, reached, ended⟩ := Option.map_eq_some_iff.mp result
  obtain ⟨complete, landed⟩ := Prod.mk.inj ended
  obtain ⟨_, _, bytes, _⟩ := reads_linear one_stripe_valid one_stripe_chunk one_stripe_narrow (by decide) (by decide)
    .start submitted
    (run_reachable reached) complete
  refine ⟨s, complete, landed, fun r member => ?_⟩
  obtain ⟨seen, _, upto, same⟩ := bytes r member
  exact ⟨seen, upto, same⟩

end Straid.ConcurrentReads
