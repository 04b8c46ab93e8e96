import Straid.RingDepth
import Straid.SequentialWrites

/-!
Reads and writes of one thread, one after another, against the user space as one
flat array of bytes. A write changes the array where its request is
(`write_holds`), a read changes no device and fills its buffer from the array
(`read_holds`), so a run of requests leaves in the user memory and on the
devices what the flat array leaves there (`serve_all_flat`).
-/
namespace Straid.ReadBack
open LogFiles Metadata Split Encode EcEncoder StorageMod Runs ReadPath SequentialWrites Overlays Rings

variable (g : Geometry) (isal : Isal)

/-- A request of a user, with the user memory at the call. -/
inductive Op
  | write (call : Call)
  | read (call : Call)

/-! ### The code -/

/-- What the calls change: the store, and the counter of device reads. -/
structure Raid where
  store : Store
  read_req_id : Nat

/-- A call of `raid_write_direct` or of `raid_read`: the user memory and the
    state after it. Nothing is queued, so a piece needs room in the ring for itself
    only. -/
def serve : Op → Raid → Option ((Nat → Byte) × Raid)
  | .write c, st =>
    if ∀ piece ∈ split_stripe_aligned g c.uio, RingDepth.Room g piece [] then
      (raid_write_direct g isal c.mem c.uio st.store).map fun result => (c.mem, { st with store := result.2 })
    else none
  | .read c, st =>
    (raid_read g st.store.devs st.read_req_id c.uio c.mem).map fun mem =>
      (mem, { st with read_req_id := u64 (st.read_req_id + (split_schunk g c.uio).length) })

/-- Requests one after another: the user memory after each of them. -/
def serve_all : List Op → Raid → Option (List (Nat → Byte) × Raid)
  | [], st => some ([], st)
  | op :: ops, st => do
    let (mem, st) ← serve g isal op st
    let (mems, st) ← serve_all ops st
    some (mem :: mems, st)

/-! ### The flat array -/

/-- What a request does on a flat array. -/
def flat_serve : Op → (Nat → Byte) → (Nat → Byte) × (Nat → Byte)
  | .write c, F => (c.mem, put F c)
  | .read c, F => (overlay c.mem c.uio.buf c.uio.length (shift F c.uio.user_offset), F)

def flat_all : List Op → (Nat → Byte) → List (Nat → Byte) × (Nat → Byte)
  | [], F => ([], F)
  | op :: ops, F =>
    let (mem, F) := flat_serve op F
    let (mems, F) := flat_all ops F
    (mem :: mems, F)

/-- A request that is served: a write, by a ring with an entry for each device, with
    no partial stripe past the largest `int`, or a read that is cut at the chunks,
    by a ring with an entry for each of them. -/
def Op.Served : Op → Prop
  | .write c => c.uio.Valid g ∧ (∀ piece ∈ split_stripe_aligned g c.uio, Narrow g piece) ∧ g.NUM_DEVFILES ≤ RING_QD
  | .read c => c.uio.Valid g ∧ Aligned g c.uio ∧ touched_chunks g c.uio ≤ RING_QD

/-- Between two calls, the user bytes of the devices are those of the array. -/
structure Stands (F : Nat → Byte) (st : Raid) : Prop where
  quiet : Quiet g st.store
  bytes : ∀ x < g.USER_SPACE_LEN, user_byte g st.store.devs x = F x

variable {g} {F : Nat → Byte} {st : Raid}

/-! ### One request -/

theorem write_holds {c : Call} (valid : c.uio.Valid g) (narrow : ∀ piece ∈ split_stripe_aligned g c.uio, Narrow g piece)
    (array : g.NUM_DEVFILES ≤ RING_QD) (stands : Stands g F st) :
    ∃ after, serve g isal (.write c) st = some (c.mem, after) ∧ Stands g (put F c) after := by
  obtain ⟨submissions, after, written, changes, quiet⟩ := raid_write_direct_changes isal valid stands.quiet
  have room : ∀ piece ∈ split_stripe_aligned g c.uio, RingDepth.Room g piece [] := fun piece member =>
    RingDepth.room_of_array (piece_oneStripe valid member) array
  refine ⟨{ st with store := after }, by rw [serve, if_pos room, written, Option.map_some], quiet, fun x user => ?_⟩
  have narrow' : ∀ piece ∈ call_pieces g c, Narrow g piece.uio := by
    intro piece member
    obtain ⟨uio, there, rfl⟩ := List.mem_map.mp member
    exact narrow uio there
  have before : flat g st.store.devs x = F x := (user_byte_eq user _).symm.trans (stands.bytes x user)
  calc user_byte g after.devs x
      = last_written (flat g st.store.devs) (call_pieces g c) x := by
        rw [user_byte_eq user, changes_flat changes narrow']
    _ = put (flat g st.store.devs) c x := by rw [last_written_pieces valid]
    _ = put F c x := last_written_congr before [c]

theorem read_holds {c : Call} (valid : c.uio.Valid g) (aligned : Aligned g c.uio)
    (few : touched_chunks g c.uio ≤ RING_QD) (stands : Stands g F st) :
    ∃ after, serve g isal (.read c) st = some ((flat_serve (.read c) F).1, after) ∧ Stands g F after := by
  obtain ⟨dios, split, exact⟩ := read_exact valid aligned few st.read_req_id
  obtain ⟨mem, read, inside, outside⟩ := exact.lands st.store.devs c.mem
  have some_len : ¬ c.uio.length = 0 := by
    have := valid.positive
    omega
  have user := valid.user
  have filled : mem = overlay c.mem c.uio.buf c.uio.length (shift F c.uio.user_offset) := by
    funext a
    by_cases low : c.uio.buf ≤ a ∧ a < c.uio.buf + c.uio.length
    · have byte := inside (a - c.uio.buf) (by omega)
      rw [Nat.add_sub_cancel' low.1] at byte
      rw [overlay_inside low.1 low.2, byte]
      exact stands.bytes _ (by omega)
    · rw [overlay_outside (by omega), outside a (by omega)]
  refine ⟨{ st with read_req_id := u64 (st.read_req_id + (split_schunk g c.uio).length) }, ?_, stands.quiet,
    stands.bytes⟩
  simp only [serve, raid_read, some_len, ↓reduceIte, split, read, filled, Option.bind_eq_bind, Option.bind_some,
    Option.map_some, flat_serve]

theorem serve_holds {op : Op} (served : op.Served g) (stands : Stands g F st) :
    ∃ after, serve g isal op st = some ((flat_serve op F).1, after) ∧ Stands g (flat_serve op F).2 after := by
  cases op with
  | write c => exact write_holds isal served.1 served.2.1 served.2.2 stands
  | read c => exact read_holds isal served.1 served.2.1 served.2.2 stands

/-! ### Runs -/

theorem serve_all_holds {ops : List Op} (served : ∀ op ∈ ops, op.Served g) (stands : Stands g F st) :
    ∃ after, serve_all g isal ops st = some ((flat_all ops F).1, after) ∧ Stands g (flat_all ops F).2 after := by
  induction ops generalizing F st with
  | nil => exact ⟨st, rfl, stands⟩
  | cons op ops ih =>
    obtain ⟨middle, first, stands'⟩ := serve_holds isal (served op List.mem_cons_self) stands
    obtain ⟨after, rest, stands''⟩ := ih (fun other member => served other (List.mem_cons_of_mem _ member)) stands'
    refine ⟨after, ?_, stands''⟩
    simp only [serve_all, first, rest, Option.bind_eq_bind, Option.bind_some, flat_all]

/-- From the constructed state on devices with any contents, a run of reads and
    writes leaves in the user memory after each request, and in the user space
    after the run, what the flat array leaves there. -/
theorem serve_all_flat {ops : List Op} (served : ∀ op ∈ ops, op.Served g) (devs : Nat → Nat → Byte)
    (rands : Nat → Nat) (wild : Buf) (read_req_id : Nat) :
    ∃ after, serve_all g isal ops ⟨Store.fresh g devs rands wild, read_req_id⟩ =
        some ((flat_all ops (user_byte g devs)).1, after) ∧
      ∀ x < g.USER_SPACE_LEN, user_byte g after.store.devs x = (flat_all ops (user_byte g devs)).2 x := by
  obtain ⟨after, run, stands⟩ := serve_all_holds isal served
    (show Stands g (user_byte g devs) ⟨Store.fresh g devs rands wild, read_req_id⟩ from
      ⟨fresh_quiet devs rands wild, fun _ _ => rfl⟩)
  exact ⟨after, run, stands.bytes⟩

/-- A read of what a write of two stripes and a write of a block over its start
    left. -/
theorem serve_all_flat_three : ∃ after, serve_all defaultGeometry Isal.reference
      [.write ⟨⟨0, true, 4096, 0, 500000⟩, fun a => a⟩, .write ⟨⟨0, true, 8192, 0, 4096⟩, fun _ => 7⟩,
        .read ⟨⟨0, false, 4096, 0, 65536⟩, fun _ => 0⟩]
      ⟨Store.fresh defaultGeometry (fun _ _ => 0) (fun _ => 0) (fun _ => 0), 0⟩ =
        some ((flat_all [.write ⟨⟨0, true, 4096, 0, 500000⟩, fun a => a⟩, .write ⟨⟨0, true, 8192, 0, 4096⟩, fun _ => 7⟩,
          .read ⟨⟨0, false, 4096, 0, 65536⟩, fun _ => 0⟩] (user_byte defaultGeometry fun _ _ => 0)).1, after) ∧
      ∀ x < defaultGeometry.USER_SPACE_LEN, user_byte defaultGeometry after.store.devs x =
        (flat_all [.write ⟨⟨0, true, 4096, 0, 500000⟩, fun a => a⟩, .write ⟨⟨0, true, 8192, 0, 4096⟩, fun _ => 7⟩,
          .read ⟨⟨0, false, 4096, 0, 65536⟩, fun _ => 0⟩] (user_byte defaultGeometry fun _ _ => 0)).2 x := by
  refine serve_all_flat Isal.reference ?_ _ _ _ _
  simp only [List.mem_cons, List.not_mem_nil, or_false, forall_eq_or_imp, forall_eq, Op.Served]
  decide +kernel

end Straid.ReadBack
