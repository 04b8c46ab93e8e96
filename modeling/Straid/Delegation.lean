import Straid.StorageMod

/-!
A piece of a request that is delegated to the thread that holds the lock of its
stripe. The delegated request is one device request of the length of the piece
(`s_uio2dio`), the direct path has one for each chunk (`split_chunk2dio`). The
direct path puts every byte at its place (`direct_placed`);
`delegated_same_iff` has that the delegated one does so exactly when the piece
is inside one chunk.
-/
namespace Straid.Delegation
open LogFiles Metadata Split Encode EcEncoder Cuts Overlays

variable (g : Geometry)

/-- The bytes that writes store: the device, the offset on it and the value. -/
def stores (ws : List DeviceWrite) : List (Nat × Nat × Byte) :=
  ws.flatMap fun w => (List.range w.len).map fun i => (w.array, w.off + i, w.data i)

/-- The bytes of a piece, each at the place that `user2dev` gives for it. -/
def placed (mem : Nat → Byte) (piece : UioInfo) : List (Nat × Nat × Byte) :=
  (List.range piece.length).map fun i =>
    ((user2dev g (piece.user_offset + i)).devid.toNat, (user2dev g (piece.user_offset + i)).converted_offset,
      mem (piece.buf + i))

/-- The data writes of a piece on the direct path. -/
def direct (mem : Nat → Byte) (piece : UioInfo) : Option (List DeviceWrite) := do
  let v_dios ← split_chunk2dio g piece
  data_writes g mem v_dios

/-- The data writes of the holder of the lock for a delegated piece. -/
def delegated (mem : Nat → Byte) (piece : UioInfo) : Option (List DeviceWrite) := do
  let dio ← s_uio2dio g piece
  data_writes g mem [dio]

/-- A delegated piece means the same as a direct one: the writes store every
    byte at its place, as the direct ones do, and stay in the row of the
    stripe. -/
def SameMeaning (piece : UioInfo) : Prop :=
  ∀ mem : Nat → Byte, ∃ ds us, direct g mem piece = some ds ∧ delegated g mem piece = some us ∧
    (stores us).Perm (placed g mem piece) ∧ (stores us).Perm (stores ds) ∧
    ∀ t ∈ stores us, user2stripe g piece.user_offset * g.SCHUNK_SIZE ≤ t.2.1 ∧
      t.2.1 < user2stripe g piece.user_offset * g.SCHUNK_SIZE + g.SCHUNK_SIZE

variable {g}

theorem placed_eq {piece : UioInfo} (one : OneStripe g piece) (mem : Nat → Byte) : placed g mem piece =
    (List.range' piece.user_offset piece.length).map fun x =>
      (devOf g x, devoffOf g x, mem (piece.buf + (x - piece.user_offset))) := by
  have user := one.user
  rw [placed, List.range'_eq_map_range, List.map_map]
  refine List.map_congr_left fun i member => ?_
  rw [List.mem_range] at member
  simp only [Function.comp_apply, user2dev_user (g := g) (x := piece.user_offset + i) (by omega),
    Nat.add_sub_cancel_left, Int.toNat_natCast]

theorem placed_row {piece : UioInfo} (one : OneStripe g piece) (mem : Nat → Byte) :
    ∀ t ∈ placed g mem piece, user2stripe g piece.user_offset * g.SCHUNK_SIZE ≤ t.2.1 ∧
      t.2.1 < user2stripe g piece.user_offset * g.SCHUNK_SIZE + g.SCHUNK_SIZE := by
  intro t member
  rw [placed_eq one] at member
  obtain ⟨x, inside, rfl⟩ := List.mem_map.mp member
  rw [List.mem_range'_1] at inside
  have low : user2stripe g piece.user_offset ≤ user2stripe g x := by
    rw [user2stripe_eq, user2stripe_eq]
    exact Nat.div_le_div_right inside.1
  have high : user2stripe g x ≤ user2stripe g (piece.user_offset + piece.length - 1) := by
    rw [user2stripe_eq, user2stripe_eq]
    exact Nat.div_le_div_right (by omega)
  have same : user2stripe g x = user2stripe g piece.user_offset := by
    have := one.one
    omega
  exact same ▸ devoffOf_row x

theorem direct_placed {piece : UioInfo} (one : OneStripe g piece) (mem : Nat → Byte) :
    ∃ ds, direct g mem piece = some ds ∧ stores ds = placed g mem piece := by
  refine ⟨piece_writes g mem piece, ?_, ?_⟩
  · rw [direct, split_chunk2dio_piece one]
    exact data_writes_piece mem piece
  · rw [placed_eq one, ← cut_positions g.chunk_pos _ one.positive, List.map_flatMap, stores, piece_writes,
      List.flatMap_map]
    refine List.flatMap_congr fun r member => ?_
    obtain ⟨_, low, _, chunk⟩ := cut_inside g.chunk_pos one.positive member
    simp only [pieceWrite, shift, Nat.add_assoc piece.buf]
    exact chunk_places (fun dev off k => (dev, off, mem (piece.buf + k))) low chunk

/-- The delegated writes of a piece: one, from the place of its first byte on. -/
theorem delegated_eq {piece : UioInfo} (one : OneStripe g piece) (mem : Nat → Byte) : delegated g mem piece =
    some [⟨devOf g piece.user_offset, devoffOf g piece.user_offset, piece.length, shift mem piece.buf⟩] := by
  have user := one.user
  have positive := one.positive
  rw [delegated, s_uio2dio, checked_dio_eq _ one.buffer (by omega)]
  simp only [Option.bind_eq_bind, Option.bind_some, data_writes, List.mapM_cons, List.mapM_nil]
  rw [iouring_wprep_eq (devOf_lt _)]
  rfl

/-- A delegated piece inside one chunk is written as a direct one. -/
theorem delegated_same {piece : UioInfo} (one : OneStripe g piece)
    (chunk : (piece.user_offset + piece.length - 1) / g.SCHUNK_SIZE = piece.user_offset / g.SCHUNK_SIZE) :
    SameMeaning g piece := by
  intro mem
  obtain ⟨ds, direct, direct_stores⟩ := direct_placed one mem
  have same : stores [⟨devOf g piece.user_offset, devoffOf g piece.user_offset, piece.length, shift mem piece.buf⟩] =
      placed g mem piece := by
    have places := chunk_places (fun dev off k => (dev, off, mem (piece.buf + k)))
      (r := (piece.user_offset, piece.length)) (Nat.le_refl _) chunk
    rw [placed_eq one, ← places]
    simp [stores, shift]
  refine ⟨ds, _, direct, delegated_eq one mem, ?_, ?_, ?_⟩
  · rw [same]
  · rw [same, direct_stores]
  · rw [same]
    exact placed_row one mem

/-- A delegated piece that means the same as the direct one is inside one
    chunk: the first byte of the next chunk would be stored past the row. -/
theorem chunk_of_same {piece : UioInfo} (one : OneStripe g piece) (same : SameMeaning g piece) :
    (piece.user_offset + piece.length - 1) / g.SCHUNK_SIZE = piece.user_offset / g.SCHUNK_SIZE := by
  have order := block_order g.SCHUNK_SIZE piece.user_offset one.positive
  have split := Nat.div_add_mod' piece.user_offset g.SCHUNK_SIZE
  have short := Nat.mod_lt piece.user_offset g.chunk_pos
  by_contra other
  have next : piece.user_offset / g.SCHUNK_SIZE + 1 ≤ (piece.user_offset + piece.length - 1) / g.SCHUNK_SIZE := by omega
  have reach := (Nat.le_div_iff_mul_le g.chunk_pos).mp next
  rw [Nat.succ_mul] at reach
  obtain ⟨ds, us, _, writes, _, _, row⟩ := same fun _ => 0
  obtain rfl := Option.some.inj ((delegated_eq one _).symm.trans writes)
  have past := row (devOf g piece.user_offset,
    devoffOf g piece.user_offset + (g.SCHUNK_SIZE - piece.user_offset % g.SCHUNK_SIZE), 0) (by
      refine List.mem_flatMap.mpr ⟨_, List.mem_cons_self, List.mem_map.mpr
        ⟨g.SCHUNK_SIZE - piece.user_offset % g.SCHUNK_SIZE, List.mem_range.mpr ?_, rfl⟩⟩
      simp only
      omega)
  simp only [devoffOf] at past
  omega

/-- A piece of a request means the same delegated as direct exactly when it is
    inside one chunk. -/
theorem delegated_same_iff {uio piece : UioInfo} (valid : uio.Valid g) (member : piece ∈ split_stripe_aligned g uio) :
    SameMeaning g piece ↔
      (piece.user_offset + piece.length - 1) / g.SCHUNK_SIZE = piece.user_offset / g.SCHUNK_SIZE :=
  ⟨chunk_of_same (piece_oneStripe valid member), delegated_same (piece_oneStripe valid member)⟩

/-- A piece of 4 KB in the middle of a chunk. -/
theorem delegated_same_block : SameMeaning defaultGeometry ⟨0, true, 4096, 8192, 4096⟩ := by
  have valid : UioInfo.Valid defaultGeometry ⟨0, true, 4096, 8192, 4096⟩ := by decide
  exact (delegated_same_iff valid (by decide +kernel)).mpr (by decide)

/-- A piece of two chunks. -/
theorem delegated_two_chunks : UioInfo.Valid defaultGeometry ⟨0, true, 4096, 0, 131072⟩ ∧
    ⟨0, true, 4096, 0, 131072⟩ ∈ split_stripe_aligned defaultGeometry ⟨0, true, 4096, 0, 131072⟩ ∧
    ¬ SameMeaning defaultGeometry ⟨0, true, 4096, 0, 131072⟩ := by
  have valid : UioInfo.Valid defaultGeometry ⟨0, true, 4096, 0, 131072⟩ := by decide
  have member : ⟨0, true, 4096, 0, 131072⟩ ∈ split_stripe_aligned defaultGeometry ⟨0, true, 4096, 0, 131072⟩ := by
    decide +kernel
  exact ⟨valid, member, fun same => absurd (chunk_of_same (piece_oneStripe valid member) same) (by decide)⟩

end Straid.Delegation
