import Straid.StorageMod

/-!
What a read request fetches. `split_schunk` cuts every piece of a stripe into
parts of a chunk's length, from the start of the piece on and not from the start
of a chunk, so the parts are parts of chunks only when the piece starts with a
chunk or stays in one. For these requests the device reads fetch every byte
from its place once (`split_schunk_eq`, `read_exact`), as long as the ring has an
entry for each chunk; `raid_read_exact_iff` has that they do for no other request.
-/
namespace Straid.ReadPath
open LogFiles Metadata Split Decode StorageMod Cuts Overlays Rings

variable (g : Geometry)

/-- The bytes that device requests fetch: the device, the offset on it and the
    address in memory. -/
def fetches (dios : List DioInfo) : List (Int × Nat × Nat) :=
  dios.flatMap fun dio => (List.range dio.length).map fun i => (dio.dev_id, dio.dev_offset + i, dio.buf + i)

/-- The bytes of a request, each from the place that `user2dev` gives for it. -/
def wanted (uio : UioInfo) : List (Int × Nat × Nat) :=
  (List.range uio.length).map fun i =>
    ((user2dev g (uio.user_offset + i)).devid, (user2dev g (uio.user_offset + i)).converted_offset, uio.buf + i)

/-- Device requests read a user request: they fetch its bytes once each, none
    reaches past the end of a chunk, and with any device contents the bytes end
    up in the buffer and nothing else changes. -/
structure Exact (uio : UioInfo) (dios : List DioInfo) : Prop where
  once : (fetches dios).Perm (wanted g uio)
  in_chunk : ∀ dio ∈ dios, dio.dev_offset % g.SCHUNK_SIZE + dio.length ≤ g.SCHUNK_SIZE
  lands : ∀ (devs : Nat → Nat → Byte) (mem : Nat → Byte), ∃ after, s_norRead g devs dios mem = some after ∧
    (∀ i < uio.length, after (uio.buf + i) =
      devs (user2dev g (uio.user_offset + i)).devid.toNat (user2dev g (uio.user_offset + i)).converted_offset) ∧
    ∀ a, a < uio.buf ∨ uio.buf + uio.length ≤ a → after a = mem a

/-- Where the cut from the start of the piece is a cut into chunks: a request
    that starts with a chunk, that stays in one, or whose first stripe has no
    chunk after the one it starts in. -/
def Aligned (uio : UioInfo) : Prop :=
  g.SCHUNK_SIZE ∣ uio.user_offset ∨ (uio.user_offset + uio.length - 1) / g.SCHUNK_SIZE = uio.user_offset / g.SCHUNK_SIZE ∨
    chunkOf g uio.user_offset = g.DATACHUNK_NUM - 1

instance (uio : UioInfo) : Decidable (Aligned g uio) := inferInstanceAs (Decidable (_ ∨ _ ∨ _))

variable {g}

/-! ### The cut -/

/-- The loop, from chunk `K` on, for a piece that starts with a chunk. -/
theorem read_pieces_eq (uio : UioInfo) (positive : 0 < uio.length) (fits : uio.user_offset + uio.length < 2 ^ 64)
    (aligned : g.SCHUNK_SIZE ∣ uio.user_offset) (n K : Nat) (low : uio.user_offset / g.SCHUNK_SIZE ≤ K)
    (count : K + n = (uio.user_offset + uio.length - 1) / g.SCHUNK_SIZE + 1) :
    read_pieces g uio.user_id uio.is_write n (start g.SCHUNK_SIZE uio.user_offset K)
        (uio.buf + (start g.SCHUNK_SIZE uio.user_offset K - uio.user_offset))
        (uio.user_offset + uio.length - start g.SCHUNK_SIZE uio.user_offset K) =
      (List.range' K n).map (fun i => pieceOf uio (piece g.SCHUNK_SIZE uio.user_offset uio.length i)) := by
  have wide := g.chunk_pos
  have whole := Nat.div_mul_cancel aligned
  have aligned_start : ∀ J, uio.user_offset / g.SCHUNK_SIZE ≤ J → start g.SCHUNK_SIZE uio.user_offset J = J * g.SCHUNK_SIZE :=
    fun J le => by
      have := Nat.mul_le_mul_right g.SCHUNK_SIZE le
      unfold start
      omega
  induction n generalizing K with
  | zero => rfl
  | succ n ih =>
    have inside : start g.SCHUNK_SIZE uio.user_offset K < stop g.SCHUNK_SIZE uio.user_offset uio.length K :=
      piece_pos wide positive low (by omega)
    have here := aligned_start K low
    have request : uio.user_offset ≤ start g.SCHUNK_SIZE uio.user_offset K := Nat.le_max_left ..
    rw [read_pieces, List.range'_succ, List.map_cons]
    cases n with
    | zero =>
      -- The last chunk: the rest of the piece is not longer than a chunk.
      have last : stop g.SCHUNK_SIZE uio.user_offset uio.length K = uio.user_offset + uio.length := by
        rw [show K = (uio.user_offset + uio.length - 1) / g.SCHUNK_SIZE by omega]
        exact stop_last wide _ positive
      have high := piece_high g.SCHUNK_SIZE uio.user_offset uio.length K
      rw [if_neg (by omega)]
      simp only [read_pieces, List.range'_zero, List.map_nil, pieceOf, piece, last]
    | succ n =>
      have next : stop g.SCHUNK_SIZE uio.user_offset uio.length K = start g.SCHUNK_SIZE uio.user_offset (K + 1) ∧
          start g.SCHUNK_SIZE uio.user_offset (K + 1) = (K + 1) * g.SCHUNK_SIZE := stop_start wide low (by omega)
      have later : start g.SCHUNK_SIZE uio.user_offset (K + 1) < stop g.SCHUNK_SIZE uio.user_offset uio.length (K + 1) :=
        piece_pos wide positive (by omega) (by omega)
      have reach : stop g.SCHUNK_SIZE uio.user_offset uio.length (K + 1) ≤ uio.user_offset + uio.length :=
        Nat.min_le_left ..
      rw [Nat.succ_mul] at next
      rw [if_pos (by omega), ← ih (K + 1) (by omega) (by omega)]
      congr 1
      · simp only [pieceOf, piece]
        congr 1
        omega
      · congr 1
        · unfold u64; omega
        · omega
        · rw [u64_sub_small] <;> omega

/-- One round of the outer loop cuts a piece that starts with a chunk, or stays
    in one, at the multiples of the chunk size. -/
theorem split_schunk_stripe_eq {uio : UioInfo} {p : Nat × Nat} (positive : 0 < p.2) (fits : p.1 + p.2 < 2 ^ 63)
    (int : user2stripe g p.1 < 2 ^ 31) (one : user2stripe g (p.1 + p.2 - 1) = user2stripe g p.1)
    (aligned : g.SCHUNK_SIZE ∣ p.1 ∨ (p.1 + p.2 - 1) / g.SCHUNK_SIZE = p.1 / g.SCHUNK_SIZE) :
    split_schunk_stripe g uio (pieceOf uio p) = (cut g.SCHUNK_SIZE p.1 p.2).map (pieceOf (pieceOf uio p)) := by
  have wide := g.chunk_pos
  have low := dataDev_lt (g := g) (user2stripe g p.1) (chunkOf g p.1)
  have devices := g.devices_small
  have last : u64_sub (u64 (p.1 + p.2)) 1 = p.1 + p.2 - 1 := last_byte positive (by omega)
  unfold split_schunk_stripe
  simp only [pieceOf]
  have at_first := user2dev_eq (by omega) int
  have at_last := user2dev_eq (x := p.1 + p.2 - 1) (by omega) (by rw [one]; exact int)
  simp only [last, at_first, at_last]
  rw [device_rounds positive one]
  rcases aligned with aligned | stays
  · have loop := read_pieces_eq (pieceOf uio p) positive (by show p.1 + p.2 < _; omega) aligned
      (blocks g.SCHUNK_SIZE p.1 p.2) (p.1 / g.SCHUNK_SIZE) (Nat.le_refl _)
      (by have := block_order g.SCHUNK_SIZE p.1 positive; unfold blocks; simp only [pieceOf]; omega)
    simp only [pieceOf, start_first, Nat.sub_self, Nat.add_zero, Nat.add_sub_cancel_left] at loop
    rw [loop, cut, List.map_map]
    rfl
  · have count : blocks g.SCHUNK_SIZE p.1 p.2 = 1 := by unfold blocks; omega
    have short : ¬ p.2 > g.SCHUNK_SIZE := by
      have := block_low g.SCHUNK_SIZE p.1
      have := block_high wide (p.1 + p.2 - 1)
      rw [stays] at this
      omega
    rw [count, cut_one positive stays wide]
    simp [read_pieces, short, pieceOf]

/-- In an aligned request every piece of a stripe starts with a chunk or stays in
    one. -/
theorem aligned_piece {uio : UioInfo} (positive : 0 < uio.length) (aligned : Aligned g uio) {p : Nat × Nat}
    (member : p ∈ cut g.SSTRIPE_DATASIZE uio.user_offset uio.length) :
    g.SCHUNK_SIZE ∣ p.1 ∨ (p.1 + p.2 - 1) / g.SCHUNK_SIZE = p.1 / g.SCHUNK_SIZE := by
  obtain ⟨some_piece, low, high, one⟩ := cut_inside g.stripe_pos positive member
  have order : p.1 / g.SCHUNK_SIZE ≤ (p.1 + p.2 - 1) / g.SCHUNK_SIZE := Nat.div_le_div_right (by omega)
  rcases cut_first positive member with first | stripe
  · rcases aligned with chunk | stays | last
    · exact .inl (first ▸ chunk)
    · have most : (p.1 + p.2 - 1) / g.SCHUNK_SIZE ≤ (uio.user_offset + uio.length - 1) / g.SCHUNK_SIZE :=
        Nat.div_le_div_right (by omega)
      exact .inr (by rw [← first] at stays most; omega)
    · -- The chunk ends where the stripe does.
      have upto := block_high g.stripe_pos (p.1 + p.2 - 1)
      have chunk := chunk_split (g := g) p.1
      have many := g.data_many
      rw [one, ← user2stripe_eq, g.stripe_size] at upto
      rw [← first] at last
      have next : user2stripe g p.1 * (g.DATACHUNK_NUM * g.SCHUNK_SIZE) + g.DATACHUNK_NUM * g.SCHUNK_SIZE =
          (p.1 / g.SCHUNK_SIZE + 1) * g.SCHUNK_SIZE := by
        rw [← Nat.succ_mul, ← Nat.mul_assoc]
        congr 1
        rw [Nat.succ_mul]
        omega
      have below : (p.1 + p.2 - 1) / g.SCHUNK_SIZE < p.1 / g.SCHUNK_SIZE + 1 :=
        (Nat.div_lt_iff_lt_mul g.chunk_pos).mpr (by omega)
      exact .inr (by omega)
  · exact .inl (Nat.dvd_trans (Nat.dvd_mul_right ..) stripe)

/-- The chunks of an aligned request: every stripe is cut at the multiples of the
    chunk size. -/
def chunks (g : Geometry) (uio : UioInfo) : List (Nat × Nat) :=
  (cut g.SSTRIPE_DATASIZE uio.user_offset uio.length).flatMap fun p => cut g.SCHUNK_SIZE p.1 p.2

theorem mem_chunks {uio : UioInfo} (positive : 0 < uio.length) {r : Nat × Nat} (member : r ∈ chunks g uio) :
    0 < r.2 ∧ uio.user_offset ≤ r.1 ∧ r.1 + r.2 ≤ uio.user_offset + uio.length ∧
      (r.1 + r.2 - 1) / g.SCHUNK_SIZE = r.1 / g.SCHUNK_SIZE := by
  obtain ⟨p, stripe, chunk⟩ := List.mem_flatMap.mp member
  have outer := cut_inside g.stripe_pos positive stripe
  have inner := cut_inside g.chunk_pos outer.1 chunk
  omega

theorem chunks_positions {uio : UioInfo} (positive : 0 < uio.length) :
    (chunks g uio).flatMap (fun r => List.range' r.1 r.2) = List.range' uio.user_offset uio.length := by
  rw [chunks, List.flatMap_assoc, ← cut_positions g.stripe_pos _ positive]
  refine List.flatMap_congr fun p member => ?_
  exact cut_positions g.chunk_pos _ (cut_inside g.stripe_pos positive member).1

theorem split_schunk_eq {uio : UioInfo} (valid : uio.Valid g) (aligned : Aligned g uio) :
    split_schunk g uio = (chunks g uio).map (pieceOf uio) := by
  have user := valid.user
  have signed := g.user_signed
  have positive := valid.positive
  rw [split_schunk, split_stripe_aligned_valid valid, List.flatMap_map, chunks, List.map_flatMap]
  refine List.flatMap_congr fun p member => ?_
  obtain ⟨some_piece, low, high, one⟩ := cut_inside g.stripe_pos positive member
  rw [split_schunk_stripe_eq some_piece (by omega) (table_bounds (user_entry (by omega))).1
    (by rw [user2stripe_eq, user2stripe_eq, one]) (aligned_piece positive aligned member)]
  refine List.map_congr_left fun r inside => ?_
  have after := (cut_inside g.chunk_pos some_piece inside).2.1
  simp only [pieceOf]
  congr 1
  omega

/-! ### The fetches -/

/-- The device request of one chunk. -/
def chunkDio (g : Geometry) (uio : UioInfo) (r : Nat × Nat) (req_id : Nat) : DioInfo :=
  ⟨devOf g r.1, uio.buf + (r.1 - uio.user_offset), devoffOf g r.1, r.2, req_id⟩

theorem s_uio2id_dio_eq {uio : UioInfo} (valid : uio.Valid g) {r : Nat × Nat} (member : r ∈ chunks g uio) (req_id : Nat) :
    s_uio2id_dio g (pieceOf uio r) req_id = some (chunkDio g uio r req_id) := by
  have user := valid.user
  have buffer := valid.buffer
  have inside := mem_chunks valid.positive member
  exact checked_dio_eq _ (by simp only [pieceOf]; omega) (by simp only [pieceOf]; omega) req_id

theorem read_dios_eq {uio : UioInfo} (valid : uio.Valid g) (aligned : Aligned g uio) (read_req_id : Nat) :
    read_dios g read_req_id uio =
      some ((chunks g uio).zipIdx.map fun p => chunkDio g uio p.1 (u64 (u64 (read_req_id + p.2) + 1))) := by
  rw [read_dios, split_schunk_eq valid aligned, List.zipIdx_map]
  refine mapM_some fun p member => ?_
  exact s_uio2id_dio_eq valid (List.fst_mem_of_mem_zipIdx member) _

/-- A read has a device request for each chunk that it touches. -/
theorem read_dios_length {uio : UioInfo} (valid : uio.Valid g) {read_req_id : Nat} {dios : List DioInfo}
    (split : read_dios g read_req_id uio = some dios) : dios.length = touched_chunks g uio := by
  rw [← split_schunk_length valid, mapM_length split, List.length_zipIdx]

theorem wanted_eq {uio : UioInfo} (valid : uio.Valid g) : wanted g uio =
    (List.range' uio.user_offset uio.length).map fun x =>
      (((devOf g x : Nat) : Int), devoffOf g x, uio.buf + (x - uio.user_offset)) := by
  have user := valid.user
  rw [wanted, List.range'_eq_map_range, List.map_map]
  refine List.map_congr_left fun i member => ?_
  rw [List.mem_range] at member
  simp only [Function.comp_apply, user2dev_user (g := g) (x := uio.user_offset + i) (by omega),
    Nat.add_sub_cancel_left]

theorem zipIdx_flatMap {α β : Type*} (f : α → List β) (xs : List α) :
    xs.zipIdx.flatMap (fun p => f p.1) = xs.flatMap f := by
  rw [← List.flatMap_map Prod.fst f, List.zipIdx_map_fst]

theorem fetches_eq {uio : UioInfo} (valid : uio.Valid g) (req_id : Nat → Nat) :
    fetches ((chunks g uio).zipIdx.map fun p => chunkDio g uio p.1 (req_id p.2)) = wanted g uio := by
  rw [wanted_eq valid, ← chunks_positions valid.positive, List.map_flatMap, fetches, List.flatMap_map]
  refine (zipIdx_flatMap (fun r : Nat × Nat => (List.range r.2).map fun i =>
    (((devOf g r.1 : Nat) : Int), devoffOf g r.1 + i, uio.buf + (r.1 - uio.user_offset) + i)) _).trans ?_
  refine List.flatMap_congr fun r member => ?_
  obtain ⟨_, low, _, one⟩ := mem_chunks valid.positive member
  simp only [Nat.add_assoc uio.buf]
  exact chunk_places (fun dev off k => (((dev : Nat) : Int), off, uio.buf + k)) low one

/-- A cell that the reads cover is one of the fetched bytes. -/
theorem covers_fetch {devs : Nat → Nat → Byte} {dio : DioInfo} {a : Nat} (covers : (readWrite devs dio).Covers () a) :
    (dio.dev_id, dio.dev_offset + (a - dio.buf), a) ∈
      (List.range dio.length).map fun i => (dio.dev_id, dio.dev_offset + i, dio.buf + i) := by
  obtain ⟨_, low, high⟩ := covers
  simp only [readWrite] at low high
  refine List.mem_map.mpr ⟨a - dio.buf, List.mem_range.mpr (by omega), ?_⟩
  rw [Nat.add_sub_cancel' low]

/-- Device requests that fetch the bytes of a request put them into its buffer
    and change nothing else. -/
theorem lands_of_fetches {uio : UioInfo} {dios : List DioInfo}
    (devices : ∀ dio ∈ dios, ∃ dev < g.NUM_DEVFILES, dio.dev_id = (dev : Nat)) (few : dios.length ≤ RING_QD)
    (fetched : fetches dios = wanted g uio) (devs : Nat → Nat → Byte) (mem : Nat → Byte) :
    ∃ after, s_norRead g devs dios mem = some after ∧
      (∀ i < uio.length, after (uio.buf + i) =
        devs (user2dev g (uio.user_offset + i)).devid.toNat (user2dev g (uio.user_offset + i)).converted_offset) ∧
      ∀ a, a < uio.buf ∨ uio.buf + uio.length ≤ a → after a = mem a := by
  have covered : ∀ dio ∈ dios, ∀ a, (readWrite devs dio).Covers () a →
      ∃ i < uio.length, dio.dev_id = (user2dev g (uio.user_offset + i)).devid ∧
        dio.dev_offset + (a - dio.buf) = (user2dev g (uio.user_offset + i)).converted_offset ∧ a = uio.buf + i := by
    intro dio member a covers
    have fetch : (dio.dev_id, dio.dev_offset + (a - dio.buf), a) ∈ fetches dios :=
      List.mem_flatMap.mpr ⟨dio, member, covers_fetch covers⟩
    rw [fetched, wanted, List.mem_map] at fetch
    obtain ⟨i, low, same⟩ := fetch
    simp only [Prod.mk.injEq] at same
    exact ⟨i, List.mem_range.mp low, same.1.symm, same.2.1.symm, same.2.2.symm⟩
  refine ⟨_, read_all_eq devs devices (by omega) mem, fun i low => applyAll_covered ?_ ?_ _, fun a out => applyAll_frame ?_ _⟩
  · have want : ((user2dev g (uio.user_offset + i)).devid, (user2dev g (uio.user_offset + i)).converted_offset,
        uio.buf + i) ∈ fetches dios := by
      rw [fetched]
      exact List.mem_map.mpr ⟨i, List.mem_range.mpr low, rfl⟩
    obtain ⟨dio, member, fetch⟩ := List.mem_flatMap.mp want
    obtain ⟨k, short, same⟩ := List.mem_map.mp fetch
    simp only [Prod.mk.injEq] at same
    rw [List.mem_range] at short
    exact ⟨readWrite devs dio, List.mem_map_of_mem member, rfl, by simp only [readWrite]; omega,
      by simp only [readWrite]; omega⟩
  · intro w member covers
    obtain ⟨dio, there, rfl⟩ := List.mem_map.mp member
    obtain ⟨j, _, device, offset, address⟩ := covered dio there _ covers
    have same : i = j := by omega
    subst same
    simp only [readWrite, device, offset]
  · intro w member covers
    obtain ⟨dio, there, rfl⟩ := List.mem_map.mp member
    obtain ⟨j, short, _, _, address⟩ := covered dio there _ covers
    omega

theorem read_exact {uio : UioInfo} (valid : uio.Valid g) (aligned : Aligned g uio)
    (few : touched_chunks g uio ≤ RING_QD) (read_req_id : Nat) :
    ∃ dios, read_dios g read_req_id uio = some dios ∧ Exact g uio dios := by
  have fetched := fetches_eq valid fun i => u64 (u64 (read_req_id + i) + 1)
  have split := read_dios_eq valid aligned read_req_id
  refine ⟨_, split, List.Perm.of_eq fetched, ?_, ?_⟩
  · intro dio member
    obtain ⟨p, there, rfl⟩ := List.mem_map.mp member
    obtain ⟨some_piece, _, _, one⟩ := mem_chunks valid.positive (List.fst_mem_of_mem_zipIdx there)
    have upto := block_high g.chunk_pos (p.1.1 + p.1.2 - 1)
    have := Nat.div_add_mod' p.1.1 g.SCHUNK_SIZE
    rw [one] at upto
    simp only [chunkDio, devoffOf, Nat.mul_add_mod_self_right, Nat.mod_mod]
    omega
  · refine lands_of_fetches ?_ (by rwa [read_dios_length valid split]) fetched
    intro dio member
    obtain ⟨p, _, rfl⟩ := List.mem_map.mp member
    exact ⟨devOf g p.1.1, dataDev_lt .., rfl⟩

/-! ### Requests that are not aligned -/

/-- The first device request of a request that is not aligned reaches past the
    end of its chunk. -/
theorem head_crosses {uio : UioInfo} (valid : uio.Valid g) (not : ¬ Aligned g uio) :
    ∃ length rest, split_schunk g uio = ⟨uio.user_id, uio.is_write, uio.buf, uio.user_offset, length⟩ :: rest ∧
      g.SCHUNK_SIZE < uio.user_offset % g.SCHUNK_SIZE + length := by
  have user := valid.user
  have signed := g.user_signed
  have positive := valid.positive
  have int := fun x (low : x < g.USER_SPACE_LEN) => (table_bounds (user_entry (g := g) low)).1
  obtain ⟨rest, head⟩ := cut_head g.SSTRIPE_DATASIZE uio.user_offset positive
  unfold Aligned at not
  push Not at not
  obtain ⟨within, crosses, more⟩ := not
  have remainder : 0 < uio.user_offset % g.SCHUNK_SIZE :=
    Nat.pos_of_ne_zero fun zero => within (Nat.dvd_of_mod_eq_zero zero)
  have split := Nat.div_add_mod' uio.user_offset g.SCHUNK_SIZE
  -- The first piece of the request goes on after the chunk it starts in.
  have long : (uio.user_offset / g.SCHUNK_SIZE + 1) * g.SCHUNK_SIZE <
      stop g.SSTRIPE_DATASIZE uio.user_offset uio.length (uio.user_offset / g.SSTRIPE_DATASIZE) := by
    have later : uio.user_offset / g.SCHUNK_SIZE + 1 ≤ (uio.user_offset + uio.length - 1) / g.SCHUNK_SIZE := by
      have order := block_order g.SCHUNK_SIZE uio.user_offset positive
      omega
    have request := (Nat.le_div_iff_mul_le g.chunk_pos).mp later
    have chunk := chunk_split (g := g) uio.user_offset
    have lt := chunkOf_lt (g := g) uio.user_offset
    have stripe : (uio.user_offset / g.SCHUNK_SIZE + 1 + 1) * g.SCHUNK_SIZE ≤
        uio.user_offset / g.SSTRIPE_DATASIZE * g.SSTRIPE_DATASIZE + g.SSTRIPE_DATASIZE := by
      rw [← user2stripe_eq, g.stripe_size]
      calc (uio.user_offset / g.SCHUNK_SIZE + 1 + 1) * g.SCHUNK_SIZE
          ≤ (user2stripe g uio.user_offset * g.DATACHUNK_NUM + g.DATACHUNK_NUM) * g.SCHUNK_SIZE :=
            Nat.mul_le_mul_right _ (by omega)
        _ = _ := by ring
    have wide := g.chunk_pos
    rw [Nat.succ_mul] at stripe
    unfold stop
    omega
  have beyond : (uio.user_offset / g.SCHUNK_SIZE + 1) * g.SCHUNK_SIZE < uio.user_offset +
      (stop g.SSTRIPE_DATASIZE uio.user_offset uio.length (uio.user_offset / g.SSTRIPE_DATASIZE) - uio.user_offset) := by
    omega
  have member : (uio.user_offset, _) ∈ cut g.SSTRIPE_DATASIZE uio.user_offset uio.length := head ▸ List.mem_cons_self
  obtain ⟨some_piece, _, upto, one⟩ := cut_inside g.stripe_pos positive member
  rw [split_schunk, split_stripe_aligned_valid valid, head, List.map_cons, List.flatMap_cons]
  simp only at some_piece upto one
  generalize stop g.SSTRIPE_DATASIZE uio.user_offset uio.length (uio.user_offset / g.SSTRIPE_DATASIZE) -
    uio.user_offset = length at *
  rw [← user2stripe_eq, ← user2stripe_eq] at one
  obtain ⟨n, rounds⟩ := Nat.exists_eq_succ_of_ne_zero
    (Nat.pos_iff_ne_zero.mp (blocks_pos g.SCHUNK_SIZE uio.user_offset some_piece))
  have last : u64_sub (u64 (uio.user_offset + length)) 1 = uio.user_offset + length - 1 := last_byte some_piece (by omega)
  have at_first := user2dev_eq (x := uio.user_offset) (by omega) (int _ (by omega))
  have at_last := user2dev_eq (x := uio.user_offset + length - 1) (by omega) (by rw [one]; exact int _ (by omega))
  unfold split_schunk_stripe
  simp only [pieceOf, last, at_first, at_last]
  rw [device_rounds some_piece one, rounds, read_pieces, Nat.sub_self, Nat.add_zero]
  split
  · exact ⟨g.SCHUNK_SIZE, _, rfl, by omega⟩
  · exact ⟨length, _, rfl, by rw [Nat.succ_mul] at beyond; omega⟩

theorem aligned_of_exact {uio : UioInfo} (valid : uio.Valid g) {read_req_id : Nat} {dios : List DioInfo}
    (split : read_dios g read_req_id uio = some dios) (exact : Exact g uio dios) : Aligned g uio := by
  by_contra not
  obtain ⟨length, rest, head, crosses⟩ := head_crosses valid not
  have user := valid.user
  have positive := valid.positive
  have first := checked_dio_eq (g := g) ⟨uio.user_id, uio.is_write, uio.buf, uio.user_offset, length⟩
    valid.buffer (by simp only; omega)
  rw [read_dios, head, List.zipIdx_cons, List.mapM_cons] at split
  simp only [s_uio2id_dio, first, Option.bind_eq_bind, Option.bind_some, Option.bind_eq_some_iff] at split
  obtain ⟨tail, _, same⟩ := split
  have member : DioInfo.mk (devOf g uio.user_offset) uio.buf (devoffOf g uio.user_offset) length _ ∈ dios :=
    Option.some.inj same ▸ List.mem_cons_self
  have inside := exact.in_chunk _ member
  simp only [devoffOf, Nat.mul_add_mod_self_right, Nat.mod_mod] at inside
  omega

/-- Device requests that are read had their entries of the ring. -/
theorem few_of_exact {uio : UioInfo} {dios : List DioInfo} (exact : Exact g uio dios) : dios.length ≤ RING_QD := by
  obtain ⟨_, read, _⟩ := exact.lands (fun _ _ => 0) fun _ => 0
  have few := read_all_room _ (Nat.zero_le RING_QD) read
  omega

/-- `raid_read` reads a request exactly when it is aligned and the ring has an entry
    for each chunk that it touches. -/
theorem raid_read_exact_iff {uio : UioInfo} (valid : uio.Valid g) :
    (∀ read_req_id, ∃ dios, read_dios g read_req_id uio = some dios ∧ Exact g uio dios) ↔
      Aligned g uio ∧ touched_chunks g uio ≤ RING_QD := by
  refine ⟨fun reads => ?_, fun ⟨aligned, few⟩ read_req_id => read_exact valid aligned few read_req_id⟩
  obtain ⟨dios, split, exact⟩ := reads 0
  exact ⟨aligned_of_exact valid split exact, read_dios_length valid split ▸ few_of_exact exact⟩

/-- A read of a whole stripe and a part of the next. -/
theorem raid_read_aligned : ∃ dios, read_dios defaultGeometry 0 ⟨0, false, 4096, 0, 500000⟩ = some dios ∧
    Exact defaultGeometry ⟨0, false, 4096, 0, 500000⟩ dios :=
  (raid_read_exact_iff (by decide)).mpr (by decide) 0

/-- A read of 64 KB from the second block of a chunk on. -/
theorem raid_read_unaligned : UioInfo.Valid defaultGeometry ⟨0, false, 4096, 4096, 65536⟩ ∧
    ¬ ∀ read_req_id, ∃ dios, read_dios defaultGeometry read_req_id ⟨0, false, 4096, 4096, 65536⟩ = some dios ∧
      Exact defaultGeometry ⟨0, false, 4096, 4096, 65536⟩ dios := by
  have valid : UioInfo.Valid defaultGeometry ⟨0, false, 4096, 4096, 65536⟩ := by decide
  refine ⟨valid, fun reads => ?_⟩
  obtain ⟨dios, split, exact⟩ := reads 0
  exact absurd (aligned_of_exact valid split exact) (by decide)

end Straid.ReadPath
