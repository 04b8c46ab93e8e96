import Straid.Syndromes

/-!
`do_part_encode` against a full encoding of the updated chunks. With one parity
chunk the loop adds the differences of the updates to the parity
(`part_encode_loop_delta`), as the updates do to that of the chunks
(`column_applyAll`), so the parity at the end is that of the updated chunks
(`do_part_encode_xor`). With two, an update multiplies the parities by powers of the
generator as if they were data (`part_encode_loop_same`, for an update that
changes nothing), so any update of a byte breaks some contents (`exact_empty`).
-/
namespace Straid.DeltaEncoding
open EcEncoder Overlays XorSums Syndromes

/-- The update of a range of a chunk to new bytes. -/
abbrev Update := Write Nat Byte

/-- The range of an update: its chunk, its offset in the chunk and its length. -/
structure ChunkRange where
  chunk : Nat
  offset : Nat
  length : Nat
  deriving DecidableEq, Repr

def ChunkRange.Has (r : ChunkRange) (q : Nat) : Prop := r.offset ≤ q ∧ q < r.offset + r.length

instance (r : ChunkRange) (q : Nat) : Decidable (r.Has q) := inferInstanceAs (Decidable (_ ∧ _))

def rangeOf (u : Update) : ChunkRange := ⟨u.array, u.off, u.len⟩

variable (g : Geometry) (isal : Isal)

/-- Ranges of updates of `D` chunks: inside their chunks, no two with a byte in
    common. -/
structure Separate (D : Nat) (ranges : List ChunkRange) : Prop where
  chunk : ∀ r ∈ ranges, r.chunk < D
  inside : ∀ r ∈ ranges, r.offset + r.length ≤ g.SCHUNK_SIZE
  disjoint : ranges.Pairwise fun r s => r.chunk = s.chunk → ∀ q, ¬ (r.Has q ∧ s.Has q)

/-- The buffers from number `i` on hold the old and the new bytes of the
    updates. -/
def Hold (chunks : Nat → Buf) (updates : List Update) (i : Nat) (oridatabufs newdatabufs : Nat → Buf) : Prop :=
  ∀ n u, updates[n]? = some u → ∀ k < u.len,
    oridatabufs (i + n) k = chunks u.array (u.off + k) ∧ newdatabufs (i + n) k = u.data k

/-- The bytes of `D` chunks at one position. -/
def column (D : Nat) (chunks : Nat → Buf) (q : Nat) : List Byte := (List.range D).map fun c => chunks c q

/-- The call for a list of updates. -/
def encode_updates (oridatabufs newdatabufs tempbufs paritybufs : Nat → Buf) (updates : List Update) :
    Option ((Nat → Buf) × (Nat → Buf)) :=
  do_part_encode g isal oridatabufs newdatabufs tempbufs paritybufs (updates.map Write.off) (updates.map Write.len)

/-- With two parity chunks: whatever the chunks and the updates of these ranges
    contain, from parity buffers that `pq_gen` makes of the chunks the call makes
    those of the updated chunks. -/
def Exact (ranges : List ChunkRange) : Prop :=
  ∀ updates : List Update, updates.map rangeOf = ranges →
    ∀ chunks oridatabufs newdatabufs tempbufs paritybufs : Nat → Buf, Hold chunks updates 0 oridatabufs newdatabufs →
      (∀ q < g.SCHUNK_SIZE, paritybufs 0 q = xorSum (column g.DATACHUNK_NUM chunks q) ∧
        paritybufs 1 q = qSyndrome (column g.DATACHUNK_NUM chunks q)) →
      ∃ temp par, encode_updates g isal oridatabufs newdatabufs tempbufs paritybufs updates = some (temp, par) ∧
        ∀ q < g.SCHUNK_SIZE, par 0 q = xorSum (column g.DATACHUNK_NUM (applyAll chunks updates) q) ∧
          par 1 q = qSyndrome (column g.DATACHUNK_NUM (applyAll chunks updates) q)

variable {g}

theorem encode_updates_loop (oridatabufs newdatabufs tempbufs paritybufs : Nat → Buf) (updates : List Update) :
    encode_updates g isal oridatabufs newdatabufs tempbufs paritybufs updates =
      part_encode_loop g isal oridatabufs newdatabufs (updates.map fun u => (u.off, u.len)) 0 tempbufs paritybufs := by
  rw [encode_updates, do_part_encode, List.zip_map']

/-! ### One parity chunk -/

/-- What the updates from number `i` on add to the parity of position `q`: the
    differences of their old and new bytes there. -/
def delta (old new : Nat → Buf) (q : Nat) : Nat → List (Nat × Nat) → Byte
  | _, [] => 0
  | i, (offset, length) :: rest =>
    (if offset ≤ q ∧ q < offset + length then old i (q - offset) ^^^ new i (q - offset) else 0) ^^^
      delta old new q (i + 1) rest

/-- What the two calls of `xor_gen` of an update leave in the range. -/
theorem delta_byte (old new temp par : Buf) {k len : Nat} (inside : k < len) :
    isal.xor_gen [isal.xor_gen [old, new, temp] len, par, par] len k = par k ^^^ (old k ^^^ new k) := by
  have first := isal.xor_gen_spec [old, new] temp len k (by simp)
  have second := isal.xor_gen_spec [isal.xor_gen [old, new, temp] len, par] par len k (by simp)
  simp only [List.cons_append, List.nil_append, inside, ↓reduceIte, List.map_cons, List.map_nil, xorSum_cons,
    xorSum_nil] at first second
  have bare : ∀ x : Byte, x ^^^ 0 = x := fun _ => BitVec.xor_zero
  rw [second, first, bare, bare, BitVec.xor_comm]

/-- The loop with one parity chunk adds the differences of all updates to the
    parity: no update that fits ends it. -/
theorem part_encode_loop_delta (one : g.PARITYCHUNK_NUM = 1) {updates : List (Nat × Nat)}
    (inside : ∀ u ∈ updates, u.1 + u.2 ≤ g.SCHUNK_SIZE) (old new : Nat → Buf) (i : Nat) (temp par : Nat → Buf) :
    ∃ temp' par', part_encode_loop g isal old new updates i temp par = some (temp', par') ∧
      ∀ q, par' 0 q = par 0 q ^^^ delta old new q i updates := by
  induction updates generalizing i temp par with
  | nil => exact ⟨temp, par, rfl, fun q => BitVec.xor_zero.symm⟩
  | cons u updates ih =>
    obtain ⟨offset, length⟩ := u
    have small := g.chunk_int
    have within := inside _ List.mem_cons_self
    have fits : ¬ u64 (offset + length) > g.SCHUNK_SIZE := by rw [u64_small (by omega)]; omega
    simp only [part_encode_loop, one, ↓reduceIte, fits]
    obtain ⟨temp', par', loop, later⟩ := ih (fun v member => inside v (List.mem_cons_of_mem _ member)) (i + 1) _ _
    refine ⟨temp', par', loop, ?_⟩
    intro q
    rw [later q, Function.update_self, delta, ← BitVec.xor_assoc]
    congr 1
    by_cases range : offset ≤ q ∧ q < offset + length
    · rw [overlay_inside range.1 range.2, if_pos range, delta_byte isal _ _ _ _ (by omega), shift,
        Nat.add_sub_cancel' range.1]
    · rw [overlay_outside (by omega), if_neg range]
      exact BitVec.xor_zero.symm

/-- Updates that change no byte at a position add nothing to its parity. -/
theorem delta_same {old new : Nat → Buf} {q i : Nat} {updates : List (Nat × Nat)}
    (same : ∀ n u, updates[n]? = some u → u.1 ≤ q → q < u.1 + u.2 → old (i + n) (q - u.1) = new (i + n) (q - u.1)) :
    delta old new q i updates = 0 := by
  induction updates generalizing i with
  | nil => rfl
  | cons u updates ih =>
    obtain ⟨offset, length⟩ := u
    have rest : delta old new q (i + 1) updates = 0 := by
      apply ih
      intro n v at_n low high
      have bytes := same (n + 1) v (by simpa using at_n) low high
      rwa [← Nat.add_assoc, Nat.add_right_comm] at bytes
    rw [delta, rest]
    split
    · next range =>
      have bytes := same 0 _ rfl range.1 range.2
      rw [Nat.add_zero] at bytes
      simp only at bytes
      rw [bytes, BitVec.xor_self]
      rfl
    · rfl

/-- An update changes the parity of the chunks by the difference of the bytes. -/
theorem column_apply {D : Nat} (chunks : Nat → Buf) {u : Update} (chunk : u.array < D) (q : Nat) :
    xorSum (column D (u.apply chunks) q) = xorSum (column D chunks q) ^^^
      (if u.off ≤ q ∧ q < u.off + u.len then chunks u.array q ^^^ u.data (q - u.off) else 0) := by
  by_cases inside : u.off ≤ q ∧ q < u.off + u.len
  · have here : u.apply chunks u.array q = u.data (q - u.off) := Write.apply_covered ⟨rfl, inside⟩
    rw [if_pos inside, ← here]
    apply xorSum_change List.nodup_range (List.mem_range.mpr chunk)
    intro c _ other
    exact Write.apply_frame fun covers => other covers.1.symm
  · rw [if_neg inside]
    refine Eq.trans ?_ BitVec.xor_zero.symm
    congr 1
    refine List.map_congr_left fun c _ => ?_
    exact Write.apply_frame fun covers => inside covers.2

/-- The buffers of the later updates hold their bytes after the first one too,
    as they have none in common. -/
theorem hold_rest {chunks : Nat → Buf} {u : Update} {updates : List Update} {i : Nat} {old new : Nat → Buf}
    (hold : Hold chunks (u :: updates) i old new)
    (apart : ∀ v ∈ updates, u.array = v.array → ∀ q, ¬ ((rangeOf u).Has q ∧ (rangeOf v).Has q)) :
    Hold (u.apply chunks) updates (i + 1) old new := by
  intro n v at_n k inside
  have bytes := hold (n + 1) v (by simpa using at_n) k inside
  rw [← Nat.add_assoc, Nat.add_right_comm] at bytes
  have untouched : u.apply chunks v.array (v.off + k) = chunks v.array (v.off + k) := by
    apply Write.apply_frame
    intro covers
    have range : (rangeOf v).Has (v.off + k) := ⟨Nat.le_add_right .., Nat.add_lt_add_left inside _⟩
    exact apart v (List.mem_of_getElem? at_n) covers.1 (v.off + k) ⟨covers.2, range⟩
  rw [untouched]
  exact bytes

/-- All updates together change the parity of the chunks by their differences. -/
theorem column_applyAll {D : Nat} {updates : List Update} (chunk : ∀ u ∈ updates, u.array < D)
    (disjoint : updates.Pairwise fun u v => u.array = v.array → ∀ q, ¬ ((rangeOf u).Has q ∧ (rangeOf v).Has q))
    {chunks old new : Nat → Buf} {i : Nat} (hold : Hold chunks updates i old new) (q : Nat) :
    xorSum (column D (applyAll chunks updates) q) =
      xorSum (column D chunks q) ^^^ delta old new q i (updates.map fun u => (u.off, u.len)) := by
  induction updates generalizing chunks i with
  | nil => exact BitVec.xor_zero.symm
  | cons u updates ih =>
    obtain ⟨apart, later⟩ := List.pairwise_cons.mp disjoint
    have rest := ih (fun v member => chunk v (List.mem_cons_of_mem _ member)) later (hold_rest hold apart)
    rw [applyAll_cons, rest, column_apply chunks (chunk u List.mem_cons_self), List.map_cons, delta, BitVec.xor_assoc]
    congr 2
    split
    · next range =>
      have bytes := hold 0 u rfl (q - u.off) (by omega)
      rw [Nat.add_zero, Nat.add_sub_cancel' range.1] at bytes
      rw [bytes.1, bytes.2]
    · rfl

/-- With one parity chunk, the parity buffer after the call is the exclusive or
    of the updated chunks. -/
theorem do_part_encode_xor (one : g.PARITYCHUNK_NUM = 1) {D : Nat} {updates : List Update}
    (separate : Separate g D (updates.map rangeOf)) {chunks oridatabufs newdatabufs : Nat → Buf}
    (hold : Hold chunks updates 0 oridatabufs newdatabufs) (tempbufs : Nat → Buf) {paritybufs : Nat → Buf}
    (parity : ∀ q < g.SCHUNK_SIZE, paritybufs 0 q = xorSum (column D chunks q)) :
    ∃ temp par, encode_updates g isal oridatabufs newdatabufs tempbufs paritybufs updates = some (temp, par) ∧
      ∀ q < g.SCHUNK_SIZE, par 0 q = xorSum (column D (applyAll chunks updates) q) := by
  have chunk : ∀ u ∈ updates, u.array < D := fun u member => separate.chunk _ (List.mem_map_of_mem member)
  have inside : ∀ u ∈ updates.map (fun u => (u.off, u.len)), u.1 + u.2 ≤ g.SCHUNK_SIZE := by
    intro u member
    obtain ⟨v, there, rfl⟩ := List.mem_map.mp member
    exact separate.inside _ (List.mem_map_of_mem there)
  obtain ⟨temp, par, loop, added⟩ := part_encode_loop_delta isal one inside oridatabufs newdatabufs 0 tempbufs paritybufs
  refine ⟨temp, par, (encode_updates_loop ..).trans loop, ?_⟩
  intro q short
  rw [added q, parity q short, column_applyAll chunk (List.pairwise_map.mp separate.disjoint) hold]

/-- Two updates of different chunks at the same positions. -/
theorem do_part_encode_two : ∃ temp par, encode_updates defaultGeometry Isal.reference (fun _ _ => 0)
      (fun i _ => BitVec.ofNat 8 (i + 1)) (fun _ _ => 0) (fun _ _ => 0)
      [⟨0, 0, 512, fun _ => 1⟩, ⟨3, 256, 512, fun _ => 2⟩] = some (temp, par) ∧
    ∀ q < defaultGeometry.SCHUNK_SIZE, par 0 q =
      xorSum (column 7 (applyAll (fun _ _ => 0) [⟨0, 0, 512, fun _ => 1⟩, ⟨3, 256, 512, fun _ => 2⟩]) q) := by
  refine do_part_encode_xor Isal.reference rfl ⟨by decide, by decide, ?_⟩ ?_ _ fun q _ => ?_
  · simp [rangeOf]
  · intro n u at_n k _
    match n with
    | 0 => obtain rfl := Option.some.inj at_n; exact ⟨rfl, rfl⟩
    | 1 => obtain rfl := Option.some.inj at_n; exact ⟨rfl, rfl⟩
    | n + 2 => simp at at_n
  · show (0 : Byte) = xorSum (column 7 (fun _ _ => 0) 0)
    decide

/-! ### Two parity chunks -/

/-- What an update that changes no byte does to the two parities of a position
    in its range: they are encoded with it as if they were data. -/
def mix (parities : Byte × Byte) : Byte × Byte :=
  (xorSum [0, parities.1, parities.2], qSyndrome [0, parities.1, parities.2])

/-- How many of the updates have a position in their ranges. -/
def covering (updates : List Update) (q : Nat) : Nat := updates.countP fun u => (rangeOf u).Has q

theorem covering_cons (u : Update) (updates : List Update) (q : Nat) :
    covering (u :: updates) q = covering updates q + if (rangeOf u).Has q then 1 else 0 := by
  simp only [covering, List.countP_cons, decide_eq_true_eq]

/-- The calls of the library for an update that changes no byte. -/
theorem mix_byte (old new temp p q pdest qdest : Buf) {k len : Nat} (inside : k < len) (same : old k = new k) :
    ((isal.pq_gen [isal.xor_gen [old, new, temp] len, p, q, pdest, qdest] len).1 k,
      (isal.pq_gen [isal.xor_gen [old, new, temp] len, p, q, pdest, qdest] len).2 k) = mix (p k, q k) := by
  have first := isal.xor_gen_spec [old, new] temp len k (by simp)
  have second := isal.pq_gen_spec [isal.xor_gen [old, new, temp] len, p, q] pdest qdest len k (by simp)
  simp only [List.cons_append, List.nil_append, inside, ↓reduceIte, List.map_cons, List.map_nil, xorSum_cons,
    xorSum_nil, same, xor_cancel] at first
  simp only [List.cons_append, List.nil_append, inside, ↓reduceIte, List.map_cons, List.map_nil, first] at second
  rw [second.1, second.2]
  rfl

/-- The loop with two parity chunks, for updates that change no byte: every one
    mixes the parities of its positions. -/
theorem part_encode_loop_same (two : g.PARITYCHUNK_NUM = 2) {updates : List Update}
    (inside : ∀ u ∈ updates, u.off + u.len ≤ g.SCHUNK_SIZE) {old new : Nat → Buf} {i : Nat}
    (same : ∀ n u, updates[n]? = some u → ∀ k < u.len, old (i + n) k = new (i + n) k) (temp par : Nat → Buf) :
    ∃ temp' par', part_encode_loop g isal old new (updates.map fun u => (u.off, u.len)) i temp par = some (temp', par') ∧
      ∀ q, (par' 0 q, par' 1 q) = mix^[covering updates q] (par 0 q, par 1 q) := by
  induction updates generalizing i temp par with
  | nil => exact ⟨temp, par, rfl, fun q => rfl⟩
  | cons u updates ih =>
    have small := g.chunk_int
    have within := inside u List.mem_cons_self
    have fits : ¬ u64 (u.off + u.len) > g.SCHUNK_SIZE := by rw [u64_small (by omega)]; omega
    have rest : ∀ n v, updates[n]? = some v → ∀ k < v.len, old (i + 1 + n) k = new (i + 1 + n) k := by
      intro n v at_n k short
      have bytes := same (n + 1) v (by simpa using at_n) k short
      rwa [← Nat.add_assoc, Nat.add_right_comm] at bytes
    simp only [List.map_cons, part_encode_loop, two, ↓reduceIte, fits]
    obtain ⟨temp', par', loop, mixed⟩ := ih (fun v member => inside v (List.mem_cons_of_mem _ member)) rest _ _
    refine ⟨temp', par', loop, ?_⟩
    intro q
    rw [mixed q, Function.update_of_ne (by decide), Function.update_self, Function.update_self]
    by_cases range : (rangeOf u).Has q
    · have low : u.off ≤ q := range.1
      have high : q < u.off + u.len := range.2
      have byte := mix_byte isal (old i) (new i) (temp i) (shift (par 0) u.off) (shift (par 1) u.off)
        (shift (par 0) u.off) (shift (par 1) u.off) (show q - u.off < u.len by omega) (same 0 u rfl _ (by omega))
      rw [overlay_inside low high, overlay_inside low high, byte, shift, shift, Nat.add_sub_cancel' low, covering_cons,
        if_pos range, Function.iterate_succ_apply]
    · have out : q < u.off ∨ u.off + u.len ≤ q := by
        have : ¬ (u.off ≤ q ∧ q < u.off + u.len) := range
        omega
      rw [overlay_outside out, overlay_outside out, covering_cons, if_neg range, Nat.add_zero]

/-- Separate ranges that share a position are in different chunks. -/
theorem covering_le {D : Nat} {updates : List Update} (separate : Separate g D (updates.map rangeOf)) (q : Nat) :
    covering updates q ≤ D := by
  have here : ((updates.filter fun u => (rangeOf u).Has q).map Write.array).Nodup := by
    have disjoint := (List.pairwise_map.mp separate.disjoint).filter fun u => (rangeOf u).Has q
    refine List.pairwise_map.mpr (disjoint.imp_of_mem ?_)
    intro u v first second apart same
    exact apart same q ⟨by simpa using (List.mem_filter.mp first).2, by simpa using (List.mem_filter.mp second).2⟩
  have chunks : ∀ c ∈ (updates.filter fun u => (rangeOf u).Has q).map Write.array, c ∈ List.range D := by
    intro c member
    obtain ⟨u, there, rfl⟩ := List.mem_map.mp member
    exact List.mem_range.mpr (separate.chunk _ (List.mem_map_of_mem (List.mem_of_mem_filter there)))
  have count := (List.subperm_of_subset here chunks).length_le
  rwa [List.length_map, ← List.countP_eq_length_filter, List.length_range] at count

/-- No number of updates up to the most data chunks brings these parities back. -/
theorem mix_moves : ∀ n < 64, mix^[n + 1] (1, 1) ≠ (1, 1) := by decide +kernel

/-! ### Contents that break -/

/-- The first chunk with a one in every byte, the others empty. -/
def first_one : Nat → Buf := fun c _ => if c = 0 then 1 else 0

theorem first_one_column (q : Nat) : xorSum (column g.DATACHUNK_NUM first_one q) = 1 ∧
    qSyndrome (column g.DATACHUNK_NUM first_one q) = 1 := by
  have others : ∀ c, c ≠ 0 → first_one c q = 0 := fun c other => if_neg other
  constructor
  · exact xorSum_one List.nodup_range (List.mem_range.mpr g.data_pos) fun c _ other => others c other
  · exact qSyndrome_one g.data_pos fun c _ other => others c other

/-- Updates of the ranges to the bytes that are there. -/
def rewrites (ranges : List ChunkRange) : List Update :=
  ranges.map fun r => ⟨r.chunk, r.offset, r.length, fun k => first_one r.chunk (r.offset + k)⟩

theorem rewrites_ranges (ranges : List ChunkRange) : (rewrites ranges).map rangeOf = ranges := by
  rw [rewrites, List.map_map]
  exact List.map_id ranges

theorem rewrites_data {ranges : List ChunkRange} {u : Update} (member : u ∈ rewrites ranges) :
    u.data = fun k => first_one u.array (u.off + k) := by
  obtain ⟨r, _, rfl⟩ := List.mem_map.mp member
  rfl

theorem rewrites_apply (ranges : List ChunkRange) : applyAll first_one (rewrites ranges) = first_one := by
  funext c q
  by_cases some_covers : ∃ u ∈ rewrites ranges, u.Covers c q
  · apply applyAll_covered some_covers
    rintro u member ⟨rfl, low, _⟩
    rw [rewrites_data member]
    simp only [Nat.add_sub_cancel' low]
  · exact applyAll_frame (fun u member covers => some_covers ⟨u, member, covers⟩) _

/-- The buffers of these updates, the old and the new ones. -/
def rewrite_bufs (ranges : List ChunkRange) : Nat → Buf := fun n =>
  match (rewrites ranges)[n]? with
  | some u => u.data
  | none => fun _ => 0

theorem rewrite_bufs_hold (ranges : List ChunkRange) :
    Hold first_one (rewrites ranges) 0 (rewrite_bufs ranges) (rewrite_bufs ranges) := by
  intro n u at_n k _
  rw [Nat.zero_add, rewrite_bufs, at_n]
  exact ⟨congrFun (rewrites_data (List.mem_of_getElem? at_n)) k, rfl⟩

/-- With two parity chunks, ranges for which the call is exact have no byte. -/
theorem exact_empty (two : g.PARITYCHUNK_NUM = 2) {ranges : List ChunkRange} (separate : Separate g g.DATACHUNK_NUM ranges)
    (exact_ranges : Exact g isal ranges) : ∀ r ∈ ranges, r.length = 0 := by
  intro r member
  by_contra some_byte
  have data := g.data_max
  have inside := separate.inside r member
  obtain ⟨temp, par, encoded, after⟩ := exact_ranges (rewrites ranges) (rewrites_ranges ranges) first_one
    (rewrite_bufs ranges) (rewrite_bufs ranges) (fun _ _ => 0) (fun _ _ => 1) (rewrite_bufs_hold ranges)
    (fun q _ => ⟨(first_one_column q).1.symm, (first_one_column q).2.symm⟩)
  have within : ∀ u ∈ rewrites ranges, u.off + u.len ≤ g.SCHUNK_SIZE := by
    intro u there
    obtain ⟨s, here, rfl⟩ := List.mem_map.mp there
    exact separate.inside s here
  obtain ⟨temp', par', loop, mixed⟩ := part_encode_loop_same isal two within (i := 0)
    (fun n u at_n k short => (rfl : rewrite_bufs ranges _ _ = rewrite_bufs ranges _ _)) (fun _ _ => 0) (fun _ _ => 1)
  rw [encode_updates_loop, loop] at encoded
  obtain ⟨rfl, rfl⟩ := Prod.mk.inj (Option.some.inj encoded)
  -- The position is covered, and the parities are back where they were.
  have most := covering_le (by rw [rewrites_ranges]; exact separate) r.offset
  have least : 0 < covering (rewrites ranges) r.offset := by
    have here : r.Has r.offset := ⟨Nat.le_refl _, by omega⟩
    exact List.countP_pos_iff.mpr ⟨_, List.mem_map_of_mem member, decide_eq_true here⟩
  have back := mixed r.offset
  obtain ⟨first, second⟩ := after r.offset (by omega)
  rw [rewrites_apply, (first_one_column r.offset).1] at first
  rw [rewrites_apply, (first_one_column r.offset).2] at second
  rw [first, second] at back
  obtain ⟨n, number⟩ := Nat.exists_eq_succ_of_ne_zero (Nat.pos_iff_ne_zero.mp least)
  rw [number] at back
  exact mix_moves n (by unfold KMAX at data; omega) back.symm

theorem exact_of_empty (two : g.PARITYCHUNK_NUM = 2) {ranges : List ChunkRange} (separate : Separate g g.DATACHUNK_NUM ranges)
    (empty : ∀ r ∈ ranges, r.length = 0) : Exact g isal ranges := by
  intro updates of_ranges chunks old new temp par hold parity
  have none_long : ∀ u ∈ updates, u.len = 0 := fun u member => empty (rangeOf u) (of_ranges ▸ List.mem_map_of_mem member)
  have within : ∀ u ∈ updates, u.off + u.len ≤ g.SCHUNK_SIZE := fun u member =>
    separate.inside (rangeOf u) (of_ranges ▸ List.mem_map_of_mem member)
  have unread : ∀ n u, updates[n]? = some u → ∀ k < u.len, old (0 + n) k = new (0 + n) k := by
    intro n u at_n k short
    rw [none_long u (List.mem_of_getElem? at_n)] at short
    omega
  obtain ⟨temp', par', loop, mixed⟩ := part_encode_loop_same isal two within unread temp par
  refine ⟨temp', par', (encode_updates_loop ..).trans loop, ?_⟩
  intro q short
  have nothing : covering updates q = 0 := by
    refine List.countP_eq_zero.mpr fun u member => ?_
    have zero := none_long u member
    have out : ¬ (u.off ≤ q ∧ q < u.off + u.len) := by omega
    exact fun has => out (of_decide_eq_true has)
  have same : applyAll chunks updates = chunks := by
    funext c p
    refine applyAll_frame (fun u member covers => ?_) _
    have zero := none_long u member
    have range := covers.2
    omega
  have back := mixed q
  rw [nothing] at back
  obtain ⟨first, second⟩ := Prod.mk.inj back
  rw [same, first, second]
  exact parity q short

/-- With two parity chunks, the call leaves the parities of the updated chunks,
    whatever the contents, exactly for updates of no byte. -/
theorem exact_iff (two : g.PARITYCHUNK_NUM = 2) {ranges : List ChunkRange} (separate : Separate g g.DATACHUNK_NUM ranges) :
    Exact g isal ranges ↔ ∀ r ∈ ranges, r.length = 0 :=
  ⟨exact_empty isal two separate, exact_of_empty isal two separate⟩

/-- An update of a block. -/
theorem exact_block : Exact raid6Geometry Isal.reference [⟨0, 0, 4096⟩] ↔
    ∀ r ∈ [(⟨0, 0, 4096⟩ : ChunkRange)], r.length = 0 :=
  exact_iff Isal.reference rfl ⟨by decide, by decide, List.pairwise_singleton ..⟩

/-- A byte of the first chunk that holds a one and is updated to a one, with the
    other chunks empty: both parities are one before the call, as they should be
    after it, and are zero and six. -/
theorem exact_one_byte : ((encode_updates raid6Geometry Isal.reference (fun _ _ => 1) (fun _ _ => 1) (fun _ _ => 0)
      (fun _ _ => 1) [⟨0, 0, 1, fun _ => 1⟩]).map fun bufs => (bufs.2 0 0, bufs.2 1 0)) = some (0, 6) ∧
    ¬ Exact raid6Geometry Isal.reference [⟨0, 0, 1⟩] := by
  refine ⟨by decide +kernel, fun otherwise => ?_⟩
  have separate : Separate raid6Geometry 6 [⟨0, 0, 1⟩] := ⟨by decide, by decide, List.pairwise_singleton ..⟩
  exact absurd (exact_empty Isal.reference rfl separate otherwise) (by decide)

end Straid.DeltaEncoding
