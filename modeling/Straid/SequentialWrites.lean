import Straid.Runs

/-!
Writes one after another against the user space as one flat array of bytes. A
write of a piece puts the bytes of the piece at their places and leaves every
other user byte (`change_flat`), and it stays in the row of its stripe
(`change_row`), unless it is a partial stripe past the largest `int`
(`Narrow`). There the smallest offset of the parity write is taken against
`INT_MAX`, so parity is written out of the row (`change_wide`).
`refined_iff` has both directions for runs of calls.
-/
namespace Straid.SequentialWrites
open LogFiles Metadata Split Encode EcEncoder StorageMod FullStripe PartialStripe Runs Cuts Overlays

variable (g : Geometry) (isal : Isal)

/-- The byte at the place that `user2dev` gives for a user offset. -/
def user_byte (devs : Nat → Nat → Byte) (x : Nat) : Byte := devs (user2dev g x).devid.toNat (user2dev g x).converted_offset

/-- The user space after the buffer of a call is put into it. -/
def put (F : Nat → Byte) (c : Call) : Nat → Byte := overlay F c.uio.user_offset c.uio.length (shift c.mem c.uio.buf)

/-- The user space after calls: every byte is the one last written to it. -/
def last_written (F : Nat → Byte) (calls : List Call) : Nat → Byte := calls.foldl put F

/-- The writes of a submission replace no byte out of the row of its piece. -/
def InRow (submission : Submission) : Prop := ∀ w ∈ submission.writes, ∀ d o, w.Covers d o →
  stripeOf g submission.piece * g.SCHUNK_SIZE ≤ o ∧ o < (stripeOf g submission.piece + 1) * g.SCHUNK_SIZE

/-- The calls, one after another, refine writes to a flat array: after each of
    them every user byte is the one last written, and every write of a piece
    stays in the row of its stripe. -/
def Refined (devs : Nat → Nat → Byte) (rands : Nat → Nat) (wild : Buf) (calls : List Call) : Prop :=
  ∀ n, ∃ submissions after,
    run_calls g isal (calls.take n) (Store.fresh g devs rands wild) = some (submissions, after) ∧
    submissions.map Submission.piece = (pieces g (calls.take n)).map Call.uio ∧
    (∀ x < g.USER_SPACE_LEN, user_byte g after.devs x = last_written (user_byte g devs) (calls.take n) x) ∧
    ∀ submission ∈ submissions, InRow g submission

/-- A piece whose parity write is not past the largest `int`. -/
def Narrow (piece : UioInfo) : Prop :=
  is_fullstripe g piece.user_offset piece.length = true ∨ stripeOf g piece * g.SCHUNK_SIZE ≤ INT_MAX

/-- The user space that the devices hold. -/
def flat (devs : Nat → Nat → Byte) (x : Nat) : Byte := devs (devOf g x) (devoffOf g x)

instance (piece : UioInfo) : Decidable (Narrow g piece) := inferInstanceAs (Decidable (_ ∨ _))

variable {g}

theorem user_byte_eq {x : Nat} (user : x < g.USER_SPACE_LEN) (devs : Nat → Nat → Byte) :
    user_byte g devs x = flat g devs x := by
  rw [user_byte, user2dev_user user, flat, Int.toNat_natCast]

/-! ### One piece -/

theorem pieceWrite_covers {uio : UioInfo} (one : OneStripe g uio) {r : Nat × Nat}
    (member : r ∈ cut g.SCHUNK_SIZE uio.user_offset uio.length) (mem : Nat → Byte) (x : Nat) :
    (pieceWrite g mem uio r).Covers (devOf g x) (devoffOf g x) ↔ r.1 ≤ x ∧ x < r.1 + r.2 := by
  obtain ⟨_, _, _, chunk⟩ := cut_inside g.chunk_pos one.positive member
  have place : ∀ y, r.1 ≤ y → y < r.1 + r.2 → devOf g y = devOf g r.1 ∧ devoffOf g y = devoffOf g r.1 + (y - r.1) := by
    intro y low high
    have first : r.1 / g.SCHUNK_SIZE ≤ y / g.SCHUNK_SIZE := Nat.div_le_div_right low
    have last : y / g.SCHUNK_SIZE ≤ (r.1 + r.2 - 1) / g.SCHUNK_SIZE := Nat.div_le_div_right (by omega)
    exact same_chunk low (by omega)
  simp only [Write.Covers, pieceWrite]
  constructor
  · rintro ⟨device, low, high⟩
    obtain ⟨device', offset'⟩ := place (r.1 + (devoffOf g x - devoffOf g r.1)) (by omega) (by omega)
    have same : x = r.1 + (devoffOf g x - devoffOf g r.1) := place_inj (by rw [device', device]) (by omega)
    omega
  · rintro ⟨low, high⟩
    obtain ⟨device, offset⟩ := place x low high
    exact ⟨device.symm, by omega, by omega⟩

theorem piece_writes_flat {c : Call} (one : OneStripe g c.uio) (devs : Nat → Nat → Byte) :
    flat g (applyAll devs (piece_writes g c.mem c.uio)) = put (flat g devs) c := by
  funext x
  have covers : ∀ w ∈ piece_writes g c.mem c.uio, w.Covers (devOf g x) (devoffOf g x) →
      c.uio.user_offset ≤ x ∧ x < c.uio.user_offset + c.uio.length ∧
        w.data (devoffOf g x - w.off) = c.mem (c.uio.buf + (x - c.uio.user_offset)) := by
    intro w member cover
    obtain ⟨r, there, rfl⟩ := List.mem_map.mp member
    obtain ⟨_, first, last, chunk⟩ := cut_inside g.chunk_pos one.positive there
    obtain ⟨low, high⟩ := (pieceWrite_covers one there c.mem x).mp cover
    have offset := (same_chunk (g := g) low (by
      have : r.1 / g.SCHUNK_SIZE ≤ x / g.SCHUNK_SIZE := Nat.div_le_div_right low
      have : x / g.SCHUNK_SIZE ≤ (r.1 + r.2 - 1) / g.SCHUNK_SIZE := Nat.div_le_div_right (by omega)
      omega)).2
    refine ⟨by omega, by omega, ?_⟩
    simp only [pieceWrite, shift]
    congr 1
    omega
  by_cases inside : c.uio.user_offset ≤ x ∧ x < c.uio.user_offset + c.uio.length
  · rw [put, overlay_inside inside.1 inside.2]
    refine applyAll_covered ?_ (fun w member cover => (covers w member cover).2.2) devs
    have positions := cut_positions g.chunk_pos c.uio.user_offset one.positive
    have position : x ∈ List.range' c.uio.user_offset c.uio.length := List.mem_range'_1.mpr inside
    rw [← positions] at position
    obtain ⟨r, there, within⟩ := List.mem_flatMap.mp position
    exact ⟨_, List.mem_map_of_mem there, (pieceWrite_covers one there c.mem x).mpr (List.mem_range'_1.mp within)⟩
  · rw [put, overlay_outside (by omega)]
    exact applyAll_frame (fun w member cover => inside ⟨(covers w member cover).1, (covers w member cover).2.1⟩) devs

/-- A parity write in a row is on no place of a user byte. -/
theorem parity_apart {s p : Nat} (chunk : p < g.PARITYCHUNK_NUM) {w : DeviceWrite} (device : w.array = parityDev g s p)
    (low : s * g.SCHUNK_SIZE ≤ w.off) (high : w.off + w.len ≤ s * g.SCHUNK_SIZE + g.SCHUNK_SIZE) (x : Nat) :
    ¬ w.Covers (devOf g x) (devoffOf g x) := by
  rintro ⟨same, start, stop⟩
  have row := devoffOf_row (g := g) x
  have stripe : user2stripe g x = s := by
    rw [← devoff_div row.1 row.2, devoff_div (s := s) (by omega) (by omega)]
  rw [device, devOf, stripe] at same
  exact parityDev_ne_dataDev chunk (chunkOf_lt x) same

/-- What writes do not touch on the user space. -/
theorem flat_frame {ws : List DeviceWrite} (apart : ∀ w ∈ ws, ∀ x, ¬ w.Covers (devOf g x) (devoffOf g x))
    (devs : Nat → Nat → Byte) : flat g (applyAll devs ws) = flat g devs := by
  funext x
  exact applyAll_frame (fun w member => apart w member x) devs

theorem written_flat {c : Call} (full : is_fullstripe g c.uio.user_offset c.uio.length = true)
    {devs after : Nat → Nat → Byte} (written : Written g (stripeOf g c.uio) c.mem c.uio.buf devs after) :
    flat g after = put (flat g devs) c := by
  obtain ⟨offset, length⟩ := full_stripe full
  funext x
  have row := devoffOf_row (g := g) x
  by_cases own : user2stripe g x = stripeOf g c.uio
  · have chunk := chunk_split (g := g) x
    have whole := Nat.div_add_mod' x g.SCHUNK_SIZE
    have short := Nat.mod_lt x g.chunk_pos
    have position : x = c.uio.user_offset + (chunkOf g x * g.SCHUNK_SIZE + x % g.SCHUNK_SIZE) := by
      rw [own] at chunk
      rw [← chunk, Nat.add_mul, Nat.mul_assoc, ← g.stripe_size] at whole
      omega
    have upto : chunkOf g x * g.SCHUNK_SIZE + g.SCHUNK_SIZE ≤ c.uio.length := by
      rw [length, g.stripe_size, ← Nat.succ_mul]
      exact Nat.mul_le_mul_right _ (chunkOf_lt x)
    have here := written.data (chunkOf g x) (chunkOf_lt x) (x % g.SCHUNK_SIZE) short
    rw [put, overlay_inside (by omega) (by omega), flat, devOf, devoffOf, own]
    refine here.trans ?_
    simp only [shift]
    congr 1
    omega
  · have out : x < c.uio.user_offset ∨ c.uio.user_offset + c.uio.length ≤ x := by
      rw [offset, length]
      by_contra inside
      exact own ((user2stripe_eq x).trans (block_unique (by omega) (by omega)))
    rw [put, overlay_outside out, flat, flat]
    refine written.frame _ _ ?_
    have other := devoff_div (g := g) (s := stripeOf g c.uio) (o := devoffOf g x)
    have this := devoff_div row.1 row.2
    by_contra inside
    exact own (this.symm.trans (other (by omega) (by omega)))

variable {isal}

theorem change_written {c : Call} {st after : Store} {writes : List DeviceWrite} (change : Change g isal c st writes after)
    (full : is_fullstripe g c.uio.user_offset c.uio.length = true) :
    Written g (stripeOf g c.uio) c.mem c.uio.buf st.devs after.devs := by
  rw [change.devs, (change.full full).1]
  exact fullState_written isal (stripeOf g c.uio) c.uio.user_id c.mem c.uio.buf st

theorem mem_partialWrites {mem : Nat → Byte} {uio : UioInfo} {par : Nat → Buf} {w : DeviceWrite} :
    w ∈ partialWrites g mem uio par ↔ w ∈ piece_writes g mem uio ∨ ∃ p < g.PARITYCHUNK_NUM,
      w = ⟨parityDev g (stripeOf g uio) 0, (partialRange g uio).1, (partialRange g uio).2, par p⟩ := by
  simp only [partialWrites, List.mem_append, List.mem_map, List.mem_range, eq_comm]

theorem change_flat {c : Call} (one : OneStripe g c.uio) (narrow : Narrow g c.uio) {st after : Store}
    {writes : List DeviceWrite} (change : Change g isal c st writes after) :
    flat g after.devs = put (flat g st.devs) c := by
  cases full : is_fullstripe g c.uio.user_offset c.uio.length with
  | true => exact written_flat full (change_written change full)
  | false =>
    obtain ⟨par, rfl, _⟩ := change.part full
    have low : stripeOf g c.uio * g.SCHUNK_SIZE ≤ INT_MAX := by simpa [Narrow, full] using narrow
    obtain ⟨start, stop⟩ := partialRange_row one low
    rw [change.devs, partialWrites, applyAll_append, flat_frame, piece_writes_flat one]
    intro w member x
    obtain ⟨p, _, rfl⟩ := List.mem_map.mp member
    exact parity_apart (p := 0) g.parity_pos rfl start stop x

theorem piece_writes_row {uio : UioInfo} (one : OneStripe g uio) {mem : Nat → Byte} {w : DeviceWrite}
    (member : w ∈ piece_writes g mem uio) {d o : Nat} (covers : w.Covers d o) :
    stripeOf g uio * g.SCHUNK_SIZE ≤ o ∧ o < stripeOf g uio * g.SCHUNK_SIZE + g.SCHUNK_SIZE := by
  obtain ⟨r, there, rfl⟩ := List.mem_map.mp member
  obtain ⟨_, _, low, high⟩ := piece_part one there
  obtain ⟨_, start, stop⟩ := covers
  simp only [pieceWrite] at start stop
  omega

theorem change_row {c : Call} (one : OneStripe g c.uio) (narrow : Narrow g c.uio) {st after : Store}
    {writes : List DeviceWrite} (change : Change g isal c st writes after) : InRow g ⟨c.uio, writes⟩ := by
  intro w member d o covers
  show stripeOf g c.uio * g.SCHUNK_SIZE ≤ o ∧ o < (stripeOf g c.uio + 1) * g.SCHUNK_SIZE
  rw [Nat.succ_mul]
  cases full : is_fullstripe g c.uio.user_offset c.uio.length with
  | true =>
    simp only [(change.full full).1] at member
    exact (fullWrites_row member covers).2
  | false =>
    obtain ⟨par, rfl, _⟩ := change.part full
    have low : stripeOf g c.uio * g.SCHUNK_SIZE ≤ INT_MAX := by simpa [Narrow, full] using narrow
    obtain ⟨first, last⟩ := partialRange_row one low
    rcases mem_partialWrites.mp member with data | ⟨p, _, rfl⟩
    · exact piece_writes_row one data covers
    · obtain ⟨_, start, stop⟩ := covers
      simp only at start stop
      omega

/-- A change of a partial stripe past the largest `int` leaves its row. -/
theorem change_wide {c : Call} (one : OneStripe g c.uio) (wide : ¬ Narrow g c.uio) {st after : Store}
    {writes : List DeviceWrite} (change : Change g isal c st writes after) : ¬ InRow g ⟨c.uio, writes⟩ := by
  intro row
  obtain ⟨part, past⟩ := not_or.mp wide
  obtain ⟨par, rfl, _⟩ := change.part (Bool.not_eq_true _ ▸ part)
  have int := partialRange_int (g := g) c.uio
  have some_len := partialRange_pos one
  have inside := row _ (mem_partialWrites.mpr (.inr ⟨0, g.parity_pos, rfl⟩)) _ (partialRange g c.uio).1
    ⟨rfl, Nat.le_refl _, by simp only; omega⟩
  simp only at inside
  omega

/-! ### The pieces of a call -/

/-- The write of a call to the user space. -/
def userWrite (c : Call) : Write Unit Byte := ⟨(), c.uio.user_offset, c.uio.length, shift c.mem c.uio.buf⟩

theorem last_written_eq (F : Nat → Byte) (calls : List Call) :
    last_written F calls = applyAll (fun _ => F) (calls.map userWrite) () := by
  induction calls generalizing F with
  | nil => rfl
  | cons c calls ih => rw [List.map_cons, applyAll_cons, userWrite, Write.apply_unit, ← put, ← ih]; rfl

/-- The user space after the pieces of a call is the user space after the
    call. -/
theorem last_written_pieces {c : Call} (valid : c.uio.Valid g) (F : Nat → Byte) :
    last_written F (call_pieces g c) = put F c := by
  funext x
  have covers : ∀ w ∈ (call_pieces g c).map userWrite, w.Covers () x →
      c.uio.user_offset ≤ x ∧ x < c.uio.user_offset + c.uio.length ∧
        w.data (x - w.off) = c.mem (c.uio.buf + (x - c.uio.user_offset)) := by
    intro w member cover
    simp only [call_pieces, split_stripe_aligned_valid valid, List.map_map, List.mem_map, Function.comp_apply] at member
    obtain ⟨r, there, rfl⟩ := member
    obtain ⟨_, first, last, _⟩ := cut_inside g.stripe_pos valid.positive there
    obtain ⟨_, low, high⟩ := cover
    simp only [userWrite, pieceOf, shift] at low high ⊢
    refine ⟨by omega, by omega, ?_⟩
    congr 1
    omega
  rw [last_written_eq]
  by_cases inside : c.uio.user_offset ≤ x ∧ x < c.uio.user_offset + c.uio.length
  · rw [put, overlay_inside inside.1 inside.2]
    refine applyAll_covered ?_ (fun w member cover => (covers w member cover).2.2) _
    have position : x ∈ List.range' c.uio.user_offset c.uio.length := List.mem_range'_1.mpr inside
    rw [← cut_positions g.stripe_pos _ valid.positive] at position
    obtain ⟨r, there, within⟩ := List.mem_flatMap.mp position
    refine ⟨userWrite ⟨pieceOf c.uio r, c.mem⟩, List.mem_map_of_mem ?_, rfl, List.mem_range'_1.mp within⟩
    rw [call_pieces, split_stripe_aligned_valid valid, List.map_map]
    exact List.mem_map_of_mem there
  · rw [put, overlay_outside (by omega)]
    exact applyAll_frame (fun w member cover => inside ⟨(covers w member cover).1, (covers w member cover).2.1⟩) _

theorem last_written_all {calls : List Call} (valid : ∀ c ∈ calls, c.uio.Valid g) (F : Nat → Byte) :
    last_written F (pieces g calls) = last_written F calls := by
  induction calls generalizing F with
  | nil => rfl
  | cons c calls ih =>
    have tail := fun other member => valid other (List.mem_cons_of_mem c member)
    have joined : last_written F (pieces g (c :: calls)) =
      last_written (last_written F (call_pieces g c)) (pieces g calls) := List.foldl_append
    rw [joined, last_written_pieces (valid c List.mem_cons_self), ih tail]
    rfl

/-- A byte depends on the same byte of before only. -/
theorem last_written_congr {F G : Nat → Byte} {x : Nat} (same : F x = G x) (calls : List Call) :
    last_written F calls x = last_written G calls x := by
  induction calls generalizing F G with
  | nil => exact same
  | cons c calls ih =>
    refine ih (F := put F c) (G := put G c) ?_
    unfold put overlay
    rw [same]

/-! ### Runs -/

theorem changes_flat {cs : List Call} {st after : Store} {ss : List Submission} (changes : Changes g isal cs st ss after)
    (narrow : ∀ c ∈ cs, Narrow g c.uio) : flat g after.devs = last_written (flat g st.devs) cs := by
  induction changes with
  | nil => rfl
  | cons one change _ ih =>
    rw [ih fun other member => narrow other (List.mem_cons_of_mem _ member),
      change_flat one (narrow _ List.mem_cons_self) change]
    rfl

theorem changes_pieces {cs : List Call} {st after : Store} {ss : List Submission} (changes : Changes g isal cs st ss after) :
    ss.map Submission.piece = cs.map Call.uio := by
  induction changes with
  | nil => rfl
  | cons _ _ _ ih => rw [List.map_cons, List.map_cons, ih]

theorem changes_row {cs : List Call} {st after : Store} {ss : List Submission} (changes : Changes g isal cs st ss after)
    (narrow : ∀ c ∈ cs, Narrow g c.uio) : ∀ submission ∈ ss, InRow g submission := by
  induction changes with
  | nil => simp
  | cons one change _ ih =>
    intro submission member
    rcases List.mem_cons.mp member with rfl | later
    · exact change_row one (narrow _ List.mem_cons_self) change
    · exact ih (fun other there => narrow other (List.mem_cons_of_mem _ there)) submission later

/-- A run whose submissions stay in their rows has no partial stripe past the
    largest `int`. -/
theorem changes_narrow {cs : List Call} {st after : Store} {ss : List Submission} (changes : Changes g isal cs st ss after)
    (rows : ∀ submission ∈ ss, InRow g submission) : ∀ c ∈ cs, Narrow g c.uio := by
  induction changes with
  | nil => simp
  | cons one change _ ih =>
    intro c member
    rcases List.mem_cons.mp member with rfl | later
    · by_contra wide
      exact change_wide one wide change (rows _ List.mem_cons_self)
    · exact ih (fun submission there => rows submission (List.mem_cons_of_mem _ there)) c later

variable (isal)

theorem refined_of_narrow {calls : List Call} (valid : ∀ c ∈ calls, c.uio.Valid g)
    (narrow : ∀ c ∈ pieces g calls, Narrow g c.uio) (devs : Nat → Nat → Byte) (rands : Nat → Nat) (wild : Buf) :
    Refined g isal devs rands wild calls := by
  intro n
  have valid' : ∀ c ∈ calls.take n, c.uio.Valid g := fun c member => valid c (List.mem_of_mem_take member)
  have narrow' : ∀ c ∈ pieces g (calls.take n), Narrow g c.uio := by
    intro c member
    obtain ⟨call, there, piece⟩ := List.mem_flatMap.mp member
    exact narrow c (List.mem_flatMap.mpr ⟨call, List.mem_of_mem_take there, piece⟩)
  obtain ⟨submissions, after, run, changes, _⟩ := run_calls_changes isal valid' (fresh_quiet devs rands wild)
  refine ⟨submissions, after, run, changes_pieces changes, ?_, changes_row changes narrow'⟩
  intro x user
  rw [user_byte_eq user, changes_flat changes narrow', last_written_all valid']
  exact last_written_congr (user_byte_eq user devs).symm _

theorem narrow_of_refined {calls : List Call} (valid : ∀ c ∈ calls, c.uio.Valid g) {devs : Nat → Nat → Byte}
    {rands : Nat → Nat} {wild : Buf} (refined : Refined g isal devs rands wild calls) :
    ∀ c ∈ pieces g calls, Narrow g c.uio := by
  obtain ⟨submissions, after, run, _, _, rows⟩ := refined calls.length
  obtain ⟨submissions', after', run', changes, _⟩ := run_calls_changes isal valid (fresh_quiet (g := g) devs rands wild)
  rw [List.take_length, run', Option.some.injEq, Prod.mk.injEq] at run
  obtain ⟨rfl, rfl⟩ := run
  exact changes_narrow changes rows

/-- Calls one after another refine writes to a flat array, with every write in
    the row of its stripe, exactly when no piece is a partial stripe past the
    largest `int`. -/
theorem refined_iff {calls : List Call} (valid : ∀ c ∈ calls, c.uio.Valid g) (devs : Nat → Nat → Byte)
    (rands : Nat → Nat) (wild : Buf) :
    Refined g isal devs rands wild calls ↔ ∀ c ∈ pieces g calls, Narrow g c.uio :=
  ⟨narrow_of_refined isal valid, fun narrow => refined_of_narrow isal valid narrow devs rands wild⟩

/-- A call of two stripes, the second of them partial. -/
theorem refined_two_stripes : Refined defaultGeometry Isal.reference (fun _ _ => 0) (fun _ => 0) (fun _ => 0)
    [⟨⟨0, true, 4096, 0, 500000⟩, fun a => a⟩] :=
  (refined_iff Isal.reference (by simp; decide) _ _ _).mpr
    (by decide +kernel)

/-- A block in stripe 40000, whose row is past the largest `int`. -/
theorem refined_far_stripe : UioInfo.Valid defaultGeometry ⟨0, true, 4096, 18350080000, 4096⟩ ∧
    ¬ Refined defaultGeometry Isal.reference (fun _ _ => 0) (fun _ => 0) (fun _ => 0)
      [⟨⟨0, true, 4096, 18350080000, 4096⟩, fun a => a⟩] := by
  have valid : UioInfo.Valid defaultGeometry ⟨0, true, 4096, 18350080000, 4096⟩ := by decide
  refine ⟨valid, fun refined => ?_⟩
  have narrow := narrow_of_refined Isal.reference (by simpa using valid) refined
  revert narrow
  decide +kernel

end Straid.SequentialWrites
