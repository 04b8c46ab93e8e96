import Straid.SequentialWrites

/-!
The parity of the rows over runs of calls, with one parity chunk. A write of a
full stripe makes the exclusive or of the devices zero in its row, whatever was
there (`full_row`), and a write leaves the rows that it does not meet alone
(`other_row`). A partial stripe is encoded against a buffer for the new data
that nothing fills, so after it nothing is known of its row until the next full
stripe. `row_sound` follows a row through the pieces of a run;
`row_zero_of_sound` has what holds of it.
-/
namespace Straid.ParityRows
open LogFiles Metadata Split Encode EcEncoder StorageMod FullStripe PartialStripe Runs SequentialWrites XorSums Overlays

variable (g : Geometry) (isal : Isal)

/-- The exclusive or of the devices is zero at every position of row `s`. -/
def RowZero (devs : Nat → Nat → Byte) (s : Nat) : Prop :=
  ∀ q < g.SCHUNK_SIZE, xorSum ((List.range g.NUM_DEVFILES).map fun d => devs d (s * g.SCHUNK_SIZE + q)) = 0

/-- A partial stripe writes into row `s`: it is its own, or it is past the
    largest `int`, and its parity goes where the row is. -/
def meets (piece : UioInfo) (s : Nat) : Bool :=
  stripeOf g piece = s ∨ stripeOf g piece * g.SCHUNK_SIZE > INT_MAX ∧
    s * g.SCHUNK_SIZE < INT_MAX + g.SCHUNK_SIZE ∧ INT_MAX < s * g.SCHUNK_SIZE + g.SCHUNK_SIZE

/-- Whether row `s` is sound after a piece, when `sound` says so of before. -/
def sound_after (s : Nat) (sound : Bool) (c : Call) : Bool :=
  if is_fullstripe g c.uio.user_offset c.uio.length then sound || stripeOf g c.uio == s
  else sound && !meets g c.uio s

/-- Row `s` is sound after the pieces of calls: since a full stripe was last
    written to it, or ever, no partial stripe was written into it. -/
def row_sound (calls : List Call) (s : Nat) : Bool := (pieces g calls).foldl (sound_after g s) true

variable {g}

/-- A full stripe with its data and parity has a row of sum zero. -/
theorem full_row (one : g.PARITYCHUNK_NUM = 1) {s : Nat} {mem : Nat → Byte} {buf : Nat} {before after : Nat → Nat → Byte}
    (written : Written g s mem buf before after) : RowZero g after s := by
  intro q inside
  have devices : g.NUM_DEVFILES = g.DATACHUNK_NUM + 1 := by rw [Geometry.NUM_DEVFILES, one]
  -- Summed from the device of the first data chunk on, the parity comes last.
  have round := xorSum_perm ((rotation_perm g.NUM_DEVFILES s).map fun d => after d (s * g.SCHUNK_SIZE + q))
  have data : (List.range g.DATACHUNK_NUM).map (fun i => after ((s + i) % g.NUM_DEVFILES) (s * g.SCHUNK_SIZE + q)) =
      (List.range g.DATACHUNK_NUM).map fun i => mem (buf + i * g.SCHUNK_SIZE + q) :=
    List.map_congr_left fun i member => written.data i (List.mem_range.mp member) q inside
  have last := written.parities 0 g.parity_pos q inside
  have place : parityDev g s 0 = (s + g.DATACHUNK_NUM) % g.NUM_DEVFILES := rfl
  rw [place, parity, if_pos rfl, ← data] at last
  rw [← round, List.map_map]
  conv => enter [1, 1, 2]; rw [devices]
  rw [List.range_succ, List.map_append, xorSum_append, List.map_singleton, xorSum_cons, xorSum_nil]
  simp only [Function.comp_def, last]
  simp

variable {isal}

/-- A change leaves the rows that its piece does not meet alone. -/
theorem other_row {c : Call} (one : OneStripe g c.uio) {st after : Store} {writes : List DeviceWrite}
    (change : Change g isal c st writes after) {s : Nat} (other : stripeOf g c.uio ≠ s)
    (apart : is_fullstripe g c.uio.user_offset c.uio.length = true ∨ meets g c.uio s = false) {q : Nat}
    (inside : q < g.SCHUNK_SIZE) (d : Nat) : after.devs d (s * g.SCHUNK_SIZE + q) = st.devs d (s * g.SCHUNK_SIZE + q) := by
  have own := devoff_div (g := g) (Nat.le_add_right (s * g.SCHUNK_SIZE) q) (by omega)
  rw [change.devs]
  refine applyAll_frame (fun w member covers => ?_) _
  by_cases narrow : Narrow g c.uio
  · -- A write in the row of another stripe.
    have row := change_row one narrow change w member d _ covers
    simp only [Nat.succ_mul] at row
    exact other ((devoff_div row.1 row.2).symm.trans own)
  · obtain ⟨part, past⟩ := not_or.mp narrow
    obtain ⟨par, rfl, _⟩ := change.part (Bool.not_eq_true _ ▸ part)
    rcases mem_partialWrites.mp member with data | ⟨p, _, rfl⟩
    · have row := piece_writes_row one data covers
      exact other ((devoff_div row.1 row.2).symm.trans own)
    · -- The parity goes to the largest `int`.
      have free : meets g c.uio s = false := apart.resolve_left part
      obtain ⟨_, low, high⟩ := covers
      simp only at low high
      have start := partialRange_wide one (by omega)
      have length := partialRange_len one
      simp only [meets, decide_eq_false_iff_not, not_or, not_and] at free
      omega

theorem change_sound (parities : g.PARITYCHUNK_NUM = 1) {c : Call} (one : OneStripe g c.uio) {st after : Store}
    {writes : List DeviceWrite} (change : Change g isal c st writes after) {s : Nat} {sound : Bool}
    (before : sound = true → RowZero g st.devs s) (still : sound_after g s sound c = true) : RowZero g after.devs s := by
  unfold sound_after at still
  have kept : sound = true → stripeOf g c.uio ≠ s →
      is_fullstripe g c.uio.user_offset c.uio.length = true ∨ meets g c.uio s = false → RowZero g after.devs s := by
    intro was other apart q inside
    have same : (fun d => after.devs d (s * g.SCHUNK_SIZE + q)) = fun d => st.devs d (s * g.SCHUNK_SIZE + q) :=
      funext (other_row one change other apart inside)
    rw [same]
    exact before was q inside
  cases full : is_fullstripe g c.uio.user_offset c.uio.length with
  | true =>
    by_cases own : stripeOf g c.uio = s
    · exact own ▸ full_row parities (change_written change full)
    · simp only [full, ↓reduceIte, Bool.or_eq_true, beq_iff_eq, own, or_false] at still
      exact kept still own (.inl full)
  | false =>
    simp only [full, Bool.false_eq_true, ↓reduceIte, Bool.and_eq_true, Bool.not_eq_eq_eq_not, Bool.not_true] at still
    refine kept still.1 (fun own => ?_) (.inr still.2)
    have free := still.2
    simp [meets, own] at free

theorem changes_sound (parities : g.PARITYCHUNK_NUM = 1) {cs : List Call} {st after : Store} {ss : List Submission}
    (changes : Changes g isal cs st ss after) {s : Nat} {sound : Bool} (before : sound = true → RowZero g st.devs s)
    (still : cs.foldl (sound_after g s) sound = true) : RowZero g after.devs s := by
  induction changes generalizing sound with
  | nil => exact before still
  | cons one change _ ih => exact ih (change_sound parities one change before) still

variable (isal)

/-- From devices of zeros, after every call of a run, every row that no partial
    stripe was written into since its last full stripe has sum zero on the
    devices. -/
theorem row_zero_of_sound (parities : g.PARITYCHUNK_NUM = 1) {calls : List Call} (valid : ∀ c ∈ calls, c.uio.Valid g)
    (rands : Nat → Nat) (wild : Buf) (n : Nat) : ∃ submissions after,
      run_calls g isal (calls.take n) (Store.fresh g (fun _ _ => 0) rands wild) = some (submissions, after) ∧
      ∀ s, row_sound g (calls.take n) s = true → RowZero g after.devs s := by
  obtain ⟨submissions, after, run, changes, _⟩ := run_calls_changes isal
    (fun c member => valid c (List.mem_of_mem_take member)) (fresh_quiet (g := g) (fun _ _ => 0) rands wild)
  refine ⟨submissions, after, run, fun s sound => changes_sound parities changes ?_ sound⟩
  intro _ q _
  refine xorSum_zero fun b member => ?_
  obtain ⟨d, _, rfl⟩ := List.mem_map.mp member
  rfl

/-- A block in stripe 0, the whole of stripe 0 and a block in stripe 1: row 0 is
    sound. -/
theorem row_zero_rewritten : ∃ submissions after, run_calls defaultGeometry Isal.reference
    [⟨⟨0, true, 4096, 8192, 4096⟩, fun a => a⟩, ⟨⟨1, true, 4096, 0, 458752⟩, fun a => a⟩,
      ⟨⟨2, true, 4096, 458752, 4096⟩, fun a => a⟩]
    (Store.fresh defaultGeometry (fun _ _ => 0) (fun _ => 0) (fun _ => 0)) = some (submissions, after) ∧
      RowZero defaultGeometry after.devs 0 := by
  have valid : ∀ c ∈ ([⟨⟨0, true, 4096, 8192, 4096⟩, fun a => a⟩, ⟨⟨1, true, 4096, 0, 458752⟩, fun a => a⟩,
      ⟨⟨2, true, 4096, 458752, 4096⟩, fun a => a⟩] : List Call), c.uio.Valid defaultGeometry := by
    simp only [List.mem_cons, List.not_mem_nil, or_false, forall_eq_or_imp, forall_eq]
    decide
  obtain ⟨submissions, after, run, rows⟩ := row_zero_of_sound Isal.reference rfl valid (fun _ => 0) (fun _ => 0) 3
  exact ⟨submissions, after, run, rows 0 (by decide +kernel)⟩

/-- A block of ones in stripe 0 of devices of zeros: the parity of row 0 stays
    zero. -/
theorem row_zero_block : UioInfo.Valid defaultGeometry ⟨0, true, 4096, 0, 4096⟩ ∧
    ∃ submissions after, run_calls defaultGeometry Isal.reference [⟨⟨0, true, 4096, 0, 4096⟩, fun _ => 1⟩]
      (Store.fresh defaultGeometry (fun _ _ => 0) (fun _ => 0) (fun _ => 0)) = some (submissions, after) ∧
      ¬ RowZero defaultGeometry after.devs 0 := by
  have sum : (run_calls defaultGeometry Isal.reference [⟨⟨0, true, 4096, 0, 4096⟩, fun _ => 1⟩]
      (Store.fresh defaultGeometry (fun _ _ => 0) (fun _ => 0) (fun _ => 0))).map
        (fun result => xorSum ((List.range 8).map fun d => result.2.devs d 0)) = some 1 := by decide +kernel
  obtain ⟨result, run, value⟩ := Option.map_eq_some_iff.mp sum
  refine ⟨by decide, result.1, result.2, run, fun zero => ?_⟩
  exact absurd (value.symm.trans (zero 0 (by decide))) (by decide)

end Straid.ParityRows
