import Straid.PartialStripe

/-!
Runs of calls, one after another. `Change` is what a write of a piece does to the
devices, the parity buffers and the cache, on the path of a full stripe and on
that of a partial one. Between calls no stripe is locked and no request is
delegated (`Quiet`), so no call waits or fails: a run of valid calls is a run of
changes, one for each piece of each call (`run_calls_changes`), and ends
(`run_calls_total`).
-/
namespace Straid.Runs
open LogFiles Metadata Split Encode EcEncoder StorageMod FullStripe PartialStripe Cuts Overlays

variable (g : Geometry) (isal : Isal)

/-- What a write of the piece `c.uio` does with the writes `writes`. -/
structure Change (c : Call) (st : Store) (writes : List DeviceWrite) (after : Store) : Prop where
  devs : after.devs = applyAll st.devs writes
  full : is_fullstripe g c.uio.user_offset c.uio.length = true →
    writes = fullWrites g (stripeOf g c.uio) (fullData g c.mem c.uio.buf (st.v_endatabuf c.uio.user_id))
      (fullParity g isal c.mem c.uio.buf (st.v_endatabuf c.uio.user_id) (st.v_enparitybuf c.uio.user_id)) ∧
    after.v_enparitybuf = Function.update st.v_enparitybuf c.uio.user_id
      (fullParity g isal c.mem c.uio.buf (st.v_endatabuf c.uio.user_id) (st.v_enparitybuf c.uio.user_id)) ∧
    after.cache_mod = st.cache_mod
  part : is_fullstripe g c.uio.user_offset c.uio.length = false → ∃ par,
    writes = partialWrites g c.mem c.uio par ∧
    after.v_enparitybuf = Function.update st.v_enparitybuf c.uio.user_id par ∧
    (∀ k ∈ Cache.keys after.cache_mod, k = (partialRange g c.uio).1 ∨ k ∈ Cache.keys st.cache_mod) ∧
    (Cache.keys st.cache_mod = [] → (partialRange g c.uio).1 ∈ Cache.keys after.cache_mod)

/-- A state between two calls. -/
structure Quiet (st : Store) : Prop where
  ready : Ready g st
  unlocked : ∀ s, (st.sst s).stripe_lock = false

/-- The pieces of a call, as calls of their own. -/
def call_pieces (c : Call) : List Call := (split_stripe_aligned g c.uio).map fun piece => ⟨piece, c.mem⟩

/-- The pieces of calls, in order. -/
def pieces (calls : List Call) : List Call := calls.flatMap (call_pieces g)

/-- A run of changes, one for each piece. -/
inductive Changes : List Call → Store → List Submission → Store → Prop
  | nil (st : Store) : Changes [] st [] st
  | cons {c : Call} {rest : List Call} {st middle after : Store} {writes : List DeviceWrite}
      {later : List Submission} (one : OneStripe g c.uio) (change : Change g isal c st writes middle)
      (tail : Changes rest middle later after) : Changes (c :: rest) st (⟨c.uio, writes⟩ :: later) after

variable {g}

theorem fresh_quiet (devs : Nat → Nat → Byte) (rands : Nat → Nat) (wild : Buf) :
    Quiet g (Store.fresh g devs rands wild) where
  ready := ⟨fun _ => rfl, Cache.fresh_inv (by decide) (by decide) rands wild⟩
  unlocked _ := rfl

/-! ### One piece -/

theorem full_stripe {uio : UioInfo} (full : is_fullstripe g uio.user_offset uio.length = true) :
    uio.user_offset = stripeOf g uio * g.SSTRIPE_DATASIZE ∧ uio.length = g.SSTRIPE_DATASIZE := by
  rw [stripeOf, user2stripe_eq]
  exact (is_fullstripe_iff ..).mp full

/-- A write of a piece on either path: it does not fail, and it freezes the
    stripe of the piece. -/
theorem raid_write_spec {c : Call} (one : OneStripe g c.uio) {st : Store} (ready : Ready g st) :
    ∃ writes after, raid_write g isal c.mem c.uio st = some (⟨c.uio, writes⟩, after) ∧
      Change g isal c st writes after ∧ Ready g after ∧
      after.sst = Function.update st.sst (stripeOf g c.uio) { st.sst (stripeOf g c.uio) with is_frozen := true } := by
  have user := one.user
  have positive := one.positive
  have entry : stripeOf g c.uio ≤ g.USER_SPACE_LEN / g.SSTRIPE_DATASIZE + 100 := user_entry (by omega)
  cases full : is_fullstripe g c.uio.user_offset c.uio.length with
  | true =>
    obtain ⟨offset, length⟩ := full_stripe full
    refine ⟨_, _, raid_write_full_eq isal one.buffer one.thread entry offset length c.mem st, ⟨rfl, ?_, ?_⟩, ?_, rfl⟩
    · exact fun _ => ⟨rfl, rfl, rfl⟩
    · intro part
      rw [full] at part
      contradiction
    · exact ⟨ready.idle, ready.cache⟩
  | false =>
    have ready' : Ready g { st with blk_bitmap := resetBlocks c.uio st.blk_bitmap } := ⟨ready.idle, ready.cache⟩
    obtain ⟨par, after, encoded, step⟩ := encode_partialstripe_spec isal one ready' c.mem
    refine ⟨partialWrites g c.mem c.uio par, after, ?_, ⟨step.devs, ?_, ?_⟩, step.ready, step.sst⟩
    · have some_len : ¬ (c.uio.buf = 0 ∨ c.uio.length = 0) := by
        have := one.buffer
        omega
      simp only [raid_write, some_len, ↓reduceIte, split_chunk2dio_piece one, full, Option.bind_eq_bind,
        Option.bind_some, Bool.false_eq_true]
      exact congrArg (Option.bind · _) encoded
    · intro part
      rw [full] at part
      contradiction
    · exact fun _ => ⟨par, rfl, step.parity, step.keys, step.first⟩

/-- One round of the loop of `raid_write_direct`, when no stripe is locked. -/
theorem write_piece_spec {uio : UioInfo} (valid : uio.Valid g) {c : Call} (one : OneStripe g c.uio) {st : Store}
    (quiet : Quiet g st) : ∃ writes after, write_piece g isal c.mem uio c.uio st = some (⟨c.uio, writes⟩, after) ∧
      Change g isal c st writes after ∧ Quiet g after := by
  have user := valid.user
  have positive := valid.positive
  have found : search_SST g (user2stripe g uio.user_offset) = some (user2stripe g uio.user_offset) :=
    search_SST_eq (user_entry (by omega))
  have ready : Ready g { st with
      sst := Function.update st.sst (user2stripe g uio.user_offset) ⟨uio.user_id, true, false⟩ } :=
    ⟨quiet.ready.idle, quiet.ready.cache⟩
  obtain ⟨writes, after, written, change, ready, sst⟩ := raid_write_spec isal one ready
  refine ⟨writes, { after with
    sst := Function.update after.sst (user2stripe g uio.user_offset)
      { after.sst (user2stripe g uio.user_offset) with SSTthreadid := INT16_MAX, stripe_lock := false } }, ?_,
    ⟨change.devs, change.full, change.part⟩, ⟨⟨ready.idle, ready.cache⟩, ?_⟩⟩
  · simp only [write_piece, found, quiet.unlocked, Bool.false_eq_true, ↓reduceIte, Option.bind_eq_bind,
      Option.bind_some, written]
  · -- Only the lock of the request's stripe was taken, and it is free again.
    intro s
    have free := quiet.unlocked s
    simp only [sst, Function.update_apply]
    by_cases first : s = user2stripe g uio.user_offset <;> by_cases own : s = stripeOf g c.uio <;> simp_all

/-! ### Runs -/

theorem changes_append {cs ds : List Call} {st middle after : Store} {ss ts : List Submission}
    (first : Changes g isal cs st ss middle) (second : Changes g isal ds middle ts after) :
    Changes g isal (cs ++ ds) st (ss ++ ts) after := by
  induction first with
  | nil => exact second
  | cons one change _ ih => exact .cons one change (ih second)

theorem write_pieces_changes {uio : UioInfo} (valid : uio.Valid g) (mem : Nat → Byte) {suios : List UioInfo}
    (ones : ∀ piece ∈ suios, OneStripe g piece) {st : Store} (quiet : Quiet g st) :
    ∃ submissions after, write_pieces g isal mem uio suios st = some (submissions, after) ∧
      Changes g isal (suios.map fun piece => ⟨piece, mem⟩) st submissions after ∧ Quiet g after := by
  induction suios generalizing st with
  | nil => exact ⟨[], st, rfl, .nil st, quiet⟩
  | cons piece suios ih =>
    have one := ones piece List.mem_cons_self
    obtain ⟨writes, middle, written, change, quiet'⟩ := write_piece_spec isal valid (c := ⟨piece, mem⟩) one quiet
    obtain ⟨later, after, rest, changes, quiet''⟩ :=
      ih (fun other member => ones other (List.mem_cons_of_mem _ member)) quiet'
    refine ⟨⟨piece, writes⟩ :: later, after, ?_, .cons one change changes, quiet''⟩
    simp only [write_pieces, written, rest, Option.bind_eq_bind, Option.bind_some]

theorem raid_write_direct_changes {c : Call} (valid : c.uio.Valid g) {st : Store} (quiet : Quiet g st) :
    ∃ submissions after, raid_write_direct g isal c.mem c.uio st = some (submissions, after) ∧
      Changes g isal (call_pieces g c) st submissions after ∧ Quiet g after := by
  have some_piece : ¬ (split_stripe_aligned g c.uio).length = 0 := by
    have := blocks_pos g.SSTRIPE_DATASIZE c.uio.user_offset valid.positive
    rw [split_stripe_aligned_valid valid]
    simp only [cut, List.length_map, List.length_range']
    omega
  rw [raid_write_direct, if_neg some_piece]
  exact write_pieces_changes isal valid c.mem (fun piece member => piece_oneStripe valid member) quiet

/-- A run of valid calls is a run of changes, and ends in a state as it started
    from. -/
theorem run_calls_changes {calls : List Call} (valid : ∀ c ∈ calls, c.uio.Valid g) {st : Store} (quiet : Quiet g st) :
    ∃ submissions after, run_calls g isal calls st = some (submissions, after) ∧
      Changes g isal (pieces g calls) st submissions after ∧ Quiet g after := by
  induction calls generalizing st with
  | nil => exact ⟨[], st, rfl, .nil st, quiet⟩
  | cons c calls ih =>
    obtain ⟨first, middle, written, changes, quiet'⟩ :=
      raid_write_direct_changes isal (valid c List.mem_cons_self) quiet
    obtain ⟨later, after, rest, changes', quiet''⟩ :=
      ih (fun other member => valid other (List.mem_cons_of_mem _ member)) quiet'
    refine ⟨first ++ later, after, ?_, changes_append isal changes changes', quiet''⟩
    simp only [run_calls, written, rest, Option.bind_eq_bind, Option.bind_some]

/-- A run of valid calls from the constructed state ends: no assertion and no
    bound on the way fails. -/
theorem run_calls_total (devs : Nat → Nat → Byte) (rands : Nat → Nat) (wild : Buf) {calls : List Call}
    (valid : ∀ c ∈ calls, c.uio.Valid g) :
    ∃ submissions after, run_calls g isal calls (Store.fresh g devs rands wild) = some (submissions, after) := by
  obtain ⟨submissions, after, run, _, _⟩ := run_calls_changes isal valid (fresh_quiet devs rands wild)
  exact ⟨submissions, after, run⟩

/-- A block, a stripe and a request of several stripes. -/
theorem run_calls_three : ∃ submissions after, run_calls defaultGeometry Isal.reference
    [⟨⟨0, true, 4096, 8192, 4096⟩, fun a => a⟩, ⟨⟨1, true, 4096, 458752, 458752⟩, fun _ => 7⟩,
      ⟨⟨2, true, 4096, 4096, 1000000⟩, fun a => a⟩] (Store.fresh defaultGeometry (fun _ _ => 0) (fun n => n) (fun _ => 0)) =
    some (submissions, after) :=
  run_calls_total Isal.reference _ _ _ (by simp; decide)

end Straid.Runs
