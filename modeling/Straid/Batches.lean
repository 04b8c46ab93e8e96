import Straid.PartialStripe
import Straid.Queues

/-!
What a thread copies out of its queue. When requests come in time (`Timely`), and
each for the stripe that the thread of the queue writes, every batch is of that
stripe (`in_stripe_of_timely`): no offset in the chunk wraps, and the offsets and
lengths that the encoder is given are those of the requests whose old data it is
given, in the same order.
-/
namespace Straid.Batches
open LogFiles Metadata Split Encode PartialStripe Threads Locks Queues Interleavings

variable (g : Geometry)

/-- A thread that collects for one that writes the same stripe. -/
def SameStripe (w u : Thread) : Prop := w.stripe g = u.stripe g

instance (w u : Thread) : Decidable (SameStripe g w u) := inferInstanceAs (Decidable (_ = _))

/-- A batch is of stripe `s`: its device requests are in the row of the stripe, no
    offset in the chunk wraps, and the offsets and the lengths are those of the
    requests whose old data is in the buffers, in the same order. -/
structure OfStripe (s : Nat) (v_dios bat_dios : List DioInfo) : Prop where
  stripe : ∀ dio ∈ bat_dios, devoff2stripe g dio.dev_offset = s
  above : ∀ dio ∈ bat_dios, stripe2devoff g s 0 ≤ dio.dev_offset
  offsets : chunk_offsets v_dios bat_dios (stripe2devoff g s 0) =
    (v_dios ++ bat_dios).map fun dio => dio.dev_offset - stripe2devoff g s 0
  lengths : chunk_lengths v_dios bat_dios (stripe2devoff g s 0) = (v_dios ++ bat_dios).map DioInfo.length
  buffers : ∀ devs bufs, (read_old_data g devs 0 v_dios bufs).bind (read_old_data g devs v_dios.length bat_dios) =
    read_old_data g devs 0 (v_dios ++ bat_dios) bufs

/-- Every thread in `raid_write` has a batch of the stripe of its piece. -/
def InStripe (st : System) : Prop := ∀ t, (st.threads t).pc.inside = true → ∃ v_dios,
  split_chunk2dio g (st.threads t).piece = some v_dios ∧
  devoff2stripe g (v_dios.headD default).dev_offset = ((st.threads t).stripe g : Nat) ∧
  OfStripe g ((st.threads t).stripe g) v_dios ((st.threads t).pc.batch.map Slot.dio)

/-- What holds of the queues between two steps. -/
structure BatchInv (st : System) : Prop where
  len : LenInv g st
  sound : ∀ t, Sound g t (st.threads t)
  filling : ∀ t w i, (st.threads t).pc.fills = some (w, i) →
    LiveIn g st w i ∧ (st.threads w).stripe g = (st.threads t).stripe g
  filled : ∀ w i, LiveIn g st w i → (∃ t, (st.threads t).pc.fills = some (w, i)) ∨
    InRowOf g ((st.threads w).stripe g) (st.v_batchque2 w i).dio.dev_offset
  batch : ∀ t, ∀ slot ∈ (st.threads t).pc.batch, InRowOf g ((st.threads t).stripe g) slot.dio.dev_offset

variable {g} {t : Nat} {st st' : System}

theorem request_row {th : Thread} (sound : Sound g t th) {wid idx : Nat} {dio : DioInfo}
    (pc : th.pc = .store_slot wid idx dio) : InRowOf g (th.stripe g) dio.dev_offset := by
  have one := sound.piece (by simp [pc])
  have made := sound.request dio (by simp [pc, Pc.dio])
  have user := one.user
  have positive := one.positive
  rw [s_uio2dio, checked_dio_eq _ one.buffer (by omega), Option.some.injEq] at made
  subst made
  exact devoffOf_row _

/-! ### Batches -/

theorem batch_copy (inv : BatchInv g st) {qlen : Nat} {bat_dios : List Slot} (pc : (st.threads t).pc = .copy qlen bat_dios)
    (ready : ∀ u, (st.threads u).pc.fills ≠ some (t, bat_dios.length)) {s : Nat} (len : LenInv g (copy t s qlen bat_dios st))
    (sound : ∀ u, Sound g u ((copy t s qlen bat_dios st).threads u)) : BatchInv g (copy t s qlen bat_dios st) := by
  have stripe : ∀ u, ((copy t s qlen bat_dios st).threads u).stripe g = (st.threads u).stripe g := fun u =>
    goto_stripe (st.record _) t _ u
  have frame : ∀ u, u ≠ t → (copy t s qlen bat_dios st).threads u = st.threads u := fun u => goto_other (st.record _) _
  have fills : ((copy t s qlen bat_dios st).threads t).pc.fills = none := by
    rw [copy, goto_own]
    split <;> rfl
  have batch : ((copy t s qlen bat_dios st).threads t).pc.batch = bat_dios ++ [st.v_batchque2 t bat_dios.length] := by
    rw [copy, goto_own]
    split <;> rfl
  refine ⟨len, sound, ?_, ?_, ?_⟩
  · intro u w i filling
    have own : u ≠ t := by
      rintro rfl
      simp [fills] at filling
    rw [frame u own] at filling
    rw [stripe, stripe, live_copy_step inv.len pc]
    obtain ⟨was_live, equal⟩ := inv.filling u w i filling
    refine ⟨⟨was_live, ?_⟩, equal⟩
    rintro ⟨rfl, rfl⟩
    exact ready u filling
  · intro w i live
    rw [stripe]
    rcases inv.filled w i ((live_copy_step inv.len pc _ w i).mp live).1 with ⟨u, filling⟩ | row
    · have own : u ≠ t := by
        rintro rfl
        simp [pc, Pc.fills] at filling
      exact .inl ⟨u, by rw [frame u own]; exact filling⟩
    · exact .inr row
  · intro u slot member
    rw [stripe]
    by_cases own : u = t
    · subst own
      rw [batch] at member
      rcases List.mem_append.mp member with old | new
      · exact inv.batch u slot (by simpa [pc, Pc.batch] using old)
      · rw [List.mem_singleton.mp new]
        have live : LiveIn g st u bat_dios.length :=
          (live_copy pc _ _).mpr ⟨Nat.le_refl _, (inv.len.copying u _ _ pc).2⟩
        rcases inv.filled u _ live with ⟨v, filling⟩ | row
        · exact absurd filling (ready v)
        · exact row
    · rw [frame u own] at member
      exact inv.batch u slot member

theorem batch_fetch (inv : BatchInv g st) {wid : Nat} {dio : DioInfo} (pc : (st.threads t).pc = .fetch_add wid dio)
    (collects : (st.threads wid).collects g = true) (equal : (st.threads wid).stripe g = (st.threads t).stripe g)
    {after : System} (eq : after = (st.set_len wid (st.inqueue_data_len wid + 1)).goto t
      (.store_slot wid (st.inqueue_data_len wid) dio)) (len : LenInv g after) (sound : ∀ u, Sound g u (after.threads u)) :
    BatchInv g after := by
  subst eq
  have stripe := goto_stripe (g := g) (st.set_len wid (st.inqueue_data_len wid + 1)) t
    (.store_slot wid (st.inqueue_data_len wid) dio)
  have frame := fun u => goto_other (u := u) (st.set_len wid (st.inqueue_data_len wid + 1)) (t := t)
    (.store_slot wid (st.inqueue_data_len wid) dio)
  refine ⟨len, sound, ?_, ?_, ?_⟩
  · intro u w i filling
    rw [stripe, stripe, live_fetch_step pc collects]
    by_cases own : u = t
    · subst own
      rw [goto_own] at filling
      simp only [Pc.fills, Option.some.injEq, Prod.mk.injEq] at filling
      obtain ⟨rfl, rfl⟩ := filling
      exact ⟨.inr ⟨rfl, rfl⟩, equal⟩
    · rw [frame u own] at filling
      obtain ⟨was_live, equal⟩ := inv.filling u w i filling
      exact ⟨.inl was_live, equal⟩
  · intro w i live
    rw [stripe]
    rcases (live_fetch_step pc collects w i).mp live with was_live | ⟨rfl, rfl⟩
    · rcases inv.filled w i was_live with ⟨u, filling⟩ | row
      · have own : u ≠ t := by
          rintro rfl
          simp [pc, Pc.fills] at filling
        exact .inl ⟨u, by rw [frame u own]; exact filling⟩
      · exact .inr row
    · exact .inl ⟨t, by rw [goto_own]; rfl⟩
  · intro u slot member
    rw [stripe]
    by_cases own : u = t
    · subst own
      simp [Pc.batch] at member
    · rw [frame u own] at member
      exact inv.batch u slot member

theorem batch_fill (inv : BatchInv g st) {wid idx : Nat} {dio : DioInfo} (pc : (st.threads t).pc = .store_slot wid idx dio)
    {after : System} (eq : after = (st.set_slot wid idx ⟨dio, some (t, (st.threads t).count)⟩).goto t (.spin wid idx dio))
    (len : LenInv g after) (sound : ∀ u, Sound g u (after.threads u)) : BatchInv g after := by
  subst eq
  have stripe := goto_stripe (g := g) (st.set_slot wid idx ⟨dio, some (t, (st.threads t).count)⟩) t (.spin wid idx dio)
  have frame := fun u => goto_other (u := u) (st.set_slot wid idx ⟨dio, some (t, (st.threads t).count)⟩) (t := t)
    (.spin wid idx dio)
  have equal := (inv.filling t wid idx (by simp [pc, Pc.fills])).2
  refine ⟨len, sound, ?_, ?_, ?_⟩
  · intro u w i filling
    have own : u ≠ t := by
      rintro rfl
      simp [Pc.fills] at filling
    rw [frame u own] at filling
    rw [stripe, stripe, live_fill_step pc]
    exact inv.filling u w i filling
  · intro w i live
    rw [stripe]
    by_cases this : w = wid ∧ i = idx
    · obtain ⟨rfl, rfl⟩ := this
      have row := request_row (inv.sound t) pc
      exact .inr (by rw [System.goto, System.set, set_slot_own]; exact equal ▸ row)
    · rcases inv.filled w i ((live_fill_step pc _ w i).mp live) with ⟨u, filling⟩ | row
      · have own : u ≠ t := by
          rintro rfl
          simp only [pc, Pc.fills, Option.some.injEq, Prod.mk.injEq] at filling
          exact this ⟨filling.1.symm, filling.2.symm⟩
        exact .inl ⟨u, by rw [frame u own]; exact filling⟩
      · exact .inr (by rw [System.goto, System.set, set_slot_other _ _ this]; exact row)
  · intro u slot member
    rw [stripe]
    by_cases own : u = t
    · subst own
      simp [Pc.batch] at member
    · rw [frame u own] at member
      exact inv.batch u slot member

theorem batch_step (effect : Effect g t st st') (timely : Timely g (SameStripe g) st t) (inv : BatchInv g st) :
    BatchInv g st' := by
  have len := len_step effect timely inv.len
  have sound := sound_step effect inv.sound
  cases queue_effect effect inv.len with
  | keeps keeps =>
    obtain ⟨slots, fills, live, batch, same⟩ := keeps
    have stripe : ∀ u, Engaged g st' u → (st'.threads u).stripe g = (st.threads u).stripe g := by
      intro u engaged
      obtain ⟨pc, eq⟩ := same u engaged
      rw [eq]
      rfl
    refine ⟨len, sound, ?_, ?_, ?_⟩
    · intro u w i filling
      rw [fills] at filling
      obtain ⟨was_live, equal⟩ := inv.filling u w i filling
      refine ⟨(live w i).mpr was_live, ?_⟩
      rw [stripe u (.inl (by rw [fills, filling]; simp)), stripe w (.inr (.inl ⟨i, (live w i).mpr was_live⟩))]
      exact equal
    · intro w i is_live
      rw [stripe w (.inr (.inl ⟨i, is_live⟩)), slots]
      simp only [fills]
      exact inv.filled w i ((live w i).mp is_live)
    · intro u slot member
      rw [stripe u (.inr (.inr (List.ne_nil_of_mem member)))]
      exact inv.batch u slot (batch u slot member)
  | copies pc => exact batch_copy inv pc (copy_ready timely inv.sound pc) len sound
  | @fetches wid dio pc =>
    obtain ⟨collects, equal⟩ := timely.1 wid (by simp [pc, Pc.fetches])
    exact batch_fetch inv pc collects equal rfl len sound
  | fills pc => exact batch_fill inv pc rfl len sound

/-! ### Stripes -/

/-- Device requests in the row of the stripe of a piece are of that stripe. -/
theorem ofStripe_of_row {piece : UioInfo} (one : OneStripe g piece) {bat_dios : List DioInfo}
    (row : ∀ dio ∈ bat_dios, InRowOf g (stripeOf g piece) dio.dev_offset) :
    OfStripe g (stripeOf g piece) (piece_dios g piece) bat_dios := by
  have user := one.user
  have positive := one.positive
  have entry : stripeOf g piece ≤ g.USER_SPACE_LEN / g.SSTRIPE_DATASIZE + 100 := user_entry (by omega)
  have fits := (table_bounds entry).2.2
  have start : stripe2devoff g (stripeOf g piece) 0 = stripeOf g piece * g.SCHUNK_SIZE := stripe2devoff_eq (by omega)
  have rows : ∀ dio ∈ piece_dios g piece ++ bat_dios, InRowOf g (stripeOf g piece) dio.dev_offset := by
    intro dio member
    rcases List.mem_append.mp member with own | batch
    · obtain ⟨r, there, rfl⟩ := mem_piece_dios.mp own
      obtain ⟨some_part, _, low, high⟩ := piece_part one there
      exact ⟨low, by simp only [dioOf]; omega⟩
    · exact row dio batch
  have kept : batch_kept bat_dios (stripeOf g piece * g.SCHUNK_SIZE) = bat_dios := by
    refine List.filter_eq_self.mpr fun dio member => ?_
    have low := (row dio member).1
    simp only [not_lt, decide_eq_true_eq]
    exact low
  rw [← start] at kept
  refine ⟨?_, ?_, ?_, ?_, ?_⟩
  · intro dio member
    exact devoff2stripe_row entry (row dio member).1 (row dio member).2
  · intro dio member
    rw [start]
    exact (row dio member).1
  · rw [chunk_offsets, kept, start]
    refine List.map_congr_left fun dio member => ?_
    obtain ⟨low, high⟩ := rows dio member
    exact u64_sub_small (by omega) low
  · rw [chunk_lengths, kept]
  · intro devs bufs
    simpa using read_old_append devs (piece_dios g piece) bat_dios 0 bufs

theorem start_batch {calls : Nat → List UioInfo} (valid : ∀ t, ∀ uio ∈ calls t, uio.Valid g ∧ uio.user_id = t) :
    BatchInv g (System.start calls) where
  len := start_len calls
  sound := start_sound valid
  filling t w i filling := by simp [System.start, Pc.fills] at filling
  filled w i live := absurd live (not_live (by simp [System.start, Pc.holds]) _ _)
  batch t slot member := by simp [System.start, Pc.batch] at member

/-- When every request is put into a queue only while the thread of the queue
    collects for the stripe of the request, and no slot is copied before it is
    filled, every batch is of the stripe that its thread writes, in every state
    that such steps reach. -/
theorem in_stripe_of_timely {calls : Nat → List UioInfo} (valid : ∀ t, ∀ uio ∈ calls t, uio.Valid g ∧ uio.user_id = t)
    (reachable : Reachable (step g) (Timely g (SameStripe g)) (System.start calls) st) : InStripe g st := by
  have inv : BatchInv g st := reachable.invariant (start_batch valid) fun inv timely next =>
    batch_step (step_effect next) timely inv
  intro t inside
  have one : OneStripe g (st.threads t).piece := (inv.sound t).piece (by
    intro idle
    simp [idle, Pc.inside] at inside)
  refine ⟨_, split_chunk2dio_piece one, head_stripe one, ofStripe_of_row one fun dio member => ?_⟩
  obtain ⟨slot, there, rfl⟩ := List.mem_map.mp member
  exact inv.batch t slot there

/-- The first has copied the request of the second. -/
theorem in_stripe_one_stripe : ∃ st, Reachable (step defaultGeometry) (Timely defaultGeometry (SameStripe defaultGeometry))
    (System.start one_stripe) st ∧ (st.threads 0).pc.batch.length = 1 ∧ InStripe defaultGeometry st := by
  have result : (run (step defaultGeometry) (Timely defaultGeometry (SameStripe defaultGeometry))
      ([0, 0, 0, 0] ++ List.replicate 8 1 ++ [0, 0, 0]) (System.start one_stripe)).map
        (fun st => (st.threads 0).pc.batch.length) = some 1 := by decide +kernel
  obtain ⟨st, reached, batch⟩ := Option.map_eq_some_iff.mp result
  have reachable := run_reachable reached
  exact ⟨st, reachable, batch, in_stripe_of_timely one_stripe_valid reachable⟩

/-- A thread with requests in two stripes, and one with a request in the first of
    them. -/
def two_stripes : Nat → List UioInfo
  | 0 => [⟨0, true, 4096, 0, 4096⟩, ⟨0, true, 4096, 458752, 4096⟩]
  | 1 => [⟨1, true, 4096, 8192, 4096⟩]
  | _ => []

theorem two_stripes_valid : ∀ t, ∀ uio ∈ two_stripes t, uio.Valid defaultGeometry ∧ uio.user_id = t
  | 0 => by decide
  | 1 => by decide
  | _ + 2 => by simp [two_stripes]

/-- The second thread sees the first one in stripe 0, and puts its request into
    the queue of that thread when it is in stripe 1. -/
theorem in_stripe_late : (∀ t, ∀ uio ∈ two_stripes t, uio.Valid defaultGeometry ∧ uio.user_id = t) ∧
    ∃ st, Reachable (step defaultGeometry) (fun _ _ => True) (System.start two_stripes) st ∧
      ¬ InStripe defaultGeometry st := by
  refine ⟨two_stripes_valid, ?_⟩
  have result : (run (step defaultGeometry) (fun _ _ => True)
      ([0, 0, 0, 0] ++ List.replicate 6 1 ++ List.replicate 10 0 ++ [1, 1] ++ [0, 0]) (System.start two_stripes)).map
        (fun st => ((st.threads 0).pc.inside, (st.threads 0).stripe defaultGeometry,
          (st.threads 0).pc.batch.map fun slot => devoff2stripe defaultGeometry slot.dio.dev_offset)) =
      some (true, 1, [0]) := by
    decide +kernel
  obtain ⟨st, reached, seen⟩ := Option.map_eq_some_iff.mp result
  simp only [Prod.mk.injEq] at seen
  obtain ⟨inside, stripe, batch⟩ := seen
  refine ⟨st, run_reachable reached, fun in_stripe => ?_⟩
  obtain ⟨v_dios, _, _, of_stripe⟩ := in_stripe 0 inside
  have own : ∀ s ∈ (st.threads 0).pc.batch.map fun slot => devoff2stripe defaultGeometry slot.dio.dev_offset, s = 1 := by
    intro s member
    obtain ⟨slot, there, rfl⟩ := List.mem_map.mp member
    rw [of_stripe.stripe slot.dio (List.mem_map_of_mem there), stripe]
    rfl
  rw [batch] at own
  exact absurd (own 0 List.mem_cons_self) (by decide)

end Straid.Batches
