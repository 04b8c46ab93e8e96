import Straid.SequentialWrites

/-!
What a write of a partial stripe finds in the cache, and what it leaves there. A
call of `get` copies no byte, so no entry gives the bytes that were inserted, and
none is refreshed: a run is coherent exactly when all its writes are of full
stripes (`coherent_iff`). The lookups alone are right more often, since on a hit the
parity buffers of the thread stay as they are: when the thread is the last one to
have written to the stripe and has written nothing else since, they hold what is on
the parity device. `Fits` has this for one write, in terms of the writes before it
(`last_by`, `last_to`) and the keys in the cache; `lookups_of_fits` is about a run of
such writes.
-/
namespace Straid.CacheCoherence
open LogFiles Metadata Split Encode EcEncoder StorageMod FullStripe PartialStripe Runs SequentialWrites Overlays

variable (g : Geometry) (isal : Isal)

/-! ### Histories of writes -/

/-- The last write of a thread. -/
def last_by (before : List UioInfo) (tid : Nat) : Option UioInfo := before.reverse.find? (fun d => d.user_id == tid)

/-- The last write to a stripe. -/
def last_to (before : List UioInfo) (s : Nat) : Option UioInfo := before.reverse.find? (fun d => stripeOf g d == s)

/-- A write takes the path of a partial stripe. -/
def Part (piece : UioInfo) : Prop := is_fullstripe g piece.user_offset piece.length = false

instance (piece : UioInfo) : Decidable (Part g piece) := inferInstanceAs (Decidable (_ = false))

/-- The lookup of a write is right, and so are those after it, after the writes
    `before` and with `keys` in the cache. -/
structure Fits (before : List UioInfo) (keys : List Nat) (piece : UioInfo) : Prop where
  /-- Its parity write is not past the largest `int`. -/
  narrow : Narrow g piece
  /-- A full stripe has nothing of its row in the cache. -/
  full : ¬ Part g piece → ∀ k ∈ keys, ¬ InRowOf g (stripeOf g piece) k
  /-- A partial stripe has no more of its row in the cache than its own offset. -/
  part : Part g piece → ∀ k ∈ keys, InRowOf g (stripeOf g piece) k → k = (partialRange g piece).1
  /-- When that is there, and there is one parity chunk, the last write to the
      stripe is the last write of the thread, and was no shorter. -/
  hit : Part g piece → (partialRange g piece).1 ∈ keys → g.PARITYCHUNK_NUM = 1 ∧ ∃ d,
    last_by before piece.user_id = some d ∧ last_to g before (stripeOf g piece) = some d ∧
      (partialRange g piece).2 ≤ (partialRange g d).2

/-- What the write of a piece finds in the cache, after the writes `before`. -/
structure Lookup (before : List UioInfo) (piece : UioInfo) (st : Store) : Prop where
  /-- What the lookup leaves in the buffers is what the parity devices have. -/
  hit : Part g piece → (Cache.search st.cache_mod (partialRange g piece).1).length = g.PARITYCHUNK_NUM →
    ∃ par, load_parity g st piece.user_id (stripeOf g piece) (partialRange g piece).1 (partialRange g piece).2 = some par ∧
      ∀ p < g.PARITYCHUNK_NUM, ∀ i < (partialRange g piece).2,
        par p i = st.devs (parityDev g (stripeOf g piece) p) ((partialRange g piece).1 + i)
  /-- What it finds was put there by writes to the same stripe. -/
  own : Part g piece → ∀ d ∈ before, Part g d → (partialRange g d).1 = (partialRange g piece).1 →
    stripeOf g d = stripeOf g piece

/-- `search` and `get` of a key give these bytes, whatever was in the buffers. -/
def Gives (c : Cache.ParityCache) (key len : Nat) (bytes : Nat → Buf) : Prop := ∀ out, ∃ got,
  Cache.get g out (Cache.search c key) len = some got ∧ ∀ p < g.PARITYCHUNK_NUM, ∀ i < len, got p i = bytes p i

/-- The cache is coherent at the write of a piece after the writes `before`,
    from `st` to `after`. -/
structure Coherent (before : List UioInfo) (piece : UioInfo) (st after : Store) : Prop where
  lookup : Lookup g before piece st
  /-- An entry that the write inserts gives the parity that was inserted. -/
  returned : Part g piece → (Cache.search st.cache_mod (partialRange g piece).1).length ≠ g.PARITYCHUNK_NUM →
    (Cache.search after.cache_mod (partialRange g piece).1).length = g.PARITYCHUNK_NUM →
      Gives g after.cache_mod (partialRange g piece).1 BLK_SIZE (after.v_enparitybuf piece.user_id)
  /-- An entry of the stripe is dropped, or refreshed: it gives the parity that is
      on the devices after the write. -/
  renewed : ∀ k, (Cache.search st.cache_mod k).length = g.PARITYCHUNK_NUM → InRowOf g (stripeOf g piece) k →
    (Cache.search after.cache_mod k).length = g.PARITYCHUNK_NUM →
      Gives g after.cache_mod k (min BLK_SIZE (stripeOf g piece * g.SCHUNK_SIZE + g.SCHUNK_SIZE - k)) fun p i =>
        after.devs (parityDev g (stripeOf g piece) p) (k + i)

/-- Every one of the writes `cs` fits, from `st` on. -/
def FitAll : List UioInfo → List Call → Store → Prop
  | _, [], _ => True
  | before, c :: cs, st => Fits g before (Cache.keys st.cache_mod) c.uio ∧
    ∀ submission after, raid_write g isal c.mem c.uio st = some (submission, after) → FitAll (before ++ [c.uio]) cs after

/-- The lookup of every one of the writes `cs` is right, from `st` on. -/
def LookupAll : List UioInfo → List Call → Store → Prop
  | _, [], _ => True
  | before, c :: cs, st => Lookup g before c.uio st ∧
    ∃ submission after, raid_write g isal c.mem c.uio st = some (submission, after) ∧ LookupAll (before ++ [c.uio]) cs after

/-- The cache is coherent at every one of the writes `cs`, from `st` on. -/
def CoherentAll : List UioInfo → List Call → Store → Prop
  | _, [], _ => True
  | before, c :: cs, st => ∃ submission after, raid_write g isal c.mem c.uio st = some (submission, after) ∧
    Coherent g before c.uio st after ∧ CoherentAll (before ++ [c.uio]) cs after

/-- What holds of the state after the writes `before`. -/
structure Tracked (before : List UioInfo) (st : Store) : Prop where
  ready : Ready g st
  narrow : ∀ d ∈ before, OneStripe g d ∧ Narrow g d
  /-- An entry is of the last write to its stripe. -/
  newest : ∀ k ∈ Cache.keys st.cache_mod, ∀ s, InRowOf g s k →
    ∃ d, last_to g before s = some d ∧ Part g d ∧ (partialRange g d).1 = k
  /-- The parity of that write is in the buffer of its thread, until the thread
      writes something else. -/
  buffered : g.PARITYCHUNK_NUM = 1 → ∀ tid d, last_by before tid = some d → last_to g before (stripeOf g d) = some d →
    Part g d → ∀ i < (partialRange g d).2,
      st.v_enparitybuf tid 0 i = st.devs (parityDev g (stripeOf g d) 0) ((partialRange g d).1 + i)

variable {g}

/-! ### The last writes -/

theorem last_by_snoc (before : List UioInfo) (piece : UioInfo) (tid : Nat) :
    last_by (before ++ [piece]) tid = if piece.user_id = tid then some piece else last_by before tid := by
  simp only [last_by, List.reverse_append, List.reverse_singleton, List.singleton_append, List.find?_cons]
  split <;> simp_all

theorem last_to_snoc (before : List UioInfo) (piece : UioInfo) (s : Nat) :
    last_to g (before ++ [piece]) s = if stripeOf g piece = s then some piece else last_to g before s := by
  simp only [last_to, List.reverse_append, List.reverse_singleton, List.singleton_append, List.find?_cons]
  split <;> simp_all

theorem last_by_mem {before : List UioInfo} {tid : Nat} {d : UioInfo} (last : last_by before tid = some d) :
    d ∈ before ∧ d.user_id = tid :=
  ⟨List.mem_reverse.mp (List.mem_of_find?_eq_some last), by simpa using List.find?_some last⟩

theorem last_to_stripe {before : List UioInfo} {s : Nat} {d : UioInfo} (last : last_to g before s = some d) :
    stripeOf g d = s := by simpa using List.find?_some last

/-- A lookup that finds buffers finds a key of the cache. -/
theorem found_key {st : Store} (ready : Ready g st) {k : Nat}
    (found : (Cache.search st.cache_mod k).length = g.PARITYCHUNK_NUM) : k ∈ Cache.keys st.cache_mod := by
  have some_parity := g.parity_pos
  rcases Cache.search_length ready.cache k with ⟨_, member⟩ | ⟨nothing, _⟩
  · exact member
  · rw [nothing, List.length_nil] at found
    omega

theorem range_row {piece : UioInfo} (one : OneStripe g piece) (narrow : Narrow g piece) (part : Part g piece) :
    stripeOf g piece * g.SCHUNK_SIZE ≤ (partialRange g piece).1 ∧
      (partialRange g piece).1 + (partialRange g piece).2 ≤ stripeOf g piece * g.SCHUNK_SIZE + g.SCHUNK_SIZE :=
  partialRange_row one (by
    unfold Part at part
    simpa [Narrow, part] using narrow)

theorem offset_row {piece : UioInfo} (one : OneStripe g piece) (narrow : Narrow g piece) (part : Part g piece) :
    InRowOf g (stripeOf g piece) (partialRange g piece).1 := by
  have row := range_row one narrow part
  have some_len := partialRange_pos one
  exact ⟨row.1, by omega⟩

/-! ### One write -/

/-- A write of a partial stripe puts the parity buffer on the parity device. -/
theorem partialWrites_parity (parities : g.PARITYCHUNK_NUM = 1) {piece : UioInfo} (one : OneStripe g piece)
    (narrow : Narrow g piece) (part : Part g piece) (mem : Nat → Byte) (par : Nat → Buf) (devs : Nat → Nat → Byte) {i : Nat}
    (inside : i < (partialRange g piece).2) : applyAll devs (partialWrites g mem piece par)
      (parityDev g (stripeOf g piece) 0) ((partialRange g piece).1 + i) = par 0 i := by
  obtain ⟨low, high⟩ := range_row one narrow part
  refine applyAll_covered ⟨_, mem_partialWrites.mpr (.inr ⟨0, g.parity_pos, rfl⟩), rfl, by simp, by simpa using inside⟩ ?_ _
  intro w member covers
  rcases mem_partialWrites.mp member with data | ⟨p, chunk, rfl⟩
  · obtain ⟨r, there, rfl⟩ := List.mem_map.mp data
    have stripe := (piece_part one there).2.1
    have device : devOf g r.1 = parityDev g (stripeOf g piece) 0 := covers.1
    rw [devOf, stripe] at device
    exact absurd device.symm (parityDev_ne_dataDev g.parity_pos (chunkOf_lt r.1))
  · obtain rfl : p = 0 := by omega
    simp

variable {isal}

/-- A write leaves the rows of other stripes alone. -/
theorem change_other {c : Call} (one : OneStripe g c.uio) (narrow : Narrow g c.uio) {st after : Store}
    {writes : List DeviceWrite} (change : Change g isal c st writes after) {s k : Nat} (row : InRowOf g s k)
    (other : stripeOf g c.uio ≠ s) (d : Nat) : after.devs d k = st.devs d k := by
  rw [change.devs]
  refine applyAll_frame (fun w member covers => other ?_) _
  have inside := change_row one narrow change w member d k covers
  simp only [Nat.succ_mul] at inside
  exact row_unique inside row

theorem change_buffers {c : Call} {st after : Store} {writes : List DeviceWrite} (change : Change g isal c st writes after)
    {tid : Nat} (other : c.uio.user_id ≠ tid) : after.v_enparitybuf tid = st.v_enparitybuf tid := by
  cases full : is_fullstripe g c.uio.user_offset c.uio.length with
  | true => rw [(change.full full).2.1, Function.update_of_ne other.symm]
  | false =>
    obtain ⟨par, _, buffers, _⟩ := change.part full
    rw [buffers, Function.update_of_ne other.symm]

/-- The keys of a row after a write that fits. -/
theorem change_keys {c : Call} {before : List UioInfo} {st after : Store} {writes : List DeviceWrite}
    (change : Change g isal c st writes after) (fits : Fits g before (Cache.keys st.cache_mod) c.uio) {k : Nat}
    (member : k ∈ Cache.keys after.cache_mod) :
    Part g c.uio ∧ k = (partialRange g c.uio).1 ∨
      k ∈ Cache.keys st.cache_mod ∧ ¬ InRowOf g (stripeOf g c.uio) k := by
  cases full : is_fullstripe g c.uio.user_offset c.uio.length with
  | true =>
    rw [(change.full full).2.2] at member
    have not_part : ¬ Part g c.uio := by simp [Part, full]
    exact .inr ⟨member, fits.full not_part k member⟩
  | false =>
    obtain ⟨_, _, _, keys, _⟩ := change.part full
    rcases keys k member with same | old
    · exact .inl ⟨full, same⟩
    · by_cases row : InRowOf g (stripeOf g c.uio) k
      · exact .inl ⟨full, fits.part full k old row⟩
      · exact .inr ⟨old, row⟩

theorem tracked_step {c : Call} (one : OneStripe g c.uio) {before : List UioInfo} {st after : Store}
    {writes : List DeviceWrite} (change : Change g isal c st writes after) (ready : Ready g after)
    (fits : Fits g before (Cache.keys st.cache_mod) c.uio) (tracked : Tracked g before st) :
    Tracked g (before ++ [c.uio]) after where
  ready := ready
  narrow d member := by
    rcases List.mem_append.mp member with old | new
    · exact tracked.narrow d old
    · rw [List.mem_singleton.mp new]
      exact ⟨one, fits.narrow⟩
  newest k member s row := by
    rw [last_to_snoc]
    rcases change_keys change fits member with ⟨part, rfl⟩ | ⟨old, out⟩
    · rw [if_pos (row_unique (offset_row one fits.narrow part) row)]
      exact ⟨c.uio, rfl, part, rfl⟩
    · have other : stripeOf g c.uio ≠ s := fun same => out (same ▸ row)
      rw [if_neg other]
      exact tracked.newest k old s row
  buffered parities tid d by_thread to_stripe part i inside := by
    rw [last_by_snoc] at by_thread
    rw [last_to_snoc] at to_stripe
    by_cases writer : c.uio.user_id = tid
    · rw [if_pos writer, Option.some.injEq] at by_thread
      subst by_thread
      obtain ⟨par, written, buffers, _⟩ := change.part part
      rw [change.devs, written, partialWrites_parity parities one fits.narrow part _ _ _ inside, buffers, ← writer,
        Function.update_self]
    · rw [if_neg writer] at by_thread
      obtain ⟨earlier, thread⟩ := last_by_mem by_thread
      obtain ⟨one', narrow'⟩ := tracked.narrow d earlier
      have other : stripeOf g c.uio ≠ stripeOf g d := by
        intro same
        rw [if_pos same, Option.some.injEq] at to_stripe
        exact writer (to_stripe ▸ thread)
      rw [if_neg other] at to_stripe
      have row := range_row one' narrow' part
      rw [change_buffers change writer, change_other one fits.narrow change ⟨by omega, by omega⟩ other]
      exact tracked.buffered parities tid d by_thread to_stripe part i inside

theorem lookup_step {c : Call} (one : OneStripe g c.uio) {before : List UioInfo} {st : Store}
    (fits : Fits g before (Cache.keys st.cache_mod) c.uio) (tracked : Tracked g before st) : Lookup g before c.uio st where
  hit part found := by
    have cached := found_key tracked.ready found
    obtain ⟨parities, d, by_thread, to_stripe, longer⟩ := fits.hit part cached
    have some_len := partialRange_pos one
    obtain ⟨par, load, buffer⟩ := load_parity_total tracked.ready.cache c.uio.user_id (stripeOf g c.uio)
      (partialRange g c.uio).1 (partialRange g c.uio).2 (by omega)
    obtain ⟨d', newest, part', offset⟩ := tracked.newest _ cached _ (offset_row one fits.narrow part)
    obtain rfl : d' = d := Option.some.inj (newest.symm.trans to_stripe)
    have stripe := last_to_stripe to_stripe
    refine ⟨par, load, fun p chunk i inside => ?_⟩
    obtain rfl : p = 0 := by omega
    rw [buffer cached, ← stripe, ← offset]
    exact tracked.buffered parities c.uio.user_id d' by_thread (by rw [stripe]; exact to_stripe) part' i (by omega)
  own part d earlier part' offset := by
    obtain ⟨one', narrow'⟩ := tracked.narrow d earlier
    exact row_unique (offset ▸ offset_row one' narrow' part') (offset_row one fits.narrow part)

/-- No entry gives bytes: `get` leaves the buffers as they are. -/
theorem not_gives {c : Cache.ParityCache} (inv : Cache.Inv g c) (key : Nat) {len : Nat} (some_len : 0 < len)
    (bytes : Nat → Buf) : ¬ Gives g c key len bytes := by
  intro gives
  have few : (Cache.search c key).length ≤ g.PARITYCHUNK_NUM := by
    rcases Cache.search_length inv key with ⟨all, _⟩ | ⟨nothing, _⟩
    · exact Nat.le_of_eq all
    · rw [nothing]
      exact Nat.zero_le _
  obtain ⟨got, result, same⟩ := gives fun p i => ~~~ bytes p i
  rw [Cache.get_eq g (by omega) few, Option.some.injEq] at result
  have first := same 0 g.parity_pos 0 some_len
  rw [← result] at first
  have differ : ∀ b : Byte, ~~~ b ≠ b := by decide +kernel
  exact differ _ first

/-! ### Runs -/

variable (isal)

theorem lookups_of_tracked {cs : List Call} (ones : ∀ c ∈ cs, OneStripe g c.uio) {before : List UioInfo} {st : Store}
    (fit : FitAll g isal before cs st) (tracked : Tracked g before st) : LookupAll g isal before cs st := by
  induction cs generalizing before st with
  | nil => trivial
  | cons c cs ih =>
    obtain ⟨fits, later⟩ := fit
    have one := ones c List.mem_cons_self
    obtain ⟨writes, after, written, change, ready, _⟩ := raid_write_spec isal one tracked.ready
    exact ⟨lookup_step one fits tracked, _, after, written,
      ih (fun other member => ones other (List.mem_cons_of_mem _ member)) (later _ after written)
        (tracked_step one change ready fits tracked)⟩

/-- From the state that the constructors make, with any contents of the devices,
    every lookup of a run whose writes fit is right. -/
theorem lookups_of_fits {cs : List Call} (ones : ∀ c ∈ cs, OneStripe g c.uio) (devs : Nat → Nat → Byte)
    (rands : Nat → Nat) (wild : Buf) (fit : FitAll g isal [] cs (Store.fresh g devs rands wild)) :
    LookupAll g isal [] cs (Store.fresh g devs rands wild) :=
  lookups_of_tracked isal ones fit {
    ready := (fresh_quiet devs rands wild).ready
    narrow := by simp
    newest := fun k member => absurd member (List.not_mem_nil)
    buffered := fun _ _ d by_thread => absurd by_thread (by simp [last_by]) }

/-- Two writes of one block by one thread: the second finds the offset in the
    cache. -/
theorem lookups_same_block : LookupAll defaultGeometry Isal.reference []
    [⟨⟨3, true, 4096, 8192, 4096⟩, fun a => a⟩, ⟨⟨3, true, 4096, 8192, 4096⟩, fun _ => 1⟩]
    (Store.fresh defaultGeometry (fun _ _ => 0) (fun _ => 0) (fun _ => 0)) := by
  have one : OneStripe defaultGeometry ⟨3, true, 4096, 8192, 4096⟩ := by decide
  have cached : (raid_write defaultGeometry Isal.reference (fun a => a) ⟨3, true, 4096, 8192, 4096⟩
      (Store.fresh defaultGeometry (fun _ _ => 0) (fun _ => 0) (fun _ => 0))).map
        (fun result => Cache.keys result.2.cache_mod) = some [8192] := by decide +kernel
  refine lookups_of_fits Isal.reference (by simpa using one) _ _ _ ⟨⟨by decide, by decide, by decide, by decide⟩, ?_⟩
  intro submission after written
  rw [written, Option.map_some, Option.some.injEq] at cached
  refine ⟨?_, fun _ _ _ => trivial⟩
  rw [cached]
  exact ⟨by decide, by decide, by decide, fun _ _ => ⟨rfl, ⟨3, true, 4096, 8192, 4096⟩, rfl, rfl, by decide⟩⟩

/-! ### Whole runs -/

/-- A write of a partial stripe inserts an entry into an empty cache, which does not
    give what was inserted. -/
theorem part_not_coherent {c : Call} (one : OneStripe g c.uio) (part : Part g c.uio) {before : List UioInfo}
    {st after : Store} (ready : Ready g st) (empty : Cache.keys st.cache_mod = []) {submission : Submission}
    (written : raid_write g isal c.mem c.uio st = some (submission, after)) : ¬ Coherent g before c.uio st after := by
  intro coherent
  obtain ⟨writes, after', written', change, ready', _⟩ := raid_write_spec isal one ready
  obtain ⟨_, rfl⟩ := Prod.mk.inj (Option.some.inj (written'.symm.trans written))
  obtain ⟨_, _, _, _, first⟩ := change.part part
  have miss : (Cache.search st.cache_mod (partialRange g c.uio).1).length ≠ g.PARITYCHUNK_NUM := by
    intro found
    have cached := found_key ready found
    rw [empty] at cached
    cases cached
  have found : (Cache.search after'.cache_mod (partialRange g c.uio).1).length = g.PARITYCHUNK_NUM := by
    rcases Cache.search_length ready'.cache (partialRange g c.uio).1 with ⟨found, _⟩ | ⟨_, absent⟩
    · exact found
    · exact absurd (first empty) absent
  exact not_gives ready'.cache _ (by decide) _ (coherent.returned part miss found)

/-- A write of a full stripe is coherent with an empty cache. -/
theorem full_coherent {piece : UioInfo} (full : ¬ Part g piece) (before : List UioInfo) {st : Store} (ready : Ready g st)
    (empty : Cache.keys st.cache_mod = []) (after : Store) : Coherent g before piece st after where
  lookup := ⟨fun part => absurd part full, fun part => absurd part full⟩
  returned part := absurd part full
  renewed k found := by
    have cached := found_key ready found
    rw [empty] at cached
    cases cached

/-- With nothing in the cache, writes are coherent exactly when none is of a partial
    stripe. -/
theorem coherent_all_iff {cs : List Call} (ones : ∀ c ∈ cs, OneStripe g c.uio) (before : List UioInfo) {st : Store}
    (ready : Ready g st) (empty : Cache.keys st.cache_mod = []) :
    CoherentAll g isal before cs st ↔ ∀ c ∈ cs, ¬ Part g c.uio := by
  induction cs generalizing before st with
  | nil => exact ⟨fun _ => by simp, fun _ => trivial⟩
  | cons c cs ih =>
    have one := ones c List.mem_cons_self
    obtain ⟨writes, after, written, change, ready', _⟩ := raid_write_spec isal one ready
    rw [List.forall_mem_cons]
    by_cases part : Part g c.uio
    · refine ⟨?_, fun full => absurd part full.1⟩
      rintro ⟨_, after', written', coherent, _⟩
      exact absurd coherent (part_not_coherent isal one part ready empty written')
    · have kept : after.cache_mod = st.cache_mod := (change.full (by simpa [Part] using part)).2.2
      have rest := ih (fun other member => ones other (List.mem_cons_of_mem _ member)) (before ++ [c.uio]) ready'
        (by rw [kept]; exact empty)
      constructor
      · rintro ⟨_, after', written', _, later⟩
        obtain ⟨_, rfl⟩ := Prod.mk.inj (Option.some.inj (written.symm.trans written'))
        exact ⟨part, rest.mp later⟩
      · rintro ⟨_, full⟩
        exact ⟨_, after, written, full_coherent part before ready empty after, rest.mpr full⟩

/-- From the state that the constructors make, with any contents of the devices,
    the cache is coherent at every write of a run exactly when all are of full
    stripes. -/
theorem coherent_iff {cs : List Call} (ones : ∀ c ∈ cs, OneStripe g c.uio) (devs : Nat → Nat → Byte)
    (rands : Nat → Nat) (wild : Buf) :
    CoherentAll g isal [] cs (Store.fresh g devs rands wild) ↔ ∀ c ∈ cs, ¬ Part g c.uio :=
  coherent_all_iff isal ones [] (fresh_quiet devs rands wild).ready rfl

/-- Two writes of full stripes. -/
theorem coherent_two_stripes : CoherentAll defaultGeometry Isal.reference []
    [⟨⟨3, true, 4096, 0, 458752⟩, fun a => a⟩, ⟨⟨4, true, 4096, 458752, 458752⟩, fun _ => 1⟩]
    (Store.fresh defaultGeometry (fun _ _ => 0) (fun _ => 0) (fun _ => 0)) :=
  (coherent_iff Isal.reference (by simp; decide) _ _ _).mpr (by simp; decide)

/-- Two writes of one block by two threads: the second finds the offset in the
    cache, and has other bytes in its buffers than the parity device. -/
theorem coherent_two_threads : OneStripe defaultGeometry ⟨0, true, 4096, 4096, 4096⟩ ∧
    OneStripe defaultGeometry ⟨1, true, 4096, 4096, 4096⟩ ∧ ¬ CoherentAll defaultGeometry Isal.reference []
      [⟨⟨0, true, 4096, 4096, 4096⟩, fun a => a⟩, ⟨⟨1, true, 4096, 4096, 4096⟩, fun a => a⟩]
      (Store.fresh defaultGeometry (fun _ _ => 0) (fun _ => 0) (fun _ => 0)) := by
  refine ⟨by decide, by decide, ?_⟩
  rintro ⟨submission, st, written, _, _, after, _, coherent, _⟩
  have seen : (raid_write defaultGeometry Isal.reference (fun a => a) ⟨0, true, 4096, 4096, 4096⟩
      (Store.fresh defaultGeometry (fun _ _ => 0) (fun _ => 0) (fun _ => 0))).map (fun result =>
        ((Cache.search result.2.cache_mod 4096).length, (load_parity defaultGeometry result.2 1 0 4096 4096).map (· 0 0),
          result.2.devs 7 4096)) = some (1, some 0x1b, 0) := by decide +kernel
  rw [written, Option.map_some, Option.some.injEq, Prod.mk.injEq, Prod.mk.injEq] at seen
  obtain ⟨par, load, bytes⟩ := coherent.lookup.hit (by decide) seen.1
  have loaded : load_parity defaultGeometry st 1 0 4096 4096 = some par := load
  have byte : par 0 0 = st.devs 7 4096 := bytes 0 (by decide) 0 (by decide)
  rw [loaded, Option.map_some, byte, seen.2.2] at seen
  exact absurd seen.2.1 (by decide)

end Straid.CacheCoherence
