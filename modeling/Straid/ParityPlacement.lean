import Straid.FullStripe
import Straid.PartialStripe

/-!
Where the parity chunks of a stripe are, by the path that reads or writes them.
The path of full stripes writes parity chunk `p` to the device of its index
(`fullWritesTo_iff`); the path of partial stripes reads and writes every parity
chunk on the device of the first one (`readsFrom_iff`, `writesTo_iff`). So the
paths agree on the first parity chunk and on no other, and on a stripe exactly
when there is one parity chunk (`placement_iff`).
-/
namespace Straid.ParityPlacement
open LogFiles Metadata Cache EcEncoder Encode FullStripe PartialStripe

variable (g : Geometry)

/-- Every call of `encode_fullstripe` for stripe `s` writes parity chunk `p` to
    device `d`. -/
def FullWritesTo (s p d : Nat) : Prop :=
  ∀ (isal : Isal) (mem : Nat → Byte) (tid buf : Nat) (st after : Store) (writes : List DeviceWrite),
    encode_fullstripe g isal mem tid ((List.range g.DATACHUNK_NUM).map (fullDio g s buf)) st = some (writes, after) →
      (writes.map fun w => w.array)[g.DATACHUNK_NUM + p]? = some d

/-- Every lookup of `encode_partialstripe` that misses the cache reads parity
    chunk `p` of stripe `s` from device `d`. -/
def ReadsFrom (s p d : Nat) : Prop :=
  ∀ (st : Store) (tid soff slen : Nat) (bufs : Nat → Buf), (search st.cache_mod soff).length ≠ g.PARITYCHUNK_NUM →
    load_parity g st tid s soff slen = some bufs → ∀ q < slen, bufs p q = st.devs d (s * g.SCHUNK_SIZE + q)

/-- Every call of `encode_partialstripe` writes parity chunk `p` of stripe `s` to
    device `d`. -/
def WritesTo (s p d : Nat) : Prop :=
  ∀ (bufs : Nat → Buf) (soff slen : Nat) (writes : List DeviceWrite), parity_writes g s bufs soff slen = some writes →
    (writes.map fun w => w.array)[p]? = some d

/-- Some path has parity chunk `p` on device `d`. -/
def Uses (s p d : Nat) : Prop := FullWritesTo g s p d ∨ ReadsFrom g s p d ∨ WritesTo g s p d

/-- The paths have parity chunk `p` on the same device. -/
def SameDevice (s p : Nat) : Prop := ∃ d, FullWritesTo g s p d ∧ ReadsFrom g s p d ∧ WritesTo g s p d

/-- The paths agree on the parity chunks of a stripe, which are on different
    devices and on none of a data chunk. -/
structure Agrees (s : Nat) : Prop where
  same : ∀ p < g.PARITYCHUNK_NUM, SameDevice g s p
  apart : ∀ p < g.PARITYCHUNK_NUM, ∀ q < g.PARITYCHUNK_NUM, p ≠ q → ∀ d e, Uses g s p d → Uses g s q e → d ≠ e
  no_data : ∀ p < g.PARITYCHUNK_NUM, ∀ d, Uses g s p d → ∀ i < g.DATACHUNK_NUM, d ≠ dataDev g s i

variable {g} {s p : Nat}

/-! ### The device of each path -/

theorem fullWritesTo_iff (entry : s ≤ g.USER_SPACE_LEN / g.SSTRIPE_DATASIZE + 100) (parity : p < g.PARITYCHUNK_NUM)
    (d : Nat) : FullWritesTo g s p d ↔ d = parityDev g s p := by
  have device : ∀ data par : Nat → Buf,
      ((fullWrites g s data par).map fun w => w.array)[g.DATACHUNK_NUM + p]? = some (parityDev g s p) := by
    intro data par
    simp [fullWrites, parity]
  constructor
  · intro writes
    have call := encode_fullstripe_eq Isal.reference entry (by decide : 0 < NUM_THREADS) (fun _ => 0) 0
      (Store.fresh g (fun _ _ => 0) (fun _ => 0) (fun _ => 0))
    have found := writes _ _ _ _ _ _ _ call
    rw [device] at found
    exact (Option.some.inj found).symm
  · rintro rfl isal mem tid buf st after writes call
    by_cases thread : tid < NUM_THREADS
    · rw [encode_fullstripe_eq isal entry thread] at call
      obtain ⟨rfl, _⟩ := Prod.mk.inj (Option.some.inj call)
      exact device _ _
    · rw [encode_fullstripe, if_neg (by simp), if_pos (Nat.not_lt.mp thread)] at call
      contradiction

theorem writesTo_iff (parity : p < g.PARITYCHUNK_NUM) (d : Nat) : WritesTo g s p d ↔ d = parityDev g s 0 := by
  constructor
  · intro writes
    have found := writes (fun _ _ => 0) 0 0 _ (parity_writes_eq s 0 0 _)
    simpa [parity, eq_comm] using found
  · rintro rfl bufs soff slen writes call
    rw [parity_writes_eq] at call
    obtain rfl := Option.some.inj call
    simp [parity]

/-- A lookup that misses the cache reads every parity chunk from the first one's
    device. -/
theorem load_parity_miss {st : Store} {soff : Nat} (miss : (search st.cache_mod soff).length ≠ g.PARITYCHUNK_NUM)
    (tid slen : Nat) : load_parity g st tid s soff slen = some fun i => if i < g.PARITYCHUNK_NUM then
      iouring_rprep st.devs (parityDev g s 0) (st.v_enparitybuf tid i) (stripe2devoff g s 0) slen
      else st.v_enparitybuf tid i := by
  rw [load_parity]
  simp only [if_neg miss, stripe2paritypos_eq, v_stdfiles_at_eq (parityDev_lt ..), Option.map_some]

theorem readsFrom_iff (entry : s ≤ g.USER_SPACE_LEN / g.SSTRIPE_DATASIZE + 100) (parity : p < g.PARITYCHUNK_NUM) (d : Nat) :
    ReadsFrom g s p d ↔ d = parityDev g s 0 := by
  have row : stripe2devoff g s 0 = s * g.SCHUNK_SIZE := by
    have := (table_bounds entry).2.2
    exact stripe2devoff_eq (by omega)
  have read : ∀ (devs : Nat → Nat → Byte) (buf : Buf) {slen q : Nat}, q < slen →
      iouring_rprep devs (parityDev g s 0) buf (stripe2devoff g s 0) slen q = devs (parityDev g s 0) (s * g.SCHUNK_SIZE + q) := by
    intro devs buf slen q inside
    rw [iouring_rprep, Overlays.overlay_inside (Nat.zero_le q) (by omega), row, Nat.sub_zero]
  constructor
  · intro reads
    -- Devices on which only the device `d` has ones.
    let st := Store.fresh g (fun dev _ => if dev = d then 1 else 0) (fun _ => 0) (fun _ => 0)
    have miss : (search st.cache_mod 0).length ≠ g.PARITYCHUNK_NUM := by
      have pos := g.parity_pos
      show 0 ≠ g.PARITYCHUNK_NUM
      omega
    have byte := reads st 0 0 1 _ miss (load_parity_miss miss 0 1) 0 Nat.one_pos
    rw [if_pos parity, read st.devs _ Nat.one_pos] at byte
    by_contra other
    simp [st, Store.fresh, Ne.symm other] at byte
  · rintro rfl st tid soff slen bufs miss loaded q inside
    rw [load_parity_miss miss] at loaded
    obtain rfl := Option.some.inj loaded
    simp only [if_pos parity]
    exact read st.devs _ inside

theorem uses_iff (entry : s ≤ g.USER_SPACE_LEN / g.SSTRIPE_DATASIZE + 100) (parity : p < g.PARITYCHUNK_NUM) (d : Nat) :
    Uses g s p d ↔ d = parityDev g s p ∨ d = parityDev g s 0 := by
  rw [Uses, fullWritesTo_iff entry parity, readsFrom_iff entry parity, writesTo_iff parity, or_self]

/-! ### Agreement -/

theorem sameDevice_iff (entry : s ≤ g.USER_SPACE_LEN / g.SSTRIPE_DATASIZE + 100) (parity : p < g.PARITYCHUNK_NUM) :
    SameDevice g s p ↔ p = 0 := by
  have pos := g.parity_pos
  simp only [SameDevice, fullWritesTo_iff entry parity, readsFrom_iff entry parity, writesTo_iff parity]
  constructor
  · rintro ⟨d, rfl, first, _⟩
    exact parityDev_inj parity pos first
  · rintro rfl
    exact ⟨_, rfl, rfl, rfl⟩

/-- The paths agree on the parity chunks of a stripe exactly when there is one,
    and on one chunk exactly when it is the first. -/
theorem placement_iff (entry : s ≤ g.USER_SPACE_LEN / g.SSTRIPE_DATASIZE + 100) :
    (Agrees g s ↔ g.PARITYCHUNK_NUM = 1) ∧ ∀ p < g.PARITYCHUNK_NUM, (SameDevice g s p ↔ p = 0) := by
  have pos := g.parity_pos
  refine ⟨?_, fun p parity => sameDevice_iff entry parity⟩
  constructor
  · intro agrees
    have last : g.PARITYCHUNK_NUM - 1 = 0 :=
      (sameDevice_iff entry (by omega)).mp (agrees.same (g.PARITYCHUNK_NUM - 1) (by omega))
    omega
  · intro one
    constructor
    · intro p parity
      exact (sameDevice_iff entry parity).mpr (by omega)
    · intro p parity q parity' differ
      omega
    · intro p parity d used i data
      have zero : p = 0 := by omega
      rw [uses_iff entry parity, zero, or_self] at used
      rw [used]
      exact parityDev_ne_dataDev pos data

/-- Stripe 3 of seven data chunks and one parity chunk. -/
theorem placement_three : (Agrees defaultGeometry 3 ↔ defaultGeometry.PARITYCHUNK_NUM = 1) ∧
    ∀ p < defaultGeometry.PARITYCHUNK_NUM, (SameDevice defaultGeometry 3 p ↔ p = 0) :=
  placement_iff (by decide)

/-- With two parity chunks the second one of stripe 0 is written to device 7 with
    a full stripe, and read from and written to device 6 with a partial one. -/
theorem second_parity_moves : FullWritesTo raid6Geometry 0 1 7 ∧ ReadsFrom raid6Geometry 0 1 6 ∧
    WritesTo raid6Geometry 0 1 6 ∧ ¬ Agrees raid6Geometry 0 := by
  have full : FullWritesTo raid6Geometry 0 1 7 := (fullWritesTo_iff (by decide) (by decide) 7).mpr (by decide)
  have reads : ReadsFrom raid6Geometry 0 1 6 := (readsFrom_iff (by decide) (by decide) 6).mpr (by decide)
  refine ⟨full, reads, (writesTo_iff (by decide) 6).mpr (by decide), fun agrees => ?_⟩
  exact absurd ((sameDevice_iff (by decide) (by decide)).mp (agrees.same 1 (by decide))) (by decide)

end Straid.ParityPlacement
