import Straid.DegradedRuns
import Straid.Interleavings

/-!
`Init_Raid` (`storageMod.cc`): a thread for each device writes zeros over the
first `DATASET_SIZE` bytes, a megabyte at a time. In every interleaving the
devices end with zeros where a `pwrite64` put them and with their old bytes
elsewhere (`zeroed`); the assertion stops only a call that returns `0`. So reads
with failures that the ring has entries for are right after it exactly where the
old bytes that no call reached sum to zero (`degraded_after_init_iff`).
-/
namespace Straid.InitRaid
open Metadata EcEncoder Encode Decode DegradedRead DegradedRuns Interleavings Overlays XorSums Rings

/-! ### The code -/

/-- The devices, and the `i` of the loop of `Func_init` for each of them. -/
structure System where
  devs : Nat → Nat → Byte
  next : Nat → Nat

variable (g : Geometry) (start_offset : Nat → Nat) (pwrite : Nat → Nat → Option Nat)

def System.start (devs : Nat → Nat → Byte) : System := ⟨devs, start_offset⟩

/-- A round of `Func_init`. `pwrite` says what `pwrite64` to a device at an offset
    returns: the bytes it has written, or `none` for `-1`, which passes the
    assertion. -/
def step (dev : Nat) (st : System) : Option System :=
  let i := st.next dev
  if dev < g.NUM_DEVFILES ∧ i < u64 (start_offset dev + DATASET_SIZE) then
    let rest := Function.update st.next dev (u64 (i + MB))
    match pwrite dev i with
    | none => some ⟨st.devs, rest⟩
    | some ret => if ret = 0 then none else some ⟨(Write.mk dev i ret fun _ => 0).apply st.devs, rest⟩
  else none

/-- The thread has returned. -/
def Ended (st : System) (dev : Nat) : Prop := ¬ st.next dev < u64 (start_offset dev + DATASET_SIZE)

/-- A call among the first `n` has written the byte. -/
def Reached (n dev o : Nat) : Prop :=
  ∃ k < n, (Write.mk dev (start_offset dev + k * MB) ((pwrite dev (start_offset dev + k * MB)).getD 0)
    (fun _ => (0 : Byte))).Covers dev o

instance (n dev o : Nat) : Decidable (Reached start_offset pwrite n dev o) := inferInstanceAs (Decidable (∃ k < n, _))

/-- The calls of a thread. -/
def calls : Nat := DATASET_SIZE / MB

variable {g start_offset pwrite}

/-! ### Runs -/

/-- A thread has made a number of calls, and the byte is zero if one of them has
    written it. -/
def Zeroed (start_offset : Nat → Nat) (pwrite : Nat → Nat → Option Nat) (old : Nat → Nat → Byte) (st : System)
    (dev : Nat) : Prop :=
  ∃ n ≤ calls, st.next dev = start_offset dev + n * MB ∧
    ∀ o, st.devs dev o = if Reached start_offset pwrite n dev o then 0 else old dev o

theorem reached_succ {n dev o : Nat} : Reached start_offset pwrite (n + 1) dev o ↔ Reached start_offset pwrite n dev o ∨
    (Write.mk dev (start_offset dev + n * MB) ((pwrite dev (start_offset dev + n * MB)).getD 0)
      (fun _ => (0 : Byte))).Covers dev o := by
  unfold Reached
  constructor
  · rintro ⟨k, lt, covers⟩
    rcases Nat.lt_succ_iff_lt_or_eq.mp lt with before | rfl
    · exact .inl ⟨k, before, covers⟩
    · exact .inr covers
  · rintro (⟨k, lt, covers⟩ | covers)
    · exact ⟨k, by omega, covers⟩
    · exact ⟨n, by omega, covers⟩

variable {old : Nat → Nat → Byte} {st st' : System}

/-- What a round does: a call that returns `-1` is a write of no bytes. -/
theorem step_cases {d : Nat} (next : step g start_offset pwrite d st = some st') :
    st.next d < u64 (start_offset d + DATASET_SIZE) ∧ st'.next = Function.update st.next d (u64 (st.next d + MB)) ∧
    st'.devs = (Write.mk d (st.next d) ((pwrite d (st.next d)).getD 0) fun _ => (0 : Byte)).apply st.devs := by
  simp only [step, Option.ite_none_right_eq_some] at next
  obtain ⟨⟨_, more⟩, next⟩ := next
  refine ⟨more, ?_⟩
  cases ret : pwrite d (st.next d) with
  | none =>
    simp only [ret, Option.some.injEq] at next
    subst next
    refine ⟨rfl, ?_⟩
    funext dev o
    refine (Write.apply_frame ?_).symm
    rintro ⟨_, low, high⟩
    simp only [Option.getD_none, Nat.add_zero] at low high
    omega
  | some ret' =>
    simp only [ret, Option.ite_none_left_eq_some, Option.some.injEq] at next
    obtain ⟨_, rfl⟩ := next
    exact ⟨rfl, rfl⟩

theorem zeroed_step (small : ∀ dev, start_offset dev + DATASET_SIZE < 2 ^ 64) {d : Nat}
    (zeroed : ∀ dev, Zeroed start_offset pwrite old st dev) (next : step g start_offset pwrite d st = some st') (dev : Nat) :
    Zeroed start_offset pwrite old st' dev := by
  obtain ⟨n, few, at_n, bytes⟩ := zeroed dev
  obtain ⟨more, moved, wrote⟩ := step_cases next
  by_cases own : dev = d
  · subst own
    rw [at_n] at more moved wrote
    have fits := small dev
    rw [u64_small fits] at more
    have another : n + 1 ≤ calls := by
      unfold calls DATASET_SIZE MB GB at *
      omega
    have ahead : u64 (start_offset dev + n * MB + MB) = start_offset dev + (n + 1) * MB := by
      rw [u64_small (by unfold calls DATASET_SIZE MB GB at *; omega), Nat.succ_mul, Nat.add_assoc]
    refine ⟨n + 1, another, by rw [moved, Function.update_self, ahead], fun o => ?_⟩
    rw [wrote]
    simp only [reached_succ]
    by_cases covers : (Write.mk dev (start_offset dev + n * MB) ((pwrite dev (start_offset dev + n * MB)).getD 0)
        (fun _ => (0 : Byte))).Covers dev o
    · rw [Write.apply_covered covers, if_pos (.inr covers)]
    · rw [Write.apply_frame covers, bytes o]
      simp only [covers, or_false]
  · refine ⟨n, few, ?_, fun o => ?_⟩
    · rw [moved, Function.update_of_ne own, at_n]
    · rw [wrote, Write.apply_frame fun covers => own covers.1.symm, bytes o]

variable {ok : System → Nat → Prop}

/-- When its thread has returned, a device has zeros where a call put them and its
    old bytes elsewhere. -/
theorem zeroed_of_ended (small : ∀ dev, start_offset dev + DATASET_SIZE < 2 ^ 64)
    (reachable : Reachable (step g start_offset pwrite) ok (System.start start_offset old) st) {dev : Nat}
    (ended : Ended start_offset st dev) (o : Nat) :
    st.devs dev o = if Reached start_offset pwrite calls dev o then 0 else old dev o := by
  have zeroed : ∀ dev, Zeroed start_offset pwrite old st dev :=
    reachable.invariant (P := fun st => ∀ dev, Zeroed start_offset pwrite old st dev)
      (fun dev => ⟨0, Nat.zero_le _, by simp [System.start], fun o => by simp [Reached, System.start]⟩)
      fun zeroed _ next => zeroed_step small zeroed next
  obtain ⟨n, few, at_n, bytes⟩ := zeroed dev
  have all : n = calls := by
    rw [Ended, at_n, u64_small (small dev)] at ended
    unfold calls DATASET_SIZE MB GB at *
    omega
  rw [bytes o, all]

/-- Calls that write all their bytes reach the first `DATASET_SIZE` bytes. -/
theorem reached_full {dev o : Nat} (full : ∀ i, pwrite dev i = some MB) : Reached start_offset pwrite calls dev o ↔
    start_offset dev ≤ o ∧ o < start_offset dev + DATASET_SIZE := by
  unfold Reached Write.Covers
  simp only [full, Option.getD_some, true_and]
  constructor
  · rintro ⟨k, lt, low, high⟩
    unfold calls DATASET_SIZE MB GB at *
    omega
  · rintro ⟨low, high⟩
    refine ⟨(o - start_offset dev) / MB, ?_, ?_⟩
    · unfold calls DATASET_SIZE MB GB at *
      omega
    · unfold MB
      omega

/-! ### Reads with failures -/

theorem xorSum_zeros (p : Nat → Prop) [DecidablePred p] (f : Nat → Byte) (ds : List Nat) :
    xorSum (ds.map fun d => if p d then 0 else f d) = xorSum ((ds.filter fun d => ¬ p d).map f) := by
  induction ds with
  | nil => rfl
  | cons d ds ih =>
    rw [List.map_cons, xorSum_cons, ih, List.filter_cons]
    by_cases there : p d
    · rw [if_pos there, if_neg (by simpa using there)]
      exact BitVec.zero_xor
    · rw [if_neg there, if_pos (by simpa using there), List.map_cons, xorSum_cons]

variable (isal : Isal)

/-- After `Init_Raid`, with one parity chunk: reads return the bytes of their
    devices whichever fail exactly when the ring has an entry for each of them, and
    for each device that a reconstruction reads, and the old bytes that no call has
    reached sum to zero. -/
theorem degraded_after_init_iff (one : g.PARITYCHUNK_NUM = 1) {v_dios : List DioInfo} (request : Request g v_dios)
    (small : ∀ dev, start_offset dev + DATASET_SIZE < 2 ^ 64)
    (reachable : Reachable (step g start_offset pwrite) (fun _ _ => True) (System.start start_offset old) st)
    (ended : ∀ dev < g.NUM_DEVFILES, Ended start_offset st dev) : ReadsBack g isal st.devs v_dios ↔
    v_dios.length ≤ RING_QD ∧ (v_dios ≠ [] → g.DATACHUNK_NUM ≤ RING_QD) ∧ ∀ dio ∈ v_dios, ∀ i < dio.length,
      xorSum (((List.range g.NUM_DEVFILES).filter fun d => ¬ Reached start_offset pwrite calls d (dio.dev_offset + i)).map
        fun d => old d (dio.dev_offset + i)) = 0 := by
  have sums : ∀ o, xorSum ((List.range g.NUM_DEVFILES).map fun d => st.devs d o) =
      xorSum (((List.range g.NUM_DEVFILES).filter fun d => ¬ Reached start_offset pwrite calls d o).map
        fun d => old d o) := by
    intro o
    rw [← xorSum_zeros (fun d => Reached start_offset pwrite calls d o)]
    refine congrArg xorSum (List.map_congr_left fun d member => ?_)
    exact zeroed_of_ended small reachable (ended d (List.mem_range.mp member)) o
  constructor
  · intro reads
    obtain ⟨few, data, zero⟩ := sumsZero_of_reads isal st.devs one request reads
    refine ⟨few, data, fun dio member i inside => ?_⟩
    rw [← sums]
    exact zero dio member i inside
  · rintro ⟨few, data, zero⟩
    refine reads_of_sumsZero isal st.devs one request few data fun dio member i inside => ?_
    rw [sums]
    exact zero dio member i inside

/-! ### The end -/

/-- A thread none of whose calls returns `0` comes to its end. -/
theorem thread_ends (small : ∀ dev, start_offset dev + DATASET_SIZE < 2 ^ 64) (some_bytes : ∀ dev i, pwrite dev i ≠ some 0)
    {dev : Nat} (lt : dev < g.NUM_DEVFILES) {todo n : Nat} (rest : n + todo = calls)
    (at_n : st.next dev = start_offset dev + n * MB) : ∃ st', Reachable (step g start_offset pwrite) (fun _ _ => True) st st' ∧
      Ended start_offset st' dev ∧ ∀ d, d ≠ dev → st'.next d = st.next d := by
  have fits := small dev
  induction todo generalizing st n with
  | zero =>
    refine ⟨st, .start, ?_, fun _ _ => rfl⟩
    rw [Ended, at_n, u64_small (small dev)]
    unfold calls DATASET_SIZE MB GB at *
    omega
  | succ todo ih =>
    have more : st.next dev < u64 (start_offset dev + DATASET_SIZE) := by
      rw [at_n, u64_small (small dev)]
      unfold calls at rest
      unfold DATASET_SIZE MB GB at rest ⊢
      omega
    have ahead : u64 (st.next dev + MB) = start_offset dev + (n + 1) * MB := by
      have fits : st.next dev + MB < 2 ^ 64 := by
        rw [at_n]
        unfold calls at rest
        unfold DATASET_SIZE MB GB at *
        omega
      rw [u64_small fits, at_n, Nat.succ_mul, Nat.add_assoc]
    have turn : ∃ devs, step g start_offset pwrite dev st =
        some ⟨devs, Function.update st.next dev (start_offset dev + (n + 1) * MB)⟩ := by
      rw [step, if_pos ⟨lt, more⟩, ahead]
      cases ret : pwrite dev (st.next dev) with
      | none => exact ⟨st.devs, rfl⟩
      | some ret' =>
        have positive : ret' ≠ 0 := by
          rintro rfl
          exact some_bytes dev _ ret
        exact ⟨_, if_neg positive⟩
    obtain ⟨devs, next⟩ := turn
    have there : (System.mk devs (Function.update st.next dev (start_offset dev + (n + 1) * MB))).next dev =
        start_offset dev + (n + 1) * MB := Function.update_self ..
    obtain ⟨st', reachable, ended, others⟩ := ih (by omega) there
    exact ⟨st', (Reachable.step .start trivial next).trans reachable, ended,
      fun d other => (others d other).trans (Function.update_of_ne other ..)⟩

/-- When no call returns `0`, `Init_Raid` can come to its end. -/
theorem init_ends (small : ∀ dev, start_offset dev + DATASET_SIZE < 2 ^ 64) (some_bytes : ∀ dev i, pwrite dev i ≠ some 0)
    (old : Nat → Nat → Byte) : ∃ st, Reachable (step g start_offset pwrite) (fun _ _ => True) (System.start start_offset old) st ∧
      ∀ dev < g.NUM_DEVFILES, Ended start_offset st dev := by
  have upto : ∀ k ≤ g.NUM_DEVFILES, ∃ st, Reachable (step g start_offset pwrite) (fun _ _ => True)
      (System.start start_offset old) st ∧ (∀ dev < k, Ended start_offset st dev) ∧
      ∀ dev, k ≤ dev → st.next dev = start_offset dev := by
    intro k
    induction k with
    | zero => exact fun _ => ⟨_, .start, fun _ none => absurd none (Nat.not_lt_zero _), fun _ _ => rfl⟩
    | succ k ih =>
      intro le
      obtain ⟨st, reachable, ended, rest⟩ := ih (by omega)
      obtain ⟨st', further, last, others⟩ := thread_ends small some_bytes (by omega : k < g.NUM_DEVFILES)
        (Nat.zero_add calls) (by rw [rest k (Nat.le_refl k), Nat.zero_mul, Nat.add_zero])
      refine ⟨st', reachable.trans further, fun dev lt => ?_, fun dev le => ?_⟩
      · rcases Nat.lt_succ_iff_lt_or_eq.mp lt with before | rfl
        · rw [Ended, others dev (by omega)]
          exact ended dev before
        · exact last
      · rw [others dev (by omega), rest dev (by omega)]
  obtain ⟨st, reachable, ended, _⟩ := upto _ (Nat.le_refl _)
  exact ⟨st, reachable, ended⟩

/-- Full calls, on devices that do not sum to zero: the first sector of a device
    is read back. -/
theorem degraded_after_init_sector : ∃ st, Reachable (step defaultGeometry (fun _ => 0) fun _ _ => some MB) (fun _ _ => True)
    (System.start (fun _ => 0) fun dev _ => if dev = 0 then 1 else 0) st ∧
    ReadsBack defaultGeometry Isal.reference st.devs [⟨0, 4096, 0, 512, 1⟩] := by
  have small : ∀ _dev : Nat, 0 + DATASET_SIZE < 2 ^ 64 := fun _ => by decide
  have some_bytes : ∀ _dev _i : Nat, some MB ≠ some 0 := fun _ _ => by decide
  obtain ⟨st, reachable, ended⟩ := init_ends (g := defaultGeometry) small some_bytes (fun dev _ => if dev = 0 then 1 else 0)
  refine ⟨st, reachable, (degraded_after_init_iff Isal.reference rfl
    ⟨by decide, by decide, by decide, by decide, by unfold DegradedRead.Disjoint; decide⟩ small reachable ended).mpr
      ⟨by decide, fun _ => by decide, ?_⟩⟩
  intro dio member i inside
  obtain rfl := List.mem_singleton.mp member
  have none : ((List.range defaultGeometry.NUM_DEVFILES).filter fun d =>
      ¬ Reached (fun _ => 0) (fun _ _ => some MB) calls d (0 + i)) = [] := by
    refine List.filter_eq_nil_iff.mpr fun d _ => ?_
    rw [decide_eq_true_eq, not_not, reached_full fun _ => rfl]
    simp only at inside
    unfold DATASET_SIZE GB
    omega
  simp only [none, List.map_nil, xorSum_nil]

end Straid.InitRaid
