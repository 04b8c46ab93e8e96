import Straid.Interleavings
import Straid.Metadata
import Straid.Workloads

/-!
Threads that write the user space in sequence (`worker.h`, `load.cc`). They share
`SeqW_Offset`, and each sets it back when it has gone past the limit at the start
of a loop, while others may be in theirs. In every interleaving the requests are
inside the user space, and between two resets they follow one another without a
gap (`sequential`); with one loop below the limit there is no reset, and all
requests together are one range (`one_pass`).
-/
namespace Straid.SequentialRequests
open Alignments Metadata Workloads Interleavings

/-! ### The code -/

/-- Where a thread is: at the test of a loop, before the reset, or in a round of
    the inner loop. -/
inductive Pc
  | check (loop : Nat)
  | reset (loop : Nat)
  | write (loop i : Nat)
  deriving DecidableEq, Repr

/-- A thread, with its size of a request. -/
structure Worker where
  pc : Pc
  iosize : Nat
  deriving DecidableEq, Repr

/-- The counter, the threads, and the requests made since each reset, those since
    the last one in front. -/
structure System where
  SeqW_Offset : Nat
  workers : Nat → Worker
  epochs : List (List UioInfo)

variable (limit T : Nat) (infos : Nat → WorkerInfo) (buf : Nat → Nat → Nat)

/-- The threads begin. The counter is where the tests before left it. -/
def System.start (SeqW_Offset : Nat) : System := ⟨SeqW_Offset, fun t => ⟨.check 0, (infos t).io_size⟩, [[]]⟩

/-- A step of thread `t` of `thread_worker` (with `DATASET_SIZE` as the limit) or
    of `self_thread_worker` (with `WRITE_ALL`), for writes that are not random.
    `buf t i` is the address of the data of a round. -/
def step (t : Nat) (st : System) : Option System :=
  let w := st.workers t
  let info := infos t
  if t ≥ T then none
  else
    match w.pc with
    | .check loop =>
      if loop < info.loop then
        let pc := if u64 (st.SeqW_Offset * w.iosize) > limit then .reset loop else .write loop 0
        some { st with workers := Function.update st.workers t ⟨pc, w.iosize⟩ }
      else none
    | .reset loop => some ⟨0, Function.update st.workers t ⟨.write loop 0, w.iosize⟩, [] :: st.epochs⟩
    | .write loop i =>
      if i < info.count then
        let iosize := round_iosize w.iosize
        let request : UioInfo := ⟨info.thread_id, true, buf t i, u64 (st.SeqW_Offset * iosize), iosize⟩
        some ⟨u64 (st.SeqW_Offset + 1), Function.update st.workers t ⟨.write loop (i + 1), iosize⟩,
          st.epochs.modifyHead (· ++ [request])⟩
      else some { st with workers := Function.update st.workers t ⟨.check (loop + 1), w.iosize⟩ }

/-- The thread has returned. -/
def Ended (st : System) (t : Nat) : Prop := ∃ loop, (st.workers t).pc = .check loop ∧ (infos t).loop ≤ loop

/-- The requests of a list follow one another, each of `I` bytes, from the `first`
    multiple of `I` on. -/
def Follows (I first : Nat) (requests : List UioInfo) : Prop :=
  requests.map (fun q => (q.user_offset, q.length)) = (List.range' first requests.length).map fun k => (k * I, I)

variable {limit T infos buf} {st st' : System} {t I : Nat}

/-! ### Steps -/

/-- What a thread can do: test, reset, make a request or end a loop. -/
inductive Step (limit : Nat) (infos : Nat → WorkerInfo) (buf : Nat → Nat → Nat) (t : Nat) (st st' : System) : Prop
  | test {loop : Nat} (pc : (st.workers t).pc = .check loop) (more : loop < (infos t).loop) (pc' : Pc)
      (branch : limit < u64 (st.SeqW_Offset * (st.workers t).iosize) ∧ pc' = .reset loop ∨
        u64 (st.SeqW_Offset * (st.workers t).iosize) ≤ limit ∧ pc' = .write loop 0)
      (next : st' = { st with workers := Function.update st.workers t ⟨pc', (st.workers t).iosize⟩ })
  | resets {loop : Nat} (pc : (st.workers t).pc = .reset loop)
      (next : st' = ⟨0, Function.update st.workers t ⟨.write loop 0, (st.workers t).iosize⟩, [] :: st.epochs⟩)
  | writes {loop i : Nat} (pc : (st.workers t).pc = .write loop i) (more : i < (infos t).count)
      (next : st' = ⟨u64 (st.SeqW_Offset + 1),
        Function.update st.workers t ⟨.write loop (i + 1), round_iosize (st.workers t).iosize⟩,
        st.epochs.modifyHead (· ++ [⟨(infos t).thread_id, true, buf t i,
          u64 (st.SeqW_Offset * round_iosize (st.workers t).iosize), round_iosize (st.workers t).iosize⟩])⟩)
  | loops {loop i : Nat} (pc : (st.workers t).pc = .write loop i) (last : ¬ i < (infos t).count)
      (next : st' = { st with workers := Function.update st.workers t ⟨.check (loop + 1), (st.workers t).iosize⟩ })

theorem step_cases (next : step limit T infos buf t st = some st') : t < T ∧ Step limit infos buf t st st' := by
  simp only [step] at next
  split at next
  · contradiction
  · next few =>
    refine ⟨by omega, ?_⟩
    cases pc : (st.workers t).pc with
    | check loop =>
      simp only [pc, Option.ite_none_right_eq_some, Option.some.injEq] at next
      obtain ⟨more, rfl⟩ := next
      refine .test pc more _ ?_ rfl
      by_cases past : u64 (st.SeqW_Offset * (st.workers t).iosize) > limit
      · exact .inl ⟨past, if_pos past⟩
      · exact .inr ⟨Nat.le_of_not_lt past, if_neg past⟩
    | reset loop =>
      simp only [pc, Option.some.injEq] at next
      exact .resets pc next.symm
    | write loop i =>
      simp only [pc] at next
      split at next
      · next more => exact .writes pc more (Option.some.inj next).symm
      · next last => exact .loops pc last (Option.some.inj next).symm

/-! ### What holds between two steps -/

/-- The threads of a test: requests of whole blocks, of one size, by threads of
    the array, with room in the user space for those of one loop behind the
    limit. -/
structure Fits (g : Geometry) (limit T : Nat) (infos : Nat → WorkerInfo) (buf : Nat → Nat → Nat) (I : Nat) : Prop where
  size : ∀ t < T, (infos t).io_size = I
  positive : 0 < I
  blocks : BLK_SIZE ∣ I
  ids : ∀ t < T, (infos t).thread_id < NUM_THREADS
  data : ∀ t i, buf t i ≠ 0
  room : limit + (∑ t ∈ Finset.range T, (infos t).count.toNat) * I ≤ g.USER_SPACE_LEN

/-- The requests that a thread may have made since the last test of a thread. -/
def Pc.used (count : Nat) : Pc → Nat
  | .check _ => count
  | .reset _ => count
  | .write _ i => i

@[simp] theorem used_check (count loop : Nat) : (Pc.check loop).used count = count := rfl

@[simp] theorem used_reset (count loop : Nat) : (Pc.reset loop).used count = count := rfl

@[simp] theorem used_write (count loop i : Nat) : (Pc.write loop i).used count = i := rfl

/-- No thread is past its first test. -/
def Fresh (st : System) : Prop := ∀ t, (st.workers t).pc = .check 0 ∨ (st.workers t).pc = .reset 0

/-- The counter is beyond the limit by no more than the threads have made requests
    since a test or a reset. -/
structure Inv (g : Geometry) (limit T : Nat) (infos : Nat → WorkerInfo) (I first : Nat) (st : System) : Prop where
  sizes : ∀ t < T, (st.workers t).iosize = I
  used : ∀ t < T, (st.workers t).pc.used (infos t).count.toNat ≤ (infos t).count.toNat
  offset : st.SeqW_Offset ≤ limit / I + ∑ t ∈ Finset.range T, (st.workers t).pc.used (infos t).count.toNat ∨
    st.SeqW_Offset = first ∧ Fresh st
  valid : ∀ e ∈ st.epochs, ∀ q ∈ e, q.Valid g
  current : ∃ e rest b, st.epochs = e :: rest ∧ (b = 0 ∨ b = first) ∧ Follows I b e ∧ b + e.length = st.SeqW_Offset
  follows : ∀ e ∈ st.epochs, ∃ b, (b = 0 ∨ b = first) ∧ Follows I b e

section
variable {g : Geometry} {first : Nat}

theorem moved {P : Nat → Worker → Prop} (all : ∀ u < T, P u (st.workers u)) {w : Worker} (own : P t w) :
    ∀ u < T, P u (Function.update st.workers t w u) :=
  (Function.forall_update_iff st.workers (p := fun u w => u < T → P u w)).mpr ⟨fun _ => own, fun u _ few => all u few⟩

theorem follows_snoc {b : Nat} {e : List UioInfo} (follows : Follows I b e) {q : UioInfo}
    (offset : q.user_offset = (b + e.length) * I) (length : q.length = I) : Follows I b (e ++ [q]) := by
  unfold Follows at *
  rw [List.map_append, follows, List.length_append, List.length_singleton, List.range'_1_concat, List.map_append,
    List.map_singleton, List.map_singleton, offset, length]

theorem reset_inv (lt : t < T) (inv : Inv g limit T infos I first st) (loop : Nat) : Inv g limit T infos I first
    ⟨0, Function.update st.workers t ⟨.write loop 0, (st.workers t).iosize⟩, [] :: st.epochs⟩ := by
  refine ⟨moved (P := fun _ w => w.iosize = I) inv.sizes (inv.sizes t lt),
    moved (P := fun u w => w.pc.used (infos u).count.toNat ≤ (infos u).count.toNat) inv.used (Nat.zero_le _),
    .inl (Nat.zero_le _), fun e member => ?_, ⟨[], st.epochs, 0, rfl, .inl rfl, rfl, rfl⟩, fun e member => ?_⟩
  · rcases List.mem_cons.mp member with rfl | before
    · exact fun q none => absurd none List.not_mem_nil
    · exact inv.valid e before
  · rcases List.mem_cons.mp member with rfl | before
    · exact ⟨0, .inl rfl, rfl⟩
    · exact inv.follows e before

theorem loop_inv (lt : t < T) (inv : Inv g limit T infos I first st) {loop i : Nat}
    (pc : (st.workers t).pc = .write loop i) : Inv g limit T infos I first
      { st with workers := Function.update st.workers t ⟨.check (loop + 1), (st.workers t).iosize⟩ } := by
  have change := sum_update st.workers (fun u w => w.pc.used (infos u).count.toNat) lt
    ⟨.check (loop + 1), (st.workers t).iosize⟩
  have here := inv.used t lt
  refine ⟨moved (P := fun _ w => w.iosize = I) inv.sizes (inv.sizes t lt),
    moved (P := fun u w => w.pc.used (infos u).count.toNat ≤ (infos u).count.toNat) inv.used (Nat.le_refl _), .inl ?_,
    inv.valid, inv.current, inv.follows⟩
  rcases inv.offset with bound | ⟨_, none⟩
  · simp only [pc, used_check, used_write] at change bound here ⊢
    omega
  · rcases none t with at_first | at_first <;> cases pc.symm.trans at_first

variable (fits : Fits g limit T infos buf I)
include fits

theorem round_size : round_iosize I = I := by
  rw [round_iosize_eq fits.positive, round_up_of_dvd fits.blocks]

/-- As many requests as the counter may come to are in the user space. -/
theorem multiples_fit {n : Nat} (few : n ≤ limit / I + ∑ t ∈ Finset.range T, (infos t).count.toNat) :
    n * I ≤ g.USER_SPACE_LEN := by
  have room := fits.room
  have below := Nat.div_mul_le_self limit I
  have product := Nat.mul_le_mul_right I few
  rw [Nat.add_mul] at product
  omega

theorem inv_start : Inv g limit T infos I first (System.start infos first) where
  sizes := fits.size
  used t _ := Nat.le_refl _
  offset := .inr ⟨rfl, fun _ => .inl rfl⟩
  valid e member q there := by
    obtain rfl := List.mem_singleton.mp member
    cases there
  current := ⟨[], [], first, rfl, .inr rfl, rfl, rfl⟩
  follows e member := by
    obtain rfl := List.mem_singleton.mp member
    exact ⟨first, .inr rfl, rfl⟩

/-- The counter times the size is below `2 ^ 64`. -/
theorem product_fits (fresh : first * I < 2 ^ 64) (inv : Inv g limit T infos I first st) : st.SeqW_Offset * I < 2 ^ 64 := by
  rcases inv.offset with bound | ⟨same, _⟩
  · have signed := g.user_signed
    have inside := multiples_fit fits (n := st.SeqW_Offset)
      (bound.trans (Nat.add_le_add_left (Finset.sum_le_sum fun u member => inv.used u (Finset.mem_range.mp member)) _))
    omega
  · rwa [same]

theorem test_inv (fresh : first * I < 2 ^ 64) (lt : t < T) (inv : Inv g limit T infos I first st) {loop : Nat}
    (pc : (st.workers t).pc = .check loop) {pc' : Pc}
    (branch : limit < u64 (st.SeqW_Offset * (st.workers t).iosize) ∧ pc' = .reset loop ∨
      u64 (st.SeqW_Offset * (st.workers t).iosize) ≤ limit ∧ pc' = .write loop 0) :
    Inv g limit T infos I first { st with workers := Function.update st.workers t ⟨pc', (st.workers t).iosize⟩ } := by
  have small := product_fits fits fresh inv
  have change := sum_update st.workers (fun u w => w.pc.used (infos u).count.toNat) lt ⟨pc', (st.workers t).iosize⟩
  rw [inv.sizes t lt, u64_small small] at branch
  refine ⟨moved (P := fun _ w => w.iosize = I) inv.sizes (inv.sizes t lt),
    moved (P := fun u w => w.pc.used (infos u).count.toNat ≤ (infos u).count.toNat) inv.used ?_, ?_, inv.valid, inv.current,
    inv.follows⟩
  · rcases branch with ⟨_, rfl⟩ | ⟨_, rfl⟩ <;> simp
  · rcases branch with ⟨_, rfl⟩ | ⟨below, rfl⟩
    · rcases inv.offset with bound | ⟨same, none⟩
      · refine .inl ?_
        simp only [pc, used_check, used_reset] at change bound ⊢
        omega
      · refine .inr ⟨same, fun u => ?_⟩
        by_cases own : u = t
        · subst own
          rcases none u with at_first | at_first
          · rw [pc] at at_first
            simp only [Function.update_self, Pc.check.injEq] at at_first ⊢
            exact .inr (by rw [at_first])
          · rw [pc] at at_first
            cases at_first
        · simpa only [Function.update_of_ne own] using none u
    · exact .inl ((Nat.le_div_iff_mul_le fits.positive).mpr below |>.trans (Nat.le_add_right _ _))

theorem write_inv (lt : t < T) (inv : Inv g limit T infos I first st) {loop i : Nat} (pc : (st.workers t).pc = .write loop i)
    (more : i < (infos t).count) : Inv g limit T infos I first ⟨u64 (st.SeqW_Offset + 1),
      Function.update st.workers t ⟨.write loop (i + 1), round_iosize (st.workers t).iosize⟩,
      st.epochs.modifyHead (· ++ [⟨(infos t).thread_id, true, buf t i,
        u64 (st.SeqW_Offset * round_iosize (st.workers t).iosize), round_iosize (st.workers t).iosize⟩])⟩ := by
  have change := sum_update st.workers (fun u w => w.pc.used (infos u).count.toNat) lt ⟨.write loop (i + 1), I⟩
  have others := sum_le_others lt inv.used
  have signed := g.user_signed
  have positive := fits.positive
  have bound : st.SeqW_Offset ≤ limit / I + ∑ u ∈ Finset.range T, (st.workers u).pc.used (infos u).count.toNat := by
    rcases inv.offset with bound | ⟨_, none⟩
    · exact bound
    · rcases none t with at_first | at_first <;> cases pc.symm.trans at_first
  simp only [pc, used_write] at change others
  have room : (st.SeqW_Offset + 1) * I ≤ g.USER_SPACE_LEN := multiples_fit fits (by omega)
  have apart : (st.SeqW_Offset + 1) * I = st.SeqW_Offset * I + I := Nat.succ_mul ..
  have counter : st.SeqW_Offset + 1 ≤ (st.SeqW_Offset + 1) * I := Nat.le_mul_of_pos_right _ positive
  obtain ⟨e, rest, b, epochs, begins, follows, here⟩ := inv.current
  rw [inv.sizes t lt, round_size fits, u64_small (by omega), u64_small (by omega), epochs, List.modifyHead_cons]
  have longer := follows_snoc (I := I) follows (q := ⟨(infos t).thread_id, true, buf t i, st.SeqW_Offset * I, I⟩)
    (by rw [here]) rfl
  refine ⟨moved (P := fun _ w => w.iosize = I) inv.sizes rfl,
    moved (P := fun u w => w.pc.used (infos u).count.toNat ≤ (infos u).count.toNat) inv.used ?_, .inl ?_,
    fun e' member => ?_, ⟨_, rest, b, rfl, begins, longer, ?_⟩, fun e' member => ?_⟩
  · simp only [used_write]
    omega
  · simp only
    omega
  · rcases List.mem_cons.mp member with rfl | before
    · intro q there
      rcases List.mem_append.mp there with old | new
      · exact inv.valid e (epochs ▸ List.mem_cons_self) q old
      · obtain rfl := List.mem_singleton.mp new
        exact ⟨fits.ids t lt, fits.data t i, positive, by simp only; omega⟩
    · exact inv.valid e' (epochs ▸ List.mem_cons_of_mem _ before)
  · simp only [List.length_append, List.length_singleton]
    omega
  · rcases List.mem_cons.mp member with rfl | before
    · exact ⟨b, begins, longer⟩
    · exact inv.follows e' (epochs ▸ List.mem_cons_of_mem _ before)

theorem inv_step (fresh : first * I < 2 ^ 64) (inv : Inv g limit T infos I first st)
    (next : step limit T infos buf t st = some st') : Inv g limit T infos I first st' := by
  obtain ⟨lt, cases⟩ := step_cases next
  cases cases with
  | test pc _ pc' branch same => exact same ▸ test_inv fits fresh lt inv pc branch
  | resets _ same => exact same ▸ reset_inv lt inv _
  | writes pc more same => exact same ▸ write_inv fits lt inv pc more
  | loops pc _ same => exact same ▸ loop_inv lt inv pc

/-- In every interleaving, from any value of the counter: the requests are inside
    the user space, and those between two resets follow one another, from the
    start of the user space or, before the first reset, from the counter on. -/
theorem sequential (fresh : first * I < 2 ^ 64) {ok : System → Nat → Prop}
    (reachable : Reachable (step limit T infos buf) ok (System.start infos first) st) :
    ∀ e ∈ st.epochs, (∀ q ∈ e, q.Valid g) ∧ ∃ b, (b = 0 ∨ b = first) ∧ Follows I b e := by
  have inv : Inv g limit T infos I first st :=
    reachable.invariant (P := Inv g limit T infos I first) (inv_start fits) fun inv _ next => inv_step fits fresh inv next
  exact fun e member => ⟨inv.valid e member, inv.follows e member⟩

end

/-- The threads of the test with requests of 32 MB, each with one, and a buffer
    behind the other. -/
def bench_infos (t : Nat) : WorkerInfo := test_SeqWrite false t (32 * MB)

def bench_buf (t _ : Nat) : Nat := (t + 1) * (32 * MB)

theorem bench_fits : Fits defaultGeometry DATASET_SIZE NUM_THREADS bench_infos bench_buf (32 * MB) where
  size _ _ := rfl
  positive := by decide
  blocks := by decide
  ids _ lt := lt
  data t _ := Nat.mul_ne_zero (Nat.succ_ne_zero t) (by decide)
  room := by decide +kernel

/-- Two threads find the counter beyond the limit. The second one sets it back
    after the first one has made its request. -/
theorem sequential_two_resets : ∃ st, Reachable (step DATASET_SIZE NUM_THREADS bench_infos bench_buf) (fun _ _ => True)
    (System.start bench_infos 33) st ∧ st.epochs.map (·.map UioInfo.user_offset) = [[0, 32 * MB], [0], []] ∧
    ∀ e ∈ st.epochs, (∀ q ∈ e, q.Valid defaultGeometry) ∧ ∃ b, (b = 0 ∨ b = 33) ∧ Follows (32 * MB) b e := by
  have result : (run (step DATASET_SIZE NUM_THREADS bench_infos bench_buf) (fun _ _ => True) [0, 1, 0, 0, 1, 1, 2, 2]
      (System.start bench_infos 33)).map (fun st => st.epochs.map (·.map UioInfo.user_offset)) =
      some [[0, 32 * MB], [0], []] := by decide +kernel
  obtain ⟨st, reached, offsets⟩ := Option.map_eq_some_iff.mp result
  exact ⟨st, run_reachable reached, offsets, sequential bench_fits (by decide) (run_reachable reached)⟩

/-! ### No reset -/

/-- The requests that a thread makes. -/
def total (infos : Nat → WorkerInfo) (t : Nat) : Nat := (infos t).loop * (infos t).count.toNat

/-- The requests that a thread has made. -/
def Pc.made (count : Nat) : Pc → Nat
  | .check loop => loop * count
  | .reset loop => loop * count
  | .write loop i => loop * count + i

@[simp] theorem made_check (count loop : Nat) : (Pc.check loop).made count = loop * count := rfl

@[simp] theorem made_write (count loop i : Nat) : (Pc.write loop i).made count = loop * count + i := rfl

/-- The loops and rounds are those of the thread, and it does not reset. -/
def Pc.Within (info : WorkerInfo) : Pc → Prop
  | .check loop => loop ≤ info.loop
  | .reset _ => False
  | .write loop i => loop < info.loop ∧ i ≤ info.count.toNat

/-- The requests of all threads follow one another. -/
structure PassInv (T : Nat) (infos : Nat → WorkerInfo) (I first : Nat) (st : System) : Prop where
  sizes : ∀ t < T, (st.workers t).iosize = I
  within : ∀ t < T, (st.workers t).pc.Within (infos t)
  offset : st.SeqW_Offset = first + ∑ t ∈ Finset.range T, (st.workers t).pc.made (infos t).count.toNat
  single : ∃ e, st.epochs = [e] ∧ Follows I first e ∧ first + e.length = st.SeqW_Offset

theorem made_le {info : WorkerInfo} {pc : Pc} (within : pc.Within info) :
    pc.made info.count.toNat ≤ info.loop * info.count.toNat := by
  cases pc with
  | check loop => exact Nat.mul_le_mul_right _ within
  | reset loop => exact within.elim
  | write loop i =>
    have next := Nat.mul_le_mul_right info.count.toNat (Nat.succ_le_of_lt within.1)
    have inside := within.2
    rw [Nat.succ_mul] at next
    rw [made_write]
    omega

/-- The counter stays below the limit. -/
theorem pass_below {first : Nat} (pass : (first + ∑ t ∈ Finset.range T, total infos t) * I ≤ limit)
    (inv : PassInv T infos I first st) : st.SeqW_Offset * I ≤ limit :=
  (Nat.mul_le_mul_right I (inv.offset.trans_le (Nat.add_le_add_left (Finset.sum_le_sum fun u member =>
    made_le (inv.within u (Finset.mem_range.mp member))) first))).trans pass

theorem pass_test {first loop : Nat} (lt : t < T) (inv : PassInv T infos I first st) (pc : (st.workers t).pc = .check loop)
    (more : loop < (infos t).loop) :
    PassInv T infos I first { st with workers := Function.update st.workers t ⟨.write loop 0, (st.workers t).iosize⟩ } := by
  have change := sum_update st.workers (fun u w => w.pc.made (infos u).count.toNat) lt ⟨.write loop 0, (st.workers t).iosize⟩
  refine ⟨moved (P := fun _ w => w.iosize = I) inv.sizes (inv.sizes t lt),
    moved (P := fun u w => w.pc.Within (infos u)) inv.within ⟨more, Nat.zero_le _⟩, ?_, inv.single⟩
  have offset := inv.offset
  simp only [pc, made_check, made_write] at change offset ⊢
  omega

theorem pass_loop {first loop i : Nat} (lt : t < T) (inv : PassInv T infos I first st)
    (pc : (st.workers t).pc = .write loop i) (last : ¬ i < (infos t).count) : PassInv T infos I first
      { st with workers := Function.update st.workers t ⟨.check (loop + 1), (st.workers t).iosize⟩ } := by
  have change := sum_update st.workers (fun u w => w.pc.made (infos u).count.toNat) lt
    ⟨.check (loop + 1), (st.workers t).iosize⟩
  have within := inv.within t lt
  rw [pc] at within
  have rounds : i = (infos t).count.toNat := by
    have few := within.2
    omega
  refine ⟨moved (P := fun _ w => w.iosize = I) inv.sizes (inv.sizes t lt),
    moved (P := fun u w => w.pc.Within (infos u)) inv.within within.1, ?_, inv.single⟩
  have offset := inv.offset
  simp only [pc, made_check, made_write, Nat.succ_mul, rounds] at change offset ⊢
  omega

section
variable {g : Geometry} {first : Nat} (fits : Fits g limit T infos buf I)
  (pass : (first + ∑ t ∈ Finset.range T, total infos t) * I ≤ limit)
include fits pass

theorem pass_write {loop i : Nat} (lt : t < T) (inv : PassInv T infos I first st) (pc : (st.workers t).pc = .write loop i)
    (more : i < (infos t).count) : PassInv T infos I first ⟨u64 (st.SeqW_Offset + 1),
      Function.update st.workers t ⟨.write loop (i + 1), round_iosize (st.workers t).iosize⟩,
      st.epochs.modifyHead (· ++ [⟨(infos t).thread_id, true, buf t i,
        u64 (st.SeqW_Offset * round_iosize (st.workers t).iosize), round_iosize (st.workers t).iosize⟩])⟩ := by
  have change := sum_update st.workers (fun u w => w.pc.made (infos u).count.toNat) lt ⟨.write loop (i + 1), I⟩
  have signed := g.user_signed
  have room := fits.room
  have below := pass_below pass inv
  have counter : st.SeqW_Offset ≤ st.SeqW_Offset * I := Nat.le_mul_of_pos_right _ fits.positive
  have within := inv.within t lt
  rw [pc] at within
  have round : i + 1 ≤ (infos t).count.toNat := by omega
  obtain ⟨e, epochs, follows, here⟩ := inv.single
  rw [inv.sizes t lt, round_size fits, u64_small (by omega), u64_small (by omega), epochs, List.modifyHead_cons]
  have longer := follows_snoc (I := I) follows (q := ⟨(infos t).thread_id, true, buf t i, st.SeqW_Offset * I, I⟩)
    (by rw [here]) rfl
  refine ⟨moved (P := fun _ w => w.iosize = I) inv.sizes rfl,
    moved (P := fun u w => w.pc.Within (infos u)) inv.within ⟨within.1, round⟩, ?_, ⟨_, rfl, longer, ?_⟩⟩
  · have offset := inv.offset
    simp only [pc, made_write] at change ⊢
    omega
  · simp only [List.length_append, List.length_singleton]
    omega

theorem pass_step (inv : PassInv T infos I first st) (next : step limit T infos buf t st = some st') :
    PassInv T infos I first st' := by
  obtain ⟨lt, cases⟩ := step_cases next
  cases cases with
  | test pc more pc' branch same =>
    have below := pass_below pass inv
    have signed := g.user_signed
    have room := fits.room
    rw [inv.sizes t lt, u64_small (by omega)] at branch
    rcases branch with ⟨past, _⟩ | ⟨_, rfl⟩
    · exact absurd below (by omega)
    · exact same ▸ pass_test lt inv pc more
  | resets pc same => exact absurd (inv.within t lt) (by rw [pc]; exact id)
  | writes pc more same => exact same ▸ pass_write fits pass lt inv pc more
  | loops pc last same => exact same ▸ pass_loop lt inv pc last

/-- With all requests below the limit there is no reset, in any interleaving: the
    requests of all threads follow one another, and in the end they are as many as
    the threads were told. -/
theorem one_pass {ok : System → Nat → Prop}
    (reachable : Reachable (step limit T infos buf) ok (System.start infos first) st) :
    ∃ requests, st.epochs = [requests] ∧ Follows I first requests ∧
      ((∀ t < T, Ended infos st t) → requests.length = ∑ t ∈ Finset.range T, total infos t) := by
  have inv : PassInv T infos I first st :=
    reachable.invariant (P := PassInv T infos I first)
      ⟨fits.size, fun t _ => Nat.zero_le _, by simp [System.start], ⟨[], rfl, rfl, rfl⟩⟩
      fun inv _ next => pass_step fits pass inv next
  obtain ⟨requests, single, follows, here⟩ := inv.single
  refine ⟨requests, single, follows, fun ended => ?_⟩
  have all : ∑ t ∈ Finset.range T, (st.workers t).pc.made (infos t).count.toNat = ∑ t ∈ Finset.range T, total infos t := by
    refine Finset.sum_congr rfl fun t member => ?_
    obtain ⟨loop, pc, last⟩ := ended t (Finset.mem_range.mp member)
    have within := inv.within t (Finset.mem_range.mp member)
    rw [pc] at within ⊢
    rw [made_check, total, le_antisymm within last]
  have offset := inv.offset
  omega

end

theorem one_pass_bench : ∃ st, Reachable (step DATASET_SIZE NUM_THREADS bench_infos bench_buf) (fun _ _ => True)
    (System.start bench_infos 0) st ∧ (∀ t < NUM_THREADS, Ended bench_infos st t) ∧
    ∃ requests, st.epochs = [requests] ∧ Follows (32 * MB) 0 requests ∧ requests.length = 32 := by
  have result : (run (step DATASET_SIZE NUM_THREADS bench_infos bench_buf) (fun _ _ => True)
      ((List.replicate 3 (List.range 32)).flatten) (System.start bench_infos 0)).map
      (fun st => (List.range 32).map fun t => (st.workers t).pc) = some (List.replicate 32 (.check 1)) := by decide +kernel
  obtain ⟨st, reached, pcs⟩ := Option.map_eq_some_iff.mp result
  have ended : ∀ t < NUM_THREADS, Ended bench_infos st t := by
    intro t lt
    have pc := List.map_eq_replicate_iff.mp pcs t (List.mem_range.mpr lt)
    exact ⟨1, pc, le_rfl⟩
  obtain ⟨requests, single, follows, count⟩ := one_pass bench_fits (by decide +kernel) (run_reachable reached)
  exact ⟨st, run_reachable reached, ended, requests, single, follows, (count ended).trans (by decide +kernel)⟩

end Straid.SequentialRequests
