import Straid.Fairness
import Straid.TraceLoader

/-!
What a replay reports (`trace_st.cc`). A worker counts each request after it, and
`collector_run` samples the counters and takes the totals when the workers are
joined. A replay that has ended has the totals of the records that were to be
replayed, also when requests mix records (`accounted`); how the bytes divide into
reads and writes is that of the records when the workers take their turns
(`accounted_in_order`). As long as the calls of the workers return, every fair
schedule comes to the end (`replay_ends`).
-/
namespace Straid.Accounting
open Interleavings Fairness TraceReplay TraceLoader

/-! ### The code -/

/-- The counters `G_DATA_WRITTEN`, `G_DATA_READ` and `G_IOCOUNT`, or what was
    loaded of them. -/
structure Counts where
  written : Nat
  read : Nat
  iocnt : Nat
  deriving DecidableEq, Repr

/-- What a worker has to count before its next request. -/
inductive Phase
  | request
  | data (iodir : Bool) (length : Nat)
  | count
  deriving DecidableEq, Repr

/-- The samples of a `TTest_Item`. -/
structure Samples where
  WBand_persec : List Nat
  RBand_persec : List Nat
  Band_persec : List Nat
  IOPS_persec : List Nat
  deriving DecidableEq, Repr

/-- The three times that `collector_run` loads the counters: into `last_*` at
    first, into `now_*`, and into `all_*` at the end. -/
inductive Loads
  | last
  | now
  | all
  deriving DecidableEq, Repr

/-- Where `collector_run` is: before a load, or at the flag. -/
inductive CollectorPc
  | written (l : Loads)
  | read (l : Loads)
  | iocnt (l : Loads)
  | test
  | ended
  deriving DecidableEq, Repr

structure System where
  replay : TraceReplay.System
  phases : Nat → Phase
  counts : Counts
  Collector_endflag : Bool
  pc : CollectorPc
  loaded : Loads → Counts
  samples : Samples

/-- The counters are reset before a trace. What the variables of the collector
    hold before the first loads is not used. -/
def System.start : System where
  replay := .start
  phases := fun _ => .request
  counts := ⟨0, 0, 0⟩
  Collector_endflag := false
  pc := .written .last
  loaded := fun _ => ⟨0, 0, 0⟩
  samples := ⟨[], [], [], []⟩

/-- The `fetch_add` of the length of a request. -/
def Counts.add_data (c : Counts) (iodir : Bool) (length : Nat) : Counts :=
  if iodir then { c with written := u64 (c.written + length) } else { c with read := u64 (c.read + length) }

/-- The samples of a round of the loop. -/
def Samples.emplace (s : Samples) (last now : Counts) : Samples where
  WBand_persec := s.WBand_persec ++ [u64_sub now.written last.written]
  RBand_persec := s.RBand_persec ++ [u64_sub now.read last.read]
  Band_persec := s.Band_persec ++ [u64_sub (u64_sub (u64 (now.written + now.read)) last.written) last.read]
  IOPS_persec := s.IOPS_persec ++ [u64_sub now.iocnt last.iocnt]

/-- The workers, the collector, and `main`, which joins the workers. -/
inductive Agent
  | worker (thread_id : Nat)
  | collector
  | main
  deriving DecidableEq, Repr

variable (g : Geometry) (t : Trace) (W : Nat)

/-- What is to be counted after a step of a worker that was at `pc`. -/
def next_phase : Pc → Phase
  | .issue off len iodir =>
    let q := adjust g (t.request off len iodir)
    .data q.iodir q.length
  | _ => .request

/-- A step of `worker_run`: of the replay, or of a counter. -/
def worker_run (thread_id : Nat) (st : System) : Option System :=
  match st.phases thread_id with
  | .request => (TraceReplay.step t W thread_id st.replay).map fun replay =>
      { st with
        replay := replay
        phases := Function.update st.phases thread_id (next_phase g t (st.replay.workers thread_id).pc) }
  | .data iodir length =>
    some { st with
      counts := st.counts.add_data iodir length
      phases := Function.update st.phases thread_id .count }
  | .count =>
    some { st with
      counts := { st.counts with iocnt := u64 (st.counts.iocnt + 1) }
      phases := Function.update st.phases thread_id .request }

/-- The state with one of the variables of the collector changed. -/
def System.store (st : System) (l : Loads) (c : Counts) (pc : CollectorPc) : System :=
  { st with loaded := Function.update st.loaded l c, pc := pc }

/-- A step of `collector_run`. With the load of `G_IOCOUNT` it comes to the end
    of a round. -/
def collector_run (st : System) : Option System :=
  match st.pc with
  | .written l => some (st.store l { st.loaded l with written := st.counts.written } (.read l))
  | .read l => some (st.store l { st.loaded l with read := st.counts.read } (.iocnt l))
  | .iocnt .last => some (st.store .last { st.loaded .last with iocnt := st.counts.iocnt } .test)
  | .iocnt .now =>
    let now := { st.loaded .now with iocnt := st.counts.iocnt }
    some { st.store .last now .test with samples := st.samples.emplace (st.loaded .last) now }
  | .iocnt .all => some (st.store .all { st.loaded .all with iocnt := st.counts.iocnt } .ended)
  | .test => some { st with pc := .written (if st.Collector_endflag then .all else .now) }
  | .ended => none

/-- The worker has returned. -/
def Ended (st : System) (thread_id : Nat) : Prop :=
  TraceReplay.Done t W st.replay thread_id ∧ st.phases thread_id = .request

instance (st : System) (thread_id : Nat) : Decidable (Ended t W st thread_id) :=
  inferInstanceAs (Decidable ((_ ∧ ¬ _) ∧ _))

/-- A step of any of them: that of a worker which issues a request is a call that
    returns. `main` sets the flag when the workers are joined. -/
def step : Agent → System → Option System
  | .worker thread_id, st => worker_run g t W thread_id st
  | .collector, st => collector_run st
  | .main, st =>
    if st.Collector_endflag = false ∧ ∀ thread_id < W, Ended t W st thread_id then
      some { st with Collector_endflag := true }
    else none

/-- A worker that has a part of a request to take takes it in its turn. -/
def InTurn (st : System) : Agent → Prop
  | .worker thread_id => st.phases thread_id = .request → InOrder st.replay thread_id
  | _ => True

variable {g t W}

variable {st st' : System} {thread_id : Nat}

/-! ### Steps -/

theorem worker_frame (next : worker_run g t W thread_id st = some st') : st'.Collector_endflag = st.Collector_endflag ∧
    st'.pc = st.pc ∧ st'.loaded = st.loaded ∧ st'.samples = st.samples := by
  simp only [worker_run] at next
  split at next
  · obtain ⟨_, _, rfl⟩ := Option.map_eq_some_iff.mp next
    exact ⟨rfl, rfl, rfl, rfl⟩
  · cases next
    exact ⟨rfl, rfl, rfl, rfl⟩
  · cases next
    exact ⟨rfl, rfl, rfl, rfl⟩

theorem collector_frame (next : collector_run st = some st') : st'.replay = st.replay ∧ st'.phases = st.phases ∧
    st'.counts = st.counts ∧ st'.Collector_endflag = st.Collector_endflag := by
  simp only [collector_run] at next
  split at next <;> cases next <;> exact ⟨rfl, rfl, rfl, rfl⟩

theorem main_step (next : step g t W .main st = some st') : st.Collector_endflag = false ∧
    (∀ u < W, Ended t W st u) ∧ st' = { st with Collector_endflag := true } := by
  simp only [step, Option.ite_none_right_eq_some, Option.some.injEq] at next
  exact ⟨next.1.1, next.1.2, next.2.symm⟩

/-! ### What is counted -/

/-- The bytes of the requests of a direction. -/
def bytes (iodir : Bool) (qs : List Request) : Nat :=
  ((qs.filter (·.iodir = iodir)).map fun q => sector_align q.length).sum

/-- The bytes of the first records. -/
def data (t : Trace) (n : Nat) : Nat := ((t.len_l.take n).map sector_align).sum

/-- The bytes of a direction, and the requests, that a worker is still to count. -/
def Phase.pending (dir : Bool) : Phase → Nat
  | .data iodir length => if iodir = dir then length else 0
  | _ => 0

def Phase.uncounted : Phase → Nat
  | .request => 0
  | _ => 1

/-- The bytes of the length that a worker has taken for its next request. -/
def taken (t : Trace) : Pc → Nat
  | .iodir _ len => sector_align (t.len_l.getD len 0)
  | .issue _ len _ => sector_align (t.len_l.getD len 0)
  | _ => 0

/-- The counters stand at `exact`, modulo the size of a counter: together with
    what the workers are to count, that are the issued requests, whose lengths
    with those that the workers have taken are the first of the trace. -/
structure Tally (t : Trace) (W : Nat) (st : System) (exact : Counts) : Prop where
  counted : Counted t W st.replay
  own : ∀ u, st.phases u ≠ .request → u < W ∧ (st.replay.workers u).pc = .off
  lengths : (st.replay.issued.map fun q => sector_align q.length).sum +
    ∑ u ∈ Finset.range W, taken t (st.replay.workers u).pc = data t st.replay.len_cnt
  rounds : st.replay.issued.length = ∑ u ∈ Finset.range W, (st.replay.workers u).io
  written : exact.written + ∑ u ∈ Finset.range W, (st.phases u).pending true = bytes true st.replay.issued
  read : exact.read + ∑ u ∈ Finset.range W, (st.phases u).pending false = bytes false st.replay.issued
  iocnt : exact.iocnt + ∑ u ∈ Finset.range W, (st.phases u).uncounted = st.replay.issued.length
  counts : st.counts = ⟨u64 exact.written, u64 exact.read, u64 exact.iocnt⟩

/-- Each counter of the second is at least that of the first. -/
def Counts.Le (c d : Counts) : Prop := c.written ≤ d.written ∧ c.read ≤ d.read ∧ c.iocnt ≤ d.iocnt

theorem Counts.le_rfl (c : Counts) : c.Le c := ⟨Nat.le_refl _, Nat.le_refl _, Nat.le_refl _⟩

theorem bytes_append (dir : Bool) (qs : List Request) (q : Request) :
    bytes dir (qs ++ [q]) = bytes dir qs + if q.iodir = dir then sector_align q.length else 0 := by
  unfold bytes
  rw [List.filter_append, List.map_append, List.sum_append]
  by_cases same : q.iodir = dir
  · simp [same]
  · simp [same]

/-- Every request has a direction. -/
theorem bytes_both (qs : List Request) :
    bytes true qs + bytes false qs = (qs.map fun q => sector_align q.length).sum := by
  induction qs with
  | nil => rfl
  | cons q qs ih =>
    rw [List.map_cons, List.sum_cons, ← ih]
    cases dir : q.iodir <;> simp [bytes, dir] <;> omega

theorem data_succ (t : Trace) (n : Nat) : data t (n + 1) = data t n + sector_align (t.len_l.getD n 0) := by
  rw [data, data, List.take_add_one, List.map_append, List.sum_append, List.getD_eq_getElem?_getD]
  cases t.len_l[n]? with
  | none => rfl
  | some len => rw [Option.toList_some, List.map_singleton, List.sum_singleton, Option.getD_some]

theorem data_mono {n m : Nat} (le : n ≤ m) : data t n ≤ data t m :=
  ((List.take_sublist_take_left le).map _).sum_le_sum fun _ _ => Nat.zero_le _

theorem u64_add (a b : Nat) : u64 (u64 a + b) = u64 (a + b) := Nat.mod_add_mod ..

theorem tally_start : Tally t W System.start ⟨0, 0, 0⟩ where
  counted := counted_start
  own u busy := absurd rfl busy
  lengths := by simp [System.start, TraceReplay.System.start, taken, data]
  rounds := by simp [System.start, TraceReplay.System.start]
  written := by simp [System.start, TraceReplay.System.start, Phase.pending, bytes]
  read := by simp [System.start, TraceReplay.System.start, Phase.pending, bytes]
  iocnt := by simp [System.start, TraceReplay.System.start, Phase.uncounted]
  counts := rfl

variable {exact : Counts}

/-- A worker takes a part of its next request. -/
theorem tally_part (tally : Tally t W st exact) (idle : st.phases thread_id = .request) (lt : thread_id < W) {w : Worker}
    {off len iodir : Nat}
    (counted : Counted t W ⟨off, len, iodir, Function.update st.replay.workers thread_id w, st.replay.issued⟩)
    (round : w.io = (st.replay.workers thread_id).io)
    (balance : data t len + taken t (st.replay.workers thread_id).pc = data t st.replay.len_cnt + taken t w.pc) :
    Tally t W { st with
      replay := ⟨off, len, iodir, Function.update st.replay.workers thread_id w, st.replay.issued⟩ } exact := by
  have takes := sum_update st.replay.workers (fun _ w => taken t w.pc) lt w
  have turns := sum_update st.replay.workers (fun _ => Worker.io) lt w
  have lengths := tally.lengths
  have rounds := tally.rounds
  refine ⟨counted, fun u busy => ?_, ?_, ?_, tally.written, tally.read, tally.iocnt, tally.counts⟩
  · have other : u ≠ thread_id := by
      rintro rfl
      exact busy idle
    simp only [Function.update_of_ne other]
    exact tally.own u busy
  · simp only at takes ⊢
    omega
  · simp only
    omega

/-- A step of the replay counts nothing yet. -/
theorem tally_replay (tally : Tally t W st exact) {replay : TraceReplay.System} (idle : st.phases thread_id = .request)
    (next : TraceReplay.step t W thread_id st.replay = some replay) : Tally t W { st with
      replay := replay
      phases := Function.update st.phases thread_id (next_phase g t (st.replay.workers thread_id).pc) } exact := by
  have counted := counted_step tally.counted next
  have same : Function.update st.phases thread_id .request = st.phases := by rw [← idle, Function.update_eq_self]
  obtain ⟨lt, cases⟩ := TraceReplay.step_cases next
  rcases cases with ⟨pc, _, rfl⟩ | ⟨off, pc, rfl⟩ | ⟨off, len, pc, rfl⟩ | ⟨off, len, iodir, pc, rfl⟩
  · simp only [pc, next_phase, same]
    refine tally_part tally idle lt counted rfl ?_
    rw [pc]
    rfl
  · simp only [pc, next_phase, same]
    refine tally_part tally idle lt counted rfl ?_
    rw [pc, data_succ]
    rfl
  · simp only [pc, next_phase, same]
    refine tally_part tally idle lt counted rfl ?_
    rw [pc]
    rfl
  · -- The request is issued: its length is no longer only taken, and is to be counted.
    have takes := sum_update st.replay.workers (fun _ w => taken t w.pc) lt ⟨(st.replay.workers thread_id).io + 1, .off⟩
    have turns := sum_update st.replay.workers (fun _ => Worker.io) lt ⟨(st.replay.workers thread_id).io + 1, .off⟩
    have waits := sum_update st.phases (fun _ => Phase.uncounted) lt (next_phase g t (.issue off len iodir))
    have pends := fun dir => sum_update st.phases (fun _ => Phase.pending dir) lt (next_phase g t (.issue off len iodir))
    have lengths := tally.lengths
    have rounds := tally.rounds
    have iocnt := tally.iocnt
    have direction : ∀ dir, (st.phases thread_id).pending dir = 0 ∧ (next_phase g t (.issue off len iodir)).pending dir =
        if (t.request off len iodir).iodir = dir then sector_align (t.request off len iodir).length else 0 := by
      intro dir
      rw [idle]
      exact ⟨rfl, rfl⟩
    rw [idle] at waits
    simp only [pc] at takes turns
    have one : (next_phase g t (.issue off len iodir)).uncounted = 1 ∧ Phase.request.uncounted = 0 := ⟨rfl, rfl⟩
    have length : taken t (.issue off len iodir) = sector_align (t.request off len iodir).length ∧ taken t .off = 0 :=
      ⟨rfl, rfl⟩
    rw [pc]
    refine ⟨counted, fun u busy => ?_, ?_, ?_, ?_, ?_, ?_, tally.counts⟩
    · by_cases own : u = thread_id
      · subst own
        exact ⟨lt, by simp⟩
      · simp only [Function.update_of_ne own] at busy ⊢
        exact tally.own u busy
    · simp only [List.map_append, List.sum_append, List.map_singleton, List.sum_singleton]
      omega
    · simp only [List.length_append, List.length_singleton]
      omega
    · have written := tally.written
      have pend := pends true
      have own := direction true
      simp only [bytes_append]
      omega
    · have read := tally.read
      have pend := pends false
      have own := direction false
      simp only [bytes_append]
      omega
    · simp only [List.length_append, List.length_singleton]
      omega

/-- A worker counts a part of what it has to count. -/
theorem tally_counter (tally : Tally t W st exact) (busy : st.phases thread_id ≠ .request) (phase : Phase) (exact' : Counts)
    (written : exact'.written + phase.pending true = exact.written + (st.phases thread_id).pending true)
    (read : exact'.read + phase.pending false = exact.read + (st.phases thread_id).pending false)
    (iocnt : exact'.iocnt + phase.uncounted = exact.iocnt + (st.phases thread_id).uncounted) : Tally t W { st with
      counts := ⟨u64 exact'.written, u64 exact'.read, u64 exact'.iocnt⟩
      phases := Function.update st.phases thread_id phase } exact' := by
  obtain ⟨lt, pc⟩ := tally.own thread_id busy
  have waits := sum_update st.phases (fun _ => Phase.uncounted) lt phase
  have writes := sum_update st.phases (fun _ => Phase.pending true) lt phase
  have reads := sum_update st.phases (fun _ => Phase.pending false) lt phase
  have before_written := tally.written
  have before_read := tally.read
  have before_iocnt := tally.iocnt
  refine ⟨tally.counted, fun u other => ?_, tally.lengths, tally.rounds, ?_, ?_, ?_, rfl⟩
  · by_cases own : u = thread_id
    · subst own
      exact ⟨lt, pc⟩
    · simp only [Function.update_of_ne own] at other
      exact tally.own u other
  · simp only
    omega
  · simp only
    omega
  · simp only
    omega

theorem add_data_eq (c : Counts) (iodir : Bool) (length : Nat) :
    Counts.add_data ⟨u64 c.written, u64 c.read, u64 c.iocnt⟩ iodir length =
      ⟨u64 (c.written + (Phase.data iodir length).pending true), u64 (c.read + (Phase.data iodir length).pending false),
        u64 c.iocnt⟩ := by
  cases iodir <;> simp [Counts.add_data, Phase.pending, u64_add]

theorem tally_same (tally : Tally t W st exact) (replay : st'.replay = st.replay) (phases : st'.phases = st.phases)
    (counts : st'.counts = st.counts) : Tally t W st' exact := by
  obtain ⟨counted, own, lengths, rounds, written, read, iocnt, same⟩ := tally
  rw [← replay] at counted own lengths rounds written read iocnt
  rw [← phases] at own written read iocnt
  rw [← counts] at same
  exact ⟨counted, own, lengths, rounds, written, read, iocnt, same⟩

/-- What the counters stand at only grows. -/
theorem tally_step (tally : Tally t W st exact) {a : Agent} (next : step g t W a st = some st') :
    ∃ exact', exact.Le exact' ∧ Tally t W st' exact' := by
  cases a with
  | worker thread_id =>
    simp only [step, worker_run] at next
    cases phase : st.phases thread_id with
    | request =>
      simp only [phase, Option.map_eq_some_iff] at next
      obtain ⟨replay, next, rfl⟩ := next
      exact ⟨exact, exact.le_rfl, tally_replay tally phase next⟩
    | data iodir length =>
      simp only [phase, Option.some.injEq] at next
      subst next
      have busy : st.phases thread_id ≠ .request := by simp [phase]
      have counter := tally_counter tally busy .count ⟨exact.written + (st.phases thread_id).pending true,
        exact.read + (st.phases thread_id).pending false, exact.iocnt⟩ rfl rfl (by rw [phase]; rfl)
      rw [phase] at counter
      rw [tally.counts, add_data_eq]
      refine ⟨_, ?_, counter⟩
      exact ⟨Nat.le_add_right .., Nat.le_add_right .., Nat.le_refl _⟩
    | count =>
      simp only [phase, Option.some.injEq] at next
      subst next
      have busy : st.phases thread_id ≠ .request := by simp [phase]
      have counter := tally_counter tally busy .request ⟨exact.written, exact.read, exact.iocnt + 1⟩
        (by rw [phase]; rfl) (by rw [phase]; rfl) (by rw [phase]; rfl)
      simp only [tally.counts, u64_add]
      refine ⟨_, ?_, counter⟩
      exact ⟨Nat.le_refl _, Nat.le_refl _, Nat.le_add_right ..⟩
  | collector =>
    obtain ⟨replay, phases, counts, _⟩ := collector_frame next
    exact ⟨exact, exact.le_rfl, tally_same tally replay phases counts⟩
  | main =>
    obtain ⟨_, _, rfl⟩ := main_step next
    exact ⟨exact, exact.le_rfl, tally_same tally rfl rfl rfl⟩

/-! ### When the workers have returned -/

theorem ended_advanced (tally : Tally t W st exact) (ended : Ended t W st thread_id) (k : Nat) :
    (st.replay.workers thread_id).advanced k = count t W ∧ (st.replay.workers thread_id).io = count t W := by
  obtain ⟨⟨pc, last⟩, _⟩ := ended
  have begun := tally.counted.rounds thread_id
  simp only [Worker.advanced, pc, Pc.taken] at begun ⊢
  omega

/-- Everything is counted. -/
theorem tally_ended (tally : Tally t W st exact) (ended : ∀ u < W, Ended t W st u) :
    exact.iocnt = W * count t W ∧ exact.written = bytes true st.replay.issued ∧
      exact.read = bytes false st.replay.issued ∧ exact.written + exact.read = data t (W * count t W) := by
  have waits : ∑ u ∈ Finset.range W, (st.phases u).uncounted = 0 := sum_zero fun u lt => by rw [(ended u lt).2]; rfl
  have pends : ∀ dir, ∑ u ∈ Finset.range W, (st.phases u).pending dir = 0 := fun dir =>
    sum_zero fun u lt => by rw [(ended u lt).2]; rfl
  have takes : ∑ u ∈ Finset.range W, taken t (st.replay.workers u).pc = 0 := sum_zero fun u lt => by
    rw [(ended u lt).1.1]
    rfl
  have turns : ∑ u ∈ Finset.range W, (st.replay.workers u).io = W * count t W := by
    rw [Finset.sum_congr rfl fun u member => (ended_advanced tally (ended u (Finset.mem_range.mp member)) 0).2]
    simp
  have lens : st.replay.len_cnt = W * count t W := by
    rw [tally.counted.len, total, List.map_congr_left fun u member =>
      (ended_advanced tally (ended u (List.mem_range.mp member)) 1).1]
    simp
  have lengths := tally.lengths
  have rounds := tally.rounds
  have written := tally.written
  have read := tally.read
  have iocnt := tally.iocnt
  have both := bytes_both st.replay.issued
  rw [pends true] at written
  rw [pends false] at read
  rw [lens] at lengths
  refine ⟨?_, ?_, ?_, ?_⟩ <;> omega

/-- No counter stands above the bytes, or the number, of the records. -/
theorem tally_le (tally : Tally t W st exact) : exact.written + exact.read ≤ data t t.len_l.length ∧
    exact.iocnt ≤ t.len_l.length := by
  have lengths := tally.lengths
  have rounds := tally.rounds
  have written := tally.written
  have read := tally.read
  have iocnt := tally.iocnt
  have both := bytes_both st.replay.issued
  have few : ∑ u ∈ Finset.range W, (st.replay.workers u).io ≤ W * count t W := by
    refine (Finset.sum_le_sum fun u _ => ?_).trans (by simp : ∑ _u ∈ Finset.range W, count t W ≤ W * count t W)
    exact Nat.le_trans (Nat.le_add_right ..) (tally.counted.rounds u)
  have all := rounds_le t W
  have size := t.len_size
  have more : data t st.replay.len_cnt ≤ data t t.len_l.length := by
    rcases Nat.le_total st.replay.len_cnt t.len_l.length with le | past
    · exact data_mono le
    · rw [data, List.take_of_length_le past, data, List.take_length]
  omega

/-- A worker that has returned has no step. -/
theorem ended_step (tally : Tally t W st exact) (ended : ∀ u < W, Ended t W st u) : worker_run g t W thread_id st = none := by
  have idle : st.phases thread_id = .request := by
    by_contra busy
    exact busy (ended thread_id (tally.own thread_id busy).1).2
  have stays : TraceReplay.step t W thread_id st.replay = none := by
    by_cases lt : thread_id < W
    · obtain ⟨⟨pc, last⟩, _⟩ := ended thread_id lt
      rw [TraceReplay.step, if_neg (by omega)]
      simp only [pc, last, false_and, if_false]
    · rw [TraceReplay.step, if_pos (by omega)]
  simp only [worker_run, idle, stays, Option.map_none]

/-! ### The collector -/

/-- How many of the totals are loaded. -/
def CollectorPc.totals : CollectorPc → Nat
  | .read .all => 1
  | .iocnt .all => 2
  | .ended => 3
  | _ => 0

/-- The totals are loaded when the workers have returned. -/
structure Closed (t : Trace) (W : Nat) (st : System) : Prop where
  flag : st.Collector_endflag = true → ∀ u < W, Ended t W st u
  closing : st.pc = .written .all ∨ 0 < st.pc.totals → st.Collector_endflag = true
  written : 1 ≤ st.pc.totals → (st.loaded .all).written = st.counts.written
  read : 2 ≤ st.pc.totals → (st.loaded .all).read = st.counts.read
  iocnt : 3 ≤ st.pc.totals → (st.loaded .all).iocnt = st.counts.iocnt

theorem closed_start : Closed t W System.start where
  flag set := by cases set
  closing at_all := by rcases at_all with at_all | at_all <;> simp [System.start, CollectorPc.totals] at at_all
  written some_totals := by simp [System.start, CollectorPc.totals] at some_totals
  read some_totals := by simp [System.start, CollectorPc.totals] at some_totals
  iocnt some_totals := by simp [System.start, CollectorPc.totals] at some_totals

/-- Before the first of the totals. -/
theorem closed_before (flag : st.Collector_endflag = true → ∀ u < W, Ended t W st u) (early : st.pc ≠ .written .all)
    (none : st.pc.totals = 0) : Closed t W st where
  flag := flag
  closing late := by
    rcases late with at_all | some_totals
    · exact absurd at_all early
    · omega
  written some_totals := by omega
  read some_totals := by omega
  iocnt some_totals := by omega

theorem closed_collector (closed : Closed t W st) (next : collector_run st = some st') : Closed t W st' := by
  simp only [collector_run] at next
  cases pc : st.pc with
  | written l =>
    simp only [pc, Option.some.injEq] at next
    subst next
    cases l with
    | last | now => exact closed_before closed.flag (by simp [System.store]) rfl
    | all =>
      refine ⟨closed.flag, fun _ => closed.closing (.inl pc), fun _ => ?_, fun two => ?_, fun three => ?_⟩
      · simp only [System.store, Function.update_self]
      · simp [System.store, CollectorPc.totals] at two
      · simp [System.store, CollectorPc.totals] at three
  | read l =>
    simp only [pc, Option.some.injEq] at next
    subst next
    cases l with
    | last | now => exact closed_before closed.flag (by simp [System.store]) rfl
    | all =>
      have one : st.pc.totals = 1 := by rw [pc]; rfl
      refine ⟨closed.flag, fun _ => closed.closing (.inr (by omega)), fun _ => ?_, fun _ => ?_, fun three => ?_⟩
      · simpa only [System.store, Function.update_self] using closed.written (by omega)
      · simp only [System.store, Function.update_self]
      · simp [System.store, CollectorPc.totals] at three
  | iocnt l =>
    cases l with
    | last | now =>
      simp only [pc, Option.some.injEq] at next
      subst next
      exact closed_before closed.flag (by simp [System.store]) rfl
    | all =>
      simp only [pc, Option.some.injEq] at next
      subst next
      have two : st.pc.totals = 2 := by rw [pc]; rfl
      refine ⟨closed.flag, fun _ => closed.closing (.inr (by omega)), fun _ => ?_, fun _ => ?_, fun _ => ?_⟩
      · simpa only [System.store, Function.update_self] using closed.written (by omega)
      · simpa only [System.store, Function.update_self] using closed.read (by omega)
      · simp only [System.store, Function.update_self]
  | test =>
    simp only [pc, Option.some.injEq] at next
    subst next
    by_cases set : st.Collector_endflag = true
    · refine ⟨closed.flag, fun _ => set, fun some_totals => ?_, fun some_totals => ?_, fun some_totals => ?_⟩ <;>
        simp [CollectorPc.totals] at some_totals
    · exact closed_before closed.flag (by simp [set]) rfl
  | ended => simp [pc] at next

theorem closed_step (tally : Tally t W st exact) (closed : Closed t W st) {a : Agent} (next : step g t W a st = some st') :
    Closed t W st' := by
  cases a with
  | worker thread_id =>
    have running : st.Collector_endflag = false := by
      by_contra set
      rw [step, ended_step tally (closed.flag (by simpa using set))] at next
      cases next
    obtain ⟨same_flag, same_pc, _⟩ := worker_frame next
    have early : ¬ (st'.pc = .written .all ∨ 0 < st'.pc.totals) := by
      intro late
      rw [closed.closing (same_pc ▸ late)] at running
      cases running
    refine closed_before (fun set => ?_) (fun at_all => early (.inl at_all)) (Nat.eq_zero_of_not_pos fun some_totals =>
      early (.inr some_totals))
    rw [same_flag, running] at set
    cases set
  | collector => exact closed_collector closed next
  | main =>
    obtain ⟨_, joined, rfl⟩ := main_step next
    exact ⟨fun _ => joined, fun _ => rfl, closed.written, closed.read, closed.iocnt⟩

/-! ### The samples -/

/-- What the samples of each kind sum to. -/
def Samples.sums (s : Samples) : Counts := ⟨s.WBand_persec.sum, s.RBand_persec.sum, s.IOPS_persec.sum⟩

/-- The samples sum to what was counted since the first loads, and the values
    loaded are not beyond the counters. -/
structure Sampled (st : System) : Prop where
  sums : st.samples.sums.Le (st.loaded .last)
  last : (st.loaded .last).Le st.counts
  first : st.pc = .written .last ∨ st.pc = .read .last ∨ st.pc = .iocnt .last → st.samples.sums = ⟨0, 0, 0⟩
  now_written : st.pc = .read .now ∨ st.pc = .iocnt .now →
    (st.loaded .last).written ≤ (st.loaded .now).written ∧ (st.loaded .now).written ≤ st.counts.written
  now_read : st.pc = .iocnt .now →
    (st.loaded .last).read ≤ (st.loaded .now).read ∧ (st.loaded .now).read ≤ st.counts.read

theorem Counts.Le.trans {c d e : Counts} (first : c.Le d) (second : d.Le e) : c.Le e :=
  ⟨first.1.trans second.1, first.2.1.trans second.2.1, first.2.2.trans second.2.2⟩

theorem sampled_start : Sampled System.start where
  sums := Counts.le_rfl _
  last := Counts.le_rfl _
  first _ := rfl
  now_written at_now := by rcases at_now with at_now | at_now <;> cases at_now
  now_read at_now := by cases at_now

/-- The collector is where it was, and the counters have grown. -/
theorem sampled_grow (sampled : Sampled st) (more : st.counts.Le st'.counts) (pc : st'.pc = st.pc)
    (loaded : st'.loaded = st.loaded) (samples : st'.samples = st.samples) : Sampled st' := by
  refine ⟨?_, ?_, ?_, ?_, ?_⟩
  · rw [samples, loaded]
    exact sampled.sums
  · rw [loaded]
    exact sampled.last.trans more
  · rw [pc, samples]
    exact sampled.first
  · rw [pc, loaded]
    intro at_now
    exact ⟨(sampled.now_written at_now).1, (sampled.now_written at_now).2.trans more.1⟩
  · rw [pc, loaded]
    intro at_now
    exact ⟨(sampled.now_read at_now).1, (sampled.now_read at_now).2.trans more.2.1⟩

/-- A round of the loop adds what was counted in it. -/
theorem emplace_sums {s : Samples} {last now : Counts} (sums : s.sums.Le last) (later : last.Le now)
    (small : now.written < 2 ^ 64 ∧ now.read < 2 ^ 64 ∧ now.iocnt < 2 ^ 64) : (s.emplace last now).sums.Le now := by
  obtain ⟨written, read, iocnt⟩ := sums
  simp only [Samples.sums] at written read iocnt
  have counted := later
  simp only [Counts.Le, Samples.sums, Samples.emplace, List.sum_append, List.sum_singleton,
    u64_sub_small small.1 later.1, u64_sub_small small.2.1 later.2.1, u64_sub_small small.2.2 later.2.2]
  unfold Counts.Le at counted
  omega

/-- A load into `last_*`, before there are samples. -/
theorem sampled_last (none : st.samples.sums = ⟨0, 0, 0⟩) {c : Counts} (le : c.Le st.counts)
    {pc : CollectorPc} (early : pc ≠ .read .now ∧ pc ≠ .iocnt .now) : Sampled (st.store .last c pc) := by
  refine ⟨?_, ?_, fun _ => none, fun at_now => ?_, fun at_now => absurd at_now early.2⟩
  · simp only [System.store, Function.update_self, none]
    exact ⟨Nat.zero_le _, Nat.zero_le _, Nat.zero_le _⟩
  · simp only [System.store, Function.update_self]
    exact le
  · rcases at_now with at_now | at_now
    · exact absurd at_now early.1
    · exact absurd at_now early.2

/-- A load into `all_*`. -/
theorem sampled_all (sampled : Sampled st) (c : Counts) {pc : CollectorPc} (late : 0 < pc.totals) :
    Sampled (st.store .all c pc) := by
  refine ⟨?_, ?_, fun at_first => ?_, fun at_now => ?_, fun at_now => ?_⟩
  · simpa [System.store] using sampled.sums
  · simpa [System.store] using sampled.last
  · simp only [System.store] at at_first
    rcases at_first with rfl | rfl | rfl <;> cases late
  · simp only [System.store] at at_now
    rcases at_now with rfl | rfl <;> cases late
  · simp only [System.store] at at_now
    subst at_now
    cases late

theorem sampled_collector (sampled : Sampled st)
    (small : st.counts.written < 2 ^ 64 ∧ st.counts.read < 2 ^ 64 ∧ st.counts.iocnt < 2 ^ 64)
    (next : collector_run st = some st') : Sampled st' := by
  have last := sampled.last
  simp only [collector_run] at next
  cases pc : st.pc with
  | written l =>
    simp only [pc, Option.some.injEq] at next
    subst next
    cases l with
    | last =>
      refine sampled_last (sampled.first (.inl pc)) ?_ (by simp)
      exact ⟨Nat.le_refl _, last.2⟩
    | now =>
      refine ⟨?_, ?_, ?_, ?_, ?_⟩
      · simpa [System.store] using sampled.sums
      · simpa [System.store] using last
      · simp [System.store]
      · simpa [System.store] using last.1
      · simp [System.store]
    | all => exact sampled_all sampled _ (by decide)
  | read l =>
    simp only [pc, Option.some.injEq] at next
    subst next
    cases l with
    | last =>
      refine sampled_last (sampled.first (.inr (.inl pc))) ?_ (by simp)
      exact ⟨last.1, Nat.le_refl _, last.2.2⟩
    | now =>
      refine ⟨?_, ?_, ?_, ?_, ?_⟩
      · simpa [System.store] using sampled.sums
      · simpa [System.store] using last
      · simp [System.store]
      · simpa [System.store] using sampled.now_written (.inl pc)
      · simpa [System.store] using last.2.1
    | all => exact sampled_all sampled _ (by decide)
  | iocnt l =>
    cases l with
    | last =>
      simp only [pc, Option.some.injEq] at next
      subst next
      refine sampled_last (sampled.first (.inr (.inr pc))) ?_ (by simp)
      exact ⟨last.1, last.2.1, Nat.le_refl _⟩
    | now =>
      simp only [pc, Option.some.injEq] at next
      subst next
      have written := sampled.now_written (.inr pc)
      have read := sampled.now_read pc
      refine ⟨?_, ?_, ?_, ?_, ?_⟩
      · simp only [System.store, Function.update_self]
        exact emplace_sums sampled.sums ⟨written.1, read.1, last.2.2⟩
          ⟨by simp only; omega, by simp only; omega, small.2.2⟩
      · simp only [System.store, Function.update_self]
        exact ⟨written.2, read.2, Nat.le_refl _⟩
      · simp [System.store]
      · simp [System.store]
      · simp [System.store]
    | all =>
      simp only [pc, Option.some.injEq] at next
      subst next
      exact sampled_all sampled _ (by decide)
  | test =>
    simp only [pc, Option.some.injEq] at next
    subst next
    refine ⟨sampled.sums, last, ?_, ?_, ?_⟩
    · cases st.Collector_endflag <;> simp
    · simp
    · simp
  | ended => simp [pc] at next

/-- The samples of the bandwidth are those of the reads and the writes together. -/
structure Banded (s : Samples) : Prop where
  lengths : s.WBand_persec.length = s.RBand_persec.length
  band : s.Band_persec = List.zipWith (fun w r => u64 (w + r)) s.WBand_persec s.RBand_persec

theorem banded_emplace {s : Samples} (banded : Banded s) (last now : Counts) : Banded (s.emplace last now) where
  lengths := by simp [Samples.emplace, banded.lengths]
  band := by
    have one : u64_sub (u64_sub (u64 (now.written + now.read)) last.written) last.read =
        u64 (u64_sub now.written last.written + u64_sub now.read last.read) := by
      unfold u64_sub u64
      omega
    simp only [Samples.emplace, List.zipWith_append banded.lengths, banded.band, one, List.zipWith_cons_cons,
      List.zipWith_nil_left]

theorem banded_step (banded : Banded st.samples) {a : Agent} (next : step g t W a st = some st') : Banded st'.samples := by
  cases a with
  | worker thread_id =>
    obtain ⟨_, _, _, same⟩ := worker_frame next
    rwa [same]
  | collector =>
    simp only [step, collector_run] at next
    split at next <;> cases next
    all_goals first | exact banded | exact banded_emplace banded _ _
  | main =>
    obtain ⟨_, _, rfl⟩ := main_step next
    exact banded

/-! ### Runs -/

/-- The totals are those of the records that were to be replayed, divided as the
    issued requests are. The samples are below them when the counters can hold
    the trace. -/
structure Accounted (t : Trace) (W : Nat) (st : System) : Prop where
  requests : (st.loaded .all).iocnt = u64 (W * count t W)
  data : u64 ((st.loaded .all).read + (st.loaded .all).written) = u64 (data t (W * count t W))
  written : (st.loaded .all).written = u64 (bytes true st.replay.issued)
  read : (st.loaded .all).read = u64 (bytes false st.replay.issued)
  banded : Banded st.samples
  sampled : Accounting.data t t.len_l.length < 2 ^ 64 → t.len_l.length < 2 ^ 64 → st.samples.sums.Le (st.loaded .all)

/-- What every reachable state has. -/
structure Inv (t : Trace) (W : Nat) (st : System) : Prop where
  tally : ∃ exact, Tally t W st exact
  closed : Closed t W st
  banded : Banded st.samples
  sampled : data t t.len_l.length < 2 ^ 64 → t.len_l.length < 2 ^ 64 → Sampled st

theorem inv_start : Inv t W System.start := ⟨⟨_, tally_start⟩, closed_start, ⟨rfl, rfl⟩, fun _ _ => sampled_start⟩

theorem inv_step (inv : Inv t W st) {a : Agent} (next : step g t W a st = some st') : Inv t W st' := by
  obtain ⟨⟨exact, tally⟩, closed, banded, sampled⟩ := inv
  obtain ⟨exact', more, tally'⟩ := tally_step tally next
  refine ⟨⟨exact', tally'⟩, closed_step tally closed next, banded_step banded next, fun bytes_fit fit => ?_⟩
  have before := tally_le tally
  have after := tally_le tally'
  have counts : st.counts = exact := by
    rw [tally.counts, u64_small (by omega), u64_small (by omega), u64_small (by omega)]
  have counts' : st'.counts = exact' := by
    rw [tally'.counts, u64_small (by omega), u64_small (by omega), u64_small (by omega)]
  have sampled := sampled bytes_fit fit
  cases a with
  | worker thread_id =>
    have grows : st.counts.Le st'.counts := by rwa [counts, counts']
    obtain ⟨_, pc, loaded, samples⟩ := worker_frame next
    exact sampled_grow sampled grows pc loaded samples
  | collector =>
    refine sampled_collector sampled ?_ next
    rw [counts]
    omega
  | main =>
    obtain ⟨_, _, rfl⟩ := main_step next
    exact sampled_grow sampled (Counts.le_rfl _) rfl rfl rfl

variable {ok : System → Agent → Prop}

theorem inv_reachable (reachable : Reachable (step g t W) ok System.start st) : Inv t W st :=
  reachable.invariant inv_start fun inv _ next => inv_step inv next

theorem accounted_of_ended (inv : Inv t W st) (ended : st.pc = .ended) : Accounted t W st := by
  obtain ⟨⟨exact, tally⟩, closed, banded, sampled⟩ := inv
  have late : 3 ≤ st.pc.totals := by rw [ended]; decide
  obtain ⟨requests, written, read, both⟩ := tally_ended tally (closed.flag (closed.closing (.inr (by omega))))
  have all_written := closed.written (by omega)
  have all_read := closed.read (by omega)
  have all_iocnt := closed.iocnt late
  simp only [tally.counts] at all_written all_read all_iocnt
  refine ⟨?_, ?_, ?_, ?_, banded, fun bytes_fit fit => ?_⟩
  · rw [all_iocnt, requests]
  · rw [all_written, all_read, u64_add, Nat.add_comm, u64_add, both]
  · rw [all_written, written]
  · rw [all_read, read]
  · have sampled := sampled bytes_fit fit
    have sums := sampled.sums.trans sampled.last
    rw [tally.counts] at sums
    exact ⟨all_written ▸ sums.1, all_read ▸ sums.2.1, all_iocnt ▸ sums.2.2⟩

/-! ### Fair schedules -/

/-- The workers that `main` starts, the collector and `main`. -/
def Runs (W : Nat) : Agent → Prop
  | .worker thread_id => thread_id < W
  | _ => True

def Phase.left : Phase → Nat
  | .request => 0
  | .data _ _ => 2
  | .count => 1

/-- How many steps a worker is from its end. -/
def left (t : Trace) (W : Nat) (st : System) (u : Nat) : Nat :=
  6 * (count t W - (st.replay.workers u).io) + (st.phases u).left - (st.replay.workers u).pc.taken

/-- A step of a worker is one step less for it, and none for the others. -/
theorem worker_left (tally : Tally t W st exact) (next : worker_run g t W thread_id st = some st') :
    thread_id < W ∧ left t W st' thread_id < left t W st thread_id ∧
      ∀ u, u ≠ thread_id → st'.replay.workers u = st.replay.workers u ∧ st'.phases u = st.phases u := by
  have begun := tally.counted.rounds thread_id
  simp only [worker_run] at next
  cases phase : st.phases thread_id with
  | request =>
    simp only [phase, Option.map_eq_some_iff] at next
    obtain ⟨replay, next, rfl⟩ := next
    obtain ⟨lt, cases⟩ := TraceReplay.step_cases next
    refine ⟨lt, ?_⟩
    rcases cases with ⟨pc, more, rfl⟩ | ⟨off, pc, rfl⟩ | ⟨off, len, pc, rfl⟩ | ⟨off, len, iodir, pc, rfl⟩
    all_goals
      refine ⟨?_, fun u other => ⟨Function.update_of_ne other .., Function.update_of_ne other ..⟩⟩
      simp only [Worker.advanced, pc, Pc.taken] at begun
      simp only [left, Function.update_self, phase, pc, next_phase, Phase.left, Pc.taken]
      omega
  | data iodir length =>
    simp only [phase, Option.some.injEq] at next
    subst next
    obtain ⟨lt, pc⟩ := tally.own thread_id (by simp [phase])
    refine ⟨lt, ?_, fun u other => ⟨rfl, Function.update_of_ne other ..⟩⟩
    simp only [left, Function.update_self, phase, pc, Phase.left, Pc.taken]
    omega
  | count =>
    simp only [phase, Option.some.injEq] at next
    subst next
    obtain ⟨lt, pc⟩ := tally.own thread_id (by simp [phase])
    refine ⟨lt, ?_, fun u other => ⟨rfl, Function.update_of_ne other ..⟩⟩
    simp only [left, Function.update_self, phase, pc, Phase.left, Pc.taken]
    omega

/-- A worker that has not returned has a step. -/
theorem worker_step_exists (tally : Tally t W st exact) (lt : thread_id < W) (todo : ¬ Ended t W st thread_id) :
    (worker_run g t W thread_id st).isSome := by
  cases phase : st.phases thread_id with
  | request =>
    have more : ¬ TraceReplay.Done t W st.replay thread_id := fun done => todo ⟨done, phase⟩
    simpa only [worker_run, phase, Option.isSome_map] using step_exists tally.counted lt more
  | data iodir length => simp [worker_run, phase]
  | count => simp [worker_run, phase]

/-- How far `collector_run` is from its end, when the flag is set. -/
def CollectorPc.rank : CollectorPc → Nat
  | .written .all => 3
  | .read .all => 2
  | .iocnt .all => 1
  | .ended => 0
  | .test => 4
  | .iocnt _ => 5
  | .read _ => 6
  | .written _ => 7

theorem collector_turn (set : st.Collector_endflag = true) (more : st.pc ≠ .ended) :
    ∃ st', collector_run st = some st' ∧ st'.pc.rank < st.pc.rank := by
  cases pc : st.pc with
  | written l => cases l <;> exact ⟨_, by rw [collector_run, pc], by simp [System.store, CollectorPc.rank]⟩
  | read l => cases l <;> exact ⟨_, by rw [collector_run, pc], by simp [System.store, CollectorPc.rank]⟩
  | iocnt l => cases l <;> exact ⟨_, by rw [collector_run, pc], by simp [System.store, CollectorPc.rank]⟩
  | test => exact ⟨_, by rw [collector_run, pc], by simp [set, CollectorPc.rank]⟩
  | ended => exact absurd pc more

theorem step_pc {a : Agent} (other : a ≠ .collector) (next : step g t W a st = some st') : st'.pc = st.pc := by
  cases a with
  | worker thread_id => exact (worker_frame next).2.1
  | collector => exact absurd rfl other
  | main =>
    obtain ⟨_, _, rfl⟩ := main_step next
    rfl

theorem step_flag {a : Agent} (set : st.Collector_endflag = true) (next : step g t W a st = some st') :
    st'.Collector_endflag = true := by
  cases a with
  | worker thread_id => exact (worker_frame next).1.trans set
  | collector => exact (collector_frame next).2.2.2.trans set
  | main =>
    obtain ⟨_, _, rfl⟩ := main_step next
    rfl

variable (g t W) in
/-- The state after the first turns of a schedule. -/
def after (schedule : Nat → Agent) (n : Nat) : System := follow (step g t W) schedule System.start n

variable {schedule : Nat → Agent}

variable (g t W schedule) in
theorem after_inv (n : Nat) : Inv t W (after g t W schedule n) := inv_reachable (follow_reachable n)

variable (g t W schedule) in
theorem after_succ (n : Nat) : after g t W schedule (n + 1) = after g t W schedule n ∨
    step g t W (schedule n) (after g t W schedule n) = some (after g t W schedule (n + 1)) := follow_succ ..

/-- The turns of the others leave a worker where it is. -/
theorem after_frame {n u : Nat} (other : schedule n ≠ .worker u) :
    (after g t W schedule (n + 1)).replay.workers u = (after g t W schedule n).replay.workers u ∧
      (after g t W schedule (n + 1)).phases u = (after g t W schedule n).phases u := by
  rcases after_succ g t W schedule n with same | next
  · rw [same]
    exact ⟨rfl, rfl⟩
  · cases a : schedule n with
    | worker thread_id =>
      obtain ⟨exact, tally⟩ := (after_inv g t W schedule n).tally
      rw [a] at next other
      exact (worker_left tally next).2.2 u fun same => other (congrArg Agent.worker same.symm)
    | collector =>
      rw [a] at next
      obtain ⟨replay, phases, _⟩ := collector_frame next
      rw [replay, phases]
      exact ⟨rfl, rfl⟩
    | main =>
      rw [a] at next
      obtain ⟨_, _, same⟩ := main_step next
      rw [same]
      exact ⟨rfl, rfl⟩

theorem after_left (n : Nat) : ∑ u ∈ Finset.range W, left t W (after g t W schedule (n + 1)) u ≤
      ∑ u ∈ Finset.range W, left t W (after g t W schedule n) u := by
  refine Finset.sum_le_sum fun u _ => ?_
  by_cases own : schedule n = .worker u
  · rcases after_succ g t W schedule n with same | next
    · rw [same]
    · obtain ⟨exact, tally⟩ := (after_inv g t W schedule n).tally
      rw [own] at next
      exact Nat.le_of_lt (worker_left tally next).2.1
  · obtain ⟨workers, phases⟩ := after_frame (g := g) (t := t) (W := W) own
    rw [left, left, workers, phases]

/-- All workers return: each that has not has another turn. -/
theorem workers_return (fair : Fair (Runs W) schedule) : ∃ n, ∀ u < W, Ended t W (after g t W schedule n) u := by
  obtain ⟨N, rest⟩ := exists_constant
    (f := fun n => ∑ u ∈ Finset.range W, left t W (after g t W schedule n) u) after_left
  refine ⟨N, fun u lt => ?_⟩
  by_contra todo
  obtain ⟨m, low, own, workers, phases⟩ := fair.turn_of (a := .worker u) lt
    (Q := fun k => (after g t W schedule k).replay.workers u = (after g t W schedule N).replay.workers u ∧
      (after g t W schedule k).phases u = (after g t W schedule N).phases u)
    (fun k _ other before => ⟨(after_frame other).1.trans before.1, (after_frame other).2.trans before.2⟩) ⟨rfl, rfl⟩
  obtain ⟨exact, tally⟩ := (after_inv g t W schedule m).tally
  have todo_there : ¬ Ended t W (after g t W schedule m) u := by
    rwa [Ended, TraceReplay.Done, workers, phases]
  obtain ⟨st', next⟩ := Option.isSome_iff_exists.mp (worker_step_exists (g := g) tally lt todo_there)
  have there : after g t W schedule (m + 1) = st' := follow_next (by rw [own]; exact next)
  have less : ∑ u ∈ Finset.range W, left t W (after g t W schedule (m + 1)) u <
      ∑ u ∈ Finset.range W, left t W (after g t W schedule m) u := by
    refine Finset.sum_lt_sum (fun v _ => ?_) ⟨u, Finset.mem_range.mpr lt, ?_⟩
    · by_cases same : v = u
      · rw [same, there]
        exact Nat.le_of_lt (worker_left tally next).2.1
      · obtain ⟨workers, phases⟩ := (worker_left tally next).2.2 v same
        rw [there, left, left, workers, phases]
    · rw [there]
      exact (worker_left tally next).2.1
  have before := rest m low
  have later := rest (m + 1) (by omega)
  omega

theorem flag_stays {n m : Nat} (later : n ≤ m) (set : (after g t W schedule n).Collector_endflag = true) :
    (after g t W schedule m).Collector_endflag = true := by
  induction m, later using Nat.le_induction with
  | base => exact set
  | succ m _ ih =>
    rcases after_succ g t W schedule m with same | next
    · rwa [same]
    · exact step_flag ih next

/-- Workers that have returned have no turn to take. -/
theorem ended_stay {n m : Nat} (later : n ≤ m) (ended : ∀ u < W, Ended t W (after g t W schedule n) u) :
    ∀ u < W, Ended t W (after g t W schedule m) u := by
  induction m, later using Nat.le_induction with
  | base => exact ended
  | succ m _ ih =>
    intro u lt
    have frame : (after g t W schedule (m + 1)).replay.workers u = (after g t W schedule m).replay.workers u ∧
        (after g t W schedule (m + 1)).phases u = (after g t W schedule m).phases u := by
      by_cases own : schedule m = .worker u
      · rcases after_succ g t W schedule m with same | next
        · rw [same]
          exact ⟨rfl, rfl⟩
        · obtain ⟨exact, tally⟩ := (after_inv g t W schedule m).tally
          rw [own, step, ended_step tally ih] at next
          cases next
      · exact after_frame own
    rw [Ended, TraceReplay.Done, frame.1, frame.2]
    exact ih u lt

/-- After the workers, `main` sets the flag. -/
theorem flag_set (fair : Fair (Runs W) schedule) : ∃ n, (after g t W schedule n).Collector_endflag = true := by
  obtain ⟨n, ended⟩ := workers_return (g := g) (t := t) fair
  obtain ⟨m, low, own⟩ := fair .main trivial n
  cases set : (after g t W schedule m).Collector_endflag with
  | true => exact ⟨m, set⟩
  | false =>
    have next : step g t W .main (after g t W schedule m) = some _ := if_pos ⟨set, ended_stay low ended⟩
    exact ⟨m + 1, by rw [after, follow_next (by rw [own]; exact next)]⟩

/-- From then on every turn of the collector is nearer to its end. -/
theorem collector_ends (fair : Fair (Runs W) schedule) {N : Nat}
    (set : (after g t W schedule N).Collector_endflag = true) (r : Nat) {n : Nat} (late : N ≤ n)
    (near : (after g t W schedule n).pc.rank = r) : ∃ m, (after g t W schedule m).pc = .ended := by
  induction r using Nat.strongRecOn generalizing n with
  | ind r ih =>
    by_cases more : (after g t W schedule n).pc = .ended
    · exact ⟨n, more⟩
    · obtain ⟨m, low, own, same⟩ := fair.turn_of (a := .collector) trivial
        (Q := fun k => (after g t W schedule k).pc = (after g t W schedule n).pc) (fun k _ other before => by
          rcases after_succ g t W schedule k with same | next
          · rw [same, before]
          · rw [step_pc other next, before]) rfl
      obtain ⟨st', next, nearer⟩ := collector_turn (flag_stays (Nat.le_trans late low) set) (same ▸ more)
      have there : after g t W schedule (m + 1) = st' := follow_next (by rw [own]; exact next)
      rw [same, near] at nearer
      exact ih st'.pc.rank nearer (by omega : N ≤ m + 1) (by rw [there])

/-- As long as the calls of `raid_write_direct` and `raid_read` return, which every
    step of a worker takes for granted, a fair schedule comes to the end. -/
theorem replay_ends (fair : Fair (Runs W) schedule) : ∃ n, (after g t W schedule n).pc = .ended := by
  obtain ⟨N, set⟩ := flag_set (g := g) (t := t) fair
  exact collector_ends fair set _ (Nat.le_refl N) rfl

/-- Whenever a replay has ended, in any order of steps, the totals are right. -/
theorem accounted (reachable : Reachable (step g t W) ok System.start st) (ended : st.pc = .ended) : Accounted t W st :=
  accounted_of_ended (inv_reachable reachable) ended

/-- Worker 0, worker 1, the collector and `main`, in turns. -/
def in_turns (n : Nat) : Agent :=
  if n % 4 = 0 then .worker 0 else if n % 4 = 1 then .worker 1 else if n % 4 = 2 then .collector else .main

theorem accounted_two_workers : ∃ st, Reachable (step defaultGeometry two_records 2) (fun _ _ => True) System.start st ∧
    st.pc = .ended ∧ Accounted two_records 2 st := by
  have fair : Fair (Runs 2) in_turns := by
    intro a runs n
    cases a with
    | worker thread_id =>
      simp only [Runs] at runs
      refine ⟨4 * n + thread_id, by omega, ?_⟩
      rcases (by omega : thread_id = 0 ∨ thread_id = 1) with rfl | rfl
      · rw [in_turns, if_pos (by omega)]
      · rw [in_turns, if_neg (by omega), if_pos (by omega)]
    | collector =>
      refine ⟨4 * n + 2, by omega, ?_⟩
      rw [in_turns, if_neg (by omega), if_neg (by omega), if_pos (by omega)]
    | main =>
      refine ⟨4 * n + 3, by omega, ?_⟩
      rw [in_turns, if_neg (by omega), if_neg (by omega), if_neg (by omega)]
  obtain ⟨n, ended⟩ := replay_ends (g := defaultGeometry) (t := two_records) fair
  exact ⟨_, follow_reachable n, ended, accounted (follow_reachable n) ended⟩

/-! ### Turns -/

/-- The replay of a run whose workers take their turns is one. -/
theorem replay_reachable (reachable : Reachable (step g t W) InTurn System.start st) :
    Reachable (TraceReplay.step t W) InOrder TraceReplay.System.start st.replay := by
  refine reachable.invariant (P := fun st => Reachable (TraceReplay.step t W) InOrder TraceReplay.System.start st.replay)
    .start ?_
  intro s s' a before meets next
  cases a with
  | worker thread_id =>
    simp only [step, worker_run] at next
    cases phase : s.phases thread_id with
    | request =>
      simp only [phase, Option.map_eq_some_iff] at next
      obtain ⟨replay, next, rfl⟩ := next
      exact .step before (meets phase) next
    | data iodir length =>
      simp only [phase, Option.some.injEq] at next
      subst next
      exact before
    | count =>
      simp only [phase, Option.some.injEq] at next
      subst next
      exact before
  | collector => rwa [(collector_frame next).1]
  | main =>
    obtain ⟨_, _, rfl⟩ := main_step next
    exact before

theorem bytes_perm {dir : Bool} {qs qs' : List Request} (perm : qs.Perm qs') : bytes dir qs = bytes dir qs' :=
  ((perm.filter _).map _).sum_eq

/-- In turns, what was read and what was written are those of the records. -/
theorem accounted_in_order (reachable : Reachable (step g t W) InTurn System.start st) (ended : st.pc = .ended) :
    (st.loaded .all).written = u64 (bytes true (t.records.take (W * count t W))) ∧
      (st.loaded .all).read = u64 (bytes false (t.records.take (W * count t W))) := by
  have inv := inv_reachable reachable
  have accounted := accounted_of_ended inv ended
  have late : 3 ≤ st.pc.totals := by rw [ended]; decide
  have returned := inv.closed.flag (inv.closed.closing (.inr (by omega)))
  have both : Counted t W st.replay ∧ Ordered t W st.replay :=
    (replay_reachable reachable).invariant (P := fun replay => Counted t W replay ∧ Ordered t W replay)
      ⟨counted_start, ordered_start⟩ fun both turn next => ⟨counted_step both.1 next, ordered_step both.2 turn next⟩
  have perm := (faithful_of_ordered both.1 both.2).complete fun u lt => (returned u lt).1
  rw [accounted.written, accounted.read, bytes_perm perm, bytes_perm perm]
  exact ⟨rfl, rfl⟩

instance (st : System) (a : Agent) : Decidable (InTurn st a) := by
  cases a <;> unfold InTurn <;> infer_instance

theorem accounted_in_order_two : ∃ st, Reachable (step defaultGeometry two_records 2) InTurn System.start st ∧
    st.pc = .ended ∧ (st.loaded .all).written = 1024 ∧ (st.loaded .all).read = 512 := by
  have result : (run (step defaultGeometry two_records 2) InTurn
      (List.replicate 4 .collector ++ List.replicate 6 (.worker 0) ++ List.replicate 3 .collector ++
        List.replicate 6 (.worker 1) ++ [.main] ++ List.replicate 4 .collector) System.start).map System.pc =
      some .ended := by decide +kernel
  obtain ⟨st, reached, ended⟩ := Option.map_eq_some_iff.mp result
  obtain ⟨written, read⟩ := accounted_in_order (run_reachable reached) ended
  exact ⟨st, run_reachable reached, ended, written.trans (by decide +kernel), read.trans (by decide +kernel)⟩

end Straid.Accounting
