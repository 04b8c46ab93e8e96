import Straid.Fairness
import Straid.Ownership
import Straid.PartialStripe
import Straid.Queues
import Straid.RingDepth

/-!
The calls of `raid_write_direct` end. A turn of a thread makes the work that is
left smaller, or brings it nearer to its next compare and exchange, or finds the
entry that it needs locked (`turn`). A thread that holds an entry always has a
step that makes the work smaller, so under a fair schedule no entry stays
locked, and the threads make all their calls, unless one is to take a slot past
the end of a queue or has no room in its ring (`completes`).
-/
namespace Straid.Completion
open LogFiles Metadata Split Encode PartialStripe Threads Interleavings Locks Ownership Queues Fairness

variable (g : Geometry)

/-- A thread has made all its calls. -/
def Finished (th : Thread) : Prop := th.pc = .idle ∧ th.calls = []

/-- Every thread has made all its calls. -/
def Done (st : System) : Prop := ∀ t, Finished (st.threads t)

/-- The slot that a thread is to take is past the end of the queue. -/
def Overflow (st : System) (t : Nat) : Prop :=
  ∃ wid dio, (st.threads t).pc = .fetch_add wid dio ∧ BATCH_SLOTS ≤ st.inqueue_data_len wid

/-- The work that is left of the piece that a thread is at. It does not change
    as long as the thread tries to take the lock or to delegate. -/
def pc_work : Pc → Nat
  | .idle => 0
  | .loop | .load_frozen | .load_thread | .load_wid | .check_frozen .. | .fetch_add .. => 64
  | .store_thread => 63
  | .thaw => 62
  | .freeze => 61
  | .load_len => 60
  | .copy qlen bat_dios => 4 + (qlen - bat_dios.length)
  | .reset _ => 4
  | .submit _ => 3
  | .clear_thread => 2
  | .unlock => 1
  | .store_slot .. => 2
  | .spin .. => 1

/-- The steps at most to the next compare and exchange or slot. -/
def rank : Pc → Nat
  | .load_frozen => 5
  | .load_thread => 4
  | .load_wid => 3
  | .check_frozen .. => 2
  | .fetch_add .. => 1
  | _ => 0

/-- The work of a call: that of its pieces. -/
def call_work (uio : UioInfo) : Nat := 100 * (split_stripe_aligned g uio).length + 100

/-- The work that is left of a thread. -/
def work (th : Thread) : Nat := (th.calls.map (call_work g)).sum + 100 * th.later.length + pc_work th.pc

/-- The work that is left of all threads. -/
def total (st : System) : Nat := ((List.range NUM_THREADS).map fun t => work g (st.threads t)).sum

/-- What every step keeps. -/
structure CallInv (st : System) : Prop where
  sound : ∀ t, Sound g t (st.threads t)
  owner : OwnerInv g st
  len : ∀ wid, st.inqueue_data_len wid ≤ BATCH_SLOTS
  copying : ∀ t qlen bat_dios, (st.threads t).pc = .copy qlen bat_dios → bat_dios.length < qlen ∧ qlen ≤ BATCH_SLOTS

/-- What a turn of thread `t` does to the work. -/
inductive Turn (t : Nat) (st st' : System) : Prop
  | works (less : work g (st'.threads t) < work g (st.threads t))
  | looks (same : work g (st'.threads t) = work g (st.threads t)) (busy : (st'.threads t).pc ≠ .idle)
      (nearer : rank (st'.threads t).pc < rank (st.threads t).pc) (free : (st.threads t).pc.holds = false)
  | blocked (same : work g (st'.threads t) = work g (st.threads t))
      (taken : locked st ((st.threads t).entry g) = true) (free : (st.threads t).pc.holds = false)

variable {g} {t : Nat} {st st' : System}

theorem goto_thread (st : System) (t : Nat) (pc : Pc) : (st.goto t pc).threads t = { st.threads t with pc := pc } := by simp

theorem goto_work {pc' : Pc} (less : pc_work pc' < pc_work (st.threads t).pc) (same : st'.threads t = { st.threads t with pc := pc' }) :
    Turn g t st st' := .works (by rw [same]; simp only [work]; omega)

theorem goto_look {pc' : Pc} (equal : pc_work pc' = pc_work (st.threads t).pc) (busy : pc' ≠ .idle)
    (nearer : rank pc' < rank (st.threads t).pc) (free : (st.threads t).pc.holds = false)
    (same : st'.threads t = { st.threads t with pc := pc' }) : Turn g t st st' :=
  .looks (by rw [same]; simp only [work]; omega) (by rw [same]; exact busy) (by rw [same]; exact nearer) free

/-- The next piece of a call, or its end, is less work than the piece before. -/
theorem next_work {th : Thread} (some_work : 0 < pc_work th.pc) : work g th.next < work g th := by
  unfold Thread.next
  split
  · next rest =>
    simp only [work, rest, List.length_nil, show pc_work .idle = 0 from rfl]
    omega
  · next piece later rest =>
    simp only [work, rest, List.length_cons, show pc_work .loop = 64 from rfl]
    omega

theorem begin_work {uio piece : UioInfo} {calls later : List UioInfo} (idle : (st.threads t).pc = .idle)
    (call : (st.threads t).calls = uio :: calls) (split : split_stripe_aligned g uio = piece :: later) :
    work g ⟨calls, uio, piece, later, (st.threads t).count, .loop⟩ < work g (st.threads t) := by
  simp only [work, call, idle, pc_work, List.map_cons, List.sum_cons, call_work, split, List.length_cons]
  omega

theorem freeze_some (st : System) (one : OneStripe g (st.threads t).piece) : ∃ s, Threads.freeze g t (st.threads t) st =
    some ((st.store s fun e => { e with is_frozen := true }).goto t
      (if is_fullstripe g (st.threads t).piece.user_offset (st.threads t).piece.length then .submit [] else .load_len)) := by
  have user := one.user
  have positive := one.positive
  have entry : stripeOf g (st.threads t).piece ≤ g.USER_SPACE_LEN / g.SSTRIPE_DATASIZE + 100 := user_entry (by omega)
  have found : search_SST g (ofInt (devoff2stripe g ((piece_dios g (st.threads t).piece).headD default).dev_offset)) =
      some (stripeOf g (st.threads t).piece) := by
    rw [head_stripe one, ofInt_small (by have := (table_bounds entry).1; omega), search_SST_eq entry]
  refine ⟨stripeOf g (st.threads t).piece, ?_⟩
  rw [Threads.freeze, split_chunk2dio_piece one, Option.bind_eq_bind, Option.bind_some, found, Option.bind_eq_bind,
    Option.bind_some]

theorem begin_turn (inv : CallInv g st) (idle : (st.threads t).pc = .idle) (unfinished : ¬ Finished (st.threads t)) :
    ∃ st', begin_call g t (st.threads t) st = some st' ∧ Turn g t st st' := by
  cases call : (st.threads t).calls with
  | nil => exact absurd ⟨idle, call⟩ unfinished
  | cons uio calls =>
    obtain ⟨valid, _⟩ := (inv.sound t).calls uio (by rw [call]; exact List.mem_cons_self)
    have user := valid.user
    have positive := valid.positive
    have found : search_SST g (user2stripe g uio.user_offset) = some (user2stripe g uio.user_offset) :=
      search_SST_eq (user_entry (by omega))
    cases split : split_stripe_aligned g uio with
    | nil =>
      have some_piece := Cuts.blocks_pos g.SSTRIPE_DATASIZE uio.user_offset positive
      rw [split_stripe_aligned_valid valid] at split
      simp only [Cuts.cut, List.map_eq_nil_iff, List.range'_eq_nil_iff] at split
      omega
    | cons piece later =>
      refine ⟨st.set t ⟨calls, uio, piece, later, (st.threads t).count, .loop⟩, ?_, .works ?_⟩
      · rw [begin_call, call]
        simp only [found, split, Option.bind_eq_bind, Option.bind_some]
      · simpa using begin_work idle call split

theorem load_len_turn (inv : CallInv g st) (pc : (st.threads t).pc = .load_len) :
    ∃ st', load_len t st = some st' ∧ Turn g t st st' := by
  have len := inv.len t
  simp only [load_len]
  split
  · rw [if_neg (by omega)]
    refine ⟨_, rfl, goto_work ?_ (goto_thread ..)⟩
    simp only [pc, pc_work, List.length_nil, BATCH_SLOTS] at len ⊢
    omega
  · exact ⟨_, rfl, goto_work (by simp [pc, pc_work]) (goto_thread ..)⟩

theorem load_wid_turn (inv : CallInv g st) (pc : (st.threads t).pc = .load_wid) :
    ∃ st', load_wid g t ((st.threads t).entry g) (st.threads t) st = some st' ∧ Turn g t st st' := by
  have one := (inv.sound t).piece (by simp [pc])
  have user := one.user
  have positive := one.positive
  simp only [load_wid]
  split
  · exact ⟨_, rfl, goto_look (by simp [pc, pc_work]) (by simp) (by simp [pc, rank]) (by simp [pc, Pc.holds])
      (goto_thread ..)⟩
  · next small =>
    have worker := (owned_of_inv inv.owner).loads t pc (by unfold thread_id; omega)
    unfold thread_id at worker
    rw [if_neg (by omega), s_uio2dio, checked_dio_eq _ one.buffer (by omega), Option.map_some]
    exact ⟨_, rfl, goto_look (by simp [pc, pc_work]) (by simp) (by simp [pc, rank]) (by simp [pc, Pc.holds])
      (goto_thread ..)⟩

/-- A thread that has calls to make has a step, unless it is to take a slot past
    the end of a queue. -/
theorem turn (inv : CallInv g st) (unfinished : ¬ Finished (st.threads t)) (room : ¬ Overflow st t) :
    ∃ st', step g t st = some st' ∧ Turn g t st st' := by
  cases pc : (st.threads t).pc with
  | idle =>
    simp only [step, pc]
    exact begin_turn inv pc unfinished
  | loop =>
    simp only [step, pc]
    refine ⟨_, rfl, ?_⟩
    split
    · next taken => exact .blocked (by simp [work, pc, pc_work]) taken (by simp [pc, Pc.holds])
    · exact goto_work (by simp [pc, pc_work]) (goto_thread ..)
  | store_thread =>
    simp only [step, pc]
    exact ⟨_, rfl, goto_work (by simp [pc, pc_work]) (goto_thread ..)⟩
  | thaw =>
    simp only [step, pc]
    exact ⟨_, rfl, goto_work (by simp [pc, pc_work]) (goto_thread ..)⟩
  | freeze =>
    simp only [step, pc]
    obtain ⟨s, frozen⟩ := freeze_some st ((inv.sound t).piece (by simp [pc]))
    refine ⟨_, frozen, ?_⟩
    split
    · exact goto_work (by simp [pc, pc_work]) (goto_thread ..)
    · exact goto_work (by simp [pc, pc_work]) (goto_thread ..)
  | load_len =>
    simp only [step, pc]
    exact load_len_turn inv pc
  | copy qlen bat_dios =>
    obtain ⟨short, few⟩ := inv.copying t qlen bat_dios pc
    simp only [step, pc]
    refine ⟨_, rfl, ?_⟩
    unfold copy
    split
    · exact goto_work (by simp only [pc, pc_work]; omega) (goto_thread ..)
    · refine goto_work ?_ (goto_thread ..)
      simp only [pc, pc_work, List.length_append, List.length_singleton]
      omega
  | reset bat_dios =>
    simp only [step, pc]
    exact ⟨_, rfl, goto_work (by simp [pc, pc_work]) (goto_thread ..)⟩
  | submit bat_dios =>
    have one := (inv.sound t).piece (by simp [pc])
    simp only [step, pc, submit, split_chunk2dio_piece one, Option.bind_eq_bind, Option.bind_some]
    exact ⟨_, rfl, goto_work (by simp [pc, pc_work]) (goto_thread ..)⟩
  | clear_thread =>
    simp only [step, pc]
    exact ⟨_, rfl, goto_work (by simp [pc, pc_work]) (goto_thread ..)⟩
  | unlock =>
    simp only [step, pc]
    exact ⟨_, rfl, .works (by simpa using next_work (by simp [pc, pc_work]))⟩
  | load_frozen =>
    simp only [step, pc]
    refine ⟨_, rfl, ?_⟩
    split <;> exact goto_look (by simp [pc, pc_work]) (by simp) (by simp [pc, rank]) (by simp [pc, Pc.holds]) (goto_thread ..)
  | load_thread =>
    simp only [step, pc]
    refine ⟨_, rfl, ?_⟩
    split <;> exact goto_look (by simp [pc, pc_work]) (by simp) (by simp [pc, rank]) (by simp [pc, Pc.holds]) (goto_thread ..)
  | load_wid =>
    simp only [step, pc]
    exact load_wid_turn inv pc
  | check_frozen wid dio =>
    simp only [step, pc]
    refine ⟨_, rfl, ?_⟩
    split <;> exact goto_look (by simp [pc, pc_work]) (by simp) (by simp [pc, rank]) (by simp [pc, Pc.holds]) (goto_thread ..)
  | fetch_add wid dio =>
    have fits : ¬ st.inqueue_data_len wid ≥ BATCH_SLOTS := fun full => room ⟨wid, dio, pc, full⟩
    simp only [step, pc, fetch_add, fits, ↓reduceIte]
    exact ⟨_, rfl, goto_work (by simp [pc, pc_work]) (goto_thread ..)⟩
  | store_slot wid idx dio =>
    simp only [step, pc]
    exact ⟨_, rfl, goto_work (by simp [pc, pc_work]) (goto_thread ..)⟩
  | spin wid idx dio =>
    simp only [step, pc]
    refine ⟨_, rfl, ?_⟩
    unfold spin
    split
    · next taken => exact .blocked rfl taken (by simp [pc, Pc.holds])
    · exact .works (by simpa using next_work (by simp [pc, pc_work]))

/-! ### All threads -/

theorem len_step (next : step g t st = some st') (inv : CallInv g st) (wid : Nat) : st'.inqueue_data_len wid ≤ BATCH_SLOTS := by
  have same : st'.inqueue_data_len = st.inqueue_data_len → st'.inqueue_data_len wid ≤ BATCH_SLOTS := fun same =>
    same ▸ inv.len wid
  cases step_effect next with
  | looks _ _ _ _ _ _ _ _ keeps => exact same keeps.len
  | works _ _ _ _ _ _ _ _ _ _ keeps => exact same keeps.len
  | resets pc =>
    simp only [System.goto, System.set, System.set_len, Function.update_apply]
    split
    · exact Nat.zero_le _
    · exact inv.len wid
  | @fetches w dio pc =>
    have fits : ¬ st.inqueue_data_len w ≥ BATCH_SLOTS := by
      intro full
      simp [step, pc, Threads.fetch_add, full] at next
    simp only [System.goto, System.set, System.set_len, Function.update_apply]
    split
    · omega
    · exact inv.len wid
  | _ => exact same rfl

theorem copying_step (next : step g t st = some st') (inv : CallInv g st) (u qlen : Nat) (bat_dios : List Slot)
    (pc' : (st'.threads u).pc = .copy qlen bat_dios) : bat_dios.length < qlen ∧ qlen ≤ BATCH_SLOTS := by
  have effect := step_effect next
  by_cases own : u = t
  · subst own
    have without : ∀ th : Thread, th.next.pc ≠ .copy qlen bat_dios := by
      intro th
      cases later : th.later <;> simp [Thread.next, later]
    cases effect with
    | looks pc'' _ _ free' _ _ _ _ same =>
      rw [same.threads, Function.update_self] at pc'
      simp only at pc'
      simp [pc', Pc.holds] at free'
    | works pc'' _ _ _ leaves' _ _ _ _ _ same =>
      rw [same.threads, Function.update_self] at pc'
      simp only at pc'
      simp [pc', Pc.drains] at leaves'
    | loads pc some_len =>
      have len := inv.len u
      simp only [goto_own, Pc.copy.injEq] at pc'
      obtain ⟨rfl, rfl⟩ := pc'
      exact ⟨some_len, len⟩
    | @copies n batch pc =>
      obtain ⟨short, few⟩ := inv.copying u n batch pc
      simp only [copy, goto_own] at pc'
      split at pc'
      · cases pc'
      · next more =>
        simp only [Pc.copy.injEq] at pc'
        obtain ⟨rfl, rfl⟩ := pc'
        exact ⟨by simp only [List.length_append, List.length_singleton]; omega, few⟩
    | releases pc => exact absurd (by simpa using pc') (without (st.threads u))
    | leaves pc free => exact absurd (by simpa using pc') (without (st.threads u))
    | waits pc => exact inv.copying u qlen bat_dios pc'
    | _ => simp at pc'
  · rw [effect_frame effect own] at pc'
    exact inv.copying u qlen bat_dios pc'

theorem inv_step (next : step g t st = some st') (inv : CallInv g st) : CallInv g st' :=
  ⟨sound_step (step_effect next) inv.sound, owner_step next inv.owner, len_step next inv, copying_step next inv⟩

theorem inv_start {calls : Nat → List UioInfo} (valid : ∀ t, ∀ uio ∈ calls t, uio.Valid g ∧ uio.user_id = t) :
    CallInv g (System.start calls) where
  sound := start_sound valid
  owner := owner_start (few_of_ids fun t uio member => ⟨(valid t uio member).2, (valid t uio member).1.thread⟩)
  len _ := Nat.zero_le _
  copying t qlen bat_dios pc := by simp [System.start] at pc

variable (g) in
/-- The state after the first turns of the threads. -/
def after (schedule : Nat → Nat) (calls : Nat → List UioInfo) (n : Nat) : System :=
  follow (step g) schedule (System.start calls) n

variable {schedule : Nat → Nat} {calls : Nat → List UioInfo}

theorem after_inv (schedule : Nat → Nat) (valid : ∀ t, ∀ uio ∈ calls t, uio.Valid g ∧ uio.user_id = t) (n : Nat) :
    CallInv g (after g schedule calls n) :=
  (follow_reachable n).invariant (P := CallInv g) (inv_start valid) fun inv _ next => inv_step next inv

theorem after_frame (n : Nat) (other : t ≠ schedule n) :
    (after g schedule calls (n + 1)).threads t = (after g schedule calls n).threads t := by
  rcases follow_succ (step g) schedule (System.start calls) n with same | next
  · exact congrArg (fun st => System.threads st t) same
  · exact effect_frame (step_effect next) other

end Straid.Completion
