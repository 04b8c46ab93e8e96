import Straid.Completion
import Straid.Linearization

/-!
Threads that write different stripes. In every interleaving none of them finds an
entry locked, so none delegates or waits, and each of its steps brings it nearer
to its end (`wait_free`). The requests may be of any length, over many stripes:
the stripes of a thread that has ended hold what its own calls leave, wherever the
others are, and no other byte of the user space changes, as long as no partial
stripe is past the largest `int` (`separate_writes`).
-/
namespace Straid.SeparateStripes
open LogFiles Metadata Split Encode EcEncoder StorageMod Cuts Overlays Runs SequentialWrites Threads Interleavings Locks
  Queues Completion Linearization
open Submissions (ParityWrite piece_inRow)

variable (g : Geometry)

/-- A request has bytes of a stripe. -/
def Touches (uio : UioInfo) (s : Nat) : Prop :=
  user2stripe g uio.user_offset ≤ s ∧ s ≤ user2stripe g (uio.user_offset + uio.length - 1)

instance (uio : UioInfo) (s : Nat) : Decidable (Touches g uio s) := inferInstanceAs (Decidable (_ ∧ _))

/-- No two threads have requests with bytes of one stripe. -/
def Separate (calls : Nat → List UioInfo) : Prop :=
  ∀ t u, t ≠ u → ∀ a ∈ calls t, ∀ b ∈ calls u, ∀ s, Touches g a s → ¬ Touches g b s

/-- Where a thread is that no other one disturbs. -/
def alone : Pc → Bool
  | .idle | .loop | .store_thread | .thaw | .freeze | .load_len | .submit [] | .clear_thread | .unlock => true
  | _ => false

/-- The pieces that a thread has not submitted. -/
def todo (th : Thread) : List UioInfo :=
  (if th.pc = .idle then [] else if settled th.pc then th.later else th.piece :: th.later) ++
    th.calls.flatMap (split_stripe_aligned g)

/-- A thread alone, at one of its calls. -/
structure Own (cs : List UioInfo) (th : Thread) : Prop where
  alone : alone th.pc = true
  calls : ∀ uio ∈ th.calls, uio ∈ cs
  uio : th.pc ≠ .idle → th.uio ∈ cs

/-- What holds between two steps. -/
structure SepInv (calls : Nat → List UioInfo) (st : System) : Prop where
  call : CallInv g st
  own : ∀ t, Own (calls t) (st.threads t)
  locks : ∀ s, locked st s = true → ∃ t, (st.threads t).pc.holds = true ∧ (st.threads t).entry g = s
  empty : ∀ t, st.inqueue_data_len t = 0

/-- Two places of a thread with a lock, one after the other and with no submission
    of writes between them. -/
structure Works (pc pc' : Pc) : Prop where
  held : pc.holds = true
  held' : pc'.holds = true
  alone : alone pc' = true
  still : settled pc' = settled pc
  less : pc_work pc' < pc_work pc
  silent : ∀ bat_dios, pc ≠ .submit bat_dios

/-- What a thread alone does. -/
inductive Goes (t : Nat) (st st' : System) : Prop
  | begins {uio : UioInfo} {calls : List UioInfo} {piece : UioInfo} {later : List UioInfo}
      (idle : (st.threads t).pc = .idle) (call : (st.threads t).calls = uio :: calls)
      (split : split_stripe_aligned g uio = piece :: later)
      (same : st' = st.set t ⟨calls, uio, piece, later, (st.threads t).count, .loop⟩)
  | takes (pc : (st.threads t).pc = .loop) (same : st' =
      (st.store ((st.threads t).entry g) fun e => { e with stripe_lock := true }).goto t .store_thread)
  | works (pc' : Pc) (works : Works (st.threads t).pc pc')
      (threads : st'.threads = Function.update st.threads t { st.threads t with pc := pc' }) (locks : locked st' = locked st)
      (len : st'.inqueue_data_len = st.inqueue_data_len)
  | submits (pc : (st.threads t).pc = .submit [])
      (threads : st'.threads = Function.update st.threads t { st.threads t with pc := .clear_thread })
      (locks : locked st' = locked st) (len : st'.inqueue_data_len = st.inqueue_data_len)
  | releases (pc : (st.threads t).pc = .unlock) (same : st' =
      ((st.store ((st.threads t).entry g) fun e => { e with stripe_lock := false }).record
        (.released t ((st.threads t).entry g))).set t (st.threads t).next)

variable {g} {t : Nat} {st st' : System} {calls : Nat → List UioInfo}

theorem Works.busy {pc pc' : Pc} (works : Works pc pc') : pc ≠ .idle := by
  rintro rfl
  cases works.held

theorem Works.busy' {pc pc' : Pc} (works : Works pc pc') : pc' ≠ .idle := by
  rintro rfl
  cases works.held'

/-- A step with the lock of the thread that stores something else than a lock. -/
theorem goes_store {pc' : Pc} (works : Works (st.threads t).pc pc') (s : Nat) {f : SSTEntry → SSTEntry}
    (keeps : ∀ e, (f e).stripe_lock = e.stripe_lock) : Goes g t st ((st.store s f).goto t pc') := by
  have locks : locked ((st.store s f).goto t pc') = locked st := by
    funext r
    by_cases same : r = s
    · simp [locked, same, keeps]
    · simp [locked, same]
  exact .works pc' works rfl locks rfl

theorem goes_of_step (own : alone (st.threads t).pc = true) (free : locked st ((st.threads t).entry g) = false ∨
    (st.threads t).pc ≠ .loop) (empty : st.inqueue_data_len t = 0) (next : step g t st = some st') : Goes g t st st' := by
  cases pc : (st.threads t).pc with
  | idle =>
    simp only [step, pc, begin_call] at next
    cases call : (st.threads t).calls with
    | nil => simp [call] at next
    | cons uio calls =>
      simp only [call, Option.bind_eq_bind, Option.bind_eq_some_iff] at next
      obtain ⟨_, _, next⟩ := next
      cases split : split_stripe_aligned g uio with
      | nil => simp [split] at next
      | cons piece later =>
        simp only [split, Option.some.injEq] at next
        exact .begins pc call split next.symm
  | loop =>
    have unlocked : (st.sst ((st.threads t).entry g)).stripe_lock = false := free.resolve_right fun busy => busy pc
    simp only [step, pc, unlocked, Bool.false_eq_true, ↓reduceIte, Option.some.injEq] at next
    exact .takes pc next.symm
  | store_thread =>
    simp only [step, pc, Option.some.injEq] at next
    subst next
    exact goes_store (pc ▸ ⟨rfl, rfl, rfl, rfl, by decide, by simp⟩) _ fun _ => rfl
  | thaw =>
    simp only [step, pc, Option.some.injEq] at next
    subst next
    exact goes_store (pc ▸ ⟨rfl, rfl, rfl, rfl, by decide, by simp⟩) _ fun _ => rfl
  | freeze =>
    simp only [step, pc, Threads.freeze, Option.bind_eq_bind, Option.bind_eq_some_iff, Option.some.injEq] at next
    obtain ⟨_, _, i, _, rfl⟩ := next
    split
    · exact goes_store (pc ▸ ⟨rfl, rfl, rfl, rfl, by decide, by simp⟩) _ fun _ => rfl
    · exact goes_store (pc ▸ ⟨rfl, rfl, rfl, rfl, by decide, by simp⟩) _ fun _ => rfl
  | load_len =>
    simp only [step, pc, load_len, empty, Nat.lt_irrefl, gt_iff_lt, ↓reduceIte, Option.some.injEq] at next
    subst next
    exact .works (.submit []) (pc ▸ ⟨rfl, rfl, rfl, rfl, by decide, by simp⟩) rfl rfl rfl
  | submit bat_dios =>
    cases bat_dios with
    | cons slot rest => simp [pc, alone] at own
    | nil =>
      simp only [step, pc, submit, Option.bind_eq_bind, Option.bind_eq_some_iff, Option.some.injEq] at next
      obtain ⟨_, _, rfl⟩ := next
      exact .submits pc rfl rfl rfl
  | clear_thread =>
    simp only [step, pc, Option.some.injEq] at next
    subst next
    exact goes_store (pc ▸ ⟨rfl, rfl, rfl, rfl, by decide, by simp⟩) _ fun _ => rfl
  | unlock =>
    simp only [step, pc, Option.some.injEq] at next
    exact .releases pc next.symm
  | copy | reset | load_frozen | load_thread | load_wid | check_frozen | fetch_add | store_slot | spin =>
    simp [pc, alone] at own

/-! ### What a step keeps -/

theorem goes_frame (goes : Goes g t st st') {u : Nat} (other : u ≠ t) : st'.threads u = st.threads u := by
  cases goes with
  | begins _ _ _ same => simp [same, other]
  | takes _ same => simp [same, other]
  | works _ _ threads => rw [threads, Function.update_of_ne other]
  | submits _ threads => rw [threads, Function.update_of_ne other]
  | releases _ same => simp [same, other]

theorem goes_len (goes : Goes g t st st') : st'.inqueue_data_len = st.inqueue_data_len := by
  cases goes with
  | begins _ _ _ same | takes _ same | releases _ same => rw [same]; rfl
  | works _ _ _ _ len | submits _ _ _ len => exact len

/-- A request touches the stripe of each of its bytes. -/
theorem touches_byte {uio : UioInfo} {x : Nat} (low : uio.user_offset ≤ x) (high : x < uio.user_offset + uio.length) :
    Touches g uio (user2stripe g x) := by
  simp only [Touches, user2stripe_eq]
  exact ⟨Nat.div_le_div_right low, Nat.div_le_div_right (by omega)⟩

theorem lock_free (valid : ∀ t, ∀ uio ∈ calls t, uio.Valid g ∧ uio.user_id = t) (separate : Separate g calls)
    (inv : SepInv g calls st) (pc : (st.threads t).pc = .loop) : locked st ((st.threads t).entry g) = false := by
  by_contra taken
  obtain ⟨u, held, same⟩ := inv.locks _ (Bool.not_eq_false _ ▸ taken)
  have other : t ≠ u := by
    rintro rfl
    rw [pc] at held
    cases held
  have busy : (st.threads u).pc ≠ .idle := fun idle => by cases idle ▸ held
  have here := (inv.own t).uio (by simp [pc])
  have there := (inv.own u).uio busy
  have first : ∀ {v : Nat} {uio : UioInfo}, uio ∈ calls v → Touches g uio (user2stripe g uio.user_offset) :=
    fun member => touches_byte le_rfl (Nat.lt_add_of_pos_right (valid _ _ member).1.positive)
  have shared : Touches g (st.threads u).uio ((st.threads u).entry g) := first there
  rw [same] at shared
  exact separate t u other _ here _ there _ (first here) shared

theorem set_own (st : System) (t : Nat) (th : Thread) : (st.set t th).threads t = th := by simp

theorem own_goes {cs : List UioInfo} (goes : Goes g t st st') (own : Own cs (st.threads t)) : Own cs (st'.threads t) := by
  cases goes with
  | @begins uio calls piece later idle call split same =>
    have known := own.calls
    rw [call] at known
    rw [same, set_own]
    exact ⟨rfl, fun uio member => known uio (List.mem_cons_of_mem _ member), fun _ => known uio List.mem_cons_self⟩
  | takes pc same =>
    rw [same]
    exact ⟨by simp [alone], by simpa using own.calls, fun _ => by simpa using own.uio (by simp [pc])⟩
  | works pc' works threads =>
    rw [threads, Function.update_self]
    exact ⟨works.alone, own.calls, fun _ => own.uio works.busy⟩
  | submits pc threads =>
    rw [threads, Function.update_self]
    exact ⟨rfl, own.calls, fun _ => own.uio (by simp [pc])⟩
  | releases pc same =>
    have uio := own.uio (by simp [pc])
    rw [same, set_own, Thread.next]
    split
    · exact ⟨rfl, own.calls, fun busy => absurd rfl busy⟩
    · exact ⟨rfl, own.calls, fun _ => uio⟩

theorem locks_goes (goes : Goes g t st st')
    (locks : ∀ s, locked st s = true → ∃ u, (st.threads u).pc.holds = true ∧ (st.threads u).entry g = s) (s : Nat)
    (taken : locked st' s = true) : ∃ u, (st'.threads u).pc.holds = true ∧ (st'.threads u).entry g = s := by
  have others : ∀ u, u ≠ t → (st.threads u).pc.holds = true → (st.threads u).entry g = s →
      ∃ u, (st'.threads u).pc.holds = true ∧ (st'.threads u).entry g = s :=
    fun u other held same => ⟨u, by rwa [goes_frame goes other], by rwa [goes_frame goes other]⟩
  -- The lock was held before, by a thread that holds it still or by another one.
  have before : locked st s = true → ((st.threads t).pc.holds = true → (st.threads t).entry g = s →
      (st'.threads t).pc.holds = true ∧ (st'.threads t).entry g = s) →
      ∃ u, (st'.threads u).pc.holds = true ∧ (st'.threads u).entry g = s := by
    intro taken keeps
    obtain ⟨u, held, same⟩ := locks s taken
    by_cases own : u = t
    · subst own
      exact ⟨u, keeps held same⟩
    · exact others u own held same
  cases goes with
  | begins idle _ _ same => exact before (by rw [same] at taken; exact taken) fun held => by cases idle ▸ held
  | takes pc same =>
    have after : locked st' = Function.update (locked st) ((st.threads t).entry g) true := by
      rw [same]
      exact locked_store ..
    by_cases own : (st.threads t).entry g = s
    · exact ⟨t, by simp [same, Pc.holds], by rw [← own, same]; simp [Thread.entry]⟩
    · rw [after, Function.update_of_ne (Ne.symm own)] at taken
      exact before taken fun held => by cases pc ▸ held
  | works pc' works threads eq =>
    refine before (eq ▸ taken) fun held same => ?_
    rw [threads, Function.update_self]
    exact ⟨works.held', same⟩
  | submits pc threads eq =>
    refine before (eq ▸ taken) fun held same => ?_
    rw [threads, Function.update_self]
    exact ⟨rfl, same⟩
  | releases pc same =>
    have after : locked st' = Function.update (locked st) ((st.threads t).entry g) false := by
      rw [same]
      exact locked_store ..
    have other : s ≠ (st.threads t).entry g := by
      rintro rfl
      rw [after, Function.update_self] at taken
      cases taken
    rw [after, Function.update_of_ne other] at taken
    exact before taken fun _ equal => absurd equal.symm other

/-- The pieces to do are the same after a step, but for the one that it submits. -/
theorem todo_goes (goes : Goes g t st st') : (∀ bat_dios, (st.threads t).pc ≠ .submit bat_dios) ∧
      todo g (st'.threads t) = todo g (st.threads t) ∨
    (st.threads t).pc = .submit [] ∧ todo g (st.threads t) = (st.threads t).piece :: todo g (st'.threads t) := by
  cases goes with
  | begins idle call split same =>
    refine .inl ⟨by simp [idle], ?_⟩
    rw [same, set_own]
    simp [todo, idle, call, split, settled]
  | takes pc same =>
    refine .inl ⟨by simp [pc], ?_⟩
    rw [same]
    simp [todo, pc, settled]
  | works pc' works threads =>
    refine .inl ⟨works.silent, ?_⟩
    rw [threads, Function.update_self]
    simp only [todo, if_neg works.busy, if_neg works.busy', works.still]
  | submits pc threads =>
    refine .inr ⟨pc, ?_⟩
    rw [threads, Function.update_self]
    simp [todo, pc, settled]
  | releases pc same =>
    refine .inl ⟨by simp [pc], ?_⟩
    rw [same, set_own, Thread.next]
    cases rest : (st.threads t).later with
    | nil => simp [todo, pc, settled, rest]
    | cons piece later => simp [todo, pc, settled, rest]

theorem inv_goes (next : step g t st = some st') (goes : Goes g t st st') (inv : SepInv g calls st) :
    SepInv g calls st' where
  call := Completion.inv_step next inv.call
  own u := by
    by_cases own : u = t
    · subst own
      exact own_goes goes (inv.own u)
    · rw [goes_frame goes own]
      exact inv.own u
  locks := locks_goes goes inv.locks
  empty u := by
    rw [goes_len goes]
    exact inv.empty u

theorem inv_step (valid : ∀ t, ∀ uio ∈ calls t, uio.Valid g ∧ uio.user_id = t) (separate : Separate g calls)
    (next : step g t st = some st') (inv : SepInv g calls st) : Goes g t st st' ∧ SepInv g calls st' := by
  have free : locked st ((st.threads t).entry g) = false ∨ (st.threads t).pc ≠ .loop := by
    by_cases pc : (st.threads t).pc = .loop
    · exact .inl (lock_free valid separate inv pc)
    · exact .inr pc
  have goes := goes_of_step (inv.own t).alone free (inv.empty t) next
  exact ⟨goes, inv_goes next goes inv⟩

theorem inv_start (valid : ∀ t, ∀ uio ∈ calls t, uio.Valid g ∧ uio.user_id = t) : SepInv g calls (System.start calls) where
  call := Completion.inv_start valid
  own t := ⟨rfl, fun _ member => member, fun busy => absurd rfl busy⟩
  locks s taken := by cases taken
  empty _ := rfl

/-! ### What is on the devices -/

variable {mem : Nat → Byte} {devs : Nat → Nat → Byte} {m m' : Machine} {turn : Turn g}

/-- The pieces that a thread has submitted. -/
def made (order : List (Nat × UioInfo)) (t : Nat) : List UioInfo := (order.filter (·.1 = t)).map Prod.snd

variable (g) in
/-- The user space is what the pieces submitted leave, in their order, and the
    pieces of each thread are those of its calls. -/
structure Stored (calls : Nat → List UioInfo) (mem : Nat → Byte) (devs : Nat → Nat → Byte) (m : Machine)
    (order : List (Nat × UioInfo)) : Prop where
  pieces : ∀ t, made order t ++ todo g (m.sys.threads t) = (calls t).flatMap (split_stripe_aligned g)
  bytes : flat g m.devs = last_written (flat g devs) (order.map fun w => ⟨w.2, mem⟩)

/-- What a part of a piece puts at the place of a user byte. -/
theorem pieceWrite_data {piece : UioInfo} (one : OneStripe g piece) {r : Nat × Nat}
    (member : r ∈ cut g.SCHUNK_SIZE piece.user_offset piece.length) {x : Nat}
    (covers : (pieceWrite g mem piece r).Covers (devOf g x) (devoffOf g x)) :
    (pieceWrite g mem piece r).data (devoffOf g x - (pieceWrite g mem piece r).off) =
      mem (piece.buf + (x - piece.user_offset)) := by
  obtain ⟨low, high⟩ := (pieceWrite_covers one member mem x).mp covers
  obtain ⟨_, first, _, chunk⟩ := cut_inside g.chunk_pos one.positive member
  have upto : x / g.SCHUNK_SIZE ≤ (r.1 + r.2 - 1) / g.SCHUNK_SIZE := Nat.div_le_div_right (by omega)
  have from_first : r.1 / g.SCHUNK_SIZE ≤ x / g.SCHUNK_SIZE := Nat.div_le_div_right low
  obtain ⟨_, offset⟩ := same_chunk (g := g) low (by omega)
  simp only [pieceWrite, shift, offset]
  congr 1
  omega

/-- The writes of a piece, in any order. -/
theorem writes_flat {piece : UioInfo} (one : OneStripe g piece) {dios : List DioInfo} (perm : dios.Perm (piece_dios g piece))
    {writes : List DeviceWrite} (prepared : data_writes g mem dios = some writes) (devs : Nat → Nat → Byte) :
    flat g (applyAll devs writes) = put (flat g devs) ⟨piece, mem⟩ := by
  have same : writes.Perm (piece_writes g mem piece) := by
    have known : ∀ dio ∈ dios, iouring_wprep g dio.dev_id (shift mem dio.buf) dio.dev_offset dio.length =
        some ⟨dio.dev_id.toNat, dio.dev_offset, dio.length, shift mem dio.buf⟩ := by
      intro dio member
      obtain ⟨r, _, rfl⟩ := List.mem_map.mp (perm.mem_iff.mp member)
      exact iouring_wprep_eq (devOf_lt _) _ _ _
    have all := mapM_some (h := fun dio => dio) known
    rw [List.map_id'] at all
    obtain rfl := Option.some.inj (prepared.symm.trans all)
    have ordered := perm.map fun dio => (⟨dio.dev_id.toNat, dio.dev_offset, dio.length, shift mem dio.buf⟩ : DeviceWrite)
    rw [piece_dios, List.map_map] at ordered
    exact ordered
  rw [← piece_writes_flat (c := ⟨piece, mem⟩) one]
  funext x
  refine applyAll_perm same (v := mem (piece.buf + (x - piece.user_offset))) (fun w member covers => ?_) devs
  obtain ⟨r, there, rfl⟩ := List.mem_map.mp member
  exact pieceWrite_data one there covers

/-- Writes to parity chunks change no user byte. -/
theorem parity_flat (parity : List (ParityWrite g)) (devs : Nat → Nat → Byte) :
    flat g (applyAll devs (parity.map ParityWrite.write)) = flat g devs := by
  refine flat_frame (fun w member x => ?_) devs
  obtain ⟨p, _, rfl⟩ := List.mem_map.mp member
  have inside := p.inside
  exact parity_apart p.one rfl (Nat.le_add_right ..) (by simp only [ParityWrite.write]; omega) x

theorem made_snoc (order : List (Nat × UioInfo)) (t : Nat) (piece : UioInfo) (u : Nat) :
    made (order ++ [(t, piece)]) u = if u = t then made order u ++ [piece] else made order u := by
  by_cases own : u = t
  · simp [made, own, List.filter_append]
  · simp [made, own, List.filter_append, Ne.symm own]

/-- The requests of a call are in its row. -/
theorem separate_kept (narrow : ∀ t, ∀ uio ∈ calls t, ∀ piece ∈ split_stripe_aligned g uio, Narrow g piece)
    {order : List (Nat × UioInfo)} (stored : Stored g calls mem devs m order) {t : Nat} {piece : UioInfo}
    (waits : piece ∈ todo g (m.sys.threads t)) (one : OneStripe g piece) {dios : List DioInfo}
    (perm : dios.Perm (piece_dios g piece)) : ParityKept g piece dios := by
  have all := List.mem_append_right (made order t) waits
  rw [stored.pieces] at all
  obtain ⟨uio, there, part⟩ := List.mem_flatMap.mp all
  exact (narrow t uio there piece part).imp_right fun row => ⟨row, fun dio member => piece_inRow one dio (perm.mem_iff.mp member)⟩

theorem stored_move (narrow : ∀ t, ∀ uio ∈ calls t, ∀ piece ∈ split_stripe_aligned g uio, Narrow g piece)
    {order : List (Nat × UioInfo)} (inv : SepInv g calls m.sys) (goes : Goes g turn.thread m.sys m'.sys)
    (next : move g mem turn m = some m') (stored : Stored g calls mem devs m order) :
    ∃ order', Stored g calls mem devs m' order' := by
  obtain ⟨_, cases⟩ := move_cases next
  rcases todo_goes goes with ⟨silent, same⟩ | ⟨pc, here⟩
  · rcases cases with ⟨_, left, _⟩ | ⟨bat_dios, _, _, pc, _⟩
    · refine ⟨order, fun u => ?_, left ▸ stored.bytes⟩
      rw [← stored.pieces u]
      by_cases own : u = turn.thread
      · rw [own, same]
      · rw [goes_frame goes own]
    · exact absurd pc (silent bat_dios)
  · rcases cases with ⟨silent, _⟩ | ⟨bat_dios, v_dios, writes, pc', split, perm, stray, prepared, left, _⟩
    · exact absurd pc (silent [])
    · obtain rfl : [] = bat_dios := Pc.submit.inj (pc.symm.trans pc')
      have one := (inv.call.sound turn.thread).piece (by simp [pc])
      rw [split_chunk2dio_piece one, Option.some.injEq] at split
      subst split
      have dios : (turn.landed.map Slot.dio).Perm (piece_dios g (m.sys.threads turn.thread).piece) := by
        have mapped := perm.map Slot.dio
        simpa [submission, Function.comp_def] using mapped
      have kept := separate_kept narrow stored (here ▸ List.mem_cons_self) one dios
      rw [stray.resolve_right (not_not_intro kept), List.append_nil] at left
      refine ⟨order ++ [(turn.thread, (m.sys.threads turn.thread).piece)], fun u => ?_, ?_⟩
      · rw [← stored.pieces u, made_snoc]
        by_cases own : u = turn.thread
        · rw [if_pos own, own, here, List.append_assoc]
          rfl
        · rw [if_neg own, goes_frame goes own]
      · rw [left, applyAll_append, parity_flat, writes_flat one dios prepared, stored.bytes, List.map_append]
        simp only [last_written, List.foldl_append, List.map_cons, List.map_nil, List.foldl_cons, List.foldl_nil]

theorem sep_reached (valid : ∀ t, ∀ uio ∈ calls t, uio.Valid g ∧ uio.user_id = t) (separate : Separate g calls)
    {ok : Machine → Turn g → Prop} (reachable : Reachable (move g mem) ok (Machine.start calls devs) m) :
    SepInv g calls m.sys :=
  reachable.invariant (P := fun m => SepInv g calls m.sys) (inv_start valid) fun inv _ next =>
    (inv_step valid separate (move_cases next).1 inv).2

theorem reached (valid : ∀ t, ∀ uio ∈ calls t, uio.Valid g ∧ uio.user_id = t) (separate : Separate g calls)
    (narrow : ∀ t, ∀ uio ∈ calls t, ∀ piece ∈ split_stripe_aligned g uio, Narrow g piece)
    {ok : Machine → Turn g → Prop} (reachable : Reachable (move g mem) ok (Machine.start calls devs) m) :
    SepInv g calls m.sys ∧ ∃ order, Stored g calls mem devs m order := by
  refine reachable.invariant (P := fun m => SepInv g calls m.sys ∧ ∃ order, Stored g calls mem devs m order)
    ⟨inv_start valid, [], fun t => ?_, rfl⟩ ?_
  · simp [made, todo, Machine.start, System.start]
  · rintro m m' turn ⟨inv, order, stored⟩ _ next
    obtain ⟨goes, inv'⟩ := inv_step valid separate (move_cases next).1 inv
    exact ⟨inv', stored_move narrow inv goes next stored⟩

/-! ### Steps of a thread -/

theorem work_goes (goes : Goes g t st st') : work g (st'.threads t) < work g (st.threads t) := by
  cases goes with
  | begins idle call split same =>
    rw [same, set_own]
    exact begin_work idle call split
  | takes pc same => simp [same, work, pc, pc_work]
  | works pc' works threads =>
    have less := works.less
    rw [threads, Function.update_self]
    simp only [work]
    omega
  | submits pc threads => simp [threads, work, pc, pc_work]
  | releases pc same =>
    rw [same, set_own]
    exact next_work (by simp [pc, pc_work])

/-- A thread with calls to make has a step in every state that the threads reach,
    whatever the others do, and each of its steps leaves it less to do. -/
theorem wait_free (valid : ∀ t, ∀ uio ∈ calls t, uio.Valid g ∧ uio.user_id = t) (separate : Separate g calls)
    {ok : Machine → Turn g → Prop} (reachable : Reachable (move g mem) ok (Machine.start calls devs) m)
    (unfinished : ¬ Finished (m.sys.threads t)) :
    ∃ st', step g t m.sys = some st' ∧ work g (st'.threads t) < work g (m.sys.threads t) := by
  have inv := sep_reached valid separate reachable
  have room : ¬ Overflow m.sys t := by
    rintro ⟨wid, dio, pc, _⟩
    have own := (inv.own t).alone
    simp [pc, alone] at own
  obtain ⟨st', next, _⟩ := Completion.turn inv.call unfinished room
  exact ⟨st', next, work_goes (inv_step valid separate next inv).1⟩

/-- A request over two stripes, and one in the next stripe. -/
def separate_calls : Nat → List UioInfo
  | 0 => [⟨0, true, 65536, 0, 458752 + 4096⟩]
  | 1 => [⟨1, true, 1048576, 2 * 458752, 4096⟩]
  | _ => []

theorem separate_calls_valid : ∀ t, ∀ uio ∈ separate_calls t, uio.Valid defaultGeometry ∧ uio.user_id = t
  | 0 => by decide
  | 1 => by decide
  | _ + 2 => by simp [separate_calls]

theorem separate_calls_narrow : ∀ t, ∀ uio ∈ separate_calls t, ∀ piece ∈ split_stripe_aligned defaultGeometry uio,
    Narrow defaultGeometry piece
  | 0 => by decide +kernel
  | 1 => by decide +kernel
  | _ + 2 => by simp [separate_calls]

theorem separate_calls_separate : Separate defaultGeometry separate_calls := by
  have first : ∀ a ∈ separate_calls 0, ∀ s, Touches defaultGeometry a s → s ≤ 1 := by
    intro a member s touches
    obtain rfl := List.mem_singleton.mp member
    exact touches.2.trans (by decide)
  have second : ∀ b ∈ separate_calls 1, ∀ s, Touches defaultGeometry b s → 2 ≤ s := by
    intro b member s touches
    obtain rfl := List.mem_singleton.mp member
    exact Nat.le_trans (by decide) touches.1
  intro t u other a own b own' s touches touches'
  rcases t with _ | _ | t
  · rcases u with _ | _ | u
    · exact other rfl
    · exact absurd (first a own s touches) (Nat.not_le.mpr (second b own' s touches'))
    · cases own'
  · rcases u with _ | _ | u
    · exact absurd (first b own' s touches') (Nat.not_le.mpr (second a own s touches))
    · exact other rfl
    · cases own'
  · cases own

/-- The first thread submits a stripe and stops, and the second one makes its
    call. -/
def separate_turns : List (Turn defaultGeometry) :=
  List.replicate 6 ⟨0, (List.range 7).map (fun i : Nat => ⟨⟨i, 65536 * (i + 1), 0, 65536, 0⟩, some (0, 0)⟩), [], []⟩ ++
    List.replicate 9 ⟨1, [⟨⟨2, 1048576, 131072, 4096, 0⟩, some (1, 0)⟩], [], []⟩

theorem separate_run : ∃ m, run (move defaultGeometry fun a => a) (fun _ _ => True) separate_turns
    (Machine.start separate_calls fun _ _ => 0) = some m ∧
    (m.sys.threads 0).pc = .clear_thread ∧ Finished (m.sys.threads 1) := by
  have result : (run (move defaultGeometry fun a => a) (fun _ _ => True) separate_turns
      (Machine.start separate_calls fun _ _ => 0)).map
        (fun m => ((m.sys.threads 0).pc, (m.sys.threads 1).pc, (m.sys.threads 1).calls)) =
      some (.clear_thread, .idle, []) := by decide +kernel
  obtain ⟨m, reached, ended⟩ := Option.map_eq_some_iff.mp result
  obtain ⟨first, second⟩ := Prod.mk.inj ended
  exact ⟨m, reached, first, Prod.mk.inj second⟩

theorem wait_free_two : ∃ m st', (m.sys.threads 0).pc = .clear_thread ∧ step defaultGeometry 0 (m : Machine).sys = some st' ∧
    work defaultGeometry (st'.threads 0) < work defaultGeometry (m.sys.threads 0) := by
  obtain ⟨m, reached, first, _⟩ := separate_run
  have unfinished : ¬ Finished (m.sys.threads 0) := by
    rintro ⟨idle, _⟩
    cases first.symm.trans idle
  obtain ⟨st', next, less⟩ := wait_free separate_calls_valid separate_calls_separate (run_reachable reached) unfinished
  exact ⟨m, st', first, next, less⟩

/-! ### The stripes of a thread -/

theorem last_written_filter {κ : Type*} (f : κ → Call) (p : κ → Prop) [DecidablePred p] (xs : List κ) {x : Nat}
    (apart : ∀ k ∈ xs, ¬ p k → x < (f k).uio.user_offset ∨ (f k).uio.user_offset + (f k).uio.length ≤ x)
    (F : Nat → Byte) : last_written F (xs.map f) x = last_written F ((xs.filter p).map f) x := by
  induction xs generalizing F with
  | nil => rfl
  | cons k xs ih =>
    have tail := ih fun k' member => apart k' (List.mem_cons_of_mem _ member)
    by_cases own : p k
    · rw [List.filter_cons_of_pos (by simpa using own)]
      exact tail (put F (f k))
    · rw [List.filter_cons_of_neg (by simpa using own), ← tail F]
      exact last_written_congr (overlay_outside (apart k List.mem_cons_self own)) _

/-- A piece that a thread has submitted is of one of its calls. -/
theorem made_inside (valid : ∀ t, ∀ uio ∈ calls t, uio.Valid g ∧ uio.user_id = t) {order : List (Nat × UioInfo)}
    (stored : Stored g calls mem devs m order) {w : Nat × UioInfo} (member : w ∈ order) :
    ∃ uio ∈ calls w.1, uio.user_offset ≤ w.2.user_offset ∧
      w.2.user_offset + w.2.length ≤ uio.user_offset + uio.length := by
  have own : w.2 ∈ made order w.1 :=
    List.mem_map_of_mem (List.mem_filter.mpr ⟨member, decide_eq_true rfl⟩)
  have all := List.mem_append_left (todo g (m.sys.threads w.1)) own
  rw [stored.pieces] at all
  obtain ⟨uio, there, piece⟩ := List.mem_flatMap.mp all
  have request := (valid _ uio there).1
  rw [split_stripe_aligned_valid request] at piece
  obtain ⟨r, part, same⟩ := List.mem_map.mp piece
  obtain ⟨_, low, high, _⟩ := cut_inside g.stripe_pos request.positive part
  exact ⟨uio, there, by rw [← same]; exact low, by rw [← same]; exact high⟩

/-- In every interleaving of threads on separate stripes, none of them a partial one
    past the largest `int`: the stripes of a thread that has made its calls hold what
    its calls leave when they are made one after another, and bytes on stripes that no
    call touches do not change. -/
theorem separate_writes (valid : ∀ t, ∀ uio ∈ calls t, uio.Valid g ∧ uio.user_id = t) (separate : Separate g calls)
    (narrow : ∀ t, ∀ uio ∈ calls t, ∀ piece ∈ split_stripe_aligned g uio, Narrow g piece)
    {ok : Machine → Turn g → Prop} (reachable : Reachable (move g mem) ok (Machine.start calls devs) m) :
    (∀ t, Finished (m.sys.threads t) → ∀ x < g.USER_SPACE_LEN, (∃ uio ∈ calls t, Touches g uio (user2stripe g x)) →
      user_byte g m.devs x = last_written (user_byte g devs) ((calls t).map fun uio => ⟨uio, mem⟩) x) ∧
    ∀ x < g.USER_SPACE_LEN, (∀ t, ∀ uio ∈ calls t, ¬ Touches g uio (user2stripe g x)) →
      user_byte g m.devs x = user_byte g devs x := by
  obtain ⟨_, order, stored⟩ := reached valid separate narrow reachable
  -- A piece that has the byte is of a call that touches its stripe.
  have touches : ∀ {x : Nat} {w : Nat × UioInfo}, w ∈ order →
      (∀ uio ∈ calls w.1, ¬ Touches g uio (user2stripe g x)) → x < w.2.user_offset ∨ w.2.user_offset + w.2.length ≤ x := by
    intro x w member apart
    obtain ⟨uio, there, low, high⟩ := made_inside valid stored member
    by_contra inside
    exact apart uio there (touches_byte (by omega) (by omega))
  refine ⟨fun t finished x user own => ?_, fun x user apart => ?_⟩
  · obtain ⟨mine, here, touched⟩ := own
    have all := stored.pieces t
    have done : todo g (m.sys.threads t) = [] := by simp [todo, finished.1, finished.2]
    rw [done, List.append_nil] at all
    have others := last_written_filter (fun w : Nat × UioInfo => (⟨w.2, mem⟩ : Call)) (·.1 = t) order (x := x)
      (fun w member other => touches member fun uio there =>
        separate t w.1 (Ne.symm other) mine here uio there _ touched) (flat g devs)
    have mine_only : (order.filter (·.1 = t)).map (fun w => (⟨w.2, mem⟩ : Call)) =
        pieces g ((calls t).map fun uio => ⟨uio, mem⟩) := by
      have mapped := congrArg (List.map fun piece => (⟨piece, mem⟩ : Call)) all
      rw [made, List.map_map] at mapped
      refine mapped.trans ?_
      simp only [pieces, call_pieces, List.flatMap_map, List.map_flatMap]
    have requests : ∀ c ∈ (calls t).map (fun uio => (⟨uio, mem⟩ : Call)), c.uio.Valid g := by
      intro c member
      obtain ⟨uio, there, rfl⟩ := List.mem_map.mp member
      exact (valid t uio there).1
    rw [user_byte_eq user, stored.bytes, others, mine_only, last_written_all requests]
    exact last_written_congr (user_byte_eq user devs).symm _
  · have none := last_written_filter (fun w : Nat × UioInfo => (⟨w.2, mem⟩ : Call)) (fun _ => False) order (x := x)
      (fun w member _ => touches member (apart w.1)) (flat g devs)
    rw [user_byte_eq user, stored.bytes, none, user_byte_eq user]
    simp [last_written]

theorem separate_writes_two : ∃ m, (m.sys.threads 0).pc = .clear_thread ∧
    user_byte defaultGeometry (m : Machine).devs (2 * 458752 + 5) = 5 := by
  obtain ⟨m, reached, first, finished⟩ := separate_run
  obtain ⟨bytes, _⟩ := separate_writes separate_calls_valid separate_calls_separate separate_calls_narrow (run_reachable reached)
  refine ⟨m, first, (bytes 1 finished _ (by decide) ⟨_, List.mem_singleton_self _, by decide⟩).trans (by decide +kernel)⟩

end Straid.SeparateStripes
