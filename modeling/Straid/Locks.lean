import Straid.Threads

/-!
The locks of the stripes over all orders of steps. An entry that a thread holds
is locked, and no two threads hold the same one (`locks_step`). The entry that a
thread locks is that of the offset of its request, so it is the entry of the
piece only for the pieces of the first stripe of a request: when every piece
that a thread enters `raid_write` with is one of these, the writes of a stripe
exclude each other (`exclusive_of_first`).
-/
namespace Straid.Locks
open LogFiles Metadata Split Threads Interleavings

variable (g : Geometry)

/-- Who holds which lock. -/
structure LockInv (st : System) : Prop where
  held : ∀ t, (st.threads t).pc.holds = true → locked st ((st.threads t).entry g) = true
  one : ∀ t u, (st.threads t).pc.holds = true → (st.threads u).pc.holds = true →
    (st.threads t).entry g = (st.threads u).entry g → t = u

/-- What a step of thread `t` does to the locks. -/
inductive LockEffect (t : Nat) (st st' : System) : Prop
  | keeps (same : (st'.threads t).pc.holds = (st.threads t).pc.holds)
      (entry : (st.threads t).pc.holds = true → (st'.threads t).entry g = (st.threads t).entry g)
      (locks : locked st' = locked st)
  | takes (free : (st.threads t).pc.holds = false) (entry : (st'.threads t).entry g = (st.threads t).entry g)
      (unlocked : locked st ((st.threads t).entry g) = false)
      (locks : locked st' = Function.update (locked st) ((st.threads t).entry g) true)
  | releases (held : (st.threads t).pc.holds = true) (free : (st'.threads t).pc.holds = false)
      (locks : locked st' = Function.update (locked st) ((st.threads t).entry g) false)

/-- Two threads in `raid_write` are at pieces of different stripes, and each
    holds the entry of the stripe of its piece. -/
structure Exclusive (st : System) : Prop where
  apart : ∀ t u, (st.threads t).pc.inside = true → (st.threads u).pc.inside = true →
    (st.threads t).stripe g = (st.threads u).stripe g → t = u
  own : ∀ t, (st.threads t).pc.inside = true →
    (st.threads t).entry g = (st.threads t).stripe g ∧ locked st ((st.threads t).stripe g) = true

/-- A thread that is about to enter `raid_write` is at a piece of the first
    stripe of its request. -/
def First (st : System) (t : Nat) : Prop := (st.threads t).pc = .thaw → (st.threads t).stripe g = (st.threads t).entry g

instance (st : System) (t : Nat) : Decidable (First g st t) := inferInstanceAs (Decidable (_ → _))

variable {g} {t : Nat} {st st' : System}

/-! ### Steps -/

/-- A step changes no other thread. -/
theorem effect_frame (effect : Effect g t st st') {u : Nat} (other : u ≠ t) : st'.threads u = st.threads u := by
  cases effect with
  | looks _ _ _ _ _ _ _ _ same => rw [same.threads, Function.update_of_ne other]
  | works _ _ _ _ _ _ _ _ _ _ same => rw [same.threads, Function.update_of_ne other]
  | _ => simp [copy, other]

theorem locked_store (st : System) (s : Nat) (b : Bool) :
    locked (st.store s fun e => { e with stripe_lock := b }) = Function.update (locked st) s b := by
  funext r
  simp only [locked, System.store, Function.update_apply]
  split <;> rfl

theorem next_holds (th : Thread) : th.next.pc.holds = false := by
  unfold Thread.next
  split <;> rfl

theorem lock_effect (effect : Effect g t st st') : LockEffect g t st st' := by
  cases effect with
  | begins idle call split => exact .keeps (by simp [idle, Pc.holds]) (by simp [idle, Pc.holds]) rfl
  | looks pc' _ free free' _ _ _ _ same =>
    exact .keeps (by simp [same.threads, free, free']) (by simp [free]) same.locks
  | takes loop free => exact .takes (by simp [loop, Pc.holds]) (by simp [Thread.entry]) free (locked_store ..)
  | works pc' held held' _ _ _ _ _ _ _ same =>
    exact .keeps (by simp [same.threads, held, held']) (by simp [same.threads, Thread.entry]) same.locks
  | loads pc some_len => exact .keeps (by simp [pc, Pc.holds]) (by simp [Thread.entry]) rfl
  | @copies qlen bat_dios pc =>
    refine .keeps ?_ (by simp [copy, Thread.entry]) rfl
    simp only [copy, System.goto, System.set, System.record, Function.update_self, pc]
    split <;> rfl
  | resets pc => exact .keeps (by simp [pc, Pc.holds]) (by simp [Thread.entry]) rfl
  | submits pc v_dios => exact .keeps (by simp [pc, Pc.holds]) (by simp [Thread.entry]) rfl
  | releases pc => exact .releases (by simp [pc, Pc.holds]) (by simp [next_holds]) (locked_store ..)
  | fetches pc => exact .keeps (by simp [pc, Pc.holds]) (by simp [Thread.entry]) rfl
  | fills pc => exact .keeps (by simp [pc, Pc.holds]) (by simp [Thread.entry]) rfl
  | waits pc => exact .keeps rfl (fun _ => rfl) rfl
  | leaves pc free => exact .keeps (by simp [next_holds, pc]; rfl) (by simp [pc, Pc.holds]) rfl

theorem locks_step (effect : Effect g t st st') (inv : LockInv g st) : LockInv g st' := by
  have frame := fun {u : Nat} (other : u ≠ t) => effect_frame effect other
  cases lock_effect effect with
  | keeps same entry locks =>
    have holds : ∀ u, (st'.threads u).pc.holds = true →
        (st.threads u).pc.holds = true ∧ (st'.threads u).entry g = (st.threads u).entry g := by
      intro u held
      by_cases own : u = t
      · subst own
        rw [same] at held
        exact ⟨held, entry held⟩
      · rw [frame own] at held ⊢
        exact ⟨held, rfl⟩
    constructor
    · intro u held
      rw [locks, (holds u held).2]
      exact inv.held u (holds u held).1
    · intro u v held held' equal
      rw [(holds u held).2, (holds v held').2] at equal
      exact inv.one u v (holds u held).1 (holds v held').1 equal
  | takes free entry unlocked locks =>
    -- Nobody else holds the entry: it was not locked.
    have apart : ∀ u, u ≠ t → (st'.threads u).pc.holds = true → (st'.threads u).entry g ≠ (st'.threads t).entry g := by
      intro u other held equal
      rw [frame other] at held equal
      rw [entry] at equal
      have taken := inv.held u held
      rw [equal, unlocked] at taken
      cases taken
    constructor
    · intro u held
      rw [locks]
      by_cases own : u = t
      · rw [own, entry, Function.update_self]
      · have different := apart u own held
        rw [entry] at different
        rw [Function.update_of_ne different, frame own]
        rw [frame own] at held
        exact inv.held u held
    · intro u v held held' equal
      by_cases own : u = t
      · by_cases own' : v = t
        · rw [own, own']
        · exact absurd (own ▸ equal.symm) (apart v own' held')
      · by_cases own' : v = t
        · exact absurd (own' ▸ equal) (apart u own held)
        · rw [frame own] at held equal
          rw [frame own'] at held' equal
          exact inv.one u v held held' equal
  | releases held free locks =>
    have other : ∀ u, (st'.threads u).pc.holds = true → u ≠ t := by
      intro u holds own
      rw [own, free] at holds
      cases holds
    constructor
    · intro u holds
      have not_own := other u holds
      rw [frame not_own] at holds ⊢
      have different : (st.threads u).entry g ≠ (st.threads t).entry g :=
        fun equal => not_own (inv.one u t holds held equal)
      rw [locks, Function.update_of_ne different]
      exact inv.held u holds
    · intro u v holds holds' equal
      have not_own := other u holds
      have not_own' := other v holds'
      rw [frame not_own] at holds equal
      rw [frame not_own'] at holds' equal
      exact inv.one u v holds holds' equal

theorem locks_start (calls : Nat → List UioInfo) : LockInv g (System.start calls) :=
  ⟨fun t held => by simp [System.start, Pc.holds] at held, fun t u held => by simp [System.start, Pc.holds] at held⟩

/-! ### Pieces of the first stripe -/

theorem inside_holds {pc : Pc} (inside : pc.inside = true) : pc.holds = true := by
  cases pc <;> simp_all [Pc.inside, Pc.holds]

/-- A step into `raid_write`, or in it. -/
theorem inside_effect (effect : Effect g t st st') (inside : (st'.threads t).pc.inside = true) :
    ((st.threads t).pc.inside = true ∨ (st.threads t).pc = .thaw) ∧
      (st'.threads t).stripe g = (st.threads t).stripe g ∧ (st'.threads t).entry g = (st.threads t).entry g := by
  have outside : ∀ th : Thread, th.next.pc.inside = false := by
    intro th
    unfold Thread.next
    split <;> rfl
  cases effect with
  | begins => simp [Pc.inside] at inside
  | looks pc' _ _ free' _ _ _ _ same =>
    rw [same.threads, Function.update_self] at inside
    rw [inside_holds inside] at free'
    contradiction
  | takes => simp [Pc.inside] at inside
  | works pc' _ _ _ _ _ _ enters _ _ same =>
    rw [same.threads, Function.update_self] at inside ⊢
    exact ⟨enters inside, rfl, rfl⟩
  | loads pc => exact ⟨by simp [pc, Pc.inside], by simp [Thread.stripe], by simp [Thread.entry]⟩
  | copies pc => exact ⟨by simp [pc, Pc.inside], by simp [copy, Thread.stripe], by simp [copy, Thread.entry]⟩
  | resets pc => exact ⟨by simp [pc, Pc.inside], by simp [Thread.stripe], by simp [Thread.entry]⟩
  | submits => simp [Pc.inside] at inside
  | releases => simp [outside] at inside
  | fetches => simp [Pc.inside] at inside
  | fills => simp [Pc.inside] at inside
  | waits => exact ⟨.inl inside, rfl, rfl⟩
  | leaves => simp [outside] at inside

/-- A step of a thread that enters `raid_write` with pieces of the first stripe
    only keeps every thread there at one of these. -/
theorem own_step (effect : Effect g t st st') (first : First g st t)
    (own : ∀ u, (st.threads u).pc.inside = true → (st.threads u).stripe g = (st.threads u).entry g) (u : Nat)
    (inside : (st'.threads u).pc.inside = true) : (st'.threads u).stripe g = (st'.threads u).entry g := by
  by_cases this : u = t
  · subst this
    obtain ⟨before, stripe, entry⟩ := inside_effect effect inside
    rw [stripe, entry]
    exact before.elim (own u) first
  · rw [effect_frame effect this] at inside ⊢
    exact own u inside

/-- When every piece that a thread enters `raid_write` with is in the first
    stripe of its request, the writes of a stripe exclude each other in every
    state that any order of steps reaches. -/
theorem exclusive_of_first {calls : Nat → List UioInfo}
    (reachable : Reachable (step g) (First g) (System.start calls) st) : Exclusive g st := by
  have inv : LockInv g st ∧ ∀ u, (st.threads u).pc.inside = true → (st.threads u).stripe g = (st.threads u).entry g :=
    reachable.invariant (P := fun st => LockInv g st ∧ ∀ u, (st.threads u).pc.inside = true →
      (st.threads u).stripe g = (st.threads u).entry g)
      ⟨locks_start calls, fun u inside => by simp [System.start, Pc.inside] at inside⟩
      fun inv first next => ⟨locks_step (step_effect next) inv.1, own_step (step_effect next) first inv.2⟩
  obtain ⟨locks, own⟩ := inv
  refine ⟨?_, fun t inside => ⟨(own t inside).symm, ?_⟩⟩
  · intro t u inside inside' equal
    rw [own t inside, own u inside'] at equal
    exact locks.one t u (inside_holds inside) (inside_holds inside') equal
  · rw [own t inside]
    exact locks.held t (inside_holds inside)

/-- Two threads with requests in the first two stripes. -/
def two_requests : Nat → List UioInfo
  | 0 => [⟨0, true, 4096, 0, 4096⟩]
  | 1 => [⟨1, true, 4096, 458752, 4096⟩]
  | _ => []

/-- Both are in `raid_write`. -/
theorem exclusive_two_requests : ∃ st, Reachable (step defaultGeometry) (First defaultGeometry) (System.start two_requests) st ∧
    (st.threads 0).pc = .freeze ∧ (st.threads 1).pc = .freeze ∧ Exclusive defaultGeometry st := by
  have result : (run (step defaultGeometry) (First defaultGeometry) [0, 1, 0, 1, 0, 1, 0, 1] (System.start two_requests)).map
      (fun st => ((st.threads 0).pc, (st.threads 1).pc)) = some (.freeze, .freeze) := by decide +kernel
  obtain ⟨st, reached, pcs⟩ := Option.map_eq_some_iff.mp result
  have reachable := run_reachable reached
  exact ⟨st, reachable, (Prod.mk.injEq .. ▸ pcs).1, (Prod.mk.injEq .. ▸ pcs).2, exclusive_of_first reachable⟩

/-- A thread with a request of the first two stripes and one with a request in
    the second. -/
def long_request : Nat → List UioInfo
  | 0 => [⟨0, true, 4096, 0, 917504⟩]
  | 1 => [⟨1, true, 4096, 458752, 4096⟩]
  | _ => []

theorem long_request_valid : ∀ t, ∀ uio ∈ long_request t, uio.Valid defaultGeometry ∧ uio.user_id = t
  | 0 => by decide
  | 1 => by decide
  | _ + 2 => by simp [long_request]

/-- The first handles its piece of the second stripe under the lock of the first
    stripe, while the other one writes to the second stripe. -/
theorem exclusive_long_request : (∀ t, ∀ uio ∈ long_request t, uio.Valid defaultGeometry ∧ uio.user_id = t) ∧
    ∃ st, Reachable (step defaultGeometry) (fun _ _ => True) (System.start long_request) st ∧
      ¬ Exclusive defaultGeometry st := by
  refine ⟨long_request_valid, ?_⟩
  have result : (run (step defaultGeometry) (fun _ _ => True) (List.replicate 11 0 ++ List.replicate 4 1)
      (System.start long_request)).map (fun st => ((st.threads 0).pc.inside, (st.threads 1).pc.inside,
        (st.threads 0).stripe defaultGeometry, (st.threads 1).stripe defaultGeometry)) = some (true, true, 1, 1) := by
    decide +kernel
  obtain ⟨st, reached, seen⟩ := Option.map_eq_some_iff.mp result
  simp only [Prod.mk.injEq] at seen
  obtain ⟨inside, inside', stripe, stripe'⟩ := seen
  refine ⟨st, run_reachable reached, fun exclusive => ?_⟩
  exact absurd (exclusive.apart 0 1 inside inside' (stripe.trans stripe'.symm)) (by decide)

end Straid.Locks
