import Straid.StrandedItems
import Mathlib.Algebra.Order.BigOperators.Group.Finset
import Mathlib.Algebra.BigOperators.Group.Multiset.Basic

/-!
No step of any thread makes an item or destroys one, over all orders of steps and
also for items that several calls enqueue. What was dequeued and what the slots
hold is together what was enqueued and what `committed` is still to answer for;
no item is there more often than calls brought it (`conserved`). What a step
does to the counts of one item is `effect_count`.
-/
namespace Straid.Conservation
open KFifo KFifo.KQueue KFifoThreads Interleavings StrandedItems

/-- The items of a place of the first `n` threads. -/
def total (n : Nat) (place : Thread → List Nat) (st : System) : Multiset Nat :=
  ∑ t ∈ Finset.range n, (place (st.threads t) : Multiset Nat)

/-- The item that a thread has put into a slot, before its call returns. -/
def placed (th : Thread) : List Nat := th.pc.placed.toList

/-- The slot that a thread has found. -/
def slot : Pc → Option Nat
  | .enq_check _ _ _ (some (index, _)) | .enq_slot _ _ index _ => some index
  | .com_slot _ _ index | .com_head _ _ index | .com_tail _ _ index _ | .com_version _ index _ | .com_undo _ index =>
    some index
  | .deq_tail _ (some (index, _)) | .deq_check _ _ (some (index, _)) | .deq_move_tail _ index _ | .deq_slot index _ =>
    some index
  | _ => none

/-- The items of calls, of slots and of the results, each as often as it is there. -/
structure Balanced (n : Nat) (calls : Nat → List Call) (st : System) : Prop where
  slots : (st.enqueued : Multiset Nat) + total n placed st = st.dequeued + st.q.stored
  calls : (st.enqueued : Multiset Nat) + total n items st ≤ ∑ t ∈ Finset.range n, (call_items (calls t) : Multiset Nat)

structure CountInv (n : Nat) (calls : Nat → List Call) (st : System) : Prop where
  size_pos : 0 < st.q.size
  looked : ∀ t, Looked (st.threads t).pc
  slot : ∀ t, ∀ index ∈ slot (st.threads t).pc, index < st.q.size
  nonzero : ∀ t, ∀ x ∈ items (st.threads t), x ≠ 0
  others : ∀ t, n ≤ t → st.threads t = ⟨[], .idle⟩
  balanced : Balanced n calls st

variable {n t : Nat} {calls : Nat → List Call} {st st' : System}

/-! ### One step -/

theorem effect_size (effect : Effect t st st') : st'.q.size = st.q.size := by
  cases effect with
  | looks pc' same => rcases same with rfl | rfl <;> rfl
  | _ => rfl

theorem find_slot {q : KQueue} (some_slot : 0 < q.size) {start random i : Nat} {empty : Bool} (next : Nat → Pc)
    {found : Option (Nat × Nat) → Pc} (searching : ∀ i, slot (next i) = none)
    (ends : ∀ found', slot (found found') = found'.map Prod.fst) :
    ∀ index ∈ slot (find q start random i empty next found), index < q.size := by
  intro index here
  rw [find] at here
  split at here
  · rw [ends] at here
    obtain rfl := Option.some.inj here
    exact Nat.mod_lt _ some_slot
  · split at here
    · simp [searching] at here
    · simp [ends] at here

theorem enq_checked_slot (q : KQueue) (item tail_old head_old : Nat) (found : Option (Nat × Nat)) :
    slot (enq_checked q item tail_old head_old found) = found.map Prod.fst := by
  cases found with
  | some _ => rfl
  | none => exact (apply_ite slot _ _ _).trans (ite_self _)

theorem deq_checked_slot (head_old tail_old : Nat) (found : Option (Nat × Nat)) :
    slot (deq_checked head_old tail_old found) = found.map Prod.fst := by
  cases found with
  | some _ => exact (apply_ite slot _ _ _).trans (ite_self _)
  | none => exact (apply_ite slot _ _ _).trans (ite_self _)

/-- A slot that a thread has found is one of the queue. -/
theorem step_slot (some_slot : 0 < st.q.size) (next : step t st = some st') :
    ∀ index ∈ slot (st'.threads t).pc, index ∈ slot (st.threads t).pc ∨ index < st.q.size := by
  cases pc : (st.threads t).pc with
  | idle =>
    simp only [step, pc] at next
    cases ahead : (st.threads t).calls with
    | nil => simp [ahead] at next
    | cons call calls =>
      simp only [ahead, Option.some.injEq] at next
      subst next
      cases call <;> simp [Call.entry, slot]
  | enq_find item tail_old head_old random i =>
    simp only [step, pc, Option.some.injEq] at next
    subst next
    intro index here
    refine .inr (find_slot some_slot (.enq_find item tail_old head_old random) (fun _ => rfl) (fun found => ?_)
      index (by simpa using here))
    cases found <;> rfl
  | deq_find head_old random i =>
    simp only [step, pc, Option.some.injEq] at next
    subst next
    intro index here
    refine .inr (find_slot some_slot (.deq_find head_old random) (fun _ => rfl) (fun found => ?_)
      index (by simpa using here))
    cases found <;> rfl
  | enq_check item tail_old head_old found =>
    simp only [step, pc, Option.some.injEq] at next
    subst next
    split
    · simp only [System.goto, System.set, Function.update_self, enq_checked_slot]
      cases found <;> simp +contextual [slot]
    · simp [slot]
  | deq_check head_old tail_old found =>
    simp only [step, pc, Option.some.injEq] at next
    subst next
    split
    · simp only [System.goto, System.set, Function.update_self, deq_checked_slot]
      cases found <;> simp +contextual [slot]
    · simp [slot]
  | deq_tail head_old found =>
    simp only [step, pc, Option.some.injEq] at next
    subst next
    cases found <;> simp +contextual [slot]
  | enq_slot item tail_old item_index old =>
    simp only [step, pc, Option.some.injEq] at next
    subst next
    rw [enq_slot]
    split <;> simp +contextual [slot]
  | com_tail item tail_old index head_curr =>
    simp only [step, pc, Option.some.injEq] at next
    subst next
    rw [com_tail]
    split
    · simp [slot]
    · split <;> simp +contextual [slot]
  | com_undo item index =>
    simp only [step, pc, Option.some.injEq] at next
    subst next
    rw [com_undo]
    split <;> simp +contextual [slot]
  | deq_slot item_index old =>
    simp only [step, pc, Option.some.injEq] at next
    subst next
    rw [deq_slot]
    split <;> simp +contextual [slot]
  | full_stuff item tail_old head_old i =>
    simp only [step, pc, Option.some.injEq] at next
    subst next
    split
    · simp [slot]
    · split <;> simp [slot]
  | com_slot | com_version | full_head | full_check | deq_empty =>
    simp only [step, pc, Option.some.injEq] at next
    subst next
    split <;> simp +contextual [slot]
  | _ =>
    simp only [step, pc, Option.some.injEq] at next
    subst next
    simp +contextual [slot]

/-- The count of one item in the results, in the places of the thread that takes
    the step and in the slots. -/
theorem effect_count (effect : Effect t st st') (inside : ∀ index ∈ slot (st.threads t).pc, index < st.q.size)
    (nonzero : ∀ x ∈ items (st.threads t), x ≠ 0) (x : Nat) :
    (st'.enqueued.count x + (placed (st'.threads t)).count x + (st.dequeued.count x + st.q.stored.count x) =
      st.enqueued.count x + (placed (st.threads t)).count x + (st'.dequeued.count x + st'.q.stored.count x)) ∧
    st'.enqueued.count x + (items (st'.threads t)).count x ≤ st.enqueued.count x + (items (st.threads t)).count x := by
  cases effect with
  | @begins call calls idle next =>
    cases call <;> simp [placed, items, waiting, idle, next, Call.entry, call_items, Pc.offers, Pc.placed]
  | looks pc' same item =>
    have stored : ∀ q', q' = st.q ∨ q' = st.q.draw → q'.stored = st.q.stored := by
      rintro q' (rfl | rfl) <;> rfl
    simp [placed, items, waiting, item.offers, item.placed, stored _ same]
  | moves_head pc' moves item =>
    have stored : (head_moved st.q).stored = st.q.stored := rfl
    simp [placed, items, waiting, item.offers, item.placed, stored]
  | moves_tail pc' moves item =>
    have stored : (tail_moved st.q).stored = st.q.stored := rfl
    simp [placed, items, waiting, item.offers, item.placed, stored]
  | @stores item tail_old index pc free =>
    have lt := inside index (by simp [pc, slot])
    have some_item := nonzero item (by simp [items, waiting, pc, Pc.offers])
    have stored : (set_slot st.q index item).stored = item ::ₘ st.q.stored := stored_insert lt free some_item
    simp [placed, items, waiting, pc, Pc.offers, Pc.placed, stored, Multiset.count_cons, List.count_cons, @eq_comm _ x item]
    omega
  | @undoes item index pc there =>
    have lt := inside index (by simp [pc, slot])
    have some_item := nonzero item (by simp [items, pc, Pc.placed])
    have stored : st.q.stored = item ::ₘ (set_slot st.q index 0).stored :=
      there ▸ stored_remove lt (there ▸ some_item)
    simp [placed, items, waiting, pc, Pc.offers, Pc.placed, stored, Multiset.count_cons, List.count_cons, @eq_comm _ x item]
    omega
  | @answers item here =>
    have offers : (st.threads t).pc.offers = none := by
      cases pc : (st.threads t).pc <;> simp_all [Pc.placed, Pc.offers]
    have before : placed (st.threads t) = [item] := by rw [placed, here, Option.toList_some]
    have all : items (st.threads t) = item :: call_items (st.threads t).calls := by simp [items, waiting, here, offers]
    have after : (st.answer t item).threads t = { st.threads t with pc := .idle } := by simp
    have none : placed { st.threads t with pc := .idle } = [] := rfl
    rw [before, all, after, none, items_idle]
    simp only [System.answer, System.goto, System.set, List.count_cons, List.count_nil]
    omega
  | @refuses item offers =>
    have here : (st.threads t).pc.placed = none := by
      cases pc : (st.threads t).pc <;> simp_all [Pc.placed, Pc.offers]
    have before : placed (st.threads t) = [] := by rw [placed, here, Option.toList_none]
    have all : items (st.threads t) = item :: call_items (st.threads t).calls := by simp [items, waiting, here, offers]
    have after : (st.goto t .idle).threads t = { st.threads t with pc := .idle } := by simp
    have none : placed { st.threads t with pc := .idle } = [] := rfl
    rw [before, all, after, none, items_idle]
    exact ⟨rfl, Nat.add_le_add_left (List.count_le_count_cons ..) _⟩
  | @takes index old pc there some_item =>
    have lt := inside index (by simp [pc, slot])
    have stored : st.q.stored = old ::ₘ (set_slot st.q index 0).stored :=
      there ▸ stored_remove lt (there ▸ some_item)
    simp [placed, items, waiting, pc, Pc.offers, Pc.placed, stored, Multiset.count_cons, List.count_cons, @eq_comm _ x old]
    omega

theorem count_total (place : Thread → List Nat) (own : t < n) (frame : ∀ u, u ≠ t → st'.threads u = st.threads u)
    (x : Nat) : (total n place st').count x + (place (st.threads t)).count x =
      (total n place st).count x + (place (st'.threads t)).count x := by
  have member : t ∈ Finset.range n := Finset.mem_range.mpr own
  have rest : ∑ u ∈ (Finset.range n).erase t, (place (st'.threads u) : Multiset Nat) =
      ∑ u ∈ (Finset.range n).erase t, (place (st.threads u) : Multiset Nat) :=
    Finset.sum_congr rfl fun u other => by rw [frame u (Finset.ne_of_mem_erase other)]
  rw [total, total, ← Finset.add_sum_erase _ _ member, ← Finset.add_sum_erase _ _ member, rest]
  simp only [Multiset.count_add, Multiset.coe_count]
  omega

theorem items_fewer (effect : Effect t st st') (inside : ∀ index ∈ slot (st.threads t).pc, index < st.q.size)
    (nonzero : ∀ x ∈ items (st.threads t), x ≠ 0) : ∀ x ∈ items (st'.threads t), x ∈ items (st.threads t) := by
  intro x here
  have grows : st.enqueued.count x ≤ st'.enqueued.count x := by
    cases effect with
    | answers => exact List.count_le_count_cons ..
    | _ => exact Nat.le_refl _
  have some_item := List.count_pos_iff.mpr here
  have fewer := (effect_count effect inside nonzero x).2
  exact List.count_pos_iff.mp (by omega)

theorem count_step (next : step t st = some st') (inv : CountInv n calls st) : CountInv n calls st' := by
  have effect := step_effect next (inv.looked t)
  have size := effect_size effect
  have own : t < n := by
    by_contra past
    simp [step, inv.others t (Nat.not_lt.mp past)] at next
  have count := effect_count effect (inv.slot t) (inv.nonzero t)
  refine ⟨size ▸ inv.size_pos, looked_step effect inv.looked, fun u => ?_, fun u => ?_, fun u past => ?_, ?_, ?_⟩
  · by_cases mine : u = t
    · subst mine
      intro index here
      rw [size]
      exact (step_slot inv.size_pos next index here).elim (inv.slot u index) id
    · rw [effect_frame effect mine, size]
      exact inv.slot u
  · by_cases mine : u = t
    · subst mine
      exact fun x here => inv.nonzero u x (items_fewer effect (inv.slot u) (inv.nonzero u) x here)
    · rw [effect_frame effect mine]
      exact inv.nonzero u
  · rw [effect_frame effect (by omega)]
    exact inv.others u past
  · refine Multiset.ext.mpr fun x => ?_
    have before := Multiset.ext.mp inv.balanced.slots x
    have change := count_total placed own (fun _ => effect_frame effect) x
    have step := (count x).1
    simp only [Multiset.count_add, Multiset.coe_count] at before ⊢
    omega
  · refine Multiset.le_iff_count.mpr fun x => ?_
    have before := Multiset.le_iff_count.mp inv.balanced.calls x
    have change := count_total items own (fun _ => effect_frame effect) x
    have step := (count x).2
    simp only [Multiset.count_add, Multiset.coe_count] at before ⊢
    omega

/-! ### Runs -/

theorem count_start (nonzero : ∀ t, ∀ x ∈ call_items (calls t), x ≠ 0) (ended : ∀ t, n ≤ t → calls t = []) {size : Nat}
    (some_slot : 0 < size) (k : Nat) (rands : Nat → Nat) : CountInv n calls (System.start size k rands calls) := by
  have mine : ∀ t, items ((System.start size k rands calls).threads t) = call_items (calls t) := fun t => rfl
  refine ⟨some_slot, fun t => trivial, ?_, nonzero, fun t past => congrArg (Thread.mk · .idle) (ended t past), ?_, ?_⟩
  · intro t index here
    cases here
  · have none : total n placed (System.start size k rands calls) = 0 := Finset.sum_eq_zero fun t _ => rfl
    rw [none, show (System.start size k rands calls).q.stored = 0 from fresh_stored size k rands]
    rfl
  · exact (zero_add _).le

/-- In every order of the steps of `n` threads, whether or not two calls enqueue
    the same item: what was dequeued and what is in the slots is what was enqueued
    and what waits for `committed`, and no item is there more often than the
    calls have it. -/
theorem conserved {ok : System → Nat → Prop} {size k : Nat} {rands : Nat → Nat}
    (nonzero : ∀ t, ∀ x ∈ call_items (calls t), x ≠ 0) (ended : ∀ t, n ≤ t → calls t = []) (some_slot : 0 < size)
    (reachable : Reachable step ok (System.start size k rands calls) st) : Balanced n calls st :=
  (reachable.invariant (P := CountInv n calls) (count_start nonzero ended some_slot k rands) fun inv _ next =>
    count_step next inv).balanced

/-- Two threads enqueue the same item. -/
def same_item : Nat → List Call
  | 0 => [.enqueue 7, .dequeue]
  | 1 => [.enqueue 7]
  | _ => []

/-- The first thread dequeues the item of one of them, while the second one is in
    `committed`. -/
theorem conserved_same_item : ∃ st, Reachable step (fun _ _ => True) (System.start 4 2 (fun _ => 0) same_item) st ∧
    (st.enqueued, st.dequeued, (st.threads 1).pc.placed) = ([7], [7], some 7) ∧ Balanced 2 same_item st := by
  have result : (run step (fun _ _ => True) (List.replicate 10 0 ++ List.replicate 7 1 ++ List.replicate 7 0)
      (System.start 4 2 (fun _ => 0) same_item)).map (fun st => (st.enqueued, st.dequeued, (st.threads 1).pc.placed)) =
      some ([7], [7], some 7) := by
    decide +kernel
  obtain ⟨st, reached, seen⟩ := Option.map_eq_some_iff.mp result
  have reachable := run_reachable reached
  refine ⟨st, reachable, seen, conserved (fun t x item => ?_) (fun t past => ?_) (by decide) reachable⟩
  · have seven : x = 7 := by
      rcases t with _ | _ | t
      · simpa [same_item, call_items] using item
      · simpa [same_item, call_items] using item
      · simp [same_item, call_items] at item
    omega
  · rcases t with _ | _ | t
    · omega
    · omega
    · rfl

end Straid.Conservation
