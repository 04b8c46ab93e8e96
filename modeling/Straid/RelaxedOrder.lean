import Straid.KFifo

/-!
The relaxed queue over any sequence of calls of one thread. Every call returns,
the stored items are those that were added and not taken, and a call fails only
for a queue that is nearly full or empty. Items of an earlier segment, going
round from the head, are older than those of a later one (`Ordered`), so an item
that is taken has fewer than `k` older ones beside it (`relaxed_of_run`).
-/
namespace Straid.RelaxedOrder
open KFifo KFifo.KQueue

/-- A queue after some calls: the items that they added and took, how many there
    were, and for each slot the call that put its item there. -/
structure History where
  q : KQueue
  added : Multiset Nat
  taken : Multiset Nat
  calls : Nat
  born : Nat → Nat

namespace History

def start (size k : Nat) (rands : Nat → Nat) : History := ⟨fresh size k rands, 0, 0, 0, fun _ => 0⟩

/-- After a call of `enqueue` that left the queue `q`. -/
def enqueued (h : History) (item : Nat) (answer : Bool) (q : KQueue) : History where
  q := q
  added := if answer then item ::ₘ h.added else h.added
  taken := h.taken
  calls := h.calls + 1
  born := fun i => if h.q.arr i = 0 ∧ q.arr i ≠ 0 then h.calls else h.born i

/-- After a call of `dequeue` that left the queue `q`. -/
def dequeued (h : History) (answer : Option Nat) (q : KQueue) : History where
  q := q
  added := h.added
  taken := match answer with
    | some item => item ::ₘ h.taken
    | none => h.taken
  calls := h.calls + 1
  born := h.born

/-- The slots with an older item than that of slot `i`. -/
def older (h : History) (i : Nat) : Finset Nat :=
  (Finset.range h.q.size).filter fun j => h.q.arr j ≠ 0 ∧ h.born j < h.born i

end History

/-- What calls of one thread lead to. -/
inductive Run (size k : Nat) (rands : Nat → Nat) : History → Prop
  | start : Run size k rands (.start size k rands)
  | enqueue {h : History} {fuel item : Nat} {answer : Bool} {q : KQueue} (before : Run size k rands h)
      (nonzero : item ≠ 0) (call : enqueue fuel h.q item = some (answer, q)) : Run size k rands (h.enqueued item answer q)
  | dequeue {h : History} {fuel : Nat} {answer : Option Nat} {q : KQueue} (before : Run size k rands h)
      (call : dequeue fuel h.q = some (answer, q)) : Run size k rands (h.dequeued answer q)

/-- A bounded queue whose items are taken nearly in order. -/
structure Relaxed (size k : Nat) (h : History) : Prop where
  stored : h.added = h.taken + h.q.stored
  enqueue : ∀ item, item ≠ 0 → ∃ answer q, (∀ fuel, enqueue (fuel + 2) h.q item = some (answer, q)) ∧
    (answer = false → size - 2 * k < h.q.stored.card)
  dequeue : ∃ answer q, (∀ fuel, dequeue (fuel + 2) h.q = some (answer, q)) ∧ (answer = none ↔ h.q.stored = 0) ∧
    ∀ item, answer = some item → ∃ i < size, h.q.arr i = item ∧ item ≠ 0 ∧ q.arr = Function.update h.q.arr i 0 ∧
      (h.older i).card < k

/-- The segment of slot `i` comes before that of slot `j`, going round from the
    head. -/
def Earlier (q : KQueue) (i j : Nat) : Prop :=
  (q.head / q.k ≤ i / q.k ∧ i / q.k < j / q.k) ∨ (j / q.k < q.head / q.k ∧ q.head / q.k ≤ i / q.k) ∨
    (i / q.k < j / q.k ∧ j / q.k < q.head / q.k)

/-- Items of earlier segments are older. -/
structure Ordered (q : KQueue) (born : Nat → Nat) (calls : Nat) : Prop where
  before : ∀ i < q.size, q.arr i ≠ 0 → born i < calls
  order : ∀ i < q.size, ∀ j < q.size, q.arr i ≠ 0 → q.arr j ≠ 0 → Earlier q i j → born i < born j

/-- What holds between the calls. -/
structure HistoryInv (size k : Nat) (h : History) : Prop where
  inv : h.q.Inv
  size : h.q.size = size
  k : h.q.k = k
  stored : h.added = h.taken + h.q.stored
  ordered : Ordered h.q h.born h.calls

variable {q p : KQueue} {born : Nat → Nat} {calls : Nat}

/-! ### Segments -/

theorem le_iff_segment {k a : Nat} (pos : 0 < k) (dvd : k ∣ a) (i : Nat) : a ≤ i ↔ a / k ≤ i / k := by
  rw [Nat.le_div_iff_mul_le pos, Nat.div_mul_cancel dvd]

theorem segment_iff {k a : Nat} (pos : 0 < k) (dvd : k ∣ a) (i : Nat) : i / k = a / k ↔ a ≤ i ∧ i < a + k := by
  have low := le_iff_segment pos dvd i
  have high := le_iff_segment pos (Nat.dvd_add dvd (Nat.dvd_refl k)) i
  rw [Nat.add_div_right a pos] at high
  omega

/-- No segment with an item comes after the tail's. -/
theorem tail_last (inv : q.Inv) {i j : Nat} (low : q.tail ≤ i) (high : i < q.tail + q.k) (lt : j < q.size)
    (item : q.arr j ≠ 0) : ¬ Earlier q i j := by
  have tail := (segment_iff inv.k_pos inv.tail_dvd i).mpr ⟨low, high⟩
  have inside : ¬ q.Outside j := fun outside => item (inv.empty j lt outside)
  have behind := le_iff_segment inv.k_pos inv.head_dvd q.tail
  have after_head := le_iff_segment inv.k_pos inv.head_dvd j
  have after_tail := le_iff_segment inv.k_pos (Nat.dvd_add inv.tail_dvd (Nat.dvd_refl q.k)) j
  rw [Nat.add_div_right _ inv.k_pos] at after_tail
  unfold Outside at inside
  unfold Earlier
  omega

/-- A head that moves on past a segment without items keeps the order of the
    others. -/
theorem moved_earlier (inv : q.Inv) (moved : q.Moved p) {i j : Nat} (lt : i < q.size) (lt' : j < q.size)
    (item : q.arr i ≠ 0) (item' : q.arr j ≠ 0) (earlier : Earlier p i j) : Earlier q i j := by
  rcases moved.head with same | ⟨next, empty⟩
  · rwa [Earlier, moved.k, same] at earlier
  · have pos := inv.k_pos
    have left : ∀ {l : Nat}, q.arr l ≠ 0 → l / q.k ≠ q.head / q.k := by
      intro l taken here
      obtain ⟨low, high⟩ := (segment_iff pos inv.head_dvd l).mp here
      exact taken (empty l low high)
    have different := left item
    have different' := left item'
    have count := fun l => le_iff_segment pos inv.size_dvd l
    rw [Earlier, moved.k, next] at earlier
    unfold Earlier
    rcases next_segment inv.head_dvd inv.size_dvd inv.head_lt with ⟨last, zero⟩ | ⟨_, more⟩
    · have size_eq : q.size / q.k = q.head / q.k + 1 := by rw [← last, Nat.add_div_right _ pos]
      have small := count i
      have small' := count j
      have low := Nat.zero_le (j / q.k)
      rw [zero, Nat.zero_div] at earlier
      omega
    · rw [more, Nat.add_div_right _ pos] at earlier
      omega

/-! ### The order of the items -/

theorem Ordered.moved (ordered : Ordered q born calls) (inv : q.Inv) (moved : q.Moved p) : Ordered p born calls := by
  constructor
  · intro i lt item
    rw [moved.size] at lt
    rw [moved.arr] at item
    exact ordered.before i lt item
  · intro i lt j lt' item item' earlier
    rw [moved.size] at lt lt'
    rw [moved.arr] at item item'
    exact ordered.order i lt j lt' item item' (moved_earlier inv moved lt lt' item item' earlier)

/-- The newest item is in the last segment. -/
theorem Ordered.insert (ordered : Ordered q born calls) (inv : q.Inv) {i x : Nat} (low : q.tail ≤ i)
    (high : i < q.tail + q.k) (free : q.arr i = 0) (nonzero : x ≠ 0) :
    Ordered { q.draw with arr := Function.update q.arr i x }
      (fun j => if q.arr j = 0 ∧ Function.update q.arr i x j ≠ 0 then calls else born j) (calls + 1) := by
  have own : q.arr i = 0 ∧ Function.update q.arr i x i ≠ 0 := ⟨free, by rwa [Function.update_self]⟩
  have other : ∀ {j : Nat}, j ≠ i → ¬ (q.arr j = 0 ∧ Function.update q.arr i x j ≠ 0) := by
    intro j apart
    rw [Function.update_of_ne apart]
    exact fun both => both.2 both.1
  have stays : ∀ {j : Nat}, j ≠ i → Function.update q.arr i x j ≠ 0 → q.arr j ≠ 0 := by
    intro j apart item
    rwa [Function.update_of_ne apart] at item
  constructor
  · intro j lt item
    show (if _ then calls else born j) < calls + 1
    by_cases same : j = i
    · subst same
      rw [if_pos own]
      exact Nat.lt_succ_self _
    · rw [if_neg (other same)]
      exact (ordered.before j lt (stays same item)).trans (Nat.lt_succ_self _)
  · intro j lt l lt' item item' earlier
    show (if _ then calls else born j) < if _ then calls else born l
    have before : Earlier q j l := earlier
    by_cases last : j = i
    · subst last
      have apart : l ≠ j := by
        rintro rfl
        unfold Earlier at before
        omega
      exact absurd before (tail_last inv low high lt' (stays apart item'))
    · rw [if_neg (other last)]
      by_cases new : l = i
      · subst new
        rw [if_pos own]
        exact ordered.before j lt (stays last item)
      · rw [if_neg (other new)]
        exact ordered.order j lt l lt' (stays last item) (stays new item') before

theorem Ordered.erase (ordered : Ordered q born calls) (i tail : Nat) :
    Ordered { q.draw with tail := tail, arr := Function.update q.arr i 0 } born (calls + 1) := by
  have stays : ∀ {j : Nat}, Function.update q.arr i 0 j ≠ 0 → q.arr j ≠ 0 := by
    intro j item
    by_cases same : j = i
    · rw [same, Function.update_self] at item
      exact absurd rfl item
    · rwa [Function.update_of_ne same] at item
  constructor
  · exact fun j lt item => (ordered.before j lt (stays item)).trans (Nat.lt_succ_self _)
  · exact fun j lt l lt' item item' earlier => ordered.order j lt l lt' (stays item) (stays item') earlier

theorem Ordered.draw (ordered : Ordered q born calls) : Ordered q.draw born (calls + 1) :=
  ⟨fun i lt item => (ordered.before i lt item).trans (Nat.lt_succ_self _), ordered.order⟩

/-- The older items are in the head segment, beside the one that is taken. -/
theorem few_older (ordered : Ordered q born calls) (inv : q.Inv) {i : Nat} (low : q.head ≤ i) (high : i < q.head + q.k)
    (item : q.arr i ≠ 0) :
    ((Finset.range q.size).filter fun j => q.arr j ≠ 0 ∧ born j < born i).card < q.k := by
  have inside := inv.inside
  have head := (segment_iff inv.k_pos inv.head_dvd i).mpr ⟨low, high⟩
  have beside : ((Finset.range q.size).filter fun j => q.arr j ≠ 0 ∧ born j < born i) ⊆
      (Finset.Ico q.head (q.head + q.k)).erase i := by
    intro j member
    obtain ⟨range, item', less⟩ := Finset.mem_filter.mp member
    have lt := Finset.mem_range.mp range
    refine Finset.mem_erase.mpr ⟨?_, Finset.mem_Ico.mpr ?_⟩
    · rintro rfl
      exact Nat.lt_irrefl _ less
    · rw [← segment_iff inv.k_pos inv.head_dvd]
      by_contra later
      have earlier : Earlier q i j := by
        unfold Earlier
        omega
      have := ordered.order i (by omega) j lt item item' earlier
      omega
  have card := Finset.card_le_card beside
  rw [Finset.card_erase_of_mem (Finset.mem_Ico.mpr ⟨low, high⟩), Nat.card_Ico] at card
  have := inv.k_pos
  omega

/-! ### Calls -/

/-- What a call answers does not depend on how many rounds it may have. -/
theorem enqueue_fuel {fuel x : Nat} {r : Bool × KQueue} (call : enqueue fuel q x = some r) (more : Nat) :
    enqueue (fuel + more) q x = some r := by
  induction fuel generalizing q with
  | zero => cases call
  | succ fuel ih =>
    rw [Nat.succ_add, enqueue]
    rw [enqueue] at call
    cases round : q.enqueue_round x with
    | mk answer q' =>
      rw [round] at call
      cases answer with
      | some answer => exact call
      | none => exact ih call

theorem dequeue_fuel {fuel : Nat} {r : Option Nat × KQueue} (call : dequeue fuel q = some r) (more : Nat) :
    dequeue (fuel + more) q = some r := by
  induction fuel generalizing q with
  | zero => cases call
  | succ fuel ih =>
    rw [Nat.succ_add, dequeue]
    rw [dequeue] at call
    cases round : q.dequeue_round with
    | mk answer q' =>
      rw [round] at call
      cases answer with
      | some answer => exact call
      | none => exact ih call

variable {size k : Nat} {rands : Nat → Nat} {h : History}

theorem enqueue_inv (inv : HistoryInv size k h) {fuel item : Nat} {answer : Bool} (nonzero : item ≠ 0)
    (call : enqueue fuel h.q item = some (answer, q)) : HistoryInv size k (h.enqueued item answer q) := by
  rcases enqueue_ends inv.inv item fuel with ⟨p, i, moved, pinv, low, high, free, ends⟩ | ⟨_, ends⟩
  · obtain ⟨rfl, rfl⟩ := Prod.mk.inj (Option.some.inj ((enqueue_fuel call 2).symm.trans ends))
    have ordered := (inv.ordered.moved inv.inv moved).insert pinv low high free nonzero
    refine ⟨pinv.enqueued low high item, moved.size.trans inv.size, moved.k.trans inv.k, ?_, ?_⟩
    · have stored := enqueued_stored pinv high free item
      rw [if_neg nonzero, moved.stored_eq] at stored
      show item ::ₘ h.added = h.taken + ({ p.draw with arr := Function.update p.arr i item } : KQueue).stored
      rw [stored, inv.stored, Multiset.add_cons]
    · have born : (fun j => if p.arr j = 0 ∧ Function.update p.arr i item j ≠ 0 then h.calls else h.born j) =
          (h.enqueued item true { p.draw with arr := Function.update p.arr i item }).born := by
        rw [moved.arr]
        rfl
      exact born ▸ ordered
  · obtain ⟨rfl, rfl⟩ := Prod.mk.inj (Option.some.inj ((enqueue_fuel call 2).symm.trans ends))
    have same : (h.enqueued item false h.q.draw).born = h.born := by
      funext i
      exact if_neg fun both => both.2 both.1
    exact ⟨inv.inv.draw, inv.size, inv.k, inv.stored, same ▸ inv.ordered.draw⟩

theorem dequeue_inv (inv : HistoryInv size k h) {fuel : Nat} {answer : Option Nat}
    (call : dequeue fuel h.q = some (answer, q)) : HistoryInv size k (h.dequeued answer q) := by
  rcases dequeue_ends inv.inv fuel with ⟨p, i, moved, pinv, low, high, item, ends⟩ | ⟨none_stored, p, moved, pinv, ends⟩
  · obtain ⟨rfl, rfl⟩ := Prod.mk.inj (Option.some.inj ((dequeue_fuel call 2).symm.trans ends))
    refine ⟨pinv.dequeued low high, moved.size.trans inv.size, moved.k.trans inv.k, ?_,
      (inv.ordered.moved inv.inv moved).erase i _⟩
    have lt : i < p.size := by
      have := pinv.inside
      omega
    have stored := stored_remove lt item
    rw [moved.stored_eq] at stored
    show h.added = (p.arr i ::ₘ h.taken) + _
    rw [inv.stored, stored, Multiset.cons_add, Multiset.add_cons]
    rfl
  · obtain ⟨rfl, rfl⟩ := Prod.mk.inj (Option.some.inj ((dequeue_fuel call 2).symm.trans ends))
    have stored : p.draw.stored = h.q.stored := moved.stored_eq
    refine ⟨pinv.draw, moved.size.trans inv.size, moved.k.trans inv.k, ?_, (inv.ordered.moved inv.inv moved).draw⟩
    show h.added = h.taken + p.draw.stored
    rw [stored]
    exact inv.stored

theorem history_inv (pos : 0 < k) (dvd : k ∣ size) (two : 2 * k ≤ size) (run : Run size k rands h) : HistoryInv size k h := by
  induction run with
  | start =>
    refine ⟨fresh_inv pos dvd two rands, rfl, rfl, ?_, ?_⟩
    · show 0 = 0 + (fresh size k rands).stored
      rw [fresh_stored]
      rfl
    · exact ⟨fun i _ item => absurd rfl item, fun i _ j _ item => absurd rfl item⟩
  | enqueue before nonzero call ih => exact enqueue_inv ih nonzero call
  | dequeue before call ih => exact dequeue_inv ih call

/-- After any calls of one thread, with any values of `rand`: the stored items
    are those added and not taken, the next call returns, `enqueue` fails only
    when more than `size - 2 * k` items are stored and `dequeue` only when there
    are none, and the item that it takes has fewer than `k` older ones. -/
theorem relaxed_of_run (pos : 0 < k) (dvd : k ∣ size) (two : 2 * k ≤ size) (run : Run size k rands h) :
    Relaxed size k h := by
  have inv := history_inv pos dvd two run
  refine ⟨inv.stored, fun item _ => ?_, ?_⟩
  · obtain ⟨answer, q, call, _, _, _, _, full⟩ := enqueue_spec inv.inv item 0
    refine ⟨answer, q, fun fuel => ?_, fun failed => ?_⟩
    · rw [Nat.add_comm]
      exact enqueue_fuel call fuel
    · have nearly := (full failed).2
      rw [inv.size, inv.k] at nearly
      omega
  · rcases dequeue_ends inv.inv 0 with ⟨p, i, moved, pinv, low, high, item, call⟩ | ⟨none_stored, p, moved, pinv, call⟩
    · have lt : i < p.size := by
        have := pinv.inside
        omega
      have answers := fun fuel => Nat.add_comm 2 fuel ▸ dequeue_fuel call fuel
      refine ⟨_, _, answers, ?_, fun x answer => ?_⟩
      · have stored := stored_remove lt item
        rw [moved.stored_eq] at stored
        simp [stored]
      · obtain rfl := Option.some.inj answer
        refine ⟨i, ?_, by rw [moved.arr], item, by rw [moved.arr], ?_⟩
        · rwa [← inv.size, ← moved.size]
        · have few := few_older (inv.ordered.moved inv.inv moved) pinv low high item
          rw [moved.size, moved.arr, moved.k, inv.k] at few
          exact few
    · have answers := fun fuel => Nat.add_comm 2 fuel ▸ dequeue_fuel call fuel
      exact ⟨none, p.draw, answers, by simp [none_stored], fun x answer => nomatch answer⟩

/-- The same item twice, in a ring of two segments of two slots. -/
theorem relaxed_twice : ∃ h, Run 4 2 (fun n => n) h ∧ (h.added = {5, 5} ∧ h.taken = {5}) ∧ Relaxed 4 2 h := by
  have first : Run 4 2 (fun n => n) _ := @Run.enqueue _ _ _ _ 1 5 _ _ .start (by decide) rfl
  have second : Run 4 2 (fun n => n) _ := @Run.enqueue _ _ _ _ 1 5 _ _ first (by decide) rfl
  have third : Run 4 2 (fun n => n) _ := @Run.dequeue _ _ _ _ 1 _ _ second rfl
  exact ⟨_, third, ⟨rfl, rfl⟩, relaxed_of_run (by decide) (by decide) (by decide) third⟩

end Straid.RelaxedOrder
