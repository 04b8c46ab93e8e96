import Straid.KFifoThreads
import Mathlib.Data.List.Nodup

/-!
Where the items of a shared queue are, over all orders of steps. An item is in at
most one slot and is dequeued at most once (`items_of_reachable`). It is between
head and tail as long as no exchange comes late: no item is put into a slot that
head has passed, head leaves no item behind, and tail does not run into head
(`Steady`; a step keeps all items in the region exactly then, `region_step_iff`).
`committed` is there to take an item out of such a slot, but it looks at the slot
of the tail and not of the item, and lets the item stay whenever head is at rest:
an item can be lost (`item_stranded`).
-/
namespace Straid.StrandedItems
open KFifo KFifo.KQueue KFifoThreads Interleavings

/-- A slot of a segment from head to tail, going round. -/
def InRegion (q : KQueue) (i : Nat) : Prop := i < q.size ∧ ¬ q.Outside i

instance (q : KQueue) (i : Nat) : Decidable (q.Outside i) := inferInstanceAs (Decidable (_ ∨ _))

instance (q : KQueue) (i : Nat) : Decidable (InRegion q i) := inferInstanceAs (Decidable (_ ∧ _))

/-- Head may move on: its segment has no item, or is the tail's. -/
def LeavesNothing (q : KQueue) : Prop := q.head = q.tail ∨ ∀ i < q.k, q.arr (q.head + i) = 0

instance (q : KQueue) : Decidable (LeavesNothing q) := inferInstanceAs (Decidable (_ ∨ _))

/-- Tail may move on: it does not meet the head, or all items are there. -/
def StaysBehind (q : KQueue) : Prop := (q.tail + q.k) % q.size = q.head →
  ∀ i < q.size, q.arr i ≠ 0 → q.head ≤ i ∧ i < q.head + q.k

instance (q : KQueue) : Decidable (StaysBehind q) := inferInstanceAs (Decidable (_ → _))

/-- No exchange comes late in the next step of thread `t`. -/
@[mk_iff]
structure Steady (st : System) (t : Nat) : Prop where
  store : ∀ slot ∈ (st.threads t).pc.stores, st.q.arr slot.1 = slot.2 → InRegion st.q slot.1
  head : ∀ head_old ∈ (st.threads t).pc.moves_head, st.q.head = head_old → LeavesNothing st.q
  tail : ∀ tail_old ∈ (st.threads t).pc.moves_tail, st.q.tail = tail_old → StaysBehind st.q

instance (st : System) (t : Nat) : Decidable (Steady st t) := decidable_of_iff' _ (steady_iff st t)

/-- The items of calls. -/
def call_items (calls : List Call) : List Nat := calls.filterMap fun
  | .enqueue item => some item
  | .dequeue => none

/-- Every item is enqueued by one call, and is not `0`. -/
structure Distinct (calls : Nat → List Call) : Prop where
  nonzero : ∀ t, ∀ x ∈ call_items (calls t), x ≠ 0
  nodup : ∀ t, (call_items (calls t)).Nodup
  apart : ∀ t u x, x ∈ call_items (calls t) → x ∈ call_items (calls u) → t = u

/-- No item is lost and none is dequeued twice. -/
structure Kept (st : System) : Prop where
  stored : ∀ x ∈ st.enqueued, x ∉ st.dequeued → ∃ i, InRegion st.q i ∧ st.q.arr i = x
  once : st.dequeued.Nodup

/-- An item was put into a slot, and not taken back. -/
def Here (st : System) (x : Nat) : Prop := x ∈ st.dequeued ∨ ∃ i, st.q.arr i = x

/-- The items that a thread is still to put into a slot. -/
def waiting (th : Thread) : List Nat := th.pc.offers.toList ++ call_items th.calls

/-- The items of the calls of a thread that have not returned. -/
def items (th : Thread) : List Nat := th.pc.placed.toList ++ waiting th

/-- Each item is in one place. -/
structure SlotsInv (st : System) : Prop where
  apart : ∀ i j, st.q.arr i ≠ 0 → st.q.arr i = st.q.arr j → i = j
  gone : ∀ x ∈ st.dequeued, x ≠ 0 ∧ ∀ i, st.q.arr i ≠ x
  once : st.dequeued.Nodup

/-- What the threads know of their items. -/
structure OwnersInv (st : System) : Prop where
  nonzero : ∀ t, ∀ x ∈ items (st.threads t), x ≠ 0
  nodup : ∀ t, (items (st.threads t)).Nodup
  apart : ∀ t u x, x ∈ items (st.threads t) → x ∈ items (st.threads u) → t = u
  open_calls : ∀ t, ∀ x ∈ items (st.threads t), x ∉ st.enqueued
  waiting : ∀ t, ∀ x ∈ waiting (st.threads t), ¬ Here st x
  placed : ∀ t, ∀ x ∈ (st.threads t).pc.placed, Here st x
  enqueued : ∀ x ∈ st.enqueued, x ≠ 0 ∧ Here st x

structure ItemsInv (st : System) : Prop where
  looked : ∀ t, Looked (st.threads t).pc
  slots : SlotsInv st
  owners : OwnersInv st

/-- All items are between head and tail. -/
structure RegionInv (q : KQueue) : Prop where
  k_pos : 0 < q.k
  size_dvd : q.k ∣ q.size
  head_dvd : q.k ∣ q.head
  head_lt : q.head < q.size
  tail_dvd : q.k ∣ q.tail
  tail_lt : q.tail < q.size
  items : ∀ i, q.arr i ≠ 0 → InRegion q i

variable {t : Nat} {st st' : System} {q : KQueue}

/-! ### Slots -/

theorem effect_frame (effect : Effect t st st') {u : Nat} (other : u ≠ t) : st'.threads u = st.threads u := by
  cases effect <;> exact Function.update_of_ne other _ _

theorem holds_store {index item : Nat} (free : q.arr index = 0) {x : Nat} (nonzero : x ≠ 0) :
    (∃ i, (set_slot q index item).arr i = x) ↔ x = item ∨ ∃ i, q.arr i = x := by
  constructor
  · rintro ⟨i, there⟩
    by_cases own : i = index
    · subst own
      exact .inl (by simpa [set_slot] using there.symm)
    · exact .inr ⟨i, by simpa [set_slot, own] using there⟩
  · rintro (rfl | ⟨i, there⟩)
    · exact ⟨index, by simp [set_slot]⟩
    · have other : i ≠ index := by
        rintro rfl
        exact nonzero (there.symm.trans free)
      exact ⟨i, by simpa [set_slot, other] using there⟩

theorem holds_erase (apart : ∀ i j, q.arr i ≠ 0 → q.arr i = q.arr j → i = j) {index x : Nat} (nonzero : x ≠ 0) :
    (∃ i, (set_slot q index 0).arr i = x) ↔ (∃ i, q.arr i = x) ∧ x ≠ q.arr index := by
  constructor
  · rintro ⟨i, there⟩
    by_cases own : i = index
    · subst own
      exact absurd (by simpa [set_slot] using there.symm) nonzero
    · have same : q.arr i = x := by simpa [set_slot, own] using there
      refine ⟨⟨i, same⟩, fun equal => own (apart i index ?_ (same.trans equal))⟩
      rwa [same]
  · rintro ⟨⟨i, there⟩, different⟩
    have other : i ≠ index := by
      rintro rfl
      exact different there.symm
    exact ⟨i, by simpa [set_slot, other] using there⟩

theorem slots_step (effect : Effect t st st') (slots : SlotsInv st) (owners : OwnersInv st) : SlotsInv st' := by
  have erased : ∀ {index : Nat}, ∀ i j, (set_slot st.q index 0).arr i ≠ 0 →
      (set_slot st.q index 0).arr i = (set_slot st.q index 0).arr j → i = j := by
    intro index i j item same
    have left : ∀ {l : Nat}, (set_slot st.q index 0).arr l ≠ 0 → (set_slot st.q index 0).arr l = st.q.arr l := by
      intro l there
      have other : l ≠ index := by
        rintro rfl
        simp [set_slot] at there
      simp [set_slot, other]
    have there := left item
    have there' := left (same ▸ item)
    exact slots.apart i j (there ▸ item) (there.symm.trans (same.trans there'))
  have fewer : ∀ {index : Nat}, ∀ x ∈ st.dequeued, x ≠ 0 ∧ ∀ i, (set_slot st.q index 0).arr i ≠ x := by
    intro index x member
    obtain ⟨nonzero, none⟩ := slots.gone x member
    refine ⟨nonzero, fun i there => ?_⟩
    obtain ⟨⟨j, before⟩, _⟩ := (holds_erase slots.apart nonzero).mp ⟨i, there⟩
    exact none j before
  cases effect with
  | begins => exact ⟨slots.apart, slots.gone, slots.once⟩
  | looks pc' same =>
    rcases same with rfl | rfl
    · exact ⟨slots.apart, slots.gone, slots.once⟩
    · exact ⟨slots.apart, slots.gone, slots.once⟩
  | moves_head => exact ⟨slots.apart, slots.gone, slots.once⟩
  | moves_tail => exact ⟨slots.apart, slots.gone, slots.once⟩
  | @stores item tail_old index pc free =>
    have member : item ∈ waiting (st.threads t) := by simp [waiting, pc, Pc.offers]
    have absent := owners.waiting t item member
    have nonzero := owners.nonzero t item (List.mem_append_right _ member)
    have fresh : ∀ i, st.q.arr i ≠ item := fun i there => absent (.inr ⟨i, there⟩)
    refine ⟨fun i j some_item same => ?_, fun x gone => ?_, slots.once⟩
    · by_cases own : i = index <;> by_cases own' : j = index
      · rw [own, own']
      · exact absurd (by simpa [System.cells, set_slot, own, own'] using same.symm) (fresh j)
      · exact absurd (by simpa [System.cells, set_slot, own, own'] using same) (fresh i)
      · simp only [System.cells, set_slot, Function.update_of_ne own, Function.update_of_ne own'] at some_item same
        exact slots.apart i j some_item same
    · obtain ⟨some_item, none⟩ := slots.gone x gone
      refine ⟨some_item, fun i there => ?_⟩
      rcases (holds_store free some_item).mp ⟨i, there⟩ with rfl | ⟨j, before⟩
      · exact absent (.inl gone)
      · exact none j before
  | undoes => exact ⟨erased, fewer, slots.once⟩
  | answers => exact ⟨slots.apart, slots.gone, slots.once⟩
  | refuses => exact ⟨slots.apart, slots.gone, slots.once⟩
  | @takes index old pc there nonzero =>
    refine ⟨erased, fun x member => ?_, ?_⟩
    · rcases List.mem_cons.mp member with rfl | before
      · refine ⟨nonzero, fun i still => ?_⟩
        exact ((holds_erase slots.apart nonzero).mp ⟨i, still⟩).2 there.symm
      · exact fewer x before
    · exact List.nodup_cons.mpr ⟨fun member => (slots.gone old member).2 index there, slots.once⟩

/-! ### Owners -/

/-- A step that changes which items are in a place only for the thread that takes
    it. -/
theorem owners_of_own (inv : OwnersInv st) (frame : ∀ u, u ≠ t → st'.threads u = st.threads u)
    (fewer : (items (st'.threads t)).Sublist (items (st.threads t)))
    (here : ∀ x, x ≠ 0 → x ∉ items (st.threads t) → (Here st' x ↔ Here st x))
    (waits : ∀ x ∈ waiting (st'.threads t), ¬ Here st' x) (placed : ∀ x ∈ (st'.threads t).pc.placed, Here st' x)
    (enqueued : ∀ x ∈ st'.enqueued,
      x ∈ st.enqueued ∨ x ∈ items (st.threads t) ∧ x ∉ items (st'.threads t) ∧ Here st' x) : OwnersInv st' := by
  have before : ∀ u, ∀ x ∈ items (st'.threads u), x ∈ items (st.threads u) := by
    intro u x member
    by_cases own : u = t
    · subst own
      exact fewer.subset member
    · rwa [frame u own] at member
  have others : ∀ u, u ≠ t → ∀ x ∈ items (st.threads u), Here st' x ↔ Here st x := by
    intro u other x member
    exact here x (inv.nonzero u x member) fun mine => other (inv.apart u t x member mine)
  constructor
  · exact fun u x member => inv.nonzero u x (before u x member)
  · intro u
    by_cases own : u = t
    · subst own
      exact fewer.nodup (inv.nodup u)
    · rw [frame u own]
      exact inv.nodup u
  · exact fun u v x member member' => inv.apart u v x (before u x member) (before v x member')
  · intro u x member returned
    rcases enqueued x returned with earlier | ⟨mine, left, _⟩
    · exact inv.open_calls u x (before u x member) earlier
    · obtain rfl := inv.apart u t x (before u x member) mine
      exact left member
  · intro u x member
    by_cases own : u = t
    · subst own
      exact waits x member
    · rw [frame u own] at member
      rw [others u own x (List.mem_append_right _ member)]
      exact inv.waiting u x member
  · intro u x member
    by_cases own : u = t
    · subst own
      exact placed x member
    · rw [frame u own] at member
      rw [others u own x (List.mem_append_left _ (Option.mem_toList.mpr member))]
      exact inv.placed u x member
  · intro x returned
    rcases enqueued x returned with earlier | ⟨mine, _, now⟩
    · obtain ⟨nonzero, there⟩ := inv.enqueued x earlier
      exact ⟨nonzero, (here x nonzero fun mine => inv.open_calls t x mine earlier).mpr there⟩
    · exact ⟨inv.nonzero t x mine, now⟩

/-- A step that changes no place of an item. -/
theorem owners_keep (inv : OwnersInv st) (frame : ∀ u, u ≠ t → st'.threads u = st.threads u)
    (here : ∀ x, Here st' x ↔ Here st x) (waits : waiting (st'.threads t) = waiting (st.threads t))
    (placed : (st'.threads t).pc.placed = (st.threads t).pc.placed) (enqueued : st'.enqueued = st.enqueued) :
    OwnersInv st' := by
  refine owners_of_own inv frame (by rw [items, items, waits, placed]) (fun x _ _ => here x) ?_ ?_ ?_
  · intro x member
    rw [here]
    exact inv.waiting t x (waits ▸ member)
  · intro x member
    rw [here]
    exact inv.placed t x (placed ▸ member)
  · intro x member
    exact .inl (enqueued ▸ member)

theorem owners_item (inv : OwnersInv st) {pc' : Pc} (q' : KQueue) (arr : q'.arr = st.q.arr)
    (item : SameItem (st.threads t).pc pc') : OwnersInv ((st.goto t pc').cells q') := by
  refine owners_keep inv (t := t) (fun u other => by simp [other]) (fun x => ?_) ?_ ?_ rfl
  · rw [Here, Here, ← arr]
    rfl
  · simp [waiting, item.offers]
  · simp [item.placed]

theorem owners_begin (inv : OwnersInv st) {call : Call} {calls : List Call} (idle : (st.threads t).pc = .idle)
    (next : (st.threads t).calls = call :: calls) : OwnersInv (st.set t ⟨calls, call.entry⟩) := by
  refine owners_keep inv (t := t) (fun u other => by simp [other]) (fun _ => Iff.rfl) ?_ ?_ rfl
  · cases call <;> simp [waiting, idle, next, Call.entry, call_items, Pc.offers]
  · cases call <;> simp [idle, Call.entry, Pc.placed]

/-- The item of an `enqueue` goes to a slot. -/
theorem owners_store (inv : OwnersInv st) {item tail_old index : Nat}
    (pc : (st.threads t).pc = .enq_slot item tail_old index 0) (free : st.q.arr index = 0) :
    OwnersInv ((st.goto t (.com_slot item tail_old index)).cells (set_slot st.q index item)) := by
  have here : ∀ x, x ≠ 0 → (Here ((st.goto t (.com_slot item tail_old index)).cells (set_slot st.q index item)) x ↔
      x = item ∨ Here st x) := fun x nonzero =>
    (or_congr Iff.rfl (holds_store free nonzero)).trans or_left_comm
  have before : items (st.threads t) = item :: call_items (st.threads t).calls := by
    simp [items, waiting, pc, Pc.offers, Pc.placed]
  have own : item ∈ items (st.threads t) := before ▸ List.mem_cons_self
  have different := (List.nodup_cons.mp (before ▸ inv.nodup t)).1
  refine owners_of_own inv (t := t) (fun u other => by simp [other]) ?_ (fun x nonzero others => ?_) (fun x waits => ?_)
    (fun x placed => ?_) fun x member => .inl member
  · simp [items, waiting, pc, Pc.offers, Pc.placed]
  · rw [here x nonzero]
    exact or_iff_right fun same => others (same ▸ own)
  · have member : x ∈ call_items (st.threads t).calls := by simpa [waiting, Pc.offers] using waits
    rw [here x (inv.nonzero t x (before ▸ List.mem_cons_of_mem _ member))]
    rintro (same | there)
    · exact different (same ▸ member)
    · exact inv.waiting t x (List.mem_append_right _ member) there
  · obtain rfl : item = x := by simpa [Pc.placed] using placed
    exact (here item (inv.nonzero t item own)).mpr (.inl rfl)

/-- The item of an `enqueue` is taken back. -/
theorem owners_undo (inv : OwnersInv st) (slots : SlotsInv st) {item index : Nat}
    (pc : (st.threads t).pc = .com_undo item index) (there : st.q.arr index = item) :
    OwnersInv ((st.goto t (.enq_tail item)).cells (set_slot st.q index 0)) := by
  have before : items (st.threads t) = item :: call_items (st.threads t).calls := by
    simp [items, waiting, pc, Pc.offers, Pc.placed]
  have own : item ∈ items (st.threads t) := before ▸ List.mem_cons_self
  have absent : item ∉ st.dequeued := fun gone => (slots.gone item gone).2 index there
  have here : ∀ x, x ≠ 0 → (Here ((st.goto t (.enq_tail item)).cells (set_slot st.q index 0)) x ↔
      Here st x ∧ x ≠ item) := by
    intro x nonzero
    have places := @holds_erase _ slots.apart index x nonzero
    rw [there] at places
    refine (or_congr Iff.rfl places).trans ⟨?_, ?_⟩
    · rintro (gone | ⟨still, other⟩)
      · exact ⟨.inl gone, fun same => absent (same ▸ gone)⟩
      · exact ⟨.inr still, other⟩
    · rintro ⟨gone | still, other⟩
      · exact .inl gone
      · exact .inr ⟨still, other⟩
  refine owners_of_own inv (t := t) (fun u other => by simp [other]) ?_ (fun x nonzero others => ?_) (fun x waits => ?_)
    (fun x placed => ?_) fun x member => .inl member
  · simp [items, waiting, pc, Pc.offers, Pc.placed]
  · rw [here x nonzero]
    exact and_iff_left fun same => others (same ▸ own)
  · have member : x = item ∨ x ∈ call_items (st.threads t).calls := by simpa [waiting, Pc.offers] using waits
    have mine : x ∈ items (st.threads t) := before ▸ List.mem_cons.mpr member
    rw [here x (inv.nonzero t x mine)]
    rintro ⟨was_there, other⟩
    exact inv.waiting t x (List.mem_append_right _ (member.resolve_left other)) was_there
  · simp [Pc.placed] at placed

theorem items_idle (th : Thread) : items { th with pc := .idle } = call_items th.calls := rfl

theorem waiting_idle (th : Thread) : waiting { th with pc := .idle } = call_items th.calls := rfl

theorem owners_answer (inv : OwnersInv st) {item : Nat} (placed : (st.threads t).pc.placed = some item) :
    OwnersInv (st.answer t item) := by
  have idle : (st.threads t).pc.offers = none := by
    cases pc : (st.threads t).pc <;> simp_all [Pc.placed, Pc.offers]
  have rest : waiting (st.threads t) = call_items (st.threads t).calls := by simp [waiting, idle]
  have before : items (st.threads t) = item :: call_items (st.threads t).calls := by simp [items, rest, placed]
  have after : (st.answer t item).threads t = { st.threads t with pc := .idle } := by simp
  have different := (List.nodup_cons.mp (before ▸ inv.nodup t)).1
  refine owners_of_own inv (t := t) (fun u other => by simp [other]) ?_ (fun _ _ _ => Iff.rfl) (fun x waits => ?_)
    (fun x placed => ?_) fun x member => ?_
  · rw [before, after, items_idle]
    exact List.sublist_cons_self _ _
  · rw [after, waiting_idle, ← rest] at waits
    exact inv.waiting t x waits
  · simp [Pc.placed] at placed
  · rcases List.mem_cons.mp member with rfl | earlier
    · refine .inr ⟨before ▸ List.mem_cons_self, ?_, inv.placed t x placed⟩
      rwa [after, items_idle]
    · exact .inl earlier

theorem owners_refuse (inv : OwnersInv st) {item : Nat} (offers : (st.threads t).pc.offers = some item) :
    OwnersInv (st.goto t .idle) := by
  have rest : waiting (st.threads t) = item :: call_items (st.threads t).calls := by simp [waiting, offers]
  have after : (st.goto t .idle).threads t = { st.threads t with pc := .idle } := by simp
  refine owners_of_own inv (t := t) (fun u other => by simp [other]) ?_ (fun _ _ _ => Iff.rfl) (fun x waits => ?_)
    (fun x placed => ?_) fun x member => .inl member
  · rw [after, items_idle, items, rest]
    exact (List.sublist_cons_self _ _).trans (List.sublist_append_right _ _)
  · rw [after, waiting_idle] at waits
    exact inv.waiting t x (rest ▸ List.mem_cons_of_mem _ waits)
  · simp [Pc.placed] at placed

/-- A `dequeue` takes an item out of its slot. -/
theorem owners_take (inv : OwnersInv st) (slots : SlotsInv st) {index old : Nat}
    (pc : (st.threads t).pc = .deq_slot index old) (there : st.q.arr index = old) :
    OwnersInv ((st.take t old).cells (set_slot st.q index 0)) := by
  have here : ∀ x, x ≠ 0 → (Here ((st.take t old).cells (set_slot st.q index 0)) x ↔ Here st x) := by
    intro x nonzero
    have places := @holds_erase _ slots.apart index x nonzero
    rw [there] at places
    refine (or_congr List.mem_cons places).trans ⟨?_, ?_⟩
    · rintro ((rfl | gone) | ⟨still, _⟩)
      · exact .inr ⟨index, there⟩
      · exact .inl gone
      · exact .inr still
    · rintro (gone | still)
      · exact .inl (.inr gone)
      · by_cases taken : x = old
        · exact .inl (.inl taken)
        · exact .inr ⟨still, taken⟩
  refine owners_of_own inv (t := t) (fun u other => by simp [other]) ?_ (fun x nonzero _ => here x nonzero)
    (fun x waits => ?_) (fun x placed => ?_) fun x member => .inl member
  · simp [items, waiting, pc, Pc.offers, Pc.placed]
  · have member : x ∈ waiting (st.threads t) := by simpa [waiting, pc, Pc.offers] using waits
    rw [here x (inv.nonzero t x (List.mem_append_right _ member))]
    exact inv.waiting t x member
  · simp [Pc.placed] at placed

theorem owners_step (effect : Effect t st st') (slots : SlotsInv st) (owners : OwnersInv st) : OwnersInv st' := by
  cases effect with
  | begins idle next => exact owners_begin owners idle next
  | looks pc' same item =>
    refine owners_item owners _ ?_ item
    rcases same with rfl | rfl <;> rfl
  | moves_head pc' _ item => exact owners_item owners _ rfl item
  | moves_tail pc' _ item => exact owners_item owners _ rfl item
  | stores pc free => exact owners_store owners pc free
  | undoes pc there => exact owners_undo owners slots pc there
  | answers placed => exact owners_answer owners placed
  | refuses offers => exact owners_refuse owners offers
  | takes pc there => exact owners_take owners slots pc there

theorem looked_step (effect : Effect t st st') (looked : ∀ u, Looked (st.threads u).pc) (u : Nat) :
    Looked (st'.threads u).pc := by
  by_cases own : u = t
  · subst own
    cases effect with
    | @begins call => cases call <;> simp [Call.entry, Looked]
    | looks pc' _ item => simpa using item.looked
    | moves_head pc' _ item => simpa using item.looked
    | moves_tail pc' _ item => simpa using item.looked
    | _ => simp [Looked]
  · rw [effect_frame effect own]
    exact looked u

theorem items_step (next : step t st = some st') (inv : ItemsInv st) : ItemsInv st' := by
  have effect := step_effect next (inv.looked t)
  exact ⟨looked_step effect inv.looked, slots_step effect inv.slots inv.owners, owners_step effect inv.slots inv.owners⟩

theorem items_start {calls : Nat → List Call} (distinct : Distinct calls) (size k : Nat) (rands : Nat → Nat) :
    ItemsInv (System.start size k rands calls) := by
  have mine : ∀ t, items ((System.start size k rands calls).threads t) = call_items (calls t) := fun t => rfl
  refine ⟨fun t => trivial, ⟨fun i j item => absurd rfl item, by simp [System.start], List.nodup_nil⟩, ?_⟩
  constructor
  · exact distinct.nonzero
  · exact distinct.nodup
  · exact distinct.apart
  · exact fun t x _ => List.not_mem_nil
  · rintro t x member (gone | ⟨i, there⟩)
    · cases gone
    · exact distinct.nonzero t x member there.symm
  · intro t x placed
    cases placed
  · intro x returned
    cases returned

/-! ### The region -/

theorem next_lt (inv : RegionInv q) (a : Nat) : (a + q.k) % q.size < q.size :=
  Nat.mod_lt _ (Nat.zero_lt_of_lt inv.head_lt)

/-- A slot of the region stays in it when head moves on, unless it is of the head's
    segment. -/
theorem head_region (inv : RegionInv q) {i : Nat} (inside : InRegion q i) :
    InRegion (head_moved q) i ↔ q.head = q.tail ∨ ¬ (q.head ≤ i ∧ i < q.head + q.k) := by
  have next := next_segment inv.head_dvd inv.size_dvd inv.head_lt
  have ahead := fun less => dvd_gap inv.head_dvd inv.tail_dvd less
  have behind := fun less => dvd_gap inv.tail_dvd inv.head_dvd less
  have last := dvd_gap inv.tail_dvd inv.size_dvd inv.tail_lt
  have tail_lt := inv.tail_lt
  have pos := inv.k_pos
  simp only [InRegion, Outside, head_moved] at inside ⊢
  omega

/-- A slot of the region stays in it when tail moves on, unless tail meets the
    head. -/
theorem tail_region (inv : RegionInv q) {i : Nat} (inside : InRegion q i) :
    InRegion (tail_moved q) i ↔ ((q.tail + q.k) % q.size = q.head → q.head ≤ i ∧ i < q.head + q.k) := by
  have next := next_segment inv.tail_dvd inv.size_dvd inv.tail_lt
  have ahead := fun less => dvd_gap inv.head_dvd inv.tail_dvd less
  have behind := fun less => dvd_gap inv.tail_dvd inv.head_dvd less
  have last := dvd_gap inv.head_dvd inv.size_dvd inv.head_lt
  have pos := inv.k_pos
  simp only [InRegion, Outside, tail_moved] at inside ⊢
  omega

theorem region_head_iff (inv : RegionInv q) : RegionInv (head_moved q) ↔ LeavesNothing q := by
  constructor
  · intro after
    refine or_iff_not_imp_left.mpr fun apart i lt => ?_
    by_contra item
    have there := (head_region inv (inv.items _ item)).mp (after.items _ item)
    omega
  · intro leaves
    refine { inv with head_dvd := next_dvd inv.head_dvd inv.size_dvd, head_lt := next_lt inv _, items := fun i item => ?_ }
    refine (head_region inv (inv.items i item)).mpr (leaves.imp_right fun empty here => item ?_)
    have zero := empty (i - q.head) (by omega)
    rwa [Nat.add_sub_cancel' here.1] at zero

theorem region_tail_iff (inv : RegionInv q) : RegionInv (tail_moved q) ↔ StaysBehind q := by
  constructor
  · intro after meets i _ item
    exact (tail_region inv (inv.items i item)).mp (after.items i item) meets
  · intro behind
    refine { inv with tail_dvd := next_dvd inv.tail_dvd inv.size_dvd, tail_lt := next_lt inv _, items := fun i item => ?_ }
    have inside := inv.items i item
    exact (tail_region inv inside).mpr fun meets => behind meets i inside.1 item

theorem region_store_iff (inv : RegionInv q) {index x : Nat} (nonzero : x ≠ 0) :
    RegionInv (set_slot q index x) ↔ InRegion q index := by
  constructor
  · intro after
    exact after.items index (by simpa [set_slot] using nonzero)
  · intro inside
    refine { inv with items := fun i item => ?_ }
    by_cases own : i = index
    · exact own ▸ inside
    · exact inv.items i (by simpa [set_slot, own] using item)

theorem region_erase (inv : RegionInv q) (index : Nat) : RegionInv (set_slot q index 0) := by
  refine { inv with items := fun i item => inv.items i ?_ }
  by_cases own : i = index
  · subst own
    simp [set_slot] at item
  · simpa [set_slot, own] using item

/-- A step that meets the condition keeps all items between head and tail. -/
theorem region_step (effect : Effect t st st') (steady : Steady st t) (items : ItemsInv st) (inv : RegionInv st.q) :
    RegionInv st'.q := by
  cases effect with
  | begins => exact inv
  | looks pc' same =>
    rcases same with rfl | rfl
    · exact inv
    · exact { inv with }
  | moves_head pc' moves => exact (region_head_iff inv).mpr (steady.head _ moves rfl)
  | moves_tail pc' moves => exact (region_tail_iff inv).mpr (steady.tail _ moves rfl)
  | @stores item tail_old index pc free =>
    have nonzero := items.owners.nonzero t item (by simp [StrandedItems.items, waiting, pc, Pc.offers])
    exact (region_store_iff inv nonzero).mpr (steady.store (index, 0) (by rw [pc]; rfl) free)
  | undoes => exact region_erase inv _
  | answers => exact inv
  | refuses => exact inv
  | takes => exact region_erase inv _

/-- A step keeps all items between head and tail exactly when it meets the
    condition. -/
theorem region_step_iff (next : step t st = some st') (items : ItemsInv st) (inv : RegionInv st.q) :
    RegionInv st'.q ↔ Steady st t := by
  refine ⟨fun after => ⟨?_, ?_, ?_⟩, fun steady => region_step (step_effect next (items.looked t)) steady items inv⟩
  · rintro ⟨index, old⟩ stores free
    obtain rfl : st.q.arr index = old := free
    obtain ⟨item, offers, stored⟩ := step_stores next stores
    have mine : item ∈ waiting (st.threads t) := List.mem_append_left _ (Option.mem_toList.mpr offers)
    have nonzero := items.owners.nonzero t item (List.mem_append_right _ mine)
    exact (region_store_iff inv nonzero).mp (stored ▸ after)
  · rintro head_old moves rfl
    exact (region_head_iff inv).mp (step_moves_head next moves ▸ after)
  · rintro tail_old moves rfl
    exact (region_tail_iff inv).mp (step_moves_tail next moves ▸ after)

/-! ### Runs -/

theorem region_start {size k : Nat} (pos : 0 < k) (dvd : k ∣ size) (some_slot : 0 < size) (rands : Nat → Nat) :
    RegionInv (fresh size k rands) where
  k_pos := pos
  size_dvd := dvd
  head_dvd := dvd_zero k
  head_lt := some_slot
  tail_dvd := dvd_zero k
  tail_lt := some_slot
  items _ item := absurd rfl item

/-- In every order of steps, each item is in one place. -/
theorem items_of_reachable {ok : System → Nat → Prop} {size k : Nat} {rands : Nat → Nat} {calls : Nat → List Call}
    (distinct : Distinct calls) (reachable : Reachable step ok (System.start size k rands calls) st) : ItemsInv st :=
  reachable.invariant (P := ItemsInv) (items_start distinct size k rands) fun inv _ next => items_step next inv

/-- In every state that steps without late exchanges lead to, the items that were
    enqueued and not dequeued are between head and tail, and no item was dequeued
    twice. -/
theorem kept_of_steady {size k : Nat} {rands : Nat → Nat} {calls : Nat → List Call} (pos : 0 < k) (dvd : k ∣ size)
    (some_slot : 0 < size) (distinct : Distinct calls)
    (reachable : Reachable step Steady (System.start size k rands calls) st) : Kept st := by
  have inv : ItemsInv st ∧ RegionInv st.q := reachable.invariant (P := fun st => ItemsInv st ∧ RegionInv st.q)
    ⟨items_start distinct size k rands, region_start pos dvd some_slot rands⟩ fun inv steady next =>
      ⟨items_step next inv.1, (region_step_iff next inv.1 inv.2).mpr steady⟩
  obtain ⟨items, region⟩ := inv
  refine ⟨fun x returned left => ?_, items.slots.once⟩
  obtain ⟨nonzero, here⟩ := items.owners.enqueued x returned
  obtain ⟨i, there⟩ := here.resolve_left left
  exact ⟨i, region.items i (there ▸ nonzero), there⟩

/-! ### Two threads -/

/-- One thread enqueues an item while the other uses the queue twice. -/
def two_threads : Nat → List Call
  | 0 => [.enqueue 7]
  | 1 => [.enqueue 5, .dequeue, .enqueue 6, .dequeue]
  | _ => []

theorem two_threads_distinct : Distinct two_threads where
  nonzero
    | 0 => by decide
    | 1 => by decide
    | _ + 2 => by simp [two_threads, call_items]
  nodup
    | 0 => by decide
    | 1 => by decide
    | _ + 2 => by simp [two_threads, call_items]
  apart
    | 0, 0 => by simp
    | 1, 1 => by simp
    | 0, 1 => by simp [two_threads, call_items]
    | 1, 0 => by simp [two_threads, call_items]
    | _ + 2, _ => by simp [two_threads, call_items]
    | 0, _ + 2 => by simp [two_threads, call_items]
    | 1, _ + 2 => by simp [two_threads, call_items]

/-- The first thread puts its item into the queue while the other one waits. -/
theorem kept_two_threads : ∃ st, Reachable step Steady (System.start 6 2 (fun _ => 0) two_threads) st ∧
    (st.enqueued = [5, 7] ∧ st.dequeued = [7]) ∧ Kept st := by
  have result : (run step Steady (List.replicate 5 1 ++ List.replicate 10 0 ++ List.replicate 16 1)
      (System.start 6 2 (fun _ => 0) two_threads)).map (fun st => (st.enqueued, st.dequeued)) = some ([5, 7], [7]) := by
    decide +kernel
  obtain ⟨st, reached, seen⟩ := Option.map_eq_some_iff.mp result
  have reachable := run_reachable reached
  exact ⟨st, reachable, Prod.mk.injEq .. ▸ seen,
    kept_of_steady (by decide) (by decide) (by decide) two_threads_distinct reachable⟩

/-- The first thread finds a free slot. Before it exchanges it, the other one
    moves tail and then head past the slot. `committed` finds head at rest, and
    the item stays in a slot where no `dequeue` looks for it. -/
theorem item_stranded : Distinct two_threads ∧
    ∃ st, Reachable step (fun _ _ => True) (System.start 6 2 (fun _ => 0) two_threads) st ∧ ¬ Kept st := by
  refine ⟨two_threads_distinct, ?_⟩
  have result : (run step (fun _ _ => True) (List.replicate 5 0 ++ List.replicate 40 1 ++ List.replicate 5 0)
      (System.start 6 2 (fun _ => 0) two_threads)).map (fun st => (st.enqueued, st.dequeued, st.q.size,
        decide (∃ i < st.q.size, ¬ st.q.Outside i ∧ st.q.arr i = 7))) = some ([7, 6, 5], [6, 5], 6, false) := by
    decide +kernel
  obtain ⟨st, reached, seen⟩ := Option.map_eq_some_iff.mp result
  simp only [Prod.mk.injEq, decide_eq_false_iff_not] at seen
  obtain ⟨enqueued, dequeued, _, nowhere⟩ := seen
  refine ⟨st, run_reachable reached, fun kept => nowhere ?_⟩
  obtain ⟨i, ⟨lt, inside⟩, there⟩ := kept.stored 7 (by simp [enqueued]) (by simp [dequeued])
  exact ⟨i, lt, inside, there⟩

end Straid.StrandedItems
