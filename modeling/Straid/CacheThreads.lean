import Straid.CacheCapacity
import Straid.Interleavings
import Mathlib.Data.Finset.Card
import Mathlib.Data.Multiset.Count
import Mathlib.Algebra.BigOperators.Group.Finset.Piecewise

/-!
Threads that miss keys of the parity cache and insert them (`cache.h`). Each call
of the map and each call of the queue of keys is one step, and the queue may hand
out any key that it holds. Without more, an eviction can find that another thread
has taken its key out, and the cache stays larger. When no two threads insert one
key and no key is handed out before it is in the map, every eviction finds its
key, and the cache has fewer keys than its bound but for the insertions under way
(`evictions_hit`). A call by one thread alone is the `insert_cpy` of `Straid.Cache`
(`insert_cpy_run`).
-/
namespace Straid.CacheThreads
open Interleavings

/-! ### The code -/

/-- Where a thread is in `insert_cpy`. -/
inductive Pc
  | idle
  | enqueue (dev_off : Nat)
  | insert (dev_off : Nat)
  | size
  | dequeue
  | get (lru_ret : Nat)
  | erase (key : Nat)
  | cbegin
  deriving DecidableEq, Repr

/-- The keys of the map and of the queue, the threads, and the number of calls of
    `erase` that found no key. -/
structure System where
  Cache_Root : Finset Nat
  Off_lru : Multiset Nat
  threads : Nat → Pc
  missed : Nat

/-- What a thread does: a search that misses, a call of the queue or the map, or
    one of these for the key that it comes out with. -/
inductive Event
  | search (t dev_off : Nat)
  | call (t : Nat)
  | dequeue (t lru_ret : Nat)
  | first (t key : Nat)
  deriving DecidableEq

def System.start : System := ⟨∅, 0, fun _ => .idle, 0⟩

variable (MAX_stripes T : Nat)

/-- The thread of a call goes on to the next one. -/
def System.goto (st : System) (t : Nat) (pc : Pc) : System := { st with threads := Function.update st.threads t pc }

/-- A step of `insert_cpy`. The slots of the queue cannot hold the key `0`. -/
def step (e : Event) (st : System) : Option System :=
  match e with
  | .search t dev_off =>
    if t < T ∧ st.threads t = .idle ∧ dev_off ∉ st.Cache_Root then some (st.goto t (.enqueue dev_off)) else none
  | .call t =>
    if t ≥ T then none
    else
      match st.threads t with
      | .enqueue dev_off =>
        some { st.goto t (.insert dev_off) with Off_lru := if dev_off = 0 then st.Off_lru else dev_off ::ₘ st.Off_lru }
      | .insert dev_off => some { st.goto t .size with Cache_Root := insert dev_off st.Cache_Root }
      | .size => some (st.goto t (if st.Cache_Root.card ≥ MAX_stripes then .dequeue else .idle))
      | .get lru_ret => some (st.goto t (if lru_ret ∈ st.Cache_Root then .erase lru_ret else .cbegin))
      | .erase key =>
        some ⟨st.Cache_Root.erase key, st.Off_lru, Function.update st.threads t .idle,
          if key ∈ st.Cache_Root then st.missed else st.missed + 1⟩
      | _ => none
  | .dequeue t lru_ret =>
    if t < T ∧ st.threads t = .dequeue ∧ lru_ret ∈ st.Off_lru then
      some { st.goto t (.get lru_ret) with Off_lru := st.Off_lru.erase lru_ret }
    else none
  | .first t key =>
    if t < T ∧ st.threads t = .cbegin ∧ key ∈ st.Cache_Root then some (st.goto t (.erase key)) else none

/-! ### What threads have in hand -/

/-- The thread brings the key, and has not put it into the map. -/
def Pc.brings (key : Nat) : Pc → Nat
  | .enqueue dev_off => if dev_off = key then 1 else 0
  | .insert dev_off => if dev_off = key then 1 else 0
  | _ => 0

/-- The key that it brings is in the queue. -/
def Pc.queued (key : Nat) : Pc → Nat
  | .insert dev_off => if dev_off = key then 1 else 0
  | _ => 0

/-- The thread evicts the key. -/
def Pc.evicts (key : Nat) : Pc → Nat
  | .get lru_ret => if lru_ret = key then 1 else 0
  | .erase lru_ret => if lru_ret = key then 1 else 0
  | _ => 0

/-- The thread has found the cache full, and is to make room. -/
def Pc.full : Pc → Nat
  | .dequeue | .get _ | .erase _ | .cbegin => 1
  | _ => 0

/-- The thread has put its key into the map. -/
def Pc.inserted : Pc → Nat
  | .size => 1
  | pc => pc.full

/-- What all threads have. -/
def total (part : Pc → Nat) (st : System) : Nat := ∑ t ∈ Finset.range T, part (st.threads t)

/-- How often a key is in the map. -/
def cached (Cache_Root : Finset Nat) (key : Nat) : Nat := if key ∈ Cache_Root then 1 else 0

/-- No other thread brings the key that a thread searches, and the key that the
    queue hands out is in the map. -/
def InTime (st : System) : Event → Prop
  | .search _ dev_off => total T (Pc.brings dev_off) st = 0
  | .dequeue _ lru_ret => lru_ret ∈ st.Cache_Root
  | _ => True

instance (st : System) (e : Event) : Decidable (InTime T st e) := by
  cases e <;> unfold InTime <;> infer_instance

variable {MAX_stripes T} {st st' : System} {e : Event} {t : Nat}

theorem total_update (part : Pc → Nat) (lt : t < T) (pc : Pc) {Cache_Root : Finset Nat} {Off_lru : Multiset Nat}
    {missed : Nat} :
    total T part ⟨Cache_Root, Off_lru, Function.update st.threads t pc, missed⟩ + part (st.threads t) =
      total T part st + part pc :=
  sum_update st.threads (fun _ => part) lt pc

/-- What one call does to a key: where it is after it. -/
inductive Step (MAX_stripes T : Nat) (st : System) : Event → System → Prop
  | search {t dev_off : Nat} (lt : t < T) (pc : st.threads t = .idle) (miss : dev_off ∉ st.Cache_Root) :
      Step MAX_stripes T st (.search t dev_off) (st.goto t (.enqueue dev_off))
  | enqueue {t dev_off : Nat} (lt : t < T) (pc : st.threads t = .enqueue dev_off) : Step MAX_stripes T st (.call t)
      { st.goto t (.insert dev_off) with Off_lru := if dev_off = 0 then st.Off_lru else dev_off ::ₘ st.Off_lru }
  | insert {t dev_off : Nat} (lt : t < T) (pc : st.threads t = .insert dev_off) : Step MAX_stripes T st (.call t)
      { st.goto t .size with Cache_Root := insert dev_off st.Cache_Root }
  | full {t : Nat} (lt : t < T) (pc : st.threads t = .size) (many : MAX_stripes ≤ st.Cache_Root.card) :
      Step MAX_stripes T st (.call t) (st.goto t .dequeue)
  | fits {t : Nat} (lt : t < T) (pc : st.threads t = .size) (few : st.Cache_Root.card < MAX_stripes) :
      Step MAX_stripes T st (.call t) (st.goto t .idle)
  | dequeue {t lru_ret : Nat} (lt : t < T) (pc : st.threads t = .dequeue) (member : lru_ret ∈ st.Off_lru) :
      Step MAX_stripes T st (.dequeue t lru_ret) { st.goto t (.get lru_ret) with Off_lru := st.Off_lru.erase lru_ret }
  | hit {t lru_ret : Nat} (lt : t < T) (pc : st.threads t = .get lru_ret) (there : lru_ret ∈ st.Cache_Root) :
      Step MAX_stripes T st (.call t) (st.goto t (.erase lru_ret))
  | gone {t lru_ret : Nat} (lt : t < T) (pc : st.threads t = .get lru_ret) (miss : lru_ret ∉ st.Cache_Root) :
      Step MAX_stripes T st (.call t) (st.goto t .cbegin)
  | first {t key : Nat} (lt : t < T) (pc : st.threads t = .cbegin) (there : key ∈ st.Cache_Root) :
      Step MAX_stripes T st (.first t key) (st.goto t (.erase key))
  | erase {t key : Nat} (lt : t < T) (pc : st.threads t = .erase key) : Step MAX_stripes T st (.call t)
      ⟨st.Cache_Root.erase key, st.Off_lru, Function.update st.threads t .idle,
        if key ∈ st.Cache_Root then st.missed else st.missed + 1⟩

theorem step_cases (next : step MAX_stripes T e st = some st') : Step MAX_stripes T st e st' := by
  cases e with
  | search t dev_off =>
    simp only [step, Option.ite_none_right_eq_some, Option.some.injEq] at next
    obtain ⟨⟨lt, pc, miss⟩, rfl⟩ := next
    exact .search lt pc miss
  | dequeue t lru_ret =>
    simp only [step, Option.ite_none_right_eq_some, Option.some.injEq] at next
    obtain ⟨⟨lt, pc, member⟩, rfl⟩ := next
    exact .dequeue lt pc member
  | first t key =>
    simp only [step, Option.ite_none_right_eq_some, Option.some.injEq] at next
    obtain ⟨⟨lt, pc, there⟩, rfl⟩ := next
    exact .first lt pc there
  | call t =>
    simp only [step] at next
    split at next
    · contradiction
    · next few =>
      have lt : t < T := Nat.lt_of_not_le few
      cases pc : st.threads t with
      | idle | dequeue | cbegin => simp [pc] at next
      | enqueue dev_off =>
        simp only [pc, Option.some.injEq] at next
        exact next ▸ .enqueue lt pc
      | insert dev_off =>
        simp only [pc, Option.some.injEq] at next
        exact next ▸ .insert lt pc
      | size =>
        simp only [pc, Option.some.injEq] at next
        subst next
        by_cases many : st.Cache_Root.card ≥ MAX_stripes
        · rw [if_pos many]
          exact .full lt pc many
        · rw [if_neg many]
          exact .fits lt pc (Nat.lt_of_not_le many)
      | get lru_ret =>
        simp only [pc, Option.some.injEq] at next
        subst next
        by_cases there : lru_ret ∈ st.Cache_Root
        · rw [if_pos there]
          exact .hit lt pc there
        · rw [if_neg there]
          exact .gone lt pc there
      | erase key =>
        simp only [pc, Option.some.injEq] at next
        exact next ▸ .erase lt pc

/-! ### Where a key is -/

/-- A key is at one place: with the thread that brings it, or in the map. When it
    is in the map, or in the queue on its way there, it is in the queue or with one
    thread that evicts it. -/
structure Placed (T : Nat) (st : System) (key : Nat) : Prop where
  once : cached st.Cache_Root key + total T (Pc.brings key) st ≤ 1
  held : total T (Pc.evicts key) st ≤ cached st.Cache_Root key
  zero : key = 0 → st.Off_lru.count key + total T (Pc.evicts key) st = 0
  place : key ≠ 0 → st.Off_lru.count key + total T (Pc.evicts key) st = cached st.Cache_Root key + total T (Pc.queued key) st

section
variable {Cache_Root : Finset Nat} {key k : Nat}

theorem cached_of_mem (there : key ∈ Cache_Root) : cached Cache_Root key = 1 := if_pos there

theorem cached_of_miss (miss : key ∉ Cache_Root) : cached Cache_Root key = 0 := if_neg miss

theorem cached_insert (other : k ≠ key) : cached (insert k Cache_Root) key = cached Cache_Root key := by
  simp [cached, other.symm]

theorem count_enqueue {lru : Multiset Nat} (other : k ≠ key) :
    (if k = 0 then lru else k ::ₘ lru).count key = lru.count key := by
  split
  · rfl
  · exact Multiset.count_cons_of_ne other.symm _

theorem cached_erase (other : k ≠ key) : cached (Cache_Root.erase k) key = cached Cache_Root key := by
  simp [cached, other.symm]

end

@[simp] theorem goto_root (t : Nat) (pc : Pc) : (st.goto t pc).Cache_Root = st.Cache_Root := rfl

@[simp] theorem goto_lru (t : Nat) (pc : Pc) : (st.goto t pc).Off_lru = st.Off_lru := rfl

theorem queued_brings (key : Nat) (pc : Pc) : pc.queued key ≤ pc.brings key := by
  cases pc with
  | insert dev_off => exact le_rfl
  | _ => exact Nat.zero_le _

/-- The keys on their way to the map are brought by threads. -/
theorem queued_le (lt : t < T) (key : Nat) (st : System) :
    total T (Pc.queued key) st + (st.threads t).brings key ≤ total T (Pc.brings key) st + (st.threads t).queued key :=
  sum_le_others (f := fun u => (st.threads u).queued key) lt fun _ _ => queued_brings key _

/-- What a step of one thread has to do to the parts of a key. -/
theorem placed_of {key : Nat} (lt : t < T) {pc : Pc} {Cache_Root : Finset Nat} {Off_lru : Multiset Nat} {missed : Nat}
    (change : ∀ b q e, b + (st.threads t).brings key = total T (Pc.brings key) st + pc.brings key →
      q + (st.threads t).queued key = total T (Pc.queued key) st + pc.queued key →
      e + (st.threads t).evicts key = total T (Pc.evicts key) st + pc.evicts key →
      total T (Pc.queued key) st + (st.threads t).brings key ≤ total T (Pc.brings key) st + (st.threads t).queued key →
      cached Cache_Root key + b ≤ 1 ∧ e ≤ cached Cache_Root key ∧
        (key = 0 → Off_lru.count key + e = 0) ∧ (key ≠ 0 → Off_lru.count key + e = cached Cache_Root key + q)) :
    Placed T ⟨Cache_Root, Off_lru, Function.update st.threads t pc, missed⟩ key := by
  obtain ⟨once, held, zero, place⟩ :=
    change _ _ _ (total_update _ lt pc) (total_update _ lt pc) (total_update _ lt pc) (queued_le lt key st)
  exact ⟨once, held, zero, place⟩

/-- A thread that evicts a key has it in the map. -/
theorem evicts_cached {key : Nat} (placed : Placed T st key) (lt : t < T) (evicts : 0 < (st.threads t).evicts key) :
    key ∈ st.Cache_Root := by
  have part : (st.threads t).evicts key ≤ total T (Pc.evicts key) st :=
    Finset.single_le_sum (f := fun t => (st.threads t).evicts key) (fun _ _ => Nat.zero_le _) (Finset.mem_range.mpr lt)
  have held := placed.held
  by_contra miss
  rw [cached_of_miss miss] at held
  omega

theorem placed_step (placed : ∀ key, Placed T st key) (timely : InTime T st e) (found : ∀ t, st.threads t ≠ .cbegin)
    (next : Step MAX_stripes T st e st') (key : Nat) : Placed T st' key := by
  have ⟨once, held, zero, place⟩ := placed key
  cases next with
  | @search t dev_off lt pc miss =>
    refine placed_of lt fun b q e brings queues evicts queued => ?_
    simp only [pc, Pc.brings, Pc.queued, Pc.evicts] at brings queues evicts queued
    by_cases own : dev_off = key
    · subst own
      have alone : total T (Pc.brings dev_off) st = 0 := timely
      simp only [↓reduceIte, cached_of_miss miss] at *
      omega
    · simp only [if_neg own] at *
      omega
  | @enqueue t dev_off lt pc =>
    refine placed_of lt fun b q e brings queues evicts queued => ?_
    simp only [pc, Pc.brings, Pc.queued, Pc.evicts] at brings queues evicts queued
    by_cases own : dev_off = key
    · subst own
      by_cases nothing : dev_off = 0
      · subst nothing
        have none := zero rfl
        simp only [↓reduceIte, goto_root] at *
        omega
      · simp only [↓reduceIte, goto_root, if_neg nothing, Multiset.count_cons_self] at *
        omega
    · simp only [if_neg own, goto_root, count_enqueue own] at *
      omega
  | @insert t dev_off lt pc =>
    refine placed_of lt fun b q e brings queues evicts queued => ?_
    simp only [pc, Pc.brings, Pc.queued, Pc.evicts] at brings queues evicts queued
    by_cases own : dev_off = key
    · subst own
      simp only [↓reduceIte, goto_lru, cached_of_mem (Finset.mem_insert_self ..)] at *
      omega
    · simp only [if_neg own, goto_lru, cached_insert own] at *
      omega
  | full lt pc | fits lt pc =>
    refine placed_of lt fun b q e brings queues evicts queued => ?_
    simp only [pc, Pc.brings, Pc.queued, Pc.evicts] at brings queues evicts queued
    omega
  | @dequeue t lru_ret lt pc member =>
    refine placed_of lt fun b q e brings queues evicts queued => ?_
    simp only [pc, Pc.brings, Pc.queued, Pc.evicts] at brings queues evicts queued
    have there : lru_ret ∈ st.Cache_Root := timely
    by_cases own : lru_ret = key
    · subst own
      have positive := Multiset.count_pos.mpr member
      simp only [↓reduceIte, goto_root, cached_of_mem there, Multiset.count_erase_self] at *
      omega
    · simp only [if_neg own, goto_root, Multiset.count_erase_of_ne (Ne.symm own)] at *
      omega
  | hit lt pc there =>
    refine placed_of lt fun b q e brings queues evicts queued => ?_
    simp only [pc, Pc.brings, Pc.queued, Pc.evicts] at brings queues evicts queued
    omega
  | gone lt pc miss => exact absurd (evicts_cached (placed _) lt (by rw [pc, Pc.evicts, if_pos rfl]; exact Nat.one_pos)) miss
  | first lt pc there => exact absurd pc (found _)
  | @erase t lru_ret lt pc =>
    have there := evicts_cached (placed _) lt (by rw [pc, Pc.evicts, if_pos rfl]; exact Nat.one_pos)
    refine placed_of lt fun b q e brings queues evicts queued => ?_
    simp only [pc, Pc.brings, Pc.queued, Pc.evicts] at brings queues evicts queued
    by_cases own : lru_ret = key
    · subst own
      have gone := cached_of_miss (Finset.notMem_erase lru_ret st.Cache_Root)
      have here := cached_of_mem there
      simp only [↓reduceIte, gone] at *
      omega
    · simp only [if_neg own, cached_erase own] at *
      omega

/-! ### How many keys there are -/

/-- The bound holds but for the insertions under way, and while a thread makes
    room there are keys to evict. -/
structure Sized (MAX_stripes T : Nat) (st : System) : Prop where
  bounded : st.Cache_Root.card < MAX_stripes + total T Pc.inserted st
  room : 0 < total T Pc.full st → MAX_stripes + total T Pc.full st ≤ st.Cache_Root.card + T

theorem full_le (T : Nat) (st : System) : total T Pc.full st ≤ T := by
  have one : ∀ pc : Pc, pc.full ≤ 1 := fun pc => by cases pc <;> simp [Pc.full]
  calc total T Pc.full st ≤ ∑ _t ∈ Finset.range T, 1 := Finset.sum_le_sum fun t _ => one _
    _ = T := by simp

/-- What a step of one thread has to do to the sizes. -/
theorem sized_of (lt : t < T) {pc : Pc} {Cache_Root : Finset Nat} {Off_lru : Multiset Nat} {missed : Nat}
    (change : ∀ i f, i + (st.threads t).inserted = total T Pc.inserted st + pc.inserted →
      f + (st.threads t).full = total T Pc.full st + pc.full → f ≤ T →
      Cache_Root.card < MAX_stripes + i ∧ (0 < f → MAX_stripes + f ≤ Cache_Root.card + T)) :
    Sized MAX_stripes T ⟨Cache_Root, Off_lru, Function.update st.threads t pc, missed⟩ := by
  obtain ⟨bounded, room⟩ := change _ _ (total_update _ lt pc) (total_update _ lt pc) (full_le T _)
  exact ⟨bounded, room⟩

theorem sized_step (sized : Sized MAX_stripes T st)
    (hits : ∀ {t key}, t < T → st.threads t = .erase key → key ∈ st.Cache_Root)
    (next : Step MAX_stripes T st e st') : Sized MAX_stripes T st' := by
  have ⟨bounded, room⟩ := sized
  cases next with
  | @insert t dev_off lt pc =>
    refine sized_of lt fun i f inserted full few => ?_
    have most := Finset.card_insert_le dev_off st.Cache_Root
    have least := Finset.card_le_card (Finset.subset_insert dev_off st.Cache_Root)
    simp only [pc, Pc.inserted, Pc.full] at inserted full ⊢
    omega
  | @erase t key lt pc =>
    refine sized_of lt fun i f inserted full few => ?_
    have fewer := Finset.card_erase_add_one (hits lt pc)
    simp only [pc, Pc.inserted, Pc.full] at inserted full ⊢
    omega
  | search lt pc | enqueue lt pc | full lt pc | fits lt pc | dequeue lt pc | hit lt pc | gone lt pc | first lt pc =>
    refine sized_of lt fun i f inserted full few => ?_
    simp only [pc, Pc.inserted, Pc.full, goto_root] at inserted full ⊢
    omega

/-! ### Over all interleavings -/

/-- What holds between two steps. -/
structure Inv (MAX_stripes T : Nat) (st : System) : Prop where
  placed : ∀ key, Placed T st key
  found : ∀ t, st.threads t ≠ .cbegin
  missed : st.missed = 0
  sized : Sized MAX_stripes T st

theorem inv_start (some_room : 0 < MAX_stripes) : Inv MAX_stripes T System.start := by
  have none : ∀ part : Pc → Nat, part .idle = 0 → total T part System.start = 0 := fun part idle => sum_zero fun _ _ => idle
  refine ⟨fun key => ?_, fun _ => by simp [System.start], rfl, ?_, fun busy => ?_⟩
  · have brings := none (Pc.brings key) rfl
    have queued := none (Pc.queued key) rfl
    have evicts := none (Pc.evicts key) rfl
    constructor <;> simp [brings, queued, evicts, System.start, cached] at *
  · exact Nat.lt_of_lt_of_le some_room (Nat.le_add_right ..)
  · exact absurd busy (by rw [none Pc.full rfl]; exact lt_irrefl 0)

theorem erase_hits (inv : Inv MAX_stripes T st) {key : Nat} (lt : t < T) (pc : st.threads t = .erase key) :
    key ∈ st.Cache_Root :=
  evicts_cached (inv.placed key) lt (by rw [pc, Pc.evicts, if_pos rfl]; exact Nat.one_pos)

theorem inv_step (inv : Inv MAX_stripes T st) (timely : InTime T st e) (next : step MAX_stripes T e st = some st') :
    Inv MAX_stripes T st' := by
  have cases := step_cases next
  refine ⟨placed_step inv.placed timely inv.found cases, ?_, ?_, sized_step inv.sized (erase_hits inv) cases⟩
  · have others : ∀ {t pc}, pc ≠ .cbegin → ∀ u, Function.update st.threads t pc u ≠ .cbegin := fun own =>
      (Function.forall_update_iff st.threads (p := fun _ pc => pc ≠ .cbegin)).mpr ⟨own, fun u _ => inv.found u⟩
    cases cases with
    | gone lt pc miss =>
      exact absurd (evicts_cached (inv.placed _) lt (by rw [pc, Pc.evicts, if_pos rfl]; exact Nat.one_pos)) miss
    | _ => exact others (by simp)
  · cases cases with
    | erase lt pc => exact (if_pos (erase_hits inv lt pc)).trans inv.missed
    | _ => exact inv.missed

/-- A key of the map is in the queue or with a thread that evicts it. -/
theorem place_of_cached (inv : Inv MAX_stripes T st) {key : Nat} (there : key ∈ st.Cache_Root) (item : key ≠ 0) :
    st.Off_lru.count key + total T (Pc.evicts key) st = 1 := by
  have ⟨once, _, _, place⟩ := inv.placed key
  have queued : total T (Pc.queued key) st ≤ total T (Pc.brings key) st :=
    Finset.sum_le_sum fun t _ => queued_brings key _
  rw [cached_of_mem there] at once place
  rw [place item]
  omega

theorem evicts_full (keys : Finset Nat) (pc : Pc) : ∑ key ∈ keys, pc.evicts key ≤ pc.full := by
  cases pc with
  | get lru_ret | erase lru_ret =>
    simp only [Pc.evicts, Pc.full, Finset.sum_ite_eq]
    split <;> omega
  | _ => simp [Pc.evicts]

/-- With more keys than threads, the queue has a key for a thread that makes
    room. -/
theorem dequeue_finds (inv : Inv MAX_stripes T st) (few : T < MAX_stripes) (lt : t < T) (pc : st.threads t = .dequeue) :
    st.Off_lru ≠ 0 := by
  intro empty
  -- Every key but `0` would be with one of the other threads that make room.
  have hands : (st.Cache_Root.erase 0).card ≤
      ∑ u ∈ Finset.range T, ∑ key ∈ st.Cache_Root.erase 0, (st.threads u).evicts key := by
    rw [Finset.sum_comm, Finset.card_eq_sum_ones]
    refine Finset.sum_le_sum fun key member => ?_
    obtain ⟨item, there⟩ := Finset.mem_erase.mp member
    have place := place_of_cached inv there item
    rw [empty, Multiset.count_zero, Nat.zero_add] at place
    exact place.ge
  have others := sum_le_others (f := fun u => ∑ key ∈ st.Cache_Root.erase 0, (st.threads u).evicts key) lt
    fun u _ => evicts_full (st.Cache_Root.erase 0) (st.threads u)
  have card := Finset.pred_card_le_card_erase (s := st.Cache_Root) (a := 0)
  have room := inv.sized.room
  have own : ∑ key ∈ st.Cache_Root.erase 0, (st.threads t).evicts key = 0 := by
    rw [pc]
    exact Finset.sum_eq_zero fun _ _ => rfl
  have here : (st.threads t).full = 1 := by rw [pc, Pc.full]
  unfold total at room
  omega

/-- No two threads insert one key, and no key is handed out before it is in the
    map: then every eviction finds its key, no thread comes to `cbegin`, the bound
    holds but for the insertions under way, every key but `0` is in the queue or in
    the hands of one thread, and with fewer threads than keys the queue always has
    one to hand out. -/
theorem evictions_hit (some_room : 0 < MAX_stripes)
    (reachable : Reachable (step MAX_stripes T) (InTime T) System.start st) :
    st.missed = 0 ∧ (∀ t, st.threads t ≠ .cbegin) ∧ st.Cache_Root.card < MAX_stripes + total T Pc.inserted st ∧
      (∀ key ∈ st.Cache_Root, key ≠ 0 → st.Off_lru.count key + total T (Pc.evicts key) st = 1) ∧
      (T < MAX_stripes → ∀ t < T, st.threads t = .dequeue → st.Off_lru ≠ 0) := by
  have inv : Inv MAX_stripes T st := reachable.invariant (P := Inv MAX_stripes T) (inv_start some_room)
    fun inv timely next => inv_step inv timely next
  refine ⟨inv.missed, inv.found, inv.sized.bounded, fun key there item => place_of_cached inv there item, fun few t lt pc => ?_⟩
  exact dequeue_finds inv few lt pc

/-- Two threads in a cache for three keys. The last one has to make room. -/
theorem evictions_hit_two : ∃ st, Reachable (step 3 2) (InTime 2) System.start st ∧
    st.Cache_Root = {4096, 8192, 12288} ∧ st.threads 0 = .dequeue ∧ st.missed = 0 ∧ st.Off_lru ≠ 0 := by
  have result : (run (step 3 2) (InTime 2) [.search 0 4096, .search 1 8192, .call 1, .call 0, .call 0, .call 0,
      .search 0 12288, .call 1, .call 0, .call 0, .call 0] System.start).map (fun st => (st.Cache_Root, st.threads 0)) =
      some ({4096, 8192, 12288}, .dequeue) := by decide +kernel
  obtain ⟨st, reached, ended⟩ := Option.map_eq_some_iff.mp result
  obtain ⟨root, pc⟩ := Prod.mk.inj ended
  obtain ⟨missed, _, _, _, some_key⟩ := evictions_hit (by decide) (run_reachable reached)
  exact ⟨st, run_reachable reached, root, pc, missed, some_key (by decide) 0 (by decide) pc⟩

/-- Two threads that insert one key have it in the queue twice. Both evict it
    later, and one of them finds it gone: the cache stays full. -/
example : (run (step 2 2) (fun _ _ => True) [.search 0 4096, .search 1 4096, .call 0, .call 1, .call 0, .call 1, .call 0,
    .call 1, .search 0 8192, .call 0, .call 0, .call 0, .dequeue 0 4096, .call 0, .search 1 12288, .call 1, .call 1, .call 1,
    .dequeue 1 4096, .call 1, .call 1, .call 0] System.start).map (fun st => (st.Cache_Root, st.missed)) =
    some ({8192, 12288}, 1) := by
  decide +kernel

/-! ### One thread -/

section
open Cache KFifo CacheCapacity
variable {g : Geometry}

/-- A cache that no thread is in a call of. -/
def quiet (c : ParityCache) : System := ⟨(keys c).toFinset, c.Off_lru.stored, fun _ => .idle, 0⟩

theorem begin_run {MAX_stripes : Nat} {Cache_Root : Finset Nat} {Off_lru : Multiset Nat} {key : Nat}
    (miss : key ∉ Cache_Root) :
    run (step MAX_stripes 1) (InTime 1) [.search 0 key, .call 0, .call 0] ⟨Cache_Root, Off_lru, fun _ => .idle, 0⟩ =
      some ⟨insert key Cache_Root, if key = 0 then Off_lru else key ::ₘ Off_lru, Function.update (fun _ => .idle) 0 .size,
        0⟩ := by
  simp [run, step, InTime, System.goto, total, Pc.brings, miss]

theorem fits_run {MAX_stripes : Nat} {Cache_Root : Finset Nat} {Off_lru : Multiset Nat}
    (few : Cache_Root.card < MAX_stripes) :
    run (step MAX_stripes 1) (InTime 1) [.call 0] ⟨Cache_Root, Off_lru, Function.update (fun _ => .idle) 0 .size, 0⟩ =
      some ⟨Cache_Root, Off_lru, fun _ => .idle, 0⟩ := by
  simp [run, step, InTime, System.goto, Nat.not_le.mpr few]

theorem evict_run {MAX_stripes : Nat} {Cache_Root : Finset Nat} {Off_lru : Multiset Nat} {key : Nat}
    (many : MAX_stripes ≤ Cache_Root.card) (there : key ∈ Cache_Root) :
    run (step MAX_stripes 1) (InTime 1) [.call 0, .dequeue 0 key, .call 0, .call 0]
      ⟨Cache_Root, key ::ₘ Off_lru, Function.update (fun _ => .idle) 0 .size, 0⟩ =
      some ⟨Cache_Root.erase key, Off_lru, fun _ => .idle, 0⟩ := by
  simp [run, step, InTime, System.goto, many, there]

/-- A call of `insert_cpy` by one thread is a run of these steps. -/
theorem insert_cpy_run {c c' : ParityCache} {key : Nat} (inv : Cache.Inv g c) (miss : key ∉ keys c)
    (result : insert_cpy g c key g.PARITYCHUNK_NUM = some c') :
    ∃ events, run (step c.MAX_stripes 1) (InTime 1) events (quiet c) = some (quiet c') := by
  obtain ⟨lru, enqueued, queue, _, _, nodup, pending⟩ := enqueue_pending inv miss
  have entry := with_entry_keys (g := g) miss lru
  have same := with_entry_queue (g := g) miss lru
  have stripes := with_entry_stripes (g := g) miss lru
  have root : insert key (keys c).toFinset = (keys (with_entry g c key lru)).toFinset := by
    rw [entry]
    ext k
    simp
  have stored : (if key = 0 then c.Off_lru.stored else key ::ₘ c.Off_lru.stored) = lru.stored := by
    rw [pending, inv.pending, List.filter_append, ← Multiset.coe_add, Multiset.add_comm]
    by_cases zero : key = 0 <;> simp [zero]
  have card : (keys (with_entry g c key lru)).toFinset.card = (with_entry g c key lru).Cache_Root.length := by
    rw [List.toFinset_card_of_nodup (entry ▸ nodup), keys, List.length_map]
  have begins : run (step c.MAX_stripes 1) (InTime 1) [.search 0 key, .call 0, .call 0] (quiet c) =
      some ⟨(keys (with_entry g c key lru)).toFinset, lru.stored, Function.update (fun _ => .idle) 0 .size, 0⟩ := by
    rw [quiet, begin_run (by simpa using miss), root, stored]
  simp only [insert_cpy, enqueued, ↓reduceIte] at result
  split at result
  · next full =>
    have several : 2 ≤ (with_entry g c key lru).MAX_stripes := stripes ▸ inv.several
    obtain ⟨lru_ret, rest, dequeued, _, _, _, item, member, taken⟩ := dequeue_pending (c := with_entry g c key lru)
      (by rw [same]; exact queue) (entry ▸ nodup) (by rw [same, entry, pending])
      (Nat.le_trans several full)
    refine ⟨[.search 0 key, .call 0, .call 0] ++ [.call 0, .dequeue 0 lru_ret, .call 0, .call 0], ?_⟩
    have left : lru.stored = lru_ret ::ₘ rest.stored := by
      rw [← taken, pending, entry]
    rw [run_append, begins, Option.bind_some, left, evict_run (card ▸ stripes ▸ full) (by simpa using member)]
    cases found : (with_entry g c key lru).Cache_Root.lookup lru_ret with
    | none => exact absurd member ((lookup_none_iff ..).mp found)
    | some value =>
      have evicted : evict g (with_entry g c key lru) = some c' := result
      simp only [evict, dequeued, found, Option.ite_none_right_eq_some, Option.some.injEq] at evicted
      have fewer : (keys (with_entry g c key lru)).toFinset.erase lru_ret = (keys c').toFinset := by
        rw [← evicted.2, erase_keys]
        ext k
        simp [keys, and_comm]
      rw [fewer, quiet, ← evicted.2]
      rfl
  · next few =>
    refine ⟨[.search 0 key, .call 0, .call 0] ++ [.call 0], ?_⟩
    have here : c' = with_entry g c key lru := (Option.some.inj result).symm
    rw [run_append, begins, Option.bind_some, fits_run (by rw [card]; exact Nat.lt_of_not_le (stripes ▸ few)), here, quiet,
      same]

end

end Straid.CacheThreads
