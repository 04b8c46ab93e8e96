import Straid.Cache
import Straid.Interleavings

/-!
Runs of insertions into the cache of parity chunks by one thread, each for a key
that a lookup has missed. In every cache that such a run leads to, the map has
fewer entries than its bound, and the next insertion finds room in the queue of
keys and, when the map is full, evicts the key that it dequeues
(`capacity_of_misses`): the branch that takes the first entry of the map instead
is never run. The queue holds every key but `0`, which its slots have for empty,
so each key can be evicted exactly as long as `0` has not been inserted
(`evictable_iff`).
-/
namespace Straid.CacheCapacity
open Cache KFifo Interleavings

variable (g : Geometry)

/-- An insertion with a buffer for each parity chunk. -/
def insert_step (key : Nat) (c : ParityCache) : Option ParityCache := insert_cpy g c key g.PARITYCHUNK_NUM

/-- The lookup of a key finds nothing. -/
def Misses (c : ParityCache) (key : Nat) : Prop := search c key = []

instance (c : ParityCache) (key : Nat) : Decidable (Misses c key) :=
  decidable_of_iff ((search c key).isEmpty = true) List.isEmpty_iff

/-- The map after the insertion of a key, before something is evicted. -/
def with_entry (c : ParityCache) (key : Nat) (lru : KQueue) : ParityCache :=
  Cache.insert { c with Off_lru := lru } key (List.replicate g.PARITYCHUNK_NUM c.wild)

/-- No assertion of an insertion fails, and what it dequeues is a key of the
    map. -/
structure Inserts (c : ParityCache) (key : Nat) : Prop where
  enqueues : ∃ lru, c.Off_lru.enqueue 2 key = some (true, lru) ∧
    (c.MAX_stripes ≤ (with_entry g c key lru).Cache_Root.length →
      ∃ lru_ret rest, lru.dequeue 2 = some (some lru_ret, rest) ∧ lru_ret ∈ keys (with_entry g c key lru))
  returns : ∃ c', insert_cpy g c key g.PARITYCHUNK_NUM = some c'

variable {g}

theorem misses_iff {c : ParityCache} (inv : Inv g c) (key : Nat) : Misses c key ↔ key ∉ keys c := by
  have pos := g.parity_pos
  unfold Misses
  rcases search_length inv key with ⟨length, there⟩ | ⟨nothing, miss⟩
  · refine iff_of_false (fun nothing => ?_) (fun miss => miss there)
    rw [nothing, List.length_nil] at length
    omega
  · exact iff_of_true nothing miss

theorem with_entry_keys {c : ParityCache} {key : Nat} (miss : key ∉ keys c) (lru : KQueue) :
    keys (with_entry g c key lru) = keys c ++ [key] := by
  have lookup := (lookup_none_iff c.Cache_Root key).mpr miss
  simp [with_entry, Cache.insert, lookup, keys]

theorem with_entry_queue {c : ParityCache} {key : Nat} (miss : key ∉ keys c) (lru : KQueue) :
    (with_entry g c key lru).Off_lru = lru := by
  have lookup := (lookup_none_iff c.Cache_Root key).mpr miss
  simp [with_entry, Cache.insert, lookup]

theorem with_entry_stripes {c : ParityCache} {key : Nat} (miss : key ∉ keys c) (lru : KQueue) :
    (with_entry g c key lru).MAX_stripes = c.MAX_stripes := by
  have lookup := (lookup_none_iff c.Cache_Root key).mpr miss
  simp [with_entry, Cache.insert, lookup]

/-- A cache that keeps the invariant takes a key that it misses. -/
theorem inserts_of_miss {c : ParityCache} (inv : Inv g c) {key : Nat} (miss : key ∉ keys c) : Inserts g c key := by
  obtain ⟨lru, enqueued, queue, _, _, nodup, pending⟩ := enqueue_pending inv miss
  have entry := with_entry_keys (g := g) miss lru
  have same := with_entry_queue (g := g) miss lru
  constructor
  · refine ⟨lru, enqueued, fun full => ?_⟩
    have several := inv.several
    obtain ⟨lru_ret, rest, dequeued, _, _, _, _, member, _⟩ := dequeue_pending (c := with_entry g c key lru)
      (by rw [same]; exact queue) (entry ▸ nodup) (by rw [same, entry, pending]) (by omega)
    rw [same] at dequeued
    exact ⟨lru_ret, rest, dequeued, member⟩
  · obtain ⟨c', inserted, _⟩ := insert_cpy_spec inv miss
    exact ⟨c', inserted⟩

/-- An insertion keeps the invariant and the bound of the map. -/
theorem insert_keeps {c c' : ParityCache} {key : Nat} (inv : Inv g c) (miss : Misses c key)
    (next : insert_step g key c = some c') : Inv g c' ∧ c'.MAX_stripes = c.MAX_stripes := by
  obtain ⟨result, inserted, inv', _, same, _⟩ := insert_cpy_spec inv ((misses_iff inv key).mp miss)
  obtain rfl := Option.some.inj (inserted.symm.trans next)
  exact ⟨inv', same⟩

/-- After every run of insertions of missed keys the map has fewer entries than
    its bound, and takes every key that it misses without a failed assertion and
    without evicting another key than the one it dequeues. -/
theorem capacity_of_misses {maxstripes : Nat} (several : 2 ≤ maxstripes) (room : maxstripes + 64 < 10000000)
    {rands : Nat → Nat} {wild : Buf} {c : ParityCache}
    (reachable : Reachable (insert_step g) Misses (fresh maxstripes rands wild) c) :
    c.Cache_Root.length < maxstripes ∧ ∀ key, Misses c key → Inserts g c key := by
  have start : Inv g (fresh maxstripes rands wild) := fresh_inv several (Nat.le_of_lt room) rands wild
  have inv : Inv g c ∧ c.MAX_stripes = maxstripes :=
    reachable.invariant (P := fun c => Inv g c ∧ c.MAX_stripes = maxstripes) ⟨start, rfl⟩ fun {c c' key} before miss next => by
      obtain ⟨inv', same⟩ := insert_keeps before.1 miss next
      exact ⟨inv', same.trans before.2⟩
  refine ⟨inv.2 ▸ inv.1.below, fun key miss => ?_⟩
  exact inserts_of_miss inv.1 ((misses_iff inv.1 key).mp miss)

/-- Three keys, one of them `0`, in a cache for two. -/
theorem capacity_three_keys : ∃ c, Reachable (insert_step defaultGeometry) Misses (fresh 2 (fun _ => 0) (fun _ => 0)) c ∧
    c.Cache_Root.length < 2 ∧ ∀ key, Misses c key → Inserts defaultGeometry c key := by
  have result : (run (insert_step defaultGeometry) Misses [65536, 0, 131072] (fresh 2 (fun _ => 0) (fun _ => 0))).isSome =
      true := by decide +kernel
  obtain ⟨c, reached⟩ := Option.isSome_iff_exists.mp result
  have reachable := run_reachable reached
  exact ⟨c, reachable, capacity_of_misses (by decide) (by decide) reachable⟩

/-! ### Eviction -/

/-- Every key of the map is once in the queue of keys, and nothing else is. -/
structure Evictable (c : ParityCache) : Prop where
  once : ∀ key ∈ keys c, c.Off_lru.stored.count key = 1
  only : ∀ key ∈ c.Off_lru.stored, key ∈ keys c

/-- The key `0` is the only one that the queue does not hold. -/
theorem evictable_of_inv {c : ParityCache} (inv : Inv g c) : Evictable c ↔ 0 ∉ keys c := by
  have pending := inv.pending
  constructor
  · intro evictable zero
    have once := evictable.once 0 zero
    rw [pending, Multiset.coe_count, List.count_eq_zero_of_not_mem (by simp)] at once
    cases once
  · intro zero
    have all : (keys c).filter (· ≠ 0) = keys c :=
      List.filter_eq_self.mpr fun key member => by simpa using ne_of_mem_of_not_mem member zero
    rw [all] at pending
    refine ⟨fun key member => ?_, fun key member => ?_⟩
    · rw [pending, Multiset.coe_count]
      exact List.count_eq_one_of_mem inv.keys_nodup member
    · rwa [pending, Multiset.mem_coe] at member

/-- The key `0` is not evicted. -/
theorem evict_zero {c c' : ParityCache} (queue : c.Off_lru.Inv) (nodup : (keys c).Nodup)
    (pending : c.Off_lru.stored = ((keys c).filter (· ≠ 0) : Multiset Nat)) (two : 2 ≤ c.Cache_Root.length)
    (zero : 0 ∈ keys c) (evicted : evict g c = some c') : 0 ∈ keys c' := by
  obtain ⟨key, lru, dequeued, _, _, _, item, member, _⟩ := dequeue_pending queue nodup pending two
  cases found : c.Cache_Root.lookup key with
  | none => exact absurd member ((lookup_none_iff ..).mp found)
  | some value =>
    simp only [evict, dequeued, found, Option.ite_none_right_eq_some, Option.some.injEq] at evicted
    rw [← evicted.2, erase_keys, List.mem_filter]
    exact ⟨zero, by simpa using item.symm⟩

/-- Once it is inserted, the key `0` stays in the map. -/
theorem insert_zero {c c' : ParityCache} {key : Nat} (inv : Inv g c) (miss : Misses c key)
    (next : insert_step g key c = some c') : 0 ∈ keys c' ↔ 0 ∈ keys c ∨ key = 0 := by
  have absent := (misses_iff inv key).mp miss
  obtain ⟨result, inserted, _, fewer, _⟩ := insert_cpy_spec inv absent
  obtain rfl := Option.some.inj (inserted.symm.trans next)
  constructor
  · intro zero
    rcases fewer 0 zero with own | old
    · exact .inr own.symm
    · exact .inl old
  · intro zero
    obtain ⟨lru, enqueued, queue, _, _, nodup, pending⟩ := enqueue_pending inv absent
    have entry := with_entry_keys (g := g) absent lru
    have same := with_entry_queue (g := g) absent lru
    have there : 0 ∈ keys (with_entry g c key lru) := by
      rw [entry, List.mem_append, List.mem_singleton]
      exact zero.imp_right Eq.symm
    simp only [insert_step, insert_cpy, enqueued, ↓reduceIte] at next
    split at next
    · next full =>
      have several : 2 ≤ (with_entry g c key lru).MAX_stripes := with_entry_stripes (g := g) absent lru ▸ inv.several
      exact evict_zero (c := with_entry g c key lru) (by rw [same]; exact queue) (entry ▸ nodup)
        (by rw [same, entry, pending]) (Nat.le_trans several full) there next
    · rw [← Option.some.inj next]
      exact there

/-- What a run keeps, and that `0` is in the map once it has been inserted. -/
theorem zero_of_run {c c' : ParityCache} {inserted : List Nat} (inv : Inv g c)
    (result : run (insert_step g) Misses inserted c = some c') :
    Inv g c' ∧ (0 ∈ keys c' ↔ 0 ∈ keys c ∨ 0 ∈ inserted) := by
  induction inserted generalizing c with
  | nil =>
    obtain rfl := Option.some.inj result
    exact ⟨inv, by simp⟩
  | cons key inserted ih =>
    rw [run] at result
    split at result
    · next miss =>
      obtain ⟨middle, next, rest⟩ := Option.bind_eq_some_iff.mp result
      obtain ⟨inv', zero⟩ := ih (insert_keeps inv miss next).1 rest
      refine ⟨inv', zero.trans ?_⟩
      rw [insert_zero inv miss next, List.mem_cons, or_assoc, eq_comm]
    · contradiction

/-- After every run of insertions of missed keys, each key of the map can be
    evicted exactly when none of the keys inserted is `0`. -/
theorem evictable_iff {maxstripes : Nat} (several : 2 ≤ maxstripes) (room : maxstripes + 64 < 10000000)
    {rands : Nat → Nat} {wild : Buf} {inserted : List Nat} {c : ParityCache}
    (result : run (insert_step g) Misses inserted (fresh maxstripes rands wild) = some c) :
    Evictable c ↔ 0 ∉ inserted := by
  obtain ⟨inv, zero⟩ := zero_of_run (fresh_inv several (Nat.le_of_lt room) rands wild) result
  rw [evictable_of_inv inv, zero]
  simp [keys, fresh]

/-- Three keys, in a cache that holds two of them. -/
theorem evictable_three_keys : ∃ c, run (insert_step defaultGeometry) Misses [65536, 4096, 131072]
    (fresh 3 (fun _ => 0) (fun _ => 0)) = some c ∧ Evictable c := by
  have result : (run (insert_step defaultGeometry) Misses [65536, 4096, 131072]
      (fresh 3 (fun _ => 0) (fun _ => 0))).isSome = true := by decide +kernel
  obtain ⟨c, reached⟩ := Option.isSome_iff_exists.mp result
  exact ⟨c, reached, (evictable_iff (by decide) (by decide) reached).mpr (by decide)⟩

/-- The key of the first block of the first stripe is in the map, but not in the
    queue. -/
theorem zero_pinned :
    ∃ c, run (insert_step defaultGeometry) Misses [0] (fresh PCACHE_SIZE (fun _ => 0) (fun _ => 0)) = some c ∧
    keys c = [0] ∧ ¬ Evictable c := by
  have result : (run (insert_step defaultGeometry) Misses [0] (fresh PCACHE_SIZE (fun _ => 0) (fun _ => 0))).map keys =
      some [0] := by decide +kernel
  obtain ⟨c, reached, zero⟩ := Option.map_eq_some_iff.mp result
  have inv := (zero_of_run (fresh_inv (by decide) (by decide) _ _) reached).1
  refine ⟨c, reached, zero, fun evictable => (evictable_of_inv inv).mp evictable ?_⟩
  rw [zero]
  exact List.mem_cons_self

end Straid.CacheCapacity
