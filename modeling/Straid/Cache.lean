import Straid.Define
import Straid.KFifo
import Straid.Overlays
import Mathlib.Data.List.Nodup

/-!
The cache of parity chunks (`cache.h`). The concurrent map is a list of keys and
values, in the order in which its iterator visits them. A cached pointer stands
for the bytes that it points at. `Inv` ties the keys of the map to the queue of
keys that decides what is evicted, and `insert_cpy_spec` has that an insertion
keeps it, so none of its assertions fails.
-/
namespace Straid.Cache
open Overlays KFifo

/-- The cache, with the bytes behind a pointer that was never set. -/
structure ParityCache where
  Cache_Root : List (Nat × List Buf)
  MAX_stripes : Nat
  Off_lru : KQueue
  wild : Buf

/-- The size and the segment size that the constructor gives to the queue. -/
def lru_size : Nat := 10000000
def lru_k : Nat := 32

/-- The constructor. -/
def fresh (maxstripes : Nat) (rands : Nat → Nat) (wild : Buf) : ParityCache :=
  ⟨[], maxstripes, KQueue.fresh lru_size lru_k rands, wild⟩

variable (g : Geometry)

/-- `memcpy`. -/
def memcpy (dest src : Buf) (n : Nat) : Buf := overlay dest 0 n src

/-- `get`: the buffers `out` after the call. It copies no byte. -/
def get (out : Nat → Buf) (ins : List Buf) (len : Nat) : Option (Nat → Buf) :=
  if len = 0 ∨ ins.length > g.PARITYCHUNK_NUM then none
  else some fun i => match ins[i]? with
    | some src => memcpy (out i) src 0
    | none => out i

/-- `put`: the cached bytes after the call. It copies no byte either. -/
def put (out : Nat → Buf) (ins : List Buf) (len : Nat) : Option (List Buf) :=
  if len = 0 ∨ ins.length > g.PARITYCHUNK_NUM then none
  else some (ins.mapIdx fun i dest => memcpy dest (out i) 0)

def search (c : ParityCache) (dev_off : Nat) : List Buf := (c.Cache_Root.lookup dev_off).getD []

/-- `erase` of the map. -/
def erase (c : ParityCache) (key : Nat) : ParityCache :=
  { c with Cache_Root := c.Cache_Root.filter (fun e => e.1 != key) }

/-- `insert` of the map, which keeps an entry that is there. -/
def insert (c : ParityCache) (key : Nat) (value : List Buf) : ParityCache :=
  match c.Cache_Root.lookup key with
  | some _ => c
  | none => { c with Cache_Root := c.Cache_Root ++ [(key, value)] }

/-- What `insert_cpy` does when the cache is full. -/
def evict (c : ParityCache) : Option ParityCache :=
  match c.Off_lru.dequeue 2 with
  | some (some lru_ret, lru) =>
    let c := { c with Off_lru := lru }
    match c.Cache_Root.lookup lru_ret with
    | some v_delbuf => if v_delbuf.length = g.PARITYCHUNK_NUM then some (erase c lru_ret) else none
    | none =>
      match c.Cache_Root with
      | [] => none
      | itr :: _ => some (erase c itr.1)
  | _ => none

/-- `insert_cpy`, for `num_paritys` buffers. Nothing is copied from them. -/
def insert_cpy (c : ParityCache) (dev_off num_paritys : Nat) : Option ParityCache :=
  match c.Off_lru.enqueue 2 dev_off with
  | some (true, lru) =>
    if num_paritys = g.PARITYCHUNK_NUM then
      let c := insert { c with Off_lru := lru } dev_off (List.replicate num_paritys c.wild)
      if c.Cache_Root.length ≥ c.MAX_stripes then evict g c else some c
    else none
  | _ => none

/-! ### The copies -/

/-- `get` leaves the buffers as they are. -/
theorem get_eq {out : Nat → Buf} {ins : List Buf} {len : Nat} (some_len : len ≠ 0)
    (few : ins.length ≤ g.PARITYCHUNK_NUM) : get g out ins len = some out := by
  rw [get, if_neg (by omega)]
  congr 1
  funext i
  split
  · exact overlay_none _ _ _
  · rfl

/-! ### The invariant -/

/-- The keys of the map. -/
def keys (c : ParityCache) : List Nat := c.Cache_Root.map Prod.fst

/-- What holds between the calls. The queue holds every key but `0`, which it
    cannot hold. -/
structure Inv (c : ParityCache) : Prop where
  queue : c.Off_lru.Inv
  keys_nodup : (keys c).Nodup
  pending : c.Off_lru.stored = ((keys c).filter (· ≠ 0) : Multiset Nat)
  entries : ∀ e ∈ c.Cache_Root, e.2.length = g.PARITYCHUNK_NUM
  below : c.Cache_Root.length < c.MAX_stripes
  several : 2 ≤ c.MAX_stripes
  room : c.MAX_stripes + 2 * c.Off_lru.k ≤ c.Off_lru.size

variable {g}

theorem fresh_inv {maxstripes : Nat} (several : 2 ≤ maxstripes) (room : maxstripes + 64 ≤ lru_size)
    (rands : Nat → Nat) (wild : Buf) : Inv g (fresh maxstripes rands wild) where
  queue := KQueue.fresh_inv (by decide) (by decide) (by decide) rands
  keys_nodup := List.nodup_nil
  pending := KQueue.fresh_stored ..
  entries := by simp [fresh]
  below := by show 0 < maxstripes; omega
  several := several
  room := room

theorem lookup_none_iff (entries : List (Nat × List Buf)) (key : Nat) :
    entries.lookup key = none ↔ key ∉ entries.map Prod.fst := by
  induction entries with
  | nil => simp
  | cons e entries ih => cases same : key == e.1 <;> simp_all

theorem lookup_mem {entries : List (Nat × List Buf)} {key : Nat} {value : List Buf}
    (found : entries.lookup key = some value) : (key, value) ∈ entries := by
  induction entries with
  | nil => simp at found
  | cons e entries ih =>
    obtain ⟨k, v⟩ := e
    by_cases same : key = k
    · subst same
      simp only [List.lookup_cons_self, Option.some.injEq] at found
      exact found ▸ List.mem_cons_self
    · rw [List.lookup_cons, beq_false_of_ne same] at found
      exact List.mem_cons_of_mem _ (ih found)

/-- `search` finds the buffers of an entry, or nothing. -/
theorem search_length {c : ParityCache} (inv : Inv g c) (key : Nat) :
    (search c key).length = g.PARITYCHUNK_NUM ∧ key ∈ keys c ∨ search c key = [] ∧ key ∉ keys c := by
  unfold search keys
  cases found : c.Cache_Root.lookup key with
  | none => exact .inr ⟨rfl, (lookup_none_iff ..).mp found⟩
  | some value =>
    have member := lookup_mem found
    exact .inl ⟨inv.entries _ member, List.mem_map_of_mem member⟩

theorem erase_keys (c : ParityCache) (key : Nat) : keys (erase c key) = (keys c).filter (· ≠ key) := by
  unfold keys erase
  rw [List.filter_map]
  congr 1
  refine List.filter_congr fun e _ => ?_
  simp [bne, Bool.beq_eq_decide_eq]

/-- Taking the key that was dequeued out of the map takes it out of what is
    pending. -/
theorem pending_erase {ks : List Nat} (nodup : ks.Nodup) {rest : Multiset Nat} {key : Nat} (item : key ≠ 0)
    (member : key ∈ ks) (pending : (ks.filter (· ≠ 0) : Multiset Nat) = key ::ₘ rest) :
    rest = ((ks.filter (· ≠ key)).filter (· ≠ 0) : Multiset Nat) := by
  have perm : ks.Perm (key :: ks.filter (· ≠ key)) := by
    have erased := List.perm_cons_erase member
    rw [nodup.erase_eq_filter] at erased
    simpa [bne, Bool.beq_eq_decide_eq] using erased
  have pending' : (ks.filter (· ≠ 0) : Multiset Nat) = key ::ₘ ((ks.filter (· ≠ key)).filter (· ≠ 0) : Multiset Nat) := by
    rw [Multiset.cons_coe, Multiset.coe_eq_coe]
    have filtered := perm.filter (· ≠ 0)
    rwa [List.filter_cons_of_pos (by simpa using item)] at filtered
  rw [pending'] at pending
  exact ((Multiset.cons_inj_right key).mp pending).symm

/-- When the queue holds the keys of the map but `0`, and there are two of them,
    what is dequeued is a key of the map. -/
theorem dequeue_pending {c : ParityCache} (queue : c.Off_lru.Inv) (nodup : (keys c).Nodup)
    (pending : c.Off_lru.stored = ((keys c).filter (· ≠ 0) : Multiset Nat)) (two : 2 ≤ c.Cache_Root.length) :
    ∃ key lru, c.Off_lru.dequeue 2 = some (some key, lru) ∧ lru.Inv ∧ lru.size = c.Off_lru.size ∧ lru.k = c.Off_lru.k ∧
      key ≠ 0 ∧ key ∈ keys c ∧ ((keys c).filter (· ≠ 0) : Multiset Nat) = key ::ₘ lru.stored := by
  obtain ⟨answer, lru, dequeued, queue', size, k, taken, none_taken⟩ := KQueue.dequeue_spec queue 0
  cases answer with
  | none =>
    -- There are two keys, so one of them is in the queue.
    have nothing : ∀ key ∈ keys c, key = 0 := by
      have empty := (none_taken rfl).1
      rw [pending] at empty
      intro key member
      by_contra item
      have there : key ∈ (keys c).filter (· ≠ 0) := List.mem_filter.mpr ⟨member, by simpa using item⟩
      rw [(Multiset.coe_eq_zero _).mp empty] at there
      exact List.not_mem_nil there
    have one := (List.subperm_of_subset nodup fun key member => List.mem_singleton.mpr (nothing key member)).length_le
    simp only [keys, List.length_map, List.length_singleton] at one
    omega
  | some key =>
    obtain ⟨item, stored⟩ := taken key rfl
    rw [pending] at stored
    have there : key ∈ ((keys c).filter (· ≠ 0) : Multiset Nat) := stored ▸ Multiset.mem_cons_self key _
    exact ⟨key, lru, dequeued, queue', size, k, item, List.mem_of_mem_filter there, stored⟩

/-- Evicting from a full cache takes one key out of the map. -/
theorem evict_spec {c : ParityCache} (queue : c.Off_lru.Inv) (nodup : (keys c).Nodup)
    (pending : c.Off_lru.stored = ((keys c).filter (· ≠ 0) : Multiset Nat))
    (entries : ∀ e ∈ c.Cache_Root, e.2.length = g.PARITYCHUNK_NUM) (full : c.Cache_Root.length = c.MAX_stripes)
    (several : 2 ≤ c.MAX_stripes) (room : c.MAX_stripes + 2 * c.Off_lru.k ≤ c.Off_lru.size) :
    ∃ key c', evict g c = some c' ∧ Inv g c' ∧ key ∈ keys c ∧ keys c' = (keys c).filter (· ≠ key) ∧
      c'.MAX_stripes = c.MAX_stripes := by
  obtain ⟨key, lru, dequeued, queue', size, k, item, member, stored⟩ := dequeue_pending queue nodup pending (by omega)
  cases found : c.Cache_Root.lookup key with
  | none => exact absurd member ((lookup_none_iff ..).mp found)
  | some value =>
    have length := entries _ (lookup_mem found)
    have erased := erase_keys { c with Off_lru := lru } key
    refine ⟨key, erase { c with Off_lru := lru } key, ?_, ?_, member, erased, rfl⟩
    · simp only [evict, dequeued, found, length, ↓reduceIte]
    · have kept : (erase { c with Off_lru := lru } key).Cache_Root.length < c.Cache_Root.length := by
        obtain ⟨e, there, rfl⟩ := List.mem_map.mp member
        exact List.length_filter_lt_length_iff_exists.mpr ⟨e, there, by simp⟩
      exact {
        queue := queue'
        keys_nodup := by rw [erased]; exact nodup.filter _
        pending := by rw [erased]; exact pending_erase nodup item member stored
        entries := fun e there => entries e (List.mem_of_mem_filter there)
        below := by show _ < c.MAX_stripes; omega
        several := several
        room := by show c.MAX_stripes + 2 * lru.k ≤ lru.size; omega }

/-- A key that is not in the map has room in the queue, which then holds the
    keys of the map and this one. -/
theorem enqueue_pending {c : ParityCache} (inv : Inv g c) {key : Nat} (miss : key ∉ keys c) :
    ∃ lru, c.Off_lru.enqueue 2 key = some (true, lru) ∧ lru.Inv ∧ lru.size = c.Off_lru.size ∧ lru.k = c.Off_lru.k ∧
      (keys c ++ [key]).Nodup ∧ lru.stored = ((keys c ++ [key]).filter (· ≠ 0) : Multiset Nat) := by
  have below := inv.below
  have room := inv.room
  obtain ⟨answer, lru, enqueued, queue', size, k, stored, nearly⟩ := KQueue.enqueue_spec inv.queue key 0
  have few : c.Off_lru.stored.card ≤ c.Cache_Root.length := by
    rw [inv.pending, Multiset.coe_card]
    exact Nat.le_trans (List.length_filter_le _ _) (by simp [keys])
  cases answer with
  | false =>
    have := (nearly rfl).2
    omega
  | true =>
    refine ⟨lru, enqueued, queue', size, k, ?_, ?_⟩
    · refine List.nodup_append.mpr ⟨inv.keys_nodup, List.nodup_singleton key, ?_⟩
      intro a member b same
      rw [List.mem_singleton.mp same]
      exact fun eq => miss (eq ▸ member)
    · rw [stored rfl, inv.pending, List.filter_append, ← Multiset.coe_add, Multiset.add_comm]
      by_cases zero : key = 0 <;> simp [zero]

/-- Inserting a key that is not in the map does not fail. It adds no other key,
    and this one at least to an empty map. -/
theorem insert_cpy_spec {c : ParityCache} (inv : Inv g c) {key : Nat} (miss : key ∉ keys c) :
    ∃ c', insert_cpy g c key g.PARITYCHUNK_NUM = some c' ∧ Inv g c' ∧ (∀ k ∈ keys c', k = key ∨ k ∈ keys c) ∧
      c'.MAX_stripes = c.MAX_stripes ∧ (keys c = [] → key ∈ keys c') := by
  have below := inv.below
  have room := inv.room
  obtain ⟨lru, enqueued, queue', size, k, nodup, pending⟩ := enqueue_pending inv miss
  have lookup := (lookup_none_iff c.Cache_Root key).mpr miss
  have keys' : keys { c with
      Cache_Root := c.Cache_Root ++ [(key, List.replicate g.PARITYCHUNK_NUM c.wild)], Off_lru := lru } =
        keys c ++ [key] := by simp [keys]
  have entries : ∀ e ∈ c.Cache_Root ++ [(key, List.replicate g.PARITYCHUNK_NUM c.wild)],
      e.2.length = g.PARITYCHUNK_NUM := by
    intro e member
    rcases List.mem_append.mp member with old | new
    · exact inv.entries e old
    · rw [List.mem_singleton.mp new, List.length_replicate]
  by_cases full : c.Cache_Root.length + 1 ≥ c.MAX_stripes
  · obtain ⟨gone, c', evicted, inv', _, left, same⟩ := evict_spec (g := g) (c := { c with
        Cache_Root := c.Cache_Root ++ [(key, List.replicate g.PARITYCHUNK_NUM c.wild)], Off_lru := lru })
      queue' (keys' ▸ nodup) (keys' ▸ pending) entries (by simp; omega) inv.several (by simp only; omega)
    refine ⟨c', ?_, inv', ?_, same, fun empty => ?_⟩
    · simp only [insert_cpy, insert, enqueued, lookup, ↓reduceIte, List.length_append, List.length_singleton, full]
      exact evicted
    · intro k there
      rw [left, keys', List.mem_filter, List.mem_append, List.mem_singleton] at there
      tauto
    · have several := inv.several
      rw [List.map_eq_nil_iff.mp empty, List.length_nil] at full
      omega
  · refine ⟨{ c with Cache_Root := c.Cache_Root ++ [(key, List.replicate g.PARITYCHUNK_NUM c.wild)], Off_lru := lru },
      ?_, ⟨queue', keys' ▸ nodup, keys' ▸ pending, entries, ?_, inv.several, ?_⟩, ?_, rfl, fun _ => ?_⟩
    · simp only [insert_cpy, insert, enqueued, lookup, ↓reduceIte, List.length_append, List.length_singleton, full]
    · simp only [List.length_append, List.length_singleton]; omega
    · simp only; omega
    · intro k there
      rw [keys', List.mem_append, List.mem_singleton] at there
      tauto
    · rw [keys']
      exact List.mem_append_right _ List.mem_cons_self

end Straid.Cache
