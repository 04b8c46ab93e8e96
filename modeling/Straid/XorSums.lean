import Mathlib.Data.List.Basic
import Mathlib.Data.List.Perm.Basic
import Mathlib.Data.List.Nodup
import Mathlib.Data.List.Range
import Mathlib.Data.Nat.ModEq
import Mathlib.Tactic.Common

/-!
The exclusive or of a list of words of any width. It does not depend on the
order (`xorSum_perm`), every word is its own inverse (`xor_cancel`), so a word
is the sum of the others exactly when the sum of all is zero (`missing_iff`). The
numbers below `n` counted from any `s` on, modulo `n`, are the numbers below
`n` (`rotation_perm`).
-/
namespace Straid.XorSums

variable {n : Nat}

/-- The exclusive or of all words of a list. -/
def xorSum (xs : List (BitVec n)) : BitVec n := xs.foldr (· ^^^ ·) 0

@[simp] theorem xorSum_nil : xorSum ([] : List (BitVec n)) = 0 := rfl

@[simp] theorem xorSum_cons (x : BitVec n) (xs : List (BitVec n)) : xorSum (x :: xs) = x ^^^ xorSum xs := rfl

theorem xor_cancel (x y : BitVec n) : x ^^^ (x ^^^ y) = y := by
  rw [← BitVec.xor_assoc, BitVec.xor_self, BitVec.zero_xor]

/-- One word exchanged for another by adding their difference. -/
theorem xor_exchange (x y z : BitVec n) : (x ^^^ z) ^^^ (x ^^^ y) = y ^^^ z := by
  rw [BitVec.xor_comm x z, BitVec.xor_assoc, xor_cancel, BitVec.xor_comm]

theorem xorSum_append (xs ys : List (BitVec n)) : xorSum (xs ++ ys) = xorSum xs ^^^ xorSum ys := by
  induction xs with
  | nil => simp
  | cons x xs ih => simp [ih, BitVec.xor_assoc]

theorem xorSum_perm {xs ys : List (BitVec n)} (perm : xs.Perm ys) : xorSum xs = xorSum ys := by
  induction perm with
  | nil => rfl
  | cons x _ ih => simp [ih]
  | swap x y zs =>
    simp only [xorSum_cons]
    rw [← BitVec.xor_assoc, BitVec.xor_comm y x, BitVec.xor_assoc]
  | trans _ _ first second => exact first.trans second

theorem xorSum_zero {xs : List (BitVec n)} (zero : ∀ x ∈ xs, x = 0) : xorSum xs = 0 := by
  induction xs with
  | nil => rfl
  | cons x xs ih =>
    rw [xorSum_cons, zero x List.mem_cons_self, ih (fun y member => zero y (List.mem_cons_of_mem _ member))]
    simp

section
variable {ι : Type*} [DecidableEq ι] {keys : List ι}

/-- A family summed with one of its values in front. -/
theorem xorSum_split (f : ι → BitVec n) {k : ι} (member : k ∈ keys) :
    xorSum (keys.map f) = f k ^^^ xorSum ((keys.erase k).map f) := by
  rw [xorSum_perm ((List.perm_cons_erase member).map f), List.map_cons, xorSum_cons]

/-- One value of a family is the sum of the others exactly when the sum of all is
    zero. -/
theorem missing_iff (f : ι → BitVec n) {k : ι} (member : k ∈ keys) :
    xorSum ((keys.erase k).map f) = f k ↔ xorSum (keys.map f) = 0 := by
  rw [xorSum_split f member]
  exact eq_comm.trans BitVec.xor_eq_zero_iff.symm

/-- A family with one value that is not zero. -/
theorem xorSum_one (nodup : keys.Nodup) {f : ι → BitVec n} {k : ι} (member : k ∈ keys)
    (others : ∀ j ∈ keys, j ≠ k → f j = 0) : xorSum (keys.map f) = f k := by
  have rest : xorSum ((keys.erase k).map f) = 0 := by
    apply xorSum_zero
    intro x there
    obtain ⟨j, left, rfl⟩ := List.mem_map.mp there
    obtain ⟨other, inside⟩ := nodup.mem_erase_iff.mp left
    exact others j inside other
  rw [xorSum_split f member, rest]
  exact BitVec.xor_zero

/-- A family with two values that are not zero. -/
theorem xorSum_two (nodup : keys.Nodup) {f : ι → BitVec n} {k l : ι} (first : k ∈ keys) (second : l ∈ keys)
    (apart : l ≠ k) (others : ∀ j ∈ keys, j ≠ k → j ≠ l → f j = 0) : xorSum (keys.map f) = f k ^^^ f l := by
  rw [xorSum_split f first]
  congr 1
  apply xorSum_one (nodup.erase k) ((nodup.mem_erase_iff).mpr ⟨apart, second⟩)
  intro j left other
  obtain ⟨different, inside⟩ := nodup.mem_erase_iff.mp left
  exact others j inside different other

/-- A family that changes in one value changes its sum by the difference. -/
theorem xorSum_change (nodup : keys.Nodup) {f h : ι → BitVec n} {k : ι} (member : k ∈ keys)
    (others : ∀ j ∈ keys, j ≠ k → h j = f j) : xorSum (keys.map h) = xorSum (keys.map f) ^^^ (f k ^^^ h k) := by
  have rest : (keys.erase k).map h = (keys.erase k).map f := by
    refine List.map_congr_left fun j left => ?_
    obtain ⟨other, inside⟩ := nodup.mem_erase_iff.mp left
    exact others j inside other
  rw [xorSum_split h member, xorSum_split f member, rest, xor_exchange]

end

/-- Counting `n` numbers modulo `n` from `s` on meets every number below `n`
    once. -/
theorem rotation_perm (n s : Nat) : ((List.range n).map (fun j => (s + j) % n)).Perm (List.range n) := by
  have apart : ((List.range n).map (fun j => (s + j) % n)).Nodup := by
    refine List.Nodup.map_on ?_ List.nodup_range
    intro a low b high same
    have congruent : s + a ≡ s + b [MOD n] := same
    have residues := congruent.add_left_cancel'
    rw [List.mem_range] at low high
    rwa [Nat.ModEq, Nat.mod_eq_of_lt low, Nat.mod_eq_of_lt high] at residues
  refine (List.subperm_of_subset apart ?_).perm_of_length_le (by simp)
  intro x member
  obtain ⟨j, low, rfl⟩ := List.mem_map.mp member
  rw [List.mem_range] at low ⊢
  exact Nat.mod_lt _ (by omega)

end Straid.XorSums
