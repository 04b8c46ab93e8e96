import Mathlib.Data.List.Basic
import Mathlib.Tactic.Common

/-!
Ranges of cells replaced in arrays. An array is a function of its positions
(`overlay` replaces a range of one), a family of arrays takes writes one after
another (`Write.apply`, `applyAll`). What a sequence of writes leaves in a cell
follows from which of them cover the cell: none (`applyAll_frame`), or writes
that agree on it (`applyAll_covered`).
-/
namespace Straid.Overlays

variable {ι α : Type*}

/-! ### One array -/

/-- `f` with the `len` cells from `off` on replaced by the first `len` cells of
    `data`. -/
def overlay (f : Nat → α) (off len : Nat) (data : Nat → α) : Nat → α :=
  fun i => if off ≤ i ∧ i < off + len then data (i - off) else f i

theorem overlay_inside {f data : Nat → α} {off len i : Nat} (low : off ≤ i) (high : i < off + len) :
    overlay f off len data i = data (i - off) := by
  simp [overlay, low, high]

theorem overlay_outside {f data : Nat → α} {off len i : Nat} (out : i < off ∨ off + len ≤ i) :
    overlay f off len data i = f i := by
  have not : ¬ (off ≤ i ∧ i < off + len) := by omega
  simp [overlay, not]

@[simp] theorem overlay_none (f data : Nat → α) (off : Nat) : overlay f off 0 data = f := by
  funext i
  exact overlay_outside (by omega)

theorem overlay_congr {f data other : Nat → α} {off len : Nat} (same : ∀ k < len, data k = other k) :
    overlay f off len data = overlay f off len other := by
  funext i
  unfold overlay
  split
  · exact same _ (by omega)
  · rfl

/-! ### Writes to a family of arrays -/

/-- A write of the first `len` cells of `data` to one array, from `off` on. -/
structure Write (ι α : Type*) where
  array : ι
  off : Nat
  len : Nat
  data : Nat → α

namespace Write

/-- The write replaces the cell. -/
def Covers (w : Write ι α) (d : ι) (i : Nat) : Prop :=
  w.array = d ∧ w.off ≤ i ∧ i < w.off + w.len

instance [DecidableEq ι] (w : Write ι α) (d : ι) (i : Nat) : Decidable (w.Covers d i) :=
  inferInstanceAs (Decidable (_ ∧ _ ∧ _))

/-- The family after the write. -/
def apply [DecidableEq ι] (w : Write ι α) (m : ι → Nat → α) : ι → Nat → α :=
  fun d i => if w.Covers d i then w.data (i - w.off) else m d i

theorem apply_covered [DecidableEq ι] {w : Write ι α} {m : ι → Nat → α} {d : ι} {i : Nat}
    (covers : w.Covers d i) : w.apply m d i = w.data (i - w.off) := if_pos covers

theorem apply_frame [DecidableEq ι] {w : Write ι α} {m : ι → Nat → α} {d : ι} {i : Nat}
    (out : ¬ w.Covers d i) : w.apply m d i = m d i := if_neg out

theorem apply_unit (m : Nat → α) (off len : Nat) (data : Nat → α) :
    (Write.mk () off len data).apply (fun _ => m) = fun _ => overlay m off len data := by
  funext _ i
  simp [apply, Covers, overlay]

end Write

variable [DecidableEq ι]

/-- The family after the writes, in order. -/
def applyAll (m : ι → Nat → α) (ws : List (Write ι α)) : ι → Nat → α :=
  ws.foldl (fun m w => w.apply m) m

@[simp] theorem applyAll_nil (m : ι → Nat → α) : applyAll m [] = m := rfl

@[simp] theorem applyAll_cons (m : ι → Nat → α) (w : Write ι α) (ws : List (Write ι α)) :
    applyAll m (w :: ws) = applyAll (w.apply m) ws := rfl

theorem applyAll_append (m : ι → Nat → α) (ws us : List (Write ι α)) :
    applyAll m (ws ++ us) = applyAll (applyAll m ws) us := List.foldl_append

/-- A cell that no write covers keeps its value. -/
theorem applyAll_frame {ws : List (Write ι α)} {d : ι} {i : Nat} (out : ∀ w ∈ ws, ¬ w.Covers d i)
    (m : ι → Nat → α) : applyAll m ws d i = m d i := by
  induction ws generalizing m with
  | nil => rfl
  | cons w ws ih =>
    rw [applyAll_cons, ih (fun u member => out u (List.mem_cons_of_mem _ member))]
    exact Write.apply_frame (out w List.mem_cons_self)

/-- A cell that some write covers holds `v`, when every write that covers it
    puts `v` there. -/
theorem applyAll_covered {ws : List (Write ι α)} {d : ι} {i : Nat} {v : α}
    (some_covers : ∃ w ∈ ws, w.Covers d i) (agree : ∀ w ∈ ws, w.Covers d i → w.data (i - w.off) = v)
    (m : ι → Nat → α) : applyAll m ws d i = v := by
  induction ws generalizing m with
  | nil => simp at some_covers
  | cons w ws ih =>
    rw [applyAll_cons]
    have tail : ∀ u ∈ ws, u.Covers d i → u.data (i - u.off) = v :=
      fun u member => agree u (List.mem_cons_of_mem _ member)
    by_cases later : ∃ u ∈ ws, u.Covers d i
    · exact ih later tail _
    · -- The last write to cover the cell is the first of the list.
      have out : ∀ u ∈ ws, ¬ u.Covers d i := fun u member covers => later ⟨u, member, covers⟩
      have here : w.Covers d i := by
        obtain ⟨u, member, covers⟩ := some_covers
        rcases List.mem_cons.mp member with rfl | member
        · exact covers
        · exact absurd covers (out u member)
      rw [applyAll_frame out, Write.apply_covered here]
      exact agree w List.mem_cons_self here

/-- The order of writes makes no difference to a cell where all that cover it put
    the same value. -/
theorem applyAll_perm {ws us : List (Write ι α)} (perm : ws.Perm us) {d : ι} {i : Nat} {v : α}
    (agree : ∀ w ∈ us, w.Covers d i → w.data (i - w.off) = v) (m : ι → Nat → α) : applyAll m ws d i = applyAll m us d i := by
  by_cases covered : ∃ w ∈ us, w.Covers d i
  · obtain ⟨w, member, covers⟩ := covered
    rw [applyAll_covered ⟨w, member, covers⟩ agree,
      applyAll_covered ⟨w, perm.mem_iff.mpr member, covers⟩ fun u there => agree u (perm.mem_iff.mp there)]
  · have out : ∀ w ∈ us, ¬ w.Covers d i := fun w member covers => covered ⟨w, member, covers⟩
    rw [applyAll_frame out, applyAll_frame fun w member => out w (perm.mem_iff.mp member)]

end Straid.Overlays
