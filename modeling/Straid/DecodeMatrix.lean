import Straid.Syndromes
import Mathlib.Data.Fintype.Basic

/-!
The decode matrix of `ecEncoder.cc`. The fragments of data are the rows of an
encode matrix times the data. `gf_gen_decode_matrix_simple` takes the first
fragments that are not lost, inverts their rows, and makes from the inverse one
row for each lost fragment. The two functions of the library on the field of 256
elements are the parameter `Gf`. When the inversion succeeds, the inverse times
the fragments left is the data (`data_of_rows`), and every row of the decode
matrix times them is the lost fragment (`decode_matrix_recovers`).
-/
namespace Straid.DecodeMatrix
open EcEncoder Overlays XorSums Syndromes

/-- `MMAX`, the number of fragments at most. -/
def MMAX : Nat := 64

/-! ### The library -/

/-- The sum of the products of two vectors of length `k`. -/
def dot (mul : Byte → Byte → Byte) (k : Nat) (f h : Nat → Byte) : Byte :=
  xorSum ((List.range k).map fun i => mul (f i) (h i))

/-- The two functions of the library: the product in the field, and the
    inversion of a matrix with `n` rows, with what it returns and its output. -/
structure Gf where
  gf_mul : Byte → Byte → Byte
  gf_invert_matrix : Buf → Buf → Nat → Int × Buf
  mul_comm : ∀ a b, gf_mul a b = gf_mul b a
  mul_assoc : ∀ a b c, gf_mul (gf_mul a b) c = gf_mul a (gf_mul b c)
  one_mul : ∀ a, gf_mul 1 a = a
  mul_xor : ∀ a b c, gf_mul a (b ^^^ c) = gf_mul a b ^^^ gf_mul a c
  /-- Unless it fails, the output is the inverse of the input. -/
  invert_spec : ∀ in_mat out_mat n, 0 ≤ (gf_invert_matrix in_mat out_mat n).1 → ∀ i < n, ∀ j < n,
    dot gf_mul n (fun l => (gf_invert_matrix in_mat out_mat n).2 (i * n + l)) (fun l => in_mat (l * n + j)) =
      if i = j then 1 else 0

/-! ### The function -/

/-- The first loop: the fragments in error. -/
def mark_errors (frag_err_list : List Nat) : Option (Nat → Bool) :=
  frag_err_list.foldlM (fun frag_in_err e => if e < MMAX then some (Function.update frag_in_err e true) else none)
    fun _ => false

/-- The inner loop over the fragments in error, with at most `n` of them up to
    the end of the array. -/
def skip_errors (frag_in_err : Nat → Bool) : Nat → Nat → Option Nat
  | 0, _ => none
  | n + 1, r => if frag_in_err r then skip_errors frag_in_err n (r + 1) else some r

/-- The second loop, from row `i` of the matrix and fragment `r` on: the
    fragments and their rows. -/
def remaining_rows (encode_matrix : Buf) (k : Nat) (frag_in_err : Nat → Bool) :
    Nat → Nat → Nat → Buf → Option (List Nat × Buf)
  | 0, _, _, b => some ([], b)
  | n + 1, i, r, b => do
    let r ← skip_errors frag_in_err (MMAX - r) r
    let (decode_index, b) ← remaining_rows encode_matrix k frag_in_err n (i + 1) (r + 1)
      (overlay b (k * i) k fun j => encode_matrix (k * r + j))
    some (r :: decode_index, b)

/-- A loop over the fragments in error that sets the rows of some of them. -/
def set_rows (k : Nat) (chosen : Nat → Bool) (row : Nat → Nat → Byte) : List (Nat × Nat) → Buf → Buf
  | [], decode_matrix => decode_matrix
  | (e, p) :: rest, decode_matrix => set_rows k chosen row rest
      (if chosen e then overlay decode_matrix (k * p) k (row e) else decode_matrix)

/-- The matrices after a call, and the fragments that they are for. -/
structure Matrices where
  decode_matrix : Buf
  invert_matrix : Buf
  decode_index : List Nat

variable (gf : Gf)

/-- The sum of the innermost loop. -/
def parity_row (encode_matrix invert_matrix : Buf) (k e i : Nat) : Byte :=
  (List.range k).foldl (fun s j => s ^^^ gf.gf_mul (invert_matrix (j * k + i)) (encode_matrix (k * e + j))) 0

/-- `gf_gen_decode_matrix_simple`: what it returns, and the matrices after the
    call. -/
def gf_gen_decode_matrix_simple (encode_matrix : Buf) (before : Matrices) (temp_matrix : Buf) (frag_err_list : List Nat)
    (k : Nat) : Option (Int × Matrices) := do
  let frag_in_err ← mark_errors frag_err_list
  let (decode_index, b) ← remaining_rows encode_matrix k frag_in_err k 0 0 temp_matrix
  let (ret, invert_matrix) := gf.gf_invert_matrix b before.invert_matrix k
  if ret < 0 then some (-1, ⟨before.decode_matrix, invert_matrix, decode_index⟩)
  else
    let errors := frag_err_list.zipIdx
    let decode_matrix := set_rows k (fun e => e < k) (fun e j => invert_matrix (k * e + j)) errors before.decode_matrix
    let decode_matrix := set_rows k (fun e => e ≥ k) (parity_row gf encode_matrix invert_matrix k) errors decode_matrix
    some (0, ⟨decode_matrix, invert_matrix, decode_index⟩)

/-- Fragment `r` of the data `d`: its row of the encode matrix times the data. -/
def fragment (encode_matrix : Buf) (k : Nat) (d : Nat → Byte) (r : Nat) : Byte :=
  dot gf.gf_mul k (fun j => encode_matrix (k * r + j)) d

variable {gf}

/-! ### Sums of products -/

theorem mul_zero (a : Byte) : gf.gf_mul a 0 = 0 := by
  have twice := gf.mul_xor a 0 0
  rw [BitVec.xor_self, BitVec.xor_self] at twice
  exact twice

theorem mul_xorSum (a : Byte) (xs : List Byte) : gf.gf_mul a (xorSum xs) = xorSum (xs.map (gf.gf_mul a)) := by
  induction xs with
  | nil => exact mul_zero a
  | cons x xs ih => rw [xorSum_cons, gf.mul_xor, ih, List.map_cons, xorSum_cons]

theorem xorSum_xor {ι : Type*} (xs : List ι) (f h : ι → Byte) :
    xorSum (xs.map fun x => f x ^^^ h x) = xorSum (xs.map f) ^^^ xorSum (xs.map h) := by
  induction xs with
  | nil => exact (BitVec.xor_zero ..).symm
  | cons x xs ih =>
    simp only [List.map_cons, xorSum_cons, ih]
    ac_rfl

/-- The order of two sums does not matter. -/
theorem xorSum_comm {ι κ : Type*} (xs : List ι) (ys : List κ) (f : ι → κ → Byte) :
    xorSum (xs.map fun x => xorSum (ys.map (f x))) = xorSum (ys.map fun y => xorSum (xs.map fun x => f x y)) := by
  induction xs with
  | nil => exact (xorSum_zero (by simp)).symm
  | cons x xs ih => simp only [List.map_cons, xorSum_cons, ih, xorSum_xor]

theorem dot_congr {k : Nat} {f f' h h' : Nat → Byte} (left : ∀ i < k, f i = f' i) (right : ∀ i < k, h i = h' i) :
    dot gf.gf_mul k f h = dot gf.gf_mul k f' h' := by
  refine congrArg xorSum (List.map_congr_left fun i member => ?_)
  rw [left i (List.mem_range.mp member), right i (List.mem_range.mp member)]

/-- A vector times a matrix times a vector, from either side. -/
theorem dot_assoc (k : Nat) (f d : Nat → Byte) (m : Nat → Nat → Byte) :
    dot gf.gf_mul k f (fun i => dot gf.gf_mul k (m i) d) = dot gf.gf_mul k (fun j => dot gf.gf_mul k f (m · j)) d := by
  have left : ∀ i, gf.gf_mul (f i) (dot gf.gf_mul k (m i) d) =
      xorSum ((List.range k).map fun j => gf.gf_mul (gf.gf_mul (f i) (m i j)) (d j)) := by
    intro i
    rw [dot, mul_xorSum, List.map_map]
    exact congrArg xorSum (List.map_congr_left fun j _ => (gf.mul_assoc ..).symm)
  have right : ∀ j, gf.gf_mul (dot gf.gf_mul k f (m · j)) (d j) =
      xorSum ((List.range k).map fun i => gf.gf_mul (gf.gf_mul (f i) (m i j)) (d j)) := by
    intro j
    rw [gf.mul_comm, dot, mul_xorSum, List.map_map]
    exact congrArg xorSum (List.map_congr_left fun i _ => gf.mul_comm ..)
  simp only [dot] at left right ⊢
  rw [List.map_congr_left fun i _ => left i, xorSum_comm, List.map_congr_left fun j _ => right j]

/-- A row of the identity times a vector. -/
theorem dot_unit {k e : Nat} (inside : e < k) (d : Nat → Byte) :
    dot gf.gf_mul k (fun j => if e = j then 1 else 0) d = d e := by
  rw [dot, xorSum_one List.nodup_range (List.mem_range.mpr inside), if_pos rfl, gf.one_mul]
  intro j _ other
  rw [if_neg (Ne.symm other), gf.mul_comm, mul_zero]

theorem parity_row_eq (encode_matrix invert_matrix : Buf) (k e i : Nat) :
    parity_row gf encode_matrix invert_matrix k e i =
      dot gf.gf_mul k (fun j => encode_matrix (k * e + j)) (fun j => invert_matrix (j * k + i)) := by
  have folded : ∀ (xs : List Nat) (s : Byte),
      xs.foldl (fun s j => s ^^^ gf.gf_mul (invert_matrix (j * k + i)) (encode_matrix (k * e + j))) s =
        s ^^^ xorSum (xs.map fun j => gf.gf_mul (encode_matrix (k * e + j)) (invert_matrix (j * k + i))) := by
    intro xs
    induction xs with
    | nil => exact fun s => (BitVec.xor_zero ..).symm
    | cons x xs ih =>
      intro s
      rw [List.foldl_cons, ih, List.map_cons, xorSum_cons, gf.mul_comm, BitVec.xor_assoc]
  rw [parity_row, folded]
  exact BitVec.zero_xor

/-! ### The fragments that are left -/

/-- The fragments from `r` on that are not in error, out of `m`. -/
def left (frag_in_err : Nat → Bool) (m r : Nat) : List Nat := (List.range' r (m - r)).filter fun x => !frag_in_err x

theorem left_step (frag_in_err : Nat → Bool) {m r : Nat} (inside : r < m) :
    left frag_in_err m r = if frag_in_err r then left frag_in_err m (r + 1) else r :: left frag_in_err m (r + 1) := by
  obtain ⟨n, count⟩ : ∃ n, m - r = n + 1 := ⟨m - r - 1, by omega⟩
  rw [left, left, count, List.range'_succ, List.filter_cons, show m - (r + 1) = n by omega]
  cases frag_in_err r <;> rfl

theorem inside_of_left {frag_in_err : Nat → Bool} {m r : Nat} (some_left : left frag_in_err m r ≠ []) : r < m := by
  by_contra out
  simp [left, show m - r = 0 by omega] at some_left

theorem mark_errors_from {frag_err_list : List Nat} (range : ∀ e ∈ frag_err_list, e < MMAX) (before : Nat → Bool) :
    ∃ frag_in_err, frag_err_list.foldlM
      (fun frag_in_err e => if e < MMAX then some (Function.update frag_in_err e true) else none) before =
        some frag_in_err ∧ ∀ x, frag_in_err x = true ↔ x ∈ frag_err_list ∨ before x = true := by
  induction frag_err_list generalizing before with
  | nil => exact ⟨before, rfl, by simp⟩
  | cons e rest ih =>
    obtain ⟨frag_in_err, marked, which⟩ :=
      ih (fun x member => range x (List.mem_cons_of_mem _ member)) (Function.update before e true)
    refine ⟨frag_in_err, ?_, fun x => ?_⟩
    · rw [List.foldlM_cons, if_pos (range e List.mem_cons_self), Option.bind_eq_bind, Option.bind_some, marked]
    · rw [which, Function.update_apply, List.mem_cons]
      by_cases same : x = e <;> simp [same]

theorem mark_errors_eq {frag_err_list : List Nat} (range : ∀ e ∈ frag_err_list, e < MMAX) :
    ∃ frag_in_err, mark_errors frag_err_list = some frag_in_err ∧
      ∀ x, frag_in_err x = true ↔ x ∈ frag_err_list := by
  obtain ⟨frag_in_err, marked, which⟩ := mark_errors_from range fun _ => false
  exact ⟨frag_in_err, marked, fun x => by simpa using which x⟩

/-- The inner loop finds the first fragment that is left. -/
theorem skip_errors_eq {frag_in_err : Nat → Bool} {m : Nat} {n r : Nat} (enough : m - r ≤ n)
    (some_left : left frag_in_err m r ≠ []) :
    ∃ s, skip_errors frag_in_err n r = some s ∧ left frag_in_err m r = s :: left frag_in_err m (s + 1) := by
  induction n generalizing r with
  | zero =>
    have inside := inside_of_left some_left
    omega
  | succ n ih =>
    have inside := inside_of_left some_left
    have here := left_step frag_in_err inside
    rw [skip_errors]
    cases error : frag_in_err r with
    | false =>
      rw [error] at here
      exact ⟨r, by simp, here⟩
    | true =>
      rw [error, if_pos rfl] at here
      rw [here] at some_left ⊢
      exact ih (by omega) some_left

/-- The second loop takes the first fragments that are left, as many as it needs,
    and copies their rows. -/
theorem remaining_rows_eq (encode_matrix : Buf) {k : Nat} {frag_in_err : Nat → Bool} {m : Nat} (most : m ≤ MMAX)
    {n i r : Nat} (enough : n ≤ (left frag_in_err m r).length) (before : Buf) :
    ∃ b, remaining_rows encode_matrix k frag_in_err n i r before = some ((left frag_in_err m r).take n, b) ∧
      (∀ l x, ((left frag_in_err m r).take n)[l]? = some x → ∀ j < k, b (k * (i + l) + j) = encode_matrix (k * x + j)) ∧
      ∀ c < k * i, b c = before c := by
  induction n generalizing i r before with
  | zero => exact ⟨before, rfl, by simp, fun _ _ => rfl⟩
  | succ n ih =>
    have some_left : left frag_in_err m r ≠ [] := List.ne_nil_of_length_pos (Nat.lt_of_lt_of_le (Nat.succ_pos n) enough)
    obtain ⟨s, found, first⟩ := skip_errors_eq (show m - r ≤ MMAX - r by omega) some_left
    rw [first, List.length_cons] at enough
    rw [first, List.take_succ_cons]
    obtain ⟨b, rest, rows, frame⟩ := ih (i := i + 1) (r := s + 1) (by omega)
      (overlay before (k * i) k fun j => encode_matrix (k * s + j))
    refine ⟨b, ?_, ?_, ?_⟩
    · simp only [remaining_rows, found, rest, Option.bind_eq_bind, Option.bind_some]
    · intro l x here j lt
      cases l with
      | zero =>
        obtain rfl := Option.some.inj here
        rw [Nat.add_zero, frame _ (by rw [Nat.mul_succ]; omega), overlay_inside (by omega) (by omega),
          Nat.add_sub_cancel_left]
      | succ l =>
        rw [show i + (l + 1) = i + 1 + l by omega]
        exact rows l x here j lt
    · intro c before_row
      rw [frame c (by rw [Nat.mul_succ]; omega), overlay_outside (.inl before_row)]

/-- The fragments that are left are those that are not in the list. -/
theorem left_eq {frag_in_err : Nat → Bool} {frag_err_list : List Nat}
    (which : ∀ x, frag_in_err x = true ↔ x ∈ frag_err_list) (m : Nat) :
    left frag_in_err m 0 = (List.range m).filter fun x => x ∉ frag_err_list := by
  rw [left, Nat.sub_zero, ← List.range_eq_range']
  refine List.filter_congr fun x _ => ?_
  simp only [← which]
  cases frag_in_err x <;> rfl

/-- Of `m` fragments, as many are left as are not in the list. -/
theorem left_enough {frag_err_list : List Nat} {k m : Nat} (enough : k + frag_err_list.length ≤ m) :
    k ≤ ((List.range m).filter fun x => x ∉ frag_err_list).length := by
  have split := List.length_eq_length_filter_add (l := List.range m) fun x => x ∈ frag_err_list
  have few : ((List.range m).filter fun x => x ∈ frag_err_list).length ≤ frag_err_list.length := by
    refine (List.subperm_of_subset (List.nodup_range.filter _) fun x member => ?_).length_le
    exact of_decide_eq_true (List.mem_filter.mp member).2
  simp only [List.length_range, ← decide_not] at split
  omega

/-! ### The rows of the decode matrix -/

theorem set_rows_before {k : Nat} {chosen : Nat → Bool} {row : Nat → Nat → Byte} (errors : List Nat) {first p j : Nat}
    (low : p < first) (inside : j < k) (decode_matrix : Buf) :
    set_rows k chosen row (errors.zipIdx first) decode_matrix (k * p + j) = decode_matrix (k * p + j) := by
  induction errors generalizing first decode_matrix with
  | nil => rfl
  | cons e rest ih =>
    rw [List.zipIdx_cons, set_rows, ih (by omega)]
    split
    · have apart : k * p + k ≤ k * first := Nat.mul_le_mul_left k low
      exact overlay_outside (.inl (by omega))
    · rfl

theorem set_rows_at {k : Nat} (chosen : Nat → Bool) (row : Nat → Nat → Byte) (errors : List Nat) (first : Nat)
    {n e j : Nat} (here : errors[n]? = some e) (inside : j < k) (decode_matrix : Buf) :
    set_rows k chosen row (errors.zipIdx first) decode_matrix (k * (first + n) + j) =
      if chosen e then row e j else decode_matrix (k * (first + n) + j) := by
  induction errors generalizing first n decode_matrix with
  | nil => simp at here
  | cons head rest ih =>
    rw [List.zipIdx_cons, set_rows]
    cases n with
    | zero =>
      obtain rfl := Option.some.inj here
      rw [show first + 0 = first from rfl, set_rows_before rest (Nat.lt_add_one first) inside]
      split
      · rw [overlay_inside (by omega) (by omega), Nat.add_sub_cancel_left]
      · rfl
    | succ n =>
      rw [show first + (n + 1) = first + 1 + n by omega, ih (first + 1) (by simpa using here)]
      have apart : k * first + k ≤ k * (first + 1 + n) := by
        rw [← Nat.mul_succ]
        exact Nat.mul_le_mul_left k (by omega)
      split
      · rfl
      · split
        · exact overlay_outside (.inr (by omega))
        · rfl

/-- The row for a fragment in error after both loops. -/
theorem rows_of_errors {k : Nat} (source parity : Nat → Nat → Byte) {errors : List Nat} {p e : Nat}
    (here : errors[p]? = some e) (decode_matrix : Buf) : ∀ j < k, set_rows k (fun e => e ≥ k) parity errors.zipIdx
        (set_rows k (fun e => e < k) source errors.zipIdx decode_matrix) (k * p + j) =
      if e < k then source e j else parity e j := by
  intro j inside
  have parities := set_rows_at (k := k) (fun e => e ≥ k) parity errors 0 here inside
  have sources := set_rows_at (k := k) (fun e => e < k) source errors 0 here inside
  rw [Nat.zero_add] at parities sources
  rw [parities, sources]
  by_cases small : e < k
  · rw [if_neg (by simpa using small), if_pos (by simpa using small), if_pos small]
  · rw [if_pos (by simpa using small), if_neg small]

/-! ### Recovery -/

/-- The inverse of the rows of the fragments left, times these fragments, is the
    data. -/
theorem data_of_rows {encode_matrix b out : Buf} {k : Nat} {decode_index : List Nat} (length : decode_index.length = k)
    (rows : ∀ l x, decode_index[l]? = some x → ∀ j < k, b (k * l + j) = encode_matrix (k * x + j))
    (inverted : 0 ≤ (gf.gf_invert_matrix b out k).1) (d : Nat → Byte) {e : Nat} (inside : e < k) :
    dot gf.gf_mul k (fun l => (gf.gf_invert_matrix b out k).2 (k * e + l))
      (fun l => fragment gf encode_matrix k d (decode_index.getD l 0)) = d e := by
  have copied : ∀ l < k, fragment gf encode_matrix k d (decode_index.getD l 0) =
      dot gf.gf_mul k (fun j => b (l * k + j)) d := by
    intro l lt
    have there : decode_index[l]? = some (decode_index.getD l 0) := by
      rw [List.getD_eq_getElem?_getD, List.getElem?_eq_getElem (by omega), Option.getD_some]
    refine dot_congr (fun j small => ?_) fun _ _ => rfl
    rw [Nat.mul_comm l k]
    exact (rows l _ there j small).symm
  have unit : ∀ j < k, dot gf.gf_mul k (fun l => (gf.gf_invert_matrix b out k).2 (k * e + l)) (fun l => b (l * k + j)) =
      if e = j then 1 else 0 := by
    intro j small
    rw [Nat.mul_comm k e]
    exact gf.invert_spec b out k inverted e inside j small
  rw [dot_congr (fun _ _ => rfl) copied, dot_assoc k _ d fun l j => b (l * k + j), dot_congr unit fun _ _ => rfl,
    dot_unit inside]

/-- The row of a lost parity: its own row of the encode matrix times the
    inverse. -/
theorem parity_of_rows {encode_matrix b out : Buf} {k : Nat} {decode_index : List Nat} (length : decode_index.length = k)
    (rows : ∀ l x, decode_index[l]? = some x → ∀ j < k, b (k * l + j) = encode_matrix (k * x + j))
    (inverted : 0 ≤ (gf.gf_invert_matrix b out k).1) (d : Nat → Byte) (e : Nat) :
    dot gf.gf_mul k (parity_row gf encode_matrix (gf.gf_invert_matrix b out k).2 k e)
      (fun l => fragment gf encode_matrix k d (decode_index.getD l 0)) = fragment gf encode_matrix k d e := by
  have data : ∀ j < k, dot gf.gf_mul k (fun l => (gf.gf_invert_matrix b out k).2 (j * k + l))
      (fun l => fragment gf encode_matrix k d (decode_index.getD l 0)) = d j := by
    intro j small
    rw [Nat.mul_comm j k]
    exact data_of_rows length rows inverted d small
  rw [dot_congr (fun i _ => parity_row_eq ..) fun _ _ => rfl,
    ← dot_assoc k _ _ fun j i => (gf.gf_invert_matrix b out k).2 (j * k + i), dot_congr (fun _ _ => rfl) data]
  rfl

/-- With no more fragments lost than parities, the call takes the first `k`
    fragments that are not lost and inverts their rows. If that succeeds, each
    row of the decode matrix times those fragments is the lost fragment that the
    row is for, whatever the data; if not, the decode matrix is as before. -/
theorem decode_matrix_recovers (gf : Gf) {encode_matrix temp_matrix : Buf} {before : Matrices} {frag_err_list : List Nat}
    {k m : Nat} (range : ∀ e ∈ frag_err_list, e < m) (most : m ≤ MMAX) (enough : k + frag_err_list.length ≤ m) :
    ∃ ret after b, gf_gen_decode_matrix_simple gf encode_matrix before temp_matrix frag_err_list k = some (ret, after) ∧
      after.decode_index = ((List.range m).filter fun x => x ∉ frag_err_list).take k ∧ after.decode_index.length = k ∧
      (∀ l x, after.decode_index[l]? = some x → ∀ j < k, b (k * l + j) = encode_matrix (k * x + j)) ∧
      ((gf.gf_invert_matrix b before.invert_matrix k).1 < 0 → ret = -1 ∧ after.decode_matrix = before.decode_matrix) ∧
      (0 ≤ (gf.gf_invert_matrix b before.invert_matrix k).1 → ret = 0 ∧
        ∀ (d : Nat → Byte) (p e : Nat), frag_err_list[p]? = some e →
          dot gf.gf_mul k (fun i => after.decode_matrix (k * p + i))
            (fun l => fragment gf encode_matrix k d (after.decode_index.getD l 0)) =
              if e < k then d e else fragment gf encode_matrix k d e) := by
  obtain ⟨frag_in_err, marked, which⟩ := mark_errors_eq fun e member => Nat.lt_of_lt_of_le (range e member) most
  have first := left_eq which m
  have count := left_enough enough
  obtain ⟨b, taken, rows, -⟩ := remaining_rows_eq encode_matrix most (k := k) (i := 0) (n := k) (r := 0)
    (by rw [first]; exact count) temp_matrix
  simp only [Nat.zero_add, first] at taken rows
  have length : (((List.range m).filter fun x => x ∉ frag_err_list).take k).length = k :=
    List.length_take_of_le count
  simp only [gf_gen_decode_matrix_simple, marked, taken, Option.bind_eq_bind, Option.bind_some]
  by_cases failed : (gf.gf_invert_matrix b before.invert_matrix k).1 < 0
  · rw [if_pos failed]
    exact ⟨-1, _, b, rfl, rfl, length, rows, fun _ => ⟨rfl, rfl⟩, fun inverted => by omega⟩
  rw [if_neg failed]
  refine ⟨0, _, b, rfl, rfl, length, rows, fun negative => absurd negative failed, ?_⟩
  refine fun inverted => ⟨rfl, fun d p e here => ?_⟩
  have row := rows_of_errors (k := k) (fun e j => (gf.gf_invert_matrix b before.invert_matrix k).2 (k * e + j))
    (parity_row gf encode_matrix (gf.gf_invert_matrix b before.invert_matrix k).2 k) here
    before.decode_matrix
  by_cases source : e < k
  · simp only [if_pos source] at row ⊢
    rw [dot_congr (row) fun _ _ => rfl]
    exact data_of_rows length rows inverted d source
  · simp only [if_neg source] at row ⊢
    rw [dot_congr (row) fun _ _ => rfl]
    exact parity_of_rows length rows inverted d e

/-! ### A field, and two lost fragments of four -/

/-- The product of two elements: the sum of the powers of the generator for the
    bits of the second, each times the first. -/
def times (a b : Byte) : Byte := xorSum ((List.range 8).map fun i => if b.getLsbD i then gf_mul2^[i] a else 0)

theorem times_xor (a b c : Byte) : times a (b ^^^ c) = times a b ^^^ times a c := by
  rw [times, times, times, ← xorSum_xor]
  refine congrArg xorSum (List.map_congr_left fun i _ => ?_)
  rw [BitVec.getLsbD_xor]
  cases b.getLsbD i <;> cases c.getLsbD i <;> simp

theorem power_xor (i : Nat) (a b : Byte) : gf_mul2^[i] (a ^^^ b) = gf_mul2^[i] a ^^^ gf_mul2^[i] b := by
  induction i with
  | zero => rfl
  | succ i ih => rw [Function.iterate_succ_apply', Function.iterate_succ_apply', Function.iterate_succ_apply', ih,
      gf_mul2_xor]

theorem xor_times (a b c : Byte) : times (a ^^^ b) c = times a c ^^^ times b c := by
  rw [times, times, times, ← xorSum_xor]
  refine congrArg xorSum (List.map_congr_left fun i _ => ?_)
  rw [power_xor]
  cases c.getLsbD i <;> simp

/-- Two additive functions that agree on the bytes with one bit are equal. -/
theorem eq_of_bits {f h : Byte → Byte} (left : ∀ a b, f (a ^^^ b) = f a ^^^ f b)
    (right : ∀ a b, h (a ^^^ b) = h a ^^^ h b) (bits : ∀ i < 8, f (1 <<< i) = h (1 <<< i)) (a : Byte) : f a = h a := by
  have zero : ∀ {q : Byte → Byte}, (∀ a b, q (a ^^^ b) = q a ^^^ q b) → q 0 = 0 := by
    intro q additive
    have twice := additive 0 0
    rw [BitVec.xor_self, BitVec.xor_self] at twice
    exact twice
  have sums : ∀ {q : Byte → Byte}, (∀ a b, q (a ^^^ b) = q a ^^^ q b) →
      ∀ xs, q (xorSum xs) = xorSum (xs.map q) := by
    intro q additive xs
    induction xs with
    | nil => exact zero additive
    | cons x xs ih => rw [xorSum_cons, additive, ih, List.map_cons, xorSum_cons]
  have whole : ∀ a : Byte, a = xorSum ((List.range 8).map fun i => if a.getLsbD i then 1 <<< i else 0) := by
    decide +kernel
  rw [whole a, sums left, sums right, List.map_map, List.map_map]
  refine congrArg xorSum (List.map_congr_left fun i member => ?_)
  rw [Function.comp_apply, Function.comp_apply]
  split
  · exact bits i (List.mem_range.mp member)
  · rw [zero left, zero right]

theorem times_comm (a b : Byte) : times a b = times b a := by
  refine eq_of_bits (f := (times · b)) (fun a c => xor_times a c b) (times_xor b) (fun i small => ?_) a
  refine eq_of_bits (f := times (1 <<< i)) (h := (times · (1 <<< i))) (times_xor _) (fun b c => xor_times b c _)
    (fun j small' => ?_) b
  have bits : ∀ i < 8, ∀ j < 8, times (1 <<< i) (1 <<< j) = times (1 <<< j) (1 <<< i) := by decide +kernel
  exact bits i small j small'

theorem times_assoc (a b c : Byte) : times (times a b) c = times a (times b c) := by
  refine eq_of_bits (f := fun a => times (times a b) c) (h := (times · (times b c))) (fun a d => by simp only [xor_times])
    (fun a d => xor_times a d _) (fun i small => ?_) a
  refine eq_of_bits (f := fun b => times (times (1 <<< i) b) c) (h := fun b => times (1 <<< i) (times b c))
    (fun b d => by simp only [xor_times, times_xor]) (fun b d => by simp only [xor_times, times_xor])
    (fun j small' => ?_) b
  refine eq_of_bits (f := times (times (1 <<< i) (1 <<< j))) (h := fun c => times (1 <<< i) (times (1 <<< j) c))
    (times_xor _) (fun c d => by simp only [times_xor]) (fun l small'' => ?_) c
  have bits : ∀ i < 8, ∀ j < 8, ∀ l < 8,
      times (times (1 <<< i) (1 <<< j)) (1 <<< l) = times (1 <<< i) (times (1 <<< j) (1 <<< l)) := by decide +kernel
  exact bits i small j small' l small''

/-- The field with the polynomial of `gf_mul2`, and an inversion that finds the
    matrices that are their own inverses. -/
def reference : Gf where
  gf_mul := times
  gf_invert_matrix in_mat out_mat n :=
    if ∀ i < n, ∀ j < n, dot times n (fun l => in_mat (i * n + l)) (fun l => in_mat (l * n + j)) = if i = j then 1 else 0
    then (0, in_mat) else (-1, out_mat)
  mul_comm := times_comm
  mul_assoc := times_assoc
  one_mul := by decide +kernel
  mul_xor := times_xor
  invert_spec in_mat out_mat n inverted := by
    split at inverted
    · rw [if_pos ‹_›]
      assumption
    · omega

/-- Data in two fragments, and two parities: the sum, and the sum with the
    second doubled. -/
def four_fragments : Buf := fun x => ([1, 0, 0, 1, 1, 1, 1, 2] : List Byte).getD x 0

theorem decode_matrix_recovers_two : ∃ ret after b,
    gf_gen_decode_matrix_simple reference four_fragments ⟨fun _ => 0, fun _ => 0, []⟩ (fun _ => 0) [1, 3] 2 =
        some (ret, after) ∧
      after.decode_index = ((List.range 4).filter fun x => x ∉ [1, 3]).take 2 ∧ after.decode_index.length = 2 ∧
      (∀ l x, after.decode_index[l]? = some x → ∀ j < 2, b (2 * l + j) = four_fragments (2 * x + j)) ∧
      ((reference.gf_invert_matrix b (fun _ => 0) 2).1 < 0 → ret = -1 ∧ after.decode_matrix = fun _ => 0) ∧
      (0 ≤ (reference.gf_invert_matrix b (fun _ => 0) 2).1 → ret = 0 ∧
        ∀ (d : Nat → Byte) (p e : Nat), [1, 3][p]? = some e →
          dot times 2 (fun i => after.decode_matrix (2 * p + i))
            (fun l => fragment reference four_fragments 2 d (after.decode_index.getD l 0)) =
              if e < 2 then d e else fragment reference four_fragments 2 d e) :=
  decode_matrix_recovers reference (m := 4) (by decide) (by decide) (by decide)

end Straid.DecodeMatrix
