import Straid.TraceLoader
import Mathlib.Data.List.TakeWhile

/-!
The text of a trace. `str_split` cuts a line at every tab (`str_split_eq`), and
`atoll` reads the digits of a number back (`atoll_digits`). So a printed trace is
loaded record by record (`load_print`), whatever fields follow the first three and
with empty lines in between; and the loader indexes past the fields of a line
exactly when a line that is not empty has fewer than two tabs (`loads_iff`).
-/
namespace Straid.TraceText
open TraceLoader TraceReplay Alignments

/-! ### The code -/

/-- `find_first_of`, from a position on; `none` is `npos`. -/
def find_first_of (str delims : List Char) (pos : Nat) : Option Nat :=
  ((str.drop pos).findIdx? fun c => delims.contains c).map (pos + ·)

/-- `substr`, where a length past the end is cut. -/
def substr (str : List Char) (pos len : Nat) : List Char := (str.drop pos).take len

/-- The loop of `str_split`, for a number of rounds. -/
def split_rounds (str delims : List Char) : Nat → Nat → List (List Char)
  | 0, _ => []
  | rounds + 1, previous =>
    match find_first_of str delims previous with
    | some current => substr str previous (current - previous) :: split_rounds str delims rounds (current + 1)
    | none => [substr str previous str.length]

/-- `str_split`. Every round but the last moves past a delimiter. -/
def str_split (str delims : List Char) : List (List Char) := split_rounds str delims (str.length + 1) 0

/-- `isspace` in the C locale. -/
def isspace (c : Char) : Bool := c = ' ' || (9 ≤ c.toNat && c.toNat ≤ 13)

/-- The digits at the start of a text, as a number. -/
def leading (s : List Char) : Int := Nat.ofDigitChars 10 (s.takeWhile Char.isDigit) 0

/-- `atoll`, which stops at the bounds of a `long long`. -/
def atoll (s : List Char) : Int :=
  match s.dropWhile isspace with
  | '-' :: s => max (-leading s) (-2 ^ 63)
  | '+' :: s => min (leading s) (2 ^ 63 - 1)
  | s => min (leading s) (2 ^ 63 - 1)

/-- `getline`: the next line and the text after it. -/
def getline (text : List Char) : Option (List Char × List Char) :=
  if text = [] then none else some (text.takeWhile (· != '\n'), (text.dropWhile (· != '\n')).tail)

/-- The lines that calls of `getline` return. Every call takes a character. -/
def read_lines : Nat → List Char → List (List Char)
  | 0, _ => []
  | rounds + 1, text =>
    match getline text with
    | none => []
    | some (line, rest) => line :: read_lines rounds rest

def trace_lines (text : List Char) : List (List Char) := read_lines text.length text

/-- The record of a line. There is none when the line has no third field. -/
def read_record (line : List Char) : Option Record :=
  match str_split line ['\t'] with
  | dir :: off :: len :: _ =>
    some ⟨if dir = ['R'] then .R else if dir = ['W'] then .W else .other, ⟨ofInt (atoll off), ofInt (atoll len)⟩⟩
  | _ => none

variable (g : Geometry)

/-- The loop over the lines of a trace file. -/
def load_lines : List (List Char) → Option (List Request)
  | [] => some []
  | line :: lines =>
    if line = [] then load_lines lines
    else do
      let r ← read_record line
      let rest ← load_lines lines
      some ((load g r).toList ++ rest)

def load_trace (text : List Char) : Option (List Request) := load_lines g (trace_lines text)

/-! ### Traces -/

/-- The fields of a line. -/
structure Row where
  dir : List Char
  offset : Nat
  length : Nat
  others : List (List Char)
  deriving DecidableEq, Repr

namespace Row

def fields (row : Row) : List (List Char) :=
  row.dir :: Nat.toDigits 10 row.offset :: Nat.toDigits 10 row.length :: row.others

def line (row : Row) : List Char := ['\t'].intercalate row.fields

/-- What the loader is to make of a line. -/
def record (row : Row) : Record :=
  ⟨if row.dir = ['R'] then .R else if row.dir = ['W'] then .W else .other, ⟨row.offset, row.length⟩⟩

/-- No text has a tab or the end of a line, and the numbers are in the range of a
    `long long`. -/
@[mk_iff]
structure Plain (row : Row) : Prop where
  texts : ∀ field ∈ row.dir :: row.others, '\t' ∉ field ∧ '\n' ∉ field
  offset : row.offset < 2 ^ 63
  length : row.length < 2 ^ 63

instance (row : Row) : Decidable row.Plain := decidable_of_iff' _ (plain_iff row)

end Row

/-- The text of a trace; `none` is an empty line. -/
def print (rows : List (Option Row)) : List Char := rows.flatMap fun row => (row.elim [] Row.line) ++ ['\n']

/-! ### Splitting -/

theorem split_rounds_eq (str delims : List Char) {rounds previous : Nat} (enough : (str.drop previous).length < rounds) :
    split_rounds str delims rounds previous = (str.drop previous).splitOnP fun c => delims.contains c := by
  induction rounds generalizing previous with
  | zero => exact absurd enough (Nat.not_lt_zero _)
  | succ rounds ih =>
    rw [split_rounds]
    cases found : (str.drop previous).findIdx? fun c => delims.contains c with
    | none =>
      rw [find_first_of, found, Option.map_none]
      have whole : substr str previous str.length = str.drop previous :=
        List.take_of_length_le (List.length_drop ▸ Nat.sub_le _ _)
      simp only [whole]
      exact (List.splitOnP_eq_singleton fun c member => by simpa using List.findIdx?_eq_none_iff.mp found c member).symm
    | some i =>
      rw [find_first_of, found, Option.map_some]
      obtain ⟨lt, delim, before⟩ := List.findIdx?_eq_some_iff_getElem.mp found
      have rest : str.drop (previous + i + 1) = (str.drop previous).drop (i + 1) := by rw [List.drop_drop, Nat.add_assoc]
      have cut : str.drop previous = (str.drop previous).take i ++ (str.drop previous)[i] :: str.drop (previous + i + 1) := by
        rw [rest, ← List.drop_eq_getElem_cons lt, List.take_append_drop]
      have field : ∀ c ∈ (str.drop previous).take i, delims.contains c = false := by
        intro c member
        obtain ⟨j, inside, rfl⟩ := List.getElem_of_mem member
        rw [List.length_take] at inside
        rw [List.getElem_take]
        exact Bool.eq_false_of_not_eq_true (before j (by omega))
      have fewer : (str.drop (previous + i + 1)).length < rounds := by
        rw [rest, List.length_drop]
        omega
      rw [cut, List.splitOnP_append_cons_of_forall_mem field _ delim, ← ih fewer]
      simp only [substr, Nat.add_sub_cancel_left]

theorem str_split_eq (str delims : List Char) : str_split str delims = str.splitOnP fun c => delims.contains c :=
  split_rounds_eq str delims (Nat.lt_succ_self _)

/-! ### Numbers -/

theorem digit_range {c : Char} (digit : c.isDigit = true) : 48 ≤ c.toNat ∧ c.toNat ≤ 57 := by
  rw [Char.isDigit, Bool.and_eq_true, decide_eq_true_eq, decide_eq_true_eq] at digit
  exact ⟨UInt32.le_iff_toNat_le.mp digit.1, UInt32.le_iff_toNat_le.mp digit.2⟩

theorem digit_not_space {c : Char} (digit : c.isDigit = true) : isspace c = false := by
  have range := digit_range digit
  have not_blank : c ≠ ' ' := by
    rintro rfl
    exact absurd range.1 (by decide)
  rw [isspace, decide_eq_false not_blank, Bool.false_or, Bool.and_eq_false_iff, decide_eq_false_iff_not,
    decide_eq_false_iff_not]
  omega

/-- `atoll` reads the digits of a number back. -/
theorem atoll_digits {n : Nat} (small : n < 2 ^ 63) : atoll (Nat.toDigits 10 n) = n := by
  have digits : ∀ c ∈ Nat.toDigits 10 n, c.isDigit = true := fun c member =>
    Nat.isDigit_of_mem_toDigits (by decide) (by decide) member
  have value : leading (Nat.toDigits 10 n) = n := by
    rw [leading, List.takeWhile_eq_self_iff.mpr digits, Nat.ofDigitChars_ten_toDigits]
  cases text : Nat.toDigits 10 n with
  | nil => exact absurd text Nat.toDigits_ne_nil
  | cons c cs =>
    have digit := digits c (text ▸ List.mem_cons_self)
    have range := digit_range digit
    have same : (c :: cs).dropWhile isspace = c :: cs := by rw [List.dropWhile_cons, digit_not_space digit]; rfl
    have no_minus : c ≠ '-' := by
      rintro rfl
      exact absurd range.1 (by decide)
    have no_plus : c ≠ '+' := by
      rintro rfl
      exact absurd range.1 (by decide)
    rw [text] at value
    rw [atoll, same]
    split
    · next other => exact absurd (List.cons.inj other).1 no_minus
    · next other => exact absurd (List.cons.inj other).1 no_plus
    · rw [value]
      omega

/-! ### Lines -/

theorem getline_line {line : List Char} (one : '\n' ∉ line) (rest : List Char) :
    getline (line ++ '\n' :: rest) = some (line, rest) := by
  have kept : ∀ c ∈ line, (c != '\n') = true := by
    intro c member
    exact bne_iff_ne.mpr fun same => one (same ▸ member)
  rw [getline, if_neg (by simp), List.takeWhile_append_of_pos kept, List.dropWhile_append_of_pos kept]
  simp

/-- `getline` gives back the lines of a text. -/
theorem read_lines_joined {lines : List (List Char)} (one : ∀ line ∈ lines, '\n' ∉ line) {rounds : Nat}
    (enough : (lines.flatMap (· ++ ['\n'])).length ≤ rounds) :
    read_lines rounds (lines.flatMap (· ++ ['\n'])) = lines := by
  induction lines generalizing rounds with
  | nil => cases rounds <;> rfl
  | cons line lines ih =>
    rw [List.flatMap_cons, List.append_assoc, List.singleton_append] at enough ⊢
    rw [List.length_append, List.length_cons] at enough
    cases rounds with
    | zero => omega
    | succ rounds =>
      rw [read_lines, getline_line (one line List.mem_cons_self)]
      exact congrArg (line :: ·) (ih (fun other member => one other (List.mem_cons_of_mem _ member)) (by omega))

theorem not_mem_intercalate {fields : List (List Char)} {c sep : Char} (apart : c ≠ sep) (none : ∀ field ∈ fields, c ∉ field) :
    c ∉ [sep].intercalate fields := by
  induction fields with
  | nil => exact List.not_mem_nil
  | cons field fields ih =>
    have first := none field List.mem_cons_self
    have rest := ih fun other member => none other (List.mem_cons_of_mem _ member)
    cases fields with
    | nil => simpa using first
    | cons next fields =>
      rw [List.intercalate_cons_cons]
      simp only [List.mem_append, List.mem_singleton, not_or]
      exact ⟨⟨first, apart⟩, rest⟩

namespace Row
variable {row : Row}

theorem Plain.fields (plain : row.Plain) : ∀ field ∈ row.fields, '\t' ∉ field ∧ '\n' ∉ field := by
  have digits : ∀ n c, c.isDigit = false → c ∉ Nat.toDigits 10 n := by
    intro n c not_digit member
    rw [Nat.isDigit_of_mem_toDigits (by decide) (by decide) member] at not_digit
    cases not_digit
  have number : ∀ n, '\t' ∉ Nat.toDigits 10 n ∧ '\n' ∉ Nat.toDigits 10 n := fun n =>
    ⟨digits n '\t' (by decide), digits n '\n' (by decide)⟩
  intro field member
  rcases List.mem_cons.mp member with rfl | member
  · exact plain.texts _ List.mem_cons_self
  · rcases List.mem_cons.mp member with rfl | member
    · exact number row.offset
    · rcases List.mem_cons.mp member with rfl | member
      · exact number row.length
      · exact plain.texts field (List.mem_cons_of_mem _ member)

theorem Plain.one_line (plain : row.Plain) : '\n' ∉ row.line :=
  not_mem_intercalate (by decide) fun field member => (plain.fields field member).2

end Row

theorem tabs_eq (line : List Char) : str_split line ['\t'] = line.splitOn '\t' := by
  rw [str_split_eq, List.splitOn_eq_splitOnP]
  congr 1
  funext c
  rw [Bool.eq_iff_iff]
  simp

theorem read_record_line {row : Row} (plain : row.Plain) : read_record row.line = some row.record := by
  have fields : str_split row.line ['\t'] = row.fields := by
    rw [tabs_eq]
    exact List.splitOn_intercalate '\t' (fun field member => (plain.fields field member).1) (by simp [Row.fields])
  have number : ∀ {n : Nat}, n < 2 ^ 63 → ofInt (atoll (Nat.toDigits 10 n)) = n := by
    intro n small
    rw [atoll_digits small]
    exact ofInt_small (by omega)
  rw [read_record, fields]
  simp only [Row.fields, number plain.offset, number plain.length]
  rfl

/-! ### Files -/

theorem load_lines_rows {rows : List (Option Row)} (plain : ∀ row, some row ∈ rows → row.Plain) :
    load_lines g (rows.map (·.elim [] Row.line)) =
      some (rows.filterMap fun row => row.bind fun row => load g row.record) := by
  induction rows with
  | nil => rfl
  | cons row rows ih =>
    have rest := ih fun other member => plain other (List.mem_cons_of_mem _ member)
    cases row with
    | none =>
      rw [List.map_cons, load_lines, Option.elim_none, if_pos rfl, rest]
      rfl
    | some row =>
      have read := read_record_line (plain row List.mem_cons_self)
      have not_empty : row.line ≠ [] := by
        intro empty
        rw [empty] at read
        simp [read_record, tabs_eq] at read
      rw [List.map_cons, load_lines, Option.elim_some, if_neg not_empty, read, rest]
      cases kept : load g row.record with
      | none => simp [kept]
      | some q => simp [kept]

/-- The loader makes of a printed trace what it makes of its records. -/
theorem load_print {rows : List (Option Row)} (plain : ∀ row, some row ∈ rows → row.Plain) :
    load_trace g (print rows) = some (rows.filterMap fun row => row.bind fun row => load g row.record) := by
  have lines : trace_lines (print rows) = rows.map (·.elim [] Row.line) := by
    have text : print rows = (rows.map (·.elim [] Row.line)).flatMap (· ++ ['\n']) := by rw [print, List.flatMap_map]
    rw [trace_lines, text]
    refine read_lines_joined (fun line member => ?_) (Nat.le_refl _)
    obtain ⟨row, there, rfl⟩ := List.mem_map.mp member
    cases row with
    | none => exact List.not_mem_nil
    | some row => exact (plain row there).one_line
  rw [load_trace, lines, load_lines_rows g plain]

/-- A trace with an empty line, a field after the length, and a read that is
    dropped for its length. -/
def three_rows : List (Option Row) :=
  [some ⟨['W'], 4096, 65536, []⟩, none, some ⟨['R'], 100, 200, [['x'], []]⟩, some ⟨['R'], 0, 200000000, []⟩]

theorem load_print_three : load_trace defaultGeometry (print three_rows) =
    some [⟨true, 4096, 69632⟩, ⟨false, 0, 4096⟩] := by
  refine (load_print defaultGeometry fun row member => ?_).trans (by decide)
  simp only [three_rows, List.mem_cons, Option.some.injEq, List.not_mem_nil, or_false] at member
  rcases member with rfl | none | rfl | rfl
  · decide
  · cases none
  · decide
  · decide

theorem length_splitOnP {α : Type*} (p : α → Bool) (xs : List α) : (xs.splitOnP p).length = xs.countP p + 1 := by
  induction xs with
  | nil => simp
  | cons x xs ih =>
    rw [List.splitOnP_cons_eq_if_modifyHead, List.countP_cons]
    cases p x <;> simp [ih]

theorem read_record_iff (line : List Char) : (read_record line).isSome ↔ 2 ≤ line.count '\t' := by
  have fields : (str_split line ['\t']).length = line.count '\t' + 1 := by
    rw [tabs_eq, List.splitOn_eq_splitOnP, length_splitOnP, List.count]
  rw [read_record]
  split
  · next found =>
    rw [found] at fields
    simp only [List.length_cons] at fields
    simp
    omega
  · next few =>
    simp only [Option.isSome_none, Bool.false_eq_true, false_iff]
    intro enough
    rcases parts : str_split line ['\t'] with _ | ⟨dir, _ | ⟨off, _ | ⟨len, rest⟩⟩⟩
    · simp [parts] at fields
    · simp [parts] at fields
      omega
    · simp [parts] at fields
      omega
    · exact few dir off len rest parts

/-- The loader reads all lines of a text exactly when each that is not empty has
    two tabs; otherwise it indexes past the fields of a line. -/
theorem loads_iff (text : List Char) :
    (load_trace g text).isSome ↔ ∀ line ∈ trace_lines text, line ≠ [] → 2 ≤ line.count '\t' := by
  rw [load_trace]
  induction trace_lines text with
  | nil => simp [load_lines]
  | cons line lines ih =>
    rw [List.forall_mem_cons, load_lines]
    by_cases empty : line = []
    · rw [if_pos empty, ih]
      exact ⟨fun all => ⟨fun some_text => absurd empty some_text, all⟩, And.right⟩
    · rw [if_neg empty, ← ih, ← read_record_iff]
      cases read_record line with
      | none => simp [empty]
      | some r => cases load_lines g lines <;> simp

end Straid.TraceText
