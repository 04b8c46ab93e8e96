import Straid.LogFiles

/-!
The records of `metadata.h`: requests on the user space (`UioInfo`) and on a
device (`DioInfo`), the table of stripes and the bitmap of written blocks. A
`char *` is an address, `NULL` is `0`, and a failed assertion or a call of `at`
out of bounds is `none`.
-/
namespace Straid.Metadata
open LogFiles

/-- A request on a device. -/
structure DioInfo where
  dev_id : Int
  buf : Nat
  dev_offset : Nat
  length : Nat
  req_id : Nat
  deriving DecidableEq, Repr

/-- The default constructor. -/
instance : Inhabited DioInfo := ⟨⟨-1, 0, 0, 0, 0⟩⟩

/-- A request on the user space. -/
structure UioInfo where
  user_id : Nat
  is_write : Bool
  buf : Nat
  user_offset : Nat
  length : Nat
  deriving DecidableEq, Repr

variable (g : Geometry)

/-- The one device request that `s_uio2dio` and `s_uio2id_dio` make of a user
    request, with what they assert of it. -/
def checked_dio (uio : UioInfo) (req_id : Nat) : Option DioInfo :=
  let dev := user2dev g uio.user_offset
  if dev.devid < g.NUM_DEVFILES ∧ uio.buf ≠ 0 ∧ dev.converted_offset < g.USER_SPACE_LEN then
    some ⟨dev.devid, uio.buf, dev.converted_offset, uio.length, req_id⟩
  else none

def s_uio2dio (uio : UioInfo) : Option DioInfo := checked_dio g uio 0

def s_uio2id_dio (uio : UioInfo) (req_id : Nat) : Option DioInfo := checked_dio g uio req_id

/-- `v_stdfiles->at`: the device with a number. -/
def v_stdfiles_at (dev_id : Int) : Option Nat :=
  if 0 ≤ dev_id ∧ dev_id < g.NUM_DEVFILES then some dev_id.toNat else none

/-! ### The table of stripes -/

/-- The atomic cells of a stripe. -/
structure SSTEntry where
  SSTthreadid : Nat
  stripe_lock : Bool
  is_frozen : Bool
  deriving DecidableEq, Repr

/-- The entry that the constructor of `SSTable` makes. -/
def SSTEntry.fresh : SSTEntry := ⟨INT16_MAX, false, false⟩

/-- The number of entries that the constructor of `SSTable` makes. -/
def table_size : Nat := g.USER_SPACE_LEN / g.SSTRIPE_DATASIZE + 100 + 1

/-- The index of the entry of a stripe, after the assertion that it has one. -/
def search_SST (stripeid : Nat) : Option Nat :=
  if stripeid < table_size g then some stripeid else none

/-! ### The bitmap of blocks -/

/-- `BLK_Bitmap`: the bits and, for each part of `Part_bitnum` bits, the number
    of changes since the part was flushed. -/
structure BlkBitmap where
  size : Nat
  Part_bitnum : Nat
  bits : Nat → Bool
  v_updated_cnt : Nat → Nat

/-- The bitmap that the constructor of `MetaMod` makes: one bit for each block
    of the user space, in parts of 1024. -/
def BlkBitmap.fresh : BlkBitmap where
  size := (g.USER_SPACE_LEN + BLK_SIZE - 1) / BLK_SIZE
  Part_bitnum := 1024
  bits := fun _ => false
  v_updated_cnt := fun _ => 0

/-- `BLK_Bitmap::set`. -/
def BlkBitmap.set (b : BlkBitmap) (idx : Nat) (value : Bool) : BlkBitmap :=
  if idx ≥ b.size then b
  else
    { b with
      bits := Function.update b.bits idx value
      v_updated_cnt := Function.update b.v_updated_cnt (idx / b.Part_bitnum)
        (b.v_updated_cnt (idx / b.Part_bitnum) + 1) }

/-- `BLK_Bitmap::reset`. -/
def BlkBitmap.reset (b : BlkBitmap) (idx : Nat) : BlkBitmap :=
  if idx ≥ b.size then b
  else
    { b with
      bits := Function.update b.bits idx false
      v_updated_cnt := Function.update b.v_updated_cnt (idx / b.Part_bitnum)
        (b.v_updated_cnt (idx / b.Part_bitnum) + 1) }

/-! ### Requests inside the user space -/

theorem mapM_some {α β γ : Type*} {f : β → Option γ} {h : α → β} {k : α → γ} {xs : List α}
    (all : ∀ x ∈ xs, f (h x) = some (k x)) : (xs.map h).mapM f = some (xs.map k) := by
  induction xs with
  | nil => rfl
  | cons x xs ih =>
    have tail := ih fun y member => all y (List.mem_cons_of_mem _ member)
    simp [all x List.mem_cons_self, tail]

theorem mapM_length {α β : Type*} {f : α → Option β} {xs : List α} {ys : List β} (made : xs.mapM f = some ys) :
    ys.length = xs.length := by
  induction xs generalizing ys with
  | nil =>
    obtain rfl := Option.some.inj made
    rfl
  | cons x xs ih =>
    rw [List.mapM_cons] at made
    obtain ⟨y, _, made⟩ := Option.bind_eq_some_iff.mp made
    obtain ⟨rest, later, made⟩ := Option.bind_eq_some_iff.mp made
    obtain rfl := Option.some.inj made
    rw [List.length_cons, List.length_cons, ih later]

/-- A request that a caller may make: a buffer, at least one byte, inside the
    user space, and the number of a thread. -/
@[mk_iff]
structure UioInfo.Valid (uio : UioInfo) : Prop where
  thread : uio.user_id < NUM_THREADS
  buffer : uio.buf ≠ 0
  positive : 0 < uio.length
  user : uio.user_offset + uio.length ≤ g.USER_SPACE_LEN

instance (uio : UioInfo) : Decidable (uio.Valid g) := decidable_of_iff' _ (UioInfo.valid_iff g uio)

variable {g}

theorem v_stdfiles_at_eq {d : Nat} (lt : d < g.NUM_DEVFILES) : v_stdfiles_at g d = some d := by
  rw [v_stdfiles_at, if_pos (by omega)]
  rfl

theorem checked_dio_eq (uio : UioInfo) (buffer : uio.buf ≠ 0) (user : uio.user_offset < g.USER_SPACE_LEN)
    (req_id : Nat) : checked_dio g uio req_id =
      some ⟨devOf g uio.user_offset, uio.buf, devoffOf g uio.user_offset, uio.length, req_id⟩ := by
  have device := devOf_lt (g := g) uio.user_offset
  have offset := devoffOf_le (g := g) uio.user_offset
  simp only [checked_dio, user2dev_user user]
  rw [if_pos ⟨by omega, buffer, by omega⟩]

theorem search_SST_eq {s : Nat} (entry : s ≤ g.USER_SPACE_LEN / g.SSTRIPE_DATASIZE + 100) :
    search_SST g s = some s := if_pos (by unfold table_size; omega)

end Straid.Metadata
