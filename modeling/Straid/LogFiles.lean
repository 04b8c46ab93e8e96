import Straid.Cuts
import Straid.Define
import Mathlib.Data.Nat.ModEq
import Mathlib.Tactic.Ring

/-!
The address map of `logfiles.cc`. Stripe `s` is row `s` of every device; its data
chunks start on device `s mod N` and go round, its parity chunks follow them. The
first part has the functions as the code computes them, on machine integers. The
second has the map as a function of natural numbers, and that the code computes
it for every stripe number that an `int` holds (`user2dev_eq` and the lemmas
around it). The last part has what the placement of chunks is for: the data
chunks and the parity chunks of a stripe are on different devices, and no two
user bytes share a place.
-/
namespace Straid.LogFiles

variable (g : Geometry)

/-! ### The functions of the code -/

def user2stripe (user_offset : Nat) : Nat := user_offset / g.SCHUNK_SIZE / g.DATACHUNK_NUM

def is_fullstripe (useroffset length : Nat) : Bool :=
  if useroffset % g.SSTRIPE_DATASIZE ≠ 0 ∨ length ≠ g.SSTRIPE_DATASIZE then false else true

/-- What `user2dev` returns and what it stores through `devid` and `stripeid`. -/
structure DevAddr where
  converted_offset : Nat
  devid : Int
  stripeid : Int
  deriving DecidableEq, Repr

def user2dev (user_offset : Nat) : DevAddr :=
  let chunk := user_offset / g.SCHUNK_SIZE
  let remain_offset := user_offset % g.SCHUNK_SIZE
  let stripe_num := toInt (chunk / g.DATACHUNK_NUM)
  let remain_chunk := toInt (chunk % g.DATACHUNK_NUM)
  let dev_pos := stripe_num.tmod g.NUM_DEVFILES + remain_chunk
  let dev_pos := if dev_pos ≥ g.NUM_DEVFILES then dev_pos - g.NUM_DEVFILES else dev_pos
  ⟨ofInt (stripe_num * g.SCHUNK_SIZE + remain_offset), dev_pos, stripe_num⟩

def logical_distance (src dest loop : Int) : Int :=
  if src ≤ dest then dest - src else dest - src + loop

def devoff2stripe (devoff : Nat) : Int := toInt (devoff / g.SCHUNK_SIZE)

def stripe2datapos (stripeid : Int) : Int := stripeid.tmod g.NUM_DEVFILES

def stripe2paritypos (stripeid : Int) : Int :=
  let datapos := stripe2datapos g stripeid + g.DATACHUNK_NUM
  if datapos ≥ g.NUM_DEVFILES then datapos - g.NUM_DEVFILES else datapos

def stripe2useroff (stripeid : Int) : Nat := ofInt (stripeid * g.SSTRIPE_DATASIZE)

def stripe2devoff (stripeid : Int) (base_off : Nat) : Nat := ofInt (base_off + stripeid * g.SCHUNK_SIZE)

/-! ### The address map -/

/-- The device of data chunk `i` of stripe `s`. -/
def dataDev (s i : Nat) : Nat := (s + i) % g.NUM_DEVFILES

/-- The device of parity chunk `p` of stripe `s`. -/
def parityDev (s p : Nat) : Nat := (s + g.DATACHUNK_NUM + p) % g.NUM_DEVFILES

/-- The data chunk of its stripe that a user byte is in. -/
def chunkOf (x : Nat) : Nat := x / g.SCHUNK_SIZE % g.DATACHUNK_NUM

/-- The device of a user byte. -/
def devOf (x : Nat) : Nat := dataDev g (user2stripe g x) (chunkOf g x)

/-- The device offset of a user byte. -/
def devoffOf (x : Nat) : Nat := user2stripe g x * g.SCHUNK_SIZE + x % g.SCHUNK_SIZE

/-- A device offset is in the row of stripe `s`. -/
def InRowOf (s o : Nat) : Prop := s * g.SCHUNK_SIZE ≤ o ∧ o < s * g.SCHUNK_SIZE + g.SCHUNK_SIZE

instance (s o : Nat) : Decidable (InRowOf g s o) := inferInstanceAs (Decidable (_ ∧ _))

variable {g}

theorem user2stripe_eq (x : Nat) : user2stripe g x = x / g.SSTRIPE_DATASIZE := Nat.div_div_eq_div_mul ..

theorem chunkOf_lt (x : Nat) : chunkOf g x < g.DATACHUNK_NUM := Nat.mod_lt _ g.data_pos

theorem chunk_split (x : Nat) : user2stripe g x * g.DATACHUNK_NUM + chunkOf g x = x / g.SCHUNK_SIZE :=
  Nat.div_add_mod' _ _

theorem devoffOf_le (x : Nat) : devoffOf g x ≤ x := by
  have := Nat.div_add_mod' x g.SCHUNK_SIZE
  have fewer : user2stripe g x * g.SCHUNK_SIZE ≤ x / g.SCHUNK_SIZE * g.SCHUNK_SIZE :=
    Nat.mul_le_mul_right _ (Nat.div_le_self _ _)
  unfold devoffOf
  omega

theorem devoffOf_row (x : Nat) : user2stripe g x * g.SCHUNK_SIZE ≤ devoffOf g x ∧
    devoffOf g x < user2stripe g x * g.SCHUNK_SIZE + g.SCHUNK_SIZE := by
  have := Nat.mod_lt x g.chunk_pos
  unfold devoffOf
  omega

/-- Going round the devices: the residue of a sum from the residue of one part. -/
theorem wrap_mod {a c n : Nat} (small : c < n) :
    (if a % n + c ≥ n then a % n + c - n else a % n + c) = (a + c) % n := by
  have low := Nat.mod_lt a (by omega : 0 < n)
  rw [← Nat.mod_add_mod a n c]
  generalize a % n = r at low ⊢
  split
  · rw [Nat.mod_eq_sub_mod (by omega), Nat.mod_eq_of_lt (by omega)]
  · rw [Nat.mod_eq_of_lt (by omega)]

theorem wrap_int {a c n : Nat} (small : c < n) :
    (if ((a % n : Nat) : Int) + c ≥ n then ((a % n : Nat) : Int) + c - n else ((a % n : Nat) : Int) + c) =
      ((a + c) % n : Nat) := by
  rw [← wrap_mod small]
  split <;> split <;> omega

theorem tmod_cast (s n : Nat) : (s : Int).tmod n = ((s % n : Nat) : Int) := (Int.ofNat_tmod s n).symm

/-! ### The code computes the map -/

/-- For every stripe number that an `int` holds, `user2dev` computes the map. -/
theorem user2dev_eq {x : Nat} (x64 : x < 2 ^ 64) (int : user2stripe g x < 2 ^ 31) :
    user2dev g x = ⟨devoffOf g x, devOf g x, user2stripe g x⟩ := by
  have data := g.data_max
  have less := chunkOf_lt (g := g) x
  have fits := devoffOf_le (g := g) x
  have stripe : toInt (x / g.SCHUNK_SIZE / g.DATACHUNK_NUM) = (user2stripe g x : Nat) := toInt_small int
  have chunk : toInt (x / g.SCHUNK_SIZE % g.DATACHUNK_NUM) = (chunkOf g x : Nat) :=
    toInt_small (by unfold KMAX at data; exact (show chunkOf g x < 2 ^ 31 by omega))
  have device : chunkOf g x < g.NUM_DEVFILES := by have := g.data_lt_devices; omega
  have offset : ((user2stripe g x : Nat) : Int) * g.SCHUNK_SIZE + (x % g.SCHUNK_SIZE : Nat) = (devoffOf g x : Nat) := by
    unfold devoffOf
    push_cast
    ring
  simp only [user2dev, stripe, chunk, tmod_cast]
  rw [wrap_int device, offset, ofInt_small (by omega)]
  rfl

theorem stripe2datapos_eq (s : Nat) : stripe2datapos g s = (s % g.NUM_DEVFILES : Nat) := tmod_cast ..

theorem stripe2paritypos_eq (s : Nat) : stripe2paritypos g s = (parityDev g s 0 : Nat) := by
  simp only [stripe2paritypos, stripe2datapos_eq]
  rw [wrap_int g.data_lt_devices]
  rfl

theorem paritypos_next (s p : Nat) (parity : p < g.PARITYCHUNK_NUM) :
    (if stripe2paritypos g s + p ≥ g.NUM_DEVFILES then stripe2paritypos g s + p - g.NUM_DEVFILES
      else stripe2paritypos g s + p) = (parityDev g s p : Nat) := by
  have small : p < g.NUM_DEVFILES := by unfold Geometry.NUM_DEVFILES; omega
  rw [stripe2paritypos_eq]
  exact wrap_int small

theorem stripe2devoff_eq {s : Nat} (fits : s * g.SCHUNK_SIZE < 2 ^ 64) :
    stripe2devoff g s 0 = s * g.SCHUNK_SIZE := by
  have := ofInt_small fits
  simpa [stripe2devoff] using this

theorem devoff2stripe_eq {o : Nat} (int : o / g.SCHUNK_SIZE < 2 ^ 31) :
    devoff2stripe g o = (o / g.SCHUNK_SIZE : Nat) := toInt_small int

theorem devoff_div {s o : Nat} (low : s * g.SCHUNK_SIZE ≤ o) (high : o < s * g.SCHUNK_SIZE + g.SCHUNK_SIZE) :
    o / g.SCHUNK_SIZE = s := Cuts.block_unique low high

theorem row_unique {s r o : Nat} (first : InRowOf g s o) (second : InRowOf g r o) : s = r :=
  (devoff_div first.1 first.2).symm.trans (devoff_div second.1 second.2)

/-! ### Placement -/

theorem dataDev_lt (s i : Nat) : dataDev g s i < g.NUM_DEVFILES := Nat.mod_lt _ g.devices_pos

theorem devOf_lt (x : Nat) : devOf g x < g.NUM_DEVFILES := dataDev_lt ..

theorem parityDev_lt (s p : Nat) : parityDev g s p < g.NUM_DEVFILES := Nat.mod_lt _ g.devices_pos

/-- Positions going round the devices are the same only from the same start. -/
theorem round_inj {n s a b : Nat} (la : a < n) (lb : b < n) (same : (s + a) % n = (s + b) % n) : a = b := by
  have congruent : s + a ≡ s + b [MOD n] := same
  have residues : a % n = b % n := congruent.add_left_cancel'
  rwa [Nat.mod_eq_of_lt la, Nat.mod_eq_of_lt lb] at residues

theorem dataDev_inj {s i j : Nat} (li : i < g.DATACHUNK_NUM) (lj : j < g.DATACHUNK_NUM)
    (same : dataDev g s i = dataDev g s j) : i = j :=
  round_inj (by have := g.data_lt_devices; omega) (by have := g.data_lt_devices; omega) same

theorem parityDev_inj {s p q : Nat} (lp : p < g.PARITYCHUNK_NUM) (lq : q < g.PARITYCHUNK_NUM)
    (same : parityDev g s p = parityDev g s q) : p = q := by
  unfold parityDev Geometry.NUM_DEVFILES at same
  rw [Nat.add_assoc, Nat.add_assoc] at same
  have := round_inj (by omega) (by omega) same
  omega

/-- No parity chunk is on the device of a data chunk of its stripe. -/
theorem parityDev_ne_dataDev {s p i : Nat} (lp : p < g.PARITYCHUNK_NUM) (li : i < g.DATACHUNK_NUM) :
    parityDev g s p ≠ dataDev g s i := by
  intro same
  unfold parityDev dataDev Geometry.NUM_DEVFILES at same
  rw [Nat.add_assoc] at same
  have := round_inj (by omega) (by omega) same
  omega

/-- No two user bytes share a device and an offset on it. -/
theorem place_inj {x y : Nat} (dev : devOf g x = devOf g y) (off : devoffOf g x = devoffOf g y) : x = y := by
  have rowx := devoffOf_row (g := g) x
  have rowy := devoffOf_row (g := g) y
  have stripe : user2stripe g x = user2stripe g y := by
    rw [← devoff_div rowx.1 rowx.2, off, devoff_div rowy.1 rowy.2]
  have chunk : chunkOf g x = chunkOf g y := by
    unfold devOf at dev
    rw [stripe] at dev
    exact dataDev_inj (chunkOf_lt x) (chunkOf_lt y) dev
  have inside : x % g.SCHUNK_SIZE = y % g.SCHUNK_SIZE := by
    unfold devoffOf at off
    rw [stripe] at off
    omega
  have number : x / g.SCHUNK_SIZE = y / g.SCHUNK_SIZE := by
    rw [← chunk_split, ← chunk_split, stripe, chunk]
  have := Nat.div_add_mod' x g.SCHUNK_SIZE
  have := Nat.div_add_mod' y g.SCHUNK_SIZE
  rw [number] at *
  omega

/-- Bytes of one chunk are on one device, at offsets that go on with them. -/
theorem same_chunk {x y : Nat} (le : x ≤ y) (chunk : y / g.SCHUNK_SIZE = x / g.SCHUNK_SIZE) :
    devOf g y = devOf g x ∧ devoffOf g y = devoffOf g x + (y - x) := by
  have stripe : user2stripe g y = user2stripe g x := by unfold user2stripe; rw [chunk]
  have inside : chunkOf g y = chunkOf g x := by unfold chunkOf; rw [chunk]
  have := Nat.div_add_mod' x g.SCHUNK_SIZE
  have := Nat.div_add_mod' y g.SCHUNK_SIZE
  unfold devOf devoffOf
  rw [stripe, inside]
  rw [chunk] at *
  omega

/-! ### The user space -/

/-- Every stripe that has an entry in the table has a number that an `int`
    holds, and its row and its user bytes are below `2 ^ 64`. -/
theorem table_bounds {s : Nat} (entry : s ≤ g.USER_SPACE_LEN / g.SSTRIPE_DATASIZE + 100) :
    s < 2 ^ 31 ∧ s * g.SSTRIPE_DATASIZE + g.SSTRIPE_DATASIZE < 2 ^ 64 ∧
      s * g.SCHUNK_SIZE + g.SCHUNK_SIZE < 2 ^ 64 := by
  have int := g.stripes_int
  have user := g.user_signed
  have small := g.stripe_small
  have chunk := g.chunk_le_stripe
  have below := Nat.div_mul_le_self g.USER_SPACE_LEN g.SSTRIPE_DATASIZE
  have grows := Nat.mul_le_mul_right g.SSTRIPE_DATASIZE entry
  have rows : s * g.SCHUNK_SIZE ≤ s * g.SSTRIPE_DATASIZE := Nat.mul_le_mul_left _ chunk
  rw [Nat.add_mul] at grows
  refine ⟨?_, by omega, by omega⟩
  exact Nat.lt_of_le_of_lt entry int

theorem user_entry {x : Nat} (user : x < g.USER_SPACE_LEN) :
    user2stripe g x ≤ g.USER_SPACE_LEN / g.SSTRIPE_DATASIZE + 100 := by
  rw [user2stripe_eq]
  have := Nat.div_le_div_right (c := g.SSTRIPE_DATASIZE) (Nat.le_of_lt user)
  omega

theorem user2dev_user {x : Nat} (user : x < g.USER_SPACE_LEN) :
    user2dev g x = ⟨devoffOf g x, devOf g x, user2stripe g x⟩ := by
  have := g.user_signed
  exact user2dev_eq (by omega) (table_bounds (user_entry user)).1

/-- A request is a full stripe exactly when it starts where a stripe starts and
    has its length. -/
theorem is_fullstripe_iff (offset length : Nat) : is_fullstripe g offset length = true ↔
    offset = offset / g.SSTRIPE_DATASIZE * g.SSTRIPE_DATASIZE ∧ length = g.SSTRIPE_DATASIZE := by
  have := Nat.div_add_mod' offset g.SSTRIPE_DATASIZE
  unfold is_fullstripe
  split <;> simp <;> omega

end Straid.LogFiles
