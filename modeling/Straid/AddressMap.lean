import Straid.LogFiles

/-!
The address map as a whole (`address_map`). A device of a row is a distance from
the row's first data device (`dataDev_distance`, `distance_dataDev`): below the
number of data chunks the place holds user data, from there on parity
(`onParity_iff`). A place off the parity devices stands for one user offset,
`place_useroff`, and is hit by it when a `uint64_t` holds it (`hit_iff`). In the
far rows of large chunks none does (`far_row_not_hit`).
-/
namespace Straid.AddressMap
open LogFiles

variable (g : Geometry)

/-- Some user offset with a stripe number that an `int` holds is mapped to the
    place. -/
def Hit (dev devoff : Nat) : Prop := ∃ x, x < 2 ^ 64 ∧ user2stripe g x < 2 ^ 31 ∧
  (user2dev g x).devid = dev ∧ (user2dev g x).converted_offset = devoff

/-- The place is on one of the parity devices of its row. -/
def OnParity (dev devoff : Nat) : Prop :=
  ∃ p < g.PARITYCHUNK_NUM, (stripe2paritypos g (devoff2stripe g devoff) + p) % g.NUM_DEVFILES = dev

/-- The user offset that a place stands for, in stripe `stripeid`. -/
def place_useroff (stripeid dev : Int) (devoff : Nat) : Int :=
  stripeid * g.SSTRIPE_DATASIZE + logical_distance (stripe2datapos g stripeid) dev g.NUM_DEVFILES * g.SCHUNK_SIZE +
    (devoff % g.SCHUNK_SIZE : Nat)

/-- What the functions of the address map do together, on user offsets with a
    stripe number that an `int` holds. -/
structure AddressBijection : Prop where
  device : ∀ x < 2 ^ 64, user2stripe g x < 2 ^ 31 →
    0 ≤ (user2dev g x).devid ∧ (user2dev g x).devid < g.NUM_DEVFILES
  stripe : ∀ x < 2 ^ 64, user2stripe g x < 2 ^ 31 → (user2dev g x).stripeid = user2stripe g x ∧
    devoff2stripe g (user2dev g x).converted_offset = (user2dev g x).stripeid
  recovered : ∀ x < 2 ^ 64, user2stripe g x < 2 ^ 31 →
    (x : Int) = stripe2useroff g (user2dev g x).stripeid +
      logical_distance (stripe2datapos g (user2dev g x).stripeid) (user2dev g x).devid g.NUM_DEVFILES * g.SCHUNK_SIZE +
      ((user2dev g x).converted_offset % g.SCHUNK_SIZE : Nat)
  distinct : ∀ x < 2 ^ 64, ∀ y < 2 ^ 64, user2stripe g x < 2 ^ 31 → user2stripe g y < 2 ^ 31 →
    (user2dev g x).devid = (user2dev g y).devid →
    (user2dev g x).converted_offset = (user2dev g y).converted_offset → x = y
  hit : ∀ dev devoff, dev < g.NUM_DEVFILES → devoff / g.SCHUNK_SIZE < 2 ^ 31 →
    (Hit g dev devoff ↔ ¬ OnParity g dev devoff ∧ place_useroff g (devoff2stripe g devoff) dev devoff < 2 ^ 64)

variable {g}

/-! ### Distances in a row -/

/-- How far a device is from the first data device of row `s`. -/
def distance (g : Geometry) (s dev : Nat) : Nat :=
  if s % g.NUM_DEVFILES ≤ dev then dev - s % g.NUM_DEVFILES else dev + g.NUM_DEVFILES - s % g.NUM_DEVFILES

theorem logical_distance_eq (s dev : Nat) :
    logical_distance (stripe2datapos g s) dev g.NUM_DEVFILES = distance g s dev := by
  have low := Nat.mod_lt s g.devices_pos
  rw [stripe2datapos_eq]
  unfold logical_distance distance
  split <;> split <;> omega

theorem distance_lt {s dev : Nat} (lt : dev < g.NUM_DEVFILES) : distance g s dev < g.NUM_DEVFILES := by
  have low := Nat.mod_lt s g.devices_pos
  unfold distance
  split <;> omega

/-- Every device is at its distance. -/
theorem dataDev_distance {s dev : Nat} (lt : dev < g.NUM_DEVFILES) : dataDev g s (distance g s dev) = dev := by
  have low := Nat.mod_lt s g.devices_pos
  rw [dataDev, ← wrap_mod (distance_lt lt)]
  unfold distance
  split <;> split <;> omega

theorem distance_dataDev {s c : Nat} (lt : c < g.NUM_DEVFILES) : distance g s (dataDev g s c) = c :=
  round_inj (distance_lt (dataDev_lt ..)) lt (dataDev_distance (dataDev_lt s c))

/-- The parity devices of a row are those past the data devices. -/
theorem onParity_iff {dev devoff : Nat} (lt : dev < g.NUM_DEVFILES) (int : devoff / g.SCHUNK_SIZE < 2 ^ 31) :
    OnParity g dev devoff ↔ g.DATACHUNK_NUM ≤ distance g (devoff / g.SCHUNK_SIZE) dev := by
  have parity : ∀ p : Nat, ((stripe2paritypos g (devoff2stripe g devoff) + p) % (g.NUM_DEVFILES : Nat) : Int) =
      (dataDev g (devoff / g.SCHUNK_SIZE) (g.DATACHUNK_NUM + p) : Nat) := by
    intro p
    rw [devoff2stripe_eq int, stripe2paritypos_eq]
    unfold parityDev dataDev
    push_cast
    rw [Int.emod_add_emod]
    congr 1
    ring
  have devices : g.NUM_DEVFILES = g.DATACHUNK_NUM + g.PARITYCHUNK_NUM := rfl
  constructor
  · rintro ⟨p, few, at_dev⟩
    rw [parity] at at_dev
    obtain rfl : dataDev g (devoff / g.SCHUNK_SIZE) (g.DATACHUNK_NUM + p) = dev := by omega
    rw [distance_dataDev (by omega)]
    omega
  · intro far
    have near := distance_lt (s := devoff / g.SCHUNK_SIZE) lt
    refine ⟨distance g (devoff / g.SCHUNK_SIZE) dev - g.DATACHUNK_NUM, by omega, ?_⟩
    rw [parity, Nat.add_sub_cancel' far, dataDev_distance lt]

/-! ### User offsets and places -/

/-- The user offset of chunk `c` and position `q` in it of stripe `s`. -/
theorem place_of {s c q : Nat} (chunk : c < g.DATACHUNK_NUM) (inside : q < g.SCHUNK_SIZE) :
    user2stripe g (s * g.SSTRIPE_DATASIZE + c * g.SCHUNK_SIZE + q) = s ∧
      devOf g (s * g.SSTRIPE_DATASIZE + c * g.SCHUNK_SIZE + q) = dataDev g s c ∧
      devoffOf g (s * g.SSTRIPE_DATASIZE + c * g.SCHUNK_SIZE + q) = s * g.SCHUNK_SIZE + q := by
  have offset : s * g.SSTRIPE_DATASIZE + c * g.SCHUNK_SIZE + q = (s * g.DATACHUNK_NUM + c) * g.SCHUNK_SIZE + q := by
    rw [g.stripe_size]
    ring
  have number : ((s * g.DATACHUNK_NUM + c) * g.SCHUNK_SIZE + q) / g.SCHUNK_SIZE = s * g.DATACHUNK_NUM + c :=
    Cuts.block_unique (by omega) (by omega)
  have stripe : user2stripe g ((s * g.DATACHUNK_NUM + c) * g.SCHUNK_SIZE + q) = s := by
    rw [user2stripe, number]
    exact Cuts.block_unique (by omega) (by omega)
  have data : chunkOf g ((s * g.DATACHUNK_NUM + c) * g.SCHUNK_SIZE + q) = c := by
    rw [chunkOf, number, Nat.add_comm, Nat.add_mul_mod_self_right, Nat.mod_eq_of_lt chunk]
  rw [offset]
  refine ⟨stripe, ?_, ?_⟩
  · rw [devOf, stripe, data]
  · rw [devoffOf, stripe, Nat.mul_add_mod', Nat.mod_eq_of_lt inside]

/-- A user offset from its stripe, its chunk and its position in the chunk. -/
theorem useroff_split (x : Nat) :
    x = user2stripe g x * g.SSTRIPE_DATASIZE + chunkOf g x * g.SCHUNK_SIZE + devoffOf g x % g.SCHUNK_SIZE := by
  have inside := Nat.mod_lt x g.chunk_pos
  have numbers := Nat.div_add_mod' x g.SCHUNK_SIZE
  rw [← chunk_split, Nat.add_mul, Nat.mul_assoc, ← g.stripe_size] at numbers
  rw [devoffOf, Nat.mul_add_mod', Nat.mod_mod]
  exact numbers.symm

/-- The distance of the device of a user byte is its chunk. -/
theorem distance_devOf (x : Nat) : distance g (user2stripe g x) (devOf g x) = chunkOf g x :=
  distance_dataDev (Nat.lt_trans (chunkOf_lt x) g.data_lt_devices)

/-- A place stands for the user offset of its distance and its position. -/
theorem place_useroff_eq (s dev devoff : Nat) :
    place_useroff g s dev devoff =
      (s * g.SSTRIPE_DATASIZE + distance g s dev * g.SCHUNK_SIZE + devoff % g.SCHUNK_SIZE : Nat) := by
  rw [place_useroff, logical_distance_eq]
  push_cast
  rfl

/-- A place is hit when it is not on a parity device and a `uint64_t` holds the
    user offset that it stands for. -/
theorem hit_iff {dev devoff : Nat} (lt : dev < g.NUM_DEVFILES) (int : devoff / g.SCHUNK_SIZE < 2 ^ 31) :
    Hit g dev devoff ↔ ¬ OnParity g dev devoff ∧ place_useroff g (devoff2stripe g devoff) dev devoff < 2 ^ 64 := by
  rw [onParity_iff lt int, devoff2stripe_eq int, place_useroff_eq, Nat.not_le]
  constructor
  · rintro ⟨x, x64, stripe, device, offset⟩
    rw [user2dev_eq x64 stripe] at device offset
    simp only at device offset
    have row := devoffOf_row (g := g) x
    rw [offset] at row
    obtain rfl : devOf g x = dev := by omega
    rw [devoff_div row.1 row.2, distance_devOf, ← offset, ← useroff_split]
    have chunk := chunkOf_lt (g := g) x
    exact ⟨chunk, by omega⟩
  · rintro ⟨data, fits⟩
    have inside := Nat.mod_lt devoff g.chunk_pos
    obtain ⟨stripe, device, offset⟩ := place_of (s := devoff / g.SCHUNK_SIZE) data inside
    have x64 : devoff / g.SCHUNK_SIZE * g.SSTRIPE_DATASIZE + distance g (devoff / g.SCHUNK_SIZE) dev * g.SCHUNK_SIZE +
      devoff % g.SCHUNK_SIZE < 2 ^ 64 := by omega
    refine ⟨_, x64, by rw [stripe]; exact int, ?_⟩
    rw [user2dev_eq x64 (by rw [stripe]; exact int), device, offset, dataDev_distance lt, Nat.div_add_mod']
    exact ⟨rfl, rfl⟩

/-- The address map maps user offsets to devices, keeps stripes, is undone from
    the place alone, and reaches every place that is not on a parity device of
    its row and stands for a user offset below `2 ^ 64`. -/
theorem address_map (g : Geometry) : AddressBijection g where
  device x x64 int := by
    have lt := devOf_lt (g := g) x
    rw [user2dev_eq x64 int]
    constructor
    · exact Int.natCast_nonneg _
    · exact Int.ofNat_lt.mpr lt
  stripe x x64 int := by
    have row := devoff_div (devoffOf_row (g := g) x).1 (devoffOf_row x).2
    rw [user2dev_eq x64 int, devoff2stripe_eq (by rw [row]; exact int), row]
    exact ⟨rfl, rfl⟩
  recovered x x64 int := by
    have split := useroff_split (g := g) x
    have start : stripe2useroff g (user2stripe g x) = user2stripe g x * g.SSTRIPE_DATASIZE := by
      rw [stripe2useroff, ← Nat.cast_mul]
      exact ofInt_small (by omega)
    rw [user2dev_eq x64 int]
    simp only [start, logical_distance_eq, distance_devOf]
    exact_mod_cast split
  distinct x x64 y y64 intx inty device offset := by
    rw [user2dev_eq x64 intx, user2dev_eq y64 inty] at device offset
    exact place_inj (Int.ofNat_inj.mp device) offset
  hit dev devoff lt int := hit_iff lt int

/-! ### A row that no user offset reaches -/

/-- The first data device of the last row that an `int` holds is not a parity
    device of the row, and no user offset is mapped to it. -/
theorem far_row_not_hit : ¬ (Hit wideGeometry 62 ((2 ^ 31 - 1) * 2 ^ 30) ↔
    ¬ OnParity wideGeometry 62 ((2 ^ 31 - 1) * 2 ^ 30)) := by
  have lt : 62 < wideGeometry.NUM_DEVFILES := by decide
  have int : (2 ^ 31 - 1) * 2 ^ 30 / wideGeometry.SCHUNK_SIZE < 2 ^ 31 := by decide
  have near : ¬ wideGeometry.DATACHUNK_NUM ≤ distance wideGeometry ((2 ^ 31 - 1) * 2 ^ 30 / wideGeometry.SCHUNK_SIZE) 62 := by
    decide
  have far : ¬ place_useroff wideGeometry (devoff2stripe wideGeometry ((2 ^ 31 - 1) * 2 ^ 30)) 62 ((2 ^ 31 - 1) * 2 ^ 30) < 2 ^ 64 := by
    decide
  intro otherwise
  have hit := otherwise.mpr (mt (onParity_iff lt int).mp near)
  exact far ((hit_iff lt int).mp hit).2

end Straid.AddressMap
