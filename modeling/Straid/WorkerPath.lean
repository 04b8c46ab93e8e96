import Straid.Runs

/-!
The write branch of the workers against `raid_write_direct`. Both split a request
into stripes and take a round for each, but a worker writes the whole request in
every round. In one stripe the whole request is the piece (`one_piece`), and the
two paths are the same; a request of several stripes fails in the first round of
a worker, where `split_chunk2dio` asserts that it is in one (`whole_fails`).
-/
namespace Straid.WorkerPath
open LogFiles Metadata Split Encode EcEncoder StorageMod Runs Cuts

variable (g : Geometry) (isal : Isal)

/-- The worker of a request makes the calls of `raid_write` that
    `raid_write_direct` makes: none fails, there is one for each piece, in order,
    and the lock that the rounds take, of the stripe of the request's offset, is
    that of the piece. -/
structure Agrees (mem : Nat → Byte) (uio : UioInfo) (st : Store) : Prop where
  same : workers_run_write g isal mem uio.user_id uio st = raid_write_direct g isal mem uio st
  calls : ∃ submissions after, workers_run_write g isal mem uio.user_id uio st = some (submissions, after) ∧
    submissions.map Submission.piece = split_stripe_aligned g uio ∧
    ∀ submission ∈ submissions, user2stripe g submission.piece.user_offset = user2stripe g uio.user_offset

variable {g}

/-- A request in one stripe is its one piece. -/
theorem one_piece {uio : UioInfo} (one : OneStripe g uio) : split_stripe_aligned g uio = [uio] := by
  have same := one.one
  rw [user2stripe_eq, user2stripe_eq] at same
  rw [split_stripe_aligned_valid one.toValid, cut_one one.positive same g.stripe_pos]
  simp [pieceOf]

/-- The rounds of the two loops are the same on a request that is its piece. -/
theorem worker_pieces_one (mem : Nat → Byte) (uio : UioInfo) (st : Store) :
    worker_pieces g isal mem uio [uio] st = write_pieces g isal mem uio [uio] st := rfl

/-- `raid_write` of a request of several stripes fails. -/
theorem raid_write_fails {uio : UioInfo} (valid : uio.Valid g)
    (several : user2stripe g (uio.user_offset + uio.length - 1) ≠ user2stripe g uio.user_offset) (mem : Nat → Byte)
    (st : Store) : raid_write g isal mem uio st = none := by
  have user := valid.user
  have positive := valid.positive
  have signed := g.user_signed
  have stripes : ((user2stripe g uio.user_offset : Nat) : Int) ≠ (user2stripe g (uio.user_offset + uio.length - 1) : Nat) := by
    omega
  have split : split_chunk2dio g uio = none := by
    rw [split_chunk2dio, last_byte positive (by omega), user2dev_user (by omega), user2dev_user (by omega)]
    exact if_pos stripes
  rw [raid_write]
  simp only [split, Option.bind_eq_bind, Option.bind_none]
  split <;> rfl

/-- A worker fails on it in its first round. -/
theorem whole_fails {uio : UioInfo} (valid : uio.Valid g)
    (several : user2stripe g (uio.user_offset + uio.length - 1) ≠ user2stripe g uio.user_offset) (mem : Nat → Byte)
    (st : Store) : workers_run_write g isal mem uio.user_id uio st = none := by
  have round : ∀ st, write_piece g isal mem uio uio st = none := by
    intro st
    unfold write_piece
    cases search_SST g (user2stripe g uio.user_offset) with
    | none => rfl
    | some sse =>
      simp only [Option.bind_eq_bind, Option.bind_some, raid_write_fails isal valid several, Option.bind_none]
      split <;> rfl
  unfold workers_run_write
  show (if (split_stripe_aligned g uio).length = 0 then none
    else worker_pieces g isal mem uio (split_stripe_aligned g uio) st) = none
  cases split_stripe_aligned g uio with
  | nil => rfl
  | cons piece pieces => simp only [worker_pieces, round, Option.bind_eq_bind, Option.bind_none, ite_self]

/-- Between calls, a worker and `raid_write_direct` agree on a request exactly
    when it lies in one stripe. -/
theorem agrees_iff {uio : UioInfo} (valid : uio.Valid g) (mem : Nat → Byte) {st : Store} (quiet : Quiet g st) :
    Agrees g isal mem uio st ↔ user2stripe g (uio.user_offset + uio.length - 1) = user2stripe g uio.user_offset := by
  constructor
  · intro agrees
    by_contra several
    obtain ⟨submissions, after, result, _, _⟩ := agrees.calls
    rw [whole_fails isal valid several] at result
    contradiction
  · intro one
    have pieces := one_piece ⟨valid, one⟩
    obtain ⟨writes, after, written, _, _⟩ := write_piece_spec isal valid (c := ⟨uio, mem⟩) ⟨valid, one⟩ quiet
    have same : workers_run_write g isal mem uio.user_id uio st = raid_write_direct g isal mem uio st := by
      unfold workers_run_write raid_write_direct
      show (if (split_stripe_aligned g uio).length = 0 then none
        else worker_pieces g isal mem uio (split_stripe_aligned g uio) st) = _
      rw [pieces, worker_pieces_one]
    have direct : raid_write_direct g isal mem uio st = some ([⟨uio, writes⟩], after) := by
      simp only [raid_write_direct, pieces, List.length_singleton, one_ne_zero, ↓reduceIte, write_pieces, written,
        Option.bind_eq_bind, Option.bind_some]
    constructor
    · exact same
    · refine ⟨_, _, same.trans direct, pieces.symm, ?_⟩
      intro submission member
      rw [List.mem_singleton.mp member]

/-- A block, in the constructed state. -/
theorem agrees_block : Agrees defaultGeometry Isal.reference (fun a => a) ⟨3, true, 4096, 8192, 4096⟩
      (Store.fresh defaultGeometry (fun _ _ => 0) (fun _ => 0) fun _ => 0) ↔
    user2stripe defaultGeometry (8192 + 4096 - 1) = user2stripe defaultGeometry 8192 :=
  agrees_iff Isal.reference (show UioInfo.Valid defaultGeometry ⟨3, true, 4096, 8192, 4096⟩ by decide) _
    (fresh_quiet _ _ _)

/-- Two blocks on either side of the end of the first stripe. -/
theorem agrees_two_stripes : UioInfo.Valid defaultGeometry ⟨3, true, 4096, 454656, 8192⟩ ∧
    ¬ Agrees defaultGeometry Isal.reference (fun a => a) ⟨3, true, 4096, 454656, 8192⟩
      (Store.fresh defaultGeometry (fun _ _ => 0) (fun _ => 0) fun _ => 0) := by
  have valid : UioInfo.Valid defaultGeometry ⟨3, true, 4096, 454656, 8192⟩ := by decide
  refine ⟨valid, fun agrees => ?_⟩
  obtain ⟨submissions, after, result, _, _⟩ := agrees.calls
  have fails := whole_fails Isal.reference valid (by decide) (fun a => a)
    (Store.fresh defaultGeometry (fun _ _ => 0) (fun _ => 0) fun _ => 0)
  exact absurd (fails.symm.trans result) (by simp)

end Straid.WorkerPath
