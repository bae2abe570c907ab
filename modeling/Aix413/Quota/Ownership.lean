import Aix413.Quota.Chown

namespace Aix413.Quota

open Call

/-! ## Usage in units of 512 bytes -/

def Dquot.units (d : Dquot) : Nat := 2 * d.dqCurblocks.toNat + (dqcarry d.dqBtime).toNat

/-- The block usage, the half block carried and the inode usage of a dquot. -/
def Dquot.usage (d : Dquot) : UInt32 × UInt32 × UInt32 :=
  (d.dqCurblocks, dqcarry d.dqBtime, d.dqCurinodes)

variable {c : Call} {d : Dquot} {s s' : Fs} {t : QType} {p : Nat}

/-- The 512-byte units that the inode holds. -/
def Call.units (c : Call) : Nat := c.bytes / 512

theorem bytes_eq (c : Call) : c.bytes = 512 * c.units := by
  have hdvd : 512 ∣ c.bytes := by
    unfold Call.bytes
    refine Dvd.dvd.mul_left ?_ _
    have hf := c.fragments
    simp only [List.mem_cons, List.not_mem_nil, or_false] at hf
    rcases hf with h | h | h | h <;> rw [h] <;> decide
  exact (Nat.mul_div_cancel' hdvd).symm

theorem carry_lt (x : UInt32) : (dqcarry x).toNat < 2 := by
  unfold dqcarry
  rw [UInt32.toNat_shiftRight]
  have hx := x.toNat_lt
  have h31 : (31 : UInt32).toNat % 32 = 31 := rfl
  rw [h31, Nat.shiftRight_eq_div_pow]
  omega

theorem carry_cases (x : UInt32) : dqcarry x = 0 ∨ dqcarry x = 1 := by
  have h := carry_lt x
  have hcase : (dqcarry x).toNat = 0 ∨ (dqcarry x).toNat = 1 := by omega
  exact hcase.imp (fun h => UInt32.toNat_inj.mp h) fun h => UInt32.toNat_inj.mp h

theorem dqcarry_dqsbtime (x t : UInt32) (hx : x = 0 ∨ x = 1) : dqcarry (dqsbtime x t) = x := by
  unfold dqcarry dqsbtime dqcbit
  apply UInt32.toBitVec_inj.mp
  rcases hx with rfl | rfl
  · ext i hi
    simp
    interval_cases i <;> simp
  · ext i hi
    simp
    interval_cases i <;> simp

theorem npart_cases (c : Call) : c.npart = 0 ∨ c.npart = 1 := by
  unfold npart
  split <;> simp

theorem npart_toNat (c : Call) : c.npart.toNat = c.units % 2 := by
  have hmod : c.nbytes % 1024 = ((512 * c.units % 1024 : Nat) : Int) := by
    unfold nbytes
    rw [bytes_eq, Int.bmod_def]
    norm_num
    split <;> omega
  unfold npart dqbsize
  split
  next h =>
    have h1 : (1 : UInt32).toNat = 1 := rfl
    norm_num at h
    rw [h1]
    omega
  next h =>
    have h0 : (0 : UInt32).toNat = 0 := rfl
    norm_num at h
    rw [h0]
    omega

/-- The blocks that are due, with one to borrow from for the half of one that is
not carried. -/
def due (c : Call) (d : Dquot) : Nat :=
  (c.units + 1 - (dqcarry d.dqBtime).toNat) / 2

/-- An odd number of units is taken only where a half block is carried, or one from
an owner of two. The `int` of `2^31` bytes or more must come out by chance. -/
def OldOk (c : Call) (d : Dquot) : Prop :=
  if c.bytes < 2 ^ 31 then
    c.units % 2 = 1 → dqcarry d.dqBtime = 1 ∨ c.units = 1 ∧ d.dqCurblocks = 1
  else (taken c d).toNat = due c d ∨ d.dqCurblocks.toNat = due c d ∧ d.dqCurblocks < taken c d

/-- The owner is charged at least what the inode holds. -/
structure Charged (c : Call) (d : Dquot) : Prop where
  units : c.units ≤ d.units
  inodes : 0 < d.dqCurinodes

/-- The inode has gone from the usage. -/
structure Taken (c : Call) (d d' : Dquot) : Prop where
  units : d'.units + c.units = d.units
  inodes : d'.dqCurinodes.toNat + 1 = d.dqCurinodes.toNat

/-- The counts of the new owner stay within 32 bits. The `int` of `2^31` bytes or
more must come out by chance. -/
structure NewOk (c : Call) (d : Dquot) : Prop where
  inodes : d.dqCurinodes.toNat + 1 < 2 ^ 32
  blocks :
    if c.bytes < 2 ^ 31 then
      d.dqCurblocks.toNat + (c.units + (dqcarry d.dqBtime).toNat) / 2 < 2 ^ 32
    else
      (d.dqCurblocks + (c.nblocks + (c.npart &&& dqcarry d.dqBtime))).toNat =
        d.dqCurblocks.toNat + (c.units + (dqcarry d.dqBtime).toNat) / 2

/-- The inode has come to the usage. -/
structure Given (c : Call) (d d' : Dquot) : Prop where
  units : d'.units = d.units + c.units
  inodes : d'.dqCurinodes.toNat = d.dqCurinodes.toNat + 1

end Aix413.Quota
