import Mathlib.Data.Nat.ModEq
import Mathlib.Tactic.Ring

namespace Aix413.Lib.Stripes

/-! Blocks dealt out in stripes of `c` blocks over `w` columns, which are cut into parts of `k`
stripes. Part `p` lies in column `p % w` of set `p / w`. -/

variable {w k c b p o n : Nat}

def part (w k c b : Nat) : Nat := b / c / (k * w) * w + b / c % w

def offset (w k c b : Nat) : Nat := b / c / w % k * c + b % c

/-- The block at an offset of a part. -/
def blockAt (w k c p o : Nat) : Nat := ((p / w * k + o / c) * w + p % w) * c + o % c

theorem part_div (hw : 0 < w) : part w k c b / w = b / c / w / k := by
  rw [part, Nat.add_comm, Nat.add_mul_div_right _ _ hw, Nat.div_eq_of_lt (Nat.mod_lt _ hw),
    Nat.zero_add, Nat.mul_comm k w, Nat.div_div_eq_div_mul (b / c) w k]

theorem part_mod : part w k c b % w = b / c % w := by
  rw [part, Nat.mul_add_mod', Nat.mod_mod]

theorem offset_div (hc : 0 < c) : offset w k c b / c = b / c / w % k := by
  rw [offset, Nat.add_comm, Nat.add_mul_div_right _ _ hc, Nat.div_eq_of_lt (Nat.mod_lt _ hc),
    Nat.zero_add]

theorem offset_mod : offset w k c b % c = b % c := by
  rw [offset, Nat.mul_add_mod', Nat.mod_mod]

theorem offset_lt (hk : 0 < k) (hc : 0 < c) : offset w k c b < k * c := by
  rw [← Nat.div_lt_iff_lt_mul hc, offset_div hc]
  exact Nat.mod_lt _ hk

/-- The place of a block tells which block it is. -/
theorem blockAt_place (hw : 0 < w) (hc : 0 < c) :
    blockAt w k c (part w k c b) (offset w k c b) = b := by
  rw [blockAt, part_div hw, part_mod, offset_div hc, offset_mod, Nat.div_add_mod',
    Nat.div_add_mod', Nat.div_add_mod']

theorem place_injective (hw : 0 < w) (hc : 0 < c) {b' : Nat} (hp : part w k c b = part w k c b')
    (ho : offset w k c b = offset w k c b') : b = b' := by
  rw [← blockAt_place hw hc (b := b), hp, ho, blockAt_place hw hc]

theorem blockAt_div (hc : 0 < c) : blockAt w k c p o / c = (p / w * k + o / c) * w + p % w := by
  rw [blockAt, Nat.add_comm, Nat.add_mul_div_right _ _ hc, Nat.div_eq_of_lt (Nat.mod_lt _ hc),
    Nat.zero_add]

theorem blockAt_row (hw : 0 < w) (hc : 0 < c) :
    blockAt w k c p o / c / w = p / w * k + o / c := by
  rw [blockAt_div hc, Nat.add_comm, Nat.add_mul_div_right _ _ hw,
    Nat.div_eq_of_lt (Nat.mod_lt _ hw), Nat.zero_add]

/-- Every place is that of a block. -/
theorem part_blockAt (hw : 0 < w) (hk : 0 < k) (hc : 0 < c) (ho : o < k * c) :
    part w k c (blockAt w k c p o) = p := by
  have hrow : o / c < k := (Nat.div_lt_iff_lt_mul hc).mpr ho
  have hdiv : part w k c (blockAt w k c p o) / w = p / w := by
    rw [part_div hw, blockAt_row hw hc, Nat.add_comm, Nat.add_mul_div_right _ _ hk,
      Nat.div_eq_of_lt hrow, Nat.zero_add]
  have hmod : part w k c (blockAt w k c p o) % w = p % w := by
    rw [part_mod, blockAt_div hc, Nat.mul_add_mod', Nat.mod_mod]
  rw [← Nat.div_add_mod' (part w k c (blockAt w k c p o)) w, hdiv, hmod, Nat.div_add_mod']

theorem offset_blockAt (hw : 0 < w) (hc : 0 < c) (ho : o < k * c) :
    offset w k c (blockAt w k c p o) = o := by
  have hrow : o / c < k := (Nat.div_lt_iff_lt_mul hc).mpr ho
  have hmod : blockAt w k c p o % c = o % c := by rw [blockAt, Nat.mul_add_mod', Nat.mod_mod]
  rw [offset, blockAt_row hw hc, hmod, Nat.mul_add_mod', Nat.mod_eq_of_lt hrow, Nat.div_add_mod']

/-- The blocks of the first `n` sets of parts. -/
theorem part_lt_iff (hw : 0 < w) (hk : 0 < k) (hc : 0 < c) :
    part w k c b < n * w ↔ b < n * (w * (k * c)) := by
  rw [← Nat.div_lt_iff_lt_mul hw, part_div hw, Nat.div_lt_iff_lt_mul hk,
    Nat.div_lt_iff_lt_mul hw, Nat.div_lt_iff_lt_mul hc,
    show n * (w * (k * c)) = n * k * w * c by ring]

/-- The next block of a stripe is the next block of its part. -/
theorem place_succ (h : (b + 1) / c = b / c) :
    part w k c (b + 1) = part w k c b ∧ offset w k c (b + 1) = offset w k c b + 1 := by
  have hmod : (b + 1) % c = b % c + 1 := by
    have h1 := Nat.div_add_mod' (b + 1) c
    have h2 := Nat.div_add_mod' b c
    rw [h] at h1
    omega
  exact ⟨by rw [part, part, h], by rw [offset, offset, h, hmod, Nat.add_assoc]⟩

end Aix413.Lib.Stripes
