import Aix413.Lvm.Striping

namespace Aix413.Lvm.Striping

open Aix413.Lib.Stripes

variable {g : StripedLv} {parts : Nat → Part} {b b' n p : Nat} {x y : Place}

namespace StripedLv

/-- The disk blocks of a stripe. -/
def stripeBlks (g : StripedLv) : Nat := 2 ^ (g.stripeExp - dbshift)

/-- The stripes of a partition. -/
def partStripes (g : StripedLv) : Nat := 2 ^ (g.partExp - g.stripeExp)

/-- The disk blocks of a partition. -/
def partBlks (g : StripedLv) : Nat := 2 ^ (g.partExp - dbshift)

theorem stripeBlks_pos (g : StripedLv) : 0 < g.stripeBlks := Nat.two_pow_pos _

theorem partStripes_pos (g : StripedLv) : 0 < g.partStripes := Nat.two_pow_pos _

theorem partBlks_eq (g : StripedLv) : g.partStripes * g.stripeBlks = g.partBlks := by
  have h1 := g.dbshift_le
  have h2 := g.stripe_le
  rw [partStripes, stripeBlks, partBlks, ← Nat.pow_add]
  congr 1
  omega

theorem partBlks_lt (g : StripedLv) : g.partBlks < 2 ^ 32 :=
  lt_of_le_of_lt (Nat.le_mul_of_pos_left _ g.width_pos) g.set_lt

theorem setStripes_lt (g : StripedLv) : g.partStripes * g.width < 2 ^ 32 := by
  refine lt_of_le_of_lt ?_ g.set_lt
  rw [Nat.mul_comm]
  refine Nat.mul_le_mul_left _ ?_
  change _ ≤ g.partBlks
  rw [← g.partBlks_eq]
  exact Nat.le_mul_of_pos_right _ g.stripeBlks_pos

theorem partStripes_lt (g : StripedLv) : g.partStripes < 2 ^ 32 :=
  lt_of_le_of_lt (Nat.le_mul_of_pos_right _ g.width_pos) g.setStripes_lt

end StripedLv

/-- The volume that a partition can be read and written on. -/
def usable (q : Part) : Option Pvol := q.pvol.filter fun pv => !(q.reducing || pv.missing)

/-- What `hd_stripe_xlate` computes. -/
theorem hdStripeXlate_eq (g : StripedLv) (parts : Nat → Part) (b : Nat) :
    hdStripeXlate g.partExp g.stripeExp g.width parts b =
      (usable (parts (part g.width g.partStripes g.stripeBlks b))).map fun pv => {
        part := part g.width g.partStripes g.stripeBlks b
        dev := pv.dev
        block := ((parts (part g.width g.partStripes g.stripeBlks b)).start +
          offset g.width g.partStripes g.stripeBlks b) % 2 ^ 32 } := by
  have hps : 1 <<< (g.partExp - g.stripeExp) % 2 ^ 32 = g.partStripes := by
    rw [Nat.one_shiftLeft]
    exact Nat.mod_eq_of_lt g.partStripes_lt
  have hset : g.partStripes * g.width % 2 ^ 32 = g.partStripes * g.width :=
    Nat.mod_eq_of_lt g.setStripes_lt
  have hnum : b >>> (g.stripeExp - dbshift) = b / g.stripeBlks := Nat.shiftRight_eq_div_pow _ _
  have hoff : (b / g.stripeBlks / g.width % g.partStripes) <<< (g.stripeExp - dbshift) +
      b % 2 ^ (g.stripeExp - dbshift) = offset g.width g.partStripes g.stripeBlks b := by
    rw [Nat.shiftLeft_eq]
    rfl
  have hpart : b / g.stripeBlks / (g.partStripes * g.width) * g.width + b / g.stripeBlks % g.width =
      part g.width g.partStripes g.stripeBlks b := rfl
  unfold hdStripeXlate
  dsimp only
  rw [hps, hset, hnum, Nat.one_shiftLeft, hpart]
  generalize parts (part g.width g.partStripes g.stripeBlks b) = q
  unfold usable
  cases hpv : q.pvol with
  | none => rfl
  | some pv =>
    rw [Option.filter_some]
    cases hbad : q.reducing || pv.missing with
    | true => simp [hbad]
    | false => simp only [hbad, Bool.not_false, if_true, Option.map_some, Nat.add_assoc, hoff,
        Bool.false_eq_true, if_false]

/-- The translation of the blocks of a logical volume of `n` sets of partitions. -/
structure Translates (g : StripedLv) (parts : Nat → Part) (n : Nat) : Prop where
  /-- Different blocks have different places. -/
  distinct : ∀ {b b' x y}, hdStripeXlate g.partExp g.stripeExp g.width parts b = some x →
    hdStripeXlate g.partExp g.stripeExp g.width parts b' = some y →
    x.part = y.part → x.block = y.block → b = b'
  /-- Places are inside their partitions, on the volumes of these. -/
  inside : ∀ {b x}, b < n * (g.width * g.partBlks) →
    hdStripeXlate g.partExp g.stripeExp g.width parts b = some x →
    x.part < n * g.width ∧ (∃ pv, usable (parts x.part) = some pv ∧ x.dev = pv.dev) ∧
      ∃ o < g.partBlks, x.block = ((parts x.part).start + o) % 2 ^ 32
  /-- Consecutive blocks of a stripe have consecutive places. -/
  consecutive : ∀ {b x}, (b + 1) / g.stripeBlks = b / g.stripeBlks →
    hdStripeXlate g.partExp g.stripeExp g.width parts b = some x →
    hdStripeXlate g.partExp g.stripeExp g.width parts (b + 1) =
      some { x with block := (x.block + 1) % 2 ^ 32 }
  /-- Every block of a usable partition is the place of a block. -/
  onto : ∀ {p o pv}, p < n * g.width → usable (parts p) = some pv → o < g.partBlks →
    ∃ b < n * (g.width * g.partBlks),
      hdStripeXlate g.partExp g.stripeExp g.width parts b =
        some ⟨p, pv.dev, ((parts p).start + o) % 2 ^ 32⟩

theorem translates (g : StripedLv) (parts : Nat → Part) (n : Nat) : Translates g parts n := by
  have hw := g.width_pos
  have hk := g.partStripes_pos
  have hc := g.stripeBlks_pos
  have hblks := g.partBlks_eq
  have hlt := g.partBlks_lt
  constructor
  · intro b b' x y hx hy hp ho
    rw [hdStripeXlate_eq, Option.map_eq_some_iff] at hx hy
    obtain ⟨_, -, rfl⟩ := hx
    obtain ⟨_, -, rfl⟩ := hy
    dsimp only at hp ho
    refine place_injective hw hc hp ?_
    -- both offsets are below 2^32
    have h1 := offset_lt (w := g.width) (b := b) hk hc
    have h2 := offset_lt (w := g.width) (b := b') hk hc
    rw [hp] at ho
    omega
  · intro b x hb hx
    rw [hdStripeXlate_eq, Option.map_eq_some_iff] at hx
    obtain ⟨pv, hpv, rfl⟩ := hx
    refine ⟨(part_lt_iff hw hk hc).mpr (by rwa [hblks]), ⟨pv, hpv, rfl⟩, _, ?_, rfl⟩
    rw [← hblks]
    exact offset_lt hk hc
  · intro b x hb hx
    obtain ⟨hp, ho⟩ := place_succ (w := g.width) (k := g.partStripes) hb
    rw [hdStripeXlate_eq, Option.map_eq_some_iff] at hx
    obtain ⟨pv, hpv, rfl⟩ := hx
    rw [hdStripeXlate_eq, hp, hpv, ho, Option.map_some]
    dsimp only
    congr 2
    omega
  · intro p o pv hp hpv ho
    rw [← hblks] at ho
    have hpart := part_blockAt (p := p) hw hk hc ho
    have hoff := offset_blockAt (p := p) hw hc ho
    refine ⟨blockAt g.width g.partStripes g.stripeBlks p o, ?_, ?_⟩
    · rw [← hblks, ← part_lt_iff hw hk hc, hpart]
      exact hp
    · rw [hdStripeXlate_eq, hpart, hoff, hpv, Option.map_some]

end Aix413.Lvm.Striping
