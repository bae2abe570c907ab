import Aix413.Quota.Ownership

namespace Aix413.Quota.Charging

/-- A change of `nfrags` fragments of an inode: the dquots of the inode, one to
a type, the fragment size, the user and what the system's clock and the mount
structure of each dquot say. -/
structure Charge where
  iDquot : QType → Option Nat
  apart : ∀ p, iDquot .usrquota = some p → iDquot .grpquota ≠ some p
  iUid : UInt32
  uUid : UInt32
  nfrags : Int
  fperpage : Nat
  fragments : fperpage ∈ [1, 2, 4, 8]
  time : UInt32
  jmBtime : QType → UInt32
  dqlocked : Bool

inductive Rc
  | ok
  | edquot
  | vmWait
  deriving DecidableEq, Repr

abbrev Dquots := Nat → Dquot

def modify (f : Dquot → Dquot) (o : Option Nat) (s : Dquots) : Dquots :=
  match o with
  | none => s
  | some p => Function.update s p (f (s p))

namespace Charge

variable (c : Charge)

/-- The bytes of the fragments, before they are put in an `int`. -/
def bytes : Int := c.nfrags * (pagesize / c.fperpage : Nat)

def nbytes : Int := Int.bmod c.bytes (2 ^ 32)

def nblocks : Int := c.nbytes.tdiv dqbsize

/-- `nbytes & (DQBSIZE-1)`, as a flag. -/
def npart : UInt32 := if c.nbytes % dqbsize ≠ 0 then 1 else 0

/-- The usage in blocks with `blocks` and the half blocks added, as an `int`. -/
def cblocks (blocks : Int) (d : Dquot) : Int :=
  Int.bmod (blocks + d.dqCurblocks.toNat + (dqcarry d.dqBtime &&& c.npart).toNat) (2 ^ 32)

/-- The flag that the user has been told. -/
def warn (d : Dquot) : Dquot :=
  if d.dqBlks = false ∧ c.iUid = c.uUid then { d with dqBlks := true } else d

/-- One turn of the loop of `v_allocdq`. -/
def allocType (t : QType) (s : Dquots) : Rc × Dquots :=
  match c.iDquot t with
  | none => (.ok, s)
  | some p =>
    let d := s p
    let cblocks := UInt32.ofInt (c.cblocks c.nblocks d)
    if d.dqBhardlimit ≠ 0 ∧ cblocks ≥ d.dqBhardlimit then
      (.edquot, Function.update s p (c.warn d))
    else if d.dqBsoftlimit ≠ 0 ∧ cblocks ≥ d.dqBsoftlimit ∧ d.dqCurblocks ≥ d.dqBsoftlimit ∧
        c.time > dqbtime d.dqBtime then
      (.edquot, Function.update s p (c.warn d))
    else (.ok, s)

/-- `v_allocdq`. -/
def v_allocdq (s : Dquots) : Rc × Dquots :=
  if c.nfrags = 0 then (.ok, s)
  else if c.dqlocked then (.vmWait, s)
  else if c.uUid = 0 then (.ok, s)
  else
    match c.allocType .usrquota s with
    | (.ok, s) => c.allocType .grpquota s
    | r => r

/-- The blocks that `v_upddqblks` adds. -/
def updBlocks : Int := if c.nfrags < 0 then c.nblocks - c.npart.toNat else c.nblocks

/-- The new usage in blocks. -/
def newBlocks (d : Dquot) : UInt32 :=
  UInt32.ofInt (if c.cblocks c.updBlocks d < 0 then 0 else c.cblocks c.updBlocks d)

/-- The soft limit is reached by this change. -/
def reaches (d : Dquot) : Prop :=
  (c.nfrags > 0 ∧ d.dqBsoftlimit ≠ 0 ∧ c.uUid ≠ 0) ∧
    c.newBlocks d ≥ d.dqBsoftlimit ∧ d.dqCurblocks < d.dqBsoftlimit

instance (d : Dquot) : Decidable (c.reaches d) := by unfold reaches; infer_instance

/-- `dq_btime` before the half block goes in. -/
def newBtime (t : QType) (d : Dquot) : UInt32 :=
  if c.reaches d then dqbtime (c.time + c.jmBtime t) else d.dqBtime

/-- One turn of the loop of `v_upddqblks`. -/
def updDquot (t : QType) (d : Dquot) : Dquot :=
  { d with
    dqCurblocks := c.newBlocks d
    dqBtime := dqsbtime (c.npart ^^^ dqcarry d.dqBtime) (c.newBtime t d)
    dqBlks := false
    dqMod := true }

/-- `v_upddqblks`. -/
def v_upddqblks (s : Dquots) : Dquots :=
  modify (c.updDquot .grpquota) (c.iDquot .grpquota)
    (modify (c.updDquot .usrquota) (c.iDquot .usrquota) s)

/-- The 512-byte units of the change. -/
def units : Int := c.nfrags * (8 / c.fperpage : Nat)

/-- The bytes of the change are in the range of an `int`. -/
def Fits : Prop := -2 ^ 31 ≤ c.bytes ∧ c.bytes < 2 ^ 31

instance : Decidable c.Fits := by unfold Fits; infer_instance

/-- The units charged to the dquot `p`. -/
def charged (p : Nat) : Int :=
  if c.iDquot .usrquota = some p ∨ c.iDquot .grpquota = some p then c.units else 0

end Charge

open Charge

variable {c : Charge} {d : Dquot} {s s' : Dquots} {p : Nat} {t : QType}

theorem bytes_eq (c : Charge) : c.bytes = 512 * c.units := by
  have hf := c.fragments
  unfold bytes Charge.units
  simp only [List.mem_cons, List.not_mem_nil, or_false] at hf
  rcases hf with h | h | h | h <;> rw [h] <;> simp [pagesize] <;> ring

theorem units_neg_iff (c : Charge) : c.units < 0 ↔ c.nfrags < 0 := by
  have hf := c.fragments
  unfold Charge.units
  simp only [List.mem_cons, List.not_mem_nil, or_false] at hf
  rcases hf with h | h | h | h <;> rw [h] <;> norm_num <;> omega

theorem nbytes_eq (h : c.Fits) : c.nbytes = 512 * c.units := by
  have hb := bytes_eq c
  obtain ⟨h1, h2⟩ := h
  unfold nbytes
  rw [hb] at h1 h2 ⊢
  exact Int.bmod_eq_of_le (by omega) (by omega)

theorem npart_cases (c : Charge) : c.npart = 0 ∨ c.npart = 1 := by
  unfold npart
  split <;> simp

theorem npart_toNat (h : c.Fits) : (c.npart.toNat : Int) = c.units % 2 := by
  have hn := nbytes_eq h
  have h0 : (0 : UInt32).toNat = 0 := rfl
  have h1 : (1 : UInt32).toNat = 1 := rfl
  unfold npart dqbsize
  rw [hn]
  split
  next hne =>
    push_cast at hne
    omega
  next he =>
    push_cast at he
    omega

/-- Truncating division and the correction for negative counts come to the
quotient rounded down. -/
theorem updBlocks_eq (h : c.Fits) : c.updBlocks = c.units / 2 := by
  have hn := nbytes_eq h
  have hp := npart_toNat h
  have hneg := units_neg_iff c
  have hsign : Int.sign 1024 = 1 := rfl
  have htdiv := Int.tdiv_eq_ediv (a := 512 * c.units) (b := 1024)
  rw [hsign] at htdiv
  unfold updBlocks nblocks dqbsize
  rw [hn, hp]
  push_cast
  rw [htdiv]
  split
  next hlt =>
    have hu := hneg.mpr hlt
    split
    next hdvd => omega
    next hdvd => omega
  next hge =>
    have hu : ¬c.units < 0 := fun hu => hge (hneg.mp hu)
    rw [if_pos (Or.inl (by omega))]
    omega

/-- The half block carried and the one added. -/
theorem carry_add (x y : UInt32) (hx : x = 0 ∨ x = 1) (hy : y = 0 ∨ y = 1) :
    2 * (x &&& y).toNat + (y ^^^ x).toNat = x.toNat + y.toNat := by
  rcases hx with rfl | rfl <;> rcases hy with rfl | rfl <;> rfl

theorem xor_cases (x y : UInt32) (hx : x = 0 ∨ x = 1) (hy : y = 0 ∨ y = 1) :
    y ^^^ x = 0 ∨ y ^^^ x = 1 := by
  rcases hx with rfl | rfl <;> rcases hy with rfl | rfl <;> decide

theorem toNat_ofInt (x : Int) : ((UInt32.ofInt x).toNat : Int) = x % 2 ^ 32 := by
  rw [UInt32.ofInt, UInt32.toNat_ofNat', Nat.mod_eq_of_lt (by omega)]
  omega

/-- The new number of blocks, while the usage is in the range of an `int`. -/
theorem newBlocks_toNat (h : c.Fits) (h0 : 0 ≤ d.units + c.units)
    (h1 : d.units + c.units < 2 ^ 32) :
    2 * ((c.newBlocks d).toNat : Int) + (c.npart ^^^ dqcarry d.dqBtime).toNat =
      d.units + c.units := by
  have hu := updBlocks_eq h
  have hp := npart_toNat h
  have hcarry := carry_add _ _ (carry_cases d.dqBtime) (npart_cases c)
  have hxor : (c.npart ^^^ dqcarry d.dqBtime).toNat < 2 := by
    rcases xor_cases _ _ (carry_cases d.dqBtime) (npart_cases c) with hx | hx <;> rw [hx] <;> decide
  have hunits : d.units = 2 * d.dqCurblocks.toNat + (dqcarry d.dqBtime).toNat := rfl
  have hsum : 2 * (c.updBlocks + d.dqCurblocks.toNat + (dqcarry d.dqBtime &&& c.npart).toNat) +
      (c.npart ^^^ dqcarry d.dqBtime).toNat = d.units + c.units := by omega
  have hc : c.cblocks c.updBlocks d =
      c.updBlocks + d.dqCurblocks.toNat + (dqcarry d.dqBtime &&& c.npart).toNat :=
    Int.bmod_eq_of_le (by omega) (by omega)
  unfold newBlocks
  rw [hc, if_neg (by omega), toNat_ofInt]
  omega

theorem dqbtime_dqsbtime (x t : UInt32) (hx : x = 0 ∨ x = 1) :
    dqbtime (dqsbtime x t) = dqbtime t := by
  unfold dqbtime dqsbtime dqcbit
  apply UInt32.toBitVec_inj.mp
  rcases hx with rfl | rfl
  · ext i hi
    simp
  · ext i hi
    simp
    interval_cases i <;> simp

/-! ## One dquot -/

/-- The usage of a dquot after a change. -/
theorem updDquot_units (h : c.Fits) (h0 : 0 ≤ d.units + c.units)
    (h1 : d.units + c.units < 2 ^ 32) : ((c.updDquot t d).units : Int) = d.units + c.units := by
  have hx := xor_cases _ _ (carry_cases d.dqBtime) (npart_cases c)
  rw [← newBlocks_toNat h h0 h1]
  simp only [Dquot.units, updDquot, dqcarry_dqsbtime _ _ hx]
  push_cast
  rfl

/-- The time changes only when the soft limit is reached. -/
theorem updDquot_time (h : dqbtime (c.updDquot t d).dqBtime ≠ dqbtime d.dqBtime) :
    d.dqBsoftlimit ≠ 0 ∧ d.dqCurblocks < d.dqBsoftlimit ∧
      (c.updDquot t d).dqCurblocks ≥ d.dqBsoftlimit := by
  have hx := xor_cases _ _ (carry_cases d.dqBtime) (npart_cases c)
  simp only [updDquot, dqbtime_dqsbtime _ _ hx] at h ⊢
  unfold newBtime at h
  split at h
  next hr => exact ⟨hr.1.2.1, hr.2.2, hr.2.1⟩
  next hr => exact absurd rfl h

theorem bmod_range (x : Int) : -2 ^ 31 ≤ Int.bmod x (2 ^ 32) ∧ Int.bmod x (2 ^ 32) < 2 ^ 31 ∧
    Int.bmod x (2 ^ 32) % 2 ^ 32 = x % 2 ^ 32 := by
  have h1 := Int.le_bmod (x := x) (m := 2 ^ 32) (by norm_num)
  have h2 := Int.bmod_lt (x := x) (m := 2 ^ 32) (by norm_num)
  have h3 : Int.bmod x (2 ^ 32) % ((2 ^ 32 : Nat) : Int) = x % ((2 ^ 32 : Nat) : Int) :=
    Int.bmod_emod
  norm_num at h1 h2 h3 ⊢
  exact ⟨by omega, by omega, h3⟩

/-- What `v_allocdq` compares with the hard limit bounds what `v_upddqblks`
leaves. -/
theorem newBlocks_lt {limit : UInt32} (hl : limit ≠ 0)
    (h : UInt32.ofInt (c.cblocks c.nblocks d) < limit) : c.newBlocks d < limit := by
  have hpos : 0 < limit.toNat := by
    by_contra hn
    exact hl (UInt32.toNat_inj.mp (by simpa using hn))
  have hlt : ((UInt32.ofInt (c.cblocks c.nblocks d)).toNat : Int) < limit.toNat :=
    Int.ofNat_lt.mpr (UInt32.lt_iff_toNat_lt.mp h)
  refine UInt32.lt_iff_toNat_lt.mpr (Int.ofNat_lt.mp ?_)
  have hn := npart_cases c
  unfold newBlocks
  rw [toNat_ofInt] at hlt ⊢
  unfold cblocks at hlt ⊢
  set x := (dqcarry d.dqBtime &&& c.npart).toNat
  obtain ⟨h1, h2, h3⟩ := bmod_range (c.nblocks + d.dqCurblocks.toNat + x)
  have hblocks : c.updBlocks = c.nblocks ∨ c.updBlocks = c.nblocks - 1 := by
    unfold updBlocks
    have hz : (0 : UInt32).toNat = 0 := rfl
    have ho : (1 : UInt32).toNat = 1 := rfl
    split
    · rcases hn with hn | hn <;> rw [hn] <;> omega
    · exact Or.inl rfl
  rcases hblocks with hb | hb
  · rw [hb]
    split <;> omega
  · obtain ⟨h4, h5, h6⟩ := bmod_range (c.updBlocks + d.dqCurblocks.toNat + x)
    rw [hb] at h4 h5 h6 ⊢
    split <;> omega

/-! ## The dquots of an inode -/

/-- A call changes the dquots of its inode, each once, and no others. -/
theorem v_upddqblks_apply (c : Charge) (s : Dquots) (p : Nat) :
    (∃ t, c.iDquot t = some p ∧ c.v_upddqblks s p = c.updDquot t (s p)) ∨
      (∀ t, c.iDquot t ≠ some p) ∧ c.v_upddqblks s p = s p := by
  have hmod : ∀ (f : Dquot → Dquot) (o : Option Nat) (s : Dquots),
      (o = some p → modify f o s p = f (s p)) ∧ (o ≠ some p → modify f o s p = s p) := by
    intro f o s
    cases o with
    | none => exact ⟨fun h => (nomatch h), fun _ => rfl⟩
    | some q =>
      refine ⟨fun h => ?_, fun h => ?_⟩
      · obtain rfl := Option.some.inj h
        exact Function.update_self _ _ _
      · exact Function.update_of_ne (fun he => h (congrArg some he.symm)) _ _
  unfold v_upddqblks
  by_cases hu : c.iDquot .usrquota = some p
  · refine Or.inl ⟨.usrquota, hu, ?_⟩
    rw [(hmod _ _ _).2 (c.apart p hu), (hmod _ _ _).1 hu]
  · by_cases hg : c.iDquot .grpquota = some p
    · refine Or.inl ⟨.grpquota, hg, ?_⟩
      rw [(hmod _ _ _).1 hg, (hmod _ _ _).2 hu]
    · refine Or.inr ⟨fun t => ?_, ?_⟩
      · cases t with
        | usrquota => exact hu
        | grpquota => exact hg
      · rw [(hmod _ _ _).2 hg, (hmod _ _ _).2 hu]

theorem charged_of_mem (h : c.iDquot t = some p) : c.charged p = c.units := by
  refine if_pos ?_
  cases t with
  | usrquota => exact Or.inl h
  | grpquota => exact Or.inr h

theorem charged_of_not_mem (h : ∀ t, c.iDquot t ≠ some p) : c.charged p = 0 :=
  if_neg (not_or.mpr ⟨h .usrquota, h .grpquota⟩)

def run (cs : List Charge) (s : Dquots) : Dquots := cs.foldl (fun s c => c.v_upddqblks s) s

/-- The units that a sequence of calls charges to the dquot `p`. -/
def total (cs : List Charge) (p : Nat) : Int := (cs.map fun c => c.charged p).sum

/-- From the totals `base` on, no total goes below zero or to `2^31` blocks. -/
def InRange (base : Nat → Int) : List Charge → Prop
  | [] => True
  | c :: cs => c.Fits ∧
      (∀ t p, c.iDquot t = some p → 0 ≤ base p + c.charged p ∧ base p + c.charged p < 2 ^ 32) ∧
      InRange (fun p => base p + c.charged p) cs

/-- One call charges what it says. -/
theorem v_upddqblks_units (h : c.Fits) (hr : ∀ t p, c.iDquot t = some p →
      0 ≤ ((s p).units : Int) + c.charged p ∧ ((s p).units : Int) + c.charged p < 2 ^ 32) :
    ((c.v_upddqblks s p).units : Int) = (s p).units + c.charged p := by
  rcases v_upddqblks_apply c s p with ⟨t, ht, he⟩ | ⟨hno, he⟩
  · have hrange := hr t p ht
    rw [charged_of_mem ht] at hrange ⊢
    rw [he]
    exact updDquot_units h hrange.1 hrange.2
  · rw [he, charged_of_not_mem hno, Int.add_zero]

theorem run_units (cs : List Charge) (h : InRange (fun p => (s p).units) cs) (p : Nat) :
    ((run cs s p).units : Int) = (s p).units + total cs p := by
  induction cs generalizing s with
  | nil => exact (Int.add_zero _).symm
  | cons c cs ih =>
    obtain ⟨hfits, hr, hrest⟩ := h
    have hone : ∀ p, ((c.v_upddqblks s p).units : Int) = (s p).units + c.charged p :=
      fun p => v_upddqblks_units hfits hr
    have hnext := ih (s := c.v_upddqblks s) (by simpa only [hone] using hrest)
    rw [hone] at hnext
    change ((run cs (c.v_upddqblks s) p).units : Int) = (s p).units + (c.charged p + total cs p)
    rw [hnext]
    ring

theorem allocType_ok (h : c.allocType t s = (.ok, s')) : s' = s ∧
    ∀ p, c.iDquot t = some p → (s p).dqBhardlimit ≠ 0 →
      UInt32.ofInt (c.cblocks c.nblocks (s p)) < (s p).dqBhardlimit := by
  unfold allocType at h
  cases hd : c.iDquot t with
  | none =>
    rw [hd] at h
    exact ⟨(Prod.mk.inj h).2.symm, fun p hp => nomatch hp⟩
  | some q =>
    rw [hd] at h
    simp only at h
    split at h
    · exact nomatch (Prod.mk.inj h).1
    next hhard =>
      split at h
      · exact nomatch (Prod.mk.inj h).1
      next =>
        refine ⟨(Prod.mk.inj h).2.symm, fun p hp hne => ?_⟩
        obtain rfl := Option.some.inj hp
        exact UInt32.not_le.mp fun hle => hhard ⟨hne, hle⟩

/-- Fragments that are admitted keep the usage below the hard limits. -/
theorem v_allocdq_ok (hu : c.uUid ≠ 0) (hn : c.nfrags ≠ 0) (h : c.v_allocdq s = (.ok, s')) :
    s' = s ∧ ∀ t p, c.iDquot t = some p → (s p).dqBhardlimit ≠ 0 →
      UInt32.ofInt (c.cblocks c.nblocks (s p)) < (s p).dqBhardlimit := by
  unfold v_allocdq at h
  rw [if_neg hn] at h
  split at h
  · exact nomatch (Prod.mk.inj h).1
  · rcases hres : c.allocType .usrquota s with ⟨rc, s₁⟩
    rw [hres] at h
    cases rc with
    | ok =>
      obtain ⟨rfl, h1⟩ := allocType_ok hres
      obtain ⟨rfl, h2⟩ := allocType_ok h
      refine ⟨rfl, fun t => ?_⟩
      cases t with
      | usrquota => exact h1
      | grpquota => exact h2
    | edquot => exact nomatch (Prod.mk.inj h).1
    | vmWait => exact nomatch (Prod.mk.inj h).1

/-- The usage crosses the soft limit. -/
def Crosses (d d' : Dquot) : Prop :=
  d.dqBsoftlimit ≠ 0 ∧ d.dqCurblocks < d.dqBsoftlimit ∧ d'.dqCurblocks ≥ d.dqBsoftlimit

/-- Quota accounting: the usage is what was charged, the time is set only where
the soft limit is reached, and fragments that are admitted leave the usage
below the hard limit. -/
theorem quota_accounting :
    (∀ (s : Dquots) (cs : List Charge), InRange (fun p => (s p).units) cs →
      ∀ p, ((run cs s p).units : Int) = (s p).units + total cs p) ∧
    (∀ (c : Charge) (s : Dquots) (p : Nat),
      dqbtime (c.v_upddqblks s p).dqBtime ≠ dqbtime (s p).dqBtime →
        Crosses (s p) (c.v_upddqblks s p)) ∧
    ∀ (c : Charge) (s s' : Dquots), c.uUid ≠ 0 → c.nfrags ≠ 0 → c.v_allocdq s = (.ok, s') →
      ∀ t p, c.iDquot t = some p → (s p).dqBhardlimit ≠ 0 →
        (c.v_upddqblks s' p).dqCurblocks < (s p).dqBhardlimit := by
  refine ⟨fun s cs h p => run_units cs h p, fun c s p h => ?_, fun c s s' hu hn h t p hp hl => ?_⟩
  · rcases v_upddqblks_apply c s p with ⟨t, _, he⟩ | ⟨_, he⟩
    · rw [he] at h ⊢
      exact updDquot_time h
    · rw [he] at h
      exact absurd rfl h
  · obtain ⟨rfl, hlt⟩ := v_allocdq_ok hu hn h
    rcases v_upddqblks_apply c s' p with ⟨t', _, he⟩ | ⟨hno, _⟩
    · rw [he]
      exact newBlocks_lt hl (hlt t p hp hl)
    · exact absurd hp (hno t)

/-- A change of user 1's fragments in a file system of `4096 / fperpage` byte fragments. -/
def change (fperpage : Nat) (h : fperpage ∈ [1, 2, 4, 8]) (nfrags : Int) : Charge :=
  ⟨fun t => if t = .usrquota then some 0 else none, by simp, 1, 1, nfrags, fperpage, h, 100,
    fun _ => 10, false⟩

/-- Dquots with a usage of `blocks` and a hard limit of 5 blocks. -/
def limited (blocks : UInt32) : Dquots :=
  fun _ => ⟨.usrquota, 1, 1, 5, 4, blocks, 0, 0, 0, 0, 0, false, false, false⟩

theorem change_dquot {fperpage : Nat} {h : fperpage ∈ [1, 2, 4, 8]} {n : Int}
    (hp : (change fperpage h n).iDquot t = some p) : p = 0 := by
  unfold change at hp
  simp only at hp
  split at hp
  · exact (Option.some.inj hp).symm
  · exact nomatch hp

theorem quota_accounting_half_blocks :
    ((run [change 8 (by simp) 3, change 8 (by simp) (-1)] (limited 0) 0).units : Int) = 2 ∧
      ((change 8 (by simp) 3).v_upddqblks (limited 3) 0).dqCurblocks < 5 := by
  constructor
  · have hrange : InRange (fun p => ((limited 0) p).units)
        [change 8 (by simp) 3, change 8 (by simp) (-1)] := by
      refine ⟨by decide, fun t p hp => ?_, by decide, fun t p hp => ?_, trivial⟩
      · rw [change_dquot hp]
        decide
      · rw [change_dquot hp]
        decide
    exact (quota_accounting.1 (limited 0) _ hrange 0).trans (by decide)
  · exact quota_accounting.2.2 _ (limited 3) (limited 3) (by decide) (by decide) rfl .usrquota 0 rfl
      (by decide)

/-- No fragments at all are admitted above the hard limit; at `2^31` blocks the
usage is set to 0; and `2^31` bytes are taken for a negative count. -/
theorem quota_accounting_fails :
    ((change 8 (by simp) 0).v_allocdq (limited 10) = (.ok, limited 10) ∧
      ¬ ((change 8 (by simp) 0).v_upddqblks (limited 10) 0).dqCurblocks < 5) ∧
    ((change 8 (by simp) 2).v_upddqblks (limited 0x7FFFFFFF) 0).units = 0 ∧
    ((change 1 (by simp) 0x80000).v_upddqblks (limited 0) 0).units = 0 :=
  ⟨⟨rfl, by decide⟩, by decide, by decide⟩

end Aix413.Quota.Charging
