import Mathlib.Data.BitVec
import Mathlib.Tactic

namespace Aix413.Lvm

/-! ## Blocks, pages and track groups -/

def dbSize : BitVec 32 := 512
def dbShift : Nat := 9
/-- Blocks in a page of 4K. -/
def bppg : BitVec 32 := 8
def bppgShift : Nat := 3
/-- Pages in a logical track group. -/
def pgptrk : BitVec 32 := 32
def trkShift : Nat := 5
def blkptrk : BitVec 32 := pgptrk * bppg
def byteptrk : BitVec 32 := pgptrk * 4096
def signedShftmsk : BitVec 32 := 0x80000000

def byte2blk (n : BitVec 32) : BitVec 32 := n >>> dbShift
def blk2pg (b : BitVec 32) : BitVec 32 := b >>> bppgShift
def blk2trk (b : BitVec 32) : BitVec 32 := b >>> (trkShift + bppgShift)
def blk2part (pshift : Nat) (b : BitVec 32) : BitVec 32 := b >>> pshift
def part2blk (pshift : Nat) (p : BitVec 32) : BitVec 32 := p <<< pshift
def trkppart (pshift : Nat) : BitVec 32 := 1#32 <<< (pshift - (trkShift + bppgShift))
def trkInPart (pshift : Nat) (b : BitVec 32) : BitVec 32 := blk2trk b &&& (trkppart pshift - 1)

/-! ## The volume group as requests see it -/

/-- A physical partition; `pvol` is the index of its physical volume. -/
structure Part where
  pvol : Option Nat := none
  start : BitVec 32 := 0
  syncTrk : Option (BitVec 32) := none
  rip : Bool := false
  syncerr : Bool := false
deriving DecidableEq

structure Lvol where
  opened : Bool
  rdonly : Bool
  nparts : Nat
  nblocks : BitVec 32
  /-- `PARTITION` of a mirror and a logical partition. -/
  parts : Nat → BitVec 32 → Part

structure Volgrp where
  partshift : Nat
  forcedOff : Bool
  lvols : Nat → Option Lvol

/-- A logical request. `bDev` is the minor number of its logical volume. -/
structure Buf where
  bDev : Nat
  bBlkno : BitVec 32
  bBcount : BitVec 32
  read : Bool
  resyncOp : Bool := false
  mwcRcvOp : Bool := false
  error : Bool := false
  inflight : Bool := false
  bError : Nat := 0
  bResid : BitVec 32 := 0
  bWork : BitVec 32 := 0
deriving DecidableEq

/-! ## Pages of a request -/

namespace Buf

variable (b : Buf)

/-- Offset of the first block within its page. -/
def bwp : BitVec 32 := b.bBlkno &&& (bppg - 1)

/-- Count of affected pages less 1. -/
def pctm1 : BitVec 32 := blk2pg (b.bwp + byte2blk b.bBcount - 1)

/-- Offset of the first page within the track group. -/
def pwt : BitVec 32 := blk2pg b.bBlkno &&& (pgptrk - 1)

def pageMask : BitVec 32 := signedShftmsk.sshiftRight b.pctm1.toNat >>> b.pwt.toNat

/-- The request stays within one track group and has whole blocks. -/
def Aligned : Prop := b.pwt + b.pctm1 < pgptrk ∧ b.bBcount &&& (dbSize - 1) = 0

instance : Decidable b.Aligned := inferInstanceAs (Decidable (_ ∧ _))

/-- Page `k` of the track group is affected by the request. -/
def Touches (k : Nat) : Prop := b.pwt.toNat ≤ k ∧ k ≤ b.pwt.toNat + b.pctm1.toNat

theorem pwt_lt : b.pwt.toNat < 32 := by
  have h := BitVec.toNat_and (blk2pg b.bBlkno) (pgptrk - 1)
  have hle : (blk2pg b.bBlkno).toNat &&& (pgptrk - 1).toNat ≤ (pgptrk - 1).toNat :=
    Nat.and_le_right
  have h31 : (pgptrk - 1).toNat = 31 := by decide
  unfold pwt
  omega

theorem pctm1_lt : b.pctm1.toNat < 2 ^ 29 := by
  unfold pctm1 blk2pg bppgShift
  rw [BitVec.toNat_ushiftRight, Nat.shiftRight_eq_div_pow]
  have := (b.bwp + byte2blk b.bBcount - 1).isLt
  omega

variable {b}

theorem Aligned.lt (h : b.Aligned) : b.pwt.toNat + b.pctm1.toNat < 32 := by
  have hlt := BitVec.lt_def.mp h.1
  rw [BitVec.toNat_add] at hlt
  have h1 := b.pwt_lt
  have h2 := b.pctm1_lt
  have h32 : pgptrk.toNat = 32 := rfl
  omega

/-- Bit `31 - k` of the mask stands for page `k`. -/
theorem getLsbD_pageMask (h : b.Aligned) {k : Nat} (hk : k < 32) :
    b.pageMask.getLsbD (31 - k) = true ↔ b.Touches k := by
  have hlt := h.lt
  unfold pageMask Touches
  rw [BitVec.getLsbD_ushiftRight, BitVec.getLsbD_sshiftRight]
  have hmsb : signedShftmsk.msb = true := by decide
  have hbit : ∀ i, signedShftmsk.getLsbD i = decide (i = 31) := by
    intro i
    by_cases hi : i < 32
    · revert i
      decide
    · rw [BitVec.getLsbD_of_ge _ _ (by omega)]
      symm
      simp
      omega
  rw [hmsb, hbit]
  by_cases hin : b.pctm1.toNat + (b.pwt.toNat + (31 - k)) < 32
  · simp only [hin, if_true]
    simp
    omega
  · simp only [hin, if_false]
    simp
    omega

theorem Touches.lt (h : b.Aligned) {k : Nat} (ht : b.Touches k) : k < 32 :=
  ht.2.trans_lt h.lt

/-- Two masks meet exactly when the requests have an affected page in common. -/
theorem pageMask_and_ne_zero {c : Buf} (hb : b.Aligned) (hc : c.Aligned) :
    b.pageMask &&& c.pageMask ≠ 0 ↔ ∃ k, b.Touches k ∧ c.Touches k := by
  constructor
  · intro h
    by_contra hno
    apply h
    apply BitVec.eq_of_getLsbD_eq
    intro i hi
    have hk : 31 - (31 - i) = i := by omega
    change _ = (0#32).getLsbD i
    rw [BitVec.getLsbD_and, BitVec.getLsbD_zero, Bool.and_eq_false_iff]
    by_cases hbi : b.pageMask.getLsbD i = true
    · right
      rw [← hk] at hbi ⊢
      have hbt := (getLsbD_pageMask hb (by omega)).mp hbi
      by_contra hci
      have hct := (getLsbD_pageMask hc (by omega)).mp (Bool.not_eq_false _ ▸ hci)
      exact hno ⟨_, hbt, hct⟩
    · left
      simpa using hbi
  · rintro ⟨k, hbk, hck⟩ h
    have hk := hbk.lt hb
    have hand : (b.pageMask &&& c.pageMask).getLsbD (31 - k) = true := by
      rw [BitVec.getLsbD_and, (getLsbD_pageMask hb hk).mpr hbk, (getLsbD_pageMask hc hk).mpr hck]
      rfl
    rw [h] at hand
    simp at hand

end Buf

/-! ## Conflicts -/

/-- Two requests work on a common page of one track group. -/
def Buf.Conflict (b c : Buf) : Prop :=
  b.bDev = c.bDev ∧ blk2trk b.bBlkno = blk2trk c.bBlkno ∧ b.bWork &&& c.bWork ≠ 0

instance (b c : Buf) : Decidable (b.Conflict c) := inferInstanceAs (Decidable (_ ∧ _ ∧ _))

/-- What a request works on. -/
def Buf.key (b : Buf) : Nat × BitVec 32 × BitVec 32 := (b.bDev, b.bBlkno, b.bWork)

variable {b c b' c' : Buf}

theorem Buf.Conflict.symm (h : b.Conflict c) : c.Conflict b :=
  ⟨h.1.symm, h.2.1.symm, by rw [BitVec.and_comm]; exact h.2.2⟩

theorem conflict_congr (hb : b'.key = b.key) (hc : c'.key = c.key) :
    b'.Conflict c' ↔ b.Conflict c := by
  simp only [Buf.key, Prod.mk.injEq] at hb hc
  unfold Buf.Conflict
  rw [hb.1, hb.2.1, hb.2.2, hc.1, hc.2.1, hc.2.2]

def Buf.setErrno (b : Buf) (errno : Nat) : Buf := { b with bError := errno }

/-- The part array with the primary part of partition `p` marked as being
resynced; the first track group also clears the error marks. -/
def Lvol.beginResync (lv : Lvol) (p : BitVec 32) (first : Bool) : Lvol :=
  { lv with parts := fun m q =>
      let part := lv.parts m q
      if q ≠ p then part
      else if m = 0 then
        if first then { part with rip := true, syncerr := false, syncTrk := some 0 }
        else { part with rip := true }
      else if first ∧ m < lv.nparts then { part with syncerr := false }
      else part }

end Aix413.Lvm
