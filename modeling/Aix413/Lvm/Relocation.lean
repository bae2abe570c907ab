import Aix413.Lvm.BadBlocks

namespace Aix413.Lvm.BadBlocks

/-- Where the data of a recorded bad block is transferred. -/
def target (bad : BadBlk) : Nat :=
  match bad.status with
  | .done | .chained => bad.relblk
  | .pending | .device | .desired => bad.blkno

def Piece.first (p : Piece) : Nat := p.asked.bBlkno
def Piece.count (p : Piece) : Nat := byte2blk p.io.bBcount

/-- A recorded block is transferred alone, at its target; one that is not
recorded, at its own address. -/
def Sound (p : Piece) : Prop :=
  ∀ i < p.count,
    (∀ bad, p.tbl.Recorded bad → bad.blkno = p.first + i →
      p.count = 1 ∧ p.io.bBlkno = target bad) ∧
    ((∀ bad, p.tbl.Recorded bad → bad.blkno ≠ p.first + i) →
      p.io.bBlkno + i = p.first + i)

/-- The blocks moved, in their order. -/
def transferred (ps : List Piece) : List Nat :=
  ps.flatMap fun p => List.range' (p.first) p.moved

/-- What is claimed of the pieces of a request. -/
structure Mapped (r : Request) (ps : List Piece) (e : Ending) : Prop where
  order : transferred ps <+: List.range' r.start r.nblocks
  all : e = .done → transferred ps = List.range' r.start r.nblocks
  inside : ∀ p ∈ ps, r.start ≤ p.first ∧ p.first + p.count ≤ r.start + r.nblocks ∧
    p.moved ≤ p.count
  buffer : ∀ p ∈ ps, p.io.pbAddr = r.addr + blk2byte (p.first - r.start)
  sound : ∀ p ∈ ps, Sound p

/-- The blocks asked for reach into the next track group, where one is recorded,
and none is in the track group that they begin in. -/
def Overlooked (tbl : DefectTbl) (pb : Pbuf) : Prop :=
  (∀ bad, tbl.Recorded bad → pb.bBlkno ≤ bad.blkno → bad.blkno < pb.bBlkno + byte2blk pb.bBcount →
    blk2trk bad.blkno ≠ blk2trk pb.bBlkno) ∧
  ∃ bad, tbl.Recorded bad ∧ pb.bBlkno ≤ bad.blkno ∧ bad.blkno < pb.bBlkno + byte2blk pb.bBcount

variable {tbl tbl' : DefectTbl} {pb io : Pbuf} {bad : BadBlk} {chain : List BadBlk} {n : Nat}

theorem blk2trk_eq (blk : Nat) : blk2trk blk = blk / 256 := Nat.shiftRight_eq_div_pow blk 8

theorem bbhashInd_eq (blk : Nat) : bbhashInd blk = blk / 256 % 64 := by
  unfold bbhashInd
  rw [blk2trk_eq]
  exact Nat.and_two_pow_sub_one_eq_mod (blk / 256) 6

theorem blk2byte_eq (n : Nat) : blk2byte n = n * 512 := Nat.shiftLeft_eq n 9

theorem byte2blk_eq (n : Nat) : byte2blk n = n / 512 := Nat.shiftRight_eq_div_pow n 9

@[simp] theorem byte2blk_blk2byte (n : Nat) : byte2blk (blk2byte n) = n := by
  rw [byte2blk_eq, blk2byte_eq]
  omega

@[simp] theorem byte2blk_dbSize : byte2blk dbSize = 1 := rfl

/-! ## The search -/

theorem firstFrom_none (h : firstFrom n chain = none) : ∀ b ∈ chain, b.blkno < n := by
  induction chain with
  | nil => exact fun b hb => absurd hb List.not_mem_nil
  | cons c chain ih =>
    rw [firstFrom] at h
    split at h
    next => cases h
    next hlt =>
      intro b hb
      rcases List.mem_cons.mp hb with rfl | hb
      · omega
      · exact ih h b hb

theorem firstFrom_some (hs : chain.Pairwise fun a b => a.blkno < b.blkno)
    (h : firstFrom n chain = some bad) :
    bad ∈ chain ∧ n ≤ bad.blkno ∧ ∀ b ∈ chain, n ≤ b.blkno → bad.blkno ≤ b.blkno := by
  induction chain with
  | nil => cases h
  | cons c chain ih =>
    rw [List.pairwise_cons] at hs
    rw [firstFrom] at h
    split at h
    next hle =>
      cases h
      refine ⟨List.mem_cons_self, hle, fun b hb _ => ?_⟩
      rcases List.mem_cons.mp hb with rfl | hb
      · exact le_rfl
      · exact (hs.1 b hb).le
    next hlt =>
      obtain ⟨hm, hle, hmin⟩ := ih hs.2 h
      refine ⟨List.mem_cons_of_mem _ hm, hle, fun b hb hn => ?_⟩
      rcases List.mem_cons.mp hb with rfl | hb
      · omega
      · exact hmin b hb hn

/-- The bad blocks of one track group are on one chain. -/
theorem mem_hashBad (h : tbl.Recorded bad) (ht : blk2trk bad.blkno = blk2trk n) :
    bad ∈ tbl.hashBad n := by
  have hind : bbhashInd n = bbhashInd bad.blkno := by
    unfold bbhashInd
    rw [ht]
  unfold DefectTbl.hashBad
  rw [hind]
  exact h

/-- A block near `n` on the chain of `n` is in its track group. -/
theorem trk_of_mem (h : bad ∈ tbl.hashBad n) (h1 : n ≤ bad.blkno) (h2 : bad.blkno < n + 256) :
    blk2trk bad.blkno = blk2trk n := by
  have hind : bbhashInd bad.blkno = bbhashInd n := tbl.hashed _ bad h
  rw [bbhashInd_eq, bbhashInd_eq] at hind
  rw [blk2trk_eq, blk2trk_eq]
  omega

/-! ## One piece -/

/-- How a piece is cut: to the next recorded block of the chain, or this block
alone. -/
inductive Cut (tbl : DefectTbl) (pb io : Pbuf) : Prop
  | whole (hnone : ∀ b ∈ tbl.hashBad pb.bBlkno, pb.bBlkno ≤ b.blkno →
      pb.bBlkno + byte2blk pb.bBcount ≤ b.blkno)
      (hb : io.bBlkno = pb.bBlkno) (hc : io.bBcount = pb.bBcount)
  | before (bad : BadBlk) (hm : bad ∈ tbl.hashBad pb.bBlkno)
      (hmin : ∀ b ∈ tbl.hashBad pb.bBlkno, pb.bBlkno ≤ b.blkno → bad.blkno ≤ b.blkno)
      (hlt : pb.bBlkno < bad.blkno) (hin : bad.blkno < pb.bBlkno + byte2blk pb.bBcount)
      (hb : io.bBlkno = pb.bBlkno) (hc : io.bBcount = blk2byte (bad.blkno - pb.bBlkno))
  | alone (bad : BadBlk) (hm : bad ∈ tbl.hashBad pb.bBlkno) (heq : bad.blkno = pb.bBlkno)
      (hin : bad.blkno < pb.bBlkno + byte2blk pb.bBcount) (hb : io.bBlkno = target bad)
      (hc : io.bBcount = dbSize)

/-- The fields of the request itself. -/
structure SameRequest (pb io : Pbuf) : Prop where
  pbStart : io.pbStart = pb.pbStart
  origAddr : io.origAddr = pb.origAddr
  origCount : io.origCount = pb.origCount
  pbAddr : io.pbAddr = pb.pbAddr

theorem chkDesired_spec (h : chkDesired tbl pb bad = .success io tbl') :
    SameRequest pb io ∧ io.bBlkno = pb.bBlkno ∧ io.bBcount = pb.bBcount ∧
      (io.bIodone = .hdBbend) := by
  unfold chkDesired at h
  split at h
  next => cases h
  next =>
    split at h
    next =>
      cases h
      exact ⟨⟨rfl, rfl, rfl, rfl⟩, rfl, rfl, rfl⟩
    next =>
      cases h
      exact ⟨⟨rfl, rfl, rfl, rfl⟩, rfl, rfl, rfl⟩

theorem hdChkblk_spec (hio : pb.bIodone = .hdEnd) (h : hdChkblk tbl pb = .success io tbl') :
    SameRequest pb io ∧ Cut tbl pb io ∧ (io.bIodone = .hdEnd ∨ io.bBcount = dbSize) := by
  unfold hdChkblk at h
  simp only at h
  cases hf : firstFrom pb.bBlkno (tbl.hashBad pb.bBlkno) with
  | none =>
    rw [hf] at h
    cases h
    have hlt := firstFrom_none hf
    exact ⟨⟨rfl, rfl, rfl, rfl⟩, .whole (fun b hb hle => absurd (hlt b hb) (not_lt.mpr hle)) rfl rfl,
      .inl hio⟩
  | some bad =>
    obtain ⟨hm, hle, hmin⟩ := firstFrom_some (tbl.sorted _) hf
    rw [hf] at h
    simp only at h
    by_cases hout : pb.bBlkno + byte2blk pb.bBcount ≤ bad.blkno
    · rw [if_pos hout] at h
      cases h
      exact ⟨⟨rfl, rfl, rfl, rfl⟩, .whole (fun b hb hb' => hout.trans (hmin b hb hb')) rfl rfl, .inl hio⟩
    rw [if_neg hout] at h
    by_cases hno : pb.nobbrel = true
    · rw [if_pos hno] at h
      cases h
    rw [if_neg hno] at h
    by_cases hlt : pb.bBlkno < bad.blkno
    · rw [if_pos hlt] at h
      cases h
      exact ⟨⟨rfl, rfl, rfl, rfl⟩, .before bad hm hmin hlt (not_le.mp hout) rfl rfl, .inl hio⟩
    rw [if_neg hlt] at h
    have heq : bad.blkno = pb.bBlkno := by omega
    have hin := not_le.mp hout
    cases hst : bad.status with
    | done =>
      rw [hst] at h
      cases h
      exact ⟨⟨rfl, rfl, rfl, rfl⟩, .alone bad hm heq hin (by simp [target, hst]) rfl, .inr rfl⟩
    | pending =>
      rw [hst] at h
      cases h
    | device =>
      rw [hst] at h
      cases h
    | chained =>
      rw [hst] at h
      simp only at h
      split at h
      next => cases h
      next next' _ =>
        obtain ⟨hsame, hb, hc, hd⟩ := chkDesired_spec h
        refine ⟨⟨hsame.1, hsame.2, hsame.3, hsame.4⟩, .alone bad hm heq hin ?_ hc, .inr hc⟩
        rw [hb]
        simp [target, hst]
    | desired =>
      rw [hst] at h
      obtain ⟨hsame, hb, hc, hd⟩ := chkDesired_spec h
      refine ⟨⟨hsame.1, hsame.2, hsame.3, hsame.4⟩, .alone bad hm heq hin ?_ hc, .inr hc⟩
      rw [hb]
      simp [target, hst, heq]

/-- With 256 blocks at most, only a recorded block behind the end of the track
group can be overlooked. -/
theorem sound_iff {moved : Nat} (hcut : Cut tbl pb io) (hn : byte2blk pb.bBcount ≤ 256) :
    Sound ⟨tbl, pb, io, moved⟩ ↔ ¬Overlooked tbl pb := by
  unfold Sound Piece.count Piece.first
  simp only
  cases hcut with
  | whole hnone hb hc =>
    rw [hb, hc]
    have hout : ∀ b, tbl.Recorded b → pb.bBlkno ≤ b.blkno →
        b.blkno < pb.bBlkno + byte2blk pb.bBcount → blk2trk b.blkno ≠ blk2trk pb.bBlkno := by
      intro b hr hle hlt ht
      have := hnone b (mem_hashBad hr ht) hle
      omega
    constructor
    · rintro hs ⟨-, bad, hr, hle, hlt⟩
      obtain ⟨h1, -⟩ := (hs (bad.blkno - pb.bBlkno) (by omega)).1 bad hr (by omega)
      have heq : bad.blkno = pb.bBlkno := by omega
      exact hout bad hr hle hlt (heq ▸ rfl)
    · intro ho i hi
      have hfree : ∀ b, tbl.Recorded b → b.blkno ≠ pb.bBlkno + i :=
        fun b hr he => ho ⟨hout, b, hr, by omega, by omega⟩
      exact ⟨fun b hr he => absurd he (hfree b hr), fun _ => rfl⟩
  | before bad hm hmin hlt hin hb hc =>
    have ht := trk_of_mem hm hlt.le (by omega)
    have hno : ¬Overlooked tbl pb :=
      fun ho => ho.1 bad (tbl.recorded_of_mem hm) hlt.le hin ht
    refine iff_of_true ?_ hno
    rw [hb, hc, byte2blk_blk2byte]
    intro i hi
    -- a block between the start and `bad` is in their track group
    have hfree : ∀ b, tbl.Recorded b → b.blkno ≠ pb.bBlkno + i := by
      intro b hr he
      have htb : blk2trk b.blkno = blk2trk pb.bBlkno := by
        rw [blk2trk_eq] at ht ⊢
        rw [blk2trk_eq] at ht ⊢
        omega
      have := hmin b (mem_hashBad hr htb) (by omega)
      omega
    exact ⟨fun b hr he => absurd he (hfree b hr), fun _ => rfl⟩
  | alone bad hm heq hin hb hc =>
    have hno : ¬Overlooked tbl pb :=
      fun ho => ho.1 bad (tbl.recorded_of_mem hm) heq.ge hin (heq ▸ rfl)
    refine iff_of_true ?_ hno
    rw [hb, hc, byte2blk_dbSize]
    intro i hi
    obtain rfl : i = 0 := by omega
    constructor
    · intro b hr he
      have hbm : b ∈ tbl.hashBad pb.bBlkno := mem_hashBad hr (he ▸ rfl)
      have hsame : b = bad := by
        by_contra hne
        have hnos : (tbl.hashBad pb.bBlkno).Pairwise fun a b => a.blkno ≠ b.blkno :=
          (tbl.sorted _).imp fun hlt => hlt.ne
        have : Std.Symm fun a b : BadBlk => a.blkno ≠ b.blkno := ⟨fun _ _ h => h.symm⟩
        exact hnos.forall hbm hm hne (he.trans heq.symm)
      exact ⟨rfl, hsame ▸ rfl⟩
    · intro hfree
      exact absurd heq (hfree bad (tbl.recorded_of_mem hm))

/-! ## All pieces -/

/-- The request has come to its block `d`. -/
structure At (r : Request) (d : Nat) (pb : Pbuf) : Prop where
  pbStart : pb.pbStart = r.start
  origAddr : pb.origAddr = r.addr
  origCount : pb.origCount = blk2byte r.nblocks
  pbAddr : pb.pbAddr = r.addr + blk2byte d
  bBlkno : pb.bBlkno = r.start + d
  bBcount : pb.bBcount = blk2byte (r.nblocks - d)
  iodone : pb.bIodone = .hdEnd
  le : d ≤ r.nblocks

theorem at_hdBegin (r : Request) : At r 0 (hdBegin r) :=
  ⟨rfl, rfl, rfl, rfl, rfl, rfl, rfl, Nat.zero_le _⟩

theorem count_le_of_cut (h : Cut tbl pb io) (hn : ∃ n, pb.bBcount = blk2byte n) :
    byte2blk io.bBcount ≤ byte2blk pb.bBcount ∧ io.bBcount = blk2byte (byte2blk io.bBcount) := by
  obtain ⟨n, hn⟩ := hn
  rw [hn, byte2blk_blk2byte]
  cases h with
  | whole _ _ hc =>
    rw [hc, hn, byte2blk_blk2byte]
    exact ⟨le_rfl, rfl⟩
  | before bad _ _ hlt hin _ hc =>
    rw [hn, byte2blk_blk2byte] at hin
    rw [hc, byte2blk_blk2byte]
    exact ⟨by omega, rfl⟩
  | alone bad _ heq hin _ hc =>
    rw [hn, byte2blk_blk2byte] at hin
    rw [hc]
    exact ⟨by rw [byte2blk_dbSize]; omega, rfl⟩

/-- What a transfer that ends moves. -/
theorem ended_spec (hbytes : io.bBcount = blk2byte (byte2blk io.bBcount))
    (hone : io.bIodone = .hdEnd ∨ io.bBcount = dbSize) (left : Nat) :
    ∃ moved, moved ≤ byte2blk io.bBcount ∧
      (ended io (blk2byte left)).pbAddr = io.pbAddr + blk2byte moved := by
  unfold ended
  cases hio : io.bIodone with
  | hdEnd =>
    refine ⟨byte2blk io.bBcount - left, Nat.sub_le _ _, ?_⟩
    simp only
    rw [hbytes, byte2blk_blk2byte]
    simp only [blk2byte_eq]
    rw [Nat.sub_mul]
  | hdBbend =>
    have hsize : io.bBcount = dbSize := hone.resolve_left fun h => by simp [hio] at h
    refine ⟨1, ?_, rfl⟩
    rw [hsize]
    exact le_rfl

theorem ended_same (io : Pbuf) (resid : Nat) :
    (ended io resid).pbStart = io.pbStart ∧ (ended io resid).origAddr = io.origAddr ∧
      (ended io resid).origCount = io.origCount ∧ (ended io resid).bIodone = .hdEnd := by
  unfold ended
  cases hio : io.bIodone with
  | hdEnd => exact ⟨rfl, rfl, rfl, rfl⟩
  | hdBbend => exact ⟨rfl, rfl, rfl, rfl⟩

/-- One piece of a request at block `d`: what is cut, and where the request is
when the transfer has ended. -/
theorem piece_spec {r : Request} {d : Nat} (h : At r d pb) (hc : hdChkblk tbl pb = .success io tbl')
    (left : Nat) :
    ∃ moved, moved ≤ byte2blk io.bBcount ∧ d + byte2blk io.bBcount ≤ r.nblocks ∧
      io.pbAddr = r.addr + blk2byte d ∧
      byte2blk ((ended io (blk2byte left)).pbAddr - io.pbAddr) = moved ∧
      match pbCont (ended io (blk2byte left)) with
      | none => d + moved = r.nblocks
      | some pb => At r (d + moved) pb := by
  obtain ⟨hsame, hcut, hone⟩ := hdChkblk_spec h.iodone hc
  obtain ⟨hle, hbytes⟩ := count_le_of_cut hcut ⟨_, h.bBcount⟩
  rw [h.bBcount, byte2blk_blk2byte] at hle
  obtain ⟨moved, hmoved, haddr⟩ := ended_spec hbytes hone left
  obtain ⟨hs1, hs2, hs3, hs4⟩ := ended_same io (blk2byte left)
  have hd := h.le
  have hpb : (ended io (blk2byte left)).pbAddr = r.addr + blk2byte (d + moved) := by
    rw [haddr, hsame.pbAddr, h.pbAddr]
    simp only [blk2byte_eq]
    ring
  refine ⟨moved, hmoved, by omega, hsame.pbAddr.trans h.pbAddr, ?_, ?_⟩
  · rw [haddr, Nat.add_sub_cancel_left, byte2blk_blk2byte]
  · unfold pbCont
    rw [hs2, hs3, hsame.origAddr, hsame.origCount, h.origAddr, h.origCount, hpb]
    by_cases hend : r.addr + blk2byte (d + moved) = r.addr + blk2byte r.nblocks
    · rw [if_pos hend]
      simp only [blk2byte_eq] at hend ⊢
      omega
    · rw [if_neg hend]
      have hdone : (ended io (blk2byte left)).pbAddr - (ended io (blk2byte left)).origAddr =
          blk2byte (d + moved) := by
        rw [hpb, hs2, hsame.origAddr, h.origAddr, Nat.add_sub_cancel_left]
      refine ⟨hs1.trans (hsame.pbStart.trans h.pbStart), hs2.trans (hsame.origAddr.trans h.origAddr),
        hs3.trans (hsame.origCount.trans h.origCount), hpb, ?_, ?_, hs4, by omega⟩
      · change (ended io (blk2byte left)).pbStart + byte2blk _ = _
        rw [hdone, byte2blk_blk2byte, hs1, hsame.pbStart, h.pbStart]
      · change (ended io (blk2byte left)).origCount - _ = _
        rw [hdone, hs3, hsame.origCount, h.origCount]
        simp only [blk2byte_eq]
        rw [Nat.sub_mul]

/-- What holds of the pieces from block `d` on. -/
structure MappedFrom (r : Request) (d : Nat) (ps : List Piece) (e : Ending) : Prop where
  order : transferred ps <+: List.range' (r.start + d) (r.nblocks - d)
  all : e = .done → transferred ps = List.range' (r.start + d) (r.nblocks - d)
  inside : ∀ p ∈ ps, r.start ≤ p.first ∧ p.first + p.count ≤ r.start + r.nblocks ∧ p.moved ≤ p.count
  buffer : ∀ p ∈ ps, p.io.pbAddr = r.addr + blk2byte (p.first - r.start)

theorem MappedFrom.cons {r : Request} {d : Nat} {p : Piece} {ps : List Piece} {e : Ending}
    (hfirst : p.first = r.start + d) (hin : d + p.count ≤ r.nblocks) (hmoved : p.moved ≤ p.count)
    (hbuf : p.io.pbAddr = r.addr + blk2byte d) (h : MappedFrom r (d + p.moved) ps e) :
    MappedFrom r d (p :: ps) e := by
  have hsplit : List.range' (r.start + d) (r.nblocks - d) =
      List.range' p.first p.moved ++ List.range' (r.start + (d + p.moved)) (r.nblocks - (d + p.moved)) := by
    have hsum : r.nblocks - d = p.moved + (r.nblocks - (d + p.moved)) := by omega
    rw [hsum, hfirst, ← List.range'_append_1, add_assoc]
  have hcons : transferred (p :: ps) = List.range' p.first p.moved ++ transferred ps := rfl
  refine ⟨?_, fun he => ?_, ?_, ?_⟩
  · rw [hsplit, hcons]
    exact (List.prefix_append_right_inj _).mpr h.order
  · rw [hsplit, hcons, h.all he]
  · intro q hq
    rcases List.mem_cons.mp hq with rfl | hq
    · exact ⟨by omega, by omega, hmoved⟩
    · exact h.inside q hq
  · intro q hq
    rcases List.mem_cons.mp hq with rfl | hq
    · rw [hbuf, hfirst, Nat.add_sub_cancel_left]
    · exact h.buffer q hq

theorem MappedFrom.nil {r : Request} {d : Nat} {e : Ending} (h : e = .done → d = r.nblocks) :
    MappedFrom r d [] e where
  order := List.nil_prefix
  all := fun he => by
    rw [h he, Nat.sub_self]
    rfl
  inside := fun _ hp => absurd hp List.not_mem_nil
  buffer := fun _ hp => absurd hp List.not_mem_nil

theorem pieces_spec {r : Request} {d : Nat} (h : At r d pb) (ts : List Turn) :
    MappedFrom r d (pieces pb ts).1 (pieces pb ts).2 ∧
      ∀ p ∈ (pieces pb ts).1, (Sound p ↔ ¬Overlooked p.tbl p.asked) := by
  induction ts generalizing d pb with
  | nil => exact ⟨.nil (fun he => by cases he), fun _ hp => absurd hp List.not_mem_nil⟩
  | cons t ts ih =>
    rw [pieces]
    cases hc : hdChkblk t.tbl pb with
    | failure => exact ⟨.nil (fun he => by cases he), fun _ hp => absurd hp List.not_mem_nil⟩
    | panic => exact ⟨.nil (fun he => by cases he), fun _ hp => absurd hp List.not_mem_nil⟩
    | success io tbl' =>
      obtain ⟨moved, hmoved, hin, hbuf, hm, hcont⟩ := piece_spec h hc t.resid
      have hcut := (hdChkblk_spec h.iodone hc).2.1
      have hlen : byte2blk pb.bBcount ≤ 256 := by
        rw [h.bBcount, byte2blk_blk2byte]
        exact (Nat.sub_le _ _).trans r.nblocks_le
      simp only [hm]
      cases hp : pbCont (ended io (blk2byte t.resid)) with
      | none =>
        rw [hp] at hcont
        refine ⟨MappedFrom.cons h.bBlkno hin hmoved hbuf (.nil fun _ => hcont), fun p hmem => ?_⟩
        rw [List.mem_singleton] at hmem
        subst hmem
        exact sound_iff hcut hlen
      | some next =>
        rw [hp] at hcont
        obtain ⟨hrest, hsound⟩ := ih hcont
        refine ⟨MappedFrom.cons h.bBlkno hin hmoved hbuf hrest, fun p hmem => ?_⟩
        rcases List.mem_cons.mp hmem with rfl | hmem
        · exact sound_iff hcut hlen
        · exact hsound p hmem

/-- The pieces of a request are mapped as claimed exactly when none of them is
asked for over a recorded block in the next track group alone. -/
theorem pieces_mapped_iff (r : Request) (ts : List Turn) :
    Mapped r (pieces (hdBegin r) ts).1 (pieces (hdBegin r) ts).2 ↔
      ∀ p ∈ (pieces (hdBegin r) ts).1, ¬Overlooked p.tbl p.asked := by
  obtain ⟨hmap, hsound⟩ := pieces_spec (at_hdBegin r) ts
  constructor
  · exact fun h p hp => (hsound p hp).mp (h.sound p hp)
  · intro h
    exact ⟨hmap.order, hmap.all, hmap.inside, hmap.buffer, fun p hp => (hsound p hp).mpr (h p hp)⟩

/-- A table with block 300 relocated to block 9000. -/
def oneBad : DefectTbl := DefectTbl.empty.add ⟨300, 9000, .done⟩ fun _ h => absurd h List.not_mem_nil

/-- A read of the 128 blocks from 200 on. -/
def readAcross : Request := ⟨true, false, false, false, 0, 200, 128, by decide⟩

/-- The read transfers block 300 at its old address. -/
theorem block_overlooked :
    ¬∀ r ts, Mapped r (pieces (hdBegin r) ts).1 (pieces (hdBegin r) ts).2 := by
  intro h
  have hs := (h readAcross [⟨oneBad, 0⟩]).sound _ List.mem_cons_self
  have hrec : oneBad.Recorded ⟨300, 9000, .done⟩ := by decide
  have hone := ((hs 100 (by decide)).1 ⟨300, 9000, .done⟩ hrec rfl).1
  exact absurd hone (by decide)

end Aix413.Lvm.BadBlocks
