import Aix413.Lvm.StripeMap

namespace Aix413.Lvm.Striping

open Aix413.Lib.Tiling

variable {g : StripedLv} {parts : Nat → Part} {lb lb₀ : Lbuf} {s s' : State} {i done n : Nat}
  {pb : Pbuf} {pbs past l : List Pbuf} {r : Outcome}

/-! ## The size of a piece -/

/-- The bytes of a stripe. -/
def StripedLv.stripeBytes (g : StripedLv) : Nat := 2 ^ g.stripeExp

/-- The bytes from the start of a request to the end of the stripe of its last byte. -/
def reach (g : StripedLv) (lb : Lbuf) : Nat :=
  ((lb.blkno * 512 + max lb.bcount 1 - 1) / g.stripeBytes + 1) * g.stripeBytes - lb.blkno * 512

/-- The addresses that `hd_stripe` compares do not wrap around: the stripe of the last byte ends
below 2^32, or the request ends there and lies in one stripe. -/
def Fits (g : StripedLv) (lb : Lbuf) : Prop :=
  lb.baddr + reach g lb < 2 ^ 32 ∨
    lb.baddr + lb.bcount = 2 ^ 32 ∧
      lb.blkno * 512 / g.stripeBytes = (lb.blkno * 512 + lb.bcount - 1) / g.stripeBytes

/-- The fields of a request have 32 bits. -/
structure Request (lb : Lbuf) : Prop where
  baddr : lb.baddr < 2 ^ 32
  bcount : lb.bcount < 2 ^ 32

theorem stripeBytes_pos (g : StripedLv) : 0 < g.stripeBytes := Nat.two_pow_pos _

theorem stripeBytes_lt (g : StripedLv) : g.stripeBytes < 2 ^ 32 :=
  Nat.pow_lt_pow_right (by decide) g.stripe_lt

theorem stripeBytes_eq (g : StripedLv) : g.stripeBytes = g.stripeBlks * 512 := by
  have h := g.dbshift_le
  rw [StripedLv.stripeBytes, StripedLv.stripeBlks, show (512 : Nat) = 2 ^ dbshift from rfl,
    ← Nat.pow_add, Nat.sub_add_cancel h]

theorem lbBlks_eq (g : StripedLv) : 1 <<< g.stripeExp >>> dbshift = g.stripeBlks := by
  rw [Nat.one_shiftLeft, Nat.shiftRight_eq_div_pow]
  exact Nat.pow_div g.dbshift_le (by decide)

/-- The rest of a stripe ends where the stripe ends. -/
theorem stripe_end (g : StripedLv) (b : Nat) :
    b * 512 + (g.stripeBlks - b % g.stripeBlks) * 512 =
      (b * 512 / g.stripeBytes + 1) * g.stripeBytes := by
  have hpos := g.stripeBlks_pos
  have hmod := Nat.mod_lt b hpos
  have hdiv := Nat.div_add_mod' b g.stripeBlks
  rw [stripeBytes_eq, Nat.mul_div_mul_right _ _ (by decide), ← Nat.mul_assoc, ← Nat.add_mul,
    Nat.succ_mul]
  congr 1
  omega

/-- What the end of a stripe within a request can be. -/
theorem stripe_end_le (g : StripedLv) (lb : Lbuf)
    (hd : done < lb.bcount ∨ lb.bcount = 0 ∧ done = 0) (hblk : done = 512 * n) :
    ((lb.blkno + n) * 512 / g.stripeBytes + 1) * g.stripeBytes ≤ lb.blkno * 512 + reach g lb ∧
    lb.bcount ≤ reach g lb ∧
    (lb.blkno * 512 / g.stripeBytes = (lb.blkno * 512 + lb.bcount - 1) / g.stripeBytes →
      0 < lb.bcount →
      ((lb.blkno + n) * 512 / g.stripeBytes + 1) * g.stripeBytes =
        lb.blkno * 512 + reach g lb) := by
  have hpos := stripeBytes_pos g
  generalize hlast : lb.blkno * 512 + max lb.bcount 1 - 1 = last
  have hle : (lb.blkno + n) * 512 ≤ last := by omega
  have hdiv := Nat.div_le_div_right (c := g.stripeBytes) hle
  have hmul := Nat.mul_le_mul_right g.stripeBytes (Nat.succ_le_succ hdiv)
  have hend := Nat.lt_div_mul_add (a := last) hpos
  have hreach : lb.blkno * 512 + reach g lb = (last / g.stripeBytes + 1) * g.stripeBytes := by
    rw [reach, hlast]
    rw [Nat.succ_mul]
    omega
  rw [hreach]
  refine ⟨hmul, ?_, fun heq hcount => ?_⟩
  · rw [Nat.succ_mul] at hreach
    omega
  · have hlast' : lb.blkno * 512 + lb.bcount - 1 = last := by omega
    rw [hlast'] at heq
    have hge := Nat.div_le_div_right (c := g.stripeBytes)
      (Nat.mul_le_mul_right 512 (Nat.le_add_right lb.blkno n))
    rw [Nat.le_antisymm hdiv (heq ▸ hge)]

/-- The size of the next piece, and the test for the last one. -/
theorem reqSize_eq (hfit : Fits g lb) (hr : Request lb) (hblk : done = 512 * n)
    (hd : done < lb.bcount ∨ lb.bcount = 0 ∧ done = 0) :
    ∃ size, (if (lb.baddr + lb.bcount) % 2 ^ 32 <
          (lb.baddr + done + (g.stripeBlks - (lb.blkno + n) % g.stripeBlks) * 512) % 2 ^ 32
        then ((lb.baddr + lb.bcount) % 2 ^ 32 + 2 ^ 32 - (lb.baddr + done)) % 2 ^ 32
        else (g.stripeBlks - (lb.blkno + n) % g.stripeBlks) * 512) = size ∧
      size ≤ (g.stripeBlks - (lb.blkno + n) % g.stripeBlks) * 512 ∧ done + size ≤ lb.bcount ∧
      (done + size < lb.bcount →
        size = (g.stripeBlks - (lb.blkno + n) % g.stripeBlks) * 512 ∧ 0 < size ∧
          (lb.baddr + done + size) % 2 ^ 32 = lb.baddr + (done + size)) ∧
      ((lb.baddr + done + size) % 2 ^ 32 = (lb.baddr + lb.bcount) % 2 ^ 32 ↔
        done + size = lb.bcount) := by
  obtain ⟨h1, h2, h3⟩ := stripe_end_le g lb hd hblk
  have hend := stripe_end g (lb.blkno + n)
  have hbytes := stripeBytes_lt g
  have hleft : 0 < (g.stripeBlks - (lb.blkno + n) % g.stripeBlks) * 512 ∧
      (g.stripeBlks - (lb.blkno + n) % g.stripeBlks) * 512 ≤ g.stripeBytes := by
    have hmod := Nat.mod_lt (lb.blkno + n) g.stripeBlks_pos
    rw [stripeBytes_eq]
    omega
  obtain ⟨hb, hc⟩ := hr
  rw [← hend] at h1 h3
  obtain ⟨left, hdef⟩ : ∃ x, (g.stripeBlks - (lb.blkno + n) % g.stripeBlks) * 512 = x := ⟨_, rfl⟩
  rw [hdef] at h1 h3 hleft ⊢
  refine ⟨min left (lb.bcount - done), ?_, min_le_left _ _, by omega, fun hlt => ?_, ?_⟩
  · rcases hfit with hfit | ⟨hfit, hone⟩
    · split <;> omega
    · have := h3 hone (by omega)
      split <;> omega
  · rcases hfit with hfit | ⟨hfit, hone⟩
    · omega
    · have := h3 hone (by omega)
      omega
  · rcases hfit with hfit | ⟨hfit, hone⟩
    · omega
    · have := h3 hone (by omega)
      omega


/-! ## The pieces of a round -/

/-- The bytes of the piece lie in one stripe of the volume. -/
def InStripe (g : StripedLv) (lb : Lbuf) (pb : Pbuf) : Prop :=
  ∃ q, q * g.stripeBytes ≤ lb.blkno * 512 + (pb.origAddr - lb.baddr) ∧
    lb.blkno * 512 + (pb.origAddr - lb.baddr) + pb.origCount ≤ (q + 1) * g.stripeBytes

/-- A piece that was just issued. -/
structure Fresh (pb : Pbuf) : Prop where
  notdone : pb.notdone = true
  flagged : pb.flagged = false
  bcount : pb.bcount = pb.origCount
  addr : pb.addr = pb.origAddr

/-- Only the first piece is marked. -/
def IsRing : List Pbuf → Prop
  | [] => False
  | pb :: pbs => pb.firstIssued = true ∧ ∀ q ∈ pbs, q.firstIssued = false

theorem translate_first (g : StripedLv) (parts : Nat → Part) (serial first : Bool)
    (lbBlks e a b : Nat) (free : List Nat) :
    (∀ pb ∈ (translate g parts serial lbBlks e free a b first).1.head?, pb.firstIssued = first) ∧
      (∀ pb ∈ (translate g parts serial lbBlks e free a b first).1.tail,
        pb.firstIssued = false) := by
  induction free generalizing a b first with
  | nil => exact ⟨nofun, nofun⟩
  | cons err free ih =>
    rw [translate]
    dsimp only
    generalize (if e < _ then _ else _ : Nat) = size
    cases hdStripeXlate g.partExp g.stripeExp g.width parts b with
    | none => exact ⟨nofun, nofun⟩
    | some place =>
      dsimp only
      split
      · refine ⟨fun pb hpb => ?_, nofun⟩
        cases hpb
        rfl
      · split
        · refine ⟨fun pb hpb => ?_, nofun⟩
          cases hpb
          rfl
        · refine ⟨fun pb hpb => ?_, fun pb hpb => ?_⟩
          · cases hpb
            rfl
          · obtain ⟨h1, h2⟩ := ih false ((a + size) % 2 ^ 32) (b + size >>> dbshift)
            dsimp only [List.tail_cons] at hpb
            generalize (translate g parts serial lbBlks e free ((a + size) % 2 ^ 32)
              (b + size >>> dbshift) false).1 = pbs at h1 h2 hpb
            cases pbs with
            | nil => cases hpb
            | cons q pbs =>
              rcases List.mem_cons.mp hpb with rfl | hpb
              · exact h1 pb rfl
              · exact h2 pb hpb

/-- The pieces of a round follow each other from where the request stands. -/
theorem translate_spec (hfit : Fits g lb) (hr : Request lb) {serial : Bool} {free : List Nat}
    {first : Bool} {st : XlateStat} (hblk : done = 512 * n)
    (hd : done < lb.bcount ∨ lb.bcount = 0 ∧ done = 0)
    (ht : translate g parts serial g.stripeBlks ((lb.baddr + lb.bcount) % 2 ^ 32) free
      (lb.baddr + done) (lb.blkno + n) first = (pbs, st)) (hst : st ≠ .xlateFail) :
    ∃ done', Tiles Pbuf.origAddr Pbuf.origCount (lb.baddr + done) (lb.baddr + done') pbs ∧
      done' ≤ lb.bcount ∧ (∀ pb ∈ pbs, InStripe g lb pb ∧ Fresh pb ∧ pb.partialStripe = false) ∧
      (free ≠ [] → pbs ≠ []) ∧
      (st = .xlateComplete ∧ done' = lb.bcount ∨
        st = .xlatePartial ∧ 512 ∣ done' ∧ (done' < lb.bcount ∨ free = [])) := by
  induction free generalizing done n first pbs st with
  | nil =>
    cases ht
    exact ⟨done, rfl, by omega, nofun, fun h => absurd rfl h,
      .inr ⟨rfl, ⟨n, hblk⟩, .inr rfl⟩⟩
  | cons err free ih =>
    obtain ⟨size, hsize, hleft, hle, hmore, hlast⟩ := reqSize_eq hfit hr hblk hd
    rw [translate] at ht
    dsimp only at ht
    rw [show (g.stripeBlks - (lb.blkno + n) % g.stripeBlks) <<< dbshift =
      (g.stripeBlks - (lb.blkno + n) % g.stripeBlks) * 512 from Nat.shiftLeft_eq _ _, hsize] at ht
    split at ht
    · cases ht
      exact absurd rfl hst
    rename_i place _
    generalize hpb : Pbuf.mk (lb.baddr + done) size (lb.baddr + done) size place false err true
      first false = pb at ht
    have hpbAddr : pb.origAddr = lb.baddr + done := by rw [← hpb]
    have hpbCount : pb.origCount = size := by rw [← hpb]
    have hok : InStripe g lb pb ∧ Fresh pb ∧ pb.partialStripe = false := by
      refine ⟨⟨(lb.blkno + n) * 512 / g.stripeBytes, ?_, ?_⟩, ?_⟩
      · refine (Nat.div_mul_le_self ((lb.blkno + n) * 512) g.stripeBytes).trans ?_
        rw [hpbAddr]
        omega
      · rw [← stripe_end g (lb.blkno + n), hpbAddr, hpbCount]
        omega
      · rw [← hpb]
        exact ⟨⟨rfl, rfl, rfl, rfl⟩, rfl⟩
    have hone : ∀ {pbs'} {b : Nat}, Tiles Pbuf.origAddr Pbuf.origCount (lb.baddr + (done + size))
        b pbs' → Tiles Pbuf.origAddr Pbuf.origCount (lb.baddr + done) b (pb :: pbs') := by
      intro pbs' b h
      refine ⟨hpbAddr, ?_⟩
      rw [hpbCount, Nat.add_assoc]
      exact h
    have hall : ∀ q ∈ [pb], InStripe g lb q ∧ Fresh q ∧ q.partialStripe = false := by
      intro q hq
      rw [List.mem_singleton] at hq
      rw [hq]
      exact hok
    split at ht
    · rename_i hend
      cases ht
      rw [hlast] at hend
      exact ⟨done + size, hone rfl, hle, hall, fun _ => List.cons_ne_nil _ _, .inl ⟨rfl, hend⟩⟩
    rename_i hend
    rw [hlast] at hend
    have hlt : done + size < lb.bcount := by omega
    obtain ⟨hfull, hpos, hnext⟩ := hmore hlt
    have hblk' : done + size = 512 * (n + (g.stripeBlks - (lb.blkno + n) % g.stripeBlks)) := by
      omega
    split at ht
    · cases ht
      exact ⟨done + size, hone rfl, hle, hall, fun _ => List.cons_ne_nil _ _,
        .inr ⟨rfl, ⟨_, hblk'⟩, .inl hlt⟩⟩
    · have hshift : size >>> dbshift = g.stripeBlks - (lb.blkno + n) % g.stripeBlks := by
        rw [Nat.shiftRight_eq_div_pow]
        change size / 512 = _
        omega
      rw [hnext, hshift, Nat.add_assoc lb.blkno] at ht
      generalize hrest : translate g parts serial g.stripeBlks ((lb.baddr + lb.bcount) % 2 ^ 32)
        free _ _ false = rest at ht
      cases ht
      obtain ⟨done', h1, h2, h3, -, h4⟩ := ih hblk' (.inl hlt) hrest hst
      refine ⟨done', hone h1, h2, fun q hq => ?_, fun _ => List.cons_ne_nil _ _, ?_⟩
      · rcases List.mem_cons.mp hq with rfl | hq
        · exact hok
        · exact h3 q hq
      · rcases h4 with h4 | ⟨h5, h6, h7⟩
        · exact .inl h4
        · refine .inr ⟨h5, h6, .inl ?_⟩
          rcases h7 with h7 | rfl
          · exact h7
          · cases hrest
            have hstop : _ = lb.baddr + done' := h1
            omega


/-- A request between two rounds. -/
structure Resumable (lb : Lbuf) : Prop where
  resid_le : lb.resid ≤ lb.bcount
  blocks : 512 ∣ lb.bcount - lb.resid
  more : lb.bcount - lb.resid < lb.bcount ∨ lb.bcount = 0

/-- The ring does not end the request. -/
def partialRing (l : List Pbuf) : Bool := l.head?.any (·.partialStripe)

/-- The pieces of a ring go from where the request stands to `done`, its end but for partial
rings. -/
structure Issued (lb : Lbuf) (l : List Pbuf) (done : Nat) : Prop where
  ring : IsRing l
  tiles : Tiles Pbuf.origAddr Pbuf.origCount (lb.baddr + (lb.bcount - lb.resid))
    (lb.baddr + done) l
  le : done ≤ lb.bcount
  whole : partialRing l = false → done = lb.bcount
  more : partialRing l = true → 512 ∣ done ∧ done < lb.bcount

theorem setPartial_tiles {a b : Nat} :
    Tiles Pbuf.origAddr Pbuf.origCount a b (setPartial pbs) ↔
      Tiles Pbuf.origAddr Pbuf.origCount a b pbs := by
  cases pbs with
  | nil => rfl
  | cons pb pbs => rfl

theorem mem_setPartial {q : Pbuf} (h : q ∈ setPartial pbs) :
    ∃ pb ∈ pbs, q = pb ∨ q = { pb with partialStripe := true } := by
  cases pbs with
  | nil => cases h
  | cons pb pbs =>
    rcases List.mem_cons.mp h with rfl | h
    · exact ⟨pb, List.mem_cons_self, .inr rfl⟩
    · exact ⟨q, List.mem_cons_of_mem pb h, .inl rfl⟩

theorem translate_isRing (g : StripedLv) (parts : Nat → Part) (serial : Bool)
    (lbBlks e a b : Nat) (free : List Nat)
    (h : (translate g parts serial lbBlks e free a b true).1 ≠ []) :
    IsRing (translate g parts serial lbBlks e free a b true).1 := by
  obtain ⟨h1, h2⟩ := translate_first g parts serial true lbBlks e a b free
  cases hl : (translate g parts serial lbBlks e free a b true).1 with
  | nil => exact absurd hl h
  | cons pb pbs =>
    rw [hl] at h1 h2
    exact ⟨h1 pb rfl, h2⟩

/-- What a call of `hd_stripe` does. -/
theorem hdStripe_cases (hfit : Fits g s.lb) (hr : Request s.lb) (hs : Resumable s.lb)
    (parts : Nat → Part) (serial : Bool) (free : List Nat) :
    hdStripe g parts serial free s = s ∨
    hdStripe g parts serial free s =
      { s with lb := { s.lb with flagged := true, error := eio, resid := s.lb.bcount }
               phase := .terminated } ∨
    ∃ l done, hdStripe g parts serial free s = { s with ring := l, phase := .issued } ∧
      Issued s.lb l done ∧ ∀ pb ∈ l, InStripe g s.lb pb ∧ Fresh pb := by
  obtain ⟨n, hn⟩ := hs.blocks
  have hle := hs.resid_le
  have hmore := hs.more
  obtain ⟨hb, hc⟩ := hr
  have hroom : s.lb.baddr + (s.lb.bcount - s.lb.resid) < 2 ^ 32 := by
    rcases hfit with hfit | ⟨hfit, -⟩
    · have := (stripe_end_le g s.lb (n := n) (by omega) hn).2.1
      omega
    · omega
  have h1 : (s.lb.bcount + 2 ^ 32 - s.lb.resid) % 2 ^ 32 = s.lb.bcount - s.lb.resid := by omega
  have h2 : (s.lb.baddr + (s.lb.bcount - s.lb.resid)) % 2 ^ 32 =
      s.lb.baddr + (s.lb.bcount - s.lb.resid) := Nat.mod_eq_of_lt hroom
  have h3 : s.lb.baddr + (s.lb.bcount - s.lb.resid) + s.lb.resid = s.lb.baddr + s.lb.bcount := by
    omega
  have h4 : (s.lb.bcount - s.lb.resid) >>> dbshift = n := by
    rw [hn, Nat.shiftRight_eq_div_pow]
    change 512 * n / 512 = n
    omega
  unfold hdStripe
  dsimp only
  rw [h1, h2, h3, h4, lbBlks_eq]
  by_cases hfree : free = []
  · rw [if_pos hfree]
    exact .inl rfl
  rw [if_neg hfree]
  have hring := translate_isRing g parts serial g.stripeBlks ((s.lb.baddr + s.lb.bcount) % 2 ^ 32)
    (s.lb.baddr + (s.lb.bcount - s.lb.resid)) (s.lb.blkno + n) free
  generalize ht : translate g parts serial g.stripeBlks ((s.lb.baddr + s.lb.bcount) % 2 ^ 32) free
    (s.lb.baddr + (s.lb.bcount - s.lb.resid)) (s.lb.blkno + n) true = t at hring
  obtain ⟨pbs, st⟩ := t
  by_cases hst : st = .xlateFail
  · rw [hst]
    exact .inr (.inl rfl)
  obtain ⟨done, hd1, hd2, hd3, hd4, hd5⟩ := translate_spec hfit ⟨hb, hc⟩ hn (by omega) ht hst
  have hring := hring (hd4 hfree)
  refine .inr (.inr ?_)
  rcases hd5 with ⟨rfl, hall⟩ | ⟨rfl, hdvd, hlt⟩
  · refine ⟨pbs, done, rfl, ⟨hring, hd1, hd2, fun _ => hall, fun hp => ?_⟩,
      fun pb hpb => ⟨(hd3 pb hpb).1, (hd3 pb hpb).2.1⟩⟩
    cases pbs with
    | nil => cases hp
    | cons pb pbs =>
      rw [partialRing, List.head?_cons, Option.any_some, (hd3 pb List.mem_cons_self).2.2] at hp
      cases hp
  · refine ⟨setPartial pbs, done, rfl, ⟨?_, setPartial_tiles.mpr hd1, hd2, fun hp => ?_,
      fun _ => ⟨hdvd, hlt.resolve_right hfree⟩⟩, fun q hq => ?_⟩
    · cases pbs with
      | nil => exact hring
      | cons pb pbs => exact hring
    · cases pbs with
      | nil => exact hring.elim
      | cons pb pbs => cases hp
    · obtain ⟨pb, hpb, rfl | rfl⟩ := mem_setPartial hq
      · exact ⟨(hd3 q hpb).1, (hd3 q hpb).2.1⟩
      · obtain ⟨hin, hfresh, -⟩ := hd3 pb hpb
        exact ⟨hin, hfresh.1, hfresh.2, hfresh.3, hfresh.4⟩


/-! ## The end of a piece -/

theorem doneWalk_eq_some : doneWalk l = some n ↔
    (∀ pb ∈ l, pb.notdone = false) ∧ n = (l.map Pbuf.bcount).sum := by
  induction l generalizing n with
  | nil =>
    rw [doneWalk]
    exact ⟨fun h => ⟨nofun, by cases h; rfl⟩, fun h => by rw [h.2]; rfl⟩
  | cons pb l ih =>
    rw [doneWalk]
    cases hpb : pb.notdone with
    | true =>
      rw [if_pos rfl]
      exact ⟨nofun, fun h => by rw [h.1 pb List.mem_cons_self] at hpb; cases hpb⟩
    | false =>
      rw [if_neg Bool.false_ne_true, Option.map_eq_some_iff]
      simp only [ih, List.forall_mem_cons, List.map_cons, List.sum_cons, hpb, true_and]
      constructor
      · rintro ⟨k, ⟨hall, rfl⟩, rfl⟩
        exact ⟨hall, rfl⟩
      · rintro ⟨hall, rfl⟩
        exact ⟨_, ⟨hall, rfl⟩, rfl⟩

/-- The walk around a ring meets all of it. -/
theorem doneWalk_around (l : List Pbuf) (i : Nat) :
    doneWalk (l.drop i ++ l.take i) = doneWalk l := by
  have hmem : ∀ pb, pb ∈ l.drop i ++ l.take i ↔ pb ∈ l := by
    intro pb
    rw [List.mem_append, or_comm, ← List.mem_append, List.take_append_drop]
  have hsum : ((l.drop i ++ l.take i).map Pbuf.bcount).sum = (l.map Pbuf.bcount).sum := by
    rw [List.map_append, List.sum_append, Nat.add_comm, ← List.sum_append, ← List.map_append,
      List.take_append_drop]
  refine Option.ext fun n => ?_
  rw [doneWalk_eq_some, doneWalk_eq_some, hsum]
  simp only [hmem]

/-- The ring is found again from any of its members. -/
theorem fromFirst_around (h : IsRing l) (hi : i < l.length) :
    fromFirst (l.drop i ++ l.take i) = l := by
  cases l with
  | nil => exact h.elim
  | cons pb pbs =>
    obtain ⟨h1, h2⟩ := h
    have hhead : (!pb.firstIssued) = false := by rw [h1]; rfl
    cases i with
    | zero =>
      rw [List.drop_zero, List.take_zero, List.append_nil, fromFirst,
        List.dropWhile_cons_of_neg (by rw [hhead]; exact Bool.false_ne_true),
        List.takeWhile_cons_of_neg (by rw [hhead]; exact Bool.false_ne_true), List.append_nil]
    | succ i =>
      have hrest : ∀ q ∈ pbs.drop i, (!q.firstIssued) = true := by
        intro q hq
        rw [h2 q (List.mem_of_mem_drop hq)]
        rfl
      rw [List.drop_succ_cons, List.take_succ_cons, fromFirst,
        List.dropWhile_append_of_pos hrest, List.takeWhile_append_of_pos hrest,
        List.dropWhile_cons_of_neg (by rw [hhead]; exact Bool.false_ne_true),
        List.takeWhile_cons_of_neg (by rw [hhead]; exact Bool.false_ne_true), List.append_nil,
        List.cons_append, List.take_append_drop]

/-- The code takes the piece for failed. -/
def hasError (pb : Pbuf) : Prop := pb.error &&& bError ≠ 0

instance : DecidablePred hasError := fun pb => inferInstanceAs (Decidable (pb.error &&& bError ≠ 0))

theorem errorWalk_cases (l : List Pbuf) :
    (errorWalk l = none ∧ ∀ pb ∈ l, ¬ hasError pb) ∨
      ∃ l₁ pb l₂, l = l₁ ++ pb :: l₂ ∧ errorWalk l = some pb ∧ hasError pb ∧
        ∀ q ∈ l₁, ¬ hasError q := by
  unfold errorWalk
  cases h : l.find? fun pb => pb.error &&& bError ≠ 0 with
  | none =>
    rw [List.find?_eq_none] at h
    refine .inl ⟨rfl, fun pb hpb he => h pb hpb ?_⟩
    exact decide_eq_true (show pb.error &&& bError ≠ 0 from he)
  | some pb =>
    obtain ⟨hp, l₁, l₂, rfl, hall⟩ := List.find?_eq_some_iff_append.mp h
    refine .inr ⟨l₁, pb, l₂, rfl, rfl, of_decide_eq_true hp, fun q hq he => ?_⟩
    have := hall q hq
    rw [decide_eq_true (show q.error &&& bError ≠ 0 from he)] at this
    cases this

/-- A piece comes back, and the others stay. -/
theorem mem_modify {q : Pbuf} (h : q ∈ l.modify i (·.end_ r)) :
    (∃ pb, l[i]? = some pb ∧ q = pb.end_ r) ∨ q ∈ l := by
  obtain ⟨j, hj⟩ := List.mem_iff_getElem?.mp h
  rw [List.getElem?_modify] at hj
  obtain ⟨pb, hpb, rfl⟩ := Option.map_eq_some_iff.mp hj
  split
  · rename_i hij
    exact .inl ⟨pb, hij ▸ hpb, rfl⟩
  · exact .inr (List.mem_of_getElem? hpb)

theorem isRing_modify (h : IsRing l) : IsRing (l.modify i (·.end_ r)) := by
  cases l with
  | nil => exact h.elim
  | cons pb pbs =>
    cases i with
    | zero => exact ⟨h.1, h.2⟩
    | succ i =>
      change IsRing (pb :: pbs.modify i (·.end_ r))
      refine ⟨h.1, fun q hq => ?_⟩
      rcases mem_modify hq with ⟨p, hp, rfl⟩ | hq
      · exact h.2 p (List.mem_of_getElem? hp)
      · exact h.2 q hq

/-- What a call of `hd_stripe_done` does: nothing more before all pieces are done; then the first
piece with an error ends the request, or the round is over, or the request. -/
theorem hdStripeDone_cases (h : IsRing s.ring) (hi : i < s.ring.length) :
    (hdStripeDone s i r = ({ s with ring := s.ring.modify i (·.end_ r) }, []) ∧
      ∃ pb ∈ s.ring.modify i (·.end_ r), pb.notdone = true) ∨
    ((∀ pb ∈ s.ring.modify i (·.end_ r), pb.notdone = false) ∧
      (hdStripeDone s i r).2 = s.ring.modify i (·.end_ r) ∧
      (hdStripeDone s i r).1.ring = [] ∧
      ((∃ l₁ pb l₂, s.ring.modify i (·.end_ r) = l₁ ++ pb :: l₂ ∧ hasError pb ∧
          (∀ q ∈ l₁, ¬ hasError q) ∧
          (hdStripeDone s i r).1.phase = .terminated ∧
          (hdStripeDone s i r).1.lb = { s.lb with
            flagged := true
            error := pb.error
            resid := (s.lb.bcount + 2 ^ 32 - (pb.addr + 2 ^ 32 - s.lb.baddr) % 2 ^ 32)
              % 2 ^ 32 }) ∨
        (∀ pb ∈ s.ring.modify i (·.end_ r), ¬ hasError pb) ∧
          ((partialRing (s.ring.modify i (·.end_ r)) = true ∧
            (hdStripeDone s i r).1.phase = .pending ∧
            (hdStripeDone s i r).1.lb = { s.lb with
              resid := (s.lb.resid + 2 ^ 32 -
                ((s.ring.modify i (·.end_ r)).map Pbuf.bcount).sum % 2 ^ 32) % 2 ^ 32 }) ∨
          partialRing (s.ring.modify i (·.end_ r)) = false ∧
            (hdStripeDone s i r).1.phase = .terminated ∧
            (hdStripeDone s i r).1.lb =
              { s.lb with flagged := false, error := 0, resid := 0 }))) := by
  have hring := isRing_modify (i := i) (r := r) h
  have hlen : i < (s.ring.modify i (·.end_ r)).length := by rwa [List.length_modify]
  unfold hdStripeDone
  dsimp only
  rw [doneWalk_around, fromFirst_around hring hlen]
  generalize s.ring.modify i (·.end_ r) = ring at hring
  cases hwalk : doneWalk ring with
  | none =>
    refine .inl ⟨rfl, ?_⟩
    by_contra hall
    push Not at hall
    have hsome := doneWalk_eq_some.mpr ⟨fun pb hpb => Bool.eq_false_iff.mpr (hall pb hpb),
      (rfl : (ring.map Pbuf.bcount).sum = _)⟩
    rw [hwalk] at hsome
    cases hsome
  | some bytes =>
    obtain ⟨hall, rfl⟩ := doneWalk_eq_some.mp hwalk
    refine .inr ⟨hall, ?_⟩
    rcases errorWalk_cases ring with ⟨hnone, hno⟩ | ⟨l₁, pb, l₂, hl, hsome, hpb, hno⟩
    · rw [hnone]
      dsimp only
      cases hpart : partialRing ring with
      | true =>
        rw [partialRing] at hpart
        rw [if_pos hpart]
        exact ⟨rfl, rfl, .inr ⟨hno, .inl ⟨rfl, rfl, rfl⟩⟩⟩
      | false =>
        rw [partialRing] at hpart
        rw [if_neg (by rw [hpart]; exact Bool.false_ne_true)]
        exact ⟨rfl, rfl, .inr ⟨hno, .inr ⟨rfl, rfl, rfl⟩⟩⟩
    · rw [hsome]
      exact ⟨rfl, rfl, .inl ⟨l₁, pb, l₂, hl, hpb, hno, rfl, rfl⟩⟩


theorem modify_tiles {a b : Nat} : Tiles Pbuf.origAddr Pbuf.origCount a b (l.modify i (·.end_ r)) ↔
    Tiles Pbuf.origAddr Pbuf.origCount a b l := by
  induction l generalizing i a with
  | nil =>
    cases i with
    | zero => rfl
    | succ i => rfl
  | cons pb pbs ih =>
    cases i with
    | zero => rfl
    | succ i => exact and_congr_right fun _ => ih

theorem partialRing_modify : partialRing (l.modify i (·.end_ r)) = partialRing l := by
  cases l with
  | nil =>
    cases i with
    | zero => rfl
    | succ i => rfl
  | cons pb pbs =>
    cases i with
    | zero => rfl
    | succ i => rfl

theorem Issued.modify (h : Issued lb l n) : Issued lb (l.modify i (·.end_ r)) n := by
  refine ⟨isRing_modify h.ring, modify_tiles.mpr h.tiles, h.le, ?_, ?_⟩
  · rw [partialRing_modify]
    exact h.whole
  · rw [partialRing_modify]
    exact h.more

/-! ## The rounds of a request -/

/-- How a physical request can come back. Without an error it has transferred all its bytes, and
`b_error` may be what the buffer was left with. -/
structure Returns (pb : Pbuf) (r : Outcome) : Prop where
  bytes : r.bytes ≤ pb.origCount
  whole : r.flagged = false → r.bytes = pb.origCount
  bcount : r.bcount ≤ pb.origCount
  blocks : 512 ∣ pb.origCount - r.bcount
  stale : r.flagged = false → r.error = pb.error ∨ r.error = 0

/-- A request when it is put on the pending queue. -/
def begun (lb : Lbuf) : State :=
  ⟨{ lb with resid := lb.bcount, flagged := false, error := 0 }, [], .pending⟩

/-- The rounds of a request, with any physical buffers at each of them, and the pieces coming back
in any order; `past` has the pieces of the rounds that are over. -/
inductive Run (g : StripedLv) (cond : State → Nat → Outcome → Prop) (lb₀ : Lbuf) :
    State → List Pbuf → Prop
  | start : Run g cond lb₀ (begun lb₀) []
  | round {s : State} {past : List Pbuf} (h : Run g cond lb₀ s past) (hp : s.phase = .pending)
      (parts : Nat → Part) (serial : Bool) (free : List Nat) :
      Run g cond lb₀ (hdStripe g parts serial free s) past
  | done {s : State} {past : List Pbuf} {i : Nat} {r : Outcome} {pb : Pbuf}
      (h : Run g cond lb₀ s past) (hp : s.phase = .issued) (hi : s.ring[i]? = some pb)
      (hn : pb.notdone = true) (hr : Returns pb r) (hc : cond s i r) :
      Run g cond lb₀ (hdStripeDone s i r).1 (past ++ (hdStripeDone s i r).2)

/-- A piece on its way or back. -/
structure Piece (pb : Pbuf) : Prop where
  fresh : pb.notdone = true → Fresh pb
  bcount : pb.bcount ≤ pb.origCount
  blocks : 512 ∣ pb.origCount - pb.bcount

theorem Fresh.piece (h : Fresh pb) : Piece pb :=
  ⟨fun _ => h, h.bcount.le, by rw [h.bcount, Nat.sub_self]; exact Nat.dvd_zero 512⟩

theorem Returns.piece (h : Returns pb r) : Piece (pb.end_ r) := ⟨nofun, h.bcount, h.blocks⟩

/-- Pieces that were continued behind relocated blocks count less. -/
theorem sum_bcount (h : ∀ pb ∈ l, Piece pb) :
    ∃ k, (l.map Pbuf.bcount).sum + 512 * k = (l.map Pbuf.origCount).sum := by
  induction l with
  | nil => exact ⟨0, rfl⟩
  | cons pb l ih =>
    obtain ⟨k, hk⟩ := ih fun q hq => h q (List.mem_cons_of_mem pb hq)
    have hpb := h pb List.mem_cons_self
    obtain ⟨j, hj⟩ := hpb.blocks
    have hle := hpb.bcount
    refine ⟨j + k, ?_⟩
    rw [List.map_cons, List.map_cons, List.sum_cons, List.sum_cons]
    omega

/-- What holds between two steps of a request. -/
structure Kept (g : StripedLv) (lb₀ : Lbuf) (s : State) : Prop where
  same : ∃ resid flagged error,
    s.lb = { lb₀ with resid := resid, flagged := flagged, error := error }
  pending : s.phase = .pending → Resumable s.lb ∧ s.ring = []
  issued : s.phase = .issued → Resumable s.lb ∧ (∃ done, Issued s.lb s.ring done) ∧
    ∀ pb ∈ s.ring, InStripe g s.lb pb ∧ Piece pb
  terminated : s.phase = .terminated → s.ring = []

theorem Kept.fits (h : Kept g lb₀ s) (hfit : Fits g lb₀) : Fits g s.lb := by
  obtain ⟨resid, flagged, error, hlb⟩ := h.same
  rw [hlb]
  exact hfit

theorem Kept.request (h : Kept g lb₀ s) (hr : Request lb₀) : Request s.lb := by
  obtain ⟨resid, flagged, error, hlb⟩ := h.same
  rw [hlb]
  exact ⟨hr.1, hr.2⟩

theorem kept_begun : Kept g lb₀ (begun lb₀) := by
  refine ⟨⟨_, _, _, rfl⟩, fun _ => ⟨⟨le_rfl, ?_, ?_⟩, rfl⟩, nofun, nofun⟩
  · change 512 ∣ lb₀.bcount - lb₀.bcount
    rw [Nat.sub_self]
    exact Nat.dvd_zero 512
  · change lb₀.bcount - lb₀.bcount < lb₀.bcount ∨ lb₀.bcount = 0
    omega

theorem Kept.hdStripe (h : Kept g lb₀ s) (hfit : Fits g lb₀) (hr : Request lb₀)
    (hp : s.phase = .pending) (serial : Bool) (free : List Nat) :
    Kept g lb₀ (hdStripe g parts serial free s) := by
  obtain ⟨hres, hring⟩ := h.pending hp
  rcases hdStripe_cases (h.fits hfit) (h.request hr) hres parts serial free with
    he | he | ⟨l, done, he, hl, hpbs⟩
  · rw [he]
    exact h
  · rw [he]
    obtain ⟨resid, flagged, error, hlb⟩ := h.same
    exact ⟨⟨_, _, _, by rw [hlb]⟩, nofun, nofun, fun _ => hring⟩
  · rw [he]
    exact ⟨h.same, nofun, fun _ => ⟨hres, ⟨done, hl⟩,
      fun pb hpb => ⟨(hpbs pb hpb).1, (hpbs pb hpb).2.piece⟩⟩, nofun⟩

/-- A ring after one of its pieces has come back. -/
theorem Kept.modified (h : Kept g lb₀ s) (hp : s.phase = .issued) (hi : s.ring[i]? = some pb)
    (hr : Returns pb r) :
    (∃ done, Issued s.lb (s.ring.modify i (·.end_ r)) done) ∧
      ∀ q ∈ s.ring.modify i (·.end_ r), InStripe g s.lb q ∧ Piece q := by
  obtain ⟨hres, ⟨done, hl⟩, hpbs⟩ := h.issued hp
  refine ⟨⟨done, hl.modify⟩, fun q hq => ?_⟩
  rcases mem_modify hq with ⟨p, hp, rfl⟩ | hq
  · rw [hi] at hp
    cases hp
    exact ⟨(hpbs pb (List.mem_of_getElem? hi)).1, hr.piece⟩
  · exact hpbs q hq

/-- Where a partial ring leaves the request. -/
theorem Issued.next (h : Issued lb l n) (hres : Resumable lb) (hlt : lb.bcount < 2 ^ 32)
    (hpbs : ∀ pb ∈ l, Piece pb) (hpart : partialRing l = true) {resid : Nat}
    (hresid : resid = (lb.resid + 2 ^ 32 - (l.map Pbuf.bcount).sum % 2 ^ 32) % 2 ^ 32) :
    resid ≤ lb.bcount ∧ 512 ∣ lb.bcount - resid ∧ lb.bcount - resid ≤ n ∧
      lb.bcount - resid = lb.bcount - lb.resid + (l.map Pbuf.bcount).sum := by
  obtain ⟨k, hk⟩ := sum_bcount hpbs
  have hsum := h.tiles.sum
  obtain ⟨⟨a, ha⟩, hmore⟩ := h.more hpart
  obtain ⟨b, hb⟩ := hres.blocks
  have hle := hres.resid_le
  have hn := h.le
  refine ⟨by omega, ⟨a - k, by omega⟩, by omega, by omega⟩

theorem Kept.hdStripeDone (h : Kept g lb₀ s) (hreq : Request lb₀) (hp : s.phase = .issued)
    (hi : s.ring[i]? = some pb) (hr : Returns pb r) : Kept g lb₀ (hdStripeDone s i r).1 := by
  obtain ⟨hres, ⟨n, hl⟩, -⟩ := h.issued hp
  obtain ⟨⟨n', hl'⟩, hpbs⟩ := h.modified hp hi hr
  have hlen : i < s.ring.length := (List.getElem?_eq_some_iff.mp hi).1
  obtain ⟨resid, flagged, error, hlb⟩ := h.same
  rcases hdStripeDone_cases (r := r) hl.ring hlen with
    ⟨he, -⟩ | ⟨-, -, hring, ⟨_, q, _, -, -, -, hph, he⟩ | ⟨-, ⟨hpart, hph, he⟩ | ⟨-, hph, he⟩⟩⟩
  · rw [he]
    exact ⟨h.same, fun hp' => Phase.noConfusion (hp.symm.trans hp'),
      fun _ => ⟨hres, ⟨n', hl'⟩, hpbs⟩,
      fun hp' => Phase.noConfusion (hp.symm.trans hp')⟩
  · refine ⟨⟨_, _, _, by rw [he, hlb]⟩, fun hp' => Phase.noConfusion (hph.symm.trans hp'),
      fun hp' => Phase.noConfusion (hph.symm.trans hp'), fun _ => hring⟩
  · refine ⟨⟨_, _, _, by rw [he, hlb]⟩, fun _ => ⟨?_, hring⟩,
      fun hp' => Phase.noConfusion (hph.symm.trans hp'), fun _ => hring⟩
    rw [he]
    obtain ⟨h1, h2, h3, -⟩ := hl'.next hres (h.request hreq).bcount
      (fun q hq => (hpbs q hq).2) hpart rfl
    exact ⟨h1, h2, .inl (lt_of_le_of_lt h3 (hl'.more hpart).2)⟩
  · refine ⟨⟨_, _, _, by rw [he, hlb]⟩, fun hp' => Phase.noConfusion (hph.symm.trans hp'),
      fun hp' => Phase.noConfusion (hph.symm.trans hp'), fun _ => hring⟩

theorem Run.kept {cond : State → Nat → Outcome → Prop} (h : Run g cond lb₀ s past)
    (hfit : Fits g lb₀) (hreq : Request lb₀) : Kept g lb₀ s := by
  induction h with
  | start => exact kept_begun
  | round _ hp parts serial free ih => exact ih.hdStripe hfit hreq hp serial free
  | done _ hp hi _ hr _ ih => exact ih.hdStripeDone hreq hp hi hr

end Aix413.Lvm.Striping
