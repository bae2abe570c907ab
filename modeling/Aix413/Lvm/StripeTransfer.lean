import Aix413.Lvm.StripeRounds

namespace Aix413.Lvm.Striping

open Aix413.Lib.Tiling

variable {g : StripedLv} {lb : Lbuf} {s : State} {i : Nat} {pb : Pbuf} {past : List Pbuf}
  {r : Outcome}

/-! ## The pieces over all rounds -/

/-- In a round that does not end the request, no piece was continued behind a relocated block. -/
def Unbroken (s : State) (i : Nat) (r : Outcome) : Prop :=
  partialRing s.ring = true → ∀ pb, s.ring[i]? = some pb → r.bcount = pb.origCount

/-- The pieces so far follow each other up to `d`. -/
structure Tiled (g : StripedLv) (lb : Lbuf) (s : State) (past : List Pbuf) (d : Nat) : Prop where
  tiles : Tiles Pbuf.origAddr Pbuf.origCount lb.baddr (lb.baddr + d) (past ++ s.ring)
  stripe : ∀ pb ∈ past ++ s.ring, InStripe g lb pb
  le : d ≤ lb.bcount
  pending : s.phase = .pending → d = lb.bcount - s.lb.resid
  counts : s.phase = .issued → partialRing s.ring = true →
    ∀ pb ∈ s.ring, pb.bcount = pb.origCount
  issued : s.phase = .issued → Issued s.lb s.ring d
  terminated : s.phase = .terminated → s.lb.flagged = false → d = lb.bcount

theorem Run.tiled (h : Run g Unbroken lb s past) (hfit : Fits g lb) (hreq : Request lb) :
    ∃ d, Tiled g lb s past d := by
  induction h with
  | start =>
    refine ⟨0, ⟨rfl, nofun, Nat.zero_le _, fun _ => ?_, nofun, nofun, nofun⟩⟩
    exact (Nat.sub_self lb.bcount).symm
  | @round s past hrun hp parts serial free ih =>
    obtain ⟨d, hd⟩ := ih
    have hk := hrun.kept hfit hreq
    obtain ⟨hres, hring⟩ := hk.pending hp
    obtain ⟨resid, flagged, error, hlb⟩ := hk.same
    have htiles := hd.tiles
    have hstripe := hd.stripe
    rw [hring, List.append_nil] at htiles hstripe
    rcases hdStripe_cases (hk.fits hfit) (hk.request hreq) hres parts serial free with
      he | he | ⟨l, n, he, hl, hpbs⟩
    · exact ⟨d, by rw [he]; exact hd⟩
    · rw [he]
      exact ⟨d, hd.tiles, hd.stripe, hd.le, nofun, nofun, nofun, nofun⟩
    · rw [he]
      have hfrom : lb.baddr + d = s.lb.baddr + (s.lb.bcount - s.lb.resid) := by
        rw [hd.pending hp, hlb]
      have hto : s.lb.baddr + n = lb.baddr + n := by rw [hlb]
      have htiles' := hl.tiles
      rw [← hfrom, hto] at htiles'
      refine ⟨n, htiles.append htiles', fun q hq => ?_, ?_, nofun, fun _ _ q hq => ?_,
        fun _ => hl, nofun⟩
      · rcases List.mem_append.mp hq with hq | hq
        · exact hstripe q hq
        · have := (hpbs q hq).1
          rw [hlb] at this
          exact this
      · have := hl.le
        rw [hlb] at this
        exact this
      · exact (hpbs q hq).2.bcount
  | @done s past i r pb hrun hp hi hn hr hc ih =>
    obtain ⟨d, hd⟩ := ih
    have hk := hrun.kept hfit hreq
    obtain ⟨hres, -, -⟩ := hk.issued hp
    obtain ⟨⟨n', hl'⟩, hpbs⟩ := hk.modified hp hi hr
    obtain ⟨resid, flagged, error, hlb⟩ := hk.same
    have hl := hd.issued hp
    have hlen : i < s.ring.length := (List.getElem?_eq_some_iff.mp hi).1
    have hmod : Tiles Pbuf.origAddr Pbuf.origCount lb.baddr (lb.baddr + d)
        (past ++ s.ring.modify i (·.end_ r)) := by
      obtain ⟨b, h1, h2⟩ := hd.tiles.split
      exact h1.append (modify_tiles.mpr h2)
    have hstripe : ∀ q ∈ past ++ s.ring.modify i (·.end_ r), InStripe g lb q := by
      intro q hq
      rcases List.mem_append.mp hq with hq | hq
      · exact hd.stripe q (List.mem_append_left _ hq)
      · have := (hpbs q hq).1
        rw [hlb] at this
        exact this
    have hcounts : partialRing s.ring = true →
        ∀ q ∈ s.ring.modify i (·.end_ r), q.bcount = q.origCount := by
      intro hpart q hq
      rcases mem_modify hq with ⟨p, hp', rfl⟩ | hq
      · exact hc hpart p hp'
      · exact hd.counts hp hpart q hq
    rcases hdStripeDone_cases (r := r) hl.ring hlen with
      ⟨he, -⟩ | ⟨-, hrel, hring, ⟨_, q, _, -, -, -, hph, he⟩ |
        ⟨-, ⟨hpart, hph, he⟩ | ⟨hpart, hph, he⟩⟩⟩
    · rw [he]
      refine ⟨d, ?_, ?_, hd.le, fun hp' => Phase.noConfusion (hp.symm.trans hp'),
        fun _ hpart => hcounts (partialRing_modify.symm.trans hpart), fun _ => hl.modify,
        fun hp' => Phase.noConfusion (hp.symm.trans hp')⟩
      · rw [List.append_nil]
        exact hmod
      · rw [List.append_nil]
        exact hstripe
    all_goals
      rw [← hrel, ← List.append_nil (past ++ _), ← hring] at hmod hstripe
    · exact ⟨d, hmod, hstripe, hd.le, fun hp' => Phase.noConfusion (hph.symm.trans hp'),
        fun hp' => Phase.noConfusion (hph.symm.trans hp'),
        fun hp' => Phase.noConfusion (hph.symm.trans hp'), fun _ hf => by rw [he] at hf; cases hf⟩
    · refine ⟨d, hmod, hstripe, hd.le, fun _ => ?_,
        fun hp' => Phase.noConfusion (hph.symm.trans hp'),
        fun hp' => Phase.noConfusion (hph.symm.trans hp'),
        fun hp' => Phase.noConfusion (hph.symm.trans hp')⟩
      -- every piece counts with all its bytes
      obtain ⟨-, -, -, hnext⟩ := hl'.next hres (hk.request hreq).bcount
        (fun q hq => (hpbs q hq).2) hpart rfl
      have hsum := (hl.modify (i := i) (r := r)).tiles.sum
      have hcnt := List.map_congr_left (hcounts (partialRing_modify.symm.trans hpart))
      rw [hcnt] at hnext
      have hback : lb.bcount - (hdStripeDone s i r).1.lb.resid = s.lb.bcount -
          (s.lb.resid + 2 ^ 32 - ((s.ring.modify i (·.end_ r)).map Pbuf.bcount).sum % 2 ^ 32)
            % 2 ^ 32 := by
        rw [he, hlb]
      rw [hback, hcnt, hnext]
      omega
    · refine ⟨d, hmod, hstripe, hd.le, fun hp' => Phase.noConfusion (hph.symm.trans hp'),
        fun hp' => Phase.noConfusion (hph.symm.trans hp'),
        fun hp' => Phase.noConfusion (hph.symm.trans hp'), fun _ _ => ?_⟩
      rw [partialRing_modify] at hpart
      rw [hl.whole hpart, hlb]


/-- What the pieces of a request are, in the order in which they are issued. -/
structure Pieces (g : StripedLv) (lb : Lbuf) (s : State) (pbs : List Pbuf) : Prop where
  ordered : pbs.Pairwise fun p q => p.origAddr + p.origCount ≤ q.origAddr
  inside : ∀ pb ∈ pbs, lb.baddr ≤ pb.origAddr ∧ pb.origAddr + pb.origCount ≤ lb.baddr + lb.bcount
  stripe : ∀ pb ∈ pbs, InStripe g lb pb
  /-- Once the last round is issued, and when the request is over without an error. -/
  whole : (s.phase = .issued ∧ partialRing s.ring = false ∨
      s.phase = .terminated ∧ s.lb.flagged = false) →
    ∀ x, lb.baddr ≤ x → x < lb.baddr + lb.bcount →
      ∃ pb ∈ pbs, pb.origAddr ≤ x ∧ x < pb.origAddr + pb.origCount

/-- The blocks of a volume are translated to different places that fill the partitions, and the
pieces of a request, unless one was continued in a round before the last, tile its bytes. -/
theorem stripes_right (g : StripedLv) : (∀ parts n, Translates g parts n) ∧
    ∀ lb s past, Request lb → Fits g lb → Run g Unbroken lb s past →
      Pieces g lb s (past ++ s.ring) := by
  refine ⟨translates g, fun lb s past hreq hfit hrun => ?_⟩
  obtain ⟨d, h⟩ := hrun.tiled hfit hreq
  refine ⟨h.tiles.pairwise, fun pb hpb => ?_, h.stripe, fun hend x h1 h2 => ?_⟩
  · obtain ⟨h1, h2⟩ := h.tiles.start_le hpb
    have := h.le
    exact ⟨h1, by omega⟩
  · refine h.tiles.covers h1 ?_
    rcases hend with ⟨hp, hwhole⟩ | ⟨hp, hflag⟩
    · have hd := (h.issued hp).whole hwhole
      obtain ⟨resid, flagged, error, hlb⟩ := (hrun.kept hfit hreq).same
      rw [hlb] at hd
      rwa [hd]
    · rwa [h.terminated hp hflag]

/-- Two columns of partitions of a megabyte, in stripes of 4096 bytes. -/
def smallLv : StripedLv :=
  ⟨20, 12, 2, by decide, by decide, by decide, by decide, by decide⟩

def smallParts : Nat → Part := fun p => ⟨some ⟨p % 2, false⟩, 1000 + 2048 * p, false⟩

/-- A request of two stripes from the middle of the first one. -/
def smallReq : Lbuf := ⟨4096, 8192, 4, 0, false, 0⟩

theorem smallReq_fits : Fits smallLv smallReq := .inl (by decide)

/-- A first round of one piece, which is back, and a second round of the other pieces. -/
theorem stripes_right_small :
    let s₁ := hdStripe smallLv smallParts false [0] (begun smallReq)
    let r : Outcome := ⟨false, 0, 2048, 2048⟩
    let s₂ := hdStripeDone s₁ 0 r
    let s₃ := hdStripe smallLv smallParts false [0, 0, 0] s₂.1
    s₃.ring.length = 2 ∧ Pieces smallLv smallReq s₃ (([] ++ s₂.2) ++ s₃.ring) := by
  refine ⟨by decide +kernel, (stripes_right smallLv).2 smallReq _ _ ⟨by decide, by decide⟩
    smallReq_fits (.round (.done (.round .start rfl smallParts false [0]) (by decide +kernel)
      (List.getElem?_eq_getElem (by decide +kernel)) (by decide +kernel) ?_ ?_) (by decide +kernel)
        smallParts false [0, 0, 0])⟩
  · exact ⟨by decide +kernel, fun _ => by decide +kernel, by decide +kernel, by decide +kernel,
      fun _ => .inr rfl⟩
  · intro _ pb hpb
    have hpb' : (hdStripe smallLv smallParts false [0] (begun smallReq)).ring[0]?.map
      Pbuf.origCount = some 2048 := by decide +kernel
    rw [hpb] at hpb'
    exact (Option.some.inj hpb').symm

/-- When the only piece of a first round is continued behind a relocated block, it counts with the
bytes behind the block, and the pieces of the second round overlap it. Near 2^32 the end of the
stripe wraps around, and the piece is longer than the request. -/
theorem stripes_overlap :
    (¬ ∀ s past, Run smallLv (fun _ _ _ => True) smallReq s past →
      Pieces smallLv smallReq s (past ++ s.ring)) ∧
    ¬ ∀ s past, Run smallLv Unbroken ⟨2 ^ 32 - 2048, 1024, 0, 0, false, 0⟩ s past →
      Pieces smallLv ⟨2 ^ 32 - 2048, 1024, 0, 0, false, 0⟩ s (past ++ s.ring) := by
  constructor
  · intro h
    let s₁ := hdStripe smallLv smallParts false [0] (begun smallReq)
    let s₂ := hdStripeDone s₁ 0 ⟨false, 0, 2048, 512⟩
    let s₃ := hdStripe smallLv smallParts false [0] s₂.1
    have hrun : Run smallLv (fun _ _ _ => True) smallReq s₃ ([] ++ s₂.2) := by
      refine .round (.done (.round .start rfl smallParts false [0]) (by decide +kernel)
        (List.getElem?_eq_getElem (by decide +kernel)) (by decide +kernel) ?_ trivial)
          (by decide +kernel) smallParts false [0]
      exact ⟨by decide +kernel, fun _ => by decide +kernel, by decide +kernel, by decide +kernel,
        fun _ => .inr rfl⟩
    have hpair := (h s₃ _ hrun).ordered
    revert hpair
    decide +kernel
  · intro h
    have hin := (h _ _ (.round .start rfl smallParts false [0])).inside
    revert hin
    decide +kernel


/-! ## The end of a request -/

/-- `b_error` has the bit of `B_ERROR` for the pieces that fail, and for no others. -/
def Telling (_ : State) (_ : Nat) (r : Outcome) : Prop :=
  r.flagged = true ↔ r.error &&& bError ≠ 0

/-- What is known of the pieces of a request that is not over. -/
structure Settled (lb : Lbuf) (s : State) (past : List Pbuf) : Prop where
  passed : ∀ pb ∈ past, pb.flagged = false
  ring : ∀ pb ∈ s.ring, pb.notdone = false → (pb.flagged = true ↔ hasError pb) ∧
    pb.origAddr ≤ pb.addr ∧ pb.addr ≤ pb.origAddr + pb.origCount ∧
    (pb.flagged = false → pb.addr = pb.origAddr + pb.origCount)
  transferred : ∀ x, lb.baddr ≤ x → x < lb.baddr + (lb.bcount - s.lb.resid) →
    ∃ pb ∈ past, pb.origAddr ≤ x ∧ x < pb.addr

theorem Settled.modified (h : Settled lb s past) (hi : s.ring[i]? = some pb) (hr : Returns pb r)
    (hc : Telling s i r) : ∀ q ∈ s.ring.modify i (·.end_ r), q.notdone = false →
      (q.flagged = true ↔ hasError q) ∧ q.origAddr ≤ q.addr ∧
        q.addr ≤ q.origAddr + q.origCount ∧
        (q.flagged = false → q.addr = q.origAddr + q.origCount) := by
  intro q hq hdone
  rcases mem_modify hq with ⟨p, hp, rfl⟩ | hq
  · rw [hi] at hp
    cases hp
    refine ⟨hc, Nat.le_add_right _ _, Nat.add_le_add_left hr.bytes _, fun hf => ?_⟩
    exact congrArg (pb.origAddr + ·) (hr.whole hf)
  · exact h.ring q hq hdone

/-- The pieces that are back have transferred what they count for. -/
theorem Settled.covered (h : Settled lb s past) {d : Nat} {l : List Pbuf}
    (htiles : Tiles Pbuf.origAddr Pbuf.origCount (lb.baddr + (lb.bcount - s.lb.resid))
      (lb.baddr + d) l)
    (hl : ∀ pb ∈ l, pb.addr = pb.origAddr + pb.origCount) {x : Nat} (h1 : lb.baddr ≤ x)
    (h2 : x < lb.baddr + d) : ∃ pb ∈ past ++ l, pb.origAddr ≤ x ∧ x < pb.addr := by
  by_cases hx : x < lb.baddr + (lb.bcount - s.lb.resid)
  · obtain ⟨pb, hpb, hcov⟩ := h.transferred x h1 hx
    exact ⟨pb, List.mem_append_left l hpb, hcov⟩
  · obtain ⟨pb, hpb, hcov⟩ := htiles.covers (not_lt.mp hx) h2
    rw [← hl pb hpb] at hcov
    exact ⟨pb, List.mem_append_right past hpb, hcov⟩

theorem Run.settled (h : Run g Telling lb s past) (hfit : Fits g lb) (hreq : Request lb)
    (hp : s.phase ≠ .terminated) : Settled lb s past := by
  induction h with
  | start =>
    refine ⟨nofun, nofun, fun x h1 h2 => ?_⟩
    change x < lb.baddr + (lb.bcount - lb.bcount) at h2
    omega
  | @round s past hrun hpend parts serial free ih =>
    have hs := ih (by rw [hpend]; exact nofun)
    have hk := hrun.kept hfit hreq
    obtain ⟨hres, hring⟩ := hk.pending hpend
    rcases hdStripe_cases (hk.fits hfit) (hk.request hreq) hres parts serial free with
      he | he | ⟨l, n, he, hl, hpbs⟩
    · rw [he]
      exact hs
    · rw [he] at hp
      exact absurd rfl hp
    · rw [he]
      refine ⟨hs.passed, fun pb hpb hdone => ?_, hs.transferred⟩
      rw [(hpbs pb hpb).2.notdone] at hdone
      cases hdone
  | @done s past i r pb hrun hiss hi hn hr hc ih =>
    have hs := ih (by rw [hiss]; exact nofun)
    have hk := hrun.kept hfit hreq
    obtain ⟨hres, ⟨n, hl⟩, -⟩ := hk.issued hiss
    obtain ⟨-, hpbs⟩ := hk.modified hiss hi hr
    have hmod := hs.modified hi hr hc
    obtain ⟨resid, flagged, error, hlb⟩ := hk.same
    have hlen : i < s.ring.length := (List.getElem?_eq_some_iff.mp hi).1
    rcases hdStripeDone_cases (r := r) hl.ring hlen with
      ⟨he, -⟩ | ⟨hall, hrel, hring, ⟨_, _, _, -, -, -, hph, -⟩ |
        ⟨hno, ⟨hpart, hph, he⟩ | ⟨-, hph, -⟩⟩⟩
    · rw [he]
      refine ⟨?_, hmod, ?_⟩
      · rw [List.append_nil]
        exact hs.passed
      · rw [List.append_nil]
        exact hs.transferred
    · exact absurd hph hp
    · have hok : ∀ q ∈ s.ring.modify i (·.end_ r), q.flagged = false := by
        intro q hq
        rw [Bool.eq_false_iff]
        exact fun hf => hno q hq ((hmod q hq (hall q hq)).1.mp hf)
      have hl' := hl.modify (i := i) (r := r)
      obtain ⟨-, -, hle, -⟩ := hl'.next hres (hk.request hreq).bcount
        (fun q hq => (hpbs q hq).2) hpart rfl
      refine ⟨fun q hq => ?_, ?_, fun x h1 h2 => ?_⟩
      · rw [hrel] at hq
        rcases List.mem_append.mp hq with hq | hq
        · exact hs.passed q hq
        · exact hok q hq
      · rw [hring]
        exact nofun
      · rw [hrel]
        have htiles := hl'.tiles
        have hresid : s.lb.resid = resid := by rw [hlb]
        rw [he, hlb] at h2
        rw [hlb] at htiles hle
        refine hs.covered (by rw [hresid]; exact htiles)
          (fun q hq => (hmod q hq (hall q hq)).2.2.2 (hok q hq)) h1 ?_
        dsimp only at h2 hle
        omega
    · exact absurd hph hp


end Aix413.Lvm.Striping
