import Aix413.PageIo.Compaction

namespace Aix413.PageIo

open Lib.BlockMove Lib.LinkedPool

variable {β : Type} {c : Conf} {s : State β} {l l₁ l₂ pend rest : List Nat}
  {x f g nfr head fuel : Nat} {discard : Nat → Bool}

/-! ## Fragments on the disk -/

/-- The mask of `v_gather` leaves the number of the track group. -/
theorem ltgno_eq (hdiv : c.fperpage ∣ psize) (hf : (c.pft f).fraddr < 2 ^ 32)
    (hg : (c.pft g).fraddr < 2 ^ 32) (h : c.ltgno g = c.ltgno f) :
    (c.pft g).fraddr / (pgptrk * c.fperpage) = (c.pft f).fraddr / (pgptrk * c.fperpage) := by
  obtain ⟨e, -, he⟩ := (Nat.dvd_prime_pow Nat.prime_two (m := 12)).mp hdiv
  have hpow : pgptrk * c.fperpage = 2 ^ (5 + e) := by
    rw [he, pow_add]
    rfl
  unfold Conf.ltgno Conf.ltgmsk at h
  rw [hpow] at h ⊢
  refine Nat.eq_of_testBit_eq fun i => ?_
  rw [Nat.testBit_div_two_pow, Nat.testBit_div_two_pow]
  by_cases hi : 5 + e + i < 32
  · have hbit := congrArg (fun b : BitVec 32 => b.getLsbD (5 + e + i)) h
    have hhigh : (2 ^ (5 + e) - 1).testBit (5 + e + i) = false := by
      rw [Nat.testBit_two_pow_sub_one]
      simp
    simp only [BitVec.getLsbD_and, BitVec.getLsbD_not, BitVec.getLsbD_ofNat, hi, hhigh,
      decide_true, Bool.true_and, Bool.and_false, Bool.not_false, Bool.and_true] at hbit
    rw [Nat.add_comm i]
    exact hbit
  · have hlt : ∀ {n : Nat}, n < 2 ^ 32 → n.testBit (i + (5 + e)) = false := fun hn =>
      Nat.testBit_lt_two_pow (hn.trans_le (Nat.pow_le_pow_right (by norm_num) (by omega)))
    rw [hlt hf, hlt hg]

/-- How far behind those of the first frame the fragments of a frame are. -/
def Conf.offset (c : Conf) (head x : Nat) : Nat :=
  ((c.pft x).fraddr - (c.pft head).fraddr) * c.fragsize

/-- What grows from frame to frame has grown by the sum. -/
theorem split_sum {q w : Nat → Nat} (h : (head :: l).IsChain (Next c))
    (hl : head :: l = l₁ ++ x :: l₂) (hstep : ∀ y ∈ l₁, ∀ z, Next c y z → q z = q y + w y) :
    q x = q head + (l₁.map w).sum := by
  induction l₁ generalizing head l with
  | nil =>
    rw [(List.cons.inj hl).1]
    rfl
  | cons y l₁ ih =>
    obtain ⟨rfl, rfl⟩ := List.cons.inj hl
    obtain ⟨z, l', hz⟩ : ∃ z l', z :: l' = l₁ ++ x :: l₂ := by
      cases l₁ with
      | nil => exact ⟨x, l₂, rfl⟩
      | cons z l₁ => exact ⟨z, l₁ ++ x :: l₂, rfl⟩
    change List.IsChain (Next c) (head :: (l₁ ++ x :: l₂)) at h
    rw [← hz] at h
    obtain ⟨hn, hc⟩ := List.isChain_cons_cons.mp h
    rw [ih hc hz fun u hu => hstep u (List.mem_cons_of_mem head hu),
      hstep head List.mem_cons_self z hn, List.map_cons, List.sum_cons, Nat.add_assoc]

/-- The fragments before those of a frame fill the bytes before its own. -/
theorem offset_split (h : (head :: l).IsChain (Next c)) (hl : head :: l = l₁ ++ x :: l₂) :
    c.offset head x = (l₁.map c.nbytes).sum := by
  have hf : (c.pft x).fraddr = (c.pft head).fraddr + (l₁.map c.frags).sum :=
    split_sum (q := fun k => (c.pft k).fraddr) h hl fun _ _ _ hn => hn.2
  unfold Conf.offset
  rw [hf, Nat.add_sub_cancel_left, ← List.sum_map_mul_right]
  rfl

/-- Behind full pages a page is where its packed fragments are. -/
theorem page_split (hdiv : c.fperpage ∣ psize) (h : (head :: l).IsChain (Next c))
    (hl : head :: l = l₁ ++ x :: l₂) (hfull : ∀ y ∈ l₁, c.fperpage ≤ c.frags y) :
    c.page x = c.page head + (l₁.map c.nbytes).sum :=
  split_sum h hl fun y hy _ hn => by rw [page_next hn, nbytes_full hdiv (hfull y hy)]

/-! ## The gathered frames -/

/-- The frames `head :: l`, in the order of their pages, go to or come from the disk at once. -/
structure Coalesced (c : Conf) (nfr head : Nat) (l : List Nat) (bp : Buf) (s : State β) : Prop where
  next : (head :: l).IsChain (Next c)
  alike : ∀ k ∈ head :: l, Alike c nfr k
  /-- A compressed segment needs the last page first. -/
  linked : Chain s.nextio head (head :: if c.compress then l.reverse else l)
  bBcount : bp.bBcount = ((head :: l).map c.nbytes).sum

theorem pack_one (discard : Nat → Bool) (head : Nat) (m : Nat → β) :
    pack ([head].map (c.block discard)) (c.page head) m = m :=
  move_self m (c.page head) (c.nbytes head)

/-- The gather list after the loop over the list of the device. -/
theorem Gathered.coalesced (discard : Nat → Bool) {g : Gathering β} (hdiv : c.fperpage ∣ psize)
    (h : Gathered c nfr g l) (hp : Pending g.toState rest) (hdisj : ∀ k ∈ l, k ∉ rest)
    (hf : l.length ≤ fuel) :
    ∃ l' bp s', l = g.head :: l' ∧
      (if c.compress ∧ 1 < g.nio then
        (compact c fuel g.head g.toState).map fun (compacted, s) =>
          (g.head, (⟨g.bBcount, (c.pft g.head).fraddr * (c.fragsize / 512), compacted⟩ : Buf), s)
      else some (g.head, ⟨g.bBcount, (c.pft g.head).fraddr * (c.fragsize / 512), false⟩,
        g.toState)) = some (g.head, bp, s') ∧
      Coalesced c nfr g.head l' bp s' ∧ Pending s' rest ∧
      bp.bBlkno = (c.pft g.head).fraddr * (c.fragsize / 512) ∧
      s'.mem = (if c.compress ∧ (c.pft nfr).pagein = false then
        pack ((g.head :: l').map (c.block discard)) (c.page g.head) g.mem else g.mem) ∧
      (bp.compacted = true ↔
        c.compress = true ∧ ∃ x ∈ (g.head :: l').dropLast, c.frags x < c.fperpage) := by
  obtain ⟨l', rfl⟩ : ∃ l', l = g.head :: l' := by
    have hhead := h.chain.head_eq
    cases l with
    | nil => exact absurd h.head List.not_mem_nil
    | cons y l' => exact ⟨l', congrArg (· :: l') hhead.symm⟩
  have hio : ∀ k ∈ g.head :: l', (c.pft k).pagein = (c.pft nfr).pagein := fun k hk =>
    (h.alike k hk).1
  have hhio := hio g.head List.mem_cons_self
  by_cases hc : c.compress ∧ 1 < g.nio
  · obtain ⟨b, s', hrun, hchain, hsame, htail, hmem, hb⟩ :=
      compact_spec discard (s := g.toState) hdiv h.chain h.next
        (fun x hx => (hio x (List.mem_cons_of_mem _ hx)).trans hhio.symm)
        (show l'.length ≤ fuel by simp only [List.length_cons] at hf; omega)
    refine ⟨l', _, s', rfl, by rw [if_pos hc, hrun]; rfl, ⟨h.next, h.alike, ?_, h.bBcount⟩,
      hp.congr (fun k hk => hsame k fun hm => hdisj k hm hk) htail, rfl, ?_, ?_⟩
    · rw [if_pos hc.1]
      exact hchain
    · rw [hmem, hhio]
      cases (c.pft nfr).pagein <;> simp [hc.1]
    · rw [hb]
      exact (and_iff_right hc.1).symm
  · have hone : c.compress = true → l' = [] := fun hcomp => by
      have hn := h.nio
      have hle := not_and.mp hc hcomp
      rw [List.length_cons] at hn
      exact List.eq_nil_of_length_eq_zero (by omega)
    refine ⟨l', _, g.toState, rfl, if_neg hc, ⟨h.next, h.alike, ?_, h.bBcount⟩, hp, rfl, ?_, ?_⟩
    · split_ifs with hcomp
      · obtain rfl := hone hcomp
        exact h.chain
      · exact h.chain
    · split_ifs with hcomp
      · obtain rfl := hone hcomp.1
        exact (pack_one discard g.head g.mem).symm
      · rfl
    · refine ⟨fun hf => absurd hf (by simp), fun ⟨hcomp, x, hx, _⟩ => ?_⟩
      obtain rfl := hone hcomp
      exact absurd hx List.not_mem_nil

/-- What `v_gather` does for a frame that has been taken off the list. -/
theorem vGather_spec (discard : Nat → Bool) (hdiv : c.fperpage ∣ psize) (hp : Pending s pend)
    (hn0 : nfr ≠ 0) (hn : nfr ∉ pend) (hz : s.nextio nfr = 0) (hne : ∀ k ∈ pend, k ≠ 0)
    (hf : pend.length < fuel) :
    ∃ head l bp s' taken rest, vGather c fuel nfr s = some (head, bp, s') ∧
      pend = taken ++ rest ∧ (head :: l).Perm (nfr :: taken) ∧ Coalesced c nfr head l bp s' ∧
      Pending s' rest ∧ bp.bBlkno = (c.pft head).fraddr * (c.fragsize / 512) ∧
      s'.mem = (if c.compress ∧ (c.pft nfr).pagein = false then
        pack ((head :: l).map (c.block discard)) (c.page head) s.mem else s.mem) ∧
      (bp.compacted = true ↔
        c.compress = true ∧ ∃ x ∈ (head :: l).dropLast, c.frags x < c.fperpage) := by
  have h₀ : Gathered c nfr
      { s with head := nfr, tail := nfr, nio := 1, bBcount := c.nbytes nfr } [nfr] :=
    ⟨⟨rfl, hn0, hz⟩, List.mem_cons_self, rfl, List.isChain_singleton _,
      fun k hk => List.mem_singleton.mp hk ▸ ⟨rfl, rfl, rfl⟩, by simp, rfl⟩
  have hdisj : ∀ k ∈ [nfr], k ∉ pend := fun k hk => List.mem_singleton.mp hk ▸ hn
  obtain ⟨g, l', taken, rest, hrun, hpend, hperm, hg, hp', hmem⟩ :=
    gatherLoop_spec h₀ hp hdisj hne hf
  have hlen : l'.length ≤ fuel := by
    have hl := hperm.length_eq
    rw [hpend] at hf
    simp only [List.length_append, List.length_singleton] at hl hf
    omega
  have hsep : ∀ k ∈ l', k ∉ rest := by
    have hnd : (nfr :: (taken ++ rest)).Nodup :=
      List.nodup_cons.mpr ⟨hpend ▸ hn, hpend ▸ hp.ring.nodup⟩
    exact fun k hk => List.disjoint_of_nodup_append hnd (hperm.mem_iff.mp hk)
  obtain ⟨l, bp, s', rfl, hfin, hco, hrest, hblk, hdata, hcomp⟩ :=
    hg.coalesced discard hdiv hp' hsep hlen
  refine ⟨g.head, l, bp, s', taken, rest, ?_, hpend, hperm, hco, hrest, hblk, ?_, hcomp⟩
  · unfold vGather
    rw [hrun]
    exact hfin
  · rw [hdata, hmem]

/-! ## Data of the pages -/

/-- The fragments of a page. -/
def Conf.data (c : Conf) (m : Nat → β) (x : Nat) : List β := window m (c.page x) (c.nbytes x)

/-- The cell belongs to none of the pages. -/
def Outside (c : Conf) (l : List Nat) (a : Nat) : Prop :=
  ∀ k ∈ l, a < c.page k ∨ c.page k + psize ≤ a

theorem Outside.above (h : (head :: l).IsChain (Next c)) {a : Nat} (ho : Outside c (head :: l) a)
    (ha : c.page head ≤ a) : ∀ k ∈ head :: l, c.page k + psize ≤ a := by
  have hhead : c.page head + psize ≤ a :=
    (ho head List.mem_cons_self).resolve_left (Nat.not_lt.mpr ha)
  induction l generalizing head with
  | nil => exact fun k hk => List.mem_singleton.mp hk ▸ hhead
  | cons x l ih =>
    obtain ⟨hn, hc⟩ := List.isChain_cons_cons.mp h
    have hx : c.page x ≤ a := page_next hn ▸ hhead
    have hox : Outside c (x :: l) a := fun k hk => ho k (List.mem_cons_of_mem head hk)
    intro k hk
    rcases List.mem_cons.mp hk with rfl | hk
    · exact hhead
    · exact ih hc hox hx ((hox x List.mem_cons_self).resolve_left (Nat.not_lt.mpr hx)) k hk

theorem pack_outside (discard : Nat → Bool) (h : (head :: l).IsChain (Next c)) {a : Nat}
    (ho : Outside c (head :: l) a) (m : Nat → β) :
    pack ((head :: l).map (c.block discard)) (c.page head) m a = m a := by
  by_cases ha : a < c.page head
  · exact pack_below m ha
  · have habove := ho.above h (Nat.not_lt.mp ha)
    refine pack_above m (spread_blocks discard h) (fun b hb => ?_) (Nat.not_lt.mp ha)
    obtain ⟨k, hk, rfl⟩ := List.mem_map.mp hb
    exact (Nat.add_le_add_left (nbytes_le c k) _).trans (habove k hk)

/-- Gathered pages are packed into the first `b_bcount` bytes. -/
theorem window_gathered (discard : Nat → Bool) (h : (head :: l).IsChain (Next c)) (m : Nat → β) :
    window (pack ((head :: l).map (c.block discard)) (c.page head) m) (c.page head)
      ((head :: l).map c.nbytes).sum = (head :: l).flatMap (c.data m) := by
  rw [← total_blocks c discard, window_pack m (spread_blocks discard h), List.flatMap_map]
  rfl

/-- The fragments of a page, where they have been packed. -/
theorem data_gathered (discard : Nat → Bool) (h : (head :: l).IsChain (Next c))
    (hx : x ∈ head :: l) (m : Nat → β) :
    window (pack ((head :: l).map (c.block discard)) (c.page head) m)
      (c.page head + c.offset head x) (c.nbytes x) = c.data m x := by
  obtain ⟨l₁, l₂, hl⟩ := List.append_of_mem hx
  have hsp := spread_blocks discard h
  rw [offset_split h hl, ← total_blocks c discard]
  rw [hl, List.map_append] at hsp ⊢
  exact window_pack_one m hsp

theorem offset_add_le (h : (head :: l).IsChain (Next c)) (hx : x ∈ head :: l) :
    c.offset head x + c.nbytes x ≤ ((head :: l).map c.nbytes).sum := by
  obtain ⟨l₁, l₂, hl⟩ := List.append_of_mem hx
  rw [offset_split h hl, hl, List.map_append, List.sum_append, List.map_cons, List.sum_cons]
  omega

/-! ## The end of the I/O -/

/-- `v_uncompact` puts every page that is not discarded where it belongs. -/
theorem vUncompact_spec {count : Nat} {error : Bool} (hnext : (head :: l).IsChain (Next c))
    (hl : Chain s.nextio head (head :: l.reverse))
    (hcount : count = ((head :: l).map c.nbytes).sum) (hf : l.length ≤ fuel)
    (herr : ¬((c.pft head).pagein = true ∧ error = true)) :
    vUncompact c discard fuel head count error s =
      some { s with mem := unpack ((head :: l).map (c.block discard)) (c.page head) s.mem } := by
  have hrun := uncompactLoop_spec s.mem hl.2.2
    (spread_behind discard hnext) hf
  have hself : unpack ((head :: l).map (c.block discard)) (c.page head) s.mem =
      unpack (l.map (c.block discard)) (c.page head + c.nbytes head) s.mem := by
    rw [List.map_cons, unpack]
    change (if _ then Lib.BlockMove.move _ _ (c.page head) (c.nbytes head) else _) = _
    rw [move_self]
    exact ite_self _
  unfold vUncompact
  rw [if_neg herr, hcount, List.map_cons, List.sum_cons, ← Nat.add_assoc, hrun, hself]
  rfl

theorem data_scattered (h : (head :: l).IsChain (Next c)) (hx : x ∈ head :: l)
    (hd : discard x = false) (m : Nat → β) :
    c.data (unpack ((head :: l).map (c.block discard)) (c.page head) m) x =
      window m (c.page head + c.offset head x) (c.nbytes x) := by
  obtain ⟨l₁, l₂, hl⟩ := List.append_of_mem hx
  have hsp := spread_blocks discard h
  rw [offset_split h hl, ← total_blocks c discard]
  rw [hl, List.map_append] at hsp ⊢
  exact window_unpack m hsp (by simp [Conf.block, hd])

/-- `v_pfend`: every page that is not discarded has the bytes that were packed for it. -/
theorem vPfend_spec (discard : Nat → Bool) {bp : Buf} (error : Bool) (hdiv : c.fperpage ∣ psize)
    (hco : Coalesced c nfr head l bp s) (hcompress : c.compress = true)
    (hcomp : bp.compacted = true ↔
      c.compress = true ∧ ∃ x ∈ (head :: l).dropLast, c.frags x < c.fperpage)
    (hf : l.length ≤ fuel) :
    ∃ s', vPfend c discard fuel head bp error s = some s' ∧
      s'.nextio = s.nextio ∧ s'.iotail = s.iotail ∧
      (∀ a, Outside c (head :: l) a → s'.mem a = s.mem a) ∧
      (¬((c.pft head).pagein = true ∧ error = true) → ∀ k ∈ head :: l, discard k = false →
        c.data s'.mem k = window s.mem (c.page head + c.offset head k) (c.nbytes k)) := by
  have hl := hco.linked
  rw [if_pos hcompress] at hl
  unfold vPfend
  by_cases hb : bp.compacted = true
  · rw [if_pos hb]
    by_cases herr : (c.pft head).pagein = true ∧ error = true
    · exact ⟨s, if_pos herr, rfl, rfl, fun _ _ => rfl, fun hn => absurd herr hn⟩
    · refine ⟨_, vUncompact_spec hco.next hl hco.bBcount hf herr, rfl, rfl, fun a ha => ?_,
        fun _ k hk hd => data_scattered hco.next hk hd s.mem⟩
      refine unpack_out s.mem fun b hb => ?_
      obtain ⟨k, hk, rfl⟩ := List.mem_map.mp hb
      refine (ha k hk).imp_right fun hle => ?_
      exact (Nat.add_le_add_left (nbytes_le c k) _).trans hle
  · -- all pages but the last are full, and nothing had to be moved
    refine ⟨s, if_neg hb, rfl, rfl, fun _ _ => rfl, fun _ k hk _ => ?_⟩
    obtain ⟨l₁, l₂, hl⟩ := List.append_of_mem hk
    have hfull : ∀ y ∈ l₁, c.fperpage ≤ c.frags y := by
      intro y hy
      by_contra hlt
      refine hb (hcomp.mpr ⟨hcompress, y, ?_, Nat.not_le.mp hlt⟩)
      rw [hl, List.dropLast_append_of_ne_nil (List.cons_ne_nil k l₂)]
      exact List.mem_append_left _ hy
    unfold Conf.data
    rw [offset_split hco.next hl, page_split hdiv hco.next hl hfull]

/-! ## No data is lost -/

/-- The logical track group of a fragment. -/
def Conf.group (c : Conf) (a : Nat) : Nat := a / (pgptrk * c.fperpage)

/-- The fragments of a frame are on track group `t`. -/
def Conf.On (c : Conf) (t k : Nat) : Prop :=
  ∀ a, (c.pft k).fraddr ≤ a → a < (c.pft k).fraddr + c.frags k → c.group a = t

/-- Frame `nfr` is taken off the list of the device and gathered with those behind it; at the end
of the I/O every page has its bytes. -/
theorem coalesced_io (hdiv : c.fperpage ∣ psize) (hp : Pending s (nfr :: pend))
    (hpf : ∀ k ∈ nfr :: pend, k ≠ 0 ∧ (c.pft k).fraddr < 2 ^ 32) (hf : pend.length < fuel) :
    ∃ s₁ head l bp s₂ taken rest,
      takeFirst s = some (nfr, s₁) ∧ vGather c fuel nfr s₁ = some (head, bp, s₂) ∧
      pend = taken ++ rest ∧ Pending s₂ rest ∧ (head :: l).Perm (nfr :: taken) ∧
      Coalesced c nfr head l bp s₂ ∧ bp.bBlkno = (c.pft head).fraddr * (c.fragsize / 512) ∧
      (∀ k ∈ head :: l, c.group (c.pft k).fraddr = c.group (c.pft nfr).fraddr) ∧
      ((∀ k ∈ nfr :: pend, c.On (c.group (c.pft k).fraddr) k) →
        ∀ k ∈ head :: l, c.On (c.group (c.pft nfr).fraddr) k) ∧
      (∀ a, Outside c (head :: l) a → s₂.mem a = s.mem a) ∧
      (c.compress = true → (c.pft nfr).pagein = false →
        window s₂.mem (c.page head) bp.bBcount = (head :: l).flatMap (c.data s.mem)) ∧
      (c.compress = false ∨ (c.pft nfr).pagein = true → s₂.mem = s.mem) ∧
      ∀ (discard : Nat → Bool) (error : Bool) (s₃ : State β), c.compress = true →
        (∀ k ∈ head :: l, s₃.nextio k = s₂.nextio k) →
        ∃ s₄, vPfend c discard fuel head bp error s₃ = some s₄ ∧
          s₄.nextio = s₃.nextio ∧ s₄.iotail = s₃.iotail ∧
          (∀ a, Outside c (head :: l) a → s₄.mem a = s₃.mem a) ∧
          ((c.pft nfr).pagein = true → error = false → ∀ k ∈ head :: l, discard k = false →
            c.data s₄.mem k =
              window s₃.mem (c.page head + c.offset head k) (c.nbytes k)) ∧
          ((c.pft nfr).pagein = false →
            window s₃.mem (c.page head) bp.bBcount = window s₂.mem (c.page head) bp.bBcount →
            ∀ k ∈ head :: l, discard k = false → c.data s₄.mem k = c.data s.mem k) := by
  obtain ⟨s₁, htake, hp₁, hz, hmem₁⟩ := takeFirst_spec hp
  have hnd := List.nodup_cons.mp hp.ring.nodup
  obtain ⟨head, l, bp, s₂, taken, rest, hrun, hpend, hperm, hco, hrest, hblk, hdata, hcomp⟩ :=
    vGather_spec (fun _ => false) hdiv hp₁ (hpf nfr List.mem_cons_self).1 hnd.1 hz
      (fun k hk => (hpf k (List.mem_cons_of_mem nfr hk)).1) hf
  rw [hmem₁] at hdata
  have hmem : ∀ k ∈ head :: l, k ∈ nfr :: pend := fun k hk => by
    rw [hpend, ← List.cons_append]
    exact List.mem_append_left rest (hperm.mem_iff.mp hk)
  have hgroup : ∀ k ∈ head :: l, c.group (c.pft k).fraddr = c.group (c.pft nfr).fraddr :=
    fun k hk => ltgno_eq hdiv (hpf nfr List.mem_cons_self).2 (hpf k (hmem k hk)).2
      (hco.alike k hk).2.2
  have hio : (c.pft head).pagein = (c.pft nfr).pagein := (hco.alike head List.mem_cons_self).1
  have hlen : l.length ≤ fuel := by
    have hl := hperm.length_eq
    rw [hpend] at hf
    simp only [List.length_cons, List.length_append] at hl hf
    omega
  refine ⟨s₁, head, l, bp, s₂, taken, rest, htake, hrun, hpend, hrest, hperm, hco, hblk, hgroup,
    fun hon k hk a h₁ h₂ => (hon k (hmem k hk) a h₁ h₂).trans (hgroup k hk), fun a ha => ?_,
    fun hc hout => ?_, fun h => ?_, fun discard error s₃ hc hsame => ?_⟩
  · rw [hdata]
    split_ifs
    · exact pack_outside _ hco.next ha s.mem
    · rfl
  · rw [hdata, if_pos ⟨hc, hout⟩, hco.bBcount]
    exact window_gathered _ hco.next s.mem
  · rw [hdata, if_neg]
    rintro ⟨hc, hout⟩
    rcases h with h | h
    · exact absurd (hc.symm.trans h) (by decide)
    · exact absurd (hout.symm.trans h) (by decide)
  · have hco₃ : Coalesced c nfr head l bp s₃ := by
      refine ⟨hco.next, hco.alike, hco.linked.congr fun k hk => hsame k ?_, hco.bBcount⟩
      rw [if_pos hc] at hk
      simpa using hk
    obtain ⟨s₄, hend, hnx, htl, hout, hback⟩ := vPfend_spec discard error hdiv hco₃ hc
      hcomp hlen
    refine ⟨s₄, hend, hnx, htl, hout, fun _ he k hk hd => ?_, fun hpo hsent k hk hd => ?_⟩
    · exact hback (fun h => absurd (he.symm.trans h.2) (by decide)) k hk hd
    · -- what was packed is still there when the I/O has ended
      rw [hback (fun h => absurd (hpo.symm.trans (hio.symm.trans h.1)) (by decide)) k hk hd]
      rw [hdata, if_pos ⟨hc, hpo⟩] at hsent
      rw [← data_gathered (fun _ => false) hco.next hk s.mem]
      exact window_sub hsent (hco.bBcount ▸ offset_add_le hco.next hk)

/-- Three pages of a compressed segment are paged out; the first is not full. -/
def threePages : Conf where
  pft nfr := ⟨false, 1, nfr - 1, [8, 8, 13, 21].getD nfr 0, [0, 3, 0, 6].getD nfr 0⟩
  fperpage := 8
  compress := true
  maxcompact := 8

def threePending : State Nat where
  nextio nfr := [0, 2, 3, 1].getD nfr 0
  iotail := some 3
  mem a := a

theorem coalesced_io_three : ∃ s₁ l s₂,
    takeFirst threePending = some (1, s₁) ∧
      vGather threePages 3 1 s₁ = some (1, ⟨7680, 8, true⟩, s₂) ∧
      window s₂.mem (threePages.page 1) 7680 =
        (1 :: l).flatMap (threePages.data threePending.mem) := by
  have hp : Pending threePending (1 :: [2, 3]) := ⟨⟨by decide, rfl, rfl, rfl, trivial⟩, rfl⟩
  obtain ⟨s₁, head, l, bp, s₂, taken, rest, htake, hrun, -, -, -, -, -, -, -, -, hpacked, -⟩ :=
    coalesced_io (c := threePages) (by decide) hp (by decide) (by decide : [2, 3].length < 3)
  have heval : ((takeFirst threePending).bind fun p =>
      (vGather threePages 3 p.1 p.2).map fun r => (r.1, r.2.1)) = some (1, ⟨7680, 8, true⟩) := by
    decide
  rw [htake, Option.bind_some, hrun] at heval
  obtain ⟨rfl, rfl⟩ := Prod.ext_iff.mp (Option.some.inj heval)
  exact ⟨s₁, l, s₂, htake, hrun, hpacked rfl rfl⟩

end Aix413.PageIo
