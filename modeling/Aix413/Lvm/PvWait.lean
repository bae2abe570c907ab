import Aix413.Lvm.MirrorQueues

namespace Aix413.Lvm.PvWait

open Lib.LinkedPool Mwc

/-- The pv_wait structures of a volume group, by their addresses, with the wait queue of each
physical volume (`ca_pv`) and the list of free structures. `avForw` is the reference count of a
request. -/
structure Waits where
  nxtPvWait : Nat → Nat
  lbWait : Nat → Lb
  head : Pv → Nat
  tail : Pv → Nat
  caFreepvw : Nat
  caPvwblked : UInt16
  caPvWrt : Pv → Bool
  avForw : Lb → Nat

namespace Waits

variable (s : Waits)

/-- `GET_PVWAIT`, but for the address itself. -/
def get : Waits := { s with caFreepvw := s.nxtPvWait s.caFreepvw }

/-- `REL_PVWAIT` -/
def rel (c : Nat) : Waits :=
  { s with nxtPvWait := Function.update s.nxtPvWait c s.caFreepvw, caFreepvw := c }

/-- `pptr->nxt_pv_wait`, where `pptr` may be the head of the queue taken for a structure. -/
def nxtAt (p : Pv) : Option Nat → Nat
  | none => s.head p
  | some c => s.nxtPvWait c

def setNxt (p : Pv) (pptr : Option Nat) (v : Nat) : Waits :=
  match pptr with
  | none => { s with head := Function.update s.head p v }
  | some c => { s with nxtPvWait := Function.update s.nxtPvWait c v }

end Waits

/-- A structure goes behind the tail of the queue of `p`. -/
def enqueue (p : Pv) (pptr : Nat) (s : Waits) : Waits :=
  let s :=
    if s.head p = 0 then { s with head := Function.update s.head p pptr }
    else { s with nxtPvWait := Function.update s.nxtPvWait (s.tail p) pptr }
  { s with tail := Function.update s.tail p pptr }

/-- The request is hung on the queue of `p`. -/
def hang (lb : Lb) (p : Pv) (refCnt : Nat) (s : Waits) : Waits :=
  let pptr := s.caFreepvw
  let s := s.get
  enqueue p pptr { s with
    lbWait := Function.update s.lbWait pptr lb
    avForw := Function.update s.avForw lb refCnt
    nxtPvWait := Function.update s.nxtPvWait pptr 0 }

/-- The loop that looks for the tail of the queue of `p` and takes it off. A tail behind the head
itself leaves the queue empty, so that the address of the head is never stored. -/
def unhang (p : Pv) : Nat → Option Nat → Waits → Option Waits
  | 0, _, _ => none
  | fuel + 1, pptr, s =>
    let c := s.nxtAt p pptr
    if c = 0 then some s
    else if c = s.tail p then
      let s := (s.rel c).setNxt p pptr 0
      let s :=
        if s.head p = 0 then { s with tail := Function.update s.tail p 0 }
        else { s with tail := Function.update s.tail p (pptr.getD 0) }
      unhang p fuel pptr s
    else unhang p fuel (some c) s

/-- The queues done are unwound, the last one first. -/
def backOut (fuel : Nat) : List (Option Pv) → Waits → Option Waits
  | [], s => some s
  | none :: apvol, s => backOut fuel apvol s
  | some p :: apvol, s => (unhang p fuel none s).bind (backOut fuel apvol)

/-- The loop of `hd_ca_pvque` over the copies, with `apvol` the last one first. -/
def pvqueLoop (fuel : Nat) (missing : Pv → Bool) (lb : Lb) :
    List (Option Pv) → List (Option Pv) → Nat → Waits → Option (Queued × List (Option Pv) × Waits)
  | [], apvol, refCnt, s => some (if refCnt = 0 then .failure else .success, apvol, s)
  | none :: parts, apvol, refCnt, s => pvqueLoop fuel missing lb parts (none :: apvol) refCnt s
  | some p :: parts, apvol, refCnt, s =>
    if missing p then pvqueLoop fuel missing lb parts (none :: apvol) refCnt s
    else if s.caFreepvw = 0 then
      (backOut fuel apvol { s with caPvwblked := s.caPvwblked + 1 }).map fun s =>
        (.lbhold, apvol, s)
    else
      pvqueLoop fuel missing lb parts (some p :: apvol) (refCnt + 1) (hang lb p (refCnt + 1) s)

/-- `hd_ca_pvque` for a request whose copies are on the volumes `parts`. -/
def hdCaPvque (fuel : Nat) (missing : Pv → Bool) (lb : Lb) (parts : List (Option Pv))
    (s : Waits) : Option (Queued × Waits) :=
  (pvqueLoop fuel missing lb parts [] 0
    { s with avForw := Function.update s.avForw lb 0 }).map fun (rc, apvol, s) =>
    match rc with
    | .success => (.success, { s with caPvWrt := fun p => s.caPvWrt p || decide (some p ∈ apvol) })
    | rc => (rc, s)

/-! ## Queues and pool as lists -/

/-- The list of free structures goes by `none`. -/
def anchor (s : Waits) : Option Pv → Nat
  | none => s.caFreepvw
  | some p => s.head p

/-- The structures on each queue, and the free ones. -/
structure Rep (s : Waits) (lists : Option Pv → List Nat) : Prop where
  linked : Linked s.nxtPvWait (anchor s) lists
  tail : ∀ p, s.tail p = (lists (some p)).getLast?.getD 0

variable {s s' : Waits} {lists lists' : Option Pv → List Nat} {lb : Lb} {p : Pv} {c n : Nat}
  {pool q : List Nat}

/-- A structure goes from the pool to the end of a queue. -/
def taken (lists : Option Pv → List Nat) (p : Pv) (c : Nat) (pool : List Nat) :
    Option Pv → List Nat :=
  Function.update (Function.update lists none pool) (some p) (lists (some p) ++ [c])

theorem hang_rep (h : Rep s lists) (hl : lists none = c :: pool) (lb : Lb) (p : Pv) (n : Nat) :
    Rep (hang lb p n s) (taken lists p c pool) := by
  have hc := h.linked.chain none
  rw [hl] at hc
  have hfree : s.caFreepvw = c := hc.1
  have hmem : c ∈ lists none := hl ▸ List.mem_cons_self
  have hnd : c ∉ pool := by
    have hno := hc.nodup
    exact (List.nodup_cons.mp hno).1
  have hpop := h.linked.pop hl
  have hout : ∀ b, c ∉ Function.update lists none pool b := by
    intro b hb
    by_cases hbn : b = none
    · subst hbn
      rw [Function.update_self] at hb
      exact hnd hb
    · rw [Function.update_of_ne hbn] at hb
      exact hbn (h.linked.disjoint hb hmem)
  have hcut : Linked (Function.update s.nxtPvWait c 0)
      (Function.update (anchor s) none (s.nxtPvWait c)) (Function.update lists none pool) :=
    hpop.congr fun b k hk => Function.update_of_ne (fun he : k = c => hout b (he ▸ hk)) _ _
  have happ := hcut.append hc.2.1 hout (Function.update_self _ _ _) (some p)
  have hq : Function.update lists none pool (some p) = lists (some p) :=
    Function.update_of_ne (by simp) _ _
  rw [hq] at happ
  have hhead : s.head p = 0 ↔ lists (some p) = [] := by
    have hcp := h.linked.chain (some p)
    constructor
    · intro h0
      cases hlp : lists (some p) with
      | nil => rfl
      | cons k l =>
        rw [hlp] at hcp
        exact absurd (hcp.1.symm.trans h0) hcp.2.1
    · intro h0
      rw [h0] at hcp
      exact hcp
  refine ⟨?_, fun r => ?_⟩
  · have hnext : (hang lb p n s).nxtPvWait =
        linkNext (Function.update s.nxtPvWait c 0) (lists (some p)).getLast? c := by
      unfold hang enqueue
      simp only [Waits.get, hfree]
      by_cases h0 : s.head p = 0
      · rw [if_pos h0, hhead.mp h0]
        rfl
      · rw [if_neg h0]
        have hne := mt hhead.mpr h0
        rw [h.tail, List.getLast?_eq_some_getLast hne]
        rfl
    have hanchor : anchor (hang lb p n s) =
        unlinkHead (Function.update (anchor s) none (s.nxtPvWait c)) (some p)
          (lists (some p)).getLast? c := by
      funext b
      unfold hang enqueue
      simp only [Waits.get, hfree]
      by_cases h0 : s.head p = 0
      · rw [if_pos h0, hhead.mp h0]
        cases b with
        | none => rfl
        | some r =>
          by_cases hr : r = p
          · subst hr
            simp [anchor, unlinkHead]
          · simp [anchor, unlinkHead, Function.update_of_ne, hr]
      · rw [if_neg h0]
        have hne := mt hhead.mpr h0
        rw [List.getLast?_eq_some_getLast hne]
        cases b with
        | none => rfl
        | some r => rfl
    rw [hnext, hanchor]
    exact happ
  · have htail : (hang lb p n s).tail = Function.update s.tail p c := by
      unfold hang enqueue
      simp only [Waits.get, hfree]
      split <;> rfl
    rw [htail]
    unfold taken
    by_cases hr : r = p
    · subst hr
      rw [Function.update_self, Function.update_self, List.getLast?_concat]
      rfl
    · have hrs : (some r : Option Pv) ≠ some p := fun he => hr (Option.some.inj he)
      rw [Function.update_of_ne hr, Function.update_of_ne hrs, Function.update_of_ne (by simp)]
      exact h.tail r


/-- A structure goes from the end of a queue back to the pool. -/
def returned (lists : Option Pv → List Nat) (p : Pv) (q : List Nat) (c : Nat) :
    Option Pv → List Nat :=
  Function.update (Function.update lists (some p) q) none (c :: lists none)

/-- The tail `c` of the queue of `p`, behind `pptr`, is released and unlinked. -/
def detach (p : Pv) (pptr : Option Nat) (c : Nat) (s : Waits) : Waits :=
  let s := (s.rel c).setNxt p pptr 0
  if s.head p = 0 then { s with tail := Function.update s.tail p 0 }
  else { s with tail := Function.update s.tail p (pptr.getD 0) }

theorem detach_rep (h : Rep s lists) (hl : lists (some p) = q ++ [c]) :
    Rep (detach p q.getLast? c s) (returned lists p q c) := by
  have hc := h.linked.chain (some p)
  rw [hl] at hc
  have hnd := hc.nodup
  have hc0 : c ≠ 0 := hc.ne_zero (by simp)
  have hnext : s.nxtPvWait c = 0 := hc.next_eq
  have hcq : c ∉ q := fun hm => (List.nodup_append.mp hnd).2.2 c hm c List.mem_cons_self rfl
  have hcut := h.linked.cut hl
  rw [List.append_nil, hnext] at hcut
  have hmem : c ∈ lists (some p) := by simp [hl]
  have hout : ∀ b, c ∉ Function.update lists (some p) q b := by
    intro b hb
    by_cases hbp : b = some p
    · subst hbp
      rw [Function.update_self] at hb
      exact hcq hb
    · rw [Function.update_of_ne hbp] at hb
      exact hbp (h.linked.disjoint hb hmem)
  have hpush := hcut.push hc0 hout none
  have hnone : Function.update lists (some p) q none = lists none :=
    Function.update_of_ne (by simp) _ _
  rw [hnone] at hpush
  have hanchor : unlinkHead (anchor s) (some p) q.getLast? 0 none = s.caFreepvw := by
    cases q.getLast? with
    | none => exact Function.update_of_ne (show (none : Option Pv) ≠ some p by simp) _ _
    | some b => rfl
  rw [hanchor] at hpush
  -- the queue is empty exactly when its head is cleared
  have hhead : ((s.rel c).setNxt p q.getLast? 0).head p = 0 ↔ q = [] := by
    cases hq : q.getLast? with
    | none =>
      rw [List.getLast?_eq_none_iff] at hq
      simp [Waits.setNxt, hq]
    | some b =>
      have hne : q ≠ [] := by
        rintro rfl
        simp at hq
      refine iff_of_false (fun h0 => ?_) hne
      change s.head p = 0 at h0
      obtain ⟨k, l, rfl⟩ := List.exists_cons_of_ne_nil hne
      exact hc.2.1 (hc.1.symm.trans h0)
  refine ⟨?_, fun r => ?_⟩
  · have hnxt : (detach p q.getLast? c s).nxtPvWait =
        Function.update (unlinkNext s.nxtPvWait q.getLast? c) c s.caFreepvw := by
      have hsame : (detach p q.getLast? c s).nxtPvWait =
          ((s.rel c).setNxt p q.getLast? 0).nxtPvWait := by
        unfold detach
        simp only
        split <;> rfl
      rw [hsame]
      cases hq : q.getLast? with
      | none => rfl
      | some b =>
        have hbc : b ≠ c := by
          rintro rfl
          exact hcq (List.mem_of_getLast? hq)
        simp only [Waits.setNxt, Waits.rel, unlinkNext, hnext]
        exact Function.update_comm hbc.symm _ _ _
    have hanc : anchor (detach p q.getLast? c s) =
        Function.update (unlinkHead (anchor s) (some p) q.getLast? 0) none c := by
      have hsame : anchor (detach p q.getLast? c s) =
          anchor ((s.rel c).setNxt p q.getLast? 0) := by
        unfold detach
        simp only
        split <;> rfl
      rw [hsame]
      funext b
      cases b with
      | none =>
        rw [Function.update_self]
        cases q.getLast? <;> rfl
      | some r =>
        rw [Function.update_of_ne (by simp)]
        cases q.getLast? with
        | none =>
          by_cases hr : r = p
          · subst hr
            simp [anchor, Waits.setNxt, unlinkHead]
          · simp [anchor, Waits.setNxt, unlinkHead, Waits.rel, hr]
        | some b => rfl
    rw [hnxt, hanc]
    exact hpush
  · have htail : (detach p q.getLast? c s).tail =
        Function.update s.tail p (q.getLast?.getD 0) := by
      have hst : ((s.rel c).setNxt p q.getLast? 0).tail = s.tail := by
        cases q.getLast? <;> rfl
      unfold detach
      simp only
      by_cases hq : q = []
      · rw [if_pos (hhead.mpr hq), hst, hq]
        rfl
      · rw [if_neg (mt hhead.mp hq), hst]
    rw [htail]
    unfold returned
    rw [Function.update_of_ne (show (some r : Option Pv) ≠ none by simp)]
    by_cases hr : r = p
    · subst hr
      rw [Function.update_self, Function.update_self]
    · rw [Function.update_of_ne hr, Function.update_of_ne (fun he => hr (Option.some.inj he))]
      exact h.tail r

theorem detach_nxtAt (p : Pv) (pptr : Option Nat) (c : Nat) (s : Waits) :
    (detach p pptr c s).nxtAt p pptr = 0 := by
  have h : ((s.rel c).setNxt p pptr 0).nxtAt p pptr = 0 := by
    cases pptr with
    | none => exact Function.update_self _ _ _
    | some b => exact Function.update_self _ _ _
  unfold detach
  simp only
  by_cases h0 : ((s.rel c).setNxt p pptr 0).head p = 0
  · rw [if_pos h0]
    cases pptr <;> exact h
  · rw [if_neg h0]
    cases pptr <;> exact h

theorem unhang_eq {fuel : Nat} (pre : List Nat) {post : List Nat} (h : Rep s lists)
    (hl : lists (some p) = pre ++ post ++ [c]) (hf : post.length + 1 < fuel) :
    unhang p fuel pre.getLast? s = some (detach p (pre ++ post).getLast? c s) := by
  have hc := h.linked.chain (some p)
  rw [hl] at hc
  have hnd := hc.nodup
  have htail : s.tail p = c := by
    rw [h.tail, hl, List.getLast?_concat]
    rfl
  induction post generalizing pre fuel with
  | nil =>
    obtain ⟨fuel, rfl⟩ : ∃ m, fuel = m + 2 := ⟨fuel - 2, by simp at hf; omega⟩
    rw [List.append_nil] at hc hl
    have hat : s.nxtAt p pre.getLast? = c := by
      cases pre.eq_nil_or_concat with
      | inl hnil =>
        subst hnil
        exact hc.1
      | inr hcat =>
        obtain ⟨l, b, rfl⟩ := hcat
        simp only [List.concat_eq_append, List.append_assoc, List.singleton_append] at hc ⊢
        rw [List.getLast?_concat]
        exact hc.next_eq
    have hc0 : c ≠ 0 := hc.ne_zero (by simp)
    rw [unhang, hat, if_neg hc0, if_pos htail.symm, List.append_nil]
    change unhang p (fuel + 1) pre.getLast? (detach p pre.getLast? c s) = _
    rw [unhang, detach_nxtAt, if_pos rfl]
  | cons k post ih =>
    obtain ⟨fuel, rfl⟩ : ∃ m, fuel = m + 1 := ⟨fuel - 1, by simp at hf; omega⟩
    have hat : s.nxtAt p pre.getLast? = k := by
      cases pre.eq_nil_or_concat with
      | inl hnil =>
        subst hnil
        exact hc.1
      | inr hcat =>
        obtain ⟨l, b, rfl⟩ := hcat
        simp only [List.concat_eq_append, List.append_assoc, List.cons_append] at hc ⊢
        rw [List.getLast?_concat]
        exact hc.next_eq
    have hk0 : k ≠ 0 := hc.ne_zero (by simp)
    have hkc : k ≠ c := by
      rintro rfl
      exact (List.nodup_append.mp hnd).2.2 k (by simp) k (by simp) rfl
    have happ : pre ++ k :: post = pre ++ [k] ++ post := by simp
    rw [happ] at hl hc hnd ⊢
    rw [unhang, hat, if_neg hk0, if_neg (by rw [htail]; exact hkc)]
    have hrest := ih (pre ++ [k]) hl (by simp at hf ⊢; omega) hc hnd
    rwa [List.getLast?_concat] at hrest


/-! ## The loops -/

/-- The lists with the structures of `done`, the last one first, hung on queues, and `pool` left. -/
def hung (lists : Option Pv → List Nat) (done : List (Pv × Nat)) (pool : List Nat) :
    Option Pv → List Nat
  | none => pool
  | some p => lists (some p) ++ (done.reverse.filter fun x => x.1 = p).map Prod.snd

theorem hung_nil (lists : Option Pv → List Nat) : hung lists [] (lists none) = lists := by
  funext b
  cases b with
  | none => rfl
  | some p => exact List.append_nil _

theorem taken_hung (lists : Option Pv → List Nat) (done : List (Pv × Nat)) (p : Pv) (c : Nat)
    (pool : List Nat) :
    taken (hung lists done (c :: pool)) p c pool = hung lists ((p, c) :: done) pool := by
  funext b
  unfold taken
  cases b with
  | none =>
    rw [Function.update_of_ne (show (none : Option Pv) ≠ some p by simp), Function.update_self]
    rfl
  | some r =>
    by_cases hr : r = p
    · subst hr
      rw [Function.update_self]
      simp [hung]
    · rw [Function.update_of_ne fun he => hr (Option.some.inj he),
        Function.update_of_ne (show (some r : Option Pv) ≠ none by simp)]
      simp [hung, Ne.symm hr]

theorem returned_hung (lists : Option Pv → List Nat) (done : List (Pv × Nat)) (p : Pv) (c : Nat)
    (pool : List Nat) :
    returned (hung lists ((p, c) :: done) pool) p (hung lists done pool (some p)) c =
      hung lists done (c :: pool) := by
  funext b
  unfold returned
  cases b with
  | none =>
    rw [Function.update_self]
    rfl
  | some r =>
    rw [Function.update_of_ne (show (some r : Option Pv) ≠ none by simp)]
    by_cases hr : r = p
    · subst hr
      rw [Function.update_self]
      rfl
    · rw [Function.update_of_ne fun he => hr (Option.some.inj he)]
      simp [hung, Ne.symm hr]

theorem length_hung_le (lists : Option Pv → List Nat) (done : List (Pv × Nat)) (pool : List Nat)
    (p : Pv) : (hung lists done pool (some p)).length ≤ (lists (some p)).length + done.length := by
  unfold hung
  rw [List.length_append, List.length_map]
  have hle := List.length_filter_le (fun x : Pv × Nat => decide (x.1 = p)) done.reverse
  rw [List.length_reverse] at hle
  omega

/-- Everything but the queues and the pool. -/
structure SameRest (s s' : Waits) : Prop where
  lbWait : s'.lbWait = s.lbWait
  avForw : s'.avForw = s.avForw
  caPvWrt : s'.caPvWrt = s.caPvWrt

theorem detach_rest (p : Pv) (pptr : Option Nat) (c : Nat) (s : Waits) :
    SameRest s (detach p pptr c s) := by
  unfold detach
  simp only
  split <;> cases pptr <;> exact ⟨rfl, rfl, rfl⟩

/-- What has been hung comes back to the pool, in the order it was there before. -/
theorem backOut_rep (fuel : Nat) {done : List (Pv × Nat)} {apvol : List (Option Pv)}
    (h : Rep s (hung lists done pool)) (hap : apvol.filterMap id = done.map Prod.fst)
    (hf : ∀ p, (lists (some p)).length + done.length < fuel) :
    ∃ s', backOut fuel apvol s = some s' ∧
      Rep s' (hung lists [] ((done.map Prod.snd).reverse ++ pool)) ∧ SameRest s s' := by
  induction apvol generalizing done pool s with
  | nil =>
    obtain rfl : done = [] := by simpa using hap.symm
    exact ⟨s, rfl, h, rfl, rfl, rfl⟩
  | cons o apvol ih =>
    cases o with
    | none => exact ih h (by simpa using hap) hf
    | some p =>
      cases done with
      | nil => simp at hap
      | cons x done =>
        obtain ⟨p', c⟩ := x
        simp only [List.filterMap_cons_some (f := id) (a := some p) rfl, List.map_cons,
          List.cons.injEq] at hap
        obtain ⟨rfl, hap⟩ := hap
        have hl : hung lists ((p, c) :: done) pool (some p) =
            hung lists done pool (some p) ++ [c] := by simp [hung]
        have hlen := length_hung_le lists done pool p
        have hfp := hf p
        rw [List.length_cons] at hfp
        have hlt : (hung lists done pool (some p)).length + 1 < fuel := by omega
        have hun := unhang_eq [] h hl hlt
        have hrep := detach_rep h hl
        rw [returned_hung] at hrep
        obtain ⟨s', hs', hrep', hrest⟩ := ih hrep hap fun r => by
          have := hf r
          rw [List.length_cons] at this
          omega
        have hd := detach_rest p (hung lists done pool (some p)).getLast? c s
        refine ⟨s', ?_, ?_, hrest.lbWait.trans hd.lbWait, hrest.avForw.trans hd.avForw,
          hrest.caPvWrt.trans hd.caPvWrt⟩
        · rw [backOut]
          change (unhang p fuel ([] : List Nat).getLast? s).bind _ = _
          rw [hun]
          exact hs'
        · simpa using hrep'

/-- All but the queues, the pool and the reference count of the request. -/
structure Frame (lists : Option Pv → List Nat) (lb : Lb) (s s' : Waits) : Prop where
  lbWait : ∀ p, ∀ c ∈ lists (some p), s'.lbWait c = s.lbWait c
  avForw : ∀ i, i ≠ lb → s'.avForw i = s.avForw i
  caPvWrt : s'.caPvWrt = s.caPvWrt

theorem Frame.trans {s'' : Waits} (h : Frame lists lb s s') (h' : Frame lists lb s' s'') :
    Frame lists lb s s'' where
  lbWait := fun p c hc => (h'.lbWait p c hc).trans (h.lbWait p c hc)
  avForw := fun i hi => (h'.avForw i hi).trans (h.avForw i hi)
  caPvWrt := h'.caPvWrt.trans h.caPvWrt

theorem enqueue_rest (p : Pv) (c : Nat) (s : Waits) : SameRest s (enqueue p c s) := by
  unfold enqueue
  simp only
  split <;> exact ⟨rfl, rfl, rfl⟩

theorem hang_spec (s : Waits) (lb : Lb) (p : Pv) (n : Nat) :
    (hang lb p n s).lbWait = Function.update s.lbWait s.caFreepvw lb ∧
      (hang lb p n s).avForw = Function.update s.avForw lb n ∧
      (hang lb p n s).caPvWrt = s.caPvWrt := by
  obtain ⟨h1, h2, h3⟩ := enqueue_rest p s.caFreepvw { s.get with
    lbWait := Function.update s.lbWait s.caFreepvw lb
    avForw := Function.update s.avForw lb n
    nxtPvWait := Function.update s.nxtPvWait s.caFreepvw 0 }
  exact ⟨h1, h2, h3⟩

/-- What the loop leaves with the structures of `done` hung before. -/
theorem pvqueLoop_rep {fuel : Nat} {missing : Pv → Bool} {parts : List (Option Pv)}
    (apvol : List (Option Pv)) (done : List (Pv × Nat)) (h : Rep s (hung lists done pool))
    (hap : apvol.filterMap id = done.map Prod.fst)
    (hpool : lists none = (done.map Prod.snd).reverse ++ pool)
    (hlb : ∀ x ∈ done, s.lbWait x.2 = lb) (hn : s.avForw lb = done.length)
    (hf : ∀ p, (lists (some p)).length + (done.length + parts.length) < fuel) :
    ∃ rc apvol' s', pvqueLoop fuel missing lb parts apvol done.length s = some (rc, apvol', s') ∧
      Frame lists lb s s' ∧
      (rc = .lbhold ∧ pool.length < (live missing parts).length ∧ Rep s' lists ∧
          s'.avForw lb = (lists none).length ∨
        ∃ (new : List (Pv × Nat)) (pool' : List Nat),
          pool = new.map Prod.snd ++ pool' ∧ new.map Prod.fst = live missing parts ∧
          rc = (if done.length + new.length = 0 then .failure else .success) ∧
          Rep s' (hung lists (new.reverse ++ done) pool') ∧
          apvol'.filterMap id = (new.reverse ++ done).map Prod.fst ∧
          (∀ x ∈ new.reverse ++ done, s'.lbWait x.2 = lb) ∧
          s'.avForw lb = done.length + new.length) := by
  induction parts generalizing apvol done pool s with
  | nil =>
    exact ⟨_, apvol, s, rfl, ⟨fun _ _ _ => rfl, fun _ _ => rfl, rfl⟩,
      .inr ⟨[], pool, rfl, rfl, rfl, h, hap, hlb, hn⟩⟩
  | cons o parts ih =>
    have hf' : ∀ p, (lists (some p)).length + (done.length + parts.length) < fuel := by
      intro p
      have := hf p
      rw [List.length_cons] at this
      omega
    cases o with
    | none => exact ih (none :: apvol) done h (by simpa using hap) hpool hlb hn hf'
    | some p =>
      rw [pvqueLoop]
      by_cases hm : missing p = true
      · have hlive : live missing (some p :: parts) = live missing parts := by simp [live, hm]
        rw [if_pos hm, hlive]
        exact ih (none :: apvol) done h (by simpa using hap) hpool hlb hn hf'
      have hlive : live missing (some p :: parts) = p :: live missing parts := by
        simp [live, hm]
      rw [if_neg hm, hlive]
      have hc := h.linked.chain none
      change Chain s.nxtPvWait s.caFreepvw pool at hc
      by_cases h0 : s.caFreepvw = 0
      · rw [if_pos h0]
        have hnil : pool = [] := by
          cases pool with
          | nil => rfl
          | cons c pool => exact absurd (hc.1.symm.trans h0) hc.2.1
        subst hnil
        have h₁ : Rep { s with caPvwblked := s.caPvwblked + 1 } (hung lists done []) :=
          ⟨h.linked, h.tail⟩
        obtain ⟨s', hs', hrep, hrest⟩ := backOut_rep fuel h₁ hap fun r => by
          have := hf r
          omega
        rw [← hpool, hung_nil] at hrep
        refine ⟨.lbhold, apvol, s', by rw [hs']; rfl, ⟨fun r c _ => ?_, fun i _ => ?_, ?_⟩,
          .inl ⟨rfl, by simp, hrep, ?_⟩⟩
        · exact congrFun hrest.lbWait c
        · exact congrFun hrest.avForw i
        · exact hrest.caPvWrt
        · rw [hrest.avForw, hpool]
          simpa using hn
      · rw [if_neg h0]
        obtain ⟨c, pool, rfl⟩ : ∃ c l, pool = c :: l := by
          cases pool with
          | nil => exact absurd hc h0
          | cons c l => exact ⟨c, l, rfl⟩
        have hfree : s.caFreepvw = c := hc.1
        obtain ⟨g1, g2, g3⟩ := hang_spec s lb p (done.length + 1)
        rw [hfree] at g1
        have hrep := hang_rep h (show hung lists done (c :: pool) none = c :: pool from rfl)
          lb p (done.length + 1)
        rw [taken_hung] at hrep
        have hout : ∀ r, c ∉ lists (some r) := by
          intro r hmem
          have hne := h.linked.disjoint (a := some r) (b := none)
            (show c ∈ hung lists done (c :: pool) (some r) from List.mem_append_left _ hmem)
            (show c ∈ hung lists done (c :: pool) none from List.mem_cons_self)
          cases hne
        have hfr : Frame lists lb s (hang lb p (done.length + 1) s) := by
          refine ⟨fun r x hx => ?_, fun i hi => ?_, g3⟩
          · rw [g1]
            refine Function.update_of_ne ?_ _ _
            rintro rfl
            exact hout r hx
          · rw [g2]
            exact Function.update_of_ne hi _ _
        obtain ⟨rc, apvol', s', hloop, hframe, hres⟩ := ih (some p :: apvol) ((p, c) :: done) hrep
          (by rw [List.filterMap_cons_some (f := id) (a := some p) rfl, hap]; rfl)
          (by rw [hpool]; simp)
          (by
            intro x hx
            rw [g1]
            rcases List.mem_cons.mp hx with rfl | hx
            · exact Function.update_self _ _ _
            · by_cases hxc : x.2 = c
              · rw [hxc]
                exact Function.update_self _ _ _
              · rw [Function.update_of_ne hxc]
                exact hlb x hx)
          (by rw [g2, Function.update_self]; rfl)
          (fun r => by
            have := hf r
            simp only [List.length_cons] at this ⊢
            omega)
        refine ⟨rc, apvol', s', hloop, hfr.trans hframe, ?_⟩
        rcases hres with ⟨h1, h2, h3, h4⟩ | ⟨new, pool', h1, h2, h3, h4, h5, h6, h7⟩
        · exact .inl ⟨h1, by simp only [List.length_cons]; omega, h3, h4⟩
        · refine .inr ⟨(p, c) :: new, pool', by rw [h1]; rfl, by rw [List.map_cons, h2], ?_, ?_, ?_,
            ?_, ?_⟩
          · rw [h3]
            simp only [List.length_cons]
            rw [if_neg (by omega), if_neg (by omega)]
          · simpa using h4
          · simpa using h5
          · simpa using h6
          · rw [h7]
            simp only [List.length_cons]
            omega


/-! ## The call -/

/-- The queues, the pool and the cache write flags are as before. -/
structure AsBefore (lists : Option Pv → List Nat) (s s' : Waits) : Prop where
  head : s'.head = s.head
  tail : s'.tail = s.tail
  caFreepvw : s'.caFreepvw = s.caFreepvw
  nxtPvWait : ∀ a, ∀ c ∈ lists a, s'.nxtPvWait c = s.nxtPvWait c
  lbWait : ∀ p, ∀ c ∈ lists (some p), s'.lbWait c = s.lbWait c
  caPvWrt : s'.caPvWrt = s.caPvWrt

theorem asBefore_of_rep (h : Rep s lists) (h' : Rep s' lists) (hf : Frame lists lb s s') :
    AsBefore lists s s' where
  head := funext fun p => (((h.linked.chain (some p)).agree (h'.linked.chain (some p))).1).symm
  tail := funext fun p => (h'.tail p).trans (h.tail p).symm
  caFreepvw := (((h.linked.chain none).agree (h'.linked.chain none)).1).symm
  nxtPvWait := fun a c hc => (((h.linked.chain a).agree (h'.linked.chain a)).2 c hc).symm
  lbWait := hf.lbWait
  caPvWrt := hf.caPvWrt

/-- The request is at the end of each queue as many times as `times` says. -/
structure QueuedTo (lists : Option Pv → List Nat) (lb : Lb) (times : Pv → Nat) (s s' : Waits)
    (lists' : Option Pv → List Nat) : Prop where
  rep : Rep s' lists'
  queues : ∀ p, ∃ new, lists' (some p) = lists (some p) ++ new ∧ new.length = times p ∧
    ∀ c ∈ new, s'.lbWait c = lb
  lbWait : ∀ p, ∀ c ∈ lists (some p), s'.lbWait c = s.lbWait c
  pool : ∃ used, lists none = used ++ lists' none ∧ used.length = s'.avForw lb

section

local instance lawfulBEq_pv : LawfulBEq Pv := inferInstance

/-- What the call comes to, for the volumes `ps` of the copies that are not missing. -/
def Outcome (lists : Option Pv → List Nat) (lb : Lb) (ps : List Pv) (s : Waits) :
    Queued → Waits → Prop
  | .success, s' =>
    ps ≠ [] ∧ (∃ lists', QueuedTo lists lb ps.count s s' lists') ∧ s'.avForw lb = ps.length ∧
      ∀ p, s'.caPvWrt p = (s.caPvWrt p || decide (p ∈ ps))
  | .lbhold, s' => (lists none).length < ps.length ∧ AsBefore lists s s' ∧
    s'.avForw lb = (lists none).length
  | .failure, s' => ps = [] ∧ AsBefore lists s s' ∧ s'.avForw lb = 0

end

theorem count_filter_map (new : List (Pv × Nat)) (p : Pv) :
    ((new.filter fun x => x.1 = p).map Prod.snd).length = (new.map Prod.fst).count p := by
  induction new with
  | nil => rfl
  | cons x new ih =>
    by_cases hx : x.1 = p
    · simp only [List.filter_cons, hx, decide_true, if_true, List.map_cons, List.length_cons, ih,
        List.count_cons_self]
    · simp only [List.filter_cons, hx, decide_false, Bool.false_eq_true, if_false, List.map_cons]
      rw [ih, List.count_cons_of_ne hx]

/-- A request that is not queued leaves the queues and the pool as they were, and its reference
count at the number of structures there were. A request that is queued is on the queue of each
volume as many times as it has copies there that are not missing, and counts these. -/
theorem hdCaPvque_outcome {fuel : Nat} {missing : Pv → Bool} {parts : List (Option Pv)}
    (h : Rep s lists) (hf : ∀ p, (lists (some p)).length + parts.length < fuel) :
    ∃ rc s', hdCaPvque fuel missing lb parts s = some (rc, s') ∧
      Outcome lists lb (live missing parts) s rc s' ∧ ∀ i, i ≠ lb → s'.avForw i = s.avForw i := by
  have h₀ : Rep { s with avForw := Function.update s.avForw lb 0 } (hung lists [] (lists none)) := by
    rw [hung_nil]
    exact ⟨h.linked, h.tail⟩
  obtain ⟨rc, apvol, s', hloop, hframe, hres⟩ := pvqueLoop_rep [] [] h₀ rfl rfl
    (fun x hx => absurd hx List.not_mem_nil)
    (Function.update_self _ _ _) (fun p => by simpa using hf p)
  rw [List.length_nil] at hloop
  have hothers : ∀ i, i ≠ lb → s'.avForw i = s.avForw i := fun i hi =>
    (hframe.avForw i hi).trans (Function.update_of_ne hi _ _)
  have hcall : rc ≠ .success → hdCaPvque fuel missing lb parts s = some (rc, s') := by
    intro hne
    unfold hdCaPvque
    rw [hloop]
    cases rc with
    | success => exact absurd rfl hne
    | lbhold => rfl
    | failure => rfl
  have hsame : Rep s' lists → AsBefore lists s s' := fun h' =>
    asBefore_of_rep h h' ⟨hframe.lbWait, hothers, hframe.caPvWrt⟩
  rcases hres with ⟨rfl, hlt, hrep, hcnt⟩ | ⟨new, pool', hpool, hnew, hrc, hrep, hap, hlb, hcnt⟩
  · exact ⟨.lbhold, s', hcall (by simp), ⟨hlt, hsame hrep, hcnt⟩, hothers⟩
  · simp only [List.length_nil, zero_add, List.append_nil] at hrc hrep hap hlb hcnt
    by_cases hnil : new = []
    · subst hnil
      obtain rfl : rc = .failure := by simpa using hrc
      have hpool' : pool' = lists none := hpool.symm
      rw [hpool', List.reverse_nil, hung_nil] at hrep
      exact ⟨.failure, s', hcall (by simp), ⟨hnew.symm, hsame hrep, hcnt⟩, hothers⟩
    · rw [if_neg fun h0 => hnil (List.length_eq_zero_iff.mp h0)] at hrc
      subst hrc
      have hlen : new.length = (live missing parts).length := by
        rw [← hnew, List.length_map]
      refine ⟨.success, { s' with caPvWrt := fun p => s'.caPvWrt p || decide (some p ∈ apvol) },
        by unfold hdCaPvque; rw [hloop]; rfl, ⟨?_, ⟨hung lists new.reverse pool', ⟨⟨hrep.linked, hrep.tail⟩,
        fun p => ⟨_, rfl, ?_, fun c hc => ?_⟩, hframe.lbWait, new.map Prod.snd, hpool, ?_⟩⟩,
        hcnt.trans hlen, fun p => ?_⟩, hothers⟩
      · rw [← hnew]
        exact fun h0 => hnil (List.map_eq_nil_iff.mp h0)
      · rw [List.reverse_reverse, count_filter_map, hnew]
      · obtain ⟨x, hx, rfl⟩ := List.mem_map.mp hc
        rw [List.reverse_reverse] at hx
        exact hlb x (List.mem_reverse.mpr (List.mem_of_mem_filter hx))
      · rw [List.length_map]
        exact hcnt.symm
      · have hmem : some p ∈ apvol ↔ p ∈ live missing parts := by
          have hid : p ∈ apvol.filterMap id ↔ some p ∈ apvol := by simp
          rw [← hid, hap, List.map_reverse, List.mem_reverse, hnew]
        simp only [hmem, hframe.caPvWrt]


/-- Two free structures, and nothing queued. -/
def twoFree : Waits where
  nxtPvWait := fun c => if c = 1 then 2 else 0
  lbWait := fun _ => 0
  head := fun _ => 0
  tail := fun _ => 0
  caFreepvw := 1
  caPvwblked := 0
  caPvWrt := fun _ => false
  avForw := fun _ => 0

def twoLists : Option Pv → List Nat
  | none => [1, 2]
  | some _ => []

theorem rep_twoFree : Rep twoFree twoLists where
  linked := {
    chain := fun a => by
      cases a with
      | none => exact ⟨rfl, by decide, rfl, by decide, rfl⟩
      | some p => rfl
    disjoint := fun {a b k} ha hb => by
      cases a with
      | none =>
        cases b with
        | none => rfl
        | some q => cases hb
      | some p => cases ha }
  tail := fun _ => rfl

theorem hdCaPvque_outcome_two :
    Rep twoFree twoLists ∧ (∀ p, (twoLists (some p)).length + [some (3 : Pv), some 4].length < 3) ∧
      ∃ rc s', hdCaPvque 3 (fun _ => false) 7 [some 3, some 4] twoFree = some (rc, s') ∧
        Outcome twoLists 7 (live (fun _ => false) [some 3, some 4]) twoFree rc s' ∧
        ∀ i, i ≠ 7 → s'.avForw i = twoFree.avForw i :=
  ⟨rep_twoFree, fun _ => Nat.lt_succ_self 2, hdCaPvque_outcome rep_twoFree fun _ => Nat.lt_succ_self 2⟩

/-- A request that is not queued keeps the reference count that it had. -/
def CountRestored : Prop :=
  ∀ (s : Waits) lists fuel missing lb parts rc s', Rep s lists →
    hdCaPvque fuel missing lb parts s = some (rc, s') → rc ≠ .success → s'.avForw lb = s.avForw lb

/-- The reference count of a request that is queued is the number of the volumes. -/
def CountsVolumes : Prop :=
  ∀ (s : Waits) lists fuel missing lb parts s', Rep s lists →
    hdCaPvque fuel missing lb parts s = some (.success, s') →
    s'.avForw lb = (live missing parts).dedup.length

/-- With three copies and two structures the count is left at 2; with two copies on one volume it
is 2 for this one volume. -/
theorem hdCaPvque_counts_copies : ¬CountRestored ∧ ¬CountsVolumes := by
  constructor
  · intro h
    have hrun : ∃ s', hdCaPvque 9 (fun _ => false) 7 [some 3, some 4, some 5] twoFree =
        some (.lbhold, s') ∧ s'.avForw 7 = 2 := ⟨_, rfl, rfl⟩
    obtain ⟨s', hs, hcnt⟩ := hrun
    have hsame := h twoFree twoLists 9 _ 7 _ .lbhold s' rep_twoFree hs (by decide)
    rw [hcnt] at hsame
    exact absurd hsame (by decide)
  · intro h
    have hrun : ∃ s', hdCaPvque 9 (fun _ => false) 7 [some 3, some 3] twoFree =
        some (.success, s') ∧ s'.avForw 7 = 2 := ⟨_, rfl, rfl⟩
    obtain ⟨s', hs, hcnt⟩ := hrun
    have hone := h twoFree twoLists 9 _ 7 _ s' rep_twoFree hs
    rw [hcnt] at hone
    exact absurd hone (by decide)

end Aix413.Lvm.PvWait
