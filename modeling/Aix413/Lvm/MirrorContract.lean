import Aix413.Lvm.MirrorRuns
import Aix413.Lvm.MirrorSteady

namespace Aix413.Lvm.Mwc

open Relation Lib.LinkedPool Lib.LinkedRing

variable {v : Layout} {n : Nat} {s s' : State} {lb : Lb} {p : Pv}

/-! ## Every run -/

theorem isRing_start (hn : 1 < n) :
    IsRing (fun e => if e = n then 1 else e + 1) (fun e => if e = 1 then n else e - 1)
      (List.range' 1 n) := by
  have htake : (List.range' 1 n).take 1 = [1] := by
    obtain ⟨m, rfl⟩ := Nat.exists_eq_add_of_lt hn
    rfl
  refine ⟨List.nodup_range', ?_⟩
  rw [htake, List.isChain_append]
  refine ⟨?_, List.isChain_singleton 1, ?_⟩
  · rw [List.isChain_iff_getElem]
    intro i hi
    rw [List.length_range'] at hi
    rw [List.getElem_range', List.getElem_range']
    unfold Lib.LinkedRing.Joined
    dsimp only
    rw [if_neg (by omega), if_neg (by omega)]
    omega
  · rw [List.getLast?_range', if_neg (by omega), Nat.add_sub_cancel_left]
    rintro x hx y hy
    obtain rfl := Option.mem_some.mp hx
    obtain rfl := Option.mem_some.mp hy
    exact ⟨if_pos rfl, if_pos rfl⟩

theorem start_inv (v : Layout) (hn : 1 < n) (left : Ptr → BitVec 32 × Nat)
    (disk : Pv → Ptr → BitVec 32 × Nat) (missing : Pv → Bool) :
    Inv v n (start n left disk missing) 0 [] := by
  have hflag : ∀ i, ¬(start n left disk missing).Flagged i := fun _ hf => Bool.false_ne_true hf
  have hclean : ∀ e, ¬(start n left disk missing).ca.InUse e := fun _ hu => hu.2 rfl
  have hrefs : ∀ i, (start n left disk missing).refs [] i = 0 := by
    intro i
    simp [Requests.refs, start]
  refine ⟨rfl, ?_, ?_, ?_, fun hf => absurd hf (hflag _)⟩
  · constructor
    case kept =>
      refine ⟨List.range' 1 n, fun _ => [], ?_⟩
      constructor
      case order =>
        refine ⟨isRing_start hn, ?_⟩
        rw [List.head?_range', if_neg (by omega)]
        rfl
      case cells =>
        intro e
        rw [List.mem_range'_1]
        exact and_congr Nat.one_le_iff_ne_zero Nat.lt_one_add_iff
      case linked => exact ⟨fun _ => rfl, fun hm => absurd hm List.not_mem_nil⟩
      case queued => exact ⟨fun hm => absurd hm List.not_mem_nil, fun hm => absurd rfl hm.2.1⟩
      case unique => exact fun _ _ hs => absurd rfl hs
      case suffix =>
        exact ⟨[], List.range' 1 n, rfl, fun _ hm => absurd hm List.not_mem_nil, fun _ _ => rfl⟩
      case idle => exact fun _ _ => rfl
    case lt => exact fun hf => absurd hf (hflag _)
    case aligned => exact fun hf => absurd hf (hflag _)
    case holds => exact fun hf => absurd hf (hflag _)
    case put => exact fun hf => absurd hf (hflag _)
    case apart => exact fun hf => absurd hf (hflag _)
    case count => exact fun hu => absurd hu (hclean _)
  · constructor
    case waiting => exact fun hpos => absurd (hrefs _) hpos.ne'
    case flagged => exact fun hf => absurd hf (hflag _)
    case admitted => exact fun hm => absurd hm List.not_mem_nil
    case nodup => exact List.nodup_nil
    case listed => exact List.nodup_nil
    case fresh => exact fun hm => absurd hm List.not_mem_nil
    case done => exact fun hm => absurd hm List.not_mem_nil
  · constructor
    case snapshot => exact fun hf => absurd hf (Option.some_ne_none _).symm
    case wheel => exact fun hw => absurd hw Bool.false_ne_true
    case busy => simp [start]
    case inflt => exact fun hp => absurd hp (Nat.lt_irrefl 0)
    case reserved =>
      rintro (hr | hr)
      · cases hr
      · cases hr
    case written => exact fun hu => absurd hu (hclean _)
    case changing => exact fun hu => absurd hu (hclean _)

theorem Inv.arrive (h : Inv v n s 0 []) (b : Buf) :
    Inv v n { s with
      buf := Function.update s.buf s.next { b with }
      next := s.next + 1
      pendingQ := s.pendingQ ++ [s.next] } 0 [] := by
  have hne : ∀ i, s.Flagged i → i ≠ s.next := fun i hf => (h.counted.lt hf).ne
  have hflag : ∀ i, Requests.Flagged { s.toRequests with
      buf := Function.update s.buf s.next { b with }
      next := s.next + 1
      pendingQ := s.pendingQ ++ [s.next] } i → s.Flagged i := by
    intro i hf
    unfold Requests.Flagged at hf ⊢
    by_cases heq : i = s.next
    · simp [heq] at hf
    · simpa [heq] using hf
  have hbuf : ∀ i, s.Flagged i →
      Function.update s.buf s.next { b with } i = s.buf i :=
    fun i hf => Function.update_of_ne (hne i hf) _ _
  have hparked := h.parked.arrive (b := { b with }) rfl fun i hf => h.counted.lt hf
  refine ⟨h.size, ?_, hparked, h.recorded, ?_⟩
  · constructor
    case kept => exact h.counted.kept
    case lt => exact fun hf => Nat.lt_succ_of_lt (h.counted.lt (hflag _ hf))
    case aligned =>
      intro i hf
      have hf' := hflag i hf
      dsimp only
      rw [hbuf i hf']
      exact h.counted.aligned hf'
    case holds =>
      intro i hf
      have hf' := hflag i hf
      dsimp only
      rw [hbuf i hf']
      exact h.counted.holds hf'
    case put => exact fun hf => h.counted.put (hflag _ hf)
    case apart =>
      intro i j hi hj hij
      have hi' := hflag i hi
      have hj' := hflag j hj
      dsimp only
      rw [hbuf i hi', hbuf j hj']
      exact h.counted.apart hi' hj' hij
    case count =>
      intro e he
      rw [h.counted.count he]
      congr 1
      ext i
      rw [Requests.mem_counted, Requests.mem_counted]
      by_cases heq : i = s.next
      · subst heq
        simp [Requests.Flagged]
      · have hlt : i < s.next ↔ i < s.next + 1 :=
          (Nat.lt_succ_iff_lt_or_eq.trans (or_iff_left heq)).symm
        unfold Requests.Flagged
        simp only [Function.update_of_ne heq]
        rw [hlt]
  · intro i hf q hq
    have hf' := hflag i hf
    dsimp only at hq ⊢
    rw [hbuf i hf'] at hq
    exact h.covered hf' q hq

/-- Each step leads to a state of the invariant. -/
theorem Inv.step (h : Inv v n s 0 []) (hs : Step v s s') : Inv v n s' 0 [] := by
  cases hs with
  | arrive b => exact h.arrive b
  | check lb hp hal hap hc =>
    obtain ⟨htake, hidle⟩ := h.parked.take hp
    have h₁ : Inv v n { s with pendingQ := s.pendingQ.erase lb } 0 [] :=
      h.requeue (.of_buf rfl rfl rfl) rfl htake rfl rfl
    obtain ⟨s₁, hs₁, hi₁⟩ := h₁.ckcach hidle hal hap
    rw [hs₁] at hc
    cases hc
    exact hi₁
  | write => exact h.caWrt
  | written p r hf hw =>
    obtain ⟨s₁, hs₁, hi₁⟩ := h.written hf
    rw [hs₁] at hw
    cases hw
    exact hi₁
  | failed p hf => exact h.failed hf
  | failedClosing p hf hw =>
    obtain ⟨s₁, hs₁, hi₁⟩ := h.failedClosing hf
    rw [hs₁] at hw
    cases hw
    exact hi₁
  | wheelDone p hf hw =>
    obtain ⟨s₁, hs₁, hi₁⟩ := h.wheelDone hf
    rw [hs₁] at hw
    cases hw
    exact hi₁
  | terminate lb ha hc =>
    obtain ⟨s₁, hs₁, hi₁⟩ := h.serviceDone rfl ha
    rw [hs₁] at hc
    cases hc
    exact hi₁
  | lose p => exact h.lose p
  | forceOff => exact h.of_eq rfl rfl rfl
  | cleanWait ho hoff hin =>
    have hr := h.recorded
    refine ⟨h.size, h.counted, h.parked, ?_, h.covered⟩
    refine ⟨hr.snapshot, hr.wheel, hr.busy, hr.inflt, ?_, hr.written, hr.changing⟩
    rintro (hc | hc)
    · cases hc
    · cases hc
  | clean ho hoff hin hc =>
    have h0 := h.recorded.idle hin
    have h₁ : Inv v n { s with inflt := true } 0 [] :=
      h.flags h0 true s.vgact s.cleaner (.inr (by rw [ho]; decide)) fun _ hp => hp
    obtain ⟨s₁, hs₁, hi₁⟩ := h₁.clnupBody h0
    rw [hs₁] at hc
    cases hc
    exact hi₁
  | cleanReserved hcl hc =>
    obtain ⟨s₁, hs₁, hi₁⟩ := h.clnupBody (h.recorded.reserved (.inl hcl)).1
    rw [hs₁] at hc
    cases hc
    exact hi₁
  | cleanEnd hcl =>
    have h0 := (h.recorded.reserved (.inr hcl)).1
    exact (h.flags h0 false s.vgact .out (.inr (by decide)) fun _ hp => hp).mvhld.1

theorem reachable_inv (hn : 1 < n) {left : Ptr → BitVec 32 × Nat}
    {disk : Pv → Ptr → BitVec 32 × Nat} {missing : Pv → Bool}
    (hr : ReflTransGen (Step v) (start n left disk missing) s) : Inv v n s 0 [] := by
  induction hr with
  | refl => exact start_inv v hn left disk missing
  | tail _ hs ih => exact ih.step hs

/-! ## Requests in service -/

/-- A request in service stays there as it is until it is terminated. -/
structure Served (lb : Lb) (s s' : State) : Prop where
  done : lb ∈ s.done → lb ∈ s'.done
  kept : lb ∈ s.admitted → lb ∈ s'.done ∨ lb ∈ s'.admitted ∧ s'.under lb = s.under lb ∧
    (s'.buf lb).bDev = (s.buf lb).bDev ∧ (s'.buf lb).bBlkno = (s.buf lb).bBlkno

theorem Steady.served {t : State} (hs : Steady lb t s') (ht : t.toRequests = s.toRequests) :
    Served lb s s' := by
  refine ⟨?_, ?_⟩
  · rw [← ht]
    exact hs.done
  · rw [← ht]
    exact fun ha => .inr ⟨hs.admitted ha, hs.under, hs.dev, hs.blkno⟩

theorem Served.trans {t : State} (h : Served lb s s') (h' : Served lb s' t) : Served lb s t := by
  refine ⟨h'.done ∘ h.done, ?_⟩
  intro ha
  rcases h.kept ha with hd | ⟨hm, hu, hdev, hblk⟩
  · exact .inl (h'.done hd)
  · rcases h'.kept hm with hd | ⟨hm', hu', hdev', hblk'⟩
    · exact .inl hd
    · exact .inr ⟨hm', hu'.trans hu, hdev'.trans hdev, hblk'.trans hblk⟩

theorem Inv.served (h : Inv v n s 0 []) (hs : Step v s s') : Served lb s s' := by
  cases hs with
  | arrive b =>
    refine ⟨id, ?_⟩
    intro ha
    right
    dsimp only
    rw [Function.update_of_ne (h.counted.lt (h.parked.admitted ha)).ne]
    exact ⟨ha, rfl, rfl, rfl⟩
  | check i hp hal hap hc =>
    have hm := List.mem_append_left s.caHld hp
    by_cases hne : lb = i
    · subst hne
      refine ⟨fun hd => absurd hm (h.parked.done hd).2.2, ?_⟩
      exact fun ha => absurd (h.parked.admitted ha) (h.parked.fresh hm).2
    · have hst := Steady.ckcach hne hc
      refine ⟨hst.done, ?_⟩
      exact fun ha => .inr ⟨hst.admitted ha, hst.under, hst.dev, hst.blkno⟩
  | write => exact (Steady.caWrt lb s).served rfl
  | written p r hf hw => exact (Steady.wendDone hw).served rfl
  | failed => exact (Steady.refl lb _).served rfl
  | failedClosing p hf hw => exact (Steady.wendDone hw).served rfl
  | wheelDone p hf hw => exact (Steady.wendDone hw).served rfl
  | terminate i hi hc =>
    have hst := Steady.caTerm (i := lb) hc
    refine ⟨fun hd => hst.done (List.mem_append_left _ hd), ?_⟩
    intro ha
    by_cases heq : lb = i
    · subst heq
      exact .inl (hst.done (List.mem_append_right _ (List.mem_singleton_self lb)))
    · exact .inr ⟨hst.admitted ((List.mem_erase_of_ne heq).mpr ha), hst.under, hst.dev, hst.blkno⟩
  | lose => exact (Steady.refl lb _).served rfl
  | forceOff => exact (Steady.refl lb _).served rfl
  | cleanWait => exact (Steady.refl lb _).served rfl
  | clean ho hoff hin hc =>
    have h₀ : Inv v n { s with inflt := true } 0 [] :=
      h.flags (h.recorded.idle hin) true s.vgact s.cleaner (.inr (by rw [ho]; decide))
        fun _ hp => hp
    exact (Steady.clnupBody h₀ hc).served rfl
  | cleanReserved hcl hc => exact (Steady.clnupBody h hc).served rfl
  | cleanEnd hcl =>
    exact (Steady.mvhld lb { s with inflt := false, cleaner := .out }).served rfl

theorem Inv.served_run (h : Inv v n s 0 []) (hr : ReflTransGen (Step v) s s') :
    Inv v n s' 0 [] ∧ Served lb s s' := by
  induction hr with
  | refl => exact ⟨h, id, fun ha => .inr ⟨ha, rfl, rfl, rfl⟩⟩
  | tail hr hs ih => exact ⟨ih.1.step hs, ih.2.trans (ih.1.served hs)⟩

/-- The copies of a request in service have the record with its entry, as it is
in the record since the put under which the request is counted. -/
theorem Inv.on_disk (h : Inv v n s 0 []) (ha : lb ∈ s.admitted) {p : Pv}
    (hp : some p ∈ s.copies v lb) (hm : s.missing p = false) :
    s.disk p (s.under lb).1 = s.ca.part1 (s.under lb).1 := by
  have hf := h.parked.admitted ha
  rw [copies_eq] at hp
  rcases h.covered hf p ⟨hp, hm⟩ with hq | hd
  · exact absurd ha (h.parked.waiting (Parked.refs_pos hq)).2.1
  · exact hd

theorem Inv.part1_kept (h : Inv v n s 0 []) (h' : Inv v n s' 0 []) (hs : Served lb s s')
    (ha : lb ∈ s.admitted) (hd : lb ∉ s'.done) :
    lb ∈ s'.admitted ∧ s'.ca.part1 (s.under lb).1 = s.ca.part1 (s.under lb).1 := by
  rcases hs.kept ha with hd' | ⟨hm, hu, hdev, hblk⟩
  · exact absurd hd' hd
  refine ⟨hm, ?_⟩
  have hf := h.parked.admitted ha
  have hf' := h'.parked.admitted hm
  have hh := h.counted.holds hf
  have hh' := h'.counted.holds hf'
  have hput := h.counted.put hf
  have hput' := h'.counted.put hf'
  rw [hu] at hh' hput'
  rw [← hput] at hput'
  have hminor := hh'.2.1.trans (hdev.trans hh.2.1.symm)
  have hltg := hh'.2.2.trans ((congrArg blk2trk hblk).trans hh.2.2.symm)
  cases hp : s'.ca.part1 (s.under lb).1 with
  | mk ltg' minor' put' =>
    cases hq : s.ca.part1 (s.under lb).1 with
    | mk ltg minor put =>
      rw [hp, hq] at hminor hltg hput'
      dsimp only at hminor hltg hput'
      rw [hminor, hltg, hput']

/-! ## A run of one request -/

def twoCopies : Layout where
  partshift := 8
  trk_le := le_rfl
  copies := fun _ _ => [some 0, none, some 1]
  pvols := fun p => p < 2

def cold : State := start 2 (fun _ => (0, 0)) (fun _ _ => (0, 0)) fun _ => false

def arrived : State :=
  { cold with
    buf := Function.update cold.buf 0 { bDev := 3, bBlkno := 512, bBcount := 4096, read := false }
    next := 1
    pendingQ := [0] }

/-- The write waits for both volumes. -/
def waiting : State := (ckcach twoCopies 0 { arrived with pendingQ := [] }).getD cold

def firstWritten : State :=
  (wendDone 0 { caWrt waiting with
    flight := Function.update (caWrt waiting).flight 0 none
    disk := Function.update (caWrt waiting).disk 0 waiting.ca.part1 }).getD cold

/-- The write is in service. -/
def bothWritten : State :=
  (wendDone 1 { firstWritten with
    flight := Function.update firstWritten.flight 1 none
    disk := Function.update firstWritten.disk 1 waiting.ca.part1 }).getD cold

theorem eq_some_getD {α : Type} {o : Option α} (h : o.isSome) (d : α) : o = some (o.getD d) := by
  cases o with
  | none => cases h
  | some a => rfl

theorem bothWritten_reachable : ReflTransGen (Step twoCopies) cold bothWritten := by
  have h₁ : Step twoCopies cold arrived :=
    .arrive { bDev := 3, bBlkno := 512, bBcount := 4096, read := false }
  have h₂ : Step twoCopies arrived waiting := by
    refine .check 0 List.mem_cons_self (by decide) ?_ (eq_some_getD (by decide) _)
    intro i hi
    by_cases h0 : i = 0
    · subst h0
      cases hi
    · have hb : arrived.buf i = cold.buf i := Function.update_of_ne h0 _ _
      rw [hb] at hi
      cases hi
  have h₃ : Step twoCopies waiting (caWrt waiting) := .write
  have h₄ : Step twoCopies (caWrt waiting) firstWritten :=
    .written 0 waiting.ca.part1 rfl (eq_some_getD (by decide) _)
  have h₅ : Step twoCopies firstWritten bothWritten :=
    .written 1 waiting.ca.part1 rfl (eq_some_getD (by decide) _)
  exact ((((ReflTransGen.single h₁).tail h₂).tail h₃).tail h₄).tail h₅

/-! ## The contract -/

/-- A mirrored write is in service only while an entry of the record is in use
for its track group, which each volume with a copy that is not missing has on its
disk, by number of the put under which the write is counted; and the entry stays
as it is until the write is terminated. -/
theorem admitted_recorded (hn : 1 < n) {left : Ptr → BitVec 32 × Nat}
    {disk : Pv → Ptr → BitVec 32 × Nat} {missing : Pv → Bool}
    (hr : ReflTransGen (Step v) (start n left disk missing) s) (ha : lb ∈ s.admitted) :
    s.ca.Holds (s.under lb).1 (s.buf lb).toBuf ∧
    (s.ca.part1 (s.under lb).1).put = (s.under lb).2 ∧
    (∀ p, some p ∈ s.copies v lb → s.missing p = false →
      s.disk p (s.under lb).1 = s.ca.part1 (s.under lb).1) ∧
    ∀ s', ReflTransGen (Step v) s s' → lb ∉ s'.done →
      lb ∈ s'.admitted ∧ s'.ca.part1 (s.under lb).1 = s.ca.part1 (s.under lb).1 := by
  have h := reachable_inv hn hr
  have hf := h.parked.admitted ha
  refine ⟨h.counted.holds hf, h.counted.put hf, fun p => h.on_disk ha, ?_⟩
  intro s' hr' hd
  obtain ⟨h', hs⟩ := h.served_run hr'
  exact h.part1_kept h' hs ha hd

theorem admitted_recorded_first : 0 ∈ bothWritten.admitted ∧
    bothWritten.ca.Holds (bothWritten.under 0).1 (bothWritten.buf 0).toBuf ∧
    bothWritten.disk 1 2 = bothWritten.ca.part1 2 := by
  have ha : 0 ∈ bothWritten.admitted := by decide
  have h := admitted_recorded (n := 2) (v := twoCopies) (by decide) bothWritten_reachable ha
  exact ⟨ha, h.1, h.2.2.1 1 (by decide) (by decide)⟩

/-- In every reachable state the ring has each entry once, those in use are each
on the hash queue of their track group only, they count their requests, and the
clean entries are the end of the ring. -/
theorem cache_kept (hn : 1 < n) {left : Ptr → BitVec 32 × Nat}
    {disk : Pv → Ptr → BitVec 32 × Nat} {missing : Pv → Bool}
    (hr : ReflTransGen (Step v) (start n left disk missing) s) :
    ∃ (l : List Ptr) (q : BitVec 32 → List Ptr),
      (IsRing s.ca.next s.ca.prev l ∧ l.head? = some s.ca.lst ∧ ∀ e, e ∈ l ↔ e ≠ 0 ∧ e ≤ n) ∧
      (∀ a, Chain s.ca.hqNext (s.ca.hash a) (q a)) ∧
      (∀ e a, e ∈ q a ↔
        e ∈ l ∧ s.ca.state e ≠ .caclean ∧ caThash (s.ca.part1 e).lvLtg = a) ∧
      (∀ e ∈ l, ∀ f ∈ l, s.ca.state e ≠ .caclean → s.ca.state f ≠ .caclean →
        (s.ca.part1 e).lvMinor = (s.ca.part1 f).lvMinor →
        (s.ca.part1 e).lvLtg = (s.ca.part1 f).lvLtg → e = f) ∧
      (∀ e ∈ l, (s.ca.iocnt e).toNat =
        if s.ca.state e = .caclean then 0 else (s.counted (s.ca.part1 e)).card) ∧
      (∀ i, s.Flagged i → i < s.next ∧ i ∉ s.done ∧ ∃ e ∈ l, s.ca.Holds e (s.buf i).toBuf) ∧
      ∃ used clean, l = used ++ clean ∧ (∀ e ∈ used, s.ca.state e ≠ .caclean) ∧
        ∀ e ∈ clean, s.ca.state e = .caclean := by
  have h := reachable_inv hn hr
  obtain ⟨l, q, hk⟩ := h.counted.kept
  refine ⟨l, q, ⟨hk.order.ring, hk.order.head, ?_⟩, hk.linked.chain, fun e a => hk.queued, ?_, ?_,
    ?_, hk.suffix⟩
  · rw [← h.size]
    exact hk.cells
  · exact fun e he f hf hes hfs hm ht => hk.unique he hf hes hfs ht hm
  · intro e he
    split_ifs with hs
    · rw [hk.idle he hs]
      rfl
    · exact h.counted.count (hk.inUse.mpr ⟨he, hs⟩)
  · intro i hf
    refine ⟨h.counted.lt hf, fun hd => (h.parked.done hd).2.1 hf, ?_⟩
    have hh := h.counted.holds hf
    exact ⟨_, (hk.inUse.mp hh.1).1, hh⟩

theorem cache_kept_first : ∃ l, IsRing bothWritten.ca.next bothWritten.ca.prev l ∧
    ∀ e ∈ l, (bothWritten.ca.iocnt e).toNat = if bothWritten.ca.state e = .caclean then 0
      else (bothWritten.counted (bothWritten.ca.part1 e)).card := by
  obtain ⟨l, q, hring, -, -, -, hcount, -⟩ :=
    cache_kept (n := 2) (v := twoCopies) (by decide) bothWritten_reachable
  exact ⟨l, hring.1, hcount⟩

end Aix413.Lvm.Mwc
