import Aix413.Lvm.MirrorContract

open Relation

namespace Aix413.Lvm.Mwc

/-! ## Several processes that clean up the cache -/

namespace Cleaner

/-- The call sleeps on `ecachwait`. -/
def asleep : Cleaner → Bool
  | .waiting | .writing => true
  | _ => false

/-- `e_wakeup` -/
def awaken : Cleaner → Cleaner
  | .waiting => .reserved
  | .writing => .written
  | c => c

/-- The call takes `CA_INFLT` for its own. -/
def owns : Cleaner → Bool
  | .reserved | .written => true
  | _ => false

end Cleaner

/-- A volume group and the calls of `hd_ca_clnup` for it, in the order in which
they were made. The cleaner of `vg` is the call that moved last. -/
structure Group where
  vg : State
  calls : List Cleaner

namespace Group

/-- The end of a cache write. All sleepers are awakened at once. -/
def wendDone (p : Pv) (s : State) (calls : List Cleaner) : Option Group :=
  (sked p s).map fun s =>
    let s := { s with infltCnt := s.infltCnt - 1 }
    if s.infltCnt = 0 then
      let s := { s with inflt := false, ca := s.ca.settle s.ca.size s.ca.lst }
      if calls.any Cleaner.asleep then
        ⟨{ s with inflt := true, cleaner := s.cleaner.awaken }, calls.map Cleaner.awaken⟩
      else ⟨mvhld s, calls⟩
    else ⟨s, calls⟩

/-- What can happen, with any number of calls of `hd_ca_clnup` at a time. -/
inductive Step (v : Layout) (g : Group) : Group → Prop
  | arrive (b : Buf) :
      Step v g { g with vg := { g.vg with
        buf := Function.update g.vg.buf g.vg.next { b with }
        next := g.vg.next + 1
        pendingQ := g.vg.pendingQ ++ [g.vg.next] } }
  | check {s' : State} (lb : Lb) : lb ∈ g.vg.pendingQ → (g.vg.buf lb).Aligned →
      (∀ i, (g.vg.buf i).reqInCach = true → g.vg.minor i = g.vg.minor lb →
        g.vg.ltg i = g.vg.ltg lb → ∀ k, ¬((g.vg.buf i).Touches k ∧ (g.vg.buf lb).Touches k)) →
      ckcach v lb { g.vg with pendingQ := g.vg.pendingQ.erase lb } = some s' →
      Step v g { g with vg := s' }
  | write : Step v g { g with vg := caWrt g.vg }
  | written {g' : Group} (p : Pv) (r : Record) : g.vg.flight p = some r →
      wendDone p { g.vg with
        flight := Function.update g.vg.flight p none
        disk := Function.update g.vg.disk p r } g.calls = some g' → Step v g g'
  | failed (p : Pv) : g.vg.flight p ≠ none →
      Step v g { g with vg := { g.vg with
        flight := Function.update g.vg.flight p none
        missing := Function.update g.vg.missing p true
        onWheel := Function.update g.vg.onWheel p true } }
  | failedClosing {g' : Group} (p : Pv) : g.vg.flight p ≠ none →
      wendDone p { g.vg with
        flight := Function.update g.vg.flight p none
        missing := Function.update g.vg.missing p true } g.calls = some g' → Step v g g'
  | wheelDone {g' : Group} (p : Pv) : g.vg.onWheel p = true →
      wendDone p { g.vg with onWheel := Function.update g.vg.onWheel p false } g.calls = some g' →
      Step v g g'
  | terminate {s' : State} (lb : Lb) : lb ∈ g.vg.admitted →
      caTerm lb { g.vg with
        admitted := g.vg.admitted.erase lb
        done := g.vg.done ++ [lb] } = some s' → Step v g { g with vg := s' }
  | lose (p : Pv) :
      Step v g { g with vg := { g.vg with missing := Function.update g.vg.missing p true } }
  | forceOff : Step v g { g with vg := { g.vg with forcedOff := true } }
  /-- A call is made while the cache is in use. -/
  | cleanWait : g.vg.forcedOff = false → g.vg.inflt = true →
      Step v g ⟨{ g.vg with cleaner := .waiting }, g.calls ++ [.waiting]⟩
  | clean {s' : State} : g.vg.forcedOff = false → g.vg.inflt = false →
      clnupBody v { g.vg with inflt := true } = some s' → Step v g ⟨s', g.calls ++ [s'.cleaner]⟩
  | cleanReserved {s' : State} (i : Nat) : g.calls[i]? = some .reserved →
      clnupBody v g.vg = some s' → Step v g ⟨s', g.calls.set i s'.cleaner⟩
  | cleanEnd (i : Nat) : g.calls[i]? = some .written →
      Step v g ⟨mvhld { g.vg with inflt := false, cleaner := .out }, g.calls.set i .out⟩

/-- The callers of `hd_ca_clnup` have the lock of the volume group and keep it
while they sleep: a call is made only when those before it have returned. -/
def Serial (v : Layout) (g g' : Group) : Prop :=
  Step v g g' ∧ (g'.calls.length ≠ g.calls.length → ∀ x ∈ g.calls, x = .out)

/-- Cache writes under way, as one, and calls that take the record for their own. -/
def owners (g : Group) : Nat :=
  (if g.vg.infltCnt = 0 then 0 else 1) + g.calls.countP Cleaner.owns

def start (size : Nat) (left : Ptr → BitVec 32 × Nat) (disk : Pv → Ptr → BitVec 32 × Nat)
    (missing : Pv → Bool) : Group :=
  ⟨Mwc.start size left disk missing, []⟩

end Group

variable {v : Layout} {n : Nat} {s s' t : State} {i lb : Lb} {p : Pv} {g g' : Group}

/-! ## What scheduling leaves alone -/

/-- The record, the writes under way and the cleaner are the same. -/
structure Apart (s s' : State) : Prop where
  part1 : s'.ca.part1 = s.ca.part1
  flight : s'.flight = s.flight
  cleaner : s'.cleaner = s.cleaner

namespace Apart

theorem refl (s : State) : Apart s s := ⟨rfl, rfl, rfl⟩

theorem trans (h : Apart s s') (h' : Apart s' t) : Apart s t :=
  ⟨h'.part1.trans h.part1, h'.flight.trans h.flight, h'.cleaner.trans h.cleaner⟩

theorem terminateAll (l : List Lb) (s : State) : Apart s (l.foldl State.terminate s) := by
  induction l generalizing s with
  | nil => exact refl s
  | cons lb l ih =>
    have h : Apart s (s.terminate lb) := ⟨rfl, rfl, rfl⟩
    exact h.trans (ih _)

theorem mvhld (s : State) : Apart s (mvhld s) := by
  unfold Mwc.mvhld
  split_ifs
  · have h := terminateAll s.caHld s
    exact ⟨h.part1, h.flight, h.cleaner⟩
  · exact ⟨rfl, rfl, rfl⟩

theorem caTerm (hc : caTerm lb s = some s') : Apart s s' := by
  have hu : ∀ e, Apart s (s.uncount lb e) := fun _ => ⟨rfl, rfl, rfl⟩
  by_cases h0 : s.entry lb = 0
  · unfold Mwc.caTerm at hc
    simp [h0] at hc
  · rcases caTerm_cases s h0 with h | h
    · rw [h] at hc
      cases hc
      exact hu _
    · rw [h] at hc
      cases hc
      exact (hu _).trans (mvhld _)

theorem skedOne (hc : skedOne lb s = some s') : Apart s s' := by
  have hu : Apart s (s.unref lb) := ⟨rfl, rfl, rfl⟩
  rw [skedOne_eq] at hc
  split_ifs at hc
  · obtain ⟨s₁, h₁, rfl⟩ := Option.map_eq_some_iff.mp hc
    have ht := hu.trans (caTerm h₁)
    exact ⟨ht.part1, ht.flight, ht.cleaner⟩
  · obtain rfl := Option.some.inj hc
    exact ⟨rfl, rfl, rfl⟩
  · obtain rfl := Option.some.inj hc
    exact hu

theorem skedLoop {l : List Lb} (hc : skedLoop l s = some s') : Apart s s' := by
  induction l generalizing s with
  | nil =>
    obtain rfl := Option.some.inj hc
    exact refl _
  | cons lb l ih =>
    rw [Mwc.skedLoop] at hc
    obtain ⟨s₁, h₁, h₂⟩ := Option.bind_eq_some_iff.mp hc
    exact (skedOne h₁).trans (ih h₂)

theorem sked (hc : sked p s = some s') : Apart s s' := by
  have h := skedLoop hc
  exact ⟨h.part1, h.flight, h.cleaner⟩

end Apart

/-- A cache write that comes back changes neither the record nor the other writes. -/
theorem wendDone_apart (hc : wendDone p s = some s') :
    s'.ca.part1 = s.ca.part1 ∧ s'.flight = s.flight := by
  unfold wendDone at hc
  obtain ⟨s₁, h₁, rfl⟩ := Option.map_eq_some_iff.mp hc
  have h := Apart.sked h₁
  have hset : (s₁.ca.settle s₁.ca.size s₁.ca.lst).part1 = s.ca.part1 :=
    (Steady.settle_part1 _ _ _).trans h.part1
  dsimp only
  split_ifs
  · split
    · exact ⟨hset, h.flight⟩
    · exact ⟨hset, h.flight⟩
    · have hm := Apart.mvhld { s₁ with
        infltCnt := s₁.infltCnt - 1
        inflt := false
        ca := s₁.ca.settle s₁.ca.size s₁.ca.lst }
      exact ⟨hm.part1.trans hset, hm.flight.trans h.flight⟩
  · exact ⟨h.part1, h.flight⟩

/-- While the cache is in flight a request is counted in an entry that is written
already, or it is held. -/
theorem ckcach_inflt (hin : s.inflt = true) (hc : ckcach v lb s = some s') :
    s'.ca.part1 = s.ca.part1 ∧ s'.flight = s.flight := by
  unfold ckcach at hc
  dsimp only at hc
  split_ifs at hc
  · obtain rfl := Option.some.inj hc
    exact ⟨Steady.useHead_part1 _ _ _, rfl⟩
  · obtain rfl := Option.some.inj hc
    exact ⟨rfl, rfl⟩
  · obtain rfl := Option.some.inj hc
    exact ⟨rfl, rfl⟩

/-- A cache write is with the disk driver, or it has failed and the status areas
do not yet tell of it. -/
def State.Busy (s : State) : Prop := ∃ p, s.flight p ≠ none ∨ s.onWheel p = true

theorem Inv.busy (h : Inv v n s 0 []) (hb : s.Busy) : 0 < s.infltCnt := by
  obtain ⟨p, hp⟩ := hb
  rw [h.recorded.busy, add_zero]
  exact Finset.card_pos.mpr ⟨p, Finset.mem_filter.mpr ⟨Finset.mem_univ p, hp⟩⟩

/-- While a write is under way, a step leaves the record as it is and starts no write. -/
theorem Inv.record_kept (h : Inv v n s 0 []) (hs : Step v s s') (hb : s.Busy) :
    s'.ca.part1 = s.ca.part1 ∧ ∀ q, s'.flight q ≠ none → s'.flight q = s.flight q := by
  have h0 := h.busy hb
  obtain ⟨hin, hvg, -⟩ := h.recorded.inflt h0
  have hcl : ¬(s.cleaner = .reserved ∨ s.cleaner = .written) :=
    fun hr => h0.ne' (h.recorded.reserved hr).1
  have hup : ∀ p q, Function.update s.flight p none q ≠ none →
      Function.update s.flight p none q = s.flight q := by
    intro p q hq
    by_cases hqp : q = p
    · rw [hqp, Function.update_self] at hq
      exact absurd rfl hq
    · exact Function.update_of_ne hqp _ _
  cases hs with
  | arrive b => exact ⟨rfl, fun _ _ => rfl⟩
  | check lb hp hal hap hc =>
    have hk := ckcach_inflt (s := { s with pendingQ := s.pendingQ.erase lb }) hin hc
    exact ⟨hk.1, fun q _ => congrFun hk.2 q⟩
  | write =>
    unfold Mwc.caWrt
    rw [if_neg (by rw [hvg]; decide)]
    exact ⟨rfl, fun _ _ => rfl⟩
  | written p r hf hw =>
    have hk := wendDone_apart hw
    exact ⟨hk.1, hk.2 ▸ hup p⟩
  | failed p hf => exact ⟨rfl, hup p⟩
  | failedClosing p hf hw =>
    have hk := wendDone_apart hw
    exact ⟨hk.1, hk.2 ▸ hup p⟩
  | wheelDone p hf hw =>
    have hk := wendDone_apart hw
    exact ⟨hk.1, fun q _ => congrFun hk.2 q⟩
  | terminate lb ha hc =>
    have hk := Apart.caTerm hc
    exact ⟨hk.part1, fun q _ => congrFun hk.flight q⟩
  | lose p => exact ⟨rfl, fun _ _ => rfl⟩
  | forceOff => exact ⟨rfl, fun _ _ => rfl⟩
  | cleanWait ho hoff hin' => exact ⟨rfl, fun _ _ => rfl⟩
  | clean ho hoff hin' hc =>
    rw [hin] at hin'
    cases hin'
  | cleanReserved hr hc => exact absurd (.inl hr) hcl
  | cleanEnd hr => exact absurd (.inr hr) hcl

/-! ## One call at a time -/

/-- All calls but one have returned, and the cleaner of the volume group is that one. -/
def Sole (c : Cleaner) (calls : List Cleaner) : Prop :=
  calls = [] ∧ c = .out ∨
    ∃ pre post, calls = pre ++ c :: post ∧ ∀ x ∈ pre ++ post, x = .out

namespace Sole

variable {c x : Cleaner} {calls : List Cleaner}

theorem append (c : Cleaner) (h : ∀ x ∈ calls, x = .out) : Sole c (calls ++ [c]) :=
  .inr ⟨calls, [], rfl, by simpa using h⟩

theorem eq_out (h : Sole c calls) (hall : ∀ x ∈ calls, x = .out) : c = .out := by
  rcases h with ⟨-, hc⟩ | ⟨pre, post, rfl, -⟩
  · exact hc
  · exact hall c (by simp)

/-- A call that has not returned is the one, and may change its state. -/
theorem set {i : Nat} (h : Sole c calls) (hi : calls[i]? = some x) (hx : x ≠ .out) :
    c = x ∧ ∀ c', Sole c' (calls.set i c') := by
  rcases h with ⟨rfl, -⟩ | ⟨pre, post, rfl, hall⟩
  · simp at hi
  · have hlen : i = pre.length := by
      by_contra hne
      apply hx
      rcases Nat.lt_or_gt_of_ne hne with hlt | hgt
      · rw [List.getElem?_append_left hlt] at hi
        exact hall x (List.mem_append_left _ (List.mem_of_getElem? hi))
      · rw [List.getElem?_append_right hgt.le,
          List.getElem?_cons, if_neg (Nat.sub_ne_zero_of_lt hgt)] at hi
        exact hall x (List.mem_append_right _ (List.mem_of_getElem? hi))
    subst hlen
    rw [List.getElem?_append_right le_rfl, Nat.sub_self, List.getElem?_cons_zero] at hi
    refine ⟨Option.some.inj hi, fun c' => .inr ⟨pre, post, ?_, hall⟩⟩
    rw [List.set_append_right _ _ le_rfl, Nat.sub_self, List.set_cons_zero]

theorem any_asleep (h : Sole c calls) : calls.any Cleaner.asleep = c.asleep := by
  rcases h with ⟨rfl, rfl⟩ | ⟨pre, post, rfl, hall⟩
  · rfl
  · have hout : ∀ x ∈ pre ++ post, x.asleep = false := fun x hx => by rw [hall x hx]; rfl
    rw [Bool.eq_iff_iff, List.any_eq_true]
    constructor
    · rintro ⟨x, hx, ha⟩
      rcases List.mem_append.mp hx with hx | hx
      · rw [hout x (List.mem_append_left _ hx)] at ha
        cases ha
      · rcases List.mem_cons.mp hx with rfl | hx
        · exact ha
        · rw [hout x (List.mem_append_right _ hx)] at ha
          cases ha
    · exact fun ha => ⟨c, by simp, ha⟩

theorem awaken (h : Sole c calls) : Sole c.awaken (calls.map Cleaner.awaken) := by
  rcases h with ⟨rfl, rfl⟩ | ⟨pre, post, rfl, hall⟩
  · exact .inl ⟨rfl, rfl⟩
  · refine .inr ⟨pre.map Cleaner.awaken, post.map Cleaner.awaken, by simp, ?_⟩
    rw [← List.map_append]
    intro x hx
    obtain ⟨y, hy, rfl⟩ := List.mem_map.mp hx
    rw [hall y hy]
    rfl

theorem countP_owns (h : Sole c calls) :
    calls.countP Cleaner.owns = if c.owns then 1 else 0 := by
  rcases h with ⟨rfl, rfl⟩ | ⟨pre, post, rfl, hall⟩
  · rfl
  · have hz : (pre ++ post).countP Cleaner.owns = 0 := by
      rw [List.countP_eq_zero]
      intro x hx
      rw [hall x hx]
      decide
    rw [List.countP_append] at hz
    rw [List.countP_append, List.countP_cons]
    omega

end Sole

/-- The end of a cache write as the model with one cleaner has it. -/
theorem Group.wendDone_sole {calls : List Cleaner} (hw : Group.wendDone p s calls = some g')
    (h : Sole s.cleaner calls) :
    Mwc.wendDone p s = some g'.vg ∧ Sole g'.vg.cleaner g'.calls := by
  unfold Group.wendDone at hw
  obtain ⟨s₁, h₁, rfl⟩ := Option.map_eq_some_iff.mp hw
  have hcl := (Apart.sked h₁).cleaner
  have hany := h.any_asleep
  rw [← hcl] at h hany
  unfold Mwc.wendDone
  rw [h₁]
  dsimp only [Option.map_some]
  split_ifs with h0 ha
  · rw [hany] at ha
    refine ⟨congrArg some ?_, h.awaken⟩
    cases hc : s₁.cleaner with
    | waiting => rfl
    | writing => rfl
    | out => rw [hc] at ha; cases ha
    | reserved => rw [hc] at ha; cases ha
    | written => rw [hc] at ha; cases ha
  · rw [hany] at ha
    have hm := (Apart.mvhld { s₁ with
      infltCnt := s₁.infltCnt - 1
      inflt := false
      ca := s₁.ca.settle s₁.ca.size s₁.ca.lst }).cleaner
    refine ⟨congrArg some ?_, ?_⟩
    · cases hc : s₁.cleaner with
      | waiting => rw [hc] at ha; exact absurd rfl ha
      | writing => rw [hc] at ha; exact absurd rfl ha
      | out => rfl
      | reserved => rfl
      | written => rfl
    · change Sole (mvhld _).cleaner calls
      rw [hm]
      exact h
  · exact ⟨rfl, h⟩

theorem ckcach_cleaner (hc : ckcach v lb s = some s') : s'.cleaner = s.cleaner := by
  have hq : ∀ {u rc w}, pvque v lb u = (rc, w) → w.cleaner = u.cleaner := by
    intro u rc w hp
    rcases pvque_spec v lb u with ⟨fr, h, -⟩ | ⟨rc', fr, pb, m, h, -⟩
    · rw [h] at hp
      obtain rfl := (Prod.mk.inj hp).2
      rfl
    · rw [h] at hp
      obtain rfl := (Prod.mk.inj hp).2
      rfl
  unfold ckcach at hc
  dsimp only at hc
  split_ifs at hc with h0 hchg hin hin
  · obtain rfl := Option.some.inj hc
    rfl
  · obtain rfl := Option.some.inj hc
    rfl
  · cases hp : pvque v lb s with
    | mk rc w =>
      rw [hp] at hc
      cases rc with
      | success | lbhold | failure =>
        obtain rfl := Option.some.inj hc
        have hw := hq hp
        exact hw
  · obtain rfl := Option.some.inj hc
    rfl
  · obtain ⟨⟨o, ca⟩, -, hc⟩ := Option.bind_eq_some_iff.mp hc
    cases o with
    | none =>
      obtain rfl := Option.some.inj hc
      rfl
    | some e =>
      dsimp only at hc
      cases hp : pvque v lb { s with ca := ca, full := false } with
      | mk rc w =>
        rw [hp] at hc
        cases rc with
        | success | lbhold | failure =>
          obtain rfl := Option.some.inj hc
          have hw := hq hp
          exact hw

/-- Calls that are made one at a time are the cleaner of the model. -/
theorem Group.Serial.simulates (h : Sole g.vg.cleaner g.calls) (hs : Serial v g g') :
    Mwc.Step v g.vg g'.vg ∧ Sole g'.vg.cleaner g'.calls := by
  obtain ⟨hs, hser⟩ := hs
  cases hs with
  | arrive b => exact ⟨.arrive b, h⟩
  | check lb hp hal hap hc => exact ⟨.check lb hp hal hap hc, (ckcach_cleaner hc) ▸ h⟩
  | write =>
    have hcl : (caWrt g.vg).cleaner = g.vg.cleaner := by
      unfold Mwc.caWrt
      split_ifs
      · rfl
      · rfl
    exact ⟨.write, hcl ▸ h⟩
  | written p r hf hw =>
    obtain ⟨hw', h'⟩ := Group.wendDone_sole hw h
    exact ⟨.written p r hf hw', h'⟩
  | failed p hf => exact ⟨.failed p hf, h⟩
  | failedClosing p hf hw =>
    obtain ⟨hw', h'⟩ := Group.wendDone_sole hw h
    exact ⟨.failedClosing p hf hw', h'⟩
  | wheelDone p hf hw =>
    obtain ⟨hw', h'⟩ := Group.wendDone_sole hw h
    exact ⟨.wheelDone p hf hw', h'⟩
  | terminate lb ha hc => exact ⟨.terminate lb ha hc, (Apart.caTerm hc).cleaner ▸ h⟩
  | lose p => exact ⟨.lose p, h⟩
  | forceOff => exact ⟨.forceOff, h⟩
  | cleanWait hoff hin =>
    have hall := hser (by simp)
    exact ⟨.cleanWait (h.eq_out hall) hoff hin, .append _ hall⟩
  | clean hoff hin hc =>
    have hall := hser (by simp)
    exact ⟨.clean (h.eq_out hall) hoff hin hc, .append _ hall⟩
  | cleanReserved i hi hc =>
    obtain ⟨hcl, hset⟩ := h.set hi (by decide)
    exact ⟨.cleanReserved hcl hc, hset _⟩
  | cleanEnd i hi =>
    obtain ⟨hcl, hset⟩ := h.set hi (by decide)
    have hm := (Apart.mvhld { g.vg with inflt := false, cleaner := .out }).cleaner
    exact ⟨.cleanEnd hcl, hm ▸ hset .out⟩

theorem Group.serial_inv (hn : 1 < n) {left : Ptr → BitVec 32 × Nat}
    {disk : Pv → Ptr → BitVec 32 × Nat} {missing : Pv → Bool}
    (hr : ReflTransGen (Serial v) (Group.start n left disk missing) g) :
    Inv v n g.vg 0 [] ∧ Sole g.vg.cleaner g.calls := by
  induction hr with
  | refl => exact ⟨start_inv v hn left disk missing, .inl ⟨rfl, rfl⟩⟩
  | tail _ hs ih =>
    obtain ⟨hs', hsole⟩ := hs.simulates ih.2
    exact ⟨ih.1.step hs', hsole⟩

/-- The writes under way and the calls own the record one at a time, and `CA_INFLT`
is on while one of them does. -/
theorem Inv.owners_le (h : Inv v n g.vg 0 []) (hsole : Sole g.vg.cleaner g.calls) :
    g.owners ≤ 1 ∧ (g.owners = 1 → g.vg.inflt = true) := by
  unfold Group.owners
  rw [hsole.countP_owns]
  cases hc : g.vg.cleaner with
  | reserved =>
    obtain ⟨h0, hin, -⟩ := h.recorded.reserved (.inl hc)
    rw [if_pos h0]
    exact ⟨le_rfl, fun _ => hin⟩
  | written =>
    obtain ⟨h0, hin, -⟩ := h.recorded.reserved (.inr hc)
    rw [if_pos h0]
    exact ⟨le_rfl, fun _ => hin⟩
  | out | waiting | writing =>
    by_cases h0 : g.vg.infltCnt = 0
    · simp [h0, Cleaner.owns]
    · have hin := (h.recorded.inflt (Nat.pos_of_ne_zero h0)).1
      simp [h0, Cleaner.owns, hin]

/-! ## A call while the record is written -/

namespace Group

/-- A call is made while the record is written for a request. -/
def oneWaits : Group := ⟨{ caWrt waiting with cleaner := .waiting }, [.waiting]⟩

theorem Step.serial (hs : Step v g g') (hlen : g'.calls.length = g.calls.length) :
    Serial v g g' := ⟨hs, fun hne => absurd hlen hne⟩

theorem oneWaits_reachable :
    ReflTransGen (Serial twoCopies)
      (start 2 (fun _ => (0, 0)) (fun _ _ => (0, 0)) fun _ => false) oneWaits := by
  have h₁ : Step twoCopies ⟨cold, []⟩ ⟨arrived, []⟩ :=
    .arrive { bDev := 3, bBlkno := 512, bBcount := 4096, read := false }
  have h₂ : Step twoCopies ⟨arrived, []⟩ ⟨waiting, []⟩ := by
    refine .check 0 List.mem_cons_self (by decide) ?_ (eq_some_getD (by decide) _)
    intro i hi
    by_cases h0 : i = 0
    · subst h0
      cases hi
    · have hb : arrived.buf i = cold.buf i := Function.update_of_ne h0 _ _
      dsimp only at hi
      rw [hb] at hi
      cases hi
  have h₃ : Step twoCopies ⟨waiting, []⟩ ⟨caWrt waiting, []⟩ := .write
  have h₄ : Serial twoCopies ⟨caWrt waiting, []⟩ oneWaits := by
    refine ⟨.cleanWait rfl rfl, fun _ x hx => ?_⟩
    cases hx
  exact (((ReflTransGen.single (h₁.serial rfl)).tail (h₂.serial rfl)).tail (h₃.serial rfl)).tail h₄

end Group

/-! ## The ownership of the record -/

/-- While the calls of `hd_ca_clnup` are made one at a time, no step of a run modifies
the record, or starts a write of it, while a write of it is under way, and one agent
at most owns it. -/
theorem record_owned (hn : 1 < n) {left : Ptr → BitVec 32 × Nat}
    {disk : Pv → Ptr → BitVec 32 × Nat} {missing : Pv → Bool}
    (hr : ReflTransGen (Group.Serial v) (Group.start n left disk missing) g) :
    (g.owners ≤ 1 ∧ (g.owners = 1 → g.vg.inflt = true)) ∧
    (∀ p r, g.vg.flight p = some r → r = g.vg.ca.part1) ∧
    ∀ g', Group.Serial v g g' → g.vg.Busy →
      g'.vg.ca.part1 = g.vg.ca.part1 ∧
      ∀ q, g'.vg.flight q ≠ none → g'.vg.flight q = g.vg.flight q := by
  obtain ⟨h, hsole⟩ := Group.serial_inv hn hr
  refine ⟨h.owners_le hsole, fun p r => h.recorded.snapshot, ?_⟩
  intro g' hs hb
  exact h.record_kept (hs.simulates hsole).1 hb

/-- The call that waits does not own the record, the write does. -/
theorem record_owned_waiting : Group.oneWaits.owners = 1 ∧ Group.oneWaits.vg.inflt = true ∧
    ∀ g', Group.Serial twoCopies Group.oneWaits g' →
      g'.vg.ca.part1 = Group.oneWaits.vg.ca.part1 := by
  have ho : Group.oneWaits.owners = 1 := by decide
  have h := record_owned (n := 2) (v := twoCopies) (by decide) Group.oneWaits_reachable
  have hb : Group.oneWaits.vg.Busy := ⟨0, .inl (Option.isSome_iff_ne_none.mp (by decide))⟩
  exact ⟨ho, h.1.2 ho, fun g' hs => (h.2.2 g' hs hb).1⟩

/-! ## Two calls at once -/

namespace Crowd

/-- A second call is made before the first has returned. -/
def bothWait : Group :=
  ⟨{ Group.oneWaits.vg with cleaner := .waiting }, Group.oneWaits.calls ++ [.waiting]⟩

section

local instance neZero_32 : NeZero 32 := ⟨by decide⟩

def firstDone : Group :=
  (Group.wendDone 0 { bothWait.vg with
    flight := Function.update bothWait.vg.flight 0 none
    disk := Function.update bothWait.vg.disk 0 waiting.ca.part1 } bothWait.calls).getD bothWait

/-- Both are awakened. -/
def bothReserved : Group :=
  (Group.wendDone 1 { firstDone.vg with
    flight := Function.update firstDone.vg.flight 1 none
    disk := Function.update firstDone.vg.disk 1 waiting.ca.part1 } firstDone.calls).getD bothWait

end

/-- Call `i` goes on until it sleeps or returns. -/
def goOn (i : Nat) (g : Group) : Group :=
  let s := (clnupBody twoCopies g.vg).getD cold
  ⟨s, g.calls.set i s.cleaner⟩

/-- The first finds nothing to clean. -/
def firstOut : Group := goOn 0 bothReserved

def secondArrived : Group :=
  { firstOut with vg := { firstOut.vg with
    buf := Function.update firstOut.vg.buf 1
      { bDev := 3, bBlkno := 0, bBcount := 4096, read := false }
    next := 2
    pendingQ := [1] } }

def secondWaits : Group :=
  { secondArrived with
    vg := (ckcach twoCopies 1 { secondArrived.vg with pendingQ := [] }).getD cold }

def secondWritten : Group := { secondWaits with vg := caWrt secondWaits.vg }

/-- The record is written for the second request, and the first is terminated. -/
def inFlight : Group :=
  { secondWritten with
    vg := (caTerm 0 { secondWritten.vg with admitted := [], done := [0] }).getD cold }

/-- The second call cleans the entry of the first request. -/
def cleaned : Group := goOn 1 inFlight

theorem bothReserved_reachable :
    ReflTransGen (Group.Step twoCopies) Group.oneWaits bothReserved := by
  have h₁ : Group.Step twoCopies Group.oneWaits bothWait := .cleanWait rfl rfl
  have h₂ : Group.Step twoCopies bothWait firstDone :=
    .written 0 waiting.ca.part1 rfl (eq_some_getD (by decide) _)
  have h₃ : Group.Step twoCopies firstDone bothReserved :=
    .written 1 waiting.ca.part1 rfl (eq_some_getD (by decide) _)
  exact ((ReflTransGen.single h₁).tail h₂).tail h₃

theorem inFlight_reachable : ReflTransGen (Group.Step twoCopies) bothReserved inFlight := by
  have h₁ : Group.Step twoCopies bothReserved firstOut :=
    .cleanReserved 0 (by decide) (eq_some_getD (by decide) _)
  have h₂ : Group.Step twoCopies firstOut secondArrived :=
    .arrive { bDev := 3, bBlkno := 0, bBcount := 4096, read := false }
  have h₃ : Group.Step twoCopies secondArrived secondWaits := by
    refine .check 1 List.mem_cons_self (by decide) ?_ (eq_some_getD (by decide) _)
    intro i hi hm ht
    match i with
    | 0 => exact absurd ht (by decide)
    | 1 => exact absurd hi (by decide)
    | k + 2 =>
      have hbuf : (secondArrived.vg.buf (k + 2)).reqInCach = false := rfl
      rw [hbuf] at hi
      cases hi
  have h₄ : Group.Step twoCopies secondWaits secondWritten := .write
  have h₅ : Group.Step twoCopies secondWritten inFlight :=
    .terminate 0 (by decide) (eq_some_getD (by decide) _)
  exact ((((ReflTransGen.single h₁).tail h₂).tail h₃).tail h₄).tail h₅

/-- A second call that has slept owns the record together with a write of it: it
changes the record and starts another write. -/
theorem record_shared : ∃ g g' : Group,
    ReflTransGen (Group.Step twoCopies)
      (Group.start 2 (fun _ => (0, 0)) (fun _ _ => (0, 0)) fun _ => false) g ∧
    g.owners = 2 ∧ g.vg.flight 0 ≠ none ∧ Group.Step twoCopies g g' ∧
    g'.vg.ca.part1 2 ≠ g.vg.ca.part1 2 ∧
    g'.vg.flight 0 ≠ none ∧ g'.vg.flight 0 ≠ g.vg.flight 0 := by
  have hone := ReflTransGen.mono (p := Group.Step twoCopies) (fun _ _ hs => hs.1)
    _ _ Group.oneWaits_reachable
  refine ⟨inFlight, cleaned, (hone.trans bothReserved_reachable).trans inFlight_reachable,
    by decide, ?_, .cleanReserved 1 (by decide) (eq_some_getD (by decide) _), by decide, ?_, ?_⟩
  · exact Option.isSome_iff_ne_none.mp (by decide)
  · exact Option.isSome_iff_ne_none.mp (by decide)
  · intro heq
    have hput := congrArg (Option.map fun r => (r 2).put) heq
    exact absurd hput (by decide)

end Crowd

end Aix413.Lvm.Mwc
