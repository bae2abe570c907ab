import Aix413.Logredo.BufferPool

namespace Aix413.Logredo.BufferPool

open Aix413.Lib.LinkedPool Aix413.Lib.LinkedRing

variable {α : Type} {v : Vopen} {s s' : State α} {c c' : Nat → Nat → α} {k vol n : Nat}
  {bn : Fdaddr}

/-! ## Calls -/

/-- What a replay does with the pool. -/
inductive Op (α : Type)
  | bread (vol : Nat) (bn : Fdaddr) (update : Bool) (io : Io α)
  | bflush (buf : Nat) (w : Option (Nat → α))
  | store (buf : Nat) (page : Nat → α)

/-- The update of a buffer by the caller. -/
def State.store (s : State α) (buf : Nat) (page : Nat → α) : State α :=
  { s with buffer := Function.update s.buffer buf page }

/-- The contents of the disks with the fragments of a page replaced. -/
def put (v : Vopen) (c : Nat → Nat → α) (vol : Nat) (bn : Fdaddr) (page : Nat → α) :
    Nat → Nat → α :=
  Function.update c vol (fill (c vol) bn.addr (v.length vol bn) page)

/-- One call. Beside the pool goes what the disks hold as modified by all
updates. A buffer is updated where `bread` with `B_UPDATE` returned it. -/
inductive Step (v : Vopen) : State α → (Nat → Nat → α) → Op α → State α → (Nat → Nat → α) → Prop
  | bread {s s' : State α} {c : Nat → Nat → α} {vol : Nat} {bn : Fdaddr} {update : Bool}
      {io : Io α} {r : Except Int Nat} (h : s.bread v vol bn update io = some (s', r)) :
      Step v s c (.bread vol bn update io) s' c
  | bflush {s : State α} {c : Nat → Nat → α} {buf : Nat} {w : Option (Nat → α)}
      (hb : buf < nbufpool - 1) : Step v s c (.bflush buf w) (s.bflush v buf w).1 c
  | store {s : State α} {c : Nat → Nat → α} {buf : Nat} {page : Nat → α}
      (hb : buf < nbufpool - 1) (hu : s.inuse (buf + 1) = true) (hm : s.modify (buf + 1) = true) :
      Step v s c (.store buf page) (s.store buf page)
        (put v c (s.vol (buf + 1)) (s.bn (buf + 1)) page)

/-- The states that a replay comes to by calls that `P` allows. -/
inductive Replayed (v : Vopen) (P : State α → Op α → Prop) :
    State α → (Nat → Nat → α) → Prop
  | start (disk buffer : Nat → Nat → α) : Replayed v P (.initPool disk buffer) disk
  | step {s s' : State α} {c c' : Nat → Nat → α} {o : Op α} (h : Replayed v P s c) (hp : P s o)
      (hs : Step v s c o s' c') : Replayed v P s' c'

/-- Some fragment belongs to both pages. -/
def Overlap (v : Vopen) (vol : Nat) (a b : Fdaddr) : Prop :=
  ∃ x, (a.addr ≤ x ∧ x < a.addr + v.length vol a) ∧ b.addr ≤ x ∧ x < b.addr + v.length vol b

/-- The condition on a call: the fragments that `bread` is asked for are in no
buffer of another page that stays in the pool, unless neither is modified, and
`read` does not fail. -/
def Meets (v : Vopen) (s : State α) : Op α → Prop
  | .bread vol bn update io => io.read = none ∧
      ∀ j, Header j → s.inuse j = true → s.vol j = vol → s.bn j ≠ bn → Overlap v vol (s.bn j) bn →
        (j = s.prev 0 → ∃ k, s.Holds k vol bn) → update = false ∧ s.modify j = false
  | _ => True

/-! ## Every header once -/

theorem Pool.outcome {l : List Nat} {chains : Fin 128 → List Nat} (h : Pool s l chains)
    {update : Bool} {io : Io α} {r : Except Int Nat}
    (hrun : s.bread v vol bn update io = some (s', r)) : Outcome v s vol bn update io s' r := by
  obtain ⟨t, r', hrun', ho⟩ := h.bread v vol bn update io
  obtain ⟨rfl, rfl⟩ := Prod.mk.inj (Option.some.inj (hrun.symm.trans hrun'))
  exact ho

theorem Step.pool {o : Op α} {l : List Nat} {chains : Fin 128 → List Nat} (hs : Step v s c o s' c')
    (h : Pool s l chains) : ∃ l' chains', Pool s' l' chains' := by
  cases hs with
  | bread hrun => exact (h.outcome hrun).pool h
  | bflush _ => exact ⟨_, _, h.bflush v _ _⟩
  | store _ _ _ => exact ⟨_, _, h.congr rfl rfl rfl rfl rfl rfl rfl rfl⟩

theorem Replayed.pool {P : State α → Op α → Prop} (h : Replayed v P s c) :
    ∃ l chains, Pool s l chains := by
  induction h with
  | start disk buffer => exact ⟨_, _, initPool_pool disk buffer⟩
  | step _ _ hs ih =>
    obtain ⟨l, chains, h⟩ := ih
    exact hs.pool h

/-! ## The buffers against the disks -/

/-- Fragment `a` of a volume is in the buffer of header `k`. -/
def State.Covers (s : State α) (v : Vopen) (k vol a : Nat) : Prop :=
  s.vol k = vol ∧ (s.bn k).addr ≤ a ∧ a < (s.bn k).addr + v.length (s.vol k) (s.bn k)

/-- Every buffer holds the contents of its page, the disks hold all that is in
no modified buffer, and a modified buffer has its fragments for itself. -/
structure Coherent (v : Vopen) (s : State α) (c : Nat → Nat → α) : Prop where
  used : ∀ k, Header k → s.modify k = true → s.inuse k = true
  buffer : ∀ k, Header k → s.inuse k = true → ∀ i < v.length (s.vol k) (s.bn k),
    s.buffer (k - 1) i = c (s.vol k) ((s.bn k).addr + i)
  disk : ∀ vol a, (∀ k, Header k → s.inuse k = true → s.modify k = true → ¬s.Covers v k vol a) →
    s.disk vol a = c vol a
  apart : ∀ j k, Header j → Header k → s.inuse j = true → s.inuse k = true →
    s.modify k = true → ∀ vol a, s.Covers v j vol a → s.Covers v k vol a → j = k

theorem fill_in {f g : Nat → α} {a n i : Nat} (h : i < n) : fill f a n g (a + i) = g i := by
  rw [fill, if_pos (by omega), Nat.add_sub_cancel_left]

theorem fill_out {f g : Nat → α} {a n x : Nat} (h : ¬(a ≤ x ∧ x < a + n)) :
    fill f a n g x = f x := if_neg h

/-- `write` of a modified buffer reaches no other fragment. -/
theorem writeOut_disk (s : State α) (v : Vopen) (k : Nat) (w : Option (Nat → α)) {vol a : Nat}
    (h : ¬s.Covers v k vol a) :
    (s.writeOut (k - 1) (s.vol k) (s.bn k).addr (v.length (s.vol k) (s.bn k)) w).disk vol a =
      s.disk vol a := by
  change Function.update s.disk (s.vol k) _ vol a = _
  by_cases hv : vol = s.vol k
  · subst hv
    rw [Function.update_self]
    exact fill_out fun hin => h ⟨rfl, hin⟩
  · rw [Function.update_of_ne hv]

theorem Coherent.writeOut (h : Coherent v s c) (hk : Header k) (hu : s.inuse k = true)
    (hm : s.modify k = true) (w : Option (Nat → α)) :
    Coherent v (s.writeOut (k - 1) (s.vol k) (s.bn k).addr (v.length (s.vol k) (s.bn k)) w) c := by
  refine ⟨h.used, h.buffer, fun vol a hno => ?_, h.apart⟩
  rw [writeOut_disk s v k w (hno k hk hu hm)]
  exact h.disk vol a hno

/-- After a `write` that did not fail, the disk holds the page. -/
theorem Coherent.written (h : Coherent v s c) (hk : Header k) (hu : s.inuse k = true) {a : Nat}
    (hc : s.Covers v k vol a) :
    (s.writeOut (k - 1) (s.vol k) (s.bn k).addr (v.length (s.vol k) (s.bn k)) none).disk vol a =
      c vol a := by
  obtain ⟨rfl, h1, h2⟩ := hc
  change Function.update s.disk (s.vol k) _ (s.vol k) a = _
  rw [Function.update_self]
  obtain ⟨i, rfl⟩ := Nat.exists_eq_add_of_le h1
  rw [fill_in (by omega)]
  exact h.buffer k hk hu i (by omega)

/-- A header whose page is on the disk is given up. -/
theorem Coherent.free (h : Coherent v s c)
    (hd : s.inuse k = true → s.modify k = true → ∀ vol a, s.Covers v k vol a →
      s.disk vol a = c vol a) : Coherent v (s.free k) c := by
  have hne : ∀ {j} {f : Nat → Bool}, Function.update f k false j = true → j ≠ k ∧ f j = true := by
    intro j f hj
    by_cases hjk : j = k
    · rw [hjk, Function.update_self] at hj
      exact Bool.noConfusion hj
    · rw [Function.update_of_ne hjk] at hj
      exact ⟨hjk, hj⟩
  refine ⟨fun j hj hm => ?_, fun j hj hu => h.buffer j hj (hne hu).2, fun vol a hno => ?_,
    fun i j hi hj hui huj hm => h.apart i j hi hj (hne hui).2 (hne huj).2 (hne hm).2⟩
  · exact (Function.update_of_ne (hne hm).1 _ _).trans (h.used j hj (hne hm).2)
  · by_cases hcov : s.inuse k = true ∧ s.modify k = true ∧ s.Covers v k vol a
    · exact hd hcov.1 hcov.2.1 vol a hcov.2.2
    · refine h.disk vol a fun j hj hu hm hc => ?_
      by_cases hjk : j = k
      · subst hjk
        exact hcov ⟨hu, hm, hc⟩
      · exact hno j hj ((Function.update_of_ne hjk _ _).trans hu)
          ((Function.update_of_ne hjk _ _).trans hm) hc

/-- A free header gets a page from the disk. -/
theorem Coherent.fetch (h : Coherent v s c) (hk : Header k) (hu : s.inuse k = false) (vol : Nat)
    (bn : Fdaddr) (update : Bool) (hov : ∀ j, Header j → s.inuse j = true → s.vol j = vol →
      Overlap v vol (s.bn j) bn → update = false ∧ s.modify j = false) :
    Coherent v ((s.enter k vol bn update).readIn (k - 1) vol bn.addr (v.length vol bn) none) c := by
  generalize ht : (s.enter k vol bn update).readIn (k - 1) vol bn.addr (v.length vol bn) none = t
  have hself : t.inuse k = true ∧ t.vol k = vol ∧ t.bn k = bn ∧ t.modify k = update ∧
      t.buffer (k - 1) = fill (s.buffer (k - 1)) 0 (v.length vol bn)
        fun i => s.disk vol (bn.addr + i) := by
    subst ht
    exact ⟨Function.update_self _ _ _, Function.update_self _ _ _, Function.update_self _ _ _,
      Function.update_self _ _ _, Function.update_self _ _ _⟩
  have hother : ∀ j, j ≠ k → t.inuse j = s.inuse j ∧ t.vol j = s.vol j ∧ t.bn j = s.bn j ∧
      t.modify j = s.modify j := by
    subst ht
    exact fun j hj => ⟨Function.update_of_ne hj _ _, Function.update_of_ne hj _ _,
      Function.update_of_ne hj _ _, Function.update_of_ne hj _ _⟩
  have hbuf : ∀ j, Header j → j ≠ k → t.buffer (j - 1) = s.buffer (j - 1) := by
    subst ht
    intro j hj hjk
    refine Function.update_of_ne ?_ _ _
    have h1 := hj.1
    have h2 := hk.1
    omega
  have hdisk : t.disk = s.disk := by
    subst ht
    rfl
  have hcov : ∀ {j vol a}, j ≠ k → t.Covers v j vol a → s.Covers v j vol a := by
    intro j vol a hj hc
    unfold State.Covers at hc ⊢
    rwa [(hother j hj).2.1, (hother j hj).2.2.1] at hc
  have hcovk : ∀ {x a}, t.Covers v k x a →
      vol = x ∧ bn.addr ≤ a ∧ a < bn.addr + v.length vol bn := by
    intro x a hc
    unfold State.Covers at hc
    rwa [hself.2.1, hself.2.2.1] at hc
  -- a page of the pool that has a fragment of the new one
  have hmeet : ∀ {j x a}, Header j → j ≠ k → t.inuse j = true → t.Covers v j x a →
      t.Covers v k x a → update = false ∧ s.modify j = false := by
    intro j x a hj hjk hu' hc hck
    obtain ⟨rfl, h1, h2⟩ := hcovk hck
    obtain ⟨hv, h3, h4⟩ := hcov hjk hc
    rw [(hother j hjk).1] at hu'
    rw [hv] at h4
    exact hov j hj hu' hv ⟨a, ⟨h3, h4⟩, h1, h2⟩
  refine ⟨fun j hj hm => ?_, fun j hj hu' i hi => ?_, fun x a hno => ?_,
    fun i j hi hj hui huj hmj x a hci hcj => ?_⟩
  · by_cases hjk : j = k
    · subst hjk
      exact hself.1
    · rw [(hother j hjk).2.2.2] at hm
      exact (hother j hjk).1.trans (h.used j hj hm)
  · by_cases hjk : j = k
    · subst hjk
      rw [hself.2.1, hself.2.2.1] at hi ⊢
      rw [hself.2.2.2.2]
      have hin := fill_in (f := s.buffer (j - 1)) (a := 0)
        (g := fun i => s.disk vol (bn.addr + i)) hi
      rw [Nat.zero_add] at hin
      rw [hin]
      refine h.disk vol _ fun m hm hum hmm hc => ?_
      obtain ⟨hv, h3, h4⟩ := hc
      rw [hv] at h4
      have hno := (hov m hm hum hv ⟨_, ⟨h3, h4⟩, Nat.le_add_right _ _, Nat.add_lt_add_left hi _⟩).2
      exact Bool.false_ne_true (hno.symm.trans hmm)
    · rw [(hother j hjk).1] at hu'
      rw [(hother j hjk).2.1, (hother j hjk).2.2.1] at hi ⊢
      rw [hbuf j hj hjk]
      exact h.buffer j hj hu' i hi
  · rw [hdisk]
    refine h.disk x a fun j hj huj hmj hc => ?_
    have hjk : j ≠ k := by
      rintro rfl
      exact Bool.false_ne_true (hu.symm.trans huj)
    obtain ⟨h1, h2, h3, h4⟩ := hother j hjk
    refine hno j hj (h1.trans huj) (h4.trans hmj) ?_
    unfold State.Covers
    rw [h2, h3]
    exact hc
  · by_cases hik : i = k <;> by_cases hjk : j = k
    · rw [hik, hjk]
    · subst hik
      have hno := (hmeet hj hjk huj hcj hci).2
      rw [(hother j hjk).2.2.2] at hmj
      exact absurd (hno.symm.trans hmj) Bool.false_ne_true
    · subst hjk
      have hno := (hmeet hi hik hui hci hcj).1
      rw [hself.2.2.2.1] at hmj
      exact absurd (hno.symm.trans hmj) Bool.false_ne_true
    · rw [(hother i hik).1] at hui
      rw [(hother j hjk).1] at huj
      rw [(hother j hjk).2.2.2] at hmj
      exact h.apart i j hi hj hui huj hmj x a (hcov hik hci) (hcov hjk hcj)

theorem Coherent.congr {t : State α} (h : Coherent v s c) (hm : t.modify = s.modify)
    (hu : t.inuse = s.inuse) (hv : t.vol = s.vol) (hb : t.bn = s.bn) (hbuf : t.buffer = s.buffer)
    (hd : t.disk = s.disk) : Coherent v t c := by
  have hcov : ∀ k vol a, t.Covers v k vol a ↔ s.Covers v k vol a := by
    intro k vol a
    rw [State.Covers, State.Covers, hv, hb]
  refine ⟨?_, ?_, fun vol a hno => ?_, fun i j hi hj hui huj hmj x a hci hcj => ?_⟩
  · rw [hm, hu]
    exact h.used
  · rw [hu, hv, hb, hbuf]
    exact h.buffer
  · rw [hd]
    refine h.disk vol a fun k hk huk hmk hc => ?_
    exact hno k hk (by rwa [hu]) (by rwa [hm]) ((hcov k vol a).mpr hc)
  · rw [hu] at hui huj
    rw [hm] at hmj
    exact h.apart i j hi hj hui huj hmj x a ((hcov i x a).mp hci) ((hcov j x a).mp hcj)

theorem Coherent.toFront (h : Coherent v s c) (k : Nat) : Coherent v (s.toFront k) c :=
  h.congr rfl rfl rfl rfl rfl rfl

theorem Coherent.evict (h : Coherent v s c) (hk : Header k) :
    Coherent v ((s.evict v k).free k) c := by
  have hfront := h.toFront k
  have hlist : ∀ {t : State α}, Coherent v (t.free k) c →
      Coherent v ((if t.inuse k = true then t.unhash k else t).free k) c := by
    intro t ht
    split
    · exact ht.congr rfl rfl rfl rfl rfl rfl
    · exact ht
  unfold State.evict
  dsimp only
  refine hlist ?_
  split
  · rename_i hd
    obtain ⟨hu, hm⟩ := Bool.and_eq_true_iff.mp hd
    exact (hfront.writeOut hk hu hm none).free fun _ _ vol a hc => hfront.written hk hu hc
  · rename_i hd
    exact hfront.free fun hu hm => absurd (Bool.and_eq_true_iff.mpr ⟨hu, hm⟩) hd

theorem Coherent.found (h : Coherent v s c) {j : Nat} (hj : s.Holds j vol bn) {update : Bool}
    (hov : ∀ i, Header i → s.inuse i = true → s.vol i = vol → s.bn i ≠ bn →
      Overlap v vol (s.bn i) bn → update = false ∧ s.modify i = false)
    (honce : ∀ i, s.Holds i vol bn → i = j) :
    Coherent v { s with modify := Function.update s.modify j (s.modify j || update) } c := by
  have hold : ∀ {k}, s.modify k = true →
      Function.update s.modify j (s.modify j || update) k = true := by
    intro k hm
    by_cases hkj : k = j
    · subst hkj
      rw [Function.update_self, hm, Bool.true_or]
    · rw [Function.update_of_ne hkj]
      exact hm
  refine ⟨fun k hk hm => ?_, h.buffer, fun vol a hno => ?_,
    fun i k hi hk hui huk hm x a hci hck => ?_⟩
  · by_cases hkj : k = j
    · subst hkj
      exact hj.2.1
    · exact h.used k hk ((Function.update_of_ne hkj _ _).symm.trans hm)
  · exact h.disk vol a fun k hk hu hm => hno k hk hu (hold hm)
  · by_cases hkj : k = j
    · subst hkj
      by_contra hik
      have hm : (s.modify k || update) = true := (Function.update_self _ _ _).symm.trans hm
      have hv : s.vol i = vol := hci.1.trans (hck.1.symm.trans hj.2.2.1)
      have hne : s.bn i ≠ bn := fun hb => hik (honce i ⟨hi, hui, hv, hb⟩)
      obtain ⟨hvk, hk1, hk2⟩ := hck
      obtain ⟨-, hi1, hi2⟩ := hci
      rw [hv] at hi2
      rw [hj.2.2.1, hj.2.2.2] at hk2
      rw [hj.2.2.2] at hk1
      have hno := hov i hi hui hv hne ⟨a, ⟨hi1, hi2⟩, hk1, hk2⟩
      rw [hno.1, Bool.or_false] at hm
      refine hik (h.apart i k hi hk hui huk hm vol a ⟨hv, hi1, by rwa [hv]⟩ ⟨hj.2.2.1, ?_, ?_⟩)
      · rwa [hj.2.2.2]
      · rwa [hj.2.2.1, hj.2.2.2]
    · exact h.apart i k hi hk hui huk ((Function.update_of_ne hkj _ _).symm.trans hm) x a hci hck

theorem Coherent.store (h : Coherent v s c) {buf : Nat} (hk : Header (buf + 1))
    (hu : s.inuse (buf + 1) = true) (hm : s.modify (buf + 1) = true) (page : Nat → α) :
    Coherent v (s.store buf page) (put v c (s.vol (buf + 1)) (s.bn (buf + 1)) page) := by
  have hin : ∀ {a}, s.Covers v (buf + 1) (s.vol (buf + 1)) a →
      put v c (s.vol (buf + 1)) (s.bn (buf + 1)) page (s.vol (buf + 1)) a =
        page (a - (s.bn (buf + 1)).addr) := by
    rintro a ⟨-, h1, h2⟩
    rw [put, Function.update_self, fill, if_pos ⟨h1, h2⟩]
  have hout : ∀ {vol a}, ¬s.Covers v (buf + 1) vol a →
      put v c (s.vol (buf + 1)) (s.bn (buf + 1)) page vol a = c vol a := by
    intro vol a hc
    unfold put
    by_cases hv : vol = s.vol (buf + 1)
    · subst hv
      rw [Function.update_self]
      exact fill_out fun hin => hc ⟨rfl, hin⟩
    · rw [Function.update_of_ne hv]
  refine ⟨h.used, fun k hk' hu' i hi => ?_, fun vol a hno => ?_, h.apart⟩
  · change s.inuse k = true at hu'
    change i < v.length (s.vol k) (s.bn k) at hi
    change Function.update s.buffer buf page (k - 1) i = put _ _ _ _ _ (s.vol k) ((s.bn k).addr + i)
    have hself : s.Covers v k (s.vol k) ((s.bn k).addr + i) :=
      ⟨rfl, Nat.le_add_right _ _, Nat.add_lt_add_left hi _⟩
    by_cases hkb : k = buf + 1
    · subst hkb
      rw [hin hself, Nat.add_sub_cancel, Function.update_self, Nat.add_sub_cancel_left]
    · have hne : k - 1 ≠ buf := by
        have := hk'.1
        omega
      rw [Function.update_of_ne hne, h.buffer k hk' hu' i hi, hout]
      intro hc
      exact hkb (h.apart k (buf + 1) hk' hk hu' hu hm _ _ hself hc)
  · rw [hout (hno (buf + 1) hk hu hm)]
    exact h.disk vol a hno

theorem Coherent.bflush (h : Coherent v s c) {buf : Nat} (hk : Header (buf + 1))
    (w : Option (Nat → α)) : Coherent v (s.bflush v buf w).1 c := by
  unfold State.bflush
  dsimp only
  split
  · exact h
  · rename_i hm
    have hm := Bool.not_eq_false _ ▸ hm
    exact h.writeOut hk (h.used _ hk hm) hm w

/-! ## Runs -/

theorem Outcome.coherent {l : List Nat} {chains : Fin 128 → List Nat} {update : Bool} {io : Io α}
    {r : Except Int Nat} (ho : Outcome v s vol bn update io s' r) (h : Coherent v s c)
    (hp : Pool s l chains) (hmeets : Meets v s (.bread vol bn update io)) : Coherent v s' c := by
  obtain ⟨hread, hov⟩ := hmeets
  cases ho with
  | bad => exact h
  | @found j hj =>
    have hone := h.found hj (fun i hi hu hv hne ho => hov i hi hu hv hne ho fun _ => ⟨j, hj⟩)
      fun i hi => hp.once i j hi.1 hj.1 hi.2.1 hj.2.1 (hi.2.2.1.trans hj.2.2.1.symm)
        (hi.2.2.2.trans hj.2.2.2.symm)
    exact hone.congr rfl rfl rfl rfl rfl rfl
  | unwritten hk hu hm =>
    exact (h.toFront _).writeOut hk hu hm _
  | fetched hno =>
    have hk := hp.victim
    obtain ⟨hinuse, hmodify, hvol, hbn, -⟩ := evict_fields s v (s.prev 0)
    have hin := (h.evict hk).fetch hk (Function.update_self _ _ _) vol bn
      update (by
        intro j hj hu hv ho
        change Function.update (s.evict v (s.prev 0)).inuse (s.prev 0) false j = true at hu
        change (s.evict v (s.prev 0)).vol j = vol at hv
        change Overlap v vol ((s.evict v (s.prev 0)).bn j) bn at ho
        change update = false ∧
          Function.update (s.evict v (s.prev 0)).modify (s.prev 0) false j = false
        by_cases hjk : j = s.prev 0
        · rw [hjk, Function.update_self] at hu
          exact Bool.noConfusion hu
        · rw [Function.update_of_ne hjk, hinuse] at hu
          rw [Function.update_of_ne hjk, hmodify]
          rw [hvol] at hv
          rw [hbn] at ho
          have hne : s.bn j ≠ bn := fun hb => hno j ⟨hj, hu, hv, hb⟩
          exact hov j hj hu hv hne ho fun heq => absurd heq hjk)
    rw [enter_free, ← hread] at hin
    exact hin

theorem initPool_coherent (v : Vopen) (disk buffer : Nat → Nat → α) :
    Coherent v (State.initPool disk buffer) disk :=
  ⟨fun _ _ hm => Bool.noConfusion hm, fun _ _ hu => Bool.noConfusion hu, fun _ _ _ => rfl,
    fun _ _ _ _ hu => Bool.noConfusion hu⟩

theorem Step.coherent {o : Op α} {l : List Nat} {chains : Fin 128 → List Nat}
    (hs : Step v s c o s' c') (hp : Pool s l chains) (h : Coherent v s c) (hmeets : Meets v s o) :
    Coherent v s' c' := by
  cases hs with
  | bread hrun => exact (hp.outcome hrun).coherent h hp hmeets
  | bflush hb => exact h.bflush ⟨Nat.succ_pos _, by unfold nbufpool at hb ⊢; omega⟩ _
  | store hb hu hm => exact h.store ⟨Nat.succ_pos _, by unfold nbufpool at hb ⊢; omega⟩ hu hm _

theorem Replayed.coherent (h : Replayed v (Meets v) s c) : Coherent v s c := by
  induction h with
  | start disk buffer => exact initPool_coherent v disk buffer
  | step h hp hs ih =>
    obtain ⟨l, chains, hpool⟩ := h.pool
    exact hs.coherent hpool ih hp

/-- `bread` comes back with the buffer of a header that is in use for the page. -/
theorem Outcome.returned {l : List Nat} {chains : Fin 128 → List Nat} {update : Bool} {io : Io α}
    {buf : Nat} (ho : Outcome v s vol bn update io s' (.ok buf)) (hp : Pool s l chains) :
    s'.Holds (buf + 1) vol bn ∧ (update = true → s'.modify (buf + 1) = true) := by
  generalize hr : Except.ok buf = r at ho
  cases ho with
  | bad => cases hr
  | unwritten => cases hr
  | @found j hj =>
    obtain rfl := Except.ok.inj hr
    have hj1 : j - 1 + 1 = j := Nat.sub_add_cancel hj.1.1
    rw [hj1]
    refine ⟨hj, fun hu => ?_⟩
    change Function.update s.modify j (s.modify j || update) j = true
    rw [Function.update_self, hu, Bool.or_true]
  | fetched hno =>
    have hk := hp.victim
    have hbuf : buf = s.prev 0 - 1 := by
      split at hr
      · cases hr
      · exact Except.ok.inj hr
    have hk1 : buf + 1 = s.prev 0 := by
      rw [hbuf]
      exact Nat.sub_add_cancel hk.1
    rw [hk1]
    refine ⟨⟨hk, Function.update_self _ _ _, Function.update_self _ _ _,
      Function.update_self _ _ _⟩, fun hu => ?_⟩
    exact (Function.update_self _ _ _).trans hu

/-- The pool with its contents, up to the order of use. -/
structure Same (s s' : State α) : Prop where
  hnext : s'.hnext = s.hnext
  bhash : s'.bhash = s.bhash
  inuse : s'.inuse = s.inuse
  modify : s'.modify = s.modify
  vol : s'.vol = s.vol
  bn : s'.bn = s.bn
  buffer : s'.buffer = s.buffer

/-- A call that fails leaves the pool as it was. -/
theorem Outcome.failed {update : Bool} {io : Io α} {e : Int}
    (ho : Outcome v s vol bn update io s' (.error e)) (hread : io.read = none) : Same s s' := by
  generalize hr : Except.error e = r at ho
  cases ho with
  | bad => exact ⟨rfl, rfl, rfl, rfl, rfl, rfl, rfl⟩
  | unwritten => exact ⟨rfl, rfl, rfl, rfl, rfl, rfl, rfl⟩
  | found hj => cases hr
  | fetched hno =>
    rw [hread] at hr
    cases hr

/-- The buffers up to one were written. -/
theorem Coherent.flushPool (ws : List (Option (Nat → α))) : ∀ {buf : Nat} {s s' : State α},
    buf + ws.length = nbufpool - 1 → Coherent v s c →
    (∀ k, Header k → k ≤ buf → s.modify k = true → ∀ vol a, s.Covers v k vol a →
      s.disk vol a = c vol a) →
    State.flushPool v ws buf s = (s', 0) → ∀ vol a, s'.disk vol a = c vol a := by
  induction ws with
  | nil =>
    intro buf s s' hlen h hdone hrun vol a
    obtain rfl := (Prod.mk.inj hrun).1
    by_cases hc : ∃ k, Header k ∧ s.modify k = true ∧ s.Covers v k vol a
    · obtain ⟨k, hk, hm, hc⟩ := hc
      refine hdone k hk ?_ hm vol a hc
      have hlt := hk.2
      rw [List.length_nil] at hlen
      omega
    · exact h.disk vol a fun k hk _ hm hc' => hc ⟨k, hk, hm, hc'⟩
  | cons w ws ih =>
    intro buf s s' hlen h hdone hrun
    rw [List.length_cons] at hlen
    have hk : Header (buf + 1) := ⟨Nat.succ_pos _, by unfold nbufpool at hlen ⊢; omega⟩
    have hnext := h.bflush hk w
    rw [State.flushPool] at hrun
    cases hf : s.bflush v buf w with
    | mk t rc =>
      rw [hf] at hrun hnext
      dsimp only at hrun hnext
      by_cases hrc : rc = 0
      · rw [if_neg fun hne => hne hrc] at hrun
        refine ih (by omega) hnext ?_ hrun
        unfold State.bflush at hf
        dsimp only at hf
        by_cases hm : s.modify (buf + 1) = false
        · rw [if_pos hm] at hf
          obtain rfl := (Prod.mk.inj hf).1
          intro k hk' hle hmk
          rcases Nat.lt_succ_iff_lt_or_eq.mp (Nat.lt_succ_of_le hle) with hlt | rfl
          · exact hdone k hk' (Nat.le_of_lt_succ hlt) hmk
          · exact absurd (hm.symm.trans hmk) Bool.false_ne_true
        · rw [if_neg hm] at hf
          have hm := Bool.not_eq_false _ ▸ hm
          obtain ⟨rfl, hw⟩ := Prod.mk.inj hf
          have hw : w = none := by
            cases w with
            | none => rfl
            | some g => exact absurd (hw.trans hrc) (show minorError ≠ 0 by decide)
          subst hw
          have hu := h.used _ hk hm
          intro k hk' hle hmk vol a hc
          by_cases hcov : s.Covers v (buf + 1) vol a
          · exact h.written hk hu hcov
          · have hne : k ≠ buf + 1 := by
              rintro rfl
              exact hcov hc
            exact (writeOut_disk s v (buf + 1) none hcov).trans
              (hdone k hk' (by omega) hmk vol a hc)
      · rw [if_pos hrc] at hrun
        exact absurd (Prod.mk.inj hrun).2 hrc

/-- In a replay where no modified page overlaps another one in the pool and no
`read` fails, `bread` returns the contents of the disks as modified by all
updates, a call that fails leaves the pool as it was, and the flush of all
buffers leaves the disks with these contents. The lru list has every header
once. -/
theorem replay_cache (h : Replayed v (Meets v) s c) :
    (∃ l, IsRing s.next s.prev (0 :: l) ∧ l.Perm (List.range' 1 127)) ∧
    (∀ vol bn update io, Meets v s (.bread vol bn update io) →
      ∃ s' r, s.bread v vol bn update io = some (s', r) ∧
        (∀ buf, r = .ok buf → s'.Holds (buf + 1) vol bn ∧
          (update = true → s'.modify (buf + 1) = true) ∧
          ∀ i < v.length vol bn, s'.buffer buf i = c vol (bn.addr + i)) ∧
        ∀ e, r = .error e → Same s s') ∧
    ∀ ws s', ws.length = nbufpool - 1 → State.flushPool v ws 0 s = (s', 0) →
      ∀ vol a, s'.disk vol a = c vol a := by
  obtain ⟨l, chains, hp⟩ := h.pool
  have hc := h.coherent
  refine ⟨⟨l, hp.ring, hp.perm⟩, fun vol bn update io hmeets => ?_, fun ws s' hlen hrun => ?_⟩
  · obtain ⟨s', r, hrun, ho⟩ := hp.bread v vol bn update io
    have hc' := ho.coherent hc hp hmeets
    refine ⟨s', r, hrun, ?_, ?_⟩
    · rintro buf rfl
      obtain ⟨hh, hm⟩ := ho.returned hp
      refine ⟨hh, hm, fun i hi => ?_⟩
      obtain ⟨hk, hu, rfl, rfl⟩ := hh
      exact hc'.buffer (buf + 1) hk hu i hi
    · rintro e rfl
      exact ho.failed hmeets.1
  · refine hc.flushPool ws (by omega) ?_ hrun
    intro k hk hle
    exact absurd hk.1 (Nat.not_lt.mpr hle)

/-- Volumes of full blocks. -/
def fullBlocks : Vopen := ⟨fun _ => 1, fun _ => some 1000⟩

theorem bread_first (update : Bool) (r : Option (Nat → Nat)) :
    ((State.initPool (fun _ _ => 5) fun _ _ => 0).bread fullBlocks 0 0 update ⟨none, r⟩).map
      Prod.snd = some (if r.isSome then .error minorError else .ok 126) := rfl

theorem replay_cache_first : ∃ s : State Nat,
    (State.initPool (fun _ _ => 5) fun _ _ => 0).bread fullBlocks 0 0 true ⟨none, none⟩ =
      some (s, .ok 126) ∧ s.buffer 126 0 = 5 ∧
    ∀ ws s', ws.length = nbufpool - 1 → State.flushPool fullBlocks ws 0 s = (s', 0) →
      ∀ vol a, s'.disk vol a = 5 := by
  have hstart : Replayed fullBlocks (Meets fullBlocks)
      (State.initPool (fun _ _ => 5) fun _ _ => 0) fun _ _ => 5 := .start _ _
  have hmeets : Meets fullBlocks (State.initPool (fun _ _ => 5) fun _ _ => 0)
      (.bread 0 0 true ⟨none, none⟩) := ⟨rfl, fun _ _ hu => Bool.noConfusion hu⟩
  obtain ⟨s, r, hrun, hok, -⟩ := (replay_cache hstart).2.1 0 0 true ⟨none, none⟩ hmeets
  have hr := bread_first true none
  rw [hrun] at hr
  obtain rfl : r = .ok 126 := Option.some.inj hr
  obtain ⟨-, -, hbuf⟩ := hok 126 rfl
  exact ⟨s, hrun, hbuf 0 (by decide), (replay_cache (hstart.step hmeets (.bread hrun))).2.2⟩

/-- Every buffer that `bread` returns holds the contents of its page. -/
def Serves (v : Vopen) (P : State Nat → Op Nat → Prop) : Prop :=
  ∀ s s' c vol bn update io buf, Replayed v P s c → P s (.bread vol bn update io) →
    s.bread v vol bn update io = some (s', .ok buf) →
    ∀ i < v.length vol bn, s'.buffer buf i = c vol (bn.addr + i)

/-- The transfers of a call are done. -/
def Op.Done : Op α → Prop
  | .bread _ _ _ io => io = ⟨none, none⟩
  | .bflush _ w => w = none
  | .store _ _ => True

/-- A buffer that could not be read is found at the next call, also where one
page only is asked for. -/
theorem unread_found : ¬Serves fullBlocks fun _ o => ∀ vol bn update io,
    o = .bread vol bn update io → vol = 0 ∧ bn = 0 := by
  intro h
  have hpage : ∀ (update : Bool) (io : Io Nat) (vol : Nat) (bn : Fdaddr) (update' : Bool)
      (io' : Io Nat), Op.bread 0 0 update io = .bread vol bn update' io' → vol = 0 ∧ bn = 0 := by
    rintro _ _ _ _ _ _ ⟨⟩
    exact ⟨rfl, rfl⟩
  have hfirst : ((State.initPool (fun _ _ => 5) fun _ _ => 0).bread fullBlocks 0 0 true
      ⟨none, some fun _ => 0⟩).map (fun p => (p.1.bread fullBlocks 0 0 false ⟨none, none⟩).map
        fun p => (p.2, p.1.buffer 126 0)) = some (some (.ok 126, 0)) := rfl
  obtain ⟨⟨s, r⟩, hrun, hnext⟩ := Option.map_eq_some_iff.mp hfirst
  obtain ⟨⟨s', r'⟩, hrun', hend⟩ := Option.map_eq_some_iff.mp hnext
  obtain ⟨rfl, hbuf⟩ := Prod.mk.inj hend
  have hread := h s s' (fun _ _ => 5) 0 0 false ⟨none, none⟩ 126
    ((Replayed.start _ _).step (hpage true _) (.bread hrun)) (hpage false _) hrun' 0 (by decide)
  exact absurd (hbuf.symm.trans hread) (by decide)

/-- Volumes of eight fragments in a block. -/
def eighths : Vopen := ⟨fun _ => 8, fun _ => some 1000⟩

/-- Two pages that overlap have two buffers, also where no transfer fails. -/
theorem overlap_stale : ¬Serves eighths fun _ o => o.Done := by
  intro h
  have hfirst : ((State.initPool (fun _ _ => 0) fun _ _ => 0).bread eighths 0 0 true
      ⟨none, none⟩).map (fun p => (p.2, p.1.inuse 127, p.1.modify 127, p.1.vol 127, p.1.bn 127,
        ((p.1.store 126 fun _ => 1).bread eighths 0 4 false ⟨none, none⟩).map
          fun p => (p.2, p.1.buffer 125 0))) =
      some (.ok 126, true, true, 0, 0, some (.ok 125, 0)) := rfl
  obtain ⟨⟨s, r⟩, hrun, hnext⟩ := Option.map_eq_some_iff.mp hfirst
  simp only [Prod.mk.injEq] at hnext
  obtain ⟨rfl, hu, hm, hv, hb, hnext⟩ := hnext
  obtain ⟨⟨s', r'⟩, hrun', hend⟩ := Option.map_eq_some_iff.mp hnext
  obtain ⟨rfl, hbuf⟩ := Prod.mk.inj hend
  have hreplay : Replayed eighths (fun _ o => o.Done) s _ :=
    (Replayed.start _ _).step (o := .bread 0 0 true ⟨none, none⟩) rfl (.bread hrun)
  have hstored := hreplay.step (o := .store 126 fun _ => 1) trivial (.store (by decide) hu hm)
  have hread := h _ s' _ 0 4 false ⟨none, none⟩ 125 hstored rfl hrun' 0 (by decide)
  rw [hv, hb] at hread
  exact absurd (hbuf.symm.trans hread) (by decide)

theorem replay_cache_fails : (¬Serves fullBlocks fun _ o => ∀ vol bn update io,
    o = .bread vol bn update io → vol = 0 ∧ bn = 0) ∧ ¬Serves eighths fun _ o => o.Done :=
  ⟨unread_found, overlap_stale⟩

end Aix413.Logredo.BufferPool
