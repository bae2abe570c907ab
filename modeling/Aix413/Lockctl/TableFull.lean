import Aix413.Lockctl.Granting

namespace Aix413.Lockctl.TableFull

open LockTable Flckadj LockMap LockPool Placement ScanLemmas Adjust Granting

/-- Entries that can still be taken: the free ones, and those by which the
table can grow. -/
def avail (m : Mem) : Nat := m.frlock.length + (m.nfloxMax - m.vLock)

section Avail

variable {m m' : Mem} {a : Nat}

theorem avail_flockGrow (m : Mem) : avail (flockGrow m) = avail m := by
  unfold avail flockGrow filocksPerPage
  simp only [List.length_append, List.length_reverse, List.length_range']
  omega

/-- The list `takeFree` looks at is empty only when nothing can be taken. -/
theorem takeFree_cases (m : Mem) : (takeFree m = none ∧ avail m = 0) ∨
    ∃ a m', takeFree m = some (a, m') ∧ avail m = avail m' + 1 ∧
      m'.sleeplcks = m.sleeplcks := by
  have hgrow : avail (if m.frlock = [] then flockGrow m else m) = avail m := by
    split
    · exact avail_flockGrow m
    · rfl
  have hsleep : (if m.frlock = [] then flockGrow m else m).sleeplcks = m.sleeplcks := by
    split <;> rfl
  have hempty : (if m.frlock = [] then flockGrow m else m).frlock = [] → avail m = 0 := by
    intro h
    split at h
    next he =>
      have hlen := congrArg List.length h
      simp only [flockGrow, he, List.append_nil, List.length_reverse, List.length_range',
        filocksPerPage, List.length_nil] at hlen
      rw [avail, he, List.length_nil]
      omega
    next he => exact absurd h he
  unfold takeFree
  dsimp only
  generalize (if m.frlock = [] then flockGrow m else m) = n at hgrow hsleep hempty
  cases hfr : n.frlock with
  | nil => exact .inl ⟨rfl, hempty hfr⟩
  | cons a rest =>
    refine .inr ⟨a, { n with frlock := rest }, rfl, ?_, hsleep⟩
    rw [← hgrow]
    unfold avail
    rw [hfr, List.length_cons]
    dsimp only
    omega

theorem takeFree_eq_none (h : avail m = 0) : takeFree m = none := by
  rcases takeFree_cases m with ⟨h', -⟩ | ⟨a, m', -, h', -⟩
  · exact h'
  · omega

theorem takeFree_eq_some (h : 0 < avail m) :
    ∃ a m', takeFree m = some (a, m') ∧ avail m = avail m' + 1 ∧
      m'.sleeplcks = m.sleeplcks := by
  rcases takeFree_cases m with ⟨-, h'⟩ | h'
  · omega
  · exact h'

/-- A wakeup frees the entries of the lock daemon's requests, however many
others are left. -/
theorem avail_lockWakeup {m m' : Mem} (f : Filock) (hs : m'.sleeplcks = m.sleeplcks) :
    avail (lockWakeup m f) + avail m' = avail (lockWakeup m' f) + avail m := by
  unfold lockWakeup avail
  split
  · simp only [wakeAll, List.length_append, hs]
    omega
  · omega

theorem avail_le_lockWakeup (m : Mem) (f : Filock) : avail m ≤ avail (lockWakeup m f) := by
  unfold lockWakeup avail
  split
  · simp only [wakeAll, List.length_append]
    omega
  · exact le_rfl

theorem avail_wakeDelete (m : Mem) (f : Filock) : 0 < avail (wakeDelete m f) := by
  unfold wakeDelete delflck avail
  simp only [List.length_cons]
  omega

end Avail

/-- What `flckadj` makes of the end of its scan. -/
def outcome : Scanned → Result
  | .early m l ld rc => ⟨m, l, ld, rc⟩
  | .insert m l insrtp ld =>
    if ld.lType = .unlck then ⟨m, l, ld, true⟩
    else
      match insflck m l ld (advance ld insrtp l) with
      | none => ⟨m, l, ld, false⟩
      | some (m, l) => ⟨m, l, ld, true⟩

theorem flckadj_eq (m : Mem) (l : List Filock) (i : Option Nat) (ld : Eflock) :
    flckadj m l i ld = outcome (scan ⟨m, (splitAt i l).1, i, ld⟩ (splitAt i l).2) := by
  unfold flckadj outcome
  rfl

section Outcome

variable {m : Mem} {l : List Filock} {i : Option Nat} {ld : Eflock}

theorem outcome_insert (h : 0 < avail m) : (outcome (.insert m l i ld)).rc = true := by
  obtain ⟨a, m', ht, -, -⟩ := takeFree_eq_some h
  simp only [outcome, insflck, ht]
  split <;> rfl

theorem outcome_unlock (h : ld.lType = .unlck) : (outcome (.insert m l i ld)).rc = true := by
  rw [outcome, if_pos h]

/-- No entry is left for the request itself. -/
theorem outcome_full (h : avail m = 0) (hu : ld.lType ≠ .unlck) :
    outcome (.insert m l i ld) = ⟨m, l, ld, false⟩ := by
  rw [outcome, if_neg hu, insflck, takeFree_eq_none h]

end Outcome

section Scan

variable {l rest : List Filock} {s : Scan} {flp : Filock} {r : Eflock}

/-- A request that ends inside a lock which it does not begin inside gets its
entry: at worst that lock's. -/
theorem middle_room (h : 0 < avail s.mem) (flp : Filock) (rest : List Filock) :
    (outcome (middleCase s flp rest false)).rc = true := by
  unfold middleCase
  split
  · exact outcome_insert (avail_wakeDelete _ _)
  · obtain ⟨a, m', ht, -, -⟩ := takeFree_eq_some h
    simp only [splitAfter, ht]
    exact outcome_insert (avail_wakeDelete _ _)

/-- With an entry to spare the rest of the scan does not fail. -/
theorem scan_room (rest : List Filock) : ∀ {s : Scan}, s.ld.lStart ≤ s.ld.lEnd →
    (∀ f ∈ rest, f.set.owner = s.ld.owner → s.ld.lStart ≤ f.set.lStart) → 0 < avail s.mem →
    (outcome (scan s rest)).rc = true := by
  induction rest with
  | nil =>
    intro s _ _ h
    exact outcome_insert h
  | cons flp rest ih =>
    intro s hle hbeyond h
    have hrest : ∀ f ∈ rest, f.set.owner = s.ld.owner → s.ld.lStart ≤ f.set.lStart :=
      fun f hf => hbeyond f (List.mem_cons_of_mem _ hf)
    have hdel := avail_wakeDelete s.mem flp
    rw [scan]
    split
    next hown =>
      have hstart := hbeyond flp List.mem_cons_self ((sameOwner_iff _ _).mp hown)
      split
      next => exact outcome_insert h
      next =>
        split
        · exact outcome_insert hdel
        · exact outcome_insert h
      next =>
        split
        · rfl
        · exact ih hle hrest hdel
      next => exact ih hle hrest hdel
      next =>
        split
        · exact outcome_insert hdel
        · exact ih hle hrest hdel
      next => exact ih hle hrest hdel
      next =>
        split
        · rfl
        · exact middle_room (s := { s with insrtp := prev s.done }) h flp rest
      next hr =>
        have h1 := (regflck_holds hle hr).1
        simp only [startHolds] at h1
        omega
      next => exact middle_room h flp rest
      next hr =>
        have h1 := (regflck_holds hle hr).1
        simp only [startHolds] at h1
        omega
      next hr =>
        have h1 := (regflck_holds hle hr).1
        simp only [startHolds] at h1
        omega
      next hr =>
        have h1 := (regflck_holds hle hr).1
        simp only [startHolds] at h1
        omega
      next => exact ih hle hrest h
      next => exact ih hle hrest h
    next => exact ih hle hrest h

/-- The lock gives its entry back to the request: it ends inside it, or it is
joined to it. -/
def Frees (ld f : Eflock) : Prop :=
  f.owner = ld.owner ∧ (f.lEnd ≤ ld.lEnd ∨ f.lStart ≤ ld.lEnd + 1 ∧ f.lType = ld.lType)

/-- The request ends inside the lock. -/
def Straddles (ld f : Eflock) : Prop :=
  f.owner = ld.owner ∧ f.lStart ≤ ld.lEnd ∧ ld.lEnd < f.lEnd

/-- The request asks for an entry of its own, or for one for the end of a lock. -/
def Needs (ld : Eflock) (l : List Filock) : Prop :=
  ld.lType ≠ .unlck ∨ ∃ f ∈ l, Straddles ld f.set

/-- What the scan of `rest` comes to when nothing is left and the locks ahead
begin behind the start of the request. -/
structure Starved (s : Scan) (rest : List Filock) (x : Result) : Prop where
  freed : (∃ f ∈ rest, Frees s.ld f.set) → x.rc = true
  done : ¬(∃ f ∈ rest, Frees s.ld f.set) → ¬Needs s.ld rest → x.rc = true
  fails : ¬(∃ f ∈ rest, Frees s.ld f.set) → Needs s.ld rest →
    x.rc = false ∧ x.list = s.done ++ rest

/-- The locks of the owner begin behind the request and are not joined to it. -/
def Behind (ld : Eflock) (rest : List Filock) : Prop :=
  ∀ f ∈ rest, f.set.owner = ld.owner → ld.lEnd < f.set.lStart ∧
    (f.set.lType = ld.lType → ld.lEnd + 1 < f.set.lStart) ∧ f.set.lStart ≤ f.set.lEnd

theorem starved_insert (h : avail s.mem = 0) (hnone : Behind s.ld rest) :
    Starved s rest (outcome (.insert s.mem (s.done ++ rest) s.insrtp s.ld)) := by
  have hfrees : ¬∃ f ∈ rest, Frees s.ld f.set := by
    rintro ⟨f, hf, ho, hf'⟩
    obtain ⟨h1, h2, h3⟩ := hnone f hf ho
    rcases hf' with hf' | ⟨hf', ht⟩
    · omega
    · have := h2 ht
      omega
  have hneeds : Needs s.ld rest → s.ld.lType ≠ .unlck := by
    rintro (hu | ⟨f, hf, ho, hf', -⟩)
    · exact hu
    · have := (hnone f hf ho).1
      omega
  refine ⟨fun hf => absurd hf hfrees, fun _ hno => ?_, fun _ hneed => ?_⟩
  · exact outcome_unlock (not_not.mp fun hu => hno (.inl hu))
  · rw [outcome_full h (hneeds hneed)]
    exact ⟨rfl, rfl⟩

theorem starved_freed {x : Result} (hf : Frees s.ld flp.set) (h : x.rc = true) :
    Starved s (flp :: rest) x := by
  have hex : ∃ f ∈ flp :: rest, Frees s.ld f.set := ⟨flp, List.mem_cons_self, hf⟩
  exact ⟨fun _ => h, fun hno => absurd hex hno, fun hno => absurd hex hno⟩

/-- The lock of another owner is passed over. -/
theorem starved_skip {x : Result} (ho : flp.set.owner ≠ s.ld.owner)
    (h : Starved { s with done := s.done ++ [flp] } rest x) : Starved s (flp :: rest) x := by
  have hfrees : (∃ f ∈ flp :: rest, Frees s.ld f.set) ↔ ∃ f ∈ rest, Frees s.ld f.set := by
    rw [List.exists_mem_cons_iff]
    exact or_iff_right fun hf => ho hf.1
  have hneeds : Needs s.ld (flp :: rest) ↔ Needs s.ld rest := by
    rw [Needs, List.exists_mem_cons_iff, Needs]
    exact or_congr_right (or_iff_right fun hf => ho hf.1)
  have hdone : s.done ++ [flp] ++ rest = s.done ++ flp :: rest := by simp
  obtain ⟨h1, h2, h3⟩ := h
  rw [hdone] at h3
  refine ⟨?_, ?_, ?_⟩
  · rw [hfrees]
    exact h1
  · rw [hfrees, hneeds]
    exact h2
  · rw [hfrees, hneeds]
    exact h3

/-- The end of a lock of another type is to be kept: that takes an entry. -/
theorem starved_split (h : avail s.mem = 0) (ho : flp.set.owner = s.ld.owner)
    (h2 : flp.set.lStart ≤ s.ld.lEnd ∧ s.ld.lEnd < flp.set.lEnd)
    (hlater : ∀ f ∈ rest, f.set.owner = s.ld.owner →
      flp.set.lEnd < f.set.lStart ∧ f.set.lStart ≤ f.set.lEnd) :
    Starved s (flp :: rest) (outcome (middleCase s flp rest false)) := by
  unfold middleCase
  split
  next ht =>
    exact starved_freed ⟨ho, .inr ⟨by omega, ht.symm⟩⟩ (outcome_insert (avail_wakeDelete _ _))
  next ht =>
    simp only [splitAfter, takeFree_eq_none h]
    have hneed : Needs s.ld (flp :: rest) := .inr ⟨flp, List.mem_cons_self, ho, h2.1, h2.2⟩
    refine ⟨fun ⟨f, hf, hfo, hfr⟩ => ?_, fun _ hno => absurd hneed hno, fun _ _ => ⟨rfl, rfl⟩⟩
    rcases List.mem_cons.mp hf with rfl | hf
    · rcases hfr with hfr | hfr
      · omega
      · exact absurd hfr.2.symm ht
    · have := hlater f hf hfo
      omega

theorem scan_starved (rest : List Filock) : ∀ {s : Scan}, s.ld.lStart ≤ s.ld.lEnd →
    LockList rest → (∀ f ∈ rest, f.set.owner = s.ld.owner → s.ld.lStart < f.set.lStart) →
    avail s.mem = 0 → Starved s rest (outcome (scan s rest)) := by
  induction rest with
  | nil =>
    intro s _ _ _ h
    have hs := starved_insert (s := s) h (fun f hf => absurd hf List.not_mem_nil)
    rwa [List.append_nil] at hs
  | cons flp rest ih =>
    intro s hle hl hbeyond h
    have hdel := avail_wakeDelete s.mem flp
    have hrest : ∀ f ∈ rest, f.set.owner = s.ld.owner → s.ld.lStart < f.set.lStart :=
      fun f hf => hbeyond f (List.mem_cons_of_mem _ hf)
    have hroom : ∀ f ∈ rest, f.set.owner = s.ld.owner → s.ld.lStart ≤ f.set.lStart :=
      fun f hf hfo => (hrest f hf hfo).le
    rw [scan]
    split
    next hown =>
      have ho := (sameOwner_iff _ _).mp hown
      have hstart := hbeyond flp List.mem_cons_self ho
      have hvalid := (hl.valid flp List.mem_cons_self).start_le_end
      have hlater : ∀ f ∈ rest, f.set.owner = s.ld.owner →
          flp.set.lEnd < f.set.lStart ∧ f.set.lStart ≤ f.set.lEnd := fun f hf hfo =>
        ⟨(((List.pairwise_cons.mp hl.pairs).1 f hf).apart (ho.trans hfo.symm)).1,
          (hl.valid f (List.mem_cons_of_mem _ hf)).start_le_end⟩
      have hbehind : s.ld.lEnd < flp.set.lStart →
          (flp.set.lType = s.ld.lType → s.ld.lEnd + 1 < flp.set.lStart) →
          Behind s.ld (flp :: rest) := by
        intro h1 h2 f hf hfo
        rcases List.mem_cons.mp hf with rfl | hf
        · exact ⟨h1, h2, hvalid⟩
        · have := hlater f hf hfo
          exact ⟨by omega, fun _ => by omega, by omega⟩
      split
      next hr =>
        have h2 := (regflck_holds hle hr).2
        simp only [endHolds] at h2
        exact starved_insert h (hbehind (by omega) fun _ => by omega)
      next hr =>
        have h2 := (regflck_holds hle hr).2
        simp only [endHolds] at h2
        split
        next ht => exact starved_freed ⟨ho, .inr ⟨by omega, ht.symm⟩⟩ (outcome_insert hdel)
        next ht => exact starved_insert h (hbehind (by omega) fun he => absurd he.symm ht)
      next hr =>
        have h1 := (regflck_holds hle hr).1
        simp only [startHolds] at h1
        omega
      next hr =>
        have h1 := (regflck_holds hle hr).1
        simp only [startHolds] at h1
        omega
      next hr =>
        have h2 := (regflck_holds hle hr).2
        simp only [endHolds] at h2
        refine starved_freed ⟨ho, .inl (by omega)⟩ ?_
        split
        · exact outcome_insert hdel
        · exact scan_room rest hle hroom hdel
      next hr =>
        have h2 := (regflck_holds hle hr).2
        simp only [endHolds] at h2
        exact starved_freed ⟨ho, .inl (by omega)⟩ (scan_room rest hle hroom hdel)
      next hr =>
        have h1 := (regflck_holds hle hr).1
        simp only [startHolds] at h1
        omega
      next hr =>
        have h1 := (regflck_holds hle hr).1
        simp only [startHolds] at h1
        omega
      next hr =>
        have h2 := (regflck_holds hle hr).2
        simp only [endHolds] at h2
        exact starved_split h ho h2 hlater
      next hr =>
        have h1 := (regflck_holds hle hr).1
        simp only [startHolds] at h1
        omega
      next hr =>
        have h1 := (regflck_holds hle hr).1
        simp only [startHolds] at h1
        omega
      next hr =>
        have h1 := (regflck_holds hle hr).1
        simp only [startHolds] at h1
        omega
      next hr =>
        have h1 := (regflck_holds hle hr).1
        simp only [startHolds] at h1
        omega
      next hr1 hr2 _ _ hr5 hr6 _ _ hr9 _ _ _ _ =>
        rcases hr : regflck s.ld flp with ⟨x, y⟩
        have h1 := (regflck_holds hle hr).1
        cases x with
        | sBefore =>
          cases y with
          | eBefore => exact (hr1 hr).elim
          | eStart => exact (hr2 hr).elim
          | eMiddle => exact (hr9 hr).elim
          | eEnd => exact (hr5 hr).elim
          | eAfter => exact (hr6 hr).elim
        | sStart => simp only [startHolds] at h1; omega
        | sMiddle => simp only [startHolds] at h1; omega
        | sEnd => simp only [startHolds] at h1; omega
        | sAfter => simp only [startHolds] at h1; omega
    next hown =>
      have ho : flp.set.owner ≠ s.ld.owner := fun he => hown ((sameOwner_iff _ _).mpr he)
      exact starved_skip ho (ih hle (hl.sublist (List.sublist_cons_self _ _)) hrest h)

/-! ## What a failure leaves -/

/-- A failing request leaves every owner's map. -/
def Kept (l : List Filock) (x : Result) : Prop :=
  x.rc = false → ∀ o, lockAt x.list o = lockAt l o

/-- The lock of another type that reaches over the first byte of the request
has its end cut off or taken out, and then the request gets no entry. -/
structure TornBy (m : Mem) (l : List Filock) (r : Eflock) (f : Filock) : Prop where
  owner : f.set.owner = r.owner
  type : f.set.lType ≠ r.lType
  start : f.set.lStart < r.lStart
  reaches : r.lStart ≤ f.set.lEnd
  inside : r.lEnd < f.set.lEnd →
    r.lType ≠ .unlck ∧ avail m = 1 ∧ avail (lockWakeup m f) = 1
  across : f.set.lEnd ≤ r.lEnd → avail (lockWakeup m f) = 0 ∧
    (¬∃ g ∈ l, r.lStart < g.set.lStart ∧ Frees r g.set) ∧
    (r.lType ≠ .unlck ∨ ∃ g ∈ l, r.lStart < g.set.lStart ∧ Straddles r g.set)

def Torn (m : Mem) (l : List Filock) (r : Eflock) : Prop := ∃ f ∈ l, TornBy m l r f

theorem kept_of_rc {x : Result} (h : x.rc = true) : Kept l x :=
  fun hf => absurd (hf.symm.trans h) Bool.false_ne_true

theorem kept_insert (m : Mem) (l : List Filock) (i : Option Nat) (ld : Eflock) :
    Kept l (outcome (.insert m l i ld)) := by
  intro hrc o
  by_cases hm : avail m = 0
  · by_cases hu : ld.lType = .unlck
    · exact absurd (hrc.symm.trans (outcome_unlock hu)) Bool.false_ne_true
    · rw [outcome_full hm hu]
  · exact absurd (hrc.symm.trans (outcome_insert (by omega))) Bool.false_ne_true

theorem kept_middle (flp : Filock) (rest : List Filock) :
    Kept (s.done ++ flp :: rest) (outcome (middleCase s flp rest false)) := by
  by_cases hm : avail s.mem = 0
  · unfold middleCase
    split
    · exact kept_of_rc (outcome_insert (avail_wakeDelete _ _))
    · simp only [splitAfter, takeFree_eq_none hm]
      exact fun _ _ => rfl
  · exact kept_of_rc (middle_room (by omega) flp rest)

variable {m : Mem} {done : List Filock} {i : Option Nat}

/-- No lock of the owner reaches over the first byte of the request. -/
theorem not_torn (h : ∀ f ∈ l, f.set.owner = r.owner → f.set.lType ≠ r.lType →
    f.set.lStart < r.lStart → f.set.lEnd < r.lStart) : ¬Torn m l r := by
  rintro ⟨f, hf, ht⟩
  have hlt := h f hf ht.owner ht.type ht.start
  have hle := ht.reaches
  omega

/-- Locks of the owner on both sides of one that is passed or begins behind it. -/
structure Around (r : Eflock) (done : List Filock) (flp : Filock) (rest : List Filock) : Prop where
  list : LockList (done ++ flp :: rest)
  passed : ∀ f ∈ done, f.set.owner = r.owner → f.set.lEnd < r.lStart
  owner : flp.set.owner = r.owner

theorem Around.later (h : Around r done flp rest) : ∀ f ∈ rest, f.set.owner = r.owner →
    flp.set.lEnd < f.set.lStart := fun f hf hfo =>
  (((lockList_middle.mp h.list).2.2.2 f hf).apart (h.owner.trans hfo.symm)).1

theorem Around.behind (h : Around r done flp rest) : LockList rest :=
  h.list.sublist ((List.sublist_cons_self flp rest).trans (List.sublist_append_right done _))

/-- Only `flp` can be torn. -/
theorem Around.torn_iff (h : Around r done flp rest) (hreach : r.lStart ≤ flp.set.lEnd + 1) :
    Torn m (done ++ flp :: rest) r ↔ TornBy m (done ++ flp :: rest) r flp := by
  constructor
  · rintro ⟨f, hf, ht⟩
    rcases List.mem_append.mp hf with hf | hf
    · have h1 := h.passed f hf ht.owner
      have h2 := ht.reaches
      omega
    · rcases List.mem_cons.mp hf with rfl | hf
      · exact ht
      · have h1 := h.later f hf ht.owner
        have h2 := ht.start
        omega
  · exact fun ht => ⟨flp, by simp, ht⟩

theorem Around.kept_iff (h : Around r done flp rest) {x : Result}
    (hreach : r.lStart ≤ flp.set.lEnd + 1) (hx : Kept (done ++ flp :: rest) x)
    (hno : ¬TornBy m (done ++ flp :: rest) r flp) :
    Kept (done ++ flp :: rest) x ↔ ¬Torn m (done ++ flp :: rest) r :=
  iff_of_true hx fun ht => hno ((h.torn_iff hreach).mp ht)

/-- Locks ahead are those of the owner that begin behind the request's start. -/
theorem Around.ahead (h : Around r done flp rest) (hs : flp.set.lStart < r.lStart)
    (hreach : r.lStart ≤ flp.set.lEnd) {p : Eflock → Prop} (hp : ∀ e, p e → e.owner = r.owner) :
    (∃ f ∈ rest, p f.set) ↔ ∃ f ∈ done ++ flp :: rest, r.lStart < f.set.lStart ∧ p f.set := by
  constructor
  · rintro ⟨f, hf, hpf⟩
    have hlt := h.later f hf (hp _ hpf)
    exact ⟨f, by simp [hf], by omega, hpf⟩
  · rintro ⟨f, hf, hlt, hpf⟩
    have hv := (h.list.valid f hf).start_le_end
    rcases List.mem_append.mp hf with hf | hf
    · have := h.passed f hf (hp _ hpf)
      omega
    · rcases List.mem_cons.mp hf with rfl | hf
      · omega
      · exact ⟨f, hf, hpf⟩

/-- The first byte of the request is locked no longer. -/
theorem Around.changed (h : Around r done flp rest) (hs : flp.set.lStart < r.lStart)
    (hreach : r.lStart ≤ flp.set.lEnd) {g : Filock} {rest' : List Filock}
    (hg : g.set = { flp.set with lEnd := r.lStart - 1 })
    (hrest : ∀ f ∈ rest', f.set.owner = r.owner → r.lStart < f.set.lStart) {x : Result}
    (hrc : x.rc = false) (hx : x.list = done ++ g :: rest') : ¬Kept (done ++ flp :: rest) x := by
  intro hkept
  have hold : lockAt (done ++ flp :: rest) r.owner r.lStart = some flp.set.lType :=
    (lockAt_eq_some_iff h.list _ _ _).mpr ⟨flp, by simp, h.owner, hs.le, hreach, rfl⟩
  have hnew : lockAt (done ++ g :: rest') r.owner r.lStart = none := by
    refine lockAt_eq_none fun f hf ho => ?_
    rcases List.mem_append.mp hf with hf | hf
    · exact .inr (h.passed f hf ho)
    · rcases List.mem_cons.mp hf with rfl | hf
      · rw [hg]
        exact .inr (Int.sub_one_lt_of_le le_rfl)
      · exact .inl (hrest f hf ho)
  rw [← hkept hrc r.owner, hx, hnew] at hold
  exact Option.some_ne_none _ hold.symm

/-- The lock is cut at the start of the request, which goes on behind it. -/
theorem kept_across (h : Around r done flp rest) (hle : r.lStart ≤ r.lEnd)
    (ht : flp.set.lType ≠ r.lType) (hs : flp.set.lStart < r.lStart)
    (hreach : r.lStart ≤ flp.set.lEnd) (hend : flp.set.lEnd ≤ r.lEnd) :
    Kept (done ++ flp :: rest) (outcome (scan ⟨lockWakeup m flp,
      done ++ [trimEnd (wokenLock m flp) (r.lStart - 1)], some flp.addr, r⟩ rest)) ↔
      ¬Torn m (done ++ flp :: rest) r := by
  have hbehind : ∀ f ∈ rest, f.set.owner = r.owner → r.lStart < f.set.lStart := fun f hf hfo => by
    have := h.later f hf hfo
    omega
  have hfrees := h.ahead hs hreach (p := Frees r) fun _ hf => hf.1
  have hstr := h.ahead hs hreach (p := Straddles r) fun _ hf => hf.1
  by_cases hm : avail (lockWakeup m flp) = 0
  · have hst := scan_starved rest (s := ⟨lockWakeup m flp,
      done ++ [trimEnd (wokenLock m flp) (r.lStart - 1)], some flp.addr, r⟩) hle h.behind hbehind hm
    by_cases hf : ∃ f ∈ rest, Frees r f.set
    · exact h.kept_iff (by omega) (kept_of_rc (hst.freed hf)) fun htb =>
        (htb.across hend).2.1 (hfrees.mp hf)
    · by_cases hn : Needs r rest
      · obtain ⟨hrc, hlist⟩ := hst.fails hf hn
        refine iff_of_false (h.changed hs hreach (trimEnd_set m flp _) hbehind hrc ?_)
          (not_not.mpr ⟨flp, by simp, h.owner, ht, hs, hreach, fun _ => by omega, fun _ =>
            ⟨hm, fun hg => hf (hfrees.mpr hg), ?_⟩⟩)
        · rw [hlist]
          simp
        · exact hn.imp_right hstr.mp
      · exact h.kept_iff (by omega) (kept_of_rc (hst.done hf hn)) fun htb =>
          hn ((htb.across hend).2.2.imp_right hstr.mpr)
  · exact h.kept_iff (by omega) (kept_of_rc (scan_room rest hle
      (fun f hf hfo => (hbehind f hf hfo).le) (by dsimp only; omega))) fun htb =>
        hm (htb.across hend).1

/-- A part of the lock is taken out of its middle: that takes two entries. -/
theorem kept_inside (h : Around r done flp rest) (ht : flp.set.lType ≠ r.lType)
    (hle : r.lStart ≤ r.lEnd) (hs : flp.set.lStart < r.lStart) (hend : r.lEnd < flp.set.lEnd) :
    Kept (done ++ flp :: rest) (outcome (middleCase ⟨m, done, i, r⟩ flp rest true)) ↔
      ¬Torn m (done ++ flp :: rest) r := by
  unfold middleCase
  rw [if_neg fun he => ht he.symm]
  by_cases hm : avail m = 0
  · simp only [splitAfter, takeFree_eq_none hm]
    exact h.kept_iff (by omega) (fun _ _ => rfl) fun htb => by
      have := (htb.inside hend).2.1
      omega
  · obtain ⟨a, m', hfree, havail, hsleep⟩ := takeFree_eq_some (m := m) (by omega)
    have hwake := avail_lockWakeup flp hsleep
    simp only [splitAfter, hfree, if_true]
    by_cases hm' : avail (lockWakeup m' flp) = 0
    · by_cases hu : r.lType = .unlck
      · exact h.kept_iff (by omega) (kept_of_rc (outcome_unlock hu)) fun htb =>
          (htb.inside hend).1 hu
      · have hle' := avail_le_lockWakeup m' flp
        rw [outcome_full hm' hu]
        refine iff_of_false (h.changed hs (by omega) (trimEnd_set m' flp _) (fun f hf hfo => ?_) rfl rfl)
          (not_not.mpr ⟨flp, by simp, h.owner, ht, hs, by omega,
            fun _ => ⟨hu, by omega, by omega⟩, fun _ => by omega⟩)
        rcases mem_placePiece.mp hf with rfl | hf
        · change r.lStart < r.lEnd + 1
          omega
        · have := h.later f hf hfo
          omega
    · exact h.kept_iff (by omega) (kept_of_rc (outcome_insert (by omega))) fun htb => by
        have := (htb.inside hend).2
        omega

/-- The whole scan, from the locks already passed on. -/
theorem kept_scan (hle : r.lStart ≤ r.lEnd) (rest : List Filock) :
    ∀ (done : List Filock) (i : Option Nat), LockList (done ++ rest) →
      (∀ f ∈ done, f.set.owner = r.owner → f.set.lEnd < r.lStart) →
      (Kept (done ++ rest) (outcome (scan ⟨m, done, i, r⟩ rest)) ↔ ¬Torn m (done ++ rest) r) := by
  induction rest with
  | nil =>
    intro done i hl hpassed
    rw [List.append_nil]
    exact iff_of_true (kept_insert _ _ _ _) (not_torn fun f hf ho _ _ => hpassed f hf ho)
  | cons flp rest ih =>
    intro done i hl hpassed
    have hlist : done ++ [flp] ++ rest = done ++ flp :: rest := by simp
    have hnext : (flp.set.owner = r.owner → flp.set.lEnd < r.lStart) → ∀ i,
        (Kept (done ++ flp :: rest) (outcome (scan ⟨m, done ++ [flp], i, r⟩ rest)) ↔
          ¬Torn m (done ++ flp :: rest) r) := by
      intro hpass i
      have hrec := ih (done ++ [flp]) i (hlist ▸ hl) fun f hf hfo => by
        rcases List.mem_append.mp hf with hf | hf
        · exact hpassed f hf hfo
        · obtain rfl := List.mem_singleton.mp hf
          exact hpass hfo
      rwa [hlist] at hrec
    have hdel := avail_wakeDelete m flp
    rw [scan]
    dsimp only
    split
    next hown =>
      have ho : flp.set.owner = r.owner := (sameOwner_iff _ _).mp hown
      have hvalid := (hl.valid flp (by simp)).start_le_end
      have har : Around r done flp rest := ⟨hl, hpassed, ho⟩
      -- a lock that begins in the request or behind it: nobody is torn
      have hclear : r.lStart ≤ flp.set.lStart → ¬Torn m (done ++ flp :: rest) r := by
        refine fun hs => not_torn fun f hf hfo _ hfs => ?_
        rcases List.mem_append.mp hf with hf | hf
        · exact hpassed f hf hfo
        · rcases List.mem_cons.mp hf with rfl | hf
          · omega
          · have := har.later f hf hfo
            omega
      have hroom : ∀ f ∈ rest, f.set.owner = r.owner → flp.set.lStart ≤ f.set.lStart :=
        fun f hf hfo => by
          have := har.later f hf hfo
          omega
      have hsame : ∀ x, Kept (done ++ flp :: rest) x → r.lStart ≤ flp.set.lEnd + 1 →
          r.lType = flp.set.lType → (Kept (done ++ flp :: rest) x ↔
            ¬Torn m (done ++ flp :: rest) r) :=
        fun x hx hreach ht => har.kept_iff hreach hx fun htb => htb.type ht.symm
      split
      next hr =>
        have h1 := (regflck_holds hle hr).1
        simp only [startHolds] at h1
        exact iff_of_true (kept_insert _ _ _ _) (hclear (by omega))
      next hr =>
        have h1 := (regflck_holds hle hr).1
        simp only [startHolds] at h1
        refine iff_of_true ?_ (hclear (by omega))
        split
        · exact kept_of_rc (outcome_insert hdel)
        · exact kept_insert _ _ _ _
      next hr =>
        have h1 := (regflck_holds hle hr).1
        simp only [startHolds] at h1
        refine iff_of_true (kept_of_rc ?_) (hclear (by omega))
        split
        · rfl
        · exact scan_room rest hle (fun f hf hfo => by
            have := hroom f hf hfo
            dsimp only
            omega) hdel
      next hr =>
        have h1 := (regflck_holds hle hr).1
        simp only [startHolds] at h1
        refine iff_of_true (kept_of_rc ?_) (hclear (by omega))
        exact scan_room rest hle (fun f hf hfo => by
          have := hroom f hf hfo
          dsimp only
          omega) hdel
      next hr =>
        have h1 := (regflck_holds hle hr).1
        simp only [startHolds] at h1
        refine iff_of_true (kept_of_rc ?_) (hclear (by omega))
        split
        · exact outcome_insert hdel
        · exact scan_room rest hle (fun f hf hfo => by
            have := hroom f hf hfo
            dsimp only
            omega) hdel
      next hr =>
        have h1 := (regflck_holds hle hr).1
        simp only [startHolds] at h1
        refine iff_of_true (kept_of_rc ?_) (hclear (by omega))
        exact scan_room rest hle (fun f hf hfo => by
          have := hroom f hf hfo
          dsimp only
          omega) hdel
      next hr =>
        have h1 := (regflck_holds hle hr).1
        simp only [startHolds] at h1
        refine iff_of_true ?_ (hclear (by omega))
        split
        · exact kept_of_rc rfl
        · exact kept_middle (s := ⟨m, done, prev done, r⟩) flp rest
      next hr =>
        obtain ⟨h1, h2⟩ := regflck_holds hle hr
        simp only [startHolds, endHolds] at h1 h2
        split
        next ht => exact hsame _ (kept_of_rc rfl) (by omega) ht
        next ht => exact kept_inside har (fun he => ht he.symm) hle h1.1 h2.2
      next hr =>
        have h1 := (regflck_holds hle hr).1
        simp only [startHolds] at h1
        exact iff_of_true (kept_middle flp rest) (hclear (by omega))
      next hr =>
        obtain ⟨h1, h2⟩ := regflck_holds hle hr
        simp only [startHolds, endHolds] at h1 h2
        split
        next ht => exact hsame _ (kept_of_rc rfl) (by omega) ht
        next ht => exact kept_across har hle (fun he => ht he.symm) h1.1 h1.2 (by omega)
      next hr =>
        obtain ⟨h1, h2⟩ := regflck_holds hle hr
        simp only [startHolds, endHolds] at h1 h2
        split
        next ht =>
          exact hsame _ (kept_of_rc (scan_room rest (by dsimp only; omega) hroom hdel)) (by omega) ht
        next ht => exact kept_across har hle (fun he => ht he.symm) h1.1 h1.2 (by omega)
      next hr =>
        obtain ⟨h1, h2⟩ := regflck_holds hle hr
        simp only [startHolds, endHolds] at h1 h2
        split
        next ht =>
          exact hsame _ (kept_of_rc (scan_room rest (by dsimp only; omega) hroom hdel)) (by omega) ht
        next ht => exact hnext (fun _ => by omega) i
      next hr =>
        have h1 := (regflck_holds hle hr).1
        simp only [startHolds] at h1
        exact hnext (fun _ => by omega) _
      next hr1 hr2 hr3 hr4 hr5 hr6 hr7 hr8 hr9 hr10 hr11 hr12 hr13 =>
        exfalso
        rcases hr : regflck r flp with ⟨x, y⟩
        obtain ⟨h1, h2⟩ := regflck_holds hle hr
        clear ih hnext hsame hroom hclear har hl hpassed
        cases x <;> cases y <;> simp only [startHolds, endHolds] at h1 h2 <;>
          first | omega | simp_all
    next hown => exact hnext (fun ho => absurd ((sameOwner_iff _ _).mpr ho) hown) i

end Scan

/-- How `common_reclock` calls `flckadj`: with the hint of `blocked`, which
found nothing in the way, or from the head of the list for an unlock. -/
def Called (l : List Filock) (r : Eflock) (insrtp : Option Nat) : Prop :=
  (r.lType = .unlck ∧ insrtp = l.head?.map Filock.addr) ∨
    ((r.lType = .rdlck ∨ r.lType = .wrlck) ∧ blocked l r = (none, insrtp))

theorem Called.applies {l : List Filock} {r : Eflock} {i : Option Nat} (hl : LockList l)
    (h : Called l r i) : Applies l r i := by
  rcases h with ⟨ht, rfl⟩ | ⟨ht, hb⟩
  · exact applies_unlock ht
  · have ha := applies_lock hl ht (by rw [hb])
    rwa [hb] at ha

/-- A request that fails for want of an entry leaves every owner's map, its
own included, unless a lock of its owner is torn. -/
theorem flckadj_enolck {m : Mem} {l : List Filock} {r : Eflock} {i : Option Nat} (hl : LockList l)
    (hr : Request r) (hc : Called l r i) :
    ((flckadj m l i r).rc = false → ∀ o, lockAt (flckadj m l i r).list o = lockAt l o) ↔
      ¬Torn m l r := by
  have hsplit := splitAt_append i l
  have h := kept_scan (m := m) (r := r) hr.start_le_end (splitAt i l).2 (splitAt i l).1 i
    (hsplit.symm ▸ hl) fun f hf ho => by
      have := (hc.applies hl).before f hf ho
      omega
  rw [hsplit, ← flckadj_eq] at h
  exact h

/-- No entry is free, and the table has reached its limit. -/
def fullTable : Mem := ⟨[], 200000, 200000, [], []⟩

/-- Bytes 0 to 9, locked for reading by process 1. -/
def readLock : Filock := freshFilock 7 ⟨.rdlck, .seekSet, 0, 1, 0, 0, 9⟩

/-- A write lock of process 1. -/
def writeRequest (lo hi : Int) : Eflock := ⟨.wrlck, .seekSet, 0, 1, 0, lo, hi⟩

theorem readLock_list : LockList [readLock] :=
  ⟨List.pairwise_singleton _ _, fun f hf => by
    obtain rfl := List.mem_singleton.mp hf
    exact ⟨by decide, by decide, .inl rfl⟩⟩

theorem flckadj_enolck_apart :
    (flckadj fullTable [readLock] (some 7) (writeRequest 20 30)).rc = false ∧
      ∀ o, lockAt (flckadj fullTable [readLock] (some 7) (writeRequest 20 30)).list o =
        lockAt [readLock] o := by
  refine ⟨by decide, (flckadj_enolck readLock_list ⟨by decide, by decide, by decide⟩
    (.inr ⟨.inr rfl, by decide⟩)).mpr ?_ (by decide)⟩
  rintro ⟨f, hf, ht⟩
  obtain rfl := List.mem_singleton.mp hf
  exact absurd ht.reaches (by decide)

/-- Process 1 asks for a write lock on bytes 5 to 20: it gets `ENOLCK`, and
bytes 5 to 9 are no longer locked. -/
theorem flckadj_enolck_torn :
    LockList [readLock] ∧ Request (writeRequest 5 20) ∧
      Called [readLock] (writeRequest 5 20) (some 7) ∧
      (flckadj fullTable [readLock] (some 7) (writeRequest 5 20)).rc = false ∧
      lockAt [readLock] (1, 0, 0) 5 = some .rdlck ∧
      lockAt (flckadj fullTable [readLock] (some 7) (writeRequest 5 20)).list (1, 0, 0) 5 = none :=
  ⟨readLock_list, ⟨by decide, by decide, by decide⟩, .inr ⟨.inr rfl, by decide⟩, by decide,
    by decide, by decide⟩

end Aix413.Lockctl.TableFull
