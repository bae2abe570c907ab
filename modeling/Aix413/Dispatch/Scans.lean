import Aix413.Dispatch.Queues

namespace Aix413.Dispatch

open Lib.LinkedRing

/-! ## The mask -/

theorem bitindex_eq_some {m : Nat → Bool} {i : Nat} :
    bitindex m = some i ↔ m i = true ∧ i ≤ pidle ∧ ∀ k < i, m k = false := by
  unfold bitindex
  rw [List.find?_range_eq_some, List.mem_range]
  simp only [Bool.not_eq_true', Nat.lt_succ_iff]
  rfl

theorem bitindex_of_bit {m : Nat → Bool} (h : m pidle = true) : ∃ i, bitindex m = some i := by
  rw [← Option.isSome_iff_exists]
  unfold bitindex
  rw [List.find?_isSome]
  exact ⟨pidle, List.mem_range.mpr (Nat.lt_succ_self _), h⟩

/-- The first bit is cleared, and it is not that of the wait thread. -/
theorem clear_bit {m : Nat → Bool} {i d : Nat} (hbit : bitindex m = some i) (hne : i ≠ pidle)
    (hi : m pidle = true) (hd : ∀ k, k + (d + 1) < pidle + 1 → m k = false) :
    (∀ k, Function.update m i false k = true → k ≠ i ∧ m k = true) ∧
    Function.update m i false pidle = true ∧
    ∀ k, k + d < pidle + 1 → Function.update m i false k = false := by
  obtain ⟨hmi, -, hlow⟩ := bitindex_eq_some.mp hbit
  refine ⟨?_, ?_, ?_⟩
  · intro k hk
    by_cases hki : k = i
    · rw [hki, Function.update_self] at hk
      cases hk
    · rw [Function.update_of_ne hki] at hk
      exact ⟨hki, hk⟩
  · rw [Function.update_of_ne hne.symm]
    exact hi
  · intro k hk
    by_cases hki : k < i
    · rw [Function.update_of_ne (Nat.ne_of_lt hki)]
      exact hlow k hki
    · obtain rfl : k = i := by
        by_contra hne
        have hdone := hd i (by omega)
        rw [hmi] at hdone
        cases hdone
      exact Function.update_self _ _ _

namespace Sys

variable {s : Sys} {Q : Nat → List Nat} {cpu l t h : Nat} {m : Nat → Bool}

/-- A level has a thread that may run. -/
def eligible (s : Sys) (cpu : Nat) (q : List Nat) : Option Nat := q.find? fun t => s.mayRun cpu t

theorem mem_eligible {q : List Nat} (he : s.eligible cpu q = some t) : t ∈ q ∧ s.mayRun cpu t := by
  refine ⟨List.mem_of_find?_eq_some he, ?_⟩
  have hp := List.find?_some he
  exact of_decide_eq_true hp

/-! ## A level scanned for a thread that may run -/

theorem scanLevel_suffix {q : List Nat} (hring : IsRing s.next s.prior q) (hh : q.head? = some h)
    (r : List Nat) : ∀ (t n : Nat), t :: r <:+ q → r.length < n →
      s.scanLevel cpu h n t = some (s.eligible cpu (t :: r)) := by
  induction r with
  | nil =>
    intro t n hs hn
    obtain ⟨n, rfl⟩ := Nat.exists_eq_succ_of_ne_zero (Nat.ne_of_gt (Nat.lt_of_le_of_lt (Nat.zero_le _) hn))
    unfold scanLevel eligible
    by_cases hm : s.mayRun cpu t
    · rw [if_pos hm, List.find?_cons_of_pos (by simpa using hm)]
    · have hnext : (s.thread t).tNext = h := by
        rcases hring.walk hh hs with ⟨-, hn⟩ | ⟨y, r, hr, -⟩
        · exact hn
        · cases hr
      rw [if_neg hm, if_pos hnext, List.find?_cons_of_neg (by simpa using hm)]
      rfl
  | cons u r ih =>
    intro t n hs hn
    obtain ⟨n, rfl⟩ := Nat.exists_eq_succ_of_ne_zero (Nat.ne_of_gt (Nat.lt_of_le_of_lt (Nat.zero_le _) hn))
    unfold scanLevel eligible
    by_cases hm : s.mayRun cpu t
    · rw [if_pos hm, List.find?_cons_of_pos (by simpa using hm)]
    · have hnext : (s.thread t).tNext = u ∧ u ≠ h := by
        rcases hring.walk hh hs with ⟨hr, -⟩ | ⟨y, r, hr, hn, hy⟩
        · cases hr
        · obtain ⟨rfl, rfl⟩ := List.cons.inj hr
          exact ⟨hn, hy⟩
      rw [if_neg hm, hnext.1, if_neg hnext.2, List.find?_cons_of_neg (by simpa using hm)]
      exact ih u n ((List.suffix_cons t (u :: r)).trans hs) (Nat.lt_of_succ_lt_succ hn)

theorem Linked.scanLevel (hq : Linked s Q) {a : Nat} {q : List Nat} (ha : Q l = a :: q) {n : Nat}
    (hn : (Q l).length ≤ n) : s.scanLevel cpu a n a = some (s.eligible cpu (Q l)) := by
  rw [ha]
  refine scanLevel_suffix (hq.ring l) (by rw [ha]; rfl) q a n (ha ▸ List.suffix_refl _) ?_
  rw [ha] at hn
  exact hn

/-! ## The first level with a thread that may run -/

/-- What the search over the levels in `m` finds. -/
structure Found (s : Sys) (Q : Nat → List Nat) (cpu : Nat) (m : Nat → Bool) (l t : Nat)
    (m' : Nat → Bool) : Prop where
  here : s.eligible cpu (Q l) = some t
  first : ∀ k < l, m k = true → s.eligible cpu (Q k) = none
  index : bitindex m' = some l
  kept : ∀ k, m' k = true → m k = true
  idle : m' pidle = true

/-- The head of a level, found through its tail. -/
theorem Linked.of_bit (hq : Linked s Q) (hl : Q l ≠ []) :
    ∃ a q r, Q l = a :: q ∧ s.threadRun l = some r ∧ (s.thread r).tNext = a := by
  cases hr : s.threadRun l with
  | none => exact absurd (hq.of_empty hr) hl
  | some r =>
    obtain ⟨a, q, haq, -, hn, -⟩ := hq.of_tail hr
    exact ⟨a, q, r, haq, rfl, hn⟩

theorem Linked.findLevel (hq : Linked s Q) {w : Nat} (hw : s.eligible cpu (Q pidle) = some w)
    (hm : ∀ k, m k = true → Q k ≠ []) (hi : m pidle = true) :
    ∃ l t m', Found s Q cpu m l t m' ∧
      ∃ N, ∀ n, N ≤ n → s.findLevel cpu n m = some (l, t, m') := by
  obtain ⟨d, hd⟩ : ∃ d, ∀ k, k + d < pidle + 1 → m k = false := ⟨pidle + 1, fun k hk => by omega⟩
  -- the levels below `pidle + 1 - d` are done with
  induction d generalizing m with
  | zero =>
    rw [hd pidle (Nat.lt_succ_self _)] at hi
    cases hi
  | succ d ih =>
    obtain ⟨i, hbit⟩ := bitindex_of_bit hi
    obtain ⟨hmi, hile, hlow⟩ := bitindex_eq_some.mp hbit
    obtain ⟨a, q, r, haq, hr, hnext⟩ := hq.of_bit (hm i hmi)
    have hstep : ∀ n, (Q i).length ≤ n → s.findLevel cpu (n + 1) m =
        (s.eligible cpu (Q i)).elim (s.findLevel cpu n (Function.update m i false))
          fun t => some (i, t, m) := by
      intro n hn
      rw [Sys.findLevel, hbit, Option.bind_eq_bind, Option.bind_some, hr, Option.bind_eq_bind,
        Option.bind_some]
      dsimp only
      rw [hnext, hq.scanLevel haq hn]
      cases s.eligible cpu (Q i) <;> rfl
    cases he : s.eligible cpu (Q i) with
    | some t =>
      refine ⟨i, t, m, ⟨he, ?_, hbit, fun k hk => hk, hi⟩, (Q i).length + 1, ?_⟩
      · intro k hk hmk
        rw [hlow k hk] at hmk
        cases hmk
      · intro n hn
        obtain ⟨n, rfl⟩ := Nat.exists_eq_add_of_le' (Nat.le_trans (Nat.le_add_left 1 _) hn)
        rw [hstep n (Nat.le_of_succ_le_succ hn), he, Option.elim_some]
    | none =>
      have hne : i ≠ pidle := by
        rintro rfl
        rw [he] at hw
        cases hw
      obtain ⟨hm', hi', hd'⟩ := clear_bit hbit hne hi hd
      obtain ⟨l, t, m', hf, N, hN⟩ := ih (fun k hk => hm k (hm' k hk).2) hi' hd'
      refine ⟨l, t, m', ⟨hf.here, ?_, hf.index, fun k hk => (hm' k (hf.kept k hk)).2, hf.idle⟩,
        max N (Q i).length + 1, ?_⟩
      · intro k hk hmk
        by_cases hki : k = i
        · rw [hki]
          exact he
        · apply hf.first k hk
          rw [Function.update_of_ne hki]
          exact hmk
      · intro n hn
        obtain ⟨n, rfl⟩ := Nat.exists_eq_add_of_le' (Nat.le_trans (Nat.le_add_left 1 _) hn)
        have hn := Nat.le_of_succ_le_succ hn
        rw [hstep n (Nat.le_trans (Nat.le_max_right _ _) hn), he]
        exact hN n (Nat.le_trans (Nat.le_max_left _ _) hn)

/-! ## The scan for affinity -/

/-- The thread ran last on this processor and may run there. -/
def Affine (s : Sys) (cpu t : Nat) : Prop :=
  (s.thread t).tAffinity = some cpu ∧ s.mayRun cpu t

/-- A thread ends the scan, or is passed over. -/
theorem scanAffinity_turn (s : Sys) (cpu h t : Nat) (scan : Int) :
    (∃ o, (∀ n, s.scanAffinity cpu h (n + 1) t scan = some (.inl o)) ∧
      ∀ tt, o = some tt → tt = t ∧ s.Affine cpu t) ∨
    ∀ n, s.scanAffinity cpu h (n + 1) t scan =
      if (s.thread t).tNext = h then some (.inr (scan + 1))
      else s.scanAffinity cpu h n (s.thread t).tNext (scan + 1) := by
  by_cases h1 : s.affinityScandelta < scan + 1
  · refine .inl ⟨none, fun n => ?_, fun tt ht => by cases ht⟩
    unfold scanAffinity
    exact if_pos h1
  · by_cases h2 : (s.thread t).tAffinity = some cpu ∧ s.mayRun cpu t
    · refine .inl ⟨some t, fun n => ?_, ?_⟩
      · unfold scanAffinity
        exact (if_neg h1).trans (if_pos h2)
      · exact fun tt ht => ⟨(Option.some_inj.mp ht).symm, h2⟩
    · by_cases h3 : (s.thread t).tPolicy ≠ .schedOther ∨
          (¬ s.affinitySkipboosted ∧ (s.thread t).tBoosted ≠ 0)
      · refine .inl ⟨none, fun n => ?_, fun tt ht => by cases ht⟩
        unfold scanAffinity
        exact (if_neg h1).trans ((if_neg h2).trans (if_pos h3))
      · refine .inr fun n => ?_
        conv_lhs => unfold scanAffinity
        exact (if_neg h1).trans ((if_neg h2).trans (if_neg h3))

theorem scanAffinity_suffix (cpu : Nat) {q : List Nat} (hring : IsRing s.next s.prior q) (hh : q.head? = some h)
    (r : List Nat) : ∀ (t : Nat) (scan : Int), t :: r <:+ q →
      ∃ x, (∀ n, r.length ≤ n → s.scanAffinity cpu h (n + 1) t scan = some x) ∧
        ∀ tt, x = .inl (some tt) → tt ∈ q ∧ s.Affine cpu tt := by
  induction r with
  | nil =>
    intro t scan hs
    have hnext : (s.thread t).tNext = h := by
      rcases hring.walk hh hs with ⟨-, hn⟩ | ⟨y, r, hr, -⟩
      · exact hn
      · cases hr
    rcases s.scanAffinity_turn cpu h t scan with ⟨o, ho, haff⟩ | hstep
    · refine ⟨.inl o, fun n _ => ho n, fun tt htt => ?_⟩
      obtain ⟨rfl, ha⟩ := haff tt (Sum.inl.inj htt)
      exact ⟨hs.mem List.mem_cons_self, ha⟩
    · refine ⟨.inr (scan + 1), fun n _ => ?_, fun tt htt => by cases htt⟩
      rw [hstep n, if_pos hnext]
  | cons u r ih =>
    intro t scan hs
    have hnext : (s.thread t).tNext = u ∧ u ≠ h := by
      rcases hring.walk hh hs with ⟨hr, -⟩ | ⟨y, r, hr, hn, hy⟩
      · cases hr
      · obtain ⟨rfl, rfl⟩ := List.cons.inj hr
        exact ⟨hn, hy⟩
    rcases s.scanAffinity_turn cpu h t scan with ⟨o, ho, haff⟩ | hstep
    · refine ⟨.inl o, fun n _ => ho n, fun tt htt => ?_⟩
      obtain ⟨rfl, ha⟩ := haff tt (Sum.inl.inj htt)
      exact ⟨hs.mem List.mem_cons_self, ha⟩
    · obtain ⟨x, hx, haff⟩ := ih u (scan + 1) ((List.suffix_cons t (u :: r)).trans hs)
      refine ⟨x, fun n hn => ?_, haff⟩
      obtain ⟨n, rfl⟩ := Nat.exists_eq_add_of_le' (Nat.le_trans (Nat.le_add_left 1 _) hn)
      rw [hstep (n + 1), hnext.1, if_neg hnext.2]
      exact hx n (Nat.le_of_succ_le_succ hn)

/-- What the affinity loop may change in the choice of `t` at `l`. -/
def Settled (s : Sys) (Q : Nat → List Nat) (cpu l t : Nat) (c : Nat × Nat) : Prop :=
  c = (l, t) ∨ (c.1 : Int) ≤ l + s.affinityPriodelta ∧ c.2 ∈ Q c.1 ∧ s.Affine cpu c.2

theorem Linked.affinityLoop (cpu : Nat) (hq : Linked s Q) (ht : t ∈ Q l) {k : Nat} (scan : Int)
    (hm : ∀ k, m k = true → Q k ≠ []) (hi : m pidle = true) (hk : bitindex m = some k) :
    ∃ c, s.Settled Q cpu l t c ∧ ∃ N, ∀ n, N ≤ n → s.affinityLoop cpu l t n k m scan = some c := by
  obtain ⟨d, hd⟩ : ∃ d, ∀ k, k + d < pidle + 1 → m k = false := ⟨pidle + 1, fun k hk => by omega⟩
  induction d generalizing m k scan with
  | zero =>
    rw [hd pidle (Nat.lt_succ_self _)] at hi
    cases hi
  | succ d ih =>
    obtain ⟨hmk, hkle, hlow⟩ := bitindex_eq_some.mp hk
    by_cases hin : (k : Int) ≤ l + s.affinityPriodelta ∧ k < pidle
    · obtain ⟨a, q, r, haq, hr, hnext⟩ := hq.of_bit (hm k hmk)
      have hsuf : ∃ rest, (if k = l then t else a) :: rest <:+ Q k := by
        by_cases hkl : k = l
        · subst hkl
          obtain ⟨l₁, l₂, hl⟩ := List.append_of_mem ht
          rw [if_pos rfl, hl]
          exact ⟨l₂, List.suffix_append _ _⟩
        · rw [if_neg hkl, haq]
          exact ⟨q, List.suffix_refl _⟩
      obtain ⟨rest, hsuf⟩ := hsuf
      obtain ⟨x, hx, haff⟩ := scanAffinity_suffix cpu (hq.ring k) (by rw [haq]; rfl) rest _
        scan hsuf
      have hturn : ∀ n y, s.scanAffinity cpu a (n + 1) (if k = l then t else a) scan = some y →
          s.affinityLoop cpu l t (n + 2) k m scan =
            y.elim (fun o => o.elim (some (l, t)) fun tt => some (k, tt)) fun scan =>
              (bitindex (Function.update m k false)).bind fun newlvl =>
                s.affinityLoop cpu l t (n + 1) newlvl (Function.update m k false) scan := by
        intro n y hy
        rw [Sys.affinityLoop, if_pos hin, hr, Option.bind_eq_bind, Option.bind_some]
        dsimp only
        rw [hnext, hy]
        rcases y with (_ | _) | _ <;> rfl
      cases x with
      | inl o =>
        cases o with
        | none =>
          refine ⟨(l, t), .inl rfl, rest.length + 2, fun n hn => ?_⟩
          obtain ⟨n, rfl⟩ := Nat.exists_eq_add_of_le' (Nat.le_trans (Nat.le_add_left 2 _) hn)
          exact hturn n _ (hx n (Nat.le_of_add_le_add_right hn))
        | some tt =>
          refine ⟨(k, tt), .inr ⟨hin.1, haff tt rfl⟩, rest.length + 2, fun n hn => ?_⟩
          obtain ⟨n, rfl⟩ := Nat.exists_eq_add_of_le' (Nat.le_trans (Nat.le_add_left 2 _) hn)
          exact hturn n _ (hx n (Nat.le_of_add_le_add_right hn))
      | inr scan' =>
        obtain ⟨hm', hi', hd'⟩ := clear_bit hk (Nat.ne_of_lt hin.2) hi hd
        obtain ⟨k', hk'⟩ := bitindex_of_bit hi'
        obtain ⟨c, hc, N, hN⟩ := ih scan' (fun k hk => hm k (hm' k hk).2) hi' hk' hd'
        refine ⟨c, hc, max N rest.length + 2, fun n hn => ?_⟩
        obtain ⟨n, rfl⟩ := Nat.exists_eq_add_of_le' (Nat.le_trans (Nat.le_add_left 2 _) hn)
        have hn := Nat.le_of_add_le_add_right hn
        rw [hturn n _ (hx n (Nat.le_trans (Nat.le_max_right _ _) hn)), hk']
        exact hN (n + 1) (Nat.le_succ_of_le (Nat.le_trans (Nat.le_max_left _ _) hn))
    · refine ⟨(l, t), .inl rfl, 1, ?_⟩
      intro n hn
      obtain ⟨n, rfl⟩ := Nat.exists_eq_add_of_le' hn
      rw [Sys.affinityLoop, if_neg hin]

/-! ## The choice -/

/-- A ready thread that may run here. -/
def Candidate (s : Sys) (Q : Nat → List Nat) (cpu l t : Nat) : Prop := t ∈ Q l ∧ s.mayRun cpu t

/-- The thread is the first of the first level that has a candidate, or ran last on this processor
and its level is at most `affinity_priodelta` less favoured. -/
structure Choice (s : Sys) (Q : Nat → List Nat) (cpu l t : Nat) : Prop where
  candidate : s.Candidate Q cpu l t
  favoured : (∀ k u, s.Candidate Q cpu k u → l ≤ k) ∧ s.eligible cpu (Q l) = some t ∨
    (s.thread t).tAffinity = some cpu ∧
      ∀ k u, s.Candidate Q cpu k u → (l : Int) ≤ k + s.affinityPriodelta

theorem eligible_eq_none {q : List Nat} (he : s.eligible cpu q = none) (ht : t ∈ q) :
    ¬ s.mayRun cpu t := by
  have hn := List.find?_eq_none.mp he t ht
  simpa using hn

theorem Linked.select (hq : Linked s Q) {w : Nat} (hw : s.Candidate Q cpu pidle w) :
    ∃ l t, Choice s Q cpu l t ∧ ∃ N, ∀ n, N ≤ n → s.select n cpu = some (l, t) := by
  obtain ⟨w', hw'⟩ : ∃ w', s.eligible cpu (Q pidle) = some w' := by
    cases he : s.eligible cpu (Q pidle) with
    | none => exact absurd hw.2 (eligible_eq_none he hw.1)
    | some w' => exact ⟨w', rfl⟩
  have hmask : ∀ k, s.runMask k = true → Q k ≠ [] := fun k => (hq.mask k).mp
  have hidle : s.runMask pidle = true := (hq.mask pidle).mpr (List.ne_nil_of_mem hw.1)
  obtain ⟨l, t, m', hf, N, hN⟩ := hq.findLevel hw' hmask hidle
  obtain ⟨hin, hmay⟩ := mem_eligible hf.here
  have hfirst : ∀ k u, s.Candidate Q cpu k u → l ≤ k := by
    intro k u hu
    by_contra hlt
    have hbit := (hq.mask k).mpr (List.ne_nil_of_mem hu.1)
    exact eligible_eq_none (hf.first k (Nat.lt_of_not_le hlt) hbit) hu.1 hu.2
  by_cases ha : (s.thread t).tAffinity = some cpu
  · refine ⟨l, t, ⟨⟨hin, hmay⟩, .inl ⟨hfirst, hf.here⟩⟩, N, fun n hn => ?_⟩
    rw [Sys.select, hN n hn, Option.bind_eq_bind, Option.bind_some]
    exact if_neg (not_not_intro ha)
  · obtain ⟨⟨l', t'⟩, hc, N', hN'⟩ := hq.affinityLoop cpu hin 0
      (fun k hk => hmask k (hf.kept k hk)) hf.idle hf.index
    refine ⟨l', t', ?_, max N N', fun n hn => ?_⟩
    · rcases hc with hc | ⟨hle, hmem, haff⟩
      · obtain ⟨rfl, rfl⟩ := Prod.mk.inj hc
        exact ⟨⟨hin, hmay⟩, .inl ⟨hfirst, hf.here⟩⟩
      · refine ⟨⟨hmem, haff.2⟩, .inr ⟨haff.1, fun k u hu => ?_⟩⟩
        have hlk := hfirst k u hu
        change (l' : Int) ≤ l + s.affinityPriodelta at hle
        change (l' : Int) ≤ k + s.affinityPriodelta
        omega
    · rw [Sys.select, hN n (Nat.le_trans (Nat.le_max_left _ _) hn), Option.bind_eq_bind,
        Option.bind_some]
      exact (if_pos ha).trans (hN' n (Nat.le_trans (Nat.le_max_right _ _) hn))

end Sys

end Aix413.Dispatch
