import Mathlib.Tactic
import Mathlib.Data.Nat.ModEq

namespace Aix413.Lib.OpenAddressing

/-! ## Probe sequences -/

/-- The `n`-th slot that is probed. -/
def seat (len h c n : Nat) : Nat := (h + n * c) % len

variable {len h c i j k n : Nat}

theorem seat_lt (hlen : 0 < len) : seat len h c n < len := Nat.mod_lt _ hlen

theorem seat_succ : seat len h c (n + 1) = (seat len h c n + c) % len := by
  unfold seat
  rw [Nat.mod_add_mod, Nat.succ_mul, Nat.add_assoc]

theorem seat_injOn (hc : c.Coprime len) (hi : i < len) (hj : j < len)
    (h' : seat len h c i = seat len h c j) : i = j := by
  have hmod : i * c ≡ j * c [MOD len] := Nat.ModEq.add_left_cancel' h h'
  have hij : i ≡ j [MOD len] := Nat.ModEq.cancel_right_of_coprime hc.symm hmod
  exact hij.eq_of_lt_of_lt hi hj

/-- A step that is coprime to the length reaches every slot. -/
theorem exists_seat (hc : c.Coprime len) (hj : j < len) : ∃ n < len, seat len h c n = j := by
  have hsurj : Set.SurjOn (seat len h c) (Finset.range len) (Finset.range len) :=
    Finset.surjOn_of_injOn_of_card_le (seat len h c)
      (fun n _ => Finset.mem_coe.mpr (Finset.mem_range.mpr (seat_lt (by omega))))
      (fun a ha b hb hab => seat_injOn hc (Finset.mem_range.mp (Finset.mem_coe.mp ha))
        (Finset.mem_range.mp (Finset.mem_coe.mp hb)) hab) le_rfl
  obtain ⟨n, hn, hseat⟩ := hsurj (Finset.mem_coe.mpr (Finset.mem_range.mpr hj))
  exact ⟨n, Finset.mem_range.mp (Finset.mem_coe.mp hn), hseat⟩

/-! ## Tables -/

variable {K E : Type*} {key : E → K} {start step : K → Nat} {slots : Nat → Option E}
  {m : List E} {e : E} {q : K}

def Taken (slots : Nat → Option E) (i : Nat) : Prop := slots i ≠ none

instance (slots : Nat → Option E) : DecidablePred (Taken slots) := fun i =>
  decidable_of_iff ((slots i).isSome = true) Option.isSome_iff_ne_none

/-- The table holds the entries `m`, each where its probe sequence leads. -/
structure Holds (key : E → K) (start step : K → Nat) (len : Nat) (slots : Nat → Option E)
    (m : List E) : Prop where
  keys : (m.map key).Nodup
  stored : ∀ i < len, ∀ e ∈ slots i, e ∈ m
  placed : ∀ e ∈ m, ∃ n, slots (seat len (start (key e)) (step (key e)) n) = some e ∧
    ∀ k < n, Taken slots (seat len (start (key e)) (step (key e)) k)
  count : ((Finset.range len).filter (Taken slots)).card = m.length

theorem holds_empty (key : E → K) (start step : K → Nat) (len : Nat) :
    Holds key start step len (fun _ => none) [] where
  keys := List.nodup_nil
  stored _ _ _ he := nomatch he
  placed _ he := nomatch he
  count := by simp [Taken]

theorem Holds.key_inj (h : Holds key start step len slots m) {a b : E} (ha : a ∈ m) (hb : b ∈ m)
    (hab : key a = key b) : a = b := List.inj_on_of_nodup_map h.keys ha hb hab

/-- A search stops in slot `seat n`: it is empty or holds the key. -/
def Stops (key : E → K) (slots : Nat → Option E) (q : K) (i : Nat) : Prop :=
  ∀ e ∈ slots i, key e = q

/-- As long as one slot is empty every search stops. -/
theorem Holds.exists_stop (h : Holds key start step len slots m) (hfree : m.length < len)
    (hc : (step q).Coprime len) :
    ∃ n < len, Stops key slots q (seat len (start q) (step q) n) ∧
      ∀ k < n, ¬Stops key slots q (seat len (start q) (step q) k) := by
  classical
  have hex : ∃ i < len, slots i = none := by
    by_contra hn
    have hall : (Finset.range len).filter (Taken slots) = Finset.range len := by
      refine Finset.filter_true_of_mem fun i hi he => hn ⟨i, Finset.mem_range.mp hi, he⟩
    have hcount := h.count
    rw [hall, Finset.card_range] at hcount
    omega
  obtain ⟨i, hi, hnone⟩ := hex
  obtain ⟨n, hn, hseat⟩ := exists_seat (h := start q) hc hi
  have hstop : ∃ n, Stops key slots q (seat len (start q) (step q) n) :=
    ⟨n, fun e he => by rw [hseat, hnone] at he; cases he⟩
  refine ⟨Nat.find hstop, ?_, Nat.find_spec hstop, fun k hk => Nat.find_min hstop hk⟩
  refine (Nat.find_min' hstop (m := n) fun e he => ?_).trans_lt hn
  rw [hseat, hnone] at he
  cases he

/-- A key that is in the table is not missed. -/
theorem Holds.not_missed (h : Holds key start step len slots m)
    (hnone : slots (seat len (start q) (step q) n) = none)
    (hbefore : ∀ k < n, ¬Stops key slots q (seat len (start q) (step q) k)) :
    ∀ e ∈ m, key e ≠ q := by
  rintro e he rfl
  obtain ⟨p, hp, hpath⟩ := h.placed e he
  have hstop : Stops key slots (key e) (seat len (start (key e)) (step (key e)) p) := by
    intro e' he'
    rw [hp] at he'
    rw [Option.some.inj he']
  have hle : n ≤ p := Nat.not_lt.mp fun hlt => hbefore p hlt hstop
  rcases Nat.lt_or_eq_of_le hle with hlt | rfl
  · exact hpath n hlt hnone
  · rw [hnone] at hp
    cases hp

/-- A new key is entered where the search for it has stopped. -/
theorem Holds.insert (h : Holds key start step len slots m) (hlen : 0 < len)
    (hnone : slots (seat len (start (key e)) (step (key e)) n) = none)
    (hbefore : ∀ k < n,
      ¬Stops key slots (key e) (seat len (start (key e)) (step (key e)) k)) :
    Holds key start step len
      (Function.update slots (seat len (start (key e)) (step (key e)) n) (some e)) (m ++ [e]) := by
  set s := seat len (start (key e)) (step (key e)) n with hs
  have hslt : s < len := seat_lt hlen
  have hkeep : ∀ {i}, Taken slots i → Taken (Function.update slots s (some e)) i := by
    intro i hi
    by_cases his : i = s
    · rw [his, Taken, Function.update_self]
      exact Option.some_ne_none e
    · rw [Taken, Function.update_of_ne his]
      exact hi
  constructor
  case keys =>
    rw [List.map_append]
    refine List.nodup_append.mpr ⟨h.keys, List.nodup_singleton _, fun q hq q' hq' => ?_⟩
    obtain ⟨a, ha, rfl⟩ := List.mem_map.mp hq
    rw [List.mem_singleton.mp hq']
    exact h.not_missed hnone hbefore a ha
  case stored =>
    intro i hi e' he'
    by_cases his : i = s
    · rw [his, Function.update_self] at he'
      rw [← Option.some.inj he']
      exact List.mem_append_right m List.mem_cons_self
    · rw [Function.update_of_ne his] at he'
      exact List.mem_append_left _ (h.stored i hi e' he')
  case placed =>
    intro e' he'
    rcases List.mem_append.mp he' with he' | he'
    · obtain ⟨p, hp, hpath⟩ := h.placed e' he'
      refine ⟨p, ?_, fun k hk => hkeep (hpath k hk)⟩
      rw [Function.update_of_ne]
      · exact hp
      · intro heq
        rw [heq, hnone] at hp
        cases hp
    · rw [List.mem_singleton.mp he']
      refine ⟨n, Function.update_self _ _ _, fun k hk => hkeep fun hk₀ => hbefore k hk ?_⟩
      intro e'' he''
      rw [hk₀] at he''
      cases he''
  case count =>
    have hset : (Finset.range len).filter (Taken (Function.update slots s (some e))) =
        Insert.insert s ((Finset.range len).filter (Taken slots)) := by
      ext i
      simp only [Finset.mem_filter, Finset.mem_range, Finset.mem_insert]
      by_cases his : i = s
      · simp [his, hslt, Taken]
      · simp [his, Taken]
    rw [hset, Finset.card_insert_of_notMem, h.count, List.length_append, List.length_singleton]
    intro hmem
    exact (Finset.mem_filter.mp hmem).2 hnone

end Aix413.Lib.OpenAddressing
