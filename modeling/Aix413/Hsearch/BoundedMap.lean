import Aix413.Hsearch.Table

namespace Aix413.Hsearch

open Lib.OpenAddressing

variable {α : Type} {d d' : HsearchData α} {m : List (Entry α)} {item : Entry α} {key : Key}
  {i c prcnt : BitVec 32} {fuel k n : Nat}

/-! ## Hashing -/

namespace HsearchData

/-- The length is the power of two that `dim` says. -/
structure Sized (d : HsearchData α) : Prop where
  length : d.length.toNat = 2 ^ d.dim.toNat
  pos : 0 < d.dim.toNat
  le : d.dim.toNat ≤ 31

theorem Sized.shift (h : d.Sized) : d.shift = 32 - d.dim.toNat := by
  have hle := h.le
  unfold HsearchData.shift
  rw [BitVec.toNat_sub]
  change (2 ^ 32 - d.dim.toNat + 32) % 2 ^ 32 = _
  omega

theorem Sized.length_pos (h : d.Sized) : 0 < d.length.toNat := by
  rw [h.length]
  exact Nat.two_pow_pos _

theorem Sized.hash_lt (h : d.Sized) (key : Key) : (d.hash key).toNat < d.length.toNat := by
  have hle := h.le
  unfold hash
  rw [BitVec.toNat_ushiftRight, h.shift, h.length, Nat.shiftRight_eq_div_pow,
    Nat.div_lt_iff_lt_mul (Nat.two_pow_pos _), ← pow_add]
  have h32 : d.dim.toNat + (32 - d.dim.toNat) = 32 := by omega
  rw [h32]
  exact BitVec.isLt _

/-- The step is odd, so that it is coprime to the length. -/
theorem Sized.hash2_coprime (h : d.Sized) (key : Key) :
    (d.hash2 key).toNat.Coprime d.length.toNat := by
  have hodd : (d.hash2 key).toNat % 2 = 1 := by
    unfold hash2
    rw [BitVec.toNat_or]
    exact Nat.or_mod_two_eq_one.mpr (.inr rfl)
  rw [h.length]
  exact Nat.Coprime.pow_right _ (Nat.coprime_two_right.mpr (Nat.odd_iff.mpr hodd))

/-- The sums wrap round without harm. -/
theorem Sized.next (h : d.Sized) (i c : BitVec 32) :
    ((i + c) % d.length).toNat = (i.toNat + c.toNat) % d.length.toNat := by
  rw [BitVec.toNat_umod, BitVec.toNat_add, h.length]
  exact Nat.mod_mod_of_dvd _ (Nat.pow_dvd_pow 2 (by have := h.le; omega))

/-- The slots that are probed for a key. -/
def seat (d : HsearchData α) (key : Key) (n : Nat) : Nat :=
  Lib.OpenAddressing.seat d.length.toNat (d.hash key).toNat (d.hash2 key).toNat n

/-- The search for the key stops in slot `i`. -/
def Stop (d : HsearchData α) (key : Key) (i : Nat) : Prop := Stops Entry.key d.table key i

theorem stop_iff : d.Stop key k ↔ d.table k = none ∨ ∃ e, d.table k = some e ∧ e.key = key := by
  unfold Stop Stops
  cases d.table k with
  | none => simp
  | some e => simp

theorem Sized.seat_zero (h : d.Sized) (key : Key) : d.seat key 0 = (d.hash key).toNat := by
  unfold seat Lib.OpenAddressing.seat
  rw [Nat.zero_mul, Nat.add_zero, Nat.mod_eq_of_lt (h.hash_lt key)]

theorem Sized.probe_spec (h : d.Sized) (hi : i.toNat = d.seat key k) (hkn : k < n)
    (hstop : d.Stop key (d.seat key n)) (hmin : ∀ j < n, ¬d.Stop key (d.seat key j))
    (hf : n ≤ k + fuel) :
    ∃ i' p, d.probe key (d.hash2 key) fuel i prcnt = some (i', p) ∧ i'.toNat = d.seat key n := by
  induction fuel generalizing i k prcnt with
  | zero => omega
  | succ fuel ih =>
    have hnext : ((i + d.hash2 key) % d.length).toNat = d.seat key (k + 1) := by
      rw [h.next, hi]
      exact seat_succ.symm
    unfold probe
    dsimp only
    rcases Nat.lt_or_eq_of_le (Nat.succ_le_of_lt hkn) with hlt | rfl
    · have hgo := stop_iff.not.mp (hmin (k + 1) hlt)
      rw [← hnext] at hgo
      split
      · exact absurd (.inl ‹_›) hgo
      · rename_i e he
        rw [if_neg fun hk => hgo (.inr ⟨e, he, hk⟩)]
        exact ih hnext hlt (by omega)
    · rw [← hnext] at hstop
      rcases stop_iff.mp hstop with hnone | ⟨e, he, hk⟩
      · rw [hnone]
        exact ⟨_, _, rfl, hnext⟩
      · rw [he]
        dsimp only
        rw [if_pos hk]
        exact ⟨_, _, rfl, hnext⟩

/-- The search ends in the first slot that is empty or holds the key. -/
theorem Sized.slot_spec (h : d.Sized) (hstop : d.Stop key (d.seat key n))
    (hmin : ∀ j < n, ¬d.Stop key (d.seat key j)) (hf : n ≤ fuel) :
    ∃ i p, d.slot fuel key = some (i, p) ∧ i.toNat = d.seat key n := by
  have hzero := h.seat_zero key
  unfold slot
  dsimp only
  rcases Nat.eq_zero_or_pos n with rfl | hn
  · rw [hzero] at hstop
    rcases stop_iff.mp hstop with hnone | ⟨e, he, hk⟩
    · rw [hnone]
      exact ⟨_, _, rfl, hzero.symm⟩
    · rw [he]
      dsimp only
      rw [if_pos hk]
      exact ⟨_, _, rfl, hzero.symm⟩
  · have hgo := stop_iff.not.mp (hmin 0 hn)
    rw [hzero] at hgo
    split
    · exact absurd (.inl ‹_›) hgo
    · rename_i e he
      rw [if_neg fun hk => hgo (.inr ⟨e, he, hk⟩)]
      exact h.probe_spec hzero.symm hn hstop hmin (by omega)

end HsearchData

/-! ## The table as a map -/

/-- The table holds the entries `m`, and one slot at least is empty. -/
structure Valid (d : HsearchData α) (m : List (Entry α)) : Prop where
  sized : d.Sized
  count : d.count.toNat = m.length
  free : m.length < d.length.toNat
  holds : Holds Entry.key (fun key => (d.hash key).toNat) (fun key => (d.hash2 key).toNat)
    d.length.toNat d.table m

/-- Counting the probes changes nothing else. -/
theorem Valid.probes (h : Valid d m) (p : BitVec 32) : Valid { d with prcnt := p } m :=
  ⟨⟨h.sized.length, h.sized.pos, h.sized.le⟩, h.count, h.free, h.holds⟩

theorem Valid.find_some (h : Valid d m) {e : Entry α} (he : e ∈ m) (hk : e.key = key) :
    (m.find? fun e => e.key = key) = some e := by
  cases hf : m.find? fun e => e.key = key with
  | none => exact absurd hk (by simpa using List.find?_eq_none.mp hf e he)
  | some e' =>
    have hk' : e'.key = key := by simpa using List.find?_some hf
    rw [h.holds.key_inj (List.mem_of_find?_eq_some hf) he (hk'.trans hk.symm)]

/-- One search does what the map does, and moves no entry. -/
theorem Valid.hsearch (h : Valid d m) (item : Entry α) (action : Action)
    (hf : d.length.toNat ≤ fuel) :
    ∃ r d', d.hsearch fuel item action = some (r, d') ∧
      Valid d' (answer (d.length.toNat - 1) m item action).2 ∧
      r.Gives d' (answer (d.length.toNat - 1) m item action).1 ∧
      d'.length = d.length ∧ ∀ i e, d.table i = some e → d'.table i = some e := by
  obtain ⟨n, hn, hstop, hmin⟩ := h.holds.exists_stop h.free (h.sized.hash2_coprime item.key)
  obtain ⟨i, p, hslot, hi⟩ := h.sized.slot_spec hstop hmin (show n ≤ fuel by omega)
  change i.toNat = Lib.OpenAddressing.seat d.length.toNat _ _ n at hi
  have hlen := h.sized.length_pos
  have hone : (d.length - 1).toNat = d.length.toNat - 1 :=
    BitVec.toNat_sub_of_le (BitVec.le_def.mpr hlen)
  unfold HsearchData.hsearch
  rw [hslot, Option.map_some]
  dsimp only
  cases ht : d.table i.toNat with
  | some e =>
    have hk : e.key = item.key := hstop e (hi ▸ ht)
    have hilt : i.toNat < d.length.toNat := hi ▸ seat_lt hlen
    have hfind := h.find_some (h.holds.stored i.toNat hilt e ht) hk
    refine ⟨.found i, { d with prcnt := p }, rfl, ?_⟩
    unfold answer
    rw [hfind]
    exact ⟨h.probes p, ht, rfl, fun _ _ h => h⟩
  | none =>
    have hnone : (m.find? fun e => e.key = item.key) = none := by
      refine List.find?_eq_none.mpr fun e he => ?_
      have hne := h.holds.not_missed (hi ▸ ht) hmin e he
      simpa using hne
    unfold answer
    rw [hnone]
    dsimp only
    by_cases ha : action = .find
    · rw [if_pos ha, if_pos ha]
      exact ⟨.esrch, _, rfl, h.probes p, trivial, rfl, fun _ _ h => h⟩
    rw [if_neg ha, if_neg ha]
    have hroom : d.count = d.length - 1 ↔ m.length = d.length.toNat - 1 := by
      rw [← BitVec.toNat_inj, hone, h.count]
    by_cases hfull : m.length = d.length.toNat - 1
    · rw [if_pos (hroom.mpr hfull), if_pos hfull]
      exact ⟨.enomem, _, rfl, h.probes p, trivial, rfl, fun _ _ h => h⟩
    · rw [if_neg (hroom.not.mpr hfull), if_neg hfull]
      have hlt := d.length.isLt
      have hfree := h.free
      refine ⟨.found i, _, rfl, ⟨⟨h.sized.length, h.sized.pos, h.sized.le⟩, ?_, ?_, ?_⟩,
        Function.update_self _ _ _, rfl, ?_⟩
      · change (d.count + 1).toNat = _
        rw [BitVec.toNat_add, h.count, List.length_append]
        exact Nat.mod_eq_of_lt (by change m.length + 1 < _; omega)
      · rw [List.length_append]
        change m.length + 1 < d.length.toNat
        omega
      · have hins := h.holds.insert (e := item) hlen (hi ▸ ht) hmin
        change Holds _ _ _ _ (Function.update d.table i.toNat (some item)) _
        rw [hi]
        exact hins
      · intro j e hj
        change Function.update d.table i.toNat (some item) j = some e
        rw [Function.update_of_ne]
        · exact hj
        · rintro rfl
          rw [ht] at hj
          cases hj

theorem Result.Gives.mono {r : Result} {a : Answer α} (h : r.Gives d a)
    (hk : ∀ i e, d.table i = some e → d'.table i = some e) : r.Gives d' a := by
  cases r with
  | found i =>
    cases a with
    | entry e => exact hk _ _ h
    | missing => exact h
    | full => exact h
  | esrch => cases a <;> exact h
  | enomem => cases a <;> exact h

/-- Searches one after the other do what the map does. -/
theorem Valid.searches (h : Valid d m) (ops : List (Entry α × Action))
    (hf : d.length.toNat ≤ fuel) :
    ∃ rs d', Hsearch.searches fuel ops d = some (rs, d') ∧
      Valid d' (answers (d.length.toNat - 1) ops m).2 ∧
      List.Forall₂ (Result.Gives d') rs (answers (d.length.toNat - 1) ops m).1 ∧
      d'.length = d.length ∧ ∀ i e, d.table i = some e → d'.table i = some e := by
  induction ops generalizing d m with
  | nil => exact ⟨[], d, rfl, h, List.Forall₂.nil, rfl, fun _ _ h => h⟩
  | cons op ops ih =>
    obtain ⟨item, action⟩ := op
    obtain ⟨r, d₁, hrun, h₁, hgive, hlen, hkeep⟩ := h.hsearch item action hf
    obtain ⟨rs, d₂, hruns, h₂, hgives, hlen₂, hkeep₂⟩ := ih h₁ (hlen ▸ hf)
    rw [hlen] at h₂ hgives
    refine ⟨r :: rs, d₂, ?_, h₂, List.Forall₂.cons (hgive.mono hkeep₂) hgives, hlen₂.trans hlen,
      fun i e hi => hkeep₂ i e (hkeep i e hi)⟩
    unfold Hsearch.searches
    rw [hrun, Option.bind_eq_bind, Option.bind_some]
    dsimp only
    rw [hruns]
    rfl

/-! ## A table is made -/

/-- The length is doubled until the size is used up. -/
theorem createLoop_spec {size len dim : BitVec 32} {j : Nat} (hsize : size.toNat < 2 ^ j)
    (hj : dim.toNat + j ≤ 31) (hlen : len.toNat = 2 ^ dim.toNat) (hf : j < fuel) :
    ∃ len' dim' k, createLoop fuel size len dim = some (len', dim') ∧ k ≤ j ∧
      size.toNat < 2 ^ k ∧ (size.toNat ≠ 0 → 0 < k) ∧ dim'.toNat = dim.toNat + k ∧
      len'.toNat = 2 ^ dim'.toNat := by
  induction fuel generalizing size len dim j with
  | zero => exact absurd hf (Nat.not_lt_zero j)
  | succ fuel ih =>
    unfold createLoop
    by_cases hz : size = 0
    · subst hz
      exact ⟨len, dim, 0, rfl, Nat.zero_le j, by decide, fun h => absurd rfl h, rfl, hlen⟩
    · rw [if_neg hz]
      have hpos : 0 < size.toNat :=
        Nat.pos_of_ne_zero fun h => hz (BitVec.eq_of_toNat_eq h)
      obtain ⟨j, rfl⟩ : ∃ n, j = n + 1 := by
        cases j with
        | zero => exact absurd hsize (by omega)
        | succ n => exact ⟨n, rfl⟩
      have hhalf : (size >>> 1).toNat = size.toNat / 2 := by
        rw [BitVec.toNat_ushiftRight, Nat.shiftRight_eq_div_pow, pow_one]
      have hdim : (dim + 1).toNat = dim.toNat + 1 := by
        rw [BitVec.toNat_add]
        exact Nat.mod_eq_of_lt (by change dim.toNat + 1 < _; omega)
      have hdouble : (len <<< 1).toNat = 2 ^ (dim + 1).toNat := by
        rw [BitVec.toNat_shiftLeft, Nat.shiftLeft_eq, hlen, hdim, ← pow_succ]
        exact Nat.mod_eq_of_lt (Nat.pow_lt_pow_right (by decide) (by omega))
      rw [pow_succ] at hsize
      obtain ⟨len', dim', k, hrun, hk, hlt, -, hdim', hlen'⟩ :=
        ih (show (size >>> 1).toNat < 2 ^ j by omega) (by omega) hdouble (by omega)
      refine ⟨len', dim', k + 1, hrun, by omega, ?_, fun _ => Nat.succ_pos k, by omega, hlen'⟩
      rw [pow_succ]
      omega

/-- A table for 1 to 2^30 entries has room for them. -/
theorem hcreate_spec {size : BitVec 32} (h₁ : 0 < size.toNat) (h₂ : size.toNat ≤ 2 ^ 30)
    (hf : 31 < fuel) (d : HsearchData α) :
    ∃ d', hcreate fuel size true d = some (true, d') ∧ Valid d' [] ∧
      size.toNat < d'.length.toNat := by
  obtain ⟨len, dim, k, hrun, hk, hlt, hpos, hdim, hlen⟩ :=
    createLoop_spec (show size.toNat < 2 ^ 31 by omega) (show (0 : BitVec 32).toNat + 31 ≤ 31 by decide)
      (show (1 : BitVec 32).toNat = 2 ^ (0 : BitVec 32).toNat from rfl) hf
  have hdim' : dim.toNat = k := hdim.trans (Nat.zero_add k)
  have hne : size ≠ 0 := by
    rintro rfl
    exact absurd h₁ (by decide)
  refine ⟨{ d with length := len, dim := dim, count := 0, table := fun _ => none }, ?_, ?_, ?_⟩
  · unfold hcreate
    rw [if_neg hne, hrun]
    rfl
  · refine ⟨⟨hlen, hdim' ▸ hpos h₁.ne', hdim' ▸ hk⟩, rfl, ?_, holds_empty _ _ _ _⟩
    change 0 < len.toNat
    rw [hlen]
    exact Nat.two_pow_pos _
  · change size.toNat < len.toNat
    rw [hlen, hdim']
    exact hlt

/-- `hsearch` is a map with room for `length - 1` entries, and for all that were asked for. -/
theorem hsearch_bounded_map {size : BitVec 32} (h₁ : 0 < size.toNat) (h₂ : size.toNat ≤ 2 ^ 30)
    (d₀ : HsearchData α) :
    ∃ d, hcreate 32 size true d₀ = some (true, d) ∧ size.toNat ≤ d.length.toNat - 1 ∧
      ∀ (ops : List (Entry α × Action)) (fuel : Nat), d.length.toNat ≤ fuel →
        ∃ rs d', searches fuel ops d = some (rs, d') ∧
          List.Forall₂ (Result.Gives d') rs (answers (d.length.toNat - 1) ops []).1 ∧
          ((answers (d.length.toNat - 1) ops []).2.map Entry.key).Nodup ∧
          (∀ e, e ∈ (answers (d.length.toNat - 1) ops []).2 ↔
            ∃ i < d.length.toNat, d'.table i = some e) ∧
          ∀ item action, ∃ r d'', d'.hsearch fuel item action = some (r, d'') ∧
            ∀ i e, d'.table i = some e → d''.table i = some e := by
  obtain ⟨d, hmade, hvalid, hroom⟩ := hcreate_spec h₁ h₂ (show 31 < 32 by decide) d₀
  refine ⟨d, hmade, by omega, fun ops fuel hf => ?_⟩
  obtain ⟨rs, d', hrun, h', hgives, hlen, -⟩ := hvalid.searches ops hf
  have hpos := hvalid.sized.length_pos
  refine ⟨rs, d', hrun, hgives, h'.holds.keys, fun e => ⟨fun he => ?_, fun ⟨i, hi, he⟩ => ?_⟩,
    fun item action => ?_⟩
  · obtain ⟨n, hn, -⟩ := h'.holds.placed e he
    exact ⟨_, seat_lt hpos, hlen ▸ hn⟩
  · exact h'.holds.stored i (hlen ▸ hi) e he
  · obtain ⟨r, d'', hrun', -, -, -, hkeep⟩ := h'.hsearch item action (hlen ▸ hf)
    exact ⟨r, d'', hrun', hkeep⟩

def noTable : HsearchData Nat := ⟨fun _ => none, 0, 0, 0, 0⟩

theorem hsearch_bounded_map_three :
    ∃ d, hcreate 32 3 true noTable = some (true, d) ∧ 3 ≤ d.length.toNat - 1 := by
  have h₁ : 0 < (3 : BitVec 32).toNat := by decide
  have h₂ : (3 : BitVec 32).toNat ≤ 2 ^ 30 := by decide
  obtain ⟨d, hmade, hroom, -⟩ := hsearch_bounded_map h₁ h₂ noTable
  exact ⟨d, hmade, hroom⟩

end Aix413.Hsearch
