import Aix413.Qsort.Exchanges

namespace Aix413.Qsort

open Lib.BlockMove Lib.Partition

variable {e : Env} {base N a l i j lp hp n fuel : Nat} {v : List UInt8} {m m₀ : Mem} {lab : Label}

/-! ## Pointers as numbers of elements -/

/-- The array is `N` elements at `base`. -/
structure Env.Array (e : Env) (base N : Nat) : Prop where
  bytes : e.bytes = ⟨base, base + N * e.qses⟩
  closed : e.Closed
  size : 0 < e.qses
  order : TotalPreorder e.qscmp

def Env.at (e : Env) (base k : Nat) : Nat := base + k * e.qses

namespace Env.Array

variable (h : e.Array base N)

include h

theorem holds {k : Nat} (hk : k < N) : e.Holds (e.at base k) e.qses := by
  have hle := Nat.mul_le_mul_right e.qses hk
  rw [Nat.succ_mul] at hle
  unfold Env.Holds Env.at
  rw [h.bytes]
  dsimp only
  omega

theorem ptr {k : Nat} (hk : k ≤ N) : e.ptr (e.at base k) = some (e.at base k) := by
  have hle := Nat.mul_le_mul_right e.qses hk
  have hb := h.bytes
  refine h.closed.ptr ?_ ?_
  · rw [hb]
    exact Nat.le_add_right _ _
  · rw [hb]
    exact Nat.add_le_add_left hle base

theorem ptr_succ {k : Nat} (hk : k < N) :
    e.ptr (e.at base k + e.qses) = some (e.at base (k + 1)) := by
  have hs : e.at base k + e.qses = e.at base (k + 1) := by
    unfold Env.at
    rw [Nat.succ_mul, Nat.add_assoc]
  rw [hs, h.ptr hk]

theorem back {k : Nat} (hk₀ : 0 < k) (hk : k ≤ N) :
    e.back (e.at base k) e.qses = some (e.at base (k - 1)) := by
  obtain ⟨k, rfl⟩ : ∃ n, k = n + 1 := ⟨k - 1, by omega⟩
  have hs : e.at base (k + 1) = e.at base k + e.qses := by
    unfold Env.at
    rw [Nat.succ_mul, Nat.add_assoc]
  unfold Env.back
  rw [hs, if_pos (by omega), Nat.add_sub_cancel, Nat.add_sub_cancel, h.ptr (by omega)]

theorem lt_iff {k k' : Nat} : e.at base k < e.at base k' ↔ k < k' := by
  unfold Env.at
  rw [Nat.add_lt_add_iff_left, Nat.mul_lt_mul_right h.size]

theorem eq_iff {k k' : Nat} : e.at base k = e.at base k' ↔ k = k' := by
  unfold Env.at
  rw [Nat.add_left_cancel_iff, Nat.mul_left_inj h.size.ne']

theorem compar {k k' : Nat} (hk : k < N) (hk' : k' < N) (m : Mem) :
    e.compar m (e.at base k) (e.at base k') =
      some (e.qscmp (elt base e.qses m k) (elt base e.qses m k')) :=
  if_pos ⟨h.holds hk, h.holds hk'⟩

end Env.Array

/-! ## The scans -/

def Scan.at (e : Env) (base i j lp hp : Nat) (m : Mem) : Scan :=
  ⟨e.at base i, e.at base j, e.at base lp, e.at base hp, m⟩

/-- The loop of `qs1` is at label `lab`, with at most `n` passes to come. -/
structure Scanning (e : Env) (base : Nat) (v : List UInt8) (a l : Nat) (m₀ : Mem) (n : Nat)
    (lab : Label) (i j lp hp : Nat) (m : Mem) : Prop where
  parted : Parted e.qscmp v a l i lp hp j (elt base e.qses m)
  shuffled : Shuffled a l (elt base e.qses m₀) (elt base e.qses m)
  below : ∀ x < base, m x = m₀ x
  passes :
    match lab with
    | .while1 => 2 * (lp - i + (j - hp)) + 1 < n
    | .loop => 2 * (lp - i + (j - hp)) < n ∧ (i < lp → 0 < e.qscmp (elt base e.qses m i) v)
    | .done => i = lp ∧ j = hp

theorem scanUp_spec (ha : e.Array base N) (hl : l ≤ N)
    (h : Scanning e base v a l m₀ (n + 1) .while1 i j lp hp m) :
    ∃ lab i' lp' m', scanUp e (Scan.at e base i j lp hp m) =
        some (lab, Scan.at e base i' j lp' hp m') ∧
      Scanning e base v a l m₀ n lab i' j lp' hp m' := by
  obtain ⟨hp₁, hsh, hb, hn⟩ := h
  obtain ⟨h₁, h₂, h₃, h₄, h₅, -, hequal, -⟩ := id hp₁
  have hcmp := ha.order.congr (x := elt base e.qses m i) (hequal lp le_rfl h₃)
  unfold scanUp Scan.at
  dsimp only
  by_cases hi : i < lp
  · rw [if_pos (ha.lt_iff.mpr hi), ha.compar (by omega) (by omega), Option.bind_eq_bind,
      Option.bind_some]
    split_ifs with hz hlt
    · obtain ⟨m', hrun, helt, hlow⟩ := qsexc_spec (i := i) (j := lp - 1) ha.closed
        (ha.holds (by omega)) (ha.holds (by omega)) m
      refine ⟨.while1, i, lp - 1, m', ?_, ?_, ?_, fun x hx => (hlow x hx).trans (hb x hx), ?_⟩
      · rw [ha.back (by omega) (by omega), Option.bind_eq_bind, Option.bind_some]
        unfold Env.at
        rw [hrun]
        rfl
      · rw [helt]
        exact hp₁.equal_left hi (hcmp.2.1.mp hz)
      · rw [helt]
        exact hsh.trans (shuffled_swap _ (by omega) (by omega))
      · dsimp only at hn ⊢
        omega
    · refine ⟨.while1, i + 1, lp, m, ?_, hp₁.less_left hi (hcmp.1.mp hlt), hsh, hb, ?_⟩
      · rw [ha.ptr_succ (by omega)]
        rfl
      · dsimp only at hn ⊢
        omega
    · refine ⟨.loop, i, lp, m, rfl, hp₁, hsh, hb, ?_, fun _ => hcmp.2.2.mp (by omega)⟩
      dsimp only at hn ⊢
      omega
  · rw [if_neg fun hlt => hi (ha.lt_iff.mp hlt)]
    refine ⟨.loop, i, lp, m, rfl, hp₁, hsh, hb, ?_, fun hlt => absurd hlt hi⟩
    dsimp only at hn ⊢
    omega

theorem scanDown_spec (ha : e.Array base N) (hl : l ≤ N)
    (h : Scanning e base v a l m₀ (n + 1) .loop i j lp hp m) :
    ∃ lab i' j' lp' hp' m', scanDown e (Scan.at e base i j lp hp m) =
        some (lab, Scan.at e base i' j' lp' hp' m') ∧
      Scanning e base v a l m₀ n lab i' j' lp' hp' m' := by
  obtain ⟨hp₁, hsh, hb, hn, hgt⟩ := h
  obtain ⟨h₁, h₂, h₃, h₄, h₅, -, hequal, -⟩ := id hp₁
  have hcmp := ha.order.congr (x := elt base e.qses m j) (hequal hp h₃ le_rfl)
  have hswap := ha.order.swap (elt base e.qses m hp) (elt base e.qses m j)
  have hswap' := ha.order.swap (elt base e.qses m j) (elt base e.qses m hp)
  unfold scanDown Scan.at
  dsimp only
  by_cases hj : hp < j
  · rw [if_pos (ha.lt_iff.mpr hj), ha.compar (by omega) (by omega), Option.bind_eq_bind,
      Option.bind_some]
    by_cases hz : e.qscmp (elt base e.qses m hp) (elt base e.qses m j) = 0
    · -- `j` goes to the middle
      obtain ⟨m', hrun, helt, hlow⟩ := qsexc_spec (i := hp + 1) (j := j) ha.closed
        (ha.holds (by omega)) (ha.holds (by omega)) m
      refine ⟨.loop, i, j, lp, hp + 1, m', ?_, ?_, ?_, fun x hx => (hlow x hx).trans (hb x hx), ?_⟩
      · rw [if_pos hz, ha.ptr_succ (by omega), Option.bind_eq_bind, Option.bind_some]
        unfold Env.at
        rw [hrun]
        rfl
      · rw [helt]
        exact hp₁.equal_right hj (hcmp.2.1.mp (by omega))
      · rw [helt]
        exact hsh.trans (shuffled_swap _ (by omega) (by omega))
      · refine ⟨by omega, fun hi => ?_⟩
        rw [helt, Function.comp_apply, Equiv.swap_apply_of_ne_of_ne (by omega) (by omega)]
        exact hgt hi
    rw [if_neg hz]
    by_cases hpos : 0 < e.qscmp (elt base e.qses m hp) (elt base e.qses m j)
    · rw [if_pos hpos]
      have hless := hcmp.1.mp (by omega)
      by_cases hi : i = lp
      · -- the left part is done, and `j` belongs there
        subst hi
        obtain ⟨m', hrun, helt, hlow⟩ := qstexc_spec (i := i) (j := hp + 1) (k := j) ha.closed
          (ha.holds (by omega)) (ha.holds (by omega)) (ha.holds (by omega)) (by omega) (by omega) m
        refine ⟨.loop, i + 1, j, i + 1, hp + 1, m', ?_, ?_, ?_,
          fun x hx => (hlow x hx).trans (hb x hx), by omega, fun hlt => absurd hlt (by omega)⟩
        · rw [if_pos rfl, ha.ptr_succ (by omega), Option.bind_eq_bind, Option.bind_some,
            ha.ptr_succ (by omega)]
          unfold Env.at
          rw [hrun]
          rfl
        · rw [helt]
          exact hp₁.less_right hj hless
        · rw [helt]
          exact (hsh.trans (shuffled_swap _ (i := i) (j := j) (by omega) (by omega))).trans
            (shuffled_swap _ (by omega) (by omega))
      · -- an element of the left part and one of the right part change places
        obtain ⟨m', hrun, helt, hlow⟩ := qsexc_spec (i := i) (j := j) ha.closed
          (ha.holds (by omega)) (ha.holds (by omega)) m
        refine ⟨.while1, i + 1, j - 1, lp, hp, m', ?_, ?_, ?_,
          fun x hx => (hlow x hx).trans (hb x hx), ?_⟩
        · rw [if_neg (ha.eq_iff.not.mpr hi), ha.back (by omega) (by omega), ha.ptr_succ (by omega)]
          unfold Env.at
          rw [hrun]
          rfl
        · rw [helt]
          exact hp₁.exchange (by omega) hj (hgt (by omega)) hless
        · rw [helt]
          exact hsh.trans (shuffled_swap _ (by omega) (by omega))
        · dsimp only
          omega
    · rw [if_neg hpos, ha.back (by omega) (by omega)]
      exact ⟨.loop, i, j - 1, lp, hp, m, rfl, hp₁.greater_right hj (hcmp.2.2.mp (by omega)), hsh,
        hb, by omega, hgt⟩
  · rw [if_neg fun hlt => hj (ha.lt_iff.mp hlt)]
    obtain rfl : hp = j := by omega
    by_cases hi : i = lp
    · rw [if_pos (ha.eq_iff.mpr hi)]
      exact ⟨.done, i, hp, lp, hp, m, rfl, hp₁, hsh, hb, hi, rfl⟩
    · -- the right part is done, and `i` belongs there
      obtain ⟨m', hrun, helt, hlow⟩ := qstexc_spec (i := hp) (j := lp - 1) (k := i) ha.closed
        (ha.holds (by omega)) (ha.holds (by omega)) (ha.holds (by omega)) (by omega) (by omega) m
      refine ⟨.while1, i, hp - 1, lp - 1, hp - 1, m', ?_, ?_, ?_,
        fun x hx => (hlow x hx).trans (hb x hx), ?_⟩
      · rw [if_neg (ha.eq_iff.not.mpr hi), ha.back (by omega) (by omega), Option.bind_eq_bind,
          Option.bind_some, ha.back (by omega) (by omega)]
        unfold Env.at
        rw [hrun]
        rfl
      · rw [helt]
        exact hp₁.greater_left (by omega) (hgt (by omega))
      · rw [helt]
        exact (hsh.trans (shuffled_swap _ (i := hp) (j := i) (by omega) (by omega))).trans
          (shuffled_swap _ (by omega) (by omega))
      · dsimp only
        omega

/-- The loop of `qs1` ends with the array in three parts. -/
theorem scan_spec (ha : e.Array base N) (hl : l ≤ N)
    (h : Scanning e base v a l m₀ n lab i j lp hp m) (hf : n < fuel) :
    ∃ lp' hp' m', scan e fuel lab (Scan.at e base i j lp hp m) =
        some (Scan.at e base lp' hp' lp' hp' m') ∧
      Parted e.qscmp v a l lp' lp' hp' hp' (elt base e.qses m') ∧
      Shuffled a l (elt base e.qses m₀) (elt base e.qses m') ∧ ∀ x < base, m' x = m₀ x := by
  induction fuel generalizing n lab i j lp hp m with
  | zero => exact absurd hf (Nat.not_lt_zero n)
  | succ fuel ih =>
    cases lab with
    | while1 =>
      obtain ⟨n, rfl⟩ : ∃ k, n = k + 1 := ⟨n - 1, by have := h.passes; dsimp only at this; omega⟩
      obtain ⟨lab, i', lp', m', hstep, h'⟩ := scanUp_spec ha hl h
      obtain ⟨lp₂, hp₂, m₂, hrun, hrest⟩ := ih h' (by omega)
      refine ⟨lp₂, hp₂, m₂, ?_, hrest⟩
      rw [scan, hstep]
      exact hrun
    | loop =>
      obtain ⟨n, rfl⟩ : ∃ k, n = k + 1 := ⟨n - 1, by have := h.passes.1; omega⟩
      obtain ⟨lab, i', j', lp', hp', m', hstep, h'⟩ := scanDown_spec ha hl h
      obtain ⟨lp₂, hp₂, m₂, hrun, hrest⟩ := ih h' (by omega)
      refine ⟨lp₂, hp₂, m₂, ?_, hrest⟩
      rw [scan, hstep]
      exact hrun
    | done =>
      obtain ⟨hp₁, hsh, hb, rfl, rfl⟩ := h
      exact ⟨i, j, m, rfl, hp₁, hsh, hb⟩

/-! ## The whole sort -/

theorem qs1_spec (ha : e.Array base N) (hl : l ≤ N) (hal : a ≤ l) (m : Mem)
    (hf : 2 * (l - a) + 1 < fuel) :
    ∃ m', qs1 e fuel (e.at base a) (e.at base l) m = some m' ∧
      SortedOn e.qscmp a l (elt base e.qses m') ∧
      Shuffled a l (elt base e.qses m) (elt base e.qses m') ∧ ∀ x < base, m' x = m x := by
  induction fuel generalizing a l m with
  | zero => exact absurd hf (Nat.not_lt_zero _)
  | succ fuel ih =>
    have hsub : e.at base l - e.at base a = (l - a) * e.qses := by
      unfold Env.at
      rw [Nat.add_sub_add_left, Nat.sub_mul]
    unfold qs1
    dsimp only
    rw [hsub]
    by_cases hone : l ≤ a + 1
    · have hle : (l - a) * e.qses ≤ e.qses := by
        have := Nat.mul_le_mul_right e.qses (show l - a ≤ 1 by omega)
        rwa [Nat.one_mul] at this
      rw [if_pos hle]
      exact ⟨m, rfl, sorted_short _ ha.order hone, Shuffled.refl _ _ _, fun _ _ => rfl⟩
    have hlt : e.qses < (l - a) * e.qses := by
      have := Nat.mul_lt_mul_of_pos_right (show 1 < l - a by omega) ha.size
      rwa [Nat.one_mul] at this
    rw [if_neg (Nat.not_le.mpr hlt)]
    -- the pivot is the element in the middle
    have hmid : e.at base a + e.qses * ((l - a) * e.qses / (2 * e.qses)) =
        e.at base (a + (l - a) / 2) := by
      unfold Env.at
      rw [Nat.mul_div_mul_right _ _ ha.size, Nat.mul_comm e.qses, Nat.add_mul, Nat.add_assoc]
    set mid := a + (l - a) / 2 with hmid'
    have h₀ : Scanning e base (elt base e.qses m mid) a l m (2 * (l - a)) .while1 a (l - 1) mid mid
        m := by
      refine ⟨⟨le_rfl, by omega, le_rfl, by omega, by omega, fun k h₁ h₂ => absurd h₁ (by omega),
        fun k h₁ h₂ => ?_, fun k h₁ h₂ => absurd h₁ (by omega)⟩, Shuffled.refl _ _ _,
        fun _ _ => rfl, ?_⟩
      · obtain rfl : k = mid := by omega
        exact ha.order.self _
      · dsimp only
        omega
    obtain ⟨lp, hp, m₁, hscan, hparted, hsh₁, hb₁⟩ := scan_spec ha hl h₀ (show _ < fuel by omega)
    obtain ⟨h₁, -, h₃, -, h₅, -, -, -⟩ := id hparted
    rw [hmid, ha.ptr (by omega), Option.bind_eq_bind, Option.bind_some, ha.back (by omega) hl,
      Option.bind_some]
    change ∃ m', (do
      let s ← scan e fuel .while1 (Scan.at e base a (l - 1) mid mid m)
      _) = some m' ∧ _
    rw [hscan, Option.bind_eq_bind, Option.bind_some]
    unfold Scan.at
    dsimp only
    rw [ha.ptr_succ (by omega), Option.bind_some]
    split_ifs
    · -- the right part is sorted first
      obtain ⟨m₂, hr₂, hs₂, hsh₂, hb₂⟩ := ih (a := hp + 1) hl (by omega) m₁ (by omega)
      obtain ⟨m₃, hr₃, hs₃, hsh₃, hb₃⟩ := ih (a := a) (l := lp) (by omega) h₁ m₂ (by omega)
      refine ⟨m₃, by rw [hr₂]; exact hr₃, ?_, ?_, fun x hx => ?_⟩
      · exact ((hparted.shuffle_right hsh₂).shuffle_left hsh₃).sorted ha.order hs₃
          (hs₂.congr fun k hk _ => hsh₃.out (by omega))
      · exact hsh₁.trans ((hsh₂.mono (by omega) le_rfl).trans (hsh₃.mono le_rfl (by omega)))
      · exact (hb₃ x hx).trans ((hb₂ x hx).trans (hb₁ x hx))
    · obtain ⟨m₂, hr₂, hs₂, hsh₂, hb₂⟩ := ih (a := a) (l := lp) (by omega) h₁ m₁ (by omega)
      obtain ⟨m₃, hr₃, hs₃, hsh₃, hb₃⟩ := ih (a := hp + 1) hl (by omega) m₂ (by omega)
      refine ⟨m₃, by rw [hr₂]; exact hr₃, ?_, ?_, fun x hx => ?_⟩
      · exact ((hparted.shuffle_left hsh₂).shuffle_right hsh₃).sorted ha.order
          (hs₂.congr fun k _ hk => hsh₃.out (by omega)) hs₃
      · exact hsh₁.trans ((hsh₂.mono le_rfl (by omega)).trans (hsh₃.mono (by omega) le_rfl))
      · exact (hb₃ x hx).trans ((hb₂ x hx).trans (hb₁ x hx))

/-- The elements of the array. -/
def elements (base nmemb size : Nat) (m : Mem) : List (List UInt8) :=
  (List.range nmemb).map (elt base size m)

/-- `qsort` sorts the array in place. No pointer but those into the array and the one to its end is
formed, and nothing outside the array is read or written. -/
theorem qsort_sorts {compar : List UInt8 → List UInt8 → Int} (hcmp : TotalPreorder compar)
    {size : Nat} (hsize : 0 < size) (base nmemb : Nat) (m : Mem) {fuel : Nat}
    (hf : 2 * nmemb + 1 < fuel) :
    ∃ m', qsort fuel (base + nmemb * size + 1) base nmemb size compar m = some m' ∧
      (elements base nmemb size m').Pairwise (fun x y => compar x y ≤ 0) ∧
      (elements base nmemb size m').Perm (elements base nmemb size m) ∧
      ∀ x, x < base ∨ base + nmemb * size ≤ x → m' x = m x := by
  set e : Env := ⟨⟨size, compar⟩, ⟨base, base + nmemb * size⟩,
    ⟨base, base + nmemb * size + 1⟩⟩ with he
  have ha : e.Array base nmemb :=
    ⟨rfl, fun p hlo hhi => ⟨hlo, Nat.lt_succ_of_le hhi⟩, hsize, hcmp⟩
  obtain ⟨m', hrun, hsorted, hsh, hlow⟩ := qs1_spec ha le_rfl (Nat.zero_le nmemb) m hf
  refine ⟨m', ?_, ?_, hsh.perm, fun x hx => ?_⟩
  · have hbase : e.at base 0 = base := by
      unfold Env.at
      rw [Nat.zero_mul, Nat.add_zero]
    have hend : e.ptr (base + nmemb * size) = some (base + nmemb * size) := ha.ptr le_rfl
    rw [hbase] at hrun
    unfold qsort
    rw [← he]
    dsimp only
    rw [hend]
    exact hrun
  · refine List.pairwise_map.mpr (List.pairwise_lt_range.imp_of_mem fun {p q} _ hq hpq => ?_)
    exact hsorted p q (Nat.zero_le p) hpq.le (List.mem_range.mp hq)
  · rcases hx with hx | hx
    · exact hlow x hx
    · -- the byte belongs to what would be a further element
      have hk : (x - base) / size * size + (x - base) % size = x - base :=
        Nat.div_add_mod' (x - base) size
      have hkn : nmemb ≤ (x - base) / size := (Nat.le_div_iff_mul_le hsize).mpr (by omega)
      have hout := List.map_inj_left.mp (hsh.out (.inr hkn)) ((x - base) % size)
        (List.mem_range.mpr (Nat.mod_lt _ hsize))
      have hx' : base + (x - base) / size * size + (x - base) % size = x := by omega
      change m' (base + (x - base) / size * size + (x - base) % size) =
        m (base + (x - base) / size * size + (x - base) % size) at hout
      rwa [hx'] at hout

/-- Elements are compared by their first bytes. -/
def firstByte (x y : List UInt8) : Int := (x.headD 0).toNat - ((y.headD 0).toNat : Int)

theorem firstByte_order : TotalPreorder firstByte where
  swap x y := by
    unfold firstByte
    omega
  trans h₁ h₂ := by
    unfold firstByte at *
    omega

def threeBytes : Mem := fun a => [3, 1, 2].getD a 0

theorem qsort_sorts_three :
    ∃ m', qsort 8 4 0 3 1 firstByte threeBytes = some m' ∧
      (elements 0 3 1 m').Pairwise (fun x y => firstByte x y ≤ 0) ∧
      (elements 0 3 1 m').Perm [[3], [1], [2]] := by
  obtain ⟨m', hrun, hsorted, hperm, -⟩ :=
    qsort_sorts firstByte_order (by decide : 0 < 1) 0 3 threeBytes (by decide : 2 * 3 + 1 < 8)
  exact ⟨m', hrun, hsorted, hperm⟩

/-- The pointer behind the last element is formed, where the part on the right is empty. -/
theorem qs1_end_pointer :
    (qs1 ⟨⟨1, firstByte⟩, ⟨0, 2⟩, ⟨0, 2⟩⟩ 8 0 2 fun a => [1, 2].getD a 0).isNone ∧
      (qs1 ⟨⟨1, firstByte⟩, ⟨0, 2⟩, ⟨0, 3⟩⟩ 8 0 2 fun a => [1, 2].getD a 0).isSome := by
  decide

end Aix413.Qsort
