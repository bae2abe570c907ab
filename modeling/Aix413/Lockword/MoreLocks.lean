import Aix413.Lockword.Anchor

namespace Aix413.Lockword.MoreLocks

open Aix413.Lib.LinkedPool

def psize : Nat := 4096

/-- `SOFFSET`: the offset in a segment. -/
def soffset : Nat := 0x0FFFFFFF

/-- The fields of `lanch` and of the lockwords that `v_morelocks` uses. -/
structure Area where
  lwptr : Nat
  morelocks : Nat
  freelock : Nat
  next : Nat → Nat

/-- Bytes used up to now for lockwords. -/
def Area.nbytes (s : Area) : Nat := s.morelocks - s.lwptr

/-- Index of the first lockword that begins in the page. -/
def first (size nbytes : Nat) : Nat :=
  if nbytes / size * size = nbytes then nbytes / size else nbytes / size + 1

/-- The index after that of the last lockword that ends in the page. -/
def stop (size nbytes : Nat) : Nat := (nbytes + psize) / size

/-- The test of `v_morelocks` as C groups it: `SOFFSET & (lanch.morelocks == 0)`. -/
def nextSegment (s : Area) : Bool := soffset &&& (if s.morelocks % 2 ^ 32 = 0 then 1 else 0) != 0

/-- `v_morelocks` with lockwords of `size` bytes, `none` for ENOMEM. -/
def v_morelocks (size : Nat) (s : Area) : Option Area :=
  if nextSegment s then none
  else
    let last : Int := (stop size s.nbytes : Int) - 1
    some { s with
      next := fun k =>
        if first size s.nbytes ≤ k ∧ (k : Int) < last - 1 then k + 1
        else if (k : Int) = last then s.freelock
        else s.next k
      freelock := first size s.nbytes
      morelocks := s.morelocks + psize }

/-- The lockword lies wholly in the page at `morelocks`. -/
def Whole (size : Nat) (s : Area) (k : Nat) : Prop :=
  s.nbytes ≤ k * size ∧ (k + 1) * size ≤ s.nbytes + psize

/-- End of the segment of the lockwords. -/
def segEnd (s : Area) : Nat := (s.lwptr / 2 ^ 28 + 1) * 2 ^ 28

/-- The free list is `l`, with lockwords of earlier pages, and the pages are in
one segment. -/
structure Listed (size : Nat) (s : Area) (l : List Nat) : Prop where
  free : Chain s.next s.freelock l
  earlier : ∀ k ∈ l, (k + 1) * size ≤ s.nbytes
  lwptr_le : s.lwptr ≤ s.morelocks
  le_segEnd : s.morelocks ≤ segEnd s

/-- The free list is made of the lockwords of the page, each once, and `l`. -/
def Refilled (size : Nat) (s s' : Area) (l : List Nat) : Prop :=
  ∃ page : List Nat, page.Nodup ∧ (∀ k, k ∈ page ↔ Whole size s k) ∧
    Chain s'.next s'.freelock (page ++ l)

/-- What `v_morelocks` is for. -/
def LosesNothing (size : Nat) (s : Area) (l : List Nat) : Prop :=
  (∀ s', v_morelocks size s = some s' → Refilled size s s' l) ∧
    (s.morelocks = segEnd s → v_morelocks size s = none)

/-- The page has one lockword, or its last two are already linked, and the
first is not lockword 0; or no byte is used yet and a lockword is longer than
a page. -/
def Joins (size : Nat) (s : Area) : Prop :=
  let i := first size s.nbytes
  let j := stop size s.nbytes
  0 < i ∧ (i + 1 = j ∨ i + 1 < j ∧ s.next (j - 2) = j - 1) ∨ i = 0 ∧ j = 0

variable {size : Nat} {s s' : Area} {l : List Nat}

theorem nextSegment_iff : nextSegment s = true ↔ s.morelocks % 2 ^ 32 = 0 := by
  unfold nextSegment
  split
  next h => exact iff_of_true (by decide) h
  next h => exact iff_of_false (by decide) h

theorem first_le_iff (hs : 0 < size) (n k : Nat) : first size n ≤ k ↔ n ≤ k * size := by
  have hmod := Nat.div_add_mod' n size
  have hlt := Nat.mod_lt n hs
  unfold first
  split
  next h =>
    have hmul : n / size * size ≤ k * size ↔ n / size ≤ k := Nat.mul_le_mul_right_iff hs
    rw [← hmul, h]
  next h =>
    constructor
    · intro hk
      have hmul := Nat.mul_le_mul_right size hk
      rw [Nat.add_mul, Nat.one_mul] at hmul
      omega
    · intro hn
      by_contra hk
      have hmul := Nat.mul_le_mul_right size (show k ≤ n / size by omega)
      omega

theorem whole_iff (hs : 0 < size) (k : Nat) :
    Whole size s k ↔ first size s.nbytes ≤ k ∧ k < stop size s.nbytes := by
  rw [first_le_iff hs, stop, Nat.lt_iff_add_one_le, Nat.le_div_iff_mul_le hs]
  rfl

/-- The state after a refill. -/
def refill (size : Nat) (s : Area) : Area :=
  let i := first size s.nbytes
  let j := stop size s.nbytes
  { s with
    next := fun k => if i ≤ k ∧ k + 2 < j then k + 1 else if k + 1 = j then s.freelock else s.next k
    freelock := i
    morelocks := s.morelocks + psize }

theorem v_morelocks_eq : v_morelocks size s =
    if s.morelocks % 2 ^ 32 = 0 then none else some (refill size s) := by
  unfold v_morelocks
  by_cases h : s.morelocks % 2 ^ 32 = 0
  · rw [if_pos (nextSegment_iff.mpr h), if_pos h]
  · rw [if_neg fun hn => h (nextSegment_iff.mp hn), if_neg h]
    simp only [refill, Option.some.injEq, Area.mk.injEq, true_and]
    funext k
    have h1 : (k : Int) < (stop size s.nbytes : Int) - 1 - 1 ↔ k + 2 < stop size s.nbytes := by
      omega
    have h2 : (k : Int) = (stop size s.nbytes : Int) - 1 ↔ k + 1 = stop size s.nbytes := by omega
    simp only [h1, h2]

/-- The lockwords of the free list come before the page. -/
theorem Listed.lt_first (h : Listed size s l) (hs : 0 < size) {k : Nat} (hk : k ∈ l) :
    k < first size s.nbytes := by
  by_contra hn
  have hle := (first_le_iff hs s.nbytes k).mp (not_lt.mp hn)
  have hearlier := h.earlier k hk
  rw [Nat.add_mul, Nat.one_mul] at hearlier
  omega

theorem Listed.freelock_lt (h : Listed size s l) (hs : 0 < size) :
    s.freelock = 0 ∨ s.freelock < first size s.nbytes := by
  cases l with
  | nil => exact Or.inl h.free
  | cons k l => exact Or.inr (h.free.1 ▸ h.lt_first hs (by simp))

theorem Listed.refill (h : Listed size s l) (hs : 0 < size)
    (hstop : first size s.nbytes < stop size s.nbytes) :
    Chain (refill size s).next s.freelock l := by
  refine h.free.congr fun k hk => ?_
  have hlt := h.lt_first hs hk
  simp only [MoreLocks.refill]
  rw [if_neg (by omega), if_neg (by omega)]

/-- The page goes in front of the free list. -/
theorem refilled_of_joins (h : Listed size s l) (hs : 0 < size) (hj : Joins size s) :
    Refilled size s (refill size s) l := by
  set i := first size s.nbytes with hi
  set j := stop size s.nbytes with hjj
  have hmem : ∀ k, k ∈ List.range' i (j - i) ↔ Whole size s k := by
    intro k
    rw [whole_iff hs, List.mem_range'_1]
    omega
  refine ⟨List.range' i (j - i), List.nodup_range', hmem, ?_⟩
  change Chain _ i _
  rcases hj with ⟨hi0, hj⟩ | ⟨hi0, hj0⟩
  · have hlt : i < j := by rcases hj with hj | hj <;> omega
    have hlast : (refill size s).next (j - 1) = s.freelock := by
      simp only [refill]
      rw [if_neg (by omega), if_pos (by omega)]
    refine chain_row (by omega) (by omega) (fun k hk hk' => ?_) ?_
    · simp only [refill]
      by_cases hk2 : k + 2 < j
      · rw [if_pos (by omega)]
      · rw [if_neg (by omega), if_neg (by omega)]
        rcases hj with hj | ⟨_, hj⟩
        · omega
        · have hkj : k = j - 2 := by omega
          rw [hkj]
          change s.next (j - 2) = _
          rw [hj]
          omega
    · rw [show i + (j - i) - 1 = j - 1 by omega, hlast]
      exact h.refill hs hlt
  · have hl : l = [] := by
      refine List.eq_nil_iff_forall_not_mem.mpr fun k hk => ?_
      have := h.lt_first hs hk
      omega
    have hempty : j - i = 0 := by omega
    rw [hl, hempty]
    exact hi0

/-- A refill that loses nothing has the page joined. -/
theorem joins_of_refilled (h : Listed size s l) (hs : 0 < size)
    (hr : Refilled size s (refill size s) l) : Joins size s := by
  obtain ⟨page, _, hpage, hc⟩ := hr
  set i := first size s.nbytes with hi
  set j := stop size s.nbytes with hjj
  have hmem : ∀ k, k ∈ page ↔ i ≤ k ∧ k < j := fun k => (hpage k).trans (whole_iff hs k)
  change Chain _ i _ at hc
  by_cases hlt : i < j
  · have hi0 : i ≠ 0 := by
      have hin : i ∈ page := (hmem i).mpr ⟨le_rfl, hlt⟩
      exact hc.ne_zero (List.mem_append_left _ hin)
    by_cases hone : i + 1 = j
    · exact Or.inl ⟨by omega, Or.inl hone⟩
    · have hlast : j - 1 ∈ page ++ l := List.mem_append_left _ ((hmem _).mpr (by omega))
      obtain ⟨k, hk, hn⟩ := hc.exists_before hlast (by omega)
      have hfree := h.freelock_lt hs
      simp only [refill] at hn
      refine Or.inl ⟨by omega, Or.inr ⟨by omega, ?_⟩⟩
      change s.next (j - 2) = j - 1
      split at hn
      next => omega
      next hrow =>
        split at hn
        next => omega
        next hne =>
          have hk2 : k = j - 2 := by
            rcases List.mem_append.mp hk with hk | hk
            · have := (hmem k).mp hk
              omega
            · have hlt' := h.lt_first hs hk
              rcases h.free.next_mem hk with h0 | hl
              · omega
              · have := h.lt_first hs hl
                omega
          rwa [hk2] at hn
  · have hnil : page = [] := by
      refine List.eq_nil_iff_forall_not_mem.mpr fun k hk => ?_
      have := (hmem k).mp hk
      omega
    rw [hnil, List.nil_append] at hc
    cases l with
    | nil =>
      have hi0 : i = 0 := hc
      exact Or.inr ⟨hi0, by omega⟩
    | cons k l =>
      have hlt' := h.lt_first hs (List.mem_cons_self (a := k))
      have hk : i = k := hc.1
      omega

/-- `v_morelocks` loses nothing exactly when it returns ENOMEM because the
address of the next page is 0, or the segment has a page left and its
lockwords are joined. -/
theorem v_morelocks_loses_nothing (h : Listed size s l) (hs : 0 < size) :
    LosesNothing size s l ↔
      s.morelocks % 2 ^ 32 = 0 ∨ s.morelocks ≠ segEnd s ∧ Joins size s := by
  unfold LosesNothing
  rw [v_morelocks_eq]
  by_cases h0 : s.morelocks % 2 ^ 32 = 0
  · rw [if_pos h0]
    exact iff_of_true ⟨fun s' hs' => absurd hs' (Option.some_ne_none s').symm, fun _ => rfl⟩ (Or.inl h0)
  · rw [if_neg h0]
    constructor
    · rintro ⟨hr, hend⟩
      exact Or.inr ⟨fun he => Option.some_ne_none _ (hend he), joins_of_refilled h hs (hr _ rfl)⟩
    · rintro (h1 | ⟨hne, hj⟩)
      · exact absurd h1 h0
      · refine ⟨fun s' hs' => ?_, fun he => absurd he hne⟩
        rw [← Option.some.inj hs']
        exact refilled_of_joins h hs hj

/-- A segment with one page of lockwords in use and no free ones. -/
def onePage : Area := ⟨0x30000000, 0x30001000, 0, fun _ => 0⟩

theorem onePage_listed (size : Nat) : Listed size onePage [] :=
  ⟨rfl, fun _ hk => absurd hk List.not_mem_nil, by decide, by decide⟩

theorem v_morelocks_loses_nothing_long : LosesNothing 4096 onePage [] := by
  refine (v_morelocks_loses_nothing (onePage_listed 4096) (by decide)).mpr (Or.inr ⟨by decide, ?_⟩)
  exact Or.inl ⟨by decide, Or.inl (by decide)⟩

/-- Lockwords of 32 bytes: the last one of the page is lost, and at the end of
the segment the lockwords go on in the next one. -/
theorem v_morelocks_loses_last : Listed 32 onePage [] ∧ ¬ LosesNothing 32 onePage [] ∧
    v_morelocks 32 { onePage with morelocks := segEnd onePage } ≠ none := by
  refine ⟨onePage_listed 32, fun h => ?_, by decide⟩
  have hj := joins_of_refilled (onePage_listed 32) (by decide)
    (h.1 _ (v_morelocks_eq.trans (if_neg (by decide))))
  have hnot : ¬ Joins 32 onePage := by
    unfold Joins
    decide
  exact hnot hj

end Aix413.Lockword.MoreLocks
