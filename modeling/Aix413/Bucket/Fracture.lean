import Aix413.Bucket.Malloc
import Aix413.Lib.LinkedPool
import Aix413.Lib.Tiling
import Mathlib.Tactic.Ring
import Mathlib.Tactic.NormNum

namespace Aix413.Bucket

open Lib.LinkedPool Lib.Tiling

/-! ## Sizes -/

/-- The bytes of a block of a bucket, with its header. -/
def blockSize (i : Nat) : Nat := 2 ^ (i + 3) + if 9 ≤ i then pageSize else 0

/-- The page size and its bucket are set. -/
def State.Paged (s : State) : Prop := s.pagesz = pageSize ∧ s.pagebucket = 9

theorem blockSize_small {i : Nat} (hi : i < 9) : blockSize i = 2 ^ (i + 3) := by
  unfold blockSize
  rw [if_neg (by omega), Nat.add_zero]

theorem blockSize_large {i : Nat} (hi : 9 ≤ i) : blockSize i = 2 ^ (i + 3) + 4096 := by
  unfold blockSize
  rw [if_pos hi, pageSize]

theorem pow_lt_page {i : Nat} : 2 ^ (i + 3) < 4096 ↔ i < 9 := by
  rw [show (4096 : Nat) = 2 ^ 12 by norm_num, Nat.pow_lt_pow_iff_right (by norm_num)]
  omega

theorem blockSize_lt {i j : Nat} (h : i < j) : blockSize i < blockSize j := by
  have hpow : 2 ^ (i + 3) < 2 ^ (j + 3) := Nat.pow_lt_pow_right (by norm_num) (by omega)
  unfold blockSize
  split_ifs <;> omega

theorem lt_of_blockSize_lt {i j : Nat} (h : blockSize i < blockSize j) : i < j := by
  by_contra hn
  rcases Nat.eq_or_lt_of_le (Nat.le_of_not_lt hn) with rfl | hlt
  · exact lt_irrefl _ h
  · exact lt_asymm h (blockSize_lt hlt)

theorem eight_le_blockSize (i : Nat) : 8 ≤ blockSize i := by
  have hpow : 2 ^ 3 ≤ 2 ^ (i + 3) := Nat.pow_le_pow_right (by norm_num) (by omega)
  unfold blockSize
  omega

theorem blockSize_le {i : Nat} (hi : i ≤ 27) : blockSize i ≤ 2 ^ 30 + 4096 := by
  have hpow : 2 ^ (i + 3) ≤ 2 ^ 30 := Nat.pow_le_pow_right (by norm_num) (by omega)
  unfold blockSize pageSize
  split_ifs <;> omega

/-- `amt <<= 1`. -/
theorem double {b : Nat} (hb : b ≤ 27) : 2 ^ (b + 3) * 2 % 2 ^ 32 = 2 ^ (b + 1 + 3) := by
  have hpow : 2 ^ (b + 1 + 3) ≤ 2 ^ 31 := Nat.pow_le_pow_right (by norm_num) (by omega)
  rw [← pow_succ, show b + 3 + 1 = b + 1 + 3 by omega, Nat.mod_eq_of_lt (by omega)]

namespace State

variable {s : State} {i : Nat}

/-- The loop takes the first size with room enough. -/
theorem bucketFrom_spec (nbytes n fuel b : Nat) (hb : b ≤ 27) (hf : 28 ≤ fuel + b) :
    bucketFrom nbytes n fuel (2 ^ (b + 3)) b = -1 ∧
        (∀ k, b ≤ k → k ≤ 27 → (2 ^ (k + 3) + n) % 2 ^ 32 < nbytes) ∨
      ∃ c : Nat, bucketFrom nbytes n fuel (2 ^ (b + 3)) b = c ∧ b ≤ c ∧ c ≤ 27 ∧
        nbytes ≤ (2 ^ (c + 3) + n) % 2 ^ 32 ∧
        ∀ k, b ≤ k → k < c → (2 ^ (k + 3) + n) % 2 ^ 32 < nbytes := by
  induction fuel generalizing b with
  | zero => omega
  | succ fuel ih =>
    unfold bucketFrom
    by_cases hlt : (2 ^ (b + 3) + n) % 2 ^ 32 < nbytes
    · rw [if_pos hlt]
      dsimp only
      rw [double hb]
      by_cases hover : 2 ^ (b + 1 + 3) = 0 ∨ 2 ^ 31 ≤ 2 ^ (b + 1 + 3)
      · rw [if_pos hover]
        refine .inl ⟨rfl, fun k hk hk27 => ?_⟩
        have hb27 : 27 ≤ b := by
          by_contra hn
          have hpos : 0 < 2 ^ (b + 1 + 3) := by positivity
          have hpow : 2 ^ (b + 1 + 3) ≤ 2 ^ 30 := Nat.pow_le_pow_right (by norm_num) (by omega)
          omega
        rwa [show k = b by omega]
      · rw [if_neg hover]
        have hb' : b + 1 ≤ 27 := by
          by_contra hn
          refine hover (.inr (Nat.pow_le_pow_right (by norm_num) ?_))
          omega
        refine (ih (b + 1) hb' (by omega)).imp (fun ⟨he, hall⟩ => ⟨he, fun k hk hk27 => ?_⟩)
          fun ⟨c, hc, hbc, hc27, hroom, hmin⟩ =>
            ⟨c, hc, by omega, hc27, hroom, fun k hk hkc => ?_⟩
        · rcases Nat.eq_or_lt_of_le hk with rfl | hlt'
          · exact hlt
          · exact hall k hlt' hk27
        · rcases Nat.eq_or_lt_of_le hk with rfl | hlt'
          · exact hlt
          · exact hmin k hlt' hkc
    · rw [if_neg hlt]
      exact .inr ⟨b, rfl, le_rfl, hb, Nat.le_of_not_lt hlt, fun k hk hkb => by omega⟩

/-- It takes the size wanted if that is the first one with room. -/
theorem bucketFrom_eq {nbytes n fuel b c : Nat} (hbc : b ≤ c) (hc : c ≤ 27)
    (hf : 28 ≤ fuel + b) (hroom : nbytes ≤ (2 ^ (c + 3) + n) % 2 ^ 32)
    (hmin : ∀ k, b ≤ k → k < c → (2 ^ (k + 3) + n) % 2 ^ 32 < nbytes) :
    bucketFrom nbytes n fuel (2 ^ (b + 3)) b = c := by
  induction fuel generalizing b with
  | zero => omega
  | succ fuel ih =>
    unfold bucketFrom
    rcases Nat.eq_or_lt_of_le hbc with rfl | hlt
    · rw [if_neg (Nat.not_lt_of_le hroom)]
    · rw [if_pos (hmin b le_rfl hlt)]
      dsimp only
      have hpow : 2 ^ (b + 1 + 3) ≤ 2 ^ 30 := Nat.pow_le_pow_right (by norm_num) (by omega)
      have hpos : 0 < 2 ^ (b + 1 + 3) := by positivity
      rw [double (by omega), if_neg (by omega)]
      exact ih hlt (by omega) fun k hk => hmin k (by omega)

/-- The assembler code for sizes below a page and for those with the sign bit. -/
theorem cntlz_spec {x : Nat} (hx : x ≠ 0) (hlt : x < 2 ^ 32) :
    ∃ k : Nat, 2 ^ k ≤ x ∧ x < 2 ^ (k + 1) ∧ k ≤ 31 ∧ cntlz x = 31 - k ∧
      2 ^ 31 / 2 ^ cntlz x = 2 ^ k := by
  have hk : Nat.log2 x < 32 := (Nat.log2_lt hx).mpr hlt
  refine ⟨Nat.log2 x, Nat.log2_self_le hx, Nat.lt_log2_self, by omega, if_neg hx, ?_⟩
  unfold cntlz
  rw [if_neg hx, Nat.pow_div (by omega) (by norm_num)]
  congr 1
  omega

/-- The room that the first loop of `__whatbucket` leaves. -/
theorem loop_room (nbytes : Nat) (h0 : 0 ≤ bucketFrom nbytes (2 ^ 32 - overhead) 32 8 0) :
    nbytes + 8 ≤ blockSize (bucketFrom nbytes (2 ^ 32 - overhead) 32 8 0).toNat ∧
      (bucketFrom nbytes (2 ^ 32 - overhead) 32 8 0).toNat ≤ 29 := by
  rcases bucketFrom_spec nbytes (2 ^ 32 - overhead) 32 0 (by omega) (by omega) with
    ⟨he, -⟩ | ⟨c, he, -, hc, hroom, -⟩
  · rw [show (2 : Nat) ^ (0 + 3) = 8 by norm_num] at he
    rw [he] at h0
    omega
  · rw [show (2 : Nat) ^ (0 + 3) = 8 by norm_num] at he
    rw [he, Int.toNat_natCast]
    have hpow : 2 ^ 3 ≤ 2 ^ (c + 3) := Nat.pow_le_pow_right (by norm_num) (by omega)
    have hpow' : 2 ^ (c + 3) ≤ 2 ^ 30 := Nat.pow_le_pow_right (by norm_num) (by omega)
    have hle : 2 ^ (c + 3) ≤ blockSize c := Nat.le_add_right _ _
    unfold overhead at hroom
    omega

/-- The room in the bucket found, whether the page size is set or not. -/
theorem whatBucket_room {nbytes : Nat} (hp : s.Paged ∨ s.pagesz = 0) (hn : nbytes < 2 ^ 32 - 3)
    (h0 : 0 ≤ s.whatBucket nbytes) :
    nbytes + 8 ≤ blockSize (s.whatBucket nbytes).toNat ∧ (s.whatBucket nbytes).toNat ≤ 29 := by
  by_cases hlarge : 4088 ≤ nbytes ∧ nbytes < 2 ^ 31
  · have heq : s.whatBucket nbytes = s.whatbucket nbytes := by
      unfold whatBucket
      dsimp only
      rw [if_pos hlarge]
    rw [heq] at h0 ⊢
    unfold whatbucket at h0 ⊢
    dsimp only at h0 ⊢
    by_cases hle : nbytes ≤ (s.pagesz + 2 ^ 32 - overhead) % 2 ^ 32
    · rw [if_pos hle] at h0 ⊢
      exact loop_room nbytes h0
    · rw [if_neg hle] at h0 ⊢
      rcases hp with ⟨hpage, hbucket⟩ | hzero
      · rw [hpage, hbucket, show pageSize = 2 ^ (9 + 3) by decide,
          show (2 ^ (9 + 3) + 2 ^ 32 - overhead) % 2 ^ 32 = 4088 by decide] at h0 ⊢
        rcases bucketFrom_spec nbytes 4088 32 9 (by omega) (by omega) with
          ⟨he, -⟩ | ⟨c, he, hc9, hc, hroom, -⟩
        · rw [he] at h0
          omega
        · rw [he, Int.toNat_natCast, blockSize_large hc9]
          have hpos : 0 < 2 ^ (c + 3) := by positivity
          have hpow : 2 ^ (c + 3) ≤ 2 ^ 30 := Nat.pow_le_pow_right (by norm_num) (by omega)
          omega
      · rw [hzero] at hle
        unfold overhead at hle
        omega
  · have hx0 : (nbytes + overhead) % 2 ^ 32 < 2 ^ 32 := Nat.mod_lt _ (by norm_num)
    unfold whatBucket at h0 ⊢
    dsimp only at h0 ⊢
    rw [if_neg hlarge] at h0 ⊢
    by_cases hwrap : nbytes + 8 < 2 ^ 32
    · have hx : (nbytes + overhead) % 2 ^ 32 = nbytes + 8 := Nat.mod_eq_of_lt hwrap
      rw [hx] at h0 ⊢
      obtain ⟨k, hk1, hk2, hk31, hc, hd⟩ := cntlz_spec (x := nbytes + 8) (by omega) hwrap
      have hk3 : 3 ≤ k := by
        by_contra hn
        have hpow : 2 ^ (k + 1) ≤ 2 ^ 3 := Nat.pow_le_pow_right (by norm_num) (by omega)
        omega
      rw [hd, hc] at h0 ⊢
      by_cases hlt : 2 ^ k < nbytes + 8
      · rw [if_pos hlt] at h0 ⊢
        have hto : ((29 : Int) - (31 - k : Nat)).toNat = k - 2 := by omega
        rw [hto]
        have hle : 2 ^ (k - 2 + 3) ≤ blockSize (k - 2) := Nat.le_add_right _ _
        rw [show k - 2 + 3 = k + 1 by omega] at hle
        omega
      · rw [if_neg hlt] at h0 ⊢
        have hto : ((29 : Int) - (31 - k : Nat) - 1).toNat = k - 3 := by omega
        rw [hto]
        have hle : 2 ^ (k - 3 + 3) ≤ blockSize (k - 3) := Nat.le_add_right _ _
        rw [show k - 3 + 3 = k by omega] at hle
        omega
    · -- the sum wraps, to at most 4
      exfalso
      have hx : (nbytes + overhead) % 2 ^ 32 = nbytes + 8 - 2 ^ 32 := by
        unfold overhead
        omega
      rw [hx] at h0
      have hcases : nbytes + 8 - 2 ^ 32 ≤ 4 := by omega
      generalize nbytes + 8 - 2 ^ 32 = x at h0 hcases
      interval_cases x <;> exact absurd h0 (by decide)

/-- The bucket whose blocks just have the room. -/
theorem whatBucket_exact (hp : s.Paged) (hi : i ≤ 27) :
    s.whatBucket (blockSize i - 8) = i := by
  have h8 := eight_le_blockSize i
  have hle := blockSize_le hi
  unfold whatBucket
  dsimp only
  by_cases hsmall : i < 9
  · have hpow : 2 ^ (i + 3) < 4096 := pow_lt_page.mpr hsmall
    rw [blockSize_small hsmall] at h8 ⊢
    rw [if_neg (by omega), show 2 ^ (i + 3) - 8 + overhead = 2 ^ (i + 3) by
      unfold overhead; omega, Nat.mod_eq_of_lt (by omega)]
    have hlog : cntlz (2 ^ (i + 3)) = 31 - (i + 3) := by
      unfold cntlz
      rw [if_neg (by positivity), Nat.log2_two_pow]
    rw [hlog, Nat.pow_div (by omega) (by norm_num), show 31 - (31 - (i + 3)) = i + 3 by omega,
      if_neg (lt_irrefl _)]
    omega
  · have h9 : 9 ≤ i := Nat.le_of_not_lt hsmall
    have hpow : 2 ^ 12 ≤ 2 ^ (i + 3) := Nat.pow_le_pow_right (by norm_num) (by omega)
    rw [blockSize_large h9] at hle ⊢
    rw [if_pos (by omega)]
    unfold whatbucket
    dsimp only
    rw [hp.1, hp.2, show pageSize = 2 ^ (9 + 3) by decide,
      show (2 ^ (9 + 3) + 2 ^ 32 - overhead) % 2 ^ 32 = 4088 by decide, if_neg (by omega)]
    refine bucketFrom_eq h9 hi (by omega) (by omega) fun k hk hki => ?_
    have hk' : 2 ^ (k + 3) < 2 ^ (i + 3) := Nat.pow_lt_pow_right (by norm_num) (by omega)
    have hpos : 0 < 2 ^ (k + 3) := by positivity
    have hmod : (2 ^ (k + 3) + 4088) % 2 ^ 32 = 2 ^ (k + 3) + 4088 := Nat.mod_eq_of_lt (by omega)
    omega

/-- The largest block that fits what is left of a block of whole pages. -/
theorem whatBucket_fit (oamt : Nat) (hp : s.Paged) (h1 : 8192 ≤ oamt) (h2 : oamt ≤ 2 ^ 30 + 4096) :
    ∃ c : Nat, s.whatBucket (oamt - overhead) = c ∧ 9 ≤ c ∧ c ≤ 27 ∧ oamt ≤ 2 ^ (c + 3) + 4096 ∧
      ∀ k, 9 ≤ k → k < c → 2 ^ (k + 3) + 4096 < oamt := by
  unfold whatBucket overhead
  dsimp only
  rw [if_pos (by omega)]
  unfold whatbucket
  dsimp only
  rw [hp.1, hp.2, show pageSize = 2 ^ (9 + 3) by decide,
    show (2 ^ (9 + 3) + 2 ^ 32 - overhead) % 2 ^ 32 = 4088 by decide, if_neg (by omega)]
  rcases bucketFrom_spec (oamt - 8) 4088 32 9 (by omega) (by omega) with
    ⟨-, hall⟩ | ⟨c, he, hc9, hc, hroom, hmin⟩
  · have hlt := hall 27 (by omega) le_rfl
    norm_num at hlt
    omega
  · refine ⟨c, he, hc9, hc, ?_, fun k hk hkc => ?_⟩
    · have hpos : 0 < 2 ^ (c + 3) := by positivity
      have hpow : 2 ^ (c + 3) ≤ 2 ^ 30 := Nat.pow_le_pow_right (by norm_num) (by omega)
      omega
    · have hlt := hmin k hk hkc
      have hpos : 0 < 2 ^ (k + 3) := by positivity
      have hpow : 2 ^ (k + 3) ≤ 2 ^ 30 := Nat.pow_le_pow_right (by norm_num) (by omega)
      omega

end State


/-! ## Splitting -/

namespace State

/-- Blocks go on the free lists of their buckets. -/
def spill (s : State) (pieces : List (Nat × Nat)) : State :=
  pieces.foldl (fun s p => s.freeblock p.1 p.2) s

/-- Only the links and the heads of the lists change. -/
theorem spill_eq (s : State) (pieces : List (Nat × Nat)) : s.spill pieces =
    { s with word := (s.spill pieces).word, nextf := (s.spill pieces).nextf } := by
  induction pieces generalizing s with
  | nil => rfl
  | cons p pieces ih => exact ih (s.freeblock p.1 p.2)

theorem spill_append (s : State) (pieces pieces' : List (Nat × Nat)) :
    s.spill (pieces ++ pieces') = (s.spill pieces).spill pieces' := List.foldl_append

theorem Paged.spill {s : State} (hp : s.Paged) (pieces : List (Nat × Nat)) :
    (s.spill pieces).Paged := by
  rw [spill_eq]
  exact hp

end State

/-- `k` blocks of one bucket. -/
def row (bucket sz : Nat) : Nat → Nat → List (Nat × Nat)
  | 0, _ => []
  | k + 1, op => (op, bucket) :: row bucket sz k (op + sz)

/-- The blocks follow each other from `a` to `b`. -/
abbrev Tiled (a b : Nat) (pieces : List (Nat × Nat)) : Prop :=
  Tiles Prod.fst (fun p : Nat × Nat => blockSize p.2) a b pieces

theorem tiled_row {bucket sz : Nat} (hsz : blockSize bucket = sz) (k op : Nat) :
    Tiled op (op + k * sz) (row bucket sz k op) := by
  induction k generalizing op with
  | zero => simp [row, Tiles]
  | succ k ih =>
    refine ⟨rfl, ?_⟩
    have h := ih (op + sz)
    dsimp only
    rwa [hsz, show op + (k + 1) * sz = op + sz + k * sz by ring]

namespace State

theorem sub_eq {a b : Nat} (hb : b ≤ a) (ha : a < 2 ^ 32) : sub a b = a - b := by
  unfold sub
  omega

/-- The `do` loop cuts blocks until nothing is left. -/
theorem chop_eq {bucket sz k fuel op rest : Nat} {s : State} (hsz : 0 < sz)
    (hrest : rest = (k + 1) * sz) (hlt : rest < 2 ^ 32) (hf : k < fuel) :
    chop bucket sz fuel s op rest = some (s.spill (row bucket sz (k + 1) op), op + rest) := by
  induction k generalizing fuel op rest s with
  | zero =>
    obtain ⟨fuel, rfl⟩ := Nat.exists_eq_succ_of_ne_zero (by omega : fuel ≠ 0)
    have hr : rest = sz := by rw [hrest, Nat.zero_add, Nat.one_mul]
    unfold chop
    dsimp only
    rw [hr, sub_eq le_rfl (by omega), Nat.sub_self, if_neg (lt_irrefl 0)]
    rfl
  | succ k ih =>
    obtain ⟨fuel, rfl⟩ := Nat.exists_eq_succ_of_ne_zero (by omega : fuel ≠ 0)
    have hr : rest = (k + 1) * sz + sz := by rw [hrest]; ring
    have hpos : 0 < (k + 1) * sz := by positivity
    unfold chop
    dsimp only
    rw [sub_eq (by omega) hlt, show rest - sz = (k + 1) * sz by omega, if_pos hpos,
      ih rfl (by omega) (by omega)]
    rw [show op + sz + (k + 1) * sz = op + rest by omega]
    rfl

/-- The loop over whole pages takes all of them. -/
theorem spread_spec {nbucket namt m fuel : Nat} {s : State} (op : Nat) (hp : s.Paged)
    (hn : namt < 4096 → nbucket < 9) (hm : 4096 * m ≤ 2 ^ 30 + 4096) (hf : m < fuel) :
    ∃ pieces, spread nbucket namt fuel s op (4096 * m) = some (s.spill pieces) ∧
      Tiled op (op + 4096 * m) pieces := by
  induction fuel generalizing m op s with
  | zero => omega
  | succ fuel ih =>
    unfold spread
    by_cases hm0 : m = 0
    · subst hm0
      exact ⟨[], rfl, rfl⟩
    · rw [if_neg (by omega), hp.1, pageSize]
      by_cases hm1 : m = 1
      · subst hm1
        rw [if_neg (by omega)]
        dsimp only
        rw [hp.2, Option.bind_eq_bind]
        have hbucket : ∃ b, b < 9 ∧ (if namt < 4096 then nbucket else 9 - 1) = b := by
          by_cases hlt : namt < 4096
          · exact ⟨nbucket, hn hlt, if_pos hlt⟩
          · exact ⟨8, by omega, if_neg hlt⟩
        obtain ⟨b, hb, hbe⟩ := hbucket
        have hpow : 4096 = (2 ^ (9 - b) - 1 + 1) * 2 ^ (b + 3) := by
          rw [Nat.sub_add_cancel (Nat.one_le_two_pow), ← pow_add,
            show 9 - b + (b + 3) = 12 by omega]
          norm_num
        have hk : 2 ^ (9 - b) ≤ 2 ^ 9 := Nat.pow_le_pow_right (by norm_num) (by omega)
        have hchop : chop b (2 ^ (b + 3)) (4096 + 1) s op 4096 =
            some (s.spill (row b (2 ^ (b + 3)) (2 ^ (9 - b) - 1 + 1) op), op + 4096) :=
          chop_eq (by positivity) hpow (by norm_num) (by omega)
        have hrow := tiled_row (blockSize_small hb) (2 ^ (9 - b) - 1 + 1) op
        rw [← hpow] at hrow
        obtain ⟨pieces, he, htiled⟩ := ih (op + 4096)
          (hp.spill (row b (2 ^ (b + 3)) (2 ^ (9 - b) - 1 + 1) op)) (m := 0) (by omega) (by omega)
        rw [hbe, Nat.mul_one, hchop, Option.bind_some]
        refine ⟨_ ++ pieces, by rw [spill_append]; exact he, Tiles.append hrow ?_⟩
        exact htiled
      · obtain ⟨c, hc, hc9, hc27, hfit, hmin⟩ :=
          whatBucket_fit (4096 * m) hp (by omega) hm
        rw [if_pos (by omega)]
        dsimp only
        rw [hc, Int.toNat_natCast]
        have hbucket : ∃ b, (if 4096 * m < 2 ^ (c + 3) + 4096 then c - 1 else c) = b ∧ 9 ≤ b ∧
            2 ^ (b + 3) + 4096 ≤ 4096 * m := by
          by_cases hlt : 4096 * m < 2 ^ (c + 3) + 4096
          · have hc10 : 9 < c := by
              by_contra hn
              obtain rfl : c = 9 := by omega
              norm_num at hlt
              omega
            exact ⟨c - 1, if_pos hlt, by omega, (hmin (c - 1) (by omega) (by omega)).le⟩
          · exact ⟨c, if_neg hlt, hc9, Nat.le_of_not_lt hlt⟩
        obtain ⟨b, hbe, hb9, hble⟩ := hbucket
        have hpow : 2 ^ (b + 3) = 4096 * 2 ^ (b - 9) := by
          rw [show b + 3 = 12 + (b - 9) by omega, pow_add]
          norm_num
        have hrest : sub (4096 * m) (2 ^ (b + 3) + 4096) = 4096 * (m - 2 ^ (b - 9) - 1) := by
          rw [sub_eq hble (by omega)]
          omega
        obtain ⟨pieces, he, htiled⟩ := ih (s := s.freeblock op b) (op + (2 ^ (b + 3) + 4096))
          (m := m - 2 ^ (b - 9) - 1) hp (by omega) (by omega)
        rw [hbe, hrest]
        refine ⟨(op, b) :: pieces, he, rfl, ?_⟩
        dsimp only
        rw [blockSize_large hb9]
        rwa [show op + (2 ^ (b + 3) + 4096) + 4096 * (m - 2 ^ (b - 9) - 1) = op + 4096 * m by
          omega] at htiled

end State


namespace State

/-- The fuel given is enough. -/
theorem spread_all {nbucket namt m : Nat} {s : State} (op : Nat) (hp : s.Paged)
    (hn : namt < 4096 → nbucket < 9) (hm : 4096 * m ≤ 2 ^ 30 + 4096) :
    ∃ pieces, spread nbucket namt (4096 * m + 1) s op (4096 * m) = some (s.spill pieces) ∧
      Tiled op (op + 4096 * m) pieces :=
  spread_spec op hp hn hm (by omega)

/-- What is left behind the front, in front-sized pieces. -/
theorem pow_sub_pow {i j : Nat} (h : i < j) :
    2 ^ j - 2 ^ i = (2 ^ (j - i) - 2 + 1) * 2 ^ i ∧ 2 ^ (j - i) - 2 < 2 ^ j - 2 ^ i + 1 := by
  obtain ⟨d, rfl⟩ : ∃ d, j = i + (d + 1) := ⟨j - i - 1, by omega⟩
  have hd : 1 ≤ 2 ^ d := Nat.one_le_two_pow
  have hi : 1 ≤ 2 ^ i := Nat.one_le_two_pow
  have hpow : 2 ^ (i + (d + 1)) = 2 ^ i * (2 * 2 ^ d) := by
    rw [pow_add, pow_succ]
    ring
  have hmul : 2 ^ i * (2 * 2 ^ d) - 2 ^ i = (2 * 2 ^ d - 1) * 2 ^ i := by
    rw [Nat.sub_mul, Nat.one_mul, Nat.mul_comm]
  have hle : 2 * 2 ^ d - 1 ≤ (2 * 2 ^ d - 1) * 2 ^ i := Nat.le_mul_of_pos_right _ hi
  rw [show i + (d + 1) - i = d + 1 by omega, hpow, hmul, pow_succ, Nat.mul_comm (2 ^ d) 2]
  refine ⟨?_, by omega⟩
  congr 1
  omega

/-- The pieces of a block that is split tile it. -/
theorem fracture_spec {s : State} {obucket nbucket : Nat} (op : Nat) (hp : s.Paged)
    (hlt : nbucket < obucket) (ho : obucket ≤ 27) :
    ∃ pieces, s.fracture op obucket (blockSize nbucket - 8) =
        some ((s.carve op obucket nbucket).spill pieces) ∧
      Tiled op (op + blockSize obucket) ((op, nbucket) :: pieces) := by
  have hcarve : (s.carve op obucket nbucket).Paged := hp
  have holt := blockSize_le ho
  have hpow : 2 ^ (nbucket + 3) < 2 ^ (obucket + 3) :=
    Nat.pow_lt_pow_right (by norm_num) (by omega)
  have hsize : (if 4096 ≤ 2 ^ (obucket + 3) then 2 ^ (obucket + 3) + 4096 else
      2 ^ (obucket + 3)) = blockSize obucket := by
    by_cases h9 : obucket < 9
    · rw [if_neg (Nat.not_le_of_lt (pow_lt_page.mpr h9)), blockSize_small h9]
    · rw [if_pos (Nat.le_of_not_lt fun h => h9 (pow_lt_page.mp h)),
        blockSize_large (Nat.le_of_not_lt h9)]
  unfold fracture
  dsimp only
  rw [whatBucket_exact hp (by omega), Int.toNat_natCast, hcarve.1, hp.1, pageSize, hsize]
  by_cases hn : nbucket < 9
  · have hnp := pow_lt_page.mpr hn
    have hnsize := blockSize_small hn
    rw [if_pos hnp]
    obtain ⟨j, m, hj, hsum, hsz, hrest⟩ : ∃ j m, nbucket + 3 < j ∧
        2 ^ j + 4096 * m = blockSize obucket ∧
        (if blockSize obucket < 4096 then sub (blockSize obucket) (2 ^ (nbucket + 3))
          else sub 4096 (2 ^ (nbucket + 3))) = 2 ^ j - 2 ^ (nbucket + 3) ∧
        (if blockSize obucket < 4096 then 0 else sub (blockSize obucket) 4096) = 4096 * m := by
      by_cases h9 : obucket < 9
      · have hop := pow_lt_page.mpr h9
        rw [blockSize_small h9, if_pos hop, if_pos hop, sub_eq hpow.le (by omega)]
        exact ⟨obucket + 3, 0, by omega, by omega, rfl, rfl⟩
      · have h9 := Nat.le_of_not_lt h9
        have hop : 2 ^ (obucket + 3) = 4096 * 2 ^ (obucket - 9) := by
          rw [show obucket + 3 = 12 + (obucket - 9) by omega, pow_add]
          norm_num
        rw [blockSize_large h9] at holt ⊢
        rw [if_neg (by omega), if_neg (by omega), sub_eq hnp.le (by norm_num),
          sub_eq (by omega) (by omega)]
        exact ⟨12, 2 ^ (obucket - 9), by omega, by omega, by norm_num, by omega⟩
    rw [hsz, hrest]
    obtain ⟨hmul, hk⟩ := pow_sub_pow hj
    have hjpos : 2 ^ (nbucket + 3) < 2 ^ j := Nat.pow_lt_pow_right (by norm_num) hj
    have hrow := tiled_row hnsize (2 ^ (j - (nbucket + 3)) - 2 + 1) (op + 2 ^ (nbucket + 3))
    rw [← hmul] at hrow
    rw [Option.bind_eq_bind, chop_eq (by positivity) hmul (by omega) hk, Option.bind_some]
    obtain ⟨pieces, he, htiled⟩ := spread_all
      (op + 2 ^ (nbucket + 3) + (2 ^ j - 2 ^ (nbucket + 3))) (m := m)
      (hcarve.spill (row nbucket (2 ^ (nbucket + 3)) (2 ^ (j - (nbucket + 3)) - 2 + 1)
        (op + 2 ^ (nbucket + 3)))) (fun _ : 2 ^ (nbucket + 3) < 4096 => hn) (by omega)
    refine ⟨_ ++ pieces, by rw [spill_append]; exact he, rfl, ?_⟩
    dsimp only
    rw [hnsize]
    refine Tiles.append hrow ?_
    rwa [show op + 2 ^ (nbucket + 3) + (2 ^ j - 2 ^ (nbucket + 3)) + 4096 * m =
      op + blockSize obucket by omega] at htiled
  · have h9 := Nat.le_of_not_lt hn
    have h9' : 9 ≤ obucket := by omega
    have hmul : ∀ i, 9 ≤ i → 2 ^ (i + 3) = 4096 * 2 ^ (i - 9) := by
      intro i hi
      rw [show i + 3 = 12 + (i - 9) by omega, pow_add]
      norm_num
    have hno := hmul nbucket h9
    have hoo := hmul obucket h9'
    have hrest : sub (blockSize obucket) (2 ^ (nbucket + 3) + 4096) =
        4096 * (2 ^ (obucket - 9) - 2 ^ (nbucket - 9)) := by
      rw [blockSize_large h9'] at holt ⊢
      rw [sub_eq (by omega) (by omega), Nat.mul_sub]
      omega
    rw [if_neg fun h => hn (pow_lt_page.mp h), hrest]
    rw [blockSize_large h9'] at holt ⊢
    obtain ⟨pieces, he, htiled⟩ := spread_all (op + (2 ^ (nbucket + 3) + 4096))
      (m := 2 ^ (obucket - 9) - 2 ^ (nbucket - 9)) hcarve
      (fun h : 2 ^ (nbucket + 3) + 4096 < 4096 => absurd h (by omega)) (by omega)
    refine ⟨pieces, he, rfl, ?_⟩
    dsimp only
    rw [blockSize_large h9]
    rwa [show op + (2 ^ (nbucket + 3) + 4096) + 4096 * (2 ^ (obucket - 9) - 2 ^ (nbucket - 9)) =
      op + (2 ^ (obucket + 3) + 4096) by omega] at htiled

end State

end Aix413.Bucket
