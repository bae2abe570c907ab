import Mathlib.Tactic

namespace Aix413.Lib.BlockMove

/-! ## Blocks of a memory that are moved -/

variable {β : Type*} {m m' : Nat → β} {src dst a b n k size : Nat}

/-- `n` cells from `src` on are moved to `dst`, overlapping or not. -/
def move (m : Nat → β) (src dst n : Nat) : Nat → β := fun a =>
  if dst ≤ a ∧ a < dst + n then m (src + (a - dst)) else m a

/-- The `n` cells from `a` on. -/
def window (m : Nat → β) (a n : Nat) : List β := (List.range n).map fun i => m (a + i)

theorem move_out (h : a < dst ∨ dst + n ≤ a) : move m src dst n a = m a :=
  if_neg (by omega)

theorem move_in (h : k < n) : move m src dst n (dst + k) = m (src + k) := by
  unfold move
  rw [if_pos (by omega), Nat.add_sub_cancel_left]

theorem move_self (m : Nat → β) (a n : Nat) : move m a a n = m := by
  funext x
  unfold move
  split_ifs with h
  · rw [Nat.add_sub_cancel' h.1]
  · rfl

theorem move_zero (m : Nat → β) (src dst : Nat) : move m src dst 0 = m := by
  funext x
  exact move_out (by omega)

@[simp] theorem length_window (m : Nat → β) (a n : Nat) : (window m a n).length = n := by
  simp [window]

theorem window_congr (h : ∀ i < n, m' (b + i) = m (a + i)) : window m' b n = window m a n :=
  List.map_congr_left fun i hi => h i (List.mem_range.mp hi)

theorem window_add (m : Nat → β) (a n k : Nat) :
    window m a (n + k) = window m a n ++ window m (a + n) k := by
  unfold window
  rw [List.range_add, List.map_append, List.map_map]
  congr 1
  apply List.map_congr_left
  intro i _
  exact congrArg m (Nat.add_assoc a n i).symm

/-- What agrees on a window agrees on its parts. -/
theorem window_sub (h : window m' a n = window m a n) (hle : b + k ≤ n) :
    window m' (a + b) k = window m (a + b) k := by
  refine window_congr fun i hi => ?_
  have hbi : b + i < n := by omega
  have hcell := List.map_inj_left.mp h (b + i) (List.mem_range.mpr hbi)
  rw [Nat.add_assoc]
  exact hcell

theorem window_move (m : Nat → β) (src dst n : Nat) :
    window (move m src dst n) dst n = window m src n :=
  window_congr fun _ hi => move_in hi

theorem window_move_out (h : a + k ≤ dst ∨ dst + n ≤ a) :
    window (move m src dst n) a k = window m a k :=
  window_congr fun _ hi => move_out (by omega)

/-- `n` pieces below `srce` are moved below `dste`, the last one first. -/
def moveDown (size : Nat) : Nat → Nat → Nat → (Nat → β) → Nat → β
  | 0, _, _, m => m
  | n + 1, srce, dste, m =>
    moveDown size n (srce - size) (dste - size) (move m (srce - size) (dste - size) size)

/-- Piece by piece from the end is as good as at once, as long as it goes upwards. -/
theorem moveDown_eq (m : Nat → β) (h : src ≤ dst) :
    moveDown size n (src + n * size) (dst + n * size) m = move m src dst (n * size) := by
  induction n generalizing m with
  | zero =>
    rw [Nat.zero_mul, move_zero]
    rfl
  | succ n ih =>
    have hs : (n + 1) * size = n * size + size := Nat.succ_mul n size
    rw [moveDown, hs, ← Nat.add_assoc, ← Nat.add_assoc, Nat.add_sub_cancel, Nat.add_sub_cancel, ih]
    funext x
    unfold move
    split_ifs <;> first | omega | exact congrArg m (by omega)

/-! ## Blocks packed together and back -/

/-- A block and where it is at home. -/
structure Block where
  home : Nat
  len : Nat
  /-- The block is wanted back. -/
  keep : Bool

def total (bs : List Block) : Nat := (bs.map Block.len).sum

theorem total_cons (b : Block) (bs : List Block) : total (b :: bs) = b.len + total bs := by
  simp [total]

/-- The blocks lie one behind the other from `lo` on. -/
def Spread : Nat → List Block → Prop
  | _, [] => True
  | lo, b :: bs => lo ≤ b.home ∧ Spread (b.home + b.len) bs

/-- The blocks are moved together, the first one first. -/
def pack : List Block → Nat → (Nat → β) → Nat → β
  | [], _, m => m
  | b :: bs, dst, m => pack bs (dst + b.len) (move m b.home dst b.len)

/-- The blocks are moved home, the last one first. -/
def unpack : List Block → Nat → (Nat → β) → Nat → β
  | [], _, m => m
  | b :: bs, src, m =>
    let m := unpack bs (src + b.len) m
    if b.keep then move m src b.home b.len else m

variable {bs : List Block} {lo : Nat}

theorem Spread.mono (h : Spread lo bs) (hle : k ≤ lo) : Spread k bs := by
  cases bs with
  | nil => trivial
  | cons b bs => exact ⟨hle.trans h.1, h.2⟩

theorem Spread.append_left {cs : List Block} (h : Spread lo (bs ++ cs)) : Spread lo bs := by
  induction bs generalizing lo with
  | nil => trivial
  | cons b bs ih => exact ⟨h.1, ih h.2⟩

theorem Spread.home_le (h : Spread lo bs) {c : Block} (hc : c ∈ bs) : lo ≤ c.home := by
  induction bs generalizing lo with
  | nil => cases hc
  | cons b bs ih =>
    rcases List.mem_cons.mp hc with rfl | hc
    · exact h.1
    · have hle := ih h.2 hc
      have := h.1
      omega

theorem pack_below (m : Nat → β) (h : a < dst) : pack bs dst m a = m a := by
  induction bs generalizing dst m with
  | nil => rfl
  | cons b bs ih =>
    rw [pack, ih _ (by omega)]
    exact move_out (by omega)

/-- Nothing behind the blocks is touched. -/
theorem pack_above (m : Nat → β) (h : Spread dst bs) (hlt : ∀ b ∈ bs, b.home + b.len ≤ a)
    (hdst : dst ≤ a) : pack bs dst m a = m a := by
  induction bs generalizing dst m with
  | nil => rfl
  | cons b bs ih =>
    have hb := hlt b List.mem_cons_self
    have hsp := h.1
    rw [pack, ih _ (h.2.mono (by omega)) (fun c hc => hlt c (List.mem_cons_of_mem b hc)) (by omega)]
    exact move_out (by omega)

/-- Packed blocks are the concatenation of the blocks. -/
theorem window_pack (m : Nat → β) (h : Spread dst bs) :
    window (pack bs dst m) dst (total bs) = bs.flatMap fun b => window m b.home b.len := by
  induction bs generalizing dst m with
  | nil => rfl
  | cons b bs ih =>
    have hsp := h.1
    rw [total_cons, window_add, pack, List.flatMap_cons]
    congr 1
    · rw [← window_move m b.home dst b.len]
      exact window_congr fun i hi => pack_below _ (by omega)
    · rw [ih _ (h.2.mono (by omega))]
      apply List.flatMap_congr
      intro c hc
      have hle := h.2.home_le hc
      exact window_move_out (.inr (by omega))

theorem unpack_below (m : Nat → β) (h : Spread lo bs) (ha : a < lo) : unpack bs src m a = m a := by
  induction bs generalizing src lo with
  | nil => rfl
  | cons b bs ih =>
    have hsp := h.1
    have hrest : unpack bs (src + b.len) m a = m a :=
      ih (h.2.mono (Nat.le_add_right _ _)) (by omega)
    rw [unpack]
    split_ifs
    · rw [move_out (by omega)]
      exact hrest
    · exact hrest

/-- Nothing but the homes of the blocks is touched. -/
theorem unpack_out (m : Nat → β) (hout : ∀ b ∈ bs, a < b.home ∨ b.home + b.len ≤ a) :
    unpack bs src m a = m a := by
  induction bs generalizing src with
  | nil => rfl
  | cons b bs ih =>
    have hrest : unpack bs (src + b.len) m a = m a :=
      ih fun c hc => hout c (List.mem_cons_of_mem b hc)
    rw [unpack]
    split_ifs
    · rw [move_out (hout b List.mem_cons_self)]
      exact hrest
    · exact hrest

variable {l₁ l₂ : List Block} {b : Block}

/-- The blocks before one need room. -/
theorem Spread.total_le (h : Spread lo (l₁ ++ b :: l₂)) : lo + total l₁ ≤ b.home := by
  induction l₁ generalizing lo with
  | nil => exact h.1
  | cons c l₁ ih =>
    have hc := h.1
    have hle := ih h.2
    rw [total_cons]
    omega

/-- A packed block, where it has been put. -/
theorem window_pack_one (m : Nat → β) (h : Spread dst (l₁ ++ b :: l₂)) :
    window (pack (l₁ ++ b :: l₂) dst m) (dst + total l₁) b.len = window m b.home b.len := by
  induction l₁ generalizing dst m with
  | nil =>
    change window (pack l₂ (dst + b.len) (move m b.home dst b.len)) dst b.len = _
    rw [← window_move m b.home dst b.len]
    exact window_congr fun i hi => pack_below _ (by omega)
  | cons c l₁ ih =>
    have hc := h.1
    have hle := h.2.home_le (List.mem_append_right l₁ List.mem_cons_self)
    have hrest := ih (move m c.home dst c.len) (h.2.mono (k := dst + c.len) (by omega))
    rw [total_cons, ← Nat.add_assoc]
    exact hrest.trans (window_move_out (.inr (by omega)))

/-- A block that is wanted comes home from where it was packed. -/
theorem window_unpack (m : Nat → β) (h : Spread src (l₁ ++ b :: l₂)) (hk : b.keep = true) :
    window (unpack (l₁ ++ b :: l₂) src m) b.home b.len = window m (src + total l₁) b.len := by
  induction l₁ generalizing src with
  | nil =>
    have hb := h.1
    change window (unpack (b :: l₂) src m) b.home b.len = window m src b.len
    rw [unpack]
    rw [if_pos hk, window_move]
    exact window_congr fun i hi => unpack_below m h.2 (by omega)
  | cons c l₁ ih =>
    have hc := h.1
    have hle := h.2.home_le (List.mem_append_right l₁ List.mem_cons_self)
    have hrest := ih (h.2.mono (k := src + c.len) (by omega))
    rw [total_cons, ← Nat.add_assoc, ← hrest]
    change window (unpack (c :: (l₁ ++ b :: l₂)) src m) b.home b.len = _
    rw [unpack]
    split_ifs
    · exact window_move_out (.inr (by omega))
    · rfl

/-- The last block is the first to be moved. -/
theorem unpack_concat (bs : List Block) (b : Block) (src : Nat) (m : Nat → β) :
    unpack (bs ++ [b]) src m =
      unpack bs src (if b.keep then move m (src + total bs) b.home b.len else m) := by
  induction bs generalizing src with
  | nil => rfl
  | cons c bs ih =>
    rw [List.cons_append, unpack, unpack, ih, total_cons, ← Nat.add_assoc]

/-- Where a block lies at home all those before it do. -/
theorem unpack_tight (m : Nat → β) (h : Spread src (bs ++ [b])) (hb : b.home = src + total bs) :
    unpack (bs ++ [b]) src m = m := by
  induction bs generalizing src with
  | nil =>
    have heq : b.home = src := hb
    change (if b.keep then move m src b.home b.len else m) = m
    rw [heq, move_self]
    exact ite_self m
  | cons c bs ih =>
    have hc := h.1
    have hle := Spread.total_le h.2
    rw [total_cons] at hb
    have heq : c.home = src := by omega
    have hrest : unpack (bs ++ [b]) (src + c.len) m = m := ih (heq ▸ h.2) (by omega)
    rw [List.cons_append, unpack, hrest, heq, move_self]
    exact ite_self m

end Aix413.Lib.BlockMove
