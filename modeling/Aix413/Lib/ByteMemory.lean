import Mathlib.Tactic

namespace Aix413.Lib.ByteMemory

/-! ## Words in a memory of bytes, the most significant byte first -/

abbrev Memory := Int → BitVec 8

def load (m : Memory) (x : Int) : BitVec 32 := m x ++ m (x + 1) ++ m (x + 2) ++ m (x + 3)

def store (m : Memory) (x : Int) (w : BitVec 32) : Memory := fun y =>
  if y = x then w.extractLsb' 24 8
  else if y = x + 1 then w.extractLsb' 16 8
  else if y = x + 2 then w.extractLsb' 8 8
  else if y = x + 3 then w.extractLsb' 0 8
  else m y

/-- Bytes are cleared. -/
def clear (m : Memory) (x : Int) (n : Nat) : Memory := fun y => if x ≤ y ∧ y < x + n then 0 else m y

variable {m m' : Memory} {x y : Int} {w : BitVec 32}

theorem load_congr (h : ∀ z, x ≤ z → z < x + 4 → m' z = m z) : load m' x = load m x := by
  unfold load
  rw [h x (by omega) (by omega), h (x + 1) (by omega) (by omega), h (x + 2) (by omega) (by omega),
    h (x + 3) (by omega) (by omega)]

theorem store_of_far (h : y < x ∨ x + 4 ≤ y) : store m x w y = m y := by
  unfold store
  rw [if_neg (by omega), if_neg (by omega), if_neg (by omega), if_neg (by omega)]

theorem load_store_of_far (h : y + 4 ≤ x ∨ x + 4 ≤ y) : load (store m x w) y = load m y :=
  load_congr fun _ h1 h2 => store_of_far (by omega)

theorem load_store : load (store m x w) x = w := by
  have h0 : store m x w x = w.extractLsb' 24 8 := if_pos rfl
  have h1 : store m x w (x + 1) = w.extractLsb' 16 8 := by
    unfold store
    rw [if_neg (by omega), if_pos rfl]
  have h2 : store m x w (x + 2) = w.extractLsb' 8 8 := by
    unfold store
    rw [if_neg (by omega), if_neg (by omega), if_pos rfl]
  have h3 : store m x w (x + 3) = w.extractLsb' 0 8 := by
    unfold store
    rw [if_neg (by omega), if_neg (by omega), if_neg (by omega), if_pos rfl]
  unfold load
  rw [h0, h1, h2, h3]
  ext i hi
  simp only [BitVec.getElem_append, BitVec.getElem_extractLsb']
  grind

end Aix413.Lib.ByteMemory
