import Mathlib.Data.BitVec
import Mathlib.Data.Fintype.Pi
import Mathlib.Tactic

namespace Aix413.Lvm.Sched

/-! ## Mirrors and masks of mirrors -/

/-- `PRIMMIRROR`, `SINGMIRROR` and `DOUBMIRROR`. -/
inductive Mirror where
  | prim
  | sing
  | doub
deriving DecidableEq

instance : Fintype Mirror := ⟨{.prim, .sing, .doub}, fun m => by cases m <;> simp⟩

namespace Mirror

def number : Mirror → Nat
  | prim => 0
  | sing => 1
  | doub => 2

/-- The mirror of a number, none for `MAXNUMPARTS`. -/
def ofNumber : Nat → Option Mirror
  | 0 => some prim
  | 1 => some sing
  | 2 => some doub
  | _ => none

end Mirror

abbrev Mask := BitVec 3

def allMirrors : Mask := 7
def mirrorMask (m : Mirror) : Mask := 1#3 <<< m.number

/-- First unmasked mirror; none if all masked. -/
def firstMirror (M : Mask) : Option Mirror :=
  Mirror.ofNumber ((0x30102010 >>> (M.toNat <<< 2)) &&& 0xf)

/-- First masked mirror; none if none masked. -/
def firstMask (M : Mask) : Option Mirror :=
  Mirror.ofNumber ((0x01020103 >>> (M.toNat <<< 2)) &&& 0xf)

/-- Number of unmasked mirrors. -/
def mirrorCount (M : Mask) : Nat := (0x01121223 >>> (M.toNat <<< 2)) &&& 0xf

/-- Mask for non-existent mirrors. -/
def mirrorExist (n : Nat) : Mask := BitVec.ofNat 3 ((0x467 >>> (n <<< 2)) &&& 0xf)

instance : Membership Mirror Mask := ⟨fun M m => M.getLsbD m.number = true⟩

instance (m : Mirror) (M : Mask) : Decidable (m ∈ M) :=
  inferInstanceAs (Decidable (M.getLsbD m.number = true))

theorem mem_def {m : Mirror} {M : Mask} : m ∈ M ↔ M.getLsbD m.number = true := Iff.rfl

@[simp] theorem mem_or {m : Mirror} {M N : Mask} : m ∈ M ||| N ↔ m ∈ M ∨ m ∈ N := by
  simp [mem_def]

@[simp] theorem mem_and {m : Mirror} {M N : Mask} : m ∈ M &&& N ↔ m ∈ M ∧ m ∈ N := by
  simp [mem_def]

@[simp] theorem mem_compl {m : Mirror} {M : Mask} : m ∈ ~~~M ↔ m ∉ M := by
  cases m <;> simp [mem_def, Mirror.number]

@[simp] theorem mem_mirrorMask {m n : Mirror} : m ∈ mirrorMask n ↔ m = n := by
  cases m <;> cases n <;> decide

@[simp] theorem mem_all (m : Mirror) : m ∈ allMirrors := by cases m <;> decide

@[simp] theorem not_mem_zero (m : Mirror) : m ∉ 0#3 := by cases m <;> decide

theorem mask_ext {M N : Mask} (h : ∀ m : Mirror, m ∈ M ↔ m ∈ N) : M = N := by
  have hp := h .prim
  have hs := h .sing
  have hd := h .doub
  revert M N
  decide

theorem eq_all {M : Mask} : M = allMirrors ↔ ∀ m : Mirror, m ∈ M :=
  ⟨fun h m => h ▸ mem_all m, fun h => mask_ext (by simp [h])⟩

theorem eq_zero {M : Mask} : M = 0 ↔ ∀ m : Mirror, m ∉ M :=
  ⟨fun h m => h ▸ not_mem_zero m, fun h => mask_ext (by simp [h])⟩

theorem ne_all {M : Mask} : M ≠ allMirrors ↔ ∃ m : Mirror, m ∉ M := by
  rw [Ne, eq_all, not_forall]

theorem ne_zero {M : Mask} : M ≠ 0 ↔ ∃ m : Mirror, m ∈ M := by
  rw [Ne, eq_zero, not_forall_not]

/-- The mask a loop over the mirrors builds bit by bit. -/
def maskOf (p : Mirror → Bool) : Mask :=
  (if p .prim then mirrorMask .prim else 0) ||| (if p .sing then mirrorMask .sing else 0) |||
    (if p .doub then mirrorMask .doub else 0)

@[simp] theorem mem_maskOf {m : Mirror} {p : Mirror → Bool} : m ∈ maskOf p ↔ p m = true := by
  cases m <;> cases hp : p .prim <;> cases hs : p .sing <;> cases hd : p .doub <;>
    simp [maskOf, hp, hs, hd]

/-- The mirrors of a mask in the order in which a `FIRST_MASK` loop takes them. -/
def mirrors (M : Mask) : List Mirror := [Mirror.prim, .sing, .doub].filter (· ∈ M)

@[simp] theorem mem_mirrors {m : Mirror} {M : Mask} : m ∈ mirrors M ↔ m ∈ M := by
  cases m <;> simp [mirrors]

theorem firstMask_eq (M : Mask) : firstMask M = (mirrors M).head? := by
  revert M
  decide

theorem firstMirror_eq (M : Mask) : firstMirror M = (mirrors (~~~M)).head? := by
  revert M
  decide

theorem firstMirror_notMem {M : Mask} {m : Mirror} (h : firstMirror M = some m) : m ∉ M := by
  rw [firstMirror_eq] at h
  simpa using List.mem_of_head? h

theorem firstMask_mem {M : Mask} {m : Mirror} (h : firstMask M = some m) : m ∈ M := by
  rw [firstMask_eq] at h
  simpa using List.mem_of_head? h

theorem firstMirror_none {M : Mask} : firstMirror M = none ↔ M = allMirrors := by
  revert M
  decide

theorem firstMask_none {M : Mask} : firstMask M = none ↔ M = 0 := by
  revert M
  decide

theorem mirrorCount_zero {M : Mask} : mirrorCount M = 0 ↔ M = allMirrors := by
  revert M
  decide

theorem mirrorCount_next {M : Mask} {m : Mirror} :
    m ∉ M → mirrorCount (M ||| mirrorMask m) + 1 = mirrorCount M := by
  revert M m
  decide

theorem mirrorCount_drop {M : Mask} {m : Mirror} :
    firstMask M = some m → mirrorCount (~~~(M &&& ~~~mirrorMask m)) + 1 = mirrorCount (~~~M) := by
  revert M m
  decide

end Aix413.Lvm.Sched
