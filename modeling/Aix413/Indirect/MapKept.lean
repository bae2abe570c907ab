import Aix413.Indirect.Growing

namespace Aix413.Indirect

variable {s s' t : State} {l l₁ : List Nat} {q pno n disk : Nat}

/-! ## The number of blocks -/

theorem Wf.howmanyind_double (h : Wf s l) (hd : dblind s.size = true)
    (hno : s.vFindiblk pno = none) : s.howmanyind pno = 1 := by
  have hlow : ¬pno < perblock := by
    intro hlt
    rw [find_double hd h.number, Nat.div_eq_of_lt hlt, if_neg (h.first hd)] at hno
    cases hno
  have hv : s.vindirect ≠ 0 := by
    have h1 := (h.root (not_noind_of_dblind hd)).1.1
    unfold firstind at h1
    omega
  rw [State.howmanyind, if_neg hlow, if_pos hd]
  exact if_neg hv

theorem Wf.howmanyind_single (h : Wf s l) (hn : noind s.size = false) (hd : dblind s.size = false)
    (hno : s.vFindiblk pno = none) (hpno : pno < maxpages) : s.howmanyind pno = 2 := by
  have hlow := (single_none h hn hd hno hpno).1
  have hv : s.vindirect ≠ 0 := by
    have h1 := (h.root hn).1.1
    unfold firstind at h1
    omega
  rw [State.howmanyind, if_neg (Nat.not_lt.mpr hlow), hd]
  exact if_neg hv

theorem Wf.howmanyind_noind (h : Wf s l) (hn : noind s.size = true) :
    s.howmanyind pno = if pno < perblock then 1 else 3 := by
  have hd : dblind s.size = false := by
    by_contra hd
    rw [Bool.not_eq_false] at hd
    exact Bool.false_ne_true ((not_noind_of_dblind hd).symm.trans hn)
  rw [State.howmanyind, hd]
  refine if_congr Iff.rfl rfl ?_
  exact if_pos (h.direct hn).1

/-- At most three blocks. -/
theorem howmanyind_le (s : State) (pno : Nat) : s.howmanyind pno ≤ 3 := by
  unfold State.howmanyind
  dsimp only
  split
  · decide
  · split <;> split <;> decide

/-! ## v_growiblk -/

/-- The growths that keep the last page of the largest file apart from the others as well. -/
def KeepsLast (s : State) (pno : Nat) : Prop :=
  dblind s.size = true ∨ noind s.size = true ∧ perblock ≤ pno ∨
    noind s.size = false ∧ pno / perblock = 511 ∧ s.page s.vindirect (perblock - 1) = 0

/-- The blocks are made out of the first pages of the free list. -/
theorem Wf.grow (h : Wf s l) (fperpage : Nat) (hpno : pno < maxpages)
    (hno : s.vFindiblk pno = none) (hn : s.howmanyind pno = n) (hlen : n ≤ l.length) :
    ∃ s', s.grown pno n disk fperpage = some s' ∧ Wf s' (l.drop n) ∧
      Maps s s' pno (maxpages - 1) (newEntry (disk + n * fperpage)) ∧
      (Maps s s' pno maxpages (newEntry (disk + n * fperpage)) ↔ KeepsLast s pno) := by
  have hfewer : ∀ {s' w}, Maps s s' pno maxpages w → Maps s s' pno (maxpages - 1) w := by
    intro s' w hm
    refine ⟨hm.slot, fun q hq => hm.keeps q (by omega), fun q hq q' hq' => ?_⟩
    exact hm.apart q (by omega) q' (by omega)
  by_cases hd : dblind s.size = true
  · -- with a double indirect block
    obtain rfl := hn.symm.trans (h.howmanyind_double hd hno)
    obtain - | ⟨p, l⟩ := l
    · cases hlen
    obtain ⟨s', hg, hwf, hm⟩ := h.grow_double hd hno hpno
    exact ⟨s', hg, hwf, hfewer hm, iff_of_true hm (.inl hd)⟩
  have hd' := Bool.eq_false_iff.mpr hd
  by_cases hi : noind s.size = true
  · have hnum := hn.symm.trans (h.howmanyind_noind hi)
    by_cases hlow : pno < perblock
    · -- the first indirect block
      rw [if_pos hlow] at hnum
      subst hnum
      obtain - | ⟨p, l⟩ := l
      · cases hlen
      obtain ⟨s', hg, hwf, hm, hap⟩ := h.grow_one hi hno hlow
      refine ⟨s', hg, hwf, hm, iff_of_false (fun hx => hap hx.apart) ?_⟩
      rintro (hx | hx | hx)
      · exact hd hx
      · exact Nat.not_lt.mpr hx.2 hlow
      · exact Bool.false_ne_true (hx.1.symm.trans hi)
    · rw [if_neg hlow] at hnum
      subst hnum
      obtain - | ⟨p₁, - | ⟨p₂, - | ⟨p₃, l⟩⟩⟩ := l
      · cases hlen
      · simp at hlen
      · simp at hlen
      obtain ⟨s', hg, hwf, hm⟩ := h.grow_three hi (Nat.not_lt.mp hlow)
      exact ⟨s', hg, hwf, hfewer hm, iff_of_true hm (.inr (.inl ⟨hi, Nat.not_lt.mp hlow⟩))⟩
  · -- from one indirect block to the double one
    have hi' := Bool.eq_false_iff.mpr hi
    obtain rfl := hn.symm.trans (h.howmanyind_single hi' hd' hno hpno)
    obtain - | ⟨p₁, - | ⟨p₂, l⟩⟩ := l
    · cases hlen
    · simp at hlen
    obtain ⟨s', hg, hwf, hm, hd2, hk⟩ := h.grow_single hi' hd' hno hpno
    refine ⟨s', hg, hwf, hm, ?_⟩
    constructor
    · intro hx
      exact .inr (.inr ⟨hi', hk.mp hx.keeps⟩)
    · rintro (hx | hx | hx)
      · exact absurd hx hd
      · exact absurd hx.1 hi
      · exact ⟨hm.slot, hk.mpr hx.2, hwf.apart (.inl hd2)⟩

theorem Refilled.find (h : Refilled s t) : t.vFindiblk q = s.vFindiblk q := by
  obtain ⟨_, _, _, rfl⟩ := h
  rfl

theorem Refilled.word (h : Refilled s t) (sl : Slot) : t.word sl = s.word sl := by
  obtain ⟨_, _, _, rfl⟩ := h
  cases sl <;> rfl

theorem Refilled.howmanyind (h : Refilled s t) : t.howmanyind pno = s.howmanyind pno := by
  obtain ⟨_, _, _, rfl⟩ := h
  rfl

theorem Refilled.keepsLast (h : Refilled s t) : KeepsLast t pno ↔ KeepsLast s pno := by
  obtain ⟨_, _, _, rfl⟩ := h
  rfl

theorem Refilled.maps {N : Nat} {w : Word} (h : Refilled s t) :
    Maps t s' pno N w ↔ Maps s s' pno N w := by
  have hkeeps : Keeps t s' pno N ↔ Keeps s s' pno N := by
    unfold Keeps
    simp only [h.find, h.word]
  exact ⟨fun hm => ⟨hm.slot, hkeeps.mp hm.keeps, hm.apart⟩,
    fun hm => ⟨hm.slot, hkeeps.mpr hm.keeps, hm.apart⟩⟩

/-- The file has the pointers that it had. -/
def SameMap (s s' : State) : Prop :=
  ∀ q, s'.vFindiblk q = s.vFindiblk q ∧ ∀ sl, s.vFindiblk q = some sl → s'.word sl = s.word sl

theorem Refilled.sameMap (h : Refilled s t) : SameMap s t :=
  fun _ => ⟨h.find, fun sl _ => h.word sl⟩

/-- A `v_growiblk` that succeeds with `disk`. -/
structure Succeeds (s s' : State) (l : List Nat) (pno disk fperpage : Nat) : Prop where
  taken : ∃ l₁, Supply s l l₁ ∧ s.howmanyind pno ≤ l₁.length ∧
    Wf s' (l₁.drop (s.howmanyind pno))
  most : Maps s s' pno (maxpages - 1) (newEntry (disk + s.howmanyind pno * fperpage))
  all : Maps s s' pno maxpages (newEntry (disk + s.howmanyind pno * fperpage)) ↔ KeepsLast s pno

theorem grown_map (env : Env) :
    ((s.makeindirect pno n disk env.fperpage).bind fun s =>
      (s.vFindiblk pno).map fun xpt =>
        (({ s.setWord (newEntry (disk + n * env.fperpage)) xpt with
          newdisk := s.newdisk + 1
          nblocks := s.nblocks + env.fperpage } : State), 0)) =
      (s.grown pno n disk env.fperpage).map fun s => (s, 0) := by
  unfold State.grown
  cases s.makeindirect pno n disk env.fperpage with
  | none => rfl
  | some u =>
    rw [Option.bind_some, Option.bind_some]
    cases u.vFindiblk pno <;> rfl

/-- Growing the map of a file: a failure leaves it as it was; a success makes the slot of the page
out of pages of the free list and keeps the other pages, all but the last of the largest file. -/
theorem growiblk_keeps (h : Wf s l) (hpno : pno < maxpages) (hno : s.vFindiblk pno = none)
    (env : Env) {fuel : Nat} (hfuel : 2 ≤ fuel) :
    ∃ s' rc, s.vGrowiblk env fuel pno = some (s', rc) ∧ (rc ≠ 0 → SameMap s s') ∧
      (rc = 0 → ∃ disk, env.psalloc ((s.howmanyind pno + 1) * env.fperpage) = some disk ∧
        Succeeds s s' l pno disk env.fperpage) := by
  have hsame : SameMap s s := fun _ => ⟨rfl, fun _ _ => rfl⟩
  unfold State.vGrowiblk
  by_cases hspace : env.spaceok = 0
  swap
  · dsimp only
    rw [if_pos hspace]
    exact ⟨s, _, rfl, fun _ => hsame, fun h0 => absurd h0 hspace⟩
  obtain ⟨t, rc, htouch, hout⟩ := h.touchptrs (howmanyind_le s pno) hfuel
  dsimp only
  rw [if_neg (not_not.mpr hspace), htouch]
  dsimp only
  rcases hout with ⟨hrc, rfl⟩ | ⟨rfl, hre, l₁, hsup, hwf, hlen⟩
  · rw [if_pos hrc]
    exact ⟨t, rc, rfl, fun _ => hsame, fun h0 => absurd h0 hrc⟩
  rw [if_neg (not_not.mpr rfl)]
  by_cases hdq : env.allocdq = 0
  swap
  · rw [if_pos hdq]
    exact ⟨t, _, rfl, fun _ => hre.sameMap, fun h0 => absurd h0 hdq⟩
  rw [if_neg (not_not.mpr hdq)]
  cases hps : env.psalloc ((s.howmanyind pno + 1) * env.fperpage) with
  | none => exact ⟨t, enospc, rfl, fun _ => hre.sameMap, fun h0 => absurd h0 (by decide)⟩
  | some disk =>
    obtain ⟨s', hg, hwf', hm, hall⟩ := hwf.grow env.fperpage hpno
      (hre.find.trans hno) hre.howmanyind hlen
    refine ⟨s', 0, ?_, fun h0 => absurd rfl h0, fun _ => ⟨disk, rfl, ?_⟩⟩
    · dsimp only
      rw [grown_map, hg]
      rfl
    · exact ⟨⟨l₁, hsup, hlen, hwf'⟩, hre.maps.mp hm, hre.maps.symm.trans (hall.trans hre.keepsLast)⟩

/-- A new file, in a file system with three free pages of .indirect. -/
def newFile : State where
  number := 17
  size := 0
  rdaddr _ := 0
  vindirect := 0
  rindirect := 0
  nblocks := 0
  newdisk := 0
  free := 66
  more := 69
  indptr p := if p = 66 then 67 else if p = 67 then 68 else 0
  page _ _ := 0

/-- There are blocks of eight fragments. -/
def freeDisk : Env := ⟨8, 0, 0, fun _ => some 4000⟩

theorem newFile_wf : Wf newFile [66, 67, 68] where
  chain := ⟨rfl, by decide, rfl, by decide, rfl, by decide, rfl⟩
  range := by decide
  more := by decide
  number := by decide
  direct _ := by decide
  root h := absurd h (by decide)
  first h := absurd h (by decide)
  blocks h := absurd h (by decide)

theorem growiblk_newFile : ∃ s' rc, newFile.vGrowiblk freeDisk 2 2000 = some (s', rc) ∧
    (rc ≠ 0 → SameMap newFile s') ∧ (rc = 0 → ∃ disk,
      freeDisk.psalloc ((newFile.howmanyind 2000 + 1) * freeDisk.fperpage) = some disk ∧
        Succeeds newFile s' [66, 67, 68] 2000 disk freeDisk.fperpage) :=
  growiblk_keeps newFile_wf (by decide) (by decide) freeDisk le_rfl

/-- After the first indirect block two pages have one slot. -/
theorem growiblk_last_page : ∃ s' sl, newFile.vGrowiblk freeDisk 2 8 = some (s', 0) ∧
    s'.vFindiblk 1023 = some sl ∧ s'.vFindiblk 524287 = some sl :=
  ⟨_, .indirect 66 1023, rfl, by decide, by decide⟩

end Aix413.Indirect
