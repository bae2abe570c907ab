import Mathlib.Data.Set.Card
import Aix413.Lib.WaitGraph
import Aix413.Rename.Steps

namespace Aix413.Rename.Hierarchy

open Relation
open FileSystem Steps

/-- The entries that name inode `i`, in the directories that have links. -/
def links (fs : Fs) (i : Ino) : Set (Ino × Name) :=
  {e | fs.searchable e.1 = true ∧ fs.lookup e.1 e.2 = some i}

/-- One step up from a directory below the root, by its `..` entry. -/
def Parent (fs : Fs) (d p : Ino) : Prop :=
  d ≠ rootIno ∧ fs.searchable d = true ∧ fs.lookup d dotdot = some p

/-- The directories are finitely many, and each link count is the number of
entries that name the inode. -/
structure Counted (fs : Fs) : Prop where
  finite : {d | fs.searchable d = true}.Finite
  count : ∀ i, fs.nlink i = (links fs i).ncard

/-- The directories form a tree under the root with correct `.` and `..`
entries: each below the root has one entry, in the directory that its `..`
names, and its `..` entries lead up to the root. -/
structure IsTree (fs : Fs) : Prop extends Counted fs where
  root : fs.searchable rootIno = true
  dot : ∀ d, fs.searchable d = true → fs.lookup d dot = some d
  dotdotRoot : fs.lookup rootIno dotdot = some rootIno
  parent : ∀ d, fs.searchable d = true → d ≠ rootIno → ∃ p nm, isDots nm = false ∧
    fs.searchable p = true ∧ fs.lookup p nm = some d ∧ fs.lookup d dotdot = some p
  once : ∀ d p nm p' nm', fs.isDir d = true → isDots nm = false → isDots nm' = false →
    fs.searchable p = true → fs.searchable p' = true → fs.lookup p nm = some d →
    fs.lookup p' nm' = some d → p = p' ∧ nm = nm'
  rootUnnamed : ∀ p nm, isDots nm = false → fs.searchable p = true →
    fs.lookup p nm ≠ some rootIno
  up : ∀ d, fs.searchable d = true → ReflTransGen (Parent fs) d rootIno

variable {fs fs' : Fs} {d i j p : Ino} {nm : Name}

theorem searchable_iff : fs.searchable d = true ↔ fs.isDir d = true ∧ 1 ≤ fs.nlink d := by
  simp [Fs.searchable]

@[simp] theorem isDots_dot : isDots dot = true := by decide
@[simp] theorem isDots_dotdot : isDots dotdot = true := by decide

theorem ne_dotdot (h : isDots nm = false) : nm ≠ dotdot := by
  rintro rfl
  simp at h

theorem isDots_cases (nm : Name) : isDots nm = false ∨ nm = FileSystem.dot ∨ nm = dotdot := by
  cases h : isDots nm with
  | false => exact .inl rfl
  | true => exact .inr (by simpa [isDots] using h)

/-! ## Counting entries -/

theorem Counted.links_finite (h : Counted fs) (i : Ino) : (links fs i).Finite := by
  have hfin : (⋃ d ∈ {d | fs.searchable d = true},
      Prod.mk d '' {nm | nm ∈ (fs.dir d).keys}).Finite :=
    h.finite.biUnion fun d _ => (List.finite_toSet _).image _
  apply hfin.subset
  rintro ⟨d, nm⟩ ⟨hs, hl⟩
  simp only [Set.mem_iUnion]
  refine ⟨d, hs, nm, ?_, rfl⟩
  exact AList.mem_keys.mp (AList.lookup_isSome.mp (by
    unfold Fs.lookup at hl
    simp [hl]))

theorem Counted.one_le (h : Counted fs) (hs : fs.searchable d = true)
    (hl : fs.lookup d nm = some i) : 1 ≤ fs.nlink i := by
  have hmem : (d, nm) ∈ links fs i := ⟨hs, hl⟩
  have hpos := (Set.ncard_pos (h.links_finite i)).mpr ⟨_, hmem⟩
  rw [h.count i]
  omega

theorem Counted.two_le (h : Counted fs) {d' : Ino} {nm' : Name} (hs : fs.searchable d = true)
    (hl : fs.lookup d nm = some i) (hs' : fs.searchable d' = true)
    (hl' : fs.lookup d' nm' = some i) (hne : (d, nm) ≠ (d', nm')) : 2 ≤ fs.nlink i := by
  have hsub : {(d, nm), (d', nm')} ⊆ links fs i := by
    rintro e (rfl | rfl)
    · exact ⟨hs, hl⟩
    · exact ⟨hs', hl'⟩
  have hle := Set.ncard_le_ncard hsub (h.links_finite i)
  rw [Set.ncard_pair hne] at hle
  rw [h.count i]
  omega

/-- One record of a directory changes. -/
theorem ncard_links_change (hs : ∀ x, fs'.searchable x = fs.searchable x)
    (hd : fs.searchable d = true)
    (hsame : ∀ x y, (x, y) ≠ (d, nm) → fs'.lookup x y = fs.lookup x y)
    (hfin : (links fs j).Finite) :
    ((links fs' j).ncard : Int) = (links fs j).ncard -
      (if fs.lookup d nm = some j then 1 else 0) + if fs'.lookup d nm = some j then 1 else 0 := by
  have hmem : (d, nm) ∈ links fs j ↔ fs.lookup d nm = some j := by simp [links, hd]
  have hrest : links fs' j \ {(d, nm)} = links fs j \ {(d, nm)} := by
    ext ⟨x, y⟩
    simp only [links, Set.mem_sdiff, Set.mem_ofPred_eq, Set.mem_singleton_iff, hs]
    constructor
    · rintro ⟨⟨h1, h2⟩, h3⟩
      exact ⟨⟨h1, hsame x y h3 ▸ h2⟩, h3⟩
    · rintro ⟨⟨h1, h2⟩, h3⟩
      exact ⟨⟨h1, (hsame x y h3).trans h2⟩, h3⟩
  have hmem' : (d, nm) ∈ links fs' j ↔ fs'.lookup d nm = some j := by simp [links, hs, hd]
  have hcard : ∀ (S : Set (Ino × Name)) (P : Prop) [Decidable P], S.Finite → ((d, nm) ∈ S ↔ P) →
      (S.ncard : Int) = (S \ {(d, nm)}).ncard + if P then 1 else 0 := by
    intro S P _ hS hP
    split
    next h =>
      have := Set.ncard_sdiff_singleton_add_one (hP.mpr h) hS
      omega
    next h =>
      rw [Set.sdiff_singleton_eq_self (fun hm => h (hP.mp hm))]
      omega
  have hfin' : (links fs' j).Finite := by
    apply Set.Finite.of_sdiff (t := {(d, nm)})
    · rw [hrest]
      exact hfin.sdiff
    · exact Set.finite_singleton _
  rw [hcard _ _ hfin hmem, hcard _ _ hfin' hmem', hrest]
  ring

theorem counted_of_change (d : Ino) (nm : Name) (h : Counted fs) (hs : ∀ x, fs'.searchable x = fs.searchable x)
    (hd : fs.searchable d = true)
    (hsame : ∀ x y, (x, y) ≠ (d, nm) → fs'.lookup x y = fs.lookup x y)
    (hn : ∀ j, fs'.nlink j = fs.nlink j - (if fs.lookup d nm = some j then 1 else 0) +
      if fs'.lookup d nm = some j then 1 else 0) : Counted fs' := by
  refine ⟨?_, ?_⟩
  · simpa only [hs] using h.finite
  · intro j
    rw [hn, ncard_links_change hs hd hsame (h.links_finite j), h.count]

section Fields

variable (fs : Fs) (d i : Ino) (nm : Name) (n : Int)

@[simp] theorem isDir_addLink : (fs.addLink i n).isDir = fs.isDir := rfl
@[simp] theorem isDir_enter : (fs.enter d nm i).isDir = fs.isDir := rfl
@[simp] theorem isDir_remove : (fs.remove d nm).isDir = fs.isDir := rfl
@[simp] theorem isDir_clearLinks : (fs.clearLinks i).isDir = fs.isDir := rfl
@[simp] theorem lookup_clearLinks (x : Ino) (y : Name) :
    (fs.clearLinks i).lookup x y = fs.lookup x y := rfl
@[simp] theorem nlink_enter : (fs.enter d nm i).nlink = fs.nlink := rfl
@[simp] theorem nlink_remove : (fs.remove d nm).nlink = fs.nlink := rfl
@[simp] theorem lookup_addLink (x : Ino) (y : Name) : (fs.addLink i n).lookup x y = fs.lookup x y :=
  rfl
@[simp] theorem searchable_enter (x : Ino) : (fs.enter d nm i).searchable x = fs.searchable x := rfl
@[simp] theorem searchable_remove (x : Ino) : (fs.remove d nm).searchable x = fs.searchable x := rfl

theorem nlink_addLink (j : Ino) :
    (fs.addLink i n).nlink j = if j = i then fs.nlink j + n else fs.nlink j := by
  unfold Fs.addLink
  by_cases h : j = i
  · subst h
    simp
  · simp [h]

theorem nlink_clearLinks (j : Ino) :
    (fs.clearLinks i).nlink j = if j = i then 0 else fs.nlink j := by
  unfold Fs.clearLinks
  by_cases h : j = i
  · subst h
    simp
  · simp [h]

theorem lookup_enter (x : Ino) (y : Name) :
    (fs.enter d nm i).lookup x y = if x = d ∧ y = nm then some i else fs.lookup x y := by
  unfold Fs.enter Fs.lookup Fs.setDir
  by_cases hx : x = d
  · subst hx
    by_cases hy : y = nm
    · subst hy
      simp
    · simp [hy]
  · simp [hx]

theorem lookup_remove (x : Ino) (y : Name) :
    (fs.remove d nm).lookup x y = if x = d ∧ y = nm then none else fs.lookup x y := by
  unfold Fs.remove Fs.lookup Fs.setDir
  by_cases hx : x = d
  · subst hx
    by_cases hy : y = nm
    · subst hy
      simp
    · simp [hy]
  · simp [hx]

end Fields

theorem searchable_addLink {n : Int}
    (h : fs.isDir i = true → (1 ≤ fs.nlink i + n ↔ 1 ≤ fs.nlink i)) (x : Ino) :
    (fs.addLink i n).searchable x = fs.searchable x := by
  rw [Bool.eq_iff_iff, searchable_iff, searchable_iff, isDir_addLink, nlink_addLink]
  by_cases hx : x = i
  · subst hx
    rw [if_pos rfl]
    exact and_congr_right h
  · rw [if_neg hx]

/-! ## The parts of a rename -/

variable {i' : Ino}

theorem counted_delete (h : Counted fs) (hs : fs.searchable d = true)
    (hl : fs.lookup d nm = some i) (h2 : fs.isDir i = true → 2 ≤ fs.nlink i) :
    Counted ((fs.remove d nm).addLink i (-1)) ∧
      ∀ x, ((fs.remove d nm).addLink i (-1)).searchable x = fs.searchable x := by
  have hsame : ∀ x, ((fs.remove d nm).addLink i (-1)).searchable x = fs.searchable x := by
    apply searchable_addLink
    intro hi
    have := h2 hi
    simp only [nlink_remove]
    omega
  refine ⟨counted_of_change d nm h hsame hs ?_ ?_, hsame⟩
  · intro x y hne
    rw [lookup_addLink, lookup_remove, if_neg (fun he => hne (Prod.ext he.1 he.2))]
  · intro j
    have hnew : ((fs.remove d nm).addLink i (-1)).lookup d nm = none := by simp [lookup_remove]
    rw [hnew, hl, nlink_addLink, nlink_remove]
    by_cases hj : j = i
    · subst hj
      simp
      ring
    · simp [hj, Ne.symm hj]

theorem counted_link (h : Counted fs) (hs : fs.searchable d = true)
    (hl : fs.lookup d nm = none) (h1 : fs.isDir i = true → 1 ≤ fs.nlink i) :
    Counted ((fs.enter d nm i).addLink i 1) ∧
      ∀ x, ((fs.enter d nm i).addLink i 1).searchable x = fs.searchable x := by
  have hsame : ∀ x, ((fs.enter d nm i).addLink i 1).searchable x = fs.searchable x := by
    apply searchable_addLink
    intro hi
    have := h1 hi
    simp only [nlink_enter]
    omega
  refine ⟨counted_of_change d nm h hsame hs ?_ ?_, hsame⟩
  · intro x y hne
    rw [lookup_addLink, lookup_enter, if_neg (fun he => hne (Prod.ext he.1 he.2))]
  · intro j
    have hnew : ((fs.enter d nm i).addLink i 1).lookup d nm = some i := by simp [lookup_enter]
    rw [hnew, hl, nlink_addLink, nlink_enter]
    by_cases hj : j = i
    · subst hj
      simp
    · simp [hj, Ne.symm hj]

theorem counted_fixparent (h : Counted fs) (hs : fs.searchable d = true)
    (hl : fs.lookup d nm = some i) (hne : i ≠ i') (h2 : 2 ≤ fs.nlink i) (h1 : 1 ≤ fs.nlink i') :
    Counted (((fs.enter d nm i').addLink i (-1)).addLink i' 1) ∧
      ∀ x, (((fs.enter d nm i').addLink i (-1)).addLink i' 1).searchable x = fs.searchable x := by
  have hsame : ∀ x, (((fs.enter d nm i').addLink i (-1)).addLink i' 1).searchable x =
      fs.searchable x := by
    intro x
    rw [searchable_addLink, searchable_addLink]
    · rfl
    · intro _
      simp only [nlink_enter]
      omega
    · intro _
      rw [nlink_addLink, if_neg (Ne.symm hne), nlink_enter]
      omega
  refine ⟨counted_of_change d nm h hsame hs ?_ ?_, hsame⟩
  · intro x y hxy
    rw [lookup_addLink, lookup_addLink, lookup_enter,
      if_neg (fun he => hxy (Prod.ext he.1 he.2))]
  · intro j
    have hnew : (((fs.enter d nm i').addLink i (-1)).addLink i' 1).lookup d nm = some i' := by
      simp [lookup_enter]
    rw [hnew, hl, nlink_addLink, nlink_addLink, nlink_enter]
    by_cases hj : j = i
    · subst hj
      simp [hne, Ne.symm hne]
      ring
    · by_cases hj' : j = i'
      · subst hj'
        simp [hne, hj]
      · simp [hj, hj', Ne.symm hj, Ne.symm hj']

/-! ## Names in a tree -/

theorem IsTree.sip_ne_root (h : IsTree fs) (hd : isDots nm = false) (hs : fs.searchable p = true)
    (hl : fs.lookup p nm = some i) : i ≠ rootIno := by
  rintro rfl
  exact h.rootUnnamed p nm hd hs hl

theorem IsTree.self_unnamed (h : IsTree fs) (hd : isDots nm = false)
    (hs : fs.searchable d = true) : fs.lookup d nm ≠ some d := by
  intro hl
  have hroot := h.sip_ne_root hd hs hl
  obtain ⟨p, nm', hd', hs', hl', hup⟩ := h.parent d hs hroot
  obtain ⟨rfl, -⟩ := h.once d d nm p nm' (searchable_iff.mp hs).1 hd hd' hs hs' hl hl'
  have hstay : ∀ x, ReflTransGen (Parent fs) d x → x = d := by
    intro x hx
    induction hx with
    | refl => rfl
    | tail _ hstep ih =>
      subst ih
      exact Option.some.inj (hstep.2.2.symm.trans hup)
  exact hroot (hstay _ (h.up d hs)).symm

/-- A directory that a `..` entry leads to has an entry for the directory
below. -/
theorem IsTree.entry_of_parent (h : IsTree fs) (hp : Parent fs d p) :
    fs.searchable p = true ∧ ∃ nm, isDots nm = false ∧ fs.lookup p nm = some d := by
  obtain ⟨hroot, hs, hl⟩ := hp
  obtain ⟨p', nm, hd, hs', hl', hup⟩ := h.parent d hs hroot
  obtain rfl := Option.some.inj (hup.symm.trans hl)
  exact ⟨hs', nm, hd, hl'⟩

theorem IsTree.parent_of_entry (h : IsTree fs) (hs : fs.searchable p = true)
    (hd : isDots nm = false) (hl : fs.lookup p nm = some d) (hdir : fs.isDir d = true) :
    Parent fs d p := by
  have hroot := h.sip_ne_root hd hs hl
  have hds : fs.searchable d = true := searchable_iff.mpr ⟨hdir, h.one_le hs hl⟩
  obtain ⟨p', nm', hd', hs', hl', hup⟩ := h.parent d hds hroot
  obtain ⟨rfl, -⟩ := h.once d p nm p' nm' hdir hd hd' hs hs' hl hl'
  exact ⟨hroot, hds, hup⟩

end Aix413.Rename.Hierarchy
