import Aix413.Rename.Hierarchy

namespace Aix413.Rename.Acting

open Relation
open FileSystem Steps Hierarchy

/-- What a rename that has passed its checks relies on, as long as it has its
inodes locked. -/
structure Ready (fs : Fs) (a : Args) : Prop where
  source : fs.searchable a.spip = true
  sname : fs.lookup a.spip a.sname = some a.sip
  dest : fs.searchable a.dpip = true
  dname : fs.lookup a.dpip a.dname = a.dip
  sameKind : ∀ d, a.dip = some d → fs.isDir d = fs.isDir a.sip
  snameDots : isDots a.sname = false
  dnameDots : isDots a.dname = false
  dip_ne_sip : a.dip ≠ some a.sip
  sip_ne_dpip : a.sip ≠ a.dpip
  dip_ne_spip : a.dip ≠ some a.spip

/-- Inodes outside of the list are as they were. -/
def Frame (a : Args) (fs fs' : Fs) : Prop :=
  fs'.isDir = fs.isDir ∧
  ∀ i, i ≠ a.spip → i ≠ a.sip → i ≠ a.dpip → a.dip ≠ some i →
    fs'.dir i = fs.dir i ∧ fs'.nlink i = fs.nlink i

/-- The destination is gone. -/
structure Removed (a : Args) (fs fs' : Fs) : Prop where
  frame : Frame a fs fs'
  searchable : ∀ d, fs'.searchable d = true ↔
    fs.searchable d = true ∧ ¬(fs.isDir d = true ∧ a.dip = some d)
  lookup : ∀ d nm, fs'.lookup d nm =
    if d = a.dpip ∧ nm = a.dname then none else fs.lookup d nm
  counted : Counted fs'
  empty : ∀ d, fs.isDir d = true → a.dip = some d → ∀ nm, isDots nm = false →
    fs.lookup d nm = none

/-- The source has changed its place. -/
structure Moved (a : Args) (fs fs' : Fs) : Prop where
  frame : Frame a fs fs'
  searchable : ∀ d, fs'.searchable d = fs.searchable d
  lookup : ∀ d nm, fs'.lookup d nm =
    if d = a.spip ∧ nm = a.sname then none
    else if d = a.dpip ∧ nm = a.dname then some a.sip
    else if moves fs a = true ∧ d = a.sip ∧ nm = dotdot then some a.dpip
    else fs.lookup d nm
  counted : Counted fs'

variable {fs fs' : Fs} {a : Args} {r : Refusals}

theorem moves_iff : moves fs a = true ↔ fs.isDir a.sip = true ∧ a.spip ≠ a.dpip := by
  simp [moves]

theorem Frame.refl : Frame a fs fs := ⟨rfl, fun _ _ _ _ _ => ⟨rfl, rfl⟩⟩

theorem Frame.trans {fs'' : Fs} (h : Frame a fs fs') (h' : Frame a fs' fs'') : Frame a fs fs'' := by
  refine ⟨h'.1.trans h.1, fun i h1 h2 h3 h4 => ?_⟩
  obtain ⟨hd, hn⟩ := h.2 i h1 h2 h3 h4
  obtain ⟨hd', hn'⟩ := h'.2 i h1 h2 h3 h4
  exact ⟨hd'.trans hd, hn'.trans hn⟩

theorem frame_enter {d i : Ino} {nm : Name} (hd : d = a.spip ∨ d = a.sip ∨ d = a.dpip) :
    Frame a fs (fs.enter d nm i) := by
  refine ⟨rfl, fun j h1 h2 h3 _ => ⟨?_, rfl⟩⟩
  apply Function.update_of_ne
  rintro rfl
  rcases hd with rfl | rfl | rfl <;> contradiction

theorem frame_remove {d : Ino} {nm : Name} (hd : d = a.spip ∨ d = a.sip ∨ d = a.dpip) :
    Frame a fs (fs.remove d nm) := by
  refine ⟨rfl, fun j h1 h2 h3 _ => ⟨?_, rfl⟩⟩
  apply Function.update_of_ne
  rintro rfl
  rcases hd with rfl | rfl | rfl <;> contradiction

theorem frame_addLink {i : Ino} {n : Int}
    (hi : i = a.spip ∨ i = a.sip ∨ i = a.dpip ∨ a.dip = some i) : Frame a fs (fs.addLink i n) := by
  refine ⟨rfl, fun j h1 h2 h3 h4 => ⟨rfl, ?_⟩⟩
  apply Function.update_of_ne
  rintro rfl
  rcases hi with rfl | rfl | rfl | hi <;> contradiction

theorem frame_clearLinks {i : Ino} (hi : a.dip = some i) : Frame a fs (fs.clearLinks i) := by
  refine ⟨rfl, fun j _ _ _ h4 => ⟨rfl, ?_⟩⟩
  apply Function.update_of_ne
  rintro rfl
  exact h4 hi

theorem Ready.congr (hr : Ready fs a) (hdir : fs'.isDir = fs.isDir)
    (hsame : ∀ i ∈ [a.spip, a.dpip], fs'.dir i = fs.dir i ∧ fs'.nlink i = fs.nlink i) :
    Ready fs' a := by
  obtain ⟨hd, hn⟩ := hsame a.spip (by simp)
  obtain ⟨hd', hn'⟩ := hsame a.dpip (by simp)
  refine ⟨?_, ?_, ?_, ?_, ?_, hr.snameDots, hr.dnameDots, hr.dip_ne_sip, hr.sip_ne_dpip,
    hr.dip_ne_spip⟩
  · rw [Fs.searchable, hdir, hn]
    exact hr.source
  · rw [Fs.lookup, hd]
    exact hr.sname
  · rw [Fs.searchable, hdir, hn']
    exact hr.dest
  · rw [Fs.lookup, hd']
    exact hr.dname
  · rw [hdir]
    exact hr.sameKind

theorem Ready.dip_ne_dpip (ht : IsTree fs) (hr : Ready fs a) : a.dip ≠ some a.dpip := by
  rw [← hr.dname]
  exact ht.self_unnamed hr.dnameDots hr.dest

theorem Ready.names_ne (hr : Ready fs a) : ¬(a.spip = a.dpip ∧ a.sname = a.dname) := by
  rintro ⟨h1, h2⟩
  apply hr.dip_ne_sip
  rw [← hr.dname, ← h1, ← h2, hr.sname]

theorem Ready.sourceParent (ht : IsTree fs) (hr : Ready fs a) (hd : fs.isDir a.sip = true) :
    Parent fs a.sip a.spip :=
  ht.parent_of_entry hr.source hr.snameDots hr.sname hd

/-! ## The removal of the destination -/

theorem dirDelete_ok {fs₁ : Fs} {d i : Ino} {nm : Name} (h : dirDelete fs d nm i = .ok fs₁) :
    fs₁ = (fs.remove d nm).addLink i (-1) := by
  unfold dirDelete at h
  split at h
  next => cases h
  next => exact (Except.ok.inj h).symm

/-- An empty directory is named by its entry and by itself alone. -/
theorem links_of_empty (ht : IsTree fs) {d p : Ino} {nm : Name} (hs : fs.searchable p = true)
    (hd : isDots nm = false) (hl : fs.lookup p nm = some d) (hdir : fs.isDir d = true)
    (hempty : ∀ y, isDots y = false → fs.lookup d y = none) {x : Ino} {y : Name}
    (hx : fs.searchable x = true) (hxy : fs.lookup x y = some d) :
    (x = p ∧ y = nm) ∨ (x = d ∧ y = FileSystem.dot) := by
  rcases isDots_cases y with hy | rfl | rfl
  · obtain ⟨h1, h2⟩ := ht.once d x y p nm hdir hy hd hx hs hxy hl
    exact .inl ⟨h1, h2⟩
  · rw [ht.dot x hx] at hxy
    exact .inr ⟨Option.some.inj hxy, rfl⟩
  · exfalso
    by_cases hroot : x = rootIno
    · subst hroot
      rw [ht.dotdotRoot] at hxy
      exact ht.sip_ne_root hd hs hl (Option.some.inj hxy).symm
    · obtain ⟨-, nm', hnm', hl'⟩ := ht.entry_of_parent ⟨hroot, hx, hxy⟩
      rw [hempty nm' hnm'] at hl'
      cases hl'

/-- `i_nlink` of an empty directory is set to zero once its entry is gone, and
the parent loses the link of its `..` entry. -/
theorem counted_discard {fs₁ : Fs} {d p : Ino} (hc : Counted fs₁) (hd : fs₁.searchable d = true)
    (hp : fs₁.searchable p = true) (hne : d ≠ p)
    (hdot : fs₁.lookup d FileSystem.dot = some d) (hdd : fs₁.lookup d dotdot = some p)
    (hpdot : fs₁.lookup p FileSystem.dot = some p)
    (hempty : ∀ y, isDots y = false → fs₁.lookup d y = none)
    (honly : ∀ x y, fs₁.searchable x = true → fs₁.lookup x y = some d →
      x = d ∧ y = FileSystem.dot) :
    Counted ((fs₁.clearLinks d).addLink p (-1)) ∧
    ∀ x, ((fs₁.clearLinks d).addLink p (-1)).searchable x =
      true ↔ fs₁.searchable x = true ∧ x ≠ d := by
  have htwo : 2 ≤ fs₁.nlink p := by
    apply hc.two_le hp hpdot hd hdd
    intro he
    exact hne (Prod.ext_iff.mp he).1.symm
  set fs₂ := (fs₁.clearLinks d).addLink p (-1) with hfs₂
  have hnlink : ∀ j, fs₂.nlink j = if j = p then fs₁.nlink p - 1 else
      if j = d then 0 else fs₁.nlink j := by
    intro j
    rw [hfs₂, nlink_addLink]
    by_cases hj : j = p
    · subst hj
      rw [if_pos rfl, if_pos rfl, nlink_clearLinks, if_neg (Ne.symm hne)]
      ring
    · rw [if_neg hj, if_neg hj, nlink_clearLinks]
  have hsearch : ∀ x, fs₂.searchable x = true ↔ fs₁.searchable x = true ∧ x ≠ d := by
    intro x
    rw [searchable_iff, searchable_iff, hnlink]
    have hdir : fs₂.isDir = fs₁.isDir := rfl
    rw [hdir]
    by_cases hx : x = p
    · subst hx
      rw [if_pos rfl]
      have := (searchable_iff.mp hp).1
      constructor
      · exact fun _ => ⟨⟨this, by omega⟩, Ne.symm hne⟩
      · exact fun _ => ⟨this, by omega⟩
    · rw [if_neg hx]
      by_cases hxd : x = d
      · subst hxd
        simp
      · rw [if_neg hxd]
        simp [hxd]
  refine ⟨⟨?_, ?_⟩, hsearch⟩
  · exact hc.finite.subset fun x hx => ((hsearch x).mp hx).1
  · intro j
    have hlinks : links fs₂ j = links fs₁ j \ {e | e.1 = d} := by
      ext ⟨x, y⟩
      simp only [links, Set.mem_sdiff, Set.mem_ofPred_eq, hsearch]
      have : fs₂.lookup x y = fs₁.lookup x y := rfl
      rw [this]
      tauto
    rw [hnlink, hlinks]
    by_cases hj : j = p
    · subst hj
      rw [if_pos rfl]
      have hdiff : links fs₁ j \ {e | e.1 = d} = links fs₁ j \ {(d, dotdot)} := by
        ext ⟨x, y⟩
        simp only [links, Set.mem_sdiff, Set.mem_ofPred_eq, Set.mem_singleton_iff, Prod.mk.injEq]
        constructor
        · rintro ⟨h1, h2⟩
          exact ⟨h1, fun he => h2 he.1⟩
        · rintro ⟨⟨h1, h2⟩, h3⟩
          refine ⟨⟨h1, h2⟩, ?_⟩
          rintro rfl
          rcases isDots_cases y with hy | rfl | rfl
          · rw [hempty y hy] at h2
            cases h2
          · rw [hdot] at h2
            exact hne (Option.some.inj h2)
          · exact h3 ⟨rfl, rfl⟩
      have hmem : (d, dotdot) ∈ links fs₁ j := ⟨hd, hdd⟩
      have hcard := Set.ncard_sdiff_singleton_add_one hmem (hc.links_finite j)
      rw [hdiff, hc.count j]
      omega
    · rw [if_neg hj]
      by_cases hjd : j = d
      · subst hjd
        have hnone : links fs₁ j \ {e | e.1 = j} = ∅ := by
          ext ⟨x, y⟩
          simp only [links, Set.mem_sdiff, Set.mem_ofPred_eq, Set.mem_empty_iff_false, iff_false]
          rintro ⟨⟨h1, h2⟩, h3⟩
          exact h3 (honly x y h1 h2).1
        rw [if_pos rfl, hnone, Set.ncard_empty]
        rfl
      · rw [if_neg hjd]
        have hsame : links fs₁ j \ {e | e.1 = d} = links fs₁ j := by
          ext ⟨x, y⟩
          simp only [links, Set.mem_sdiff, Set.mem_ofPred_eq]
          refine ⟨fun h => h.1, fun h => ⟨h, ?_⟩⟩
          rintro rfl
          rcases isDots_cases y with hy | rfl | rfl
          · have := h.2
            rw [hempty y hy] at this
            cases this
          · exact hjd (Option.some.inj (h.2.symm.trans hdot))
          · exact hj (Option.some.inj (h.2.symm.trans hdd))
        rw [hsame, hc.count j]

theorem dirValid_ok {d p : Ino} {dots : Dots} (h : dirValid fs d p true = .ok dots) :
    fs.searchable d = true ∧ (∀ nm, isDots nm = false → fs.lookup d nm = none) ∧
      dots.dotdot = (fs.lookup d dotdot).map fun i => decide (i = p) := by
  unfold dirValid at h
  split at h
  next hs =>
    split at h
    next => cases h
    next hne =>
      refine ⟨hs, ?_, ?_⟩
      · intro nm hnm
        rw [Fs.lookup, AList.lookup_eq_none]
        intro hmem
        apply hne
        refine ⟨rfl, .inr fun hall => ?_⟩
        rw [hall nm (AList.mem_keys.mpr hmem)] at hnm
        cases hnm
      · cases h
        rfl
  next => cases h

section RemoveDest

variable {d : Ino}

theorem lookup_delete (x : Ino) (y : Name) :
    ((fs.remove a.dpip a.dname).addLink d (-1)).lookup x y =
      if x = a.dpip ∧ y = a.dname then none else fs.lookup x y := by
  rw [lookup_addLink, lookup_remove]

theorem frame_delete (hdip : a.dip = some d) :
    Frame a fs ((fs.remove a.dpip a.dname).addLink d (-1)) :=
  (frame_remove (.inr (.inr rfl))).trans (frame_addLink (.inr (.inr (.inr hdip))))

theorem removed_file (ht : IsTree fs) (hr : Ready fs a) (hdip : a.dip = some d)
    (hdir : fs.isDir d ≠ true) : Removed a fs ((fs.remove a.dpip a.dname).addLink d (-1)) := by
  obtain ⟨hc, hsame⟩ := counted_delete ht.toCounted hr.dest (hr.dname.trans hdip)
    fun hd => absurd hd hdir
  refine ⟨frame_delete hdip, ?_, lookup_delete, hc, ?_⟩
  · intro x
    rw [hsame]
    constructor
    · intro h1
      refine ⟨h1, ?_⟩
      rintro ⟨h2, h3⟩
      obtain rfl := Option.some.inj (hdip.symm.trans h3)
      exact hdir h2
    · exact fun h1 => h1.1
  · intro x hx hxd
    obtain rfl := Option.some.inj (hdip.symm.trans hxd)
    exact absurd hx hdir

theorem removed_dir (ht : IsTree fs) (hr : Ready fs a) (hdip : a.dip = some d)
    (hds : fs.searchable d = true) (hempty : ∀ nm, isDots nm = false → fs.lookup d nm = none) :
    Removed a fs
      ((((fs.remove a.dpip a.dname).addLink d (-1)).clearLinks d).addLink a.dpip (-1)) := by
  have hl : fs.lookup a.dpip a.dname = some d := hr.dname.trans hdip
  have hdir := (searchable_iff.mp hds).1
  have hnd : d ≠ a.dpip := fun he => hr.dip_ne_dpip ht (he ▸ hdip)
  have hparent := ht.parent_of_entry hr.dest hr.dnameDots hl hdir
  have htwo : 2 ≤ fs.nlink d := by
    apply ht.two_le hr.dest hl hds (ht.dot d hds)
    intro he
    exact hnd (Prod.ext_iff.mp he).1.symm
  obtain ⟨hc, hsame⟩ := counted_delete ht.toCounted hr.dest hl fun _ => htwo
  have hdots : ∀ x y, isDots y = true →
      ((fs.remove a.dpip a.dname).addLink d (-1)).lookup x y = fs.lookup x y := by
    rintro x y hy
    rw [lookup_delete, if_neg]
    rintro ⟨-, rfl⟩
    rw [hr.dnameDots] at hy
    cases hy
  have hgone : ∀ y, isDots y = false →
      ((fs.remove a.dpip a.dname).addLink d (-1)).lookup d y = none := by
    intro y hy
    rw [lookup_delete, if_neg (fun he => hnd he.1)]
    exact hempty y hy
  have honly : ∀ x y, ((fs.remove a.dpip a.dname).addLink d (-1)).searchable x = true →
      ((fs.remove a.dpip a.dname).addLink d (-1)).lookup x y = some d →
      x = d ∧ y = FileSystem.dot := by
    intro x y hx hxy
    rw [hsame] at hx
    rw [lookup_delete] at hxy
    split at hxy
    next => cases hxy
    next hne =>
      exact (links_of_empty ht hr.dest hr.dnameDots hl hdir hempty hx hxy).resolve_left hne
  rw [← hsame] at hds
  have hps : ((fs.remove a.dpip a.dname).addLink d (-1)).searchable a.dpip = true :=
    (hsame _).trans hr.dest
  obtain ⟨hc', hs'⟩ := counted_discard hc hds hps hnd
    ((hdots d _ isDots_dot).trans (ht.dot d ((hsame d) ▸ hds)))
    ((hdots d _ isDots_dotdot).trans hparent.2.2)
    ((hdots _ _ isDots_dot).trans (ht.dot _ hr.dest)) hgone honly
  refine ⟨?_, ?_, ?_, hc', ?_⟩
  · exact (frame_delete hdip).trans
      ((frame_clearLinks hdip).trans (frame_addLink (.inr (.inr (.inl rfl)))))
  · intro x
    rw [hs', hsame]
    constructor
    · rintro ⟨h1, h2⟩
      refine ⟨h1, ?_⟩
      rintro ⟨-, h3⟩
      exact h2 (Option.some.inj (hdip.symm.trans h3)).symm
    · rintro ⟨h1, h2⟩
      refine ⟨h1, ?_⟩
      rintro rfl
      exact h2 ⟨hdir, hdip⟩
  · intro x y
    rw [lookup_addLink, lookup_clearLinks, lookup_delete]
  · intro x hx hxd nm hnm
    obtain rfl := Option.some.inj (hdip.symm.trans hxd)
    exact hempty nm hnm

end RemoveDest

theorem removeDest_ok (ht : IsTree fs) (hr : Ready fs a) (h : removeDest r fs a = .ok fs') :
    Removed a fs fs' := by
  unfold removeDest at h
  cases hdip : a.dip with
  | none =>
    rw [hdip] at h
    cases h
    refine ⟨.refl, ?_, ?_, ht.toCounted, ?_⟩
    · simp [hdip]
    · intro d nm
      split
      next hd => rw [hd.1, hd.2, hr.dname, hdip]
      next => rfl
    · intro d _ hd
      rw [hdip] at hd
      cases hd
  | some d =>
    have hkind := hr.sameKind d hdip
    have hl : fs.lookup a.dpip a.dname = some d := hr.dname.trans hdip
    rw [hdip] at h
    simp only at h
    split at h
    next hsip =>
      have hparent := ht.parent_of_entry hr.dest hr.dnameDots hl (hkind.trans hsip)
      split at h
      next => cases h
      next dots hdots =>
        obtain ⟨hds, hempty, hdd⟩ := dirValid_ok hdots
        rw [hparent.2.2] at hdd
        split at h
        next => cases h
        next =>
          split at h
          next => cases h
          next =>
            split at h
            next => cases h
            next =>
              split at h
              next => cases h
              next fs₁ hdel =>
                obtain rfl := dirDelete_ok hdel
                have hsip' : ((fs.remove a.dpip a.dname).addLink d (-1)).isDir a.sip = true := hsip
                rw [if_pos hsip', hdd] at h
                cases h
                exact removed_dir ht hr hdip hds hempty
    next hsip =>
      split at h
      next => cases h
      next =>
        split at h
        next => cases h
        next =>
          split at h
          next => cases h
          next fs₁ hdel =>
            obtain rfl := dirDelete_ok hdel
            have hsip' : ¬((fs.remove a.dpip a.dname).addLink d (-1)).isDir a.sip = true := hsip
            rw [if_neg hsip'] at h
            cases h
            exact removed_file ht hr hdip (hkind ▸ hsip)

theorem isTree_removed (ht : IsTree fs) (hr : Ready fs a) (h : Removed a fs fs') : IsTree fs' := by
  have hdir := h.frame.1
  have hdots : ∀ x y, isDots y = true → fs'.lookup x y = fs.lookup x y := by
    rintro x y hy
    rw [h.lookup, if_neg]
    rintro ⟨-, rfl⟩
    rw [hr.dnameDots] at hy
    cases hy
  have hsub : ∀ x y i, fs'.lookup x y = some i → fs.lookup x y = some i := by
    intro x y i hxy
    rw [h.lookup] at hxy
    split at hxy
    next => cases hxy
    next => exact hxy
  have hsearch : ∀ d, fs'.searchable d = true → fs.searchable d = true :=
    fun d hd => ((h.searchable d).mp hd).1
  have hkept : ∀ p nm i, fs.searchable p = true → isDots nm = false →
      fs.lookup p nm = some i → fs'.searchable p = true := by
    intro p nm i hp hnm hl
    refine (h.searchable p).mpr ⟨hp, ?_⟩
    rintro ⟨h1, h2⟩
    rw [h.empty p h1 h2 nm hnm] at hl
    cases hl
  refine ⟨h.counted, ?_, ?_, ?_, ?_, ?_, ?_, ?_⟩
  · refine (h.searchable _).mpr ⟨ht.root, ?_⟩
    rintro ⟨-, hroot⟩
    exact ht.rootUnnamed _ _ hr.dnameDots hr.dest (hr.dname.trans hroot)
  · intro d hd
    rw [hdots _ _ isDots_dot]
    exact ht.dot d (hsearch d hd)
  · rw [hdots _ _ isDots_dotdot]
    exact ht.dotdotRoot
  · intro d hd hroot
    obtain ⟨p, nm, hnm, hp, hl, hup⟩ := ht.parent d (hsearch d hd) hroot
    refine ⟨p, nm, hnm, hkept p nm d hp hnm hl, ?_, ?_⟩
    · rw [h.lookup, if_neg, hl]
      rintro ⟨rfl, rfl⟩
      exact ((h.searchable d).mp hd).2 ⟨(searchable_iff.mp (hsearch d hd)).1,
        hr.dname.symm.trans hl⟩
    · rw [hdots _ _ isDots_dotdot]
      exact hup
  · intro d p nm p' nm' hd hnm hnm' hp hp' hl hl'
    rw [hdir] at hd
    exact ht.once d p nm p' nm' hd hnm hnm' (hsearch p hp) (hsearch p' hp') (hsub _ _ _ hl)
      (hsub _ _ _ hl')
  · intro p nm hnm hp hl
    exact ht.rootUnnamed p nm hnm (hsearch p hp) (hsub _ _ _ hl)
  · intro d hd
    have hpath := ht.up d (hsearch d hd)
    induction hpath using ReflTransGen.head_induction_on with
    | refl => exact .refl
    | head hstep _ ih =>
      obtain ⟨hp, nm, hnm, hl⟩ := ht.entry_of_parent hstep
      apply ReflTransGen.head _ (ih (hkept _ nm _ hp hnm hl))
      exact ⟨hstep.1, hd, (hdots _ _ isDots_dotdot).trans hstep.2.2⟩

/-- With the destination gone the rename goes on as one without. -/
theorem ready_removed (ht : IsTree fs) (hr : Ready fs a) (h : Removed a fs fs') :
    Ready fs' { a with dip := none } := by
  refine ⟨?_, ?_, ?_, ?_, ?_, hr.snameDots, hr.dnameDots, ?_, hr.sip_ne_dpip, ?_⟩
  · exact (h.searchable _).mpr ⟨hr.source, fun he => hr.dip_ne_spip he.2⟩
  · rw [h.lookup, if_neg hr.names_ne]
    exact hr.sname
  · exact (h.searchable _).mpr ⟨hr.dest, fun he => hr.dip_ne_dpip ht he.2⟩
  · rw [h.lookup, if_pos ⟨rfl, rfl⟩]
  · simp
  · simp
  · simp

/-! ## The move -/

theorem dirLink_ok {room : Option Nat} {fs₂ : Fs} {d i : Ino} {nm : Name}
    (h : dirLink room fs d nm i = .ok fs₂) : fs₂ = (fs.enter d nm i).addLink i 1 := by
  unfold dirLink at h
  split at h
  next => cases h
  next =>
    split at h
    next => cases h
    next =>
      split at h
      next => cases h
      next => exact (Except.ok.inj h).symm
    next => cases h

theorem dirSearchFor_of_lookup {d i : Ino} {nm : Name} (hs : fs.searchable d = true)
    (hl : fs.lookup d nm = some i) : dirSearchFor fs d nm i = .ok () := by
  simp [dirSearchFor, dirSearch, hs, hl]

theorem moves_congr (h : fs'.isDir = fs.isDir) : moves fs' a = moves fs a := by
  simp [moves, h]

section Move

variable (ht : IsTree fs) (hr : Ready fs a) (hdip : a.dip = none)
include ht hr hdip

/-- After `dir_link` and the removal of the source name. -/
theorem relinked : ∃ fs₃,
    dirDelete ((fs.enter a.dpip a.dname a.sip).addLink a.sip 1) a.spip a.sname a.sip = .ok fs₃ ∧
    Frame a fs fs₃ ∧ (∀ d, fs₃.searchable d = fs.searchable d) ∧ Counted fs₃ ∧
    ∀ d nm, fs₃.lookup d nm =
      if d = a.spip ∧ nm = a.sname then none
      else if d = a.dpip ∧ nm = a.dname then some a.sip else fs.lookup d nm := by
  set fs₂ := (fs.enter a.dpip a.dname a.sip).addLink a.sip 1 with hfs₂
  have hone : 1 ≤ fs.nlink a.sip := ht.one_le hr.source hr.sname
  obtain ⟨hc₂, hs₂⟩ := counted_link ht.toCounted hr.dest (hr.dname.trans hdip) fun _ => hone
  have hlookup₂ : ∀ d nm, fs₂.lookup d nm =
      if d = a.dpip ∧ nm = a.dname then some a.sip else fs.lookup d nm := by
    intro d nm
    rw [hfs₂, lookup_addLink, lookup_enter]
  have hsname : fs₂.lookup a.spip a.sname = some a.sip := by
    rw [hlookup₂, if_neg hr.names_ne]
    exact hr.sname
  have hdname : fs₂.lookup a.dpip a.dname = some a.sip := by
    rw [hlookup₂, if_pos ⟨rfl, rfl⟩]
  have hsource : fs₂.searchable a.spip = true := (hs₂ _).trans hr.source
  have htwo : 2 ≤ fs₂.nlink a.sip := by
    apply hc₂.two_le hsource hsname ((hs₂ _).trans hr.dest) hdname
    intro he
    exact hr.names_ne (Prod.ext_iff.mp he)
  obtain ⟨hc₃, hs₃⟩ := counted_delete hc₂ hsource hsname fun _ => htwo
  refine ⟨(fs₂.remove a.spip a.sname).addLink a.sip (-1), ?_, ?_, ?_, hc₃, ?_⟩
  · rw [dirDelete, dirSearchFor_of_lookup hsource hsname]
  · have h1 : Frame a fs fs₂ :=
      (frame_enter (.inr (.inr rfl))).trans (frame_addLink (.inr (.inl rfl)))
    exact h1.trans ((frame_remove (.inl rfl)).trans (frame_addLink (.inr (.inl rfl))))
  · exact fun d => (hs₃ d).trans (hs₂ d)
  · intro d nm
    rw [lookup_addLink, lookup_remove, hlookup₂]

theorem moved_ok {room : Option Nat} {fs₂ : Fs}
    (h : dirLink room fs a.dpip a.dname a.sip = .ok fs₂) :
    ∃ fs₃, dirDelete fs₂ a.spip a.sname a.sip = .ok fs₃ ∧
      (moves fs₃ a = false → Moved a fs fs₃) ∧
      (moves fs₃ a = true → ∃ fs₄, dirFixparent fs₃ a.sip a.spip a.dpip = .ok fs₄ ∧
        Moved a fs fs₄) := by
  obtain rfl := dirLink_ok h
  obtain ⟨fs₃, hdel, hframe, hs₃, hc₃, hl₃⟩ := relinked ht hr hdip
  refine ⟨fs₃, hdel, ?_, ?_⟩
  · intro hm
    rw [moves_congr hframe.1] at hm
    refine ⟨hframe, hs₃, ?_, hc₃⟩
    intro d nm
    rw [hl₃]
    simp [hm]
  · intro hm
    rw [moves_congr hframe.1] at hm
    obtain ⟨hdir, hne⟩ := moves_iff.mp hm
    obtain ⟨hroot, hsip, hdd⟩ := hr.sourceParent ht hdir
    have hsip₃ : fs₃.searchable a.sip = true := (hs₃ _).trans hsip
    have hdots : ∀ d nm, isDots nm = true → fs₃.lookup d nm = fs.lookup d nm := by
      intro d nm hnm
      rw [hl₃, if_neg, if_neg]
      · rintro ⟨-, rfl⟩
        rw [hr.dnameDots] at hnm
        cases hnm
      · rintro ⟨-, rfl⟩
        rw [hr.snameDots] at hnm
        cases hnm
    have hdd₃ : fs₃.lookup a.sip dotdot = some a.spip := (hdots _ _ isDots_dotdot).trans hdd
    have hsp₃ : fs₃.searchable a.spip = true := (hs₃ _).trans hr.source
    have hdp₃ : fs₃.searchable a.dpip = true := (hs₃ _).trans hr.dest
    have htwo : 2 ≤ fs₃.nlink a.spip := by
      apply hc₃.two_le hsp₃ ((hdots _ _ isDots_dot).trans (ht.dot _ hr.source)) hsip₃ hdd₃
      intro he
      have hnm := (Prod.ext_iff.mp he).2
      cases hnm
    have hone : 1 ≤ fs₃.nlink a.dpip := (searchable_iff.mp hdp₃).2
    obtain ⟨hc₄, hs₄⟩ := counted_fixparent hc₃ hsip₃ hdd₃ hne htwo hone
    refine ⟨_, by rw [dirFixparent, dirSearchFor_of_lookup hsip₃ hdd₃], ?_, ?_, ?_, hc₄⟩
    · exact hframe.trans ((frame_enter (.inr (.inl rfl))).trans
        ((frame_addLink (.inl rfl)).trans (frame_addLink (.inr (.inr (.inl rfl))))))
    · exact fun d => (hs₄ d).trans (hs₃ d)
    · intro d nm
      rw [lookup_addLink, lookup_addLink, lookup_enter, hl₃]
      by_cases hd : d = a.sip ∧ nm = dotdot
      · obtain ⟨rfl, rfl⟩ := hd
        rw [if_pos ⟨rfl, rfl⟩, if_neg, if_neg, if_pos ⟨hm, rfl, rfl⟩]
        · exact fun he => ne_dotdot hr.dnameDots he.2.symm
        · exact fun he => ne_dotdot hr.snameDots he.2.symm
      · have hd' : ¬(moves fs a = true ∧ d = a.sip ∧ nm = dotdot) := fun he => hd he.2
        rw [if_neg hd, if_neg hd']

omit hdip

/-- The tree after the move: the way up from the destination does not come by
the source. -/
theorem isTree_moved (h : Moved a fs fs') (hdip : a.dip = none)
    (hinc : moves fs a = true → ¬ReflTransGen (Parent fs) a.dpip a.sip) : IsTree fs' := by
  have hdir := h.frame.1
  have hroot := ht.sip_ne_root hr.snameDots hr.source hr.sname
  have hsearch : ∀ d, fs'.searchable d = true → fs.searchable d = true :=
    fun d hd => (h.searchable d) ▸ hd
  have hdots : ∀ x y, isDots y = true → (x = a.sip → y = dotdot → moves fs a = false) →
      fs'.lookup x y = fs.lookup x y := by
    intro x y hy hm
    rw [h.lookup, if_neg, if_neg, if_neg]
    · rintro ⟨h1, h2, h3⟩
      rw [hm h2 h3] at h1
      cases h1
    · rintro ⟨-, rfl⟩
      rw [hr.dnameDots] at hy
      cases hy
    · rintro ⟨-, rfl⟩
      rw [hr.snameDots] at hy
      cases hy
  have hentry : ∀ p nm i, isDots nm = false → fs'.lookup p nm = some i →
      (p = a.dpip ∧ nm = a.dname ∧ i = a.sip) ∨
      (¬(p = a.spip ∧ nm = a.sname) ∧ fs.lookup p nm = some i) := by
    intro p nm i hnm hl
    rw [h.lookup] at hl
    split at hl
    next => cases hl
    next hns =>
      split at hl
      next hd => exact .inl ⟨hd.1, hd.2, (Option.some.inj hl).symm⟩
      next =>
        rw [if_neg (fun he => ne_dotdot hnm he.2.2)] at hl
        exact .inr ⟨hns, hl⟩
  have hup : ∀ d p, d ≠ a.sip → Parent fs d p → Parent fs' d p := by
    intro d p hd hp
    refine ⟨hp.1, (h.searchable d).trans hp.2.1, ?_⟩
    rw [hdots _ _ isDots_dotdot fun he => absurd he hd]
    exact hp.2.2
  refine ⟨h.counted, ?_, ?_, ?_, ?_, ?_, ?_, ?_⟩
  · exact (h.searchable _).trans ht.root
  · intro d hd
    rw [hdots d _ isDots_dot fun _ he => by cases he]
    exact ht.dot d (hsearch d hd)
  · rw [hdots rootIno _ isDots_dotdot fun he => absurd he.symm hroot]
    exact ht.dotdotRoot
  · intro d hd hne
    by_cases hds : d = a.sip
    · subst hds
      have hisdir := (searchable_iff.mp (hsearch _ hd)).1
      refine ⟨a.dpip, a.dname, hr.dnameDots, (h.searchable _).trans hr.dest, ?_, ?_⟩
      · rw [h.lookup, if_neg, if_pos ⟨rfl, rfl⟩]
        exact fun he => hr.names_ne ⟨he.1.symm, he.2.symm⟩
      · by_cases hm : moves fs a = true
        · rw [h.lookup, if_neg, if_neg, if_pos ⟨hm, rfl, rfl⟩]
          · exact fun he => ne_dotdot hr.dnameDots he.2.symm
          · exact fun he => ne_dotdot hr.snameDots he.2.symm
        · have hsame : a.spip = a.dpip := by
            by_contra hdiff
            exact hm (moves_iff.mpr ⟨hisdir, hdiff⟩)
          rw [hdots _ _ isDots_dotdot fun _ _ => by simpa using hm, ← hsame]
          exact (hr.sourceParent ht hisdir).2.2
    · obtain ⟨p, nm, hnm, hp, hl, hdd⟩ := ht.parent d (hsearch d hd) hne
      refine ⟨p, nm, hnm, (h.searchable p).trans hp, ?_, ?_⟩
      · rw [h.lookup, if_neg, if_neg, if_neg, hl]
        · exact fun he => ne_dotdot hnm he.2.2
        · rintro ⟨rfl, rfl⟩
          rw [hr.dname, hdip] at hl
          cases hl
        · rintro ⟨rfl, rfl⟩
          rw [hr.sname] at hl
          exact hds (Option.some.inj hl).symm
      · rw [hdots _ _ isDots_dotdot fun he => absurd he hds]
        exact hdd
  · intro d p nm p' nm' hd hnm hnm' hp hp' hl hl'
    rw [hdir] at hd
    have hold : ∀ q y, isDots y = false → fs'.searchable q = true →
        ¬(q = a.spip ∧ y = a.sname) → fs.lookup q y = some a.sip → fs.isDir a.sip = true → False :=
      fun q y hy hq hne hly hsd =>
        hne (ht.once _ _ _ _ _ hsd hy hr.snameDots (hsearch q hq) hr.source hly hr.sname)
    rcases hentry p nm d hnm hl with ⟨rfl, rfl, hds⟩ | ⟨h1, h2⟩ <;>
      rcases hentry p' nm' d hnm' hl' with ⟨rfl, rfl, hds'⟩ | ⟨h3, h4⟩
    · exact ⟨rfl, rfl⟩
    · subst hds
      exact absurd hd (fun hd => hold p' nm' hnm' hp' h3 h4 hd)
    · subst hds'
      exact absurd hd (fun hd => hold p nm hnm hp h1 h2 hd)
    · exact ht.once d p nm p' nm' hd hnm hnm' (hsearch p hp) (hsearch p' hp') h2 h4
  · intro p nm hnm hp hl
    rcases hentry p nm _ hnm hl with ⟨-, -, h3⟩ | ⟨-, h3⟩
    · exact hroot h3.symm
    · exact ht.rootUnnamed p nm hnm (hsearch p hp) h3
  · have hdest : ∀ x, ¬ReflTransGen (Parent fs) x a.sip → ReflTransGen (Parent fs) x rootIno →
        ReflTransGen (Parent fs') x rootIno := by
      intro x hx hpath
      induction hpath using ReflTransGen.head_induction_on with
      | refl => exact .refl
      | head hstep _ ih =>
        apply ReflTransGen.head (hup _ _ _ hstep) (ih fun hy => hx (.head hstep hy))
        rintro rfl
        exact hx .refl
    intro d hd
    have hpath := ht.up d (hsearch d hd)
    clear hd
    induction hpath using ReflTransGen.head_induction_on with
    | refl => exact .refl
    | @head x y hstep _ ih =>
      by_cases hx : x = a.sip
      · subst hx
        by_cases hm : moves fs a = true
        · have hnew : Parent fs' a.sip a.dpip := by
            refine ⟨hroot, (h.searchable _).trans hstep.2.1, ?_⟩
            rw [h.lookup, if_neg, if_neg, if_pos ⟨hm, rfl, rfl⟩]
            · exact fun he => ne_dotdot hr.dnameDots he.2.symm
            · exact fun he => ne_dotdot hr.snameDots he.2.symm
          exact .head hnew (hdest _ (hinc hm) (ht.up _ hr.dest))
        · have hold : Parent fs' a.sip y := by
            refine ⟨hroot, (h.searchable _).trans hstep.2.1, ?_⟩
            rw [hdots _ _ isDots_dotdot fun _ _ => by simpa using hm]
            exact hstep.2.2
          exact .head hold ih
      · exact .head (hup _ _ hx hstep) ih

end Move

theorem parent_of_removed (hr : Ready fs a) (h : Removed a fs fs') {d p : Ino}
    (hp : Parent fs' d p) : Parent fs d p := by
  obtain ⟨h1, h2, h3⟩ := hp
  rw [h.lookup, if_neg (fun he => ne_dotdot hr.dnameDots he.2.symm)] at h3
  exact ⟨h1, ((h.searchable d).mp h2).1, h3⟩

theorem parent_of_moved (hr : Ready fs a) (h : Moved a fs fs') {d p : Ino} (hp : Parent fs' d p) :
    Parent fs d p ∨ (moves fs a = true ∧ d = a.sip ∧ p = a.dpip) := by
  obtain ⟨h1, h2, h3⟩ := hp
  rw [h.lookup, if_neg (fun he => ne_dotdot hr.snameDots he.2.symm),
    if_neg (fun he => ne_dotdot hr.dnameDots he.2.symm)] at h3
  split at h3
  next hm => exact .inr ⟨hm.1, hm.2.1, (Option.some.inj h3).symm⟩
  next => exact .inl ⟨h1, (h.searchable d) ▸ h2, h3⟩

/-- What the last part of `jfs_rename` does, whether it succeeds or fails. -/
theorem act_spec (ht : IsTree fs) (hr : Ready fs a)
    (hinc : moves fs a = true → ¬ReflTransGen (Parent fs) a.dpip a.sip) :
    IsTree (act r fs a).1 ∧ (act r fs a).2 ≠ .panic ∧ Frame a fs (act r fs a).1 ∧
    ∀ d p, Parent (act r fs a).1 d p →
      Parent fs d p ∨ (moves fs a = true ∧ d = a.sip ∧ p = a.dpip) := by
  unfold act
  split
  next e _ => exact ⟨ht, by simp, .refl, fun _ _ hp => .inl hp⟩
  next fs₁ hrem =>
    have hrm := removeDest_ok ht hr hrem
    have ht₁ := isTree_removed ht hr hrm
    have hr₁ := ready_removed ht hr hrm
    have hpar₁ : ∀ {d p}, Parent fs₁ d p → Parent fs d p := fun hp => parent_of_removed hr hrm hp
    split
    next e _ => exact ⟨ht₁, by simp, hrm.frame, fun _ _ hp => .inl (hpar₁ hp)⟩
    next fs₂ hlink =>
      obtain ⟨fs₃, hdel, hstay, hmove⟩ := moved_ok ht₁ hr₁ rfl hlink
      have hmoves : moves fs₁ { a with dip := none } = moves fs a := moves_congr hrm.frame.1
      have hinc₁ : moves fs₁ { a with dip := none } = true →
          ¬ReflTransGen (Parent fs₁) a.dpip a.sip :=
        fun hm hpath => hinc (hmoves ▸ hm) (ReflTransGen.mono (fun _ _ hp => hpar₁ hp) _ _ hpath)
      have hdone : ∀ fs', Moved { a with dip := none } fs₁ fs' → IsTree fs' ∧ Frame a fs fs' ∧
          ∀ d p, Parent fs' d p →
            Parent fs d p ∨ (moves fs a = true ∧ d = a.sip ∧ p = a.dpip) := by
        intro fs' hm
        refine ⟨isTree_moved ht₁ hr₁ hm rfl hinc₁, ?_, ?_⟩
        · apply hrm.frame.trans
          exact ⟨hm.frame.1, fun i h1 h2 h3 _ => hm.frame.2 i h1 h2 h3 (by simp)⟩
        · intro d p hp
          rcases parent_of_moved hr₁ hm hp with h | ⟨h1, h2⟩
          · exact .inl (hpar₁ h)
          · exact .inr ⟨hmoves ▸ h1, h2⟩
      have hdel' : dirDelete fs₂ a.spip a.sname a.sip = .ok fs₃ := hdel
      simp only [hdel']
      split
      next hm =>
        obtain ⟨fs₄, hfix, hm₄⟩ := hmove hm
        have hfix' : dirFixparent fs₃ a.sip a.spip a.dpip = .ok fs₄ := hfix
        simp only [hfix']
        obtain ⟨h1, h2, h3⟩ := hdone fs₄ hm₄
        exact ⟨h1, by simp, h2, h3⟩
      next hm =>
        obtain ⟨h1, h2, h3⟩ := hdone fs₃ (hstay (Bool.eq_false_iff.mpr hm))
        exact ⟨h1, by simp, h2, h3⟩

end Aix413.Rename.Acting
