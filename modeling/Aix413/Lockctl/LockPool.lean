import Aix413.Lockctl.LockTable

namespace Aix413.Lockctl.LockPool

open LockTable

/-- All entries of the table: free, on the sleep list, on the gnode's list. -/
def pool (m : Mem) (l : List Filock) : List Nat := m.frlock ++ (addrs m.sleeplcks ++ addrs l)

/-- The entries of the table before and after a step: the same ones, and
those by which the table grew. -/
def Grown (m : Mem) (l : List Filock) (m' : Mem) (l' : List Filock) : Prop :=
  m'.nfloxMax = m.nfloxMax ∧ ∃ k, m'.vLock = m.vLock + k ∧ (k = 0 ∨ m'.vLock ≤ m.nfloxMax) ∧
    (pool m' l').Perm (pool m l ++ List.range' m.vLock k)

/-- Every entry is in one place, and the table is within its limit. -/
structure Pool (m : Mem) (l : List Filock) : Prop where
  nodup : (pool m l).Nodup
  bound : ∀ a ∈ pool m l, a < m.vLock
  limit : m.vLock ≤ m.nfloxMax

theorem Grown.of_perm {m m' : Mem} {l l' : List Filock} (hn : m'.nfloxMax = m.nfloxMax)
    (hv : m'.vLock = m.vLock) (h : (pool m' l').Perm (pool m l)) : Grown m l m' l' :=
  ⟨hn, 0, by simp [hv], Or.inl rfl, by simpa using h⟩

theorem Grown.refl (m : Mem) (l : List Filock) : Grown m l m l :=
  Grown.of_perm rfl rfl (List.Perm.refl _)

theorem Grown.trans {m m' m'' : Mem} {l l' l'' : List Filock} (h : Grown m l m' l')
    (h' : Grown m' l' m'' l'') : Grown m l m'' l'' := by
  obtain ⟨hn, k, hk, hl, hp⟩ := h
  obtain ⟨hn', k', hk', hl', hp'⟩ := h'
  refine ⟨hn'.trans hn, k + k', by omega, by omega, hp'.trans ?_⟩
  rw [hk, ← List.range'_append_1, ← List.append_assoc]
  exact hp.append_right _

theorem Pool.grown {m m' : Mem} {l l' : List Filock} (hp : Pool m l) (h : Grown m l m' l') :
    Pool m' l' := by
  obtain ⟨hn, k, hk, hl, hperm⟩ := h
  have hlim := hp.limit
  refine ⟨?_, ?_, by omega⟩
  · rw [hperm.nodup_iff, List.nodup_append]
    refine ⟨hp.nodup, List.nodup_range', ?_⟩
    intro a ha b hb
    have h1 := hp.bound a ha
    have h2 := (List.mem_range'_1.mp hb).1
    omega
  · intro a ha
    rcases List.mem_append.mp (hperm.subset ha) with ha | ha
    · have := hp.bound a ha
      omega
    · have := (List.mem_range'_1.mp ha).2
      omega

theorem Pool.nodup_list {m : Mem} {l : List Filock} (hp : Pool m l) : (addrs l).Nodup :=
  hp.nodup.of_append_right.of_append_right

theorem addrs_map_release (lp : Nat) (l : List Filock) : addrs (l.map (release lp)) = addrs l := by
  induction l with
  | nil => rfl
  | cons s l ih =>
    simp only [List.map_cons, addrs_cons, ih, release]
    split <;> rfl

theorem addrs_filter_perm (p : Filock → Bool) (l : List Filock) :
    ((addrs (l.filter p)).reverse ++ addrs (l.filter (fun s => !p s))).Perm (addrs l) := by
  have h := (List.filter_append_perm p l).map Filock.addr
  rw [List.map_append] at h
  exact (List.Perm.append_right _ (List.reverse_perm _)).trans h

theorem grown_lockWakeup (m : Mem) (f : Filock) (l : List Filock) :
    Grown m l (lockWakeup m f) l := by
  unfold lockWakeup
  split
  next =>
    let p : Filock → Bool := fun s => decide (s.filockp = some f.addr ∧ s.retryFcn.isSome)
    have hp := addrs_filter_perm p m.sleeplcks
    have he : pool (wakeAll m f.addr) l =
        (addrs (m.sleeplcks.filter p)).reverse ++ m.frlock ++
          (addrs (m.sleeplcks.filter (fun s => !p s)) ++ addrs l) := by
      simp only [pool, wakeAll, addrs_map_release, p, decide_not]
    have hq : (pool (wakeAll m f.addr) l).Perm (pool m l) := by
      rw [he, pool]
      refine (List.Perm.append_right _ List.perm_append_comm).trans ?_
      rw [List.append_assoc, ← List.append_assoc (addrs _).reverse]
      exact List.Perm.append_left _ (hp.append_right _)
    exact Grown.of_perm rfl rfl hq
  next => exact Grown.refl m l

theorem grown_delflck (m : Mem) (f : Filock) (A B : List Filock) :
    Grown m (A ++ f :: B) (delflck m f.addr) (A ++ B) := by
  have hq : (pool (delflck m f.addr) (A ++ B)).Perm (pool m (A ++ f :: B)) := by
    simp only [pool, delflck, addrs_append, addrs_cons, List.cons_append, ← List.append_assoc]
    exact (@List.perm_middle _ f.addr (m.frlock ++ addrs m.sleeplcks ++ addrs A) (addrs B)).symm
  exact Grown.of_perm rfl rfl hq

theorem grown_flockGrow (m : Mem) (l : List Filock) (h : m.vLock ≤ m.nfloxMax) :
    Grown m l (flockGrow m) l := by
  refine ⟨rfl, min m.nfloxMax (m.vLock + filocksPerPage) - m.vLock, ?_, ?_, ?_⟩
  · simp only [flockGrow, filocksPerPage]
    omega
  · simp only [flockGrow]
    omega
  · simp only [pool, flockGrow, List.append_assoc]
    refine (List.Perm.append_right _ (List.reverse_perm _)).trans ?_
    exact List.perm_append_comm.trans (by simp)

/-- Taking an entry for `f` off the free list puts it in the list, wherever
it is linked in. -/
theorem grown_takeFree {m m' : Mem} {a : Nat} (hb : m.vLock ≤ m.nfloxMax)
    (h : takeFree m = some (a, m')) (A B : List Filock) (f : Filock) (hf : f.addr = a) :
    Grown m (A ++ B) m' (A ++ f :: B) := by
  have hm : Grown m (A ++ B) (if m.frlock = [] then flockGrow m else m) (A ++ B) := by
    split
    · exact grown_flockGrow m _ hb
    · exact Grown.refl m _
  refine hm.trans ?_
  simp only [takeFree] at h
  generalize (if m.frlock = [] then flockGrow m else m) = n at h
  cases hfr : n.frlock with
  | nil => simp [hfr] at h
  | cons b rest =>
    simp only [hfr, Option.some.injEq, Prod.mk.injEq] at h
    obtain ⟨rfl, rfl⟩ := h
    have hq : (pool { n with frlock := rest } (A ++ f :: B)).Perm (pool n (A ++ B)) := by
      simp only [pool, addrs_append, addrs_cons, hfr, hf, ← List.append_assoc]
      simpa only [List.append_assoc, List.cons_append] using
        @List.perm_middle _ b (rest ++ addrs n.sleeplcks ++ addrs A) (addrs B)
    exact Grown.of_perm rfl rfl hq

end Aix413.Lockctl.LockPool
