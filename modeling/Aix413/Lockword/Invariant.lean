import Aix413.Lockword.Links

namespace Aix413.Lockword.Invariant

open Anchor Links
open Aix413.Lib.LinkedPool

/-- A lockword is on the chain of its page and on the list of its transaction,
a `movedfrag` on the chain of its pages and on the list of its inode. -/
structure Roles (e : Env) (c : Nat → Cell) (N : NextAnchor → List Nat) (T : Owner → List Nat) :
    Prop where
  hash : ∀ {h k}, k ∈ N (.hash h) →
    lockHash (c k).sid (c k).page = h ∧ k ∈ T (.tid (c k).tid)
  tid : ∀ {t k}, k ∈ T (.tid t) →
    (c k).tid = t ∧ k ∈ N (.hash (lockHash (c k).sid (c k).page))
  frag : ∀ {h k}, k ∈ N (.frag h) →
    fragHash (c k).fragSid (c k).fragPno = h ∧ k ∈ T (.inode (e.inodeOf (c k).fragSid))
  inode : ∀ {ip k}, k ∈ T (.inode ip) →
    e.inodeOf (c k).fragSid = ip ∧ e.seg ip = (c k).fragSid ∧
      k ∈ N (.frag (fragHash (c k).fragSid (c k).fragPno))
  unique : ∀ {h k k'}, k ∈ N (.hash h) → k' ∈ N (.hash h) →
    (c k).sid = (c k').sid → (c k).page = (c k').page → k = k'

namespace Roles

variable {e : Env} {c c' : Nat → Cell} {N N' : NextAnchor → List Nat} {T T' : Owner → List Nat}
  {k : Nat}

theorem congr (h : Roles e c N T) (hk : ∀ k, (c' k).word2 = (c k).word2 ∧
    (c' k).word3 = (c k).word3) : Roles e c' N T := by
  have hsid : ∀ k, (c' k).sid = (c k).sid := fun k => by rw [Cell.sid, (hk k).1, Cell.sid]
  have hpage : ∀ k, (c' k).page = (c k).page := fun k => by rw [Cell.page, (hk k).2, Cell.page]
  have htid : ∀ k, (c' k).tid = (c k).tid := fun k => by rw [Cell.tid, (hk k).2, Cell.tid]
  have hfs : ∀ k, (c' k).fragSid = (c k).fragSid := fun k => (hk k).1
  have hfp : ∀ k, (c' k).fragPno = (c k).fragPno := fun k => (hk k).2
  constructor
  · intro a k hm
    rw [hsid, hpage, htid]
    exact h.hash hm
  · intro t k hm
    rw [hsid, hpage, htid]
    exact h.tid hm
  · intro a k hm
    rw [hfs, hfp]
    exact h.frag hm
  · intro ip k hm
    rw [hfs, hfp]
    exact h.inode hm
  · intro a k k' hm hm' hs hp
    rw [hsid, hsid] at hs
    rw [hpage, hpage] at hp
    exact h.unique hm hm' hs hp

/-- Only the free list changes. -/
theorem refill (h : Roles e c N T) (hN : ∀ {a}, a ≠ .free → N' a = N a) : Roles e c N' T := by
  have hh : ∀ a, N' (.hash a) = N (.hash a) := fun a => hN (by simp)
  have hf : ∀ a, N' (.frag a) = N (.frag a) := fun a => hN (by simp)
  constructor
  · intro a k hm
    rw [hh] at hm
    exact h.hash hm
  · intro t k hm
    rw [hh]
    exact h.tid hm
  · intro a k hm
    rw [hf] at hm
    exact h.frag hm
  · intro ip k hm
    rw [hf]
    exact h.inode hm
  · intro a k k' hm hm'
    rw [hh] at hm hm'
    exact h.unique hm hm'

/-- The flag of a lockword changes. -/
theorem reflag (h : Roles e c N T) {a : Nat} (hk : k ∈ N (.hash a))
    (hdis : ∀ {b}, k ∉ N (.frag b)) {d : Cell} (hs : d.sid = (c k).sid)
    (hw : d.word3 = (c k).word3) : Roles e (Function.update c k d) N T := by
  have hsid : ∀ j, (Function.update c k d j).sid = (c j).sid := by
    intro j
    by_cases hj : j = k
    · subst hj
      rwa [Function.update_self]
    · rw [Function.update_of_ne hj]
  have hw3 : ∀ j, (Function.update c k d j).word3 = (c j).word3 := by
    intro j
    by_cases hj : j = k
    · subst hj
      rwa [Function.update_self]
    · rw [Function.update_of_ne hj]
  have hpage : ∀ j, (Function.update c k d j).page = (c j).page :=
    fun j => by rw [Cell.page, hw3, Cell.page]
  have htid : ∀ j, (Function.update c k d j).tid = (c j).tid :=
    fun j => by rw [Cell.tid, hw3, Cell.tid]
  constructor
  · intro b j hm
    rw [hsid, hpage, htid]
    exact h.hash hm
  · intro t j hm
    rw [hsid, hpage, htid]
    exact h.tid hm
  · intro b j hm
    have hj : j ≠ k := by
      rintro rfl
      exact hdis hm
    rw [Function.update_of_ne hj]
    exact h.frag hm
  · intro ip j hm
    have hj : j ≠ k := by
      rintro rfl
      exact hdis (h.inode hm).2.2
    rw [Function.update_of_ne hj]
    exact h.inode hm
  · intro b j j' hm hm' hs' hp'
    rw [hsid, hsid] at hs'
    rw [hpage, hpage] at hp'
    exact h.unique hm hm' hs' hp'

/-- An entry loses its role. -/
theorem remove (h : Roles e c N T)
    (hash' : ∀ {a j}, j ∈ N' (.hash a) ↔ j ∈ N (.hash a) ∧ j ≠ k)
    (frag' : ∀ {a j}, j ∈ N' (.frag a) ↔ j ∈ N (.frag a) ∧ j ≠ k)
    (owner' : ∀ {o j}, j ∈ T' o ↔ j ∈ T o ∧ j ≠ k) : Roles e c N' T' := by
  constructor
  · intro a j hm
    obtain ⟨hm, hne⟩ := hash'.mp hm
    exact ⟨(h.hash hm).1, owner'.mpr ⟨(h.hash hm).2, hne⟩⟩
  · intro t j hm
    obtain ⟨hm, hne⟩ := owner'.mp hm
    exact ⟨(h.tid hm).1, hash'.mpr ⟨(h.tid hm).2, hne⟩⟩
  · intro a j hm
    obtain ⟨hm, hne⟩ := frag'.mp hm
    exact ⟨(h.frag hm).1, owner'.mpr ⟨(h.frag hm).2, hne⟩⟩
  · intro ip j hm
    obtain ⟨hm, hne⟩ := owner'.mp hm
    exact ⟨(h.inode hm).1, (h.inode hm).2.1, frag'.mpr ⟨(h.inode hm).2.2, hne⟩⟩
  · intro a j j' hm hm'
    exact h.unique (hash'.mp hm).1 (hash'.mp hm').1

/-- A free entry becomes the lockword of a page that has none. -/
theorem addLock (h : Roles e c N T) (hc : ∀ j, j ≠ k → c' j = c j)
    (hN : ∀ {a}, k ∉ N (.hash a) ∧ k ∉ N (.frag a)) (hT : ∀ {o}, k ∉ T o)
    (hnone : ∀ {j}, j ∈ N (.hash (lockHash (c' k).sid (c' k).page)) →
      ¬ ((c j).sid = (c' k).sid ∧ (c j).page = (c' k).page))
    (hash' : ∀ {a j}, j ∈ N' (.hash a) ↔
      j ∈ N (.hash a) ∨ (j = k ∧ a = lockHash (c' k).sid (c' k).page))
    (frag' : ∀ {a}, N' (.frag a) = N (.frag a))
    (tid' : ∀ {t j}, j ∈ T' (.tid t) ↔ j ∈ T (.tid t) ∨ (j = k ∧ t = (c' k).tid))
    (inode' : ∀ {ip}, T' (.inode ip) = T (.inode ip)) : Roles e c' N' T' := by
  have hneN : ∀ {a j}, j ∈ N (.hash a) → j ≠ k := by
    rintro a j hm rfl
    exact hN.1 hm
  have hneF : ∀ {a j}, j ∈ N (.frag a) → j ≠ k := by
    rintro a j hm rfl
    exact hN.2 hm
  have hneT : ∀ {o j}, j ∈ T o → j ≠ k := by
    rintro o j hm rfl
    exact hT hm
  constructor
  · intro a j hm
    cases hash'.mp hm with
    | inl hm =>
      rw [hc j (hneN hm)]
      exact ⟨(h.hash hm).1, tid'.mpr (Or.inl (h.hash hm).2)⟩
    | inr hk =>
      obtain ⟨rfl, rfl⟩ := hk
      exact ⟨rfl, tid'.mpr (Or.inr ⟨rfl, rfl⟩)⟩
  · intro t j hm
    cases tid'.mp hm with
    | inl hm =>
      rw [hc j (hneT hm)]
      exact ⟨(h.tid hm).1, hash'.mpr (Or.inl (h.tid hm).2)⟩
    | inr hk =>
      obtain ⟨rfl, rfl⟩ := hk
      exact ⟨rfl, hash'.mpr (Or.inr ⟨rfl, rfl⟩)⟩
  · intro a j hm
    rw [frag'] at hm
    rw [hc j (hneF hm), inode']
    exact h.frag hm
  · intro ip j hm
    rw [inode'] at hm
    rw [hc j (hneT hm), frag']
    exact h.inode hm
  · intro a j j' hm hm' hs hp
    cases hash'.mp hm with
    | inl hm =>
      cases hash'.mp hm' with
      | inl hm' =>
        rw [hc j (hneN hm), hc j' (hneN hm')] at hs hp
        exact h.unique hm hm' hs hp
      | inr hk =>
        obtain ⟨rfl, rfl⟩ := hk
        rw [hc j (hneN hm)] at hs hp
        exact absurd ⟨hs, hp⟩ (hnone hm)
    | inr hk =>
      obtain ⟨rfl, rfl⟩ := hk
      cases hash'.mp hm' with
      | inl hm' =>
        rw [hc j' (hneN hm')] at hs hp
        exact absurd ⟨hs.symm, hp.symm⟩ (hnone hm')
      | inr hk => exact hk.1.symm

/-- A free entry becomes a `movedfrag`. -/
theorem addFrag (h : Roles e c N T) (hc : ∀ j, j ≠ k → c' j = c j)
    (hN : ∀ {a}, k ∉ N (.hash a) ∧ k ∉ N (.frag a)) (hT : ∀ {o}, k ∉ T o)
    (hseg : e.seg (e.inodeOf (c' k).fragSid) = (c' k).fragSid)
    (hash' : ∀ {a}, N' (.hash a) = N (.hash a))
    (frag' : ∀ {a j}, j ∈ N' (.frag a) ↔
      j ∈ N (.frag a) ∨ (j = k ∧ a = fragHash (c' k).fragSid (c' k).fragPno))
    (tid' : ∀ {t}, T' (.tid t) = T (.tid t))
    (inode' : ∀ {ip j}, j ∈ T' (.inode ip) ↔
      j ∈ T (.inode ip) ∨ (j = k ∧ ip = e.inodeOf (c' k).fragSid)) : Roles e c' N' T' := by
  have hneN : ∀ {a j}, j ∈ N (.hash a) → j ≠ k := by
    rintro a j hm rfl
    exact hN.1 hm
  have hneF : ∀ {a j}, j ∈ N (.frag a) → j ≠ k := by
    rintro a j hm rfl
    exact hN.2 hm
  have hneT : ∀ {o j}, j ∈ T o → j ≠ k := by
    rintro o j hm rfl
    exact hT hm
  constructor
  · intro a j hm
    rw [hash'] at hm
    rw [hc j (hneN hm), tid']
    exact h.hash hm
  · intro t j hm
    rw [tid'] at hm
    rw [hc j (hneT hm), hash']
    exact h.tid hm
  · intro a j hm
    cases frag'.mp hm with
    | inl hm =>
      rw [hc j (hneF hm)]
      exact ⟨(h.frag hm).1, inode'.mpr (Or.inl (h.frag hm).2)⟩
    | inr hk =>
      obtain ⟨rfl, rfl⟩ := hk
      exact ⟨rfl, inode'.mpr (Or.inr ⟨rfl, rfl⟩)⟩
  · intro ip j hm
    cases inode'.mp hm with
    | inl hm =>
      rw [hc j (hneT hm)]
      exact ⟨(h.inode hm).1, (h.inode hm).2.1, frag'.mpr (Or.inl (h.inode hm).2.2)⟩
    | inr hk =>
      obtain ⟨rfl, rfl⟩ := hk
      exact ⟨rfl, hseg, frag'.mpr (Or.inr ⟨rfl, rfl⟩)⟩
  · intro a j j' hm hm' hs hp
    rw [hash'] at hm hm'
    rw [hc j (hneN hm), hc j' (hneN hm')] at hs hp
    exact h.unique hm hm' hs hp

end Roles

/-- The lists of a state: `ftids` the free `tblk`s, `N` the lists through
`next`, `T` those through `tidnxt` and `nextsid`. -/
structure Inv (e : Env) (s : State) (ftids : List Nat) (N : NextAnchor → List Nat)
    (T : Owner → List Nat) : Prop where
  nexts : Linked s.next (nextHead s) N
  owners : Linked s.link (ownerHead s ftids) T
  roles : Roles e s.lword N T
  tids : Chain (tidNext s) s.freetid ftids
  tid_lt : ∀ {t}, t ∈ ftids → t < 256
  fstid : ∀ th, s.fstid th < 256 ∧ s.fstid th ∉ ftids
  fstid_inj : ∀ {th th'}, s.fstid th = s.fstid th' → s.fstid th ≠ 0 → th = th'
  bound : ∀ {a k}, k ∈ N a → k < s.size
  fresh : ∀ {k}, s.size ≤ k → s.next k = 0
  pages : s.lwptr % 4096 = 0 ∧ s.morelocks % 4096 = 0 ∧ s.lwptr < s.morelocks

theorem size_eq {s s' : State} (h : base s' = base s) : s'.size = s.size := by
  obtain ⟨_, _, h1, h2⟩ : _ ∧ _ ∧ s'.lwptr = s.lwptr ∧ s'.morelocks = s.morelocks := by
    simpa [base] using h
  rw [State.size, State.size, h1, h2]

namespace Inv

variable {e : Env} {s s' : State} {ftids : List Nat} {N N' : NextAnchor → List Nat}
  {T T' : Owner → List Nat} {k : Nat}

/-- The lists change, the free `tblk`s and the size of the pool do not. -/
theorem relink (h : Inv e s ftids N T) (hnexts : Linked s'.next (nextHead s') N')
    (howners : Linked s'.link (ownerHead s' ftids) T') (hroles : Roles e s'.lword N' T')
    (htids : ∀ t ∈ ftids, tidNext s' t = tidNext s t) (hbase : base s' = base s)
    (hbound : ∀ {a k}, k ∈ N' a → k < s.size)
    (hfresh : ∀ {k}, s.size ≤ k → s'.next k = 0) : Inv e s' ftids N' T' := by
  have hsize := size_eq hbase
  obtain ⟨h1, h2, h3, h4⟩ : s'.freetid = s.freetid ∧ s'.fstid = s.fstid ∧ s'.lwptr = s.lwptr ∧
      s'.morelocks = s.morelocks := by
    simpa [base] using hbase
  refine ⟨hnexts, howners, hroles, ?_, h.tid_lt, ?_, ?_, ?_, ?_, ?_⟩
  · rw [h1]
    exact h.tids.congr htids
  · rw [h2]
    exact h.fstid
  · rw [h2]
    exact h.fstid_inj
  · intro a k hk
    rw [hsize]
    exact hbound hk
  · intro k hk
    rw [hsize] at hk
    exact hfresh hk
  · rw [h3, h4]
    exact h.pages

theorem length_le (h : Inv e s ftids N T) (a : NextAnchor) : (N a).length ≤ s.size :=
  (h.nexts.chain a).length_le (fun _ hk => h.bound hk)

theorem owner_bound (h : Inv e s ftids N T) {o : Owner} (hk : k ∈ T o) : k < s.size := by
  cases o with
  | tid t => exact h.bound (h.roles.tid hk).2
  | inode ip => exact h.bound (h.roles.inode hk).2.2

theorem owner_length_le (h : Inv e s ftids N T) (o : Owner) : (T o).length ≤ s.size :=
  (h.owners.chain o).length_le (fun _ hk => h.owner_bound hk)

/-- A `tblk` with lockwords is not free. -/
theorem not_mem_ftids (h : Inv e s ftids N T) {t : Nat} (hk : k ∈ T (.tid t)) : t ∉ ftids := by
  intro ht
  have hc := h.owners.chain (.tid t)
  rw [ownerHead, if_pos ht] at hc
  have hnil : Chain s.link 0 [] := rfl
  rw [chain_unique hc hnil] at hk
  exact List.not_mem_nil hk

theorem free_ne (h : Inv e s ftids N T) (hk : k ∈ N .free) {a : NextAnchor} (ha : a ≠ .free) :
    k ∉ N a :=
  fun hm => ha (h.nexts.disjoint hm hk)

theorem free_no_owner (h : Inv e s ftids N T) (hk : k ∈ N .free) {o : Owner} : k ∉ T o := by
  intro hm
  cases o with
  | tid t => exact h.free_ne hk (by simp) (h.roles.tid hm).2
  | inode ip => exact h.free_ne hk (by simp) (h.roles.inode hm).2.2

end Inv

/-- The lists through `next` when a cell of list `a` has been freed. -/
def freed (N : NextAnchor → List Nat) (a : NextAnchor) (k : Nat) : NextAnchor → List Nat :=
  Function.update (Function.update N a ((N a).erase k)) .free (k :: N .free)

section Freed

variable {next : Nat → Nat} {head : NextAnchor → Nat} {N : NextAnchor → List Nat}
  {a b : NextAnchor} {j k : Nat}

theorem mem_freed (h : Linked next head N) (hk : k ∈ N a) (hb : b ≠ .free) :
    j ∈ freed N a k b ↔ j ∈ N b ∧ j ≠ k := by
  rw [freed, Function.update_of_ne hb]
  exact h.mem_erase hk

/-- A cell is taken off its list and put on the free list. -/
theorem linked_freed (h : Linked next head N) (ha : a ≠ .free) (hk : k ∈ N a) {fuel : Nat}
    (hf : (N a).length ≤ fuel) :
    ∃ prev, before next k fuel none (head a) = some prev ∧
      (∀ j, (∀ b, j ∉ N b) →
        Function.update (unlinkNext next prev k) k (head .free) j = next j) ∧
      Linked (Function.update (unlinkNext next prev k) k (head .free))
        (Function.update (unlinkHead head a prev (next k)) .free k) (freed N a k) := by
  obtain ⟨prev, hprev, hmem, hl⟩ := h.unlink hk hf
  refine ⟨prev, hprev, ?_, ?_⟩
  · intro j hj
    have hjk : j ≠ k := by
      rintro rfl
      exact hj a hk
    rw [Function.update_of_ne hjk]
    apply unlinkNext_of_ne
    rintro p hp rfl
    exact hj a (hmem j hp)
  · have hfree : ∀ b, k ∉ Function.update N a ((N a).erase k) b := by
      intro b hm
      exact ((h.mem_erase hk).mp hm).2 rfl
    have hp := hl.push ((h.chain a).ne_zero hk) hfree .free
    have hhead : unlinkHead head a prev (next k) .free = head .free := by
      cases prev with
      | none => exact Function.update_of_ne ha.symm _ _
      | some p => rfl
    rw [Function.update_of_ne ha.symm, hhead] at hp
    exact hp

end Freed

@[simp] theorem next_freeExtmem (s : State) (d : Word) : (freeExtmem s d).next = s.next := by
  unfold freeExtmem
  split <;> rfl

@[simp] theorem link_freeExtmem (s : State) (d : Word) : (freeExtmem s d).link = s.link := by
  unfold freeExtmem
  split <;> rfl

@[simp] theorem nextHead_freeExtmem (s : State) (d : Word) :
    nextHead (freeExtmem s d) = nextHead s := by
  unfold freeExtmem
  split <;> rfl

@[simp] theorem ownerHead_freeExtmem (s : State) (ftids : List Nat) (d : Word) :
    ownerHead (freeExtmem s d) ftids = ownerHead s ftids := by
  unfold freeExtmem
  split <;> rfl

@[simp] theorem tidNext_freeExtmem (s : State) (d : Word) :
    tidNext (freeExtmem s d) = tidNext s := by
  unfold freeExtmem
  split <;> rfl

@[simp] theorem key_freeExtmem (s : State) (d : Word) : key (freeExtmem s d) = key s := by
  unfold freeExtmem
  split <;> rfl

@[simp] theorem base_freeExtmem (s : State) (d : Word) : base (freeExtmem s d) = base s := by
  unfold freeExtmem
  split <;> rfl

section Free

variable {e : Env} {s : State} {ftids : List Nat} {N : NextAnchor → List Nat}
  {T : Owner → List Nat} {k a : Nat}

theorem roles_key {s s' : State} (h : Roles e s.lword N T) (hkey : key s' = key s) :
    Roles e s'.lword N T := by
  refine h.congr ?_
  intro k
  exact ⟨congrArg Prod.fst (congrFun hkey k), congrArg Prod.snd (congrFun hkey k)⟩

theorem Inv.not_mem_of_size_le (h : Inv e s ftids N T) {j : Nat} (hj : s.size ≤ j)
    (b : NextAnchor) : j ∉ N b :=
  fun hm => absurd (h.bound hm) (Nat.not_lt.mpr hj)

theorem bound_freed (h : Inv e s ftids N T) {b c : NextAnchor} {j : Nat} (hk : k ∈ N b)
    (hm : j ∈ freed N b k c) : j < s.size := by
  by_cases hc : c = .free
  · subst hc
    rw [freed, Function.update_self] at hm
    cases List.mem_cons.mp hm with
    | inl he => exact he ▸ h.bound hk
    | inr hm => exact h.bound hm
  · exact h.bound ((mem_freed h.nexts hk hc).mp hm).1

/-- `v_rmlock` of a lockword in use ends, and frees it. -/
theorem inv_rmlock (h : Inv e s ftids N T) (hk : k ∈ N (.hash a)) :
    ∃ s', v_rmlock s k = some s' ∧
      Inv e s' ftids (freed N (.hash a) k)
        (Function.update T (.tid (s.lword k).tid) ((T (.tid (s.lword k).tid)).erase k)) ∧
      key s' = key s ∧ base s' = base s := by
  obtain ⟨ha, hkt⟩ := h.roles.hash hk
  have ht := h.not_mem_ftids hkt
  obtain ⟨m, hm, hnext, hN⟩ := linked_freed h.nexts (by simp) hk
    (Nat.le_succ_of_le (h.length_le (.hash a)))
  obtain ⟨prev, hprev, _, hT⟩ := h.owners.unlink hkt (Nat.le_succ_of_le (h.owner_length_le _))
  rw [ownerHead, if_neg ht] at hprev
  rw [nextHead] at hm
  refine ⟨freeExtmem (unlinkTid (pushFree (unlinkLock s a k m) k) (s.lword k).tid k prev)
    (s.lword k).extmem, by simp only [v_rmlock, ha, hm, hprev], ?_, by simp, by simp⟩
  refine h.relink ?_ ?_ ?_ ?_ (by simp) (fun hm => bound_freed h hk hm) ?_
  · simpa [nextHead] using hN
  · simpa [ownerHead_unlinkTid _ _ _ _ _ ht] using hT
  · refine roles_key (s := s) ?_ (by simp)
    exact h.roles.remove (mem_freed h.nexts hk (by simp)) (mem_freed h.nexts hk (by simp))
      (h.owners.mem_erase hkt)
  · intro t htm
    have hne : t ≠ (s.lword k).tid := by
      rintro rfl
      exact ht htm
    simp [tidNext_unlinkTid _ _ _ _ hne]
  · intro j hj
    simpa [nextHead] using (hnext j (h.not_mem_of_size_le hj)).trans (h.fresh hj)

end Free

end Aix413.Lockword.Invariant
