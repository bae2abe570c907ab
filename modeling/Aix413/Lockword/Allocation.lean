import Aix413.Lockword.Operations

namespace Aix413.Lockword.Allocation

open Anchor Links Invariant Operations
open Aix413.Lib.LinkedPool

section Take

variable {e : Env} {s s' : State} {ftids : List Nat} {N : NextAnchor → List Nat}
  {T : Owner → List Nat} {k : Nat}

/-- `v_morelocks` adds the lockwords of a page to an empty free list, but for
the last. -/
theorem inv_morelocks (h : Inv e s ftids N T) (h0 : s.freelock = 0) {s₁ : State}
    (hs : v_morelocks s = some s₁) :
    Inv e s₁ ftids (Function.update N .free (List.range' s.size 127)) T ∧ key s₁ = key s ∧
      s₁.fstid = s.fstid := by
  have hsz : s.size = (s.morelocks - s.lwptr) / 32 := rfl
  obtain ⟨hl, hm, hlt⟩ := h.pages
  have hsize0 : s.size ≠ 0 := by omega
  have hfirst : (if (s.morelocks - s.lwptr) / 32 * 32 = s.morelocks - s.lwptr then
      (s.morelocks - s.lwptr) / 32 else (s.morelocks - s.lwptr) / 32 + 1) = s.size := by
    rw [if_pos (by omega)]
    rfl
  have hlast : (s.morelocks - s.lwptr + 4096) / 32 - 1 = s.size + 127 := by omega
  unfold v_morelocks at hs
  split at hs
  · cases hs
  · simp only [hfirst, hlast, Option.some.injEq] at hs
    subst hs
    set s₁ : State := { s with lword := _, freelock := s.size, morelocks := s.morelocks + 4096 }
      with hs₁
    have hnext : ∀ j, s₁.next j = if s.size ≤ j ∧ j < s.size + 127 - 1 then j + 1
        else if j = s.size + 127 then 0 else s.next j := by
      intro j
      simp only [hs₁, State.next, h0]
      split
      · rfl
      · split <;> rfl
    have hlink : s₁.link = s.link := by
      funext j
      simp only [hs₁, State.link]
      split
      · rfl
      · split <;> rfl
    have hkey : key s₁ = key s := by
      funext j
      simp only [hs₁, key]
      split
      · rfl
      · split <;> rfl
    have hsize : s₁.size = s.size + 128 := by
      simp only [hs₁, State.size]
      omega
    have hnil : N .free = [] := chain_unique (h.nexts.chain .free) h0
    have hother : ∀ {a}, a ≠ .free → Function.update N .free (List.range' s.size 127) a = N a :=
      fun ha => Function.update_of_ne ha _ _
    refine ⟨⟨⟨?_, ?_⟩, ?_, roles_key (s := s) ?_ hkey, h.tids, h.tid_lt, h.fstid, h.fstid_inj,
      ?_, ?_, ?_⟩, hkey, rfl⟩
    · intro a
      by_cases ha : a = .free
      · subst ha
        rw [Function.update_self]
        rw [show nextHead s₁ .free = s.size from rfl]
        refine chain_range' hsize0 (by simp) ?_ ?_
        · intro j hj hj'
          rw [hnext, if_pos (by omega)]
        · rw [hnext, if_neg (by omega), if_neg (by omega)]
          exact h.fresh (by omega)
      · rw [hother ha]
        have hc : Chain s.next (nextHead s₁ a) (N a) := by
          cases a with
          | free => exact absurd rfl ha
          | hash i => exact h.nexts.chain (.hash i)
          | frag i => exact h.nexts.chain (.frag i)
        refine hc.congr ?_
        intro j hj
        have := h.bound hj
        rw [hnext, if_neg (by omega), if_neg (by omega)]
    · intro a b j ha hb
      by_cases haf : a = .free <;> by_cases hbf : b = .free
      · rw [haf, hbf]
      · subst haf
        rw [Function.update_self, List.mem_range'_1] at ha
        rw [hother hbf] at hb
        exact absurd (h.bound hb) (by omega)
      · subst hbf
        rw [Function.update_self, List.mem_range'_1] at hb
        rw [hother haf] at ha
        exact absurd (h.bound ha) (by omega)
      · rw [hother haf] at ha
        rw [hother hbf] at hb
        exact h.nexts.disjoint ha hb
    · rw [hlink]
      exact h.owners
    · exact h.roles.refill hother
    · intro a j hj
      rw [hsize]
      by_cases ha : a = .free
      · subst ha
        rw [Function.update_self, List.mem_range'_1] at hj
        omega
      · rw [hother ha] at hj
        have := h.bound hj
        omega
    · intro j hj
      rw [hsize] at hj
      rw [hnext, if_neg (by omega), if_neg (by omega)]
      exact h.fresh (by omega)
    · simp only [hs₁]
      omega

/-- After `needLock` there is a free lockword, or there are none at all. -/
theorem needLock_ok (h : Inv e s ftids N T) :
    needLock s = none ∨ ∃ s₁ N₁ rest, needLock s = some s₁ ∧ Inv e s₁ ftids N₁ T ∧
      N₁ .free = s₁.freelock :: rest ∧ (∀ {a}, a ≠ .free → N₁ a = N a) ∧ key s₁ = key s ∧
      s₁.fstid = s.fstid := by
  unfold needLock
  by_cases h0 : s.freelock = 0
  · rw [if_pos h0]
    cases hm : v_morelocks s with
    | none => exact Or.inl rfl
    | some s₁ =>
      obtain ⟨hinv, hkey, hfst⟩ := inv_morelocks h h0 hm
      have hc := hinv.nexts.chain .free
      rw [Function.update_self] at hc
      refine Or.inr ⟨s₁, _, List.range' (s.size + 1) 126, rfl, hinv, ?_,
        fun ha => Function.update_of_ne ha _ _, hkey, hfst⟩
      rw [Function.update_self, show s₁.freelock = s.size from hc.1]
      rfl
  · rw [if_neg h0]
    have hc := h.nexts.chain .free
    cases hN : N .free with
    | nil =>
      rw [hN] at hc
      exact absurd hc h0
    | cons k rest =>
      rw [hN] at hc
      refine Or.inr ⟨s, N, rest, rfl, h, ?_, fun _ => rfl, rfl, rfl⟩
      rw [hN, show s.freelock = k from hc.1]

theorem linked_take {next : Nat → Nat} {head : NextAnchor → Nat} (h : Linked next head N)
    {rest : List Nat} (hfree : N .free = k :: rest) {a : NextAnchor} (ha : a ≠ .free) :
    Linked (Function.update next k (head a))
      (Function.update (Function.update head .free (next k)) a k)
      (Function.update (Function.update N .free rest) a (k :: N a)) := by
  have hc := h.chain .free
  rw [hfree] at hc
  have hout : ∀ b, k ∉ Function.update N .free rest b := by
    intro b hm
    by_cases hb : b = .free
    · subst hb
      rw [Function.update_self] at hm
      exact (List.nodup_cons.mp hc.nodup).1 hm
    · rw [Function.update_of_ne hb] at hm
      exact hb (h.disjoint hm (by simp [hfree]))
  have hp := (h.pop hfree).push hc.2.1 hout a
  rwa [Function.update_of_ne ha, Function.update_of_ne ha] at hp

theorem bound_take (h : Inv e s ftids N T) {rest : List Nat} (hfree : N .free = k :: rest)
    {a b : NextAnchor} {j : Nat}
    (hj : j ∈ Function.update (Function.update N .free rest) a (k :: N a) b) : j < s.size := by
  have hk : k ∈ N .free := by simp [hfree]
  by_cases hb : b = a
  · subst hb
    rw [Function.update_self] at hj
    cases List.mem_cons.mp hj with
    | inl he => exact he ▸ h.bound hk
    | inr hm => exact h.bound hm
  · rw [Function.update_of_ne hb] at hj
    by_cases hbf : b = .free
    · subst hbf
      rw [Function.update_self] at hj
      exact h.bound (a := .free) (by simp [hfree, hj])
    · rw [Function.update_of_ne hbf] at hj
      exact h.bound hj

/-- A cell of a list is not in the fresh memory. -/
theorem fresh_update (h : Inv e s ftids N T) {a : NextAnchor} (hk : k ∈ N a) {v j : Nat}
    (hj : s.size ≤ j) : Function.update s.next k v j = 0 := by
  have hne : j ≠ k := by
    rintro rfl
    exact h.not_mem_of_size_le hj a hk
  rw [Function.update_of_ne hne]
  exact h.fresh hj

/-- A free entry becomes a lockword of `t`, on the front of its lists. -/
theorem inv_take (h : Inv e s ftids N T) {rest : List Nat} (hfree : N .free = k :: rest)
    {t a : Nat} (ht : t ∉ ftids) (hcell : ∀ j, j ≠ k → s'.lword j = s.lword j)
    (hhash : lockHash (s'.lword k).sid (s'.lword k).page = a) (htid : (s'.lword k).tid = t)
    (hnone : ∀ j ∈ N (.hash a),
      ¬ ((s.lword j).sid = (s'.lword k).sid ∧ (s.lword j).page = (s'.lword k).page))
    (hnext : s'.next = Function.update s.next k (nextHead s (.hash a)))
    (hhead : nextHead s' = Function.update (Function.update (nextHead s) .free (s.next k))
      (.hash a) k)
    (hlink : s'.link = Function.update s.link k (ownerHead s ftids (.tid t)))
    (howner : ownerHead s' ftids = Function.update (ownerHead s ftids) (.tid t) k)
    (htids : ∀ t ∈ ftids, tidNext s' t = tidNext s t) (hbase : base s' = base s) :
    Inv e s' ftids (Function.update (Function.update N .free rest) (.hash a) (k :: N (.hash a)))
      (Function.update T (.tid t) (k :: T (.tid t))) := by
  have hk : k ∈ N .free := by simp [hfree]
  subst hhash htid
  refine h.relink ?_ ?_ ?_ htids hbase ?_ ?_
  · rw [hnext, hhead]
    exact linked_take h.nexts hfree (by simp)
  · rw [hlink, howner]
    exact h.owners.push ((h.nexts.chain .free).ne_zero hk) (fun o => h.free_no_owner hk) _
  · refine h.roles.addLock hcell ⟨h.free_ne hk (by simp), h.free_ne hk (by simp)⟩
      (h.free_no_owner hk) (fun hj => hnone _ hj) ?_ ?_ ?_ ?_
    · intro a j
      by_cases ha : a = lockHash (s'.lword k).sid (s'.lword k).page
      · subst ha
        simp [or_comm]
      · simp [ha]
    · intro a
      simp
    · intro t j
      by_cases ht : t = (s'.lword k).tid
      · subst ht
        simp [or_comm]
      · simp [ht]
    · intro ip
      simp
  · intro a j hj
    exact bound_take h hfree hj
  · intro j hj
    rw [hnext]
    exact fresh_update h hk hj

section Cells

variable (c : Cell) (sid : Sid) (page : Page) (d : Word)

theorem sid_lockCell (t : Nat) : (lockCell c t sid page d).sid = sid :=
  Cell.sid_withFlagSid c writelock sid

theorem page_lockCell (t : Nat) : (lockCell c t sid page d).page = page :=
  Cell.page_withPageTid (c.withFlagSid writelock sid) page t

theorem tid_lockCell {t : Nat} (ht : t < 256) : (lockCell c t sid page d).tid = t :=
  Cell.tid_withPageTid (c.withFlagSid writelock sid) page t (by omega)

theorem sid_extmemCell : (extmemCell c sid page).sid = sid := Cell.sid_withFlagSid c 0 sid

theorem page_extmemCell : (extmemCell c sid page).page = page :=
  Cell.page_withPageTid (c.withFlagSid 0 sid) page 0

theorem tid_extmemCell : (extmemCell c sid page).tid = 0 :=
  Cell.tid_withPageTid (c.withFlagSid 0 sid) page 0 (by omega)

end Cells

/-- The lockword of a page is held by `t`. -/
def Held (e : Env) (s : State) (t : Nat) (sid : Sid) (page : Page) : Prop :=
  ∃ ftids N T k, Inv e s ftids N T ∧ k ∈ N (.hash (lockHash sid page)) ∧ (s.lword k).sid = sid ∧
    (s.lword k).page = page ∧ (s.lword k).tid = t

theorem inv_newLock (h : Inv e s ftids N T) {rest : List Nat} (hfree : N .free = k :: rest)
    {t : Nat} (ht : t ∉ ftids) (ht' : t < 256) {sid : Sid} {page : Page}
    (hnone : ∀ j ∈ N (.hash (lockHash sid page)),
      ¬ ((s.lword j).sid = sid ∧ (s.lword j).page = page)) (d : Word) :
    Held e (pushTid (newLock s k t sid page d) t k) t sid page := by
  have hcell : (pushTid (newLock s k t sid page d) t k).lword k =
      { lockCell (s.lword k) t sid page d with
        next := s.lockhash (lockHash sid page), link := (s.tblk t).next } := by
    simp [newLock]
    exact ⟨rfl, rfl⟩
  have hsid : ((pushTid (newLock s k t sid page d) t k).lword k).sid = sid := by
    rw [hcell]
    exact sid_lockCell (s.lword k) sid page d t
  have hpage : ((pushTid (newLock s k t sid page d) t k).lword k).page = page := by
    rw [hcell]
    exact page_lockCell (s.lword k) sid page d t
  have htid : ((pushTid (newLock s k t sid page d) t k).lword k).tid = t := by
    rw [hcell]
    exact tid_lockCell (s.lword k) sid page d ht'
  refine ⟨_, _, _, k, inv_take h hfree (a := lockHash sid page) ht ?_ ?_ htid ?_ ?_ ?_ ?_ ?_ ?_ ?_, by simp, hsid, hpage,
    htid⟩
  · intro j hj
    simp [newLock, hj]
  · rw [hsid, hpage]
  · rw [hsid, hpage]
    exact hnone
  · simp only [newLock, next_pushTid, next_pushHash, next_setFreelock, next_setCell,
      Function.update_idem]
    rfl
  · simp only [newLock, nextHead_pushTid, nextHead_pushHash, nextHead_setFreelock,
      nextHead_setCell, next_setCell, Function.update_self]
    rfl
  · simp only [newLock, link_pushTid, link_pushHash, link_setFreelock, link_setCell,
      Function.update_idem, ownerHead, if_neg ht]
    rfl
  · simp [newLock, ownerHead_pushTid _ _ _ _ ht]
  · intro t' hm
    have hne : t' ≠ t := by
      rintro rfl
      exact ht hm
    simp [newLock, tidNext_pushTid _ _ _ hne]
  · rfl

theorem inv_newExtmem (h : Inv e s ftids N T) {rest : List Nat} (hfree : N .free = k :: rest)
    {sid : Sid} {page : Page}
    (hnone : ∀ j ∈ N (.hash (lockHash sid page)),
      ¬ ((s.lword j).sid = sid ∧ (s.lword j).page = page)) :
    Good e (newExtmem s k sid page) := by
  have ht : 0 ∉ ftids := fun h0 => h.tids.ne_zero h0 rfl
  have hcell : (newExtmem s k sid page).lword k =
      { extmemCell (s.lword k) sid page with
        next := s.lockhash (lockHash sid page), link := (s.tblk 0).next } := by
    simp only [newExtmem, lword_setCell, Function.update_self, lword_pushHash, lword_pushTid,
      lword_setFreelock]
    rfl
  have hsid : ((newExtmem s k sid page).lword k).sid = sid := by
    rw [hcell]
    exact sid_extmemCell (s.lword k) sid page
  have hpage : ((newExtmem s k sid page).lword k).page = page := by
    rw [hcell]
    exact page_extmemCell (s.lword k) sid page
  have htid : ((newExtmem s k sid page).lword k).tid = 0 := by
    rw [hcell]
    exact tid_extmemCell (s.lword k) sid page
  refine ⟨_, _, _, inv_take h hfree (a := lockHash sid page) ht ?_ ?_ htid ?_ ?_ ?_ ?_ ?_ ?_ ?_⟩
  · intro j hj
    simp [newExtmem, hj]
  · rw [hsid, hpage]
  · rw [hsid, hpage]
    exact hnone
  · simp only [newExtmem, next_setCell, next_pushHash, next_pushTid, next_setFreelock,
      lword_pushHash, Function.update_idem, Function.update_self]
    rfl
  · simp only [newExtmem, nextHead_setCell, nextHead_pushHash, nextHead_pushTid,
      nextHead_setFreelock]
  · simp only [newExtmem, link_setCell, link_pushHash, link_pushTid, link_setFreelock,
      lword_pushHash, lword_pushTid, Function.update_idem, Function.update_self, ownerHead,
      if_neg ht]
    rfl
  · simp [newExtmem, ownerHead_pushTid _ _ _ _ ht]
  · intro t' ht'
    have hne : t' ≠ 0 := by
      rintro rfl
      exact ht ht'
    simp [newExtmem, tidNext_pushTid _ _ _ hne]
  · rfl

theorem no_lock_of_key {s₁ : State} {N₁ : NextAnchor → List Nat} {sid : Sid} {page : Page}
    (hnone : ∀ j ∈ N (.hash (lockHash sid page)),
      ¬ ((s.lword j).sid = sid ∧ (s.lword j).page = page))
    (hN : ∀ {a}, a ≠ .free → N₁ a = N a) (hkey : key s₁ = key s) :
    ∀ j ∈ N₁ (.hash (lockHash sid page)),
      ¬ ((s₁.lword j).sid = sid ∧ (s₁.lword j).page = page) := by
  intro j hj
  obtain ⟨h2, h3⟩ := Prod.mk.inj (congrFun hkey j)
  rw [hN (by simp)] at hj
  rw [Cell.sid, Cell.page, h2, h3]
  exact hnone j hj

theorem inv_insertlw (h : Inv e s ftids N T) (sid : Sid) (page : Page) :
    ∃ s' k, v_insertlw s sid page = some (s', k) ∧ Good e s' := by
  obtain ⟨k, hk, hcase⟩ := findlw_ok h sid page
  rw [v_insertlw, hk]
  cases hcase with
  | inr hin =>
    exact ⟨s, k, by simp [hin.1], _, _, _, h⟩
  | inl h0 =>
    obtain ⟨rfl, hnone⟩ := h0
    cases needLock_ok h with
    | inl hno =>
      exact ⟨s, 0, by simp [hno], _, _, _, h⟩
    | inr hyes =>
      obtain ⟨s₁, N₁, rest, hs₁, hinv, hfree, hN, hkey, _⟩ := hyes
      refine ⟨newExtmem s₁ s₁.freelock sid page, s₁.freelock, by simp [hs₁], ?_⟩
      exact inv_newExtmem hinv hfree (no_lock_of_key hnone hN hkey)

theorem inv_newFrag (h : Inv e s ftids N T) {rest : List Nat} (hfree : N .free = k :: rest)
    {bsid phash : Word} (hseg : e.seg (e.inodeOf bsid) = bsid) :
    Good e (newFrag s k (e.inodeOf bsid) bsid phash) := by
  have hk : k ∈ N .free := by simp [hfree]
  have hcell : (newFrag s k (e.inodeOf bsid) bsid phash).lword k =
      ⟨s.fraghtab (fragHash bsid phash), s.movedfrag (e.inodeOf bsid), bsid, phash, 0, 0, 0, 0⟩ := by
    simp only [newFrag, setNext, lword_setMovedfrag, lword_setFraghtab, lword_setCell,
      Function.update_self, lword_setFreelock]
    rfl
  have hlword : ∀ j, j ≠ k → (newFrag s k (e.inodeOf bsid) bsid phash).lword j = s.lword j := by
    intro j hj
    simp [newFrag, setNext, hj]
  have hnext : (newFrag s k (e.inodeOf bsid) bsid phash).next =
      Function.update s.next k (nextHead s (.frag (fragHash bsid phash))) := by
    simp only [newFrag, next_setMovedfrag, next_setFraghtab, next_setNext, next_setFreelock,
      next_setCell, Function.update_idem]
    rfl
  refine ⟨ftids, Function.update (Function.update N .free rest) (.frag (fragHash bsid phash))
      (k :: N (.frag (fragHash bsid phash))),
    Function.update T (.inode (e.inodeOf bsid)) (k :: T (.inode (e.inodeOf bsid))), ?_⟩
  refine h.relink ?_ ?_ ?_ (by simp [newFrag]) rfl ?_ ?_
  · rw [hnext]
    have hhead : nextHead (newFrag s k (e.inodeOf bsid) bsid phash) = Function.update
        (Function.update (nextHead s) .free (s.next k)) (.frag (fragHash bsid phash)) k := by
      simp only [newFrag, nextHead_setMovedfrag, nextHead_setFraghtab, nextHead_setNext,
        nextHead_setFreelock, nextHead_setCell, next_setCell, Function.update_self]
    rw [hhead]
    exact linked_take h.nexts hfree (by simp)
  · have hp := h.owners.push ((h.nexts.chain .free).ne_zero hk) (fun o => h.free_no_owner hk)
      (.inode (e.inodeOf bsid))
    simpa [newFrag, ownerHead] using hp
  · refine h.roles.addFrag hlword ⟨h.free_ne hk (by simp), h.free_ne hk (by simp)⟩
      (h.free_no_owner hk) ?_ ?_ ?_ ?_ ?_
    · rw [hcell]
      exact hseg
    · intro a
      simp
    · intro a j
      rw [hcell]
      by_cases ha : a = fragHash bsid phash
      · subst ha
        simp [or_comm, Cell.fragSid, Cell.fragPno]
      · simp [ha, Cell.fragSid, Cell.fragPno]
    · intro t
      simp
    · intro ip j
      rw [hcell]
      by_cases hip : ip = e.inodeOf bsid
      · subst hip
        simp [or_comm, Cell.fragSid]
      · simp [hip, Cell.fragSid]
  · intro a j hj
    exact bound_take h hfree hj
  · intro j hj
    rw [hnext]
    exact fresh_update h hk hj

theorem inv_insertfrag (h : Inv e s ftids N T) {bsid : Word} (pagex : Word)
    (hseg : e.seg (e.inodeOf bsid) = bsid) :
    ∃ s' k, v_insertfrag e s bsid pagex = some (s', k) ∧ Good e s' := by
  have hfind := find_eq (p := isFrag s bsid (pagex &&& 0xfffffffc))
    (h.nexts.chain (.frag (fragHash bsid (pagex &&& 0xfffffffc))))
    (Nat.lt_succ_of_le (h.length_le _))
  simp only [nextHead] at hfind
  unfold v_insertfrag
  simp only [hfind]
  split
  · exact ⟨s, _, rfl, _, _, _, h⟩
  · cases needLock_ok h with
    | inl hno =>
      rw [hno]
      exact ⟨s, 0, rfl, _, _, _, h⟩
    | inr hyes =>
      obtain ⟨s₁, N₁, rest, hs₁, hinv, hfree, _⟩ := hyes
      rw [hs₁]
      exact ⟨_, _, rfl, inv_newFrag hinv hfree hseg⟩

section Steal

variable (s : State) (k t : Nat) (prev : Option Nat)

theorem next_stealLock : (stealLock s k t prev).next = s.next := by
  rw [stealLock, next_setCell]
  exact (Function.update_eq_self k (unlinkTid s 0 k prev).next).trans (next_unlinkTid s k 0 prev)

theorem link_stealLock : (stealLock s k t prev).link = unlinkNext s.link prev k := by
  rw [stealLock, link_setCell]
  exact (Function.update_eq_self k (unlinkTid s 0 k prev).link).trans (link_unlinkTid s k 0 prev)

theorem sid_stealCell (c : Cell) : (stealCell c t).sid = c.sid :=
  Cell.sid_withFlagSid c writelock c.sid

theorem page_stealCell (c : Cell) : (stealCell c t).page = c.page :=
  Cell.page_withPageTid (c.withFlagSid writelock c.sid) c.page t

theorem tid_stealCell (c : Cell) {t : Nat} (ht : t < 256) : (stealCell c t).tid = t :=
  Cell.tid_withPageTid (c.withFlagSid writelock c.sid) c.page t (by omega)

end Steal

/-- A lockword on its hash chain is given another tid. -/
theorem roles_steal {c c' : Nat → Cell} (h : Roles e c N T) {next link : Nat → Nat}
    {head : NextAnchor → Nat} {ohead : Owner → Nat} (hN : Linked next head N)
    (hT : Linked link ohead T) {a t : Nat} (hk : k ∈ N (.hash a)) (hne : t ≠ (c k).tid)
    (hc : ∀ j, j ≠ k → c' j = c j) (hsid : (c' k).sid = (c k).sid)
    (hpage : (c' k).page = (c k).page) (htid : (c' k).tid = t) :
    Roles e c' N (Function.update (Function.update T (.tid (c k).tid)
      ((T (.tid (c k).tid)).erase k)) (.tid t) (k :: T (.tid t))) := by
  obtain ⟨ha, hkt⟩ := h.hash hk
  have hNm := fun {b : NextAnchor} {j : Nat} => hN.mem_erase hk (b := b) (j := j)
  have hTm := fun {o : Owner} {j : Nat} => hT.mem_erase hkt (b := o) (j := j)
  have hr := h.remove hNm hNm hTm
  refine hr.addLock hc ⟨fun hm => (hNm.mp hm).2 rfl, fun hm => (hNm.mp hm).2 rfl⟩
    (fun hm => (hTm.mp hm).2 rfl) ?_ ?_ ?_ ?_ ?_
  · intro j hj hsp
    rw [hsid, hpage] at hsp
    rw [hsid, hpage, ha] at hj
    obtain ⟨hj, hjk⟩ := hNm.mp hj
    exact hjk (h.unique hj hk hsp.1 hsp.2)
  · intro b j
    rw [hsid, hpage, ha, hNm]
    by_cases hj : j = k
    · subst hj
      refine ⟨fun hm => Or.inr ⟨rfl, ?_⟩, fun hm => ?_⟩
      · exact NextAnchor.hash.inj (hN.disjoint hm hk)
      · cases hm with
        | inl hm => exact absurd rfl hm.2
        | inr hm => exact hm.2 ▸ hk
    · simp [hj]
  · intro b
    exact (Function.update_of_ne (by simp) _ _).symm
  · intro t' j
    rw [htid]
    by_cases ht : t' = t
    · subst ht
      have hne' : Owner.tid t' ≠ .tid (c k).tid := by simpa using hne
      rw [Function.update_self, Function.update_of_ne hne']
      simp [or_comm]
    · have hne' : Owner.tid t' ≠ .tid t := by simpa using ht
      rw [Function.update_of_ne hne']
      simp [ht]
  · intro ip
    rw [Function.update_of_ne (by simp)]

/-- A lockword of tid 0 becomes one of `t`. -/
theorem inv_steal (h : Inv e s ftids N T) {a t : Nat} (hk : k ∈ N (.hash a))
    (h0 : (s.lword k).tid = 0) (ht : t ∉ ftids) (ht' : t < 256) (hne : t ≠ 0) :
    ∃ prev, before s.link k (s.size + 1) none (s.tblk 0).next = some prev ∧
      Held e (pushTid (stealLock s k t prev) t k) t (s.lword k).sid (s.lword k).page := by
  obtain ⟨ha, hkt⟩ := h.roles.hash hk
  rw [h0] at hkt
  have hf0 := h.not_mem_ftids hkt
  obtain ⟨prev, hprev, _, hT⟩ := h.owners.unlink hkt (Nat.le_succ_of_le (h.owner_length_le _))
  rw [ownerHead, if_neg hf0] at hprev
  refine ⟨prev, hprev, ?_⟩
  have hneo : Owner.tid t ≠ .tid 0 := by simpa using hne
  have hout : ∀ o, k ∉ Function.update T (.tid 0) ((T (.tid 0)).erase k) o :=
    fun o hm => ((h.owners.mem_erase hkt).mp hm).2 rfl
  have hp := hT.push ((h.nexts.chain (.hash a)).ne_zero hk) hout (.tid t)
  have hhead : unlinkHead (ownerHead s ftids) (.tid 0) prev (s.link k) (.tid t) =
      (s.tblk t).next := by
    cases prev with
    | none => rw [unlinkHead, Function.update_of_ne hneo, ownerHead, if_neg ht]
    | some p => rw [unlinkHead, ownerHead, if_neg ht]
  rw [hhead, Function.update_of_ne hneo] at hp
  have htblk : ((stealLock s k t prev).tblk t).next = (s.tblk t).next :=
    tidNext_unlinkTid s k 0 prev hne
  have hkey := key_unlinkTid s k 0 prev
  obtain ⟨h2, h3⟩ := Prod.mk.inj (congrFun hkey k)
  have hcell : (pushTid (stealLock s k t prev) t k).lword k =
      { stealCell ((unlinkTid s 0 k prev).lword k) t with
        link := ((stealLock s k t prev).tblk t).next } := by
    rw [lword_pushTid, Function.update_self, stealLock, lword_setCell, Function.update_self]
  have hsid : ((pushTid (stealLock s k t prev) t k).lword k).sid =
      ((unlinkTid s 0 k prev).lword k).sid := by
    rw [hcell]
    exact sid_stealCell t _
  have hpage : ((pushTid (stealLock s k t prev) t k).lword k).page =
      ((unlinkTid s 0 k prev).lword k).page := by
    rw [hcell]
    exact page_stealCell t _
  have htid : ((pushTid (stealLock s k t prev) t k).lword k).tid = t := by
    rw [hcell]
    exact tid_stealCell _ ht'
  refine ⟨ftids, N, Function.update (Function.update T (.tid 0) ((T (.tid 0)).erase k)) (.tid t)
    (k :: T (.tid t)), k, h.relink ?_ ?_ ?_ ?_ ?_ h.bound ?_, ?_, ?_, ?_, htid⟩
  · rw [next_pushTid, next_stealLock, nextHead_pushTid, stealLock, nextHead_setCell,
      nextHead_unlinkTid]
    exact h.nexts
  · rw [link_pushTid, link_stealLock, ownerHead_pushTid _ _ _ _ ht, htblk, stealLock,
      ownerHead_setCell, ownerHead_unlinkTid _ _ _ _ _ hf0]
    exact hp
  · have htid0 : ((unlinkTid s 0 k prev).lword k).tid = 0 :=
      (congrArg (fun w => (w.extractLsb' 0 16).toNat) h3).trans h0
    rw [← htid0]
    refine roles_steal (roles_key h.roles hkey) h.nexts h.owners hk (by rw [htid0]; exact hne) ?_
      hsid hpage htid
    intro j hj
    rw [lword_pushTid, Function.update_of_ne hj, stealLock, lword_setCell,
      Function.update_of_ne hj]
  · intro t' hm
    have hnt : t' ≠ t := by
      rintro rfl
      exact ht hm
    have hn0 : t' ≠ 0 := by
      rintro rfl
      exact hf0 hm
    rw [tidNext_pushTid _ _ _ hnt, stealLock, tidNext_setCell, tidNext_unlinkTid _ _ _ _ hn0]
  · rw [base_pushTid]
    exact base_unlinkTid s k 0 prev
  · intro j hj
    rw [next_pushTid, next_stealLock]
    exact h.fresh hj
  · rwa [ha]
  · exact hsid.trans (congrArg (BitVec.extractLsb' 0 24) h2)
  · exact hpage.trans (congrArg (BitVec.extractLsb' 16 16) h3)

end Take

end Aix413.Lockword.Allocation
