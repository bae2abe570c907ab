import Aix413.Lockword.Allocation

namespace Aix413.Lockword.Ownership

open Anchor Links Invariant Operations Allocation
open Aix413.Lib.LinkedPool

section Tids

variable {e : Env} {s s' : State} {ftids : List Nat} {N : NextAnchor → List Nat}
  {T : Owner → List Nat} {k t th : Nat} {sid : Sid} {page : Page}

theorem good_of_held (h : Held e s t sid page) : Good e s := by
  obtain ⟨ftids, N, T, _, h, _⟩ := h
  exact ⟨ftids, N, T, h⟩

theorem held_same (h : Held e s t sid page) (hs : SameLinks s s') : Held e s' t sid page := by
  obtain ⟨ftids, N, T, k, h, hk, hsid, hpage, htid⟩ := h
  obtain ⟨h2, h3⟩ := Prod.mk.inj (congrFun hs.key k)
  refine ⟨ftids, N, T, k, inv_same h hs, hk, ?_, ?_, ?_⟩
  · exact (congrArg (BitVec.extractLsb' 0 24) h2).trans hsid
  · exact (congrArg (BitVec.extractLsb' 16 16) h3).trans hpage
  · exact (congrArg (fun w => (w.extractLsb' 0 16).toNat) h3).trans htid

theorem inv_takeTblk {rest : List Nat} (h : Inv e s (t :: rest) N T) (th : Nat)
    (h0 : s.fstid th = 0) : Inv e (takeTblk s th) rest N T := by
  obtain ⟨ht, ht0, hrest⟩ := h.tids
  have hnd := List.nodup_cons.mp h.tids.nodup
  have hother : ∀ th', th' ≠ th → (takeTblk s th).fstid th' = s.fstid th' :=
    fun th' hne => Function.update_of_ne hne _ _
  have hself : (takeTblk s th).fstid th = t := by simp [takeTblk, ht]
  have hnot : ∀ th', s.fstid th' ≠ t := by
    intro th' he
    exact (h.fstid th').2 (he ▸ List.mem_cons_self)
  refine ⟨h.nexts, ?_, h.roles, ?_, fun hm => h.tid_lt (List.mem_cons_of_mem _ hm), ?_, ?_, h.bound,
    h.fresh, h.pages⟩
  · have howner : ownerHead (takeTblk s th) rest = ownerHead s (t :: rest) := by
      funext o
      cases o with
      | inode ip => rfl
      | tid t' =>
        by_cases htt : t' = t
        · subst htt
          simp [ownerHead, takeTblk, ht, hnd.1, Tblock.zero]
        · simp [ownerHead, takeTblk, ht, htt]
    rw [howner]
    exact h.owners
  · have hfree : (takeTblk s th).freetid = tidNext s t := by
      simp [takeTblk, tidNext, ht]
    rw [hfree]
    refine hrest.congr ?_
    intro t' hm
    have hne : t' ≠ t := by
      rintro rfl
      exact hnd.1 hm
    simp [tidNext, takeTblk, ht, hne]
  · intro th'
    by_cases hth : th' = th
    · subst hth
      rw [hself]
      exact ⟨h.tid_lt List.mem_cons_self, hnd.1⟩
    · rw [hother th' hth]
      exact ⟨(h.fstid th').1, fun hm => (h.fstid th').2 (List.mem_cons_of_mem _ hm)⟩
  · intro th' th'' he hne
    by_cases h1 : th' = th <;> by_cases h2 : th'' = th
    · rw [h1, h2]
    · subst h1
      rw [hself, hother th'' h2] at he
      exact absurd he.symm (hnot th'')
    · subst h2
      rw [hself, hother th' h1] at he
      exact absurd he (hnot th')
    · rw [hother th' h1, hother th'' h2] at he
      rw [hother th' h1] at hne
      exact h.fstid_inj he hne

/-- A `tblk` without lockwords goes back to the free list. -/
theorem inv_putTblk (h : Inv e s ftids N T) (h0 : s.fstid th ≠ 0)
    (hempty : (s.tblk (s.fstid th)).next = 0) :
    Inv e (putTblk s th) (s.fstid th :: ftids) N T := by
  obtain ⟨hlt, hnf⟩ := h.fstid th
  have hother : ∀ th', th' ≠ th → (putTblk s th).fstid th' = s.fstid th' :=
    fun th' hne => Function.update_of_ne hne _ _
  have hself : (putTblk s th).fstid th = 0 := Function.update_self _ _ _
  refine ⟨h.nexts, ?_, h.roles, ?_, ?_, ?_, ?_, h.bound, h.fresh, h.pages⟩
  · have howner : ownerHead (putTblk s th) (s.fstid th :: ftids) = ownerHead s ftids := by
      funext o
      cases o with
      | inode ip => rfl
      | tid t' =>
        by_cases htt : t' = s.fstid th
        · simp [ownerHead, htt, hnf, hempty]
        · simp [ownerHead, putTblk, htt]
    rw [howner]
    exact h.owners
  · refine ⟨rfl, h0, ?_⟩
    have hnext : tidNext (putTblk s th) (s.fstid th) = s.freetid := by
      simp [tidNext, putTblk]
    rw [hnext]
    refine h.tids.congr ?_
    intro t' hm
    have hne : t' ≠ s.fstid th := by
      rintro rfl
      exact hnf hm
    simp [tidNext, putTblk, hne]
  · intro t hm
    cases List.mem_cons.mp hm with
    | inl he => exact he ▸ hlt
    | inr hm => exact h.tid_lt hm
  · intro th'
    by_cases hth : th' = th
    · subst hth
      rw [hself, List.mem_cons, not_or]
      exact ⟨by omega, h0.symm, fun hm => h.tids.ne_zero hm rfl⟩
    · rw [hother th' hth, List.mem_cons, not_or]
      refine ⟨(h.fstid th').1, ?_, (h.fstid th').2⟩
      intro he
      exact hth (h.fstid_inj he.symm h0).symm
  · intro th' th'' he hne
    by_cases h1 : th' = th <;> by_cases h2 : th'' = th
    · rw [h1, h2]
    · subst h1
      exact absurd hself hne
    · subst h2
      rw [he, hself] at hne
      exact absurd rfl hne
    · rw [hother th' h1, hother th'' h2] at he
      rw [hother th' h1] at hne
      exact h.fstid_inj he hne

/-- A `tblk` taken by `v_gettblk` is no longer free, and nobody else has it. -/
theorem gettblk_ok (h : Inv e s ftids N T) (h0 : s.fstid th = 0) :
    ∃ s' rc ftids', v_gettblk s th = (s', rc) ∧ Inv e s' ftids' N T ∧ s'.lword = s.lword ∧
      (rc = .ok → s'.fstid th ≠ 0) := by
  unfold v_gettblk
  by_cases hs : s.syncwait ≠ 0
  · rw [if_pos hs]
    exact ⟨_, _, ftids, rfl, inv_same h ⟨rfl, rfl, rfl, rfl, rfl, rfl, rfl⟩, rfl, by simp⟩
  · rw [if_neg hs]
    by_cases hf : s.freetid = 0
    · rw [if_pos hf]
      exact ⟨_, _, ftids, rfl, inv_same h ⟨rfl, rfl, rfl, rfl, rfl, rfl, rfl⟩, rfl, by simp⟩
    · rw [if_neg hf]
      cases ftids with
      | nil => exact absurd h.tids hf
      | cons t rest =>
        refine ⟨_, _, rest, rfl, inv_takeTblk h th h0, rfl, ?_⟩
        intro _
        simpa [takeTblk] using hf

end Tids

section Gettlock

variable {e : Env} {s s' : State} {ftids : List Nat} {N : NextAnchor → List Nat}
  {T : Owner → List Nat} {k t th : Nat} {sid : Sid} {page : Page}

theorem fstid_of_base (h : base s' = base s) : s'.fstid = s.fstid :=
  congrArg (fun b => b.2.1) h

/-- What the caller of `v_gettlock` learns from the value 0. -/
def Granted (e : Env) (s s' : State) (N : NextAnchor → List Nat) (t : Nat) (sid : Sid)
    (page : Page) : Prop :=
  Held e s' t sid page ∧ ∀ j ∈ N (.hash (lockHash sid page)),
    (s.lword j).sid = sid → (s.lword j).page = page → (s.lword j).tid = 0 ∨ (s.lword j).tid = t

theorem getLock_ok (h : Inv e s ftids N T) (ht : s.fstid th = t) (h0 : t ≠ 0) (sid : Sid)
    (page : Page) (vaddr length : Nat) :
    ∃ s' rc, getLock e s th t sid page vaddr length = some (s', rc) ∧ Good e s' ∧
      s'.fstid = s.fstid ∧ (rc = .ok → Granted e s s' N t sid page) := by
  obtain ⟨hlt, hnf⟩ := h.fstid th
  rw [ht] at hlt hnf
  obtain ⟨k, hk, hcase⟩ := findlw_ok h sid page
  simp only [getLock, hk]
  cases hcase with
  | inl hnone =>
    obtain ⟨rfl, hnone⟩ := hnone
    rw [if_pos rfl]
    cases needLock_ok h with
    | inl hno =>
      rw [hno]
      exact ⟨s, .enomem, rfl, ⟨_, _, _, h⟩, rfl, by simp⟩
    | inr hyes =>
      obtain ⟨s₁, N₁, rest, hs₁, hinv, hfree, hN, hkey, hfst⟩ := hyes
      rw [hs₁]
      have hheld := inv_newLock hinv hfree hnf hlt (no_lock_of_key hnone hN hkey)
        (s₁.pft (e.lookup sid page)).dblock
      have hsame := (sameLinks_setAges e (pushTid (newLock s₁ s₁.freelock t sid page
        (s₁.pft (e.lookup sid page)).dblock) t s₁.freelock) t s₁.freelock (e.lookup sid page)
          sid).trans (sameLinks_grantlock _ s₁.freelock vaddr length)
      have hheld' := held_same hheld hsame
      refine ⟨_, _, rfl, good_of_held hheld', ?_, fun _ => ⟨hheld', ?_⟩⟩
      · exact (fstid_of_base hsame.base).trans hfst
      · intro j hj hsid hpage
        exact absurd ⟨hsid, hpage⟩ (hnone j hj)
  | inr hin =>
    obtain ⟨hk0, hkh, hsid, hpage⟩ := hin
    have honly : ∀ j ∈ N (.hash (lockHash sid page)), (s.lword j).sid = sid →
        (s.lword j).page = page → j = k := by
      intro j hj hs hp
      exact h.roles.unique hj hkh (hs.trans hsid.symm) (hp.trans hpage.symm)
    rw [if_neg hk0]
    by_cases htk : t = (s.lword k).tid
    · rw [if_pos htk]
      have hsame := sameLinks_grantlock s k vaddr length
      have hheld : Held e s t sid page := ⟨_, _, _, k, h, hkh, hsid, hpage, htk.symm⟩
      refine ⟨_, _, rfl, good_of_held (held_same hheld hsame), rfl, fun _ => ⟨held_same hheld hsame, ?_⟩⟩
      intro j hj hs hp
      rw [honly j hj hs hp]
      exact Or.inr htk.symm
    · rw [if_neg htk]
      by_cases hk0 : (s.lword k).tid = 0
      · obtain ⟨prev, hprev, hheld⟩ := inv_steal h hkh hk0 hnf hlt h0
        rw [if_pos hk0, hprev]
        rw [hsid, hpage] at hheld
        have hsame := (sameLinks_setAges e (pushTid (stealLock s k t prev) t k) t k
          (e.lookup sid page) sid).trans (sameLinks_grantlock _ k vaddr length)
        have hheld' := held_same hheld hsame
        refine ⟨_, _, rfl, good_of_held hheld', ?_, fun _ => ⟨hheld', ?_⟩⟩
        · exact (fstid_of_base hsame.base).trans (fstid_of_base (base_unlinkTid s k 0 prev))
        · intro j hj hs hp
          rw [honly j hj hs hp]
          exact Or.inl hk0
      · rw [if_neg hk0]
        refine ⟨_, _, rfl, ?_, rfl, by simp⟩
        exact ⟨_, _, _, inv_same h (sameLinks_waitFor s th t _ sid _)⟩

/-- A call of `v_gettlock` ends; the value 0 grants the lock. -/
theorem gettlock_ok (h : Inv e s ftids N T) (th : Nat) (sid : Sid) (vaddr length : Nat) :
    ∃ s' rc, v_gettlock e s th sid vaddr length = some (s', rc) ∧ Good e s' ∧
      (rc = .ok → Granted e s s' N (s'.fstid th) sid (BitVec.ofNat 16 (vaddr / 4096))) := by
  unfold v_gettlock
  by_cases h0 : s.fstid th = 0
  · rw [if_pos h0]
    obtain ⟨s₁, rc, ftids', hs₁, hinv, hlword, hne⟩ := gettblk_ok h h0
    rw [hs₁]
    cases rc with
    | ok =>
      obtain ⟨s', rc, hs', hgood, hfst, hgr⟩ := getLock_ok hinv rfl (hne rfl) sid
        (BitVec.ofNat 16 (vaddr / 4096)) vaddr length
      refine ⟨s', rc, hs', hgood, fun hrc => ?_⟩
      rw [hfst]
      obtain ⟨hheld, hbefore⟩ := hgr hrc
      rw [hlword] at hbefore
      exact ⟨hheld, hbefore⟩
    | vmWait => exact ⟨s₁, .vmWait, rfl, ⟨_, _, _, hinv⟩, by simp⟩
    | enomem => exact ⟨s₁, .enomem, rfl, ⟨_, _, _, hinv⟩, by simp⟩
  · rw [if_neg h0]
    obtain ⟨s', rc, hs', hgood, hfst, hgr⟩ := getLock_ok h rfl h0 sid
      (BitVec.ofNat 16 (vaddr / 4096)) vaddr length
    refine ⟨s', rc, hs', hgood, fun hrc => ?_⟩
    rw [hfst]
    exact hgr hrc

end Gettlock

/-- `k` is on the list that begins at `h`. -/
def OnList (next : Nat → Nat) (h k : Nat) : Prop := ∃ l, Chain next h l ∧ k ∈ l

def IsFree (s : State) (k : Nat) : Prop := OnList s.next s.freelock k

def OnHash (s : State) (h k : Nat) : Prop := OnList s.next (s.lockhash h) k

def OnFrag (s : State) (h k : Nat) : Prop := OnList s.next (s.fraghtab h) k

/-- A `tblk` that is not on the list of free ones. -/
def TidInUse (s : State) (t : Nat) : Prop := ¬ OnList (tidNext s) s.freetid t

def OnTid (s : State) (t k : Nat) : Prop := TidInUse s t ∧ OnList s.link (s.tblk t).next k

def OnInode (s : State) (ip k : Nat) : Prop := OnList s.link (s.movedfrag ip) k

/-- One call of an operation, or a change of what the commit code and the log
keep in lockwords and in `syncwait`. -/
inductive Step (e : Env) (s : State) : State → Prop
  | gettlock {s' : State} (th : Nat) (sid : Sid) (vaddr length : Nat) (rc : Rc)
      (h : v_gettlock e s th sid vaddr length = some (s', rc)) : Step e s s'
  | insertlw {s' : State} (sid : Sid) (page : Page) (k : Nat)
      (h : v_insertlw s sid page = some (s', k)) : Step e s s'
  | frlock {s' : State} (tid : Nat) (ht : TidInUse s tid) (h : v_frlock s tid = some s') :
      Step e s s'
  | rmlock {s' : State} (lw a : Nat) (hlw : OnHash s a lw) (h : v_rmlock s lw = some s') :
      Step e s s'
  | freelw {s' : State} (sid : Sid) (page : Page) (h : v_freelw s sid page = some s') :
      Step e s s'
  | deletelws {s' : State} (sid : Sid) (h : v_deletelws s sid = some s') : Step e s s'
  | insertfrag {s' : State} (bsid pagex : Word) (k : Nat) (hseg : e.seg (e.inodeOf bsid) = bsid)
      (h : v_insertfrag e s bsid pagex = some (s', k)) : Step e s s'
  | freefrags {s' : State} (ip : Nat) (h : v_freefrags e s ip = some s') : Step e s s'
  | frtblk (th : Nat) (h0 : s.fstid th ≠ 0) (hempty : (s.tblk (s.fstid th)).next = 0) :
      Step e s (v_frtblk s th)
  | mark (k a : Nat) (flag : BitVec 8) (bits log home extmem : Word) (hk : OnHash s a k) :
      Step e s (setCell s k { (s.lword k).withFlagSid flag (s.lword k).sid with
        word4 := bits, word5 := log, word6 := home, word7 := extmem })
  | syncwait (v : Nat) : Step e s { s with syncwait := v }

/-- The states that the operations reach after `vm_initlock`. -/
inductive Reachable (e : Env) : State → Prop
  | init (lwptr : Nat) (pft : Nat → Pfte) (h : lwptr % 4096 = 0) :
      Reachable e (vm_initlock lwptr pft)
  | step {s s' : State} (h : Reachable e s) (hs : Step e s s') : Reachable e s'

section Lists

variable {e : Env} {s s' : State} {ftids : List Nat} {N : NextAnchor → List Nat}
  {T : Owner → List Nat} {k : Nat}

theorem onList_iff {next : Nat → Nat} {h : Nat} {l : List Nat} (hc : Chain next h l) :
    OnList next h k ↔ k ∈ l := by
  constructor
  · rintro ⟨l', hc', hk⟩
    rwa [chain_unique hc hc']
  · intro hk
    exact ⟨l, hc, hk⟩

theorem isFree_iff (h : Inv e s ftids N T) : IsFree s k ↔ k ∈ N .free :=
  onList_iff (h.nexts.chain .free)

theorem onHash_iff (h : Inv e s ftids N T) {a : Nat} : OnHash s a k ↔ k ∈ N (.hash a) :=
  onList_iff (h.nexts.chain (.hash a))

theorem onFrag_iff (h : Inv e s ftids N T) {a : Nat} : OnFrag s a k ↔ k ∈ N (.frag a) :=
  onList_iff (h.nexts.chain (.frag a))

theorem onInode_iff (h : Inv e s ftids N T) {ip : Nat} : OnInode s ip k ↔ k ∈ T (.inode ip) :=
  onList_iff (h.owners.chain (.inode ip))

theorem tidInUse_iff (h : Inv e s ftids N T) {t : Nat} : TidInUse s t ↔ t ∉ ftids :=
  not_congr (onList_iff h.tids)

theorem tid_chain (h : Inv e s ftids N T) {t : Nat} (ht : t ∉ ftids) :
    Chain s.link (s.tblk t).next (T (.tid t)) := by
  have hc := h.owners.chain (.tid t)
  rwa [ownerHead, if_neg ht] at hc

theorem onTid_iff (h : Inv e s ftids N T) {t : Nat} : OnTid s t k ↔ k ∈ T (.tid t) := by
  constructor
  · rintro ⟨ht, hk⟩
    exact (onList_iff (tid_chain h ((tidInUse_iff h).mp ht))).mp hk
  · intro hk
    have ht := h.not_mem_ftids hk
    exact ⟨(tidInUse_iff h).mpr ht, (onList_iff (tid_chain h ht)).mpr hk⟩

end Lists

section Runs

variable {e : Env} {s s' : State}

theorem good_mark {ftids : List Nat} {N : NextAnchor → List Nat} {T : Owner → List Nat}
    (h : Inv e s ftids N T) {k a : Nat} (hk : k ∈ N (.hash a)) (flag : BitVec 8)
    (bits log home extmem : Word) :
    Good e (setCell s k { (s.lword k).withFlagSid flag (s.lword k).sid with
      word4 := bits, word5 := log, word6 := home, word7 := extmem }) := by
  refine ⟨ftids, N, T, h.relink ?_ ?_ ?_ (fun _ _ => rfl) rfl h.bound ?_⟩
  · rw [next_setCell, nextHead_setCell]
    exact (Function.update_eq_self k s.next).symm ▸ h.nexts
  · rw [link_setCell, ownerHead_setCell]
    exact (Function.update_eq_self k s.link).symm ▸ h.owners
  · refine h.roles.reflag hk ?_ (Cell.sid_withFlagSid (s.lword k) flag _) rfl
    intro b hb
    exact absurd (h.nexts.disjoint hb hk) (by simp)
  · intro j hj
    rw [next_setCell]
    exact fresh_update h hk hj

/-- Every operation keeps the lists well formed. -/
theorem good_step (h : Good e s) (hs : Step e s s') : Good e s' := by
  obtain ⟨ftids, N, T, h⟩ := h
  cases hs with
  | gettlock th sid vaddr length rc hs =>
    obtain ⟨s₁, rc₁, hs₁, hgood, _⟩ := gettlock_ok h th sid vaddr length
    rw [hs₁] at hs
    cases hs
    exact hgood
  | insertlw sid page k hs =>
    obtain ⟨s₁, k₁, hs₁, hgood⟩ := inv_insertlw h sid page
    rw [hs₁] at hs
    cases hs
    exact hgood
  | frlock tid ht hs =>
    obtain ⟨s₁, hs₁, hgood⟩ := inv_frlock h ((tidInUse_iff h).mp ht)
    rw [hs₁] at hs
    cases hs
    exact hgood
  | rmlock lw a hlw hs =>
    obtain ⟨s₁, hs₁, hinv, _⟩ := inv_rmlock h ((onHash_iff h).mp hlw)
    rw [hs₁] at hs
    cases hs
    exact ⟨_, _, _, hinv⟩
  | freelw sid page hs =>
    obtain ⟨s₁, hs₁, N', T', hinv⟩ := inv_freelw h sid page
    rw [hs₁] at hs
    cases hs
    exact ⟨_, _, _, hinv⟩
  | deletelws sid hs =>
    obtain ⟨s₁, hs₁, hgood⟩ := deleteChains_ok sid 128 h
    rw [v_deletelws, hs₁] at hs
    cases hs
    exact hgood
  | insertfrag bsid pagex k hseg hs =>
    obtain ⟨s₁, k₁, hs₁, hgood⟩ := inv_insertfrag h pagex hseg
    rw [hs₁] at hs
    cases hs
    exact hgood
  | freefrags ip hs =>
    obtain ⟨s₁, hs₁, hgood⟩ := inv_freefrags h ip
    rw [hs₁] at hs
    cases hs
    exact hgood
  | frtblk th h0 hempty =>
    have hput := inv_putTblk h h0 hempty
    unfold v_frtblk
    dsimp only
    split
    · exact ⟨_, _, _, inv_same hput ⟨rfl, rfl, rfl, rfl, rfl, rfl, rfl⟩⟩
    · exact ⟨_, _, _, hput⟩
  | mark k a flag bits log home extmem hk =>
    exact good_mark h ((onHash_iff h).mp hk) flag bits log home extmem
  | syncwait v => exact ⟨_, _, _, inv_same h ⟨rfl, rfl, rfl, rfl, rfl, rfl, rfl⟩⟩

/-- The lists after `vm_initlock`. -/
theorem good_init (e : Env) {lwptr : Nat} (pft : Nat → Pfte) (h : lwptr % 4096 = 0) :
    Good e (vm_initlock lwptr pft) := by
  have hsize : (vm_initlock lwptr pft).size = 128 := by
    simp only [State.size, vm_initlock]
    omega
  have hfree : Chain (vm_initlock lwptr pft).next 1 (List.range' 1 127) := by
    refine chain_range' (by omega) (by omega) ?_ (by simp [State.next, vm_initlock])
    intro j hj hj'
    simp only [State.next, vm_initlock]
    rw [if_pos (by omega)]
  have htids : Chain (tidNext (vm_initlock lwptr pft)) 1 (List.range' 1 255) := by
    refine chain_range' (by omega) (by omega) ?_ (by simp [tidNext, vm_initlock])
    intro j hj hj'
    simp only [tidNext, vm_initlock]
    rw [if_pos (by omega)]
  refine ⟨List.range' 1 255, fun a => if a = .free then List.range' 1 127 else [], fun _ => [],
    ⟨?_, ?_⟩, ⟨?_, ?_⟩, ?_, ?_, ?_, ?_, ?_, ?_, ?_, ?_⟩
  · intro a
    cases a with
    | free => exact hfree
    | hash i => rfl
    | frag i => rfl
  · intro a b k ha hb
    by_cases haf : a = .free <;> by_cases hbf : b = .free
    · rw [haf, hbf]
    · simp [hbf] at hb
    · simp [haf] at ha
    · simp [haf] at ha
  · intro o
    cases o with
    | tid t =>
      by_cases ht : t ∈ List.range' 1 255
      · simp [Chain, ownerHead, ht]
      · have hlt : ¬ (1 ≤ t ∧ t < 255) := by
          rw [List.mem_range'_1] at ht
          omega
        simp [Chain, ownerHead, ht, vm_initlock, hlt]
    | inode ip => rfl
  · intro o o' k hk
    exact absurd hk List.not_mem_nil
  · constructor
    · intro i k hk
      simp at hk
    · intro t k hk
      simp at hk
    · intro i k hk
      simp at hk
    · intro ip k hk
      simp at hk
    · intro i k k' hk
      simp at hk
  · exact htids
  · intro t ht
    rw [List.mem_range'_1] at ht
    omega
  · intro th
    simp [vm_initlock]
  · intro th th' _ hne
    exact absurd rfl hne
  · intro a k hk
    rw [hsize]
    by_cases haf : a = .free
    · rw [if_pos haf, List.mem_range'_1] at hk
      omega
    · rw [if_neg haf] at hk
      exact absurd hk List.not_mem_nil
  · intro k hk
    rw [hsize] at hk
    simp only [State.next, vm_initlock]
    rw [if_neg (by omega)]
  · simp only [vm_initlock]
    omega

theorem good_reachable (h : Reachable e s) : Good e s := by
  induction h with
  | init lwptr pft h => exact good_init e pft h
  | step _ hs ih => exact good_step ih hs

end Runs

/-- A list that ends, without a cycle. -/
def Acyclic (next : Nat → Nat) (h : Nat) : Prop := ∃ l, Chain next h l ∧ l.Nodup

theorem acyclic_of_chain {next : Nat → Nat} {h : Nat} {l : List Nat} (hc : Chain next h l) :
    Acyclic next h :=
  ⟨l, hc, hc.nodup⟩

/-- Every entry of the pool has one role at most, and there is one lockword for
a page. -/
structure Owned (s : State) : Prop where
  free_ends : Acyclic s.next s.freelock
  hash_ends : ∀ a, Acyclic s.next (s.lockhash a)
  frag_ends : ∀ a, Acyclic s.next (s.fraghtab a)
  tid_ends : ∀ t, TidInUse s t → Acyclic s.link (s.tblk t).next
  inode_ends : ∀ ip, Acyclic s.link (s.movedfrag ip)
  free : ∀ k, IsFree s k → (∀ a, ¬ OnHash s a k) ∧ (∀ t, ¬ OnTid s t k) ∧
    (∀ a, ¬ OnFrag s a k) ∧ ∀ ip, ¬ OnInode s ip k
  lock : ∀ k, ((∃ a, OnHash s a k) ∨ ∃ t, OnTid s t k) →
    (∃! a, OnHash s a k) ∧ (∃! t, OnTid s t k) ∧ (∀ a, ¬ OnFrag s a k) ∧ ∀ ip, ¬ OnInode s ip k
  frag : ∀ k, ((∃ a, OnFrag s a k) ∨ ∃ ip, OnInode s ip k) →
    (∃! a, OnFrag s a k) ∧ (∃! ip, OnInode s ip k) ∧ (∀ a, ¬ OnHash s a k) ∧ ∀ t, ¬ OnTid s t k
  one_lock : ∀ a a' k k', OnHash s a k → OnHash s a' k' → (s.lword k).sid = (s.lword k').sid →
    (s.lword k).page = (s.lword k').page → k = k'

/-- The searches and the loops of every call end. -/
structure CallsEnd (e : Env) (s : State) : Prop where
  gettlock : ∀ th sid vaddr length, v_gettlock e s th sid vaddr length ≠ none
  insertlw : ∀ sid page, v_insertlw s sid page ≠ none
  frlock : ∀ tid, TidInUse s tid → v_frlock s tid ≠ none
  rmlock : ∀ lw a, OnHash s a lw → v_rmlock s lw ≠ none
  freelw : ∀ sid page, v_freelw s sid page ≠ none
  deletelws : ∀ sid, v_deletelws s sid ≠ none
  insertfrag : ∀ bsid pagex, e.seg (e.inodeOf bsid) = bsid → v_insertfrag e s bsid pagex ≠ none
  freefrags : ∀ ip, v_freefrags e s ip ≠ none

section Claim

variable {e : Env} {s s' : State} {ftids : List Nat} {N : NextAnchor → List Nat}
  {T : Owner → List Nat}

theorem not_both (h : Inv e s ftids N T) {k a b : Nat} (ha : k ∈ N (.hash a)) :
    k ∉ N (.frag b) :=
  fun hb => by simpa using h.nexts.disjoint ha hb

theorem owned_of_inv (h : Inv e s ftids N T) : Owned s := by
  constructor
  · exact acyclic_of_chain (h.nexts.chain .free)
  · exact fun a => acyclic_of_chain (h.nexts.chain (.hash a))
  · exact fun a => acyclic_of_chain (h.nexts.chain (.frag a))
  · exact fun t ht => acyclic_of_chain (tid_chain h ((tidInUse_iff h).mp ht))
  · exact fun ip => acyclic_of_chain (h.owners.chain (.inode ip))
  · intro k hk
    simp only [onHash_iff h, onTid_iff h, onFrag_iff h, onInode_iff h]
    rw [isFree_iff h] at hk
    exact ⟨fun a => h.free_ne hk (by simp), fun t => h.free_no_owner hk,
      fun a => h.free_ne hk (by simp), fun ip => h.free_no_owner hk⟩
  · intro k hk
    simp only [onHash_iff h, onTid_iff h, onFrag_iff h, onInode_iff h] at hk ⊢
    obtain ⟨a, ha⟩ : ∃ a, k ∈ N (.hash a) := by
      cases hk with
      | inl ha => exact ha
      | inr ht => exact ⟨_, (h.roles.tid ht.choose_spec).2⟩
    refine ⟨⟨a, ha, ?_⟩, ⟨_, (h.roles.hash ha).2, ?_⟩, fun b => not_both h ha, ?_⟩
    · intro b hb
      exact NextAnchor.hash.inj (h.nexts.disjoint hb ha)
    · intro t ht
      exact (h.roles.tid ht).1.symm
    · intro ip hip
      exact not_both h ha (h.roles.inode hip).2.2
  · intro k hk
    simp only [onHash_iff h, onTid_iff h, onFrag_iff h, onInode_iff h] at hk ⊢
    obtain ⟨a, ha⟩ : ∃ a, k ∈ N (.frag a) := by
      cases hk with
      | inl ha => exact ha
      | inr hip => exact ⟨_, (h.roles.inode hip.choose_spec).2.2⟩
    refine ⟨⟨a, ha, ?_⟩, ⟨_, (h.roles.frag ha).2, ?_⟩, fun b hb => not_both h hb ha, ?_⟩
    · intro b hb
      exact NextAnchor.frag.inj (h.nexts.disjoint hb ha)
    · intro ip hip
      exact (h.roles.inode hip).1.symm
    · intro t ht
      exact not_both h (h.roles.tid ht).2 ha
  · intro a a' k k' hk hk' hsid hpage
    rw [onHash_iff h] at hk hk'
    have ha : a = a' := by
      rw [← (h.roles.hash hk).1, ← (h.roles.hash hk').1, hsid, hpage]
    exact h.roles.unique hk (ha ▸ hk') hsid hpage

theorem callsEnd_of_inv (h : Inv e s ftids N T) : CallsEnd e s := by
  constructor
  · intro th sid vaddr length
    obtain ⟨s', rc, hs', _⟩ := gettlock_ok h th sid vaddr length
    simp [hs']
  · intro sid page
    obtain ⟨s', k, hs', _⟩ := inv_insertlw h sid page
    simp [hs']
  · intro tid ht
    obtain ⟨s', hs', _⟩ := inv_frlock h ((tidInUse_iff h).mp ht)
    simp [hs']
  · intro lw a hlw
    obtain ⟨s', hs', _⟩ := inv_rmlock h ((onHash_iff h).mp hlw)
    simp [hs']
  · intro sid page
    obtain ⟨s', hs', _⟩ := inv_freelw h sid page
    simp [hs']
  · intro sid
    obtain ⟨s', hs', _⟩ := deleteChains_ok sid 128 h
    simp [v_deletelws, hs']
  · intro bsid pagex hseg
    obtain ⟨s', k, hs', _⟩ := inv_insertfrag h pagex hseg
    simp [hs']
  · intro ip
    obtain ⟨s', hs', _⟩ := inv_freefrags h ip
    simp [hs']

/-- The lockword of a page that a transaction holds is the only one. -/
theorem tid_of_held {t : Nat} {sid : Sid} {page : Page} (h : Held e s t sid page) {a k : Nat}
    (hk : OnHash s a k) (hsid : (s.lword k).sid = sid) (hpage : (s.lword k).page = page) :
    (s.lword k).tid = t := by
  obtain ⟨ftids, N, T, k', h, hk', hsid', hpage', htid⟩ := h
  have heq := (owned_of_inv h).one_lock _ _ k k' hk ((onHash_iff h).mpr hk')
    (hsid.trans hsid'.symm) (hpage.trans hpage'.symm)
  rw [heq]
  exact htid

/-- In every state that the operations reach, each entry of the pool has one
role at most, every list ends, there is one lockword for a page, and
`v_gettlock` returns 0 only when no other transaction holds the page. -/
theorem lockword_ownership (h : Reachable e s) :
    Owned s ∧ CallsEnd e s ∧
      ∀ th sid vaddr length s', v_gettlock e s th sid vaddr length = some (s', .ok) →
        (∀ a k, OnHash s a k → (s.lword k).sid = sid →
          (s.lword k).page = BitVec.ofNat 16 (vaddr / 4096) →
          (s.lword k).tid = 0 ∨ (s.lword k).tid = s'.fstid th) ∧
        ∀ a k, OnHash s' a k → (s'.lword k).sid = sid →
          (s'.lword k).page = BitVec.ofNat 16 (vaddr / 4096) → (s'.lword k).tid = s'.fstid th := by
  obtain ⟨ftids, N, T, h⟩ := good_reachable h
  refine ⟨owned_of_inv h, callsEnd_of_inv h, ?_⟩
  intro th sid vaddr length s' hs'
  obtain ⟨s₁, rc, hs₁, _, hgranted⟩ := gettlock_ok h th sid vaddr length
  rw [hs₁] at hs'
  cases hs'
  obtain ⟨hheld, hbefore⟩ := hgranted rfl
  refine ⟨?_, fun a k hk hsid hpage => tid_of_held hheld hk hsid hpage⟩
  intro a k hk hsid hpage
  rw [onHash_iff h] at hk
  refine hbefore k ?_ hsid hpage
  rwa [← hsid, ← hpage, (h.roles.hash hk).1]

/-- Every segment is that of the inode of the same number. -/
def plainEnv : Env where
  lookup := fun _ _ => 0
  logsidx := fun _ => 0
  loglast := fun _ => 8192
  logsync := fun _ => 8192
  logsize := fun _ => 131072
  inodeOf := fun sid => sid.toNat
  seg := fun ip => BitVec.ofNat 32 ip

/-- The pool before any call. -/
def freshPool : State := vm_initlock 4096 (fun _ => ⟨0, 0, true, false⟩)

/-- The pool after the first `v_gettlock`, of page 0 of segment 5. -/
def firstPool : State := ((v_gettlock plainEnv freshPool 7 5 0 128).getD (freshPool, .enomem)).1

theorem firstPool_eq : v_gettlock plainEnv freshPool 7 5 0 128 = some (firstPool, .ok) := rfl

theorem lockword_ownership_first : Owned firstPool ∧ CallsEnd plainEnv firstPool := by
  have h := lockword_ownership
    (.step (.init 4096 (fun _ => ⟨0, 0, true, false⟩) rfl) (.gettlock 7 5 0 128 .ok firstPool_eq))
  exact ⟨h.1, h.2.1⟩

end Claim

end Aix413.Lockword.Ownership
