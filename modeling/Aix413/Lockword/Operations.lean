import Aix413.Lockword.Invariant

namespace Aix413.Lockword.Operations

open Anchor Links Invariant
open Aix413.Lib.LinkedPool

/-- Nothing that the invariant reads has changed. -/
structure SameLinks (s s' : State) : Prop where
  next : s'.next = s.next
  link : s'.link = s.link
  nextHead : nextHead s' = nextHead s
  tidNext : tidNext s' = tidNext s
  movedfrag : s'.movedfrag = s.movedfrag
  key : key s' = key s
  base : base s' = base s

section Same

variable {s s' s'' : State}

theorem SameLinks.refl (s : State) : SameLinks s s := ⟨rfl, rfl, rfl, rfl, rfl, rfl, rfl⟩

theorem SameLinks.trans (h : SameLinks s s') (h' : SameLinks s' s'') : SameLinks s s'' :=
  ⟨h'.next.trans h.next, h'.link.trans h.link, h'.nextHead.trans h.nextHead,
    h'.tidNext.trans h.tidNext, h'.movedfrag.trans h.movedfrag, h'.key.trans h.key,
    h'.base.trans h.base⟩

theorem SameLinks.ownerHead (h : SameLinks s s') (ftids : List Nat) :
    ownerHead s' ftids = ownerHead s ftids := by
  funext o
  cases o with
  | tid t => simp only [Links.ownerHead, show (s'.tblk t).next = (s.tblk t).next from
      congrFun h.tidNext t]
  | inode ip => exact congrFun h.movedfrag ip

theorem sameLinks_setCell (s : State) (k : Nat) {c : Cell} (hn : c.next = (s.lword k).next)
    (hl : c.link = (s.lword k).link) (hk : (c.word2, c.word3) = key s k) :
    SameLinks s (setCell s k c) := by
  refine ⟨?_, ?_, rfl, rfl, rfl, key_setCell s k hk, rfl⟩
  · rw [next_setCell, hn]
    exact Function.update_eq_self k s.next
  · rw [link_setCell, hl]
    exact Function.update_eq_self k s.link

theorem sameLinks_setTblk (s : State) (t : Nat) {b : Tblock} (hb : b.next = (s.tblk t).next) :
    SameLinks s (setTblk s t b) := by
  refine ⟨rfl, rfl, rfl, ?_, rfl, rfl, rfl⟩
  rw [tidNext_setTblk, hb]
  exact Function.update_eq_self t (tidNext s)

theorem sameLinks_waitFor (s : State) (th t t1 : Nat) (sid : Sid) (line : Nat) :
    SameLinks s (waitFor s th t t1 sid line) := by
  have h := sameLinks_setTblk s t
    (b := { s.tblk t with waitsid := sid, waitline := line, locker := t1 }) rfl
  refine h.trans ?_
  unfold waitFor
  exact sameLinks_setTblk _ t1 rfl

theorem sameLinks_grantlock (s : State) (k vaddr length : Nat) :
    SameLinks s (grantlock s k vaddr length) :=
  sameLinks_setCell s k rfl rfl rfl

theorem sameLinks_setPageAge (s : State) (k f : Nat) (age : Int) :
    SameLinks s (setPageAge s k f age) :=
  (sameLinks_setCell s k (c := { s.lword k with word5 := BitVec.ofInt 32 age }) rfl rfl rfl).trans
    ⟨rfl, rfl, rfl, rfl, rfl, rfl, rfl⟩

theorem sameLinks_setTidAge (e : Env) (s : State) (t lsidx : Nat) (age : Int) :
    SameLinks s (setTidAge e s t lsidx age) := by
  unfold setTidAge
  split
  · exact sameLinks_setTblk s t rfl
  · split
    · exact sameLinks_setTblk s t rfl
    · exact SameLinks.refl s

theorem sameLinks_setAges (e : Env) (s : State) (t k f : Nat) (sid : Sid) :
    SameLinks s (setAges e s t k f sid) :=
  (sameLinks_setPageAge s k f _).trans (sameLinks_setTidAge e _ t _ _)

end Same

section Ops

variable {e : Env} {s s' : State} {ftids : List Nat} {N : NextAnchor → List Nat}
  {T : Owner → List Nat} {k : Nat}

theorem inv_same (h : Inv e s ftids N T) (hs : SameLinks s s') : Inv e s' ftids N T := by
  refine h.relink ?_ ?_ (roles_key h.roles hs.key) ?_ hs.base h.bound ?_
  · rw [hs.next, hs.nextHead]
    exact h.nexts
  · rw [hs.link, hs.ownerHead]
    exact h.owners
  · intro t _
    rw [hs.tidNext]
  · intro j hj
    rw [hs.next]
    exact h.fresh hj

/-- The search finds the lockword of the page, if there is one. -/
theorem findlw_ok (h : Inv e s ftids N T) (sid : Sid) (page : Page) :
    ∃ k, v_findlw s sid page = some k ∧
      ((k = 0 ∧ ∀ j ∈ N (.hash (lockHash sid page)),
          ¬ ((s.lword j).sid = sid ∧ (s.lword j).page = page)) ∨
        (k ≠ 0 ∧ k ∈ N (.hash (lockHash sid page)) ∧ (s.lword k).sid = sid ∧
          (s.lword k).page = page)) := by
  have hc := h.nexts.chain (.hash (lockHash sid page))
  have hlen := h.length_le (.hash (lockHash sid page))
  refine ⟨_, find_eq hc (Nat.lt_succ_of_le hlen), ?_⟩
  cases hf : (N (.hash (lockHash sid page))).find? (isFor s sid page) with
  | none =>
    refine Or.inl ⟨rfl, ?_⟩
    intro j hj hsp
    have := List.find?_eq_none.mp hf j hj
    simp [isFor, hsp.1, hsp.2] at this
  | some k =>
    have hmem := List.mem_of_find?_eq_some hf
    have hp := List.find?_some hf
    simp only [isFor, decide_eq_true_eq] at hp
    exact Or.inr ⟨hc.ne_zero hmem, hmem, hp.1.symm, hp.2.symm⟩

theorem inv_freelw (h : Inv e s ftids N T) (sid : Sid) (page : Page) :
    ∃ s', v_freelw s sid page = some s' ∧ ∃ N' T', Inv e s' ftids N' T' := by
  obtain ⟨k, hk, hcase⟩ := findlw_ok h sid page
  rw [v_freelw, hk]
  cases hcase with
  | inl h0 =>
    refine ⟨s, ?_, N, T, h⟩
    simp [h0.1]
  | inr hin =>
    obtain ⟨s', hs', hinv, _⟩ := inv_rmlock h hin.2.1
    refine ⟨s', ?_, _, _, hinv⟩
    simp [hin.1, hs']

/-- A state that the invariant holds of, with other lists for the lockwords. -/
def Good (e : Env) (s : State) : Prop := ∃ ftids N T, Inv e s ftids N T

theorem erase_middle {kept rest : List Nat} (hnd : (kept ++ k :: rest).Nodup) :
    (kept ++ k :: rest).erase k = kept ++ rest := by
  have hk : k ∉ kept := fun hm => (List.nodup_append.mp hnd).2.2 k hm k List.mem_cons_self rfl
  rw [List.erase_append_right _ hk, List.erase_cons_head]

/-- The loop of `v_frlock` goes on with the rest of the list. -/
theorem frlockLoop_ok {t : Nat} {rest : List Nat} : ∀ {s : State} {N : NextAnchor → List Nat}
    {T : Owner → List Nat} (kept : List Nat) {fuel : Nat}, Inv e s ftids N T →
    T (.tid t) = kept ++ rest → rest.length < fuel →
    ∃ s' N' T', frlockLoop fuel s (rest.headD 0) = some s' ∧ Inv e s' ftids N' T' ∧
      base s' = base s := by
  induction rest with
  | nil =>
    intro s N T kept fuel h _ hf
    obtain ⟨fuel, rfl⟩ : ∃ n, fuel = n + 1 := ⟨fuel - 1, by simp at hf; omega⟩
    exact ⟨s, N, T, rfl, h, rfl⟩
  | cons k rest ih =>
    intro s N T kept fuel h hT hf
    obtain ⟨fuel, rfl⟩ : ∃ n, fuel = n + 1 := ⟨fuel - 1, by simp at hf; omega⟩
    have hlen : rest.length < fuel := by simpa using hf
    have hc := h.owners.chain (.tid t)
    have hk : k ∈ T (.tid t) := by simp [hT]
    have hk0 := hc.ne_zero hk
    rw [hT] at hc
    rw [List.headD_cons, frlockLoop, if_neg hk0, hc.next_eq]
    by_cases hflag : (s.lword k).flag &&& freelockFlag = 0
    · rw [if_pos hflag]
      exact ih (kept ++ [k]) h (by simp [hT]) hlen
    · obtain ⟨s', hs', hinv, _, hbase⟩ := inv_rmlock h (h.roles.tid hk).2
      rw [if_neg hflag, hs']
      have hT' : Function.update T (.tid (s.lword k).tid) ((T (.tid (s.lword k).tid)).erase k)
          (.tid t) = kept ++ rest := by
        rw [(h.roles.tid hk).1, Function.update_self, hT, erase_middle hc.nodup]
      obtain ⟨s'', N', T', hs'', hinv', hbase'⟩ := ih kept hinv hT' hlen
      exact ⟨s'', N', T', hs'', hinv', hbase'.trans hbase⟩

theorem inv_frlock (h : Inv e s ftids N T) {t : Nat} (ht : t ∉ ftids) :
    ∃ s', v_frlock s t = some s' ∧ Good e s' := by
  have hc := h.owners.chain (.tid t)
  have hhead := hc.head_eq
  rw [ownerHead, if_neg ht] at hhead
  obtain ⟨s', N', T', hs', hinv, _⟩ := frlockLoop_ok [] h rfl
    (Nat.lt_succ_of_le (h.owner_length_le (.tid t)))
  rw [← hhead] at hs'
  rw [v_frlock, hs']
  exact ⟨_, rfl, _, _, _, inv_same hinv (sameLinks_setTblk s' t rfl)⟩

/-- The inner loop of `v_deletelws` goes on with the rest of the chain. -/
theorem deleteLoop_ok (sid : Sid) {a : Nat} {rest : List Nat} :
    ∀ {s : State} {N : NextAnchor → List Nat} {T : Owner → List Nat} (kept : List Nat)
      {fuel : Nat}, Inv e s ftids N T → N (.hash a) = kept ++ rest → rest.length < fuel →
    ∃ s' N' T', deleteLoop sid fuel s (rest.headD 0) = some s' ∧ Inv e s' ftids N' T' := by
  induction rest with
  | nil =>
    intro s N T kept fuel h _ hf
    obtain ⟨fuel, rfl⟩ : ∃ n, fuel = n + 1 := ⟨fuel - 1, by simp at hf; omega⟩
    exact ⟨s, N, T, rfl, h⟩
  | cons k rest ih =>
    intro s N T kept fuel h hN hf
    obtain ⟨fuel, rfl⟩ : ∃ n, fuel = n + 1 := ⟨fuel - 1, by simp at hf; omega⟩
    have hlen : rest.length < fuel := by simpa using hf
    have hc := h.nexts.chain (.hash a)
    have hk : k ∈ N (.hash a) := by simp [hN]
    have hk0 := hc.ne_zero hk
    rw [hN] at hc
    rw [List.headD_cons, deleteLoop, if_neg hk0, hc.next_eq]
    by_cases hsid : baseSid (s.lword k).sid ≠ baseSid sid
    · rw [if_pos hsid]
      exact ih (kept ++ [k]) h (by simp [hN]) hlen
    · obtain ⟨s', hs', hinv, _, _⟩ := inv_rmlock h hk
      rw [if_neg hsid, hs']
      refine ih kept hinv ?_ hlen
      rw [freed, Function.update_of_ne (by simp), Function.update_self, hN,
        erase_middle hc.nodup]

theorem deleteChains_ok (sid : Sid) (n : Nat) : ∀ {s : State} {N : NextAnchor → List Nat}
    {T : Owner → List Nat}, Inv e s ftids N T →
    ∃ s', deleteChains sid n s = some s' ∧ Good e s' := by
  induction n with
  | zero =>
    intro s N T h
    exact ⟨s, rfl, _, _, _, h⟩
  | succ n ih =>
    intro s N T h
    have hhead := (h.nexts.chain (.hash (128 - (n + 1)))).head_eq
    obtain ⟨s', N', T', hs', hinv⟩ := deleteLoop_ok sid [] h rfl
      (Nat.lt_succ_of_le (h.length_le (.hash (128 - (n + 1)))))
    rw [← hhead] at hs'
    simp only [nextHead] at hs'
    rw [deleteChains, hs']
    exact ih hinv

/-- The loop of `v_freefrags` frees the rest of the list of the inode. -/
theorem freefragsLoop_ok {ip : Nat} {rest : List Nat} : ∀ {s : State} {N : NextAnchor → List Nat}
    {T : Owner → List Nat} {fuel : Nat}, Inv e s ftids N T → T (.inode ip) = rest →
    rest.length < fuel →
    ∃ s', freefragsLoop ip (e.seg ip) fuel s (rest.headD 0) = some s' ∧ Good e s' := by
  induction rest with
  | nil =>
    intro s N T fuel h _ hf
    obtain ⟨fuel, rfl⟩ : ∃ n, fuel = n + 1 := ⟨fuel - 1, by simp at hf; omega⟩
    exact ⟨s, rfl, _, _, _, h⟩
  | cons q rest ih =>
    intro s N T fuel h hT hf
    obtain ⟨fuel, rfl⟩ : ∃ n, fuel = n + 1 := ⟨fuel - 1, by simp at hf; omega⟩
    have hlen : rest.length < fuel := by simpa using hf
    have hc := h.owners.chain (.inode ip)
    have hq : q ∈ T (.inode ip) := by simp [hT]
    have hq0 := hc.ne_zero hq
    obtain ⟨_, hseg, hqf⟩ := h.roles.inode hq
    obtain ⟨q1, hq1, hnext, hN⟩ := linked_freed h.nexts (by simp) hqf
      (Nat.le_succ_of_le (h.length_le (.frag (fragHash (s.lword q).fragSid (s.lword q).fragPno))))
    have hTpop := h.owners.pop hT
    rw [hT] at hc
    have hlink := Chain.head_eq hc.2.2
    have hmem : ∀ {o j}, j ∈ Function.update T (.inode ip) rest o ↔ j ∈ T o ∧ j ≠ q := by
      intro o j
      have he := h.owners.mem_erase hq (b := o) (j := j)
      rwa [hT, List.erase_cons_head] at he
    have hinv : Inv e (freeFrag s ip (fragHash (s.lword q).fragSid (s.lword q).fragPno) q q1) ftids
        (freed N (.frag (fragHash (s.lword q).fragSid (s.lword q).fragPno)) q)
        (Function.update T (.inode ip) rest) := by
      refine h.relink ?_ ?_ ?_ (by simp [freeFrag]) (by simp [freeFrag])
        (fun hm => bound_freed h hqf hm) ?_
      · simpa [freeFrag, nextHead] using hN
      · simpa [freeFrag] using hTpop
      · refine roles_key (s := s) ?_ (by simp [freeFrag])
        exact h.roles.remove (mem_freed h.nexts hqf (by simp)) (mem_freed h.nexts hqf (by simp))
          hmem
      · intro j hj
        simpa [freeFrag, nextHead] using (hnext j (h.not_mem_of_size_le hj)).trans (h.fresh hj)
    simp only [nextHead, ← hseg] at hq1
    rw [← hseg] at hinv
    simp only [List.headD_cons, freefragsLoop, if_neg hq0, hq1]
    rw [hlink]
    exact ih hinv (Function.update_self _ _ _) hlen

theorem inv_freefrags (h : Inv e s ftids N T) (ip : Nat) :
    ∃ s', v_freefrags e s ip = some s' ∧ Good e s' := by
  have hhead := (h.owners.chain (.inode ip)).head_eq
  have hloop := freefragsLoop_ok h rfl (Nat.lt_succ_of_le (h.owner_length_le (.inode ip)))
  rw [← hhead] at hloop
  exact hloop

end Ops

end Aix413.Lockword.Operations
