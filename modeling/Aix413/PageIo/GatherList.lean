import Aix413.PageIo.Gather

namespace Aix413.PageIo

open Lib.TailRing Lib.LinkedPool

variable {β : Type} {c : Conf} {s : State β} {l rest : List Nat} {x last nfr : Nat}

/-! ## The list of a device -/

/-- The frames `l` are on the circular list of the device. -/
structure Pending (s : State β) (l : List Nat) : Prop where
  ring : IsRing (fun k => some (s.nextio k)) l
  tail : s.iotail = l.getLast?

theorem some_update (f : Nat → Nat) (p v : Nat) :
    (fun k => some (Function.update f p v k)) =
      Function.update (fun k => some (f k)) p (some v) := by
  funext k
  by_cases h : k = p
  · subst h
    rw [Function.update_self, Function.update_self]
  · rw [Function.update_of_ne h, Function.update_of_ne h]

theorem Pending.congr {s' : State β} (h : Pending s l) (hn : ∀ k ∈ l, s'.nextio k = s.nextio k)
    (ht : s'.iotail = s.iotail) : Pending s' l :=
  ⟨h.ring.congr fun k hk => congrArg some (hn k hk), ht.trans h.tail⟩

/-- The last frame goes to the first. -/
theorem Pending.first (h : Pending s (x :: rest)) (ht : s.iotail = some last) :
    s.nextio last = x ∧ last ∈ x :: rest := by
  have hlast : (x :: rest).getLast (by simp) = last := by
    rw [h.tail, List.getLast?_eq_some_getLast (by simp)] at ht
    exact Option.some.inj ht
  refine ⟨?_, hlast ▸ List.getLast_mem _⟩
  have hn := h.ring.next_last
  rw [hlast] at hn
  exact Option.some.inj hn

theorem Pending.exists_last (h : Pending s (x :: rest)) : ∃ last, s.iotail = some last :=
  ⟨_, h.tail.trans (List.getLast?_eq_some_getLast (by simp))⟩

theorem Pending.cons_of_some (h : Pending s l) (ht : s.iotail = some last) :
    ∃ x rest, l = x :: rest := by
  cases l with
  | nil =>
    rw [h.tail] at ht
    cases ht
  | cons x rest => exact ⟨x, rest, rfl⟩

/-- What is behind the first frame stays on the list in its order. -/
theorem Pending.remove (h : Pending s (x :: rest)) (ht : s.iotail = some last) :
    Pending (s.remove last) rest ∧
      (∀ k, k ∉ x :: rest → (s.remove last).nextio k = s.nextio k) ∧
      (s.remove last).mem = s.mem := by
  obtain ⟨hx, hmem⟩ := h.first ht
  unfold State.remove
  rw [hx]
  dsimp only
  split_ifs with he
  · have hself : some (s.nextio x) = some x := by
      rw [he, hx, he]
    have hone := h.ring.alone List.mem_cons_self hself
    obtain rfl := (List.cons.inj hone).2
    exact ⟨⟨trivial, rfl⟩, fun _ _ => rfl, rfl⟩
  · refine ⟨⟨?_, ?_⟩, fun k hk => ?_, rfl⟩
    · have hr := h.ring.erase hmem List.mem_cons_self (congrArg some hx)
      rw [List.erase_cons_head] at hr
      change IsRing (fun k => some (Function.update s.nextio last (s.nextio x) k)) rest
      rw [some_update]
      exact hr
    · change s.iotail = _
      cases rest with
      | nil =>
        rw [h.tail] at ht
        exact absurd (Option.some.inj ht) he
      | cons y rest => rw [h.tail, List.getLast?_cons_cons]
    · apply Function.update_of_ne
      rintro rfl
      exact hk hmem

/-- The first frame is taken off the list. -/
theorem takeFirst_spec (h : Pending s (x :: rest)) :
    ∃ s', takeFirst s = some (x, s') ∧ Pending s' rest ∧ s'.nextio x = 0 ∧ s'.mem = s.mem := by
  obtain ⟨last, ht⟩ := h.exists_last
  obtain ⟨hx, -⟩ := h.first ht
  obtain ⟨hp, -, hm⟩ := h.remove ht
  have hnd := h.ring.nodup
  refine ⟨{ s.remove last with nextio := Function.update (s.remove last).nextio x 0 }, ?_, ?_,
    Function.update_self _ _ _, hm⟩
  · rw [takeFirst, ht, ← hx]
    rfl
  · refine hp.congr (fun k hk => Function.update_of_ne ?_ _ _) rfl
    rintro rfl
    exact (List.nodup_cons.mp hnd).1 hk

/-! ## The gather list -/

/-- Page and fragments of `g` come right behind those of `f`. -/
def Next (c : Conf) (f g : Nat) : Prop :=
  (c.pft g).spage = (c.pft f).spage + 1 ∧ (c.pft g).fraddr = (c.pft f).fraddr + c.frags f

/-- The frames go to or come from the same segment, on the same track group. -/
def Alike (c : Conf) (f g : Nat) : Prop :=
  (c.pft g).pagein = (c.pft f).pagein ∧ (c.pft g).ssid = (c.pft f).ssid ∧ c.ltgno g = c.ltgno f

/-- The frames `l` are on the gather list that began with frame `nfr`. -/
structure Gathered (c : Conf) (nfr : Nat) (g : Gathering β) (l : List Nat) : Prop where
  chain : Chain g.nextio g.head l
  head : g.head ∈ l
  tail : l.getLast? = some g.tail
  next : l.IsChain (Next c)
  alike : ∀ k ∈ l, Alike c nfr k
  bBcount : g.bBcount = (l.map c.nbytes).sum
  nio : g.nio = l.length

theorem Gathered.congr {g g' : Gathering β} (h : Gathered c nfr g l)
    (hn : ∀ k ∈ l, g'.nextio k = g.nextio k) (hh : g'.head = g.head) (ht : g'.tail = g.tail)
    (hb : g'.bBcount = g.bBcount) (hi : g'.nio = g.nio) : Gathered c nfr g' l where
  chain := hh ▸ h.chain.congr hn
  head := hh ▸ h.head
  tail := ht ▸ h.tail
  next := h.next
  alike := h.alike
  bBcount := hb ▸ h.bBcount
  nio := hi ▸ h.nio

/-- A frame that fits is added at one of the ends. -/
theorem Gathered.add {g : Gathering β} (h : Gathered c nfr g l) (hx0 : x ≠ 0) (hx : x ∉ l)
    (hfit : fits c g (c.pft nfr).ssid (c.ltgno nfr) x) :
    ∃ l', List.Perm l' (l ++ [x]) ∧ Gathered c nfr (g.add c x) l' ∧
      ∀ k, k ∉ l → k ≠ x → (g.add c x).nextio k = g.nextio k := by
  obtain ⟨hin, hsid, hltg, hplace⟩ := hfit
  have hal : Alike c nfr x := ⟨hin.trans (h.alike _ h.head).1, hsid, hltg⟩
  have hhead : g.head = l.headD 0 := h.chain.head_eq
  have htail : g.tail ∈ l := List.mem_of_getLast? h.tail
  unfold Gathering.add
  dsimp only
  split_ifs at hplace ⊢ with hnew
  · refine ⟨x :: l, (List.perm_append_singleton x l).symm, ?_, fun k _ hk =>
      Function.update_of_ne hk _ _⟩
    have hne : g.head ≠ x := fun he => hx (he ▸ h.head)
    constructor
    case chain =>
      refine ⟨rfl, hx0, ?_⟩
      change Chain (Function.update g.nextio x g.head) (Function.update g.nextio x g.head x) l
      rw [Function.update_self]
      exact h.chain.update hx _
    case head => exact List.mem_cons_self
    case tail =>
      cases l with
      | nil => exact absurd h.head List.not_mem_nil
      | cons y l => exact h.tail
    case next =>
      cases l with
      | nil => exact absurd h.head List.not_mem_nil
      | cons y l =>
        obtain rfl : g.head = y := hhead
        exact List.isChain_cons_cons.mpr ⟨⟨hnew.symm, hplace.symm⟩, h.next⟩
    case alike =>
      intro k hk
      rcases List.mem_cons.mp hk with rfl | hk
      · exact hal
      · exact h.alike k hk
    case bBcount =>
      rw [List.map_cons, List.sum_cons, ← h.bBcount]
      exact Nat.add_comm _ _
    case nio =>
      rw [List.length_cons, ← h.nio]
  · obtain ⟨hpage, haddr⟩ := hplace
    have hne : g.tail ≠ x := fun he => hx (he ▸ htail)
    obtain ⟨init, hl⟩ := List.getLast?_eq_some_iff.mp h.tail
    refine ⟨l ++ [x], List.Perm.refl _, ?_, fun k hk hkx => ?_⟩
    · constructor
      case chain =>
        have hz : Chain (Function.update g.nextio x 0) g.head (init ++ [g.tail]) :=
          hl ▸ h.chain.update hx _
        have hsnoc := hz.snoc hx0 (hl ▸ hx) (Function.update_self _ _ _)
        have happ : l ++ [x] = init ++ [g.tail, x] := by
          rw [hl, List.append_assoc]
          rfl
        rw [happ]
        change Chain (Function.update (Function.update g.nextio g.tail x) x 0) g.head _
        rw [Function.update_comm hne]
        exact hsnoc
      case head => exact List.mem_append_left _ h.head
      case tail => exact List.getLast?_concat
      case next =>
        rw [hl, List.append_assoc]
        rw [hl] at h
        refine List.isChain_append_cons_cons.mpr ⟨h.next, ⟨hpage, haddr⟩, List.isChain_singleton _⟩
      case alike =>
        intro k hk
        rcases List.mem_append.mp hk with hk | hk
        · exact h.alike k hk
        · rw [List.mem_singleton.mp hk]
          exact hal
      case bBcount => simp [← h.bBcount]
      case nio => simp [← h.nio]
    · have hkt : k ≠ g.tail := fun he => hk (he ▸ htail)
      change Function.update (Function.update g.nextio g.tail x) x 0 k = _
      rw [Function.update_of_ne hkx, Function.update_of_ne hkt]

theorem add_rest (c : Conf) (x : Nat) (g : Gathering β) :
    (g.add c x).iotail = g.iotail ∧ (g.add c x).mem = g.mem := by
  unfold Gathering.add
  dsimp only
  split_ifs
  · exact ⟨rfl, rfl⟩
  · exact ⟨rfl, rfl⟩

/-- One frame goes from the device's list to the gather list. -/
theorem Gathered.take {g : Gathering β} (h : Gathered c nfr g l)
    (hp : Pending g.toState (x :: rest)) (hdisj : ∀ k ∈ l, k ∉ x :: rest) (hx0 : x ≠ 0)
    (ht : g.iotail = some last) (hfit : fits c g (c.pft nfr).ssid (c.ltgno nfr) x) :
    ∃ l', List.Perm l' (l ++ [x]) ∧
      Gathered c nfr
        (({ g with toState := g.toState.remove last } : Gathering β).add c x) l' ∧
      Pending (({ g with toState := g.toState.remove last } : Gathering β).add c x).toState rest ∧
      (({ g with toState := g.toState.remove last } : Gathering β).add c x).mem = g.mem := by
  obtain ⟨hpr, hframe, hmem⟩ := hp.remove ht
  have hnd := List.nodup_cons.mp hp.ring.nodup
  have hx : x ∉ l := fun hm => hdisj x hm List.mem_cons_self
  have h₁ : Gathered c nfr ({ g with toState := g.toState.remove last } : Gathering β) l :=
    h.congr (fun k hk => hframe k (hdisj k hk)) rfl rfl rfl rfl
  obtain ⟨l', hperm, hg, hsame⟩ := h₁.add hx0 hx hfit
  obtain ⟨hio, hm⟩ := add_rest c x ({ g with toState := g.toState.remove last } : Gathering β)
  refine ⟨l', hperm, hg, hpr.congr (fun k hk => hsame k ?_ ?_) hio, hm.trans hmem⟩
  · exact fun hm => hdisj k hm (List.mem_cons_of_mem x hk)
  · rintro rfl
    exact hnd.1 hk

/-- The frames taken from the front of the device's list are on the gather list. -/
theorem gatherLoop_spec {g : Gathering β} (h : Gathered c nfr g l) (hp : Pending g.toState rest)
    (hdisj : ∀ k ∈ l, k ∉ rest) (hne : ∀ k ∈ rest, k ≠ 0) {fuel : Nat} (hf : rest.length < fuel) :
    ∃ g' l' taken rest', gatherLoop c (c.pft nfr).ssid (c.ltgno nfr) fuel g = some g' ∧
      rest = taken ++ rest' ∧ List.Perm l' (l ++ taken) ∧ Gathered c nfr g' l' ∧
      Pending g'.toState rest' ∧ g'.mem = g.mem := by
  induction fuel generalizing g l rest with
  | zero => exact absurd hf (Nat.not_lt_zero _)
  | succ fuel ih =>
    unfold gatherLoop
    cases ht : g.iotail with
    | none =>
      exact ⟨g, l, [], rest, rfl, rfl, by rw [List.append_nil], h, hp, rfl⟩
    | some last =>
      obtain ⟨x, rest, rfl⟩ := hp.cons_of_some ht
      obtain ⟨hx, -⟩ := hp.first ht
      dsimp only
      rw [hx]
      split_ifs with hfit hstop
      · obtain ⟨l', hperm, hg, hpr, hmem⟩ := h.take hp hdisj (hne x List.mem_cons_self) ht hfit
        exact ⟨_, l', [x], rest, rfl, rfl, hperm, hg, hpr, hmem⟩
      · obtain ⟨l', hperm, hg, hpr, hmem⟩ := h.take hp hdisj (hne x List.mem_cons_self) ht hfit
        have hdisj' : ∀ k ∈ l', k ∉ rest := by
          intro k hk hkr
          rcases List.mem_append.mp (hperm.mem_iff.mp hk) with hk | hk
          · exact hdisj k hk (List.mem_cons_of_mem x hkr)
          · rw [List.mem_singleton.mp hk] at hkr
            exact (List.nodup_cons.mp hp.ring.nodup).1 hkr
        obtain ⟨g', l'', taken, rest', hrun, hrest, hperm', hg', hp', hmem'⟩ := ih hg hpr hdisj'
          (fun k hk => hne k (List.mem_cons_of_mem x hk)) (by simpa using hf)
        refine ⟨g', l'', x :: taken, rest', hrun, by rw [hrest]; rfl, ?_, hg', hp',
          hmem'.trans hmem⟩
        have happ : l ++ x :: taken = l ++ [x] ++ taken := by simp
        rw [happ]
        exact hperm'.trans (hperm.append_right taken)
      · exact ⟨g, l, [], x :: rest, rfl, rfl, by rw [List.append_nil], h, hp, rfl⟩

end Aix413.PageIo
