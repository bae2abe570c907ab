import Aix413.Dmap.Grants

namespace Aix413.Dmap

open Lib.BitRuns

namespace Vmdmap

variable {s s' : Vmdmap} {fperpage n f x k : Nat} {own : Nat → Nat → Prop}

/-! ## Fragments that stay in use -/

theorem treeLoop_wmap (s : Vmdmap) (lastw m : Nat) : ∀ (p1 : Page) (k : Nat),
    (s.treeLoop lastw m p1 k).wmap = p1.wmap := by
  induction m with
  | zero => exact fun _ _ => rfl
  | succ m ih =>
    intro p1 k
    rw [treeLoop]
    split
    · exact (ih _ _).trans rfl
    · rfl

/-- A call gives a fragment back. -/
def Call.Frees (fperpage : Nat) (c : Call) (x : Nat) : Prop :=
  match c with
  | .request r => r.Frees fperpage x
  | .bitfree fragno nfrags => fragno ≤ x ∧ x < fragno + nfrags
  | _ => False

/-- A call brings a fragment into the map. -/
def Call.Adds (c : Call) (x : Nat) : Prop :=
  match c with
  | .extendag nfrags fragno => fragno ≤ x ∧ x < fragno + nfrags
  | _ => False

theorem vExtendag_wmap (s : Vmdmap) (n fragno q : Nat) : ((s.vExtendag n fragno).page q).wmap =
    if q = fragno / s.lay.dbperpage then
      clearLoop n (s.page q).wmap (fragno % s.lay.dbperpage / 32)
        (uzbit >>> (fragno % s.lay.dbperpage - 32 * (fragno % s.lay.dbperpage / 32)))
    else (s.page q).wmap := by
  unfold vExtendag
  dsimp only
  rw [mod_page]
  by_cases hq : q = fragno / s.lay.dbperpage
  · subst hq
    rw [if_pos rfl]
    by_cases hfresh : (s.page (fragno / s.lay.dbperpage)).agcnt ≤
        fragno % s.lay.dbperpage / s.lay.agsize
    · rw [if_pos hfresh, if_pos hfresh, setPage_self, treeLoop_wmap]
    · rw [if_neg hfresh, if_neg hfresh, setPage_self, treeLoop_wmap]
  · rw [if_neg hq]
    split
    · rw [setPage_of_ne hq]
    · rw [setPage_of_ne hq]

theorem call_keeps {c : Call} (hc : ∀ r, c ≠ .request r) (h : Sound s) (ha : c.Allowed s fperpage)
    (hrun : s.call fperpage c = some s') (hx : s.InUse x) (hfree : ¬c.Frees fperpage x)
    (hadd : ¬c.Adds x) : s'.InUse x := by
  obtain ⟨hin, -, -, haddr⟩ := address s.lay x
  cases c with
  | request r => exact absurd rfl (hc r)
  | bitfree fragno nfrags =>
    obtain ⟨hpos, hn, hmap, hd, hw, hpm⟩ := ha
    obtain ⟨hin', -, hmod, haddr'⟩ := address s.lay fragno
    have h32 := hn.trans (clsize_le s.lay)
    have hd' : fragno % s.lay.dbperpage % 64 + nfrags ≤ 64 := by omega
    obtain ⟨htaken, hfrees⟩ := vBitfree_frees hpos h32 hmap hd' rfl (mod_page s.lay fragno) hw (by
      rintro ⟨i, h1, h2, hi⟩
      exact Bool.false_ne_true ((hpm i h1 h2).symm.trans hi))
    obtain rfl := Option.some.inj (hfrees.symm.trans hrun)
    have hfreed := freed_account h32 hd' rfl rfl hin' htaken
    rw [InUse, account_lay, setWmap_lay]
    by_cases hq : x / s.lay.dbperpage = fragno / s.lay.dbperpage
    · have hbit := hfreed.wmap.bits (x % s.lay.dbperpage)
      rw [← hq, show pbit _ _ = true from hx, decide_eq_false, Bool.or_false] at hbit
      · rw [← hq]
        exact hbit.symm
      · rintro ⟨h1, h2⟩
        rw [hq] at haddr
        exact hfree ⟨by omega, by omega⟩
    · rw [hfreed.others _ hq]
      exact hx
  | mapd daddr =>
    obtain rfl := Option.some.inj hrun
    change pbit ((s.vMapd daddr).page (x / s.lay.dbperpage)).wmap (x % s.lay.dbperpage) = true
    unfold vMapd
    dsimp only
    rw [account_wmap]
    by_cases hq : x / s.lay.dbperpage = daddr / s.lay.dbperpage
    · have hset : pbit (s.page (daddr / s.lay.dbperpage)).wmap (x % s.lay.dbperpage) = true := hq ▸ hx
      rw [hq, setPage_self, pbit_update]
      split
      · rename_i hword
        rw [pbit, hword] at hset
        rw [BitVec.getMsbD_or, hset, Bool.true_or]
      · exact hset
    · rw [setPage_of_ne hq]
      exact hx
  | extendag nfrags fragno =>
    obtain rfl := Option.some.inj hrun
    have hlay : (s.vExtendag nfrags fragno).lay = s.lay := by
      unfold vExtendag
      dsimp only
      split <;> rfl
    obtain ⟨hin', -, -, haddr'⟩ := address s.lay fragno
    rw [InUse, hlay, vExtendag_wmap]
    split
    · rename_i hq
      rw [clearLoop_bit _ _ _ (by omega), show pbit _ _ = true from hx, decide_eq_false]
      · rfl
      · rintro ⟨h1, h2⟩
        rw [hq] at haddr
        exact hadd ⟨by omega, by omega⟩
    · exact hx
  | imappage =>
    obtain rfl := Option.some.inj hrun
    change pbit (s.imappage.page (x / s.lay.dbperpage)).wmap (x % s.lay.dbperpage) = true
    by_cases hq : x / s.lay.dbperpage = s.npages
    · have hnew : s.imappage.page s.npages = freshPage := Function.update_self _ _ _
      rw [hq, hnew]
      exact pbit_ones _
    · have hold : s.imappage.page (x / s.lay.dbperpage) = s.page (x / s.lay.dbperpage) :=
        Function.update_of_ne hq _ _
      rw [hold]
      exact hx
  | setMapsize mapsize =>
    obtain rfl := Option.some.inj hrun
    exact hx

/-! ## Owners -/

/-- Runs together with what the allocations own: the one of number `k` is the next. -/
inductive Owned (fperpage : Nat) : Vmdmap → (Nat → Nat → Prop) → Nat → Prop
  | initial {s : Vmdmap} (h : Initial s) : Owned fperpage s (fun _ _ => False) 0
  | granted {s s' : Vmdmap} {own : Nat → Nat → Prop} {k f : Nat} (r : Request)
    (h : Owned fperpage s own k) (ha : r.Allowed s fperpage)
    (hrun : s.reply fperpage r = some (s', .ok f)) :
    Owned fperpage s' (fun a x => own a x ∧ ¬r.Frees fperpage x ∨
      a = k ∧ f ≤ x ∧ x < f + r.nfrags fperpage) (k + 1)
  | refused {s s' : Vmdmap} {own : Nat → Nat → Prop} {k : Nat} {e : Errno} (r : Request)
    (h : Owned fperpage s own k) (ha : r.Allowed s fperpage)
    (hrun : s.reply fperpage r = some (s', .error e)) : Owned fperpage s' own k
  | call {s s' : Vmdmap} {own : Nat → Nat → Prop} {k : Nat} (c : Call)
    (hc : ∀ r, c ≠ .request r) (h : Owned fperpage s own k) (ha : c.Allowed s fperpage)
    (hnew : ∀ a x, own a x → ¬c.Adds x) (hrun : s.call fperpage c = some s') :
    Owned fperpage s' (fun a x => own a x ∧ ¬c.Frees fperpage x) k

theorem Owned.reaches (h : Owned fperpage s own k) : Reaches fperpage s := by
  induction h with
  | initial h => exact .initial h
  | granted r _ ha hrun ih => exact .call (.request r) ih ha (by rw [Vmdmap.call, hrun]; rfl)
  | refused r _ ha hrun ih => exact .call (.request r) ih ha (by rw [Vmdmap.call, hrun]; rfl)
  | call c _ _ ha _ hrun ih => exact .call c ih ha hrun

/-- A request that fails leaves the map as it is. -/
theorem reply_error {e : Errno} (h : Sound s) {r : Request} (ha : r.Allowed s fperpage)
    (hrun : s.reply fperpage r = some (s', .error e)) : s' = s := by
  obtain ⟨hn, ha⟩ := ha
  have h32 := hn.trans (clsize_le s.lay)
  have hgiven : ∀ {n g : Nat} {can : Prop} {r : Ret}, Given s n g can r →
      r = some (s', .error e) → s' = s := by
    intro n g can r hg hr
    rw [hr] at hg
    cases hg with
    | error e hno => rfl
  cases r with
  | alloc nfrags pref =>
    have hout : Outcome s nfrags _ (s.vAlloc nfrags pref) := vAlloc_outcome h hn ha
    change s.vAlloc nfrags pref = _ at hrun
    rw [hrun] at hout
    cases hout with
    | enospc _ => rfl
  | realloc olds newfrags =>
    have hout : Realloced s fperpage olds newfrags (s.vRealloc fperpage olds newfrags) :=
      vRealloc_cases h hn ha
    change s.vRealloc fperpage olds newfrags = _ at hrun
    rw [hrun] at hout
    cases hout with
    | error e => rfl
  | allocnxt prev nfrags =>
    exact hgiven (vAllocnxt_given (h.page_lt ha.2) ha.1 h32) hrun
  | fallocnxt cur newfrags =>
    exact hgiven (vFallocnxt_given (h.page_lt ha.2) ha.1 h32) hrun
  | allocit frag =>
    have hfrag : frag.nfrags < fperpage := ha
    by_cases hmap : s.mapsize < frag.addr + Frag.size fperpage frag
    · have herr : s.vAllocit fperpage frag = some (s, .error .einval) := if_pos hmap
      exact (Prod.mk.inj (Option.some.inj (hrun.symm.trans herr))).1
    · have hpos : 0 < Frag.size fperpage frag := Nat.sub_pos_of_lt hfrag
      exact hgiven (vAllocit_given (h.page_lt (by omega)) h32) hrun

theorem Owned.once (h : Owned fperpage s own k) :
    (∀ a x, own a x → s.InUse x) ∧ ∀ a b x, own a x → own b x → a = b := by
  induction h with
  | initial h => exact ⟨fun a x ho => ho.elim, fun a b x ho => ho.elim⟩
  | granted r h ha hrun ih =>
    obtain ⟨hused, honce⟩ := ih
    obtain ⟨ht, hkeep, -⟩ := reply_taken h.reaches.sound ha hrun
    refine ⟨fun a x ho => ?_, fun a b x ho ho' => ?_⟩
    · rcases ho with ⟨ho, hno⟩ | ⟨-, h1, h2⟩
      · exact hkeep x (hused a x ho) hno
      · exact ht.taken x h1 h2
    · rcases ho with ⟨ho, -⟩ | ⟨rfl, h1, h2⟩
      · rcases ho' with ⟨ho', -⟩ | ⟨-, h1, h2⟩
        · exact honce a b x ho ho'
        · exact absurd (hused a x ho) (ht.free x h1 h2)
      · rcases ho' with ⟨ho', -⟩ | ⟨rfl, -, -⟩
        · exact absurd (hused b x ho') (ht.free x h1 h2)
        · rfl
  | refused r h ha hrun ih =>
    obtain rfl := reply_error h.reaches.sound ha hrun
    exact ih
  | call c hc h ha hnew hrun ih =>
    obtain ⟨hused, honce⟩ := ih
    refine ⟨fun a x ho => ?_, fun a b x ho ho' => honce a b x ho.1 ho'.1⟩
    exact call_keeps hc h.reaches.sound ha hrun (hused a x ho.1) ho.2 (hnew a x ho.1)

end Vmdmap

end Aix413.Dmap
