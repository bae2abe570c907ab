import Aix413.Lockctl.LockPool
import Aix413.Lockctl.Placement

namespace Aix413.Lockctl.ScanLemmas

open LockTable Flckadj LockMap LockPool Placement
open Aix413.Lib.RangeMap

/-- A request once its range is converted. -/
structure Request (r : Eflock) : Prop where
  start_nonneg : 0 ≤ r.lStart
  start_le_end : r.lStart ≤ r.lEnd
  type : r.lType ≠ .invalid

/-- No lock of another owner conflicts with a request of type `t` on the range. -/
def Granted (l : List Filock) (o : Owner) (t : LockType) (lo hi : Int) : Prop :=
  ∀ f ∈ l, f.set.owner ≠ o → f.set.lStart ≤ hi → lo ≤ f.set.lEnd →
    f.set.lType = .rdlck ∧ t = .rdlck

/-- The invariant of the loop of `flckadj`, for the request `r` on the list `l₀`. -/
structure ScanInv (l₀ : List Filock) (r : Eflock) (s : Scan) (rest : List Filock) : Prop where
  wf : LockList (s.done ++ rest)
  owner : s.ld.owner = r.owner
  type : s.ld.lType = r.lType
  start_nonneg : 0 ≤ s.ld.lStart
  start_le_end : s.ld.lStart ≤ s.ld.lEnd
  passed : ∀ f ∈ s.done, f.set.owner = r.owner →
    f.set.lEnd < s.ld.lStart ∧ (f.set.lType = r.lType → f.set.lEnd + 1 < s.ld.lStart)
  granted : r.lType ≠ .unlck → Granted (s.done ++ rest) r.owner r.lType s.ld.lStart s.ld.lEnd
  hint : r.lType ≠ .unlck → Hint (s.done ++ rest) s.insrtp s.ld.lStart
  bytes : overwrite (lockAt (s.done ++ rest) r.owner) s.ld.lStart s.ld.lEnd (requested r.lType) =
    overwrite (lockAt l₀ r.owner) r.lStart r.lEnd (requested r.lType)
  others : ∀ o, o ≠ r.owner → runs o (s.done ++ rest) = runs o l₀

/-- What the loop hands to the insertion: no lock of the owner is left that
meets the widened request or could be joined to it. -/
structure Ready (l₀ : List Filock) (r : Eflock) (l : List Filock) (insrtp : Option Nat)
    (ld : Eflock) : Prop where
  wf : LockList l
  owner : ld.owner = r.owner
  type : ld.lType = r.lType
  start_nonneg : 0 ≤ ld.lStart
  start_le_end : ld.lStart ≤ ld.lEnd
  clear : ∀ f ∈ l, f.set.owner = r.owner →
    (f.set.lEnd < ld.lStart ∧ (f.set.lType = r.lType → f.set.lEnd + 1 < ld.lStart)) ∨
    (ld.lEnd < f.set.lStart ∧ (f.set.lType = r.lType → ld.lEnd + 1 < f.set.lStart))
  granted : r.lType ≠ .unlck → Granted l r.owner r.lType ld.lStart ld.lEnd
  hint : r.lType ≠ .unlck → Hint l insrtp ld.lStart
  bytes : overwrite (lockAt l r.owner) ld.lStart ld.lEnd (requested r.lType) =
    overwrite (lockAt l₀ r.owner) r.lStart r.lEnd (requested r.lType)
  others : ∀ o, o ≠ r.owner → runs o l = runs o l₀

/-- The list a successful request leaves. -/
structure Adjusted (l₀ : List Filock) (r : Eflock) (l : List Filock) : Prop where
  wf : LockList l
  bytes : lockAt l r.owner =
    overwrite (lockAt l₀ r.owner) r.lStart r.lEnd (requested r.lType)
  others : ∀ o, o ≠ r.owner → runs o l = runs o l₀

/-- `flp->prev` is a hint for the start of `flp`. -/
theorem hint_prev {done rest l : List Filock} {flp : Filock} (h : LockList (done ++ flp :: rest))
    (hd : ∀ f ∈ done, f ∈ l) (hl : ∀ f ∈ l, f ∈ done ∨ flp.set.lStart ≤ f.set.lStart) :
    Hint l (prev done) flp.set.lStart := by
  have hb := (lockList_middle.mp h).2.2.1
  cases hg : done.getLast? with
  | none =>
    have hnil : done = [] := List.getLast?_eq_none_iff.mp hg
    subst hnil
    simp only [prev, List.getLast?_nil, Option.map_none, Hint]
    intro f hf
    exact (hl f hf).resolve_left (by simp)
  | some g =>
    have hm : g ∈ done := List.mem_of_getLast? hg
    simp only [prev, hg, Option.map_some, Hint]
    exact ⟨g, hd g hm, rfl, (hb g hm).start_le⟩

theorem start_le_of_mem_rest {done rest : List Filock} {flp f : Filock}
    (h : LockList (done ++ flp :: rest)) (hf : f ∈ rest) : flp.set.lStart ≤ f.set.lStart :=
  ((lockList_middle.mp h).2.2.2 f hf).start_le

/-- The scan passes a lock it does not change. -/
theorem inv_keep {l₀ : List Filock} {r : Eflock} {s : Scan} {flp : Filock} {rest : List Filock}
    (h : ScanInv l₀ r s (flp :: rest)) (insrtp : Option Nat)
    (hp : flp.set.owner = r.owner →
      flp.set.lEnd < s.ld.lStart ∧ (flp.set.lType = r.lType → flp.set.lEnd + 1 < s.ld.lStart))
    (hi : r.lType ≠ .unlck → Hint (s.done ++ flp :: rest) insrtp s.ld.lStart) :
    ScanInv l₀ r { s with done := s.done ++ [flp], insrtp := insrtp } rest := by
  have he : s.done ++ [flp] ++ rest = s.done ++ flp :: rest := by simp
  refine ⟨by simpa only [he] using h.wf, h.owner, h.type, h.start_nonneg, h.start_le_end, ?_,
    by simpa only [he] using h.granted, by simpa only [he] using hi,
    by simpa only [he] using h.bytes, by simpa only [he] using h.others⟩
  intro f hf
  rcases List.mem_append.mp hf with hf | hf
  · exact h.passed f hf
  · obtain rfl := List.mem_singleton.mp hf
    exact hp

theorem lockAt_drop {A B : List Filock} {f : Filock} {o : Owner} {b : Int}
    (h : b < f.set.lStart ∨ f.set.lEnd < b) : lockAt (A ++ B) o b = lockAt (A ++ f :: B) o b := by
  simp only [lockAt_append, lockAt_cons]
  rw [if_neg (by omega)]

theorem requested_of_held {e : Eflock} (h : Valid e) : requested e.lType = some e.lType := by
  rcases h.held with ht | ht <;> simp [requested, ht]

/-- Bytes of a lock of the request's own type may be joined to the request. -/
theorem lockAt_same {A B : List Filock} {f : Filock} {r : Eflock} {b : Int}
    (h : LockList (A ++ f :: B)) (ho : f.set.owner = r.owner) (ht : f.set.lType = r.lType)
    (hb : f.set.lStart ≤ b ∧ b ≤ f.set.lEnd) :
    lockAt (A ++ f :: B) r.owner b = requested r.lType := by
  rw [← ht, requested_of_held (h.valid f (by simp)), lockAt_eq_some_iff h]
  exact ⟨f, by simp, ho, hb.1, hb.2, rfl⟩

theorem runs_drop {A B : List Filock} {f : Filock} {o o' : Owner} (hf : f.set.owner = o)
    (ho : o' ≠ o) : runs o' (A ++ B) = runs o' (A ++ f :: B) := by
  rw [runs_append, runs_append, runs_cons_other (by rw [hf]; exact ho.symm)]

/-- Joining a lock of the same type that touches the request keeps the grant. -/
theorem Granted.join {A B : List Filock} {f : Filock} {r : Eflock} {lo hi : Int}
    (h : LockList (A ++ f :: B)) (ho : f.set.owner = r.owner) (ht : f.set.lType = r.lType)
    (hg : Granted (A ++ f :: B) r.owner r.lType lo hi)
    (h₁ : f.set.lStart ≤ hi + 1) (h₂ : lo ≤ f.set.lEnd + 1) :
    Granted (A ++ B) r.owner r.lType (min lo f.set.lStart) (max hi f.set.lEnd) := by
  intro g hg' hgo hs he
  obtain ⟨_, _, hA, hB⟩ := lockList_middle.mp h
  have hgm : g ∈ A ++ f :: B := by
    rcases List.mem_append.mp hg' with m | m <;> simp [m]
  have hgv := (h.valid g hgm).start_le_end
  by_cases hov : g.set.lStart ≤ hi ∧ lo ≤ g.set.lEnd
  · exact hg g hgm hgo hov.1 hov.2
  · have hov' : g.set.lStart ≤ f.set.lEnd ∧ f.set.lStart ≤ g.set.lEnd := by omega
    rcases List.mem_append.mp hg' with m | m
    · have hb := (hA g m).agree (by rw [ho]; exact hgo) hov'.1 hov'.2
      exact ⟨hb.1, ht ▸ hb.2⟩
    · have hb := (hB g m).agree (by rw [ho]; exact hgo.symm) hov'.2 hov'.1
      exact ⟨hb.2, ht ▸ hb.1⟩

theorem Granted.shrink {l l' : List Filock} {o : Owner} {t : LockType} {lo hi lo' hi' : Int}
    (h : Granted l o t lo hi) (hl : ∀ f ∈ l', f.set.owner ≠ o → f ∈ l) (hlo : lo ≤ lo')
    (hhi : hi' ≤ hi) : Granted l' o t lo' hi' := by
  intro f hf ho hs he
  exact h f (hl f hf ho) ho (by omega) (by omega)

/-- The scan deletes a lock that ends no later than the request, and widens
the request to its start when the types agree. -/
theorem inv_delete {l₀ : List Filock} {r : Eflock} {s : Scan} {flp : Filock} {rest : List Filock}
    (h : ScanInv l₀ r s (flp :: rest)) (ho : flp.set.owner = r.owner) (m : Mem)
    (insrtp : Option Nat) {x : Int} (hend : flp.set.lEnd ≤ s.ld.lEnd)
    (hx : x = s.ld.lStart ∧ x ≤ flp.set.lStart ∨
      x = flp.set.lStart ∧ flp.set.lType = r.lType ∧ x ≤ s.ld.lStart ∧ s.ld.lStart ≤ flp.set.lEnd + 1)
    (hi : r.lType ≠ .unlck → Hint (s.done ++ rest) insrtp x) :
    ScanInv l₀ r ⟨m, s.done, insrtp, { s.ld with lStart := x }⟩ rest := by
  obtain ⟨hwf, hv, hA, hB⟩ := lockList_middle.mp h.wf
  have hle := h.start_le_end
  have hnn := h.start_nonneg
  have hvs := hv.start_nonneg
  have hve := hv.start_le_end
  refine ⟨hwf, h.owner, h.type, by simp only; omega, by simp only; omega, ?_, ?_, hi, ?_, ?_⟩
  · intro f hf hfo
    rcases hx with ⟨rfl, _⟩ | ⟨rfl, ht, _, _⟩
    · exact h.passed f hf hfo
    · have ha := (hA f hf).apart (hfo.trans ho.symm)
      exact ⟨ha.1, fun hft => ha.2 (hft.trans ht.symm)⟩
  · intro hu
    rcases hx with ⟨rfl, _⟩ | ⟨rfl, ht, h1, h2⟩
    · refine (h.granted hu).shrink (fun f hf _ => ?_) le_rfl le_rfl
      rcases List.mem_append.mp hf with hm | hm <;> simp [hm]
    · have hj := Granted.join h.wf ho ht (h.granted hu) (by omega) h2
      rwa [min_eq_right h1, max_eq_left hend] at hj
  · rw [← h.bytes]
    apply overwrite_widen
    · simp only; omega
    · exact le_rfl
    · intro b h1 h2 h3
      simp only at h1 h2
      rcases hx with ⟨rfl, _⟩ | ⟨rfl, ht, _, _⟩
      · omega
      · exact lockAt_same h.wf ho ht (by omega)
    · intro b hb
      simp only at hb
      exact lockAt_drop (by omega)
  · intro o hoo
    rw [← h.others o hoo]
    exact runs_drop ho hoo

theorem trimEnd_set (m : Mem) (flp : Filock) (e : Int) :
    (trimEnd (wokenLock m flp) e).set = { flp.set with lEnd := e } := by
  simp [trimEnd]

theorem trimEnd_addr (m : Mem) (flp : Filock) (e : Int) :
    (trimEnd (wokenLock m flp) e).addr = flp.addr := by
  simp [trimEnd]

/-- The map off the request is not changed by cutting a lock at its start. -/
theorem lockAt_trim {A B : List Filock} {f g : Filock} {e : Int} {o : Owner} {b : Int}
    (hg : g.set = { f.set with lEnd := e }) (h : b ≤ e ∧ b ≤ f.set.lEnd ∨ f.set.lEnd < b ∧ e < b) :
    lockAt (A ++ g :: B) o b = lockAt (A ++ f :: B) o b := by
  have hog : g.set.owner = f.set.owner := by rw [hg]; rfl
  simp only [lockAt_append, lockAt_cons, hog]
  rw [hg]
  have hc : (f.set.owner = o ∧ f.set.lStart ≤ b ∧ b ≤ e) ↔
      (f.set.owner = o ∧ f.set.lStart ≤ b ∧ b ≤ f.set.lEnd) := by
    constructor <;> rintro ⟨h1, h2, h3⟩ <;> exact ⟨h1, h2, by omega⟩
  simp only [hc]

/-- The scan cuts a lock of another type at the start of the request. -/
theorem inv_trim {l₀ : List Filock} {r : Eflock} {s : Scan} {flp g : Filock} {rest : List Filock}
    (h : ScanInv l₀ r s (flp :: rest)) (ho : flp.set.owner = r.owner) (m : Mem)
    (hg : g.set = { flp.set with lEnd := s.ld.lStart - 1 }) (ht : flp.set.lType ≠ r.lType)
    (h₁ : flp.set.lStart < s.ld.lStart) (h₂ : s.ld.lStart ≤ flp.set.lEnd)
    (hend : flp.set.lEnd ≤ s.ld.lEnd) :
    ScanInv l₀ r ⟨m, s.done ++ [g], some g.addr, s.ld⟩ rest := by
  have he : s.done ++ [g] ++ rest = s.done ++ g :: rest := by simp
  have hog : g.set.owner = r.owner := by rw [hg]; exact ho
  refine ⟨?_, h.owner, h.type, h.start_nonneg, h.start_le_end, ?_, ?_, ?_, ?_, ?_⟩
  · rw [he]
    exact h.wf.trim hg (by omega) (by omega)
  · intro f hf hfo
    rcases List.mem_append.mp hf with hf | hf
    · exact h.passed f hf hfo
    · obtain rfl := List.mem_singleton.mp hf
      rw [hg]
      exact ⟨by simp only; omega, fun htt => absurd htt ht⟩
  · intro hu
    rw [he]
    refine (h.granted hu).shrink (fun f hf hfo => ?_) le_rfl le_rfl
    rcases List.mem_append.mp hf with hm | hm
    · simp [hm]
    · rcases List.mem_cons.mp hm with rfl | hm
      · exact absurd hog hfo
      · simp [hm]
  · intro _
    exact ⟨g, by simp, rfl, by rw [hg]; simp only; omega⟩
  · rw [← h.bytes, he]
    apply overwrite_congr
    intro b hb
    have hb' : b < s.ld.lStart ∨ s.ld.lEnd < b := hb
    exact lockAt_trim hg (by omega)
  · intro o hoo
    rw [he, ← h.others o hoo, runs_append, runs_append, runs_cons_other (by rw [hog]; exact hoo.symm),
      runs_cons_other (by rw [ho]; exact hoo.symm)]

/-- The request lies inside a lock of its own type: nothing is to be done. -/
theorem adjusted_inside {l₀ : List Filock} {r : Eflock} {s : Scan} {flp : Filock}
    {rest : List Filock} (h : ScanInv l₀ r s (flp :: rest)) (ho : flp.set.owner = r.owner)
    (ht : flp.set.lType = r.lType) (h₁ : flp.set.lStart ≤ s.ld.lStart)
    (h₂ : s.ld.lEnd ≤ flp.set.lEnd) : Adjusted l₀ r (s.done ++ flp :: rest) := by
  refine ⟨h.wf, ?_, h.others⟩
  rw [← h.bytes]
  funext b
  by_cases hb : s.ld.lStart ≤ b ∧ b ≤ s.ld.lEnd
  · rw [overwrite_in hb]
    exact lockAt_same h.wf ho ht (by omega)
  · rw [overwrite_out (by omega)]

/-- The scan ends before a lock that starts after the request. -/
theorem ready_before {l₀ : List Filock} {r : Eflock} {s : Scan} {flp : Filock}
    {rest : List Filock} (h : ScanInv l₀ r s (flp :: rest)) (ho : flp.set.owner = r.owner)
    (h₁ : s.ld.lEnd < flp.set.lStart)
    (h₂ : flp.set.lType = r.lType → s.ld.lEnd + 1 < flp.set.lStart) :
    Ready l₀ r (s.done ++ flp :: rest) s.insrtp s.ld := by
  refine ⟨h.wf, h.owner, h.type, h.start_nonneg, h.start_le_end, ?_, h.granted, h.hint, h.bytes,
    h.others⟩
  obtain ⟨_, hv, _, hB⟩ := lockList_middle.mp h.wf
  have hve := hv.start_le_end
  intro f hf hfo
  rcases List.mem_append.mp hf with hf | hf
  · exact Or.inl (h.passed f hf hfo)
  · right
    rcases List.mem_cons.mp hf with rfl | hf
    · exact ⟨h₁, h₂⟩
    · have ha := (hB f hf).apart (ho.trans hfo.symm)
      exact ⟨by omega, fun _ => by omega⟩

/-- The scan ends at the end of the list. -/
theorem ready_nil {l₀ : List Filock} {r : Eflock} {s : Scan} (h : ScanInv l₀ r s []) :
    Ready l₀ r s.done s.insrtp s.ld := by
  have he : s.done ++ [] = s.done := List.append_nil _
  refine ⟨by simpa only [he] using h.wf, h.owner, h.type, h.start_nonneg, h.start_le_end,
    fun f hf ho => Or.inl (h.passed f hf ho), by simpa only [he] using h.granted,
    by simpa only [he] using h.hint, by simpa only [he] using h.bytes,
    by simpa only [he] using h.others⟩

/-- The scan ends by joining a lock of the same type to the end of the request. -/
theorem ready_join {l₀ : List Filock} {r : Eflock} {s : Scan} {flp : Filock}
    {rest : List Filock} (h : ScanInv l₀ r s (flp :: rest)) (ho : flp.set.owner = r.owner)
    (ht : flp.set.lType = r.lType) (h₁ : s.ld.lStart ≤ flp.set.lStart)
    (h₂ : flp.set.lStart ≤ s.ld.lEnd + 1) (h₃ : s.ld.lEnd ≤ flp.set.lEnd) (insrtp : Option Nat)
    (hi : r.lType ≠ .unlck → Hint (s.done ++ rest) insrtp s.ld.lStart) :
    Ready l₀ r (s.done ++ rest) insrtp { s.ld with lEnd := flp.set.lEnd } := by
  obtain ⟨hwf, hv, hA, hB⟩ := lockList_middle.mp h.wf
  have hle := h.start_le_end
  have hve := hv.start_le_end
  refine ⟨hwf, h.owner, h.type, h.start_nonneg, by simp only; omega, ?_, ?_, hi, ?_, ?_⟩
  · intro f hf hfo
    rcases List.mem_append.mp hf with hf | hf
    · exact Or.inl (h.passed f hf hfo)
    · have ha := (hB f hf).apart (ho.trans hfo.symm)
      exact Or.inr ⟨ha.1, fun htt => ha.2 (ht.trans htt.symm)⟩
  · intro hu
    have hj := Granted.join h.wf ho ht (h.granted hu) h₂ (by omega)
    rwa [min_eq_left h₁, max_eq_right h₃] at hj
  · rw [← h.bytes]
    apply overwrite_widen
    · exact le_rfl
    · exact h₃
    · intro b h1 h2 h3
      simp only at h1 h2
      exact lockAt_same h.wf ho ht (by omega)
    · intro b hb
      simp only at hb
      exact lockAt_drop (by omega)
  · intro o hoo
    rw [← h.others o hoo]
    exact runs_drop ho hoo

end Aix413.Lockctl.ScanLemmas
