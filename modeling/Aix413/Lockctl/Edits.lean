import Aix413.Lockctl.Flckadj
import Aix413.Lockctl.LockPool
import Mathlib.Logic.Relation

namespace Aix413.Lockctl.Edits

open LockTable Flckadj LockPool
open Relation (ReflTransGen)

/-- What the loop of `flckadj` does to the table and the list, one lock at a
time, for a request of owner `o`. -/
inductive Edit (o : Owner) : Mem × List Filock → Mem × List Filock → Prop
  | drop {m : Mem} {A B : List Filock} {flp : Filock} (ho : flp.set.owner = o) :
      Edit o (m, A ++ flp :: B) (wakeDelete m flp, A ++ B)
  | trim {m : Mem} {A B : List Filock} {flp : Filock} {e : Int} (m' : Mem)
      (hm : m'.sleeplcks = m.sleeplcks) (ho : flp.set.owner = o) :
      Edit o (m, A ++ flp :: B) (lockWakeup m flp, A ++ trimEnd (wokenLock m' flp) e :: B)
  | link {m m' : Mem} {A B : List Filock} {a : Nat} {e : Eflock} (ha : takeFree m = some (a, m'))
      (ho : e.owner = o) : Edit o (m, A ++ B) (m', A ++ freshFilock a e :: B)

abbrev Edited (o : Owner) := ReflTransGen (Edit o)

def Scanned.mem : Scanned → Mem
  | .early m _ _ _ => m
  | .insert m _ _ _ => m

def Scanned.list : Scanned → List Filock
  | .early _ l _ _ => l
  | .insert _ l _ _ => l

/-- The table and the list when the scan ends. -/
def ended (r : Scanned) : Mem × List Filock := (Scanned.mem r, Scanned.list r)

theorem edited_drop {o : Owner} {m : Mem} {A B : List Filock} {flp : Filock}
    (ho : flp.set.owner = o) {p : Mem × List Filock} (h : Edited o (wakeDelete m flp, A ++ B) p) :
    Edited o (m, A ++ flp :: B) p :=
  ReflTransGen.head (Edit.drop ho) h

theorem edited_trim {o : Owner} {m : Mem} {A B : List Filock} {flp : Filock} {e : Int}
    (ho : flp.set.owner = o) {p : Mem × List Filock}
    (h : Edited o (lockWakeup m flp, A ++ [trimEnd (wokenLock m flp) e] ++ B) p) :
    Edited o (m, A ++ flp :: B) p := by
  rw [List.append_assoc] at h
  exact ReflTransGen.head (Edit.trim m rfl ho) h

theorem edited_keep {o : Owner} {m : Mem} {A B : List Filock} {flp : Filock}
    {p : Mem × List Filock} (h : Edited o (m, A ++ [flp] ++ B) p) :
    Edited o (m, A ++ flp :: B) p := by
  rwa [List.append_assoc] at h

theorem middle_edited (s : Scan) {flp : Filock} {rest : List Filock} {keep : Bool}
    (ho : flp.set.owner = s.ld.owner) :
    Edited s.ld.owner (s.mem, s.done ++ flp :: rest) (ended (middleCase s flp rest keep)) := by
  unfold middleCase
  split
  next => exact edited_drop ho ReflTransGen.refl
  next =>
    unfold splitAfter
    cases hf : takeFree s.mem with
    | none => exact ReflTransGen.refl
    | some p =>
      obtain ⟨a, m⟩ := p
      simp only
      have he : ({ flp.set with lStart := s.ld.lEnd + 1 } : Eflock).owner = s.ld.owner := ho
      have hlink : Edit s.ld.owner (s.mem, s.done ++ flp :: rest)
          (m, s.done ++ flp :: placePiece (freshFilock a { flp.set with lStart := s.ld.lEnd + 1 })
            rest) := by
        let p : Filock → Bool := fun f => f.set.lStart < s.ld.lEnd + 1
        have hl : s.done ++ flp :: rest =
            (s.done ++ flp :: rest.takeWhile p) ++ rest.dropWhile p := by
          rw [List.append_assoc, List.cons_append, List.takeWhile_append_dropWhile]
        have hp : s.done ++ flp :: placePiece (freshFilock a { flp.set with lStart := s.ld.lEnd + 1 })
            rest = (s.done ++ flp :: rest.takeWhile p) ++
              freshFilock a { flp.set with lStart := s.ld.lEnd + 1 } :: rest.dropWhile p := by
          rw [List.append_assoc, List.cons_append]
          rfl
        rw [hl, hp]
        exact Edit.link hf he
      cases keep with
      | true =>
        exact ReflTransGen.head hlink (ReflTransGen.single (Edit.trim m rfl ho))
      | false => exact ReflTransGen.head hlink (ReflTransGen.single (Edit.drop ho))

theorem scan_edited {o : Owner} (rest : List Filock) : ∀ (m : Mem) (done : List Filock)
    (insrtp : Option Nat) (ld : Eflock), ld.owner = o →
      Edited o (m, done ++ rest) (ended (scan ⟨m, done, insrtp, ld⟩ rest)) := by
  induction rest with
  | nil =>
    intro m done insrtp ld _
    rw [List.append_nil]
    exact ReflTransGen.refl
  | cons flp rest ih =>
    intro m done insrtp ld hld
    rw [scan]
    split
    next hown =>
      have ho : flp.set.owner = o := ((sameOwner_iff _ _).mp hown).trans hld
      subst hld
      split
      next => exact ReflTransGen.refl
      next =>
        split
        · exact edited_drop ho ReflTransGen.refl
        · exact ReflTransGen.refl
      next =>
        split
        · exact ReflTransGen.refl
        · exact edited_drop ho (ih _ _ _ _ rfl)
      next => exact edited_drop ho (ih _ _ _ _ rfl)
      next =>
        split
        · exact edited_drop ho ReflTransGen.refl
        · exact edited_drop ho (ih _ _ _ _ rfl)
      next => exact edited_drop ho (ih _ _ _ _ rfl)
      next =>
        split
        · exact ReflTransGen.refl
        · exact middle_edited ⟨m, done, _, ld⟩ ho
      next =>
        split
        · exact ReflTransGen.refl
        · exact middle_edited ⟨m, done, _, ld⟩ ho
      next => exact middle_edited ⟨m, done, _, ld⟩ ho
      next =>
        split
        · exact ReflTransGen.refl
        · exact edited_trim ho (ih _ _ _ _ rfl)
      next =>
        split
        · exact edited_drop ho (ih _ _ _ _ rfl)
        · exact edited_trim ho (ih _ _ _ _ rfl)
      next =>
        split
        · exact edited_drop ho (ih _ _ _ _ rfl)
        · exact edited_keep (ih _ _ _ _ rfl)
      next => exact edited_keep (ih _ _ _ _ rfl)
      next => exact edited_keep (ih _ _ _ _ rfl)
    next => exact edited_keep (ih _ _ _ _ hld)

theorem Grown.limit {m m' : Mem} {l l' : List Filock} (h : Grown m l m' l')
    (hl : m.vLock ≤ m.nfloxMax) : m'.vLock ≤ m'.nfloxMax := by
  obtain ⟨hn, k, hk, hkl, _⟩ := h
  omega

theorem edit_grown {o : Owner} {p q : Mem × List Filock} (h : Edit o p q)
    (hl : p.1.vLock ≤ p.1.nfloxMax) : Grown p.1 p.2 q.1 q.2 := by
  cases h with
  | drop => exact (grown_lockWakeup _ _ _).trans (grown_delflck _ _ _ _)
  | trim m' hm ho =>
    refine (grown_lockWakeup _ _ _).trans (Grown.of_perm rfl rfl ?_)
    simp [pool, trimEnd]
  | link ha ho => exact grown_takeFree hl ha _ _ _ rfl

theorem edited_grown {o : Owner} {p q : Mem × List Filock} (h : Edited o p q)
    (hl : p.1.vLock ≤ p.1.nfloxMax) : Grown p.1 p.2 q.1 q.2 := by
  induction h with
  | refl => exact Grown.refl _ _
  | tail _ hstep ih => exact ih.trans (edit_grown hstep (Grown.limit ih hl))

/-- A sequence of edits keeps the table well formed. -/
theorem edited_pool {o : Owner} {p q : Mem × List Filock} (h : Edited o p q) (hp : Pool p.1 p.2) :
    Pool q.1 q.2 :=
  hp.grown (edited_grown h hp.limit)

end Aix413.Lockctl.Edits
