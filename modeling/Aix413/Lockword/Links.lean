import Aix413.Lockword.Anchor

namespace Aix413.Lockword.Links

open Anchor
open Aix413.Lib.LinkedPool

/-- The anchors of the lists that run through `next`. -/
inductive NextAnchor
  | free
  | hash (h : Nat)
  | frag (h : Nat)
  deriving DecidableEq

/-- The anchors of the lists that run through `tidnxt` and `nextsid`. -/
inductive Owner
  | tid (t : Nat)
  | inode (ip : Nat)
  deriving DecidableEq

def nextHead (s : State) : NextAnchor → Nat
  | .free => s.freelock
  | .hash h => s.lockhash h
  | .frag h => s.fraghtab h

/-- A `tblk` on the free list, one of `ftids`, anchors no lockwords. -/
def ownerHead (s : State) (ftids : List Nat) : Owner → Nat
  | .tid t => if t ∈ ftids then 0 else (s.tblk t).next
  | .inode ip => s.movedfrag ip

/-- The links from one `tblk` to the next on the list of free ones. -/
def tidNext (s : State) : Nat → Nat := fun t => (s.tblk t).next

section Effects

variable (s : State) (ftids : List Nat) (k v h t : Nat) (c : Cell) (b : Tblock)

@[simp] theorem next_setCell : (setCell s k c).next = Function.update s.next k c.next := by
  funext j
  by_cases hj : j = k
  · subst hj
    simp [State.next, setCell]
  · simp [State.next, setCell, hj]

@[simp] theorem link_setCell : (setCell s k c).link = Function.update s.link k c.link := by
  funext j
  by_cases hj : j = k
  · subst hj
    simp [State.link, setCell]
  · simp [State.link, setCell, hj]

@[simp] theorem nextHead_setCell : nextHead (setCell s k c) = nextHead s := rfl
@[simp] theorem ownerHead_setCell : ownerHead (setCell s k c) ftids = ownerHead s ftids := rfl
@[simp] theorem tidNext_setCell : tidNext (setCell s k c) = tidNext s := rfl
@[simp] theorem lword_setCell : (setCell s k c).lword = Function.update s.lword k c := rfl

@[simp] theorem next_setNext : (setNext s k v).next = Function.update s.next k v :=
  next_setCell s k _

@[simp] theorem link_setNext : (setNext s k v).link = s.link :=
  (link_setCell s k _).trans (Function.update_eq_self k s.link)

@[simp] theorem nextHead_setNext : nextHead (setNext s k v) = nextHead s := rfl
@[simp] theorem ownerHead_setNext : ownerHead (setNext s k v) ftids = ownerHead s ftids := rfl
@[simp] theorem tidNext_setNext : tidNext (setNext s k v) = tidNext s := rfl

@[simp] theorem next_setLink : (setLink s k v).next = s.next :=
  (next_setCell s k _).trans (Function.update_eq_self k s.next)

@[simp] theorem link_setLink : (setLink s k v).link = Function.update s.link k v :=
  link_setCell s k _

@[simp] theorem nextHead_setLink : nextHead (setLink s k v) = nextHead s := rfl
@[simp] theorem ownerHead_setLink : ownerHead (setLink s k v) ftids = ownerHead s ftids := rfl
@[simp] theorem tidNext_setLink : tidNext (setLink s k v) = tidNext s := rfl

@[simp] theorem next_setTblk : (setTblk s t b).next = s.next := rfl
@[simp] theorem link_setTblk : (setTblk s t b).link = s.link := rfl
@[simp] theorem nextHead_setTblk : nextHead (setTblk s t b) = nextHead s := rfl
@[simp] theorem lword_setTblk : (setTblk s t b).lword = s.lword := rfl

@[simp] theorem tidNext_setTblk :
    tidNext (setTblk s t b) = Function.update (tidNext s) t b.next := by
  funext j
  by_cases hj : j = t
  · subst hj
    simp [tidNext, setTblk]
  · simp [tidNext, setTblk, hj]

theorem ownerHead_setTblk (ht : t ∉ ftids) :
    ownerHead (setTblk s t b) ftids = Function.update (ownerHead s ftids) (.tid t) b.next := by
  funext o
  cases o with
  | inode ip => rfl
  | tid j =>
    by_cases hj : j = t
    · subst hj
      simp [ownerHead, setTblk, ht]
    · simp [ownerHead, setTblk, hj]

@[simp] theorem next_setLockhash : (setLockhash s v h).next = s.next := rfl
@[simp] theorem link_setLockhash : (setLockhash s v h).link = s.link := rfl
@[simp] theorem lword_setLockhash : (setLockhash s v h).lword = s.lword := rfl
@[simp] theorem tidNext_setLockhash : tidNext (setLockhash s v h) = tidNext s := rfl

@[simp] theorem ownerHead_setLockhash :
    ownerHead (setLockhash s v h) ftids = ownerHead s ftids := rfl

@[simp] theorem nextHead_setLockhash :
    nextHead (setLockhash s v h) = Function.update (nextHead s) (.hash h) v := by
  funext a
  cases a with
  | free => rfl
  | frag j => rfl
  | hash j =>
    by_cases hj : j = h
    · subst hj
      simp [nextHead, setLockhash]
    · simp [nextHead, setLockhash, hj]

@[simp] theorem next_setFraghtab : (setFraghtab s v h).next = s.next := rfl
@[simp] theorem link_setFraghtab : (setFraghtab s v h).link = s.link := rfl
@[simp] theorem lword_setFraghtab : (setFraghtab s v h).lword = s.lword := rfl
@[simp] theorem tidNext_setFraghtab : tidNext (setFraghtab s v h) = tidNext s := rfl

@[simp] theorem ownerHead_setFraghtab :
    ownerHead (setFraghtab s v h) ftids = ownerHead s ftids := rfl

@[simp] theorem nextHead_setFraghtab :
    nextHead (setFraghtab s v h) = Function.update (nextHead s) (.frag h) v := by
  funext a
  cases a with
  | free => rfl
  | hash j => rfl
  | frag j =>
    by_cases hj : j = h
    · subst hj
      simp [nextHead, setFraghtab]
    · simp [nextHead, setFraghtab, hj]

@[simp] theorem next_setFreelock : (setFreelock s v).next = s.next := rfl
@[simp] theorem link_setFreelock : (setFreelock s v).link = s.link := rfl
@[simp] theorem lword_setFreelock : (setFreelock s v).lword = s.lword := rfl
@[simp] theorem tidNext_setFreelock : tidNext (setFreelock s v) = tidNext s := rfl

@[simp] theorem ownerHead_setFreelock :
    ownerHead (setFreelock s v) ftids = ownerHead s ftids := rfl

@[simp] theorem nextHead_setFreelock :
    nextHead (setFreelock s v) = Function.update (nextHead s) .free v := by
  funext a
  cases a with
  | free => rfl
  | hash j => rfl
  | frag j => rfl

@[simp] theorem next_setMovedfrag : (setMovedfrag s v h).next = s.next := rfl
@[simp] theorem link_setMovedfrag : (setMovedfrag s v h).link = s.link := rfl
@[simp] theorem lword_setMovedfrag : (setMovedfrag s v h).lword = s.lword := rfl
@[simp] theorem tidNext_setMovedfrag : tidNext (setMovedfrag s v h) = tidNext s := rfl
@[simp] theorem nextHead_setMovedfrag : nextHead (setMovedfrag s v h) = nextHead s := rfl

@[simp] theorem ownerHead_setMovedfrag :
    ownerHead (setMovedfrag s v h) ftids =
      Function.update (ownerHead s ftids) (.inode h) v := by
  funext o
  cases o with
  | tid j => rfl
  | inode j =>
    by_cases hj : j = h
    · subst hj
      simp [ownerHead, setMovedfrag]
    · simp [ownerHead, setMovedfrag, hj]

end Effects

/-- What the operations on the links of lockwords leave alone. -/
def base (s : State) : Nat × (Nat → Nat) × Nat × Nat :=
  (s.freetid, s.fstid, s.lwptr, s.morelocks)

/-- The words of a cell that say whose it is. -/
def key (s : State) (k : Nat) : Word × Word := ((s.lword k).word2, (s.lword k).word3)

theorem key_setCell (s : State) (k : Nat) {c : Cell} (h : (c.word2, c.word3) = key s k) :
    key (setCell s k c) = key s := by
  funext j
  by_cases hj : j = k
  · subst hj
    simp only [key, setCell, Function.update_self]
    exact h
  · simp [key, setCell, hj]

@[simp] theorem key_setNext (s : State) (k v : Nat) : key (setNext s k v) = key s :=
  key_setCell s k rfl

@[simp] theorem key_setMovedfrag (s : State) (v ip : Nat) : key (setMovedfrag s v ip) = key s := rfl

@[simp] theorem base_setMovedfrag (s : State) (v ip : Nat) :
    base (setMovedfrag s v ip) = base s := rfl

@[simp] theorem key_setLink (s : State) (k v : Nat) : key (setLink s k v) = key s :=
  key_setCell s k rfl

section Push

variable (s : State) (ftids : List Nat) (k h t : Nat)

@[simp] theorem next_pushHash :
    (pushHash s h k).next = Function.update s.next k (s.lockhash h) :=
  next_setNext s k _

@[simp] theorem link_pushHash : (pushHash s h k).link = s.link := link_setNext s k _

@[simp] theorem nextHead_pushHash :
    nextHead (pushHash s h k) = Function.update (nextHead s) (.hash h) k :=
  nextHead_setLockhash (setNext s k (s.lockhash h)) k h

@[simp] theorem ownerHead_pushHash : ownerHead (pushHash s h k) ftids = ownerHead s ftids := rfl
@[simp] theorem tidNext_pushHash : tidNext (pushHash s h k) = tidNext s := rfl
@[simp] theorem base_pushHash : base (pushHash s h k) = base s := rfl

@[simp] theorem lword_pushHash : (pushHash s h k).lword =
    Function.update s.lword k { s.lword k with next := s.lockhash h } := rfl

@[simp] theorem next_pushTid : (pushTid s t k).next = s.next := next_setLink s k _

@[simp] theorem link_pushTid :
    (pushTid s t k).link = Function.update s.link k (s.tblk t).next :=
  link_setLink s k _

@[simp] theorem nextHead_pushTid : nextHead (pushTid s t k) = nextHead s := rfl

theorem ownerHead_pushTid (ht : t ∉ ftids) :
    ownerHead (pushTid s t k) ftids = Function.update (ownerHead s ftids) (.tid t) k :=
  ownerHead_setTblk (setLink s k (s.tblk t).next) ftids t _ ht

theorem tidNext_pushTid {j : Nat} (hj : j ≠ t) : tidNext (pushTid s t k) j = tidNext s j := by
  simp [pushTid, hj]

@[simp] theorem base_pushTid : base (pushTid s t k) = base s := rfl

@[simp] theorem lword_pushTid : (pushTid s t k).lword =
    Function.update s.lword k { s.lword k with link := (s.tblk t).next } := rfl

end Push

section Unlink

variable (s : State) (ftids : List Nat) (k h t : Nat) (prev : Option Nat)

@[simp] theorem next_unlinkLock : (unlinkLock s h k prev).next = unlinkNext s.next prev k := by
  cases prev <;> simp [unlinkLock, unlinkNext]

@[simp] theorem nextHead_unlinkLock :
    nextHead (unlinkLock s h k prev) = unlinkHead (nextHead s) (.hash h) prev (s.next k) := by
  cases prev <;> simp [unlinkLock, unlinkHead]

@[simp] theorem link_unlinkLock : (unlinkLock s h k prev).link = s.link := by
  cases prev <;> simp [unlinkLock]

@[simp] theorem ownerHead_unlinkLock :
    ownerHead (unlinkLock s h k prev) ftids = ownerHead s ftids := by
  cases prev <;> simp [unlinkLock]

@[simp] theorem tidNext_unlinkLock : tidNext (unlinkLock s h k prev) = tidNext s := by
  cases prev <;> simp [unlinkLock]

@[simp] theorem key_unlinkLock : key (unlinkLock s h k prev) = key s := by
  cases prev
  · rfl
  · simp [unlinkLock]

@[simp] theorem base_unlinkLock : base (unlinkLock s h k prev) = base s := by
  cases prev <;> rfl

@[simp] theorem freelock_unlinkLock : (unlinkLock s h k prev).freelock = s.freelock := by
  cases prev <;> rfl

@[simp] theorem next_unlinkFrag : (unlinkFrag s h k prev).next = unlinkNext s.next prev k := by
  cases prev <;> simp [unlinkFrag, unlinkNext]

@[simp] theorem nextHead_unlinkFrag :
    nextHead (unlinkFrag s h k prev) = unlinkHead (nextHead s) (.frag h) prev (s.next k) := by
  cases prev <;> simp [unlinkFrag, unlinkHead]

@[simp] theorem link_unlinkFrag : (unlinkFrag s h k prev).link = s.link := by
  cases prev <;> simp [unlinkFrag]

@[simp] theorem ownerHead_unlinkFrag :
    ownerHead (unlinkFrag s h k prev) ftids = ownerHead s ftids := by
  cases prev <;> simp [unlinkFrag]

@[simp] theorem tidNext_unlinkFrag : tidNext (unlinkFrag s h k prev) = tidNext s := by
  cases prev <;> simp [unlinkFrag]

@[simp] theorem key_unlinkFrag : key (unlinkFrag s h k prev) = key s := by
  cases prev
  · rfl
  · simp [unlinkFrag]

@[simp] theorem base_unlinkFrag : base (unlinkFrag s h k prev) = base s := by
  cases prev <;> rfl

@[simp] theorem freelock_unlinkFrag : (unlinkFrag s h k prev).freelock = s.freelock := by
  cases prev <;> rfl

@[simp] theorem next_unlinkTid : (unlinkTid s t k prev).next = s.next := by
  cases prev <;> simp [unlinkTid]

@[simp] theorem nextHead_unlinkTid : nextHead (unlinkTid s t k prev) = nextHead s := by
  cases prev <;> simp [unlinkTid]

@[simp] theorem link_unlinkTid : (unlinkTid s t k prev).link = unlinkNext s.link prev k := by
  cases prev <;> simp [unlinkTid, unlinkNext]

theorem ownerHead_unlinkTid (ht : t ∉ ftids) :
    ownerHead (unlinkTid s t k prev) ftids =
      unlinkHead (ownerHead s ftids) (.tid t) prev (s.link k) := by
  cases prev with
  | none => exact ownerHead_setTblk s ftids t _ ht
  | some p => simp [unlinkTid, unlinkHead]

theorem tidNext_unlinkTid {j : Nat} (hj : j ≠ t) :
    tidNext (unlinkTid s t k prev) j = tidNext s j := by
  cases prev with
  | none => simp [unlinkTid, hj]
  | some p => simp [unlinkTid]

@[simp] theorem key_unlinkTid : key (unlinkTid s t k prev) = key s := by
  cases prev
  · rfl
  · simp [unlinkTid]

@[simp] theorem base_unlinkTid : base (unlinkTid s t k prev) = base s := by
  cases prev <;> rfl

@[simp] theorem next_pushFree : (pushFree s k).next = Function.update s.next k s.freelock :=
  next_setNext s k _

@[simp] theorem link_pushFree : (pushFree s k).link = s.link := link_setNext s k _

@[simp] theorem nextHead_pushFree :
    nextHead (pushFree s k) = Function.update (nextHead s) .free k :=
  nextHead_setFreelock (setNext s k s.freelock) k

@[simp] theorem ownerHead_pushFree : ownerHead (pushFree s k) ftids = ownerHead s ftids := rfl
@[simp] theorem tidNext_pushFree : tidNext (pushFree s k) = tidNext s := rfl
@[simp] theorem key_pushFree : key (pushFree s k) = key s := key_setNext s k _
@[simp] theorem base_pushFree : base (pushFree s k) = base s := rfl

end Unlink

end Aix413.Lockword.Links
