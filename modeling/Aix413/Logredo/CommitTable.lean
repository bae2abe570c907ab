import Aix413.Lib.LinkedPool
import Aix413.Log.Format

namespace Aix413.Logredo.CommitTable

open Aix413.Log.Format Aix413.Lib.LinkedPool

/-- `COMSIZE`. -/
def comsize : Nat := 512

/-- `MAXDUPSAVE`. -/
def maxdupsave : Nat := 400

/-- `DUPSAVECNT`, in words. -/
def dupsavecnt : Nat := 8

/-- `DUPSAVESIZ`, in bytes. -/
def dupsavesiz : Short := 32

/-- `MAJOR_ERROR`. -/
def majorError : Int := -2

def comhmask : Word := 63

/-- `struct com`. -/
structure Com where
  tid : Word
  next : Nat
  deriving DecidableEq, Repr

/-- The commit table and the records of hanfs. `com` has `COMSIZE` entries, and
what is behind them is memory of something else. -/
structure State where
  comhash : Fin 64 → Nat
  comfree : Nat
  com : Nat → Com
  nfscommit : Nat
  nfsdupcall : Nat
  nfsstrange : Nat
  nfsduplist : Nat → List Word

/-- Hash class of a transaction. -/
def hash (tid : Word) : Fin 64 :=
  ⟨(tid &&& comhmask).toNat, by
    rw [BitVec.toNat_and]
    exact Nat.lt_of_le_of_lt Nat.and_le_right (by decide)⟩

def setCom (s : State) (k : Nat) (c : Com) : State := { s with com := Function.update s.com k c }

def setNext (s : State) (k v : Nat) : State := setCom s k { s.com k with next := v }

def setComhash (s : State) (c : Fin 64) (k : Nat) : State :=
  { s with comhash := Function.update s.comhash c k }

/-- What `logredo` does before it reads the log: the entries are linked into a
free list. Index 0 is not used. -/
def initCom (s : State) : State :=
  { s with
    comfree := 1
    com := fun k => if 1 ≤ k ∧ k < comsize then { s.com k with next := k + 1 } else s.com k }

/-- The program as it is loaded: its variables are zero. -/
def loaded (behind : Nat → Com) : State :=
  ⟨fun _ => 0, 0, fun k => if k < comsize then ⟨0, 0⟩ else behind k, 0, 0, 0, fun _ => []⟩

/-- The second part of `docommit`, on the records of hanfs. -/
def dupsave (s : State) (ld : LogRDesc) (afterdata : List Word) : State :=
  if dupsavesiz = ld.length then
    let s := { s with nfscommit := s.nfscommit + 1 }
    if s.nfsdupcall < maxdupsave then
      { s with
        nfsduplist := Function.update s.nfsduplist s.nfsdupcall (afterdata.take dupsavecnt)
        nfsdupcall := s.nfsdupcall + 1 }
    else s
  else if ld.length ≠ 0 then { s with nfsstrange := s.nfsstrange + 1 }
  else s

/-- `docommit`. -/
def docommit (s : State) (ld : LogRDesc) (afterdata : List Word) : Int × State :=
  if s.comfree = 0 then (majorError, s)
  else
    let k := s.comfree
    let s := { s with comfree := (s.com k).next }
    let c := hash ld.transid
    let s := setComhash (setCom s k ⟨ld.transid, s.comhash c⟩) c k
    (0, dupsave s ld afterdata)

/-- `findcom`, with fuel for its loop. -/
def findcom (n : Nat) (s : State) (tid : Word) : Option Nat :=
  find (fun k => (s.com k).next) (fun k => (s.com k).tid == tid) n (s.comhash (hash tid))

/-- The loop of `deletecom`: the entry of the transaction and the entry before
it on the hash chain, 0 if it is the first. -/
def seek (s : State) (tid : Word) : Nat → Nat → Nat → Option (Nat × Nat)
  | 0, _, _ => none
  | fuel + 1, n, k => if (s.com k).tid = tid then some (n, k) else seek s tid fuel k (s.com k).next

/-- `deletecom`. -/
def deletecom (fuel : Nat) (s : State) (tid : Word) : Option State :=
  match seek s tid fuel 0 (s.comhash (hash tid)) with
  | none => none
  | some (n, k) =>
    let s := if n = 0 then setComhash s (hash tid) (s.com k).next else setNext s n (s.com k).next
    some { setNext s k s.comfree with comfree := k }

@[simp] theorem dupsave_comhash (s : State) (ld : LogRDesc) (d : List Word) :
    (dupsave s ld d).comhash = s.comhash := by
  unfold dupsave
  split
  · dsimp only
    split <;> rfl
  · split <;> rfl

@[simp] theorem dupsave_comfree (s : State) (ld : LogRDesc) (d : List Word) :
    (dupsave s ld d).comfree = s.comfree := by
  unfold dupsave
  split
  · dsimp only
    split <;> rfl
  · split <;> rfl

@[simp] theorem dupsave_com (s : State) (ld : LogRDesc) (d : List Word) :
    (dupsave s ld d).com = s.com := by
  unfold dupsave
  split
  · dsimp only
    split <;> rfl
  · split <;> rfl

/-! ## Runs -/

/-- The calls of a replay that change the table. -/
inductive Call
  | commit (ld : LogRDesc) (afterdata : List Word)
  | delete (tid : Word)

/-- One call, with the transactions committed and not yet deleted before and
after it. `deletecom` is called for a transaction that `findcom` finds. -/
inductive Step : State → List Word → Call → State → List Word → Prop
  | commit {s s' : State} {o : List Word} {ld : LogRDesc} {d : List Word}
      (h : docommit s ld d = (0, s')) : Step s o (.commit ld d) s' (ld.transid :: o)
  | delete {s s' : State} {o : List Word} {tid : Word} {n m k : Nat}
      (hf : findcom n s tid = some k) (hk : k ≠ 0) (h : deletecom m s tid = some s') :
      Step s o (.delete tid) s' (o.erase tid)

/-- The states that a replay reaches by calls allowed by `P`. -/
inductive Replayed (P : List Word → Call → Prop) : State → List Word → Prop
  | start (behind : Nat → Com) : Replayed P (initCom (loaded behind)) []
  | step {s s' : State} {o o' : List Word} {c : Call} (h : Replayed P s o) (hp : P o c)
      (hs : Step s o c s' o') : Replayed P s' o'

/-- Not all entries are in use when a transaction is to be entered. -/
def Roomy (o : List Word) : Call → Prop
  | .commit _ _ => o.length < comsize - 1
  | .delete _ => True

/-! ## The lists of the table -/

/-- The free list and the hash chains. -/
abbrev Anchor := Option (Fin 64)

def head (s : State) : Anchor → Nat
  | none => s.comfree
  | some c => s.comhash c

/-- The links of the entries. The memory behind the table ends every list. -/
def links (s : State) : Nat → Nat := fun k => if comsize ≤ k then 0 else (s.com k).next

/-- The lists: the free list ends in the index behind the table. -/
def cells (free : List Nat) (chains : Fin 64 → List Nat) : Anchor → List Nat
  | none => free ++ [comsize]
  | some c => chains c

/-- What holds between the calls: the free list and the chains share the
entries of the table, and the chains hold the open transactions. -/
structure Good (s : State) (o : List Word) (free : List Nat) (chains : Fin 64 → List Nat) :
    Prop where
  linked : Linked (links s) (head s) (cells free chains)
  free_lt : ∀ k ∈ free, k < comsize
  chain_lt : ∀ c, ∀ k ∈ chains c, k < comsize
  tids : ∀ c, ((chains c).map fun k => (s.com k).tid).Perm (o.filter fun tid => hash tid = c)
  room : free.length + o.length = comsize - 1

variable {s s' : State} {o : List Word} {free : List Nat} {chains : Fin 64 → List Nat}

theorem links_of_lt {k : Nat} (h : k < comsize) : links s k = (s.com k).next :=
  if_neg (not_le.mpr h)

theorem links_setCom {k : Nat} (h : k < comsize) (c : Com) :
    links (setCom s k c) = Function.update (links s) k c.next := by
  funext j
  by_cases hj : j = k
  · subst hj
    rw [Function.update_self, links_of_lt h]
    simp [setCom]
  · rw [Function.update_of_ne hj]
    simp [links, setCom, Function.update_of_ne hj]

@[simp] theorem links_setComhash (s : State) (c : Fin 64) (k : Nat) :
    links (setComhash s c k) = links s := rfl

theorem head_setComhash (s : State) (c : Fin 64) (k : Nat) :
    head (setComhash s c k) = Function.update (head s) (some c) k := by
  funext a
  cases a with
  | none => rfl
  | some b =>
    by_cases hb : b = c
    · subst hb
      simp [head, setComhash]
    · simp [head, setComhash, hb]

theorem cells_free (free' : List Nat) (chains : Fin 64 → List Nat) (free : List Nat) :
    cells free' chains = Function.update (cells free chains) none (free' ++ [comsize]) := by
  funext a
  cases a with
  | none => simp [cells]
  | some c => simp [cells]

theorem cells_chain (c : Fin 64) (l : List Nat) :
    cells free (Function.update chains c l) = Function.update (cells free chains) (some c) l := by
  funext a
  cases a with
  | none => simp [cells]
  | some b =>
    by_cases hb : b = c
    · subst hb
      simp [cells]
    · simp [cells, hb]

theorem good_init (behind : Nat → Com) :
    Good (initCom (loaded behind)) [] (List.range' 1 511) fun _ => [] := by
  have hnext : ∀ j, 1 ≤ j → j < comsize → links (initCom (loaded behind)) j = j + 1 := by
    intro j hj hlt
    rw [links_of_lt hlt]
    simp [initCom, hj, hlt]
  have hrow : Chain (links (initCom (loaded behind))) 1 (List.range' 1 512) := by
    refine chain_range' (by decide) (by decide) (fun j hj hlt => ?_) (if_pos (by simp [comsize]))
    exact hnext j hj (by simp only [comsize]; omega)
  refine ⟨⟨fun a => ?_, fun {a b k} ha hb => ?_⟩, fun k hk => ?_, ?_, ?_, ?_⟩
  · cases a with
    | none =>
      rw [List.range'_concat] at hrow
      exact hrow
    | some c => rfl
  · cases a with
    | none =>
      cases b with
      | none => rfl
      | some c => exact absurd hb List.not_mem_nil
    | some c => exact absurd ha List.not_mem_nil
  · have := (List.mem_range'_1.mp hk).2
    simp only [comsize]
    omega
  · exact fun c k hk => absurd hk List.not_mem_nil
  · exact fun c => List.Perm.refl _
  · simp [comsize]

theorem Good.chain_ne_zero (h : Good s o free chains) {a : Anchor} {k : Nat}
    (hk : k ∈ cells free chains a) : k ≠ 0 := (h.linked.chain a).ne_zero hk

theorem Good.chain_next (h : Good s o free chains) (c : Fin 64) :
    Chain (fun k => (s.com k).next) (s.comhash c) (chains c) :=
  (h.linked.chain (some c)).congr fun k hk => (links_of_lt (h.chain_lt c k hk)).symm

theorem Good.length_lt (h : Good s o free chains) (c : Fin 64) : (chains c).length < comsize := by
  have hperm := (h.tids c).length_eq
  have hle := List.length_filter_le (fun t => decide (hash t = c)) o
  have hroom := h.room
  rw [List.length_map] at hperm
  simp only [comsize] at hroom ⊢
  omega

theorem Good.mem_iff (h : Good s o free chains) (tid : Word) :
    tid ∈ o ↔ ∃ k ∈ chains (hash tid), (s.com k).tid = tid := by
  have hp := (h.tids (hash tid)).mem_iff (a := tid)
  rw [List.mem_map, List.mem_filter] at hp
  simpa using hp.symm

/-- `findcom` comes to an end, and finds the open transactions. -/
theorem Good.findcom (h : Good s o free chains) (tid : Word) :
    ∃ k, findcom comsize s tid = some k ∧ (k ≠ 0 ↔ tid ∈ o) := by
  refine ⟨_, find_eq (h.chain_next _) (h.length_lt _), ?_⟩
  rw [h.mem_iff]
  cases hfind : (chains (hash tid)).find? fun k => (s.com k).tid == tid with
  | none =>
    refine iff_of_false (by simp) ?_
    rintro ⟨k, hk, htid⟩
    have hnone := List.find?_eq_none.mp hfind k hk
    simp [htid] at hnone
  | some k =>
    have hk := List.mem_of_find?_eq_some hfind
    refine iff_of_true ?_ ⟨k, hk, by simpa using List.find?_some hfind⟩
    exact h.chain_ne_zero (a := some (hash tid)) hk

/-- The first entry of an open transaction on its chain. -/
theorem Good.first (h : Good s o free chains) {tid : Word} (ho : tid ∈ o) :
    ∃ k l₁ l₂, chains (hash tid) = l₁ ++ k :: l₂ ∧ (s.com k).tid = tid ∧
      ∀ j ∈ l₁, (s.com j).tid ≠ tid := by
  obtain ⟨i, hi, htid⟩ := (h.mem_iff tid).mp ho
  cases hfind : (chains (hash tid)).find? fun k => (s.com k).tid == tid with
  | none =>
    have hnone := List.find?_eq_none.mp hfind i hi
    simp [htid] at hnone
  | some k =>
    obtain ⟨hk, l₁, l₂, hl, hfirst⟩ := List.find?_eq_some_iff_append.mp hfind
    exact ⟨k, l₁, l₂, hl, by simpa using hk, fun j hj => by simpa using hfirst j hj⟩

/-- The entry that `docommit` takes. -/
theorem Good.comfree (h : Good s o free chains) : s.comfree = (free ++ [comsize]).headD 0 :=
  (h.linked.chain none).head_eq

theorem docommit_eq (hk : s.comfree ≠ 0) (ld : LogRDesc) (d : List Word) :
    docommit s ld d = (0, dupsave (setComhash (setCom
      { s with comfree := (s.com s.comfree).next } s.comfree
        ⟨ld.transid, s.comhash (hash ld.transid)⟩) (hash ld.transid) s.comfree) ld d) := by
  rw [docommit, if_neg hk]

theorem com_docommit (hk : s.comfree ≠ 0) (ld : LogRDesc) (d : List Word) :
    (docommit s ld d).2.com = Function.update s.com s.comfree
      ⟨ld.transid, s.comhash (hash ld.transid)⟩ := by
  rw [docommit_eq hk, dupsave_com]
  rfl

theorem head_docommit (hk : s.comfree ≠ 0) (ld : LogRDesc) (d : List Word) :
    head (docommit s ld d).2 = Function.update
      (Function.update (head s) none (s.com s.comfree).next) (some (hash ld.transid)) s.comfree := by
  rw [docommit_eq hk]
  funext a
  cases a with
  | none => simp [head, setComhash, setCom]
  | some c =>
    by_cases hc : c = hash ld.transid
    · subst hc
      simp [head, setComhash]
    · simp [head, setComhash, setCom, hc]

theorem links_docommit (hk : s.comfree ≠ 0) (hlt : s.comfree < comsize) (ld : LogRDesc)
    (d : List Word) : links (docommit s ld d).2 =
      Function.update (links s) s.comfree (s.comhash (hash ld.transid)) := by
  have hcom := com_docommit hk ld d
  funext j
  by_cases hj : j = s.comfree
  · subst hj
    rw [Function.update_self, links_of_lt hlt, hcom, Function.update_self]
  · rw [Function.update_of_ne hj]
    simp [links, hcom, Function.update_of_ne hj]

/-- The transactions on the chains, when an entry is put in front of one. -/
theorem tids_push {com : Nat → Com} {tid : Word} {k v : Nat} (h : Good s o free chains)
    (hk : ∀ c, k ∉ chains c) (hcom : com = Function.update s.com k ⟨tid, v⟩) (c : Fin 64) :
    ((Function.update chains (hash tid) (k :: chains (hash tid)) c).map
      fun k => (com k).tid).Perm ((tid :: o).filter fun t => hash t = c) := by
  have hsame : ∀ b, (chains b).map (fun k => (com k).tid) =
      (chains b).map fun k => (s.com k).tid := by
    intro b
    refine List.map_congr_left fun j hj => ?_
    have hne : j ≠ k := fun he => hk b (he ▸ hj)
    rw [hcom, Function.update_of_ne hne]
  by_cases hc : c = hash tid
  · subst hc
    rw [Function.update_self, List.map_cons, hsame, hcom, Function.update_self,
      List.filter_cons_of_pos (by simp)]
    exact (h.tids _).cons tid
  · rw [Function.update_of_ne hc, hsame, List.filter_cons_of_neg (by simpa using Ne.symm hc)]
    exact h.tids c

/-- A transaction gets a free entry. -/
theorem Good.commit {k : Nat} (h : Good s o (k :: free) chains) (ld : LogRDesc) (d : List Word) :
    (docommit s ld d).1 = 0 ∧
      Good (docommit s ld d).2 (ld.transid :: o) free
        (Function.update chains (hash ld.transid) (k :: chains (hash ld.transid))) ∧
      ∀ j, comsize ≤ j → (docommit s ld d).2.com j = s.com j := by
  have hk : s.comfree = k := h.comfree
  have hlt : k < comsize := h.free_lt k (by simp)
  have hnone : k ∈ cells (k :: free) chains none := by simp [cells]
  have hk0 : s.comfree ≠ 0 := hk ▸ h.chain_ne_zero hnone
  have hnotfree : k ∉ free ++ [comsize] := (List.nodup_cons.mp (h.linked.chain none).nodup).1
  have hnotchain : ∀ c, k ∉ chains c := fun c hkc => by
    have hkc' : k ∈ cells (k :: free) chains (some c) := hkc
    exact nomatch h.linked.disjoint hnone hkc'
  have hcom := com_docommit hk0 ld d
  rw [hk] at hcom
  have hpop := h.linked.pop (a := none) (l := free ++ [comsize]) rfl
  rw [← cells_free free, links_of_lt hlt] at hpop
  have hpush := hpop.push (hk ▸ hk0) (fun b => by
    cases b with
    | none => exact hnotfree
    | some c => exact hnotchain c) (some (hash ld.transid))
  refine ⟨by rw [docommit_eq hk0], ⟨?_, fun j hj => ?_, fun c j hj => ?_, ?_, ?_⟩, fun j hj => ?_⟩
  · rw [links_docommit hk0 (hk ▸ hlt), head_docommit hk0, cells_chain, hk]
    exact hpush
  · exact h.free_lt j (List.mem_cons_of_mem _ hj)
  · by_cases hc : c = hash ld.transid
    · subst hc
      rw [Function.update_self] at hj
      rcases List.mem_cons.mp hj with rfl | hj
      · exact hlt
      · exact h.chain_lt _ j hj
    · rw [Function.update_of_ne hc] at hj
      exact h.chain_lt c j hj
  · exact tids_push h hnotchain hcom
  · have hroom := h.room
    simp only [List.length_cons] at hroom ⊢
    omega
  · rw [hcom, Function.update_of_ne (by omega)]

/-! ## An entry is given back -/

theorem seek_eq {tid : Word} {l₁ l₂ : List Nat} {k : Nat} (hk : (s.com k).tid = tid)
    (hl : ∀ j ∈ l₁, (s.com j).tid ≠ tid) {fuel : Nat} (hf : l₁.length < fuel) :
    ∀ {n h : Nat}, Chain (fun k => (s.com k).next) h (l₁ ++ k :: l₂) →
      seek s tid fuel n h = some (l₁.getLastD n, k) := by
  induction fuel generalizing l₁ with
  | zero => exact absurd hf (Nat.not_lt_zero _)
  | succ fuel ih =>
    intro n h hc
    cases l₁ with
    | nil =>
      rw [seek, hc.1, if_pos hk]
      rfl
    | cons j l =>
      rw [seek, hc.1, if_neg (hl j (by simp)), ih (fun i hi => hl i (List.mem_cons_of_mem _ hi))
        (by simpa using hf) hc.2.2, List.getLastD_cons]

/-- The entry `k` out of its hash chain, with `n` before it. -/
def unchain (s : State) (c : Fin 64) (n k : Nat) : State :=
  if n = 0 then setComhash s c (s.com k).next else setNext s n (s.com k).next

theorem tid_unchain (c : Fin 64) (n k j : Nat) :
    ((unchain s c n k).com j).tid = (s.com j).tid := by
  unfold unchain
  split
  · rfl
  · by_cases hj : j = n
    · subst hj
      simp [setNext, setCom]
    · simp [setNext, setCom, hj]

theorem comfree_unchain (c : Fin 64) (n k : Nat) : (unchain s c n k).comfree = s.comfree := by
  unfold unchain
  split <;> rfl

theorem com_unchain {c : Fin 64} {n k : Nat} (hn : n < comsize) {j : Nat} (hj : comsize ≤ j) :
    (unchain s c n k).com j = s.com j := by
  unfold unchain
  split
  · rfl
  · have hne : j ≠ n := by omega
    simp [setNext, setCom, hne]

theorem linked_unchain (h : Good s o free chains) {c : Fin 64} {l₁ l₂ : List Nat} {k : Nat}
    (hl : chains c = l₁ ++ k :: l₂) :
    Linked (links (unchain s c (l₁.getLastD 0) k)) (head (unchain s c (l₁.getLastD 0) k))
      (cells free (Function.update chains c (l₁ ++ l₂))) := by
  have hcell : cells free chains (some c) = l₁ ++ k :: l₂ := hl
  have hk : k < comsize := h.chain_lt c k (by simp [hl])
  rw [cells_chain]
  cases l₁.eq_nil_or_concat with
  | inl hnil =>
    subst hnil
    have hpop := h.linked.pop hcell
    rw [links_of_lt hk] at hpop
    rw [List.getLastD_nil, unchain, if_pos rfl, links_setComhash, head_setComhash]
    exact hpop
  | inr hcat =>
    obtain ⟨l, p, rfl⟩ := hcat
    have hp : p ∈ chains c := by simp [hl]
    have hplt := h.chain_lt c p hp
    have hp0 : p ≠ 0 := h.chain_ne_zero (a := some c) hp
    have hby : Linked (Function.update (links s) p (links s k)) (head s)
        (Function.update (cells free chains) (some c) (l ++ p :: l₂)) :=
      h.linked.bypass (by simpa using hcell)
    rw [links_of_lt hk] at hby
    rw [List.concat_eq_append, List.getLastD_concat, unchain, if_neg hp0, setNext,
      links_setCom hplt, List.append_assoc, List.singleton_append]
    exact hby

theorem getLastD_lt {l : List Nat} {n : Nat} (hn : 0 < n) (h : ∀ k ∈ l, k < n) :
    l.getLastD 0 < n := by
  cases l.eq_nil_or_concat with
  | inl hnil =>
    subst hnil
    exact hn
  | inr hcat =>
    obtain ⟨l, p, rfl⟩ := hcat
    rw [List.concat_eq_append, List.getLastD_concat]
    exact h p (by simp)

/-- The transactions on the chains, when an entry is taken out of one. -/
theorem tids_erase {tid : Word} {l₁ l₂ : List Nat} {k : Nat} (h : Good s o free chains)
    (ho : tid ∈ o) (hl : chains (hash tid) = l₁ ++ k :: l₂) (hk : (s.com k).tid = tid)
    (c : Fin 64) :
    ((Function.update chains (hash tid) (l₁ ++ l₂) c).map fun j => (s.com j).tid).Perm
      ((o.erase tid).filter fun t => hash t = c) := by
  have hperm := (List.perm_cons_erase ho).filter fun t => decide (hash t = c)
  have htids := (h.tids c).trans hperm
  by_cases hc : c = hash tid
  · subst hc
    rw [List.filter_cons_of_pos (by simp), hl] at htids
    have hmid : ((l₁ ++ k :: l₂).map fun j => (s.com j).tid).Perm
        (tid :: (l₁ ++ l₂).map fun j => (s.com j).tid) := by
      have hfront : ((l₁ ++ k :: l₂).map fun j => (s.com j).tid).Perm
          ((k :: (l₁ ++ l₂)).map fun j => (s.com j).tid) := List.perm_middle.map _
      rwa [List.map_cons, hk] at hfront
    rw [Function.update_self]
    exact (hmid.symm.trans htids).cons_inv
  · rw [List.filter_cons_of_neg (by simpa using Ne.symm hc)] at htids
    rwa [Function.update_of_ne hc]

theorem seek_unique {tid : Word} {n : Nat} {a b : Nat × Nat} :
    ∀ {p h : Nat}, seek s tid n p h = some a → ∀ {m : Nat}, seek s tid m p h = some b → a = b := by
  induction n with
  | zero => exact fun ha => nomatch ha
  | succ n ih =>
    intro p h ha m hb
    cases m with
    | zero => exact nomatch hb
    | succ m =>
      rw [seek] at ha hb
      by_cases hh : (s.com h).tid = tid
      · rw [if_pos hh] at ha hb
        exact Option.some.inj (ha.symm.trans hb)
      · rw [if_neg hh] at ha hb
        exact ih ha hb

theorem deletecom_unique {tid : Word} {n m : Nat} {t t' : State} (h : deletecom n s tid = some t)
    (h' : deletecom m s tid = some t') : t = t' := by
  unfold deletecom at h h'
  cases ha : seek s tid n 0 (s.comhash (hash tid)) with
  | none => simp [ha] at h
  | some a =>
    cases hb : seek s tid m 0 (s.comhash (hash tid)) with
    | none => simp [hb] at h'
    | some b =>
      rw [seek_unique ha hb] at ha
      rw [ha] at h
      rw [hb] at h'
      exact Option.some.inj (h.symm.trans h')

/-- The last part of `deletecom`: the entry goes on the free list. -/
def giveBack (s : State) (k : Nat) : State := { setNext s k s.comfree with comfree := k }

theorem head_giveBack (s : State) (k : Nat) :
    head (giveBack s k) = Function.update (head s) none k := by
  funext a
  cases a <;> rfl

theorem links_giveBack {k : Nat} (h : k < comsize) :
    links (giveBack s k) = Function.update (links s) k s.comfree := links_setCom h _

theorem deletecom_eq {tid : Word} {fuel n k : Nat}
    (h : seek s tid fuel 0 (s.comhash (hash tid)) = some (n, k)) :
    deletecom fuel s tid = some (giveBack (unchain s (hash tid) n k) k) := by
  have hfree := comfree_unchain (s := s) (hash tid) n k
  unfold deletecom
  rw [h]
  rfl

/-- An open transaction is taken out of the table. -/
theorem Good.delete (h : Good s o free chains) {tid : Word} (ho : tid ∈ o) :
    ∃ s' k l, deletecom comsize s tid = some s' ∧
      Good s' (o.erase tid) (k :: free) (Function.update chains (hash tid) l) ∧
      ∀ j, comsize ≤ j → s'.com j = s.com j := by
  obtain ⟨k, l₁, l₂, hl, htid, hfirst⟩ := h.first ho
  have hk : k ∈ chains (hash tid) := by simp [hl]
  have hklt := h.chain_lt _ k hk
  have hlen := h.length_lt (hash tid)
  have hchain := h.chain_next (hash tid)
  rw [hl] at hlen hchain
  rw [List.length_append, List.length_cons] at hlen
  have hnlt : l₁.getLastD 0 < comsize :=
    getLastD_lt (by decide) fun j hj => h.chain_lt (hash tid) j (by simp [hl, hj])
  have hseek : seek s tid comsize 0 (s.comhash (hash tid)) = some (l₁.getLastD 0, k) :=
    seek_eq htid hfirst (by omega) hchain
  have hgone := linked_unchain h hl
  have hnd := (h.linked.chain (some (hash tid))).nodup
  have hfree : ∀ a, k ∉ cells free (Function.update chains (hash tid) (l₁ ++ l₂)) a := by
    have hcell : k ∈ cells free chains (some (hash tid)) := hk
    intro a ha
    rw [cells_chain] at ha
    by_cases hsame : a = some (hash tid)
    · subst hsame
      rw [Function.update_self] at ha
      have hnd' : (l₁ ++ k :: l₂).Nodup := hl ▸ hnd
      exact (List.nodup_cons.mp (List.nodup_middle.mp hnd')).1 ha
    · rw [Function.update_of_ne hsame] at ha
      exact hsame (h.linked.disjoint ha hcell)
  have hpush := hgone.push (h.chain_ne_zero (a := some (hash tid)) hk) hfree none
  have htids := fun j => tid_unchain (s := s) (hash tid) (l₁.getLastD 0) k j
  refine ⟨_, k, l₁ ++ l₂, deletecom_eq hseek, ⟨?_, ?_, ?_, ?_, ?_⟩, fun j hj => ?_⟩
  · rw [links_giveBack hklt, head_giveBack, cells_free _ _ free]
    exact hpush
  · intro j hj
    rcases List.mem_cons.mp hj with rfl | hj
    · exact hklt
    · exact h.free_lt j hj
  · intro c j hj
    refine h.chain_lt c j ?_
    by_cases hc : c = hash tid
    · subst hc
      rw [Function.update_self] at hj
      have hmem : j ∈ l₁ ++ k :: l₂ := by
        rcases List.mem_append.mp hj with hj | hj
        · exact List.mem_append_left _ hj
        · exact List.mem_append_right _ (List.mem_cons_of_mem _ hj)
      exact hl ▸ hmem
    · rwa [Function.update_of_ne hc] at hj
  · have hcom : ∀ j, ((giveBack (unchain s (hash tid) (l₁.getLastD 0) k) k).com j).tid =
        (s.com j).tid := by
      intro j
      rw [← htids j]
      by_cases hj : j = k
      · subst hj
        simp [giveBack, setNext, setCom]
      · simp [giveBack, setNext, setCom, hj]
    simp only [hcom]
    exact tids_erase h ho hl htid
  · have hroom := h.room
    have hpos := List.length_pos_of_mem ho
    rw [List.length_cons, List.length_erase_of_mem ho]
    omega
  · have hne : j ≠ k := by omega
    have hback : ∀ t : State, (giveBack t k).com j = t.com j := fun t => by
      simp [giveBack, setNext, setCom, hne]
    exact (hback _).trans (com_unchain hnlt hj)

/-! ## Commit table safety -/

/-- The entries of the table from index `h` on, up to the index 0 or one that
is not in the table. -/
def Entries (s : State) : Nat → List Nat → Prop
  | h, [] => h = 0 ∨ comsize ≤ h
  | h, k :: l => h = k ∧ 0 < k ∧ k < comsize ∧ Entries s (s.com k).next l

/-- The table holds the open transactions `o`: the free list and the chains
share its entries, and `findcom` finds what is open. -/
structure Table (s : State) (o : List Word) : Prop where
  entries : ∃ (free : List Nat) (chains : Fin 64 → List Nat), Entries s s.comfree free ∧ (∀ c, Entries s (s.comhash c) (chains c)) ∧
    free.Nodup ∧ (∀ c, (chains c).Nodup) ∧ (∀ c, List.Disjoint free (chains c)) ∧
    ∀ c c', c ≠ c' → List.Disjoint (chains c) (chains c')
  findcom : ∀ tid, ∃ k, findcom comsize s tid = some k ∧ (k ≠ 0 ↔ tid ∈ o)

/-- What is asked of a `docommit`: it refuses the transaction when all entries
are in use, and leaves what is behind the table alone. -/
def Proper (s : State) (o : List Word) (ld : LogRDesc) (d : List Word) : Prop :=
  (o.length = comsize - 1 → docommit s ld d = (majorError, s)) ∧
    s.comfree ≠ comsize ∧ (docommit s ld d).2.com comsize = s.com comsize

theorem entries_of_chain {h : Nat} {l : List Nat} (hc : Chain (links s) h l)
    (hl : ∀ k ∈ l, k < comsize) : Entries s h l := by
  induction l generalizing h with
  | nil => exact Or.inl hc
  | cons k l ih =>
    have hk := hl k (by simp)
    refine ⟨hc.1, Nat.pos_of_ne_zero hc.2.1, hk, ?_⟩
    rw [← links_of_lt hk]
    exact ih hc.2.2 fun j hj => hl j (List.mem_cons_of_mem _ hj)

theorem entries_of_free {h : Nat} {l : List Nat} (hc : Chain (links s) h (l ++ [comsize]))
    (hl : ∀ k ∈ l, k < comsize) : Entries s h l := by
  induction l generalizing h with
  | nil => exact Or.inr (le_of_eq hc.1.symm)
  | cons k l ih =>
    have hk := hl k (by simp)
    refine ⟨hc.1, Nat.pos_of_ne_zero hc.2.1, hk, ?_⟩
    rw [← links_of_lt hk]
    exact ih hc.2.2 fun j hj => hl j (List.mem_cons_of_mem _ hj)

theorem Good.table (h : Good s o free chains) : Table s o := by
  have hfree := h.linked.chain none
  refine ⟨⟨free, chains, entries_of_free hfree h.free_lt,
    fun c => entries_of_chain (h.linked.chain (some c)) (h.chain_lt c),
    hfree.nodup.of_append_left, fun c => (h.linked.chain (some c)).nodup, fun c k hk hkc => ?_,
    fun c c' hne k hk hk' => ?_⟩, h.findcom⟩
  · have hn : k ∈ cells free chains none := List.mem_append_left _ hk
    have hs : k ∈ cells free chains (some c) := hkc
    exact nomatch h.linked.disjoint hn hs
  · have hs : k ∈ cells free chains (some c) := hk
    have hs' : k ∈ cells free chains (some c') := hk'
    exact hne (Option.some.inj (h.linked.disjoint hs hs'))

/-- A `docommit` is proper exactly when an entry is left. -/
theorem Good.proper_iff (h : Good s o free chains) (ld : LogRDesc) (d : List Word) :
    Proper s o ld d ↔ o.length < comsize - 1 := by
  have hroom := h.room
  cases free with
  | nil =>
    have hk : s.comfree = comsize := h.comfree
    refine iff_of_false (fun hp => hp.2.1 hk) ?_
    rw [List.length_nil] at hroom
    omega
  | cons k free =>
    have hk : s.comfree = k := h.comfree
    have hlt : k < comsize := h.free_lt k (by simp)
    rw [List.length_cons] at hroom
    refine iff_of_true ⟨fun hfull => ?_, by omega, (h.commit ld d).2.2 _ le_rfl⟩ (by omega)
    omega

/-- A call keeps the invariant. -/
theorem step_good {c : Call} {o' : List Word} (h : Good s o free chains) (hp : Roomy o c)
    (hs : Step s o c s' o') : ∃ free' chains', Good s' o' free' chains' := by
  cases hs with
  | @commit _ _ ld d hc =>
    have hroom := h.room
    cases free with
    | nil =>
      have hlt : o.length < comsize - 1 := hp
      rw [List.length_nil] at hroom
      omega
    | cons k free =>
      have hgood := (h.commit ld d).2.1
      rw [hc] at hgood
      exact ⟨_, _, hgood⟩
  | @delete _ _ tid n m k hf hk hd =>
    obtain ⟨k', hf', hopen⟩ := h.findcom tid
    have hsame : k' = k := find_unique hf' hf
    obtain ⟨t, j, l, ht, hgood, _⟩ := h.delete (hopen.mp (hsame ▸ hk))
    rw [deletecom_unique hd ht]
    exact ⟨_, _, hgood⟩

theorem replayed_good (h : Replayed Roomy s o) : ∃ free chains, Good s o free chains := by
  induction h with
  | start behind => exact ⟨_, _, good_init behind⟩
  | step _ hp hs ih =>
    obtain ⟨free, chains, hgood⟩ := ih
    exact step_good hgood hp hs

/-- In a replay that enters no transaction while all entries are in use the
table is right in every state, and a `docommit` is proper exactly when an
entry is left. -/
theorem commit_table (h : Replayed Roomy s o) :
    Table s o ∧ ∀ ld d, Proper s o ld d ↔ o.length < comsize - 1 := by
  obtain ⟨free, chains, hgood⟩ := replayed_good h
  exact ⟨hgood.table, hgood.proper_iff⟩

theorem Replayed.mono {P Q : List Word → Call → Prop} (hpq : ∀ o c, P o c → Q o c)
    (h : Replayed P s o) : Replayed Q s o := by
  induction h with
  | start behind => exact Replayed.start behind
  | step _ hp hs ih => exact Replayed.step ih (hpq _ _ hp) hs

/-- The commit record of a transaction, without data. -/
def commitRecord (tid : Word) : LogRDesc := ⟨tid, 0, commit, 0, 0, 0, 0, 0, 0⟩

theorem Replayed.commit (h : Replayed Roomy s o) (hroom : o.length < comsize - 1) (tid : Word) :
    Replayed Roomy (docommit s (commitRecord tid) []).2 (tid :: o) ∧
      (docommit s (commitRecord tid) []).2.com comsize = s.com comsize := by
  obtain ⟨free, chains, hgood⟩ := replayed_good h
  have hlen := hgood.room
  cases free with
  | nil =>
    rw [List.length_nil] at hlen
    omega
  | cons k free =>
    obtain ⟨hrc, _, hcom⟩ := hgood.commit (commitRecord tid) []
    exact ⟨h.step (c := .commit (commitRecord tid) []) hroom (Step.commit (Prod.ext hrc rfl)),
      hcom _ le_rfl⟩

theorem commit_table_one :
    Table (docommit (initCom (loaded fun _ => ⟨0, 0⟩)) (commitRecord 7) []).2 [7] :=
  (commit_table (Replayed.commit (Replayed.start fun _ => ⟨0, 0⟩) (by decide) 7).1).1

/-- Transactions are entered until all entries are in use. -/
theorem filled (behind : Nat → Com) : ∀ n, n < comsize → ∃ s o, Replayed Roomy s o ∧
    o.length = n ∧ s.com comsize = behind comsize := by
  intro n
  induction n with
  | zero =>
    exact fun _ => ⟨_, _, Replayed.start behind, rfl, by simp [initCom, loaded, comsize]⟩
  | succ n ih =>
    intro hn
    obtain ⟨s, o, h, rfl, hcom⟩ := ih (by omega)
    obtain ⟨hnext, hsame⟩ := h.commit (by omega) 1
    exact ⟨_, _, hnext, rfl, hsame.trans hcom⟩

/-- With all entries in use the next `docommit` returns 0 and writes behind the
table. -/
theorem docommit_behind_table : ∃ s o, Replayed (fun _ _ => True) s o ∧
    o.length = comsize - 1 ∧ (docommit s (commitRecord 1) []).1 = 0 ∧
    s.com comsize = ⟨0, 0⟩ ∧ ((docommit s (commitRecord 1) []).2.com comsize).tid = 1 := by
  obtain ⟨s, o, h, hlen, hcom⟩ := filled (fun _ => ⟨0, 0⟩) (comsize - 1) (by decide)
  obtain ⟨free, chains, hgood⟩ := replayed_good h
  have hfree : free = [] := List.length_eq_zero_iff.mp (by have := hgood.room; omega)
  have hk : s.comfree = comsize := by
    rw [hgood.comfree, hfree]
    rfl
  have hk0 : s.comfree ≠ 0 := by
    rw [hk]
    decide
  refine ⟨s, o, h.mono fun _ _ _ => trivial, hlen, by rw [docommit_eq hk0], hcom, ?_⟩
  rw [com_docommit hk0, hk, Function.update_self]
  rfl

end Aix413.Logredo.CommitTable
