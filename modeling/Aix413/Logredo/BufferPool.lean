import Aix413.Lib.LinkedPool
import Aix413.Lib.LinkedRing

namespace Aix413.Logredo.BufferPool

open Aix413.Lib.LinkedPool Aix413.Lib.LinkedRing

/-- `NBUFPOOL`. -/
def nbufpool : Nat := 128

/-- `MINOR_ERROR`. -/
def minorError : Int := -1

/-- A `fdaddr_t`: the new bit, the fragments that it is less than a full block
in three bits, and the first fragment. -/
abbrev Fdaddr := BitVec 32

def Fdaddr.nfrags (bn : Fdaddr) : Nat := (bn.extractLsb' 28 3).toNat

def Fdaddr.addr (bn : Fdaddr) : Nat := (bn.extractLsb' 0 28).toNat

/-- What `vopen` says of the volumes: fragments in a page, and the size of the
disk map where there is one. -/
structure Vopen where
  fperpage : Nat → Nat
  mapsize : Nat → Option Nat

/-- `bufhdr`, a field at a time, the hash anchors, the buffers and the disks,
the last two in fragments. -/
structure State (α : Type) where
  next : Nat → Nat
  prev : Nat → Nat
  hnext : Nat → Nat
  hprev : Nat → Nat
  modify : Nat → Bool
  inuse : Nat → Bool
  vol : Nat → Nat
  bn : Nat → Fdaddr
  bhash : Fin 128 → Nat
  buffer : Nat → Nat → α
  disk : Nat → Nat → α

/-- What the transfers of a call come to: done, or what a failing `write` left
on the disk and a failing `read` in the buffer. -/
structure Io (α : Type) where
  write : Option (Nat → α)
  read : Option (Nat → α)

variable {α : Type}

/-- Some values are replaced. -/
def fill (f : Nat → α) (a n : Nat) (g : Nat → α) : Nat → α :=
  fun i => if a ≤ i ∧ i < a + n then g (i - a) else f i

/-- `(bn.d ^ vol) & bhmask`. -/
def hash (vol : Nat) (bn : Fdaddr) : Fin 128 :=
  ⟨((bn ^^^ BitVec.ofNat 32 vol) &&& 127#32).toNat, by
    rw [BitVec.toNat_and]
    exact Nat.lt_of_le_of_lt Nat.and_le_right (by decide)⟩

/-- The fragments of a buffer that are transferred. -/
def Vopen.length (v : Vopen) (vol : Nat) (bn : Fdaddr) : Nat := v.fperpage vol - bn.nfrags

namespace State

variable (s : State α)

/-- `k` goes to the head of the lru list. -/
def toFront (k : Nat) : State α :=
  let nxt := s.next k
  let prv := s.prev k
  let prev := Function.update s.prev nxt prv
  let next := Function.update s.next prv nxt
  let head := next 0
  let next := Function.update next k head
  let prev := Function.update prev head k
  let prev := Function.update prev k 0
  let next := Function.update next 0 k
  { s with next := next, prev := prev }

/-- `k` leaves its hash chain; `hprev` is 0 for the first one. -/
def unhash (k : Nat) : State α :=
  let nxt := s.hnext k
  let prv := s.hprev k
  let oldhash := hash (s.vol k) (s.bn k)
  { s with
    bhash := if prv = 0 then Function.update s.bhash oldhash nxt else s.bhash
    hnext := if prv = 0 then s.hnext else Function.update s.hnext prv nxt
    hprev := Function.update s.hprev nxt prv }

/-- `k` is put on the hash chain of a page, and its header describes it. -/
def enter (k vol : Nat) (bn : Fdaddr) (update : Bool) : State α :=
  let h := hash vol bn
  let head := s.bhash h
  { s with
    hnext := Function.update s.hnext k head
    hprev := Function.update (Function.update s.hprev k 0) head k
    bhash := Function.update s.bhash h k
    vol := Function.update s.vol k vol
    bn := Function.update s.bn k bn
    inuse := Function.update s.inuse k true
    modify := Function.update s.modify k update }

/-- `read` of the fragments into a buffer. -/
def readIn (buf vol a n : Nat) (r : Option (Nat → α)) : State α :=
  let got := r.getD fun i => s.disk vol (a + i)
  { s with buffer := Function.update s.buffer buf (fill (s.buffer buf) 0 n got) }

/-- `write` of the fragments of a buffer. -/
def writeOut (buf vol a n : Nat) (w : Option (Nat → α)) : State α :=
  let put := w.getD (s.buffer buf)
  { s with disk := Function.update s.disk vol (fill (s.disk vol) a n put) }

/-- `bflush`. -/
def bflush (v : Vopen) (buf : Nat) (w : Option (Nat → α)) : State α × Int :=
  let k := buf + 1
  if s.modify k = false then (s, 0)
  else
    let vol := s.vol k
    let bn := s.bn k
    (s.writeOut buf vol bn.addr (v.length vol bn) w, if w.isSome then minorError else 0)

/-- `bread`: the buffer or an error; `none` for a hash chain without end. -/
def bread (v : Vopen) (vol : Nat) (bn : Fdaddr) (update : Bool) (io : Io α) :
    Option (State α × Except Int Nat) :=
  let nfrags := v.length vol bn
  if (v.mapsize vol).any fun mapsize => mapsize < bn.addr + nfrags then
    some (s, .error minorError)
  else
    match find s.hnext (fun k => s.bn k = bn && s.vol k = vol) nbufpool (s.bhash (hash vol bn)) with
    | none => none
    | some j =>
      let found := j ≠ 0
      let k := if found then j else s.prev 0
      let s := s.toFront k
      if found then
        some ({ s with modify := Function.update s.modify k (s.modify k || update) }, .ok (k - 1))
      else
        -- write it out if it was modified
        match if s.inuse k && s.modify k then s.bflush v (k - 1) io.write else (s, 0) with
        | (s, rc) =>
          if rc ≠ 0 then some (s, .error rc)
          else
            let s := if s.inuse k then s.unhash k else s
            let s := (s.enter k vol bn update).readIn (k - 1) vol bn.addr nfrags io.read
            some (s, if io.read.isSome then .error minorError else .ok (k - 1))

/-- The loop of `logredo` that flushes the buffers from `buf` on. -/
def flushPool (v : Vopen) : List (Option (Nat → α)) → Nat → State α → State α × Int
  | [], _, s => (s, 0)
  | w :: ws, buf, s =>
    match s.bflush v buf w with
    | (s, rc) => if rc ≠ 0 then (s, rc) else flushPool v ws (buf + 1) s

/-- The program as it is loaded, with its lru list set up. -/
def initPool (disk : Nat → Nat → α) (buffer : Nat → Nat → α) : State α where
  next k := if k = nbufpool - 1 then 0 else if k < nbufpool then k + 1 else 0
  prev k := if k = 0 then nbufpool - 1 else k - 1
  hnext _ := 0
  hprev _ := 0
  modify _ := false
  inuse _ := false
  vol _ := 0
  bn _ := 0
  bhash _ := 0
  buffer := buffer
  disk := disk

end State

/-! ## The lists of the pool -/

variable {s : State α} {l : List Nat} {chains : Fin 128 → List Nat} {k : Nat}

/-- Header `k` describes a buffer. -/
def Header (k : Nat) : Prop := 0 < k ∧ k < nbufpool

/-- The key of a header. -/
def State.class (s : State α) (k : Nat) : Fin 128 := hash (s.vol k) (s.bn k)

/-- The lru list has every header once, and the headers in use are on the
chains of their pages, no two of them with the same page. -/
structure Pool (s : State α) (l : List Nat) (chains : Fin 128 → List Nat) : Prop where
  ring : IsRing s.next s.prev (0 :: l)
  perm : l.Perm (List.range' 1 127)
  linked : Linked s.hnext s.bhash chains
  backed : ∀ c, Backed s.hprev 0 (chains c)
  mem : ∀ c k, k ∈ chains c ↔ Header k ∧ s.inuse k = true ∧ s.class k = c
  once : ∀ j k, Header j → Header k → s.inuse j = true → s.inuse k = true →
    s.vol j = s.vol k → s.bn j = s.bn k → j = k

theorem Pool.mem_lru (h : Pool s l chains) : k ∈ l ↔ Header k := by
  rw [h.perm.mem_iff, List.mem_range'_1]
  rfl

/-- The least recently used header. -/
theorem Pool.victim (h : Pool s l chains) : Header (s.prev 0) := by
  have hlen := h.perm.length_eq
  rw [List.length_range'] at hlen
  have hmem : s.prev 0 ∈ l := by
    rw [h.ring.last_joined.2]
    cases l with
    | nil => exact absurd hlen (by decide)
    | cons a t =>
      rw [List.getLast_cons (by simp)]
      exact List.getLast_mem _
  exact h.mem_lru.mp hmem

/-- A ring in which a cell goes behind the anchor. -/
theorem ring_toFront {next prev : Nat → Nat} (h : IsRing next prev (0 :: l)) (hk : k ∈ l)
    (hl : l ≠ [k]) :
    let prev' := Function.update prev (next k) (prev k)
    let next' := Function.update next (prev k) (next k)
    IsRing (Function.update (Function.update next' k (next' 0)) 0 k)
      (Function.update (Function.update prev' (next' 0) k) k 0) (0 :: k :: l.erase k) := by
  have hk0 : k ≠ 0 := fun he => (List.nodup_cons.mp h.nodup).1 (he ▸ hk)
  have hout := h.erase (List.mem_cons_of_mem 0 hk) (by
    intro he
    exact absurd (List.cons.inj he).2 (List.ne_nil_of_mem hk))
  rw [List.erase_cons_tail (by simpa using hk0.symm)] at hout
  have hnot : k ∉ l.erase k := (List.nodup_cons.mp h.nodup).2.not_mem_erase
  dsimp only
  generalize Function.update prev (next k) (prev k) = prev' at *
  generalize Function.update next (prev k) (next k) = next' at *
  have hne : l.erase k ≠ [] := by
    intro he
    have hlen := List.length_erase_of_mem hk
    rw [he] at hlen
    obtain ⟨x, rfl⟩ := List.length_eq_one_iff.mp
      (show l.length = 1 by have := List.length_pos_of_mem hk; simp at hlen; omega)
    exact hl (by rw [List.mem_singleton.mp hk])
  obtain ⟨a, t, ht⟩ := List.exists_cons_of_ne_nil hne
  rw [ht] at hout hnot ⊢
  obtain ⟨h1, h2⟩ := hout.joined []
  have hka : k ≠ a := fun he => hnot (he ▸ List.mem_cons_self)
  have hrot : IsRing next' prev' (a :: (t ++ [0])) := by
    have hr := hout.rotate [0]
    simpa using hr
  have hin := hrot.link (x := k) (by
    intro hm
    rcases List.mem_cons.mp hm with hm | hm
    · exact hka hm
    · rcases List.mem_append.mp hm with hm | hm
      · exact hnot (List.mem_cons_of_mem a hm)
      · exact hk0 (List.mem_singleton.mp hm))
  rw [h2, Function.update_comm hka] at hin
  rw [h1]
  rw [← List.cons_append, ← List.cons_append] at hin
  simpa using hin.rotate (k :: a :: t)

theorem Pool.toFront (h : Pool s l chains) (hk : Header k) :
    Pool (s.toFront k) (k :: l.erase k) chains := by
  have hmem := h.mem_lru.mpr hk
  refine ⟨ring_toFront h.ring hmem ?_, ?_, h.linked, h.backed, h.mem, h.once⟩
  · rintro rfl
    have hlen := h.perm.length_eq
    rw [List.length_range', List.length_singleton] at hlen
    exact absurd hlen (by decide)
  · exact (List.perm_cons_erase hmem).symm.trans h.perm

theorem Pool.chain_pos (h : Pool s l chains) {c : Fin 128} (hk : k ∈ chains c) : k ≠ 0 :=
  (h.linked.chain c).ne_zero hk

/-- The state where header `k` is not in use. -/
def State.free (s : State α) (k : Nat) : State α :=
  { s with
    inuse := Function.update s.inuse k false
    modify := Function.update s.modify k false }

theorem Pool.unhash (h : Pool s l chains) (hk : Header k) (hu : s.inuse k = true) :
    Pool ((s.unhash k).free k) l
      (Function.update chains (s.class k) ((chains (s.class k)).erase k)) := by
  have hmem : k ∈ chains (s.class k) := (h.mem _ k).mpr ⟨hk, hu, rfl⟩
  obtain ⟨l₁, l₂, hl⟩ := List.append_of_mem hmem
  have hc := h.linked.chain (s.class k)
  have hb := h.backed (s.class k)
  rw [hl] at hc hb
  have hnd := hc.nodup
  have hk₁ : k ∉ l₁ := fun hm => (List.nodup_append.mp hnd).2.2 k hm k List.mem_cons_self rfl
  have hpos : ∀ j ∈ l₁, j ≠ 0 := fun j hj => hc.ne_zero (List.mem_append_left _ hj)
  have hcut := h.linked.cut hl
  have herase : (chains (s.class k)).erase k = l₁ ++ l₂ := by
    rw [hl, List.erase_append_right _ hk₁, List.erase_cons_head]
  have hprev := hb.prev_eq
  have hnext := hc.next_eq
  have hun : (s.unhash k).hnext = unlinkNext s.hnext l₁.getLast? k ∧
      (s.unhash k).bhash = unlinkHead s.bhash (s.class k) l₁.getLast? (s.hnext k) := by
    change (if s.hprev k = 0 then _ else _) = _ ∧ (if s.hprev k = 0 then _ else _) = _
    cases hg : l₁.getLast? with
    | none =>
      rw [hg] at hprev
      have hp : s.hprev k = 0 := hprev
      rw [if_pos hp, if_pos hp]
      exact ⟨rfl, rfl⟩
    | some p =>
      rw [hg] at hprev
      have hp : s.hprev k = p := hprev
      have hp0 : s.hprev k ≠ 0 := by
        rw [hp]
        exact hpos p (List.mem_of_getLast? hg)
      rw [if_neg hp0, if_neg hp0, hp]
      exact ⟨rfl, rfl⟩
  refine ⟨h.ring, h.perm, ?_, fun c => ?_, fun c j => ?_, fun i j hi hj hui huj => ?_⟩
  · rw [herase]
    change Linked (s.unhash k).hnext (s.unhash k).bhash _
    rw [hun.1, hun.2]
    exact hcut
  · change Backed (Function.update s.hprev (s.hnext k) (s.hprev k)) 0 _
    rw [hnext]
    by_cases hcc : c = s.class k
    · rw [hcc, Function.update_self, herase]
      exact hb.cut hnd hpos
    · rw [Function.update_of_ne hcc]
      refine (h.backed c).update (fun hm => ?_) _
      cases l₂ with
      | nil => exact h.chain_pos hm rfl
      | cons j l₂ =>
        exact hcc (h.linked.disjoint hm (by rw [hl]; simp))
  · rw [h.linked.mem_erase hmem, h.mem]
    change _ ↔ Header j ∧ Function.update s.inuse k false j = true ∧ s.class j = c
    by_cases hj : j = k
    · subst hj
      rw [Function.update_self]
      exact ⟨fun hx => absurd rfl hx.2, fun hx => Bool.noConfusion hx.2.1⟩
    · rw [Function.update_of_ne hj]
      exact ⟨fun hx => hx.1, fun hx => ⟨hx, hj⟩⟩
  · change Function.update s.inuse k false i = true at hui
    change Function.update s.inuse k false j = true at huj
    have hne : ∀ i, Function.update s.inuse k false i = true → s.inuse i = true := by
      intro i hi
      by_cases hik : i = k
      · rw [hik, Function.update_self] at hi
        exact Bool.noConfusion hi
      · rwa [Function.update_of_ne hik] at hi
    exact h.once i j hi hj (hne i hui) (hne j huj)

theorem Pool.enter (h : Pool s l chains) (hk : Header k) (hu : s.inuse k = false) (vol : Nat)
    (bn : Fdaddr) (hnew : ∀ j, Header j → s.inuse j = true → ¬(s.vol j = vol ∧ s.bn j = bn))
    (update : Bool) :
    Pool (s.enter k vol bn update) l
      (Function.update chains (hash vol bn) (k :: chains (hash vol bn))) := by
  have hfree : ∀ c, k ∉ chains c := by
    intro c hm
    rw [h.mem, hu] at hm
    exact Bool.noConfusion hm.2.1
  have hk0 : k ≠ 0 := hk.1.ne'
  have hclass : ∀ j, j ≠ k → (s.enter k vol bn update).class j = s.class j := by
    intro j hj
    change hash (Function.update s.vol k vol j) (Function.update s.bn k bn j) = _
    rw [Function.update_of_ne hj, Function.update_of_ne hj]
    rfl
  have hself : (s.enter k vol bn update).class k = hash vol bn := by
    change hash (Function.update s.vol k vol k) (Function.update s.bn k bn k) = _
    rw [Function.update_self, Function.update_self]
  have hother : ∀ j, j ≠ k → (s.enter k vol bn update).inuse j = s.inuse j ∧
      (s.enter k vol bn update).vol j = s.vol j ∧ (s.enter k vol bn update).bn j = s.bn j :=
    fun j hj => ⟨Function.update_of_ne hj _ _, Function.update_of_ne hj _ _,
      Function.update_of_ne hj _ _⟩
  have hkself : (s.enter k vol bn update).inuse k = true ∧
      (s.enter k vol bn update).vol k = vol ∧ (s.enter k vol bn update).bn k = bn :=
    ⟨Function.update_self _ _ _, Function.update_self _ _ _, Function.update_self _ _ _⟩
  refine ⟨h.ring, h.perm, h.linked.push hk0 hfree _, fun c => ?_, fun c j => ?_,
    fun i j hi hj hui huj hv hb => ?_⟩
  · have hhead := (h.linked.chain (hash vol bn)).head_eq
    change Backed (Function.update (Function.update s.hprev k 0) (s.bhash (hash vol bn)) k) 0 _
    rw [hhead]
    by_cases hc : c = hash vol bn
    · rw [hc, Function.update_self]
      exact (h.backed _).push (hfree _) (h.linked.chain _).nodup hk0
    · rw [Function.update_of_ne hc]
      refine ((h.backed c).update (hfree c) _).update (fun hm => ?_) _
      cases hl : chains (hash vol bn) with
      | nil =>
        rw [hl] at hm
        exact h.chain_pos hm rfl
      | cons j t =>
        rw [hl] at hm
        exact hc (h.linked.disjoint hm (by rw [hl]; exact List.mem_cons_self))
  · by_cases hj : j = k
    · subst hj
      rw [hself, hkself.1]
      by_cases hc : c = hash vol bn
      · rw [hc, Function.update_self]
        exact ⟨fun _ => ⟨hk, rfl, rfl⟩, fun _ => List.mem_cons_self⟩
      · rw [Function.update_of_ne hc]
        exact ⟨fun hm => absurd hm (hfree c), fun hm => absurd hm.2.2.symm hc⟩
    · rw [hclass j hj, (hother j hj).1, ← h.mem]
      by_cases hc : c = hash vol bn
      · rw [hc, Function.update_self, List.mem_cons]
        exact ⟨fun hm => hm.resolve_left hj, .inr⟩
      · rw [Function.update_of_ne hc]
  · by_cases hik : i = k <;> by_cases hjk : j = k
    · rw [hik, hjk]
    · subst hik
      rw [hkself.2.1, (hother j hjk).2.1] at hv
      rw [hkself.2.2, (hother j hjk).2.2] at hb
      rw [(hother j hjk).1] at huj
      exact absurd ⟨hv.symm, hb.symm⟩ (hnew j hj huj)
    · subst hjk
      rw [hkself.2.1, (hother i hik).2.1] at hv
      rw [hkself.2.2, (hother i hik).2.2] at hb
      rw [(hother i hik).1] at hui
      exact absurd ⟨hv, hb⟩ (hnew i hi hui)
    · rw [(hother i hik).2.1, (hother j hjk).2.1] at hv
      rw [(hother i hik).2.2, (hother j hjk).2.2] at hb
      rw [(hother i hik).1] at hui
      rw [(hother j hjk).1] at huj
      exact h.once i j hi hj hui huj hv hb

/-! ## bread -/

theorem Pool.length_lt (h : Pool s l chains) (c : Fin 128) : (chains c).length < nbufpool := by
  have hsub : (chains c).Subperm (List.range' 1 127) := by
    refine (h.linked.chain c).nodup.subperm fun k hk => ?_
    obtain ⟨⟨h1, h2⟩, -⟩ := (h.mem c k).mp hk
    exact List.mem_range'_1.mpr ⟨h1, h2⟩
  have hlen := hsub.length_le
  rw [List.length_range'] at hlen
  exact Nat.lt_succ_of_le hlen

/-- Header `k` is in use for a page. -/
def State.Holds (s : State α) (k vol : Nat) (bn : Fdaddr) : Prop :=
  Header k ∧ s.inuse k = true ∧ s.vol k = vol ∧ s.bn k = bn

/-- The search of a hash chain finds the header of the page, or none has it. -/
theorem Pool.lookup (h : Pool s l chains) (vol : Nat) (bn : Fdaddr) :
    ∃ j, find s.hnext (fun k => s.bn k = bn && s.vol k = vol) nbufpool (s.bhash (hash vol bn)) =
      some j ∧ (j ≠ 0 ∧ s.Holds j vol bn ∨ j = 0 ∧ ∀ k, ¬s.Holds k vol bn) := by
  refine ⟨_, find_eq (h.linked.chain (hash vol bn)) (h.length_lt _), ?_⟩
  cases hf : (chains (hash vol bn)).find? fun k => s.bn k = bn && s.vol k = vol with
  | some j =>
    have hp := List.find?_some hf
    obtain ⟨hj, hu, -⟩ := (h.mem _ j).mp (List.mem_of_find?_eq_some hf)
    simp only [Bool.and_eq_true, decide_eq_true_eq] at hp
    exact .inl ⟨hj.1.ne', hj, hu, hp.2, hp.1⟩
  | none =>
    refine .inr ⟨rfl, ?_⟩
    rintro k ⟨hk, hu, hv, hb⟩
    have hmem : k ∈ chains (hash vol bn) := by
      refine (h.mem _ k).mpr ⟨hk, hu, ?_⟩
      rw [State.class, hv, hb]
    have hno := List.find?_eq_none.mp hf k hmem
    simp [hv, hb] at hno

/-- Header `k` is made free for another page: written out and off its chain. -/
def State.evict (s : State α) (v : Vopen) (k : Nat) : State α :=
  let s := s.toFront k
  let s := if s.inuse k && s.modify k then
      s.writeOut (k - 1) (s.vol k) (s.bn k).addr (v.length (s.vol k) (s.bn k)) none
    else s
  if s.inuse k then s.unhash k else s

/-- What a call of `bread` comes to. -/
inductive Outcome (v : Vopen) (s : State α) (vol : Nat) (bn : Fdaddr) (update : Bool) (io : Io α) :
    State α → Except Int Nat → Prop
  | bad : Outcome v s vol bn update io s (.error minorError)
  | found {j : Nat} (hj : s.Holds j vol bn) : Outcome v s vol bn update io
      { s.toFront j with modify := Function.update s.modify j (s.modify j || update) } (.ok (j - 1))
  | unwritten {k : Nat} {g : Nat → α} (hk : Header k) (hu : s.inuse k = true)
      (hm : s.modify k = true) : Outcome v s vol bn update io
        ((s.toFront k).writeOut (k - 1) (s.vol k) (s.bn k).addr (v.length (s.vol k) (s.bn k))
          (some g)) (.error minorError)
  | fetched (hno : ∀ k, ¬s.Holds k vol bn) : Outcome v s vol bn update io
      (((s.evict v (s.prev 0)).enter (s.prev 0) vol bn update).readIn (s.prev 0 - 1) vol bn.addr
        (v.length vol bn) io.read)
      (if io.read.isSome then .error minorError else .ok (s.prev 0 - 1))

theorem Pool.bread (h : Pool s l chains) (v : Vopen) (vol : Nat) (bn : Fdaddr) (update : Bool)
    (io : Io α) :
    ∃ s' r, s.bread v vol bn update io = some (s', r) ∧ Outcome v s vol bn update io s' r := by
  obtain ⟨j, hfind, hcases⟩ := h.lookup vol bn
  have hk := h.victim
  unfold State.bread
  dsimp only
  split
  · exact ⟨s, _, rfl, .bad⟩
  rw [hfind]
  dsimp only
  rcases hcases with ⟨hj0, hj⟩ | ⟨rfl, hno⟩
  · rw [if_pos hj0, if_pos hj0]
    exact ⟨_, _, rfl, .found hj⟩
  simp only [ne_eq, not_true_eq_false, if_false]
  have hk1 : s.prev 0 - 1 + 1 = s.prev 0 := Nat.sub_add_cancel hk.1
  by_cases hd : (s.inuse (s.prev 0) && s.modify (s.prev 0)) = true
  · obtain ⟨hu, hm⟩ := Bool.and_eq_true_iff.mp hd
    have hflush : (s.toFront (s.prev 0)).bflush v (s.prev 0 - 1) io.write =
        ((s.toFront (s.prev 0)).writeOut (s.prev 0 - 1) (s.vol (s.prev 0)) (s.bn (s.prev 0)).addr
          (v.length (s.vol (s.prev 0)) (s.bn (s.prev 0))) io.write,
          if io.write.isSome then minorError else 0) := by
      unfold State.bflush
      dsimp only
      rw [hk1]
      exact if_neg fun hf => Bool.false_ne_true (hf.symm.trans hm)
    rw [if_pos (show ((s.toFront (s.prev 0)).inuse (s.prev 0) &&
      (s.toFront (s.prev 0)).modify (s.prev 0)) = true from hd), hflush]
    dsimp only
    cases hw : io.write with
    | some g =>
      have hrc : ¬(if (some g).isSome = true then minorError else 0) = 0 :=
        show minorError ≠ 0 by decide
      rw [if_pos hrc]
      exact ⟨_, _, rfl, .unwritten hk hu hm⟩
    | none =>
      have hfetched : Outcome v s vol bn update io _ _ := .fetched hno
      unfold State.evict at hfetched
      dsimp only at hfetched
      rw [if_pos (show ((s.toFront (s.prev 0)).inuse (s.prev 0) &&
        (s.toFront (s.prev 0)).modify (s.prev 0)) = true from hd)] at hfetched
      exact ⟨_, _, rfl, hfetched⟩
  · have hfetched : Outcome v s vol bn update io _ _ := .fetched hno
    unfold State.evict at hfetched
    dsimp only at hfetched
    rw [if_neg (show ¬((s.toFront (s.prev 0)).inuse (s.prev 0) &&
      (s.toFront (s.prev 0)).modify (s.prev 0)) = true from hd)] at hfetched ⊢
    exact ⟨_, _, rfl, hfetched⟩

theorem Pool.congr {t : State α} (h : Pool s l chains) (hn : t.next = s.next)
    (hp : t.prev = s.prev) (hh : t.hnext = s.hnext) (hq : t.hprev = s.hprev)
    (hb : t.bhash = s.bhash) (hu : t.inuse = s.inuse) (hv : t.vol = s.vol) (hbn : t.bn = s.bn) :
    Pool t l chains := by
  have hclass : ∀ k, t.class k = s.class k := fun k => by rw [State.class, State.class, hv, hbn]
  refine ⟨?_, h.perm, ?_, ?_, ?_, ?_⟩
  · rw [hn, hp]
    exact h.ring
  · rw [hh, hb]
    exact h.linked
  · rw [hq]
    exact h.backed
  · intro c k
    rw [hu, hclass]
    exact h.mem c k
  · rw [hu, hv, hbn]
    exact h.once

theorem Pool.writeOut (h : Pool s l chains) (buf vol a n : Nat) (w : Option (Nat → α)) :
    Pool (s.writeOut buf vol a n w) l chains :=
  h.congr rfl rfl rfl rfl rfl rfl rfl rfl

/-- The victim, off its chain. -/
theorem Pool.evict (h : Pool s l chains) (v : Vopen) (hk : Header k) :
    ∃ chains', Pool ((s.evict v k).free k) (k :: l.erase k) chains' := by
  have hfront := h.toFront hk
  unfold State.evict
  dsimp only
  generalize ht : (if ((s.toFront k).inuse k && (s.toFront k).modify k) = true then
    (s.toFront k).writeOut (k - 1) ((s.toFront k).vol k) ((s.toFront k).bn k).addr
      (v.length ((s.toFront k).vol k) ((s.toFront k).bn k)) none
    else s.toFront k) = t
  have hpool : Pool t (k :: l.erase k) chains := by
    rw [← ht]
    split
    · exact hfront.writeOut _ _ _ _ _
    · exact hfront
  by_cases hu : t.inuse k = true
  · rw [if_pos hu]
    exact ⟨_, hpool.unhash hk hu⟩
  · rw [if_neg hu]
    refine ⟨_, hpool.congr rfl rfl rfl rfl rfl ?_ rfl rfl⟩
    change Function.update t.inuse k false = t.inuse
    rw [← Bool.eq_false_iff.mpr hu, Function.update_eq_self]

/-- What the header of the victim leaves of the others. -/
theorem evict_fields (s : State α) (v : Vopen) (k : Nat) : (s.evict v k).inuse = s.inuse ∧
    (s.evict v k).modify = s.modify ∧ (s.evict v k).vol = s.vol ∧ (s.evict v k).bn = s.bn ∧
    (s.evict v k).buffer = s.buffer := by
  unfold State.evict
  dsimp only
  split <;> split <;> exact ⟨rfl, rfl, rfl, rfl, rfl⟩

theorem enter_free (s : State α) (k vol : Nat) (bn : Fdaddr) (update : Bool) :
    (s.free k).enter k vol bn update = s.enter k vol bn update := by
  unfold State.enter State.free
  dsimp only
  rw [Function.update_idem, Function.update_idem]

theorem Outcome.pool {v : Vopen} {vol : Nat} {bn : Fdaddr} {update : Bool} {io : Io α}
    {s' : State α} {r : Except Int Nat} (ho : Outcome v s vol bn update io s' r)
    (h : Pool s l chains) : ∃ l' chains', Pool s' l' chains' := by
  cases ho with
  | bad => exact ⟨l, chains, h⟩
  | found hj => exact ⟨_, _, (h.toFront hj.1).congr rfl rfl rfl rfl rfl rfl rfl rfl⟩
  | unwritten hk => exact ⟨_, _, (h.toFront hk).writeOut _ _ _ _ _⟩
  | fetched hno =>
    have hk := h.victim
    obtain ⟨chains', hout⟩ := h.evict v hk
    obtain ⟨hinuse, -, hvol, hbn, -⟩ := evict_fields s v (s.prev 0)
    have hin := hout.enter hk (Function.update_self _ _ _) vol bn (by
      rintro j hj hu ⟨hv, hb⟩
      refine hno j ⟨hj, ?_, ?_, ?_⟩
      · change Function.update (s.evict v (s.prev 0)).inuse (s.prev 0) false j = true at hu
        rw [hinuse] at hu
        by_cases hjk : j = s.prev 0
        · rw [hjk, Function.update_self] at hu
          exact Bool.noConfusion hu
        · rwa [Function.update_of_ne hjk] at hu
      · rw [← hvol]
        exact hv
      · rw [← hbn]
        exact hb) update
    rw [enter_free] at hin
    exact ⟨_, _, hin.congr rfl rfl rfl rfl rfl rfl rfl rfl⟩

theorem Pool.bflush (h : Pool s l chains) (v : Vopen) (buf : Nat) (w : Option (Nat → α)) :
    Pool (s.bflush v buf w).1 l chains := by
  unfold State.bflush
  dsimp only
  split
  · exact h
  · exact h.writeOut _ _ _ _ _

theorem initPool_pool (disk buffer : Nat → Nat → α) :
    Pool (State.initPool disk buffer) (List.range' 1 127) fun _ => [] := by
  refine ⟨?_, .refl _, ⟨fun _ => rfl, fun hk => absurd hk List.not_mem_nil⟩, fun _ => trivial,
    fun c k => ?_, fun j k _ _ hu => Bool.noConfusion hu⟩
  · have hrow : (0 :: List.range' 1 127) = List.range 128 := by
      rw [List.range_eq_range']
      exact (@List.range'_succ 0 127 1).symm
    have hlast : (0 :: List.range' 1 127).getLast (by simp) = 127 := by
      have hsome : (0 :: List.range' 1 127).getLast? = some 127 := by
        rw [hrow, List.getLast?_range]
        rfl
      exact (List.getLast_eq_iff_getLast?_eq_some (by simp)).mpr hsome
    refine IsRing.iff_inner.mpr ⟨hrow ▸ List.nodup_range, ?_, ?_⟩
    · rw [hrow]
      refine (List.isChain_range_succ _ 127).mpr fun m hm => ⟨?_, ?_⟩
      · change (if m = nbufpool - 1 then 0 else if m < nbufpool then m + 1 else 0) = m + 1
        unfold nbufpool
        rw [if_neg (by omega), if_pos (by omega)]
      · change (if m + 1 = 0 then nbufpool - 1 else m + 1 - 1) = m
        rw [if_neg (Nat.succ_ne_zero m), Nat.add_sub_cancel]
    · rw [hlast]
      exact ⟨rfl, rfl⟩
  · exact ⟨fun hk => absurd hk List.not_mem_nil, fun hk => Bool.noConfusion hk.2.1⟩

end Aix413.Logredo.BufferPool
