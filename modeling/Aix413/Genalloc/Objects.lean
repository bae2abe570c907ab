import Aix413.Genalloc.Table
import Aix413.Lib.LinkedPool

namespace Aix413.Genalloc

open Aix413.Lib.ByteMemory Aix413.Lib.LinkedPool

variable {s s' : State} {m m' : Memory} {a i j k n osz table : Nat} {froff : Int} {l out : List Nat}

theorem ptr_toNat (h : a < 2 ^ 32) : (ptr a).toNat = a := by
  rw [ptr, BitVec.toNat_ofNat, Nat.mod_eq_of_lt h]

/-! ## The pages that the next objects take -/

/-- Clearing the low bits takes off no more than the mask. -/
theorem round_down (x y : BitVec 32) :
    (x &&& ~~~y).toNat ≤ x.toNat ∧ x.toNat ≤ (x &&& ~~~y).toNat + y.toNat := by
  have hsum : (x &&& y) + (x &&& ~~~y) = x := by
    rw [BitVec.add_eq_or_of_and_eq_zero]
    · ext k hk
      simp only [BitVec.getElem_or, BitVec.getElem_and, BitVec.getElem_not]
      cases x[k] <;> cases y[k] <;> rfl
    · ext k hk
      simp only [BitVec.getElem_and, BitVec.getElem_not, BitVec.getElem_zero]
      cases x[k] <;> cases y[k] <;> rfl
  have hle : (x &&& ~~~y).toNat ≤ x.toNat := by
    rw [BitVec.toNat_and]
    exact Nat.and_le_left
  have hmask : (x &&& y).toNat ≤ y.toNat := by
    rw [BitVec.toNat_and]
    exact Nat.and_le_right
  have hnat := congrArg BitVec.toNat hsum
  rw [BitVec.toNat_add] at hnat
  have hx := x.isLt
  omega

/-- There is always room for an object before the end of the table, and no more than is there. -/
theorem nalloc_bounds (hend : s.eotbl ≤ segsize) (hosz : s.osz ≤ segsize) (hpos : 0 < s.osz)
    (hroom : s.hiwater + s.osz ≤ s.eotbl) :
    s.osz ≤ s.nalloc ∧ s.nalloc ≤ (s.eotbl - s.hiwater : Nat) := by
  unfold segsize at hend hosz
  unfold State.nalloc
  dsimp only
  generalize hsz : max pagesize s.osz = sz
  have hsz1 : s.osz ≤ sz ∧ sz ≤ 2 ^ 28 := by
    unfold pagesize at hsz
    omega
  have hx : (ptr s.hiwater + ptr (sz - 1)).toNat = s.hiwater + (sz - 1) := by
    rw [BitVec.toNat_add, ptr_toNat (by omega), ptr_toNat (by omega), Nat.mod_eq_of_lt (by omega)]
  obtain ⟨h1, h2⟩ := round_down (ptr s.hiwater + ptr (sz - 1)) (ptr (sz - 1))
  rw [hx, ptr_toNat (by omega)] at h2
  rw [hx] at h1
  generalize ((ptr s.hiwater + ptr (sz - 1)) &&& ~~~ptr (sz - 1)) = pb at h1 h2
  have hpages : (pb + ptr sz - ptr s.hiwater).toInt = pb.toNat + sz - s.hiwater := by
    have hnat : (pb + ptr sz - ptr s.hiwater).toNat = pb.toNat + sz - s.hiwater := by
      rw [BitVec.toNat_sub, BitVec.toNat_add, ptr_toNat (show sz < 2 ^ 32 by omega),
        ptr_toNat (show s.hiwater < 2 ^ 32 by omega)]
      omega
    rw [BitVec.toInt_eq_toNat_of_lt (by omega), hnat]
    omega
  have hfree : (ptr s.eotbl - ptr s.hiwater).toInt = s.eotbl - s.hiwater := by
    have hnat : (ptr s.eotbl - ptr s.hiwater).toNat = s.eotbl - s.hiwater := by
      rw [BitVec.toNat_sub, ptr_toNat (show s.eotbl < 2 ^ 32 by omega),
        ptr_toNat (show s.hiwater < 2 ^ 32 by omega)]
      omega
    rw [BitVec.toInt_eq_toNat_of_lt (by omega), hnat]
    omega
  rw [hpages, hfree]
  omega

/-! ## Free lists -/

/-- The link of a free object. -/
def next (froff : Int) (m : Memory) (a : Nat) : Nat := (load m (fpOf froff a)).toNat

/-- The objects from number `i` on. -/
def objects (table osz i n : Nat) : List Nat := (List.range' i n).map fun k => table + k * osz

theorem mem_objects : a ∈ objects table osz i n ↔ ∃ k, i ≤ k ∧ k < i + n ∧ a = table + k * osz := by
  unfold objects
  rw [List.mem_map]
  simp only [List.mem_range'_1]
  constructor
  · rintro ⟨k, ⟨h1, h2⟩, rfl⟩
    exact ⟨k, h1, h2, rfl⟩
  · rintro ⟨k, h1, h2, rfl⟩
    exact ⟨k, ⟨h1, h2⟩, rfl⟩

theorem objects_nodup (h : 0 < osz) : (objects table osz i n).Nodup := by
  refine List.Nodup.map (fun j k he => ?_) List.nodup_range'
  exact Nat.eq_of_mul_eq_mul_right h (Nat.add_left_cancel he)

theorem objects_add (table osz i k n : Nat) :
    objects table osz i (k + n) = objects table osz i k ++ objects table osz (i + k) n := by
  unfold objects
  rw [← List.map_append, ← List.range'_append, Nat.one_mul]

theorem objects_length : (objects table osz i n).length = n := by
  rw [objects, List.length_map, List.length_range']

/-- Two objects do not overlap. -/
theorem objects_apart (table osz : Nat) (h : j ≠ k) :
    table + j * osz + osz ≤ table + k * osz ∨ table + k * osz + osz ≤ table + j * osz := by
  rcases Nat.lt_or_gt_of_ne h with hlt | hlt
  · have hm := Nat.mul_le_mul_right osz (Nat.succ_le_of_lt hlt)
    rw [Nat.succ_mul] at hm
    omega
  · have hm := Nat.mul_le_mul_right osz (Nat.succ_le_of_lt hlt)
    rw [Nat.succ_mul] at hm
    omega

theorem linkLoop_spec (froff : Int) (h4 : 4 ≤ osz) : ∀ {n : Nat} (m : Memory) (a : Nat),
    a + n * osz < 2 ^ 32 →
    (linkLoop osz froff n m a).2 = a + n * osz ∧
    (∀ j < n, next froff (linkLoop osz froff n m a).1 (a + j * osz) = a + (j + 1) * osz) ∧
    ∀ x : Int, x + 4 ≤ fpOf froff a → load (linkLoop osz froff n m a).1 x = load m x := by
  intro n
  induction n with
  | zero =>
    intro m a _
    exact ⟨by rw [Nat.zero_mul]; rfl, fun j hj => absurd hj (Nat.not_lt_zero j), fun _ _ => rfl⟩
  | succ n ih =>
    intro m a hlt
    rw [Nat.succ_mul] at hlt
    obtain ⟨h1, h2, h3⟩ := ih (store m (fpOf froff a) (ptr (a + osz))) (a + osz) (by omega)
    rw [linkLoop]
    refine ⟨by rw [h1, Nat.succ_mul]; omega, fun j hj => ?_, fun x hx => ?_⟩
    · cases j with
      | zero =>
        rw [Nat.zero_mul, Nat.zero_add, Nat.one_mul, Nat.add_zero, next, h3, load_store,
          ptr_toNat (by omega)]
        unfold fpOf
        omega
      | succ j =>
        have hj' := h2 j (by omega)
        rw [Nat.succ_mul, show a + (j * osz + osz) = a + osz + j * osz by omega, hj',
          Nat.succ_mul (j + 1)]
        omega
    · rw [h3 x (by unfold fpOf at hx ⊢; omega), load_store_of_far (by omega)]

theorem chain_objects {f : Nat → Nat} (ht : 0 < table) : ∀ {n i : Nat},
    (∀ j, i ≤ j → j < i + n → f (table + j * osz) = table + (j + 1) * osz) →
    f (table + (i + n) * osz) = 0 → Chain f (table + i * osz) (objects table osz i (n + 1)) := by
  intro n
  induction n with
  | zero =>
    intro i _ hend
    exact ⟨rfl, (Nat.add_pos_left ht _).ne', hend⟩
  | succ n ih =>
    intro i hrow hend
    refine ⟨rfl, (Nat.add_pos_left ht _).ne', ?_⟩
    rw [hrow i le_rfl (by omega)]
    refine ih (fun j h1 h2 => hrow j (by omega) (by omega)) ?_
    rwa [show i + 1 + n = i + (n + 1) by omega]

/-- A new free list. -/
theorem freelist_chain (froff : Int) (h4 : 4 ≤ osz) (ht : 0 < table) (m : Memory) (n : Nat)
    (hlt : table + (i + (n - 1) + 1) * osz < 2 ^ 32) :
    (freelist osz froff n m (table + i * osz)).2 = table + (i + (n - 1) + 1) * osz ∧
    Chain (next froff (freelist osz froff n m (table + i * osz)).1) (table + i * osz)
      (objects table osz i (n - 1 + 1)) := by
  generalize hk : n - 1 = k at *
  have hlast : table + i * osz + k * osz = table + (i + k) * osz := by rw [Nat.add_mul]; omega
  rw [Nat.succ_mul] at hlt
  obtain ⟨h1, h2, -⟩ := linkLoop_spec froff h4 (n := k) m (table + i * osz) (by omega)
  rw [hlast] at h1
  have hrun : freelist osz froff n m (table + i * osz) =
      (store (linkLoop osz froff k m (table + i * osz)).1 (fpOf froff (table + (i + k) * osz)) 0,
        table + (i + k) * osz + osz) := by
    rw [freelist, hk, ← h1]
  rw [hrun]
  refine ⟨by rw [Nat.succ_mul]; exact Nat.add_assoc _ _ _,
    chain_objects ht (fun j hj1 hj2 => ?_) ?_⟩
  · -- the last link is behind the others
    obtain ⟨d, rfl⟩ := Nat.exists_eq_add_of_le hj1
    have hd : d < k := by omega
    have hlink := h2 d hd
    have hapart := objects_apart table osz (show i + d ≠ i + k by omega)
    have hobj : table + i * osz + d * osz = table + (i + d) * osz := by rw [Nat.add_mul]; omega
    rw [hobj] at hlink
    unfold next at hlink ⊢
    rw [load_store_of_far (by unfold fpOf; omega), hlink, show i + d + 1 = i + (d + 1) by omega,
      Nat.add_mul i]
    omega
  · rw [next, load_store]
    rfl

/-! ## The run of a table -/

/-- The calls of `genalloc`, those of `genfree` on outstanding objects, and writes to outstanding
objects by their owners. The writes need the link to be inside the object. -/
inductive Run (s₀ : State) : State → List Nat → Prop
  | start : Run s₀ s₀ []
  | alloc {s s' : State} {out : List Nat} {a : Nat} (h : Run s₀ s out)
      (hrun : s.genalloc = (s', a)) (ha : a ≠ 0) : Run s₀ s' (a :: out)
  | full {s s' : State} {out : List Nat} (h : Run s₀ s out) (hrun : s.genalloc = (s', 0)) :
      Run s₀ s' out
  | free {s : State} {out : List Nat} {a : Nat} (h : Run s₀ s out) (ha : a ∈ out) :
      Run s₀ (s.genfree a) (out.erase a)
  | write {s : State} {out : List Nat} {a : Nat} {m : Memory} (h : Run s₀ s out) (ha : a ∈ out)
      (hoff : 0 ≤ s.froff ∧ s.froff + 4 ≤ s.osz)
      (hm : ∀ x : Int, (x < a ∨ a + s.osz ≤ x) → m x = s.mem x) :
      Run s₀ { s with mem := m } out

/-- What holds between two calls: the first `n` objects are in use or on the free list. -/
structure Inv (base size N : Nat) (s : State) (out l : List Nat) (n : Nat) : Prop where
  table : s.table = base
  osz : s.osz = size
  eotbl : s.eotbl = base + N * size
  hiwater : s.hiwater = base + n * size
  count : n ≤ N
  chain : Chain (next s.froff s.mem) s.head l
  perm : (l ++ out).Perm (objects base size 0 n)

variable {N : Nat}

theorem Inv.number (h : Inv table osz N s out l n) (ha : a ∈ l ++ out) :
    ∃ k < n, a = table + k * osz := by
  obtain ⟨k, -, hk, he⟩ := mem_objects.mp (h.perm.subset ha)
  rw [Nat.zero_add] at hk
  exact ⟨k, hk, he⟩

theorem Inv.nodup (h : Inv table osz N s out l n) (hpos : 0 < osz) : (l ++ out).Nodup :=
  h.perm.nodup_iff.mpr (objects_nodup hpos)

/-- Objects in the table do not overlap. -/
theorem Inv.apart {b : Nat} (h : Inv table osz N s out l n) (ha : a ∈ l ++ out) (hb : b ∈ l ++ out)
    (hne : a ≠ b) : a + osz ≤ b ∨ b + osz ≤ a := by
  obtain ⟨j, -, rfl⟩ := h.number ha
  obtain ⟨k, -, rfl⟩ := h.number hb
  exact objects_apart table osz fun hjk => hne (by rw [hjk])

/-- A write to the link of one object leaves the links of the others alone. -/
theorem Inv.next_store {b : Nat} (h : Inv table osz N s out l n) (h4 : 4 ≤ osz)
    (ha : a ∈ l ++ out) (hb : b ∈ l ++ out) (hne : b ≠ a) (w : BitVec 32) :
    next s.froff (store s.mem (fpOf s.froff a) w) b = next s.froff s.mem b := by
  have hapart := h.apart hb ha hne
  unfold next
  rw [load_store_of_far (by unfold fpOf; omega)]

/-- An object leaves the free list. -/
theorem Inv.pop (h : Inv table osz N s out (a :: l) n) (h4 : 4 ≤ osz) :
    s.pop.2 = a ∧ Inv table osz N s.pop.1 (a :: out) l n := by
  obtain ⟨hhead, -, hc⟩ := h.chain
  have hnd := h.nodup (by omega)
  rw [List.cons_append, List.nodup_cons, List.mem_append, not_or] at hnd
  have hpop : s.pop = ({ s with
      head := next s.froff s.mem a
      mem := store s.mem (fpOf s.froff a) 0 }, a) := by
    unfold State.pop
    rw [hhead]
    rfl
  rw [hpop]
  refine ⟨rfl, h.table, h.osz, h.eotbl, h.hiwater, h.count, hc.congr fun b hb => ?_, ?_⟩
  · exact h.next_store h4 List.mem_cons_self
      (List.mem_append_left _ (List.mem_cons_of_mem a hb)) (fun he => hnd.1.1 (he ▸ hb)) 0
  · exact List.perm_middle.trans h.perm

/-- Only the calls that find the whole table in use fail. -/
theorem Inv.genalloc (h : Inv table s.osz N s out l n) (h4 : 4 ≤ s.osz) (ht : 0 < table)
    (hend : table + N * s.osz ≤ segsize) :
    (s.genalloc.2 = 0 ∧ s.genalloc.1 = s ∧ out.length = N) ∨
      ∃ a l' n', s.genalloc.2 = a ∧ a ≠ 0 ∧ Inv table s.osz N s.genalloc.1 (a :: out) l' n' := by
  unfold State.genalloc
  cases l with
  | cons a l =>
    obtain ⟨hhead, ha, -⟩ := h.chain
    obtain ⟨h1, h2⟩ := h.pop h4
    rw [if_pos (hhead.symm ▸ ha)]
    exact .inr ⟨a, l, n, h1, ha, h2⟩
  | nil =>
    have hhead : s.head = 0 := h.chain
    have hall : out.length = n := by
      have hlen := h.perm.length_eq
      rw [objects_length] at hlen
      exact hlen
    rw [if_neg (not_not.mpr hhead)]
    by_cases hfull : s.eotbl ≤ s.hiwater
    · rw [if_pos hfull]
      refine .inl ⟨rfl, rfl, ?_⟩
      rw [h.eotbl, h.hiwater] at hfull
      have hle := Nat.le_of_mul_le_mul_right (Nat.le_of_add_le_add_left hfull) (by omega)
      have hcount := h.count
      omega
    rw [if_neg hfull]
    -- there is room for one object more
    have hlt : n < N := by
      by_contra hge
      have hle := Nat.mul_le_mul_right s.osz (not_lt.mp hge)
      rw [h.eotbl, h.hiwater] at hfull
      omega
    have hstep := Nat.mul_le_mul_right s.osz (Nat.succ_le_of_lt hlt)
    rw [Nat.succ_mul] at hstep
    obtain ⟨hlo, hhi⟩ := nalloc_bounds (s := s) (by rw [h.eotbl]; exact hend)
      (by omega) (by omega) (by rw [h.hiwater, h.eotbl]; omega)
    rw [if_neg (not_lt.mpr hlo)]
    rw [h.eotbl, h.hiwater] at hhi
    generalize hna : s.nalloc.toNat = nalloc
    have hk : 0 < nalloc / s.osz := Nat.div_pos (by omega) (by omega)
    have hkm := Nat.div_mul_le_self nalloc s.osz
    generalize hkdef : nalloc / s.osz = k at hk hkm
    have hle : n + (k - 1) + 1 ≤ N := by
      refine Nat.le_of_mul_le_mul_right (c := s.osz) ?_ (by omega)
      rw [show n + (k - 1) + 1 = n + k by omega, Nat.add_mul]
      omega
    have hlast := Nat.mul_le_mul_right s.osz hle
    obtain ⟨h1, h2⟩ := freelist_chain s.froff h4 ht (clear s.mem s.hiwater nalloc) k
      (i := n) (by unfold segsize at hend; omega)
    dsimp only
    rw [hkdef]
    rw [← h.hiwater] at h1 h2
    generalize freelist s.osz s.froff k (clear s.mem s.hiwater nalloc) s.hiwater = r at h1 h2
    have hrefilled : Inv table s.osz N { s with head := s.hiwater, hiwater := r.2, mem := r.1 } out
        (objects table s.osz n (k - 1 + 1)) (n + (k - 1) + 1) := by
      refine ⟨h.table, rfl, h.eotbl, h1, hle, h2, ?_⟩
      have hout : out.Perm (objects table s.osz 0 n) := h.perm
      have hsplit := objects_add table s.osz 0 n (k - 1 + 1)
      rw [Nat.zero_add] at hsplit
      rw [show n + (k - 1) + 1 = n + (k - 1 + 1) by omega, hsplit]
      exact List.perm_append_comm.trans (hout.append_right _)
    obtain ⟨h3, h4'⟩ := hrefilled.pop h4
    exact .inr ⟨table + n * s.osz, _, _, h3, (Nat.add_pos_left ht _).ne', h4'⟩

theorem Inv.genfree (h : Inv table osz N s out l n) (h4 : 4 ≤ osz) (ht : 0 < table)
    (hend : table + N * osz ≤ segsize) (ha : a ∈ out) :
    Inv table osz N (s.genfree a) (out.erase a) (a :: l) n := by
  have hnd := h.nodup (by omega)
  have hal : a ∉ l := fun hl => List.disjoint_of_nodup_append hnd hl ha
  have hmem : a ∈ l ++ out := List.mem_append_right l ha
  have hlt : ∀ {b}, b ∈ l ++ out → b < 2 ^ 32 := by
    intro b hb
    obtain ⟨k, hk, rfl⟩ := h.number hb
    have hstep := Nat.mul_le_mul_right osz (hk.trans_le h.count).le
    unfold segsize at hend
    omega
  have hhead : s.head < 2 ^ 32 := by
    have hc := h.chain.head_eq
    cases l with
    | nil =>
      have hc : s.head = 0 := hc
      omega
    | cons b l =>
      have hc : s.head = b := hc
      rw [hc]
      exact hlt List.mem_cons_self
  have ha0 : a ≠ 0 := by
    obtain ⟨k, -, rfl⟩ := h.number hmem
    exact (Nat.add_pos_left ht _).ne'
  refine ⟨h.table, h.osz, h.eotbl, h.hiwater, h.count, ⟨rfl, ha0, ?_⟩, ?_⟩
  · change Chain (next s.froff (store s.mem (fpOf s.froff a) (ptr s.head)))
      (load (store s.mem (fpOf s.froff a) (ptr s.head)) (fpOf s.froff a)).toNat l
    rw [load_store, ptr_toNat hhead]
    refine h.chain.congr fun b hb => ?_
    exact h.next_store h4 hmem (List.mem_append_left _ hb) (fun he => hal (he ▸ hb)) _
  · have hperm := (List.perm_cons_erase ha).symm
    exact (List.perm_middle.symm.trans (hperm.append_left l)).trans h.perm

/-- What an owner writes stays in the object. -/
theorem Inv.write (h : Inv table osz N s out l n) (h4 : 4 ≤ osz) (ha : a ∈ out)
    (hoff : 0 ≤ s.froff ∧ s.froff + 4 ≤ osz)
    (hm : ∀ x : Int, (x < a ∨ a + osz ≤ x) → m x = s.mem x) :
    Inv table osz N { s with mem := m } out l n := by
  have hnd := h.nodup (by omega)
  refine ⟨h.table, h.osz, h.eotbl, h.hiwater, h.count, h.chain.congr fun b hb => ?_, h.perm⟩
  have hne : b ≠ a := fun he => List.disjoint_of_nodup_append hnd hb (he ▸ ha)
  have hapart := h.apart (List.mem_append_left _ hb) (List.mem_append_right l ha) hne
  change (load m (fpOf s.froff b)).toNat = next s.froff s.mem b
  unfold next
  rw [load_congr fun x h1 h2 => hm x (by unfold fpOf at h1 h2; omega)]

/-- The run keeps the table in order. -/
theorem Run.inv {s₀ : State} {l₀ : List Nat} {n₀ : Nat} (hrun : Run s₀ s out)
    (h₀ : Inv table osz N s₀ [] l₀ n₀) (h4 : 4 ≤ osz) (ht : 0 < table)
    (hend : table + N * osz ≤ segsize) : ∃ l n, Inv table osz N s out l n := by
  induction hrun with
  | start => exact ⟨l₀, n₀, h₀⟩
  | alloc _ hr ha ih =>
    obtain ⟨l, n, h⟩ := ih
    obtain rfl := h.osz
    rcases h.genalloc h4 ht hend with ⟨h1, -⟩ | ⟨b, l', n', h1, -, h2⟩
    · rw [hr] at h1
      exact absurd h1 ha
    · rw [hr] at h1 h2
      obtain rfl : _ = b := h1
      exact ⟨l', n', h2⟩
  | full _ hr ih =>
    obtain ⟨l, n, h⟩ := ih
    obtain rfl := h.osz
    rcases h.genalloc h4 ht hend with ⟨-, h1, -⟩ | ⟨b, l', n', h1, h2, -⟩
    · rw [hr] at h1
      obtain rfl : _ = _ := h1
      exact ⟨l, n, h⟩
    · rw [hr] at h1
      exact absurd h1.symm h2
  | free _ ha ih =>
    obtain ⟨l, n, h⟩ := ih
    exact ⟨_, n, h.genfree h4 ht hend ha⟩
  | write _ ha hoff hm ih =>
    obtain ⟨l, n, h⟩ := ih
    rw [h.osz] at hoff hm
    exact ⟨l, n, h.write h4 ha hoff hm⟩


/-! ## The table that `geninit` makes -/

/-- What the users of a table rely on, whatever calls were made. -/
structure Serves (tblelms objsz : Nat) (s₀ : State) : Prop where
  apart : ∀ s out, Run s₀ s out → out.Pairwise fun a b => a + objsz ≤ b ∨ b + objsz ≤ a
  inside : ∀ s out, Run s₀ s out → ∀ a ∈ out,
    (∃ k < tblelms, a = s₀.table + k * objsz) ∧ a + objsz ≤ s₀.eotbl
  full : ∀ s s' out, Run s₀ s out → s.genalloc = (s', 0) → out.length = tblelms

variable {malloc : Nat → Option Nat} {slot : Bool} {tblelms nelms objsz : Nat} {off : Int}
  {s₀ : State}

/-- What an accepted table looks like. -/
theorem geninit_cases (h : geninit malloc slot m tblelms nelms objsz off = .ok s₀) :
    4 ≤ objsz ∧ nelms ≤ tblelms ∧ malloc (objsz * tblelms % 2 ^ 32) = some s₀.table ∧
      s₀.head = s₀.table ∧ s₀.eotbl = s₀.table + objsz * tblelms % 2 ^ 32 ∧ s₀.osz = objsz ∧
      (s₀.mem, s₀.hiwater) = freelist objsz s₀.froff nelms
        (clear m s₀.table (nelms * objsz % 2 ^ 32)) s₀.table := by
  unfold geninit at h
  split at h
  · cases h
  rename_i hargs
  split at h
  · cases h
  dsimp only at h
  split at h
  · cases h
  rename_i a hma
  cases h
  exact ⟨by omega, by omega, hma, rfl, rfl, rfl, rfl⟩

/-- The objects of the first free list are in order. -/
theorem geninit_inv (h : geninit malloc slot m tblelms nelms objsz off = .ok s₀)
    (hma : ∀ n a, malloc n = some a → 0 < a ∧ a + n ≤ segsize) (hone : 1 ≤ tblelms)
    (hlt : objsz * tblelms < 2 ^ 32) :
    4 ≤ objsz ∧ 0 < s₀.table ∧ s₀.table + tblelms * objsz ≤ segsize ∧
      ∃ l n, Inv s₀.table objsz tblelms s₀ [] l n := by
  obtain ⟨h4, hle, hm, hhead, heot, hosz, hlist⟩ := geninit_cases h
  obtain ⟨ht, hend⟩ := hma _ _ hm
  rw [Nat.mod_eq_of_lt hlt, Nat.mul_comm] at hend heot
  refine ⟨h4, ht, hend, objects s₀.table objsz 0 (nelms - 1 + 1), nelms - 1 + 1, ?_⟩
  have hn : 0 + (nelms - 1) + 1 ≤ tblelms := by omega
  have hlast := Nat.mul_le_mul_right objsz hn
  obtain ⟨h1, h2⟩ := freelist_chain s₀.froff h4 ht
    (clear m s₀.table (nelms * objsz % 2 ^ 32)) nelms (i := 0) (by unfold segsize at hend; omega)
  rw [Nat.zero_mul, Nat.add_zero, ← hlist] at h1 h2
  rw [Nat.zero_add] at h1 hn
  exact ⟨rfl, hosz, heot, h1, hn, by rw [hhead]; exact h2, by rw [List.append_nil]⟩

/-- As long as the table serves, all its objects can be handed out. -/
theorem Serves.hand_out (h : Serves tblelms objsz s₀) : ∀ n ≤ tblelms,
    ∃ s out, Run s₀ s out ∧ out.length = n := by
  intro n
  induction n with
  | zero => exact fun _ => ⟨s₀, [], .start, rfl⟩
  | succ n ih =>
    intro hn
    obtain ⟨s, out, hrun, hlen⟩ := ih (by omega)
    by_cases ha : s.genalloc.2 = 0
    · have hfull := h.full s s.genalloc.1 out hrun (by rw [← ha])
      omega
    · exact ⟨s.genalloc.1, s.genalloc.2 :: out, .alloc hrun rfl ha, by rw [List.length_cons, hlen]⟩

/-- A table that serves has room for its objects. -/
theorem Serves.room (h : Serves tblelms objsz s₀) (hpos : 0 < objsz) :
    s₀.table + tblelms * objsz ≤ s₀.eotbl ∨ tblelms = 0 := by
  obtain ⟨s, out, hrun, hlen⟩ := h.hand_out tblelms le_rfl
  have hnd : out.Nodup := (h.apart s out hrun).imp fun hab => by omega
  have hsub : out ⊆ objects s₀.table objsz 0 ((s₀.eotbl - s₀.table) / objsz) := by
    intro a ha
    obtain ⟨⟨k, -, rfl⟩, hend⟩ := h.inside s out hrun a ha
    rw [mem_objects, Nat.zero_add]
    refine ⟨k, Nat.zero_le k, (Nat.le_div_iff_mul_le hpos).mpr ?_, rfl⟩
    rw [Nat.succ_mul]
    omega
  have hle := (hnd.subperm hsub).length_le
  rw [objects_length, hlen, Nat.le_div_iff_mul_le hpos] at hle
  rcases Nat.eq_zero_or_pos tblelms with h0 | h0
  · exact .inr h0
  · have := Nat.mul_pos h0 hpos
    omega

/-- A table serves its users if and only if its size in bytes fits in a word. -/
theorem geninit_serves (malloc : Nat → Option Nat) (slot : Bool) (m : Memory)
    (tblelms nelms objsz : Nat) (off : Int) (s₀ : State)
    (hma : ∀ n a, malloc n = some a → 0 < a ∧ a + n ≤ segsize)
    (h : geninit malloc slot m tblelms nelms objsz off = .ok s₀) (hone : 1 ≤ tblelms) :
    Serves tblelms objsz s₀ ↔ objsz * tblelms < 2 ^ 32 := by
  constructor
  · intro hs
    obtain ⟨h4, -, -, -, heot, -⟩ := geninit_cases h
    rcases hs.room (by omega) with hroom | h0
    · rw [heot, Nat.mul_comm] at hroom
      omega
    · omega
  · intro hlt
    obtain ⟨h4, ht, hend, l₀, n₀, h₀⟩ := geninit_inv h hma hone hlt
    refine ⟨fun s out hrun => ?_, fun s out hrun a ha => ?_, fun s s' out hrun hr => ?_⟩
    · obtain ⟨l, n, hi⟩ := hrun.inv h₀ h4 ht hend
      have hnd := (List.nodup_append.mp (hi.nodup (by omega))).2.1
      refine hnd.imp_of_mem fun ha hb hne => ?_
      exact hi.apart (List.mem_append_right l ha) (List.mem_append_right l hb) hne
    · obtain ⟨l, n, hi⟩ := hrun.inv h₀ h4 ht hend
      obtain ⟨k, hk, rfl⟩ := hi.number (List.mem_append_right l ha)
      have hlast := Nat.mul_le_mul_right objsz (Nat.succ_le_of_lt (hk.trans_le hi.count))
      rw [Nat.succ_mul] at hlast
      have heot := h₀.eotbl
      exact ⟨⟨k, hk.trans_le hi.count, rfl⟩, by omega⟩
    · obtain ⟨l, n, hi⟩ := hrun.inv h₀ h4 ht hend
      obtain rfl := hi.osz
      rcases hi.genalloc h4 ht hend with ⟨-, -, h1⟩ | ⟨a, l', n', h1, h2, -⟩
      · exact h1
      · rw [hr] at h1
        exact absurd h1.symm h2


/-- A kernel heap that hands out the memory behind the first page. -/
def smallHeap (n : Nat) : Option Nat := if n ≤ 2 ^ 27 then some pagesize else none

theorem smallHeap_inside (n a : Nat) (h : smallHeap n = some a) : 0 < a ∧ a + n ≤ segsize := by
  unfold smallHeap pagesize at h
  unfold segsize
  split at h
  · cases h
    omega
  · cases h

/-- The table that `geninit` makes, if it accepts it. -/
def made (tblelms nelms objsz : Nat) (off : Int) : State :=
  match geninit smallHeap true (fun _ => 0) tblelms nelms objsz off with
  | .ok s => s
  | .error _ => ⟨0, 0, 0, 0, 0, 0, fun _ => 0⟩

/-- Three objects larger than a page, with one of them on the first free list. -/
theorem geninit_serves_large : Serves 3 5000 (made 3 1 5000 4) :=
  (geninit_serves smallHeap true (fun _ => 0) 3 1 5000 4 (made 3 1 5000 4) smallHeap_inside rfl
    (by decide)).mpr (by decide)

/-- With 65537 objects of 65536 bytes the size wraps around, and the second object is refused. -/
theorem geninit_wraps :
    geninit smallHeap true (fun _ => 0) 65537 1 65536 0 = .ok (made 65537 1 65536 0) ∧
      ¬ Serves 65537 65536 (made 65537 1 65536 0) := by
  refine ⟨rfl, fun h => ?_⟩
  let s₁ := (made 65537 1 65536 0).genalloc
  have h1 : Run (made 65537 1 65536 0) s₁.1 [s₁.2] := .alloc .start rfl (by decide +kernel)
  have h2 : s₁.1.genalloc.2 = 0 := by decide +kernel
  have hfull := h.full s₁.1 s₁.1.genalloc.1 [s₁.2] h1 (by rw [← h2])
  cases hfull

end Aix413.Genalloc
