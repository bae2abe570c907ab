import Aix413.Ipc.Ipcget

namespace Aix413.Ipc

variable {cnt n i j k a base inmark : Nat} {t t' : Table} {g : Args} {p : Perm}

/-! ## Entries -/

theorem allocated_newmode (g : Args) (uid gid cuid cgid : Nat) (key : Int) :
    (Perm.mk uid gid cuid cgid g.newmode key).allocated = true := by
  refine decide_eq_true fun h => ?_
  have hbit := congrArg (fun b : BitVec 32 => b.getLsbD 15) h
  have h15 : ipcAlloc.getLsbD 15 = true := by decide
  change ((ipcAlloc ||| _) &&& ipcAlloc).getLsbD 15 = (0 : BitVec 32).getLsbD 15 at hbit
  rw [BitVec.getLsbD_and, BitVec.getLsbD_or, h15] at hbit
  exact absurd hbit (by simp)

theorem not_allocated_of_mode (h : p.mode = 0) : ¬p.allocated = true := by
  unfold Perm.allocated
  rw [h]
  decide

namespace Table

/-- Entry `i` is in use. -/
def InUse (t : Table) (i : Nat) : Prop := (t.perm i).allocated = true

theorem perm_write_self (t : Table) (i : Nat) (p : Perm) : (t.write i p).perm i = p :=
  Function.update_self _ _ _

theorem perm_write_of_ne (t : Table) (p : Perm) (h : j ≠ i) : (t.write i p).perm j = t.perm j :=
  Function.update_of_ne h _ _

theorem read_eq (h : i < cnt) (t : Table) : t.read cnt i = some (t.perm i) := if_pos h

theorem firstFree_spec (t : Table) (i : Nat) (h : i + n ≤ cnt) :
    ∃ r, t.firstFree cnt n i = some r ∧
      (r = none → ∀ j, i ≤ j → j < i + n → t.InUse j) ∧
      ∀ k ∈ r, (i ≤ k ∧ k < i + n) ∧ ¬t.InUse k := by
  induction n generalizing i with
  | zero => exact ⟨none, rfl, fun _ j h₁ h₂ => absurd h₁ (by omega), fun _ hk => nomatch hk⟩
  | succ n ih =>
    unfold firstFree
    rw [read_eq (by omega), Option.bind_eq_bind, Option.bind_some]
    split_ifs with ha
    · obtain ⟨r, hr, hall, hk⟩ := ih (i + 1) (by omega)
      refine ⟨r, hr, fun hn j h₁ h₂ => ?_, fun k hk' => ?_⟩
      · rcases Nat.eq_or_lt_of_le h₁ with rfl | h₁
        · exact ha
        · exact hall hn j h₁ (by omega)
      · obtain ⟨⟨h₁, h₂⟩, h₃⟩ := hk k hk'
        exact ⟨⟨by omega, by omega⟩, h₃⟩
    · refine ⟨some i, rfl, nofun, fun k hk => ?_⟩
      cases hk
      exact ⟨⟨le_rfl, by omega⟩, ha⟩

/-- What the search for a key finds. -/
inductive Found (t : Table) (g : Args) (n i : Nat) (a : Option Nat) : Result ⊕ Option Nat → Prop
  | existing (k : Nat) : t.InUse k → (t.perm k).key = g.key → Found t g n i a (.inl (.existing k))
  | failed (e : Errno) : e ≠ .enospc → Found t g n i a (.inl (.failed e))
  | none (a' : Option Nat) (hkey : ∀ j, i ≤ j → j < i + n → t.InUse j → (t.perm j).key ≠ g.key)
      (hnone : a' = .none → a = .none ∧ ∀ j, i ≤ j → j < i + n → t.InUse j)
      (hsome : ∀ k ∈ a', k ∈ a ∨ (i ≤ k ∧ k < i + n) ∧ ¬t.InUse k) : Found t g n i a (.inr a')

theorem findKey_spec (t : Table) (g : Args) (i : Nat) (a : Option Nat) (h : i + n ≤ cnt) :
    ∃ r, t.findKey cnt g n i a = some r ∧ Found t g n i a r := by
  induction n generalizing i a with
  | zero => exact ⟨.inr a, rfl, .none a (fun j h₁ h₂ => absurd h₁ (by omega))
      (fun ha => ⟨ha, fun j h₁ h₂ => absurd h₁ (by omega)⟩) fun k hk => .inl hk⟩
  | succ n ih =>
    unfold findKey
    rw [read_eq (by omega), Option.bind_eq_bind, Option.bind_some]
    split_ifs with ha hk h₁ h₂
    · exact ⟨_, rfl, .failed _ nofun⟩
    · exact ⟨_, rfl, .failed _ nofun⟩
    · exact ⟨_, rfl, .existing i ha hk⟩
    · obtain ⟨r, hr, hf⟩ := ih (i + 1) a (by omega)
      refine ⟨r, hr, ?_⟩
      cases hf with
      | existing k h₁ h₂ => exact .existing k h₁ h₂
      | failed e he => exact .failed e he
      | none a' hkey hnone hsome =>
        refine .none a' (fun j h₁ h₂ => ?_) (fun hn => ⟨(hnone hn).1, fun j h₁ h₂ => ?_⟩)
          fun k hk' => ?_
        · rcases Nat.eq_or_lt_of_le h₁ with rfl | h₁
          · exact fun _ => hk
          · exact hkey j h₁ (by omega)
        · rcases Nat.eq_or_lt_of_le h₁ with rfl | h₁
          · exact ha
          · exact (hnone hn).2 j h₁ (by omega)
        · exact (hsome k hk').imp_right fun h => ⟨⟨by omega, by omega⟩, h.2⟩
    · obtain ⟨r, hr, hf⟩ := ih (i + 1) (a.or (some i)) (by omega)
      refine ⟨r, hr, ?_⟩
      cases hf with
      | existing k h₁ h₂ => exact .existing k h₁ h₂
      | failed e he => exact .failed e he
      | none a' hkey hnone hsome =>
        refine .none a' (fun j h₁ h₂ hu => ?_) (fun hn => ?_) fun k hk' => ?_
        · rcases Nat.eq_or_lt_of_le h₁ with rfl | h₁
          · exact absurd hu ha
          · exact hkey j h₁ (by omega) hu
        · have hor := (hnone hn).1
          cases a <;> exact absurd hor (by simp)
        · rcases hsome k hk' with hor | h
          · cases a with
            | none =>
              cases hor
              exact .inr ⟨⟨le_rfl, by omega⟩, ha⟩
            | some b => exact .inl hor
          · exact .inr ⟨⟨by omega, by omega⟩, h.2⟩

end Table

/-! ## Uniprocessor build -/

/-- Entries in use are below the mark, the mark is in the table, and keys are not used twice. -/
structure Sound (cnt : Nat) (t : Table) : Prop where
  below : ∀ j, t.InUse j → j < t.mark
  mark_le : t.mark ≤ cnt
  keys : ∀ j j', t.InUse j → t.InUse j' → (t.perm j).key = (t.perm j').key →
    (t.perm j).key ≠ ipcPrivate → j = j'

/-- What a call may do to the table. -/
structure Gives (cnt : Nat) (t : Table) (r : Result) (t' : Table) : Prop where
  sound : Sound cnt t'
  enospc : r = .failed .enospc → ∀ j < cnt, t.InUse j
  created : ∀ i, r = .created i → i < cnt ∧ ¬t.InUse i ∧ t'.InUse i
  others : ∀ j, r ≠ .created j → t'.perm j = t.perm j

/-- Only entry `i` is written, and its key is not in use if it is in use itself. -/
theorem Sound.write (h : Sound cnt t) {m : Nat} (hm : t.mark ≤ m) (hmc : m ≤ cnt)
    (him : p.allocated = true → i < m)
    (hkey : p.allocated = true → p.key ≠ ipcPrivate → ∀ j, t.InUse j → (t.perm j).key ≠ p.key) :
    Sound cnt { t.write i p with mark := m } := by
  have huse : ∀ j, ({ t.write i p with mark := m } : Table).InUse j →
      (j = i ∧ p.allocated = true) ∨ (j ≠ i ∧ t.InUse j) := by
    intro j hj
    change ((t.write i p).perm j).allocated = true at hj
    by_cases hji : j = i
    · subst hji
      rw [t.perm_write_self] at hj
      exact .inl ⟨rfl, hj⟩
    · rw [t.perm_write_of_ne p hji] at hj
      exact .inr ⟨hji, hj⟩
  refine ⟨fun j hj => ?_, hmc, fun j j' hj hj' heq hne => ?_⟩
  · rcases huse j hj with ⟨rfl, ha⟩ | ⟨-, hj⟩
    · exact him ha
    · exact (h.below j hj).trans_le hm
  · change ((t.write i p).perm j).key = ((t.write i p).perm j').key at heq
    change ((t.write i p).perm j).key ≠ _ at hne
    rcases huse j hj with ⟨rfl, ha⟩ | ⟨hji, hu⟩
    · rw [t.perm_write_self] at heq hne
      rcases huse j' hj' with ⟨rfl, -⟩ | ⟨hji', hu'⟩
      · rfl
      · rw [t.perm_write_of_ne p hji'] at heq
        exact absurd heq.symm (hkey ha hne j' hu')
    · rw [t.perm_write_of_ne p hji] at heq hne
      rcases huse j' hj' with ⟨rfl, ha⟩ | ⟨hji', hu'⟩
      · rw [t.perm_write_self] at heq
        exact absurd heq (hkey ha (heq ▸ hne) j hu)
      · rw [t.perm_write_of_ne p hji'] at heq
        exact h.keys j j' hu hu' heq hne

/-- A new entry: the one at `i`, with the mark at `m`. -/
theorem initUp_gives (h : Sound cnt t) (hi : ¬t.InUse i) {m : Nat} (him : i < m) (hm : t.mark ≤ m)
    (hmc : m ≤ cnt) (hkey : g.key ≠ ipcPrivate → ∀ j, t.InUse j → (t.perm j).key ≠ g.key) :
    ∃ r t', initUp cnt g i { t with mark := m } = some (r, t') ∧ Gives cnt t r t' := by
  have hlt : i < cnt := by omega
  refine ⟨.created i, _, if_pos hlt, h.write hm hmc (fun _ => him) fun _ => hkey, nofun,
    fun j hj => ?_, fun j hj => ?_⟩
  · cases hj
    refine ⟨hlt, hi, ?_⟩
    change ((t.write i _).perm i).allocated = true
    rw [t.perm_write_self]
    exact allocated_newmode g _ _ _ _ _
  · exact t.perm_write_of_ne _ fun he => hj (he ▸ rfl)

theorem Sound.refused (h : Sound cnt t) {r : Result} (hr : ∀ i, r ≠ .created i)
    (he : r = .failed .enospc → ∀ j < cnt, t.InUse j) : Gives cnt t r t :=
  ⟨h, he, fun i hi => absurd hi (hr i), fun _ _ => rfl⟩

/-- One call in a uniprocessor system. -/
theorem ipcgetUp_spec (h : Sound cnt t) (g : Args) :
    ∃ r t', ipcgetUp cnt g t = some (r, t') ∧ Gives cnt t r t' := by
  have hmark := h.mark_le
  have hfull : (∀ j, j < t.mark → t.InUse j) → ¬t.mark < cnt → ∀ j < cnt, t.InUse j :=
    fun hall hle j hj => hall j (by omega)
  have hfree : ¬t.InUse t.mark := fun hu => absurd (h.below _ hu) (lt_irrefl _)
  unfold ipcgetUp
  by_cases hpriv : g.key = ipcPrivate
  · rw [if_pos hpriv]
    obtain ⟨r, hr, hall, hk⟩ := t.firstFree_spec 0 (n := t.mark) ((Nat.zero_add _).trans_le hmark)
    rw [hr, Option.bind_eq_bind, Option.bind_some]
    cases r with
    | some i =>
      obtain ⟨⟨-, hlt⟩, hnot⟩ := hk i rfl
      exact initUp_gives h hnot (m := t.mark) (by omega) le_rfl hmark fun hne => absurd hpriv hne
    | none =>
      dsimp only
      split_ifs with hlt
      · exact initUp_gives h hfree (Nat.lt_succ_self _) (Nat.le_succ _) hlt
          fun hne => absurd hpriv hne
      · exact ⟨_, t, rfl, h.refused nofun fun _ =>
          hfull (fun j hj => hall rfl j (Nat.zero_le j) ((Nat.zero_add _).symm ▸ hj)) hlt⟩
  · rw [if_neg hpriv]
    obtain ⟨r, hr, hf⟩ := t.findKey_spec g 0 none (n := t.mark) ((Nat.zero_add _).trans_le hmark)
    rw [hr, Option.bind_eq_bind, Option.bind_some]
    cases hf with
    | existing k _ _ => exact ⟨_, t, rfl, h.refused nofun nofun⟩
    | failed e he => exact ⟨_, t, rfl, h.refused nofun fun heq => by cases heq; exact absurd rfl he⟩
    | none a' hkey hnone hsome =>
      have hnew : ∀ j, t.InUse j → (t.perm j).key ≠ g.key := fun j hu =>
        hkey j (Nat.zero_le j) (by have := h.below j hu; omega) hu
      dsimp only
      by_cases hcr : g.creates = true
      · rw [if_pos hcr]
        cases a' with
        | some i =>
          obtain ⟨⟨-, hlt⟩, hnot⟩ := (hsome i rfl).resolve_left nofun
          exact initUp_gives h hnot (m := t.mark) (by omega) le_rfl hmark fun _ => hnew
        | none =>
          dsimp only
          split_ifs with hlt
          · exact initUp_gives h hfree (Nat.lt_succ_self _) (Nat.le_succ _) hlt fun _ => hnew
          · exact ⟨_, t, rfl, h.refused nofun fun _ =>
              hfull (fun j hj => (hnone rfl).2 j (Nat.zero_le j) ((Nat.zero_add _).symm ▸ hj)) hlt⟩
      · rw [if_neg hcr]
        exact ⟨_, t, rfl, h.refused nofun nofun⟩

/-- Tables of a uniprocessor system: entries are allocated by `ipcget`, freed, and lose their
keys. -/
inductive UpReached (cnt : Nat) : Table → Prop
  | start (t : Table) (hfree : ∀ j, (t.perm j).mode = 0) (hmark : t.mark = 0) : UpReached cnt t
  | call (t : Table) (g : Args) (r : Result) (t' : Table) :
    UpReached cnt t → ipcgetUp cnt g t = some (r, t') → UpReached cnt t'
  | free (t : Table) (i : Nat) :
    UpReached cnt t → UpReached cnt (t.write i { t.perm i with mode := 0 })
  | forget (t : Table) (i : Nat) :
    UpReached cnt t → UpReached cnt (t.write i { t.perm i with key := ipcPrivate })

theorem UpReached.sound (h : UpReached cnt t) : Sound cnt t := by
  induction h with
  | start t hfree hmark =>
    have hno : ∀ j, ¬t.InUse j := fun j => not_allocated_of_mode (hfree j)
    exact ⟨fun j hu => absurd hu (hno j), hmark ▸ Nat.zero_le cnt, fun j _ hu => absurd hu (hno j)⟩
  | call t g r t' _ hrun ih =>
    obtain ⟨r', t₁, hrun', hg⟩ := ipcgetUp_spec ih g
    cases Option.some.inj (hrun.symm.trans hrun')
    exact hg.sound
  | free t i _ ih =>
    exact ih.write (p := { t.perm i with mode := 0 }) le_rfl ih.mark_le
      (fun ha => absurd ha (not_allocated_of_mode rfl))
      fun ha => absurd ha (not_allocated_of_mode rfl)
  | forget t i _ ih =>
    exact ih.write (p := { t.perm i with key := ipcPrivate }) le_rfl ih.mark_le (ih.below i)
      fun _ hne => absurd rfl hne


/-! ## Multiprocessor build -/

theorem scanAny_spec (t : Table) (inmark i : Nat) (h : i + n = cnt) :
    (scanAny cnt t inmark n i = some (.inl (.failed .enospc)) ∧
      ∀ j, i ≤ j → j < cnt → t.InUse j) ∨
    ∃ k, scanAny cnt t inmark n i = some (.inr (.anyFree k inmark)) ∧ k < cnt ∧
      ∀ j, i ≤ j → j < k → t.InUse j := by
  induction n generalizing i with
  | zero => exact .inl ⟨rfl, fun j h₁ h₂ => absurd h₁ (by omega)⟩
  | succ n ih =>
    unfold scanAny
    rw [Table.read_eq (by omega), Option.bind_eq_bind, Option.bind_some]
    split_ifs with ha
    · have hnext : ∀ {m}, (∀ j, i + 1 ≤ j → j < m → t.InUse j) →
          ∀ j, i ≤ j → j < m → t.InUse j := by
        intro m hall j h₁ h₂
        rcases Nat.eq_or_lt_of_le h₁ with rfl | h₁
        · exact ha
        · exact hall j h₁ h₂
      rcases ih (i + 1) (by omega) with ⟨hr, hall⟩ | ⟨k, hr, hk, hall⟩
      · exact .inl ⟨hr, hnext hall⟩
      · exact .inr ⟨k, hr, hk, hnext hall⟩
    · exact .inr ⟨i, rfl, by omega, fun j h₁ h₂ => absurd h₁ (by omega)⟩

/-- Beyond the mark the counter of the search is one ahead of the entry. -/
theorem scanBeyond_spec (cnt : Nat) (t : Table) (base : Nat) (h : n = 0 ∨ base + n + 1 = cnt) :
    (scanBeyond cnt t n base (base + 1) = some (.inl (.failed .enospc)) ∧
      ∀ j, base ≤ j → j < base + n → t.InUse j) ∨
    ∃ k, scanBeyond cnt t n base (base + 1) = some (.inr (.beyondMark k (k + 2))) ∧ k + 1 < cnt ∧
      ∀ j, base ≤ j → j < k → t.InUse j := by
  induction n generalizing base with
  | zero => exact .inl ⟨rfl, fun j h₁ h₂ => absurd h₁ (by omega)⟩
  | succ n ih =>
    unfold scanBeyond
    rw [Table.read_eq (by omega), Option.bind_eq_bind, Option.bind_some]
    split_ifs with ha
    · have hnext : ∀ {m}, (∀ j, base + 1 ≤ j → j < m → t.InUse j) →
          ∀ j, base ≤ j → j < m → t.InUse j := by
        intro m hall j h₁ h₂
        rcases Nat.eq_or_lt_of_le h₁ with rfl | h₁
        · exact ha
        · exact hall j h₁ h₂
      rcases ih (base + 1) (by omega) with ⟨hr, hall⟩ | ⟨k, hr, hk, hall⟩
      · exact .inl ⟨hr, hnext fun j h₁ h₂ => hall j h₁ (by omega)⟩
      · exact .inr ⟨k, hr, hk, hnext hall⟩
    · exact .inr ⟨base, rfl, by omega, fun j h₁ h₂ => absurd h₁ (by omega)⟩

/-- Where a call can be. -/
def Place.Ok (cnt : Nat) (g : Args) (t : Table) : Place → Prop
  | .anyFree i inmark => g.key = ipcPrivate ∧ inmark ≤ t.mark ∧ i ≤ t.mark ∧ i < cnt
  | .belowMark a base => a < base ∧ base ≤ t.mark
  | .beyondMark b i => b ≤ t.mark ∧ b + 1 < cnt ∧ i = b + 2
  | .setup i => t.InUse i ∧ (t.perm i).key = ipcPrivate

/-- `compare_and_swap` raises the mark only when there is room, and when it fails no free entry has
been passed over. -/
def Place.Meets (cnt : Nat) (t : Table) : Place → Prop
  | .anyFree i inmark =>
    ((t.perm i).mode = 0 → inmark ≤ i + 1 → t.mark < cnt) ∧
    ((t.perm i).mode ≠ 0 → (∀ j, i < j → j < cnt → t.InUse j) → ∀ j < i, t.InUse j)
  | .belowMark a base =>
    (t.perm a).mode ≠ 0 → (∀ j, base ≤ j → j + 1 < cnt → t.InUse j) →
      (∀ j < base, t.InUse j) ∧ t.InUse (cnt - 1)
  | .beyondMark b _ =>
    ((t.perm b).mode = 0 → t.mark < cnt) ∧
    ((t.perm b).mode ≠ 0 → (∀ j, b < j → j + 1 < cnt → t.InUse j) →
      (∀ j < b, t.InUse j) ∧ t.InUse (cnt - 1))
  | .setup _ => True

/-- What a search for an entry ends with. -/
inductive Scanned (cnt : Nat) (g : Args) (t : Table) : Result ⊕ Place → Prop
  | result (r : Result) : (∀ i, r ≠ .created i) →
    (r = .failed .enospc → ∀ j < cnt, t.InUse j) → Scanned cnt g t (.inl r)
  | place (p : Place) : p.Ok cnt g t → (∀ i, p ≠ .setup i) → Scanned cnt g t (.inr p)

theorem Sound.le_mark (h : Sound cnt t) (hi : i ≤ t.mark) (hall : ∀ j, i ≤ j → j < k → t.InUse j) :
    k ≤ t.mark := by
  by_contra hlt
  exact absurd (h.below _ (hall t.mark hi (by omega))) (lt_irrefl _)

theorem Sound.scanAny (h : Sound cnt t) (hg : g.key = ipcPrivate) (hin : inmark ≤ t.mark)
    (hi : i ≤ t.mark) (hn : i + n = cnt)
    (hfull : (∀ j, i ≤ j → j < cnt → t.InUse j) → ∀ j < i, t.InUse j) :
    ∃ r, scanAny cnt t inmark n i = some r ∧ Scanned cnt g t r := by
  rcases scanAny_spec t inmark i hn with ⟨hr, hall⟩ | ⟨k, hr, hk, hall⟩
  · refine ⟨_, hr, .result _ nofun fun _ j hj => ?_⟩
    rcases Nat.lt_or_ge j i with hji | hij
    · exact hfull hall j hji
    · exact hall j hij hj
  · exact ⟨_, hr, .place _ ⟨hg, hin, h.le_mark hi hall, hk⟩ nofun⟩

theorem Sound.scanBeyond (h : Sound cnt t) (base : Nat) (hb : base ≤ t.mark)
    (hn : n = cnt - (base + 1))
    (hfull : (∀ j, base ≤ j → j + 1 < cnt → t.InUse j) → ∀ j < cnt, t.InUse j) :
    ∃ r, scanBeyond cnt t n base (base + 1) = some r ∧ Scanned cnt g t r := by
  rcases scanBeyond_spec cnt t base (n := n) (by omega) with ⟨hr, hall⟩ | ⟨k, hr, hk, hall⟩
  · exact ⟨_, hr, .result _ nofun fun _ => hfull fun j h₁ h₂ => hall j h₁ (by omega)⟩
  · exact ⟨_, hr, .place _ ⟨h.le_mark hb hall, hk, rfl⟩ nofun⟩

/-- The entries before `base`, those from there on, and the last one. -/
theorem Table.inUse_all (hbelow : ∀ j < base, t.InUse j) (hlast : t.InUse (cnt - 1))
    (hrest : ∀ j, base ≤ j → j + 1 < cnt → t.InUse j) : ∀ j < cnt, t.InUse j := by
  intro j hj
  rcases Nat.lt_or_ge j base with hjb | hbj
  · exact hbelow j hjb
  · rcases Nat.lt_or_ge (j + 1) cnt with hlt | hge
    · exact hrest j hbj hlt
    · rwa [show j = cnt - 1 by omega]

/-- No entry in use has the key, which the holder of the lock is going to use. -/
def Table.Fresh (t : Table) (g : Args) : Prop :=
  g.key ≠ ipcPrivate → g.locks = true ∧ ∀ j, t.InUse j → (t.perm j).key ≠ g.key

/-- A call up to its first `compare_and_swap`. -/
theorem startMp_spec (h : Sound cnt t) (g : Args)
    (hmeets : g.locks = true → t.mark + 1 = cnt →
      ∃ j < t.mark, ¬t.InUse j ∨ (t.perm j).key = g.key) :
    ∃ r, startMp cnt g t = some r ∧ Scanned cnt g t r ∧ ∀ p, r = .inr p → t.Fresh g := by
  have hmark := h.mark_le
  unfold startMp
  by_cases hpriv : g.key = ipcPrivate
  · rw [if_pos hpriv]
    obtain ⟨r, hr, hs⟩ := h.scanAny (n := cnt) hpriv le_rfl (Nat.zero_le _) (Nat.zero_add _)
      fun _ j hj => absurd hj (Nat.not_lt_zero j)
    exact ⟨r, hr, hs, fun _ _ hne => absurd hpriv hne⟩
  · rw [if_neg hpriv]
    obtain ⟨r, hr, hf⟩ := t.findKey_spec g 0 none (n := t.mark) ((Nat.zero_add _).trans_le hmark)
    rw [hr, Option.bind_eq_bind, Option.bind_some]
    cases hf with
    | existing k _ _ => exact ⟨_, rfl, .result _ nofun nofun, nofun⟩
    | failed e he =>
      exact ⟨_, rfl, .result _ nofun fun heq => by cases heq; exact absurd rfl he, nofun⟩
    | none a' hkey hnone hsome =>
      have hnew : ∀ j, t.InUse j → (t.perm j).key ≠ g.key := fun j hu =>
        hkey j (Nat.zero_le j) (by have := h.below j hu; omega) hu
      dsimp only
      by_cases hcr : g.creates = true
      · rw [if_pos hcr]
        have hlocks : g.locks = true := decide_eq_true ⟨hpriv, hcr⟩
        cases a' with
        | some i =>
          obtain ⟨⟨-, hlt⟩, -⟩ := (hsome i rfl).resolve_left nofun
          exact ⟨_, rfl, .place _ ⟨by omega, le_rfl⟩ nofun, fun _ _ _ => ⟨hlocks, hnew⟩⟩
        | none =>
          have hall : ∀ j < t.mark, t.InUse j := fun j hj =>
            (hnone rfl).2 j (Nat.zero_le j) ((Nat.zero_add _).symm ▸ hj)
          obtain ⟨r, hr', hs⟩ := h.scanBeyond (g := g) t.mark le_rfl rfl fun hrest => by
            have hge : cnt ≤ t.mark + 1 := by
              by_contra hlt
              exact absurd (h.below _ (hrest t.mark le_rfl (by omega))) (lt_irrefl _)
            rcases Nat.eq_or_lt_of_le hge with heq | hlt
            · obtain ⟨j, hj, hor⟩ := hmeets hlocks heq.symm
              rcases hor with hno | hsame
              · exact absurd (hall j hj) hno
              · exact absurd hsame (hnew j (hall j hj))
            · exact fun j hj => hall j (by omega)
          exact ⟨r, hr', hs, fun _ _ _ => ⟨hlocks, hnew⟩⟩
      · rw [if_neg hcr]
        exact ⟨_, rfl, .result _ nofun nofun, nofun⟩


namespace Mp

variable {s s' : Mp} {c : Call} {place : Place} {act : Act} {r : Option Result}

/-- What holds of every table and its calls. -/
structure Inv (cnt : Nat) (s : Mp) : Prop where
  sound : Sound cnt s.table
  modes : ∀ j, (s.table.perm j).mode = 0 ∨ s.table.InUse j
  clear : ∀ j, ¬s.table.InUse j → (s.table.perm j).key = ipcPrivate
  places : ∀ k c, s.calls k = some c → c.place.Ok cnt c.toArgs s.table
  fresh : ∀ k c, s.calls k = some c → s.table.Fresh c.toArgs
  lock : ∀ k c, s.calls k = some c → c.key ≠ ipcPrivate → s.creat = some k
  single : ∀ k k' c c' i, s.calls k = some c → s.calls k' = some c' → c.place = .setup i →
    c'.place = .setup i → k = k'

/-- A table in use, with no call in progress. -/
structure Idle (s : Mp) : Prop where
  modes : ∀ j, (s.table.perm j).mode = 0
  clear : ∀ j, (s.table.perm j).key = ipcPrivate
  mark : s.table.mark = 0
  calls : ∀ k, s.calls k = none

theorem Idle.inv (h : s.Idle) : Inv cnt s := by
  have hno : ∀ j, ¬s.table.InUse j := fun j => not_allocated_of_mode (h.modes j)
  have hcall : ∀ {k c}, s.calls k ≠ some c := fun hc => nomatch (h.calls _).symm.trans hc
  exact
    { sound := ⟨fun j hu => absurd hu (hno j), h.mark ▸ Nat.zero_le cnt,
        fun j _ hu => absurd hu (hno j)⟩
      modes := fun j => .inl (h.modes j)
      clear := fun j _ => h.clear j
      places := fun _ _ hc => absurd hc hcall
      fresh := fun _ _ hc => absurd hc hcall
      lock := fun _ _ hc => absurd hc hcall
      single := fun _ _ _ _ _ hc => absurd hc hcall }

/-- The calls that go on when `k` ends. -/
theorem calls_ends (s : Mp) {k' : Nat} (hc : (s.ends k).calls k' = some c) :
    k' ≠ k ∧ s.calls k' = some c := by
  change Function.update s.calls k none k' = some c at hc
  by_cases hk : k' = k
  · subst hk
    rw [Function.update_self] at hc
    cases hc
  · rw [Function.update_of_ne hk] at hc
    exact ⟨hk, hc⟩

theorem Inv.ends (h : Inv cnt s) (k : Nat) : Inv cnt (s.ends k) := by
  exact
    { sound := h.sound
      modes := h.modes
      clear := h.clear
      places := fun k' c hc => h.places k' c (s.calls_ends hc).2
      fresh := fun k' c hc => h.fresh k' c (s.calls_ends hc).2
      lock := fun k' c hc hne => by
        obtain ⟨hk, hc⟩ := s.calls_ends hc
        have hheld := h.lock k' c hc hne
        refine (if_neg fun he => hk ?_).trans hheld
        exact Option.some.inj (hheld.symm.trans he)
      single := fun k₁ k₂ c₁ c₂ i h₁ h₂ =>
        h.single k₁ k₂ c₁ c₂ i (s.calls_ends h₁).2 (s.calls_ends h₂).2 }

/-- Call `k` holds the lock, or can have it. -/
theorem Inv.goes (h : Inv cnt s) (hok : place.Ok cnt g s.table) (hfresh : s.table.Fresh g)
    (hlock : g.key ≠ ipcPrivate → s.creat = none ∨ s.creat = some k)
    (hsetup : ∀ i, place = .setup i → ∀ k' c, k' ≠ k → s.calls k' = some c → c.place ≠ .setup i) :
    Inv cnt (s.goes k g place) := by
  have hother : ∀ {k' c}, (s.goes k g place).calls k' = some c →
      k' = k ∧ c = ⟨g, place⟩ ∨ k' ≠ k ∧ s.calls k' = some c := by
    intro k' c hc
    change Function.update s.calls k _ k' = some c at hc
    by_cases hk : k' = k
    · subst hk
      rw [Function.update_self] at hc
      exact .inl ⟨rfl, (Option.some.inj hc).symm⟩
    · rw [Function.update_of_ne hk] at hc
      exact .inr ⟨hk, hc⟩
  exact
    { sound := h.sound
      modes := h.modes
      clear := h.clear
      places := fun k' c hc => by
        rcases hother hc with ⟨rfl, rfl⟩ | ⟨-, hc⟩
        · exact hok
        · exact h.places k' c hc
      fresh := fun k' c hc => by
        rcases hother hc with ⟨rfl, rfl⟩ | ⟨-, hc⟩
        · exact hfresh
        · exact h.fresh k' c hc
      lock := fun k' c hc hne => by
        rcases hother hc with ⟨rfl, rfl⟩ | ⟨hk, hc⟩
        · exact if_pos (hfresh hne).1
        · have hheld := h.lock k' c hc hne
          refine (if_neg fun hg => ?_).trans hheld
          rcases hlock (of_decide_eq_true hg).1 with he | he
          · exact nomatch hheld.symm.trans he
          · exact hk (Option.some.inj (hheld.symm.trans he))
      single := fun k₁ k₂ c₁ c₂ i h₁ h₂ hp₁ hp₂ => by
        rcases hother h₁ with ⟨rfl, rfl⟩ | ⟨hk₁, hc₁⟩
        · rcases hother h₂ with ⟨rfl, rfl⟩ | ⟨hk₂, h₂⟩
          · rfl
          · exact absurd hp₂ (hsetup i hp₁ k₂ c₂ hk₂ h₂)
        · rcases hother h₂ with ⟨rfl, rfl⟩ | ⟨hk₂, hc₂⟩
          · exact absurd hp₁ (hsetup i hp₂ k₁ c₁ hk₁ hc₁)
          · exact h.single k₁ k₂ c₁ c₂ i hc₁ hc₂ hp₁ hp₂ }

/-- An entry that no call is setting up is written. -/
theorem Inv.write (h : Inv cnt s) {m : Nat} (hm : s.table.mark ≤ m) (hmc : m ≤ cnt)
    (hmode : p.mode = 0 ∨ p.allocated = true) (him : p.allocated = true → i < m)
    (hclear : ¬p.allocated = true → p.key = ipcPrivate)
    (hkey : p.key ≠ ipcPrivate → (∀ j, s.table.InUse j → (s.table.perm j).key ≠ p.key) ∧
      ∀ k c, s.calls k = some c → c.key = ipcPrivate)
    (hset : ∀ k c, s.calls k = some c → c.place ≠ .setup i) :
    Inv cnt { s with table := { s.table.write i p with mark := m } } := by
  have hperm : ∀ j, j = i ∧ (s.table.write i p).perm j = p ∨
      j ≠ i ∧ (s.table.write i p).perm j = s.table.perm j := by
    intro j
    by_cases hj : j = i
    · exact .inl ⟨hj, hj ▸ s.table.perm_write_self i p⟩
    · exact .inr ⟨hj, s.table.perm_write_of_ne p hj⟩
  exact
    { sound := h.sound.write hm hmc him fun _ hne => (hkey hne).1
      modes := fun j => by
        change ((s.table.write i p).perm j).mode = 0 ∨ ((s.table.write i p).perm j).allocated = true
        rcases hperm j with ⟨-, he⟩ | ⟨-, he⟩
        · rwa [he]
        · rw [he]
          exact h.modes j
      clear := fun j hno => by
        change ¬((s.table.write i p).perm j).allocated = true at hno
        change ((s.table.write i p).perm j).key = ipcPrivate
        rcases hperm j with ⟨-, he⟩ | ⟨-, he⟩
        · rw [he] at hno ⊢
          exact hclear hno
        · rw [he] at hno ⊢
          exact h.clear j hno
      places := fun k c hc => by
        have hok := h.places k c hc
        cases hpl : c.place with
        | anyFree i' inmark =>
          rw [hpl] at hok
          exact ⟨hok.1, hok.2.1.trans hm, hok.2.2.1.trans hm, hok.2.2.2⟩
        | belowMark a base =>
          rw [hpl] at hok
          exact ⟨hok.1, hok.2.trans hm⟩
        | beyondMark b i' =>
          rw [hpl] at hok
          exact ⟨hok.1.trans hm, hok.2⟩
        | setup i' =>
          rw [hpl] at hok
          have hne : i' ≠ i := fun he => hset k c hc (he ▸ hpl)
          change ((s.table.write i p).perm i').allocated = true ∧
            ((s.table.write i p).perm i').key = ipcPrivate
          rw [s.table.perm_write_of_ne p hne]
          exact hok
      fresh := fun k c hc hne => by
        obtain ⟨hg, hnew⟩ := h.fresh k c hc hne
        refine ⟨hg, fun j hu => ?_⟩
        change ((s.table.write i p).perm j).allocated = true at hu
        change ((s.table.write i p).perm j).key ≠ c.key
        rcases hperm j with ⟨-, he⟩ | ⟨-, he⟩
        · rw [he]
          by_cases hp : p.key = ipcPrivate
          · exact hp ▸ hne.symm
          · exact absurd ((hkey hp).2 k c hc) hne
        · rw [he] at hu ⊢
          exact hnew j hu
      lock := h.lock
      single := h.single }


/-- What a step may do. -/
structure Serves (cnt : Nat) (s : Mp) (r : Option Result) (s' : Mp) : Prop where
  inv : Inv cnt s'
  enospc : r = some (.failed .enospc) → ∀ j < cnt, s'.table.InUse j
  created : ∀ i, r = some (.created i) → i < cnt ∧ ¬s.table.InUse i ∧ s'.table.InUse i

theorem Inv.serves (h : Inv cnt s') : Serves cnt s none s' := ⟨h, nofun, nofun⟩

/-- The end of a search, with nothing created. -/
theorem Inv.answer (h : Inv cnt s) {r : Result ⊕ Place} (hs : Scanned cnt g s.table r)
    (hfresh : ∀ p, r = .inr p → s.table.Fresh g)
    (hlock : g.key ≠ ipcPrivate → g.locks = true → s.creat = none ∨ s.creat = some k) :
    Serves cnt s (s.answer k g r).1 (s.answer k g r).2 := by
  cases hs with
  | result r hno hfull =>
    cases r with
    | existing i => exact ⟨h.ends k, nofun, nofun⟩
    | created i => exact absurd rfl (hno i)
    | failed e => exact ⟨h.ends k, fun he => hfull (Option.some.inj he), nofun⟩
  | place p hok hno =>
    have hf := hfresh p rfl
    exact (h.goes hok hf (fun hne => hlock hne (hf hne).1) fun i he => absurd he (hno i)).serves

/-- `compare_and_swap` stores the mode of a new entry, or the search goes on. -/
theorem casMp_spec (h : Inv cnt s) (hc : s.calls k = some c) (hno : ∀ i, c.place ≠ .setup i)
    (hmeets : c.place.Meets cnt s.table) :
    (∃ i raise, casMp cnt c.toArgs s.table c.place =
        some (.inl (.created i), initMp c.toArgs i raise s.table) ∧
      (s.table.perm i).mode = 0 ∧ i < cnt ∧ i ≤ s.table.mark ∧
      (if raise then s.table.mark < cnt else i < s.table.mark)) ∨
    ∃ r, casMp cnt c.toArgs s.table c.place = some (r, s.table) ∧
      Scanned cnt c.toArgs s.table r := by
  have hok := h.places k c hc
  have hmark := h.sound.mark_le
  have huse : ∀ {i}, ¬(s.table.perm i).mode = 0 → s.table.InUse i :=
    fun hm => (h.modes _).resolve_left hm
  cases hpl : c.place with
  | anyFree i inmark =>
    rw [hpl] at hok hmeets
    obtain ⟨hpriv, hin, hi, hlt⟩ := hok
    unfold casMp
    dsimp only
    rw [Table.read_eq hlt, Option.bind_eq_bind, Option.bind_some]
    by_cases hm : (s.table.perm i).mode = 0
    · rw [if_pos hm]
      refine .inl ⟨i, _, rfl, hm, hlt, hi, ?_⟩
      by_cases hraise : inmark ≤ i + 1
      · rw [if_pos (decide_eq_true hraise)]
        exact hmeets.1 hm hraise
      · rw [if_neg fun he => hraise (of_decide_eq_true he)]
        omega
    · rw [if_neg hm]
      have hbelow := h.sound.below i (huse hm)
      obtain ⟨r, hr, hs⟩ := h.sound.scanAny (i := i + 1) (n := cnt - (i + 1)) hpriv hin hbelow
        (by omega) fun hall j hj => by
          rcases Nat.eq_or_lt_of_le (Nat.le_of_lt_succ hj) with rfl | hj
          · exact huse hm
          · exact hmeets.2 hm hall j hj
      rw [hr, Option.bind_eq_bind, Option.bind_some]
      exact .inr ⟨r, rfl, hs⟩
  | belowMark a base =>
    rw [hpl] at hok hmeets
    obtain ⟨ha, hb⟩ := hok
    unfold casMp
    dsimp only
    rw [Table.read_eq (by omega), Option.bind_eq_bind, Option.bind_some]
    by_cases hm : (s.table.perm a).mode = 0
    · rw [if_pos hm]
      exact .inl ⟨a, false, rfl, hm, by omega, by omega, ha.trans_le hb⟩
    · rw [if_neg hm]
      obtain ⟨r, hr, hs⟩ := h.sound.scanBeyond (g := c.toArgs) base hb rfl fun hrest =>
        Table.inUse_all (hmeets hm hrest).1 (hmeets hm hrest).2 hrest
      rw [hr, Option.bind_eq_bind, Option.bind_some]
      exact .inr ⟨r, rfl, hs⟩
  | beyondMark b i =>
    rw [hpl] at hok hmeets
    obtain ⟨hb, hlt, rfl⟩ := hok
    unfold casMp
    dsimp only
    rw [Table.read_eq (by omega), Option.bind_eq_bind, Option.bind_some]
    by_cases hm : (s.table.perm b).mode = 0
    · rw [if_pos hm]
      exact .inl ⟨b, true, rfl, hm, by omega, hb, hmeets.1 hm⟩
    · rw [if_neg hm]
      have hbelow := h.sound.below b (huse hm)
      obtain ⟨r, hr, hs⟩ := h.sound.scanBeyond (g := c.toArgs) (b + 1) hbelow rfl
        fun hrest => by
          obtain ⟨h₁, h₂⟩ := hmeets.2 hm fun j => hrest j
          refine Table.inUse_all (fun j hj => ?_) h₂ hrest
          rcases Nat.eq_or_lt_of_le (Nat.le_of_lt_succ hj) with rfl | hj
          · exact huse hm
          · exact h₁ j hj
      rw [hr, Option.bind_eq_bind, Option.bind_some]
      exact .inr ⟨r, rfl, hs⟩
  | setup i => exact absurd hpl (hno i)

/-- The new entry of a call. -/
theorem Inv.create (h : Inv cnt s) (hc : s.calls k = some c) {raise : Bool}
    (hfree : (s.table.perm i).mode = 0) (hlt : i < cnt) (hi : i ≤ s.table.mark)
    (hraise : if raise then s.table.mark < cnt else i < s.table.mark) :
    let s' : Mp := { s with table := initMp c.toArgs i raise s.table }
    Serves cnt s (some (.created i)) (s'.goes k c.toArgs (.setup i)) := by
  intro s'
  have hnot : ¬s.table.InUse i := not_allocated_of_mode hfree
  have hpriv := h.clear i hnot
  have hnone : ∀ k' c', s.calls k' = some c' → c'.place ≠ .setup i := by
    intro k' c' hc' hpl
    have hok := h.places k' c' hc'
    rw [hpl] at hok
    exact hnot hok.1
  let m := if raise then s.table.mark + 1 else s.table.mark
  have htable : s'.table = { s.table.write i ⟨c.euid, c.egid, c.euid, c.egid, c.newmode,
      (s.table.perm i).key⟩ with mark := m } := by
    cases raise <;> rfl
  have hm : s.table.mark ≤ m ∧ m ≤ cnt ∧ i < m := by
    have hle := h.sound.mark_le
    cases raise
    · exact ⟨le_rfl, hle, hraise⟩
    · exact ⟨Nat.le_succ _, hraise, Nat.lt_succ_of_le hi⟩
  have hinv : Inv cnt s' := by
    change Inv cnt { s with table := s'.table }
    rw [htable]
    exact h.write hm.1 hm.2.1 (.inr (allocated_newmode _ _ _ _ _ _)) (fun _ => hm.2.2)
      (fun _ => hpriv) (fun hne => absurd hpriv hne) hnone
  have hperm : s'.table.perm i =
      ⟨c.euid, c.egid, c.euid, c.egid, c.newmode, (s.table.perm i).key⟩ := by
    rw [htable]
    exact s.table.perm_write_self i _
  have huse : s'.table.InUse i := by
    rw [Table.InUse, hperm]
    exact allocated_newmode _ _ _ _ _ _
  refine ⟨hinv.goes ⟨huse, ?_⟩ (hinv.fresh k c hc) (fun hne => .inr (hinv.lock k c hc hne))
    fun i' he k' c' _ hc' => ?_, nofun, fun j hj => ?_⟩
  · rw [hperm]
    exact hpriv
  · cases he
    exact hnone k' c' hc'
  · cases hj
    exact ⟨hlt, hnot, huse⟩


/-- The condition on a step. A keyed creation that finds no entry below the mark has to be away from
the end of the table. -/
def Meets (cnt : Nat) (s : Mp) : Act → Prop
  | .start _ g => g.locks = true → s.table.mark + 1 = cnt →
    ∃ j < s.table.mark, ¬s.table.InUse j ∨ (s.table.perm j).key = g.key
  | .cas k => ∀ c, s.calls k = some c → c.place.Meets cnt s.table
  | _ => True

theorem step_spec (h : Inv cnt s) (hen : s.Enabled act) (hmeets : s.Meets cnt act) :
    ∃ r s', s.step cnt act = some (r, s') ∧ Serves cnt s r s' := by
  have hmark := h.sound.mark_le
  cases act with
  | start k g =>
    obtain ⟨hnone, hfreeLock⟩ := hen
    obtain ⟨r, hr, hs, hfresh⟩ := startMp_spec h.sound g hmeets
    refine ⟨_, _, ?_, h.answer (k := k) hs hfresh fun _ hl => .inl (hfreeLock hl)⟩
    unfold step
    dsimp only
    rw [hr, Option.map_some]
  | cas k =>
    obtain ⟨c, hc, hno⟩ := hen
    unfold step
    dsimp only
    rw [hc]
    dsimp only
    rcases casMp_spec h hc hno (hmeets c hc) with ⟨i, raise, hrun, hfree, hlt, hi, hraise⟩ |
      ⟨r, hrun, hs⟩
    · rw [hrun, Option.map_some]
      exact ⟨_, _, rfl, h.create hc hfree hlt hi hraise⟩
    · rw [hrun, Option.map_some]
      exact ⟨_, _, rfl, h.answer hs (fun _ _ => h.fresh k c hc) fun hne _ =>
        .inr (h.lock k c hc hne)⟩
  | finish k ok =>
    obtain ⟨⟨g, place⟩, i, hc, hpl⟩ := hen
    subst hpl
    obtain ⟨huse, hpriv⟩ := h.places k _ hc
    have hends := h.ends k
    have hset : ∀ k' c', (s.ends k).calls k' = some c' → c'.place ≠ .setup i := by
      intro k' c' hc' hpl'
      exact (s.calls_ends hc').1 (h.single k' k c' _ i (s.calls_ends hc').2 hc hpl' rfl)
    unfold step
    dsimp only
    rw [hc]
    cases ok with
    | true =>
      refine ⟨_, _, rfl, (hends.write (i := i) (p := { s.table.perm i with key := g.key }) le_rfl
        hmark (.inr huse) (fun _ => h.sound.below i huse) (fun hno => absurd huse hno)
        (fun hne => ⟨(h.fresh k _ hc hne).2, fun k' c' hc' => ?_⟩) hset).serves⟩
      by_contra hne'
      have hheld := h.lock k' c' (s.calls_ends hc').2 hne'
      exact (s.calls_ends hc').1 (Option.some.inj (hheld.symm.trans (h.lock k _ hc hne)))
    | false =>
      exact ⟨_, _, rfl, (hends.write (i := i) (p := { s.table.perm i with mode := 0 }) le_rfl
        hmark (.inl rfl) (fun _ => h.sound.below i huse) (fun _ => hpriv)
        (fun hne => absurd hpriv hne) hset).serves⟩
  | free i =>
    obtain ⟨huse, hno⟩ := hen
    exact ⟨_, _, rfl, (h.write (i := i) (p := { s.table.perm i with key := ipcPrivate, mode := 0 })
      le_rfl hmark (.inl rfl) (fun _ => h.sound.below i huse) (fun _ => rfl)
      (fun hne => absurd rfl hne) fun k c hc hpl => hno ⟨k, c, hc, hpl⟩).serves⟩
  | forget i =>
    obtain ⟨huse, hno⟩ := hen
    exact ⟨_, _, rfl, (h.write (i := i) (p := { s.table.perm i with key := ipcPrivate })
      le_rfl hmark (.inr huse) (fun _ => h.sound.below i huse) (fun _ => rfl)
      (fun hne => absurd rfl hne) fun k c hc hpl => hno ⟨k, c, hc, hpl⟩).serves⟩

/-- The states of a system all of whose steps meet `P`. -/
inductive Reached (cnt : Nat) (P : Mp → Act → Prop) : Mp → Prop
  | start (s : Mp) : s.Idle → Reached cnt P s
  | step (s : Mp) (act : Act) (r : Option Result) (s' : Mp) :
    Reached cnt P s → s.Enabled act → P s act → s.step cnt act = some (r, s') → Reached cnt P s'

theorem Reached.inv (h : Reached cnt (Meets cnt) s) : Inv cnt s := by
  induction h with
  | start s h => exact h.inv
  | step s act r s' _ hen hmeets hrun ih =>
    obtain ⟨r', s₁, hrun', hserves⟩ := step_spec ih hen hmeets
    cases Option.some.inj (hrun.symm.trans hrun')
    exact hserves.inv

end Mp

/-! ## Both builds -/

/-- One processor, or several whose steps meet the condition. -/
theorem ipcget_identifiers (cnt : Nat) :
    (∀ t, UpReached cnt t → Sound cnt t ∧
      ∀ g, ∃ r t', ipcgetUp cnt g t = some (r, t') ∧ Gives cnt t r t') ∧
    ∀ s, Mp.Reached cnt (Mp.Meets cnt) s → Sound cnt s.table ∧
      (∀ k k' c c' i, s.calls k = some c → s.calls k' = some c' → c.place = .setup i →
        c'.place = .setup i → k = k') ∧
      ∀ act, s.Enabled act → s.Meets cnt act → ∃ r s', s.step cnt act = some (r, s') ∧
        (r = some (.failed .enospc) → ∀ j < cnt, s'.table.InUse j) ∧
        ∀ i, r = some (.created i) → i < cnt ∧ ¬s.table.InUse i ∧ s'.table.InUse i := by
  refine ⟨fun t ht => ⟨ht.sound, fun g => ipcgetUp_spec ht.sound g⟩, fun s hs => ?_⟩
  have hinv := hs.inv
  refine ⟨hinv.sound, hinv.single, fun act hen hmeets => ?_⟩
  obtain ⟨r, s', hrun, hserves⟩ := Mp.step_spec hinv hen hmeets
  exact ⟨r, s', hrun, hserves.enospc, hserves.created⟩

/-- The first keyed creation in a table of two entries. -/
theorem ipcget_identifiers_two :
    let t : Table := ⟨fun _ => ⟨0, 0, 0, 0, 0, 0⟩, 0⟩
    let s : Mp := ⟨t, fun _ => none, none⟩
    (∃ r t', ipcgetUp 2 ⟨7, ipcCreat, 0, 0⟩ t = some (r, t') ∧ Gives 2 t r t') ∧
    ∃ r s', s.step 2 (.start 0 ⟨7, ipcCreat, 0, 0⟩) = some (r, s') ∧
      (r = some (.failed .enospc) → ∀ j < 2, s'.table.InUse j) := by
  intro t s
  obtain ⟨hup, hmp⟩ := ipcget_identifiers 2
  obtain ⟨-, -, hstep⟩ := hmp s (.start s ⟨fun _ => rfl, fun _ => rfl, rfl, fun _ => rfl⟩)
  obtain ⟨r, s', hrun, henospc, -⟩ := hstep (.start 0 ⟨7, ipcCreat, 0, 0⟩)
    ⟨rfl, fun _ => rfl⟩ fun _ hmark => absurd hmark (by decide)
  exact ⟨(hup t (.start t (fun _ => rfl) rfl)).2 _, r, s', hrun, henospc⟩

/-- An entry is used twice in a table of one entry; the mark is then 2, and the search for a key
goes out of the table. -/
theorem mark_beyond_table :
    ∃ s, Mp.Reached 1 (fun _ _ => True) s ∧ s.table.mark = 2 ∧
      s.Enabled (.start 0 ⟨7, 0, 0, 0⟩) ∧ s.step 1 (.start 0 ⟨7, 0, 0, 0⟩) = none := by
  refine ⟨_, .step _ (.finish 0 true) _ _ (.step _ (.cas 0) _ _ (.step _ (.start 0 ⟨0, 0, 0, 0⟩) _ _
    (.step _ (.free 0) _ _ (.step _ (.finish 0 true) _ _ (.step _ (.cas 0) _ _
    (.step _ (.start 0 ⟨0, 0, 0, 0⟩) _ _
      (.start ⟨⟨fun _ => ⟨0, 0, 0, 0, 0, 0⟩, 0⟩, fun _ => none, none⟩
        ⟨fun _ => rfl, fun _ => rfl, rfl, fun _ => rfl⟩)
    ⟨rfl, fun _ => rfl⟩ trivial rfl) ⟨_, rfl, nofun⟩ trivial rfl) ⟨_, _, rfl, rfl⟩ trivial rfl)
    ⟨rfl, ?_⟩ trivial rfl) ⟨rfl, fun _ => rfl⟩ trivial rfl) ⟨_, rfl, nofun⟩ trivial rfl)
    ⟨_, _, rfl, rfl⟩ trivial rfl, rfl, ⟨rfl, fun _ => rfl⟩, rfl⟩
  rintro ⟨k, c, hc, -⟩
  cases k with
  | zero => exact nomatch (show none = some c from hc)
  | succ k => exact nomatch (show none = some c from hc)

end Aix413.Ipc
