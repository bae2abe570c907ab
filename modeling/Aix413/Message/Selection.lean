import Aix413.Message.Contents

namespace Aix413.Message.Selection

open Lib.LinkedPool Lib.TypedQueue Ipc.Access Queues Calls Contents

/-- The message found and the one before it on `q`, or 0 and 0 where `p` has
none. -/
def Found (p : Entry → Prop) (q : List Entry) (r : Nat × Nat) : Prop :=
  (r = (0, 0) ∧ ∀ x ∈ q, ¬p x) ∨
  ∃ q₁ e q₂, q = q₁ ++ e :: q₂ ∧ r = (e.mp, (blocks q₁).getLast?.getD 0) ∧ p e

variable {qp : MsqidDs} {heap : Heap} {t : Int32} {q pre l : List Entry} {y : Entry}
  {pmp mp smp spmp fuel : Nat}

theorem Found.congr {p p' : Entry → Prop} {r : Nat × Nat} (h : Found p q r)
    (hp : ∀ x ∈ q, p x ↔ p' x) : Found p' q r := by
  rcases h with ⟨hr, hn⟩ | ⟨q₁, e, q₂, hq, hr, he⟩
  · exact .inl ⟨hr, fun x hx hpx => hn x hx ((hp x hx).mpr hpx)⟩
  · exact .inr ⟨q₁, e, q₂, hq, hr, (hp e (by simp [hq])).mp he⟩

/-- What the loop meets at a message of the queue. -/
theorem findmsg_cons (t : Int32) (fuel pmp smp spmp : Nat)
    (hc : Chain (next heap) mp (blocks (y :: l)))
    (hm : ∃ m ∈ heap y.mp, m.msgAttr = y.attr) :
    findmsg heap t (fuel + 1) pmp mp smp spmp =
      (if 0 < t then
        if t ≠ y.attr.mtype then findmsg heap t fuel y.mp (next heap y.mp) smp spmp
        else some (y.mp, pmp)
      else if y.attr.mtype ≤ -t then
        if smp ≠ 0 ∧ ∃ b ∈ heap smp, b.msgAttr.mtype ≤ y.attr.mtype then
          findmsg heap t fuel y.mp (next heap y.mp) smp spmp
        else findmsg heap t fuel y.mp (next heap y.mp) y.mp pmp
      else findmsg heap t fuel y.mp (next heap y.mp) smp spmp) ∧
    Chain (next heap) (next heap y.mp) (blocks l) := by
  obtain ⟨hmp, hne, hrest⟩ := hc
  obtain ⟨m, hm, ha⟩ := hm
  subst hmp
  refine ⟨?_, hrest⟩
  rw [findmsg, if_neg hne, hm, ← ha, next_eq hm]

theorem findmsg_nil (hc : Chain (next heap) mp (blocks [])) :
    findmsg heap t (fuel + 1) pmp mp smp spmp = some (smp, spmp) := by
  rw [findmsg, if_pos (show mp = 0 from hc)]

theorem findmsg_pos (pre : List Entry) (ht : 0 < t) (hmsg : ∀ e ∈ l, ∃ m ∈ heap e.mp, m.msgAttr = e.attr)
    (hc : Chain (next heap) mp (blocks l)) (hf : l.length < fuel)
    (hp : pmp = (blocks pre).getLast?.getD 0) (hpre : ∀ y ∈ pre, y.type ≠ t.toInt) :
    ∃ r, findmsg heap t fuel pmp mp 0 0 = some r ∧
      Found (First (fun y => y.type = t.toInt) (pre ++ l)) (pre ++ l) r := by
  induction l generalizing mp pmp pre fuel with
  | nil =>
    obtain ⟨fuel, rfl⟩ := Nat.exists_eq_succ_of_ne_zero hf.ne_bot
    refine ⟨_, findmsg_nil hc, .inl ⟨rfl, ?_⟩⟩
    rintro x - ⟨q₁, q₂, hq, hx, -⟩
    rw [List.append_nil] at hq
    exact hpre x (by simp [hq]) hx
  | cons y l ih =>
    obtain ⟨fuel, rfl⟩ := Nat.exists_eq_succ_of_ne_zero (Nat.ne_zero_of_lt hf)
    obtain ⟨heq, hrest⟩ := findmsg_cons t fuel pmp 0 0 hc (hmsg y List.mem_cons_self)
    rw [heq, if_pos ht]
    by_cases hy : t = y.attr.mtype
    · rw [if_neg (not_not.mpr hy)]
      refine ⟨_, rfl, .inr ⟨pre, y, l, rfl, by rw [hp], pre, l, rfl, ?_, hpre⟩⟩
      exact congrArg Int32.toInt hy.symm
    · rw [if_pos hy]
      have hty : y.type ≠ t.toInt := fun he => hy (Int32.toInt_inj.mp he).symm
      have hpre' : ∀ z ∈ pre ++ [y], z.type ≠ t.toInt := by
        intro z hz
        rcases List.mem_append.mp hz with hz | hz
        · exact hpre z hz
        · rw [List.mem_singleton.mp hz]
          exact hty
      have hlast : y.mp = (blocks (pre ++ [y])).getLast?.getD 0 := by simp [blocks]
      have h := ih (pre ++ [y]) (fun e he => hmsg e (List.mem_cons_of_mem _ he)) hrest
        (by simpa using hf) hlast hpre'
      simpa only [List.append_assoc, List.singleton_append] using h

theorem toInt_neg (ht : t ≠ Int32.minValue) : (-t).toInt = -t.toInt := by
  have hlo := Int32.le_toInt t
  have hhi := Int32.toInt_lt t
  have hne : t.toInt ≠ -2 ^ 31 := fun he => ht (Int32.toInt_inj.mp he)
  rw [Int32.toInt_neg, Int.bmod_def]
  split_ifs <;> omega

/-- What the loop for a negative type has chosen among the messages passed. -/
def Scanned (b : Int) (q : List Entry) (r : Nat × Nat) : Prop :=
  (r = (0, 0) ∧ ∀ y ∈ q, ¬y.type ≤ b) ∨
  ∃ q₁ e q₂, q = q₁ ++ e :: q₂ ∧ r = (e.mp, (blocks q₁).getLast?.getD 0) ∧ Lowest Entry.type b q e

/-- The loop for a negative type keeps the choice among the messages it has
passed. -/
theorem findmsg_neg (pre : List Entry) {b : Int} (ht : ¬0 < t) (hb : (-t).toInt = b)
    (hmsg : ∀ e ∈ pre ++ l, ∃ m ∈ heap e.mp, m.msgAttr = e.attr)
    (hne : ∀ e ∈ pre, e.mp ≠ 0)
    (hc : Chain (next heap) mp (blocks l)) (hf : l.length < fuel)
    (hp : pmp = (blocks pre).getLast?.getD 0)
    (hpre : Scanned b pre (smp, spmp)) :
    ∃ r, findmsg heap t fuel pmp mp smp spmp = some r ∧
      Found (Lowest Entry.type b (pre ++ l)) (pre ++ l) r := by
  induction l generalizing mp pmp smp spmp pre fuel with
  | nil =>
    obtain ⟨fuel, rfl⟩ := Nat.exists_eq_succ_of_ne_zero (Nat.ne_zero_of_lt hf)
    refine ⟨_, findmsg_nil hc, ?_⟩
    rw [List.append_nil]
    rcases hpre with ⟨hr, hn⟩ | hr
    · exact .inl ⟨hr, fun x hx hl => hn x hx hl.le⟩
    · exact .inr hr
  | cons y l ih =>
    obtain ⟨fuel, rfl⟩ := Nat.exists_eq_succ_of_ne_zero (Nat.ne_zero_of_lt hf)
    obtain ⟨heq, hrest⟩ := findmsg_cons t fuel pmp smp spmp hc (hmsg y (by simp))
    have hy0 : y.mp ≠ 0 := hc.ne_zero (by simp)
    have hne' : ∀ e ∈ pre ++ [y], e.mp ≠ 0 := by
      intro e he
      rcases List.mem_append.mp he with he | he
      · exact hne e he
      · rw [List.mem_singleton.mp he]
        exact hy0
    have hlast : y.mp = (blocks (pre ++ [y])).getLast?.getD 0 := by simp [blocks]
    have hnext : ∀ smp' spmp', Scanned b (pre ++ [y]) (smp', spmp') →
        ∃ r, findmsg heap t fuel y.mp (next heap y.mp) smp' spmp' = some r ∧
          Found (Lowest Entry.type b (pre ++ y :: l)) (pre ++ y :: l) r := by
      intro smp' spmp' h
      have hrec := ih (pre ++ [y]) (by simpa using hmsg) hne' hrest (by simpa using hf) hlast h
      simpa only [List.append_assoc, List.singleton_append] using hrec
    have hle : y.attr.mtype ≤ -t ↔ y.type ≤ b := by
      rw [Int32.le_iff_toInt_le, hb]
      rfl
    rw [heq, if_neg ht]
    by_cases hyb : y.type ≤ b
    · rw [if_pos (hle.mpr hyb)]
      rcases hpre with ⟨hr, hn⟩ | ⟨q₁, e, q₂, hq, hr, he⟩
      · have hs : smp = 0 := congrArg Prod.fst hr
        rw [if_neg (fun h => h.1 hs)]
        refine hnext _ _ (.inr ⟨pre, y, [], by simp, by rw [hp], ?_⟩)
        exact lowest_snoc hyb fun z hz hzb => absurd hzb (hn z hz)
      · have hs : smp = e.mp := congrArg Prod.fst hr
        have hmem : e ∈ pre := by simp [hq]
        obtain ⟨m, hm, ha⟩ := hmsg e (by simp [hmem])
        have hcmp : (∃ b ∈ heap smp, b.msgAttr.mtype ≤ y.attr.mtype) ↔ e.type ≤ y.type := by
          rw [hs, hm]
          simp [ha, Int32.le_iff_toInt_le, Entry.type]
        by_cases hey : e.type ≤ y.type
        · rw [if_pos ⟨hs ▸ hne e hmem, hcmp.mpr hey⟩]
          exact hnext _ _ (.inr ⟨q₁, e, q₂ ++ [y], by simp [hq], hr, he.snoc fun _ => hey⟩)
        · rw [if_neg (fun h => hey (hcmp.mp h.2))]
          refine hnext _ _ (.inr ⟨pre, y, [], by simp, by rw [hp], ?_⟩)
          exact lowest_snoc hyb fun z hz hzb => lt_of_lt_of_le (not_le.mp hey) (he.le_of_mem hz hzb)
    · rw [if_neg (fun h => hyb (hle.mp h))]
      rcases hpre with ⟨hr, hn⟩ | ⟨q₁, e, q₂, hq, hr, he⟩
      · refine hnext _ _ (.inl ⟨hr, ?_⟩)
        intro z hz
        rcases List.mem_append.mp hz with hz | hz
        · exact hn z hz
        · rw [List.mem_singleton.mp hz]
          exact hyb
      · exact hnext _ _ (.inr ⟨q₁, e, q₂ ++ [y], by simp [hq], hr, he.snoc fun h => absurd h hyb⟩)

theorem select_spec (h : Queued qp heap q) (hlen : q.length ≤ msgmnm) (ht : t ≠ Int32.minValue) :
    ∃ r, select qp heap t 0 0 = some r ∧ Found (Due Entry.type t.toInt q) q r := by
  have hmsg : ∀ e ∈ q, ∃ m ∈ heap e.mp, m.msgAttr = e.attr := by
    intro e he
    obtain ⟨m, hm, ha, -⟩ := h.msg e he
    exact ⟨m, hm, ha⟩
  have hc := h.chain
  unfold select
  by_cases hz : t = 0
  · rw [if_pos hz]
    refine ⟨_, rfl, ?_⟩
    cases q with
    | nil => exact .inl ⟨Prod.ext hc rfl, fun x hx => absurd hx List.not_mem_nil⟩
    | cons e q =>
      rw [hc.1, hz]
      exact .inr ⟨[], e, q, rfl, rfl, due_zero⟩
  · rw [if_neg hz]
    by_cases hpos : 0 < t
    · have hpi : 0 < t.toInt := Int32.lt_iff_toInt_lt.mp hpos
      obtain ⟨r, hr, hf⟩ := findmsg_pos [] hpos hmsg hc (Nat.lt_succ_of_le hlen) rfl
        fun y hy => absurd hy List.not_mem_nil
      exact ⟨r, hr, hf.congr fun x _ => (due_pos hpi).symm⟩
    · have hneg : t.toInt < 0 := by
        have hle : ¬0 < t.toInt := fun h => hpos (Int32.lt_iff_toInt_lt.mpr h)
        have hne : t.toInt ≠ 0 := fun h => hz (Int32.toInt_inj.mp h)
        omega
      obtain ⟨r, hr, hf⟩ := findmsg_neg [] hpos (toInt_neg ht) hmsg
        (fun e he => absurd he List.not_mem_nil) hc (Nat.lt_succ_of_le hlen) rfl
        (.inl ⟨rfl, fun y hy => absurd hy List.not_mem_nil⟩)
      exact ⟨r, hr, hf.congr fun x _ => (due_neg hneg).symm⟩

/-- Every message has a type, but the negation of the lowest value has
overflowed. -/
theorem select_minValue (h : Queued qp heap q) (hlen : q.length ≤ msgmnm)
    (htype : ∀ e ∈ q, 1 ≤ e.type) : select qp heap Int32.minValue 0 0 = some (0, 0) := by
  have hmsg : ∀ e ∈ q, ∃ m ∈ heap e.mp, m.msgAttr = e.attr := by
    intro e he
    obtain ⟨m, hm, ha, -⟩ := h.msg e he
    exact ⟨m, hm, ha⟩
  obtain ⟨r, hr, hf⟩ := findmsg_neg [] (by decide : ¬0 < Int32.minValue)
    (by decide : (-Int32.minValue).toInt = -2 ^ 31) hmsg (fun e he => absurd he List.not_mem_nil) h.chain (Nat.lt_succ_of_le hlen) rfl
    (.inl ⟨rfl, fun y hy => absurd hy List.not_mem_nil⟩)
  unfold select
  rw [if_neg (by decide)]
  refine hr.trans ?_
  rcases hf with ⟨hz, -⟩ | ⟨q₁, e, q₂, hq, -, he⟩
  · rw [hz]
  · have h1 := htype e (by rw [← List.nil_append q, hq]; simp)
    have h2 := he.le
    omega

/-- On a queue with a message the lowest value has one to take. -/
theorem due_minValue (hq : q ≠ []) : ∃ x, Due Entry.type Int32.minValue.toInt q x := by
  obtain ⟨e, he⟩ := List.exists_mem_of_ne_nil q hq
  exact exists_due he (.inr (.inr ⟨by decide, (Int32.toInt_lt e.attr.mtype).le⟩))

end Aix413.Message.Selection
