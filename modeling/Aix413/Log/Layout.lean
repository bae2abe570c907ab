import Aix413.Log.Appending
import Aix413.Log.Reader

namespace Aix413.Log.Layout

open Format Writer Reader Appending

/-- Data that begin at word `b` of the stream end on the same page, or on the
next one without taking a whole page. -/
def Fits (b len : Nat) : Prop :=
  b % ldataWords + len ≤ ldataWords ∨
    (0 < b % ldataWords ∧ b % ldataWords + len ≤ 2 * ldataWords)

def recordWords (r : Record) : List Word := r.data ++ r.ld.words

/-- The record can be found again: it lies from word `b` on. -/
structure Placed (n c b : Nat) (r : Record) : Prop where
  length_nonneg : 0 ≤ r.ld.length.toInt
  data : r.data.length = r.ld.nwords
  fits : Fits b r.data.length
  addr : r.addr = endAddr n c (b + (recordWords r).length)

/-- Records that lie one after the other between two words of the stream. -/
inductive Laid (n c a : Nat) : List Record → Nat → Prop
  | nil : Laid n c a [] a
  | snoc {es : List Record} {b : Nat} {r : Record} (h : Laid n c a es b) (hr : Placed n c b r) :
      Laid n c a (es ++ [r]) (b + (recordWords r).length)

def streamOf (es : List Record) : List Word := es.flatMap recordWords

@[simp] theorem streamOf_append (es fs : List Record) :
    streamOf (es ++ fs) = streamOf es ++ streamOf fs :=
  List.flatMap_append

@[simp] theorem streamOf_single (r : Record) : streamOf [r] = recordWords r := by
  simp [streamOf]

theorem Laid.length {n c a b : Nat} {es : List Record} (h : Laid n c a es b) :
    b = a + (streamOf es).length := by
  induction h with
  | nil => rfl
  | snoc _ _ ih =>
    rw [streamOf_append, streamOf_single, List.length_append, ih]
    omega

/-- The records `recs`, with dummy records put in between. -/
inductive Interspersed : List Record → List Record → Prop
  | nil : Interspersed [] []
  | record {rs es : List Record} (r : Record) (h : Interspersed rs es) :
      Interspersed (rs ++ [r]) (es ++ [r])
  | dummy {rs es : List Record} (d : Record) (h : Interspersed rs es) (hd : d.ld.type = dum) :
      Interspersed rs (es ++ [d])

/-- Bytes that a record takes in the log when the log ends at offset `p`. -/
def takes (p : Nat) (ld : LogRDesc) : Nat := dumlen p (recordLen ld) + (recordLen ld).toNat

section Length

variable {ld : LogRDesc} {j : Nat}

theorem recordLen_eq (h0 : 0 ≤ ld.length.toInt) : recordLen ld = 4 * ld.nwords + 32 := by
  unfold recordLen LogRDesc.nwords
  omega

theorem nwords_le (h1 : ld.length.toInt ≤ 4096) : ld.nwords ≤ 1024 := by
  unfold LogRDesc.nwords
  omega

/-- When no dummy record is put first, the record fits. -/
theorem fits_of_dumlen (h0 : 0 ≤ ld.length.toInt) (hj : j < ldataWords) {b : Nat}
    (hb : b % ldataWords = j) (hd : dumlen (8 + 4 * j) (recordLen ld) = 0) :
    Fits b ld.nwords := by
  rw [recordLen_eq h0] at hd
  unfold Fits
  rw [hb]
  unfold ldataWords at hj ⊢
  unfold dumlen pagesize at hd
  simp only at hd
  split at hd
  · split at hd
    · omega
    · split at hd
      · omega
      · omega
  · omega

/-- A dummy record itself fits, and after it the record does. -/
theorem fits_after_dum (h0 : 0 ≤ ld.length.toInt) (h1 : ld.length.toInt ≤ 4096)
    (hj : j < ldataWords) {b m : Nat} (hb : b % ldataWords = j)
    (hm : dumlen (8 + 4 * j) (recordLen ld) = m) (hpos : 0 < m) :
    32 ≤ m ∧ 4 ∣ m ∧ m ≤ 48 ∧ Fits b ((m - 32) / 4) ∧ Fits (b + m / 4) ld.nwords := by
  have hn := nwords_le h1
  rw [recordLen_eq h0] at hm
  unfold Fits
  unfold ldataWords at hj hb ⊢
  unfold dumlen pagesize at hm
  simp only at hm
  split at hm
  · split at hm
    · refine ⟨by omega, by omega, by omega, by omega, by omega⟩
    · split at hm
      · refine ⟨by omega, by omega, by omega, by omega, by omega⟩
      · omega
  · omega

theorem dumDesc_length {m : Nat} (h : m ≤ 48) :
    (dumDesc m).length.toInt = (m - 32 : Nat) := by
  have hlt : m - 32 < 2 ^ 16 := by omega
  unfold dumDesc
  simp only [BitVec.toInt_ofNat']
  rw [Int.bmod_eq_of_le (by omega) (by omega)]

end Length

/-- The log after a sequence of records, each with its data, and the records
with the addresses that `dologmvc` returned. -/
def appendAll (cq : Word → Bool) : LogInode → List (LogRDesc × (Nat → Word)) →
    LogInode × List Record
  | ip, [] => (ip, [])
  | ip, (ld, dataptr) :: rs =>
    let r := dologmvc cq ip ld dataptr
    let t := appendAll cq r.1 rs
    (t.1, ⟨r.2, ld, wordsAt dataptr ld.nwords⟩ :: t.2)

/-- Bytes that the records take in the log from offset `p` on. -/
def totalSize : Nat → List LogRDesc → Nat
  | _, [] => 0
  | p, ld :: lds => takes p ld + totalSize (8 + (p - 8 + takes p ld) % (pagesize - 16)) lds

/-- The state of a log to which the records `es` have been appended. -/
structure Appended (n c w : Nat) (ip : LogInode) (es : List Record) (q j : Nat) : Prop where
  laid : Laid n c w es (ldataWords * q + j)
  at_ : At n c w ip (streamOf es) q j
  lt : j < ldataWords

section Append

variable {n c w : Nat} {ip : LogInode} {es : List Record} {q j : Nat}

theorem appended_put (h : Appended n c w ip es q j) (hn : 0 < n) (hw : ldataWords * n ≤ w)
    (cq : Word → Bool) (data : List Word) (ld : LogRDesc) (h0 : 0 ≤ ld.length.toInt)
    (hd : data.length = ld.nwords) (hf : Fits (ldataWords * q + j) data.length)
    (hcap : ldataWords * q + j + data.length + 8 < ldataWords * (2 * n)) :
    ∃ q' j', ldataWords * q' + j' = ldataWords * q + j + data.length + 8 ∧
      (putRecord cq ip data ld).2 = endAddr n c (ldataWords * q' + j') ∧
      Appended n c w (putRecord cq ip data ld).1
        (es ++ [⟨(putRecord cq ip data ld).2, ld, data⟩]) q' j' := by
  obtain ⟨⟨q', j', hj', hat⟩, haddr⟩ := putRecord_at hn hw cq h.at_ h.lt data ld hcap
  have hpos := h.at_.pos
  have hpos' := hat.pos
  simp only [List.length_append, length_words] at hpos'
  have heq : ldataWords * q' + j' = ldataWords * q + j + data.length + 8 := by omega
  refine ⟨q', j', heq, by rw [haddr, heq], ?_, ?_, hj'⟩
  · have hl := Laid.snoc h.laid (r := ⟨(putRecord cq ip data ld).2, ld, data⟩) ⟨h0, hd, hf, ?_⟩
    · simp only [recordWords, List.length_append, length_words, ← Nat.add_assoc] at hl
      rwa [heq]
    · simp only [recordWords, List.length_append, length_words, ← Nat.add_assoc]
      exact haddr
  · simpa [recordWords] using hat

theorem length_wordsAt (dataptr : Nat → Word) (m : Nat) : (wordsAt dataptr m).length = m := by
  simp [wordsAt]

theorem takes_eq {ld : LogRDesc} (h0 : 0 ≤ ld.length.toInt) (p : Nat) :
    takes p ld = dumlen p (recordLen ld) + (4 * ld.nwords + 32) := by
  have hr := recordLen_eq h0
  unfold takes
  omega

/-- One call of `dologmvc` appends the record, after a dummy record at most. -/
theorem appended_dologmvc (h : Appended n c w ip es q j) (hn : 0 < n) (hw : ldataWords * n ≤ w)
    (cq : Word → Bool) {ld : LogRDesc} (dataptr : Nat → Word) (h0 : 0 ≤ ld.length.toInt)
    (h1 : ld.length.toInt ≤ 4096)
    (hcap : 4 * (ldataWords * q + j) + takes ip.logend ld < 4 * (ldataWords * (2 * n)))
    {rs : List Record} (hi : Interspersed rs es) :
    ∃ es' q' j', 4 * (ldataWords * q' + j') = 4 * (ldataWords * q + j) + takes ip.logend ld ∧
      (dologmvc cq ip ld dataptr).2 = endAddr n c (ldataWords * q' + j') ∧
      Interspersed
        (rs ++ [⟨(dologmvc cq ip ld dataptr).2, ld, wordsAt dataptr ld.nwords⟩]) es' ∧
      Appended n c w (dologmvc cq ip ld dataptr).1 es' q' j' := by
  have hend := h.at_.fin
  have hj := h.lt
  have hb : (ldataWords * q + j) % ldataWords = j := by
    unfold ldataWords at hj ⊢
    omega
  rw [takes_eq h0, hend] at hcap
  rw [takes_eq h0, hend, dologmvc_eq, hend]
  by_cases hd : 0 < dumlen (8 + 4 * j) (recordLen ld)
  · obtain ⟨h32, h4, h48, hfd, hfr⟩ := fits_after_dum h0 h1 hj hb rfl hd
    generalize dumlen (8 + 4 * j) (recordLen ld) = m at hcap hd h32 h4 h48 hfd hfr
    have hlen := dumDesc_length h48
    have hnw : (dumDesc m).nwords = (m - 32) / 4 := by
      unfold LogRDesc.nwords
      omega
    rw [if_pos hd, movedum_eq cq ip h32 h4]
    obtain ⟨q₁, j₁, heq₁, _, hap₁⟩ := appended_put h hn hw cq
      (wordsAt dataptr ((m - 32) / 4)) (dumDesc m) (by omega) (by rw [length_wordsAt, hnw])
      (by rw [length_wordsAt]; exact hfd) (by rw [length_wordsAt]; omega)
    rw [length_wordsAt] at heq₁
    have hb₁ : ldataWords * q₁ + j₁ = ldataWords * q + j + m / 4 := by omega
    obtain ⟨q₂, j₂, heq₂, haddr, hap₂⟩ := appended_put hap₁ hn hw cq
      (wordsAt dataptr ld.nwords) ld h0 (length_wordsAt _ _)
      (by rw [length_wordsAt, hb₁]; exact hfr) (by rw [length_wordsAt]; omega)
    rw [length_wordsAt] at heq₂
    refine ⟨_, q₂, j₂, by omega, haddr, ?_, hap₂⟩
    exact Interspersed.record _ (Interspersed.dummy _ hi rfl)
  · rw [if_neg hd]
    have hz : dumlen (8 + 4 * j) (recordLen ld) = 0 := by omega
    obtain ⟨q₂, j₂, heq₂, haddr, hap₂⟩ := appended_put h hn hw cq
      (wordsAt dataptr ld.nwords) ld h0 (length_wordsAt _ _)
      (by rw [length_wordsAt]; exact fits_of_dumlen h0 hj hb hz)
      (by rw [length_wordsAt]; omega)
    rw [length_wordsAt] at heq₂
    exact ⟨_, q₂, j₂, by omega, haddr, Interspersed.record _ hi, hap₂⟩

theorem appended_appendAll (hn : 0 < n) (hw : ldataWords * n ≤ w) (cq : Word → Bool)
    (recs : List (LogRDesc × (Nat → Word))) : ∀ {ip : LogInode} {es rs : List Record} {q j : Nat},
    Appended n c w ip es q j → Interspersed rs es →
    (∀ r ∈ recs, 0 ≤ r.1.length.toInt ∧ r.1.length.toInt ≤ 4096) →
    4 * (ldataWords * q + j) + totalSize ip.logend (recs.map Prod.fst) <
      4 * (ldataWords * (2 * n)) →
    ∃ es' q' j', 4 * (ldataWords * q' + j') =
        4 * (ldataWords * q + j) + totalSize ip.logend (recs.map Prod.fst) ∧
      (∀ r, (appendAll cq ip recs).2.getLast? = some r →
        r.addr = endAddr n c (ldataWords * q' + j')) ∧
      Interspersed (rs ++ (appendAll cq ip recs).2) es' ∧
      Appended n c w (appendAll cq ip recs).1 es' q' j' := by
  induction recs with
  | nil =>
    intro ip es rs q j h hi _ _
    refine ⟨es, q, j, rfl, ?_, ?_, h⟩
    · intro r hr
      simp [appendAll] at hr
    · simpa [appendAll] using hi
  | cons r recs ih =>
    obtain ⟨ld, dataptr⟩ := r
    intro ip es rs q j h hi hlen hcap
    obtain ⟨h0, h1⟩ : 0 ≤ ld.length.toInt ∧ ld.length.toInt ≤ 4096 := hlen (ld, dataptr) (by simp)
    simp only [List.map_cons, totalSize] at hcap ⊢
    obtain ⟨es₁, q₁, j₁, heq₁, haddr₁, hi₁, hap₁⟩ := appended_dologmvc h hn hw cq dataptr h0 h1
      (by omega) hi
    have hend := h.at_.fin
    have hend₁ := hap₁.at_.fin
    have hlt₁ := hap₁.lt
    have hlt := h.lt
    have hp : 8 + (ip.logend - 8 + takes ip.logend ld) % (pagesize - 16) =
        (dologmvc cq ip ld dataptr).1.logend := by
      generalize takes ip.logend ld = k at heq₁ ⊢
      rw [hend₁, hend]
      unfold pagesize
      unfold ldataWords at heq₁ hlt₁ hlt
      omega
    rw [hp] at hcap ⊢
    obtain ⟨es₂, q₂, j₂, heq₂, hlast, hi₂, hap₂⟩ := ih hap₁ hi₁ (fun r hr => hlen r (by simp [hr]))
      (by omega)
    refine ⟨es₂, q₂, j₂, by omega, ?_, ?_, ?_⟩
    · intro r hr
      simp only [appendAll] at hr
      cases recs with
      | nil =>
        simp only [appendAll, List.getLast?_singleton, Option.some.injEq] at hr
        simp only [List.map_nil, totalSize, Nat.add_zero] at heq₂
        have hb : ldataWords * q₂ + j₂ = ldataWords * q₁ + j₁ := by omega
        rw [← hr, hb]
        exact haddr₁
      | cons r' recs =>
        apply hlast
        simp only [appendAll] at hr ⊢
        rwa [List.getLast?_cons_cons] at hr
    · rw [List.append_assoc] at hi₂
      exact hi₂
    · exact hap₂

end Append

end Aix413.Log.Layout
