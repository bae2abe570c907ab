import Aix413.Lib.Ring
import Aix413.Log.Writer
import Mathlib.Data.List.GetD

namespace Aix413.Log.Appending

open Format Writer
open Aix413.Lib.Ring

/-- The page that holds word `pos` of the stream of words put in a log of
`n` data pages. -/
def pageOf (n c pos : Nat) : Nat := slot 2 n c (pos / ldataWords)

/-- The address just past the word before `pos`. -/
def endAddr (n c pos : Nat) : Nat :=
  pageOf n c (pos - 1) * pagesize + (8 + 4 * ((pos - 1) % ldataWords + 1))

/-- The words `stream` have been put in the log from word `w` on, and the next
one goes to word `j` of the page of turn `q`. -/
structure At (n c w : Nat) (ip : LogInode) (stream : List Word) (q j : Nat) : Prop where
  pos : w + stream.length = ldataWords * q + j
  size : ip.logsize = n + 2
  ptr : ip.logptr = slot 2 n c q
  fin : ip.logend = 8 + 4 * j
  data : ∀ i < stream.length,
    (ip.pages (pageOf n c (w + i))).ldata ((w + i) % ldataWords) = stream.getD i 0

variable {n c w : Nat} {ip : LogInode} {stream : List Word} {q j : Nat}

theorem copyWords_old {p : LogPage} {ws : List Word} {i : Nat} (h : i < j) :
    (copyWords p (8 + 4 * j) ws).ldata i = p.ldata i := by
  have hj : (8 + 4 * j - 8) / 4 = j := by omega
  simp only [copyWords, hj]
  rw [if_neg (by omega)]

theorem copyWords_new {p : LogPage} {ws : List Word} {i : Nat} (h : i < ws.length) :
    (copyWords p (8 + 4 * j) ws).ldata (j + i) = ws.getD i 0 := by
  have hj : (8 + 4 * j - 8) / 4 = j := by omega
  simp only [copyWords, hj]
  rw [if_pos (by omega), Nat.add_sub_cancel_left]

/-- A chunk that fits on the page is put there. -/
theorem At.chunk (h : At n c w ip stream q j) (hw : ldataWords * n ≤ w)
    (hq : q < 2 * n) (desc : Bool) (ws rest : List Word) (hfit : j + ws.length ≤ ldataWords) :
    At n c w (moveChunk desc ip ws rest) (stream ++ ws) q (j + ws.length) := by
  have hpos := h.pos
  have hend := h.fin
  have hptr := h.ptr
  unfold ldataWords at hw hfit hpos
  refine ⟨?_, h.size, h.ptr, ?_, ?_⟩
  · rw [List.length_append, ldataWords]
    omega
  · simp only [moveChunk]
    omega
  · intro i hi
    rw [List.length_append] at hi
    simp only [moveChunk]
    by_cases hold : i < stream.length
    · have hd := h.data i hold
      rw [List.getD_append _ _ _ _ hold, ← hd]
      by_cases hp : pageOf n c (w + i) = ip.logptr
      · have hlap : (w + i) / 1020 = q := by
          unfold pageOf ldataWords at hp
          exact slot_inj (by omega) (by omega) (hp.trans hptr)
        rw [hp, Function.update_self, hend]
        exact copyWords_old (by unfold ldataWords; omega)
      · rw [Function.update_of_ne hp]
    · have hlap : (w + i) / 1020 = q := by omega
      have hidx : (w + i) % 1020 = j + (i - stream.length) := by omega
      have hp : pageOf n c (w + i) = ip.logptr := by
        unfold pageOf ldataWords
        rw [hlap, hptr]
      rw [hp, Function.update_self, hend]
      unfold ldataWords
      rw [hidx, copyWords_new (by omega), List.getD_append_right _ _ _ _ (by omega)]

/-- A full page is left for the next one, whose words are not in use. -/
theorem At.turn (h : At n c w ip stream q ldataWords) (hn : 0 < n) (hw : ldataWords * n ≤ w)
    (hq : q + 1 < 2 * n) (cq : Word → Bool) :
    At n c w (nextpage cq ip) stream (q + 1) 0 := by
  have hpos := h.pos
  have hptr := h.ptr
  have hsize := h.size
  unfold ldataWords at hw hpos
  have hnext : nextPageNo ip.logsize ip.logptr = slot 2 n c (q + 1) := by
    rw [slot_succ hn, nextPageNo, hsize, hptr]
    apply if_congr _ rfl rfl
    omega
  refine ⟨?_, h.size, hnext, rfl, ?_⟩
  · unfold ldataWords
    omega
  · intro i hi
    have hd := h.data i hi
    have hne : pageOf n c (w + i) ≠ nextPageNo ip.logsize ip.logptr := by
      intro he
      rw [hnext] at he
      unfold pageOf ldataWords at he
      have := slot_inj (by omega) (by omega) he
      omega
    simp only [nextpage]
    rw [Function.update_of_ne hne]
    by_cases hp : pageOf n c (w + i) = ip.logptr
    · rw [hp, Function.update_self]
      rw [hp] at hd
      split
      · exact hd
      · exact hd
    · rw [Function.update_of_ne hp]
      exact hd

/-- `movedata` appends the words, and returns the address past the last one. -/
theorem moveLoop_at (hn : 0 < n) (hw : ldataWords * n ≤ w) (cq : Word → Bool) (desc : Bool)
    (fuel : Nat) : ∀ {ip : LogInode} {stream ws : List Word} {q j : Nat},
    At n c w ip stream q j → j < ldataWords → ws ≠ [] → ws.length ≤ fuel →
    ldataWords * q + j + ws.length < ldataWords * (2 * n) →
    (∃ q' j', j' < ldataWords ∧
      At n c w (moveLoop cq desc fuel ip ws).1 (stream ++ ws) q' j') ∧
    (moveLoop cq desc fuel ip ws).2 = endAddr n c (ldataWords * q + j + ws.length) := by
  induction fuel with
  | zero =>
    intro ip stream ws q j _ _ hne hf
    exact absurd (List.length_eq_zero_iff.mp (by omega)) hne
  | succ fuel ih =>
    intro ip stream ws q j h hj hne hf hcap
    have hlen : 0 < ws.length := List.length_pos_iff.mpr hne
    have hend := h.fin
    have hptr := h.ptr
    unfold ldataWords at hj hcap
    have hk : min (pagesize - 8 - ip.logend) (4 * ws.length) / 4 = min (1020 - j) ws.length := by
      unfold pagesize
      omega
    have htake : (ws.take (min (1020 - j) ws.length)).length = min (1020 - j) ws.length := by
      rw [List.length_take]
      omega
    have hc := h.chunk hw (by omega) desc (ws.take (min (1020 - j) ws.length))
      (ws.drop (min (1020 - j) ws.length)) (by unfold ldataWords; omega)
    rw [htake] at hc
    simp only [moveLoop, hk]
    have hcend := hc.fin
    have hcptr := hc.ptr
    have haddr : slot 2 n c q * pagesize + (8 + 4 * (j + min (1020 - j) ws.length)) =
        endAddr n c (1020 * q + j + min (1020 - j) ws.length) := by
      unfold endAddr pageOf ldataWords
      have hdiv : (1020 * q + j + min (1020 - j) ws.length - 1) / 1020 = q := by omega
      have hmod : (1020 * q + j + min (1020 - j) ws.length - 1) % 1020 + 1 =
          j + min (1020 - j) ws.length := by omega
      rw [hdiv, hmod]
    rw [hcend, hcptr, haddr]
    by_cases hfull : j + ws.length < 1020
    · -- the words end on this page, before its end
      have hall : min (1020 - j) ws.length = ws.length := by omega
      rw [hall, List.take_length, List.drop_length] at hc ⊢
      rw [if_pos (by unfold pagesize; omega)]
      exact ⟨⟨q, _, by unfold ldataWords; omega, hc⟩, rfl⟩
    · have hj' : j + min (1020 - j) ws.length = 1020 := by omega
      rw [hj'] at hc
      rw [if_neg (by unfold pagesize; omega)]
      have ht := hc.turn hn hw (by omega) cq
      by_cases hrest : ws.drop (min (1020 - j) ws.length) = []
      · -- they fill the page
        have hle := List.drop_eq_nil_iff.mp hrest
        have hall : min (1020 - j) ws.length = ws.length := by omega
        rw [if_pos hrest]
        rw [hall, List.take_length, List.drop_length] at ht ⊢
        exact ⟨⟨q + 1, 0, by unfold ldataWords; omega, ht⟩, rfl⟩
      · rw [if_neg hrest]
        have hdrop := List.length_drop (i := min (1020 - j) ws.length) (l := ws)
        obtain ⟨hat, had⟩ := ih ht (by unfold ldataWords; omega) hrest (by omega)
          (by unfold ldataWords; omega)
        rw [List.append_assoc, List.take_append_drop] at hat
        refine ⟨hat, had.trans ?_⟩
        apply congrArg
        unfold ldataWords
        omega

theorem movedata_at (hn : 0 < n) (hw : ldataWords * n ≤ w) (cq : Word → Bool) (desc : Bool)
    {ws : List Word} (h : At n c w ip stream q j) (hj : j < ldataWords) (hne : ws ≠ [])
    (hcap : ldataWords * q + j + ws.length < ldataWords * (2 * n)) :
    (∃ q' j', j' < ldataWords ∧ At n c w (movedata cq desc ip ws).1 (stream ++ ws) q' j') ∧
    (movedata cq desc ip ws).2 = endAddr n c (ldataWords * q + j + ws.length) :=
  moveLoop_at hn hw cq desc ws.length h hj hne le_rfl hcap

/-- Data, if any, and a descriptor. -/
def putRecord (cq : Word → Bool) (ip : LogInode) (data : List Word) (ld : LogRDesc) :
    LogInode × Nat :=
  movedata cq true (if data = [] then ip else (movedata cq false ip data).1) ld.words

theorem putRecord_at (hn : 0 < n) (hw : ldataWords * n ≤ w) (cq : Word → Bool)
    (h : At n c w ip stream q j) (hj : j < ldataWords) (data : List Word) (ld : LogRDesc)
    (hcap : ldataWords * q + j + data.length + 8 < ldataWords * (2 * n)) :
    (∃ q' j', j' < ldataWords ∧
      At n c w (putRecord cq ip data ld).1 (stream ++ (data ++ ld.words)) q' j') ∧
    (putRecord cq ip data ld).2 = endAddr n c (ldataWords * q + j + data.length + 8) := by
  have hld : ld.words ≠ [] := by simp [LogRDesc.words]
  unfold putRecord
  split
  next hnil =>
    subst hnil
    have hm := movedata_at hn hw cq true h hj hld (by rw [length_words]; simpa using hcap)
    simpa using hm
  next hne =>
    obtain ⟨⟨q₁, j₁, hj₁, h₁⟩, _⟩ := movedata_at hn hw cq false h hj hne (by omega)
    have hpos := h.pos
    have hpos₁ := h₁.pos
    rw [List.length_append] at hpos₁
    have heq : ldataWords * q₁ + j₁ = ldataWords * q + j + data.length := by omega
    have hm := movedata_at hn hw cq true h₁ hj₁ hld (by rw [length_words]; omega)
    rw [length_words, heq, List.append_assoc] at hm
    exact hm

theorem movedum_eq (cq : Word → Bool) (ip : LogInode) {m : Nat} (h32 : 32 ≤ m) (h4 : 4 ∣ m)
    (dataptr : Nat → Word) :
    movedum cq ip m dataptr =
      (putRecord cq ip (wordsAt dataptr ((m - 32) / 4)) (dumDesc m)).1 := by
  have hnil : wordsAt dataptr ((m - 32) / 4) = [] ↔ ¬ m > 32 := by
    simp only [wordsAt, List.map_eq_nil_iff, List.range_eq_nil]
    omega
  simp only [movedum, putRecord, hnil, ite_not]

/-- `dologmvc` without its dummy record. -/
theorem dologmvc_eq (cq : Word → Bool) (ip : LogInode) (ld : LogRDesc) (dataptr : Nat → Word) :
    dologmvc cq ip ld dataptr =
      putRecord cq
        (if dumlen ip.logend (recordLen ld) > 0 then
          movedum cq ip (dumlen ip.logend (recordLen ld)) dataptr else ip)
        (wordsAt dataptr ld.nwords) ld := by
  have hw : ((recordLen ld - 32) / 4).toNat = ld.nwords := by
    unfold recordLen LogRDesc.nwords
    omega
  have hnil : wordsAt dataptr ld.nwords = [] ↔ ¬ recordLen ld > 32 := by
    simp only [wordsAt, List.map_eq_nil_iff, List.range_eq_nil, LogRDesc.nwords, recordLen]
    omega
  simp only [dologmvc, putRecord, hw, hnil, ite_not]

end Aix413.Log.Appending
