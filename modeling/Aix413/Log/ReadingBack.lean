import Aix413.Log.Layout

namespace Aix413.Log.ReadingBack

open Format Writer Reader Appending Layout
open Aix413.Lib.Ring

/-- The pages of the log can be read, and hold the words of the stream. -/
structure OnDisk (disk : Nat → Except LogError LogPage) (n c w : Nat) (stream : List Word) :
    Prop where
  readable : ∀ p, 2 ≤ p → p < n + 2 → ∃ page, disk p = .ok page
  data : ∀ i < stream.length, ∀ page, disk (pageOf n c (w + i)) = .ok page →
    page.ldata ((w + i) % ldataWords) = stream.getD i 0

/-- What the buffer pool holds is what is on disk. -/
def CacheOk (disk : Nat → Except LogError LogPage) (s : RedoLog) : Prop :=
  ∀ k < 4, 2 ≤ s.logptr k → disk (s.logptr k) = .ok (s.logp k)

/-- The reader stands just past the word before `pos`. -/
structure Cursor (disk : Nat → Except LogError LogPage) (n c : Nat) (s : RedoLog)
    (buf off pos : Nat) : Prop where
  size : s.logsize = n + 2
  cache : CacheOk disk s
  ptr : s.logptr buf = pageOf n c (pos - 1)
  page : disk (pageOf n c (pos - 1)) = .ok (s.logp buf)
  off : off = 8 + 4 * ((pos - 1) % ldataWords + 1)

/-- The counters of `logread` are the same. -/
def SameCount (s s' : RedoLog) : Prop := s'.loglastp = s.loglastp ∧ s'.lognumread = s.lognumread

variable {disk : Nat → Except LogError LogPage} {n c w : Nat} {stream : List Word} {s : RedoLog}

theorem endAddr_div (pos : Nat) : endAddr n c pos / pagesize = pageOf n c (pos - 1) := by
  have h := Nat.mod_lt (pos - 1) (by decide : 0 < 1020)
  unfold endAddr pagesize ldataWords
  omega

theorem endAddr_mod (pos : Nat) :
    endAddr n c pos % pagesize = 8 + 4 * ((pos - 1) % ldataWords + 1) := by
  have h := Nat.mod_lt (pos - 1) (by decide : 0 < 1020)
  unfold endAddr pagesize ldataWords
  omega

theorem getpage_ok (hc : CacheOk disk s) {pno : Nat} {page : LogPage} (hp : 2 ≤ pno)
    (hd : disk pno = .ok page) :
    ∃ s' k, getpage disk s pno = .ok (s', k) ∧ s'.logptr k = pno ∧ s'.logp k = page ∧
      CacheOk disk s' ∧ SameCount s s' ∧ s'.logsize = s.logsize := by
  unfold getpage
  cases hf : (List.range 4).find? (fun k => s.logptr k == pno) with
  | some k =>
    have hk : s.logptr k = pno := by simpa using List.find?_some hf
    have hlt : k < 4 := List.mem_range.mp (List.mem_of_find?_eq_some hf)
    have hpage := hc k hlt (by omega)
    rw [hk, hd] at hpage
    exact ⟨s, k, rfl, hk, (Except.ok.inj hpage).symm, hc, ⟨rfl, rfl⟩, rfl⟩
  | none =>
    rw [hd]
    refine ⟨_, _, rfl, Function.update_self _ _ _, Function.update_self _ _ _, ?_, ⟨rfl, rfl⟩, rfl⟩
    intro k hk h2
    simp only at h2 ⊢
    by_cases hkk : k = (s.nextrep + 1) % 4
    · subst hkk
      rw [Function.update_self, Function.update_self]
      exact hd
    · rw [Function.update_of_ne hkk] at h2 ⊢
      rw [Function.update_of_ne hkk]
      exact hc k hk h2

theorem cursor_at (hn : 0 < n) (hd : OnDisk disk n c w stream) (hc : CacheOk disk s)
    (hs : s.logsize = n + 2) (pos : Nat) :
    ∃ s' buf, getpage disk s (pageOf n c (pos - 1)) = .ok (s', buf) ∧
      Cursor disk n c s' buf (8 + 4 * ((pos - 1) % ldataWords + 1)) pos ∧ SameCount s s' := by
  have hge := slot_ge 2 n c ((pos - 1) / ldataWords)
  have hlt := slot_lt 2 c hn ((pos - 1) / ldataWords)
  obtain ⟨page, hpage⟩ := hd.readable (pageOf n c (pos - 1)) hge (by unfold pageOf; omega)
  obtain ⟨s', k, hg, h1, h2, h3, h4, h5⟩ := getpage_ok hc hge hpage
  exact ⟨s', k, hg, ⟨h5.trans hs, h3, h1, h2 ▸ hpage, rfl⟩, h4⟩

/-- The words of a page that lie in the stream. -/
theorem wordsBefore_eq (hd : OnDisk disk n c w stream) {page : LogPage} {lap j m e : Nat}
    (hpage : disk (slot 2 n c lap) = .ok page) (hj : j ≤ ldataWords) (hm : m ≤ j)
    (he : w + e = ldataWords * lap + j) (hme : m ≤ e) (hlen : e ≤ stream.length) :
    wordsBefore page j m = (stream.drop (e - m)).take m := by
  unfold ldataWords at hj he
  apply List.ext_getElem
  · simp only [wordsBefore, List.length_map, List.length_range, List.length_take,
      List.length_drop]
    omega
  · intro i hi hi'
    have him : i < m := by simpa [wordsBefore] using hi
    simp only [wordsBefore, List.getElem_map, List.getElem_range, List.getElem_take,
      List.getElem_drop]
    have hdiv : (w + (e - m + i)) / 1020 = lap := by omega
    have hmod : (w + (e - m + i)) % 1020 = j - m + i := by omega
    have hdat := hd.data (e - m + i) (by omega) page (by unfold pageOf ldataWords; rwa [hdiv])
    unfold ldataWords at hdat
    rw [hmod] at hdat
    rw [hdat, List.getD_eq_getElem _ _ (by omega)]

theorem prevPageNo_eq (hn : 0 < n) (lap : Nat) :
    prevPageNo (n + 2) (slot 2 n c (lap + 1)) = slot 2 n c lap := by
  have hge := slot_ge 2 n c (lap + 1)
  rw [slot_pred hn lap, prevPageNo]
  split <;> split <;> omega

/-- `movewords` gives the words of the stream that end at the cursor. -/
theorem movewords_ok (hn : 0 < n) (hw : ldataWords ≤ w) (hd : OnDisk disk n c w stream)
    {buf off e m : Nat} (hcur : Cursor disk n c s buf off (w + e)) (hme : m ≤ e)
    (hlen : e ≤ stream.length) (hm : m < (w + e - 1) % ldataWords + 1 + ldataWords) :
    ∃ s' buf' off', movewords disk s m buf off =
        .ok (s', buf', off', (stream.drop (e - m)).take m) ∧
      Cursor disk n c s' buf' off' (w + (e - m)) ∧ SameCount s s' := by
  obtain ⟨hsize, hcache, hptr, hpage, hoff⟩ := hcur
  unfold ldataWords at hw hm hoff
  obtain ⟨lap, hlap⟩ : ∃ lap, (w + e - 1) / 1020 = lap := ⟨_, rfl⟩
  have hptr' : s.logptr buf = slot 2 n c lap := by rw [hptr, pageOf, ldataWords, hlap]
  have hpage' : disk (slot 2 n c lap) = .ok (s.logp buf) := by
    rw [← hpage, pageOf, ldataWords, hlap]
  have hj : (off - 8) / 4 = (w + e - 1) % 1020 + 1 := by omega
  unfold movewords
  rw [hj]
  generalize hjj : (w + e - 1) % 1020 + 1 = j at *
  have hpos : w + e = 1020 * lap + j := by omega
  simp only
  by_cases hturn : m < j
  · have hmin : min m j = m := by omega
    rw [hmin, if_neg (by omega), wordsBefore_eq hd hpage' (by unfold ldataWords; omega) hturn.le
      hpos hme hlen]
    refine ⟨s, buf, _, rfl, ⟨hsize, hcache, ?_, ?_, ?_⟩, ⟨rfl, rfl⟩⟩
    · have hdiv : (w + (e - m) - 1) / 1020 = lap := by omega
      rw [hptr', pageOf, ldataWords, hdiv]
    · have hdiv : (w + (e - m) - 1) / 1020 = lap := by omega
      rw [pageOf, ldataWords, hdiv]
      exact hpage'
    · unfold ldataWords
      omega
  · have hmin : min m j = j := by omega
    obtain ⟨lap', rfl⟩ : ∃ lap', lap = lap' + 1 := ⟨lap - 1, by omega⟩
    obtain ⟨s', k, hg, hc', hsame⟩ := cursor_at hn hd hcache hsize (1020 * (lap' + 1))
    have hdiv : (1020 * (lap' + 1) - 1) / 1020 = lap' := by omega
    have hmod : (1020 * (lap' + 1) - 1) % 1020 = 1019 := by omega
    rw [pageOf, ldataWords, hdiv] at hg
    rw [hmin, if_pos (by omega), hptr', hsize, prevPageNo_eq hn lap', hg]
    have hcpage := hc'.page
    have hcptr := hc'.ptr
    rw [pageOf, ldataWords, hdiv] at hcpage hcptr
    have hfirst := wordsBefore_eq hd hcpage le_rfl (m := m - j) (e := e - j)
      (by unfold ldataWords; omega) (by unfold ldataWords; omega) (by omega) (by omega)
    have hlast := wordsBefore_eq hd hpage' (by unfold ldataWords; omega) le_rfl hpos (by omega)
      hlen
    refine ⟨s', k, pagesize - 8 - 4 * (m - j), ?_, ⟨hc'.size, hc'.cache, ?_, ?_, ?_⟩, hsame⟩
    · simp only [hfirst, hlast, Except.ok.injEq, Prod.mk.injEq, true_and]
      have he : e - j - (m - j) = e - m := by omega
      have hsplit : (stream.drop (e - m)).take m =
          (stream.drop (e - m)).take (m - j) ++ ((stream.drop (e - m)).drop (m - j)).take j := by
        have hmj : m - j + j = m := by omega
        rw [← List.take_add, hmj]
      have hdj : e - m + (m - j) = e - j := by omega
      rw [he, hsplit, List.drop_drop, hdj]
    · have hdiv' : (w + (e - m) - 1) / 1020 = lap' := by omega
      rw [hcptr, pageOf, ldataWords, hdiv']
    · have hdiv' : (w + (e - m) - 1) / 1020 = lap' := by omega
      rw [pageOf, ldataWords, hdiv']
      exact hcpage
    · unfold pagesize ldataWords
      omega

theorem Cursor.addr {buf off pos : Nat} (h : Cursor disk n c s buf off pos) :
    s.logptr buf * pagesize + off = endAddr n c pos := by
  rw [h.ptr, h.off, endAddr]

/-- Data that fit are read with one page turn at most. -/
theorem fits_lt {b len : Nat} (h : Fits b len) (hlen : 0 < len) :
    len < (b + len - 1) % ldataWords + 1 + ldataWords := by
  unfold Fits at h
  unfold ldataWords at h ⊢
  omega

theorem nwords_eq_zero {ld : LogRDesc} (h0 : 0 ≤ ld.length.toInt) :
    ld.nwords = 0 ↔ ¬ ld.length.toInt > 0 := by
  unfold LogRDesc.nwords
  omega

/-- `logread` finds the record that ends at the address, and where it begins. -/
theorem logread_ok (hn : 0 < n) (hw : ldataWords ≤ w) (hd : OnDisk disk n c w stream)
    {before after : List Word} {r : Record} (hstream : stream = before ++ (recordWords r ++ after))
    (hr : Placed n c (w + before.length) r) {s₁ : RedoLog}
    (hcount : countPage s (r.addr / pagesize) = .ok s₁) (hcache : CacheOk disk s₁)
    (hsize : s₁.logsize = n + 2) :
    ∃ s₂, logread disk s r.addr = .ok (s₂, r, endAddr n c (w + before.length)) ∧
      CacheOk disk s₂ ∧ s₂.logsize = n + 2 ∧ SameCount s₁ s₂ := by
  obtain ⟨addr, ld, data⟩ := r
  obtain ⟨h0, hdata, hfits, haddr⟩ := hr
  simp only [recordWords, List.append_assoc] at hstream
  simp only [recordWords, List.length_append, length_words, ← Nat.add_assoc] at haddr
  simp only at h0 hdata hfits hcount ⊢
  have hlen : before.length + data.length + 8 ≤ stream.length := by
    rw [hstream]
    simp only [List.length_append, length_words]
    omega
  have hdesc : (stream.drop (before.length + data.length)).take 8 = ld.words := by
    rw [hstream, ← List.append_assoc, ← List.length_append, List.drop_left]
    exact List.take_left' rfl
  have hbody : (stream.drop before.length).take data.length = data := by
    rw [hstream, List.drop_left]
    exact List.take_left
  subst haddr
  obtain ⟨s₂, k, hget, hcur, hsame⟩ := cursor_at hn hd hcache hsize
    (w + before.length + data.length + 8)
  rw [endAddr_div] at hcount
  have hpos : w + before.length + data.length + 8 = w + (before.length + data.length + 8) := by
    omega
  have hcur' := hpos ▸ hcur
  obtain ⟨s₃, k₃, off₃, hmove, hcur₃, hsame₃⟩ := movewords_ok (m := 8) hn hw hd hcur' (by omega)
    hlen (by unfold ldataWords; omega)
  rw [Nat.add_sub_cancel, hdesc, ← hpos] at hmove
  rw [Nat.add_sub_cancel] at hcur₃
  simp only [logread, endAddr_div, endAddr_mod, hcount, hget, hmove, ofWords_words, bind,
    Except.bind]
  by_cases hz : ld.length.toInt > 0
  · have hm : data.length ≠ 0 := by
      rw [hdata]
      exact mt (nwords_eq_zero h0).mp (not_not.mpr hz)
    obtain ⟨s₄, k₄, off₄, hmove₄, hcur₄, hsame₄⟩ := movewords_ok (m := data.length) hn hw hd hcur₃
      (by omega) (by omega) (by rw [← Nat.add_assoc]; exact fits_lt hfits (by omega))
    rw [Nat.add_sub_cancel, hbody, hdata] at hmove₄
    rw [Nat.add_sub_cancel] at hcur₄
    rw [if_pos hz, hmove₄]
    refine ⟨s₄, ?_, hcur₄.cache, hcur₄.size, ?_, ?_⟩
    · simp only [hcur₄.addr]
    · exact hsame₄.1.trans (hsame₃.1.trans hsame.1)
    · exact hsame₄.2.trans (hsame₃.2.trans hsame.2)
  · have hm : data.length = 0 := hdata.trans ((nwords_eq_zero h0).mpr hz)
    have hnil : data = [] := List.length_eq_zero_iff.mp hm
    subst hnil
    rw [if_neg hz]
    refine ⟨s₃, ?_, hcur₃.cache, hcur₃.size, ?_, ?_⟩
    · simp only [hcur₃.addr, List.length_nil, Nat.add_zero]
    · exact hsame₃.1.trans hsame.1
    · exact hsame₃.2.trans hsame.2

/-- Pages that `logread` may still count when the next record ends in turn
`top`. -/
def Counted (n c : Nat) (s : RedoLog) (top : Nat) : Prop :=
  (s.loglastp = slot 2 n c top ∧ s.lognumread + top ≤ 2 * n) ∨ s.lognumread + top + 1 ≤ 2 * n

theorem Counted.mono {top top' : Nat} (h : Counted n c s top) (hle : top' ≤ top) :
    Counted n c s top' := by
  rcases h with ⟨hl, h⟩ | h
  · by_cases he : top' = top
    · rw [he]
      exact Or.inl ⟨hl, h⟩
    · exact Or.inr (by omega)
  · exact Or.inr (by omega)

theorem Counted.same {s' : RedoLog} {top : Nat} (h : Counted n c s top) (hs : SameCount s s') :
    Counted n c s' top := by
  unfold Counted
  rw [hs.1, hs.2]
  exact h

theorem countPage_ok {top : Nat} (h : Counted n c s top) (hs : s.logsize = n + 2)
    (hc : CacheOk disk s) (hn : n ≤ top) :
    ∃ s', countPage s (slot 2 n c top) = .ok s' ∧ CacheOk disk s' ∧ s'.logsize = n + 2 ∧
      Counted n c s' top := by
  unfold countPage
  by_cases hl : slot 2 n c top = s.loglastp
  · rw [if_pos hl]
    exact ⟨s, rfl, hc, hs, h⟩
  · have hle : s.lognumread + top + 1 ≤ 2 * n := by
      rcases h with ⟨he, _⟩ | h
      · exact absurd he.symm hl
      · exact h
    rw [if_neg hl, if_neg (by omega)]
    refine ⟨_, rfl, hc, hs, Or.inl ⟨rfl, ?_⟩⟩
    simp only
    omega

/-- Reading back gives the records that were put in the log, last first. -/
theorem readBack_ok (hn : 0 < n) (hw : ldataWords * n ≤ w) {es : List Record} {b : Nat}
    (hl : Laid n c w es b) (hd : OnDisk disk n c w stream) :
    ∀ {s : RedoLog} {after : List Word}, stream = streamOf es ++ after → CacheOk disk s →
      s.logsize = n + 2 → Counted n c s ((b - 1) / ldataWords) →
      readBack disk es.length s (endAddr n c b) = .ok es.reverse := by
  have hw1 : ldataWords ≤ w := le_trans (Nat.le_mul_of_pos_right _ hn) hw
  induction hl with
  | nil =>
    intro s after _ _ _ _
    rfl
  | @snoc es b r h hr ih =>
    intro s after hstream hcache hsize hcount
    have hb := h.length
    have hr' := hr
    rw [hb] at hr'
    have hpages : n ≤ (b + (recordWords r).length - 1) / ldataWords := by
      unfold ldataWords at hw ⊢
      simp only [recordWords, List.length_append, length_words]
      omega
    obtain ⟨s₁, hc₁, hcache₁, hsize₁, hcount₁⟩ := countPage_ok hcount hsize hcache hpages
    have haddr : r.addr / pagesize = slot 2 n c ((b + (recordWords r).length - 1) / ldataWords) := by
      rw [hr.addr, endAddr_div, pageOf]
    rw [← haddr] at hc₁
    rw [streamOf_append, streamOf_single, List.append_assoc] at hstream
    obtain ⟨s₂, hread, hcache₂, hsize₂, hsame⟩ := logread_ok hn hw1 hd hstream hr' hc₁ hcache₁
      hsize₁
    have hmono : (b - 1) / ldataWords ≤ (b + (recordWords r).length - 1) / ldataWords :=
      Nat.div_le_div_right (by omega)
    have hrest := ih hstream hcache₂ hsize₂ ((hcount₁.same hsame).mono hmono)
    rw [← hr.addr, List.length_append, List.length_singleton, readBack, hread]
    simp only [bind, Except.bind, ← hb, hrest, List.reverse_append, List.reverse_singleton,
      List.singleton_append]

end Aix413.Log.ReadingBack
