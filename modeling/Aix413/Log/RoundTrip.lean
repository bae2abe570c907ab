import Aix413.Log.ReadingBack

namespace Aix413.Log.RoundTrip

open Format Writer Reader Appending Layout ReadingBack
open Aix413.Lib.Ring

/-- Bytes of data in all pages of a log. -/
def capacity (logsize : Nat) : Nat := (pagesize - 16) * (logsize - 2)

/-- A position from which the log writer can go on. -/
structure StartOk (ip : LogInode) : Prop where
  size : 3 ≤ ip.logsize
  ptr : 2 ≤ ip.logptr ∧ ip.logptr < ip.logsize
  fin : 8 ≤ ip.logend ∧ ip.logend < pagesize - 8
  word : 4 ∣ ip.logend

/-- The lengths that callers of `dologmvc` use. -/
def LengthsOk (recs : List (LogRDesc × (Nat → Word))) : Prop :=
  ∀ r ∈ recs, 0 ≤ r.1.length.toInt ∧ r.1.length.toInt ≤ pagesize

/-- Every page has been written home. -/
def WrittenHome (disk : Nat → Except LogError LogPage) (ip : LogInode) : Prop :=
  ∀ p, 2 ≤ p → p < ip.logsize → ∃ page, disk p = .ok page ∧ page.ldata = (ip.pages p).ldata

/-- `logread` has counted no page yet, and its pool holds pages of the log. -/
structure Fresh (disk : Nat → Except LogError LogPage) (ip : LogInode) (s : RedoLog) : Prop where
  size : s.logsize = ip.logsize
  count : s.lognumread = 0
  cache : CacheOk disk s

variable {ip : LogInode} {disk : Nat → Except LogError LogPage}

/-- Before the first record, with the writer in turn `n` of the pages. -/
theorem appended_start {n : Nat} (hs : ip.logsize = n + 2) (h : StartOk ip) :
    Appended n (ip.logptr - 2) (ldataWords * n + (ip.logend - 8) / 4) ip [] n
      ((ip.logend - 8) / 4) := by
  obtain ⟨h1, h2, h3, h4⟩ := h
  have hslot : slot 2 n (ip.logptr - 2) n = ip.logptr :=
    slot_of_mem h2.1 (by omega) (dvd_refl n)
  unfold pagesize at h3
  refine ⟨Laid.nil, ⟨rfl, hs, hslot.symm, by omega, ?_⟩, ?_⟩
  · intro i hi
    simp [streamOf] at hi
  · unfold ldataWords
    omega

theorem onDisk {n c w q j : Nat} {stream : List Word} (hn : 0 < n)
    (hat : At n c w ip stream q j) (hd : WrittenHome disk ip) : OnDisk disk n c w stream := by
  constructor
  · intro p hp hp'
    obtain ⟨page, hpage, _⟩ := hd p hp (by rw [hat.size]; exact hp')
    exact ⟨page, hpage⟩
  · intro i hi page hpage
    have hge := slot_ge 2 n c ((w + i) / ldataWords)
    have hlt := slot_lt 2 c hn ((w + i) / ldataWords)
    obtain ⟨page', hpage', hdata⟩ := hd (pageOf n c (w + i)) hge
      (by rw [hat.size]; unfold pageOf; omega)
    rw [hpage'] at hpage
    rw [← Except.ok.inj hpage, hdata]
    exact hat.data i hi

/-- Reading backwards from the address of the last record yields the records
in reverse order, each at its address, with dummy records in between. -/
theorem log_round_trip (cq : Word → Bool) (ip : LogInode)
    (recs : List (LogRDesc × (Nat → Word))) (disk : Nat → Except LogError LogPage) (s : RedoLog)
    (hstart : StartOk ip) (hlen : LengthsOk recs)
    (hcap : ip.logend - 8 + totalSize ip.logend (recs.map Prod.fst) < capacity ip.logsize)
    (hdisk : WrittenHome disk (appendAll cq ip recs).1) (hfresh : Fresh disk ip s)
    (last : Record) (hlast : (appendAll cq ip recs).2.getLast? = some last) :
    ∃ laid, Interspersed (appendAll cq ip recs).2 laid ∧
      readBack disk laid.length s last.addr = .ok laid.reverse := by
  obtain ⟨n, hs⟩ : ∃ n, ip.logsize = n + 2 := ⟨ip.logsize - 2, by have := hstart.size; omega⟩
  have hn : 0 < n := by
    have := hstart.size
    omega
  have h8 := hstart.fin.1
  have h4 := hstart.word
  have hcap' : 4 * (ldataWords * n + (ip.logend - 8) / 4) +
      totalSize ip.logend (recs.map Prod.fst) < 4 * (ldataWords * (2 * n)) := by
    unfold capacity pagesize at hcap
    unfold ldataWords
    rw [hs] at hcap
    omega
  obtain ⟨laid, q, j, heq, haddr, hi, hap⟩ := appended_appendAll hn (Nat.le_add_right _ _) cq recs
    (appended_start hs hstart) Interspersed.nil hlen hcap'
  refine ⟨laid, hi, ?_⟩
  rw [haddr last hlast]
  have hd := onDisk hn hap.at_ hdisk
  have hsize : s.logsize = n + 2 := hfresh.size.trans hs
  have hcount : Counted n (ip.logptr - 2) s ((ldataWords * q + j - 1) / ldataWords) := by
    apply Or.inr
    rw [hfresh.count]
    unfold ldataWords at heq hcap' ⊢
    omega
  exact readBack_ok hn (Nat.le_add_right _ _) hap.laid hd (List.append_nil _).symm hfresh.cache
    hsize hcount

/-- A log of four pages with nothing on its pages, its end at the given place. -/
def logAt (logptr logend : Nat) : LogInode :=
  ⟨4, logptr, logend, 0, 8, 0, nextPageNo 4 logptr, fun _ => makelogp 1⟩

/-- The reader when `logredo` begins with such a log. -/
def readerOf : RedoLog := ⟨4, 0, 0, 3, fun _ => 0, fun _ => makelogp 1⟩

theorem fresh_readerOf (disk : Nat → Except LogError LogPage) (logptr logend : Nat) :
    Fresh disk (logAt logptr logend) readerOf := by
  refine ⟨rfl, rfl, ?_⟩
  intro k _ h2
  exact absurd h2 (Nat.not_succ_le_zero 1)

theorem writtenHome_pages (ip : LogInode) : WrittenHome (fun p => .ok (ip.pages p)) ip :=
  fun _ _ _ => ⟨_, rfl, rfl⟩

def afterOf (length : Short) : LogRDesc := ⟨7, 0, after, length, 0, 0, 0, 0, 0⟩

theorem lengthsOk_afterOf {length : Short} (h : 0 ≤ length.toInt ∧ length.toInt ≤ pagesize)
    (dataptr : Nat → Word) : LengthsOk [(afterOf length, dataptr)] := by
  intro r hr
  rw [List.mem_singleton.mp hr]
  exact h

/-- A record that goes over the end of the last page of the log. -/
theorem log_round_trip_wrap :
    ∃ laid,
      Interspersed (appendAll (fun _ => true) (logAt 3 4056) [(afterOf 4, fun _ => 1)]).2 laid ∧
      readBack
        (fun p => .ok
          ((appendAll (fun _ => true) (logAt 3 4056) [(afterOf 4, fun _ => 1)]).1.pages p))
        laid.length readerOf 8204 = .ok laid.reverse :=
  log_round_trip (fun _ => true) (logAt 3 4056) [(afterOf 4, fun _ => 1)] _ readerOf
    ⟨by decide, by decide, by decide, by decide⟩ (lengthsOk_afterOf (by decide) _) (by decide +kernel)
    (writtenHome_pages _) (fresh_readerOf _ _ _) ⟨8204, afterOf 4, [1]⟩ (by decide +kernel)

theorem ne_nil_of_interspersed {rs es : List Record} (h : Interspersed rs es) (hr : rs ≠ []) :
    es ≠ [] := by
  cases h with
  | nil => exact hr
  | record r h => exact List.concat_ne_nil _ _
  | dummy d h hd => exact List.concat_ne_nil _ _

/-- The read gives back the last record or a dummy record. -/
theorem head_of_interspersed {rs es : List Record} (h : Interspersed rs es) {r e : Record}
    (hr : rs.getLast? = some r) (he : es.getLast? = some e) : e = r ∨ e.ld.type = dum := by
  cases h with
  | nil => simp at hr
  | record r' h =>
    rw [List.getLast?_concat] at hr he
    exact Or.inl (Option.some.inj (he.symm.trans hr))
  | dummy d h hd =>
    rw [List.getLast?_concat] at he
    exact Or.inr (Option.some.inj he ▸ hd)

theorem head_of_readBack {s : RedoLog} {addr : Nat} {es : List Record}
    (h : readBack disk es.length s addr = .ok es.reverse) (hne : es ≠ []) :
    ∃ x, logread disk s addr = .ok x ∧ es.getLast? = some x.2.1 := by
  obtain ⟨es, e, rfl⟩ := es.eq_nil_or_concat.resolve_left hne
  simp only [List.concat_eq_append, List.length_append, List.length_singleton, readBack, bind,
    Except.bind, List.reverse_append, List.reverse_singleton, List.singleton_append] at h
  cases hx : logread disk s addr with
  | error e => simp [hx] at h
  | ok x =>
    rw [hx] at h
    simp only at h
    split at h
    · cases h
    · refine ⟨x, rfl, ?_⟩
      rw [List.concat_eq_append, List.getLast?_concat, ← (List.cons.inj (Except.ok.inj h)).1]

/-- The capacity counts from the start of the page where the log ends: records
that fit in what the pages hold, but come round to that page, erase their own
beginning. -/
theorem not_round_trip :
    ¬ ∀ (cq : Word → Bool) (ip : LogInode) (recs : List (LogRDesc × (Nat → Word)))
      (disk : Nat → Except LogError LogPage) (s : RedoLog) (last : Record),
      StartOk ip → LengthsOk recs →
      totalSize ip.logend (recs.map Prod.fst) < capacity ip.logsize →
      WrittenHome disk (appendAll cq ip recs).1 → Fresh disk ip s →
      (appendAll cq ip recs).2.getLast? = some last →
      ∃ laid, Interspersed (appendAll cq ip recs).2 laid ∧
        readBack disk laid.length s last.addr = .ok laid.reverse := by
  intro h
  have hr : (appendAll (fun _ => true) (logAt 2 4048)
      [(afterOf 4088, fun _ => 1)]).2.getLast? = some ⟨16376, afterOf 4088, List.replicate 1022 1⟩ :=
    by decide +kernel
  obtain ⟨laid, hi, hread⟩ := h (fun _ => true) (logAt 2 4048) [(afterOf 4088, fun _ => 1)] _
    readerOf _ ⟨by decide, by decide, by decide, by decide⟩ (lengthsOk_afterOf (by decide) _)
    (by decide +kernel) (writtenHome_pages _) (fresh_readerOf _ _ _) hr
  have hne : laid ≠ [] := ne_nil_of_interspersed hi (List.cons_ne_nil _ _)
  obtain ⟨x, hx, he⟩ := head_of_readBack hread hne
  -- the words of the record on its first page have been erased
  have hfirst : (logread (fun p => .ok ((appendAll (fun _ => true) (logAt 2 4048)
      [(afterOf 4088, fun _ => 1)]).1.pages p)) readerOf 16376).toOption.map
        (fun x => (x.2.1.data.getD 0 0, x.2.1.ld.type)) = some (0, after) := by
    decide +kernel
  rw [hx] at hfirst
  obtain ⟨hword, htype⟩ := Prod.mk.inj (Option.some.inj hfirst)
  cases head_of_interspersed hi hr he with
  | inl heq =>
    rw [heq] at hword
    exact absurd hword (by decide +kernel)
  | inr hdum =>
    rw [htype] at hdum
    exact absurd hdum (by decide)

end Aix413.Log.RoundTrip
