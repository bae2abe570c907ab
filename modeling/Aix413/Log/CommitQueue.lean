import Aix413.Log.Committing
import Aix413.Log.Reader

namespace Aix413.Log.Committing

open Format Writer Reader

/-! ## What the queue stands for -/

/-- Two pages at most have something on the commit queue: the page left last,
with its transactions and behind them its marker, and the current page, whose
marker is there only while the log writer sleeps. -/
structure View where
  old : Option (List Nat)
  cur : List Nat
  own : Bool

/-- The transaction, if the block is no marker. -/
def Blk.tid? : Blk → Option Nat
  | tran t => some t
  | eopm _ => none

namespace View

/-- The marker of the page left, when `e` is the next one to use. -/
def oldMark (v : View) (e : Bool) : Bool := if v.own then e else !e

def oldBlocks (v : View) (e : Bool) : List Blk :=
  match v.old with
  | none => []
  | some l => l.map .tran ++ [.eopm (v.oldMark e)]

def curBlocks (v : View) (e : Bool) : List Blk :=
  v.cur.map .tran ++ if v.own then [.eopm !e] else []

def blocks (v : View) (e : Bool) : List Blk := v.oldBlocks e ++ v.curBlocks e

/-- The transactions on the queue. -/
def trans (v : View) : List Nat := v.old.getD [] ++ v.cur

/-- Without the block at the head. -/
def pop : View → View
  | ⟨some (_ :: l), c, o⟩ => ⟨some l, c, o⟩
  | ⟨some [], c, o⟩ => ⟨none, c, o⟩
  | ⟨none, _ :: c, o⟩ => ⟨none, c, o⟩
  | ⟨none, [], _⟩ => ⟨none, [], false⟩

/-- The writer left the current page. -/
def turn (v : View) : View := ⟨if v.own then some v.cur else none, [], false⟩

variable {v : View} {e : Bool} {b : Blk} {rest : List Blk} {t : Nat}

theorem blocks_pop (h : v.blocks e = b :: rest) : v.pop.blocks e = rest := by
  obtain ⟨_ | _ | ⟨t, l⟩, _ | ⟨u, c⟩, _ | _⟩ := v <;>
    simp_all [blocks, oldBlocks, curBlocks, pop, oldMark]

/-- A transaction at the head. -/
theorem trans_pop_tran (h : v.blocks e = .tran t :: rest) : v.trans = t :: v.pop.trans := by
  obtain ⟨_ | _ | ⟨t, l⟩, _ | ⟨u, c⟩, _ | _⟩ := v <;>
    simp_all [blocks, oldBlocks, curBlocks, pop, trans]

theorem trans_pop_eopm {k : Bool} (h : v.blocks e = .eopm k :: rest) : v.pop.trans = v.trans := by
  obtain ⟨_ | _ | ⟨t, l⟩, _ | ⟨u, c⟩, _ | _⟩ := v <;>
    simp_all [blocks, oldBlocks, curBlocks, pop, trans]

theorem mem_trans : .tran t ∈ v.blocks e ↔ t ∈ v.trans := by
  obtain ⟨_ | l, c, _ | _⟩ := v <;> simp [blocks, oldBlocks, curBlocks, trans]

theorem turn_blocks (h : v.old = none) (hown : v.own = false → v.cur = []) :
    v.turn.blocks e = v.blocks e := by
  obtain ⟨_ | l, c, _ | _⟩ := v <;> simp_all [blocks, oldBlocks, curBlocks, turn, oldMark]

theorem trans_turn (h : v.old = none) (hown : v.own = false → v.cur = []) :
    v.turn.trans = v.trans := by
  obtain ⟨_ | l, c, _ | _⟩ := v <;> simp_all [trans, turn]

theorem nodup_blocks (h : v.trans.Nodup) : (v.blocks e).Nodup := by
  have hinj : Function.Injective Blk.tran := fun _ _ h => Blk.tran.inj h
  obtain ⟨_ | l, c, _ | _⟩ := v
  · simpa [blocks, oldBlocks, curBlocks, trans] using List.Nodup.map hinj h
  · simpa [blocks, oldBlocks, curBlocks, trans, List.nodup_append] using List.Nodup.map hinj h
  all_goals
    have hd := List.nodup_append.mp h
    have h1 := hd.1.map hinj
    have h2 := hd.2.1.map hinj
    have h3 := hd.2.2
    simp only [Option.getD_some] at h1 h3
    simp [blocks, oldBlocks, curBlocks, List.nodup_append, h1, h2, oldMark]
    aesop

theorem blocks_nil (h : v.blocks e = []) : v.old = none ∧ v.cur = [] := by
  obtain ⟨_ | l, c, _ | _⟩ := v <;> simp_all [blocks, oldBlocks, curBlocks]

theorem mem_mark (hown : v.own = false) : .eopm (!e) ∈ v.blocks e ↔ v.old ≠ none := by
  obtain ⟨_ | l, c, _ | _⟩ := v <;> simp_all [blocks, oldBlocks, curBlocks, oldMark]

theorem last_tran (hown : v.own = false) (hcur : v.cur ≠ []) :
    ∃ t, (v.blocks e).getLast? = some (.tran t) := by
  refine ⟨v.cur.getLast hcur, ?_⟩
  rw [blocks, curBlocks, hown, if_neg Bool.false_ne_true, List.append_nil,
    List.getLast?_append_of_ne_nil _ (by simpa using hcur), List.getLast?_map,
    List.getLast?_eq_some_getLast hcur]
  rfl

theorem last_eopm (hown : v.own = false) (hcur : v.cur = []) (hold : v.old ≠ none) :
    ∃ k, (v.blocks e).getLast? = some (.eopm k) := by
  obtain ⟨_ | l, c, _ | _⟩ := v <;> simp_all [blocks, oldBlocks, curBlocks, oldMark]

/-- A marker at the head is that of the page left, or nothing else is there. -/
theorem head_eopm {k : Bool} (h : v.blocks e = .eopm k :: rest) :
    (v.old = some [] ∧ k = v.oldMark e ∧ v.pop = ⟨none, v.cur, v.own⟩) ∨
      (v.old = none ∧ v.cur = [] ∧ v.own = true ∧ v.pop = ⟨none, [], false⟩) := by
  obtain ⟨_ | _ | ⟨t, l⟩, _ | ⟨u, c⟩, _ | _⟩ := v <;>
    simp_all [blocks, oldBlocks, curBlocks, pop, oldMark]

theorem head_tran (h : v.blocks e = .tran t :: rest) :
    (∃ l, v.old = some (t :: l) ∧ v.pop = ⟨some l, v.cur, v.own⟩) ∨
      ∃ c, v.old = none ∧ v.cur = t :: c ∧ v.pop = ⟨none, c, v.own⟩ := by
  obtain ⟨_ | _ | ⟨t, l⟩, _ | ⟨u, c⟩, _ | _⟩ := v <;>
    simp_all [blocks, oldBlocks, curBlocks, pop]

theorem trans_eq : v.trans = (v.blocks e).filterMap Blk.tid? := by
  have hmap : ∀ l : List Nat, (l.map Blk.tran).filterMap Blk.tid? = l := by
    intro l
    rw [List.filterMap_map]
    exact List.filterMap_some
  obtain ⟨_ | l, c, _ | _⟩ := v <;>
    simp [trans, blocks, oldBlocks, curBlocks, List.filterMap_append, List.filterMap_cons, hmap,
      Blk.tid?]

/-- What is right before a marker is for the same page. -/
theorem before_mark {a : Blk} {k : Bool} {ls : List Blk}
    (hex : v.own = true → v.old ≠ none → v.cur ≠ [])
    (h : v.blocks e = ls ++ a :: .eopm k :: rest) :
    (a ∈ v.oldBlocks e ∧ .eopm k ∈ v.oldBlocks e) ∨
      (a ∈ v.curBlocks e ∧ .eopm k ∈ v.curBlocks e) := by
  have hfirst : ∀ old, v.oldBlocks e = old ++ [a] → v.curBlocks e ≠ .eopm k :: rest := by
    intro old hold hcur
    obtain ⟨_ | l, _ | ⟨u, c⟩, _ | _⟩ := v <;> simp_all [oldBlocks, curBlocks]
  rw [blocks, List.append_cons, List.append_eq_append_iff] at h
  rcases h with ⟨as, hls, hcur⟩ | ⟨bs, hold, hrest⟩
  · refine .inr ⟨?_, hcur ▸ List.mem_append_right _ List.mem_cons_self⟩
    rcases List.eq_nil_or_concat as with rfl | ⟨as, c, rfl⟩
    · rw [List.append_nil] at hls
      exact absurd hcur (hfirst ls hls.symm)
    · rw [List.concat_eq_append, ← List.append_assoc] at hls
      have hac : a = c := (List.cons.inj (List.append_inj' hls rfl).2).1
      simp [hcur, hac]
  · cases bs with
    | nil =>
      rw [List.append_nil] at hold
      exact absurd hrest.symm (hfirst ls hold)
    | cons c bs =>
      obtain ⟨rfl, -⟩ := List.cons.inj hrest
      exact .inl ⟨by simp [hold], by simp [hold]⟩

theorem mem_eopm {k : Bool} (h : .eopm k ∈ v.blocks e) :
    (v.old ≠ none ∧ k = v.oldMark e) ∨ (v.own = true ∧ k = !e) := by
  obtain ⟨_ | l, c, _ | _⟩ := v <;> simp_all [blocks, oldBlocks, curBlocks, oldMark]

end View

/-! ## Page numbers -/

theorem next_page {n p : Nat} (hn : 4 ≤ n) (h : 2 ≤ p ∧ p < n) :
    (2 ≤ nextPageNo n p ∧ nextPageNo n p < n) ∧ prevPageNo n (nextPageNo n p) = p ∧
      nextPageNo n p ≠ p := by
  unfold prevPageNo nextPageNo
  split <;> (split <;> omega)

theorem next_prev_page {n p : Nat} (hn : 4 ≤ n) (h : 2 ≤ p ∧ p < n) :
    nextPageNo n (prevPageNo n p) = p := by
  unfold prevPageNo nextPageNo
  split <;> (split <;> omega)

theorem prev_page_ne {n p : Nat} (hn : 4 ≤ n) (h : 2 ≤ p ∧ p < n) : prevPageNo n p ≠ p := by
  unfold prevPageNo
  split <;> omega

/-! ## The queue itself -/

/-- The commit queue holds what `v` says, in that order, with the page numbers
that go with it. -/
structure Shape (s : State) (v : View) : Prop where
  size : 4 ≤ s.ip.logsize
  page : 2 ≤ s.ip.logptr ∧ s.ip.logptr < s.ip.logsize
  cq : s.cq = v.blocks s.eopm
  nodup : v.trans.Nodup
  marks : ∀ k, (s.tblk (.eopm k)).queue = true ↔ .eopm k ∈ s.cq
  old : ∀ b ∈ v.oldBlocks s.eopm, (s.tblk b).cpn = prevPageNo s.ip.logsize s.ip.logptr
  cur : ∀ b ∈ v.curBlocks s.eopm, (s.tblk b).cpn = s.ip.logptr

variable {s s' : State} {v : View} {b : Blk} {rest : List Blk} {t : Nat}

theorem Shape.frame (h : Shape s v) (hsize : s'.ip.logsize = s.ip.logsize)
    (hpage : s'.ip.logptr = s.ip.logptr) (hcq : s'.cq = s.cq) (heopm : s'.eopm = s.eopm)
    (hq : ∀ k, (s'.tblk (.eopm k)).queue = (s.tblk (.eopm k)).queue)
    (hcpn : ∀ b, (s'.tblk b).cpn = (s.tblk b).cpn) : Shape s' v where
  size := hsize ▸ h.size
  page := by rw [hsize, hpage]; exact h.page
  cq := by rw [hcq, heopm]; exact h.cq
  nodup := h.nodup
  marks := fun k => by rw [hq, hcq]; exact h.marks k
  old := fun b hb => by rw [hcpn, hsize, hpage]; exact h.old b (heopm ▸ hb)
  cur := fun b hb => by rw [hcpn, hpage]; exact h.cur b (heopm ▸ hb)

theorem oldBlocks_pop (v : View) (e : Bool) : v.pop.oldBlocks e ⊆ v.oldBlocks e := by
  obtain ⟨_ | _ | ⟨t, l⟩, _ | ⟨u, c⟩, _ | _⟩ := v <;>
    simp [View.oldBlocks, View.pop, View.oldMark]

theorem curBlocks_pop (v : View) (e : Bool) : v.pop.curBlocks e ⊆ v.curBlocks e := by
  obtain ⟨_ | _ | ⟨t, l⟩, _ | ⟨u, c⟩, _ | _⟩ := v <;>
    simp [View.curBlocks, View.pop]

/-- The block at the head is taken off; a marker is no longer `GC_QUEUE`. -/
theorem Shape.pop (h : Shape s v) (hb : s.cq = b :: rest) (hsize : s'.ip.logsize = s.ip.logsize)
    (hpage : s'.ip.logptr = s.ip.logptr) (hcq : s'.cq = rest) (heopm : s'.eopm = s.eopm)
    (hq : ∀ k, (s'.tblk (.eopm k)).queue =
      if b = .eopm k then false else (s.tblk (.eopm k)).queue)
    (hcpn : ∀ b, (s'.tblk b).cpn = (s.tblk b).cpn) : Shape s' v.pop := by
  have hblocks := h.cq ▸ hb
  have hnd := View.nodup_blocks (e := s.eopm) h.nodup
  rw [hblocks, List.nodup_cons] at hnd
  refine ⟨hsize ▸ h.size, by rw [hsize, hpage]; exact h.page, ?_, ?_, fun k => ?_, fun c hc => ?_,
    fun c hc => ?_⟩
  · rw [hcq, heopm, View.blocks_pop hblocks]
  · cases b with
    | tran t => exact (List.nodup_cons.mp (View.trans_pop_tran hblocks ▸ h.nodup)).2
    | eopm k => rw [View.trans_pop_eopm hblocks]; exact h.nodup
  · rw [hq, hcq]
    by_cases hk : b = .eopm k
    · rw [if_pos hk, ← hk]
      exact iff_of_false Bool.false_ne_true hnd.1
    · rw [if_neg hk, h.marks, hb, List.mem_cons, or_iff_right (Ne.symm hk)]
  · rw [hcpn, hsize, hpage]
    rw [heopm] at hc
    exact h.old c (oldBlocks_pop v s.eopm hc)
  · rw [hcpn, hpage]
    rw [heopm] at hc
    exact h.cur c (curBlocks_pop v s.eopm hc)

/-- A COMMIT record of the current page. -/
theorem Shape.enqueueCommit (h : Shape s v) (hown : v.own = false) (ht : t ∉ v.trans) :
    Shape (s.enqueueCommit t) { v with cur := v.cur ++ [t] } := by
  have hne : ∀ b ∈ s.cq, b ≠ .tran t := by
    rintro b hb rfl
    exact ht (View.mem_trans.mp (h.cq ▸ hb))
  have hcq : (s.enqueueCommit t).cq = View.blocks { v with cur := v.cur ++ [t] } s.eopm := by
    change s.cq ++ [.tran t] = _
    simp [h.cq, View.blocks, View.oldBlocks, View.curBlocks, View.oldMark, hown]
  have hcpn : ∀ b ∈ s.cq, ((s.enqueueCommit t).tblk b).cpn = (s.tblk b).cpn := fun b hb => by
    simp [State.enqueueCommit, Function.update_of_ne (hne b hb)]
  refine ⟨h.size, h.page, hcq, ?_, fun k => ?_, fun b hb => ?_, fun b hb => ?_⟩
  · rw [View.trans, ← List.append_assoc]
    exact List.nodup_append.mpr ⟨h.nodup, List.nodup_singleton t, fun a ha b hb => by
      rintro rfl
      exact ht (List.mem_singleton.mp hb ▸ ha)⟩
  · have hk : (s.enqueueCommit t).tblk (.eopm k) = s.tblk (.eopm k) := by
      simp [State.enqueueCommit]
    rw [hk, h.marks]
    simp [State.enqueueCommit]
  · have hmem : b ∈ s.cq := h.cq ▸ List.mem_append_left _ hb
    rw [hcpn b hmem]
    exact h.old b hb
  · have hb' : b ∈ v.curBlocks s.eopm ∨ b = .tran t := by
      simpa [View.curBlocks, hown, State.enqueueCommit] using hb
    rcases hb' with hb' | rfl
    · rw [hcpn b (h.cq ▸ List.mem_append_right _ hb')]
      exact h.cur b hb'
    · simp [State.enqueueCommit]

/-- The marker to be used next is not in use. -/
theorem Shape.mark_free (h : Shape s v) (hown : v.own = false) : .eopm s.eopm ∉ s.cq := by
  intro hm
  rcases View.mem_eopm (h.cq ▸ hm) with ⟨-, hk⟩ | ⟨htrue, -⟩
  · simp [View.oldMark, hown] at hk
  · exact Bool.false_ne_true (hown.symm.trans htrue)

/-- The marker of the current page. -/
theorem Shape.eopmEnqueue (h : Shape s v) (hown : v.own = false) :
    Shape s.eopmEnqueue { v with own := true } := by
  have hmark := h.mark_free hown
  have hne : ∀ b ∈ s.cq, b ≠ .eopm s.eopm := fun b hb heq => hmark (heq ▸ hb)
  have hcq : s.eopmEnqueue.cq = View.blocks { v with own := true } (!s.eopm) := by
    change s.cq ++ [.eopm s.eopm] = _
    obtain ⟨_ | l, c, _ | _⟩ := v <;>
      simp_all [h.cq, View.blocks, View.oldBlocks, View.curBlocks, View.oldMark]
  have hcpn : ∀ b ∈ s.cq, (s.eopmEnqueue.tblk b).cpn = (s.tblk b).cpn := fun b hb => by
    simp [State.eopmEnqueue, Function.update_of_ne (hne b hb)]
  refine ⟨h.size, h.page, hcq, h.nodup, fun k => ?_, fun b hb => ?_, fun b hb => ?_⟩
  · by_cases hk : k = s.eopm
    · simp [hk, State.eopmEnqueue, Tblock.queued]
    · have hsame : s.eopmEnqueue.tblk (.eopm k) = s.tblk (.eopm k) := by
        simp [State.eopmEnqueue, hk]
      rw [hsame, h.marks]
      simp [hk, State.eopmEnqueue]
  · have hb' : b ∈ v.oldBlocks s.eopm := by
      obtain ⟨_ | l, c, _ | _⟩ := v <;> simp_all [View.oldBlocks, View.oldMark, State.eopmEnqueue]
    rw [hcpn b (h.cq ▸ List.mem_append_left _ hb')]
    exact h.old b hb'
  · have hb' : b ∈ v.curBlocks s.eopm ∨ b = .eopm s.eopm := by
      simpa [View.curBlocks, hown, State.eopmEnqueue] using hb
    rcases hb' with hb' | rfl
    · rw [hcpn b (h.cq ▸ List.mem_append_right _ hb')]
      exact h.cur b hb'
    · simp [State.eopmEnqueue]

/-- On to the next page, when nothing of the last one is waiting any more. -/
theorem Shape.advance (h : Shape s v) (hold : v.old = none) (hown : v.own = false → v.cur = []) :
    Shape s.advance v.turn := by
  obtain ⟨hpage, hprev, -⟩ := next_page h.size h.page
  refine ⟨h.size, hpage, h.cq.trans (View.turn_blocks hold hown).symm, ?_, h.marks,
    fun b hb => ?_, fun b hb => ?_⟩
  · rw [View.trans_turn hold hown]
    exact h.nodup
  · have hb' : b ∈ v.curBlocks s.eopm := by
      obtain ⟨_ | l, c, _ | _⟩ := v <;>
        simp_all [View.oldBlocks, View.curBlocks, View.oldMark, View.turn, State.advance]
    exact (h.cur b hb').trans hprev.symm
  · simp [View.curBlocks, View.turn] at hb

end Aix413.Log.Committing
