import Aix413.PageIo.GatherList

namespace Aix413.PageIo

open Lib.BlockMove Lib.LinkedPool

variable {β : Type} {c : Conf} {l rest acc : List Nat} {x prev nfr head fuel : Nat}
  {discard : Nat → Bool}

/-! ## Pages as blocks of the I/O address space -/

theorem nbytes_le (c : Conf) (x : Nat) : c.nbytes x ≤ psize :=
  (Nat.mul_le_mul_right _ (Nat.sub_le _ _)).trans (Nat.mul_div_le _ _)

theorem nbytes_full (hdiv : c.fperpage ∣ psize) (h : c.fperpage ≤ c.frags x) :
    c.nbytes x = psize := by
  have hf : c.frags x = c.fperpage := le_antisymm (Nat.sub_le _ _) h
  unfold Conf.nbytes Conf.fragsize
  rw [hf, Nat.mul_div_cancel' hdiv]

theorem page_next (h : Next c prev x) : c.page x = c.page prev + psize := by
  unfold Conf.page
  rw [h.1, Nat.succ_mul]

/-- The fragments of a page, wanted back unless the page is discarded. -/
def Conf.block (c : Conf) (discard : Nat → Bool) (x : Nat) : Block :=
  ⟨c.page x, c.nbytes x, !discard x⟩

theorem spread_behind (discard : Nat → Bool) (h : (prev :: rest).IsChain (Next c)) :
    Spread (c.page prev + c.nbytes prev) (rest.map (c.block discard)) := by
  induction rest generalizing prev with
  | nil => trivial
  | cons x rest ih =>
    obtain ⟨hn, hrest⟩ := List.isChain_cons_cons.mp h
    refine ⟨?_, ih hrest⟩
    change _ ≤ c.page x
    rw [page_next hn]
    exact Nat.add_le_add_left (nbytes_le c prev) _

theorem spread_blocks (discard : Nat → Bool) (h : (x :: rest).IsChain (Next c)) :
    Spread (c.page x) ((x :: rest).map (c.block discard)) :=
  ⟨le_rfl, spread_behind discard h⟩

theorem total_blocks (c : Conf) (discard : Nat → Bool) (l : List Nat) :
    total (l.map (c.block discard)) = (l.map c.nbytes).sum := by
  unfold total
  rw [List.map_map]
  rfl

/-! ## Gathered pages are moved together -/

/-- What the loop of `v_gather` knows of the page before the next one. -/
structure Behind (c : Conf) (prev : Nat) (k : Compacting β) : Prop where
  lst : k.lstnfrags = c.frags prev
  dst : k.compacted = false → k.dst = c.page prev + c.nbytes prev
  src : k.compacted = true → (c.pft prev).pagein = false → k.src = c.page prev + psize

theorem move_lists (c : Conf) (x : Nat) (k : Compacting β) :
    (k.move c x).nextio = k.nextio ∧ (k.move c x).iotail = k.iotail ∧
      (k.move c x).dst = k.dst + c.nbytes x := by
  unfold Compacting.move
  dsimp only
  split_ifs <;> exact ⟨rfl, rfl, rfl⟩

/-- A page is moved behind those before it, unless it is there already. -/
theorem Behind.move {k : Compacting β} (hdiv : c.fperpage ∣ psize) (h : Behind c prev k)
    (hn : Next c prev x) (hio : (c.pft x).pagein = (c.pft prev).pagein) :
    Behind c x (k.move c x) ∧
      (k.move c x).mem = (if (c.pft x).pagein then k.mem
        else Lib.BlockMove.move k.mem (c.page x) k.dst (c.nbytes x)) ∧
      ((k.move c x).compacted = true ↔ k.compacted = true ∨ c.frags prev < c.fperpage) := by
  have hpage := page_next hn
  have hlst := h.lst
  unfold Compacting.move
  dsimp only
  by_cases hk : k.compacted = true
  · have hsrc := h.src hk
    rw [if_pos (Or.inl hk), if_pos hk]
    cases hpi : (c.pft x).pagein with
    | true => exact ⟨⟨rfl, fun hc => absurd (hk.symm.trans hc) (by decide),
        fun _ hp => absurd (hpi.symm.trans hp) (by decide)⟩, rfl, by simp [hk]⟩
    | false =>
      have hx : k.src = c.page x := (hsrc (hio ▸ hpi)).trans hpage.symm
      refine ⟨⟨rfl, fun hc => absurd (hk.symm.trans hc) (by decide), fun _ _ => ?_⟩, ?_, by simp [hk]⟩
      · exact congrArg (· + psize) hx
      · exact congrArg (fun a => Lib.BlockMove.move k.mem a k.dst (c.nbytes x)) hx
  · have hdst := h.dst (Bool.eq_false_iff.mpr hk)
    by_cases hl : k.lstnfrags < c.fperpage
    · -- the first page behind one that is not full: `src` begins here
      rw [if_pos (Or.inr hl), if_neg hk]
      rw [hlst] at hl
      cases hpi : (c.pft x).pagein with
      | true => exact ⟨⟨rfl, fun hc => absurd hc (by simp),
          fun _ hp => absurd (hpi.symm.trans hp) (by decide)⟩, rfl, by simp [hl]⟩
      | false => exact ⟨⟨rfl, fun hc => absurd hc (by simp), fun _ _ => rfl⟩, rfl, by simp [hl]⟩
    · -- all pages up to here are full, and `dst` is the page itself
      rw [if_neg (by simp [hk, hl])]
      rw [hlst] at hl
      have hat : k.dst = c.page x := by
        rw [hdst, nbytes_full hdiv (Nat.not_lt.mp hl), hpage]
      refine ⟨⟨rfl, fun _ => congrArg (· + c.nbytes x) hat, fun hc => absurd hc hk⟩, ?_,
        by simp [hk, hl]⟩
      rw [hat, move_self, ite_self]

/-- One frame goes from the rest of the gather list to right behind `head`. -/
theorem relink_spec {next : Nat → Nat} (hrest : Chain next x (x :: rest))
    (hacc : Chain next (next head) acc) (hx : x ∉ acc) (hhr : head ∉ x :: rest) (hha : head ∉ acc) :
    Chain (Function.update (Function.update next x (next head)) head x) (next x) rest ∧
      Chain (Function.update (Function.update next x (next head)) head x) x (x :: acc) := by
  have hxh : x ≠ head := fun he => hhr (he ▸ List.mem_cons_self)
  have hxr := (List.nodup_cons.mp hrest.nodup).1
  refine ⟨(hrest.2.2.update hxr _).update (fun hm => hhr (List.mem_cons_of_mem x hm)) _,
    rfl, hrest.2.1, ?_⟩
  rw [Function.update_of_ne hxh, Function.update_self]
  exact (hacc.update hx _).update hha _

/-- The frames behind `head` are turned round, and the pages of a page-out are packed. -/
theorem compactLoop_spec (discard : Nat → Bool) {k : Compacting β} (hdiv : c.fperpage ∣ psize)
    (hb : Behind c prev k) (hnext : (prev :: rest).IsChain (Next c))
    (hio : ∀ x ∈ rest, (c.pft x).pagein = (c.pft prev).pagein)
    (hrest : Chain k.nextio nfr rest) (hacc : Chain k.nextio (k.nextio head) acc)
    (hdisj : rest.Disjoint acc) (hhr : head ∉ rest) (hha : head ∉ acc)
    (hf : rest.length ≤ fuel) :
    ∃ k', compactLoop c head fuel nfr k = some k' ∧
      Chain k'.nextio (k'.nextio head) (rest.reverse ++ acc) ∧
      (∀ j, j ≠ head → j ∉ rest → k'.nextio j = k.nextio j) ∧ k'.iotail = k.iotail ∧
      k'.mem = (if (c.pft prev).pagein then k.mem
        else pack (rest.map (c.block discard)) k.dst k.mem) ∧
      (k'.compacted = true ↔
        k.compacted = true ∨ ∃ x ∈ (prev :: rest).dropLast, c.frags x < c.fperpage) := by
  induction rest generalizing prev nfr acc fuel k with
  | nil =>
    obtain rfl : nfr = 0 := hrest
    refine ⟨k, by unfold compactLoop; rfl, hacc, fun _ _ _ => rfl, rfl, ?_, by simp⟩
    exact (ite_self k.mem).symm
  | cons x rest ih =>
    obtain rfl : nfr = x := hrest.1
    obtain ⟨hn, hnext'⟩ := List.isChain_cons_cons.mp hnext
    obtain ⟨fuel, rfl⟩ : ∃ n, fuel = n + 1 := ⟨fuel - 1, by simp at hf; omega⟩
    have hpi := hio nfr List.mem_cons_self
    obtain ⟨hxa, hdisj'⟩ := List.disjoint_cons_left.mp hdisj
    have hxr := (List.nodup_cons.mp hrest.nodup).1
    obtain ⟨hc₁, hc₂⟩ := relink_spec hrest hacc hxa hhr hha
    set nextio := Function.update (Function.update k.nextio nfr (k.nextio head)) head nfr
      with hnextio
    set k₁ : Compacting β := { k with nextio := nextio } with hk₁
    have hb₁ : Behind c prev k₁ := ⟨hb.lst, hb.dst, hb.src⟩
    obtain ⟨hb₂, hmem, hcomp⟩ := hb₁.move hdiv hn hpi
    obtain ⟨hl, ht, hdst⟩ := move_lists c nfr k₁
    have hhead : nextio head = nfr := Function.update_self _ _ _
    have hhr' : head ∉ rest := fun hm => hhr (List.mem_cons_of_mem nfr hm)
    have hha' : head ∉ nfr :: acc := by
      rintro (_ | ⟨_, hm⟩)
      · exact hhr List.mem_cons_self
      · exact hha hm
    have hfuel : rest.length ≤ fuel := by simpa using hf
    have hrest' : Chain (k₁.move c nfr).nextio (k.nextio nfr) rest := hl ▸ hc₁
    have hacc' : Chain (k₁.move c nfr).nextio ((k₁.move c nfr).nextio head) (nfr :: acc) := by
      rw [hl]
      exact hhead.symm ▸ hc₂
    obtain ⟨k', hrun, hlist, hsame, htail, hdata, hc'⟩ := ih hb₂ hnext'
      (fun y hy => (hio y (List.mem_cons_of_mem nfr hy)).trans hpi.symm) hrest' hacc'
      (List.disjoint_cons_right.mpr ⟨hxr, hdisj'⟩) hhr' hha' hfuel
    refine ⟨k', ?_, ?_, fun j hj hjr => ?_, htail.trans ht, ?_, ?_⟩
    · unfold compactLoop
      rw [if_neg hrest.2.1]
      exact hrun
    · rw [List.reverse_cons, List.append_assoc]
      exact hlist
    · have hjx : j ≠ nfr := fun he => hjr (he ▸ List.mem_cons_self)
      rw [hsame j hj fun hm => hjr (List.mem_cons_of_mem nfr hm), hl]
      change nextio j = k.nextio j
      rw [hnextio, Function.update_of_ne hj, Function.update_of_ne hjx]
    · rw [hdata, hmem, hdst, hpi]
      cases (c.pft prev).pagein with
      | true => rfl
      | false => rfl
    · rw [hc', hcomp, List.dropLast_cons_cons, List.exists_mem_cons_iff, or_assoc]

theorem compact_spec (discard : Nat → Bool) {s : State β} (hdiv : c.fperpage ∣ psize)
    (hl : Chain s.nextio head (head :: rest)) (hnext : (head :: rest).IsChain (Next c))
    (hio : ∀ x ∈ rest, (c.pft x).pagein = (c.pft head).pagein) (hf : rest.length ≤ fuel) :
    ∃ b s', compact c fuel head s = some (b, s') ∧
      Chain s'.nextio head (head :: rest.reverse) ∧
      (∀ j, j ∉ head :: rest → s'.nextio j = s.nextio j) ∧ s'.iotail = s.iotail ∧
      s'.mem = (if (c.pft head).pagein then s.mem
        else pack ((head :: rest).map (c.block discard)) (c.page head) s.mem) ∧
      (b = true ↔ ∃ x ∈ (head :: rest).dropLast, c.frags x < c.fperpage) := by
  have hhr := (List.nodup_cons.mp hl.nodup).1
  have hrest : Chain (Function.update s.nextio head 0) (s.nextio head) rest :=
    hl.2.2.update hhr 0
  have hacc : Chain (Function.update s.nextio head 0) (Function.update s.nextio head 0 head) [] :=
    Function.update_self _ _ _
  obtain ⟨k', hrun, hlist, hsame, htail, hdata, hcomp⟩ :=
    compactLoop_spec discard
      (k := { s with
        nextio := Function.update s.nextio head 0
        lstnfrags := c.frags head
        dst := c.page head + c.frags head * c.fragsize
        src := 0
        compacted := false }) hdiv ⟨rfl, fun _ => rfl, fun hc => absurd hc (by simp)⟩ hnext hio
      hrest hacc (List.disjoint_nil_right _) hhr List.not_mem_nil hf
  rw [List.append_nil] at hlist
  refine ⟨k'.compacted, k'.toState, ?_, ⟨rfl, hl.2.1, hlist⟩, fun j hj => ?_, htail, ?_, ?_⟩
  · unfold compact
    dsimp only
    rw [hrun]
    rfl
  · obtain ⟨hjh, hjr⟩ := not_or.mp fun h => hj (List.mem_cons.mpr h)
    exact (hsame j hjh hjr).trans (Function.update_of_ne hjh _ _)
  · -- the page of `head` is where it has to be
    have hself : Lib.BlockMove.move s.mem (c.page head) (c.page head) (c.nbytes head) = s.mem :=
      move_self _ _ _
    rw [hdata, List.map_cons]
    change _ = if _ then _ else pack _ _ (Lib.BlockMove.move _ (c.page head) _ (c.nbytes head))
    rw [hself]
    rfl
  · rw [hcomp]
    simp

/-! ## Packed pages are moved back -/

theorem fragLoop_eq (d : Bool) (n srce dste : Nat) (m : Nat → β) :
    fragLoop c d n srce dste m =
      (srce - n * c.fragsize, if d then m else moveDown c.fragsize n srce dste m) := by
  induction n generalizing srce dste m with
  | zero =>
    rw [fragLoop, Nat.zero_mul, Nat.sub_zero]
    exact congrArg _ (ite_self m).symm
  | succ n ih =>
    rw [fragLoop, ih]
    have hs : srce - c.fragsize - n * c.fragsize = srce - (n + 1) * c.fragsize := by
      rw [Nat.succ_mul, Nat.sub_sub, Nat.add_comm c.fragsize]
    rw [hs]
    cases d with
    | true => rfl
    | false => rfl

/-- Pages that overlap their packed fragments are moved piece by piece. -/
theorem fragLoop_spec (d : Bool) (x : Nat) {src dst : Nat} (m : Nat → β) (h : src ≤ dst) :
    fragLoop c d (c.frags x) (src + c.nbytes x) (dst + c.nbytes x) m =
      (src, if d then m else Lib.BlockMove.move m src dst (c.nbytes x)) := by
  have hn : c.nbytes x = c.frags x * c.fragsize := rfl
  rw [fragLoop_eq, hn, moveDown_eq m h, Nat.add_sub_cancel]

/-- The pages are moved back from the last one down. -/
theorem uncompactLoop_spec {next : Nat → Nat} {lo : Nat} (m : Nat → β)
    (hl : Chain next x rest.reverse) (hsp : Spread lo (rest.map (c.block discard)))
    (hf : rest.length ≤ fuel) :
    uncompactLoop c discard next fuel x (lo + (rest.map c.nbytes).sum) m =
      some (unpack (rest.map (c.block discard)) lo m) := by
  induction rest using List.reverseRecOn generalizing x fuel m with
  | nil =>
    obtain rfl : x = 0 := hl
    unfold uncompactLoop
    rfl
  | append_singleton rest y ih =>
    rw [List.reverse_append] at hl
    obtain rfl : x = y := hl.1
    obtain ⟨fuel, rfl⟩ : ∃ n, fuel = n + 1 := ⟨fuel - 1, by simp at hf; omega⟩
    rw [List.map_append] at hsp
    have hle : lo + (rest.map c.nbytes).sum ≤ c.page x :=
      total_blocks c discard rest ▸ hsp.total_le
    have hsum : lo + ((rest ++ [x]).map c.nbytes).sum =
        lo + (rest.map c.nbytes).sum + c.nbytes x := by
      simp [Nat.add_assoc]
    have hrun := fun m' => ih m' hl.2.2 (Spread.append_left hsp)
      (show rest.length ≤ fuel by simpa using hf)
    rw [hsum, List.map_append]
    unfold uncompactLoop
    rw [if_neg hl.2.1]
    dsimp only
    rw [Nat.add_sub_cancel]
    set srcs := lo + (rest.map c.nbytes).sum with hsrcs
    have hun : unpack (rest.map (c.block discard) ++ [x].map (c.block discard)) lo m =
        unpack (rest.map (c.block discard)) lo
          (if discard x then m else Lib.BlockMove.move m srcs (c.page x) (c.nbytes x)) := by
      have h := unpack_concat (rest.map (c.block discard)) (c.block discard x) lo m
      rw [total_blocks] at h
      refine h.trans ?_
      cases hd : discard x <;> simp [Conf.block, hd, hsrcs]
    by_cases h₁ : srcs + c.nbytes x ≤ c.page x
    · rw [if_pos h₁, hrun, hun]
    rw [if_neg h₁]
    by_cases h₂ : srcs ≠ c.page x
    · rw [if_pos h₂, fragLoop_spec (discard x) x m hle]
      dsimp only
      rw [hrun, hun]
    · -- from here on down the pages are where they belong
      rw [if_neg h₂]
      refine congrArg some (unpack_tight m hsp ?_).symm
      rw [total_blocks]
      exact (not_ne_iff.mp h₂).symm

end Aix413.PageIo
