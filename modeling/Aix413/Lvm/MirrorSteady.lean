import Aix413.Lvm.MirrorConsistency

namespace Aix413.Lvm.Mwc

variable {v : Layout} {n : Nat} {s s' t : State} {i lb : Lb} {p : Pv}

/-! ## What becomes of a request in service -/

/-- Request `i` stays in service, as it was when it was admitted. Numbers of puts
are used once, and no disk is written. -/
structure Steady (i : Lb) (s s' : State) : Prop where
  admitted : i ∈ s.admitted → i ∈ s'.admitted
  done : i ∈ s.done → i ∈ s'.done
  under : s'.under i = s.under i
  dev : (s'.buf i).bDev = (s.buf i).bDev
  blkno : (s'.buf i).bBlkno = (s.buf i).bBlkno
  disk : s'.disk = s.disk
  puts : s.puts ≤ s'.puts
  part1 : ∀ f, (s'.ca.part1 f).put ≤ (s.ca.part1 f).put ∨ (s'.ca.part1 f).put ≤ s'.puts

namespace Steady

theorem refl (i : Lb) (s : State) : Steady i s s :=
  ⟨id, id, rfl, rfl, rfl, rfl, le_rfl, fun _ => .inl le_rfl⟩

theorem trans (h : Steady i s s') (h' : Steady i s' t) : Steady i s t := by
  refine ⟨h'.admitted ∘ h.admitted, h'.done ∘ h.done, h'.under.trans h.under, h'.dev.trans h.dev,
    h'.blkno.trans h.blkno, h'.disk.trans h.disk, h.puts.trans h'.puts, ?_⟩
  intro f
  rcases h'.part1 f with hle | hle
  · rcases h.part1 f with hle' | hle'
    · exact .inl (hle.trans hle')
    · exact .inr ((hle.trans hle').trans h'.puts)
  · exact .inr hle

/-- The cache and the disks are the same, and request `lb` only is touched. -/
theorem of_setBuf {b : Lbuf} (hbuf : s'.buf = Function.update s.buf lb b)
    (hd : b.bDev = (s.buf lb).bDev) (hk : b.bBlkno = (s.buf lb).bBlkno)
    (ha : i ∈ s.admitted → i ∈ s'.admitted) (hdone : i ∈ s.done → i ∈ s'.done)
    (hu : s'.under i = s.under i) (hdisk : s'.disk = s.disk) (hputs : s'.puts = s.puts)
    (hpart : s'.ca.part1 = s.ca.part1) : Steady i s s' := by
  refine ⟨ha, hdone, hu, ?_, ?_, hdisk, hputs.ge, fun f => .inl (by rw [hpart])⟩
  · rw [hbuf]
    by_cases hi : i = lb
    · rw [hi, Function.update_self, hd]
    · rw [Function.update_of_ne hi]
  · rw [hbuf]
    by_cases hi : i = lb
    · rw [hi, Function.update_self, hk]
    · rw [Function.update_of_ne hi]

theorem of_buf (hbuf : s'.buf = s.buf) (ha : i ∈ s.admitted → i ∈ s'.admitted)
    (hdone : i ∈ s.done → i ∈ s'.done) (hu : s'.under i = s.under i) (hdisk : s'.disk = s.disk)
    (hputs : s'.puts = s.puts) (hpart : s'.ca.part1 = s.ca.part1) : Steady i s s' :=
  ⟨ha, hdone, hu, by rw [hbuf], by rw [hbuf], hdisk, hputs.ge, fun f => .inl (by rw [hpart])⟩

theorem terminate (i lb : Lb) (s : State) : Steady i s (s.terminate lb) :=
  of_setBuf rfl rfl rfl id (List.mem_append_left _) rfl rfl rfl rfl

theorem terminateAll (i : Lb) (l : List Lb) (s : State) :
    Steady i s (l.foldl State.terminate s) := by
  induction l generalizing s with
  | nil => exact refl i s
  | cons lb l ih => exact (terminate i lb s).trans (ih _)

theorem mvhld (i : Lb) (s : State) : Steady i s (mvhld s) := by
  unfold Mwc.mvhld
  split_ifs
  · exact (terminateAll i s.caHld s).trans (of_buf rfl id id rfl rfl rfl rfl)
  · exact of_buf rfl id id rfl rfl rfl rfl

theorem uncount (i lb : Lb) (e : Ptr) (s : State) : Steady i s (s.uncount lb e) :=
  of_setBuf rfl rfl rfl id id rfl rfl rfl rfl

theorem caTerm (hc : caTerm lb s = some s') : Steady i s s' := by
  by_cases h0 : s.entry lb = 0
  · unfold Mwc.caTerm at hc
    simp [h0] at hc
  · rcases caTerm_cases s h0 with h | h
    · rw [h] at hc
      cases hc
      exact uncount i lb _ s
    · rw [h] at hc
      cases hc
      exact (uncount i lb _ s).trans (mvhld i _)

theorem unref (i lb : Lb) (s : State) : Steady i s (s.unref lb) :=
  of_setBuf rfl rfl rfl id id rfl rfl rfl rfl

theorem serve (i lb : Lb) (s : State) : Steady i s (s.serve lb) :=
  of_buf rfl (List.mem_append_left _) id rfl rfl rfl rfl

theorem skedOne (hc : skedOne lb s = some s') : Steady i s s' := by
  rw [skedOne_eq] at hc
  split_ifs at hc
  · obtain ⟨s₁, h₁, rfl⟩ := Option.map_eq_some_iff.mp hc
    exact ((unref i lb s).trans (caTerm h₁)).trans (terminate i lb s₁)
  · obtain rfl := Option.some.inj hc
    exact (unref i lb s).trans (serve i lb _)
  · obtain rfl := Option.some.inj hc
    exact unref i lb s

theorem skedLoop {l : List Lb} (hc : skedLoop l s = some s') : Steady i s s' := by
  induction l generalizing s with
  | nil =>
    obtain rfl := Option.some.inj hc
    exact refl i _
  | cons lb l ih =>
    rw [Mwc.skedLoop] at hc
    obtain ⟨s₁, h₁, h₂⟩ := Option.bind_eq_some_iff.mp hc
    exact (skedOne h₁).trans (ih h₂)

theorem settle_part1 (c : Cache) (fuel : Nat) (e : Ptr) : (c.settle fuel e).part1 = c.part1 := by
  induction fuel generalizing c e with
  | zero => rfl
  | succ fuel ih =>
    unfold Cache.settle
    split_ifs
    · rfl
    · rfl
    · exact ih _ _
    · rfl
    · exact ih _ _

theorem wendDone (hc : wendDone p s = some s') : Steady i s s' := by
  unfold Mwc.wendDone at hc
  obtain ⟨s₁, h₁, rfl⟩ := Option.map_eq_some_iff.mp hc
  have hs : Steady i s s₁ := by
    have hdrain : Steady i s { s with caPv := Function.update s.caPv p [] } :=
      of_buf rfl id id rfl rfl rfl rfl
    exact hdrain.trans (skedLoop h₁)
  apply hs.trans
  dsimp only
  split_ifs
  · have hpart := settle_part1 s₁.ca s₁.ca.size s₁.ca.lst
    split
    · exact of_buf rfl id id rfl rfl rfl hpart
    · exact of_buf rfl id id rfl rfl rfl hpart
    · refine trans ?_ (mvhld i _)
      exact of_buf rfl id id rfl rfl rfl hpart
  · exact of_buf rfl id id rfl rfl rfl rfl

theorem caWrt (i : Lb) (s : State) : Steady i s (caWrt s) := by
  unfold Mwc.caWrt
  split_ifs
  · exact of_buf rfl id id rfl rfl rfl rfl
  · exact refl i s

theorem clnupBody (h : Inv v n s 0 []) (hc : clnupBody v s = some s') : Steady i s s' := by
  obtain ⟨l, q, hk⟩ := h.counted.kept
  obtain ⟨chg, d, m, r, hd, -, hcl⟩ := hk.cleanQueues hashQueues false
  have hclean : Steady i s { s with ca := d } := by
    refine ⟨id, id, rfl, rfl, rfl, rfl, le_rfl, ?_⟩
    intro f
    rcases hcl.entry f with ⟨-, hp⟩ | ⟨-, -, hp⟩
    · left
      dsimp only
      rw [hp]
    · left
      dsimp only
      rw [hp]
      exact Nat.zero_le _
  unfold Mwc.clnupBody at hc
  rw [hd] at hc
  dsimp only [Option.map_some] at hc
  have hflag : Steady i s (if chg then { { s with ca := d } with
      caPvWrt := fun p => s.caPvWrt p || (v.pvols p && !s.missing p) }
      else { s with ca := d }) := by
    apply hclean.trans
    split_ifs
    · exact of_buf rfl id id rfl rfl rfl rfl
    · exact refl i _
  apply hflag.trans
  have hwrite : ∀ t : State, Steady i t { Mwc.caWrt { t with vgact := true } with
      cleaner := .writing } := by
    intro t
    have h₁ : Steady i t { t with vgact := true } := of_buf rfl id id rfl rfl rfl rfl
    exact (h₁.trans (caWrt i _)).trans (of_buf rfl id id rfl rfl rfl rfl)
  have hout : ∀ t : State, Steady i t (Mwc.mvhld { t with inflt := false, cleaner := .out }) := by
    intro t
    have h₁ : Steady i t { t with inflt := false, cleaner := .out } :=
      of_buf rfl id id rfl rfl rfl rfl
    exact h₁.trans (mvhld i _)
  obtain rfl := Option.some.inj hc
  split_ifs
  · exact hwrite _
  · exact hout _
  · exact hwrite _
  · exact hout _

/-! ## Another request arrives at the cache -/

theorem pvque (i : Lb) {rc : Queued} (hp : pvque v lb s = (rc, t)) : Steady i s t := by
  rcases pvque_spec v lb s with ⟨fr, h, -⟩ | ⟨rc', fr, pb, m, h, -⟩
  · rw [h] at hp
    obtain rfl := (Prod.mk.inj hp).2
    exact of_setBuf rfl rfl rfl id id rfl rfl rfl rfl
  · rw [h] at hp
    obtain rfl := (Prod.mk.inj hp).2
    exact of_setBuf rfl rfl rfl id id rfl rfl rfl rfl

theorem count (hne : i ≠ lb) (e : Ptr) (s : State) : Steady i s (s.count lb e) :=
  of_setBuf rfl rfl rfl id id (Function.update_of_ne hne _ _) rfl rfl rfl

theorem hold (i lb : Lb) (s : State) : Steady i s (s.hold lb) :=
  of_buf rfl id id rfl rfl rfl rfl

theorem useHead_part1 (c : Cache) (e : Ptr) (m : BitVec 16) :
    ((c.setIocnt e m).useHead e).part1 = c.part1 :=
  (Cache.useHead_fields (c.setIocnt e m) e).2.2.2.2.2

theorem new_part1 {c d : Cache} {o : Option Ptr} (h : c.new = some (o, d)) :
    d.part1 = c.part1 := by
  unfold Cache.new at h
  dsimp only at h
  split at h
  · cases h
    rfl
  · split_ifs at h
    · cases h
      rfl
    · obtain ⟨c', hq, hd⟩ := Option.map_eq_some_iff.mp h
      unfold Cache.qunlk at hq
      obtain ⟨prev, -, rfl⟩ := Option.map_eq_some_iff.mp hq
      cases hd
      rfl

/-- The entry is cleared. -/
theorem clear (i : Lb) (e : Ptr) (s : State) : Steady i s { s with ca := s.ca.clear e } := by
  refine ⟨id, id, rfl, rfl, rfl, rfl, le_rfl, ?_⟩
  intro f
  left
  have hp : (s.ca.clear e).part1 = Function.update s.ca.part1 e ⟨0, 0, 0⟩ := by
    unfold Cache.clear Cache.setPart1 Cache.setState
    rw [(Cache.useTail_fields s.ca e).2.2.2.2.2]
  dsimp only
  rw [hp]
  by_cases hf : f = e
  · rw [hf, Function.update_self]
    exact Nat.zero_le _
  · rw [Function.update_of_ne hf]

/-- The entry is put in the record, under a new number. -/
theorem fill (i : Lb) (e : Ptr) (minor : Nat) (ltg : BitVec 32) (s : State) :
    Steady i s { s with
      ca := s.ca.fill e ⟨ltg, minor, s.puts + 1⟩
      puts := s.puts + 1
      vgact := true } := by
  refine ⟨id, id, rfl, rfl, rfl, rfl, Nat.le_succ _, ?_⟩
  intro f
  have hp : (s.ca.fill e ⟨ltg, minor, s.puts + 1⟩).part1 =
      Function.update s.ca.part1 e ⟨ltg, minor, s.puts + 1⟩ := by
    change Function.update (s.ca.useHead e).part1 e _ = _
    rw [(Cache.useHead_fields s.ca e).2.2.2.2.2]
  dsimp only
  rw [hp]
  by_cases hf : f = e
  · right
    rw [hf, Function.update_self]
  · left
    rw [Function.update_of_ne hf]

theorem ckcach (hne : i ≠ lb) (hc : ckcach v lb s = some s') : Steady i s s' := by
  unfold Mwc.ckcach at hc
  dsimp only at hc
  split_ifs at hc with h0 hchg hin hin
  · obtain rfl := Option.some.inj hc
    have h₁ : Steady i s { s with ca := (s.ca.setIocnt (s.entry lb)
        (s.ca.iocnt (s.entry lb) + 1)).useHead (s.entry lb) } :=
      of_buf rfl id id rfl rfl rfl (useHead_part1 _ _ _)
    exact (h₁.trans (count hne _ _)).trans (serve i lb _)
  · obtain rfl := Option.some.inj hc
    exact hold i lb s
  · cases hp : Mwc.pvque v lb s with
    | mk rc t =>
      have hpv := pvque i hp
      rw [hp] at hc
      cases rc with
      | success =>
        obtain rfl := Option.some.inj hc
        have h₁ : Steady i t { t with
            ca := (t.ca.setIocnt (s.entry lb) (t.ca.iocnt (s.entry lb) + 1)).useHead (s.entry lb)
            vgact := true } := of_buf rfl id id rfl rfl rfl (useHead_part1 _ _ _)
        exact (hpv.trans h₁).trans (count hne _ _)
      | lbhold =>
        obtain rfl := Option.some.inj hc
        exact hpv.trans (hold i lb t)
      | failure =>
        obtain rfl := Option.some.inj hc
        exact hpv.trans (terminate i lb t)
  · obtain rfl := Option.some.inj hc
    exact hold i lb s
  · obtain ⟨⟨o, ca⟩, hnew, hc⟩ := Option.bind_eq_some_iff.mp hc
    have hpart := new_part1 hnew
    cases o with
    | none =>
      obtain rfl := Option.some.inj hc
      have h₁ : Steady i s { s with ca := ca, full := true } := of_buf rfl id id rfl rfl rfl hpart
      exact h₁.trans (hold i lb _)
    | some e =>
      have h₁ : Steady i s { s with ca := ca, full := false } := of_buf rfl id id rfl rfl rfl hpart
      dsimp only at hc
      cases hp : Mwc.pvque v lb { s with ca := ca, full := false } with
      | mk rc t =>
        have hpv := h₁.trans (pvque i hp)
        rw [hp] at hc
        cases rc with
        | success =>
          obtain rfl := Option.some.inj hc
          exact (hpv.trans (fill i e _ _ t)).trans (count hne _ _)
        | lbhold =>
          obtain rfl := Option.some.inj hc
          exact (hpv.trans (clear i e t)).trans (hold i lb _)
        | failure =>
          obtain rfl := Option.some.inj hc
          exact (hpv.trans (clear i e t)).trans (terminate i lb _)

end Steady

end Aix413.Lvm.Mwc
