import Aix413.Message.Turns

namespace Aix413.Message.TypedFifo

open Lib.TypedQueue Ipc.Access Queues Calls Contents Selection Turns

/-- The messages sent to queue `k` and not yet received, in the order of their
sending, when the calls so far have ended with `tr`. -/
def pending (k : Nat) (tr : List Outcome) : List Entry :=
  tr.foldl (fun q o => if changed o = some k then after q o else q) []

/-- The queue and the arguments with which a turn comes to `findmsg`. -/
def looks (s : State) : Event → Option (Nat × Rcv)
  | .call tid env (.msgrcv id a) =>
    match s.threads tid, msgconv s id with
    | none, some k =>
      if ipcaccess env.toCred (s.msgque k).msgPerm IPC_R ∧ 0 ≤ a.msgsz then some (k, a) else none
    | _, _ => none
  | .resume tid _ signal =>
    match s.threads tid with
    | some ⟨k, seq, .rcv a _ _⟩ =>
      if signal = false ∧ MsqidDs.waits (s.msgque k) tid = false ∧ (s.msgque k).has IPC_ALLOC ∧
          seq = (s.msgque k).msgPerm.seq then some (k, a)
      else none
    | _ => none
  | _ => none

/-- What a turn is to do to a system of typed queues that hold what is sent and
not yet received. -/
structure Meets (s : State) (tr : List Outcome) (e : Event) : Prop where
  queue : ∀ k, Holds ((step s e).1.msgque k) (step s e).1.heap (pending k (tr ++ [(step s e).2]))
  failed : ∀ err, (step s e).2 = .failed err →
    (step s e).1.heap = s.heap ∧ ∀ k, still ((step s e).1.msgque k) = still (s.msgque k)
  asleep : (step s e).2 = .asleep →
    (step s e).1.heap = s.heap ∧ ∀ k, data ((step s e).1.msgque k) = data (s.msgque k)
  served : ∀ k a, looks s e = some (k, a) → Served k a (pending k tr) (step s e).2
  taken : ∀ k mp attr text, (step s e).2 = .received k mp attr text → ∃ a, looks s e = some (k, a)

/-- A receive with the lowest value for its type finds an empty queue. -/
def InRange (s : State) (e : Event) : Prop :=
  ∀ k a, looks s e = some (k, a) → a.msgtyp = Int32.minValue → (s.msgque k).msgFirst = 0

def AllMeet (s : State) (tr : List Outcome) : List Event → Prop
  | [] => True
  | e :: es => Meets s tr e ∧ AllMeet (step s e).1 (tr ++ [(step s e).2]) es

def AllInRange (s : State) : List Event → Prop
  | [] => True
  | e :: es => InRange s e ∧ AllInRange (step s e).1 es

/-- The queues hold what is pending, and the calls asleep what they should. -/
structure Inv (s : State) (tr : List Outcome) : Prop where
  kept : ∀ k, Kept (s.msgque k) s.heap (pending k tr)
  disjoint : ∀ {j k b}, b ∈ blocks (pending j tr) → b ∈ blocks (pending k tr) → j = k
  alloc : ∀ k, pending k tr ≠ [] → (s.msgque k).has IPC_ALLOC
  mark : ∀ k, (s.msgque k).has IPC_ALLOC → k < s.msgMark
  good : ∀ tid w, s.threads tid = some w → Good w.call

variable {s : State} {tr : List Outcome} {e : Event} {tid k : Nat} {env : Env} {o : Outcome}
  {r : MsqidDs × Heap × Turn}

theorem pending_snoc (k : Nat) (tr : List Outcome) (o : Outcome) :
    pending k (tr ++ [o]) = if changed o = some k then after (pending k tr) o else pending k tr := by
  rw [pending, List.foldl_append]
  rfl

theorem pending_of_changed (h : changed o = none) : pending k (tr ++ [o]) = pending k tr := by
  rw [pending_snoc, h, if_neg (by simp)]

theorem after_of_changed {q : List Entry} (h : changed o = none) : after q o = q := by
  cases o <;> first | rfl | cases h

theorem settle_outcome (s : State) (tid k : Nat) (r : MsqidDs × Heap × Turn) :
    (settle s tid k r).2 = outcome r.2.2 := by
  obtain ⟨qp, heap, t⟩ := r
  cases t <;> rfl

theorem settle_heap (s : State) (tid k : Nat) (r : MsqidDs × Heap × Turn) :
    (settle s tid k r).1.heap = r.2.1 ∧ (settle s tid k r).1.msgMark = s.msgMark ∧
      (settle s tid k r).1.msgque = Function.update s.msgque k r.1 := by
  obtain ⟨qp, heap, t⟩ := r
  cases t <;> exact ⟨rfl, rfl, rfl⟩

theorem settle_threads {j : Nat} {w : Waiting} (h : (settle s tid k r).1.threads j = some w) :
    s.threads j = some w ∨ r.2.2 = .sleep w.call := by
  obtain ⟨qp, heap, t⟩ := r
  by_cases hj : j = tid
  · subst hj
    cases t with
    | done o =>
      simp only [settle, Function.update_self] at h
      cases h
    | sleep w' =>
      simp only [settle, Function.update_self] at h
      cases h
      exact .inr rfl
  · left
    cases t with
    | done o => simpa only [settle, Function.update_of_ne hj] using h
    | sleep w' => simpa only [settle, Function.update_of_ne hj] using h

/-- A turn on one queue leaves the others what they were. -/
theorem pending_settle (ht : Turned k (s.msgque k) s.heap (pending k tr) r)
    (j : Nat) :
    pending j (tr ++ [outcome r.2.2]) =
      if j = k then after (pending k tr) (outcome r.2.2) else pending j tr := by
  rw [pending_snoc]
  by_cases hj : j = k
  · subst hj
    rw [if_pos rfl]
    split
    next => rfl
    next hc =>
      cases hch : changed (outcome r.2.2) with
      | none => exact (after_of_changed hch).symm
      | some i => exact absurd (hch.trans (congrArg some (ht.changed i hch))) hc
  · rw [if_neg hj, if_neg]
    intro hc
    exact hj (ht.changed j hc)

theorem inv_settle (tid : Nat) (h : Inv s tr) (ht : Turned k (s.msgque k) s.heap (pending k tr) r)
    (hk : (s.msgque k).has IPC_ALLOC ∨ changed (outcome r.2.2) = none) :
    Inv (settle s tid k r).1 (tr ++ [outcome r.2.2]) := by
  obtain ⟨hheap, hmark, hque⟩ := settle_heap s tid k r
  have hpend := pending_settle ht
  -- a block of another queue is neither on this one nor free
  have hother : ∀ j, j ≠ k → ∀ b ∈ blocks (pending j tr), b ∉ blocks (pending k tr) ∧
      (s.heap b).isSome := by
    intro j hj b hb
    obtain ⟨m, hm⟩ := (h.kept j).allocated hb
    exact ⟨fun hk => hj (h.disjoint hb hk), by rw [hm]; rfl⟩
  have hin : ∀ j b, b ∈ blocks (pending j (tr ++ [outcome r.2.2])) →
      b ∈ blocks (pending j tr) ∨ j = k ∧ s.heap b = none := by
    intro j b hb
    rw [hpend] at hb
    split at hb
    next hj =>
      subst hj
      exact (ht.blocks b hb).imp id fun hn => ⟨rfl, hn⟩
    next => exact .inl hb
  refine ⟨?_, ?_, ?_, ?_, ?_⟩
  · intro j
    rw [hheap, hque, hpend]
    by_cases hj : j = k
    · subst hj
      rw [if_pos rfl, Function.update_self]
      exact ht.kept
    · rw [if_neg hj, Function.update_of_ne hj]
      have hk := h.kept j
      refine ⟨hk.toHolds.congr ?_, hk.type_pos, hk.room⟩
      intro b hb
      exact ht.frame b (hother j hj b hb).1 (hother j hj b hb).2
  · intro i j b hi hj
    have hfree : ∀ l, b ∈ blocks (pending l tr) → s.heap b ≠ none := by
      intro l hl hn
      obtain ⟨m, hm⟩ := (h.kept l).allocated hl
      rw [hn] at hm
      cases hm
    rcases hin i b hi with hi | ⟨rfl, hn⟩ <;> rcases hin j b hj with hj | ⟨rfl, hn'⟩
    · exact h.disjoint hi hj
    · exact absurd hn' (hfree i hi)
    · exact absurd hn (hfree j hj)
    · rfl
  · intro j hne
    rw [hpend] at hne
    rw [hque]
    by_cases hj : j = k
    · subst hj
      rw [if_pos rfl] at hne
      rw [Function.update_self]
      rcases ht.alloc with ha | ⟨hnil, -⟩
      · rw [ha]
        rcases hk with hk | hc
        · exact hk
        · rw [after_of_changed hc] at hne
          exact h.alloc j hne
      · exact absurd hnil hne
    · rw [if_neg hj] at hne
      rw [Function.update_of_ne hj]
      exact h.alloc j hne
  · intro j ha
    rw [hmark]
    rw [hque] at ha
    by_cases hj : j = k
    · subst hj
      rw [Function.update_self] at ha
      rcases ht.alloc with he | ⟨-, hf⟩
      · exact h.mark j (he ▸ ha)
      · rw [hf] at ha
        cases ha
    · rw [Function.update_of_ne hj] at ha
      exact h.mark j ha
  · intro j w hw
    rcases settle_threads hw with hold | hnew
    · exact h.good j w hold
    · exact ht.good _ hnew

theorem msgconv_eq {id : UInt32} (h : msgconv s id = some k) : (s.msgque k).has IPC_ALLOC := by
  unfold msgconv at h
  simp only at h
  split at h
  next => cases h
  next =>
    split at h
    next => cases h
    next hno =>
      cases h
      by_contra hf
      exact hno (.inr (by simpa using hf))

/-- A turn that meets all but what concerns a search. -/
theorem meets_settle (h : Inv s tr) (ht : Turned k (s.msgque k) s.heap (pending k tr) r)
    (hk : (s.msgque k).has IPC_ALLOC ∨ changed (outcome r.2.2) = none)
    (hs : step s e = settle s tid k r)
    (hserved : ∀ j a, looks s e = some (j, a) → Served j a (pending j tr) (outcome r.2.2))
    (htaken : ∀ j mp attr text, outcome r.2.2 = .received j mp attr text →
      ∃ a, looks s e = some (j, a)) :
    Meets s tr e := by
  obtain ⟨hheap, -, hque⟩ := settle_heap s tid k r
  have hinv := inv_settle tid h ht hk
  have hout : (step s e).2 = outcome r.2.2 := by rw [hs, settle_outcome]
  have hst : (step s e).1 = (settle s tid k r).1 := by rw [hs]
  refine ⟨?_, ?_, ?_, ?_, ?_⟩
  · intro j
    rw [hout, hst]
    exact (hinv.kept j).toHolds
  · intro err he
    rw [hout] at he
    obtain ⟨hq, hh⟩ := ht.failed err he
    rw [hst, hheap, hque]
    refine ⟨hh, fun j => ?_⟩
    by_cases hj : j = k
    · rw [hj, Function.update_self, hq]
    · rw [Function.update_of_ne hj]
  · intro he
    rw [hout] at he
    obtain ⟨hq, hh⟩ := ht.asleep he
    rw [hst, hheap, hque]
    refine ⟨hh, fun j => ?_⟩
    by_cases hj : j = k
    · rw [hj, Function.update_self, hq]
    · rw [Function.update_of_ne hj]
  · rw [hout]
    exact hserved
  · rw [hout]
    exact htaken

/-- What a step owes to the invariant and to the claim. -/
def StepSpec (s : State) (tr : List Outcome) (e : Event) : Prop :=
  Inv (step s e).1 (tr ++ [(step s e).2]) ∧ (Meets s tr e ↔ InRange s e)

theorem spec_search {a : Rcv} (h : Inv s tr) (hk : (s.msgque k).has IPC_ALLOC) (ha : 0 ≤ a.msgsz)
    (hs : step s e = settle s tid k (rcvLoop env tid k a 0 0 (s.msgque k) s.heap))
    (hl : looks s e = some (k, a)) : StepSpec s tr e := by
  obtain ⟨ht, hserved⟩ := rcvLoop_spec env tid k (h.kept k) ha
  have hinv := inv_settle tid h ht (.inl hk)
  have hrange : InRange s e ↔ (a.msgtyp = Int32.minValue → (s.msgque k).msgFirst = 0) := by
    constructor
    · intro hr
      exact hr k a hl
    · rintro hr j b hj
      rw [hl] at hj
      cases hj
      exact hr
  refine ⟨?_, ?_, ?_⟩
  · rw [hs, settle_outcome]
    exact hinv
  · intro hm
    have hsv := hm.served k a hl
    rw [hs, settle_outcome] at hsv
    exact hrange.mpr (hserved.mp hsv)
  · intro hr
    refine meets_settle h ht (.inl hk) hs ?_ ?_
    · intro j b hj
      rw [hl] at hj
      cases hj
      exact hserved.mpr (hrange.mp hr)
    · intro j mp attr text ho
      exact ⟨a, by rw [received_rcvLoop ho, hl]⟩

theorem inRange_of_none (hl : looks s e = none) : InRange s e := by
  intro k a hj
  rw [hl] at hj
  cases hj

theorem spec_settle (h : Inv s tr) (ht : Turned k (s.msgque k) s.heap (pending k tr) r)
    (hk : (s.msgque k).has IPC_ALLOC ∨ changed (outcome r.2.2) = none)
    (hs : step s e = settle s tid k r) (hl : looks s e = none)
    (hr : ∀ j mp attr text, outcome r.2.2 ≠ .received j mp attr text) : StepSpec s tr e := by
  refine ⟨?_, iff_of_true ?_ (inRange_of_none hl)⟩
  · rw [hs, settle_outcome]
    exact inv_settle tid h ht hk
  · refine meets_settle h ht hk hs ?_ ?_
    · intro j a hj
      rw [hl] at hj
      cases hj
    · intro j mp attr text ho
      exact absurd ho (hr j mp attr text)

theorem spec_same (h : Inv s tr) (hs : step s e = (s, o)) (hc : changed o = none)
    (hl : looks s e = none) : StepSpec s tr e := by
  have hp : ∀ k, pending k (tr ++ [o]) = pending k tr := fun k => pending_of_changed hc
  refine ⟨?_, iff_of_true ⟨?_, ?_, ?_, ?_, ?_⟩ (inRange_of_none hl)⟩
  · rw [hs]
    refine ⟨fun k => (hp k).symm ▸ h.kept k, ?_, ?_, h.mark, h.good⟩
    · intro j k b hj hk
      rw [hp] at hj hk
      exact h.disjoint hj hk
    · intro k hne
      exact h.alloc k (hp k ▸ hne)
  · intro k
    rw [hs]
    exact ((hp k).symm ▸ h.kept k : Kept (s.msgque k) s.heap (pending k (tr ++ [o]))).toHolds
  · intro err _
    rw [hs]
    exact ⟨rfl, fun _ => rfl⟩
  · intro _
    rw [hs]
    exact ⟨rfl, fun _ => rfl⟩
  · intro k a hj
    rw [hl] at hj
    cases hj
  · intro k mp attr text ho
    rw [hs] at ho
    change o = _ at ho
    rw [ho] at hc
    cases hc

theorem spec_rmsgget {key : Int} {flag : BitVec 32} (h : Inv s tr)
    (hs : step s e = rmsgget s env key flag) (hl : looks s e = none) : StepSpec s tr e := by
  unfold rmsgget at hs
  cases hg : ipcget (fun i => (s.msgque i).msgPerm) s.msgMark msgmni key flag with
  | error err =>
    rw [hg] at hs
    exact spec_same h hs rfl hl
  | ok r =>
    obtain ⟨k, new⟩ := r
    rw [hg] at hs
    cases new with
    | false => exact spec_same h hs rfl hl
    | true =>
      have hfree : (s.msgque k).has IPC_ALLOC = false := ipcget_new h.mark hg
      have hempty : pending k tr = [] := by
        by_contra hne
        have ha := h.alloc k hne
        rw [hfree] at ha
        cases ha
      have hp : ∀ j, pending j (tr ++ [.got (msqid s k)]) = pending j tr :=
        fun j => pending_of_changed rfl
      have hkept : ∀ j, Kept (Function.update s.msgque k (create env key flag (s.msgque k)) j) s.heap
          (pending j tr) := by
        intro j
        by_cases hj : j = k
        · subst hj
          rw [hempty, Function.update_self]
          exact ⟨⟨⟨rfl, rfl, fun _ he => absurd he List.not_mem_nil, rfl⟩, rfl⟩,
            fun _ he => absurd he List.not_mem_nil, Nat.zero_le _⟩
        · rw [Function.update_of_ne hj]
          exact h.kept j
      refine ⟨?_, iff_of_true ⟨?_, ?_, ?_, ?_, ?_⟩ (inRange_of_none hl)⟩
      · rw [hs]
        refine ⟨fun j => (hp j).symm ▸ hkept j, ?_, ?_, ?_, h.good⟩
        · intro i j b hi hj
          rw [hp] at hi hj
          exact h.disjoint hi hj
        · intro j hne
          rw [hp] at hne
          have hj : j ≠ k := by
            rintro rfl
            exact hne hempty
          simp only [Function.update_of_ne hj]
          exact h.alloc j hne
        · intro j ha
          simp only at ha ⊢
          by_cases hj : j = k
          · omega
          · rw [Function.update_of_ne hj] at ha
            have := h.mark j ha
            omega
      · intro j
        rw [hs]
        exact ((hp j).symm ▸ hkept j :
          Kept _ s.heap (pending j (tr ++ [.got (msqid s k)]))).toHolds
      · intro err he
        rw [hs] at he
        cases he
      · intro he
        rw [hs] at he
        cases he
      · intro j a hj
        rw [hl] at hj
        cases hj
      · intro j mp attr text ho
        rw [hs] at ho
        cases ho

theorem sndLoop_received {a : Snd} {qp : MsqidDs} {heap : Heap} (j mp : Nat) (attr : MsgHdr ⊕ Int32)
    (text : List UInt8) :
    outcome (sndLoop env tid k a qp heap).2.2 ≠ .received j mp attr text := by
  intro h
  rcases sndLoop_turn env tid k a qp heap with ⟨_, ht⟩ | ht | ⟨_, _, _, ht⟩ <;>
    rw [ht] at h <;> cases h

theorem rmsgctl_received {cmd : Int} {dsp : Dsp} {qp : MsqidDs} {heap : Heap} (j mp : Nat)
    (attr : MsgHdr ⊕ Int32) (text : List UInt8) :
    outcome (rmsgctl env k cmd dsp qp heap).2.2 ≠ .received j mp attr text := by
  intro h
  unfold rmsgctl at h
  split_ifs at h <;> try cases h
  split at h <;> cases h

theorem spec_call (h : Inv s tr) (tid : Nat) (env : Env) (c : Call) :
    StepSpec s tr (.call tid env c) := by
  cases hth : s.threads tid with
  | some w =>
    have hs : step s (.call tid env c) = (s, .idle) := by simp [step, hth]
    refine spec_same h hs rfl ?_
    cases c <;> simp [looks, hth]
  | none =>
    have hs : step s (.call tid env c) = begin s tid env c := by simp [step, hth]
    cases c with
    | msgget key flag => exact spec_rmsgget h hs rfl
    | msgsnd id a =>
      cases hid : msgconv s id with
      | none =>
        have hfail : step s (.call tid env (.msgsnd id a)) = (s, .failed .einval) :=
          hs.trans (by simp [begin, hid])
        exact spec_same h hfail rfl rfl
      | some k =>
        have hset : step s (.call tid env (.msgsnd id a)) =
            settle s tid k (rmsgsnd env tid k a (s.msgque k) s.heap) :=
          hs.trans (by simp [begin, hid])
        unfold rmsgsnd at hset
        by_cases hacc : ipcaccess env.toCred (s.msgque k).msgPerm IPC_W = false
        · rw [if_pos hacc] at hset
          exact spec_settle h (turned_failed (h.kept k)) (.inr rfl) hset rfl
            fun _ _ _ _ ho => by cases ho
        rw [if_neg hacc] at hset
        by_cases hc : a.cnt < 0 ∨ a.cnt > msgmax
        · rw [if_pos hc] at hset
          exact spec_settle h (turned_failed (h.kept k)) (.inr rfl) hset rfl
            fun _ _ _ _ ho => by cases ho
        · rw [if_neg hc] at hset
          exact spec_settle h (turned_sndLoop (h.kept k) (by omega) (by omega))
            (.inl (msgconv_eq hid)) hset rfl sndLoop_received
    | msgrcv id a =>
      cases hid : msgconv s id with
      | none =>
        have hfail : step s (.call tid env (.msgrcv id a)) = (s, .failed .einval) :=
          hs.trans (by simp [begin, hid])
        exact spec_same h hfail rfl (by simp [looks, hth, hid])
      | some k =>
        have hset : step s (.call tid env (.msgrcv id a)) =
            settle s tid k (rmsgrcv env tid k a (s.msgque k) s.heap) :=
          hs.trans (by simp [begin, hid])
        unfold rmsgrcv at hset
        by_cases hacc : ipcaccess env.toCred (s.msgque k).msgPerm IPC_R = false
        · rw [if_pos hacc] at hset
          exact spec_settle h (turned_failed (h.kept k)) (.inr rfl) hset
            (by simp [looks, hth, hid, hacc]) fun _ _ _ _ ho => by cases ho
        rw [if_neg hacc] at hset
        by_cases hsz : a.msgsz < 0
        · rw [if_pos hsz] at hset
          exact spec_settle h (turned_failed (h.kept k)) (.inr rfl) hset
            (by simp [looks, hth, hid, hsz]) fun _ _ _ _ ho => by cases ho
        · rw [if_neg hsz] at hset
          refine spec_search h (msgconv_eq hid) (not_lt.mp hsz) hset ?_
          have hb : ipcaccess env.toCred (s.msgque k).msgPerm IPC_R = true := by simpa using hacc
          simp [looks, hth, hid, hb, not_lt.mp hsz]
    | msgctl id cmd dsp =>
      cases hid : msgconv s id with
      | none =>
        have hfail : step s (.call tid env (.msgctl id cmd dsp)) = (s, .failed .einval) :=
          hs.trans (by simp [begin, hid])
        exact spec_same h hfail rfl rfl
      | some k =>
        have hset : step s (.call tid env (.msgctl id cmd dsp)) =
            settle s tid k (rmsgctl env k cmd dsp (s.msgque k) s.heap) :=
          hs.trans (by simp [begin, hid])
        exact spec_settle h (turned_rmsgctl (h.kept k)) (.inl (msgconv_eq hid)) hset rfl
          rmsgctl_received

theorem turned_signal {q : List Entry} {qp : MsqidDs} {heap : Heap} (h : Kept qp heap q) :
    Turned k qp heap q
      ({ qp with msgRwait := qp.msgRwait.erase tid, msgWwait := qp.msgWwait.erase tid }, heap,
        .done (.failed .eintr)) :=
  turned_of_kept (h.fields rfl rfl rfl rfl) rfl rfl rfl (fun _ hw => by cases hw) (fun _ _ => rfl)
    (fun ho => by cases ho) (fun ho => by cases ho)

theorem spec_resume (h : Inv s tr) (tid : Nat) (env : Env) (signal : Bool) :
    StepSpec s tr (.resume tid env signal) := by
  have hs : step s (.resume tid env signal) = resume s tid env signal := rfl
  unfold resume at hs
  cases hth : s.threads tid with
  | none =>
    rw [hth] at hs
    exact spec_same h hs rfl (by simp [looks, hth])
  | some w =>
    obtain ⟨k, seq, call⟩ := w
    rw [hth] at hs
    simp only at hs
    have hlooks : ¬(signal = false ∧ MsqidDs.waits (s.msgque k) tid = false ∧
        (s.msgque k).has IPC_ALLOC ∧ seq = (s.msgque k).msgPerm.seq) →
        looks s (.resume tid env signal) = none := by
      intro hno
      cases call with
      | snd a => simp [looks, hth]
      | rcv a smp spmp =>
        simp only [looks, hth]
        exact if_neg hno
    cases signal with
    | true =>
      exact spec_settle h (turned_signal (h.kept k)) (.inr rfl) hs (hlooks (by simp))
        fun _ _ _ _ ho => by cases ho
    | false =>
      rw [if_neg (by simp)] at hs
      by_cases hw : MsqidDs.waits (s.msgque k) tid = true
      · rw [if_pos hw] at hs
        exact spec_same h hs rfl (hlooks (by simp [hw]))
      rw [if_neg hw] at hs
      by_cases hid : (s.msgque k).has IPC_ALLOC = false ∨ seq ≠ (s.msgque k).msgPerm.seq
      · rw [if_pos hid] at hs
        refine spec_settle h (turned_failed (h.kept k)) (.inr rfl) hs (hlooks ?_)
          fun _ _ _ _ ho => by cases ho
        rintro ⟨-, -, ha, hq⟩
        rcases hid with hf | hne
        · rw [hf] at ha
          cases ha
        · exact hne hq
      · rw [if_neg hid] at hs
        obtain ⟨ha, hq⟩ := not_or.mp hid
        have ha' : (s.msgque k).has IPC_ALLOC = true := by simpa using ha
        cases call with
        | snd a =>
          obtain ⟨hc, hmax⟩ : Good (.snd a) := h.good tid _ hth
          exact spec_settle h (turned_sndLoop (h.kept k) hc hmax) (.inl ha') hs
            (by simp [looks, hth]) sndLoop_received
        | rcv a smp spmp =>
          obtain ⟨hsz, rfl, rfl⟩ : Good (.rcv a smp spmp) := h.good tid _ hth
          refine spec_search h ha' hsz hs ?_
          simp [looks, hth, hw, ha', not_not.mp hq]

theorem step_spec (h : Inv s tr) (e : Event) : StepSpec s tr e := by
  cases e with
  | call tid env c => exact spec_call h tid env c
  | resume tid env signal => exact spec_resume h tid env signal

theorem allMeet_iff (h : Inv s tr) (es : List Event) : AllMeet s tr es ↔ AllInRange s es := by
  induction es generalizing s tr with
  | nil => exact Iff.rfl
  | cons e es ih =>
    obtain ⟨hinv, hiff⟩ := step_spec h e
    exact and_congr hiff (ih hinv)

theorem inv_boot : Inv boot [] where
  kept := fun _ => ⟨⟨⟨rfl, rfl, fun _ he => absurd he List.not_mem_nil, rfl⟩, rfl⟩,
    fun _ he => absurd he List.not_mem_nil, Nat.zero_le _⟩
  disjoint := fun hb => absurd hb List.not_mem_nil
  alloc := fun _ hne => absurd rfl hne
  mark := fun _ ha => by simp [boot, unused, MsqidDs.has, isSet] at ha
  good := fun _ _ hw => by cases hw

/-- In every run the queues are typed queues of what is sent and not yet
received, with their counts, exactly when no receive with the lowest value for
its type comes to a queue that holds a message. -/
theorem typed_fifo_iff (es : List Event) : AllMeet boot [] es ↔ AllInRange boot es :=
  allMeet_iff inv_boot es

/-- A process that may do all, with a message of type 1 of one byte. -/
def root : Env :=
  { pid := 1
    uid := 0
    gid := 0
    member := fun _ => true
    priv := fun _ => true
    time := 0
    xmalloc := 1
    mtype := some 1
    mtext := fun _ => some 65
    writable := fun _ => true }

/-- The message sent is not found. -/
theorem lowest_type_misses :
    ¬∀ es, AllMeet boot [] es := by
  intro h
  have hrun := (allMeet_iff inv_boot _).mp (h
    [.call 1 root (.msgget 0 0),
      .call 1 root (.msgsnd 0 ⟨1, 0, false⟩),
      .call 1 root (.msgrcv 0 ⟨1, Int32.minValue, IPC_NOWAIT, false, false⟩)])
  exact absurd (hrun.2.2.1 0 ⟨1, Int32.minValue, IPC_NOWAIT, false, false⟩ (by decide) rfl)
    (by decide)

end Aix413.Message.TypedFifo
