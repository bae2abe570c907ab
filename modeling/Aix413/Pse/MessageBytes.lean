import Aix413.Lib.BlockMove

namespace Aix413.Pse

open Lib.BlockMove

/-! ## Messages -/

/-- A data block; `dbLim` is the first address behind it. -/
structure Datab where
  dbBase : Nat
  dbLim : Nat
  dbType : Nat
  dbRef : Nat

/-- A message block; data blocks are numbered. -/
structure Mblk where
  bRptr : Nat
  bWptr : Nat
  bDatap : Nat

/-- The memory and the data blocks, those in use being referenced. -/
structure Blocks (β : Type*) where
  mem : Nat → β
  db : Nat → Datab

variable {β : Type*}

def Mblk.len (b : Mblk) : Nat := b.bWptr - b.bRptr

def Blocks.type (s : Blocks β) (b : Mblk) : Nat := (s.db b.bDatap).dbType

/-- `MACHINE_ALIGNMENT` is the size of a pointer. -/
def alignment (p : Nat) : Nat := p % 4

def align (p : Nat) : Nat := p + 3 - alignment (p + 3)

/-! ## `allocb` and `freeb` -/

/-- The size of a message header, the limit on the size of a block, and the sizes the network
allocator has. -/
structure Sizes where
  mh : Nat
  strmsgsz : Nat
  quantum : Nat → Nat

def Sizes.rounded (c : Sizes) (size : Nat) : Nat :=
  if size ≤ 128 - c.mh then if size ≠ 0 then 128 - c.mh else size
  else if size ≤ 256 - c.mh then if size ≠ 0 then 256 - c.mh else size
  else c.quantum size

def mData : Nat := 0

/-- `got` is the number and the memory of a new block of a size, if there is any. -/
def allocb (c : Sizes) (got : Nat → Option (Nat × Nat)) (size : Int) : Option (Nat × Datab) :=
  if size < 0 ∨ 0 < c.strmsgsz ∧ (c.strmsgsz : Int) < size then none
  else
    let size := c.rounded size.toNat
    (got size).map fun g => (g.1, ⟨g.2, g.2 + size, mData, 1⟩)

/-- One reference less; a block without any is free. -/
def freeb (s : Blocks β) (datap : Nat) : Blocks β :=
  let db := s.db datap
  { s with db := Function.update s.db datap { db with dbRef := db.dbRef - 1 } }

/-- The new data block, with its type. -/
def Blocks.add (s : Blocks β) (datap : Nat) (d : Datab) (type : Nat) : Blocks β :=
  { s with db := Function.update s.db datap { d with dbType := type } }

def bcopy (s : Blocks β) (src dst n : Nat) : Blocks β := { s with mem := move s.mem src dst n }

/-! ## `pullupmsg` -/

/-- The blocks of the type that follow reach the length. -/
def reaches (s : Blocks β) (type : Nat) (len : Int) : Int → List Mblk → Bool
  | _, [] => false
  | i1, mp1 :: rest =>
    if s.type mp1 ≠ type then false
    else if i1 + mp1.len < len then reaches s type len (i1 + mp1.len) rest
    else true

/-- The bytes in the blocks of the type that follow. -/
def follow (s : Blocks β) (type : Nat) : List Mblk → Nat
  | [] => 0
  | mp1 :: rest => if s.type mp1 ≠ type then 0 else mp1.len + follow s type rest

/-- The number of bytes the first block is to have, at least. -/
def pullLen (s : Blocks β) (len : Int) (mp : Mblk) (cont : List Mblk) : Int :=
  if 0 ≤ len then len else mp.len + follow s (s.type mp) cont

/-- The last loop. -/
def pull (mp : Mblk) : List Mblk → Nat → Int → Nat → Blocks β →
    Option (Bool × Blocks β × List Mblk)
  | cont, dst, len, i1, s =>
    let dst := dst + i1
    let len := len - i1
    if len ≤ 0 then some (true, s, { mp with bWptr := dst } :: cont)
    else
      match cont with
      | [] => none
      | mp1 :: rest =>
        if (mp1.len : Int) ≤ len then
          pull mp rest dst len mp1.len (freeb (bcopy s mp1.bRptr dst mp1.len) mp1.bDatap)
        else
          -- the next turn ends with nothing left
          let i1 := len.toNat
          some (true, bcopy s mp1.bRptr dst i1,
            { mp with bWptr := dst + i1 } :: { mp1 with bRptr := mp1.bRptr + i1 } :: rest)

/-- The first block has room for the bytes, and gets them where it is. -/
def inPlace (s : Blocks β) (len : Int) (mp : Mblk) : Prop :=
  (s.db mp.bDatap).dbRef = 1 ∧ align (s.db mp.bDatap).dbBase ≤ mp.bRptr ∧
    len ≤ (s.db mp.bDatap).dbLim - (align (s.db mp.bDatap).dbBase : Int)

instance (s : Blocks β) (len : Int) (mp : Mblk) : Decidable (inPlace s len mp) :=
  inferInstanceAs (Decidable (_ ∧ _ ∧ _))

/-- The message is given by its blocks; `none` stands for a null pointer followed. -/
def pullupmsg (c : Sizes) (got : Nat → Option (Nat × Nat)) (len : Int) (s : Blocks β) :
    List Mblk → Option (Bool × Blocks β × List Mblk)
  | [] => some (false, s, [])
  | mp :: cont =>
    let i1 := mp.len
    let db := s.db mp.bDatap
    if 0 ≤ len ∧ i1 < len ∧ reaches s db.dbType len i1 cont = false then
      some (false, s, mp :: cont)
    else
      let len := pullLen s len mp cont
      if inPlace s len mp then
        let dst := align db.dbBase
        if alignment mp.bRptr ≠ 0 then
          pull { mp with bRptr := dst } cont dst len i1 (bcopy s mp.bRptr dst i1)
        else pull mp cont mp.bRptr len i1 s
      else
        match allocb c got (max i1 len) with
        | none => some (false, s, mp :: cont)
        | some (datap, d) =>
          let s := bcopy (s.add datap d db.dbType) mp.bRptr d.dbBase i1
          pull { mp with bRptr := d.dbBase, bDatap := datap } cont d.dbBase len i1
            (freeb s mp.bDatap)

/-! ## `adjmsg` -/

/-- `-n` in 32 bits. -/
def neg (n : Int) : Int := Int.bmod (-n) (2 ^ 32)

/-- The blocks up to the one in which the length is reached, that one without its first bytes. -/
def trim (s : Blocks β) (type : Nat) (lenToTrim : Int) : Int → List Mblk → Option (List Mblk)
  | _, [] => none
  | lenWeHave, mp1 :: rest =>
    if s.type mp1 ≠ type then none
    else
      let lenWeHave := lenWeHave + mp1.len
      if lenWeHave < lenToTrim then
        (trim s type lenToTrim lenWeHave rest).map ({ mp1 with bRptr := mp1.bWptr } :: ·)
      else some ({ mp1 with bRptr := (mp1.bWptr - (lenWeHave - lenToTrim)).toNat } :: rest)

/-- The blocks before the last run of one type, the run, and its bytes. -/
def lastRun (s : Blocks β) (before run : List Mblk) (type : Nat) (lenWeHave : Int) :
    List Mblk → List Mblk × List Mblk × Int
  | [] => (before, run, lenWeHave)
  | mp1 :: rest =>
    if s.type mp1 ≠ type then lastRun s (before ++ run) [mp1] (s.type mp1) mp1.len rest
    else lastRun s before (run ++ [mp1]) type (lenWeHave + mp1.len) rest

def Mblk.shorten (b : Mblk) (n : Int) : Mblk := { b with bWptr := (b.bWptr - n).toNat }

/-- The bytes are taken from the block in which they begin, and all of those behind it. -/
def cut (lenToTrim : Int) : Int → List Mblk → List Mblk
  | _, [] => []
  | lenWeHave, mp1 :: rest =>
    let lenWeHave := lenWeHave - mp1.len
    if lenWeHave ≤ lenToTrim then
      mp1.shorten (lenToTrim - lenWeHave) :: rest.map fun b => { b with bWptr := b.bRptr }
    else mp1 :: cut lenToTrim lenWeHave rest

def adjmsg (s : Blocks β) (lenToTrim : Int) (mp : Mblk) (cont : List Mblk) : Bool × List Mblk :=
  if 0 ≤ lenToTrim then
    if (mp.len : Int) < lenToTrim then
      match trim s (s.type mp) lenToTrim mp.len cont with
      | none => (false, mp :: cont)
      | some cont => (true, { mp with bRptr := mp.bWptr } :: cont)
    else (true, { mp with bRptr := (mp.bWptr - (mp.len - lenToTrim)).toNat } :: cont)
  else
    let lenToTrim := neg lenToTrim
    if cont = [] then
      if lenToTrim ≤ mp.len then (true, [mp.shorten lenToTrim]) else (false, [mp])
    else
      let (before, run, lenWeHave) := lastRun s [] [mp] (s.type mp) mp.len cont
      let last := run.getLastD mp
      if lenToTrim ≤ last.len then (true, before ++ run.dropLast ++ [last.shorten lenToTrim])
      else if lenWeHave < lenToTrim then (false, mp :: cont)
      else (true, before ++ cut lenToTrim lenWeHave run)

/-! ## The bytes of a message -/

variable {s s' : Blocks β} {mp b : Mblk} {cont rest msg : List Mblk} {t n p dst i1 : Nat}
  {len : Int} {m' : Nat → β}

def Blocks.bytes (s : Blocks β) (b : Mblk) : List β := window s.mem b.bRptr b.len

def Blocks.view (s : Blocks β) (msg : List Mblk) : List (Nat × List β) :=
  msg.map fun b => (s.type b, s.bytes b)

/-- The byte strings of the runs of one type. -/
def runs : List (Nat × List β) → List (Nat × List β)
  | [] => []
  | (t, bs) :: l =>
    match runs l with
    | [] => [(t, bs)]
    | (t', bs') :: l' => if t = t' then (t, bs ++ bs') :: l' else (t, bs) :: (t', bs') :: l'

theorem runs_merge (t : Nat) (a b : List β) (l : List (Nat × List β)) :
    runs ((t, a) :: (t, b) :: l) = runs ((t, a ++ b) :: l) := by
  rw [runs, runs, runs]
  rcases runs l with _ | ⟨⟨t', c⟩, l'⟩
  · simp
  · by_cases h : t = t'
    · simp [h]
    · simp [h]

/-- The data blocks in use are apart, each message block lies in its own, and is counted there. -/
structure Valid (s : Blocks β) (msg : List Mblk) : Prop where
  apart : ∀ i j, i ≠ j → 0 < (s.db i).dbRef → 0 < (s.db j).dbRef →
    (s.db i).dbLim ≤ (s.db j).dbBase ∨ (s.db j).dbLim ≤ (s.db i).dbBase
  within : ∀ b ∈ msg, (s.db b.bDatap).dbBase ≤ b.bRptr ∧ b.bRptr ≤ b.bWptr ∧
    b.bWptr ≤ (s.db b.bDatap).dbLim
  refs : ∀ i, (msg.map Mblk.bDatap).count i ≤ (s.db i).dbRef

namespace Valid

theorem used (h : Valid s msg) (hb : b ∈ msg) : 0 < (s.db b.bDatap).dbRef :=
  (List.count_pos_iff.mpr (List.mem_map_of_mem hb)).trans_le (h.refs _)

/-- A data block with one reference is not shared. -/
theorem datap_ne (h : Valid s (mp :: cont)) (href : (s.db mp.bDatap).dbRef = 1) (hb : b ∈ cont) :
    b.bDatap ≠ mp.bDatap := by
  intro he
  have hcount := h.refs mp.bDatap
  have hpos : 0 < (cont.map Mblk.bDatap).count mp.bDatap :=
    List.count_pos_iff.mpr (he ▸ List.mem_map_of_mem hb)
  rw [href, List.map_cons, List.count_cons_self] at hcount
  omega

/-- What is written in the data block of the first message block is not seen by the others. -/
theorem bytes_write (h : Valid s (mp :: cont)) (href : (s.db mp.bDatap).dbRef = 1)
    (hm : ∀ a, m' a ≠ s.mem a → (s.db mp.bDatap).dbBase ≤ a ∧ a < (s.db mp.bDatap).dbLim)
    (hb : b ∈ cont) : window m' b.bRptr b.len = s.bytes b := by
  refine window_congr fun i hi => ?_
  by_contra hne
  have hin := hm _ hne
  have hwithin := h.within b (List.mem_cons_of_mem _ hb)
  have happart := h.apart _ _ (h.datap_ne href hb) (h.used (List.mem_cons_of_mem _ hb))
    (h.used List.mem_cons_self)
  rw [Mblk.len] at hi
  omega

end Valid

theorem view_cons (s : Blocks β) (b : Mblk) (msg : List Mblk) :
    s.view (b :: msg) = (s.type b, s.bytes b) :: s.view msg := rfl

theorem move_ne {m : Nat → β} {src a : Nat} (h : move m src dst n a ≠ m a) :
    dst ≤ a ∧ a < dst + n := by
  by_contra hout
  exact h (move_out (by omega))

/-- The first `n` bytes of the second block are put behind those of the first. -/
theorem Valid.take (h : Valid s ({ mp with bWptr := p } :: b :: rest))
    (href : (s.db mp.bDatap).dbRef = 1) (hn : n ≤ b.len) (hroom : p + n ≤ (s.db mp.bDatap).dbLim)
    (ht : s.type b = s.type mp) :
    Valid (bcopy s b.bRptr p n)
      ({ mp with bWptr := p + n } :: { b with bRptr := b.bRptr + n } :: rest) ∧
    runs ((bcopy s b.bRptr p n).view
      ({ mp with bWptr := p + n } :: { b with bRptr := b.bRptr + n } :: rest)) =
    runs (s.view ({ mp with bWptr := p } :: b :: rest)) := by
  obtain ⟨hbase, hle, hlim⟩ := h.within _ List.mem_cons_self
  obtain ⟨hbase', hle', hlim'⟩ := h.within b (List.mem_cons_of_mem _ List.mem_cons_self)
  dsimp only at hbase hle hlim
  rw [Mblk.len] at hn
  have hm : ∀ a, move s.mem b.bRptr p n a ≠ s.mem a →
      (s.db mp.bDatap).dbBase ≤ a ∧ a < (s.db mp.bDatap).dbLim := by
    intro a ha
    have := move_ne ha
    omega
  constructor
  · refine ⟨h.apart, fun b' hb' => ?_, h.refs⟩
    rcases List.mem_cons.mp hb' with rfl | hb'
    · exact ⟨hbase, hle.trans (Nat.le_add_right p n), hroom⟩
    · rcases List.mem_cons.mp hb' with rfl | hb'
      · exact ⟨hbase'.trans (Nat.le_add_right _ n), show b.bRptr + n ≤ b.bWptr by omega, hlim'⟩
      · exact h.within b' (List.mem_cons_of_mem _ (List.mem_cons_of_mem _ hb'))
  · have hrest : (bcopy s b.bRptr p n).view rest = s.view rest := by
      refine List.map_congr_left fun b' hb' => ?_
      rw [Prod.mk.injEq]
      exact ⟨rfl, h.bytes_write href hm (List.mem_cons_of_mem _ hb')⟩
    have hfirst : (bcopy s b.bRptr p n).bytes { mp with bWptr := p + n } =
        s.bytes { mp with bWptr := p } ++ window s.mem b.bRptr n := by
      have hlen : p + n - mp.bRptr = (p - mp.bRptr) + n := by omega
      have hp : mp.bRptr + (p - mp.bRptr) = p := by omega
      change window (move s.mem b.bRptr p n) mp.bRptr (p + n - mp.bRptr) = _
      rw [hlen, window_add, hp, window_move, window_move_out (Or.inl (by omega))]
      rfl
    have hb : s.bytes b = window s.mem b.bRptr n ++
        window s.mem (b.bRptr + n) (b.bWptr - (b.bRptr + n)) := by
      have hlen : b.len = n + (b.bWptr - (b.bRptr + n)) := by
        rw [Mblk.len]
        omega
      rw [Blocks.bytes, hlen, window_add]
    have hsecond : (bcopy s b.bRptr p n).bytes { b with bRptr := b.bRptr + n } =
        window s.mem (b.bRptr + n) (b.bWptr - (b.bRptr + n)) := by
      have hwhole := h.bytes_write href hm List.mem_cons_self
      refine window_sub hwhole ?_
      simp only [Mblk.len]
      omega
    rw [view_cons, view_cons, view_cons, view_cons, hrest, hfirst, hsecond, hb]
    change runs ((s.type mp, _) :: (s.type b, _) :: _) = runs ((s.type mp, _) :: (s.type b, _) :: _)
    rw [ht, runs_merge, runs_merge, List.append_assoc]


theorem freeb_type (s : Blocks β) (datap : Nat) (b : Mblk) : (freeb s datap).type b = s.type b := by
  change (Function.update s.db datap _ b.bDatap).dbType = (s.db b.bDatap).dbType
  by_cases h : b.bDatap = datap
  · rw [h, Function.update_self]
  · rw [Function.update_of_ne h]

theorem freeb_range (s : Blocks β) (datap i : Nat) :
    ((freeb s datap).db i).dbBase = (s.db i).dbBase ∧
      ((freeb s datap).db i).dbLim = (s.db i).dbLim ∧
      ((freeb s datap).db i).dbType = (s.db i).dbType ∧
      ((freeb s datap).db i).dbRef = (s.db i).dbRef - if i = datap then 1 else 0 := by
  unfold freeb
  by_cases h : i = datap
  · subst h
    simp
  · simp [h]

/-- A block without bytes is dropped. -/
theorem Valid.drop (h : Valid s (mp :: b :: rest)) (hb : b.len = 0) (ht : s.type b = s.type mp) :
    Valid (freeb s b.bDatap) (mp :: rest) ∧
    runs ((freeb s b.bDatap).view (mp :: rest)) = runs (s.view (mp :: b :: rest)) := by
  constructor
  · refine ⟨fun i j hij hi hj => ?_, fun b' hb' => ?_, fun i => ?_⟩
    · obtain ⟨h1, h2, -, h3⟩ := freeb_range s b.bDatap i
      obtain ⟨h4, h5, -, h6⟩ := freeb_range s b.bDatap j
      rw [h1, h2, h4, h5]
      exact h.apart i j hij (by omega) (by omega)
    · obtain ⟨h1, h2, -⟩ := freeb_range s b.bDatap b'.bDatap
      rw [h1, h2]
      refine h.within b' ?_
      rcases List.mem_cons.mp hb' with rfl | hb'
      · exact List.mem_cons_self
      · exact List.mem_cons_of_mem _ (List.mem_cons_of_mem _ hb')
    · obtain ⟨-, -, -, h3⟩ := freeb_range s b.bDatap i
      have hcount := h.refs i
      rw [List.map_cons, List.map_cons, List.count_cons, List.count_cons] at hcount
      rw [h3, List.map_cons, List.count_cons]
      by_cases hi : i = b.bDatap
      · subst hi
        simp only [beq_self_eq_true, if_true] at hcount ⊢
        omega
      · have hne : (b.bDatap == i) = false := beq_false_of_ne (Ne.symm hi)
        rw [hne] at hcount
        rw [if_neg hi]
        simpa using hcount
  · have hview : (freeb s b.bDatap).view (mp :: rest) = s.view (mp :: rest) :=
      List.map_congr_left fun b' _ => Prod.ext (freeb_type s _ b') rfl
    have hbytes : s.bytes b = [] := by
      rw [Blocks.bytes, hb]
      rfl
    rw [hview, view_cons, view_cons, view_cons, ht, runs_merge, hbytes, List.append_nil]

theorem follow_congr (hs : ∀ b ∈ cont, s'.type b = s.type b) :
    follow s' t cont = follow s t cont := by
  induction cont with
  | nil => rfl
  | cons b rest ih =>
    rw [follow, follow, hs b List.mem_cons_self, ih fun b' hb => hs b' (List.mem_cons_of_mem _ hb)]

/-- The bytes that are missing are there. -/
theorem pull_run (dst : Nat) (hlen : len - i1 ≤ follow s (s.type mp) cont) :
    ∃ s' cont', pull mp cont dst len i1 s =
        some (true, s', { mp with bWptr := dst + i1 + (len - i1).toNat } :: cont') ∧
      ∀ i, (s'.db i).dbLim = (s.db i).dbLim := by
  induction cont generalizing dst len i1 s with
  | nil =>
    have h0 : len - i1 ≤ 0 := hlen
    rw [pull.eq_def]
    dsimp only
    rw [if_pos h0, Int.toNat_of_nonpos h0]
    exact ⟨_, _, rfl, fun _ => rfl⟩
  | cons b rest ih =>
    rw [pull.eq_def]
    dsimp only
    by_cases h0 : len - i1 ≤ 0
    · rw [if_pos h0, Int.toNat_of_nonpos h0]
      exact ⟨_, _, rfl, fun _ => rfl⟩
    · have ht : s.type b = s.type mp := by
        by_contra hne
        rw [follow, if_pos hne] at hlen
        exact h0 hlen
      rw [follow, if_neg (not_not.mpr ht)] at hlen
      rw [if_neg h0]
      by_cases hb : (b.len : Int) ≤ len - i1
      · rw [if_pos hb]
        have hfollow : follow (freeb (bcopy s b.bRptr (dst + i1) b.len) b.bDatap)
            ((freeb (bcopy s b.bRptr (dst + i1) b.len) b.bDatap).type mp) rest =
            follow s (s.type mp) rest := by
          rw [freeb_type]
          exact follow_congr fun b' _ => freeb_type _ _ b'
        have hrest : len - i1 - b.len ≤ follow (freeb (bcopy s b.bRptr (dst + i1) b.len) b.bDatap)
            ((freeb (bcopy s b.bRptr (dst + i1) b.len) b.bDatap).type mp) rest := by
          rw [hfollow]
          omega
        obtain ⟨s', cont', hrun, hlim⟩ := ih (dst + i1) hrest
        refine ⟨s', cont', ?_, fun i => (hlim i).trans (freeb_range _ _ i).2.1⟩
        have hw : dst + i1 + b.len + (len - i1 - b.len).toNat = dst + i1 + (len - i1).toNat := by
          omega
        rw [hrun, hw]
      · rw [if_neg hb]
        exact ⟨_, _, rfl, fun _ => rfl⟩


/-- What the first block may have become: bytes are written in its data block only, which is its
own. -/
structure Grown (s : Blocks β) (msg : List Mblk) (s' : Blocks β) (mp' : Mblk) (cont' : List Mblk) :
    Prop where
  valid : Valid s' (mp' :: cont')
  runs : runs (s'.view (mp' :: cont')) = runs (s.view msg)
  written : ∀ a, s'.mem a ≠ s.mem a →
    (s'.db mp'.bDatap).dbBase ≤ a ∧ a < (s'.db mp'.bDatap).dbLim
  own : (s'.db mp'.bDatap).dbRef = 1

theorem freeb_own (s : Blocks β) {datap i : Nat} (h : i ≠ datap) :
    (freeb s datap).db i = s.db i := Function.update_of_ne h ..

theorem pull_spec (dst : Nat) (h : Valid s ({ mp with bWptr := dst + i1 } :: cont))
    (href : (s.db mp.bDatap).dbRef = 1) (hlen : len - i1 ≤ follow s (s.type mp) cont)
    (hroom : dst + i1 + (len - i1) ≤ (s.db mp.bDatap).dbLim) :
    ∃ s' cont', pull mp cont dst len i1 s =
        some (true, s', { mp with bWptr := dst + i1 + (len - i1).toNat } :: cont') ∧
      Grown s ({ mp with bWptr := dst + i1 } :: cont) s'
        { mp with bWptr := dst + i1 + (len - i1).toNat } cont' ∧
      s'.db mp.bDatap = s.db mp.bDatap := by
  induction cont generalizing dst len i1 s with
  | nil =>
    have h0 : len - i1 ≤ 0 := hlen
    rw [pull.eq_def]
    dsimp only
    rw [if_pos h0, Int.toNat_of_nonpos h0]
    exact ⟨_, _, rfl, ⟨h, rfl, fun _ ha => absurd rfl ha, href⟩, rfl⟩
  | cons b rest ih =>
    rw [pull.eq_def]
    dsimp only
    by_cases h0 : len - i1 ≤ 0
    · rw [if_pos h0, Int.toNat_of_nonpos h0]
      exact ⟨_, _, rfl, ⟨h, rfl, fun _ ha => absurd rfl ha, href⟩, rfl⟩
    have ht : s.type b = s.type mp := by
      by_contra hne
      rw [follow, if_pos hne] at hlen
      exact h0 hlen
    rw [follow, if_neg (not_not.mpr ht)] at hlen
    rw [if_neg h0]
    have hne : b.bDatap ≠ mp.bDatap := h.datap_ne href List.mem_cons_self
    have hbase : (s.db mp.bDatap).dbBase ≤ dst + i1 := by
      obtain ⟨h1, h2, -⟩ := h.within _ List.mem_cons_self
      exact h1.trans h2
    by_cases hb : (b.len : Int) ≤ len - i1
    · rw [if_pos hb]
      obtain ⟨h₁, hruns₁⟩ := h.take href le_rfl (by omega) ht
      have hempty : Mblk.len { b with bRptr := b.bRptr + b.len } = 0 := by
        simp only [Mblk.len]
        omega
      obtain ⟨h₂, hruns₂⟩ := h₁.drop hempty ht
      set s₂ := freeb (bcopy s b.bRptr (dst + i1) b.len) b.bDatap with hs₂
      have hown : s₂.db mp.bDatap = s.db mp.bDatap := freeb_own _ hne.symm
      have hfollow : follow s₂ (s₂.type mp) rest = follow s (s.type mp) rest := by
        rw [hs₂, freeb_type]
        exact follow_congr fun b' _ => freeb_type _ _ b'
      have hrest : len - i1 - b.len ≤ follow s₂ (s₂.type mp) rest := by
        rw [hfollow]
        omega
      obtain ⟨s', cont', hrun, hgrown, hdb⟩ := ih (dst + i1) h₂ (hown ▸ href) hrest (by
        rw [hown]
        omega)
      have hw : dst + i1 + b.len + (len - i1 - b.len).toNat = dst + i1 + (len - i1).toNat := by
        omega
      rw [hw] at hrun hgrown
      refine ⟨s', cont', hrun, ⟨hgrown.valid, ?_, fun a ha => ?_, hgrown.own⟩, hdb.trans hown⟩
      · rw [hgrown.runs, hruns₂, hruns₁]
      · by_cases ha₂ : s'.mem a = s₂.mem a
        · rw [ha₂] at ha
          have hin := move_ne ha
          change (s'.db mp.bDatap).dbBase ≤ a ∧ a < (s'.db mp.bDatap).dbLim
          rw [hdb, hown]
          omega
        · exact hgrown.written a ha₂
    · rw [if_neg hb]
      obtain ⟨h₁, hruns₁⟩ := h.take href (show (len - i1).toNat ≤ b.len by omega) (by omega) ht
      refine ⟨_, _, rfl, ⟨h₁, hruns₁, fun a ha => ?_, href⟩, rfl⟩
      have hin := move_ne ha
      change (s.db mp.bDatap).dbBase ≤ a ∧ a < (s.db mp.bDatap).dbLim
      omega


theorem reaches_iff (s : Blocks β) (t : Nat) (cont : List Mblk) {i : Int} (h : i < len) :
    reaches s t len i cont = true ↔ len ≤ i + follow s t cont := by
  induction cont generalizing i with
  | nil =>
    rw [reaches, follow]
    exact iff_of_false nofun (by omega)
  | cons b rest ih =>
    rw [reaches, follow]
    by_cases ht : s.type b ≠ t
    · rw [if_pos ht, if_pos ht]
      exact iff_of_false nofun (by omega)
    · rw [if_neg ht, if_neg ht]
      by_cases hb : i + b.len < len
      · rw [if_pos hb, ih hb]
        omega
      · rw [if_neg hb]
        exact iff_of_true rfl (by omega)

theorem alignment_align (p : Nat) : alignment (align p) = 0 := by
  unfold align alignment
  omega

theorem le_align (p : Nat) : p ≤ align p := by
  unfold align alignment
  omega

/-- The bytes of the first block are moved towards the start of its data block. -/
theorem Valid.slide (h : Valid s (mp :: cont)) (href : (s.db mp.bDatap).dbRef = 1)
    (hdst : (s.db mp.bDatap).dbBase ≤ dst) (hle : dst ≤ mp.bRptr) :
    Grown s (mp :: cont) (bcopy s mp.bRptr dst mp.len)
      { mp with bRptr := dst, bWptr := dst + mp.len } cont := by
  obtain ⟨hbase, hrw, hlim⟩ := h.within mp List.mem_cons_self
  have hlen : mp.bRptr + mp.len = mp.bWptr := by
    rw [Mblk.len]
    omega
  have hm : ∀ a, move s.mem mp.bRptr dst mp.len a ≠ s.mem a →
      (s.db mp.bDatap).dbBase ≤ a ∧ a < (s.db mp.bDatap).dbLim := by
    intro a ha
    have := move_ne ha
    omega
  refine ⟨⟨h.apart, fun b hb => ?_, h.refs⟩, ?_, hm, href⟩
  · rcases List.mem_cons.mp hb with rfl | hb
    · exact ⟨hdst, Nat.le_add_right _ _, show dst + mp.len ≤ (s.db mp.bDatap).dbLim by omega⟩
    · exact h.within b (List.mem_cons_of_mem _ hb)
  · have hrest : (bcopy s mp.bRptr dst mp.len).view cont = s.view cont :=
      List.map_congr_left fun b hb => Prod.ext rfl (h.bytes_write href hm hb)
    have hfirst : (bcopy s mp.bRptr dst mp.len).bytes
        { mp with bRptr := dst, bWptr := dst + mp.len } = s.bytes mp := by
      change window (move s.mem mp.bRptr dst mp.len) dst (dst + mp.len - dst) = _
      rw [Nat.add_sub_cancel_left, window_move]
      rfl
    rw [view_cons, view_cons, hrest, hfirst]
    rfl

/-! ## New data blocks -/

/-- What `allocb` relies on: sizes are rounded up, and the memory is not in use. -/
structure Memory (c : Sizes) (s : Blocks β) (got : Nat → Option (Nat × Nat)) : Prop where
  large : ∀ size, size ≤ c.quantum size
  free : ∀ size, ∀ g ∈ got size, (s.db g.1).dbRef = 0 ∧ alignment g.2 = 0 ∧
    ∀ i, 0 < (s.db i).dbRef → g.2 + size ≤ (s.db i).dbBase ∨ (s.db i).dbLim ≤ g.2

/-- A data block that may be added. -/
structure Fresh (s : Blocks β) (datap : Nat) (d : Datab) : Prop where
  free : (s.db datap).dbRef = 0
  own : d.dbRef = 1
  aligned : alignment d.dbBase = 0
  apart : ∀ i, 0 < (s.db i).dbRef → d.dbLim ≤ (s.db i).dbBase ∨ (s.db i).dbLim ≤ d.dbBase

theorem Sizes.le_rounded {c : Sizes} (h : ∀ size, size ≤ c.quantum size) (size : Nat) :
    size ≤ c.rounded size := by
  unfold Sizes.rounded
  have := h size
  split_ifs <;> omega

theorem allocb_spec {c : Sizes} {got : Nat → Option (Nat × Nat)} {size : Int} {datap : Nat}
    {d : Datab} (h : Memory c s got) (ha : allocb c got size = some (datap, d)) :
    Fresh s datap d ∧ d.dbBase + size ≤ d.dbLim := by
  unfold allocb at ha
  by_cases hs : size < 0 ∨ 0 < c.strmsgsz ∧ (c.strmsgsz : Int) < size
  · rw [if_pos hs] at ha
    exact nomatch ha
  · rw [if_neg hs] at ha
    obtain ⟨g, hg, he⟩ := Option.map_eq_some_iff.mp ha
    obtain ⟨hfree, hal, hap⟩ := h.free _ g hg
    obtain ⟨rfl, rfl⟩ := Prod.mk.inj he
    have hle := c.le_rounded h.large size.toNat
    refine ⟨⟨hfree, rfl, hal, hap⟩, ?_⟩
    change (g.2 : Int) + size ≤ (g.2 + c.rounded size.toNat : Nat)
    omega

/-- The first block gets a new data block of its type. -/
def renew (s : Blocks β) (mp : Mblk) (datap : Nat) (d : Datab) : Blocks β :=
  freeb (bcopy (s.add datap d (s.type mp)) mp.bRptr d.dbBase mp.len) mp.bDatap

theorem Valid.renew {datap : Nat} {d : Datab} (h : Valid s (mp :: cont)) (hd : Fresh s datap d)
    (hroom : d.dbBase + mp.len ≤ d.dbLim) :
    Grown s (mp :: cont) (renew s mp datap d)
      { bRptr := d.dbBase, bWptr := d.dbBase + mp.len, bDatap := datap } cont ∧
    (Pse.renew s mp datap d).db datap = { d with dbType := s.type mp } ∧
    ∀ b ∈ cont, (Pse.renew s mp datap d).type b = s.type b := by
  have hne : ∀ b ∈ mp :: cont, b.bDatap ≠ datap := by
    rintro b hb rfl
    exact absurd (h.used hb) (by rw [hd.free]; exact lt_irrefl 0)
  have hmp := hne mp List.mem_cons_self
  have hnew : (Pse.renew s mp datap d).db datap = { d with dbType := s.type mp } :=
    (freeb_own _ hmp.symm).trans (Function.update_self ..)
  have hrange : ∀ i, i ≠ datap → ((Pse.renew s mp datap d).db i).dbBase = (s.db i).dbBase ∧
      ((Pse.renew s mp datap d).db i).dbLim = (s.db i).dbLim ∧
      ((Pse.renew s mp datap d).db i).dbType = (s.db i).dbType ∧
      ((Pse.renew s mp datap d).db i).dbRef =
        (s.db i).dbRef - if i = mp.bDatap then 1 else 0 := by
    intro i hi
    have hf := freeb_range (bcopy (s.add datap d (s.type mp)) mp.bRptr d.dbBase mp.len) mp.bDatap i
    have hdb : (bcopy (s.add datap d (s.type mp)) mp.bRptr d.dbBase mp.len).db i = s.db i :=
      Function.update_of_ne hi ..
    rw [hdb] at hf
    exact hf
  have hm : ∀ a, (Pse.renew s mp datap d).mem a ≠ s.mem a → d.dbBase ≤ a ∧ a < d.dbLim := by
    intro a ha
    have := move_ne ha
    omega
  have hbytes : ∀ b ∈ cont, (Pse.renew s mp datap d).bytes b = s.bytes b := by
    intro b hb
    refine window_congr fun i hi => ?_
    by_contra hdiff
    have hin := hm _ hdiff
    have hwithin := h.within b (List.mem_cons_of_mem _ hb)
    have happart := hd.apart b.bDatap (h.used (List.mem_cons_of_mem _ hb))
    rw [Mblk.len] at hi
    omega
  have htypes : ∀ b ∈ cont, (Pse.renew s mp datap d).type b = s.type b := fun b hb =>
    (hrange _ (hne b (List.mem_cons_of_mem _ hb))).2.2.1
  refine ⟨⟨⟨fun i j hij hi hj => ?_, fun b hb => ?_, fun i => ?_⟩, ?_, fun a ha => ?_, ?_⟩, hnew,
    htypes⟩
  · by_cases hin : i = datap
    · subst hin
      have hjn : j ≠ i := hij.symm
      obtain ⟨h1, h2, -, h4⟩ := hrange j hjn
      rw [hnew, h1, h2]
      exact hd.apart j (by omega)
    · obtain ⟨h1, h2, -, h4⟩ := hrange i hin
      by_cases hjn : j = datap
      · subst hjn
        rw [hnew, h1, h2]
        exact (hd.apart i (by omega)).symm
      · obtain ⟨h5, h6, -, h8⟩ := hrange j hjn
        rw [h1, h2, h5, h6]
        exact h.apart i j hij (by omega) (by omega)
  · rcases List.mem_cons.mp hb with rfl | hb
    · change ((Pse.renew s mp datap d).db datap).dbBase ≤ d.dbBase ∧ d.dbBase ≤ d.dbBase + mp.len ∧
        d.dbBase + mp.len ≤ ((Pse.renew s mp datap d).db datap).dbLim
      rw [hnew]
      exact ⟨le_rfl, Nat.le_add_right _ _, hroom⟩
    · obtain ⟨h1, h2, -⟩ := hrange _ (hne b (List.mem_cons_of_mem _ hb))
      rw [h1, h2]
      exact h.within b (List.mem_cons_of_mem _ hb)
  · have hcount := h.refs i
    rw [List.map_cons, List.count_cons] at hcount ⊢
    by_cases hin : i = datap
    · subst hin
      have h0 : (cont.map Mblk.bDatap).count i = 0 := by
        have := hd.free
        omega
      rw [h0, hnew, hd.own]
      simp
    · obtain ⟨-, -, -, h4⟩ := hrange i hin
      rw [h4, beq_false_of_ne (Ne.symm hin)]
      by_cases him : i = mp.bDatap
      · subst him
        simp only [beq_self_eq_true, if_true] at hcount ⊢
        simp only [Bool.false_eq_true, if_false]
        omega
      · rw [beq_false_of_ne (Ne.symm him)] at hcount
        rw [if_neg him]
        simpa using hcount
  · have hrest : (Pse.renew s mp datap d).view cont = s.view cont :=
      List.map_congr_left fun b hb => Prod.ext (htypes b hb) (hbytes b hb)
    have hfirst : (Pse.renew s mp datap d).bytes
        { bRptr := d.dbBase, bWptr := d.dbBase + mp.len, bDatap := datap } = s.bytes mp := by
      change window (move s.mem mp.bRptr d.dbBase mp.len) d.dbBase
        (d.dbBase + mp.len - d.dbBase) = _
      rw [Nat.add_sub_cancel_left, window_move]
      rfl
    have htype : (Pse.renew s mp datap d).type
        { bRptr := d.dbBase, bWptr := d.dbBase + mp.len, bDatap := datap } = s.type mp := by
      change ((Pse.renew s mp datap d).db datap).dbType = _
      rw [hnew]
    rw [view_cons, view_cons, hrest, hfirst, htype]
  · change ((Pse.renew s mp datap d).db datap).dbBase ≤ a ∧
      a < ((Pse.renew s mp datap d).db datap).dbLim
    rw [hnew]
    exact hm a ha
  · change ((Pse.renew s mp datap d).db datap).dbRef = 1
    rw [hnew]
    exact hd.own


/-! ## `pullupmsg` keeps the bytes -/

/-- There is room for the bytes behind the first aligned address of the data block, but not behind
the read pointer, which is aligned and so stays where it is. -/
def Overruns (s : Blocks β) (len : Int) (mp : Mblk) (cont : List Mblk) : Prop :=
  pullLen s len mp cont ≤ mp.len + follow s (s.type mp) cont ∧
    inPlace s (pullLen s len mp cont) mp ∧ alignment mp.bRptr = 0 ∧
    (s.db mp.bDatap).dbLim < mp.bRptr + pullLen s len mp cont

/-- What a call is to do. -/
structure Pulled (s : Blocks β) (len : Int) (mp : Mblk) (cont : List Mblk) (r : Bool)
    (s' : Blocks β) (msg' : List Mblk) : Prop where
  failed : r = false → s' = s ∧ msg' = mp :: cont
  done : r = true → ∃ mp' cont', msg' = mp' :: cont' ∧ Grown s (mp :: cont) s' mp' cont' ∧
    (mp'.len : Int) = max (pullLen s len mp cont) mp.len ∧ alignment mp'.bRptr = 0 ∧
    (s.db mp'.bDatap).dbRef ≤ 1

theorem Grown.trans {s₁ : Blocks β} {mp₁ mp' : Mblk} {cont₁ cont' : List Mblk}
    (h : Grown s msg s₁ mp₁ cont₁) (h' : Grown s₁ (mp₁ :: cont₁) s' mp' cont')
    (hd : mp'.bDatap = mp₁.bDatap) (hdb : s'.db mp₁.bDatap = s₁.db mp₁.bDatap) :
    Grown s msg s' mp' cont' := by
  refine ⟨h'.valid, h'.runs.trans h.runs, fun a ha => ?_, h'.own⟩
  by_cases ha₁ : s'.mem a = s₁.mem a
  · rw [ha₁] at ha
    rw [hd, hdb]
    exact h.written a ha
  · exact h'.written a ha₁

/-- The bytes are collected in a first block that has been made ready. -/
theorem pulled_of_grown (mp₁ : Mblk) (len : Int) {s₁ : Blocks β}
    (hg : Grown s (mp :: cont) s₁ { mp₁ with bWptr := dst + mp.len } cont) (hdst : mp₁.bRptr = dst)
    (hal : alignment dst = 0) (href : (s.db mp₁.bDatap).dbRef ≤ 1)
    (hfollow : len - mp.len ≤ follow s₁ (s₁.type mp₁) cont)
    (hroom : dst + len ≤ (s₁.db mp₁.bDatap).dbLim) :
    ∃ s' msg', pull mp₁ cont dst len mp.len s₁ = some (true, s', msg') ∧
      ∃ mp' cont', msg' = mp' :: cont' ∧ Grown s (mp :: cont) s' mp' cont' ∧
        (mp'.len : Int) = max len mp.len ∧ alignment mp'.bRptr = 0 ∧
        (s.db mp'.bDatap).dbRef ≤ 1 := by
  obtain ⟨s', cont', hrun, hgrown, hdb⟩ := pull_spec dst hg.valid hg.own hfollow (by omega)
  refine ⟨s', _, hrun, _, cont', rfl, hg.trans hgrown rfl hdb, ?_, ?_, href⟩
  · simp only [Mblk.len, hdst]
    omega
  · simp only [hdst]
    exact hal

theorem pullupmsg_pulled_iff {c : Sizes} {got : Nat → Option (Nat × Nat)}
    (h : Valid s (mp :: cont)) (hm : Memory c s got) :
    (∃ r s' msg', pullupmsg c got len s (mp :: cont) = some (r, s', msg') ∧
      Pulled s len mp cont r s' msg') ↔ ¬Overruns s len mp cont := by
  obtain ⟨hbase, hrw, hlim⟩ := h.within mp List.mem_cons_self
  have hlen : mp.bRptr + mp.len = mp.bWptr := by
    rw [Mblk.len]
    omega
  have hwhole : ({ mp with bWptr := mp.bRptr + mp.len } : Mblk) = mp := by rw [hlen]
  unfold pullupmsg
  dsimp only
  by_cases hscan : 0 ≤ len ∧ (mp.len : Int) < len ∧
      reaches s (s.db mp.bDatap).dbType len mp.len cont = false
  · rw [if_pos hscan]
    refine iff_of_true ⟨false, s, mp :: cont, rfl, fun _ => ⟨rfl, rfl⟩, nofun⟩ fun ho => ?_
    have hreach := (reaches_iff s (s.type mp) cont hscan.2.1).mpr (by
      have := ho.1
      rwa [pullLen, if_pos hscan.1] at this)
    rw [show s.type mp = (s.db mp.bDatap).dbType from rfl, hscan.2.2] at hreach
    exact nomatch hreach
  rw [if_neg hscan]
  have hfollow : pullLen s len mp cont - mp.len ≤ follow s (s.type mp) cont := by
    rw [pullLen]
    by_cases h0 : 0 ≤ len
    · rw [if_pos h0]
      by_cases hlt : (mp.len : Int) < len
      · have hreach := (reaches_iff s (s.type mp) cont hlt).mp (by
          by_contra hr
          exact hscan ⟨h0, hlt, Bool.of_not_eq_true hr⟩)
        omega
      · omega
    · rw [if_neg h0]
      omega
  by_cases hin : inPlace s (pullLen s len mp cont) mp
  · rw [if_pos hin]
    obtain ⟨href, hal, hroom⟩ := hin
    by_cases hr : alignment mp.bRptr ≠ 0
    · rw [if_pos hr]
      have hg := h.slide href (le_align _) hal
      have hsame : follow (bcopy s mp.bRptr (align (s.db mp.bDatap).dbBase) mp.len) (s.type mp)
          cont = follow s (s.type mp) cont := follow_congr fun _ _ => rfl
      obtain ⟨s', msg', hrun, hdone⟩ := pulled_of_grown { mp with bRptr := _ }
        (pullLen s len mp cont) hg rfl
        (alignment_align _) href.le (hsame ▸ hfollow) (by
          change _ ≤ ((s.db mp.bDatap).dbLim : Int)
          omega)
      exact iff_of_true ⟨true, s', msg', hrun, nofun, fun _ => hdone⟩ fun ho => hr ho.2.2.1
    · rw [if_neg hr]
      have hr := not_not.mp hr
      by_cases hover : (s.db mp.bDatap).dbLim < mp.bRptr + pullLen s len mp cont
      · obtain ⟨s', cont', hrun, hlims⟩ := pull_run mp.bRptr hfollow
        refine iff_of_false ?_ (not_not.mpr ⟨by omega, ⟨href, hal, hroom⟩, hr, hover⟩)
        rintro ⟨r, s'', msg'', hrun', hp⟩
        rw [hrun] at hrun'
        obtain ⟨rfl, he⟩ := Prod.mk.inj (Option.some.inj hrun')
        obtain ⟨rfl, rfl⟩ := Prod.mk.inj he
        obtain ⟨mp', cont'', hmsg, hgrown, -⟩ := hp.done rfl
        obtain ⟨rfl, rfl⟩ := List.cons.inj hmsg
        have hw := (hgrown.valid.within _ List.mem_cons_self).2.2
        rw [hlims] at hw
        dsimp only at hw
        omega
      · have hg : Grown s (mp :: cont) s { mp with bWptr := mp.bRptr + mp.len } cont := by
          rw [hwhole]
          exact ⟨h, rfl, fun _ ha => absurd rfl ha, href⟩
        obtain ⟨s', msg', hrun, hdone⟩ := pulled_of_grown mp _ hg rfl hr href.le hfollow
          (not_lt.mp hover)
        exact iff_of_true ⟨true, s', msg', hrun, nofun, fun _ => hdone⟩ fun ho => hover ho.2.2.2
  · rw [if_neg hin]
    refine iff_of_true ?_ fun ho => hin ho.2.1
    cases ha : allocb c got (max (mp.len : Int) (pullLen s len mp cont)) with
    | none =>
      exact ⟨false, s, mp :: cont, rfl, fun _ => ⟨rfl, rfl⟩, nofun⟩
    | some p =>
      obtain ⟨datap, d⟩ := p
      obtain ⟨hfresh, hroom⟩ := allocb_spec hm ha
      obtain ⟨hg, hnew, htypes⟩ := h.renew hfresh (by omega)
      have htype : (renew s mp datap d).type { mp with bRptr := d.dbBase, bDatap := datap } =
          s.type mp := by
        change ((renew s mp datap d).db datap).dbType = _
        rw [hnew]
      obtain ⟨s', msg', hrun, hdone⟩ := pulled_of_grown
        { mp with bRptr := d.dbBase, bDatap := datap } (pullLen s len mp cont) hg rfl
        hfresh.aligned (hfresh.free.le.trans zero_le_one) (by
          rw [htype, follow_congr htypes]
          exact hfollow) (by
          rw [hnew]
          change _ ≤ (d.dbLim : Int)
          omega)
      exact ⟨true, s', msg', hrun, nofun, fun _ => hdone⟩


/-! ## `adjmsg` removes bytes from one end -/

variable {run run' before msg' : List Mblk} {l h : Nat} {b' : Mblk}

def Blocks.flat (s : Blocks β) (msg : List Mblk) : List β := msg.flatMap s.bytes

/-- A block has lost bytes at its ends. -/
def Shrunk (b b' : Mblk) : Prop :=
  b'.bDatap = b.bDatap ∧ b.bRptr ≤ b'.bRptr ∧ b'.bRptr ≤ b'.bWptr ∧ b'.bWptr ≤ b.bWptr

def Ordered (msg : List Mblk) : Prop := ∀ b ∈ msg, b.bRptr ≤ b.bWptr

theorem Ordered.shrunk (h : Ordered msg) : List.Forall₂ Shrunk msg msg := by
  induction msg with
  | nil => exact .nil
  | cons b msg ih =>
    exact .cons ⟨rfl, le_rfl, h b List.mem_cons_self, le_rfl⟩
      (ih fun b' hb' => h b' (List.mem_cons_of_mem _ hb'))

theorem shrunk_mem (hs : List.Forall₂ Shrunk msg msg') (hb : b' ∈ msg') :
    ∃ b ∈ msg, Shrunk b b' := by
  induction hs with
  | nil => exact absurd hb List.not_mem_nil
  | cons h _ ih =>
    rcases List.mem_cons.mp hb with rfl | hb
    · exact ⟨_, List.mem_cons_self, h⟩
    · obtain ⟨b, hb, hs⟩ := ih hb
      exact ⟨b, List.mem_cons_of_mem _ hb, hs⟩

theorem shrunk_datap (hs : List.Forall₂ Shrunk msg msg') :
    msg'.map Mblk.bDatap = msg.map Mblk.bDatap := by
  induction hs with
  | nil => rfl
  | cons h _ ih => rw [List.map_cons, List.map_cons, ih, h.1]

theorem Valid.shrink (h : Valid s msg) (hs : List.Forall₂ Shrunk msg msg') : Valid s msg' := by
  refine ⟨h.apart, fun b' hb' => ?_, fun i => ?_⟩
  · obtain ⟨b, hb, hd, h1, h2, h3⟩ := shrunk_mem hs hb'
    obtain ⟨h4, h5, h6⟩ := h.within b hb
    rw [hd]
    omega
  · rw [shrunk_datap hs]
    exact h.refs i

theorem window_drop (m : Nat → β) (a n k : Nat) (h : k ≤ n) :
    window m (a + k) (n - k) = (window m a n).drop k := by
  obtain ⟨j, rfl⟩ := Nat.exists_eq_add_of_le h
  rw [window_add, Nat.add_sub_cancel_left, List.drop_left' (length_window m a k)]

theorem window_take (m : Nat → β) (a n k : Nat) (h : k ≤ n) :
    window m a k = (window m a n).take k := by
  obtain ⟨j, rfl⟩ := Nat.exists_eq_add_of_le h
  rw [window_add, List.take_left' (length_window m a k)]

theorem bytes_drop (s : Blocks β) {b : Mblk} {k : Nat} (hk : k ≤ b.len) :
    s.bytes { b with bRptr := b.bRptr + k } = (s.bytes b).drop k := by
  rw [Blocks.bytes, Blocks.bytes, ← window_drop _ _ _ _ hk]
  congr 1
  simp only [Mblk.len]
  omega

theorem bytes_take (s : Blocks β) {b : Mblk} {k : Nat} (hk : k ≤ b.len) :
    s.bytes { b with bWptr := b.bRptr + k } = (s.bytes b).take k := by
  rw [Blocks.bytes, Blocks.bytes, ← window_take _ _ _ _ hk]
  congr 1
  simp only [Mblk.len]
  omega

theorem bytes_empty (s : Blocks β) (h : b.bWptr ≤ b.bRptr) : s.bytes b = [] := by
  have hlen : b.len = 0 := Nat.sub_eq_zero_of_le h
  rw [Blocks.bytes, hlen]
  rfl

@[simp] theorem length_bytes (s : Blocks β) (b : Mblk) : (s.bytes b).length = b.len :=
  length_window ..

theorem flat_cons (s : Blocks β) (b : Mblk) (msg : List Mblk) :
    s.flat (b :: msg) = s.bytes b ++ s.flat msg := rfl

/-- The blocks `run` are those of one type with which a message begins. -/
structure FirstRun (s : Blocks β) (t : Nat) (run rest : List Mblk) : Prop where
  same : ∀ b ∈ run, s.type b = t
  stop : ∀ b ∈ rest.head?, s.type b ≠ t

theorem FirstRun.cons (h : FirstRun s t run rest) (hb : s.type b = t) :
    FirstRun s t (b :: run) rest := by
  refine ⟨fun b' hb' => ?_, h.stop⟩
  rcases List.mem_cons.mp hb' with rfl | hb'
  · exact hb
  · exact h.same b' hb'

theorem exists_firstRun (s : Blocks β) (t : Nat) (msg : List Mblk) :
    ∃ run rest, msg = run ++ rest ∧ FirstRun s t run rest := by
  induction msg with
  | nil => exact ⟨[], [], rfl, nofun, nofun⟩
  | cons b msg ih =>
    by_cases hb : s.type b = t
    · obtain ⟨run, rest, rfl, h⟩ := ih
      exact ⟨b :: run, rest, rfl, h.cons hb⟩
    · refine ⟨[], b :: msg, rfl, nofun, ?_⟩
      rintro _ ⟨⟩
      exact hb

/-- The bytes that are to go are counted block by block. -/
theorem trim_spec (ho : Ordered cont) (hlt : h < l) : ∃ run rest, cont = run ++ rest ∧
    FirstRun s t run rest ∧ (h + (s.flat run).length < l ∧ trim s t l h cont = none ∨
      l ≤ h + (s.flat run).length ∧ ∃ run', trim s t l h cont = some (run' ++ rest) ∧
        List.Forall₂ Shrunk run run' ∧ s.flat run' = (s.flat run).drop (l - h)) := by
  induction cont generalizing h with
  | nil => exact ⟨[], [], rfl, ⟨nofun, nofun⟩, Or.inl ⟨hlt, rfl⟩⟩
  | cons b rest ih =>
    have hb := ho b List.mem_cons_self
    have ho' : Ordered rest := fun b' hb' => ho b' (List.mem_cons_of_mem _ hb')
    rw [trim]
    by_cases ht : s.type b ≠ t
    · rw [if_pos ht]
      refine ⟨[], b :: rest, rfl, ⟨nofun, ?_⟩, Or.inl ⟨hlt, rfl⟩⟩
      rintro _ ⟨⟩
      exact ht
    rw [if_neg ht]
    dsimp only
    by_cases hmore : h + b.len < l
    · obtain ⟨run, rest', rfl, hrun, hres⟩ := ih ho' hmore
      refine ⟨b :: run, rest', rfl, hrun.cons (not_not.mp ht), ?_⟩
      rw [if_pos (by omega), flat_cons, List.length_append, length_bytes, ← Nat.add_assoc]
      push_cast at hres
      rcases hres with ⟨hend, htrim⟩ | ⟨hend, run', htrim, hshrunk, hflat⟩
      · rw [htrim]
        exact Or.inl ⟨hend, rfl⟩
      · refine Or.inr ⟨hend, { b with bRptr := b.bWptr } :: run', by rw [htrim]; rfl,
          .cons ⟨rfl, hb, le_rfl, le_rfl⟩ hshrunk, ?_⟩
        have hle : (s.bytes b).length ≤ l - h := by
          rw [length_bytes]
          omega
        rw [flat_cons, bytes_empty s le_rfl, hflat, List.nil_append, List.drop_append,
          List.drop_eq_nil_of_le hle, List.nil_append, length_bytes, Nat.sub_sub]
    · -- the bytes that are to go end in this block
      rw [if_neg (by omega)]
      have hk : l - h ≤ b.len := by omega
      have hptr : ((b.bWptr : Int) - (h + b.len - l)).toNat = b.bRptr + (l - h) := by
        rw [Mblk.len]
        omega
      obtain ⟨run, rest', rfl, hrun⟩ := exists_firstRun s t rest
      refine ⟨b :: run, rest', rfl, hrun.cons (not_not.mp ht), Or.inr ⟨?_,
        { b with bRptr := b.bRptr + (l - h) } :: run, by rw [hptr]; rfl,
        .cons ⟨rfl, Nat.le_add_right _ _, ?_, le_rfl⟩
          (Ordered.shrunk fun b' hb' => ho' b' (List.mem_append_left _ hb')), ?_⟩⟩
      · rw [flat_cons, List.length_append, length_bytes]
        omega
      · change b.bRptr + (l - h) ≤ b.bWptr
        rw [Mblk.len] at hk
        omega
      · rw [flat_cons, flat_cons, bytes_drop s hk, List.drop_append_of_le_length]
        rwa [length_bytes]


/-- The blocks `run` are those of one type with which a message ends. -/
structure LastRun (s : Blocks β) (t : Nat) (before run : List Mblk) : Prop where
  ne : run ≠ []
  same : ∀ b ∈ run, s.type b = t
  stop : ∀ b ∈ before.getLast?, s.type b ≠ t

theorem lastRun_spec (cont : List Mblk) (hr : LastRun s t before run) :
    ∃ t' before' run', lastRun s before run t (s.flat run).length cont =
        (before', run', ((s.flat run').length : Int)) ∧
      before ++ run ++ cont = before' ++ run' ∧ LastRun s t' before' run' := by
  induction cont generalizing before run t with
  | nil => exact ⟨t, before, run, rfl, List.append_nil _, hr⟩
  | cons b rest ih =>
    rw [lastRun]
    by_cases ht : s.type b ≠ t
    · rw [if_pos ht]
      have hnew : LastRun s (s.type b) (before ++ run) [b] := by
        refine ⟨List.cons_ne_nil _ _, fun b' hb' => by rw [List.mem_singleton.mp hb'], ?_⟩
        intro b' hb'
        rw [List.getLast?_append_of_ne_nil _ hr.ne] at hb'
        rw [hr.same b' (List.mem_of_getLast? hb')]
        exact ht.symm
      have hlen : (s.flat [b]).length = b.len := by
        rw [flat_cons, List.length_append, length_bytes]
        rfl
      obtain ⟨t', before', run', hrun, happ, hlast⟩ := ih hnew
      rw [hlen] at hrun
      exact ⟨t', before', run', hrun, by rw [← happ]; simp, hlast⟩
    · rw [if_neg ht]
      have hnew : LastRun s t before (run ++ [b]) := by
        refine ⟨by simp, fun b' hb' => ?_, hr.stop⟩
        rcases List.mem_append.mp hb' with hb' | hb'
        · exact hr.same b' hb'
        · rw [List.mem_singleton.mp hb']
          exact not_not.mp ht
      have hlen : (s.flat (run ++ [b])).length = (s.flat run).length + b.len := by
        simp [Blocks.flat]
      obtain ⟨t', before', run', hrun, happ, hlast⟩ := ih hnew
      rw [hlen] at hrun
      push_cast at hrun
      exact ⟨t', before', run', hrun, by rw [← happ]; simp, hlast⟩

theorem emptied (s : Blocks β) (ho : Ordered msg) :
    List.Forall₂ Shrunk msg (msg.map fun b => { b with bWptr := b.bRptr }) ∧
      s.flat (msg.map fun b => { b with bWptr := b.bRptr }) = [] := by
  induction msg with
  | nil => exact ⟨.nil, rfl⟩
  | cons b msg ih =>
    obtain ⟨hshrunk, hflat⟩ := ih fun b' hb' => ho b' (List.mem_cons_of_mem _ hb')
    refine ⟨.cons ⟨rfl, le_rfl, le_rfl, ho b List.mem_cons_self⟩ hshrunk, ?_⟩
    rw [List.map_cons, flat_cons, hflat, bytes_empty s le_rfl]
    rfl

/-- The bytes are taken off the end. -/
theorem cut_spec (ho : Ordered run) (hl : l ≤ (s.flat run).length) :
    List.Forall₂ Shrunk run (cut l (s.flat run).length run) ∧
      s.flat (cut l (s.flat run).length run) = (s.flat run).take ((s.flat run).length - l) := by
  induction run with
  | nil => exact ⟨.nil, by simp [cut, Blocks.flat]⟩
  | cons b rest ih =>
    have hb := ho b List.mem_cons_self
    have ho' : Ordered rest := fun b' hb' => ho b' (List.mem_cons_of_mem _ hb')
    have hlen : (s.flat (b :: rest)).length = b.len + (s.flat rest).length := by
      rw [flat_cons, List.length_append, length_bytes]
    have hsub : ((s.flat (b :: rest)).length : Int) - b.len = (s.flat rest).length := by
      rw [hlen]
      omega
    rw [cut, hsub]
    by_cases hend : (s.flat rest).length ≤ l
    · rw [if_pos (by omega)]
      have hk : b.len - (l - (s.flat rest).length) ≤ b.len := Nat.sub_le _ _
      have hshort : b.shorten ((l : Int) - (s.flat rest).length) =
          { b with bWptr := b.bRptr + (b.len - (l - (s.flat rest).length)) } := by
        rw [Mblk.shorten]
        congr 1
        simp only [Mblk.len] at hlen ⊢
        omega
      obtain ⟨hshrunk, hflat⟩ := emptied s ho'
      rw [hshort]
      refine ⟨.cons ⟨rfl, le_rfl, Nat.le_add_right _ _, ?_⟩ hshrunk, ?_⟩
      · change b.bRptr + (b.len - (l - (s.flat rest).length)) ≤ b.bWptr
        rw [Mblk.len] at hk ⊢
        omega
      · have htake : (s.flat (b :: rest)).length - l = b.len - (l - (s.flat rest).length) := by
          omega
        rw [htake, flat_cons, flat_cons, hflat, List.append_nil, bytes_take s hk,
          List.take_append_of_le_length]
        rwa [length_bytes]
    · rw [if_neg (by omega)]
      obtain ⟨hshrunk, hflat⟩ := ih ho' (by omega)
      refine ⟨.cons ⟨rfl, le_rfl, hb, le_rfl⟩ hshrunk, ?_⟩
      have htake : (s.flat (b :: rest)).length - l =
          (s.bytes b).length + ((s.flat rest).length - l) := by
        rw [length_bytes]
        omega
      rw [htake, flat_cons, flat_cons, hflat, List.take_length_add_append]


/-- The bytes of the last block are enough. -/
theorem shorten_spec (run : List Mblk) (hb : b.bRptr ≤ b.bWptr) (ho : Ordered run)
    (hl : l ≤ b.len) :
    List.Forall₂ Shrunk (run ++ [b]) (run ++ [b.shorten l]) ∧
      s.flat (run ++ [b.shorten l]) =
        (s.flat (run ++ [b])).take ((s.flat (run ++ [b])).length - l) := by
  have hshort : b.shorten l = { b with bWptr := b.bRptr + (b.len - l) } := by
    rw [Mblk.shorten]
    congr 1
    simp only [Mblk.len] at hl ⊢
    omega
  have hflat : ∀ b', s.flat (run ++ [b']) = s.flat run ++ s.bytes b' := by
    intro b'
    simp [Blocks.flat]
  have htake : (s.flat run ++ s.bytes b).length - l = (s.flat run).length + (b.len - l) := by
    rw [List.length_append, length_bytes]
    omega
  constructor
  · refine List.rel_append ho.shrunk (.cons ⟨?_, ?_, ?_, ?_⟩ .nil)
    all_goals rw [hshort]
    · exact Nat.le_add_right _ _
    · change b.bRptr + (b.len - l) ≤ b.bWptr
      rw [Mblk.len]
      omega
  · rw [hflat, hflat, htake, List.take_length_add_append, hshort, bytes_take s (Nat.sub_le _ _)]

theorem neg_eq (h₁ : -2 ^ 31 < len) (h₂ : len < 0) : neg len = ((-len).toNat : Int) := by
  unfold neg
  rw [Int.bmod_eq_of_le (by omega) (by omega)]
  omega

/-- What a call is to do: the run of one type at that end is long enough and loses just the bytes
asked for, or nothing changes. -/
structure Adjusted (s : Blocks β) (len : Int) (msg : List Mblk) (r : Bool) (msg' : List Mblk) :
    Prop where
  front : 0 ≤ len → ∃ t run rest, msg = run ++ rest ∧ run ≠ [] ∧ FirstRun s t run rest ∧
    ((s.flat run).length < len ∧ r = false ∧ msg' = msg ∨
      len ≤ (s.flat run).length ∧ r = true ∧ ∃ run', msg' = run' ++ rest ∧
        List.Forall₂ Shrunk run run' ∧ s.flat run' = (s.flat run).drop len.toNat)
  back : len < 0 → ∃ t before run, msg = before ++ run ∧ LastRun s t before run ∧
    ((s.flat run).length < -len ∧ r = false ∧ msg' = msg ∨
      -len ≤ (s.flat run).length ∧ r = true ∧ ∃ run', msg' = before ++ run' ∧
        List.Forall₂ Shrunk run run' ∧
        s.flat run' = (s.flat run).take ((s.flat run).length - (-len).toNat))
  valid : Valid s msg'

theorem Valid.ordered (h : Valid s msg) : Ordered msg := fun b hb => (h.within b hb).2.1

theorem adjmsg_front (h : Valid s (mp :: cont)) (hlen : 0 ≤ len) :
    Adjusted s len (mp :: cont) (adjmsg s len mp cont).1 (adjmsg s len mp cont).2 := by
  obtain ⟨l, rfl⟩ := Int.eq_ofNat_of_zero_le hlen
  have hmp := h.ordered mp List.mem_cons_self
  have ho : Ordered cont := fun b hb => h.ordered b (List.mem_cons_of_mem _ hb)
  suffices hfront : ∃ t run rest, mp :: cont = run ++ rest ∧ run ≠ [] ∧ FirstRun s t run rest ∧
      ((s.flat run).length < l ∧ adjmsg s l mp cont = (false, mp :: cont) ∨
        l ≤ (s.flat run).length ∧ ∃ run', adjmsg s l mp cont = (true, run' ++ rest) ∧
          List.Forall₂ Shrunk run run' ∧ s.flat run' = (s.flat run).drop l) by
    obtain ⟨t, run, rest, happ, hne, hrun, ⟨hlt, hres⟩ | ⟨hle, run', hres, hshrunk, hflat⟩⟩ :=
      hfront
    · rw [hres]
      exact ⟨fun _ => ⟨t, run, rest, happ, hne, hrun, Or.inl ⟨by omega, rfl, rfl⟩⟩,
        fun hneg => absurd hneg (not_lt.mpr hlen), h⟩
    · rw [hres]
      refine ⟨fun _ => ⟨t, run, rest, happ, hne, hrun, Or.inr ⟨by omega, rfl, run', rfl, hshrunk,
        hflat⟩⟩, fun hneg => absurd hneg (not_lt.mpr hlen), h.shrink ?_⟩
      rw [happ]
      refine List.rel_append hshrunk (Ordered.shrunk fun b hb => h.ordered b ?_)
      rw [happ]
      exact List.mem_append_right _ hb
  unfold adjmsg
  rw [if_pos hlen]
  by_cases hmore : mp.len < l
  · rw [if_pos (by omega)]
    obtain ⟨run, rest, rfl, hrun, hres⟩ := trim_spec (s := s) (t := s.type mp) ho hmore
    refine ⟨s.type mp, mp :: run, rest, rfl, List.cons_ne_nil _ _, hrun.cons rfl, ?_⟩
    rw [flat_cons, List.length_append, length_bytes]
    rcases hres with ⟨hend, htrim⟩ | ⟨hend, run', htrim, hshrunk, hflat⟩
    · rw [htrim]
      exact Or.inl ⟨hend, rfl⟩
    · have hle : (s.bytes mp).length ≤ l := by
        rw [length_bytes]
        omega
      rw [htrim]
      refine Or.inr ⟨hend, { mp with bRptr := mp.bWptr } :: run', rfl,
        .cons ⟨rfl, hmp, le_rfl, le_rfl⟩ hshrunk, ?_⟩
      rw [flat_cons, bytes_empty s le_rfl, hflat, List.nil_append, List.drop_append,
        List.drop_eq_nil_of_le hle, List.nil_append, length_bytes]
  · rw [if_neg (by omega)]
    have hk : l ≤ mp.len := by omega
    have hptr : ((mp.bWptr : Int) - (mp.len - l)).toNat = mp.bRptr + l := by
      rw [Mblk.len]
      omega
    obtain ⟨run, rest, rfl, hrun⟩ := exists_firstRun s (s.type mp) cont
    refine ⟨s.type mp, mp :: run, rest, rfl, List.cons_ne_nil _ _, hrun.cons rfl, Or.inr ⟨?_,
      { mp with bRptr := mp.bRptr + l } :: run, by rw [hptr]; rfl,
      .cons ⟨rfl, Nat.le_add_right _ _, ?_, le_rfl⟩
        (Ordered.shrunk fun b hb => ho b (List.mem_append_left _ hb)), ?_⟩⟩
    · rw [flat_cons, List.length_append, length_bytes]
      omega
    · change mp.bRptr + l ≤ mp.bWptr
      rw [Mblk.len] at hk
      omega
    · rw [flat_cons, flat_cons, bytes_drop s hk, List.drop_append_of_le_length]
      rwa [length_bytes]


theorem adjmsg_back (h : Valid s (mp :: cont)) (hmin : -2 ^ 31 < len) (hlen : len < 0) :
    Adjusted s len (mp :: cont) (adjmsg s len mp cont).1 (adjmsg s len mp cont).2 := by
  obtain ⟨l, hl⟩ : ∃ l, (-len).toNat = l := ⟨_, rfl⟩
  suffices hback : ∃ t before run, mp :: cont = before ++ run ∧ LastRun s t before run ∧
      ((s.flat run).length < l ∧ adjmsg s len mp cont = (false, mp :: cont) ∨
        l ≤ (s.flat run).length ∧ ∃ run', adjmsg s len mp cont = (true, before ++ run') ∧
          List.Forall₂ Shrunk run run' ∧
          s.flat run' = (s.flat run).take ((s.flat run).length - l)) by
    obtain ⟨t, before, run, happ, hrun, ⟨hlt, hres⟩ | ⟨hle, run', hres, hshrunk, hflat⟩⟩ := hback
    · rw [hres]
      exact ⟨fun h0 => absurd hlen (not_lt.mpr h0),
        fun _ => ⟨t, before, run, happ, hrun, Or.inl ⟨by omega, rfl, rfl⟩⟩, h⟩
    · rw [hres]
      refine ⟨fun h0 => absurd hlen (not_lt.mpr h0), fun _ => ⟨t, before, run, happ, hrun,
        Or.inr ⟨by omega, rfl, run', rfl, hshrunk, hl ▸ hflat⟩⟩, h.shrink ?_⟩
      rw [happ]
      refine List.rel_append (Ordered.shrunk fun b hb => h.ordered b ?_) hshrunk
      rw [happ]
      exact List.mem_append_left _ hb
  have hfirst : LastRun s (s.type mp) [] [mp] :=
    ⟨List.cons_ne_nil _ _, fun b hb => by rw [List.mem_singleton.mp hb], nofun⟩
  have hone : (s.flat [mp]).length = mp.len := by
    rw [flat_cons, List.length_append, length_bytes]
    rfl
  unfold adjmsg
  rw [if_neg (not_le.mpr hlen), neg_eq hmin hlen, hl]
  dsimp only
  by_cases hc : cont = []
  · subst hc
    rw [if_pos rfl]
    refine ⟨s.type mp, [], [mp], rfl, hfirst, ?_⟩
    rw [hone]
    by_cases hle : l ≤ mp.len
    · obtain ⟨hshrunk, hflat⟩ := shorten_spec (s := s) [] (h.ordered mp List.mem_cons_self)
        nofun hle
      rw [if_pos (by omega)]
      change s.flat [mp.shorten l] = (s.flat [mp]).take ((s.flat [mp]).length - l) at hflat
      rw [hone] at hflat
      exact Or.inr ⟨hle, _, rfl, hshrunk, hflat⟩
    · rw [if_neg (by omega)]
      exact Or.inl ⟨by omega, rfl⟩
  · rw [if_neg hc]
    obtain ⟨t, before, run, hrun, happ, hlast⟩ := lastRun_spec cont hfirst
    rw [hone] at hrun
    rw [hrun]
    rw [List.nil_append, List.singleton_append] at happ
    dsimp only
    have ho : Ordered run := fun b hb => h.ordered b (happ ▸ List.mem_append_right _ hb)
    refine ⟨t, before, run, happ, hlast, ?_⟩
    obtain ⟨init, last, rfl⟩ : ∃ init last, run = init ++ [last] :=
      (List.eq_nil_or_concat' run).resolve_left hlast.ne
    rw [List.getLastD_concat, List.dropLast_concat]
    by_cases hle : l ≤ last.len
    · obtain ⟨hshrunk, hflat⟩ := shorten_spec (s := s) init (ho last (by simp))
        (fun b hb => ho b (List.mem_append_left _ hb)) hle
      rw [if_pos (by omega), List.append_assoc]
      refine Or.inr ⟨?_, _, rfl, hshrunk, hflat⟩
      simp only [Blocks.flat, List.flatMap_append, List.flatMap_singleton, List.length_append,
        length_bytes]
      omega
    · rw [if_neg (by omega)]
      by_cases hlt : (s.flat (init ++ [last])).length < l
      · rw [if_pos (by omega)]
        exact Or.inl ⟨hlt, rfl⟩
      · rw [if_neg (by omega)]
        obtain ⟨hshrunk, hflat⟩ := cut_spec (s := s) ho (not_lt.mp hlt)
        exact Or.inr ⟨not_lt.mp hlt, _, rfl, hshrunk, hflat⟩

theorem shrunk_sum (hs : List.Forall₂ Shrunk msg msg') :
    (msg'.map Mblk.bWptr).sum ≤ (msg.map Mblk.bWptr).sum := by
  induction hs with
  | nil => exact le_rfl
  | cons h _ ih =>
    rw [List.map_cons, List.map_cons, List.sum_cons, List.sum_cons]
    exact add_le_add h.2.2.2 ih

/-- The least number is its own negative, and the last block grows by it. -/
theorem adjmsg_least (s : Blocks β) (mp : Mblk) (cont : List Mblk) :
    (adjmsg s (-2 ^ 31) mp cont).1 = true ∧
      ((adjmsg s (-2 ^ 31) mp cont).2.map Mblk.bWptr).sum =
        ((mp :: cont).map Mblk.bWptr).sum + 2 ^ 31 := by
  have hneg : neg (-2 ^ 31) = -2 ^ 31 := by decide
  have hshort : ∀ b : Mblk, (b.shorten (-2 ^ 31)).bWptr = b.bWptr + 2 ^ 31 := by
    intro b
    simp only [Mblk.shorten]
    omega
  have hfirst : LastRun s (s.type mp) [] [mp] :=
    ⟨List.cons_ne_nil _ _, fun b hb => by rw [List.mem_singleton.mp hb], nofun⟩
  have hone : (s.flat [mp]).length = mp.len := by
    rw [flat_cons, List.length_append, length_bytes]
    rfl
  unfold adjmsg
  rw [if_neg (by decide), hneg]
  dsimp only
  by_cases hc : cont = []
  · subst hc
    rw [if_pos rfl, if_pos (by omega)]
    refine ⟨rfl, ?_⟩
    change (mp.shorten (-2 ^ 31)).bWptr + 0 = mp.bWptr + 0 + 2 ^ 31
    rw [hshort, add_zero, add_zero]
  · rw [if_neg hc]
    obtain ⟨t, before, run, hrun, happ, hlast⟩ := lastRun_spec cont hfirst
    rw [hone] at hrun
    rw [List.nil_append, List.singleton_append] at happ
    rw [hrun, happ]
    dsimp only
    obtain ⟨init, last, rfl⟩ : ∃ init last, run = init ++ [last] :=
      (List.eq_nil_or_concat' run).resolve_left hlast.ne
    rw [List.getLastD_concat, List.dropLast_concat, if_pos (by omega)]
    refine ⟨rfl, ?_⟩
    simp only [List.map_append, List.sum_append, List.map_cons, List.map_nil, List.sum_cons,
      List.sum_nil, hshort]
    omega

theorem adjmsg_adjusted_iff (h : Valid s (mp :: cont)) (hmin : -2 ^ 31 ≤ len) :
    Adjusted s len (mp :: cont) (adjmsg s len mp cont).1 (adjmsg s len mp cont).2 ↔
      len ≠ -2 ^ 31 := by
  constructor
  · rintro ha rfl
    obtain ⟨htrue, hsum⟩ := adjmsg_least s mp cont
    obtain ⟨t, before, run, happ, hrun, ⟨-, hfalse, -⟩ | ⟨-, -, run', hres, hshrunk, -⟩⟩ :=
      ha.back (by decide)
    · exact absurd (htrue.symm.trans hfalse) (by decide)
    · have hle := shrunk_sum hshrunk
      rw [hres, happ, List.map_append, List.map_append, List.sum_append, List.sum_append] at hsum
      omega
  · intro hne
    rcases lt_or_ge len 0 with hneg | hpos
    · exact adjmsg_back h (lt_of_le_of_ne hmin hne.symm) hneg
    · exact adjmsg_front h hpos

/-- When `pullupmsg` and `adjmsg` keep the bytes. -/
theorem message_surgery_iff {c : Sizes} {got : Nat → Option (Nat × Nat)}
    (h : Valid s (mp :: cont)) (hm : Memory c s got) (hmin : -2 ^ 31 ≤ len) :
    ((∃ r s' msg', pullupmsg c got len s (mp :: cont) = some (r, s', msg') ∧
      Pulled s len mp cont r s' msg') ↔ ¬Overruns s len mp cont) ∧
    (Adjusted s len (mp :: cont) (adjmsg s len mp cont).1 (adjmsg s len mp cont).2 ↔
      len ≠ -2 ^ 31) :=
  ⟨pullupmsg_pulled_iff h hm, adjmsg_adjusted_iff h hmin⟩

/-- Two blocks of 16 bytes. -/
def twoBlocks : Blocks Nat where
  mem := id
  db
    | 0 => ⟨0, 16, 0, 1⟩
    | 1 => ⟨32, 48, 0, 1⟩
    | _ => ⟨0, 0, 0, 0⟩

def someSizes : Sizes := ⟨64, 0, id⟩

theorem twoBlocks_used {i : Nat} (hi : 0 < (twoBlocks.db i).dbRef) : i = 0 ∨ i = 1 := by
  match i with
  | 0 => exact Or.inl rfl
  | 1 => exact Or.inr rfl
  | _ + 2 => exact absurd hi (lt_irrefl 0)

theorem twoBlocks_memory : Memory someSizes twoBlocks fun _ => some (2, 1000) := by
  refine ⟨fun _ => le_rfl, ?_⟩
  rintro size _ ⟨⟩
  refine ⟨rfl, by decide, fun i hi => Or.inr ?_⟩
  rcases twoBlocks_used hi with rfl | rfl <;> decide

theorem twoBlocks_valid {r w r' w' : Nat} (h : r ≤ w ∧ w ≤ 16) (h' : 32 ≤ r' ∧ r' ≤ w' ∧ w' ≤ 48) :
    Valid twoBlocks [⟨r, w, 0⟩, ⟨r', w', 1⟩] := by
  refine ⟨fun i j hij hi hj => ?_, fun b hb => ?_, fun i => ?_⟩
  · rcases twoBlocks_used hi with rfl | rfl <;> rcases twoBlocks_used hj with rfl | rfl
    · exact absurd rfl hij
    · exact Or.inl (by decide)
    · exact Or.inr (by decide)
    · exact absurd rfl hij
  · rcases List.mem_cons.mp hb with rfl | hb
    · exact ⟨Nat.zero_le _, h.1, h.2⟩
    · rw [List.mem_singleton.mp hb]
      exact h'
  · match i with
    | 0 => exact le_refl 1
    | 1 => exact le_refl 1
    | n + 2 => exact (List.count_eq_zero_of_not_mem (by simp)).le

theorem message_surgery_two : ∃ r s' msg', pullupmsg someSizes (fun _ => some (2, 1000)) 4 twoBlocks
    [⟨1, 3, 0⟩, ⟨32, 36, 1⟩] = some (r, s', msg') ∧
    Pulled twoBlocks 4 ⟨1, 3, 0⟩ [⟨32, 36, 1⟩] r s' msg' :=
  (message_surgery_iff (twoBlocks_valid (by decide) (by decide)) twoBlocks_memory
    (by decide)).1.mpr fun ho => absurd ho.2.2.1 (by decide)

/-- The bytes 16 to 19, behind the data block, are overwritten; with the least number the message
grows. -/
theorem pullupmsg_overruns :
    ((pullupmsg someSizes (fun _ => some (2, 1000)) 12 twoBlocks [⟨8, 12, 0⟩, ⟨32, 40, 1⟩]).map
      fun o => (o.1, o.2.2.map Mblk.bWptr, o.2.1.mem 16, (o.2.1.db 0).dbLim)) =
        some (true, [20], 36, 16) ∧
    (adjmsg twoBlocks (-2 ^ 31) ⟨8, 12, 0⟩ []).2.map Mblk.bWptr = [12 + 2 ^ 31] := by
  decide

end Aix413.Pse
