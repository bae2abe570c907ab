import Aix413.Dmap.BitStrings
import Aix413.Lib.MaxTree

namespace Aix413.Dmap

open Lib.MaxTree

/-! ## Allocation maps -/

/-- `ALLOCMAPV3` and `ALLOCMAPV4`. -/
inductive Version
  | v3
  | v4
deriving DecidableEq

def leafind : Nat := 21
def dbperdword : Nat := 64

/-- The bits in the work map of a page. -/
def wbitsperpage : Version → Nat
  | .v3 => 32 * 448
  | .v4 => 32 * 512

/-- `CLDEFAULT` and `CLDEFAULTV4`: no string is longer. -/
def cldefault : Version → Nat
  | .v3 => 8
  | .v4 => 32

/-- What `imappage` sets in every page. Allocation groups take whole double words and whole pages
take allocation groups. -/
structure Layout where
  version : Version
  agsize : Nat
  clsize : Nat
  pos : 0 < agsize
  dwords : 64 ∣ agsize
  pages : agsize ∣ wbitsperpage version
  cluster : 0 < clsize ∧ clsize ≤ cldefault version

structure Page where
  agcnt : Nat
  agfree : Nat → Int
  tree : Nat → Nat
  wmap : Nat → Word
  pmap : Nat → Word

/-- A map. `npages` pages of it are there. -/
structure Vmdmap where
  lay : Layout
  mapsize : Nat
  freecnt : Int
  totalags : Nat
  lastalloc : Nat
  npages : Nat
  page : Nat → Page

inductive Errno
  | enospc
  | einval
  | estale

/-- A call comes back with a fragment number or an error, or an assertion fails. -/
abbrev Ret := Option (Vmdmap × Except Errno Nat)

/-- A fragment pointer: its address, and the fragments that it is less than a full block. -/
structure Frag where
  addr : Nat
  nfrags : Nat

def Layout.dbperpage (l : Layout) : Nat := wbitsperpage l.version

/-! ## Masks -/

/-- The shift looks at six bits of its amount. -/
def slw (w : Word) (n : Int) : Word := w <<< (n % 64).toNat

/-- `ONES << (32 - nfrags)`. -/
def bitmask (nfrags : Nat) : Word := slw ones (32 - nfrags)

/-- The bits of the first word of a double word that `nfrags` fragments from `rem` on take. -/
def mask₁ (rem nfrags : Nat) : Word := if 32 ≤ rem then 0 else bitmask nfrags >>> rem

def mask₂ (rem nfrags : Nat) : Word :=
  if 32 ≤ rem then bitmask nfrags >>> (rem - 32)
  else if 32 < rem + nfrags then bitmask nfrags <<< (32 - rem)
  else 0

/-- Some of the fragments are not free. -/
def busy (map : Nat → Word) (word rem nfrags : Nat) : Bool :=
  map word &&& mask₁ rem nfrags ≠ 0 || map (word + 1) &&& mask₂ rem nfrags ≠ 0

def setBits (map : Nat → Word) (word rem nfrags : Nat) : Nat → Word :=
  let map := Function.update map word (map word ||| mask₁ rem nfrags)
  Function.update map (word + 1) (map (word + 1) ||| mask₂ rem nfrags)

/-- All of the fragments are allocated. -/
def taken (map : Nat → Word) (word rem nfrags : Nat) : Bool :=
  map word &&& mask₁ rem nfrags = mask₁ rem nfrags &&
    map (word + 1) &&& mask₂ rem nfrags = mask₂ rem nfrags

def clearBits (map : Nat → Word) (word rem nfrags : Nat) : Nat → Word :=
  let map := Function.update map word (map word &&& ~~~mask₁ rem nfrags)
  Function.update map (word + 1) (map (word + 1) &&& ~~~mask₂ rem nfrags)

/-! ## Strings of free fragments in a byte -/

/-- `(ONES << (8 - n)) & 0xff`. -/
def charMask (n : Nat) : Nat := (0xff <<< (8 - n)) &&& 0xff

/-- What `initdmaptab` puts in an entry. -/
def dmaptab (k : Nat) : Nat :=
  if k = 255 then 0
  else if k = 0 then 0xff
  else
    match [7, 6, 5, 4, 3, 2].find? fun n =>
      (List.range (8 - n + 1)).any fun j => (charMask n >>> j) &&& k = 0 with
    | some n => charMask n
    | none => 0x80

def dbfreemsk (v : Version) (n : Nat) : Nat :=
  match v with
  | .v3 => charMask n
  | .v4 => n

/-- The characters of a double word. -/
def chars (w₁ w₂ : Word) : List (BitVec 8) :=
  [w₁.extractLsb' 24 8, w₁.extractLsb' 16 8, w₁.extractLsb' 8 8, w₁.extractLsb' 0 8,
    w₂.extractLsb' 24 8, w₂.extractLsb' 16 8, w₂.extractLsb' 8 8, w₂.extractLsb' 0 8]

/-- The loop of `v_updtree` over the characters of a double word. -/
def charMax (maxc : Nat) : Nat → List (BitVec 8) → Nat
  | m, [] => m
  | m, c :: cs =>
    let m := max m (dmaptab c.toNat)
    if maxc ≤ m then maxc else charMax maxc m cs

/-- The maximum number of contiguous free bits of a double word. -/
def dwordMax (l : Layout) (w₁ w₂ : Word) : Nat :=
  match l.version with
  | .v3 => charMax (charMask l.clsize) 0 (chars w₁ w₂)
  | .v4 => vMaxstring w₁ w₂

/-- `treemax` is the largest value in a word. -/
def vUpdtree (l : Layout) (p1 : Page) (ind : Nat) : Page :=
  let word := ind / 2 * 2
  let max := dwordMax l (p1.wmap word) (p1.wmap (word + 1))
  let lp := leafind + word / 8
  let cp1 := 4 * lp + word % 8 / 2
  { p1 with tree := climb 4 p1.tree cp1 max }

namespace Vmdmap

variable (s : Vmdmap)

def setPage (p : Nat) (p1 : Page) : Vmdmap := { s with page := Function.update s.page p p1 }

/-- The summaries after fragments of a page were allocated (less than zero) or freed. -/
def account (p nag word : Nat) (n : Int) : Vmdmap :=
  let p1 := s.page p
  let p1 := { p1 with agfree := Function.update p1.agfree nag (p1.agfree nag + n) }
  { s with freecnt := s.freecnt + n }.setPage p (vUpdtree s.lay p1 word)

def setWmap (p : Nat) (wmap : Nat → Word) : Vmdmap := s.setPage p { s.page p with wmap := wmap }

/-! ## Allocation -/

/-- `cp` is the number of a character in a leafword. -/
def alloccp (p cp nfrags : Nat) : Ret :=
  if cldefault .v4 < nfrags then none
  else
    let wmap := (s.page p).wmap
    let word := (cp - 4 * leafind) * 2
    let bitpos := vFindstring (wmap word) (wmap (word + 1)) nfrags
    if dbperdword ≤ bitpos then none
    else
      let bitno := 32 * word + bitpos
      let fragno := bitno + p * s.lay.dbperpage
      if s.mapsize < fragno + nfrags then some (s, .error .enospc)
      else
        let nag := bitno / s.lay.agsize
        let rem := bitno % dbperdword
        if busy wmap word rem nfrags then none
        else
          let s := { s with lastalloc := fragno }
          let s := s.setWmap p (setBits wmap word rem nfrags)
          some (s.account p nag word (-nfrags), .ok fragno)

/-- The descent from the root word. Only there a search may fail. -/
def allocpg (p nfrags : Nat) : Ret :=
  let tree := (s.page p).tree
  let c := dbfreemsk s.lay.version nfrags
  if firstIn tree c 0 = none then some (s, .error .enospc)
  else
    match descend tree c 3 0 with
    | none => none
    | some cp => s.alloccp p cp nfrags

/-- Each page is tried, from `p` on. -/
def anyLoop (p nfrags npages : Nat) : Nat → Nat → Ret
  | 0, _ => some (s, .error .enospc)
  | n + 1, k =>
    let page := if k < npages then k else k - npages
    match s.allocpg page nfrags with
    | some (s', .ok r) => some (s', .ok r)
    | some (_, .error _) => anyLoop p nfrags npages n (k + 1)
    | none => none

def allocany (p nfrags : Nat) : Ret :=
  let npages := (s.mapsize + s.lay.dbperpage - 1) / s.lay.dbperpage
  if npages ≤ p then none
  else s.anyLoop p nfrags npages npages p

/-- A loop over characters of leafwords, from `word` on while `more` holds. -/
def leafLoop (p c : Nat) (more : Nat → Bool) : Nat → Nat → Nat × Option Nat
  | 0, word => (word, none)
  | n + 1, word =>
    if more word then
      let cp := 4 * leafind + word / 2
      if c ≤ (s.page p).tree cp then (word, some cp) else leafLoop p c more n (word + 2)
    else (word, none)

/-- The loop one level up: a character there stands for a leafword. Ends with `some none` where a
leafword does not keep its promise. -/
def upLoop (p c wnext1 : Nat) : Nat → Nat → Nat × Option (Option Nat)
  | 0, word => (word, none)
  | n + 1, word =>
    if word < wnext1 then
      let lp := leafind + word / 8
      if (s.page p).tree (lp - 1) < c then upLoop p c wnext1 n (word + 8)
      else (word, some (s.leafLoop p c (fun w => w < wnext1) wnext1 word).2)
    else (word, none)

def allocag (p nag nfrags : Nat) : Ret :=
  if s.lay.agsize = s.lay.dbperpage then s.allocpg p nfrags
  else
    let wperag := s.lay.agsize / 32
    let word := nag * wperag
    let wnext := (nag + 1) * wperag
    let c := dbfreemsk s.lay.version nfrags
    -- up to the first boundary of leafwords
    match s.leafLoop p c (fun w => w / 2 % 4 ≠ 0 && w < wnext) wperag word with
    | (_, some cp) => s.alloccp p cp nfrags
    | (word, none) =>
      let wnext1 := wnext / 8 * 8
      match s.upLoop p c wnext1 wperag word with
      | (_, some (some cp2)) => s.alloccp p cp2 nfrags
      | (_, some none) => none
      | (word, none) =>
        match s.leafLoop p c (fun w => w < wnext) wperag word with
        | (_, some cp) => s.alloccp p cp nfrags
        | (_, none) => some (s, .error .enospc)

/-- The loop of `v_nextag`: the next allocation group with `avgfree` fragments. -/
def agLoop (avgfree : Int) : Nat → Nat → Option Nat
  | 0, _ => none
  | n + 1, ag =>
    let ag := if s.totalags ≤ ag + 1 then 0 else ag + 1
    let agperpage := s.lay.dbperpage / s.lay.agsize
    let p := ag / agperpage
    let nag := ag - p * agperpage
    if avgfree ≤ (s.page p).agfree nag then some (ag * s.lay.agsize) else agLoop avgfree n ag

def vNextag (fragno : Nat) : Nat :=
  let avgfree := s.freecnt / s.totalags
  (s.agLoop avgfree s.totalags (fragno / s.lay.agsize)).getD fragno

/-- The next four double words from the hint on. -/
def nearLoop (p c wnext : Nat) : Nat → Nat → Option Nat
  | 0, _ => none
  | k + 1, word =>
    if word < wnext then
      let cp := 4 * (leafind + word / 8) + word % 8 / 2
      if c ≤ (s.page p).tree cp then some cp else nearLoop p c wnext k (word + 2)
    else none

def vAlloc (nfrags pref : Nat) : Ret :=
  if pref = 0 then s.allocany 0 nfrags
  else
    let dbperpage := s.lay.dbperpage
    let p := pref / dbperpage
    let rem := pref - p * dbperpage
    let word := rem / 32
    let nag := rem / s.lay.agsize
    let wperag := s.lay.agsize / 32
    let wnext := (nag + 1) * wperag
    let c := dbfreemsk s.lay.version nfrags
    match s.nearLoop p c wnext 4 word with
    | some cp => s.alloccp p cp nfrags
    | none =>
      match s.allocag p nag nfrags with
      | none => none
      | some (s', .ok r) => some (s', .ok r)
      | some (_, .error _) =>
        let fragno := s.vNextag pref
        let ap := fragno / dbperpage
        let rem := fragno - ap * dbperpage
        let anag := rem / s.lay.agsize
        if anag ≠ nag ∨ ap ≠ p then
          match s.allocag ap anag nfrags with
          | none => none
          | some (s', .ok r) => some (s', .ok r)
          | some (_, .error _) => s.allocany p nfrags
        else s.allocany p nfrags

/-! ## Freeing -/

/-- The fragments are assumed to be in the same double word. -/
def vBitfree (fragno nfrags : Nat) : Option Vmdmap :=
  if nfrags = 0 ∨ s.mapsize < fragno + nfrags then none
  else
    let p := fragno / s.lay.dbperpage
    let bitno := fragno - p * s.lay.dbperpage
    let word := bitno / 32 / 2 * 2
    let wmap := (s.page p).wmap
    let pmap := (s.page p).pmap
    let rem := bitno % dbperdword
    let nag := bitno / s.lay.agsize
    if 32 ≤ rem then
      -- second word only
      let wmask := bitmask nfrags >>> (rem - 32)
      if wmap (word + 1) &&& wmask ≠ wmask then none
      else if pmap (word + 1) &&& wmask ≠ 0 then some s
      else
        let wmap := Function.update wmap (word + 1) (wmap (word + 1) &&& ~~~wmask)
        some ((s.setWmap p wmap).account p nag word nfrags)
    else
      let wmask := bitmask nfrags >>> rem
      if wmap word &&& wmask ≠ wmask then none
      else if pmap word &&& wmask ≠ 0 then some s
      else
        let wmap := Function.update wmap word (wmap word &&& ~~~wmask)
        if 32 < rem + nfrags then
          let wmask := bitmask nfrags <<< (32 - rem)
          if wmap (word + 1) &&& wmask ≠ wmask then none
          else if pmap (word + 1) &&& wmask ≠ 0 then some (s.setWmap p wmap)
          else
            let wmap := Function.update wmap (word + 1) (wmap (word + 1) &&& ~~~wmask)
            some ((s.setWmap p wmap).account p nag word nfrags)
        else some ((s.setWmap p wmap).account p nag word nfrags)

/-- The loop of `v_extendag` over the bits. -/
def clearLoop : Nat → (Nat → Word) → Nat → Word → Nat → Word
  | 0, map, _, _ => map
  | nf + 1, map, word, bit =>
    let map := Function.update map word (map word &&& ~~~bit)
    let bit := bit >>> 1
    if bit = 0 then clearLoop nf map (word + 1) uzbit else clearLoop nf map word bit

/-- The loop of `v_extendag` over the double words. -/
def treeLoop (lastw : Nat) : Nat → Page → Nat → Page
  | 0, p1, _ => p1
  | n + 1, p1, k => if k ≤ lastw then treeLoop lastw n (vUpdtree s.lay p1 k) (k + 2) else p1

def vExtendag (nfrags fragno : Nat) : Vmdmap :=
  let p := fragno / s.lay.dbperpage
  let rem := fragno - p * s.lay.dbperpage
  let nag := rem / s.lay.agsize
  let firstw := rem / 32
  let bit := uzbit >>> (rem - 32 * firstw)
  let lastw := (rem + nfrags - 1) / 32
  let p1 := s.page p
  let p1 := { p1 with
    wmap := clearLoop nfrags p1.wmap firstw bit, pmap := clearLoop nfrags p1.pmap firstw bit
    agfree := Function.update p1.agfree nag (p1.agfree nag + nfrags) }
  let s := { s with freecnt := s.freecnt + nfrags }
  let fresh := p1.agcnt ≤ nag
  let p1 := if fresh then { p1 with agcnt := p1.agcnt + 1 } else p1
  let s := if fresh then { s with totalags := s.totalags + 1 } else s
  s.setPage p (s.treeLoop lastw (lastw + 1) p1 (firstw / 2 * 2))

/-- The loop of `v_realloc` over the old blocks, up to their summaries. -/
def freeLoop (fperpage : Nat) : List Frag → Vmdmap → Option Vmdmap
  | [], s => some s
  | old :: rest, s =>
    let p := old.addr / s.lay.dbperpage
    let bitno := old.addr - p * s.lay.dbperpage
    let word := bitno / 32 / 2 * 2
    let nfrags := fperpage - old.nfrags
    let rem := old.addr % dbperdword
    let p1 := s.page p
    if taken p1.wmap word rem nfrags then
      let nag := bitno / s.lay.agsize
      let p1 := { p1 with
        wmap := clearBits p1.wmap word rem nfrags
        agfree := Function.update p1.agfree nag (p1.agfree nag + nfrags) }
      freeLoop fperpage rest ({ s with freecnt := s.freecnt + nfrags }.setPage p p1)
    else none

/-- The loop of `v_realloc` over the trees. `last` is the double word of the last turn. -/
def reallocTrees : List Frag → Option (Nat × Nat) → Vmdmap → Vmdmap
  | [], _, s => s
  | old :: rest, last, s =>
    let p := old.addr / s.lay.dbperpage
    let bitno := old.addr - p * s.lay.dbperpage
    let word := bitno / 32 / 2 * 2
    let s := if last = some (p, word) then s else s.setPage p (vUpdtree s.lay (s.page p) word)
    reallocTrees rest (some (p, word)) s

/-- `old` has at least one element, and its last one is the hint. -/
def vRealloc (fperpage : Nat) (old : List Frag) (newfrags : Nat) : Ret :=
  match old.getLast? with
  | none => none
  | some hint =>
    if 4 < old.length ∨ cldefault .v4 < newfrags then none
    else
      match s.vAlloc newfrags hint.addr with
      | some (s, .ok result) =>
        (freeLoop fperpage old s).map fun s => (reallocTrees old none s, .ok result)
      | other => other

/-! ## Allocation of given fragments -/

/-- What `v_allocnxt`, `v_allocit` and `v_fallocnxt` do where the fragments are free. -/
def allocBits (p nag word rem nfrags : Nat) (e : Errno) : Ret :=
  let wmap := (s.page p).wmap
  if busy wmap word rem nfrags then some (s, .error e)
  else
    let s := s.setWmap p (setBits wmap word rem nfrags)
    some (s.account p nag word (-nfrags), .ok (p * s.lay.dbperpage + 32 * word + rem))

def vAllocnxt (fperpage : Nat) (prev : Frag) (nfrags : Nat) : Ret :=
  let p := prev.addr / s.lay.dbperpage
  let bitno := prev.addr - p * s.lay.dbperpage
  let word := bitno / 32 / 2 * 2
  let prevfrags := fperpage - prev.nfrags
  let rem := prev.addr % dbperdword
  let nextfrag := if rem + prevfrags = dbperdword then 0 else rem + prevfrags
  if dbperdword < nextfrag + nfrags then some (s, .error .enospc)
  else
    let nag := bitno / s.lay.agsize
    if nextfrag = 0 then
      let word := word + 2
      let wperag := s.lay.agsize / 32
      if (nag + 1) * wperag ≤ word then some (s, .error .enospc)
      else s.allocBits p nag word nextfrag nfrags .enospc
    else s.allocBits p nag word nextfrag nfrags .enospc

def vAllocit (fperpage : Nat) (frag : Frag) : Ret :=
  let p := frag.addr / s.lay.dbperpage
  let bitno := frag.addr - p * s.lay.dbperpage
  let word := bitno / 32 / 2 * 2
  let nag := bitno / s.lay.agsize
  let nfrags := fperpage - frag.nfrags
  if s.mapsize < frag.addr + nfrags then some (s, .error .einval)
  else
    let nextfrag := frag.addr % dbperdword
    if dbperdword < nextfrag + nfrags then some (s, .error .einval)
    else s.allocBits p nag word nextfrag nfrags .estale

def vFallocnxt (fperpage : Nat) (cur : Frag) (newfrags : Nat) : Ret :=
  let p := cur.addr / s.lay.dbperpage
  let bitno := cur.addr - p * s.lay.dbperpage
  let word := bitno / 32 / 2 * 2
  let curfrags := fperpage - cur.nfrags
  let rem := cur.addr % dbperdword
  let nextfrag := if rem + curfrags = dbperdword then 0 else rem + curfrags
  if nextfrag = 0 ∨ dbperdword < nextfrag + newfrags then some (s, .error .enospc)
  else s.allocBits p (bitno / s.lay.agsize) word nextfrag newfrags .enospc

def vMapd (daddr : Nat) : Vmdmap :=
  let p := daddr / s.lay.dbperpage
  let rem := daddr - p * s.lay.dbperpage
  let w := rem / 32
  let bit := rem - 32 * w
  let nag := rem / s.lay.agsize
  let p1 := s.page p
  let p1 := { p1 with
    wmap := Function.update p1.wmap w (p1.wmap w ||| uzbit >>> bit)
    pmap := Function.update p1.pmap w (p1.pmap w ||| uzbit >>> bit) }
  (s.setPage p p1).account p nag w (-1)

/-! ## Growth -/

/-- A page of zeros. -/
def freshPage : Page where
  agcnt := 0
  agfree _ := 0
  tree _ := 0
  wmap _ := ones
  pmap _ := ones

/-- The next page of the map is initialized, with all its bits allocated. -/
def imappage : Vmdmap := { s.setPage s.npages freshPage with npages := s.npages + 1 }

end Vmdmap

end Aix413.Dmap
