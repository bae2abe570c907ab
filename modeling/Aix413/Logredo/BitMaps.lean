import Aix413.Dmap.MapGrowth
import Aix413.Logredo.BufferPool

namespace Aix413.Logredo.BitMaps

open Aix413.Dmap Aix413.Lib.MaxTree BufferPool

/-- `FM_LOGREDO`. -/
def fmLogredo : Nat := 3

/-- `sizeof(struct dinode)`. -/
def dinodeSize : Nat := 128

/-- `TREESIZE`, in words of four characters. -/
def treesize : Nat := 85

/-- The types of `markit`. -/
inductive MarkType
  | dbtype
  | inotype
deriving DecidableEq

/-- An entry of `vopen`, with the maps in memory. -/
structure Vopen where
  status : Nat
  fragsize : Nat
  fperpage : Nat
  agsize : Nat
  iagsize : Nat
  imap : Vmdmap
  dmap : Vmdmap

/-- A map as a file on the disk, and the pages of the file. -/
structure MapFile where
  map : Vmdmap
  pages : Nat

def wperpage (s : Vmdmap) : Nat := s.lay.dbperpage / 32

/-! ## The tree -/

/-- The loop of `idmaptab` over the places of a string in a byte. -/
def placeLoop (k : Nat) : Nat → Nat → Bool
  | 0, _ => false
  | j + 1, tmask => if tmask &&& k = 0 then true else placeLoop k j (tmask >>> 1)

/-- The loop of `idmaptab` over the lengths of a string. -/
def lengthLoop (k : Nat) : Nat → Nat → Nat
  | 0, _ => 0x80
  | m + 1, n =>
    let shift := 8 - n
    let mask := (0xff <<< shift) &&& 0xff
    if placeLoop k (shift + 1) mask then mask else lengthLoop k m (n - 1)

/-- What `idmaptab` puts in an entry. -/
def idmaptab (k : Nat) : Nat :=
  if k = 255 then 0 else if k = 0 then 0xff else lengthLoop k 6 7

/-- The loop of `updtree` over the characters of a double word. -/
def charLoop (maxc : Nat) : Nat → List (BitVec 8) → Nat
  | m, [] => m
  | m, c :: cs =>
    let m := max m (idmaptab c.toNat)
    if maxc ≤ m then maxc else charLoop maxc m cs

/-- A loop of `maxstring` over the bits of a word: the maximum, and the string at the end. -/
def stringLoop (word : Word) : Nat → Nat → Nat × Nat → Nat × Nat
  | 0, _, r => r
  | n + 1, bit, (longest, m) =>
    if word &&& uzbit >>> bit ≠ 0 then stringLoop word n (bit + 1) (max longest m, 0)
    else stringLoop word n (bit + 1) (longest, m + 1)

def maxstring (w₁ w₂ : Word) : Nat :=
  let r := stringLoop w₂ 32 0 (stringLoop w₁ 32 0 (0, 0))
  max r.1 r.2

def updtree (l : Layout) (p1 : Page) (ind : Nat) : Page :=
  let ind := ind / 2 * 2
  let max :=
    match l.version with
    | .v3 => charLoop (charMask l.clsize) 0 (chars (p1.wmap ind) (p1.wmap (ind + 1)))
    | .v4 => maxstring (p1.wmap ind) (p1.wmap (ind + 1))
  let lp := leafind + ind / 8
  let cp1 := 4 * lp + ind % 8 / 2
  { p1 with tree := climb 4 p1.tree cp1 max }

/-! ## A page at the end -/

/-- The free bits of a word. -/
def bitLoop (word : Word) : Nat → Nat → Nat → Nat
  | 0, _, free => free
  | n + 1, bit, free =>
    bitLoop word n (bit + 1) (if uzbit >>> bit &&& word = 0 then free + 1 else free)

/-- The free bits of some words. -/
def wordLoop (wmap : Nat → Word) : Nat → Nat → Nat → Nat
  | 0, _, free => free
  | n + 1, w, free => wordLoop wmap n (w + 1) (bitLoop (wmap w) 32 0 free)

/-- The loop of `updatepage` over the allocation groups. -/
def agLoop (wmap : Nat → Word) (wperag : Nat) :
    Nat → Nat → Nat → (Nat → Int) × Int → (Nat → Int) × Int
  | 0, _, _, r => r
  | n + 1, ag, fw, (agfree, freecnt) =>
    let free := wordLoop wmap wperag fw 0
    agLoop wmap wperag n (ag + 1) (fw + wperag) (Function.update agfree ag free, freecnt + free)

/-- The loop of `updatepage` over the double words. -/
def dwordLoop (l : Layout) : Nat → Nat → Page → Page
  | 0, _, p1 => p1
  | n + 1, w, p1 => dwordLoop l n (w + 2) (updtree l p1 w)

def updatepage (s : Vmdmap) (p : Nat) : Vmdmap :=
  let p1 := s.page p
  let wmap := fun w => if w < wperpage s then p1.pmap w else p1.wmap w
  let (agfree, freecnt) := agLoop wmap (s.lay.agsize / 32) (s.lay.dbperpage / s.lay.agsize) 0 0
    (p1.agfree, s.freecnt)
  let tree := fun k => if k < 4 * treesize then 0 else p1.tree k
  let p1 := { p1 with wmap := wmap, agfree := agfree, tree := tree }
  let p1 := dwordLoop s.lay (wperpage s / 2) 0 p1
  { s with freecnt := freecnt }.setPage p p1

/-- The pages of a map with its control pages. -/
def totalpages (s : Vmdmap) (npages : Nat) : Nat :=
  match s.lay.version with
  | .v3 => npages
  | .v4 => npages + (npages + 7) / 8

/-- `writemap`: the map that it writes. `io` says which pages are written without an error. -/
def writemap (v : Vopen) (p0 : Vmdmap) (pages : Nat) (io : Nat → Bool) : Option Vmdmap :=
  if v.status = fmLogredo then none
  else
    let npages := (p0.mapsize + p0.lay.dbperpage - 1) / p0.lay.dbperpage
    if pages < totalpages p0 npages then none
    else
      let p0 := (List.range npages).foldl updatepage { p0 with freecnt := 0 }
      if (List.range (totalpages p0 npages)).all io then some p0 else none

/-! ## Marks -/

/-- The loops of `markit` over bits of a word. -/
def markLoop (val : Bool) (w : Nat) : Nat → Nat → Page → Page
  | 0, _, p1 => p1
  | n + 1, bit, p1 =>
    if p1.wmap w &&& uzbit >>> bit ≠ 0 then markLoop val w n (bit + 1) p1
    else
      let pmap := if val then p1.pmap w ||| uzbit >>> bit else p1.pmap w &&& ~~~(uzbit >>> bit)
      markLoop val w n (bit + 1) { p1 with
        wmap := Function.update p1.wmap w (p1.wmap w ||| uzbit >>> bit)
        pmap := Function.update p1.pmap w pmap }

/-- The number of bits of a disk address. -/
def Vopen.nbits (v : Vopen) (type : MarkType) (bn : Fdaddr) : Int :=
  match type with
  | .inotype => 1
  | .dbtype => v.fperpage - bn.nfrags

def markit (v : Vopen) (p0 : Vmdmap) (bn : Fdaddr) (val : Bool) (type : MarkType) :
    Vopen × Vmdmap × Int :=
  let nbits := v.nbits type bn
  if (p0.mapsize : Int) < (bn.addr + nbits) % 2 ^ 32 then
    ({ v with status := fmLogredo }, p0, minorError)
  else
    let p := bn.addr / p0.lay.dbperpage
    let rem := bn.addr - p * p0.lay.dbperpage
    let w := rem / 32
    let bit := rem - 32 * w
    let wordbits := min (32 - bit : Int) nbits
    let p1 := markLoop val w wordbits.toNat bit (p0.page p)
    let p1 := markLoop val (w + 1) (nbits - wordbits).toNat 0 p1
    (v, p0.setPage p p1, 0)

/-- A call of `markit` for a record. -/
structure Call where
  type : MarkType
  bn : Fdaddr
  val : Bool

/-- Inodes are marked in the inode map and blocks in the disk map. -/
def Vopen.mark (v : Vopen) (c : Call) : Vopen :=
  match c.type with
  | .inotype =>
    let (v, imap, _) := markit v v.imap c.bn c.val .inotype
    { v with imap := imap }
  | .dbtype =>
    let (v, dmap, _) := markit v v.dmap c.bn c.val .dbtype
    { v with dmap := dmap }

/-! ## The maps of a volume -/

/-- A bit of the permanent map is set. -/
def setPbit (s : Vmdmap) (k : Nat) : Vmdmap :=
  let p := k / s.lay.dbperpage
  let rem := k - p * s.lay.dbperpage
  let w := rem / 32
  let bit := rem - 32 * w
  let p1 := s.page p
  s.setPage p { p1 with pmap := Function.update p1.pmap w (p1.pmap w ||| uzbit >>> bit) }

/-- The fragments that the inodes of an allocation group take. -/
def Vopen.minfrags (v : Vopen) : Nat := v.iagsize / (v.fragsize / dinodeSize)

/-- The fragments behind the last whole allocation group. -/
def Vopen.rem (v : Vopen) (fssize : Nat) : Nat := fssize - fssize / v.agsize * v.agsize

def Vopen.nag (v : Vopen) (fssize : Nat) : Nat :=
  if v.minfrags ≤ v.rem fssize then fssize / v.agsize + 1 else fssize / v.agsize

/-- `mapsize` and the size of an allocation group. -/
def Vopen.sizes (v : Vopen) (fssize : Nat) : MapType → Nat × Nat
  | .inodemap => (v.iagsize * v.nag fssize, v.iagsize)
  | _ => (fssize, v.agsize)

/-- The bits from here on are set. -/
def Vopen.firstbit (v : Vopen) (fssize : Nat) (type : MapType) : Nat :=
  let mapsize := (v.sizes fssize type).1
  if type = .fsdiskmap ∧ v.rem fssize < v.minfrags then mapsize - v.rem fssize else mapsize

/-- The map with its sizes, and with nothing in the work map. -/
def Vopen.cleared (v : Vopen) (ptr : Vmdmap) (fssize : Nat) (type : MapType) : Vmdmap :=
  let (mapsize, agsize) := v.sizes fssize type
  let agperpage := ptr.lay.dbperpage / agsize
  { ptr with
    mapsize := mapsize
    totalags := v.nag fssize
    npages := (mapsize + ptr.lay.dbperpage - 1) / ptr.lay.dbperpage
    page := fun k => { ptr.page k with
      agcnt := min agperpage (v.nag fssize - k * agperpage)
      wmap := fun w => if w < wperpage ptr then 0 else (ptr.page k).wmap w } }

/-- `readmap`. `io` says which pages are read without an error. -/
def readmap (v : Vopen) (file : MapFile) (fssize : Nat) (type : MapType) (io : Nat → Bool) :
    Option Vmdmap :=
  let s := v.cleared file.map fssize type
  if file.pages < totalpages s s.npages then none
  else if (List.range (totalpages s s.npages)).all io then
    let firstbit := v.firstbit fssize type
    some ((List.range' firstbit (s.npages * s.lay.dbperpage - firstbit)).foldl setPbit s)
  else none

/-- The map files of a volume. -/
structure Files where
  imap : MapFile
  dmap : MapFile

/-- Which transfers of map pages succeed. -/
structure Io where
  readI : Nat → Bool
  readD : Nat → Bool
  writeI : Nat → Bool
  writeD : Nat → Bool

def initmaps (v : Vopen) (f : Files) (fssize : Nat) (io : Io) : Option Vopen :=
  (readmap v f.imap fssize .inodemap io.readI).bind fun imap =>
    (readmap v f.dmap fssize .fsdiskmap io.readD).map fun dmap =>
      { v with imap := imap, dmap := dmap }

/-- `updatemaps`: the inode map and the disk map that it writes, the second one only after the
first. -/
def updatemaps (v : Vopen) (f : Files) (io : Io) : Option Vmdmap × Option Vmdmap :=
  match writemap v v.imap f.imap.pages io.writeI with
  | none => (none, none)
  | some imap => (some imap, writemap v v.dmap f.dmap.pages io.writeD)

/-- A volume is opened, the log is read backwards and the maps are written. -/
def redo (v : Vopen) (f : Files) (fssize : Nat) (io : Io) (calls : List Call) :
    Option Vmdmap × Option Vmdmap :=
  match initmaps v f fssize io with
  | none => (none, none)
  | some v => updatemaps (calls.foldl Vopen.mark v) f io

end Aix413.Logredo.BitMaps
