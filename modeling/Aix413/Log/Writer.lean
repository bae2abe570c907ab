import Aix413.Log.Format

namespace Aix413.Log.Writer

open Format

/-- The fields of the log inode that the log writer uses, and the pages of the
log segment. -/
structure LogInode where
  logsize : Nat
  logptr : Nat
  logend : Nat
  logxor : Word
  llogeor : Nat
  llogxor : Word
  logppong : Nat
  pages : Nat → LogPage

/-- The header and trailer that `logwrite` puts on a page. -/
def stamp (eor : Nat) (xor : Word) (p : LogPage) : LogPage :=
  { p with
    hEor := BitVec.ofNat 16 eor
    tEor := BitVec.ofNat 16 eor
    tXor := xor.extractLsb' 0 16
    hXor := xor.extractLsb' 16 16 }

/-- `v_makelogp`: an empty page. -/
def makelogp (lpage : Word) : LogPage := ⟨lpage, 0, 8, fun _ => 0, lpage, 0, 8⟩

def nextPageNo (logsize p : Nat) : Nat := if p = logsize - 1 then 2 else p + 1

/-- `nextpage`. The page just filled is written at once when the commit queue
is empty, which `cq` says for its sequence number; otherwise the leader of a
group commit stamps and writes it later. -/
def nextpage (cq : Word → Bool) (ip : LogInode) : LogInode :=
  let page := ip.pages ip.logptr
  let filled := if cq page.hPage then stamp ip.llogeor ip.llogxor page else page
  let logptr := nextPageNo ip.logsize ip.logptr
  { ip with
    logend := 8
    logxor := 0
    logptr := logptr
    logppong := nextPageNo ip.logsize logptr
    pages := Function.update (Function.update ip.pages ip.logptr filled) logptr
      (makelogp (page.hPage + 1)) }

/-- `bcopy` of words to the page, from byte `freeptr` on. -/
def copyWords (p : LogPage) (freeptr : Nat) (ws : List Word) : LogPage :=
  { p with
    ldata := fun j =>
      if (freeptr - 8) / 4 ≤ j ∧ j < (freeptr - 8) / 4 + ws.length then
        ws.getD (j - (freeptr - 8) / 4) 0
      else p.ldata j }

/-- What one turn of the loop of `movedata` does before it looks for the end
of the page. -/
def moveChunk (desc : Bool) (ip : LogInode) (ws rest : List Word) : LogInode :=
  let logend := ip.logend + 4 * ws.length
  let logxor := ws.foldl (· ^^^ ·) ip.logxor
  { ip with
    logend := logend
    logxor := logxor
    llogeor := if desc ∧ rest = [] then logend else ip.llogeor
    llogxor := if desc ∧ rest = [] then logxor else ip.llogxor
    pages := Function.update ip.pages ip.logptr (copyWords (ip.pages ip.logptr) ip.logend ws) }

/-- The loop of `movedata` on the words not yet moved, and the address just
past the last one. Every turn moves a word, so fuel for each word is enough. -/
def moveLoop (cq : Word → Bool) (desc : Bool) : Nat → LogInode → List Word → LogInode × Nat
  | 0, ip, _ => (ip, ip.logptr * pagesize + ip.logend)
  | n + 1, ip, ws =>
    let space := pagesize - 8 - ip.logend
    let nbytes := min space (4 * ws.length)
    let rest := ws.drop (nbytes / 4)
    let ip' := moveChunk desc ip (ws.take (nbytes / 4)) rest
    let logaddr := ip'.logptr * pagesize + ip'.logend
    if ip'.logend < pagesize - 8 then (ip', logaddr)
    else if rest = [] then (nextpage cq ip', logaddr)
    else moveLoop cq desc n (nextpage cq ip') rest

/-- `movedata`, of type 1 for a descriptor. -/
def movedata (cq : Word → Bool) (desc : Bool) (ip : LogInode) (ws : List Word) : LogInode × Nat :=
  moveLoop cq desc ws.length ip ws

/-- Length of a record: its data in whole words and its descriptor. -/
def recordLen (ld : LogRDesc) : Int := (ld.length.toInt + 3) / 4 * 4 + 32

/-- Length of the dummy record that `dologmvc` puts first, 0 for none. -/
def dumlen (p : Nat) (rlen : Int) : Nat :=
  let space := pagesize - 8 - p
  if rlen > space then
    if rlen > space + (pagesize - 16 : Nat) then max 32 (space + 4)
    else if p = 8 ∧ rlen > (pagesize - 16 : Nat) then 32
    else 0
  else 0

/-- The descriptor of a dummy record. -/
def dumDesc (dumlen : Nat) : LogRDesc := ⟨0, 0, dum, BitVec.ofNat 16 (dumlen - 32), 0, 0, 0, 0, 0⟩

/-- The first words at `dataptr`. -/
def wordsAt (dataptr : Nat → Word) (n : Nat) : List Word := (List.range n).map dataptr

/-- The dummy record of `dologmvc`. Its data are whatever `dataptr` points to. -/
def movedum (cq : Word → Bool) (ip : LogInode) (dumlen : Nat) (dataptr : Nat → Word) : LogInode :=
  let ip := if dumlen > 32 then (movedata cq false ip (wordsAt dataptr ((dumlen - 32) / 4))).1
    else ip
  (movedata cq true ip (dumDesc dumlen).words).1

/-- `dologmvc`: the log after the record, and the record's address. -/
def dologmvc (cq : Word → Bool) (ip : LogInode) (ld : LogRDesc) (dataptr : Nat → Word) :
    LogInode × Nat :=
  let rlen := recordLen ld
  let n := dumlen ip.logend rlen
  let ip := if n > 0 then movedum cq ip n dataptr else ip
  let ip := if rlen > 32 then (movedata cq false ip (wordsAt dataptr ((rlen - 32) / 4).toNat)).1
    else ip
  movedata cq true ip ld.words

end Aix413.Log.Writer
