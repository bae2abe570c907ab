import Mathlib.Data.List.Basic
import Mathlib.Tactic

namespace Aix413.Log.Format

abbrev Word := BitVec 32

abbrev Short := BitVec 16

def pagesize : Nat := 4096

/-- Words of the data area of a page (`PAGESIZE/4 - 4`). -/
def ldataWords : Nat := 1020

/-- `struct logpage`. -/
structure LogPage where
  hPage : Word
  hXor : Short
  hEor : Short
  ldata : Nat → Word
  tPage : Word
  tXor : Short
  tEor : Short

/-- `struct logrdesc`. The union is kept as its five words `ddata`. -/
structure LogRDesc where
  transid : Word
  backchain : Word
  type : Short
  length : Short
  ddata0 : Word
  ddata1 : Word
  ddata2 : Word
  ddata3 : Word
  ddata4 : Word
  deriving DecidableEq, Repr

def commit : Short := 1
def after : Short := 2
def newpage : Short := 4
def noredo : Short := 8
def syncpt : Short := 16
def dum : Short := 32
def nodredo : Short := 64
def dfree : Short := 128
def mount : Short := 256

/-- The eight words of a descriptor. -/
def LogRDesc.words (ld : LogRDesc) : List Word :=
  [ld.transid, ld.backchain, ld.type ++ ld.length, ld.ddata0, ld.ddata1, ld.ddata2, ld.ddata3,
    ld.ddata4]

def LogRDesc.ofWords (ws : List Word) : LogRDesc where
  transid := ws.getD 0 0
  backchain := ws.getD 1 0
  type := (ws.getD 2 0).extractLsb' 16 16
  length := (ws.getD 2 0).extractLsb' 0 16
  ddata0 := ws.getD 3 0
  ddata1 := ws.getD 4 0
  ddata2 := ws.getD 5 0
  ddata3 := ws.getD 6 0
  ddata4 := ws.getD 7 0

@[simp] theorem length_words (ld : LogRDesc) : ld.words.length = 8 := rfl

@[simp] theorem ofWords_words (ld : LogRDesc) : LogRDesc.ofWords ld.words = ld := by
  have ht : (ld.type ++ ld.length).extractLsb' 16 16 = ld.type :=
    (BitVec.extractLsb'_append_eq_of_le (Nat.le_refl 16)).trans BitVec.extractLsb'_eq_self
  have hl : (ld.type ++ ld.length).extractLsb' 0 16 = ld.length :=
    (BitVec.extractLsb'_append_eq_of_add_le (by omega)).trans BitVec.extractLsb'_eq_self
  simp only [LogRDesc.ofWords, LogRDesc.words, List.getD_cons_zero, List.getD_cons_succ, ht, hl]

/-- Words of the data of a record. -/
def LogRDesc.nwords (ld : LogRDesc) : Nat := ((ld.length.toInt + 3) / 4).toNat

end Aix413.Log.Format
