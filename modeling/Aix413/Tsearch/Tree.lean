import Aix413.Lib.LinkedTree
import Mathlib.Data.Finset.Insert

namespace Aix413.Tsearch

open Lib.LinkedTree

/-! ## Binary search trees of `tsearch` -/

/-- The nodes that can be reached from one root, and those in use. -/
structure Tree (κ : Type) extends Links where
  key : Nat → κ
  /-- The nodes that have been allocated. -/
  live : Finset Nat

variable {κ : Type} (compar : κ → κ → Int)

namespace Tree

def put (t : Tree κ) (k : Link) (q : Nat) : Tree κ := { t with toLinks := t.toLinks.set k q }

/-- A new node is linked. -/
def newNode (t : Tree κ) (rootp : Link) (q : Nat) (key : κ) : Tree κ :=
  let t := t.put rootp q
  let t := { t with key := Function.update t.key q key, live := insert q t.live }
  (t.put (.rlink q) 0).put (.llink q) 0

/-- `tsearch` from `rootp` on; `mem` is what `malloc` gives. -/
def tsearch (key : κ) (mem : Option Nat) : Nat → Link → Tree κ → Option (Nat × Tree κ)
  | 0, _, _ => none
  | fuel + 1, rootp, t =>
    let p := t.get rootp
    if p ≠ 0 then
      let r := compar key (t.key p)
      if r = 0 then some (p, t)
      else tsearch key mem fuel (if r < 0 then .llink p else .rlink p) t
    else
      match mem with
      | none => some (0, t)
      | some q => some (q, t.newNode rootp q key)

def tfind (key : κ) : Nat → Link → Tree κ → Option Nat
  | 0, _, _ => none
  | fuel + 1, rootp, t =>
    let p := t.get rootp
    if p ≠ 0 then
      let r := compar key (t.key p)
      if r = 0 then some p else tfind key fuel (if r < 0 then .llink p else .rlink p) t
    else some 0

/-- The first loop of `tdelete`: the parent of the node to be deleted, and the link to it. -/
def locate (key : κ) : Nat → Nat → Link → Tree κ → Option (Option (Nat × Link))
  | 0, _, _, _ => none
  | fuel + 1, p, rootp, t =>
    let d := t.get rootp
    let ans := compar key (t.key d)
    if ans = 0 then some (some (p, rootp))
    else
      let rootp := if ans < 0 then .llink d else .rlink d
      if t.get rootp = 0 then some none else locate key fuel d rootp t

/-- From `D3` on: the successor and its parent. -/
def successor (t : Tree κ) : Nat → Nat → Nat → Option (Nat × Nat)
  | 0, _, _ => none
  | fuel + 1, r, q => if t.llink q ≠ 0 then successor t fuel q (t.llink q) else some (r, q)

/-- What takes the place of the node at `rootp`. -/
def replacement (fuel : Nat) (rootp : Link) (t : Tree κ) : Option (Nat × Tree κ) :=
  let d := t.get rootp
  let r := t.rlink d
  let q := t.llink d
  if q = 0 then some (r, t)
  else if r ≠ 0 then
    if t.llink r = 0 then some (r, t.put (.llink r) q)
    else
      (t.successor fuel r (t.llink r)).map fun (r, q) =>
        let t := t.put (.llink r) (t.rlink q)
        let t := t.put (.llink q) (t.llink d)
        let t := t.put (.rlink q) (t.rlink d)
        (q, t)
  else some (q, t)

def free (t : Tree κ) (d : Nat) : Option (Tree κ) :=
  if d ∈ t.live then some { t with live := t.live.erase d } else none

def tdelete (key : κ) (fuel : Nat) (t : Tree κ) : Option (Nat × Tree κ) :=
  if t.root = 0 then some (0, t)
  else
    (locate compar key fuel t.root .root t).bind fun
      | none => some (0, t)
      | some (p, rootp) => do
        let (q, t) ← t.replacement fuel rootp
        let t ← t.free (t.get rootp)
        some (p, t.put rootp q)

end Tree

/-- A call on one root. -/
inductive Call (κ : Type)
  | tsearch (key : κ) (mem : Option Nat)
  | tfind (key : κ)
  | tdelete (key : κ)

def Call.run (fuel : Nat) (t : Tree κ) : Call κ → Option (Nat × Tree κ)
  | .tsearch key mem => t.tsearch compar key mem fuel .root
  | .tfind key => (t.tfind compar key fuel .root).map fun p => (p, t)
  | .tdelete key => t.tdelete compar key fuel

/-- `malloc` gives nothing, or a node that is not in use. -/
def Call.Allowed (t : Tree κ) : Call κ → Prop
  | .tsearch _ (some q) => q ≠ 0 ∧ q ∉ t.live
  | _ => True

end Aix413.Tsearch
