import Mathlib.Data.BitVec
import Mathlib.Data.Fintype.Basic
import Mathlib.Logic.Function.Basic

namespace Aix413.Select

/-! ## Events, lists and what the caller gives -/

/-- The three lists, in the order of `sel_ptrs`. -/
inductive Which where
  | read
  | write
  | except
deriving DecidableEq

instance : Fintype Which := ⟨{.read, .write, .except}, fun w => by cases w <;> decide⟩

abbrev Events := BitVec 16

def pollIn : Events := 0x0001#16
def pollOut : Events := 0x0002#16
def pollPri : Events := 0x0004#16
def pollHup : Events := 0x2000#16
def pollErr : Events := 0x4000#16
def pollSync : Events := 0x8000#16

/-- The event a list asks for. -/
def Which.poll : Which → Events
  | .read => pollIn
  | .write => pollOut
  | .except => pollPri

def lists : List Which := [.read, .write, .except]

/-- `e & m`, as a condition. -/
def has (e m : Events) : Prop := e &&& m ≠ 0

instance (e m : Events) : Decidable (has e m) := inferInstanceAs (Decidable (_ ≠ _))

def EINTR : Int := 4
def EBADF : Int := 9
def EAGAIN : Int := 11
def EFAULT : Int := 14
def EINVAL : Int := 22

def openMax : Nat := 2000
def nbits : Nat := 32

/-- `NFDS`, also the lower half of a result. -/
def nfds (x : BitVec 32) : Nat := (x &&& 0xffff#32).toNat

/-- `NMSGS`, also the upper half of a result. -/
def nmsgs (x : BitVec 32) : Nat := (x >>> 16 &&& 0xffff#32).toNat

/-- `ISSET`. -/
def isSet (word : BitVec 32) (bit : Nat) : Prop := word &&& 1#32 <<< bit ≠ 0

instance (word : BitVec 32) (bit : Nat) : Decidable (isSet word bit) :=
  inferInstanceAs (Decidable (_ ≠ _))

def setBit (word : BitVec 32) (bit : Nat) : BitVec 32 := word ||| 1#32 <<< bit

def clrBit (word : BitVec 32) (bit : Nat) : BitVec 32 := word &&& ~~~(1#32 <<< bit)

structure Timeval where
  sec : Int
  usec : Int

/-- The parameters; `present` says which of the lists are not NULL, `mask` and `ids` are the two
parts of each list. -/
structure Args where
  nfdsmsgs : BitVec 32
  present : Which → Bool
  mask : Which → Nat → BitVec 32
  ids : Which → Nat → Int
  timeout : Option Timeval

/-- What `selpoll` does on one descriptor: its results, the control blocks the device asks for
(which of the requested events, and what `selnotify` has put into `rtnevents` when they are
collected), and whether TSELECT is found off afterwards. -/
structure Poll where
  rc : Int
  rtn : Events
  cbs : List (Events × Events)
  off : Bool

/-- The message queue behind one call of `msgselect`: `notified` is what `selnotify` has put
into the control block when it is collected. -/
structure Queue where
  valid : Bool
  data : Bool
  room : Bool
  storage : Bool
  notified : Events

/-- What happens around the call. -/
structure Env where
  timeIn : Bool
  malloc : Bool
  copyin : Which → Bool
  poll : Nat → Poll
  queue : Nat → Which → Queue
  off : Nat → Bool
  offWait : Bool
  wait : Int
  copyout : Which → Bool

/-- `struct sel_cb`; `msg` is `dev_id == POLL_MSG`. -/
structure SelCb where
  msg : Bool
  corl : Nat
  uniqueId : Int
  reqevents : Events
  rtnevents : Events

/-- The kernel's copy of the lists, the counters, and the thread chain `ut_selchn`. -/
structure Sel where
  mask : Which → Nat → BitVec 32
  ids : Which → Nat → Int
  numFdes : Int
  numMsgs : Int
  reqevMsk : Events
  reqevents : Events
  selchn : List SelCb

/-- How a call ends without a result: with `ut_error` set, or in a failed assertion. -/
inductive Stop where
  | error (e : Int)
  | assertion

structure Returned where
  result : BitVec 32
  mask : Which → Nat → BitVec 32
  ids : Which → Nat → Int

/-- `chk_timeout`. -/
def chkTimeout : Option Timeval → Option Events
  | none => some 0
  | some t =>
    if t.sec < 0 ∨ t.usec < 0 ∨ 1000000 ≤ t.usec then none
    else if t.sec = 0 ∧ t.usec = 0 then some pollSync
    else some 0

/-- `selreg`, once it has storage. -/
def selreg (selchn : List SelCb) (cb : SelCb) : List SelCb :=
  if has cb.reqevents pollSync then selchn else cb :: selchn

variable (a : Args) (env : Env)

/-! ## Descriptors -/

/-- A list's bit goes into `reqevents` and is counted. -/
def ask (s : Sel) (elem bit : Nat) (r : Events × Int) (w : Which) : Events × Int :=
  if a.present w ∧ isSet (s.mask w elem) bit then (r.1 ||| w.poll, r.2 + 1) else r

/-- A list's bit is turned off when its event was not returned. -/
def turnOff (reqevents rtnevents : Events) (elem bit : Nat) (s : Sel) (w : Which) : Sel :=
  if has reqevents w.poll ∧ ¬has rtnevents w.poll ∧ a.present w then
    { s with
      mask := Function.update s.mask w
        (Function.update (s.mask w) elem (clrBit (s.mask w elem) bit))
      numFdes := s.numFdes - 1 }
  else s

/-- The control blocks a descriptor's poll leaves on the thread chain. -/
def registered (fd : Nat) (reqevents : Events) (selchn : List SelCb) : List SelCb :=
  (env.poll fd).cbs.foldl (fun selchn cb =>
    selreg selchn ⟨false, fd, 0, reqevents &&& (cb.1 ||| pollSync), cb.2⟩) selchn

/-- From here on polls are synchronous when an event has occurred. -/
def observe (rtnevents : Events) (off : Bool) (s : Sel) : Sel :=
  { s with reqevMsk := if rtnevents ≠ 0 ∨ off then pollSync else s.reqevMsk }

/-- One round of the bit loop. -/
def column (fd : Nat) (s : Sel) : Except Stop Sel :=
  let elem := fd / nbits
  let bit := fd % nbits
  if ∀ w, ¬(a.present w ∧ isSet (s.mask w elem) bit) then .ok s
  else
    let asked := lists.foldl (ask a s elem bit) (s.reqevMsk, s.numFdes)
    let p := env.poll fd
    let s := { s with
      numFdes := asked.2
      reqevents := asked.1
      selchn := registered env fd asked.1 s.selchn }
    if p.rc = 0 ∧ ¬has p.rtn (pollHup ||| pollErr) then
      .ok (observe p.rtn p.off (lists.foldl (turnOff a asked.1 p.rtn elem bit) s))
    else if p.rc = EINTR ∨ p.rc = EBADF then .error (.error p.rc)
    -- any other error, hang-ups and device errors among them, leaves all the bits set
    else .ok (observe (asked.1 &&& ~~~pollSync) p.off s)

def bitLoop (fdes : Nat) : Nat → Nat → Sel → Except Stop Sel
  | 0, _, s => .ok s
  | n + 1, fd, s =>
    if fd < fdes then do
      let s ← column a env fd s
      bitLoop fdes n (fd + 1) s
    else .ok s

/-- The loop over the words, `fd` being `elem * NBITS` at the start of a word. -/
def wordLoop (fdes : Nat) : Nat → Nat → Sel → Except Stop Sel
  | 0, _, s => .ok s
  | n + 1, elem, s =>
    if elem * nbits < fdes then
      if ∀ w, ¬(a.present w ∧ s.mask w elem ≠ 0) then wordLoop fdes n (elem + 1) s
      else do
        let s ← bitLoop a env fdes nbits (elem * nbits) s
        wordLoop fdes n (elem + 1) s
    else .ok s

/-! ## Message queues -/

/-- The result, `*rtneventsp` and the thread chain. -/
def msgselect (q : Queue) (msgId : Int) (corl : Nat) (reqevents : Events)
    (selchn : List SelCb) : Int × Events × List SelCb :=
  if q.valid then
    let rtnevents := (if has reqevents pollIn ∧ q.data then pollIn else 0) |||
      (if has reqevents pollOut ∧ q.room then pollOut else 0)
    let reqevents :=
      if has reqevents (pollIn ||| pollOut ||| pollPri) then reqevents else reqevents ||| pollSync
    if ¬has reqevents pollSync ∧ rtnevents = 0 then
      if q.storage then
        (0, rtnevents, selreg selchn ⟨true, corl, msgId, reqevents, q.notified⟩)
      else (EAGAIN, rtnevents, selchn)
    else (0, rtnevents, selchn)
  else (EINVAL, reqevents, selchn)

/-- The variables of one round of the message loop; `did` is `did_wr` and `did_ex`. -/
structure Turn where
  reqevents : Events
  rtnevents : Events
  did : Which → Bool
  selchn : List SelCb

/-- The lists whose entries are compared with an entry of `w`. -/
def later : Which → List Which
  | .read => [.write, .except]
  | .write => [.except]
  | .except => []

/-- An equal entry of a later list is asked for in the same call. -/
def join (s : Sel) (elem : Nat) (w : Which) (r : Events × (Which → Bool)) (v : Which) :
    Events × (Which → Bool) :=
  if ¬r.2 v ∧ a.present v ∧ s.ids w elem = s.ids v elem then
    (r.1 ||| v.poll, Function.update r.2 v true)
  else r

/-- The check of one list's entry. -/
def check (elem : Nat) (s : Sel) (w : Which) (t : Turn) : Except Stop Turn :=
  if ¬t.did w ∧ a.present w ∧ s.ids w elem ≠ -1 then
    let asked := (later w).foldl (join a s elem w) (s.reqevMsk ||| w.poll, t.did)
    let r := msgselect (env.queue elem w) (s.ids w elem) elem asked.1 t.selchn
    if r.1 ≠ 0 ∧ (r.1 = EINVAL ∨ r.2.1 = 0) then
      .error (.error (if r.1 = EINVAL then EBADF else r.1))
    else .ok ⟨asked.1, t.rtnevents ||| r.2.1, asked.2, r.2.2⟩
  else .ok t

/-- An entry asked for in `reqevents` is counted, or replaced by -1. -/
def settle (reqevents rtnevents : Events) (elem : Nat) (s : Sel) (w : Which) : Sel :=
  if has reqevents w.poll then
    if has rtnevents w.poll then { s with numMsgs := s.numMsgs + 1 }
    else { s with ids := Function.update s.ids w (Function.update (s.ids w) elem (-1)) }
  else s

/-- The entries of all the lists are replaced by -1. -/
def blank (elem : Nat) (s : Sel) (w : Which) : Sel :=
  if a.present w then
    { s with ids := Function.update s.ids w (Function.update (s.ids w) elem (-1)) }
  else s

/-- One round of the message loop after the checks. -/
def conclude (elem : Nat) (s : Sel) (t : Turn) : Sel :=
  let s := { s with reqevents := t.reqevents, selchn := t.selchn }
  if t.rtnevents ≠ 0 then
    { lists.foldl (settle t.reqevents t.rtnevents elem) s with reqevMsk := pollSync }
  else
    let s := lists.foldl (blank a elem) s
    { s with reqevMsk := if env.off elem then pollSync else s.reqevMsk }

/-- One round of the message loop. `reqevents` is not reset between the checks. -/
def position (elem : Nat) (s : Sel) : Except Stop Sel := do
  let t ← check a env elem s .read ⟨s.reqevents, 0, fun _ => false, s.selchn⟩
  let t ← check a env elem s .write t
  let t ← check a env elem s .except t
  return conclude a env elem s t

def messageLoop : Nat → Nat → Sel → Except Stop Sel
  | 0, _, s => .ok s
  | n + 1, elem, s => do
    let s ← position a env elem s
    messageLoop n (elem + 1) s

/-! ## Collection and result -/

def collectFd (cb : SelCb) (s : Sel) (w : Which) : Sel :=
  let elem := cb.corl / nbits
  let bit := cb.corl % nbits
  if has (cb.rtnevents &&& cb.reqevents) w.poll ∧ a.present w ∧ ¬isSet (s.mask w elem) bit then
    { s with
      mask := Function.update s.mask w
        (Function.update (s.mask w) elem (setBit (s.mask w elem) bit))
      numFdes := s.numFdes + 1 }
  else s

def collectMsg (cb : SelCb) (s : Sel) (w : Which) : Sel :=
  if a.present w ∧ has (cb.reqevents &&& cb.rtnevents) w.poll then
    { s with
      ids := Function.update s.ids w (Function.update (s.ids w) cb.corl cb.uniqueId)
      numMsgs := s.numMsgs + 1 }
  else s

/-- The run along the thread chain. -/
def collect (fdes : Nat) : List SelCb → Sel → Except Stop Sel
  | [], s => .ok s
  | cb :: selchn, s =>
    if cb.msg then collect fdes selchn (lists.foldl (collectMsg a cb) s)
    else if cb.corl < fdes then collect fdes selchn (lists.foldl (collectFd a cb) s)
    else .error .assertion

/-- The polls, from the copied lists on. -/
def polls (fdes nfilewords msgs : Nat) (reqevMsk : Events) : Except Stop Sel := do
  let s ← wordLoop a env fdes nfilewords 0 ⟨a.mask, a.ids, 0, 0, reqevMsk, 0, []⟩
  messageLoop a env msgs 0 s

/-- The wait, the collection and the copies to the caller's lists. -/
def finish (fdes : Nat) (s : Sel) : Except Stop Returned :=
  if s.reqevMsk = 0 ∧ ¬env.offWait ∧ env.wait ≠ 0 then .error (.error env.wait)
  else do
    let s ← collect a fdes s.selchn s
    if ∃ w, a.present w ∧ ¬env.copyout w then .error (.error EFAULT)
    else .ok ⟨BitVec.ofInt 32 s.numFdes ||| BitVec.ofInt 32 s.numMsgs <<< 16, s.mask, s.ids⟩

def select : Except Stop Returned :=
  let fdes := nfds a.nfdsmsgs
  let msgs := nmsgs a.nfdsmsgs
  let nfilewords := if fdes % nbits ≠ 0 then 1 + fdes / nbits else fdes / nbits
  if a.timeout.isSome ∧ ¬env.timeIn then .error (.error EFAULT)
  else if ∀ w, ¬a.present w then
    -- a timer only
    match chkTimeout a.timeout with
    | none => .error (.error EINVAL)
    | some _ => if env.wait ≠ 0 then .error (.error env.wait) else .ok ⟨0, a.mask, a.ids⟩
  else if (1 < nfilewords ∨ msgs ≠ 0) ∧ ¬env.malloc then .error (.error EAGAIN)
  else if ∃ w, a.present w ∧ ¬env.copyin w then .error (.error EFAULT)
  else
    match chkTimeout a.timeout with
    | none => .error (.error EINVAL)
    | some reqevMsk => do
      let fdes := min fdes openMax
      let s ← polls a env fdes nfilewords msgs reqevMsk
      finish a env fdes s

end Aix413.Select
