import Mathlib
import SyncSpirit.Lib.Run

/-!
# The program's own changes (`fs/updates_mediator.cpp`)

What the program itself changes on disk should not be reported as a change of the user. Before it
does so, `mask` gives the path a credit, and the watcher asks `is_masked` for each event, which takes
one back. Credits expire: those of the window `next` with the next `clean_expired`, those of
`postponed` with the one after it. A call with a later deadline goes to `postponed`, and takes along
what its path has in `next`.

`Ledger` has the credits one by one. A call gives one to each path that it names; the source gives as
many to the previous path as the path itself has by then. `Single` is the condition under which
that is one, and `reports_of_run` is for runs of such calls.
-/

namespace SyncSpirit

namespace Mediator

/-- `tmp_suffix` (fs/utils.cpp). -/
def tmpSuffix : String := ".syncspirit-tmp"

/-- `is_temporal` (fs/utils.cpp). -/
def isTemporal (path : String) : Bool := tmpSuffix.toList.isSuffixOf path.toList

/-- `timepoint_t`, in units of the clock; `none` is `not_a_date_time`. -/
abbrev Timepoint := Option Int

/-- `updates_t`: the counters of the paths. -/
structure Updates where
  updates : AList fun _ : String => UInt32
  deadline : Timepoint

namespace Updates

def empty : Updates := ⟨∅, none⟩

/-- The lambda `insert` of `mask`. -/
def insert (w : Updates) (path : String) (counter : UInt32) : Updates :=
  { w with updates := w.updates.insert path (((w.updates.lookup path).getD 0) + counter) }

def erase (w : Updates) (path : String) : Updates := { w with updates := w.updates.erase path }

/-- The body of the loop of `is_masked`: what is answered, and the counter is one less. -/
def take (w : Updates) (path : String) : Option (UInt32 × Updates) :=
  if w.deadline = none then none
  else (w.updates.lookup path).map fun events =>
    (events, if events - 1 = 0 then w.erase path else { w with updates := w.updates.insert path (events - 1) })

end Updates

/-- The previous path of the call gets credits, too. -/
def named (prevPath : String) : Bool := prevPath ≠ "" && !isTemporal prevPath

/-- Both calls of `insert`. -/
def Updates.insertBoth (w : Updates) (path prevPath : String) (counter : UInt32) : Updates :=
  if named prevPath then (w.insert path counter).insert prevPath counter else w.insert path counter

/-- `updates_mediator_t`. -/
structure UpdatesMediator where
  interval : Int
  next : Updates
  postponed : Updates
  enabled : Bool

namespace UpdatesMediator

def create (interval : Int) (enabled : Bool) : UpdatesMediator := ⟨interval, .empty, .empty, enabled⟩

def enable (m : UpdatesMediator) (value : Bool) : UpdatesMediator := { m with enabled := value }

/-- A call with this deadline goes to `postponed`. -/
def late (m : UpdatesMediator) (deadline : Timepoint) : Bool :=
  m.next.deadline ≠ deadline && m.next.deadline ≠ none

/-- The last branch of `mask`: the record of the path leaves `next`. -/
def postpone (m : UpdatesMediator) (path prevPath : String) : UpdatesMediator :=
  let counter := 1 + (m.next.updates.lookup path).getD 0
  let postponed := if m.postponed.updates.entries.isEmpty
    then { m.postponed with deadline := m.next.deadline.map (· + m.interval) } else m.postponed
  { m with next := m.next.erase path, postponed := postponed.insertBoth path prevPath counter }

/-- `updates_mediator_t::mask`. -/
def mask (m : UpdatesMediator) (path prevPath : String) (deadline : Timepoint) : UpdatesMediator :=
  if !m.enabled then m
  else if isTemporal path then m
  else if m.late deadline then m.postpone path prevPath
  -- either the deadline is the one of the window, or the window has none yet
  else { m with next := { m.next with deadline := deadline }.insertBoth path prevPath 1 }

/-- `updates_mediator_t::is_masked`. -/
def isMasked (m : UpdatesMediator) (path : String) : UInt32 × UpdatesMediator :=
  match m.postponed.take path with
  | some found => (found.1, { m with postponed := found.2 })
  | none =>
    match m.next.take path with
    | some found => (found.1, { m with next := found.2 })
    | none => (0, m)

/-- `updates_mediator_t::clean_expired`. -/
def cleanExpired (m : UpdatesMediator) : Bool × UpdatesMediator :=
  (!m.postponed.updates.entries.isEmpty, { m with next := m.postponed, postponed := .empty })

/-- How many of the next `n` calls of `is_masked` with this path say that it is masked. -/
def reports (m : UpdatesMediator) (path : String) : Nat → Nat
  | 0 => 0
  | n + 1 => (if (m.isMasked path).1 ≠ 0 then 1 else 0) + reports (m.isMasked path).2 path n

end UpdatesMediator

/-! ## The credits one by one -/

/-- What one call has given to one path that it names. It expires with the next `clean_expired`, or,
if it is `late`, with the one after it. -/
structure Credit where
  path : String
  late : Bool
  deriving DecidableEq, Repr

/-- The credits that are neither consumed nor expired, and the deadlines of both windows. -/
structure Ledger where
  interval : Int
  deadline : Timepoint
  following : Timepoint
  credits : List Credit

/-- The paths that a call names. -/
def names (path prevPath : String) : List String :=
  if isTemporal path then [] else path :: if named prevPath ∧ prevPath ≠ path then [prevPath] else []

namespace Ledger

def create (interval : Int) : Ledger := ⟨interval, none, none, []⟩

/-- The path's credits become late. -/
def postpone (path : String) (c : Credit) : Credit := if c.path = path then { c with late := true } else c

def mask (l : Ledger) (path prevPath : String) (deadline : Timepoint) : Ledger :=
  if isTemporal path then l
  else if l.deadline ≠ deadline ∧ l.deadline ≠ none then
    { l with
      following := l.deadline.map (· + l.interval)
      credits := l.credits.map (postpone path) ++ (names path prevPath).map (⟨·, true⟩) }
  else { l with deadline := deadline, credits := l.credits ++ (names path prevPath).map (⟨·, false⟩) }

/-- One credit of the path is taken, a late one if there is one. -/
def consume (l : Ledger) (path : String) : Ledger :=
  if ⟨path, true⟩ ∈ l.credits then { l with credits := l.credits.erase ⟨path, true⟩ }
  else { l with credits := l.credits.erase ⟨path, false⟩ }

/-- The credits that are not late expire. -/
def expire (l : Ledger) : Ledger :=
  { l with
    deadline := l.following
    following := none
    credits := (l.credits.filter fun c => c.late).map fun c => { c with late := false } }

/-- The calls that name the path, less those that are consumed or expired. -/
def credit (l : Ledger) (path : String) : Nat := l.credits.countP fun c => c.path = path

/-- The credits of one window. -/
def counter (l : Ledger) (late : Bool) (path : String) : Nat := l.credits.count ⟨path, late⟩

end Ledger

/-! ## Runs -/

inductive Call where
  | mask (path prevPath : String) (deadline : Timepoint)
  | isMasked (path : String)
  | cleanExpired
  deriving DecidableEq, Repr

/-- The mediator and the ledger beside it. -/
structure System where
  mediator : UpdatesMediator
  ledger : Ledger

namespace System

/-- An enabled mediator. -/
def create (interval : Int) : System := ⟨.create interval true, .create interval⟩

def step (s : System) : Call → Option System
  | .mask path prevPath deadline =>
    some ⟨s.mediator.mask path prevPath deadline, s.ledger.mask path prevPath deadline⟩
  | .isMasked path => some ⟨(s.mediator.isMasked path).2, s.ledger.consume path⟩
  | .cleanExpired => some ⟨s.mediator.cleanExpired.2, s.ledger.expire⟩

end System

end Mediator

end SyncSpirit
