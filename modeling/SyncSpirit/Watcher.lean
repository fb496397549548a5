import Mathlib
import SyncSpirit.Lib.Keyed
import SyncSpirit.Lib.Run

/-!
# Changes on disk (`fs/platform/watcher_base.cpp`)

The watcher collects what it hears about the files of a folder and reports it after a
while. There are two windows: what is in `next` is reported when the timer fires, and what
comes later waits in `postponed`. A new event is merged with a record of the same path or
of the path the file has been renamed from.

`System` has, next to the watcher, what is really on disk and what the reports say is there.
The mask of the mediator, which hides the program's own changes, is left out.
-/

namespace SyncSpirit

namespace Watcher

/-- `update_type_t`. -/
inductive Kind where
  | created
  | deleted
  | metadata
  | content
  deriving DecidableEq, Repr

/-- `update_type_internal_t`, bit by bit. The bit `CREATED` is never set in a record. -/
structure UpdateType where
  created1 : Bool
  deleted : Bool
  metadata : Bool
  content : Bool
  deriving DecidableEq, Repr

/-- The type of a new record. -/
def Kind.updateType : Kind → UpdateType
  | .created => ⟨true, false, false, false⟩
  | .deleted => ⟨false, true, false, false⟩
  | .metadata => ⟨false, false, true, false⟩
  | .content => ⟨false, false, false, true⟩

/-- `CONTENT_LIKE`. -/
def UpdateType.contentLike (t : UpdateType) : Bool := t.content || t.created1

/-- `file_update_t`. The paths are relative to the folder; an empty `prevPath` is none. -/
structure FileUpdate where
  path : String
  prevPath : String
  type : UpdateType
  requiresRefinement : Bool
  deriving DecidableEq, Repr

/-- `file_updates_t`: one record for a path. -/
structure Window where
  records : List FileUpdate
  nodup : (records.map FileUpdate.path).Nodup

namespace Window

def empty : Window := ⟨[], List.nodup_nil⟩

/-- `find`. -/
def find (w : Window) (path : String) : Option FileUpdate := w.records.find? fun r => r.path = path

/-- `erase`. -/
def erase (w : Window) (path : String) : Window :=
  ⟨w.records.filter fun r => r.path ≠ path, Keyed.nodup_filter w.nodup _⟩

theorem find_eq_some {w : Window} {path : String} {r : FileUpdate} :
    w.find path = some r ↔ r ∈ w.records ∧ r.path = path := Keyed.find?_iff w.nodup

theorem find_eq_none {w : Window} {path : String} : w.find path = none ↔ ∀ r ∈ w.records, r.path ≠ path := by
  unfold find
  rw [List.find?_eq_none]
  simp

/-- `insert` and `emplace`: a record of the path that is there stays. -/
def insert (w : Window) (r : FileUpdate) : Window :=
  if h : w.find r.path = none then ⟨w.records ++ [r], Keyed.nodup_append w.nodup (find_eq_none.mp h)⟩ else w

end Window

/-! ## `folder_update_t::update` -/

/-- The window that is written and the one before it, if there is one. -/
structure Windows where
  target : Window
  source : Window

/-- The record that a new one is merged with, and whether it is in the earlier window. -/
def Windows.locate (ws : Windows) (path prevPath : String) : Option (FileUpdate × Bool) :=
  ((ws.target.find path).map (·, false)) <|> ((ws.target.find prevPath).map (·, false)) <|>
    ((ws.source.find path).map (·, true)) <|> ((ws.source.find prevPath).map (·, true))

/-- The record leaves its window. -/
def Windows.take (ws : Windows) (found : FileUpdate × Bool) : Windows :=
  if found.2 then { ws with source := ws.source.erase found.1.path }
  else { ws with target := ws.target.erase found.1.path }

def Windows.insert (ws : Windows) (r : FileUpdate) : Windows := { ws with target := ws.target.insert r }

/-- A change and a rename become a deletion and a creation. -/
def Windows.split (ws : Windows) (found : FileUpdate × Bool) (gone : String) (new : FileUpdate) : Windows :=
  ((ws.take found).insert ⟨gone, "", ⟨false, true, false, false⟩, found.1.requiresRefinement⟩).insert
    { new with type := ⟨true, false, false, false⟩, prevPath := "" }

/-- A record replaces another one. The other path and the creation are not forgotten. -/
def Windows.replace (ws : Windows) (found : FileUpdate × Bool) (new : FileUpdate) : Windows :=
  (ws.take found).insert
    { path := new.path
      prevPath := if found.1.prevPath ≠ "" then found.1.prevPath else new.prevPath
      type := { new.type with created1 := new.type.created1 || found.1.type.created1 }
      requiresRefinement := found.1.requiresRefinement || new.requiresRefinement }

/-- A change of the content counts more than one of the metadata. -/
def FileUpdate.preferContent (new : FileUpdate) (prev : UpdateType) : FileUpdate :=
  if prev.contentLike && new.type.metadata then { new with type := prev } else new

/-- `folder_update_t::update` with the record found. `none` if nothing is recorded: a rename back. -/
def Windows.merge (ws : Windows) (found : FileUpdate × Bool) (new : FileUpdate) : Option Windows :=
  let prev := found.1
  if prev.type = Kind.metadata.updateType ∧ new.type = Kind.metadata.updateType ∧ prev.prevPath = new.path then none
  else if prev.type.contentLike ∧ new.type.metadata ∧ new.prevPath ≠ "" then
    some (ws.split found new.prevPath new)
  else
    let new := new.preferContent prev.type
    if prev.type.metadata ∧ prev.prevPath ≠ "" ∧ new.type.contentLike then
      some (ws.split found prev.prevPath new)
    else some (ws.replace found new)

/-- `folder_update_t::update`. -/
def Windows.update (ws : Windows) (new : FileUpdate) : Option Windows :=
  match ws.locate new.path new.prevPath with
  | some found => ws.merge found new
  | none => some (ws.insert new)

/-! ## `folder_update_t::make` -/

/-- A change that is reported: `payload::file_info_t`. -/
inductive Report where
  | deleted (name : String)
  | changed (name prevPath : String) (reason : Kind)
  deriving DecidableEq, Repr

/-- Why something that is there is reported. -/
def UpdateType.reason (t : UpdateType) : Kind :=
  if t.created1 then .created else if t.content then .content else .metadata

/-- One record. What is not on disk any more is not reported. `none` is the assertion that only a
change of the metadata has another path. -/
def FileUpdate.make (disk : Finset String) (r : FileUpdate) : Option (Option Report) :=
  if r.type.deleted then
    if r.type.created1 then some none
    else some (some (.deleted (if r.prevPath ≠ "" then r.prevPath else r.path)))
  else if r.path ∈ disk then
    if r.prevPath = "" ∨ r.type.reason = .metadata then some (some (.changed r.path r.prevPath r.type.reason))
    else none
  else some none

/-- `make`. -/
def Window.make (w : Window) (disk : Finset String) : Option (List Report) :=
  (w.records.mapM (FileUpdate.make disk)).map fun l => l.filterMap id

/-! ## The watcher and the disk -/

/-- A raw event. -/
inductive Change where
  | created (path : String)
  | deleted (path : String)
  | content (path : String)
  | metadata (path : String)
  | renamed (prevPath path : String)
  deriving DecidableEq, Repr

/-- What has happened on disk. -/
def Change.perform (disk : Finset String) : Change → Finset String
  | .created path => insert path disk
  | .deleted path => disk.erase path
  | .content _ | .metadata _ => disk
  | .renamed prevPath path => insert path (disk.erase prevPath)

/-- The record of an event. A rename is a change of the metadata with another path. -/
def Change.record (requiresRefinement : Bool) : Change → FileUpdate
  | .created path => ⟨path, "", Kind.created.updateType, requiresRefinement⟩
  | .deleted path => ⟨path, "", Kind.deleted.updateType, requiresRefinement⟩
  | .content path => ⟨path, "", Kind.content.updateType, requiresRefinement⟩
  | .metadata path => ⟨path, "", Kind.metadata.updateType, requiresRefinement⟩
  | .renamed prevPath path => ⟨path, prevPath, Kind.metadata.updateType, requiresRefinement⟩

/-- The path that a report takes away. -/
def Report.removes : Report → Option String
  | .deleted name => some name
  | .changed _ prevPath _ => if prevPath = "" then none else some prevPath

/-- The path that a report says is there. -/
def Report.adds : Report → Option String
  | .deleted _ => none
  | .changed name _ _ => some name

/-- The reports are applied: what is gone first. -/
def applyReports (reports : List Report) (known : Finset String) : Finset String :=
  (known.filter fun x => x ∉ reports.filterMap Report.removes) ∪ (reports.filterMap Report.adds).toFinset

/-- The watcher, what is on disk, and what the reports say is there. `running` says that the timer is
on, so `next` has a deadline. -/
structure System where
  next : Window
  postponed : Window
  running : Bool
  disk : Finset String
  known : Finset String

/-- What happens: an event, whose deadline is the one of `next` or a later one, or the timer. -/
inductive Event where
  | push (late : Bool) (e : Change) (requiresRefinement : Bool)
  | finish
  deriving DecidableEq, Repr

namespace System

/-- The windows that an event meets. -/
def windows (s : System) (late : Bool) : Windows :=
  if s.running && late then ⟨s.postponed, s.next⟩ else ⟨s.next, Window.empty⟩

/-- The windows after an event. -/
def setWindows (s : System) (late : Bool) (ws : Windows) : System :=
  if s.running && late then { s with postponed := ws.target, next := ws.source }
  else { s with next := ws.target, running := true }

/-- `push`. -/
def push (s : System) (late : Bool) (e : Change) (requiresRefinement : Bool) : System :=
  let s' := { s with disk := e.perform s.disk }
  match (s.windows late).update (e.record requiresRefinement) with
  | some ws => s'.setWindows late ws
  | none => s'

/-- `on_retension_finish`. -/
def finish (s : System) : Option System :=
  if s.running then
    (s.next.make s.disk).map fun reports =>
      { s with
        next := s.postponed
        postponed := Window.empty
        running := s.postponed.records ≠ []
        known := applyReports reports s.known }
  else none

/-- One event; `none` if it is not possible or an assertion fails. -/
def step (s : System) : Event → Option System
  | .push late e requiresRefinement => some (s.push late e requiresRefinement)
  | .finish => s.finish

/-- Nothing has been heard yet. -/
def initial (disk : Finset String) : System := ⟨Window.empty, Window.empty, false, disk, disk⟩

end System

end Watcher

end SyncSpirit
