import SyncSpirit.FileInfo
import SyncSpirit.Lib.Run
import SyncSpirit.ScanDeletions

/-!
# The stack of a folder context (`net/local_keeper/folder_context.cpp`)

The work of a scan is a stack. `process_stack` calls the handler of the item in front, and erases the item
unless its result is negative; a handler may push new items in front of it, and three of them erase items
themselves. `post_process` pushes what a finished task has found.

An item has a number of its own, which stands for the iterator to it: to erase an item that is not there any
more is `none`. What the handlers look up (the model, the clock, the hash pool) is in `World`; of their results only
those for the stack and for the tasks are modelled.
-/

namespace SyncSpirit

namespace ScanStack

open ScanDeletions (Features)

variable {π P : Type}

/-! ## Items -/

/-- `child_info_t`. -/
structure ChildInfo (π : Type) where
  path : π
  type : FileType
  size : Nat
  deriving DecidableEq

/-- The three kinds of `hash_base_t`. -/
inductive HashKind where
  | newFile
  | existingFile
  | incompleteFile
  deriving DecidableEq, Repr

/-- `stack_item_t`. -/
inductive Item (π P : Type) where
  | unscannedDir (path : π)
  | unexamined (info : ChildInfo π) (recurse : Bool)
  | incomplete (info : ChildInfo π)
  | completeScan
  | childReady (info : ChildInfo π) (hasBlocks : Bool)
  | undoChildReady (path : π)
  | hash (kind : HashKind) (info : ChildInfo π) (unprocessedBlocks : Nat)
  | rehashedIncomplete (info : ChildInfo π)
  | abortHashing (path : π)
  | removedDir (presence : P)
  | confirmedDeleted (presence : P)
  | suspendScan
  | unsuspendScan
  deriving DecidableEq

/-- An item on the stack. -/
structure Entry (π P : Type) where
  number : Nat
  item : Item π P
  deriving DecidableEq

/-- Why an item has left the stack: `process_stack` has erased it, or the handler of another item, or the folder
is not in the model any more. -/
inductive Fate (π P : Type) where
  | processed
  | undone (undo : Entry π P)
  | suspended (suspend : Entry π P)
  | aborted (abort : Entry π P)
  | cleared
  deriving DecidableEq

structure Removal (π P : Type) where
  entry : Entry π P
  fate : Fate π P
  deriving DecidableEq

/-- `folder_context_t`: the stack and the number of tasks in `pending_io`. `log` is what has left the stack. -/
structure Context (π P : Type) where
  stack : List (Entry π P)
  nextNumber : Nat
  pendingIo : Nat
  log : List (Removal π P)
  deriving DecidableEq

namespace Context

/-- A context with these items. -/
def start (items : List (Item π P)) : Context π P :=
  ⟨items.zipIdx.map fun p => ⟨p.2, p.1⟩, items.length, 0, []⟩

/-- `stack.push_front`. -/
def pushFront (c : Context π P) (item : Item π P) : Context π P :=
  { c with stack := ⟨c.nextNumber, item⟩ :: c.stack, nextNumber := c.nextNumber + 1 }

/-- `push` of so many tasks. -/
def pushTasks (c : Context π P) (n : Nat) : Context π P := { c with pendingIo := c.pendingIo + n }

/-- `stack.erase`. -/
def erase (c : Context π P) (number : Nat) (fate : Fate π P) : Option (Context π P) :=
  (c.stack.find? fun e => e.number = number).map fun e =>
    { c with stack := c.stack.eraseP fun e => e.number = number, log := c.log ++ [⟨e, fate⟩] }

end Context

/-! ## The handlers -/

/-- A file of the model, and whether the one on disk is the same. -/
structure Known where
  deleted : Bool
  matched : Bool
  deriving DecidableEq, Repr

/-- What a temporary file is for. -/
inductive Leftover where
  | ignored
  | removed
  | rehashed
  deriving DecidableEq, Repr

/-- The surroundings of a handler: `file` is `fetch_model`, `recent` whether the file has been modified a moment ago,
`scheduled` whether it is in `hashing_files`, `scannedSince` whether the directory has been scanned again,
`idle` whether no other task is under way, `errored` whether a file to be hashed has blocks with errors,
`totalBlocks` what its constructor computes, and `follow` whether a rehashed file leads to a task. -/
structure World (π P : Type) where
  file : Option Known
  folderPath : π
  isTemporal : π → Bool
  recent : Bool
  scheduled : Bool
  scannedSince : Bool
  idle : Bool
  overused : Bool
  errored : Bool
  hashesPool : Nat
  totalBlocks : Nat
  leftover : Leftover
  follow : Bool
  features : P → Features
  children : P → List P

/-- What a handler that erases nothing does: the item as it is left, what is pushed, and the result. -/
structure Effect (π P : Type) where
  item : Item π P
  pushed : List (Item π P)
  tasks : Nat
  result : Int

section Handlers

variable [DecidableEq π]

/-- `process(complete_scan_t)`. -/
def completeScan (w : World π P) (pendingIo : Nat) : Effect π P :=
  ⟨.completeScan, [], 0, if pendingIo = 0 ∧ w.idle then 1 else -1⟩

/-- `process(unscanned_dir_t)`. -/
def unscannedDir (w : World π P) (path : π) : Effect π P :=
  if w.scannedSince then ⟨.unscannedDir path, [], 0, 1⟩ else ⟨.unscannedDir path, [], 1, 0⟩

/-- `process(unexamined_t)`. A directory is scanned before it is ready, unless it is the folder itself. -/
def unexamined (w : World π P) (info : ChildInfo π) (recurse : Bool) : Effect π P :=
  let pushed : List (Item π P) :=
    match info.type with
    | .dir =>
      (if info.path = w.folderPath then [] else [.childReady info false]) ++
        if recurse || w.file.isNone then [.unscannedDir info.path] else []
    | .link => [.childReady info false]
    | .file =>
      if w.isTemporal info.path && w.recent then []
      else if info.size = 0 || w.file.isSome then [.childReady info false]
      else if w.scheduled then []
      else [.hash .newFile info w.totalBlocks]
  ⟨.unexamined info recurse, pushed, 0, 1⟩

/-- `process(child_ready_t)`. -/
def childReady (w : World π P) (info : ChildInfo π) (hasBlocks : Bool) : Effect π P :=
  let changed := match w.file with
    | none => true
    | some file => file.deleted || !file.matched
  let pushed := if changed && info.size ≠ 0 && !hasBlocks then [.hash .existingFile info w.totalBlocks] else []
  ⟨.childReady info hasBlocks, pushed, 0, 1⟩

/-- `schedule_hash`. -/
def scheduleHash (w : World π P) (kind : HashKind) (info : ChildInfo π) (unprocessedBlocks : Nat) : Effect π P :=
  if w.errored then ⟨.hash kind info unprocessedBlocks, [], 0, 1⟩
  else if w.hashesPool = 0 then ⟨.hash kind info unprocessedBlocks, [], 0, -1⟩
  else
    let left := unprocessedBlocks - min w.hashesPool unprocessedBlocks
    ⟨.hash kind info left, [], 1, if left ≠ 0 then -1 else 0⟩

/-- `process(confirmed_deleted_t)`. What is pushed to `dirs_stack` is turned around when it is moved to the stack. -/
def confirmedDeleted (w : World π P) (presence : P) : Effect π P :=
  let dirs := (w.children presence).filter fun p => (w.features p).isLocal && (w.features p).directory
  ⟨.confirmedDeleted presence, dirs.reverse.map .confirmedDeleted, 0, 1⟩

/-- `process(incomplete_t)`. -/
def incomplete (w : World π P) (info : ChildInfo π) : Effect π P :=
  match w.leftover with
  | .ignored => ⟨.incomplete info, [], 0, 1⟩
  | .removed => ⟨.incomplete info, [], 1, 1⟩
  | .rehashed => ⟨.incomplete info, [.hash .incompleteFile info w.totalBlocks], 0, 1⟩

/-- `process(rehashed_incomplete_t)`. -/
def rehashedIncomplete (w : World π P) (info : ChildInfo π) : Effect π P :=
  ⟨.rehashedIncomplete info, [], if w.follow then 1 else 0, 1⟩

/-- A child that is ready, with this path. -/
def Item.isReady (path : π) : Item π P → Bool
  | .childReady info _ => info.path = path
  | _ => false

/-- `process(undo_child_ready_t)`: the first child with the path. The search starts at the item itself. -/
def undoChildReady (c : Context π P) (e : Entry π P) (path : π) : Option (Context π P) :=
  match c.stack.find? fun e => e.item.isReady path with
  | some found => c.erase found.number (.undone e)
  | none => some c

/-- `process(suspend_scan_t)`: everything between the item and the last one. -/
def suspendScan (c : Context π P) (e : Entry π P) : Option (Context π P) :=
  c.stack.tail.dropLast.foldlM (fun c e' => c.erase e'.number (.suspended e)) c

/-- `process(abort_hashing_t)`. `stack.begin()++` is the first item, which is the one that is processed. -/
def abortHashing (c : Context π P) (e : Entry π P) : Option (Context π P) :=
  match c.stack.head? with
  | some first => c.erase first.number (.aborted e)
  | none => some c

/-- A handler has had its effect. -/
def Context.apply (c : Context π P) (effect : Effect π P) : Context π P :=
  let stack := match c.stack with
    | [] => []
    | e :: rest => { e with item := effect.item } :: rest
  (effect.pushed.foldl Context.pushFront { c with stack := stack }).pushTasks effect.tasks

/-- `process` of the item in front, with its result. -/
def process (w : World π P) (c : Context π P) (e : Entry π P) : Option (Context π P × Int) :=
  let plain (effect : Effect π P) : Option (Context π P × Int) := some (c.apply effect, effect.result)
  match e.item with
  | .unscannedDir path => plain (unscannedDir w path)
  | .unexamined info recurse => plain (unexamined w info recurse)
  | .incomplete info => plain (incomplete w info)
  | .completeScan => plain (completeScan w c.pendingIo)
  | .childReady info hasBlocks => plain (childReady w info hasBlocks)
  | .undoChildReady path => (undoChildReady c e path).map fun c => (c, 1)
  | .hash kind info unprocessedBlocks => plain (scheduleHash w kind info unprocessedBlocks)
  | .rehashedIncomplete info => plain (rehashedIncomplete w info)
  | .abortHashing _ => (abortHashing c e).map fun c => (c, 1)
  | .removedDir presence => plain ⟨.removedDir presence, [], 0, 1⟩
  | .confirmedDeleted presence => plain (confirmedDeleted w presence)
  | .suspendScan => (suspendScan c e).map fun c => (c, 1)
  | .unsuspendScan => plain ⟨.unsuspendScan, [], 0, 1⟩

/-- One round of `process_stack`, and whether there is another one. -/
def round (w : World π P) (c : Context π P) : Option (Context π P × Bool) :=
  match c.stack with
  | [] => some (c, false)
  | e :: _ => do
    let (c, r) ← process w c e
    let c ← if 0 ≤ r ∧ c.stack ≠ [] then c.erase e.number .processed else some c
    if 0 < r then
      if w.overused && c.stack ≠ [] && c.pendingIo = 0 then return (c.pushTasks 1, false) else return (c, true)
    else return (c, false)

/-- `process_stack`, with the surroundings of its rounds. -/
def processStack : List (World π P) → Context π P → Option (Context π P)
  | [], c => some c
  | w :: ws, c => do
    let (c, next) ← round w c
    if next then processStack ws c else return c

end Handlers

/-! ## `post_process` -/

/-- The outcome of a file that has been hashed. -/
inductive Hashed where
  | childReady
  | rehashedIncomplete
  | abortHashing
  deriving DecidableEq, Repr

/-- The last block of a file has been hashed. -/
def Context.hashed (c : Context π P) (info : ChildInfo π) : Hashed → Context π P
  | .childReady => c.pushFront (.childReady info true)
  | .rehashedIncomplete => c.pushFront (.rehashedIncomplete info)
  | .abortHashing => c.pushFront (.abortHashing info.path)

/-- A file that a scan has found. -/
structure Child (π : Type) where
  info : ChildInfo π
  validName : Bool
  failed : Bool

/-- `scan_dir_t` with what is said about it by the model: whether it is the folder itself and the folder is
suspended, what has been found, and which local presences have not. -/
structure Scan (π P : Type) where
  path : π
  isRoot : Bool
  suspended : Bool
  failed : Bool
  retried : Bool
  recurse : Bool
  children : List (Child π)
  missing : List P

/-- A file that has been found. -/
def Context.found (w : World π P) (scan : Scan π P) (c : Context π P) (child : Child π) : Context π P :=
  if !child.validName || child.failed then c
  else if w.isTemporal child.info.path then c.pushFront (.incomplete child.info)
  else c.pushFront (.unexamined child.info scan.recurse)

/-- The presences that have not been found, through `dirs_stack`. -/
def missingItems (w : World π P) (scan : Scan π P) : List (Item π P) :=
  (scan.missing.filterMap fun p =>
    if (w.features p).deleted then some (.confirmedDeleted p)
    else if (w.features p).directory then some (.removedDir p)
    else none).reverse

/-- The child that was in front before the scan is in front again. -/
def Context.moveDone (c : Context π P) (done : Option (Entry π P)) : Context π P :=
  match done with
  | none => c
  | some done => { c with stack := done :: c.stack.eraseP fun e => e.number = done.number }

/-- `post_process(scan_dir_t)`. The error of a single child that is gone leads to another task. -/
def Context.scanned (w : World π P) (c : Context π P) (scan : Scan π P) : Context π P :=
  if scan.isRoot && scan.failed then c.pushFront .suspendScan
  else
    let c := if scan.isRoot && scan.suspended then c.pushFront .unsuspendScan else c
    let done := c.stack.head?.filter fun e => match e.item with
      | .childReady _ _ => true
      | _ => false
    if scan.failed then
      if scan.retried then c.pushTasks 1 else c.pushFront (.undoChildReady scan.path)
    else
      let c := scan.children.foldl (Context.found w scan) c
      ((missingItems w scan).foldl Context.pushFront c).moveDone done

/-- `ensure_folder_existance` of a folder that is not in the model any more. -/
def Context.clear (c : Context π P) : Context π P :=
  ⟨[], c.nextNumber, 0, c.log ++ c.stack.map fun e => ⟨e, .cleared⟩⟩

/-! ## Events -/

/-- What happens to a context: a round of `process_stack`, and what `post_process` is told. -/
inductive Event (π P : Type) where
  | round (w : World π P)
  | scanned (w : World π P) (scan : Scan π P)
  | hashed (info : ChildInfo π) (outcome : Hashed)
  | tasks (n : Nat)
  | popTask
  | clear

def step [DecidableEq π] (c : Context π P) : Event π P → Option (Context π P)
  | .round w => (round w c).map Prod.fst
  | .scanned w scan => some (c.scanned w scan)
  | .hashed info outcome => some (c.hashed info outcome)
  | .tasks n => some (c.pushTasks n)
  | .popTask => some { c with pendingIo := c.pendingIo - 1 }
  | .clear => some c.clear

end ScanStack

end SyncSpirit
