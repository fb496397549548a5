import SyncSpirit.UpdateFolder

/-!
# Advancing a local file (`diff/advance/advance.cpp`)

`local_update_t`, `remote_copy_t` and `remote_win_t` share `advance_t::apply_impl`:
a new object of the file is made without blocks, an existing file of the name takes
it over, and then the blocks are assigned and marked one after another.

The nested `add_blocks_t` and `remove_blocks_t` are `Store.addBlock` and
`Store.eraseBlock`; `remote_win_t` takes the file it renames out of the map before.
-/

namespace SyncSpirit

namespace Advance

open Store

/-- The object that is advanced: the file of that name, updated, or a new one. -/
def target (fi : FolderInfoId) (s : Store) (file : FileInfo) : Option (FileId × Store) :=
  match s.byName fi file.name with
  | some prev =>
    (((s.create file).remove fi prev).update prev file).map fun t => (prev, t.destroy s.nextFile)
  | none => some (s.nextFile, s.create file)

/-- The loop over the blocks, from the `i`-th slot on. -/
def assignBlocks (f : FileId) : Store → Nat → List Proto.BlockInfo → Option Store
  | s, _, [] => some s
  | s, i, b :: bs => do
    let hash ← makeStrictHash b.hash
    let block ← s.byHash hash
    let s ← s.assignBlock f block i
    let s ← s.markLocalAvailable f i
    assignBlocks f s (i + 1) bs

/-- The end: the file is local and gets the next sequence. -/
def finish (fi : FolderInfoId) (s : Store) (f : FileId) : Store :=
  let s := s.markLocal f true
  let s := s.setFile f { s.files f with sequence := (s.infos fi).maxSequence + 1 }
  (s.addStrict fi f).2

/-- `advance_t::apply_impl`, in the folder info of the local device. -/
def advanceFile (fi : FolderInfoId) (s : Store) (uuid : Uuid) (f : Proto.FileInfo) :
    Option Store := do
  let file ← FileInfo.fieldsUpdate (s.infos fi).uuid uuid f.fields
  let (g, s) ← target fi s file
  let s ← assignBlocks g s 0 (if f.size ≠ 0 then f.blocks else [])
  return finish fi s g

end Advance

end SyncSpirit
