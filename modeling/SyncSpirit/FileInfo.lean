import SyncSpirit.Version

/-!
# Files of the model (`model/file_info.h`)

`file_info_t` is the in-memory record of one file of one device. Its `content`
is a union: a regular file owns a vector of block slots, everything else owns a
link target. A slot is a pointer to a `block_info_t` whose lowest bit,
`LOCAL_MASK`, says that the block's bytes are on the local disk at this slot's
offset.

Only the data and its readers are here; the operations that touch the blocks a
file refers to are in `SyncSpirit.Store`.
-/

namespace SyncSpirit

/-- `bu::uuid`: `uuid_length` bytes. -/
structure Uuid where
  bytes : Bytes
  length_bytes : bytes.length = 16
  deriving DecidableEq, Repr

instance : Inhabited Uuid := ⟨⟨List.replicate 16 0, rfl⟩⟩

/-- The uuid that ends in the given byte. -/
def Uuid.ofByte (b : UInt8) : Uuid := ⟨List.replicate 15 0 ++ [b], rfl⟩

/-- The address of a `block_info_t`. -/
abbrev BlockId := Nat

/-- The address of a `file_info_t`. -/
abbrev FileId := Nat

/-- The three type bits of `flags_t`; exactly one is set. -/
inductive FileType where
  | file
  | dir
  | link
  deriving DecidableEq, Repr, Inhabited

/-- `file_info_t::as_flags`: every kind that is neither a directory nor a
`SYMLINK` counts as a regular file. -/
def asFlags : Proto.FileInfoType → FileType
  | .directory => .dir
  | .symlink => .link
  | _ => .file

/-- `file_info_t::as_type`. -/
def asType : FileType → Proto.FileInfoType
  | .dir => .directory
  | .link => .symlink
  | .file => .file

@[simp] theorem asFlags_asType (t : FileType) : asFlags (asType t) = t := by
  cases t <;> rfl

/-- A block slot: the block it points to and the `LOCAL_MASK` bit. -/
abbrev Slot := BlockId × Bool

/-- `content_t`: `none` is a null slot, reserved and not assigned yet. -/
inductive Content where
  | file (blocks : List (Option Slot))
  | nonFile (symlinkTarget : String)
  deriving DecidableEq, Repr, Inhabited

/-- `file_info_t`. The bits of `flags` are separate fields. -/
structure FileInfo where
  folderUuid : Uuid
  uuid : Uuid
  name : String
  modifiedS : Int
  modifiedBy : UInt64
  sequence : Int
  permissions : UInt32
  modifiedNs : UInt32
  content : Content
  version : Version
  type : FileType
  deleted : Bool
  invalid : Bool
  noPermissions : Bool
  unreachable : Bool
  isLocal : Bool
  available : Bool
  deriving DecidableEq, Repr, Inhabited

namespace FileInfo

/-- `content.file.blocks` of a regular file; a link or a directory has none. -/
def slots (f : FileInfo) : List (Option Slot) :=
  match f.content with
  | .file blocks => blocks
  | .nonFile _ => []

/-- The pointers of the slots without `LOCAL_MASK`. -/
def targets (f : FileInfo) : List (Option BlockId) := f.slots.map fun v => v.map Prod.fst

/-- Other block slots of a regular file. -/
def setSlots (f : FileInfo) (slots : List (Option Slot)) : FileInfo :=
  match f.content with
  | .file _ => { f with content := .file slots }
  | .nonFile _ => f

/-- Another `f_available`. -/
def setAvailable (f : FileInfo) (value : Bool) : FileInfo := { f with available := value }

/-- Another `content`. -/
def setContent (f : FileInfo) (content : Content) : FileInfo := { f with content := content }

/-- `file_info_t::is_file`. -/
def isFile (f : FileInfo) : Bool := f.type = .file

/-- `file_info_t::is_link`. -/
def isLink (f : FileInfo) : Bool := f.type = .link

/-- The member of `content` in use is the one the type bits announce. -/
def Coherent (f : FileInfo) : Prop := f.isFile = true ↔ ∃ blocks, f.content = .file blocks

theorem Coherent.slots_eq_nil {f : FileInfo} (h : f.Coherent) (hf : f.isFile = false) :
    f.slots = [] := by
  cases hc : f.content with
  | file blocks =>
    have : f.isFile = true := h.mpr ⟨blocks, hc⟩
    rw [hf] at this
    cases this
  | nonFile target => simp [slots, hc]

@[simp] theorem isFile_setSlots (f : FileInfo) (l : List (Option Slot)) :
    (f.setSlots l).isFile = f.isFile := by
  unfold setSlots
  split <;> rfl

@[simp] theorem available_setSlots (f : FileInfo) (l : List (Option Slot)) :
    (f.setSlots l).available = f.available := by
  unfold setSlots
  split <;> rfl

@[simp] theorem slots_setAvailable (f : FileInfo) (a : Bool) : (f.setAvailable a).slots = f.slots := rfl

@[simp] theorem isFile_setAvailable (f : FileInfo) (a : Bool) :
    (f.setAvailable a).isFile = f.isFile := rfl

@[simp] theorem setAvailable_setAvailable (f : FileInfo) (a b : Bool) :
    (f.setAvailable a).setAvailable b = f.setAvailable b := rfl

@[simp] theorem setAvailable_setSlots (f : FileInfo) (l : List (Option Slot)) (a : Bool) :
    (f.setAvailable a).setSlots l = (f.setSlots l).setAvailable a := by
  unfold setSlots setAvailable
  cases hc : f.content <;> simp only [hc]

@[simp] theorem setSlots_setSlots (f : FileInfo) (l l' : List (Option Slot)) :
    (f.setSlots l).setSlots l' = f.setSlots l' := by
  unfold setSlots
  cases hc : f.content <;> simp [hc]

@[simp] theorem setSlots_slots (f : FileInfo) : f.setSlots f.slots = f := by
  unfold setSlots slots
  cases f with
  | mk _ _ _ _ _ _ _ _ content =>
    cases content <;> rfl

/-- Other slots are another content. -/
theorem setSlots_eq (f : FileInfo) (l : List (Option Slot)) :
    f.setSlots l = f.setContent (f.setSlots l).content := by
  unfold setSlots setContent
  cases hc : f.content with
  | file blocks => rfl
  | nonFile target => rfl

theorem Coherent.setSlots {f : FileInfo} (h : f.Coherent) (l : List (Option Slot)) :
    (f.setSlots l).Coherent := by
  unfold Coherent at h ⊢
  rw [isFile_setSlots, h]
  unfold FileInfo.setSlots
  cases hc : f.content <;> simp [hc]

theorem slots_setSlots {f : FileInfo} {blocks : List (Option Slot)} (h : f.content = .file blocks)
    (l : List (Option Slot)) : (f.setSlots l).slots = l := by
  simp [setSlots, slots, h]

theorem slots_setSlots_nil (f : FileInfo) (g : List (Option Slot) → List (Option Slot))
    (hg : g [] = []) : (f.setSlots (g f.slots)).slots = g f.slots := by
  unfold setSlots slots
  cases hc : f.content with
  | file blocks => rfl
  | nonFile target => simp [hc, hg]

end FileInfo

end SyncSpirit
