import Mathlib

/-!
# Messages of the block exchange protocol and database records

The plain data that `proto-fwd.hpp` declares through `pp::message`: what a peer
sends (`Counter`, `Vector`, `BlockInfo`, `FileInfo`, `IndexBase`, `ClusterConfig`) and what the
database stores for a file (`Db.FileInfo`). A field that the wire format omits
is read through `value_or(default)`, so a record always carries a value here.

Field widths follow the declarations wherever a conversion depends on them
(`UInt64` counters, the signed 32-bit block size and nanoseconds); the signed
64-bit sizes, times and sequences are only compared and added, hence `Int`.
-/

namespace SyncSpirit

/-- `utils::bytes_t`. -/
abbrev Bytes := List UInt8

instance Bytes.lawfulBEq : LawfulBEq Bytes := inferInstance

namespace Proto

/-- One entry of a version vector. -/
structure Counter where
  id : UInt64
  value : UInt64
  deriving DecidableEq, Repr, Inhabited

/-- A version vector as it travels. -/
structure Vector where
  counters : List Counter
  deriving DecidableEq, Repr, Inhabited

/-- `proto::FileInfoType`, the two deprecated link kinds included. -/
inductive FileInfoType where
  | file
  | directory
  | symlinkFile
  | symlinkDirectory
  | symlink
  deriving DecidableEq, Repr, Inhabited

/-- A block of a file as announced by a peer. -/
structure BlockInfo where
  size : Int32
  hash : Bytes
  offset : Int
  deriving DecidableEq, Repr, Inhabited

/-- A file as announced by a peer. -/
structure FileInfo where
  name : String
  type : FileInfoType
  size : Int
  permissions : UInt32
  modifiedS : Int
  modifiedNs : Int32
  modifiedBy : UInt64
  deleted : Bool
  invalid : Bool
  noPermissions : Bool
  version : Vector
  sequence : Int
  blockSize : Int32
  blocks : List BlockInfo
  symlinkTarget : String
  deriving DecidableEq, Repr, Inhabited

/-- A device a folder is shared with, as announced by a peer. -/
structure Device where
  id : Bytes
  addresses : List String
  index : UInt64
  maxSequence : Int
  introducer : Bool
  skipIntroductionRemovals : Bool
  deriving DecidableEq, Repr, Inhabited

/-- A folder of a peer. -/
structure Folder where
  id : String
  label : String
  devices : List Device
  deriving DecidableEq, Repr, Inhabited

/-- `proto::ClusterConfig`. -/
structure ClusterConfig where
  folders : List Folder
  deriving DecidableEq, Repr, Inhabited

/-- `proto::IndexBase`: the common shape of `Index` and `IndexUpdate`. -/
structure IndexBase where
  folder : String
  files : List FileInfo
  deriving DecidableEq, Repr, Inhabited

end Proto

namespace Db

/-- `db::FileInfo`: the stored form of a file; blocks are kept by hash only. -/
structure FileInfo where
  name : String
  type : Proto.FileInfoType
  size : Int
  permissions : UInt32
  modifiedS : Int
  modifiedNs : Int32
  modifiedBy : UInt64
  deleted : Bool
  invalid : Bool
  noPermissions : Bool
  version : Proto.Vector
  sequence : Int
  blockSize : Int32
  symlinkTarget : String
  blocks : List Bytes
  deriving DecidableEq, Repr, Inhabited

end Db

end SyncSpirit
