import SyncSpirit.Proto
import SyncSpirit.Lib.Fallible
import SyncSpirit.Lib.Run
import SyncSpirit.Lib.Splice
import Mathlib

/-!
# Putting a file together (`fs/fs_proxy.cpp`, `fs/file.cpp`, `fs/file_actor.cpp`)

A file is downloaded into a temporary file next to it. The first `append_block`
or `clone_block` opens the temporary file and keeps it in the cache of its
controller, `finish_file` renames it.

The disk maps paths to contents. Times and permissions are left out; `Os` says
which system calls succeed, and a call that succeeds does what it is documented
to do. Every write is flushed, so an open stream is its path: two controllers
that have the same temporary file open see each other's writes.
-/

namespace SyncSpirit

open Splice Fallible

/-- `bfs::path`. -/
abbrev Path := String

/-- The address of a controller; only compared. -/
abbrev CacheKey := Nat

/-- `make_temporal` (fs/utils.cpp:77–81). -/
def makeTemporal (path : Path) : Path := path ++ ".syncspirit-tmp"

theorem makeTemporal_ne (path : Path) : makeTemporal path ≠ path := by
  intro h
  have hlen := congrArg String.length h
  simp [makeTemporal] at hlen

/-- The errors of the commands. `assertion` is a failed `assert`. -/
inductive FsError where
  | system
  | ioError
  | flushNonOpened
  | assertion
  deriving DecidableEq, Repr

/-- The contents of the files. -/
abbrev Disk := Path → Option Bytes

/-- Which system calls succeed. -/
structure Os where
  createDirectories : Disk → Path → Bool
  openFile : Disk → Path → Bool
  resizeFile : Disk → Path → Bool
  read : Disk → Path → Bool
  write : Disk → Path → Bool
  rename : Disk → Path → Path → Bool
  lastWriteTime : Disk → Path → Bool
  setPerms : Disk → Path → Bool

/-- Go on if the system call succeeds. -/
def attempt (ok : Bool) (e : FsError) : Except FsError Unit :=
  if ok then .ok () else .error e

theorem attempt_ok {ok : Bool} {e : FsError} {u : Unit} :
    attempt ok e = .ok u ↔ ok = true := by
  cases ok <;> simp [attempt]

/-! ## `fs_proxy_t` -/

/-- `bfs::resize_file`: cut off, or fill with zeros. -/
def resize (size : Nat) (bs : Bytes) : Bytes :=
  bs.take size ++ List.replicate (size - bs.length) 0

/-- `bfs::rename`. -/
def rename (disk : Disk) (source target : Path) : Disk :=
  if source = target then disk
  else Function.update (Function.update disk target (disk source)) source none

namespace FsProxy

/-- `need_resize` (fs_proxy.cpp:34–40). -/
def needResize (disk : Disk) (path : Path) (fileSize : Nat) : Bool :=
  match disk path with
  | none => true
  | some bs => bs.length == fileSize

/-- Create the file if it is missing (fs_proxy.cpp:43–57). -/
def create (os : Os) (disk : Disk) (path : Path) : Except FsError Disk :=
  match disk path with
  | some _ => .ok disk
  | none => do
    attempt (os.openFile disk path) .system
    return Function.update disk path (some [])

/-- `fs_proxy_t::open_write`. -/
def openWrite (os : Os) (disk : Disk) (path : Path) (fileSize : Nat) : Except FsError Disk :=
  if needResize disk path fileSize then do
    let disk ← create os disk path
    attempt (os.resizeFile disk path) .system
    let disk := Function.update disk path ((disk path).map (resize fileSize))
    attempt (os.openFile disk path) .system
    return disk
  else do
    attempt (os.openFile disk path) .system
    return disk

/-- `fs_proxy_t::rename`. -/
def renameFile (os : Os) (disk : Disk) (source target : Path) : Except FsError Disk := do
  attempt ((disk source).isSome && os.rename disk source target) .system
  return rename disk source target

end FsProxy

/-! ## `file_t` -/

/-- An open `file_t`: the path of its stream and the size it is meant to get. -/
structure File where
  path : Path
  fileSize : Nat
  deriving DecidableEq, Repr

namespace File

/-- `file_t::open_write`. -/
def openWrite (os : Os) (disk : Disk) (modelPath : Path) (fileSize : Nat) :
    Except FsError (File × Disk) := do
  let path := if 0 < fileSize then makeTemporal modelPath else modelPath
  let disk ← FsProxy.openWrite os disk path fileSize
  return (⟨path, fileSize⟩, disk)

/-- `file_t::read`: exactly `size` bytes, or an error. -/
def read (os : Os) (disk : Disk) (path : Path) (offset size : Nat) : Except FsError Bytes :=
  match disk path with
  | none => .error .ioError
  | some bs => do
    attempt (decide (offset + size ≤ bs.length) && os.read disk path) .ioError
    return slice bs offset size

/-- `file_t::write`. -/
def write (os : Os) (disk : Disk) (f : File) (offset : Nat) (data : Bytes) : Except FsError Disk :=
  match disk f.path with
  | none => .error .ioError
  | some bs => do
    attempt (decide (offset + data.length ≤ f.fileSize)) .assertion
    attempt (os.write disk f.path) .ioError
    return Function.update disk f.path (some (splice 0 bs offset data))

/-- `file_t::close` with a new name. -/
def close (os : Os) (disk : Disk) (f : File) (modificationS : Int) (localName : Path) :
    Except FsError Disk := do
  let disk ← FsProxy.renameFile os disk f.path localName
  attempt (modificationS == 0 || os.lastWriteTime disk localName) .system
  return disk

end File

/-! ## `file_actor_t` -/

/-- `file_actor_t`: the disk and `context_cache`. -/
structure FileActor where
  disk : Disk
  cache : CacheKey → Path → Option File

/-- `payload::append_block_t`. -/
structure AppendBlock where
  key : CacheKey
  path : Path
  data : Bytes
  offset : Nat
  fileSize : Nat

/-- `payload::clone_block_t`. -/
structure CloneBlock where
  key : CacheKey
  path : Path
  targetOffset : Nat
  targetSize : Nat
  source : Path
  sourceOffset : Nat
  blockSize : Nat

/-- `payload::finish_file_t`; an empty `conflict_path` is `none`. -/
structure FinishFile where
  key : CacheKey
  path : Path
  conflictPath : Option Path
  fileSize : Nat
  modificationS : Int
  noPermissions : Bool

namespace FileActor

/-- `file_cache[path] = ptr`, or its removal. -/
def setCache (a : FileActor) (key : CacheKey) (path : Path) (f : Option File) : FileActor :=
  { a with cache := Function.update a.cache key (Function.update (a.cache key) path f) }

/-- `file_actor_t::open_file_rw`. -/
def openFileRw (os : Os) (a : FileActor) (key : CacheKey) (path : Path) (fileSize : Nat) :
    Except FsError (File × FileActor) :=
  match a.cache key path with
  | some f => .ok (f, a)
  | none => do
    attempt (os.createDirectories a.disk path) .system
    let (f, disk) ← File.openWrite os a.disk path fileSize
    return (f, setCache { a with disk := disk } key path (some f))

/-- `process(append_block_t &)`. -/
def appendBlock (os : Os) (a : FileActor) (cmd : AppendBlock) : Except FsError FileActor := do
  let (f, a) ← openFileRw os a cmd.key cmd.path cmd.fileSize
  let disk ← f.write os a.disk cmd.offset cmd.data
  return { a with disk := disk }

/-- The file a block is cloned from: a cached one, also if it is still a
temporary file, or the file of that name. -/
def sourcePath (a : FileActor) (cmd : CloneBlock) : Path :=
  match a.cache cmd.key cmd.source with
  | some f => f.path
  | none => cmd.source

/-- `process(clone_block_t &)`. -/
def cloneBlock (os : Os) (a : FileActor) (cmd : CloneBlock) : Except FsError FileActor := do
  let (f, a) ← openFileRw os a cmd.key cmd.path cmd.targetSize
  let data ← File.read os a.disk (a.sourcePath cmd) cmd.sourceOffset cmd.blockSize
  let disk ← f.write os a.disk cmd.targetOffset data
  return { a with disk := disk }

/-- The file to finish: the cached one, or the temporary file on the disk
(file_actor.cpp:327–348). -/
def openToFinish (os : Os) (a : FileActor) (cmd : FinishFile) : Except FsError (File × FileActor) :=
  match a.cache cmd.key cmd.path with
  | some f => .ok (f, a)
  | none => do
    attempt (a.disk (makeTemporal cmd.path)).isSome .flushNonOpened
    let (f, disk) ← File.openWrite os a.disk cmd.path cmd.fileSize
    return (f, setCache { a with disk := disk } cmd.key cmd.path (some f))

/-- The local file is kept under its conflict name (file_actor.cpp:351–361). -/
def keepConflict (os : Os) (disk : Disk) (path : Path) : Option Path → Except FsError Disk
  | some conflict => FsProxy.renameFile os disk path conflict
  | none => .ok disk

/-- `process(finish_file_t &)`. -/
def finishFile (os : Os) (a : FileActor) (cmd : FinishFile) : Except FsError FileActor := do
  let (f, a) ← openToFinish os a cmd
  let disk ← keepConflict os a.disk cmd.path cmd.conflictPath
  let a := setCache { a with disk := disk } cmd.key cmd.path none
  let disk ← f.close os a.disk cmd.modificationS cmd.path
  attempt (cmd.noPermissions || os.setPerms disk cmd.path) .system
  return { a with disk := disk }

/-- `on_controller_predown`: the cache of a controller is dropped. -/
def predown (a : FileActor) (key : CacheKey) : FileActor :=
  { a with cache := Function.update a.cache key fun _ => none }

/-! ## Runs -/

/-- What happens between the start and `finish_file`. -/
inductive Event where
  | append (cmd : AppendBlock)
  | clone (cmd : CloneBlock)
  | predown (key : CacheKey)

/-- The event is about this file, with this size. -/
def Event.IsFor (path : Path) (size : Nat) : Event → Prop
  | .append cmd => cmd.path = path ∧ cmd.fileSize = size
  | .clone cmd => cmd.path = path ∧ cmd.targetSize = size
  | .predown _ => True

/-- One event; `none` if the command fails. -/
def step (os : Os) (a : FileActor) : Event → Option FileActor
  | .append cmd => (appendBlock os a cmd).toOption
  | .clone cmd => (cloneBlock os a cmd).toOption
  | .predown key => some (a.predown key)

/-- What a command writes, and where. -/
def written (os : Os) (a : FileActor) : Event → Option (Nat × Bytes)
  | .append cmd => some (cmd.offset, cmd.data)
  | .clone cmd => do
    let (_, a) ← (openFileRw os a cmd.key cmd.path cmd.targetSize).toOption
    let data ← (File.read os a.disk (a.sourcePath cmd) cmd.sourceOffset cmd.blockSize).toOption
    return (cmd.targetOffset, data)
  | .predown _ => none

/-- All that the commands of a run write, in their order. -/
def writes (os : Os) : FileActor → List Event → List (Nat × Bytes)
  | _, [] => []
  | a, e :: es =>
    (written os a e).toList ++ (match step os a e with
      | some a' => writes os a' es
      | none => [])

/-- The offset of a block. -/
def blockOffset (blocks : List Bytes) (i : Nat) : Nat := (blocks.take i).flatten.length

/-- Exactly the blocks are written, each of them at its offset and at least once. -/
def WritesBlocks (blocks : List Bytes) (ws : List (Nat × Bytes)) : Prop :=
  (∀ w ∈ ws, ∃ i, w.1 = blockOffset blocks i ∧ blocks[i]? = some w.2) ∧
    ∀ i, ∀ b ∈ blocks[i]?, (blockOffset blocks i, b) ∈ ws

/-! ## Blocks of a file -/

theorem flatten_eq_of_getElem? {blocks : List Bytes} {i : Nat} {b : Bytes}
    (h : blocks[i]? = some b) :
    blocks.flatten = (blocks.take i).flatten ++ b ++ (blocks.drop (i + 1)).flatten := by
  obtain ⟨hi, rfl⟩ := List.getElem?_eq_some_iff.mp h
  have hsplit : blocks = blocks.take i ++ blocks[i] :: blocks.drop (i + 1) := by
    rw [← List.drop_eq_getElem_cons hi, List.take_append_drop]
  have hflat := congrArg List.flatten hsplit
  rwa [List.flatten_append, List.flatten_cons, ← List.append_assoc] at hflat

theorem blockOffset_add_le {blocks : List Bytes} {i : Nat} {b : Bytes}
    (h : blocks[i]? = some b) : blockOffset blocks i + b.length ≤ blocks.flatten.length := by
  rw [flatten_eq_of_getElem? h, blockOffset]
  simp only [List.length_append]
  omega

theorem slice_block {blocks : List Bytes} {i : Nat} {b : Bytes} (h : blocks[i]? = some b) :
    slice blocks.flatten (blockOffset blocks i) b.length = b := by
  rw [slice, flatten_eq_of_getElem? h, blockOffset, List.append_assoc, List.drop_left,
    List.take_left]

/-- Every byte of the file is in some block. -/
theorem exists_block (blocks : List Bytes) {j : Nat} (hj : j < blocks.flatten.length) :
    ∃ i b, blocks[i]? = some b ∧ blockOffset blocks i ≤ j ∧ j < blockOffset blocks i + b.length := by
  induction blocks generalizing j with
  | nil => exact absurd hj (Nat.not_lt_zero j)
  | cons b blocks ih =>
    rw [List.flatten_cons, List.length_append] at hj
    by_cases hjb : j < b.length
    · refine ⟨0, b, rfl, Nat.zero_le j, ?_⟩
      simpa [blockOffset] using hjb
    · obtain ⟨i, c, hc, hlo, hhi⟩ := ih (j := j - b.length) (by omega)
      refine ⟨i + 1, c, hc, ?_⟩
      have hoff : blockOffset (b :: blocks) (i + 1) = b.length + blockOffset blocks i := by
        simp [blockOffset]
      omega

/-! ## The temporary file -/

/-- Opening creates a file of the right size, or leaves an existing one as it is:
it is only resized to the size it has. -/
theorem openWrite_spec {os : Os} {disk disk' : Disk} {path : Path} {fileSize : Nat}
    (h : FsProxy.openWrite os disk path fileSize = .ok disk') :
    (∀ q, q ≠ path → disk' q = disk q) ∧
      disk' path = some ((disk path).getD (List.replicate fileSize 0)) := by
  unfold FsProxy.openWrite at h
  cases hp : disk path with
  | none =>
    rw [if_pos (by simp [FsProxy.needResize, hp])] at h
    simp only [FsProxy.create, hp, bind_ok, attempt_ok, exists_const, pure_ok] at h
    obtain ⟨_, ⟨-, rfl⟩, -, -, rfl⟩ := h
    refine ⟨fun q hq => by simp [hq], ?_⟩
    simp [resize]
  | some bs =>
    by_cases hsize : bs.length = fileSize
    · rw [if_pos (by simp [FsProxy.needResize, hp, hsize])] at h
      simp only [FsProxy.create, hp, bind_ok, attempt_ok, exists_const, pure_ok, Except.ok.injEq] at h
      obtain ⟨_, rfl, -, -, rfl⟩ := h
      refine ⟨fun q hq => by simp [hq], ?_⟩
      simp [resize, hp, ← hsize]
    · rw [if_neg (by simp [FsProxy.needResize, hp, hsize])] at h
      simp only [bind_ok, attempt_ok, exists_const, pure_ok] at h
      obtain ⟨-, rfl⟩ := h
      exact ⟨fun q _ => rfl, hp⟩

section Assembly

variable (path : Path) (target : Bytes) (leftover : Option Bytes)

/-- The size the temporary file starts with. -/
def startSize : Nat := (leftover.map List.length).getD target.length

/-- The ranges written so far hold the target; the temporary file is no longer
than it was at the start or has to be, and no shorter than at the start. -/
structure Assembling (a : FileActor) (ws : List Range) : Prop where
  cached : ∀ key, ∀ f ∈ a.cache key path, f = ⟨makeTemporal path, target.length⟩
  missing : a.disk (makeTemporal path) = none →
    leftover = none ∧ ws = [] ∧ ∀ key, a.cache key path = none
  present : ∀ bs ∈ a.disk (makeTemporal path),
    startSize target leftover ≤ bs.length ∧
      bs.length ≤ max (startSize target leftover) target.length ∧ Holds target bs ws

variable {path target leftover}

/-- Before the first command. -/
theorem assembling_start {a : FileActor} (hcache : ∀ key, a.cache key path = none)
    (hleft : a.disk (makeTemporal path) = leftover) : Assembling path target leftover a [] where
  cached key f hf := by
    rw [hcache key] at hf
    cases hf
  missing hnone := ⟨hleft.symm.trans hnone, rfl, hcache⟩
  present bs hbs := by
    have hl : leftover = some bs := hleft.symm.trans hbs
    have hstart : startSize target leftover = bs.length := by simp [startSize, hl]
    refine ⟨by omega, by omega, ?_, ?_⟩
    · exact fun w hw => nomatch hw
    · rintro i ⟨w, hw, -⟩
      cases hw

/-- Opening the temporary file keeps what has been assembled. -/
theorem Assembling.opened {a : FileActor} {ws : List Range}
    (h : Assembling path target leftover a ws) (hpos : 0 < target.length) {os : Os}
    {f : File} {disk : Disk} (hopen : File.openWrite os a.disk path target.length = .ok (f, disk))
    (key : CacheKey) :
    f = ⟨makeTemporal path, target.length⟩ ∧
      Assembling path target leftover (setCache { a with disk := disk } key path (some f)) ws ∧
      (disk (makeTemporal path)).isSome := by
  simp only [File.openWrite, if_pos hpos, bind_ok, pure_ok, Prod.mk.injEq] at hopen
  obtain ⟨disk', hdisk, rfl, rfl⟩ := hopen
  obtain ⟨-, htmp⟩ := openWrite_spec hdisk
  refine ⟨rfl, ⟨fun k f hf => ?_, fun hnone => ?_, fun bs hbs => ?_⟩, by simp [htmp]⟩
  · by_cases hk : k = key
    · subst hk
      simpa [setCache, eq_comm] using hf
    · exact h.cached k f (by simpa [setCache, hk] using hf)
  · exact absurd (htmp.symm.trans hnone) (Option.some_ne_none _)
  · have hbs' : (a.disk (makeTemporal path)).getD (List.replicate target.length 0) = bs :=
      Option.some.inj (htmp.symm.trans hbs)
    cases hd : a.disk (makeTemporal path) with
    | some old =>
      rw [hd] at hbs'
      exact hbs' ▸ h.present old hd
    | none =>
      -- a new file of the right size
      obtain ⟨hl, rfl, -⟩ := h.missing hd
      rw [hd] at hbs'
      have hlen : bs.length = target.length := by
        rw [← hbs']
        exact List.length_replicate
      have hstart : startSize target leftover = target.length := by simp [startSize, hl]
      refine ⟨by omega, by omega, ?_, ?_⟩
      · exact fun w hw => nomatch hw
      · rintro i ⟨w, hw, -⟩
        cases hw

theorem Assembling.openFileRw {a a' : FileActor} {ws : List Range}
    (h : Assembling path target leftover a ws) (hpos : 0 < target.length) {os : Os}
    {key : CacheKey} {f : File}
    (hopen : openFileRw os a key path target.length = .ok (f, a')) :
    f = ⟨makeTemporal path, target.length⟩ ∧ Assembling path target leftover a' ws := by
  unfold FileActor.openFileRw at hopen
  cases hc : a.cache key path with
  | some g =>
    simp only [hc, Except.ok.injEq, Prod.mk.injEq] at hopen
    obtain ⟨rfl, rfl⟩ := hopen
    exact ⟨h.cached key g hc, h⟩
  | none =>
    simp only [hc, bind_ok, attempt_ok, exists_const, pure_ok] at hopen
    obtain ⟨-, ⟨g, disk⟩, hg, heq⟩ := hopen
    obtain ⟨hf, ha, -⟩ := h.opened hpos hg key
    simp only [Prod.mk.injEq] at heq
    obtain ⟨rfl, rfl⟩ := heq
    exact ⟨hf, ha⟩

/-- **Write**: a piece of the target is added to what has been assembled. -/
theorem Assembling.write {a : FileActor} {ws : List Range}
    (h : Assembling path target leftover a ws) {os : Os} {offset length : Nat} {disk : Disk}
    (hle : offset + length ≤ target.length)
    (hw : File.write os a.disk ⟨makeTemporal path, target.length⟩ offset
      (slice target offset length) = .ok disk) :
    Assembling path target leftover { a with disk := disk } (ws ++ [(offset, length)]) := by
  unfold File.write at hw
  cases hd : a.disk (makeTemporal path) with
  | none => simp [hd] at hw
  | some bs =>
    simp only [hd, bind_ok, attempt_ok, exists_const, pure_ok] at hw
    obtain ⟨-, -, rfl⟩ := hw
    obtain ⟨hlo, hhi, hholds⟩ := h.present bs hd
    refine ⟨h.cached, fun hnone => ?_, fun bs' hbs' => ?_⟩
    · simp at hnone
    · simp only [Function.update_self, Option.mem_def, Option.some.injEq] at hbs'
      subst hbs'
      have hlen := length_slice hle
      have hmax := @length_splice_le _ (0 : UInt8) bs (slice target offset length) offset
        target.length (by omega)
      have hmin := le_length_splice (0 : UInt8) bs (slice target offset length) offset
      exact ⟨by omega, by omega, hholds.splice 0 hle⟩

/-- Dropping a cache keeps what has been assembled. -/
theorem Assembling.predown {a : FileActor} {ws : List Range}
    (h : Assembling path target leftover a ws) (key : CacheKey) :
    Assembling path target leftover (a.predown key) ws := by
  have hcache : ∀ k, ∀ f ∈ (a.predown key).cache k path, f ∈ a.cache k path := by
    intro k f hf
    by_cases hk : k = key
    · subst hk
      simp [FileActor.predown] at hf
    · simpa [FileActor.predown, hk] using hf
  refine ⟨fun k f hf => h.cached k f (hcache k f hf), fun hnone => ?_, h.present⟩
  obtain ⟨hl, hws, hno⟩ := h.missing hnone
  refine ⟨hl, hws, fun k => ?_⟩
  cases hk : (a.predown key).cache k path with
  | none => rfl
  | some f =>
    have hmem := hcache k f hk
    rw [hno k] at hmem
    cases hmem

variable {blocks : List Bytes}

/-- The range of a write. -/
def range (w : Nat × Bytes) : Range := (w.1, w.2.length)

/-- **Step**: a command that writes a block adds its range. -/
theorem Assembling.step {a a' : FileActor} {ws : List Range} {os : Os} {e : Event}
    (h : Assembling path blocks.flatten leftover a ws) (hpos : 0 < blocks.flatten.length)
    (hfor : e.IsFor path blocks.flatten.length)
    (hblock : ∀ w ∈ written os a e, ∃ i, w.1 = blockOffset blocks i ∧ blocks[i]? = some w.2)
    (hstep : FileActor.step os a e = some a') :
    Assembling path blocks.flatten leftover a' (ws ++ (written os a e).toList.map range) := by
  -- the write of a command whose file has been opened
  have hwrite : ∀ {a : FileActor} {disk : Disk} {offset : Nat} {data : Bytes},
      Assembling path blocks.flatten leftover a ws →
      (∃ i, offset = blockOffset blocks i ∧ blocks[i]? = some data) →
      File.write os a.disk ⟨makeTemporal path, blocks.flatten.length⟩ offset data = .ok disk →
      Assembling path blocks.flatten leftover { a with disk := disk }
        (ws ++ [(offset, data.length)]) := by
    rintro a disk offset data ha ⟨i, rfl, hi⟩ hw
    rw [← slice_block hi] at hw
    exact ha.write (blockOffset_add_le hi) hw
  cases e with
  | append cmd =>
    obtain ⟨rfl, hsize⟩ := hfor
    simp only [FileActor.step, toOption_eq_some, appendBlock, bind_ok, pure_ok] at hstep
    obtain ⟨⟨f, a₁⟩, hopen, disk, hw, rfl⟩ := hstep
    rw [hsize] at hopen
    obtain ⟨rfl, ha⟩ := h.openFileRw hpos hopen
    exact hwrite ha (hblock _ rfl) hw
  | clone cmd =>
    obtain ⟨rfl, hsize⟩ := hfor
    simp only [FileActor.step, toOption_eq_some, cloneBlock, bind_ok, pure_ok] at hstep
    obtain ⟨⟨f, a₁⟩, hopen, data, hread, disk, hw, rfl⟩ := hstep
    have hwritten : written os a (.clone cmd) = some (cmd.targetOffset, data) := by
      simp only [written, hopen, hread, Except.toOption, Option.bind_some, bind, pure]
    rw [hwritten] at hblock ⊢
    rw [hsize] at hopen
    obtain ⟨rfl, ha⟩ := h.openFileRw hpos hopen
    exact hwrite ha (hblock _ rfl) hw
  | predown key =>
    cases hstep
    simpa [written] using h.predown key

/-- **Run**: the ranges of all writes hold the file. -/
theorem Assembling.exec {os : Os} {es : List Event} {a a' : FileActor} {ws : List Range}
    (h : Assembling path blocks.flatten leftover a ws) (hpos : 0 < blocks.flatten.length)
    (hfor : ∀ e ∈ es, e.IsFor path blocks.flatten.length)
    (hblock : ∀ w ∈ writes os a es, ∃ i, w.1 = blockOffset blocks i ∧ blocks[i]? = some w.2)
    (hrun : Run.exec (FileActor.step os) a es = some a') :
    Assembling path blocks.flatten leftover a' (ws ++ (writes os a es).map range) := by
  induction es generalizing a ws with
  | nil =>
    obtain rfl : a = a' := Option.some.inj hrun
    simpa [writes] using h
  | cons e es ih =>
    obtain ⟨b, hb, hrest⟩ := Option.bind_eq_some_iff.mp hrun
    rw [writes, hb] at hblock ⊢
    have hstep := h.step hpos (hfor e (List.mem_cons_self ..))
      (fun w hw => hblock w (List.mem_append_left _ (Option.mem_toList.mpr hw))) hb
    have := ih hstep (fun e he => hfor e (List.mem_cons_of_mem _ he))
      (fun w hw => hblock w (List.mem_append_right _ hw)) hrest
    simpa [List.append_assoc] using this

/-- The file `finish_file` has under the name is the temporary one. -/
theorem Assembling.finishFile {a a' : FileActor} {ws : List Range} {os : Os} {cmd : FinishFile}
    (h : Assembling path target leftover a ws) (hpos : 0 < target.length)
    (hpath : cmd.path = path) (hsize : cmd.fileSize = target.length)
    (hconflict : cmd.conflictPath ≠ some (makeTemporal path))
    (hfinish : finishFile os a cmd = .ok a') :
    ∃ bs, a'.disk path = some bs ∧ startSize target leftover ≤ bs.length ∧
      bs.length ≤ max (startSize target leftover) target.length ∧ Holds target bs ws := by
  subst hpath
  simp only [FileActor.finishFile, bind_ok, attempt_ok, exists_const, pure_ok] at hfinish
  obtain ⟨⟨f, a₁⟩, hopen, disk₁, hren, disk₂, hclose, -, rfl⟩ := hfinish
  have hopened : f = ⟨makeTemporal cmd.path, target.length⟩ ∧
      Assembling cmd.path target leftover a₁ ws := by
    unfold openToFinish at hopen
    cases hc : a.cache cmd.key cmd.path with
    | some g =>
      simp only [hc, Except.ok.injEq, Prod.mk.injEq] at hopen
      obtain ⟨rfl, rfl⟩ := hopen
      exact ⟨h.cached cmd.key g hc, h⟩
    | none =>
      simp only [hc, hsize, bind_ok, attempt_ok, exists_const, pure_ok] at hopen
      obtain ⟨-, ⟨g, disk⟩, hg, heq⟩ := hopen
      obtain ⟨hf, ha, -⟩ := h.opened hpos hg cmd.key
      simp only [Prod.mk.injEq] at heq
      obtain ⟨rfl, rfl⟩ := heq
      exact ⟨hf, ha⟩
  obtain ⟨rfl, ha₁⟩ := hopened
  -- the conflict copy does not touch the temporary file
  have htmp : disk₁ (makeTemporal cmd.path) = a₁.disk (makeTemporal cmd.path) := by
    cases hcp : cmd.conflictPath with
    | none =>
      simp only [hcp, keepConflict, Except.ok.injEq] at hren
      rw [hren]
    | some conflict =>
      simp only [hcp, keepConflict, FsProxy.renameFile, bind_ok, attempt_ok, exists_const, pure_ok] at hren
      obtain ⟨-, rfl⟩ := hren
      have hne : makeTemporal cmd.path ≠ conflict := fun h => hconflict (hcp.trans (congrArg some h.symm))
      unfold rename
      split
      · rfl
      · simp [makeTemporal_ne, hne]
  simp only [File.close, FsProxy.renameFile, bind_ok, attempt_ok, exists_const, pure_ok,
    Bool.and_eq_true] at hclose
  obtain ⟨_, ⟨⟨hsome, -⟩, rfl⟩, -, rfl⟩ := hclose
  have hsome' : (disk₁ (makeTemporal cmd.path)).isSome = true := hsome
  obtain ⟨bs, hbs⟩ := Option.isSome_iff_exists.mp hsome'
  refine ⟨bs, ?_, ha₁.present bs (htmp.symm.trans hbs)⟩
  show rename disk₁ (makeTemporal cmd.path) cmd.path cmd.path = some bs
  simp [rename, makeTemporal_ne, Function.update_of_ne (makeTemporal_ne cmd.path).symm, hbs]

end Assembly

/-- **The assembled file**: whatever the disk is like before and in whatever order
the blocks are appended and cloned, by any number of controllers whose caches may
be dropped in between, the finished file is the concatenation of the blocks iff
no longer temporary file was left over. -/
theorem finishFile_eq_iff (os : Os) (path : Path) (blocks : List Bytes)
    (hpos : 0 < blocks.flatten.length) (a b c : FileActor) (es : List Event) (cmd : FinishFile)
    (hcache : ∀ key, a.cache key path = none)
    (hfor : ∀ e ∈ es, e.IsFor path blocks.flatten.length)
    (hwrites : WritesBlocks blocks (writes os a es))
    (hrun : Run.exec (step os) a es = some b)
    (hpath : cmd.path = path) (hsize : cmd.fileSize = blocks.flatten.length)
    (hconflict : cmd.conflictPath ≠ some (makeTemporal path))
    (hfinish : finishFile os b cmd = .ok c) :
    c.disk path = some blocks.flatten ↔
      ∀ bs ∈ a.disk (makeTemporal path), bs.length ≤ blocks.flatten.length := by
  have hstart : Assembling path blocks.flatten _ a [] := assembling_start hcache rfl
  have hend := hstart.exec hpos hfor hwrites.1 hrun
  obtain ⟨bs, hbs, hlo, hhi, hholds⟩ := hend.finishFile hpos hpath hsize hconflict hfinish
  have hcover : ∀ j < blocks.flatten.length, Covered ([] ++ (writes os a es).map range) j := by
    intro j hj
    obtain ⟨i, d, hd, hij, hji⟩ := exists_block blocks hj
    exact ⟨_, List.mem_map_of_mem (hwrites.2 i d hd), hij, hji⟩
  rw [hbs, Option.some.injEq, hholds.eq_iff_of_cover hcover]
  cases hl : a.disk (makeTemporal path) with
  | none =>
    have hstart : startSize blocks.flatten none = blocks.flatten.length := rfl
    rw [hl, hstart] at hlo hhi
    exact iff_of_true (by omega) (fun _ h => nomatch h)
  | some old =>
    have hstart : startSize blocks.flatten (some old) = old.length := rfl
    rw [hl, hstart] at hlo hhi
    simp only [Option.mem_def, Option.some.injEq, forall_eq']
    omega

/-- Every system call succeeds. -/
def reliable : Os where
  createDirectories _ _ := true
  openFile _ _ := true
  resizeFile _ _ := true
  read _ _ := true
  write _ _ := true
  rename _ _ _ := true
  lastWriteTime _ _ := true
  setPerms _ _ := true

/-- A disk with nothing but what is left over of the temporary file of `path`. -/
def stale (path : Path) (leftover : Option Bytes) : FileActor :=
  ⟨Function.update (fun _ => none) (makeTemporal path) leftover, fun _ _ => none⟩

/-- The only block of a file is appended. -/
def appendOnly (path : Path) (data : Bytes) : Event := .append ⟨0, path, data, 0, data.length⟩

/-- The file is finished, no conflict copy is made. -/
def finishOnly (path : Path) (size : Nat) : FinishFile := ⟨0, path, none, size, 100, false⟩

theorem writes_appendOnly (os : Os) (a : FileActor) (path : Path) (data : Bytes) :
    writes os a [appendOnly path data] = [(0, data)] := by
  unfold writes
  cases step os a (appendOnly path data) <;> rfl

theorem writesBlocks_singleton (data : Bytes) : WritesBlocks [data] [(0, data)] := by
  refine ⟨fun w hw => ⟨0, ?_⟩, fun i b hb => ?_⟩
  · rw [List.mem_singleton.mp hw]
    exact ⟨rfl, rfl⟩
  · cases i with
    | zero =>
      cases hb
      exact List.mem_singleton_self _
    | succ i => cases hb

/-- The two blocks of a file of three bytes, the second one first. -/
def appendBackwards (path : Path) : List Event := [.append ⟨0, path, [3], 2, 3⟩, .append ⟨0, path, [1, 2], 0, 3⟩]

theorem writesBlocks_appendBackwards :
    WritesBlocks [[1, 2], [3]] (writes reliable (stale "f" (some [9])) (appendBackwards "f")) := by
  have hwrites : writes reliable (stale "f" (some [9])) (appendBackwards "f") = [(2, [3]), (0, [1, 2])] := rfl
  rw [hwrites]
  refine ⟨fun w hw => ?_, fun i b hb => ?_⟩
  · rcases List.mem_cons.mp hw with rfl | hw
    · exact ⟨1, rfl, rfl⟩
    · rw [List.mem_singleton.mp hw]
      exact ⟨0, rfl, rfl⟩
  · have hi : i < 2 := (List.getElem?_eq_some_iff.mp hb).1
    interval_cases i <;> cases hb <;> decide

/-- One byte was left over, and it is overwritten. -/
theorem finishFile_eq_of_short :
    ∃ b c, Run.exec (step reliable) (stale "f" (some [9])) (appendBackwards "f") = some b ∧
      finishFile reliable b (finishOnly "f" 3) = .ok c ∧ c.disk "f" = some [1, 2, 3] := by
  refine ⟨_, _, rfl, rfl, ?_⟩
  refine (finishFile_eq_iff reliable "f" [[1, 2], [3]] (by decide) (stale "f" (some [9])) _ _
    (appendBackwards "f") (finishOnly "f" 3) (fun _ => rfl) ?_ writesBlocks_appendBackwards rfl rfl rfl ?_ rfl).mpr ?_
  · intro e he
    rcases List.mem_cons.mp he with rfl | he
    · exact ⟨rfl, rfl⟩
    · rw [List.mem_singleton.mp he]
      exact ⟨rfl, rfl⟩
  · exact fun h => nomatch h
  · intro bs hbs
    simp only [stale, Function.update_self, Option.mem_def, Option.some.injEq] at hbs
    rw [← hbs]
    decide

/-- Three bytes were left over of another version: the finished file has the two
bytes of its block and one of the left-over file. -/
theorem stale_byte_of_leftover :
    ∃ b c, Run.exec (step reliable) (stale "f" (some [9, 9, 9])) [appendOnly "f" [1, 2]] = some b ∧
      WritesBlocks [[1, 2]] (writes reliable (stale "f" (some [9, 9, 9])) [appendOnly "f" [1, 2]]) ∧
      finishFile reliable b (finishOnly "f" 2) = .ok c ∧ c.disk "f" = some [1, 2, 9] := by
  refine ⟨_, _, rfl, ?_, rfl, ?_⟩
  · rw [writes_appendOnly]
    exact writesBlocks_singleton _
  · rfl

end FileActor

end SyncSpirit
