import SyncSpirit.Resolver
import SyncSpirit.IndexMessage
import SyncSpirit.Lib.LexicalPath

/-!
# Paths of remote files (`net/controller_actor.cpp`, `model/file_info.cpp`)

When the resolver does not ignore a file of a peer, the controller hands paths to the file
system actor: the path of the file, and the path under which the local file is kept if the
remote one wins. Both are made of the folder's path and the name that the peer has sent.

- `getPath`, `makeConflictingName`: the two names, on a POSIX system;
- `ioPaths`: what the controller hands over;
- `paths_inside_iff`: the paths are inside the folder, wherever it is, exactly if the name
  is confined. Nothing between the message and the file system looks at that.
-/

namespace SyncSpirit

open LexicalPath (Inside Confined join)

/-- `base32::in_alphabet`. -/
def base32Alphabet : List Char := "ABCDEFGHIJKLMNOPQRSTUVWXYZ234567".toList

/-- `device_id_t::make_short`: the first seven letters of the encoded upper five bytes. -/
def makeShort (value : UInt64) : List Char :=
  if value = 0 then []
  else (List.range 7).map fun i => base32Alphabet.getD (value.toNat / 2 ^ 24 / 2 ^ (35 - 5 * i) % 32) 'A'

/-- The last part of a conflict name; `stamp` is the formatted local time. -/
def conflictedName (stamp : Int → List Char) (f : FileInfo) : List Char :=
  let name := LexicalPath.fileName f.name.toList
  LexicalPath.stem name ++ ".sync-conflict-".toList ++ stamp f.modifiedS ++
    '-' :: makeShort f.version.getBest.id ++ LexicalPath.extension name

/-- `file_info_t::make_conflicting_name`. -/
def makeConflictingName (stamp : Int → List Char) (f : FileInfo) : String :=
  String.ofList (join (LexicalPath.parentPath f.name.toList) (conflictedName stamp f))

/-- `file_info_t::get_path`. -/
def getPath (root : List Char) (f : FileInfo) : List Char := join root f.name.toList

/-- `path_t::get_own_name`: the pieces are counted as if each separator stood alone. -/
def ownName (name : List Char) : List Char :=
  let pieces := (if LexicalPath.isAbsolute name then [['/']] else []) ++ LexicalPath.parts name ++
    (if LexicalPath.fileName name = [] ∧ LexicalPath.parts name ≠ [] then [[]] else [])
  name.drop ((pieces.dropLast.map fun piece => piece.length + 1).sum)

/-- A POSIX system, where `path_supported` accepts every name. -/
def posix (stamp : Int → List Char) : Platform where
  symlinksSupported := true
  pathSupported _ := true
  makeConflictingName := makeConflictingName stamp
  isConflictName name := ".sync-conflict-".toList <:+: ownName name.toList

/-- `io_advance`, `io_finish_file`: the paths of a file and, if it wins, of the local one. -/
def ioAdvance (stamp : Int → List Char) (root : List Char) (action : AdvanceAction) (peerFile : FileInfo)
    (localFile : Option FileInfo) : List (List Char) :=
  getPath root peerFile ::
    if action = .resolveRemoteWin then
      localFile.toList.map fun f => join root (makeConflictingName stamp f).toList
    else []

/-- The paths that a file of a peer leads to. -/
def ioPaths (stamp : Int → List Char) (root : List Char) (folder : FolderView) (self owner : DeviceId)
    (localFiles : FolderInfoView) (remote : FileInfo) : List (List Char) :=
  match resolve (posix stamp) folder self owner localFiles remote (localFiles.byName remote.name) with
  | .ignore => []
  | action => ioAdvance stamp root action remote (localFiles.byName remote.name)

/-! ## Conflict names -/

theorem sep_notMem_makeShort (value : UInt64) : '/' ∉ makeShort value := by
  have halphabet : ∀ n < 32, base32Alphabet.getD n 'A' ≠ '/' := by decide
  unfold makeShort
  split
  · exact List.not_mem_nil
  · intro hmem
    obtain ⟨i, -, hi⟩ := List.mem_map.mp hmem
    exact halphabet _ (Nat.mod_lt _ (by decide)) hi

theorem sep_notMem_conflictedName {stamp : Int → List Char} (hstamp : ∀ t, '/' ∉ stamp t) (f : FileInfo) :
    '/' ∉ conflictedName stamp f := by
  have hname := LexicalPath.sep_notMem_fileName f.name.toList
  have hword : '/' ∉ ".sync-conflict-".toList := by decide
  intro hmem
  simp only [conflictedName, List.mem_append, List.mem_cons] at hmem
  rcases hmem with ((((hmem | hmem) | hmem) | hmem | hmem) | hmem)
  · exact hname (LexicalPath.mem_of_mem_stem hmem)
  · exact hword hmem
  · exact hstamp _ hmem
  · exact absurd hmem (by decide)
  · exact sep_notMem_makeShort _ hmem
  · rcases LexicalPath.mem_of_mem_extension hmem with hdot | hmem
    · exact absurd hdot (by decide)
    · exact hname hmem

theorem length_conflictedName (stamp : Int → List Char) (f : FileInfo) :
    15 ≤ (conflictedName stamp f).length := by
  have hword : ".sync-conflict-".toList.length = 15 := by decide
  simp only [conflictedName, List.length_append]
  omega

/-- The conflict name of a confined name is confined. -/
theorem confined_makeConflictingName {stamp : Int → List Char} (hstamp : ∀ t, '/' ∉ stamp t) {f : FileInfo}
    (h : Confined f.name.toList) : Confined (makeConflictingName stamp f).toList := by
  have hlen := length_conflictedName stamp f
  rw [makeConflictingName, String.toList_ofList]
  refine h.sibling ?_ (sep_notMem_conflictedName hstamp f) ?_ ?_ <;>
    · intro heq
      rw [heq] at hlen
      exact absurd hlen (by decide)

/-! ## Confinement -/

theorem byName_name {files : FolderInfoView} {name : String} {f : FileInfo} (h : files.byName name = some f) :
    f.name = name := by
  simpa using List.find?_some h

theorem ioPaths_of_action {stamp : Int → List Char} {folder : FolderView} {self owner : DeviceId}
    {localFiles : FolderInfoView} {remote : FileInfo}
    (haction : resolve (posix stamp) folder self owner localFiles remote
      (localFiles.byName remote.name) ≠ .ignore) (root : List Char) :
    ioPaths stamp root folder self owner localFiles remote =
      ioAdvance stamp root
        (resolve (posix stamp) folder self owner localFiles remote (localFiles.byName remote.name)) remote
        (localFiles.byName remote.name) := by
  unfold ioPaths
  split
  · rename_i hignore
    exact absurd hignore haction
  · rfl

/-- **Path confinement**: for a file that is not ignored, all paths are inside the folder,
whatever its directory is, exactly if the name of the file is confined. -/
theorem paths_inside_iff {stamp : Int → List Char} (hstamp : ∀ t, '/' ∉ stamp t) {folder : FolderView}
    {self owner : DeviceId} {localFiles : FolderInfoView} {remote : FileInfo}
    (haction : resolve (posix stamp) folder self owner localFiles remote
      (localFiles.byName remote.name) ≠ .ignore) :
    (∀ root, ∀ path ∈ ioPaths stamp root folder self owner localFiles remote, Inside root path) ↔
      Confined remote.name.toList := by
  constructor
  · intro hinside
    refine (LexicalPath.inside_join_iff _).mp fun root => hinside root _ ?_
    rw [ioPaths_of_action haction]
    exact List.mem_cons_self
  · intro hname root path hpath
    rw [ioPaths_of_action haction, ioAdvance] at hpath
    rcases List.mem_cons.mp hpath with rfl | hpath
    · exact LexicalPath.inside_join hname root
    · split at hpath
      · obtain ⟨f, hf, rfl⟩ := List.mem_map.mp hpath
        have hlocal : f.name = remote.name := byName_name (Option.mem_toList.mp hf)
        exact LexicalPath.inside_join (confined_makeConflictingName hstamp (hlocal ▸ hname)) root
      · cases hpath

/-- A regular file of one device with a single counter. -/
def versionedFile (name : String) (device value : UInt64) (modifiedS : Int) : FileInfo :=
  { (default : FileInfo) with
    name := name
    modifiedS := modifiedS
    version := Version.ofProto ⟨[⟨device, value⟩]⟩
    isLocal := true }

/-- Two edits of one file: both the file and the conflict copy stay in the folder. -/
theorem paths_inside_of_conflict :
    ioPaths (fun _ => "20250102-030405".toList) "/srv/docs".toList ⟨false, []⟩ 1 2
        ⟨1, [versionedFile "a/b.txt" 1 5 10]⟩ (versionedFile "a/b.txt" 2 7 20) =
      ["/srv/docs/a/b.txt".toList,
        "/srv/docs/a/b.sync-conflict-20250102-030405-AAAAAAA.txt".toList] ∧
    ∀ root, ∀ path ∈ ioPaths (fun _ => "20250102-030405".toList) root ⟨false, []⟩ 1 2
        ⟨1, [versionedFile "a/b.txt" 1 5 10]⟩ (versionedFile "a/b.txt" 2 7 20), Inside root path := by
  refine ⟨by decide +kernel, (paths_inside_iff (fun _ => by decide) (by decide +kernel)).mpr (by decide)⟩

/-- A peer announces `../x`: the message is accepted, the file is not ignored, and its path
is next to the folder. -/
theorem escape_of_dotdot :
    UpdateFolder.create UpdateFolder.newPeer (fun k => Uuid.ofByte k.toUInt8) [2]
        ⟨"docs", [UpdateFolder.announce "../x" 1 7]⟩ =
      .ok (UpdateFolder.announceDiff [UpdateFolder.announce "../x" 1 7]) ∧
    (UpdateFolder.apply UpdateFolder.newPeer
        (UpdateFolder.announceDiff [UpdateFolder.announce "../x" 1 7])).map
      (fun t => (t.infos 0).files.map fun g =>
        ioPaths (fun _ => []) "/srv/docs".toList ⟨false, []⟩ 1 2 ⟨1, []⟩ (t.files g)) =
      some [["/srv/docs/../x".toList]] ∧
    LexicalPath.normal "/srv/docs/../x".toList = ["srv".toList, "x".toList] ∧
    ¬ Inside "/srv/docs".toList "/srv/docs/../x".toList := by
  refine ⟨rfl, by decide, by decide, ?_⟩
  rintro ⟨-, below, -, -, heq⟩
  have hpre : LexicalPath.normal "/srv/docs".toList <+: LexicalPath.normal "/srv/docs/../x".toList :=
    ⟨below, heq.symm⟩
  exact absurd hpre (by decide)

end SyncSpirit
