import SyncSpirit.FileIteratorNext

/-!
# What the runs of the file iterator keep

`Based` is the part of the invariants that concerns neither what is due nor what has been
returned: every entry belongs to a folder info that is shared, and its queue is in order. One
lemma for each kind of event says when the event keeps it. The only ones that may fail are a
new index (`Based.onUpsertInfo`) and the removal of a folder info (`Based.onRemove`).
-/

namespace SyncSpirit

open FileIterator FolderIterator

/-- What the queue of a folder reads of a file. -/
structure SameKeys (s t : Store) (f : FileId) : Prop where
  name : (t.files f).name = (s.files f).name
  modifiedS : (t.files f).modifiedS = (s.files f).modifiedS
  sequence : (t.files f).sequence = (s.files f).sequence
  totalBlocks : (t.files f).totalBlocks = (s.files f).totalBlocks
  size : sizeOf t f = sizeOf s f

theorem SameKeys.sortKey {s t : Store} {f : FileId} (h : SameKeys s t f) (order : PullOrder) :
    FileIterator.sortKey order t f = FileIterator.sortKey order s f := by
  have hrank : rank order t f = rank order s f := by
    cases order with
    | random => rfl
    | alphabetic => rfl
    | smallest => exact h.size
    | largest => exact congrArg Neg.neg h.size
    | oldest => exact h.modifiedS
    | newest => exact congrArg Neg.neg h.modifiedS
  rw [FileIterator.sortKey, FileIterator.sortKey, h.totalBlocks, h.name, hrank]

/-- The same file, with blocks of the same sizes. -/
theorem SameKeys.of_files {s t : Store} {f : FileId} (hblocks : Store.SameBlocks s t) (h : t.files f = s.files f) :
    SameKeys s t f := by
  refine ⟨by rw [h], by rw [h], by rw [h], by rw [h], ?_⟩
  rw [FileIterator.sizeOf, FileIterator.sizeOf, h, hblocks.getSize]

/-- Everything that is done with the queue of a folder info reads the same. -/
structure SameFolder (w w' : Scene) (fi : FolderInfoId) : Prop where
  folderOf : w'.folderOf fi = w.folderOf fi
  pullOrder : (w'.folders (w'.folderOf fi)).pullOrder = (w.folders (w.folderOf fi)).pullOrder
  receives : w'.receives (w'.folderOf fi) = w.receives (w.folderOf fi)
  info : w'.store.infos fi = w.store.infos fi
  keys : ∀ f ∈ w.files fi, SameKeys w.store w'.store f

theorem FolderIterator.Holds.congr {w w' : Scene} {it : FolderIterator} (h : it.Holds w)
    (hsame : SameFolder w w' it.peerFolder) : it.Holds w' where
  listed f hf := by
    show f ∈ (w'.store.infos it.peerFolder).files
    rw [hsame.info]
    exact h.listed f hf
  sorted := h.sorted.congr fun a ha b hb =>
    fileComparator_congr ((hsame.keys a (h.listed a ha)).sortKey it.order)
      ((hsame.keys b (h.listed b hb)).sortKey it.order)

theorem FolderIterator.Sound.congr {w w' : Scene} {it : FolderIterator} (h : it.Sound w)
    (hsame : SameFolder w w' it.peerFolder) : it.Sound w' :=
  ⟨h.toHolds.congr hsame, h.canReceive.trans hsame.receives.symm, h.silent⟩

/-- Only the local device, other devices and the state of the folders have changed, as far as the
iterator is concerned. -/
structure Elsewhere (w w' : Scene) : Prop where
  listed : w'.store.Listed
  nextInfo : w.nextInfo ≤ w'.nextInfo
  folderOf : ∀ fi < w.nextInfo, w'.folderOf fi = w.folderOf fi
  peerInfo : ∀ d, (w'.folders d).peerInfo = (w.folders d).peerInfo
  type : ∀ d, (w'.folders d).type = (w.folders d).type
  pullOrder : ∀ d, (w'.folders d).pullOrder = (w.folders d).pullOrder
  infos : ∀ d fi, (w.folders d).peerInfo = some fi → w'.store.infos fi = w.store.infos fi
  keys : ∀ d fi, (w.folders d).peerInfo = some fi → ∀ f ∈ w.files fi, SameKeys w.store w'.store f

/-- What concerns neither the peer's folder infos nor the options leaves them alone. -/
def State.Lawful (st : State) : Event → Prop
  | .elsewhere w => Elsewhere st.scene w
  | _ => True

/-- The cluster is in order. -/
structure Scene.WF (w : Scene) : Prop where
  listed : w.store.Listed
  folderOf : ∀ d fi, (w.folders d).peerInfo = some fi → w.folderOf fi = d
  fresh : ∀ d fi, (w.folders d).peerInfo = some fi → fi < w.nextInfo

namespace Scene

variable (w : Scene) (d : FolderAddr)

theorem peerInfo_setOptions (options : FolderOptions) (d' : FolderAddr) :
    ((w.setOptions d options).folders d').peerInfo = (w.folders d').peerInfo := by
  by_cases hd : d' = d
  · simp [setOptions, setFolder, hd]
  · simp [setOptions, setFolder, hd]

theorem peerInfo_addInfo (info : FolderInfo) (d' : FolderAddr) :
    ((w.addInfo d info).folders d').peerInfo = if d' = d then some w.nextInfo else (w.folders d').peerInfo := by
  by_cases hd : d' = d
  · simp [addInfo, setFolder, hd]
  · simp [addInfo, setFolder, setInfo, hd]

theorem peerInfo_removeInfo (fi : FolderInfoId) (d' : FolderAddr) :
    ((w.removeInfo d fi).folders d').peerInfo = if d' = d then none else (w.folders d').peerInfo := by
  by_cases hd : d' = d
  · simp [removeInfo, setFolder, hd]
  · simp [removeInfo, setFolder, setInfo, hd]

variable {w d}

/-- The folder infos that are left. -/
theorem WF.of_removeInfo (h : w.WF) {fi fi' : FolderInfoId} {d' : FolderAddr}
    (hfi : (w.folders d).peerInfo = some fi) (hfi' : ((w.removeInfo d fi).folders d').peerInfo = some fi') :
    (w.folders d').peerInfo = some fi' ∧ fi' ≠ fi := by
  rw [peerInfo_removeInfo] at hfi'
  split at hfi'
  · cases hfi'
  · rename_i hd
    refine ⟨hfi', ?_⟩
    rintro rfl
    exact hd ((h.folderOf d' fi' hfi').symm.trans (h.folderOf d fi' hfi))

end Scene

/-- The entries fit to the cluster. -/
structure Based (w : Scene) (x : FileIterator) : Prop extends Scene.WF w where
  live : ∀ it ∈ x.entries, (w.folders (w.folderOf it.peerFolder)).peerInfo = some it.peerFolder
  sound : ∀ it ∈ x.entries, it.Sound w
  inRange : x.InRange

/-- A new index, or a new index id, of one folder info. `files` are those that are new or have
been changed. -/
structure Arrives (w w' : Scene) (fi : FolderInfoId) (files : List FileId) : Prop where
  listed : w'.store.Listed
  folders : w'.folders = w.folders
  folderOf : w'.folderOf = w.folderOf
  nextInfo : w'.nextInfo = w.nextInfo
  others : ∀ fi', fi' ≠ fi → w'.store.infos fi' = w.store.infos fi' ∧
    ∀ f ∈ w.files fi', SameKeys w.store w'.store f
  renewed : ∀ f ∈ w'.files fi, f ∈ files ↔ (w.store.infos fi).maxSequence < (w'.store.files f).sequence

theorem Arrives.sameFolder {w w' : Scene} {fi fi' : FolderInfoId} {files : List FileId}
    (h : Arrives w w' fi files) (hfi : fi' ≠ fi) : SameFolder w w' fi' where
  folderOf := by rw [h.folderOf]
  pullOrder := by rw [h.folderOf, h.folders]
  receives := by rw [h.folderOf, Scene.receives, Scene.receives, h.folders]
  info := (h.others fi' hfi).1
  keys := (h.others fi' hfi).2

theorem Arrives.receives {w w' : Scene} {fi : FolderInfoId} {files : List FileId}
    (h : Arrives w w' fi files) (d : FolderAddr) : w'.receives d = w.receives d := by
  rw [Scene.receives, Scene.receives, h.folders]

/-- **An index message.** -/
theorem arrives_of_applyIndex {st : State} {w : Scene} {fi : FolderInfoId}
    {files : List (Uuid × Proto.FileInfo)} (h : st.scene.store.Listed)
    (hw : st.scene.applyIndex fi files = some w) : Arrives st.scene w fi (st.renewed w fi) := by
  obtain ⟨s, hs, rfl⟩ := Option.map_eq_some_iff.mp hw
  have hrenewed := Store.renewed_of_applyFiles h hs
  refine ⟨hrenewed.listed, rfl, rfl, rfl, fun fi' hfi => ?_, fun f hf => ?_⟩
  · obtain ⟨hinfo, hfiles⟩ := hrenewed.others fi' hfi
    exact ⟨hinfo, fun f hf => SameKeys.of_files hrenewed.blocks (hfiles f hf)⟩
  · simp only [State.renewed, List.mem_filter, decide_eq_true_eq]
    constructor
    · rintro ⟨-, hnot⟩
      exact (hrenewed.files f hf).resolve_left hnot
    · intro hlt
      refine ⟨hf, fun ⟨hold, heq⟩ => ?_⟩
      have hle : (s.files f).sequence ≤ (st.scene.store.infos fi).maxSequence := by
        rw [show s.files f = st.scene.store.files f from heq]
        exact (h.infos fi).bound f hold
      exact absurd hlt (Int.not_lt.mpr hle)

/-- Another folder info with the same files, or none. -/
theorem listed_setInfo {w : Scene} (h : w.store.Listed) (fi : FolderInfoId) {info : FolderInfo}
    (hinfo : info.files = [] ∨ info = w.store.infos fi) (hmax : 0 ≤ info.maxSequence) :
    (w.setInfo fi info).store.Listed := by
  have hother : ∀ fi', fi' ≠ fi → (w.setInfo fi info).store.infos fi' = w.store.infos fi' := fun fi' hfi =>
    Function.update_of_ne hfi _ _
  have hself : (w.setInfo fi info).store.infos fi = info := Function.update_self ..
  have hsub : ∀ fi', ∀ f ∈ ((w.setInfo fi info).store.infos fi').files, f ∈ (w.store.infos fi').files := by
    intro fi' f hf
    by_cases hfi : fi' = fi
    · rw [hfi, hself] at hf
      rcases hinfo with hnil | rfl
      · rw [hnil] at hf
        cases hf
      · rw [hfi]
        exact hf
    · rwa [hother fi' hfi] at hf
  refine ⟨fun fi' => ?_, fun a b f ha hb => h.disjoint a b f (hsub a f ha) (hsub b f hb), fun fi' => ?_,
    fun fi' f hf => h.positive fi' f (hsub fi' f hf)⟩
  · by_cases hfi : fi' = fi
    · subst hfi
      rcases hinfo with hnil | rfl
      · constructor
        all_goals
          rw [hself, hnil]
          simp
      · exact (h.infos fi').of_eq (by rw [hself]) (Nat.le_refl _) fun _ _ => rfl
    · exact (h.infos fi').of_eq (by rw [hother fi' hfi]) (Nat.le_refl _) fun _ _ => rfl
  · by_cases hfi : fi' = fi
    · rw [hfi, hself]
      exact hmax
    · rw [hother fi' hfi]
      exact h.maxSequence fi'

/-- **An index id**: a new one takes all files away. -/
theorem arrives_of_setIndex {w : Scene} (h : w.store.Listed) (fi : FolderInfoId) (index : UInt64) :
    Arrives w (w.setInfo fi (Network.setIndex (w.store.infos fi) index)) fi
      (if index ≠ (w.store.infos fi).index then
        (w.setInfo fi (Network.setIndex (w.store.infos fi) index)).files fi else []) := by
  have hself : (w.setInfo fi (Network.setIndex (w.store.infos fi) index)).store.infos fi =
      Network.setIndex (w.store.infos fi) index := Function.update_self ..
  refine ⟨listed_setInfo h fi ?_ ?_, rfl, rfl, rfl, fun fi' hfi => ⟨Function.update_of_ne hfi _ _, fun f _ =>
    ⟨rfl, rfl, rfl, rfl, rfl⟩⟩, fun f hf => ?_⟩
  · unfold Network.setIndex
    split
    · exact .inl rfl
    · exact .inr rfl
  · unfold Network.setIndex
    split
    · exact Int.le_refl _
    · exact h.maxSequence fi
  · rw [Scene.files, hself] at hf
    unfold Network.setIndex at hf
    split at hf
    · cases hf
    · rename_i hsame
      rw [if_neg hsame]
      have hle := (h.infos fi).bound f hf
      exact ⟨fun hmem => absurd hmem List.not_mem_nil, fun hlt => absurd hlt (Int.not_lt.mpr hle)⟩

namespace Based

variable {w w' : Scene} {x x' : FileIterator} {fi : FolderInfoId} {d : FolderAddr}

/-- The entries of a folder are entries of its folder info. -/
theorem peerFolder_eq (h : Based w x) {it : FolderIterator} (hit : it ∈ x.entries)
    (hfi : (w.folders (w.folderOf it.peerFolder)).peerInfo = some fi) : it.peerFolder = fi := by
  have hlive := h.live it hit
  rw [hfi] at hlive
  exact (Option.some.inj hlive).symm

/-- A folder that is not shared has no entry. -/
theorem folderOf_ne_of_none (h : Based w x) (hd : (w.folders d).peerInfo = none) {it : FolderIterator}
    (hit : it ∈ x.entries) : w.folderOf it.peerFolder ≠ d := by
  rintro rfl
  rw [h.live it hit] at hd
  cases hd

/-- The folder's entries that take files. -/
theorem accepts_iff (h : Based w x) (hfi : (w.folders d).peerInfo = some fi) {it : FolderIterator}
    (hit : it ∈ x.entries) : accepts w d it = true ↔ it.peerFolder = fi ∧ w.receives d = true := by
  unfold accepts
  rw [decide_eq_true_eq, (h.sound it hit).canReceive]
  constructor
  · rintro ⟨hd, hreceives⟩
    exact ⟨h.peerFolder_eq hit (by rw [hd]; exact hfi), by rw [← hd]; exact hreceives⟩
  · rintro ⟨rfl, hreceives⟩
    rw [h.folderOf d it.peerFolder hfi]
    exact ⟨rfl, hreceives⟩

/-- The queues of the folder are in order, those of duplicate entries included; the first one may
be cleared instead. -/
def Ready (w : Scene) (x : FileIterator) (d : FolderAddr) : Prop :=
  (∀ it ∈ (x.entries.filter (accepts w d)).head?, it.Keeps w) ∧
    ∀ it ∈ (x.entries.filter (accepts w d)).tail, it.Holds w

instance (w : Scene) (x : FileIterator) (d : FolderAddr) : Decidable (Ready w x d) :=
  inferInstanceAs (Decidable (_ ∧ _))

theorem Ready.of_split {as bs : List FolderIterator} {it : FolderIterator} (h : Ready w x d)
    (heq : x.entries = as ++ it :: bs) (has : ∀ a ∈ as, accepts w d a = false) (hit : accepts w d it = true) :
    it.Keeps w ∧ ∀ it' ∈ bs, accepts w d it' = true → it'.Holds w := by
  have hfilter : x.entries.filter (accepts w d) = it :: bs.filter (accepts w d) := by
    rw [heq, List.filter_append, List.filter_cons_of_pos hit, List.filter_eq_nil_iff.mpr fun a ha => by simp [has a ha],
      List.nil_append]
  obtain ⟨hfirst, hrest⟩ := h
  rw [hfilter] at hfirst hrest
  exact ⟨hfirst it rfl, fun it' hit' ha => hrest it' (List.mem_filter.mpr ⟨hit', ha⟩)⟩

/-- Nothing is populated that is out of order. -/
theorem Ready.keeps {it : FolderIterator} (h : Ready w x d) (hit : it ∈ x.entries) (ha : accepts w d it = true) :
    it.Keeps w := by
  have hmem : it ∈ x.entries.filter (accepts w d) := List.mem_filter.mpr ⟨hit, ha⟩
  obtain ⟨hfirst, hrest⟩ := h
  cases heq : x.entries.filter (accepts w d) with
  | nil =>
    rw [heq] at hmem
    cases hmem
  | cons first rest =>
    rw [heq] at hmem hfirst hrest
    rcases List.mem_cons.mp hmem with rfl | hmem
    · exact hfirst it rfl
    · exact (hrest it hmem).keeps

/-- What `on_upsert` does: the first entry of the folder is populated, or there is a new one. -/
theorem onUpsertInfo_cases (w : Scene) (x : FileIterator) (fi : FolderInfoId) :
    (∃ as it bs, x.entries = as ++ it :: bs ∧ (∀ a ∈ as, accepts w (w.folderOf fi) a = false) ∧
      accepts w (w.folderOf fi) it = true ∧
      x.onUpsertInfo w fi = { x with entries := as ++ it.populate w :: bs }) ∨
    ((∀ it ∈ x.entries, accepts w (w.folderOf fi) it = false) ∧
      x.onUpsertInfo w fi = { x with entries := x.entries ++ [prepare w fi] }) := by
  cases hany : x.entries.any (accepts w (w.folderOf fi)) with
  | true =>
    obtain ⟨as, it, bs, heq, has, hit⟩ := exists_first hany
    refine .inl ⟨as, it, bs, heq, has, hit, ?_⟩
    rw [onUpsertInfo, if_pos hany, heq, modifyFirst_append has hit]
  | false =>
    refine .inr ⟨fun it hit => ?_, by rw [onUpsertInfo, if_neg (by simp [hany])]⟩
    simpa using List.any_eq_false.mp hany it hit

/-- **A new index** or a new index id of a folder that is shared. -/
theorem onUpsertInfo (h : Based w x) {files : List FileId} (ha : Arrives w w' fi files)
    (hfi : (w.folders d).peerInfo = some fi) (hready : Ready w' x d) : Based w' (x.onUpsertInfo w' fi) := by
  have hd : w'.folderOf fi = d := by rw [ha.folderOf, h.folderOf d fi hfi]
  have hsame : ∀ it ∈ x.entries, accepts w' d it = accepts w d it := fun it _ => by
    unfold accepts
    rw [ha.folderOf]
  have hwf : w'.WF := ⟨ha.listed, by rw [ha.folders, ha.folderOf]; exact h.folderOf,
    by rw [ha.folders, ha.nextInfo]; exact h.fresh⟩
  have hlive : ∀ it ∈ x.entries, (w'.folders (w'.folderOf it.peerFolder)).peerInfo = some it.peerFolder := by
    rw [ha.folders, ha.folderOf]
    exact h.live
  have hcan : ∀ it ∈ x.entries, it.canReceive = w'.receives (w'.folderOf it.peerFolder) := by
    intro it hit
    rw [ha.receives, ha.folderOf]
    exact (h.sound it hit).canReceive
  -- an entry that is left as it is
  have hkept : ∀ it ∈ x.entries, (accepts w' d it = true → it.Holds w') → it.Sound w' := by
    intro it hit hholds
    by_cases heq : it.peerFolder = fi
    · have hold := h.sound it hit
      refine ⟨?_, hcan it hit, hold.silent⟩
      cases hreceives : w.receives d with
      | true => exact hholds (by rw [hsame it hit, h.accepts_iff hfi hit]; exact ⟨heq, hreceives⟩)
      | false =>
        refine Holds.of_nil (hold.silent ?_)
        rw [hold.canReceive, heq, h.folderOf d fi hfi, hreceives]
    · exact (h.sound it hit).congr (ha.sameFolder heq)
  rcases onUpsertInfo_cases w' x fi with ⟨as, it, bs, heq, has, hit, hx⟩ | ⟨hnone, hx⟩
  · rw [hd] at has hit
    obtain ⟨hkeeps, hrest⟩ := hready.of_split heq has hit
    have hmem : it ∈ x.entries := by rw [heq]; simp
    have hpop := populate_spec ha.listed hkeeps
    have hmembers : ∀ it' ∈ as ++ it.populate w' :: bs, it' ∈ as ∨ it' = it.populate w' ∨ it' ∈ bs :=
      fun it' hit' => by simpa using hit'
    rw [hx]
    refine ⟨hwf, fun it' hit' => ?_, fun it' hit' => ?_, .inl ?_⟩
    · rcases hmembers it' hit' with hit' | rfl | hit'
      · exact hlive it' (by rw [heq]; simp [hit'])
      · rw [hpop.peerFolder]
        exact hlive it hmem
      · exact hlive it' (by rw [heq]; simp [hit'])
    · rcases hmembers it' hit' with hit' | rfl | hit'
      · exact hkept it' (by rw [heq]; simp [hit']) fun hacc => by rw [has it' hit'] at hacc; cases hacc
      · refine ⟨hpop.holds, ?_, fun hfalse => ?_⟩
        · rw [hpop.canReceive, hpop.peerFolder]
          exact hcan it hmem
        · rw [hpop.canReceive] at hfalse
          have htrue := (decide_eq_true_eq.mp hit).2
          rw [hfalse] at htrue
          cases htrue
      · exact hkept it' (by rw [heq]; simp [hit']) (hrest it' hit')
    · have hlength : (as ++ it.populate w' :: bs).length = x.entries.length := by rw [heq]; simp
      show x.folderIndex < _
      rw [hlength]
      exact h.inRange.lt hmem
  · rw [hd] at hnone
    have hprep := prepare_spec ha.listed fi
    rw [hx]
    refine ⟨hwf, fun it hit => ?_, fun it hit => ?_, h.inRange.append _⟩
    · rcases List.mem_append.mp hit with hit | hit
      · exact hlive it hit
      · rw [List.mem_singleton.mp hit, hprep.peerFolder, hd, ha.folders]
        exact hfi
    · rcases List.mem_append.mp hit with hit | hit
      · exact hkept it hit fun hacc => by rw [hnone it hit] at hacc; cases hacc
      · rw [List.mem_singleton.mp hit]
        exact hprep.toSound

/-- The folder infos of the entries have addresses already. -/
theorem lt_nextInfo (h : Based w x) {it : FolderIterator} (hit : it ∈ x.entries) : it.peerFolder < w.nextInfo :=
  h.fresh _ _ (h.live it hit)

theorem sameFolder_addInfo (h : Based w x) (hd : (w.folders d).peerInfo = none) {info : FolderInfo}
    {it : FolderIterator} (hit : it ∈ x.entries) : SameFolder w (w.addInfo d info) it.peerFolder := by
  have hne : it.peerFolder ≠ w.nextInfo := Nat.ne_of_lt (h.lt_nextInfo hit)
  have hfolderOf : (w.addInfo d info).folderOf it.peerFolder = w.folderOf it.peerFolder :=
    Function.update_of_ne hne _ _
  have hfolder : (w.addInfo d info).folders (w.folderOf it.peerFolder) = w.folders (w.folderOf it.peerFolder) :=
    Function.update_of_ne (h.folderOf_ne_of_none hd hit) _ _
  refine ⟨hfolderOf, ?_, ?_, Function.update_of_ne hne _ _, fun f _ => ⟨rfl, rfl, rfl, rfl, rfl⟩⟩
  · rw [hfolderOf, hfolder]
  · rw [hfolderOf, Scene.receives, Scene.receives, hfolder]

/-- **A folder is shared**: it has no entry yet, and gets a new one. -/
theorem addInfo (h : Based w x) (hd : (w.folders d).peerInfo = none) {info : FolderInfo}
    (hfiles : info.files = []) (hmax : 0 ≤ info.maxSequence) :
    Based (w.addInfo d info) (x.onUpsertInfo (w.addInfo d info) w.nextInfo) ∧
      x.onUpsertInfo (w.addInfo d info) w.nextInfo =
        { x with entries := x.entries ++ [prepare (w.addInfo d info) w.nextInfo] } := by
  have hself : (w.addInfo d info).folderOf w.nextInfo = d := Function.update_self ..
  have hother : ∀ fi < w.nextInfo, (w.addInfo d info).folderOf fi = w.folderOf fi := fun fi hlt =>
    Function.update_of_ne (Nat.ne_of_lt hlt) _ _
  have hlisted : (w.addInfo d info).store.Listed := listed_setInfo h.listed w.nextInfo (.inl hfiles) hmax
  have hprep := prepare_spec hlisted w.nextInfo
  have heq : x.onUpsertInfo (w.addInfo d info) w.nextInfo =
      { x with entries := x.entries ++ [prepare (w.addInfo d info) w.nextInfo] } := by
    rcases onUpsertInfo_cases (w.addInfo d info) x w.nextInfo with ⟨as, it, bs, hx, -, hit, -⟩ | ⟨-, hx⟩
    · have hmem : it ∈ x.entries := by rw [hx]; simp
      have hfolder := (decide_eq_true_eq.mp hit).1
      rw [hother _ (h.lt_nextInfo hmem), hself] at hfolder
      exact absurd hfolder (h.folderOf_ne_of_none hd hmem)
    · exact hx
  refine ⟨?_, heq⟩
  rw [heq]
  refine ⟨⟨hlisted, fun d' fi hfi => ?_, fun d' fi hfi => ?_⟩, fun it hit => ?_, fun it hit => ?_, h.inRange.append _⟩
  · rw [Scene.peerInfo_addInfo] at hfi
    split at hfi
    · rename_i heq'
      cases hfi
      rw [hself, heq']
    · rw [hother fi (h.fresh d' fi hfi)]
      exact h.folderOf d' fi hfi
  · rw [Scene.peerInfo_addInfo] at hfi
    show fi < w.nextInfo + 1
    split at hfi
    · cases hfi
      exact Nat.lt_succ_self _
    · exact Nat.lt_succ_of_lt (h.fresh d' fi hfi)
  · rcases List.mem_append.mp hit with hit | hit
    · rw [hother _ (h.lt_nextInfo hit), Scene.peerInfo_addInfo, if_neg (h.folderOf_ne_of_none hd hit)]
      exact h.live it hit
    · rw [List.mem_singleton.mp hit, hprep.peerFolder, hself, Scene.peerInfo_addInfo, if_pos rfl]
  · rcases List.mem_append.mp hit with hit | hit
    · exact (h.sound it hit).congr (h.sameFolder_addInfo hd hit)
    · rw [List.mem_singleton.mp hit]
      exact hprep.toSound

theorem sameFolder_setOptions {options : FolderOptions} (hne : w.folderOf fi ≠ d) :
    SameFolder w (w.setOptions d options) fi := by
  have hfolder : (w.setOptions d options).folders (w.folderOf fi) = w.folders (w.folderOf fi) :=
    Function.update_of_ne hne _ _
  refine ⟨rfl, ?_, ?_, rfl, fun f _ => ⟨rfl, rfl, rfl, rfl, rfl⟩⟩
  · exact congrArg (fun folder : FolderState => folder.pullOrder) hfolder
  · show (w.setOptions d options).receives (w.folderOf fi) = _
    rw [Scene.receives, Scene.receives, hfolder]

/-- **Other options** of a folder. -/
theorem onUpsertFolder (h : Based w x) (d : FolderAddr) (options : FolderOptions) :
    Based (w.setOptions d options) (x.onUpsertFolder (w.setOptions d options) d) := by
  have hmem : ∀ it' ∈ (x.onUpsertFolder (w.setOptions d options) d).entries, ∃ it ∈ x.entries,
      it'.Sound (w.setOptions d options) ∧ it'.peerFolder = it.peerFolder := by
    intro it' hit'
    obtain ⟨it, hit, rfl⟩ := List.mem_map.mp hit'
    refine ⟨it, hit, ?_⟩
    have hsound := h.sound it hit
    by_cases hd : (w.setOptions d options).folderOf it.peerFolder = d
    · have hups := @upsertFolder_spec (w.setOptions d options) h.listed it
        ⟨hsound.listed, hsound.sorted⟩ hsound.silent
      rw [if_pos hd]
      exact ⟨hups.toSound, hups.peerFolder⟩
    · rw [if_neg hd]
      exact ⟨hsound.congr (sameFolder_setOptions hd), rfl⟩
  refine ⟨⟨h.listed, fun d' fi hfi => ?_, fun d' fi hfi => ?_⟩, fun it' hit' => ?_, fun it' hit' => ?_, ?_⟩
  · exact h.folderOf d' fi (by rwa [Scene.peerInfo_setOptions] at hfi)
  · exact h.fresh d' fi (by rwa [Scene.peerInfo_setOptions] at hfi)
  · obtain ⟨it, hit, -, hpeer⟩ := hmem it' hit'
    rw [Scene.peerInfo_setOptions, hpeer]
    exact h.live it hit
  · exact (hmem it' hit').choose_spec.2.1
  · have hlength : (x.onUpsertFolder (w.setOptions d options) d).entries.length = x.entries.length :=
      List.length_map ..
    rw [InRange, hlength]
    exact h.inRange

/-- The options of a folder that is not shared. -/
theorem setOptions_of_none (h : Based w x) (hd : (w.folders d).peerInfo = none) (options : FolderOptions) :
    Based (w.setOptions d options) x := by
  refine ⟨⟨h.listed, fun d' fi hfi => ?_, fun d' fi hfi => ?_⟩, fun it hit => ?_, fun it hit => ?_, h.inRange⟩
  · exact h.folderOf d' fi (by rwa [Scene.peerInfo_setOptions] at hfi)
  · exact h.fresh d' fi (by rwa [Scene.peerInfo_setOptions] at hfi)
  · rw [Scene.peerInfo_setOptions]
    exact h.live it hit
  · exact (h.sound it hit).congr (sameFolder_setOptions (h.folderOf_ne_of_none hd hit))

/-- What `on_remove` leaves. -/
theorem mem_onRemove {x : FileIterator} {fi : FolderInfoId} {it : FolderIterator}
    (hit : it ∈ (x.onRemove fi).entries) : it ∈ x.entries := by
  unfold onRemove at hit
  split at hit
  · exact List.mem_of_mem_eraseP hit
  · exact hit

theorem sameFolder_removeInfo {fi fi' : FolderInfoId} (hne : fi' ≠ fi) : SameFolder w (w.removeInfo d fi) fi' := by
  -- the options stay as they are, also those of the folder
  have hoptions : ((w.removeInfo d fi).folders (w.folderOf fi')).toFolderOptions =
      (w.folders (w.folderOf fi')).toFolderOptions := by
    by_cases hd : w.folderOf fi' = d
    · simp [Scene.removeInfo, Scene.setFolder, hd]
    · simp [Scene.removeInfo, Scene.setFolder, Scene.setInfo, hd]
  refine ⟨rfl, congrArg FolderOptions.pullOrder hoptions, ?_, Function.update_of_ne hne _ _,
    fun f _ => ⟨rfl, rfl, rfl, rfl, rfl⟩⟩
  show (w.removeInfo d fi).receives (w.folderOf fi') = _
  rw [Scene.receives, Scene.receives, hoptions]

/-- **A folder is not shared any more**: no entry of it may be left. -/
theorem onRemove (h : Based w x) (hfi : (w.folders d).peerInfo = some fi)
    (hgone : ∀ it ∈ (x.onRemove fi).entries, it.peerFolder ≠ fi) :
    Based (w.removeInfo d fi) (x.onRemove fi) := by
  refine ⟨⟨?_, fun d' fi' hfi' => h.folderOf d' fi' (h.of_removeInfo hfi hfi').1, fun d' fi' hfi' =>
    h.fresh d' fi' (h.of_removeInfo hfi hfi').1⟩, fun it hit => ?_, fun it hit => ?_, ?_⟩
  · exact listed_setInfo h.listed fi (.inl rfl) (h.listed.maxSequence fi)
  · have hne := hgone it hit
    show ((w.removeInfo d fi).folders (w.folderOf it.peerFolder)).peerInfo = _
    rw [Scene.peerInfo_removeInfo, if_neg]
    · exact h.live it (mem_onRemove hit)
    · intro hd
      exact hne (h.peerFolder_eq (mem_onRemove hit) (by rw [hd]; exact hfi))
  · exact (h.sound it (mem_onRemove hit)).congr (sameFolder_removeInfo (hgone it hit))
  · unfold FileIterator.onRemove
    split
    · exact .inr rfl
    · exact h.inRange

/-- An entry that a file is inserted into. -/
theorem recheck_entry (h : Based w x) {it : FolderIterator} (hit : it ∈ x.entries) {f : FileId}
    (hf : f ∈ w.files it.peerFolder) (hcan : it.canReceive = true) :
    (it.insertAll w [f]).Sound w ∧ ∀ g, g ∈ (it.insertAll w [f]).queue ↔ g ∈ it.queue ∨ g = f := by
  have hsound := h.sound it hit
  obtain ⟨hholds, hmem⟩ := @insertAll_spec w h.listed it hsound.toHolds [f] (by simpa using hf)
  refine ⟨⟨hholds, hsound.canReceive, fun hfalse => ?_⟩, fun g => by rw [hmem, List.mem_singleton]⟩
  rw [show it.canReceive = false from hfalse] at hcan
  cases hcan

/-- **Recheck** of a file of a folder info. -/
theorem recheck (h : Based w x) {f : FileId} (hf : f ∈ w.files fi) : Based w (x.recheck w fi f) := by
  have hmem : ∀ it' ∈ (x.recheck w fi f).entries, ∃ it ∈ x.entries, it'.Sound w ∧ it'.peerFolder = it.peerFolder := by
    intro it' hit'
    rcases mem_modifyFirst hit' with hit' | ⟨it, hit, hpeer, rfl⟩
    · exact ⟨it', hit', h.sound it' hit', rfl⟩
    · refine ⟨it, hit, ?_⟩
      have hpeer' : it.peerFolder = fi := by simpa using hpeer
      split
      · rename_i hcond
        rw [Bool.and_eq_true] at hcond
        exact ⟨(h.recheck_entry hit (by rw [hpeer']; exact hf) hcond.1).1, rfl⟩
      · exact ⟨h.sound it hit, rfl⟩
  have hlength : (x.recheck w fi f).entries.length = x.entries.length := by
    have hmap := map_modifyFirst (p := fun it : FolderIterator => it.peerFolder = fi) (k := fun _ => ())
      (g := fun it => if it.canReceive && w.wanted fi f then it.insertAll w [f] else it) (fun _ => rfl) x.entries
    exact (List.length_map ..).symm.trans ((congrArg List.length hmap).trans (List.length_map ..))
  refine ⟨h.toWF, fun it' hit' => ?_, fun it' hit' => (hmem it' hit').choose_spec.2.1, ?_⟩
  · obtain ⟨it, hit, -, hpeer⟩ := hmem it' hit'
    rw [hpeer]
    exact h.live it hit
  · rw [InRange, hlength]
    exact h.inRange

theorem sameFolder_elsewhere (h : Based w x) (he : Elsewhere w w') {it : FolderIterator} (hit : it ∈ x.entries) :
    SameFolder w w' it.peerFolder := by
  have hfolder := he.folderOf _ (h.lt_nextInfo hit)
  refine ⟨hfolder, ?_, ?_, he.infos _ _ (h.live it hit), he.keys _ _ (h.live it hit)⟩
  · rw [hfolder, he.pullOrder]
  · rw [hfolder, Scene.receives, Scene.receives, he.type]

/-- **Anything else.** -/
theorem elsewhere (h : Based w x) (he : Elsewhere w w') : Based w' x := by
  refine ⟨⟨he.listed, fun d fi hfi => ?_, fun d fi hfi => ?_⟩, fun it hit => ?_,
    fun it hit => (h.sound it hit).congr (h.sameFolder_elsewhere he hit), h.inRange⟩
  · rw [he.peerInfo] at hfi
    rw [he.folderOf fi (h.fresh d fi hfi)]
    exact h.folderOf d fi hfi
  · rw [he.peerInfo] at hfi
    exact Nat.lt_of_lt_of_le (h.fresh d fi hfi) he.nextInfo
  · rw [he.peerInfo, he.folderOf _ (h.lt_nextInfo hit)]
    exact h.live it hit

/-- **Next** takes files out. -/
theorem next (h : Based w x) {found : Option Found} (hnext : Next w x found x') : Based w x' := by
  refine ⟨h.toWF, fun it' hit' => ?_, fun it' hit' => ?_, ?_⟩
  · obtain ⟨it, hit, htaken⟩ := hnext.exists_old hit'
    rw [htaken.peerFolder]
    exact h.live it hit
  · obtain ⟨it, hit, htaken⟩ := hnext.exists_old hit'
    have hsound := h.sound it hit
    rw [htaken.eq]
    refine ⟨hsound.toHolds.sublist htaken.suffix.sublist, hsound.canReceive, fun hfalse => ?_⟩
    have hnil := htaken.suffix
    rw [hsound.silent hfalse] at hnil
    exact List.suffix_nil.mp hnil
  · exact hnext.inRange h.inRange

/-- **The constructor.** -/
theorem initial (h : w.WF) (folders : List FolderAddr) : Based w (create w folders) := by
  have hmem : ∀ it ∈ (create w folders).entries, ∃ d fi, (w.folders d).peerInfo = some fi ∧ it = prepare w fi := by
    intro it hit
    obtain ⟨d, -, hd⟩ := List.mem_filterMap.mp hit
    obtain ⟨fi, hfi, rfl⟩ := Option.map_eq_some_iff.mp hd
    exact ⟨d, fi, hfi, rfl⟩
  refine ⟨h, fun it hit => ?_, fun it hit => ?_, .inr rfl⟩
  · obtain ⟨d, fi, hfi, rfl⟩ := hmem it hit
    rw [(prepare_spec h.listed fi).peerFolder, h.folderOf d fi hfi]
    exact hfi
  · obtain ⟨d, fi, hfi, rfl⟩ := hmem it hit
    exact (prepare_spec h.listed fi).toSound

end Based

namespace State

/-- What one event does. -/
inductive Stepped (st : State) : Event → State → Prop
  | nothing (e : Event) : Stepped st e st
  | index {d : FolderAddr} {fi : FolderInfoId} {files : List (Uuid × Proto.FileInfo)} {w : Scene}
      (hfi : (st.scene.folders d).peerInfo = some fi) (hw : st.scene.applyIndex fi files = some w) :
      Stepped st (.index d files) (st.arrive w (st.iterator.onUpsertInfo w fi) fi (st.renewed w fi))
  | indexId {d : FolderAddr} {fi : FolderInfoId} {w : Scene} (uuid : Uuid) (device introducer : Sha256)
      (index : UInt64) (hfi : (st.scene.folders d).peerInfo = some fi)
      (hw : w = st.scene.setInfo fi (Network.setIndex (st.scene.store.infos fi) index)) :
      Stepped st (.upsertFolderInfo d uuid device introducer index)
        (st.arrive w (st.iterator.onUpsertInfo w fi) fi
          (if index ≠ (st.scene.store.infos fi).index then w.files fi else []))
  | shared {d : FolderAddr} {w : Scene} (uuid : Uuid) (device introducer : Sha256) (index : UInt64)
      (hd : (st.scene.folders d).peerInfo = none)
      (hw : w = st.scene.addInfo d ⟨uuid, device, [], 0, index, introducer⟩) :
      Stepped st (.upsertFolderInfo d uuid device introducer index)
        (st.arrive w (st.iterator.onUpsertInfo w st.scene.nextInfo) st.scene.nextInfo (w.files st.scene.nextInfo))
  | options {d : FolderAddr} {fi : FolderInfoId} {w : Scene} (options : FolderOptions)
      (hfi : (st.scene.folders d).peerInfo = some fi) (hw : w = st.scene.setOptions d options) :
      Stepped st (.upsertFolder d options)
        (st.arrive w (st.iterator.onUpsertFolder w d) fi (if st.scene.receives d then [] else w.files fi))
  | unsharedOptions {d : FolderAddr} (options : FolderOptions) (hd : (st.scene.folders d).peerInfo = none) :
      Stepped st (.upsertFolder d options) (st.arrive (st.scene.setOptions d options) st.iterator 0 [])
  | removed {d : FolderAddr} {fi : FolderInfoId} (hfi : (st.scene.folders d).peerInfo = some fi) :
      Stepped st (.removeFolderInfo d) (st.arrive (st.scene.removeInfo d fi) (st.iterator.onRemove fi) fi [])
  | rechecked {d : FolderAddr} {fi : FolderInfoId} {f : FileId} (name : String)
      (hfi : (st.scene.folders d).peerInfo = some fi) (hf : f ∈ st.scene.files fi) :
      Stepped st (.recheck d name) (st.arrive st.scene (st.iterator.recheck st.scene fi f) fi [f])
  | elsewhere (w : Scene) : Stepped st (.elsewhere w) (st.arrive w st.iterator 0 [])
  | next {found : Option Found} {x : FileIterator} (hnext : Next st.scene st.iterator found x) :
      Stepped st .next { st with
        iterator := x
        due := fun fi => (st.due fi).filter fun f => !st.scene.isLocked f && st.scene.wanted fi f &&
          found.map Found.peerFile ≠ some f
        returned := st.returned ++ (found.map Found.peerFile).toList }

/-- **The step, by cases.** -/
theorem stepped {st st' : State} {e : Event} (hstep : st.step e = some st') : Stepped st e st' := by
  cases e with
  | index d files =>
    unfold State.step at hstep
    dsimp only at hstep
    split at hstep
    · cases hstep
      exact .nothing _
    · rename_i fi hfi
      obtain ⟨w, hw, rfl⟩ := Option.map_eq_some_iff.mp hstep
      exact .index hfi hw
  | upsertFolderInfo d uuid device introducer index =>
    unfold State.step at hstep
    dsimp only at hstep
    split at hstep
    · rename_i fi hfi
      cases hstep
      exact .indexId uuid device introducer index hfi rfl
    · rename_i hnone
      cases hstep
      exact .shared uuid device introducer index hnone rfl
  | upsertFolder d options =>
    unfold State.step at hstep
    dsimp only at hstep
    rw [Scene.peerInfo_setOptions] at hstep
    split at hstep
    · rename_i hnone
      cases hstep
      exact .unsharedOptions options hnone
    · rename_i fi hfi
      cases hstep
      exact .options options hfi rfl
  | removeFolderInfo d =>
    unfold State.step at hstep
    dsimp only at hstep
    split at hstep
    · cases hstep
      exact .nothing _
    · rename_i fi hfi
      cases hstep
      exact .removed hfi
  | recheck d name =>
    unfold State.step at hstep
    dsimp only at hstep
    split at hstep
    · cases hstep
      exact .nothing _
    · rename_i fi f hfound
      cases hstep
      obtain ⟨fi', hfi, hname⟩ := Option.bind_eq_some_iff.mp hfound
      obtain ⟨f', hf, heq⟩ := Option.map_eq_some_iff.mp hname
      cases heq
      exact .rechecked name hfi (List.mem_of_find?_eq_some hf)
  | elsewhere w =>
    cases hstep
    exact .elsewhere w
  | next =>
    cases hstep
    exact .next (next_spec rfl)

end State

end SyncSpirit
