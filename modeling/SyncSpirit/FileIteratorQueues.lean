import SyncSpirit.FileIteratorComplete

/-!
# One queue for each folder, in the folder's order

`State.Tidy` is what a reader of the iterator takes for granted: a folder has one entry, the
queue of the entry is in the pull order of the folder and has files of the folder info only, and
what `next` returns has not been returned before, unless an update or a recheck has put it back.

`on_upsert` only looks at entries that take files, so that an index message for a send-only
folder makes a second entry. And the comparator of a queue follows the pull order as long as the
folder takes files, but not when it starts to. `Prudent` excludes these two and the changes of
files that are in a queue; `Tracked` is kept by everything else.
-/

namespace SyncSpirit

open FileIterator FolderIterator

namespace State

/-- The representation of the iterator. -/
structure Tidy (st : State) : Prop where
  single : (st.iterator.entries.map fun it => st.scene.folderOf it.peerFolder).Nodup
  listed : ∀ it ∈ st.iterator.entries, ∀ f ∈ it.queue, f ∈ st.scene.files it.peerFolder
  sorted : ∀ it ∈ st.iterator.entries, SortedSet.Sorted (fileComparator
    (st.scene.folders (st.scene.folderOf it.peerFolder)).pullOrder st.scene.store) it.queue
  once : ∀ found ∈ (st.iterator.next st.scene).1, found.peerFile ∉ st.returned

instance (st : State) : Decidable st.Tidy :=
  have : ∀ order q, Decidable (SortedSet.Sorted (fileComparator order st.scene.store) q) := fun _ q =>
    inferInstanceAs (Decidable (List.Pairwise _ q))
  decidable_of_iff ((st.iterator.entries.map fun it => st.scene.folderOf it.peerFolder).Nodup ∧
      (∀ it ∈ st.iterator.entries, ∀ f ∈ it.queue, f ∈ st.scene.files it.peerFolder) ∧
      (∀ it ∈ st.iterator.entries, SortedSet.Sorted (fileComparator
        (st.scene.folders (st.scene.folderOf it.peerFolder)).pullOrder st.scene.store) it.queue) ∧
      ∀ found ∈ (st.iterator.next st.scene).1, found.peerFile ∉ st.returned)
    ⟨fun h => ⟨h.1, h.2.1, h.2.2.1, h.2.2.2⟩, fun h => ⟨h.single, h.listed, h.sorted, h.once⟩⟩

/-- The entries of a folder info are in order, or will be cleared. -/
def Intact (w : Scene) (x : FileIterator) (fi : FolderInfoId) : Prop :=
  ∀ it ∈ x.entries, it.peerFolder = fi → it.Keeps w

instance (w : Scene) (x : FileIterator) (fi : FolderInfoId) : Decidable (Intact w x fi) :=
  inferInstanceAs (Decidable (∀ it ∈ x.entries, it.peerFolder = fi → it.Keeps w))

/-- The folder takes files when its folder info is updated, no queued file changes its place, and
the pull order is the one of the entry when the folder starts to take files. -/
def Prudent (st : State) : Event → Prop
  | .index d files => ∀ fi ∈ (st.scene.folders d).peerInfo,
    st.scene.receives d = true ∧ ∀ w ∈ st.scene.applyIndex fi files, Intact w st.iterator fi
  | .upsertFolderInfo d _ _ _ index => ∀ fi ∈ (st.scene.folders d).peerInfo,
    st.scene.receives d = true ∧
      Intact (st.scene.setInfo fi (Network.setIndex (st.scene.store.infos fi) index)) st.iterator fi
  | .upsertFolder d options => st.scene.receives d = false → options.type ≠ .send →
    ∀ it ∈ st.iterator.entries, st.scene.folderOf it.peerFolder = d → it.order = options.pullOrder
  | _ => True

instance (st : State) : ∀ e, Decidable (st.Prudent e)
  | .index d files => inferInstanceAs (Decidable (∀ fi ∈ (st.scene.folders d).peerInfo,
    st.scene.receives d = true ∧ ∀ w ∈ st.scene.applyIndex fi files, Intact w st.iterator fi))
  | .upsertFolderInfo d _ _ _ index => inferInstanceAs (Decidable (∀ fi ∈ (st.scene.folders d).peerInfo,
    st.scene.receives d = true ∧
      Intact (st.scene.setInfo fi (Network.setIndex (st.scene.store.infos fi) index)) st.iterator fi))
  | .upsertFolder d options => inferInstanceAs (Decidable (st.scene.receives d = false → options.type ≠ .send →
    ∀ it ∈ st.iterator.entries, st.scene.folderOf it.peerFolder = d → it.order = options.pullOrder))
  | .removeFolderInfo _ => inferInstanceAs (Decidable True)
  | .recheck _ _ => inferInstanceAs (Decidable True)
  | .elsewhere _ => inferInstanceAs (Decidable True)
  | .next => inferInstanceAs (Decidable True)

end State

/-! ## The entries -/

/-- An entry that takes files has the order of the folder, and has seen all files. -/
def FolderIterator.Current (w : Scene) (it : FolderIterator) : Prop :=
  it.canReceive = true → it.order = (w.folders (w.folderOf it.peerFolder)).pullOrder ∧
    it.seenSequence = (w.store.infos it.peerFolder).maxSequence

theorem FolderIterator.Current.congr {w w' : Scene} {it : FolderIterator} (h : it.Current w)
    (hsame : SameFolder w w' it.peerFolder) : it.Current w' := by
  intro hcan
  rw [hsame.pullOrder, hsame.info]
  exact h hcan

theorem FolderIterator.Prepared.current {w : Scene} {fi : FolderInfoId} {it : FolderIterator}
    (h : Prepared w fi it) : it.Current w := by
  intro hcan
  rw [h.peerFolder]
  exact ⟨h.order, h.seenSequence hcan⟩

/-- Every shared folder has one entry, that is up to date. -/
structure Tracked (w : Scene) (x : FileIterator) : Prop extends Based w x where
  unique : (x.entries.map FolderIterator.peerFolder).Nodup
  present : ∀ d fi, (w.folders d).peerInfo = some fi → ∃ it ∈ x.entries, it.peerFolder = fi
  current : ∀ it ∈ x.entries, it.Current w

/-- A file in a queue has been in one before, or is one of the files that have come and should be
taken. -/
def Inserts (w : Scene) (x x' : FileIterator) (fi : FolderInfoId) (files : List FileId) : Prop :=
  ∀ it' ∈ x'.entries, ∀ f ∈ it'.queue, (∃ it ∈ x.entries, f ∈ it.queue) ∨
    (f ∈ files ∧ w.receives (w.folderOf fi) = true ∧ f ∈ w.files fi ∧ w.wanted fi f = true)

namespace Tracked

variable {w w' : Scene} {x x' : FileIterator} {fi : FolderInfoId} {d : FolderAddr}

/-- Two entries are never of one kind, if the kind is about the folder info. -/
theorem pairwise (h : Tracked w x) {p : FolderIterator → Bool}
    (hp : ∀ it ∈ x.entries, p it = true → it.peerFolder = fi) :
    x.entries.Pairwise fun a b => p a = true → p b = false := by
  have hne : x.entries.Pairwise fun a b => a.peerFolder ≠ b.peerFolder := List.pairwise_map.mp h.unique
  refine hne.imp_of_mem fun ha hb hab hpa => ?_
  by_contra hpb
  exact hab ((hp _ ha hpa).trans (hp _ hb (by simpa using hpb)).symm)

/-- The same folder infos have entries. -/
theorem of_map (h : Tracked w x) (hbased : Based w' x')
    (hmap : x'.entries.map FolderIterator.peerFolder = x.entries.map FolderIterator.peerFolder)
    (hinfo : ∀ d, (w'.folders d).peerInfo = (w.folders d).peerInfo)
    (hcurrent : ∀ it ∈ x'.entries, it.Current w') : Tracked w' x' where
  toBased := hbased
  unique := by
    rw [hmap]
    exact h.unique
  present d fi hfi := by
    rw [hinfo] at hfi
    obtain ⟨it, hit, hpeer⟩ := h.present d fi hfi
    have hmem : fi ∈ x'.entries.map FolderIterator.peerFolder := by
      rw [hmap, ← hpeer]
      exact List.mem_map_of_mem hit
    exact List.mem_map.mp hmem
  current := hcurrent

/-- A folder has at most one entry that takes files. -/
theorem tail_filter (h : Tracked w x) {p : FolderIterator → Bool}
    (hp : ∀ it ∈ x.entries, p it = true → it.peerFolder = fi) : (x.entries.filter p).tail = [] := by
  have hpairwise := (h.pairwise hp).filter p
  cases heq : x.entries.filter p with
  | nil => rfl
  | cons a l =>
    cases l with
    | nil => rfl
    | cons b l =>
      rw [heq] at hpairwise
      have ha : p a = true := (List.mem_filter.mp (heq ▸ List.mem_cons_self .. : a ∈ x.entries.filter p)).2
      have hb : p b = true := (List.mem_filter.mp
        (heq ▸ List.mem_cons_of_mem a (List.mem_cons_self ..) : b ∈ x.entries.filter p)).2
      rw [(List.pairwise_cons.mp hpairwise).1 b (List.mem_cons_self ..) ha] at hb
      cases hb

/-- **A new index**, or a new index id, of a folder that takes files. -/
theorem arrives (h : Tracked w x) (hfi : (w.folders d).peerInfo = some fi) {files : List FileId}
    (ha : Arrives w w' fi files) (hreceives : w.receives d = true) (hintact : State.Intact w' x fi) :
    Tracked w' (x.onUpsertInfo w' fi) ∧ Inserts w' x (x.onUpsertInfo w' fi) fi files := by
  have hd : w'.folderOf fi = d := by rw [ha.folderOf, h.folderOf d fi hfi]
  have hacc : ∀ it ∈ x.entries, accepts w' d it = true ↔ it.peerFolder = fi := by
    intro it hit
    rw [show accepts w' d it = accepts w d it by rw [accepts, accepts, ha.folderOf], h.accepts_iff hfi hit]
    exact and_iff_left hreceives
  have hready : Based.Ready w' x d := by
    refine ⟨fun it hit => ?_, fun it hit => ?_⟩
    · have hmem := List.mem_filter.mp (List.mem_of_mem_head? hit)
      exact hintact it hmem.1 ((hacc it hmem.1).mp hmem.2)
    · rw [h.tail_filter fun it hit => (hacc it hit).mp] at hit
      cases hit
  obtain ⟨entry, hentry, hpeer⟩ := h.present d fi hfi
  have hany : x.entries.any (accepts w' (w'.folderOf fi)) = true := by
    rw [hd]
    exact List.any_eq_true.mpr ⟨entry, hentry, (hacc entry hentry).mpr hpeer⟩
  have heq : x.onUpsertInfo w' fi = { x with entries := modifyFirst (accepts w' d) (populate w') x.entries } := by
    rw [onUpsertInfo, if_pos hany, hd]
  -- one entry is populated, and the others belong to other folders
  have hentries : ∀ it' ∈ (x.onUpsertInfo w' fi).entries, (it' ∈ x.entries ∧ it'.peerFolder ≠ fi) ∨
      ∃ it ∈ x.entries, it.peerFolder = fi ∧ it.canReceive = true ∧ Populated w' it it' := by
    intro it' hit'
    rw [heq] at hit'
    rcases mem_modifyFirst_of_unique (h.pairwise fun it hit => (hacc it hit).mp) hit' with
      ⟨hit', hnot⟩ | ⟨it, hit, haccept, rfl⟩
    · refine .inl ⟨hit', fun hpeer => ?_⟩
      rw [(hacc it' hit').mpr hpeer] at hnot
      cases hnot
    · have hpeer := (hacc it hit).mp haccept
      exact .inr ⟨it, hit, hpeer, (decide_eq_true_eq.mp haccept).2, populate_spec ha.listed (hintact it hit hpeer)⟩
  refine ⟨h.of_map (h.toBased.onUpsertInfo ha hfi hready) ?_ (fun d => by rw [ha.folders]) fun it' hit' => ?_,
    fun it' hit' f hf => ?_⟩
  · rw [heq]
    exact map_modifyFirst (peerFolder_populate w') x.entries
  · rcases hentries it' hit' with ⟨hit', hne⟩ | ⟨it, hit, rfl, hcan, hpop⟩
    · exact (h.current it' hit').congr (ha.sameFolder hne)
    · intro _
      rw [hpop.order, hpop.peerFolder, ha.folders, ha.folderOf]
      exact ⟨(h.current it hit hcan).1, hpop.seenSequence⟩
  · rcases hentries it' hit' with ⟨hit', -⟩ | ⟨it, hit, rfl, hcan, hpop⟩
    · exact .inl ⟨it', hit', hf⟩
    · rcases (hpop.queue f).mp hf with ⟨-, hold⟩ | ⟨hlisted, hlt, hwanted⟩
      · exact .inl ⟨it, hit, hold⟩
      · -- what is newer than all that has been seen is new
        rw [(h.current it hit hcan).2] at hlt
        refine .inr ⟨(ha.renewed f hlisted).mpr hlt, ?_, hlisted, hwanted⟩
        rw [hd, ha.receives]
        exact hreceives

/-- **A folder is shared.** -/
theorem addInfo (h : Tracked w x) (hd : (w.folders d).peerInfo = none) {info : FolderInfo}
    (hfiles : info.files = []) (hmax : 0 ≤ info.maxSequence) (files : List FileId) :
    Tracked (w.addInfo d info) (x.onUpsertInfo (w.addInfo d info) w.nextInfo) ∧
      Inserts (w.addInfo d info) x (x.onUpsertInfo (w.addInfo d info) w.nextInfo) w.nextInfo files := by
  obtain ⟨hbased, heq⟩ := h.toBased.addInfo hd hfiles hmax
  have hprep := prepare_spec hbased.listed w.nextInfo
  have hnew : ∀ it ∈ x.entries, it.peerFolder ≠ w.nextInfo := fun it hit => Nat.ne_of_lt (h.lt_nextInfo hit)
  refine ⟨⟨hbased, ?_, fun d' fi hfi => ?_, fun it hit => ?_⟩, fun it hit f hf => ?_⟩
  · rw [heq]
    show ((x.entries ++ [prepare (w.addInfo d info) w.nextInfo]).map FolderIterator.peerFolder).Nodup
    rw [List.map_append, List.map_singleton, hprep.peerFolder]
    refine List.Nodup.append h.unique (List.nodup_singleton _) fun fi hfi hfi' => ?_
    obtain ⟨it, hit, rfl⟩ := List.mem_map.mp hfi
    exact hnew it hit (List.mem_singleton.mp hfi')
  · rw [Scene.peerInfo_addInfo] at hfi
    rw [heq]
    split at hfi
    · cases hfi
      exact ⟨_, List.mem_append_right _ (List.mem_singleton_self _), hprep.peerFolder⟩
    · obtain ⟨it, hit, hpeer⟩ := h.present d' fi hfi
      exact ⟨it, List.mem_append_left _ hit, hpeer⟩
  · rw [heq] at hit
    rcases List.mem_append.mp hit with hit | hit
    · exact (h.current it hit).congr (h.toBased.sameFolder_addInfo hd hit)
    · rw [List.mem_singleton.mp hit]
      exact hprep.current
  · rw [heq] at hit
    rcases List.mem_append.mp hit with hit | hit
    · exact .inl ⟨it, hit, hf⟩
    · -- there are no files yet
      rw [List.mem_singleton.mp hit] at hf
      have hmem := (List.mem_filter.mp ((hprep.queue f).mp hf).2).1
      rw [Scene.files, show (w.addInfo d info).store.infos w.nextInfo = info from Function.update_self .., hfiles] at hmem
      cases hmem

/-- **Other options.** -/
theorem onUpsertFolder (h : Tracked w x) (hfi : (w.folders d).peerInfo = some fi) (options : FolderOptions)
    (horder : w.receives d = false → options.type ≠ .send →
      ∀ it ∈ x.entries, w.folderOf it.peerFolder = d → it.order = options.pullOrder) :
    Tracked (w.setOptions d options) (x.onUpsertFolder (w.setOptions d options) d) ∧
      Inserts (w.setOptions d options) x (x.onUpsertFolder (w.setOptions d options) d) fi
        (if w.receives d then [] else (w.setOptions d options).files fi) := by
  have hbased := h.toBased.onUpsertFolder d options
  have hself : (w.setOptions d options).folders d = { w.folders d with toFolderOptions := options } :=
    Function.update_self ..
  have hentries : ∀ it' ∈ (x.onUpsertFolder (w.setOptions d options) d).entries,
      (it' ∈ x.entries ∧ w.folderOf it'.peerFolder ≠ d) ∨
      ∃ it ∈ x.entries, w.folderOf it.peerFolder = d ∧ Upserted (w.setOptions d options) it it' := by
    intro it' hit'
    obtain ⟨it, hit, rfl⟩ := List.mem_map.mp hit'
    by_cases hd : (w.setOptions d options).folderOf it.peerFolder = d
    · rw [if_pos hd]
      have hsound := h.sound it hit
      exact .inr ⟨it, hit, hd, @upsertFolder_spec (w.setOptions d options) h.listed it
        ⟨hsound.listed, hsound.sorted⟩ hsound.silent⟩
    · rw [if_neg hd]
      exact .inl ⟨hit, hd⟩
  have hcan : ∀ it ∈ x.entries, w.folderOf it.peerFolder = d → it.canReceive = w.receives d := by
    rintro it hit rfl
    exact (h.sound it hit).canReceive
  refine ⟨h.of_map hbased ?_ (Scene.peerInfo_setOptions w d options) fun it' hit' => ?_, fun it' hit' f hf => ?_⟩
  · show (x.entries.map fun it => if w.folderOf it.peerFolder = d then _ else it).map _ = _
    rw [List.map_map]
    refine List.map_congr_left fun it _ => ?_
    show (if w.folderOf it.peerFolder = d then it.upsertFolder (w.setOptions d options) else it).peerFolder = _
    split
    · exact peerFolder_upsertFolder _ it
    · rfl
  · rcases hentries it' hit' with ⟨hit', hne⟩ | ⟨it, hit, hd, hups⟩
    · exact (h.current it' hit').congr (Based.sameFolder_setOptions hne)
    · intro hcan'
      have hfolder : (w.setOptions d options).folderOf it.peerFolder = d := hd
      have hreceives := hups.canReceive
      rw [hcan', hups.peerFolder, hfolder] at hreceives
      have hsend : options.type ≠ .send := by
        rw [Scene.receives, hself] at hreceives
        simpa using hreceives.symm
      rw [hups.peerFolder, hfolder, hself, hups.seenSequence hcan']
      cases hold : it.canReceive with
      | true =>
        have hnew := hups.order hold hcan'
        rw [hfolder, hself] at hnew
        exact ⟨hnew, (h.current it hit hold).2⟩
      | false =>
        -- the comparator stays as it is
        rw [hups.restarted hold]
        exact ⟨horder ((hcan it hit hd).symm.trans hold) hsend it hit hd, rfl⟩
  · rcases hentries it' hit' with ⟨hit', -⟩ | ⟨it, hit, hd, hups⟩
    · exact .inl ⟨it', hit', hf⟩
    · have hpeer : it.peerFolder = fi := h.peerFolder_eq hit (by rw [hd]; exact hfi)
      cases hcan' : it'.canReceive with
      | false =>
        rw [hups.silent hcan'] at hf
        cases hf
      | true =>
        have hmem := (hups.queue hcan' f).mp hf
        cases hold : it.canReceive with
        | true =>
          rw [hold, if_pos rfl] at hmem
          exact .inl ⟨it, hit, hmem⟩
        | false =>
          rw [hold, if_neg (by simp), hpeer] at hmem
          obtain ⟨hlisted, hwanted⟩ := List.mem_filter.mp hmem
          have hreceives := hups.canReceive
          rw [hcan', hups.peerFolder, hpeer] at hreceives
          refine .inr ⟨?_, hreceives.symm, hlisted, hwanted⟩
          rw [← hcan it hit hd, hold, if_neg (by simp)]
          exact hlisted

/-- The options of a folder that is not shared. -/
theorem setOptions_of_none (h : Tracked w x) (hd : (w.folders d).peerInfo = none) (options : FolderOptions) :
    Tracked (w.setOptions d options) x := by
  exact h.of_map (h.toBased.setOptions_of_none hd options) rfl (Scene.peerInfo_setOptions w d options) fun it hit =>
    (h.current it hit).congr (Based.sameFolder_setOptions (h.toBased.folderOf_ne_of_none hd hit))

/-- **A folder is not shared any more.** -/
theorem onRemove (h : Tracked w x) (hfi : (w.folders d).peerInfo = some fi) :
    Tracked (w.removeInfo d fi) (x.onRemove fi) := by
  obtain ⟨entry, hentry, hpeer⟩ := h.present d fi hfi
  have hentries : (x.onRemove fi).entries = x.entries.eraseP fun it => it.peerFolder = fi := by
    have hany : x.entries.any (fun it => it.peerFolder = fi) = true :=
      List.any_eq_true.mpr ⟨entry, hentry, by simpa using hpeer⟩
    rw [FileIterator.onRemove, if_pos hany]
  -- what is left of the entries of the folder info
  have hgone : ∀ it ∈ (x.onRemove fi).entries, it.peerFolder ≠ fi := by
    obtain ⟨a, as, bs, has, ha, heq, herase⟩ := List.exists_of_eraseP (p := fun it : FolderIterator => it.peerFolder = fi)
      hentry (by simpa using hpeer)
    have hunique := h.unique
    rw [heq, List.map_append, List.map_cons] at hunique
    have ha' : a.peerFolder = fi := by simpa using ha
    have hnot := (List.nodup_middle.mp hunique).notMem
    rw [← List.map_append, ha'] at hnot
    intro it hit hit'
    rw [hentries, herase] at hit
    exact hnot (hit' ▸ List.mem_map_of_mem hit)
  refine ⟨h.toBased.onRemove hfi hgone, ?_, fun d' fi' hfi' => ?_, fun it hit => ?_⟩
  · rw [hentries]
    exact h.unique.sublist ((List.eraseP_sublist ..).map _)
  · obtain ⟨hold, hne⟩ := h.of_removeInfo hfi hfi'
    obtain ⟨it, hit, hpeer'⟩ := h.present d' fi' hold
    refine ⟨it, ?_, hpeer'⟩
    rw [hentries, List.mem_eraseP_of_neg (by simpa [hpeer'] using hne)]
    exact hit
  · exact (h.current it (Based.mem_onRemove hit)).congr (Based.sameFolder_removeInfo (hgone it hit))

/-- **Recheck** of a file. -/
theorem recheck (h : Tracked w x) {f : FileId} (hf : f ∈ w.files fi) :
    Tracked w (x.recheck w fi f) ∧ Inserts w x (x.recheck w fi f) fi [f] := by
  have hpeer : ∀ it : FolderIterator,
      (if it.canReceive && w.wanted fi f then it.insertAll w [f] else it).peerFolder = it.peerFolder := by
    intro it
    split
    · rfl
    · rfl
  refine ⟨h.of_map (h.toBased.recheck hf) (map_modifyFirst hpeer x.entries) (fun _ => rfl) fun it' hit' => ?_,
    fun it' hit' g hg => ?_⟩
  · rcases mem_modifyFirst hit' with hit' | ⟨it, hit, -, rfl⟩
    · exact h.current it' hit'
    · split
      · exact h.current it hit
      · exact h.current it hit
  · rcases mem_modifyFirst hit' with hit' | ⟨it, hit, hp, rfl⟩
    · exact .inl ⟨it', hit', hg⟩
    · have hpeer' : it.peerFolder = fi := by simpa using hp
      split at hg
      · rename_i hcond
        rw [Bool.and_eq_true] at hcond
        rcases ((h.recheck_entry hit (by rw [hpeer']; exact hf) hcond.1).2 g).mp hg with hold | rfl
        · exact .inl ⟨it, hit, hold⟩
        · refine .inr ⟨List.mem_singleton_self g, ?_, hf, hcond.2⟩
          rw [← hpeer', ← (h.sound it hit).canReceive]
          exact hcond.1
      · exact .inl ⟨it, hit, hg⟩

/-- **Anything else.** -/
theorem elsewhere (h : Tracked w x) (he : Elsewhere w w') : Tracked w' x :=
  h.of_map (h.toBased.elsewhere he) rfl he.peerInfo fun it hit =>
    (h.current it hit).congr (h.toBased.sameFolder_elsewhere he hit)

/-- **Next**: the file that is found is in no queue any more. -/
theorem next (h : Tracked w x) {found : Option Found} (hnext : Next w x found x') :
    Tracked w x' ∧ ∀ it' ∈ x'.entries, ∀ f ∈ it'.queue, (∃ it ∈ x.entries, f ∈ it.queue) ∧
      found.map Found.peerFile ≠ some f := by
  have hmap : x'.entries.map FolderIterator.peerFolder = x.entries.map FolderIterator.peerFolder := by
    refine List.ext_getElem (by rw [List.length_map, List.length_map, hnext.length]) fun i hi hi' => ?_
    rw [List.length_map] at hi hi'
    obtain ⟨it', hit', htaken⟩ := hnext.entries i _ (List.getElem?_eq_getElem hi')
    obtain ⟨hlt, hget⟩ := List.getElem?_eq_some_iff.mp hit'
    rw [List.getElem_map, List.getElem_map, hget, htaken.peerFolder]
  refine ⟨h.of_map (h.toBased.next hnext) hmap (fun _ => rfl) fun it' hit' => ?_, fun it' hit' f hf => ?_⟩
  · obtain ⟨it, hit, htaken⟩ := hnext.exists_old hit'
    rw [htaken.eq]
    exact h.current it hit
  · obtain ⟨it, hit, htaken⟩ := hnext.exists_old hit'
    have hold : f ∈ it.queue := htaken.suffix.subset hf
    refine ⟨⟨it, hit, hold⟩, fun hfound => ?_⟩
    obtain ⟨result, rfl, rfl⟩ := Option.map_eq_some_iff.mp hfound
    obtain ⟨i, it₁, it₁', hfrom⟩ := hnext.found result rfl
    obtain ⟨popped, hqueue⟩ := hfrom.queue
    have hit₁ : it₁ ∈ x.entries := List.mem_of_getElem? hfrom.old
    have hit₁' : it₁' ∈ x'.entries := List.mem_of_getElem? hfrom.new
    -- the other entry that has the file is an entry of the same folder info
    have hpeer : it.peerFolder = it₁.peerFolder :=
      h.listed.disjoint _ _ result.peerFile ((h.sound it hit).listed _ hold)
        ((h.sound it₁ hit₁).listed _ (by rw [hqueue]; simp))
    have hpeer' : it'.peerFolder = it₁'.peerFolder := by
      obtain ⟨it₂, hit₂, htaken₂⟩ := hnext.entries i it₁ hfrom.old
      rw [hfrom.new] at hit₂
      cases hit₂
      rw [htaken.peerFolder, htaken₂.peerFolder, hpeer]
    have heq : it' = it₁' := List.inj_on_of_nodup_map (hmap ▸ h.unique) hit' hit₁' hpeer'
    have hnodup := (h.sound it₁ hit₁).sorted.nodup (compares it₁.order w.store)
    rw [hqueue] at hnodup
    have hnot := (List.nodup_cons.mp (List.nodup_append.mp hnodup).2.1).1
    exact hnot (heq ▸ hf)

/-- **The constructor.** -/
theorem initial (h : w.WF) {folders : List FolderAddr} (hnodup : folders.Nodup)
    (hfolders : ∀ d, (w.folders d).peerInfo ≠ none → d ∈ folders) : Tracked w (create w folders) := by
  have hpeers : (create w folders).entries.map FolderIterator.peerFolder =
      folders.filterMap fun d => (w.folders d).peerInfo := by
    show (folders.filterMap _).map _ = _
    rw [List.map_filterMap]
    refine congrArg (fun k => folders.filterMap k) (funext fun d => ?_)
    rw [Option.map_map]
    cases (w.folders d).peerInfo with
    | none => rfl
    | some fi => exact congrArg some (prepare_spec h.listed fi).peerFolder
  refine ⟨Based.initial h folders, ?_, fun d fi hfi => ?_, fun it hit => ?_⟩
  · rw [hpeers]
    refine hnodup.filterMap fun d d' fi hd hd' => ?_
    rw [← h.folderOf d fi hd, ← h.folderOf d' fi hd']
  · have hmem : fi ∈ (create w folders).entries.map FolderIterator.peerFolder := by
      rw [hpeers]
      exact List.mem_filterMap.mpr ⟨d, hfolders d (by rw [hfi]; exact Option.some_ne_none fi), hfi⟩
    exact List.mem_map.mp hmem
  · obtain ⟨d, -, hd⟩ := List.mem_filterMap.mp hit
    obtain ⟨fi, -, rfl⟩ := Option.map_eq_some_iff.mp hd
    exact (prepare_spec h.listed fi).current

end Tracked

namespace State

/-! ## Runs -/

/-- What has been returned is in no queue. -/
structure Settled (st : State) : Prop extends Tracked st.scene st.iterator where
  gone : ∀ f ∈ st.returned, ∀ it ∈ st.iterator.entries, f ∉ it.queue

theorem Settled.tidy {st : State} (h : st.Settled) : st.Tidy := by
  refine ⟨?_, fun it hit => (h.sound it hit).listed, fun it hit => ?_, fun found hfound hreturned => ?_⟩
  · -- a folder has one folder info of the peer
    have hpairwise : st.iterator.entries.Pairwise fun a b => a.peerFolder ≠ b.peerFolder :=
      List.pairwise_map.mp h.unique
    refine List.pairwise_map.mpr (hpairwise.imp_of_mem fun ha hb hne heq => hne ?_)
    exact (h.peerFolder_eq hb (by rw [← heq]; exact h.live _ ha)).symm
  · cases hcan : it.canReceive with
    | true =>
      rw [← (h.current it hit hcan).1]
      exact (h.sound it hit).sorted
    | false =>
      rw [(h.sound it hit).silent hcan]
      exact SortedSet.sorted_nil
  · obtain ⟨i, it, it', hfrom⟩ := (next_spec (rfl : st.iterator.next st.scene = _)).found found hfound
    obtain ⟨popped, hqueue⟩ := hfrom.queue
    exact h.gone _ hreturned it (List.mem_of_getElem? hfrom.old) (by rw [hqueue]; simp)

section Steps

variable {st : State} {w : Scene} {x : FileIterator} {d : FolderAddr} {fi : FolderInfoId} {files : List FileId}

/-- What is put into a queue does not count as returned any more. -/
theorem Settled.arrive (h : st.Settled) (hx : Tracked w x ∧ Inserts w st.iterator x fi files) :
    (st.arrive w x fi files).Settled := by
  obtain ⟨htracked, hinserts⟩ := hx
  refine ⟨htracked, fun f hf it hit hqueue => ?_⟩
  unfold State.arrive at hf
  rw [List.mem_filter, decide_eq_true_eq] at hf
  rcases hinserts it hit f hqueue with ⟨it', hit', hold⟩ | ⟨hnew, hreceives, hlisted, hwanted⟩
  · exact h.gone f hf.1 it' hit' hold
  · exact hf.2 ⟨hnew, by simp [hreceives, hlisted, hwanted]⟩

/-- No queue has got anything. -/
theorem inserts_of_mem {x' : FileIterator} (h : ∀ it ∈ x'.entries, it ∈ x.entries) : Inserts w x x' fi files :=
  fun it hit _ hf => .inl ⟨it, h it hit, hf⟩

/-- **Next**: what it returns has left the queues. -/
theorem Settled.next (h : st.Settled) {found : Option Found} (hnext : Next st.scene st.iterator found x)
    {due : FolderInfoId → List FileId} :
    Settled { st with
      iterator := x
      due := due
      returned := st.returned ++ (found.map Found.peerFile).toList } := by
  obtain ⟨htracked, hqueues⟩ := h.toTracked.next hnext
  refine ⟨htracked, fun f hf it hit hqueue => ?_⟩
  obtain ⟨⟨it', hit', hold⟩, hne⟩ := hqueues it hit f hqueue
  rcases List.mem_append.mp hf with hf | hf
  · exact h.gone f hf it' hit' hold
  · exact hne (Option.mem_toList.mp hf)

/-- **One event.** -/
theorem Settled.step (h : st.Settled) {e : Event} (hlawful : st.Lawful e) (hprudent : st.Prudent e) {st' : State}
    (hstep : st.step e = some st') : st'.Settled := by
  cases stepped hstep with
  | nothing => exact h
  | index hfi hw =>
    obtain ⟨hreceives, hintact⟩ := hprudent _ hfi
    exact h.arrive (h.toTracked.arrives hfi (arrives_of_applyIndex h.listed hw) hreceives (hintact _ hw))
  | indexId _ _ _ index hfi hw =>
    subst hw
    obtain ⟨hreceives, hintact⟩ := hprudent _ hfi
    exact h.arrive (h.toTracked.arrives hfi (arrives_of_setIndex h.listed _ index) hreceives hintact)
  | shared _ _ _ _ hd hw =>
    subst hw
    exact h.arrive (h.toTracked.addInfo hd rfl (Int.le_refl _) _)
  | options options hfi hw =>
    subst hw
    exact h.arrive (h.toTracked.onUpsertFolder hfi options hprudent)
  | unsharedOptions options hd =>
    exact h.arrive ⟨h.toTracked.setOptions_of_none hd options, inserts_of_mem fun _ hit => hit⟩
  | removed hfi => exact h.arrive ⟨h.toTracked.onRemove hfi, inserts_of_mem fun _ hit => Based.mem_onRemove hit⟩
  | rechecked _ _ hf => exact h.arrive (h.toTracked.recheck hf)
  | elsewhere => exact h.arrive ⟨h.toTracked.elsewhere hlawful, inserts_of_mem fun _ hit => hit⟩
  | next hnext => exact h.next hnext

end Steps

/-- **The queues of the file iterator**, in the runs whose events are prudent. -/
theorem tidy_of_run {w : Scene} (h : w.WF) {folders : List FolderAddr} (hnodup : folders.Nodup)
    (hfolders : ∀ d, (w.folders d).peerInfo ≠ none → d ∈ folders) {events : List Event} {st : State}
    (hlawful : Run.Meets step Lawful (initial w folders) events)
    (hprudent : Run.Meets step Prudent (initial w folders) events)
    (hrun : Run.exec step (initial w folders) events = some st) : st.Tidy :=
  (Run.exec_inv (fun _ _ _ hs hc hstep => Settled.step hs hc.1 hc.2 hstep)
    ⟨Tracked.initial h hnodup hfolders, fun _ hf => absurd hf List.not_mem_nil⟩ (hlawful.and hprudent) hrun).tidy

/-- The user has the folder receive, in a pull order. -/
def receiveIn (pullOrder : PullOrder) : FolderOptions := ⟨.receive, pullOrder, false, false, false⟩

/-- A file is queued, the order is changed, and the file is returned. -/
theorem tidy_of_reordered :
    ∃ st, Run.exec step (initial (sharedScene .receive) [0]) [.index 0 [(Uuid.ofByte 5, announceEmpty "a" 1)],
      .upsertFolder 0 (receiveIn .newest), .next] = some st ∧ st.Tidy := by
  have hsome : (Run.exec step (initial (sharedScene .receive) [0]) [.index 0 [(Uuid.ofByte 5, announceEmpty "a" 1)],
      .upsertFolder 0 (receiveIn .newest), .next]).isSome = true := by decide
  obtain ⟨st, hst⟩ := Option.isSome_iff_exists.mp hsome
  refine ⟨st, hst, tidy_of_run (wf_sharedScene .receive) (List.nodup_singleton 0) (fun d hd => ?_) ?_ ?_ hst⟩
  · by_contra hne
    exact hd (if_neg (by simpa using hne))
  · exact ⟨trivial, fun _ _ => ⟨trivial, fun _ _ => ⟨trivial, fun _ _ => trivial⟩⟩⟩
  · decide

/-- An index message for a send-only folder makes a second entry, and when the folder receives again
its file is returned twice. A folder that is given another order when it starts to receive has its
files in the old one. -/
theorem queues_untidy :
    (∃ st, Run.exec step (initial (sharedScene .send) [0]) [.index 0 [(Uuid.ofByte 5, announceEmpty "a" 1)],
        .upsertFolder 0 (receiveIn .alphabetic), .next] = some st ∧
      st.iterator.entries.map FolderIterator.peerFolder = [1, 1] ∧ st.returned = [0] ∧
      (st.iterator.next st.scene).1.map Found.peerFile = some 0 ∧ ¬ st.Tidy) ∧
    ∃ st, Run.exec step (initial (sharedScene .receive) [0])
        [.index 0 [(Uuid.ofByte 5, announceEmpty "a" 1), (Uuid.ofByte 6, { announceEmpty "b" 2 with modifiedS := 2 })],
          .upsertFolder 0 { receiveIn .alphabetic with type := .send }, .upsertFolder 0 (receiveIn .newest)] = some st ∧
      (st.scene.folders 0).pullOrder = .newest ∧ st.iterator.entries.map FolderIterator.queue = [[0, 1]] ∧
      ¬ st.Tidy := by
  constructor
  · have hstate : (Run.exec step (initial (sharedScene .send) [0]) [.index 0 [(Uuid.ofByte 5, announceEmpty "a" 1)],
        .upsertFolder 0 (receiveIn .alphabetic), .next]).map
        (fun st => (st.iterator.entries.map FolderIterator.peerFolder, st.returned,
          (st.iterator.next st.scene).1.map Found.peerFile, decide st.Tidy)) =
        some ([1, 1], [0], some 0, false) := by decide
    obtain ⟨st, hst, heq⟩ := Option.map_eq_some_iff.mp hstate
    simp only [Prod.mk.injEq, decide_eq_false_iff_not] at heq
    exact ⟨st, hst, heq⟩
  · have hstate : (Run.exec step (initial (sharedScene .receive) [0])
        [.index 0 [(Uuid.ofByte 5, announceEmpty "a" 1), (Uuid.ofByte 6, { announceEmpty "b" 2 with modifiedS := 2 })],
          .upsertFolder 0 { receiveIn .alphabetic with type := .send }, .upsertFolder 0 (receiveIn .newest)]).map
        (fun st => ((st.scene.folders 0).pullOrder, st.iterator.entries.map FolderIterator.queue, decide st.Tidy)) =
        some (.newest, [[0, 1]], false) := by decide
    obtain ⟨st, hst, heq⟩ := Option.map_eq_some_iff.mp hstate
    simp only [Prod.mk.injEq, decide_eq_false_iff_not] at heq
    exact ⟨st, hst, heq⟩

end State

end SyncSpirit
