import SyncSpirit.FileIteratorRun

/-!
# Every file that is due is in the queue

`State.due` are the files that the peer has added or changed since the iterator has looked at
its folder, or all of them after a new index id, as long as they should be taken and have not
been returned. `Complete` says that they are in the queue of the folder, so that `next` returns
them (`polled_of_queued`).

The invariant `Owing` is about the first entry of every folder info. `on_upsert` populates the
first entry of the *folder* that takes files, and it keeps the queue if the index id is the one
the entry was made with. But `populate` never writes down another index id: after a new one, or
if the folder has been a send-only one before, every index message throws away what is still
queued. `Careful` says when a message does no harm.
-/

namespace SyncSpirit

open FileIterator FolderIterator

namespace State

/-- Every file that is due is in the queue of its folder, and `next` returns it if it may look
into the folder and the file is not locked. -/
structure Complete (st : State) : Prop where
  queued : ∀ d fi, (st.scene.folders d).peerInfo = some fi → ∀ f ∈ st.due fi,
    ∃ it ∈ st.iterator.entries, it.peerFolder = fi ∧ f ∈ it.queue
  offered : ∀ d fi, (st.scene.folders d).peerInfo = some fi → ∀ f ∈ st.due fi, Open st.scene fi →
    st.scene.isLocked f = false → ∃ n, f ∈ poll st.scene n st.iterator

/-- The entry that is populated does not throw files away that should be taken: its index id is
the one of the folder info, or the files are announced once more. -/
def Saves (w : Scene) (it : FolderIterator) : Prop :=
  (w.store.infos it.peerFolder).index ≠ it.seenIndex → ∀ f ∈ it.queue, f ∈ w.files it.peerFolder →
    w.wanted it.peerFolder f = true → it.seenSequence < (w.store.files f).sequence

instance (w : Scene) (it : FolderIterator) : Decidable (Saves w it) :=
  inferInstanceAs (Decidable (_ → _))

/-- The queues of the folder stay in order, and the one that is populated loses nothing. -/
def Upsertable (w : Scene) (x : FileIterator) (d : FolderAddr) : Prop :=
  Based.Ready w x d ∧ ∀ it ∈ x.entries.find? (accepts w d), Saves w it

instance (w : Scene) (x : FileIterator) (d : FolderAddr) : Decidable (Upsertable w x d) :=
  inferInstanceAs (Decidable (_ ∧ _))

/-- The event does no harm to what is due. -/
def Careful (st : State) : Event → Prop
  | .index d files => ∀ fi ∈ (st.scene.folders d).peerInfo, ∀ w ∈ st.scene.applyIndex fi files,
    Upsertable w st.iterator d
  | .upsertFolderInfo d _ _ _ index => ∀ fi ∈ (st.scene.folders d).peerInfo,
    Upsertable (st.scene.setInfo fi (Network.setIndex (st.scene.store.infos fi) index)) st.iterator d
  | .removeFolderInfo d => ∀ fi ∈ (st.scene.folders d).peerInfo,
    st.iterator.entries.countP (fun it => it.peerFolder = fi) ≤ 1
  | _ => True

instance (st : State) : ∀ e, Decidable (st.Careful e)
  | .index d files => inferInstanceAs (Decidable (∀ fi ∈ (st.scene.folders d).peerInfo,
    ∀ w ∈ st.scene.applyIndex fi files, Upsertable w st.iterator d))
  | .upsertFolderInfo d _ _ _ index => inferInstanceAs (Decidable (∀ fi ∈ (st.scene.folders d).peerInfo,
    Upsertable (st.scene.setInfo fi (Network.setIndex (st.scene.store.infos fi) index)) st.iterator d))
  | .removeFolderInfo d => inferInstanceAs (Decidable (∀ fi ∈ (st.scene.folders d).peerInfo,
    st.iterator.entries.countP (fun it => it.peerFolder = fi) ≤ 1))
  | .upsertFolder _ _ => inferInstanceAs (Decidable True)
  | .recheck _ _ => inferInstanceAs (Decidable True)
  | .elsewhere _ => inferInstanceAs (Decidable True)
  | .next => inferInstanceAs (Decidable True)

/-! ## The invariant -/

/-- The first entry of the folder info has the files, and does not skip any. -/
def Serves (w : Scene) (x : FileIterator) (fi : FolderInfoId) (files : List FileId) : Prop :=
  ∃ it, x.entries.find? (fun it => it.peerFolder = fi) = some it ∧ (∀ f ∈ files, f ∈ it.queue) ∧
    (it.canReceive = true → it.seenSequence ≤ (w.store.infos fi).maxSequence)

structure Owing (st : State) : Prop extends Based st.scene st.iterator where
  due : ∀ d fi, (st.scene.folders d).peerInfo = some fi → ∀ f ∈ st.due fi,
    st.scene.receives d = true ∧ st.scene.wanted fi f = true
  served : ∀ d fi, (st.scene.folders d).peerInfo = some fi → Serves st.scene st.iterator fi (st.due fi)

theorem Owing.complete {st : State} (h : st.Owing) : st.Complete := by
  refine ⟨fun d fi hfi f hf => ?_, fun d fi hfi f hf hopen hlocked => ?_⟩
  · obtain ⟨it, hit, hqueue, -⟩ := h.served d fi hfi
    exact ⟨it, List.mem_of_find?_eq_some hit, by simpa using List.find?_some hit, hqueue f hf⟩
  · obtain ⟨it, hit, hqueue, -⟩ := h.served d fi hfi
    have hpeer : it.peerFolder = fi := by simpa using List.find?_some hit
    exact ⟨_, polled_of_queued hlocked (h.due d fi hfi f hf).2 hopen _ st.iterator (Nat.le_refl _) h.inRange it
      (List.mem_of_find?_eq_some hit) hpeer (hqueue f hf)⟩

theorem mem_due_arrive {st : State} {w : Scene} {x : FileIterator} {fi fi' : FolderInfoId}
    {files : List FileId} {f : FileId} :
    f ∈ (st.arrive w x fi files).due fi' ↔ (f ∈ st.due fi' ∨ (fi' = fi ∧ f ∈ files)) ∧
      w.receives (w.folderOf fi') = true ∧ f ∈ w.files fi' ∧ w.wanted fi' f = true := by
  have hmem : f ∈ (if fi' = fi then files else []) ↔ fi' = fi ∧ f ∈ files := by
    by_cases hfi : fi' = fi
    · simp [hfi]
    · simp [hfi]
  unfold arrive
  rw [List.mem_filter, List.mem_append, hmem, decide_eq_true_eq]

/-- What is due is due by the new scene, so only the queues have to be looked at. -/
theorem Owing.of_served {st : State} {w : Scene} {x : FileIterator} {fi : FolderInfoId} {files : List FileId}
    (h : Based w x) (hserved : ∀ d fi', (w.folders d).peerInfo = some fi' →
      Serves w x fi' ((st.arrive w x fi files).due fi')) : (st.arrive w x fi files).Owing where
  toBased := h
  due d fi' hfi f hf := by
    obtain ⟨-, hreceives, -, hwanted⟩ := mem_due_arrive.mp hf
    rw [h.folderOf d fi' hfi] at hreceives
    exact ⟨hreceives, hwanted⟩
  served := hserved

/-- A folder info whose entry has not been touched. -/
theorem Serves.mono {w w' : Scene} {x x' : FileIterator} {fi : FolderInfoId} {files files' : List FileId}
    (h : Serves w x fi files)
    (hfind : x'.entries.find? (fun it => it.peerFolder = fi) = x.entries.find? fun it => it.peerFolder = fi)
    (hinfo : w'.store.infos fi = w.store.infos fi) (hfiles : ∀ f ∈ files', f ∈ files) : Serves w' x' fi files' := by
  obtain ⟨it, hit, hqueue, hseen⟩ := h
  exact ⟨it, hfind.trans hit, fun f hf => hqueue f (hfiles f hf), fun hcan => hinfo ▸ hseen hcan⟩

section Steps

variable {st : State} {w : Scene} {d : FolderAddr} {fi : FolderInfoId}

/-- Nothing is added to what is due in the other folder infos. -/
theorem due_of_ne {x : FileIterator} {fi' : FolderInfoId} {files : List FileId} (hne : fi' ≠ fi) :
    ∀ f ∈ (st.arrive w x fi files).due fi', f ∈ st.due fi' := by
  intro f hf
  exact (mem_due_arrive.mp hf).1.resolve_right fun hnew => hne hnew.1

/-- An entry of one folder info is not found when another one is looked for. -/
theorem find?_onUpsertInfo_of_ne {x : FileIterator} (hw : w.store.Listed)
    (hx : ∀ it ∈ x.entries, accepts w (w.folderOf fi) it = true → it.peerFolder = fi)
    {fi' : FolderInfoId} (hne : fi' ≠ fi) :
    (x.onUpsertInfo w fi).entries.find? (fun it => it.peerFolder = fi') =
      x.entries.find? fun it => it.peerFolder = fi' := by
  rcases Based.onUpsertInfo_cases w x fi with ⟨as, it, bs, heq, -, hit, hup⟩ | ⟨-, hup⟩
  · have hpeer := hx it (by rw [heq]; simp) hit
    rw [hup, heq, List.find?_append, List.find?_append, List.find?_cons_of_neg (by simp [hpeer, hne.symm]),
      List.find?_cons_of_neg (by simp [hpeer, hne.symm])]
  · rw [hup, List.find?_append, List.find?_cons_of_neg (by simp [(prepare_spec hw fi).peerFolder, hne.symm])]
    simp

/-- **A new index**, or a new index id. -/
theorem Owing.arrives (h : st.Owing) (hfi : (st.scene.folders d).peerInfo = some fi) {files : List FileId}
    (ha : Arrives st.scene w fi files) (hup : Upsertable w st.iterator d) :
    (st.arrive w (st.iterator.onUpsertInfo w fi) fi files).Owing := by
  have hd : w.folderOf fi = d := by rw [ha.folderOf, h.folderOf d fi hfi]
  have hacc : ∀ it ∈ st.iterator.entries, accepts w d it = true ↔ it.peerFolder = fi ∧ st.scene.receives d = true := by
    intro it hit
    rw [← h.accepts_iff hfi hit, accepts, accepts, ha.folderOf]
  refine Owing.of_served (h.toBased.onUpsertInfo ha hfi hup.1) fun d' fi' hfi' => ?_
  rw [ha.folders] at hfi'
  by_cases hne : fi' = fi
  · subst hne
    obtain ⟨it, hit, hqueue, hseen⟩ := h.served d fi' hfi
    have hmem := List.mem_of_find?_eq_some hit
    have hpeer : it.peerFolder = fi' := by simpa using List.find?_some hit
    cases hreceives : st.scene.receives d with
    | true =>
      -- the entry of the folder info is the one that is populated
      have hsame : ∀ a ∈ st.iterator.entries, accepts w d a = decide (a.peerFolder = fi') := by
        intro a ha'
        rw [Bool.eq_iff_iff, hacc a ha', decide_eq_true_eq]
        exact and_iff_left hreceives
      have hfirst : st.iterator.entries.find? (accepts w d) = some it := by
        rw [← hit]
        exact List.find?_congr hsame
      have hcan := (h.sound it hmem).canReceive
      rw [hpeer, h.folderOf d fi' hfi, hreceives] at hcan
      have hpop := populate_spec ha.listed (hup.1.keeps hmem ((hacc it hmem).mpr ⟨hpeer, hreceives⟩))
      refine ⟨it.populate w, ?_, fun f hf => ?_, fun _ => ?_⟩
      · have hany : st.iterator.entries.any (accepts w (w.folderOf fi')) = true := by
          rw [hd]
          exact List.any_eq_true.mpr ⟨it, hmem, (hacc it hmem).mpr ⟨hpeer, hreceives⟩⟩
        rw [onUpsertInfo, if_pos hany, hd, find?_modifyFirst hsame fun a => by simp, hit]
        rfl
      · obtain ⟨hold, -, hf', hwanted⟩ := mem_due_arrive.mp hf
        rw [hpop.queue]
        rcases hold with hold | ⟨-, hnew⟩
        · -- it has been in the queue already
          by_cases hindex : (w.store.infos it.peerFolder).index = it.seenIndex
          · exact .inl ⟨hindex, hqueue f hold⟩
          · rw [← hpeer] at hf' hwanted
            exact .inr ⟨hf', hup.2 it hfirst hindex f (hqueue f hold) hf' hwanted, hwanted⟩
        · have hlt := (ha.renewed f hf').mp hnew
          rw [hpeer]
          exact .inr ⟨hf', Int.lt_of_le_of_lt (hseen hcan) hlt, hwanted⟩
      · rw [hpop.seenSequence, hpeer]
    | false =>
      -- nothing is due in a send-only folder
      have hnil : ∀ f, f ∉ (st.arrive w (st.iterator.onUpsertInfo w fi') fi' files).due fi' := by
        intro f hf
        have htrue := (mem_due_arrive.mp hf).2.1
        rw [hd, ha.receives, hreceives] at htrue
        cases htrue
      refine ⟨it, ?_, fun f hf => absurd hf (hnil f), fun hcan => ?_⟩
      · rw [onUpsertInfo, hd, if_neg]
        · rw [List.find?_append, hit]
          rfl
        · rw [List.any_eq_true]
          rintro ⟨a, ha', hacc'⟩
          have := ((hacc a ha').mp hacc').2
          rw [hreceives] at this
          cases this
      · rw [(h.sound it hmem).canReceive, hpeer, h.folderOf d fi' hfi, hreceives] at hcan
        cases hcan
  · refine (h.served d' fi' hfi').mono ?_ (ha.others fi' hne).1 (due_of_ne hne)
    refine find?_onUpsertInfo_of_ne ha.listed (fun it hit haccept => ?_) hne
    rw [hd] at haccept
    exact ((hacc it hit).mp haccept).1

/-- **A folder is shared.** A new folder info has no files yet. -/
theorem Owing.addInfo (h : st.Owing) (hd : (st.scene.folders d).peerInfo = none) {info : FolderInfo}
    (hfiles : info.files = []) (hmax : 0 ≤ info.maxSequence) (files : List FileId) :
    (st.arrive (st.scene.addInfo d info) (st.iterator.onUpsertInfo (st.scene.addInfo d info) st.scene.nextInfo)
      st.scene.nextInfo files).Owing := by
  obtain ⟨hbased, heq⟩ := h.toBased.addInfo hd hfiles hmax
  refine Owing.of_served hbased fun d' fi' hfi' => ?_
  have hprep := prepare_spec hbased.listed st.scene.nextInfo
  have hself : (st.scene.addInfo d info).store.infos st.scene.nextInfo = info := Function.update_self ..
  by_cases hne : fi' = st.scene.nextInfo
  · subst hne
    have hnone : st.iterator.entries.find? (fun it => it.peerFolder = st.scene.nextInfo) = none :=
      List.find?_eq_none.mpr fun it hit => by simpa using Nat.ne_of_lt (h.lt_nextInfo hit)
    refine ⟨_, ?_, fun f hf => ?_, fun hcan => Int.le_of_eq (hprep.seenSequence hcan)⟩
    · rw [heq, List.find?_append, hnone, Option.none_or, List.find?_cons_of_pos (by simp [hprep.peerFolder])]
    · have hmem := (mem_due_arrive.mp hf).2.2.1
      rw [Scene.files, hself, hfiles] at hmem
      cases hmem
  · rw [Scene.peerInfo_addInfo] at hfi'
    have hother : d' ≠ d := by
      intro hd'
      rw [if_pos hd'] at hfi'
      exact hne (Option.some.inj hfi').symm
    rw [if_neg hother] at hfi'
    refine (h.served d' fi' hfi').mono ?_ (Function.update_of_ne hne _ _) (due_of_ne hne)
    rw [heq, List.find?_append, List.find?_cons_of_neg (by simp [hprep.peerFolder, Ne.symm hne])]
    simp

/-- **Other options.** A folder that takes files again gets all of them. -/
theorem Owing.onUpsertFolder (h : st.Owing) (hfi : (st.scene.folders d).peerInfo = some fi) (options : FolderOptions) :
    (st.arrive (st.scene.setOptions d options) (st.iterator.onUpsertFolder (st.scene.setOptions d options) d) fi
      (if st.scene.receives d then [] else (st.scene.setOptions d options).files fi)).Owing := by
  have hbased := h.toBased.onUpsertFolder d options
  refine Owing.of_served hbased fun d' fi' hfi' => ?_
  rw [Scene.peerInfo_setOptions] at hfi'
  have hfind : ∀ fi', (st.iterator.onUpsertFolder (st.scene.setOptions d options) d).entries.find?
      (fun it => it.peerFolder = fi') = (st.iterator.entries.find? fun it => it.peerFolder = fi').map fun it =>
        if st.scene.folderOf it.peerFolder = d then it.upsertFolder (st.scene.setOptions d options) else it := by
    intro fi'
    show (st.iterator.entries.map fun it => if st.scene.folderOf it.peerFolder = d then
      it.upsertFolder (st.scene.setOptions d options) else it).find? _ = _
    rw [List.find?_map]
    refine congrArg _ (List.find?_congr fun it _ => ?_)
    show decide ((if st.scene.folderOf it.peerFolder = d then _ else it).peerFolder = fi') = _
    split
    · rw [peerFolder_upsertFolder]
    · rfl
  obtain ⟨it, hit, hqueue, hseen⟩ := h.served d' fi' hfi'
  have hmem := List.mem_of_find?_eq_some hit
  have hpeer : it.peerFolder = fi' := by simpa using List.find?_some hit
  have hfolder : st.scene.folderOf it.peerFolder = d' := by rw [hpeer, h.folderOf d' fi' hfi']
  by_cases hd : d' = d
  · subst hd
    rw [hfi] at hfi'
    cases hfi'
    have hsound := h.sound it hmem
    have hups := @upsertFolder_spec (st.scene.setOptions d' options) h.listed it
      ⟨hsound.listed, hsound.sorted⟩ hsound.silent
    have hcan := hsound.canReceive
    rw [hfolder] at hcan
    refine ⟨it.upsertFolder (st.scene.setOptions d' options), ?_, fun f hf => ?_, fun hcan' => ?_⟩
    · rw [hfind, hit]
      exact congrArg some (if_pos hfolder)
    · obtain ⟨hold, hreceives, hf', hwanted⟩ := mem_due_arrive.mp hf
      have hcan' := hups.canReceive
      rw [hups.peerFolder, hpeer, hreceives] at hcan'
      rw [hups.queue hcan']
      cases hcase : it.canReceive with
      | true =>
        -- nothing but the order may be another one
        rw [if_pos rfl]
        rw [← hcan, hcase] at hold
        simp only [if_true, List.not_mem_nil, and_false, or_false] at hold
        exact hqueue f hold
      | false =>
        rw [if_neg (by simp), hpeer]
        exact List.mem_filter.mpr ⟨hf', hwanted⟩
    · rw [hups.seenSequence hcan']
      cases hcase : it.canReceive with
      | true =>
        rw [if_pos rfl]
        exact hseen hcase
      | false =>
        rw [if_neg (by simp), hpeer]
  · have hne : fi' ≠ fi := by
      rintro rfl
      exact hd ((h.folderOf d' fi' hfi').symm.trans (h.folderOf d fi' hfi))
    refine (h.served d' fi' hfi').mono ?_ rfl (due_of_ne hne)
    rw [hfind, hit]
    exact congrArg some (if_neg fun heq => hd (hfolder.symm.trans heq))

/-- The entries of the other folder infos. -/
theorem find?_onRemove_of_ne {x : FileIterator} {fi' : FolderInfoId} (hne : fi' ≠ fi) :
    (x.onRemove fi).entries.find? (fun it => it.peerFolder = fi') =
      x.entries.find? fun it => it.peerFolder = fi' := by
  have herase : ∀ l : List FolderIterator, (l.eraseP fun it => it.peerFolder = fi).find?
      (fun it => it.peerFolder = fi') = l.find? fun it => it.peerFolder = fi' := by
    intro l
    induction l with
    | nil => rfl
    | cons it l ih =>
      by_cases hit : it.peerFolder = fi
      · rw [List.eraseP_cons_of_pos (by simpa using hit), List.find?_cons_of_neg (by simp [hit, hne.symm])]
      · rw [List.eraseP_cons_of_neg (by simpa using hit), List.find?_cons, List.find?_cons, ih]
  unfold onRemove
  split
  · exact herase x.entries
  · rfl

/-- **A folder is not shared any more.** -/
theorem Owing.onRemove (h : st.Owing) (hfi : (st.scene.folders d).peerInfo = some fi)
    (hgone : ∀ it ∈ (st.iterator.onRemove fi).entries, it.peerFolder ≠ fi) :
    (st.arrive (st.scene.removeInfo d fi) (st.iterator.onRemove fi) fi []).Owing := by
  refine Owing.of_served (h.toBased.onRemove hfi hgone) fun d' fi' hfi' => ?_
  obtain ⟨hold, hne⟩ := h.of_removeInfo hfi hfi'
  exact (h.served d' fi' hold).mono (find?_onRemove_of_ne hne) (Function.update_of_ne hne _ _) (due_of_ne hne)

/-- **Recheck** of a file. -/
theorem Owing.recheck (h : st.Owing) (hfi : (st.scene.folders d).peerInfo = some fi) {f : FileId}
    (hf : f ∈ st.scene.files fi) :
    (st.arrive st.scene (st.iterator.recheck st.scene fi f) fi [f]).Owing := by
  refine Owing.of_served (h.toBased.recheck hf) fun d' fi' hfi' => ?_
  by_cases hne : fi' = fi
  · subst hne
    obtain ⟨it, hit, hqueue, hseen⟩ := h.served d' fi' hfi'
    have hmem := List.mem_of_find?_eq_some hit
    have hpeer : it.peerFolder = fi' := by simpa using List.find?_some hit
    have hfind : (st.iterator.recheck st.scene fi' f).entries.find? (fun it => it.peerFolder = fi') =
        some (if it.canReceive && st.scene.wanted fi' f then it.insertAll st.scene [f] else it) := by
      show (modifyFirst _ _ st.iterator.entries).find? _ = _
      rw [find?_modifyFirst (fun _ _ => rfl), hit]
      · rfl
      · intro a
        split
        · rfl
        · rfl
    have hcan := (h.sound it hmem).canReceive
    rw [hpeer] at hcan
    refine ⟨_, hfind, fun g hg => ?_, fun hcan' => ?_⟩
    · obtain ⟨hold, hreceives, -, hwanted⟩ := mem_due_arrive.mp hg
      rw [hreceives] at hcan
      obtain ⟨-, hinsert⟩ := h.recheck_entry hmem (by rw [hpeer]; exact hf) hcan
      split
      · rw [hinsert]
        rcases hold with hold | ⟨-, hnew⟩
        · exact .inl (hqueue g hold)
        · exact .inr (List.mem_singleton.mp hnew)
      · rename_i hnot
        rcases hold with hold | ⟨-, hnew⟩
        · exact hqueue g hold
        · rw [List.mem_singleton.mp hnew] at hwanted
          exact absurd (by rw [hcan, hwanted]; rfl) hnot
    · split at hcan'
      · rw [if_pos (by assumption)]
        exact hseen hcan'
      · rw [if_neg (by assumption)]
        exact hseen hcan'
  · refine (h.served d' fi' hfi').mono ?_ rfl (due_of_ne hne)
    show (modifyFirst _ _ st.iterator.entries).find? _ = _
    refine find?_modifyFirst_of_disjoint fun a ha => ?_
    have ha' : a.peerFolder = fi := by simpa using ha
    refine ⟨by simp [ha', Ne.symm hne], ?_⟩
    split
    · simp [insertAll, ha', Ne.symm hne]
    · simp [ha', Ne.symm hne]

/-- **Anything else.** -/
theorem Owing.elsewhere (h : st.Owing) (he : Elsewhere st.scene w) : (st.arrive w st.iterator 0 []).Owing := by
  refine Owing.of_served (h.toBased.elsewhere he) fun d' fi' hfi' => ?_
  rw [he.peerInfo] at hfi'
  refine (h.served d' fi' hfi').mono rfl (he.infos d' fi' hfi') fun f hf => ?_
  exact (mem_due_arrive.mp hf).1.resolve_right fun hnew => List.not_mem_nil hnew.2

/-- Options of a folder that is not shared. -/
theorem Owing.setOptions_of_none (h : st.Owing) (hd : (st.scene.folders d).peerInfo = none)
    (options : FolderOptions) : (st.arrive (st.scene.setOptions d options) st.iterator 0 []).Owing := by
  refine Owing.of_served (h.toBased.setOptions_of_none hd options) fun d' fi' hfi' => ?_
  rw [Scene.peerInfo_setOptions] at hfi'
  refine (h.served d' fi' hfi').mono rfl rfl fun f hf => ?_
  exact (mem_due_arrive.mp hf).1.resolve_right fun hnew => List.not_mem_nil hnew.2

/-- The first entry of a folder info is still the first one. -/
theorem find?_next {x x' : FileIterator} {found : Option Found} (h : Next w x found x') {it : FolderIterator}
    (hit : x.entries.find? (fun it => it.peerFolder = fi) = some it) :
    ∃ it', x'.entries.find? (fun it => it.peerFolder = fi) = some it' ∧
      Taken w (found.map Found.peerFile) it it' := by
  obtain ⟨hpeer, i, hi, hget, hbefore⟩ := List.find?_eq_some_iff_getElem.mp hit
  obtain ⟨it', hit', htaken⟩ := h.entries i it (by rw [List.getElem?_eq_getElem hi, hget])
  obtain ⟨hi', hget'⟩ := List.getElem?_eq_some_iff.mp hit'
  refine ⟨it', List.find?_eq_some_iff_getElem.mpr ⟨?_, i, hi', hget', fun j hj => ?_⟩, htaken⟩
  · simpa [htaken.peerFolder] using hpeer
  · have hj' := Nat.lt_trans hj hi
    obtain ⟨b, hb, htakenj⟩ := h.entries j _ (List.getElem?_eq_getElem hj')
    obtain ⟨hlt, heq⟩ := List.getElem?_eq_some_iff.mp hb
    rw [heq, htakenj.peerFolder]
    exact hbefore j hj

/-- **Next**: what is taken out has been returned, is locked, or is to be ignored. -/
theorem Owing.next (h : st.Owing) {found : Option Found} {x : FileIterator}
    (hnext : Next st.scene st.iterator found x) {returned : List FileId} :
    Owing { st with
      iterator := x
      due := fun fi => (st.due fi).filter fun f => !st.scene.isLocked f && st.scene.wanted fi f &&
        found.map Found.peerFile ≠ some f
      returned := returned } := by
  refine ⟨h.toBased.next hnext, fun d fi hfi f hf => h.due d fi hfi f (List.mem_filter.mp hf).1,
    fun d fi hfi => ?_⟩
  obtain ⟨it, hit, hqueue, hseen⟩ := h.served d fi hfi
  obtain ⟨it', hit', htaken⟩ := find?_next hnext hit
  have hpeer : it.peerFolder = fi := by simpa using List.find?_some hit
  refine ⟨it', hit', fun f hf => ?_, fun hcan => ?_⟩
  · obtain ⟨hdue, hkeep⟩ := List.mem_filter.mp hf
    simp only [Bool.and_eq_true, Bool.not_eq_true', decide_eq_true_eq] at hkeep
    refine htaken.mem (hqueue f hdue) hkeep.1.1 ?_ hkeep.2
    rw [hpeer]
    exact hkeep.1.2
  · rw [htaken.eq] at hcan ⊢
    exact hseen hcan

/-- An iterator with one entry for the folder info at most has none after `on_remove`. -/
theorem ne_of_mem_onRemove {x : FileIterator} (hone : x.entries.countP (fun it => it.peerFolder = fi) ≤ 1) :
    ∀ it ∈ (x.onRemove fi).entries, it.peerFolder ≠ fi := by
  unfold onRemove
  split
  · rename_i hany
    obtain ⟨it, hit, hpeer⟩ := List.any_eq_true.mp hany
    obtain ⟨first, before, after, hbefore, hfirst, heq, herase⟩ :=
      @List.exists_of_eraseP _ (fun it => decide (it.peerFolder = fi)) _ _ hit hpeer
    rw [heq, List.countP_append, List.countP_cons, if_pos hfirst] at hone
    have hafter : after.countP (fun it => it.peerFolder = fi) = 0 := by omega
    intro it' hit'
    rw [herase] at hit'
    rcases List.mem_append.mp hit' with hit' | hit'
    · simpa using hbefore it' hit'
    · simpa using List.countP_eq_zero.mp hafter it' hit'
  · rename_i hany
    intro it hit hpeer
    exact hany (List.any_eq_true.mpr ⟨it, hit, decide_eq_true hpeer⟩)

/-- **One event.** -/
theorem Owing.step (h : st.Owing) {e : Event} (hlawful : st.Lawful e) (hcareful : st.Careful e) {st' : State}
    (hstep : st.step e = some st') : st'.Owing := by
  cases stepped hstep with
  | nothing => exact h
  | index hfi hw => exact h.arrives hfi (arrives_of_applyIndex h.listed hw) (hcareful _ hfi _ hw)
  | indexId _ _ _ index hfi hw =>
    subst hw
    exact h.arrives hfi (arrives_of_setIndex h.listed _ index) (hcareful _ hfi)
  | shared _ _ _ _ hd hw =>
    subst hw
    exact h.addInfo hd rfl (Int.le_refl _) _
  | options options hfi hw =>
    subst hw
    exact h.onUpsertFolder hfi options
  | unsharedOptions options hd => exact h.setOptions_of_none hd options
  | removed hfi => exact h.onRemove hfi (ne_of_mem_onRemove (hcareful _ hfi))
  | rechecked _ hfi hf => exact h.recheck hfi hf
  | elsewhere => exact h.elsewhere hlawful
  | next hnext => exact h.next hnext

end Steps

/-- **At the start** the queues have been made for the folders as they are. -/
theorem Owing.initial {w : Scene} (h : w.WF) {folders : List FolderAddr}
    (hfolders : ∀ d, (w.folders d).peerInfo ≠ none → d ∈ folders) : (State.initial w folders).Owing := by
  refine ⟨Based.initial h folders, fun d fi hfi f hf => ?_, fun d fi hfi => ?_⟩
  · have hd : w.folderOf fi = d := h.folderOf d fi hfi
    unfold State.initial at hf
    dsimp only at hf
    split at hf
    · rename_i hreceives
      rw [hd] at hreceives
      exact ⟨hreceives, (List.mem_filter.mp hf).2⟩
    · cases hf
  · have hentry : prepare w fi ∈ (create w folders).entries := by
      refine List.mem_filterMap.mpr ⟨d, hfolders d ?_, ?_⟩
      · rw [show (w.folders d).peerInfo = some fi from hfi]
        exact Option.some_ne_none fi
      · rw [show (w.folders d).peerInfo = some fi from hfi]
        rfl
    have hsome : ((create w folders).entries.find? fun it => it.peerFolder = fi).isSome = true :=
      List.find?_isSome.mpr ⟨_, hentry, by simpa using (prepare_spec h.listed fi).peerFolder⟩
    obtain ⟨it, hit⟩ := Option.isSome_iff_exists.mp hsome
    have hpeer : it.peerFolder = fi := by simpa using List.find?_some hit
    -- every entry has been made by `prepare`
    obtain ⟨d', -, hd'⟩ := List.mem_filterMap.mp (List.mem_of_find?_eq_some hit)
    obtain ⟨fi', -, rfl⟩ := Option.map_eq_some_iff.mp hd'
    have hprep := prepare_spec h.listed fi'
    have heq : fi' = fi := hprep.peerFolder.symm.trans hpeer
    subst heq
    refine ⟨_, hit, fun f hf => ?_, fun hcan => Int.le_of_eq (hprep.seenSequence hcan)⟩
    rw [hprep.queue]
    unfold State.initial at hf
    dsimp only at hf
    split at hf
    · rename_i hreceives
      exact ⟨hreceives, hf⟩
    · cases hf

/-- **Completeness** of the file iterator, for the runs whose events do no harm. -/
theorem complete_of_run {w : Scene} (h : w.WF) {folders : List FolderAddr}
    (hfolders : ∀ d, (w.folders d).peerInfo ≠ none → d ∈ folders) {events : List Event} {st : State}
    (hlawful : Run.Meets step Lawful (initial w folders) events)
    (hcareful : Run.Meets step Careful (initial w folders) events)
    (hrun : Run.exec step (initial w folders) events = some st) : st.Complete :=
  (Run.exec_inv (fun _ _ _ hs hc hstep => Owing.step hs hc.1 hc.2 hstep) (Owing.initial h hfolders)
    (hlawful.and hcareful) hrun).complete

/-- A folder that is shared with one peer. -/
def sharedInfos : FolderInfoId → FolderInfo
  | 0 => ⟨Uuid.ofByte 0, [1], [], 0, 1, [1]⟩
  | 1 => ⟨Uuid.ofByte 1, [2], [], 0, 7, [1]⟩
  | _ => default

/-- A device with one folder, and the peer it is shared with. -/
def sharedScene (type : FolderType) : Scene where
  platform := ⟨true, fun _ => true, fun f => f.name, fun _ => false⟩
  store := Store.initial sharedInfos
  folders d := ⟨⟨type, .alphabetic, false, false, false⟩, false, 0, if d = 0 then some 1 else none, []⟩
  folderOf _ := 0
  nextInfo := 2
  locked _ := false
  view _ := some 0

theorem wf_sharedScene (type : FolderType) : (sharedScene type).WF := by
  have hempty : ∀ fi, (sharedInfos fi).files = [] ∧ (sharedInfos fi).maxSequence = 0 := by
    intro fi
    unfold sharedInfos
    split
    all_goals exact ⟨rfl, rfl⟩
  have hwf := Store.WF.initial fun fi => (hempty fi).1
  have hshared : ∀ d fi, ((sharedScene type).folders d).peerInfo = some fi → d = 0 ∧ fi = 1 := by
    intro d fi h
    have h' : (if d = 0 then some 1 else none) = some fi := h
    split at h'
    · rename_i hd
      cases h'
      exact ⟨hd, rfl⟩
    · cases h'
  refine ⟨⟨hwf.infos, hwf.disjoint, fun fi => Int.le_of_eq (hempty fi).2.symm, fun fi f hf => ?_⟩, fun d fi h => ?_,
    fun d fi h => ?_⟩
  · have hf' : f ∈ (sharedInfos fi).files := hf
    rw [(hempty fi).1] at hf'
    cases hf'
  · rw [(hshared d fi h).1]
    rfl
  · rw [(hshared d fi h).2]
    exact Nat.lt_succ_self 1

/-- An empty file. -/
def announceEmpty (name : String) (sequence : Int) : Proto.FileInfo :=
  { (default : Proto.FileInfo) with name := name, sequence := sequence, version := ⟨[⟨2, 1⟩]⟩ }

/-- Two messages and a call of `next` in between. -/
theorem complete_of_two_messages :
    ∃ st, Run.exec step (initial (sharedScene .receive) [0]) [.index 0 [(Uuid.ofByte 5, announceEmpty "a" 1)], .next,
      .index 0 [(Uuid.ofByte 6, announceEmpty "b" 2)]] = some st ∧ st.Complete := by
  have hsome : (Run.exec step (initial (sharedScene .receive) [0]) [.index 0 [(Uuid.ofByte 5, announceEmpty "a" 1)], .next,
      .index 0 [(Uuid.ofByte 6, announceEmpty "b" 2)]]).isSome = true := by decide
  obtain ⟨st, hst⟩ := Option.isSome_iff_exists.mp hsome
  refine ⟨st, hst, complete_of_run (wf_sharedScene .receive) (fun d hd => ?_) ?_ ?_ hst⟩
  · by_contra hne
    exact hd (if_neg (by simpa using hne))
  · exact ⟨trivial, fun _ _ => ⟨trivial, fun _ _ => ⟨trivial, fun _ _ => trivial⟩⟩⟩
  · decide

/-- The peer's folder gets a new index id, and two messages come before the next call: the second one
throws away the file of the first one, which has not been returned. -/
theorem queue_lost_after_reset :
    ∃ st, Run.exec step (initial (sharedScene .receive) [0])
      [.upsertFolderInfo 0 (Uuid.ofByte 1) [2] [1] 8, .index 0 [(Uuid.ofByte 5, announceEmpty "a" 1)],
        .index 0 [(Uuid.ofByte 6, announceEmpty "b" 2)]] = some st ∧
      (st.scene.folders 0).peerInfo = some 1 ∧ 0 ∈ st.due 1 ∧ ¬ st.Complete := by
  have hstate : (Run.exec step (initial (sharedScene .receive) [0])
      [.upsertFolderInfo 0 (Uuid.ofByte 1) [2] [1] 8, .index 0 [(Uuid.ofByte 5, announceEmpty "a" 1)],
        .index 0 [(Uuid.ofByte 6, announceEmpty "b" 2)]]).map
        (fun st => ((st.scene.folders 0).peerInfo, st.due 1, st.iterator.entries.map FolderIterator.queue)) =
      some (some 1, [0, 1], [[1]]) := by decide
  obtain ⟨st, hst, heq⟩ := Option.map_eq_some_iff.mp hstate
  obtain ⟨hfi, hdue, hqueues⟩ : (st.scene.folders 0).peerInfo = some 1 ∧ st.due 1 = [0, 1] ∧
      st.iterator.entries.map FolderIterator.queue = [[1]] := by simpa using heq
  have hmem : 0 ∈ st.due 1 := by simp [hdue]
  refine ⟨st, hst, hfi, hmem, fun hcomplete => ?_⟩
  obtain ⟨it, hit, -, hqueue⟩ := hcomplete.queued 0 1 hfi 0 hmem
  have hin : it.queue ∈ st.iterator.entries.map FolderIterator.queue := List.mem_map_of_mem hit
  rw [hqueues, List.mem_singleton] at hin
  rw [hin] at hqueue
  simp at hqueue

end State

end SyncSpirit
