import SyncSpirit.ClusterUpdateSpec
import SyncSpirit.Sharing
import SyncSpirit.Lib.Run

/-!
# Who may take back an introduction

A peer that is an introducer adds devices and shares, and takes back those it does not
list any more. `cluster_update_t` only knows who has introduced a share, not who has
introduced a device: a device is removed for the sake of one of its shares.

- `removed_spec`: which devices and shares a message removes;
- `Justified`: what may be removed at all;
- `Ready.step`: in every state of a run the maps are in order, and the local device has
  introduced its own shares;
- `justified_iff`: the run theorem;
- `peer_removes_itself`: a peer whose folder has been accepted, and that does not share
  anything any more.
-/

namespace SyncSpirit

namespace ClusterUpdate

open Network Fallible

/-! ## What a message removes -/

section Removals

variable {env : Env} {n : Network} {source : Device} {acc : Acc}

/-- The source has introduced the share and does not confirm it. -/
def Dismissed (n : Network) (source : Device) (acc : Acc) (share : Share) : Prop :=
  (n.infos share.2).introducer = source.id ∧ share.2 ∉ acc.confirmed

instance (n : Network) (source : Device) (acc : Acc) (share : Share) :
    Decidable (Dismissed n source acc share) := inferInstanceAs (Decidable (_ ∧ _))

theorem eq_of_uuid (h : n.Tidy) {share share' : Share} (hs : share ∈ n.shares) (hs' : share' ∈ n.shares)
    (huuid : (n.infos share.2).uuid = (n.infos share'.2).uuid) : share = share' := by
  obtain ⟨hf, hfi⟩ := mem_shares.mp hs
  obtain ⟨hf', hfi'⟩ := mem_shares.mp hs'
  have hrow : n.row share.1 share.2 = n.row share'.1 share'.2 :=
    List.inj_on_of_nodup_map h.uuids (mem_rows.mpr ⟨_, hf, _, hfi, rfl⟩)
      (mem_rows.mpr ⟨_, hf', _, hfi', rfl⟩) huuid
  exact h.eq_of_row hs hs' (congrArg Row.info hrow)

theorem mem_unconfirmedShares (h : n.Tidy) {share : Share} :
    share ∈ unconfirmedShares n source acc ↔ share ∈ n.shares ∧ (n.infos share.2).device = source.id ∧
      share.2 ∉ acc.confirmed ∧ (n.infos share.2).maxSequence ≠ 0 := by
  unfold unconfirmedShares
  rw [List.mem_filter, h.mem_sharesOf]
  simp [and_assoc]

/-- The loop over the shares, when some of them are done. -/
structure Removing (n : Network) (source : Device) (acc : Acc) (done : List Share) (r : Removed) : Prop where
  devices : ∀ id, id ∈ r.devices ↔ ∃ share ∈ done, Dismissed n source acc share ∧
    share ∉ unconfirmedShares n source acc ∧ (n.infos share.2).device = id ∧ id ∉ acc.seen
  shares : r.shares = unconfirmedShares n source acc ++ done.filter fun share =>
    Dismissed n source acc share ∧ share ∉ unconfirmedShares n source acc ∧
      (n.infos share.2).device ∈ acc.seen

theorem Removing.step (h : n.Tidy) {done : List Share} {r : Removed} (hr : Removing n source acc done r)
    {share : Share} (hshare : share ∈ n.shares) (hdone : ∀ s ∈ done, s ∈ n.shares) (hnew : share ∉ done) :
    Removing n source acc (done ++ [share]) (removeIntroduced n source acc r share) := by
  -- the uuid of the share occurs only if the share does
  have hall : r.shares.all (fun other => (n.infos other.2).uuid ≠ (n.infos share.2).uuid) = true ↔
      share ∉ unconfirmedShares n source acc := by
    rw [List.all_eq_true]
    constructor
    · intro hall hmem
      have := hall share (hr.shares ▸ List.mem_append_left _ hmem)
      simp at this
    · intro hnot other hother
      rw [hr.shares] at hother
      have hin : other ∈ n.shares := by
        rcases List.mem_append.mp hother with hother | hother
        · exact ((mem_unconfirmedShares h).mp hother).1
        · exact hdone other (List.mem_filter.mp hother).1
      have hne : (n.infos other.2).uuid ≠ (n.infos share.2).uuid := by
        intro heq
        have hsame := eq_of_uuid h hin hshare heq
        subst hsame
        rcases List.mem_append.mp hother with hother | hother
        · exact hnot hother
        · exact hnew (List.mem_filter.mp hother).1
      simpa using hne
  by_cases hcond : Dismissed n source acc share ∧ share ∉ unconfirmedShares n source acc
  · have hif : removeIntroduced n source acc r share =
        if (n.infos share.2).device ∈ acc.seen then { r with shares := r.shares ++ [share] }
        else { r with devices := if (n.infos share.2).device ∈ r.devices then r.devices
          else r.devices ++ [(n.infos share.2).device] } := by
      unfold removeIntroduced
      dsimp only
      rw [if_pos ⟨hcond.1.1, hcond.1.2, hall.mpr hcond.2⟩]
    rw [hif]
    split
    · rename_i hseen
      refine ⟨fun id => ?_, ?_⟩
      · rw [hr.devices]
        simp only [List.mem_append, List.mem_singleton]
        constructor
        · rintro ⟨s, hs, hrest⟩
          exact ⟨s, .inl hs, hrest⟩
        · rintro ⟨s, hs | rfl, hrest⟩
          · exact ⟨s, hs, hrest⟩
          · exact absurd hseen (hrest.2.2.1 ▸ hrest.2.2.2)
      · show r.shares ++ [share] = _
        rw [hr.shares, List.filter_append, List.append_assoc]
        simp [hcond.1, hcond.2, hseen]
    · rename_i hseen
      refine ⟨fun id => ?_, ?_⟩
      · have hmem : id ∈ (if (n.infos share.2).device ∈ r.devices then r.devices
            else r.devices ++ [(n.infos share.2).device]) ↔
            id ∈ r.devices ∨ (n.infos share.2).device = id := by
          split
          · rename_i hin
            exact ⟨.inl, fun hor => hor.elim (fun hid => hid) fun heq => heq ▸ hin⟩
          · simp [eq_comm]
        rw [hmem, hr.devices]
        simp only [List.mem_append, List.mem_singleton]
        constructor
        · rintro (⟨s, hs, hrest⟩ | rfl)
          · exact ⟨s, .inl hs, hrest⟩
          · exact ⟨share, .inr rfl, hcond.1, hcond.2, rfl, hseen⟩
        · rintro ⟨s, hs | rfl, hrest⟩
          · exact .inl ⟨s, hs, hrest⟩
          · exact .inr hrest.2.2.1
      · rw [List.filter_append]
        simp [hr.shares, hseen]
  · have hif : removeIntroduced n source acc r share = r := by
      unfold removeIntroduced
      dsimp only
      rw [if_neg]
      rintro ⟨hintroducer, hconfirmed, huuid⟩
      exact hcond ⟨⟨hintroducer, hconfirmed⟩, hall.mp huuid⟩
    rw [hif]
    refine ⟨fun id => ?_, ?_⟩
    · rw [hr.devices]
      simp only [List.mem_append, List.mem_singleton]
      constructor
      · rintro ⟨s, hs, hrest⟩
        exact ⟨s, .inl hs, hrest⟩
      · rintro ⟨s, hs | rfl, hrest⟩
        · exact ⟨s, hs, hrest⟩
        · exact absurd ⟨hrest.1, hrest.2.1⟩ hcond
    · rw [hr.shares, List.filter_append]
      have hnone : [share].filter (fun share => Dismissed n source acc share ∧
          share ∉ unconfirmedShares n source acc ∧ (n.infos share.2).device ∈ acc.seen) = [] := by
        simp only [List.filter_eq_nil_iff, List.mem_singleton]
        rintro s rfl hs
        obtain ⟨h₁, h₂, -⟩ := of_decide_eq_true hs
        exact hcond ⟨h₁, h₂⟩
      rw [hnone, List.append_nil]

theorem removing_of_foldl (h : n.Tidy) {l : List Share} :
    ∀ {done : List Share} {r : Removed}, Removing n source acc done r → (done ++ l).Nodup →
      (∀ s ∈ done ++ l, s ∈ n.shares) →
      Removing n source acc (done ++ l) (l.foldl (removeIntroduced n source acc) r) := by
  induction l with
  | nil =>
    intro done r hr _ _
    rwa [List.append_nil]
  | cons share l ih =>
    intro done r hr hnodup hsub
    have hstep := hr.step h (hsub share (by simp)) (fun s hs => hsub s (List.mem_append_left _ hs))
      fun hmem => (List.nodup_append.mp hnodup).2.2 share hmem share (List.mem_cons_self ..) rfl
    have hrest := ih hstep (by rwa [List.append_assoc]) (by rwa [List.append_assoc])
    rwa [List.append_assoc] at hrest

/-- **The removals** of a message. -/
theorem removed_spec (h : n.Tidy) :
    (∀ id, id ∈ (removed n source acc).devices ↔ source.skipIntroductionRemovals = false ∧
      ∃ share ∈ n.shares, Dismissed n source acc share ∧ share ∉ unconfirmedShares n source acc ∧
        (n.infos share.2).device = id ∧ id ∉ acc.seen) ∧
    ∀ share, share ∈ (removed n source acc).shares ↔ share ∈ unconfirmedShares n source acc ∨
      (source.skipIntroductionRemovals = false ∧ share ∈ n.shares ∧ Dismissed n source acc share ∧
        (n.infos share.2).device ∈ acc.seen) := by
  unfold removed
  dsimp only
  by_cases hskip : source.skipIntroductionRemovals = true
  · rw [if_pos hskip]
    simp [hskip]
  · have hskip' : source.skipIntroductionRemovals = false := by simpa using hskip
    have hr : Removing n source acc n.shares
        (n.shares.foldl (removeIntroduced n source acc) ⟨[], unconfirmedShares n source acc⟩) := by
      have hstart : Removing n source acc [] ⟨[], unconfirmedShares n source acc⟩ :=
        ⟨by simp, by simp⟩
      exact removing_of_foldl h hstart h.nodup_shares fun s hs => hs
    rw [if_neg hskip]
    refine ⟨fun id => ?_, fun share => ?_⟩
    · rw [hr.devices]
      simp [hskip']
    · rw [hr.shares, List.mem_append, List.mem_filter]
      simp only [decide_eq_true_eq, hskip', true_and]
      constructor
      · rintro (hmem | ⟨hin, hd, -, hseen⟩)
        · exact .inl hmem
        · exact .inr ⟨hin, hd, hseen⟩
      · rintro (hmem | ⟨hin, hd, hseen⟩)
        · exact .inl hmem
        · by_cases hun : share ∈ unconfirmedShares n source acc
          · exact .inl hun
          · exact .inr ⟨hin, hd, hun, hseen⟩

end Removals

/-! ## The removals in the chain -/

section Chain

variable {env : Env} {n : Network} {source : Device} {acc : Acc} {r : Removed}

theorem removePeer_mem_changes {id : Sha256} :
    Change.removePeer id ∈ upsertFolders env n acc ++ removals n source acc r ++ additions env n source acc ↔
      id ∈ r.devices := by
  constructor
  · intro hc
    simp only [List.mem_append] at hc
    rcases hc with (hc | hc) | hc
    · obtain ⟨uuid, f, index, -, hc | hc⟩ := mem_upsertFolders hc <;> cases hc
    · rcases mem_removals hc with ⟨share, hc⟩ | ⟨peer, hpeer, hc⟩ | ⟨-, hc⟩ | ⟨hashes, hc⟩ | ⟨keys, hc⟩
      · cases hc
      · rcases mem_removePeer hc with hc | ⟨share, -, hc | hc⟩ | hc | hc
        all_goals cases hc
        exact hpeer
      all_goals cases hc
    · rcases mem_additions hc with ⟨share, -, hc⟩ | hc | hc | ⟨k, -, hc⟩ | ⟨u, -, uuid, hc⟩
      · cases hc
      · cases hc
      · cases hc
      · rcases mem_introducePeer hc with hc | hc | hc <;> cases hc
      · cases hc
  · intro hid
    refine List.mem_append_left _ (List.mem_append_right _ ?_)
    unfold removals
    simp only [List.mem_append, List.mem_flatMap]
    refine .inl (.inl (.inl (.inr ⟨id, hid, ?_⟩)))
    exact List.mem_append_right _ (List.mem_singleton_self _)

theorem removeFolderInfos_mem_changes {keys : List (Uuid × Sha256)} :
    Change.removeFolderInfos keys ∈
        upsertFolders env n acc ++ removals n source acc r ++ additions env n source acc ↔
      (∃ peer ∈ r.devices, ∃ share ∈ n.sharesOf peer, keys = keysOf n [share]) ∨
        (r.shares ≠ [] ∧ keys = keysOf n r.shares) := by
  constructor
  · intro hc
    simp only [List.mem_append] at hc
    rcases hc with (hc | hc) | hc
    · obtain ⟨uuid, f, index, -, hc | hc⟩ := mem_upsertFolders hc <;> cases hc
    · rcases mem_removals hc with ⟨share, hc⟩ | ⟨peer, hpeer, hc⟩ | ⟨hne, hc⟩ | ⟨hashes, hc⟩ | ⟨keys, hc⟩
      · cases hc
      · rcases mem_removePeer hc with hc | ⟨share, hshare, hc | hc⟩ | hc | hc
        all_goals cases hc
        exact .inl ⟨peer, hpeer, share, hshare, rfl⟩
      · cases hc
        exact .inr ⟨hne, rfl⟩
      all_goals cases hc
    · rcases mem_additions hc with ⟨share, -, hc⟩ | hc | hc | ⟨k, -, hc⟩ | ⟨u, -, uuid, hc⟩
      · cases hc
      · cases hc
      · cases hc
      · rcases mem_introducePeer hc with hc | hc | hc <;> cases hc
      · cases hc
  · intro hor
    refine List.mem_append_left _ (List.mem_append_right _ ?_)
    unfold removals
    simp only [List.mem_append, List.mem_flatMap]
    rcases hor with ⟨peer, hpeer, share, hshare, rfl⟩ | ⟨hne, rfl⟩
    · refine .inl (.inl (.inl (.inr ⟨peer, hpeer, ?_⟩)))
      unfold Network.removePeer
      simp only [List.mem_append, List.mem_flatMap]
      exact .inl (.inl (.inr ⟨share, hshare, List.mem_append_right _ (List.mem_singleton_self _)⟩))
    · refine .inl (.inl (.inr ?_))
      rw [if_neg hne]
      exact List.mem_append_right _ (List.mem_singleton_self _)

end Chain

/-! ## What may be removed -/

/-- The maps are in order, the local device is known and has introduced its own shares. -/
structure Ordered (n : Network) : Prop where
  tidy : n.Tidy
  self : n.self ∈ n.ids
  own : ∀ r ∈ n.rows, r.device = n.self → r.introducer = n.self

/-- The device has been introduced by the other one. -/
def IntroducedBy (n : Network) (introducer id : Sha256) : Prop :=
  (n.device? id).bind Device.origin = some introducer

instance (n : Network) (introducer id : Sha256) : Decidable (IntroducedBy n introducer id) :=
  inferInstanceAs (Decidable (_ = _))

/-- Only what the source has introduced and does not list is removed: neither the local device
nor the source, and no share of the local device. This goes for the shares that are removed with
their device, too; only the shares of the source may be made anew. -/
structure Justified (n : Network) (source : Device) (es : List (Proto.Folder × Proto.Device)) (plan : Plan) :
    Prop where
  devices : ∀ id, Change.removePeer id ∈ plan.changes → id ≠ n.self ∧ id ≠ source.id ∧
    IntroducedBy n source.id id ∧ ¬ Listed es id
  shares : ∀ keys, Change.removeFolderInfos keys ∈ plan.changes → ∀ r ∈ n.rows, r.key ∈ keys →
    r.device ≠ n.self ∧ ((r.introducer = source.id ∧ ¬ ListedIn es r.folderId r.device) ∨
      (r.device = source.id ∧ ∃ index,
        Change.upsertFolderInfo r.uuid r.device r.introducer r.folderId index ∈ plan.changes))

/-- The message removes nothing, or for every share that the source has introduced:

- a share of the source itself that has no sequence: the source lists itself somewhere;
- a share of another device: the device is listed, or the source has introduced it and all of
  its shares;
- a share of a device that is gone: the share is not listed. -/
def Harmless (n : Network) (source : Device) (es : List (Proto.Folder × Proto.Device)) : Prop :=
  source.skipIntroductionRemovals = true ∨ ∀ r ∈ n.rows, r.introducer = source.id →
    (r.device = source.id → (n.infos r.info).maxSequence = 0 → Listed es source.id) ∧
    (r.device ≠ source.id → r.device ∈ n.ids → Listed es r.device ∨
      (IntroducedBy n source.id r.device ∧ ∀ q ∈ n.rows, q.device = r.device → q.introducer = source.id)) ∧
    (r.device ∉ n.ids → ¬ ListedIn es r.folderId r.device)

instance (n : Network) (source : Device) (es : List (Proto.Folder × Proto.Device)) :
    Decidable (Harmless n source es) := inferInstanceAs (Decidable (_ ∨ ∀ r ∈ n.rows, _))

section State

variable {env : Env} {n : Network} {source : Device} {message : Proto.ClusterConfig} {plan : Plan}

/-- A share with its row. -/
theorem row_of_mem {r : Row} (hr : r ∈ n.rows) : ∃ share ∈ n.shares, r = n.row share.1 share.2 := by
  obtain ⟨folder, hfolder, fi, hfi, rfl⟩ := mem_rows.mp hr
  exact ⟨(folder, fi), mem_shares.mpr ⟨hfolder, hfi⟩, rfl⟩

theorem mem_rows_of_share {share : Share} (hs : share ∈ n.shares) : n.row share.1 share.2 ∈ n.rows :=
  mem_rows.mpr ⟨share.1, (mem_shares.mp hs).1, share.2, (mem_shares.mp hs).2, rfl⟩

/-- A share is confirmed if its device is known and listed in the folder. -/
theorem confirmed_iff (h : n.Tidy) {es : List (Proto.Folder × Proto.Device)} {acc : Acc}
    (hw : Walked env n source es acc) {share : Share} (hs : share ∈ n.shares) :
    share.2 ∈ acc.confirmed ↔ ListedIn es share.1.id (n.infos share.2).device ∧
      (n.infos share.2).device ≠ n.self ∧ (n.infos share.2).device ∈ n.ids := by
  rw [hw.confirmed]
  constructor
  · rintro ⟨f, id, folder, hlisted, hne, hknown, hshare⟩
    obtain ⟨hfolder, hid, hfi, hdevice⟩ := h.share?_iff.mp hshare
    have heq : (folder, share.2) = share := h.eq_of_row (mem_shares.mpr ⟨hfolder, hfi⟩) hs rfl
    have hfst : share.1 = folder := (congrArg Prod.fst heq).symm
    have hdevice' : (n.infos share.2).device = id := hdevice
    rw [hdevice', hfst]
    exact ⟨hid ▸ hlisted, hne, mem_ids.mpr hknown⟩
  · rintro ⟨hlisted, hne, hknown⟩
    exact ⟨share.1.id, _, share.1, hlisted, hne, mem_ids.mp hknown, h.share?_of_mem hs⟩

/-- What `create` has found. -/
theorem create_ok (h : Ordered n) (hsource : source.id ∈ n.ids) (hne : source.id ≠ n.self)
    (hcreate : create env n source message = .ok plan) :
    Walked env n source (entries message) plan.acc ∧ plan.removed = removed n source plan.acc ∧
      (∀ id ∈ plan.removed.devices, id ∈ n.ids) ∧
      plan.changes = upsertFolders env n plan.acc ++ removals n source plan.acc plan.removed ++
        additions env n source plan.acc := by
  obtain ⟨acc, hwalk, hcreate⟩ := bind_ok.mp hcreate
  obtain ⟨ds, hds, hcreate⟩ := bind_ok.mp hcreate
  cases hcreate
  refine ⟨walk_spec (mem_ids.mp hsource) (mem_ids.mp h.self) hne h.tidy.pendingKeys hwalk, rfl, ?_, rfl⟩
  intro id hid
  obtain ⟨d, hd⟩ := mapM_ok hds id hid
  exact mem_ids.mpr (by rw [deref_ok.mp hd]; rfl)

/-- A device is removed for the sake of a share. -/
theorem mem_devices (h : Ordered n) (hsource : source.id ∈ n.ids) (hne : source.id ≠ n.self)
    (hcreate : create env n source message = .ok plan) {id : Sha256} (hid : id ∈ n.ids) :
    Change.removePeer id ∈ plan.changes ↔ source.skipIntroductionRemovals = false ∧
      ¬ Listed (entries message) id ∧ ∃ r ∈ n.rows, r.introducer = source.id ∧ r.device = id ∧
        ¬ (id = source.id ∧ (n.infos r.info).maxSequence ≠ 0) := by
  obtain ⟨hw, hr, -, hchanges⟩ := create_ok h hsource hne hcreate
  rw [hchanges, removePeer_mem_changes, hr, (removed_spec h.tidy).1]
  constructor
  · rintro ⟨hskip, share, hs, hdismissed, hun, hdevice, hseen⟩
    refine ⟨hskip, fun hl => hseen ((hw.seen id (mem_ids.mp hid)).mpr hl), _, mem_rows_of_share hs,
      hdismissed.1, hdevice, ?_⟩
    rintro ⟨rfl, hmax⟩
    exact hun ((mem_unconfirmedShares h.tidy).mpr ⟨hs, hdevice, hdismissed.2, hmax⟩)
  · rintro ⟨hskip, hunlisted, r, hrow, hintroducer, hdevice, hmax⟩
    obtain ⟨share, hs, rfl⟩ := row_of_mem hrow
    have hdevice' : (n.infos share.2).device = id := hdevice
    refine ⟨hskip, share, hs, ⟨hintroducer, fun hconfirmed => ?_⟩, fun hun => ?_, hdevice,
      fun hseen => hunlisted ((hw.seen id (mem_ids.mp hid)).mp hseen)⟩
    · have hlisted := ((confirmed_iff h.tidy hw hs).mp hconfirmed).1
      exact hunlisted (hdevice' ▸ hlisted.listed)
    · obtain ⟨-, hd, -, hm⟩ := (mem_unconfirmedShares h.tidy).mp hun
      exact hmax ⟨hdevice'.symm.trans hd, hm⟩

/-- **At one state**: the message removes what it may, exactly if it is harmless. -/
theorem justified_iff_harmless (h : Ordered n) (hsource : source.id ∈ n.ids) (hne : source.id ≠ n.self)
    (hcreate : create env n source message = .ok plan) :
    Justified n source (entries message) plan ↔ Harmless n source (entries message) := by
  obtain ⟨hw, hr, hknown, hchanges⟩ := create_ok h hsource hne hcreate
  have hmem := fun {id : Sha256} (hid : id ∈ n.ids) => mem_devices h hsource hne hcreate hid
  have hdevices : ∀ id, Change.removePeer id ∈ plan.changes → id ∈ n.ids := by
    intro id hid
    rw [hchanges, removePeer_mem_changes] at hid
    exact hknown id hid
  have hshares := (@removed_spec n source plan.acc h.tidy).2
  rw [← hr] at hshares
  constructor
  · intro hj
    by_cases hskip : source.skipIntroductionRemovals = true
    · exact .inl hskip
    · have hskip' : source.skipIntroductionRemovals = false := by simpa using hskip
      refine .inr fun r hrow hintroducer => ⟨fun hdevice hmax => ?_, fun hdevice hid => ?_, fun hid hlisted => ?_⟩
      · by_contra hunlisted
        have hin := (hmem hsource).mpr ⟨hskip', hunlisted, r, hrow, hintroducer, hdevice, fun hcon => hcon.2 hmax⟩
        exact (hj.devices _ hin).2.1 rfl
      · refine or_iff_not_imp_left.mpr fun hunlisted => ?_
        have hin := (hmem hid).mpr ⟨hskip', hunlisted, r, hrow, hintroducer, rfl, fun hcon => hdevice hcon.1⟩
        refine ⟨(hj.devices _ hin).2.2.1, fun q hq heq => ?_⟩
        -- every share of the device is removed with it
        obtain ⟨share, hs, rfl⟩ := row_of_mem hq
        have hchange : Change.removeFolderInfos (keysOf n [share]) ∈ plan.changes := by
          rw [hchanges, removePeer_mem_changes] at hin
          rw [hchanges, removeFolderInfos_mem_changes]
          exact .inl ⟨_, hin, share, h.tidy.mem_sharesOf.mpr ⟨hs, heq⟩, rfl⟩
        rcases (hj.shares _ hchange _ hq (List.mem_singleton_self _)).2 with ⟨hintroduced, -⟩ | ⟨hsame, -⟩
        · exact hintroduced
        · exact absurd (heq.symm.trans hsame) hdevice
      · -- a device that is gone cannot be removed again, but its share is
        obtain ⟨share, hs, rfl⟩ := row_of_mem hrow
        have hnot : share.2 ∉ plan.acc.confirmed := fun hcon => hid ((confirmed_iff h.tidy hw hs).mp hcon).2.2
        have hun : share ∉ unconfirmedShares n source plan.acc := by
          intro hcon
          have hdevice : (n.row share.1 share.2).device = source.id := ((mem_unconfirmedShares h.tidy).mp hcon).2.1
          exact hid (hdevice ▸ hsource)
        have hseen : (n.infos share.2).device ∈ plan.acc.seen := by
          by_contra hseen
          refine hid (hknown _ ?_)
          rw [hr]
          exact ((removed_spec h.tidy).1 _).mpr ⟨hskip', share, hs, ⟨hintroducer, hnot⟩, hun, rfl, hseen⟩
        have hin := (hshares share).mpr (.inr ⟨hskip', hs, ⟨hintroducer, hnot⟩, hseen⟩)
        have hchange : Change.removeFolderInfos (keysOf n plan.removed.shares) ∈ plan.changes := by
          rw [hchanges, removeFolderInfos_mem_changes]
          exact .inr ⟨List.ne_nil_of_mem hin, rfl⟩
        rcases (hj.shares _ hchange _ hrow (List.mem_map_of_mem hin)).2 with ⟨-, hnot⟩ | ⟨heq, -⟩
        · exact hnot hlisted
        · exact hid (heq ▸ hsource)
  · intro hharmless
    have hremoved : ∀ id, Change.removePeer id ∈ plan.changes → id ≠ n.self ∧ id ≠ source.id ∧
        IntroducedBy n source.id id ∧ ¬ Listed (entries message) id ∧
          ∀ q ∈ n.rows, q.device = id → q.introducer = source.id := by
      intro id hin
      have hid := hdevices id hin
      obtain ⟨hskip, hunlisted, r, hrow, hintroducer, rfl, hmax⟩ := (hmem hid).mp hin
      rcases hharmless with htrue | hall
      · rw [hskip] at htrue
        cases htrue
      · obtain ⟨hself, hother, -⟩ := hall r hrow hintroducer
        have hnsource : r.device ≠ source.id := by
          intro heq
          have hzero : (n.infos r.info).maxSequence = 0 := by
            by_contra hcon
            exact hmax ⟨heq, hcon⟩
          exact hunlisted (heq ▸ hself heq hzero)
        obtain ⟨hintroduced, hall⟩ := (hother hnsource hid).resolve_left hunlisted
        refine ⟨fun heq => ?_, hnsource, hintroduced, hunlisted, hall⟩
        exact hne (hintroducer.symm.trans (h.own r hrow heq))
    refine ⟨fun id hid => ?_, fun keys hkeys r hrow hkey => ?_⟩
    · obtain ⟨hself, hnsource, hintroduced, hunlisted, -⟩ := hremoved id hid
      exact ⟨hself, hnsource, hintroduced, hunlisted⟩
    rw [hchanges, removeFolderInfos_mem_changes] at hkeys
    rcases hkeys with ⟨peer, hpeer, share, hshare, rfl⟩ | ⟨-, rfl⟩
    · have hpeer' : Change.removePeer peer ∈ plan.changes := by
        rw [hchanges, removePeer_mem_changes]
        exact hpeer
      have hdevice : r.device = peer := by
        have hkey' : r.key = (share.1.uuid, (n.infos share.2).device) := by simpa [keysOf] using hkey
        exact (congrArg Prod.snd hkey').trans (h.tidy.mem_sharesOf.mp hshare).2
      obtain ⟨hself, -, -, hunlisted, hall⟩ := hremoved peer hpeer'
      refine ⟨hdevice ▸ hself, .inl ⟨hall r hrow hdevice, fun hlisted => hunlisted ?_⟩⟩
      exact hdevice ▸ hlisted.listed
    · obtain ⟨share, hin, hkey⟩ := List.mem_map.mp hkey
      have hs : share ∈ n.shares := by
        rcases (hshares share).mp hin with hun | ⟨-, hs, -⟩
        · exact ((mem_unconfirmedShares h.tidy).mp hun).1
        · exact hs
      have hrow' : r = n.row share.1 share.2 :=
        h.tidy.eq_of_key hrow (mem_rows_of_share hs) hkey.symm
      subst hrow'
      rcases (hshares share).mp hin with hun | ⟨hskip, -, hdismissed, hseen⟩
      · -- the share is made anew
        have hdevice := ((mem_unconfirmedShares h.tidy).mp hun).2.1
        refine ⟨fun heq => hne (hdevice.symm.trans heq), .inr ⟨hdevice, 0, ?_⟩⟩
        rw [hchanges]
        refine List.mem_append_right _ ?_
        unfold additions
        simp only [List.mem_append]
        exact .inl (.inl (.inl (.inl (List.mem_map.mpr ⟨share, hun, rfl⟩))))
      · have hnself : (n.infos share.2).device ≠ n.self := fun heq =>
          hne (hdismissed.1.symm.trans (h.own _ hrow heq))
        refine ⟨hnself, .inl ⟨hdismissed.1, fun hlisted => ?_⟩⟩
        by_cases hid : (n.infos share.2).device ∈ n.ids
        · exact hdismissed.2 ((confirmed_iff h.tidy hw hs).mpr ⟨hlisted, hnself, hid⟩)
        · rcases hharmless with htrue | hall
          · rw [hskip] at htrue
            cases htrue
          · exact (hall _ hrow hdismissed.1).2.2 hid hlisted

end State

end ClusterUpdate

namespace Introductions

open Network ClusterUpdate Fallible

/-! ## Runs -/

/-- The diffs that change devices and shares. All but the last one come from the user. -/
inductive Op where
  | updatePeer (device : Device)
  | removePeer (id : Sha256)
  | createFolder (uuid infoUuid : Uuid) (id : String) (index : UInt64)
  | shareFolder (uuid : Uuid) (folderId : String) (peer : Sha256)
  | unshareFolder (folderId : String) (peer : Sha256)
  | deleteFolder (nextUuid : Nat → Uuid) (folderId : String)
  | clusterUpdate (env : Env) (source : Sha256) (message : Proto.ClusterConfig)

/-- The chain of a diff, when it is built. -/
def Op.changes (n : Network) : Op → Option (List Change)
  | .updatePeer device => some (n.introducePeer { device with origin := none })
  | .removePeer id => some (n.removePeer id)
  | .createFolder uuid infoUuid id index => some (n.createFolder uuid infoUuid id index)
  | .shareFolder uuid folderId peer => (n.folderById folderId).bind (n.shareFolder uuid peer n.self)
  | .unshareFolder folderId peer => (n.share? folderId peer).map n.unshareFolder
  | .deleteFolder nextUuid folderId => (n.folderById folderId).map (n.deleteFolder nextUuid)
  | .clusterUpdate env source message =>
    if source = n.self then none
    else (n.device? source).bind fun d =>
      (create env n d message).toOption.map fun plan => .clearViews d.id :: plan.changes

/-- The network and the diffs that have not been applied yet. -/
structure State extends Network where
  pending : List (List Change)

/-- What happens.

- `push`: a diff is built;
- `apply`: the next change of one of the diffs is made;
- `files`: whatever happens to files and blocks. A folder info stays what it is;
- `contacts`: devices ask for a connection, or are ignored. -/
inductive Event where
  | push (op : Op)
  | apply (i : Nat)
  | files (s : Store)
  | contacts (pendingDevices ignoredDevices : List Sha256)

/-- Other files and blocks. -/
def withFiles (n : Network) (s : Store) : Network :=
  { n with toStore := { s with infos := fun fi => { n.infos fi with
      files := (s.infos fi).files, maxSequence := (s.infos fi).maxSequence } } }

/-- One event. A diff that fails stops the program. -/
def step (parsable : String → Bool) (st : State) : Event → Option State
  | .push op => (op.changes st.toNetwork).map fun cs => { st with pending := st.pending ++ [cs] }
  | .apply i =>
    match st.pending[i]? with
    | some (c :: cs) => (c.apply parsable st.toNetwork).toOption.map fun n =>
        { toNetwork := n, pending := st.pending.set i cs }
    | _ => none
  | .files s => some { st with toNetwork := withFiles st.toNetwork s }
  | .contacts pendingDevices ignoredDevices => some { st with
      pendingDevices := pendingDevices, ignoredDevices := ignoredDevices }

/-- The uuids that the sequencer hands out are new. -/
def Fresh (st : State) : Event → Prop
  | .apply i => ∀ cs ∈ st.pending[i]?, ∀ c ∈ cs.head?, c.Fresh st.toNetwork
  | _ => True

instance (st : State) : ∀ e, Decidable (Fresh st e)
  | .apply i => inferInstanceAs (Decidable (∀ cs ∈ st.pending[i]?, ∀ c ∈ cs.head?, c.Fresh st.toNetwork))
  | .push _ | .files _ | .contacts .. => inferInstanceAs (Decidable True)

/-- Nothing but the local device. -/
def start (self : Sha256) : State where
  toStore := Store.initial fun _ => default
  folders := []
  self := self
  devices := [⟨self, [], false, false, false, [], none⟩]
  pendingFolders := []
  pendingDevices := []
  ignoredDevices := []
  nextInfo := 0
  pending := []

/-! ## The invariant -/

/-- A share of the local device is introduced by it. -/
def Honest (self : Sha256) : Change → Prop
  | .upsertFolderInfo _ device introducer _ _ => device = self → introducer = self
  | _ => True

/-- What holds in every state. -/
structure Ready (st : State) : Prop where
  ordered : Ordered st.toNetwork
  honest : ∀ cs ∈ st.pending, ∀ c ∈ cs, Honest st.self c

section Steps

variable {parsable : String → Bool} {n t : Network} {c : Change} {st st' : State}

/-- The local device is not removed. -/
theorem self_not_gone (hok : c.apply parsable n = .ok t) : n.self ∉ c.gone := by
  cases c with
  | removePeer device =>
    intro hmem
    have heq : device = n.self := (List.mem_singleton.mp hmem).symm
    unfold Change.apply at hok
    dsimp only at hok
    split at hok
    · cases hok
    · rw [if_pos heq] at hok
      cases hok
  | _ => exact List.not_mem_nil

/-- **One change** keeps the maps in order. -/
theorem ordered_apply (h : Ordered n) (hfresh : c.Fresh n) (hhonest : Honest n.self c)
    (hok : c.apply parsable n = .ok t) : Ordered t ∧ t.self = n.self := by
  have heffect := apply_effect h.tidy hfresh hok
  refine ⟨⟨heffect.tidy, ?_, fun r hr hdevice => ?_⟩, heffect.self⟩
  · rw [heffect.self]
    exact (heffect.ids n.self).mpr (.inl ⟨h.self, self_not_gone hok⟩)
  · rw [heffect.self] at hdevice ⊢
    rcases heffect.rows r hr with ⟨hr, -⟩ | ⟨-, index, rfl⟩
    · exact h.own r hr hdevice
    · exact hhonest hdevice

theorem honest_removePeer {self peer : Sha256} : ∀ c ∈ n.removePeer peer, Honest self c := by
  intro c hc
  rcases mem_removePeer hc with rfl | ⟨share, -, rfl | rfl⟩ | rfl | rfl
  all_goals trivial

theorem honest_removeFolderInfos {self : Sha256} {shares : List Share} :
    ∀ c ∈ n.removeFolderInfos shares, Honest self c := by
  intro c hc
  rcases mem_removeFolderInfos hc with ⟨share, -, rfl⟩ | rfl
  all_goals trivial

theorem honest_introducePeer {self : Sha256} {device : Device} : ∀ c ∈ n.introducePeer device, Honest self c := by
  intro c hc
  rcases mem_introducePeer hc with rfl | rfl | rfl
  all_goals trivial

/-- **A cluster update** makes no share of the local device in the name of the source. -/
theorem honest_create {env : Env} {source : Device} {message : Proto.ClusterConfig} {plan : Plan}
    (h : Ordered n) (hsource : source.id ∈ n.ids) (hne : source.id ≠ n.self)
    (hcreate : create env n source message = .ok plan) : ∀ c ∈ plan.changes, Honest n.self c := by
  obtain ⟨hw, -, -, hchanges⟩ := create_ok h hsource hne hcreate
  intro c hc
  rw [hchanges] at hc
  simp only [List.mem_append] at hc
  rcases hc with (hc | hc) | hc
  · obtain ⟨uuid, id, index, -, rfl | rfl⟩ := mem_upsertFolders hc
    · trivial
    · exact fun _ => rfl
  · rcases mem_removals hc with ⟨share, rfl⟩ | ⟨peer, -, hc⟩ | ⟨-, rfl⟩ | ⟨hashes, rfl⟩ | ⟨keys, rfl⟩
    · trivial
    · exact honest_removePeer c hc
    all_goals trivial
  · rcases mem_additions hc with ⟨share, hshare, rfl⟩ | rfl | rfl | ⟨k, -, hc⟩ | ⟨u, hu, uuid, rfl⟩
    · -- a share of the source
      intro hdevice
      have hsource' := ((mem_unconfirmedShares h.tidy).mp hshare).2.1
      exact absurd (hsource'.symm.trans hdevice) hne
    · trivial
    · trivial
    · exact honest_introducePeer c hc
    · intro hdevice
      rcases hw.infos u hu with ⟨⟨heq, -⟩ | ⟨k, hk, heq⟩, -⟩ | ⟨-, ⟨-, hnself, -⟩, -⟩
      · exact absurd (heq.symm.trans hdevice) hne
      · -- the local device is known, so it is not introduced
        have hunknown := (hw.introduced k hk).1
        rw [heq, hdevice, mem_ids.mp h.self] at hunknown
        cases hunknown
      · exact absurd hdevice hnself

/-- **A diff** makes no share of the local device in the name of somebody else. -/
theorem honest_changes (h : Ordered n) {op : Op} {cs : List Change} (hcs : op.changes n = some cs) :
    ∀ c ∈ cs, Honest n.self c := by
  cases op with
  | updatePeer device =>
    cases hcs
    exact honest_introducePeer
  | removePeer id =>
    cases hcs
    exact honest_removePeer
  | createFolder uuid infoUuid id index =>
    cases hcs
    intro c hc
    rcases List.mem_cons.mp hc with rfl | hc
    · trivial
    · split at hc
      · cases hc
      · rw [List.mem_singleton.mp hc]
        exact fun _ => rfl
  | shareFolder uuid folderId peer =>
    obtain ⟨folder, -, hcs⟩ := Option.bind_eq_some_iff.mp hcs
    unfold shareFolder at hcs
    split at hcs
    · cases hcs
    · intro c hc
      split at hcs
      · cases hcs
        rcases List.mem_cons.mp hc with rfl | hc
        · exact fun _ => rfl
        · rw [List.mem_singleton.mp hc]
          trivial
      · cases hcs
        rw [List.mem_singleton.mp hc]
        exact fun _ => rfl
  | unshareFolder folderId peer =>
    obtain ⟨share, -, rfl⟩ := Option.map_eq_some_iff.mp hcs
    intro c hc
    rcases List.mem_append.mp hc with hc | hc
    · exact honest_removeFolderInfos c hc
    · rw [mem_removeOrphans hc]
      trivial
  | deleteFolder nextUuid folderId =>
    obtain ⟨folder, -, rfl⟩ := Option.map_eq_some_iff.mp hcs
    intro c hc
    simp only [deleteFolder, List.mem_append, List.mem_flatMap, List.mem_singleton] at hc
    rcases hc with ((⟨fi, -, hc⟩ | hc) | hc) | rfl
    · exact honest_removeFolderInfos c hc
    · rw [mem_removeOrphans hc]
      trivial
    · split at hc
      · cases hc
      · rw [List.mem_singleton.mp hc]
        trivial
    · trivial
  | clusterUpdate env source message =>
    unfold Op.changes at hcs
    dsimp only at hcs
    split at hcs
    · cases hcs
    · rename_i hne
      obtain ⟨d, hd, hcs⟩ := Option.bind_eq_some_iff.mp hcs
      obtain ⟨plan, hplan, rfl⟩ := Option.map_eq_some_iff.mp hcs
      have hid : d.id = source := id_of_device? hd
      have hknown : d.id ∈ n.ids := mem_ids.mpr (by rw [hid, hd]; rfl)
      intro c hc
      rcases List.mem_cons.mp hc with rfl | hc
      · trivial
      · exact honest_create h hknown (hid ▸ hne) (toOption_eq_some.mp hplan) c hc

/-- Other files change nothing that matters here. -/
theorem ordered_withFiles (h : Ordered n) (s : Store) : Ordered (withFiles n s) := by
  have hrows : (withFiles n s).rows = n.rows := rows_congr rfl fun _ => ⟨rfl, rfl, rfl⟩
  refine ⟨h.tidy.of_same rfl rfl hrows rfl h.tidy.pendingKeys h.tidy.pendingIds, h.self, ?_⟩
  rw [hrows]
  exact h.own

/-- **One event** keeps the invariant. -/
theorem Ready.step (h : Ready st) {e : Event} (hfresh : Fresh st e) (hstep : step parsable st e = some st') :
    Ready st' := by
  cases e with
  | push op =>
    obtain ⟨cs, hcs, rfl⟩ := Option.map_eq_some_iff.mp hstep
    refine ⟨h.ordered, fun cs' hcs' => ?_⟩
    rcases List.mem_append.mp hcs' with hcs' | hcs'
    · exact h.honest cs' hcs'
    · rw [List.mem_singleton.mp hcs']
      exact honest_changes h.ordered hcs
  | apply i =>
    unfold Introductions.step at hstep
    dsimp only at hstep
    split at hstep
    · rename_i c cs hget
      obtain ⟨t, ht, rfl⟩ := Option.map_eq_some_iff.mp hstep
      have hmem : c :: cs ∈ st.pending := List.mem_of_getElem? hget
      have hc := h.honest _ hmem
      obtain ⟨hordered, hself⟩ := ordered_apply h.ordered (hfresh _ hget c rfl)
        (hc c (List.mem_cons_self ..)) (toOption_eq_some.mp ht)
      refine ⟨hordered, fun cs' hcs' c' hc' => ?_⟩
      show Honest t.self c'
      rw [hself]
      rcases List.mem_or_eq_of_mem_set hcs' with hcs' | rfl
      · exact h.honest cs' hcs' c' hc'
      · exact hc c' (List.mem_cons_of_mem _ hc')
    · cases hstep
  | files s =>
    cases hstep
    exact ⟨ordered_withFiles h.ordered s, h.honest⟩
  | contacts pendingDevices ignoredDevices =>
    cases hstep
    exact ⟨⟨h.ordered.tidy.of_same rfl rfl rfl rfl h.ordered.tidy.pendingKeys h.ordered.tidy.pendingIds,
      h.ordered.self, h.ordered.own⟩, h.honest⟩

theorem ready_start (self : Sha256) : Ready (start self) := by
  refine ⟨⟨⟨?_, ?_, ?_, ?_, ?_, ?_, ?_, ?_⟩, ?_, ?_⟩, ?_⟩
  all_goals simp [start, Network.rows, Network.ids]

end Steps

/-- **Who may be removed**: in every state of every run, a message removes only what its source
has introduced and does not list, exactly if it is harmless there. -/
theorem justified_iff {parsable : String → Bool} {self : Sha256} {es : List Event} {st : State}
    (hrun : Run.exec (step parsable) (start self) es = some st)
    (hfresh : Run.Meets (step parsable) Fresh (start self) es)
    {env : Env} {source : Device} {message : Proto.ClusterConfig} {plan : Plan}
    (hsource : st.device? source.id = some source) (hne : source.id ≠ st.self)
    (hcreate : create env st.toNetwork source message = .ok plan) :
    Justified st.toNetwork source (entries message) plan ↔
      Harmless st.toNetwork source (entries message) := by
  have hready : Ready st :=
    Run.exec_inv (fun _ _ _ h hc hstep => h.step hc hstep) (ready_start self) hfresh hrun
  exact justified_iff_harmless hready.ordered (mem_ids.mpr (by rw [hsource]; rfl)) hne hcreate

/-! ### A peer that is accepted -/

/-- A peer whose folders are accepted. -/
def peer : Device := ⟨List.replicate 32 1, [], false, true, false, [], none⟩

/-- Uuids are counted, and every folder has a place. -/
def counting (k : Nat) : Env where
  makeDir _ := true
  parsable _ := true
  nextUuid i := Uuid.ofByte (.ofNat (k + i))
  nextIndex i := .ofNat (k + i)

/-- The peer shares a folder. -/
def sharing : Proto.ClusterConfig where
  folders := [⟨"f", "f", [⟨peer.id, [], 7, 0, false, false⟩]⟩]

/-- The user adds the peer, and its folder is accepted. -/
def accepting : List Event :=
  [.push (.updatePeer peer), .apply 0, .push (.clusterUpdate (counting 1) peer.id sharing),
    .apply 1, .apply 1, .apply 1, .apply 1, .apply 1]

/-- The state after it. -/
def accepted : State :=
  (Run.exec (step fun _ => true) (start (List.replicate 32 0)) accepting).get (by decide +kernel)

/-- The peer then. -/
def sharer : Device := { peer with views := [⟨peer.id, "f", 7, 0⟩] }

/-- A peer that goes on sharing its folder removes nothing. -/
theorem sharing_is_justified : ∃ plan, create (counting 9) accepted.toNetwork sharer sharing = .ok plan ∧
    Harmless accepted.toNetwork sharer (entries sharing) ∧
    Justified accepted.toNetwork sharer (entries sharing) plan := by
  have hharmless : Harmless accepted.toNetwork sharer (entries sharing) := by decide +kernel
  refine ⟨_, rfl, hharmless, ?_⟩
  exact (justified_iff (Option.some_get _).symm (by decide +kernel) (by decide +kernel)
    (by decide +kernel) rfl).mpr hharmless

/-- **The peer removes itself** when it does not share anything any more. -/
theorem peer_removes_itself :
    Run.exec (step fun _ => true) (start (List.replicate 32 0)) accepting = some accepted ∧
    Run.Meets (step fun _ => true) Fresh (start (List.replicate 32 0)) accepting ∧
    accepted.device? sharer.id = some sharer ∧ sharer.id ≠ accepted.self ∧
    ∃ plan, create (counting 9) accepted.toNetwork sharer ⟨[]⟩ = .ok plan ∧
      ¬ Justified accepted.toNetwork sharer (entries ⟨[]⟩) plan := by
  refine ⟨(Option.some_get _).symm, by decide +kernel, by decide +kernel, by decide +kernel, _, rfl,
    fun hj => ?_⟩
  exact (hj.devices sharer.id (by decide +kernel)).2.1 rfl

end Introductions

end SyncSpirit
