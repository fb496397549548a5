import SyncSpirit.ClusterUpdate
import SyncSpirit.Lib.Fallible
import Mathlib

/-!
# What the two passes find (`cluster_update_t`)

`Walked` says what the constructor knows when it has walked over the message twice:
which devices have been seen, which shares are confirmed, and which folders, shares
and devices are to be added. The passes are loops over the entries, so the invariants
speak of the entries done: `First` of the first pass, `Second` of the second one.
-/

namespace SyncSpirit

namespace ClusterUpdate

open Network Fallible

/-- The device is mentioned. -/
def Listed (es : List (Proto.Folder × Proto.Device)) (id : Sha256) : Prop := ∃ e ∈ es, e.2.id = id

/-- The device is mentioned in the folder. -/
def ListedIn (es : List (Proto.Folder × Proto.Device)) (folderId : String) (id : Sha256) : Prop :=
  ∃ e ∈ es, e.1.id = folderId ∧ e.2.id = id

instance (es : List (Proto.Folder × Proto.Device)) (id : Sha256) : Decidable (Listed es id) :=
  inferInstanceAs (Decidable (∃ e ∈ es, _))

instance (es : List (Proto.Folder × Proto.Device)) (folderId : String) (id : Sha256) :
    Decidable (ListedIn es folderId id) := inferInstanceAs (Decidable (∃ e ∈ es, _))

theorem listed_append {es : List (Proto.Folder × Proto.Device)} {e : Proto.Folder × Proto.Device}
    {id : Sha256} : Listed (es ++ [e]) id ↔ Listed es id ∨ e.2.id = id := by
  simp [Listed, or_and_right, exists_or]

theorem listedIn_append {es : List (Proto.Folder × Proto.Device)} {e : Proto.Folder × Proto.Device}
    {folderId : String} {id : Sha256} : ListedIn (es ++ [e]) folderId id ↔
      ListedIn es folderId id ∨ (e.1.id = folderId ∧ e.2.id = id) := by
  simp [ListedIn, or_and_right, exists_or]

/-- An entry that has been met before says nothing new. -/
theorem listed_again {es : List (Proto.Folder × Proto.Device)} {e : Proto.Folder × Proto.Device}
    (h : ListedIn es e.1.id e.2.id) (id : Sha256) : Listed (es ++ [e]) id ↔ Listed es id := by
  obtain ⟨e', he', -, hid⟩ := h
  rw [listed_append]
  exact ⟨fun hor => hor.elim (fun hold => hold) fun heq => ⟨e', he', hid.trans heq⟩, .inl⟩

theorem listedIn_again {es : List (Proto.Folder × Proto.Device)} {e : Proto.Folder × Proto.Device}
    (h : ListedIn es e.1.id e.2.id) (folderId : String) (id : Sha256) :
    ListedIn (es ++ [e]) folderId id ↔ ListedIn es folderId id := by
  obtain ⟨e', he', hf, hid⟩ := h
  rw [listedIn_append]
  exact ⟨fun hor => hor.elim (fun hold => hold) fun heq => ⟨e', he', hf.trans heq.1, hid.trans heq.2⟩, .inl⟩

theorem ListedIn.listed {es : List (Proto.Folder × Proto.Device)} {folderId : String} {id : Sha256}
    (h : ListedIn es folderId id) : Listed es id := by
  obtain ⟨e, he, -, hid⟩ := h
  exact ⟨e, he, hid⟩

/-! ## The lookups -/

theorem share?_eq_some {n : Network} {folderId : String} {device : Sha256} {share : Share}
    (h : n.share? folderId device = some share) :
    share.1 ∈ n.folders ∧ share.1.id = folderId ∧ share.2 ∈ share.1.infos ∧
      (n.infos share.2).device = device := by
  obtain ⟨folder, hfolder, h⟩ := Option.bind_eq_some_iff.mp h
  obtain ⟨fi, hfi, rfl⟩ := Option.map_eq_some_iff.mp h
  exact ⟨List.mem_of_find?_eq_some hfolder, by simpa using List.find?_some hfolder,
    List.mem_of_find?_eq_some hfi, by simpa using List.find?_some hfi⟩

/-! ## The first pass -/

section First

variable {env : Env} {n : Network} {source : Device}

/-- What `checkPending` does: pending folders of that name are confirmed, and outdated
ones are removed. -/
theorem checkPending_spec {folderId : String} {d : Proto.Device} :
    ∀ {ps : List PendingFolder} {acc : Acc},
      (checkPending source folderId d ps acc).2 = { acc with
        confirmedPending := (checkPending source folderId d ps acc).2.confirmedPending
        removedPending := (checkPending source folderId d ps acc).2.removedPending } ∧
      (∃ l, (checkPending source folderId d ps acc).2.removedPending = acc.removedPending ++ l ∧
        l.Sublist ((ps.filter fun p => p.device = source.id ∧ p.id = folderId).map PendingFolder.key) ∧
        (∀ key ∈ l, key ∈ (checkPending source folderId d ps acc).2.confirmedPending)) ∧
      ∀ key ∈ acc.confirmedPending,
        key ∈ (checkPending source folderId d ps acc).2.confirmedPending := by
  intro ps
  induction ps with
  | nil => exact fun {acc} => ⟨rfl, ⟨[], by simp [checkPending]⟩, fun key hkey => hkey⟩
  | cons p ps ih =>
    intro acc
    by_cases hp : p.device = source.id ∧ p.id = folderId
    · by_cases hactual : p.index = d.index ∧ p.maxSequence = d.maxSequence
      · simp only [checkPending, if_pos hp, if_pos hactual]
        exact ⟨trivial, ⟨[], by simp⟩, fun key hkey => List.mem_cons_of_mem _ hkey⟩
      · simp only [checkPending, if_pos hp, if_neg hactual]
        obtain ⟨hsame, ⟨l, hl, hsub, hmem⟩, hmono⟩ := @ih { acc with
          confirmedPending := p.key :: acc.confirmedPending
          removedPending := acc.removedPending ++ [p.key] }
        refine ⟨hsame, ⟨p.key :: l, ?_, ?_, ?_⟩, fun key hkey => hmono key (List.mem_cons_of_mem _ hkey)⟩
        · rw [hl, List.append_assoc]
          rfl
        · rw [List.filter_cons_of_pos (by simpa using hp), List.map_cons]
          exact hsub.cons_cons _
        · intro key hkey
          rcases List.mem_cons.mp hkey with rfl | hkey
          · exact hmono _ (List.mem_cons_self ..)
          · exact hmem key hkey
    · simp only [checkPending, if_neg hp]
      rw [List.filter_cons_of_neg (by simpa using hp)]
      exact ih

/-- A pair of folder and device that has not been met. -/
def Acc.visit (n : Network) (source : Device) (acc : Acc) (f : Proto.Folder) (d : Proto.Device) : Acc :=
  { acc with
    pairs := (f.id, d.id) :: acc.pairs
    seen := if (n.device? d.id).isSome then d.id :: acc.seen else acc.seen
    views := if d.id = source.id ∨ d.id = n.self then
        acc.views ++ [⟨d.id, f.id, d.index, d.maxSequence⟩]
      else acc.views }

/-- What the first pass can do with an entry. -/
inductive FirstCase (env : Env) (n : Network) (source : Device) (acc : Acc) (f : Proto.Folder)
    (d : Proto.Device) : Acc → Prop where
  | again : (f.id, d.id) ∈ acc.pairs → FirstCase env n source acc f d acc
  | other : (f.id, d.id) ∉ acc.pairs → d.id ≠ source.id →
      FirstCase env n source acc f d (acc.visit n source f d)
  | accept : (f.id, d.id) ∉ acc.pairs → d.id = source.id → n.share? f.id d.id = none →
      source.autoAccept = true → (n.folderById f.id).isSome = true →
      FirstCase env n source acc f d (addFolderInfo (acc.visit n source f d) f.id d)
  | create : (f.id, d.id) ∉ acc.pairs → d.id = source.id → n.share? f.id d.id = none →
      source.autoAccept = true → n.folderById f.id = none →
      FirstCase env n source acc f d (addFolderInfo { acc.visit n source f d with
        folders := acc.folders ++ [f.id] } f.id d)
  | pending : (f.id, d.id) ∉ acc.pairs → d.id = source.id → n.share? f.id d.id = none →
      source.autoAccept = false →
      FirstCase env n source acc f d (addPending env n source (acc.visit n source f d) f.id d)
  | confirm (share : Share) : (f.id, d.id) ∉ acc.pairs → d.id = source.id →
      n.share? f.id d.id = some share →
      FirstCase env n source acc f d (confirmFolder n (acc.visit n source f d) share d)

section Known

variable (hsource : (n.device? source.id).isSome = true) (hself : (n.device? n.self).isSome = true)
  (hne : source.id ≠ n.self)

include hsource hself hne

theorem firstPass_cases {acc acc' : Acc} {e : Proto.Folder × Proto.Device}
    (h : firstPass env n source acc e = .ok acc') :
    e.2.id.length = 32 ∧ FirstCase env n source acc e.1 e.2 acc' := by
  obtain ⟨f, d⟩ := e
  unfold firstPass at h
  dsimp only at h ⊢
  split at h
  · cases h
  · rename_i hlen
    refine ⟨by simpa using hlen, ?_⟩
    split at h
    · rename_i hold
      cases h
      exact .again hold
    · rename_i hnew
      split at h
      · -- an unknown device is not the source and not the local one
        rename_i hunknown
        cases h
        have hnotSome : (n.device? d.id).isSome = false := by simpa using hunknown
        have hds : d.id ≠ source.id := by
          intro heq
          rw [heq, hsource] at hnotSome
          cases hnotSome
        have hdn : d.id ≠ n.self := by
          intro heq
          rw [heq, hself] at hnotSome
          cases hnotSome
        have := @FirstCase.other env n source acc f d hnew hds
        simpa [Acc.visit, hnotSome, hds, hdn] using this
      · rename_i hknown
        have hsome : (n.device? d.id).isSome = true := by simpa [← Option.isSome_iff_ne_none] using hknown
        split at h
        · rename_i hother
          cases h
          have := @FirstCase.other env n source acc f d hnew hother.1
          simpa [Acc.visit, hsome, hother.1, hother.2] using this
        · rename_i hconcerned
          have hor : d.id = source.id ∨ d.id = n.self := by
            by_contra hcon
            push Not at hcon
            exact hconcerned hcon
          split at h
          · rename_i hdself
            cases h
            have hds : d.id ≠ source.id := fun heq => hne (heq.symm.trans hdself)
            have := @FirstCase.other env n source acc f d hnew hds
            simpa [Acc.visit, hsome, hor] using this
          · rename_i hdself
            have hds : d.id = source.id := hor.resolve_right hdself
            have hvisit : acc.visit n source f d = { acc with
                pairs := (f.id, d.id) :: acc.pairs
                seen := d.id :: acc.seen
                views := acc.views ++ [⟨d.id, f.id, d.index, d.maxSequence⟩] } := by
              simp [Acc.visit, hsome, hor]
            rw [← hvisit] at h
            split at h
            · rename_i hshare
              unfold offerFolder at h
              split at h
              · rename_i hauto
                split at h
                · rename_i hfolder
                  cases h
                  exact .accept hnew hds hshare hauto hfolder
                · rename_i hfolder
                  unfold addFolder at h
                  split at h
                  · cases h
                    exact .create hnew hds hshare hauto (by simpa using hfolder)
                  · cases h
              · rename_i hauto
                cases h
                exact .pending hnew hds hshare (by simpa using hauto)
            · rename_i share hshare
              cases h
              exact .confirm share hnew hds hshare

end Known

/-- What the first pass notes of every entry. -/
structure Visited (n : Network) (source : Device) (done : List (Proto.Folder × Proto.Device))
    (acc : Acc) : Prop where
  pairs : ∀ f id, (f, id) ∈ acc.pairs ↔ ListedIn done f id
  seen : ∀ id, id ∈ acc.seen ↔ (n.device? id).isSome = true ∧ Listed done id
  views : acc.views = [] ↔ ¬ Listed done source.id ∧ ¬ Listed done n.self

/-- The shares of the source that it lists, and those of them that are reset. -/
structure Confirmed (n : Network) (source : Device) (done : List (Proto.Folder × Proto.Device))
    (acc : Acc) : Prop where
  confirmed : ∀ fi, fi ∈ acc.confirmed ↔
    ∃ f folder, ListedIn done f source.id ∧ n.share? f source.id = some (folder, fi)
  reset : ∀ share ∈ acc.reset, ∃ f, ListedIn done f source.id ∧ n.share? f source.id = some share
  resetNodup : acc.reset.Nodup

/-- The folders that are accepted, with the shares of the source. -/
structure Accepted (n : Network) (source : Device) (done : List (Proto.Folder × Proto.Device))
    (acc : Acc) : Prop where
  folders : ∀ f, f ∈ acc.folders ↔
    source.autoAccept = true ∧ n.folderById f = none ∧ ListedIn done f source.id
  foldersNodup : acc.folders.Nodup
  infos : ∀ u ∈ acc.infos, u.device = source.id ∧ Listed done source.id ∧
    ((n.folderById u.folderId).isSome = true ∨ u.folderId ∈ acc.folders)
  introduced : acc.introduced = []

/-- The folders that the source offers. -/
structure Offered (n : Network) (source : Device) (done : List (Proto.Folder × Proto.Device))
    (acc : Acc) : Prop where
  newPending : ∀ p ∈ acc.newPending, p.device = source.id
  removedPending : ∀ key ∈ acc.removedPending, key ∈ acc.confirmedPending ∧
    ∃ p ∈ n.pendingFolders, p.key = key ∧ p.device = source.id ∧ ListedIn done p.id source.id
  removedNodup : acc.removedPending.Nodup
  unlisted : ¬ Listed done source.id → acc.newPending = [] ∧ acc.confirmedPending = []

variable {done : List (Proto.Folder × Proto.Device)} {acc acc' : Acc} {f : Proto.Folder}
  {d : Proto.Device}

theorem Visited.visit (h : Visited n source done acc) (f : Proto.Folder) (d : Proto.Device) :
    Visited n source (done ++ [(f, d)]) (acc.visit n source f d) where
  pairs g id := by
    simp only [Acc.visit, List.mem_cons, Prod.mk.injEq, h.pairs, listedIn_append]
    grind
  seen id := by
    have := h.seen id
    simp only [Acc.visit, listed_append]
    split <;> grind
  views := by
    simp only [Acc.visit, listed_append]
    split
    · rename_i hconcerned
      constructor
      · intro hnil
        simp at hnil
      · rintro ⟨hs, hn⟩
        exact hconcerned.elim (fun heq => absurd (.inr heq) hs) fun heq => absurd (.inr heq) hn
    · rename_i hother
      rw [h.views]
      grind

theorem Visited.step (h : Visited n source done acc) (hc : FirstCase env n source acc f d acc') :
    Visited n source (done ++ [(f, d)]) acc' := by
  have hvisit := h.visit f d
  cases hc with
  | again hold =>
    have hlisted : ListedIn done f.id d.id := (h.pairs _ _).mp hold
    constructor
    · intro g id
      rw [listedIn_again hlisted]
      exact h.pairs g id
    · intro id
      rw [listed_again hlisted]
      exact h.seen id
    · rw [listed_again hlisted, listed_again hlisted]
      exact h.views
  | other => exact hvisit
  | accept => exact ⟨hvisit.pairs, hvisit.seen, hvisit.views⟩
  | create => exact ⟨hvisit.pairs, hvisit.seen, hvisit.views⟩
  | pending =>
    obtain ⟨hsame, -, -⟩ := @checkPending_spec source f.id d n.pendingFolders (acc.visit n source f d)
    unfold addPending
    dsimp only
    split
    · rw [hsame]
      exact ⟨hvisit.pairs, hvisit.seen, hvisit.views⟩
    · rw [hsame]
      exact ⟨hvisit.pairs, hvisit.seen, hvisit.views⟩
  | confirm share =>
    unfold confirmFolder
    dsimp only
    split <;> exact ⟨hvisit.pairs, hvisit.seen, hvisit.views⟩

theorem listedIn_other (hd : d.id ≠ source.id) (g : String) :
    ListedIn (done ++ [(f, d)]) g source.id ↔ ListedIn done g source.id := by
  rw [listedIn_append]
  exact ⟨fun hor => hor.elim (fun hold => hold) fun heq => absurd heq.2 hd, .inl⟩

theorem Confirmed.mono (h : Confirmed n source done acc)
    {done' : List (Proto.Folder × Proto.Device)}
    (hdone : ∀ g share, n.share? g source.id = some share →
      (ListedIn done' g source.id ↔ ListedIn done g source.id))
    (hconfirmed : acc'.confirmed = acc.confirmed) (hreset : acc'.reset = acc.reset) :
    Confirmed n source done' acc' where
  confirmed fi := by
    rw [hconfirmed, h.confirmed]
    constructor
    · rintro ⟨g, folder, hlisted, hshare⟩
      exact ⟨g, folder, (hdone g _ hshare).mpr hlisted, hshare⟩
    · rintro ⟨g, folder, hlisted, hshare⟩
      exact ⟨g, folder, (hdone g _ hshare).mp hlisted, hshare⟩
  reset share hmem := by
    rw [hreset] at hmem
    obtain ⟨g, hlisted, hshare⟩ := h.reset share hmem
    exact ⟨g, (hdone g _ hshare).mpr hlisted, hshare⟩
  resetNodup := hreset ▸ h.resetNodup

theorem Confirmed.step (hv : Visited n source done acc) (h : Confirmed n source done acc)
    (hc : FirstCase env n source acc f d acc') : Confirmed n source (done ++ [(f, d)]) acc' := by
  -- the source is listed in a folder that is not shared with it
  have hunshared : d.id = source.id → n.share? f.id d.id = none → ∀ g share,
      n.share? g source.id = some share →
      (ListedIn (done ++ [(f, d)]) g source.id ↔ ListedIn done g source.id) := by
    intro hd hnone g share hshare
    rw [listedIn_append]
    refine ⟨fun hor => hor.elim (fun hold => hold) ?_, .inl⟩
    rintro ⟨rfl, -⟩
    rw [hd, hshare] at hnone
    cases hnone
  cases hc with
  | again hold =>
    exact h.mono (fun g share _ => listedIn_again ((hv.pairs _ _).mp hold) g source.id) rfl rfl
  | other _ hd => exact h.mono (fun g share _ => listedIn_other hd g) rfl rfl
  | accept _ hd hnone => exact h.mono (hunshared hd hnone) rfl rfl
  | create _ hd hnone => exact h.mono (hunshared hd hnone) rfl rfl
  | pending _ hd hnone =>
    obtain ⟨hsame, -, -⟩ := @checkPending_spec source f.id d n.pendingFolders (acc.visit n source f d)
    unfold addPending
    dsimp only
    split
    · rw [hsame]
      exact h.mono (hunshared hd hnone) rfl rfl
    · rw [hsame]
      exact h.mono (hunshared hd hnone) rfl rfl
  | confirm share hnew hd hshare =>
    have hlisted : ListedIn (done ++ [(f, d)]) f.id source.id :=
      listedIn_append.mpr (.inr ⟨rfl, hd⟩)
    have hmono : ∀ g, ListedIn done g source.id → ListedIn (done ++ [(f, d)]) g source.id :=
      fun g hg => listedIn_append.mpr (.inl hg)
    rw [hd] at hshare
    -- the share is met for the first time
    have hfresh : share ∉ acc.reset := by
      intro hmem
      obtain ⟨g, hg, hshare'⟩ := h.reset share hmem
      have hgf : g = f.id := (share?_eq_some hshare').2.1.symm.trans (share?_eq_some hshare).2.1
      exact hnew ((hv.pairs _ _).mpr (by rwa [hgf, ← hd] at hg))
    have hconfirmed : ∀ fi, fi ∈ share.2 :: acc.confirmed ↔
        ∃ g folder, ListedIn (done ++ [(f, d)]) g source.id ∧
          n.share? g source.id = some (folder, fi) := by
      intro fi
      rw [List.mem_cons, h.confirmed]
      constructor
      · rintro (rfl | ⟨g, folder, hg, hshare'⟩)
        · exact ⟨f.id, share.1, hlisted, hshare⟩
        · exact ⟨g, folder, hmono g hg, hshare'⟩
      · rintro ⟨g, folder, hg, hshare'⟩
        rcases listedIn_append.mp hg with hg | ⟨rfl, -⟩
        · exact .inr ⟨g, folder, hg, hshare'⟩
        · rw [hshare] at hshare'
          cases hshare'
          exact .inl rfl
    unfold confirmFolder
    dsimp only
    split
    · refine ⟨hconfirmed, fun s hs => ?_, ?_⟩
      · rcases List.mem_append.mp hs with hs | hs
        · obtain ⟨g, hg, hshare'⟩ := h.reset s hs
          exact ⟨g, hmono g hg, hshare'⟩
        · rw [List.mem_singleton.mp hs]
          exact ⟨f.id, hlisted, hshare⟩
      · exact List.nodup_append.mpr ⟨h.resetNodup, by simp, by
          rintro a ha b hb rfl
          exact hfresh (List.mem_singleton.mp hb ▸ ha)⟩
    · refine ⟨hconfirmed, fun s hs => ?_, h.resetNodup⟩
      obtain ⟨g, hg, hshare'⟩ := h.reset s hs
      exact ⟨g, hmono g hg, hshare'⟩

theorem Accepted.mono (h : Accepted n source done acc)
    {done' : List (Proto.Folder × Proto.Device)}
    (hdone : ∀ g, source.autoAccept = true → n.folderById g = none →
      (ListedIn done' g source.id ↔ ListedIn done g source.id))
    (hlisted : Listed done source.id → Listed done' source.id)
    (hfolders : acc'.folders = acc.folders) (hinfos : acc'.infos = acc.infos)
    (hintroduced : acc'.introduced = acc.introduced) : Accepted n source done' acc' where
  folders g := by
    rw [hfolders, h.folders]
    constructor
    · rintro ⟨hauto, hnone, hg⟩
      exact ⟨hauto, hnone, (hdone g hauto hnone).mpr hg⟩
    · rintro ⟨hauto, hnone, hg⟩
      exact ⟨hauto, hnone, (hdone g hauto hnone).mp hg⟩
  foldersNodup := hfolders ▸ h.foldersNodup
  infos u hu := by
    rw [hinfos] at hu
    rw [hfolders]
    obtain ⟨hdevice, hl, hfolder⟩ := h.infos u hu
    exact ⟨hdevice, hlisted hl, hfolder⟩
  introduced := hintroduced.trans h.introduced

/-- One more share of the source. -/
theorem Accepted.addFolderInfo (h : Accepted n source done acc) (hd : d.id = source.id)
    (hlisted : Listed done source.id)
    (hfolder : (n.folderById f.id).isSome = true ∨ f.id ∈ acc.folders) (index : UInt64) :
    Accepted n source done { acc with infos := acc.infos ++ [⟨f.id, d.id, index⟩] } where
  folders := h.folders
  foldersNodup := h.foldersNodup
  infos u hu := by
    rcases List.mem_append.mp hu with hu | hu
    · exact h.infos u hu
    · rw [List.mem_singleton.mp hu]
      exact ⟨hd, hlisted, hfolder⟩
  introduced := h.introduced

theorem Accepted.step (hv : Visited n source done acc) (h : Accepted n source done acc)
    (hc : FirstCase env n source acc f d acc') : Accepted n source (done ++ [(f, d)]) acc' := by
  have hmono : Listed done source.id → Listed (done ++ [(f, d)]) source.id :=
    fun hl => listed_append.mpr (.inl hl)
  -- the folder of the entry exists
  have hknown : (n.folderById f.id).isSome = true → ∀ g, source.autoAccept = true →
      n.folderById g = none →
      (ListedIn (done ++ [(f, d)]) g source.id ↔ ListedIn done g source.id) := by
    intro hsome g _ hnone
    rw [listedIn_append]
    refine ⟨fun hor => hor.elim (fun hold => hold) ?_, .inl⟩
    rintro ⟨rfl, -⟩
    rw [hnone] at hsome
    cases hsome
  cases hc with
  | again hold =>
    exact h.mono (fun g _ _ => listedIn_again ((hv.pairs _ _).mp hold) g source.id) hmono rfl rfl rfl
  | other _ hd => exact h.mono (fun g _ _ => listedIn_other hd g) hmono rfl rfl rfl
  | accept _ hd _ _ hsome =>
    have hstep : Accepted n source (done ++ [(f, d)]) (acc.visit n source f d) :=
      h.mono (hknown hsome) hmono rfl rfl rfl
    exact hstep.addFolderInfo hd (listed_append.mpr (.inr hd)) (.inl hsome) d.index
  | create hnew hd _ hauto hnone =>
    have hfresh : f.id ∉ acc.folders := by
      intro hmem
      have hlisted := ((h.folders f.id).mp hmem).2.2
      rw [← hd] at hlisted
      exact hnew ((hv.pairs _ _).mpr hlisted)
    have hstep : Accepted n source (done ++ [(f, d)])
        { acc.visit n source f d with folders := acc.folders ++ [f.id] } := by
      refine ⟨fun g => ?_, ?_, fun u hu => ?_, h.introduced⟩
      · dsimp only
        rw [List.mem_append, List.mem_singleton, h.folders, listedIn_append]
        constructor
        · rintro (⟨h₁, h₂, h₃⟩ | rfl)
          · exact ⟨h₁, h₂, .inl h₃⟩
          · exact ⟨hauto, hnone, .inr ⟨rfl, hd⟩⟩
        · rintro ⟨h₁, h₂, h₃ | ⟨rfl, -⟩⟩
          · exact .inl ⟨h₁, h₂, h₃⟩
          · exact .inr rfl
      · refine List.nodup_append.mpr ⟨h.foldersNodup, by simp, ?_⟩
        rintro a ha b hb rfl
        exact hfresh (List.mem_singleton.mp hb ▸ ha)
      · obtain ⟨hdevice, hl, hfolder⟩ := h.infos u hu
        exact ⟨hdevice, hmono hl, hfolder.imp_right fun hmem => List.mem_append_left _ hmem⟩
    exact hstep.addFolderInfo hd (listed_append.mpr (.inr hd))
      (.inr (List.mem_append_right _ (List.mem_singleton_self _))) d.index
  | pending _ hd _ hauto =>
    have hoff : ∀ g, source.autoAccept = true → n.folderById g = none →
        (ListedIn (done ++ [(f, d)]) g source.id ↔ ListedIn done g source.id) := by
      intro g htrue
      rw [hauto] at htrue
      cases htrue
    obtain ⟨hsame, -, -⟩ := @checkPending_spec source f.id d n.pendingFolders (acc.visit n source f d)
    unfold addPending
    dsimp only
    split
    · rw [hsame]
      exact h.mono hoff hmono rfl rfl rfl
    · rw [hsame]
      exact h.mono hoff hmono rfl rfl rfl
  | confirm share _ hd hshare =>
    obtain ⟨hmem, hid, -, hdevice⟩ := share?_eq_some hshare
    have hsome : (n.folderById f.id).isSome = true :=
      List.find?_isSome.mpr ⟨share.1, hmem, by simpa using hid⟩
    have hstep : Accepted n source (done ++ [(f, d)]) (acc.visit n source f d) :=
      h.mono (hknown hsome) hmono rfl rfl rfl
    unfold confirmFolder
    dsimp only
    split
    · rw [hid, hdevice]
      have := hstep.addFolderInfo hd (listed_append.mpr (.inr hd)) (.inl hsome) d.index
      exact ⟨this.folders, this.foldersNodup, this.infos, this.introduced⟩
    · exact ⟨hstep.folders, hstep.foldersNodup, hstep.infos, hstep.introduced⟩

theorem Offered.mono (h : Offered n source done acc) {done' : List (Proto.Folder × Proto.Device)}
    (hdone : ∀ g, ListedIn done g source.id → ListedIn done' g source.id)
    (hlisted : Listed done source.id → Listed done' source.id)
    (hnew : acc'.newPending = acc.newPending) (hremoved : acc'.removedPending = acc.removedPending)
    (hconfirmed : acc'.confirmedPending = acc.confirmedPending) : Offered n source done' acc' where
  newPending p hp := h.newPending p (hnew ▸ hp)
  removedPending key hkey := by
    obtain ⟨hmem, p, hp, hpkey, hdevice, hg⟩ := h.removedPending key (hremoved ▸ hkey)
    exact ⟨hconfirmed ▸ hmem, p, hp, hpkey, hdevice, hdone _ hg⟩
  removedNodup := hremoved ▸ h.removedNodup
  unlisted hun := by
    rw [hnew, hconfirmed]
    exact h.unlisted fun hl => hun (hlisted hl)

/-- The pending folders have different keys. -/
theorem Offered.step (hkeys : (n.pendingFolders.map PendingFolder.key).Nodup)
    (hv : Visited n source done acc) (h : Offered n source done acc)
    (hc : FirstCase env n source acc f d acc') : Offered n source (done ++ [(f, d)]) acc' := by
  have hmono : Listed done source.id → Listed (done ++ [(f, d)]) source.id :=
    fun hl => listed_append.mpr (.inl hl)
  have hmonoIn : ∀ g, ListedIn done g source.id → ListedIn (done ++ [(f, d)]) g source.id :=
    fun g hg => listedIn_append.mpr (.inl hg)
  cases hc with
  | again => exact h.mono hmonoIn hmono rfl rfl rfl
  | other => exact h.mono hmonoIn hmono rfl rfl rfl
  | accept => exact h.mono hmonoIn hmono rfl rfl rfl
  | create => exact h.mono hmonoIn hmono rfl rfl rfl
  | confirm share =>
    unfold confirmFolder
    dsimp only
    split <;> exact h.mono hmonoIn hmono rfl rfl rfl
  | pending hnew hd =>
    obtain ⟨hsame, ⟨l, hl, hsub, hmem⟩, hmonoPending⟩ :=
      @checkPending_spec source f.id d n.pendingFolders (acc.visit n source f d)
    have hlisted : Listed (done ++ [(f, d)]) source.id := listed_append.mpr (.inr hd)
    have hlistedIn : ListedIn (done ++ [(f, d)]) f.id source.id := listedIn_append.mpr (.inr ⟨rfl, hd⟩)
    -- the keys of `l` belong to pending folders with the name of this one
    have hof : ∀ key ∈ l, ∃ p ∈ n.pendingFolders, p.key = key ∧ p.device = source.id ∧ p.id = f.id := by
      intro key hkey
      obtain ⟨p, hp, hpkey⟩ := List.mem_map.mp (hsub.subset hkey)
      obtain ⟨hp, hmatch⟩ := List.mem_filter.mp hp
      obtain ⟨hdevice, hid⟩ : p.device = source.id ∧ p.id = f.id := by simpa using hmatch
      exact ⟨p, hp, hpkey, hdevice, hid⟩
    have hnodup : (acc.removedPending ++ l).Nodup := by
      refine List.nodup_append.mpr ⟨h.removedNodup, ?_, ?_⟩
      · exact hsub.nodup ((List.filter_sublist.map PendingFolder.key).nodup hkeys)
      · rintro key hkey _ hkey' rfl
        obtain ⟨-, p, hp, hpkey, -, hg⟩ := h.removedPending key hkey
        obtain ⟨q, hq, hqkey, -, hqid⟩ := hof key hkey'
        have hpq : p = q := List.inj_on_of_nodup_map hkeys hp hq (hpkey.trans hqkey.symm)
        rw [hpq, hqid, ← hd] at hg
        exact hnew ((hv.pairs _ _).mpr hg)
    have hremoved : ∀ key ∈ acc.removedPending ++ l,
        key ∈ (checkPending source f.id d n.pendingFolders (acc.visit n source f d)).2.confirmedPending ∧
        ∃ p ∈ n.pendingFolders, p.key = key ∧ p.device = source.id ∧
          ListedIn (done ++ [(f, d)]) p.id source.id := by
      intro key hkey
      rcases List.mem_append.mp hkey with hkey | hkey
      · obtain ⟨hold, p, hp, hpkey, hdevice, hg⟩ := h.removedPending key hkey
        exact ⟨hmonoPending key hold, p, hp, hpkey, hdevice, hmonoIn _ hg⟩
      · obtain ⟨p, hp, hpkey, hdevice, hid⟩ := hof key hkey
        exact ⟨hmem key hkey, p, hp, hpkey, hdevice, by rwa [hid]⟩
    have hl' : (checkPending source f.id d n.pendingFolders (acc.visit n source f d)).2.removedPending =
      acc.removedPending ++ l := hl
    have hp' : (checkPending source f.id d n.pendingFolders (acc.visit n source f d)).2.newPending =
      acc.newPending := by
      rw [hsame]
      rfl
    unfold addPending
    dsimp only
    split
    · refine ⟨?_, ?_, ?_, fun hun => absurd hlisted hun⟩
      · rw [hp']
        exact h.newPending
      · rw [hl']
        exact hremoved
      · rw [hl']
        exact hnodup
    · refine ⟨?_, ?_, ?_, fun hun => absurd hlisted hun⟩
      · dsimp only
        rw [hp']
        intro p hp
        rcases List.mem_append.mp hp with hp | hp
        · exact h.newPending p hp
        · rw [List.mem_singleton.mp hp]
      · dsimp only
        rw [hl']
        exact hremoved
      · dsimp only
        rw [hl']
        exact hnodup

end First

/-! ## The second pass -/

section Second

variable {env : Env} {n : Network} {source : Device}

/-- What the second pass can do with an entry. -/
inductive SecondCase (env : Env) (n : Network) (source : Device) (acc : Acc) (f : Proto.Folder)
    (d : Proto.Device) : Acc → Prop where
  | skip : d.id = source.id ∨ d.id = n.self ∨ (n.device? d.id).isSome = false →
      SecondCase env n source acc f d acc
  | introduce : (n.device? d.id).isSome = false → isSharedWithSource n source acc f.id = true →
      (¬ ∃ k ∈ acc.introduced, k.id = d.id) → (addressesOf d).all env.parsable = true →
      SecondCase env n source acc f d (addFolderInfo { acc with
        seen := d.id :: acc.seen
        introduced := acc.introduced ++ [⟨d.id, addressesOf d, d.introducer, false,
          d.skipIntroductionRemovals, [], some source.id⟩] } f.id d)
  | introduced : (n.device? d.id).isSome = false → isSharedWithSource n source acc f.id = true →
      (∃ k ∈ acc.introduced, k.id = d.id) → SecondCase env n source acc f d (addFolderInfo acc f.id d)
  | share : d.id ≠ source.id → d.id ≠ n.self → (n.device? d.id).isSome = true →
      n.share? f.id d.id = none → source.introducer = true →
      SecondCase env n source acc f d (addFolderInfo { acc with seen := d.id :: acc.seen } f.id d)
  | ignore : d.id ≠ source.id → d.id ≠ n.self → (n.device? d.id).isSome = true →
      n.share? f.id d.id = none → source.introducer = false →
      SecondCase env n source acc f d { acc with seen := d.id :: acc.seen }
  | confirm (share : Share) : d.id ≠ source.id → d.id ≠ n.self → (n.device? d.id).isSome = true →
      n.share? f.id d.id = some share →
      SecondCase env n source acc f d { acc with
        seen := d.id :: acc.seen, confirmed := share.2 :: acc.confirmed }

theorem secondPass_cases {acc acc' : Acc} {e : Proto.Folder × Proto.Device}
    (h : secondPass env n source acc e = .ok acc') : SecondCase env n source acc e.1 e.2 acc' := by
  obtain ⟨f, d⟩ := e
  unfold secondPass at h
  dsimp only at h ⊢
  split at h
  · rename_i hconcerned
    cases h
    exact .skip (hconcerned.imp_right .inl)
  · rename_i hother
    push Not at hother
    split at h
    · rename_i hunknown
      have hnotSome : (n.device? d.id).isSome = false := by simpa using hunknown
      split at h
      · rename_i hshared
        unfold introduceDevice at h
        split at h
        · rename_i hold
          cases h
          exact .introduced hnotSome hshared.2 hold
        · rename_i hnew
          split at h
          · rename_i haddresses
            cases h
            exact .introduce hnotSome hshared.2 hnew haddresses
          · cases h
      · cases h
        exact .skip (.inr (.inr hnotSome))
    · rename_i hknown
      have hsome : (n.device? d.id).isSome = true := by simpa [← Option.isSome_iff_ne_none] using hknown
      split at h
      · rename_i hshare
        cases h
        split
        · rename_i hintroducer
          exact .share hother.1 hother.2 hsome hshare hintroducer
        · rename_i hintroducer
          exact .ignore hother.1 hother.2 hsome hshare (by simpa using hintroducer)
      · rename_i share hshare
        cases h
        exact .confirm share hother.1 hother.2 hsome hshare

/-- A known device other than the two that talk to each other. -/
def Third (n : Network) (source : Device) (id : Sha256) : Prop :=
  id ≠ source.id ∧ id ≠ n.self ∧ (n.device? id).isSome = true

instance (n : Network) (source : Device) (id : Sha256) : Decidable (Third n source id) :=
  inferInstanceAs (Decidable (_ ∧ _ ∧ _))

/-- The second pass, from where the first one has ended. -/
structure Second (env : Env) (n : Network) (source : Device) (first : Acc)
    (done : List (Proto.Folder × Proto.Device)) (acc : Acc) : Prop where
  same : acc = { first with
    seen := acc.seen, confirmed := acc.confirmed, infos := acc.infos, introduced := acc.introduced }
  seen : ∀ id, (n.device? id).isSome = true →
    (id ∈ acc.seen ↔ id ∈ first.seen ∨ (Third n source id ∧ Listed done id))
  confirmed : ∀ fi, fi ∈ acc.confirmed ↔ fi ∈ first.confirmed ∨
    ∃ f id folder, ListedIn done f id ∧ Third n source id ∧ n.share? f id = some (folder, fi)
  introduced : ∀ k ∈ acc.introduced, (n.device? k.id).isSome = false ∧
    k.addresses.all env.parsable = true ∧ k.origin = some source.id
  introducedNodup : (acc.introduced.map Device.id).Nodup
  infos : ∀ u ∈ acc.infos, u ∈ first.infos ∨
    ((∃ k ∈ acc.introduced, k.id = u.device) ∧
      ((n.folderById u.folderId).isSome = true ∨ u.folderId ∈ first.folders)) ∨
    (source.introducer = true ∧ Third n source u.device ∧ ListedIn done u.folderId u.device)
  shared : source.introducer = true → ∀ f id, ListedIn done f id → Third n source id →
    n.share? f id = none → ∃ u ∈ acc.infos, u.folderId = f ∧ u.device = id

variable {first : Acc} {done : List (Proto.Folder × Proto.Device)} {acc acc' : Acc}
  {f : Proto.Folder} {d : Proto.Device}

/-- A folder that is shared with the source exists or is going to be created. -/
theorem Second.folder (h : Second env n source first done acc) {folderId : String}
    (hshared : isSharedWithSource n source acc folderId = true) :
    (n.folderById folderId).isSome = true ∨ folderId ∈ first.folders := by
  have hfolders : acc.folders = first.folders := by rw [h.same]
  rcases Bool.or_eq_true_iff.mp hshared with hshare | hfolder
  · obtain ⟨share, hshare⟩ := Option.isSome_iff_exists.mp hshare
    obtain ⟨hmem, hid, -, -⟩ := share?_eq_some hshare
    exact .inl (List.find?_isSome.mpr ⟨share.1, hmem, by simpa using hid⟩)
  · exact .inr (hfolders ▸ of_decide_eq_true hfolder)

/-- An entry that is not about a third device. -/
theorem listedIn_third (hd : ¬ Third n source d.id) {g : String} {id : Sha256}
    (hid : Third n source id) : ListedIn (done ++ [(f, d)]) g id ↔ ListedIn done g id := by
  rw [listedIn_append]
  refine ⟨fun hor => hor.elim (fun hold => hold) ?_, .inl⟩
  rintro ⟨-, rfl⟩
  exact absurd hid hd

theorem listed_third (hd : ¬ Third n source d.id) {id : Sha256} (hid : Third n source id) :
    Listed (done ++ [(f, d)]) id ↔ Listed done id := by
  rw [listed_append]
  refine ⟨fun hor => hor.elim (fun hold => hold) ?_, .inl⟩
  rintro rfl
  exact absurd hid hd

theorem Second.skip (h : Second env n source first done acc) (hd : ¬ Third n source d.id) :
    Second env n source first (done ++ [(f, d)]) acc where
  same := h.same
  seen id hknown := by
    rw [h.seen id hknown]
    exact or_congr_right (and_congr_right fun hid => (listed_third hd hid).symm)
  confirmed fi := by
    rw [h.confirmed]
    refine or_congr_right ?_
    constructor
    · rintro ⟨g, id, folder, hg, hid, hshare⟩
      exact ⟨g, id, folder, (listedIn_third hd hid).mpr hg, hid, hshare⟩
    · rintro ⟨g, id, folder, hg, hid, hshare⟩
      exact ⟨g, id, folder, (listedIn_third hd hid).mp hg, hid, hshare⟩
  introduced := h.introduced
  introducedNodup := h.introducedNodup
  infos u hu := by
    rcases h.infos u hu with hold | hnew | ⟨hintroducer, hid, hg⟩
    · exact .inl hold
    · exact .inr (.inl hnew)
    · exact .inr (.inr ⟨hintroducer, hid, (listedIn_third hd hid).mpr hg⟩)
  shared hintroducer g id hg hid hnone :=
    h.shared hintroducer g id ((listedIn_third hd hid).mp hg) hid hnone

/-- One more share. -/
theorem Second.addInfo (h : Second env n source first done acc) {u : Upserted}
    (hu : (∃ k ∈ acc.introduced, k.id = u.device) ∧
      ((n.folderById u.folderId).isSome = true ∨ u.folderId ∈ first.folders)) :
    Second env n source first done { acc with infos := acc.infos ++ [u] } where
  same := by rw [h.same]
  seen := h.seen
  confirmed := h.confirmed
  introduced := h.introduced
  introducedNodup := h.introducedNodup
  infos v hv := by
    rcases List.mem_append.mp hv with hv | hv
    · exact h.infos v hv
    · rw [List.mem_singleton.mp hv]
      exact .inr (.inl hu)
  shared hintroducer g id hg hid hnone := by
    obtain ⟨v, hv, hvu⟩ := h.shared hintroducer g id hg hid hnone
    exact ⟨v, List.mem_append_left _ hv, hvu⟩

/-- One more device. -/
theorem Second.introduce (h : Second env n source first done acc) {k : Device}
    (hunknown : (n.device? k.id).isSome = false) (hnew : ¬ ∃ k' ∈ acc.introduced, k'.id = k.id)
    (haddresses : k.addresses.all env.parsable = true) (horigin : k.origin = some source.id) :
    Second env n source first done
      { acc with seen := k.id :: acc.seen, introduced := acc.introduced ++ [k] } where
  same := by rw [h.same]
  seen id hknown := by
    have hne : id ≠ k.id := by
      rintro rfl
      rw [hunknown] at hknown
      cases hknown
    rw [← h.seen id hknown, List.mem_cons]
    exact ⟨fun hor => hor.resolve_left hne, .inr⟩
  confirmed := h.confirmed
  introduced k' hk' := by
    rcases List.mem_append.mp hk' with hk' | hk'
    · exact h.introduced k' hk'
    · rw [List.mem_singleton.mp hk']
      exact ⟨hunknown, haddresses, horigin⟩
  introducedNodup := by
    rw [List.map_append]
    refine List.nodup_append.mpr ⟨h.introducedNodup, by simp, ?_⟩
    intro id hid id' hid' heq
    obtain ⟨k', hk', rfl⟩ := List.mem_map.mp hid
    exact hnew ⟨k', hk', heq.trans (by simpa using hid')⟩
  infos u hu := by
    rcases h.infos u hu with hold | ⟨⟨k', hk', hid⟩, hfolder⟩ | hthird
    · exact .inl hold
    · exact .inr (.inl ⟨⟨k', List.mem_append_left _ hk', hid⟩, hfolder⟩)
    · exact .inr (.inr hthird)
  shared := h.shared

/-- A third device is seen, and its share is confirmed or added. -/
theorem Second.third (h : Second env n source first done acc) (hd : Third n source d.id)
    {infos : List Upserted} {confirmed : List FolderInfoId}
    (hinfos : ∀ u ∈ infos, source.introducer = true ∧ u.folderId = f.id ∧ u.device = d.id)
    (hconfirmed : ∀ fi, fi ∈ confirmed ↔ ∃ folder, n.share? f.id d.id = some (folder, fi))
    (hshared : source.introducer = true → n.share? f.id d.id = none →
      ∃ u ∈ infos, u.folderId = f.id ∧ u.device = d.id) :
    Second env n source first (done ++ [(f, d)]) { acc with
      seen := d.id :: acc.seen, confirmed := confirmed ++ acc.confirmed
      infos := acc.infos ++ infos } where
  same := by rw [h.same]
  seen id hknown := by
    rw [List.mem_cons, h.seen id hknown, listed_append]
    constructor
    · rintro (rfl | hold | ⟨hid, hl⟩)
      · exact .inr ⟨hd, .inr rfl⟩
      · exact .inl hold
      · exact .inr ⟨hid, .inl hl⟩
    · rintro (hold | ⟨hid, hl | rfl⟩)
      · exact .inr (.inl hold)
      · exact .inr (.inr ⟨hid, hl⟩)
      · exact .inl rfl
  confirmed fi := by
    rw [List.mem_append, hconfirmed, h.confirmed]
    constructor
    · rintro (⟨folder, hshare⟩ | hold | ⟨g, id, folder, hg, hid, hshare⟩)
      · exact .inr ⟨f.id, d.id, folder, listedIn_append.mpr (.inr ⟨rfl, rfl⟩), hd, hshare⟩
      · exact .inl hold
      · exact .inr ⟨g, id, folder, listedIn_append.mpr (.inl hg), hid, hshare⟩
    · rintro (hold | ⟨g, id, folder, hg, hid, hshare⟩)
      · exact .inr (.inl hold)
      · rcases listedIn_append.mp hg with hg | ⟨rfl, rfl⟩
        · exact .inr (.inr ⟨g, id, folder, hg, hid, hshare⟩)
        · exact .inl ⟨folder, hshare⟩
  introduced := h.introduced
  introducedNodup := h.introducedNodup
  infos u hu := by
    rcases List.mem_append.mp hu with hu | hu
    · rcases h.infos u hu with hold | hnew | ⟨hintroducer, hid, hg⟩
      · exact .inl hold
      · exact .inr (.inl hnew)
      · exact .inr (.inr ⟨hintroducer, hid, listedIn_append.mpr (.inl hg)⟩)
    · obtain ⟨hintroducer, hf, hid⟩ := hinfos u hu
      rw [hf, hid]
      exact .inr (.inr ⟨hintroducer, hd, listedIn_append.mpr (.inr ⟨rfl, rfl⟩)⟩)
  shared hintroducer g id hg hid hnone := by
    rcases listedIn_append.mp hg with hg | ⟨rfl, rfl⟩
    · obtain ⟨u, hu, heq⟩ := h.shared hintroducer g id hg hid hnone
      exact ⟨u, List.mem_append_left _ hu, heq⟩
    · obtain ⟨u, hu, heq⟩ := hshared hintroducer hnone
      exact ⟨u, List.mem_append_right _ hu, heq⟩

theorem Second.step (h : Second env n source first done acc)
    (hc : SecondCase env n source acc f d acc') :
    Second env n source first (done ++ [(f, d)]) acc' := by
  cases hc with
  | skip hd =>
    refine h.skip ?_
    rintro ⟨hs, hn, hknown⟩
    rcases hd with hd | hd | hd
    · exact hs hd
    · exact hn hd
    · rw [hd] at hknown
      cases hknown
  | introduce hunknown hshared hnew haddresses =>
    have hd : ¬ Third n source d.id := fun hthird => by
      rw [hthird.2.2] at hunknown
      cases hunknown
    have hstep := @Second.introduce _ _ _ _ _ _ (@Second.skip _ _ _ _ _ _ f d h hd)
      ⟨d.id, addressesOf d, d.introducer, false, d.skipIntroductionRemovals, [], some source.id⟩
      hunknown hnew haddresses rfl
    refine hstep.addInfo ⟨⟨_, List.mem_append_right _ (List.mem_singleton_self _), rfl⟩, ?_⟩
    exact h.folder hshared
  | introduced hunknown hshared hold =>
    have hd : ¬ Third n source d.id := fun hthird => by
      rw [hthird.2.2] at hunknown
      cases hunknown
    exact (h.skip hd).addInfo ⟨hold, h.folder hshared⟩
  | share hs hn hknown hshare hintroducer =>
    refine @Second.third _ _ _ _ _ _ f d h ⟨hs, hn, hknown⟩ [⟨f.id, d.id, d.index⟩] [] ?_ ?_ ?_
    · intro u hu
      rw [List.mem_singleton.mp hu]
      exact ⟨hintroducer, rfl, rfl⟩
    · simp [hshare]
    · exact fun _ _ => ⟨_, List.mem_singleton_self _, rfl, rfl⟩
  | ignore hs hn hknown hshare hintroducer =>
    have hstep := @Second.third _ _ _ _ _ _ f d h ⟨hs, hn, hknown⟩ [] [] (by simp) (by simp [hshare])
      (by simp [hintroducer])
    simpa using hstep
  | confirm share hs hn hknown hshare =>
    have hstep := @Second.third _ _ _ _ _ _ f d h ⟨hs, hn, hknown⟩ [] [share.2] (by simp) ?_
      (by simp [hshare])
    · simpa using hstep
    · intro fi
      rw [List.mem_singleton, hshare]
      constructor
      · rintro rfl
        exact ⟨share.1, rfl⟩
      · rintro ⟨folder, heq⟩
        rw [Option.some.inj heq]

end Second

/-! ## Both passes -/

/-- What the constructor knows after both passes. -/
structure Walked (env : Env) (n : Network) (source : Device)
    (es : List (Proto.Folder × Proto.Device)) (acc : Acc) : Prop where
  seen : ∀ id, (n.device? id).isSome = true → (id ∈ acc.seen ↔ Listed es id)
  confirmed : ∀ fi, fi ∈ acc.confirmed ↔ ∃ f id folder, ListedIn es f id ∧ id ≠ n.self ∧
    (n.device? id).isSome = true ∧ n.share? f id = some (folder, fi)
  views : acc.views = [] ↔ ¬ Listed es source.id ∧ ¬ Listed es n.self
  reset : ∀ share ∈ acc.reset, ListedIn es share.1.id source.id ∧
    n.share? share.1.id source.id = some share
  resetNodup : acc.reset.Nodup
  folders : ∀ f, f ∈ acc.folders ↔
    source.autoAccept = true ∧ n.folderById f = none ∧ ListedIn es f source.id
  foldersNodup : acc.folders.Nodup
  offered : Offered n source es acc
  introduced : ∀ k ∈ acc.introduced, (n.device? k.id).isSome = false ∧
    k.addresses.all env.parsable = true ∧ k.origin = some source.id
  introducedNodup : (acc.introduced.map Device.id).Nodup
  infos : ∀ u ∈ acc.infos,
    (((u.device = source.id ∧ Listed es source.id) ∨ ∃ k ∈ acc.introduced, k.id = u.device) ∧
      ((n.folderById u.folderId).isSome = true ∨ u.folderId ∈ acc.folders)) ∨
    (source.introducer = true ∧ Third n source u.device ∧ ListedIn es u.folderId u.device)
  shared : source.introducer = true → ∀ f id, ListedIn es f id → Third n source id →
    n.share? f id = none → ∃ u ∈ acc.infos, u.folderId = f ∧ u.device = id

section Passes

variable {env : Env} {n : Network} {source : Device} {es : List (Proto.Folder × Proto.Device)}
  {first acc : Acc} (hsource : (n.device? source.id).isSome = true)
  (hself : (n.device? n.self).isSome = true) (hne : source.id ≠ n.self)
  (hkeys : (n.pendingFolders.map PendingFolder.key).Nodup)

include hsource hself hne hkeys in
theorem firstPass_spec (h : es.foldlM (firstPass env n source) Acc.start = .ok first) :
    Visited n source es first ∧ Confirmed n source es first ∧ Accepted n source es first ∧
      Offered n source es first := by
  have hstart : Visited n source [] Acc.start ∧ Confirmed n source [] Acc.start ∧
      Accepted n source [] Acc.start ∧ Offered n source [] Acc.start := by
    refine ⟨⟨?_, ?_, ?_⟩, ⟨?_, ?_, List.nodup_nil⟩, ⟨?_, List.nodup_nil, ?_, rfl⟩,
      ⟨?_, ?_, List.nodup_nil, fun _ => ⟨rfl, rfl⟩⟩⟩
    all_goals simp [Acc.start, Listed, ListedIn]
  have := foldlM_ok_inv (fun done acc => Visited n source done acc ∧ Confirmed n source done acc ∧
    Accepted n source done acc ∧ Offered n source done acc) ?_ hstart h
  · rwa [List.nil_append] at this
  · rintro done b a b' ⟨hv, hc, ha, ho⟩ hstep
    obtain ⟨-, hcase⟩ := firstPass_cases hsource hself hne hstep
    exact ⟨hv.step hcase, hc.step hv hcase, ha.step hv hcase, ho.step hkeys hv hcase⟩

theorem secondPass_spec (hintroduced : first.introduced = [])
    (h : es.foldlM (secondPass env n source) first = .ok acc) : Second env n source first es acc := by
  have hstart : Second env n source first [] first := by
    refine ⟨rfl, ?_, ?_, ?_, ?_, fun u hu => .inl hu, ?_⟩
    all_goals simp [hintroduced, Listed, ListedIn]
  have := foldlM_ok_inv (Second env n source first)
    (fun done b a b' hb hstep => hb.step (secondPass_cases hstep)) hstart h
  rwa [List.nil_append] at this

include hsource hself hne hkeys in
/-- **The passes.** What `walk` returns is `Walked`. -/
theorem walk_spec {message : Proto.ClusterConfig} (h : walk env n source message = .ok acc) :
    Walked env n source (entries message) acc := by
  obtain ⟨first, hfirst, hsecond⟩ := bind_ok.mp h
  obtain ⟨hv, hc, ha, ho⟩ := firstPass_spec hsource hself hne hkeys hfirst
  have hw := secondPass_spec ha.introduced hsecond
  have hviews : acc.views = first.views := by rw [hw.same]
  have hreset : acc.reset = first.reset := by rw [hw.same]
  have hfolders : acc.folders = first.folders := by rw [hw.same]
  have hshareId : ∀ {f id share}, n.share? f id = some share → share.1.id = f :=
    fun hshare => (share?_eq_some hshare).2.1
  constructor
  case seen =>
    intro id hknown
    rw [hw.seen id hknown, hv.seen]
    exact ⟨fun hor => hor.elim And.right And.right, fun hl => .inl ⟨hknown, hl⟩⟩
  case confirmed =>
    intro fi
    rw [hw.confirmed, hc.confirmed]
    constructor
    · rintro (⟨f, folder, hf, hshare⟩ | ⟨f, id, folder, hf, ⟨-, hn, hknown⟩, hshare⟩)
      · exact ⟨f, source.id, folder, hf, hne, hsource, hshare⟩
      · exact ⟨f, id, folder, hf, hn, hknown, hshare⟩
    · rintro ⟨f, id, folder, hf, hn, hknown, hshare⟩
      by_cases hid : id = source.id
      · exact .inl ⟨f, folder, hid ▸ hf, hid ▸ hshare⟩
      · exact .inr ⟨f, id, folder, hf, ⟨hid, hn, hknown⟩, hshare⟩
  case views =>
    rw [hviews]
    exact hv.views
  case reset =>
    rw [hreset]
    intro share hmem
    obtain ⟨f, hf, hshare⟩ := hc.reset share hmem
    rw [hshareId hshare]
    exact ⟨hf, hshare⟩
  case resetNodup =>
    rw [hreset]
    exact hc.resetNodup
  case folders =>
    rw [hfolders]
    exact ha.folders
  case foldersNodup =>
    rw [hfolders]
    exact ha.foldersNodup
  case offered =>
    refine ho.mono (fun _ hg => hg) (fun hl => hl) ?_ ?_ ?_
    all_goals rw [hw.same]
  case introduced => exact hw.introduced
  case introducedNodup => exact hw.introducedNodup
  case infos =>
    intro u hu
    rw [hfolders]
    rcases hw.infos u hu with hold | hnew | hthird
    · obtain ⟨hdevice, hl, hfolder⟩ := ha.infos u hold
      exact .inl ⟨.inl ⟨hdevice, hl⟩, hfolder⟩
    · exact .inl ⟨.inr hnew.1, hnew.2⟩
    · exact .inr hthird
  case shared => exact hw.shared

end Passes

/-! ## The changes of the chain -/

section Chain

variable {env : Env} {n : Network} {source : Device} {acc : Acc} {c : Change}

theorem mem_resetFolderInfos {shares : List Share} (hc : c ∈ n.resetFolderInfos shares) :
    ∃ share ∈ shares, c = n.removeFilesOf share := by
  obtain ⟨share, hshare, rfl⟩ := List.mem_map.mp hc
  exact ⟨share, (List.mem_filter.mp hshare).1, rfl⟩

theorem mem_removeOrphans {shares : List Share} (hc : c ∈ n.removeOrphans shares) :
    c = .removeBlocks (UpdateFolder.deduce n.toStore (n.recorded shares) []) := by
  unfold removeOrphans at hc
  split at hc
  · cases hc
  · exact List.mem_singleton.mp hc

theorem mem_removePending {keys : List (Uuid × Sha256)} (hc : c ∈ removePending keys) :
    c = .removePendingFolders keys := by
  unfold removePending at hc
  split at hc
  · cases hc
  · exact List.mem_singleton.mp hc

theorem mem_introducePeer {device : Device} (hc : c ∈ n.introducePeer device) :
    c = .removePendingDevice device.id ∨ c = .removeIgnoredDevice device.id ∨ c = .updatePeer device := by
  unfold introducePeer at hc
  rcases List.mem_append.mp hc with hc | hc
  · rcases List.mem_append.mp hc with hc | hc
    · split at hc
      · exact .inl (List.mem_singleton.mp hc)
      · cases hc
    · split at hc
      · exact .inr (.inl (List.mem_singleton.mp hc))
      · cases hc
  · exact .inr (.inr (List.mem_singleton.mp hc))

/-- The keys of shares. -/
def keysOf (n : Network) (shares : List Share) : List (Uuid × Sha256) :=
  shares.map fun share => (share.1.uuid, (n.infos share.2).device)

theorem mem_removeFolderInfos {shares : List Share} (hc : c ∈ n.removeFolderInfos shares) :
    (∃ share ∈ shares, c = n.removeFilesOf share) ∨ c = .removeFolderInfos (keysOf n shares) := by
  rcases List.mem_append.mp hc with hc | hc
  · exact .inl (mem_resetFolderInfos hc)
  · exact .inr (List.mem_singleton.mp hc)

theorem mem_upsertFolders (hc : c ∈ upsertFolders env n acc) :
    ∃ uuid id index, id ∈ acc.folders ∧
      (c = .upsertFolder uuid id ∨ c = .upsertFolderInfo uuid n.self n.self id index) := by
  obtain ⟨p, hp, hc⟩ := List.mem_flatMap.mp hc
  have hid : p.1 ∈ acc.folders := List.fst_mem_of_mem_zipIdx hp
  rcases List.mem_cons.mp hc with rfl | hc
  · exact ⟨_, _, 0, hid, .inl rfl⟩
  · exact ⟨_, _, _, hid, .inr (List.mem_singleton.mp hc)⟩

/-- What `remove_peer_t` consists of. -/
theorem mem_removePeer {peer : Sha256} (hc : c ∈ n.removePeer peer) :
    c = .removePendingFolders (n.pendingOf peer) ∨
      (∃ share ∈ n.sharesOf peer, c = n.removeFilesOf share ∨ c = .removeFolderInfos (keysOf n [share])) ∨
      c = .removeBlocks (UpdateFolder.deduce n.toStore (n.recorded (n.sharesOf peer)) []) ∨
      c = .removePeer peer := by
  unfold Network.removePeer at hc
  simp only [List.mem_append, List.mem_singleton, List.mem_flatMap] at hc
  rcases hc with ((hc | ⟨share, hshare, hc⟩) | hc) | hc
  · exact .inl (mem_removePending hc)
  · rcases mem_removeFolderInfos hc with ⟨share', hshare', hc⟩ | hc
    · rw [List.mem_singleton.mp hshare'] at hc
      exact .inr (.inl ⟨share, hshare, .inl hc⟩)
    · exact .inr (.inl ⟨share, hshare, .inr hc⟩)
  · exact .inr (.inr (.inl (mem_removeOrphans hc)))
  · exact .inr (.inr (.inr hc))

/-- What the chain adds. -/
theorem mem_additions (hc : c ∈ additions env n source acc) :
    (∃ share ∈ unconfirmedShares n source acc, c = reshare n share) ∨
      c = .addPendingFolders acc.newPending ∨ c = .updateRemoteViews source.id acc.views ∨
      (∃ k ∈ acc.introduced, c ∈ n.introducePeer k) ∨
      ∃ u ∈ acc.infos, ∃ uuid, c = .upsertFolderInfo uuid u.device source.id u.folderId u.index := by
  unfold additions at hc
  simp only [List.mem_append, or_assoc] at hc
  rcases hc with hc | hc | hc | hc | hc
  · obtain ⟨share, hshare, rfl⟩ := List.mem_map.mp hc
    exact .inl ⟨share, hshare, rfl⟩
  · split at hc
    · cases hc
    · exact .inr (.inl (List.mem_singleton.mp hc))
  · split at hc
    · cases hc
    · exact .inr (.inr (.inl (List.mem_singleton.mp hc)))
  · obtain ⟨k, hk, hc⟩ := List.mem_flatMap.mp hc
    exact .inr (.inr (.inr (.inl ⟨k, hk, hc⟩)))
  · obtain ⟨p, hp, rfl⟩ := List.mem_map.mp hc
    exact .inr (.inr (.inr (.inr ⟨p.1, List.fst_mem_of_mem_zipIdx hp, _, rfl⟩)))

/-- What the chain removes. -/
theorem mem_removals {r : Removed} (hc : c ∈ removals n source acc r) :
    (∃ share, c = n.removeFilesOf share) ∨ (∃ peer ∈ r.devices, c ∈ n.removePeer peer) ∨
      (r.shares ≠ [] ∧ c = .removeFolderInfos (keysOf n r.shares)) ∨ (∃ hashes, c = .removeBlocks hashes) ∨
      ∃ keys, c = .removePendingFolders keys := by
  unfold removals at hc
  simp only [List.mem_append, List.mem_flatMap] at hc
  rcases hc with (((hc | hc) | hc) | hc) | hc
  · obtain ⟨share, -, rfl⟩ := mem_resetFolderInfos hc
    exact .inl ⟨share, rfl⟩
  · exact .inr (.inl hc)
  · split at hc
    · cases hc
    · rename_i hne
      rcases mem_removeFolderInfos hc with ⟨share, -, rfl⟩ | rfl
      · exact .inl ⟨share, rfl⟩
      · exact .inr (.inr (.inl ⟨hne, rfl⟩))
  · exact .inr (.inr (.inr (.inl ⟨_, mem_removeOrphans hc⟩)))
  · exact .inr (.inr (.inr (.inr ⟨_, mem_removePending hc⟩)))

end Chain

end ClusterUpdate

end SyncSpirit
