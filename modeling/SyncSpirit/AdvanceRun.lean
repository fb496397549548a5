import SyncSpirit.AdvanceSpec
import SyncSpirit.IndexMessage
import SyncSpirit.Lib.Keyed
import SyncSpirit.Lib.Run

/-!
# Advances do not disturb other files

The actors build diffs in one state and push them; the model applies them later, in any
order. A `State` is the cluster with the diffs that are on their way.

A diff *claims* the keys it may add to a map of the local device: its uuid and its name,
unless a file of the name is there already. `Ordered` says that the maps are in order and
that nobody else has a claimed uuid. A uuid of the sequencer is new (`Fresh`); the one of
the copy in a `remote_win_t` is not assigned, and `Careful` says when this does no harm.

- `Ordered.step`: what every event keeps;
- `undisturbed_of_careful`: the run theorem;
- `lost_by_two_wins`: two conflicts in one folder, and a file is gone.
-/

namespace SyncSpirit

namespace AdvanceRun

open Store Advance

/-! ## States and events -/

/-- A diff that is on its way. -/
inductive Pending where
  | updateFolder (d : UpdateFolder.Diff)
  | advance (d : Tree)

/-- The cluster and the diffs that have not been applied yet. -/
structure State extends Cluster where
  pending : List Pending

/-- What happens.

- `receive`: an index message of a peer;
- `scan`: a change on the disk;
- `advance`: a file of a peer has been fetched. The actor may refer to an object that is in
  no map any more;
- `apply`: the model takes one of the diffs;
- `destroy`: the last reference to an object that is in no map is gone. -/
inductive Event where
  | receive (nextUuid : Nat → Uuid) (source : Sha256) (message : Proto.IndexBase)
  | scan (env : Env) (found : Proto.FileInfo) (folderId : String) (disableBlocksRemoval : Bool)
  | advance (env : Env) (action : Action) (source : FileId) (sourceFi : FolderInfoId)
  | apply (i : Nat) (suspended : Bool)
  | destroy (f : FileId)

/-- The file is in a map of the cluster. -/
def State.isListed (st : State) (f : FileId) : Bool :=
  st.folders.any fun folder => folder.infos.any fun fi => f ∈ (st.infos fi).files

def State.push (st : State) (p : Pending) : State := { st with pending := st.pending ++ [p] }

/-- A diff has been applied. -/
def State.done (st : State) (i : Nat) (s : Store) : State :=
  { st with toStore := s, pending := st.pending.eraseIdx i }

/-- One event. -/
def step (host : Host) (st : State) : Event → Option State
  | .receive nextUuid source message =>
    if source = host.self then none
    else match UpdateFolder.create st.toCluster nextUuid source message with
      | .ok d => some (st.push (.updateFolder d))
      | .error .assertion => none
      | .error _ => some st
  | .scan env found folderId disableBlocksRemoval =>
    (localUpdate host env st.toCluster found folderId disableBlocksRemoval).map fun d =>
      st.push (.advance (.single d))
  | .advance env action source sourceFi =>
    (Advance.create host env st.toCluster action source sourceFi).map fun d => st.push (.advance d)
  | .apply i suspended =>
    match st.pending[i]? with
    | none => none
    | some (.updateFolder d) => (UpdateFolder.apply st.toCluster d).map (st.done i)
    | some (.advance d) => (d.apply host st.toCluster suspended).map (st.done i)
  | .destroy f => if st.isListed f then none else some { st with toStore := st.destroy f }

/-! ## Claims -/

/-- The name and the uuid of the file a diff makes. -/
def key (d : Advance.Diff) : Uuid × String := (d.uuid, d.protoLocal.name)

def folderIdOf : Tree → String
  | .single d => d.folderId
  | .remoteWin rename _ => rename.folderId

/-- The files a diff is about. -/
def namesOf : Tree → List String
  | .single d => [d.protoLocal.name]
  | .remoteWin rename copy => [rename.protoLocal.name, copy.protoLocal.name]

/-- The keys that the diff may add to the map of a folder info of the local device. -/
def claimsOf (host : Host) (c : Cluster) (fi : FolderInfoId) : Pending → List (Uuid × String)
  | .updateFolder _ => []
  | .advance (.single d) =>
    if localInfo host c d.folderId = some fi ∧ (c.byName fi d.protoLocal.name).isNone then [key d]
    else []
  | .advance (.remoteWin rename copy) =>
    -- the original is taken out first, so its name is free
    if localInfo host c rename.folderId = some fi then [key rename, key copy] else []

/-- The keys that are claimed by some diff. -/
def State.claims (host : Host) (st : State) (fi : FolderInfoId) : List (Uuid × String) :=
  st.pending.flatMap (claimsOf host st.toCluster fi)

/-- The uuids that are in use in a folder info, or will be. -/
def State.usedUuids (host : Host) (st : State) (fi : FolderInfoId) : List Uuid :=
  (st.infos fi).files.map (fun f => (st.files f).uuid) ++ (st.claims host fi).map Prod.fst

/-- The uuids that the sequencer hands out are new. -/
def Fresh (host : Host) (st : State) : Event → Prop
  | .scan env _ _ _ | .advance env _ _ _ =>
    ∀ n ∈ [0, 1], ∀ folder ∈ st.folders, ∀ fi ∈ folder.infos, env.nextUuid n ∉ st.usedUuids host fi
  | .receive _ _ _ | .apply _ _ | .destroy _ => True

/-- The unassigned uuid of a `remote_win_t` is not that of another file, and no diff claims
it for another file. -/
def Careful (host : Host) (st : State) : Event → Prop
  | .advance env .resolveRemoteWin source sourceFi =>
    env.unset ≠ env.nextUuid 0 ∧ ∀ folder ∈ st.folders.find? fun folder => sourceFi ∈ folder.infos,
      ∀ fi ∈ localInfo host st.toCluster folder.id,
        (∀ g ∈ (st.infos fi).files, (st.files g).uuid = env.unset →
          (st.files g).name = (st.files source).name) ∧
        ∀ k ∈ st.claims host fi, k.1 = env.unset → k.2 = (st.files source).name
  | _ => True

instance (host : Host) (st : State) : ∀ e, Decidable (Fresh host st e)
  | .scan env _ _ _ | .advance env _ _ _ => inferInstanceAs (Decidable (∀ n ∈ [0, 1],
      ∀ folder ∈ st.folders, ∀ fi ∈ folder.infos, env.nextUuid n ∉ st.usedUuids host fi))
  | .receive _ _ _ | .apply _ _ | .destroy _ => inferInstanceAs (Decidable True)

instance (host : Host) (st : State) : ∀ e, Decidable (Careful host st e)
  | .advance env .resolveRemoteWin source _ =>
    inferInstanceAs (Decidable (_ ∧ ∀ folder ∈ st.folders.find? _, ∀ fi ∈ localInfo _ _ _,
      (∀ g ∈ (st.infos fi).files, (st.files g).uuid = env.unset →
        (st.files g).name = (st.files source).name) ∧
      ∀ k ∈ st.claims host fi, k.1 = env.unset → k.2 = (st.files source).name))
  | .advance _ .remoteCopy _ _ | .advance _ .localUpdate _ _ | .receive _ _ _ | .scan _ _ _ _
  | .apply _ _ | .destroy _ => inferInstanceAs (Decidable True)

/-! ## The maps -/

/-- Every object belongs to one map at most. -/
structure Separate (s : Store) : Prop where
  allocated : ∀ fi, ∀ f ∈ (s.infos fi).files, f < s.nextFile
  disjoint : ∀ fi fi', ∀ f ∈ (s.infos fi).files, f ∈ (s.infos fi').files → fi = fi'

/-- The other maps are the same, and the files in them are. -/
structure SameElsewhere (fi : FolderInfoId) (s t : Store) : Prop where
  nextFile : s.nextFile ≤ t.nextFile
  device : (t.infos fi).device = (s.infos fi).device
  infos : ∀ fi', fi' ≠ fi → t.infos fi' = s.infos fi'
  files : ∀ fi', fi' ≠ fi → ∀ f ∈ (s.infos fi').files, t.files f = s.files f

namespace SameElsewhere

variable {fi fi' : FolderInfoId} {s t u : Store}

theorem refl (fi : FolderInfoId) (s : Store) : SameElsewhere fi s s :=
  ⟨Nat.le_refl _, rfl, fun _ _ => rfl, fun _ _ _ _ => rfl⟩

theorem trans (h : SameElsewhere fi s t) (h' : SameElsewhere fi t u) : SameElsewhere fi s u where
  nextFile := Nat.le_trans h.nextFile h'.nextFile
  device := h'.device.trans h.device
  infos fi' hfi := (h'.infos fi' hfi).trans (h.infos fi' hfi)
  files fi' hfi f hf := (h'.files fi' hfi f (h.infos fi' hfi ▸ hf)).trans (h.files fi' hfi f hf)

theorem device_eq (h : SameElsewhere fi s t) (fi' : FolderInfoId) :
    (t.infos fi').device = (s.infos fi').device := by
  by_cases hfi : fi' = fi
  · rw [hfi, h.device]
  · rw [h.infos fi' hfi]

theorem byName (h : SameElsewhere fi s t) (hfi : fi' ≠ fi) (name : String) :
    t.byName fi' name = s.byName fi' name := by
  unfold Store.byName
  rw [h.infos fi' hfi]
  refine List.find?_congr fun f hf => ?_
  rw [h.files fi' hfi f hf]

theorem of_sameMaps (h : SameMaps s t) (fi : FolderInfoId) : SameElsewhere fi s t :=
  ⟨Nat.le_of_eq h.nextFile.symm, by rw [h.infos], fun _ _ => by rw [h.infos],
    fun _ _ _ _ => by rw [h.files]⟩

end SameElsewhere

section Maps

variable {fi : FolderInfoId} {s t u : Store}

/-- **One file** is added to a map or changed in it. -/
theorem Separate.of_touches (h : Separate s)
    (ht : Touches fi {g | g = s.nextFile ∨ g ∈ (s.infos fi).files} s t)
    (hnext : t.nextFile = s.nextFile + 1) : Separate t ∧ SameElsewhere fi s t := by
  have hlisted : ∀ f ∈ (t.infos fi).files, f = s.nextFile ∨ f ∈ (s.infos fi).files := by
    intro f hf
    rcases ht.listed f hf with hf | hf
    · exact .inr hf
    · exact hf
  -- a file of another map is not touched
  have hother : ∀ fi', fi' ≠ fi → ∀ f ∈ (s.infos fi').files,
      ¬ (f = s.nextFile ∨ f ∈ (s.infos fi).files) := by
    rintro fi' hfi f hf (rfl | hf')
    · exact Nat.lt_irrefl _ (h.allocated fi' _ hf)
    · exact hfi (h.disjoint fi' fi f hf hf')
  refine ⟨⟨fun fi' f hf => ?_, fun fi₁ fi₂ f h₁ h₂ => ?_⟩, hnext ▸ Nat.le_succ _, ht.device, ht.infos,
    fun fi' hfi f hf => ht.files f (hother fi' hfi f hf)⟩
  · rw [hnext]
    by_cases hfi : fi' = fi
    · subst hfi
      rcases hlisted f hf with rfl | hf
      · exact Nat.lt_succ_self _
      · exact Nat.lt_succ_of_lt (h.allocated _ f hf)
    · rw [ht.infos fi' hfi] at hf
      exact Nat.lt_succ_of_lt (h.allocated fi' f hf)
  · by_cases hfi₁ : fi₁ = fi <;> by_cases hfi₂ : fi₂ = fi
    · rw [hfi₁, hfi₂]
    · subst hfi₁
      rw [ht.infos fi₂ hfi₂] at h₂
      exact absurd (hlisted f h₁) (hother fi₂ hfi₂ f h₂)
    · subst hfi₂
      rw [ht.infos fi₁ hfi₁] at h₁
      exact absurd (hlisted f h₂) (hother fi₁ hfi₁ f h₁)
    · rw [ht.infos fi₁ hfi₁] at h₁
      rw [ht.infos fi₂ hfi₂] at h₂
      exact h.disjoint fi₁ fi₂ f h₁ h₂

theorem Separate.remove (h : Separate s) (fi : FolderInfoId) (f : FileId) :
    Separate (s.remove fi f) ∧ SameElsewhere fi s (s.remove fi f) := by
  have htouches := Touches.remove s fi ∅ f
  have hsub : ∀ fi', ∀ g ∈ ((s.remove fi f).infos fi').files, g ∈ (s.infos fi').files := by
    intro fi' g hg
    by_cases hfi : fi' = fi
    · subst hfi
      exact (htouches.listed g hg).resolve_right (Set.notMem_empty g)
    · rwa [htouches.infos fi' hfi] at hg
  refine ⟨⟨fun fi' g hg => h.allocated fi' g (hsub fi' g hg), fun fi₁ fi₂ g h₁ h₂ => ?_⟩,
    Nat.le_refl _, htouches.device, htouches.infos, fun _ _ _ _ => rfl⟩
  exact h.disjoint fi₁ fi₂ g (hsub fi₁ g h₁) (hsub fi₂ g h₂)

theorem Separate.of_sameMaps (h : Separate s) (hsame : SameMaps s t) : Separate t := by
  refine ⟨fun fi f hf => ?_, ?_⟩
  · rw [hsame.nextFile]
    exact h.allocated fi f (hsame.infos ▸ hf)
  · rw [hsame.infos]
    exact h.disjoint

/-- **An index message** touches the map of the peer. -/
theorem Separate.applyFiles {ps : List (Uuid × Proto.FileInfo)} :
    ∀ {s t : Store}, Separate s → UpdateFolder.applyFiles fi s ps = some t →
      Separate t ∧ SameElsewhere fi s t := by
  induction ps with
  | nil =>
    rintro s t h ⟨⟩
    exact ⟨h, SameElsewhere.refl fi s⟩
  | cons p ps ih =>
    intro s t h ht
    obtain ⟨u, hu, ht⟩ := Option.bind_eq_some_iff.mp ht
    obtain ⟨htouches, hnext⟩ := touches_applyFile hu
    obtain ⟨hsep, helse⟩ := h.of_touches htouches hnext
    obtain ⟨hsep', helse'⟩ := ih hsep ht
    exact ⟨hsep', helse.trans helse'⟩

/-! ## One map of the local device -/

/-- The map is in order, and nobody else has a claimed uuid. -/
structure Safe (fi : FolderInfoId) (ks : List (Uuid × String)) (s : Store) : Prop where
  infoWF : s.InfoWF fi
  claimed : ∀ k ∈ ks, ∀ g ∈ (s.infos fi).files, (s.files g).uuid = k.1 → (s.files g).name = k.2

/-- Claims of one uuid are for one name. -/
def Agree (ks : List (Uuid × String)) : Prop := ∀ k ∈ ks, ∀ k' ∈ ks, k.1 = k'.1 → k.2 = k'.2

/-- Only the files with the given names have been changed. -/
structure Undisturbed (fi : FolderInfoId) (names : List String) (s t : Store) : Prop where
  kept : ∀ f ∈ (s.infos fi).files, (s.files f).name ∉ names →
    f ∈ (t.infos fi).files ∧ t.files f = s.files f
  only : ∀ f ∈ (t.infos fi).files, (t.files f).name ∉ names →
    f ∈ (s.infos fi).files ∧ t.files f = s.files f

theorem Undisturbed.refl (fi : FolderInfoId) (names : List String) (s : Store) :
    Undisturbed fi names s s := ⟨fun _ hf _ => ⟨hf, rfl⟩, fun _ hf _ => ⟨hf, rfl⟩⟩

theorem Undisturbed.trans {names : List String} (h : Undisturbed fi names s t)
    (h' : Undisturbed fi names t u) : Undisturbed fi names s u := by
  constructor
  · intro f hf hname
    obtain ⟨hmem, heq⟩ := h.kept f hf hname
    obtain ⟨hmem', heq'⟩ := h'.kept f hmem (heq ▸ hname)
    exact ⟨hmem', heq'.trans heq⟩
  · intro f hf hname
    obtain ⟨hmem, heq⟩ := h'.only f hf hname
    obtain ⟨hmem', heq'⟩ := h.only f hmem (heq ▸ hname)
    exact ⟨hmem', heq.trans heq'⟩

theorem Undisturbed.mono {names names' : List String} (h : Undisturbed fi names s t)
    (hsub : ∀ n ∈ names, n ∈ names') : Undisturbed fi names' s t :=
  ⟨fun f hf hname => h.kept f hf fun hn => hname (hsub _ hn),
    fun f hf hname => h.only f hf fun hn => hname (hsub _ hn)⟩

/-- **Take out** a file: no other one is concerned. -/
theorem Safe.remove {ks : List (Uuid × String)} (h : Safe fi ks s) {f : FileId} {name : String}
    (hf : s.byName fi name = some f) :
    Safe fi ks (s.remove fi f) ∧ Undisturbed fi [name] s (s.remove fi f) ∧
      ∀ g, g ∈ ((s.remove fi f).infos fi).files ↔ g ∈ (s.infos fi).files ∧ g ≠ f := by
  obtain ⟨hmem, hname⟩ := (byName_eq_some h.infoWF).mp hf
  have heq := files_remove h.infoWF hmem
  have hlisted : ∀ g, g ∈ ((s.remove fi f).infos fi).files ↔ g ∈ (s.infos fi).files ∧ g ≠ f := by
    intro g
    rw [heq]
    simp
  have hinfo : ((s.remove fi f).infos fi).maxSequence = (s.infos fi).maxSequence := by
    rw [heq]
    simp
  refine ⟨⟨⟨fun g hg => ?_, ?_, fun g hg g' hg' => ?_, fun g hg => ?_⟩, fun k hk g hg => ?_⟩,
    ⟨fun g hg hne => ?_, fun g hg _ => ?_⟩, hlisted⟩
  · exact h.infoWF.allocated g ((hlisted g).mp hg).1
  · rw [heq]
    show (Function.update s.infos fi _ fi).files.Nodup
    rw [Function.update_self]
    exact h.infoWF.nodup.filter _
  · exact h.infoWF.keys g ((hlisted g).mp hg).1 g' ((hlisted g').mp hg').1
  · rw [hinfo]
    exact h.infoWF.bound g ((hlisted g).mp hg).1
  · exact h.claimed k hk g ((hlisted g).mp hg).1
  · refine ⟨(hlisted g).mpr ⟨hg, ?_⟩, rfl⟩
    rintro rfl
    exact hne (List.mem_singleton.mpr hname)
  · exact ⟨((hlisted g).mp hg).1, rfl⟩

/-- **Advance** a file that is known, or whose key is claimed. -/
theorem Safe.applyImpl {ks : List (Uuid × String)} (h : Safe fi ks s) (hagree : Agree ks) {d : Advance.Diff}
    (hkey : key d ∈ ks ∨ (s.byName fi d.protoLocal.name).isSome)
    (ht : d.applyImpl fi s = some t) :
    Safe fi ks t ∧ Undisturbed fi [d.protoLocal.name] s t ∧
      (t.byName fi d.protoLocal.name).isSome ∧ ∃ g, Placed fi s d.uuid d.protoLocal.name t g := by
  have hclaim : s.byName fi d.protoLocal.name = none → key d ∈ ks := by
    intro hnone
    rw [hnone] at hkey
    simpa using hkey
  -- a file with the claimed uuid would have the name
  obtain ⟨g, hp⟩ := applyImpl_spec h.infoWF (fun hnone g hg huuid =>
    byName_eq_none.mp hnone g hg (h.claimed _ (hclaim hnone) g hg huuid)) ht
  have hwf := hp.infoWF h.infoWF
  have hold : ∀ f ∈ (s.infos fi).files, f ≠ g → t.files f = s.files f := fun f hf hne =>
    hp.files f hne (Nat.ne_of_lt (h.infoWF.allocated f hf))
  refine ⟨⟨hwf, fun k hk f hf huuid => ?_⟩, ⟨fun f hf hname => ?_, fun f hf hname => ?_⟩, ?_, g, hp⟩
  · rcases (hp.mem_infos f).mp hf with ⟨hf, hne⟩ | rfl
    · rw [hold f hf hne] at huuid ⊢
      exact h.claimed k hk f hf huuid
    · rw [hp.name]
      rcases hp.origin with ⟨hf, hname, heq⟩ | ⟨-, hnone, heq⟩
      · rw [← hname]
        exact h.claimed k hk f hf (heq ▸ huuid)
      · exact hagree _ (hclaim hnone) k hk (heq.symm.trans huuid)
  · have hne : f ≠ g := by
      rintro rfl
      rcases hp.origin with ⟨-, heq, -⟩ | ⟨heq, -⟩
      · exact hname (List.mem_singleton.mpr heq)
      · exact Nat.ne_of_lt (h.infoWF.allocated f hf) heq
    exact ⟨(hp.mem_infos f).mpr (.inl ⟨hf, hne⟩), hold f hf hne⟩
  · rcases (hp.mem_infos f).mp hf with ⟨hf, hne⟩ | rfl
    · exact ⟨hf, hold f hf hne⟩
    · exact absurd (List.mem_singleton.mpr hp.name) hname
  · rw [(byName_eq_some hwf).mpr ⟨(hp.mem_infos g).mpr (.inr rfl), hp.name⟩]
    rfl

theorem Safe.of_elsewhere {fi' : FolderInfoId} {ks : List (Uuid × String)} (h : Safe fi' ks s)
    (helse : SameElsewhere fi s t) (hfi : fi' ≠ fi) : Safe fi' ks t := by
  have hinfo := helse.infos fi' hfi
  have hfiles := helse.files fi' hfi
  refine ⟨h.infoWF.of_eq hinfo helse.nextFile hfiles, fun k hk g hg huuid => ?_⟩
  rw [hinfo] at hg
  rw [hfiles g hg] at huuid ⊢
  exact h.claimed k hk g hg huuid

theorem Undisturbed.of_elsewhere {fi' : FolderInfoId} (helse : SameElsewhere fi s t) (hfi : fi' ≠ fi)
    (names : List String) : Undisturbed fi' names s t := by
  have hinfo := helse.infos fi' hfi
  have hfiles := helse.files fi' hfi
  constructor
  · exact fun f hf _ => ⟨hinfo ▸ hf, hfiles f hf⟩
  · intro f hf _
    rw [hinfo] at hf
    exact ⟨hf, hfiles f hf⟩

/-- A name that is known stays known, if those that are changed are. -/
theorem Undisturbed.isSome_byName {names : List String} (h : Undisturbed fi names s t)
    (hs : s.InfoWF fi) (ht : t.InfoWF fi) (hnames : ∀ n ∈ names, (t.byName fi n).isSome)
    {name : String} (hname : (s.byName fi name).isSome) : (t.byName fi name).isSome := by
  by_cases hn : name ∈ names
  · exact hnames name hn
  · obtain ⟨f, hf⟩ := Option.isSome_iff_exists.mp hname
    obtain ⟨hmem, rfl⟩ := (byName_eq_some hs).mp hf
    obtain ⟨hmem', heq⟩ := h.kept f hmem hn
    rw [(byName_eq_some ht).mpr ⟨hmem', by rw [heq]⟩]
    rfl

end Maps

/-! ## The invariant -/

/-- The two halves of a `remote_win_t` are about one file of one folder. -/
structure Paired (rename copy : Advance.Diff) : Prop where
  folderId : copy.folderId = rename.folderId
  peerId : copy.peerId = rename.peerId
  renamed : rename.action ≠ .localUpdate
  copied : copy.action ≠ .localUpdate
  name : copy.protoLocal.name = rename.protoSource.name

/-- A folder info of the local device. -/
def State.IsLocal (host : Host) (st : State) (fi : FolderInfoId) : Prop :=
  (st.infos fi).device = host.self ∧ ∃ folder ∈ st.folders, fi ∈ folder.infos

/-- **The invariant**: the maps of the local device are in order, and nobody else has a
claimed uuid. -/
structure Ordered (host : Host) (st : State) : Prop where
  separate : Separate st.toStore
  safe : ∀ fi, st.IsLocal host fi → Safe fi (st.claims host fi) st.toStore
  agree : ∀ fi, st.IsLocal host fi → Agree (st.claims host fi)
  peers : ∀ d, Pending.updateFolder d ∈ st.pending → d.peerId ≠ host.self
  paired : ∀ rename copy, Pending.advance (.remoteWin rename copy) ∈ st.pending → Paired rename copy

section Lookup

variable {host : Host} {c : Cluster} {t : Store}

theorem localInfo_eq_some {folderId : String} {fi : FolderInfoId}
    (h : localInfo host c folderId = some fi) :
    (c.infos fi).device = host.self ∧ ∃ folder ∈ c.folders, fi ∈ folder.infos := by
  obtain ⟨folder, hfolder, h⟩ := Option.bind_eq_some_iff.mp h
  refine ⟨by simpa using List.find?_some h, folder, List.mem_of_find?_eq_some hfolder, ?_⟩
  exact List.mem_of_find?_eq_some h

theorem byDeviceId_congr (hdevice : ∀ fi, (t.infos fi).device = (c.infos fi).device) (folder : Folder)
    (device : Sha256) :
    Cluster.byDeviceId { c with toStore := t } folder device = c.byDeviceId folder device := by
  unfold Cluster.byDeviceId
  simp only [hdevice]

theorem localInfo_congr (hdevice : ∀ fi, (t.infos fi).device = (c.infos fi).device)
    (folderId : String) :
    localInfo host { c with toStore := t } folderId = localInfo host c folderId := by
  unfold localInfo
  simp only [byDeviceId_congr hdevice]
  rfl

theorem isIgnored_congr (hdevice : ∀ fi, (t.infos fi).device = (c.infos fi).device) (suspended : Bool)
    (d : Advance.Diff) : d.isIgnored { c with toStore := t } suspended = d.isIgnored c suspended := by
  unfold Advance.Diff.isIgnored
  simp only [byDeviceId_congr hdevice]
  rfl

theorem Paired.isIgnored {rename copy : Advance.Diff} (h : Paired rename copy) (c : Cluster)
    (suspended : Bool) : copy.isIgnored c suspended = rename.isIgnored c suspended := by
  unfold Advance.Diff.isIgnored
  rw [h.folderId, h.peerId]
  simp [h.renamed, h.copied]

/-- With the same folder infos and more known names there are fewer claims. -/
theorem claimsOf_subset (hdevice : ∀ fi, (t.infos fi).device = (c.infos fi).device) {fi : FolderInfoId}
    (hknown : ∀ name, (c.byName fi name).isSome → (t.byName fi name).isSome) (p : Pending) :
    claimsOf host { c with toStore := t } fi p ⊆ claimsOf host c fi p := by
  intro k hk
  cases p with
  | updateFolder d => exact hk
  | advance d =>
    cases d with
    | single d =>
      simp only [claimsOf, localInfo_congr hdevice] at hk ⊢
      split at hk
      · rename_i hcond
        rw [if_pos]
        · exact hk
        · refine ⟨hcond.1, ?_⟩
          cases hname : c.byName fi d.protoLocal.name with
          | none => rfl
          | some f =>
            have hnone : (t.byName fi d.protoLocal.name).isNone = true := hcond.2
            have hsome := hknown d.protoLocal.name (by rw [hname]; rfl)
            cases hb : t.byName fi d.protoLocal.name with
            | none => simp [hb] at hsome
            | some g => simp [hb] at hnone
      · cases hk
    | remoteWin rename copy =>
      simp only [claimsOf, localInfo_congr hdevice] at hk ⊢
      exact hk

end Lookup

section Steps

variable {host : Host} {st : State} {t : Store}

theorem mem_claims {fi : FolderInfoId} {k : Uuid × String} :
    k ∈ st.claims host fi ↔ ∃ p ∈ st.pending, k ∈ claimsOf host st.toCluster fi p := by
  unfold State.claims
  exact List.mem_flatMap

/-- **The store has been changed**, and some diffs are done. -/
theorem Ordered.replace (h : Ordered host st) {ps : List Pending} (hps : ps ⊆ st.pending)
    (hsep : Separate t) (hdevice : ∀ fi, (t.infos fi).device = (st.infos fi).device)
    (hsafe : ∀ fi, st.IsLocal host fi → Safe fi (st.claims host fi) t)
    (hknown : ∀ fi, st.IsLocal host fi →
      ∀ name, (st.byName fi name).isSome → (t.byName fi name).isSome) :
    Ordered host { st with toStore := t, pending := ps } := by
  have hlocal : ∀ fi, State.IsLocal host { st with toStore := t, pending := ps } fi →
      st.IsLocal host fi := fun fi hfi => ⟨(hdevice fi).symm.trans hfi.1, hfi.2⟩
  have hsub : ∀ fi, st.IsLocal host fi →
      ∀ k ∈ State.claims host { st with toStore := t, pending := ps } fi, k ∈ st.claims host fi := by
    intro fi hfi k hk
    obtain ⟨p, hp, hk⟩ := mem_claims.mp hk
    exact mem_claims.mpr ⟨p, hps hp, claimsOf_subset hdevice (hknown fi hfi) p hk⟩
  refine ⟨hsep, fun fi hfi => ?_, fun fi hfi => ?_, fun d hd => ?_, fun rename copy hp => ?_⟩
  · have hfi' := hsafe fi (hlocal fi hfi)
    exact ⟨hfi'.infoWF, fun k hk => hfi'.claimed k (hsub fi (hlocal fi hfi) k hk)⟩
  · have hfi' := hlocal fi hfi
    exact fun k hk k' hk' => h.agree fi hfi' k (hsub fi hfi' k hk) k' (hsub fi hfi' k' hk')
  · exact h.peers d (hps hd)
  · exact h.paired rename copy (hps hp)

/-- **A diff has been built**: what it claims is not used by anybody else. -/
theorem Ordered.push (h : Ordered host st) {p : Pending}
    (hpeers : ∀ d, p = .updateFolder d → d.peerId ≠ host.self)
    (hpaired : ∀ rename copy, p = .advance (.remoteWin rename copy) → Paired rename copy)
    (hclaimed : ∀ fi, st.IsLocal host fi → ∀ k ∈ claimsOf host st.toCluster fi p,
      ∀ g ∈ (st.infos fi).files, (st.files g).uuid = k.1 → (st.files g).name = k.2)
    (hagree : ∀ fi, st.IsLocal host fi → ∀ k ∈ claimsOf host st.toCluster fi p,
      (∀ k' ∈ st.claims host fi, k'.1 = k.1 → k'.2 = k.2) ∧
        ∀ k' ∈ claimsOf host st.toCluster fi p, k'.1 = k.1 → k'.2 = k.2) :
    Ordered host (st.push p) := by
  have hclaims : ∀ fi k, k ∈ (st.push p).claims host fi →
      k ∈ st.claims host fi ∨ k ∈ claimsOf host st.toCluster fi p := by
    intro fi k hk
    obtain ⟨q, hq, hk⟩ := mem_claims.mp hk
    rcases List.mem_append.mp hq with hq | hq
    · exact .inl (mem_claims.mpr ⟨q, hq, hk⟩)
    · rw [List.mem_singleton.mp hq] at hk
      exact .inr hk
  refine ⟨h.separate, fun fi hfi => ⟨(h.safe fi hfi).infoWF, fun k hk => ?_⟩, fun fi hfi k hk k' hk' heq =>
    ?_, fun d hd => ?_, fun rename copy hp => ?_⟩
  · rcases hclaims fi k hk with hk | hk
    · exact (h.safe fi hfi).claimed k hk
    · exact hclaimed fi hfi k hk
  · rcases hclaims fi k hk with hk | hk <;> rcases hclaims fi k' hk' with hk' | hk'
    · exact h.agree fi hfi k hk k' hk' heq
    · exact (hagree fi hfi k' hk').1 k hk heq
    · exact ((hagree fi hfi k hk).1 k' hk' heq.symm).symm
    · exact (hagree fi hfi k' hk').2 k hk heq
  · rcases List.mem_append.mp hd with hd | hd
    · exact h.peers d hd
    · exact hpeers d (List.mem_singleton.mp hd).symm
  · rcases List.mem_append.mp hp with hp | hp
    · exact h.paired rename copy hp
    · exact hpaired rename copy (List.mem_singleton.mp hp).symm

/-- **An index message is applied**: it is about a folder info of a peer. -/
theorem Ordered.updateFolder (h : Ordered host st) {i : Nat} {d : UpdateFolder.Diff}
    (hd : st.pending[i]? = some (.updateFolder d)) (ht : UpdateFolder.apply st.toCluster d = some t) :
    Ordered host (st.done i t) := by
  obtain ⟨folder, -, ht⟩ := Option.bind_eq_some_iff.mp ht
  obtain ⟨fi, hfi, ht⟩ := Option.bind_eq_some_iff.mp ht
  obtain ⟨u, hu, ht⟩ := Option.bind_eq_some_iff.mp ht
  obtain ⟨w, hw, ht⟩ := Option.bind_eq_some_iff.mp ht
  have hsame := SameMaps.blocks hu hw
  obtain ⟨hsep, helse⟩ := (h.separate.of_sameMaps hsame).applyFiles ht
  have hall := (SameElsewhere.of_sameMaps hsame fi).trans helse
  have hpeer : (st.infos fi).device = d.peerId := by simpa using List.find?_some hfi
  have hne : ∀ fi', st.IsLocal host fi' → fi' ≠ fi := by
    rintro fi' hself rfl
    exact h.peers d (List.mem_of_getElem? hd) (hpeer.symm.trans hself.1)
  refine h.replace (List.eraseIdx_subset) hsep hall.device_eq (fun fi' hself => ?_) fun fi' hself name hname => ?_
  · exact (h.safe fi' hself).of_elsewhere hall (hne fi' hself)
  · rw [hall.byName (hne fi' hself)]
    exact hname

/-- **An object is destroyed** that is in no map of the cluster. -/
theorem Ordered.destroy (h : Ordered host st) {f : FileId} (hf : st.isListed f = false) :
    Ordered host { st with toStore := st.destroy f } := by
  have hsame := SameBut.destroy st.toStore f
  have hnot : ∀ fi, st.IsLocal host fi → ∀ g ∈ (st.infos fi).files, g ≠ f := by
    rintro fi ⟨-, folder, hfolder, hfi⟩ g hg rfl
    have : st.isListed g = true := by
      simp only [State.isListed, List.any_eq_true, decide_eq_true_eq]
      exact ⟨folder, hfolder, fi, hfi, hg⟩
    rw [hf] at this
    cases this
  have hfiles : ∀ fi, st.IsLocal host fi → ∀ g ∈ (st.infos fi).files,
      (st.destroy f).files g = st.files g := fun fi hfi g hg => hsame.files g (hnot fi hfi g hg)
  refine h.replace (List.Subset.refl _) ?_ (fun fi => by rw [hsame.infos]) (fun fi hfi => ?_)
    fun fi hfi name hname => ?_
  · constructor
    · rw [hsame.infos, hsame.nextFile]
      exact h.separate.allocated
    · rw [hsame.infos]
      exact h.separate.disjoint
  · have hsafe := h.safe fi hfi
    refine ⟨hsafe.infoWF.of_eq (by rw [hsame.infos]) (Nat.le_of_eq hsame.nextFile.symm) (hfiles fi hfi),
      fun k hk g hg => ?_⟩
    rw [hsame.infos] at hg
    rw [hfiles fi hfi g hg]
    exact hsafe.claimed k hk g hg
  · have heq : (st.destroy f).byName fi name = st.byName fi name := by
      unfold Store.byName
      rw [hsame.infos]
      exact List.find?_congr fun g hg => by rw [hfiles fi hfi g hg]
    rw [heq]
    exact hname

/-- What an applied `advance_t` leaves behind. -/
structure Advanced (host : Host) (st : State) (d : Tree) (t : Store) : Prop where
  separate : Separate t
  device : ∀ fi, (t.infos fi).device = (st.infos fi).device
  safe : ∀ fi, st.IsLocal host fi → Safe fi (st.claims host fi) t
  undisturbed : ∀ fi, st.IsLocal host fi → Undisturbed fi
    (if localInfo host st.toCluster (folderIdOf d) = some fi then namesOf d else []) st.toStore t
  known : ∀ fi, st.IsLocal host fi →
    ∀ name, (st.byName fi name).isSome → (t.byName fi name).isSome

/-- The diff has been ignored. -/
theorem Ordered.advanced_refl (h : Ordered host st) (d : Tree) : Advanced host st d st.toStore :=
  ⟨h.separate, fun _ => rfl, h.safe, fun _ _ => Undisturbed.refl .., fun _ _ _ hname => hname⟩

/-- The diff has changed one map of the local device. -/
theorem Ordered.advanced_of_safe (h : Ordered host st) {d : Tree} {fi : FolderInfoId}
    (hfi : localInfo host st.toCluster (folderIdOf d) = some fi) (hsep : Separate t)
    (helse : SameElsewhere fi st.toStore t) (hsafe : Safe fi (st.claims host fi) t)
    (hund : Undisturbed fi (namesOf d) st.toStore t)
    (hnames : ∀ n ∈ namesOf d, (t.byName fi n).isSome) : Advanced host st d t := by
  refine ⟨hsep, helse.device_eq, fun fi' hself => ?_, fun fi' hself => ?_, fun fi' hself name hname => ?_⟩
  · by_cases hne : fi' = fi
    · rw [hne]
      exact hsafe
    · exact (h.safe fi' hself).of_elsewhere helse hne
  · by_cases hne : fi' = fi
    · rw [hne, if_pos hfi]
      exact hund
    · exact Undisturbed.of_elsewhere helse hne _
  · by_cases hne : fi' = fi
    · subst hne
      exact hund.isSome_byName (h.safe fi' hself).infoWF hsafe.infoWF hnames hname
    · rw [helse.byName hne]
      exact hname

/-- **`local_update_t` or `remote_copy_t` is applied**. -/
theorem Ordered.single (h : Ordered host st) {i : Nat} {d : Advance.Diff} {suspended : Bool}
    (hd : st.pending[i]? = some (.advance (.single d)))
    (ht : d.apply host st.toCluster suspended = some t) : Advanced host st (.single d) t := by
  unfold Advance.Diff.apply at ht
  split at ht
  · cases ht
    exact h.advanced_refl _
  · obtain ⟨fi, hfi, ht⟩ := Option.bind_eq_some_iff.mp ht
    have hself : st.IsLocal host fi := localInfo_eq_some hfi
    have hkey : key d ∈ st.claims host fi ∨ (st.byName fi d.protoLocal.name).isSome := by
      cases hname : st.byName fi d.protoLocal.name with
      | some f => exact .inr rfl
      | none =>
        refine .inl (mem_claims.mpr ⟨_, List.mem_of_getElem? hd, ?_⟩)
        simp [claimsOf, hfi, hname]
    obtain ⟨hsafe, hund, hname, g, hp⟩ := (h.safe fi hself).applyImpl (h.agree fi hself) hkey ht
    obtain ⟨hsep, helse⟩ := h.separate.of_touches hp.touches hp.nextFile
    refine h.advanced_of_safe hfi hsep helse hsafe hund fun n hn => ?_
    rw [List.mem_singleton.mp hn]
    exact hname

/-- **`remote_win_t` is applied**: the original is taken out, the renamed file and the copy
are put in. -/
theorem Ordered.remoteWin (h : Ordered host st) {i : Nat} {rename copy : Advance.Diff} {suspended : Bool}
    (hd : st.pending[i]? = some (.advance (.remoteWin rename copy)))
    (ht : (Tree.remoteWin rename copy).apply host st.toCluster suspended = some t) :
    Advanced host st (.remoteWin rename copy) t := by
  have hpaired := h.paired rename copy (List.mem_of_getElem? hd)
  rw [Tree.apply] at ht
  split at ht
  · rename_i hignored
    unfold Advance.Diff.apply at ht
    rw [hpaired.isIgnored, if_pos hignored] at ht
    cases ht
    exact h.advanced_refl _
  · rename_i hignored
    obtain ⟨fi, hfi, ht⟩ := Option.bind_eq_some_iff.mp ht
    obtain ⟨prev, hprev, ht⟩ := Option.bind_eq_some_iff.mp ht
    obtain ⟨u, hu, ht⟩ := Option.bind_eq_some_iff.mp ht
    have hself : st.IsLocal host fi := localInfo_eq_some hfi
    have hagree := h.agree fi hself
    have hkeys : ∀ k ∈ [key rename, key copy], k ∈ st.claims host fi := fun k hk =>
      mem_claims.mpr ⟨_, List.mem_of_getElem? hd, by simpa [claimsOf, hfi] using hk⟩
    -- the original
    obtain ⟨hsafe, hund, -⟩ := (h.safe fi hself).remove hprev
    obtain ⟨hsep, helse⟩ := h.separate.remove fi prev
    rw [← hpaired.name] at hund
    -- the renamed file
    obtain ⟨hsafe', hund', hname', g', hp'⟩ := hsafe.applyImpl hagree (.inl (hkeys _ (by simp))) hu
    obtain ⟨hsep', helse'⟩ := hsep.of_touches hp'.touches hp'.nextFile
    have hdevice := (helse.trans helse').device_eq
    -- the copy
    unfold Advance.Diff.apply at ht
    rw [isIgnored_congr hdevice, hpaired.isIgnored, if_neg hignored, localInfo_congr hdevice,
      hpaired.folderId, hfi] at ht
    obtain ⟨hsafe'', hund'', hname'', g'', hp''⟩ :=
      hsafe'.applyImpl hagree (.inl (hkeys _ (by simp))) ht
    obtain ⟨hsep'', helse''⟩ := hsep'.of_touches hp''.touches hp''.nextFile
    refine h.advanced_of_safe hfi hsep'' ((helse.trans helse').trans helse'') hsafe''
      (((hund.mono ?_).trans (hund'.mono ?_)).trans (hund''.mono ?_)) fun n hn => ?_
    · simp [namesOf]
    · simp [namesOf]
    · simp [namesOf]
    · rcases List.mem_cons.mp hn with rfl | hn
      · refine hund''.isSome_byName hsafe'.infoWF hsafe''.infoWF (fun n hn => ?_) hname'
        rw [List.mem_singleton.mp hn]
        exact hname''
      · rw [List.mem_singleton.mp hn]
        exact hname''

theorem Ordered.advanced (h : Ordered host st) {i : Nat} {d : Tree} {suspended : Bool}
    (hd : st.pending[i]? = some (.advance d)) (ht : d.apply host st.toCluster suspended = some t) :
    Advanced host st d t := by
  cases d with
  | single d => exact h.single hd ht
  | remoteWin rename copy => exact h.remoteWin hd ht

/-- Nobody else uses the uuid of the key. -/
def Free (host : Host) (st : State) (fi : FolderInfoId) (k : Uuid × String) : Prop :=
  (∀ g ∈ (st.infos fi).files, (st.files g).uuid = k.1 → (st.files g).name = k.2) ∧
    ∀ k' ∈ st.claims host fi, k'.1 = k.1 → k'.2 = k.2

theorem free_of_fresh {fi : FolderInfoId} {uuid : Uuid} (h : uuid ∉ st.usedUuids host fi)
    (name : String) : Free host st fi (uuid, name) := by
  simp only [State.usedUuids, List.mem_append, not_or, List.mem_map, not_exists, not_and] at h
  constructor
  · intro g hg heq
    exact absurd heq (h.1 g hg)
  · intro k hk heq
    exact absurd heq (h.2 k hk)

/-- The uuid of a known file is its own. -/
theorem Ordered.free_of_known (h : Ordered host st) {fi : FolderInfoId} (hfi : st.IsLocal host fi)
    {f : FileId} (hf : f ∈ (st.infos fi).files) :
    Free host st fi ((st.files f).uuid, (st.files f).name) := by
  have hsafe := h.safe fi hfi
  constructor
  · intro g hg heq
    by_cases hne : g = f
    · rw [hne]
    · exact absurd heq (hsafe.infoWF.keys g hg f hf hne).1
  · intro k hk heq
    exact (hsafe.claimed k hk f hf heq.symm).symm

theorem fresh_localInfo {env : Env} {fi : FolderInfoId} {folderId : String} {n : Nat}
    (hfresh : ∀ n ∈ [0, 1], ∀ folder ∈ st.folders, ∀ fi ∈ folder.infos,
      env.nextUuid n ∉ st.usedUuids host fi)
    (hfi : localInfo host st.toCluster folderId = some fi) (hn : n ∈ [0, 1]) :
    env.nextUuid n ∉ st.usedUuids host fi := by
  obtain ⟨-, folder, hfolder, hmem⟩ := localInfo_eq_some hfi
  exact hfresh n hn folder hfolder fi hmem

/-- **`local_update_t` or `remote_copy_t` is built**: the uuid of an unknown file is new. -/
theorem Ordered.push_single (h : Ordered host st) {d : Advance.Diff}
    (hfresh : ∀ fi, localInfo host st.toCluster d.folderId = some fi →
      st.byName fi d.protoLocal.name = none → d.uuid ∉ st.usedUuids host fi) :
    Ordered host (st.push (.advance (.single d))) := by
  have hclaim : ∀ fi, ∀ k ∈ claimsOf host st.toCluster fi (.advance (.single d)),
      k = key d ∧ Free host st fi (key d) := by
    intro fi k hk
    simp only [claimsOf] at hk
    split at hk
    · rename_i hcond
      exact ⟨List.mem_singleton.mp hk, free_of_fresh (hfresh fi hcond.1 (by simpa using hcond.2)) _⟩
    · cases hk
  refine h.push (fun _ hd => by cases hd) (fun _ _ hd => by cases hd) (fun fi _ k hk => ?_)
    fun fi _ k hk => ⟨?_, fun k' hk' _ => ?_⟩
  · obtain ⟨rfl, hfree⟩ := hclaim fi k hk
    exact hfree.1
  · obtain ⟨rfl, hfree⟩ := hclaim fi k hk
    exact hfree.2
  · rw [(hclaim fi k hk).1, (hclaim fi k' hk').1]

/-- **`remote_win_t` is built**: nobody else may use the two uuids. -/
theorem Ordered.push_remoteWin (h : Ordered host st) {rename copy : Advance.Diff} (hpaired : Paired rename copy)
    (hfree : ∀ fi, localInfo host st.toCluster rename.folderId = some fi →
      Free host st fi (key rename) ∧ Free host st fi (key copy))
    (hagree : ∀ fi, localInfo host st.toCluster rename.folderId = some fi → rename.uuid = copy.uuid →
      rename.protoLocal.name = copy.protoLocal.name) :
    Ordered host (st.push (.advance (.remoteWin rename copy))) := by
  have hclaim : ∀ fi, ∀ k ∈ claimsOf host st.toCluster fi (.advance (.remoteWin rename copy)),
      localInfo host st.toCluster rename.folderId = some fi ∧ (k = key rename ∨ k = key copy) := by
    intro fi k hk
    simp only [claimsOf] at hk
    split at hk
    · rename_i hfi
      exact ⟨hfi, by simpa using hk⟩
    · cases hk
  refine h.push (fun _ hd => by cases hd) (fun _ _ hd => by cases hd; exact hpaired)
    (fun fi _ k hk => ?_) fun fi _ k hk => ⟨?_, fun k' hk' heq => ?_⟩
  · obtain ⟨hfi, rfl | rfl⟩ := hclaim fi k hk
    · exact (hfree fi hfi).1.1
    · exact (hfree fi hfi).2.1
  · obtain ⟨hfi, rfl | rfl⟩ := hclaim fi k hk
    · exact (hfree fi hfi).1.2
    · exact (hfree fi hfi).2.2
  · obtain ⟨hfi, rfl | rfl⟩ := hclaim fi k hk <;> obtain ⟨-, rfl | rfl⟩ := hclaim fi k' hk'
    · rfl
    · exact (hagree fi hfi heq.symm).symm
    · exact hagree fi hfi heq
    · rfl

/-- The file of a `local_update_t`: the uuid of an unknown one is new. -/
theorem localUpdate_key {env : Env} {c : Cluster} {found : Proto.FileInfo} {folderId : String}
    {disable : Bool} {d : Advance.Diff} (h : localUpdate host env c found folderId disable = some d) :
    d.folderId = folderId ∧ ∀ fi, localInfo host c folderId = some fi →
      c.byName fi d.protoLocal.name = none → d.uuid = env.nextUuid 0 := by
  unfold localUpdate at h
  split at h
  · cases h
  · rename_i hname
    obtain ⟨folder, hfolder, h⟩ := Option.bind_eq_some_iff.mp h
    obtain ⟨fi, hfi, h⟩ := Option.bind_eq_some_iff.mp h
    obtain ⟨original, -, h⟩ := Option.bind_eq_some_iff.mp h
    have hlocal : localInfo host c folderId = some fi := by
      unfold localInfo
      rw [hfolder]
      exact hfi
    -- in each case the name is the one that was found
    have hkey : d.folderId = folderId ∧ d.protoLocal.name = found.name ∧
        (c.byName fi found.name = none → d.uuid = env.nextUuid 0) := by
      split at h
      · obtain ⟨source, -, h⟩ := Option.bind_eq_some_iff.mp h
        obtain ⟨hashes, -, rfl⟩ := initializeAdvance_eq_some h
        refine ⟨rfl, if_neg hname, fun hnone => ?_⟩
        show chooseUuid _ (c.byName fi (if found.name = "" then _ else _)) _ _ _ = _
        rw [if_neg hname, hnone]
        rfl
      · obtain ⟨d', hd', h⟩ := Option.bind_eq_some_iff.mp h
        obtain ⟨hashes, -, rfl⟩ := initializeAdvance_eq_some hd'
        split at h
        · rename_i f hf
          cases h
          refine ⟨rfl, if_neg hname, fun hnone => ?_⟩
          rw [hf] at hnone
          cases hnone
        · rename_i hnone
          cases h
          refine ⟨rfl, if_neg hname, fun _ => ?_⟩
          show chooseUuid _ (c.byName fi (if found.name = "" then _ else _)) _ _ _ = _
          rw [if_neg hname, hnone]
          rfl
    refine ⟨hkey.1, fun fi' hfi' hnone => ?_⟩
    rw [hlocal] at hfi'
    cases hfi'
    rw [hkey.2.1] at hnone
    exact hkey.2.2 hnone

/-- The file of a `remote_copy_t`. -/
theorem remoteCopy_key {env : Env} {c : Cluster} {protoFile : Proto.FileInfo} {folderId : String}
    {peerId : Sha256} {disable : Bool} {d : Advance.Diff}
    (h : remoteCopy host env c protoFile folderId peerId disable = some d) :
    d.folderId = folderId ∧ d.peerId = peerId ∧ d.action = .remoteCopy ∧
      d.protoLocal.name = protoFile.name ∧ ∀ fi, localInfo host c folderId = some fi →
        d.uuid = chooseUuid c.toStore (c.byName fi protoFile.name) disable (env.nextUuid 1) env.unset := by
  obtain ⟨fi, hfi, h⟩ := Option.bind_eq_some_iff.mp h
  obtain ⟨hashes, -, rfl⟩ := initializeAdvance_eq_some h
  refine ⟨rfl, rfl, rfl, rfl, fun fi' hfi' => ?_⟩
  rw [hfi] at hfi'
  cases hfi'
  rfl

/-- The renamed file of a `remote_win_t`. -/
theorem renameLocal_key {env : Env} {c : Cluster} {name folderId : String} {peerId : Sha256} {d : Advance.Diff}
    (h : renameLocal host env c name folderId peerId = some d) :
    d.folderId = folderId ∧ d.peerId = peerId ∧ d.action = .resolveRemoteWin ∧
      d.protoSource.name = name ∧ ∃ fi f, localInfo host c folderId = some fi ∧
        c.byName fi name = some f ∧
        d.uuid = chooseUuid c.toStore (c.byName fi d.protoLocal.name) false (env.nextUuid 0) env.unset := by
  obtain ⟨fi, hfi, h⟩ := Option.bind_eq_some_iff.mp h
  obtain ⟨f, hf, h⟩ := Option.bind_eq_some_iff.mp h
  obtain ⟨source, hsource, h⟩ := Option.bind_eq_some_iff.mp h
  obtain ⟨hashes, -, rfl⟩ := initializeAdvance_eq_some h
  refine ⟨rfl, rfl, rfl, ?_, fi, f, hfi, hf, rfl⟩
  have hname : (c.files f).name = name := by simpa using List.find?_some hf
  show source.name = name
  rw [asProto_name hsource, hname]

/-- **`advance_t` is built** for a file of a peer. -/
theorem Ordered.create (h : Ordered host st) {env : Env} {action : Action} {source : FileId}
    {sourceFi : FolderInfoId} {d : Tree} (hfresh : Fresh host st (.advance env action source sourceFi))
    (hcareful : Careful host st (.advance env action source sourceFi))
    (hd : Advance.create host env st.toCluster action source sourceFi = some d) :
    Ordered host (st.push (.advance d)) := by
  obtain ⟨folder, hfolder, hd⟩ := Option.bind_eq_some_iff.mp hd
  obtain ⟨protoFile, hproto, hd⟩ := Option.bind_eq_some_iff.mp hd
  cases action with
  | localUpdate => cases hd
  | remoteCopy =>
    obtain ⟨d', hd', hd⟩ := Option.bind_eq_some_iff.mp hd
    cases hd
    obtain ⟨hid, -, -, hname, huuid⟩ := remoteCopy_key hd'
    refine h.push_single fun fi hfi hnone => ?_
    rw [hid] at hfi
    rw [hname] at hnone
    rw [huuid fi hfi, hnone]
    exact fresh_localInfo hfresh hfi (by simp)
  | resolveRemoteWin =>
    obtain ⟨rename, hrename, hd⟩ := Option.bind_eq_some_iff.mp hd
    obtain ⟨copy, hcopy, hd⟩ := Option.bind_eq_some_iff.mp hd
    cases hd
    obtain ⟨hid, hpeer, haction, hsource, fi, f, hfi, hf, huuid⟩ := renameLocal_key hrename
    obtain ⟨hid', hpeer', haction', hname', huuid'⟩ := remoteCopy_key hcopy
    have hself : st.IsLocal host fi := localInfo_eq_some hfi
    -- the local file is known, so the uuid of the copy is not assigned
    have hunset : copy.uuid = env.unset := by
      rw [huuid' fi hfi, hf]
      rfl
    obtain ⟨hne, hothers⟩ := hcareful
    obtain ⟨hfiles, hclaims⟩ := hothers folder hfolder fi hfi
    rw [← asProto_name hproto, ← hname'] at hfiles hclaims
    have hcopyFree : Free host st fi (key copy) := by
      refine ⟨fun g hg heq => hfiles g hg (heq.trans hunset), fun k hk heq => hclaims k hk (heq.trans hunset)⟩
    have hrenameFree : Free host st fi (key rename) ∧ (rename.uuid = copy.uuid →
        rename.protoLocal.name = copy.protoLocal.name) := by
      cases hb : st.byName fi rename.protoLocal.name with
      | none =>
        rw [hb] at huuid
        have hnew : rename.uuid = env.nextUuid 0 := huuid
        constructor
        · refine free_of_fresh ?_ _
          rw [hnew]
          exact fresh_localInfo hfresh hfi (by simp)
        · intro heq
          rw [hnew, hunset] at heq
          exact absurd heq.symm hne
      | some g =>
        rw [hb] at huuid
        have hold : rename.uuid = (st.files g).uuid := huuid
        obtain ⟨hg, hgname⟩ := (byName_eq_some (h.safe fi hself).infoWF).mp hb
        constructor
        · have hfree := h.free_of_known hself hg
          rw [← hold, hgname] at hfree
          exact hfree
        · intro heq
          rw [← hgname]
          exact hcopyFree.1 g hg (hold.symm.trans heq)
    have honly : ∀ fi', localInfo host st.toCluster rename.folderId = some fi' → fi' = fi := by
      intro fi' hfi'
      rw [hid, hfi] at hfi'
      exact (Option.some.inj hfi').symm
    refine h.push_remoteWin ⟨hid'.trans hid.symm, hpeer'.trans hpeer.symm, ?_, ?_, hname'.trans hsource.symm⟩
      (fun fi' hfi' => ?_) fun fi' hfi' => hrenameFree.2
    · rw [haction]
      exact fun hcon => by cases hcon
    · rw [haction']
      exact fun hcon => by cases hcon
    · rw [honly fi' hfi']
      exact ⟨hrenameFree.1, hcopyFree⟩

/-- **One event**. -/
theorem Ordered.step (h : Ordered host st) {e : Event} (hfresh : Fresh host st e)
    (hcareful : Careful host st e) {st' : State} (hstep : step host st e = some st') :
    Ordered host st' := by
  cases e with
  | receive nextUuid source message =>
    simp only [AdvanceRun.step] at hstep
    split at hstep
    · cases hstep
    · rename_i hsource
      split at hstep
      · rename_i d hd
        cases hstep
        have hpeer : d.peerId = source := by
          unfold UpdateFolder.create at hd
          split at hd
          · cases hd
          · split at hd
            · cases hd
            · obtain ⟨acc, -, hd⟩ := Fallible.bind_ok.mp hd
              obtain ⟨whiteListed, -, hd⟩ := Fallible.bind_ok.mp hd
              obtain ⟨newHashes, -, hd⟩ := Fallible.bind_ok.mp hd
              cases hd
              rfl
        refine h.push (fun d' hd' => ?_) (fun _ _ hd' => by cases hd') (fun _ _ k hk => by cases hk)
          fun _ _ k hk => by cases hk
        cases hd'
        rw [hpeer]
        exact hsource
      · cases hstep
      · cases hstep
        exact h
  | scan env found folderId disable =>
    obtain ⟨d, hd, rfl⟩ := Option.map_eq_some_iff.mp hstep
    obtain ⟨hid, huuid⟩ := localUpdate_key hd
    refine h.push_single fun fi hfi hnone => ?_
    rw [hid] at hfi
    rw [huuid fi hfi hnone]
    exact fresh_localInfo hfresh hfi (by simp)
  | advance env action source sourceFi =>
    obtain ⟨d, hd, rfl⟩ := Option.map_eq_some_iff.mp hstep
    exact h.create hfresh hcareful hd
  | apply i suspended =>
    simp only [AdvanceRun.step] at hstep
    split at hstep
    · cases hstep
    · rename_i d hd
      obtain ⟨t, ht, rfl⟩ := Option.map_eq_some_iff.mp hstep
      exact h.updateFolder hd ht
    · rename_i d hd
      obtain ⟨t, ht, rfl⟩ := Option.map_eq_some_iff.mp hstep
      have hadv := h.advanced hd ht
      exact h.replace List.eraseIdx_subset hadv.separate hadv.device hadv.safe hadv.known
  | destroy f =>
    simp only [AdvanceRun.step] at hstep
    split at hstep
    · cases hstep
    · rename_i hlisted
      cases hstep
      exact h.destroy (by simpa using hlisted)

end Steps

/-! ## Runs -/

/-- The files of a map have pairwise distinct keys. -/
def DistinctKeys (s : Store) (fi : FolderInfoId) : Prop :=
  ((s.infos fi).files.map fun f => (s.files f).uuid).Nodup ∧
    ((s.infos fi).files.map fun f => (s.files f).name).Nodup ∧
    ((s.infos fi).files.map fun f => (s.files f).sequence).Nodup

/-- The file is found by each of its keys. -/
def Found (s : Store) (fi : FolderInfoId) (f : FileId) : Prop :=
  s.byName fi (s.files f).name = some f ∧ s.byUuid fi (s.files f).uuid = some f ∧
    s.bySequence fi (s.files f).sequence = some f

instance (s : Store) (fi : FolderInfoId) (f : FileId) : Decidable (Found s fi f) :=
  inferInstanceAs (Decidable (_ ∧ _ ∧ _))

theorem distinctKeys_of_infoWF {s : Store} {fi : FolderInfoId} (h : s.InfoWF fi) :
    DistinctKeys s fi := by
  have hmap : ∀ {κ : Type} (key : FileInfo → κ), (∀ f ∈ (s.infos fi).files, ∀ g ∈ (s.infos fi).files,
      f ≠ g → key (s.files f) ≠ key (s.files g)) →
      ((s.infos fi).files.map fun f => key (s.files f)).Nodup := by
    intro κ key hkey
    refine List.Nodup.map_on (fun f hf g hg heq => ?_) h.nodup
    by_contra hne
    exact hkey f hf g hg hne heq
  exact ⟨hmap _ fun f hf g hg hne => (h.keys f hf g hg hne).1,
    hmap _ fun f hf g hg hne => (h.keys f hf g hg hne).2.1,
    hmap _ fun f hf g hg hne => (h.keys f hf g hg hne).2.2⟩

theorem found_of_infoWF {s : Store} {fi : FolderInfoId} (h : s.InfoWF fi) {f : FileId}
    (hf : f ∈ (s.infos fi).files) : Found s fi f := by
  obtain ⟨huuid, hname, hseq⟩ := distinctKeys_of_infoWF h
  exact ⟨(Keyed.find?_iff hname).mpr ⟨hf, rfl⟩, (Keyed.find?_iff huuid).mpr ⟨hf, rfl⟩,
    (Keyed.find?_iff hseq).mpr ⟨hf, rfl⟩⟩

theorem Ordered.initial {host : Host} {c : Cluster} (h : ∀ fi, (c.infos fi).files = []) :
    Ordered host ⟨c, []⟩ := by
  have hnil : ∀ fi f, f ∉ (c.infos fi).files := fun fi f hf => by
    rw [h fi] at hf
    cases hf
  refine ⟨⟨fun fi f hf => absurd hf (hnil fi f), fun fi _ f hf => absurd hf (hnil fi f)⟩,
    fun fi _ => ⟨⟨fun f hf => absurd hf (hnil fi f), ?_, fun f hf => absurd hf (hnil fi f),
      fun f hf => absurd hf (hnil fi f)⟩, fun k hk => (nomatch hk)⟩, fun fi _ k hk => (nomatch hk),
    fun d hd => (nomatch hd), fun rename copy hd => (nomatch hd)⟩
  show (c.infos fi).files.Nodup
  rw [h fi]
  exact List.nodup_nil

/-- **Advances never disturb other files**: in every run in which the unassigned uuids do no
harm, the files of the local device have distinct keys, and an advance changes the files of
its own names only. All others are found as before. -/
theorem undisturbed_of_careful {host : Host} {c : Cluster} (hc : ∀ fi, (c.infos fi).files = [])
    {es : List Event} {st : State} (hrun : Run.exec (step host) ⟨c, []⟩ es = some st)
    (hfresh : Run.Meets (step host) (Fresh host) ⟨c, []⟩ es)
    (hcareful : Run.Meets (step host) (Careful host) ⟨c, []⟩ es) :
    (∀ fi, st.IsLocal host fi → DistinctKeys st.toStore fi) ∧
    ∀ i suspended d st', st.pending[i]? = some (.advance d) →
      step host st (.apply i suspended) = some st' → ∀ fi, st.IsLocal host fi →
        let names := if localInfo host st.toCluster (folderIdOf d) = some fi then namesOf d else []
        Undisturbed fi names st.toStore st'.toStore ∧
          ∀ f ∈ (st.infos fi).files, (st.files f).name ∉ names → Found st'.toStore fi f := by
  have hordered : Ordered host st := by
    refine Run.exec_inv (fun s e s' hs hcond hstep => hs.step hcond.1 hcond.2 hstep)
      (Ordered.initial hc) (Run.Meets.and hfresh hcareful) hrun
  refine ⟨fun fi hfi => distinctKeys_of_infoWF (hordered.safe fi hfi).infoWF, ?_⟩
  intro i suspended d st' hd hstep fi hfi names
  simp only [step, hd] at hstep
  obtain ⟨t, ht, rfl⟩ := Option.map_eq_some_iff.mp hstep
  have hadv := hordered.advanced hd ht
  have hund := hadv.undisturbed fi hfi
  refine ⟨hund, fun f hf hname => ?_⟩
  obtain ⟨hmem, heq⟩ := hund.kept f hf hname
  exact found_of_infoWF (hadv.safe fi hfi).infoWF hmem

/-- A device that shares one folder with a peer. -/
def conflictHost : Host where
  self := [1]
  short := 1
  makeConflictingName file := file.name ++ ".sync-conflict-20260101-120000-AAAAAAA"

def conflictCluster : Cluster where
  toStore := Store.initial fun
    | 0 => ⟨Uuid.ofByte 1, [1], [], 0, 0, [1]⟩
    | _ => ⟨Uuid.ofByte 2, [2], [], 0, 0, [1]⟩
  folders := [⟨"f", Uuid.ofByte 3, [0, 1]⟩]

/-- The unassigned uuid is nil. -/
def nilEnv (n : UInt8) : Env := ⟨fun k => Uuid.ofByte (n + k.toUInt8), Uuid.ofByte 0, 100⟩

/-- The device and the peer have two files of the same names, and the first conflict is won by
the peer. -/
def firstConflict : List Event :=
  [.scan (nilEnv 10) (UpdateFolder.announce "a" 0 7) "f" false, .apply 0 false,
    .scan (nilEnv 20) (UpdateFolder.announce "b" 0 8) "f" false, .apply 0 false,
    .receive (fun k => Uuid.ofByte (100 + k.toUInt8)) [2]
      ⟨"f", [UpdateFolder.announce "a" 1 17, UpdateFolder.announce "b" 2 18]⟩, .apply 0 false,
    .advance (nilEnv 30) .resolveRemoteWin 2 1]

theorem conflictCluster_files (fi : FolderInfoId) : (conflictCluster.infos fi).files = [] := by
  cases fi <;> rfl

/-- The tree that a diff is. -/
def treeOf : Pending → Option Tree
  | .advance d => some d
  | .updateFolder _ => none

set_option synthInstance.maxSize 1000 in
/-- One conflict: the other file is found as before. -/
theorem undisturbed_by_conflict :
    ∃ st st' d, Run.exec (step conflictHost) ⟨conflictCluster, []⟩ firstConflict = some st ∧
      st.pending[0]? = some (.advance d) ∧ step conflictHost st (.apply 0 false) = some st' ∧
      (st.infos 0).files = [0, 1] ∧ DistinctKeys st.toStore 0 ∧ Found st'.toStore 0 1 := by
  have hstate : (Run.exec (step conflictHost) ⟨conflictCluster, []⟩ firstConflict).map (fun st =>
      ((st.infos 0).files, (st.infos 0).device, st.folders, (st.files 1).name,
        (st.pending[0]?.bind treeOf).map namesOf,
        (step conflictHost st (.apply 0 false)).isSome)) =
      some ([0, 1], [1], conflictCluster.folders, "b",
        some ["a.sync-conflict-20260101-120000-AAAAAAA", "a"], true) := by decide +kernel
  obtain ⟨st, hrun, hstate⟩ := Option.map_eq_some_iff.mp hstate
  simp only [Prod.mk.injEq] at hstate
  obtain ⟨hfiles, hdevice, hfolders, hname, hnames, hstep⟩ := hstate
  obtain ⟨d, hd, hnames⟩ := Option.map_eq_some_iff.mp hnames
  obtain ⟨p, hp, hd⟩ := Option.bind_eq_some_iff.mp hd
  obtain ⟨st', hstep⟩ := Option.isSome_iff_exists.mp hstep
  have hpending : st.pending[0]? = some (.advance d) := by
    cases p with
    | updateFolder _ => cases hd
    | advance d' =>
      cases hd
      exact hp
  have hlocal : st.IsLocal conflictHost 0 := ⟨hdevice, by rw [hfolders]; decide⟩
  obtain ⟨hdistinct, hothers⟩ := undisturbed_of_careful conflictCluster_files hrun
    (by decide +kernel) (by decide +kernel)
  refine ⟨st, st', d, hrun, hpending, hstep, hfiles, hdistinct 0 hlocal, ?_⟩
  refine (hothers 0 false d st' hpending hstep 0 hlocal).2 1 (by rw [hfiles]; decide) ?_
  split
  · rw [hname, hnames]
    decide
  · exact List.not_mem_nil

set_option synthInstance.maxSize 1000 in
/-- A second conflict in the folder: the new original has the uuid of the first one, which
is in the map no longer. -/
theorem lost_by_two_wins :
    ∃ es st st' d f, Run.exec (step conflictHost) ⟨conflictCluster, []⟩ es = some st ∧
      Run.Meets (step conflictHost) (Fresh conflictHost) ⟨conflictCluster, []⟩ es ∧
      st.pending[0]? = some (.advance d) ∧ step conflictHost st (.apply 0 false) = some st' ∧
      (st.infos 0).device = conflictHost.self ∧ f ∈ (st.infos 0).files ∧ (st.files f).name = "a" ∧
      namesOf d = ["b.sync-conflict-20260101-120000-AAAAAAA", "b"] ∧
      st'.byName 0 "a" = none ∧ ¬ Found st'.toStore 0 f := by
  have hstate : (Run.exec (step conflictHost) ⟨conflictCluster, []⟩
      (firstConflict ++ [.apply 0 false, .advance (nilEnv 40) .resolveRemoteWin 3 1])).map (fun st =>
      ((st.infos 0).files, (st.infos 0).device, (st.files 5).name,
        (st.pending[0]?.bind treeOf).map namesOf,
        (step conflictHost st (.apply 0 false)).map fun st' =>
          (st'.byName 0 "a", decide (Found st'.toStore 0 5)))) =
      some ([1, 4, 5], [1], "a", some ["b.sync-conflict-20260101-120000-AAAAAAA", "b"],
        some (none, false)) := by decide +kernel
  obtain ⟨st, hrun, hstate⟩ := Option.map_eq_some_iff.mp hstate
  simp only [Prod.mk.injEq] at hstate
  obtain ⟨hfiles, hdevice, hname, hnames, hstep⟩ := hstate
  obtain ⟨d, hd, hnames⟩ := Option.map_eq_some_iff.mp hnames
  obtain ⟨p, hp, hd⟩ := Option.bind_eq_some_iff.mp hd
  obtain ⟨st', hstep, hlost⟩ := Option.map_eq_some_iff.mp hstep
  obtain ⟨hgone, hfound⟩ := Prod.mk.inj hlost
  have hpending : st.pending[0]? = some (.advance d) := by
    cases p with
    | updateFolder _ => cases hd
    | advance d' =>
      cases hd
      exact hp
  exact ⟨_, st, st', d, 5, hrun, by decide +kernel, hpending, hstep, hdevice, by rw [hfiles]; decide, hname,
    hnames, hgone, of_decide_eq_false hfound⟩

end AdvanceRun

end SyncSpirit
