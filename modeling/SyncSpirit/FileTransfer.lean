import SyncSpirit.AdvanceContent

/-!
# What `file_info_t::update` transfers

`update` pours one file object into another one of the same name. Four things should
hold afterwards: no assertion has failed, both objects have the same `as_proto`, no
block of the old content refers back to the object, and `f_available` says whether all
slots are local.

Each part has its own condition (`update_isSome_iff`, `record_iff`, `available_iff`; the
back references are always right, `unlinked_of_update`), and `transferred_iff` puts them
together. The conditions are about kinds of files: the type bits are copied last, a link
target is copied from link to link only, and `remove_blocks` clears `f_available`, which
only a block that is marked sets again.
-/

namespace SyncSpirit

open Backlink

namespace Store

/-! ## `f_available` -/

theorem allLocal_iff {file : FileInfo} :
    allLocal file = true ↔ ∀ v ∈ file.slots, ∃ k, v = some (k, true) := by
  unfold allLocal
  rw [List.all_eq_true]
  refine forall₂_congr fun v _ => ?_
  match v with
  | none => simp
  | some (k, l) => simp

theorem allLocal_of_none {file : FileInfo} (h : none ∈ file.slots) : allLocal file = false := by
  rw [Bool.eq_false_iff, ne_eq, allLocal_iff]
  intro hall
  obtain ⟨k, hk⟩ := hall none h
  cases hk

/-- One adopted block. -/
theorem available_adoptBlock {s t : Store} {f : FileId} {localHashes : List Bytes} {i : Nat}
    {b : BlockId} (h : adoptBlock f localHashes s i b = some t) :
    (t.files f).available =
      ((s.files f).available || (decide ((s.blocks b).hash ∈ localHashes) && allLocal (t.files f))) := by
  obtain ⟨w, hw, h⟩ := Option.bind_eq_some_iff.mp h
  have hkept : (w.files f).available = (s.files f).available := by
    rw [files_assignBlock hw, FileInfo.available_setSlots]
  rw [(SameBut.assignBlock hw).hash b] at h
  split at h
  · rename_i hmem
    obtain ⟨k, -, rfl⟩ := markLocalAvailable_eq_some h
    rw [files_setFile, decide_eq_true hmem, Bool.true_and, ← hkept]
    rfl
  · rename_i hmem
    cases h
    rw [decide_eq_false hmem, Bool.false_and, Bool.or_false, hkept]

/-- **The loop over the blocks** sets the flag if it leaves a block in every slot, and all
of them are local. Before the last block some slot is still null. -/
theorem available_adoptBlocks {f : FileId} {localHashes : List Bytes} {vs : List (Option Slot)} :
    ∀ {s t : Store} {pre : List (Option Slot)}, (s.files f).isFile = true →
      (s.files f).slots = pre ++ List.replicate vs.length none →
      adoptBlocks f localHashes s pre.length vs = some t →
      (t.files f).available =
        ((s.files f).available || (decide (vs ≠ []) && allLocal (t.files f))) := by
  induction vs with
  | nil =>
    rintro s t pre - - ⟨⟩
    simp
  | cons v vs ih =>
    intro s t pre hf hslots h
    cases v with
    | none =>
      have hnull : (s.files f).slots = (pre ++ [none]) ++ List.replicate vs.length none := by
        rw [hslots, List.length_cons, List.replicate_succ, List.append_assoc]
        rfl
      obtain ⟨blocks, hc⟩ : ∃ blocks, (s.files f).content = .file blocks :=
        content_of_slot (hslots ▸ getElem?_append_replicate pre vs.length)
      have hlen : pre.length + 1 = (pre ++ [none]).length := by simp
      rw [adoptBlocks, hlen] at h
      obtain ⟨u, a, hu, -, hfile⟩ := @adoptBlocks_spec f localHashes vs s (pre ++ [none]) hf hnull
      rw [h] at hu
      cases hu
      -- the null slot stays
      have hfalse : allLocal (t.files f) = false := by
        refine allLocal_of_none ?_
        rw [hfile, FileInfo.slots_setAvailable, FileInfo.slots_setSlots hc]
        simp
      rw [ih hf hnull h, hfalse]
      simp
    | some p =>
      obtain ⟨u, hu, h⟩ := Option.bind_eq_some_iff.mp h
      obtain ⟨u', a, hu', -, hfile⟩ := adoptBlock_next hf hslots localHashes p.1
      rw [hu] at hu'
      cases hu'
      obtain ⟨blocks, hc⟩ : ∃ blocks, (s.files f).content = .file blocks :=
        content_of_slot (hslots ▸ getElem?_append_replicate pre vs.length)
      have huslots : (u.files f).slots =
          (pre ++ [some (p.1, decide ((s.blocks p.1).hash ∈ localHashes))]) ++
            List.replicate vs.length none := by
        rw [hfile, FileInfo.slots_setAvailable, FileInfo.slots_setSlots hc]
      have huf : (u.files f).isFile = true := by
        rw [hfile, FileInfo.isFile_setAvailable, FileInfo.isFile_setSlots, hf]
      have hstep := available_adoptBlock hu
      have hlen : pre.length + 1 =
          (pre ++ [some (p.1, decide ((s.blocks p.1).hash ∈ localHashes))]).length := by simp
      rw [hlen] at h
      have hrest := ih huf huslots h
      cases vs with
      | nil =>
        cases h
        -- the last block: if all slots are local, it has been marked
        have hmarked : (decide ((s.blocks p.1).hash ∈ localHashes) && allLocal (t.files f)) =
            allLocal (t.files f) := by
          cases hall : allLocal (t.files f) with
          | false => rw [Bool.and_false]
          | true =>
            obtain ⟨k, hk⟩ := allLocal_iff.mp hall
              (some (p.1, decide ((s.blocks p.1).hash ∈ localHashes))) (by rw [huslots]; simp)
            have hmem : decide ((s.blocks p.1).hash ∈ localHashes) = true := by
              injection hk with hk
              exact congrArg Prod.snd hk
            rw [hmem, Bool.and_true]
        rw [hstep, hmarked]
        simp
      | cons v' vs' =>
        have hfalse : allLocal (u.files f) = false := by
          refine allLocal_of_none ?_
          rw [huslots]
          simp
        rw [hrest, hstep, hfalse]
        simp

/-- Before the loop the flag of a regular file is cleared. -/
theorem available_prepareUpdate (s : Store) (f : FileId) (other : FileInfo) :
    ((s.prepareUpdate f other).files f).available =
      (!(s.files f).isFile && (s.files f).available) := by
  have hremoved : (((s.setFile f ((s.files f).copyFields other)).removeBlocks f).files f).available =
      (!(s.files f).isFile && (s.files f).available) := by
    unfold removeBlocks
    rw [files_setFile]
    cases hf : (s.files f).isFile with
    | true =>
      rw [if_pos (show ((s.files f).copyFields other).isFile = true from hf)]
      dsimp only
      rw [files_setFile]
      rfl
    | false =>
      rw [if_neg (by rw [show ((s.files f).copyFields other).isFile = false from hf]; simp),
        files_setFile]
      rfl
  unfold prepareUpdate
  dsimp only
  split
  · rw [files_setFile, FileInfo.resize, FileInfo.available_setSlots, files_setFile]
    exact hremoved
  · rw [files_setFile]
    exact hremoved

/-- **The flag after an update.** -/
theorem available_update {s t : Store} (hl : s.graph.Linked) {f : FileId} {other : FileInfo}
    (hc : (s.files f).Coherent) (ho : other.Coherent) (h : s.update f other = some t) :
    (t.files f).available = ((!(s.files f).isFile && (s.files f).available) ||
      (decide (other.slots ≠ []) && allLocal (t.files f))) := by
  have hp := prepareUpdate_spec hl hc ho
  have hassert : (s.files f).name = other.name ∧
      ((s.files f).uuid = other.uuid ∨ (s.files f).version.identicalTo other.version = true) := by
    by_contra hnot
    rw [Store.update, if_neg hnot] at h
    cases h
  rw [update_eq ho hassert.1 hassert.2] at h
  obtain ⟨u, hu, rfl⟩ := Option.map_eq_some_iff.mp h
  rw [files_setFile]
  show (u.files f).available = (_ || (_ && allLocal (u.files f)))
  have hstart := available_prepareUpdate s f other
  have hisFile : ((s.prepareUpdate f other).files f).isFile = (s.files f).isFile := by
    obtain ⟨c, a, hfile⟩ := hp.file
    rw [hfile]
    rfl
  cases hf : (s.files f).isFile with
  | true =>
    have := @available_adoptBlocks f (s.keptHashes f) other.slots (s.prepareUpdate f other) u []
      (hisFile.trans hf) (by rw [hp.slots]; rfl) hu
    rw [this, hstart, hf]
  | false =>
    -- nothing but null slots can be adopted
    rw [adoptBlocks_of_nonFile (hisFile.trans hf)] at hu
    split at hu
    · cases hu
      have hfalse : (decide (other.slots ≠ []) &&
          allLocal ((s.prepareUpdate f other).files f)) = false := by
        cases hother : other.slots with
        | nil => rfl
        | cons v vs =>
          rw [allLocal_of_none, Bool.and_false]
          rw [hp.slots, hother]
          simp
      rw [hstart, hfalse, hf, Bool.or_false]
    · cases hu

/-! ## `as_proto` -/

/-- What `as_proto` copies as it is. -/
structure SameHeader (a b : FileInfo) : Prop where
  name : a.name = b.name
  type : a.type = b.type
  permissions : a.permissions = b.permissions
  modifiedS : a.modifiedS = b.modifiedS
  modifiedNs : a.modifiedNs = b.modifiedNs
  modifiedBy : a.modifiedBy = b.modifiedBy
  deleted : a.deleted = b.deleted
  invalid : a.invalid = b.invalid
  noPermissions : a.noPermissions = b.noPermissions
  version : a.version = b.version
  sequence : a.sequence = b.sequence

theorem blocksProto_isSome {s : Store} {vs : List (Option BlockId)} :
    ∀ {offset : Int}, (∃ bs, s.blocksProto offset vs = some bs) ↔ ∀ v ∈ vs, v ≠ none := by
  induction vs with
  | nil => exact fun {offset} => ⟨fun _ v hv => absurd hv List.not_mem_nil, fun _ => ⟨[], rfl⟩⟩
  | cons v vs ih =>
    intro offset
    cases v with
    | none => simp [blocksProto]
    | some b =>
      rw [List.forall_mem_cons, ← @ih (offset + (s.blocks b).getSize)]
      simp [blocksProto, Option.bind_eq_some_iff]

theorem targets_ne_none_iff {file : FileInfo} :
    (∀ v ∈ file.targets, v ≠ none) ↔ ∀ v ∈ file.slots, v ≠ none := by
  simp [FileInfo.targets]

/-- **`as_proto`** dereferences every slot. -/
theorem asProto_isSome_iff {s : Store} {file : FileInfo} :
    (∃ p, s.asProto file true = some p) ↔ ∀ v ∈ file.slots, v ≠ none := by
  rw [← targets_ne_none_iff]
  cases hc : file.content with
  | nonFile target =>
    have hnil : file.targets = [] := by simp [FileInfo.targets, FileInfo.slots, hc]
    simp [asProto, hc, hnil]
  | file blocks =>
    constructor
    · rintro ⟨p, h⟩
      unfold asProto at h
      rw [hc] at h
      obtain ⟨size, -, h⟩ := Option.bind_eq_some_iff.mp h
      obtain ⟨blockSize, -, h⟩ := Option.bind_eq_some_iff.mp h
      obtain ⟨bs, hbs, -⟩ := Option.bind_eq_some_iff.mp h
      exact blocksProto_isSome.mp ⟨bs, hbs⟩
    · intro h
      obtain ⟨size, hsize⟩ := @getSize_isSome s file h
      obtain ⟨blockSize, hblockSize⟩ := @getBlockSize_isSome s file h
      obtain ⟨bs, hbs⟩ := (@blocksProto_isSome s file.targets 0).mpr h
      unfold asProto
      simp only [hc, hsize, hblockSize, hbs, Option.bind_eq_bind, Option.bind_some, if_true]
      exact ⟨_, rfl⟩

theorem asProto_symlinkTarget {s : Store} {file : FileInfo} {p : Proto.FileInfo}
    (h : s.asProto file true = some p) : p.symlinkTarget = linkTarget file := by
  unfold asProto at h
  unfold linkTarget
  cases hc : file.content with
  | nonFile target =>
    rw [hc] at h
    cases h
    rfl
  | file blocks =>
    rw [hc] at h
    obtain ⟨size, -, h⟩ := Option.bind_eq_some_iff.mp h
    obtain ⟨blockSize, -, h⟩ := Option.bind_eq_some_iff.mp h
    obtain ⟨bs, -, h⟩ := Option.bind_eq_some_iff.mp h
    cases h
    rfl

/-- Files with the same header, the same blocks and the same link target have the same
record. -/
theorem asProto_congr {s : Store} {a b : FileInfo} (ha : a.Coherent) (hb : b.Coherent)
    (h : SameHeader a b) (htargets : a.targets = b.targets) (hlink : linkTarget a = linkTarget b) :
    s.asProto a true = s.asProto b true := by
  have hsize : s.getSize a = s.getSize b :=
    getSize_congr h.type h.deleted h.invalid (by rw [htargets])
  have hisFile : a.isFile = b.isFile := by simp only [FileInfo.isFile, h.type]
  have hblockSize : s.getBlockSize a = s.getBlockSize b := by
    unfold getBlockSize
    rw [hisFile, htargets]
  have hkind : (∃ blocks, a.content = .file blocks) ↔ ∃ blocks, b.content = .file blocks :=
    ha.symm.trans (hisFile ▸ hb)
  unfold asProto
  simp only [h.name, h.type, h.permissions, h.modifiedS, h.modifiedNs, h.modifiedBy, h.deleted,
    h.invalid, h.noPermissions, h.version, h.sequence, hsize, hblockSize, htargets]
  cases hca : a.content with
  | file blocks =>
    obtain ⟨blocks', hcb⟩ := hkind.mp ⟨blocks, hca⟩
    rw [hcb]
  | nonFile target =>
    cases hcb : b.content with
    | file blocks =>
      obtain ⟨blocks', hca'⟩ := hkind.mpr ⟨blocks, hcb⟩
      rw [hca] at hca'
      cases hca'
    | nonFile target' =>
      have heq : target = target' := by simpa [linkTarget, hca, hcb] using hlink
      rw [heq]

/-! ## The four parts -/

/-- `update` has transferred the record of `b` to `a`. -/
structure Transferred (s : Store) (a b : FileId) (t : Store) : Prop where
  record : ∃ p, t.asProto (t.files a) true = some p ∧ t.asProto (t.files b) true = some p
  unlinked : ∀ k, (∀ e ∈ (s.blocks k).fileBlocks, e.owner = a) →
    ∀ e ∈ (t.blocks k).fileBlocks, e.owner ≠ a
  available : (t.files a).available = true ↔ ∀ v ∈ (t.files a).slots, ∃ k, v = some (k, true)

/-- The two files are what `update` asserts: they have the same uuid or the same version, and
blocks meet a regular file. -/
def Updatable (a b : FileInfo) : Prop :=
  (a.uuid = b.uuid ∨ a.version.identicalTo b.version = true) ∧
    (a.isFile = true ∨ ∀ v ∈ b.slots, v = none)

instance (a b : FileInfo) : Decidable (Updatable a b) :=
  inferInstanceAs (Decidable ((_ ∨ _) ∧ (_ ∨ _)))

/-- The link target that `a` has after the update is the one of `b`. -/
def TargetKept (a b : FileInfo) : Prop :=
  b.isFile = true ∨ (if a.isFile then linkTarget b = "" else
    (a.isLink = true ∧ b.isLink = true) ∨ linkTarget a = linkTarget b)

instance (a b : FileInfo) : Decidable (TargetKept a b) :=
  inferInstanceAs (Decidable (_ ∨ (if a.isFile then linkTarget b = "" else _)))

/-- The files for which `update` does all it should. -/
def Transferable (a b : FileInfo) : Prop :=
  Updatable a b ∧ (∀ v ∈ b.slots, v ≠ none) ∧ TargetKept a b ∧
    (b.slots ≠ [] ∨ (a.isFile = false ∧ a.available = true))

instance (a b : FileInfo) : Decidable (Transferable a b) :=
  inferInstanceAs (Decidable (Updatable a b ∧ _ ∧ TargetKept a b ∧ (_ ∨ _)))

/-- **No assertion fails.** -/
theorem update_isSome_iff {s : Store} (hl : s.graph.Linked) {f : FileId} {other : FileInfo}
    (hc : (s.files f).Coherent) (ho : other.Coherent) (hname : (s.files f).name = other.name) :
    (∃ t, s.update f other = some t) ↔ Updatable (s.files f) other := by
  constructor
  · rintro ⟨t, ht⟩
    refine ⟨?_, ?_⟩
    · by_contra hnot
      rw [Store.update, if_neg fun h => hnot h.2] at ht
      cases ht
    · by_contra hnot
      push Not at hnot
      rw [update_of_nonFile hl hc ho (by simpa using hnot.1) hnot.2] at ht
      cases ht
  · rintro ⟨hid, hkind⟩
    obtain ⟨t, ht, -⟩ := update_spec hl hc ho hname hid hkind
    exact ⟨t, ht⟩

theorem updated_of_update {s t : Store} (hl : s.graph.Linked) {f : FileId} {other : FileInfo}
    (hc : (s.files f).Coherent) (ho : other.Coherent) (hname : (s.files f).name = other.name)
    (h : s.update f other = some t) : Updated s f other t := by
  obtain ⟨hid, hkind⟩ := (update_isSome_iff hl hc ho hname).mp ⟨t, h⟩
  obtain ⟨t', ht', hup⟩ := update_spec hl hc ho hname hid hkind
  rw [h] at ht'
  cases ht'
  exact hup

theorem Updated.targets {s t : Store} {f : FileId} {other : FileInfo} (h : Updated s f other t) :
    (t.files f).targets = other.targets := by
  rw [FileInfo.targets, h.slots, adopted, List.map_map]
  refine List.map_congr_left fun v _ => ?_
  cases v <;> rfl

theorem Updated.header {s t : Store} {f : FileId} {other : FileInfo} (h : Updated s f other t)
    (hname : (s.files f).name = other.name) : SameHeader (t.files f) other := by
  obtain ⟨c, a, hfile⟩ := h.file
  rw [hfile]
  exact ⟨hname, rfl, rfl, rfl, rfl, rfl, rfl, rfl, rfl, rfl, rfl⟩

/-- The link target survives. -/
theorem linkTarget_update_iff {s t : Store} {f : FileId} {other : FileInfo}
    (hup : Updated s f other t) (ho : other.Coherent) (h : s.update f other = some t) :
    linkTarget (t.files f) = linkTarget other ↔ TargetKept (s.files f) other := by
  have hfile : ∀ a : FileInfo, a.isFile = decide (a.type = .file) := fun a => rfl
  rw [linkTarget_update hup h]
  unfold TargetKept nextTarget
  by_cases hof : other.type = .file
  · rw [if_pos hof, linkTarget_of_isFile ho (isFile_iff.mpr hof)]
    simp [hfile, hof]
  · rw [if_neg hof]
    show (if (s.files f).type = .file then "" else
      if (s.files f).type = .link ∧ other.type = .link then linkTarget other else linkTarget (s.files f)) =
        linkTarget other ↔ _
    by_cases hf : (s.files f).type = .file
    · simp [hfile, hof, hf]
    · by_cases hlink : (s.files f).type = .link ∧ other.type = .link
      · simp [hfile, FileInfo.isLink, hlink.1, hlink.2]
      · have hlink' : ¬ ((s.files f).isLink = true ∧ other.isLink = true) := by
          simpa [FileInfo.isLink] using hlink
        simp [hfile, hof, hf, hlink, hlink']

/-- **The same record** on both sides. -/
theorem record_iff {s t : Store} {f g : FileId} (hfg : f ≠ g)
    (ho : (s.files g).Coherent) (hname : (s.files f).name = (s.files g).name)
    (hup : Updated s f (s.files g) t) (h : s.update f (s.files g) = some t) :
    (∃ p, t.asProto (t.files f) true = some p ∧ t.asProto (t.files g) true = some p) ↔
      (∀ v ∈ (s.files g).slots, v ≠ none) ∧ TargetKept (s.files f) (s.files g) := by
  rw [hup.same.files g hfg.symm, ← linkTarget_update_iff hup ho h]
  constructor
  · rintro ⟨p, hp, hp'⟩
    refine ⟨asProto_isSome_iff.mp ⟨p, hp'⟩, ?_⟩
    rw [← asProto_symlinkTarget hp, ← asProto_symlinkTarget hp']
  · rintro ⟨hslots, hlink⟩
    obtain ⟨p, hp⟩ := (@asProto_isSome_iff t (s.files g)).mpr hslots
    exact ⟨p, (asProto_congr hup.coherent ho (hup.header hname) hup.targets hlink).trans hp, hp⟩

/-- A block that only `a` has referred to is not one of the blocks of `b`. -/
theorem unlinked_of_update {s t : Store} (hl : s.graph.Linked) {f g : FileId} (hfg : f ≠ g)
    (hup : Updated s f (s.files g) t) {k : BlockId}
    (hold : ∀ e ∈ (s.blocks k).fileBlocks, e.owner = f) :
    ∀ e ∈ (t.blocks k).fileBlocks, e.owner ≠ f := by
  rintro e he rfl
  obtain ⟨l, hslot⟩ := hup.linked.slot_of_entry k e he
  have hmem : some k ∈ (t.files e.owner).targets := by
    have hget : (t.files e.owner).slots[e.index]?.join = some (k, l) := hslot
    exact List.mem_map.mpr
      ⟨_, List.mem_iff_getElem?.mpr ⟨_, Option.join_eq_some_iff.mp hget⟩, rfl⟩
  rw [hup.targets] at hmem
  obtain ⟨v, hv, hvk⟩ := List.mem_map.mp hmem
  obtain ⟨⟨k', l'⟩, rfl, hk⟩ := Option.map_eq_some_iff.mp hvk
  obtain ⟨i, hi⟩ := List.mem_iff_getElem?.mp hv
  have hslot' : s.graph.slot g i = some (k', l') := by
    show (s.files g).slots[i]?.join = _
    rw [hi]
    rfl
  obtain ⟨e', he', howner, -⟩ := hl.entry_of_slot g i k' l' hslot'
  have hkk : k' = k := hk
  subst hkk
  exact hfg ((hold e' he').symm.trans howner)

/-- **The flag is right** if there are blocks; otherwise only if it has been set and nothing
has cleared it. -/
theorem available_iff {s t : Store} (hl : s.graph.Linked) {f : FileId} {other : FileInfo}
    (hc : (s.files f).Coherent) (ho : other.Coherent) (hup : Updated s f other t)
    (hslots : ∀ v ∈ other.slots, v ≠ none) (h : s.update f other = some t)
    (hkind : (s.files f).isFile = true ∨ ∀ v ∈ other.slots, v = none) :
    ((t.files f).available = true ↔ ∀ v ∈ (t.files f).slots, ∃ k, v = some (k, true)) ↔
      other.slots ≠ [] ∨ ((s.files f).isFile = false ∧ (s.files f).available = true) := by
  rw [← allLocal_iff, available_update hl hc ho h]
  by_cases hnil : other.slots = []
  · have hall : allLocal (t.files f) = true := by
      rw [allLocal, hup.slots, hnil]
      rfl
    rw [hall, hnil]
    cases (s.files f).isFile <;> simp
  · have hf : (s.files f).isFile = true := by
      refine hkind.resolve_right fun hall => ?_
      obtain ⟨v, hv⟩ := List.exists_mem_of_ne_nil _ hnil
      exact hslots v hv (hall v hv)
    simp [hf, hnil]

/-- **Update transfers the record**: exactly when the uuids or versions match, the other
file has no null slot, blocks meet a regular file, the link target survives, and `f_available`
is recomputed or has been right before. -/
theorem transferred_iff {s : Store} (hwf : s.WF) {a b : FileId} (hab : a ≠ b)
    (hname : (s.files a).name = (s.files b).name) :
    (∃ t, s.update a (s.files b) = some t ∧ Transferred s a b t) ↔
      Transferable (s.files a) (s.files b) := by
  have hca := hwf.coherent a
  have hcb := hwf.coherent b
  constructor
  · rintro ⟨t, ht, hrec, -, havail⟩
    have hable := (update_isSome_iff hwf.linked hca hcb hname).mp ⟨t, ht⟩
    have hup := updated_of_update hwf.linked hca hcb hname ht
    obtain ⟨hslots, hkept⟩ := (record_iff hab hcb hname hup ht).mp hrec
    exact ⟨hable, hslots, hkept, (available_iff hwf.linked hca hcb hup hslots ht hable.2).mp havail⟩
  · rintro ⟨hable, hslots, hkept, havail⟩
    obtain ⟨t, ht⟩ := (update_isSome_iff hwf.linked hca hcb hname).mpr hable
    have hup := updated_of_update hwf.linked hca hcb hname ht
    exact ⟨t, ht, (record_iff hab hcb hname hup ht).mpr ⟨hslots, hkept⟩,
      fun k hold => unlinked_of_update hwf.linked hab hup hold,
      (available_iff hwf.linked hca hcb hup hslots ht hable.2).mpr havail⟩

/-- Objects for two announced files with the same uuid, in a store that has the block `[7]`. -/
def twoObjects (f g : Proto.FileInfo) : Option Store := do
  let s ← UpdateFolder.newPeer.toStore.addBlock ⟨5, [7], 0⟩
  let s ← UpdateFolder.instantiate s 0 default f
  UpdateFolder.instantiate s 0 default g

theorem wf_twoObjects {f g : Proto.FileInfo} (hfn : f.name ≠ "") (hf : f.version.counters ≠ [])
    (hgn : g.name ≠ "") (hg : g.version.counters ≠ []) {hashes hashes' : List Bytes}
    (hhashes : UpdateFolder.strictHashes f.blocks = some hashes)
    (hhashes' : UpdateFolder.strictHashes g.blocks = some hashes')
    (hknown : ∀ hash ∈ hashes ++ hashes', some hash = makeStrictHash [7]) :
    ∃ s, twoObjects f g = some s ∧ s.WF := by
  have hinit : UpdateFolder.newPeer.toStore.WF := WF.initial fun _ => rfl
  obtain ⟨s₁, hs₁, hsame, -, hsize⟩ := UpdateFolder.addBlock_spec hinit.linked
    (BlocksWF.initial _) (b := ⟨5, [7], 0⟩) rfl
  have hfound : ∀ hash, some hash = makeStrictHash [7] → (s₁.byHash hash).isSome = true := by
    intro hash hh
    rw [← UpdateFolder.sizeAt_isSome, hsize, Option.isSome_or, if_pos (Option.some.inj hh)]
    simp
  obtain ⟨s₂, hs₂, hinst⟩ := @UpdateFolder.instantiate_spec s₁ (hsame.wf hinit) 0 default f hfn hf hashes
    hhashes fun hash hh => hfound hash (hknown hash (List.mem_append_left _ hh))
  obtain ⟨s₃, hs₃, hinst'⟩ := @UpdateFolder.instantiate_spec s₂ hinst.wf 0 default g hgn hg hashes'
    hhashes' fun hash hh => by
      rw [hinst.blocks.byHash]
      exact hfound hash (hknown hash (List.mem_append_right _ hh))
  have hstart : UpdateFolder.newPeer.toStore.addBlock ⟨5, [7], 0⟩ = some s₁ := hs₁
  refine ⟨s₃, ?_, hinst'.wf⟩
  simp only [twoObjects, hstart, hs₂, hs₃, Option.bind_eq_bind, Option.bind_some]

/-- A regular file with one block, before and after a change. -/
theorem transferred_of_files :
    ∃ s, twoObjects (UpdateFolder.announce "a" 1 7) (UpdateFolder.announce "a" 2 7) = some s ∧
      ∃ t, s.update 0 (s.files 1) = some t ∧ Transferred s 0 1 t := by
  obtain ⟨s, hs, hwf⟩ := @wf_twoObjects (UpdateFolder.announce "a" 1 7)
    (UpdateFolder.announce "a" 2 7) (by decide) (by decide) (by decide) (by decide) _ _ rfl rfl (by decide)
  have hable : (twoObjects (UpdateFolder.announce "a" 1 7) (UpdateFolder.announce "a" 2 7)).map
      (fun s => decide ((s.files 0).name = (s.files 1).name ∧
        Transferable (s.files 0) (s.files 1))) = some true := by decide
  rw [hs] at hable
  obtain ⟨hname, hable⟩ := of_decide_eq_true (Option.some.inj hable)
  exact ⟨s, hs, (transferred_iff hwf (by decide) hname).mpr hable⟩

/-- A directory that becomes a regular file with one block: the first block fails the
assertion of `assign_block`, as the type bits are still those of the directory. -/
theorem not_transferred_of_directory :
    ∃ s, twoObjects { UpdateFolder.announce "a" 1 7 with type := .directory, size := 0, blocks := [] }
        (UpdateFolder.announce "a" 2 7) = some s ∧
      (s.files 0).name = (s.files 1).name ∧
      ¬ ∃ t, s.update 0 (s.files 1) = some t ∧ Transferred s 0 1 t := by
  have hrun : (twoObjects { UpdateFolder.announce "a" 1 7 with type := .directory, size := 0, blocks := [] }
        (UpdateFolder.announce "a" 2 7)).map
      (fun s => decide ((s.files 0).name = (s.files 1).name ∧
        (s.update 0 (s.files 1)).isNone = true)) = some true := by decide
  obtain ⟨s, hs, hres⟩ := Option.map_eq_some_iff.mp hrun
  obtain ⟨hname, hnone⟩ := of_decide_eq_true hres
  refine ⟨s, hs, hname, ?_⟩
  rintro ⟨t, ht, -⟩
  rw [ht] at hnone
  cases hnone

end Store

end SyncSpirit
