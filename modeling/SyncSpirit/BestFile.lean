import SyncSpirit.LocalOriginal
import SyncSpirit.Presentation
import SyncSpirit.Lib.Champion

/-!
# The globally best file (`recalc_best`, `get_original`)

Two places of the program look for the best file of a name: `recalc_best` among the presences of
an entity, and `get_original` among the files of the peers. Both walk through the devices and keep the
best one so far, with `model::compare`. That is no preorder, and it never returns more
than 1, which is what `get_original` waits for.

- `compare_of_same_version`, `mutual_of_undecided`: what `compare` does know;
- `presented`, `adopted`: the two versions that are found;
- `orderFree_iff`: exactly when they do not depend on the order of the devices.
-/

namespace SyncSpirit

/-- The other version is in the past, and not the same. -/
def Version.StrictlyDominates (v w : Version) : Prop := v.Dominates w ∧ ¬ w.Dominates v

instance (v w : Version) : Decidable (v.StrictlyDominates w) := inferInstanceAs (Decidable (_ ∧ _))

namespace BestFile

/-! ## `compare` -/

theorem compare_nonneg_iff {f g : FileInfo} : 0 ≤ Presentation.compare f g ↔
    (f.deleted = true ∧ g.deleted = true) ∨ compareByVersion g f = .ignore := by
  unfold Presentation.compare
  by_cases hdel : (f.deleted && g.deleted) = true
  · rw [if_pos hdel]
    exact ⟨fun _ => .inl (by simpa using hdel), fun _ => le_rfl⟩
  · rw [if_neg hdel]
    have hdel' : ¬ (f.deleted = true ∧ g.deleted = true) := by simpa using hdel
    by_cases hignore : compareByVersion g f = .ignore
    · rw [if_pos hignore]
      exact ⟨fun _ => .inr hignore, fun _ => by decide⟩
    · rw [if_neg hignore]
      exact ⟨fun h => absurd h (by decide), fun h => absurd h (not_or.mpr ⟨hdel', hignore⟩)⟩

theorem compare_neg_iff {f g : FileInfo} : Presentation.compare f g < 0 ↔
    ¬ (f.deleted = true ∧ g.deleted = true) ∧ compareByVersion g f ≠ .ignore := by
  rw [← not_le, compare_nonneg_iff, not_or]

theorem compareByVersion_of_same_best {f g : FileInfo} (h : f.version.getBest = g.version.getBest) :
    compareByVersion f g = .ignore := by
  unfold compareByVersion
  rw [h, if_pos rfl]
  split <;> rfl

/-- Files of one version replace each other. -/
theorem compare_of_same_version {f g : FileInfo} (h : f.version = g.version) : 0 ≤ Presentation.compare f g :=
  compare_nonneg_iff.mpr (.inr (compareByVersion_of_same_best (by rw [h])))

/-- Two files of which neither replaces the other: each version contains the other one. -/
theorem mutual_of_undecided {f g : FileInfo} (hfg : Presentation.compare f g < 0)
    (hgf : Presentation.compare g f < 0) :
    f.version.getBest.id ≠ g.version.getBest.id ∧ f.version.contains g.version = true ∧
      g.version.contains f.version = true := by
  obtain ⟨hdel, hg⟩ := compare_neg_iff.mp hfg
  obtain ⟨-, hf⟩ := compare_neg_iff.mp hgf
  have hbest : f.version.getBest ≠ g.version.getBest := fun h => hf (compareByVersion_of_same_best h)
  have hnot : ¬ Agree f g := by
    rintro (⟨-, h⟩ | ⟨-, h⟩)
    · exact hf h
    · exact hg h
  have hid : f.version.getBest.id ≠ g.version.getBest.id := fun hid => hnot (agree_of_same_id hid hbest)
  refine ⟨hid, ?_⟩
  -- in all other cases the two agree on one of the files
  cases hc : f.version.contains g.version with
  | true =>
    cases hc' : g.version.contains f.version with
    | true => exact ⟨rfl, rfl⟩
    | false => exact absurd (agree_of_superior hid hc hc') hnot
  | false =>
    cases hc' : g.version.contains f.version with
    | true => exact absurd (agree_of_superior hid.symm hc' hc).symm hnot
    | false => exact absurd (agree_of_concurrent hid hdel hc hc') hnot

/-- Whether two files are undecided depends on their versions only, if not both are deleted. -/
theorem compare_like {f f' g : FileInfo} (hsame : f.version = f'.version) (hgf : Presentation.compare g f < 0)
    (hgf' : Presentation.compare g f' < 0) (hfg : 0 ≤ Presentation.compare f g) :
    0 ≤ Presentation.compare f' g := by
  by_contra hneg
  obtain ⟨hid, -, hcontains⟩ := mutual_of_undecided (not_le.mp hneg) hgf'
  have hcopy : compareByVersion g f = .remoteCopy := by
    unfold compareByVersion
    rw [hsame, if_neg (Ne.symm hid), hcontains]
    simp
  obtain ⟨hdel, -⟩ := compare_neg_iff.mp hgf
  rcases compare_nonneg_iff.mp hfg with h | h
  · exact hdel ⟨h.2, h.1⟩
  · rw [hcopy] at h
    cases h

/-! ## The best presence -/

section Presented

variable (s : Store) (name : String)

/-- The file of that name in a folder info. -/
def fileOf (fi : FolderInfoId) : Option FileInfo := (s.byName fi name).map s.files

/-- Its version. -/
def versionOf (fi : FolderInfoId) : Option Version := (fileOf s name fi).map FileInfo.version

/-- All files of that name. -/
def filesOf (fis : List FolderInfoId) : List FileInfo := fis.filterMap (fileOf s name)

/-- The entity of these files, with its presences in the order of the folder infos. -/
def entity (order : List FolderInfoId) : Presentation.Tree FolderInfoId where
  files fi _ := (fileOf s name fi).map fun file => ⟨file, (s.getSize file).getD 0⟩
  devices := order
  orphans := []
  children _ := [name]
  presences _ := (order.filter fun fi => (fileOf s name fi).isSome).map some
  best _ := none
  statistics _ := 0
  own _ _ := 0
  counted _ _ := 0
  linked _ _ := true
  height := 1

/-- The version of the best presence. -/
def presented (order : List FolderInfoId) : Option Version :=
  ((entity s name order).recalcBest [name]).bind (versionOf s name)

/-- The presence `a` replaces the best one so far, `c`. -/
def beats (a c : FolderInfoId) : Bool :=
  match fileOf s name a, fileOf s name c with
  | some f, some g => decide (0 ≤ Presentation.compare f g)
  | _, _ => false

/-- The files with the version `v` are preferred to all others, whichever comes first. -/
def Prevailing (files : List FileInfo) (v : Version) : Prop :=
  (∃ f ∈ files, f.version = v) ∧ ∀ f ∈ files, f.version = v → ∀ g ∈ files, g.version ≠ v →
    0 ≤ Presentation.compare f g ∧ Presentation.compare g f < 0

variable {s name}

theorem versionOf_eq {fi : FolderInfoId} {f : FileInfo} (hf : fileOf s name fi = some f) :
    versionOf s name fi = some f.version := by
  rw [versionOf, hf, Option.map_some]

theorem determineBest_entity (order : List FolderInfoId) (a c : FolderInfoId) :
    (entity s name order).determineBest [name] a c = if beats s name a c then a else c := by
  unfold Presentation.Tree.determineBest beats entity
  dsimp only
  cases fileOf s name a with
  | none => rfl
  | some f =>
    cases fileOf s name c with
    | none => rfl
    | some g => simp

/-- `recalc_best` is a fold over the devices that have the file. -/
theorem recalcBest_entity (order : List FolderInfoId) : (entity s name order).recalcBest [name] =
    Champion.champion (beats s name) (order.filter fun fi => (fileOf s name fi).isSome) := by
  have hparent : ((entity s name order).parent [name]).isSome = true := by
    simp [Presentation.Tree.parent, entity]
  unfold Presentation.Tree.recalcBest
  rw [if_pos hparent]
  show (((order.filter fun fi => (fileOf s name fi).isSome).map some).filterMap id).foldl _ none = _
  rw [List.filterMap_map, Function.id_comp, List.filterMap_some]
  unfold Champion.champion
  congr 1
  funext best a
  cases best with
  | none => rfl
  | some c => exact congrArg some (determineBest_entity order a c)

theorem mem_filesOf {fis : List FolderInfoId} {f : FileInfo} :
    f ∈ filesOf s name fis ↔ ∃ fi ∈ fis, fileOf s name fi = some f := List.mem_filterMap

theorem prevails_iff {fis : List FolderInfoId} {v : Version} :
    Champion.Prevails (beats s name) (versionOf s name)
      (fis.filter fun fi => (fileOf s name fi).isSome) (some v) ↔ Prevailing (filesOf s name fis) v := by
  have hmem : ∀ {fi : FolderInfoId} {f : FileInfo}, fi ∈ fis → fileOf s name fi = some f →
      fi ∈ fis.filter fun fi => (fileOf s name fi).isSome := fun hfi hf =>
    List.mem_filter.mpr ⟨hfi, by rw [hf]; rfl⟩
  have hfile : ∀ {fi : FolderInfoId}, (fi ∈ fis.filter fun fi => (fileOf s name fi).isSome) →
      ∃ f, fileOf s name fi = some f ∧ f ∈ filesOf s name fis := by
    intro fi hfi
    obtain ⟨hfi, hsome⟩ := List.mem_filter.mp hfi
    obtain ⟨f, hf⟩ := Option.isSome_iff_exists.mp hsome
    exact ⟨f, hf, mem_filesOf.mpr ⟨fi, hfi, hf⟩⟩
  constructor
  · rintro ⟨⟨c, hc, hkey⟩, hall⟩
    refine ⟨?_, fun f hf hfv g hg hgv => ?_⟩
    · obtain ⟨f, hf, hmem⟩ := hfile hc
      rw [versionOf_eq hf] at hkey
      exact ⟨f, hmem, Option.some.inj hkey⟩
    · obtain ⟨fi, hfi, hf⟩ := mem_filesOf.mp hf
      obtain ⟨gi, hgi, hg⟩ := mem_filesOf.mp hg
      have hbeats := hall fi (hmem hfi hf) (by rw [versionOf_eq hf, hfv]) gi (hmem hgi hg)
        (by rw [versionOf_eq hg]; exact fun h => hgv (Option.some.inj h))
      simpa [beats, hf, hg] using hbeats
  · rintro ⟨⟨f, hf, hfv⟩, hall⟩
    refine ⟨?_, fun c hc hcv b hb hbv => ?_⟩
    · obtain ⟨fi, hfi, hf⟩ := mem_filesOf.mp hf
      exact ⟨fi, hmem hfi hf, by rw [versionOf_eq hf, hfv]⟩
    · obtain ⟨f, hf, hfmem⟩ := hfile hc
      obtain ⟨g, hg, hgmem⟩ := hfile hb
      rw [versionOf_eq hf, Option.some.injEq] at hcv
      rw [versionOf_eq hg, ne_eq, Option.some.injEq] at hbv
      simpa [beats, hf, hg] using hall f hfmem hcv g hgmem hbv

/-- **The version of the best presence** does not depend on the order of the devices exactly if a version
prevails. -/
theorem presented_iff {fis : List FolderInfoId} {v : Version} :
    (∀ order, order.Perm fis → presented s name order = some v) ↔ Prevailing (filesOf s name fis) v := by
  let has : FolderInfoId → Bool := fun fi => (fileOf s name fi).isSome
  have hfile : ∀ a ∈ fis.filter has, ∃ f, fileOf s name a = some f := fun a ha =>
    Option.isSome_iff_exists.mp (List.mem_filter.mp ha).2
  rw [← prevails_iff, ← Champion.champion_iff]
  · constructor
    · intro hall l hl
      -- the devices without the file do not matter
      have horder : (l ++ fis.filter fun fi => !has fi).Perm fis :=
        (hl.append_right _).trans (List.filter_append_perm has fis)
      have hfilter : (l ++ fis.filter fun fi => !has fi).filter has = l := by
        rw [List.filter_append, List.filter_filter, List.filter_eq_self.mpr fun a ha =>
          (List.mem_filter.mp (hl.mem_iff.mp ha)).2]
        simp
      have h := hall _ horder
      rw [presented, recalcBest_entity, hfilter] at h
      exact Option.bind_eq_some_iff.mp h
    · intro hall order horder
      rw [presented, recalcBest_entity]
      exact Option.bind_eq_some_iff.mpr (hall _ (horder.filter has))
  · intro a ha b hb hkey
    obtain ⟨f, hf⟩ := hfile a ha
    obtain ⟨g, hg⟩ := hfile b hb
    rw [versionOf_eq hf, versionOf_eq hg, Option.some.injEq] at hkey
    simpa [beats, hf, hg] using compare_of_same_version hkey
  · intro a ha b hb c hc hkey hca hcb hac
    obtain ⟨f, hf⟩ := hfile a ha
    obtain ⟨f', hf'⟩ := hfile b hb
    obtain ⟨g, hg⟩ := hfile c hc
    rw [versionOf_eq hf, versionOf_eq hf', Option.some.injEq] at hkey
    simp only [beats, hf, hf', hg, decide_eq_true_eq, decide_eq_false_iff_not, not_le] at hca hcb hac ⊢
    exact compare_like hkey hca hcb hac

theorem filesOf_perm {fis order : List FolderInfoId} (h : order.Perm fis) {f : FileInfo} :
    f ∈ filesOf s name order ↔ f ∈ filesOf s name fis := (h.filterMap _).mem_iff

/-- There is a best presence if any device has the file. -/
theorem presented_eq_none_iff {order : List FolderInfoId} :
    presented s name order = none ↔ filesOf s name order = [] := by
  rw [presented, recalcBest_entity]
  constructor
  · intro h
    rw [List.eq_nil_iff_forall_not_mem]
    intro f hf
    obtain ⟨fi, hfi, hf⟩ := mem_filesOf.mp hf
    have hmem : fi ∈ order.filter fun fi => (fileOf s name fi).isSome :=
      List.mem_filter.mpr ⟨hfi, by rw [hf]; rfl⟩
    obtain ⟨a, l, hl⟩ := List.exists_cons_of_ne_nil (List.ne_nil_of_mem hmem)
    have hchampion := @Champion.champion_cons _ (beats s name) a l
    rw [← hl] at hchampion
    obtain ⟨g, hg⟩ := Option.isSome_iff_exists.mp (List.mem_filter.mp (Champion.champion_mem hchampion)).2
    rw [hchampion, Option.bind_some, versionOf_eq hg] at h
    cases h
  · intro h
    have hnil : (order.filter fun fi => (fileOf s name fi).isSome) = [] := by
      rw [List.filter_eq_nil_iff]
      intro fi hfi hsome
      obtain ⟨f, hf⟩ := Option.isSome_iff_exists.mp hsome
      have hmem : f ∈ filesOf s name order := mem_filesOf.mpr ⟨fi, hfi, hf⟩
      rw [h] at hmem
      cases hmem
    rw [hnil]
    rfl

end Presented

/-! ## The original -/

section Adopted

open Advance

variable (host : Host) (s : Store) (found : Proto.FileInfo)

/-- The version of what `get_original` returns. -/
def adopted (order : List FolderInfoId) : Option (Option Version) :=
  (getOriginal host s order found).map fun r => r.map fun f => (s.files f).version

/-- The version of a peer's file that passes the comparison. -/
def candidateVersion (fi : FolderInfoId) : Option Version :=
  (candidate host s found fi).map fun f => (s.files f).version

variable {host s found}

theorem adopted_eq {order : List FolderInfoId} (h : ∀ fi ∈ order, Sized host s found fi) :
    adopted host s found order = some (order.findSome? (candidateVersion host s found)) := by
  rw [adopted, getOriginal_eq h, Option.map_some, List.map_findSome?]
  rfl

/-- **The version of the original** does not depend on the order of the peers exactly if all candidates
have the same one. -/
theorem adopted_iff {fis : List FolderInfoId} :
    (∃ v, ∀ order, order.Perm fis → adopted host s found order = some v) ↔
      (∀ fi ∈ fis, Sized host s found fi) ∧ ∀ fi ∈ fis, ∀ gi ∈ fis, ∀ v ∈ candidateVersion host s found fi,
        ∀ w ∈ candidateVersion host s found gi, v = w := by
  constructor
  · rintro ⟨x, hall⟩
    have hsized : ∀ fi ∈ fis, Sized host s found fi := by
      obtain ⟨r, hr, -⟩ := Option.map_eq_some_iff.mp (hall fis (.refl fis))
      exact sized_of_getOriginal hr
    -- the first peer decides
    have hfirst : ∀ fi ∈ fis, ∀ v ∈ candidateVersion host s found fi, x = some v := by
      intro fi hfi v hv
      have hperm : (fi :: fis.erase fi).Perm fis := (List.perm_cons_erase hfi).symm
      have horder := hall _ hperm
      rw [adopted_eq fun gi hgi => hsized gi (hperm.mem_iff.mp hgi), List.findSome?_cons, Option.mem_def.mp hv,
        Option.some.injEq] at horder
      exact horder.symm
    exact ⟨hsized, fun fi hfi gi hgi v hv w hw =>
      Option.some.inj ((hfirst fi hfi v hv).symm.trans (hfirst gi hgi w hw))⟩
  · rintro ⟨hsized, hsame⟩
    refine ⟨fis.findSome? (candidateVersion host s found), fun order horder => ?_⟩
    rw [adopted_eq fun fi hfi => hsized fi (horder.mem_iff.mp hfi), Option.some.injEq]
    cases hv : order.findSome? (candidateVersion host s found) with
    | none =>
      refine (List.findSome?_eq_none_iff.mpr fun fi hfi => ?_).symm
      exact List.findSome?_eq_none_iff.mp hv fi (horder.mem_iff.mpr hfi)
    | some v =>
      obtain ⟨fi, hfi, hfv⟩ := List.exists_of_findSome?_eq_some hv
      cases hw : fis.findSome? (candidateVersion host s found) with
      | none =>
        rw [List.findSome?_eq_none_iff.mp hw fi (horder.mem_iff.mp hfi)] at hfv
        cases hfv
      | some w =>
        obtain ⟨gi, hgi, hgw⟩ := List.exists_of_findSome?_eq_some hw
        exact congrArg some (hsame fi (horder.mem_iff.mp hfi) gi hgi v hfv w hgw)

end Adopted

/-! ## Both -/

section OrderFree

open Advance

variable (host : Host) (s : Store) (found : Proto.FileInfo) (fis : List FolderInfoId)

/-- What is claimed: both versions are the same for all orders of the devices, no version they are chosen
from strictly dominates them, and where both choose from the same files, they choose the same version. -/
structure OrderFree : Prop where
  presented : ∃ v, ∀ order, order.Perm fis → presented s found.name order = v ∧
    ∀ w ∈ v, ∀ f ∈ filesOf s found.name fis, ¬ f.version.StrictlyDominates w
  adopted : ∃ v, ∀ order, order.Perm fis → adopted host s found order = some v ∧
    ∀ w ∈ v, ∀ fi ∈ fis, ∀ u ∈ candidateVersion host s found fi, ¬ u.StrictlyDominates w
  agree : (∀ fi ∈ fis, candidateVersion host s found fi = versionOf s found.name fi) →
    ∀ order, order.Perm fis → BestFile.adopted host s found order = some (BestFile.presented s found.name order)

/-- When it holds: there is a version whose files are preferred to all others, whichever comes first, and
which no other version dominates; and the peers' files that pass the comparison have the same version. -/
structure Settled : Prop where
  prevailing : filesOf s found.name fis = [] ∨ ∃ v, Prevailing (filesOf s found.name fis) v ∧
    ∀ f ∈ filesOf s found.name fis, ¬ f.version.StrictlyDominates v
  sized : ∀ fi ∈ fis, Sized host s found fi
  candidates : ∀ fi ∈ fis, ∀ gi ∈ fis, ∀ v ∈ candidateVersion host s found fi,
    ∀ w ∈ candidateVersion host s found gi, v = w

variable {host s found fis}

/-- The version of the best presence, or none if nobody has the file. -/
theorem Settled.presented (h : Settled host s found fis) :
    ∃ v, (∀ order, order.Perm fis → presented s found.name order = v) ∧
      ∀ w ∈ v, (∃ f ∈ filesOf s found.name fis, f.version = w) ∧
        ∀ f ∈ filesOf s found.name fis, ¬ f.version.StrictlyDominates w := by
  rcases h.prevailing with hnil | ⟨v, hprevails, hdominates⟩
  · refine ⟨none, fun order horder => presented_eq_none_iff.mpr ?_, fun w hw => by cases hw⟩
    rw [List.eq_nil_iff_forall_not_mem]
    intro f hf
    rw [filesOf_perm horder, hnil] at hf
    cases hf
  · refine ⟨some v, presented_iff.mpr hprevails, fun w hw => ?_⟩
    cases hw
    exact ⟨hprevails.1, hdominates⟩

/-- The version of the original is that of a candidate, if there is one. -/
theorem Settled.adopted (h : Settled host s found fis) :
    ∃ v, (∀ order, order.Perm fis → adopted host s found order = some v) ∧
      (∀ w ∈ v, ∃ fi ∈ fis, candidateVersion host s found fi = some w) ∧
      (v = none → ∀ fi ∈ fis, candidateVersion host s found fi = none) := by
  obtain ⟨v, hadopted⟩ := adopted_iff.mpr ⟨h.sized, h.candidates⟩
  have hfis := hadopted fis (.refl fis)
  rw [adopted_eq h.sized, Option.some.injEq] at hfis
  refine ⟨v, hadopted, fun w hw => ?_, fun hnone => ?_⟩
  · rw [Option.mem_def.mp hw] at hfis
    exact List.exists_of_findSome?_eq_some hfis
  · rw [hnone] at hfis
    exact List.findSome?_eq_none_iff.mp hfis

/-- If both choose from the same files, they choose the same version. -/
theorem Settled.agree (h : Settled host s found fis)
    (hall : ∀ fi ∈ fis, candidateVersion host s found fi = versionOf s found.name fi)
    {order : List FolderInfoId} (horder : order.Perm fis) :
    BestFile.adopted host s found order = some (BestFile.presented s found.name order) := by
  obtain ⟨v, hpresented, hv⟩ := h.presented
  obtain ⟨x, hadopted, hx, hnone⟩ := h.adopted
  rw [hadopted order horder, hpresented order horder, Option.some.injEq]
  cases v with
  | none =>
    have hnil := presented_eq_none_iff.mp (hpresented fis (.refl fis))
    cases hxv : x with
    | none => rfl
    | some w =>
      obtain ⟨fi, hfi, hw⟩ := hx w hxv
      obtain ⟨f, hf, -⟩ := Option.map_eq_some_iff.mp ((hall fi hfi).symm.trans hw)
      have hmem : f ∈ filesOf s found.name fis := mem_filesOf.mpr ⟨fi, hfi, hf⟩
      rw [hnil] at hmem
      cases hmem
  | some v =>
    obtain ⟨⟨f, hf, rfl⟩, -⟩ := hv v rfl
    obtain ⟨fi, hfi, hf⟩ := mem_filesOf.mp hf
    have hcandidate := (hall fi hfi).trans (versionOf_eq hf)
    cases hxv : x with
    | none =>
      rw [hnone hxv fi hfi] at hcandidate
      cases hcandidate
    | some w =>
      obtain ⟨gi, hgi, hgw⟩ := hx w hxv
      exact congrArg some (h.candidates gi hgi fi hfi w hgw f.version hcandidate)

/-- **The best file does not depend on the order of the devices** exactly if it is settled. -/
theorem orderFree_iff (host : Host) (s : Store) (found : Proto.FileInfo) (fis : List FolderInfoId) :
    OrderFree host s found fis ↔ Settled host s found fis := by
  constructor
  · intro h
    obtain ⟨hsized, hcandidates⟩ := adopted_iff.mp (h.adopted.imp fun v hv order horder => (hv order horder).1)
    refine ⟨?_, hsized, hcandidates⟩
    obtain ⟨v, hv⟩ := h.presented
    cases v with
    | none => exact .inl (presented_eq_none_iff.mp (hv fis (.refl fis)).1)
    | some v =>
      exact .inr ⟨v, presented_iff.mp fun order horder => (hv order horder).1, (hv fis (.refl fis)).2 v rfl⟩
  · intro h
    obtain ⟨v, hpresented, hv⟩ := h.presented
    obtain ⟨x, hadopted, hx, -⟩ := h.adopted
    refine ⟨⟨v, fun order horder => ⟨hpresented order horder, fun w hw => (hv w hw).2⟩⟩,
      ⟨x, fun order horder => ⟨hadopted order horder, fun w hw fi hfi u hu => ?_⟩⟩,
      fun hall _ horder => h.agree hall horder⟩
    -- all candidates have the version that is chosen
    obtain ⟨gi, hgi, hgw⟩ := hx w hw
    rw [h.candidates fi hfi gi hgi u hu w hgw]
    exact fun hdominates => hdominates.2 hdominates.1

end OrderFree

/-- A directory that somebody has changed at that time. -/
def changedDir (counters : List Proto.Counter) (modifiedS : Int) : FileInfo :=
  { (default : FileInfo) with
    name := "a", type := .dir, content := .nonFile "", version := .ofProto ⟨counters⟩, modifiedS := modifiedS }

/-- Three peers have the directory. The device 3 has got the version of the device 1 and gone back to
an older time; the device 2 has changed the directory on its own, between the two times. -/
def threePeers : Store :=
  { Store.initial fun fi => ⟨default, [fi.toUInt8 + 1], [fi], 1, 0, []⟩ with
    files := fun f => match f with
      | 0 => changedDir [⟨1, 1⟩] 30
      | 1 => changedDir [⟨2, 5⟩] 20
      | _ => changedDir [⟨1, 1⟩, ⟨3, 7⟩] 10
    nextFile := 3 }

def foundDir : Proto.FileInfo := { (default : Proto.FileInfo) with name := "a", type := .directory }

/-- The local device is none of the three: each of the first two files is preferred to the next one, and
the last one to the first. -/
theorem best_depends_on_order :
    presented threePeers "a" [0, 1, 2] = some (.ofProto ⟨[⟨1, 1⟩, ⟨3, 7⟩]⟩) ∧
    presented threePeers "a" [1, 2, 0] = some (.ofProto ⟨[⟨1, 1⟩]⟩) ∧
    adopted ⟨[9], 9, FileInfo.name⟩ threePeers foundDir [0, 1, 2] = some (some (.ofProto ⟨[⟨1, 1⟩]⟩)) ∧
    adopted ⟨[9], 9, FileInfo.name⟩ threePeers foundDir [1, 2, 0] = some (some (.ofProto ⟨[⟨2, 5⟩]⟩)) ∧
    ¬ OrderFree ⟨[9], 9, FileInfo.name⟩ threePeers foundDir [0, 1, 2] := by
  have hfirst : presented threePeers "a" [0, 1, 2] = some (.ofProto ⟨[⟨1, 1⟩, ⟨3, 7⟩]⟩) := by decide
  have hsecond : presented threePeers "a" [1, 2, 0] = some (.ofProto ⟨[⟨1, 1⟩]⟩) := by decide
  refine ⟨hfirst, hsecond, by decide, by decide, fun h => ?_⟩
  obtain ⟨v, hv⟩ := h.presented
  have heq := (hv [0, 1, 2] (.refl _)).1.trans (hv [1, 2, 0] (by decide)).1.symm
  rw [show foundDir.name = "a" from rfl, hfirst, hsecond] at heq
  exact absurd heq (by decide)

end BestFile

end SyncSpirit
