import SyncSpirit.FolderEntity

/-!
# The presentation tree of some files (`presentation/folder_entity.cpp`)

`Presents` says what the tree of a folder is for: each path has one entity, it is below the entity of its
parent path, or it is an orphan if there is none, and each device that has the file is a presence.
`presents_iff` says when the tree does not depend on the order in which the files have come: an entity whose
parent is an orphan is below it if it has been constructed, but an orphan itself if it has been inserted.
-/

namespace SyncSpirit

namespace Hierarchy

/-! ## Constructing -/

section Construct

variable {δ : Type} [DecidableEq δ] {t t' : Folder δ} {placed : List Path} {i j : Nat} {p : Path}
  {e f : Entity δ}

theorem fullName_lt {n : String} (hp : p ≠ []) : fullName p < fullName (n :: p) := by
  cases p with
  | nil => exact absurd rfl hp
  | cons m q =>
    show fullName (m :: q) < fullName (m :: q) ++ '/' :: n.toList
    generalize fullName (m :: q) = l
    induction l with
    | nil => exact List.Lex.nil
    | cons c l ih => exact List.Lex.cons ih

/-- A file comes after its parent. -/
theorem ordered {paths : List Path} (hnil : [] ∉ paths) : (paths.dedup.insertionSort fun p q =>
    fullName p ≤ fullName q).Pairwise fun p q => p ≠ q ∧ p.tail ≠ q := by
  have hsorted : (paths.dedup.insertionSort fun p q => fullName p ≤ fullName q).Pairwise fun p q =>
      fullName p ≤ fullName q := by
    have : IsTrans Path fun p q => fullName p ≤ fullName q := ⟨fun _ _ _ => le_trans⟩
    have : Std.Total (α := Path) fun p q => fullName p ≤ fullName q := ⟨fun _ _ => le_total _ _⟩
    exact List.pairwise_insertionSort _ _
  have hnodup := (List.perm_insertionSort (fun p q => fullName p ≤ fullName q) paths.dedup).nodup_iff.mpr
    (List.nodup_dedup paths)
  refine (hsorted.and hnodup).imp_of_mem fun {p q} hp hq h => ⟨h.2, ?_⟩
  rintro rfl
  have hmem : p.tail ∈ paths := by
    rw [List.mem_insertionSort, List.mem_dedup] at hq
    exact hq
  cases p with
  | nil => exact hnil hmem
  | cons n q => exact absurd h.1 (not_le_of_gt (fullName_lt fun hq => hnil (hq ▸ hmem)))

/-- A file whose parent has been met is below it. -/
theorem processFile_cases (h : Joined t) (hp : p ≠ []) :
    (∃ i e, t.entities[i]? = some e ∧ e.path = p.tail ∧
      t.processFile p = (t.newEntity p).addChild i t.entities.length) ∨
    ¬ t.Has p.tail ∧ t.processFile p = t.push p := by
  by_cases hlen : p.length = 1
  · obtain ⟨r, hr, hnil, -⟩ := h.root
    obtain ⟨n, rfl⟩ := List.length_eq_one_iff.mp hlen
    exact .inl ⟨0, r, hr, hnil, rfl⟩
  · unfold Folder.processFile
    rw [if_neg hlen]
    cases hfind : t.entities.findIdx? fun e => decide (e.path = p.tail) with
    | some i =>
      obtain ⟨hi, hpath, -⟩ := List.findIdx?_eq_some_iff_getElem.mp hfind
      exact .inl ⟨i, t.entities[i], List.getElem?_eq_getElem hi, of_decide_eq_true hpath, rfl⟩
    | none =>
      refine .inr ⟨?_, rfl⟩
      rintro ⟨i, e, he, hpath⟩
      exact of_decide_eq_false (List.findIdx?_eq_none_iff.mp hfind e (List.mem_of_getElem? he)) hpath

/-- The tree of the files that have been met. -/
structure Constructed (placed : List Path) (t : Folder δ) : Prop where
  joined : Joined t
  paths : ∀ p, p ≠ [] → (t.Has p ↔ p ∈ placed)
  attached : ∀ (i j : Nat) (e f : Entity δ), t.entities[i]? = some e → t.entities[j]? = some f →
    e.path.tail? = some f.path → e.parent = some j
  presences : ∀ (i : Nat) (e : Entity δ), t.entities[i]? = some e → e.path ≠ [] →
    ∀ d, d ∈ e.presences ↔ d ∈ t.devices ∧ (d, e.path) ∈ t.files

theorem Constructed.push_attached (h : Constructed placed t) (hp : p ≠ [])
    (hafter : ∀ q ∈ placed, q.tail ≠ p) (he : (t.push p).entities[i]? = some e)
    (hf : (t.push p).entities[j]? = some f) (htail : e.path.tail? = some f.path) :
    t.entities[i]? = some e ∧ e.parent = some j ∨
      i = t.entities.length ∧ e.path = p ∧ t.entities[j]? = some f := by
  rcases getElem?_concat_iff.mp he with he | ⟨rfl, rfl⟩ <;>
    rcases getElem?_concat_iff.mp hf with hf | ⟨rfl, rfl⟩
  · exact .inl ⟨he, h.attached i j e f he hf htail⟩
  · obtain ⟨n, hpath⟩ : ∃ n, e.path = n :: p := by
      cases hpath : e.path with
      | nil => rw [hpath] at htail; cases htail
      | cons n q => rw [hpath] at htail; exact ⟨n, congrArg _ (Option.some.inj htail)⟩
    refine absurd (congrArg List.tail hpath) (hafter _ ((h.paths _ ?_).mp ⟨i, e, he, rfl⟩))
    rw [hpath]
    exact List.cons_ne_nil n p
  · exact .inr ⟨rfl, rfl, hf⟩
  · cases p with
    | nil => exact absurd rfl hp
    | cons n q => simp at htail

theorem Constructed.push_presences (h : Constructed placed t) (he : (t.push p).entities[i]? = some e)
    (hpath : e.path ≠ []) (d : δ) : d ∈ e.presences ↔ d ∈ t.devices ∧ (d, e.path) ∈ t.files := by
  rcases getElem?_concat_iff.mp he with he | ⟨rfl, rfl⟩
  · exact h.presences i e he hpath d
  · dsimp only
    rw [List.mem_filter, decide_eq_true_iff]

theorem Constructed.push_paths {q : Path} (h : Constructed placed t) (hq : q ≠ []) :
    (t.push p).Has q ↔ q ∈ placed ++ [p] := by
  rw [push_has, h.paths q hq, List.mem_append, List.mem_singleton]

/-- **One file.** -/
theorem Constructed.processFile (h : Constructed placed t) (hp : p ≠ []) (hnew : p ∉ placed)
    (hafter : ∀ q ∈ placed, q.tail ≠ p) : Constructed (placed ++ [p]) (t.processFile p) ∧
      (t.processFile p).devices = t.devices ∧ (t.processFile p).files = t.files := by
  have hpushed := h.joined.push fun hhas => hnew ((h.paths p hp).mp hhas)
  have hcget : (t.push p).entities[t.entities.length]? =
      some ⟨p, t.devices.filter fun d => (d, p) ∈ t.files, none, []⟩ :=
    getElem?_concat_iff.mpr (.inr ⟨rfl, rfl⟩)
  have htail? : p.tail? = some p.tail := by
    cases p with
    | nil => exact absurd rfl hp
    | cons n q => rfl
  rcases processFile_cases h.joined hp with ⟨i, e, he, hpath, heq⟩ | ⟨hno, heq⟩
  · have hine : i ≠ t.entities.length := Nat.ne_of_lt (List.getElem?_eq_some_iff.mp he).1
    obtain ⟨hadopted, hjoined⟩ := adopt_spec hpushed (getElem?_concat_iff.mpr (.inl he)) hine
      (List.mem_append_right _ (List.mem_singleton.mpr rfl)) hcget (htail?.trans (congrArg some hpath.symm))
    rw [h.joined.adopt_push, ← heq] at hadopted hjoined
    refine ⟨⟨hjoined, fun q hq => hadopted.framed.has.trans (h.push_paths hq), ?_, ?_⟩,
      hadopted.devices, hadopted.files⟩
    · intro k j g' f' hg' hf' htail
      obtain ⟨g, hg, rfl⟩ := hadopted.get.mp hg'
      obtain ⟨f, hf, rfl⟩ := hadopted.get.mp hf'
      rcases h.push_attached hp hafter hg hf htail with ⟨hg, hparent⟩ | ⟨rfl, rfl, hold⟩
      · have hne : k ≠ t.entities.length := Nat.ne_of_lt (List.getElem?_eq_some_iff.mp hg).1
        simpa [Entity.relink, hne] using hparent
      · have hfpath : f.path = g.path.tail := Option.some.inj (htail.symm.trans htail?)
        obtain rfl := h.joined.unique i j e f he hold (hpath.trans hfpath.symm)
        simp [Entity.relink]
    · intro k g' hg' hne d
      obtain ⟨g, hg, rfl⟩ := hadopted.get.mp hg'
      rw [hadopted.devices, hadopted.files]
      exact h.push_presences hg hne d
  · rw [heq]
    refine ⟨⟨hpushed, fun q hq => h.push_paths hq, ?_, fun k g hg hne d => h.push_presences hg hne d⟩,
      rfl, rfl⟩
    intro k j g f hg hf htail
    rcases h.push_attached hp hafter hg hf htail with ⟨-, hparent⟩ | ⟨-, rfl, hold⟩
    · exact hparent
    · exact absurd ⟨j, f, hold, Option.some.inj (htail.symm.trans htail?)⟩ hno

theorem Constructed.run {rest : List Path} (h : Constructed placed t)
    (hrest : ∀ p ∈ rest, p ≠ []) (hordered : (placed ++ rest).Pairwise fun p q => p ≠ q ∧ p.tail ≠ q) :
    Constructed (placed ++ rest) (rest.foldl Folder.processFile t) ∧
      (rest.foldl Folder.processFile t).devices = t.devices ∧
      (rest.foldl Folder.processFile t).files = t.files := by
  induction rest generalizing placed t with
  | nil =>
    rw [List.append_nil]
    exact ⟨h, rfl, rfl⟩
  | cons p rest ih =>
    have hbefore : ∀ q ∈ placed, q ≠ p ∧ q.tail ≠ p := fun q hq =>
      (List.pairwise_append.mp hordered).2.2 q hq p (List.mem_cons_self ..)
    obtain ⟨hstep, hdevices, hfiles⟩ := h.processFile (hrest p (List.mem_cons_self ..))
      (fun hin => (hbefore p hin).1 rfl) fun q hq => (hbefore q hq).2
    rw [← List.singleton_append, ← List.append_assoc] at hordered
    obtain ⟨hend, hdevices', hfiles'⟩ :=
      ih hstep (fun q hq => hrest q (List.mem_cons_of_mem _ hq)) hordered
    rw [List.append_assoc, List.singleton_append] at hend
    exact ⟨hend, hdevices'.trans hdevices, hfiles'.trans hfiles⟩

omit [DecidableEq δ] in
theorem empty_get {devices : List δ} {files : List (δ × Path)} :
    (Folder.empty devices files).entities[i]? = some e ↔ i = 0 ∧ e = ⟨[], devices, none, []⟩ := by
  cases i with
  | zero => simp [Folder.empty, eq_comm]
  | succ i => simp [Folder.empty]

omit [DecidableEq δ] in
theorem linked_empty {devices : List δ} {files : List (δ × Path)} :
    Linked (Folder.empty devices files) := by
  refine ⟨⟨⟨_, empty_get.mpr ⟨rfl, rfl⟩, rfl, rfl⟩, ?_, ?_, ?_, ?_, List.nodup_nil⟩, ?_⟩
  · intro i j e f he hf _
    exact (empty_get.mp he).1.trans (empty_get.mp hf).1.symm
  · intro i c e he
    obtain ⟨-, rfl⟩ := empty_get.mp he
    refine iff_of_false List.not_mem_nil ?_
    rintro ⟨f, hf, hparent⟩
    obtain ⟨-, rfl⟩ := empty_get.mp hf
    cases hparent
  · intro c i f hf hparent
    obtain ⟨-, rfl⟩ := empty_get.mp hf
    cases hparent
  · intro i
    refine iff_of_false List.not_mem_nil ?_
    rintro ⟨hi, e, he, -⟩
    exact hi (empty_get.mp he).1
  · intro c i f e hf hparent
    obtain ⟨-, rfl⟩ := empty_get.mp hf
    cases hparent

omit [DecidableEq δ] in
theorem empty_has {devices : List δ} {files : List (δ × Path)} :
    (Folder.empty devices files).Has p ↔ p = [] := by
  constructor
  · rintro ⟨i, e, he, rfl⟩
    rw [(empty_get.mp he).2]
  · rintro rfl
    exact ⟨0, _, empty_get.mpr ⟨rfl, rfl⟩, rfl⟩

theorem constructed_construct (devices : List δ) {files : List (δ × Path)}
    (hfiles : ∀ r ∈ files, r.2 ≠ []) :
    Constructed ((files.map Prod.snd).dedup.insertionSort fun p q => fullName p ≤ fullName q)
        (Folder.construct devices files) ∧
      (Folder.construct devices files).devices = devices ∧
      (Folder.construct devices files).files = files := by
  have hnil : [] ∉ files.map Prod.snd := by
    intro hin
    obtain ⟨r, hr, hnil⟩ := List.mem_map.mp hin
    exact hfiles r hr hnil
  have hempty : Constructed [] (Folder.empty devices files) := by
    refine ⟨linked_empty.toJoined, fun p hp => ?_, fun i j e f he hf htail => ?_, fun i e he hpath => ?_⟩
    · rw [empty_has]
      exact iff_of_false hp List.not_mem_nil
    · rw [(empty_get.mp he).2] at htail
      cases htail
    · rw [(empty_get.mp he).2] at hpath
      exact absurd rfl hpath
  refine hempty.run (fun p hp => ?_) (ordered hnil)
  rintro rfl
  exact hnil (List.mem_dedup.mp ((List.mem_insertionSort _).mp hp))

end Construct

/-! ## The tree of some records -/

section Presents

variable {δ : Type} {t t' : Folder δ} {records : List (δ × Path)} {i j : Nat} {e f : Entity δ}
  {p q : Path}

/-- A path of the records, or the one of the folder. -/
def Listed (records : List (δ × Path)) (p : Path) : Prop := p = [] ∨ ∃ d, (d, p) ∈ records

/-- The tree that some records stand for. -/
structure Presents (records : List (δ × Path)) (t : Folder δ) : Prop where
  one : ∀ p, Listed records p → ∃! i : Nat, ∃ e : Entity δ, t.entities[i]? = some e ∧ e.path = p
  only : ∀ (i : Nat) (e : Entity δ), t.entities[i]? = some e → Listed records e.path
  attached : ∀ (i j : Nat) (e : Entity δ), t.entities[i]? = some e →
    (e.parent = some j ↔ ∃ f : Entity δ, t.entities[j]? = some f ∧ e.path.tail? = some f.path)
  children : ∀ (i j : Nat) (f : Entity δ), t.entities[j]? = some f →
    (i ∈ f.children ↔ ∃ e : Entity δ, t.entities[i]? = some e ∧ e.path.tail? = some f.path)
  orphans : ∀ i : Nat, i ∈ t.orphans ↔ ∃ e : Entity δ, t.entities[i]? = some e ∧ e.path ≠ [] ∧
    ¬ Listed records e.path.tail
  complete : ∀ (i : Nat) (e : Entity δ), t.entities[i]? = some e → Rooted (Listed records) e.path →
    i ∉ t.orphans
  presences : ∀ (i : Nat) (e : Entity δ), t.entities[i]? = some e → e.path ≠ [] → ∀ d,
    d ∈ e.presences ↔ (d, e.path) ∈ records

/-- The path of an entity. -/
def Folder.pathAt (t : Folder δ) (i : Nat) : Option Path := (t.entities[i]?).map Entity.path

/-- Two trees that differ in the identities of their entities only. -/
structure Same (t t' : Folder δ) : Prop where
  has : ∀ p, t.Has p ↔ t'.Has p
  parent : ∀ (i j : Nat) (e f : Entity δ), t.entities[i]? = some e → t'.entities[j]? = some f →
    e.path = f.path → e.parent.bind t.pathAt = f.parent.bind t'.pathAt
  children : ∀ (i j : Nat) (e f : Entity δ), t.entities[i]? = some e → t'.entities[j]? = some f →
    e.path = f.path → ∀ p, some p ∈ e.children.map t.pathAt ↔ some p ∈ f.children.map t'.pathAt
  orphans : ∀ p, some p ∈ t.orphans.map t.pathAt ↔ some p ∈ t'.orphans.map t'.pathAt
  presences : ∀ (i j : Nat) (e f : Entity δ), t.entities[i]? = some e → t'.entities[j]? = some f →
    e.path = f.path → e.path ≠ [] → ∀ d, d ∈ e.presences ↔ d ∈ f.presences

theorem pathAt_eq : t.pathAt i = some p ↔ ∃ e, t.entities[i]? = some e ∧ e.path = p :=
  Option.map_eq_some_iff

theorem Presents.has (h : Presents records t) : t.Has p ↔ Listed records p := by
  constructor
  · rintro ⟨i, e, he, rfl⟩
    exact h.only i e he
  · intro hp
    obtain ⟨i, ⟨e, he, hpath⟩, -⟩ := h.one p hp
    exact ⟨i, e, he, hpath⟩

theorem Presents.parent_path (h : Presents records t) (he : t.entities[i]? = some e) :
    e.parent.bind t.pathAt = some q ↔ e.path.tail? = some q ∧ Listed records q := by
  rw [Option.bind_eq_some_iff]
  constructor
  · rintro ⟨j, hparent, hq⟩
    obtain ⟨f, hf, htail⟩ := (h.attached i j e he).mp hparent
    obtain ⟨f', hf', rfl⟩ := pathAt_eq.mp hq
    obtain rfl := Option.some.inj (hf.symm.trans hf')
    exact ⟨htail, h.only j f hf⟩
  · rintro ⟨htail, hq⟩
    obtain ⟨j, f, hf, rfl⟩ := h.has.mpr hq
    exact ⟨j, (h.attached i j e he).mpr ⟨f, hf, htail⟩, pathAt_eq.mpr ⟨f, hf, rfl⟩⟩

theorem Presents.child_paths (h : Presents records t) (he : t.entities[i]? = some e) :
    some p ∈ e.children.map t.pathAt ↔ p.tail? = some e.path ∧ Listed records p := by
  rw [List.mem_map]
  constructor
  · rintro ⟨c, hc, hp⟩
    obtain ⟨f, hf, htail⟩ := (h.children c i e he).mp hc
    obtain ⟨f', hf', rfl⟩ := pathAt_eq.mp hp
    obtain rfl := Option.some.inj (hf.symm.trans hf')
    exact ⟨htail, h.only c f hf⟩
  · rintro ⟨htail, hp⟩
    obtain ⟨c, f, hf, rfl⟩ := h.has.mpr hp
    exact ⟨c, (h.children c i e he).mpr ⟨f, hf, htail⟩, pathAt_eq.mpr ⟨f, hf, rfl⟩⟩

theorem Presents.orphan_paths (h : Presents records t) : some p ∈ t.orphans.map t.pathAt ↔
    Listed records p ∧ p ≠ [] ∧ ¬ Listed records p.tail := by
  rw [List.mem_map]
  constructor
  · rintro ⟨c, hc, hp⟩
    obtain ⟨e, he, hne, hno⟩ := (h.orphans c).mp hc
    obtain ⟨e', he', rfl⟩ := pathAt_eq.mp hp
    obtain rfl := Option.some.inj (he.symm.trans he')
    exact ⟨h.only c e he, hne, hno⟩
  · rintro ⟨hp, hne, hno⟩
    obtain ⟨c, e, he, rfl⟩ := h.has.mpr hp
    exact ⟨c, (h.orphans c).mpr ⟨e, he, hne, hno⟩, pathAt_eq.mpr ⟨e, he, rfl⟩⟩

/-- There is one tree of some records. -/
theorem Presents.same (h : Presents records t) (h' : Presents records t') : Same t t' := by
  refine ⟨fun p => h.has.trans h'.has.symm, fun i j e f he hf hpath => ?_, fun i j e f he hf hpath p => ?_,
    fun p => h.orphan_paths.trans h'.orphan_paths.symm, fun i j e f he hf hpath hne d => ?_⟩
  · refine Option.ext fun q => ?_
    rw [h.parent_path he, h'.parent_path hf, hpath]
  · rw [h.child_paths he, h'.child_paths hf, hpath]
  · rw [h.presences i e he hne, h'.presences j f hf (hpath ▸ hne), hpath]

/-- What remains to be shown of a tree whose links agree. -/
theorem Joined.presents (h : Joined t) (hpaths : ∀ p, p ≠ [] → (t.Has p ↔ ∃ d, (d, p) ∈ records))
    (hattached : ∀ (i j : Nat) (e f : Entity δ), t.entities[i]? = some e → t.entities[j]? = some f →
      e.path.tail? = some f.path → e.parent = some j)
    (hpresences : ∀ (i : Nat) (e : Entity δ), t.entities[i]? = some e → e.path ≠ [] → ∀ d,
      d ∈ e.presences ↔ (d, e.path) ∈ records) : Presents records t := by
  obtain ⟨r, hr, hnil, hnone⟩ := h.root
  have hhas : ∀ p, t.Has p ↔ Listed records p := by
    intro p
    by_cases hp : p = []
    · exact iff_of_true ⟨0, r, hr, hnil.trans hp.symm⟩ (.inl hp)
    · rw [hpaths p hp]
      exact ⟨.inr, fun hlisted => hlisted.resolve_left hp⟩
  have hparent : ∀ (i j : Nat) (e : Entity δ), t.entities[i]? = some e →
      (e.parent = some j ↔ ∃ f : Entity δ, t.entities[j]? = some f ∧ e.path.tail? = some f.path) := by
    intro i j e he
    constructor
    · intro hparent
      obtain ⟨f, n, hf, hpath⟩ := h.parent i j e he hparent
      exact ⟨f, hf, by rw [hpath]; rfl⟩
    · rintro ⟨f, hf, htail⟩
      exact hattached i j e f he hf htail
  have horphans : ∀ i : Nat, i ∈ t.orphans ↔ ∃ e : Entity δ, t.entities[i]? = some e ∧ e.path ≠ [] ∧
      ¬ Listed records e.path.tail := by
    intro i
    rw [h.orphans]
    constructor
    · rintro ⟨hi, e, he, hno⟩
      refine ⟨e, he, h.path_ne_nil hi he, fun hlisted => ?_⟩
      obtain ⟨j, f, hf, hpath⟩ := (hhas _).mpr hlisted
      rw [hattached i j e f he hf (by
        rw [hpath]
        cases hp : e.path with
        | nil => exact absurd hp (h.path_ne_nil hi he)
        | cons n q => rfl)] at hno
      cases hno
    · rintro ⟨e, he, hne, hno⟩
      refine ⟨h.ne_zero he hne, e, he, ?_⟩
      refine Option.eq_none_iff_forall_ne_some.mpr fun j hj => hno ?_
      obtain ⟨f, n, hf, hpath⟩ := h.parent i j e he hj
      rw [hpath]
      exact (hhas _).mp ⟨j, f, hf, rfl⟩
  refine ⟨fun p hp => ?_, fun i e he => (hhas _).mp ⟨i, e, he, rfl⟩, hparent, fun i j f hf => ?_,
    horphans, fun i e he hrooted hi => ?_, hpresences⟩
  · obtain ⟨i, e, he, hpath⟩ := (hhas p).mpr hp
    refine ⟨i, ⟨e, he, hpath⟩, ?_⟩
    rintro j ⟨f, hf, hpath'⟩
    exact h.unique j i f e hf he (hpath'.trans hpath.symm)
  · rw [h.children j i f hf]
    constructor
    · rintro ⟨e, he, hj⟩
      obtain ⟨f', hf', htail⟩ := (hparent i j e he).mp hj
      obtain rfl := Option.some.inj (hf.symm.trans hf')
      exact ⟨e, he, htail⟩
    · rintro ⟨e, he, htail⟩
      exact ⟨e, he, hattached i j e f he hf htail⟩
  · obtain ⟨e', he', hne, hno⟩ := (horphans i).mp hi
    obtain rfl := Option.some.inj (he.symm.trans he')
    cases hp : e.path with
    | nil => exact hne hp
    | cons n q =>
      rw [hp] at hrooted hno
      exact hno hrooted.1

end Presents

/-! ## Every order -/

section Order

variable {δ : Type} [DecidableEq δ] {t : Folder δ} {records order known : List (δ × Path)}
  {devices : List δ} {p : Path}

/-- The ways to a tree: all of the files at once, or one file after another, where the model may know some
of them before they are inserted. -/
inductive Built (devices : List δ) (records : List (δ × Path)) : Folder δ → Prop where
  | constructed (files : List (δ × Path)) (hfiles : ∀ r, r ∈ files ↔ r ∈ records) :
      Built devices records (Folder.construct devices files)
  | inserted (known order : List (δ × Path)) (hknown : known ⊆ records)
      (horder : ∀ r, r ∈ order ↔ r ∈ records) :
      Built devices records (order.foldl Folder.insert (Folder.empty devices known))

/-- If a file and its parent are there, then everything above them is. -/
def Gapless (records : List (δ × Path)) : Prop :=
  ∀ p, Listed records p → Listed records p.tail → Rooted (Listed records) p

theorem presents_construct {files : List (δ × Path)}
    (hfiles : ∀ r ∈ files, r.1 ∈ devices ∧ r.2 ≠ []) : Presents files (Folder.construct devices files) := by
  obtain ⟨hconstructed, hdevices, hknown⟩ := constructed_construct devices fun r hr => (hfiles r hr).2
  refine hconstructed.joined.presents (fun p hp => ?_) hconstructed.attached fun i e he hne d => ?_
  · rw [hconstructed.paths p hp, List.mem_insertionSort, List.mem_dedup, List.mem_map]
    constructor
    · rintro ⟨⟨d, q⟩, hr, rfl⟩
      exact ⟨d, hr⟩
    · rintro ⟨d, hr⟩
      exact ⟨_, hr, rfl⟩
  · rw [hconstructed.presences i e he hne d, hdevices, hknown]
    exact ⟨And.right, fun hr => ⟨(hfiles _ hr).1, hr⟩⟩

omit [DecidableEq δ] in
theorem grown_empty (devices : List δ) (known : List (δ × Path)) :
    Grown [] (Folder.empty devices known) := by
  refine ⟨linked_empty, fun i hi => absurd hi List.not_mem_nil, fun p hp => ?_, fun i e he hne => ?_⟩
  · rw [empty_has]
    refine iff_of_false hp ?_
    rintro ⟨d, hd⟩
    cases hd
  · rw [(empty_get.mp he).2] at hne
    exact absurd rfl hne

omit [DecidableEq δ] in
/-- Without gaps, no child of an orphan waits. -/
theorem Grown.presents (h : Grown order t) (horder : ∀ r, r ∈ order ↔ r ∈ records)
    (hfiles : t.files ⊆ records) (hgapless : Gapless records) : Presents records t := by
  have hpaths : ∀ p, p ≠ [] → (t.Has p ↔ ∃ d, (d, p) ∈ records) := by
    intro p hp
    rw [h.records.paths p hp]
    exact exists_congr fun d => horder (d, p)
  have hhas : ∀ p, Listed records p → t.Has p := by
    intro p hp
    by_cases hnil : p = []
    · obtain ⟨r, hr, hpath, -⟩ := h.linked.root
      exact ⟨0, r, hr, hpath.trans hnil.symm⟩
    · exact (hpaths p hnil).mpr (hp.resolve_left hnil)
  have hlisted : ∀ p, t.Has p → Listed records p := by
    intro p hp
    by_cases hnil : p = []
    · exact .inl hnil
    · exact .inr ((hpaths p hnil).mp hp)
  refine h.linked.presents hpaths (fun i j e f he hf htail => ?_) fun i e he hne d => ?_
  · have hne : e.path ≠ [] := by
      rintro hnil
      rw [hnil] at htail
      cases htail
    have htail' : e.path.tail = f.path := by
      cases hp : e.path with
      | nil => exact absurd hp hne
      | cons n q => rw [hp] at htail; exact Option.some.inj htail
    have hrooted := hgapless e.path (hlisted _ ⟨i, e, he, rfl⟩) (hlisted _ ⟨j, f, hf, htail'.symm⟩)
    have hi : i ∉ t.orphans := fun hi =>
      h.waits i hi e he (hrooted.imp fun q _ _ hq => hhas q hq)
    obtain ⟨k, hk⟩ := Option.ne_none_iff_exists'.mp
      (((h.linked.attached_iff he).mpr hi).resolve_left (h.linked.ne_zero he hne))
    obtain ⟨g, n, hg, hpath⟩ := h.linked.parent i k e he hk
    rw [hk, h.linked.unique k j g f hg hf (by rw [← htail', hpath]; rfl)]
  · obtain ⟨hold, hknown⟩ := h.records.presences i e he hne d
    exact ⟨fun hd => hfiles (hknown hd), fun hr => hold ((horder _).mpr hr)⟩

omit [DecidableEq δ] in
/-- A gap leaves a file apart from its parent. -/
theorem Grown.gapless (h : Grown order t) (hpresents : Presents records t) : Gapless records := by
  intro p hp htail
  obtain ⟨i, e, he, hpath⟩ := hpresents.has.mpr hp
  obtain ⟨j, f, hf, hpath'⟩ := hpresents.has.mpr htail
  cases p with
  | nil => trivial
  | cons n q =>
    have hparent : e.parent = some j :=
      (hpresents.attached i j e he).mpr ⟨f, hf, by rw [hpath, hpath']; rfl⟩
    have hfind := h.linked.find_eq.mpr ⟨e, he, hpath, .inr (by rw [hparent]; exact Option.some_ne_none j)⟩
    exact (h.linked.rooted hfind).imp fun _ _ _ => hpresents.has.mp

/-- Without gaps nothing hangs below an orphan of a constructed tree either. -/
theorem grown_construct (hrecords : ∀ r ∈ records, r.1 ∈ devices ∧ r.2 ≠ []) (hgapless : Gapless records) :
    Grown records (Folder.construct devices records) := by
  have h := presents_construct hrecords
  obtain ⟨hconstructed, -, hknown⟩ := constructed_construct devices fun r hr => (hrecords r hr).2
  have hjoined := hconstructed.joined
  refine ⟨⟨hjoined, fun c i f e hf hparent he => ?_⟩, fun i hi e he hrooted => ?_, fun p hp => ?_,
    fun i e he hne d => ?_⟩
  · rw [hjoined.attached_iff he]
    intro hi
    obtain ⟨e', he', -, hno⟩ := (h.orphans i).mp hi
    obtain rfl := Option.some.inj (he.symm.trans he')
    obtain ⟨e', n, he', hpath⟩ := hjoined.parent c i f hf hparent
    obtain rfl := Option.some.inj (he.symm.trans he')
    have hrooted := hgapless f.path (h.only c f hf) (by rw [hpath]; exact h.only i e he)
    rw [hpath] at hrooted
    cases hp : e.path with
    | nil => exact hno (by rw [hp]; exact .inl rfl)
    | cons m q =>
      rw [hp] at hrooted hno
      exact hno hrooted.2.1
  · exact h.complete i e he (hrooted.imp fun _ _ _ => h.has.mp) hi
  · rw [h.has]
    exact ⟨fun hlisted => hlisted.resolve_left hp, .inr⟩
  · rw [h.presences i e he hne d, hknown]
    exact ⟨id, id⟩

/-- Files are inserted into a tree that has been constructed from others. -/
theorem presents_foldl_insert {first : List (δ × Path)}
    (hrecords : ∀ r ∈ first ++ order, r.1 ∈ devices ∧ r.2 ≠ []) (hfirst : Gapless first)
    (hgapless : Gapless (first ++ order)) :
    Presents (first ++ order) (order.foldl Folder.insert (Folder.construct devices first)) := by
  have hfirst' : ∀ r ∈ first, r.1 ∈ devices ∧ r.2 ≠ [] := fun r hr => hrecords r (List.mem_append_left _ hr)
  obtain ⟨-, hdevices, hknown⟩ := constructed_construct devices fun r hr => (hfirst' r hr).2
  obtain ⟨hgrown, -, hfiles⟩ := (grown_construct hfirst' hfirst).run fun r hr => by
    rw [hdevices]
    exact hrecords r (List.mem_append_right _ hr)
  refine hgrown.presents (fun _ => Iff.rfl) ?_ hgapless
  rw [hfiles, hknown]
  exact List.Subset.refl _

/-- With a gap, a second entity of a path appears. -/
example : ([(2, ["c", "b", "a"])].foldl Folder.insert
    (Folder.construct [1, 2] [(1, ["b", "a"]), (1, ["c", "b", "a"])])).entities.map Entity.path =
      [[], ["b", "a"], ["c", "b", "a"], ["c", "b", "a"]] := by
  decide

/-- **When the tree does not depend on the order.** -/
theorem presents_iff (hrecords : ∀ r ∈ records, r.1 ∈ devices ∧ r.2 ≠ []) :
    ((∀ t, Built devices records t → Presents records t) ∧
      ∀ t t', Built devices records t → Built devices records t' → Same t t') ↔ Gapless records := by
  constructor
  · rintro ⟨hpresents, -⟩
    obtain ⟨hgrown, -⟩ := (grown_empty devices []).run hrecords
    exact hgrown.gapless (hpresents _ (.inserted [] records (List.nil_subset _) fun _ => Iff.rfl))
  · intro hgapless
    have hpresents : ∀ t, Built devices records t → Presents records t := by
      intro t hbuilt
      cases hbuilt with
      | constructed files hfiles =>
        have h := presents_construct fun r hr => hrecords r ((hfiles r).mp hr)
        have hlisted : Listed files = Listed records :=
          funext fun p => propext (or_congr_right (exists_congr fun d => hfiles (d, p)))
        refine ⟨?_, ?_, h.attached, h.children, ?_, ?_, fun i e he hne d => ?_⟩
        · exact hlisted ▸ h.one
        · exact hlisted ▸ h.only
        · exact hlisted ▸ h.orphans
        · exact hlisted ▸ h.complete
        · rw [h.presences i e he hne d, hfiles]
      | inserted known order hknown horder =>
        obtain ⟨hgrown, -, hfiles⟩ := (grown_empty devices known).run
          fun r hr => hrecords r ((horder r).mp hr)
        refine hgrown.presents horder ?_ hgapless
        rw [hfiles]
        exact List.append_subset.mpr ⟨hknown, fun r hr => (horder r).mp hr⟩
    exact ⟨hpresents, fun t t' h h' => (hpresents t h).same (hpresents t' h')⟩

theorem presents_both_orders : Same
    ([(1, ["b", "a"]), (2, ["a"]), (1, ["a"])].foldl Folder.insert (Folder.empty [1, 2] []))
    (Folder.construct [1, 2] [(1, ["a"]), (2, ["a"]), (1, ["b", "a"])]) := by
  have hgapless : Gapless [(1, ["a"]), (2, ["a"]), (1, ["b", "a"])] := by
    rintro p (rfl | ⟨d, hd⟩) -
    · trivial
    · simp only [List.mem_cons, Prod.mk.injEq, List.not_mem_nil, or_false] at hd
      rcases hd with ⟨-, rfl⟩ | ⟨-, rfl⟩ | ⟨-, rfl⟩
      · exact ⟨.inl rfl, trivial⟩
      · exact ⟨.inl rfl, trivial⟩
      · exact ⟨.inr ⟨1, by decide⟩, .inl rfl, trivial⟩
  refine ((presents_iff (by decide)).mpr hgapless).2 _ _ (.inserted [] _ (List.nil_subset _) fun r => ?_)
    (.constructed _ fun _ => Iff.rfl)
  simp only [List.mem_cons, List.not_mem_nil, or_false]
  tauto

/-- A directory and its parent are there, but nothing above them: the trees differ, and after the files
have been constructed, one further down remains an orphan when all of its ancestors are there. -/
theorem gap_depends_on_order :
    ¬ Same ([(1, ["b", "a"]), (1, ["c", "b", "a"])].foldl Folder.insert (Folder.empty [1] []))
      (Folder.construct [1] [(1, ["b", "a"]), (1, ["c", "b", "a"])]) ∧
    ¬ Presents [(1, ["b", "a"]), (1, ["c", "b", "a"])]
      ([(1, ["b", "a"]), (1, ["c", "b", "a"])].foldl Folder.insert (Folder.empty [1] [])) ∧
    let t := [(1, ["d", "c", "b", "a"]), (1, ["a"])].foldl Folder.insert
      (Folder.construct [1] [(1, ["b", "a"]), (1, ["c", "b", "a"])])
    t.orphans.map t.pathAt = [some ["d", "c", "b", "a"]] := by
  refine ⟨fun h => ?_, fun h => ?_, by decide⟩
  · exact absurd ((h.orphans ["c", "b", "a"]).mp (by decide)) (by decide)
  · have hparent := (h.attached 2 1 _ rfl).mpr ⟨_, rfl, rfl⟩
    cases hparent

end Order

end Hierarchy

end SyncSpirit
