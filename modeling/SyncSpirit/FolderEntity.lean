import Mathlib
import SyncSpirit.Presentation

/-!
# How the presentation tree is built (`presentation/folder_entity.cpp`, `orphans.cpp`)

A folder entity gets the entities of its files either all at once, when it is constructed, or one by
one. Then an entity whose parent cannot be reached from the folder is an orphan until it can.

Here an entity is what it is in the source, something with an identity: its place in `entities`. That
there is one of each path has to be proved. Statistics and the best presences are in `Presentation`.

The invariant of insertion is `Grown`: nothing hangs below an orphan, and no orphan has all of its
ancestors.
-/

namespace SyncSpirit

namespace Hierarchy

abbrev Path := Presentation.Path

/-- `entity_t`. The children are a set. -/
structure Entity (δ : Type) where
  path : Path
  presences : List δ
  parent : Option Nat
  children : List Nat
  deriving DecidableEq, Repr

/-- `folder_entity_t` with all of its entities, of which it is the first, and what it sees of the model: the
devices that share the folder, and their files. -/
structure Folder (δ : Type) where
  devices : List δ
  files : List (δ × Path)
  entities : List (Entity δ)
  orphans : List Nat
  deriving DecidableEq, Repr

/-- `get_full_name`. -/
def fullName : Path → List Char
  | [] => []
  | [n] => n.toList
  | n :: m :: p => fullName (m :: p) ++ '/' :: n.toList

namespace Folder

variable {δ : Type} [DecidableEq δ]

/-- A folder entity without files. -/
def empty (devices : List δ) (files : List (δ × Path)) : Folder δ :=
  ⟨devices, files, [⟨[], devices, none, []⟩], []⟩

/-- The child with a name. -/
def child (t : Folder δ) (i : Nat) (name : String) : Option Nat :=
  (t.entities[i]?).bind fun e =>
    e.children.find? fun c => ((t.entities[c]?).bind fun f => f.path.head?) = some name

/-- The loop of `on_insert` over the pieces of a path, if it comes to the end. -/
def find (t : Folder δ) : Path → Option Nat
  | [] => some 0
  | n :: p => (t.find p).bind fun i => t.child i n

/-- The constructor of `file_entity_t`. -/
def newEntity (t : Folder δ) (p : Path) : Folder δ :=
  { t with entities := t.entities ++ [⟨p, t.devices.filter fun d => (d, p) ∈ t.files, none, []⟩] }

/-- `file_entity_t::on_insert`. -/
def fileInsert (t : Folder δ) (i : Nat) (d : δ) : Folder δ :=
  { t with
    entities := t.entities.modify i fun e =>
      { e with presences := if d ∈ e.presences then e.presences else e.presences ++ [d] } }

/-- `add_child`; a set does not take a second child of one name. -/
def addChild (t : Folder δ) (i c : Nat) : Folder δ :=
  let taken := (((t.entities[c]?).bind fun f => f.path.head?).bind (t.child i)).isSome
  { t with
    entities := (t.entities.modify i fun e =>
        { e with children := if taken then e.children else e.children ++ [c] }).modify c
      fun f => { f with parent := some i } }

/-- An orphan gets its parent. -/
def adopt (i : Nat) (t : Folder δ) (c : Nat) : Folder δ :=
  { t with orphans := t.orphans.erase c }.addChild i c

/-- The orphans below an entity (`by_parent_name.equal_range`). -/
def below (t : Folder δ) (i : Nat) : List Nat :=
  t.orphans.filter fun c =>
    ((t.entities[c]?).bind fun f => f.path.tail?) = (t.entities[i]?).map Entity.path

/-- `reap_children`, with a queue. -/
def reapChildren : Nat → List Nat → Folder δ → Folder δ
  | fuel + 1, i :: queue, t => reapChildren fuel (queue ++ t.below i) ((t.below i).foldl (adopt i) t)
  | _, _, t => t

/-- `folder_entity_t::on_insert` of a file. -/
def onInsert (t : Folder δ) (d : δ) (p : Path) : Folder δ :=
  match t.find p with
  | some i => t.fileInsert i d
  | none =>
    match t.find p.tail with
    | some i =>
      let c := t.entities.length
      reapChildren (t.orphans.length + 1) [c] ((t.newEntity p).addChild i c)
    | none =>
      match t.orphans.find? fun c => (t.entities[c]?).map Entity.path = some p with
      | some c => t.fileInsert c d
      | none => { t.newEntity p with orphans := t.orphans ++ [t.entities.length] }

/-- A file appears in the model and is inserted. -/
def insert (t : Folder δ) (r : δ × Path) : Folder δ :=
  { t with files := t.files ++ [r] }.onInsert r.1 r.2

/-- One file of `process_files`. -/
def processFile (t : Folder δ) (p : Path) : Folder δ :=
  let parent := if p.length = 1 then some 0 else t.entities.findIdx? fun e => e.path = p.tail
  let c := t.entities.length
  match parent with
  | some i => (t.newEntity p).addChild i c
  | none => { t.newEntity p with orphans := t.orphans ++ [c] }

/-- The constructor of `folder_entity_t`: the paths are ordered by their full names. -/
def construct (devices : List δ) (files : List (δ × Path)) : Folder δ :=
  ((files.map Prod.snd).dedup.insertionSort fun p q => fullName p ≤ fullName q).foldl processFile
    (empty devices files)

end Folder

/-! ## Links -/

/-- The entities, their links and the orphans agree. -/
structure Joined {δ : Type} (t : Folder δ) : Prop where
  root : ∃ e : Entity δ, t.entities[0]? = some e ∧ e.path = [] ∧ e.parent = none
  unique : ∀ (i j : Nat) (e f : Entity δ), t.entities[i]? = some e → t.entities[j]? = some f →
    e.path = f.path → i = j
  children : ∀ (i c : Nat) (e : Entity δ), t.entities[i]? = some e →
    (c ∈ e.children ↔ ∃ f : Entity δ, t.entities[c]? = some f ∧ f.parent = some i)
  parent : ∀ (c i : Nat) (f : Entity δ), t.entities[c]? = some f → f.parent = some i →
    ∃ (e : Entity δ) (n : String), t.entities[i]? = some e ∧ f.path = n :: e.path
  orphans : ∀ i : Nat, i ∈ t.orphans ↔ i ≠ 0 ∧ ∃ e : Entity δ, t.entities[i]? = some e ∧ e.parent = none
  nodup : t.orphans.Nodup

/-- And nothing hangs below an orphan. -/
structure Linked {δ : Type} (t : Folder δ) : Prop extends Joined t where
  grounded : ∀ (c i : Nat) (f e : Entity δ), t.entities[c]? = some f → f.parent = some i →
    t.entities[i]? = some e → i = 0 ∨ e.parent ≠ none

namespace Joined

variable {δ : Type} {t : Folder δ} {i c : Nat} {e f : Entity δ} {n : String} {p : Path}

theorem path_ne_nil (h : Joined t) (hi : i ≠ 0) (he : t.entities[i]? = some e) : e.path ≠ [] := by
  obtain ⟨r, hr, hpath, -⟩ := h.root
  exact fun hnil => hi (h.unique i 0 e r he hr (hnil.trans hpath.symm))

theorem eq_zero (h : Joined t) (he : t.entities[i]? = some e) (hpath : e.path = []) : i = 0 := by
  by_contra hi
  exact h.path_ne_nil hi he hpath

theorem ne_zero (h : Joined t) (he : t.entities[i]? = some e) (hpath : e.path ≠ []) : i ≠ 0 := by
  rintro rfl
  obtain ⟨r, hr, hnil, -⟩ := h.root
  obtain rfl := Option.some.inj (he.symm.trans hr)
  exact hpath hnil

/-- An entity that hangs somewhere is not an orphan. -/
theorem attached_iff (h : Joined t) (he : t.entities[i]? = some e) :
    (i = 0 ∨ e.parent ≠ none) ↔ i ∉ t.orphans := by
  rw [h.orphans, not_and_or, not_not]
  refine or_congr_right ⟨fun hparent hex => ?_, fun hno hparent => hno ⟨e, he, hparent⟩⟩
  obtain ⟨e', he', hnone⟩ := hex
  obtain rfl := Option.some.inj (he.symm.trans he')
  exact hparent hnone

theorem child_eq (h : Joined t) (he : t.entities[i]? = some e) :
    t.child i n = some c ↔ ∃ f, t.entities[c]? = some f ∧ f.parent = some i ∧ f.path = n :: e.path := by
  have hname : ∀ c, c ∈ e.children → (((t.entities[c]?).bind fun f => f.path.head?) = some n ↔
      ∃ f, t.entities[c]? = some f ∧ f.parent = some i ∧ f.path = n :: e.path) := by
    intro c hc
    obtain ⟨f, hf, hparent⟩ := (h.children i c e he).mp hc
    obtain ⟨e', m, he', hpath⟩ := h.parent c i f hf hparent
    obtain rfl := Option.some.inj (he.symm.trans he')
    rw [hf]
    constructor
    · intro heq
      refine ⟨f, rfl, hparent, ?_⟩
      rw [Option.bind_some, hpath, List.head?_cons] at heq
      rw [hpath, Option.some.inj heq]
    · rintro ⟨f', hf', -, hpath'⟩
      obtain rfl := Option.some.inj hf'
      rw [Option.bind_some, hpath', List.head?_cons]
  unfold Folder.child
  rw [he, Option.bind_some]
  constructor
  · intro hfind
    have hmem := List.mem_of_find?_eq_some hfind
    exact (hname c hmem).mp (by simpa using List.find?_some hfind)
  · rintro ⟨f, hf, hparent, hpath⟩
    have hc := (h.children i c e he).mpr ⟨f, hf, hparent⟩
    have hsome : (e.children.find? fun c =>
        decide (((t.entities[c]?).bind fun f => f.path.head?) = some n)).isSome := by
      rw [List.find?_isSome]
      exact ⟨c, hc, by simpa using (hname c hc).mpr ⟨f, hf, hparent, hpath⟩⟩
    obtain ⟨c', hc'⟩ := Option.isSome_iff_exists.mp hsome
    obtain ⟨f', hf', -, hpath'⟩ :=
      (hname c' (List.mem_of_find?_eq_some hc')).mp (by simpa using List.find?_some hc')
    rw [hc', h.unique c' c f' f hf' hf (hpath'.trans hpath.symm)]

end Joined

namespace Linked

variable {δ : Type} {t : Folder δ} {i c : Nat} {e f : Entity δ} {p : Path}

/-- What is found is what hangs below the folder. -/
theorem find_eq (h : Linked t) : t.find p = some i ↔
    ∃ e, t.entities[i]? = some e ∧ e.path = p ∧ (i = 0 ∨ e.parent ≠ none) := by
  induction p generalizing i with
  | nil =>
    obtain ⟨r, hr, hpath, -⟩ := h.root
    constructor
    · intro hfind
      obtain rfl := Option.some.inj hfind
      exact ⟨r, hr, hpath, .inl rfl⟩
    · rintro ⟨e, he, hnil, -⟩
      rw [h.eq_zero he hnil]
      rfl
  | cons n p ih =>
    constructor
    · intro hfind
      obtain ⟨j, hj, hchild⟩ := Option.bind_eq_some_iff.mp hfind
      obtain ⟨e, he, rfl, -⟩ := ih.mp hj
      obtain ⟨f, hf, hparent, hpath⟩ := (h.child_eq he).mp hchild
      exact ⟨f, hf, hpath, .inr (by rw [hparent]; exact Option.some_ne_none j)⟩
    · rintro ⟨f, hf, hpath, hattached⟩
      have hi : i ≠ 0 := h.ne_zero hf (by rw [hpath]; exact List.cons_ne_nil n p)
      obtain ⟨j, hparent⟩ := Option.ne_none_iff_exists'.mp (hattached.resolve_left hi)
      obtain ⟨e, m, he, hpath'⟩ := h.parent i j f hf hparent
      obtain ⟨rfl, rfl⟩ := List.cons_eq_cons.mp (hpath'.symm.trans hpath)
      exact Option.bind_eq_some_iff.mpr ⟨j, ih.mpr ⟨e, he, rfl, h.grounded i j f e hf hparent he⟩,
        (h.child_eq he).mpr ⟨f, hf, hparent, hpath⟩⟩

/-- No orphan has children. -/
theorem children_of_orphan (h : Linked t) (hi : i ∈ t.orphans) (he : t.entities[i]? = some e) :
    e.children = [] := by
  refine List.eq_nil_iff_forall_not_mem.mpr fun c hc => ?_
  obtain ⟨f, hf, hparent⟩ := (h.children i c e he).mp hc
  exact (h.attached_iff he).mp (h.grounded c i f e hf hparent he) hi

end Linked

/-! ## One child -/

section AddChild

variable {δ : Type} {t : Folder δ} {i c : Nat} {e f : Entity δ}

/-- An entity with a new parent, and with new children. -/
def Entity.relink (e : Entity δ) (parent : Option Nat) (children : List Nat) : Entity δ :=
  { e with parent := parent, children := e.children ++ children }

/-- Some orphans have become the children of an entity. -/
structure Adopted (i : Nat) (found : List Nat) (t t' : Folder δ) : Prop where
  entities : ∀ j : Nat, t'.entities[j]? = (t.entities[j]?).map fun e : Entity δ =>
    e.relink (if j ∈ found then some i else e.parent) (if j = i then found else [])
  orphans : ∀ j : Nat, j ∈ t'.orphans ↔ j ∈ t.orphans ∧ j ∉ found
  files : t'.files = t.files
  devices : t'.devices = t.devices

theorem Adopted.nil : Adopted i [] t t :=
  ⟨fun j => by cases t.entities[j]? <;> simp [Entity.relink], fun j => by simp, rfl, rfl⟩

theorem Adopted.cons {found : List Nat} {t' t'' : Folder δ} (h : Adopted i [c] t t')
    (h' : Adopted i found t' t'') : Adopted i (c :: found) t t'' := by
  refine ⟨fun j => ?_, fun j => ?_, h'.files.trans h.files, h'.devices.trans h.devices⟩
  · rw [h'.entities, h.entities]
    cases t.entities[j]? with
    | none => rfl
    | some e =>
      simp only [Option.map_some, Entity.relink, List.mem_cons, List.not_mem_nil, or_false]
      congr 2
      · by_cases hj : j ∈ found <;> by_cases hc : j = c <;> simp [hj, hc]
      · by_cases hj : j = i <;> simp [hj]
  · rw [h'.orphans, h.orphans]
    simp only [List.mem_cons, List.not_mem_nil, or_false, not_or, and_assoc]

theorem Adopted.get {found : List Nat} {t' : Folder δ} (h : Adopted i found t t') {j : Nat} {e' : Entity δ} :
    t'.entities[j]? = some e' ↔ ∃ e, t.entities[j]? = some e ∧
      e' = e.relink (if j ∈ found then some i else e.parent) (if j = i then found else []) := by
  rw [h.entities, Option.map_eq_some_iff]
  exact ⟨fun ⟨e, he, heq⟩ => ⟨e, he, heq.symm⟩, fun ⟨e, he, heq⟩ => ⟨e, he, heq.symm⟩⟩

/-- The links agree if an orphan gets its parent. -/
theorem Adopted.joined {t' : Folder δ} (ha : Adopted i [c] t t') (h : Joined t)
    (hnodup : t'.orphans.Nodup) (he : t.entities[i]? = some e) (hc : c ∈ t.orphans)
    (hf : t.entities[c]? = some f) {n : String} (hpath : f.path = n :: e.path) : Joined t' := by
  obtain ⟨hc0, f', hf', hnone⟩ := (h.orphans c).mp hc
  obtain rfl := Option.some.inj (hf.symm.trans hf')
  clear hf'
  refine ⟨?_, ?_, ?_, ?_, ?_, hnodup⟩
  · obtain ⟨r, hr, hnil, hparent⟩ := h.root
    refine ⟨_, ha.get.mpr ⟨r, hr, rfl⟩, hnil, ?_⟩
    rw [if_neg (by simpa using Ne.symm hc0)]
    exact hparent
  · intro j k e₁' e₂' h₁' h₂' heq
    obtain ⟨e₁, h₁, rfl⟩ := ha.get.mp h₁'
    obtain ⟨e₂, h₂, rfl⟩ := ha.get.mp h₂'
    exact h.unique j k e₁ e₂ h₁ h₂ heq
  · intro j k e₁' h₁'
    obtain ⟨e₁, h₁, rfl⟩ := ha.get.mp h₁'
    show k ∈ e₁.children ++ _ ↔ _
    rw [List.mem_append, h.children j k e₁ h₁]
    constructor
    · rintro (⟨g, hg, hparent⟩ | hk)
      · have hkc : k ≠ c := by
          rintro rfl
          obtain rfl := Option.some.inj (hf.symm.trans hg)
          rw [hnone] at hparent
          cases hparent
        exact ⟨_, ha.get.mpr ⟨g, hg, rfl⟩, by simpa [Entity.relink, hkc] using hparent⟩
      · split at hk
        · rename_i hji
          obtain rfl := List.mem_singleton.mp hk
          exact ⟨_, ha.get.mpr ⟨f, hf, rfl⟩, by simp [Entity.relink, hji]⟩
        · cases hk
    · rintro ⟨g', hg', hparent⟩
      obtain ⟨g, hg, rfl⟩ := ha.get.mp hg'
      by_cases hkc : k = c
      · subst hkc
        simp only [Entity.relink, List.mem_singleton, if_pos, Option.some.injEq] at hparent
        exact .inr (by simp [hparent])
      · exact .inl ⟨g, hg, by simpa [Entity.relink, hkc] using hparent⟩
  · intro k j g' hg' hparent
    obtain ⟨g, hg, rfl⟩ := ha.get.mp hg'
    by_cases hkc : k = c
    · subst hkc
      obtain rfl := Option.some.inj (hf.symm.trans hg)
      simp only [Entity.relink, List.mem_singleton, if_pos, Option.some.injEq] at hparent
      subst hparent
      exact ⟨_, n, ha.get.mpr ⟨e, he, rfl⟩, hpath⟩
    · obtain ⟨e₁, m, h₁, hpath₁⟩ := h.parent k j g hg (by simpa [Entity.relink, hkc] using hparent)
      exact ⟨_, m, ha.get.mpr ⟨e₁, h₁, rfl⟩, hpath₁⟩
  · intro j
    rw [ha.orphans, h.orphans, List.mem_singleton]
    constructor
    · rintro ⟨⟨hj, e₁, h₁, hparent⟩, hjc⟩
      exact ⟨hj, _, ha.get.mpr ⟨e₁, h₁, rfl⟩, by simpa [Entity.relink, hjc] using hparent⟩
    · rintro ⟨hj, e₁', h₁', hparent⟩
      obtain ⟨e₁, h₁, rfl⟩ := ha.get.mp h₁'
      by_cases hjc : j = c
      · simp [Entity.relink, hjc] at hparent
      · exact ⟨⟨hj, e₁, h₁, by simpa [Entity.relink, hjc] using hparent⟩, hjc⟩

/-- Nothing hangs below an orphan if the parent hangs somewhere. -/
theorem Adopted.linked {t' : Folder δ} (ha : Adopted i [c] t t') (h : Linked t) (hjoined : Joined t')
    (hi : i ∉ t.orphans) (hc : c ∈ t.orphans) (hf : t.entities[c]? = some f) : Linked t' := by
  have hne : i ≠ c := fun heq => hi (heq ▸ hc)
  have hcchildren := h.children_of_orphan hc hf
  refine ⟨hjoined, fun k j g' e₁' hg' hparent h₁' => ?_⟩
  obtain ⟨g, hg, rfl⟩ := ha.get.mp hg'
  obtain ⟨e₁, h₁, rfl⟩ := ha.get.mp h₁'
  by_cases hjc : j = c
  · subst hjc
    obtain rfl := Option.some.inj (hf.symm.trans h₁)
    have hk : k ≠ j := by
      rintro rfl
      simp only [Entity.relink, List.mem_singleton, if_pos, Option.some.injEq] at hparent
      exact hne hparent
    have hchild := (h.children j k f hf).mpr ⟨g, hg, by simpa [Entity.relink, hk] using hparent⟩
    rw [hcchildren] at hchild
    cases hchild
  · have hold : j = 0 ∨ e₁.parent ≠ none := by
      by_cases hkc : k = c
      · subst hkc
        simp only [Entity.relink, List.mem_singleton, if_pos, Option.some.injEq] at hparent
        subst hparent
        exact (h.attached_iff h₁).mpr hi
      · exact h.grounded k j g e₁ hg (by simpa [Entity.relink, hkc] using hparent) h₁
    simpa [Entity.relink, hjc] using hold

theorem adopt_spec (h : Joined t) (he : t.entities[i]? = some e) (hne : i ≠ c)
    (hc : c ∈ t.orphans) (hf : t.entities[c]? = some f) (hpath : f.path.tail? = some e.path) :
    Adopted i [c] t (Folder.adopt i t c) ∧ Joined (Folder.adopt i t c) := by
  obtain ⟨n, hpath⟩ : ∃ n, f.path = n :: e.path := by
    cases hp : f.path with
    | nil => rw [hp] at hpath; cases hpath
    | cons n q => rw [hp] at hpath; exact ⟨n, congrArg _ (Option.some.inj hpath)⟩
  obtain ⟨hc0, f', hf', hnone⟩ := (h.orphans c).mp hc
  obtain rfl := Option.some.inj (hf.symm.trans hf')
  -- no other child has this name
  have htaken : t.child i n = none := by
    refine Option.eq_none_iff_forall_ne_some.mpr fun c' hc' => ?_
    obtain ⟨g, hg, hparent, hpath'⟩ := (h.child_eq he).mp hc'
    obtain rfl := h.unique c' c g f hg hf (hpath'.trans hpath.symm)
    obtain rfl := Option.some.inj (hg.symm.trans hf)
    rw [hnone] at hparent
    cases hparent
  have hadopted : Adopted i [c] t (Folder.adopt i t c) := by
    refine ⟨fun j => ?_, fun j => ?_, rfl, rfl⟩
    · have hname : (((t.entities[c]?).bind fun f => f.path.head?).bind (t.child i)).isSome = false := by
        rw [hf, Option.bind_some, hpath, List.head?_cons, Option.bind_some, htaken]
        rfl
      show ((t.entities.modify i fun e => { e with children := if (((t.entities[c]?).bind fun f =>
        f.path.head?).bind (t.child i)).isSome then e.children else e.children ++ [c] }).modify c
          fun f => { f with parent := some i })[j]? = _
      rw [hname, List.getElem?_modify, List.getElem?_modify]
      cases t.entities[j]? with
      | none => rfl
      | some g =>
        simp only [Option.map_eq_map, Option.map_some, Entity.relink, List.mem_singleton,
          Bool.false_eq_true, if_false]
        rcases eq_or_ne i j with rfl | hij
        · simp [hne, Ne.symm hne]
        · rcases eq_or_ne c j with rfl | hcj
          · simp [hij, Ne.symm hij]
          · simp [hij, hcj, Ne.symm hij, Ne.symm hcj]
    · show j ∈ t.orphans.erase c ↔ _
      rw [h.nodup.mem_erase_iff, List.mem_singleton, and_comm]
  exact ⟨hadopted, hadopted.joined h (h.nodup.erase c) he hc hf hpath⟩

end AddChild

/-! ## Reaping -/

/-- Everything above a path is there. -/
def Rooted (has : Path → Prop) : Path → Prop
  | [] => True
  | _ :: p => has p ∧ Rooted has p

section Rooted

variable {present : Path → Prop} {p q : Path}

theorem exists_cons_suffix (h : q <:+ p) (hne : q ≠ p) : ∃ n, n :: q <:+ p := by
  induction p with
  | nil => exact absurd (List.suffix_nil.mp h) hne
  | cons n p ih =>
    rcases List.suffix_cons_iff.mp h with heq | hsub
    · exact absurd heq hne
    · by_cases heq : q = p
      · exact ⟨n, heq ▸ List.suffix_rfl⟩
      · obtain ⟨m, hm⟩ := ih hsub heq
        exact ⟨m, hm.trans (List.suffix_cons n p)⟩

theorem Rooted.has (h : Rooted present p) (hsub : q <:+ p) (hne : q ≠ p) : present q := by
  induction p with
  | nil => exact absurd (List.suffix_nil.mp hsub) hne
  | cons n p ih =>
    rcases List.suffix_cons_iff.mp hsub with heq | hsub
    · exact absurd heq hne
    · by_cases heq : q = p
      · exact heq ▸ h.1
      · exact ih h.2 hsub heq

theorem Rooted.suffix (h : Rooted present p) (hsub : q <:+ p) : Rooted present q := by
  induction p with
  | nil => exact List.suffix_nil.mp hsub ▸ trivial
  | cons n p ih =>
    rcases List.suffix_cons_iff.mp hsub with rfl | hsub
    · exact h
    · exact ih h.2 hsub

theorem Rooted.imp {present' : Path → Prop} (h : Rooted present p)
    (himp : ∀ q, q <:+ p → q ≠ p → present q → present' q) : Rooted present' p := by
  induction p with
  | nil => trivial
  | cons n p ih =>
    refine ⟨himp p (List.suffix_cons n p) (by simp) h.1, ih h.2 fun q hq hne => ?_⟩
    refine himp q (hq.trans (List.suffix_cons n p)) fun heq => ?_
    have hlen := hq.length_le
    rw [heq, List.length_cons] at hlen
    omega

end Rooted

section Reap

variable {δ : Type} {t t' t'' : Folder δ} {i : Nat} {e : Entity δ}

/-- There is an entity of a path. -/
def Folder.Has (t : Folder δ) (p : Path) : Prop := ∃ (i : Nat) (e : Entity δ), t.entities[i]? = some e ∧ e.path = p

/-- The entities are the same but for their links. -/
structure Framed (t t' : Folder δ) : Prop where
  entities : ∀ j : Nat, (t'.entities[j]?).map (fun e : Entity δ => (e.path, e.presences)) =
    (t.entities[j]?).map fun e : Entity δ => (e.path, e.presences)
  files : t'.files = t.files
  devices : t'.devices = t.devices

theorem Framed.refl : Framed t t := ⟨fun _ => rfl, rfl, rfl⟩

theorem Framed.trans (h : Framed t t') (h' : Framed t' t'') : Framed t t'' :=
  ⟨fun j => (h'.entities j).trans (h.entities j), h'.files.trans h.files, h'.devices.trans h.devices⟩

theorem Framed.symm (h : Framed t t') : Framed t' t :=
  ⟨fun j => (h.entities j).symm, h.files.symm, h.devices.symm⟩

theorem Framed.get (h : Framed t t') (he : t.entities[i]? = some e) :
    ∃ e', t'.entities[i]? = some e' ∧ e'.path = e.path ∧ e'.presences = e.presences := by
  have hmap := h.entities i
  rw [he] at hmap
  obtain ⟨e', he', heq⟩ := Option.map_eq_some_iff.mp hmap
  exact ⟨e', he', (Prod.mk.inj heq).1, (Prod.mk.inj heq).2⟩

theorem Framed.has {p : Path} (h : Framed t t') : t'.Has p ↔ t.Has p := by
  constructor
  · rintro ⟨i, e, he, rfl⟩
    obtain ⟨e', he', hpath, -⟩ := h.symm.get he
    exact ⟨i, e', he', hpath⟩
  · rintro ⟨i, e, he, rfl⟩
    obtain ⟨e', he', hpath, -⟩ := h.get he
    exact ⟨i, e', he', hpath⟩

theorem Adopted.framed {found : List Nat} (h : Adopted i found t t') : Framed t t' :=
  ⟨fun j => by rw [h.entities, Option.map_map]; rfl, h.files, h.devices⟩

/-- A queue of entities that hang somewhere and have no children yet. An orphan that is rooted is below one
of them. -/
structure Reaping (queue : List Nat) (t : Folder δ) : Prop where
  linked : Linked t
  queued : ∀ x ∈ queue, x ∉ t.orphans ∧ ∃ e : Entity δ, t.entities[x]? = some e ∧ e.children = []
  nodup : queue.Nodup
  waits : ∀ i ∈ t.orphans, ∀ e : Entity δ, t.entities[i]? = some e → Rooted t.Has e.path →
    ∃ x ∈ queue, ∃ f : Entity δ, t.entities[x]? = some f ∧ f.path <:+ e.path

theorem foldl_adopt_spec {found : List Nat} (h : Linked t) (he : t.entities[i]? = some e)
    (hi : i ∉ t.orphans) (hnodup : found.Nodup) (hfound : ∀ c ∈ found, c ∈ t.orphans ∧
      ∃ f : Entity δ, t.entities[c]? = some f ∧ f.path.tail? = some e.path) :
    Adopted i found t (found.foldl (Folder.adopt i) t) ∧ Linked (found.foldl (Folder.adopt i) t) := by
  induction found generalizing t e with
  | nil => exact ⟨.nil, h⟩
  | cons c found ih =>
    obtain ⟨hc, f, hf, hpath⟩ := hfound c (List.mem_cons_self ..)
    obtain ⟨hnotin, hnodup⟩ := List.nodup_cons.mp hnodup
    obtain ⟨hadopted, hjoined⟩ := adopt_spec h.toJoined he (fun heq => hi (heq ▸ hc)) hc hf hpath
    have hlinked := hadopted.linked h hjoined hi hc hf
    have he' := hadopted.get.mpr ⟨e, he, rfl⟩
    have hrest : ∀ k ∈ found, k ∈ (Folder.adopt i t c).orphans ∧
        ∃ f : Entity δ, (Folder.adopt i t c).entities[k]? = some f ∧ f.path.tail? = some e.path := by
      intro k hk
      obtain ⟨hk', g, hg, hpath'⟩ := hfound k (List.mem_cons_of_mem _ hk)
      have hkc : k ≠ c := fun heq => hnotin (heq ▸ hk)
      exact ⟨(hadopted.orphans k).mpr ⟨hk', by simpa using hkc⟩, _, hadopted.get.mpr ⟨g, hg, rfl⟩, hpath'⟩
    obtain ⟨hfold, hlinked'⟩ :=
      ih hlinked he' (fun hin => hi ((hadopted.orphans i).mp hin).1) hnodup hrest
    exact ⟨hadopted.cons hfold, hlinked'⟩

theorem mem_below (he : t.entities[i]? = some e) {c : Nat} : c ∈ t.below i ↔
    c ∈ t.orphans ∧ ∃ f : Entity δ, t.entities[c]? = some f ∧ f.path.tail? = some e.path := by
  unfold Folder.below
  rw [List.mem_filter, he, decide_eq_true_iff, Option.map_some, Option.bind_eq_some_iff]

/-- **One step of the queue.** -/
theorem Reaping.next {queue : List Nat} (h : Reaping (i :: queue) t) :
    Reaping (queue ++ t.below i) ((t.below i).foldl (Folder.adopt i) t) ∧
      Adopted i (t.below i) t ((t.below i).foldl (Folder.adopt i) t) := by
  obtain ⟨hi, e, he, hchildren⟩ := h.queued i (List.mem_cons_self ..)
  obtain ⟨hnotin, hqueue⟩ := List.nodup_cons.mp h.nodup
  have hbelow : (t.below i).Nodup := h.linked.nodup.filter _
  obtain ⟨hadopted, hlinked⟩ := foldl_adopt_spec h.linked he hi hbelow fun c hc => (mem_below he).mp hc
  generalize (t.below i).foldl (Folder.adopt i) t = t' at *
  refine ⟨⟨hlinked, fun x hx => ?_, ?_, fun k hk g' hg' hrooted => ?_⟩, hadopted⟩
  · -- what is new in the queue has been an orphan
    obtain ⟨horphan, f, hf, hnone⟩ : (x ∈ t.orphans → x ∈ t.below i) ∧
        ∃ f : Entity δ, t.entities[x]? = some f ∧ f.children = [] := by
      rcases List.mem_append.mp hx with hx | hx
      · obtain ⟨hno, f, hf, hnone⟩ := h.queued x (List.mem_cons_of_mem _ hx)
        exact ⟨fun hin => absurd hin hno, f, hf, hnone⟩
      · obtain ⟨hin, f, hf, -⟩ := (mem_below he).mp hx
        exact ⟨fun _ => hx, f, hf, h.linked.children_of_orphan hin hf⟩
    have hne : x ≠ i := by
      rintro rfl
      rcases List.mem_append.mp hx with hx | hx
      · exact hnotin hx
      · exact hi ((mem_below he).mp hx).1
    refine ⟨fun hin => ?_, _, hadopted.get.mpr ⟨f, hf, rfl⟩, ?_⟩
    · obtain ⟨hin, hno⟩ := (hadopted.orphans x).mp hin
      exact hno (horphan hin)
    · rw [if_neg hne]
      exact (List.append_nil _).trans hnone
  · refine List.nodup_append.mpr ⟨hqueue, hbelow, fun a ha b hb hab => ?_⟩
    exact (h.queued a (List.mem_cons_of_mem _ ha)).1 ((mem_below he).mp (hab ▸ hb)).1
  · obtain ⟨hk, hkbelow⟩ := (hadopted.orphans k).mp hk
    obtain ⟨g, hg, rfl⟩ := hadopted.get.mp hg'
    have hrooted' : Rooted t.Has g.path :=
      Rooted.imp hrooted fun q _ _ hq => hadopted.framed.has.mp hq
    obtain ⟨x, hx, f, hf, hsub⟩ := h.waits k hk g hg hrooted'
    rcases List.mem_cons.mp hx with rfl | hx
    · obtain rfl := Option.some.inj (he.symm.trans hf)
      have hne : e.path ≠ g.path := fun heq => hi (h.linked.unique x k e g he hg heq ▸ hk)
      obtain ⟨n, hn⟩ := exists_cons_suffix hsub hne
      -- the entity below this one and above the orphan
      obtain ⟨y, v, hv, hpath⟩ : t.Has (n :: e.path) := by
        by_cases heq : n :: e.path = g.path
        · exact ⟨k, g, hg, heq.symm⟩
        · exact hrooted'.has hn heq
      have hy : y ∈ t.orphans := by
        by_contra hno
        have hy0 : y ≠ 0 := h.linked.ne_zero hv (by rw [hpath]; exact List.cons_ne_nil n e.path)
        obtain ⟨j, hj⟩ := Option.ne_none_iff_exists'.mp
          (((h.linked.attached_iff hv).mpr hno).resolve_left hy0)
        obtain ⟨w, m, hw, hpath'⟩ := h.linked.parent y j v hv hj
        obtain ⟨-, htail⟩ := List.cons_eq_cons.mp (hpath'.symm.trans hpath)
        obtain rfl := h.linked.unique j x w e hw he htail
        have hchild := (h.linked.children j y e he).mpr ⟨v, hv, hj⟩
        rw [hchildren] at hchild
        cases hchild
      have hybelow : y ∈ t.below x := (mem_below he).mpr ⟨hy, v, hv, by rw [hpath]; rfl⟩
      exact ⟨y, List.mem_append_right _ hybelow, _, hadopted.get.mpr ⟨v, hv, rfl⟩, by
        show v.path <:+ g.path
        rw [hpath]
        exact hn⟩
    · exact ⟨x, List.mem_append_left _ hx, _, hadopted.get.mpr ⟨f, hf, rfl⟩, hsub⟩

/-- **The queue comes to its end**, and then no orphan is rooted. -/
theorem Reaping.run {queue : List Nat} {fuel : Nat} (h : Reaping queue t)
    (hfuel : queue.length + t.orphans.length ≤ fuel) :
    Reaping [] (Folder.reapChildren fuel queue t) ∧ Framed t (Folder.reapChildren fuel queue t) := by
  induction fuel generalizing queue t with
  | zero =>
    obtain rfl : queue = [] := List.length_eq_zero_iff.mp (by omega)
    exact ⟨h, .refl⟩
  | succ fuel ih =>
    cases queue with
    | nil => exact ⟨h, .refl⟩
    | cons i queue =>
      obtain ⟨hnext, hadopted⟩ := h.next
      have hlen : (t.below i ++ ((t.below i).foldl (Folder.adopt i) t).orphans).length ≤ t.orphans.length := by
        refine List.Subperm.length_le (List.subperm_of_subset ?_ fun c hc => ?_)
        · refine List.nodup_append.mpr ⟨h.linked.nodup.filter _, hnext.linked.nodup, fun a ha b hb hab => ?_⟩
          exact ((hadopted.orphans b).mp hb).2 (hab ▸ ha)
        · rcases List.mem_append.mp hc with hc | hc
          · exact (List.mem_filter.mp hc).1
          · exact ((hadopted.orphans c).mp hc).1
      rw [List.length_append] at hlen
      rw [List.length_cons] at hfuel
      obtain ⟨hend, hframed⟩ := ih hnext (by rw [List.length_append]; omega)
      exact ⟨hend, hadopted.framed.trans hframed⟩

theorem Linked.rooted {p : Path} (h : Linked t) (hfind : t.find p = some i) : Rooted t.Has p := by
  induction p generalizing i with
  | nil => trivial
  | cons n p ih =>
    obtain ⟨j, hj, -⟩ := Option.bind_eq_some_iff.mp hfind
    obtain ⟨e, he, hpath, -⟩ := h.find_eq.mp hj
    exact ⟨⟨j, e, he, hpath⟩, ih hj⟩

/-- A path that cannot be found is not there, or it is one of an orphan. -/
theorem Linked.orphan_of_find {p : Path} (h : Linked t) (hfind : t.find p = none) (hhas : t.Has p) :
    ∃ (k : Nat) (e : Entity δ), k ∈ t.orphans ∧ t.entities[k]? = some e ∧ e.path = p := by
  obtain ⟨k, e, he, hpath⟩ := hhas
  refine ⟨k, e, ?_, he, hpath⟩
  by_contra hno
  have hsome := h.find_eq.mpr ⟨e, he, hpath, (h.attached_iff he).mpr hno⟩
  rw [hfind] at hsome
  cases hsome

end Reap

/-! ## Inserting -/

section Insert

variable {δ : Type} [DecidableEq δ] {t t' : Folder δ} {inserted : List (δ × Path)} {i : Nat} {p : Path}

theorem getElem?_concat_iff {α : Type} {l : List α} {x y : α} {j : Nat} :
    (l ++ [x])[j]? = some y ↔ l[j]? = some y ∨ j = l.length ∧ y = x := by
  rcases Nat.lt_trichotomy j l.length with hlt | rfl | hgt
  · rw [List.getElem?_append_left hlt]
    exact ⟨.inl, fun h => h.resolve_right fun h => absurd h.1 (Nat.ne_of_lt hlt)⟩
  · simp [eq_comm]
  · rw [List.getElem?_eq_none (by simp; omega), List.getElem?_eq_none (by omega)]
    simp
    omega

/-- A new orphan. -/
def Folder.push (t : Folder δ) (p : Path) : Folder δ :=
  { t.newEntity p with orphans := t.orphans ++ [t.entities.length] }

theorem Joined.push (h : Joined t) (hnew : ¬ t.Has p) : Joined (t.push p) := by
  have hget {j : Nat} {e : Entity δ} : (t.push p).entities[j]? = some e ↔ t.entities[j]? = some e ∨
      j = t.entities.length ∧ e = ⟨p, t.devices.filter fun d => (d, p) ∈ t.files, none, []⟩ :=
    getElem?_concat_iff
  have hlt {j : Nat} {e : Entity δ} (he : t.entities[j]? = some e) : j ≠ t.entities.length :=
    Nat.ne_of_lt (List.getElem?_eq_some_iff.mp he).1
  have hpos : 0 < t.entities.length := by
    obtain ⟨r, hr, -⟩ := h.root
    exact (List.getElem?_eq_some_iff.mp hr).1
  refine ⟨?_, ?_, ?_, ?_, ?_, ?_⟩
  · obtain ⟨r, hr, hnil, hparent⟩ := h.root
    exact ⟨r, hget.mpr (.inl hr), hnil, hparent⟩
  · intro j k e f he hf heq
    rcases hget.mp he with he | ⟨rfl, rfl⟩ <;> rcases hget.mp hf with hf | ⟨rfl, rfl⟩
    · exact h.unique j k e f he hf heq
    · exact absurd ⟨j, e, he, heq⟩ hnew
    · exact absurd ⟨k, f, hf, heq.symm⟩ hnew
    · rfl
  · intro j k e he
    rcases hget.mp he with he | ⟨rfl, rfl⟩
    · rw [h.children j k e he]
      constructor
      · rintro ⟨f, hf, hparent⟩
        exact ⟨f, hget.mpr (.inl hf), hparent⟩
      · rintro ⟨f, hf, hparent⟩
        rcases hget.mp hf with hf | ⟨rfl, rfl⟩
        · exact ⟨f, hf, hparent⟩
        · cases hparent
    · -- nothing has it as its parent
      refine iff_of_false List.not_mem_nil ?_
      rintro ⟨f, hf, hparent⟩
      rcases hget.mp hf with hf | ⟨rfl, rfl⟩
      · obtain ⟨e, n, he, -⟩ := h.parent k _ f hf hparent
        exact hlt he rfl
      · cases hparent
  · intro k j f hf hparent
    rcases hget.mp hf with hf | ⟨rfl, rfl⟩
    · obtain ⟨e, n, he, hpath⟩ := h.parent k j f hf hparent
      exact ⟨e, n, hget.mpr (.inl he), hpath⟩
    · cases hparent
  · intro j
    show j ∈ t.orphans ++ [t.entities.length] ↔ _
    rw [List.mem_append, h.orphans, List.mem_singleton]
    constructor
    · rintro (⟨hj, e, he, hparent⟩ | rfl)
      · exact ⟨hj, e, hget.mpr (.inl he), hparent⟩
      · exact ⟨Nat.ne_of_gt hpos, _, hget.mpr (.inr ⟨rfl, rfl⟩), rfl⟩
    · rintro ⟨hj, e, he, hparent⟩
      rcases hget.mp he with he | ⟨rfl, rfl⟩
      · exact .inl ⟨hj, e, he, hparent⟩
      · exact .inr rfl
  · refine List.nodup_append.mpr ⟨h.nodup, List.nodup_singleton _, fun a ha b hb hab => ?_⟩
    obtain ⟨-, e, he, -⟩ := (h.orphans a).mp ha
    exact hlt he (hab.trans (List.mem_singleton.mp hb))

omit [DecidableEq δ] in
theorem Joined.length_notMem (h : Joined t) : t.entities.length ∉ t.orphans := by
  intro hin
  obtain ⟨-, f, hf, -⟩ := (h.orphans _).mp hin
  exact absurd (List.getElem?_eq_some_iff.mp hf).1 (Nat.lt_irrefl _)

/-- A new entity with a parent is an orphan for no time. -/
theorem Joined.adopt_push (h : Joined t) : Folder.adopt i (t.push p) t.entities.length =
    (t.newEntity p).addChild i t.entities.length := by
  unfold Folder.adopt Folder.push
  dsimp only
  rw [List.erase_append_right _ h.length_notMem, List.erase_cons_head, List.append_nil]
  rfl

theorem Linked.push (h : Linked t) (hnew : ¬ t.Has p) : Linked (t.push p) := by
  refine ⟨h.toJoined.push hnew, fun k j f e hf hparent he => ?_⟩
  rcases getElem?_concat_iff.mp hf with hf | ⟨rfl, rfl⟩
  · obtain ⟨e', n, he', -⟩ := h.parent k j f hf hparent
    rcases getElem?_concat_iff.mp he with he | ⟨rfl, rfl⟩
    · exact h.grounded k j f e hf hparent he
    · exact absurd (List.getElem?_eq_some_iff.mp he').1 (Nat.lt_irrefl _)
  · cases hparent

theorem push_has {q : Path} : (t.push p).Has q ↔ t.Has q ∨ q = p := by
  constructor
  · rintro ⟨j, e, he, rfl⟩
    rcases getElem?_concat_iff.mp he with he | ⟨-, rfl⟩
    · exact .inl ⟨j, e, he, rfl⟩
    · exact .inr rfl
  · rintro (⟨j, e, he, rfl⟩ | rfl)
    · exact ⟨j, e, getElem?_concat_iff.mpr (.inl he), rfl⟩
    · exact ⟨_, _, getElem?_concat_iff.mpr (.inr ⟨rfl, rfl⟩), rfl⟩

/-- The entities are those of the records that have been inserted. -/
structure Records (inserted : List (δ × Path)) (t : Folder δ) : Prop where
  paths : ∀ p, p ≠ [] → (t.Has p ↔ ∃ d, (d, p) ∈ inserted)
  presences : ∀ (i : Nat) (e : Entity δ), t.entities[i]? = some e → e.path ≠ [] → ∀ d,
    ((d, e.path) ∈ inserted → d ∈ e.presences) ∧ (d ∈ e.presences → (d, e.path) ∈ t.files)

/-- A tree that has grown by insertions: no orphan is rooted. -/
structure Grown (inserted : List (δ × Path)) (t : Folder δ) : Prop where
  linked : Linked t
  waits : ∀ i ∈ t.orphans, ∀ e : Entity δ, t.entities[i]? = some e → ¬ Rooted t.Has e.path
  records : Records inserted t

omit [DecidableEq δ] in
theorem Records.framed (h : Records inserted t) (hframed : Framed t t') : Records inserted t' := by
  refine ⟨fun p hp => hframed.has.trans (h.paths p hp), fun i e he hp d => ?_⟩
  obtain ⟨e', he', hpath, hpresences⟩ := hframed.symm.get he
  rw [← hpath] at hp ⊢
  rw [← hpresences, hframed.files]
  exact h.presences i e' he' hp d

theorem Records.push {d : δ} (h : Records inserted t) (hp : p ≠ []) (hnew : ¬ t.Has p)
    (hd : d ∈ t.devices) (hfile : (d, p) ∈ t.files) : Records (inserted ++ [(d, p)]) (t.push p) := by
  constructor
  · intro q hq
    rw [push_has, h.paths q hq]
    constructor
    · rintro (⟨d', hin⟩ | rfl)
      · exact ⟨d', List.mem_append_left _ hin⟩
      · exact ⟨d, List.mem_append_right _ (List.mem_singleton.mpr rfl)⟩
    · rintro ⟨d', hin⟩
      rcases List.mem_append.mp hin with hin | hin
      · exact .inl ⟨d', hin⟩
      · exact .inr (Prod.mk.inj (List.mem_singleton.mp hin)).2
  · intro i e he hq d'
    rcases getElem?_concat_iff.mp he with he | ⟨-, rfl⟩
    · refine ⟨fun hin => ?_, (h.presences i e he hq d').2⟩
      rcases List.mem_append.mp hin with hin | hin
      · exact (h.presences i e he hq d').1 hin
      · exact absurd ⟨i, e, he, (Prod.mk.inj (List.mem_singleton.mp hin)).2⟩ hnew
    · dsimp only
      rw [List.mem_filter, decide_eq_true_iff]
      refine ⟨fun hin => ?_, fun hin => hin.2⟩
      rcases List.mem_append.mp hin with hin | hin
      · exact absurd ((h.paths p hp).mpr ⟨d', hin⟩) hnew
      · obtain rfl := (Prod.mk.inj (List.mem_singleton.mp hin)).1
        exact ⟨hd, hfile⟩

theorem fileInsert_get {d : δ} {j : Nat} {e' : Entity δ} : (t.fileInsert i d).entities[j]? = some e' ↔
    ∃ e : Entity δ, t.entities[j]? = some e ∧ e' = if i = j then
      { e with presences := if d ∈ e.presences then e.presences else e.presences ++ [d] } else e := by
  show (t.entities.modify i _)[j]? = some e' ↔ _
  rw [List.getElem?_modify, Option.map_eq_map, Option.map_eq_some_iff]
  constructor
  · rintro ⟨e, he, heq⟩
    exact ⟨e, he, heq.symm⟩
  · rintro ⟨e, he, rfl⟩
    exact ⟨e, he, rfl⟩

/-- A presence changes no link. -/
theorem Linked.fileInsert (h : Linked t) (d : δ) : Linked (t.fileInsert i d) := by
  have hget {j : Nat} {e' : Entity δ} (he' : (t.fileInsert i d).entities[j]? = some e') :
      ∃ e : Entity δ, t.entities[j]? = some e ∧ e'.path = e.path ∧ e'.parent = e.parent ∧
        e'.children = e.children := by
    obtain ⟨e, he, rfl⟩ := fileInsert_get.mp he'
    refine ⟨e, he, ?_⟩
    split <;> exact ⟨rfl, rfl, rfl⟩
  have hset {j : Nat} {e : Entity δ} (he : t.entities[j]? = some e) :
      ∃ e' : Entity δ, (t.fileInsert i d).entities[j]? = some e' ∧ e'.path = e.path ∧
        e'.parent = e.parent := by
    refine ⟨_, fileInsert_get.mpr ⟨e, he, rfl⟩, ?_⟩
    split <;> exact ⟨rfl, rfl⟩
  refine ⟨⟨?_, ?_, ?_, ?_, ?_, h.nodup⟩, ?_⟩
  · obtain ⟨r, hr, hnil, hparent⟩ := h.root
    obtain ⟨r', hr', hpath, hparent'⟩ := hset hr
    exact ⟨r', hr', hpath.trans hnil, hparent'.trans hparent⟩
  · intro j k e' f' he' hf' heq
    obtain ⟨e, he, hpath, -⟩ := hget he'
    obtain ⟨f, hf, hpath', -⟩ := hget hf'
    exact h.unique j k e f he hf (hpath.symm.trans (heq.trans hpath'))
  · intro j k e' he'
    obtain ⟨e, he, -, -, hchildren⟩ := hget he'
    rw [hchildren, h.children j k e he]
    constructor
    · rintro ⟨f, hf, hparent⟩
      obtain ⟨f', hf', -, hparent'⟩ := hset hf
      exact ⟨f', hf', hparent'.trans hparent⟩
    · rintro ⟨f', hf', hparent⟩
      obtain ⟨f, hf, -, hparent', -⟩ := hget hf'
      exact ⟨f, hf, hparent'.symm.trans hparent⟩
  · intro k j f' hf' hparent
    obtain ⟨f, hf, hpath, hparent', -⟩ := hget hf'
    obtain ⟨e, n, he, hpath'⟩ := h.parent k j f hf (hparent'.symm.trans hparent)
    obtain ⟨e', he', hpath'', -⟩ := hset he
    exact ⟨e', n, he', by rw [hpath, hpath', hpath'']⟩
  · intro j
    show j ∈ t.orphans ↔ _
    rw [h.orphans]
    refine and_congr_right fun _ => ⟨?_, ?_⟩
    · rintro ⟨e, he, hparent⟩
      obtain ⟨e', he', -, hparent'⟩ := hset he
      exact ⟨e', he', hparent'.trans hparent⟩
    · rintro ⟨e', he', hparent⟩
      obtain ⟨e, he, -, hparent', -⟩ := hget he'
      exact ⟨e, he, hparent'.symm.trans hparent⟩
  · intro k j f' e' hf' hparent he'
    obtain ⟨f, hf, -, hparent', -⟩ := hget hf'
    obtain ⟨e, he, -, hparent'', -⟩ := hget he'
    rw [hparent'']
    exact h.grounded k j f e hf (hparent'.symm.trans hparent) he

theorem fileInsert_has {d : δ} {q : Path} : (t.fileInsert i d).Has q ↔ t.Has q := by
  constructor
  · rintro ⟨j, e', he', rfl⟩
    obtain ⟨e, he, rfl⟩ := fileInsert_get.mp he'
    refine ⟨j, e, he, ?_⟩
    split <;> rfl
  · rintro ⟨j, e, he, rfl⟩
    refine ⟨j, _, fileInsert_get.mpr ⟨e, he, rfl⟩, ?_⟩
    split <;> rfl

/-- The entity is there already. -/
theorem Grown.fileInsert {d : δ} {e : Entity δ} (h : Grown inserted t) (he : t.entities[i]? = some e)
    (hp : e.path ≠ []) (hfile : (d, e.path) ∈ t.files) :
    Grown (inserted ++ [(d, e.path)]) (t.fileInsert i d) := by
  refine ⟨h.linked.fileInsert d, fun j hj e' he' hrooted => ?_, fun q hq => ?_, fun j e' he' hq d' => ?_⟩
  · obtain ⟨f, hf, rfl⟩ := fileInsert_get.mp he'
    refine h.waits j hj f hf ?_
    have hpath : (if i = j then { f with presences := if d ∈ f.presences then f.presences
        else f.presences ++ [d] } else f).path = f.path := by split <;> rfl
    rw [hpath] at hrooted
    exact hrooted.imp fun q _ _ hq => fileInsert_has.mp hq
  · rw [fileInsert_has, h.records.paths q hq]
    constructor
    · rintro ⟨d', hin⟩
      exact ⟨d', List.mem_append_left _ hin⟩
    · rintro ⟨d', hin⟩
      rcases List.mem_append.mp hin with hin | hin
      · exact ⟨d', hin⟩
      · obtain rfl := (Prod.mk.inj (List.mem_singleton.mp hin)).2
        exact (h.records.paths _ hq).mp ⟨i, e, he, rfl⟩
  · obtain ⟨f, hf, rfl⟩ := fileInsert_get.mp he'
    by_cases hij : i = j
    · subst hij
      obtain rfl := Option.some.inj (he.symm.trans hf)
      obtain ⟨hold, hknown⟩ := h.records.presences i e he hp d'
      have hmem : d' ∈ (if d ∈ e.presences then e.presences else e.presences ++ [d]) ↔
          d' ∈ e.presences ∨ d' = d := by
        split
        · rename_i hin
          exact ⟨.inl, fun h => h.elim id fun heq => heq ▸ hin⟩
        · simp
      rw [if_pos rfl]
      dsimp only
      rw [hmem]
      constructor
      · intro hin
        rcases List.mem_append.mp hin with hin | hin
        · exact .inl (hold hin)
        · exact .inr (Prod.mk.inj (List.mem_singleton.mp hin)).1
      · rintro (hin | rfl)
        · exact hknown hin
        · exact hfile
    · rw [if_neg hij] at hq ⊢
      obtain ⟨hold, hknown⟩ := h.records.presences j f hf hq d'
      refine ⟨fun hin => ?_, hknown⟩
      rcases List.mem_append.mp hin with hin | hin
      · exact hold hin
      · have hpath := (Prod.mk.inj (List.mem_singleton.mp hin)).2
        exact absurd (h.linked.unique i j e f he hf hpath.symm) hij

omit [DecidableEq δ] in
/-- What waits for a new entity is below it. -/
theorem Grown.below_new {k : Nat} {f : Entity δ} {q : Path} (h : Grown inserted t) (hk : k ∈ t.orphans)
    (hf : t.entities[k]? = some f) (hpath : f.path = q) (hrooted : Rooted (fun q => t.Has q ∨ q = p) q) :
    p <:+ q ∧ p ≠ q := by
  subst hpath
  by_contra hno
  refine h.waits k hk f hf (hrooted.imp fun q hq hne hor => hor.resolve_right ?_)
  rintro rfl
  exact hno ⟨hq, hne⟩

/-- An entity that cannot be reached yet. -/
theorem Grown.push {d : δ} (h : Grown inserted t) (hp : p ≠ []) (hnew : ¬ t.Has p)
    (htail : t.find p.tail = none) (hd : d ∈ t.devices) (hfile : (d, p) ∈ t.files) :
    Grown (inserted ++ [(d, p)]) (t.push p) := by
  have hnone : ¬ Rooted (fun q => t.Has q ∨ q = p) p := by
    intro hrooted
    cases p with
    | nil => exact hp rfl
    | cons n q =>
      have hrooted' : Rooted t.Has (n :: q) := hrooted.imp fun q _ hne hor => hor.resolve_right hne
      obtain ⟨k, e, hk, he, rfl⟩ := h.linked.orphan_of_find htail hrooted'.1
      exact h.waits k hk e he hrooted'.2
  refine ⟨h.linked.push hnew, fun k hk e he hrooted => ?_, h.records.push hp hnew hd hfile⟩
  have hrooted' : Rooted (fun q => t.Has q ∨ q = p) e.path := hrooted.imp fun q _ _ hq => push_has.mp hq
  rcases getElem?_concat_iff.mp he with hold | ⟨rfl, rfl⟩
  · have hk' : k ∈ t.orphans := by
      refine (List.mem_append.mp hk).resolve_right fun hlast => ?_
      exact absurd (List.getElem?_eq_some_iff.mp hold).1 (by rw [List.mem_singleton.mp hlast]; omega)
    exact hnone (hrooted'.suffix (h.below_new hk' hold rfl hrooted').1)
  · exact hnone hrooted'

/-- An entity whose parent hangs below the folder: what has waited for it is reaped. -/
theorem Grown.attach {d : δ} (h : Grown inserted t) (hp : p ≠ []) (hnew : ¬ t.Has p)
    (hi : t.find p.tail = some i) (hd : d ∈ t.devices) (hfile : (d, p) ∈ t.files) :
    Grown (inserted ++ [(d, p)])
      (Folder.reapChildren (t.orphans.length + 1) [t.entities.length]
        ((t.newEntity p).addChild i t.entities.length)) := by
  obtain ⟨e, he, hpath, hattached⟩ := h.linked.find_eq.mp hi
  have hpushed := h.linked.push hnew
  have hcget : (t.push p).entities[t.entities.length]? =
      some ⟨p, t.devices.filter fun d => (d, p) ∈ t.files, none, []⟩ :=
    getElem?_concat_iff.mpr (.inr ⟨rfl, rfl⟩)
  have hnotin := h.linked.length_notMem
  have hine : i ≠ t.entities.length := Nat.ne_of_lt (List.getElem?_eq_some_iff.mp he).1
  have hieq : i ∉ (t.push p).orphans := by
    intro hin
    rcases List.mem_append.mp hin with hin | hin
    · exact (h.linked.attached_iff he).mp hattached hin
    · exact hine (List.mem_singleton.mp hin)
  have hcin : t.entities.length ∈ (t.push p).orphans :=
    List.mem_append_right _ (List.mem_singleton.mpr rfl)
  obtain ⟨hadopted, hjoined⟩ := adopt_spec hpushed.toJoined (getElem?_concat_iff.mpr (.inl he)) hine hcin
    hcget (by
      cases p with
      | nil => exact absurd rfl hp
      | cons n q => exact congrArg some hpath.symm)
  have hlinked := hadopted.linked hpushed hjoined hieq hcin hcget
  rw [h.linked.adopt_push] at hadopted hlinked
  have horphans : ((t.newEntity p).addChild i t.entities.length).orphans = t.orphans := rfl
  generalize (t.newEntity p).addChild i t.entities.length = u at *
  have hrecords := (h.records.push hp hnew hd hfile).framed hadopted.framed
  have hhas : ∀ q, u.Has q ↔ t.Has q ∨ q = p := fun q => hadopted.framed.has.trans push_has
  have hcu := hadopted.get.mpr ⟨_, hcget, rfl⟩
  have hreaping : Reaping [t.entities.length] u := by
    refine ⟨hlinked, fun x hx => ?_, List.nodup_singleton _, fun k hk g hg hrooted => ?_⟩
    · obtain rfl := List.mem_singleton.mp hx
      exact ⟨horphans ▸ hnotin, _, hcu, if_neg hine.symm⟩
    · rw [horphans] at hk
      obtain ⟨g', hg', rfl⟩ := hadopted.get.mp hg
      rcases getElem?_concat_iff.mp hg' with hold | ⟨rfl, -⟩
      · have hbelow := h.below_new hk hold rfl (hrooted.imp fun q _ _ hq => (hhas q).mp hq)
        exact ⟨_, List.mem_singleton.mpr rfl, _, hcu, hbelow.1⟩
      · exact absurd hk hnotin
  have hfuel : [t.entities.length].length + u.orphans.length ≤ t.orphans.length + 1 := by
    rw [horphans, List.length_singleton, Nat.add_comm]
  obtain ⟨hend, hframed⟩ := hreaping.run hfuel
  refine ⟨hend.linked, fun k hk f hf hrooted => ?_, hrecords.framed hframed⟩
  obtain ⟨x, hx, -⟩ := hend.waits k hk f hf hrooted
  cases hx

/-- **One insertion.** -/
theorem Grown.insert {d : δ} (h : Grown inserted t) (hp : p ≠ []) (hd : d ∈ t.devices) :
    Grown (inserted ++ [(d, p)]) (t.insert (d, p)) := by
  have hgrown : Grown inserted { t with files := t.files ++ [(d, p)] } := by
    refine ⟨⟨⟨h.linked.root, h.linked.unique, h.linked.children, h.linked.parent, h.linked.orphans,
      h.linked.nodup⟩, h.linked.grounded⟩, h.waits, h.records.paths, fun i e he hq d' => ?_⟩
    obtain ⟨hold, hknown⟩ := h.records.presences i e he hq d'
    exact ⟨hold, fun hin => List.mem_append_left _ (hknown hin)⟩
  have hfile : (d, p) ∈ { t with files := t.files ++ [(d, p)] }.files :=
    List.mem_append_right _ (List.mem_singleton.mpr rfl)
  have hd' : d ∈ { t with files := t.files ++ [(d, p)] }.devices := hd
  unfold Folder.insert
  generalize ({ t with files := t.files ++ [(d, p)] } : Folder δ) = u at *
  unfold Folder.onInsert
  dsimp only
  cases hfind : u.find p with
  | some i =>
    obtain ⟨e, he, rfl, -⟩ := hgrown.linked.find_eq.mp hfind
    exact hgrown.fileInsert he hp hfile
  | none =>
    cases htail : u.find p.tail with
    | some i =>
      refine hgrown.attach hp (fun hhas => ?_) htail hd' hfile
      obtain ⟨k, e, hk, he, rfl⟩ := hgrown.linked.orphan_of_find hfind hhas
      refine hgrown.waits k hk e he ?_
      obtain ⟨f, hf, hpath, -⟩ := hgrown.linked.find_eq.mp htail
      cases hq : e.path with
      | nil => exact absurd hq hp
      | cons n q =>
        rw [hq] at htail hpath
        exact ⟨⟨i, f, hf, hpath⟩, hgrown.linked.rooted htail⟩
    | none =>
      dsimp only
      cases horphan : u.orphans.find? fun c => decide ((u.entities[c]?).map Entity.path = some p) with
      | some c =>
        have hpath : (u.entities[c]?).map Entity.path = some p := by simpa using List.find?_some horphan
        obtain ⟨e, he, rfl⟩ := Option.map_eq_some_iff.mp hpath
        exact hgrown.fileInsert he hp hfile
      | none =>
        refine hgrown.push hp (fun hhas => ?_) htail hd' hfile
        obtain ⟨k, e, hk, he, rfl⟩ := hgrown.linked.orphan_of_find hfind hhas
        have hno := List.find?_eq_none.mp horphan k hk
        rw [he] at hno
        exact hno (decide_eq_true rfl)

omit [DecidableEq δ] in
/-- What is seen of the model stays. -/
theorem foldl_adopt_model (found : List Nat) : (found.foldl (Folder.adopt i) t).devices = t.devices ∧
    (found.foldl (Folder.adopt i) t).files = t.files := by
  induction found generalizing t with
  | nil => exact ⟨rfl, rfl⟩
  | cons c found ih => exact ih

omit [DecidableEq δ] in
theorem reapChildren_model {fuel : Nat} {queue : List Nat} :
    (Folder.reapChildren fuel queue t).devices = t.devices ∧
      (Folder.reapChildren fuel queue t).files = t.files := by
  induction fuel generalizing queue t with
  | zero => exact ⟨rfl, rfl⟩
  | succ fuel ih =>
    cases queue with
    | nil => exact ⟨rfl, rfl⟩
    | cons i queue =>
      obtain ⟨hdevices, hfiles⟩ := foldl_adopt_model (t.below i)
      exact ⟨ih.1.trans hdevices, ih.2.trans hfiles⟩

theorem insert_model {r : δ × Path} :
    (t.insert r).devices = t.devices ∧ (t.insert r).files = t.files ++ [r] := by
  unfold Folder.insert Folder.onInsert
  split
  · exact ⟨rfl, rfl⟩
  · split
    · exact reapChildren_model
    · dsimp only
      split
      · exact ⟨rfl, rfl⟩
      · exact ⟨rfl, rfl⟩

theorem Grown.run {order : List (δ × Path)} (h : Grown inserted t)
    (horder : ∀ r ∈ order, r.1 ∈ t.devices ∧ r.2 ≠ []) :
    Grown (inserted ++ order) (order.foldl Folder.insert t) ∧
      (order.foldl Folder.insert t).devices = t.devices ∧
      (order.foldl Folder.insert t).files = t.files ++ order := by
  induction order generalizing inserted t with
  | nil =>
    rw [List.append_nil, List.append_nil]
    exact ⟨h, rfl, rfl⟩
  | cons r order ih =>
    obtain ⟨hdevice, hpath⟩ := horder r (List.mem_cons_self ..)
    obtain ⟨hdevices, hfiles⟩ := insert_model (t := t) (r := r)
    obtain ⟨hgrown, hdevices', hfiles'⟩ := ih (h.insert hpath hdevice) fun r hr => by
      rw [hdevices]
      exact horder r (List.mem_cons_of_mem _ hr)
    rw [List.append_assoc, List.singleton_append] at hgrown
    rw [hfiles, List.append_assoc, List.singleton_append] at hfiles'
    exact ⟨hgrown, hdevices'.trans hdevices, hfiles'⟩

end Insert

end Hierarchy

end SyncSpirit
