import SyncSpirit.Watcher

/-!
# What the watcher reports

The reports of both windows, applied to what was known before, should say what is on disk.
`Sound` is the invariant for that: what is known and gone is taken away by some record, what
is there and not known is announced by one, and nothing is taken away that is there and not
announced in the same window or later.

Merging two records may lose one of the two paths they are about. `Mergeable` says when it
does not; `known_of_run` is for runs of such events, and `deletion_lost` is a run that
has another one.
-/

namespace SyncSpirit

namespace Watcher

/-- The record takes the path away when it is reported. -/
def Removes (disk : Finset String) (r : FileUpdate) (x : String) : Prop :=
  if r.type.deleted then r.type.created1 = false ∧ x = if r.prevPath ≠ "" then r.prevPath else r.path
  else r.path ∈ disk ∧ r.prevPath = x ∧ x ≠ ""

/-- The record says that the path is there when it is reported. -/
def Adds (disk : Finset String) (r : FileUpdate) (x : String) : Prop :=
  r.type.deleted = false ∧ r.path = x ∧ x ∈ disk

instance (disk : Finset String) (r : FileUpdate) (x : String) : Decidable (Removes disk r x) := by
  unfold Removes
  infer_instance

instance (disk : Finset String) (r : FileUpdate) (x : String) : Decidable (Adds disk r x) :=
  inferInstanceAs (Decidable (_ ∧ _ ∧ _))

namespace Window

/-- Some record of the window takes the path away. -/
def Takes (w : Window) (disk : Finset String) (x : String) : Prop := ∃ r ∈ w.records, Removes disk r x

/-- Some record of the window says that the path is there. -/
def Announces (w : Window) (disk : Finset String) (x : String) : Prop := ∃ r ∈ w.records, Adds disk r x

instance (w : Window) (disk : Finset String) (x : String) : Decidable (w.Takes disk x) :=
  inferInstanceAs (Decidable (∃ r ∈ w.records, Removes disk r x))

instance (w : Window) (disk : Finset String) (x : String) : Decidable (w.Announces disk x) :=
  inferInstanceAs (Decidable (∃ r ∈ w.records, Adds disk r x))

end Window

/-- Some record takes the path away, if it is known at all. -/
def Windows.Covers (ws : Windows) (disk known : Finset String) (x : String) : Prop :=
  x ∈ known → ws.source.Takes disk x ∨ ws.target.Takes disk x

/-- A rename keeps the path it is from: that path is gone, or announced later. -/
def Windows.Keeps (ws : Windows) (disk : Finset String) (x : String) : Prop :=
  x ∈ disk → ws.target.Announces disk x

/-- A rename becomes a deletion and a creation: the path it is from is gone and has no other
record, or it is back and has one, or its record is a deletion as well. -/
def Windows.Splits (ws : Windows) (disk known : Finset String) (x : String) : Prop :=
  match ws.target.find x with
  | none => x ∉ disk
  | some r => x ∈ disk ∨ x ∉ known ∨ r.type.deleted = true ∧ r.type.created1 = false ∧ r.prevPath = ""

/-- A rename back: the path was there before, and no other record is about it. -/
def Windows.Reverts (ws : Windows) (known : Finset String) (r : FileUpdate) (x : String) : Prop :=
  x ∈ known ∧ ∀ r' ∈ ws.source.records ++ ws.target.records, r' = r ∨ r'.path ≠ x ∧ r'.prevPath ≠ x

/-- The paths of an event. -/
def Change.paths : Change → String × String
  | .created path | .deleted path | .content path | .metadata path => (path, "")
  | .renamed prevPath path => (path, prevPath)

/-- What is asked of an event that is merged with a record. `disk` is before the event. -/
def Change.MergesWith (e : Change) (ws : Windows) (disk known : Finset String) (r : FileUpdate) : Prop :=
  match e with
  | .created _ => r.prevPath ≠ "" → r.type.deleted = false ∧ ws.Splits (e.perform disk) known r.prevPath
  | .content _ => r.prevPath ≠ "" → ws.Splits disk known r.prevPath
  | .metadata _ => r.prevPath ≠ "" → ws.Keeps disk r.prevPath
  | .deleted path =>
    (r.type.created1 = true ∨ r.prevPath ≠ "" → ws.Covers disk known path) ∧
      (r.prevPath ≠ "" → ws.Keeps (e.perform disk) r.prevPath)
  | .renamed prevPath path =>
    if r.path = path ∧ r.type.contentLike = true then ws.Splits (e.perform disk) known prevPath
    else r.prevPath ≠ "" → (r.prevPath ≠ prevPath → ws.Covers disk known prevPath) ∧
      if r.path = prevPath ∧ r.prevPath = path then ws.Reverts known r path
      else ws.Keeps (e.perform disk) r.prevPath

/-- What an event is about is there. -/
def Change.Possible (e : Change) (disk : Finset String) : Prop :=
  match e with
  | .created _ | .deleted _ => True
  | .content path | .metadata path => path ∈ disk
  | .renamed prevPath path => prevPath ∈ disk ∧ prevPath ≠ path ∧ prevPath ≠ ""

/-- The disk may change for a record that stays: a rename does not lose the path it is from, and does
not take it away again. -/
def Harmless (disk disk' known : Finset String) (r : FileUpdate) : Prop :=
  r.type.deleted = true ∨ r.prevPath = "" ∨
    if r.path ∈ disk' then r.path ∈ disk ∨ r.prevPath ∉ disk'
    else r.path ∉ disk ∨ r.prevPath ∈ disk' ∨ r.prevPath ∉ known

/-- **An event that can be merged** without losing a path. -/
structure Mergeable (ws : Windows) (disk known : Finset String) (e : Change) : Prop where
  path : e.paths.1 ≠ ""
  possible : e.Possible disk
  target : ∀ r ∈ ws.target.records, ws.locate e.paths.1 e.paths.2 = some (r, false) ∨
    Harmless disk (e.perform disk) known r
  source : ∀ r ∈ ws.source.records, ws.locate e.paths.1 e.paths.2 = some (r, true) ∨
    Harmless disk (e.perform disk) known r
  merges : ∀ found ∈ ws.locate e.paths.1 e.paths.2, e.MergesWith ws disk known found.1

section Decidable

variable (ws : Windows) (disk known : Finset String) (r : FileUpdate) (x : String) (e : Change)

instance : Decidable (ws.Covers disk known x) :=
  inferInstanceAs (Decidable (x ∈ known → ws.source.Takes disk x ∨ ws.target.Takes disk x))

instance : Decidable (ws.Keeps disk x) :=
  inferInstanceAs (Decidable (x ∈ disk → ws.target.Announces disk x))

instance : Decidable (ws.Splits disk known x) :=
  match h : ws.target.find x with
  | none => decidable_of_iff (x ∉ disk) (by rw [Windows.Splits, h])
  | some r => decidable_of_iff
      (x ∈ disk ∨ x ∉ known ∨ r.type.deleted = true ∧ r.type.created1 = false ∧ r.prevPath = "")
      (by rw [Windows.Splits, h])

instance : Decidable (ws.Reverts known r x) := inferInstanceAs (Decidable (_ ∧ ∀ r' ∈ _, _))

instance : Decidable (e.MergesWith ws disk known r) := by
  cases e <;> unfold Change.MergesWith <;> infer_instance

instance : Decidable (e.Possible disk) := by
  cases e <;> unfold Change.Possible <;> infer_instance

instance (disk' : Finset String) : Decidable (Harmless disk disk' known r) := by
  unfold Harmless
  infer_instance

instance : Decidable (Mergeable ws disk known e) :=
  decidable_of_iff (e.paths.1 ≠ "" ∧ e.Possible disk ∧
      (∀ r ∈ ws.target.records, ws.locate e.paths.1 e.paths.2 = some (r, false) ∨
        Harmless disk (e.perform disk) known r) ∧
      (∀ r ∈ ws.source.records, ws.locate e.paths.1 e.paths.2 = some (r, true) ∨
        Harmless disk (e.perform disk) known r) ∧
      ∀ found ∈ ws.locate e.paths.1 e.paths.2, e.MergesWith ws disk known found.1)
    ⟨fun ⟨h₁, h₂, h₃, h₄, h₅⟩ => ⟨h₁, h₂, h₃, h₄, h₅⟩, fun h => ⟨h.path, h.possible, h.target, h.source, h.merges⟩⟩

end Decidable

/-! ## The invariant -/

/-- The shape of a record: another path comes with a rename or with a deletion. -/
structure Shape (r : FileUpdate) : Prop where
  path : r.path ≠ ""
  prev : r.prevPath ≠ "" → r.prevPath ≠ r.path ∧
    (r.type = Kind.metadata.updateType ∨ r.type = Kind.deleted.updateType)

/-- **The windows tell what is on disk.** The records of `source` are reported before those of
`target`. -/
structure Sound (ws : Windows) (disk known : Finset String) : Prop where
  shape : ∀ r, r ∈ ws.source.records ∨ r ∈ ws.target.records → Shape r
  gone : ∀ x ∈ known, x ∉ disk → ws.source.Takes disk x ∨ ws.target.Takes disk x
  there : ∀ x ∈ disk, x ∉ known → ws.source.Announces disk x ∨ ws.target.Announces disk x
  later : ∀ x ∈ disk, ws.target.Takes disk x → ws.target.Announces disk x
  earlier : ∀ x ∈ disk, ws.source.Takes disk x → ws.source.Announces disk x ∨ ws.target.Announces disk x
  dead : ∀ r ∈ ws.target.records, r.type.deleted = true → r.path ∉ disk
  hidden : ∀ r ∈ ws.source.records, r.type.deleted = true → r.path ∈ disk → ws.target.find r.path ≠ none

/-- What one event does to the windows: the located record leaves, and new ones come. -/
structure Frame (ws ws' : Windows) (disk disk' known : Finset String) (located news : FileUpdate → Prop) :
    Prop where
  target : ∀ r ∈ ws'.target.records, r ∈ ws.target.records ∧ Harmless disk disk' known r ∨ news r
  source : ∀ r ∈ ws'.source.records, r ∈ ws.source.records ∧ Harmless disk disk' known r
  keptTarget : ∀ r ∈ ws.target.records,
    r ∈ ws'.target.records ∧ Harmless disk disk' known r ∨ located r
  keptSource : ∀ r ∈ ws.source.records, r ∈ ws'.source.records ∨ located r

/-- What an event owes: what comes is announced, what goes is taken away, and the new records
do for the located one. -/
structure Merged (ws ws' : Windows) (disk disk' known : Finset String) (located news : FileUpdate → Prop) :
    Prop extends Frame ws ws' disk disk' known located news where
  appears : ∀ x ∈ disk', x ∈ disk ∨ ws'.target.Announces disk' x ∨
    x ∈ known ∧ ∀ r, r ∈ ws'.source.records ∨ r ∈ ws'.target.records → ¬ Removes disk' r x ∧ r.path ≠ x
  vanishes : ∀ x ∈ disk, x ∉ disk' → x ∈ known → ws'.source.Takes disk' x ∨ ws'.target.Takes disk' x
  takes : ∀ r x, located r → Removes disk r x → x ∈ known → x ∉ disk' →
    ws'.source.Takes disk' x ∨ ws'.target.Takes disk' x
  stays : ∀ r, located r → r.path ∈ disk' → ws'.target.Announces disk' r.path
  newTakes : ∀ r, news r → ∀ x ∈ disk', Removes disk' r x → ws'.target.Announces disk' x
  newShape : ∀ r, news r → Shape r
  newDead : ∀ r, news r → r.type.deleted = true → r.path ∉ disk'

section Sound

variable {ws ws' : Windows} {disk disk' known : Finset String} {r : FileUpdate} {x : String}

/-- A record that stays still takes away what is gone. -/
theorem Harmless.removes (h : Harmless disk disk' known r) (hr : Removes disk r x) (hknown : x ∈ known)
    (hx : x ∉ disk') : Removes disk' r x := by
  unfold Removes at hr ⊢
  split at hr
  · rename_i hdeleted
    rw [if_pos hdeleted]
    exact hr
  · rename_i hdeleted
    obtain ⟨hpath, hprev, hne⟩ := hr
    rw [if_neg hdeleted]
    refine ⟨?_, hprev, hne⟩
    rcases h with h | h | h
    · exact absurd h hdeleted
    · exact absurd (hprev.symm.trans h) hne
    · split at h
      · assumption
      · rw [hprev] at h
        tauto

/-- A record that stays does not take away more of what is there. -/
theorem Harmless.of_removes (h : Harmless disk disk' known r) (hr : Removes disk' r x) (hx : x ∈ disk') :
    Removes disk r x := by
  unfold Removes at hr ⊢
  split at hr
  · rename_i hdeleted
    rw [if_pos hdeleted]
    exact hr
  · rename_i hdeleted
    obtain ⟨hpath, hprev, hne⟩ := hr
    rw [if_neg hdeleted]
    refine ⟨?_, hprev, hne⟩
    rcases h with h | h | h
    · exact absurd h hdeleted
    · exact absurd (hprev.symm.trans h) hne
    · rw [if_pos hpath, hprev] at h
      tauto

/-- A record of a path that is announced is not a deletion. -/
theorem not_deleted_of_announces {w : Window} (h : w.Announces disk r.path) (hr : r ∈ w.records) :
    r.type.deleted = false := by
  obtain ⟨r', hr', hadds⟩ := h
  have heq : r' = r := List.inj_on_of_nodup_map w.nodup hr' hr hadds.2.1
  rw [← heq]
  exact hadds.1

/-- What was announced and is still there is announced. -/
theorem Merged.announces {located news : FileUpdate → Prop}
    (hm : Merged ws ws' disk disk' known located news) (hx : x ∈ disk') :
    (ws.target.Announces disk x → ws'.target.Announces disk' x) ∧
      (ws.source.Announces disk x → ws'.source.Announces disk' x ∨ ws'.target.Announces disk' x) := by
  constructor
  · rintro ⟨r, hr, hadds⟩
    rcases hm.keptTarget r hr with ⟨hkept, -⟩ | hlocated
    · exact ⟨r, hkept, hadds.1, hadds.2.1, hx⟩
    · have hpath := hadds.2.1
      rw [← hpath] at hx ⊢
      exact hm.stays r hlocated hx
  · rintro ⟨r, hr, hadds⟩
    rcases hm.keptSource r hr with hkept | hlocated
    · exact .inl ⟨r, hkept, hadds.1, hadds.2.1, hx⟩
    · have hpath := hadds.2.1
      rw [← hpath] at hx ⊢
      exact .inr (hm.stays r hlocated hx)

/-- **One event** keeps the invariant. -/
theorem Sound.merged (h : Sound ws disk known) {located news : FileUpdate → Prop}
    (hm : Merged ws ws' disk disk' known located news) : Sound ws' disk' known where
  shape r hr := by
    rcases hr with hr | hr
    · exact h.shape r (.inl (hm.source r hr).1)
    · rcases hm.target r hr with hr | hr
      · exact h.shape r (.inr hr.1)
      · exact hm.newShape r hr
  gone x hknown hx := by
    by_cases hdisk : x ∈ disk
    · exact hm.vanishes x hdisk hx hknown
    · rcases h.gone x hknown hdisk with ⟨r, hr, htakes⟩ | ⟨r, hr, htakes⟩
      · rcases hm.keptSource r hr with hkept | hlocated
        · exact .inl ⟨r, hkept, (hm.source r hkept).2.removes htakes hknown hx⟩
        · exact hm.takes r x hlocated htakes hknown hx
      · rcases hm.keptTarget r hr with ⟨hkept, hharm⟩ | hlocated
        · exact .inr ⟨r, hkept, hharm.removes htakes hknown hx⟩
        · exact hm.takes r x hlocated htakes hknown hx
  there x hx hknown := by
    rcases hm.appears x hx with hdisk | hannounced | hsafe
    · rcases h.there x hdisk hknown with hs | ht
      · exact (hm.announces hx).2 hs
      · exact .inr ((hm.announces hx).1 ht)
    · exact .inr hannounced
    · exact absurd hsafe.1 hknown
  later x hx htakes := by
    rcases hm.appears x hx with hdisk | hannounced | hsafe
    · obtain ⟨r, hr, hremoves⟩ := htakes
      rcases hm.target r hr with ⟨hold, hharm⟩ | hnew
      · exact (hm.announces hx).1 (h.later x hdisk ⟨r, hold, hharm.of_removes hremoves hx⟩)
      · exact hm.newTakes r hnew x hx hremoves
    · exact hannounced
    · obtain ⟨r, hr, hremoves⟩ := htakes
      exact absurd hremoves (hsafe.2 r (.inr hr)).1
  earlier x hx htakes := by
    rcases hm.appears x hx with hdisk | hannounced | hsafe
    · obtain ⟨r, hr, hremoves⟩ := htakes
      obtain ⟨hold, hharm⟩ := hm.source r hr
      rcases h.earlier x hdisk ⟨r, hold, hharm.of_removes hremoves hx⟩ with hs | ht
      · exact (hm.announces hx).2 hs
      · exact .inr ((hm.announces hx).1 ht)
    · exact .inr hannounced
    · obtain ⟨r, hr, hremoves⟩ := htakes
      exact absurd hremoves (hsafe.2 r (.inl hr)).1
  dead r hr hdeleted hx := by
    rcases hm.target r hr with ⟨hold, -⟩ | hnew
    · rcases hm.appears r.path hx with hdisk | hannounced | hsafe
      · exact h.dead r hold hdeleted hdisk
      · rw [not_deleted_of_announces hannounced hr] at hdeleted
        cases hdeleted
      · exact (hsafe.2 r (.inr hr)).2 rfl
    · exact hm.newDead r hnew hdeleted hx
  hidden r hr hdeleted hx := by
    rcases hm.appears r.path hx with hdisk | hannounced | hsafe
    · obtain ⟨r', hr'⟩ := Option.ne_none_iff_exists'.mp (h.hidden r (hm.source r hr).1 hdeleted hdisk)
      obtain ⟨hr', hpath⟩ := Window.find_eq_some.mp hr'
      rcases hm.keptTarget r' hr' with ⟨hkept, -⟩ | hlocated
      · exact fun hnone => Window.find_eq_none.mp hnone r' hkept hpath
      · rw [← hpath] at hx ⊢
        obtain ⟨r'', hr'', hadds⟩ := hm.stays r' hlocated hx
        exact fun hnone => Window.find_eq_none.mp hnone r'' hr'' hadds.2.1
    · obtain ⟨r'', hr'', hadds⟩ := hannounced
      exact fun hnone => Window.find_eq_none.mp hnone r'' hr'' hadds.2.1
    · exact absurd rfl (hsafe.2 r (.inl hr)).2

end Sound

/-! ## The records of a merge -/

namespace Window

theorem mem_erase {w : Window} {path : String} {r : FileUpdate} :
    r ∈ (w.erase path).records ↔ r ∈ w.records ∧ r.path ≠ path := by
  rw [erase, List.mem_filter, decide_eq_true_eq]

theorem mem_insert_of_mem {w : Window} {r new : FileUpdate} (h : r ∈ w.records) : r ∈ (w.insert new).records := by
  rw [insert]
  split
  · exact List.mem_append_left _ h
  · exact h

theorem mem_of_mem_insert {w : Window} {r new : FileUpdate} (h : r ∈ (w.insert new).records) :
    r ∈ w.records ∨ w.find new.path = none ∧ r = new := by
  rw [insert] at h
  split at h
  · rename_i hnone
    rcases List.mem_append.mp h with h | h
    · exact .inl h
    · exact .inr ⟨hnone, List.mem_singleton.mp h⟩
  · exact .inl h

theorem mem_insert_self {w : Window} {new : FileUpdate} (h : w.find new.path = none) :
    new ∈ (w.insert new).records := by
  rw [insert, dif_pos h]
  exact List.mem_append_right _ (List.mem_singleton_self new)

end Window

/-- The record that has been found: where it is, and that no other one of the path comes before it. -/
structure Located (ws : Windows) (path prevPath : String) (found : FileUpdate × Bool) : Prop where
  mem : if found.2 then found.1 ∈ ws.source.records else found.1 ∈ ws.target.records
  named : found.1.path = path ∨ found.1.path = prevPath
  free : (ws.take found).target.find path = none
  hides : found.2 = true → ws.target.find path = none ∧ ws.target.find prevPath = none

theorem Windows.located {ws : Windows} {path prevPath : String} {found : FileUpdate × Bool}
    (h : ws.locate path prevPath = some found) : Located ws path prevPath found := by
  unfold Windows.locate at h
  -- the four places in the order in which they are searched
  cases h₁ : ws.target.find path with
  | some r =>
    simp only [h₁, Option.map_some, Option.orElse_eq_orElse, Option.orElse_some, Option.some.injEq] at h
    subst h
    obtain ⟨hr, hpath⟩ := Window.find_eq_some.mp h₁
    refine ⟨by simpa using hr, .inl hpath, ?_, by simp⟩
    rw [Window.find_eq_none]
    intro r' hr'
    rw [← hpath]
    exact (Window.mem_erase.mp hr').2
  | none =>
    have hfree (r : FileUpdate) (late : Bool) : (ws.take (r, late)).target.find path = none := by
      rw [Window.find_eq_none] at h₁ ⊢
      intro r' hr'
      unfold Windows.take at hr'
      split at hr'
      · exact h₁ r' hr'
      · exact h₁ r' (Window.mem_erase.mp hr').1
    cases h₂ : ws.target.find prevPath with
    | some r =>
      simp only [h₁, h₂, Option.map_none, Option.map_some, Option.orElse_eq_orElse, Option.orElse_some,
        Option.orElse_none, Option.some.injEq] at h
      subst h
      obtain ⟨hr, hpath⟩ := Window.find_eq_some.mp h₂
      exact ⟨by simpa using hr, .inr hpath, hfree r false, by simp⟩
    | none =>
      cases h₃ : ws.source.find path with
      | some r =>
        simp only [h₁, h₂, h₃, Option.map_none, Option.map_some, Option.orElse_eq_orElse, Option.orElse_some,
          Option.orElse_none, Option.some.injEq] at h
        subst h
        obtain ⟨hr, hpath⟩ := Window.find_eq_some.mp h₃
        exact ⟨by simpa using hr, .inl hpath, hfree r true, fun _ => ⟨h₁, h₂⟩⟩
      | none =>
        simp only [h₁, h₂, h₃, Option.map_none, Option.orElse_eq_orElse, Option.orElse_none,
          Option.map_eq_some_iff] at h
        obtain ⟨r, h₄, rfl⟩ := h
        obtain ⟨hr, hpath⟩ := Window.find_eq_some.mp h₄
        exact ⟨by simpa using hr, .inr hpath, hfree r true, fun _ => ⟨h₁, h₂⟩⟩

theorem Windows.locate_eq_none {ws : Windows} {path prevPath : String} (h : ws.locate path prevPath = none) :
    ws.target.find path = none := by
  unfold Windows.locate at h
  cases h₁ : ws.target.find path with
  | none => rfl
  | some r => simp [h₁] at h

section Merge

variable {ws ws' : Windows} {disk disk' known : Finset String} {found : FileUpdate × Bool} {news : FileUpdate → Prop}
  {path prevPath : String} {e : Change}

/-- A located record of something that is there is not a deletion: it would have been hidden by another
one. -/
theorem Sound.alive (h : Sound ws disk known) (hl : Located ws path prevPath found) (hx : found.1.path ∈ disk) :
    found.1.type.deleted = false := by
  by_contra hdeleted
  rw [Bool.not_eq_false] at hdeleted
  have hmem := hl.mem
  split at hmem
  · rename_i hlate
    refine h.hidden found.1 hmem hdeleted hx ?_
    rcases hl.named with hpath | hpath
    · rw [hpath]
      exact (hl.hides hlate).1
    · rw [hpath]
      exact (hl.hides hlate).2
  · exact h.dead found.1 hmem hdeleted hx

theorem Sound.shape_located (h : Sound ws disk known) (hl : Located ws path prevPath found) : Shape found.1 := by
  have hmem := hl.mem
  split at hmem
  · exact h.shape found.1 (.inl hmem)
  · exact h.shape found.1 (.inr hmem)

theorem Windows.mem_take {r : FileUpdate} (hr : r ∈ ws.target.records) (hne : r.path ≠ found.1.path) :
    r ∈ (ws.take found).target.records := by
  unfold Windows.take
  split
  · exact hr
  · exact Window.mem_erase.mpr ⟨hr, hne⟩

/-- The frame of an event that is merged with a record: `hsub` and `hnew` say what is put in. -/
theorem Mergeable.frame (hm : Mergeable ws disk known e) (hfound : ws.locate e.paths.1 e.paths.2 = some found)
    (hsource : ws'.source = (ws.take found).source)
    (hsub : ∀ r ∈ (ws.take found).target.records, r ∈ ws'.target.records)
    (hnew : ∀ r ∈ ws'.target.records, r ∈ (ws.take found).target.records ∨ news r) :
    Frame ws ws' disk (e.perform disk) known (· = found.1) news := by
  -- a record that is not the located one stays where it is
  have hharmTarget (r : FileUpdate) (hr : r ∈ ws.target.records) (hne : r ≠ found.1 ∨ found.2 = true) :
      Harmless disk (e.perform disk) known r := by
    rcases hm.target r hr with h | h
    · rw [hfound, Option.some.injEq] at h
      rw [h] at hne
      simp at hne
    · exact h
  have hmem := (Windows.located hfound).mem
  cases hlate : found.2 with
  | false =>
    rw [if_neg (by simp [hlate])] at hmem
    simp only [Windows.take, hlate, Bool.false_eq_true, if_false] at hsource hsub hnew
    refine ⟨?_, ?_, ?_, ?_⟩
    · intro r hr
      rcases hnew r hr with h | h
      · obtain ⟨hold, hne⟩ := Window.mem_erase.mp h
        exact .inl ⟨hold, hharmTarget r hold (.inl fun heq => hne (by rw [heq]))⟩
      · exact .inr h
    · intro r hr
      rw [hsource] at hr
      refine ⟨hr, (hm.source r hr).resolve_left ?_⟩
      rw [hfound, Option.some.injEq]
      rintro rfl
      cases hlate
    · intro r hr
      by_cases heq : r = found.1
      · exact .inr heq
      · refine .inl ⟨hsub r (Window.mem_erase.mpr ⟨hr, fun hpath => heq ?_⟩), hharmTarget r hr (.inl heq)⟩
        exact List.inj_on_of_nodup_map ws.target.nodup hr hmem hpath
    · intro r hr
      rw [hsource]
      exact .inl hr
  | true =>
    rw [if_pos hlate] at hmem
    simp only [Windows.take, hlate, if_true] at hsource hsub hnew
    refine ⟨?_, ?_, ?_, ?_⟩
    · intro r hr
      rcases hnew r hr with h | h
      · exact .inl ⟨h, hharmTarget r h (.inr hlate)⟩
      · exact .inr h
    · intro r hr
      rw [hsource] at hr
      obtain ⟨hold, hne⟩ := Window.mem_erase.mp hr
      refine ⟨hold, (hm.source r hold).resolve_left ?_⟩
      rw [hfound, Option.some.injEq]
      rintro rfl
      exact hne rfl
    · intro r hr
      exact .inl ⟨hsub r hr, hharmTarget r hr (.inr hlate)⟩
    · intro r hr
      by_cases heq : r = found.1
      · exact .inr heq
      · refine .inl ?_
        rw [hsource]
        refine Window.mem_erase.mpr ⟨hr, fun hpath => heq ?_⟩
        exact List.inj_on_of_nodup_map ws.source.nodup hr hmem hpath

/-- What was announced under another path than the located record's still is. -/
theorem Frame.announces {x : String} (hf : Frame ws ws' disk disk' known (· = found.1) news)
    (hne : x ≠ found.1.path) (h : ws.target.Announces disk' x) : ws'.target.Announces disk' x := by
  obtain ⟨r, hr, hadds⟩ := h
  rcases hf.keptTarget r hr with ⟨hkept, -⟩ | rfl
  · exact ⟨r, hkept, hadds⟩
  · exact absurd hadds.2.1.symm hne

/-- What another record than the located one took away is taken away. -/
theorem Frame.takes {x : String} (hf : Frame ws ws' disk disk' known (· = found.1) news)
    (hfound : ¬ Removes disk found.1 x) (hx : x ∉ disk') (hknown : x ∈ known) (h : ws.Covers disk known x) :
    ws'.source.Takes disk' x ∨ ws'.target.Takes disk' x := by
  rcases h hknown with ⟨r, hr, hremoves⟩ | ⟨r, hr, hremoves⟩
  · rcases hf.keptSource r hr with hkept | rfl
    · exact .inl ⟨r, hkept, (hf.source r hkept).2.removes hremoves hknown hx⟩
    · exact absurd hremoves hfound
  · rcases hf.keptTarget r hr with ⟨hkept, hharm⟩ | rfl
    · exact .inr ⟨r, hkept, hharm.removes hremoves hknown hx⟩
    · exact absurd hremoves hfound

/-- A record that replaces the located one. -/
theorem Sound.insert {new : FileUpdate} (h : Sound ws disk known) (hm : Mergeable ws disk known e)
    (hfound : ws.locate e.paths.1 e.paths.2 = some found) (hpath : new.path = e.paths.1) (hshape : Shape new)
    (happears : ∀ x ∈ e.perform disk, x ∈ disk ∨ x = new.path ∧ new.type.deleted = false)
    (hvanishes : ∀ x ∈ disk, x ∉ e.perform disk → Removes (e.perform disk) new x ∨
      ¬ Removes disk found.1 x ∧ ws.Covers disk known x)
    (htakes : ∀ x, Removes disk found.1 x → x ∉ e.perform disk → Removes (e.perform disk) new x)
    (hstays : found.1.path ∈ e.perform disk → new.path = found.1.path ∧ new.type.deleted = false)
    (hnewTakes : ∀ x ∈ e.perform disk, Removes (e.perform disk) new x →
      x ≠ found.1.path ∧ ws.Keeps (e.perform disk) x)
    (hdead : new.type.deleted = true → new.path ∉ e.perform disk) :
    Sound ((ws.take found).insert new) (e.perform disk) known := by
  have hfree : (ws.take found).target.find new.path = none := by
    rw [hpath]
    exact (Windows.located hfound).free
  have hmem : new ∈ ((ws.take found).insert new).target.records := Window.mem_insert_self hfree
  have hframe : Frame ws ((ws.take found).insert new) disk (e.perform disk) known (· = found.1) (· = new) :=
    hm.frame hfound rfl (fun r => Window.mem_insert_of_mem)
      fun r hr => (Window.mem_of_mem_insert hr).imp id And.right
  refine h.merged ⟨hframe, ?_, ?_, ?_, ?_, ?_, ?_, ?_⟩
  · intro x hx
    refine (happears x hx).imp id fun h => .inl ?_
    exact ⟨new, hmem, h.2, h.1.symm, hx⟩
  · intro x hdisk hx hknown
    rcases hvanishes x hdisk hx with h | ⟨hne, hcovers⟩
    · exact .inr ⟨new, hmem, h⟩
    · exact hframe.takes hne hx hknown hcovers
  · rintro r x rfl hremoves - hx
    exact .inr ⟨new, hmem, htakes x hremoves hx⟩
  · rintro r rfl hx
    obtain ⟨hpath, hdeleted⟩ := hstays hx
    exact ⟨new, hmem, hdeleted, hpath, hx⟩
  · rintro r rfl x hx hremoves
    obtain ⟨hne, hkeeps⟩ := hnewTakes x hx hremoves
    exact hframe.announces hne (hkeeps hx)
  · rintro r rfl
    exact hshape
  · rintro r rfl
    exact hdead

/-- A change and a rename, as a deletion and a creation. -/
theorem Sound.split {new : FileUpdate} {gone : String} (h : Sound ws disk known) (hm : Mergeable ws disk known e)
    (hfound : ws.locate e.paths.1 e.paths.2 = some found) (hpath : new.path = e.paths.1)
    (hgone : gone ≠ "") (hne : gone ≠ new.path) (hthere : new.path ∈ e.perform disk)
    (happears : ∀ x ∈ e.perform disk, x ∈ disk ∨ x = new.path)
    (hvanishes : ∀ x ∈ disk, x ∉ e.perform disk → x = gone)
    (htakes : ∀ x, Removes disk found.1 x → x ∉ e.perform disk → x = gone)
    (hnamed : found.1.path = new.path ∨ found.1.path = gone ∧ gone ∉ e.perform disk)
    (hsplits : (ws.take found).Splits (e.perform disk) known gone) :
    Sound (ws.split found gone new) (e.perform disk) known := by
  obtain ⟨deletion, hdeletion⟩ : ∃ r : FileUpdate,
      r = ⟨gone, "", ⟨false, true, false, false⟩, found.1.requiresRefinement⟩ := ⟨_, rfl⟩
  obtain ⟨creation, hcreation⟩ : ∃ r : FileUpdate,
      r = { new with type := ⟨true, false, false, false⟩, prevPath := "" } := ⟨_, rfl⟩
  have hsplit : ws.split found gone new = ((ws.take found).insert deletion).insert creation := by
    rw [hdeletion, hcreation]
    rfl
  have hpath' : creation.path = new.path := by rw [hcreation]
  have hgone' : deletion.path = gone := by rw [hdeletion]
  have hfree : ((ws.take found).insert deletion).target.find creation.path = none := by
    rw [Window.find_eq_none, hpath']
    intro r hr
    rcases Window.mem_of_mem_insert hr with h | ⟨-, rfl⟩
    · have := (Windows.located hfound).free
      rw [← hpath, Window.find_eq_none] at this
      exact this r h
    · rw [hgone']
      exact hne
  have hmem : creation ∈ (ws.split found gone new).target.records := by
    rw [hsplit]
    exact Window.mem_insert_self hfree
  have hannounced : (ws.split found gone new).target.Announces (e.perform disk) new.path :=
    ⟨creation, hmem, by rw [hcreation], hpath', hthere⟩
  -- the deletion is put in, or there is one already
  have htaken (hknown : gone ∈ known) (hx : gone ∉ e.perform disk) :
      (ws.split found gone new).target.Takes (e.perform disk) gone := by
    rw [hsplit]
    rw [Windows.Splits] at hsplits
    split at hsplits
    · rename_i hnone
      rw [← hgone'] at hnone
      refine ⟨deletion, Window.mem_insert_of_mem (Window.mem_insert_self hnone), ?_⟩
      rw [hdeletion]
      exact ⟨rfl, rfl⟩
    · rename_i r hr
      obtain ⟨hr, hrpath⟩ := Window.find_eq_some.mp hr
      refine ⟨r, Window.mem_insert_of_mem (Window.mem_insert_of_mem hr), ?_⟩
      rcases hsplits with h | h | ⟨hdeleted, hcreated, hprev⟩
      · exact absurd h hx
      · exact absurd hknown h
      · rw [Removes, if_pos hdeleted, hprev]
        exact ⟨hcreated, hrpath.symm⟩
  have hframe : Frame ws (ws.split found gone new) disk (e.perform disk) known (· = found.1)
      fun r => r = creation ∨ r = deletion ∧ gone ∉ e.perform disk := by
    rw [hsplit]
    refine hm.frame hfound rfl (fun r hr => Window.mem_insert_of_mem (Window.mem_insert_of_mem hr)) ?_
    intro r hr
    rcases Window.mem_of_mem_insert hr with h | ⟨-, rfl⟩
    · rcases Window.mem_of_mem_insert h with h | ⟨hnone, rfl⟩
      · exact .inl h
      · rw [Windows.Splits, ← hgone', hnone] at hsplits
        exact .inr (.inr ⟨rfl, hgone' ▸ hsplits⟩)
    · exact .inr (.inl rfl)
  refine h.merged ⟨hframe, ?_, ?_, ?_, ?_, ?_, ?_, ?_⟩
  · intro x hx
    rcases happears x hx with h | rfl
    · exact .inl h
    · exact .inr (.inl hannounced)
  · intro x hdisk hx hknown
    obtain rfl := hvanishes x hdisk hx
    exact .inr (htaken hknown hx)
  · rintro r x rfl hremoves hknown hx
    obtain rfl := htakes x hremoves hx
    exact .inr (htaken hknown hx)
  · rintro r rfl hx
    rcases hnamed with h | ⟨h, hnot⟩
    · rw [h]
      exact hannounced
    · rw [h] at hx
      exact absurd hx hnot
  · rintro r (rfl | ⟨rfl, hnot⟩) x hx hremoves
    · rw [hcreation] at hremoves
      exact absurd hremoves.2.1.symm hremoves.2.2
    · rw [hdeletion] at hremoves
      rw [hremoves.2] at hx
      exact absurd hx hnot
  · rintro r (rfl | ⟨rfl, -⟩)
    · refine ⟨?_, fun h => absurd ?_ h⟩
      · rw [hpath', hpath]
        exact hm.path
      · rw [hcreation]
    · refine ⟨?_, fun h => absurd ?_ h⟩
      · rw [hgone']
        exact hgone
      · rw [hdeletion]
  · rintro r (rfl | ⟨rfl, hnot⟩) hdeleted
    · rw [hcreation] at hdeleted
      cases hdeleted
    · rw [hgone']
      exact hnot

/-! ### Each event with the record found -/

theorem Windows.splits_take {x : String} (hne : x ≠ found.1.path) (h : ws.Splits disk known x) :
    (ws.take found).Splits disk known x := by
  have hfind : (ws.take found).target.find x = ws.target.find x := by
    cases hx : ws.target.find x with
    | none =>
      rw [Window.find_eq_none] at hx ⊢
      intro r hr
      unfold Windows.take at hr
      split at hr
      · exact hx r hr
      · exact hx r (Window.mem_erase.mp hr).1
    | some r =>
      obtain ⟨hr, hpath⟩ := Window.find_eq_some.mp hx
      exact Window.find_eq_some.mpr ⟨Windows.mem_take hr (hpath ▸ hne), hpath⟩
  rw [Windows.Splits, hfind]
  exact h

theorem ite_empty (s : String) : (if s = "" then "" else s) = s := by
  split
  · rename_i h
    exact h.symm
  · rfl

/-- A change that is not one of the metadata. -/
theorem Windows.merge_of_not_metadata {new : FileUpdate} (h : new.type.metadata = false) :
    ws.merge found new = some (if found.1.type.metadata ∧ found.1.prevPath ≠ "" ∧ new.type.contentLike then
      ws.split found found.1.prevPath new else ws.replace found new) := by
  have hne : new.type ≠ Kind.metadata.updateType := fun heq => by
    rw [heq] at h
    cases h
  have hprefer : new.preferContent found.1.type = new := by simp [FileUpdate.preferContent, h]
  simp only [Windows.merge, hne, h, hprefer, false_and, and_false, Bool.false_eq_true, if_false]
  split <;> rfl

/-- A record with another path that is not a deletion is a rename. -/
theorem Shape.renamed {r : FileUpdate} (h : Shape r) (hprev : r.prevPath ≠ "") (hdeleted : r.type.deleted = false) :
    r.type = Kind.metadata.updateType := by
  rcases (h.prev hprev).2 with h | h
  · exact h
  · rw [h] at hdeleted
    cases hdeleted

/-- A rename takes away the path it is from, and nothing else. -/
theorem Shape.removes {r : FileUpdate} {x : String} (h : r.type.deleted = false) (hr : Removes disk r x) :
    r.path ∈ disk ∧ r.prevPath = x ∧ x ≠ "" := by
  rw [Removes, if_neg (by simp [h])] at hr
  exact hr

/-- The record that a change of something that is there is merged with. -/
theorem Sound.named (h : Sound ws disk known) (hl : Located ws path "" found) : found.1.path = path :=
  hl.named.resolve_right (h.shape_located hl).path

variable (refined : Bool)

theorem Sound.created (h : Sound ws disk known) (hm : Mergeable ws disk known (.created path))
    (hfound : ws.locate path "" = some found) :
    ∃ ws', ws.merge found ((Change.created path).record refined) = some ws' ∧
      Sound ws' ((Change.created path).perform disk) known := by
  have hl := Windows.located hfound
  have hpath := h.named hl
  have hshape := h.shape_located hl
  have hmerges := hm.merges found hfound
  have hthere : path ∈ (Change.created path).perform disk := Finset.mem_insert_self path disk
  have happears : ∀ x ∈ (Change.created path).perform disk, x ∈ disk ∨ x = path := fun x hx =>
    (Finset.mem_insert.mp hx).symm
  have hvanishes : ∀ x ∈ disk, x ∉ (Change.created path).perform disk → False := fun x hdisk hx =>
    hx (Finset.mem_insert_of_mem hdisk)
  refine ⟨_, Windows.merge_of_not_metadata rfl, ?_⟩
  by_cases hprev : found.1.prevPath = ""
  · rw [if_neg (fun hc => hc.2.1 hprev)]
    refine h.insert hm hfound rfl ⟨hm.path, fun hne => ?_⟩ (fun x hx => ?_) ?_ ?_ ?_ ?_ ?_
    · simp [hprev, Change.record] at hne
    · exact (happears x hx).imp id fun hx => ⟨hx, rfl⟩
    · intro x hdisk hx
      exact (hvanishes x hdisk hx).elim
    · -- the record may be a deletion of the path that is back
      intro x hremoves hx
      unfold Removes at hremoves
      split at hremoves
      · rw [if_neg (by simp [hprev]), hpath] at hremoves
        rw [hremoves.2] at hx
        exact absurd hthere hx
      · exact absurd (hremoves.2.1.symm.trans hprev) hremoves.2.2
    · intro _
      exact ⟨hpath.symm, rfl⟩
    · intro x _ hremoves
      have := (Shape.removes rfl hremoves).2
      simp [hprev, Change.record] at this
    · intro hdeleted
      cases hdeleted
  · obtain ⟨hdeleted, hsplits⟩ := hmerges hprev
    have htype := hshape.renamed hprev hdeleted
    have hne := (hshape.prev hprev).1
    rw [if_pos ⟨by rw [htype]; rfl, hprev, rfl⟩]
    exact h.split hm hfound rfl hprev (hpath ▸ hne) hthere happears
      (fun x hdisk hx => (hvanishes x hdisk hx).elim)
      (fun x hremoves _ => (Shape.removes hdeleted hremoves).2.1.symm) (.inl hpath)
      (Windows.splits_take hne hsplits)

theorem Sound.content (h : Sound ws disk known) (hm : Mergeable ws disk known (.content path))
    (hfound : ws.locate path "" = some found) :
    ∃ ws', ws.merge found ((Change.content path).record refined) = some ws' ∧ Sound ws' disk known := by
  have hl := Windows.located hfound
  have hpath := h.named hl
  have hshape := h.shape_located hl
  have hthere : path ∈ disk := hm.possible
  have hdeleted := h.alive hl (hpath ▸ hthere)
  refine ⟨_, Windows.merge_of_not_metadata rfl, ?_⟩
  by_cases hprev : found.1.prevPath = ""
  · rw [if_neg (fun hc => hc.2.1 hprev)]
    refine h.insert hm hfound rfl ⟨hm.path, fun hne => ?_⟩ (fun x hx => .inl hx) ?_ ?_ ?_ ?_ ?_
    · simp [hprev, Change.record] at hne
    · intro x hdisk hx
      exact absurd hdisk hx
    · intro x hremoves _
      obtain ⟨-, hx, hne⟩ := Shape.removes hdeleted hremoves
      exact absurd (hx.symm.trans hprev) hne
    · intro _
      exact ⟨hpath.symm, rfl⟩
    · intro x _ hremoves
      have := (Shape.removes rfl hremoves).2
      simp [hprev, Change.record] at this
    · intro hdeleted
      cases hdeleted
  · have htype := hshape.renamed hprev hdeleted
    have hne := (hshape.prev hprev).1
    rw [if_pos ⟨by rw [htype]; rfl, hprev, rfl⟩]
    exact h.split hm hfound rfl hprev (hpath ▸ hne) hthere (fun x hx => .inl hx)
      (fun x hdisk hx => absurd hdisk hx)
      (fun x hremoves _ => (Shape.removes hdeleted hremoves).2.1.symm) (.inl hpath)
      (Windows.splits_take hne (hm.merges found hfound hprev))

theorem Sound.metadata (h : Sound ws disk known) (hm : Mergeable ws disk known (.metadata path))
    (hfound : ws.locate path "" = some found) :
    ∃ ws', ws.merge found ((Change.metadata path).record refined) = some ws' ∧ Sound ws' disk known := by
  have hl := Windows.located hfound
  have hpath := h.named hl
  have hshape := h.shape_located hl
  have hthere : path ∈ disk := hm.possible
  have hdeleted := h.alive hl (hpath ▸ hthere)
  -- what the record becomes: the located one counts more if it is about the content
  obtain ⟨type, htype, hmerge⟩ : ∃ type : UpdateType,
      (type.deleted = false ∧ (found.1.prevPath ≠ "" → type = Kind.metadata.updateType)) ∧
        ws.merge found ((Change.metadata path).record refined) =
          some ((ws.take found).insert ⟨path, found.1.prevPath, type, found.1.requiresRefinement || refined⟩) := by
    have hback : found.1.prevPath ≠ path := fun heq =>
      (hshape.prev (heq ▸ hm.path)).1 (heq.trans hpath.symm)
    by_cases hlike : found.1.type.contentLike = true
    · have hprev : found.1.prevPath = "" := by
        by_contra hprev
        rw [hshape.renamed hprev hdeleted] at hlike
        cases hlike
      refine ⟨found.1.type, ⟨hdeleted, fun hne => absurd hprev hne⟩, ?_⟩
      rw [hprev] at hback
      simp [Windows.merge, Change.record, hback, FileUpdate.preferContent, hlike, Kind.updateType, hprev,
        Windows.replace]
    · have hplain : found.1.type.content = false ∧ found.1.type.created1 = false := by
        simpa only [UpdateType.contentLike, Bool.or_eq_true, not_or, Bool.not_eq_true] using hlike
      refine ⟨Kind.metadata.updateType, ⟨rfl, fun _ => rfl⟩, ?_⟩
      simp [Windows.merge, Change.record, hback, FileUpdate.preferContent, Kind.updateType, Windows.replace,
        UpdateType.contentLike, hplain.1, hplain.2, ite_empty]
  refine ⟨_, hmerge, ?_⟩
  refine h.insert hm hfound rfl ⟨hm.path, fun hprev => ⟨?_, .inl (htype.2 hprev)⟩⟩ (fun x hx => .inl hx) ?_ ?_ ?_ ?_ ?_
  · exact hpath ▸ (hshape.prev hprev).1
  · intro x hdisk hx
    exact absurd hdisk hx
  · intro x hremoves _
    obtain ⟨-, hx, hne⟩ := Shape.removes hdeleted hremoves
    rw [Removes, if_neg (by simp [htype.1])]
    exact ⟨hthere, hx, hne⟩
  · intro _
    exact ⟨hpath.symm, htype.1⟩
  · intro x hx hremoves
    obtain ⟨-, rfl, hne⟩ := Shape.removes htype.1 hremoves
    exact ⟨(hshape.prev hne).1, hm.merges found hfound hne⟩
  · intro hdeleted
    rw [htype.1] at hdeleted
    cases hdeleted

theorem Sound.deleted (h : Sound ws disk known) (hm : Mergeable ws disk known (.deleted path))
    (hfound : ws.locate path "" = some found) :
    ∃ ws', ws.merge found ((Change.deleted path).record refined) = some ws' ∧
      Sound ws' ((Change.deleted path).perform disk) known := by
  have hl := Windows.located hfound
  have hpath := h.named hl
  have hshape := h.shape_located hl
  obtain ⟨hcovers, hkeeps⟩ := hm.merges found hfound
  have hgone : path ∉ (Change.deleted path).perform disk := Finset.notMem_erase path disk
  -- a deletion that has another path has not been created
  have hcreated (hprev : found.1.prevPath ≠ "") : found.1.type.created1 = false := by
    rcases (hshape.prev hprev).2 with htype | htype
    · rw [htype]
      rfl
    · rw [htype]
      rfl
  refine ⟨_, Windows.merge_of_not_metadata rfl, ?_⟩
  rw [if_neg (fun hc => by cases hc.2.2)]
  obtain ⟨new, hnew⟩ : ∃ new : FileUpdate, new = ⟨path, found.1.prevPath,
      { Kind.deleted.updateType with created1 := found.1.type.created1 }, found.1.requiresRefinement || refined⟩ :=
    ⟨_, rfl⟩
  have hreplace : ws.replace found ((Change.deleted path).record refined) = (ws.take found).insert new := by
    rw [hnew]
    simp [Windows.replace, Change.record, Kind.updateType, ite_empty]
  have hremoves (disk' : Finset String) (x : String) : Removes disk' new x ↔
      found.1.type.created1 = false ∧ x = if found.1.prevPath ≠ "" then found.1.prevPath else path := by
    rw [hnew, Removes]
    simp [Kind.updateType]
  rw [hreplace]
  refine h.insert hm hfound (by rw [hnew]; rfl) ⟨by rw [hnew]; exact hm.path, fun hprev => ?_⟩ ?_ ?_ ?_ ?_ ?_ ?_
  · rw [hnew] at hprev ⊢
    refine ⟨hpath ▸ (hshape.prev hprev).1, .inr ?_⟩
    simp [hcreated hprev, Kind.updateType]
  · intro x hx
    exact .inl (Finset.mem_of_mem_erase hx)
  · intro x hdisk hx
    have hxpath : x = path := by
      by_contra hne
      exact hx (Finset.mem_erase.mpr ⟨hne, hdisk⟩)
    by_cases hplain : found.1.type.created1 = true ∨ found.1.prevPath ≠ ""
    · refine .inr ⟨fun hr => ?_, hxpath ▸ hcovers hplain⟩
      -- the located record is about this path, so it takes away another one
      unfold Removes at hr
      split at hr
      · rename_i hdeleted
        rw [h.alive hl (hpath.trans hxpath.symm ▸ hdisk)] at hdeleted
        cases hdeleted
      · exact (hshape.prev (hr.2.1.symm ▸ hr.2.2)).1 (hr.2.1.trans (hxpath.trans hpath.symm))
    · rw [not_or, Bool.not_eq_true, not_not] at hplain
      refine .inl ((hremoves _ x).mpr ⟨hplain.1, ?_⟩)
      rw [if_neg (by simp [hplain.2])]
      exact hxpath
  · intro x hr _
    rw [hremoves]
    unfold Removes at hr
    split at hr
    · rw [hpath] at hr
      exact hr
    · have hprev : found.1.prevPath ≠ "" := hr.2.1.symm ▸ hr.2.2
      rw [if_pos hprev]
      exact ⟨hcreated hprev, hr.2.1.symm⟩
  · intro hx
    rw [hpath] at hx
    exact absurd hx hgone
  · intro x hx hr
    have hxr := ((hremoves _ x).mp hr).2
    split at hxr
    · rename_i hprev
      rw [hxr]
      exact ⟨(hshape.prev hprev).1, hkeeps hprev⟩
    · rw [hxr] at hx
      exact absurd hx hgone
  · intro _
    rw [hnew]
    exact hgone

section Renamed

/-- What a rename does on disk. -/
theorem Change.mem_renamed {x : String} :
    x ∈ (Change.renamed prevPath path).perform disk ↔ x = path ∨ x ≠ prevPath ∧ x ∈ disk := by
  rw [Change.perform, Finset.mem_insert, Finset.mem_erase]

theorem Change.eq_of_vanished {x : String} (hdisk : x ∈ disk) (hx : x ∉ (Change.renamed prevPath path).perform disk) :
    x = prevPath := by
  by_contra hne
  exact hx (mem_renamed.mpr (.inr ⟨hne, hdisk⟩))

theorem Change.notMem_renamed (hne : prevPath ≠ path) : prevPath ∉ (Change.renamed prevPath path).perform disk := by
  rw [mem_renamed]
  rintro (h | h)
  · exact hne h
  · exact h.1 rfl

/-- A rename of something that has been changed. -/
theorem Sound.renamed_split (h : Sound ws disk known) (hm : Mergeable ws disk known (.renamed prevPath path))
    (hfound : ws.locate path prevPath = some found) (hlike : found.1.type.contentLike = true) :
    Sound (ws.split found prevPath ((Change.renamed prevPath path).record refined))
      ((Change.renamed prevPath path).perform disk) known := by
  have hl := Windows.located hfound
  have hshape := h.shape_located hl
  obtain ⟨hdisk, hne, hnonempty⟩ := hm.possible
  have hgone : prevPath ∉ (Change.renamed prevPath path).perform disk := Change.notMem_renamed hne
  have hthere : path ∈ (Change.renamed prevPath path).perform disk := Change.mem_renamed.mpr (.inl rfl)
  have hprev : found.1.prevPath = "" := by
    by_contra hprev
    rcases (hshape.prev hprev).2 with htype | htype
    · rw [htype] at hlike
      cases hlike
    · rw [htype] at hlike
      cases hlike
  have hnamed := hl.named
  refine h.split hm hfound rfl hnonempty hne hthere (fun x hx => ?_) (fun x => Change.eq_of_vanished) ?_ ?_ ?_
  · exact (Change.mem_renamed.mp hx).symm.imp And.right id
  · intro x hremoves hx
    unfold Removes at hremoves
    split at hremoves
    · rw [if_neg (by simp [hprev])] at hremoves
      rcases hnamed with hpath | hpath
      · rw [hremoves.2, hpath] at hx
        exact absurd hthere hx
      · exact hremoves.2.trans hpath
    · exact absurd (hremoves.2.1.symm.trans hprev) hremoves.2.2
  · exact hnamed.imp id fun hpath => ⟨hpath, hgone⟩
  · by_cases hpath : found.1.path = path
    · have hsplits := hm.merges found hfound
      rw [Change.MergesWith, if_pos ⟨hpath, hlike⟩] at hsplits
      exact Windows.splits_take (fun heq => hne (heq.trans hpath)) hsplits
    · -- the record of the path it is from has been taken out
      have hpath := hnamed.resolve_left hpath
      have hnone : (ws.take found).target.find prevPath = none := by
        unfold Windows.take
        split
        · rename_i hlate
          exact (hl.hides hlate).2
        · rw [Window.find_eq_none]
          intro r hr
          rw [← hpath]
          exact (Window.mem_erase.mp hr).2
      rw [Windows.Splits, hnone]
      exact hgone

/-- A rename back: the record stays as it is, and reports nothing. -/
theorem Sound.renamed_back (h : Sound ws disk known) (hm : Mergeable ws disk known (.renamed prevPath path))
    (hfound : ws.locate path prevPath = some found) (htype : found.1.type = Kind.metadata.updateType)
    (hback : found.1.prevPath = path) : Sound ws ((Change.renamed prevPath path).perform disk) known := by
  have hl := Windows.located hfound
  have hshape := h.shape_located hl
  obtain ⟨hdisk, hne, hnonempty⟩ := hm.possible
  have hpathne : path ≠ "" := hm.path
  have hprev : found.1.prevPath ≠ "" := hback ▸ hpathne
  have hgone : prevPath ∉ (Change.renamed prevPath path).perform disk := Change.notMem_renamed hne
  have hpath : found.1.path = prevPath :=
    hl.named.resolve_left fun heq => (hshape.prev hprev).1 (hback.trans heq.symm)
  have hmerges := hm.merges found hfound
  rw [Change.MergesWith, if_neg (fun hc => hne (hpath.symm.trans hc.1))] at hmerges
  obtain ⟨hcovers, hreverts⟩ := hmerges hprev
  rw [if_pos ⟨hpath, hback⟩] at hreverts
  have hharmFound : Harmless disk ((Change.renamed prevPath path).perform disk) known found.1 := by
    refine .inr (.inr ?_)
    rw [if_neg (hpath ▸ hgone), hback]
    exact .inr (.inl (Change.mem_renamed.mpr (.inl rfl)))
  have hharm (r : FileUpdate) (hr : r ∈ ws.source.records ∨ r ∈ ws.target.records) :
      Harmless disk ((Change.renamed prevPath path).perform disk) known r := by
    rcases hr with hr | hr
    · rcases hm.source r hr with heq | hharm
      · obtain rfl : found = (r, true) := Option.some_inj.mp (hfound.symm.trans heq)
        exact hharmFound
      · exact hharm
    · rcases hm.target r hr with heq | hharm
      · obtain rfl : found = (r, false) := Option.some_inj.mp (hfound.symm.trans heq)
        exact hharmFound
      · exact hharm
  have hframe : Frame ws ws disk ((Change.renamed prevPath path).perform disk) known (fun _ => False) fun _ => False :=
    ⟨fun r hr => .inl ⟨hr, hharm r (.inr hr)⟩, fun r hr => ⟨hr, hharm r (.inl hr)⟩,
      fun r hr => .inl ⟨hr, hharm r (.inr hr)⟩, fun r hr => .inl hr⟩
  refine h.merged ⟨hframe, ?_, ?_, ?_, ?_, ?_, ?_, ?_⟩
  · intro x hx
    rcases Change.mem_renamed.mp hx with rfl | hold
    · refine .inr (.inr ⟨hreverts.1, fun r hr => ?_⟩)
      rcases hreverts.2 r (List.mem_append.mpr hr) with rfl | ⟨hrpath, hrprev⟩
      · refine ⟨fun hremoves => ?_, hpath ▸ hne⟩
        have hthere := (Shape.removes (by rw [htype]; rfl) hremoves).1
        rw [hpath] at hthere
        exact hgone hthere
      · refine ⟨fun hremoves => ?_, hrpath⟩
        unfold Removes at hremoves
        split at hremoves
        · have hx := hremoves.2
          split at hx
          · exact hrprev hx.symm
          · exact hrpath hx.symm
        · exact hrprev hremoves.2.1
    · exact .inl hold.2
  · intro x hxdisk hx hknown
    obtain rfl := Change.eq_of_vanished hxdisk hx
    rcases hcovers (fun heq => hne (heq.symm.trans hback)) hknown with ⟨r, hr, hremoves⟩ | ⟨r, hr, hremoves⟩
    · exact .inl ⟨r, hr, (hharm r (.inl hr)).removes hremoves hknown hx⟩
    · exact .inr ⟨r, hr, (hharm r (.inr hr)).removes hremoves hknown hx⟩
  · intro r x hf
    exact hf.elim
  · intro r hf
    exact hf.elim
  · intro r hf
    exact hf.elim
  · intro r hf
    exact hf.elim
  · intro r hf
    exact hf.elim

/-- A rename after another one or after a deletion: the first path counts. -/
theorem Sound.renamed_replace (h : Sound ws disk known) (hm : Mergeable ws disk known (.renamed prevPath path))
    (hfound : ws.locate path prevPath = some found) (hlike : found.1.type.contentLike = false)
    (hback : ¬ (found.1.type = Kind.metadata.updateType ∧ found.1.prevPath = path)) :
    Sound ((ws.take found).insert ⟨path, if found.1.prevPath ≠ "" then found.1.prevPath else prevPath,
      Kind.metadata.updateType, found.1.requiresRefinement || refined⟩)
      ((Change.renamed prevPath path).perform disk) known := by
  have hl := Windows.located hfound
  have hshape := h.shape_located hl
  obtain ⟨hdisk, hne, hnonempty⟩ := hm.possible
  have hgone : prevPath ∉ (Change.renamed prevPath path).perform disk := Change.notMem_renamed hne
  have hthere : path ∈ (Change.renamed prevPath path).perform disk := Change.mem_renamed.mpr (.inl rfl)
  -- the other path of the record is not the new one
  have hother (hprev : found.1.prevPath ≠ "") : found.1.prevPath ≠ path ∧ found.1.path ≠ found.1.prevPath := by
    refine ⟨fun heq => ?_, (hshape.prev hprev).1.symm⟩
    have hpath : found.1.path = prevPath :=
      hl.named.resolve_left fun h' => (hshape.prev hprev).1 (heq.trans h'.symm)
    exact hback ⟨hshape.renamed hprev (h.alive hl (hpath ▸ hdisk)), heq⟩
  have hmerges := hm.merges found hfound
  rw [Change.MergesWith, if_neg (fun hc => by rw [hlike] at hc; cases hc.2)] at hmerges
  obtain ⟨other, hotherEq⟩ : ∃ x, x = if found.1.prevPath ≠ "" then found.1.prevPath else prevPath := ⟨_, rfl⟩
  have hremoves (x : String) : Removes ((Change.renamed prevPath path).perform disk)
      ⟨path, other, Kind.metadata.updateType, found.1.requiresRefinement || refined⟩ x ↔ other = x ∧ x ≠ "" := by
    rw [Removes, if_neg (by simp [Kind.updateType])]
    exact ⟨And.right, fun hx => ⟨hthere, hx⟩⟩
  rw [← hotherEq]
  by_cases hprev : found.1.prevPath = ""
  · rw [if_neg (by simp [hprev])] at hotherEq
    refine h.insert hm hfound rfl ⟨hm.path, fun _ => ⟨hotherEq ▸ hne, .inl rfl⟩⟩ ?_ ?_ ?_ ?_ ?_ ?_
    · intro x hx
      exact (Change.mem_renamed.mp hx).symm.imp And.right fun hx => ⟨hx, rfl⟩
    · intro x hxdisk hx
      obtain rfl := Change.eq_of_vanished hxdisk hx
      exact .inl ((hremoves x).mpr ⟨hotherEq, hnonempty⟩)
    · intro x hr hx
      unfold Removes at hr
      split at hr
      · rename_i hdeleted
        rw [if_neg (by simp [hprev])] at hr
        rcases hl.named with hpath | hpath
        · rw [hr.2, hpath] at hx
          exact absurd hthere hx
        · rw [h.alive hl (hpath ▸ hdisk)] at hdeleted
          cases hdeleted
      · exact absurd (hr.2.1.symm.trans hprev) hr.2.2
    · intro hx
      refine ⟨(hl.named.resolve_right fun hpath => hgone (hpath ▸ hx)).symm, rfl⟩
    · intro x hx hr
      rw [← ((hremoves x).mp hr).1, hotherEq] at hx
      exact absurd hx hgone
    · intro hdeleted
      cases hdeleted
  · rw [if_pos hprev] at hotherEq
    obtain ⟨hcovers, hkeeps⟩ := hmerges hprev
    rw [if_neg (fun hc => (hother hprev).1 hc.2)] at hkeeps
    -- the located record takes away its other path, whatever it is
    have hfoundRemoves (x : String) (hr : Removes disk found.1 x) : other = x ∧ x ≠ "" := by
      unfold Removes at hr
      split at hr
      · rw [hr.2]
        exact ⟨hotherEq, hprev⟩
      · exact ⟨hotherEq.trans hr.2.1, hr.2.2⟩
    refine h.insert hm hfound rfl ⟨hm.path, fun _ => ⟨hotherEq ▸ (hother hprev).1, .inl rfl⟩⟩ ?_ ?_ ?_ ?_ ?_ ?_
    · intro x hx
      exact (Change.mem_renamed.mp hx).symm.imp And.right fun hx => ⟨hx, rfl⟩
    · intro x hxdisk hx
      obtain rfl := Change.eq_of_vanished hxdisk hx
      by_cases hsame : found.1.prevPath = x
      · exact .inl ((hremoves x).mpr ⟨hotherEq.trans hsame, hnonempty⟩)
      · exact .inr ⟨fun hr => hsame (hotherEq.symm.trans (hfoundRemoves x hr).1), hcovers hsame⟩
    · intro x hr _
      exact (hremoves x).mpr (hfoundRemoves x hr)
    · intro hx
      refine ⟨(hl.named.resolve_right fun hpath => hgone (hpath ▸ hx)).symm, rfl⟩
    · intro x _ hr
      rw [← ((hremoves x).mp hr).1, hotherEq]
      exact ⟨(hother hprev).2.symm, hkeeps⟩
    · intro hdeleted
      cases hdeleted

end Renamed

/-- An event of paths that have no record. -/
theorem Sound.unmerged (h : Sound ws disk known) (hm : Mergeable ws disk known e)
    (hnone : ws.locate e.paths.1 e.paths.2 = none) :
    Sound (ws.insert (e.record refined)) (e.perform disk) known := by
  have hpath : (e.record refined).path = e.paths.1 := by cases e <;> rfl
  have hfree : ws.target.find (e.record refined).path = none := hpath ▸ Windows.locate_eq_none hnone
  have hmem : e.record refined ∈ (ws.insert (e.record refined)).target.records := Window.mem_insert_self hfree
  have hharm (r : FileUpdate) (hr : r ∈ ws.source.records ∨ r ∈ ws.target.records) :
      Harmless disk (e.perform disk) known r := by
    rcases hr with hr | hr
    · exact (hm.source r hr).resolve_left (by simp [hnone])
    · exact (hm.target r hr).resolve_left (by simp [hnone])
  have hframe : Frame ws (ws.insert (e.record refined)) disk (e.perform disk) known (fun _ => False)
      (· = e.record refined) := by
    refine ⟨fun r hr => ?_, fun r hr => ⟨hr, hharm r (.inl hr)⟩,
      fun r hr => .inl ⟨Window.mem_insert_of_mem hr, hharm r (.inr hr)⟩, fun r hr => .inl hr⟩
    rcases Window.mem_of_mem_insert hr with hr | ⟨-, rfl⟩
    · exact .inl ⟨hr, hharm r (.inr hr)⟩
    · exact .inr rfl
  -- what the new record says, by the kind of the event
  have happears : ∀ x ∈ e.perform disk, x ∈ disk ∨ Adds (e.perform disk) (e.record refined) x := by
    intro x hx
    cases e with
    | created path => exact (Finset.mem_insert.mp hx).symm.imp id fun heq => ⟨rfl, heq.symm, hx⟩
    | deleted path => exact .inl (Finset.mem_of_mem_erase hx)
    | content path => exact .inl hx
    | metadata path => exact .inl hx
    | renamed prevPath path =>
      exact (Change.mem_renamed.mp hx).symm.imp And.right fun heq => ⟨rfl, heq.symm, hx⟩
  have hvanishes : ∀ x ∈ disk, x ∉ e.perform disk → Removes (e.perform disk) (e.record refined) x := by
    intro x hdisk hx
    cases e with
    | created path => exact absurd (Finset.mem_insert_of_mem hdisk) hx
    | deleted path =>
      refine ⟨rfl, ?_⟩
      by_contra hne
      exact hx (Finset.mem_erase.mpr ⟨hne, hdisk⟩)
    | content path => exact absurd hdisk hx
    | metadata path => exact absurd hdisk hx
    | renamed prevPath path =>
      obtain rfl := Change.eq_of_vanished hdisk hx
      exact ⟨Change.mem_renamed.mpr (.inl rfl), rfl, hm.possible.2.2⟩
  have hnewTakes : ∀ x ∈ e.perform disk, ¬ Removes (e.perform disk) (e.record refined) x := by
    intro x hx hremoves
    cases e with
    | created path => exact hremoves.2.2 hremoves.2.1.symm
    | deleted path =>
      rw [hremoves.2] at hx
      exact Finset.notMem_erase path disk hx
    | content path => exact hremoves.2.2 hremoves.2.1.symm
    | metadata path => exact hremoves.2.2 hremoves.2.1.symm
    | renamed prevPath path =>
      rw [← hremoves.2.1] at hx
      exact Change.notMem_renamed hm.possible.2.1 hx
  refine h.merged ⟨hframe, ?_, ?_, ?_, ?_, ?_, ?_, ?_⟩
  · intro x hx
    exact (happears x hx).imp id fun hadds => .inl ⟨_, hmem, hadds⟩
  · intro x hdisk hx _
    exact .inr ⟨_, hmem, hvanishes x hdisk hx⟩
  · intro r x hf
    exact hf.elim
  · intro r hf
    exact hf.elim
  · rintro r rfl x hx hremoves
    exact absurd hremoves (hnewTakes x hx)
  · rintro r rfl
    refine ⟨hpath ▸ hm.path, fun hprev => ?_⟩
    cases e with
    | created path => exact absurd rfl hprev
    | deleted path => exact absurd rfl hprev
    | content path => exact absurd rfl hprev
    | metadata path => exact absurd rfl hprev
    | renamed prevPath path => exact ⟨hm.possible.2.1, .inl rfl⟩
  · rintro r rfl hdeleted
    cases e with
    | created path => cases hdeleted
    | deleted path => exact Finset.notMem_erase path disk
    | content path => cases hdeleted
    | metadata path => cases hdeleted
    | renamed prevPath path => cases hdeleted

/-- **An event that can be merged** keeps the invariant. -/
theorem Sound.update (h : Sound ws disk known) (hm : Mergeable ws disk known e) :
    Sound ((ws.update (e.record refined)).getD ws) (e.perform disk) known := by
  have hpaths : (e.record refined).path = e.paths.1 ∧ (e.record refined).prevPath = e.paths.2 := by
    cases e <;> exact ⟨rfl, rfl⟩
  rw [Windows.update, hpaths.1, hpaths.2]
  cases hfound : ws.locate e.paths.1 e.paths.2 with
  | none => exact h.unmerged refined hm hfound
  | some found =>
    show Sound ((ws.merge found (e.record refined)).getD ws) _ _
    cases e with
    | created path =>
      obtain ⟨ws', hmerge, hsound⟩ := h.created refined hm hfound
      rw [hmerge]
      exact hsound
    | deleted path =>
      obtain ⟨ws', hmerge, hsound⟩ := h.deleted refined hm hfound
      rw [hmerge]
      exact hsound
    | content path =>
      obtain ⟨ws', hmerge, hsound⟩ := h.content refined hm hfound
      rw [hmerge]
      exact hsound
    | metadata path =>
      obtain ⟨ws', hmerge, hsound⟩ := h.metadata refined hm hfound
      rw [hmerge]
      exact hsound
    | renamed prevPath path =>
      by_cases hback : found.1.type = Kind.metadata.updateType ∧ found.1.prevPath = path
      · have hmerge : ws.merge found ((Change.renamed prevPath path).record refined) = none := by
          rw [Windows.merge, if_pos ⟨hback.1, rfl, hback.2⟩]
        rw [hmerge]
        exact h.renamed_back hm hfound hback.1 hback.2
      · cases hlike : found.1.type.contentLike with
        | true =>
          have hmerge : ws.merge found ((Change.renamed prevPath path).record refined) =
              some (ws.split found prevPath ((Change.renamed prevPath path).record refined)) := by
            rw [Windows.merge, if_neg (fun hc => hback ⟨hc.1, hc.2.2⟩), if_pos ⟨hlike, rfl, hm.possible.2.2⟩]
            rfl
          rw [hmerge]
          exact h.renamed_split refined hm hfound hlike
        | false =>
          obtain ⟨hcontent, hcreated⟩ : found.1.type.content = false ∧ found.1.type.created1 = false := by
            simpa only [UpdateType.contentLike, Bool.or_eq_false_iff] using hlike
          have hmerge : ws.merge found ((Change.renamed prevPath path).record refined) =
              some ((ws.take found).insert ⟨path, if found.1.prevPath ≠ "" then found.1.prevPath else prevPath,
                Kind.metadata.updateType, found.1.requiresRefinement || refined⟩) := by
            rw [Windows.merge, if_neg (fun hc => hback ⟨hc.1, hc.2.2⟩), if_neg (fun hc => by simp [hlike] at hc)]
            simp [Change.record, FileUpdate.preferContent, Windows.replace, UpdateType.contentLike, hcontent, hcreated,
              Kind.updateType]
          rw [hmerge]
          exact h.renamed_replace refined hm hfound hlike hback

end Merge

end Watcher

end SyncSpirit
