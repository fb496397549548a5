import SyncSpirit.Coalescing

/-!
# Runs of the watcher

`Sound` along a run: an event that can be merged keeps it, and so does the timer, which reports
one window and starts the other. `known_of_run` is the result. `deletion_lost` is a run of three
events after which a file is still known that is not on disk.
-/

namespace SyncSpirit

namespace Watcher

/-! ## The reports -/

section Make

variable {disk known : Finset String} {r : FileUpdate} {w : Window} {reports : List Report} {x : String}

/-- What a report takes away and adds is what its record takes away and adds. -/
theorem FileUpdate.make_eq_some {o : Option Report} (h : r.make disk = some o) :
    (o.bind Report.removes = some x ↔ Removes disk r x) ∧ (o.bind Report.adds = some x ↔ Adds disk r x) := by
  unfold FileUpdate.make at h
  rw [Removes, Adds]
  split at h
  · rename_i hdeleted
    rw [if_pos hdeleted]
    split at h
    · rename_i hcreated
      cases h
      simp [hdeleted, hcreated]
    · rename_i hcreated
      rw [Bool.not_eq_true] at hcreated
      cases h
      simp only [Option.bind_some, Report.removes, Report.adds, Option.some.injEq, hdeleted, hcreated, true_and,
        reduceCtorEq, false_and, and_true]
      exact eq_comm
  · rename_i hdeleted
    rw [if_neg hdeleted, Bool.not_eq_true] at *
    split at h
    · rename_i hpath
      split at h
      · cases h
        simp only [Option.bind_some, Report.removes, Report.adds, Option.some.injEq, hpath, true_and]
        refine ⟨?_, fun hx => ⟨hdeleted, hx, hx ▸ hpath⟩, fun hx => hx.2.1⟩
        split
        · rename_i hprev
          simp [hprev, eq_comm]
        · rename_i hprev
          rw [Option.some.injEq]
          exact ⟨fun hx => ⟨hx, hx ▸ hprev⟩, And.left⟩
      · cases h
    · rename_i hpath
      cases h
      simp only [Option.bind_none, reduceCtorEq, hpath, false_and, false_iff, not_and]
      exact ⟨trivial, fun _ hx hdisk => hpath (hx ▸ hdisk)⟩

/-- The assertion of `make` holds for every record of the right shape. -/
theorem Shape.make (disk : Finset String) (h : Shape r) : (r.make disk).isSome := by
  unfold FileUpdate.make
  split
  · split <;> rfl
  · rename_i hdeleted
    split
    · split
      · rfl
      · rename_i hprev
        rw [not_or] at hprev
        refine absurd ?_ hprev.2
        rw [h.renamed hprev.1 (Bool.eq_false_iff.mpr hdeleted)]
        rfl
    · rfl

theorem Window.make_isSome (disk : Finset String) (h : ∀ r ∈ w.records, Shape r) : (w.make disk).isSome := by
  rw [Window.make, Option.isSome_map]
  generalize w.records = records at h
  induction records with
  | nil => rfl
  | cons r rest ih =>
    obtain ⟨o, ho⟩ := Option.isSome_iff_exists.mp (Shape.make disk (h r (List.mem_cons_self ..)))
    obtain ⟨os, hos⟩ := Option.isSome_iff_exists.mp (ih fun r' hr' => h r' (List.mem_cons_of_mem _ hr'))
    simp [List.mapM_cons, ho, hos]

/-- The reports of a window take away and add what its records do. -/
theorem Window.make_eq_some (h : w.make disk = some reports) :
    (x ∈ reports.filterMap Report.removes ↔ w.Takes disk x) ∧
      (x ∈ reports.filterMap Report.adds ↔ w.Announces disk x) := by
  obtain ⟨os, hos, rfl⟩ := Option.map_eq_some_iff.mp h
  rw [Window.Takes, Window.Announces]
  clear h
  generalize w.records = records at hos
  induction records generalizing os with
  | nil =>
    cases hos
    simp
  | cons r rest ih =>
    obtain ⟨o, ho, hos⟩ := Option.bind_eq_some_iff.mp ((List.mapM_cons ..).symm.trans hos)
    obtain ⟨os', hos', heq⟩ := Option.bind_eq_some_iff.mp hos
    cases heq
    obtain ⟨ihTakes, ihAdds⟩ := ih os' hos'
    obtain ⟨hremoves, hadds⟩ := FileUpdate.make_eq_some (x := x) ho
    simp only [List.exists_mem_cons_iff, ← ihTakes, ← ihAdds, ← hremoves, ← hadds]
    cases o with
    | none => simp
    | some report => simp [List.mem_filterMap]

theorem mem_applyReports (h : w.make disk = some reports) :
    x ∈ applyReports reports known ↔ x ∈ known ∧ ¬ w.Takes disk x ∨ w.Announces disk x := by
  rw [applyReports, Finset.mem_union, Finset.mem_filter, List.mem_toFinset, (Window.make_eq_some h).1,
    (Window.make_eq_some h).2]

end Make

/-! ## The invariant along a run -/

section Steps

variable {ws ws' : Windows} {disk known : Finset String} {new r : FileUpdate} {x : String} {e : Change}

/-- The earlier window only loses records. -/
theorem Windows.mem_source_update (h : ws.update new = some ws') (hr : r ∈ ws'.source.records) :
    r ∈ ws.source.records ∧ ∀ found, ws.locate new.path new.prevPath = some (found, true) → r.path ≠ found.path := by
  have htake (found : FileUpdate × Bool) (hr : r ∈ (ws.take found).source.records) :
      r ∈ ws.source.records ∧ ∀ r', found = (r', true) → r.path ≠ r'.path := by
    unfold Windows.take at hr
    split at hr
    · obtain ⟨hold, hne⟩ := Window.mem_erase.mp hr
      exact ⟨hold, fun r' heq => by rw [heq] at hne; exact hne⟩
    · rename_i hlate
      exact ⟨hr, fun r' heq => absurd (by rw [heq]) hlate⟩
  unfold Windows.update at h
  split at h
  · rename_i found hfound
    refine (htake found ?_).imp id fun hne r' heq => hne r' (Option.some_inj.mp (hfound.symm.trans heq))
    simp only [Windows.merge] at h
    repeat' split at h
    all_goals first | (cases h; exact hr) | cases h
  · rename_i hnone
    cases h
    exact ⟨hr, fun found hfound => by rw [hnone] at hfound; cases hfound⟩

/-- With one window only, it does not matter which of the two it is. -/
theorem Sound.swap {w empty empty' : Window} (hempty : empty.records = []) (hempty' : empty'.records = [])
    (h : Sound ⟨w, empty⟩ disk known) : Sound ⟨empty', w⟩ disk known := by
  have hnot (w' : Window) (hw' : w'.records = []) (x : String) : ¬ w'.Takes disk x ∧ ¬ w'.Announces disk x := by
    rw [Window.Takes, Window.Announces, hw']
    simp
  have hnone (path : String) (w' : Window) (hw' : w'.records = []) : w'.find path = none := by
    rw [Window.find_eq_none, hw']
    simp
  refine ⟨?_, ?_, ?_, ?_, ?_, ?_, ?_⟩
  · rintro r (hr | hr)
    · exact h.shape r (.inr hr)
    · rw [hempty'] at hr
      cases hr
  · intro x hknown hx
    exact .inl ((h.gone x hknown hx).resolve_left (hnot empty hempty x).1)
  · intro x hx hknown
    exact .inl ((h.there x hx hknown).resolve_left (hnot empty hempty x).2)
  · intro x _ htakes
    exact absurd htakes (hnot empty' hempty' x).1
  · intro x hx htakes
    exact .inl (h.later x hx htakes)
  · intro r hr
    rw [hempty'] at hr
    cases hr
  · intro r hr hdeleted hx
    exact absurd hx (h.dead r hr hdeleted)

theorem Sound.swap' {w empty empty' : Window} (hempty : empty.records = []) (hempty' : empty'.records = [])
    (h : Sound ⟨empty, w⟩ disk known) : Sound ⟨w, empty'⟩ disk known := by
  have hnot (w' : Window) (hw' : w'.records = []) (x : String) : ¬ w'.Takes disk x ∧ ¬ w'.Announces disk x := by
    rw [Window.Takes, Window.Announces, hw']
    simp
  refine ⟨?_, ?_, ?_, ?_, ?_, ?_, ?_⟩
  · rintro r (hr | hr)
    · rw [hempty'] at hr
      cases hr
    · exact h.shape r (.inl hr)
  · intro x hknown hx
    exact .inr ((h.gone x hknown hx).resolve_right (hnot empty hempty x).1)
  · intro x hx hknown
    exact .inr ((h.there x hx hknown).resolve_right (hnot empty hempty x).2)
  · intro x hx htakes
    exact (h.earlier x hx htakes).resolve_right (hnot empty hempty x).2
  · intro x _ htakes
    exact absurd htakes (hnot empty' hempty' x).1
  · intro r hr hdeleted hx
    refine h.hidden r hr hdeleted hx ?_
    rw [Window.find_eq_none, hempty]
    simp
  · intro r hr
    rw [hempty'] at hr
    cases hr

/-- The timer: the reports of the earlier window are applied, and the later one is next. -/
theorem Sound.reported {source target : Window} {reports : List Report} (h : Sound ⟨target, source⟩ disk known)
    (hmake : source.make disk = some reports) :
    Sound ⟨Window.empty, target⟩ disk (applyReports reports known) := by
  refine ⟨?_, ?_, ?_, ?_, ?_, ?_, ?_⟩
  · rintro r (hr | hr)
    · exact h.shape r (.inr hr)
    · cases hr
  · intro x hknown hx
    rcases (mem_applyReports hmake).mp hknown with ⟨hold, hnot⟩ | ⟨r, -, hadds⟩
    · exact .inl ((h.gone x hold hx).resolve_left hnot)
    · exact absurd hadds.2.2 hx
  · intro x hx hknown
    rw [mem_applyReports hmake, not_or, not_and, not_not] at hknown
    obtain ⟨htakes, hnot⟩ := hknown
    by_cases hold : x ∈ known
    · exact .inl ((h.earlier x hx (htakes hold)).resolve_left hnot)
    · exact .inl ((h.there x hx hold).resolve_left hnot)
  · rintro x - ⟨r, hr, -⟩
    cases hr
  · intro x hx htakes
    exact .inl (h.later x hx htakes)
  · intro r hr
    cases hr
  · intro r hr hdeleted hx
    exact absurd hx (h.dead r hr hdeleted)

end Steps

namespace System

/-- The condition on the events: one that goes to `next` comes before those that are postponed, and
each can be merged. -/
def Ready (s : System) : Event → Prop
  | .push late e _ => Mergeable (s.windows late) s.disk s.known e ∧
      ((s.running && late) = true ∨ s.postponed.records = [])
  | .finish => True

instance (s : System) : ∀ event, Decidable (s.Ready event)
  | .push late e _ => inferInstanceAs (Decidable (Mergeable (s.windows late) s.disk s.known e ∧ _))
  | .finish => inferInstanceAs (Decidable True)

/-- **The invariant**: the windows tell what is on disk, and without the timer nothing waits. -/
structure Watching (s : System) : Prop where
  sound : Sound ⟨s.postponed, s.next⟩ s.disk s.known
  idle : s.running = false → s.next.records = [] ∧ s.postponed.records = []

theorem watching_initial (disk : Finset String) : (initial disk).Watching where
  sound := by
    refine ⟨?_, ?_, ?_, ?_, ?_, ?_, ?_⟩
    · rintro r (hr | hr) <;> cases hr
    · exact fun x hknown hx => absurd hknown hx
    · exact fun x hx hknown => absurd hx hknown
    · rintro x - ⟨r, hr, -⟩
      cases hr
    · rintro x - ⟨r, hr, -⟩
      cases hr
    · intro r hr
      cases hr
    · intro r hr
      cases hr
  idle _ := ⟨rfl, rfl⟩

/-- An event. -/
theorem Watching.push {s : System} (h : s.Watching) {late : Bool} {e : Change} {refined : Bool}
    (hready : s.Ready (.push late e refined)) : (s.push late e refined).Watching := by
  obtain ⟨hm, horder⟩ := hready
  cases hlate : s.running && late with
  | true =>
    have hrunning : s.running = true := (Bool.and_eq_true_iff.mp hlate).1
    have hwindows : s.windows late = ⟨s.postponed, s.next⟩ := by rw [windows, if_pos hlate]
    rw [hwindows] at hm
    have hsound := h.sound.update refined hm
    rw [System.push, hwindows]
    cases hupdate : Windows.update ⟨s.postponed, s.next⟩ (e.record refined) with
    | none =>
      rw [hupdate] at hsound
      exact ⟨hsound, fun hidle => absurd (hrunning.symm.trans hidle) (by simp)⟩
    | some ws =>
      rw [hupdate] at hsound
      have hset : ({ s with disk := e.perform s.disk } : System).setWindows late ws =
          { s with disk := e.perform s.disk, postponed := ws.target, next := ws.source } := if_pos hlate
      show (setWindows _ late ws).Watching
      rw [hset]
      exact ⟨hsound, fun hidle => absurd (hrunning.symm.trans hidle) (by simp)⟩
  | false =>
    have hpostponed := horder.resolve_left (by simp [hlate])
    have hwindows : s.windows late = ⟨s.next, Window.empty⟩ := by rw [windows, if_neg (by simp [hlate])]
    rw [hwindows] at hm
    have hsound := (h.sound.swap' hpostponed rfl).update refined hm
    rw [System.push, hwindows]
    cases hupdate : Windows.update ⟨s.next, Window.empty⟩ (e.record refined) with
    | none =>
      rw [hupdate] at hsound
      exact ⟨hsound.swap rfl hpostponed, h.idle⟩
    | some ws =>
      rw [hupdate] at hsound
      have hset : ({ s with disk := e.perform s.disk } : System).setWindows late ws =
          { s with disk := e.perform s.disk, next := ws.target, running := true } := if_neg (by simp [hlate])
      have hsource : ws.source.records = [] := by
        rw [List.eq_nil_iff_forall_not_mem]
        intro r hr
        exact absurd (Windows.mem_source_update hupdate hr).1 (List.not_mem_nil)
      show (setWindows _ late ws).Watching
      rw [hset]
      exact ⟨Sound.swap (w := ws.target) hsource hpostponed hsound, fun hidle => by cases hidle⟩

/-- **One step** keeps the invariant. -/
theorem Watching.step {s s' : System} {event : Event} (h : s.Watching) (hready : s.Ready event)
    (hstep : s.step event = some s') : s'.Watching := by
  cases event with
  | push late e refined =>
    cases hstep
    exact h.push hready
  | finish =>
    simp only [System.step, finish] at hstep
    split at hstep
    · obtain ⟨reports, hmake, rfl⟩ := Option.map_eq_some_iff.mp hstep
      refine ⟨h.sound.reported hmake, fun hidle => ⟨?_, rfl⟩⟩
      simpa using hidle
    · cases hstep

end System

/-! ## A path that comes and goes -/

section Fresh

variable {ws ws' : Windows} {disk known : Finset String} {r : FileUpdate} {x : String} {e : Change}

/-- A record of the path does not report its deletion: the path has been created in this window, or
something has been moved there. -/
def FileUpdate.Good (x : String) (r : FileUpdate) : Prop := r.path = x → r.type.created1 = true ∨ r.prevPath ≠ ""

/-- The event does not move the path away. -/
def Change.Leaves (e : Change) (x : String) : Prop := ∀ path, e ≠ .renamed x path

/-- **No report about a path that has come and gone.** A path that is known and gone may have a record
in each window. -/
structure Fresh (ws : Windows) (known : Finset String) (x : String) : Prop where
  kept : ∀ r, r ∈ ws.source.records ∨ r ∈ ws.target.records → r.prevPath ≠ x
  unknown : x ∉ known → ∀ r, r ∈ ws.source.records ∨ r ∈ ws.target.records → r.Good x
  behind : ∀ r ∈ ws.source.records, r.type.deleted = true → ¬ r.Good x → ∀ r' ∈ ws.target.records, r'.Good x

/-- The new records of a merge. -/
theorem Windows.mem_merge {found : FileUpdate × Bool} {new : FileUpdate} (h : ws.merge found new = some ws')
    (hr : r ∈ ws'.target.records) : r ∈ ws.target.records ∨
      (r.path = new.path ∧ r.type.created1 = true ∧ r.prevPath = "") ∨
      ((r.path = new.prevPath ∨ r.path = found.1.prevPath) ∧ r.prevPath = "") ∨
      r.path = new.path ∧ (found.1.type.created1 = true → r.type.created1 = true) ∧
        r.prevPath = if found.1.prevPath ≠ "" then found.1.prevPath else new.prevPath := by
  have htake (hr : r ∈ (ws.take found).target.records) : r ∈ ws.target.records := by
    unfold Windows.take at hr
    split at hr
    · exact hr
    · exact (Window.mem_erase.mp hr).1
  have hsplit (gone : String) (n : FileUpdate) (hr : r ∈ (ws.split found gone n).target.records) :
      r ∈ ws.target.records ∨ (r.path = n.path ∧ r.type.created1 = true ∧ r.prevPath = "") ∨
        r.path = gone ∧ r.prevPath = "" := by
    rcases Window.mem_of_mem_insert hr with hr | ⟨-, rfl⟩
    · rcases Window.mem_of_mem_insert hr with hr | ⟨-, rfl⟩
      · exact .inl (htake hr)
      · exact .inr (.inr ⟨rfl, rfl⟩)
    · exact .inr (.inl ⟨rfl, rfl, rfl⟩)
  have hprefer : (new.preferContent found.1.type).path = new.path ∧
      (new.preferContent found.1.type).prevPath = new.prevPath := by
    unfold FileUpdate.preferContent
    split <;> exact ⟨rfl, rfl⟩
  simp only [Windows.merge] at h
  split at h
  · cases h
  · split at h
    · cases h
      rcases hsplit _ _ hr with h | h | h
      · exact .inl h
      · exact .inr (.inl h)
      · exact .inr (.inr (.inl ⟨.inl h.1, h.2⟩))
    · split at h
      · cases h
        rcases hsplit _ _ hr with h | h | h
        · exact .inl h
        · exact .inr (.inl ⟨h.1.trans hprefer.1, h.2⟩)
        · exact .inr (.inr (.inl ⟨.inr h.1, h.2⟩))
      · cases h
        rcases Window.mem_of_mem_insert hr with hr | ⟨-, rfl⟩
        · exact .inl (htake hr)
        · refine .inr (.inr (.inr ⟨hprefer.1, fun hc => ?_, ?_⟩))
          · simp [hc]
          · rw [← hprefer.2]

/-- A new record is good, unless the record it comes from is not, or there is none. -/
theorem Fresh.good {refined : Bool} (h : Sound ws disk known) (hm : Mergeable ws disk known e)
    (hf : Fresh ws known x) (hx : x ≠ "") (he : e.Leaves x) (hupdate : ws.update (e.record refined) = some ws')
    (hr : r ∈ ws'.target.records) :
    r ∈ ws.target.records ∨ r.prevPath ≠ x ∧ (r.Good x ∨ e.paths.1 = x ∧
      ((ws.locate e.paths.1 e.paths.2 = none ∧ e.paths.2 = "" ∧ e ≠ .created x) ∨
        ∃ found, ws.locate e.paths.1 e.paths.2 = some found ∧ found.1.path = x ∧ ¬ found.1.Good x)) := by
  have hpaths : (e.record refined).path = e.paths.1 ∧ (e.record refined).prevPath = e.paths.2 := by
    cases e <;> exact ⟨rfl, rfl⟩
  have hprev : e.paths.2 ≠ x := by
    cases e with
    | renamed prevPath path => exact fun heq => he path (congrArg (Change.renamed · path) heq)
    | _ => exact hx.symm
  rw [Windows.update, hpaths.1, hpaths.2] at hupdate
  split at hupdate
  · rename_i found hfound
    have hl := Windows.located hfound
    have hkept : found.1.prevPath ≠ x := by
      have hmem := hl.mem
      split at hmem
      · exact hf.kept found.1 (.inl hmem)
      · exact hf.kept found.1 (.inr hmem)
    rcases Windows.mem_merge hupdate hr with hold | ⟨-, hcreated, hrprev⟩ | ⟨hrpath, hrprev⟩ | ⟨hrpath, hcreated, hrprev⟩
    · exact .inl hold
    · exact .inr ⟨hrprev ▸ hx.symm, .inl fun _ => .inl hcreated⟩
    · refine .inr ⟨hrprev ▸ hx.symm, .inl fun heq => ?_⟩
      rcases hrpath with hrpath | hrpath
      · exact absurd (hpaths.2.symm.trans (hrpath.symm.trans heq)) hprev
      · exact absurd (hrpath.symm.trans heq) hkept
    · rw [hpaths.2] at hrprev
      refine .inr ⟨?_, ?_⟩
      · rw [hrprev]
        split
        · exact hkept
        · exact hprev
      · by_cases hgood : r.Good x
        · exact .inl hgood
        · -- neither the located record nor the event has another path
          simp only [FileUpdate.Good, Classical.not_imp, not_or, Bool.not_eq_true, not_not] at hgood
          obtain ⟨heq, hrc, hrp⟩ := hgood
          have hfoundPrev : found.1.prevPath = "" := by
            by_contra hne
            rw [if_pos hne] at hrprev
            exact hne (hrprev.symm.trans hrp)
          rw [if_neg (by simp [hfoundPrev]), hrp] at hrprev
          have hpath : e.paths.1 = x := hpaths.1.symm.trans (hrpath.symm.trans heq)
          refine .inr ⟨hpath, .inr ⟨found, hfound, ?_, ?_⟩⟩
          · rw [← hrprev] at hl
            exact (h.named hl).trans hpath
          · intro hgood
            have hfpath : found.1.path = x := by
              rw [← hrprev] at hl
              exact (h.named hl).trans hpath
            rcases hgood hfpath with hc | hc
            · rw [hcreated hc] at hrc
              cases hrc
            · exact hc hfoundPrev
  · rename_i hnone
    cases hupdate
    rcases Window.mem_of_mem_insert hr with hold | ⟨-, rfl⟩
    · exact .inl hold
    · refine .inr ⟨hpaths.2 ▸ hprev, ?_⟩
      by_cases hgood : (e.record refined).Good x
      · exact .inl hgood
      · simp only [FileUpdate.Good, Classical.not_imp, not_or, Bool.not_eq_true, not_not] at hgood
        obtain ⟨heq, hrc, hrp⟩ := hgood
        refine .inr ⟨hpaths.1.symm.trans heq, .inl ⟨hnone, hpaths.2.symm.trans hrp, ?_⟩⟩
        rintro rfl
        cases hrc

theorem Windows.not_mem_of_locate_eq_none {path prevPath : String} (h : ws.locate path prevPath = none)
    (hr : r ∈ ws.source.records ∨ r ∈ ws.target.records) : r.path ≠ path := by
  simp only [Windows.locate, Option.orElse_eq_none, Option.map_eq_none_iff,
    Window.find_eq_none] at h
  rcases hr with hr | hr
  · exact h.2.2.1 r hr
  · exact h.1 r hr

theorem Fresh.update {refined : Bool} (h : Sound ws disk known) (hm : Mergeable ws disk known e)
    (hf : Fresh ws known x) (hx : x ≠ "") (he : e.Leaves x) (hdeleted : e = .deleted x → x ∈ disk)
    (hupdate : ws.update (e.record refined) = some ws') : Fresh ws' known x := by
  have hpaths : (e.record refined).path = e.paths.1 ∧ (e.record refined).prevPath = e.paths.2 := by
    cases e <;> exact ⟨rfl, rfl⟩
  refine ⟨?_, ?_, ?_⟩
  · rintro r (hr | hr)
    · exact hf.kept r (.inl (Windows.mem_source_update hupdate hr).1)
    · rcases Fresh.good h hm hf hx he hupdate hr with hold | hnew
      · exact hf.kept r (.inr hold)
      · exact hnew.1
  · rintro hknown r (hr | hr)
    · exact hf.unknown hknown r (.inl (Windows.mem_source_update hupdate hr).1)
    · rcases Fresh.good h hm hf hx he hupdate hr with hold | ⟨-, hgood | ⟨hpath, hnone | hfound⟩⟩
      · exact hf.unknown hknown r (.inr hold)
      · exact hgood
      · -- the path is there and not known, so it has a record
        obtain ⟨hnone, hprev, hcreated⟩ := hnone
        have hdisk : x ∈ disk := by
          cases e with
          | created path => exact absurd (congrArg Change.created hpath) hcreated
          | deleted path => exact hdeleted (congrArg Change.deleted hpath)
          | content path => exact hpath ▸ hm.possible
          | metadata path => exact hpath ▸ hm.possible
          | renamed prevPath path => exact absurd hprev hm.possible.2.2
        rw [hpath] at hnone
        rcases h.there x hdisk hknown with ⟨r', hr', hadds⟩ | ⟨r', hr', hadds⟩
        · exact absurd hadds.2.1 (Windows.not_mem_of_locate_eq_none hnone (.inl hr'))
        · exact absurd hadds.2.1 (Windows.not_mem_of_locate_eq_none hnone (.inr hr'))
      · obtain ⟨found, hfound, -, hnot⟩ := hfound
        have hmem := (Windows.located hfound).mem
        split at hmem
        · exact absurd (hf.unknown hknown found.1 (.inl hmem)) hnot
        · exact absurd (hf.unknown hknown found.1 (.inr hmem)) hnot
  · intro r hr hrdeleted hnot r' hr'
    obtain ⟨hold, hne⟩ := Windows.mem_source_update hupdate hr
    have hrpath : r.path = x := by
      by_contra hrpath
      exact hnot fun heq => absurd heq hrpath
    have hbehind := hf.behind r hold hrdeleted hnot
    rcases Fresh.good h hm hf hx he hupdate hr' with hold' | ⟨-, hgood | ⟨hpath, hnone | hfound⟩⟩
    · exact hbehind r' hold'
    · exact hgood
    · rw [hpath] at hnone
      exact absurd hrpath (Windows.not_mem_of_locate_eq_none hnone.1 (.inl hold))
    · obtain ⟨⟨found, late⟩, hfound, hfpath, hfnot⟩ := hfound
      have hmem := (Windows.located hfound).mem
      cases late with
      | true =>
        rw [hpaths.1, hpaths.2] at hne
        exact absurd (hrpath.trans hfpath.symm) (hne found hfound)
      | false => exact absurd (hbehind found hmem) hfnot

/-- What the windows say about such a path: nothing. -/
theorem Fresh.not_takes (disk : Finset String) (hf : Fresh ws known x) (hknown : x ∉ known) :
    ¬ ws.source.Takes disk x ∧ ¬ ws.target.Takes disk x := by
  have hnot (r : FileUpdate) (hr : r ∈ ws.source.records ∨ r ∈ ws.target.records) : ¬ Removes disk r x := by
    intro hremoves
    unfold Removes at hremoves
    split at hremoves
    · obtain ⟨hcreated, hx⟩ := hremoves
      split at hx
      · exact hf.kept r hr hx.symm
      · rename_i hprev
        rcases hf.unknown hknown r hr hx.symm with hc | hc
        · rw [hcreated] at hc
          cases hc
        · exact hprev hc
    · exact hf.kept r hr hremoves.2.1
  constructor
  · rintro ⟨r, hr, hremoves⟩
    exact hnot r (.inl hr) hremoves
  · rintro ⟨r, hr, hremoves⟩
    exact hnot r (.inr hr) hremoves

theorem Shape.not_removes_empty (h : Shape r) : ¬ Removes disk r "" := by
  intro hremoves
  unfold Removes at hremoves
  split at hremoves
  · have hx := hremoves.2
    split at hx
    · rename_i hprev
      exact hprev hx.symm
    · exact h.path hx.symm
  · exact hremoves.2.2 rfl

theorem Fresh.swap {w empty empty' : Window} (hempty' : empty'.records = []) (h : Fresh ⟨w, empty⟩ known x) :
    Fresh ⟨empty', w⟩ known x := by
  refine ⟨?_, ?_, ?_⟩
  · rintro r (hr | hr)
    · exact h.kept r (.inr hr)
    · rw [hempty'] at hr
      cases hr
  · rintro hknown r (hr | hr)
    · exact h.unknown hknown r (.inr hr)
    · rw [hempty'] at hr
      cases hr
  · intro r _ _ _ r' hr'
    rw [hempty'] at hr'
    cases hr'

theorem Fresh.swap' {w empty : Window} (empty' : Window) (hempty' : empty'.records = []) (h : Fresh ⟨empty, w⟩ known x) :
    Fresh ⟨w, empty'⟩ known x := by
  refine ⟨?_, ?_, ?_⟩
  · rintro r (hr | hr)
    · rw [hempty'] at hr
      cases hr
    · exact h.kept r (.inl hr)
  · rintro hknown r (hr | hr)
    · rw [hempty'] at hr
      cases hr
    · exact h.unknown hknown r (.inl hr)
  · intro r hr
    rw [hempty'] at hr
    cases hr

/-- The timer. A path that is taken away now is not known any more. -/
theorem Fresh.reported {source target : Window} {reports : List Report} (h : Fresh ⟨target, source⟩ known x)
    (hmake : source.make disk = some reports) : Fresh ⟨Window.empty, target⟩ (applyReports reports known) x := by
  refine ⟨?_, ?_, ?_⟩
  · rintro r (hr | hr)
    · exact h.kept r (.inr hr)
    · cases hr
  · rintro hknown r (hr | hr)
    · rw [mem_applyReports hmake, not_or, not_and, not_not] at hknown
      by_cases hold : x ∈ known
      · obtain ⟨r', hr', hremoves⟩ := hknown.1 hold
        have hkept := h.kept r' (.inl hr')
        -- the record that takes it away is a deletion of just this path
        unfold Removes at hremoves
        split at hremoves
        · rename_i hdeleted
          obtain ⟨hcreated, hx⟩ := hremoves
          split at hx
          · exact absurd hx.symm hkept
          · rename_i hprev
            refine h.behind r' hr' hdeleted (fun hgood => ?_) r hr
            rcases hgood hx.symm with hc | hc
            · rw [hcreated] at hc
              cases hc
            · exact hprev hc
        · exact absurd hremoves.2.1 hkept
      · exact h.unknown hold r (.inr hr)
    · cases hr
  · intro r _ _ _ r' hr'
    cases hr'

end Fresh

/-! ## Runs -/

namespace System

/-- The event does not move the path away, and if it is its deletion, the path is there. -/
def Plain (x : String) (s : System) : Event → Prop
  | .push _ e _ => e.Leaves x ∧ (e = .deleted x → x ∈ s.disk)
  | .finish => True

/-- **What the windows report**: first `before`, then `after`. Applied to what was known they give
what is on disk, and a known path that is gone is taken away by one of them. -/
structure Tells (s : System) (before after : List Report) : Prop where
  next : s.next.make s.disk = some before
  postponed : s.postponed.make s.disk = some after
  disk : applyReports after (applyReports before s.known) = s.disk
  deleted : ∀ x ∈ s.known, x ∉ s.disk → ∃ report ∈ before ++ after, report.removes = some x

theorem Watching.tells {s : System} (h : s.Watching) : ∃ before after, s.Tells before after := by
  obtain ⟨before, hbefore⟩ := Option.isSome_iff_exists.mp
    (Window.make_isSome (w := s.next) s.disk fun r hr => h.sound.shape r (.inl hr))
  obtain ⟨after, hafter⟩ := Option.isSome_iff_exists.mp
    (Window.make_isSome (w := s.postponed) s.disk fun r hr => h.sound.shape r (.inr hr))
  refine ⟨before, after, hbefore, hafter, ?_, ?_⟩
  · ext x
    -- after both windows nothing waits, so what is known is what is there
    have hsound := (h.sound.reported hbefore).reported hafter
    constructor
    · intro hx
      by_contra hdisk
      rcases hsound.gone x hx hdisk with ⟨r, hr, -⟩ | ⟨r, hr, -⟩ <;> cases hr
    · intro hdisk
      by_contra hx
      rcases hsound.there x hdisk hx with ⟨r, hr, -⟩ | ⟨r, hr, -⟩ <;> cases hr
  · intro x hknown hx
    simp only [List.mem_append]
    rcases h.sound.gone x hknown hx with htakes | htakes
    · obtain ⟨report, hreport, heq⟩ := List.mem_filterMap.mp ((Window.make_eq_some hbefore).1.mpr htakes)
      exact ⟨report, .inl hreport, heq⟩
    · obtain ⟨report, hreport, heq⟩ := List.mem_filterMap.mp ((Window.make_eq_some hafter).1.mpr htakes)
      exact ⟨report, .inr hreport, heq⟩

/-- A path that is not there and that no record takes away is not reported. -/
theorem Tells.silent {s : System} {before after : List Report} {x : String} (h : s.Tells before after)
    (hsource : ¬ s.next.Takes s.disk x) (htarget : ¬ s.postponed.Takes s.disk x) (hx : x ∉ s.disk) :
    ∀ report ∈ before ++ after, report.removes ≠ some x ∧ report.adds ≠ some x := by
  have hnot (w : Window) : ¬ w.Announces s.disk x := by
    rintro ⟨r, -, hadds⟩
    exact hx hadds.2.2
  intro report hreport
  rcases List.mem_append.mp hreport with hreport | hreport
  · refine ⟨fun heq => hsource ?_, fun heq => hnot s.next ?_⟩
    · exact (Window.make_eq_some h.next).1.mp (List.mem_filterMap.mpr ⟨report, hreport, heq⟩)
    · exact (Window.make_eq_some h.next).2.mp (List.mem_filterMap.mpr ⟨report, hreport, heq⟩)
  · refine ⟨fun heq => htarget ?_, fun heq => hnot s.postponed ?_⟩
    · exact (Window.make_eq_some h.postponed).1.mp (List.mem_filterMap.mpr ⟨report, hreport, heq⟩)
    · exact (Window.make_eq_some h.postponed).2.mp (List.mem_filterMap.mpr ⟨report, hreport, heq⟩)

/-- **One step** for a path that is not moved away. -/
theorem Watching.fresh {s s' : System} {event : Event} {x : String} (h : s.Watching) (hready : s.Ready event)
    (hplain : s.Plain x event) (hx : x ≠ "") (hf : Fresh ⟨s.postponed, s.next⟩ s.known x)
    (hstep : s.step event = some s') : Fresh ⟨s'.postponed, s'.next⟩ s'.known x := by
  cases event with
  | push late e refined =>
    cases hstep
    obtain ⟨hm, horder⟩ := hready
    obtain ⟨hleaves, hdeleted⟩ := hplain
    cases hlate : s.running && late with
    | true =>
      have hwindows : s.windows late = ⟨s.postponed, s.next⟩ := by rw [windows, if_pos hlate]
      rw [hwindows] at hm
      rw [System.push, hwindows]
      cases hupdate : Windows.update ⟨s.postponed, s.next⟩ (e.record refined) with
      | none => exact hf
      | some ws =>
        have hset : ({ s with disk := e.perform s.disk } : System).setWindows late ws =
            { s with disk := e.perform s.disk, postponed := ws.target, next := ws.source } := if_pos hlate
        simp only [hset]
        exact hf.update h.sound hm hx hleaves hdeleted hupdate
    | false =>
      have hpostponed := horder.resolve_left (by simp [hlate])
      have hwindows : s.windows late = ⟨s.next, Window.empty⟩ := by rw [windows, if_neg (by simp [hlate])]
      rw [hwindows] at hm
      rw [System.push, hwindows]
      cases hupdate : Windows.update ⟨s.next, Window.empty⟩ (e.record refined) with
      | none => exact hf
      | some ws =>
        have hset : ({ s with disk := e.perform s.disk } : System).setWindows late ws =
            { s with disk := e.perform s.disk, next := ws.target, running := true } := if_neg (by simp [hlate])
        have hfresh := (hf.swap' Window.empty rfl).update (h.sound.swap' hpostponed rfl) hm hx hleaves
          hdeleted hupdate
        simp only [hset]
        exact Fresh.swap (w := ws.target) hpostponed hfresh
  | finish =>
    simp only [System.step, finish] at hstep
    split at hstep
    · obtain ⟨reports, hmake, rfl⟩ := Option.map_eq_some_iff.mp hstep
      exact hf.reported hmake
    · cases hstep

theorem Watching.shape_located {s : System} (h : s.Watching) {late : Bool} {path prevPath : String}
    {found : FileUpdate × Bool} (hfound : (s.windows late).locate path prevPath = some found) : Shape found.1 := by
  have hmem : found.1 ∈ (s.windows late).source.records ∨ found.1 ∈ (s.windows late).target.records := by
    have hmem := (Windows.located hfound).mem
    split at hmem
    · exact .inl hmem
    · exact .inr hmem
  unfold windows at hmem
  split at hmem
  · exact h.sound.shape found.1 hmem
  · rcases hmem with hmem | hmem
    · cases hmem
    · exact h.sound.shape found.1 (.inl hmem)

theorem fresh_initial (disk : Finset String) (x : String) :
    Fresh ⟨(initial disk).postponed, (initial disk).next⟩ (initial disk).known x := by
  refine ⟨?_, ?_, ?_⟩
  · rintro r (hr | hr) <;> cases hr
  · rintro - r (hr | hr) <;> cases hr
  · intro r hr
    cases hr

theorem watching_of_run {disk : Finset String} {events : List Event} {s : System}
    (hready : Run.Meets step Ready (initial disk) events) (hrun : Run.exec step (initial disk) events = some s) :
    s.Watching :=
  Run.exec_inv (fun _ _ _ h hready => h.step hready) (watching_initial disk) hready hrun

/-- **What is reported is what has happened**: in every run of events that can be merged, the reports
of the two windows, applied to what was known, give what is on disk; a path that is not moved away
and that is neither known nor there is not reported; and an event is merged with a record of its path
or of the path that it moves. -/
theorem known_of_run {disk : Finset String} {events : List Event} {s : System}
    (hready : Run.Meets step Ready (initial disk) events) (hrun : Run.exec step (initial disk) events = some s) :
    ∃ before after, s.Tells before after ∧
      (∀ x, Run.Meets step (Plain x) (initial disk) events → x ∉ s.known → x ∉ s.disk →
        ∀ report ∈ before ++ after, report.removes ≠ some x ∧ report.adds ≠ some x) ∧
      ∀ (late : Bool) (e : Change) (found : FileUpdate × Bool), (s.windows late).locate e.paths.1 e.paths.2 = some found →
        found.1.path = e.paths.1 ∨ ∃ path, e = .renamed found.1.path path := by
  have hwatching := watching_of_run hready hrun
  obtain ⟨before, after, htells⟩ := hwatching.tells
  refine ⟨before, after, htells, fun x hplain hknown hx => ?_, fun late e found hfound => ?_⟩
  · by_cases hempty : x = ""
    · subst hempty
      have hnot (w : Window) (hw : ∀ r ∈ w.records, Shape r) : ¬ w.Takes s.disk "" := by
        rintro ⟨r, hr, hremoves⟩
        exact (hw r hr).not_removes_empty hremoves
      exact htells.silent (hnot s.next fun r hr => hwatching.sound.shape r (.inl hr))
        (hnot s.postponed fun r hr => hwatching.sound.shape r (.inr hr)) hx
    · have hstep (s : System) (event : Event) (s' : System)
          (h : s.Watching ∧ Fresh ⟨s.postponed, s.next⟩ s.known x) (hcond : s.Ready event ∧ s.Plain x event)
          (hstep : s.step event = some s') : s'.Watching ∧ Fresh ⟨s'.postponed, s'.next⟩ s'.known x :=
        ⟨h.1.step hcond.1 hstep, h.1.fresh hcond.1 hcond.2 hempty h.2 hstep⟩
      have hfresh := (Run.exec_inv hstep ⟨watching_initial disk, fresh_initial disk x⟩ (hready.and hplain) hrun).2
      obtain ⟨hsource, htarget⟩ := hfresh.not_takes s.disk hknown
      exact htells.silent hsource htarget hx
  · refine (Windows.located hfound).named.imp id fun hpath => ?_
    cases e with
    | renamed prevPath path => exact ⟨path, by rw [hpath]; rfl⟩
    | _ => exact absurd hpath (hwatching.shape_located hfound).path

/-- A file is created, changed, renamed and deleted, while another one is moved over it. -/
def busy : List Event :=
  [.push false (.created "a") false, .push false (.content "a") false, .push true (.renamed "a" "b") false,
    .push true (.renamed "c" "a") false, .push true (.deleted "b") false]

theorem known_of_busy : ∃ s, Run.exec step (initial {"c"}) busy = some s ∧ s.disk = {"a"} ∧ s.known = {"c"} ∧
    ∃ before after, s.Tells before after := by
  obtain ⟨s, hs⟩ := Option.isSome_iff_exists.mp
    (show (Run.exec step (initial {"c"}) busy).isSome = true by decide +kernel)
  have hfields : (Run.exec step (initial {"c"}) busy).map (fun s => (s.disk, s.known)) = some ({"a"}, {"c"}) := by
    decide +kernel
  rw [hs, Option.map_some, Option.some.injEq, Prod.mk.injEq] at hfields
  obtain ⟨before, after, htells, -⟩ := known_of_run (by decide +kernel) hs
  exact ⟨s, hs, hfields.1, hfields.2, before, after, htells⟩

/-- **A deletion is lost**: the file was there before the first event, and after it has been deleted,
created and deleted nothing is reported. -/
theorem deletion_lost :
    let events := [.push false (.deleted "a") false, .push false (.created "a") false,
      .push false (.deleted "a") false, .finish]
    (Run.exec step (initial {"a"}) events).map (fun s => (s.disk, s.known, s.next.records, s.postponed.records)) =
      some (∅, {"a"}, [], []) := by
  decide +kernel

end System

end Watcher

end SyncSpirit
