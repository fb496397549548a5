import SyncSpirit.Lib.Run
import SyncSpirit.UpdatesStreamer

/-!
# What a peer is sent

The files of a folder should be sent in the order of their sequences, and none should be skipped. That is
so as long as the files that wait are in the order of their present sequences when the streamer looks at
them: `Fits` says so for each event. `stream_of_run` is the result for whole runs; in
`sequence_goes_back` two files that wait are advanced by one update of the model, and the streamer goes
back to a smaller sequence.
-/

namespace SyncSpirit

namespace Streaming

/-! ## The index -/

section Index

variable {key : String → Nat} {l : List String} {x : String}

/-- An element goes to its place among others that are in order. -/
theorem inOrder_orderedInsert (h : InOrder key l) (hne : ∀ y ∈ l, key y ≠ key x) :
    InOrder key (l.orderedInsert (fun a b => key a ≤ key b) x) := by
  induction l with
  | nil => exact List.pairwise_singleton _ _
  | cons a l ih =>
    obtain ⟨hfirst, hrest⟩ := List.pairwise_cons.mp h
    have hane : key a ≠ key x := hne a (List.mem_cons_self ..)
    rw [List.orderedInsert_cons]
    split
    · rename_i hle
      have hlt : key x < key a := lt_of_le_of_ne hle hane.symm
      refine List.pairwise_cons.mpr ⟨fun y hy => ?_, h⟩
      rcases List.mem_cons.mp hy with rfl | hy
      · exact hlt
      · exact hlt.trans (hfirst y hy)
    · rename_i hle
      refine List.pairwise_cons.mpr ⟨fun y hy => ?_, ih hrest fun y hy => hne y (List.mem_cons_of_mem _ hy)⟩
      rcases List.mem_orderedInsert _ |>.mp hy with rfl | hy
      · exact not_le.mp hle
      · exact hfirst y hy

/-- An element that fits between its neighbours is in order. -/
theorem inOrder_of_inPlace (hnodup : l.Nodup) (hx : x ∈ l) (h : InOrder key (l.filter (· ≠ x)))
    (hplace : inPlace key l x) : InOrder key l := by
  obtain ⟨a, b, rfl⟩ := List.append_of_mem hx
  have ha : x ∉ a := fun hmem => (List.nodup_append.mp hnodup).2.2 x hmem x (List.mem_cons_self ..) rfl
  have hb : x ∉ b := (List.nodup_cons.mp (List.nodup_append.mp hnodup).2.1).1
  have hkeepA : ∀ y ∈ a, decide (y ≠ x) = true := fun y hy => decide_eq_true fun heq => ha (heq ▸ hy)
  have hkeepB : ∀ y ∈ b, decide (y ≠ x) = true := fun y hy => decide_eq_true fun heq => hb (heq ▸ hy)
  rw [List.filter_append, List.filter_cons_of_neg (by simp), List.filter_eq_self.mpr hkeepA,
    List.filter_eq_self.mpr hkeepB] at h
  rw [inPlace, List.takeWhile_append_of_pos hkeepA, List.dropWhile_append_of_pos hkeepA] at hplace
  simp only [List.takeWhile_cons, List.dropWhile_cons, ne_eq, not_true_eq_false, decide_false, Bool.false_eq_true,
    if_false, List.append_nil, List.drop_one, List.tail_cons] at hplace
  obtain ⟨hprev, hnext⟩ := hplace
  obtain ⟨hA, hB, hAB⟩ := List.pairwise_append.mp h
  -- the neighbours are the greatest before and the least after
  have hbefore : ∀ y ∈ a, key y < key x := by
    intro y hy
    rcases List.eq_nil_or_concat a with rfl | ⟨a', z, rfl⟩
    · cases hy
    · rw [List.concat_eq_append] at hy hA hprev
      have hz : key z < key x := hprev z (by simp)
      rcases List.mem_append.mp hy with hy | hy
      · exact ((List.pairwise_append.mp hA).2.2 y hy z (List.mem_singleton_self z)).trans hz
      · rw [List.mem_singleton.mp hy]
        exact hz
  have hafter : ∀ y ∈ b, key x < key y := by
    intro y hy
    cases b with
    | nil => cases hy
    | cons z b =>
      have hz : key x < key z := hnext z (by simp)
      rcases List.mem_cons.mp hy with rfl | hy
      · exact hz
      · exact hz.trans ((List.pairwise_cons.mp hB).1 y hy)
  refine List.pairwise_append.mpr ⟨hA, List.pairwise_cons.mpr ⟨hafter, hB⟩, fun y hy z hz => ?_⟩
  rcases List.mem_cons.mp hz with rfl | hz
  · exact hbefore y hy
  · exact hAB y hy z hz

/-- **`put`** with the other elements in order: everything is in order afterwards. -/
theorem put_spec (hnodup : l.Nodup) (h : InOrder key (l.filter (· ≠ x))) (hne : ∀ y ∈ l, y ≠ x → key y ≠ key x) :
    ∃ l', put key l x = some l' ∧ InOrder key l' ∧ l'.Nodup ∧ ∀ y, y ∈ l' ↔ y ∈ l ∨ y = x := by
  -- the element is put in among the others
  have hplace : ∃ l', place key (l.filter (· ≠ x)) x = some l' ∧ InOrder key l' ∧ l'.Nodup ∧
      ∀ y, y ∈ l' ↔ y ∈ l ∨ y = x := by
    rw [place, if_pos (.inl h)]
    refine ⟨_, rfl, inOrder_orderedInsert h fun y hy => ?_, ?_, fun y => ?_⟩
    · obtain ⟨hy, hyx⟩ := List.mem_filter.mp hy
      exact hne y hy (by simpa using hyx)
    · refine (List.perm_orderedInsert _ _ _).nodup_iff.mpr (List.nodup_cons.mpr ⟨?_, hnodup.filter _⟩)
      simp
    · rw [List.mem_orderedInsert, List.mem_filter, decide_eq_true_eq]
      by_cases heq : y = x <;> simp [heq]
  rw [put]
  split
  · rename_i hx
    split
    · rename_i hin
      refine ⟨l, rfl, inOrder_of_inPlace hnodup hx h hin, hnodup, fun y => ⟨.inl, ?_⟩⟩
      rintro (hy | rfl)
      · exact hy
      · exact hx
    · exact hplace
  · rename_i hx
    have hself : l.filter (· ≠ x) = l := by
      refine List.filter_eq_self.mpr fun y hy => decide_eq_true ?_
      rintro rfl
      exact hx hy
    rw [hself] at hplace
    exact hplace

end Index

/-! ## The folders -/

namespace Folder

/-- A sequence belongs to one file. -/
theorem sequence_injective (f : Folder) {x y : String} (hx : x ∈ f.files) (hy : y ∈ f.files)
    (h : f.sequence x = f.sequence y) : x = y := by
  obtain ⟨i, hi, rfl⟩ := List.mem_iff_getElem.mp hx
  obtain ⟨j, hj, rfl⟩ := List.mem_iff_getElem.mp hy
  have hordered := List.pairwise_iff_getElem.mp f.ordered
  rcases lt_trichotomy i j with hij | rfl | hji
  · exact absurd h (hordered i j hi hj hij).ne
  · rfl
  · exact absurd h (hordered j i hj hi hji).ne'

theorem mem_advance {f : Folder} {a x : String} : x ∈ (f.advance a).files ↔ x = a ∨ x ∈ f.files := by
  show x ∈ f.files.filter (· ≠ a) ++ [a] ↔ _
  rw [List.mem_append, List.mem_filter, decide_eq_true_eq, List.mem_singleton]
  by_cases heq : x = a <;> simp [heq]

/-- The sequences after an advance: the file has a new one, and the others keep theirs. -/
theorem sequence_advance {f : Folder} {a x : String} :
    (f.advance a).sequence x = if x = a then f.maxSequence + 1 else f.sequence x := by
  show Function.update f.sequence a _ x = _
  rw [Function.update_apply]

end Folder

/-! ## The condition and the invariant -/

namespace System

/-- **The condition on an event**: where the streamer looks at the files that wait, they are in the order of their
present sequences; a file it is told about has not been sent yet with its sequence; no change it has not been
told about comes before the file that is sent. The view of a folder that is streamed is not lost, what the peer
knows does not run ahead of what it was sent, and a folder that it gets again is known up to what it was sent. -/
def Fits (s : System) : Event → Prop
  | .advance _ _ => True
  | .onUpdate folder file => file ∈ (s.folders folder).files ∧ ∀ p ∈ s.streaming, p.1 = folder →
      InOrder (s.folders folder).sequence (p.2.filter (· ≠ file)) ∧
        ∀ seen ∈ s.seen folder, seen < (s.folders folder).sequence file
  | .refresh views => ∀ folder ∈ s.ids,
      (∀ p ∈ s.streaming, p.1 = folder → views folder ≠ .unknown) ∧
      ∀ m ∈ (views folder).remoteMax, (∀ seen ∈ s.seen folder, m ≤ seen) ∧
        (s.seen folder = none → m ≤ (s.folders folder).maxSequence ∧
          ∀ u ∈ s.yielded, u.folder = folder → u.sequence ≤ m)
  | .next _ => ∀ p ∈ s.waiting, InOrder (s.folders p.1).sequence (p.2.1 :: p.2.2) ∧
      ∀ d ∈ s.dirty, d.1 = p.1 → d.2 ∉ p.2.1 :: p.2.2 →
        (s.folders p.1).sequence p.2.1 < (s.folders p.1).sequence d.2

instance (s : System) : (e : Event) → Decidable (s.Fits e)
  | .advance .. => inferInstanceAs (Decidable True)
  | .onUpdate .. => inferInstanceAs (Decidable (_ ∧ ∀ p ∈ s.streaming, _ → _ ∧ ∀ seen ∈ s.seen _, _))
  | .refresh views => inferInstanceAs (Decidable (∀ folder ∈ s.ids, (∀ p ∈ s.streaming, _ → _) ∧
      ∀ m ∈ (views folder).remoteMax, (∀ seen ∈ s.seen folder, _) ∧ (_ → _ ∧ ∀ u ∈ s.yielded, _ → _)))
  | .next _ => inferInstanceAs (Decidable (∀ p ∈ s.waiting, _ ∧ ∀ d ∈ s.dirty, _ → _ → _))

/-- The state of a folder that is streamed to the peer. -/
structure Streams (s : System) (folder : String) (seen : Nat) : Prop where
  listed : folder ∈ s.ids
  bound : seen ≤ (s.folders folder).maxSequence
  sent : ∀ x ∈ (s.folders folder).files, s.initially folder < (s.folders folder).sequence x →
    (s.folders folder).sequence x ≤ seen → ∃ u ∈ s.yielded, u.folder = folder ∧ u.file = x ∧
      u.sequence = (s.folders folder).sequence x
  below : ∀ u ∈ s.yielded, u.folder = folder → u.sequence ≤ seen

/-- The files that wait: everything that has not been sent, unless the streamer does not know it yet. -/
structure Waits (s : System) (folder : String) (seen : Nat) (unseen : List String) : Prop where
  nodup : unseen.Nodup
  unsent : ∀ x ∈ unseen, x ∈ (s.folders folder).files ∧ seen < (s.folders folder).sequence x
  complete : ∀ x ∈ (s.folders folder).files, seen < (s.folders folder).sequence x →
    x ∈ unseen ∨ (folder, x) ∈ s.dirty

/-- **The invariant.** -/
structure Good (s : System) : Prop where
  streams : ∀ folder seen, s.seen folder = some seen → s.Streams folder seen
  waits : ∀ folder unseen, s.streaming = some (folder, unseen) →
    ∃ seen, s.seen folder = some seen ∧ s.Waits folder seen unseen
  increasing : s.yielded.Pairwise fun u v => u.folder = v.folder → u.sequence < v.sequence

theorem good_initial (ids : List String) (folders : String → Folder) : (initial ids folders).Good where
  streams folder seen h := by cases h
  waits folder unseen h := by cases h
  increasing := List.Pairwise.nil

/-! ## Steps -/

section Steps

variable {s s' : System} {folder file : String} {seen : Nat} {unseen : List String}

theorem mem_left {x : String} : x ∈ s.left folder seen ↔
    x ∈ (s.folders folder).files ∧ seen < (s.folders folder).sequence x := by
  rw [left, Folder.range, List.mem_filter, decide_eq_true_eq]
  constructor
  · rintro ⟨hx, hlt, -⟩
    exact ⟨hx, hlt⟩
  · rintro ⟨hx, hlt⟩
    exact ⟨hx, hlt, (s.folders folder).bounded x hx⟩

theorem inOrder_left (s : System) (folder : String) (seen : Nat) :
    InOrder (s.folders folder).sequence (s.left folder seen) :=
  (s.folders folder).ordered.sublist List.filter_sublist

theorem nodup_left : (s.left folder seen).Nodup := by
  refine List.Pairwise.imp (fun {a b} hab heq => ?_) (inOrder_left s folder seen)
  rw [heq] at hab
  exact lt_irrefl _ hab

/-- What is collected from the folder is all that has not been sent. -/
theorem waits_left (s : System) (folder : String) (seen : Nat) : s.Waits folder seen (s.left folder seen) where
  nodup := nodup_left
  unsent _ hx := mem_left.mp hx
  complete _ hx hlt := .inl (mem_left.mpr ⟨hx, hlt⟩)

/-- An advance diff: the new sequence is behind everything that has been sent. -/
theorem Good.advance (h : s.Good) : (s.advance folder file).Good := by
  have hfolder (f : String) : (s.advance folder file).folders f =
      if f = folder then (s.folders folder).advance file else s.folders f := by
    show Function.update s.folders folder _ f = _
    rw [Function.update_apply]
  refine ⟨?_, ?_, h.increasing⟩
  · intro f seen hseen
    obtain ⟨hlisted, hbound, hsent, hbelow⟩ := h.streams f seen hseen
    refine ⟨hlisted, ?_, ?_, hbelow⟩
    · rw [hfolder]
      split
      · rename_i heq
        rw [heq] at hbound
        exact hbound.trans (Nat.le_succ _)
      · exact hbound
    · rw [hfolder]
      split
      · rename_i heq
        subst heq
        intro x hx hinit hle
        rw [Folder.sequence_advance] at hinit hle ⊢
        split at hle
        · omega
        · rename_i hne
          rw [if_neg hne] at hinit ⊢
          exact hsent x ((Folder.mem_advance.mp hx).resolve_left hne) hinit hle
      · exact hsent
  · intro f unseen hstreaming
    obtain ⟨seen, hseen, hnodup, hunsent, hcomplete⟩ := h.waits f unseen hstreaming
    have hbound := (h.streams f seen hseen).bound
    refine ⟨seen, hseen, hnodup, ?_, ?_⟩
    · intro x hx
      obtain ⟨hmem, hlt⟩ := hunsent x hx
      rw [hfolder]
      split
      · rename_i heq
        subst heq
        refine ⟨Folder.mem_advance.mpr (.inr hmem), ?_⟩
        rw [Folder.sequence_advance]
        split
        · omega
        · exact hlt
      · exact ⟨hmem, hlt⟩
    · rw [hfolder]
      split
      · rename_i heq
        subst heq
        intro x hx hlt
        by_cases hxfile : x = file
        · exact .inr (hxfile ▸ List.mem_cons_self ..)
        · rw [Folder.sequence_advance, if_neg hxfile] at hlt
          refine (hcomplete x ((Folder.mem_advance.mp hx).resolve_left hxfile) hlt).imp id ?_
          exact List.mem_cons_of_mem _
      · intro x hx hlt
        exact (hcomplete x hx hlt).imp id (List.mem_cons_of_mem _)

/-- Telling the streamer of a change makes only what waits different. -/
theorem Good.setStreaming (h : s.Good) {dirty : List (String × String)} {streaming : Option (String × List String)}
    (hwaits : ∀ f unseen, streaming = some (f, unseen) → ∃ seen, s.seen f = some seen ∧
      Waits { s with dirty := dirty, streaming := streaming } f seen unseen) :
    Good { s with dirty := dirty, streaming := streaming } where
  streams f seen hseen := by
    obtain ⟨hlisted, hbound, hsent, hbelow⟩ := h.streams f seen hseen
    exact ⟨hlisted, hbound, hsent, hbelow⟩
  waits := hwaits
  increasing := h.increasing

/-- `on_update`: there is a place for the file. -/
theorem Good.onUpdate (h : s.Good) (hfits : s.Fits (.onUpdate folder file)) :
    ∃ s', s.onUpdate folder file = some s' ∧ s'.Good := by
  obtain ⟨hfile, hfits⟩ := hfits
  unfold System.onUpdate
  split
  · rename_i hstreaming
    split
    · refine ⟨_, rfl, h.setStreaming fun f unseen heq => ?_⟩
      rw [hstreaming] at heq
      cases heq
    · rename_i seen hseen
      refine ⟨_, rfl, h.setStreaming fun f unseen heq => ?_⟩
      cases heq
      obtain ⟨hnodup, hunsent, hcomplete⟩ := waits_left s folder seen
      exact ⟨seen, hseen, hnodup, hunsent, fun x hx hlt => .inl (mem_left.mpr ⟨hx, hlt⟩)⟩
  · rename_i streamed unseen hstreaming
    obtain ⟨seen, hseen, hnodup, hunsent, hcomplete⟩ := h.waits streamed unseen hstreaming
    split
    · rename_i heq
      subst heq
      obtain ⟨horder, hnew⟩ := hfits _ hstreaming rfl
      have hne : ∀ y ∈ unseen, y ≠ file → (s.folders streamed).sequence y ≠ (s.folders streamed).sequence file := by
        intro y hy hyne heq
        exact hyne ((s.folders streamed).sequence_injective (hunsent y hy).1 hfile heq)
      obtain ⟨unseen', hput, -, hnodup', hmem⟩ := put_spec hnodup horder hne
      rw [hput]
      refine ⟨_, rfl, h.setStreaming fun f unseen'' heq => ?_⟩
      cases heq
      refine ⟨seen, hseen, hnodup', fun x hx => ?_, fun x hx hlt => ?_⟩
      · rcases (hmem x).mp hx with hx | rfl
        · exact hunsent x hx
        · exact ⟨hfile, hnew seen hseen⟩
      · -- the file that the streamer knows now waits
        by_cases hxfile : x = file
        · exact .inl ((hmem x).mpr (.inr hxfile))
        · refine (hcomplete x hx hlt).imp (fun hx => (hmem x).mpr (.inl hx)) fun hdirty => ?_
          exact List.mem_filter.mpr ⟨hdirty, by simpa using hxfile⟩
    · rename_i hne
      refine ⟨_, rfl, h.setStreaming fun f unseen' heq => ?_⟩
      rw [hstreaming] at heq
      cases heq
      refine ⟨seen, hseen, hnodup, hunsent, fun x hx hlt => (hcomplete x hx hlt).imp id fun hdirty => ?_⟩
      refine List.mem_filter.mpr ⟨hdirty, ?_⟩
      simp [hne]

/-- A folder that the peer keeps: what has been seen does not change. -/
theorem refreshedSeen_of_some {views : String → View} (hfits : s.Fits (.refresh views)) (hlisted : folder ∈ s.ids)
    (hseen : s.seen folder = some seen) {m : Nat} (hview : (views folder).remoteMax = some m) :
    s.refreshedSeen views folder = some seen := by
  have hle : m ≤ seen := ((hfits folder hlisted).2 m hview).1 seen hseen
  rw [refreshedSeen, if_pos hlisted, hview, hseen]
  simpa using hle

/-- A folder in `seen_info` after a refresh. -/
theorem refreshedSeen_cases {views : String → View} (h : s.refreshedSeen views folder = some seen) :
    folder ∈ s.ids ∧ ∃ m, (views folder).remoteMax = some m ∧ seen = max m ((s.seen folder).getD 0) := by
  rw [refreshedSeen] at h
  split at h
  · rename_i hlisted
    obtain ⟨m, hview, hmax⟩ := Option.map_eq_some_iff.mp h
    exact ⟨hlisted, m, hview, hmax.symm⟩
  · cases h

/-- `refresh_remote`. -/
theorem Good.refresh (h : s.Good) {views : String → View} (hfits : s.Fits (.refresh views)) : (s.refresh views).Good := by
  refine ⟨?_, ?_, h.increasing⟩
  · intro f seen hseen
    obtain ⟨hlisted, m, hview, hmax⟩ := refreshedSeen_cases (show s.refreshedSeen views f = some seen from hseen)
    cases hprev : s.seen f with
    | some prev =>
      obtain rfl : prev = seen := Option.some_inj.mp ((refreshedSeen_of_some hfits hlisted hprev hview).symm.trans hseen)
      obtain ⟨-, hbound, hsent, hbelow⟩ := h.streams f prev hprev
      refine ⟨hlisted, hbound, fun x hx hinit hle => hsent x hx ?_ hle, hbelow⟩
      have hinitially : (s.refresh views).initially f = s.initially f := if_neg (by simp [hprev])
      rw [hinitially] at hinit
      exact hinit
    | none =>
      -- a folder that the peer gets now: it is streamed from what the peer has
      have hinitially : (s.refresh views).initially f = seen := by
        show (if s.seen f = none then (s.refreshedSeen views f).getD 0 else _) = seen
        rw [if_pos hprev, show s.refreshedSeen views f = some seen from hseen]
        rfl
      obtain rfl : seen = m := by simpa [hprev] using hmax
      obtain ⟨hbound, hbelow⟩ := ((hfits f hlisted).2 seen hview).2 hprev
      refine ⟨hlisted, hbound, fun x _ hinit hle => ?_, hbelow⟩
      rw [hinitially] at hinit
      exact absurd hle (not_le.mpr hinit)
  · intro f unseen hstreaming
    obtain ⟨hstreaming, hkept⟩ :=
      Option.filter_eq_some_iff.mp (show s.streaming.filter _ = some (f, unseen) from hstreaming)
    obtain ⟨seen, hseen, hnodup, hunsent, hcomplete⟩ := h.waits f unseen hstreaming
    obtain ⟨hlisted, hshared, hmatch⟩ := of_decide_eq_true hkept
    have hunknown : views f ≠ .unknown := (hfits f hlisted).1 _ hstreaming rfl
    have hview : ∃ m, (views f).remoteMax = some m := by
      cases hv : views f with
      | unshared => exact absurd hv hshared
      | unknown => exact absurd hv hunknown
      | mismatch => exact absurd hv hmatch
      | known m => exact ⟨m, rfl⟩
    obtain ⟨m, hview⟩ := hview
    exact ⟨seen, refreshedSeen_of_some hfits hlisted hseen hview, hnodup, hunsent, hcomplete⟩

/-- A file is sent before which nothing is left. -/
theorem Good.yield (h : s.Good) (hseen : s.seen folder = some seen) (hlt : seen < (s.folders folder).sequence file)
    (hfile : file ∈ (s.folders folder).files)
    (hfirst : ∀ x ∈ (s.folders folder).files, seen < (s.folders folder).sequence x →
      (s.folders folder).sequence x ≤ (s.folders folder).sequence file → x = file)
    {streaming : Option (String × List String)} (hwaits : ∀ f unseen, streaming = some (f, unseen) → f = folder ∧
      s.Waits folder ((s.folders folder).sequence file) unseen) : (s.yield folder file streaming).Good := by
  refine ⟨?_, ?_, ?_⟩
  · intro f seen' hseen'
    have hupdate : (if f = folder then some ((s.folders folder).sequence file) else s.seen f) = some seen' := by
      rw [← hseen']
      exact (Function.update_apply ..).symm
    split at hupdate
    · rename_i heq
      cases heq
      cases hupdate
      obtain ⟨hlisted, -, hsent, hbelow⟩ := h.streams folder seen hseen
      refine ⟨hlisted, (s.folders folder).bounded file hfile, fun x hx hinit hle => ?_, fun u hu heq => ?_⟩
      · by_cases hold : (s.folders folder).sequence x ≤ seen
        · obtain ⟨u, hu, hmatch⟩ := hsent x hx hinit hold
          exact ⟨u, List.mem_append_left _ hu, hmatch⟩
        · -- what has not been sent up to here is the file itself
          obtain rfl := hfirst x hx (not_le.mp hold) hle
          exact ⟨_, List.mem_append_right _ (List.mem_singleton_self _), rfl, rfl, rfl⟩
      · rcases List.mem_append.mp hu with hu | hu
        · exact (hbelow u hu heq).trans hlt.le
        · rw [List.mem_singleton.mp hu]
    · rename_i hne
      obtain ⟨hlisted, hbound, hsent, hbelow⟩ := h.streams f seen' hupdate
      refine ⟨hlisted, hbound, fun x hx hinit hle => ?_, fun u hu heq => ?_⟩
      · obtain ⟨u, hu, hmatch⟩ := hsent x hx hinit hle
        exact ⟨u, List.mem_append_left _ hu, hmatch⟩
      · rcases List.mem_append.mp hu with hu | hu
        · exact hbelow u hu heq
        · rw [List.mem_singleton.mp hu] at heq
          exact absurd heq.symm hne
  · intro f unseen hstreaming
    obtain ⟨rfl, hnodup, hunsent, hcomplete⟩ := hwaits f unseen hstreaming
    exact ⟨_, Function.update_self .., hnodup, hunsent, hcomplete⟩
  · refine List.pairwise_append.mpr ⟨h.increasing, List.pairwise_singleton _ _, fun u hu v hv heq => ?_⟩
    rw [List.mem_singleton.mp hv] at heq ⊢
    exact lt_of_le_of_lt ((h.streams folder seen hseen).below u hu heq) hlt

/-- The first of some files in order, all of them unsent: what is left behind it waits. -/
theorem Waits.tail {rest : List String} (h : s.Waits folder seen (file :: rest))
    (horder : InOrder (s.folders folder).sequence (file :: rest)) :
    s.Waits folder ((s.folders folder).sequence file) rest where
  nodup := (List.nodup_cons.mp h.nodup).2
  unsent x hx := ⟨(h.unsent x (List.mem_cons_of_mem _ hx)).1, (List.pairwise_cons.mp horder).1 x hx⟩
  complete x hx hlt := by
    have hseen : seen < (s.folders folder).sequence x := (h.unsent file (List.mem_cons_self ..)).2.trans hlt
    refine (h.complete x hx hseen).imp (fun hmem => ?_) id
    rcases List.mem_cons.mp hmem with rfl | hmem
    · exact absurd hlt (lt_irrefl _)
    · exact hmem

/-- Of files in order nothing comes before the first. -/
theorem eq_of_inOrder {key : String → Nat} {rest : List String} (horder : InOrder key (file :: rest)) {x : String}
    (hx : x ∈ file :: rest) (hle : key x ≤ key file) : x = file := by
  rcases List.mem_cons.mp hx with rfl | hx
  · rfl
  · exact absurd ((List.pairwise_cons.mp horder).1 x hx) (not_lt.mpr hle)

/-- `next`. -/
theorem Good.next (h : s.Good) {pick : Option String} (hfits : s.Fits (.next pick)) (hstep : s.next pick = some s') :
    s'.Good := by
  unfold System.next at hstep
  split at hstep
  · rename_i streamed first rest hwaiting
    cases hstep
    have hstreaming : s.streaming = some (streamed, first :: rest) := by
      unfold waiting at hwaiting
      split at hwaiting
      · cases hwaiting
        assumption
      · cases hwaiting
    obtain ⟨horder, hdirty⟩ := hfits _ hwaiting
    obtain ⟨seen, hseen, hwaits⟩ := h.waits streamed _ hstreaming
    obtain ⟨hfirst, hlt⟩ := hwaits.unsent first (List.mem_cons_self ..)
    refine h.yield hseen hlt hfirst (fun x hx hunsent hle => ?_) fun f unseen heq => ?_
    · by_cases hmem : x ∈ first :: rest
      · exact eq_of_inOrder horder hmem hle
      · have hx := (hwaits.complete x hx hunsent).resolve_left hmem
        exact absurd (hdirty _ hx rfl hmem) (not_lt.mpr hle)
    · cases heq
      exact ⟨rfl, hwaits.tail horder⟩
  · split at hstep
    · split at hstep
      · cases hstep
        exact h.setStreaming fun f unseen heq => by cases heq
      · cases hstep
    · rename_i folder
      split at hstep
      · cases hstep
      · rename_i seen hseen
        split at hstep
        · cases hstep
        · rename_i first rest hleft
          cases hstep
          have hwaits := waits_left s folder seen
          have horder := inOrder_left s folder seen
          rw [hleft] at hwaits horder
          obtain ⟨hfirst, hlt⟩ := hwaits.unsent first (List.mem_cons_self ..)
          refine h.yield hseen hlt hfirst (fun x hx hunsent hle => ?_) fun f unseen heq => ?_
          · refine eq_of_inOrder horder ?_ hle
            rw [← hleft]
            exact mem_left.mpr ⟨hx, hunsent⟩
          · split at heq
            · cases heq
            · cases heq
              exact ⟨rfl, hwaits.tail horder⟩

/-- **Each event keeps the invariant.** -/
theorem Good.step (h : s.Good) {e : Event} (hfits : s.Fits e) (hstep : s.step e = some s') : s'.Good := by
  cases e with
  | advance folder file =>
    cases hstep
    exact h.advance
  | onUpdate folder file =>
    obtain ⟨t, ht, hgood⟩ := h.onUpdate hfits
    cases ht.symm.trans hstep
    exact hgood
  | refresh views =>
    cases hstep
    exact h.refresh hfits
  | next pick => exact h.next hfits hstep

end Steps

/-! ## Runs -/

/-- When nothing is left, the folder has been sent up to its last sequence. -/
theorem Good.finished {s : System} (h : s.Good) (hexhausted : s.Exhausted) {folder : String} {seen : Nat}
    (hseen : s.seen folder = some seen) :
    (∀ x ∈ (s.folders folder).files, (s.folders folder).sequence x ≤ seen) ∧ seen = (s.folders folder).maxSequence := by
  obtain ⟨hlisted, hbound, -, -⟩ := h.streams folder seen hseen
  have hall : ∀ x ∈ (s.folders folder).files, (s.folders folder).sequence x ≤ seen := by
    intro x hx
    by_contra hlt
    have hmem : x ∈ s.left folder seen := mem_left.mpr ⟨hx, not_le.mp hlt⟩
    rw [hexhausted folder hlisted seen hseen] at hmem
    cases hmem
  refine ⟨hall, ?_⟩
  rcases (s.folders folder).attained with hzero | ⟨x, hx, hmax⟩
  · omega
  · exact le_antisymm hbound (hmax ▸ hall x hx)

/-- **What a peer is sent**, in every run whose events meet the condition: the sequences of a folder increase,
and when `next` finds nothing more, every file behind what the peer had at first has been sent with its present
sequence, and the folder is seen up to its last sequence. -/
theorem stream_of_run {ids : List String} {folders : String → Folder} {events : List Event} {s : System}
    (hmeets : Run.Meets step Fits (initial ids folders) events)
    (hrun : Run.exec step (initial ids folders) events = some s) :
    (s.yielded.Pairwise fun u v => u.folder = v.folder → u.sequence < v.sequence) ∧
    ∀ s', s.waiting = none → s.next none = some s' → ∀ folder seen, s.seen folder = some seen →
      (∀ x ∈ (s.folders folder).files, s.initially folder < (s.folders folder).sequence x →
        ∃ u ∈ s.yielded, u.folder = folder ∧ u.file = x ∧ u.sequence = (s.folders folder).sequence x) ∧
      seen = (s.folders folder).maxSequence := by
  have hgood : s.Good := Run.exec_inv (fun _ _ _ h hfits hstep => h.step hfits hstep) (good_initial ids folders) hmeets hrun
  refine ⟨hgood.increasing, fun s' hwaiting hnext folder seen hseen => ?_⟩
  have hexhausted : s.Exhausted := by
    unfold System.next at hnext
    rw [hwaiting] at hnext
    by_contra hleft
    rw [if_neg hleft] at hnext
    cases hnext
  obtain ⟨hall, hmax⟩ := hgood.finished hexhausted hseen
  exact ⟨fun x hx hinit => (hgood.streams folder seen hseen).sent x hx hinit (hall x hx), hmax⟩

/-- A folder of four files. -/
def sampleFolder : Folder where
  files := ["z", "a", "b", "c"]
  sequence x := if x = "z" then 1 else if x = "a" then 2 else if x = "b" then 3 else if x = "c" then 4 else 0
  maxSequence := 4
  ordered := by decide
  bounded := by decide
  attained := by decide

/-- The peer has nothing yet. Two files change while they wait, and the streamer is told of each before the
next one changes. -/
def toldAtOnce : List Event :=
  [.refresh fun _ => .known 0, .next (some "f"), .advance "f" "a", .onUpdate "f" "a", .advance "f" "b",
    .onUpdate "f" "b", .next none, .next none, .next none]

theorem stream_of_run_toldAtOnce : ∃ s, Run.exec step (initial ["f"] fun _ => sampleFolder) toldAtOnce = some s ∧
    s.yielded.map (·.sequence) = [1, 4, 5, 6] ∧ s.seen "f" = some 6 ∧
      s.yielded.Pairwise fun u v => u.folder = v.folder → u.sequence < v.sequence := by
  have hmeets : Run.Meets step Fits (initial ["f"] fun _ => sampleFolder) toldAtOnce := by decide +kernel
  have hsome : (Run.exec step (initial ["f"] fun _ => sampleFolder) toldAtOnce).map
      (fun s => (s.yielded.map (·.sequence), s.seen "f")) = some ([1, 4, 5, 6], some 6) := by decide +kernel
  obtain ⟨s, hs, hview⟩ := Option.map_eq_some_iff.mp hsome
  obtain ⟨hyielded, hseen⟩ := Prod.ext_iff.mp hview
  exact ⟨s, hs, hyielded, hseen, (stream_of_run hmeets hs).1⟩

/-- Both files change in one update of the model, and the streamer is told afterwards: the first fits between
its neighbours, as the second has its new sequence already, and the third one is sent behind it. -/
def toldLate : List Event :=
  [.refresh fun _ => .known 0, .next (some "f"), .advance "f" "a", .advance "f" "b", .onUpdate "f" "a",
    .onUpdate "f" "b", .next none, .next none, .next none]

theorem sequence_goes_back : ∃ s, Run.exec step (initial ["f"] fun _ => sampleFolder) toldLate = some s ∧
    s.yielded.map (·.sequence) = [1, 5, 4, 6] ∧
      ¬ s.yielded.Pairwise fun u v => u.folder = v.folder → u.sequence < v.sequence := by
  have hsome : (Run.exec step (initial ["f"] fun _ => sampleFolder) toldLate).map
      (fun s => (s.yielded.map (·.sequence), s.yielded.map (·.folder))) = some ([1, 5, 4, 6], ["f", "f", "f", "f"]) := by
    decide +kernel
  obtain ⟨s, hs, hview⟩ := Option.map_eq_some_iff.mp hsome
  obtain ⟨hsequences, hfolders⟩ := Prod.ext_iff.mp hview
  refine ⟨s, hs, hsequences, fun hincreasing => ?_⟩
  have hpairs : (s.yielded.map (·.sequence)).Pairwise (· < ·) := by
    refine List.pairwise_map.mpr (hincreasing.imp_of_mem fun {u v} hu hv huv => huv ?_)
    have hfolder : ∀ w ∈ s.yielded, w.folder = "f" := by
      intro w hw
      have hmem : w.folder ∈ s.yielded.map (·.folder) := List.mem_map_of_mem hw
      rw [show s.yielded.map (·.folder) = _ from hfolders] at hmem
      simpa using hmem
    rw [hfolder u hu, hfolder v hv]
  rw [show s.yielded.map (·.sequence) = _ from hsequences] at hpairs
  exact absurd hpairs (by decide)

end System

end Streaming

end SyncSpirit
