import SyncSpirit.FileIteratorSpec

/-!
# Files that `next` takes out

`next` looks at the folders in turn, from the one it has found a file in before. It takes out
a beginning of each queue it looks into, and of what it takes out it returns the first file
that is neither locked nor to be ignored (`next_spec`). If it returns nothing, all queues it
may look into are empty (`drained`).

So a file in such a queue is returned sooner or later, if it is neither locked nor to be
ignored (`polled_of_queued`).
-/

namespace SyncSpirit

namespace FolderIterator

/-! ## One queue -/

/-- A beginning of the queue has been taken out. -/
structure Taken (w : Scene) (found : Option FileId) (it it' : FolderIterator) : Prop where
  eq : it' = { it with queue := it'.queue }
  queue : ∃ popped, it.queue = popped ++ it'.queue ∧
    ∀ f ∈ popped, w.isLocked f = true ∨ w.wanted it.peerFolder f = false ∨ found = some f

namespace Taken

variable {w : Scene} {found : Option FileId} {it it' it'' : FolderIterator}

theorem refl (w : Scene) (found : Option FileId) (it : FolderIterator) : Taken w found it it :=
  ⟨rfl, [], rfl, fun _ hf => absurd hf List.not_mem_nil⟩

theorem peerFolder (h : Taken w found it it') : it'.peerFolder = it.peerFolder := by rw [h.eq]

/-- Nothing has been found the first time. -/
theorem trans (h : Taken w none it it') (h' : Taken w found it' it'') : Taken w found it it'' := by
  obtain ⟨popped, hqueue, hpopped⟩ := h.queue
  obtain ⟨popped', hqueue', hpopped'⟩ := h'.queue
  refine ⟨?_, popped ++ popped', by rw [hqueue, hqueue', List.append_assoc], fun f hf => ?_⟩
  · rw [h'.eq, h.eq]
  · rcases List.mem_append.mp hf with hf | hf
    · rcases hpopped f hf with hlocked | hignored | hnone
      · exact .inl hlocked
      · exact .inr (.inl hignored)
      · cases hnone
    · rw [← h.peerFolder]
      exact hpopped' f hf

theorem suffix (h : Taken w found it it') : it'.queue <:+ it.queue := by
  obtain ⟨popped, hqueue, -⟩ := h.queue
  exact ⟨popped, hqueue.symm⟩

/-- What stays in the queue. -/
theorem mem (h : Taken w found it it') {f : FileId} (hf : f ∈ it.queue) (hlocked : w.isLocked f = false)
    (hwanted : w.wanted it.peerFolder f = true) (hfound : found ≠ some f) : f ∈ it'.queue := by
  obtain ⟨popped, hqueue, hpopped⟩ := h.queue
  rw [hqueue] at hf
  rcases List.mem_append.mp hf with hf | hf
  · rcases hpopped f hf with hlocked' | hignored | hfound'
    · rw [hlocked] at hlocked'
      cases hlocked'
    · rw [hwanted] at hignored
      cases hignored
    · exact absurd hfound' hfound
  · exact hf

/-- A queue is not looked into again because something has been taken out. -/
theorem not_scannable (h : Taken w found it it') (hit : it.scannable w = false) : it'.scannable w = false := by
  by_cases hnil : it'.queue = []
  · simp [scannable, hnil]
  · have hne : it.queue ≠ [] := by
      intro hnil'
      have hsuffix := h.suffix
      rw [hnil'] at hsuffix
      exact hnil (List.suffix_nil.mp hsuffix)
    have hempty : it'.queue.isEmpty = it.queue.isEmpty := by
      rw [Bool.eq_iff_iff, List.isEmpty_iff, List.isEmpty_iff]
      exact ⟨fun heq => absurd heq hnil, fun heq => absurd heq hne⟩
    rw [← hit]
    unfold scannable
    rw [h.peerFolder, hempty]

end Taken

/-- **The loop over a queue** ends with the first file that is to be returned. -/
theorem scan_spec {w : Scene} {fi : FolderInfoId} {queue queue' : List FileId} {found : Option Found}
    (h : scan w fi queue = (found, queue')) :
    ∃ popped, (∀ f ∈ popped, w.isLocked f = true ∨ w.wanted fi f = false) ∧
      match found with
      | none => queue = popped ∧ queue' = []
      | some found => queue = popped ++ found.peerFile :: queue' ∧ found.peerFolder = fi ∧
        w.isLocked found.peerFile = false ∧ w.wanted fi found.peerFile = true := by
  induction queue with
  | nil =>
    cases h
    exact ⟨[], fun _ hf => absurd hf List.not_mem_nil, rfl, rfl⟩
  | cons f queue ih =>
    -- a file that is dropped
    have hdrop : (w.isLocked f = true ∨ w.wanted fi f = false) → scan w fi queue = (found, queue') →
        ∃ popped, (∀ g ∈ popped, w.isLocked g = true ∨ w.wanted fi g = false) ∧
          match found with
          | none => f :: queue = popped ∧ queue' = []
          | some found => f :: queue = popped ++ found.peerFile :: queue' ∧ found.peerFolder = fi ∧
            w.isLocked found.peerFile = false ∧ w.wanted fi found.peerFile = true := by
      intro hf hrest
      obtain ⟨popped, hpopped, hfound⟩ := ih hrest
      refine ⟨f :: popped, List.forall_mem_cons.mpr ⟨hf, hpopped⟩, ?_⟩
      cases found with
      | none => exact ⟨congrArg _ hfound.1, hfound.2⟩
      | some found => exact ⟨congrArg _ hfound.1, hfound.2⟩
    unfold scan at h
    split at h
    · rename_i hlocked
      exact hdrop (.inl hlocked) h
    · rename_i hlocked
      split at h
      · rename_i hignored
        exact hdrop (.inr (by simp [Scene.wanted, hignored])) h
      · rename_i hwanted
        cases h
        exact ⟨[], fun _ hg => absurd hg List.not_mem_nil, rfl, rfl, by simpa using hlocked,
          by simpa [Scene.wanted] using hwanted⟩

end FolderIterator

namespace FileIterator

open FolderIterator

/-! ## All folders -/

/-- The files in all queues. -/
def size (x : FileIterator) : Nat := (x.entries.map fun it => it.queue.length).sum

/-- The file has been taken out of one of the queues. -/
structure TakenFrom (w : Scene) (x : FileIterator) (found : Found) (x' : FileIterator) (i : Nat)
    (it it' : FolderIterator) : Prop where
  old : x.entries[i]? = some it
  new : x'.entries[i]? = some it'
  queue : ∃ popped, it.queue = popped ++ found.peerFile :: it'.queue
  peerFolder : found.peerFolder = it.peerFolder
  unlocked : w.isLocked found.peerFile = false
  wanted : w.wanted it.peerFolder found.peerFile = true

/-- The index of the current folder is one of a folder, unless there is none. -/
def InRange (x : FileIterator) : Prop := x.folderIndex < x.entries.length ∨ x.folderIndex = 0

theorem InRange.lt {x : FileIterator} (h : x.InRange) {it : FolderIterator} (hit : it ∈ x.entries) :
    x.folderIndex < x.entries.length := by
  have hpos := List.length_pos_of_mem hit
  rcases h with hlt | hzero
  · exact hlt
  · omega

/-- One more folder. -/
theorem InRange.append {x : FileIterator} (h : x.InRange) (it : FolderIterator) :
    InRange { x with entries := x.entries ++ [it] } := by
  refine .inl ?_
  show x.folderIndex < (x.entries ++ [it]).length
  rw [List.length_append, List.length_singleton]
  rcases h with hlt | hzero
  · exact Nat.lt_succ_of_lt hlt
  · rw [hzero]
    exact Nat.succ_pos _

/-- The iterator after `next`. -/
structure Next (w : Scene) (x : FileIterator) (found : Option Found) (x' : FileIterator) : Prop where
  length : x'.entries.length = x.entries.length
  entries : ∀ (i : Nat) (it : FolderIterator), x.entries[i]? = some it →
    ∃ it', x'.entries[i]? = some it' ∧ Taken w (found.map Found.peerFile) it it'
  inRange : x.InRange → x'.InRange
  found : ∀ f, found = some f → ∃ i it it', TakenFrom w x f x' i it it'

namespace Next

variable {w : Scene} {x x' x'' : FileIterator} {found : Option Found}

theorem refl (w : Scene) (x : FileIterator) : Next w x none x where
  length := rfl
  entries _ it hit := ⟨it, hit, Taken.refl w _ it⟩
  inRange h := h
  found _ h := by cases h

/-- Nothing has been found in the folders before. -/
theorem trans (h : Next w x none x') (h' : Next w x' found x'') : Next w x found x'' where
  length := h'.length.trans h.length
  entries i it hit := by
    obtain ⟨it', hit', htaken⟩ := h.entries i it hit
    obtain ⟨it'', hit'', htaken'⟩ := h'.entries i it' hit'
    exact ⟨it'', hit'', htaken.trans htaken'⟩
  inRange hindex := h'.inRange (h.inRange hindex)
  found f hf := by
    obtain ⟨i, it', it'', htaken⟩ := h'.found f hf
    -- the queue the file comes from may have lost others before
    have hlt : i < x.entries.length := by
      rw [← h.length]
      exact (List.getElem?_eq_some_iff.mp htaken.old).1
    obtain ⟨it₁, hit₁, hfirst⟩ := h.entries i _ (List.getElem?_eq_getElem hlt)
    rw [htaken.old] at hit₁
    cases hit₁
    obtain ⟨popped, hpopped⟩ := htaken.queue
    obtain ⟨popped', hpopped'⟩ := hfirst.suffix
    refine ⟨i, _, it'', List.getElem?_eq_getElem hlt, htaken.new, ⟨popped' ++ popped, ?_⟩, ?_, htaken.unlocked, ?_⟩
    · rw [← hpopped', hpopped, List.append_assoc]
    · rw [htaken.peerFolder, hfirst.peerFolder]
    · rw [← hfirst.peerFolder]
      exact htaken.wanted

/-- Entries before and after. -/
theorem exists_old (h : Next w x found x') {it' : FolderIterator} (hit' : it' ∈ x'.entries) :
    ∃ it ∈ x.entries, Taken w (found.map Found.peerFile) it it' := by
  obtain ⟨i, hlt, rfl⟩ := List.mem_iff_getElem.mp hit'
  have hlt' : i < x.entries.length := h.length ▸ hlt
  obtain ⟨it₁, hit₁, htaken⟩ := h.entries i _ (List.getElem?_eq_getElem hlt')
  rw [List.getElem?_eq_getElem hlt] at hit₁
  cases hit₁
  exact ⟨_, List.getElem_mem hlt', htaken⟩

theorem exists_new (h : Next w x found x') {it : FolderIterator} (hit : it ∈ x.entries) :
    ∃ it' ∈ x'.entries, Taken w (found.map Found.peerFile) it it' := by
  obtain ⟨i, hlt, rfl⟩ := List.mem_iff_getElem.mp hit
  obtain ⟨it', hit', htaken⟩ := h.entries i _ (List.getElem?_eq_getElem hlt)
  exact ⟨it', List.mem_of_getElem? hit', htaken⟩

end Next

/-- The folder that is looked at. -/
theorem next_of_entry {w : Scene} {x : FileIterator} {it : FolderIterator} {found : Option Found}
    {queue : List FileId} (hit : x.entries[x.folderIndex]? = some it)
    (h : (if it.scannable w then scan w it.peerFolder it.queue else (none, it.queue)) = (found, queue)) :
    Next w x found { x with entries := x.entries.set x.folderIndex { it with queue := queue } } ∧
      (found = none → scannable w { it with queue := queue } = false) := by
  obtain ⟨hlt, hget⟩ := List.getElem?_eq_some_iff.mp hit
  have hset : ∀ (i : Nat) (it₁ : FolderIterator), x.entries[i]? = some it₁ →
      (i = x.folderIndex ∧ it₁ = it ∧
        (x.entries.set x.folderIndex { it with queue := queue })[i]? = some { it with queue := queue }) ∨
      (x.entries.set x.folderIndex { it with queue := queue })[i]? = some it₁ := by
    intro i it₁ hit₁
    by_cases hi : i = x.folderIndex
    · subst hi
      rw [hit] at hit₁
      cases hit₁
      exact .inl ⟨rfl, rfl, by simp [hlt]⟩
    · exact .inr (by rw [List.getElem?_set_ne (Ne.symm hi), hit₁])
  have hentries : Taken w (found.map Found.peerFile) it { it with queue := queue } →
      (∀ f, found = some f → ∃ popped, it.queue = popped ++ f.peerFile :: queue ∧ f.peerFolder = it.peerFolder ∧
        w.isLocked f.peerFile = false ∧ w.wanted it.peerFolder f.peerFile = true) →
      Next w x found { x with entries := x.entries.set x.folderIndex { it with queue := queue } } := by
    intro htaken hfound
    refine ⟨List.length_set, fun i it₁ hit₁ => ?_, fun hindex => ?_, fun f hf => ?_⟩
    · rcases hset i it₁ hit₁ with ⟨-, rfl, hnew⟩ | hsame
      · exact ⟨_, hnew, htaken⟩
      · exact ⟨it₁, hsame, Taken.refl w _ it₁⟩
    · simpa [InRange] using hindex
    · obtain ⟨popped, hqueue, hfolder, hlocked, hwanted⟩ := hfound f hf
      exact ⟨x.folderIndex, it, { it with queue := queue }, hit, by simp [hlt], ⟨popped, hqueue⟩, hfolder,
        hlocked, hwanted⟩
  split at h
  · obtain ⟨popped, hpopped, hfound⟩ := scan_spec h
    cases found with
    | none =>
      obtain ⟨hqueue, rfl⟩ := hfound
      refine ⟨hentries ⟨rfl, popped, by simpa using hqueue, fun f hf => ?_⟩ fun f hf => (by cases hf), fun _ => ?_⟩
      · exact (hpopped f hf).imp_right .inl
      · simp [scannable]
    | some found =>
      obtain ⟨hqueue, hfolder, hlocked, hwanted⟩ := hfound
      refine ⟨hentries ⟨rfl, popped ++ [found.peerFile], by simpa using hqueue, fun f hf => ?_⟩ fun f hf => ?_,
        fun hnone => by cases hnone⟩
      · rcases List.mem_append.mp hf with hf | hf
        · exact (hpopped f hf).imp_right .inl
        · rw [List.mem_singleton.mp hf]
          exact .inr (.inr rfl)
      · cases hf
        exact ⟨popped, hqueue, hfolder, hlocked, hwanted⟩
  · rename_i hscan
    cases h
    exact ⟨hentries (Taken.refl w _ it) fun f hf => (by cases hf), fun _ => by simpa using hscan⟩

/-- The loop over the folders. The folders it has looked at without finding a file have nothing
left that could be taken. -/
theorem nextFrom_spec {w : Scene} {n : Nat} : ∀ {x x' : FileIterator} {found : Option Found},
    nextFrom w n x = (found, x') → Next w x found x' ∧
      (found = none → x.folderIndex < x.entries.length → ∀ k < n, ∀ it',
        x'.entries[(x.folderIndex + k) % x.entries.length]? = some it' → it'.scannable w = false) := by
  induction n with
  | zero =>
    rintro x x' found ⟨⟩
    exact ⟨Next.refl w x, fun _ _ k hk => absurd hk (Nat.not_lt_zero k)⟩
  | succ n ih =>
    intro x x' found h
    unfold nextFrom at h
    split at h
    · rename_i hnone
      cases h
      refine ⟨Next.refl w x, fun _ hlt => ?_⟩
      rw [List.getElem?_eq_getElem hlt] at hnone
      cases hnone
    · rename_i it hit
      rcases hentry : (if it.scannable w then scan w it.peerFolder it.queue else (none, it.queue)) with ⟨r, queue⟩
      obtain ⟨hnext, hscan⟩ := next_of_entry hit hentry
      rw [hentry] at h
      cases r with
      | some r =>
        cases h
        exact ⟨hnext, fun hnone => by cases hnone⟩
      | none =>
        -- nothing has been found: the next folder
        obtain ⟨hrest, hdrained⟩ := ih h
        have hlength : (x.entries.set x.folderIndex { it with queue := queue }).length = x.entries.length :=
          List.length_set
        have hpos : 0 < x.entries.length := Nat.zero_lt_of_lt (List.getElem?_eq_some_iff.mp hit).1
        have hstep : Next w x none { x with
            entries := x.entries.set x.folderIndex { it with queue := queue }
            folderIndex := (x.folderIndex + 1) % (x.entries.set x.folderIndex { it with queue := queue }).length } :=
          ⟨hnext.length, hnext.entries, fun _ => .inl (Nat.mod_lt _ (by rw [hlength]; exact hpos)),
            fun f hf => by cases hf⟩
        refine ⟨hstep.trans hrest, fun hnone hlt k hk it' hit' => ?_⟩
        have hmod : (x.folderIndex + 1) % (x.entries.set x.folderIndex { it with queue := queue }).length <
            (x.entries.set x.folderIndex { it with queue := queue }).length :=
          Nat.mod_lt _ (by rw [hlength]; exact hpos)
        cases k with
        | zero =>
          rw [Nat.add_zero, Nat.mod_eq_of_lt hlt] at hit'
          have hset : (x.entries.set x.folderIndex { it with queue := queue })[x.folderIndex]? =
              some { it with queue := queue } := by simp [hlt]
          obtain ⟨it₁, hit₁, htaken⟩ := hrest.entries x.folderIndex _ hset
          rw [hit'] at hit₁
          cases hit₁
          exact htaken.not_scannable (hscan rfl)
        | succ k =>
          refine hdrained hnone hmod k (Nat.lt_of_succ_lt_succ hk) it' ?_
          show x'.entries[((x.folderIndex + 1) % (x.entries.set x.folderIndex _).length + k) %
            (x.entries.set x.folderIndex _).length]? = some it'
          rw [hlength, Nat.mod_add_mod, Nat.add_right_comm]
          exact hit'

theorem next_spec {w : Scene} {x x' : FileIterator} {found : Option Found} (h : x.next w = (found, x')) :
    Next w x found x' := (nextFrom_spec h).1

/-- **Nothing left**: when `next` returns nothing, no queue is left that it would look into. -/
theorem drained {w : Scene} {x x' : FileIterator} (hindex : x.folderIndex < x.entries.length)
    (h : x.next w = (none, x')) {it : FolderIterator} (hit : it ∈ x'.entries) : it.scannable w = false := by
  obtain ⟨hnext, hdrained⟩ := nextFrom_spec h
  obtain ⟨j, hj, rfl⟩ := List.mem_iff_getElem.mp hit
  rw [hnext.length] at hj
  -- all folders have been looked at
  obtain ⟨k, hk, hkj⟩ : ∃ k < x.entries.length, (x.folderIndex + k) % x.entries.length = j := by
    by_cases hle : x.folderIndex ≤ j
    · exact ⟨j - x.folderIndex, by omega, by rw [Nat.add_sub_cancel' hle, Nat.mod_eq_of_lt hj]⟩
    · refine ⟨j + x.entries.length - x.folderIndex, by omega, ?_⟩
      rw [Nat.add_sub_cancel' (by omega), Nat.add_mod_right, Nat.mod_eq_of_lt hj]
  refine hdrained rfl hindex k hk _ ?_
  rw [hkj]
  exact List.getElem?_eq_getElem _

/-! ## One call after another -/

/-- The files that `next` returns, for at most `n` calls. -/
def poll (w : Scene) : Nat → FileIterator → List FileId
  | 0, _ => []
  | n + 1, x =>
    match x.next w with
    | (some found, x) => found.peerFile :: poll w n x
    | (none, _) => []

/-- A file that has been found is in no queue any more. -/
theorem Next.size_lt {w : Scene} {x x' : FileIterator} {found : Found} (h : Next w x (some found) x') :
    x'.size < x.size := by
  obtain ⟨i, it, it', htaken⟩ := h.found found rfl
  have hle : ∀ (l l' : List FolderIterator), l'.length = l.length →
      (∀ (j : Nat) (a b : FolderIterator), l[j]? = some a → l'[j]? = some b → b.queue.length ≤ a.queue.length) →
      (l'.map fun it => it.queue.length).sum ≤ (l.map fun it => it.queue.length).sum ∧
      ∀ (j : Nat) (a b : FolderIterator), l[j]? = some a → l'[j]? = some b → b.queue.length < a.queue.length →
        (l'.map fun it => it.queue.length).sum < (l.map fun it => it.queue.length).sum := by
    intro l
    induction l with
    | nil =>
      intro l' hlength _
      rw [List.length_eq_zero_iff.mp hlength]
      exact ⟨Nat.le_refl _, fun j a b ha => by simp at ha⟩
    | cons a l ih =>
      intro l' hlength hpoint
      obtain ⟨b, l', rfl⟩ : ∃ b rest, l' = b :: rest := List.exists_cons_of_length_pos (by rw [hlength]; simp)
      have hhead : b.queue.length ≤ a.queue.length := hpoint 0 a b rfl rfl
      obtain ⟨hsum, hstrict⟩ := ih l' (by simpa using hlength) fun j c d hc hd => hpoint (j + 1) c d hc hd
      simp only [List.map_cons, List.sum_cons]
      refine ⟨by omega, fun j c d hc hd hlt => ?_⟩
      cases j with
      | zero =>
        cases hc
        cases hd
        omega
      | succ j =>
        have := hstrict j c d hc hd hlt
        omega
  refine (hle x.entries x'.entries h.length fun j a b ha hb => ?_).2 i it it' htaken.old htaken.new ?_
  · obtain ⟨b', hb', htaken'⟩ := h.entries j a ha
    rw [hb] at hb'
    cases hb'
    exact htaken'.suffix.length_le
  · obtain ⟨popped, hqueue⟩ := htaken.queue
    rw [hqueue]
    simp
    omega

/-- The options of the folder and the peer's view let `next` look into the folder. -/
def Open (w : Scene) (fi : FolderInfoId) : Prop :=
  let folder := w.folders (w.folderOf fi)
  folder.paused = false ∧ folder.scheduled = false ∧ folder.suspended = false ∧
    ∃ maxSequence ∈ w.view (w.folderOf fi), maxSequence ≤ (w.store.infos fi).maxSequence

theorem scannable_of_open {w : Scene} {it : FolderIterator} (h : Open w it.peerFolder) {f : FileId}
    (hf : f ∈ it.queue) : it.scannable w = true := by
  obtain ⟨hpaused, hscheduled, hsuspended, maxSequence, hview, hle⟩ := h
  have hne : it.queue.isEmpty = false := by
    rw [List.isEmpty_eq_false_iff]
    exact List.ne_nil_of_mem hf
  simp [scannable, hpaused, hscheduled, hsuspended, hne, Option.mem_def.mp hview, hle]

/-- **A file in a queue is returned**, if it is neither locked nor to be ignored: every call takes
another file out. -/
theorem polled_of_queued {w : Scene} {f : FileId} (hlocked : w.isLocked f = false) {fi : FolderInfoId}
    (hwanted : w.wanted fi f = true) (hopen : Open w fi) :
    ∀ (n : Nat) (x : FileIterator), x.size ≤ n → x.InRange →
      ∀ it ∈ x.entries, it.peerFolder = fi → f ∈ it.queue → f ∈ poll w (n + 1) x := by
  intro n
  induction n with
  | zero =>
    intro x hsize _ it hit _ hf
    have hzero := List.sum_eq_zero_iff.mp (Nat.le_zero.mp hsize) it.queue.length (List.mem_map_of_mem hit)
    rw [List.length_eq_zero_iff.mp hzero] at hf
    cases hf
  | succ n ih =>
    rintro x hsize hindex it hit rfl hf
    unfold poll
    rcases hnext : x.next w with ⟨found, x'⟩
    have hspec := next_spec hnext
    obtain ⟨it', hit', htaken⟩ := hspec.exists_new hit
    cases found with
    | none =>
      have hmem := htaken.mem hf hlocked hwanted (by simp)
      have hopen' : Open w it'.peerFolder := by
        rw [htaken.peerFolder]
        exact hopen
      have hscan := scannable_of_open hopen' hmem
      rw [drained (hindex.lt hit) hnext hit'] at hscan
      cases hscan
    | some found =>
      show f ∈ found.peerFile :: poll w (n + 1) x'
      by_cases hfound : found.peerFile = f
      · rw [hfound]
        exact List.mem_cons_self ..
      · refine List.mem_cons_of_mem _ (ih x' ?_ (hspec.inRange hindex) it' hit' htaken.peerFolder
          (htaken.mem hf hlocked hwanted (by simpa using hfound)))
        have := hspec.size_lt
        omega

end FileIterator

end SyncSpirit
