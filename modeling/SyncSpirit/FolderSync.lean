import SyncSpirit.Lib.Run
import SyncSpirit.Lib.Tally

/-!
# How many controllers synchronize a folder (`net/controller_actor.cpp`, `model/folder.cpp`)

A controller keeps for each folder the blocks that it fetches. It tells the coordinator when the first fetch of a
folder starts and when the last one ends, and the folder counts the controllers that have told the one and not yet the
other. When a controller goes down it tells the end of what is still being fetched, but not for a suspended folder.

- `FolderSynchronization.startFetching_spec`, `finishFetching_spec`, `destroy_spec`: what a record sends;
- `Tidy.put`, `Tidy.shutdown_total`: what a controller has sent for a folder alternates;
- `Sound.step`: the count of a folder against what the controllers have sent;
- `returns_of_run`: the whole run.
-/

namespace SyncSpirit

namespace FolderSync

open Run Tally

/-! ## What a controller tells the coordinator -/

/-- `synchronization_start_t` and `synchronization_finish_t`. -/
inductive Diff
  | synchronizationStart
  | synchronizationFinish
  deriving DecidableEq

namespace Diff

/-- What the diff adds to the count of the folder. -/
def delta : Diff → Int
  | synchronizationStart => 1
  | synchronizationFinish => -1

def other : Diff → Diff
  | synchronizationStart => synchronizationFinish
  | synchronizationFinish => synchronizationStart

@[simp] theorem delta_other (d : Diff) : d.other.delta = -d.delta := by cases d <;> rfl

@[simp] theorem other_other (d : Diff) : d.other.other = d := by cases d <;> rfl

end Diff

/-- The diffs alternate, and the first of them is the given one. -/
def Alternates : Diff → List Diff → Prop
  | _, [] => True
  | d, x :: l => x = d ∧ Alternates d.other l

namespace Alternates

variable {d : Diff} {l : List Diff}

/-- Diffs that alternate add up to nothing or to the first of them. -/
theorem total_cases (h : Alternates d l) : total Diff.delta l = 0 ∨ total Diff.delta l = d.delta := by
  induction l generalizing d with
  | nil => exact .inl rfl
  | cons x l ih =>
    obtain ⟨rfl, hrest⟩ := h
    rw [total_cons]
    rcases ih hrest with htotal | htotal
    · exact .inr (by omega)
    · rw [Diff.delta_other] at htotal
      exact .inl (by omega)

theorem take (h : Alternates d l) (n : Nat) : Alternates d (l.take n) := by
  induction l generalizing d n with
  | nil => simpa using h
  | cons x l ih =>
    cases n with
    | zero => exact trivial
    | succ n => exact ⟨h.1, ih h.2 n⟩

theorem total_nonneg (h : Alternates .synchronizationStart l) : 0 ≤ total Diff.delta l := by
  rcases h.total_cases with htotal | htotal
  · exact htotal.ge
  · rw [htotal]
    decide

/-- What adds up to nothing goes on with the first diff, everything else with the other one. -/
theorem snoc {x : Diff} (h : Alternates d l)
    (hx : total Diff.delta l = 0 ∧ x = d ∨ total Diff.delta l = d.delta ∧ x = d.other) : Alternates d (l ++ [x]) := by
  induction l generalizing d with
  | nil =>
    refine ⟨?_, trivial⟩
    rcases hx with ⟨-, hx⟩ | ⟨hzero, -⟩
    · exact hx
    · cases d <;> cases hzero
  | cons y l ih =>
    obtain ⟨rfl, hrest⟩ := h
    refine ⟨rfl, ih hrest ?_⟩
    rw [total_cons] at hx
    rw [Diff.other_other, Diff.delta_other]
    rcases hx with ⟨htotal, rfl⟩ | ⟨htotal, rfl⟩
    · exact .inr ⟨by omega, rfl⟩
    · exact .inl ⟨by omega, rfl⟩

end Alternates

/-! ## `folder_synchronization_t` -/

/-- `folder_synchronization_t`: the guards of the blocks with their counters. -/
structure FolderSynchronization (Hash : Type) where
  blocks : AList fun _ : Hash => Nat
  synchronizing : Bool

namespace FolderSynchronization

variable {Hash : Type}

/-- A new record. -/
def create : FolderSynchronization Hash := ⟨∅, false⟩

/-- `blocks.size() == 0`. -/
def isEmpty (r : FolderSynchronization Hash) : Bool := r.blocks.entries.isEmpty

section Table

variable [DecidableEq Hash]

/-- `start_fetching`, with what it pushes into the context. -/
def startFetching (r : FolderSynchronization Hash) (hash : Hash) : FolderSynchronization Hash × List Diff :=
  let starts := r.isEmpty && !r.synchronizing
  let count := match r.blocks.lookup hash with
    | none => 1
    | some count => count + 1
  (⟨r.blocks.insert hash count, r.synchronizing || starts⟩, if starts then [.synchronizationStart] else [])

/-- `finish_fetching`, with what it pushes into the context. There is no check that the block is found. -/
def finishFetching (r : FolderSynchronization Hash) (hash : Hash) : Option (FolderSynchronization Hash × List Diff) :=
  (r.blocks.lookup hash).map fun count =>
    let blocks := if count - 1 = 0 then r.blocks.erase hash else r.blocks.insert hash (count - 1)
    let finishes := blocks.entries.isEmpty && r.synchronizing
    (⟨blocks, r.synchronizing && !finishes⟩, if finishes then [.synchronizationFinish] else [])

end Table

/-- The destructor, with what it sends. -/
def destroy (r : FolderSynchronization Hash) (suspended : Bool) : List Diff :=
  if !r.isEmpty && !suspended then
    if r.synchronizing then [.synchronizationFinish] else []
  else []

/-- What the record has told the coordinator: the diffs add up to whether it is synchronizing. -/
def weight (r : FolderSynchronization Hash) : Int := if r.synchronizing then 1 else 0

/-- The record synchronizes while there are blocks. -/
def Fits (r : FolderSynchronization Hash) : Prop := r.synchronizing = !r.isEmpty

theorem Fits.eq {r : FolderSynchronization Hash} (h : r.Fits) : r.synchronizing = !r.isEmpty := h

/-- At most one diff is sent, the one that alternates. -/
def Sends (before : Int) (diffs : List Diff) (after : Int) : Prop :=
  diffs = [] ∧ after = before ∨
    diffs = [.synchronizationStart] ∧ before = 0 ∧ after = 1 ∨
    diffs = [.synchronizationFinish] ∧ before = 1 ∧ after = 0

variable {r r' : FolderSynchronization Hash} {hash : Hash} {diffs : List Diff}

theorem startFetching_spec [DecidableEq Hash] (h : r.Fits) : (r.startFetching hash).1.Fits ∧
    Sends r.weight (r.startFetching hash).2 (r.startFetching hash).1.weight := by
  have hfull : ∀ count b, (⟨r.blocks.insert hash count, b⟩ : FolderSynchronization Hash).isEmpty = false := by
    simp [isEmpty, AList.entries_insert]
  simp only [Fits, startFetching, Sends, weight, hfull, h.eq]
  cases r.isEmpty <;> simp

theorem finishFetching_spec [DecidableEq Hash] (h : r.Fits) (hfinish : r.finishFetching hash = some (r', diffs)) :
    r'.Fits ∧ Sends r.weight diffs r'.weight := by
  obtain ⟨count, hcount, heq⟩ := Option.map_eq_some_iff.mp hfinish
  -- there is a block, so the record was synchronizing
  have hfull : r.isEmpty = false := by
    rw [isEmpty, List.isEmpty_eq_false_iff]
    rintro hnil
    rw [AList.lookup, hnil] at hcount
    cases hcount
  have hsync : r.synchronizing = true := by
    rw [h, hfull]
    rfl
  rw [hsync] at heq
  generalize (if count - 1 = 0 then r.blocks.erase hash else r.blocks.insert hash (count - 1)) = blocks at heq
  obtain ⟨rfl, rfl⟩ := Prod.mk.inj heq
  unfold Fits weight Sends isEmpty
  rw [hsync]
  cases blocks.entries.isEmpty <;> simp

/-- What the destructor sends makes the diffs add up to nothing, unless it is kept from that. -/
theorem destroy_spec (h : r.Fits) (suspended : Bool) :
    Sends r.weight (r.destroy suspended) (if suspended then r.weight else 0) := by
  simp only [destroy, Sends, weight, h.eq]
  cases r.isEmpty <;> cases suspended <;> simp

end FolderSynchronization

/-! ## The controller -/

variable {FolderId Hash : Type}

/-- What a controller has to do with synchronization. `sent` is what it has sent to the coordinator, in this order,
and `applied` how many of these have been applied. The records are kept by folder id: a folder is not created again
while the controller lives. -/
structure Controller (FolderId Hash : Type) where
  synchronizingFolders : AList fun _ : FolderId => FolderSynchronization Hash
  sent : List (FolderId × Diff)
  applied : Nat
  gone : Bool

section Folder

variable [DecidableEq FolderId]

/-- The diffs for one folder. -/
def diffsOf (fid : FolderId) (l : List (FolderId × Diff)) : List Diff := (l.filter (·.1 = fid)).map Prod.snd

theorem diffsOf_append (fid : FolderId) (l l' : List (FolderId × Diff)) :
    diffsOf fid (l ++ l') = diffsOf fid l ++ diffsOf fid l' := by
  simp [diffsOf]

theorem diffsOf_map_self (fid : FolderId) (diffs : List Diff) : diffsOf fid (diffs.map (fid, ·)) = diffs := by
  simp [diffsOf, List.filter_map, Function.comp_def]

theorem diffsOf_map_ne {fid fid' : FolderId} (h : fid' ≠ fid) (diffs : List Diff) :
    diffsOf fid (diffs.map (fid', ·)) = [] := by
  simp [diffsOf, List.filter_map, Function.comp_def, h]

theorem diffsOf_take (fid : FolderId) (l : List (FolderId × Diff)) (n : Nat) :
    ∃ m, diffsOf fid (l.take n) = (diffsOf fid l).take m := by
  have hprefix : diffsOf fid (l.take n) <+: diffsOf fid l := ((List.take_prefix n l).filter _).map _
  exact ⟨_, List.prefix_iff_eq_take.mp hprefix⟩

end Folder

namespace Controller

/-- A controller that starts. -/
def create : Controller FolderId Hash := ⟨∅, [], 0, false⟩

section Step

variable [DecidableEq FolderId]

/-- `get_sync_info`: the record, or the new one that it makes. -/
def getSyncInfo (c : Controller FolderId Hash) (fid : FolderId) : FolderSynchronization Hash :=
  (c.synchronizingFolders.lookup fid).getD .create

/-- The record is kept, and what it has pushed is sent when the context ends. -/
def put (c : Controller FolderId Hash) (fid : FolderId) (r : FolderSynchronization Hash × List Diff) :
    Controller FolderId Hash :=
  { c with synchronizingFolders := c.synchronizingFolders.insert fid r.1, sent := c.sent ++ r.2.map (fid, ·) }

/-- `acquire_block`. -/
def acquireBlock [DecidableEq Hash] (c : Controller FolderId Hash) (fid : FolderId) (hash : Hash) :
    Controller FolderId Hash :=
  c.put fid ((c.getSyncInfo fid).startFetching hash)

/-- `release_block`. It asserts that there is a record. -/
def releaseBlock [DecidableEq Hash] (c : Controller FolderId Hash) (fid : FolderId) (hash : Hash) :
    Option (Controller FolderId Hash) := do
  let r ← c.synchronizingFolders.lookup fid
  return c.put fid (← r.finishFetching hash)

/-- What the destructors of the records send. -/
def destroyAll (suspended : FolderId → Bool) (records : List (Σ _ : FolderId, FolderSynchronization Hash)) :
    List (FolderId × Diff) :=
  records.flatMap fun p => (p.2.destroy (suspended p.1)).map (p.1, ·)

/-- `shutdown_finish`. -/
def shutdownFinish (c : Controller FolderId Hash) (suspended : FolderId → Bool) : Controller FolderId Hash :=
  { c with
    synchronizingFolders := ∅
    sent := c.sent ++ destroyAll suspended c.synchronizingFolders.entries
    gone := true }

/-- The controller is fetching blocks of the folder. -/
def isFetching (c : Controller FolderId Hash) (fid : FolderId) : Bool := !(c.getSyncInfo fid).isEmpty

/-- What the controller still is for the count of the folder. -/
def balance (fid : FolderId) (c : Controller FolderId Hash) : Int := total Diff.delta (diffsOf fid c.sent)

/-- What of it is applied. -/
def credit (fid : FolderId) (c : Controller FolderId Hash) : Int :=
  total Diff.delta (diffsOf fid (c.sent.take c.applied))

variable {c : Controller FolderId Hash} {fid : FolderId}

@[simp] theorem getSyncInfo_put (r : FolderSynchronization Hash × List Diff) :
    (c.put fid r).getSyncInfo fid = r.1 := by
  simp [getSyncInfo, put]

theorem getSyncInfo_put_ne {fid' : FolderId} (h : fid' ≠ fid) (r : FolderSynchronization Hash × List Diff) :
    (c.put fid r).getSyncInfo fid' = c.getSyncInfo fid' := by
  simp [getSyncInfo, put, AList.lookup_insert_ne h]

/-- Each record is destroyed once. -/
theorem diffsOf_destroyAll (suspended : FolderId → Bool) {records : List (Σ _ : FolderId, FolderSynchronization Hash)}
    (h : records.NodupKeys) : diffsOf fid (destroyAll suspended records) =
      ((records.dlookup fid).getD .create).destroy (suspended fid) := by
  induction records with
  | nil => rfl
  | cons p records ih =>
    obtain ⟨hnew, hrest⟩ := List.nodupKeys_cons.mp h
    rw [destroyAll, List.flatMap_cons, diffsOf_append, ← destroyAll, ih hrest]
    obtain ⟨fid', r⟩ := p
    by_cases hfid : fid' = fid
    · subst hfid
      rw [diffsOf_map_self, List.dlookup_cons_eq, List.dlookup_eq_none.mpr hnew]
      exact List.append_nil _
    · rw [diffsOf_map_ne hfid, List.dlookup_cons_ne _ _ (Ne.symm hfid), List.nil_append]

theorem diffsOf_shutdownFinish (suspended : FolderId → Bool) : diffsOf fid (c.shutdownFinish suspended).sent =
    diffsOf fid c.sent ++ (c.getSyncInfo fid).destroy (suspended fid) := by
  rw [shutdownFinish, diffsOf_append, diffsOf_destroyAll suspended c.synchronizingFolders.nodupKeys]
  rfl

end Step

end Controller

/-! ## A controller on its own -/

section Tidy

open Controller FolderSynchronization

variable [DecidableEq FolderId]

/-- What holds of a controller: what it has sent for a folder alternates, and while it is there adds up to whether it
synchronizes the folder. -/
structure Tidy (c : Controller FolderId Hash) : Prop where
  applied : c.applied ≤ c.sent.length
  fits : ∀ fid, (c.getSyncInfo fid).Fits
  alternates : ∀ fid, Alternates .synchronizationStart (diffsOf fid c.sent)
  balance : c.gone = false → ∀ fid, c.balance fid = (c.getSyncInfo fid).weight

theorem tidy_create : Tidy (Controller.create : Controller FolderId Hash) where
  applied := Nat.le_refl 0
  fits _ := rfl
  alternates _ := trivial
  balance _ _ := rfl

/-- At most one diff that alternates keeps alternating, and adds up to what is after it. -/
theorem alternates_sends {l diffs : List Diff} {before after : Int} (h : Alternates .synchronizationStart l)
    (hbefore : total Diff.delta l = before) (hsends : Sends before diffs after) :
    Alternates .synchronizationStart (l ++ diffs) ∧ total Diff.delta (l ++ diffs) = after := by
  rw [total_append, hbefore]
  rcases hsends with ⟨rfl, rfl⟩ | ⟨rfl, rfl, rfl⟩ | ⟨rfl, rfl, rfl⟩
  · exact ⟨by rwa [List.append_nil], add_zero _⟩
  · exact ⟨h.snoc (.inl ⟨hbefore, rfl⟩), rfl⟩
  · exact ⟨h.snoc (.inr ⟨hbefore, rfl⟩), rfl⟩

variable {c : Controller FolderId Hash}

/-- **One record changes**, and sends what alternates. -/
theorem Tidy.put (h : Tidy c) (hlive : c.gone = false) (fid : FolderId) {r : FolderSynchronization Hash × List Diff}
    (hr : r.1.Fits ∧ Sends (c.getSyncInfo fid).weight r.2 r.1.weight) : Tidy (c.put fid r) := by
  have hsame : ∀ {fid'}, fid' ≠ fid → diffsOf fid' (c.put fid r).sent = diffsOf fid' c.sent := by
    intro fid' hne
    rw [Controller.put, diffsOf_append, diffsOf_map_ne hne.symm, List.append_nil]
  have hhere : diffsOf fid (c.put fid r).sent = diffsOf fid c.sent ++ r.2 := by
    rw [Controller.put, diffsOf_append, diffsOf_map_self]
  obtain ⟨halternates, htotal⟩ := alternates_sends (h.alternates fid) (h.balance hlive fid) hr.2
  constructor
  case applied =>
    rw [Controller.put, List.length_append]
    exact Nat.le_add_right_of_le h.applied
  case fits =>
    intro fid'
    by_cases hfid : fid' = fid
    · subst hfid
      rw [getSyncInfo_put]
      exact hr.1
    · rw [getSyncInfo_put_ne hfid]
      exact h.fits fid'
  case alternates =>
    intro fid'
    by_cases hfid : fid' = fid
    · subst hfid
      rwa [hhere]
    · rw [hsame hfid]
      exact h.alternates fid'
  case balance =>
    intro _ fid'
    by_cases hfid : fid' = fid
    · subst hfid
      rw [Controller.balance, hhere, getSyncInfo_put, htotal]
    · rw [Controller.balance, hsame hfid, getSyncInfo_put_ne hfid]
      exact h.balance hlive fid'

theorem Tidy.shutdown_total (h : Tidy c) (hlive : c.gone = false) (suspended : FolderId → Bool) (fid : FolderId) :
    Alternates .synchronizationStart (diffsOf fid (c.shutdownFinish suspended).sent) ∧
      (c.shutdownFinish suspended).balance fid = if suspended fid then (c.getSyncInfo fid).weight else 0 := by
  rw [Controller.balance, diffsOf_shutdownFinish]
  exact alternates_sends (h.alternates fid) (h.balance hlive fid) (destroy_spec (h.fits fid) _)

theorem Tidy.shutdown (h : Tidy c) (hlive : c.gone = false) (suspended : FolderId → Bool) :
    Tidy (c.shutdownFinish suspended) where
  applied := by
    rw [shutdownFinish, List.length_append]
    exact Nat.le_add_right_of_le h.applied
  fits _ := rfl
  alternates fid := (h.shutdown_total hlive suspended fid).1
  balance hgone := by simp [shutdownFinish] at hgone

/-- Nothing is left behind by a controller that goes down, unless it fetches blocks of a suspended folder. -/
theorem Tidy.shutdown_balance (h : Tidy c) (hlive : c.gone = false) (suspended : FolderId → Bool) (fid : FolderId) :
    (c.shutdownFinish suspended).balance fid = 0 ↔ suspended fid = false ∨ c.isFetching fid = false := by
  rw [(h.shutdown_total hlive suspended fid).2, weight, (h.fits fid).eq, isFetching]
  cases suspended fid <;> cases (c.getSyncInfo fid).isEmpty <;> simp

/-- What is applied of a controller is never negative. -/
theorem Tidy.credit_nonneg (h : Tidy c) (fid : FolderId) : 0 ≤ c.credit fid := by
  obtain ⟨m, hm⟩ := diffsOf_take fid c.sent c.applied
  rw [credit, hm]
  exact ((h.alternates fid).take m).total_nonneg

/-- More is sent, and nothing of it applied. -/
theorem Tidy.credit_append (h : Tidy c) {c' : Controller FolderId Hash} {l : List (FolderId × Diff)}
    (hsent : c'.sent = c.sent ++ l) (happlied : c'.applied = c.applied) (fid : FolderId) :
    c'.credit fid = c.credit fid := by
  rw [credit, credit, hsent, happlied, List.take_append_of_le_length h.applied]

theorem credit_apply {fid' : FolderId} {d : Diff} (hnext : c.sent[c.applied]? = some (fid', d)) (fid : FolderId) :
    credit fid { c with applied := c.applied + 1 } = c.credit fid + if fid = fid' then d.delta else 0 := by
  rw [credit, credit, List.take_add_one, hnext, diffsOf_append, total_append]
  by_cases hfid : fid = fid'
  · subst hfid
    simp [diffsOf]
  · have hne : fid' ≠ fid := fun h => hfid h.symm
    simp [diffsOf, hfid, hne]

end Tidy

/-! ## The system -/

/-- The controllers there have been, and of each folder whether it is suspended and its count. -/
structure World (FolderId Hash : Type) where
  controllers : List (Controller FolderId Hash)
  suspended : FolderId → Bool
  synchronizing : FolderId → Int

inductive Event (FolderId Hash : Type)
  | connect
  | fetch (i : Nat) (fid : FolderId) (hash : Hash)
  | fetched (i : Nat) (fid : FolderId) (hash : Hash)
  | suspend (fid : FolderId) (value : Bool)
  | shutdown (i : Nat)
  /-- The coordinator applies the next diff of a controller. The diffs of one controller come in their order. -/
  | apply (i : Nat)

namespace World

/-- No controller has been there yet. -/
def init (suspended : FolderId → Bool) : World FolderId Hash := ⟨[], suspended, fun _ => 0⟩

/-- The controller, as long as it is there. -/
def live (w : World FolderId Hash) (i : Nat) : Option (Controller FolderId Hash) :=
  w.controllers[i]?.filter fun c => !c.gone

def replace (w : World FolderId Hash) (i : Nat) (c : Controller FolderId Hash) : World FolderId Hash :=
  { w with controllers := w.controllers.set i c }

/-- Everything that was sent is applied. -/
def Settled (w : World FolderId Hash) : Prop := ∀ c ∈ w.controllers, c.applied = c.sent.length

instance settledDecidable (w : World FolderId Hash) : Decidable w.Settled :=
  inferInstanceAs (Decidable (∀ c ∈ w.controllers, c.applied = c.sent.length))

variable [DecidableEq FolderId]

/-- `adjust_synchronization`, without its assertion. -/
def adjustSynchronization (w : World FolderId Hash) (fid : FolderId) (delta : Int) : World FolderId Hash :=
  { w with synchronizing := Function.update w.synchronizing fid (w.synchronizing fid + delta) }

/-- One event. A controller that is gone takes part in none but the application of what it has sent. -/
def step [DecidableEq Hash] (w : World FolderId Hash) : Event FolderId Hash → Option (World FolderId Hash)
  | .connect => some { w with controllers := w.controllers ++ [.create] }
  | .fetch i fid hash => do
    let c ← w.live i
    return w.replace i (c.acquireBlock fid hash)
  | .fetched i fid hash => do
    let c ← w.live i
    return w.replace i (← c.releaseBlock fid hash)
  | .suspend fid value => some { w with suspended := Function.update w.suspended fid value }
  | .shutdown i => do
    let c ← w.live i
    return w.replace i (c.shutdownFinish w.suspended)
  | .apply i => do
    let c ← w.controllers[i]?
    let (fid, d) ← c.sent[c.applied]?
    return (w.adjustSynchronization fid d.delta).replace i { c with applied := c.applied + 1 }

end World

section Run

open Controller FolderSynchronization

variable [DecidableEq FolderId]

/-- Every controller is tidy, and a folder has the count of what is applied. -/
structure Sound (w : World FolderId Hash) : Prop where
  tidy : ∀ c ∈ w.controllers, Tidy c
  count : ∀ fid, w.synchronizing fid = total (credit fid) w.controllers

theorem sound_init (suspended : FolderId → Bool) : Sound (World.init suspended : World FolderId Hash) :=
  ⟨by simp [World.init], fun _ => rfl⟩

/-- The controller is not fetching blocks of the folder while it is suspended, or does not go down. -/
def Calm (fid : FolderId) (w : World FolderId Hash) : Event FolderId Hash → Prop
  | .shutdown i => w.suspended fid = false ∨ ∀ c ∈ w.live i, c.isFetching fid = false
  | _ => True

instance Calm.decidable (fid : FolderId) (w : World FolderId Hash) : ∀ e, Decidable (Calm fid w e)
  | .shutdown i => inferInstanceAs (Decidable (w.suspended fid = false ∨ ∀ c ∈ w.live i, c.isFetching fid = false))
  | .connect => isTrue trivial
  | .fetch _ _ _ => isTrue trivial
  | .fetched _ _ _ => isTrue trivial
  | .suspend _ _ => isTrue trivial
  | .apply _ => isTrue trivial

/-- The controllers that are gone have left nothing in the count of the folder. -/
def Clean (fid : FolderId) (w : World FolderId Hash) : Prop :=
  ∀ c ∈ w.controllers, c.gone = true → c.balance fid = 0

variable {w w' : World FolderId Hash} {i : Nat} {c c' : Controller FolderId Hash} {e : Event FolderId Hash}

omit [DecidableEq FolderId] in
theorem live_iff : w.live i = some c ↔ w.controllers[i]? = some c ∧ c.gone = false := by
  rw [World.live, Option.filter_eq_some_iff, Bool.not_eq_true']

theorem Sound.tidy_of_live (h : Sound w) (hlive : w.live i = some c) : Tidy c :=
  h.tidy c (List.mem_of_getElem? (live_iff.mp hlive).1)

/-- A controller that is there does something, and nothing is applied. -/
theorem Sound.replace (h : Sound w) (hlive : w.live i = some c) (htidy : Tidy c')
    (hcredit : ∀ fid, c'.credit fid = c.credit fid) : Sound (w.replace i c') where
  tidy d hd := by
    rcases List.mem_or_eq_of_mem_set hd with hd | rfl
    · exact h.tidy d hd
    · exact htidy
  count fid := by
    show w.synchronizing fid = total _ (w.controllers.set i c')
    rw [h.count fid, total_set (live_iff.mp hlive).1, hcredit fid]
    omega

theorem Sound.put (h : Sound w) (hlive : w.live i = some c) (fid : FolderId)
    {r : FolderSynchronization Hash × List Diff} (hr : r.1.Fits ∧ Sends (c.getSyncInfo fid).weight r.2 r.1.weight) :
    Sound (w.replace i (c.put fid r)) := by
  have htidy := h.tidy_of_live hlive
  exact h.replace hlive (htidy.put (live_iff.mp hlive).2 fid hr) (htidy.credit_append rfl rfl)

theorem Sound.apply (h : Sound w) (hc : w.controllers[i]? = some c) {fid : FolderId} {d : Diff}
    (hnext : c.sent[c.applied]? = some (fid, d)) :
    Sound ((w.adjustSynchronization fid d.delta).replace i { c with applied := c.applied + 1 }) := by
  have htidy := h.tidy c (List.mem_of_getElem? hc)
  constructor
  case tidy =>
    intro c' hc'
    rcases List.mem_or_eq_of_mem_set hc' with hc' | rfl
    · exact h.tidy c' hc'
    · exact ⟨(List.getElem?_eq_some_iff.mp hnext).1, htidy.fits, htidy.alternates, htidy.balance⟩
  case count =>
    intro fid'
    show Function.update w.synchronizing fid (w.synchronizing fid + d.delta) fid' = total _ (w.controllers.set i _)
    rw [total_set hc, credit_apply hnext, ← h.count fid']
    by_cases hfid : fid' = fid
    · subst hfid
      rw [Function.update_self, if_pos rfl]
      omega
    · rw [Function.update_of_ne hfid, if_neg hfid]
      omega

/-- What replacing one entry of a list adds to what is said of all of them. -/
theorem forall_mem_set {α : Type} {Q : α → Prop} {P : Prop} {x y : α} (hQ : Q y ↔ Q x ∧ P) :
    ∀ {l : List α} {i : Nat}, l[i]? = some x → ((∀ a ∈ l.set i y, Q a) ↔ (∀ a ∈ l, Q a) ∧ P) := by
  intro l
  induction l with
  | nil =>
    intro i h
    cases h
  | cons a l ih =>
    intro i h
    cases i with
    | zero =>
      cases h
      rw [List.set_cons_zero, List.forall_mem_cons, List.forall_mem_cons, hQ, and_right_comm]
    | succ i =>
      rw [List.set_cons_succ, List.forall_mem_cons, List.forall_mem_cons, ih (by simpa using h), and_assoc]

theorem clean_replace {fid : FolderId} {P : Prop} (hc : w.controllers[i]? = some c)
    (hP : (c'.gone = true → c'.balance fid = 0) ↔ (c.gone = true → c.balance fid = 0) ∧ P) :
    Clean fid (w.replace i c') ↔ Clean fid w ∧ P :=
  forall_mem_set (Q := fun c : Controller FolderId Hash => c.gone = true → c.balance fid = 0) hP hc

/-- A controller that stays leaves nothing behind. -/
theorem clean_put {fid fid' : FolderId} {r : FolderSynchronization Hash × List Diff} (hlive : w.live i = some c) :
    Clean fid (w.replace i (c.put fid' r)) ↔ Clean fid w ∧ True := by
  obtain ⟨hc, hgone⟩ := live_iff.mp hlive
  refine clean_replace hc ?_
  rw [Controller.put, hgone]
  simp

/-- What a record of a controller does with one block. -/
theorem releaseBlock_cases [DecidableEq Hash] {fid : FolderId} {hash : Hash}
    (h : c.releaseBlock fid hash = some c') :
    ∃ r, (c.getSyncInfo fid).finishFetching hash = some r ∧ c' = c.put fid r := by
  obtain ⟨r, hr, h⟩ := Option.bind_eq_some_iff.mp h
  obtain ⟨r', hr', h⟩ := Option.bind_eq_some_iff.mp h
  cases h
  exact ⟨r', by rwa [getSyncInfo, hr], rfl⟩

/-- In a settled world the count is what is left behind and the controllers that are fetching. -/
theorem Sound.count_settled (h : Sound w) (hsettled : w.Settled) (fid : FolderId) :
    w.synchronizing fid = total (balance fid) w.controllers := by
  rw [h.count fid]
  refine total_congr fun c hc => ?_
  rw [credit, hsettled c hc, List.take_length]
  rfl

/-- Where no controller is fetching, the count is nothing exactly if nothing was left behind. -/
theorem Sound.count_eq_zero_iff (h : Sound w) (hsettled : w.Settled) {fid : FolderId}
    (hidle : ∀ c ∈ w.controllers, c.gone = true ∨ c.isFetching fid = false) :
    w.synchronizing fid = 0 ↔ Clean fid w := by
  have hnonneg : ∀ c ∈ w.controllers, 0 ≤ c.balance fid := fun c hc => ((h.tidy c hc).alternates fid).total_nonneg
  rw [h.count_settled hsettled fid]
  constructor
  · intro hzero c hc _
    obtain ⟨i, hi⟩ := List.mem_iff_getElem?.mp hc
    have hle := le_total hi hnonneg
    have hpos := hnonneg c hc
    omega
  · intro hclean
    refine total_eq_zero fun c hc => ?_
    cases hgone : c.gone with
    | true => exact hclean c hc hgone
    | false =>
      have hnone : c.isFetching fid = false := (hidle c hc).resolve_left (by simp [hgone])
      have hempty : (c.getSyncInfo fid).isEmpty = true := by simpa [isFetching] using hnone
      rw [(h.tidy c hc).balance hgone fid, weight, ((h.tidy c hc).fits fid).eq, hempty]
      rfl

variable [DecidableEq Hash]

/-- **One step** keeps the count, and leaves something in it exactly if a controller goes down while it is fetching
blocks of a suspended folder. -/
theorem Sound.step (h : Sound w) (hstep : w.step e = some w') :
    Sound w' ∧ ∀ fid, (Clean fid w' ↔ Clean fid w ∧ Calm fid w e) := by
  cases e with
  | connect =>
    cases hstep
    refine ⟨⟨?_, fun fid => ?_⟩, fun fid => ?_⟩
    · rw [List.forall_mem_append, List.forall_mem_singleton]
      exact ⟨h.tidy, tidy_create⟩
    · rw [total_append, ← h.count fid]
      exact (add_zero _).symm
    · simp [Clean, Calm, or_imp, forall_and, Controller.create]
  | fetch i fid hash =>
    obtain ⟨c, hlive, heq⟩ := Option.bind_eq_some_iff.mp hstep
    cases heq
    have hfits := (h.tidy_of_live hlive).fits fid
    exact ⟨h.put hlive fid (startFetching_spec hfits), fun _ => clean_put hlive⟩
  | fetched i fid hash =>
    obtain ⟨c, hlive, heq⟩ := Option.bind_eq_some_iff.mp hstep
    obtain ⟨c', hrelease, heq⟩ := Option.bind_eq_some_iff.mp heq
    cases heq
    obtain ⟨r, hr, rfl⟩ := releaseBlock_cases hrelease
    have hfits := (h.tidy_of_live hlive).fits fid
    exact ⟨h.put hlive fid (finishFetching_spec hfits hr), fun _ => clean_put hlive⟩
  | suspend fid value =>
    cases hstep
    exact ⟨⟨h.tidy, h.count⟩, fun _ => (and_iff_left trivial).symm⟩
  | shutdown i =>
    obtain ⟨c, hlive, heq⟩ := Option.bind_eq_some_iff.mp hstep
    cases heq
    obtain ⟨hc, hgone⟩ := live_iff.mp hlive
    have htidy := h.tidy_of_live hlive
    refine ⟨h.replace hlive (htidy.shutdown hgone _) (htidy.credit_append rfl rfl), fun fid => clean_replace hc ?_⟩
    simp only [Calm, hlive, Option.mem_some_iff, forall_eq', ← htidy.shutdown_balance hgone w.suspended fid]
    simp [hgone, shutdownFinish]
  | apply i =>
    obtain ⟨c, hc, heq⟩ := Option.bind_eq_some_iff.mp hstep
    obtain ⟨⟨fid, d⟩, hnext, heq⟩ := Option.bind_eq_some_iff.mp heq
    cases heq
    exact ⟨h.apply hc hnext, fun _ => clean_replace hc (and_iff_left trivial).symm⟩

/-- **Any run**: what a controller has sent for a folder alternates, the count of a folder is not negative, and once
everything is applied and no controller is fetching blocks of the folder it is nothing exactly if no controller went
down while it was fetching blocks of the suspended folder. -/
theorem returns_of_run {suspended : FolderId → Bool} {es : List (Event FolderId Hash)}
    (hrun : exec World.step (World.init suspended) es = some w) :
    (∀ c ∈ w.controllers, ∀ fid, Alternates .synchronizationStart (diffsOf fid c.sent)) ∧
      (∀ fid, 0 ≤ w.synchronizing fid) ∧
      (w.Settled → ∀ fid, (∀ c ∈ w.controllers, c.gone = true ∨ c.isFetching fid = false) →
        (w.synchronizing fid = 0 ↔ Meets World.step (Calm fid) (World.init suspended) es)) := by
  have hkeeps : ∀ (w : World FolderId Hash) e w', Sound w → World.step w e = some w' → Sound w' :=
    fun _ _ _ h hstep => (h.step hstep).1
  have hsound : Sound w := exec_inv (fun w e w' h (_ : True) hstep => hkeeps w e w' h hstep) (sound_init suspended)
    (meets_of_forall fun _ _ => trivial) hrun
  refine ⟨fun c hc => (hsound.tidy c hc).alternates, fun fid => ?_, fun hsettled fid hidle => ?_⟩
  · rw [hsound.count fid]
    exact total_nonneg fun c hc => (hsound.tidy c hc).credit_nonneg fid
  · rw [hsound.count_eq_zero_iff hsettled hidle,
      meets_iff_good hkeeps (fun _ _ _ h hstep => (h.step hstep).2 fid) (sound_init suspended) hrun]
    exact and_iff_right fun c hc => absurd hc List.not_mem_nil

end Run

/-- A controller that goes down while it is fetching a block. -/
def lastFetch : List (Event Nat Nat) := [.connect, .fetch 0 0 0, .shutdown 0, .apply 0, .apply 0]

theorem returns_of_last_fetch :
    (exec World.step (World.init fun _ => false) lastFetch).map (·.synchronizing 0) = some 0 := by
  obtain ⟨w, hrun⟩ : ∃ w, exec World.step (World.init fun _ => false) lastFetch = some w := ⟨_, rfl⟩
  rw [hrun]
  refine congrArg some (((returns_of_run hrun).2.2 ?_ 0 ?_).mpr (by decide))
  · cases hrun
    decide
  · cases hrun
    decide

/-- **Counterexample**: the folder is suspended while a block is being fetched, and then the controller goes down. -/
theorem suspended_at_shutdown : ∃ w : World Nat Nat,
    exec World.step (World.init fun _ => false)
      [.connect, .fetch 0 0 0, .suspend 0 true, .shutdown 0, .apply 0, .suspend 0 false] = some w ∧
    w.Settled ∧ (∀ c ∈ w.controllers, c.gone = true) ∧ w.synchronizing 0 = 1 := by
  exact ⟨_, rfl, by decide, by decide, rfl⟩

end FolderSync

end SyncSpirit
