import SyncSpirit.FileUpdate
import SyncSpirit.VersionHistory

/-!
# Local updates (`diff/advance/local_update.cpp`)

A scanned change becomes a `local_update_t`. If some peer has announced exactly the file
that was found (`get_original`), the record of the peer is adopted as it is, its version
included; otherwise the version of the local record gets a new counter.

A `Swarm` is what any number of devices know: their own records, and all records that have
ever been announced. Index messages can be late, so a device may know any of them.

- `getOriginal`: the first peer whose record matches, as `compare` never returns more
  than 1;
- `Swarm.canonical_of_run`: in every run, whatever is adopted, all versions have one
  counter for each device and one largest value;
- `dominates_iff_original`: a local update never goes back, except for what it adopts.
-/

namespace SyncSpirit

open VectorClock

/-- The `version_t` that is made of a record. -/
def Proto.FileInfo.versionOf (r : Proto.FileInfo) : Version := .ofProto r.version

namespace LocalUpdate

/-! ## `get_original` -/

/-- The blocks that a file made of a record has room for. -/
def roomOf (r : Proto.FileInfo) : List Proto.BlockInfo :=
  if r.size ≠ 0 ∧ asFlags r.type = .file then r.blocks else []

/-- `get_size` of a file made of a record: the last block may be shorter than the others, whose
product is a `uint32_t`. -/
def sizeOf (r : Proto.FileInfo) : Int :=
  if asFlags r.type = .file ∧ r.deleted = false ∧ r.invalid = false then
    match (roomOf r).head?, (roomOf r).getLast? with
    | some first, some last =>
      last.size.toUInt32.toNat + ((roomOf r).length - 1 : Nat) * first.size.toUInt32.toNat % 2 ^ 32
    | _, _ => 0
  else 0

/-- The blocks that are assigned; a deleted file has none. -/
def hashesOf (r : Proto.FileInfo) : List (Option Bytes) :=
  if r.deleted then [] else (roomOf r).map fun b => makeStrictHash b.hash

/-- The content of the scanned file is that of the candidate (local_update.cpp:79–103). -/
def sameFile (found candidate : Proto.FileInfo) : Bool :=
  sizeOf candidate = found.size ∧ asFlags found.type = asFlags candidate.type ∧
    found.deleted = candidate.deleted ∧ found.invalid = candidate.invalid ∧
    (found.noPermissions = candidate.noPermissions ∨ found.permissions = candidate.permissions) ∧
    (asFlags candidate.type = .file → (roomOf candidate).length = found.blocks.length ∧
      ∀ p ∈ (hashesOf candidate).zip found.blocks, p.1 = some p.2.hash)

/-- The file made of a record, as far as `compare` reads it. -/
def asFile (r : Proto.FileInfo) : FileInfo :=
  { (default : FileInfo) with
    name := r.name, modifiedS := r.modifiedS, version := r.versionOf, deleted := r.deleted }

/-- `model::compare`. -/
def compare (f g : FileInfo) : Int :=
  if f.deleted ∧ g.deleted then 0 else if compareByVersion g f = .ignore then 1 else -1

/-- One round of `get_original`. -/
def pick (found : Proto.FileInfo) (original : Option Proto.FileInfo) (candidate : Proto.FileInfo) :
    Option Proto.FileInfo :=
  if sameFile found candidate then
    match original with
    | none => some candidate
    | some r => if 1 < compare (asFile candidate) (asFile r) then some candidate else some r
  else original

/-- `local_update_t::get_original`, over the files of that name that the peers have, in the
order of the folder infos. -/
def getOriginal (found : Proto.FileInfo) (candidates : List Proto.FileInfo) : Option Proto.FileInfo :=
  candidates.foldl (pick found) none

/-- The version of a file that nobody else has. -/
def editedVersion (prev : Option Proto.FileInfo) (d now : UInt64) : Version :=
  match prev with
  | some r => r.versionOf.update d now
  | none => .ofDevice d now

/-- `local_update_t`: the record that the local file is made of. -/
def protoLocal (prev : Option Proto.FileInfo) (d now : UInt64) (found : Proto.FileInfo)
    (candidates : List Proto.FileInfo) : Proto.FileInfo :=
  match getOriginal found candidates with
  | some original => { original with version := original.versionOf.toProto, name := found.name }
  | none => { found with version := (editedVersion prev d now).toProto, modifiedBy := d }

end LocalUpdate

/-! ## The runs -/

/-- The local records of the devices and everything they have announced. -/
structure Swarm where
  current : UInt64 → String → Option Proto.FileInfo
  announced : List (UInt64 × Proto.FileInfo)

namespace Swarm

/-- What a device can do.

- `scan`: a change is found on the disk; `candidates` are the records of that name that the
  device has of its peers;
- `remoteCopy`, `remoteWin`: a record of a peer is taken, and the local file may be kept
  under another name. Whether the resolver asks for it does not matter here. -/
inductive Event where
  | scan (d now : UInt64) (found : Proto.FileInfo) (candidates : List (UInt64 × Proto.FileInfo))
  | remoteCopy (d peer : UInt64) (remote : Proto.FileInfo)
  | remoteWin (d peer : UInt64) (remote : Proto.FileInfo) (conflict : String)

/-- Nobody has a file. -/
def init : Swarm := ⟨fun _ _ => none, []⟩

/-- A new record of a device, announced to everybody. -/
def put (w : Swarm) (d : UInt64) (r : Proto.FileInfo) : Swarm :=
  ⟨Function.update w.current d (Function.update (w.current d) r.name (some r)), (d, r) :: w.announced⟩

/-- A record as `as_proto` gives it and the constructor of the file takes it. -/
def copied (r : Proto.FileInfo) (name : String) : Proto.FileInfo :=
  { r with version := r.versionOf.toProto, name := name }

/-- One event. -/
def step (w : Swarm) : Event → Option Swarm
  | .scan d now found candidates =>
    if ∀ c ∈ candidates, c ∈ w.announced ∧ c.1 ≠ d ∧ c.2.name = found.name then
      some (w.put d
        (LocalUpdate.protoLocal (w.current d found.name) d now found (candidates.map Prod.snd)))
    else none
  | .remoteCopy d peer remote =>
    if (peer, remote) ∈ w.announced then some (w.put d (copied remote remote.name)) else none
  | .remoteWin d peer remote conflict =>
    if (peer, remote) ∈ w.announced then
      (w.current d remote.name).map fun prev =>
        (w.put d (copied prev conflict)).put d (copied remote remote.name)
    else none

/-- The counters of an edit stay below the borrowed bit. -/
def Bounded (w : Swarm) : Event → Prop
  | .scan d now found candidates =>
    LocalUpdate.getOriginal found (candidates.map Prod.snd) = none → now.toNat < 2 ^ 63 ∧
      ∀ prev ∈ w.current d found.name, prev.versionOf.getBest.value.toNat + 1 < 2 ^ 63
  | .remoteCopy _ _ _ | .remoteWin _ _ _ _ => True

instance (w : Swarm) : ∀ e, Decidable (w.Bounded e)
  | .scan d now found _ => inferInstanceAs (Decidable (_ → now.toNat < 2 ^ 63 ∧
      ∀ prev ∈ w.current d found.name, prev.versionOf.getBest.value.toNat + 1 < 2 ^ 63))
  | .remoteCopy _ _ _ | .remoteWin _ _ _ _ => inferInstanceAs (Decidable True)

/-! ## Canonical versions -/

/-- All versions are as the program builds them. -/
structure Canonical (w : Swarm) : Prop where
  current : ∀ d name, ∀ r ∈ w.current d name, r.versionOf.Canonical
  announced : ∀ p ∈ w.announced, p.2.versionOf.Canonical

theorem canonical_init : Canonical init := ⟨fun _ _ _ h => (nomatch h), fun _ h => (nomatch h)⟩

theorem Canonical.put {w : Swarm} (h : Canonical w) {d : UInt64} {r : Proto.FileInfo}
    (hr : r.versionOf.Canonical) : Canonical (w.put d r) where
  current d' name r' hr' := by
    rw [Swarm.put] at hr'
    by_cases hd : d' = d
    · subst hd
      by_cases hname : name = r.name
      · simp only [Function.update_self, hname, Option.mem_some_iff] at hr'
        exact hr' ▸ hr
      · simp only [Function.update_self, Function.update_of_ne hname] at hr'
        exact h.current d' name r' hr'
    · simp only [Function.update_of_ne hd] at hr'
      exact h.current d' name r' hr'
  announced p hp := by
    rcases List.mem_cons.mp hp with rfl | hp
    · exact hr
    · exact h.announced p hp

theorem versionOf_copied {r : Proto.FileInfo} (h : r.versionOf.Canonical) (name : String) :
    (copied r name).versionOf = r.versionOf := h.ofProto_toProto

/-- An edit is canonical and has all of the previous version in its past. -/
theorem canonical_editedVersion {prev : Option Proto.FileInfo} (hprev : ∀ r ∈ prev, r.versionOf.Canonical)
    {d now : UInt64} (hnow : now.toNat < 2 ^ 63)
    (hbest : ∀ r ∈ prev, r.versionOf.getBest.value.toNat + 1 < 2 ^ 63) :
    (Version.ofProto (LocalUpdate.editedVersion prev d now).toProto).Canonical ∧
      ∀ r ∈ prev, r.versionOf.clock < (Version.ofProto (LocalUpdate.editedVersion prev d now).toProto).clock := by
  cases prev with
  | none =>
    obtain ⟨hcan, -⟩ := Version.canonical_edit (v := ⟨[]⟩) (.inr rfl) List.nodup_nil d now
      fun e => WithBot.bot_lt_coe _
    exact ⟨hcan, fun _ h => nomatch h⟩
  | some r =>
    have hr := hprev r rfl
    have hlt := hr.clock_lt_nextValue hnow (hbest r rfl)
    obtain ⟨hcan, hclock⟩ := Version.canonical_edit (.inl hr.any_isMarked) hr.distinct d now hlt
    refine ⟨hcan, fun r' hr' => ?_⟩
    obtain rfl := Option.some.inj hr'
    show _ < (Version.ofProto (r.versionOf.update d now).toProto).clock
    rw [hclock, Pi.lt_def]
    refine ⟨fun e => ?_, d, ?_⟩
    · by_cases he : e = d
      · rw [he, Function.update_self]
        exact (hlt d).le
      · rw [Function.update_of_ne he]
    · rw [Function.update_self]
      exact hlt d

end Swarm

namespace LocalUpdate

theorem compare_le_one (f g : FileInfo) : compare f g ≤ 1 := by
  unfold compare
  repeat' split
  all_goals decide

theorem foldl_pick_some (found r : Proto.FileInfo) (candidates : List Proto.FileInfo) :
    candidates.foldl (pick found) (some r) = some r := by
  induction candidates with
  | nil => rfl
  | cons c cs ih =>
    have hpick : pick found (some r) c = some r := by
      unfold pick
      dsimp only
      rw [if_neg (Int.not_lt.mpr (compare_le_one _ _))]
      split <;> rfl
    rw [List.foldl_cons, hpick, ih]

/-- Later candidates are never preferred. -/
theorem getOriginal_eq (found : Proto.FileInfo) (candidates : List Proto.FileInfo) :
    getOriginal found candidates = candidates.find? (sameFile found) := by
  induction candidates with
  | nil => rfl
  | cons c cs ih =>
    rw [getOriginal, List.foldl_cons, List.find?_cons]
    by_cases hsame : sameFile found c = true
    · have hpick : pick found none c = some c := if_pos hsame
      rw [hpick, foldl_pick_some, hsame]
    · have hpick : pick found none c = none := if_neg hsame
      rw [Bool.not_eq_true] at hsame
      rw [hpick, hsame]
      exact ih

theorem name_protoLocal (prev : Option Proto.FileInfo) (d now : UInt64) (found : Proto.FileInfo)
    (candidates : List Proto.FileInfo) : (protoLocal prev d now found candidates).name = found.name := by
  unfold protoLocal
  split <;> rfl

end LocalUpdate

namespace Swarm

theorem current_put (w : Swarm) (d : UInt64) (r : Proto.FileInfo) :
    (w.put d r).current d r.name = some r := by
  simp [Swarm.put]

/-- The record of a scan: an edit, or the version of a candidate. -/
theorem canonical_protoLocal {w : Swarm} (hw : Canonical w) {d now : UInt64} {found : Proto.FileInfo}
    {candidates : List (UInt64 × Proto.FileInfo)} (hcandidates : ∀ c ∈ candidates, c ∈ w.announced)
    (hbounded : w.Bounded (.scan d now found candidates)) :
    let r := LocalUpdate.protoLocal (w.current d found.name) d now found (candidates.map Prod.snd)
    r.versionOf.Canonical ∧
      match LocalUpdate.getOriginal found (candidates.map Prod.snd) with
      | some original => r.versionOf = original.versionOf
      | none => ∀ prev ∈ w.current d found.name, prev.versionOf.clock < r.versionOf.clock := by
  dsimp only
  unfold LocalUpdate.protoLocal
  cases horiginal : LocalUpdate.getOriginal found (candidates.map Prod.snd) with
  | some original =>
    rw [LocalUpdate.getOriginal_eq] at horiginal
    obtain ⟨c, hc, rfl⟩ := List.mem_map.mp (List.mem_of_find?_eq_some horiginal)
    have hcan := hw.announced c (hcandidates c hc)
    have hversion : ({ c.2 with version := c.2.versionOf.toProto, name := found.name } :
        Proto.FileInfo).versionOf = c.2.versionOf := hcan.ofProto_toProto
    dsimp only
    rw [hversion]
    exact ⟨hcan, rfl⟩
  | none =>
    obtain ⟨hnow, hbest⟩ := hbounded horiginal
    exact canonical_editedVersion (hw.current d found.name) hnow hbest

/-- **Step**: the versions stay canonical. -/
theorem Canonical.step {w w' : Swarm} (hw : Canonical w) {e : Event} (hbounded : w.Bounded e)
    (h : w.step e = some w') : Canonical w' := by
  cases e with
  | scan d now found candidates =>
    simp only [Swarm.step] at h
    split at h
    · rename_i hcandidates
      cases h
      exact hw.put (canonical_protoLocal hw (fun c hc => (hcandidates c hc).1) hbounded).1
    · cases h
  | remoteCopy d peer remote =>
    simp only [Swarm.step] at h
    split at h
    · rename_i hmem
      cases h
      have hremote := hw.announced _ hmem
      exact hw.put (by rwa [versionOf_copied hremote])
    · cases h
  | remoteWin d peer remote conflict =>
    simp only [Swarm.step] at h
    split at h
    · rename_i hmem
      obtain ⟨prev, hprev, rfl⟩ := Option.map_eq_some_iff.mp h
      have hlocal := hw.current d remote.name prev hprev
      have hremote := hw.announced _ hmem
      have hkept : Canonical (w.put d (copied prev conflict)) :=
        hw.put (by rwa [versionOf_copied hlocal])
      exact hkept.put (by rwa [versionOf_copied hremote])
    · cases h

/-- **Run**: in every state that is reached all versions are canonical. -/
theorem canonical_of_run {es : List Event} {w : Swarm} (hs : Run.Meets step Bounded init es)
    (hrun : Run.exec step init es = some w) : Canonical w :=
  Run.exec_inv (fun _ _ _ hw hs h => hw.step hs h) canonical_init hs hrun

/-! ## Going back -/

/-- A version that has another one in its past is never taken for the older one. -/
theorem compareByVersion_of_clock_le {f g : FileInfo} (hf : f.version.Canonical) (hg : g.version.Canonical)
    (hle : f.version.clock ≤ g.version.clock) : compareByVersion f g = .ignore := by
  have hbest : ((f.version.getBest.value.toNat : ℕ) : WithBot ℕ) ≤ g.version.clock f.version.getBest.id :=
    hf.best.eq.ge.trans (hle _)
  have hvalue : f.version.getBest.value.toNat ≤ g.version.getBest.value.toNat :=
    WithBot.coe_le_coe.mp (hbest.trans (hg.best.le _))
  unfold compareByVersion
  by_cases hid : f.version.getBest.id = g.version.getBest.id
  · have hnot : ¬ g.version.getBest.value < f.version.getBest.value := by
      rw [UInt64.lt_iff_toNat_lt]
      omega
    simp only [hid, if_true, hnot, if_false]
    split <;> rfl
  · have hcontains : g.version.contains f.version = true := (Version.contains_iff _ _).mpr hbest
    have hnot : f.version.contains g.version = false := by
      -- the best counter of `g` exceeds all others of `g`, so also that of `f`'s best device
      rw [Bool.eq_false_iff]
      intro hcon
      have hge := (Version.contains_iff _ _).mp hcon
      have hlt := hg.best.lt _ hid
      have hmax := hge.trans (hf.best.le _)
      exact absurd (hlt.trans_le hmax) (not_lt_of_ge hbest)
    simp [hid, hcontains, hnot]

/-- **Local updates**: in every run, the version that a scanned change gives to the local
file has the previous version in its past exactly if that is so for the record of a peer
that is adopted instead, if there is one. Then no device takes the previous version for
the newer one. -/
theorem dominates_iff_original (es : List Event) (w : Swarm) (hs : Run.Meets step Bounded init es)
    (hrun : Run.exec step init es = some w) (d now : UInt64) (found : Proto.FileInfo)
    (candidates : List (UInt64 × Proto.FileInfo)) (hbounded : w.Bounded (.scan d now found candidates))
    (w' : Swarm) (hstep : w.step (.scan d now found candidates) = some w') :
    ((∀ prev ∈ w.current d found.name, ∀ r ∈ w'.current d found.name,
          r.versionOf.Dominates prev.versionOf ∧
            compareByVersion (LocalUpdate.asFile prev) (LocalUpdate.asFile r) = .ignore) ↔
      ∀ prev ∈ w.current d found.name,
        ∀ original ∈ LocalUpdate.getOriginal found (candidates.map Prod.snd),
          original.versionOf.Dominates prev.versionOf) ∧
    (w'.current d found.name).isSome := by
  have hw := canonical_of_run hs hrun
  simp only [Swarm.step] at hstep
  split at hstep
  case isFalse => cases hstep
  rename_i hcandidates
  obtain rfl := Option.some.inj hstep
  obtain ⟨hcan, hversion⟩ := canonical_protoLocal hw (fun c hc => (hcandidates c hc).1) hbounded
  have hcur := w.current_put d
    (LocalUpdate.protoLocal (w.current d found.name) d now found (candidates.map Prod.snd))
  rw [LocalUpdate.name_protoLocal] at hcur
  rw [hcur]
  refine ⟨⟨fun h prev hprev original horiginal => ?_, fun h prev hprev r hr => ?_⟩, rfl⟩
  · rw [horiginal] at hversion
    dsimp only at hversion
    rw [← hversion]
    exact (h prev hprev _ rfl).1
  · obtain rfl := Option.some.inj hr
    have hprevCan := hw.current d found.name prev hprev
    -- either the adopted version is as demanded, or the edit is a later event
    have hle : prev.versionOf.clock ≤ (LocalUpdate.protoLocal (w.current d found.name) d now found
        (candidates.map Prod.snd)).versionOf.clock := by
      cases horiginal : LocalUpdate.getOriginal found (candidates.map Prod.snd) with
      | some original =>
        rw [horiginal] at hversion
        dsimp only at hversion
        rw [← Version.dominates_iff hcan.distinct hprevCan.distinct, hversion]
        exact h prev hprev original horiginal
      | none =>
        rw [horiginal] at hversion
        exact (hversion prev hprev).le
    exact ⟨(Version.dominates_iff hcan.distinct hprevCan.distinct).mpr hle,
      compareByVersion_of_clock_le hprevCan hcan hle⟩

/-- A file with one block, last modified by a device. -/
def oneBlock (hash : UInt8) (device : UInt64) (counters : List Proto.Counter) : Proto.FileInfo :=
  { (default : Proto.FileInfo) with
    name := "a"
    size := 5
    modifiedBy := device
    version := ⟨counters⟩
    blocks := [⟨5, List.replicate 32 hash, 0⟩] }

/-- Device 1 creates the file, device 2 has a copy of it. -/
def shared : List Event :=
  [.scan 1 10 (oneBlock 7 1 []) [], .remoteCopy 2 1 (oneBlock 7 1 [⟨1, 10⟩])]

/-- An edit of the copy: nobody has announced it yet. -/
theorem dominates_of_edit : ∃ w w', Run.exec step init shared = some w ∧
    w.step (.scan 2 20 (oneBlock 8 2 []) [(1, oneBlock 7 1 [⟨1, 10⟩])]) = some w' ∧
    ∀ prev ∈ w.current 2 "a", ∀ r ∈ w'.current 2 "a", r.versionOf.Dominates prev.versionOf ∧
      compareByVersion (LocalUpdate.asFile prev) (LocalUpdate.asFile r) = .ignore := by
  refine ⟨_, _, rfl, rfl, ?_⟩
  refine (dominates_iff_original shared _ (by decide) rfl 2 20 (oneBlock 8 2 [])
    [(1, oneBlock 7 1 [⟨1, 10⟩])] (by decide) _ rfl).1.mpr fun prev _ original horiginal => ?_
  have hnone : LocalUpdate.getOriginal (oneBlock 8 2 [])
      ([((1 : UInt64), oneBlock 7 1 [⟨1, 10⟩])].map Prod.snd) = none := by decide
  cases hnone.symm.trans horiginal

/-- Device 1 edits the file and takes the edit back before device 2 has heard of it. -/
def reverted : List Event :=
  shared ++ [.scan 1 20 (oneBlock 8 1 []) [(2, oneBlock 7 1 [⟨1, 10⟩])],
    .scan 1 30 (oneBlock 7 1 []) [(2, oneBlock 7 1 [⟨1, 10⟩])]]

/-- The old content comes back with its old version: everybody who has the edit, device 1
too, takes it for the newer one. -/
theorem reverted_goes_back : ∃ w w', Run.exec step init (reverted.take 3) = some w ∧
    Run.exec step init reverted = some w' ∧
    w.current 1 "a" = some (oneBlock 8 1 [⟨1, 20⟩]) ∧ w'.current 1 "a" = some (oneBlock 7 1 [⟨1, 10⟩]) ∧
    ¬ (oneBlock 7 1 [⟨1, 10⟩]).versionOf.Dominates (oneBlock 8 1 [⟨1, 20⟩]).versionOf ∧
    compareByVersion (LocalUpdate.asFile (oneBlock 8 1 [⟨1, 20⟩]))
      (LocalUpdate.asFile (oneBlock 7 1 [⟨1, 10⟩])) = .remoteCopy := by
  refine ⟨_, _, rfl, rfl, ?_⟩
  decide

end Swarm

end SyncSpirit
