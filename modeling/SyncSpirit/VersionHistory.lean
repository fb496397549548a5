import SyncSpirit.Version
import SyncSpirit.Resolver
import SyncSpirit.Lib.Run
import SyncSpirit.Lib.VectorClock

/-!
# The versions of one file along a run

Any number of devices create, edit and adopt versions of one file. `Net.current`
is the version of each device's local record, `Net.seen` every version that has
ever been announced: an index message may arrive arbitrarily late, so any of them
can still be adopted.

Every local record is built by `file_info_t::create` from a `proto::FileInfo`
(`advance_t::apply_impl`), so its version has passed through `to_proto` and the
constructor of `version_t`.

`Sound` is the condition under which `contains` decides domination: the 63 bits
of a counter do not overflow, and a device only adopts a version that contains
its own one. `remote_win_t`, the resurrection of a deleted file and
`get_original` need not meet it: they adopt a *concurrent* version as it is,
without merging the counters of the version they drop.
-/

namespace SyncSpirit

open Proto (Counter Vector)
open VectorClock

namespace Version

/-! ## Versions as vector clocks -/

/-- The clock a list of counters stands for. -/
def clockOf (cs : List Counter) : Clock UInt64 :=
  fun id => ((lookup cs id).map UInt64.toNat : Option ℕ)

/-- The clock of a version. -/
def clock (v : Version) : Clock UInt64 := clockOf v.counters

/-- At most one counter per device. -/
def DistinctIds (cs : List Counter) : Prop := (cs.map Counter.id).Nodup

/-- A version as the program builds it: one counter per device, and the marked
counter exceeds all others. -/
structure Canonical (v : Version) : Prop where
  distinct : DistinctIds v.counters
  ofProto_toProto : ofProto v.toProto = v
  best : IsBest v.clock v.getBest.id v.getBest.value.toNat

theorem lookup_toProto (v : Version) (id : UInt64) :
    lookup v.toProto.counters id = lookup v.counters id := by
  unfold lookup toProto
  rw [List.find?_map]
  cases h : v.counters.find? fun c => c.id == id with
  | none => simp [h]
  | some c =>
    have : unmark (unmark c.value) = unmark c.value :=
      unmark_of_not_isMarked (isMarked_unmark c.value)
    simp [h, this]

theorem clockOf_toProto (v : Version) : clockOf v.toProto.counters = v.clock := by
  funext id
  unfold clock clockOf
  rw [lookup_toProto]

theorem distinctIds_toProto (v : Version) :
    DistinctIds v.toProto.counters ↔ DistinctIds v.counters := by
  unfold DistinctIds toProto
  rw [List.map_map]
  rfl

theorem lookup_of_mem {cs : List Counter} (hd : DistinctIds cs) {c : Counter} (hc : c ∈ cs) :
    lookup cs c.id = some (unmark c.value) := by
  induction cs with
  | nil => cases hc
  | cons d ds ih =>
    obtain ⟨hnot, hd'⟩ := List.nodup_cons.mp hd
    rcases List.mem_cons.mp hc with rfl | hc
    · simp [lookup]
    · have hne : (d.id == c.id) = false := by
        rw [beq_eq_false_iff_ne]
        intro h
        exact hnot (h ▸ List.mem_map_of_mem hc)
      have := ih hd' hc
      unfold lookup at this ⊢
      rw [List.find?_cons, hne]
      exact this

theorem exists_of_lookup {cs : List Counter} {id : UInt64} {x : UInt64}
    (h : lookup cs id = some x) : ∃ c ∈ cs, c.id = id ∧ unmark c.value = x := by
  obtain ⟨c, hc, rfl⟩ := Option.map_eq_some_iff.mp h
  exact ⟨c, List.mem_of_find?_eq_some hc, by simpa using List.find?_some hc, rfl⟩

/-- Domination is the pointwise order of clocks. -/
theorem dominates_iff {v w : Version} (hv : DistinctIds v.counters)
    (hw : DistinctIds w.counters) : Dominates v w ↔ w.clock ≤ v.clock := by
  constructor
  · intro h id
    unfold clock clockOf
    cases hl : lookup w.counters id with
    | none => exact bot_le
    | some x =>
      obtain ⟨c, hc, rfl, rfl⟩ := exists_of_lookup hl
      obtain ⟨d, hd, hid, hle⟩ := h c hc
      rw [← hid, lookup_of_mem hv hd]
      exact WithBot.coe_le_coe.mpr (UInt64.le_iff_toNat_le.mp hle)
  · intro h c hc
    have hle := h c.id
    unfold clock clockOf at hle
    rw [lookup_of_mem hw hc] at hle
    cases hl : lookup v.counters c.id with
    | none =>
      rw [hl] at hle
      exact absurd hle (WithBot.not_coe_le_bot _)
    | some x =>
      obtain ⟨d, hd, hid, rfl⟩ := exists_of_lookup hl
      rw [hl] at hle
      exact ⟨d, hd, hid, UInt64.le_iff_toNat_le.mpr (WithBot.coe_le_coe.mp hle)⟩

/-- `contains` compares one entry of the clocks. -/
theorem contains_iff (v w : Version) :
    v.contains w = true ↔ ((w.getBest.value.toNat : ℕ) : WithBot ℕ) ≤ v.clock w.getBest.id := by
  unfold contains clock clockOf
  cases hl : lookup v.counters w.getBest.id with
  | none => exact iff_of_false Bool.false_ne_true (WithBot.not_coe_le_bot _)
  | some x =>
    show decide (w.getBest.value ≤ x) = true ↔ _
    rw [decide_eq_true_iff, UInt64.le_iff_toNat_le]
    exact WithBot.coe_le_coe.symm

/-- The constructor makes a canonical version of a vector with one counter per
device and one largest value. -/
theorem canonical_ofProto {p : Vector} (hu : Unmarked p.counters) (hd : DistinctIds p.counters)
    {d : UInt64} {n : ℕ} (hb : IsBest (clockOf p.counters) d n) :
    Canonical (ofProto p) ∧ (ofProto p).clock = clockOf p.counters := by
  have hproto : (ofProto p).toProto = p := toProto_ofProto hu
  have hclock : (ofProto p).clock = clockOf p.counters := by
    rw [← clockOf_toProto, hproto]
  -- the counter of `d` is the marked one: it is the only one with the largest value
  obtain ⟨x, hx, hxn⟩ : ∃ x, lookup p.counters d = some x ∧ x.toNat = n :=
    Option.map_eq_some_iff.mp hb.eq
  obtain ⟨c, hc, hcd, hcx⟩ := exists_of_lookup hx
  have hval : ∀ c ∈ p.counters, unmark c.value = c.value :=
    fun c hc => unmark_of_not_isMarked (hu c hc)
  obtain ⟨b, hbi, hmax⟩ := bestIndex_spec (List.ne_nil_of_mem hc)
  have hbmem : b ∈ p.counters := List.mem_of_getElem? hbi
  have hblook : clockOf p.counters b.id = (b.value.toNat : ℕ) := by
    unfold clockOf
    rw [lookup_of_mem hd hbmem, hval b hbmem]
    rfl
  have hbd : b.id = d := by
    by_contra hne
    have hlt := hb.lt b.id hne
    have hge : n ≤ b.value.toNat := by
      rw [← hxn, ← hcx, hval c hc]
      exact UInt64.le_iff_toNat_le.mp (hmax c hc)
    rw [hblook] at hlt
    exact absurd (WithBot.coe_lt_coe.mp hlt) (not_lt_of_ge hge)
  have hbn : b.value.toNat = n := by
    have := hb.eq
    rw [← hbd, hblook] at this
    exact WithBot.coe_injective this
  refine ⟨⟨?_, by rw [hproto], ?_⟩, hclock⟩
  · rw [← distinctIds_toProto, hproto]
    exact hd
  · rw [hclock, getBest_ofProto hu hbi, hbd, hbn]
    exact hb

/-! ## What a local edit does to the clock -/

theorem lookup_modify {cs : List Counter} {d : UInt64} {i : Nat}
    (hi : cs.findIdx? (fun c => c.id == d) = some i) (x id : UInt64) :
    lookup (cs.modify i fun c => { c with value := x }) id =
      if id = d then some (unmark x) else lookup cs id := by
  induction cs generalizing i with
  | nil => cases hi
  | cons c cs ih =>
    rw [List.findIdx?_cons] at hi
    by_cases hc : (c.id == d) = true
    · rw [if_pos hc] at hi
      cases hi
      have hcd : c.id = d := by simpa using hc
      by_cases hid : id = d
      · simp [lookup, hcd, hid]
      · have hne : (d == id) = false := by simpa using Ne.symm hid
        simp [lookup, hcd, hid, hne]
    · rw [if_neg hc] at hi
      obtain ⟨j, hj, rfl⟩ := Option.map_eq_some_iff.mp hi
      have hih := ih hj
      unfold lookup at hih ⊢
      rw [List.modify_succ_cons, List.find?_cons, List.find?_cons]
      by_cases hid : (c.id == id) = true
      · have hne : id ≠ d := by
          rintro rfl
          exact hc hid
        simp [hid, hne]
      · rw [Bool.not_eq_true] at hid
        rw [hid]
        exact hih

theorem lookup_append_new {cs : List Counter} {d : UInt64}
    (hd : cs.findIdx? (fun c => c.id == d) = none) (x id : UInt64) :
    lookup (cs ++ [⟨d, x⟩]) id = if id = d then some (unmark x) else lookup cs id := by
  have hnot : ∀ c ∈ cs, (c.id == d) = false := by simpa using hd
  unfold lookup
  rw [List.find?_append]
  by_cases hid : id = d
  · subst hid
    have hnone : cs.find? (fun c => c.id == id) = none := by
      rw [List.find?_eq_none]
      intro c hc
      rw [hnot c hc]
      exact Bool.false_ne_true
    simp [hnone]
  · have hne : (d == id) = false := by simpa using Ne.symm hid
    cases cs.find? (fun c => c.id == id) <;> simp [hid, hne]

/-- A canonical version has counters, one of them marked. -/
theorem Canonical.any_isMarked {v : Version} (hv : Canonical v) :
    v.counters.any (fun c => isMarked c.value) = true := by
  obtain ⟨x, hx, -⟩ : ∃ x, lookup v.counters v.getBest.id = some x ∧
      x.toNat = v.getBest.value.toNat := Option.map_eq_some_iff.mp hv.best.eq
  obtain ⟨c, hc, -, -⟩ := exists_of_lookup hx
  have hne : v.toProto.counters ≠ [] := by
    have : v.toProto.counters.length = v.counters.length := List.length_map _
    intro h
    rw [h] at this
    exact List.ne_nil_of_mem hc (List.length_eq_zero_iff.mp this.symm)
  obtain ⟨b, hb, -⟩ := bestIndex_spec hne
  rw [← hv.ofProto_toProto, List.any_eq_true]
  refine ⟨markCounter b, ?_, isMarked_mark b.value⟩
  refine List.mem_of_getElem? (i := bestIndex v.toProto.counters) ?_
  show (v.toProto.counters.modify _ markCounter)[_]? = _
  rw [List.getElem?_modify, hb]
  simp

/-- An edit exceeds the best counter and the clock. -/
theorem Canonical.nextValue_eq {v : Version} (hv : Canonical v) (now : UInt64) :
    nextValue now v.counters = max (v.getBest.value + 1) now := by
  have hne : v.toProto.counters ≠ [] := by
    intro h
    have hany := hv.any_isMarked
    rw [List.map_eq_nil_iff.mp h] at hany
    cases hany
  obtain ⟨b, hb, -⟩ := bestIndex_spec hne
  have hu := unmarked_toProto v
  have hbest := getBest_ofProto hu hb
  have hnext := nextValue_ofProto hu hb now
  rw [hv.ofProto_toProto] at hbest hnext
  rw [hbest, hnext]

theorem lookup_update {v : Version}
    (hv : v.counters.any (fun c => isMarked c.value) = true ∨ v.counters = [])
    (d now id : UInt64) :
    lookup (update v d now).counters id =
      if id = d then some (unmark (nextValue now v.counters)) else lookup v.counters id := by
  unfold update
  cases hi : v.counters.findIdx? (fun c => c.id == d) with
  | none =>
    dsimp only
    rw [lookup_append_new hi, unmark_mark]
  | some i =>
    have hany : v.counters.any (fun c => isMarked c.value) = true := by
      refine hv.resolve_right fun h => ?_
      rw [h] at hi
      cases hi
    dsimp only
    rw [if_pos hany, lookup_modify hi, unmark_mark]

theorem distinctIds_update {v : Version}
    (hv : v.counters.any (fun c => isMarked c.value) = true ∨ v.counters = [])
    (hd : DistinctIds v.counters) (d now : UInt64) :
    DistinctIds (update v d now).counters := by
  unfold update
  cases hi : v.counters.findIdx? (fun c => c.id == d) with
  | none =>
    have hnot : ∀ c ∈ v.counters, (c.id == d) = false := by simpa using hi
    dsimp only
    unfold DistinctIds
    rw [List.map_append, List.nodup_append]
    refine ⟨hd, List.nodup_cons.mpr ⟨List.not_mem_nil, List.nodup_nil⟩, ?_⟩
    intro a ha b hb
    obtain ⟨c, hc, rfl⟩ := List.mem_map.mp ha
    rw [List.mem_singleton.mp hb]
    exact beq_eq_false_iff_ne.mp (hnot c hc)
  | some i =>
    have hany : v.counters.any (fun c => isMarked c.value) = true := by
      refine hv.resolve_right fun h => ?_
      rw [h] at hi
      cases hi
    dsimp only
    rw [if_pos hany]
    -- only values change, so the list of ids is the same
    have hids : (v.counters.modify i fun c => { c with value := mark (nextValue now v.counters) }).map
        Counter.id = v.counters.map Counter.id := by
      refine List.ext_getElem? fun j => ?_
      rw [List.getElem?_map, List.getElem?_map, List.getElem?_modify]
      cases v.counters[j]? with
      | none => rfl
      | some c => by_cases hj : i = j <;> simp [hj]
    unfold DistinctIds
    rw [hids]
    exact hd

theorem clock_update {v : Version}
    (hv : v.counters.any (fun c => isMarked c.value) = true ∨ v.counters = [])
    (d now : UInt64) :
    (update v d now).clock =
      Function.update v.clock d ((unmark (nextValue now v.counters)).toNat : WithBot ℕ) := by
  funext id
  by_cases hid : id = d
  · subst hid
    rw [Function.update_self]
    unfold clock clockOf
    rw [lookup_update hv, if_pos rfl]
    rfl
  · rw [Function.update_of_ne hid]
    unfold clock clockOf
    rw [lookup_update hv, if_neg hid]

/-- **A local edit**, sent through `to_proto` and the constructor: the clock has
one new event, larger than all values so far. -/
theorem canonical_edit {v : Version}
    (hv : v.counters.any (fun c => isMarked c.value) = true ∨ v.counters = [])
    (hd : DistinctIds v.counters) (d now : UInt64)
    (hlt : ∀ e, v.clock e < (unmark (nextValue now v.counters)).toNat) :
    Canonical (ofProto (update v d now).toProto) ∧
      (ofProto (update v d now).toProto).clock =
        Function.update v.clock d ((unmark (nextValue now v.counters)).toNat : WithBot ℕ) := by
  have hclock : clockOf (update v d now).toProto.counters = _ :=
    (clockOf_toProto _).trans (clock_update hv d now)
  have hdist : DistinctIds (update v d now).toProto.counters :=
    (distinctIds_toProto _).mpr (distinctIds_update hv hd d now)
  obtain ⟨hcan, hc⟩ := canonical_ofProto (unmarked_toProto _) hdist
    (hclock ▸ History.isBest_update (d := d) hlt)
  exact ⟨hcan, hc.trans hclock⟩

/-- An edit of a canonical version exceeds all its values, as long as its value
fits in 63 bits. -/
theorem Canonical.clock_lt_nextValue {v : Version} (hv : Canonical v) {now : UInt64}
    (hnow : now.toNat < 2 ^ 63) (hbest : v.getBest.value.toNat + 1 < 2 ^ 63) (e : UInt64) :
    v.clock e < (unmark (nextValue now v.counters)).toNat := by
  have hone : (v.getBest.value + 1).toNat = v.getBest.value.toNat + 1 := by
    have h1 : (1 : UInt64).toNat = 1 := rfl
    rw [UInt64.toNat_add, h1]
    exact Nat.mod_eq_of_lt (by omega)
  have hnext : (unmark (nextValue now v.counters)).toNat =
      max (v.getBest.value.toNat + 1) now.toNat := by
    rw [unmark_toNat, hv.nextValue_eq, UInt64.toNat_max, hone]
    exact Nat.mod_eq_of_lt (max_lt hbest hnow)
  refine lt_of_le_of_lt (hv.best.le e) (WithBot.coe_lt_coe.mpr ?_)
  rw [hnext]
  exact lt_of_lt_of_le (Nat.lt_succ_self _) (le_max_left _ _)

end Version

/-! ## The runs -/

/-- The local record of each device and every record that was ever announced. -/
structure Net where
  current : UInt64 → Option FileInfo
  seen : List FileInfo

namespace Net

/-- What a device can do about the file.

- `localUpdate`: the scanner found a new or changed file (or its removal) at a
  clock reading; `found` is what it read from the disk;
- `original`: the scanner found exactly the file some peer has announced
  (`local_update_t::get_original`);
- `advance`: `remote_copy` or `remote_win` of an announced file. -/
inductive Event where
  | localUpdate (d now : UInt64) (found : FileInfo)
  | original (d : UInt64) (remote : FileInfo)
  | advance (d : UInt64) (remote : FileInfo)
  deriving DecidableEq, Repr

/-- Nobody has the file. -/
def init : Net := ⟨fun _ => none, []⟩

/-- The device's new record, announced to everybody. -/
def put (net : Net) (d : UInt64) (f : FileInfo) : Net :=
  ⟨Function.update net.current d (some f), f :: net.seen⟩

/-- The version `local_update_t` gives to the scanned file. -/
def editedVersion (prev : Option FileInfo) (d now : UInt64) : Version :=
  match prev with
  | some f => f.version.update d now
  | none => .ofDevice d now

/-- The local record built from a `proto::FileInfo` with the version `v`. -/
def localRecord (f : FileInfo) (v : Version) : FileInfo :=
  { f with version := .ofProto v.toProto, isLocal := true }

/-- The remote record may replace the local one: the end of `_resolve`. -/
def mayAdvance (net : Net) (d : UInt64) (remote : FileInfo) : Bool :=
  match net.current d with
  | none => true
  | some loc =>
    !(remote.deleted && loc.deleted) && decide (compareByVersion remote loc).TakesRemote

/-- One event. -/
def step (net : Net) : Event → Option Net
  | .localUpdate d now found =>
    some (net.put d
      { localRecord found (editedVersion (net.current d) d now) with modifiedBy := d })
  | .original d remote =>
    if remote ∈ net.seen then some (net.put d (localRecord remote remote.version)) else none
  | .advance d remote =>
    if remote ∈ net.seen ∧ net.mayAdvance d remote = true then
      some (net.put d (localRecord remote remote.version))
    else none

/-- The device's own version is contained in the remote one. -/
def Descends (net : Net) (d : UInt64) (remote : FileInfo) : Prop :=
  ∀ loc ∈ net.current d, remote.version.contains loc.version = true

instance (net : Net) (d : UInt64) (remote : FileInfo) : Decidable (net.Descends d remote) :=
  inferInstanceAs (Decidable (∀ loc ∈ net.current d, _))

/-- The counters stay below the borrowed bit, and only a version that contains
the device's own one is adopted. -/
def Sound (net : Net) : Event → Prop
  | .localUpdate d now _ => now.toNat < 2 ^ 63 ∧
      ∀ loc ∈ net.current d, loc.version.getBest.value.toNat + 1 < 2 ^ 63
  | .original d remote => net.Descends d remote
  | .advance d remote => net.Descends d remote

instance (net : Net) : ∀ e, Decidable (net.Sound e)
  | .localUpdate d now _ => inferInstanceAs (Decidable (now.toNat < 2 ^ 63 ∧
      ∀ loc ∈ net.current d, loc.version.getBest.value.toNat + 1 < 2 ^ 63))
  | .original d remote => inferInstanceAs (Decidable (net.Descends d remote))
  | .advance d remote => inferInstanceAs (Decidable (net.Descends d remote))

/-! ## Refinement of the vector-clock histories -/

/-- The history of the clocks. -/
def history (net : Net) : History UInt64 :=
  ⟨fun d => (net.current d).map fun f => f.version.clock,
    {c | ∃ f ∈ net.seen, f.version.clock = c}⟩

/-- Every announced version is canonical, and the clocks form a history. -/
structure WF (net : Net) : Prop where
  canonical : ∀ f ∈ net.seen, f.version.Canonical
  mem : ∀ d, ∀ f ∈ net.current d, f ∈ net.seen
  inv : net.history.Inv

theorem history_put (net : Net) (d : UInt64) (f : FileInfo) :
    (net.put d f).history = net.history.put d f.version.clock := by
  unfold history put History.put
  congr 1
  · funext e
    by_cases he : e = d
    · subst he
      simp
    · simp [he]
  · ext c
    simp [eq_comm]

theorem wf_init : WF init where
  canonical _ h := nomatch h
  mem _ _ h := nomatch h
  inv := by
    have h : history init = History.init := by
      unfold history init History.init
      congr 1
      ext c
      simp
    rw [h]
    exact History.inv_init

/-- A new record keeps `WF` if its clock is a step of the history. -/
theorem WF.put {net : Net} (hw : WF net) {d : UInt64} {f : FileInfo}
    (hf : f.version.Canonical)
    (hs : net.history.Step (net.history.put d f.version.clock)) : WF (net.put d f) where
  canonical g hg := by
    rcases List.mem_cons.mp hg with rfl | hg
    · exact hf
    · exact hw.canonical g hg
  mem e g hg := by
    by_cases he : e = d
    · subst he
      have : g = f := by simpa [Net.put, eq_comm] using hg
      exact this ▸ List.mem_cons_self ..
    · have hg' : g ∈ net.current e := by simpa [Net.put, he] using hg
      exact List.mem_cons_of_mem _ (hw.mem e g hg')
  inv := by
    rw [history_put]
    exact hw.inv.step hs

/-- A local edit is a new event of its device. -/
theorem WF.localUpdate {net : Net} (hw : WF net) {d now : UInt64} {found : FileInfo}
    (hs : net.Sound (.localUpdate d now found)) {f : FileInfo}
    (hf : f.version = .ofProto (editedVersion (net.current d) d now).toProto) :
    WF (net.put d f) := by
  obtain ⟨hnow, hbest⟩ := hs
  cases hcur : net.current d with
  | none =>
    rw [hcur] at hf
    have hbot : (⟨[]⟩ : Version).clock = ⊥ := rfl
    obtain ⟨hcan, hclock⟩ := Version.canonical_edit (v := ⟨[]⟩) (.inr rfl) List.nodup_nil d now
      fun e => WithBot.bot_lt_coe _
    rw [hbot] at hclock
    refine hw.put (hf ▸ hcan) ?_
    rw [hf]
    show History.Step _ (net.history.put d (Version.ofProto (Version.update ⟨[]⟩ d now).toProto).clock)
    rw [hclock]
    exact .create (by simp [history, hcur])
  | some loc =>
    rw [hcur] at hf
    have hmem : loc ∈ net.seen := hw.mem d loc hcur
    have hloc := hw.canonical loc hmem
    have hlt := hloc.clock_lt_nextValue hnow (hbest loc hcur)
    obtain ⟨hcan, hclock⟩ := Version.canonical_edit (.inl hloc.any_isMarked) hloc.distinct d now hlt
    refine hw.put (hf ▸ hcan) ?_
    rw [hf]
    show History.Step _ (net.history.put d (Version.ofProto (loc.version.update d now).toProto).clock)
    rw [hclock]
    exact .update (by simp [history, hcur]) hlt

/-- Adopting a version that contains the own one. -/
theorem WF.adopt {net : Net} (hw : WF net) {d : UInt64} {remote : FileInfo}
    (hseen : remote ∈ net.seen) (hs : net.Descends d remote) :
    WF (net.put d (localRecord remote remote.version)) := by
  have hcan := hw.canonical remote hseen
  have hv : (localRecord remote remote.version).version = remote.version := hcan.ofProto_toProto
  have hcan' : (localRecord remote remote.version).version.Canonical := by
    rw [hv]
    exact hcan
  refine hw.put hcan' ?_
  rw [hv]
  refine .adopt ⟨remote, hseen, rfl⟩ ?_
  intro c hc
  obtain ⟨loc, hloc, rfl⟩ := Option.map_eq_some_iff.mp hc
  have hlmem := hw.mem d loc hloc
  have hle := (Version.contains_iff _ _).mp (hs loc hloc)
  exact (hw.inv.le_iff ⟨remote, hseen, rfl⟩ ⟨loc, hlmem, rfl⟩ (hw.canonical loc hlmem).best).mpr hle

/-- **Step**: a sound event keeps `WF`. -/
theorem WF.step {net net' : Net} {e : Event} (hw : WF net) (hs : net.Sound e)
    (h : net.step e = some net') : WF net' := by
  cases e with
  | localUpdate d now found =>
    cases h
    exact hw.localUpdate hs rfl
  | original d remote =>
    simp only [Net.step] at h
    split at h
    · rename_i hseen
      cases h
      exact hw.adopt hseen hs
    · cases h
  | advance d remote =>
    simp only [Net.step] at h
    split at h
    · rename_i hseen
      cases h
      exact hw.adopt hseen.1 hs
    · cases h

/-- In a well-formed net `contains` is domination. -/
theorem WF.contains_dominates {net : Net} (hw : WF net) {f g : FileInfo}
    (hf : f ∈ net.seen) (hg : g ∈ net.seen) :
    f.version.contains g.version = true ↔ f.version.Dominates g.version := by
  rw [Version.contains_iff,
    Version.dominates_iff (hw.canonical f hf).distinct (hw.canonical g hg).distinct]
  exact (hw.inv.le_iff ⟨f, hf, rfl⟩ ⟨g, hg, rfl⟩ (hw.canonical g hg).best).symm

/-- **Run**: every net reached by sound events is well formed. -/
theorem wf_of_run {es : List Event} {net : Net} (hs : Run.Meets step Sound init es)
    (hrun : Run.exec step init es = some net) : WF net :=
  Run.exec_inv (fun _ _ _ hw hs h => hw.step hs h) wf_init hs hrun

/-- A plain copy is only made of a version that contains the local one, or over
a deleted file. -/
theorem contains_of_remoteCopy {f g : FileInfo} (hf : f.version.Canonical)
    (h : compareByVersion f g = .remoteCopy) :
    g.deleted = true ∨ f.version.contains g.version = true := by
  by_cases hid : f.version.getBest.id = g.version.getBest.id
  · -- the best counters are of one device, and the remote one is larger
    right
    have hlt : g.version.getBest.value < f.version.getBest.value := by
      rw [compareByVersion, if_pos hid] at h
      by_contra hge
      rw [if_neg hge] at h
      split at h <;> cases h
    rw [Version.contains_iff, ← hid, hf.best.eq]
    exact WithBot.coe_le_coe.mpr (UInt64.lt_iff_toNat_lt.mp hlt).le
  · rw [compareByVersion, if_neg hid] at h
    cases hc : f.version.contains g.version with
    | true => exact .inr rfl
    | false =>
      left
      by_contra hdel
      simp only [hc, Bool.not_eq_true] at h hdel
      simp only [hdel] at h
      revert h
      simp only [Bool.not_false, Bool.true_and, Bool.and_false, Bool.false_eq_true, if_false]
      repeat' split
      all_goals
        intro h
        cases h

/-- **The fast version test**: in every run of sound events, over any number of
devices and with any clocks, `contains` holds of two announced versions iff one
dominates the other; so an edit that is not deleted is copied over only by a
version that has it in its past. -/
theorem contains_iff_dominates (es : List Event) (net : Net)
    (hs : Run.Meets step Sound init es) (hrun : Run.exec step init es = some net)
    (f g : FileInfo) (hf : f ∈ net.seen) (hg : g ∈ net.seen) :
    (f.version.contains g.version = true ↔ f.version.Dominates g.version) ∧
      (compareByVersion f g = .remoteCopy → g.deleted = true ∨ f.version.Dominates g.version) := by
  have hw := wf_of_run hs hrun
  have hiff := hw.contains_dominates hf hg
  refine ⟨hiff, fun h => ?_⟩
  rw [← hiff]
  exact contains_of_remoteCopy (hw.canonical f hf) h

/-- What the scanner finds: a regular file with a modification time. -/
def scannedAt (modifiedS : Int) : FileInfo :=
  { (default : FileInfo) with modifiedS := modifiedS }

/-- The record a device announces after its own edit. -/
def record (d : UInt64) (counters : List Counter) (modifiedS : Int) : FileInfo :=
  { received ⟨counters⟩ modifiedS with modifiedBy := d, isLocal := true }

/-- Device 1 creates the file, device 2 copies and edits it. -/
theorem contains_iff_dominates_edit_of_copy :
    let es := [.localUpdate 1 10 (scannedAt 100), .advance 2 (record 1 [⟨1, 10⟩] 100),
      .localUpdate 2 5 (scannedAt 101)]
    let f := record 2 [⟨1, 10⟩, ⟨2, 11⟩] 101
    let g := record 1 [⟨1, 10⟩] 100
    ∃ net, Run.exec step init es = some net ∧ f ∈ net.seen ∧ g ∈ net.seen ∧
      (f.version.contains g.version = true ↔ f.version.Dominates g.version) := by
  refine ⟨_, rfl, by decide, by decide, ?_⟩
  exact (contains_iff_dominates
    [.localUpdate 1 10 (scannedAt 100), .advance 2 (record 1 [⟨1, 10⟩] 100),
      .localUpdate 2 5 (scannedAt 101)] _ (by decide) rfl _ _ (by decide) (by decide)).1

/-- Device 3 creates a file, its clock far ahead. Device 1 copies and edits it,
and device 4 copies the edit. Before device 3 hears of that, it loses to a later
file of device 2, whose clock is behind; device 1 follows device 3 and drops its
own counter with the edit. No device's clock ever runs backwards. -/
def droppedCounter : List Event :=
  [.localUpdate 3 104 (scannedAt 100),
   .advance 1 (record 3 [⟨3, 104⟩] 100),
   .localUpdate 1 10 (scannedAt 101),
   .advance 4 (record 1 [⟨3, 104⟩, ⟨1, 105⟩] 101),
   .localUpdate 2 50 (scannedAt 102),
   .advance 3 (record 2 [⟨2, 50⟩] 102),
   .advance 1 (record 2 [⟨2, 50⟩] 102),
   .localUpdate 1 12 (scannedAt 103)]

/-- The next edit of device 1 gets a smaller value than its first one. Device 4
still has the first edit: it contains the second one without dominating it, and
device 1 copies it over its own newer edit. -/
theorem overwritten_of_droppedCounter :
    let f := record 1 [⟨3, 104⟩, ⟨1, 105⟩] 101
    let g := record 1 [⟨2, 50⟩, ⟨1, 51⟩] 103
    ∃ net, Run.exec step init droppedCounter = some net ∧
      net.current 4 = some f ∧ net.current 1 = some g ∧ f ∈ net.seen ∧ g ∈ net.seen ∧
      f.version.contains g.version = true ∧ ¬ f.version.Dominates g.version ∧
      g.deleted = false ∧ compareByVersion f g = .remoteCopy := by
  refine ⟨_, rfl, ?_⟩
  decide

end Net

end SyncSpirit
