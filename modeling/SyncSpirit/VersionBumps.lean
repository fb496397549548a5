import SyncSpirit.VersionHistory

/-!
# Versions over their whole history (`model/version.cpp`)

A version is made of a vector or of a device and then bumped by `update`, again and again.
`update` marks the counter it writes and leaves the old marks where they are, while `get_best`
takes the last mark. So all is well as long as the marks come in the order of the values:
a device must not be bumped while a mark stands behind its counter.

- `LastBest`: the last marked counter is the first largest one;
- `Bumped`: what an update is for; `Sound`: the best counter of a version, and that it can be
  stored;
- `bumps_iff`: exactly the histories whose events `Fits` are sound.
-/

namespace SyncSpirit

open Proto (Counter Vector)

namespace Version

/-- `version_t::get_counters`. The copy without the marks is made and dropped. -/
def getCounters (v : Version) : List Counter := v.counters

/-- Stored and loaded, a version shows the same counters if one of them is marked, the first
largest one. -/
theorem getCounters_ofProto_toProto_iff (v : Version) :
    (ofProto v.toProto).getCounters = v.getCounters ↔ v.OneBest := by
  rw [← ofProto_toProto_iff]
  refine ⟨fun h => ?_, congrArg getCounters⟩
  cases v
  exact congrArg Version.mk h

/-! ## What is read from the marks -/

theorem getBest_append (before after : List Counter) (hafter : ∃ c ∈ after, isMarked c.value = true) :
    ∃ c ∈ after, isMarked c.value = true ∧ (⟨before ++ after⟩ : Version).getBest = ⟨c.id, unmark c.value⟩ := by
  induction after using List.reverseRecOn with
  | nil =>
    obtain ⟨c, hc, -⟩ := hafter
    cases hc
  | append_singleton after last ih =>
    have hfold : (⟨before ++ (after ++ [last])⟩ : Version).getBest =
        if isMarked last.value then ⟨last.id, unmark last.value⟩ else (⟨before ++ after⟩ : Version).getBest := by
      rw [getBest, ← List.append_assoc, List.foldl_append]
      rfl
    by_cases hlast : isMarked last.value = true
    · exact ⟨last, by simp, hlast, by rw [hfold, if_pos hlast]⟩
    · have hrest : ∃ c ∈ after, isMarked c.value = true := by
        obtain ⟨c, hc, hmarked⟩ := hafter
        rcases List.mem_append.mp hc with hc | hc
        · exact ⟨c, hc, hmarked⟩
        · rw [List.mem_singleton.mp hc] at hmarked
          exact absurd hmarked hlast
      obtain ⟨c, hc, hmarked, hbest⟩ := ih hrest
      exact ⟨c, List.mem_append_left _ hc, hmarked, by rw [hfold, if_neg hlast, hbest]⟩

/-- The last mark is the best one. -/
theorem getBest_of_last {before after : List Counter} {c : Counter} (hmarked : isMarked c.value = true)
    (hafter : Unmarked after) : (⟨before ++ c :: after⟩ : Version).getBest = ⟨c.id, unmark c.value⟩ := by
  rw [getBest, List.foldl_append, List.foldl_cons, if_pos hmarked,
    foldl_unmarked (fun _ c => (⟨c.id, unmark c.value⟩ : Counter)) after _ hafter]

theorem getBest_lt (v : Version) : v.getBest.value.toNat < 2 ^ 63 := by
  have hgen : ∀ (cs : List Counter) (r : Counter), r.value.toNat < 2 ^ 63 →
      (cs.foldl (fun r c => if isMarked c.value then ⟨c.id, unmark c.value⟩ else r) r).value.toNat < 2 ^ 63 := by
    intro cs
    induction cs with
    | nil => exact fun _ h => h
    | cons c cs ih =>
      intro r hr
      rw [List.foldl_cons]
      refine ih _ ?_
      split
      · show (unmark c.value).toNat < _
        rw [unmark_toNat]
        omega
      · exact hr
  exact hgen _ _ (by decide)

theorem unmark_lt (x : UInt64) : (unmark x).toNat < 2 ^ 63 := by
  rw [unmark_toNat]
  omega

theorem unmark_succ (x : UInt64) : (unmark x + 1).toNat = (unmark x).toNat + 1 := by
  have hlt := unmark_lt x
  have hone : (1 : UInt64).toNat = 1 := rfl
  rw [UInt64.toNat_add, hone]
  exact Nat.mod_eq_of_lt (by omega)

/-- The next value: the clock, or the successor of a marked one, and none of them is larger. -/
theorem nextValue_spec (cs : List Counter) : ∀ now : UInt64,
    now.toNat ≤ (nextValue now cs).toNat ∧
      (∀ c ∈ cs, isMarked c.value = true → (unmark c.value).toNat + 1 ≤ (nextValue now cs).toNat) ∧
      (nextValue now cs = now ∨ ∃ c ∈ cs, (nextValue now cs).toNat = (unmark c.value).toNat + 1) := by
  induction cs with
  | nil => exact fun now => ⟨le_rfl, fun c hc => absurd hc List.not_mem_nil, .inl rfl⟩
  | cons d ds ih =>
    intro now
    have hcons : nextValue now (d :: ds) =
        nextValue (if isMarked d.value then max (unmark d.value + 1) now else now) ds := rfl
    rw [hcons]
    by_cases hd : isMarked d.value = true
    · rw [if_pos hd]
      obtain ⟨hnow, hle, heq⟩ := ih (max (unmark d.value + 1) now)
      rw [UInt64.toNat_max, unmark_succ] at hnow
      refine ⟨by omega, fun c hc hmarked => ?_, ?_⟩
      · rcases List.mem_cons.mp hc with rfl | hc
        · omega
        · exact hle c hc hmarked
      · rcases heq with heq | ⟨c, hc, heq⟩
        · rcases le_total (unmark d.value + 1).toNat now.toNat with hmax | hmax
          · refine Or.inl (UInt64.toNat_inj.mp ?_)
            rw [heq, UInt64.toNat_max, max_eq_right hmax]
          · refine Or.inr ⟨d, List.mem_cons_self .., ?_⟩
            rw [heq, UInt64.toNat_max, max_eq_left hmax, unmark_succ]
        · exact Or.inr ⟨c, List.mem_cons_of_mem _ hc, heq⟩
    · rw [if_neg hd]
      obtain ⟨hnow, hle, heq⟩ := ih now
      refine ⟨hnow, fun c hc hmarked => ?_, heq.imp_right fun h => ?_⟩
      · rcases List.mem_cons.mp hc with rfl | hc
        · exact absurd hmarked hd
        · exact hle c hc hmarked
      · obtain ⟨c, hc, h⟩ := h
        exact ⟨c, List.mem_cons_of_mem _ hc, h⟩

/-! ## The last mark on the first largest counter -/

/-- The last marked counter is the first largest one. -/
def LastBest (cs : List Counter) : Prop :=
  ∃ before best after, cs = before ++ best :: after ∧ isMarked best.value = true ∧ Unmarked after ∧
    (∀ c ∈ before, (unmark c.value).toNat < (unmark best.value).toNat) ∧
    ∀ c ∈ after, (unmark c.value).toNat ≤ (unmark best.value).toNat

/-- `best` is a largest one of the counters. -/
def BestOf (cs : List Counter) (best : Counter) : Prop :=
  best ∈ cs ∧ ∀ c ∈ cs, c.value ≤ best.value

/-- The first largest counter is where the constructor looks for it. -/
theorem bestIndex_eq {before after : List Counter} {c : Counter}
    (hbefore : ∀ d ∈ before, d.value < c.value) (hafter : ∀ d ∈ after, d.value ≤ c.value) :
    bestIndex (before ++ c :: after) = before.length := by
  obtain ⟨b, hb, hmax, hfirst⟩ := bestIndex_first (l := before ++ c :: after) (by simp)
  have hc : (before ++ c :: after)[before.length]? = some c := by simp
  rcases lt_trichotomy (bestIndex (before ++ c :: after)) before.length with hlt | heq | hgt
  · rw [List.getElem?_append_left hlt] at hb
    have hbc := hbefore b (List.mem_of_getElem? hb)
    exact absurd (hmax c (by simp)) (UInt64.not_le.mpr hbc)
  · exact heq
  · have hcb := hfirst _ hgt c hc
    have hmem : b ∈ after := by
      rw [List.getElem?_append_right hgt.le, List.getElem?_cons] at hb
      split at hb
      · omega
      · exact List.mem_of_getElem? hb
    exact absurd (hafter b hmem) (UInt64.not_le.mpr hcb)

/-- What is claimed of a version with these counters: its best one is one of the largest, and stored
and loaded it is the same. -/
structure Sound (cs : List Counter) (v : Version) : Prop where
  best : BestOf cs v.getBest
  counters : (ofProto v.toProto).toProto = v.toProto
  rebuilt : (ofProto v.toProto).getBest = v.getBest

theorem LastBest.sound {v : Version} (h : LastBest v.counters) : Sound v.toProto.counters v := by
  obtain ⟨before, best, after, hcs, hmarked, hunmarked, hbefore, hafter⟩ := h
  have hv : v = ⟨before ++ best :: after⟩ := by
    cases v
    exact congrArg Version.mk hcs
  have hbest : v.getBest = ⟨best.id, unmark best.value⟩ := by
    rw [hv, getBest_of_last hmarked hunmarked]
  let stored : Counter → Counter := fun c => ⟨c.id, unmark c.value⟩
  have hproto : v.toProto.counters = before.map stored ++ stored best :: after.map stored := by
    rw [hv]
    show (before ++ best :: after).map stored = _
    rw [List.map_append, List.map_cons]
  have hlt : ∀ c ∈ before.map stored, c.value < (stored best).value := by
    intro c hc
    obtain ⟨d, hd, rfl⟩ := List.mem_map.mp hc
    exact UInt64.lt_iff_toNat_lt.mpr (hbefore d hd)
  have hle : ∀ c ∈ after.map stored, c.value ≤ (stored best).value := by
    intro c hc
    obtain ⟨d, hd, rfl⟩ := List.mem_map.mp hc
    exact UInt64.le_iff_toNat_le.mpr (hafter d hd)
  refine ⟨⟨?_, fun c hc => ?_⟩, toProto_ofProto (unmarked_toProto v), ?_⟩
  · rw [hbest, hproto]
    simp [stored]
  · rw [hproto] at hc
    rw [hbest]
    rcases List.mem_append.mp hc with hc | hc
    · exact UInt64.le_of_lt (hlt c hc)
    · rcases List.mem_cons.mp hc with rfl | hc
      · exact UInt64.le_refl _
      · exact hle c hc
  · rw [hbest]
    refine getBest_ofProto (unmarked_toProto v) ?_
    rw [hproto, bestIndex_eq hlt hle]
    simp [stored]

/-- The constructor keeps a vector that does not use the borrowed bit, and no other one. -/
theorem lastBest_ofProto {p : Vector} (hne : p.counters ≠ []) (hu : Unmarked p.counters) :
    LastBest (ofProto p).counters := by
  obtain ⟨b, hb, hmax, hfirst⟩ := bestIndex_first hne
  obtain ⟨hlen, hget⟩ := List.getElem?_eq_some_iff.mp hb
  have hplain : ∀ c ∈ p.counters, unmark c.value = c.value := fun c hc => unmark_of_not_isMarked (hu c hc)
  have hbest : unmark (markCounter b).value = b.value := by
    rw [markCounter, unmark_mark, hplain b (List.mem_of_getElem? hb)]
  refine ⟨p.counters.take (bestIndex p.counters), markCounter b, p.counters.drop (bestIndex p.counters + 1),
    ?_, isMarked_mark _, fun c hc => hu c (List.mem_of_mem_drop hc), fun c hc => ?_, fun c hc => ?_⟩
  · rw [← hget]
    exact List.modify_eq_take_cons_drop hlen
  · rw [hbest, hplain c (List.mem_of_mem_take hc)]
    obtain ⟨j, hj, rfl⟩ := List.mem_take_iff_getElem.mp hc
    exact UInt64.lt_iff_toNat_lt.mp (hfirst j (by omega) _ (List.getElem?_eq_getElem _))
  · rw [hbest, hplain c (List.mem_of_mem_drop hc)]
    exact UInt64.le_iff_toNat_le.mp (hmax c (List.mem_of_mem_drop hc))

/-- The constructor is sound exactly for the vectors that leave the borrowed bit alone. -/
theorem sound_ofProto_iff {p : Vector} (hne : p.counters ≠ []) :
    Sound p.counters (ofProto p) ↔ Unmarked p.counters := by
  constructor
  · intro h c hc
    have hle := UInt64.le_iff_toNat_le.mp (h.best.2 c hc)
    have hlt := getBest_lt (ofProto p)
    rw [Bool.eq_false_iff]
    intro hmarked
    have := (isMarked_iff c.value).mp hmarked
    omega
  · intro hu
    have h := (lastBest_ofProto hne hu).sound
    rwa [toProto_ofProto hu] at h

/-! ## An update -/

/-- What is claimed of an update of `v` by the device `d`: the counters of the others stay, that of
the device exceeds all others, reaches the clock and is the best one. -/
structure Bumped (v : Version) (d now : UInt64) (w : Version) : Prop where
  others : w.toProto.counters.filter (fun c => c.id ≠ d) = v.toProto.counters.filter (fun c => c.id ≠ d)
  largest : ∃ value, lookup w.counters d = some value ∧ now ≤ value ∧
    (∀ c ∈ v.toProto.counters, c.value < value) ∧ w.getBest = ⟨d, value⟩

/-- The next value fits in 63 bits, and no mark stands behind the counter of the device. -/
structure Fits (v : Version) (d now : UInt64) : Prop where
  clock : now.toNat < 2 ^ 63
  values : ∀ c ∈ v.counters, (unmark c.value).toNat + 1 < 2 ^ 63
  order : Unmarked (v.counters.dropWhile fun c => c.id != d).tail

/-- The counter of the device is replaced, or a new one comes to the end. -/
theorem update_shape {v : Version} (hv : v.counters.any (fun c => isMarked c.value) = true ∨ v.counters = [])
    (d now : UInt64) : ∃ before after,
      (v.update d now).counters = before ++ ⟨d, mark (nextValue now v.counters)⟩ :: after ∧
      after = (v.counters.dropWhile fun c => c.id != d).tail ∧
      ((v.counters = before ∧ after = []) ∨ ∃ c, c.id = d ∧ v.counters = before ++ c :: after) := by
  unfold update
  cases hi : v.counters.findIdx? (fun c => c.id == d) with
  | none =>
    have hnot : ∀ c ∈ v.counters, (c.id == d) = false := by simpa using hi
    have hdrop : v.counters.dropWhile (fun c => c.id != d) = [] := by
      rw [List.dropWhile_eq_nil_iff]
      intro c hc
      simpa using hnot c hc
    exact ⟨v.counters, [], rfl, by rw [hdrop]; rfl, .inl ⟨rfl, rfl⟩⟩
  | some i =>
    have hany : v.counters.any (fun c => isMarked c.value) = true := by
      refine hv.resolve_right fun h => ?_
      rw [h] at hi
      cases hi
    obtain ⟨hlen, hid, hbefore⟩ := List.findIdx?_eq_some_iff_getElem.mp hi
    have hsplit : v.counters = v.counters.take i ++ v.counters[i] :: v.counters.drop (i + 1) := by
      rw [← List.drop_eq_getElem_cons hlen, List.take_append_drop]
    have hid' : v.counters[i].id = d := by simpa using hid
    have hdrop : v.counters.dropWhile (fun c => c.id != d) = v.counters[i] :: v.counters.drop (i + 1) := by
      refine (congrArg _ hsplit).trans ?_
      rw [List.dropWhile_append_of_pos fun c hc => ?_, List.dropWhile_cons_of_neg (by simp [hid'])]
      obtain ⟨j, hj, rfl⟩ := List.mem_take_iff_getElem.mp hc
      simpa using hbefore j (by omega)
    dsimp only
    rw [if_pos hany]
    refine ⟨v.counters.take i, v.counters.drop (i + 1), ?_, by rw [hdrop]; rfl, .inr ⟨_, hid', hsplit⟩⟩
    show v.counters.modify i _ = _
    rw [List.modify_eq_take_cons_drop hlen, hid']

section Update

variable {v : Version} {d now : UInt64}

/-- A version as this program has it: without counters, or with the last mark on the first largest one. -/
def Kept (v : Version) : Prop := v.counters = [] ∨ LastBest v.counters

theorem Kept.any_isMarked (h : Kept v) :
    v.counters.any (fun c => isMarked c.value) = true ∨ v.counters = [] := by
  rcases h with hnil | ⟨before, best, after, hcs, hmarked, -⟩
  · exact .inr hnil
  · refine .inl (List.any_eq_true.mpr ⟨best, ?_, hmarked⟩)
    rw [hcs]
    simp

/-- The next value exceeds all counters, as the largest one is marked. -/
theorem Kept.lt_nextValue (h : Kept v) (now : UInt64) {c : Counter} (hc : c ∈ v.counters) :
    (unmark c.value).toNat + 1 ≤ (nextValue now v.counters).toNat := by
  rcases h with hnil | ⟨before, best, after, hcs, hmarked, -, hbefore, hafter⟩
  · rw [hnil] at hc
    cases hc
  · have hbest : best ∈ v.counters := by
      rw [hcs]
      simp
    have hnext := (nextValue_spec v.counters now).2.1 best hbest hmarked
    rw [hcs] at hc
    rcases List.mem_append.mp hc with hc | hc
    · have := hbefore c hc
      omega
    · rcases List.mem_cons.mp hc with rfl | hc
      · exact hnext
      · have := hafter c hc
        omega

theorem Fits.nextValue_lt (hf : Fits v d now) : (nextValue now v.counters).toNat < 2 ^ 63 := by
  rcases (nextValue_spec v.counters now).2.2 with heq | ⟨c, hc, heq⟩
  · rw [heq]
    exact hf.clock
  · rw [heq]
    exact hf.values c hc

theorem Fits.unmark_nextValue (hf : Fits v d now) :
    unmark (nextValue now v.counters) = nextValue now v.counters := by
  apply UInt64.toNat_inj.mp
  rw [unmark_toNat, Nat.mod_eq_of_lt hf.nextValue_lt]

/-- **Step**: an update that fits leaves the last mark on the first largest counter. -/
theorem Kept.update (h : Kept v) (hf : Fits v d now) : LastBest (v.update d now).counters := by
  obtain ⟨before, after, hcounters, hafter, hold⟩ := update_shape h.any_isMarked d now
  have hmem : ∀ c, c ∈ before ∨ c ∈ after → c ∈ v.counters := by
    rcases hold with ⟨hcs, hnil⟩ | ⟨c, -, hcs⟩
    · rw [hcs, hnil]
      rintro c (hc | hc)
      · exact hc
      · cases hc
    · rw [hcs]
      rintro c (hc | hc) <;> simp [hc]
  have hvalue : unmark (mark (nextValue now v.counters)) = nextValue now v.counters := by
    rw [unmark_mark, hf.unmark_nextValue]
  refine ⟨before, _, after, hcounters, isMarked_mark _, hafter ▸ hf.order, fun c hc => ?_, fun c hc => ?_⟩
  · rw [hvalue]
    exact h.lt_nextValue now (hmem c (.inl hc))
  · rw [hvalue]
    exact (Nat.le_succ _).trans (h.lt_nextValue now (hmem c (.inr hc)))

/-- The counters of other devices always stay. -/
theorem Kept.others_update (h : Kept v) (d now : UInt64) :
    (v.update d now).toProto.counters.filter (fun c => c.id ≠ d) =
      v.toProto.counters.filter fun c => c.id ≠ d := by
  obtain ⟨before, after, hcounters, -, hold⟩ := update_shape h.any_isMarked d now
  unfold toProto
  rw [hcounters]
  rcases hold with ⟨hcs, hnil⟩ | ⟨c, hid, hcs⟩
  · rw [hcs, hnil]
    simp
  · rw [hcs]
    simp [hid]

/-- **An update does what it is for exactly if it fits.** -/
theorem bumped_iff (h : Kept v) : Bumped v d now (v.update d now) ↔ Fits v d now := by
  obtain ⟨before, after, hcounters, hafter, hold⟩ := update_shape h.any_isMarked d now
  have hlookup : lookup (v.update d now).counters d = some (unmark (nextValue now v.counters)) := by
    rw [lookup_update h.any_isMarked, if_pos rfl]
  have hw : v.update d now = ⟨before ++ ⟨d, mark (nextValue now v.counters)⟩ :: after⟩ := by
    rw [← hcounters]
  constructor
  · rintro ⟨-, value, hvalue, hnow, hlarger, hbest⟩
    rw [hlookup, Option.some.injEq] at hvalue
    have hlt := unmark_lt (nextValue now v.counters)
    have hstored : ∀ c ∈ v.counters, (unmark c.value).toNat < value.toNat := fun c hc =>
      UInt64.lt_iff_toNat_lt.mp (hlarger ⟨c.id, unmark c.value⟩ (List.mem_map_of_mem hc))
    rw [hvalue] at hlt
    refine ⟨(UInt64.le_iff_toNat_le.mp hnow).trans_lt hlt, fun c hc => ?_, fun c hc => ?_⟩
    · have := hstored c hc
      omega
    -- a mark behind the counter would be taken for the best one, with a smaller value
    · rw [Bool.eq_false_iff]
      intro hmarked
      rw [← hafter] at hc
      obtain ⟨c', hc', -, hbest'⟩ := getBest_append (before ++ [⟨d, mark (nextValue now v.counters)⟩]) after
        ⟨c, hc, hmarked⟩
      rw [List.append_assoc, List.singleton_append, ← hw, hbest, Counter.mk.injEq] at hbest'
      have hold' : c' ∈ v.counters := by
        rcases hold with ⟨-, hnil⟩ | ⟨c₀, -, hcs⟩
        · rw [hnil] at hc'
          cases hc'
        · rw [hcs]
          simp [hc']
      have := hstored c' hold'
      rw [← hbest'.2] at this
      exact lt_irrefl _ this
  · intro hf
    refine ⟨h.others_update d now, nextValue now v.counters, ?_, ?_, fun c hc => ?_, ?_⟩
    · rw [hlookup, hf.unmark_nextValue]
    · exact UInt64.le_iff_toNat_le.mpr (nextValue_spec v.counters now).1
    · obtain ⟨e, he, rfl⟩ := List.mem_map.mp hc
      exact UInt64.lt_iff_toNat_lt.mpr (h.lt_nextValue now he)
    · rw [hw, getBest_of_last (isMarked_mark _) (hafter ▸ hf.order), unmark_mark, hf.unmark_nextValue]

end Update

/-! ## Histories -/

/-- What makes a version, or changes one: the two constructors, and `update`. A vector has a counter. -/
inductive Event where
  | construct (p : { p : Vector // p.counters ≠ [] })
  | device (id now : UInt64)
  | update (id now : UInt64)

/-- One event. -/
def step (v : Version) : Event → Option Version
  | .construct p => some (ofProto p)
  | .device id now => some (ofDevice id now)
  | .update id now => some (v.update id now)

/-- `version_t::version_t()`. -/
def init : Version := ⟨[]⟩

/-- What is claimed of an event. -/
def Claimed (v : Version) : Event → Prop
  | .construct p => Sound p.1.counters (ofProto p)
  | .device id now =>
    Bumped init id now (ofDevice id now) ∧ Sound (ofDevice id now).toProto.counters (ofDevice id now)
  | .update id now =>
    Bumped v id now (v.update id now) ∧ Sound (v.update id now).toProto.counters (v.update id now)

/-- When it holds: no value needs the borrowed bit, and no mark stands behind the counter of a device
that is bumped. -/
def Holds (v : Version) : Event → Prop
  | .construct p => Unmarked p.1.counters
  | .device id now => Fits init id now
  | .update id now => Fits v id now

theorem kept_init : Kept init := .inl rfl

/-- One event is as claimed exactly if its condition holds. -/
theorem claimed_iff {v : Version} (h : Kept v) (e : Event) : Claimed v e ↔ Holds v e := by
  cases e with
  | construct p => exact sound_ofProto_iff p.2
  | device id now =>
    exact ⟨fun hc => (bumped_iff kept_init).mp hc.1,
      fun hf => ⟨(bumped_iff kept_init).mpr hf, (kept_init.update hf).sound⟩⟩
  | update id now =>
    exact ⟨fun hc => (bumped_iff h).mp hc.1, fun hf => ⟨(bumped_iff h).mpr hf, (h.update hf).sound⟩⟩

/-- **Step**: an event whose condition holds keeps the last mark on the first largest counter. -/
theorem Kept.step {v w : Version} (h : Kept v) {e : Event} (hh : Holds v e) (hstep : step v e = some w) :
    Kept w := by
  cases e with
  | construct p =>
    cases hstep
    exact .inr (lastBest_ofProto p.2 hh)
  | device id now =>
    cases hstep
    exact .inr (kept_init.update hh)
  | update id now =>
    cases hstep
    exact .inr (h.update hh)

/-- **Version bumps**: in every history of constructions and updates, with any clock readings, all
events are as claimed exactly if all of them meet the condition in the version they meet. -/
theorem bumps_iff (es : List Event) : Run.Meets step Claimed init es ↔ Run.Meets step Holds init es :=
  Run.meets_congr (fun _ e h => claimed_iff h e)
    (fun _ e _ h hc hstep => h.step ((claimed_iff h e).mp hc) hstep) kept_init

/-- The second device edits the file of the first one; then the first one edits it, and the best
counter is still that of the second one. -/
theorem stale_best_of_earlier_counter :
    let v := ((ofDevice 1 10).update 2 5).update 1 5
    v.toProto.counters = [⟨1, 12⟩, ⟨2, 11⟩] ∧ v.getBest = ⟨2, 11⟩ ∧ (ofProto v.toProto).getBest = ⟨1, 12⟩ ∧
      ¬ Run.Meets step Claimed init [.device 1 10, .update 2 5, .update 1 5] := by
  refine ⟨by decide, by decide, by decide, fun h => ?_⟩
  have hsound : Sound _ (((ofDevice 1 10).update 2 5).update 1 5) := ((h.2 _ rfl).2 _ rfl).1.2
  exact absurd hsound.rebuilt (by decide)

end Version

end SyncSpirit
