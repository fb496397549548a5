import Mathlib

/-!
# Vector clocks with a best entry

A clock assigns to every writer the value of its last event in the past of a
version, `⊥` if there is none; clocks are compared pointwise. Every version is
written by one event, its *best* entry, whose value exceeds all others.

`History` is the set of versions that exist and the one each writer works on.
A writer may start a version, add an event to the version it works on, or adopt
an existing version that is at least its own. Along such a history the whole
comparison of two clocks can be read off one entry (`Inv.le_iff`): `w ≤ v` holds
iff `v` has reached the best entry of `w`.

The invariant behind it: every entry of a version was written by a version below
it (`source`), and the events of one writer form a chain (`chain`), because a
writer never leaves the past of its own events (`own`).
-/

namespace VectorClock

variable {ι : Type*}

/-- A clock: the last value of every writer. -/
abbrev Clock (ι : Type*) := ι → WithBot ℕ

/-- `(d, n)` is the entry of `v` that exceeds all others. -/
structure IsBest (v : Clock ι) (d : ι) (n : ℕ) : Prop where
  eq : v d = n
  lt : ∀ e, e ≠ d → v e < n

/-- The versions that exist and the version each writer works on. -/
structure History (ι : Type*) where
  current : ι → Option (Clock ι)
  seen : Set (Clock ι)

namespace History

variable [DecidableEq ι]

/-- Nobody has written anything. -/
def init : History ι := ⟨fun _ => none, ∅⟩

/-- Writer `d` now works on `v`. -/
def put (h : History ι) (d : ι) (v : Clock ι) : History ι :=
  ⟨Function.update h.current d (some v), insert v h.seen⟩

/-- One writer starts, extends or adopts a version. -/
inductive Step (h : History ι) : History ι → Prop
  | create {d : ι} {n : ℕ} (hnone : h.current d = none) :
      Step h (h.put d (Function.update ⊥ d (n : WithBot ℕ)))
  | update {d : ι} {v : Clock ι} {n : ℕ} (hcur : h.current d = some v)
      (hn : ∀ e, v e < n) : Step h (h.put d (Function.update v d (n : WithBot ℕ)))
  | adopt {d : ι} {w : Clock ι} (hw : w ∈ h.seen)
      (hle : ∀ v, h.current d = some v → v ≤ w) : Step h (h.put d w)

/-- The invariant of all histories. -/
structure Inv (h : History ι) : Prop where
  best : ∀ v ∈ h.seen, ∃ d n, IsBest v d n
  source : ∀ v ∈ h.seen, ∀ d (n : ℕ), v d = n → ∃ u ∈ h.seen, IsBest u d n ∧ u ≤ v
  chain : ∀ u ∈ h.seen, ∀ w ∈ h.seen, ∀ d m n, IsBest u d m → IsBest w d n → m ≤ n → u ≤ w
  mem : ∀ d v, h.current d = some v → v ∈ h.seen
  own : ∀ d v, h.current d = some v → ∀ u ∈ h.seen, ∀ n, IsBest u d n → u ≤ v
  fresh : ∀ d, h.current d = none → ∀ u ∈ h.seen, ∀ n, ¬ IsBest u d n

end History

theorem IsBest.le {v : Clock ι} {d : ι} {n : ℕ} (h : IsBest v d n) (e : ι) : v e ≤ n := by
  classical
  by_cases he : e = d
  · rw [he, h.eq]
  · exact (h.lt e he).le

theorem IsBest.unique {v : Clock ι} {d e : ι} {m n : ℕ} (hd : IsBest v d m)
    (he : IsBest v e n) : d = e ∧ m = n := by
  by_cases hde : d = e
  · subst hde
    have : (m : WithBot ℕ) = n := hd.eq.symm.trans he.eq
    exact ⟨rfl, by exact_mod_cast this⟩
  · have h₁ : (m : WithBot ℕ) < n := hd.eq ▸ he.lt d hde
    have h₂ : (n : WithBot ℕ) < m := he.eq ▸ hd.lt e (Ne.symm hde)
    exact absurd h₁ h₂.asymm

namespace History

variable [DecidableEq ι] {h : History ι}

/-- A new event is the best entry of the version it writes. -/
theorem isBest_update {v : Clock ι} {d : ι} {n : ℕ} (hn : ∀ e, v e < n) :
    IsBest (Function.update v d (n : WithBot ℕ)) d n where
  eq := Function.update_self ..
  lt e he := by rw [Function.update_of_ne he]; exact hn e

theorem le_update {v : Clock ι} {d : ι} {n : ℕ} (hn : ∀ e, v e < n) :
    v ≤ Function.update v d (n : WithBot ℕ) := by
  intro e
  by_cases he : e = d
  · subst he; rw [Function.update_self]; exact (hn e).le
  · rw [Function.update_of_ne he]

omit [DecidableEq ι] in
/-- **One entry decides**: `v` is at least `w` iff it has reached the best entry
of `w`. -/
theorem Inv.le_iff (hi : Inv h) {v w : Clock ι} (hv : v ∈ h.seen) (hw : w ∈ h.seen)
    {d : ι} {n : ℕ} (hb : IsBest w d n) : w ≤ v ↔ (n : WithBot ℕ) ≤ v d := by
  constructor
  · intro hle
    rw [← hb.eq]
    exact hle d
  · intro hn
    obtain ⟨m, hm⟩ : ∃ m : ℕ, v d = m := by
      refine Option.ne_none_iff_exists'.mp fun hbot => ?_
      rw [hbot] at hn
      exact WithBot.not_coe_le_bot n hn
    have hnm : n ≤ m := by
      rw [hm] at hn
      exact_mod_cast hn
    obtain ⟨u, hu, hub, huv⟩ := hi.source v hv d m hm
    exact (hi.chain w hw u hu d n m hb hub hnm).trans huv

/-- Putting a version that has a new event, above everything its writer wrote. -/
theorem Inv.put_event (hi : Inv h) {d : ι} {v : Clock ι} {n : ℕ}
    (hn : ∀ e, v e < n) (hown : ∀ u ∈ h.seen, ∀ m, IsBest u d m → u ≤ v)
    (hsrc : ∀ e (m : ℕ), v e = m → ∃ u ∈ h.seen, IsBest u e m ∧ u ≤ v) :
    Inv (h.put d (Function.update v d (n : WithBot ℕ))) := by
  have hnew := isBest_update (d := d) hn
  have hle := le_update (d := d) hn
  -- an older event of `d` has a smaller value than the new one
  have hold : ∀ u ∈ h.seen, ∀ m, IsBest u d m → m < n := by
    intro u hu m hm
    have hlt : (m : WithBot ℕ) < n := by
      rw [← hm.eq]
      exact lt_of_le_of_lt (hown u hu m hm d) (hn d)
    exact_mod_cast hlt
  refine { best := ?_, source := ?_, chain := ?_, mem := ?_, own := ?_, fresh := ?_ }
  · rintro u (rfl | hu)
    · exact ⟨d, n, hnew⟩
    · exact hi.best u hu
  · rintro u (rfl | hu) e m hm
    · by_cases he : e = d
      · subst he
        rw [Function.update_self] at hm
        have hnm : n = m := by exact_mod_cast hm
        subst hnm
        exact ⟨_, Or.inl rfl, hnew, le_refl _⟩
      · rw [Function.update_of_ne he] at hm
        obtain ⟨u, hu, hub, huv⟩ := hsrc e m hm
        exact ⟨u, Or.inr hu, hub, huv.trans hle⟩
    · obtain ⟨w, hw, hwb, hwu⟩ := hi.source u hu e m hm
      exact ⟨w, Or.inr hw, hwb, hwu⟩
  · rintro u (rfl | hu) w (rfl | hw) e k m hk hm hkm
    · exact le_refl _
    · obtain ⟨rfl, rfl⟩ := hnew.unique hk
      exact absurd (hold w hw m hm) (not_lt_of_ge hkm)
    · obtain ⟨rfl, rfl⟩ := hnew.unique hm
      exact (hown u hu k hk).trans hle
    · exact hi.chain u hu w hw e k m hk hm hkm
  · intro e w hw
    by_cases he : e = d
    · subst he
      simp only [put, Function.update_self, Option.some.injEq] at hw
      exact Or.inl hw.symm
    · simp only [put, Function.update_of_ne he] at hw
      exact Or.inr (hi.mem e w hw)
  · intro e w hw u hu m hm
    by_cases he : e = d
    · subst he
      simp only [put, Function.update_self, Option.some.injEq] at hw
      subst hw
      rcases hu with rfl | hu
      · exact le_refl _
      · exact (hown u hu m hm).trans hle
    · simp only [put, Function.update_of_ne he] at hw
      rcases hu with rfl | hu
      · exact absurd (hnew.unique hm).1.symm he
      · exact hi.own e w hw u hu m hm
  · intro e hnone u hu m hm
    by_cases he : e = d
    · subst he
      simp [put] at hnone
    · simp only [put, Function.update_of_ne he] at hnone
      rcases hu with rfl | hu
      · exact absurd (hnew.unique hm).1.symm he
      · exact hi.fresh e hnone u hu m hm

/-- Adopting an existing version above one's own adds no version. -/
theorem Inv.put_adopt (hi : Inv h) {d : ι} {w : Clock ι} (hw : w ∈ h.seen)
    (hle : ∀ v, h.current d = some v → v ≤ w) : Inv (h.put d w) := by
  have hseen : (h.put d w).seen = h.seen := Set.insert_eq_of_mem hw
  have hcur : ∀ e, e ≠ d → (h.put d w).current e = h.current e :=
    fun e he => Function.update_of_ne he ..
  refine { best := ?_, source := ?_, chain := ?_, mem := ?_, own := ?_, fresh := ?_ } <;>
    rw [hseen]
  · exact hi.best
  · exact hi.source
  · exact hi.chain
  · intro e v hv
    by_cases he : e = d
    · subst he
      simp only [put, Function.update_self, Option.some.injEq] at hv
      exact hv ▸ hw
    · exact hi.mem e v (hcur e he ▸ hv)
  · intro e v hv u hu n hn
    by_cases he : e = d
    · subst he
      simp only [put, Function.update_self, Option.some.injEq] at hv
      subst hv
      cases hc : h.current e with
      | none => exact absurd hn (hi.fresh e hc u hu n)
      | some v => exact (hi.own e v hc u hu n hn).trans (hle v hc)
    · exact hi.own e v (hcur e he ▸ hv) u hu n hn
  · intro e hnone
    by_cases he : e = d
    · subst he
      simp [put] at hnone
    · exact hi.fresh e (hcur e he ▸ hnone)

omit [DecidableEq ι] in
theorem inv_init : Inv (init : History ι) where
  best _ hv := hv.elim
  source _ hv := hv.elim
  chain _ hu := hu.elim
  mem _ _ hv := by cases hv
  own _ _ hv := by cases hv
  fresh _ _ _ hu := hu.elim

/-- Every step keeps the invariant. -/
theorem Inv.step {h' : History ι} (hi : Inv h) (hs : Step h h') : Inv h' := by
  cases hs with
  | create hnone =>
    refine hi.put_event (fun e => WithBot.bot_lt_coe _) ?_ ?_
    · intro u hu m hm
      exact absurd hm (hi.fresh _ hnone u hu m)
    · intro e m hm
      exact absurd hm.symm (WithBot.coe_ne_bot)
  | update hcur hn =>
    exact hi.put_event hn (hi.own _ _ hcur) (hi.source _ (hi.mem _ _ hcur))
  | adopt hw hle => exact hi.put_adopt hw hle

end History

end VectorClock
