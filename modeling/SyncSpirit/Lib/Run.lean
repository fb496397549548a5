import Mathlib

/-!
# Runs of a partial step function

A system that takes one event at a time. A step returns `none` when the event is
not possible in the state. `Meets` says that every event of a run satisfies a
condition on the state it is taken in, and `exec_inv` is the induction rule: an
invariant that every such step keeps holds at the end of every such run, and by `exec_total`
such a run does not stop; `exec_sim` is the rule for two systems. Where a step
keeps what is said about the past exactly if it meets the condition, `meets_iff` says
the same of runs; `meets_iff_good` does where what is kept is about the state alone.
-/

namespace Run

variable {σ ε : Type*} (step : σ → ε → Option σ)

/-- Take the events one after another. -/
def exec : σ → List ε → Option σ
  | s, [] => some s
  | s, e :: es => (step s e).bind fun s' => exec s' es

theorem exec_append (s : σ) (es es' : List ε) :
    exec step s (es ++ es') = (exec step s es).bind fun t => exec step t es' := by
  induction es generalizing s with
  | nil => rfl
  | cons e es ih =>
    show (step s e).bind _ = ((step s e).bind _).bind _
    rw [Option.bind_assoc]
    exact congrArg _ (funext ih)

/-- Every event of the run meets the condition where it is taken. -/
def Meets (cond : σ → ε → Prop) : σ → List ε → Prop
  | _, [] => True
  | s, e :: es => cond s e ∧ ∀ s' ∈ step s e, Meets cond s' es

instance Meets.decidable (cond : σ → ε → Prop) [∀ s e, Decidable (cond s e)] :
    ∀ (s : σ) (es : List ε), Decidable (Meets step cond s es)
  | _, [] => inferInstanceAs (Decidable True)
  | s, e :: es =>
    have : ∀ s', Decidable (Meets step cond s' es) := fun s' => Meets.decidable cond s' es
    inferInstanceAs (Decidable (cond s e ∧ ∀ s' ∈ step s e, Meets step cond s' es))

variable {step} {cond cond' : σ → ε → Prop} {inv : σ → Prop}

theorem Meets.and : ∀ {es : List ε} {s : σ}, Meets step cond s es → Meets step cond' s es →
    Meets step (fun s e => cond s e ∧ cond' s e) s es := by
  intro es
  induction es with
  | nil => exact fun _ _ => trivial
  | cons e es ih => exact fun h h' => ⟨⟨h.1, h'.1⟩, fun t ht => ih (h.2 t ht) (h'.2 t ht)⟩

theorem Meets.left {es' : List ε} : ∀ {es : List ε} {s : σ}, Meets step cond s (es ++ es') → Meets step cond s es := by
  intro es
  induction es with
  | nil => exact fun _ => trivial
  | cons e es ih => exact fun h => ⟨h.1, fun t ht => ih (h.2 t ht)⟩

theorem meets_of_forall (h : ∀ s e, cond s e) : ∀ {es : List ε} {s : σ}, Meets step cond s es := by
  intro es
  induction es with
  | nil => exact trivial
  | cons e es ih => exact ⟨h _ e, fun _ _ => ih⟩

/-- A condition that implies another one where the invariant holds, which its steps keep. -/
theorem Meets.mono (himp : ∀ s e, inv s → cond s e → cond' s e)
    (hstep : ∀ s e s', inv s → cond s e → step s e = some s' → inv s') :
    ∀ {es : List ε} {s : σ}, inv s → Meets step cond s es → Meets step cond' s es := by
  intro es
  induction es with
  | nil => exact fun _ _ => trivial
  | cons e es ih =>
    rintro s hs ⟨hcond, hrest⟩
    exact ⟨himp s e hs hcond, fun t ht => ih (hstep s e t hs hcond ht) (hrest t ht)⟩

/-- Two conditions that agree where the invariant holds, which a step that meets them keeps. -/
theorem meets_congr (hiff : ∀ s e, inv s → (cond s e ↔ cond' s e))
    (hstep : ∀ s e s', inv s → cond s e → step s e = some s' → inv s') {es : List ε} {s : σ} (hs : inv s) :
    Meets step cond s es ↔ Meets step cond' s es :=
  ⟨Meets.mono (fun s e h => (hiff s e h).mp) hstep hs,
    Meets.mono (fun s e h => (hiff s e h).mpr) (fun s e t h hcond => hstep s e t h ((hiff s e h).mpr hcond)) hs⟩

/-- What every step keeps, every run keeps. -/
theorem exec_inv (hstep : ∀ s e s', inv s → cond s e → step s e = some s' → inv s') :
    ∀ {es : List ε} {s s' : σ}, inv s → Meets step cond s es → exec step s es = some s' →
      inv s' := by
  intro es
  induction es with
  | nil =>
    intro s s' hs _ hrun
    cases hrun
    exact hs
  | cons e es ih =>
    intro s s' hs hmeets hrun
    obtain ⟨t, ht, hrest⟩ := Option.bind_eq_some_iff.mp hrun
    exact ih (hstep s e t hs hmeets.1 ht) (hmeets.2 t ht) hrest

/-- Where a step that meets the condition is possible and keeps the invariant, so is a run. -/
theorem exec_total (hstep : ∀ s e, inv s → cond s e → ∃ s', step s e = some s' ∧ inv s') :
    ∀ {es : List ε} {s : σ}, inv s → Meets step cond s es → ∃ s', exec step s es = some s' ∧ inv s' := by
  intro es
  induction es with
  | nil => exact fun hs _ => ⟨_, rfl, hs⟩
  | cons e es ih =>
    intro s hs hmeets
    obtain ⟨t, ht, hinv⟩ := hstep s e hs hmeets.1
    obtain ⟨s', hs', hinv'⟩ := ih hinv (hmeets.2 t ht)
    refine ⟨s', ?_, hinv'⟩
    show (step s e).bind _ = _
    rw [ht]
    exact hs'

/-- **Simulation**: where another system takes every such step too, it takes every such run. -/
theorem exec_sim {τ : Type*} {step' : τ → ε → Option τ} {R : σ → τ → Prop}
    (hstep : ∀ s u e s', R s u → cond s e → step s e = some s' → ∃ u', step' u e = some u' ∧ R s' u') :
    ∀ {es : List ε} {s s' : σ} {u : τ}, R s u → Meets step cond s es → exec step s es = some s' →
      ∃ u', exec step' u es = some u' ∧ R s' u' := by
  intro es
  induction es with
  | nil =>
    intro s s' u hs _ hrun
    cases hrun
    exact ⟨u, rfl, hs⟩
  | cons e es ih =>
    intro s s' u hs hmeets hrun
    obtain ⟨t, ht, hrest⟩ := Option.bind_eq_some_iff.mp hrun
    obtain ⟨v, hv, hR⟩ := hstep s u e t hs hmeets.1 ht
    obtain ⟨u', hu', hR'⟩ := ih hR (hmeets.2 t ht) hrest
    exact ⟨u', Option.bind_eq_some_iff.mpr ⟨v, hv, hu'⟩, hR'⟩

/-- A state is left good by exactly the steps that meet the condition, and nothing makes it good again. -/
theorem meets_iff_good {good : σ → Prop} (hinv : ∀ s e s', inv s → step s e = some s' → inv s')
    (hgood : ∀ s e s', inv s → step s e = some s' → (good s' ↔ good s ∧ cond s e)) :
    ∀ {es : List ε} {s s' : σ}, inv s → exec step s es = some s' → (good s' ↔ good s ∧ Meets step cond s es) := by
  intro es
  induction es with
  | nil =>
    intro s s' _ hrun
    cases hrun
    exact (and_iff_left trivial).symm
  | cons e es ih =>
    intro s s' hs hrun
    obtain ⟨t, ht, hrest⟩ := Option.bind_eq_some_iff.mp hrun
    rw [ih (hinv s e t hs ht) hrest, hgood s e t hs ht, and_assoc]
    refine and_congr_right fun _ => and_congr_right fun _ => ⟨fun h u hu => ?_, fun h => h t ht⟩
    rw [ht] at hu
    cases hu
    exact h

/-- **Exactly the runs that meet the condition**: `P` relates the past to the state, and a step
keeps it exactly if it meets the condition. -/
theorem meets_iff {P : List ε → σ → Prop}
    (hstep : ∀ done s e s', P done s → step s e = some s' → (P (done ++ [e]) s' ↔ cond s e))
    (hnone : ∀ done s e, P done s → step s e = none → cond s e) :
    ∀ {es done : List ε} {s : σ}, P done s → (Meets step cond s es ↔
      ∀ es' t, es' <+: es → exec step s es' = some t → P (done ++ es') t) := by
  intro es
  induction es with
  | nil =>
    intro done s hs
    refine ⟨fun _ es' t hes' ht => ?_, fun _ => trivial⟩
    rw [List.prefix_nil.mp hes'] at ht ⊢
    cases ht
    rwa [List.append_nil]
  | cons e es ih =>
    intro done s hs
    constructor
    · rintro ⟨hcond, hmeets⟩ es' t hes' ht
      rcases List.prefix_cons_iff.mp hes' with rfl | ⟨rest, rfl, hrest⟩
      · cases ht
        rwa [List.append_nil]
      · obtain ⟨mid, hmid, ht⟩ := Option.bind_eq_some_iff.mp ht
        have hP := (ih ((hstep _ _ _ _ hs hmid).mpr hcond)).mp (hmeets mid hmid) rest t hrest ht
        rwa [List.append_assoc] at hP
    · intro hall
      have hnext : ∀ mid, step s e = some mid → P (done ++ [e]) mid := by
        intro mid hmid
        refine hall [e] mid ⟨es, rfl⟩ ?_
        show (step s e).bind _ = _
        rw [hmid]
        rfl
      refine ⟨?_, fun mid hmid => (ih (hnext mid hmid)).mpr fun rest t hrest ht => ?_⟩
      · cases hmid : step s e with
        | none => exact hnone done s e hs hmid
        | some mid => exact (hstep _ _ _ _ hs hmid).mp (hnext mid hmid)
      · have hP := hall (e :: rest) t (List.cons_prefix_cons.mpr ⟨rfl, hrest⟩) ?_
        · rwa [List.append_assoc]
        · show (step s e).bind _ = _
          rw [hmid]
          exact ht

end Run
