import Mathlib

/-!
# Moving everything below a path

A path is a list in which a separator stands between the parts. `rest old path` is what `path` has behind
`old` if it is `old` or something below it, and `rename old new` moves what is there, of things that are
at some path or nowhere. What has been at `new` is nowhere afterwards.

`Free` is what a new path has to be. Then no two things come to be at one path (`injective_rename`), and
the paths that are left and those that are taken differ (`Free.rest_moved`).
-/

namespace Relocation

variable {α κ : Type*} [DecidableEq α] (sep : α)

/-- What is behind a path, if the other one is this path or below it. -/
def rest (old path : List α) : Option (List α) :=
  if old <+: path ∧ (path.drop old.length = [] ∨ (path.drop old.length).head? = some sep) then
    some (path.drop old.length)
  else none

/-- The places after everything at and below `old` has been moved to `new`. -/
def rename (old new : List α) (place : κ → Option (List α)) (k : κ) : Option (List α) :=
  (place k).bind fun path =>
    match rest sep old path with
    | some r => some (new ++ r)
    | none => if path = new then none else some path

variable {sep} {old new path r s : List α} {place : κ → Option (List α)} {k : κ}

/-! ## Below a path -/

theorem rest_eq_some : rest sep old path = some r ↔ path = old ++ r ∧ (r = [] ∨ r.head? = some sep) := by
  unfold rest
  constructor
  · intro h
    split at h
    · rename_i hbelow
      obtain ⟨⟨t, rfl⟩, hsep⟩ := hbelow
      rw [List.drop_left] at h hsep
      cases h
      exact ⟨rfl, hsep⟩
    · cases h
  · rintro ⟨rfl, hsep⟩
    rw [List.drop_left, if_pos ⟨List.prefix_append old r, hsep⟩]

theorem rest_self (path : List α) : rest sep path path = some [] :=
  rest_eq_some.mpr ⟨(List.append_nil path).symm, .inl rfl⟩

/-- Of two paths above a third one, one is above the other. -/
theorem rest_comparable {p q : List α} (hp : rest sep p path = some r) (hq : rest sep q path = some s) :
    (∃ t, rest sep p q = some t) ∨ ∃ t, rest sep q p = some t := by
  obtain ⟨rfl, hr⟩ := rest_eq_some.mp hp
  obtain ⟨heq, hs⟩ := rest_eq_some.mp hq
  -- what is between them starts as the longer rest does
  have hbetween {t u : List α} (h : t ++ u = [] ∨ (t ++ u).head? = some sep) : t = [] ∨ t.head? = some sep := by
    cases t with
    | nil => exact .inl rfl
    | cons a t => exact .inr (h.resolve_left (List.cons_ne_nil _ _))
  rcases List.append_eq_append_iff.mp heq with ⟨t, hqt, htr⟩ | ⟨t, hpt, hts⟩
  · rw [htr] at hr
    exact .inl ⟨t, rest_eq_some.mpr ⟨hqt, hbetween hr⟩⟩
  · rw [hts] at hs
    exact .inr ⟨t, rest_eq_some.mpr ⟨hpt, hbetween hs⟩⟩

/-! ## Renaming -/

theorem rename_eq_some : rename sep old new place k = some path ↔
    (∃ p r, place k = some p ∧ rest sep old p = some r ∧ path = new ++ r) ∨
      (place k = some path ∧ rest sep old path = none ∧ path ≠ new) := by
  unfold rename
  cases place k with
  | none => simp
  | some p =>
    cases hrest : rest sep old p with
    | some r =>
      constructor
      · intro h
        simp only [Option.bind_some, hrest, Option.some_inj] at h
        exact .inl ⟨p, r, rfl, hrest, h.symm⟩
      · rintro (⟨p', r', hp, hr, rfl⟩ | ⟨hp, hnone, -⟩)
        · cases hp
          rw [hrest] at hr
          cases hr
          simp [hrest]
        · cases hp
          rw [hrest] at hnone
          cases hnone
    | none =>
      constructor
      · intro h
        rw [Option.bind_some, hrest] at h
        dsimp only at h
        split at h
        · cases h
        · rename_i hne
          cases h
          exact .inr ⟨rfl, hrest, hne⟩
      · rintro (⟨p', r', hp, hr, rfl⟩ | ⟨hp, -, hne⟩)
        · cases hp
          rw [hrest] at hr
          cases hr
        · cases hp
          simp [hrest, hne]

/-- The new path is not at or below the old one, and nothing is below it. -/
structure Free (sep : α) (old new : List α) (place : κ → Option (List α)) : Prop where
  outside : rest sep old new = none
  empty : ∀ k path r, place k = some path → rest sep new path = some r → r = []

/-- **What is taken is not at or below the old path**, where there has been something. -/
theorem Free.rest_moved (h : Free sep old new place) (hk : place k = some old)
    (hr : r = [] ∨ r.head? = some sep) : rest sep old (new ++ r) = none := by
  cases hold : rest sep old (new ++ r) with
  | none => rfl
  | some t =>
    rcases rest_comparable hold (rest_eq_some.mpr ⟨rfl, hr⟩) with ⟨u, hu⟩ | ⟨u, hu⟩
    · rw [h.outside] at hu
      cases hu
    · obtain rfl := h.empty k old u hk hu
      obtain ⟨rfl, -⟩ := rest_eq_some.mp hu
      have hself := h.outside
      rw [List.append_nil, rest_self] at hself
      cases hself

/-- No two things are at one path. -/
def Injective (place : κ → Option (List α)) : Prop :=
  ∀ k k' path, place k = some path → place k' = some path → k = k'

/-- **Renaming keeps things apart.** -/
theorem injective_rename (h : Free sep old new place) (hinj : Injective place) :
    Injective (rename sep old new place) := by
  -- something that stays is not where something else comes to be
  have hstays {k k' : κ} {p r : List α} (hr : rest sep old p = some r) (hk' : place k' = some (new ++ r))
      (hne : new ++ r ≠ new) : k = k' := by
    obtain ⟨-, hsep⟩ := rest_eq_some.mp hr
    rw [h.empty k' _ r hk' (rest_eq_some.mpr ⟨rfl, hsep⟩), List.append_nil] at hne
    exact absurd rfl hne
  intro k k' path hk hk'
  rcases rename_eq_some.mp hk with ⟨p, r, hp, hr, rfl⟩ | ⟨hp, -, hne⟩
  · rcases rename_eq_some.mp hk' with ⟨p', r', hp', hr', heq⟩ | ⟨hp', -, hne'⟩
    · obtain rfl := List.append_cancel_left heq
      obtain ⟨rfl, -⟩ := rest_eq_some.mp hr
      obtain ⟨rfl, -⟩ := rest_eq_some.mp hr'
      exact hinj k k' _ hp hp'
    · exact hstays hr hp' hne'
  · rcases rename_eq_some.mp hk' with ⟨p', r', hp', hr', rfl⟩ | ⟨hp', -, -⟩
    · exact (hstays hr' hp hne).symm
    · exact hinj k k' path hp hp'

end Relocation
