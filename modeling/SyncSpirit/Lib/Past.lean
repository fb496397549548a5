import Mathlib

/-!
# The past

`Since p q es`: an event that satisfies `p` has happened, and none that satisfies `q`
since then. `since_snoc` says what one more event makes of it.
-/

namespace Past

variable {ε : Type*} {p q : ε → Prop}

/-- An event with `p` has happened, and none with `q` since then. -/
def Since (p q : ε → Prop) (es : List ε) : Prop :=
  ∃ before e after, es = before ++ e :: after ∧ p e ∧ ∀ e' ∈ after, ¬ q e'

theorem not_since_nil : ¬ Since p q [] := by
  rintro ⟨before, e, after, h, -⟩
  simp at h

/-- One more event. -/
theorem since_snoc {es : List ε} {e : ε} : Since p q (es ++ [e]) ↔ p e ∨ (Since p q es ∧ ¬ q e) := by
  constructor
  · rintro ⟨before, e', after, h, hp, hq⟩
    rcases List.eq_nil_or_concat after with rfl | ⟨after, last, rfl⟩
    · have heq := List.append_inj' h rfl
      cases heq.2
      exact .inl hp
    · rw [List.concat_eq_append, ← List.cons_append, ← List.append_assoc] at h
      obtain ⟨rfl, hlast⟩ := List.append_inj' h rfl
      cases hlast
      refine .inr ⟨⟨before, e', after, rfl, hp, fun x hx => hq x ?_⟩, hq e ?_⟩
      · rw [List.concat_eq_append]
        exact List.mem_append_left _ hx
      · rw [List.concat_eq_append]
        exact List.mem_append_right _ (List.mem_singleton_self e)
  · rintro (hp | ⟨⟨before, e', after, rfl, hp, hq⟩, hlast⟩)
    · exact ⟨es, e, [], rfl, hp, by simp⟩
    · refine ⟨before, e', after ++ [e], by simp, hp, fun x hx => ?_⟩
      rcases List.mem_append.mp hx with hx | hx
      · exact hq x hx
      · rw [List.mem_singleton.mp hx]
        exact hlast

end Past
