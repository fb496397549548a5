import Mathlib

/-!
# Fallible computations

What a successful result says about the steps of a computation in `Except` or
`Option`, and the invariant rule for a loop that may fail. `Post P E` holds of a
computation that ends well with `P` or fails with `E`; it has a rule for each way to
put computations together.
-/

namespace Fallible

theorem bind_ok {ε α β : Type} {x : Except ε α} {f : α → Except ε β} {b : β} :
    (x >>= f) = .ok b ↔ ∃ a, x = .ok a ∧ f a = .ok b := by
  cases x <;> simp [bind, Except.bind]

theorem toOption_eq_some {ε α : Type} {x : Except ε α} {a : α} :
    x.toOption = some a ↔ x = .ok a := by
  cases x <;> simp [Except.toOption]

theorem pure_ok {ε α : Type} {a b : α} : (pure a : Except ε α) = .ok b ↔ a = b := by
  simp [pure, Except.pure]

/-- A list is mapped if every element can be. -/
theorem mapM_ok {ε α β : Type} {f : α → Except ε β} :
    ∀ {l : List α} {bs : List β}, l.mapM f = .ok bs → ∀ a ∈ l, ∃ b, f a = .ok b := by
  intro l
  induction l with
  | nil =>
    intro bs _ a ha
    cases ha
  | cons a l ih =>
    intro bs h a' ha'
    rw [List.mapM_cons, bind_ok] at h
    obtain ⟨b, hb, h⟩ := h
    obtain ⟨bs', hbs', -⟩ := bind_ok.mp h
    rcases List.mem_cons.mp ha' with rfl | ha'
    · exact ⟨b, hb⟩
    · exact ih hbs' a' ha'

/-- The invariant of a loop that may fail: it knows the elements done. -/
theorem foldlM_ok_inv {ε α β : Type} {step : β → α → Except ε β} (inv : List α → β → Prop)
    (hstep : ∀ done b a b', inv done b → step b a = .ok b' → inv (done ++ [a]) b') :
    ∀ {l done : List α} {b b' : β}, inv done b → l.foldlM step b = .ok b' → inv (done ++ l) b' := by
  intro l
  induction l with
  | nil =>
    intro done b b' hb h
    rw [List.foldlM_nil, pure_ok] at h
    rw [List.append_nil, ← h]
    exact hb
  | cons a l ih =>
    intro done b b' hb h
    rw [List.foldlM_cons, bind_ok] at h
    obtain ⟨mid, hmid, h⟩ := h
    have := ih (hstep done b a mid hb hmid) h
    rwa [List.append_assoc] at this

/-! ## Postconditions -/

section Post

variable {ε α β : Type} {P P' : α → Prop} {Q : β → Prop} {E : ε → Prop}

/-- The result is as it should be, and so is the error. -/
def Post (P : α → Prop) (E : ε → Prop) : Except ε α → Prop
  | .ok a => P a
  | .error e => E e

theorem Post.of_ok {x : Except ε α} (h : Post P E x) {a : α} (hx : x = .ok a) : P a := by
  rw [hx] at h
  exact h

theorem Post.of_error {x : Except ε α} (h : Post P E x) {e : ε} (hx : x = .error e) : E e := by
  rw [hx] at h
  exact h

theorem Post.mono {x : Except ε α} (h : Post P E x) (hP : ∀ a, P a → P' a) : Post P' E x := by
  cases x with
  | ok a => exact hP a h
  | error e => exact h

theorem Post.bind {x : Except ε α} {f : α → Except ε β} (h : Post P E x) (hf : ∀ a, P a → Post Q E (f a)) :
    Post Q E (x >>= f) := by
  cases x with
  | ok a => exact hf a h
  | error e => exact h

/-- The invariant of a loop, whatever its end. -/
theorem post_foldlM {step : β → α → Except ε β} (inv : List α → β → Prop)
    (hstep : ∀ a rest b, inv (a :: rest) b → Post (inv rest) E (step b a)) :
    ∀ {l : List α} {b : β}, inv l b → Post (inv []) E (l.foldlM step b) := by
  intro l
  induction l with
  | nil => exact fun hb => hb
  | cons a l ih =>
    intro b hb
    rw [List.foldlM_cons]
    exact (hstep a l b hb).bind fun b' hb' => ih hb'

end Post

end Fallible
