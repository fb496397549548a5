import Mathlib

/-!
# The winner of a fold

Candidates come one after another, and each of them may replace the champion so far. If `beats` is
no total preorder, the champion at the end depends on the order in which they come.

Only a `key` of the champion matters. `champion_iff` says when all orders end with the same key: the
candidates with that key replace all others, and are replaced by none of them.
-/

namespace Champion

variable {α κ : Type*} (beats : α → α → Bool)

/-- The new champion when `a` comes. -/
def challenge (c a : α) : α := if beats a c then a else c

/-- The champion at the end. -/
def champion (l : List α) : Option α :=
  l.foldl (fun best a => some (best.elim a fun c => if beats a c then a else c)) none

variable {beats}

theorem foldl_some (l : List α) (c : α) :
    l.foldl (fun best a => some (best.elim a fun c => if beats a c then a else c)) (some c) =
      some (l.foldl (challenge beats) c) := by
  induction l generalizing c with
  | nil => rfl
  | cons a l ih => exact ih _

theorem champion_cons (a : α) (l : List α) : champion beats (a :: l) = some (l.foldl (challenge beats) a) :=
  foldl_some l a

/-- What all challenges keep. -/
theorem foldl_inv (inv : α → Prop) {l : List α} (hstep : ∀ c, inv c → ∀ a ∈ l, inv (challenge beats c a)) :
    ∀ c, inv c → inv (l.foldl (challenge beats) c) := by
  induction l with
  | nil => exact fun _ h => h
  | cons a l ih =>
    intro c hc
    exact ih (fun c hc b hb => hstep c hc b (List.mem_cons_of_mem _ hb)) _
      (hstep c hc a (List.mem_cons_self ..))

theorem challenge_eq_or (beats : α → α → Bool) (c a : α) : challenge beats c a = a ∨ challenge beats c a = c := by
  unfold challenge
  split
  · exact .inl rfl
  · exact .inr rfl

/-- The champion is one of the candidates. -/
theorem champion_mem {l : List α} {c : α} (h : champion beats l = some c) : c ∈ l := by
  cases l with
  | nil => cases h
  | cons a l =>
    rw [champion_cons, Option.some.injEq] at h
    rw [← h]
    refine foldl_inv (· ∈ a :: l) (fun c hc b hb => ?_) a (List.mem_cons_self ..)
    rcases challenge_eq_or beats c b with heq | heq
    · rw [heq]
      exact List.mem_cons_of_mem _ hb
    · rw [heq]
      exact hc

/-- A champion that nobody beats stays. -/
theorem foldl_of_unbeaten {l : List α} {c : α} (h : ∀ a ∈ l, beats a c = false) :
    l.foldl (challenge beats) c = c := by
  induction l with
  | nil => rfl
  | cons a l ih =>
    have hstay : challenge beats c a = c := if_neg (by rw [h a (List.mem_cons_self ..)]; exact Bool.false_ne_true)
    rw [List.foldl_cons, hstay]
    exact ih fun b hb => h b (List.mem_cons_of_mem _ hb)

section Keys

variable {key : α → κ} {S : List α} {v : κ}

/-- Among candidates of one key the last one is the champion. -/
theorem champion_of_key {l : List α} {c : α} (hsame : ∀ a ∈ l, beats c a = true) :
    champion beats (l ++ [c]) = some c := by
  cases l with
  | nil => rfl
  | cons a l =>
    rw [List.cons_append, champion_cons, List.foldl_append]
    have hmem : l.foldl (challenge beats) a ∈ a :: l := champion_mem (champion_cons a l)
    exact congrArg some (if_pos (hsame _ hmem))

/-- From a champion of another key the fold never comes back to `v` without a candidate of that key. -/
theorem foldl_key_ne {l : List α} (hl : ∀ a ∈ l, key a ≠ v) {c : α} (hc : key c ≠ v) :
    key (l.foldl (challenge beats) c) ≠ v := by
  refine foldl_inv (fun c => key c ≠ v) (fun c hc a ha => ?_) c hc
  rcases challenge_eq_or beats c a with heq | heq
  · rw [heq]
    exact hl a ha
  · rw [heq]
    exact hc

/-- The candidates with the key replace all others, and are replaced by none of them. -/
def Prevails (beats : α → α → Bool) (key : α → κ) (S : List α) (v : κ) : Prop :=
  (∃ c ∈ S, key c = v) ∧ ∀ c ∈ S, key c = v → ∀ s ∈ S, key s ≠ v → beats c s = true ∧ beats s c = false

theorem Prevails.champion (h : Prevails beats key S v) {l : List α} (hl : l.Perm S) :
    ∃ c, champion beats l = some c ∧ key c = v := by
  -- once a candidate with the key has come, the champion has the key
  have hloop : ∀ (l : List α), l ⊆ S → ∀ c ∈ S, (key c = v ∨ ∃ a ∈ l, key a = v) →
      key (l.foldl (challenge beats) c) = v := by
    intro l
    induction l with
    | nil =>
      rintro - c - (hc | ⟨a, ha, -⟩)
      · exact hc
      · cases ha
    | cons a l ih =>
      intro hsub c hcS hor
      have haS : a ∈ S := hsub (List.mem_cons_self ..)
      have hsub' : l ⊆ S := fun b hb => hsub (List.mem_cons_of_mem _ hb)
      have hmem : challenge beats c a ∈ S := by
        rcases challenge_eq_or beats c a with heq | heq <;> rw [heq]
        · exact haS
        · exact hcS
      refine ih hsub' _ hmem ?_
      by_cases ha : key a = v
      · left
        by_cases hc : key c = v
        · rcases challenge_eq_or beats c a with heq | heq <;> rw [heq]
          · exact ha
          · exact hc
        · rw [challenge, if_pos (h.2 a haS ha c hcS hc).1]
          exact ha
      · rcases hor with hc | ⟨b, hb, hbv⟩
        · left
          rw [challenge, if_neg (by rw [(h.2 c hcS hc a haS ha).2]; exact Bool.false_ne_true)]
          exact hc
        · rcases List.mem_cons.mp hb with rfl | hb
          · exact absurd hbv ha
          · exact .inr ⟨b, hb, hbv⟩
  obtain ⟨c₀, hc₀, hkey⟩ := h.1
  cases l with
  | nil => exact absurd (hl.mem_iff.mpr hc₀) List.not_mem_nil
  | cons a l =>
    refine ⟨_, champion_cons a l, hloop l (fun b hb => hl.mem_iff.mp (List.mem_cons_of_mem _ hb)) a
      (hl.mem_iff.mp (List.mem_cons_self ..)) ?_⟩
    rcases List.mem_cons.mp (hl.mem_iff.mpr hc₀) with rfl | hmem
    · exact .inl hkey
    · exact .inr ⟨c₀, hmem, hkey⟩

/-- **The key of the champion does not depend on the order** exactly if the candidates with that key
prevail, provided that candidates of one key replace each other, and that a candidate that beats nobody
of the key is beaten by all of them or by none. -/
theorem champion_iff [DecidableEq α] [DecidableEq κ]
    (hsame : ∀ a ∈ S, ∀ b ∈ S, key a = key b → beats a b = true)
    (hlike : ∀ a ∈ S, ∀ b ∈ S, ∀ s ∈ S, key a = key b → beats s a = false → beats s b = false →
      beats a s = true → beats b s = true) :
    (∀ l, l.Perm S → ∃ c, champion beats l = some c ∧ key c = v) ↔ Prevails beats key S v := by
  refine ⟨fun hall => ?_, fun h l hl => h.champion hl⟩
  obtain ⟨c₀, hc₀, hkey₀⟩ := hall S (.refl S)
  -- all candidates with the key, `c` the last of them, then the others, `s` the first of them
  let own := S.filter fun a => decide (key a = v)
  let rest := S.filter fun a => !decide (key a = v)
  have hsplit : (own ++ rest).Perm S := List.filter_append_perm (fun a => decide (key a = v)) S
  have hown : ∀ a ∈ own, a ∈ S ∧ key a = v := fun a ha => by simpa [own] using ha
  have hrest : ∀ a ∈ rest, key a ≠ v := fun a ha => by simpa [rest] using (List.mem_filter.mp ha).2
  have hstand : ∀ c ∈ S, key c = v → ∀ s ∈ S, key s ≠ v → beats s c = false := by
    intro c hc hcv s hs hsv
    have hco : c ∈ own := by simp [own, hc, hcv]
    have hsr : s ∈ rest := by simp [rest, hs, hsv]
    by_contra hbeats
    rw [Bool.not_eq_false] at hbeats
    have hperm : ((own.erase c ++ [c]) ++ (s :: rest.erase s)).Perm S :=
      (((List.perm_append_singleton c _).trans (List.perm_cons_erase hco).symm).append
        (List.perm_cons_erase hsr).symm).trans hsplit
    obtain ⟨w, hw, hwv⟩ := hall _ hperm
    have hfirst : champion beats (own.erase c ++ [c]) = some c := champion_of_key fun a ha =>
      hsame c hc a (hown a (List.mem_of_mem_erase ha)).1 (hcv.trans (hown a (List.mem_of_mem_erase ha)).2.symm)
    have hfold : champion beats ((own.erase c ++ [c]) ++ (s :: rest.erase s)) =
        some ((rest.erase s).foldl (challenge beats) s) := by
      have hreplace : challenge beats c s = s := if_pos hbeats
      rw [champion, List.foldl_append]
      rw [champion] at hfirst
      rw [hfirst, foldl_some, List.foldl_cons, hreplace]
    rw [hfold, Option.some.injEq] at hw
    rw [← hw] at hwv
    exact foldl_key_ne (fun a ha => hrest a (List.mem_of_mem_erase ha)) hsv hwv
  refine ⟨⟨c₀, champion_mem hc₀, hkey₀⟩, fun c hc hcv s hs hsv => ⟨?_, hstand c hc hcv s hs hsv⟩⟩
  by_contra hbeats
  -- then nobody with the key replaces `s`, and it stays until the others come
  have hnone : ∀ a ∈ own, beats a s = false := by
    intro a ha
    obtain ⟨haS, hav⟩ := hown a ha
    by_contra hbeats'
    rw [Bool.not_eq_false] at hbeats'
    exact hbeats (hlike a haS c hc s hs (hav.trans hcv.symm) (hstand a haS hav s hs hsv)
      (hstand c hc hcv s hs hsv) hbeats')
  have hsr : s ∈ rest := by simp [rest, hs, hsv]
  have hperm : (s :: (own ++ rest.erase s)).Perm S :=
    (List.perm_middle.symm.trans ((List.perm_cons_erase hsr).symm.append_left own)).trans hsplit
  obtain ⟨w, hw, hwv⟩ := hall _ hperm
  rw [champion_cons, List.foldl_append, foldl_of_unbeaten hnone, Option.some.injEq] at hw
  rw [← hw] at hwv
  exact foldl_key_ne (fun a ha => hrest a (List.mem_of_mem_erase ha)) hsv hwv

end Keys

end Champion
