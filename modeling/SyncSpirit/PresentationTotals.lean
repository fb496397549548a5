import SyncSpirit.Lib.Totals
import SyncSpirit.Presentation

/-!
# The sums of the presentation tree

`Sound` is the invariant. The links of the presences agree with the entities, and nothing has a residual, neither
the statistics of the entities with the best presences as weights nor those of the presences of one device.
While an event is processed some links are loose, and one entity may have something extra.

Each small step of an event has its lemma: another best presence (`Sound.setBest`), a push for the entities
(`Sound.pushBest`), other statistics of a presence (`Sound.revalue`), a link (`Sound.link`).
-/

namespace SyncSpirit

namespace Presentation

open Totals (push)

variable {δ : Type} [DecidableEq δ]

/-- The entities, without statistics. -/
structure Shape (t : Tree δ) : Prop where
  devices : t.devices.Nodup
  children : ∀ p, (t.children p).Nodup
  presences : ∀ p, (t.presences p).Nodup
  deep : ∀ p, t.presences p ≠ [] → p.length ≤ t.height
  deepChild : ∀ n p, n ∈ t.children p → (n :: p).length ≤ t.height
  flat : ∀ n p, n ∉ t.children p → t.children (n :: p) = []
  orphans : ∀ q ∈ t.orphans, t.parent q = none ∧ q.length ≤ t.height
  orphansNodup : t.orphans.Nodup

/-- The statistics are sums but for what some entities have extra. -/
structure Sound (loose : δ → Path → Prop) (extra : Path → Stats) (t : Tree δ) : Prop where
  shape : Shape t
  absent : ∀ (d : δ) p, some d ∉ t.presences p → t.own (some d) p = 0 ∧ t.linked (some d) p = false
  best : ∀ p b, t.best p = some b → some b ∈ t.presences p ∧ (t.parent p).isSome
  links : ∀ (d : δ) n p, t.linked (some d) (n :: p) = true ↔
    some d ∈ t.presences (n :: p) ∧ n ∈ t.children p ∧ some d ∈ t.presences p ∧ ¬ loose d (n :: p)
  entity : ∀ q, Totals.residual t.children t.weight t.statistics q = extra q
  presence : ∀ (d : δ) q, Totals.residual (t.below d) (t.own (some d)) (t.counted (some d)) q = 0

/-- Between the events nothing is loose or extra. -/
def Good (t : Tree δ) : Prop := Sound (fun _ _ => False) (fun _ => 0) t

section Pushes

variable {t : Tree δ} {loose loose' : δ → Path → Prop} {extra extra' : Path → Stats} {p q : Path} {n : String} {d : δ}
  {diff : Stats}

omit [DecidableEq δ] in
theorem Sound.congr (h : Sound loose extra t) (hextra : ∀ q, extra q = extra' q) : Sound loose extra' t :=
  funext hextra ▸ h

omit [DecidableEq δ] in
/-- What is loose counts only where there is a link. -/
theorem Sound.relax (h : Sound loose extra t) (hloose : ∀ d n p, some d ∈ t.presences (n :: p) →
    n ∈ t.children p → some d ∈ t.presences p → (loose d (n :: p) ↔ loose' d (n :: p))) : Sound loose' extra t := by
  refine ⟨h.shape, h.absent, h.best, fun d n p => ?_, h.entity, h.presence⟩
  rw [h.links]
  constructor
  · rintro ⟨hd, hn, hp, hno⟩
    exact ⟨hd, hn, hp, fun hl => hno ((hloose d n p hd hn hp).mpr hl)⟩
  · rintro ⟨hd, hn, hp, hno⟩
    exact ⟨hd, hn, hp, fun hl => hno ((hloose d n p hd hn hp).mp hl)⟩

omit [DecidableEq δ] in
theorem parent_cons : t.parent (n :: p) = if n ∈ t.children p then some p else none := rfl

omit [DecidableEq δ] in
theorem parent_isSome : (t.parent (n :: p)).isSome ↔ n ∈ t.children p := by
  rw [parent_cons]
  split <;> simp_all

omit [DecidableEq δ] in
theorem mem_below : n ∈ t.below d p ↔ n ∈ t.children p ∧ t.linked (some d) (n :: p) = true := by
  unfold Tree.below
  rw [List.mem_filter]

/-- A push for the entities. -/
theorem pushStats_best :
    Tree.pushStats diff none true p t = { t with statistics := push t.children diff p t.statistics } := by
  induction p generalizing t with
  | nil => rfl
  | cons n p ih =>
    unfold Tree.pushStats Tree.bump
    simp only [if_true, ne_eq, not_true_eq_false, false_and, if_false, true_or, true_and]
    rw [Totals.push_cons]
    split
    · exact ih
    · rfl

/-- A push without a source and for no entities. -/
theorem pushStats_none : Tree.pushStats diff none false p t = t := by
  induction p with
  | nil => rfl
  | cons n p ih =>
    unfold Tree.pushStats Tree.bump
    simp only [Bool.false_eq_true, if_false, ne_eq, not_true_eq_false, false_and, true_or, true_and, ih, ite_self]

/-- A push for a device that has no presence. -/
theorem pushStats_absent (hp : some d ∉ t.presences p) : Tree.pushStats diff (some d) false p t = t := by
  cases p with
  | nil => simp [Tree.pushStats, Tree.bump, hp]
  | cons n p => simp [Tree.pushStats, Tree.bump, hp]

/-- A push for the presences of a device. It ends where a presence has no link. -/
theorem pushStats_source (hp : some d ∈ t.presences p)
    (hlinks : ∀ n q, n :: q <:+ p → some d ∈ t.presences (n :: q) → n ∈ t.children q →
      (t.linked (some d) (n :: q) = true ↔ some d ∈ t.presences q)) :
    Tree.pushStats diff (some d) false p t = { t with
      counted := Function.update t.counted (some d) (push (t.below d) diff p (t.counted (some d))) } := by
  have hbump : ∀ (t : Tree δ) p, some d ∈ t.presences p → t.bump diff (some d) false p =
      t.setCounted (some d) p (t.counted (some d) p + diff) := by
    intro t p hp
    unfold Tree.bump
    rw [if_neg Bool.false_ne_true, if_pos ⟨Option.some_ne_none d, hp⟩]
  induction p generalizing t with
  | nil => exact hbump t [] hp
  | cons n p ih =>
    unfold Tree.pushStats
    rw [Totals.push_cons, hbump t _ hp]
    have hhere := hlinks n p List.suffix_rfl hp
    by_cases hn : n ∈ t.children p
    · dsimp only
      rw [if_pos ⟨.inr hp, hn⟩]
      by_cases hd : some d ∈ t.presences p
      · rw [if_pos (mem_below.mpr ⟨hn, (hhere hn).mpr hd⟩), ih]
        · unfold Tree.setCounted Tree.below
          dsimp only
          rw [Function.update_idem, Function.update_self]
        · exact hd
        · exact fun m q hq => hlinks m q (hq.trans (List.suffix_cons n p))
      · rw [if_neg (fun hin => hd ((hhere hn).mp (mem_below.mp hin).2))]
        exact pushStats_absent hd
    · dsimp only
      rw [if_neg (fun hc => hn hc.2), if_neg (fun hin => hn (mem_below.mp hin).1)]
      rfl

/-- A push for both goes to the top if the device is everywhere on the way. -/
theorem pushStats_both (hp : some d ∈ t.presences p)
    (hlinks : ∀ n q, n :: q <:+ p → some d ∈ t.presences (n :: q) → n ∈ t.children q →
      (t.linked (some d) (n :: q) = true ↔ some d ∈ t.presences q))
    (hchain : ∀ q, q <:+ p → q ≠ [] → some d ∈ t.presences q) :
    Tree.pushStats diff (some d) true p t = { t with
      statistics := push t.children diff p t.statistics
      counted := Function.update t.counted (some d) (push (t.below d) diff p (t.counted (some d))) } := by
  have hbump : ∀ (t : Tree δ) p, some d ∈ t.presences p → t.bump diff (some d) true p =
      { t.setCounted (some d) p (t.counted (some d) p + diff) with
        statistics := Function.update t.statistics p (t.statistics p + diff) } := by
    intro t p hp
    unfold Tree.bump
    rw [if_pos rfl, if_pos ⟨Option.some_ne_none d, hp⟩]
    rfl
  induction p generalizing t with
  | nil => exact hbump t [] hp
  | cons n p ih =>
    unfold Tree.pushStats
    rw [Totals.push_cons, Totals.push_cons, hbump t _ hp]
    have hhere := hlinks n p List.suffix_rfl hp
    by_cases hn : n ∈ t.children p
    · dsimp only
      rw [if_pos ⟨.inr hp, hn⟩, if_pos hn]
      by_cases hd : some d ∈ t.presences p
      · rw [if_pos (mem_below.mpr ⟨hn, (hhere hn).mpr hd⟩), ih]
        · unfold Tree.setCounted Tree.below
          dsimp only
          rw [Function.update_idem, Function.update_self]
        · exact hd
        · exact fun m q hq => hlinks m q (hq.trans (List.suffix_cons n p))
        · exact fun q hq => hchain q (hq.trans (List.suffix_cons n p))
      · -- only the folder itself can be without the device
        rw [if_neg (fun hin => hd ((hhere hn).mp (mem_below.mp hin).2))]
        have hnil : p = [] := by
          by_contra hne
          exact hd (hchain p (List.suffix_cons n p) hne)
        subst hnil
        simp only [Tree.pushStats, Tree.bump, Tree.setCounted, if_true, hd, and_false, if_false]
        rfl
    · dsimp only
      rw [if_neg (fun hc => hn hc.2), if_neg hn, if_neg (fun hin => hn (mem_below.mp hin).1)]
      rfl

omit [DecidableEq δ] in
theorem Sound.hlinks (h : Sound loose extra t) (hfree : ∀ q, q <:+ p → ¬ loose d q) :
    ∀ n q, n :: q <:+ p → some d ∈ t.presences (n :: q) → n ∈ t.children q →
      (t.linked (some d) (n :: q) = true ↔ some d ∈ t.presences q) := by
  intro n q hq hd hn
  rw [h.links]
  exact ⟨fun hl => hl.2.2.1, fun hp => ⟨hd, hn, hp, hfree _ hq⟩⟩

omit [DecidableEq δ] in
theorem Sound.below_nodup (h : Sound loose extra t) (q : Path) : (t.below d q).Nodup :=
  (h.shape.children q).filter _

/-! ## Small steps -/

/-- A push for the entities gives one of them something extra. -/
theorem Sound.pushBest (h : Sound loose extra t) (diff : Stats) (p : Path) :
    Sound loose (fun q => extra q + if q = p then diff else 0) (Tree.pushStats diff none true p t) := by
  rw [pushStats_best]
  refine ⟨⟨h.shape.devices, h.shape.children, h.shape.presences, h.shape.deep, h.shape.deepChild, h.shape.flat,
    h.shape.orphans, h.shape.orphansNodup⟩, h.absent, h.best, h.links, fun q => ?_, h.presence⟩
  exact (Totals.residual_push h.shape.children diff).trans (congrArg (· + _) (h.entity q))

omit [DecidableEq δ] in
/-- Another best presence. -/
theorem Sound.setBest {best : Option δ} (h : Sound loose extra t)
    (hbest : ∀ b, best = some b → some b ∈ t.presences p ∧ (t.parent p).isSome) :
    Sound loose (fun q => extra q + if q = p then t.weight p - best.elim 0 fun b => t.own (some b) p else 0)
      (t.setBest p best) := by
  have hweight : (t.setBest p best).weight =
      Function.update t.weight p (best.elim 0 fun b => t.own (some b) p) := by
    funext q
    show (Function.update t.best p best q).elim 0 (fun b => t.own (some b) q) = _
    by_cases hq : q = p
    · rw [hq, Function.update_self, Function.update_self]
    · rw [Function.update_of_ne hq, Function.update_of_ne hq]
      rfl
  refine ⟨⟨h.shape.devices, h.shape.children, h.shape.presences, h.shape.deep, h.shape.deepChild, h.shape.flat,
    h.shape.orphans, h.shape.orphansNodup⟩, h.absent, fun q b hb => ?_, h.links, fun q => ?_, h.presence⟩
  · change Function.update t.best p best q = some b at hb
    by_cases hq : q = p
    · rw [hq, Function.update_self] at hb
      exact hq ▸ hbest b hb
    · rw [Function.update_of_ne hq] at hb
      exact h.best q b hb
  · rw [hweight]
    show Totals.residual t.children (Function.update t.weight p _) t.statistics q = _
    rw [Totals.residual_update_weight, h.entity]

theorem own_update {stats : Stats} {e : δ} : (t.setOwn (some d) p stats).own (some e) =
    if e = d then Function.update (t.own (some d)) p stats else t.own (some e) := by
  show Function.update t.own (some d) _ (some e) = _
  split
  · rename_i he
    rw [he, Function.update_self]
  · rename_i he
    exact Function.update_of_ne (fun heq => he (Option.some.inj heq)) ..

/-- What a presence counts itself is part of its entity if it is the best one. -/
theorem weight_setOwn {stats : Stats} : (t.setOwn (some d) p stats).weight =
    if t.best p = some d then Function.update t.weight p stats else t.weight := by
  have hat : ∀ q, (t.setOwn (some d) p stats).weight q =
      (t.best q).elim 0 fun b => (t.setOwn (some d) p stats).own (some b) q := fun q => rfl
  funext q
  rw [hat]
  by_cases hq : q = p
  · subst hq
    split
    · rename_i hb
      rw [hb, Option.elim_some, own_update, if_pos rfl, Function.update_self, Function.update_self]
    · rename_i hb
      unfold Tree.weight
      cases hbest : t.best q with
      | none => rfl
      | some b =>
        rw [Option.elim_some, Option.elim_some, own_update, if_neg (fun he : b = d => hb (he ▸ hbest))]
  · have hsame : ∀ b, (t.setOwn (some d) p stats).own (some b) q = t.own (some b) q := by
      intro b
      rw [own_update]
      split
      · rename_i he
        rw [Function.update_of_ne hq, he]
      · rfl
    simp only [hsame]
    split
    · rw [Function.update_of_ne hq]
      rfl
    · rfl

/-- The device's presence counts something else. -/
theorem Sound.revalue (h : Sound loose extra t) (hp : some d ∈ t.presences p)
    (hfree : ∀ q, q <:+ p → ¬ loose d q) (diff : Stats) :
    Sound loose (fun q => extra q - if q = p ∧ t.best p = some d then diff else 0)
      ((Tree.pushStats diff (some d) false p t).setOwn (some d) p (t.own (some d) p + diff)) := by
  rw [pushStats_source hp (h.hlinks hfree)]
  have hcounted : ∀ e, e ≠ d → Function.update t.counted (some d)
      (push (t.below d) diff p (t.counted (some d))) (some e) = t.counted (some e) := fun e he =>
    Function.update_of_ne (fun heq => he (Option.some.inj heq)) ..
  refine ⟨⟨h.shape.devices, h.shape.children, h.shape.presences, h.shape.deep, h.shape.deepChild, h.shape.flat,
    h.shape.orphans, h.shape.orphansNodup⟩, fun e q hq => ?_, h.best, h.links, fun q => ?_, fun e q => ?_⟩
  · obtain ⟨hown, hlinked⟩ := h.absent e q hq
    refine ⟨?_, hlinked⟩
    rw [own_update]
    split
    · rename_i he
      subst he
      have hqp : q ≠ p := by
        rintro rfl
        exact hq hp
      exact (Function.update_of_ne hqp ..).trans hown
    · exact hown
  · rw [weight_setOwn]
    show Totals.residual t.children (if t.best p = some d then Function.update t.weight p _ else t.weight)
      t.statistics q = _
    split
    · rename_i hb
      have hweight : t.weight p = t.own (some d) p := by
        unfold Tree.weight
        rw [hb, Option.elim_some]
      rw [Totals.residual_update_weight, h.entity, hweight, sub_add_cancel_left]
      simp only [hb, and_true]
      split
      · rw [sub_eq_add_neg]
      · rw [add_zero, sub_zero]
    · rename_i hb
      rw [h.entity, if_neg (fun hc => hb hc.2), sub_zero]
  · rw [own_update]
    split
    · rename_i he
      subst he
      show Totals.residual (t.below e) (Function.update (t.own (some e)) p (t.own (some e) p + diff))
        (Function.update t.counted (some e) _ (some e)) q = 0
      rw [Function.update_self, Totals.residual_update_weight,
        Totals.residual_push h.below_nodup, h.presence, sub_add_cancel_left]
      split <;> simp
    · rename_i he
      show Totals.residual (t.below e) (t.own (some e)) (Function.update t.counted (some d) _ (some e)) q = 0
      rw [hcounted e he, h.presence]

/-- A presence gets its link. -/
theorem Sound.link (h : Sound loose extra t) (hd : some d ∈ t.presences (n :: p)) (hn : n ∈ t.children p)
    (hp : some d ∈ t.presences p) (hlinked : t.linked (some d) (n :: p) = false)
    (hfree : ∀ q, q <:+ p → ¬ loose d q) :
    Sound (fun e q => loose e q ∧ ¬ (e = d ∧ q = n :: p)) extra
      (Tree.pushStats (t.counted (some d) (n :: p)) (some d) false p (t.setLinked (some d) (n :: p) true)) := by
  have hset : ∀ e q, (t.setLinked (some d) (n :: p) true).linked (some e) q =
      if e = d ∧ q = n :: p then true else t.linked (some e) q := by
    intro e q
    show Function.update t.linked (some d) (Function.update (t.linked (some d)) (n :: p) true) (some e) q = _
    by_cases he : e = d
    · subst he
      rw [Function.update_self]
      by_cases hq : q = n :: p
      · rw [hq, Function.update_self, if_pos ⟨rfl, rfl⟩]
      · rw [Function.update_of_ne hq, if_neg (fun hc => hq hc.2)]
    · rw [Function.update_of_ne (fun heq => he (Option.some.inj heq)), if_neg (fun hc => he hc.1)]
  have hlonger : ∀ m q, m :: q <:+ p → m :: q ≠ n :: p := by
    intro m q hq heq
    have := hq.length_le
    rw [heq, List.length_cons] at this
    omega
  have hpush : Tree.pushStats (t.counted (some d) (n :: p)) (some d) false p
      (t.setLinked (some d) (n :: p) true) = { t.setLinked (some d) (n :: p) true with
        counted := Function.update t.counted (some d) (push ((t.setLinked (some d) (n :: p) true).below d)
          (t.counted (some d) (n :: p)) p (t.counted (some d))) } := by
    refine pushStats_source hp fun m q hq hm hc => ?_
    rw [hset, if_neg (fun hc => hlonger m q hq hc.2)]
    exact h.hlinks hfree m q hq hm hc
  rw [hpush]
  refine ⟨⟨h.shape.devices, h.shape.children, h.shape.presences, h.shape.deep, h.shape.deepChild, h.shape.flat,
    h.shape.orphans, h.shape.orphansNodup⟩, fun e q hq => ?_, h.best, fun e m q => ?_, h.entity, fun e q => ?_⟩
  · obtain ⟨hown, hold⟩ := h.absent e q hq
    refine ⟨hown, ?_⟩
    rw [← hold]
    refine (hset e q).trans (if_neg ?_)
    rintro ⟨rfl, rfl⟩
    exact hq hd
  · refine (congrArg (· = true) (hset e (m :: q))).to_iff.trans ?_
    split
    · rename_i heq
      obtain ⟨rfl, hpath⟩ := heq
      obtain ⟨rfl, rfl⟩ := List.cons.inj hpath
      exact iff_of_true rfl ⟨hd, hn, hp, fun hl => hl.2 ⟨rfl, rfl⟩⟩
    · rename_i hne
      rw [h.links]
      exact and_congr_right fun _ => and_congr_right fun _ => and_congr_right fun _ =>
        ⟨fun hl hc => hl hc.1, fun hl hc => hl ⟨hc, hne⟩⟩
  · by_cases he : e = d
    · subst he
      have hnodup : ∀ q, ((t.setLinked (some e) (n :: p) true).below e q).Nodup := fun q =>
        (h.shape.children q).filter _
      have hperm : ((t.setLinked (some e) (n :: p) true).below e p).Perm (n :: t.below e p) := by
        have hnotin : n ∉ t.below e p := by
          intro hin
          have hl := (mem_below.mp hin).2
          rw [hlinked] at hl
          cases hl
        refine (List.perm_ext_iff_of_nodup (hnodup p) (List.nodup_cons.mpr
          ⟨hnotin, h.below_nodup p⟩)).mpr fun m => ?_
        rw [mem_below, hset, List.mem_cons, mem_below]
        by_cases hm : m = n
        · subst hm
          simp [Tree.setLinked, hn]
        · simp [Tree.setLinked, hm]
      have hsame : ∀ q, q ≠ p → (t.setLinked (some e) (n :: p) true).below e q = t.below e q := by
        intro q hq
        refine List.filter_congr fun m _ => ?_
        rw [hset, if_neg]
        rintro ⟨-, heq⟩
        exact hq (List.cons.inj heq).2
      show Totals.residual ((t.setLinked (some e) (n :: p) true).below e) (t.own (some e))
        (Function.update t.counted (some e) _ (some e)) q = 0
      rw [Function.update_self, Totals.residual_push hnodup,
        Totals.residual_insert hperm hsame, h.presence]
      split <;> simp
    · show Totals.residual ((t.setLinked (some d) (n :: p) true).below e) (t.own (some e))
        (Function.update t.counted (some d) _ (some e)) q = 0
      rw [Function.update_of_ne (fun heq => he (Option.some.inj heq))]
      have hsame : (t.setLinked (some d) (n :: p) true).below e = t.below e := by
        funext q
        refine List.filter_congr fun m _ => ?_
        rw [hset, if_neg fun hc => he hc.1]
      rw [hsame, h.presence]

/-! ## Entities -/

/-- A presence that counts nothing goes. -/
theorem Sound.forget {k : Option δ} (h : Sound loose extra t) (hzero : ∀ d, k = some d →
    t.own k p = 0 ∧ t.counted k p = 0 ∧ t.best p ≠ some d ∧ ∀ n ∈ t.children p, t.linked k (n :: p) = false) :
    Sound loose extra (t.forget p k) := by
  have hmem : ∀ (e : δ) q, some e ∈ (t.forget p k).presences q ↔
      some e ∈ t.presences q ∧ ¬ (k = some e ∧ q = p) := by
    intro e q
    show some e ∈ Function.update t.presences p ((t.presences p).erase k) q ↔ _
    by_cases hq : q = p
    · subst hq
      rw [Function.update_self, (h.shape.presences q).mem_erase_iff, and_comm]
      exact and_congr_right fun _ => ⟨fun hne hc => hne hc.1.symm, fun hno he => hno ⟨he.symm, rfl⟩⟩
    · rw [Function.update_of_ne hq]
      exact ⟨fun hin => ⟨hin, fun hc => hq hc.2⟩, And.left⟩
  have hown : ∀ e : δ, (t.forget p k).own (some e) = t.own (some e) := by
    intro e
    show Function.update t.own k (Function.update (t.own k) p 0) (some e) = _
    by_cases he : some e = k
    · rw [he, Function.update_self, ← (hzero e he.symm).1, Function.update_eq_self]
    · rw [Function.update_of_ne he]
  have hcounted : ∀ e : δ, (t.forget p k).counted (some e) = t.counted (some e) := by
    intro e
    show Function.update t.counted k (Function.update (t.counted k) p 0) (some e) = _
    by_cases he : some e = k
    · rw [he, Function.update_self, ← (hzero e he.symm).2.1, Function.update_eq_self]
    · rw [Function.update_of_ne he]
  have hlinked : ∀ (e : δ) q, (t.forget p k).linked (some e) q =
      if k = some e ∧ q = p then false else t.linked (some e) q := by
    intro e q
    show Function.update t.linked k (Function.update (t.linked k) p false) (some e) q = _
    by_cases he : k = some e
    · subst he
      rw [Function.update_self]
      by_cases hq : q = p
      · rw [hq, Function.update_self, if_pos ⟨rfl, rfl⟩]
      · rw [Function.update_of_ne hq, if_neg (fun hc => hq hc.2)]
    · rw [Function.update_of_ne (Ne.symm he), if_neg (fun hc => he hc.1)]
  have hweight : (t.forget p k).weight = t.weight := by
    funext q
    show (t.best q).elim 0 (fun b => (t.forget p k).own (some b) q) = _
    simp only [hown]
    rfl
  refine ⟨⟨h.shape.devices, h.shape.children, fun q => ?_, fun q hq => ?_, h.shape.deepChild, h.shape.flat,
    h.shape.orphans, h.shape.orphansNodup⟩, fun e q hq => ?_, fun q b hb => ?_, fun e m q => ?_, fun q => ?_,
    fun e q => ?_⟩
  · show (Function.update t.presences p ((t.presences p).erase k) q).Nodup
    by_cases hq : q = p
    · rw [hq, Function.update_self]
      exact (h.shape.presences p).erase k
    · rw [Function.update_of_ne hq]
      exact h.shape.presences q
  · change Function.update t.presences p ((t.presences p).erase k) q ≠ [] at hq
    refine h.shape.deep q fun hnil => hq ?_
    by_cases hqp : q = p
    · rw [hqp, Function.update_self, ← hqp, hnil]
      rfl
    · rw [Function.update_of_ne hqp, hnil]
  · rw [hown, hlinked]
    by_cases hc : k = some e ∧ q = p
    · obtain ⟨rfl, rfl⟩ := hc
      exact ⟨(hzero e rfl).1, if_pos ⟨rfl, rfl⟩⟩
    · rw [if_neg hc]
      exact h.absent e q fun hin => hq ((hmem e q).mpr ⟨hin, hc⟩)
  · obtain ⟨hin, hparent⟩ := h.best q b hb
    refine ⟨(hmem b q).mpr ⟨hin, ?_⟩, hparent⟩
    rintro ⟨hk, rfl⟩
    exact (hzero b hk).2.2.1 hb
  · rw [hlinked, hmem, hmem]
    by_cases hhere : k = some e ∧ m :: q = p
    · rw [if_pos hhere]
      exact iff_of_false Bool.false_ne_true fun hc => hc.1.2 hhere
    · rw [if_neg hhere, h.links]
      by_cases habove : k = some e ∧ q = p
      · obtain ⟨rfl, rfl⟩ := habove
        refine iff_of_false (fun hc => ?_) fun hc => hc.2.2.1.2 ⟨rfl, rfl⟩
        have hno := (hzero e rfl).2.2.2 m hc.2.1
        rw [(h.links e m q).mpr hc] at hno
        cases hno
      · simp only [hhere, habove, not_false_eq_true, and_true]
        rfl
  · rw [hweight]
    exact h.entity q
  · rw [hown, hcounted]
    by_cases hc : k = some e ∧ ∃ m q', p = m :: q' ∧ m ∈ t.below e q'
    · -- the parent's presence has one less below it, but that counts nothing
      obtain ⟨rfl, m, q', rfl, hm⟩ := hc
      have hperm : (t.below e q').Perm (m :: (t.forget (m :: q') (some e)).below e q') := by
        have hnodup : ((t.forget (m :: q') (some e)).below e q').Nodup := (h.shape.children q').filter _
        have hnotin : m ∉ (t.forget (m :: q') (some e)).below e q' := by
          intro hin
          have hl := (mem_below.mp hin).2
          rw [hlinked, if_pos ⟨rfl, rfl⟩] at hl
          cases hl
        refine (List.perm_ext_iff_of_nodup (h.below_nodup q') (List.nodup_cons.mpr
          ⟨hnotin, hnodup⟩)).mpr fun x => ?_
        rw [List.mem_cons, mem_below, mem_below, hlinked]
        by_cases hx : x = m
        · subst hx
          exact iff_of_true (mem_below.mp hm) (.inl rfl)
        · rw [if_neg (fun hc => hx (List.cons.inj hc.2).1)]
          exact ⟨.inr, fun hor => hor.resolve_left hx⟩
      have hsame : ∀ q, q ≠ q' → t.below e q = (t.forget (m :: q') (some e)).below e q := by
        intro q hq
        refine List.filter_congr fun x _ => ?_
        rw [hlinked, if_neg fun hc => hq (List.cons.inj hc.2).2]
      have hres : Totals.residual (t.below e) (t.own (some e)) (t.counted (some e)) q = _ :=
        Totals.residual_insert hperm hsame q
      rw [h.presence, (hzero e rfl).2.1, ite_self, sub_zero] at hres
      exact hres.symm
    · have hsame : (t.forget p k).below e = t.below e := by
        funext q
        refine List.filter_congr fun x hx => ?_
        rw [hlinked]
        split
        · rename_i hk
          by_contra hne
          refine hc ⟨hk.1, x, q, hk.2.symm, mem_below.mpr ⟨hx, ?_⟩⟩
          simpa using Ne.symm hne
        · rfl
      rw [hsame]
      exact h.presence e q

omit [DecidableEq δ] in
/-- An entity without presences and without children leaves its parent. -/
theorem Sound.eraseChild (h : Sound loose extra t) (hpresences : t.presences (n :: p) = [])
    (hchildren : t.children (n :: p) = []) (hextra : extra (n :: p) = 0) :
    Sound loose extra (t.eraseChild p n) := by
  have hget : ∀ q, (t.eraseChild p n).children q = if q = p then (t.children p).erase n else t.children q :=
    fun q => Function.update_apply ..
  have hmem : ∀ m q, m ∈ (t.eraseChild p n).children q ↔ m ∈ t.children q ∧ m :: q ≠ n :: p := by
    intro m q
    rw [hget]
    by_cases hq : q = p
    · rw [if_pos hq, hq, (h.shape.children p).mem_erase_iff, and_comm]
      exact and_congr_right fun _ => not_congr ⟨fun hm => hm ▸ rfl, fun hc => (List.cons.inj hc).1⟩
    · rw [if_neg hq]
      exact ⟨fun hm => ⟨hm, fun hc => hq (List.cons.inj hc).2⟩, And.left⟩
  have hlinked : ∀ e : δ, t.linked (some e) (n :: p) = false := by
    intro e
    refine (h.absent e (n :: p) ?_).2
    rw [hpresences]
    exact List.not_mem_nil
  have hparent : ∀ m q, ((t.eraseChild p n).parent (m :: q)).isSome ↔
      (t.parent (m :: q)).isSome ∧ m :: q ≠ n :: p := by
    intro m q
    rw [parent_isSome, parent_isSome, hmem]
  have hstatistics : t.statistics (n :: p) = 0 := by
    have hres := h.entity (n :: p)
    have hbest : t.best (n :: p) = none := by
      refine Option.eq_none_iff_forall_ne_some.mpr fun b hb => ?_
      have hin := (h.best _ b hb).1
      rw [hpresences] at hin
      cases hin
    unfold Totals.residual Tree.weight at hres
    rw [hchildren, hbest, hextra] at hres
    simpa using hres
  refine ⟨⟨h.shape.devices, fun q => ?_, h.shape.presences, h.shape.deep, fun m q hm =>
    h.shape.deepChild m q ((hmem m q).mp hm).1, fun m q hm => ?_, fun q hq => ⟨?_, (h.shape.orphans q hq).2⟩,
    h.shape.orphansNodup⟩, h.absent, fun q b hb => ?_, fun e m q => ?_, fun q => ?_, fun e q => ?_⟩
  · rw [hget]
    split
    · exact (h.shape.children p).erase n
    · exact h.shape.children q
  · by_cases hmq : m ∈ t.children q
    · have heq : m :: q = n :: p := by
        by_contra hne
        exact hm ((hmem m q).mpr ⟨hmq, hne⟩)
      rw [heq, hget, if_neg (List.cons_ne_self n p)]
      exact hchildren
    · have hflat := h.shape.flat m q hmq
      rw [hget]
      split
      · rename_i heq
        rw [← heq, hflat]
        rfl
      · exact hflat
  · have hnone := (h.shape.orphans q hq).1
    cases q with
    | nil => rfl
    | cons m q =>
      rw [← Option.not_isSome_iff_eq_none] at hnone ⊢
      exact fun hsome => hnone ((hparent m q).mp hsome).1
  · obtain ⟨hin, hsome⟩ := h.best q b hb
    refine ⟨hin, ?_⟩
    cases q with
    | nil => cases hsome
    | cons m q =>
      refine (hparent m q).mpr ⟨hsome, fun heq => ?_⟩
      change some b ∈ t.presences (m :: q) at hin
      rw [heq, hpresences] at hin
      cases hin
  · show t.linked (some e) (m :: q) = true ↔ _
    rw [hmem]
    by_cases heq : m :: q = n :: p
    · rw [heq, hlinked]
      exact iff_of_false Bool.false_ne_true fun hc => hc.2.1.2 rfl
    · rw [h.links]
      exact and_congr_right fun _ => and_congr_left fun _ => ⟨fun hm => ⟨hm, heq⟩, And.left⟩
  · by_cases hn : n ∈ t.children p
    · have hperm : (t.children p).Perm (n :: (t.eraseChild p n).children p) := by
        rw [hget, if_pos rfl]
        exact List.perm_cons_erase hn
      have hsame : ∀ q, q ≠ p → t.children q = (t.eraseChild p n).children q := by
        intro q hq
        rw [hget, if_neg hq]
      have hres : Totals.residual t.children t.weight t.statistics q = _ := Totals.residual_insert hperm hsame q
      rw [h.entity, hstatistics, ite_self, sub_zero] at hres
      exact hres.symm
    · have hsame : (t.eraseChild p n).children = t.children := by
        funext q
        rw [hget]
        split
        · rename_i hq
          rw [hq, List.erase_of_not_mem hn]
        · rfl
      rw [hsame]
      exact h.entity q
  · have hsame : (t.eraseChild p n).below e = t.below e := by
      funext q
      show ((t.eraseChild p n).children q).filter _ = _
      rw [hget]
      split
      · rename_i hq
        subst hq
        rw [(h.shape.children q).erase_eq_filter, List.filter_filter]
        refine List.filter_congr fun m _ => ?_
        show (t.linked (some e) (m :: q) && m != n) = t.linked (some e) (m :: q)
        by_cases hm : m = n
        · rw [hm, hlinked]
          rfl
        · rw [bne_iff_ne.mpr hm, Bool.and_true]
      · rfl
    rw [hsame]
    exact h.presence e q

/-- What is new is nowhere in the tree yet. -/
theorem Sound.create (h : Sound loose extra t) (hn : n ∉ t.children p) (hextra : extra (n :: p) = 0) :
    Sound loose extra (t.create (n :: p)) := by
  have hleaf := h.shape.flat n p hn
  have hout : ∀ m q, m ∈ t.children q → m :: q ≠ n :: p := by
    intro m q hm heq
    obtain ⟨rfl, rfl⟩ := List.cons.inj heq
    exact hn hm
  have hchildren : (t.create (n :: p)).children = t.children := by
    show Function.update t.children (n :: p) [] = _
    rw [← hleaf, Function.update_eq_self]
  have hparent : (t.create (n :: p)).parent = t.parent := by
    funext q
    cases q with
    | nil => rfl
    | cons m q => rw [parent_cons, parent_cons, hchildren]
  have hpresences : ∀ q, (t.create (n :: p)).presences q = if q = n :: p then
      none :: (t.devices.filter fun d => (t.files d (n :: p)).isSome).map some else t.presences q :=
    fun q => Function.update_apply ..
  have hold : ∀ q, q ≠ n :: p → (t.create (n :: p)).presences q = t.presences q := fun q hq => by
    rw [hpresences, if_neg hq]
  let stats (e : δ) : Stats :=
    if e ∈ t.devices then ((t.files e (n :: p)).map refreshOwnStats).getD 0 else 0
  have hown : ∀ e : δ, (t.create (n :: p)).own (some e) = Function.update (t.own (some e)) (n :: p) (stats e) :=
    fun e => rfl
  have hlinked : ∀ (e : δ) q, (t.create (n :: p)).linked (some e) q =
      if q = n :: p then false else t.linked (some e) q := fun e q => Function.update_apply ..
  have hbelow : ∀ e : δ, (t.create (n :: p)).below e = t.below e := by
    intro e
    funext q
    show ((t.create (n :: p)).children q).filter _ = _
    rw [hchildren]
    refine List.filter_congr fun m hm => ?_
    rw [hlinked, if_neg (hout m q hm)]
  have hbest : ∀ q, (t.create (n :: p)).best q = if q = n :: p then none else t.best q :=
    fun q => Function.update_apply ..
  have hweight : (t.create (n :: p)).weight = Function.update t.weight (n :: p) 0 := by
    funext q
    unfold Tree.weight
    rw [hbest]
    by_cases hq : q = n :: p
    · rw [if_pos hq, hq, Function.update_self]
      rfl
    · rw [if_neg hq, Function.update_of_ne hq]
      congr 1
      funext b
      rw [hown, Function.update_of_ne hq]
  refine ⟨⟨h.shape.devices, fun q => ?_, fun q => ?_, fun q hq => ?_, fun m q hm => ?_, fun m q hm => ?_,
    fun q hq => ⟨?_, ?_⟩, h.shape.orphansNodup.erase _⟩, fun e q hq => ?_, fun q b hb => ?_, fun e m q => ?_,
    fun q => ?_, fun e q => ?_⟩
  · rw [hchildren]
    exact h.shape.children q
  · rw [hpresences]
    split
    · refine List.nodup_cons.mpr ⟨by simp, ?_⟩
      exact (h.shape.devices.filter _).map (Option.some_injective δ)
    · exact h.shape.presences q
  · show q.length ≤ max t.height (n :: p).length
    by_cases hqp : q = n :: p
    · rw [hqp]
      exact Nat.le_max_right ..
    · rw [hold q hqp] at hq
      exact (h.shape.deep q hq).trans (Nat.le_max_left ..)
  · rw [hchildren] at hm
    exact (h.shape.deepChild m q hm).trans (Nat.le_max_left ..)
  · rw [hchildren] at hm ⊢
    exact h.shape.flat m q hm
  · rw [hparent]
    exact (h.shape.orphans q (List.mem_of_mem_erase hq)).1
  · exact (h.shape.orphans q (List.mem_of_mem_erase hq)).2.trans (Nat.le_max_left ..)
  · rw [hown, hlinked]
    by_cases hqp : q = n :: p
    · subst hqp
      rw [Function.update_self, if_pos rfl]
      refine ⟨?_, rfl⟩
      rw [hpresences, if_pos rfl] at hq
      by_cases he : e ∈ t.devices
      · have hno : t.files e (n :: p) = none := by
          by_contra hne
          refine hq (List.mem_cons_of_mem _ (List.mem_map.mpr ⟨e, List.mem_filter.mpr ⟨he, ?_⟩, rfl⟩))
          exact Option.isSome_iff_ne_none.mpr hne
        show (if e ∈ t.devices then _ else _) = _
        rw [if_pos he, hno]
        rfl
      · exact if_neg he
    · rw [Function.update_of_ne hqp, if_neg hqp]
      rw [hold q hqp] at hq
      exact h.absent e q hq
  · rw [hbest] at hb
    split at hb
    · cases hb
    · rename_i hqp
      rw [hold q hqp, hparent]
      exact h.best q b hb
  · rw [hlinked, hchildren]
    by_cases hmq : m :: q = n :: p
    · rw [if_pos hmq]
      exact iff_of_false Bool.false_ne_true fun hc => hout m q hc.2.1 hmq
    · rw [if_neg hmq, hold _ hmq, h.links]
      by_cases hq : q = n :: p
      · refine iff_of_false (fun hc => ?_) fun hc => ?_
        · rw [hq, hleaf] at hc
          exact List.not_mem_nil hc.2.1
        · rw [hq, hleaf] at hc
          exact List.not_mem_nil hc.2.1
      · rw [hold q hq]
  · rw [hchildren, hweight]
    show Totals.residual t.children _ (Function.update t.statistics (n :: p) 0) q = _
    rw [Totals.residual_update_leaf hout hleaf, sub_zero]
    split
    · rename_i hq
      rw [hq, hextra]
    · exact h.entity q
  · rw [hbelow, hown]
    show Totals.residual (t.below e) _ (Function.update (t.counted (some e)) (n :: p) (stats e)) q = 0
    have hleaf' : t.below e (n :: p) = [] := by
      unfold Tree.below
      rw [hleaf]
      rfl
    rw [Totals.residual_update_leaf (fun m q hm => hout m q (mem_below.mp hm).1) hleaf', sub_self, h.presence,
      ite_self]

theorem filter_orderedInsert {names : List String} {f : String → Bool} (hf : f n = false) :
    (names.orderedInsert (· ≤ ·) n).filter f = names.filter f := by
  induction names with
  | nil => rw [List.orderedInsert_nil, List.filter_cons_of_neg (by rw [hf]; exact Bool.false_ne_true)]
  | cons m names ih =>
    rw [List.orderedInsert_cons]
    split
    · rw [List.filter_cons_of_neg (by rw [hf]; exact Bool.false_ne_true)]
    · rw [List.filter_cons, List.filter_cons, ih]

omit [DecidableEq δ] in
/-- A child without children is taken by its parent. All of its presences are loose. -/
theorem Sound.graft (h : Sound loose extra t) (hp : ∀ m q, p = m :: q → m ∈ t.children q)
    (hn : n ∉ t.children p) (horphan : n :: p ∉ t.orphans)
    (hheight : (n :: p).length ≤ t.height) (hextra : extra (n :: p) = 0) :
    Sound (fun e q => loose e q ∨ q = n :: p) extra
      (t.setChildren p ((t.children p).orderedInsert (· ≤ ·) n)) := by
  let t' : Tree δ := t.setChildren p ((t.children p).orderedInsert (· ≤ ·) n)
  have hget : ∀ q, t'.children q = if q = p then (t.children p).orderedInsert (· ≤ ·) n else t.children q :=
    fun q => Function.update_apply ..
  have hmem : ∀ m q, m ∈ t'.children q ↔ m ∈ t.children q ∨ m :: q = n :: p := by
    intro m q
    rw [hget, List.cons.injEq]
    split
    · rename_i hq
      rw [hq, List.mem_orderedInsert, or_comm, and_iff_left rfl]
    · rename_i hq
      exact ⟨.inl, fun hor => hor.resolve_right fun hc => hq hc.2⟩
  have hlinked : ∀ e : δ, t.linked (some e) (n :: p) = false := by
    intro e
    rw [← Bool.not_eq_true, h.links]
    exact fun hc => hn hc.2.1
  have hleaf := h.shape.flat n p hn
  have hstatistics : t.statistics (n :: p) = 0 := by
    have hres := h.entity (n :: p)
    have hbest : t.best (n :: p) = none := by
      refine Option.eq_none_iff_forall_ne_some.mpr fun b hb => hn ?_
      exact parent_isSome.mp (h.best _ b hb).2
    unfold Totals.residual Tree.weight at hres
    rw [hleaf, hbest, hextra] at hres
    simpa using hres
  have hperm : (t'.children p).Perm (n :: t.children p) := by
    rw [hget, if_pos rfl]
    exact List.perm_orderedInsert _ n (t.children p)
  have hsame : ∀ q, q ≠ p → t'.children q = t.children q := fun q hq => by rw [hget, if_neg hq]
  refine ⟨⟨h.shape.devices, fun q => ?_, h.shape.presences, h.shape.deep, fun m q hm => ?_, fun m q hm => ?_,
    fun q hq => ⟨?_, (h.shape.orphans q hq).2⟩, h.shape.orphansNodup⟩, h.absent, fun q b hb => ?_,
    fun e m q => ?_, fun q => ?_, fun e q => ?_⟩
  · by_cases hq : q = p
    · rw [hq]
      exact hperm.nodup_iff.mpr (List.nodup_cons.mpr ⟨hn, h.shape.children p⟩)
    · exact (hsame q hq).symm ▸ h.shape.children q
  · rcases (hmem m q).mp hm with hold | heq
    · exact h.shape.deepChild m q hold
    · rw [heq]
      exact hheight
  · have hno : ¬ (m ∈ t.children q ∨ m :: q = n :: p) := fun hc => hm ((hmem m q).mpr hc)
    have hmq : m :: q ≠ p := by
      rintro rfl
      exact hno (.inl (hp m q rfl))
    exact (hsame _ hmq).trans (h.shape.flat m q fun hc => hno (.inl hc))
  · cases q with
    | nil => rfl
    | cons m q =>
      have hnone := (h.shape.orphans _ hq).1
      rw [parent_cons, if_neg]
      intro hin
      rcases (hmem m q).mp hin with hold | heq
      · rw [parent_cons, if_pos hold] at hnone
        cases hnone
      · exact horphan (heq ▸ hq)
  · obtain ⟨hin, hsome⟩ := h.best q b hb
    refine ⟨hin, ?_⟩
    cases q with
    | nil => cases hsome
    | cons m q => exact parent_isSome.mpr ((hmem m q).mpr (.inl (parent_isSome.mp hsome)))
  · show t.linked (some e) (m :: q) = true ↔ _ ∧ m ∈ t'.children q ∧ _
    rw [hmem]
    by_cases heq : m :: q = n :: p
    · rw [heq, hlinked]
      exact iff_of_false Bool.false_ne_true fun hc => hc.2.2.2 (.inr rfl)
    · rw [h.links]
      simp only [heq, or_false]
      rfl
  · show Totals.residual t'.children t.weight t.statistics q = _
    rw [Totals.residual_insert hperm hsame, h.entity, hstatistics, ite_self, sub_zero]
  · have hbelow : t'.below e = t.below e := by
      funext q
      by_cases hq : q = p
      · subst hq
        show (t'.children q).filter _ = _
        rw [hget, if_pos rfl]
        exact filter_orderedInsert (hlinked e)
      · show (t'.children q).filter _ = _
        rw [hsame q hq]
        rfl
    show Totals.residual (t'.below e) _ _ q = 0
    rw [hbelow]
    exact h.presence e q

/-- A file entity with the presence of one more device. It and what the device has below are loose. -/
def Tree.addPresence (t : Tree δ) (p : Path) (d : δ) (stats : Stats) : Tree δ :=
  (((({ t with presences := Function.update t.presences p (t.presences p ++ [some d]) } : Tree δ).setOwn (some d) p
    stats).setCounted (some d) p stats).setLinked (some d) p false)

theorem Sound.addPresence (h : Sound loose extra t) (hd : some d ∉ t.presences p) (hheight : p.length ≤ t.height)
    (stats : Stats) : Sound (fun e q => loose e q ∨ e = d ∧ (q = p ∨ ∃ m, q = m :: p)) extra
      (t.addPresence p d stats) := by
  have hmem : ∀ (e : δ) q, some e ∈ (t.addPresence p d stats).presences q ↔
      some e ∈ t.presences q ∨ e = d ∧ q = p := by
    intro e q
    show some e ∈ Function.update t.presences p _ q ↔ _
    by_cases hq : q = p
    · rw [hq, Function.update_self, List.mem_append, List.mem_singleton, Option.some.injEq, and_iff_left rfl]
    · rw [Function.update_of_ne hq]
      exact ⟨.inl, fun hor => hor.resolve_right fun hc => hq hc.2⟩
  have hown : ∀ e : δ, (t.addPresence p d stats).own (some e) =
      if e = d then Function.update (t.own (some d)) p stats else t.own (some e) := fun e => own_update
  have hcounted : ∀ e : δ, (t.addPresence p d stats).counted (some e) =
      if e = d then Function.update (t.counted (some d)) p stats else t.counted (some e) := by
    intro e
    show Function.update t.counted (some d) _ (some e) = _
    split
    · rename_i he
      rw [he, Function.update_self]
      rfl
    · rename_i he
      exact Function.update_of_ne (fun heq => he (Option.some.inj heq)) ..
  have hlinked : ∀ (e : δ) q, (t.addPresence p d stats).linked (some e) q = t.linked (some e) q := by
    intro e q
    show Function.update t.linked (some d) (Function.update (t.linked (some d)) p false) (some e) q = _
    rw [← (h.absent d p hd).2, Function.update_eq_self, Function.update_eq_self]
  have hbelow : ∀ e : δ, (t.addPresence p d stats).below e = t.below e := by
    intro e
    funext q
    exact List.filter_congr fun m _ => hlinked e (m :: q)
  have hbest : t.best p ≠ some d := fun hb => hd (h.best p d hb).1
  have hweight : (t.addPresence p d stats).weight = t.weight := by
    funext q
    show (t.best q).elim 0 (fun b => (t.addPresence p d stats).own (some b) q) = _
    unfold Tree.weight
    cases hq : t.best q with
    | none => rfl
    | some b =>
      rw [Option.elim_some, Option.elim_some, hown]
      split
      · rename_i hb
        subst hb
        refine Function.update_of_ne ?_ ..
        rintro rfl
        exact hbest hq
      · rfl
  refine ⟨⟨h.shape.devices, h.shape.children, fun q => ?_, fun q hq => ?_, h.shape.deepChild, h.shape.flat,
    h.shape.orphans, h.shape.orphansNodup⟩, fun e q hq => ?_, fun q b hb => ?_, fun e m q => ?_, fun q => ?_,
    fun e q => ?_⟩
  · show (Function.update t.presences p (t.presences p ++ [some d]) q).Nodup
    by_cases hq : q = p
    · rw [hq, Function.update_self]
      refine List.nodup_append.mpr ⟨h.shape.presences p, List.nodup_singleton _, fun a ha b hb hab => ?_⟩
      exact hd (List.mem_singleton.mp hb ▸ hab ▸ ha)
    · rw [Function.update_of_ne hq]
      exact h.shape.presences q
  · by_cases hqp : q = p
    · exact hqp ▸ hheight
    · change Function.update t.presences p _ q ≠ [] at hq
      rw [Function.update_of_ne hqp] at hq
      exact h.shape.deep q hq
  · rw [hmem, not_or] at hq
    obtain ⟨hzero, hfree⟩ := h.absent e q hq.1
    rw [hown, hlinked]
    refine ⟨?_, hfree⟩
    split
    · rename_i he
      subst he
      rw [Function.update_of_ne fun hqp => hq.2 ⟨rfl, hqp⟩]
      exact hzero
    · exact hzero
  · obtain ⟨hin, hsome⟩ := h.best q b hb
    exact ⟨(hmem b q).mpr (.inl hin), hsome⟩
  · rw [hlinked, h.links, hmem, hmem]
    constructor
    · rintro ⟨hm, hc, hq, hno⟩
      refine ⟨.inl hm, hc, .inl hq, ?_⟩
      rintro (hl | ⟨rfl, heq | ⟨x, heq⟩⟩)
      · exact hno hl
      · exact hd (heq ▸ hm)
      · exact hd ((List.cons.inj heq).2 ▸ hq)
    · rintro ⟨hm, hc, hq, hno⟩
      rw [not_or] at hno
      refine ⟨hm.resolve_right fun hc => ?_, hc, hq.resolve_right fun hc => ?_, hno.1⟩
      · exact hno.2 ⟨hc.1, .inl hc.2⟩
      · exact hno.2 ⟨hc.1, .inr ⟨m, hc.2 ▸ rfl⟩⟩
  · rw [hweight]
    exact h.entity q
  · rw [hbelow, hown, hcounted]
    split
    · rename_i he
      subst he
      have hleaf : t.below e p = [] := by
        refine List.filter_eq_nil_iff.mpr fun m _ hl => hd ?_
        exact ((h.links e m p).mp hl).2.2.1
      rw [Totals.residual_update_leaf (fun m q hm => ?_) hleaf, sub_self, h.presence, ite_self]
      rintro rfl
      exact hd ((h.links e m q).mp (mem_below.mp hm).2).1
    · exact h.presence e q

end Pushes

end Presentation

end SyncSpirit
