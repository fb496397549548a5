import SyncSpirit.PresentationInsert

/-!
# Runs of the presentation tree

`balanced_of_run`: in every state of a run the statistics of each entity are the sum over the best presences at
and below it, and those of each presence the sum over the presences of its device, if every event `Fits`. An
insertion always does if the device has the parent directory, too. An update does not if it makes another
presence of a directory the best one, and the two count something else below it: the difference is taken between
all that the device has and all that the entity has, where only the directory itself has changed.
-/

namespace SyncSpirit

namespace Presentation

open Totals (push)

variable {δ : Type} [DecidableEq δ]

section Removing

variable {t t' : Tree δ} {loose : δ → Path → Prop} {extra : Path → Stats} {p q : Path} {n : String} {d : δ}
  {k : Option δ} {diff : Stats}

/-! ## Removing -/

theorem forget_setOwn (stats : Stats) : (t.setOwn k p stats).forget p k = t.forget p k := by
  unfold Tree.forget Tree.setOwn
  dsimp only
  rw [Function.update_self, Function.update_idem, Function.update_idem]

omit [DecidableEq δ] in
/-- A presence without links below it counts itself only. -/
theorem Sound.counted_eq (h : Sound loose extra t) (hbelow : ∀ n ∈ t.children p, t.linked (some d) (n :: p) = false) :
    t.counted (some d) p = t.own (some d) p := by
  have hnil : t.below d p = [] := by
    refine List.filter_eq_nil_iff.mpr fun n hn => ?_
    rw [hbelow n hn]
    exact Bool.false_ne_true
  have hres := h.presence d p
  unfold Totals.residual at hres
  rw [hnil, List.map_nil, List.sum_nil, sub_zero, sub_eq_zero] at hres
  exact hres

/-- A presence goes that is not the best one. -/
theorem Sound.forget_push (h : Sound (fun _ _ => False) extra t) (hbest : t.best p ≠ some d)
    (hbelow : ∀ n ∈ t.children p, t.linked (some d) (n :: p) = false) : Sound (fun _ _ => False) extra
      ((Tree.pushStats (-t.own (some d) p) (some d) false p t).forget p (some d)) := by
  by_cases hp : some d ∈ t.presences p
  · have hvalue := h.revalue hp (fun _ _ => id) (-t.own (some d) p)
    rw [pushStats_source hp (h.hlinks fun _ _ => id)] at hvalue ⊢
    rw [← forget_setOwn (t.own (some d) p + -t.own (some d) p)]
    refine Sound.forget (hvalue.congr fun q => ?_) fun e he => ?_
    · rw [if_neg (fun hc => hbest hc.2), sub_zero]
    · obtain rfl := Option.some.inj he
      have hown : ({ t with counted := Function.update t.counted (some d) (push (t.below d)
          (-t.own (some d) p) p (t.counted (some d))) }.setOwn (some d) p
            (t.own (some d) p + -t.own (some d) p)).own (some d) p = 0 := by
        rw [own_update, if_pos rfl, Function.update_self, add_neg_cancel]
      exact ⟨hown, (hvalue.counted_eq hbelow).trans hown, hbest, hbelow⟩
  · rw [pushStats_absent hp]
    refine h.forget fun e he => ?_
    obtain rfl := Option.some.inj he
    have hown := (h.absent d p hp).1
    exact ⟨hown, (h.counted_eq hbelow).trans hown, hbest, hbelow⟩

/-- **`remove_presense`**, the presence itself. -/
theorem Good.dropPresence (h : Good t)
    (hbelow : ∀ d, k = some d → ∀ n ∈ t.children p, t.linked (some d) (n :: p) = false) :
    Good (t.dropPresence p k) := by
  cases k with
  | none =>
    unfold Tree.dropPresence
    dsimp only
    rw [if_neg (fun hc => hc.1 rfl), pushStats_none]
    exact Sound.forget h fun e he => absurd he.symm (Option.some_ne_none e)
  | some d =>
    have hbelow := hbelow d rfl
    unfold Tree.dropPresence
    dsimp only
    by_cases hbest : t.best p = some d
    · rw [if_pos ⟨Option.some_ne_none d, hbest⟩]
      -- the same from a tree where no presence is the best one any more
      have hp := (h.best p d hbest).1
      have hnone : Sound (fun _ _ => False) _ (t.setBest p none) :=
        Sound.setBest h fun b hb => absurd hb.symm (Option.some_ne_none b)
      have hno : (t.setBest p none).best p ≠ some d := by
        show Function.update t.best p none p ≠ some d
        rw [Function.update_self]
        exact (Option.some_ne_none d).symm
      have hgone := hnone.forget_push hno hbelow
      have hpush : Tree.pushStats (-t.own (some d) p) (some d) false p (t.setBest p none) =
          (Tree.pushStats (-t.own (some d) p) (some d) false p t).setBest p none := by
        rw [pushStats_source hp (h.hlinks fun _ _ => id)]
        exact pushStats_source hp (h.hlinks fun _ _ => id)
      change Sound _ _ ((Tree.pushStats (-t.own (some d) p) (some d) false p (t.setBest p none)).forget p
        (some d)) at hgone
      rw [hpush] at hgone
      change Sound _ _ (((Tree.pushStats (-t.own (some d) p) (some d) false p t).forget p (some d)).setBest p
        none) at hgone
      generalize (Tree.pushStats (-t.own (some d) p) (some d) false p t).forget p (some d) = u at *
      have hweight : t.weight p = t.own (some d) p := by
        unfold Tree.weight
        rw [hbest, Option.elim_some]
      have hnow : (u.setBest p none).weight p = 0 := by
        show (Function.update u.best p none p).elim 0 _ = _
        rw [Function.update_self]
        rfl
      have hset : u.setBest p (u.recalcBest p) = (u.setBest p none).setBest p (u.recalcBest p) := by
        unfold Tree.setBest
        rw [Function.update_idem]
      rw [hset]
      refine hgone.rebest recalcBest_spec.1 (fun q hq => by rw [if_neg hq, add_zero]) ?_
      rw [if_pos rfl, hweight, hnow, Option.elim_none]
      show _ + (0 - (u.recalcBest p).elim 0 fun b => u.own (some b) p) + _ = _
      abel
    · rw [if_neg (fun hc => hbest hc.2)]
      exact Sound.forget_push h hbest hbelow

/-- Nothing has appeared. -/
structure Pruned (t t' : Tree δ) : Prop where
  height : t'.height = t.height
  children : ∀ q, t'.children q ⊆ t.children q
  presences : ∀ q, t'.presences q ⊆ t.presences q

omit [DecidableEq δ] in
theorem Pruned.refl : Pruned t t := ⟨rfl, fun _ => List.Subset.refl _, fun _ => List.Subset.refl _⟩

omit [DecidableEq δ] in
theorem Pruned.trans {t'' : Tree δ} (h : Pruned t t') (h' : Pruned t' t'') : Pruned t t'' :=
  ⟨h'.height.trans h.height, fun q => List.Subset.trans (h'.children q) (h.children q),
    fun q => List.Subset.trans (h'.presences q) (h.presences q)⟩

/-- A presence that goes leaves everything else. -/
theorem dropPresence_frame : (t.dropPresence p k).height = t.height ∧ (t.dropPresence p k).children = t.children ∧
    (t.dropPresence p k).presences = Function.update t.presences p ((t.presences p).erase k) := by
  have hframed : Framed t (Tree.pushStats (-t.own k p) k false p t) := pushStats_framed
  unfold Tree.dropPresence
  dsimp only
  generalize Tree.pushStats (-t.own k p) k false p t = u at *
  have hforget : (u.forget p k).height = t.height ∧ (u.forget p k).children = t.children ∧
      (u.forget p k).presences = Function.update t.presences p ((t.presences p).erase k) :=
    ⟨hframed.height, hframed.children, by
      show Function.update u.presences p ((u.presences p).erase k) = _
      rw [hframed.presences]⟩
  split
  · rw [pushStats_best]
    exact hforget
  · exact hforget

theorem dropPresence_pruned : Pruned t (t.dropPresence p k) := by
  obtain ⟨hheight, hchildren, hpresences⟩ := dropPresence_frame (t := t) (p := p) (k := k)
  refine ⟨hheight, fun q => hchildren ▸ List.Subset.refl _, fun q => ?_⟩
  rw [hpresences]
  by_cases hq : q = p
  · rw [hq, Function.update_self]
    exact List.erase_subset
  · rw [Function.update_of_ne hq]
    exact List.Subset.refl _

omit [DecidableEq δ] in
theorem mem_eraseChild {m : String} : m ∈ (t.eraseChild p n).children q →
    m ∈ t.children q := by
  intro hm
  change m ∈ Function.update t.children p ((t.children p).erase n) q at hm
  by_cases hq : q = p
  · rw [hq, Function.update_self] at hm
    exact hq ▸ List.mem_of_mem_erase hm
  · rwa [Function.update_of_ne hq] at hm

omit [DecidableEq δ] in
theorem eraseChild_pruned : Pruned t (t.eraseChild p n) :=
  ⟨rfl, fun _ _ hm => mem_eraseChild hm, fun _ => List.Subset.refl _⟩

omit [DecidableEq δ] in
theorem notMem_eraseChild (h : Shape t) : n ∉ (t.eraseChild p n).children p := by
  show n ∉ Function.update t.children p ((t.children p).erase n) p
  rw [Function.update_self]
  exact (h.children p).not_mem_erase

/-- All presences of an entity without children. -/
theorem Good.dropAll {keys : List (Option δ)} (h : Good t) (hchildren : t.children p = [])
    (hkeys : t.presences p = keys) : Good (keys.foldl (fun t k => t.dropPresence p k) t) ∧
      Pruned t (keys.foldl (fun t k => t.dropPresence p k) t) ∧
      (keys.foldl (fun t k => t.dropPresence p k) t).presences p = [] := by
  induction keys generalizing t with
  | nil => exact ⟨h, .refl, hkeys⟩
  | cons k keys ih =>
    have hstep : Good (t.dropPresence p k) := h.dropPresence fun d _ n hn => absurd (hchildren ▸ hn) List.not_mem_nil
    obtain ⟨-, hsame, hpresences⟩ := dropPresence_frame (t := t) (p := p) (k := k)
    obtain ⟨hend, hpruned, hnone⟩ := ih hstep (hsame ▸ hchildren) (by
      rw [hpresences, Function.update_self, hkeys, List.erase_cons_head])
    exact ⟨hend, dropPresence_pruned.trans hpruned, hnone⟩

/-- **`detach_child`** leaves nothing. -/
theorem Good.detachChild {fuel : Nat} (h : Good t) (hfuel : t.height < fuel + p.length) :
    Good (Tree.detachChild fuel p t) ∧ Pruned t (Tree.detachChild fuel p t) ∧
      (Tree.detachChild fuel p t).presences p = [] ∧ (Tree.detachChild fuel p t).children p = [] := by
  induction fuel generalizing t p with
  | zero =>
    refine ⟨h, .refl, ?_, ?_⟩
    · by_contra hne
      have := h.shape.deep p hne
      omega
    · refine List.eq_nil_iff_forall_not_mem.mpr fun n hn => ?_
      have := h.shape.deepChild n p hn
      rw [List.length_cons] at this
      omega
  | succ fuel ih =>
    have hfold : ∀ (names : List String) (t : Tree δ), Good t → t.height < fuel + 1 + p.length →
        Good (names.foldl (fun t n => (Tree.detachChild fuel (n :: p) t).eraseChild p n) t) ∧
        Pruned t (names.foldl (fun t n => (Tree.detachChild fuel (n :: p) t).eraseChild p n) t) ∧
        ∀ n ∈ names, n ∉ (names.foldl (fun t n => (Tree.detachChild fuel (n :: p) t).eraseChild p n) t).children p := by
      intro names
      induction names with
      | nil => exact fun t ht _ => ⟨ht, .refl, fun n hn => absurd hn List.not_mem_nil⟩
      | cons n names ihnames =>
        intro t ht hheight
        obtain ⟨hgood, hpruned, hpresences, hchildren⟩ := @ih t (n :: p) ht (by rw [List.length_cons]; omega)
        have herased : Good ((Tree.detachChild fuel (n :: p) t).eraseChild p n) :=
          Sound.eraseChild hgood hpresences hchildren rfl
        have hstep := hpruned.trans (eraseChild_pruned (p := p) (n := n))
        obtain ⟨hend, hpruned', hgone⟩ := ihnames _ herased (hstep.height ▸ hheight)
        refine ⟨hend, hstep.trans hpruned', fun m hm => ?_⟩
        rcases List.mem_cons.mp hm with rfl | hm
        · exact fun hin => notMem_eraseChild hgood.shape (hpruned'.children p hin)
        · exact hgone m hm
    obtain ⟨hgood, hpruned, hgone⟩ := hfold (t.children p) t h hfuel
    unfold Tree.detachChild
    dsimp only
    generalize (t.children p).foldl (fun t n => (Tree.detachChild fuel (n :: p) t).eraseChild p n) t = u at *
    have hnil : u.children p = [] :=
      List.eq_nil_iff_forall_not_mem.mpr fun n hn => hgone n (hpruned.children p hn) hn
    obtain ⟨hend, hpruned', hnone⟩ := hgood.dropAll hnil rfl
    refine ⟨hend, hpruned.trans hpruned', hnone, List.eq_nil_iff_forall_not_mem.mpr fun n hn => ?_⟩
    have := hpruned'.children p hn
    rw [hnil] at this
    cases this

/-- What a device has below an entity. -/
def Tree.stripChildren (fuel : Nat) (p : Path) (k : Option δ) (t : Tree δ) : Tree δ :=
  (t.children p).foldl (fun t n =>
    if k ∈ t.presences (n :: p) then
      let t := Tree.removePresence fuel (n :: p) k t
      if t.presences (n :: p) = [] then (Tree.detachChild (t.height + 1) (n :: p) t).eraseChild p n else t
    else t) t

theorem removePresence_succ {fuel : Nat} : Tree.removePresence (fuel + 1) p k t =
    if (((Tree.stripChildren fuel p k t).dropPresence p k).presences p) = [none] then
      (Tree.stripChildren fuel p none ((Tree.stripChildren fuel p k t).dropPresence p k)).dropPresence p none
    else (Tree.stripChildren fuel p k t).dropPresence p k := rfl

/-- **`remove_presense`**, with everything below. -/
theorem Good.removePresence {fuel : Nat} (h : Good t) (hfuel : t.height < fuel + p.length) :
    Good (Tree.removePresence fuel p k t) ∧ Pruned t (Tree.removePresence fuel p k t) ∧
      k ∉ (Tree.removePresence fuel p k t).presences p := by
  induction fuel generalizing t p k with
  | zero =>
    refine ⟨h, .refl, fun hk => ?_⟩
    have := h.shape.deep p fun hnil => absurd (hnil ▸ hk) List.not_mem_nil
    omega
  | succ fuel ih =>
    have hdetach : ∀ (t : Tree δ) n, Good t →
        Good ((Tree.detachChild (t.height + 1) (n :: p) t).eraseChild p n) ∧
          Pruned t ((Tree.detachChild (t.height + 1) (n :: p) t).eraseChild p n) := by
      intro t n ht
      obtain ⟨hgood, hpruned, hpresences, hchildren⟩ := @Good.detachChild _ _ t (n :: p) (t.height + 1) ht (by omega)
      exact ⟨Sound.eraseChild hgood hpresences hchildren rfl, hpruned.trans eraseChild_pruned⟩
    have hfold : ∀ (k : Option δ) (names : List String) (t : Tree δ), Good t → t.height < fuel + 1 + p.length →
        ∀ t', t' = names.foldl (fun t n =>
          if k ∈ t.presences (n :: p) then
            let t := Tree.removePresence fuel (n :: p) k t
            if t.presences (n :: p) = [] then (Tree.detachChild (t.height + 1) (n :: p) t).eraseChild p n else t
          else t) t →
        Good t' ∧ Pruned t t' ∧ ∀ n ∈ names, k ∉ t'.presences (n :: p) := by
      intro k names
      induction names with
      | nil =>
        rintro t ht - t' rfl
        exact ⟨ht, .refl, fun n hn => absurd hn List.not_mem_nil⟩
      | cons n names ihnames =>
        rintro t ht hheight t' rfl
        rw [List.foldl_cons]
        have hstep : ∀ u, u = (if k ∈ t.presences (n :: p) then
            let t := Tree.removePresence fuel (n :: p) k t
            if t.presences (n :: p) = [] then (Tree.detachChild (t.height + 1) (n :: p) t).eraseChild p n else t
          else t) → Good u ∧ Pruned t u ∧ k ∉ u.presences (n :: p) := by
          rintro u rfl
          split
          · obtain ⟨hgood, hpruned, hgone⟩ := @ih t (n :: p) k ht (by rw [List.length_cons]; omega)
            dsimp only
            split
            · obtain ⟨hgood', hpruned'⟩ := hdetach _ n hgood
              exact ⟨hgood', hpruned.trans hpruned', fun hk => hgone (hpruned'.presences _ hk)⟩
            · exact ⟨hgood, hpruned, hgone⟩
          · rename_i hk
            exact ⟨ht, .refl, hk⟩
        obtain ⟨hgood, hpruned, hgone⟩ := hstep _ rfl
        obtain ⟨hend, hpruned', hall⟩ := ihnames _ hgood (hpruned.height ▸ hheight) _ rfl
        refine ⟨hend, hpruned.trans hpruned', fun m hm => ?_⟩
        rcases List.mem_cons.mp hm with rfl | hm
        · exact fun hk => hgone (hpruned'.presences _ hk)
        · exact hall m hm
    have hstrip : ∀ (k : Option δ) (t : Tree δ), Good t → t.height < fuel + 1 + p.length →
        Good ((Tree.stripChildren fuel p k t).dropPresence p k) ∧
          Pruned t ((Tree.stripChildren fuel p k t).dropPresence p k) ∧
          k ∉ ((Tree.stripChildren fuel p k t).dropPresence p k).presences p := by
      intro k t ht hheight
      obtain ⟨hgood, hpruned, hgone⟩ := hfold k (t.children p) t ht hheight _ rfl
      change Good (Tree.stripChildren fuel p k t) at hgood
      change Pruned t (Tree.stripChildren fuel p k t) at hpruned
      change ∀ n ∈ t.children p, k ∉ (Tree.stripChildren fuel p k t).presences (n :: p) at hgone
      generalize Tree.stripChildren fuel p k t = u at *
      refine ⟨hgood.dropPresence fun d hk n hn => ?_, hpruned.trans dropPresence_pruned, ?_⟩
      · rw [← Bool.not_eq_true, hgood.links]
        exact fun hc => hgone n (hpruned.children p hn) (hk ▸ hc.1)
      · rw [dropPresence_frame.2.2, Function.update_self]
        exact (hgood.shape.presences p).not_mem_erase
    obtain ⟨hgood, hpruned, hgone⟩ := hstrip k t h hfuel
    rw [removePresence_succ]
    split
    · obtain ⟨hgood', hpruned', -⟩ := hstrip none _ hgood (hpruned.height ▸ hfuel)
      exact ⟨hgood', hpruned.trans hpruned', fun hk => hgone (hpruned'.presences p hk)⟩
    · exact ⟨hgood, hpruned, hgone⟩

/-- **`clear_presense`.** -/
theorem Good.clearPresence (h : Good t) : Good (t.clearPresence p d) := by
  obtain ⟨hgood, -, -⟩ := @Good.removePresence _ _ t p (some d) (t.height + 1) h (by omega)
  cases p with
  | nil => exact hgood
  | cons n q =>
    rw [Tree.clearPresence]
    generalize Tree.removePresence (t.height + 1) (n :: q) (some d) t = u at *
    split
    · obtain ⟨hgood', -, hpresences, hchildren⟩ :=
        @Good.detachChild _ _ u (n :: q) (u.height + 1) hgood (by omega)
      exact Sound.eraseChild hgood' hpresences hchildren rfl
    · exact hgood

/-! ## Updates -/

/-- Whether an update leaves the sums right, with the file as it is now. Let `b` be the best presence now.

- If it is the one that is updated, and has been before, then nothing changes in the statistics, or the
  device has all directories above.
- If it is the one that is updated, but has not been before, then below the entity the device counts
  what the entity counts.
- If it is another one, then the best presence before counts the same. -/
def UpdateFits (t : Tree δ) (p : Path) (d : δ) (f : File) : Prop :=
  ∀ b, t.recalcBest p = some b →
    if b = d then
      if t.best p = some d then
        refreshOwnStats f = t.own (some d) p ∨ ∀ q, q <:+ p → q ≠ [] → some d ∈ t.presences q
      else t.counted (some d) p - t.own (some d) p = t.statistics p - t.weight p
    else t.weight p = t.own (some b) p

theorem pushStats_zero {source : Option δ} {best : Bool} : Tree.pushStats 0 source best p t = t := by
  have hbump : ∀ (t : Tree δ) p, t.bump 0 source best p = t := by
    intro t p
    unfold Tree.bump Tree.setCounted
    simp only [add_zero, Function.update_eq_self, ite_self]
  induction p with
  | nil => exact hbump t []
  | cons n p ih =>
    unfold Tree.pushStats
    rw [hbump]
    dsimp only
    rw [ih, ite_self]

/-- **`on_update`.** -/
theorem Good.onUpdate {f : File} (h : Good t) (hd : some d ∈ t.presences p) (hfile : t.files d p = some f)
    (hfits : UpdateFits t p d f) (hupdate : t.onUpdate p d = some t') : Good t' := by
  unfold Tree.onUpdate at hupdate
  obtain ⟨b, hb, rfl⟩ := Option.map_eq_some_iff.mp hupdate
  have hfits := hfits b hb
  have hbest : ∀ c, some b = some c → some c ∈ t.presences p ∧ (t.parent p).isSome := fun c hc =>
    recalcBest_spec.1 c (hb.trans hc)
  have hstats : ((t.files d p).map refreshOwnStats).getD 0 = refreshOwnStats f := by
    rw [hfile]
    rfl
  dsimp only
  rw [hstats]
  generalize refreshOwnStats f = stats at *
  have hfree : ∀ q, q <:+ p → ¬ False := fun _ _ => id
  by_cases hbd : b = d
  · subst hbd
    rw [if_pos rfl] at hfits
    by_cases hold : t.best p = some b
    · rw [if_pos hold] at hfits
      have hset : t.setBest p (some b) = t := by
        unfold Tree.setBest
        rw [← hold, Function.update_eq_self]
      rw [hset, if_neg (fun hc => hc.1 hold), decide_eq_true ⟨fun hc => hc.1 hold, rfl⟩]
      rcases hfits with hsame | hchain
      · rw [hsame, sub_self, pushStats_zero, add_zero]
        unfold Tree.setOwn
        rw [Function.update_eq_self, Function.update_eq_self]
        exact h
      · have hpush := (h.revalue hd hfree (stats - t.own (some b) p)).pushBest (stats - t.own (some b) p) p
        rw [pushStats_best, pushStats_source hd (h.hlinks hfree)] at hpush
        rw [pushStats_both hd (h.hlinks hfree) hchain]
        refine hpush.congr fun q => ?_
        simp only [hold, and_true, zero_sub]
        split <;> simp
    · rw [if_neg hold] at hfits
      rw [if_pos ⟨hold, rfl⟩, decide_eq_false (fun hc => hc.1 ⟨hold, rfl⟩)]
      have hnow : (t.setBest p (some b)).best p = some b := Function.update_self ..
      have hvalue := (Sound.setBest h hbest).revalue hd hfree (stats - t.own (some b) p)
      rw [pushStats_source (t := t.setBest p (some b)) hd (h.hlinks hfree)] at hvalue ⊢
      have hcounted : Function.update t.counted (some b) (push (t.below b) (stats - t.own (some b) p) p
          (t.counted (some b))) (some b) p = t.counted (some b) p + (stats - t.own (some b) p) := by
        rw [Function.update_self, Totals.push_self]
      refine (hvalue.pushBest _ p).congr fun q => ?_
      by_cases hq : q = p
      · subst hq
        rw [if_pos rfl, if_pos ⟨rfl, hnow⟩, if_pos rfl, Option.elim_some]
        show 0 + (t.weight q - t.own (some b) q) - (stats - t.own (some b) q) +
          (Function.update t.counted (some b) (push (t.below b) (stats - t.own (some b) q) q
            (t.counted (some b))) (some b) q - t.statistics q) = 0
        rw [hcounted]
        calc _ = t.counted (some b) q - t.own (some b) q - (t.statistics q - t.weight q) := by abel
          _ = 0 := sub_eq_zero.mpr hfits
      · rw [if_neg hq, if_neg (fun hc => hq hc.1), if_neg hq, add_zero, sub_zero, add_zero]
  · rw [if_neg hbd] at hfits
    rw [if_neg (fun hc => hbd hc.2), decide_eq_false (fun hc => hbd hc.2.symm)]
    have hvalue := (Sound.setBest h hbest).revalue hd hfree (stats - t.own (some d) p)
    rw [pushStats_source (t := t.setBest p (some b)) hd (h.hlinks hfree)] at hvalue ⊢
    refine hvalue.congr fun q => ?_
    have hnow : (t.setBest p (some b)).best p = some b := Function.update_self ..
    by_cases hq : q = p
    · rw [if_pos hq, hq, if_neg (fun hc => hbd (Option.some.inj (hnow.symm.trans hc.2))), Option.elim_some,
        hfits, sub_self, add_zero, sub_zero]
    · rw [if_neg hq, if_neg (fun hc => hq hc.1), add_zero, sub_zero]

end Removing

/-! ## Runs -/

section Runs

variable {t t' : Tree δ} {devices : List δ} {e : Event δ}

/-- Whether an event leaves the sums right. An insertion into an entity that is there must not leave what the
device has below it without a link. -/
def Fits (t : Tree δ) : Event δ → Prop
  | .insert d p => ∀ n q, p = n :: q → n ∈ t.children q → some d ∈ t.presences p ∨ some d ∈ t.presences q ∨
      ∀ m ∈ t.children p, some d ∉ t.presences (m :: p)
  | .update d p f => some d ∈ t.presences p → UpdateFits (t.setFile d p (some f)) p d f
  | _ => True

/-- The states of the runs in which every event fits. -/
inductive Reached (devices : List δ) : Tree δ → Prop where
  | initial : Reached devices (Tree.initial devices)
  | step {t t' : Tree δ} (e : Event δ) (h : Reached devices t) (hfits : Fits t e) (hstep : t.step e = some t') :
      Reached devices t'

/-- The statistics of every entity are the sum over the best presences at and below it, and those of
every presence the sum over the presences of the same device at and below it. -/
structure Balanced (t : Tree δ) : Prop where
  entity : ∀ p, ∃ below : Finset Path, (∀ q, q ∈ below ↔ Forest.Below (Totals.nodes t.children) p q) ∧
    t.statistics p = ∑ q ∈ below, t.weight q
  presence : ∀ (d : δ) p, some d ∈ t.presences p → ∃ below : Finset Path,
    (∀ q, q ∈ below ↔ Forest.Below (Totals.nodes fun p =>
      (t.children p).filter fun n => some d ∈ t.presences (n :: p)) p q) ∧
    t.counted (some d) p = ∑ q ∈ below, t.own (some d) q

theorem Good.balanced (h : Good t) : Balanced t := by
  have hheight : ∀ p, t.children p ≠ [] → p.length < t.height := by
    intro p hne
    obtain ⟨n, hn⟩ := List.exists_mem_of_ne_nil _ hne
    exact h.shape.deepChild n p hn
  refine ⟨Totals.exists_total h.shape.children hheight h.entity, fun d p hp => ?_⟩
  have hbelow : ∀ p, t.below d p ≠ [] → p.length < t.height := by
    intro p hne
    obtain ⟨n, hn⟩ := List.exists_mem_of_ne_nil _ hne
    exact h.shape.deepChild n p (mem_below.mp hn).1
  obtain ⟨below, hmem, hsum⟩ := Totals.exists_total (fun p => h.below_nodup p) hbelow (h.presence d) p
  refine ⟨below, fun q => ?_, hsum⟩
  -- below a presence the links are where the presences are
  have hlink : ∀ p n, some d ∈ t.presences p → (n ∈ t.below d p ↔
      n ∈ (t.children p).filter fun n => some d ∈ t.presences (n :: p)) := by
    intro p n hp
    rw [mem_below, List.mem_filter, decide_eq_true_iff, h.links]
    exact ⟨fun hc => ⟨hc.1, hc.2.1⟩, fun hc => ⟨hc.1, hc.2, hc.1, hp, id⟩⟩
  rw [hmem]
  constructor
  · intro hq
    refine And.left (b := some d ∈ t.presences q) ?_
    induction hq with
    | self => exact ⟨.self, hp⟩
    | child _ hc ih =>
      obtain ⟨n, hn, rfl⟩ := List.mem_map.mp hc
      have hn' := (hlink _ n ih.2).mp hn
      exact ⟨.child ih.1 (List.mem_map.mpr ⟨n, hn', rfl⟩), by simpa using (List.mem_filter.mp hn').2⟩
  · intro hq
    refine And.left (b := some d ∈ t.presences q) ?_
    induction hq with
    | self => exact ⟨.self, hp⟩
    | child _ hc ih =>
      obtain ⟨n, hn, rfl⟩ := List.mem_map.mp hc
      exact ⟨.child ih.1 (List.mem_map.mpr ⟨n, (hlink _ n ih.2).mpr hn, rfl⟩),
        by simpa using (List.mem_filter.mp hn).2⟩

omit [DecidableEq δ] in
theorem good_initial (hdevices : devices.Nodup) : Good (Tree.initial devices) := by
  have hpresences : ∀ p, (Tree.initial devices).presences p = if p = [] then devices.map some else [] :=
    fun _ => rfl
  have hweight : (Tree.initial devices).weight = fun _ => 0 := rfl
  refine ⟨⟨hdevices, fun _ => List.nodup_nil, fun p => ?_, fun p hp => ?_, fun n p hn => absurd hn List.not_mem_nil,
    fun _ _ _ => rfl, fun q hq => absurd hq List.not_mem_nil, List.nodup_nil⟩, fun _ _ _ => ⟨rfl, rfl⟩,
    fun p b hb => absurd hb.symm (Option.some_ne_none b), fun d n p => ?_, fun q => ?_, fun d q => ?_⟩
  · rw [hpresences]
    split
    · exact hdevices.map (Option.some_injective δ)
    · exact List.nodup_nil
  · rw [hpresences] at hp
    split at hp
    · rename_i hnil
      rw [hnil]
      exact Nat.le_refl 0
    · exact absurd rfl hp
  · exact iff_of_false Bool.false_ne_true fun hc => List.not_mem_nil hc.2.1
  · rw [hweight]
    simp [Totals.residual, Tree.initial]
  · simp [Totals.residual, Tree.initial, Tree.below]

/-- Other files and devices change nothing that is presented. -/
theorem Good.setFile {d : δ} {p : Path} {f : Option File} (h : Good t) : Good (t.setFile d p f) :=
  ⟨⟨h.shape.devices, h.shape.children, h.shape.presences, h.shape.deep, h.shape.deepChild, h.shape.flat,
    h.shape.orphans, h.shape.orphansNodup⟩, h.absent, h.best, h.links, h.entity, h.presence⟩

/-- **One event.** -/
theorem Good.step (h : Good t) (hfits : Fits t e) (hstep : t.step e = some t') : Good t' := by
  cases e with
  | add d p f =>
    obtain ⟨-, heq⟩ := (Option.ite_none_right_eq_some).mp hstep
    obtain rfl := Option.some.inj heq
    exact h.setFile
  | insert d p =>
    obtain ⟨-, heq⟩ := (Option.ite_none_right_eq_some).mp hstep
    obtain rfl := Option.some.inj heq
    cases p with
    | nil => exact h
    | cons n q => exact h.folderInsert (hfits n q rfl)
  | update d p f =>
    obtain ⟨-, heq⟩ := (Option.ite_none_right_eq_some).mp hstep
    split at heq
    · rename_i hd
      refine (h.setFile).onUpdate hd ?_ (hfits hd) heq
      show Function.update t.files d _ d p = _
      rw [Function.update_self, Function.update_self]
    · obtain rfl := Option.some.inj heq
      exact h.setFile
  | remove d p =>
    obtain ⟨-, heq⟩ := (Option.ite_none_right_eq_some).mp hstep
    obtain rfl := Option.some.inj heq
    split
    · exact h.setFile.clearPresence
    · exact h.setFile
  | removeFolder d =>
    obtain ⟨-, heq⟩ := (Option.ite_none_right_eq_some).mp hstep
    obtain rfl := Option.some.inj heq
    have hgood : Good { t with devices := t.devices.erase d } :=
      ⟨⟨h.shape.devices.erase d, h.shape.children, h.shape.presences, h.shape.deep, h.shape.deepChild, h.shape.flat,
        h.shape.orphans, h.shape.orphansNodup⟩, h.absent, h.best, h.links, h.entity, h.presence⟩
    exact hgood.clearPresence

theorem Good.reached (hdevices : devices.Nodup) (h : Reached devices t) : Good t := by
  induction h with
  | initial => exact good_initial hdevices
  | step e _ hfits hstep ih => exact ih.step hfits hstep

/-- **The statistics are the sums** in every state of a run. -/
theorem balanced_of_reached (hdevices : devices.Nodup) (h : Reached devices t) : Balanced t :=
  (Good.reached hdevices h).balanced

/-- A file with one counter. -/
def edited (value : UInt64) (size : Int) : File :=
  ⟨{ (default : FileInfo) with version := Version.ofProto ⟨[⟨1, value⟩]⟩ }, size⟩

/-- A file in a directory gets larger. -/
theorem balanced_after_edit : ∃ t, [Event.add 1 ["a"] (edited 1 0), .insert 1 ["a"], .add 1 ["b", "a"] (edited 1 3),
      .insert 1 ["b", "a"], .update 1 ["b", "a"] (edited 2 5)].foldlM Tree.step (Tree.initial [1]) = some t ∧
    Balanced t ∧ t.statistics [] = ⟨5, 2⟩ := by
  have hnew : ∀ {t : Tree Nat} {d : Nat} {m : String} {p : Path}, m ∉ t.children p →
      Fits t (.insert d (m :: p)) := by
    intro t d m p hm n q hq hn
    obtain ⟨rfl, rfl⟩ := List.cons.inj hq
    exact absurd hn hm
  have h₁ : Reached [1] _ := .step (.add 1 ["a"] (edited 1 0)) .initial trivial rfl
  have h₂ : Reached [1] _ := .step (.insert 1 ["a"]) h₁ (hnew (by decide)) rfl
  have h₃ : Reached [1] _ := .step (.add 1 ["b", "a"] (edited 1 3)) h₂ trivial rfl
  have h₄ : Reached [1] _ := .step (.insert 1 ["b", "a"]) h₃ (hnew (by decide)) rfl
  refine ⟨_, rfl, balanced_of_reached (by decide)
    (.step (.update 1 ["b", "a"] (edited 2 5)) h₄ (fun _ b hb => ?_) rfl), by decide⟩
  obtain rfl : 1 = b := Option.some.inj hb
  rw [if_pos rfl, if_pos (by decide)]
  refine .inr fun q hq hne => ?_
  rcases List.suffix_cons_iff.mp hq with rfl | hq
  · decide
  · rcases List.suffix_cons_iff.mp hq with rfl | hq
    · decide
    · exact absurd (List.suffix_nil.mp hq) hne

/-- A directory of two devices, and one of them has a file in it. The other one's directory becomes the best
one, and the file is not counted any more. -/
theorem unbalanced_after_touch : ∃ t, [Event.add 1 ["a"] (edited 2 0), .insert 1 ["a"], .add 1 ["b", "a"] (edited 1 3),
      .insert 1 ["b", "a"], .add 2 ["a"] (edited 1 0), .insert 2 ["a"], .update 2 ["a"] (edited 3 0)].foldlM
        Tree.step (Tree.initial [1, 2]) = some t ∧ t.statistics ["a"] = ⟨0, 1⟩ ∧ ¬ Balanced t := by
  refine ⟨_, rfl, by decide, fun h => ?_⟩
  obtain ⟨below, hmem, hsum⟩ := h.entity ["a"]
  have hbelow : below = {["a"], ["b", "a"]} := by
    ext q
    rw [hmem, Finset.mem_insert, Finset.mem_singleton, Forest.below_iff]
    refine or_congr_right ⟨?_, ?_⟩
    · rintro ⟨c, hc, hq⟩
      obtain rfl := List.mem_singleton.mp hc
      rw [Forest.below_iff] at hq
      refine hq.resolve_right ?_
      rintro ⟨c, hc, -⟩
      cases hc
    · rintro rfl
      exact ⟨_, List.mem_singleton.mpr rfl, .self⟩
  rw [hbelow, Finset.sum_pair (by decide)] at hsum
  exact absurd hsum (by decide)

end Runs

end Presentation

end SyncSpirit
