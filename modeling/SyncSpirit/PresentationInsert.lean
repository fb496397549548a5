import SyncSpirit.PresentationTotals

/-!
# Files appear in the presentation tree

A new entity is created with the presences of all devices that have the file, added to its parent, and what has
waited for it is reaped. `set_parent` ties what has been loose meanwhile (`Sound.setParent`).
-/

namespace SyncSpirit

namespace Presentation

variable {δ : Type} [DecidableEq δ]

section Inserting

variable {t : Tree δ} {loose loose' : δ → Path → Prop} {extra extra' : Path → Stats} {p q : Path} {n : String} {d : δ}
  {diff : Stats}

/-! ## Links of a device -/

/-- `set_parent` has changed nothing but links and the statistics of presences. -/
structure Framed (t t' : Tree δ) : Prop where
  files : t'.files = t.files
  devices : t'.devices = t.devices
  orphans : t'.orphans = t.orphans
  children : t'.children = t.children
  presences : t'.presences = t.presences
  best : t'.best = t.best
  own : t'.own = t.own
  height : t'.height = t.height

omit [DecidableEq δ] in
theorem Framed.refl : Framed t t := ⟨rfl, rfl, rfl, rfl, rfl, rfl, rfl, rfl⟩

omit [DecidableEq δ] in
theorem Framed.trans {t' t'' : Tree δ} (h : Framed t t') (h' : Framed t' t'') : Framed t t'' :=
  ⟨h'.files.trans h.files, h'.devices.trans h.devices, h'.orphans.trans h.orphans,
    h'.children.trans h.children, h'.presences.trans h.presences, h'.best.trans h.best, h'.own.trans h.own,
    h'.height.trans h.height⟩

theorem framed_setLinked {k : Option δ} {linked : Bool} : Framed t (t.setLinked k p linked) :=
  ⟨rfl, rfl, rfl, rfl, rfl, rfl, rfl, rfl⟩

theorem pushStats_framed {source : Option δ} : Framed t (Tree.pushStats diff source false p t) := by
  have hbump : ∀ (t : Tree δ) p, Framed t (t.bump diff source false p) := by
    intro t p
    unfold Tree.bump
    rw [if_neg Bool.false_ne_true]
    dsimp only
    split <;> exact ⟨rfl, rfl, rfl, rfl, rfl, rfl, rfl, rfl⟩
  induction p generalizing t with
  | nil => exact hbump t []
  | cons n p ih =>
    unfold Tree.pushStats
    dsimp only
    split
    · exact (hbump t (n :: p)).trans ih
    · exact hbump t (n :: p)

omit [DecidableEq δ] in
theorem foldl_fixed {α β : Type} {f : α → β → α} {a : α} {l : List β} (hf : ∀ b ∈ l, f a b = a) : l.foldl f a = a := by
  induction l with
  | nil => rfl
  | cons b l ih =>
    rw [List.foldl_cons, hf b (List.mem_cons_self ..)]
    exact ih fun c hc => hf c (List.mem_cons_of_mem _ hc)

/-- A presence gets its parent, and nothing below it has waited. -/
theorem Sound.setParent_leaf (h : Sound loose extra t) (hd : some d ∈ t.presences (n :: p))
    (hn : n ∈ t.children p) (hp : some d ∈ t.presences p) (hlinked : t.linked (some d) (n :: p) = false)
    (hfree : ∀ q, q <:+ p → ¬ loose d q) (hbelow : ∀ m, ¬ loose d (m :: n :: p)) (fuel : Nat) :
    Sound (fun e q => loose e q ∧ ¬ (e = d ∧ q = n :: p)) extra (Tree.setParent (fuel + 1) (n :: p) d t) ∧
      Framed t (Tree.setParent (fuel + 1) (n :: p) d t) := by
  have hlink := h.link hd hn hp hlinked hfree
  have hframed : Framed t (Tree.pushStats (t.counted (some d) (n :: p)) (some d) false p
      (t.setLinked (some d) (n :: p) true)) := framed_setLinked.trans pushStats_framed
  unfold Tree.setParent
  rw [if_pos hp]
  dsimp only
  generalize Tree.pushStats (t.counted (some d) (n :: p)) (some d) false p
    (t.setLinked (some d) (n :: p) true) = t' at *
  rw [foldl_fixed]
  · exact ⟨hlink, hframed⟩
  · intro m hm
    rw [if_neg]
    rintro ⟨hin, hno⟩
    have hyes := (hlink.links d m (n :: p)).mpr ⟨hin, hm, hframed.presences ▸ hd, fun hl => hbelow m hl.1⟩
    rw [hno] at hyes
    cases hyes

/-- The loop over the children. -/
theorem Sound.setParent_children {names : List String} (h : Sound (fun e q => loose e q ∧
      (e = d → ∃ m ∈ names, q = m :: n :: p)) extra t) (hd : some d ∈ t.presences (n :: p))
    (hnames : ∀ m ∈ names, m ∈ t.children (n :: p)) (hnodup : names.Nodup) (fuel : Nat) :
    Sound (fun e q => loose e q ∧ e ≠ d) extra (names.foldl (fun t m =>
      if some d ∈ t.presences (m :: n :: p) ∧ t.linked (some d) (m :: n :: p) = false then
        Tree.setParent (fuel + 1) (m :: n :: p) d t
      else t) t) ∧
    Framed t (names.foldl (fun t m =>
      if some d ∈ t.presences (m :: n :: p) ∧ t.linked (some d) (m :: n :: p) = false then
        Tree.setParent (fuel + 1) (m :: n :: p) d t
      else t) t) := by
  induction names generalizing t with
  | nil => exact ⟨h.relax fun e m q _ _ _ => by simp, .refl⟩
  | cons m names ih =>
    obtain ⟨hm, hnodup⟩ := List.nodup_cons.mp hnodup
    have hchild := hnames m (List.mem_cons_self ..)
    have hrest : ∀ e q, q ≠ m :: n :: p → ((e = d → ∃ x ∈ m :: names, q = x :: n :: p) ↔
        (e = d → ∃ x ∈ names, q = x :: n :: p)) := by
      intro e q hq
      refine imp_congr_right fun _ => ?_
      rw [List.exists_mem_cons_iff, or_iff_right hq]
    have hgone : ¬ ∃ x ∈ names, m :: n :: p = x :: n :: p := by
      rintro ⟨x, hx, heq⟩
      exact hm ((List.cons.inj heq).1 ▸ hx)
    rw [List.foldl_cons]
    split
    · rename_i hc
      obtain ⟨hleaf, hframed⟩ := h.setParent_leaf hc.1 hchild hd hc.2 (fun q hq hl => by
          obtain ⟨x, -, rfl⟩ := hl.2 rfl
          have := hq.length_le
          simp at this) (fun x hl => by
          obtain ⟨y, -, heq⟩ := hl.2 rfl
          have := congrArg List.length heq
          simp at this) fuel
      have hties : Sound (fun e q => loose e q ∧ (e = d → ∃ x ∈ names, q = x :: n :: p)) extra
          (Tree.setParent (fuel + 1) (m :: n :: p) d t) := by
        refine hleaf.relax fun e x q _ _ _ => ?_
        by_cases hq : x :: q = m :: n :: p
        · rw [hq]
          by_cases he : e = d
          · exact iff_of_false (fun hc => hc.2 ⟨he, rfl⟩) fun hc => hgone (hc.2 he)
          · simp [he]
        · rw [hrest e _ hq]
          simp [hq]
      obtain ⟨hend, hframed'⟩ := ih hties (hframed.presences ▸ hd)
        (fun x hx => hframed.children ▸ hnames x (List.mem_cons_of_mem _ hx)) hnodup
      exact ⟨hend, hframed.trans hframed'⟩
    · rename_i hc
      refine ih (h.relax fun e x q hin hx hp => ?_) hd (fun x hx => hnames x (List.mem_cons_of_mem _ hx)) hnodup
      by_cases hq : x :: q = m :: n :: p
      · by_cases he : e = d
        · obtain ⟨rfl, rfl⟩ := List.cons.inj hq
          subst he
          have hl : t.linked (some e) (x :: n :: p) = true := by
            by_contra hno
            exact hc ⟨hin, Bool.not_eq_true _ ▸ hno⟩
          exact iff_of_false (((h.links e x _).mp hl).2.2.2) fun hc => hgone (hc.2 rfl)
        · simp [he]
      · rw [hrest e _ hq]

/-- **`set_parent`** ties everything of a device that has been loose. -/
theorem Sound.setParent (h : Sound loose extra t) (hd : some d ∈ t.presences (n :: p)) (hn : n ∈ t.children p)
    (hhere : loose d (n :: p)) (hloose : ∀ q, loose d q → q = n :: p ∨ ∃ m, q = m :: n :: p)
    (hfits : some d ∈ t.presences p ∨ ∀ m ∈ t.children (n :: p), some d ∉ t.presences (m :: n :: p))
    (fuel : Nat) :
    Sound (fun e q => loose e q ∧ e ≠ d) extra (Tree.setParent (fuel + 2) (n :: p) d t) ∧
      Framed t (Tree.setParent (fuel + 2) (n :: p) d t) := by
  unfold Tree.setParent
  by_cases hp : some d ∈ t.presences p
  · have hlinked : t.linked (some d) (n :: p) = false := by
      rw [← Bool.not_eq_true, h.links]
      exact fun hc => hc.2.2.2 hhere
    have hfree : ∀ q, q <:+ p → ¬ loose d q := by
      intro q hq hl
      have hlen := hq.length_le
      rcases hloose q hl with rfl | ⟨m, rfl⟩ <;> simp only [List.length_cons] at hlen <;> omega
    have hlink := h.link hd hn hp hlinked hfree
    have hframed : Framed t (Tree.pushStats (t.counted (some d) (n :: p)) (some d) false p
      (t.setLinked (some d) (n :: p) true)) := framed_setLinked.trans pushStats_framed
    rw [if_pos hp]
    dsimp only
    generalize Tree.pushStats (t.counted (some d) (n :: p)) (some d) false p
      (t.setLinked (some d) (n :: p) true) = t' at *
    have hties : Sound (fun e q => loose e q ∧ (e = d → ∃ m ∈ t'.children (n :: p), q = m :: n :: p)) extra t' := by
      refine hlink.relax fun e x q hin hx _ => and_congr_right fun hl => ?_
      rw [not_and]
      refine forall_congr' fun he => ?_
      subst he
      constructor
      · intro hne
        obtain ⟨m, hm⟩ := (hloose _ hl).resolve_left hne
        obtain ⟨rfl, rfl⟩ := List.cons.inj hm
        exact ⟨x, hx, rfl⟩
      · rintro ⟨m, -, hm⟩ heq
        have := congrArg List.length (hm.symm.trans heq)
        simp at this
    obtain ⟨hend, hframed'⟩ := hties.setParent_children (hframed.presences ▸ hd) (fun m hm => hm)
      (hlink.shape.children (n :: p)) fuel
    exact ⟨hend, hframed.trans hframed'⟩
  · rw [if_neg hp]
    refine ⟨h.relax fun e x q hin hx hq => ?_, .refl⟩
    by_cases he : e = d
    · subst he
      refine iff_of_false (fun hl => ?_) fun hc => hc.2 rfl
      rcases hloose _ hl with heq | ⟨m, heq⟩
      · exact hp ((List.cons.inj heq).2 ▸ hq)
      · obtain ⟨rfl, rfl⟩ := List.cons.inj heq
        exact hfits.resolve_left hp x hx hin
    · exact ⟨fun hl => ⟨hl, he⟩, And.left⟩

/-! ## Inserting -/

/-- All presences of a new child. -/
theorem Sound.setParent_all {devices : List δ} (h : Sound (fun e q => e ∈ devices ∧ q = n :: p) extra t)
    (hn : n ∈ t.children p) (hleaf : t.children (n :: p) = [])
    (hdevices : ∀ d ∈ devices, some d ∈ t.presences (n :: p)) (hnodup : devices.Nodup) :
    Sound (fun _ _ => False) extra (devices.foldl (fun t d => Tree.setParent (t.height + 1) (n :: p) d t) t) ∧
      Framed t (devices.foldl (fun t d => Tree.setParent (t.height + 1) (n :: p) d t) t) := by
  induction devices generalizing t with
  | nil => exact ⟨h.relax fun _ _ _ _ _ _ => by simp, .refl⟩
  | cons d devices ih =>
    obtain ⟨hd, hnodup⟩ := List.nodup_cons.mp hnodup
    obtain ⟨fuel, hfuel⟩ : ∃ fuel, t.height + 1 = fuel + 2 := by
      have hdeep := h.shape.deepChild n p hn
      rw [List.length_cons] at hdeep
      exact ⟨t.height - 1, by omega⟩
    obtain ⟨hstep, hframed⟩ := h.setParent (hdevices d (List.mem_cons_self ..)) hn
      ⟨List.mem_cons_self .., rfl⟩ (fun q hl => .inl hl.2)
      (.inr fun m hm => absurd (hleaf ▸ hm) List.not_mem_nil) fuel
    have hrest : Sound (fun e q => e ∈ devices ∧ q = n :: p) extra (Tree.setParent (fuel + 2) (n :: p) d t) := by
      refine hstep.relax fun e m q _ _ _ => ?_
      rw [List.mem_cons]
      constructor
      · rintro ⟨⟨he, hq⟩, hne⟩
        exact ⟨he.resolve_left hne, hq⟩
      · rintro ⟨he, hq⟩
        exact ⟨⟨.inr he, hq⟩, fun heq => hd (heq ▸ he)⟩
    rw [List.foldl_cons, hfuel]
    obtain ⟨hend, hframed'⟩ := ih hrest (hframed.children ▸ hn) (hframed.children ▸ hleaf)
      (fun e he => hframed.presences ▸ hdevices e (List.mem_cons_of_mem _ he)) hnodup
    exact ⟨hend, hframed.trans hframed'⟩

/-- An entity is a child of its parent, or the folder itself. -/
def Hangs (t : Tree δ) (q : Path) : Prop := ∀ m p, q = m :: p → m ∈ t.children p

/-- **`add_child`.** -/
theorem Good.addChild (h : Good t) (hp : Hangs t p) (hn : n ∉ t.children p) (horphan : n :: p ∉ t.orphans)
    (hheight : (n :: p).length ≤ t.height) : Good (t.addChild p n) ∧
      Framed (t.setChildren p ((t.children p).orderedInsert (· ≤ ·) n)) (t.addChild p n) := by
  have hgraft := Sound.graft h hp hn horphan hheight rfl
  unfold Tree.addChild
  dsimp only
  have hget : ∀ q, (t.setChildren p ((t.children p).orderedInsert (· ≤ ·) n)).children q =
      if q = p then (t.children p).orderedInsert (· ≤ ·) n else t.children q := fun q => Function.update_apply ..
  have hmem : n ∈ (t.setChildren p ((t.children p).orderedInsert (· ≤ ·) n)).children p := by
    rw [hget, if_pos rfl, List.mem_orderedInsert]
    exact .inl rfl
  have hleaf : (t.setChildren p ((t.children p).orderedInsert (· ≤ ·) n)).children (n :: p) = [] := by
    rw [hget, if_neg (List.cons_ne_self n p)]
    exact h.shape.flat n p hn
  generalize t.setChildren p ((t.children p).orderedInsert (· ≤ ·) n) = t' at *
  have hdevices : ∀ d, d ∈ (t'.presences (n :: p)).filterMap id ↔ some d ∈ t'.presences (n :: p) := by
    intro d
    rw [List.mem_filterMap]
    exact ⟨fun ⟨k, hk, heq⟩ => heq ▸ hk, fun hk => ⟨some d, hk, rfl⟩⟩
  refine Sound.setParent_all (hgraft.relax fun e m q hin _ _ => ?_) hmem hleaf (fun d => (hdevices d).mp)
    ((hgraft.shape.presences (n :: p)).filterMap fun a b c ha hb => ?_)
  · rw [hdevices, false_or]
    exact ⟨fun hq => ⟨hq ▸ hin, hq⟩, And.right⟩
  · exact (Option.mem_def.mp ha).trans (Option.mem_def.mp hb).symm

theorem Good.adopt (h : Good t) (hp : Hangs t p) (horphan : n :: p ∈ t.orphans) :
    Good (t.adopt (n :: p)) ∧ (∀ q, q ≠ n :: p → q ∈ t.orphans → q ∈ (t.adopt (n :: p)).orphans) ∧
      (∀ q, Hangs t q → Hangs (t.adopt (n :: p)) q) ∧ Hangs (t.adopt (n :: p)) (n :: p) := by
  obtain ⟨hnone, hheight⟩ := h.shape.orphans _ horphan
  have hn : n ∉ t.children p := by
    intro hn
    rw [parent_cons, if_pos hn] at hnone
    cases hnone
  have hgood : Good { t with orphans := t.orphans.erase (n :: p) } :=
    ⟨⟨h.shape.devices, h.shape.children, h.shape.presences, h.shape.deep, h.shape.deepChild, h.shape.flat,
      fun q hq => h.shape.orphans q (List.mem_of_mem_erase hq), h.shape.orphansNodup.erase _⟩,
      h.absent, h.best, h.links, h.entity, h.presence⟩
  obtain ⟨hend, hframed⟩ := hgood.addChild hp hn h.shape.orphansNodup.not_mem_erase hheight
  have hmem : ∀ m q, m ∈ (t.adopt (n :: p)).children q ↔ m ∈ t.children q ∨ m :: q = n :: p := by
    intro m q
    refine (congrArg (m ∈ · q) hframed.children).to_iff.trans ?_
    show m ∈ Function.update t.children p _ q ↔ _
    by_cases hq : q = p
    · rw [hq, Function.update_self, List.mem_orderedInsert, List.cons.injEq, and_iff_left rfl, or_comm]
    · rw [Function.update_of_ne hq, List.cons.injEq]
      exact ⟨.inl, fun hor => hor.resolve_right fun hc => hq hc.2⟩
  refine ⟨hend, fun q hq hin => ?_, fun q hq m r heq => (hmem m r).mpr (.inl (hq m r heq)), ?_⟩
  · refine (congrArg (q ∈ ·) hframed.orphans).to_iff.mpr ?_
    exact (List.mem_erase_of_ne hq).mpr hin
  · rintro m r heq
    exact (hmem m r).mpr (.inr heq.symm)

theorem Good.foldl_adopt {found : List Path} (h : Good t) (hp : Hangs t p) (hfound : ∀ q ∈ found,
    q ∈ t.orphans ∧ q ≠ [] ∧ q.tail = p) (hnodup : found.Nodup) : Good (found.foldl Tree.adopt t) ∧
      (∀ q, Hangs t q → Hangs (found.foldl Tree.adopt t) q) ∧ ∀ q ∈ found, Hangs (found.foldl Tree.adopt t) q := by
  induction found generalizing t with
  | nil => exact ⟨h, fun _ hq => hq, fun q hq => absurd hq List.not_mem_nil⟩
  | cons q found ih =>
    obtain ⟨hin, hne, htail⟩ := hfound q (List.mem_cons_self ..)
    obtain ⟨hq, hrest⟩ := List.nodup_cons.mp hnodup
    obtain ⟨n, rfl⟩ : ∃ n, q = n :: p := by
      cases q with
      | nil => exact absurd rfl hne
      | cons n q => exact ⟨n, congrArg _ htail⟩
    obtain ⟨hgood, horphans, hhangs, hnew⟩ := h.adopt hp hin
    obtain ⟨hend, hkept, hall⟩ := ih hgood (hhangs p hp) (fun r hr => by
      obtain ⟨hr', hne', htail'⟩ := hfound r (List.mem_cons_of_mem _ hr)
      exact ⟨horphans r (fun heq => hq (heq ▸ hr)) hr', hne', htail'⟩) hrest
    refine ⟨hend, fun r hr => hkept r (hhangs r hr), fun r hr => ?_⟩
    rcases List.mem_cons.mp hr with rfl | hr
    · exact hkept _ hnew
    · exact hall r hr

/-- **`reap_children`.** -/
theorem Good.reapChildren {fuel : Nat} {queue : List Path} (h : Good t) (hqueue : ∀ q ∈ queue, Hangs t q) :
    Good (Tree.reapChildren fuel queue t) := by
  induction fuel generalizing queue t with
  | zero => exact h
  | succ fuel ih =>
    cases queue with
    | nil => exact h
    | cons item queue =>
      have hfound : ∀ q ∈ t.orphans.filter fun q => q ≠ [] ∧ q.tail = item,
          q ∈ t.orphans ∧ q ≠ [] ∧ q.tail = item := fun q hq => by simpa using hq
      obtain ⟨hgood, hkept, hall⟩ :=
        h.foldl_adopt (hqueue item (List.mem_cons_self ..)) hfound (h.shape.orphansNodup.filter _)
      refine ih hgood fun q hq => ?_
      rcases List.mem_append.mp hq with hq | hq
      · exact hkept q (hqueue q (List.mem_cons_of_mem _ hq))
      · exact hall q hq

/-! ## The best presence -/

/-- With another best presence its entity and all above it get the difference. -/
theorem Sound.rebest {best : Option δ} (h : Sound loose extra t)
    (hbest : ∀ b, best = some b → some b ∈ t.presences p ∧ (t.parent p).isSome)
    (hextra : ∀ q, q ≠ p → extra q = 0)
    (hdiff : extra p + (t.weight p - best.elim 0 fun b => t.own (some b) p) + diff = 0) :
    Sound loose (fun _ => 0) (Tree.pushStats diff none true p (t.setBest p best)) := by
  refine ((h.setBest hbest).pushBest diff p).congr fun q => ?_
  by_cases hq : q = p
  · rw [if_pos hq, if_pos hq, hq]
    exact hdiff
  · rw [if_neg hq, if_neg hq, hextra q hq, add_zero, add_zero]

omit [DecidableEq δ] in
theorem determineBest_cases (this other : δ) :
    t.determineBest p this other = this ∨ t.determineBest p this other = other := by
  unfold Tree.determineBest
  split
  · split
    · exact .inl rfl
    · exact .inr rfl
  · exact .inr rfl

omit [DecidableEq δ] in
theorem foldl_best {devices : List δ} {first best : Option δ} (h : devices.foldl (fun best d =>
    some (best.elim d fun b => t.determineBest p d b)) first = best) :
    (∀ b, best = some b → b ∈ devices ∨ first = some b) ∧ (best = none → devices = [] ∧ first = none) := by
  induction devices generalizing first with
  | nil => exact ⟨fun b hb => .inr (h.trans hb), fun hb => ⟨rfl, h.trans hb⟩⟩
  | cons d devices ih =>
    obtain ⟨hsome, hnone⟩ := ih h
    refine ⟨fun b hb => ?_, fun hb => absurd (hnone hb).2 (Option.some_ne_none _)⟩
    rcases hsome b hb with hin | heq
    · exact .inl (List.mem_cons_of_mem _ hin)
    · cases first with
      | none => exact .inl (List.mem_cons.mpr (.inl (Option.some.inj heq).symm))
      | some c =>
        rcases determineBest_cases (t := t) (p := p) d c with hc | hc
        · exact .inl (List.mem_cons.mpr (.inl ((Option.some.inj heq).symm.trans hc)))
        · exact .inr (congrArg some (hc.symm.trans (Option.some.inj heq)))

omit [DecidableEq δ] in
theorem recalcBest_spec : (∀ b, t.recalcBest p = some b → some b ∈ t.presences p ∧ (t.parent p).isSome) ∧
    (t.recalcBest p = none → (t.parent p).isSome → ∀ d, some d ∉ t.presences p) := by
  unfold Tree.recalcBest
  split
  · rename_i hparent
    have hmem : ∀ d, some d ∈ t.presences p → d ∈ (t.presences p).filterMap id := fun d hd =>
      List.mem_filterMap.mpr ⟨some d, hd, rfl⟩
    obtain ⟨hsome, hnone⟩ := foldl_best (t := t) (p := p) (rfl : ((t.presences p).filterMap id).foldl _ none = _)
    refine ⟨fun b hb => ⟨?_, hparent⟩, fun hb _ d hd => ?_⟩
    · rcases hsome b hb with hin | heq
      · obtain ⟨k, hk, heq⟩ := List.mem_filterMap.mp hin
        exact heq ▸ hk
      · cases heq
    · have := hmem d hd
      rw [(hnone hb).1] at this
      cases this
  · rename_i hparent
    exact ⟨fun b hb => absurd hb.symm (Option.some_ne_none b), fun _ hp => absurd hp hparent⟩

omit [DecidableEq δ] in
/-- No best presence has been there if there is none now. -/
theorem Sound.best_eq_none (h : Sound loose extra t) (hnone : t.recalcBest p = none) : t.best p = none := by
  refine Option.eq_none_iff_forall_ne_some.mpr fun b hb => ?_
  obtain ⟨hin, hparent⟩ := h.best p b hb
  exact recalcBest_spec.2 hnone hparent b hin

theorem Good.commitAt (h : Good t) (p : Path) : Good (t.commitAt p) := by
  unfold Tree.commitAt
  split
  · rename_i b hb
    refine Sound.rebest h (fun c hc => recalcBest_spec.1 c (hb.trans hc)) (fun _ _ => rfl) ?_
    rw [Option.elim_some]
    abel
  · rename_i hb
    have hnone := Sound.best_eq_none h hb
    have hset : t.setBest p none = t := by
      unfold Tree.setBest
      rw [← hnone, Function.update_eq_self]
    rw [hset]
    exact h

omit [DecidableEq δ] in
theorem Good.foldl {α : Type} {f : Tree δ → α → Tree δ} {l : List α} (h : Good t)
    (hf : ∀ t a, a ∈ l → Good t → Good (f t a)) : Good (l.foldl f t) := by
  induction l generalizing t with
  | nil => exact h
  | cons a l ih => exact ih (hf t a (List.mem_cons_self ..) h) fun t b hb => hf t b (List.mem_cons_of_mem _ hb)

/-- **`commit`.** -/
theorem Good.commit {fuel : Nat} (h : Good t) : Good (Tree.commit fuel d p t) := by
  induction fuel generalizing p t with
  | zero => exact h
  | succ fuel ih =>
    unfold Tree.commit
    split
    · exact (h.foldl fun t n _ ht => ih ht).commitAt p
    · exact h

/-- **`file_entity_t::on_insert`.** -/
theorem Good.fileInsert (h : Good t) (hheight : (n :: p).length ≤ t.height)
    (hfits : some d ∈ t.presences (n :: p) ∨ some d ∈ t.presences p ∨
      ∀ m ∈ t.children (n :: p), some d ∉ t.presences (m :: n :: p)) : Good (t.fileInsert (n :: p) d) := by
  by_cases hd : some d ∈ t.presences (n :: p)
  · unfold Tree.fileInsert
    rw [if_pos hd]
    exact h
  · have hadd := Sound.addPresence h hd hheight (((t.files d (n :: p)).map refreshOwnStats).getD 0)
    have heq : t.fileInsert (n :: p) d =
        if (t.parent (n :: p)).isSome then Tree.setParent (t.height + 1) (n :: p) d
          (t.addPresence (n :: p) d (((t.files d (n :: p)).map refreshOwnStats).getD 0))
        else t.addPresence (n :: p) d (((t.files d (n :: p)).map refreshOwnStats).getD 0) := by
      unfold Tree.fileInsert
      rw [if_neg hd]
      rfl
    rw [heq]
    have hget : ∀ q, q ≠ n :: p → (t.addPresence (n :: p) d
        (((t.files d (n :: p)).map refreshOwnStats).getD 0)).presences q = t.presences q := fun q hq =>
      Function.update_of_ne hq ..
    have hhere : some d ∈ (t.addPresence (n :: p) d
        (((t.files d (n :: p)).map refreshOwnStats).getD 0)).presences (n :: p) := by
      show some d ∈ Function.update t.presences (n :: p) _ (n :: p)
      rw [Function.update_self]
      exact List.mem_append_right _ (List.mem_singleton.mpr rfl)
    have hsame : (t.addPresence (n :: p) d
        (((t.files d (n :: p)).map refreshOwnStats).getD 0)).children = t.children := rfl
    have hheight' : (t.addPresence (n :: p) d
        (((t.files d (n :: p)).map refreshOwnStats).getD 0)).height = t.height := rfl
    generalize t.addPresence (n :: p) d (((t.files d (n :: p)).map refreshOwnStats).getD 0) = t' at *
    by_cases hn : n ∈ t.children p
    · rw [if_pos (parent_isSome.mpr hn)]
      obtain ⟨fuel, hfuel⟩ : ∃ fuel, t.height + 1 = fuel + 2 := by
        rw [List.length_cons] at hheight
        exact ⟨t.height - 1, by omega⟩
      have hor : some d ∈ t'.presences p ∨ ∀ m ∈ t'.children (n :: p), some d ∉ t'.presences (m :: n :: p) := by
        rw [hsame, hget p (Ne.symm (List.cons_ne_self n p))]
        refine (hfits.resolve_left hd).imp_right fun hall m hm => ?_
        rw [hget _ (List.cons_ne_self m (n :: p))]
        exact hall m hm
      rw [hfuel]
      refine (hadd.setParent hhere (hsame ▸ hn) (.inr ⟨rfl, .inl rfl⟩) (fun q hl => ?_) hor fuel).1.relax
        fun e m q _ _ _ => ?_
      · exact (hl.resolve_left id).2
      · exact iff_of_false (fun hc => hc.2 (hc.1.resolve_left id).1) id
    · -- an orphan
      rw [if_neg (fun hp => hn (parent_isSome.mp hp))]
      refine hadd.relax fun e m q _ hm _ => iff_of_false ?_ id
      rw [hsame] at hm
      rintro (hl | ⟨-, heq | ⟨x, heq⟩⟩)
      · exact hl
      · obtain ⟨rfl, rfl⟩ := List.cons.inj heq
        exact hn hm
      · obtain ⟨rfl, rfl⟩ := List.cons.inj heq
        rw [h.shape.flat n p hn] at hm
        cases hm

/-! ## One more file -/

omit [DecidableEq δ] in
/-- What has children is attached. -/
theorem attached_of_mem (h : Shape t) (hn : n ∈ t.children p) : t.attached p = true := by
  induction p generalizing n with
  | nil => rfl
  | cons m q ih =>
    have hm : m ∈ t.children q := by
      by_contra hno
      rw [h.flat m q hno] at hn
      cases hn
    unfold Tree.attached
    rw [Bool.and_eq_true, decide_eq_true_iff]
    exact ⟨hm, ih hm⟩

omit [DecidableEq δ] in
theorem attached_cons (h : Shape t) : t.attached (n :: p) = true ↔ n ∈ t.children p := by
  show (decide (n ∈ t.children p) && t.attached p) = true ↔ _
  rw [Bool.and_eq_true, decide_eq_true_iff]
  exact ⟨And.left, fun hn => ⟨hn, attached_of_mem h hn⟩⟩

omit [DecidableEq δ] in
theorem hangs_of_attached (h : Shape t) (hp : t.attached p = true) : Hangs t p := by
  rintro m q rfl
  exact (attached_cons h).mp hp

/-- **`folder_entity_t::on_insert`.** -/
theorem Good.folderInsert (h : Good t) (hfits : n ∈ t.children p → some d ∈ t.presences (n :: p) ∨
    some d ∈ t.presences p ∨ ∀ m ∈ t.children (n :: p), some d ∉ t.presences (m :: n :: p)) :
    Good (t.folderInsert d (n :: p)) := by
  rw [Tree.folderInsert]
  split
  · rename_i hattached
    have hn := (attached_cons h.shape).mp hattached
    exact (h.fileInsert (h.shape.deepChild n p hn) (hfits hn)).commit
  · rename_i hno
    have hn : n ∉ t.children p := fun hn => hno ((attached_cons h.shape).mpr hn)
    have hcreate : Good (t.create (n :: p)) := Sound.create h hn rfl
    have hchildren : (t.create (n :: p)).children = t.children := by
      show Function.update t.children (n :: p) [] = _
      rw [← h.shape.flat n p hn, Function.update_eq_self]
    have hgone : n :: p ∉ (t.create (n :: p)).orphans := h.shape.orphansNodup.not_mem_erase
    have hheight : (n :: p).length ≤ (t.create (n :: p)).height := Nat.le_max_right ..
    split
    · rename_i hp
      have hhangs : Hangs (t.create (n :: p)) p := fun m q heq => by
        rw [hchildren]
        exact hangs_of_attached h.shape hp m q heq
      generalize t.create (n :: p) = t' at *
      obtain ⟨hadd, hframed⟩ := hcreate.addChild hhangs (hchildren ▸ hn) hgone hheight
      have hnew : ∀ q ∈ [n :: p], Hangs (t'.addChild p n) q := by
        intro q hq m r heq
        rw [List.mem_singleton.mp hq] at heq
        obtain ⟨rfl, rfl⟩ := List.cons.inj heq
        refine (congrArg (n ∈ · p) hframed.children).to_iff.mpr ?_
        show n ∈ Function.update t'.children p _ p
        rw [Function.update_self, List.mem_orderedInsert]
        exact .inl rfl
      have hreap : Good (Tree.reapChildren ((t'.addChild p n).orphans.length + 1) [n :: p] (t'.addChild p n)) :=
        hadd.reapChildren hnew
      have hcommit : Good (Tree.commit ((Tree.reapChildren ((t'.addChild p n).orphans.length + 1) [n :: p]
        (t'.addChild p n)).height + 1) d (n :: p) (Tree.reapChildren ((t'.addChild p n).orphans.length + 1)
          [n :: p] (t'.addChild p n))) := hreap.commit
      dsimp only
      generalize Tree.commit ((Tree.reapChildren ((t'.addChild p n).orphans.length + 1) [n :: p]
        (t'.addChild p n)).height + 1) d (n :: p) (Tree.reapChildren ((t'.addChild p n).orphans.length + 1)
          [n :: p] (t'.addChild p n)) = u at *
      -- the folder itself has no best presence
      have hnone : u.recalcBest [] = none := rfl
      have hset : u.setBest [] (u.recalcBest []) = u := by
        unfold Tree.setBest
        rw [hnone, ← Sound.best_eq_none hcommit hnone, Function.update_eq_self]
      rw [hset]
      exact hcommit
    · split
      · rename_i horphan
        refine h.fileInsert (h.shape.orphans _ horphan).2 (.inr (.inr fun m hm => ?_))
        rw [h.shape.flat n p hn] at hm
        cases hm
      · generalize t.create (n :: p) = t' at *
        have hnone : t'.parent (n :: p) = none := by
          rw [parent_cons, hchildren, if_neg hn]
        refine ⟨⟨hcreate.shape.devices, hcreate.shape.children, hcreate.shape.presences, hcreate.shape.deep,
          hcreate.shape.deepChild, hcreate.shape.flat, fun q hq => ?_, ?_⟩, hcreate.absent, hcreate.best,
          hcreate.links, hcreate.entity, hcreate.presence⟩
        · rcases List.mem_append.mp hq with hq | hq
          · exact hcreate.shape.orphans q hq
          · obtain rfl := List.mem_singleton.mp hq
            exact ⟨hnone, hheight⟩
        · refine List.nodup_append.mpr ⟨hcreate.shape.orphansNodup, List.nodup_singleton _,
            fun a ha b hb hab => ?_⟩
          exact hgone (List.mem_singleton.mp hb ▸ hab ▸ ha)

end Inserting

end Presentation

end SyncSpirit
