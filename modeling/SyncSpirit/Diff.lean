import Mathlib

/-!
# Diff trees (`model/diff/cluster_diff.cpp`)

A diff is a node with a chain of children and a next sibling. Every kind of diff
overrides `apply_impl`, and nearly all of them follow one pattern: some work of
their own, `apply_child`, some more work (`remove_peer_t` removes the device only
after its folders have been unshared), `apply_sibling`. `interrupt_t` has no work
and no children. Work after the siblings, as in `scan_start_t` and
`update_folder_t`, is not modelled here.

- `Diff.applyPlain`: application under `apply_controller_t`, where an interrupt
  only passes on to its sibling;
- `Diff.applyIter`: application under `iterative_controller_base_t`, where an
  interrupt saves its sibling in the context and reports success.

A piece of work is a label; what it does to the cluster is not modelled, only
whether it succeeds after all the work that has been done so far.
-/

namespace SyncSpirit

/-- `cluster_diff_t`. `nil` is the null pointer. -/
inductive Diff (α : Type) where
  | nil
  | interrupt (sibling : Diff α)
  | node (before after : List α) (child sibling : Diff α)
  deriving DecidableEq, Repr, Inhabited

/-- Is it the null pointer? -/
def Diff.isNil {α : Type} : Diff α → Bool
  | .nil => true
  | _ => false

theorem Diff.isNil_iff {α : Type} {d : Diff α} : d.isNil = true ↔ d = .nil := by
  cases d <;> simp [isNil]

/-- Does a piece of work succeed after the work done so far? -/
abbrev Succeeds (α : Type) := List α → α → Bool

/-- `if (!r) return r;` between two parts of `apply_impl`. -/
def andThen {σ : Type} (r : σ × Bool) (next : σ → σ × Bool) : σ × Bool :=
  if r.2 then next r.1 else r

@[simp] theorem andThen_true {σ : Type} (s : σ) (next : σ → σ × Bool) :
    andThen (s, true) next = next s := rfl

@[simp] theorem andThen_false {σ : Type} (s : σ) (next : σ → σ × Bool) :
    andThen (s, false) next = (s, false) := rfl

/-- Do pieces of work one after another, up to the first failure. The result is
the log of what was done and whether all of it succeeded. -/
def perform {α : Type} (ok : Succeeds α) : List α → List α → List α × Bool
  | [], log => (log, true)
  | a :: as, log => if ok log a then perform ok as (log ++ [a]) else (log, false)

theorem perform_append {α : Type} (ok : Succeeds α) (as bs : List α) :
    perform ok (as ++ bs) = fun log => andThen (perform ok as log) (perform ok bs) := by
  funext log
  induction as generalizing log with
  | nil => rfl
  | cons a as ih =>
    rw [List.cons_append, perform, perform]
    split
    · exact ih _
    · rfl

/-- Work that never fails is done in full. -/
theorem perform_of_true {α : Type} (as log : List α) :
    perform (fun _ _ => true) as log = (log ++ as, true) := by
  induction as generalizing log with
  | nil => simp [perform]
  | cons a as ih => simp [perform, ih]

namespace Diff

variable {α : Type}

/-! ## The plain controller -/

/-- `cluster_diff_t::apply` under `apply_controller_t`. -/
def applyPlain (ok : Succeeds α) : Diff α → List α → List α × Bool
  | .nil, log => (log, true)
  | .interrupt sibling, log => applyPlain ok sibling log
  | .node before after child sibling, log =>
    andThen (perform ok before log) fun log =>
      andThen (applyPlain ok child log) fun log =>
        andThen (perform ok after log) (applyPlain ok sibling)

/-- The work of a tree in the order of the plain controller. -/
def plain : Diff α → List α
  | .nil => []
  | .interrupt sibling => plain sibling
  | .node before after child sibling => before ++ plain child ++ after ++ plain sibling

theorem applyPlain_eq (ok : Succeeds α) (d : Diff α) :
    applyPlain ok d = perform ok d.plain := by
  induction d with
  | nil => rfl
  | interrupt sibling ih => exact ih
  | node before after child sibling ihc ihs =>
    funext log
    simp only [applyPlain, plain, List.append_assoc, perform_append, ihc, ihs]

/-! ## The interruptible controller -/

/-- What one application changes: the cluster (its log) and
`apply_context_t::diff`, the position to resume from. -/
structure Context (α : Type) where
  log : List α
  saved : Diff α
  deriving DecidableEq, Repr

/-- Own work of a diff: it leaves the saved position alone. -/
def performIn (ok : Succeeds α) (as : List α) (ctx : Context α) : Context α × Bool :=
  ({ ctx with log := (perform ok as ctx.log).1 }, (perform ok as ctx.log).2)

/-- `cluster_diff_t::apply` under `iterative_controller_base_t`. An interrupt
stores its sibling and succeeds, so its parents go on as if the chain had ended
(iterative_controller.cpp:128–133). -/
def applyIter (ok : Succeeds α) : Diff α → Context α → Context α × Bool
  | .nil, ctx => (ctx, true)
  | .interrupt sibling, ctx => ({ ctx with saved := sibling }, true)
  | .node before after child sibling, ctx =>
    andThen (performIn ok before ctx) fun ctx =>
      andThen (applyIter ok child ctx) fun ctx =>
        andThen (performIn ok after ctx) (applyIter ok sibling)

/-- The work that one application reaches. -/
def trace : Diff α → List α
  | .nil => []
  | .interrupt _ => []
  | .node before after child sibling => before ++ trace child ++ after ++ trace sibling

/-- The position that one application saves: of all interrupts it runs into, the
last one counts. -/
def saves : Diff α → Option (Diff α)
  | .nil => none
  | .interrupt sibling => some sibling
  | .node _ _ child sibling => (saves sibling).or (saves child)

/-- The number of interrupts in a tree. -/
def interrupts : Diff α → Nat
  | .nil => 0
  | .interrupt sibling => interrupts sibling + 1
  | .node _ _ child sibling => interrupts child + interrupts sibling

/-- A saved position is past at least one interrupt. -/
theorem interrupts_saves_lt {d s : Diff α} (h : d.saves = some s) :
    s.interrupts < d.interrupts := by
  induction d with
  | nil => cases h
  | interrupt sibling =>
    cases h
    exact Nat.lt_succ_self _
  | node before after child sibling ihc ihs =>
    rw [saves, Option.or_eq_some_iff] at h
    simp only [interrupts]
    rcases h with h | ⟨-, h⟩
    · have := ihs h
      omega
    · have := ihc h
      omega

/-- One application does the work of `trace` and leaves `saves` behind. -/
theorem applyIter_spec (ok : Succeeds α) (d : Diff α) (ctx : Context α) :
    (applyIter ok d ctx).1.log = (perform ok d.trace ctx.log).1 ∧
      (applyIter ok d ctx).2 = (perform ok d.trace ctx.log).2 ∧
      ((perform ok d.trace ctx.log).2 = true →
        (applyIter ok d ctx).1.saved = d.saves.getD ctx.saved) := by
  induction d generalizing ctx with
  | nil => exact ⟨rfl, rfl, fun _ => rfl⟩
  | interrupt sibling => exact ⟨rfl, rfl, fun _ => rfl⟩
  | node before after child sibling ihc ihs =>
    simp only [applyIter, trace, List.append_assoc, perform_append, performIn]
    -- each part either stops both sides or hands them the same log
    rcases perform ok before ctx.log with ⟨log, _ | _⟩
    · exact ⟨rfl, rfl, fun h => nomatch h⟩
    · simp only [andThen_true]
      obtain ⟨hlog, hok, hsaved⟩ := ihc { ctx with log := log }
      rcases hc : perform ok child.trace log with ⟨log', _ | _⟩ <;>
        rcases hi : applyIter ok child { ctx with log := log } with ⟨ctx', r⟩ <;>
        simp only [hc, hi] at hlog hok hsaved <;> subst hok
      · exact ⟨hlog, rfl, fun h => nomatch h⟩
      · simp only [andThen_true, hlog]
        rcases perform ok after log' with ⟨log'', _ | _⟩
        · exact ⟨rfl, rfl, fun h => nomatch h⟩
        · simp only [andThen_true]
          obtain ⟨hlog, hok, hs⟩ := ihs { ctx' with log := log'' }
          refine ⟨hlog, hok, fun h => (hs h).trans ?_⟩
          show sibling.saves.getD ctx'.saved = _
          rw [hsaved trivial, saves]
          cases sibling.saves <;> rfl

/-! ## Resumed to the end -/

/-- The work done after the first application, by resuming from the saved
position again and again; `none` if no interrupt was run into. -/
def resumed : Diff α → Option (List α)
  | .nil => none
  | .interrupt sibling => some (trace sibling ++ (resumed sibling).getD [])
  | .node _ _ child sibling => (resumed sibling).or (resumed child)

/-- All the work of a tree in the order of the interruptible controller. -/
def full (d : Diff α) : List α := d.trace ++ d.resumed.getD []

theorem resumed_eq (d : Diff α) : d.resumed = d.saves.map full := by
  induction d with
  | nil => rfl
  | interrupt sibling => rfl
  | node before after child sibling ihc ihs =>
    rw [resumed, saves, ihc, ihs]
    cases sibling.saves <;> rfl

theorem full_eq (d : Diff α) : d.full = d.trace ++ (d.saves.getD .nil).full := by
  rw [full, resumed_eq]
  cases d.saves <;> rfl

/-- No work follows an interrupt within its chain: one application does it all. -/
def Complete : Diff α → Prop
  | .nil => True
  | .interrupt sibling => plain sibling = []
  | .node _ _ child sibling => Complete child ∧ Complete sibling

/-- Neither work nor an interrupt. -/
def Silent : Diff α → Prop
  | .nil => True
  | .interrupt _ => False
  | .node before after child sibling =>
    before = [] ∧ after = [] ∧ Silent child ∧ Silent sibling

/-- The children of a diff are interrupted only if nothing is left to do in them,
or nothing is left to do outside of them. -/
def Resumable : Diff α → Prop
  | .nil => True
  | .interrupt sibling => Resumable sibling
  | .node _ after child sibling =>
    (Complete child ∧ Resumable sibling) ∨ (after = [] ∧ Silent sibling ∧ Resumable child)

instance Complete.decidable [DecidableEq α] : ∀ d : Diff α, Decidable d.Complete
  | .nil => inferInstanceAs (Decidable True)
  | .interrupt sibling => inferInstanceAs (Decidable (plain sibling = []))
  | .node _ _ child sibling =>
    have := Complete.decidable child
    have := Complete.decidable sibling
    inferInstanceAs (Decidable (Complete child ∧ Complete sibling))

instance Silent.decidable [DecidableEq α] : ∀ d : Diff α, Decidable d.Silent
  | .nil => inferInstanceAs (Decidable True)
  | .interrupt _ => inferInstanceAs (Decidable False)
  | .node before after child sibling =>
    have := Silent.decidable child
    have := Silent.decidable sibling
    inferInstanceAs (Decidable (before = [] ∧ after = [] ∧ Silent child ∧ Silent sibling))

instance Resumable.decidable [DecidableEq α] : ∀ d : Diff α, Decidable d.Resumable
  | .nil => inferInstanceAs (Decidable True)
  | .interrupt sibling => Resumable.decidable sibling
  | .node _ after child sibling =>
    have := Resumable.decidable child
    have := Resumable.decidable sibling
    inferInstanceAs (Decidable ((Complete child ∧ Resumable sibling) ∨
      (after = [] ∧ Silent sibling ∧ Resumable child)))

/-! ## When the order is the plain one -/

theorem trace_sublist (d : Diff α) : d.trace.Sublist d.plain := by
  induction d with
  | nil => exact .slnil
  | interrupt sibling => exact List.nil_sublist _
  | node before after child sibling ihc ihs =>
    exact (((List.Sublist.refl _).append ihc).append (.refl _)).append ihs

theorem resumed_subset (d : Diff α) : ∀ a ∈ d.resumed.getD [], a ∈ d.plain := by
  induction d with
  | nil => exact fun _ h => nomatch h
  | interrupt sibling ih =>
    intro a ha
    rcases List.mem_append.mp ha with ha | ha
    · exact (trace_sublist sibling).subset ha
    · exact ih a ha
  | node before after child sibling ihc ihs =>
    intro a ha
    simp only [plain, List.mem_append]
    cases hres : sibling.resumed with
    | some r =>
      rw [hres] at ihs
      rw [resumed, hres] at ha
      exact .inr (ihs a ha)
    | none =>
      rw [resumed, hres] at ha
      exact .inl (.inl (.inr (ihc a ha)))

theorem full_subset (d : Diff α) : ∀ a ∈ d.full, a ∈ d.plain := by
  intro a ha
  rcases List.mem_append.mp ha with ha | ha
  · exact (trace_sublist d).subset ha
  · exact resumed_subset d a ha

theorem trace_eq_of_plain_nil {d : Diff α} (h : d.plain = []) : d.trace = [] :=
  List.sublist_nil.mp (h ▸ trace_sublist d)

theorem resumed_eq_nil_of_plain_nil {d : Diff α} (h : d.plain = []) :
    d.resumed.getD [] = [] := by
  refine List.eq_nil_iff_forall_not_mem.mpr fun a ha => ?_
  have hmem := resumed_subset d a ha
  rw [h] at hmem
  exact List.not_mem_nil hmem

/-- A complete tree is done after one application. -/
theorem Complete.spec {d : Diff α} (h : d.Complete) :
    d.trace = d.plain ∧ d.resumed.getD [] = [] := by
  induction d with
  | nil => exact ⟨rfl, rfl⟩
  | interrupt sibling =>
    have hs : sibling.plain = [] := h
    refine ⟨hs.symm, ?_⟩
    show trace sibling ++ _ = []
    rw [trace_eq_of_plain_nil hs, resumed_eq_nil_of_plain_nil hs]
    rfl
  | node before after child sibling ihc ihs =>
    obtain ⟨hc, hs⟩ := h
    obtain ⟨htc, hrc⟩ := ihc hc
    obtain ⟨hts, hrs⟩ := ihs hs
    refine ⟨by rw [trace, plain, htc, hts], ?_⟩
    rw [resumed]
    cases hres : sibling.resumed with
    | none => exact hrc
    | some r =>
      rw [hres] at hrs
      exact hrs

theorem complete_of_trace_eq {d : Diff α} (h : d.trace = d.plain) : d.Complete := by
  induction d with
  | nil => trivial
  | interrupt sibling => exact h.symm
  | node before after child sibling ihc ihs =>
    -- both parts are sublists of what they should be, so lengths decide
    have hlc := (trace_sublist child).length_le
    have hls := (trace_sublist sibling).length_le
    have hlen := congrArg List.length h
    simp only [trace, plain, List.length_append] at hlen
    exact ⟨ihc ((trace_sublist child).eq_of_length (by omega)),
      ihs ((trace_sublist sibling).eq_of_length (by omega))⟩

theorem Silent.spec {d : Diff α} (h : d.Silent) : d.plain = [] ∧ d.resumed = none := by
  induction d with
  | nil => exact ⟨rfl, rfl⟩
  | interrupt sibling => exact h.elim
  | node before after child sibling ihc ihs =>
    obtain ⟨rfl, rfl, hc, hs⟩ := h
    simp [plain, resumed, ihc hc, ihs hs]

theorem silent_of_plain_nil {d : Diff α} (h : d.plain = []) (hr : d.resumed = none) :
    d.Silent := by
  induction d with
  | nil => trivial
  | interrupt sibling => cases hr
  | node before after child sibling ihc ihs =>
    simp only [plain, List.append_eq_nil_iff] at h
    obtain ⟨⟨⟨hb, hc⟩, ha⟩, hs⟩ := h
    obtain ⟨hrs, hrc⟩ := Option.or_eq_none_iff.mp hr
    exact ⟨hb, ha, ihc hc hrc, ihs hs hrs⟩

/-- Without an interrupt everything is done in the first application. -/
theorem trace_eq_of_resumed_none {d : Diff α} (h : d.resumed = none) : d.trace = d.plain := by
  induction d with
  | nil => rfl
  | interrupt sibling => cases h
  | node before after child sibling ihc ihs =>
    obtain ⟨hrs, hrc⟩ := Option.or_eq_none_iff.mp h
    rw [trace, plain, ihc hrc, ihs hrs]

/-- A resumable tree is done in the plain order. -/
theorem Resumable.full_eq {d : Diff α} (h : d.Resumable) : d.full = d.plain := by
  induction d with
  | nil => rfl
  | interrupt sibling ih => exact ih h
  | node before after child sibling ihc ihs =>
    rcases h with ⟨hc, hs⟩ | ⟨rfl, hs, hc⟩
    · obtain ⟨htc, hrc⟩ := hc.spec
      have hih := ihs hs
      rw [full] at hih
      rw [full, trace, plain, ← hih, htc, resumed]
      cases hres : sibling.resumed with
      | none => simp [hrc]
      | some r => simp
    · obtain ⟨hps, hrs⟩ := hs.spec
      have hih := ihc hc
      rw [full] at hih
      rw [full, trace, plain, hps, trace_eq_of_plain_nil hps, ← hih, resumed, hrs]
      simp

/-- An unfinished child must be resumed, and nothing may have come in between. -/
theorem resumable_of_unfinished {before after : List α} {child sibling : Diff α}
    (hnd : (Diff.node before after child sibling).plain.Nodup)
    (h : (Diff.node before after child sibling).full = (Diff.node before after child sibling).plain)
    (hc : ¬ child.Complete) :
    after = [] ∧ sibling.Silent ∧ child.full = child.plain := by
  simp only [plain, List.nodup_append, List.mem_append] at hnd
  simp only [full, trace, plain, List.append_assoc] at h
  replace h := List.append_cancel_left h
  -- the work of the child that the first application has missed
  obtain ⟨a, ha, hmiss⟩ : ∃ a ∈ child.plain, a ∉ child.trace := by
    by_contra hall
    push Not at hall
    have hle := (List.subperm_of_subset hnd.1.1.2.1 hall).length_le
    exact hc (complete_of_trace_eq ((trace_sublist child).eq_of_length_le hle))
  have hafter : a ∉ after := fun h => hnd.1.2.2 a (.inr ha) a h rfl
  have hsib : a ∉ sibling.plain := fun h => hnd.2.2 a (.inl (.inr ha)) a h rfl
  have hin : a ∈ (resumed (.node before after child sibling)).getD [] := by
    have hmem : a ∈ child.plain ++ (after ++ sibling.plain) := List.mem_append_left _ ha
    rw [← h] at hmem
    simp only [List.mem_append] at hmem
    rcases hmem with h | h | h | h
    · exact absurd h hmiss
    · exact absurd h hafter
    · exact absurd ((trace_sublist sibling).subset h) hsib
    · exact h
  -- an interrupt of the sibling would have overwritten the child's position
  have hnone : sibling.resumed = none := by
    cases hres : sibling.resumed with
    | none => rfl
    | some r =>
      have hsub := resumed_subset sibling a
      rw [hres] at hsub
      rw [resumed, hres] at hin
      exact absurd (hsub hin) hsib
  rw [trace_eq_of_resumed_none hnone] at h
  simp only [resumed, hnone, Option.none_or] at h hin
  -- the last piece of work is one of the child
  have hlast : after ++ sibling.plain = [] := by
    by_contra hne
    have hres : child.resumed.getD [] ≠ [] := List.ne_nil_of_mem hin
    have hl := congrArg List.getLast? h
    rw [← List.append_assoc after, ← List.append_assoc child.trace,
      List.getLast?_append_of_ne_nil _ hres, List.getLast?_append_of_ne_nil _ hne,
      List.getLast?_eq_some_getLast hres] at hl
    have hxc := resumed_subset child _ (List.getLast_mem hres)
    have hy := List.mem_of_getLast? hl.symm
    rcases List.mem_append.mp hy with hy | hy
    · exact hnd.1.2.2 _ (.inr hxc) _ hy rfl
    · exact hnd.2.2 _ (.inl (.inr hxc)) _ hy rfl
  obtain ⟨rfl, hps⟩ := List.append_eq_nil_iff.mp hlast
  refine ⟨rfl, silent_of_plain_nil hps hnone, ?_⟩
  rw [hps] at h
  simpa [full] using h

/-- **The plain order, exactly**: a tree whose pieces of work are different is
done in the plain order iff it is resumable. -/
theorem full_eq_plain_iff {d : Diff α} (hnd : d.plain.Nodup) :
    d.full = d.plain ↔ d.Resumable := by
  refine ⟨fun h => ?_, fun h => h.full_eq⟩
  induction d with
  | nil => trivial
  | interrupt sibling ih => exact ih hnd h
  | node before after child sibling ihc ihs =>
    have hnd' := hnd
    simp only [plain, List.nodup_append] at hnd'
    by_cases hc : child.Complete
    · refine .inl ⟨hc, ihs hnd'.2.1 ?_⟩
      obtain ⟨htc, hrc⟩ := hc.spec
      simp only [full, trace, plain, htc, List.append_assoc, List.append_cancel_left_eq] at h
      rw [full, ← h, resumed]
      cases hres : sibling.resumed with
      | none => simp [hrc]
      | some r => simp
    · obtain ⟨hafter, hsilent, hfull⟩ := resumable_of_unfinished hnd h hc
      exact .inr ⟨hafter, hsilent, ihc hnd'.1.1.2.1 hfull⟩

/-! ## Chains -/

/-- `assign_sibling` at the end of a chain. -/
def append : Diff α → Diff α → Diff α
  | .nil, d => d
  | .interrupt sibling, d => .interrupt (append sibling d)
  | .node before after child sibling, d => .node before after child (append sibling d)

/-- A diff that can be pushed: one node without a sibling, not interrupted inside. -/
def Single : Diff α → Prop
  | .node _ _ child .nil => child.Complete
  | _ => False

/-- All diffs of the chain are done in one application. -/
def Links : Diff α → Prop
  | .nil => True
  | .interrupt sibling => Links sibling
  | .node _ _ child sibling => Complete child ∧ Links sibling

/-- The chain itself has an interrupt. -/
def Broken : Diff α → Prop
  | .nil => False
  | .interrupt _ => True
  | .node _ _ _ sibling => Broken sibling

theorem Single.links {d : Diff α} (h : d.Single) : d.Links := by
  match d, h with
  | .node _ _ _ .nil, h => exact ⟨h, trivial⟩

theorem Single.complete {d : Diff α} (h : d.Single) : d.Complete := by
  match d, h with
  | .node _ _ _ .nil, h => exact ⟨h, trivial⟩

theorem Single.not_broken {d : Diff α} (h : d.Single) : ¬ d.Broken := by
  match d, h with
  | .node _ _ _ .nil, _ => exact id

theorem plain_append (x y : Diff α) : (x.append y).plain = x.plain ++ y.plain := by
  induction x with
  | nil => rfl
  | interrupt sibling ih => exact ih
  | node before after child sibling _ ih => simp [append, plain, ih]

theorem links_append_iff {x y : Diff α} : (x.append y).Links ↔ x.Links ∧ y.Links := by
  induction x with
  | nil => simp [append, Links]
  | interrupt sibling ih => exact ih
  | node before after child sibling _ ih => simp [append, Links, ih, and_assoc]

theorem broken_append {x y : Diff α} : (x.append y).Broken ↔ x.Broken ∨ y.Broken := by
  induction x with
  | nil => simp [append, Broken]
  | interrupt sibling _ => simp [append, Broken]
  | node before after child sibling _ ih => exact ih

/-- A chain of diffs that are not interrupted inside is resumable wherever the
interrupts are. -/
theorem Links.resumable {d : Diff α} (h : d.Links) : d.Resumable := by
  induction d with
  | nil => trivial
  | interrupt sibling ih => exact ih h
  | node before after child sibling _ ih => exact .inl ⟨h.1, ih h.2⟩

/-- Work after an interrupt of the chain is not done in one application. -/
theorem complete_append {x y : Diff α} (hy : y.plain ≠ []) :
    (x.append y).Complete ↔ x.Complete ∧ ¬ x.Broken ∧ y.Complete := by
  induction x with
  | nil => simp [append, Complete, Broken]
  | interrupt sibling _ => simp [append, Complete, Broken, plain_append, hy]
  | node before after child sibling _ ih => simp [append, Complete, Broken, ih, and_assoc]

theorem complete_append_interrupt (x : Diff α) :
    (x.append (.interrupt .nil)).Complete ↔ x.Complete := by
  induction x with
  | nil => simp [append, Complete, plain]
  | interrupt sibling _ => simp [append, Complete, plain_append, plain]
  | node before after child sibling _ ih => simp [append, Complete, ih]

end Diff

end SyncSpirit
