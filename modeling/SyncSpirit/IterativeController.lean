import SyncSpirit.DiffAssembler
import SyncSpirit.Lib.Run

/-!
# The interruptible executor (`model/diff/iterative_controller.cpp`)

`iterative_controller_base_t` applies the diffs of `model_update` messages. When
an application has left a position behind, the executor sends itself a resume
message and delays all updates until it has arrived and nothing is left behind.

`Executor` is its state, `Event` what can happen to it: the next update message
arrives, or the resume message does. The messages sent earlier are handled
earlier, but a resume message can be overtaken by any number of updates, so a run
is any sequence of events in which a resume only happens while one is in flight.

The reference is `plainAll`: the plain controller on one message after another.
-/

namespace SyncSpirit

variable {α : Type}

/-- The plain controller on one message after another, up to the first failure. -/
def plainAll (ok : Succeeds α) : List (Diff α) → List α → List α × Bool
  | [], log => (log, true)
  | d :: ds, log => andThen (d.applyPlain ok log) (plainAll ok ds)

theorem plainAll_eq (ok : Succeeds α) (ds : List (Diff α)) :
    plainAll ok ds = perform ok (ds.flatMap Diff.plain) := by
  induction ds with
  | nil => rfl
  | cons d ds ih =>
    funext log
    rw [plainAll, List.flatMap_cons, perform_append, Diff.applyPlain_eq, ih]

/-- `iterative_controller_base_t`. `resume` is the position carried by the resume
message in flight, `nil` if there is none (`interrupted` is false). `down`: an
update has failed and the actor shuts down. -/
structure Executor (α : Type) where
  log : List α
  resume : Diff α
  delayed : List (Diff α)
  down : Bool
  deriving DecidableEq, Repr

namespace Executor

/-- What can happen. -/
inductive Event (α : Type) where
  | update (diff : Diff α)
  | resume
  deriving DecidableEq, Repr

/-- Before the first message. -/
def init : Executor α := ⟨[], .nil, [], false⟩

/-- `process_impl`, with a fresh context. -/
def process (ok : Succeeds α) (x : Executor α) (diff : Diff α) : Executor α :=
  let r := diff.applyIter ok ⟨x.log, .nil⟩
  if r.2 then { x with log := r.1.log, resume := r.1.saved }
  else { x with log := r.1.log, resume := .nil, down := true }

/-- The loop over `delayed_updates` (iterative_controller.cpp:59–66). It is cut
after a failure, when the actor is on its way down. -/
def applyDelayed (ok : Succeeds α) : List (Diff α) → Executor α → Executor α
  | [], x => { x with delayed := [] }
  | d :: ds, x =>
    if x.resume.isNil && !x.down then applyDelayed ok ds (x.process ok d)
    else { x with delayed := d :: ds }

/-- `on_model_update`. -/
def onModelUpdate (ok : Succeeds α) (x : Executor α) (diff : Diff α) : Executor α :=
  if x.resume.isNil then x.process ok diff else { x with delayed := x.delayed ++ [diff] }

/-- `on_model_interrupt`. -/
def onModelInterrupt (ok : Succeeds α) (x : Executor α) : Executor α :=
  applyDelayed ok x.delayed (x.process ok x.resume)

/-- One event. Nothing is applied any more after a failure. -/
def step (ok : Succeeds α) (x : Executor α) : Event α → Option (Executor α)
  | .update diff => if x.down then some x else some (x.onModelUpdate ok diff)
  | .resume => if x.resume.isNil then none else some (x.onModelInterrupt ok)

/-- The messages of a run, in the order of their arrival. -/
def updates : List (Event α) → List (Diff α)
  | [] => []
  | .update diff :: es => diff :: updates es
  | .resume :: es => updates es

/-- Let the resume messages arrive, at most `n` of them. -/
def settle (ok : Succeeds α) : Nat → Executor α → Executor α
  | 0, x => x
  | n + 1, x => if x.resume.isNil then x else settle ok n (x.onModelInterrupt ok)

/-- The interrupts that are still ahead. -/
def interruptsLeft (x : Executor α) : Nat :=
  x.resume.interrupts + (x.delayed.map Diff.interrupts).sum

/-! ## What is left to do -/

/-- The result of finishing the position in flight and then the messages `ds`. -/
def outcome (ok : Succeeds α) (x : Executor α) (ds : List (Diff α)) : List α × Bool :=
  if x.down then (x.log, false) else perform ok (x.resume.full ++ ds.flatMap Diff.full) x.log

/-- Updates are only delayed while a resume message is in flight, and none is
after a failure. -/
structure WF (x : Executor α) : Prop where
  idle : x.resume = .nil → x.down = false → x.delayed = []
  stopped : x.down = true → x.resume = .nil

theorem process_delayed (ok : Succeeds α) (x : Executor α) (d : Diff α) :
    (x.process ok d).delayed = x.delayed := by
  unfold process
  dsimp only
  split <;> rfl

theorem process_stopped {ok : Succeeds α} {x : Executor α} {d : Diff α} (hx : x.down = false)
    (h : (x.process ok d).down = true) : (x.process ok d).resume = .nil := by
  unfold process at h ⊢
  dsimp only at h ⊢
  split
  · rename_i hr
    rw [if_pos hr] at h
    rw [hx] at h
    cases h
  · rfl

/-- Processing a message takes it from the work that is left. -/
theorem outcome_process (ok : Succeeds α) {x : Executor α} (hx : x.down = false) (d : Diff α)
    (ds : List (Diff α)) :
    outcome ok (x.process ok d) ds = perform ok (d.full ++ ds.flatMap Diff.full) x.log := by
  obtain ⟨hlog, hok, hsaved⟩ := d.applyIter_spec ok ⟨x.log, .nil⟩
  rw [d.full_eq, List.append_assoc, perform_append]
  dsimp only at hlog hok hsaved ⊢
  rcases hp : perform ok d.trace x.log with ⟨log, _ | _⟩
  · rw [hp] at hok hlog
    simp [outcome, process, hok, hlog]
  · rw [hp] at hok hlog hsaved
    simp [outcome, process, hok, hlog, hsaved, hx]

theorem process_resume_interrupts (ok : Succeeds α) (x : Executor α) (d : Diff α)
    (h : (x.process ok d).resume ≠ .nil) :
    (x.process ok d).resume.interrupts < d.interrupts := by
  obtain ⟨-, hok, hsaved⟩ := d.applyIter_spec ok ⟨x.log, .nil⟩
  unfold process at h ⊢
  dsimp only at h ⊢
  split
  · rename_i hr
    rw [if_pos hr] at h
    rw [hok] at hr
    rw [hsaved hr] at h ⊢
    cases hs : d.saves with
    | none =>
      rw [hs] at h
      exact absurd rfl h
    | some s => exact Diff.interrupts_saves_lt hs
  · rename_i hr
    rw [if_neg hr] at h
    exact absurd rfl h

/-- The loop takes the processed messages from the work that is left. -/
theorem applyDelayed_spec (ok : Succeeds α) (ds : List (Diff α)) (x : Executor α)
    (hx : x.down = true → x.resume = .nil) :
    (applyDelayed ok ds x).WF ∧
      outcome ok (applyDelayed ok ds x) (applyDelayed ok ds x).delayed = outcome ok x ds := by
  induction ds generalizing x with
  | nil => exact ⟨⟨fun _ _ => rfl, hx⟩, rfl⟩
  | cons d ds ih =>
    rw [applyDelayed]
    split
    · rename_i hidle
      simp only [Bool.and_eq_true, Bool.not_eq_true', Diff.isNil_iff] at hidle
      obtain ⟨hnil, hdown⟩ := hidle
      obtain ⟨hwf, hout⟩ := ih (x.process ok d) (process_stopped hdown)
      refine ⟨hwf, hout.trans ?_⟩
      rw [outcome_process ok hdown, outcome, hdown, hnil]
      rfl
    · rename_i hbusy
      refine ⟨⟨fun hnil hdown => ?_, hx⟩, rfl⟩
      have hnil' : x.resume = .nil := hnil
      have hdown' : x.down = false := hdown
      simp [hnil', hdown', Diff.isNil] at hbusy

theorem applyDelayed_interrupts (ok : Succeeds α) (ds : List (Diff α)) (x : Executor α)
    (h : (applyDelayed ok ds x).resume ≠ .nil) :
    (applyDelayed ok ds x).interruptsLeft ≤
        x.resume.interrupts + (ds.map Diff.interrupts).sum ∧
      (x.resume = .nil →
        (applyDelayed ok ds x).interruptsLeft < (ds.map Diff.interrupts).sum) := by
  induction ds generalizing x with
  | nil => exact ⟨Nat.le_refl _, fun hnil => absurd hnil h⟩
  | cons d ds ih =>
    rw [applyDelayed] at h ⊢
    split
    · rename_i hidle
      rw [if_pos hidle] at h
      obtain ⟨hle, hlt⟩ := ih (x.process ok d) h
      rw [List.map_cons, List.sum_cons]
      -- either `d` was interrupted again, or a later message was
      have hstrict : (applyDelayed ok ds (x.process ok d)).interruptsLeft <
          d.interrupts + (ds.map Diff.interrupts).sum := by
        by_cases hres : (x.process ok d).resume = .nil
        · have := hlt hres
          omega
        · have := process_resume_interrupts ok x d hres
          omega
      exact ⟨by omega, fun _ => hstrict⟩
    · rename_i hbusy
      rw [if_neg hbusy] at h
      exact ⟨Nat.le_refl _, fun hnil => absurd hnil h⟩

/-- A resume message leaves the outcome as it is. -/
theorem onModelInterrupt_spec (ok : Succeeds α) {x : Executor α} (hres : x.resume ≠ .nil)
    (hw : x.WF) : (x.onModelInterrupt ok).WF ∧
      outcome ok (x.onModelInterrupt ok) (x.onModelInterrupt ok).delayed =
        outcome ok x x.delayed := by
  have hdown : x.down = false := by
    rw [Bool.eq_false_iff]
    exact fun h => hres (hw.stopped h)
  obtain ⟨hwf, hout⟩ := applyDelayed_spec ok x.delayed (x.process ok x.resume)
    (process_stopped hdown)
  refine ⟨hwf, hout.trans ?_⟩
  rw [outcome_process ok hdown, outcome, hdown]
  rfl

theorem onModelInterrupt_interrupts (ok : Succeeds α) {x : Executor α}
    (h : (x.onModelInterrupt ok).resume ≠ .nil) :
    (x.onModelInterrupt ok).interruptsLeft < x.interruptsLeft := by
  obtain ⟨hle, hlt⟩ := applyDelayed_interrupts ok x.delayed (x.process ok x.resume) h
  unfold onModelInterrupt interruptsLeft at *
  by_cases hres : (x.process ok x.resume).resume = .nil
  · have := hlt hres
    omega
  · have := process_resume_interrupts ok x x.resume hres
    omega

/-- A new message is added to the outcome. -/
theorem onModelUpdate_spec (ok : Succeeds α) {x : Executor α} (hw : x.WF)
    (hdown : x.down = false) (d : Diff α) : (x.onModelUpdate ok d).WF ∧
      outcome ok (x.onModelUpdate ok d) (x.onModelUpdate ok d).delayed =
        andThen (outcome ok x x.delayed) (perform ok d.full) := by
  unfold onModelUpdate
  split
  · rename_i hnil
    rw [Diff.isNil_iff] at hnil
    have hd := hw.idle hnil hdown
    refine ⟨⟨fun _ _ => (process_delayed ok x d).trans hd, process_stopped hdown⟩, ?_⟩
    rw [process_delayed, hd, outcome_process ok hdown, outcome, hdown, hnil]
    simp [Diff.full, Diff.trace, Diff.resumed, perform]
  · rename_i hbusy
    refine ⟨⟨fun hnil _ => absurd (Diff.isNil_iff.mpr hnil) hbusy, hw.stopped⟩, ?_⟩
    simp only [outcome, hdown, List.flatMap_append, ← List.append_assoc]
    rw [perform_append]
    simp

/-! ## Whole runs -/

/-- **Run**: the outcome of a run is that of its messages, one after another,
each resumed to its end. -/
theorem exec_spec (ok : Succeeds α) {es : List (Event α)} {x y : Executor α} (hw : x.WF)
    (hrun : Run.exec (step ok) x es = some y) :
    y.WF ∧ outcome ok y y.delayed =
      andThen (outcome ok x x.delayed) (perform ok ((updates es).flatMap Diff.full)) := by
  induction es generalizing x with
  | nil =>
    obtain rfl : x = y := Option.some.inj hrun
    refine ⟨hw, ?_⟩
    show _ = andThen (outcome ok x x.delayed) (fun log => (log, true))
    rcases outcome ok x x.delayed with ⟨log, _ | _⟩ <;> rfl
  | cons e es ih =>
    obtain ⟨z, hz, hrest⟩ := Option.bind_eq_some_iff.mp hrun
    cases e with
    | update d =>
      rw [step] at hz
      rw [updates, List.flatMap_cons, perform_append]
      cases hdown : x.down with
      | true =>
        rw [if_pos hdown] at hz
        cases hz
        obtain ⟨hwy, hout⟩ := ih hw hrest
        refine ⟨hwy, hout.trans ?_⟩
        simp [outcome, hdown]
      | false =>
        rw [if_neg (by simp [hdown])] at hz
        cases hz
        obtain ⟨hwz, houtz⟩ := onModelUpdate_spec ok hw hdown d
        obtain ⟨hwy, hout⟩ := ih hwz hrest
        refine ⟨hwy, hout.trans ?_⟩
        rw [houtz]
        rcases outcome ok x x.delayed with ⟨log, _ | _⟩ <;> rfl
    | resume =>
      rw [step] at hz
      split at hz
      · cases hz
      · rename_i hres
        cases hz
        have hne : x.resume ≠ .nil := fun h => hres (Diff.isNil_iff.mpr h)
        obtain ⟨hwz, houtz⟩ := onModelInterrupt_spec ok hne hw
        obtain ⟨hwy, hout⟩ := ih hwz hrest
        exact ⟨hwy, hout.trans (by rw [houtz, updates])⟩

/-- With no resume message in flight, the log is the outcome. -/
theorem WF.outcome_of_idle {x : Executor α} (hw : x.WF) (hnil : x.resume = .nil)
    (ok : Succeeds α) : (x.log, !x.down) = outcome ok x x.delayed := by
  cases hdown : x.down with
  | true => simp [outcome, hdown]
  | false =>
    simp [outcome, hdown, hw.idle hnil hdown, hnil, Diff.full, Diff.trace, Diff.resumed, perform]

/-- Enough resume messages finish all the work. -/
theorem settle_spec (ok : Succeeds α) (n : Nat) {x : Executor α} (hw : x.WF)
    (hn : x.resume = .nil ∨ x.interruptsLeft < n) :
    (settle ok n x).resume = .nil ∧
      ((settle ok n x).log, !(settle ok n x).down) = outcome ok x x.delayed := by
  induction n generalizing x with
  | zero =>
    have hnil := hn.resolve_right (Nat.not_lt_zero _)
    exact ⟨hnil, hw.outcome_of_idle hnil ok⟩
  | succ n ih =>
    rw [settle]
    split
    · rename_i hnil
      rw [Diff.isNil_iff] at hnil
      exact ⟨hnil, hw.outcome_of_idle hnil ok⟩
    · rename_i hres
      have hne : x.resume ≠ .nil := fun h => hres (Diff.isNil_iff.mpr h)
      obtain ⟨hwz, houtz⟩ := onModelInterrupt_spec ok hne hw
      rw [← houtz]
      refine ih hwz ?_
      by_cases hz : (x.onModelInterrupt ok).resume = .nil
      · exact .inl hz
      · have hlt := onModelInterrupt_interrupts ok hz
        have hlt' := hn.resolve_left hne
        exact .inr (by omega)

/-- The end of a run: all resume messages that are still to come have arrived. -/
def settled (ok : Succeeds α) (x : Executor α) : Executor α :=
  settle ok (x.interruptsLeft + 1) x

theorem wf_init : (init : Executor α).WF := ⟨fun _ _ => rfl, fun h => nomatch h⟩

/-- Every run ends, with the work of its messages in the order of `Diff.full`. -/
theorem settled_spec (ok : Succeeds α) {es : List (Event α)} {x : Executor α}
    (hrun : Run.exec (step ok) init es = some x) :
    (x.settled ok).resume = .nil ∧
      ((x.settled ok).log, !(x.settled ok).down) =
        perform ok ((updates es).flatMap Diff.full) [] := by
  obtain ⟨hw, hout⟩ := exec_spec ok wf_init hrun
  obtain ⟨hnil, hlog⟩ := settle_spec ok (x.interruptsLeft + 1) hw (.inr (Nat.lt_succ_self _))
  refine ⟨hnil, hlog.trans (hout.trans ?_)⟩
  rfl

/-- The updates alone are a run. -/
theorem exists_run (ok : Succeeds α) (ds : List (Diff α)) (x : Executor α) :
    ∃ y, Run.exec (step ok) x (ds.map .update) = some y := by
  induction ds generalizing x with
  | nil => exact ⟨x, rfl⟩
  | cons d ds ih =>
    rw [List.map_cons, Run.exec, step]
    split
    · exact ih x
    · exact ih _

theorem updates_map_update (ds : List (Diff α)) : updates (ds.map .update) = ds := by
  induction ds with
  | nil => rfl
  | cons d ds ih => rw [List.map_cons, updates, ih]

/-- Lists of pieces of work that belong to different messages are separated by
the messages they belong to. -/
theorem flatMap_full_inj {ds : List (Diff α)} (hnd : (ds.flatMap Diff.plain).Nodup)
    (h : ds.flatMap Diff.full = ds.flatMap Diff.plain) : ∀ d ∈ ds, d.full = d.plain := by
  classical
  induction ds with
  | nil => exact fun _ h => nomatch h
  | cons d ds ih =>
    rw [List.flatMap_cons, List.nodup_append] at hnd
    obtain ⟨-, hnds, hdisj⟩ := hnd
    have hin : ∀ l : List α, (∀ a ∈ l, a ∈ d.plain) → l.filter (· ∈ d.plain) = l :=
      fun l hl => List.filter_eq_self.mpr fun a ha => by simpa using hl a ha
    have hout : ∀ l : List α, (∀ a ∈ l, a ∈ ds.flatMap Diff.plain) →
        l.filter (· ∈ d.plain) = [] := by
      intro l hl
      refine List.filter_eq_nil_iff.mpr fun a ha hd => ?_
      exact hdisj a (by simpa using hd) a (hl a ha) rfl
    have hsub : ∀ a ∈ ds.flatMap Diff.full, a ∈ ds.flatMap Diff.plain := by
      intro a ha
      obtain ⟨e, he, hae⟩ := List.mem_flatMap.mp ha
      exact List.mem_flatMap.mpr ⟨e, he, e.full_subset a hae⟩
    rw [List.flatMap_cons, List.flatMap_cons] at h
    -- keep the work of the first message only
    have hd : d.full = d.plain := by
      have hf := congrArg (List.filter (· ∈ d.plain)) h
      rwa [List.filter_append, List.filter_append, hin _ d.full_subset, hin _ fun _ h => h,
        hout _ hsub, hout _ fun _ h => h, List.append_nil, List.append_nil] at hf
    rw [hd] at h
    intro e he
    rcases List.mem_cons.mp he with rfl | he
    · exact hd
    · exact ih hnds (List.append_cancel_left h) e he

/-- **The interruptible executor**: for messages whose pieces of work are all
different, the following are equivalent.
- However the work succeeds or fails and however the messages arrive between the
  resume messages, the run ends with exactly the log of the plain controller on
  one message after another, and it fails iff that one does.
- Every tree is resumable. -/
theorem runs_plain_iff_resumable (ds : List (Diff α)) (hnd : (ds.flatMap Diff.plain).Nodup) :
    (∀ (ok : Succeeds α) (es : List (Event α)) (x : Executor α), updates es = ds →
      Run.exec (step ok) init es = some x →
      (x.settled ok).resume = .nil ∧
        ((x.settled ok).log, !(x.settled ok).down) = plainAll ok ds []) ↔
    ∀ d ∈ ds, d.Resumable := by
  constructor
  · intro h d hd
    have hdnd : d.plain.Nodup := (List.nodup_flatMap.mp hnd).1 d hd
    rw [← Diff.full_eq_plain_iff hdnd]
    obtain ⟨x, hx⟩ := exists_run (fun _ _ => true) ds init
    obtain ⟨-, hlog⟩ := h (fun _ _ => true) _ x (updates_map_update ds) hx
    obtain ⟨-, hfull⟩ := settled_spec (fun _ _ => true) hx
    rw [hlog, updates_map_update, plainAll_eq, perform_of_true, perform_of_true] at hfull
    exact flatMap_full_inj hnd (Prod.ext_iff.mp hfull).1.symm d hd
  · intro h ok es x hes hrun
    obtain ⟨hnil, hlog⟩ := settled_spec ok hrun
    refine ⟨hnil, hlog.trans ?_⟩
    have hflat : ds.flatMap Diff.full = ds.flatMap Diff.plain :=
      List.flatMap_congr fun d hd => (h d hd).full_eq
    rw [hes, hflat, plainAll_eq]

/-- The removal of a peer with `n` shared folders: `unshare_folder_t` number `i`
is the piece of work `i`, the removal of the device itself is `n`. -/
def removePeerOf (n : Nat) : Diff Nat :=
  removePeer n ((List.range n).map fun i => .node [i] [] .nil .nil)

/-- Three siblings with an interrupt before the last one. -/
def interruptedSiblings : Diff Nat := Assembler.assemble 2 ([10, 11, 12].map fun a => .node [a] [] .nil .nil)

/-- The second message arrives before the resume message of the first one, and
has to wait: the run is plain. -/
theorem runs_plain_of_interrupted : interruptedSiblings.interrupts = 1 ∧ ∃ x,
    Run.exec (step fun _ _ => true) init [.update interruptedSiblings, .update (removePeerOf 2), .resume] = some x ∧
      (x.settled fun _ _ => true).resume = .nil ∧
        ((x.settled fun _ _ => true).log, !(x.settled fun _ _ => true).down) =
          plainAll (fun _ _ => true) [interruptedSiblings, removePeerOf 2] [] := by
  have hresumable : ∀ d ∈ [interruptedSiblings, removePeerOf 2], d.Resumable := by
    intro d hd
    rcases List.mem_cons.mp hd with rfl | hd
    · exact Assembler.resumable_assemble 2 (by simp [Diff.Single, Diff.Complete])
    · rw [List.mem_singleton.mp hd]
      exact (resumable_removePeer 2 (by simp [Diff.Single, Diff.Complete, Diff.plain])).mpr (by decide)
  exact ⟨rfl, _, rfl, (runs_plain_iff_resumable [interruptedSiblings, removePeerOf 2] (by decide)).mpr hresumable _
    [.update interruptedSiblings, .update (removePeerOf 2), .resume] _ rfl rfl⟩

/-- With 257 shared folders the device is removed before its last folder is
unshared: the parent goes on although its children have been interrupted. -/
theorem reordered_of_full_batch :
    ∃ x, Run.exec (step fun _ _ => true) init [.update (removePeerOf 257)] = some x ∧
      (x.settled fun _ _ => true).log = List.range 256 ++ [257, 256] ∧
      plainAll (fun _ _ => true) [removePeerOf 257] [] = (List.range 256 ++ [256, 257], true) := by
  have hrun : Run.exec (step fun _ _ => true) init [.update (removePeerOf 257)] =
      some (init.onModelUpdate (fun _ _ => true) (removePeerOf 257)) := rfl
  refine ⟨_, hrun, ?_, ?_⟩
  · have hfull : (removePeerOf 257).full = List.range 256 ++ [257, 256] := by decide +kernel
    obtain ⟨-, hlog⟩ := settled_spec (fun _ _ => true) hrun
    rw [perform_of_true, updates, updates, List.flatMap_cons, hfull, List.flatMap_nil,
      List.append_nil, List.nil_append] at hlog
    exact (Prod.mk.inj hlog).1
  · rw [plainAll_eq, perform_of_true]
    have hplain : (removePeerOf 257).plain = List.range 256 ++ [256, 257] := by
      rw [removePeerOf, removePeer, Diff.plain, Assembler.plain_assemble _ (by simp [Diff.length])]
      decide +kernel
    rw [List.flatMap_cons, hplain, List.flatMap_nil, List.append_nil, List.nil_append]

end Executor

end SyncSpirit
