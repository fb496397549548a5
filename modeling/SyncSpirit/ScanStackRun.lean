import SyncSpirit.ScanStack

/-!
# Every item leaves the stack once

`Ledger` is the discipline of the stack: each item that has ever been pushed is on the stack or has left it
once, and not more has been taken away by the items that do so than they are for. A round keeps it
(`round_spec`) unless it aborts a hashing while there are other items: `abortHashing` erases its own item, and
`process_stack` erases it again. `disciplined_of_run` is the result for all runs without such a round.
-/

namespace SyncSpirit

namespace ScanStack

variable {π P : Type}

/-! ## The ledger -/

/-- Who has taken an item away was there for it: an undone child had the path, and a hashing that is aborted is
the item that aborts it. -/
def Removal.Justified [DecidableEq π] (r : Removal π P) : Prop :=
  match r.fate with
  | .processed => True
  | .undone undo => ∃ path, undo.item = .undoChildReady path ∧ r.entry.item.isReady path = true
  | .suspended suspend => suspend.item = .suspendScan ∧ r.entry.number ≠ suspend.number
  | .aborted abort => (∃ path, abort.item = .abortHashing path) ∧ r.entry = abort
  | .cleared => True

/-- **The discipline of the stack.** -/
structure Ledger [DecidableEq π] (c : Context π P) : Prop where
  once : (c.stack.map Entry.number ++ c.log.map fun r => r.entry.number).Perm (List.range c.nextNumber)
  justified : ∀ r ∈ c.log, r.Justified
  undoneOnce : c.log.Pairwise fun r r' => ∀ undo undo', r.fate = .undone undo → r'.fate = .undone undo' →
    undo.number ≠ undo'.number
  undoers : ∀ r ∈ c.log, ∀ undo, r.fate = .undone undo → undo.number ∈ c.log.map fun r => r.entry.number

/-! ## The stack -/

/-- The first one that is found is the one that is erased. -/
theorem eraseP_of_find {α : Type} {p : α → Bool} {l : List α} {a : α} (hfind : l.find? p = some a) :
    ∃ before after, l = before ++ a :: after ∧ l.eraseP p = before ++ after := by
  obtain ⟨ha, before, after, hl, hbefore⟩ := List.find?_eq_some_iff_append.mp hfind
  refine ⟨before, after, hl, ?_⟩
  rw [hl, List.eraseP_append_right _ fun b hb => by simpa using hbefore b hb, List.eraseP_cons_of_pos ha]

theorem eraseP_of_find_none {α : Type} {p : α → Bool} {l : List α} (hfind : l.find? p = none) : l.eraseP p = l :=
  List.eraseP_of_forall_not fun a ha => by simpa using List.find?_eq_none.mp hfind a ha

section Stack

variable {c : Context π P} {e : Entry π P}

/-- An item that is there. -/
theorem erase_append (before after : List (Entry π P)) (fate : Fate π P) (h : c.stack = before ++ e :: after) (hbefore : ∀ e' ∈ before, e'.number ≠ e.number) :
    c.erase e.number fate = some { c with stack := before ++ after, log := c.log ++ [⟨e, fate⟩] } := by
  have hfind : c.stack.find? (fun e' => e'.number = e.number) = some e := by
    rw [h, List.find?_append, List.find?_eq_none.mpr fun e' he' => by simpa using hbefore e' he']
    simp
  have herase : c.stack.eraseP (fun e' => e'.number = e.number) = before ++ after := by
    rw [h, List.eraseP_append_right _ fun e' he' => by simpa using hbefore e' he']
    simp
  rw [Context.erase, hfind, herase]
  rfl

/-- New items come in front, with new numbers. -/
theorem foldl_pushFront (items : List (Item π P)) (c : Context π P) :
    ∃ new, (items.foldl Context.pushFront c).stack = new ++ c.stack ∧
      (new.map Entry.number).Perm (List.range' c.nextNumber new.length) ∧
      (items.foldl Context.pushFront c).nextNumber = c.nextNumber + new.length ∧
      (items.foldl Context.pushFront c).log = c.log ∧ (items.foldl Context.pushFront c).pendingIo = c.pendingIo := by
  induction items generalizing c with
  | nil => exact ⟨[], rfl, .refl _, rfl, rfl, rfl⟩
  | cons item items ih =>
    obtain ⟨new, hstack, hnumbers, hnext, hlog, hpending⟩ := ih (c.pushFront item)
    refine ⟨new ++ [⟨c.nextNumber, item⟩], ?_, ?_, ?_, hlog, hpending⟩
    · rw [List.foldl_cons, hstack, List.append_assoc]
      rfl
    · rw [List.map_append, List.length_append, List.length_singleton, List.range'_succ]
      refine (List.perm_append_comm).trans ?_
      exact List.Perm.cons _ hnumbers
    · rw [List.foldl_cons, hnext, List.length_append, List.length_singleton]
      show c.nextNumber + 1 + new.length = _
      omega

end Stack

/-! ## A round -/

def Item.isAbort : Item π P → Bool
  | .abortHashing _ => true
  | _ => false

/-- The item in front aborts a hashing only if it is alone. -/
def Ready (c : Context π P) : Event π P → Prop
  | .round _ => c.stack.length ≤ 1 ∨ ∀ e ∈ c.stack.head?, e.item.isAbort = false
  | _ => True

/-- What the handler of an item takes away from those behind it. -/
def withdrawn [DecidableEq π] (e : Entry π P) (rest : List (Entry π P)) : List (Removal π P) :=
  match e.item with
  | .undoChildReady path => (rest.find? fun e' => e'.item.isReady path).toList.map fun e' => ⟨e', .undone e⟩
  | .suspendScan => rest.dropLast.map fun e' => ⟨e', .suspended e⟩
  | _ => []

/-- What it leaves there. -/
def kept [DecidableEq π] (e : Entry π P) (rest : List (Entry π P)) : List (Entry π P) :=
  match e.item with
  | .undoChildReady path => rest.eraseP fun e' => e'.item.isReady path
  | .suspendScan => rest.getLast?.toList
  | _ => rest

/-- Who takes the item itself off the stack. -/
def Entry.fate (e : Entry π P) : Fate π P :=
  match e.item with
  | .abortHashing _ => .aborted e
  | _ => .processed

/-- An item that has to wait: the end of the scan, or a file with blocks to be hashed. -/
def Item.Waits (item item' : Item π P) : Prop :=
  item = .completeScan ∧ item' = .completeScan ∨
    ∃ kind info n m, item = .hash kind info n ∧ item' = .hash kind info m ∧ m ≤ n

/-- An item that has been processed to the end: nothing is under way any more, and no block is left. -/
def Item.Completes (w : World π P) (pendingIo : Nat) (item item' : Item π P) : Prop :=
  match item with
  | .completeScan => item' = .completeScan ∧ pendingIo = 0 ∧ w.idle = true
  | .hash kind info n => ∃ m, item' = .hash kind info m ∧ m ≤ n ∧ (m = 0 ∨ w.errored = true)
  | item => item' = item

/-- What a round does to the item `e` in front of `rest`. -/
inductive Outcome [DecidableEq π] (w : World π P) (c : Context π P) (e : Entry π P) (rest : List (Entry π P))
    (c' : Context π P) : Prop where
  | waits (item : Item π P) (hitem : e.item.Waits item) (hstack : c'.stack = { e with item := item } :: rest)
      (hnext : c'.nextNumber = c.nextNumber) (hlog : c'.log = c.log)
  | done (item : Item π P) (new : List (Entry π P)) (hitem : e.item.Completes w c.pendingIo item)
      (hnumbers : (new.map Entry.number).Perm (List.range' c.nextNumber new.length))
      (hstack : c'.stack = new ++ kept e rest) (hnext : c'.nextNumber = c.nextNumber + new.length)
      (hlog : c'.log = c.log ++ withdrawn e rest ++ [⟨{ e with item := item }, e.fate⟩])

/-- What is said of the effect of a handler that erases nothing. -/
structure Effect.Sound (w : World π P) (pendingIo : Nat) (item : Item π P) (effect : Effect π P) : Prop where
  waits (h : effect.result < 0) : effect.pushed = [] ∧ item.Waits effect.item
  completed (h : 0 ≤ effect.result) : item.Completes w pendingIo effect.item

theorem completeScan_sound (w : World π P) (pendingIo : Nat) :
    (completeScan w pendingIo).Sound w pendingIo .completeScan := by
  rw [completeScan]
  split
  next hidle => exact ⟨fun h => absurd h (by norm_num), fun _ => ⟨rfl, hidle⟩⟩
  next => exact ⟨fun _ => ⟨rfl, .inl ⟨rfl, rfl⟩⟩, fun h => absurd h (by norm_num)⟩

theorem scheduleHash_sound (w : World π P) (pendingIo : Nat) (kind : HashKind) (info : ChildInfo π) (n : Nat) :
    (scheduleHash w kind info n).Sound w pendingIo (.hash kind info n) := by
  rw [scheduleHash]
  split
  next herrored => exact ⟨fun h => absurd h (by norm_num), fun _ => ⟨n, rfl, le_refl n, .inr herrored⟩⟩
  split
  next => exact ⟨fun _ => ⟨rfl, .inr ⟨kind, info, n, n, rfl, rfl, le_refl n⟩⟩, fun h => absurd h (by norm_num)⟩
  by_cases hleft : n - min w.hashesPool n = 0
  · exact ⟨fun h => absurd h (by simp [hleft]), fun _ => ⟨_, rfl, Nat.sub_le _ _, .inl hleft⟩⟩
  · exact ⟨fun _ => ⟨rfl, .inr ⟨kind, info, n, _, rfl, rfl, Nat.sub_le _ _⟩⟩, fun h => absurd h (by simp [hleft])⟩

/-- A handler that does not wait. -/
theorem sound_of_nonneg {w : World π P} {effect : Effect π P} {item : Item π P} {pendingIo : Nat} (hresult : 0 ≤ effect.result)
    (hitem : item.Completes w pendingIo effect.item) : effect.Sound w pendingIo item :=
  ⟨fun h => absurd hresult (by omega), fun _ => hitem⟩

section Round

variable [DecidableEq π] {w : World π P} {c c' : Context π P} {e : Entry π P} {rest : List (Entry π P)}

/-- The handlers that erase nothing. -/
theorem process_plain (w : World π P) (c : Context π P) (hundo : ∀ path, e.item ≠ .undoChildReady path)
    (hsuspend : e.item ≠ .suspendScan) (habort : ∀ path, e.item ≠ .abortHashing path) :
    ∃ effect, process w c e = some (c.apply effect, effect.result) ∧ effect.Sound w c.pendingIo e.item := by
  obtain ⟨number, item⟩ := e
  cases item with
  | unscannedDir path =>
    refine ⟨unscannedDir w path, rfl, ?_⟩
    rw [unscannedDir]
    split <;> exact sound_of_nonneg (Int.natCast_nonneg _) rfl
  | unexamined info recurse => exact ⟨unexamined w info recurse, rfl, sound_of_nonneg (Int.natCast_nonneg _) rfl⟩
  | incomplete info =>
    refine ⟨incomplete w info, rfl, ?_⟩
    rw [incomplete]
    split <;> exact sound_of_nonneg (Int.natCast_nonneg _) rfl
  | completeScan => exact ⟨completeScan w c.pendingIo, rfl, completeScan_sound w c.pendingIo⟩
  | childReady info hasBlocks => exact ⟨childReady w info hasBlocks, rfl, sound_of_nonneg (Int.natCast_nonneg _) rfl⟩
  | undoChildReady path => exact absurd rfl (hundo path)
  | hash kind info n => exact ⟨scheduleHash w kind info n, rfl, scheduleHash_sound w c.pendingIo kind info n⟩
  | rehashedIncomplete info => exact ⟨rehashedIncomplete w info, rfl, sound_of_nonneg (Int.natCast_nonneg _) rfl⟩
  | abortHashing path => exact absurd rfl (habort path)
  | removedDir presence => exact ⟨_, rfl, sound_of_nonneg (Int.natCast_nonneg _) rfl⟩
  | confirmedDeleted presence => exact ⟨confirmedDeleted w presence, rfl, sound_of_nonneg (Int.natCast_nonneg _) rfl⟩
  | suspendScan => exact absurd rfl hsuspend
  | unsuspendScan => exact ⟨_, rfl, sound_of_nonneg (Int.natCast_nonneg _) rfl⟩

/-- The rest of a round, after the handler and the erasure. -/
theorem round_of_process {c₁ c₂ : Context π P} {r : Int} (hstack : c.stack = e :: rest)
    (hprocess : process w c e = some (c₁, r))
    (herase : (if 0 ≤ r ∧ c₁.stack ≠ [] then c₁.erase e.number .processed else some c₁) = some c₂) :
    ∃ c' next, round w c = some (c', next) ∧ c'.stack = c₂.stack ∧ c'.nextNumber = c₂.nextNumber ∧
      c'.log = c₂.log := by
  have hround : round w c = if 0 < r then
      if w.overused && c₂.stack ≠ [] && c₂.pendingIo = 0 then some (c₂.pushTasks 1, false) else some (c₂, true)
    else some (c₂, false) := by
    have hbind : round w c = (if 0 ≤ r ∧ c₁.stack ≠ [] then c₁.erase e.number .processed else some c₁).bind
        fun c => if 0 < r then
          if w.overused && c.stack ≠ [] && c.pendingIo = 0 then some (c.pushTasks 1, false) else some (c, true)
        else some (c, false) := by
      simp only [round, hstack, hprocess, Option.bind_eq_bind, Option.bind_some]
      split <;> rfl
    rw [hbind, herase]
    rfl
  rw [hround]
  split
  · split
    · exact ⟨_, _, rfl, rfl, rfl, rfl⟩
    · exact ⟨_, _, rfl, rfl, rfl, rfl⟩
  · exact ⟨_, _, rfl, rfl, rfl, rfl⟩

/-- A round of an item whose handler erases nothing. -/
theorem round_of_effect {effect : Effect π P} (hstack : c.stack = e :: rest) (hnumber : e.number < c.nextNumber)
    (hprocess : process w c e = some (c.apply effect, effect.result)) (hsound : effect.Sound w c.pendingIo e.item)
    (hkept : kept e rest = rest) (hwithdrawn : withdrawn e rest = []) (hfate : e.fate = .processed) :
    ∃ c' next, round w c = some (c', next) ∧ Outcome w c e rest c' := by
  obtain ⟨new, hnew, hnumbers, hnext, hlog, -⟩ := foldl_pushFront effect.pushed
    { c with stack := { e with item := effect.item } :: rest }
  have happly : c.apply effect = (effect.pushed.foldl Context.pushFront
      { c with stack := { e with item := effect.item } :: rest }).pushTasks effect.tasks := by
    rw [Context.apply, hstack]
  by_cases hresult : 0 ≤ effect.result
  · have hnum : ∀ e' ∈ new, e'.number ≠ e.number := by
      intro e' he' heq
      have hrange := hnumbers.mem_iff.mp (List.mem_map_of_mem he')
      have hle := (List.mem_range'_1.mp hrange).1
      exact absurd (heq ▸ hle) (by simpa using hnumber)
    have happend : (c.apply effect).stack = new ++ { e with item := effect.item } :: rest := by
      rw [happly]
      exact hnew
    have herase := erase_append new rest .processed happend hnum
    obtain ⟨c', next, hround, hstack', hnext', hlog'⟩ := round_of_process hstack hprocess
      ((if_pos ⟨hresult, by simp [happend]⟩).trans herase)
    refine ⟨c', next, hround, .done effect.item new (hsound.completed hresult) hnumbers ?_ ?_ ?_⟩
    · rw [hstack', hkept]
    · rw [hnext', happly]
      exact hnext
    · rw [hlog', hwithdrawn, hfate, List.append_nil, happly]
      exact congrArg (· ++ _) hlog
  · obtain ⟨hpushed, hwaits⟩ := hsound.waits (by omega)
    obtain ⟨c', next, hround, hstack', hnext', hlog'⟩ := round_of_process hstack hprocess
      (if_neg fun h => hresult h.1)
    rw [happly, hpushed] at hstack' hnext' hlog'
    exact ⟨c', next, hround, .waits effect.item hwaits hstack' hnext' hlog'⟩

/-- The item itself is erased at the end. -/
theorem round_of_erased (stack : List (Entry π P)) (log : List (Removal π P)) (hstack : c.stack = e :: rest)
    (hprocess : process w c e = some ({ c with stack := e :: stack, log := log }, 1))
    (hitem : e.item.Completes w c.pendingIo e.item) (hkept : kept e rest = stack) (hlog : log = c.log ++ withdrawn e rest)
    (hfate : e.fate = .processed) : ∃ c' next, round w c = some (c', next) ∧ Outcome w c e rest c' := by
  have herase := erase_append (c := { c with stack := e :: stack, log := log }) [] stack .processed rfl fun e' he' => absurd he' List.not_mem_nil
  obtain ⟨c', next, hround, hstack', hnext', hlog'⟩ := round_of_process hstack hprocess
    ((if_pos ⟨by decide, List.cons_ne_nil _ _⟩).trans herase)
  refine ⟨c', next, hround, .done e.item [] hitem (.refl _) ?_ hnext' ?_⟩
  · rw [hstack', hkept]
  · rw [hlog', hfate, ← hlog]

theorem round_of_undo {path : π} (hstack : c.stack = e :: rest) (hnodup : (c.stack.map Entry.number).Nodup)
    (hitem : e.item = .undoChildReady path) :
    ∃ c' next, round w c = some (c', next) ∧ Outcome w c e rest c' := by
  have hself : e.item.isReady path = false := by rw [hitem]; rfl
  have hprocess : process w c e = (undoChildReady c e path).map fun c => (c, 1) := by rw [process, hitem]
  have hcompleted : e.item.Completes w c.pendingIo e.item := by rw [hitem]; rfl
  have hfate : e.fate = .processed := by rw [Entry.fate, hitem]
  have hfind : c.stack.find? (fun e => e.item.isReady path) = rest.find? fun e => e.item.isReady path := by
    rw [hstack, List.find?_cons, hself]
  cases hfound : rest.find? fun e => e.item.isReady path with
  | none =>
    have hundo : undoChildReady c e path = some c := by rw [undoChildReady, hfind, hfound]
    rw [hundo] at hprocess
    refine round_of_erased rest c.log hstack ?_ hcompleted ?_ ?_ hfate
    · rw [hprocess, ← hstack]
      rfl
    · rw [kept, hitem]
      exact eraseP_of_find_none hfound
    · rw [withdrawn, hitem]
      simp [hfound]
  | some found =>
    obtain ⟨before, after, hrest, herased⟩ := eraseP_of_find hfound
    have happend : c.stack = (e :: before) ++ found :: after := by rw [hstack, hrest]; rfl
    have hne : ∀ e' ∈ e :: before, e'.number ≠ found.number := by
      rw [happend, List.map_append, List.map_cons] at hnodup
      exact fun e' he' heq => (List.nodup_append.mp hnodup).2.2 _ (List.mem_map_of_mem he') _
        (List.mem_cons_self) heq
    have hundo : undoChildReady c e path = c.erase found.number (.undone e) := by rw [undoChildReady, hfind, hfound]
    rw [hundo, erase_append (e :: before) after _ happend hne] at hprocess
    refine round_of_erased (before ++ after) _ hstack hprocess hcompleted ?_ ?_ hfate
    · rw [kept, hitem]
      exact herased
    · rw [withdrawn, hitem]
      simp [hfound]

omit [DecidableEq π] in
/-- The items between the first and the last are erased one after another. -/
theorem foldlM_erase (mid : List (Entry π P)) {after : List (Entry π P)} (hstack : c.stack = e :: (mid ++ after))
    (hnodup : (c.stack.map Entry.number).Nodup) (fate : Fate π P) :
    mid.foldlM (fun c e' => c.erase e'.number fate) c =
      some { c with stack := e :: after, log := c.log ++ mid.map fun e' => ⟨e', fate⟩ } := by
  induction mid generalizing c with
  | nil => rw [List.map_nil, List.append_nil, ← List.nil_append after, ← hstack]; rfl
  | cons e₁ mid ih =>
    have hne : ∀ e' ∈ [e], e'.number ≠ e₁.number := by
      rw [hstack] at hnodup
      intro e' he' heq
      rw [List.mem_singleton.mp he'] at heq
      exact (List.nodup_cons.mp hnodup).1 (heq ▸ List.mem_map_of_mem List.mem_cons_self)
    have herase := erase_append [e] (mid ++ after) fate hstack hne
    rw [List.foldlM_cons, herase]
    have hnodup' : ((([e] ++ (mid ++ after)) : List (Entry π P)).map Entry.number).Nodup :=
      hnodup.sublist (hstack ▸ (List.Sublist.cons_cons e (List.sublist_cons_self _ _)).map _)
    refine (ih (c := { c with stack := _, log := _ }) rfl hnodup').trans ?_
    simp

theorem round_of_suspend (hstack : c.stack = e :: rest) (hnodup : (c.stack.map Entry.number).Nodup)
    (hitem : e.item = .suspendScan) : ∃ c' next, round w c = some (c', next) ∧ Outcome w c e rest c' := by
  have hrest : rest = rest.dropLast ++ rest.getLast?.toList := by
    cases hlast : rest.getLast? with
    | none => rw [List.getLast?_eq_none_iff.mp hlast]; rfl
    | some last => exact (List.dropLast_append_getLast? last hlast).symm
  have hprocess : process w c e = (suspendScan c e).map fun c => (c, 1) := by rw [process, hitem]
  have hfold : suspendScan c e = some { c with
      stack := e :: rest.getLast?.toList, log := c.log ++ rest.dropLast.map fun e' => ⟨e', .suspended e⟩ } := by
    rw [suspendScan, hstack, List.tail_cons, foldlM_erase _ (by rw [hstack, ← hrest]) hnodup]
  rw [hfold] at hprocess
  refine round_of_erased _ _ hstack hprocess ?_ ?_ ?_ ?_
  · rw [hitem]
    rfl
  · rw [kept, hitem]
  · rw [withdrawn, hitem]
  · rw [Entry.fate, hitem]

/-- An item that aborts a hashing erases itself, and there is nothing left to be erased. -/
theorem round_of_abort {path : π} (hstack : c.stack = [e]) (hitem : e.item = .abortHashing path) :
    ∃ c' next, round w c = some (c', next) ∧ Outcome w c e [] c' := by
  have herase := erase_append [] [] (.aborted e) hstack
    fun e' he' => absurd he' List.not_mem_nil
  have hprocess : process w c e = some ({ c with stack := [], log := c.log ++ [⟨e, .aborted e⟩] }, 1) := by
    rw [process, hitem]
    show (abortHashing c e).map _ = _
    rw [abortHashing, hstack, List.head?_cons]
    show (c.erase e.number (.aborted e)).map _ = _
    rw [herase]
    rfl
  obtain ⟨c', next, hround, hstack', hnext', hlog'⟩ := round_of_process hstack hprocess (if_neg fun h => h.2 rfl)
  refine ⟨c', next, hround, .done e.item [] ?_ (.refl _) ?_ hnext' ?_⟩
  · rw [hitem]
    rfl
  · rw [hstack', kept, hitem]
    rfl
  · have hwithdrawn : withdrawn e [] = [] := by rw [withdrawn, hitem]
    have hfate : e.fate = .aborted e := by rw [Entry.fate, hitem]
    rw [hlog', hwithdrawn, hfate, List.append_nil]

end Round

/-! ## The ledger is kept -/

section Ledger

variable [DecidableEq π] {w : World π P} {c c' : Context π P} {e : Entry π P} {rest : List (Entry π P)}

/-- What the handler takes away and what it leaves is what was there. -/
theorem kept_perm (e : Entry π P) (rest : List (Entry π P)) :
    (kept e rest ++ (withdrawn e rest).map Removal.entry).Perm rest := by
  rw [kept, withdrawn]
  split
  next path _ =>
    cases hfound : rest.find? fun e' => e'.item.isReady path with
    | none =>
      rw [eraseP_of_find_none hfound]
      simp
    | some found =>
      obtain ⟨before, after, hrest, herased⟩ := eraseP_of_find hfound
      rw [herased, hrest, List.append_assoc]
      exact List.Perm.append_left before List.perm_append_comm
  next =>
    rw [List.map_map]
    show (rest.getLast?.toList ++ rest.dropLast.map id).Perm rest
    rw [List.map_id]
    refine List.perm_append_comm.trans ?_
    cases hlast : rest.getLast? with
    | none => rw [List.getLast?_eq_none_iff.mp hlast]; rfl
    | some last => exact .of_eq (List.dropLast_append_getLast? last hlast)
  next =>
    rw [List.map_nil, List.append_nil]

theorem withdrawn_justified (hnumbers : e.number ∉ rest.map Entry.number) : ∀ r ∈ withdrawn e rest, r.Justified := by
  intro r hr
  rw [withdrawn] at hr
  split at hr
  next path hitem =>
    obtain ⟨found, hfound, rfl⟩ := List.mem_map.mp hr
    exact ⟨path, hitem, List.find?_some (p := fun e' : Entry π P => e'.item.isReady path) (Option.mem_toList.mp hfound)⟩
  next hitem =>
    obtain ⟨e', he', rfl⟩ := List.mem_map.mp hr
    exact ⟨hitem, fun heq => hnumbers (heq ▸ List.mem_map_of_mem (List.mem_of_mem_dropLast he'))⟩
  next => exact absurd hr List.not_mem_nil

/-- An item takes at most one child away. -/
theorem withdrawn_undoneOnce : (withdrawn e rest).Pairwise fun r r' => ∀ undo undo', r.fate = .undone undo →
    r'.fate = .undone undo' → undo.number ≠ undo'.number := by
  rw [withdrawn]
  split
  next path _ => cases rest.find? fun e' => e'.item.isReady path <;> simp
  next => exact List.pairwise_map.mpr (List.pairwise_of_forall fun _ _ _ _ hfate => absurd hfate (by simp))
  next => exact .nil

theorem withdrawn_undo {r : Removal π P} {undo : Entry π P} (hr : r ∈ withdrawn e rest)
    (hfate : r.fate = .undone undo) : undo = e := by
  rw [withdrawn] at hr
  split at hr
  next =>
    obtain ⟨found, -, rfl⟩ := List.mem_map.mp hr
    cases hfate
    rfl
  next =>
    obtain ⟨e', -, rfl⟩ := List.mem_map.mp hr
    cases hfate
  next => exact absurd hr List.not_mem_nil

namespace Ledger

theorem nodup (hledger : Ledger c) : (c.stack.map Entry.number ++ c.log.map fun r => r.entry.number).Nodup :=
  hledger.once.nodup_iff.mpr List.nodup_range

theorem nodup_stack (hledger : Ledger c) : (c.stack.map Entry.number).Nodup :=
  (List.nodup_append.mp hledger.nodup).1

theorem number_lt (hledger : Ledger c) (he : e ∈ c.stack) : e.number < c.nextNumber :=
  List.mem_range.mp (hledger.once.mem_iff.mp (List.mem_append_left _ (List.mem_map_of_mem he)))

/-- New items, and the others in another order. -/
theorem grow (hledger : Ledger c) (new : List Nat) (hnumbers : new.Perm (List.range' c.nextNumber new.length))
    (hstack : (c'.stack.map Entry.number).Perm (new ++ c.stack.map Entry.number))
    (hnext : c'.nextNumber = c.nextNumber + new.length) (hlog : c'.log = c.log) : Ledger c' := by
  refine ⟨?_, hlog ▸ hledger.justified, hlog ▸ hledger.undoneOnce, hlog ▸ hledger.undoers⟩
  rw [hlog, hnext, List.range_eq_range', ← List.range'_append_1, Nat.zero_add]
  refine (hstack.append_right _).trans ?_
  rw [List.append_assoc]
  refine List.perm_append_comm.trans (List.Perm.append ?_ hnumbers)
  rw [← List.range_eq_range']
  exact hledger.once

/-- The item in front is done with. -/
theorem done (hledger : Ledger c) (hstack : c.stack = e :: rest) {item : Item π P} {new : List (Entry π P)}
    (hnumbers : (new.map Entry.number).Perm (List.range' c.nextNumber new.length))
    (hstack' : c'.stack = new ++ kept e rest) (hnext : c'.nextNumber = c.nextNumber + new.length)
    (hlog : c'.log = c.log ++ withdrawn e rest ++ [⟨{ e with item := item }, e.fate⟩])
    (hfate : Removal.Justified ⟨{ e with item := item }, e.fate⟩) : Ledger c' := by
  have hself : e.number ∉ rest.map Entry.number := by
    have hnodup := hledger.nodup_stack
    rw [hstack] at hnodup
    exact (List.nodup_cons.mp hnodup).1
  have hnotUndone : ∀ undo, e.fate ≠ .undone undo := by
    intro undo hundo
    rw [Entry.fate] at hundo
    split at hundo <;> cases hundo
  have hbefore : ∀ r ∈ c.log, ∀ undo, r.fate = .undone undo → undo.number ≠ e.number := by
    intro r hr undo hundo heq
    have hmem := hledger.undoers r hr undo hundo
    refine (List.nodup_append.mp hledger.nodup).2.2 e.number ?_ undo.number hmem heq.symm
    rw [hstack]
    exact List.mem_cons_self
  refine ⟨List.perm_iff_count.mpr fun a => ?_, ?_, ?_, ?_⟩
  · have honce := List.perm_iff_count.mp hledger.once a
    have hkept := List.perm_iff_count.mp ((kept_perm e rest).map Entry.number) a
    have hnew := List.perm_iff_count.mp hnumbers a
    rw [hstack] at honce
    rw [hstack', hlog, hnext, List.range_eq_range', ← List.range'_append_1, ← List.range_eq_range', Nat.zero_add]
    simp only [List.map_append, List.map_cons, List.map_nil, List.map_map, List.count_append, List.count_cons,
      List.count_nil, Function.comp_def] at honce hkept hnew ⊢
    omega
  · rw [hlog]
    intro r hr
    rcases List.mem_append.mp hr with hr | hr
    · rcases List.mem_append.mp hr with hr | hr
      · exact hledger.justified r hr
      · exact withdrawn_justified hself r hr
    · rw [List.mem_singleton.mp hr]
      exact hfate
  · rw [hlog]
    refine List.pairwise_append.mpr ⟨List.pairwise_append.mpr ⟨hledger.undoneOnce, withdrawn_undoneOnce, ?_⟩,
      List.pairwise_singleton _ _, ?_⟩
    · intro r hr r' hr' undo undo' hundo hundo'
      rw [withdrawn_undo hr' hundo']
      exact hbefore r hr undo hundo
    · intro r _ r' hr' undo undo' _ hundo'
      rw [List.mem_singleton.mp hr'] at hundo'
      exact absurd hundo' (hnotUndone undo')
  · rw [hlog]
    intro r hr undo hundo
    rcases List.mem_append.mp hr with hr | hr
    · rcases List.mem_append.mp hr with hr | hr
      · have hmem := hledger.undoers r hr undo hundo
        rw [List.append_assoc, List.map_append]
        exact List.mem_append_left _ hmem
      · rw [withdrawn_undo hr hundo]
        exact List.mem_map.mpr ⟨_, List.mem_append_right _ (List.mem_singleton.mpr rfl), rfl⟩
    · rw [List.mem_singleton.mp hr] at hundo
      exact absurd hundo (hnotUndone undo)

/-- A round keeps the ledger. -/
theorem outcome (hledger : Ledger c) (hstack : c.stack = e :: rest) (houtcome : Outcome w c e rest c') :
    Ledger c' := by
  cases houtcome with
  | waits item hitem hstack' hnext hlog =>
    refine hledger.grow [] (.refl _) ?_ hnext hlog
    rw [hstack', hstack]
    exact .refl _
  | done item new hitem hnumbers hstack' hnext hlog =>
    refine hledger.done hstack hnumbers hstack' hnext hlog ?_
    cases habort : e.item with
    | abortHashing path =>
      have hfate : e.fate = .aborted e := by rw [Entry.fate, habort]
      rw [habort] at hitem
      rw [hfate]
      refine ⟨⟨path, habort⟩, ?_⟩
      show (⟨e.number, item⟩ : Entry π P) = e
      rw [show item = e.item from hitem.trans habort.symm]
    | _ =>
      have hfate : e.fate = .processed := by rw [Entry.fate, habort]
      rw [hfate]
      trivial

theorem pushFront (hledger : Ledger c) (item : Item π P) : Ledger (c.pushFront item) :=
  hledger.grow [c.nextNumber] (.refl _) (.refl _) rfl rfl

theorem pushAll (hledger : Ledger c) (items : List (Item π P)) : Ledger (items.foldl Context.pushFront c) := by
  induction items generalizing c with
  | nil => exact hledger
  | cons item items ih => exact ih (hledger.pushFront item)

theorem pushTasks (hledger : Ledger c) (n : Nat) : Ledger (c.pushTasks n) :=
  hledger.grow [] (.refl _) (.refl _) rfl rfl

/-- An item that is there comes to the front. -/
theorem moveDone (hledger : Ledger c) {done : Option (Entry π P)} (hdone : ∀ d ∈ done, d ∈ c.stack) :
    Ledger (c.moveDone done) := by
  cases done with
  | none => exact hledger
  | some d =>
    refine hledger.grow [] (.refl _) ?_ rfl rfl
    obtain ⟨e, before, after, -, he, hstack, herased⟩ :=
      List.exists_of_eraseP (p := fun e => e.number = d.number) (hdone d rfl) (by simp)
    show ((d :: c.stack.eraseP fun e => e.number = d.number).map Entry.number).Perm _
    rw [herased, hstack, List.map_cons, ← of_decide_eq_true he, ← List.map_cons]
    exact (List.perm_middle.symm).map _

theorem start (items : List (Item π P)) : Ledger (Context.start items) := by
  refine ⟨?_, fun r hr => absurd hr List.not_mem_nil, .nil, fun r hr => absurd hr List.not_mem_nil⟩
  show ((items.zipIdx.map fun p : Item π P × Nat => (⟨p.2, p.1⟩ : Entry π P)).map Entry.number ++ []).Perm (List.range items.length)
  rw [List.append_nil, List.map_map, List.range_eq_range', ← List.zipIdx_map_snd 0 items]
  exact .refl _

theorem clear (hledger : Ledger c) : Ledger c.clear := by
  have hcleared : ∀ r ∈ c.stack.map fun e => (⟨e, .cleared⟩ : Removal π P), r.fate = .cleared := by
    intro r hr
    obtain ⟨e, -, rfl⟩ := List.mem_map.mp hr
    rfl
  refine ⟨?_, fun r hr => ?_, ?_, fun r hr undo hundo => ?_⟩
  · show ((c.log ++ c.stack.map fun e => (⟨e, .cleared⟩ : Removal π P)).map fun r => r.entry.number).Perm _
    rw [List.map_append, List.map_map]
    exact List.perm_append_comm.trans hledger.once
  · rcases List.mem_append.mp hr with hr | hr
    · exact hledger.justified r hr
    · rw [Removal.Justified, hcleared r hr]
      trivial
  · refine List.pairwise_append.mpr ⟨hledger.undoneOnce, ?_, fun r _ r' hr' undo undo' _ hundo' => ?_⟩
    · refine List.pairwise_of_forall_mem_list fun r hr r' _ undo undo' hundo _ => ?_
      rw [hcleared r hr] at hundo
      cases hundo
    · rw [hcleared r' hr'] at hundo'
      cases hundo'
  · rcases List.mem_append.mp hr with hr | hr
    · show undo.number ∈ (c.log ++ _).map _
      rw [List.map_append]
      exact List.mem_append_left _ (hledger.undoers r hr undo hundo)
    · rw [hcleared r hr] at hundo
      cases hundo

end Ledger

omit [DecidableEq π] in
/-- What a scan has found is pushed in front. -/
theorem foldl_found (w : World π P) (scan : Scan π P) (children : List (Child π)) (c : Context π P) :
    ∃ items : List (Item π P), children.foldl (Context.found w scan) c = items.foldl Context.pushFront c := by
  induction children generalizing c with
  | nil => exact ⟨[], rfl⟩
  | cons child children ih =>
    obtain ⟨items, hitems⟩ := ih (c.found w scan child)
    rw [List.foldl_cons, hitems, Context.found]
    split
    · exact ⟨items, rfl⟩
    split
    · exact ⟨.incomplete child.info :: items, rfl⟩
    · exact ⟨.unexamined child.info scan.recurse :: items, rfl⟩

theorem scanned_ledger (hledger : Ledger c) (w : World π P) (scan : Scan π P) : Ledger (c.scanned w scan) := by
  rw [Context.scanned]
  split
  · exact hledger.pushFront _
  have hopened : Ledger (if scan.isRoot && scan.suspended then c.pushFront .unsuspendScan else c) := by
    split
    · exact hledger.pushFront _
    · exact hledger
  generalize (if scan.isRoot && scan.suspended then c.pushFront .unsuspendScan else c) = c at hopened
  split
  · split
    · exact hopened.pushTasks 1
    · exact hopened.pushFront _
  · obtain ⟨items, hitems⟩ := foldl_found w scan scan.children c
    show Ledger (((missingItems w scan).foldl Context.pushFront
      (scan.children.foldl (Context.found w scan) c)).moveDone _)
    rw [hitems, ← List.foldl_append]
    refine (hopened.pushAll _).moveDone fun d hd => ?_
    obtain ⟨new, hnew, -⟩ := foldl_pushFront (items ++ missingItems w scan) c
    rw [hnew]
    exact List.mem_append_right _ (List.mem_of_mem_head? (Option.mem_filter_iff.mp hd).1)

/-! ## Runs -/

/-- Every item that is not an abort of a hashing, and an abort that is alone, is processed. -/
theorem round_spec (hledger : Ledger c) (hready : Ready c (.round w)) (hstack : c.stack = e :: rest) :
    ∃ c' next, round w c = some (c', next) ∧ Outcome w c e rest c' := by
  cases hitem : e.item with
  | undoChildReady path => exact round_of_undo hstack hledger.nodup_stack hitem
  | suspendScan => exact round_of_suspend hstack hledger.nodup_stack hitem
  | abortHashing path =>
    rcases hready with hlength | hhead
    · have hrest : rest = [] := by
        rw [hstack] at hlength
        exact List.length_eq_zero_iff.mp (by simpa using hlength)
      subst hrest
      exact round_of_abort hstack hitem
    · exact absurd (hhead e (by rw [hstack]; rfl)) (by simp [hitem, Item.isAbort])
  | _ =>
    obtain ⟨effect, hprocess, hsound⟩ := process_plain (e := e) w c (by simp [hitem]) (by simp [hitem])
      (by simp [hitem])
    exact round_of_effect hstack (hledger.number_lt (by rw [hstack]; exact List.mem_cons_self)) hprocess hsound
      (by rw [kept, hitem]) (by rw [withdrawn, hitem]) (by rw [Entry.fate, hitem])

theorem step_ledger (hledger : Ledger c) (ev : Event π P) (hready : Ready c ev) :
    ∃ c', step c ev = some c' ∧ Ledger c' := by
  cases ev with
  | round w =>
    cases hstack : c.stack with
    | nil => exact ⟨c, by rw [ScanStack.step, ScanStack.round, hstack]; rfl, hledger⟩
    | cons e rest =>
      obtain ⟨c', next, hround, houtcome⟩ := round_spec hledger hready hstack
      exact ⟨c', by rw [ScanStack.step, hround]; rfl, hledger.outcome hstack houtcome⟩
  | scanned w scan => exact ⟨_, rfl, scanned_ledger hledger w scan⟩
  | hashed info outcome => cases outcome <;> exact ⟨_, rfl, hledger.pushFront _⟩
  | tasks n => exact ⟨_, rfl, hledger.pushTasks n⟩
  | popTask => exact ⟨_, rfl, hledger.grow [] (.refl _) (.refl _) rfl rfl⟩
  | clear => exact ⟨_, rfl, hledger.clear⟩

/-- `process_stack` is so many rounds. -/
theorem processStack_eq (ws : List (World π P)) (c : Context π P) :
    ∃ ws', ws' <+: ws ∧ processStack ws c = Run.exec step c (ws'.map .round) := by
  induction ws generalizing c with
  | nil => exact ⟨[], List.prefix_rfl, rfl⟩
  | cons w ws ih =>
    cases hround : round w c with
    | none => exact ⟨[w], ⟨ws, rfl⟩, by simp [processStack, Run.exec, ScanStack.step, hround]⟩
    | some next =>
      obtain ⟨c', next⟩ := next
      cases next with
      | false => exact ⟨[w], ⟨ws, rfl⟩, by simp [processStack, Run.exec, ScanStack.step, hround]⟩
      | true =>
        obtain ⟨ws', hprefix, heq⟩ := ih c'
        refine ⟨w :: ws', List.cons_prefix_cons.mpr ⟨rfl, hprefix⟩, ?_⟩
        simp [processStack, Run.exec, ScanStack.step, hround, heq]

/-- **The work stack**: in a run that aborts a hashing only when nothing else is on the stack, each item is
processed to the end and leaves the stack once, whatever the stack was at first. -/
theorem disciplined_of_run (items : List (Item π P)) (evs : List (Event π P))
    (hrun : Run.Meets step Ready (Context.start items) evs) :
    ∃ c, Run.exec step (Context.start items) evs = some c ∧ Ledger c ∧
      (∀ w e rest, Ready c (.round w) → c.stack = e :: rest →
        ∃ c' next, round w c = some (c', next) ∧ Outcome w c e rest c') ∧
      ∀ ws, Run.Meets step Ready c (ws.map .round) → ∃ c', processStack ws c = some c' ∧ Ledger c' := by
  have hstep : ∀ (c : Context π P) ev, Ledger c → Ready c ev → ∃ c', step c ev = some c' ∧ Ledger c' :=
    fun c ev hledger hready => step_ledger hledger ev hready
  obtain ⟨c, hexec, hledger⟩ := Run.exec_total hstep (Ledger.start items) hrun
  refine ⟨c, hexec, hledger, fun w e rest hready hstack => round_spec hledger hready hstack, fun ws hws => ?_⟩
  obtain ⟨ws', ⟨ws'', rfl⟩, heq⟩ := processStack_eq ws c
  rw [List.map_append] at hws
  rw [heq]
  exact Run.exec_total hstep hledger hws.left

end Ledger

instance (c : Context π P) : ∀ ev : Event π P, Decidable (Ready c ev)
  | .round _ => inferInstanceAs (Decidable (_ ∨ _))
  | .scanned _ _ => inferInstanceAs (Decidable True)
  | .hashed _ _ => inferInstanceAs (Decidable True)
  | .tasks _ => inferInstanceAs (Decidable True)
  | .popTask => inferInstanceAs (Decidable True)
  | .clear => inferInstanceAs (Decidable True)

/-! ## Two scans -/

/-- Nothing is known of the files, and no other task is under way. -/
def quiet : World ℕ Unit :=
  { file := none, folderPath := 0, isTemporal := fun _ => false, recent := false, scheduled := false,
    scannedSince := false, idle := true, overused := false, errored := false, hashesPool := 4, totalBlocks := 2,
    leftover := .ignored, follow := false, features := fun _ => ⟨true, false, false⟩, children := fun _ => [] }

def aFile : ChildInfo ℕ := ⟨1, .file, 7⟩

def aScan (failed retried : Bool) : Scan ℕ Unit :=
  ⟨0, !retried, false, failed, retried, true, [⟨aFile, true, false⟩], []⟩

/-- A folder with a file is scanned, and what is found is hashed. Then the folder is gone. -/
def aRun : List (Event ℕ Unit) :=
  [.round quiet, .scanned quiet (aScan false false), .popTask, .round quiet, .round quiet, .popTask,
    .hashed aFile .childReady, .scanned quiet (aScan true false), .round quiet, .round quiet]

theorem disciplined_of_a_run : ∃ c, Run.exec step (Context.start [.unscannedDir 0, .completeScan]) aRun = some c ∧
    Ledger c ∧ (∀ w e rest, Ready c (.round w) → c.stack = e :: rest →
      ∃ c' next, round w c = some (c', next) ∧ Outcome w c e rest c') ∧
    ∀ ws, Run.Meets step Ready c (ws.map .round) → ∃ c', processStack ws c = some c' ∧ Ledger c' :=
  disciplined_of_run _ aRun (by decide)

/-- A hashing is aborted before the end of the scan: its item is erased twice. -/
theorem abort_erased_twice :
    Run.exec step (Context.start [.completeScan]) [.hashed aFile .abortHashing, .round quiet] = none ∧
      processStack [quiet] ((Context.start [.completeScan]).hashed aFile .abortHashing) = none := by
  decide

end ScanStack

end SyncSpirit
