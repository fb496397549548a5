import SyncSpirit.UpdatesMediator

/-!
# The mediator keeps the ledger

`Holds` says what one window counts, by path. Each operation on a window keeps it, for the counts
that the operation is meant to leave, and `Sound` says it of both windows and the ledger. A sound
mediator masks a path exactly as often as the ledger has credits of it (`reports_eq`).
-/

namespace SyncSpirit

namespace Mediator

namespace Updates

/-- The counter of the path. -/
def count (w : Updates) (path : String) : Nat := ((w.updates.lookup path).getD 0).toNat

theorem ofNat_succ_ne_zero {n : Nat} (hn : n + 1 < 2 ^ 32) : UInt32.ofNat (n + 1) ≠ 0 := by
  intro h0
  have := congrArg UInt32.toNat h0
  rw [UInt32.toNat_ofNat', Nat.mod_eq_of_lt hn] at this
  exact Nat.succ_ne_zero n this

/-- The window counts `f`, without a wrap, and is not used before it has a deadline. -/
structure Holds (w : Updates) (f : String → Nat) (d : Timepoint) : Prop where
  deadline : w.deadline = d
  lookup : ∀ p, w.updates.lookup p = if f p = 0 then none else some (UInt32.ofNat (f p))
  small : ∀ p, f p < 2 ^ 32
  isOpen : ∀ p, f p ≠ 0 → d ≠ none

variable {w : Updates} {f g : String → Nat} {d : Timepoint} {path : String} {n : Nat}

theorem Holds.congr (h : w.Holds f d) (hfg : ∀ p, f p = g p) : w.Holds g d := by
  rwa [show g = f from funext fun p => (hfg p).symm]

theorem holds_empty (hf : ∀ p, f p = 0) : Updates.empty.Holds f none where
  deadline := rfl
  lookup p := by rw [if_pos (hf p)]; rfl
  small p := by rw [hf p]; decide
  isOpen p hp := absurd (hf p) hp

/-- The record of the path is another one, and nothing else changes. -/
theorem Holds.set (h : w.Holds f d) {updates : AList fun _ : String => UInt32}
    (hself : updates.lookup path = if n = 0 then none else some (UInt32.ofNat n))
    (hother : ∀ p, p ≠ path → updates.lookup p = w.updates.lookup p)
    (hn : n < 2 ^ 32) (hd : n ≠ 0 → d ≠ none) :
    Holds { w with updates := updates } (Function.update f path n) d where
  deadline := h.deadline
  lookup p := by
    by_cases hp : p = path
    · subst hp
      rw [Function.update_self]
      exact hself
    · rw [Function.update_of_ne hp]
      exact (hother p hp).trans (h.lookup p)
  small p := by
    by_cases hp : p = path
    · subst hp
      rwa [Function.update_self]
    · rw [Function.update_of_ne hp]
      exact h.small p
  isOpen p := by
    by_cases hp : p = path
    · subst hp
      rwa [Function.update_self]
    · rw [Function.update_of_ne hp]
      exact h.isOpen p

theorem Holds.getD (h : w.Holds f d) (p : String) : (w.updates.lookup p).getD 0 = UInt32.ofNat (f p) := by
  rw [h.lookup p]
  by_cases hp : f p = 0
  · rw [if_pos hp, hp]
    rfl
  · rw [if_neg hp]
    rfl

theorem Holds.count_eq (h : w.Holds f d) (p : String) : w.count p = f p := by
  rw [count, h.getD p, UInt32.toNat_ofNat', Nat.mod_eq_of_lt (h.small p)]

theorem Holds.insert (h : w.Holds f d) (hd : d ≠ none) (hn : 0 < n) (hsmall : f path + n < 2 ^ 32) :
    (w.insert path (UInt32.ofNat n)).Holds (Function.update f path (f path + n)) d := by
  refine h.set ?_ (fun p hp => AList.lookup_insert_ne hp) hsmall fun _ => hd
  rw [AList.lookup_insert, h.getD, if_neg (by omega), UInt32.ofNat_add]

theorem Holds.erase (h : w.Holds f d) : (w.erase path).Holds (Function.update f path 0) d :=
  h.set (by rw [AList.lookup_erase, if_pos rfl]) (fun p hp => AList.lookup_erase_ne hp) (by decide)
    fun h0 => absurd rfl h0

theorem Holds.take_none (h : w.Holds f d) (hp : f path = 0) : w.take path = none := by
  unfold take
  split
  · rfl
  · rw [h.lookup, if_pos hp]
    rfl

theorem Holds.take_some (h : w.Holds f d) (hp : f path = n + 1) :
    ∃ events w', w.take path = some (events, w') ∧ events ≠ 0 ∧ w'.Holds (Function.update f path n) d := by
  have hopen : w.deadline ≠ none := h.deadline ▸ h.isOpen path (by omega)
  have hsmall := h.small path
  have hless : UInt32.ofNat (n + 1) - 1 = UInt32.ofNat n := by
    rw [UInt32.ofNat_add]
    exact add_sub_cancel_right _ _
  unfold take
  rw [if_neg hopen, h.lookup, if_neg (by omega), hp, Option.map_some, hless]
  refine ⟨_, _, rfl, ofNat_succ_ne_zero (by omega), ?_⟩
  cases n with
  | zero => exact h.erase
  | succ n =>
    rw [if_neg (ofNat_succ_ne_zero (by omega))]
    exact h.set (by rw [AList.lookup_insert, if_neg (Nat.succ_ne_zero n)])
      (fun p hp' => AList.lookup_insert_ne hp') (by omega) fun _ => h.isOpen path (by omega)

/-- What `insert` adds for both paths. -/
def added (path prevPath : String) (n : Nat) (p : String) : Nat :=
  (if p = path then n else 0) + if named prevPath ∧ p = prevPath then n else 0

theorem Holds.insertBoth (h : w.Holds f d) {prevPath : String} (hd : d ≠ none) (hn : 0 < n)
    (hsmall : f path + n < 2 ^ 32)
    (hprev : named prevPath = true → prevPath ≠ path ∧ f prevPath + n < 2 ^ 32) :
    (w.insertBoth path prevPath (UInt32.ofNat n)).Holds (fun p => f p + added path prevPath n p) d := by
  unfold Updates.insertBoth
  by_cases hnamed : named prevPath = true
  · obtain ⟨hne, hsmall'⟩ := hprev hnamed
    have hval : Function.update f path (f path + n) prevPath = f prevPath := Function.update_of_ne hne _ _
    rw [if_pos hnamed]
    have hboth : ((w.insert path (UInt32.ofNat n)).insert prevPath (UInt32.ofNat n)).Holds
        (Function.update (Function.update f path (f path + n)) prevPath (_ + n)) d :=
      (h.insert hd hn hsmall).insert hd hn (by rwa [hval])
    refine hboth.congr fun p => ?_
    rw [hval, added, Function.update_apply, Function.update_apply]
    by_cases hp : p = prevPath
    · subst hp
      simp [hnamed, hne]
    · by_cases hp' : p = path
      · subst hp'
        simp [hp]
      · simp [hp, hp']
  · rw [if_neg hnamed]
    refine (h.insert hd hn hsmall).congr fun p => ?_
    rw [added, Function.update_apply]
    by_cases hp : p = path
    · subst hp
      simp [hnamed]
    · simp [hnamed, hp]

/-- A window with records has a deadline. -/
theorem Holds.deadline_ne_none (h : w.Holds f d) (hrec : w.updates.entries.isEmpty = false) : d ≠ none := by
  cases hent : w.updates.entries with
  | nil =>
    rw [hent] at hrec
    cases hrec
  | cons e es =>
    have hmem : e ∈ w.updates.entries := by
      rw [hent]
      exact List.mem_cons_self ..
    have hfind : w.updates.lookup e.1 = some e.2 := AList.mem_lookup_iff.mpr hmem
    refine h.isOpen e.1 fun h0 => ?_
    rw [h.lookup, if_pos h0] at hfind
    cases hfind

end Updates

/-! ## The ledger -/

namespace Ledger

variable {l : Ledger} {path prevPath : String}

theorem credit_eq (l : Ledger) (p : String) : l.credit p = l.counter false p + l.counter true p := by
  unfold credit counter
  induction l.credits with
  | nil => rfl
  | cons c cs ih =>
    obtain ⟨q, late⟩ := c
    rw [List.countP_cons, List.count_cons, List.count_cons, ih]
    by_cases hq : q = p
    · cases late <;> simp [hq] <;> omega
    · simp [hq]

theorem count_names (h : isTemporal path = false) (hne : named prevPath = true → prevPath ≠ path) (p : String) :
    (names path prevPath).count p = Updates.added path prevPath 1 p := by
  unfold names Updates.added
  rw [h]
  by_cases hnamed : named prevPath = true
  · have hne := hne hnamed
    by_cases hp : p = path
    · subst hp
      simp [hnamed, hne, hne.symm]
    · by_cases hp' : p = prevPath
      · subst hp'
        simp [hnamed, hp, Ne.symm hp]
      · simp [hnamed, hne, hp, hp', Ne.symm hp, Ne.symm hp']
  · by_cases hp : p = path
    · subst hp
      simp [hnamed]
    · simp [hnamed, hp, Ne.symm hp]

/-- What the call adds is in its own window. -/
theorem count_given (qs : List String) (p : String) (b b' : Bool) :
    (qs.map fun q => (⟨q, b⟩ : Credit)).count ⟨p, b'⟩ = if b = b' then qs.count p else 0 := by
  by_cases hb : b = b'
  · subst hb
    rw [if_pos rfl]
    refine List.count_map_of_injective qs (fun q => (⟨q, b⟩ : Credit)) ?_ p
    intro q q' h
    exact congrArg Credit.path h
  · rw [if_neg hb, List.count_eq_zero]
    intro hmem
    obtain ⟨q, -, hq⟩ := List.mem_map.mp hmem
    exact hb (congrArg Credit.late hq)

/-- The path has nothing left in the window, and no credit is lost. -/
theorem count_postpone (cs : List Credit) (p : String) :
    (cs.map (postpone path)).count ⟨p, false⟩ = (if p = path then 0 else cs.count ⟨p, false⟩) ∧
      (cs.map (postpone path)).count ⟨p, true⟩ =
        cs.count ⟨p, true⟩ + if p = path then cs.count ⟨p, false⟩ else 0 := by
  induction cs with
  | nil => simp
  | cons c cs ih =>
    obtain ⟨q, late⟩ := c
    simp only [List.map_cons, List.count_cons, ih.1, ih.2, postpone]
    by_cases hq : q = path
    · by_cases hp : p = path
      · cases late <;> simp [hq, hp] <;> omega
      · cases late <;> simp [hq, hp, Ne.symm hp]
    · by_cases hp : p = path
      · have hne : q ≠ p := hp ▸ hq
        cases late <;> simp [hq, hp]
      · simp [hq, hp]

/-- A call for the current window. -/
theorem counter_mask_next {d : Timepoint} (htmp : isTemporal path = false)
    (hnext : ¬(l.deadline ≠ d ∧ l.deadline ≠ none)) (hne : named prevPath = true → prevPath ≠ path) (p : String) :
    (l.mask path prevPath d).counter false p = l.counter false p + Updates.added path prevPath 1 p ∧
      (l.mask path prevPath d).counter true p = l.counter true p := by
  rw [mask, if_neg (by simp [htmp]), if_neg hnext]
  simp only [counter, List.count_append, count_given, count_names htmp hne]
  simp

/-- A call with a later deadline: what the path has moves with it. -/
theorem counter_mask_late {d : Timepoint} (htmp : isTemporal path = false)
    (hlate : l.deadline ≠ d ∧ l.deadline ≠ none) (hne : named prevPath = true → prevPath ≠ path) (p : String) :
    (l.mask path prevPath d).counter false p = Function.update (l.counter false) path 0 p ∧
      (l.mask path prevPath d).counter true p =
        l.counter true p + (if p = path then l.counter false p else 0) + Updates.added path prevPath 1 p := by
  rw [mask, if_neg (by simp [htmp]), if_pos hlate, Function.update_apply]
  simp only [counter, List.count_append, count_given, count_names htmp hne, (count_postpone l.credits p).1,
    (count_postpone l.credits p).2]
  simp

theorem counter_expire (l : Ledger) (p : String) :
    l.expire.counter false p = l.counter true p ∧ l.expire.counter true p = 0 := by
  unfold expire counter
  show ((l.credits.filter _).map _).count _ = _ ∧ ((l.credits.filter _).map _).count _ = _
  induction l.credits with
  | nil => simp
  | cons c cs ih =>
    obtain ⟨q, late⟩ := c
    cases late with
    | false => simpa [List.count_cons] using ih
    | true =>
      rw [List.filter_cons_of_pos rfl, List.map_cons]
      simp only [List.count_cons, ih.1, ih.2]
      by_cases hq : q = p <;> simp [hq]

/-- A late credit is taken first. -/
theorem consume_late (h : l.counter true path ≠ 0) (p : String) :
    (l.consume path).counter true p = Function.update (l.counter true) path (l.counter true path - 1) p ∧
      (l.consume path).counter false p = l.counter false p := by
  have hmem : ⟨path, true⟩ ∈ l.credits := by
    by_contra hno
    exact h (List.count_eq_zero.mpr hno)
  unfold consume
  rw [if_pos hmem]
  simp only [counter, List.count_erase]
  by_cases hp : p = path
  · simp [hp]
  · simp [hp, Ne.symm hp, counter]

theorem consume_next (h : l.counter true path = 0) (p : String) :
    (l.consume path).counter true p = l.counter true p ∧
      (l.consume path).counter false p = Function.update (l.counter false) path (l.counter false path - 1) p := by
  have hmem : ⟨path, true⟩ ∉ l.credits := List.count_eq_zero.mp h
  unfold consume
  rw [if_neg hmem]
  simp only [counter, List.count_erase]
  by_cases hp : p = path
  · simp [hp]
  · simp [hp, Ne.symm hp, counter]

end Ledger

/-! ## Both together -/

/-- The windows count what the ledger has. -/
structure Sound (s : System) : Prop where
  enabled : s.mediator.enabled = true
  interval : s.mediator.interval = s.ledger.interval
  next : s.mediator.next.Holds (s.ledger.counter false) s.ledger.deadline
  postponed : s.mediator.postponed.Holds (s.ledger.counter true) s.ledger.following
  following : s.ledger.following = none ∨
    s.ledger.following = s.ledger.deadline.map (· + s.ledger.interval)

theorem sound_create (interval : Int) : Sound (.create interval) where
  enabled := rfl
  interval := rfl
  next := Updates.holds_empty fun _ => rfl
  postponed := Updates.holds_empty fun _ => rfl
  following := Or.inl rfl

/-- The window that the call's credits go to. -/
def UpdatesMediator.target (m : UpdatesMediator) (deadline : Timepoint) : Updates :=
  if m.late deadline then m.postponed else m.next

/-- The condition for `mask`: each path that the call names gets one credit that counts. The window
has a deadline then, no counter wraps, and a previous path is another one and does not come
with a record that moves. -/
def Single (m : UpdatesMediator) : Call → Prop
  | .mask path prevPath deadline =>
    isTemporal path = false →
      (m.next.deadline = none → deadline ≠ none) ∧
      (m.target deadline).count path + (if m.late deadline then m.next.count path else 0) + 1 < 2 ^ 32 ∧
      (named prevPath = true → prevPath ≠ path ∧ (m.late deadline = true → m.next.count path = 0) ∧
        (m.target deadline).count prevPath + 1 < 2 ^ 32)
  | .isMasked _ => True
  | .cleanExpired => True

instance (m : UpdatesMediator) (c : Call) : Decidable (Single m c) := by
  cases c <;> unfold Single <;> infer_instance

variable {s s' : System} {path prevPath : String} {deadline : Timepoint}

theorem UpdatesMediator.mask_next {m : UpdatesMediator} (hon : m.enabled = true) (htmp : isTemporal path = false)
    (hlate : m.late deadline = false) :
    m.mask path prevPath deadline =
      { m with next := { m.next with deadline := deadline }.insertBoth path prevPath 1 } := by
  simp [mask, hon, htmp, hlate]

theorem UpdatesMediator.mask_late {m : UpdatesMediator} (hon : m.enabled = true) (htmp : isTemporal path = false)
    (hlate : m.late deadline = true) : m.mask path prevPath deadline = m.postpone path prevPath := by
  simp [mask, hon, htmp, hlate]

/-- Both agree on the window of a call. -/
theorem Sound.late_iff (h : Sound s) :
    s.mediator.late deadline = true ↔ s.ledger.deadline ≠ deadline ∧ s.ledger.deadline ≠ none := by
  rw [UpdatesMediator.late, h.next.deadline]
  simp

/-- A call for the current window. -/
theorem Sound.mask_next (h : Sound s) (htmp : isTemporal path = false) (hlate : s.mediator.late deadline = false)
    (hcond : Single s.mediator (.mask path prevPath deadline)) :
    Sound ⟨s.mediator.mask path prevPath deadline, s.ledger.mask path prevPath deadline⟩ := by
  obtain ⟨hdate, hsmall, hprev⟩ := hcond htmp
  simp only [UpdatesMediator.target, hlate, Bool.false_eq_true, if_false, h.next.count_eq, false_imp_iff,
    true_and, Nat.add_zero] at hsmall hprev
  have hlate' : ¬(s.ledger.deadline ≠ deadline ∧ s.ledger.deadline ≠ none) := by
    rw [← h.late_iff, hlate]
    exact Bool.false_ne_true
  have hsame : s.ledger.deadline = none ∨ s.ledger.deadline = deadline := by tauto
  have hd : deadline ≠ none := by
    rcases hsame with hnone | rfl
    · exact hdate (h.next.deadline.trans hnone)
    · intro hnone
      exact hdate (h.next.deadline.trans hnone) hnone
  have hnext : ({ s.mediator.next with deadline := deadline } : Updates).Holds (s.ledger.counter false) deadline :=
    ⟨rfl, h.next.lookup, h.next.small, fun _ _ => hd⟩
  have hcounter := Ledger.counter_mask_next htmp hlate' fun hn => (hprev hn).1
  have hledger : s.ledger.mask path prevPath deadline =
      { s.ledger with deadline := deadline, credits := s.ledger.credits ++ (names path prevPath).map (⟨·, false⟩) } := by
    rw [Ledger.mask, if_neg (by simp [htmp]), if_neg hlate']
  rw [hledger] at hcounter
  rw [UpdatesMediator.mask_next h.enabled htmp hlate, hledger]
  refine ⟨h.enabled, h.interval, ?_, ?_, ?_⟩
  · exact (hnext.insertBoth hd one_pos hsmall hprev).congr fun p => (hcounter p).1.symm
  · exact h.postponed.congr fun p => (hcounter p).2.symm
  · rcases hsame with hnone | rfl
    · -- there was no current window, so nothing is after it
      have hfollowing := h.following
      rw [hnone, Option.map_none, or_self] at hfollowing
      exact Or.inl hfollowing
    · exact h.following

/-- A call with a later deadline. What the path has moves with it, and that is all that moves. -/
theorem Sound.mask_late (h : Sound s) (htmp : isTemporal path = false) (hlate : s.mediator.late deadline = true)
    (hcond : Single s.mediator (.mask path prevPath deadline)) :
    Sound ⟨s.mediator.mask path prevPath deadline, s.ledger.mask path prevPath deadline⟩ := by
  obtain ⟨-, hsmall, hprev⟩ := hcond htmp
  simp only [UpdatesMediator.target, hlate, if_true, h.next.count_eq, h.postponed.count_eq,
    true_imp_iff] at hsmall hprev
  have hlate' := h.late_iff.mp hlate
  obtain ⟨d, hd⟩ := Option.ne_none_iff_exists'.mp hlate'.2
  -- the window gets a deadline with its first record, which is the one it would have anyway
  have hopen : (if s.mediator.postponed.updates.entries.isEmpty
      then { s.mediator.postponed with deadline := s.mediator.next.deadline.map (· + s.mediator.interval) }
      else s.mediator.postponed : Updates).Holds (s.ledger.counter true)
        (s.ledger.deadline.map (· + s.ledger.interval)) := by
    split
    · refine ⟨?_, h.postponed.lookup, h.postponed.small, fun _ _ => ?_⟩
      · rw [h.next.deadline, h.interval]
      · rw [hd]
        exact Option.some_ne_none _
    · next hrec =>
      have hset := h.postponed.deadline_ne_none (Bool.eq_false_iff.mpr hrec)
      rw [← h.following.resolve_left hset]
      exact h.postponed
  have hset : s.ledger.deadline.map (· + s.ledger.interval) ≠ none := by
    rw [hd]
    exact Option.some_ne_none _
  have hcounter : 1 + (s.mediator.next.updates.lookup path).getD 0 =
      UInt32.ofNat (s.ledger.counter false path + 1) := by
    rw [h.next.getD, UInt32.ofNat_add, add_comm]
    rfl
  have hmoved := Ledger.counter_mask_late htmp hlate' fun hn => (hprev hn).1
  have hledger : s.ledger.mask path prevPath deadline =
      { s.ledger with
        following := s.ledger.deadline.map (· + s.ledger.interval)
        credits := s.ledger.credits.map (Ledger.postpone path) ++ (names path prevPath).map (⟨·, true⟩) } := by
    rw [Ledger.mask, if_neg (by simp [htmp]), if_pos hlate']
  rw [hledger] at hmoved
  rw [UpdatesMediator.mask_late h.enabled htmp hlate, hledger]
  refine ⟨h.enabled, h.interval, ?_, ?_, Or.inr rfl⟩
  · exact h.next.erase.congr fun p => (hmoved p).1.symm
  · show (Updates.insertBoth _ path prevPath _).Holds _ _
    rw [hcounter]
    refine (hopen.insertBoth hset (Nat.succ_pos _) (by omega) fun hn => ?_).congr fun p => ?_
    · obtain ⟨hne, hnone, hfits⟩ := hprev hn
      rw [hnone]
      exact ⟨hne, hfits⟩
    · rw [(hmoved p).2, Updates.added, Updates.added]
      by_cases hn : named prevPath = true
      · have hnone := (hprev hn).2.1
        by_cases hp : p = path
        · subst hp
          simp [hnone]
        · simp [hnone, hp]
      · by_cases hp : p = path
        · subst hp
          simp [hn]
          omega
        · simp [hn, hp]

theorem Sound.cleanExpired (h : Sound s) : Sound ⟨s.mediator.cleanExpired.2, s.ledger.expire⟩ where
  enabled := h.enabled
  interval := h.interval
  next := h.postponed.congr fun p => (Ledger.counter_expire s.ledger p).1.symm
  postponed := Updates.holds_empty fun p => (Ledger.counter_expire s.ledger p).2
  following := Or.inl rfl

/-- The path is masked if the ledger has a credit of it, and one is taken. -/
theorem Sound.isMasked (h : Sound s) (path : String) :
    ((s.mediator.isMasked path).1 ≠ 0 ↔ s.ledger.credit path ≠ 0) ∧
      Sound ⟨(s.mediator.isMasked path).2, s.ledger.consume path⟩ := by
  have hwindows : (s.ledger.consume path).deadline = s.ledger.deadline ∧
      (s.ledger.consume path).following = s.ledger.following ∧
      (s.ledger.consume path).interval = s.ledger.interval := by
    unfold Ledger.consume
    split <;> exact ⟨rfl, rfl, rfl⟩
  obtain ⟨hdeadline, hfollowing, hinterval⟩ := hwindows
  rw [Ledger.credit_eq, UpdatesMediator.isMasked]
  cases hlate : s.ledger.counter true path with
  | zero =>
    have hconsume := Ledger.consume_next hlate
    have hpostponed : s.mediator.postponed.Holds ((s.ledger.consume path).counter true)
        (s.ledger.consume path).following := by
      rw [hfollowing]
      exact h.postponed.congr fun p => (hconsume p).1.symm
    rw [h.postponed.take_none hlate]
    cases hnext : s.ledger.counter false path with
    | zero =>
      rw [h.next.take_none hnext]
      refine ⟨by simp, h.enabled, h.interval.trans hinterval.symm, ?_, hpostponed, ?_⟩
      · rw [hdeadline]
        refine h.next.congr fun p => ?_
        rw [(hconsume p).2, hnext, ← hnext, Function.update_apply]
        split
        · next hp => rw [hp, hnext]
        · rfl
      · rw [hfollowing, hdeadline, hinterval]
        exact h.following
    | succ n =>
      obtain ⟨events, w, htake, hevents, hw⟩ := h.next.take_some hnext
      rw [htake]
      refine ⟨by simp [hevents], h.enabled, h.interval.trans hinterval.symm, ?_, hpostponed, ?_⟩
      · rw [hdeadline]
        refine hw.congr fun p => ?_
        rw [(hconsume p).2, hnext]
        rfl
      · rw [hfollowing, hdeadline, hinterval]
        exact h.following
  | succ n =>
    have hconsume := @Ledger.consume_late s.ledger path (by omega)
    obtain ⟨events, w, htake, hevents, hw⟩ := h.postponed.take_some hlate
    rw [htake]
    refine ⟨by simp [hevents], h.enabled, h.interval.trans hinterval.symm, ?_, ?_, ?_⟩
    · rw [hdeadline]
      exact h.next.congr fun p => (hconsume p).2.symm
    · rw [hfollowing]
      refine hw.congr fun p => ?_
      rw [(hconsume p).1, hlate]
      rfl
    · rw [hfollowing, hdeadline, hinterval]
      exact h.following

theorem Sound.step {c : Call} (h : Sound s) (hcond : Single s.mediator c) (hstep : s.step c = some s') : Sound s' := by
  cases hstep' : c with
  | mask path prevPath deadline =>
    subst hstep'
    cases hstep
    by_cases htmp : isTemporal path = true
    · rwa [UpdatesMediator.mask, if_neg (by simp [h.enabled]), if_pos htmp, Ledger.mask, if_pos htmp]
    · rw [Bool.not_eq_true] at htmp
      cases hlate : s.mediator.late deadline with
      | false => exact h.mask_next htmp hlate hcond
      | true => exact h.mask_late htmp hlate hcond
  | isMasked path =>
    subst hstep'
    cases hstep
    exact (h.isMasked path).2
  | cleanExpired =>
    subst hstep'
    cases hstep
    exact h.cleanExpired

/-- One credit less, if there is one. -/
theorem Ledger.credit_consume (l : Ledger) (path : String) : (l.consume path).credit path = l.credit path - 1 := by
  rw [credit_eq, credit_eq]
  cases hlate : l.counter true path with
  | zero =>
    rw [(consume_next hlate path).1, (consume_next hlate path).2, Function.update_self, hlate]
    rfl
  | succ n =>
    have hne : l.counter true path ≠ 0 := by omega
    rw [(consume_late hne path).1, (consume_late hne path).2, Function.update_self, hlate]
    rfl

/-- A path is masked once for each of its credits. -/
theorem Sound.reports_eq (h : Sound s) (path : String) (n : Nat) :
    s.mediator.reports path n = min n (s.ledger.credit path) := by
  induction n generalizing s with
  | zero => rw [Nat.zero_min, UpdatesMediator.reports]
  | succ n ih =>
    obtain ⟨hmasked, hnext⟩ := h.isMasked path
    rw [UpdatesMediator.reports, ih hnext, Ledger.credit_consume]
    by_cases hcredit : s.ledger.credit path = 0
    · rw [if_neg fun hm => hmasked.mp hm hcredit]
      omega
    · rw [if_pos (hmasked.mpr hcredit)]
      omega

/-- **Masked once for each call**: in a run of calls that each give one credit to a path they name,
a path is masked as often as unexpired calls have named it, less what has been consumed. -/
theorem reports_of_run {interval : Int} {calls : List Call} {s : System}
    (hcalls : Run.Meets System.step (fun s => Single s.mediator) (.create interval) calls)
    (hrun : Run.exec System.step (.create interval) calls = some s) (path : String) (n : Nat) :
    s.mediator.reports path n = min n (s.ledger.credit path) := by
  have hsound : Sound s :=
    Run.exec_inv (fun _ _ _ hs hc ht => Sound.step hs hc ht) (sound_create interval) hcalls hrun
  exact hsound.reports_eq path n

/-- A file is written, renamed in the same window, and changed again after the deadline. -/
theorem reports_of_run_moved :
    ∃ s, Run.exec System.step (.create 10)
        [.mask "a" "" (some 5), .mask "b" "c" (some 5), .mask "a" "" (some 15), .isMasked "a"] = some s ∧
      s.mediator.reports "a" 9 = 1 ∧ s.mediator.reports "c" 9 = 1 := by
  have hreports := fun path => @reports_of_run 10
    [.mask "a" "" (some 5), .mask "b" "c" (some 5), .mask "a" "" (some 15), .isMasked "a"] _ (by decide) rfl path 9
  exact ⟨_, rfl, (hreports "a").trans (by decide), (hreports "c").trans (by decide)⟩

/-- A file is written and then, for a later deadline, renamed over: the path it is renamed from gets
the credit of the write, too. -/
theorem reports_invented :
    ¬ ∀ (interval : Int) (calls : List Call) (s : System),
      Run.exec System.step (.create interval) calls = some s →
        ∀ path n, s.mediator.reports path n = min n (s.ledger.credit path) := by
  intro h
  have := h 10 [.mask "a" "" (some 5), .mask "a" "b" (some 15)] _ rfl "b" 2
  revert this
  decide

end Mediator

end SyncSpirit
