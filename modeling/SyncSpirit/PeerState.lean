import SyncSpirit.Lib.Run
import Mathlib

/-!
# Connections to one peer (`model/device_state.cpp`, `diff/contact/peer_state.cpp`)

The cluster stores one state of a peer, though there can be many connections to it. Each has a
token of its own, and reports its states through `peer_state_t` diffs. A diff is made only if
the stored state gives way to the reported one (`DeviceState.yields`): it is smaller, or of the
same token and larger. It is applied under the same condition, when all diffs sent before it
have been applied. Then `cluster_supervisor_t` launches a controller for the online state that
has just been stored, and the running controllers that have a worse connection shut down.

The condition is looked at too early for a connection that ends while its reports are still in
flight: its offline state seems to be about another connection, and nobody reports it again.
`arbitrated_of_run` is about the runs without such a connection, and in which a controller knows of
the end of its connection before the cluster does (`Ready`).
-/

namespace SyncSpirit

namespace Arbitration

/-! ## States of the peer -/

/-- `utils::uri_t`, with what is compared. -/
structure Url where
  scheme : List Char
  port : UInt16
  rest : List Char
  deriving DecidableEq, Repr

namespace Url

/-- `scheme().find("relay") == 0`. -/
def relay (u : Url) : Bool := ['r', 'e', 'l', 'a', 'y'].isPrefixOf u.scheme

/-- `scheme().find("tcp") == 0`. -/
def tcp (u : Url) : Bool := ['t', 'c', 'p'].isPrefixOf u.scheme

/-- The better one of two urls (device_state.cpp:20–36). -/
def worse (u v : Url) : Bool :=
  if u.relay && v.tcp then true
  else if u.tcp && v.relay then false
  else u.port < v.port

end Url

/-- `connection_state_t`, with the url of an online connection. -/
inductive ConnectionState where
  | offline
  | unknown
  | discovering
  | connecting
  | connected
  | online (url : Url)
  deriving DecidableEq, Repr

namespace ConnectionState

/-- The value of the enumerator. -/
def rank : ConnectionState → Nat
  | offline => 0
  | unknown => 1
  | discovering => 2
  | connecting => 3
  | connected => 4
  | online _ => 5

/-- `device_state_t::operator<`. -/
def less : ConnectionState → ConnectionState → Bool
  | online u, online v => u.worse v
  | s, t => s.rank < t.rank

/-- `device_state_t::is_online`. -/
def isOnline : ConnectionState → Bool
  | online _ => true
  | _ => false

end ConnectionState

/-- `token_id_t`. -/
abbrev Token := UInt32

/-- `device_state_t`. -/
structure DeviceState where
  token : Token
  state : ConnectionState
  deriving DecidableEq, Repr

namespace DeviceState

/-- `can_roollback_to`. -/
def canRollbackTo (s other : DeviceState) : Bool := other.token = s.token && other.state.less s.state

/-- The condition of `peer_state_t::create` and of `apply_impl`. -/
def yields (prev state : DeviceState) : Bool :=
  prev.state.less state.state || prev.canRollbackTo state

end DeviceState

/-! ## The parties -/

/-- `peer_state_t`; the peer actor is named by the token of its connection. -/
structure Diff where
  peerAddr : Token
  state : DeviceState
  deriving DecidableEq, Repr

/-- `controller_actor_t`; `subscribed` says that it visits the diffs. -/
structure Controller where
  peerState : DeviceState
  peerAddr : Token
  subscribed : Bool
  shutdown : Bool
  deriving DecidableEq, Repr

/-- A connection and its own `peer_state`; `closed` says that it has reported offline. -/
structure Connection where
  state : ConnectionState
  closed : Bool
  deriving DecidableEq, Repr

/-- The stored state, the diffs in flight and the actors; and all that has been reported. -/
structure System where
  stored : DeviceState
  queue : List Diff
  connections : Token → Option Connection
  controllers : List Controller
  reported : List DeviceState

/-- The events. -/
inductive Event where
  | accept (token : Token)
  | report (token : Token) (state : ConnectionState)
  | process (tainted : Bool)
  | subscribe (controller : Nat)
  | start (controller : Nat)
  | peerDown (controller : Nat)
  deriving DecidableEq, Repr

/-- The step of a connection: `connecting`, `connected` and `online` assert the state before. -/
def Connection.report (c : Connection) (state : ConnectionState) : Option Connection :=
  if c.closed then none
  else match c.state, state with
    | _, .offline => some { c with closed := true }
    | .offline, .connecting => some { c with state := state }
    | .connecting, .connected => some { c with state := state }
    | .connected, .online url =>
      if url.tcp || url.relay then some { c with state := state } else none
    | _, _ => none

/-- `controller_actor_t::operator()(peer_state_t)`. -/
def Controller.visit (diff : Diff) (c : Controller) : Controller :=
  if c.subscribed && c.peerState.state.less diff.state.state then { c with shutdown := true } else c

namespace System

/-- `peer_state_t::create`. -/
def create (sys : System) (peerAddr : Token) (state : DeviceState) : Option Diff :=
  if sys.stored.yields state then some ⟨peerAddr, state⟩ else none

/-- `peer_state_t::apply_impl`. -/
def apply (sys : System) (diff : Diff) : DeviceState :=
  if sys.stored.yields diff.state then diff.state else sys.stored

/-- The controller that `cluster_supervisor_t::operator()(peer_state_t)` launches. -/
def launch (stored : DeviceState) (diff : Diff) : List Controller :=
  if stored = diff.state ∧ diff.state.state.isOnline = true then
    [⟨stored, diff.peerAddr, false, false⟩] else []

/-- One event. The coordinator applies the first diff and lets everybody visit it. -/
def step (sys : System) : Event → Option System
  | .accept token =>
    match sys.connections token with
    | some _ => none
    | none =>
      some { sys with connections := Function.update sys.connections token (some ⟨.offline, false⟩) }
  | .report token state => do
    let connection ← sys.connections token
    let connection ← connection.report state
    return { sys with
      connections := Function.update sys.connections token (some connection)
      queue := sys.queue ++ (sys.create token ⟨token, state⟩).toList
      reported := sys.reported ++ [⟨token, state⟩] }
  | .process tainted =>
    match sys.queue with
    | [] => none
    | diff :: queue =>
      let stored := sys.apply diff
      some { sys with
        stored := stored
        queue := queue
        controllers := sys.controllers.map (Controller.visit diff) ++
          if tainted then [] else launch stored diff }
  | .subscribe i =>
    some { sys with controllers := sys.controllers.modify i fun c => { c with subscribed := true } }
  | .start i =>
    some { sys with
      controllers := sys.controllers.modify i fun c =>
        if c.peerState.state.less sys.stored.state then { c with shutdown := true } else c }
  | .peerDown i =>
    some { sys with controllers := sys.controllers.modify i fun c => { c with shutdown := true } }

/-- Before the first connection; the device has a token of its own. -/
def initial (token : Token) : System where
  stored := ⟨token, .offline⟩
  queue := []
  connections := Function.update (fun _ => none) token (some ⟨.offline, true⟩)
  controllers := []
  reported := [⟨token, .offline⟩]

/-- **Arbitration.** -/
structure Kept (sys : System) : Prop where
  stored : sys.stored ∈ sys.reported
  launched : ∀ c ∈ sys.controllers, c.peerState ∈ sys.reported ∧ c.peerState.token = c.peerAddr ∧
    c.peerState.state.isOnline = true
  once : (sys.controllers.filter fun c => !c.shutdown).length ≤ 1
  settled : sys.queue = [] → (∀ token c, sys.connections token = some c → c.closed = true) →
    sys.stored.state = .offline

end System

/-- **The condition**: a connection whose offline report is dropped has no other report in
flight; and when a diff is applied, the controller of a connection that has ended is shutting
down, and a controller that has to give way listens. -/
def Ready (sys : System) : Event → Prop
  | .report token .offline =>
    sys.stored.yields ⟨token, .offline⟩ = true ∨ ∀ diff ∈ sys.queue, diff.state.token ≠ token
  | .process _ =>
    ∀ diff ∈ sys.queue.head?, sys.stored.yields diff.state = true → ∀ c ∈ sys.controllers,
      c.shutdown = true ∨ (c.subscribed = true ∧ diff.state.state.isOnline = true)
  | _ => True

instance (sys : System) (event : Event) : Decidable (Ready sys event) :=
  match event with
  | .report token .offline =>
    inferInstanceAs (Decidable (sys.stored.yields ⟨token, .offline⟩ = true ∨
      ∀ diff ∈ sys.queue, diff.state.token ≠ token))
  | .process _ =>
    inferInstanceAs (Decidable (∀ diff ∈ sys.queue.head?, sys.stored.yields diff.state = true →
      ∀ c ∈ sys.controllers,
        c.shutdown = true ∨ (c.subscribed = true ∧ diff.state.state.isOnline = true)))
  | .report _ .unknown => .isTrue trivial
  | .report _ .discovering => .isTrue trivial
  | .report _ .connecting => .isTrue trivial
  | .report _ .connected => .isTrue trivial
  | .report _ (.online _) => .isTrue trivial
  | .accept _ => .isTrue trivial
  | .subscribe _ => .isTrue trivial
  | .start _ => .isTrue trivial
  | .peerDown _ => .isTrue trivial

/-! ## The life of a connection -/

/-- The place of a state in the life of its connection: offline comes last. -/
def ConnectionState.age : ConnectionState → Nat
  | .offline => 6
  | s => s.rank

/-- The age of the last report. -/
def Connection.age (c : Connection) : Nat := if c.closed then 6 else c.state.rank

theorem ConnectionState.eq_offline_of_age {s : ConnectionState} (h : 6 ≤ s.age) : s = .offline := by
  cases s <;> first | rfl | exact absurd h (by simp [age, rank])

/-- A report is younger than all before, and the connection is then as old as it. -/
theorem Connection.report_spec {c c' : Connection} {state : ConnectionState}
    (h : c.report state = some c') : c.closed = false ∧ c.age < state.age ∧ c'.age = state.age ∧
      (c'.closed = true ↔ state = .offline) := by
  unfold Connection.report at h
  split at h
  · cases h
  · rename_i hopen
    have hopen : c.closed = false := by simpa using hopen
    refine ⟨hopen, ?_⟩
    unfold Connection.age
    rw [hopen]
    split at h
    · cases h
      refine ⟨?_, rfl, by simp⟩
      cases c.state <;> simp [ConnectionState.age, ConnectionState.rank]
    · rename_i heq _
      cases h
      simp [ConnectionState.age, ConnectionState.rank, *]
    · rename_i heq _
      cases h
      simp [ConnectionState.age, ConnectionState.rank, *]
    · split at h
      · cases h
        simp [ConnectionState.age, ConnectionState.rank, *]
      · cases h
    · cases h

/-- Nothing is smaller than offline. -/
theorem ConnectionState.not_less_offline (s : ConnectionState) : s.less .offline = false := by
  cases s <;> rfl

/-- What gives way to a larger state of another kind is no online state. -/
theorem ConnectionState.rank_of_less {s t : ConnectionState} (h : s.less t = true) :
    s.rank < t.rank ∨ (s.isOnline = true ∧ t.isOnline = true) := by
  cases s <;> cases t <;> simp_all [less, rank, isOnline]

theorem ConnectionState.isOnline_iff {s : ConnectionState} : s.isOnline = true ↔ s.rank = 5 := by
  cases s <;> simp [isOnline, rank]

/-- Offline is taken over only from the same connection. -/
theorem DeviceState.yields_offline {prev : DeviceState} {token : Token} :
    prev.yields ⟨token, .offline⟩ = true ↔ prev.token = token ∧ prev.state ≠ .offline := by
  obtain ⟨token', state⟩ := prev
  unfold yields canRollbackTo
  dsimp only
  rw [ConnectionState.not_less_offline, Bool.false_or, Bool.and_eq_true, decide_eq_true_eq, eq_comm]
  refine and_congr_right fun _ => ?_
  cases state <;> simp [ConnectionState.less, ConnectionState.rank]

namespace System

/-- The connection has not reported offline yet. -/
def Open (sys : System) (token : Token) : Prop := ∃ c, sys.connections token = some c ∧ c.closed = false

/-- A state that its connection has reported, and that is not its last one. -/
def Accounted (sys : System) (state : DeviceState) : Prop :=
  state.state ≠ .offline → sys.Open state.token ∨ ∃ diff ∈ sys.queue, diff.state = ⟨state.token, .offline⟩

/-- The reports: those of one connection are in order, and none is forgotten. -/
structure Reports (sys : System) : Prop where
  ordered : sys.queue.Pairwise fun d e => d.state.token = e.state.token → d.state.state.age < e.state.state.age
  younger : ∀ d ∈ sys.queue, sys.stored.token = d.state.token → sys.stored.state.age < d.state.state.age
  known : ∀ d ∈ sys.queue, ∃ c, sys.connections d.state.token = some c ∧ d.state.state.age ≤ c.age
  storedKnown : ∃ c, sys.connections sys.stored.token = some c ∧ sys.stored.state.age ≤ c.age
  address : ∀ d ∈ sys.queue, d.peerAddr = d.state.token ∧ d.state ∈ sys.reported
  stored : sys.stored ∈ sys.reported
  accounted : ∀ d ∈ sys.queue, sys.Accounted d.state
  storedAccounted : sys.Accounted sys.stored

/-- The controllers: one that is not shutting down is of the stored state. -/
structure Controlled (sys : System) : Prop where
  launched : ∀ c ∈ sys.controllers, c.peerState ∈ sys.reported ∧ c.peerState.token = c.peerAddr ∧
    c.peerState.state.isOnline = true
  current : ∀ c ∈ sys.controllers, c.shutdown = false → sys.stored = c.peerState
  once : (sys.controllers.filter fun c => !c.shutdown).length ≤ 1

/-- The invariant. -/
structure Sound (sys : System) : Prop where
  reports : Reports sys
  controlled : Controlled sys

theorem Sound.kept {sys : System} (h : sys.Sound) : sys.Kept where
  stored := h.reports.stored
  launched := h.controlled.launched
  once := h.controlled.once
  settled hqueue hclosed := by
    by_contra hne
    rcases h.reports.storedAccounted hne with ⟨c, hc, hopen⟩ | ⟨diff, hdiff, -⟩
    · rw [hclosed _ c hc] at hopen
      cases hopen
    · rw [hqueue] at hdiff
      cases hdiff

theorem Sound.initial (token : Token) : (initial token).Sound where
  reports :=
    { ordered := List.Pairwise.nil
      younger := fun _ h => absurd h List.not_mem_nil
      known := fun _ h => absurd h List.not_mem_nil
      storedKnown := ⟨⟨.offline, true⟩, by simp [System.initial], Nat.le_refl _⟩
      address := fun _ h => absurd h List.not_mem_nil
      stored := List.mem_singleton_self _
      accounted := fun _ h => absurd h List.not_mem_nil
      storedAccounted := fun h => absurd rfl h }
  controlled :=
    { launched := fun _ h => absurd h List.not_mem_nil
      current := fun _ h => absurd h List.not_mem_nil
      once := Nat.zero_le _ }

/-! ## New connections and reports -/

/-- Other connections than those that are known. -/
theorem Reports.accept {sys : System} (h : sys.Reports) {token : Token} (hfree : sys.connections token = none) :
    Reports { sys with connections := Function.update sys.connections token (some ⟨.offline, false⟩) } := by
  have hother : ∀ {token' c}, sys.connections token' = some c →
      Function.update sys.connections token (some ⟨.offline, false⟩) token' = some c := by
    intro token' c hc
    have hne : token' ≠ token := by
      rintro rfl
      rw [hfree] at hc
      cases hc
    rw [Function.update_of_ne hne, hc]
  have haccounted : ∀ {state : DeviceState}, sys.Accounted state → Accounted
      { sys with connections := Function.update sys.connections token (some ⟨.offline, false⟩) } state :=
    fun hstate hne => (hstate hne).imp_left fun ⟨c, hc, hopen⟩ => ⟨c, hother hc, hopen⟩
  exact {
    ordered := h.ordered
    younger := h.younger
    known := fun d hd => (h.known d hd).imp fun c hc => ⟨hother hc.1, hc.2⟩
    storedKnown := h.storedKnown.imp fun c hc => ⟨hother hc.1, hc.2⟩
    address := h.address
    stored := h.stored
    accounted := fun d hd => haccounted (h.accounted d hd)
    storedAccounted := haccounted h.storedAccounted }

/-- **A report.** -/
theorem Reports.report {sys : System} (h : sys.Reports) {token : Token} {state : ConnectionState}
    {c c' : Connection} (hc : sys.connections token = some c) (hreport : c.report state = some c')
    (hready : state = .offline → sys.stored.yields ⟨token, .offline⟩ = true ∨
      ∀ diff ∈ sys.queue, diff.state.token ≠ token) :
    Reports { sys with
      connections := Function.update sys.connections token (some c')
      queue := sys.queue ++ (sys.create token ⟨token, state⟩).toList
      reported := sys.reported ++ [⟨token, state⟩] } := by
  obtain ⟨hopen, hage, hage', hclosed⟩ := Connection.report_spec hreport
  have hnew : ∀ {d : Diff}, d ∈ (sys.create token ⟨token, state⟩).toList → d = ⟨token, ⟨token, state⟩⟩ := by
    intro d hd
    unfold create at hd
    split at hd
    · exact List.mem_singleton.mp hd
    · cases hd
  -- what is known of a connection stays, and it gets older
  have hknown : ∀ {state' : DeviceState},
      (∃ c, sys.connections state'.token = some c ∧ state'.state.age ≤ c.age) →
      ∃ c, Function.update sys.connections token (some c') state'.token = some c ∧
        state'.state.age ≤ c.age := by
    rintro state' ⟨c₀, hc₀, hle⟩
    by_cases heq : state'.token = token
    · rw [heq, hc] at hc₀
      cases hc₀
      rw [heq]
      exact ⟨c', Function.update_self .., by omega⟩
    · exact ⟨c₀, by rw [Function.update_of_ne heq, hc₀], hle⟩
  have hyoung : ∀ {state' : DeviceState}, state'.token = token →
      (∃ c, sys.connections state'.token = some c ∧ state'.state.age ≤ c.age) →
      state'.state.age < state.age := by
    rintro state' heq ⟨c₀, hc₀, hle⟩
    rw [heq, hc] at hc₀
    cases hc₀
    omega
  have haccounted : ∀ {state' : DeviceState}, sys.Accounted state' →
      (state'.token = token → state = .offline → state'.state ≠ .offline →
        ⟨token, ⟨token, .offline⟩⟩ ∈ (sys.create token ⟨token, .offline⟩).toList) →
      Accounted { sys with
        connections := Function.update sys.connections token (some c')
        queue := sys.queue ++ (sys.create token ⟨token, state⟩).toList
        reported := sys.reported ++ [⟨token, state⟩] } state' := by
    intro state' hstate hlast hne
    by_cases heq : state'.token = token
    · by_cases hoff : state = .offline
      · have hmem := hlast heq hoff hne
        subst hoff
        exact .inr ⟨_, List.mem_append_right _ hmem, by rw [heq]⟩
      · left
        rw [heq]
        refine ⟨c', Function.update_self .., ?_⟩
        by_contra hcl
        exact hoff (hclosed.mp (by simpa using hcl))
    · rcases hstate hne with ⟨c₀, hc₀, hopen₀⟩ | ⟨diff, hdiff, hoff⟩
      · exact .inl ⟨c₀, (Function.update_of_ne heq _ _).trans hc₀, hopen₀⟩
      · exact .inr ⟨diff, List.mem_append_left _ hdiff, hoff⟩
  have hsent : sys.stored.yields ⟨token, .offline⟩ = true →
      ⟨token, ⟨token, .offline⟩⟩ ∈ (sys.create token ⟨token, .offline⟩).toList := by
    intro hyields
    unfold create
    rw [if_pos hyields]
    exact List.mem_singleton_self _
  refine {
    ordered := ?_
    younger := fun d hd heq => ?_
    known := fun d hd => ?_
    storedKnown := hknown h.storedKnown
    address := fun d hd => ?_
    stored := List.mem_append_left _ h.stored
    accounted := fun d hd => ?_
    storedAccounted := haccounted h.storedAccounted fun heq hoff hne => ?_ }
  · refine List.pairwise_append.mpr ⟨h.ordered, ?_, fun d hd e he heq => ?_⟩
    · unfold create
      split
      · exact List.pairwise_singleton _ _
      · exact List.Pairwise.nil
    · rw [hnew he] at heq ⊢
      exact hyoung heq (h.known d hd)
  · rcases List.mem_append.mp hd with hd | hd
    · exact h.younger d hd heq
    · rw [hnew hd] at heq ⊢
      exact hyoung heq h.storedKnown
  · rcases List.mem_append.mp hd with hd | hd
    · exact hknown (h.known d hd)
    · rw [hnew hd]
      exact ⟨c', Function.update_self .., Nat.le_of_eq hage'.symm⟩
  · rcases List.mem_append.mp hd with hd | hd
    · exact ⟨(h.address d hd).1, List.mem_append_left _ (h.address d hd).2⟩
    · rw [hnew hd]
      exact ⟨rfl, List.mem_append_right _ (List.mem_singleton_self _)⟩
  · rcases List.mem_append.mp hd with hd | hd
    · refine haccounted (h.accounted d hd) fun heq hoff _ => ?_
      rcases hready hoff with hyields | hnone
      · exact hsent hyields
      · exact absurd heq (hnone d hd)
    · rw [hnew hd]
      intro hne
      refine .inl ⟨c', Function.update_self .., ?_⟩
      by_contra hcl
      exact hne (hclosed.mp (by simpa using hcl))
  · exact hsent (DeviceState.yields_offline.mpr ⟨heq, hne⟩)

/-! ## Applying a diff -/

/-- What is left of the reports when the first one has been applied. -/
theorem Reports.process {sys : System} (h : sys.Reports) {diff : Diff} {queue : List Diff}
    (hqueue : sys.queue = diff :: queue) (controllers : List Controller) :
    Reports { sys with stored := sys.apply diff, queue := queue, controllers := controllers } := by
  have hmem : diff ∈ sys.queue := by rw [hqueue]; exact List.mem_cons_self ..
  have hrest : ∀ {d}, d ∈ queue → d ∈ sys.queue := fun hd => by
    rw [hqueue]
    exact List.mem_cons_of_mem _ hd
  have hordered := h.ordered
  rw [hqueue] at hordered
  obtain ⟨hhead, htail⟩ := List.pairwise_cons.mp hordered
  -- a state loses its offline report only to the stored state
  have haccounted : ∀ {state : DeviceState}, sys.Accounted state →
      (diff.state = ⟨state.token, .offline⟩ → state.state ≠ .offline → False) →
      Accounted { sys with stored := sys.apply diff, queue := queue, controllers := controllers } state := by
    intro state hstate hlost hne
    refine (hstate hne).imp_right fun ⟨d, hd, hoff⟩ => ?_
    rw [hqueue] at hd
    rcases List.mem_cons.mp hd with rfl | hd
    · exact absurd (hlost hoff hne) not_false
    · exact ⟨d, hd, hoff⟩
  have happly : sys.apply diff = diff.state ∨ (sys.apply diff = sys.stored ∧ sys.stored.yields diff.state = false) := by
    unfold apply
    by_cases hyields : sys.stored.yields diff.state = true
    · rw [if_pos hyields]
      exact .inl rfl
    · rw [if_neg hyields]
      exact .inr ⟨rfl, by simpa using hyields⟩
  refine {
    ordered := htail
    younger := fun d hd heq => ?_
    known := fun d hd => h.known d (hrest hd)
    storedKnown := ?_
    address := fun d hd => h.address d (hrest hd)
    stored := ?_
    accounted := fun d hd => haccounted (h.accounted d (hrest hd)) fun hoff hne => ?_
    storedAccounted := ?_ }
  · show (sys.apply diff).state.age < d.state.state.age
    have heq : (sys.apply diff).token = d.state.token := heq
    rcases happly with happly | ⟨happly, -⟩
    · rw [happly] at heq ⊢
      exact hhead d hd heq
    · rw [happly] at heq ⊢
      exact h.younger d (hrest hd) heq
  · show ∃ c, sys.connections (sys.apply diff).token = some c ∧ (sys.apply diff).state.age ≤ c.age
    rcases happly with happly | ⟨happly, -⟩
    · rw [happly]
      exact h.known diff hmem
    · rw [happly]
      exact h.storedKnown
  · show sys.apply diff ∈ sys.reported
    rcases happly with happly | ⟨happly, -⟩
    · rw [happly]
      exact (h.address diff hmem).2
    · rw [happly]
      exact h.stored
  · -- nothing comes after an offline report
    have hlt := hhead d hd (by rw [hoff])
    rw [hoff] at hlt
    exact hne (ConnectionState.eq_offline_of_age (Nat.le_of_lt hlt))
  · show Accounted _ (sys.apply diff)
    rcases happly with happly | ⟨happly, hnot⟩
    · rw [happly]
      refine haccounted (h.accounted diff hmem) fun hoff hne => hne ?_
      rw [hoff]
    · rw [happly]
      refine haccounted h.storedAccounted fun hoff hne => ?_
      rw [hoff, DeviceState.yields_offline.mpr ⟨rfl, hne⟩] at hnot
      cases hnot

/-- What gives way to a diff: a smaller state, or an older one of the same connection that ends. -/
theorem Reports.of_yields {sys : System} (h : sys.Reports) {diff : Diff} (hdiff : diff ∈ sys.queue)
    (hyields : sys.stored.yields diff.state = true) (honline : sys.stored.state.isOnline = true) :
    (sys.stored.state.less diff.state.state = true ∧ diff.state.state.isOnline = true) ∨
      diff.state.state = .offline := by
  unfold DeviceState.yields at hyields
  rw [Bool.or_eq_true] at hyields
  have hrank := ConnectionState.isOnline_iff.mp honline
  rcases hyields with hless | hrollback
  · left
    refine ⟨hless, ?_⟩
    rcases ConnectionState.rank_of_less hless with hlt | ⟨-, honline'⟩
    · have hle : diff.state.state.rank ≤ 5 := by cases diff.state.state <;> simp [ConnectionState.rank]
      omega
    · exact honline'
  · right
    unfold DeviceState.canRollbackTo at hrollback
    rw [Bool.and_eq_true, decide_eq_true_eq] at hrollback
    have hage := h.younger diff hdiff hrollback.1.symm
    refine ConnectionState.eq_offline_of_age ?_
    have hsix : sys.stored.state.age = 5 := by
      cases hs : sys.stored.state <;> simp_all [ConnectionState.age, ConnectionState.rank]
    omega

theorem visit_spec {diff : Diff} {c : Controller} :
    (Controller.visit diff c).peerState = c.peerState ∧ (Controller.visit diff c).peerAddr = c.peerAddr ∧
      ((Controller.visit diff c).shutdown = false ↔ c.shutdown = false ∧
        ¬ (c.subscribed = true ∧ c.peerState.state.less diff.state.state = true)) := by
  unfold Controller.visit
  split
  · rename_i h
    rw [Bool.and_eq_true] at h
    exact ⟨rfl, rfl, ⟨fun h => (by cases h), fun hnot => absurd h hnot.2⟩⟩
  · rename_i h
    rw [Bool.and_eq_true] at h
    exact ⟨rfl, rfl, ⟨fun hs => ⟨hs, h⟩, fun hs => hs.1⟩⟩

/-- Fewer controllers run after a visit. -/
theorem running_visit (diff : Diff) (controllers : List Controller) :
    ((controllers.map (Controller.visit diff)).filter fun c => !c.shutdown).length ≤
      (controllers.filter fun c => !c.shutdown).length := by
  rw [List.filter_map, List.length_map, ← List.countP_eq_length_filter, ← List.countP_eq_length_filter]
  refine List.countP_mono_left fun c _ hc => ?_
  have hc : (Controller.visit diff c).shutdown = false := by simpa using hc
  simpa using (visit_spec.2.2.mp hc).1

/-- **Visiting a diff.** -/
theorem Sound.process {sys : System} (h : sys.Sound) {diff : Diff} {queue : List Diff}
    (hqueue : sys.queue = diff :: queue) (tainted : Bool)
    (hready : sys.stored.yields diff.state = true → ∀ c ∈ sys.controllers,
      c.shutdown = true ∨ (c.subscribed = true ∧ diff.state.state.isOnline = true)) :
    Controlled { sys with
      stored := sys.apply diff
      queue := queue
      controllers := sys.controllers.map (Controller.visit diff) ++
        if tainted then [] else launch (sys.apply diff) diff } := by
  have hmem : diff ∈ sys.queue := by rw [hqueue]; exact List.mem_cons_self ..
  have hold : ∀ c ∈ sys.controllers.map (Controller.visit diff), ∃ c₀ ∈ sys.controllers,
      c.peerState = c₀.peerState ∧ c.peerAddr = c₀.peerAddr ∧
        (c.shutdown = false → c₀.shutdown = false ∧
          ¬ (c₀.subscribed = true ∧ c₀.peerState.state.less diff.state.state = true)) := by
    intro c hc
    obtain ⟨c₀, hc₀, rfl⟩ := List.mem_map.mp hc
    obtain ⟨hstate, haddr, hshut⟩ := @visit_spec diff c₀
    exact ⟨c₀, hc₀, hstate, haddr, hshut.mp⟩
  have hlaunched : ∀ c ∈ sys.controllers.map (Controller.visit diff), c.peerState ∈ sys.reported ∧
      c.peerState.token = c.peerAddr ∧ c.peerState.state.isOnline = true := by
    intro c hc
    obtain ⟨c₀, hc₀, hstate, haddr, -⟩ := hold c hc
    rw [hstate, haddr]
    exact h.controlled.launched c₀ hc₀
  by_cases hyields : sys.stored.yields diff.state = true
  · have happly : sys.apply diff = diff.state := by rw [apply, if_pos hyields]
    -- who has run until now has a worse connection, and listens
    have hnone : ∀ c ∈ sys.controllers.map (Controller.visit diff), c.shutdown = true := by
      intro c hc
      by_contra hrun
      obtain ⟨c₀, hc₀, -, -, hrun₀⟩ := hold c hc
      obtain ⟨hrun₀, hstays⟩ := hrun₀ (by simpa using hrun)
      rcases hready hyields c₀ hc₀ with hshut | ⟨hsub, honline⟩
      · rw [hrun₀] at hshut
        cases hshut
      · have hstored := h.controlled.current c₀ hc₀ hrun₀
        have honline₀ := (h.controlled.launched c₀ hc₀).2.2
        rw [← hstored] at honline₀ hstays
        rcases h.reports.of_yields hmem hyields honline₀ with ⟨hless, -⟩ | hoff
        · exact hstays ⟨hsub, hless⟩
        · rw [hoff] at honline
          cases honline
    have hlaunch : ∀ c ∈ (if tainted then [] else launch (sys.apply diff) diff : List Controller),
        c = ⟨diff.state, diff.peerAddr, false, false⟩ ∧ diff.state.state.isOnline = true := by
      intro c hc
      rw [happly] at hc
      split at hc
      · cases hc
      · unfold launch at hc
        split at hc
        · rename_i honline
          exact ⟨List.mem_singleton.mp hc, honline.2⟩
        · cases hc
    refine ⟨fun c hc => ?_, fun c hc hrun => ?_, ?_⟩
    · rcases List.mem_append.mp hc with hc | hc
      · exact hlaunched c hc
      · obtain ⟨rfl, honline⟩ := hlaunch c hc
        obtain ⟨haddr, hreported⟩ := h.reports.address diff hmem
        exact ⟨hreported, haddr.symm, honline⟩
    · rcases List.mem_append.mp hc with hc | hc
      · rw [hnone c hc] at hrun
        cases hrun
      · obtain ⟨rfl, -⟩ := hlaunch c hc
        exact happly
    · rw [List.filter_append, List.length_append, List.filter_eq_nil_iff.mpr fun c hc => by
        simp [hnone c hc]]
      refine Nat.le_trans (Nat.add_le_add_left (List.length_filter_le _ _) _) ?_
      rw [List.length_nil, Nat.zero_add]
      split
      · exact Nat.zero_le _
      · unfold launch
        split
        · exact Nat.le_refl _
        · exact Nat.zero_le _
  · have happly : sys.apply diff = sys.stored := by rw [apply, if_neg hyields]
    -- the same state is not reported twice
    have hlaunch : (if tainted then [] else launch (sys.apply diff) diff : List Controller) = [] := by
      split
      · rfl
      · unfold launch
        rw [happly, if_neg]
        rintro ⟨heq, -⟩
        have hlt := h.reports.younger diff hmem (by rw [heq])
        rw [heq] at hlt
        exact Nat.lt_irrefl _ hlt
    rw [hlaunch, List.append_nil]
    refine ⟨hlaunched, fun c hc hrun => ?_, Nat.le_trans (running_visit diff _) h.controlled.once⟩
    obtain ⟨c₀, hc₀, hstate, -, hrun₀⟩ := hold c hc
    rw [hstate]
    exact happly.trans (h.controlled.current c₀ hc₀ (hrun₀ hrun).1)

/-- A controller that changes neither its state nor its address, and does not come back. -/
theorem Controlled.modify {sys : System} (h : sys.Controlled) (i : Nat) (f : Controller → Controller)
    (hf : ∀ c, (f c).peerState = c.peerState ∧ (f c).peerAddr = c.peerAddr ∧
      (c.shutdown = true → (f c).shutdown = true)) :
    Controlled { sys with controllers := sys.controllers.modify i f } := by
  have hmem : ∀ c ∈ sys.controllers.modify i f, ∃ c₀ ∈ sys.controllers, c.peerState = c₀.peerState ∧
      c.peerAddr = c₀.peerAddr ∧ (c.shutdown = false → c₀.shutdown = false) := by
    intro c hc
    obtain ⟨j, hj⟩ := List.mem_iff_getElem?.mp hc
    rw [List.getElem?_modify] at hj
    obtain ⟨c₀, hc₀, rfl⟩ := Option.map_eq_some_iff.mp hj
    refine ⟨c₀, List.mem_of_getElem? hc₀, ?_⟩
    split
    · refine ⟨(hf c₀).1, (hf c₀).2.1, fun hrun => ?_⟩
      by_contra hshut
      rw [(hf c₀).2.2 (by simpa using hshut)] at hrun
      cases hrun
    · exact ⟨rfl, rfl, id⟩
  refine ⟨fun c hc => ?_, fun c hc hrun => ?_, ?_⟩
  · obtain ⟨c₀, hc₀, hstate, haddr, -⟩ := hmem c hc
    rw [hstate, haddr]
    exact h.launched c₀ hc₀
  · obtain ⟨c₀, hc₀, hstate, -, hrun₀⟩ := hmem c hc
    rw [hstate]
    exact h.current c₀ hc₀ (hrun₀ hrun)
  · refine Nat.le_trans ?_ h.once
    have hcount : ∀ (cs : List Controller) (j : Nat),
        (cs.modify j f).countP (fun c => !c.shutdown) ≤ cs.countP fun c => !c.shutdown := by
      intro cs
      induction cs with
      | nil => exact fun j => by cases j <;> exact Nat.le_refl _
      | cons c cs ih =>
        intro j
        cases j with
        | zero =>
          rw [List.modify_zero_cons, List.countP_cons, List.countP_cons]
          refine Nat.add_le_add_left ?_ _
          cases hs : c.shutdown with
          | true =>
            exact Nat.le_of_eq (by rw [(hf c).2.2 hs])
          | false => cases (f c).shutdown <;> decide
        | succ j =>
          rw [List.modify_succ_cons, List.countP_cons, List.countP_cons]
          exact Nat.add_le_add_right (ih j) _
    rw [← List.countP_eq_length_filter, ← List.countP_eq_length_filter]
    exact hcount _ i

/-- The reports do not look at the controllers. -/
theorem Reports.controllers {sys : System} (h : sys.Reports) (controllers : List Controller) :
    Reports { sys with controllers := controllers } where
  ordered := h.ordered
  younger := h.younger
  known := h.known
  storedKnown := h.storedKnown
  address := h.address
  stored := h.stored
  accounted := h.accounted
  storedAccounted := h.storedAccounted

/-- **One event.** -/
theorem Sound.step {sys sys' : System} (h : sys.Sound) {event : Event} (hready : Ready sys event)
    (hstep : sys.step event = some sys') : sys'.Sound := by
  cases event with
  | accept token =>
    unfold System.step at hstep
    dsimp only at hstep
    split at hstep
    · cases hstep
    · rename_i hfree
      cases hstep
      exact ⟨h.reports.accept hfree, ⟨h.controlled.launched, h.controlled.current, h.controlled.once⟩⟩
  | report token state =>
    obtain ⟨c, hc, hstep⟩ := Option.bind_eq_some_iff.mp hstep
    obtain ⟨c', hc', hstep⟩ := Option.bind_eq_some_iff.mp hstep
    cases hstep
    refine ⟨h.reports.report hc hc' fun hoff => ?_, ⟨fun k hk => ?_, h.controlled.current, h.controlled.once⟩⟩
    · subst hoff
      exact hready
    · obtain ⟨hreported, hrest⟩ := h.controlled.launched k hk
      exact ⟨List.mem_append_left _ hreported, hrest⟩
  | process tainted =>
    unfold System.step at hstep
    dsimp only at hstep
    split at hstep
    · cases hstep
    · rename_i diff queue hqueue
      cases hstep
      exact ⟨h.reports.process hqueue _, h.process hqueue tainted (hready diff (by rw [hqueue]; rfl))⟩
  | subscribe i =>
    cases hstep
    exact ⟨h.reports.controllers _, h.controlled.modify i _ fun _ => ⟨rfl, rfl, id⟩⟩
  | start i =>
    cases hstep
    refine ⟨h.reports.controllers _, h.controlled.modify i _ fun c => ?_⟩
    split
    · exact ⟨rfl, rfl, fun _ => rfl⟩
    · exact ⟨rfl, rfl, id⟩
  | peerDown i =>
    cases hstep
    exact ⟨h.reports.controllers _, h.controlled.modify i _ fun _ => ⟨rfl, rfl, fun _ => rfl⟩⟩

/-- **Arbitration**: in every run whose events are all ready, the stored state is a reported
one, controllers are launched for stored online states, one of them at most runs, and the peer
is offline when all connections have ended and all diffs have been applied. -/
theorem arbitrated_of_run {token : Token} {events : List Event} {sys : System}
    (hready : Run.Meets step Ready (initial token) events)
    (hrun : Run.exec step (initial token) events = some sys) : sys.Kept :=
  (Run.exec_inv (fun _ _ _ hs he hstep => hs.step he hstep) (Sound.initial token) hready hrun).kept

/-- A relayed connection and a direct one to the same peer. -/
def relayed : ConnectionState := .online ⟨['r', 'e', 'l', 'a', 'y'], 22067, []⟩

def direct : ConnectionState := .online ⟨['t', 'c', 'p'], 22000, []⟩

/-- Two connections, the second one better; each ends after its controller. -/
def change : List Event :=
  [.accept 1, .accept 2, .report 1 .connecting, .process false, .report 1 .connected, .process false,
    .report 2 .connecting, .report 2 .connected, .report 1 relayed, .report 2 direct, .process false,
    .subscribe 0, .start 0, .process false, .report 1 .offline, .subscribe 1, .start 1, .peerDown 1,
    .report 2 .offline, .process false]

theorem kept_of_change : ∃ sys, Run.exec step (initial 0) change = some sys ∧ sys.Kept ∧
    sys.stored = ⟨2, .offline⟩ := by
  refine ⟨_, rfl, @arbitrated_of_run 0 change _ ?_ rfl, ?_⟩
  · decide
  · decide

/-- The direct connection ends while it is in flight, and the relayed one is still stored: nobody
sets the peer offline again. -/
theorem online_without_connection : ∃ sys, Run.exec step (initial 0)
    [.accept 1, .accept 2, .report 1 .connecting, .process false, .report 1 .connected, .process false,
      .report 2 .connecting, .report 2 .connected, .report 1 relayed, .report 2 direct, .process false,
      .report 2 .offline, .process false, .report 1 .offline] = some sys ∧ sys.queue = [] ∧
    (∀ token c, sys.connections token = some c → c.closed = true) ∧ sys.stored = ⟨2, direct⟩ := by
  refine ⟨_, rfl, ?_, ?_, ?_⟩
  · decide
  · intro token c hc
    by_cases h₁ : token = 1
    · subst h₁
      cases hc
      rfl
    · by_cases h₂ : token = 2
      · subst h₂
        cases hc
        rfl
      · by_cases h₀ : token = 0
        · subst h₀
          cases hc
          rfl
        · simp [initial, h₀, h₁, h₂] at hc
  · decide

end System

end Arbitration

end SyncSpirit
