import SyncSpirit.Bep
import SyncSpirit.Lib.Run

/-!
# The receive path of a connection (`net/peer_actor.cpp`)

After the Hello `peer_actor_t` reads into a buffer, takes every complete message out of it, and
moves the rest to the front. The messages for the controller go to a queue as long as there is
no controller, and to the controller afterwards.

How a message is parsed is a parameter, which is assumed to be exact (`Exact`); so is what
`memcpy` makes of regions that overlap, which C++ leaves undefined. `received_of_run` is about
all ways to cut a stream into reads in which no rest is longer than what has been taken out
before it (`Apart`), and `received_of_moves` about all ways, if overlapping regions are copied
as `memmove` does.
-/

namespace SyncSpirit

namespace Receive

open Bep

variable {μ η : Type}

/-- `peer_actor_t`, as far as it reads. `reading` is the resource `io_read`. What has been handled
and what has been sent to the controller is remembered. -/
structure PeerActor (μ : Type) where
  rxBuff : Bytes
  rxIdx : Nat
  controller : Option Nat
  receivedQueue : List μ
  reading : Bool
  shutdown : Bool
  handled : List μ
  sent : List (Nat × List μ)

/-- What happens to it. -/
inductive Event where
  | read (bytes : Bytes)
  | controllerUp (forMe : Bool) (controller : Nat)
  deriving DecidableEq, Repr

/-- `n` bytes are moved to the front of a buffer. -/
def memmove (buff : Bytes) (src n : Nat) : Bytes := (buff.drop src).take n ++ buff.drop n

/-- `std::memcpy` to the front of a buffer, with what it makes of overlapping regions. -/
def memcpy (overlap : Bytes → Nat → Nat → Bytes) (buff : Bytes) (src n : Nat) : Bytes :=
  if n ≤ src then memmove buff src n else overlap buff src n

/-- The messages that are forwarded. -/
def forwardable (type : μ → MessageType) (m : μ) : Bool :=
  match type m with
  | .ping | .close | .downloadProgress => false
  | _ => true

namespace PeerActor

/-- The bytes that are kept. -/
def kept (s : PeerActor μ) : Bytes := s.rxBuff.take s.rxIdx

/-- `async_recv` has filled the buffer. -/
def receive (s : PeerActor μ) (bytes : Bytes) : PeerActor μ :=
  { s with
    rxBuff := s.rxBuff.take s.rxIdx ++ bytes ++ s.rxBuff.drop (s.rxIdx + bytes.length)
    rxIdx := s.rxIdx + bytes.length
    reading := false }

/-- `read_controlled`: the messages for the controller, and whether to go on. -/
def readControlled (type : μ → MessageType) (s : PeerActor μ) (messages : List μ) :
    Message μ η → PeerActor μ × List μ × Bool
  | .hello _ => ({ s with shutdown := true }, messages, false)
  | .plain m =>
    let s := { s with handled := s.handled ++ [m] }
    match type m with
    | .ping => (s, messages, true)
    | .close => ({ s with shutdown := true }, messages, false)
    | .downloadProgress => (s, messages, true)
    | _ =>
      match s.controller with
      | some _ => (s, messages ++ [m], true)
      | none => ({ s with receivedQueue := s.receivedQueue ++ [m] }, messages, true)

/-- The end of the loop of `on_read`: `view` is what is left, `failed` an error of the parser. -/
structure Parsed (μ : Type) where
  peer : PeerActor μ
  messages : List μ
  view : Bytes
  readNext : Bool
  failed : Bool

/-- The loop of `on_read`; every round takes a byte at least. -/
def parseLoop (parse : Bytes → Outcome μ η) (type : μ → MessageType) :
    Nat → Bytes → PeerActor μ → List μ → Option (Parsed μ)
  | 0, view, s, messages => some ⟨s, messages, view, true, false⟩
  | fuel + 1, view, s, messages =>
    if view = [] then some ⟨s, messages, view, true, false⟩
    else match parse view with
      | .fault _ => none
      | .error _ => some ⟨{ s with shutdown := true }, messages, view, false, true⟩
      | .incomplete => some ⟨s, messages, view, true, false⟩
      | .message consumed m =>
        if consumed = 0 then some ⟨s, messages, view, true, false⟩
        else if view.length < consumed then none
        else match s.readControlled type messages m with
          | (s, messages, true) => parseLoop parse type fuel (view.drop consumed) s messages
          | (s, messages, false) => some ⟨s, messages, view.drop consumed, false, false⟩

/-- `read_more`. -/
def readMore (s : PeerActor μ) : PeerActor μ :=
  if s.rxBuff.length ≤ s.rxIdx then { s with shutdown := true } else { s with reading := true }

/-- The rest is moved to the front. -/
def compact (overlap : Bytes → Nat → Nat → Bytes) (s : PeerActor μ) (consumed left : Nat) :
    PeerActor μ :=
  if consumed = 0 then s
  else
    { s with
      rxIdx := left
      rxBuff := if left = 0 then s.rxBuff else memcpy overlap s.rxBuff consumed left }

/-- The messages of one read. -/
def forward (s : PeerActor μ) (messages : List μ) : PeerActor μ :=
  match s.controller, messages with
  | some controller, m :: messages => { s with sent := s.sent ++ [(controller, m :: messages)] }
  | _, _ => s

/-- `on_read`. -/
def onRead (parse : Bytes → Outcome μ η) (type : μ → MessageType)
    (overlap : Bytes → Nat → Nat → Bytes) (s : PeerActor μ) (bytes : Bytes) :
    Option (PeerActor μ) := do
  let s := s.receive bytes
  let p ← parseLoop parse type s.rxIdx s.kept s []
  if p.failed then return p.peer
  let s := p.peer.compact overlap (s.rxIdx - p.view.length) p.view.length
  let s := if p.readNext then s.readMore else s
  return s.forward p.messages

/-- `on_controller_up`; the moved queue is empty. -/
def onControllerUp (s : PeerActor μ) (controller : Nat) : PeerActor μ :=
  { s with
    controller := some controller
    receivedQueue := []
    sent := if s.receivedQueue = [] then s.sent else s.sent ++ [(controller, s.receivedQueue)] }

/-- A read has been asked for, and fills a part of the free room. -/
def Ready (s : PeerActor μ) (bytes : Bytes) : Prop :=
  s.reading = true ∧ bytes ≠ [] ∧ s.rxIdx + bytes.length ≤ s.rxBuff.length

instance (s : PeerActor μ) (bytes : Bytes) : Decidable (s.Ready bytes) :=
  inferInstanceAs (Decidable (_ ∧ _ ∧ _))

/-- One event. -/
def step (parse : Bytes → Outcome μ η) (type : μ → MessageType)
    (overlap : Bytes → Nat → Nat → Bytes) (s : PeerActor μ) : Event → Option (PeerActor μ)
  | .read bytes => if s.Ready bytes then s.onRead parse type overlap bytes else none
  | .controllerUp forMe controller => some (if forMe then s.onControllerUp controller else s)

/-- After the Hello. -/
def initial (μ : Type) (buff : Bytes) : PeerActor μ :=
  readMore ⟨buff, 0, none, [], false, false, [], []⟩

end PeerActor

/-! ## The stream -/

/-- The parser is exact on buffers of some size: it takes a whole message off the front, and
nothing off a part of one. -/
structure Exact (parse : Bytes → Outcome μ η) (encode : μ → Bytes) (size : Nat) : Prop where
  whole : ∀ m rest, (encode m ++ rest).length ≤ size →
    parse (encode m ++ rest) = .message (encode m).length (.plain m)
  part : ∀ m bytes, bytes <+: encode m → bytes ≠ encode m → bytes ≠ [] → bytes.length ≤ size →
    parse bytes = .incomplete
  nonempty : ∀ m, encode m ≠ []

/-- The complete messages at the front of the input, up to the first `Close`. -/
def complete (encode : μ → Bytes) (type : μ → MessageType) : List μ → Bytes → List μ
  | [], _ => []
  | m :: ms, input =>
    if encode m <+: input then
      if type m = .close then [m] else m :: complete encode type ms (input.drop (encode m).length)
    else []

/-- All that is read in a run. -/
def input : List Event → Bytes
  | [] => []
  | .read bytes :: es => bytes ++ input es
  | .controllerUp _ _ :: es => input es

/-- **The receive path**: the messages of the stream are handled in their order and once each, up
to the first `Close`, and as far as they are complete; the rest of the input is kept; and what
has to be forwarded has been sent or waits for the controller. -/
structure Received (encode : μ → Bytes) (type : μ → MessageType) (ms : List μ) (input : Bytes)
    (s : PeerActor μ) : Prop where
  inOrder : s.handled <+: ms
  rest : input = s.handled.flatMap encode ++ s.kept
  close : ∀ m ∈ s.handled.dropLast, type m ≠ .close
  stops : (∃ m, s.handled.getLast? = some m ∧ type m = .close) ∨
    ∀ m, ms[s.handled.length]? = some m → ¬ encode m <+: s.kept
  forwarded : s.sent.flatMap Prod.snd ++ s.receivedQueue = s.handled.filter (forwardable type)
  waiting : s.controller = none → s.sent = []
  direct : s.controller ≠ none → s.receivedQueue = []
  reading : s.reading = true ↔
    (∀ m ∈ s.handled, type m ≠ .close) ∧ s.rxIdx < s.rxBuff.length

/-- What is left of the input when the complete messages have been taken out. -/
def left (encode : μ → Bytes) (type : μ → MessageType) (ms : List μ) (view : Bytes) : Bytes :=
  view.drop ((complete encode type ms view).flatMap encode).length

/-- A read is possible. -/
def Possible (s : PeerActor μ) : Event → Prop
  | .read bytes => s.Ready bytes
  | .controllerUp _ _ => True

instance Possible.decidable (s : PeerActor μ) : ∀ e, Decidable (Possible s e)
  | .read bytes => inferInstanceAs (Decidable (s.Ready bytes))
  | .controllerUp _ _ => inferInstanceAs (Decidable True)

/-- **The condition**: nothing is taken out of the buffer, or the rest is not longer than it. -/
def Apart (encode : μ → Bytes) (type : μ → MessageType) (ms : List μ) (s : PeerActor μ) :
    Event → Prop
  | .read bytes =>
    complete encode type (ms.drop s.handled.length) (s.kept ++ bytes) = [] ∨
      (left encode type (ms.drop s.handled.length) (s.kept ++ bytes)).length ≤
        ((complete encode type (ms.drop s.handled.length) (s.kept ++ bytes)).flatMap encode).length
  | .controllerUp _ _ => True

instance Apart.decidable (encode : μ → Bytes) (type : μ → MessageType) (ms : List μ)
    (s : PeerActor μ) : ∀ e, Decidable (Apart encode type ms s e)
  | .read _ => inferInstanceAs (Decidable (_ = _ ∨ _ ≤ _))
  | .controllerUp _ _ => inferInstanceAs (Decidable True)

/-! ## One read -/

section Complete

variable {encode : μ → Bytes} {type : μ → MessageType} {ms : List μ} {m : μ} {view rest : Bytes}

theorem complete_nil_right (hne : ∀ m, encode m ≠ []) : complete encode type ms [] = [] := by
  cases ms with
  | nil => rfl
  | cons m ms => exact if_neg fun h => hne m (List.prefix_nil.mp h)

theorem complete_close (hclose : type m = .close) :
    complete encode type (m :: ms) (encode m ++ rest) = [m] := by
  rw [complete, if_pos (List.prefix_append _ _), if_pos hclose]

theorem complete_append (hclose : type m ≠ .close) :
    complete encode type (m :: ms) (encode m ++ rest) = m :: complete encode type ms rest := by
  rw [complete, if_pos (List.prefix_append _ _), if_neg hclose, List.drop_left]

theorem complete_part (h : ¬ encode m <+: view) : complete encode type (m :: ms) view = [] :=
  if_neg h

theorem prefix_of_complete : complete encode type ms view <+: ms := by
  induction ms generalizing view with
  | nil => exact List.nil_prefix
  | cons m ms ih =>
    rw [complete]
    split
    · split
      · exact ⟨ms, rfl⟩
      · exact (List.prefix_cons_inj m).mpr ih
    · exact List.nil_prefix

/-- The complete messages are at the front. -/
theorem flatMap_complete : (complete encode type ms view).flatMap encode ++ left encode type ms view =
    view := by
  induction ms generalizing view with
  | nil => rfl
  | cons m ms ih =>
    by_cases hm : encode m <+: view
    · obtain ⟨rest, rfl⟩ := hm
      unfold left
      by_cases hclose : type m = .close
      · rw [complete_close hclose, List.flatMap_singleton, List.drop_left]
      · rw [complete_append hclose, List.flatMap_cons, List.length_append, ← List.drop_drop,
          List.drop_left, List.append_assoc]
        exact congrArg _ ih
    · unfold left
      rw [complete_part hm]
      rfl

theorem left_append (hclose : type m ≠ .close) :
    left encode type (m :: ms) (encode m ++ rest) = left encode type ms rest := by
  unfold left
  rw [complete_append hclose, List.flatMap_cons, List.length_append, ← List.drop_drop, List.drop_left]

/-- Only the last one can be a `Close`. -/
theorem complete_dropLast : ∀ m ∈ (complete encode type ms view).dropLast, type m ≠ .close := by
  induction ms generalizing view with
  | nil => exact fun m hm => nomatch hm
  | cons m ms ih =>
    rw [complete]
    split
    · split
      · exact fun m hm => nomatch hm
      · rename_i hclose
        cases hrest : complete encode type ms (view.drop (encode m).length) with
        | nil => exact fun m hm => nomatch hm
        | cons m' ms' =>
          intro k hk
          rw [List.dropLast_cons_cons, List.mem_cons] at hk
          rcases hk with rfl | hk
          · exact hclose
          · exact ih k (hrest ▸ hk)
    · exact fun m hm => nomatch hm

/-- Without a `Close` they end where a message is not complete. -/
theorem complete_stops (hopen : ∀ m ∈ complete encode type ms view, type m ≠ .close)
    (h : ms[(complete encode type ms view).length]? = some m) :
    ¬ encode m <+: left encode type ms view := by
  induction ms generalizing view with
  | nil => cases h
  | cons k ms ih =>
    by_cases hk : encode k <+: view
    · obtain ⟨rest, rfl⟩ := hk
      by_cases hclose : type k = .close
      · rw [complete_close hclose] at hopen
        exact absurd hclose (hopen k (List.mem_singleton.mpr rfl))
      · rw [complete_append hclose] at hopen h
        rw [left_append hclose]
        exact ih (fun m hm => hopen m (.tail _ hm)) h
    · rw [complete_part hk] at h
      obtain rfl := Option.some.inj h
      unfold left
      rw [complete_part hk]
      exact hk

end Complete

namespace PeerActor

/-- The state when some messages have been handled. -/
def handling (s : PeerActor μ) (type : μ → MessageType) (ms : List μ) : PeerActor μ :=
  { s with
    handled := s.handled ++ ms
    receivedQueue := s.receivedQueue ++
      if s.controller = none then ms.filter (forwardable type) else []
    shutdown := s.shutdown || ms.any fun m => type m = .close }

/-- The ones that are sent at once. -/
def sending (s : PeerActor μ) (type : μ → MessageType) (ms : List μ) : List μ :=
  if s.controller = none then [] else ms.filter (forwardable type)

variable {type : μ → MessageType}

theorem handling_nil (s : PeerActor μ) : s.handling type [] = s := by
  unfold handling
  simp

theorem handling_cons (s : PeerActor μ) (m : μ) (ms : List μ) :
    (s.handling type [m]).handling type ms = s.handling type (m :: ms) := by
  unfold handling
  cases s.controller with
  | none => simp [List.filter_cons]; split <;> simp [Bool.or_assoc]
  | some c => simp [Bool.or_assoc]

theorem sending_cons (s : PeerActor μ) (m : μ) (ms : List μ) :
    s.sending type [m] ++ (s.handling type [m]).sending type ms = s.sending type (m :: ms) := by
  unfold sending handling
  cases s.controller with
  | none => rfl
  | some c => simp [List.filter_cons]; split <;> simp

theorem readControlled_plain (s : PeerActor μ) (messages : List μ) (m : μ) :
    s.readControlled type messages (Message.plain (η := η) m) =
      (s.handling type [m], messages ++ s.sending type [m], decide (type m ≠ .close)) := by
  unfold readControlled handling sending forwardable
  cases htype : type m <;> cases hc : s.controller <;> simp [htype]

/-- **The loop**: it handles what is complete, and leaves the rest. -/
theorem parseLoop_spec {parse : Bytes → Outcome μ η} {encode : μ → Bytes} {size : Nat}
    (hexact : Exact parse encode size) {ms : List μ} {view : Bytes} {fuel : Nat} (s : PeerActor μ)
    (messages : List μ) (hview : view <+: ms.flatMap encode) (hsize : view.length ≤ size)
    (hfuel : view.length ≤ fuel) :
    parseLoop parse type fuel view s messages =
      some ⟨s.handling type (complete encode type ms view),
        messages ++ s.sending type (complete encode type ms view), left encode type ms view,
        decide (∀ m ∈ complete encode type ms view, type m ≠ .close), false⟩ := by
  induction ms generalizing view fuel s messages with
  | nil =>
    obtain rfl := List.prefix_nil.mp hview
    have hsending : s.sending type [] = [] := by simp [sending]
    cases fuel <;> simp [parseLoop, complete, left, handling_nil, hsending]
  | cons m ms ih =>
    have hnil : s.sending type [] = [] := by simp [sending]
    rw [List.flatMap_cons] at hview
    by_cases hempty : view = []
    · subst hempty
      have hdone : complete encode type (m :: ms) [] = [] := complete_nil_right hexact.nonempty
      have hleft : left encode type (m :: ms) [] = [] := by rw [left, hdone]; rfl
      rw [hdone, hleft, hnil, handling_nil]
      cases fuel <;> simp [parseLoop]
    · obtain ⟨fuel, rfl⟩ : ∃ k, fuel = k + 1 :=
        ⟨fuel - 1, by have := List.length_pos_iff.mpr hempty; omega⟩
      rw [parseLoop, if_neg hempty]
      by_cases hm : encode m <+: view
      · -- a whole message is in front
        obtain ⟨rest, rfl⟩ := hm
        have hpos := List.length_pos_iff.mpr (hexact.nonempty m)
        rw [List.length_append] at hsize hfuel
        rw [hexact.whole m rest (by rw [List.length_append]; exact hsize)]
        dsimp only
        rw [if_neg (by omega), if_neg (by rw [List.length_append]; omega), readControlled_plain,
          List.drop_left]
        by_cases hclose : type m = .close
        · simp [hclose, complete_close, left]
        · have hrest : rest <+: ms.flatMap encode := (List.prefix_append_right_inj _).mp hview
          rw [decide_eq_true hclose]
          dsimp only
          rw [ih _ _ hrest (by omega) (by omega), complete_append hclose, left_append hclose,
            handling_cons, List.append_assoc, sending_cons]
          simp [hclose]
      · -- the message is cut
        have hpart : view <+: encode m :=
          (List.prefix_or_prefix_of_prefix hview (List.prefix_append _ _)).resolve_right hm
        have hne : view ≠ encode m := fun h => hm (h ▸ List.prefix_rfl)
        rw [hexact.part m view hpart hne hempty hsize]
        unfold left
        rw [complete_part hm, hnil, handling_nil]
        simp

theorem receive_kept {s : PeerActor μ} {bytes : Bytes} (h : s.rxIdx ≤ s.rxBuff.length) :
    (s.receive bytes).kept = s.kept ++ bytes := by
  have hlen : (s.rxBuff.take s.rxIdx ++ bytes).length = s.rxIdx + bytes.length := by
    rw [List.length_append, List.length_take, Nat.min_eq_left h]
  exact List.take_left' hlen

theorem receive_length {s : PeerActor μ} {bytes : Bytes}
    (h : s.rxIdx + bytes.length ≤ s.rxBuff.length) :
    (s.receive bytes).rxBuff.length = s.rxBuff.length := by
  simp only [receive, List.length_append, List.length_take, List.length_drop]
  omega

/-- What is kept is the end of what has been there, if the copy is right. -/
theorem compact_spec {overlap : Bytes → Nat → Nat → Bytes} {s : PeerActor μ} {taken left : Bytes}
    (hidx : s.rxIdx ≤ s.rxBuff.length) (hkept : s.kept = taken ++ left)
    (h : (taken = [] ∨ left.length ≤ taken.length) ∨ overlap = memmove) :
    ∃ buff, s.compact overlap taken.length left.length = { s with rxBuff := buff, rxIdx := left.length } ∧
      buff.length = s.rxBuff.length ∧ buff.take left.length = left := by
  have hlen : s.rxIdx = taken.length + left.length := by
    rw [← List.length_append, ← hkept, kept, List.length_take, Nat.min_eq_left hidx]
  unfold compact
  by_cases hnil : taken = []
  · subst hnil
    rw [List.nil_append] at hkept
    have hleft : left.length = s.rxIdx := by rw [hlen]; exact (Nat.zero_add _).symm
    refine ⟨s.rxBuff, ?_, rfl, by rw [hleft]; exact hkept⟩
    rw [if_pos List.length_nil, hleft]
  · rw [if_neg fun hzero => hnil (List.length_eq_zero_iff.mp hzero)]
    refine ⟨_, rfl, ?_⟩
    by_cases hzero : left.length = 0
    · rw [if_pos hzero, hzero, List.take_zero]
      exact ⟨rfl, (List.length_eq_zero_iff.mp hzero).symm⟩
    · have hcopy : memcpy overlap s.rxBuff taken.length left.length =
          memmove s.rxBuff taken.length left.length := by
        unfold memcpy
        rcases h with h | rfl
        · exact if_pos (h.resolve_left hnil)
        · exact ite_self _
      have hsub : (s.rxBuff.drop taken.length).take left.length = left := by
        have htake : (s.kept.drop taken.length) = left := by rw [hkept, List.drop_left]
        rw [← htake, kept, List.drop_take, hlen, Nat.add_sub_cancel_left]
        simp
      rw [if_neg hzero, hcopy, memmove, hsub]
      constructor
      · rw [List.length_append, List.length_drop]
        omega
      · exact List.take_left

theorem forward_eq (s : PeerActor μ) (messages : List μ) :
    ∃ sent, s.forward messages = { s with sent := s.sent ++ sent } ∧
      sent.flatMap Prod.snd = (if s.controller = none then [] else messages) ∧
      (s.controller = none → sent = []) := by
  obtain ⟨buff, idx, controller, queue, reading, shutdown, handled, sent⟩ := s
  cases controller with
  | none => exact ⟨[], by simp [forward], rfl, fun _ => rfl⟩
  | some c =>
    cases messages with
    | nil => exact ⟨[], by simp [forward], rfl, fun _ => rfl⟩
    | cons m ms => exact ⟨[(c, m :: ms)], rfl, by simp, fun h => nomatch h⟩

theorem readMore_eq (s : PeerActor μ) (next : Bool) (h : s.reading = false) :
    ∃ shutdown, (if next = true then s.readMore else s) =
      { s with reading := next && decide (s.rxIdx < s.rxBuff.length), shutdown := shutdown } := by
  obtain ⟨buff, idx, controller, queue, reading, shutdown, handled, sent⟩ := s
  cases next with
  | false => exact ⟨shutdown, by simp_all⟩
  | true =>
    unfold readMore
    by_cases hfull : buff.length ≤ idx
    · exact ⟨true, by simp_all⟩
    · exact ⟨shutdown, by simp_all⟩

/-- What one read has done: `done` has been taken out of the view, and `left` is kept. -/
structure Took (type : μ → MessageType) (s : PeerActor μ) (done : List μ) (left : Bytes)
    (s' : PeerActor μ) : Prop where
  kept : s'.kept = left
  fits : s'.rxIdx ≤ s'.rxBuff.length
  size : s'.rxBuff.length = s.rxBuff.length
  handled : s'.handled = s.handled ++ done
  controller : s'.controller = s.controller
  queue : s'.receivedQueue = s.receivedQueue ++
    if s.controller = none then done.filter (forwardable type) else []
  sent : s'.sent.flatMap Prod.snd = s.sent.flatMap Prod.snd ++ s.sending type done
  waiting : s.controller = none → s'.sent = s.sent
  reading : s'.reading = true ↔
    (∀ m ∈ done, type m ≠ .close) ∧ s'.rxIdx < s'.rxBuff.length

/-- **One read.** -/
theorem onRead_spec {parse : Bytes → Outcome μ η} {encode : μ → Bytes}
    {overlap : Bytes → Nat → Nat → Bytes} {s : PeerActor μ} {ms : List μ} {bytes : Bytes}
    (hexact : Exact parse encode s.rxBuff.length) (hfits : s.rxIdx + bytes.length ≤ s.rxBuff.length)
    (hview : s.kept ++ bytes <+: ms.flatMap encode)
    (h : (complete encode type ms (s.kept ++ bytes) = [] ∨
        (left encode type ms (s.kept ++ bytes)).length ≤
          ((complete encode type ms (s.kept ++ bytes)).flatMap encode).length) ∨
      overlap = memmove) :
    ∃ s', s.onRead parse type overlap bytes = some s' ∧
      Took type s (complete encode type ms (s.kept ++ bytes)) (left encode type ms (s.kept ++ bytes)) s' := by
  have hkept : (s.receive bytes).kept = s.kept ++ bytes := receive_kept (by omega)
  have hlen : (s.receive bytes).rxBuff.length = s.rxBuff.length := receive_length hfits
  have hidx : (s.receive bytes).rxIdx ≤ (s.receive bytes).rxBuff.length := hlen.symm ▸ hfits
  have hview_length : (s.kept ++ bytes).length = (s.receive bytes).rxIdx := by
    rw [← hkept, PeerActor.kept, List.length_take, Nat.min_eq_left hidx]
  have hsplit := @flatMap_complete _ encode type ms (s.kept ++ bytes)
  have hloop := @parseLoop_spec _ _ type _ _ _ hexact _ _ _ (s.receive bytes) [] hview
    (hview_length ▸ hlen ▸ hidx) (Nat.le_of_eq hview_length)
  generalize complete encode type ms (s.kept ++ bytes) = done at *
  generalize left encode type ms (s.kept ++ bytes) = rest at *
  have htaken : (s.receive bytes).rxIdx - rest.length = (done.flatMap encode).length := by
    rw [← hview_length, ← hsplit, List.length_append, Nat.add_sub_cancel]
  obtain ⟨buff, hcompact, hbuff, htake⟩ := @compact_spec _ overlap
    ((s.receive bytes).handling type done) (done.flatMap encode) rest hidx (hkept.trans hsplit.symm)
    (h.imp_left fun h => h.imp_left fun h => by rw [h]; rfl)
  obtain ⟨shutdown, hmore⟩ := readMore_eq
    { (s.receive bytes).handling type done with rxBuff := buff, rxIdx := rest.length }
    (decide (∀ m ∈ done, type m ≠ .close)) rfl
  obtain ⟨sent, hforward, hsent, hnone⟩ := forward_eq
    { (s.receive bytes).handling type done with
      rxBuff := buff
      rxIdx := rest.length
      reading := decide (∀ m ∈ done, type m ≠ .close) && decide (rest.length < buff.length)
      shutdown := shutdown } ((s.receive bytes).sending type done)
  have hrun : s.onRead parse type overlap bytes = some
      { (s.receive bytes).handling type done with
        rxBuff := buff
        rxIdx := rest.length
        reading := decide (∀ m ∈ done, type m ≠ .close) && decide (rest.length < buff.length)
        shutdown := shutdown
        sent := s.sent ++ sent } := by
    unfold onRead
    dsimp only
    rw [hkept, hloop]
    dsimp only [Option.bind_eq_bind, Option.bind_some]
    rw [if_neg Bool.false_ne_true, htaken, hcompact, hmore, List.nil_append, hforward]
    rfl
  have hrest : rest.length ≤ buff.length := by
    rw [hbuff]
    refine Nat.le_trans ?_ hidx
    rw [← hview_length, ← hsplit, List.length_append]
    exact Nat.le_add_left _ _
  refine ⟨_, hrun, htake, hrest, hbuff.trans hlen, rfl, rfl, rfl, ?_, fun hc => ?_, by simp⟩
  · have hsend : (if s.controller = none then [] else s.sending type done) = s.sending type done := by
      unfold sending
      split <;> rfl
    rw [List.flatMap_append]
    exact congrArg _ (hsent.trans hsend)
  · rw [hnone hc]
    exact List.append_nil _

end PeerActor

/-! ## Runs -/

section Runs

variable {parse : Bytes → Outcome μ η} {encode : μ → Bytes} {type : μ → MessageType}
  {overlap : Bytes → Nat → Nat → Bytes} {ms : List μ} {inp : Bytes}

/-- The buffer keeps its size, and what is received fits into it. -/
structure Fits (size : Nat) (s : PeerActor μ) : Prop where
  fits : s.rxIdx ≤ s.rxBuff.length
  size : s.rxBuff.length = size

/-- Nothing of the input is lost, so the stream goes on with what is kept. -/
theorem Received.view_prefix {s : PeerActor μ} {bytes : Bytes} (h : Received encode type ms inp s)
    (hstream : inp ++ bytes <+: ms.flatMap encode) :
    s.kept ++ bytes <+: (ms.drop s.handled.length).flatMap encode := by
  obtain ⟨todo, rfl⟩ := h.inOrder
  rw [List.drop_left]
  rw [h.rest, List.append_assoc, List.flatMap_append] at hstream
  exact (List.prefix_append_right_inj _).mp hstream

/-- A read keeps it. -/
theorem Received.took {s s' : PeerActor μ} {bytes : Bytes} (h : Received encode type ms inp s)
    (hreading : s.reading = true)
    (htook : PeerActor.Took type s (complete encode type (ms.drop s.handled.length) (s.kept ++ bytes))
      (left encode type (ms.drop s.handled.length) (s.kept ++ bytes)) s') :
    Received encode type ms (inp ++ bytes) s' := by
  have hopen := (h.reading.mp hreading).1
  obtain ⟨todo, rfl⟩ := h.inOrder
  rw [List.drop_left] at htook
  have hprefix := @prefix_of_complete _ encode type todo (s.kept ++ bytes)
  have hsplit := @flatMap_complete _ encode type todo (s.kept ++ bytes)
  have hlast := @complete_dropLast _ encode type todo (s.kept ++ bytes)
  have hstops := fun m hopen => @complete_stops _ encode type todo m (s.kept ++ bytes) hopen
  generalize complete encode type todo (s.kept ++ bytes) = done at *
  generalize left encode type todo (s.kept ++ bytes) = rest at *
  constructor
  · rw [htook.handled]
    exact (List.prefix_append_right_inj _).mpr hprefix
  · rw [htook.handled, htook.kept, h.rest, List.flatMap_append, List.append_assoc, List.append_assoc,
      hsplit]
  · rw [htook.handled]
    intro m hm
    by_cases hnil : done = []
    · rw [hnil, List.append_nil] at hm
      exact hopen m (List.dropLast_subset _ hm)
    · rw [List.dropLast_append_of_ne_nil hnil, List.mem_append] at hm
      exact hm.elim (hopen m) (hlast m)
  · rw [htook.handled, htook.kept]
    by_cases hclose : ∀ m ∈ done, type m ≠ .close
    · refine .inr fun m hm => hstops m hclose ?_
      rwa [List.length_append, List.getElem?_append_right (Nat.le_add_right _ _),
        Nat.add_sub_cancel_left] at hm
    · -- the `Close` is the last one
      simp only [not_forall, not_not] at hclose
      obtain ⟨m, hm, hclose⟩ := hclose
      have hne := List.ne_nil_of_mem hm
      rw [← List.dropLast_append_getLast hne, List.mem_append, List.mem_singleton] at hm
      have heq := hm.resolve_left fun hm => hlast m hm hclose
      refine .inl ⟨m, ?_, hclose⟩
      rw [List.getLast?_append_of_ne_nil _ hne, List.getLast?_eq_getLast_of_ne_nil hne, heq]
  · rw [htook.sent, htook.queue, htook.handled, List.filter_append, ← h.forwarded]
    unfold PeerActor.sending
    split
    · rw [List.append_nil, List.append_assoc]
    · rename_i hc
      rw [h.direct hc, List.append_nil, List.append_nil, List.append_nil]
  · intro hc
    rw [htook.controller] at hc
    rw [htook.waiting hc, h.waiting hc]
  · intro hc
    rw [htook.controller] at hc
    rw [htook.queue, h.direct hc, if_neg hc, List.append_nil]
  · rw [htook.reading, htook.handled]
    refine and_congr_left' ⟨fun hdone m hm => ?_, fun hall m hm => hall m (List.mem_append_right _ hm)⟩
    exact (List.mem_append.mp hm).elim (hopen m) (hdone m)

theorem Received.controllerUp {s : PeerActor μ} {controller : Nat} (h : Received encode type ms inp s) :
    Received encode type ms inp (s.onControllerUp controller) where
  inOrder := h.inOrder
  rest := h.rest
  close := h.close
  stops := h.stops
  forwarded := by
    rw [PeerActor.onControllerUp, List.append_nil, ← h.forwarded]
    dsimp only
    split
    · rename_i hnil
      rw [hnil, List.append_nil]
    · rw [List.flatMap_append, List.flatMap_singleton]
  waiting := nofun
  direct _ := rfl
  reading := h.reading

/-- **A step.** -/
theorem Received.step {s : PeerActor μ} {e : Event} (hexact : Exact parse encode s.rxBuff.length)
    (h : Received encode type ms inp s) (hfits : s.rxIdx ≤ s.rxBuff.length)
    (hstream : inp ++ input [e] <+: ms.flatMap encode) (hpossible : Possible s e)
    (hcopy : Apart encode type ms s e ∨ overlap = memmove) :
    ∃ s', s.step parse type overlap e = some s' ∧ Received encode type ms (inp ++ input [e]) s' ∧
      Fits s.rxBuff.length s' := by
  cases e with
  | read bytes =>
    rw [input, input, List.append_nil] at hstream ⊢
    obtain ⟨s', hread, htook⟩ := PeerActor.onRead_spec hexact hpossible.2.2
      (h.view_prefix hstream) hcopy
    exact ⟨s', (if_pos hpossible).trans hread, h.took hpossible.1 htook, htook.fits, htook.size⟩
  | controllerUp forMe controller =>
    rw [input, input, List.append_nil]
    cases forMe with
    | true => exact ⟨_, rfl, h.controllerUp, hfits, rfl⟩
    | false => exact ⟨_, rfl, h, hfits, rfl⟩

theorem input_cons (e : Event) (es : List Event) : input (e :: es) = input [e] ++ input es := by
  cases e <;> simp [input]

/-- A run in which the copies are right. -/
theorem Received.exec {cond : PeerActor μ → Event → Prop} {size : Nat}
    (hexact : Exact parse encode size)
    (hcond : ∀ s e, cond s e → Possible s e ∧ (Apart encode type ms s e ∨ overlap = memmove))
    {events : List Event} {s : PeerActor μ} (h : Received encode type ms inp s) (hfits : Fits size s)
    (hstream : inp ++ input events <+: ms.flatMap encode)
    (hmeets : Run.Meets (PeerActor.step parse type overlap) cond s events) :
    ∃ s', Run.exec (PeerActor.step parse type overlap) s events = some s' ∧
      Received encode type ms (inp ++ input events) s' := by
  induction events generalizing s inp with
  | nil => exact ⟨s, rfl, by rwa [input, List.append_nil]⟩
  | cons e es ih =>
    rw [input_cons, ← List.append_assoc] at hstream ⊢
    have hfirst := (List.prefix_append _ _).trans hstream
    obtain ⟨hpossible, hcopy⟩ := hcond s e hmeets.1
    obtain ⟨t, ht, hreceived, hfits'⟩ := h.step (hfits.size ▸ hexact) hfits.fits hfirst hpossible hcopy
    obtain ⟨s', hexec, hs'⟩ := ih hreceived (hfits.size ▸ hfits') hstream (hmeets.2 t ht)
    refine ⟨s', ?_, hs'⟩
    show (PeerActor.step parse type overlap s e).bind _ = _
    rw [ht]
    exact hexec

theorem received_initial {buff : Bytes} (hne : ∀ m, encode m ≠ []) :
    Received encode type ms [] (PeerActor.initial μ buff) ∧
      Fits buff.length (PeerActor.initial μ buff) := by
  unfold PeerActor.initial PeerActor.readMore
  constructor
  · split <;> refine ⟨List.nil_prefix, rfl, nofun, .inr fun m _ hm => hne m (List.prefix_nil.mp hm), rfl,
      fun _ => rfl, fun h => absurd rfl h, ?_⟩
    · rename_i hfull
      exact iff_of_false Bool.false_ne_true fun h => absurd h.2 (Nat.not_lt.mpr hfull)
    · rename_i hroom
      exact iff_of_true rfl ⟨nofun, Nat.not_le.mp hroom⟩
  · split <;> exact ⟨Nat.zero_le _, rfl⟩

/-- **The receive path does not depend on how the stream is cut**, if no rest is copied over
itself: the run does not stop, and what has been handled, forwarded and kept is determined by the
input. -/
theorem received_of_run (ms : List μ) (buff : Bytes) (events : List Event)
    (hexact : Exact parse encode buff.length) (hstream : input events <+: ms.flatMap encode)
    (hmeets : Run.Meets (PeerActor.step parse type overlap)
      (fun s e => Possible s e ∧ Apart encode type ms s e) (PeerActor.initial μ buff) events) :
    ∃ s, Run.exec (PeerActor.step parse type overlap) (PeerActor.initial μ buff) events = some s ∧
      Received encode type ms (input events) s := by
  obtain ⟨hreceived, hfits⟩ := @received_initial _ _ type ms buff hexact.nonempty
  exact hreceived.exec hexact (fun _ _ h => ⟨h.1, .inl h.2⟩) hfits hstream hmeets

/-- With `memmove` it does not in any run. -/
theorem received_of_moves (ms : List μ) (buff : Bytes) (events : List Event)
    (hexact : Exact parse encode buff.length) (hstream : input events <+: ms.flatMap encode)
    (hmeets : Run.Meets (PeerActor.step parse type memmove) Possible (PeerActor.initial μ buff) events) :
    ∃ s, Run.exec (PeerActor.step parse type memmove) (PeerActor.initial μ buff) events = some s ∧
      Received encode type ms (input events) s := by
  obtain ⟨hreceived, hfits⟩ := @received_initial _ _ type ms buff hexact.nonempty
  exact hreceived.exec hexact (fun _ _ h => ⟨h, .inr rfl⟩) hfits hstream hmeets

end Runs

/-! ## Packets -/

/-- `parse_bep`, if a message that has been cut were incomplete wherever the cut is. -/
def parseWhole (C : Codec μ η) (buff : Bytes) : Outcome μ η :=
  match parseBep C buff with
  | .fault _ => .incomplete
  | outcome => outcome

/-- It is exact on buffers of less than two gigabytes. -/
theorem exact_parseWhole {C : Codec μ η} (hC : C.Lawful) {compression : Compression}
    {encode : μ → Bytes} (hencode : ∀ m, serialize C m compression = some (encode m)) {size : Nat}
    (hsize : size < 2 ^ 31) : Exact (parseWhole C) encode size := by
  constructor
  · intro m rest hlen
    obtain ⟨content, -, hpacket, hparse⟩ := serialize_spec hC (hencode m)
    have hheader := hC.length_encodeHeader m compression
    have hshort : ¬ ((encode m ++ rest).length < 4 ∨ toInt (encode m ++ rest).length <
        2 + (C.encodeHeader (C.header m compression)).length) := by
      rw [toInt_of_lt (by omega), List.length_append, hpacket, length_packet]
      omega
    unfold parseWhole
    rw [parseBep_of_cut hheader (hC.decodeHeader_encodeHeader m compression)
      (show encode m ++ rest <+: C.packet (C.header m compression) content ++ rest from
        hpacket ▸ List.prefix_rfl), if_neg hshort, hparse rest]
  · intro m bytes hbytes hne _ _
    obtain ⟨content, hcontent, hpacket, -⟩ := serialize_spec hC (hencode m)
    have hheader := hC.length_encodeHeader m compression
    rw [hpacket] at hbytes hne
    unfold parseWhole
    rw [@parseBep_of_cut _ _ _ _ _ [] _ hheader (hC.decodeHeader_encodeHeader m compression)
      (by rwa [List.append_nil])]
    split_ifs
    · rfl
    · rw [parseContent_of_cut hcontent hbytes hne]
      split_ifs <;> rfl
  · intro m hnil
    obtain ⟨content, -, hpacket, -⟩ := serialize_spec hC (hencode m)
    have hlen := length_packet C (C.header m compression) content
    rw [← hpacket, hnil, List.length_nil] at hlen
    omega

/-- A message as a packet that is not compressed. -/
def rawPacket (m : MessageType × { bytes : Bytes // bytes.length < 2 ^ 31 }) : Bytes :=
  rawCodec.packet (rawCodec.header m .never) (rawCodec.encode m)

theorem exact_rawPacket {size : Nat} (hsize : size < 2 ^ 31) :
    Exact (parseWhole rawCodec) rawPacket size :=
  exact_parseWhole rawCodec_lawful
    (fun m => if_neg (by simp [Codec.compresses] : ¬ rawCodec.compresses m .never = true)) hsize

/-- A Ping, and an index with eight bytes. -/
def pingAndIndex : List (MessageType × { bytes : Bytes // bytes.length < 2 ^ 31 }) :=
  [(.ping, ⟨[], Bep.noBytes_fit⟩), (.index, ⟨[1, 2, 3, 4, 5, 6, 7, 8], by decide⟩)]

/-- The index is cut behind its size; the controller comes up before its end. -/
theorem received_before_and_after : ∃ s, Run.exec
    (PeerActor.step (parseWhole rawCodec) rawCodec.type fun buff _ _ => buff)
      (PeerActor.initial _ (List.replicate 64 0))
      [.read ((pingAndIndex.flatMap rawPacket).take 20), .controllerUp true 7,
        .read ((pingAndIndex.flatMap rawPacket).drop 20)] = some s ∧
    Received rawPacket rawCodec.type pingAndIndex
      (input [.read ((pingAndIndex.flatMap rawPacket).take 20), .controllerUp true 7,
        .read ((pingAndIndex.flatMap rawPacket).drop 20)]) s :=
  received_of_run pingAndIndex (List.replicate 64 0) _ (exact_rawPacket (by decide)) (by decide)
    (by decide)

/-- A copy that begins at the end. -/
def copyBackward (buff : Bytes) (src n : Nat) : Bytes :=
  (List.range n).reverse.foldl (fun buff i => buff.set i (buff.getD (src + i) 0)) buff

/-- The first fourteen bytes of the index come with the Ping, and are copied over themselves. -/
theorem garbled_by_copy :
    (Run.exec (PeerActor.step (parseWhole rawCodec) rawCodec.type copyBackward)
      (PeerActor.initial _ (List.replicate 64 0))
      [.read ((pingAndIndex.flatMap rawPacket).take 24)]).map PeerActor.kept =
        some [1, 2, 3, 4, 0x10, 0, 0, 0, 0, 8, 1, 2, 3, 4] ∧
    ¬ ∀ (overlap : Bytes → Nat → Nat → Bytes)
        (ms : List (MessageType × { bytes : Bytes // bytes.length < 2 ^ 31 })) (buff : Bytes)
        (events : List Event), Exact (parseWhole rawCodec) rawPacket buff.length →
        input events <+: ms.flatMap rawPacket →
        Run.Meets (PeerActor.step (parseWhole rawCodec) rawCodec.type overlap) Possible
          (PeerActor.initial _ buff) events →
        ∃ s, Run.exec (PeerActor.step (parseWhole rawCodec) rawCodec.type overlap)
          (PeerActor.initial _ buff) events = some s ∧
            Received rawPacket rawCodec.type ms (input events) s := by
  have hkept : (Run.exec (PeerActor.step (parseWhole rawCodec) rawCodec.type copyBackward)
      (PeerActor.initial _ (List.replicate 64 0))
      [.read ((pingAndIndex.flatMap rawPacket).take 24)]).map PeerActor.kept =
        some [1, 2, 3, 4, 0x10, 0, 0, 0, 0, 8, 1, 2, 3, 4] := by decide
  refine ⟨hkept, fun hall => ?_⟩
  obtain ⟨s, hs, hreceived⟩ := hall copyBackward pingAndIndex (List.replicate 64 0)
    [.read ((pingAndIndex.flatMap rawPacket).take 24)] (exact_rawPacket (by decide)) (by decide)
    (by decide)
  rw [hs] at hkept
  have hend : s.kept <:+ (pingAndIndex.flatMap rawPacket).take 24 :=
    ⟨_, hreceived.rest.symm.trans (List.append_nil _)⟩
  rw [Option.some.inj hkept] at hend
  exact absurd hend (by decide)

end Receive

end SyncSpirit
