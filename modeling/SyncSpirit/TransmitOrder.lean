import SyncSpirit.Proto
import SyncSpirit.Lib.Run

/-!
# The transmit path of a connection (`net/peer_actor.cpp`)

`peer_actor_t` hands one buffer at a time to the transport. What is pushed meanwhile waits in `tx_queue`, and as long
as the last item there is small, a buffer is appended to it. The shutdown clears the queue and pushes the Close
message, which is marked as the final item: nothing is handed over after it.

What is pushed after that is still queued. It is not sent, unless the Close message waits behind a write: then it is
the last item of the queue, small, and the buffer is appended to it (`ordered_of_run`, `late_data_behind_close`).
-/

namespace SyncSpirit

namespace Transmit

/-- `MAX_TX_CHUNK`. -/
def maxTxChunk : Nat := 1024 * 1024

/-- `tx_item_t`. -/
structure TxItem where
  buff : Bytes
  final : Bool
  deriving DecidableEq, Repr

/-- `peer_actor_t`, as far as it writes. `writing` is the resource `io_write`. What has been handed to the transport
is remembered, with what has been pushed before the shutdown and the Close message. -/
structure PeerActor where
  txItem : Option TxItem
  txQueue : List TxItem
  ioError : Bool
  finished : Bool
  writing : Bool
  handed : List Bytes
  pushed : List Bytes
  closing : Option Bytes
  deriving DecidableEq, Repr

/-- What happens to it: data come, from the controller or as the Hello at the start; a write is complete; an
operation of the transport fails; it has to shut down. -/
inductive Event where
  | transfer (data : Bytes)
  | written
  | ioError (write : Bool)
  | shutdown (close : Bytes)
  deriving DecidableEq, Repr

namespace PeerActor

/-- `process_tx_queue`; `none` is a failed assertion. -/
def processTxQueue (s : PeerActor) : Option PeerActor :=
  if s.finished then some s
  else if s.txItem.isSome then none
  else match s.txQueue with
    | [] => some s
    | item :: queue =>
      let s := { s with txItem := some item, txQueue := queue }
      if item.buff ≠ [] then some { s with writing := true, handed := s.handed ++ [item.buff] }
      else if item.final then some { s with finished := true }
      else none

/-- The last item of the queue, if a buffer is appended to it. -/
def mergeInto (s : PeerActor) (final : Bool) : Option TxItem :=
  if ¬ final ∧ s.txItem.isSome then s.txQueue.getLast?.filter fun last => last.buff.length < maxTxChunk else none

/-- `push_write`. -/
def pushWrite (s : PeerActor) (buff : Bytes) (final : Bool) : Option PeerActor :=
  if s.ioError then some s
  else match s.mergeInto final with
    | some last => some { s with txQueue := s.txQueue.dropLast ++ [{ last with buff := last.buff ++ buff }] }
    | none =>
      let s := { s with txQueue := s.txQueue ++ [(⟨buff, final⟩ : TxItem)] }
      if s.txItem.isNone then s.processTxQueue else some s

/-- `on_write`. -/
def onWrite (s : PeerActor) : Option PeerActor :=
  s.txItem.bind fun item =>
    if item.final then some { s with writing := false }
    else { s with writing := false, txItem := none }.processTxQueue

/-- `on_transfer`. -/
def onTransfer (s : PeerActor) (data : Bytes) : Option PeerActor :=
  { s with pushed := if s.closing.isNone then s.pushed ++ [data] else s.pushed }.pushWrite data false

/-- `shutdown_start`. -/
def shutdownStart (s : PeerActor) (close : Bytes) : Option PeerActor :=
  { s with txQueue := [], closing := some close }.pushWrite close true

/-- One event. A write completes or fails only if there is one, and there is one shutdown. -/
def step (s : PeerActor) : Event → Option PeerActor
  | .transfer data => s.onTransfer data
  | .written => if s.writing then s.onWrite else none
  | .ioError write => if write ∧ ¬ s.writing then none
    else some { s with ioError := true, writing := s.writing && !write }
  | .shutdown close => if s.closing.isNone then s.shutdownStart close else none

/-- Before the Hello. -/
def initial : PeerActor := ⟨none, [], false, false, false, [], [], none⟩

end PeerActor

/-! ## The order -/

/-- Before the shutdown, the transport has got the first of the pushed buffers, and the others wait in the queue.
Afterwards it has got the first of them, with or without the Close message, and nothing else. -/
def Ordered (s : PeerActor) : Prop :=
  ∃ n, (s.handed.flatten = (s.pushed.take n).flatten ∧
      (s.closing = none → s.ioError = false → (s.txQueue.map TxItem.buff).flatten = (s.pushed.drop n).flatten)) ∨
    ∃ c, s.closing = some c ∧ s.handed.flatten = (s.pushed.take n).flatten ++ c

/-- No data come while a short Close message is the last item that waits. -/
def Clear (s : PeerActor) : Event → Prop
  | .transfer data => data = [] ∨ s.ioError = true ∨
      ∀ last ∈ s.txQueue.getLast?, last.final = true → maxTxChunk ≤ last.buff.length
  | .written | .ioError _ | .shutdown _ => True

instance (s : PeerActor) (e : Event) : Decidable (Clear s e) :=
  match e with
  | .transfer data => inferInstanceAs (Decidable (data = [] ∨ s.ioError = true ∨ _))
  | .written | .ioError _ | .shutdown _ => inferInstanceAs (Decidable True)

/-- No buffer is empty, a write completes or fails only if there is one, and there is one shutdown. -/
def Possible (s : PeerActor) : Event → Prop
  | .transfer data => data ≠ []
  | .written => s.writing = true
  | .ioError write => write = true → s.writing = true
  | .shutdown close => close ≠ [] ∧ s.closing = none

/-- Before the shutdown: every item of the queue is some of the pushed buffers. -/
structure Open (s : PeerActor) : Prop where
  closing : s.closing = none
  finished : s.finished = false
  item : ∀ item ∈ s.txItem, item.final = false
  idle : s.txItem = none → s.txQueue = []
  writing : s.writing = true → s.txItem ≠ none
  parts : ∃ (sent : List Bytes) (groups : List (List Bytes)) (ignored : List Bytes),
    s.pushed = sent ++ (groups.flatten ++ ignored) ∧ s.handed.flatten = sent.flatten ∧
    s.txQueue = groups.map (fun group => ⟨group.flatten, false⟩) ∧ (s.ioError = false → ignored = [])

/-- The Close message is next, or it is not sent at all because of an error. -/
structure Waiting (s : PeerActor) (c : Bytes) : Prop where
  closing : s.closing = some c
  finished : s.finished = false
  item : ∀ item ∈ s.txItem, item.final = false
  writing : s.writing = true → s.txItem ≠ none
  handed : ∃ n, s.handed.flatten = (s.pushed.take n).flatten
  queue : s.ioError = true ∧ s.txQueue = [] ∨ s.txItem ≠ none ∧ ∃ later, s.txQueue = ⟨c, true⟩ :: later

/-- The Close message has been handed over. -/
structure Closed (s : PeerActor) (c : Bytes) : Prop where
  closing : s.closing = some c
  item : s.txItem = some ⟨c, true⟩
  handed : ∃ n, s.handed.flatten = (s.pushed.take n).flatten ++ c

/-- The three phases. -/
inductive Good (s : PeerActor) : Prop
  | opened (h : Open s)
  | waiting (c : Bytes) (h : Waiting s c)
  | closed (c : Bytes) (h : Closed s c)

theorem Good.ordered {s : PeerActor} (h : Good s) : Ordered s := by
  cases h with
  | opened h =>
    obtain ⟨sent, groups, ignored, hpushed, hhanded, hqueue, hignored⟩ := h.parts
    refine ⟨sent.length, .inl ⟨?_, fun _ herror => ?_⟩⟩
    · rw [hhanded, hpushed, List.take_left]
    · rw [hpushed, List.drop_left, hignored herror, List.append_nil, hqueue, List.map_map, List.flatten_flatten]
      rfl
  | waiting c h =>
    obtain ⟨n, hn⟩ := h.handed
    exact ⟨n, .inl ⟨hn, fun hnone => absurd (h.closing.symm.trans hnone) (by simp)⟩⟩
  | closed c h =>
    obtain ⟨n, hn⟩ := h.handed
    exact ⟨n, .inr ⟨c, h.closing, hn⟩⟩

/-! ## One event -/

namespace PeerActor

variable {s s' : PeerActor}

/-- A queue that is not empty: its first item is handed over, or it was the last one of all. -/
theorem processTxQueue_cons {item : TxItem} {queue : List TxItem} (h : s.processTxQueue = some s')
    (hfinished : s.finished = false) (hitem : s.txItem = none) (hqueue : s.txQueue = item :: queue) :
    item.buff ≠ [] ∧ s' = { s with
        txItem := some item, txQueue := queue, writing := true, handed := s.handed ++ [item.buff] } ∨
      item.buff = [] ∧ item.final = true ∧
        s' = { s with txItem := some item, txQueue := queue, finished := true } := by
  rw [processTxQueue, hfinished, hitem, hqueue] at h
  simp only [Bool.false_eq_true, if_false, Option.isSome_none] at h
  split at h
  · exact .inl ⟨‹_›, by rw [← Option.some.inj h, hfinished]⟩
  · split at h
    · exact .inr ⟨not_not.mp ‹_›, ‹_›, (Option.some.inj h).symm⟩
    · cases h

theorem processTxQueue_nil (h : s.processTxQueue = some s') (hfinished : s.finished = false)
    (hitem : s.txItem = none) (hqueue : s.txQueue = []) : s' = s := by
  rw [processTxQueue, hfinished, hitem, hqueue] at h
  exact (Option.some.inj h).symm

theorem mergeInto_eq_some {final : Bool} {last : TxItem} : s.mergeInto final = some last ↔
    final = false ∧ s.txItem ≠ none ∧ s.txQueue.getLast? = some last ∧ last.buff.length < maxTxChunk := by
  unfold mergeInto
  cases final <;> cases s.txItem <;> simp [Option.filter_eq_some_iff]

/-- **What a push does**: nothing after an error; else the buffer is appended to the last item of the queue, it
becomes a new item, or it is the only one and goes on its way. -/
theorem pushWrite_cases {buff : Bytes} {final : Bool} (h : s.pushWrite buff final = some s') :
    s.ioError = true ∧ s' = s ∨
      s.ioError = false ∧
        ((∃ last, s.mergeInto final = some last ∧
            s' = { s with txQueue := s.txQueue.dropLast ++ [{ last with buff := last.buff ++ buff }] }) ∨
          s.txItem ≠ none ∧ s' = { s with txQueue := s.txQueue ++ [⟨buff, final⟩] } ∨
          s.txItem = none ∧
            processTxQueue { s with txQueue := s.txQueue ++ [⟨buff, final⟩] } = some s') := by
  unfold pushWrite at h
  split at h
  · exact .inl ⟨‹_›, (Option.some.inj h).symm⟩
  · refine .inr ⟨Bool.eq_false_iff.mpr ‹_›, ?_⟩
    split at h
    · rename_i last hlast
      exact .inl ⟨last, hlast, (Option.some.inj h).symm⟩
    · cases hitem : s.txItem with
      | none =>
        simp only [hitem, Option.isNone_none, if_true] at h
        exact .inr (.inr ⟨rfl, h⟩)
      | some item =>
        simp only [hitem, Option.isNone_some, Bool.false_eq_true, if_false] at h
        exact .inr (.inl ⟨Option.some_ne_none item, (Option.some.inj h).symm⟩)

end PeerActor

section Steps

variable {s s' : PeerActor} {c : Bytes}

/-- Data before the shutdown. -/
theorem Open.transfer (h : Open s) {data : Bytes} (hstep : s.onTransfer data = some s') : Open s' := by
  obtain ⟨sent, groups, ignored, hpushed, hhanded, hqueue, hignored⟩ := h.parts
  have hstep : PeerActor.pushWrite { s with pushed := s.pushed ++ [data] } data false = some s' := by
    rwa [PeerActor.onTransfer, if_pos (Option.isNone_iff_eq_none.mpr h.closing)] at hstep
  rcases PeerActor.pushWrite_cases hstep with ⟨herror, rfl⟩ | ⟨herror, ⟨last, hlast, rfl⟩ | ⟨hitem, rfl⟩ | ⟨hitem, hnext⟩⟩
  · -- it is dropped, as everything after it will be
    refine ⟨h.closing, h.finished, h.item, h.idle, h.writing, sent, groups, ignored ++ [data], ?_, hhanded, hqueue,
      fun hno => absurd (herror.symm.trans hno) (by decide)⟩
    show s.pushed ++ [data] = _
    rw [hpushed]
    simp only [List.append_assoc]
  · -- it joins the group of the last item
    obtain ⟨-, hitem, hget, -⟩ := PeerActor.mergeInto_eq_some.mp hlast
    obtain ⟨init, hinit⟩ := List.getLast?_eq_some_iff.mp hget
    have hmap : groups.map (fun group => (⟨group.flatten, false⟩ : TxItem)) = init ++ [last] := hqueue.symm.trans hinit
    obtain ⟨gs, g, rfl, hgs, hg⟩ := List.map_eq_append_iff.mp hmap
    obtain ⟨g, rfl, rfl⟩ := List.map_eq_singleton_iff.mp hg
    refine ⟨h.closing, h.finished, h.item, fun hnone => absurd hnone hitem, h.writing, sent, gs ++ [g ++ [data]], [],
      ?_, hhanded, ?_, fun _ => rfl⟩
    · show s.pushed ++ [data] = _
      rw [hpushed, hignored herror]
      simp
    · show s.txQueue.dropLast ++ [_] = _
      rw [show s.txQueue = init ++ [_] from hinit, List.dropLast_concat, ← hgs]
      simp
  · -- it is a group of its own
    refine ⟨h.closing, h.finished, h.item, fun hnone => absurd hnone hitem, h.writing, sent, groups ++ [[data]], [], ?_,
      hhanded, ?_, fun _ => rfl⟩
    · show s.pushed ++ [data] = _
      rw [hpushed, hignored herror]
      simp
    · show s.txQueue ++ [_] = _
      rw [hqueue]
      simp
  · -- it is the only one
    have hnil : s.txQueue = [] := h.idle hitem
    have hempty : groups = [] := List.map_eq_nil_iff.mp (hqueue.symm.trans hnil)
    have hcons : s.txQueue ++ [⟨data, false⟩] = [(⟨data, false⟩ : TxItem)] := by rw [hnil, List.nil_append]
    rcases PeerActor.processTxQueue_cons hnext h.finished hitem hcons with ⟨-, rfl⟩ | ⟨-, hfinal, -⟩
    · refine ⟨h.closing, h.finished, ?_, fun hnone => absurd hnone (Option.some_ne_none _),
        fun _ => Option.some_ne_none _, sent ++ [data], [], [], ?_, ?_, rfl, fun _ => rfl⟩
      · intro item hitem
        cases hitem
        rfl
      · show s.pushed ++ [data] = _
        rw [hpushed, hempty, hignored herror]
        simp
      · show (s.handed ++ [data]).flatten = _
        rw [List.flatten_append, hhanded, List.flatten_append]
    · cases hfinal

/-- A write is complete before the shutdown: the next item is handed over. -/
theorem Open.written (h : Open s) (hstep : s.onWrite = some s') : Open s' := by
  obtain ⟨sent, groups, ignored, hpushed, hhanded, hqueue, hignored⟩ := h.parts
  obtain ⟨item, hitem, hnext⟩ := Option.bind_eq_some_iff.mp hstep
  rw [h.item item hitem] at hnext
  have hnext : PeerActor.processTxQueue { s with writing := false, txItem := none } = some s' := hnext
  cases groups with
  | nil =>
    rw [PeerActor.processTxQueue_nil hnext h.finished rfl hqueue]
    exact ⟨h.closing, h.finished, fun item hitem => (by cases hitem), fun _ => hqueue,
      fun hwriting => (by cases hwriting), sent, [], ignored, hpushed, hhanded, hqueue, hignored⟩
  | cons g gs =>
    rcases PeerActor.processTxQueue_cons hnext h.finished rfl hqueue with ⟨-, rfl⟩ | ⟨-, hfinal, -⟩
    · refine ⟨h.closing, h.finished, ?_, fun hnone => absurd hnone (Option.some_ne_none _),
        fun _ => Option.some_ne_none _, sent ++ g, gs, ignored, ?_, ?_, rfl, hignored⟩
      · intro item hitem
        cases hitem
        rfl
      · show s.pushed = _
        rw [hpushed]
        simp
      · show (s.handed ++ [g.flatten]).flatten = _
        rw [List.flatten_append, hhanded, List.flatten_append]
        simp
    · cases hfinal

/-- The shutdown. -/
theorem Open.shutdown (h : Open s) (hstep : s.shutdownStart c = some s') : Good s' := by
  obtain ⟨sent, groups, ignored, hpushed, hhanded, -⟩ := h.parts
  have htaken : s.handed.flatten = (s.pushed.take sent.length).flatten := by
    rw [hhanded, hpushed, List.take_left]
  rcases PeerActor.pushWrite_cases hstep with ⟨herror, rfl⟩ | ⟨-, ⟨last, hlast, -⟩ | ⟨hitem, rfl⟩ | ⟨hitem, hnext⟩⟩
  · exact .waiting c ⟨rfl, h.finished, h.item, h.writing, ⟨sent.length, htaken⟩, .inl ⟨herror, rfl⟩⟩
  · cases (PeerActor.mergeInto_eq_some.mp hlast).1
  · exact .waiting c ⟨rfl, h.finished, h.item, h.writing, ⟨sent.length, htaken⟩, .inr ⟨hitem, [], rfl⟩⟩
  · refine .closed c ?_
    rcases PeerActor.processTxQueue_cons hnext h.finished hitem rfl with ⟨-, rfl⟩ | ⟨hempty, -, rfl⟩
    · refine ⟨rfl, rfl, sent.length, ?_⟩
      show (s.handed ++ [c]).flatten = _
      rw [List.flatten_append, htaken]
      simp
    · have hempty : c = [] := hempty
      exact ⟨rfl, rfl, sent.length, by rw [hempty, List.append_nil]; exact htaken⟩

/-- Data after the shutdown wait behind the Close message, if they are not appended to it. -/
theorem Waiting.transfer (h : Waiting s c) {data : Bytes} (hclear : Clear s (.transfer data))
    (hstep : s.onTransfer data = some s') : Waiting s' c := by
  have hstep : s.pushWrite data false = some s' := by
    rwa [PeerActor.onTransfer, if_neg (by simp [h.closing])] at hstep
  rcases PeerActor.pushWrite_cases hstep with ⟨-, rfl⟩ | ⟨herror, ⟨last, hlast, rfl⟩ | ⟨hitem, rfl⟩ | ⟨hitem, -⟩⟩
  · exact h
  · obtain ⟨-, hitem, hget, hsmall⟩ := PeerActor.mergeInto_eq_some.mp hlast
    rcases h.queue with ⟨herror', -⟩ | ⟨-, later, hqueue⟩
    · exact absurd (herror'.symm.trans herror) (by decide)
    · refine ⟨h.closing, h.finished, h.item, h.writing, h.handed, .inr ⟨hitem, ?_⟩⟩
      show ∃ later, s.txQueue.dropLast ++ [_] = _
      rw [hqueue] at hget ⊢
      cases later with
      | nil =>
        cases hget
        rcases hclear with rfl | herror' | hlarge
        · exact ⟨[], by simp⟩
        · exact absurd (herror'.symm.trans herror) (by decide)
        · have := hlarge ⟨c, true⟩ (by simp [hqueue]) rfl
          exact absurd hsmall (by simpa using this)
      | cons item later => exact ⟨_, rfl⟩
  · rcases h.queue with ⟨herror', -⟩ | ⟨-, later, hqueue⟩
    · exact absurd (herror'.symm.trans herror) (by decide)
    · refine ⟨h.closing, h.finished, h.item, h.writing, h.handed, .inr ⟨hitem, later ++ [⟨data, false⟩], ?_⟩⟩
      show s.txQueue ++ [_] = _
      rw [hqueue, List.cons_append]
  · rcases h.queue with ⟨herror', -⟩ | ⟨hsome, -⟩
    · exact absurd (herror'.symm.trans herror) (by decide)
    · exact absurd hitem hsome

/-- The write in front of the Close message is complete. -/
theorem Waiting.written (h : Waiting s c) (hstep : s.onWrite = some s') : Good s' := by
  obtain ⟨n, hn⟩ := h.handed
  obtain ⟨item, hitem, hnext⟩ := Option.bind_eq_some_iff.mp hstep
  rw [h.item item hitem] at hnext
  have hnext : PeerActor.processTxQueue { s with writing := false, txItem := none } = some s' := hnext
  rcases h.queue with ⟨herror, hnil⟩ | ⟨-, later, hqueue⟩
  · rw [PeerActor.processTxQueue_nil hnext h.finished rfl hnil]
    exact .waiting c ⟨h.closing, h.finished, fun item hitem => (by cases hitem), fun hwriting => (by cases hwriting),
      ⟨n, hn⟩, .inl ⟨herror, hnil⟩⟩
  · refine .closed c ?_
    rcases PeerActor.processTxQueue_cons hnext h.finished rfl hqueue with ⟨-, rfl⟩ | ⟨hempty, -, rfl⟩
    · refine ⟨h.closing, rfl, n, ?_⟩
      show (s.handed ++ [c]).flatten = _
      rw [List.flatten_append, hn]
      simp
    · have hempty : c = [] := hempty
      exact ⟨h.closing, rfl, n, by rw [hempty, List.append_nil]; exact hn⟩

/-- Nothing leaves the queue once the Close message has. -/
theorem Closed.transfer (h : Closed s c) {data : Bytes} (hstep : s.onTransfer data = some s') : Closed s' c := by
  have hstep : s.pushWrite data false = some s' := by
    rwa [PeerActor.onTransfer, if_neg (by simp [h.closing])] at hstep
  rcases PeerActor.pushWrite_cases hstep with ⟨-, rfl⟩ | ⟨-, ⟨last, -, rfl⟩ | ⟨-, rfl⟩ | ⟨hitem, -⟩⟩
  · exact h
  · exact ⟨h.closing, h.item, h.handed⟩
  · exact ⟨h.closing, h.item, h.handed⟩
  · exact absurd (h.item.symm.trans hitem) (Option.some_ne_none _)

theorem Closed.written (h : Closed s c) (hstep : s.onWrite = some s') : Closed s' c := by
  rw [PeerActor.onWrite, h.item] at hstep
  cases hstep
  exact ⟨h.closing, rfl, h.handed⟩

/-- An operation fails: what has been handed over and what waits stay as they are. -/
theorem Good.ioError (h : Good s) {write : Bool} :
    Good { s with ioError := true, writing := s.writing && !write } := by
  have hwriting (h : s.writing = true → s.txItem ≠ none) : (s.writing && !write) = true → s.txItem ≠ none := fun hand =>
    h (Bool.and_eq_true_iff.mp hand).1
  cases h with
  | opened h =>
    obtain ⟨sent, groups, ignored, hpushed, hhanded, hqueue, -⟩ := h.parts
    exact .opened ⟨h.closing, h.finished, h.item, h.idle, hwriting h.writing, sent, groups, ignored, hpushed, hhanded,
      hqueue, fun hno => by cases hno⟩
  | waiting c h =>
    exact .waiting c ⟨h.closing, h.finished, h.item, hwriting h.writing, h.handed,
      h.queue.imp_left fun hqueue => ⟨rfl, hqueue.2⟩⟩
  | closed c h => exact .closed c ⟨h.closing, h.item, h.handed⟩

/-- **One event.** -/
theorem Good.step (h : Good s) {e : Event} (hclear : Clear s e) (hstep : s.step e = some s') : Good s' := by
  cases e with
  | transfer data =>
    cases h with
    | opened h => exact .opened (h.transfer hstep)
    | waiting c h => exact .waiting c (h.transfer hclear hstep)
    | closed c h => exact .closed c (h.transfer hstep)
  | written =>
    obtain ⟨-, hstep⟩ := Option.ite_none_right_eq_some.mp hstep
    cases h with
    | opened h => exact .opened (h.written hstep)
    | waiting c h => exact h.written hstep
    | closed c h => exact .closed c (h.written hstep)
  | ioError write =>
    obtain ⟨-, hstep⟩ := Option.ite_none_left_eq_some.mp hstep
    rw [← Option.some.inj hstep]
    exact h.ioError
  | shutdown close =>
    obtain ⟨hnone, hstep⟩ := Option.ite_none_right_eq_some.mp hstep
    have hnone := Option.isNone_iff_eq_none.mp hnone
    cases h with
    | opened h => exact h.shutdown hstep
    | waiting c h => exact absurd (h.closing.symm.trans hnone) (Option.some_ne_none _)
    | closed c h => exact absurd (h.closing.symm.trans hnone) (Option.some_ne_none _)

end Steps

/-! ## Runs -/

/-- No item of the queue is empty. -/
def Filled (s : PeerActor) : Prop := ∀ item ∈ s.txQueue, item.buff ≠ []

section Runs

variable {s : PeerActor}

theorem Filled.processTxQueue (h : Filled s) (hitem : s.txItem = none) :
    ∃ s', s.processTxQueue = some s' ∧ Filled s' := by
  unfold PeerActor.processTxQueue
  split
  · exact ⟨s, rfl, h⟩
  · rw [if_neg (by simp [hitem])]
    split
    · exact ⟨s, rfl, h⟩
    · rename_i item queue hqueue
      have hall : ∀ item' ∈ item :: queue, item'.buff ≠ [] := hqueue ▸ h
      rw [if_pos (hall item (List.mem_cons_self ..))]
      exact ⟨_, rfl, fun item' hmem => hall item' (List.mem_cons_of_mem _ hmem)⟩

theorem Filled.pushWrite (h : Filled s) {buff : Bytes} (hbuff : buff ≠ []) (final : Bool) :
    ∃ s', s.pushWrite buff final = some s' ∧ Filled s' := by
  have hpushed : Filled { s with txQueue := s.txQueue ++ [⟨buff, final⟩] } := by
    intro item hmem
    rcases List.mem_append.mp hmem with hmem | hmem
    · exact h item hmem
    · rw [List.mem_singleton.mp hmem]
      exact hbuff
  unfold PeerActor.pushWrite
  split
  · exact ⟨s, rfl, h⟩
  · split
    · refine ⟨_, rfl, fun item hmem => ?_⟩
      rcases List.mem_append.mp hmem with hmem | hmem
      · exact h item (List.mem_of_mem_dropLast hmem)
      · rw [List.mem_singleton.mp hmem]
        exact List.append_ne_nil_of_right_ne_nil _ hbuff
    · dsimp only
      split
      · exact hpushed.processTxQueue (Option.isNone_iff_eq_none.mp ‹_›)
      · exact ⟨_, rfl, hpushed⟩

theorem Good.item_of_writing (h : Good s) (hwriting : s.writing = true) : s.txItem ≠ none := by
  cases h with
  | opened h => exact h.writing hwriting
  | waiting c h => exact h.writing hwriting
  | closed c h =>
    rw [h.item]
    exact Option.some_ne_none _

/-- An event that is possible is handled. -/
theorem Filled.step (h : Filled s) (hgood : Good s) {e : Event} (hpossible : Possible s e) :
    ∃ s', s.step e = some s' ∧ Filled s' := by
  cases e with
  | transfer data =>
    have hpushed : Filled { s with pushed := if s.closing.isNone then s.pushed ++ [data] else s.pushed } := h
    exact hpushed.pushWrite hpossible false
  | written =>
    obtain ⟨item, hitem⟩ := Option.ne_none_iff_exists'.mp (hgood.item_of_writing hpossible)
    have hnext : Filled { s with writing := false, txItem := none } := h
    simp only [PeerActor.step, if_pos (show s.writing = true from hpossible), PeerActor.onWrite, hitem, Option.bind_some]
    split
    · exact ⟨_, rfl, h⟩
    · exact hnext.processTxQueue rfl
  | ioError write =>
    refine ⟨_, if_neg fun hno => ?_, h⟩
    exact hno.2 (hpossible hno.1)
  | shutdown close =>
    have hempty : Filled { s with txQueue := [], closing := some close } := fun item hmem => by cases hmem
    simp only [PeerActor.step, if_pos (Option.isNone_iff_eq_none.mpr hpossible.2)]
    exact hempty.pushWrite hpossible.1 true

theorem good_initial : Good PeerActor.initial :=
  .opened ⟨rfl, rfl, fun item hitem => (by cases hitem), fun _ => rfl, fun hwriting => (by cases hwriting), [], [], [],
    rfl, rfl, rfl, fun _ => rfl⟩

/-- **Transmit order.** In every run in which no data come while a short Close message is the last item that waits,
every state is ordered; and the run does not stop. -/
theorem ordered_of_run {events : List Event} (hclear : Run.Meets PeerActor.step Clear PeerActor.initial events) :
    (∀ s, Run.exec PeerActor.step PeerActor.initial events = some s → Ordered s) ∧
      (Run.Meets PeerActor.step Possible PeerActor.initial events →
        ∃ s, Run.exec PeerActor.step PeerActor.initial events = some s) := by
  constructor
  · intro s hs
    have hgood : Good s := Run.exec_inv (fun _ _ _ h hclear hstep => h.step hclear hstep) good_initial hclear hs
    exact hgood.ordered
  · intro hpossible
    obtain ⟨s, hs, -⟩ := Run.exec_total
      (fun s e (h : Good s ∧ Filled s) (hcond : Clear s e ∧ Possible s e) => by
        obtain ⟨s', hs', hfilled⟩ := h.2.step h.1 hcond.2
        exact ⟨s', hs', h.1.step hcond.1 hs', hfilled⟩)
      ⟨good_initial, fun item hmem => by cases hmem⟩ (hclear.and hpossible)
    exact ⟨s, hs⟩

end Runs

/-- Two buffers, the first of which is written before the shutdown, and one that comes late. -/
def closedInTime : List Event :=
  [.transfer [1], .transfer [2], .written, .shutdown [9], .written, .transfer [3], .written]

theorem ordered_of_closedInTime : ∃ s, Run.exec PeerActor.step PeerActor.initial closedInTime = some s ∧
    Ordered s ∧ s.handed = [[1], [2], [9]] := by
  have hclear : Run.Meets PeerActor.step Clear PeerActor.initial closedInTime := by decide +kernel
  have hhanded : (Run.exec PeerActor.step PeerActor.initial closedInTime).map PeerActor.handed = some [[1], [2], [9]] := by
    decide +kernel
  obtain ⟨s, hs, hhanded⟩ := Option.map_eq_some_iff.mp hhanded
  exact ⟨s, hs, (ordered_of_run hclear).1 s hs, hhanded⟩

/-- The late buffer comes while the Close message waits behind a write. -/
def closedBehindWrite : List Event := [.transfer [1], .shutdown [9], .transfer [3], .written]

/-- It is sent, in one piece with the Close message. -/
theorem late_data_behind_close : ∃ s, Run.exec PeerActor.step PeerActor.initial closedBehindWrite = some s ∧
    s.handed = [[1], [9, 3]] ∧ ¬ Ordered s := by
  have hrun : (Run.exec PeerActor.step PeerActor.initial closedBehindWrite).map
      (fun s => (s.handed, s.pushed, s.closing)) = some ([[1], [9, 3]], [[1]], some [9]) := by
    decide +kernel
  obtain ⟨s, hs, hvalues⟩ := Option.map_eq_some_iff.mp hrun
  obtain ⟨hhanded, hvalues⟩ := Prod.mk.inj hvalues
  obtain ⟨hpushed, hclosing⟩ := Prod.mk.inj hvalues
  refine ⟨s, hs, hhanded, ?_⟩
  rintro ⟨n, h⟩
  have hlen : ((s.pushed.take n).flatten).length ≤ 1 := by
    rw [hpushed]
    cases n <;> simp
  rw [hhanded] at h
  rcases h with ⟨heq, -⟩ | ⟨c, hc, heq⟩
  · have hlength : 3 = (s.pushed.take n).flatten.length := congrArg List.length heq
    omega
  · obtain rfl : [9] = c := Option.some.inj (hclosing.symm.trans hc)
    have hlength : 3 = ((s.pushed.take n).flatten ++ [9]).length := congrArg List.length heq
    rw [List.length_append, List.length_singleton] at hlength
    omega

end Transmit

end SyncSpirit
