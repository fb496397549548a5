import SyncSpirit.AdvanceContent
import SyncSpirit.Lib.Quota

/-!
# Pushing the index (`net/controller_actor.cpp`)

A controller sends its own files to the peer as they change. What has been sent and is not written yet is counted in
`outgoing_buffer`, which the controller shares with the actor of the peer (`close`, `onWrite`). `pushPending` takes
files from the updates streamer as long as their estimated size is below what the counter leaves free of
`outgoing_buffer_max`.

Other messages are counted too, and nothing limits them: an answer with a block may take the counter above the
maximum. What is left free is then an unsigned difference below zero, which is huge.

- `pushPending_spec`: the files that are taken, and the messages that are made of them;
- `bounded_iff`: when the free space limits what is taken.
-/

namespace SyncSpirit

namespace IndexPush

/-- `file_info_t::expected_meta_size`. -/
def expectedMetaSize (f : FileInfo) : Nat :=
  f.name.utf8ByteSize + 1 + 8 + 4 + 8 + 4 + 8 + 3 + 8 + 4 + f.version.counters.length * 16 +
    if f.isFile then f.slots.length * (8 + 4 + 4 + 32) else (Store.linkTarget f).utf8ByteSize

/-- What `updates_streamer_t::next` yields: a file with its record (`as_proto`), the folder, and whether it is the
first one of the folder. -/
structure Pending where
  file : FileInfo
  record : Proto.FileInfo
  folder : String
  first : Bool
  deriving DecidableEq

/-- `update_t` of `push_pending`: the message for one folder, an `Index` if it is the first one. -/
structure Update where
  folder : String
  files : List Proto.FileInfo
  first : Bool
  deriving DecidableEq

/-- The updates to come, the counter and its maximum, what the context has collected for the peer, and what has been
handed to the peer's actor. -/
structure Actor where
  streaming : Bool
  connected : Bool
  outgoingBuffer : UInt32
  outgoingBufferMax : UInt32
  pending : List Pending
  peerData : Bytes
  sent : List Bytes
  deriving DecidableEq

/-- `get_update` and the file that goes into it. -/
def addFile (p : Pending) : List Update → List Update
  | [] => [⟨p.folder, [p.record], p.first⟩]
  | u :: us =>
    if u.folder = p.folder then { u with files := u.files ++ [p.record], first := u.first || p.first } :: us
    else u :: addFile p us

/-- The loop of `push_pending`. -/
def drain (free : UInt32) : UInt32 → List Update → List Pending → List Update × List Pending
  | _, updates, [] => (updates, [])
  | expected, updates, p :: ps =>
    if expected < free then drain free (expected + .ofNat (expectedMetaSize p.file)) (addFile p updates) ps
    else (updates, p :: ps)

namespace Actor

variable (serialize : Update → Bytes)

/-- `stack_context_t::push` of a message. -/
def push (a : Actor) (data : Bytes) : Actor := { a with peerData := a.peerData ++ data }

/-- `push_pending`. -/
def pushPending (a : Actor) : Actor :=
  if a.streaming && a.connected then
    let (updates, rest) := drain (a.outgoingBufferMax - a.outgoingBuffer) 0 [] a.pending
    let messages := updates.filter fun u => u.files ≠ []
    { (messages.foldl (fun a u => a.push (serialize u)) a) with pending := rest }
  else a

/-- `~stack_context_t`, as to the peer. -/
def close (a : Actor) : Actor :=
  if a.peerData = [] then a
  else if a.connected then { a with
    outgoingBuffer := a.outgoingBuffer + .ofNat a.peerData.length
    peerData := []
    sent := a.sent ++ [a.peerData] }
  else { a with peerData := [] }

/-- `peer_actor_t::on_write`: what has been written is not counted any more. -/
def onWrite (a : Actor) (size : UInt64) : Actor :=
  { a with outgoingBuffer := a.outgoingBuffer - min size.toUInt32 a.outgoingBuffer }

end Actor

/-! ## What is taken -/

/-- The estimated size of a file that waits. -/
def size (p : Pending) : Nat := expectedMetaSize p.file

/-- What is taken from the streamer. -/
def taken (free expected : UInt32) (pending : List Pending) : List Pending :=
  Quota.reachMod size (2 ^ 32) free.toNat expected.toNat pending

theorem drain_eq (free expected : UInt32) (updates : List Update) (pending : List Pending) :
    drain free expected updates pending = ((taken free expected pending).foldl (fun us p => addFile p us) updates,
      pending.drop (taken free expected pending).length) := by
  induction pending generalizing expected updates with
  | nil => rfl
  | cons p ps ih =>
    have hnext : (expected + .ofNat (size p)).toNat = (expected.toNat + size p) % 2 ^ 32 := by
      rw [UInt32.toNat_add, UInt32.toNat_ofNat', Nat.add_mod_mod]
    unfold drain taken Quota.reachMod
    by_cases hlt : expected < free
    · rw [if_pos hlt, if_pos (UInt32.lt_iff_toNat_lt.mp hlt), ← hnext, List.foldl_cons, List.length_cons,
        List.drop_succ_cons]
      exact ih ..
    · rw [if_neg hlt, if_neg (mt UInt32.lt_iff_toNat_lt.mpr hlt)]
      rfl

/-- The space that is left free, as a difference that does not wrap around. -/
def freeSpace (a : Actor) : Nat := a.outgoingBufferMax.toNat - a.outgoingBuffer.toNat

/-- The estimated size of some files. -/
def estimated (ps : List Pending) : Nat := (ps.map size).sum

/-- Nothing is taken if nothing is free. Else every file is taken while the files before it leave something free, and
if some of them stay, the ones that are taken reach the free space. -/
def Bounded (a : Actor) (rest : List Pending) : Prop :=
  ∃ taken, a.pending = taken ++ rest ∧ (a.outgoingBufferMax ≤ a.outgoingBuffer → taken = []) ∧
    (∀ before p after, taken = before ++ p :: after → estimated before < freeSpace a) ∧
      (a.streaming = true → a.connected = true → a.outgoingBuffer < a.outgoingBufferMax →
        freeSpace a ≤ estimated taken ∨ rest = [])

/-- **What `push_pending` does**: it takes files as long as the counter is below the difference, and makes one
message for each of their folders. -/
theorem pushPending_spec (serialize : Update → Bytes) {a : Actor} (hstreaming : a.streaming = true)
    (hconnected : a.connected = true) :
    ∃ ps, ps = taken (a.outgoingBufferMax - a.outgoingBuffer) 0 a.pending ∧
      a.pending = ps ++ (a.pushPending serialize).pending ∧
      (a.pushPending serialize).peerData =
        a.peerData ++ ((ps.foldl (fun us p => addFile p us) []).filter fun u => u.files ≠ []).flatMap serialize := by
  have hpeerData (us : List Update) (b : Actor) :
      (us.foldl (fun a u => a.push (serialize u)) b).peerData = b.peerData ++ us.flatMap serialize := by
    induction us generalizing b with
    | nil => exact (List.append_nil _).symm
    | cons u us ih =>
      rw [List.foldl_cons, ih, List.flatMap_cons, ← List.append_assoc]
      rfl
  obtain ⟨ps, hps⟩ : ∃ ps, ps = taken (a.outgoingBufferMax - a.outgoingBuffer) 0 a.pending := ⟨_, rfl⟩
  obtain ⟨rest, hrest⟩ : ps <+: a.pending := hps ▸ Quota.reachMod_isPrefix size (2 ^ 32)
  refine ⟨ps, hps, ?_, ?_⟩
  · rw [Actor.pushPending, hstreaming, hconnected]
    simp only [drain_eq, Bool.and_self, if_true, ← hps]
    rw [← hrest, List.drop_left]
  · rw [Actor.pushPending, hstreaming, hconnected]
    simp only [drain_eq, Bool.and_self, if_true, ← hps]
    exact hpeerData _ _

theorem pushPending_of_idle (serialize : Update → Bytes) {a : Actor}
    (h : ¬ (a.streaming = true ∧ a.connected = true)) : a.pushPending serialize = a := by
  rw [Actor.pushPending, if_neg]
  rwa [Bool.and_eq_true]

/-- The bound is that of a quota. -/
theorem bounded_iff_stops {a : Actor} {ps rest : List Pending} (hpending : a.pending = ps ++ rest)
    (hstreaming : a.streaming = true) (hconnected : a.connected = true) :
    Bounded a rest ↔ Quota.Stops size (freeSpace a) ps a.pending := by
  have hfull (h : a.outgoingBufferMax ≤ a.outgoingBuffer) : freeSpace a = 0 :=
    Nat.sub_eq_zero_of_le (UInt32.le_iff_toNat_le.mp h)
  constructor
  · rintro ⟨taken, htaken, -, hbelow, hreached⟩
    obtain rfl : taken = ps := List.append_cancel_right (htaken.symm.trans hpending)
    refine ⟨⟨rest, hpending.symm⟩, hbelow, ?_⟩
    by_cases hlt : a.outgoingBuffer < a.outgoingBufferMax
    · refine (hreached hstreaming hconnected hlt).imp_right fun hnil => ?_
      rw [hpending, hnil, List.append_nil]
    · rw [hfull (UInt32.not_lt.mp hlt)]
      exact .inl (Nat.zero_le _)
  · intro h
    refine ⟨ps, hpending, fun hle => ?_, h.below, fun _ _ _ => h.reached.imp_right fun hall => ?_⟩
    · cases ps with
      | nil => rfl
      | cons p ps =>
        have hlt := h.below [] p ps rfl
        rw [hfull hle] at hlt
        exact absurd hlt (Nat.not_lt_zero _)
    · rw [hpending] at hall
      exact List.append_right_eq_self.mp hall.symm

/-- **Back-pressure.** What is left free limits what is taken exactly when nothing waits, or the counter is not above
the maximum and the estimated sizes up to the free space do not take the sum around. -/
theorem bounded_iff (serialize : Update → Bytes) (a : Actor) :
    Bounded a (a.pushPending serialize).pending ↔
      ¬ (a.streaming = true ∧ a.connected = true) ∨ a.pending = [] ∨
        a.outgoingBuffer ≤ a.outgoingBufferMax ∧ (Quota.reach size (freeSpace a) a.pending = a.pending ∨
          freeSpace a ≤ estimated (Quota.reach size (freeSpace a) a.pending) % 2 ^ 32) := by
  by_cases hactive : a.streaming = true ∧ a.connected = true
  · obtain ⟨ps, hps, hpending, -⟩ := pushPending_spec serialize hactive.1 hactive.2
    rw [bounded_iff_stops hpending hactive.1 hactive.2]
    have hreach : Quota.Stops size (freeSpace a) ps a.pending ↔ ps = Quota.reach size (freeSpace a) a.pending :=
      ⟨fun h => h.eq_reach, fun h => h ▸ Quota.stops_reach size⟩
    rw [hreach, or_iff_right (not_not.mpr hactive)]
    by_cases hle : a.outgoingBuffer ≤ a.outgoingBufferMax
    · have hfree : (a.outgoingBufferMax - a.outgoingBuffer).toNat = freeSpace a := UInt32.toNat_sub_of_le _ _ hle
      have hlt : freeSpace a < 2 ^ 32 := hfree ▸ UInt32.toNat_lt _
      rw [hps, taken, hfree, UInt32.toNat_zero, Quota.reachMod_eq_reach_iff size _ hlt]
      constructor
      · exact fun h => .inr ⟨hle, h⟩
      · rintro (hnil | ⟨-, h⟩)
        · rw [hnil]
          exact .inl rfl
        · exact h
    · -- the difference is below zero, and the counter starts below what it wraps around to
      have hmax : a.outgoingBufferMax.toNat < a.outgoingBuffer.toNat := by
        rwa [UInt32.le_iff_toNat_le, Nat.not_le] at hle
      have hzero : freeSpace a = 0 := Nat.sub_eq_zero_of_le hmax.le
      have hpos : 0 < (a.outgoingBufferMax - a.outgoingBuffer).toNat := by
        rw [UInt32.toNat_sub]
        have := UInt32.toNat_lt a.outgoingBuffer
        omega
      have hnil : Quota.reach size 0 a.pending = [] := by cases a.pending <;> rfl
      rw [hps, hzero, hnil, taken, UInt32.toNat_zero, Quota.reachMod_eq_nil_iff]
      constructor
      · rintro (hempty | hle')
        · exact .inl hempty
        · omega
      · rintro (hempty | ⟨hle', -⟩)
        · exact .inl hempty
        · exact absurd hle' hle
  · refine iff_of_true ?_ (.inl hactive)
    rw [pushPending_of_idle serialize hactive]
    exact ⟨[], rfl, fun _ => rfl, fun before p after h => by simp at h,
      fun hstreaming hconnected => absurd ⟨hstreaming, hconnected⟩ hactive⟩

/-- Three files wait, and the peer has asked for a block. -/
def answering : Actor where
  streaming := true
  connected := true
  outgoingBuffer := 0
  outgoingBufferMax := 100
  pending := ["a", "b", "c"].map fun name => ⟨{ (default : FileInfo) with name := name }, default, "docs", false⟩
  peerData := []
  sent := []

/-- The answer takes the counter above the maximum, and all files are taken. -/
theorem drained_above_maximum : let a := (answering.push (List.replicate 101 0)).close
    a.outgoingBuffer = 101 ∧ (a.pushPending fun _ => [1]).pending = [] ∧
      ¬ Bounded a (a.pushPending fun _ => [1]).pending := by
  have hbuffer : (answering.push (List.replicate 101 0)).close.outgoingBuffer = 101 := by decide +kernel
  have hempty : ((answering.push (List.replicate 101 0)).close.pushPending fun _ => [1]).pending = [] := by
    decide +kernel
  refine ⟨hbuffer, hempty, ?_⟩
  rintro ⟨taken, hpending, hfull, -⟩
  have hnil : taken = [] := hfull (by decide +kernel)
  rw [hempty, hnil] at hpending
  exact absurd hpending (by decide +kernel)

end IndexPush

end SyncSpirit
