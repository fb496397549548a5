import SyncSpirit.PeerRequests

/-!
# Every request of a peer is answered once

`Sound` is what holds while contexts are open: `pending` are the reads that are neither in the queue nor with the
file system, and `peerData` the answers that have not been sent. `Served` is what it says between two handlers.
Every handler keeps it if the requests it gets are `Within` (`Server.Served.step`), and `served_of_run` is the result for
all runs.
-/

namespace SyncSpirit

namespace PeerRequests

open BlockOffset (Request)

/-! ## What has been said in the log -/

namespace Entry

/-- The answer to the peer. -/
def answer : Entry → Option Response
  | .refused req code true => some ⟨req.id, code, []⟩
  | .finished r (.data bytes) true => some ⟨r.request.id, .noBepError, bytes⟩
  | .finished r _ true => some ⟨r.request.id, .generic, []⟩
  | _ => none

/-- An answer could be sent, if one was due. -/
def connected : Entry → Bool
  | .refused _ _ connected => connected
  | .accepted _ => true
  | .finished _ _ connected => connected

/-- A request that has been accepted. -/
def asAccepted : Entry → Option BlockRequest
  | .accepted r => some r
  | _ => none

/-- A read that is back. -/
def asFinished : Entry → Option BlockRequest
  | .finished r _ _ => some r
  | _ => none

/-- A read is within the file, and one that is back has not allocated more than a block. -/
def Bounded : Entry → Prop
  | .refused _ _ _ => True
  | .accepted r => r.Bounded
  | .finished r outcome _ => ∃ blockSize ∈ r.source.blockSize, (outcome.allocated : Int) ≤ blockSize.toInt

end Entry

namespace Server

/-- The reads with the file system. -/
def inFlight (s : Server) : List BlockRequest := s.fsRequests.flatMap reads

/-- What holds while contexts are open. -/
structure Sound (s : Server) (pending : List BlockRequest) (peerData : List Response) : Prop where
  counted : s.txBlocksRequested.toNat = s.inFlight.length + pending.length
  limited : s.txBlocksRequested.toNat ≤ s.maxBlockRead.toNat + 1
  once : (s.log.filterMap Entry.asAccepted).Perm
    (s.blockReadQueue ++ s.inFlight ++ pending ++ s.log.filterMap Entry.asFinished)
  answers : s.transferred ++ peerData = s.log.filterMap Entry.answer
  silent : s.connected = false → peerData = []
  connected : s.connected = true → ∀ e ∈ s.log, e.connected = true
  bounded : ∀ e ∈ s.log, e.Bounded

/-- **A peer is served**: the counter is the number of reads that are sent and not back, and there are never more than
the limit allows; each request that has been accepted is waiting, or being read, or answered; the peer has got exactly
the answers of the log, and while it is there no answer is missing; every read is within the file; and a request
waits only if the limit is reached. -/
structure Served (s : Server) : Prop where
  sound : s.Sound [] []
  waiting : s.phase = .operational → s.blockReadQueue ≠ [] → s.maxBlockRead < s.txBlocksRequested

end Server

/-! ## The queue -/

theorem toNat_maxBlockRead (s : Server) : s.maxBlockRead.toNat = s.blocksMaxRequested.toNat * 3 := by
  have hlt := s.blocksMaxRequested.toNat_lt
  rw [Server.maxBlockRead, UInt64.toNat_mul, UInt32.toNat_toUInt64]
  exact Nat.mod_eq_of_lt (by show s.blocksMaxRequested.toNat * 3 < 2 ^ 64; omega)

/-- The loop sends from the front of the queue, counts what it sends, and stops at the limit. -/
theorem drain_spec (limit : UInt64) (hlimit : limit.toNat + 1 < 2 ^ 64) (tx : UInt64) (queue : List BlockRequest) :
    queue = (drain limit tx queue).2.1 ++ (drain limit tx queue).2.2 ∧
      (drain limit tx queue).1.toNat = tx.toNat + (drain limit tx queue).2.1.length ∧
      ((drain limit tx queue).2.2 ≠ [] → limit < (drain limit tx queue).1) ∧
      (tx.toNat ≤ limit.toNat + 1 → (drain limit tx queue).1.toNat ≤ limit.toNat + 1) := by
  induction queue generalizing tx with
  | nil => exact ⟨rfl, rfl, fun h => absurd rfl h, id⟩
  | cons r queue ih =>
    by_cases hle : tx ≤ limit
    · have hnat : tx.toNat ≤ limit.toNat := UInt64.le_iff_toNat_le.mp hle
      have hsucc : (tx + 1).toNat = tx.toNat + 1 := by
        rw [UInt64.toNat_add]
        exact Nat.mod_eq_of_lt (by show tx.toNat + 1 < 2 ^ 64; omega)
      obtain ⟨hqueue, hcount, hleft, hbound⟩ := ih (tx + 1)
      have hdrain : drain limit tx (r :: queue) = ((drain limit (tx + 1) queue).1,
          r :: (drain limit (tx + 1) queue).2.1, (drain limit (tx + 1) queue).2.2) := by rw [drain, if_pos hle]
      rw [hdrain]
      refine ⟨congrArg (r :: ·) hqueue, ?_, hleft, fun _ => hbound (by omega)⟩
      rw [hcount, hsucc, List.length_cons]
      omega
    · have hdrain : drain limit tx (r :: queue) = (tx, [], r :: queue) := by rw [drain, if_neg hle]
      rw [hdrain]
      exact ⟨rfl, rfl, fun _ => UInt64.not_le.mp hle, id⟩

theorem reads_append (commands commands' : List IoCommand) :
    reads (commands ++ commands') = reads commands ++ reads commands' := List.filterMap_append

theorem reads_map (rs : List BlockRequest) : reads (rs.map .blockRequest) = rs := by
  rw [reads, List.filterMap_map]
  exact List.filterMap_some

theorem reads_others (n : Nat) : reads (List.replicate n .other) = [] := by
  rw [reads, List.filterMap_eq_nil_iff]
  intro command hcommand
  rw [List.eq_of_mem_replicate hcommand]

namespace Server

variable {s : Server} {pending : List BlockRequest} {peerData : List Response}

/-- A context that sends its commands. -/
theorem send_operational (hphase : s.phase = .operational) (commands : List IoCommand) :
    s.send commands = { s with
      txBlocksRequested := (drain s.maxBlockRead s.txBlocksRequested s.blockReadQueue).1
      blockReadQueue := (drain s.maxBlockRead s.txBlocksRequested s.blockReadQueue).2.2
      fsRequests := (s.send commands).fsRequests } ∧
    (s.send commands).inFlight = s.inFlight ++ reads commands ++
      (drain s.maxBlockRead s.txBlocksRequested s.blockReadQueue).2.1 := by
  rw [send, if_pos hphase]
  refine ⟨rfl, ?_⟩
  show (if commands ++ (drain s.maxBlockRead s.txBlocksRequested s.blockReadQueue).2.1.map .blockRequest = []
    then s.fsRequests else s.fsRequests ++ [_]).flatMap reads = _
  split
  next hnil =>
    obtain ⟨rfl, hsent⟩ := List.append_eq_nil_iff.mp hnil
    rw [List.map_eq_nil_iff.mp hsent, List.append_nil]
    exact (List.append_nil _).symm
  next =>
    rw [List.flatMap_append, List.flatMap_singleton, reads_append, reads_map, ← List.append_assoc]
    rfl

/-- What is pending in a context goes to the file system. -/
theorem Sound.send {commands : List IoCommand} (hsound : s.Sound (reads commands ++ pending) peerData)
    (hphase : s.phase ≠ .operational → reads commands = []) :
    (s.send commands).Sound pending peerData ∧ ((s.send commands).phase = .operational →
      (s.send commands).blockReadQueue ≠ [] → (s.send commands).maxBlockRead < (s.send commands).txBlocksRequested) := by
  by_cases hop : s.phase = .operational
  · have hlt := s.blocksMaxRequested.toNat_lt
    have hmax := toNat_maxBlockRead s
    obtain ⟨hqueue, hcount, hleft, hbound⟩ := drain_spec s.maxBlockRead (by omega) s.txBlocksRequested
      s.blockReadQueue
    obtain ⟨heq, hflight⟩ := send_operational hop commands
    have hcounted := hsound.counted
    refine ⟨⟨?_, ?_, ?_, ?_, ?_, ?_, ?_⟩, fun _ => ?_⟩
    · rw [hflight, heq]
      show (drain s.maxBlockRead s.txBlocksRequested s.blockReadQueue).1.toNat = _
      rw [hcount, hcounted]
      simp only [List.length_append]
      omega
    · rw [heq]
      exact hbound hsound.limited
    · rw [hflight, heq]
      refine hsound.once.trans (List.perm_iff_count.mpr fun r => ?_)
      have hsplit := congrArg (List.count r) hqueue
      simp only [List.count_append] at hsplit ⊢
      omega
    · rw [heq]
      exact hsound.answers
    · rw [heq]
      exact hsound.silent
    · rw [heq]
      exact hsound.connected
    · rw [heq]
      exact hsound.bounded
    · rw [heq]
      exact hleft
  · have hsend : s.send commands = s := by rw [Server.send, if_neg hop]
    rw [hphase hop, List.nil_append] at hsound
    rw [hsend]
    exact ⟨hsound, fun h => absurd h hop⟩

/-- A handler closes a context of its own. -/
theorem Sound.sendOthers (hsound : s.Sound pending peerData) (others : Nat) :
    (s.send (List.replicate others .other)).Sound pending peerData ∧
      ((s.send (List.replicate others .other)).phase = .operational →
        (s.send (List.replicate others .other)).blockReadQueue ≠ [] →
          (s.send (List.replicate others .other)).maxBlockRead <
            (s.send (List.replicate others .other)).txBlocksRequested) := by
  refine Sound.send ?_ fun _ => reads_others others
  rw [reads_others]
  exact hsound

/-- An answer: a request is refused, or a read is back. -/
theorem Sound.logged (hsound : s.Sound pending peerData) (e : Entry) (response : Response) (tx : UInt64)
    {pending' : List BlockRequest} (hpending : pending.Perm (e.asFinished.toList ++ pending'))
    (htx : s.txBlocksRequested.toNat = tx.toNat + e.asFinished.toList.length) (haccepted : e.asAccepted = none)
    (hanswer : e.answer = if s.connected then some response else none) (hconnected : e.connected = s.connected)
    (hbounded : e.Bounded) :
    { s with txBlocksRequested := tx, log := s.log ++ [e] }.Sound pending'
      (if s.connected then peerData ++ [response] else peerData) := by
  have hcounted := hsound.counted
  have hlength := hpending.length_eq
  rw [List.length_append] at hlength
  refine ⟨?_, ?_, ?_, ?_, fun h => ?_, fun h e' he' => ?_, fun e' he' => ?_⟩
  · show tx.toNat = s.inFlight.length + pending'.length
    omega
  · show tx.toNat ≤ s.maxBlockRead.toNat + 1
    have hlimited := hsound.limited
    omega
  · have honce := hsound.once
    show ((s.log ++ [e]).filterMap Entry.asAccepted).Perm
      (s.blockReadQueue ++ s.inFlight ++ pending' ++ (s.log ++ [e]).filterMap Entry.asFinished)
    rw [List.filterMap_append, List.filterMap_append, List.filterMap_cons_none haccepted, List.filterMap_nil,
      List.append_nil]
    refine honce.trans (List.perm_iff_count.mpr fun r => ?_)
    have hcount := List.perm_iff_count.mp hpending r
    have hsingle : [e].filterMap Entry.asFinished = e.asFinished.toList := by
      cases hfinished : e.asFinished with
      | none => rw [List.filterMap_cons_none hfinished]; rfl
      | some r => rw [List.filterMap_cons_some hfinished]; rfl
    rw [hsingle]
    simp only [List.count_append] at hcount ⊢
    omega
  · show s.transferred ++ (if s.connected then peerData ++ [response] else peerData) =
      (s.log ++ [e]).filterMap Entry.answer
    rw [List.filterMap_append, ← hsound.answers]
    split at hanswer
    next hc => rw [if_pos hc, List.filterMap_cons_some hanswer, List.filterMap_nil, List.append_assoc]
    next hc => rw [if_neg hc, List.filterMap_cons_none hanswer, List.filterMap_nil, List.append_nil]
  · rw [if_neg (by simpa using h)]
    exact hsound.silent h
  · rcases List.mem_append.mp he' with he' | he'
    · exact hsound.connected h e' he'
    · rw [List.mem_singleton.mp he', hconnected]
      exact h
  · rcases List.mem_append.mp he' with he' | he'
    · exact hsound.bounded e' he'
    · rw [List.mem_singleton.mp he']
      exact hbounded

/-- A request is accepted: it waits, or its read is pending. -/
theorem Sound.accept (hsound : s.Sound pending peerData) {r : BlockRequest} (hr : r.Bounded) (tx : UInt64)
    {queue pending' : List BlockRequest} (hqueue : (queue ++ pending').Perm (r :: (s.blockReadQueue ++ pending)))
    (htx : tx.toNat + pending.length = s.txBlocksRequested.toNat + pending'.length)
    (hlimit : tx.toNat ≤ s.maxBlockRead.toNat + 1) :
    { s with txBlocksRequested := tx, blockReadQueue := queue, log := s.log ++ [Entry.accepted r] }.Sound pending'
      peerData := by
  refine ⟨?_, hlimit, ?_, ?_, hsound.silent, fun h e he => ?_, fun e he => ?_⟩
  · have hcounted := hsound.counted
    show tx.toNat = s.inFlight.length + pending'.length
    omega
  · refine List.perm_iff_count.mpr fun r' => ?_
    have honce := List.perm_iff_count.mp hsound.once r'
    have hcount := List.perm_iff_count.mp hqueue r'
    show ((s.log ++ [Entry.accepted r]).filterMap Entry.asAccepted).count r' =
      (queue ++ s.inFlight ++ pending' ++ (s.log ++ [Entry.accepted r]).filterMap Entry.asFinished).count r'
    rw [List.filterMap_append, List.filterMap_append]
    show (s.log.filterMap Entry.asAccepted ++ [r]).count r' =
      (queue ++ s.inFlight ++ pending' ++ (s.log.filterMap Entry.asFinished ++ [])).count r'
    simp only [List.count_append, List.count_cons, List.count_nil] at honce hcount ⊢
    omega
  · show s.transferred ++ peerData = (s.log ++ [Entry.accepted r]).filterMap Entry.answer
    rw [List.filterMap_append, hsound.answers]
    exact (List.append_nil _).symm
  · rcases List.mem_append.mp he with he | he
    · exact hsound.connected h e he
    · rw [List.mem_singleton.mp he]
      rfl
  · rcases List.mem_append.mp he with he | he
    · exact hsound.bounded e he
    · rw [List.mem_singleton.mp he]
      exact hr

end Server

/-! ## A context -/

namespace Context

variable {ctx ctx' : Context} {pending : List BlockRequest}

/-- What holds of an open context: its reads are pending, too. -/
def Sound (ctx : Context) (pending : List BlockRequest) : Prop :=
  ctx.server.Sound (reads ctx.ioCommands ++ pending) ctx.peerData

/-- The destructor. -/
theorem Sound.close (hsound : ctx.Sound [])
    (hphase : ctx.server.phase ≠ .operational → reads ctx.ioCommands = []) : ctx.close.Served := by
  obtain ⟨hsent, hwaiting⟩ := Server.Sound.send hsound hphase
  refine ⟨{ hsent with
    answers := ?_
    silent := fun _ => rfl }, hwaiting⟩
  refine Eq.trans ?_ hsent.answers
  rw [List.append_nil]
  show (ctx.server.send ctx.ioCommands).transferred ++
    (if (ctx.server.send ctx.ioCommands).connected then ctx.peerData else []) = _
  split
  next => rfl
  next hconnected => rw [hsent.silent (by simpa using hconnected)]

/-- An answer is collected if the peer is still there. -/
theorem sound_reply {response : Response} (hsound : ctx.server.Sound (reads ctx.ioCommands ++ pending)
    (if ctx.server.connected then ctx.peerData ++ [response] else ctx.peerData)) :
    (ctx.reply response).Sound pending := by
  rw [Context.reply]
  split
  next hconnected =>
    rw [if_pos hconnected] at hsound
    exact hsound
  next hconnected =>
    rw [if_neg hconnected] at hsound
    exact hsound

/-- A request that is refused. -/
theorem Sound.refuse (hsound : ctx.Sound pending) (req : Request) (code : ErrorCode) :
    ((ctx.record (.refused req code ctx.server.connected)).reply ⟨req.id, code, []⟩).Sound pending :=
  sound_reply (hsound.logged (.refused req code ctx.server.connected) ⟨req.id, code, []⟩
    ctx.server.txBlocksRequested (.refl _) rfl rfl (by cases ctx.server.connected <;> rfl) rfl trivial)

/-- A request that is accepted waits, or its read is pending. -/
theorem Sound.onRequest {view : Controller.Context.View} {req : Request} (hsound : ctx.Sound pending)
    (hwithin : Within view ctx.server.self ctx.server.peer req) :
    ∃ ctx', ctx.onRequest view req = some ctx' ∧ ctx'.Sound pending := by
  obtain ⟨outcome, hserve, hbounded⟩ := (serve_iff view ctx.server.self ctx.server.peer req).mpr hwithin
  rw [Context.onRequest, hserve]
  cases outcome with
  | error code => exact ⟨_, rfl, hsound.refuse req code⟩
  | ok r =>
    have hr := hbounded r rfl
    have hlimited := hsound.limited
    show ∃ ctx', some (if _ > _ then _ else _) = some ctx' ∧ _
    split
    next =>
      refine ⟨_, rfl, Server.Sound.accept hsound hr ctx.server.txBlocksRequested ?_ rfl hlimited⟩
      rw [List.append_assoc]
      exact List.perm_middle
    next hfree =>
      have hle := UInt64.le_iff_toNat_le.mp (UInt64.not_lt.mp hfree)
      have hlt := ctx.server.blocksMaxRequested.toNat_lt
      have hmax := toNat_maxBlockRead ctx.server
      have hsucc : (ctx.server.txBlocksRequested + 1).toNat = ctx.server.txBlocksRequested.toNat + 1 := by
        rw [UInt64.toNat_add]
        refine Nat.mod_eq_of_lt ?_
        show ctx.server.txBlocksRequested.toNat + 1 < 2 ^ 64
        have hle' : ctx.server.txBlocksRequested.toNat ≤ ctx.server.maxBlockRead.toNat := hle
        omega
      refine ⟨_, rfl, ?_⟩
      show Server.Sound _ (reads (ctx.ioCommands ++ [.blockRequest r]) ++ pending) _
      rw [reads_append]
      refine Server.Sound.accept hsound hr (ctx.server.txBlocksRequested + 1) ?_ ?_ ?_
      · refine List.perm_iff_count.mpr fun r' => ?_
        show (ctx.server.blockReadQueue ++ (reads ctx.ioCommands ++ [r] ++ pending)).count r' = _
        simp only [List.count_append, List.count_cons, List.count_nil]
        omega
      · rw [hsucc]
        show _ = _ + (reads ctx.ioCommands ++ [r] ++ pending).length
        simp only [List.length_append, List.length_cons, List.length_nil]
        omega
      · rw [hsucc]
        exact Nat.succ_le_succ hle

/-- A read that is back. -/
theorem Sound.postprocessIo {r : BlockRequest} (hsound : ctx.Sound (r :: pending)) (outcome : Outcome)
    (hbounded : ∃ blockSize ∈ r.source.blockSize, (outcome.allocated : Int) ≤ blockSize.toInt) :
    (ctx.postprocessIo r outcome).Sound pending := by
  have hcounted := hsound.counted
  have hlength : (reads ctx.ioCommands ++ r :: pending).length = (reads ctx.ioCommands ++ pending).length + 1 := by
    simp only [List.length_append, List.length_cons]
    omega
  have htx : ctx.server.txBlocksRequested.toNat = (ctx.server.txBlocksRequested - 1).toNat + 1 := by
    have hone : (1 : UInt64) ≤ ctx.server.txBlocksRequested := UInt64.le_iff_toNat_le.mpr (by
      show 1 ≤ ctx.server.txBlocksRequested.toNat
      omega)
    rw [UInt64.toNat_sub_of_le _ _ hone]
    show _ = ctx.server.txBlocksRequested.toNat - 1 + 1
    omega
  have hlogged : ∀ response, (Entry.finished r outcome ctx.server.connected).answer =
      (if ctx.server.connected then some response else none) → _ := fun response hanswer =>
    hsound.logged (.finished r outcome ctx.server.connected) response (ctx.server.txBlocksRequested - 1)
      List.perm_middle htx rfl hanswer rfl hbounded
  cases outcome with
  | data bytes => exact sound_reply (hlogged ⟨r.request.id, .noBepError, bytes⟩ (by cases ctx.server.connected <;> rfl))
  | failed n => exact sound_reply (hlogged ⟨r.request.id, .generic, []⟩ (by cases ctx.server.connected <;> rfl))
  | terminated => exact sound_reply (hlogged ⟨r.request.id, .generic, []⟩ (by cases ctx.server.connected <;> rfl))

/-- A read within the file comes back, and has not allocated more than a block. -/
theorem process_bounded {r : BlockRequest} (hr : r.Bounded) (backend : Option Backend) :
    process r backend ≠ .terminated ∧
      ∃ blockSize ∈ r.source.blockSize, ((process r backend).allocated : Int) ≤ blockSize.toInt := by
  obtain ⟨-, -, -, blockSize, hblockSize, hle⟩ := hr
  have hlt := blockSize.toInt_lt
  suffices h : process r backend ≠ .terminated ∧ (process r backend).allocated ≤ r.blockSize.toNat from
    ⟨h.1, blockSize, hblockSize, by omega⟩
  cases backend with
  | none => exact ⟨by simp [process], Nat.zero_le _⟩
  | some b =>
    show b.read r.offset r.blockSize ≠ .terminated ∧ (b.read r.offset r.blockSize).allocated ≤ _
    have hmax : ¬ maxSize < r.blockSize.toNat := by
      show ¬ 2 ^ 63 - 1 < r.blockSize.toNat
      omega
    dsimp only [Backend.read]
    generalize (if b.tellg ≠ r.offset.toInt64 then b.seekp r.offset.toInt64 else b) = b'
    rw [if_neg hmax]
    split
    next => exact ⟨by simp, Nat.zero_le _⟩
    split
    next => exact ⟨by simp, List.length_take_le _ _⟩
    next => exact ⟨by simp, le_refl _⟩

theorem reply_ioCommands (ctx : Context) (response : Response) : (ctx.reply response).ioCommands = ctx.ioCommands := by
  rw [Context.reply]
  split <;> rfl

theorem postprocessIo_ioCommands (ctx : Context) (r : BlockRequest) (outcome : Outcome) :
    (ctx.postprocessIo r outcome).ioCommands = ctx.ioCommands := by
  cases outcome <;> exact reply_ioCommands _ _

/-- A command that is back. -/
theorem Sound.onCommand {command : IoCommand} (backend : Option Backend)
    (hsound : ctx.Sound (reads [command] ++ pending)) :
    ∃ ctx', ctx.onCommand (command, backend) = some ctx' ∧ ctx'.Sound pending ∧ ctx'.ioCommands = ctx.ioCommands := by
  cases command with
  | other => exact ⟨ctx, rfl, hsound, rfl⟩
  | blockRequest r =>
    have hmem : r ∈ ctx.server.log.filterMap Entry.asAccepted := by
      refine hsound.once.mem_iff.mpr (List.mem_append_left _ (List.mem_append_right _ (List.mem_append_right _ ?_)))
      exact List.mem_cons_self
    obtain ⟨e, he, haccepted⟩ := List.mem_filterMap.mp hmem
    have hr : r.Bounded := by
      have hbounded := hsound.bounded e he
      cases e with
      | accepted r' => cases haccepted; exact hbounded
      | refused _ _ _ => cases haccepted
      | finished _ _ _ => cases haccepted
    obtain ⟨hne, hblock⟩ := process_bounded hr backend
    have hcommand : ctx.onCommand (.blockRequest r, backend) = some (ctx.postprocessIo r (process r backend)) := by
      cases houtcome : process r backend with
      | terminated => exact absurd houtcome hne
      | failed n => simp only [Context.onCommand, houtcome]
      | data bytes => simp only [Context.onCommand, houtcome]
    have hio : (ctx.postprocessIo r (process r backend)).ioCommands = ctx.ioCommands := postprocessIo_ioCommands ..
    exact ⟨_, hcommand, hsound.postprocessIo _ hblock, hio⟩

/-- The commands of a message that is back. -/
theorem foldlM_onCommand {commands : List (IoCommand × Option Backend)}
    (hsound : ctx.Sound (reads (commands.map Prod.fst) ++ pending)) :
    ∃ ctx', commands.foldlM Context.onCommand ctx = some ctx' ∧ ctx'.Sound pending ∧
      ctx'.ioCommands = ctx.ioCommands := by
  induction commands generalizing ctx with
  | nil => exact ⟨ctx, rfl, hsound, rfl⟩
  | cons command commands ih =>
    have hsplit : reads ((command :: commands).map Prod.fst) =
        reads [command.1] ++ reads (commands.map Prod.fst) := reads_append [command.1] _
    rw [hsplit, List.append_assoc] at hsound
    obtain ⟨mid, hmid, hmidSound, hmidIo⟩ := Sound.onCommand command.2 hsound
    obtain ⟨ctx', hctx', hsound', hio⟩ := ih hmidSound
    refine ⟨ctx', ?_, hsound', hio.trans hmidIo⟩
    rw [List.foldlM_cons, hmid]
    exact hctx'

end Context

/-! ## Messages of the peer -/

/-- What has to be true of a message. -/
def Message.Within (self peer : Sha256) : Message → Prop
  | .request view req => PeerRequests.Within view self peer req
  | .response _ => True
  | .index => True

namespace Context

/-- A context in which messages of the peer are handled. -/
structure Serving (me peer : Sha256) (ctx : Context) : Prop where
  sound : ctx.Sound []
  self_eq : ctx.server.self = me
  peer_eq : ctx.server.peer = peer
  operational : ctx.server.phase = .operational

variable {ctx ctx' : Context} {me peer : Sha256}

theorem reply_server (ctx : Context) (response : Response) : (ctx.reply response).server = ctx.server := by
  rw [Context.reply]
  split <;> rfl

theorem send_server (s : Server) (commands : List IoCommand) :
    (s.send commands).self = s.self ∧ (s.send commands).peer = s.peer ∧ (s.send commands).phase = s.phase := by
  rw [Server.send]
  split <;> exact ⟨rfl, rfl, rfl⟩

/-- A request leaves the controller as it is, apart from what serves the peer. -/
theorem onRequest_server {view : Controller.Context.View} {req : Request} (hctx' : ctx.onRequest view req = some ctx') :
    ctx'.server.self = ctx.server.self ∧ ctx'.server.peer = ctx.server.peer ∧
      ctx'.server.phase = ctx.server.phase := by
  obtain ⟨outcome, -, rfl⟩ := Option.map_eq_some_iff.mp hctx'
  cases outcome with
  | error code =>
    show ((ctx.record _).reply _).server.self = _ ∧ ((ctx.record _).reply _).server.peer = _ ∧
      ((ctx.record _).reply _).server.phase = _
    rw [reply_server]
    exact ⟨rfl, rfl, rfl⟩
  | ok r => dsimp only; split <;> exact ⟨rfl, rfl, rfl⟩

/-- One message. -/
theorem Serving.onMessage (hserving : ctx.Serving me peer) {message : Message}
    (hwithin : message.Within me peer) : ∃ ctx', ctx.onMessage message = some ctx' ∧ ctx'.Serving me peer := by
  obtain ⟨hsound, hself, hpeer, hop⟩ := hserving
  cases message with
  | request view req =>
    have hwithin' : PeerRequests.Within view ctx.server.self ctx.server.peer req := by
      rw [hself, hpeer]
      exact hwithin
    obtain ⟨ctx', hctx', hsound'⟩ := hsound.onRequest hwithin'
    obtain ⟨hself', hpeer', hop'⟩ := onRequest_server hctx'
    exact ⟨ctx', hctx', hsound', hself'.trans hself, hpeer'.trans hpeer, hop'.trans hop⟩
  | response others =>
    obtain ⟨hself', hpeer', hop'⟩ := send_server ctx.server (List.replicate others .other)
    exact ⟨_, rfl, (Server.Sound.sendOthers hsound others).1, hself'.trans hself, hpeer'.trans hpeer, hop'.trans hop⟩
  | index => exact ⟨ctx, rfl, hsound, hself, hpeer, hop⟩

theorem Serving.foldlM (hserving : ctx.Serving me peer) {messages : List Message}
    (hwithin : ∀ m ∈ messages, m.Within me peer) :
    ∃ ctx', messages.foldlM Context.onMessage ctx = some ctx' ∧ ctx'.Serving me peer := by
  induction messages generalizing ctx with
  | nil => exact ⟨ctx, rfl, hserving⟩
  | cons message messages ih =>
    obtain ⟨mid, hmid, hmidServing⟩ := hserving.onMessage (hwithin message List.mem_cons_self)
    obtain ⟨ctx', hctx', hserving'⟩ := ih hmidServing fun m hm => hwithin m (List.mem_cons_of_mem _ hm)
    refine ⟨ctx', ?_, hserving'⟩
    rw [List.foldlM_cons, hmid]
    exact hctx'

end Context

/-! ## Runs -/

namespace Server

variable {s : Server}

/-- The requests that are handled are within the files. -/
def Ready (s : Server) : Event → Prop
  | .forward messages => s.phase = .operational → ∀ m ∈ messages, m.Within s.self s.peer
  | _ => True

theorem served_create (self peer : Sha256) (blocksMaxRequested hasherThreads : UInt32) :
    (create self peer blocksMaxRequested hasherThreads).Served :=
  ⟨⟨rfl, Nat.zero_le _, .refl _, rfl, fun _ => rfl, fun _ _ he => absurd he List.not_mem_nil,
    fun _ he => absurd he List.not_mem_nil⟩, fun _ h => absurd rfl h⟩

theorem Served.onForward (hserved : s.Served) {messages : List Message}
    (hready : s.phase = .operational → ∀ m ∈ messages, m.Within s.self s.peer) :
    ∃ s', s.onForward messages = some s' ∧ s'.Served := by
  rw [Server.onForward]
  split
  next hop =>
    have hserving : s.context.Serving s.self s.peer := ⟨hserved.sound, rfl, rfl, hop⟩
    obtain ⟨ctx, hctx, hserving⟩ := hserving.foldlM (hready hop)
    rw [hctx]
    exact ⟨_, rfl, hserving.sound.close fun h => absurd hserving.operational h⟩
  next => exact ⟨s, rfl, hserved⟩

/-- What comes back from the file system was with it. -/
theorem Served.onPostprocessIo (hserved : s.Served) (k : ℕ) (backends : List (Option Backend)) (others : ℕ) :
    ∃ s', s.onPostprocessIo k backends others = some s' ∧ s'.Served := by
  rw [Server.onPostprocessIo]
  cases hcommands : s.fsRequests[k]? with
  | none => exact ⟨s, rfl, hserved⟩
  | some commands =>
    have hperm : s.inFlight.Perm (reads commands ++ (s.fsRequests.eraseIdx k).flatMap reads) := by
      obtain ⟨hk, hget⟩ := List.getElem?_eq_some_iff.mp hcommands
      have hsplit : s.fsRequests.Perm (commands :: s.fsRequests.eraseIdx k) := by
        rw [← hget]
        exact (List.getElem_cons_eraseIdx_perm hk).symm
      exact hsplit.flatMap_right reads
    have hstart : ({ s with fsRequests := s.fsRequests.eraseIdx k } : Server).context.Sound
        (reads ((commands.zipIdx.map fun p => (p.1, (backends[p.2]?).join)).map Prod.fst) ++ []) := by
      have hfst : (commands.zipIdx.map fun p => (p.1, (backends[p.2]?).join)).map Prod.fst = commands := by
        rw [List.map_map]
        exact List.zipIdx_map_fst 0 commands
      rw [hfst, List.append_nil]
      have hsound := hserved.sound
      have hcounted := hsound.counted
      have hlength := hperm.length_eq
      rw [List.length_append] at hlength
      refine { hsound with counted := ?_, once := ?_ }
      · show s.txBlocksRequested.toNat = ((s.fsRequests.eraseIdx k).flatMap reads).length + (reads commands).length
        rw [List.length_nil] at hcounted
        omega
      · refine List.perm_iff_count.mpr fun r => ?_
        have honce := List.perm_iff_count.mp hsound.once r
        have hcount := List.perm_iff_count.mp hperm r
        show (s.log.filterMap Entry.asAccepted).count r = (s.blockReadQueue ++
          (s.fsRequests.eraseIdx k).flatMap reads ++ reads commands ++ s.log.filterMap Entry.asFinished).count r
        simp only [List.count_append, List.count_nil] at honce hcount ⊢
        omega
    obtain ⟨ctx, hctx, hsound, hio⟩ := Context.foldlM_onCommand hstart
    have hreads : reads (ctx.ioCommands ++ List.replicate others .other) = [] := by
      rw [reads_append, reads_others, hio]
      rfl
    refine ⟨_, congrArg (Option.map _) hctx, Context.Sound.close ?_ fun _ => hreads⟩
    show ctx.server.Sound (reads (ctx.ioCommands ++ List.replicate others .other) ++ []) ctx.peerData
    have hnone : reads ctx.ioCommands = [] := by
      rw [hio]
      rfl
    rw [hreads]
    rw [Context.Sound, hnone] at hsound
    exact hsound

theorem Served.step (hserved : s.Served) (e : Event) (hready : s.Ready e) :
    ∃ s', s.step e = some s' ∧ s'.Served := by
  rw [Server.step.eq_def]
  split
  next => exact ⟨s, rfl, hserved⟩
  cases e with
  | forward messages => exact hserved.onForward hready
  | io k backends others => exact hserved.onPostprocessIo k backends others
  | handler others =>
    refine ⟨_, rfl, Context.Sound.close ?_ fun _ => reads_others others⟩
    show s.Sound (reads (List.replicate others .other) ++ []) []
    rw [reads_others]
    exact hserved.sound
  | peerDown =>
    exact ⟨_, rfl, { hserved.sound with silent := fun _ => rfl, connected := fun h => absurd h (by simp) },
      hserved.waiting⟩
  | shutdownStart => exact ⟨_, rfl, { hserved.sound with }, fun h => absurd h (by simp)⟩
  | shutdownFinish =>
    refine ⟨_, rfl, ?_⟩
    split
    next => exact ⟨{ hserved.sound with }, fun h => absurd h (by simp)⟩
    next => exact hserved

end Server

/-- **Serving a peer**: a request is refused or becomes a read within the file exactly if it is `Within`, and in
every run in which all requests that are handled are, nothing stops the process and the peer is served. -/
theorem served_of_run (view : Controller.Context.View) (me peer : Sha256) (req : Request)
    (blocksMaxRequested hasherThreads : UInt32) (events : List Event) :
    ((∃ outcome, serve view me peer req = some outcome ∧ ∀ r, outcome = .ok r → r.Bounded) ↔
      Within view me peer req) ∧
    (Run.Meets Server.step Server.Ready (Server.create me peer blocksMaxRequested hasherThreads) events →
      ∃ s, Run.exec Server.step (Server.create me peer blocksMaxRequested hasherThreads) events = some s ∧
        s.Served) :=
  ⟨serve_iff view me peer req, fun hrun =>
    Run.exec_total (fun _ e hserved hready => hserved.step e hready)
      (Server.served_create me peer blocksMaxRequested hasherThreads) hrun⟩

/-! ## A file of four bytes -/

/-- One shared folder with one file, of one block. -/
def fourBytes : Controller.Context.View where
  blocks := fun _ => ⟨[7], 4, []⟩
  blockMap := [0]
  nextBlock := 1
  files := fun _ => { (default : FileInfo) with name := "f", type := .file, content := .file [some (0, true)] }
  nextFile := 1
  infos := fun fi => { (default : FolderInfo) with device := [UInt8.ofNat fi], files := [0] }
  folders := [{ (default : Folder) with id := "d", infos := [0, 1] }]
  suspended := fun _ => false

/-- The peer asks for so many bytes from there. -/
def ask (offset : Int64) (size : Int32) : Request := ⟨1, "d", "f", offset, size, []⟩

/-- What the file system finds. -/
def opened : Backend := ⟨[1, 2, 3, 4], 0, false⟩

theorem served_of_a_run : ∃ s, Run.exec Server.step (Server.create [0] [1] 1 1)
      [.forward [.request fourBytes (ask 1 2), .index], .io 0 [some opened] 0] = some s ∧ s.Served := by
  refine (served_of_run fourBytes [0] [1] (ask 1 2) 1 1 _).2 ⟨fun _ m hm => ?_, fun _ _ => ⟨trivial, fun _ _ => trivial⟩⟩
  rcases List.mem_cons.mp hm with rfl | hm
  · show Within fourBytes [0] [1] (ask 1 2)
    refine (serve_iff fourBytes [0] [1] (ask 1 2)).mp ⟨.ok (ioMakeRequestBlock fourBytes 0 (ask 1 2)), rfl, ?_⟩
    intro r hr
    cases hr
    refine (bounded_fits fourBytes 0 (ask 1 2)).mpr ?_
    unfold Fits
    decide
  · rw [List.mem_singleton.mp hm]
    trivial

/-- A request with a negative size is accepted, and the read stops the process. -/
theorem negative_size :
    (∃ r, serve fourBytes [0] [1] (ask 0 (-1)) = some (.ok r) ∧ ¬ r.Bounded) ∧
      Run.exec Server.step (Server.create [0] [1] 1 1)
        [.forward [.request fourBytes (ask 0 (-1))], .io 0 [some opened] 0] = none := by
  refine ⟨⟨_, rfl, ?_⟩, ?_⟩
  · rw [bounded_fits, Fits]
    decide
  · decide

end PeerRequests

end SyncSpirit
