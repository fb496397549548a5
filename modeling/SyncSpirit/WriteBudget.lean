import SyncSpirit.ControllerSpec
import SyncSpirit.Lib.Tally
import Mathlib

/-!
# The write requests of a cluster

The controllers of a cluster share a number of writes that may be under way. A write takes
one when it is sent to the file system, from a handler or from the queue, and gives it back
when its result comes. A controller that shuts down may forget what it has sent.

`Budget` is the account over all controllers and `Balanced` the same account in the middle
of a handler. Every event keeps it but one: the timer of a shutdown gives back one for each
message that is forgotten, whatever the message holds. `budget_iff` says that this is
exactly when the account goes wrong.
-/

namespace SyncSpirit

namespace Controller

open Fallible

/-- The commands that count as writes. -/
def writes (commands : List IoCommand) : Int := commands.countP IoCommand.isWrite

@[simp] theorem writes_nil : writes [] = 0 := rfl

@[simp] theorem writes_append (commands commands' : List IoCommand) :
    writes (commands ++ commands') = writes commands + writes commands' := by
  simp [writes]

theorem writes_cons (command : IoCommand) (commands : List IoCommand) :
    writes (command :: commands) = (if command.isWrite then 1 else 0) + writes commands := by
  unfold writes
  rw [List.countP_cons]
  split <;> push_cast <;> omega

theorem writes_of_all {commands : List IoCommand} (h : ∀ c ∈ commands, c.isWrite = true) :
    writes commands = commands.length := by
  unfold writes
  rw [List.countP_eq_length.mpr h]

theorem writes_of_none {commands : List IoCommand} (h : ∀ c ∈ commands, c.isWrite = false) :
    writes commands = 0 := by
  unfold writes
  rw [List.countP_eq_zero.mpr fun c hc => by rw [h c hc]; exact Bool.false_ne_true]
  rfl

/-- The writes that a controller has sent to the file system and not forgotten. -/
def underWay (a : Actor) : Int := Tally.total writes a.fsRequests

/-- The queues hold what they are for. -/
structure Queues (a : Actor) : Prop where
  write : ∀ c ∈ a.blockWriteQueue, c.isWrite = true
  read : ∀ c ∈ a.blockReadQueue, c.isWrite = false

/-- **The account** of a cluster that has started with `n` write requests. -/
structure Budget (n : Int) (w : World) : Prop where
  sum : w.writeRequests + Tally.total underWay w.actors = n
  positive : 0 ≤ w.writeRequests

/-! ## In a handler -/

/-- A fault that is not about the account. -/
def Solvent (f : Fault) : Prop := f ≠ .overdrawn

/-- The account in the middle of a handler: what has been collected is paid for. -/
structure Balanced (c : Int) (ctx : Context) : Prop where
  sum : ctx.writeRequests + writes ctx.ioCommands + underWay ctx.actor = c
  positive : 0 ≤ ctx.writeRequests
  queues : Queues ctx.actor
  idle : ctx.actor.phase ≠ .operational → writes ctx.ioCommands = 0

/-- What the account depends on. -/
structure Purse where
  writeRequests : Int
  ioCommands : List IoCommand
  fsRequests : List (List IoCommand)
  blockWriteQueue : List IoCommand
  blockReadQueue : List IoCommand
  phase : Phase

def Context.purse (ctx : Context) : Purse :=
  ⟨ctx.writeRequests, ctx.ioCommands, ctx.actor.fsRequests, ctx.actor.blockWriteQueue, ctx.actor.blockReadQueue,
    ctx.actor.phase⟩

section Handler

variable {c : Int} {ctx : Context}

theorem Balanced.of_purse (h : Balanced c ctx) {ctx' : Context} (hsame : ctx'.purse = ctx.purse) :
    Balanced c ctx' := by
  simp only [Context.purse, Purse.mk.injEq] at hsame
  obtain ⟨h₁, h₂, h₃, h₄, h₅, h₆⟩ := hsame
  refine ⟨?_, ?_, ⟨?_, ?_⟩, ?_⟩
  · rw [h₁, h₂, underWay, h₃]
    exact h.sum
  · rw [h₁]
    exact h.positive
  · rw [h₄]
    exact h.queues.write
  · rw [h₅]
    exact h.queues.read
  · rw [h₂, h₆]
    exact h.idle

/-- A step that does not touch the account. -/
theorem Balanced.frame (h : Balanced c ctx) {x : Except Fault Context}
    (hx : Post (fun ctx' => ctx'.purse = ctx.purse) Solvent x) : Post (Balanced c) Solvent x :=
  hx.mono fun _ hsame => h.of_purse hsame

/-- A command that is not a write. -/
theorem Balanced.push (h : Balanced c ctx) {command : IoCommand} (hcommand : command.isWrite = false) :
    Balanced c (ctx.push command) := by
  have hone : writes [command] = 0 := by rw [writes_cons, hcommand]; rfl
  have hsame : writes (ctx.ioCommands ++ [command]) = writes ctx.ioCommands := by
    rw [writes_append, hone, add_zero]
  refine ⟨?_, h.positive, h.queues, fun hphase => ?_⟩
  · show ctx.writeRequests + writes (ctx.ioCommands ++ [command]) + underWay ctx.actor = c
    rw [hsame]
    exact h.sum
  · show writes (ctx.ioCommands ++ [command]) = 0
    rw [hsame]
    exact h.idle hphase

/-- A write is paid for when it is collected, and waits if there is nothing left. -/
theorem Balanced.pushChecked (h : Balanced c ctx) {command : IoCommand} (hcommand : command.isWrite = true) :
    Post (Balanced c) Solvent (ctx.pushChecked command) := by
  have hpositive := h.positive
  unfold Context.pushChecked
  split
  · rename_i hphase
    split
    · unfold Context.modifyWriteRequests
      rw [if_neg (by show ¬ ctx.writeRequests + -1 < 0; omega)]
      refine ⟨?_, by show 0 ≤ ctx.writeRequests + -1; omega, h.queues, fun hno => absurd hphase hno⟩
      show ctx.writeRequests + -1 + writes (ctx.ioCommands ++ [command]) + underWay ctx.actor = c
      have hone : writes [command] = 1 := by rw [writes_cons, if_pos hcommand, writes_nil, add_zero]
      have hsum := h.sum
      rw [writes_append, hone]
      omega
    · refine ⟨h.sum, h.positive, ⟨fun c' hc' => ?_, h.queues.read⟩, h.idle⟩
      rcases List.mem_append.mp hc' with hc' | hc'
      · exact h.queues.write c' hc'
      · rw [List.mem_singleton.mp hc']
        exact hcommand
  · exact h

theorem purse_acquireBlock (folder : FolderPtr) (hash : Bytes) (b : BlockId) :
    (ctx.acquireBlock folder hash b).purse = ctx.purse := rfl

theorem purse_releaseBlock (folderId : String) (hash : Bytes) :
    Post (fun p => p.2.purse = ctx.purse) Solvent (ctx.releaseBlock folderId hash) :=
  post_releaseBlock (I := fun ctx' => ctx'.purse = ctx.purse) (fun _ => rfl) nofun nofun folderId hash

theorem purse_lockBlock (b : BlockId) : Post (fun ctx' => ctx'.purse = ctx.purse) Solvent (ctx.lockBlock b) := by
  unfold Context.lockBlock
  split
  · exact nofun
  · rfl

theorem purse_unlockBlock (b : BlockId) :
    Post (fun ctx' => ctx'.purse = ctx.purse) Solvent (ctx.unlockBlock b) := by
  unfold Context.unlockBlock
  split
  · rfl
  · exact nofun

theorem purse_findFree {requests : List (Option PeerRequest)} {max : Nat} :
    ∀ {rounds id : Nat}, Post (fun _ => True) Solvent (Context.findFree requests max rounds id) := by
  intro rounds
  induction rounds with
  | zero => exact fun {_} => trivial
  | succ rounds ih =>
    intro id
    unfold Context.findFree
    split
    · exact nofun
    · trivial
    · exact ih

theorem purse_requestBlock (r : PeerRequest) :
    Post (fun ctx' => ctx'.purse = ctx.purse) Solvent (ctx.requestBlock r) := by
  unfold Context.requestBlock
  refine purse_findFree.bind fun p _ => ?_
  dsimp only
  split
  · exact nofun
  · split
    · exact nofun
    · exact nofun
    · rfl

/-- The steps of `pull_next`: a clone is paid for, a request costs no write. -/
theorem keeps_balanced (c : Int) : Keeps (Balanced c) Solvent where
  preprocess ctx _ r available hctx _ _ := by
    have hacquire := hctx.of_purse (purse_acquireBlock r.folder r.hash r.block)
    unfold Context.preprocessBlock
    split
    · dsimp only
      split
      · exact hacquire.pushChecked rfl
      · exact (hacquire.frame (purse_lockBlock r.block)).bind fun ctx' hctx' => hctx'.frame (purse_requestBlock r)
    · exact hctx
  file _ hctx := hctx.push rfl

/-! ## The destructor -/

/-- A context that is closed has nothing left to send. -/
structure Closed (c : Int) (phase : Phase) (ctx : Context) : Prop extends Balanced c ctx where
  sent : ctx.ioCommands = []
  same : ctx.actor.phase = phase

/-- **Closing**: what leaves the queue is paid for then. -/
theorem Balanced.close (h : Balanced c ctx) : Post (Closed c ctx.actor.phase) Solvent ctx.close := by
  have hpositive := h.positive
  have hsum := h.sum
  unfold Context.close
  split
  · rename_i hphase
    dsimp only
    let sent := ctx.actor.blockWriteQueue.take ctx.writeRequests.toNat
    have hwrites : writes sent = sent.length :=
      writes_of_all fun c' hc' => h.queues.write c' (List.mem_of_mem_take hc')
    have hlength : (sent.length : Int) ≤ ctx.writeRequests := by
      have hle := List.length_take_le ctx.writeRequests.toNat ctx.actor.blockWriteQueue
      show ((ctx.actor.blockWriteQueue.take ctx.writeRequests.toNat).length : Int) ≤ _
      omega
    have hpay : ctx.payWrites sent = .ok { ctx with writeRequests := ctx.writeRequests - sent.length } := by
      unfold Context.payWrites
      split
      · rename_i hnil
        rw [hnil]
        simp
      · unfold Context.modifyWriteRequests
        rw [if_neg (by omega), ← Int.sub_eq_add_neg]
    show Post _ _ (ctx.payWrites sent >>= _)
    rw [hpay]
    let reads := ctx.actor.blockReadQueue.take
      (ctx.actor.blocksMaxRequested * txBlocksMaxFactor + 1 - ctx.actor.txBlocksRequested)
    have hreads : writes reads = 0 := writes_of_none fun c' hc' => h.queues.read c' (List.mem_of_mem_take hc')
    have hqueues : Queues ({ ctx with writeRequests := ctx.writeRequests - sent.length }.sendCommands sent).actor :=
      ⟨fun c' hc' => h.queues.write c' (List.mem_of_mem_drop hc'),
        fun c' hc' => h.queues.read c' (List.mem_of_mem_drop hc')⟩
    refine ⟨⟨?_, by show 0 ≤ ctx.writeRequests - sent.length; omega, hqueues, fun hno => absurd hphase hno⟩, rfl, rfl⟩
    -- the commands leave as one message, unless there are none
    have hway : underWay ({ ctx with writeRequests := ctx.writeRequests - sent.length }.sendCommands sent).actor =
        underWay ctx.actor + writes (ctx.ioCommands ++ sent ++ reads) := by
      show Tally.total writes (if ctx.ioCommands ++ sent ++ reads = [] then ctx.actor.fsRequests
        else ctx.actor.fsRequests ++ [ctx.ioCommands ++ sent ++ reads]) = _
      split
      · rename_i hnil
        rw [hnil, writes_nil, add_zero]
        rfl
      · rw [Tally.total_append, Tally.total_cons, Tally.total_nil, add_zero]
        rfl
    show ctx.writeRequests - sent.length + 0 + underWay _ = c
    rw [hway, writes_append, writes_append, hwrites, hreads]
    omega
  · rename_i hphase
    refine ⟨⟨?_, hpositive, h.queues, fun _ => rfl⟩, rfl, rfl⟩
    have hidle := h.idle hphase
    show ctx.writeRequests + 0 + underWay ctx.actor = c
    omega

theorem Balanced.closeInner (h : Balanced c ctx) : Post (Balanced c) Solvent ctx.closeInner := by
  have hsum := h.sum
  have hinner : Balanced (c - writes ctx.ioCommands) { ctx with ioCommands := [] } := by
    refine ⟨?_, h.positive, h.queues, fun _ => rfl⟩
    show ctx.writeRequests + 0 + underWay ctx.actor = _
    omega
  refine hinner.close.bind fun ctx' hctx' => ?_
  have hsum' := hctx'.sum
  rw [hctx'.sent, writes_nil] at hsum'
  refine ⟨?_, hctx'.positive, hctx'.queues, fun hphase => h.idle ?_⟩
  · show ctx'.writeRequests + writes ctx.ioCommands + underWay ctx'.actor = c
    omega
  · rw [← hctx'.same]
    exact hphase

/-! ## The handlers -/

theorem Balanced.abandon (h : Balanced c ctx) (r : PeerRequest) (items : List Item) :
    Post (Balanced c) Solvent (ctx.abandon r items) := by
  unfold Context.abandon
  refine ((keeps_balanced c).tryNext h _ items).bind fun ctx' hctx' => ?_
  exact (purse_releaseBlock r.folderId r.hash).bind fun p hp => (hctx'.of_purse hp).closeInner

theorem Balanced.onMessage (h : Balanced c ctx) (m : Context.Message) :
    Post (Balanced c) Solvent (ctx.onMessage m) := by
  cases m with
  | response view message items =>
    have hfree : ∀ id, (ctx.countAnswer.freeEntry id).purse = ctx.purse := fun _ => rfl
    refine onResponse_rule (fun _ => nofun) (fun _ => h.of_purse rfl) (fun _ _ _ => nofun) ?_ ?_
    · intro r file _ _
      have hdigest : Balanced c ((ctx.countAnswer.freeEntry message.id.toInt.toNat).calcDigest r
          (view.blocks file.block).getSize) := h.of_purse rfl
      exact ((keeps_balanced c).pullNext hdigest).bind fun ctx' hctx' => hctx'.closeInner
    · exact fun r _ _ => (h.of_purse (hfree _)).abandon r items
  | request accepted =>
    show Balanced c (ctx.onRequest accepted)
    unfold Context.onRequest
    dsimp only
    split
    · split
      · refine ⟨h.sum, h.positive, ⟨h.queues.write, fun c' hc' => ?_⟩, h.idle⟩
        rcases List.mem_append.mp hc' with hc' | hc'
        · exact h.queues.read c' hc'
        · rw [List.mem_singleton.mp hc']
          rfl
      · have hpush : Balanced c (ctx.push .blockRequest) := h.push rfl
        exact hpush.of_purse rfl
    · exact h
  | index => exact h

theorem Balanced.onDigest (h : Balanced c ctx) (view : Context.View) (r : PeerRequest)
    (digest : Option Bytes) (items : List Item) :
    Post (Balanced c) Solvent (ctx.onDigest view r digest items) := by
  refine onDigest_rule (fun _ => nofun) (fun file _ => h.pushChecked rfl) fun _ pull => ?_
  unfold Context.dismiss
  exact (purse_releaseBlock r.folderId r.hash).bind fun p hp =>
    (keeps_balanced c).tryNext (h.of_purse hp) pull items

theorem Balanced.visit (h : Balanced c ctx) (acks : List (BlockAck × Bool)) (items : List Item) :
    Post (Balanced c) Solvent (ctx.visit acks items) := by
  have hack : ∀ ack (_ : List (BlockAck × Bool)) (ctx : Context), Balanced c ctx →
      Post (Balanced c) Solvent (ctx.onBlockAck ack) := by
    intro ack _ ctx hctx
    unfold Context.onBlockAck
    have hpush : Balanced c (if ack.2 then ctx.push .file else ctx) := by
      split
      · exact hctx.push rfl
      · exact hctx
    refine (purse_releaseBlock _ _).bind fun p hp => ?_
    have hreleased := hpush.of_purse hp
    dsimp only
    split
    · exact hreleased.frame (purse_unlockBlock _)
    · exact hreleased
  exact (post_foldlM (fun _ ctx => Balanced c ctx) hack h).bind fun ctx' hctx' =>
    (keeps_balanced c).pullNext hctx'

/-- **Results**: each write gives back what it has taken. -/
theorem Balanced.onPostprocessIo {results : List (IoCommand × Bool)}
    (h : Balanced (c - writes (results.map Prod.fst)) ctx) (items : List Item) :
    Post (Balanced c) Solvent (ctx.onPostprocessIo results items) := by
  have hresult : ∀ result rest (ctx : Context), Balanced (c - writes ((result :: rest).map Prod.fst)) ctx →
      Post (Balanced (c - writes (rest.map Prod.fst))) Solvent (ctx.postprocessIo result) := by
    rintro ⟨command, good⟩ rest ctx hctx
    have hsum := hctx.sum
    have hpositive := hctx.positive
    rw [List.map_cons, writes_cons] at hsum
    have hwrite : command.isWrite = true → ∃ ctx', ctx.modifyWriteRequests 1 = .ok ctx' ∧
        Balanced (c - writes (rest.map Prod.fst)) ctx' := by
      intro hcommand
      rw [if_pos hcommand] at hsum
      refine ⟨_, if_neg (by omega), ⟨?_, by show 0 ≤ ctx.writeRequests + 1; omega, hctx.queues, hctx.idle⟩⟩
      show ctx.writeRequests + 1 + writes ctx.ioCommands + underWay ctx.actor = _
      omega
    have hother : command.isWrite = false → Balanced (c - writes (rest.map Prod.fst)) ctx := by
      intro hcommand
      rw [if_neg (by rw [hcommand]; exact Bool.false_ne_true)] at hsum
      exact ⟨by omega, hpositive, hctx.queues, hctx.idle⟩
    unfold Context.postprocessIo
    cases command with
    | appendBlock context =>
      obtain ⟨ctx', hok, hctx'⟩ := hwrite rfl
      show Post _ _ (ctx.modifyWriteRequests 1 >>= _)
      rw [hok]
      show Balanced _ (if good then ctx'.ackBlock context true else ctx')
      split
      · exact hctx'.of_purse rfl
      · exact hctx'
    | cloneBlock context =>
      obtain ⟨ctx', hok, hctx'⟩ := hwrite rfl
      show Post _ _ (ctx.modifyWriteRequests 1 >>= _)
      rw [hok]
      show Balanced _ (if good then ctx'.ackBlock context false else ctx')
      split
      · exact hctx'.of_purse rfl
      · exact hctx'
    | blockRequest => exact (hother rfl).of_purse rfl
    | file => exact hother rfl
  refine (post_foldlM (fun rest ctx => Balanced (c - writes (rest.map Prod.fst)) ctx) hresult h).bind
    fun ctx' hctx' => (keeps_balanced c).pullNext ?_
  simpa using hctx'

end Handler

/-! ## All controllers -/

/-- The account with what else is known of the queues. -/
structure Accounted (n : Int) (w : World) : Prop extends Budget n w where
  queues : ∀ a ∈ w.actors, Queues a

/-- What one controller and the cluster have together. -/
def share (n : Int) (w : World) (a : Actor) : Int := n - (Tally.total underWay w.actors - underWay a)

section World

variable {n : Int} {w : World}

theorem underWay_deliver (peer : Sha256) (acks : List BlockAck) (a : Actor) :
    underWay (World.deliver peer acks a) = underWay a := by
  unfold World.deliver
  split <;> rfl

/-- The account after a handler. -/
theorem accounted_after (hw : Accounted n w) {i : Nat} {a : Actor} (hget : w.actors[i]? = some a) {ctx : Context}
    (hctx : Balanced (share n w a) ctx) (hsent : ctx.ioCommands = []) : Accounted n (w.after i a ctx) := by
  refine ⟨⟨?_, hctx.positive⟩, actors_after (fun _ _ hq => ⟨hq.write, hq.read⟩) hw.queues hctx.queues i a⟩
  have hsum := hctx.sum
  rw [hsent, writes_nil] at hsum
  show ctx.writeRequests + Tally.total underWay ((w.actors.set i ctx.actor).map _) = n
  rw [Tally.total_map, Tally.total_congr fun b _ => underWay_deliver a.peer _ b, Tally.total_set hget]
  unfold share at hsum
  omega

/-- A handler starts with a balanced account. -/
theorem balanced_context (hw : Accounted n w) {a a' : Actor} (hsame : a'.fsRequests = a.fsRequests)
    (hqueues : Queues a') : Balanced (share n w a) (w.context a') := by
  refine ⟨?_, hw.positive, hqueues, fun _ => rfl⟩
  have hsum := hw.sum
  show w.writeRequests + 0 + underWay a' = share n w a
  unfold share
  rw [underWay, hsame]
  show _ = n - (Tally.total underWay w.actors - Tally.total writes a.fsRequests)
  omega

theorem accounted_closing (hw : Accounted n w) {i : Nat} {a : Actor} (hget : w.actors[i]? = some a)
    {handler : Context → Except Fault Context} {ctx : Context}
    (hctx : Post (Balanced (share n w a)) Solvent (handler ctx)) :
    Post (fun ctx => Accounted n (w.after i a ctx)) Solvent (World.closing handler ctx) := by
  refine hctx.bind fun ctx' hctx' => hctx'.close.mono fun ctx'' hclosed => ?_
  exact accounted_after hw hget hclosed.toBalanced hclosed.sent

/-- **One event** that is not the timer keeps the account, and never takes more than there is. -/
theorem accounted_step (hw : Accounted n w) {e : Event} (he : ∀ i, e ≠ .fsAckTimer i) :
    Post (fun o => ∀ w' ∈ o, Accounted n w') Solvent (w.step e) := by
  have hqueues : ∀ {i : Nat} {a : Actor}, w.actors[i]? = some a → Queues a := fun hget =>
    hw.queues _ (List.mem_of_getElem? hget)
  cases e with
  | start peer blocksMaxRequested hasherThreads advancesPerIteration requestPool order =>
    rw [World.step]
    split
    · exact nofun
    · intro w' hw'
      cases hw'
      refine ⟨⟨?_, hw.positive⟩, fun a ha => ?_⟩
      · have hsum := hw.sum
        show w.writeRequests + Tally.total underWay (w.actors ++ [_]) = n
        rw [Tally.total_append, Tally.total_cons, Tally.total_nil]
        show _ + (_ + (0 + 0)) = n
        omega
      · rcases List.mem_append.mp ha with ha | ha
        · exact hw.queues a ha
        · rw [List.mem_singleton.mp ha]
          exact ⟨nofun, nofun⟩
  | forward i messages =>
    rw [World.step]
    refine post_handle fun a a' hget htaken _ => accounted_closing hw hget ?_
    cases htaken
    have hthrough : Through (fun _ _ => True) (w.context a) messages := Run.meets_of_forall fun _ _ => trivial
    exact post_onForward (fun ctx m hctx _ => hctx.onMessage m) (balanced_context hw rfl (hqueues hget))
      fun _ => hthrough
  | digest i k view digest items =>
    rw [World.step]
    refine post_handle fun a a' hget htaken _ => accounted_closing hw hget ?_
    have hctx : Balanced (share n w a) (w.context a') := by
      split at htaken
      · cases htaken
        exact balanced_context hw rfl ⟨(hqueues hget).write, (hqueues hget).read⟩
      · cases htaken
    split
    · exact hctx.onDigest ..
    · exact hctx
  | io i k results items =>
    rw [World.step]
    refine post_handle fun a a' hget htaken _ => accounted_closing hw hget ?_
    split at htaken
    · rename_i hlength
      cases htaken
      -- the message is not under way any more, and its writes are still to be given back
      obtain ⟨commands, hcommands, hresults⟩ := Option.map_eq_some_iff.mp hlength
      rw [hcommands, Option.getD_some]
      have hfst : (commands.zip results).map Prod.fst = commands := List.map_fst_zip (by omega)
      refine Balanced.onPostprocessIo ?_ items
      have hsum := hw.sum
      refine ⟨?_, hw.positive, ⟨(hqueues hget).write, (hqueues hget).read⟩, fun _ => rfl⟩
      show w.writeRequests + 0 + Tally.total writes (a.fsRequests.eraseIdx k) =
        n - (Tally.total underWay w.actors - Tally.total writes a.fsRequests) - _
      rw [Tally.total_eraseIdx hcommands, hfst]
      omega
    · cases htaken
  | visit i finish items =>
    rw [World.step]
    refine post_handle fun a a' hget htaken _ => accounted_closing hw hget ?_
    have hctx : Balanced (share n w a) (w.context a') := by
      split at htaken
      · cases htaken
        exact balanced_context hw rfl ⟨(hqueues hget).write, (hqueues hget).read⟩
      · cases htaken
    exact hctx.visit ..
  | peerDown i =>
    rw [World.step]
    refine post_handle fun a a' hget htaken _ => ?_
    cases htaken
    exact accounted_after hw hget
      (balanced_context hw rfl ⟨(hqueues hget).write, (hqueues hget).read⟩) rfl
  | shutdownStart i =>
    rw [World.step]
    refine post_handle fun a a' hget htaken _ => ?_
    split at htaken
    · cases htaken
      exact accounted_after hw hget
        (balanced_context hw rfl ⟨(hqueues hget).write, (hqueues hget).read⟩) rfl
    · cases htaken
  | fsAckTimer i => exact absurd rfl (he i)
  | shutdownFinish i suspended =>
    rw [World.step]
    refine post_handle fun a a' hget htaken _ => ?_
    split at htaken
    · cases htaken
      have hctx : Balanced (share n w a) (w.context a) := balanced_context hw rfl (hqueues hget)
      refine accounted_after hw hget ⟨hctx.sum, hctx.positive, ?_, fun _ => rfl⟩ rfl
      exact ⟨hctx.queues.write, hctx.queues.read⟩
    · cases htaken

/-! ## The timer -/

/-- The timer gives back what is forgotten: one write in a message, on average. -/
def Settles (w : World) : Event → Prop
  | .fsAckTimer i => ∀ a ∈ w.actors[i]?, a.phase = .shuttingDown → underWay a = a.fsRequests.length
  | _ => True

instance (w : World) (e : Event) : Decidable (Settles w e) :=
  match e with
  | .fsAckTimer i => inferInstanceAs (Decidable (∀ a ∈ w.actors[i]?, a.phase = .shuttingDown →
      underWay a = a.fsRequests.length))
  | .start .. | .forward .. | .digest .. | .io .. | .visit .. | .peerDown .. | .shutdownStart ..
  | .shutdownFinish .. => inferInstanceAs (Decidable True)

/-- The context when the timer has fired. -/
def World.forgetting (w : World) (a : Actor) : Context :=
  { w.context a with
    writeRequests := w.writeRequests + a.fsRequests.length
    actor := { a with fsRequests := [], forgotten := a.forgotten ++ a.fsRequests } }

theorem onFsAckTimer_ok (hpositive : 0 ≤ w.writeRequests) (a : Actor) :
    (w.context a).onFsAckTimer = .ok (w.forgetting a) := by
  unfold Context.onFsAckTimer Context.modifyWriteRequests
  dsimp only
  rw [if_neg (by show ¬ w.writeRequests + (a.fsRequests.length : Int) < 0; omega)]
  rfl

theorem step_timer (hpositive : 0 ≤ w.writeRequests) {i : Nat} {a : Actor} (hget : w.actors[i]? = some a)
    (hphase : a.phase = .shuttingDown) :
    w.step (.fsAckTimer i) = .ok (some (w.after i a (w.forgetting a))) := by
  rw [World.step]
  unfold World.handle
  simp only [hget, hphase, if_true, reduceCtorEq, if_false]
  show ((w.context a).onFsAckTimer >>= _) = _
  rw [onFsAckTimer_ok hpositive]
  rfl

/-- **The timer** keeps the account exactly if as many messages as writes are forgotten. -/
theorem budget_timer (hw : Accounted n w) {i : Nat} {a : Actor} (hget : w.actors[i]? = some a) :
    (∀ b ∈ (w.after i a (w.forgetting a)).actors, Queues b) ∧
      (Budget n (w.after i a (w.forgetting a)) ↔ underWay a = a.fsRequests.length) := by
  have hsum := hw.sum
  have hpositive := hw.positive
  have hqueues := hw.queues a (List.mem_of_getElem? hget)
  refine ⟨actors_after (fun _ _ hq => ⟨hq.write, hq.read⟩) hw.queues ⟨hqueues.write, hqueues.read⟩ i a, ?_⟩
  have htotal : Tally.total underWay (w.after i a (w.forgetting a)).actors =
      Tally.total underWay w.actors - underWay a := by
    show Tally.total underWay ((w.actors.set i _).map _) = _
    rw [Tally.total_map, Tally.total_congr fun b _ => underWay_deliver a.peer _ b, Tally.total_set hget]
    show _ - underWay a + 0 = _
    rw [add_zero]
  have hleft : (w.after i a (w.forgetting a)).writeRequests = w.writeRequests + a.fsRequests.length := rfl
  constructor
  · intro h
    have hsum' := h.sum
    rw [htotal, hleft] at hsum'
    omega
  · intro h
    refine ⟨?_, ?_⟩
    · rw [htotal, hleft]
      omega
    · rw [hleft]
      omega

/-! ## Runs -/

theorem accounted_initial (hn : 0 ≤ n) : Accounted n (World.initial n) :=
  ⟨⟨add_zero n, hn⟩, nofun⟩

theorem timer_of_next {i : Nat} {w' : World} (hnext : w.next (.fsAckTimer i) = some w') :
    ∃ a, w.actors[i]? = some a ∧ a.phase = .shuttingDown := by
  have hstep := next_ok hnext
  rw [World.step] at hstep
  obtain ⟨a, a', ctx, hget, htaken, -⟩ := handle_ok hstep
  refine ⟨a, hget, ?_⟩
  split at htaken
  · assumption
  · cases htaken

/-- One event: the account is kept exactly if the event settles it. -/
theorem budget_next (hw : Accounted n w) {e : Event} {w' : World} (hnext : w.next e = some w') :
    (∀ a ∈ w'.actors, Queues a) ∧ (Budget n w' ↔ Settles w e) := by
  by_cases htimer : ∃ i, e = .fsAckTimer i
  · obtain ⟨i, rfl⟩ := htimer
    obtain ⟨a, hget, hphase⟩ := timer_of_next hnext
    have hstep := next_ok hnext
    rw [step_timer hw.positive hget hphase] at hstep
    cases hstep
    refine ⟨(budget_timer hw hget).1, (budget_timer hw hget).2.trans ⟨fun h b hb _ => ?_, fun h => ?_⟩⟩
    · rw [hget] at hb
      cases hb
      exact h
    · exact h a hget hphase
  · push Not at htimer
    have hw' := (accounted_step hw htimer).of_ok (next_ok hnext) w' rfl
    refine ⟨hw'.queues, fun _ => ?_, fun _ => hw'.toBudget⟩
    cases e with
    | fsAckTimer i => exact absurd rfl (htimer i)
    | _ => trivial

theorem settles_of_none (hw : Accounted n w) {e : Event} (hnone : w.next e = none) : Settles w e := by
  cases e with
  | fsAckTimer i =>
    intro a hget hphase
    unfold World.next at hnone
    rw [step_timer hw.positive hget hphase] at hnone
    cases hnone
  | _ => trivial

theorem solvent_step (hw : Accounted n w) (e : Event) : w.step e ≠ .error .overdrawn := by
  intro hover
  cases e with
  | fsAckTimer i =>
    have hpost : Post (fun o => ∀ w' ∈ o, True) Solvent (w.step (.fsAckTimer i)) := by
      rw [World.step]
      refine post_handle fun a a' _ htaken _ => ?_
      split at htaken
      · cases htaken
        rw [onFsAckTimer_ok hw.positive]
        trivial
      · cases htaken
    exact hpost.of_error hover rfl
  | _ => exact (accounted_step hw (by exact nofun)).of_error hover rfl

/-- The account alone tells, as nothing goes wrong with the queues. -/
theorem accounted_of_budget (hn : 0 ≤ n) (es : List Event) :
    ∀ w, (∀ es' w', es' <+: es → Run.exec World.next (World.initial n) es' = some w' → Budget n w') →
      Run.exec World.next (World.initial n) es = some w → Accounted n w := by
  -- on the last event: the queues are as they should be after it, given the account before it
  induction es using List.reverseRecOn with
  | nil =>
    rintro w - hrun
    cases hrun
    exact accounted_initial hn
  | append_singleton es e ih =>
    intro w hall hrun
    have hbudget := hall _ w List.prefix_rfl hrun
    rw [Run.exec_append] at hrun
    obtain ⟨mid, hmid, hlast⟩ := Option.bind_eq_some_iff.mp hrun
    have hacc := ih mid (fun es' w' hes' => hall es' w' (hes'.trans (List.prefix_append es [e]))) hmid
    obtain ⟨w', hnext, hw'⟩ := Option.bind_eq_some_iff.mp hlast
    cases hw'
    exact ⟨hbudget, (budget_next hacc hnext).1⟩

/-- **The budget**: in every run, the account is right at all times exactly if the timer never
fires with more or fewer messages than writes under way. -/
theorem budget_iff (hn : 0 ≤ n) (es : List Event) :
    (∀ es' w, es' <+: es → Run.exec World.next (World.initial n) es' = some w →
      w.writeRequests + Tally.total underWay w.actors = n ∧ 0 ≤ w.writeRequests ∧
        ∀ e, w.step e ≠ .error .overdrawn) ↔
      Run.Meets World.next Settles (World.initial n) es := by
  have hstep : ∀ (done : List Event) s e s', Accounted n s → World.next s e = some s' →
      (Accounted n s' ↔ Settles s e) := fun _ s e s' hs hnext =>
    ⟨fun h => (budget_next hs hnext).2.mp h.toBudget,
      fun h => ⟨(budget_next hs hnext).2.mpr h, (budget_next hs hnext).1⟩⟩
  have hiff : Run.Meets World.next Settles (World.initial n) es ↔ ∀ es' w, es' <+: es →
      Run.exec World.next (World.initial n) es' = some w → Accounted n w :=
    @Run.meets_iff _ _ _ _ (fun _ w => Accounted n w) hstep (fun _ _ _ hs => settles_of_none hs) es [] _
      (accounted_initial hn)
  rw [hiff]
  constructor
  · intro hall es' w hes' hrun
    refine accounted_of_budget hn es' w (fun es'' w'' hes'' hrun'' => ?_) hrun
    obtain ⟨hsum, hpositive, -⟩ := hall es'' w'' (hes''.trans hes') hrun''
    exact ⟨hsum, hpositive⟩
  · intro hall es' w hes' hrun
    have hacc := hall es' w hes' hrun
    exact ⟨hacc.sum, hacc.positive, solvent_step hacc⟩

end World

/-- A controller clones blocks that are available locally, and is shut down before the file system
answers. -/
def clones (hashes : List UInt8) : List Event :=
  [.start [2] 4 1 10 100 (.insertion _),
    .visit 0 [] (hashes.map fun h => .block ⟨⟨"docs", 0⟩, "a", [h], 10, 1, 0, h.toNat⟩ true),
    .shutdownStart 0, .fsAckTimer 0]

/-- One block: the message that is forgotten holds one write. -/
theorem budget_of_one : Run.Meets World.next Settles (World.initial 8) (clones [7]) ∧
    ∀ es' w, es' <+: clones [7] → Run.exec World.next (World.initial 8) es' = some w →
      w.writeRequests + Tally.total underWay w.actors = 8 ∧ 0 ≤ w.writeRequests ∧
        ∀ e, w.step e ≠ .error .overdrawn := by
  have hmeets : Run.Meets World.next Settles (World.initial 8) (clones [7]) := by decide +kernel
  exact ⟨hmeets, (budget_iff (by decide) _).mpr hmeets⟩

/-- Two blocks: they are forgotten as one message, and one write request is lost. -/
theorem request_lost : (Run.exec World.next (World.initial 8) (clones [7, 8])).map
    (fun w => (w.writeRequests, Tally.total underWay w.actors)) = some (7, 0) := by
  decide +kernel

end Controller

end SyncSpirit
