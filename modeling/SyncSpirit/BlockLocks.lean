import Mathlib
import SyncSpirit.BlockRequests

/-!
# The locks of the blocks

A block that is fetched is locked, so that no other file and no other controller fetches it, too. It
stays locked while it is requested, hashed, written and acknowledged. A block that is cloned is guarded
but not locked.

What a controller is busy with is a list of jobs, wherever they are just now. `Ledger` says how the
jobs, the locks and the guards go together: a handler moves jobs from one place to another, and only a
job that starts or ends touches a lock. `locks_of_run` is the result for whole runs. The condition
(`Releases`) leaves out the exits that lose a job: they give back the guard of the block, but not its lock
(`lock_lost`).
-/

namespace SyncSpirit

namespace Controller

open Fallible

/-! ## Jobs -/

/-- A block that a controller is busy with. If it is fetched, it is locked. -/
structure Job where
  folderId : String
  hash : Bytes
  block : BlockId
  locks : Bool
  deriving DecidableEq, Repr

/-- The key of the guard of a job. -/
def Job.key (j : Job) : String × Bytes := (j.folderId, j.hash)

/-- The job has locked the block. -/
def Job.holds (b : BlockId) (j : Job) : Bool := j.locks && j.block == b

theorem Job.holds_self {j : Job} (hlocks : j.locks = true) : Job.holds j.block j = true := by simp [Job.holds, hlocks]

theorem Job.holds_of_ne {j : Job} {b : BlockId} (hb : b ≠ j.block) : Job.holds b j = false := by
  simpa [Job.holds] using fun _ heq => hb (Eq.symm heq)

theorem Job.holds_of_not {j : Job} (hlocks : j.locks = false) (b : BlockId) : Job.holds b j = false := by
  simp [Job.holds, hlocks]

/-- A request, until the block is hashed. -/
def PeerRequest.job (r : PeerRequest) : Job := ⟨r.folderId, r.hash, r.block, true⟩

/-- A block on its way to the file system. -/
def BlockAckContext.job (c : BlockAckContext) (locks : Bool) : Job := ⟨c.folderId, c.hash, c.block, locks⟩

/-- A write, until it is acknowledged. -/
def IoCommand.job : IoCommand → Option Job
  | .appendBlock c => some (c.job true)
  | .cloneBlock c => some (c.job false)
  | .blockRequest | .file => none

/-- An acknowledgement, until it has come back. -/
def BlockAck.job (k : BlockAck) : Job := k.toBlockAckContext.job k.unlock

/-- The jobs of some commands. -/
def commandJobs (commands : List IoCommand) : List Job := commands.filterMap IoCommand.job

@[simp] theorem commandJobs_nil : commandJobs [] = [] := rfl

@[simp] theorem commandJobs_append (commands commands' : List IoCommand) :
    commandJobs (commands ++ commands') = commandJobs commands ++ commandJobs commands' := List.filterMap_append

/-- The jobs of a table of requests. -/
def tableJobs (requests : List (Option PeerRequest)) : List Job := requests.filterMap (Option.map PeerRequest.job)

/-- The jobs of a controller: requests, digests, writes that wait, that are under way or forgotten,
and acknowledgements. -/
def Actor.jobs (a : Actor) : List Job :=
  tableJobs a.blockRequests ++ a.digests.map PeerRequest.job ++
    commandJobs (a.blockWriteQueue ++ a.blockReadQueue ++ a.fsRequests.flatten ++ a.forgotten.flatten) ++
      a.acks.map BlockAck.job

/-- The jobs of a controller that is just handling something. -/
def Context.jobs (ctx : Context) : List Job :=
  ctx.actor.jobs ++ commandJobs ctx.ioCommands ++ ctx.newAcks.map BlockAck.job

/-- A request takes a free entry. -/
theorem tableJobs_set {requests : List (Option PeerRequest)} {id : Nat} (h : requests[id]? = some none)
    (r : PeerRequest) : (tableJobs (requests.set id (some r))).Perm (r.job :: tableJobs requests) := by
  obtain ⟨hlt, hget⟩ := List.getElem?_eq_some_iff.mp h
  have hsplit : requests = requests.take id ++ none :: requests.drop (id + 1) := by
    rw [← hget, List.getElem_cons_drop, List.take_append_drop]
  have hset : requests.set id (some r) = requests.take id ++ some r :: requests.drop (id + 1) := by
    rw [List.set_eq_take_append_cons_drop, if_pos hlt]
  unfold tableJobs
  rw [hset]
  conv => rhs; rw [hsplit]
  rw [List.filterMap_append, List.filterMap_append, List.filterMap_cons_some (by rfl),
    List.filterMap_cons_none (by rfl)]
  exact List.perm_middle

/-- An entry gets free. -/
theorem tableJobs_free {requests : List (Option PeerRequest)} {id : Nat} {r : PeerRequest}
    (h : requests[id]? = some (some r)) : (r.job :: tableJobs (requests.set id none)).Perm (tableJobs requests) := by
  obtain ⟨hlt, hget⟩ := List.getElem?_eq_some_iff.mp h
  have hfree : (requests.set id none)[id]? = some none := List.getElem?_set_self hlt
  have hback : (requests.set id none).set id (some r) = requests := by
    rw [List.set_set, ← hget, List.set_getElem_self]
  have hperm := tableJobs_set hfree r
  rw [hback] at hperm
  exact hperm.symm

/-! ## Guards -/

/-- A fault that is not about a lock or a guard. -/
def Orderly (f : Fault) : Prop := f ≠ .assertion ∧ f ≠ .noRecord

/-- `release_block` of a guard that counts. -/
theorem releaseBlock_spec {objectOf : String → Nat} {ctx : Context} (hnamed : ctx.actor.synchronizing.Named objectOf)
    {folderId : String} {hash : Bytes} (hpos : 0 < ctx.actor.synchronizing.guardCount (folderId, hash)) :
    ∃ b guards, ctx.releaseBlock folderId hash = .ok (b, ctx.setGuards guards) ∧
      ctx.actor.synchronizing.Released objectOf folderId hash b guards := by
  obtain ⟨s, b, guards, hrecord, hfinish, hreleased⟩ := hnamed.release_spec hpos
  refine ⟨b, _, ?_, hreleased⟩
  unfold Context.releaseBlock
  rw [hrecord]
  dsimp only
  rw [hfinish]

/-! ## The ledger -/

/-- Every job has a guard, each folder id one folder, and all the hashes are those of the blocks. -/
structure Guarded (hashOf : BlockId → Bytes) (objectOf : String → Nat) (jobs : List Job)
    (guards : SynchronizingFolders) : Prop where
  named : guards.Named objectOf
  guarded : ∀ key, jobs.countP (fun j => j.key = key) ≤ guards.guardCount key
  hashes : ∀ j ∈ jobs, hashOf j.block = j.hash
  blocks : ∀ folder hash b, guards.Has folder hash b → hashOf b = hash

/-- **Jobs, locks and guards.** `others` has what the other controllers have locked: a block is locked as
often as it is fetched. -/
structure Ledger (hashOf : BlockId → Bytes) (objectOf : String → Nat) (others : BlockId → Int) (jobs : List Job)
    (locked : BlockId → Bool) (guards : SynchronizingFolders) : Prop extends Guarded hashOf objectOf jobs guards where
  tally : ∀ b, others b + jobs.countP (Job.holds b) = if locked b then 1 else 0

section Ledger

variable {hashOf : BlockId → Bytes} {objectOf : String → Nat} {others : BlockId → Int} {jobs jobs' : List Job}
  {locked : BlockId → Bool} {guards guards' : SynchronizingFolders} {j : Job}

/-- Jobs are moved. -/
theorem Ledger.perm (h : Ledger hashOf objectOf others jobs locked guards) (hperm : jobs'.Perm jobs) :
    Ledger hashOf objectOf others jobs' locked guards where
  tally b := by
    rw [hperm.countP_eq]
    exact h.tally b
  guarded key := by
    rw [hperm.countP_eq]
    exact h.guarded key
  named := h.named
  hashes j hj := h.hashes j (hperm.mem_iff.mp hj)
  blocks := h.blocks

/-- A job starts: it is guarded, and if it locks its block, the block was not locked. -/
theorem Ledger.start (h : Ledger hashOf objectOf others jobs locked guards) (hhash : hashOf j.block = j.hash)
    {folder : FolderPtr} (hfolder : folder.object = objectOf folder.id) (hid : folder.id = j.folderId)
    (hfree : j.locks = true → locked j.block = false) :
    Ledger hashOf objectOf others (j :: jobs) (if j.locks then Function.update locked j.block true else locked)
      (guards.acquire folder j.hash j.block) where
  named := h.named.acquire hfolder _ _
  tally b := by
    have htally := h.tally b
    rw [List.countP_cons]
    cases hlocks : j.locks with
    | true =>
      by_cases hb : b = j.block
      · subst hb
        rw [hfree hlocks, if_neg Bool.false_ne_true] at htally
        rw [Job.holds_self hlocks, if_pos rfl, if_pos rfl, Function.update_self, if_pos rfl]
        push_cast
        omega
      · rw [Job.holds_of_ne hb, if_neg Bool.false_ne_true, if_pos rfl, Function.update_of_ne hb, add_zero]
        exact htally
    | false =>
      rw [Job.holds_of_not hlocks, if_neg Bool.false_ne_true, if_neg Bool.false_ne_true, add_zero]
      exact htally
  guarded key := by
    have hle := h.guarded key
    rw [List.countP_cons, h.named.guardCount_acquire hfolder, hid, ← Job.key]
    by_cases hkey : key = j.key
    · simp only [hkey, decide_true, if_true] at hle ⊢
      omega
    · have hne : ¬ j.key = key := fun heq => hkey heq.symm
      simp only [hne, decide_false, hkey, if_false, Bool.false_eq_true] at hle ⊢
      omega
  hashes k hk := by
    rcases List.mem_cons.mp hk with rfl | hk
    · exact hhash
    · exact h.hashes k hk
  blocks folder' hash b hb := by
    rcases hb.of_acquire with hold | ⟨rfl, rfl⟩
    · exact h.blocks folder' hash b hold
    · exact hhash

/-- The block of a job that has locked it is locked. -/
theorem Ledger.locked_of_mem (h : Ledger hashOf objectOf others jobs locked guards) (hothers : ∀ b, 0 ≤ others b)
    (hj : j ∈ jobs) (hlocks : j.locks = true) : locked j.block = true := by
  have htally := h.tally j.block
  have hpos : 0 < jobs.countP (Job.holds j.block) :=
    List.countP_pos_iff.mpr ⟨j, hj, Job.holds_self hlocks⟩
  have hnonneg := hothers j.block
  by_contra hno
  rw [if_neg hno] at htally
  omega

/-- A job ends: its guard is given back, and so is its lock. -/
theorem Ledger.finish (h : Ledger hashOf objectOf others (j :: jobs) locked guards) (hothers : ∀ b, 0 ≤ others b)
    {b : BlockId} (hreleased : guards.Released objectOf j.folderId j.hash b guards') :
    Ledger hashOf objectOf others jobs (if j.locks then Function.update locked j.block false else locked) guards' where
  tally b := by
    have htally := h.tally b
    rw [List.countP_cons] at htally
    cases hlocks : j.locks with
    | true =>
      by_cases hb : b = j.block
      · subst hb
        rw [h.locked_of_mem hothers (List.mem_cons_self ..) hlocks, Job.holds_self hlocks, if_pos rfl,
          if_pos rfl] at htally
        rw [if_pos rfl, Function.update_self, if_neg Bool.false_ne_true]
        push_cast at htally
        omega
      · rw [Job.holds_of_ne hb, if_neg Bool.false_ne_true, add_zero] at htally
        rw [if_pos rfl, Function.update_of_ne hb]
        exact htally
    | false =>
      rw [Job.holds_of_not hlocks, if_neg Bool.false_ne_true, add_zero] at htally
      rw [if_neg Bool.false_ne_true]
      exact htally
  guarded key := by
    have hle := h.guarded key
    have hback := hreleased.count key
    rw [← Job.key] at hback
    rw [List.countP_cons] at hle
    by_cases hkey : key = j.key
    · simp only [hkey, decide_true, if_true] at hle hback ⊢
      omega
    · have hne : ¬ j.key = key := fun heq => hkey heq.symm
      simp only [hne, decide_false, hkey, if_false, Bool.false_eq_true] at hle hback ⊢
      omega
  named := hreleased.named
  hashes k hk := h.hashes k (List.mem_cons_of_mem _ hk)
  blocks folder hash b hb := h.blocks folder hash b (hreleased.old folder hash b hb)

/-- The guard of a job that is under way counts. -/
theorem Ledger.guardCount_pos (h : Ledger hashOf objectOf others (j :: jobs) locked guards) :
    0 < guards.guardCount (j.folderId, j.hash) := by
  have hle := h.guarded j.key
  rw [List.countP_cons_of_pos (by simp)] at hle
  exact Nat.lt_of_lt_of_le (Nat.succ_pos _) hle

/-- The block of a guard that is given back is the block of the job. -/
theorem Ledger.block_of_released (hinj : Function.Injective hashOf)
    (h : Ledger hashOf objectOf others (j :: jobs) locked guards) {b : BlockId}
    (hreleased : guards.Released objectOf j.folderId j.hash b guards') : b = j.block := by
  obtain ⟨folder, hhas⟩ := hreleased.block
  refine hinj ((h.blocks folder j.hash b hhas).trans ?_)
  exact (h.hashes j (List.mem_cons_self ..)).symm

/-- A job that locks nothing may be lost. -/
theorem Ledger.lose (h : Ledger hashOf objectOf others (j :: jobs) locked guards) (hlocks : j.locks = false) :
    Ledger hashOf objectOf others jobs locked guards where
  tally b := by
    have htally := h.tally b
    rwa [List.countP_cons_of_neg (by simp [Job.holds_of_not hlocks])] at htally
  guarded key := by
    have hle := h.guarded key
    rw [List.countP_cons] at hle
    omega
  named := h.named
  hashes k hk := h.hashes k (List.mem_cons_of_mem _ hk)
  blocks := h.blocks

end Ledger

/-! ## Moving jobs -/

/-- A controller that is going down has no job in a command that is still to be sent. -/
def Idle (ctx : Context) : Prop := ctx.actor.phase ≠ .operational → commandJobs ctx.ioCommands = []

/-- What a handler moves jobs with: nothing else changes. -/
structure Moved (ctx ctx' : Context) : Prop where
  locked : ctx'.locked = ctx.locked
  guards : ctx'.actor.synchronizing = ctx.actor.synchronizing
  peer : ctx'.actor.peer = ctx.actor.peer
  phase : ctx'.actor.phase = ctx.actor.phase
  acks : ctx'.newAcks = ctx.newAcks

/-- Jobs are moved between the places of a context and what its handler has in hand. -/
structure Moves (ctx : Context) (hand : List Job) (ctx' : Context) (hand' : List Job) : Prop extends
    Moved ctx ctx' where
  count : ∀ j, (hand' ++ ctx'.jobs).count j = (hand ++ ctx.jobs).count j
  idle : Idle ctx'

/-- The faults that moving a job may end in: none is about a lock or a guard. -/
def Tolerates (E : Fault → Prop) : Prop := ∀ f, f ≠ .assertion → f ≠ .nullPointer → f ≠ .noRecord → E f

theorem tolerates_orderly : Tolerates Orderly := fun _ hf _ hr => ⟨hf, hr⟩

section Moves

variable {E : Fault → Prop} {ctx ctx' ctx'' : Context} {hand hand' hand'' : List Job} {j : Job} {r : PeerRequest}

theorem Moves.perm (h : Moves ctx hand ctx' hand') : (hand' ++ ctx'.jobs).Perm (hand ++ ctx.jobs) :=
  List.perm_iff_count.mpr h.count

theorem Moves.trans (h : Moves ctx hand ctx' hand') (h' : Moves ctx' hand' ctx'' hand'') :
    Moves ctx hand ctx'' hand'' where
  locked := h'.locked.trans h.locked
  guards := h'.guards.trans h.guards
  peer := h'.peer.trans h.peer
  phase := h'.phase.trans h.phase
  acks := h'.acks.trans h.acks
  count k := (h'.count k).trans (h.count k)
  idle := h'.idle

/-- A command that is no job. -/
theorem moves_push (hidle : Idle ctx) {command : IoCommand} (hjob : command.job = none) :
    Moves ctx hand (ctx.push command) hand := by
  have hsame : commandJobs (ctx.push command).ioCommands = commandJobs ctx.ioCommands := by
    have hcommand : commandJobs [command] = [] := List.filterMap_cons_none hjob
    show commandJobs (ctx.ioCommands ++ [command]) = _
    rw [commandJobs_append, hcommand, List.append_nil]
  refine ⟨⟨rfl, rfl, rfl, rfl, rfl⟩, fun k => ?_, fun hphase => ?_⟩
  · rw [Context.jobs, hsame]
    rfl
  · rw [hsame]
    exact hidle hphase

theorem modifyWriteRequests_spec (hE : Tolerates E) (ctx : Context) (delta : Int) :
    Post (fun ctx' => ∃ n, ctx' = { ctx with writeRequests := n }) E (ctx.modifyWriteRequests delta) := by
  unfold Context.modifyWriteRequests
  split
  · exact hE _ nofun nofun nofun
  · exact ⟨_, rfl⟩

theorem moves_modifyWriteRequests (hE : Tolerates E) (hidle : Idle ctx) (delta : Int) :
    Post (fun ctx' => Moves ctx hand ctx' hand) E (ctx.modifyWriteRequests delta) := by
  refine (modifyWriteRequests_spec hE ctx delta).mono fun ctx' ⟨n, hctx'⟩ => ?_
  subst hctx'
  exact ⟨⟨rfl, rfl, rfl, rfl, rfl⟩, fun _ => rfl, hidle⟩

/-- A write is sent, or waits in the queue. -/
theorem moves_pushChecked (hE : Tolerates E) {command : IoCommand} (hjob : command.job = some j)
    (hphase : ctx.actor.phase = .operational) :
    Post (fun ctx' => Moves ctx (j :: hand) ctx' hand) E (ctx.pushChecked command) := by
  have hcommand : commandJobs [command] = [j] := List.filterMap_cons_some hjob
  unfold Context.pushChecked
  rw [if_pos hphase]
  split
  · have hsent : Moves ctx (j :: hand) (ctx.push command) hand := by
      refine ⟨⟨rfl, rfl, rfl, rfl, rfl⟩, fun k => ?_, fun hno => absurd hphase hno⟩
      show (hand ++ (ctx.actor.jobs ++ commandJobs (ctx.ioCommands ++ [command]) ++
        ctx.newAcks.map BlockAck.job)).count k = _
      rw [commandJobs_append, hcommand]
      simp only [Context.jobs, List.count_append, List.cons_append, List.count_cons, List.count_nil]
      omega
    exact (moves_modifyWriteRequests hE hsent.idle _).mono fun ctx' hctx' => hsent.trans hctx'
  · refine ⟨⟨rfl, rfl, rfl, rfl, rfl⟩, fun k => ?_, fun hno => absurd hphase hno⟩
    simp only [Context.jobs, Actor.jobs, commandJobs_append, hcommand, List.count_append, List.cons_append,
      List.count_cons, List.count_nil]
    omega

/-- A request goes to the table. -/
theorem moves_requestBlock (hE : Tolerates E) (hidle : Idle ctx) :
    Post (fun ctx' => Moves ctx (r.job :: hand) ctx' hand) E (ctx.requestBlock r) := by
  refine (post_requestBlock (hE _ nofun nofun nofun) (hE _ nofun nofun nofun) ctx r).mono fun ctx' ⟨id, hr⟩ => ?_
  rw [hr.same]
  refine ⟨⟨rfl, rfl, rfl, rfl, rfl⟩, fun k => ?_, hidle⟩
  have htable := (tableJobs_set hr.free r).count_eq k
  simp only [Context.jobs, Actor.jobs, List.count_append, List.cons_append, List.count_cons] at htable ⊢
  omega

/-- A request is answered. -/
theorem moves_freeEntry (hidle : Idle ctx) {id : Nat} (hentry : ctx.actor.blockRequests[id]? = some (some r)) :
    Moves ctx hand (ctx.countAnswer.freeEntry id) (r.job :: hand) := by
  refine ⟨⟨rfl, rfl, rfl, rfl, rfl⟩, fun k => ?_, hidle⟩
  have htable := (tableJobs_free hentry).count_eq k
  simp only [Context.freeEntry, Context.countAnswer, Context.jobs, Actor.jobs, List.cons_append, List.count_append,
    List.count_cons] at htable ⊢
  omega

/-- A block that has come is handed to the hasher. -/
theorem moves_calcDigest (hidle : Idle ctx) (size : Int) : Moves ctx (r.job :: hand) (ctx.calcDigest r size) hand := by
  refine ⟨⟨rfl, rfl, rfl, rfl, rfl⟩, fun k => ?_, hidle⟩
  simp only [Context.calcDigest, Context.jobs, Actor.jobs, List.map_append, List.map_cons, List.map_nil,
    List.cons_append, List.count_append, List.count_cons, List.count_nil]
  omega

theorem moves_onRequest (hidle : Idle ctx) (accepted : Bool) : Moves ctx hand (ctx.onRequest accepted) hand := by
  unfold Context.onRequest
  dsimp only
  split
  · split
    · refine ⟨⟨rfl, rfl, rfl, rfl, rfl⟩, fun k => ?_, hidle⟩
      have hread : commandJobs [.blockRequest] = [] := rfl
      simp only [Context.jobs, Actor.jobs, commandJobs_append, hread, List.append_nil]
    · have hpush : Moves ctx hand (ctx.push .blockRequest) hand := moves_push hidle rfl
      exact ⟨⟨rfl, rfl, rfl, rfl, rfl⟩, hpush.count, hpush.idle⟩
  · exact ⟨⟨rfl, rfl, rfl, rfl, rfl⟩, fun _ => rfl, hidle⟩

/-- The messages to the file system, with one more. -/
theorem flatten_send (requests : List (List IoCommand)) (commands : List IoCommand) :
    (if commands = [] then requests else requests ++ [commands]).flatten = requests.flatten ++ commands := by
  split
  · rename_i hnil
    rw [hnil, List.append_nil]
  · rw [List.flatten_append, List.flatten_singleton]

/-- **Closing** sends commands, and takes some from the queues. -/
theorem moves_close (hE : Tolerates E) (hidle : Idle ctx) :
    Post (fun ctx' => Moves ctx hand ctx' hand ∧ ctx'.ioCommands = []) E ctx.close := by
  unfold Context.close
  split
  · rename_i hphase
    dsimp only
    let sent := ctx.actor.blockWriteQueue.take ctx.writeRequests.toNat
    have hpay : Post (fun ctx' => ∃ n, ctx' = { ctx with writeRequests := n }) E (ctx.payWrites sent) := by
      unfold Context.payWrites
      split
      · exact ⟨ctx.writeRequests, rfl⟩
      · exact modifyWriteRequests_spec hE ctx _
    refine hpay.bind fun ctx' ⟨n, hctx'⟩ => ?_
    subst hctx'
    refine ⟨⟨⟨rfl, rfl, rfl, rfl, rfl⟩, fun k => ?_, fun _ => rfl⟩, rfl⟩
    let reads := ctx.actor.blockReadQueue.take
      (ctx.actor.blocksMaxRequested * txBlocksMaxFactor + 1 - ctx.actor.txBlocksRequested)
    have hwrites : sent ++ ctx.actor.blockWriteQueue.drop sent.length = ctx.actor.blockWriteQueue :=
      List.prefix_iff_eq_append.mp (List.take_prefix ..)
    have hreads : reads ++ ctx.actor.blockReadQueue.drop reads.length = ctx.actor.blockReadQueue :=
      List.prefix_iff_eq_append.mp (List.take_prefix ..)
    have hqueues : ctx.actor.jobs = tableJobs ctx.actor.blockRequests ++ ctx.actor.digests.map PeerRequest.job ++
        commandJobs (sent ++ ctx.actor.blockWriteQueue.drop sent.length ++
          (reads ++ ctx.actor.blockReadQueue.drop reads.length) ++ ctx.actor.fsRequests.flatten ++
            ctx.actor.forgotten.flatten) ++ ctx.actor.acks.map BlockAck.job := by
      rw [hwrites, hreads]
      rfl
    show (hand ++ (tableJobs ctx.actor.blockRequests ++ ctx.actor.digests.map PeerRequest.job ++
      commandJobs (ctx.actor.blockWriteQueue.drop sent.length ++ ctx.actor.blockReadQueue.drop reads.length ++
        List.flatten (if ctx.ioCommands ++ sent ++ reads = [] then ctx.actor.fsRequests
          else ctx.actor.fsRequests ++ [ctx.ioCommands ++ sent ++ reads]) ++ ctx.actor.forgotten.flatten) ++
            ctx.actor.acks.map BlockAck.job ++ commandJobs [] ++ ctx.newAcks.map BlockAck.job)).count k = _
    rw [flatten_send, Context.jobs, hqueues]
    simp only [commandJobs_append, commandJobs_nil, List.count_append, List.count_nil]
    omega
  · rename_i hphase
    refine ⟨⟨⟨rfl, rfl, rfl, rfl, rfl⟩, fun k => ?_, fun _ => rfl⟩, rfl⟩
    show (hand ++ (ctx.actor.jobs ++ commandJobs [] ++ _)).count k = _
    rw [Context.jobs, hidle hphase]
    rfl

/-- The commands that are collected stay in hand meanwhile. -/
theorem moves_closeInner (hE : Tolerates E) (hidle : Idle ctx) :
    Post (fun ctx' => Moves ctx hand ctx' hand) E ctx.closeInner := by
  have hinner : Moves ctx hand { ctx with ioCommands := [] } (commandJobs ctx.ioCommands ++ hand) := by
    refine ⟨⟨rfl, rfl, rfl, rfl, rfl⟩, fun k => ?_, fun _ => rfl⟩
    show (commandJobs ctx.ioCommands ++ hand ++ (ctx.actor.jobs ++ commandJobs [] ++
      ctx.newAcks.map BlockAck.job)).count k = _
    simp only [Context.jobs, commandJobs_nil, List.count_append, List.count_nil]
    omega
  refine (moves_close hE hinner.idle).bind fun ctx' ⟨hclose, hsent⟩ => (hinner.trans hclose).trans ?_
  refine ⟨⟨rfl, rfl, rfl, rfl, rfl⟩, fun k => ?_, fun hphase => hidle ?_⟩
  · show (hand ++ (ctx'.actor.jobs ++ commandJobs ctx.ioCommands ++ ctx'.newAcks.map BlockAck.job)).count k = _
    rw [Context.jobs, hsent]
    simp only [commandJobs_nil, List.count_append, List.count_nil]
    omega
  · rw [← (hinner.trans hclose).phase]
    exact hphase

end Moves

/-! ## Handlers -/

/-- The jobs of a context, with some that the handler has in hand, are in order. `alone` is what the
acknowledgements that it sends need. -/
structure Sound (hashOf : BlockId → Bytes) (objectOf : String → Nat) (others : BlockId → Int) (alone : Prop) (a : Actor)
    (hand : List Job) (ctx : Context) : Prop where
  ledger : Ledger hashOf objectOf others (hand ++ ctx.jobs) ctx.locked ctx.actor.synchronizing
  idle : Idle ctx
  peer : ctx.actor.peer = a.peer
  phase : ctx.actor.phase = a.phase
  silent : ctx.newAcks = [] ∨ alone

section Handlers

variable {hashOf : BlockId → Bytes} {objectOf : String → Nat} {others : BlockId → Int} {alone : Prop} {a : Actor}
  {hand hand' : List Job} {j : Job} {ctx ctx' : Context} {folder : FolderPtr}

theorem Sound.move (h : Sound hashOf objectOf others alone a hand ctx) (hmoves : Moves ctx hand ctx' hand') :
    Sound hashOf objectOf others alone a hand' ctx' where
  ledger := by
    rw [hmoves.locked, hmoves.guards]
    exact h.ledger.perm hmoves.perm
  idle := hmoves.idle
  peer := hmoves.peer.trans h.peer
  phase := hmoves.phase.trans h.phase
  silent := by
    rw [hmoves.acks]
    exact h.silent

theorem Sound.modifyWriteRequests (h : Sound hashOf objectOf others alone a hand ctx) (delta : Int) :
    Post (Sound hashOf objectOf others alone a hand) Orderly (ctx.modifyWriteRequests delta) :=
  (moves_modifyWriteRequests tolerates_orderly h.idle delta).mono fun _ hmoves => h.move hmoves

theorem Sound.pushChecked (h : Sound hashOf objectOf others alone a (j :: hand) ctx) {command : IoCommand}
    (hjob : command.job = some j) (hphase : ctx.actor.phase = .operational) :
    Post (Sound hashOf objectOf others alone a hand) Orderly (ctx.pushChecked command) :=
  (moves_pushChecked tolerates_orderly hjob hphase).mono fun _ hmoves => h.move hmoves

/-- A job starts: its guard is acquired. -/
theorem Sound.acquire (h : Sound hashOf objectOf others alone a hand ctx) (hhash : hashOf j.block = j.hash)
    (hfolder : folder.object = objectOf folder.id) (hid : folder.id = j.folderId) (hlocks : j.locks = false) :
    Sound hashOf objectOf others alone a (j :: hand) (ctx.acquireBlock folder j.hash j.block) := by
  have hledger := h.ledger.start hhash hfolder hid fun hyes => by rw [hlocks] at hyes; cases hyes
  rw [if_neg (by simp [hlocks])] at hledger
  exact ⟨hledger, h.idle, h.peer, h.phase, h.silent⟩

/-- A job starts that locks its block. -/
theorem Sound.acquireLock (h : Sound hashOf objectOf others alone a hand ctx) (hhash : hashOf j.block = j.hash)
    (hfolder : folder.object = objectOf folder.id) (hid : folder.id = j.folderId) (hlocks : j.locks = true)
    (hfree : ctx.locked j.block = false) :
    Post (Sound hashOf objectOf others alone a (j :: hand)) Orderly
      ((ctx.acquireBlock folder j.hash j.block).lockBlock j.block) := by
  have hledger := h.ledger.start hhash hfolder hid fun _ => hfree
  rw [if_pos hlocks] at hledger
  have hlock : (ctx.acquireBlock folder j.hash j.block).lockBlock j.block =
      .ok { ctx.acquireBlock folder j.hash j.block with
        locked := Function.update ctx.locked j.block true, lockedBlocks := j.block :: ctx.lockedBlocks } := by
    unfold Context.lockBlock
    rw [if_neg]
    · rfl
    · show ¬ ctx.locked j.block = true
      simp [hfree]
  rw [hlock]
  exact ⟨hledger, h.idle, h.peer, h.phase, h.silent⟩

/-- The block of an item has the hash that the request names. -/
def Item.Hashed (hashOf : BlockId → Bytes) : Item → Prop
  | .block r _ => hashOf r.block = r.hash
  | .file _ => True

instance (hashOf : BlockId → Bytes) : (item : Item) → Decidable (item.Hashed hashOf)
  | .block r _ => inferInstanceAs (Decidable (hashOf r.block = r.hash))
  | .file _ => inferInstanceAs (Decidable True)

/-- The folder of an item is the one of its id. -/
def Item.InFolder (objectOf : String → Nat) : Item → Prop
  | .block r _ => r.folder.object = objectOf r.folder.id
  | .file _ => True

instance (objectOf : String → Nat) : (item : Item) → Decidable (item.InFolder objectOf)
  | .block r _ => inferInstanceAs (Decidable (r.folder.object = objectOf r.folder.id))
  | .file _ => inferInstanceAs (Decidable True)

/-- `preprocess_block`. -/
theorem Sound.preprocessBlock (h : Sound hashOf objectOf others alone a hand ctx) {r : PeerRequest}
    (hhash : hashOf r.block = r.hash) (hfolder : r.folder.object = objectOf r.folder.id) {advances : Nat}
    (hmore : ctx.canPullMore advances = true) (hfree : ctx.isLocked r.block = false) (available : Bool) :
    Post (Sound hashOf objectOf others alone a hand) Orderly (ctx.preprocessBlock r available) := by
  have hphase : ctx.actor.phase = .operational := by
    simp only [Context.canPullMore, Bool.and_eq_true, decide_eq_true_eq] at hmore
    exact hmore.1.1.2
  have hunlocked : ctx.locked r.block = false := (Bool.or_eq_false_iff.mp hfree).2
  unfold Context.preprocessBlock
  split
  · dsimp only
    split
    · -- a clone: the block is not locked
      let c : BlockAckContext := ⟨r.folderId, r.block, r.hash⟩
      have hclone : Sound hashOf objectOf others alone a (c.job false :: hand)
          (ctx.acquireBlock r.folder r.hash r.block) := h.acquire (j := c.job false) hhash hfolder rfl rfl
      exact hclone.pushChecked rfl (hclone.phase.trans (h.phase.symm.trans hphase))
    · have hlock : Post (Sound hashOf objectOf others alone a (r.job :: hand)) Orderly
          ((ctx.acquireBlock r.folder r.hash r.block).lockBlock r.block) :=
        h.acquireLock (j := r.job) hhash hfolder rfl rfl hunlocked
      exact hlock.bind fun _ hctx =>
        (moves_requestBlock tolerates_orderly hctx.idle).mono fun _ hmoves => hctx.move hmoves
  · exact h

theorem Sound.pullNext (h : Sound hashOf objectOf others alone a hand ctx) {items : List Item}
    (hitems : ∀ item ∈ items, item.Hashed hashOf ∧ item.InFolder objectOf) (advances : Nat) :
    Post (Sound hashOf objectOf others alone a hand) Orderly (ctx.pullNext advances items) :=
  post_pullNext (P := fun item => item.Hashed hashOf ∧ item.InFolder objectOf)
    (fun _ _ _ available hr hctx hmore hfree => hctx.preprocessBlock hr.1 hr.2 hmore hfree available)
    (fun _ hctx => hctx.move (moves_push hctx.idle rfl)) hitems h

/-! ## Answers -/

/-- The answer to a request brings the block. -/
def Arrives (hashOf : BlockId → Bytes) (objectOf : String → Nat) (ctx : Context) : Context.Message → Prop
  | .response view message items => (∀ r ∈ entry ctx.actor message, ∃ file, Delivered ctx view message r file) ∧
      ∀ item ∈ items, item.Hashed hashOf ∧ item.InFolder objectOf
  | .request _ | .index => True

/-- `on_message`. -/
theorem Sound.onMessage (h : Sound hashOf objectOf others alone a hand ctx) {m : Context.Message}
    (hm : Arrives hashOf objectOf ctx m) :
    Post (Sound hashOf objectOf others alone a hand) Orderly (ctx.onMessage m) := by
  cases m with
  | response view message items =>
    obtain ⟨harrives, hitems⟩ := hm
    refine onResponse_rule (fun _ => ⟨nofun, nofun⟩) (fun _ => ⟨h.ledger, h.idle, h.peer, h.phase, h.silent⟩)
      (fun _ _ _ => ⟨nofun, nofun⟩) (fun r file hentry _ => ?_) fun r hentry hlost => ?_
    · have hfree := h.move (moves_freeEntry h.idle (entry_eq_some hentry).2.2)
      have hdelivered := hfree.move (moves_calcDigest hfree.idle (view.blocks file.block).getSize)
      exact (hdelivered.pullNext hitems 0).bind fun _ hctx =>
        (moves_closeInner tolerates_orderly hctx.idle).mono fun _ hmoves => hctx.move hmoves
    · obtain ⟨file, hfile⟩ := harrives r hentry
      exact absurd hfile (hlost file)
  | request accepted => exact h.move (moves_onRequest h.idle accepted)
  | index => exact h

/-- The digest is right, and the block is the one that was requested. -/
def Confirmed (ctx : Context) (view : Context.View) (r : PeerRequest) (digest : Option Bytes) : Prop :=
  ∃ file, Usable ctx view r digest file ∧ file.block = r.block ∧ (view.blocks file.block).hash = r.hash

/-- `on_digest`. -/
theorem Sound.onDigest {r : PeerRequest} (h : Sound hashOf objectOf others alone a (r.job :: hand) ctx)
    {view : Context.View}
    {digest : Option Bytes} (hconfirmed : Confirmed ctx view r digest) (items : List Item) :
    Post (Sound hashOf objectOf others alone a hand) Orderly (ctx.onDigest view r digest items) := by
  obtain ⟨file, husable, hblock, hhash⟩ := hconfirmed
  refine onDigest_rule (fun _ => ⟨nofun, nofun⟩) (fun file' husable' => ?_) fun huseless _ =>
    absurd husable (huseless file)
  obtain rfl : file' = file := by
    have heq := husable'.1.symm.trans husable.1
    cases heq
    rfl
  refine h.pushChecked ?_ husable.2.1
  rw [hblock] at hhash ⊢
  rw [hhash]
  rfl

/-! ## Writes and acknowledgements -/

/-- A write that has to succeed: otherwise nobody unlocks the block. -/
def Written (result : IoCommand × Bool) : Prop :=
  match result.1 with
  | .appendBlock _ => result.2 = true
  | .cloneBlock _ | .blockRequest | .file => True

instance (result : IoCommand × Bool) : Decidable (Written result) := by
  unfold Written
  split <;> infer_instance

theorem Sound.ackBlock {c : BlockAckContext} {unlock : Bool}
    (h : Sound hashOf objectOf others alone a (c.job unlock :: hand) ctx)
    (halone : alone) : Sound hashOf objectOf others alone a hand (ctx.ackBlock c unlock) := by
  refine ⟨h.ledger.perm (List.perm_iff_count.mpr fun k => ?_), h.idle, h.peer, h.phase, .inr halone⟩
  simp only [Context.ackBlock, Context.jobs, BlockAck.job, List.map_append, List.map_cons, List.map_nil,
    List.count_append,
    List.cons_append, List.count_cons, List.count_nil]
  omega

/-- `postprocess_io`, one result. -/
theorem Sound.postprocessIo {result : IoCommand × Bool}
    (h : Sound hashOf objectOf others alone a (commandJobs [result.1] ++ hand) ctx)
    (halone : alone) (hwritten : Written result) :
    Post (Sound hashOf objectOf others alone a hand) Orderly (ctx.postprocessIo result) := by
  obtain ⟨command, ok⟩ := result
  cases command with
  | appendBlock c =>
    obtain rfl : ok = true := hwritten
    refine (h.modifyWriteRequests 1).bind fun ctx' hctx' => ?_
    exact Sound.ackBlock hctx' halone
  | cloneBlock c =>
    refine (h.modifyWriteRequests 1).bind fun ctx' hctx' => ?_
    cases ok with
    | true => exact Sound.ackBlock hctx' halone
    | false => exact ⟨hctx'.ledger.lose rfl, hctx'.idle, hctx'.peer, hctx'.phase, hctx'.silent⟩
  | blockRequest => exact ⟨h.ledger, h.idle, h.peer, h.phase, h.silent⟩
  | file => exact h

/-- `on_postprocess_io`. -/
theorem Sound.onPostprocessIo {results : List (IoCommand × Bool)}
    (h : Sound hashOf objectOf others alone a (commandJobs (results.map Prod.fst)) ctx) (halone : alone)
    (hwritten : ∀ result ∈ results, Written result) {items : List Item}
    (hitems : ∀ item ∈ items, item.Hashed hashOf ∧ item.InFolder objectOf) :
    Post (Sound hashOf objectOf others alone a []) Orderly (ctx.onPostprocessIo results items) := by
  -- the results that are left are in hand
  let inv (rest : List (IoCommand × Bool)) (ctx : Context) : Prop :=
    Sound hashOf objectOf others alone a (commandJobs (rest.map Prod.fst)) ctx ∧ ∀ result ∈ rest, Written result
  have hloop : Post (inv []) Orderly (results.foldlM Context.postprocessIo ctx) := by
    refine post_foldlM inv (fun result rest ctx' ⟨hctx', hrest⟩ => ?_) ⟨h, hwritten⟩
    have hsplit : commandJobs ((result :: rest).map Prod.fst) =
      commandJobs [result.1] ++ commandJobs (rest.map Prod.fst) :=
      commandJobs_append [result.1] _
    rw [hsplit] at hctx'
    refine (hctx'.postprocessIo halone (hrest _ (List.mem_cons_self ..))).mono fun ctx'' hctx'' => ?_
    exact ⟨hctx'', fun r hr => hrest r (List.mem_cons_of_mem _ hr)⟩
  exact hloop.bind fun ctx' hctx' => hctx'.1.pullNext hitems 0

/-- The visitor of `block_ack_t`: the block of the guard is the one that was locked, and it is unlocked. -/
theorem Sound.onBlockAck (hinj : Function.Injective hashOf) (hothers : ∀ b, 0 ≤ others b) {ack : BlockAck × Bool}
    (h : Sound hashOf objectOf others alone a (ack.1.job :: hand) ctx) :
    Post (Sound hashOf objectOf others alone a hand) Orderly (ctx.onBlockAck ack) := by
  have hpush : Sound hashOf objectOf others alone a (ack.1.job :: hand) (if ack.2 then ctx.push .file else ctx) := by
    split
    · exact h.move (moves_push h.idle rfl)
    · exact h
  unfold Context.onBlockAck
  dsimp only
  revert hpush
  generalize (if ack.2 = true then ctx.push .file else ctx) = ctx
  intro hctx
  obtain ⟨b, guards, heq, hreleased⟩ := releaseBlock_spec hctx.ledger.named hctx.ledger.guardCount_pos
  change ctx.releaseBlock ack.1.folderId ack.1.hash = _ at heq
  rw [heq]
  have hledger := hctx.ledger.finish hothers hreleased
  obtain rfl : b = ack.1.block := hctx.ledger.block_of_released hinj hreleased
  dsimp only [bind, Except.bind]
  split
  · rename_i hunlock
    have hlocked : ctx.locked ack.1.block = true :=
      hctx.ledger.locked_of_mem hothers (List.mem_cons_self ..) (show ack.1.job.locks = true from hunlock)
    unfold Context.unlockBlock
    rw [if_pos (show (ctx.setGuards guards).locked ack.1.block = true from hlocked)]
    rw [if_pos (show ack.1.job.locks = true from hunlock)] at hledger
    exact ⟨hledger, hctx.idle, hctx.peer, hctx.phase, hctx.silent⟩
  · rename_i hunlock
    rw [if_neg (show ¬ ack.1.job.locks = true from hunlock)] at hledger
    exact ⟨hledger, hctx.idle, hctx.peer, hctx.phase, hctx.silent⟩

/-- `visit`. -/
theorem Sound.visit (hinj : Function.Injective hashOf) (hothers : ∀ b, 0 ≤ others b) {acks : List (BlockAck × Bool)}
    (h : Sound hashOf objectOf others alone a (acks.map fun p => p.1.job) ctx) {items : List Item}
    (hitems : ∀ item ∈ items, item.Hashed hashOf ∧ item.InFolder objectOf) :
    Post (Sound hashOf objectOf others alone a []) Orderly (ctx.visit acks items) := by
  have hloop : Post (Sound hashOf objectOf others alone a (([] : List (BlockAck × Bool)).map fun p => p.1.job)) Orderly
      (acks.foldlM Context.onBlockAck ctx) :=
    post_foldlM (fun rest ctx' => Sound hashOf objectOf others alone a (rest.map fun p => p.1.job) ctx')
      (fun _ _ _ hctx' => Sound.onBlockAck hinj hothers hctx') h
  exact hloop.bind fun ctx' hctx' => hctx'.pullNext hitems 0

/-! ## Shutdown -/

/-- The guards of a folder are dropped. -/
theorem foldl_unlock {guards : BlockGuards} {b : BlockId} : ∀ {locked : BlockId → Bool},
    guards.foldl (fun locked p => Function.update locked p.2.block false) locked b = true ↔
      locked b = true ∧ ∀ p ∈ guards, p.2.block ≠ b := by
  induction guards with
  | nil => simp
  | cons p guards ih =>
    intro locked
    rw [List.foldl_cons, ih, Function.update_apply, List.forall_mem_cons, ← and_assoc]
    refine and_congr_left fun _ => ?_
    by_cases hb : b = p.2.block
    · simp [hb]
    · simp [hb, Ne.symm hb]

/-- The records are dropped: the blocks of the folders that are not suspended are unlocked. -/
theorem foldl_dropRecord (suspended : FolderPtr → Bool) {records : List FolderSynchronization} {b : BlockId} :
    ∀ {locked : BlockId → Bool}, records.foldl (Context.dropRecord suspended) locked b = true ↔
      locked b = true ∧ ∀ s ∈ records, suspended s.folder = false → ∀ p ∈ s.blocks, p.2.block ≠ b := by
  induction records with
  | nil => simp
  | cons s records ih =>
    intro locked
    rw [List.foldl_cons, ih, List.forall_mem_cons, ← and_assoc]
    refine and_congr_left fun _ => ?_
    unfold Context.dropRecord
    split
    · rename_i hsuspended
      simp [hsuspended]
    · rename_i hrunning
      simp [foldl_unlock, hrunning]

end Handlers

/-! ## All controllers -/

/-- How often a controller has locked a block, as long as it is there. -/
def holding (b : BlockId) (a : Actor) : Int := if a.phase = .gone then 0 else a.jobs.countP (Job.holds b)

/-- How often the other controllers have locked a block. -/
def World.others (w : World) (a : Actor) (b : BlockId) : Int := Tally.total (holding b) w.actors - holding b a

/-- **The invariant**: the locks are those of the jobs of all controllers. -/
structure Disciplined (hashOf : BlockId → Bytes) (objectOf : Nat → String → Nat) (w : World) : Prop where
  tally : ∀ b, Tally.total (holding b) w.actors = if w.locked b then 1 else 0
  actors : ∀ (i : Nat) (a : Actor), w.actors[i]? = some a → a.phase ≠ .gone →
    Guarded hashOf (objectOf i) a.jobs a.synchronizing

section World

variable {hashOf : BlockId → Bytes} {objectOf : Nat → String → Nat} {w : World} {i : Nat} {a a' : Actor} {ctx : Context}
  {alone : Prop} {hand : List Job}

theorem holding_nonneg (b : BlockId) (a : Actor) : 0 ≤ holding b a := by
  unfold holding
  split <;> omega

theorem others_nonneg (hget : w.actors[i]? = some a) (b : BlockId) : 0 ≤ w.others a b := by
  rw [World.others, ← Tally.total_eraseIdx hget]
  exact Tally.total_nonneg fun a' _ => holding_nonneg b a'

/-- A handler starts with its jobs in order. -/
theorem sound_context (hw : Disciplined hashOf objectOf w) (hget : w.actors[i]? = some a) (hlive : a.phase ≠ .gone)
    (hperm : (hand ++ a'.jobs).Perm a.jobs) (hguards : a'.synchronizing = a.synchronizing) (alone : Prop) :
    Sound hashOf (objectOf i) (w.others a) alone a' hand (w.context a') := by
  have hledger : Ledger hashOf (objectOf i) (w.others a) a.jobs w.locked a.synchronizing := by
    refine ⟨hw.actors i a hget hlive, fun b => ?_⟩
    have htally := hw.tally b
    rw [World.others, holding, if_neg hlive]
    omega
  have hjobs : (w.context a').jobs = a'.jobs := by
    show a'.jobs ++ [] ++ [] = a'.jobs
    rw [List.append_nil, List.append_nil]
  refine ⟨?_, fun _ => rfl, rfl, rfl, .inl rfl⟩
  rw [hjobs]
  show Ledger hashOf (objectOf i) (w.others a) (hand ++ a'.jobs) w.locked a'.synchronizing
  rw [hguards]
  exact hledger.perm hperm

/-- Only the controller of the handler gets the acknowledgements. -/
def Unheard (w : World) (i : Nat) (a : Actor) (acks : List BlockAck) : Prop :=
  acks = [] ∨ ∀ (j : Nat) (b : Actor), w.actors[j]? = some b → b.phase ≠ .gone → b.peer = a.peer → j = i

theorem deliver_nil (peer : Sha256) (b : Actor) : World.deliver peer [] b = b := by
  unfold World.deliver
  split
  · rw [List.append_nil]
  · rfl

theorem deliver_phase (peer : Sha256) (acks : List BlockAck) (b : Actor) :
    (World.deliver peer acks b).phase = b.phase := by
  unfold World.deliver
  split <;> rfl

theorem Unheard.deliver {acks : List BlockAck} (h : Unheard w i a acks) {j : Nat} {b : Actor} (hj : j ≠ i)
    (hget : w.actors[j]? = some b) (hlive : b.phase ≠ .gone) : World.deliver a.peer acks b = b := by
  rcases h with rfl | hpeers
  · exact deliver_nil ..
  · exact if_neg fun hpeer => hj (hpeers j b hget hlive hpeer)

/-- **The locks after a handler**: what counts is what its controller has locked then. -/
theorem disciplined_after (hw : Disciplined hashOf objectOf w) (hget : w.actors[i]? = some a)
    (hunheard : Unheard w i a ctx.newAcks)
    (htally : ∀ b, w.others a b + holding b (World.deliver a.peer ctx.newAcks ctx.actor) =
      if ctx.locked b then 1 else 0)
    (hguarded : ctx.actor.phase ≠ .gone → Guarded hashOf (objectOf i) (World.deliver a.peer ctx.newAcks ctx.actor).jobs
      (World.deliver a.peer ctx.newAcks ctx.actor).synchronizing) : Disciplined hashOf objectOf (w.after i a ctx) := by
  refine ⟨fun b => ?_, fun j c hgetc hlive => ?_⟩
  · have hrest : Tally.total (fun c => holding b (World.deliver a.peer ctx.newAcks c)) w.actors -
        holding b (World.deliver a.peer ctx.newAcks a) = w.others a b := by
      refine Tally.total_sub_congr hget fun j c hj hc => ?_
      by_cases hgone : c.phase = .gone
      · rw [holding, holding, deliver_phase, if_pos hgone, if_pos hgone]
      · rw [hunheard.deliver hj hc hgone]
    have hsum := htally b
    show Tally.total (holding b) ((w.actors.set i ctx.actor).map _) = _
    rw [Tally.total_map, Tally.total_set hget]
    show _ = if ctx.locked b then 1 else 0
    omega
  · have hgetc : ((w.actors.set i ctx.actor).map (World.deliver a.peer ctx.newAcks))[j]? = some c := hgetc
    rw [List.getElem?_map, List.getElem?_set] at hgetc
    obtain ⟨c', hc', rfl⟩ := Option.map_eq_some_iff.mp hgetc
    rw [deliver_phase] at hlive
    split at hc'
    · rename_i hij
      subst hij
      split at hc'
      · cases hc'
        exact hguarded hlive
      · cases hc'
    · rename_i hij
      rw [hunheard.deliver (fun h => hij h.symm) hc' hlive]
      exact hw.actors j c' hc' hlive

/-- The acknowledgements of a handler are jobs of its controller. -/
theorem jobs_deliver (peer : Sha256) (hpeer : ctx.actor.peer = peer) (hsent : ctx.ioCommands = []) :
    (World.deliver peer ctx.newAcks ctx.actor).jobs.Perm ctx.jobs := by
  rw [World.deliver, if_pos hpeer, Context.jobs, hsent]
  refine List.perm_iff_count.mpr fun k => ?_
  simp only [Actor.jobs, commandJobs_nil, List.map_append, List.count_append, List.count_nil]
  omega

theorem Sound.after (hctx : Sound hashOf (objectOf i) (w.others a) alone a' [] ctx) (hw : Disciplined hashOf objectOf w)
    (hget : w.actors[i]? = some a) (hpeer : a'.peer = a.peer) (hlive : a'.phase ≠ .gone) (hsent : ctx.ioCommands = [])
    (halone : alone → ∀ (j : Nat) (b : Actor), w.actors[j]? = some b → b.phase ≠ .gone → b.peer = a.peer → j = i) :
    Disciplined hashOf objectOf (w.after i a ctx) := by
  have hjobs := jobs_deliver a.peer (hctx.peer.trans hpeer) hsent
  have hledger : Ledger hashOf (objectOf i) (w.others a) (World.deliver a.peer ctx.newAcks ctx.actor).jobs ctx.locked
      ctx.actor.synchronizing := hctx.ledger.perm hjobs
  refine disciplined_after hw hget (hctx.silent.imp id halone) (fun b => ?_) fun _ => ?_
  · rw [holding, deliver_phase, hctx.phase, if_neg hlive]
    exact hledger.tally b
  · have hsame : (World.deliver a.peer ctx.newAcks ctx.actor).synchronizing = ctx.actor.synchronizing := by
      unfold World.deliver
      split <;> rfl
    rw [hsame]
    exact hledger.toGuarded

/-! ## Steps -/

/-- What is found is what the lookup says. -/
theorem mem_found {x : Except Fault (Option Context.Found)} {file : Context.Found} :
    file ∈ x.toOption.join ↔ x = .ok (some file) := by
  rw [Option.mem_def, Option.join_eq_some_iff, toOption_eq_some]

instance (ctx : Context) (view : Context.View) (message : Context.Response) (r : PeerRequest) :
    Decidable (∃ file, Delivered ctx view message r file) :=
  decidable_of_iff (∃ file ∈ (Context.findBlock view ctx.actor.peer r).toOption.join,
      ctx.actor.phase = .operational ∧ message.code = 0) <| by
    simp only [mem_found]
    rfl

instance (ctx : Context) (view : Context.View) (r : PeerRequest) (digest : Option Bytes) :
    Decidable (Confirmed ctx view r digest) :=
  decidable_of_iff (∃ file ∈ (Context.findBlock view ctx.actor.peer r).toOption.join,
      (ctx.actor.phase = .operational ∧ ctx.actor.connected = true ∧ digest = some (view.blocks file.block).hash ∧
        file.available = false) ∧ file.block = r.block ∧ (view.blocks file.block).hash = r.hash) <| by
    simp only [mem_found]
    exact exists_congr fun file => and_assoc.symm

instance (hashOf : BlockId → Bytes) (objectOf : String → Nat) (ctx : Context) :
    (m : Context.Message) → Decidable (Arrives hashOf objectOf ctx m)
  | .response view message items => inferInstanceAs (Decidable ((∀ r ∈ entry ctx.actor message,
      ∃ file, Delivered ctx view message r file) ∧ ∀ item ∈ items, item.Hashed hashOf ∧ item.InFolder objectOf))
  | .request _ | .index => inferInstanceAs (Decidable True)

/-- **The condition on an event**: no exit is taken that gives back a guard and keeps the lock. Every block that
was requested comes and is confirmed, and its write succeeds and is acknowledged to its controller only; a
controller that ends unlocks what it has locked, and nothing else. No controller looks at two folders with one id
(`objectOf`). -/
def Releases (hashOf : BlockId → Bytes) (objectOf : Nat → String → Nat) (w : World) : Event → Prop
  | .forward i messages => ∀ a ∈ w.actors[i]?, a.phase = .operational →
      Through (Arrives hashOf (objectOf i)) (w.context a) messages
  | .digest i k view digest _ => ∀ a ∈ w.actors[i]?, ∀ r ∈ a.digests[k]?, Confirmed (w.context a) view r digest
  | .io i k results items => (∀ a ∈ w.actors[i]?,
      (∀ result ∈ (a.fsRequests[k]?.getD []).zip results, Written result) ∧
        ∀ j < w.actors.length, ∀ b ∈ w.actors[j]?, b.phase ≠ .gone → b.peer = a.peer → j = i) ∧
      ∀ item ∈ items, item.Hashed hashOf ∧ item.InFolder (objectOf i)
  | .visit i _ items => ∀ item ∈ items, item.Hashed hashOf ∧ item.InFolder (objectOf i)
  | .shutdownFinish i suspended => ∀ a ∈ w.actors[i]?, ∀ s ∈ a.synchronizing.records,
      (∀ j ∈ a.jobs, j.locks = true → j.folderId = s.folder.id → suspended s.folder = false) ∧
        (suspended s.folder = false → ∀ p ∈ s.blocks, w.locked p.2.block = true →
          ∃ j ∈ a.jobs, j.locks = true ∧ j.block = p.2.block)
  | .start .. | .peerDown _ | .shutdownStart _ | .fsAckTimer _ => True

instance (hashOf : BlockId → Bytes) (objectOf : Nat → String → Nat) (w : World) :
    (e : Event) → Decidable (Releases hashOf objectOf w e)
  | .forward i messages => inferInstanceAs (Decidable (∀ a ∈ w.actors[i]?, a.phase = .operational →
      Run.Meets (fun ctx m => (ctx.onMessage m).toOption) (Arrives hashOf (objectOf i)) (w.context a) messages))
  | .digest i k view digest _ => inferInstanceAs (Decidable (∀ a ∈ w.actors[i]?, ∀ r ∈ a.digests[k]?,
      Confirmed (w.context a) view r digest))
  | .io i k results items => inferInstanceAs (Decidable ((∀ a ∈ w.actors[i]?,
      (∀ result ∈ (a.fsRequests[k]?.getD []).zip results, Written result) ∧
        ∀ j < w.actors.length, ∀ b ∈ w.actors[j]?, _ → _ → j = i) ∧
      ∀ item ∈ items, item.Hashed hashOf ∧ item.InFolder (objectOf i)))
  | .visit i _ items => inferInstanceAs (Decidable (∀ item ∈ items, item.Hashed hashOf ∧ item.InFolder (objectOf i)))
  | .shutdownFinish i _ => inferInstanceAs (Decidable (∀ a ∈ w.actors[i]?, ∀ s ∈ a.synchronizing.records,
      (∀ j ∈ a.jobs, _ → _ → _) ∧ (_ → ∀ p ∈ s.blocks, _ → ∃ j ∈ a.jobs, _ ∧ _)))
  | .start .. | .peerDown _ | .shutdownStart _ | .fsAckTimer _ => inferInstanceAs (Decidable True)

/-- A handler that closes its context in the end. -/
theorem disciplined_closing (a' : Actor) (alone : Prop) (hw : Disciplined hashOf objectOf w)
    (hget : w.actors[i]? = some a)
    (hlive : a'.phase ≠ .gone) (hpeer : a'.peer = a.peer)
    (halone : alone → ∀ (j : Nat) (b : Actor), w.actors[j]? = some b → b.phase ≠ .gone → b.peer = a.peer → j = i)
    {handler : Context → Except Fault Context}
    (hctx : Post (Sound hashOf (objectOf i) (w.others a) alone a' []) Orderly (handler (w.context a'))) :
    Post (fun ctx => Disciplined hashOf objectOf (w.after i a ctx)) Orderly (World.closing handler (w.context a')) :=
  hctx.bind fun _ hctx => (moves_close tolerates_orderly hctx.idle).mono fun _ ⟨hmoves, hsent⟩ =>
    (hctx.move hmoves).after hw hget hpeer hlive hsent halone

/-- A handler that only changes its controller, and no job of it. -/
theorem disciplined_same (a' : Actor) (hw : Disciplined hashOf objectOf w) (hget : w.actors[i]? = some a)
    (hlive : a.phase ≠ .gone) (hjobs : a'.jobs.Perm a.jobs) (hguards : a'.synchronizing = a.synchronizing)
    (hpeer : a'.peer = a.peer) (hlive' : a'.phase ≠ .gone) (n : Int) :
    Disciplined hashOf objectOf (w.after i a { w.context a' with writeRequests := n }) := by
  have hctx : Sound hashOf (objectOf i) (w.others a) False a' [] (w.context a') :=
    sound_context hw hget hlive hjobs hguards False
  have hsame : Sound hashOf (objectOf i) (w.others a) False a' [] { w.context a' with writeRequests := n } :=
    ⟨hctx.ledger, hctx.idle, hctx.peer, hctx.phase, hctx.silent⟩
  exact hsame.after hw hget hpeer hlive' rfl nofun

/-- The end of a controller: its guards unlock what it has locked. -/
theorem disciplined_shutdownFinish (hw : Disciplined hashOf objectOf w) (hinj : Function.Injective hashOf)
    (hget : w.actors[i]? = some a) (hlive : a.phase ≠ .gone) {suspended : FolderPtr → Bool}
    (hown : ∀ s ∈ a.synchronizing.records, ∀ j ∈ a.jobs, j.locks = true → j.folderId = s.folder.id →
      suspended s.folder = false)
    (honly : ∀ s ∈ a.synchronizing.records, suspended s.folder = false → ∀ p ∈ s.blocks, w.locked p.2.block = true →
      ∃ j ∈ a.jobs, j.locks = true ∧ j.block = p.2.block) :
    Disciplined hashOf objectOf (w.after i a ((w.context a).shutdownFinish suspended)) := by
  obtain ⟨hnamed, hguarded, hhashes, hblocks⟩ := hw.actors i a hget hlive
  have hothers := others_nonneg hget
  have htally (b : BlockId) : w.others a b + a.jobs.countP (Job.holds b) = if w.locked b then 1 else 0 := by
    have htally := hw.tally b
    rw [World.others, holding, if_neg hlive]
    omega
  refine disciplined_after hw hget (.inl rfl) (fun b => ?_) fun hno => absurd rfl hno
  have hgone : holding b (World.deliver a.peer ((w.context a).shutdownFinish suspended).newAcks
      ((w.context a).shutdownFinish suspended).actor) = 0 := by
    rw [holding, deliver_phase]
    exact if_pos rfl
  rw [hgone, add_zero]
  have hlocked : ((w.context a).shutdownFinish suspended).locked b = true ↔ w.locked b = true ∧
      ∀ s ∈ a.synchronizing.records, suspended s.folder = false → ∀ p ∈ s.blocks, p.2.block ≠ b :=
    foldl_dropRecord suspended
  have hb := htally b
  by_cases hfetched : 0 < a.jobs.countP (Job.holds b)
  · -- the block is its own: some guard has it
    obtain ⟨j, hj, hholds⟩ := List.countP_pos_iff.mp hfetched
    obtain ⟨hlocks, hblock⟩ : j.locks = true ∧ j.block = b := by simpa [Job.holds] using hholds
    have hpos : 0 < a.synchronizing.guardCount j.key := by
      refine Nat.lt_of_lt_of_le (List.countP_pos_iff.mpr ⟨j, hj, ?_⟩) (hguarded j.key)
      simp
    obtain ⟨s, hs, hid, b', p, hp, hkey, rfl⟩ := hnamed.has_of_guardCount hpos
    have hpblock : p.2.block = b := by
      refine hinj ?_
      rw [hblocks s.folder j.key.2 p.2.block ⟨s, hs, rfl, p, hp, hkey, rfl⟩, ← hblock, hhashes j hj]
      rfl
    rw [if_neg]
    · split at hb
      · have := hothers b
        omega
      · have := hothers b
        omega
    · intro hstill
      exact (hlocked.mp hstill).2 s hs (hown s hs j hj hlocks hid.symm) p hp hpblock
  · -- it is not: no guard touches it
    have hsame : ((w.context a).shutdownFinish suspended).locked b = w.locked b := by
      rw [Bool.eq_iff_iff, hlocked]
      refine ⟨And.left, fun hlock => ⟨hlock, fun s hs hrunning p hp hpb => ?_⟩⟩
      obtain ⟨j, hj, hlocks, hblock⟩ := honly s hs hrunning p hp (hpb ▸ hlock)
      refine hfetched (List.countP_pos_iff.mpr ⟨j, hj, ?_⟩)
      rw [← hpb, ← hblock]
      exact Job.holds_self hlocks
    rw [hsame]
    omega

theorem jobs_create (peer blocksMaxRequested hasherThreads advancesPerIteration requestPool order) :
    (Actor.create peer blocksMaxRequested hasherThreads advancesPerIteration requestPool order).jobs = [] := by
  have htable : ∀ n, tableJobs (List.replicate n none) = [] := by
    intro n
    induction n with
    | zero => rfl
    | succ n ih => exact ih
  show tableJobs (List.replicate _ none) ++ [] ++ [] ++ [] = []
  rw [htable]
  rfl

/-- A controller that starts has no jobs. -/
theorem disciplined_start (hw : Disciplined hashOf objectOf w) {a : Actor} (hjobs : a.jobs = [])
    (hfiles : a.synchronizing.records = []) :
    Disciplined hashOf objectOf { w with actors := w.actors ++ [a] } := by
  refine ⟨fun b => ?_, fun i a' hget hlive => ?_⟩
  · have htally := hw.tally b
    show Tally.total (holding b) (w.actors ++ [a]) = _
    rw [Tally.total_append, Tally.total_cons, Tally.total_nil, holding, hjobs]
    simpa using htally
  · have hget : (w.actors ++ [a])[i]? = some a' := hget
    rw [List.getElem?_append] at hget
    split at hget
    · exact hw.actors i a' hget hlive
    · rw [List.getElem?_singleton] at hget
      split at hget
      · cases hget
        rw [hjobs]
        refine ⟨fun s hs => ?_, fun _ => Nat.zero_le _, fun _ h => absurd h List.not_mem_nil, ?_⟩
        · rw [hfiles] at hs
          cases hs
        · rintro folder hash b ⟨s, hs, -⟩
          rw [hfiles] at hs
          cases hs
      · cases hget

section Taken

variable (a : Actor)

/-- The job of a digest, and the others. -/
theorem perm_digest {k : Nat} (hk : k < a.digests.length) :
    ([a.digests[k].job] ++ { a with digests := a.digests.eraseIdx k }.jobs).Perm a.jobs := by
  have hdigests := (List.getElem_cons_eraseIdx_perm hk).map PeerRequest.job
  refine List.perm_iff_count.mpr fun j => ?_
  have hcount := hdigests.count_eq j
  simp only [Actor.jobs, List.map_cons, List.count_append, List.count_cons, List.count_nil] at hcount ⊢
  omega

/-- The jobs of a message to the file system, and the others. -/
theorem perm_fsRequest {k : Nat} (hk : k < a.fsRequests.length) :
    (commandJobs a.fsRequests[k] ++ { a with fsRequests := a.fsRequests.eraseIdx k }.jobs).Perm a.jobs := by
  have hflat := ((List.getElem_cons_eraseIdx_perm hk).flatten).filterMap IoCommand.job
  refine List.perm_iff_count.mpr fun j => ?_
  have hcount := hflat.count_eq j
  rw [List.flatten_cons, List.filterMap_append, List.count_append] at hcount
  simp only [Actor.jobs, commandJobs_append, List.count_append] at hcount ⊢
  simp only [commandJobs] at hcount ⊢
  omega

/-- The jobs of the first acknowledgements, and the others. -/
theorem perm_acks (n : Nat) :
    ((a.acks.take n).map BlockAck.job ++ { a with acks := a.acks.drop n }.jobs).Perm a.jobs := by
  have hsplit : a.acks.map BlockAck.job = (a.acks.take n).map BlockAck.job ++ (a.acks.drop n).map BlockAck.job := by
    rw [← List.map_append, List.take_append_drop]
  refine List.perm_iff_count.mpr fun j => ?_
  simp only [Actor.jobs, hsplit, List.count_append]
  omega

/-- The jobs of an answer of the file system, and the others. -/
theorem perm_results {k : Nat} {results : List Bool}
    (hlength : (a.fsRequests[k]?.map List.length) = some results.length) :
    (commandJobs (((a.fsRequests[k]?.getD []).zip results).map Prod.fst) ++
      { a with fsRequests := a.fsRequests.eraseIdx k }.jobs).Perm a.jobs := by
  obtain ⟨commands, hcommands, hresults⟩ := Option.map_eq_some_iff.mp hlength
  obtain ⟨hk, hat⟩ := List.getElem?_eq_some_iff.mp hcommands
  rw [hcommands, Option.getD_some, List.map_fst_zip (by omega), ← hat]
  exact perm_fsRequest a hk

/-- The jobs of the acknowledgements that come back, and the others. -/
theorem perm_acked {finish : List Bool} (hlength : finish.length ≤ a.acks.length) :
    ((a.acks.zip finish).map (fun p => p.1.job) ++ { a with acks := a.acks.drop finish.length }.jobs).Perm a.jobs := by
  have hfst : (a.acks.zip finish).map Prod.fst = a.acks.take finish.length := by
    rw [List.zip_eq_zip_take_min, Nat.min_eq_right hlength]
    exact List.map_fst_zip (by simp)
  have hacks : (a.acks.zip finish).map (fun p => p.1.job) = (a.acks.take finish.length).map BlockAck.job := by
    rw [← hfst, List.map_map]
    rfl
  rw [hacks]
  exact perm_acks a finish.length

/-- What is forgotten is still guarded. -/
theorem perm_forgotten : { a with fsRequests := [], forgotten := a.forgotten ++ a.fsRequests }.jobs.Perm a.jobs := by
  refine List.perm_iff_count.mpr fun j => ?_
  simp only [Actor.jobs, commandJobs_append, commandJobs_nil, List.flatten_append, List.flatten_nil,
    List.count_append, List.count_nil]
  omega

end Taken

/-- **One event** keeps the invariant, and neither locks a block twice nor unlocks it twice. -/
theorem disciplined_step (hinj : Function.Injective hashOf) (hw : Disciplined hashOf objectOf w) {e : Event}
    (he : Releases hashOf objectOf w e)
    (hstart : ∀ peer blocksMaxRequested advances pool order,
      e ≠ .start peer blocksMaxRequested 0 advances pool order) :
    Post (fun o => ∀ w' ∈ o, Disciplined hashOf objectOf w') Orderly (w.step e) := by
  cases e with
  | start peer blocksMaxRequested hasherThreads advancesPerIteration requestPool order =>
    rw [World.step]
    split
    · rename_i hzero
      exact absurd (by rw [hzero]) (hstart peer blocksMaxRequested advancesPerIteration requestPool order)
    · intro w' hw'
      cases hw'
      exact disciplined_start hw (jobs_create ..) rfl
  | forward i messages =>
    rw [World.step]
    refine post_handle fun a a' hget htaken hlive => ?_
    cases htaken
    refine disciplined_closing _ False hw hget hlive rfl False.elim ?_
    exact post_onForward (fun ctx m hctx hm => hctx.onMessage hm)
      (sound_context hw hget hlive (.refl _) rfl False) (he a hget)
  | digest i k view digest items =>
    rw [World.step]
    refine post_handle fun a a' hget htaken hlive => ?_
    split at htaken
    · rename_i hk
      cases htaken
      have hdigest : a.digests[k]? = some a.digests[k] := List.getElem?_eq_getElem hk
      refine disciplined_closing { a with digests := a.digests.eraseIdx k } False hw hget hlive rfl False.elim ?_
      rw [hdigest]
      exact (sound_context hw hget hlive (perm_digest a hk) rfl False).onDigest (he a hget _ hdigest) items
    · cases htaken
  | io i k results items =>
    rw [World.step]
    refine post_handle fun a a' hget htaken hlive => ?_
    split at htaken
    · rename_i hlength
      cases htaken
      obtain ⟨hwritten, halone⟩ := he.1 a hget
      refine disciplined_closing { a with fsRequests := a.fsRequests.eraseIdx k } True hw hget hlive rfl
        (fun _ j b hb hblive hpeer => ?_) ?_
      · exact halone j (List.getElem?_eq_some_iff.mp hb).1 b hb hblive hpeer
      · -- the message that is answered is not under way any more
        exact (sound_context hw hget hlive (perm_results a hlength) rfl True).onPostprocessIo trivial hwritten he.2
    · cases htaken
  | visit i finish items =>
    rw [World.step]
    refine post_handle fun a a' hget htaken hlive => ?_
    split at htaken
    · rename_i hlength
      cases htaken
      refine disciplined_closing { a with acks := a.acks.drop finish.length } False hw hget hlive rfl False.elim ?_
      exact (sound_context hw hget hlive (perm_acked a hlength) rfl False).visit hinj (others_nonneg hget) he
    · cases htaken
  | peerDown i =>
    rw [World.step]
    refine post_handle fun a a' hget htaken hlive => ?_
    cases htaken
    exact disciplined_same { a with connected := false } hw hget hlive (.refl _) rfl rfl hlive w.writeRequests
  | shutdownStart i =>
    rw [World.step]
    refine post_handle fun a a' hget htaken hlive => ?_
    split at htaken
    · cases htaken
      exact disciplined_same { a with phase := .shuttingDown } hw hget hlive (.refl _) rfl rfl (fun h => by cases h)
        w.writeRequests
    · cases htaken
  | fsAckTimer i =>
    rw [World.step]
    refine post_handle fun a a' hget htaken hlive => ?_
    split at htaken
    · cases htaken
      refine (modifyWriteRequests_spec tolerates_orderly _ _).bind fun ctx hctx => ?_
      obtain ⟨n, rfl⟩ := hctx
      exact disciplined_same _ hw hget hlive (perm_forgotten a) rfl rfl hlive n
    · cases htaken
  | shutdownFinish i suspended =>
    rw [World.step]
    refine post_handle fun a a' hget htaken hlive => ?_
    split at htaken
    · cases htaken
      exact disciplined_shutdownFinish hw hinj hget hlive (fun s hs => (he a hget s hs).1) fun s hs =>
        (he a hget s hs).2
    · cases htaken

end World

/-! ## Runs -/

/-- The controller fetches the block: there is a request, a digest or a write of it. -/
def World.Fetching (w : World) (b : BlockId) (i : Nat) : Prop :=
  ∃ a, w.actors[i]? = some a ∧ a.phase ≠ .gone ∧ ∃ j ∈ a.jobs, j.locks = true ∧ j.block = b

theorem fetching_iff {w : World} {b : BlockId} {i : Nat} :
    w.Fetching b i ↔ ∃ a, w.actors[i]? = some a ∧ 0 < holding b a := by
  refine exists_congr fun a => and_congr_right fun _ => ?_
  unfold holding
  split
  · rename_i hgone
    simp [hgone]
  · rename_i hlive
    have hcount : (∃ j ∈ a.jobs, j.locks = true ∧ j.block = b) ↔ 0 < a.jobs.countP (Job.holds b) := by
      rw [List.countP_pos_iff]
      refine exists_congr fun j => and_congr_right fun _ => ?_
      simp [Job.holds]
    rw [hcount]
    simp [hlive]

/-- **A lock has one owner.** -/
theorem Disciplined.locked_iff {hashOf : BlockId → Bytes} {objectOf : Nat → String → Nat} {w : World}
    (hw : Disciplined hashOf objectOf w) (b : BlockId) :
    (w.locked b = true ↔ ∃! i, w.Fetching b i) ∧ (w.locked b = false → ∀ i, ¬ w.Fetching b i) := by
  have htally := hw.tally b
  have hnonneg : ∀ a ∈ w.actors, 0 ≤ holding b a := fun a _ => holding_nonneg b a
  have hnone : w.locked b = false → ∀ i, ¬ w.Fetching b i := by
    intro hfree i hfetching
    obtain ⟨a, hget, hpos⟩ := fetching_iff.mp hfetching
    have hle := Tally.le_total hget hnonneg
    rw [hfree, if_neg Bool.false_ne_true] at htally
    omega
  refine ⟨⟨fun hlocked => ?_, fun ⟨i, hi, _⟩ => ?_⟩, hnone⟩
  · rw [if_pos hlocked] at htally
    have hexists : ∃ i, w.Fetching b i := by
      by_contra hno
      have hzero : Tally.total (holding b) w.actors = 0 := by
        refine Tally.total_eq_zero fun a ha => ?_
        obtain ⟨i, hget⟩ := List.mem_iff_getElem?.mp ha
        by_contra hne
        have hpos : 0 < holding b a := lt_of_le_of_ne (hnonneg a ha) (Ne.symm hne)
        exact hno ⟨i, fetching_iff.mpr ⟨a, hget, hpos⟩⟩
      omega
    obtain ⟨i, hi⟩ := hexists
    refine ⟨i, hi, fun j hj => ?_⟩
    -- two owners would count twice
    by_contra hne
    obtain ⟨a, hget, hpos⟩ := fetching_iff.mp hi
    obtain ⟨a', hget', hpos'⟩ := fetching_iff.mp hj
    have hle := Tally.add_le_total hget' hget hne hnonneg
    omega
  · by_contra hfree
    exact hnone (by simpa using hfree) i hi

theorem disciplined_initial (hashOf : BlockId → Bytes) (objectOf : Nat → String → Nat) (n : Int) :
    Disciplined hashOf objectOf (World.initial n) :=
  ⟨fun _ => rfl, fun _ _ h => by cases h⟩

section Exits

variable {locked : BlockId → Bool} {ctx : Context}

/-- Nothing has been unlocked. -/
def StillLocked (locked : BlockId → Bool) (ctx : Context) : Prop := ∀ b, locked b = true → ctx.locked b = true

/-- `pull_next` only locks. -/
theorem keeps_stillLocked (locked : BlockId → Bool) : Keeps (StillLocked locked) fun _ => True where
  preprocess ctx _ r available hctx _ _ := by
    unfold Context.preprocessBlock
    split
    · dsimp only
      split
      · unfold Context.pushChecked
        split
        · split
          · unfold Context.modifyWriteRequests
            split
            · trivial
            · exact hctx
          · exact hctx
        · exact hctx
      · have hlock : Post (StillLocked locked) (fun _ => True)
            ((ctx.acquireBlock r.folder r.hash r.block).lockBlock r.block) := by
          unfold Context.lockBlock
          split
          · trivial
          · intro b hb
            show Function.update ctx.locked r.block true b = true
            rw [Function.update_apply, hctx b hb]
            exact ite_self true
        refine hlock.bind fun ctx' hctx' => (post_requestBlock trivial trivial ctx' r).mono fun ctx'' ⟨id, hr⟩ => ?_
        rw [hr.same]
        exact hctx'
    · exact hctx
  file _ hctx := hctx

theorem stillLocked_releaseBlock (h : StillLocked locked ctx) (folderId : String) (hash : Bytes) :
    Post (fun p => StillLocked locked p.2) (fun _ => True) (ctx.releaseBlock folderId hash) :=
  post_releaseBlock (fun _ => h) trivial trivial folderId hash

theorem stillLocked_closeInner (h : StillLocked locked ctx) :
    Post (StillLocked locked) (fun _ => True) ctx.closeInner := by
  have hclose : Post (StillLocked locked) (fun _ => True) ({ ctx with ioCommands := [] } : Context).close := by
    unfold Context.close Context.payWrites Context.modifyWriteRequests
    split
    · dsimp only
      split
      · exact h
      · split
        · trivial
        · exact h
    · exact h
  exact hclose.bind fun _ hctx => hctx

/-- **A block that has not come** stays locked, whatever the reason. -/
theorem stillLocked_abandon (ctx : Context) (r : PeerRequest) (items : List Item) :
    Post (StillLocked ctx.locked) (fun _ => True) (ctx.abandon r items) :=
  ((keeps_stillLocked ctx.locked).tryNext (fun _ hb => hb) _ items).bind fun _ hctx =>
    (stillLocked_releaseBlock hctx r.folderId r.hash).bind fun _ hctx' => stillLocked_closeInner hctx'

/-- **A block that is not used** stays locked, too. -/
theorem stillLocked_dismiss (ctx : Context) (r : PeerRequest) (pull : Bool) (items : List Item) :
    Post (StillLocked ctx.locked) (fun _ => True) (ctx.dismiss r pull items) :=
  (stillLocked_releaseBlock (fun _ hb => hb) r.folderId r.hash).bind fun _ hctx =>
    (keeps_stillLocked ctx.locked).tryNext hctx pull items

end Exits

/-! ## Sample runs -/

/-- The hashes of the sample: they tell blocks apart. -/
def sampleHash (b : BlockId) : Bytes := 7 :: List.replicate b 0

theorem sampleHash_injective : Function.Injective sampleHash := by
  intro b c h
  have hlength := congrArg List.length h
  simpa [sampleHash] using hlength

/-- The block is hashed, written and acknowledged. -/
def fetched : List Event :=
  fetch ++ [answer 0 0, .digest 0 0 oneFile (some [7]) [], .io 0 0 [true] [], .visit 0 [true] []]

end Controller

end SyncSpirit
