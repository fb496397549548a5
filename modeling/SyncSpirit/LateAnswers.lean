import SyncSpirit.BlockLocks

/-!
# Late answers (`net/controller_actor.cpp`)

Between a request and its answer other events change the cluster. So `on_message(Response)` and `on_digest` look up the
folder, the file and the block again, by what is kept of the request. A folder that is gone, unshared or suspended is
noticed, and so is another sequence. A file that is gone is not: the handler asks a null pointer for its sequence
(`file_gone`), and a block that is gone from a file with the recorded sequence is not noticed either.

Every job of a controller has a guard (`Backed`), so an answer finds the guard that it gives back. `Tallies` counts the
guards against the jobs in one handler: what is given back is what ends.

- `findBlock_intact`: the lookup finds what was requested, or notices;
- `books_onResponse`, `books_onDigest`: the guard of a request is given back once, or goes on;
- `answers_of_run`: the whole run.
-/

namespace SyncSpirit

namespace Controller

open Fallible

/-! ## The lookup -/

/-- As long as the folder is shared and not suspended, the file is there; and if it has the sequence of the request, it
has the block of the request. -/
def Intact (view : Context.View) (peer : Sha256) (r : PeerRequest) : Prop :=
  ∀ folder ∈ (view.folderById r.folderId).filter fun folder => ¬ view.suspended folder.id,
    ∀ fi ∈ view.byDeviceId folder peer, ∃ f ∈ view.byName fi r.name, (view.files f).sequence = r.sequence →
      ∃ slot ∈ (view.files f).slots[r.blockIndex]?.join, (view.blocks slot.1).hash = r.hash

instance Intact.decidable (view : Context.View) (peer : Sha256) (r : PeerRequest) : Decidable (Intact view peer r) :=
  inferInstanceAs (Decidable (∀ folder ∈ (view.folderById r.folderId).filter fun folder => ¬ view.suspended folder.id,
    ∀ fi ∈ view.byDeviceId folder peer, ∃ f ∈ view.byName fi r.name, (view.files f).sequence = r.sequence →
      ∃ slot ∈ (view.files f).slots[r.blockIndex]?.join, (view.blocks slot.1).hash = r.hash))

/-- The file of the request has the recorded sequence. -/
def Recorded (view : Context.View) (peer : Sha256) (r : PeerRequest) : Prop :=
  ∃ folder fi f, view.folderById r.folderId = some folder ∧ view.byDeviceId folder peer = some fi ∧
    view.byName fi r.name = some f ∧ (view.files f).sequence = r.sequence

/-- A fault that is not about something that is missing. -/
def Grounded (f : Fault) : Prop := f ≠ .nullPointer ∧ f ≠ .noRecord

theorem grounded_assertion : Grounded .assertion := ⟨nofun, nofun⟩

theorem tolerates_grounded : Tolerates Grounded := fun _ _ hf hr => ⟨hf, hr⟩

/-- **The lookup** finds the block that was requested, in a file with the recorded sequence, or nothing. -/
theorem findBlock_intact {view : Context.View} {peer : Sha256} {r : PeerRequest} (h : Intact view peer r) :
    Post (fun found => ∀ file ∈ found, Recorded view peer r ∧ (view.blocks file.block).hash = r.hash) Grounded
      (Context.findBlock view peer r) := by
  unfold Context.findBlock
  split
  · exact nofun
  · rename_i folder hfolder
    have hid := (Option.filter_eq_some_iff.mp hfolder).1
    split
    · exact nofun
    · rename_i fi hfi
      obtain ⟨f, hf, hslot⟩ := h folder hfolder fi hfi
      rw [Option.mem_def.mp hf]
      dsimp only
      split
      · exact nofun
      · rename_i hsequence
        have hsequence := Decidable.not_not.mp hsequence
        obtain ⟨slot, hslot, hhash⟩ := hslot hsequence
        rw [Option.mem_def.mp hslot]
        intro file hfile
        obtain ⟨fb, -, rfl⟩ := Option.map_eq_some_iff.mp hfile
        exact ⟨⟨folder, fi, f, hid, hfi, hf, hsequence⟩, hhash⟩

/-! ## Jobs and guards -/

/-- How many jobs there are of a key. -/
def keyCount (jobs : List Job) (key : String × Bytes) : Nat := jobs.countP fun j => j.key = key

@[simp] theorem keyCount_nil (key : String × Bytes) : keyCount [] key = 0 := rfl

@[simp] theorem keyCount_append (jobs jobs' : List Job) (key : String × Bytes) :
    keyCount (jobs ++ jobs') key = keyCount jobs key + keyCount jobs' key := List.countP_append

theorem keyCount_cons (j : Job) (jobs : List Job) (key : String × Bytes) :
    keyCount (j :: jobs) key = keyCount jobs key + if key = j.key then 1 else 0 := by
  rw [keyCount, List.countP_cons]
  by_cases hkey : key = j.key
  · simp [keyCount, hkey]
  · have hne : ¬ j.key = key := fun h => hkey h.symm
    simp [keyCount, hkey, hne]

theorem keyCount_perm {jobs jobs' : List Job} (h : jobs.Perm jobs') (key : String × Bytes) :
    keyCount jobs key = keyCount jobs' key := h.countP_eq _

/-- Every job has a guard, and each folder id one folder. -/
structure Backed (objectOf : String → Nat) (jobs : List Job) (guards : SynchronizingFolders) : Prop where
  named : guards.Named objectOf
  count : ∀ key, keyCount jobs key ≤ guards.guardCount key

/-- The guards against the jobs, since `base`: some jobs have started, and `ended` have ended. -/
def Tallies (base : Context) (ended hand : List Job) (ctx : Context) : Prop :=
  ∃ started : List Job, ∀ key,
    keyCount ended key + keyCount hand key + keyCount ctx.jobs key = keyCount started key + keyCount base.jobs key ∧
    ctx.actor.synchronizing.guardCount key + keyCount ended key =
      base.actor.synchronizing.guardCount key + keyCount started key

/-! ## One handler -/

/-- The books of a handler, since `base`. -/
structure Books (objectOf : String → Nat) (base : Context) (ended hand : List Job) (ctx : Context) : Prop where
  named : ctx.actor.synchronizing.Named objectOf
  tallies : Tallies base ended hand ctx
  idle : Idle ctx
  peer : ctx.actor.peer = base.actor.peer
  phase : ctx.actor.phase = base.actor.phase
  acks : ctx.newAcks = base.newAcks

section Books

variable {objectOf : String → Nat} {base ctx ctx' : Context} {ended hand hand' : List Job} {j : Job} {r : PeerRequest}

theorem books_self (hnamed : ctx.actor.synchronizing.Named objectOf) (hidle : Idle ctx) :
    Books objectOf ctx [] [] ctx :=
  ⟨hnamed, ⟨[], fun key => ⟨by simp, by simp⟩⟩, hidle, rfl, rfl, rfl⟩

theorem Books.move (h : Books objectOf base ended hand ctx) (hmoves : Moves ctx hand ctx' hand') :
    Books objectOf base ended hand' ctx' := by
  refine ⟨?_, ?_, hmoves.idle, hmoves.peer.trans h.peer, hmoves.phase.trans h.phase, hmoves.acks.trans h.acks⟩
  · rw [hmoves.guards]
    exact h.named
  obtain ⟨started, hstarted⟩ := h.tallies
  refine ⟨started, fun key => ?_⟩
  obtain ⟨hjobs, hguards⟩ := hstarted key
  have hperm := keyCount_perm hmoves.perm key
  rw [keyCount_append, keyCount_append] at hperm
  rw [hmoves.guards]
  exact ⟨by omega, hguards⟩

/-- Another job of the same key. -/
theorem Books.rekey (h : Books objectOf base ended (j :: hand) ctx) {j' : Job} (hkey : j'.key = j.key) :
    Books objectOf base ended (j' :: hand) ctx := by
  obtain ⟨started, hstarted⟩ := h.tallies
  refine ⟨h.named, ⟨started, fun key => ?_⟩, h.idle, h.peer, h.phase, h.acks⟩
  have htally := hstarted key
  rw [keyCount_cons] at htally ⊢
  rwa [hkey]

theorem Books.acquire (h : Books objectOf base ended hand ctx) {folder : FolderPtr}
    (hfolder : folder.object = objectOf folder.id) (hid : folder.id = j.folderId) :
    Books objectOf base ended (j :: hand) (ctx.acquireBlock folder j.hash j.block) := by
  obtain ⟨started, hstarted⟩ := h.tallies
  refine ⟨h.named.acquire hfolder _ _, ⟨j :: started, fun key => ?_⟩, h.idle, h.peer, h.phase, h.acks⟩
  obtain ⟨hjobs, hguards⟩ := hstarted key
  have hkey := h.named.guardCount_acquire hfolder j.hash j.block key
  rw [hid, ← Job.key] at hkey
  rw [keyCount_cons, keyCount_cons]
  refine ⟨?_, ?_⟩
  · show _ + keyCount ctx.jobs key = _
    omega
  · show (ctx.actor.synchronizing.acquire folder j.hash j.block).guardCount key + _ = _
    omega

/-- `pull_next` starts jobs only. -/
theorem Books.pullNext (h : Books objectOf base ended hand ctx) {items : List Item}
    (hitems : ∀ item ∈ items, item.InFolder objectOf) {advances : Nat} :
    Post (Books objectOf base ended hand) Grounded (ctx.pullNext advances items) := by
  refine post_pullNext (fun ctx advances r available hfolder hctx hmore hfree => ?_)
    (fun ctx hctx => hctx.move (moves_push hctx.idle rfl)) hitems h
  have hphase : ctx.actor.phase = .operational := by
    simp only [Context.canPullMore, Bool.and_eq_true, decide_eq_true_eq] at hmore
    exact hmore.1.1.2
  unfold Context.preprocessBlock
  split
  · dsimp only
    split
    · let c : BlockAckContext := ⟨r.folderId, r.block, r.hash⟩
      have hclone : Books objectOf base ended (c.job false :: hand) (ctx.acquireBlock r.folder r.hash r.block) :=
        hctx.acquire (j := c.job false) hfolder rfl
      have hphase' := hclone.phase.trans (hctx.phase.symm.trans hphase)
      exact (moves_pushChecked tolerates_grounded rfl hphase').mono fun _ hmoves => hclone.move hmoves
    · have hacquire : Books objectOf base ended (r.job :: hand) (ctx.acquireBlock r.folder r.hash r.block) :=
        hctx.acquire (j := r.job) hfolder rfl
      have hlock : Post (Books objectOf base ended (r.job :: hand)) Grounded
          ((ctx.acquireBlock r.folder r.hash r.block).lockBlock r.block) := by
        unfold Context.lockBlock
        split
        · exact grounded_assertion
        · exact ⟨hacquire.named, hacquire.tallies, hacquire.idle, hacquire.peer, hacquire.phase, hacquire.acks⟩
      exact hlock.bind fun _ hctx' =>
        (moves_requestBlock tolerates_grounded hctx'.idle).mono fun _ hmoves => hctx'.move hmoves
  · exact hctx

theorem Books.tryNext (h : Books objectOf base ended hand ctx) (pull : Bool) {items : List Item}
    (hitems : ∀ item ∈ items, item.InFolder objectOf) :
    Post (Books objectOf base ended hand) Grounded (ctx.tryNext pull items) := by
  unfold Context.tryNext
  split
  · exact h.pullNext hitems
  · exact h

/-- A job ends: its guard is there, and is given back once. -/
theorem Books.release (hbase : Backed objectOf base.jobs base.actor.synchronizing)
    (h : Books objectOf base ended (j :: hand) ctx) :
    Post (fun p => Books objectOf base (j :: ended) hand p.2) Grounded (ctx.releaseBlock j.folderId j.hash) := by
  obtain ⟨started, hstarted⟩ := h.tallies
  have hpos : 0 < ctx.actor.synchronizing.guardCount j.key := by
    obtain ⟨hj, hg⟩ := hstarted j.key
    have hback := hbase.count j.key
    rw [keyCount_cons, if_pos rfl] at hj
    omega
  obtain ⟨b, guards, heq, hreleased⟩ := releaseBlock_spec h.named hpos
  rw [heq]
  refine ⟨hreleased.named, ⟨started, fun key => ?_⟩, h.idle, h.peer, h.phase, h.acks⟩
  obtain ⟨hj, hg⟩ := hstarted key
  have hkey := hreleased.count key
  rw [← Job.key] at hkey
  rw [keyCount_cons] at hj ⊢
  refine ⟨?_, ?_⟩
  · show _ + keyCount ctx.jobs key = _
    omega
  · show guards.guardCount key + _ = _
    omega

/-- What has started is guarded, too. -/
theorem Books.backed (hbase : Backed objectOf base.jobs base.actor.synchronizing)
    (h : Books objectOf base ended [] ctx) : Backed objectOf ctx.jobs ctx.actor.synchronizing := by
  obtain ⟨started, hstarted⟩ := h.tallies
  refine ⟨h.named, fun key => ?_⟩
  obtain ⟨hj, hg⟩ := hstarted key
  have hback := hbase.count key
  rw [keyCount_nil] at hj
  omega

/-- A block that has not come: the controller goes on with others, and gives back the guard. -/
theorem Books.abandon (hbase : Backed objectOf base.jobs base.actor.synchronizing)
    (h : Books objectOf base [] [r.job] ctx) {items : List Item} (hitems : ∀ item ∈ items, item.InFolder objectOf) :
    Post (Books objectOf base [r.job] []) Grounded (ctx.abandon r items) := by
  unfold Context.abandon
  refine (h.tryNext _ hitems).bind fun ctx' hctx' => ?_
  refine (hctx'.release hbase).bind fun p hp => ?_
  exact (moves_closeInner tolerates_grounded hp.idle).mono fun _ hmoves => hp.move hmoves

/-- A block that is not used: the guard is given back first. -/
theorem Books.dismiss (hbase : Backed objectOf base.jobs base.actor.synchronizing)
    (h : Books objectOf base [] [r.job] ctx) (pull : Bool) {items : List Item}
    (hitems : ∀ item ∈ items, item.InFolder objectOf) :
    Post (Books objectOf base [r.job] []) Grounded (ctx.dismiss r pull items) := by
  unfold Context.dismiss
  exact (h.release hbase).bind fun p hp => hp.tryNext pull hitems

end Books

/-- The job that an answer ends: that of a request whose block has not come. -/
def ending (ctx : Context) (view : Context.View) (message : Context.Response) : List Job :=
  match entry ctx.actor message with
  | none => []
  | some r => if ∃ file, Delivered ctx view message r file then [] else [r.job]

instance Usable.decidable (ctx : Context) (view : Context.View) (r : PeerRequest) (digest : Option Bytes) :
    Decidable (∃ file, Usable ctx view r digest file) :=
  decidable_of_iff (∃ file ∈ (Context.findBlock view ctx.actor.peer r).toOption.join,
      ctx.actor.phase = .operational ∧ ctx.actor.connected = true ∧ digest = some (view.blocks file.block).hash ∧
        file.available = false) <| by
    simp only [mem_found]
    rfl

/-- The job that a digest ends: that of a block that is not used. -/
def dismissed (ctx : Context) (view : Context.View) (r : PeerRequest) (digest : Option Bytes) : List Job :=
  if ∃ file, Usable ctx view r digest file then [] else [r.job]

section Answers

variable {objectOf : String → Nat} {base ctx : Context} {view : Context.View} {message : Context.Response}
  {r : PeerRequest} {digest : Option Bytes} {items : List Item}

/-- **`on_message(Response)`** of a request whose file is intact. -/
theorem books_onResponse (hbase : Backed objectOf ctx.jobs ctx.actor.synchronizing) (hidle : Idle ctx)
    (hintact : ∀ r ∈ entry ctx.actor message, Intact view ctx.actor.peer r)
    (hitems : ∀ item ∈ items, item.InFolder objectOf) :
    Post (Books objectOf ctx (ending ctx view message) []) Grounded (ctx.onResponse view message items) := by
  have hself := books_self hbase.named hidle
  unfold ending
  refine onResponse_rule (fun _ => ⟨nofun, nofun⟩) (fun hnone => ?_) (fun r hentry herror => ?_)
    (fun r file hentry hfile => ?_) fun r hentry hlost => ?_
  · rw [hnone]
    exact ⟨hself.named, hself.tallies, hself.idle, rfl, rfl, rfl⟩
  · exact (findBlock_intact (hintact r hentry)).of_error herror
  · -- the block has come: the request goes to the hasher
    rw [hentry]
    dsimp only
    rw [if_pos ⟨file, hfile⟩]
    have hfree := hself.move (moves_freeEntry hidle (entry_eq_some hentry).2.2)
    have hdigest := hfree.move (moves_calcDigest hfree.idle (view.blocks file.block).getSize)
    exact (hdigest.pullNext hitems).bind fun _ hctx =>
      (moves_closeInner tolerates_grounded hctx.idle).mono fun _ hmoves => hctx.move hmoves
  · rw [hentry]
    dsimp only
    rw [if_neg fun hdelivered => hdelivered.elim hlost]
    exact (hself.move (moves_freeEntry hidle (entry_eq_some hentry).2.2)).abandon hbase hitems

/-- **`on_digest`** of a request whose file is intact. What goes to the disk has the key of the request. -/
theorem books_onDigest (hbase : Backed objectOf base.jobs base.actor.synchronizing)
    (h : Books objectOf base [] [r.job] ctx) (hintact : Intact view ctx.actor.peer r)
    (hitems : ∀ item ∈ items, item.InFolder objectOf) :
    Post (Books objectOf base (dismissed ctx view r digest) []) Grounded (ctx.onDigest view r digest items) := by
  unfold dismissed
  refine onDigest_rule (fun herror => (findBlock_intact hintact).of_error herror) (fun file husable => ?_)
    fun huseless pull => ?_
  · rw [if_pos ⟨file, husable⟩]
    have hhash := ((findBlock_intact hintact).of_ok husable.1 file rfl).2
    let c : BlockAckContext := ⟨r.folderId, file.block, (view.blocks file.block).hash⟩
    have hkey : (c.job true).key = r.job.key := congrArg (Prod.mk r.folderId) hhash
    have hwrite := h.rekey hkey
    exact (moves_pushChecked tolerates_grounded rfl husable.2.1).mono fun _ hmoves => hwrite.move hmoves
  · rw [if_neg fun husable => husable.elim huseless]
    exact h.dismiss hbase pull hitems

/-- Every answer is to a request whose file is intact, and what is looked at then is in the folders of the ids. -/
def Meant (objectOf : String → Nat) (ctx : Context) : Context.Message → Prop
  | .response view message items => (∀ r ∈ entry ctx.actor message, Intact view ctx.actor.peer r) ∧
      ∀ item ∈ items, item.InFolder objectOf
  | .request _ | .index => True

instance Meant.decidable (objectOf : String → Nat) (ctx : Context) :
    (m : Context.Message) → Decidable (Meant objectOf ctx m)
  | .response view message items => inferInstanceAs (Decidable ((∀ r ∈ entry ctx.actor message,
      Intact view ctx.actor.peer r) ∧ ∀ item ∈ items, item.InFolder objectOf))
  | .request _ | .index => inferInstanceAs (Decidable True)

/-! ## What is written -/

/-- The command writes a block that has been received. -/
def IoCommand.isAppend : IoCommand → Bool
  | .appendBlock _ => true
  | .cloneBlock _ | .blockRequest | .file => false

/-- The blocks that are going to be written, wherever the commands are. -/
def Context.appends (ctx : Context) : List IoCommand :=
  (ctx.ioCommands ++ ctx.actor.blockWriteQueue ++ ctx.actor.blockReadQueue ++ ctx.actor.fsRequests.flatten).filter
    IoCommand.isAppend

/-- No block is written that was not going to be. -/
def NothingWritten (base ctx : Context) : Prop := ctx.appends.Perm base.appends

theorem NothingWritten.pushChecked (h : NothingWritten base ctx) {command : IoCommand}
    (happend : command.isAppend = false) :
    Post (NothingWritten base) (fun _ => True) (ctx.pushChecked command) := by
  have hcommand : [command].filter IoCommand.isAppend = [] := by simp [happend]
  unfold Context.pushChecked
  split
  · split
    · unfold Context.modifyWriteRequests
      split
      · trivial
      · refine List.Perm.trans ?_ h
        simp only [Context.appends, Context.push, List.filter_append, hcommand, List.append_nil]
        exact .refl _
    · refine List.Perm.trans ?_ h
      simp only [Context.appends, List.filter_append, hcommand, List.append_nil]
      exact .refl _
  · exact h

theorem keeps_nothingWritten (base : Context) : Keeps (NothingWritten base) fun _ => True where
  preprocess ctx _ r available hctx _ _ := by
    unfold Context.preprocessBlock
    split
    · dsimp only
      have hacquire : NothingWritten base (ctx.acquireBlock r.folder r.hash r.block) := hctx
      split
      · exact hacquire.pushChecked rfl
      · have hlock : Post (NothingWritten base) (fun _ => True)
            ((ctx.acquireBlock r.folder r.hash r.block).lockBlock r.block) := by
          unfold Context.lockBlock
          split
          · trivial
          · exact hacquire
        refine hlock.bind fun ctx' hctx' => (post_requestBlock trivial trivial ctx' r).mono fun ctx'' ⟨id, hr⟩ => ?_
        rw [hr.same]
        exact hctx'
    · exact hctx
  file ctx hctx := by
    refine List.Perm.trans ?_ hctx
    simp [Context.appends, Context.push, IoCommand.isAppend]

theorem NothingWritten.releaseBlock (h : NothingWritten base ctx) (folderId : String) (hash : Bytes) :
    Post (fun p => NothingWritten base p.2) (fun _ => True) (ctx.releaseBlock folderId hash) :=
  post_releaseBlock (fun _ => h) trivial trivial folderId hash

/-- What is closed only goes on its way. -/
theorem NothingWritten.closeInner (h : NothingWritten base ctx) :
    Post (NothingWritten base) (fun _ => True) ctx.closeInner := by
  have hclose : Post (fun inner => NothingWritten base { inner with ioCommands := ctx.ioCommands }) (fun _ => True)
      ({ ctx with ioCommands := [] } : Context).close := by
    unfold Context.close
    split
    · dsimp only
      let sent := ctx.actor.blockWriteQueue.take ctx.writeRequests.toNat
      let reads := ctx.actor.blockReadQueue.take
        (ctx.actor.blocksMaxRequested * txBlocksMaxFactor + 1 - ctx.actor.txBlocksRequested)
      have hpay : Post (fun ctx' => ∃ n, ctx' = { ctx with ioCommands := [], writeRequests := n }) (fun _ => True)
          (({ ctx with ioCommands := [] } : Context).payWrites sent) := by
        unfold Context.payWrites
        split
        · exact ⟨ctx.writeRequests, rfl⟩
        · exact modifyWriteRequests_spec (fun _ _ _ _ => trivial) _ _
      refine hpay.bind fun ctx' ⟨n, hctx'⟩ => ?_
      subst hctx'
      refine List.Perm.trans (List.Perm.filter _ (List.perm_iff_count.mpr fun k => ?_)) h
      have hwrites : (sent ++ ctx.actor.blockWriteQueue.drop sent.length).count k = ctx.actor.blockWriteQueue.count k :=
        congrArg (List.count k) (List.prefix_iff_eq_append.mp (List.take_prefix ..))
      have hreads : (reads ++ ctx.actor.blockReadQueue.drop reads.length).count k = ctx.actor.blockReadQueue.count k :=
        congrArg (List.count k) (List.prefix_iff_eq_append.mp (List.take_prefix ..))
      show (ctx.ioCommands ++ ctx.actor.blockWriteQueue.drop sent.length ++
        ctx.actor.blockReadQueue.drop reads.length ++ List.flatten (if [] ++ sent ++ reads = [] then ctx.actor.fsRequests
          else ctx.actor.fsRequests ++ [[] ++ sent ++ reads])).count k = _
      rw [flatten_send]
      simp only [List.count_append, List.count_nil] at hwrites hreads ⊢
      omega
    · exact h
  exact hclose.bind fun inner hinner => hinner

/-- **An answer of the peer** writes nothing. -/
theorem nothingWritten_onResponse (ctx : Context) (view : Context.View) (message : Context.Response)
    (items : List Item) : Post (NothingWritten ctx) (fun _ => True) (ctx.onResponse view message items) := by
  have hself : NothingWritten ctx ctx := .refl _
  refine onResponse_rule (fun _ => trivial) (fun _ => hself) (fun _ _ _ => trivial) (fun r file _ _ => ?_)
    fun r _ _ => ?_
  · have hdigest : NothingWritten ctx ((ctx.countAnswer.freeEntry message.id.toInt.toNat).calcDigest r
        (view.blocks file.block).getSize) := hself
    exact ((keeps_nothingWritten ctx).pullNext hdigest).bind fun _ hctx => hctx.closeInner
  · have hfree : NothingWritten ctx (ctx.countAnswer.freeEntry message.id.toInt.toNat) := hself
    unfold Context.abandon
    refine ((keeps_nothingWritten ctx).tryNext hfree _ items).bind fun ctx' hctx' => ?_
    exact (hctx'.releaseBlock r.folderId r.hash).bind fun p hp => hp.closeInner

/-- **A digest** writes nothing for a file with another sequence. -/
theorem nothingWritten_onDigest (hintact : Intact view ctx.actor.peer r) (hother : ¬ Recorded view ctx.actor.peer r)
    (items : List Item) : Post (NothingWritten ctx) (fun _ => True) (ctx.onDigest view r digest items) := by
  refine onDigest_rule (fun _ => trivial) (fun file husable => ?_) fun _ pull => ?_
  · exact absurd ((findBlock_intact hintact).of_ok husable.1 file rfl).1 hother
  · unfold Context.dismiss
    refine (NothingWritten.releaseBlock (.refl _) r.folderId r.hash).bind fun p hp => ?_
    exact (keeps_nothingWritten ctx).tryNext hp pull items

end Answers

/-! ## One event -/

/-- The invariant of a controller, in a handler that has some jobs in hand. -/
structure Stocked (objectOf : String → Nat) (alone : Prop) (a : Actor) (hand : List Job) (ctx : Context) : Prop where
  backed : Backed objectOf (hand ++ ctx.jobs) ctx.actor.synchronizing
  idle : Idle ctx
  peer : ctx.actor.peer = a.peer
  phase : ctx.actor.phase = a.phase
  silent : ctx.newAcks = [] ∨ alone

/-- **The invariant**: every job of a controller has a guard. -/
def Covered (objectOf : Nat → String → Nat) (w : World) : Prop :=
  ∀ (i : Nat) (a : Actor), w.actors[i]? = some a → a.phase ≠ .gone → Backed (objectOf i) a.jobs a.synchronizing

section Steps

variable {objectOf : String → Nat} {alone : Prop} {a a' : Actor} {hand hand' ended : List Job} {j : Job}
  {base ctx ctx' : Context} {w : World}
  {i : Nat}

theorem Backed.perm {jobs jobs' : List Job} {guards : SynchronizingFolders} (h : Backed objectOf jobs guards)
    (hperm : jobs'.Perm jobs) : Backed objectOf jobs' guards := by
  refine ⟨h.named, fun key => ?_⟩
  rw [keyCount_perm hperm]
  exact h.count key

theorem Stocked.of_books (h : Stocked objectOf alone a [] base) (hbooks : Books objectOf base ended [] ctx) :
    Stocked objectOf alone a [] ctx where
  backed := hbooks.backed h.backed
  idle := hbooks.idle
  peer := hbooks.peer.trans h.peer
  phase := hbooks.phase.trans h.phase
  silent := by
    rw [hbooks.acks]
    exact h.silent

theorem Stocked.onMessage (h : Stocked objectOf alone a [] ctx) {m : Context.Message} (hm : Meant objectOf ctx m) :
    Post (Stocked objectOf alone a []) Grounded (ctx.onMessage m) := by
  cases m with
  | response view message items =>
    exact (books_onResponse h.backed h.idle hm.1 hm.2).mono fun _ hbooks => h.of_books hbooks
  | request accepted => exact h.of_books ((books_self h.backed.named h.idle).move (moves_onRequest h.idle accepted))
  | index => exact h

/-- The jobs of a context that is about to be handled. -/
theorem jobs_context (w : World) (a : Actor) : (w.context a).jobs = a.jobs := by
  show a.jobs ++ [] ++ [] = a.jobs
  rw [List.append_nil, List.append_nil]

theorem stocked_context (h : Backed objectOf a.jobs a.synchronizing) (hperm : (hand ++ a'.jobs).Perm a.jobs)
    (hguards : a'.synchronizing = a.synchronizing) (alone : Prop) : Stocked objectOf alone a' hand (w.context a') := by
  refine ⟨?_, fun _ => rfl, rfl, rfl, .inl rfl⟩
  rw [jobs_context]
  show Backed objectOf _ a'.synchronizing
  rw [hguards]
  exact h.perm hperm

/-- What a handler has taken from its controller. -/
theorem books_taken (hnamed : a.synchronizing.Named objectOf) (hperm : (hand ++ a'.jobs).Perm a.jobs)
    (hguards : a'.synchronizing = a.synchronizing) (hpeer : a'.peer = a.peer) (hphase : a'.phase = a.phase) :
    Books objectOf (w.context a) [] hand (w.context a') := by
  refine ⟨hguards ▸ hnamed, ⟨[], fun key => ?_⟩, fun _ => rfl, hpeer, hphase, rfl⟩
  have hcount := keyCount_perm hperm key
  rw [keyCount_append] at hcount
  rw [jobs_context, jobs_context]
  refine ⟨by simp only [keyCount_nil]; omega, ?_⟩
  show a'.synchronizing.guardCount key + _ = _
  rw [hguards]
  rfl

theorem Stocked.move (h : Stocked objectOf alone a hand ctx) (hmoves : Moves ctx hand ctx' hand') :
    Stocked objectOf alone a hand' ctx' where
  backed := by
    rw [hmoves.guards]
    exact h.backed.perm hmoves.perm
  idle := hmoves.idle
  peer := hmoves.peer.trans h.peer
  phase := hmoves.phase.trans h.phase
  silent := by
    rw [hmoves.acks]
    exact h.silent

/-- A job may be lost. -/
theorem Stocked.lose (h : Stocked objectOf alone a (j :: hand) ctx) : Stocked objectOf alone a hand ctx := by
  refine ⟨⟨h.backed.named, fun key => ?_⟩, h.idle, h.peer, h.phase, h.silent⟩
  have hback := h.backed.count key
  rw [List.cons_append, keyCount_cons] at hback
  omega

theorem Stocked.ackBlock {c : BlockAckContext} {unlock : Bool} (h : Stocked objectOf alone a (c.job unlock :: hand) ctx)
    (halone : alone) : Stocked objectOf alone a hand (ctx.ackBlock c unlock) := by
  refine ⟨h.backed.perm (List.perm_iff_count.mpr fun k => ?_), h.idle, h.peer, h.phase, .inr halone⟩
  simp only [Context.ackBlock, Context.jobs, BlockAck.job, List.map_append, List.map_cons, List.map_nil,
    List.count_append, List.cons_append, List.count_cons, List.count_nil]
  omega

/-- `postprocess_io`, one result: what could not be written keeps its guard. -/
theorem Stocked.postprocessIo {result : IoCommand × Bool}
    (h : Stocked objectOf alone a (commandJobs [result.1] ++ hand) ctx)
    (halone : alone) : Post (Stocked objectOf alone a hand) Grounded (ctx.postprocessIo result) := by
  obtain ⟨command, ok⟩ := result
  have hpaid : ∀ c unlock, Stocked objectOf alone a (c.job unlock :: hand) ctx →
      Post (Stocked objectOf alone a hand) Grounded (do
      let ctx ← ctx.modifyWriteRequests 1
      return if ok then ctx.ackBlock c unlock else ctx) := by
    intro c unlock hc
    have hpay : Post (Stocked objectOf alone a (c.job unlock :: hand)) Grounded (ctx.modifyWriteRequests 1) :=
      (moves_modifyWriteRequests tolerates_grounded hc.idle 1).mono fun _ hmoves => hc.move hmoves
    refine hpay.bind fun ctx' hctx' => ?_
    cases ok with
    | true => exact hctx'.ackBlock halone
    | false => exact hctx'.lose
  cases command with
  | appendBlock c => exact hpaid c true h
  | cloneBlock c => exact hpaid c false h
  | blockRequest => exact ⟨h.backed, h.idle, h.peer, h.phase, h.silent⟩
  | file => exact h

/-- `on_postprocess_io`. -/
theorem Stocked.onPostprocessIo {results : List (IoCommand × Bool)}
    (h : Stocked objectOf alone a (commandJobs (results.map Prod.fst)) ctx) (halone : alone) {items : List Item}
    (hitems : ∀ item ∈ items, item.InFolder objectOf) :
    Post (Stocked objectOf alone a []) Grounded (ctx.onPostprocessIo results items) := by
  have hloop : Post (Stocked objectOf alone a (commandJobs (([] : List (IoCommand × Bool)).map Prod.fst))) Grounded
      (results.foldlM Context.postprocessIo ctx) := by
    refine post_foldlM (fun rest ctx' => Stocked objectOf alone a (commandJobs (rest.map Prod.fst)) ctx')
      (fun result rest ctx' hctx' => ?_) h
    have hsplit : commandJobs ((result :: rest).map Prod.fst) =
        commandJobs [result.1] ++ commandJobs (rest.map Prod.fst) := commandJobs_append [result.1] _
    rw [hsplit] at hctx'
    exact hctx'.postprocessIo halone
  exact hloop.bind fun ctx' hctx' =>
    ((books_self hctx'.backed.named hctx'.idle).pullNext hitems).mono fun _ hbooks => Stocked.of_books hctx' hbooks

/-- The visitor of `block_ack_t`. -/
theorem Books.onBlockAck (hbase : Backed objectOf base.jobs base.actor.synchronizing) {ack : BlockAck × Bool}
    (h : Books objectOf base ended (ack.1.job :: hand) ctx) :
    Post (Books objectOf base (ack.1.job :: ended) hand) Grounded (ctx.onBlockAck ack) := by
  have hpush : Books objectOf base ended (ack.1.job :: hand) (if ack.2 then ctx.push .file else ctx) := by
    split
    · exact h.move (moves_push h.idle rfl)
    · exact h
  unfold Context.onBlockAck
  dsimp only
  refine (hpush.release hbase).bind fun p hp => ?_
  split
  · unfold Context.unlockBlock
    split
    · exact ⟨hp.named, hp.tallies, hp.idle, hp.peer, hp.phase, hp.acks⟩
    · exact grounded_assertion
  · exact hp

/-- `visit`: the acknowledgements give back the guards of their jobs. -/
theorem Books.visit (hbase : Backed objectOf base.jobs base.actor.synchronizing) {acks : List (BlockAck × Bool)}
    (h : Books objectOf base [] (acks.map fun p => p.1.job) ctx) {items : List Item}
    (hitems : ∀ item ∈ items, item.InFolder objectOf) :
    Post (fun ctx' => ∃ ended, Books objectOf base ended [] ctx') Grounded (ctx.visit acks items) := by
  have hloop : Post (fun ctx' => ∃ ended,
      Books objectOf base ended (([] : List (BlockAck × Bool)).map fun p => p.1.job) ctx')
      Grounded (acks.foldlM Context.onBlockAck ctx) := by
    refine post_foldlM (fun rest ctx' => ∃ ended, Books objectOf base ended (rest.map fun p => p.1.job) ctx')
      (fun ack rest ctx' ⟨ended, hctx'⟩ => ?_) ⟨[], h⟩
    exact (Books.onBlockAck hbase hctx').mono fun _ hbooks => ⟨_, hbooks⟩
  exact hloop.bind fun ctx' ⟨ended, hctx'⟩ =>
    (hctx'.pullNext hitems).mono fun _ hbooks => ⟨ended, hbooks⟩

end Steps

section World

variable {objectOf : Nat → String → Nat} {alone : Prop} {a a' : Actor} {ctx : Context} {w : World} {i : Nat}

/-- **After a handler** the controllers are covered if its own is. -/
theorem covered_after (hw : Covered objectOf w) (hunheard : Unheard w i a ctx.newAcks)
    (hbacked : ctx.actor.phase ≠ .gone → Backed (objectOf i) (World.deliver a.peer ctx.newAcks ctx.actor).jobs
      ctx.actor.synchronizing) : Covered objectOf (w.after i a ctx) := by
  intro j c hgetc hlive
  have hgetc : ((w.actors.set i ctx.actor).map (World.deliver a.peer ctx.newAcks))[j]? = some c := hgetc
  rw [List.getElem?_map, List.getElem?_set] at hgetc
  obtain ⟨c', hc', rfl⟩ := Option.map_eq_some_iff.mp hgetc
  rw [deliver_phase] at hlive
  split at hc'
  · rename_i hij
    subst hij
    split at hc'
    · cases hc'
      have hsame : (World.deliver a.peer ctx.newAcks ctx.actor).synchronizing = ctx.actor.synchronizing := by
        unfold World.deliver
        split <;> rfl
      rw [hsame]
      exact hbacked hlive
    · cases hc'
  · rename_i hij
    rw [hunheard.deliver (fun h => hij h.symm) hc' hlive]
    exact hw j c' hc' hlive

theorem Stocked.after (h : Stocked (objectOf i) alone a' [] ctx) (hw : Covered objectOf w) (hpeer : a'.peer = a.peer)
    (hsent : ctx.ioCommands = [])
    (halone : alone → ∀ (j : Nat) (b : Actor), w.actors[j]? = some b → b.phase ≠ .gone → b.peer = a.peer → j = i) :
    Covered objectOf (w.after i a ctx) :=
  covered_after hw (h.silent.imp id halone) fun _ =>
    h.backed.perm (jobs_deliver a.peer (h.peer.trans hpeer) hsent)

/-- A handler that closes its context in the end. -/
theorem covered_closing (a' : Actor) (alone : Prop) (hw : Covered objectOf w) (hpeer : a'.peer = a.peer)
    (halone : alone → ∀ (j : Nat) (b : Actor), w.actors[j]? = some b → b.phase ≠ .gone → b.peer = a.peer → j = i)
    {handler : Context → Except Fault Context}
    (hctx : Post (Stocked (objectOf i) alone a' []) Grounded (handler (w.context a'))) :
    Post (fun ctx => Covered objectOf (w.after i a ctx)) Grounded (World.closing handler (w.context a')) :=
  hctx.bind fun _ hctx => (moves_close tolerates_grounded hctx.idle).mono fun _ ⟨hmoves, hsent⟩ =>
    (hctx.move hmoves).after hw hpeer hsent halone

/-- A handler that has taken some jobs, and keeps books of them. -/
theorem covered_taken (a' : Actor) (hw : Covered objectOf w) (hget : w.actors[i]? = some a) (hlive : a.phase ≠ .gone)
    (hpeer : a'.peer = a.peer) (hphase : a'.phase = a.phase) {handler : Context → Except Fault Context}
    (hctx : Backed (objectOf i) (w.context a).jobs (w.context a).actor.synchronizing →
      Post (fun ctx => ∃ ended, Books (objectOf i) (w.context a) ended [] ctx) Grounded (handler (w.context a'))) :
    Post (fun ctx => Covered objectOf (w.after i a ctx)) Grounded (World.closing handler (w.context a')) := by
  have hstart : Stocked (objectOf i) False a [] (w.context a) :=
    stocked_context (hw i a hget hlive) (List.Perm.refl _ : ([] ++ a.jobs).Perm a.jobs) rfl False
  refine covered_closing a' False hw hpeer False.elim ((hctx hstart.backed).mono fun ctx ⟨ended, hbooks⟩ => ?_)
  have hend := hstart.of_books hbooks
  exact ⟨hend.backed, hend.idle, hend.peer.trans hpeer.symm, hend.phase.trans hphase.symm, hend.silent⟩

/-- A handler that only changes its controller, and no job of it. -/
theorem covered_same (a' : Actor) (hw : Covered objectOf w) (hget : w.actors[i]? = some a) (hlive : a.phase ≠ .gone)
    (hjobs : a'.jobs.Perm a.jobs) (hguards : a'.synchronizing = a.synchronizing) (hpeer : a'.peer = a.peer) (n : Int) :
    Covered objectOf (w.after i a { w.context a' with writeRequests := n }) := by
  have hctx : Stocked (objectOf i) False a' [] (w.context a') := stocked_context (hw i a hget hlive) hjobs hguards False
  have hsame : Stocked (objectOf i) False a' [] { w.context a' with writeRequests := n } :=
    ⟨hctx.backed, hctx.idle, hctx.peer, hctx.phase, hctx.silent⟩
  exact hsame.after hw hpeer rfl nofun

/-- **The condition on an event**: what an answer is about is intact, and a write is acknowledged to its controller
only. No controller looks at two folders with one id (`objectOf`). -/
def Undisturbed (objectOf : Nat → String → Nat) (w : World) : Event → Prop
  | .forward i messages => ∀ a ∈ w.actors[i]?, a.phase = .operational →
      Through (Meant (objectOf i)) (w.context a) messages
  | .digest i k view _ items => (∀ a ∈ w.actors[i]?, ∀ r ∈ a.digests[k]?, Intact view a.peer r) ∧
      ∀ item ∈ items, item.InFolder (objectOf i)
  | .io i _ _ items => (∀ a ∈ w.actors[i]?, ∀ j < w.actors.length, ∀ b ∈ w.actors[j]?, b.phase ≠ .gone →
      b.peer = a.peer → j = i) ∧ ∀ item ∈ items, item.InFolder (objectOf i)
  | .visit i _ items => ∀ item ∈ items, item.InFolder (objectOf i)
  | .start .. | .peerDown _ | .shutdownStart _ | .fsAckTimer _ | .shutdownFinish .. => True

instance Undisturbed.decidable (objectOf : Nat → String → Nat) (w : World) :
    (e : Event) → Decidable (Undisturbed objectOf w e)
  | .forward i messages => inferInstanceAs (Decidable (∀ a ∈ w.actors[i]?, a.phase = .operational →
      Run.Meets (fun ctx m => (ctx.onMessage m).toOption) (Meant (objectOf i)) (w.context a) messages))
  | .digest i k view _ items => inferInstanceAs (Decidable ((∀ a ∈ w.actors[i]?, ∀ r ∈ a.digests[k]?,
      Intact view a.peer r) ∧ ∀ item ∈ items, item.InFolder (objectOf i)))
  | .io i _ _ items => inferInstanceAs (Decidable ((∀ a ∈ w.actors[i]?, ∀ j < w.actors.length, ∀ b ∈ w.actors[j]?,
      _ → _ → j = i) ∧ ∀ item ∈ items, item.InFolder (objectOf i)))
  | .visit i _ items => inferInstanceAs (Decidable (∀ item ∈ items, item.InFolder (objectOf i)))
  | .start .. | .peerDown _ | .shutdownStart _ | .fsAckTimer _ | .shutdownFinish .. => inferInstanceAs (Decidable True)

/-- **One event** keeps the invariant, and nothing is missing in it. -/
theorem covered_step (hw : Covered objectOf w) {e : Event} (he : Undisturbed objectOf w e) :
    Post (fun o => ∀ w' ∈ o, Covered objectOf w') Grounded (w.step e) := by
  cases e with
  | start peer blocksMaxRequested hasherThreads advancesPerIteration requestPool order =>
    rw [World.step]
    split
    · exact grounded_assertion
    · intro w' hw' i a hget hlive
      cases hw'
      have hget : (w.actors ++ [Actor.create ..])[i]? = some a := hget
      rw [List.getElem?_append] at hget
      split at hget
      · exact hw i a hget hlive
      · rw [List.getElem?_singleton] at hget
        split at hget
        · cases hget
          rw [jobs_create]
          exact ⟨fun s hs => (by cases hs), fun _ => Nat.zero_le _⟩
        · cases hget
  | forward i messages =>
    rw [World.step]
    refine post_handle fun a a' hget htaken hlive => ?_
    cases htaken
    refine covered_closing _ False hw rfl False.elim ?_
    exact post_onForward (fun ctx m hctx hm => hctx.onMessage hm)
      (stocked_context (hw i a hget hlive) (List.Perm.refl _ : ([] ++ a.jobs).Perm a.jobs) rfl False) (he a hget)
  | digest i k view digest items =>
    rw [World.step]
    refine post_handle fun a a' hget htaken hlive => ?_
    split at htaken
    · rename_i hk
      cases htaken
      have hdigest : a.digests[k]? = some a.digests[k] := List.getElem?_eq_getElem hk
      refine covered_taken { a with digests := a.digests.eraseIdx k } hw hget hlive rfl rfl fun hbase => ?_
      rw [hdigest]
      have htaken := books_taken (w := w) hbase.named (perm_digest a hk) rfl rfl rfl
      exact (books_onDigest hbase htaken (he.1 a hget _ hdigest) he.2).mono fun _ hbooks => ⟨_, hbooks⟩
    · cases htaken
  | io i k results items =>
    rw [World.step]
    refine post_handle fun a a' hget htaken hlive => ?_
    split at htaken
    · rename_i hlength
      cases htaken
      refine covered_closing { a with fsRequests := a.fsRequests.eraseIdx k } True hw rfl
        (fun _ j b hb hblive hpeer => ?_) ?_
      · exact he.1 a hget j (List.getElem?_eq_some_iff.mp hb).1 b hb hblive hpeer
      · exact (stocked_context (hw i a hget hlive) (perm_results a hlength) rfl True).onPostprocessIo trivial he.2
    · cases htaken
  | visit i finish items =>
    rw [World.step]
    refine post_handle fun a a' hget htaken hlive => ?_
    split at htaken
    · rename_i hlength
      cases htaken
      refine covered_taken { a with acks := a.acks.drop finish.length } hw hget hlive rfl rfl fun hbase => ?_
      exact (books_taken hbase.named (perm_acked a hlength) rfl rfl rfl).visit hbase he
    · cases htaken
  | peerDown i =>
    rw [World.step]
    refine post_handle fun a a' hget htaken hlive => ?_
    cases htaken
    exact covered_same { a with connected := false } hw hget hlive (.refl _) rfl rfl w.writeRequests
  | shutdownStart i =>
    rw [World.step]
    refine post_handle fun a a' hget htaken hlive => ?_
    split at htaken
    · cases htaken
      exact covered_same { a with phase := .shuttingDown } hw hget hlive (.refl _) rfl rfl w.writeRequests
    · cases htaken
  | fsAckTimer i =>
    rw [World.step]
    refine post_handle fun a a' hget htaken hlive => ?_
    split at htaken
    · cases htaken
      refine (modifyWriteRequests_spec tolerates_grounded _ _).bind fun ctx hctx => ?_
      obtain ⟨n, rfl⟩ := hctx
      exact covered_same _ hw hget hlive (perm_forgotten a) rfl rfl n
    · cases htaken
  | shutdownFinish i suspended =>
    rw [World.step]
    refine post_handle fun a a' hget htaken hlive => ?_
    split at htaken
    · cases htaken
      exact covered_after hw (.inl rfl) fun hno => absurd rfl hno
    · cases htaken

end World

/-! ## Runs -/

/-- What an answer of the peer does: the guard of what it ends is given back once, and nothing is written. -/
def Handled (ctx : Context) : Context.Message → Prop
  | .response view message items => ∀ ctx', ctx.onResponse view message items = .ok ctx' →
      Tallies ctx (ending ctx view message) [] ctx' ∧ NothingWritten ctx ctx'
  | .request _ | .index => True

/-- In a batch of messages every answer is handled so. -/
theorem through_handled {objectOf : String → Nat} {alone : Prop} {a : Actor} :
    ∀ {messages : List Context.Message} {ctx : Context},
    Stocked objectOf alone a [] ctx → Through (Meant objectOf) ctx messages → Through Handled ctx messages := by
  intro messages
  induction messages with
  | nil => exact fun _ _ => trivial
  | cons m messages ih =>
    rintro ctx hctx ⟨hm, hrest⟩
    refine ⟨?_, fun ctx' hctx' => ih ((hctx.onMessage hm).of_ok (toOption_eq_some.mp hctx')) (hrest ctx' hctx')⟩
    cases m with
    | response view message items =>
      intro ctx' hok
      exact ⟨((books_onResponse hctx.backed hctx.idle hm.1 hm.2).of_ok hok).tallies,
        (nothingWritten_onResponse ctx view message items).of_ok hok⟩
    | request accepted => trivial
    | index => trivial

theorem covered_initial (objectOf : Nat → String → Nat) (n : Int) : Covered objectOf (World.initial n) := by
  intro i a hget
  cases hget

/-- Blocks of two folders with one id are requested, the second of which the table has first. -/
def createdAgain : List Event :=
  [.start [2] 2 1 10 100 ⟨List.reverse, List.reverse_perm⟩,
    .visit 0 [] [.block oneRequest false, .block ⟨⟨"docs", 1⟩, "b", [8], 10, 1, 0, 1⟩ false]]

/-- The guard of the first block is looked for in the record of the second folder. -/
example : ∃ w, Run.exec World.next (World.initial 8) createdAgain = some w ∧
    w.step (answer 0 1) = .error .nullPointer := by
  have hsome : (Run.exec World.next (World.initial 8) createdAgain).isSome = true := by decide +kernel
  exact ⟨_, (Option.some_get hsome).symm, rfl⟩

end Controller

end SyncSpirit
