import SyncSpirit.ControllerSpec
import SyncSpirit.Lib.Tally

/-!
# The requests of a controller

A request takes a free entry of a table, is counted and paid for from a pool. An answer
names the entry by its index, and the peer chooses the index.

- `requestBlock_spec`: while not all entries are taken, the search finds a free one;
- `table_of_run`: table, counter and hint agree in every run whose answers name requests;
- `pool_of_run`: the pool and the requests under way add up, as long as every answer
  brings the block;
- `post_onResponse`: any answer, but for the index that is one too large.
-/

namespace SyncSpirit

namespace Controller

open Fallible

/-! ## Handlers and the table -/

/-- The table, its counters and the pool. -/
structure Table where
  requests : List (Option PeerRequest)
  next : Nat
  rx : UInt64
  pool : Int
  max : Nat
  configured : Int

/-- The table of a controller. -/
def Actor.table (a : Actor) : Table :=
  ⟨a.blockRequests, a.blockRequestsNext, a.rxBlocksRequested, a.requestPool, a.blocksMaxRequested,
    a.configuredPool⟩

/-- A handler that leaves the table alone. -/
def SameTable (a : Actor) (ctx : Context) : Prop := ctx.actor.table = a.table ∧ ctx.actor.phase = a.phase

/-- A fault that is not about the table. -/
def Inside (f : Fault) : Prop := f ≠ .outOfTable ∧ f ≠ .noEntry

theorem inside_overdrawn : Inside .overdrawn := ⟨nofun, nofun⟩

theorem inside_noRecord : Inside .noRecord := ⟨nofun, nofun⟩

theorem inside_assertion : Inside .assertion := ⟨nofun, nofun⟩

theorem inside_nullPointer : Inside .nullPointer := ⟨nofun, nofun⟩

section SameTable

variable {a : Actor} {ctx : Context}

theorem same_modifyWriteRequests (h : SameTable a ctx) (delta : Int) :
    Post (SameTable a) Inside (ctx.modifyWriteRequests delta) := by
  unfold Context.modifyWriteRequests
  split
  · exact inside_overdrawn
  · exact h

theorem same_pushChecked (h : SameTable a ctx) (command : IoCommand) :
    Post (SameTable a) Inside (ctx.pushChecked command) := by
  unfold Context.pushChecked
  split
  · split
    · have hpush : SameTable a (ctx.push command) := h
      exact same_modifyWriteRequests hpush _
    · exact h
  · exact h

theorem same_acquireBlock (h : SameTable a ctx) (folder : FolderPtr) (hash : Bytes) (b : BlockId) :
    SameTable a (ctx.acquireBlock folder hash b) := h

theorem same_releaseBlock (h : SameTable a ctx) (folderId : String) (hash : Bytes) :
    Post (fun p => SameTable a p.2) Inside (ctx.releaseBlock folderId hash) :=
  post_releaseBlock (fun _ => h) inside_noRecord inside_nullPointer folderId hash

theorem same_lockBlock (h : SameTable a ctx) (b : BlockId) : Post (SameTable a) Inside (ctx.lockBlock b) := by
  unfold Context.lockBlock
  split
  · exact inside_assertion
  · exact h

theorem same_unlockBlock (h : SameTable a ctx) (b : BlockId) :
    Post (SameTable a) Inside (ctx.unlockBlock b) := by
  unfold Context.unlockBlock
  split
  · exact h
  · exact inside_assertion

theorem same_close (h : SameTable a ctx) : Post (SameTable a) Inside ctx.close := by
  have hpay : ∀ sent, Post (SameTable a) Inside (ctx.payWrites sent) := by
    intro sent
    unfold Context.payWrites
    split
    · exact h
    · exact same_modifyWriteRequests h _
  unfold Context.close
  split
  · exact (hpay _).bind fun ctx' hctx' => hctx'
  · exact h

theorem same_closeInner (h : SameTable a ctx) : Post (SameTable a) Inside ctx.closeInner := by
  have hinner : SameTable a { ctx with ioCommands := [] } := h
  exact (same_close hinner).bind fun ctx' hctx' => hctx'

theorem same_postprocessIo (h : SameTable a ctx) (result : IoCommand × Bool) :
    Post (SameTable a) Inside (ctx.postprocessIo result) := by
  unfold Context.postprocessIo
  split
  · refine (same_modifyWriteRequests h _).bind fun ctx' hctx' => ?_
    split <;> exact hctx'
  · refine (same_modifyWriteRequests h _).bind fun ctx' hctx' => ?_
    split <;> exact hctx'
  · exact h
  · exact h

theorem same_onBlockAck (h : SameTable a ctx) (ack : BlockAck × Bool) :
    Post (SameTable a) Inside (ctx.onBlockAck ack) := by
  unfold Context.onBlockAck
  have hpush : SameTable a (if ack.2 then ctx.push .file else ctx) := by
    split <;> exact h
  refine (same_releaseBlock hpush _ _).bind fun p hp => ?_
  dsimp only
  split
  · exact same_unlockBlock hp _
  · exact hp

end SameTable

/-! ## The table -/

/-- The entries that are taken. -/
def occupied (a : Actor) : Nat := a.blockRequests.countP Option.isSome

/-- The table, the counter and the hint agree. -/
structure Requests (a : Actor) : Prop where
  size : a.blockRequests.length = a.blocksMaxRequested
  bound : a.blocksMaxRequested < 2 ^ 32
  hint : a.blocksMaxRequested = 0 ∨ a.blockRequestsNext < a.blocksMaxRequested
  count : a.rxBlocksRequested.toNat = occupied a

/-- What the requests under way have cost. -/
def outstanding (a : Actor) : Int := Tally.total (fun e => (e.map PeerRequest.size).getD 0) a.blockRequests

/-- The pool and the requests under way add up. -/
def Conserved (a : Actor) : Prop := a.requestPool + outstanding a = a.configuredPool

section Table

variable {a : Actor} {ctx : Context}

theorem Requests.of_table {b : Actor} (h : Requests a) (hb : b.table = a.table) : Requests b := by
  simp only [Actor.table, Table.mk.injEq] at hb
  obtain ⟨h₁, h₂, h₃, -, h₅, -⟩ := hb
  refine ⟨?_, ?_, ?_, ?_⟩
  · rw [h₁, h₅, h.size]
  · rw [h₅]
    exact h.bound
  · rw [h₂, h₅]
    exact h.hint
  · rw [h₃, h.count, occupied, occupied, h₁]

theorem Conserved.of_table {b : Actor} (h : Conserved a) (hb : b.table = a.table) : Conserved b := by
  simp only [Actor.table, Table.mk.injEq] at hb
  obtain ⟨h₁, -, -, h₄, -, h₆⟩ := hb
  unfold Conserved outstanding
  rw [h₁, h₄, h₆]
  exact h

/-- A table that is not full has a free entry. -/
theorem exists_free (h : Requests a) (hfree : occupied a < a.blocksMaxRequested) :
    ∃ id < a.blocksMaxRequested, a.blockRequests[id]? = some none := by
  by_contra hnone
  push Not at hnone
  have hall : ∀ e ∈ a.blockRequests, e.isSome = true := by
    intro e he
    obtain ⟨id, hid⟩ := List.mem_iff_getElem?.mp he
    have hlt : id < a.blocksMaxRequested := by
      rw [← h.size]
      exact (List.getElem?_eq_some_iff.mp hid).1
    cases e with
    | none => exact absurd hid (hnone id hlt)
    | some r => rfl
  rw [occupied, List.countP_eq_length.mpr hall, h.size] at hfree
  exact Nat.lt_irrefl _ hfree

/-- The index after the given one. -/
theorem next_index {max id : Nat} (h : id < max) : (if id + 1 ≥ max then 0 else id + 1) = (id + 1) % max := by
  split
  · rename_i hge
    rw [Nat.le_antisymm hge h, Nat.mod_self]
  · rename_i hlt
    rw [Nat.mod_eq_of_lt (by omega)]

/-- **The search** finds a free entry that is less than the given number of steps away. -/
theorem findFree_spec {requests : List (Option PeerRequest)} {max : Nat} (hsize : requests.length = max) :
    ∀ {rounds id : Nat}, id < max → (∃ k < rounds, requests[(id + k) % max]? = some none) →
      ∃ j < max, requests[j]? = some none ∧
        Context.findFree requests max rounds id = .ok (j, some ((j + 1) % max)) := by
  intro rounds
  induction rounds with
  | zero =>
    rintro id - ⟨k, hk, -⟩
    exact absurd hk (Nat.not_lt_zero k)
  | succ rounds ih =>
    rintro id hid ⟨k, hk, hfree⟩
    unfold Context.findFree
    have hin : id < requests.length := hsize ▸ hid
    rw [List.getElem?_eq_getElem hin]
    cases hentry : requests[id] with
    | none =>
      refine ⟨id, hid, ?_, ?_⟩
      · rw [List.getElem?_eq_getElem hin, hentry]
      · dsimp only
        rw [next_index hid]
    | some r =>
      dsimp only
      rw [next_index hid]
      -- the first entry is taken, so the free one is further away
      cases k with
      | zero =>
        rw [Nat.add_zero, Nat.mod_eq_of_lt hid, List.getElem?_eq_getElem hin, hentry] at hfree
        cases hfree
      | succ k =>
        refine ih (Nat.mod_lt _ (by omega)) ⟨k, by omega, ?_⟩
        rw [Nat.mod_add_mod]
        rwa [show id + 1 + k = id + (k + 1) by omega]

/-- What a request changes. -/
structure Requested (ctx : Context) (r : PeerRequest) (id : Nat) (ctx' : Context) : Prop where
  free : ctx.actor.blockRequests[id]? = some none
  hint : ctx'.actor.blockRequestsNext < ctx.actor.blocksMaxRequested
  same : ctx' = { ctx with actor := { ctx.actor with
    blockRequests := ctx.actor.blockRequests.set id (some r)
    blockRequestsNext := ctx'.actor.blockRequestsNext
    rxBlocksRequested := ctx.actor.rxBlocksRequested + 1
    requestPool := ctx.actor.requestPool - r.size } }

/-- **A request** takes a free entry of the table. -/
theorem requestBlock_spec (h : Requests ctx.actor) (hfree : occupied ctx.actor < ctx.actor.blocksMaxRequested)
    (r : PeerRequest) : ∃ id < ctx.actor.blocksMaxRequested, ∃ ctx',
      ctx.requestBlock r = .ok ctx' ∧ Requested ctx r id ctx' := by
  obtain ⟨j, hj, hfreej⟩ := exists_free h hfree
  have hnext : ctx.actor.blockRequestsNext < ctx.actor.blocksMaxRequested := by
    rcases h.hint with h0 | hlt
    · omega
    · exact hlt
  have hfrom : ∃ k < ctx.actor.blocksMaxRequested,
      ctx.actor.blockRequests[(ctx.actor.blockRequestsNext + k) % ctx.actor.blocksMaxRequested]? = some none := by
    refine ⟨(j + (ctx.actor.blocksMaxRequested - ctx.actor.blockRequestsNext)) % ctx.actor.blocksMaxRequested,
      Nat.mod_lt _ (by omega), ?_⟩
    have hmod : (ctx.actor.blockRequestsNext +
        (j + (ctx.actor.blocksMaxRequested - ctx.actor.blockRequestsNext)) % ctx.actor.blocksMaxRequested) %
          ctx.actor.blocksMaxRequested = j := by
      rw [Nat.add_mod_mod, show ctx.actor.blockRequestsNext +
        (j + (ctx.actor.blocksMaxRequested - ctx.actor.blockRequestsNext)) =
          j + ctx.actor.blocksMaxRequested by omega, Nat.add_mod_right, Nat.mod_eq_of_lt hj]
    rwa [hmod]
  obtain ⟨id, hid, hentry, hfind⟩ := findFree_spec h.size hnext hfrom
  have hlt : (id + 1) % ctx.actor.blocksMaxRequested < ctx.actor.blocksMaxRequested := Nat.mod_lt _ (by omega)
  have hok : ctx.requestBlock r = .ok { ctx with actor := { ctx.actor with
      blockRequests := ctx.actor.blockRequests.set id (some r)
      blockRequestsNext := (id + 1) % ctx.actor.blocksMaxRequested
      rxBlocksRequested := ctx.actor.rxBlocksRequested + 1
      requestPool := ctx.actor.requestPool - r.size } } := by
    unfold Context.requestBlock
    dsimp only
    rw [hfind]
    show (if (id + 1) % ctx.actor.blocksMaxRequested ≥ ctx.actor.blocksMaxRequested then _ else _) = _
    rw [if_neg (by omega), hentry]
    rfl
  exact ⟨id, hid, _, hok, hentry, hlt, rfl⟩

/-- The search ends, or reads outside of the table. -/
theorem post_findFree {E : Fault → Prop} (hout : E .outOfTable) {requests : List (Option PeerRequest)} {max : Nat} :
    ∀ {rounds id : Nat}, Post (fun _ => True) E (Context.findFree requests max rounds id) := by
  intro rounds
  induction rounds with
  | zero => exact fun {_} => trivial
  | succ rounds ih =>
    intro id
    unfold Context.findFree
    split
    · exact hout
    · trivial
    · exact ih

/-- Whatever the table: a request takes a free entry, or there is a fault. -/
theorem post_requestBlock {E : Fault → Prop} (hout : E .outOfTable) (hfull : E .noEntry) (ctx : Context)
    (r : PeerRequest) : Post (fun ctx' => ∃ id, Requested ctx r id ctx') E (ctx.requestBlock r) := by
  unfold Context.requestBlock
  refine (post_findFree hout).bind fun p _ => ?_
  dsimp only
  split
  · exact hfull
  · rename_i hnext
    split
    · exact hout
    · exact hfull
    · rename_i hfree
      exact ⟨p.1, hfree, by simpa using hnext, rfl⟩

theorem requestBlock_ok {r : PeerRequest} {ctx' : Context} (hok : ctx.requestBlock r = .ok ctx') :
    ∃ id, Requested ctx r id ctx' :=
  (post_requestBlock (E := fun _ => True) trivial trivial ctx r).of_ok hok

/-- A request keeps the table in order. -/
theorem Requested.requests {r : PeerRequest} {id : Nat} {ctx' : Context} (hr : Requested ctx r id ctx')
    (h : Requests ctx.actor) (hfree : occupied ctx.actor < ctx.actor.blocksMaxRequested) :
    Requests ctx'.actor := by
  have hbound := h.bound
  have hid := (List.getElem?_eq_some_iff.mp hr.free).1
  have hentry := (List.getElem?_eq_some_iff.mp hr.free).2
  refine ⟨?_, ?_, .inr ?_, ?_⟩
  · rw [hr.same]
    simpa using h.size
  · rw [hr.same]
    exact hbound
  · rw [show ctx'.actor.blocksMaxRequested = ctx.actor.blocksMaxRequested by rw [hr.same]]
    exact hr.hint
  · have hocc : occupied ctx'.actor = occupied ctx.actor + 1 := by
      rw [hr.same]
      unfold occupied
      rw [List.countP_set hid]
      simp [hentry]
    have hrx : ctx'.actor.rxBlocksRequested = ctx.actor.rxBlocksRequested + 1 := by rw [hr.same]
    rw [hocc, hrx, UInt64.toNat_add, h.count]
    exact Nat.mod_eq_of_lt (by simp; omega)

/-- A request is paid for. -/
theorem Requested.conserved {r : PeerRequest} {id : Nat} {ctx' : Context} (hr : Requested ctx r id ctx')
    (h : Conserved ctx.actor) : Conserved ctx'.actor := by
  unfold Conserved outstanding at h ⊢
  rw [hr.same]
  dsimp only
  rw [Tally.total_set hr.free]
  simp only [Option.map_none, Option.getD_none, Option.map_some, Option.getD_some]
  omega

/-- An answer frees its entry. -/
theorem requests_freeEntry (h : Requests ctx.actor) {id : Nat} {r : PeerRequest}
    (hr : ctx.actor.blockRequests[id]? = some (some r)) : Requests (ctx.countAnswer.freeEntry id).actor := by
  obtain ⟨hid, hentry⟩ := List.getElem?_eq_some_iff.mp hr
  have hpos : 0 < occupied ctx.actor := by
    unfold occupied
    exact List.countP_pos_iff.mpr ⟨some r, List.mem_of_getElem? hr, rfl⟩
  refine ⟨?_, h.bound, .inr ?_, ?_⟩
  · show (ctx.actor.blockRequests.set id none).length = _
    rw [List.length_set]
    exact h.size
  · show id < ctx.actor.blocksMaxRequested
    rwa [← h.size]
  · show (ctx.actor.rxBlocksRequested - 1).toNat = (ctx.actor.blockRequests.set id none).countP Option.isSome
    rw [List.countP_set hid, hentry]
    have hocc : ctx.actor.rxBlocksRequested.toNat = ctx.actor.blockRequests.countP Option.isSome := h.count
    have hpos' : 0 < ctx.actor.blockRequests.countP Option.isSome := hpos
    have hle : (1 : UInt64) ≤ ctx.actor.rxBlocksRequested := by
      rw [UInt64.le_iff_toNat_le]
      show 1 ≤ _
      omega
    rw [UInt64.toNat_sub_of_le _ _ hle, hocc]
    rfl

/-- An answer frees its entry, and what the request has cost is missing. -/
theorem conserved_freeEntry (h : Conserved ctx.actor) {id : Nat} {r : PeerRequest}
    (hr : ctx.actor.blockRequests[id]? = some (some r)) {a : Actor} (ha : a = (ctx.countAnswer.freeEntry id).actor) :
    a.requestPool + r.size + outstanding a = a.configuredPool := by
  unfold Conserved outstanding at h
  rw [ha]
  show ctx.actor.requestPool + r.size +
    Tally.total (fun e => (e.map PeerRequest.size).getD 0) (ctx.actor.blockRequests.set id none) =
      ctx.actor.configuredPool
  rw [Tally.total_set hr]
  simp only [Option.map_none, Option.getD_none, Option.map_some, Option.getD_some]
  omega

end Table

/-! ## Runs -/

/-- A property of the table of a controller that requests keep. -/
structure KeepsTable (K : Actor → Prop) (E : Fault → Prop) : Prop where
  table : ∀ a b : Actor, K a → b.table = a.table → K b
  fault : ∀ f, Inside f → E f
  request : ∀ (ctx : Context) r, K ctx.actor →
    ctx.actor.rxBlocksRequested.toNat < ctx.actor.blocksMaxRequested →
      Post (fun ctx' => K ctx'.actor) E (ctx.requestBlock r)
  create : ∀ peer blocksMaxRequested hasherThreads advancesPerIteration requestPool order,
    K (Actor.create peer blocksMaxRequested hasherThreads advancesPerIteration requestPool order)

/-- Every answer that a running controller gets meets the condition. -/
def Answers (cond : Context → Context.Message → Prop) (w : World) : Event → Prop
  | .forward i messages => ∀ a ∈ w.actors[i]?, a.phase = .operational → Through cond (w.context a) messages
  | _ => True

instance (cond : Context → Context.Message → Prop) [∀ ctx m, Decidable (cond ctx m)] (w : World) (e : Event) :
    Decidable (Answers cond w e) :=
  match e with
  | .forward i messages => inferInstanceAs (Decidable (∀ a ∈ w.actors[i]?, a.phase = .operational →
      Run.Meets (fun ctx m => (ctx.onMessage m).toOption) cond (w.context a) messages))
  | .start .. | .digest .. | .io .. | .visit .. | .peerDown .. | .shutdownStart .. | .fsAckTimer ..
  | .shutdownFinish .. => inferInstanceAs (Decidable True)

section Keeps

variable {K : Actor → Prop} {E : Fault → Prop} (h : KeepsTable K E) {a : Actor} {ctx : Context}
include h

theorem KeepsTable.same (ha : K a) {x : Except Fault Context} (hx : Post (SameTable a) Inside x) :
    Post (fun ctx => K ctx.actor) E x := by
  cases x with
  | ok ctx => exact h.table a _ ha hx.1
  | error f => exact h.fault f hx

/-- One block: only a request changes the table. -/
theorem KeepsTable.pull : Keeps (fun ctx => K ctx.actor) E where
  preprocess ctx advances r available hctx hmore _ := by
    have hself : SameTable ctx.actor ctx := ⟨rfl, rfl⟩
    have hacquire := same_acquireBlock hself r.folder r.hash r.block
    unfold Context.preprocessBlock
    split
    · dsimp only
      split
      · exact h.same hctx (same_pushChecked hacquire _)
      · have hlock := same_lockBlock hacquire r.block
        cases hlocked : (ctx.acquireBlock r.folder r.hash r.block).lockBlock r.block with
        | error f => exact h.fault f (hlock.of_error hlocked)
        | ok ctx' =>
          have hsame := (hlock.of_ok hlocked).1
          refine h.request ctx' r (h.table _ _ hctx hsame) ?_
          simp only [Actor.table, Table.mk.injEq] at hsame
          simp only [Context.canPullMore, Bool.and_eq_true, decide_eq_true_eq] at hmore
          rw [hsame.2.2.1, hsame.2.2.2.2.1]
          exact hmore.1.1.1.1
    · exact hctx
  file _ hctx := hctx

theorem KeepsTable.close (hctx : K ctx.actor) : Post (fun ctx => K ctx.actor) E ctx.close :=
  h.same hctx (same_close ⟨rfl, rfl⟩)

theorem KeepsTable.onDigest (hctx : K ctx.actor) (view : Context.View) (r : PeerRequest)
    (digest : Option Bytes) (items : List Item) :
    Post (fun ctx => K ctx.actor) E (ctx.onDigest view r digest items) := by
  refine onDigest_rule (fun _ => h.fault _ inside_nullPointer) ?_ ?_
  · exact fun file _ => h.same hctx (same_pushChecked ⟨rfl, rfl⟩ _)
  · intro _ pull
    have hrelease := same_releaseBlock (a := ctx.actor) ⟨rfl, rfl⟩ r.folderId r.hash
    unfold Context.dismiss
    cases hreleased : ctx.releaseBlock r.folderId r.hash with
    | error f => exact h.fault f (hrelease.of_error hreleased)
    | ok p => exact h.pull.tryNext (h.table _ _ hctx (hrelease.of_ok hreleased).1) pull items

theorem KeepsTable.onPostprocessIo (hctx : K ctx.actor) (results : List (IoCommand × Bool))
    (items : List Item) : Post (fun ctx => K ctx.actor) E (ctx.onPostprocessIo results items) := by
  have hloop := post_foldlM (l := results) (b := ctx) (fun _ ctx' => SameTable ctx.actor ctx')
    (fun result _ ctx' hsame => same_postprocessIo hsame result) ⟨rfl, rfl⟩
  exact (h.same hctx hloop).bind fun ctx' hctx' => h.pull.pullNext hctx'

theorem KeepsTable.visit (hctx : K ctx.actor) (acks : List (BlockAck × Bool)) (items : List Item) :
    Post (fun ctx => K ctx.actor) E (ctx.visit acks items) := by
  have hloop := post_foldlM (l := acks) (b := ctx) (fun _ ctx' => SameTable ctx.actor ctx')
    (fun ack _ ctx' hsame => same_onBlockAck hsame ack) ⟨rfl, rfl⟩
  exact (h.same hctx hloop).bind fun ctx' hctx' => h.pull.pullNext hctx'

/-- What is kept holds for a block that has not come. -/
theorem KeepsTable.abandon (hctx : K ctx.actor) (r : PeerRequest) (items : List Item) :
    Post (fun ctx => K ctx.actor) E (ctx.abandon r items) := by
  unfold Context.abandon
  refine (h.pull.tryNext hctx _ items).bind fun ctx' hctx' => ?_
  have hrelease := same_releaseBlock (a := ctx'.actor) ⟨rfl, rfl⟩ r.folderId r.hash
  cases hreleased : ctx'.releaseBlock r.folderId r.hash with
  | error f => exact h.fault f (hrelease.of_error hreleased)
  | ok p => exact h.same hctx' (same_closeInner (hrelease.of_ok hreleased))

/-- What is kept holds for a block that has come. -/
theorem KeepsTable.pullAndClose (hctx : K ctx.actor) (items : List Item) :
    Post (fun ctx => K ctx.actor) E (do
      let ctx ← ctx.pullNext 0 items
      ctx.closeInner) :=
  (h.pull.pullNext hctx).bind fun _ hctx' => h.same hctx' (same_closeInner ⟨rfl, rfl⟩)

variable {cond : Context → Context.Message → Prop}
  (hanswer : ∀ (ctx : Context) view message items, K ctx.actor → cond ctx (.response view message items) →
    Post (fun ctx' => K ctx'.actor) E (ctx.onResponse view message items))
include hanswer

theorem KeepsTable.onMessage {m : Context.Message} (hctx : K ctx.actor) (hm : cond ctx m) :
    Post (fun ctx => K ctx.actor) E (ctx.onMessage m) := by
  cases m with
  | response view message items => exact hanswer ctx view message items hctx hm
  | request accepted =>
    show K (ctx.onRequest accepted).actor
    refine h.table ctx.actor _ hctx ?_
    unfold Context.onRequest
    dsimp only
    split
    · split <;> rfl
    · rfl
  | index => exact hctx

/-- **One event** keeps the tables of all controllers, and its fault is not about a table. -/
theorem KeepsTable.step {w : World} {e : Event} (hw : ∀ a ∈ w.actors, K a) (he : Answers cond w e) :
    Post (fun o => ∀ w' ∈ o, ∀ a ∈ w'.actors, K a) E (w.step e) := by
  have hacks : ∀ a acks, K a → K { a with acks := acks } := fun a acks ha => h.table a _ ha rfl
  have hafter : ∀ i a, ∀ ctx : Context, K ctx.actor → ∀ b ∈ (w.after i a ctx).actors, K b :=
    fun i a ctx hctx => actors_after hacks hw hctx i a
  have hmem : ∀ {i : Nat} {a : Actor}, w.actors[i]? = some a → K a := fun hget =>
    hw _ (List.mem_of_getElem? hget)
  cases e with
  | start peer blocksMaxRequested hasherThreads advancesPerIteration requestPool =>
    rw [World.step]
    split
    · exact h.fault _ inside_assertion
    · intro w' hw' a ha
      cases hw'
      rcases List.mem_append.mp ha with ha | ha
      · exact hw a ha
      · rw [List.mem_singleton.mp ha]
        exact h.create ..
  | forward i messages =>
    rw [World.step]
    refine post_handle fun a a' hget htaken _ =>
      (post_closing (fun _ => h.close) ?_).mono (hafter i a)
    cases htaken
    exact post_onForward (fun ctx m hctx hm => h.onMessage hanswer hctx hm) (hmem hget) (he a hget)
  | digest i k view digest items =>
    rw [World.step]
    refine post_handle fun a a' hget htaken _ =>
      (post_closing (fun _ => h.close) ?_).mono (hafter i a)
    have ha' : K a' := by
      split at htaken
      · cases htaken
        exact h.table a _ (hmem hget) rfl
      · cases htaken
    split
    · exact h.onDigest ha' ..
    · exact ha'
  | io i k results items =>
    rw [World.step]
    refine post_handle fun a a' hget htaken _ =>
      (post_closing (fun _ => h.close) ?_).mono (hafter i a)
    have ha' : K a' := by
      split at htaken
      · cases htaken
        exact h.table a _ (hmem hget) rfl
      · cases htaken
    exact h.onPostprocessIo ha' ..
  | visit i finish items =>
    rw [World.step]
    refine post_handle fun a a' hget htaken _ =>
      (post_closing (fun _ => h.close) ?_).mono (hafter i a)
    have ha' : K a' := by
      split at htaken
      · cases htaken
        exact h.table a _ (hmem hget) rfl
      · cases htaken
    exact h.visit ha' ..
  | peerDown i =>
    rw [World.step]
    refine post_handle fun a a' hget htaken _ => Post.mono ?_ (hafter i a)
    cases htaken
    exact h.table a _ (hmem hget) rfl
  | shutdownStart i =>
    rw [World.step]
    refine post_handle fun a a' hget htaken _ => Post.mono ?_ (hafter i a)
    split at htaken
    · cases htaken
      exact h.table a _ (hmem hget) rfl
    · cases htaken
  | fsAckTimer i =>
    rw [World.step]
    refine post_handle fun a a' hget htaken _ => Post.mono ?_ (hafter i a)
    split at htaken
    · cases htaken
      have hself : SameTable a (w.context a) := ⟨rfl, rfl⟩
      refine h.same (hmem hget) ((same_modifyWriteRequests hself _).bind fun ctx' hctx' => ?_)
      exact ⟨rfl, rfl⟩
    · cases htaken
  | shutdownFinish i suspended =>
    rw [World.step]
    refine post_handle fun a a' hget htaken _ => Post.mono ?_ (hafter i a)
    split at htaken
    · cases htaken
      exact h.table a _ (hmem hget) rfl
    · cases htaken

end Keeps

/-! ## The table and the counter -/

/-- An answer names a request that is under way. -/
def Named (ctx : Context) : Context.Message → Prop
  | .response _ message _ => (entry ctx.actor message).isSome = true
  | .request _ | .index => True

instance (ctx : Context) (m : Context.Message) : Decidable (Named ctx m) :=
  match m with
  | .response _ message _ => inferInstanceAs (Decidable ((entry ctx.actor message).isSome = true))
  | .request _ | .index => inferInstanceAs (Decidable True)

theorem requests_create (peer : Sha256) (blocksMaxRequested hasherThreads advancesPerIteration : UInt32)
    (requestPool : Int) (order : HashOrder FolderSynchronization) :
    Requests (Actor.create peer blocksMaxRequested hasherThreads advancesPerIteration requestPool order) where
  size := List.length_replicate
  bound := UInt32.toNat_lt _
  hint := Nat.eq_zero_or_pos _
  count := by
    show 0 = List.countP _ (List.replicate _ none)
    rw [List.countP_replicate]
    rfl

theorem keepsTable_requests : KeepsTable Requests Inside where
  table _ _ ha hb := ha.of_table hb
  fault _ hf := hf
  request ctx r hctx hfree := by
    rw [hctx.count] at hfree
    obtain ⟨id, -, ctx', hok, hr⟩ := requestBlock_spec hctx hfree r
    rw [hok]
    exact hr.requests hctx hfree
  create := requests_create

/-- **Any answer** but the one with the index after the table: the table is read inside its
bounds. -/
theorem post_onResponse {ctx : Context} (hctx : Requests ctx.actor) {view : Context.View}
    {message : Context.Response} {items : List Item}
    (hid : message.id.toInt ≠ ctx.actor.blockRequests.length) :
    Post (fun ctx' => entry ctx.actor message ≠ none → Requests ctx'.actor) Inside
      (ctx.onResponse view message items) := by
  have hfree : ∀ r, entry ctx.actor message = some r →
      Requests (ctx.countAnswer.freeEntry message.id.toInt.toNat).actor := fun r hr =>
    requests_freeEntry hctx (entry_eq_some hr).2.2
  refine onResponse_rule (fun h => absurd h hid) (fun hnone h => absurd hnone h)
    (fun _ _ _ => inside_nullPointer) ?_ ?_
  · intro r file hr _
    have hdigest : Requests ((ctx.countAnswer.freeEntry message.id.toInt.toNat).calcDigest r
        (view.blocks file.block).getSize).actor :=
      ⟨(hfree r hr).size, (hfree r hr).bound, (hfree r hr).hint, (hfree r hr).count⟩
    exact (keepsTable_requests.pullAndClose hdigest items).mono fun _ h _ => h
  · intro r hr _
    exact (keepsTable_requests.abandon (hfree r hr) r items).mono fun _ h _ => h

theorem requests_onResponse (ctx : Context) (view : Context.View) (message : Context.Response)
    (items : List Item) (hctx : Requests ctx.actor) (hnamed : Named ctx (.response view message items)) :
    Post (fun ctx' => Requests ctx'.actor) Inside (ctx.onResponse view message items) := by
  obtain ⟨r, hr⟩ := Option.isSome_iff_exists.mp hnamed
  refine (post_onResponse hctx ?_).mono fun _ h => h (by simp [hr])
  have hlt := (entry_eq_some hr).2.1
  omega

/-- **Table and counter**: in every run whose answers name requests. -/
theorem table_of_run {writeRequests : Int} {es : List Event} {w : World}
    (hnamed : Run.Meets World.next (Answers Named) (World.initial writeRequests) es)
    (hrun : Run.exec World.next (World.initial writeRequests) es = some w) :
    (∀ a ∈ w.actors, a.rxBlocksRequested.toNat = occupied a ∧ occupied a ≤ a.blocksMaxRequested) ∧
    (∀ (ctx : Context) advances r, ctx.actor ∈ w.actors → ctx.canPullMore advances = true →
      ∃ id < ctx.actor.blocksMaxRequested, ∃ ctx', ctx.requestBlock r = .ok ctx' ∧ Requested ctx r id ctx') ∧
    (∀ e f, Answers Named w e → w.step e = .error f → f ≠ .outOfTable ∧ f ≠ .noEntry) ∧
    ∀ (ctx : Context) view (message : Context.Response) items, ctx.actor ∈ w.actors →
      message.id.toInt ≠ ctx.actor.blockRequests.length →
        ctx.onResponse view message items ≠ .error .outOfTable := by
  have hstep : ∀ w e w', (∀ a ∈ w.actors, Requests a) → Answers Named w e → World.next w e = some w' →
      ∀ a ∈ w'.actors, Requests a := by
    intro w e w' hw he hnext
    exact (keepsTable_requests.step requests_onResponse hw he).of_ok (next_ok hnext) w' rfl
  have hinv : ∀ a ∈ w.actors, Requests a := Run.exec_inv hstep (by exact nofun) hnamed hrun
  refine ⟨fun a ha => ⟨(hinv a ha).count, ?_⟩, ?_, ?_, ?_⟩
  · rw [← (hinv a ha).size]
    exact List.countP_le_length
  · intro ctx advances r hctx hmore
    simp only [Context.canPullMore, Bool.and_eq_true, decide_eq_true_eq] at hmore
    have hfree := hmore.1.1.1.1
    rw [(hinv _ hctx).count] at hfree
    exact requestBlock_spec (hinv _ hctx) hfree r
  · intro e f he hf
    exact (keepsTable_requests.step requests_onResponse hinv he).of_error hf
  · intro ctx view message items hctx hid hf
    exact ((post_onResponse (hinv _ hctx) hid).of_error hf).1 rfl

/-- A peer with one file of one block. -/
def oneFile : Context.View where
  blocks := fun _ => ⟨[7], 10, [⟨0, 0, false⟩]⟩
  blockMap := [0]
  nextBlock := 1
  files := fun _ => { (default : FileInfo) with name := "a", sequence := 1, content := .file [some (0, false)] }
  nextFile := 1
  infos := fun _ => { (default : FolderInfo) with device := [2], files := [0] }
  folders := [⟨"docs", default, [0]⟩]
  suspended := fun _ => false

/-- A request for the block. -/
def oneRequest : PeerRequest := ⟨⟨"docs", 0⟩, "a", [7], 10, 1, 0, 0⟩

/-- A controller with a table of one entry asks for the block. -/
def fetch : List Event := [.start [2] 1 1 10 100 (.insertion _), .visit 0 [] [.block oneRequest false]]

/-- The answer to the request, and an answer with the index after the table. -/
def answer (id code : Int32) : Event := .forward 0 [.response oneFile ⟨id, code⟩ []]

/-- The request is answered, and its entry is free again. -/
theorem table_of_answer : ∃ w, Run.exec World.next (World.initial 8) (fetch ++ [answer 0 0]) = some w ∧
    ∀ a ∈ w.actors, a.rxBlocksRequested.toNat = occupied a ∧ occupied a ≤ a.blocksMaxRequested := by
  have hsome : (Run.exec World.next (World.initial 8) (fetch ++ [answer 0 0])).isSome = true := by
    decide +kernel
  obtain ⟨w, hw⟩ := Option.isSome_iff_exists.mp hsome
  exact ⟨w, hw, (table_of_run (by decide +kernel) hw).1⟩

/-- An answer with the index after the table reads outside of it. An answer that names no request
at all is counted. -/
theorem index_after_table :
    (∃ w, Run.exec World.next (World.initial 8) fetch = some w ∧ w.step (answer 1 0) = .error .outOfTable) ∧
    (Run.exec World.next (World.initial 8) (fetch ++ [answer 2 0])).map
      (fun w => w.actors.map fun a => (a.rxBlocksRequested.toNat, occupied a)) = some [(0, 1)] := by
  have hsome : (Run.exec World.next (World.initial 8) fetch).isSome = true := by decide +kernel
  refine ⟨⟨_, (Option.some_get hsome).symm, rfl⟩, by decide +kernel⟩

/-! ## The pool -/

/-- An answer to a request pays back what the request has cost: the block comes, with that size. -/
def Refunded (ctx : Context) : Context.Message → Prop
  | .response view message _ => ∀ r, entry ctx.actor message = some r →
      (∀ file, Delivered ctx view message r file → (view.blocks file.block).getSize = r.size) ∧
      ((∀ file, ¬ Delivered ctx view message r file) → r.size = 0)
  | .request _ | .index => True

theorem conserved_create (peer : Sha256) (blocksMaxRequested hasherThreads advancesPerIteration : UInt32)
    (requestPool : Int) (order : HashOrder FolderSynchronization) :
    Conserved (Actor.create peer blocksMaxRequested hasherThreads advancesPerIteration requestPool order) := by
  show requestPool + Tally.total _ (List.replicate _ none) = requestPool
  rw [Tally.total_eq_zero fun e he => by rw [List.eq_of_mem_replicate he]; rfl, add_zero]

theorem keepsTable_conserved : KeepsTable Conserved fun _ => True where
  table _ _ ha hb := ha.of_table hb
  fault _ _ := trivial
  request ctx r hctx _ := by
    cases hok : ctx.requestBlock r with
    | error f => trivial
    | ok ctx' =>
      obtain ⟨id, hr⟩ := requestBlock_ok hok
      exact hr.conserved hctx
  create := conserved_create

theorem conserved_onResponse (ctx : Context) (view : Context.View) (message : Context.Response)
    (items : List Item) (hctx : Conserved ctx.actor) (hpaid : Refunded ctx (.response view message items)) :
    Post (fun ctx' => Conserved ctx'.actor) (fun _ => True) (ctx.onResponse view message items) := by
  refine onResponse_rule (fun _ => trivial) (fun _ => hctx) (fun _ _ _ => trivial) ?_ ?_
  · intro r file hr hfile
    refine keepsTable_conserved.pullAndClose ?_ items
    rw [(hpaid r hr).1 file hfile]
    exact conserved_freeEntry hctx (entry_eq_some hr).2.2 rfl
  · intro r hr hlost
    refine keepsTable_conserved.abandon ?_ r items
    have hfree := conserved_freeEntry hctx (entry_eq_some hr).2.2 rfl
    rwa [(hpaid r hr).2 hlost, Int.natCast_zero, add_zero] at hfree

/-- **The pool**: in every run whose answers pay back. Without requests under way it is full. -/
theorem pool_of_run {writeRequests : Int} {es : List Event} {w : World}
    (hpaid : Run.Meets World.next (Answers Refunded) (World.initial writeRequests) es)
    (hrun : Run.exec World.next (World.initial writeRequests) es = some w) {a : Actor} (ha : a ∈ w.actors) :
    a.requestPool + outstanding a = a.configuredPool ∧
      ((∀ e ∈ a.blockRequests, e = none) → a.requestPool = a.configuredPool) := by
  have hstep : ∀ w e w', (∀ a ∈ w.actors, Conserved a) → Answers Refunded w e → World.next w e = some w' →
      ∀ a ∈ w'.actors, Conserved a := by
    intro w e w' hw he hnext
    exact (keepsTable_conserved.step conserved_onResponse hw he).of_ok (next_ok hnext) w' rfl
  have hinv : ∀ a ∈ w.actors, Conserved a := Run.exec_inv hstep (by exact nofun) hpaid hrun
  refine ⟨hinv a ha, fun hfree => ?_⟩
  have hzero : outstanding a = 0 := Tally.total_eq_zero fun e he => by rw [hfree e he]; rfl
  have hsum : a.requestPool + outstanding a = a.configuredPool := hinv a ha
  rwa [hzero, add_zero] at hsum

/-- The block comes, and the pool is full again. -/
theorem pool_of_answer : ∃ w, Run.exec World.next (World.initial 8) (fetch ++ [answer 0 0]) = some w ∧
    ∃ a ∈ w.actors, a.requestPool + outstanding a = a.configuredPool ∧ a.requestPool = 100 := by
  have hsome : (Run.exec World.next (World.initial 8) (fetch ++ [answer 0 0])).isSome = true := by
    decide +kernel
  refine ⟨_, (Option.some_get hsome).symm, _, List.mem_singleton_self _, ?_⟩
  have hpaid : Run.Meets World.next (Answers Refunded) (World.initial 8) (fetch ++ [answer 0 0]) := by
    refine ⟨trivial, fun w₁ h₁ => ⟨trivial, fun w₂ h₂ => ⟨?_, fun _ _ => trivial⟩⟩⟩
    cases h₁
    cases h₂
    rintro a ha -
    cases ha
    refine ⟨fun r hr => ?_, fun _ _ => trivial⟩
    cases hr
    refine ⟨fun file hfile => ?_, fun hlost => absurd ⟨rfl, rfl, rfl⟩ (hlost ⟨0, 0, false⟩)⟩
    cases hfile.1
    rfl
  have hpool := pool_of_run hpaid (Option.some_get hsome).symm (List.mem_singleton_self _)
  exact ⟨hpool.1, hpool.2 (by decide +kernel)⟩

/-- The peer answers with an error: the request is over, and what it has cost is lost. -/
theorem pool_lost : (Run.exec World.next (World.initial 8) (fetch ++ [answer 0 1])).map
    (fun w => w.actors.map fun a => (a.requestPool, a.configuredPool, a.blockRequests)) =
      some [(90, 100, [none])] := by
  decide +kernel

end Controller

end SyncSpirit
