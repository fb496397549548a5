import SyncSpirit.Controller
import SyncSpirit.Lib.Fallible
import SyncSpirit.Lib.Run

/-!
# Rules for the handlers of a controller

What a handler keeps follows from what its parts keep. `Keeps` is for `pull_next`, which
nearly every handler ends with; `onResponse_rule` and `onDigest_rule` split the two
handlers with many exits; `Through` says something of every message of a batch, where it is
handled; `handle_ok` says what one event does to all controllers.
-/

namespace SyncSpirit

namespace Controller

open Fallible

/-- A property that the steps of `pull_next` keep. -/
structure Keeps (I : Context → Prop) (E : Fault → Prop) : Prop where
  preprocess : ∀ ctx advances r available, I ctx → ctx.canPullMore advances = true →
    ctx.isLocked r.block = false → Post I E (ctx.preprocessBlock r available)
  file : ∀ ctx, I ctx → I (ctx.push .file)

section Rules

variable {I : Context → Prop} {E : Fault → Prop} {ctx : Context}

/-- **`pull_next`** keeps what its steps keep, for the items it is given. -/
theorem post_pullNext {P : Item → Prop}
    (hblock : ∀ ctx advances r available, P (.block r available) → I ctx → ctx.canPullMore advances = true →
      ctx.isLocked r.block = false → Post I E (ctx.preprocessBlock r available))
    (hfile : ∀ ctx, I ctx → I (ctx.push .file)) {items : List Item} (hitems : ∀ item ∈ items, P item) :
    ∀ {advances : Nat} {ctx : Context}, I ctx → Post I E (ctx.pullNext advances items) := by
  induction items with
  | nil => exact fun hctx => hctx
  | cons item items ih =>
    have hitem := hitems item (List.mem_cons_self ..)
    have ih := @ih fun item hitem => hitems item (List.mem_cons_of_mem _ hitem)
    intro advances ctx hctx
    unfold Context.pullNext
    split
    · rename_i hmore
      cases item with
      | block r available =>
        dsimp only
        split
        · exact ih hctx
        · rename_i hlocked
          exact (hblock ctx advances r available hitem hctx hmore (by simpa using hlocked)).bind
            fun _ hctx' => ih hctx'
      | file command =>
        dsimp only
        cases command with
        | true => exact ih (hfile ctx hctx)
        | false => exact ih hctx
    · exact hctx

theorem Keeps.pullNext (h : Keeps I E) {items : List Item} {advances : Nat} (hctx : I ctx) :
    Post I E (ctx.pullNext advances items) :=
  post_pullNext (P := fun _ => True) (fun ctx advances r available _ => h.preprocess ctx advances r available) h.file
    (fun _ _ => trivial) hctx

/-- `release_block` changes nothing but the guards. -/
theorem post_releaseBlock (hguards : ∀ guards, I (ctx.setGuards guards)) (hrecord : E .noRecord)
    (hnull : E .nullPointer) (folderId : String) (hash : Bytes) :
    Post (fun p => I p.2) E (ctx.releaseBlock folderId hash) := by
  unfold Context.releaseBlock
  split
  · exact hrecord
  · split
    · exact hnull
    · exact hguards _

theorem Keeps.tryNext (h : Keeps I E) (hctx : I ctx) (pull : Bool) (items : List Item) :
    Post I E (ctx.tryNext pull items) := by
  unfold Context.tryNext
  split
  · exact h.pullNext hctx
  · exact hctx

/-- The lookup of a block may only meet a null pointer. -/
theorem findBlock_error {view : Context.View} {peer : Sha256} {r : PeerRequest} :
    Post (fun _ => True) (fun f => f = .nullPointer) (Context.findBlock view peer r) := by
  unfold Context.findBlock
  split
  · trivial
  · split
    · trivial
    · split
      · rfl
      · split
        · trivial
        · split
          · rfl
          · trivial

/-- A size that is compared as an `int32_t` does not get larger. -/
theorem toInt_ofNat_le (n : Nat) : (Int32.ofNat n).toInt ≤ n := by
  rw [Int32.toInt_ofNat', Int.bmod_def]
  rw [show Int32.size = 2 ^ 32 from rfl]
  split <;> omega

/-- The request that an answer names. The size of the table is compared as an `int32_t`. -/
def entry (a : Actor) (message : Context.Response) : Option PeerRequest :=
  if message.id.toInt > (Int32.ofNat a.blockRequests.length).toInt ∨ message.id.toInt < 0 then none
  else a.blockRequests[message.id.toInt.toNat]?.join

theorem entry_eq_some {a : Actor} {message : Context.Response} {r : PeerRequest}
    (h : entry a message = some r) : 0 ≤ message.id.toInt ∧ message.id.toInt < a.blockRequests.length ∧
      a.blockRequests[message.id.toInt.toNat]? = some (some r) := by
  unfold entry at h
  split at h
  · cases h
  · rename_i hid
    have hget : a.blockRequests[message.id.toInt.toNat]? = some (some r) := Option.join_eq_some_iff.mp h
    have hlt := (List.getElem?_eq_some_iff.mp hget).1
    exact ⟨by omega, by omega, hget⟩

/-- The block has come: the file is still there, and so is the controller. -/
def Delivered (ctx : Context) (view : Context.View) (message : Context.Response) (r : PeerRequest)
    (file : Context.Found) : Prop :=
  Context.findBlock view ctx.actor.peer r = .ok (some file) ∧ ctx.actor.phase = .operational ∧ message.code = 0

/-- **`on_message(Response)`**, exit by exit. -/
theorem onResponse_rule {view : Context.View} {message : Context.Response} {items : List Item}
    (hoverrun : message.id.toInt = ctx.actor.blockRequests.length → E .outOfTable)
    (hunknown : entry ctx.actor message = none → I ctx.countAnswer)
    (hcrash : ∀ r, entry ctx.actor message = some r → Context.findBlock view ctx.actor.peer r = .error .nullPointer →
      E .nullPointer)
    (hdelivered : ∀ r file, entry ctx.actor message = some r → Delivered ctx view message r file →
      Post I E (do
        let ctx ← ((ctx.countAnswer.freeEntry message.id.toInt.toNat).calcDigest r
          (view.blocks file.block).getSize).pullNext 0 items
        ctx.closeInner))
    (hlost : ∀ r, entry ctx.actor message = some r → (∀ file, ¬ Delivered ctx view message r file) →
      Post I E ((ctx.countAnswer.freeEntry message.id.toInt.toNat).abandon r items)) :
    Post I E (ctx.onResponse view message items) := by
  unfold Context.onResponse
  dsimp only
  by_cases hid : message.id.toInt > (Int32.ofNat ctx.actor.blockRequests.length).toInt ∨ message.id.toInt < 0
  · rw [if_pos hid]
    exact hunknown (if_pos hid)
  · rw [if_neg hid]
    have hentry : entry ctx.actor message = ctx.actor.blockRequests[message.id.toInt.toNat]?.join :=
      if_neg hid
    cases hget : ctx.actor.blockRequests[message.id.toInt.toNat]? with
    | none =>
      have hlength := List.getElem?_eq_none_iff.mp hget
      have hcast := toInt_ofNat_le ctx.actor.blockRequests.length
      exact hoverrun (by omega)
    | some e =>
      rw [hget] at hentry
      cases e with
      | none => exact hunknown hentry
      | some r =>
        dsimp only
        have hfind := @findBlock_error view ctx.actor.peer r
        show Post I E (Context.findBlock view ctx.actor.peer r >>= _)
        cases hfound : Context.findBlock view ctx.actor.peer r with
        | error f =>
          rw [hfound] at hfind
          cases hfind
          exact hcrash r hentry hfound
        | ok found =>
          cases found with
          | none =>
            refine hlost r hentry fun file hd => ?_
            rw [hd.1] at hfound
            cases hfound
          | some file =>
            show Post I E (if ctx.actor.phase = .operational ∧ message.code = 0 then _ else _)
            split
            · rename_i hgood
              exact hdelivered r file hentry ⟨hfound, hgood⟩
            · rename_i hbad
              exact hlost r hentry fun file' hd => hbad hd.2

/-- The block is as it should be, and still needed. -/
def Usable (ctx : Context) (view : Context.View) (r : PeerRequest) (digest : Option Bytes)
    (file : Context.Found) : Prop :=
  Context.findBlock view ctx.actor.peer r = .ok (some file) ∧ ctx.actor.phase = .operational ∧
    ctx.actor.connected = true ∧ digest = some (view.blocks file.block).hash ∧ file.available = false

/-- **`on_digest`**, exit by exit. -/
theorem onDigest_rule {view : Context.View} {r : PeerRequest} {digest : Option Bytes} {items : List Item}
    (hcrash : Context.findBlock view ctx.actor.peer r = .error .nullPointer → E .nullPointer)
    (husable : ∀ file, Usable ctx view r digest file → Post I E
      (ctx.pushChecked (.appendBlock ⟨r.folderId, file.block, (view.blocks file.block).hash⟩)))
    (huseless : (∀ file, ¬ Usable ctx view r digest file) → ∀ pull, Post I E (ctx.dismiss r pull items)) :
    Post I E (ctx.onDigest view r digest items) := by
  have hfind := @findBlock_error view ctx.actor.peer r
  unfold Context.onDigest
  cases hfound : Context.findBlock view ctx.actor.peer r with
  | error f =>
    rw [hfound] at hfind
    cases hfind
    exact hcrash hfound
  | ok found =>
    cases found with
    | none =>
      refine huseless (fun file hu => ?_) false
      rw [hu.1] at hfound
      cases hfound
    | some file =>
      have hsame : ∀ file', Usable ctx view r digest file' → file' = file := by
        intro file' hu
        have heq := hu.1.symm.trans hfound
        cases heq
        rfl
      show Post I E (if ctx.actor.phase = .operational ∧ ctx.actor.connected = true then _ else _)
      split
      · rename_i hphase
        split
        · rename_i hgood
          exact husable file ⟨hfound, hphase.1, hphase.2, hgood.1, by simpa using hgood.2⟩
        · rename_i hbad
          refine huseless (fun file' hu => hbad ?_) true
          obtain rfl := hsame file' hu
          exact ⟨hu.2.2.2.1, by simp [hu.2.2.2.2]⟩
      · rename_i hphase
        refine huseless (fun file' hu => hphase ⟨hu.2.1, hu.2.2.1⟩) false

/-! ## Batches of messages -/

/-- Every message of a batch meets the condition where it is handled. -/
def Through (cond : Context → Context.Message → Prop) (ctx : Context) (messages : List Context.Message) : Prop :=
  Run.Meets (fun ctx m => (ctx.onMessage m).toOption) cond ctx messages

theorem post_onForward {cond : Context → Context.Message → Prop} {messages : List Context.Message}
    (hmessage : ∀ ctx m, I ctx → cond ctx m → Post I E (ctx.onMessage m)) (hctx : I ctx)
    (hthrough : ctx.actor.phase = .operational → Through cond ctx messages) :
    Post I E (ctx.onForward messages) := by
  have hloop : ∀ (messages : List Context.Message) (ctx : Context), I ctx → Through cond ctx messages →
      Post I E (messages.foldlM Context.onMessage ctx) := by
    intro messages
    induction messages with
    | nil => exact fun ctx hctx _ => hctx
    | cons m messages ih =>
      rintro ctx hctx ⟨hcond, hrest⟩
      rw [List.foldlM_cons]
      have hm := hmessage ctx m hctx hcond
      cases hmsg : ctx.onMessage m with
      | error f =>
        rw [hmsg] at hm
        exact hm
      | ok ctx' =>
        rw [hmsg] at hm
        exact ih ctx' hm (hrest ctx' (toOption_eq_some.mpr hmsg))
  unfold Context.onForward
  split
  · rename_i hphase
    exact hloop messages ctx hctx (hthrough hphase)
  · exact hctx

end Rules

/-! ## One event -/

/-- The context that a handler starts with. -/
def World.context (w : World) (a : Actor) : Context := ⟨w.locked, w.writeRequests, a, [], [], []⟩

/-- What a handler does to the world. -/
theorem handle_ok {w w' : World} {i : Nat} {taken : Actor → Option Actor}
    {handler : Actor → Context → Except Fault Context} (hok : w.handle i taken handler = .ok (some w')) :
    ∃ a a' ctx, w.actors[i]? = some a ∧ taken a = some a' ∧ a.phase ≠ .gone ∧
      handler a (w.context a') = .ok ctx ∧
      w' = ⟨ctx.locked, ctx.writeRequests, (w.actors.set i ctx.actor).map (World.deliver a.peer ctx.newAcks)⟩ := by
  unfold World.handle at hok
  split at hok
  · cases hok
  · rename_i a hget
    split at hok
    · cases hok
    · rename_i a' htaken
      split at hok
      · cases hok
      · rename_i hphase
        obtain ⟨ctx, hctx, hok⟩ := bind_ok.mp hok
        cases hok
        exact ⟨a, a', ctx, hget, htaken, hphase, hctx, rfl⟩

theorem next_ok {w w' : World} {e : Event} (h : w.next e = some w') : w.step e = .ok (some w') := by
  unfold World.next at h
  exact toOption_eq_some.mp (Option.join_eq_some_iff.mp h)

/-- The world after a handler of one controller. -/
def World.after (w : World) (i : Nat) (a : Actor) (ctx : Context) : World :=
  ⟨ctx.locked, ctx.writeRequests, (w.actors.set i ctx.actor).map (World.deliver a.peer ctx.newAcks)⟩

/-- **One handler**: what it leaves in its context decides about the world. -/
theorem post_handle {P : World → Prop} {E : Fault → Prop} {w : World} {i : Nat}
    {taken : Actor → Option Actor} {handler : Actor → Context → Except Fault Context}
    (hhandler : ∀ a a', w.actors[i]? = some a → taken a = some a' → a.phase ≠ .gone →
      Post (fun ctx => P (w.after i a ctx)) E (handler a (w.context a'))) :
    Post (fun o => ∀ w' ∈ o, P w') E (w.handle i taken handler) := by
  unfold World.handle
  split
  · exact nofun
  · rename_i a hget
    split
    · exact nofun
    · rename_i a' htaken
      split
      · exact nofun
      · rename_i hphase
        refine (hhandler a a' hget htaken hphase).bind fun ctx hctx => ?_
        intro w' hw'
        cases hw'
        exact hctx

/-- A property of each controller that does not depend on the acknowledgements. -/
theorem actors_after {K : Actor → Prop} (hacks : ∀ a acks, K a → K { a with acks := acks }) {w : World}
    (hw : ∀ a ∈ w.actors, K a) {ctx : Context} (hctx : K ctx.actor) (i : Nat) (a : Actor) :
    ∀ b ∈ (w.after i a ctx).actors, K b := by
  intro b hb
  obtain ⟨c, hc, rfl⟩ := List.mem_map.mp hb
  have hKc : K c := by
    rcases List.mem_or_eq_of_mem_set hc with hc | rfl
    · exact hw c hc
    · exact hctx
  unfold World.deliver
  split
  · exact hacks c _ hKc
  · exact hKc

theorem post_closing {I : Context → Prop} {E : Fault → Prop} {handler : Context → Except Fault Context}
    {ctx : Context} (hclose : ∀ ctx, I ctx → Post I E ctx.close) (h : Post I E (handler ctx)) :
    Post I E (World.closing handler ctx) :=
  h.bind fun _ hctx => hclose _ hctx

end Controller

end SyncSpirit
