import SyncSpirit.Lib.Run
import Mathlib

/-!
# The scan scheduler (`net/scheduler.cpp`)

`scheduler_t` collects the requests to scan a directory of a folder in a queue, and starts one
scan after another; when the queue is empty, it starts the scan of the folder whose rescan
interval is over, or waits for it.

A request is merged with the *first* entry of its folder: it is ignored if that entry includes
it, and widens the entry if it includes that entry. `compare` looks for a prefix of the strings,
though, and so takes `ab` for a part of `a`.

`System` counts the requests that no scan has contained yet, and the scans that have been
started and not finished. `covered_of_run` is about every run in which the prefixes are directories
(`Ready`), and in which nothing else than the requests starts a scan while there is one.
-/

namespace SyncSpirit

namespace Scan

/-! ## Directories -/

/-- `subpath_comparison_t`. -/
inductive Comparison where
  | equal
  | includes
  | isIncluded
  | noIntersection
  deriving DecidableEq, Repr

/-- `compare` (scheduler.cpp:18–35). -/
def compare (a b : List Char) : Comparison :=
  if a.length < b.length then
    if a.isPrefixOf b then .includes else .noIntersection
  else if b.length < a.length then
    if b.isPrefixOf a then .isIncluded else .noIntersection
  else if a = b then .equal else .noIntersection

/-- The directory is the other one, or above it. The root of a folder is the empty path. -/
def Contains (dir path : List Char) : Prop := dir = [] ∨ dir = path ∨ dir ++ ['/'] <+: path

instance (dir path : List Char) : Decidable (Contains dir path) :=
  inferInstanceAs (Decidable (dir = [] ∨ dir = path ∨ dir ++ ['/'] <+: path))

theorem Contains.refl (dir : List Char) : Contains dir dir := .inr (.inl rfl)

theorem Contains.isPrefix {dir path : List Char} (h : Contains dir path) : dir <+: path := by
  rcases h with rfl | rfl | h
  · exact List.nil_prefix
  · exact List.prefix_refl _
  · exact (List.prefix_append _ _).trans h

theorem Contains.trans {a b c : List Char} (h : Contains a b) (h' : Contains b c) : Contains a c := by
  rcases h with rfl | rfl | h
  · exact .inl rfl
  · exact h'
  · exact .inr (.inr (h.trans h'.isPrefix))

/-- What `compare` makes of two paths. -/
theorem compare_spec (a b : List Char) :
    (compare a b = .equal ∧ a = b) ∨ (compare a b = .includes ∧ a <+: b) ∨
      (compare a b = .isIncluded ∧ b <+: a) ∨ compare a b = .noIntersection := by
  unfold compare
  split
  · split
    · rename_i h
      exact .inr (.inl ⟨rfl, List.isPrefixOf_iff_prefix.mp h⟩)
    · exact .inr (.inr (.inr rfl))
  · split
    · split
      · rename_i h
        exact .inr (.inr (.inl ⟨rfl, List.isPrefixOf_iff_prefix.mp h⟩))
      · exact .inr (.inr (.inr rfl))
    · split
      · rename_i h
        exact .inl ⟨rfl, h⟩
      · exact .inr (.inr (.inr rfl))

/-! ## The scheduler -/

/-- `scan_item_t`. -/
structure ScanItem where
  folderId : String
  subDir : List Char
  deriving DecidableEq, Repr

/-- A time in microseconds. -/
abbrev Time := Int

/-- Of a `folder_t` what the scheduler reads; `suspendReason` says that there is one. -/
structure FolderState where
  id : String
  synchronizing : Bool
  suspended : Bool
  suspendReason : Bool
  rescanInterval : UInt32
  scanStart : Option Time
  scanFinish : Option Time
  deriving DecidableEq, Repr

/-- `folder_t::is_scanning`. -/
def FolderState.isScanning (f : FolderState) : Bool :=
  match f.scanStart, f.scanFinish with
  | none, _ => false
  | some _, none => true
  | some start, some finish => finish < start

/-- The folders of the cluster and the clock at an event. -/
structure Env where
  folders : List FolderState
  now : Time

namespace Env

/-- `folders_map_t::by_id`. -/
def byId (env : Env) (id : String) : Option FolderState := env.folders.find? fun f => f.id = id

/-- One second. -/
def second : Time := 1000000

/-- `second_clock::local_time`. -/
def nowSeconds (env : Env) : Time := env.now / second * second

/-- The entries that `scan_next` drops. -/
def skips (env : Env) (id : String) : Bool :=
  match env.byId id with
  | none => true
  | some folder => folder.synchronizing || (folder.suspended && !folder.suspendReason)

/-- One folder of the loop over the rescan intervals. -/
def selectFolder (env : Env) (best : Option (FolderState × Time)) (f : FolderState) :
    Option (FolderState × Time) :=
  if f.rescanInterval = 0 ∨ f.isScanning ∨ f.synchronizing ∨ f.suspended then best
  else
    let deadline := match f.scanFinish with
      | none => env.nowSeconds
      | some finish => finish + f.rescanInterval.toNat * second
    match best with
    | none => some (f, deadline)
    | some (folder, bestDeadline) =>
      if deadline < bestDeadline ∨ (deadline = bestDeadline ∧ f.rescanInterval < folder.rescanInterval)
      then some (f, deadline) else best

/-- The folder whose interval ends first. -/
def select (env : Env) : Option (FolderState × Time) := env.folders.foldl env.selectFolder none

/-- The first entry that is not dropped, and the queue behind it without its repetitions. -/
def take (env : Env) : List ScanItem → List ScanItem × Option (ScanItem × List ScanItem)
  | [] => ([], none)
  | item :: queue =>
    if env.skips item.folderId then
      let (dropped, next) := env.take queue
      (item :: dropped, next)
    else ([], some (item, queue.filter fun other => other ≠ item))

end Env

/-- `next_schedule_t`; `time` is the member `at`. -/
structure NextSchedule where
  item : ScanItem
  interval : Time
  time : Time
  deriving DecidableEq, Repr

/-- `scheduler_t`; `timer` says that there is a `timer_id`. -/
structure Scheduler where
  scanQueue : List ScanItem
  timer : Bool
  scheduleOption : Option NextSchedule
  scanInProgress : Bool
  deriving DecidableEq, Repr

/-- What happens to the entries: dropped, or sent as `scan_start_t`. -/
inductive Effect where
  | dropped (item : ScanItem)
  | scanStart (item : ScanItem)
  deriving DecidableEq, Repr

namespace Scheduler

/-- `initiate_scan`, without the message. -/
def initiateScan (s : Scheduler) : Scheduler := { s with scanInProgress := true }

/-- `scan_next`. -/
def scanNext (env : Env) (s : Scheduler) : Option NextSchedule × Scheduler × List Effect :=
  match env.take s.scanQueue with
  | (dropped, some (item, queue)) =>
    (none, { s with scanQueue := queue }.initiateScan, dropped.map .dropped ++ [.scanStart item])
  | (dropped, none) =>
    let s := { s with scanQueue := [] }
    match env.select with
    | none => (none, s, dropped.map .dropped)
    | some (folder, deadline) =>
      let item : ScanItem := ⟨folder.id, []⟩
      if deadline ≤ env.nowSeconds then
        (none, s.initiateScan, dropped.map .dropped ++ [.scanStart item])
      else (some ⟨item, deadline - env.nowSeconds, deadline⟩, s, dropped.map .dropped)

/-- `scan_next_or_schedule`; the old timer is cancelled if the new one is earlier. -/
def scanNextOrSchedule (env : Env) (s : Scheduler) : Scheduler × List Effect :=
  match s.scanNext env with
  | (none, s, effects) => (s, effects)
  | (some next, s, effects) =>
    if s.timer = true ∧ ∀ option ∈ s.scheduleOption, option.time ≤ next.time then (s, effects)
    else ({ s with timer := true, scheduleOption := some next }, effects)

/-- What starts with a new event, unless a scan is in progress. -/
def wake (env : Env) (s : Scheduler) : Scheduler × List Effect :=
  if s.scanInProgress then (s, []) else s.scanNextOrSchedule env

/-- The loop over the queue at a request: the new queue, and whether the request is ignored. -/
def merge (request : ScanItem) : List ScanItem → List ScanItem × Bool
  | [] => ([], false)
  | item :: queue =>
    if item.folderId = request.folderId then
      match compare item.subDir request.subDir with
      | .equal | .includes => (item :: queue, true)
      | .isIncluded => ({ item with subDir := request.subDir } :: queue, true)
      | .noIntersection => (item :: queue, false)
    else
      let (queue, ignore) := merge request queue
      (item :: queue, ignore)

/-- `operator()(scan_request_t)`; `updated` is never true. -/
def scanRequest (env : Env) (s : Scheduler) (request : ScanItem) : Scheduler × List Effect :=
  match merge request s.scanQueue with
  | (queue, true) => ({ s with scanQueue := queue }, [])
  | (queue, false) => { s with scanQueue := queue ++ [request] }.wake env

/-- `operator()(scan_finish_t)`. -/
def scanFinish (env : Env) (s : Scheduler) : Scheduler × List Effect :=
  { s with scanInProgress := false }.scanNextOrSchedule env

/-- `on_local_ready`: the schedule is not used. -/
def onLocalReady (env : Env) (s : Scheduler) : Scheduler × List Effect := (s.scanNext env).2

/-- `on_timer`. Without a schedule an empty option is read; the item is moved out of it. -/
def onTimer (env : Env) (s : Scheduler) (cancelled : Bool) : Option (Scheduler × List Effect) :=
  let s := { s with timer := false }
  if cancelled then some (s, [])
  else
    match s.scheduleOption with
    | none => none
    | some option =>
      let item := option.item
      let s := { s with scheduleOption := some { option with item := ⟨"", []⟩ } }
      match env.byId item.folderId with
      | none => some (s, [])
      | some folder =>
        match folder.scanFinish with
        | none => some (s, [])
        | some lastScan =>
          let interval := if folder.rescanInterval = 0 then 1 else folder.rescanInterval
          if env.now - lastScan < interval.toNat * Env.second then some (s.scanNextOrSchedule env)
          else some (s.initiateScan, [.scanStart item])

end Scheduler

/-- What the scheduler hears of. -/
inductive Event where
  | upsertFolder
  | scanRequest (request : ScanItem)
  | scanFinish (folderId : String)
  | synchronizationFinish
  | localReady
  | timer (cancelled : Bool)
  deriving DecidableEq, Repr

/-- One event. -/
def Scheduler.handle (env : Env) (s : Scheduler) : Event → Option (Scheduler × List Effect)
  | .upsertFolder => some (s.wake env)
  | .scanRequest request => some (s.scanRequest env request)
  | .scanFinish _ => some (s.scanFinish env)
  | .synchronizationFinish => some (s.wake env)
  | .localReady => some (s.onLocalReady env)
  | .timer cancelled => s.onTimer env cancelled

/-! ## Requests and scans -/

/-- A scan of the first item scans the second one, too. -/
def ScanItem.Contains (item other : ScanItem) : Prop :=
  item.folderId = other.folderId ∧ Scan.Contains item.subDir other.subDir

instance (item other : ScanItem) : Decidable (item.Contains other) :=
  inferInstanceAs (Decidable (item.folderId = other.folderId ∧ _))

/-- The entry that has been dropped, or whose scan has been started. -/
def Effect.item : Effect → ScanItem
  | .dropped item => item
  | .scanStart item => item

/-- The scans that have been started. -/
def starts (effects : List Effect) : List ScanItem :=
  effects.filterMap fun
    | .dropped _ => none
    | .scanStart item => some item

/-- The scheduler with the requests that nothing has been done about, and with the scans in
progress. -/
structure System where
  scheduler : Scheduler
  pending : List ScanItem
  running : List ScanItem
  deriving Repr

namespace System

/-- A request is settled when a scan that contains it starts, or when its entry is dropped. -/
def settle (effects : List Effect) (pending : List ScanItem) : List ScanItem :=
  pending.filter fun request => ∀ effect ∈ effects, ¬ effect.item.Contains request

/-- The requests with the new one. -/
def request (pending : List ScanItem) : Event → List ScanItem
  | .scanRequest request => pending ++ [request]
  | _ => pending

/-- The scans without the finished one. -/
def finish (running : List ScanItem) : Event → List ScanItem
  | .scanFinish folderId => running.eraseP fun item => item.folderId = folderId
  | _ => running

/-- One event, with the folders and the clock at it. -/
def step (sys : System) (event : Env × Event) : Option System := do
  let (scheduler, effects) ← sys.scheduler.handle event.1 event.2
  return {
    scheduler := scheduler
    pending := settle effects (request sys.pending event.2)
    running := finish sys.running event.2 ++ starts effects }

/-- Before the first event. -/
def initial : System := ⟨⟨[], false, none, false⟩, [], []⟩

/-- No request is lost, and one scan at most is in progress. -/
structure Kept (sys : System) : Prop where
  covered : ∀ request ∈ sys.pending, ∃ item ∈ sys.scheduler.scanQueue, item.Contains request
  once : sys.running.length ≤ 1

end System

/-- There is no scan to start. -/
def Env.Idle (env : Env) (queue : List ScanItem) : Prop :=
  (∀ item ∈ queue, env.skips item.folderId = true) ∧ ∀ best ∈ env.select, env.nowSeconds < best.2

instance (env : Env) (queue : List ScanItem) : Decidable (env.Idle queue) :=
  inferInstanceAs (Decidable ((∀ item ∈ queue, env.skips item.folderId = true) ∧
    ∀ best ∈ env.select, env.nowSeconds < best.2))

/-- **The condition**: where a request is compared with an entry, a prefix is a directory; a
finished scan is the one in progress; and while a scan is in progress, neither the timer nor
the coordinator's start finds another one to start. -/
def Ready (sys : System) (event : Env × Event) : Prop :=
  match event.2 with
  | .scanRequest request =>
    ∀ item ∈ sys.scheduler.scanQueue.find? fun item => item.folderId = request.folderId,
      (item.subDir <+: request.subDir → Contains item.subDir request.subDir) ∧
        (request.subDir <+: item.subDir → Contains request.subDir item.subDir)
  | .scanFinish folderId => ∃ item ∈ sys.running, item.folderId = folderId
  | .localReady =>
    sys.scheduler.scanInProgress = true → event.1.Idle sys.scheduler.scanQueue
  | .timer false =>
    sys.scheduler.scanInProgress = true → ∀ option ∈ sys.scheduler.scheduleOption,
      ∀ folder ∈ event.1.byId option.item.folderId, ∀ lastScan ∈ folder.scanFinish,
        event.1.now - lastScan <
          (if folder.rescanInterval = 0 then 1 else folder.rescanInterval).toNat * Env.second ∧
        event.1.Idle sys.scheduler.scanQueue
  | _ => True

instance (sys : System) (event : Env × Event) : Decidable (Ready sys event) :=
  match event with
  | (_, .scanRequest request) =>
    inferInstanceAs (Decidable (∀ item ∈ sys.scheduler.scanQueue.find? fun item =>
        item.folderId = request.folderId,
      (item.subDir <+: request.subDir → Contains item.subDir request.subDir) ∧
        (request.subDir <+: item.subDir → Contains request.subDir item.subDir)))
  | (_, .scanFinish folderId) =>
    inferInstanceAs (Decidable (∃ item ∈ sys.running, item.folderId = folderId))
  | (env, .localReady) =>
    inferInstanceAs (Decidable (sys.scheduler.scanInProgress = true → env.Idle sys.scheduler.scanQueue))
  | (env, .timer false) =>
    inferInstanceAs (Decidable (sys.scheduler.scanInProgress = true →
      ∀ option ∈ sys.scheduler.scheduleOption, ∀ folder ∈ env.byId option.item.folderId,
        ∀ lastScan ∈ folder.scanFinish, env.now - lastScan <
          (if folder.rescanInterval = 0 then 1 else folder.rescanInterval).toNat * Env.second ∧
        env.Idle sys.scheduler.scanQueue))
  | (_, .timer true) => .isTrue trivial
  | (_, .upsertFolder) => .isTrue trivial
  | (_, .synchronizationFinish) => .isTrue trivial

/-! ## What an event does to the queue -/

/-- Every entry stays, or is dropped, or its scan starts; and one scan starts at most. -/
structure Served (s : Scheduler) (t : Scheduler × List Effect) : Prop where
  entries : ∀ item ∈ s.scanQueue, item ∈ t.1.scanQueue ∨ ∃ effect ∈ t.2, effect.item = item
  starts : (starts t.2 = [] ∧ t.1.scanInProgress = s.scanInProgress) ∨
    ∃ item, starts t.2 = [item] ∧ t.1.scanInProgress = true

/-- Nothing starts. -/
def Silent (s : Scheduler) (t : Scheduler × List Effect) : Prop :=
  starts t.2 = [] ∧ t.1.scanInProgress = s.scanInProgress

theorem starts_dropped (items : List ScanItem) : starts (items.map .dropped) = [] := by
  simp [starts]

theorem starts_append (effects effects' : List Effect) :
    starts (effects ++ effects') = starts effects ++ starts effects' :=
  List.filterMap_append

theorem Env.take_spec (env : Env) : ∀ {queue : List ScanItem},
    (∃ dropped, env.take queue = (dropped, none) ∧ queue = dropped) ∨
      ∃ dropped item rest, env.take queue = (dropped, some (item, rest.filter fun other => other ≠ item)) ∧
        queue = dropped ++ item :: rest ∧ env.skips item.folderId = false := by
  intro queue
  induction queue with
  | nil => exact .inl ⟨[], rfl, rfl⟩
  | cons item queue ih =>
    rw [Env.take]
    by_cases hskip : env.skips item.folderId = true
    · rw [if_pos hskip]
      rcases ih with ⟨dropped, htake, rfl⟩ | ⟨dropped, next, rest, htake, rfl, hnext⟩
      · exact .inl ⟨item :: queue, by rw [htake], rfl⟩
      · exact .inr ⟨item :: dropped, next, rest, by rw [htake], rfl, hnext⟩
    · rw [if_neg hskip]
      exact .inr ⟨[], item, queue, rfl, rfl, by simpa using hskip⟩

/-- **`scan_next`**, with what makes it silent. -/
theorem scanNext_spec (env : Env) (s : Scheduler) :
    Served s (s.scanNext env).2 ∧ (env.Idle s.scanQueue → Silent s (s.scanNext env).2) := by
  unfold Scheduler.scanNext
  rcases @Env.take_spec env s.scanQueue with ⟨dropped, htake, hqueue⟩ |
    ⟨dropped, item, rest, htake, hqueue, hnext⟩
  · rw [htake]
    dsimp only
    have hentries : ∀ item ∈ s.scanQueue, ∀ effects,
        ∃ effect ∈ dropped.map Effect.dropped ++ effects, effect.item = item := by
      intro item hitem effects
      rw [hqueue] at hitem
      exact ⟨.dropped item, List.mem_append_left _ (List.mem_map_of_mem hitem), rfl⟩
    have hquiet : Silent s ({ s with scanQueue := [] }, dropped.map .dropped) :=
      ⟨starts_dropped dropped, rfl⟩
    have hserved : Served s ({ s with scanQueue := [] }, dropped.map .dropped) :=
      ⟨fun item hitem => .inr (by simpa using hentries item hitem []), .inl hquiet⟩
    cases hselect : env.select with
    | none => exact ⟨hserved, fun _ => hquiet⟩
    | some best =>
      obtain ⟨folder, deadline⟩ := best
      dsimp only
      by_cases hdue : deadline ≤ env.nowSeconds
      · rw [if_pos hdue]
        refine ⟨⟨fun item hitem => .inr (hentries item hitem _), .inr ⟨⟨folder.id, []⟩, ?_, rfl⟩⟩,
          fun hidle => absurd hdue (Int.not_le.mpr (hidle.2 _ hselect))⟩
        rw [starts_append, starts_dropped]
        rfl
      · rw [if_neg hdue]
        exact ⟨hserved, fun _ => hquiet⟩
  · rw [htake]
    dsimp only
    refine ⟨⟨fun other hother => ?_, .inr ⟨item, ?_, rfl⟩⟩, fun hidle => ?_⟩
    · rw [hqueue] at hother
      rcases List.mem_append.mp hother with hmem | hmem
      · exact .inr ⟨.dropped other, List.mem_append_left _ (List.mem_map_of_mem hmem), rfl⟩
      · by_cases heq : other = item
        · exact .inr ⟨.scanStart item, List.mem_append_right _ (List.mem_singleton_self _), heq.symm⟩
        · left
          show other ∈ rest.filter fun other => other ≠ item
          exact List.mem_filter.mpr ⟨(List.mem_cons.mp hmem).resolve_left heq, by simpa using heq⟩
    · rw [starts_append, starts_dropped]
      rfl
    · have hskip := hidle.1 item (by rw [hqueue]; simp)
      rw [hnext] at hskip
      cases hskip

/-- A timer changes neither the queue nor what starts. -/
theorem scanNextOrSchedule_eq (env : Env) (s : Scheduler) :
    (s.scanNextOrSchedule env).2 = (s.scanNext env).2.2 ∧
      (s.scanNextOrSchedule env).1.scanQueue = (s.scanNext env).2.1.scanQueue ∧
      (s.scanNextOrSchedule env).1.scanInProgress = (s.scanNext env).2.1.scanInProgress := by
  unfold Scheduler.scanNextOrSchedule
  obtain ⟨next, t, effects⟩ := s.scanNext env
  cases next with
  | none => exact ⟨rfl, rfl, rfl⟩
  | some next =>
    dsimp only
    split
    · exact ⟨rfl, rfl, rfl⟩
    · exact ⟨rfl, rfl, rfl⟩

theorem scanNextOrSchedule_spec (env : Env) (s : Scheduler) :
    Served s (s.scanNextOrSchedule env) ∧
      (env.Idle s.scanQueue → Silent s (s.scanNextOrSchedule env)) := by
  obtain ⟨heffects, hqueue, hprogress⟩ := scanNextOrSchedule_eq env s
  obtain ⟨hserved, hsilent⟩ := scanNext_spec env s
  refine ⟨⟨?_, ?_⟩, fun hidle => ?_⟩
  · rw [heffects, hqueue]
    exact hserved.entries
  · rw [heffects, hprogress]
    exact hserved.starts
  · unfold Silent
    rw [heffects, hprogress]
    exact hsilent hidle

theorem Served.silent (s : Scheduler) : Served s (s, []) :=
  ⟨fun _ h => .inl h, .inl ⟨rfl, rfl⟩⟩

theorem wake_spec (env : Env) (s : Scheduler) :
    Served s (s.wake env) ∧ (s.scanInProgress = true → Silent s (s.wake env)) := by
  unfold Scheduler.wake
  by_cases h : s.scanInProgress = true
  · rw [if_pos h]
    exact ⟨Served.silent s, fun _ => ⟨rfl, rfl⟩⟩
  · rw [if_neg h]
    exact ⟨(scanNextOrSchedule_spec env s).1, fun h' => absurd h' h⟩

/-- **`on_timer`**. -/
theorem onTimer_spec {env : Env} {s : Scheduler} {cancelled : Bool} {t : Scheduler × List Effect}
    (h : s.onTimer env cancelled = some t) :
    Served s t ∧ ((cancelled = false → ∀ option ∈ s.scheduleOption,
      ∀ folder ∈ env.byId option.item.folderId, ∀ lastScan ∈ folder.scanFinish,
        env.now - lastScan <
          (if folder.rescanInterval = 0 then 1 else folder.rescanInterval).toNat * Env.second ∧
        env.Idle s.scanQueue) → Silent s t) := by
  unfold Scheduler.onTimer at h
  dsimp only at h
  split at h
  · cases h
    exact ⟨⟨fun _ h => .inl h, .inl ⟨rfl, rfl⟩⟩, fun _ => ⟨rfl, rfl⟩⟩
  · rename_i hfired
    split at h
    · cases h
    · rename_i option hoption
      split at h
      · cases h
        exact ⟨⟨fun _ h => .inl h, .inl ⟨rfl, rfl⟩⟩, fun _ => ⟨rfl, rfl⟩⟩
      · rename_i folder hfolder
        split at h
        · cases h
          exact ⟨⟨fun _ h => .inl h, .inl ⟨rfl, rfl⟩⟩, fun _ => ⟨rfl, rfl⟩⟩
        · rename_i lastScan hlast
          by_cases hpassed : env.now - lastScan <
              (if folder.rescanInterval = 0 then 1 else folder.rescanInterval).toNat * Env.second
          · rw [if_pos hpassed] at h
            cases h
            obtain ⟨hserved, hsilent⟩ := scanNextOrSchedule_spec env
              { s with
                timer := false
                scheduleOption := some { option with item := ⟨"", []⟩ } }
            exact ⟨⟨hserved.entries, hserved.starts⟩, fun hidle => hsilent (hidle (by simpa using hfired)
              option hoption folder hfolder lastScan hlast).2⟩
          · rw [if_neg hpassed] at h
            cases h
            exact ⟨⟨fun _ h => .inl h, .inr ⟨option.item, rfl, rfl⟩⟩, fun hidle =>
              absurd (hidle (by simpa using hfired) option hoption folder hfolder lastScan hlast).1 hpassed⟩

/-- **Merging a request** that is compared as directories: every entry is still covered, and so
is the request if it is ignored. -/
theorem merge_spec {request : ScanItem} : ∀ {queue : List ScanItem},
    (∀ item ∈ queue.find? fun item => item.folderId = request.folderId,
      (item.subDir <+: request.subDir → Contains item.subDir request.subDir) ∧
        (request.subDir <+: item.subDir → Contains request.subDir item.subDir)) →
    (∀ item ∈ queue, ∃ other ∈ (Scheduler.merge request queue).1, other.Contains item) ∧
      ((Scheduler.merge request queue).2 = true →
        ∃ other ∈ (Scheduler.merge request queue).1, other.Contains request) := by
  intro queue
  induction queue with
  | nil => exact fun _ => ⟨fun item hitem => absurd hitem List.not_mem_nil, fun h => (by cases h)⟩
  | cons item queue ih =>
    intro hready
    have hself : ∀ other ∈ item :: queue, ∃ other' ∈ item :: queue, other'.Contains other :=
      fun other hother => ⟨other, hother, rfl, Contains.refl _⟩
    by_cases hfolder : item.folderId = request.folderId
    · obtain ⟨hdown, hup⟩ := hready item (by simp [hfolder])
      rw [Scheduler.merge, if_pos hfolder]
      rcases compare_spec item.subDir request.subDir with ⟨hcompare, heq⟩ | ⟨hcompare, hpre⟩ |
        ⟨hcompare, hpre⟩ | hcompare
      · rw [hcompare]
        exact ⟨hself, fun _ => ⟨item, List.mem_cons_self .., hfolder, .inr (.inl heq)⟩⟩
      · rw [hcompare]
        exact ⟨hself, fun _ => ⟨item, List.mem_cons_self .., hfolder, hdown hpre⟩⟩
      · rw [hcompare]
        -- the entry is widened
        refine ⟨fun other hother => ?_, fun _ => ⟨_, List.mem_cons_self .., hfolder, Contains.refl _⟩⟩
        rcases List.mem_cons.mp hother with rfl | hother
        · exact ⟨_, List.mem_cons_self .., rfl, hup hpre⟩
        · exact ⟨other, List.mem_cons_of_mem _ hother, rfl, Contains.refl _⟩
      · rw [hcompare]
        exact ⟨hself, fun h => (by cases h)⟩
    · obtain ⟨hentries, hignore⟩ := ih (by simpa [hfolder] using hready)
      rw [Scheduler.merge, if_neg hfolder]
      refine ⟨fun other hother => ?_, fun h => ?_⟩
      · rcases List.mem_cons.mp hother with rfl | hother
        · exact ⟨other, List.mem_cons_self .., rfl, Contains.refl _⟩
        · obtain ⟨other', hmem, hcontains⟩ := hentries other hother
          exact ⟨other', List.mem_cons_of_mem _ hmem, hcontains⟩
      · obtain ⟨other, hmem, hcontains⟩ := hignore h
        exact ⟨other, List.mem_cons_of_mem _ hmem, hcontains⟩

/-! ## Runs -/

namespace System

/-- The invariant: `Kept`, and the flag is about the scans in progress. -/
structure Sound (sys : System) : Prop extends Kept sys where
  progress : sys.scheduler.scanInProgress = true ↔ sys.running ≠ []

/-- What is covered by an entry stays covered, or is settled. -/
theorem covered_of_served {s : Scheduler} {t : Scheduler × List Effect} (h : Served s t)
    {pending : List ScanItem} (hcovered : ∀ request ∈ pending, ∃ item ∈ s.scanQueue, item.Contains request) :
    ∀ request ∈ settle t.2 pending, ∃ item ∈ t.1.scanQueue, item.Contains request := by
  intro request hrequest
  obtain ⟨hmem, hopen⟩ := List.mem_filter.mp hrequest
  obtain ⟨item, hitem, hcontains⟩ := hcovered request hmem
  rcases h.entries item hitem with hstay | ⟨effect, heffect, rfl⟩
  · exact ⟨item, hstay, hcontains⟩
  · have hopen : ∀ effect ∈ t.2, ¬ effect.item.Contains request := by simpa using hopen
    exact absurd hcontains (hopen effect heffect)

/-- Scans start one at a time, if an event that meets one in progress is silent. -/
theorem running_of_served {s : Scheduler} {t : Scheduler × List Effect} (h : Served s t)
    (hsilent : s.scanInProgress = true → Silent s t) {running : List ScanItem}
    (honce : running.length ≤ 1) (hprogress : s.scanInProgress = true ↔ running ≠ []) :
    (running ++ starts t.2).length ≤ 1 ∧
      (t.1.scanInProgress = true ↔ running ++ starts t.2 ≠ []) := by
  have hnone : starts t.2 = [] → t.1.scanInProgress = s.scanInProgress →
      (running ++ starts t.2).length ≤ 1 ∧
        (t.1.scanInProgress = true ↔ running ++ starts t.2 ≠ []) := by
    intro hstarts hsame
    rw [hstarts, List.append_nil, hsame]
    exact ⟨honce, hprogress⟩
  by_cases hbusy : s.scanInProgress = true
  · obtain ⟨hstarts, hsame⟩ := hsilent hbusy
    exact hnone hstarts hsame
  · rcases h.starts with ⟨hstarts, hsame⟩ | ⟨item, hstarts, hstarted⟩
    · exact hnone hstarts hsame
    · have hrunning : running = [] := by
        by_contra hne
        exact hbusy (hprogress.mpr hne)
      rw [hstarts, hrunning, hstarted]
      simp

/-- **One event.** -/
theorem Sound.step {sys sys' : System} (h : sys.Sound) {event : Env × Event} (hready : Ready sys event)
    (hstep : sys.step event = some sys') : sys'.Sound := by
  obtain ⟨env, event⟩ := event
  obtain ⟨t, ht, hstep⟩ := Option.bind_eq_some_iff.mp hstep
  cases hstep
  -- an event that leaves the requests and the scans to the scheduler
  have hserve : ∀ {s : Scheduler} {pending running : List ScanItem}, Served s t →
      (s.scanInProgress = true → Silent s t) →
      (∀ request ∈ pending, ∃ item ∈ s.scanQueue, item.Contains request) → running.length ≤ 1 →
      (s.scanInProgress = true ↔ running ≠ []) →
      Sound ⟨t.1, settle t.2 pending, running ++ starts t.2⟩ := by
    intro s pending running hserved hsilent hcovered honce hprogress
    obtain ⟨honce', hprogress'⟩ := running_of_served hserved hsilent honce hprogress
    exact ⟨⟨covered_of_served hserved hcovered, honce'⟩, hprogress'⟩
  cases event with
  | upsertFolder =>
    cases ht
    obtain ⟨hserved, hsilent⟩ := wake_spec env sys.scheduler
    exact hserve hserved hsilent h.covered h.once h.progress
  | synchronizationFinish =>
    cases ht
    obtain ⟨hserved, hsilent⟩ := wake_spec env sys.scheduler
    exact hserve hserved hsilent h.covered h.once h.progress
  | localReady =>
    cases ht
    obtain ⟨hserved, hsilent⟩ := scanNext_spec env sys.scheduler
    exact hserve hserved (fun hbusy => hsilent (hready hbusy)) h.covered h.once h.progress
  | timer cancelled =>
    obtain ⟨hserved, hsilent⟩ := onTimer_spec ht
    refine hserve hserved (fun hbusy => hsilent fun hfired => ?_) h.covered h.once h.progress
    subst hfired
    exact hready hbusy
  | scanFinish folderId =>
    cases ht
    obtain ⟨item, hitem, hfolder⟩ := hready
    -- there is no other scan
    have hfinish : finish sys.running (.scanFinish folderId) = [] := by
      obtain ⟨only, hrunning⟩ := List.length_eq_one_iff.mp
        (Nat.le_antisymm h.once (List.length_pos_of_mem hitem))
      rw [hrunning] at hitem ⊢
      rw [List.mem_singleton.mp hitem] at hfolder
      simp [finish, hfolder]
    obtain ⟨hserved, hsilent⟩ := scanNextOrSchedule_spec env { sys.scheduler with scanInProgress := false }
    exact hserve hserved (fun hbusy => (by cases hbusy)) h.covered (by rw [hfinish]; simp)
      (by rw [hfinish]; simp)
  | scanRequest request =>
    obtain ⟨hentries, hignore⟩ := merge_spec hready
    have hcovered : ∀ other ∈ sys.pending,
        ∃ item ∈ (Scheduler.merge request sys.scheduler.scanQueue).1, item.Contains other := by
      intro other hother
      obtain ⟨item, hitem, hcontains⟩ := h.covered other hother
      obtain ⟨item', hitem', hcontains'⟩ := hentries item hitem
      exact ⟨item', hitem', hcontains'.1.trans hcontains.1, hcontains'.2.trans hcontains.2⟩
    have ht : t = sys.scheduler.scanRequest env request := (Option.some.inj ht).symm
    unfold Scheduler.scanRequest at ht
    generalize Scheduler.merge request sys.scheduler.scanQueue = merged at ht hentries hignore hcovered
    obtain ⟨queue, ignore⟩ := merged
    cases ignore with
    | true =>
      subst ht
      refine @hserve { sys.scheduler with scanQueue := queue } _ _ (Served.silent _)
        (fun _ => ⟨rfl, rfl⟩) (fun other hother => ?_) h.once h.progress
      rcases List.mem_append.mp hother with hother | hother
      · exact hcovered other hother
      · rw [List.mem_singleton.mp hother]
        exact hignore rfl
    | false =>
      subst ht
      obtain ⟨hserved, hsilent⟩ := wake_spec env { sys.scheduler with scanQueue := queue ++ [request] }
      refine hserve hserved hsilent (fun other hother => ?_) h.once h.progress
      rcases List.mem_append.mp hother with hother | hother
      · obtain ⟨item, hitem, hcontains⟩ := hcovered other hother
        exact ⟨item, List.mem_append_left _ hitem, hcontains⟩
      · rw [List.mem_singleton.mp hother]
        exact ⟨request, List.mem_append_right _ (List.mem_singleton_self _), rfl, Contains.refl _⟩

theorem Sound.initial : Sound initial :=
  ⟨⟨fun _ h => absurd h List.not_mem_nil, by decide⟩, by decide⟩

/-- **Requests**: in every run whose events are all ready, no request is lost, and one scan at
most is in progress. -/
theorem covered_of_run {events : List (Env × Event)} {sys : System}
    (hready : Run.Meets step Ready initial events) (hrun : Run.exec step initial events = some sys) :
    sys.Kept :=
  (Run.exec_inv (fun _ _ _ hs he hstep => hs.step he hstep) Sound.initial hready hrun).toKept

/-- The folder "f" with a long rescan interval, just after it has been scanned. -/
def quiet : Env := ⟨[⟨"f", false, false, false, 3600, some 0, some 1⟩], 2⟩

/-- A directory, a part of it and the whole folder are requested during a scan. -/
theorem kept_of_parts : ∃ sys, Run.exec step initial
    [(quiet, .scanRequest ⟨"f", ['c']⟩), (quiet, .scanRequest ⟨"f", ['a']⟩),
      (quiet, .scanRequest ⟨"f", ['a', '/', 'b']⟩), (quiet, .scanRequest ⟨"f", []⟩),
      (quiet, .scanFinish "f")] = some sys ∧ sys.Kept :=
  ⟨_, rfl, @covered_of_run [(quiet, .scanRequest ⟨"f", ['c']⟩), (quiet, .scanRequest ⟨"f", ['a']⟩),
    (quiet, .scanRequest ⟨"f", ['a', '/', 'b']⟩), (quiet, .scanRequest ⟨"f", []⟩),
    (quiet, .scanFinish "f")] _ (by decide) rfl⟩

/-- The same folder two hours later. -/
def later : Env := { quiet with now := 2 * 3600 * Env.second }

/-- During a scan "a" is requested and then "ab", which is ignored: no entry covers it. And a
folder waits for its interval, another scan starts in the meantime, and the timer starts a
second one. -/
theorem not_kept :
    (∃ sys, Run.exec step initial
      [(quiet, .scanRequest ⟨"f", ['c']⟩), (quiet, .scanRequest ⟨"f", ['a']⟩),
        (quiet, .scanRequest ⟨"f", ['a', 'b']⟩)] = some sys ∧ ⟨"f", ['a', 'b']⟩ ∈ sys.pending ∧
      ∀ item ∈ sys.scheduler.scanQueue, ¬ item.Contains ⟨"f", ['a', 'b']⟩) ∧
    ∃ sys, Run.exec step initial
      [(quiet, .synchronizationFinish), (quiet, .scanRequest ⟨"f", ['c']⟩),
        (later, .timer false)] = some sys ∧ sys.running = [⟨"f", ['c']⟩, ⟨"f", []⟩] := by
  refine ⟨⟨_, rfl, ?_, ?_⟩, ⟨_, rfl, ?_⟩⟩
  · decide
  · decide
  · decide

end System

end Scan

end SyncSpirit
