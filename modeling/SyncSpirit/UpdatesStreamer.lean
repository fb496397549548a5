import Mathlib

/-!
# The updates streamer (`model/misc/updates_streamer.cpp`)

The streamer sends the files of the shared folders to a peer, each folder in the order of the sequences.
`seen` has, for each folder, the sequence that was sent last; the files of the folder that is being
streamed wait in `unseen`, an ordered index whose keys are the sequences of the shared file objects.

A file is moved to a new sequence in the folder (`advance`), and only afterwards the streamer is told
(`on_update`). Until then a file that waits is at the place of its old sequence. `put` is what the index
then does: an element is replaced in its place if it fits between its neighbours, else it is
taken out and put in again. Where the tree would put it depends on its shape if the other elements are
not in order, and then the model has no answer, except at the end.

`System` has the folders, the streamer, what has been yielded, the files whose change the streamer does
not know yet, and the sequence up to which the peer knew a folder at first.
-/

namespace SyncSpirit

namespace Streaming

/-- The files of a local folder: the sequence index of `file_infos_map_t`, the sequences of the file objects,
and `max_sequence`. Within one epoch of the index every sequence is given once, the last one to a file. -/
structure Folder where
  files : List String
  sequence : String → Nat
  maxSequence : Nat
  ordered : files.Pairwise fun a b => sequence a < sequence b
  bounded : ∀ x ∈ files, sequence x ≤ maxSequence
  attained : maxSequence = 0 ∨ ∃ x ∈ files, sequence x = maxSequence

namespace Folder

/-- `file_infos_map_t::range`. -/
def range (f : Folder) (lower upper : Nat) : List String :=
  f.files.filter fun x => lower ≤ f.sequence x ∧ f.sequence x ≤ upper

/-- An advance diff: the file, new or not, gets the next sequence. -/
def advance (f : Folder) (x : String) : Folder where
  files := f.files.filter (· ≠ x) ++ [x]
  sequence := Function.update f.sequence x (f.maxSequence + 1)
  maxSequence := f.maxSequence + 1
  ordered := by
    have hold : ∀ a ∈ f.files.filter (· ≠ x), Function.update f.sequence x (f.maxSequence + 1) a = f.sequence a := by
      intro a ha
      exact Function.update_of_ne (by simpa using (List.mem_filter.mp ha).2) ..
    refine List.pairwise_append.mpr ⟨?_, List.pairwise_singleton _ _, fun a ha b hb => ?_⟩
    · refine (f.ordered.sublist List.filter_sublist).imp_of_mem fun {a b} ha hb hab => ?_
      rw [hold a ha, hold b hb]
      exact hab
    · rw [List.mem_singleton.mp hb, hold a ha, Function.update_self]
      exact Nat.lt_succ_of_le (f.bounded a (List.mem_filter.mp ha).1)
  bounded := by
    intro a ha
    rw [Function.update_apply]
    split
    · exact le_rfl
    · rename_i hne
      rcases List.mem_append.mp ha with ha | ha
      · exact (f.bounded a (List.mem_filter.mp ha).1).trans (Nat.le_succ _)
      · exact absurd (List.mem_singleton.mp ha) hne
  attained := .inr ⟨x, List.mem_append_right _ (List.mem_singleton_self x), Function.update_self ..⟩

end Folder

/-! ## The index of the files that wait -/

section Index

variable (key : String → Nat)

/-- The elements are in the order of their keys. -/
def InOrder (l : List String) : Prop := l.Pairwise fun a b => key a < key b

instance (l : List String) : Decidable (InOrder key l) := inferInstanceAs (Decidable (l.Pairwise _))

/-- An element is put into the tree. With the others out of order only the end is known. -/
def place (l : List String) (x : String) : Option (List String) :=
  if InOrder key l ∨ ∀ y ∈ l, key y < key x then some (l.orderedInsert (fun a b => key a ≤ key b) x) else none

/-- The element fits between its neighbours. -/
def inPlace (l : List String) (x : String) : Prop :=
  (∀ y ∈ (l.takeWhile (· ≠ x)).getLast?, key y < key x) ∧ ∀ y ∈ ((l.dropWhile (· ≠ x)).drop 1).head?, key x < key y

instance (l : List String) (x : String) : Decidable (inPlace key l x) := inferInstanceAs (Decidable (_ ∧ _))

/-- `file_infos_map_t::put`: a new element, or `replace` of the one that is there by itself. -/
def put (l : List String) (x : String) : Option (List String) :=
  if x ∈ l then if inPlace key l x then some l else place key (l.filter (· ≠ x)) x
  else place key l x

end Index

/-! ## The streamer and the folders -/

/-- What is known of the peer's view of a folder: the folder is not streamed to it at all (not shared, or only
received), there is no remote view, it is of another index, or it is of ours with a sequence. -/
inductive View where
  | unshared
  | unknown
  | mismatch
  | known (maxSequence : Nat)
  deriving DecidableEq, Repr

/-- The sequence up to which the peer has the folder, if it has got it: zero if its view is of another index. -/
def View.remoteMax : View → Option Nat
  | .unshared | .unknown => none
  | .mismatch => some 0
  | .known maxSequence => some maxSequence

/-- `update_t`: a file of a folder with the sequence it has been sent with, and whether it is the first one. -/
structure Update where
  folder : String
  file : String
  sequence : Nat
  first : Bool
  deriving DecidableEq, Repr

/-- The folders of the cluster, by their ids, and the streamer. -/
structure System where
  ids : List String
  folders : String → Folder
  seen : String → Option Nat
  streaming : Option (String × List String)
  yielded : List Update
  dirty : List (String × String)
  initially : String → Nat

/-- What can happen. `next` has the folder that is met first in `seen_info` of those that have something left,
if there is one: the order of `seen_info` is not known. -/
inductive Event where
  | advance (folder file : String)
  | onUpdate (folder file : String)
  | refresh (views : String → View)
  | next (pick : Option String)

namespace System

/-- `refresh_remote`, the part about `seen_info`. -/
def refreshedSeen (s : System) (views : String → View) (folder : String) : Option Nat :=
  if folder ∈ s.ids then (views folder).remoteMax.map fun remote => max remote ((s.seen folder).getD 0) else none

/-- `refresh_remote`, the part about the folder that is streamed. -/
def refreshedStreaming (s : System) (views : String → View) : Option (String × List String) :=
  s.streaming.filter fun p => p.1 ∈ s.ids ∧ views p.1 ≠ .unshared ∧ views p.1 ≠ .mismatch

/-- `refresh_remote`. What the peer knows at first is noted. -/
def refresh (s : System) (views : String → View) : System :=
  { s with
    seen := s.refreshedSeen views
    streaming := s.refreshedStreaming views
    initially := fun folder =>
      if s.seen folder = none then (s.refreshedSeen views folder).getD 0 else s.initially folder }

/-- The files of a folder that have not been sent. -/
def left (s : System) (folder : String) (seen : Nat) : List String :=
  (s.folders folder).range (seen + 1) (s.folders folder).maxSequence

/-- `on_update`. -/
def onUpdate (s : System) (folder file : String) : Option System :=
  let s' := { s with dirty := s.dirty.filter (· ≠ (folder, file)) }
  match s.streaming with
  | none =>
    match s.seen folder with
    | none => some s'
    | some seen => some { s' with streaming := some (folder, s.left folder seen) }
  | some (streamed, unseen) =>
    if streamed = folder then
      (put (s.folders folder).sequence unseen file).map fun unseen => { s' with streaming := some (streamed, unseen) }
    else some s'

/-- A file is sent, and the others of the folder wait. -/
def yield (s : System) (folder file : String) (streaming : Option (String × List String)) : System :=
  { s with
    seen := Function.update s.seen folder (some ((s.folders folder).sequence file))
    streaming := streaming
    yielded := s.yielded ++
      [⟨folder, file, (s.folders folder).sequence file, (s.seen folder).getD 0 = 0⟩] }

/-- The files that wait, with their folder. -/
def waiting (s : System) : Option (String × String × List String) :=
  match s.streaming with
  | some (folder, file :: rest) => some (folder, file, rest)
  | _ => none

/-- Nothing is left in any folder of `seen_info`. -/
def Exhausted (s : System) : Prop := ∀ folder ∈ s.ids, ∀ seen ∈ s.seen folder, s.left folder seen = []

instance (s : System) : Decidable s.Exhausted :=
  inferInstanceAs (Decidable (∀ folder ∈ s.ids, ∀ seen ∈ s.seen folder, s.left folder seen = []))

/-- `next`. If nothing waits, some folder is picked, or nothing is found. -/
def next (s : System) (pick : Option String) : Option System :=
  match s.waiting with
  | some (streamed, file, rest) => some (s.yield streamed file (some (streamed, rest)))
  | none =>
    match pick with
    | none => if s.Exhausted then some { s with streaming := none } else none
    | some folder =>
      match s.seen folder with
      | none => none
      | some seen =>
        match s.left folder seen with
        | [] => none
        | file :: rest => some (s.yield folder file (if rest = [] then none else some (folder, rest)))

/-- An advance diff is applied. -/
def advance (s : System) (folder file : String) : System :=
  { s with
    folders := Function.update s.folders folder ((s.folders folder).advance file)
    dirty := (folder, file) :: s.dirty }

/-- One event. -/
def step (s : System) : Event → Option System
  | .advance folder file => some (s.advance folder file)
  | .onUpdate folder file => s.onUpdate folder file
  | .refresh views => some (s.refresh views)
  | .next pick => s.next pick

/-- Before the streamer is made. -/
def initial (ids : List String) (folders : String → Folder) : System :=
  ⟨ids, folders, fun _ => none, none, [], [], fun _ => 0⟩

end System

end Streaming

end SyncSpirit
