import Mathlib.Data.List.Nodup
import Mathlib.Data.List.Count
import Mathlib.Logic.Function.Basic
import Bustub.Basic

/-!
# The LRU-K replacer

`LRUKReplacer` (`buffer/lru_k_replacer.cpp`) tracks frames in `entries_` and keeps each tracked
frame in one of two lists, most recent first: `hist_list_` while it has fewer than `k_`
recorded accesses, `cache_list_` after.  A frame enters `hist_list_` on its first access and
stays where it was put until its `k_`-th access moves it to the front of `cache_list_`; every
later access moves it to the front of `cache_list_` again.  `Evict` scans `hist_list_` from
the tail for an evictable frame, then `cache_list_`.

Frame ids are `frame_id_t`, a signed integer, and every call accepts any id up to
`replacer_size_`, negative ones included.  An entry's `pos_` is a list iterator; the model keeps
the list it points into (`ListId`), and erasing through it erases the frame's node of that list.
Erasing through an iterator of the other list is undefined behaviour, which the model reports
as `ReplacerError.undefinedBehavior`; the exceptions the calls throw are the other errors, with
the source's messages.
-/

namespace Bustub

/-- The list an entry's `pos_` iterator points into. -/
inductive ListId
  | hist
  | cache
  deriving DecidableEq, Repr

/-- `LRUKReplacer::FrameEntry`. -/
structure FrameEntry where
  /-- `hit_count_`. -/
  hitCount : Nat
  /-- `evictable_`. -/
  evictable : Bool
  /-- `pos_`. -/
  pos : ListId
  deriving DecidableEq, Repr

/-- Modelled from the spec: the header declaring `FrameEntry` is not in src/.  An entry made by
`entries_[frame_id]` has no recorded access and is evictable, as `RecordAccess` assumes when it
counts a frame in `curr_size_` on its first access (§4.2). -/
def FrameEntry.default : FrameEntry := ⟨0, true, .hist⟩

/-- What a replacer call can end in instead of returning. -/
inductive ReplacerError
  /-- `std::invalid_argument`, with its message. -/
  | invalidArgument (what : String)
  /-- `std::logic_error`, with its message. -/
  | logicError (what : String)
  /-- `erase` on one list through an iterator into the other. -/
  | undefinedBehavior
  deriving DecidableEq, Repr

/-- `LRUKReplacer`.  `latch_` is left out: every call holds it for its whole body. -/
structure LRUKReplacer where
  /-- `replacer_size_`. -/
  replacerSize : Nat
  /-- `k_`. -/
  k : Nat
  /-- `hist_list_`, front first. -/
  histList : List Int
  /-- `cache_list_`, front first. -/
  cacheList : List Int
  /-- `entries_`. -/
  entries : Int → Option FrameEntry
  /-- `curr_size_`, a `size_t`.  Every decrement of the source drops an evictable frame that
  `curr_size_` counts while the replacer is consistent, so it never wraps, and the model's
  subtraction, which stops at zero, agrees with it. -/
  currSize : Nat

namespace LRUKReplacer

/-- The constructor `LRUKReplacer(num_frames, k)`. -/
def new (numFrames k : Nat) : LRUKReplacer := ⟨numFrames, k, [], [], fun _ => none, 0⟩

/-- `entries_[frame_id]` read through `operator[]`: the frame's entry, or the default entry for
an untracked frame.  The calls read it only for frames they go on to track, or for frames of
the lists, which are tracked while the replacer is consistent; so the entry `operator[]` would
insert is never left behind, and the model does not insert it. -/
def entry (r : LRUKReplacer) (frameId : Int) : FrameEntry :=
  (r.entries frameId).getD FrameEntry.default

/-- `entries_[frame_id].evictable_`, as `Evict` reads it for a frame of one of the lists. -/
def isEvictable (r : LRUKReplacer) (frameId : Int) : Bool :=
  (r.entry frameId).evictable

/-- `list.erase(entries_[frame_id].pos_)` on list `which`: erase the frame's node, or undefined
behaviour when the iterator points into the other list. -/
def eraseAt (which : ListId) (e : FrameEntry) (frameId : Int) (l : List Int) :
    Except ReplacerError (List Int) :=
  if e.pos = which then .ok (l.erase frameId) else .error .undefinedBehavior

/-- The reverse scan of `Evict` over one list: the evictable frame nearest the tail, and the
list without that node; `none` when no frame of the list is evictable. -/
def evictFrom (evictable : Int → Bool) : List Int → Option (Int × List Int)
  | [] => none
  | f :: rest =>
    match evictFrom evictable rest with
    | some (v, rest') => some (v, f :: rest')
    | none => if evictable f then some (f, rest) else none

/-- `Evict`: `none` when it returns `false`; else the victim and the replacer without it. -/
def evict (r : LRUKReplacer) : Option (Int × LRUKReplacer) :=
  let found : Option (Int × LRUKReplacer) :=
    match evictFrom r.isEvictable r.histList with
    | some (f, hist) => some (f, { r with histList := hist })
    | none => (evictFrom r.isEvictable r.cacheList).map fun (f, cache) => (f, { r with cacheList := cache })
  found.map fun (f, r') =>
    (f, { r' with entries := Function.update r'.entries f none, currSize := r'.currSize - 1 })

/-- `RecordAccess`. -/
def recordAccess (r : LRUKReplacer) (frameId : Int) : Except ReplacerError LRUKReplacer :=
  if frameId > r.replacerSize then .error (.invalidArgument ("Invalild frame_id " ++ toString frameId))
  else
    let e := r.entry frameId
    let count := e.hitCount + 1
    let e := { e with hitCount := count }
    if count = 1 then
      .ok { r with
        currSize := r.currSize + 1
        histList := frameId :: r.histList
        entries := Function.update r.entries frameId (some { e with pos := .hist }) }
    else if count = r.k then
      (eraseAt .hist e frameId r.histList).map fun hist =>
        { r with
          histList := hist
          cacheList := frameId :: r.cacheList
          entries := Function.update r.entries frameId (some { e with pos := .cache }) }
    else if count > r.k then
      (eraseAt .cache e frameId r.cacheList).map fun cache =>
        { r with
          cacheList := frameId :: cache
          entries := Function.update r.entries frameId (some { e with pos := .cache }) }
    else .ok { r with entries := Function.update r.entries frameId (some e) }

/-- `SetEvictable`. -/
def setEvictable (r : LRUKReplacer) (frameId : Int) (setEvictable : Bool) :
    Except ReplacerError LRUKReplacer :=
  if frameId > r.replacerSize then .error (.invalidArgument ("Invalid frame_id " ++ toString frameId))
  else
    match r.entries frameId with
    | none => .ok r
    | some e =>
      .ok { r with
        currSize :=
          if !e.evictable && setEvictable then r.currSize + 1
          else if e.evictable && !setEvictable then r.currSize - 1
          else r.currSize
        entries := Function.update r.entries frameId (some { e with evictable := setEvictable }) }

/-- `Remove`. -/
def remove (r : LRUKReplacer) (frameId : Int) : Except ReplacerError LRUKReplacer :=
  if frameId > r.replacerSize then .error (.invalidArgument ("Invalid frame_id " ++ toString frameId))
  else
    match r.entries frameId with
    | none => .ok r
    | some e =>
      if !e.evictable then
        .error (.logicError ("Can't remove an inevcitable frame " ++ toString frameId))
      else if e.hitCount < r.k then
        (eraseAt .hist e frameId r.histList).map fun hist =>
          { r with
            histList := hist
            currSize := r.currSize - 1
            entries := Function.update r.entries frameId none }
      else
        (eraseAt .cache e frameId r.cacheList).map fun cache =>
          { r with
            cacheList := cache
            currSize := r.currSize - 1
            entries := Function.update r.entries frameId none }

/-- `Size`. -/
def size (r : LRUKReplacer) : Nat := r.currSize

end LRUKReplacer

end Bustub
