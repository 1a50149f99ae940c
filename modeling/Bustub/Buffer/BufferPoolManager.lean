import Bustub.Buffer.LRUKReplacer

/-!
# The buffer pool manager

`BufferPoolManagerInstance` (`buffer/buffer_pool_manager_instance.cpp`) keeps `pool_size_`
frames (`pages_`), a free list of unused frames, a page table from resident page ids to frames,
an LRU-K replacer over the frames and a disk.  Each call holds `latch_` for its whole body, so a
call is one step of the state.

Two parts of the state are taken at the level of what they do.  `page_table_` is an
`ExtendibleHashTable<page_id_t, frame_id_t>`, which behaves as a finite map
(`ExtendibleHashTable.run_refines_map`); the model keeps that map.  The disk manager is not in
src/: it is a map from page ids to page payloads, and a page never written reads as zeros.
A payload is a value of a type `D` whose `0` is the zeroed page of `ResetMemory`.

The replacer is the model of `LRUKReplacer`, and its errors (an exception, or undefined
behaviour) are the errors of the calls that make them.
-/

namespace Bustub

/-- `Page`, the header and payload of a frame. -/
structure Page (D : Type) where
  /-- `page_id_`. -/
  pageId : Int
  /-- `pin_count_`. -/
  pinCount : Nat
  /-- `is_dirty_`. -/
  isDirty : Bool
  /-- `data_`. -/
  data : D

/-- `BufferPoolManagerInstance`.  `latch_`, `log_manager_` and `bucket_size_` are left out. -/
structure BufferPoolManager (D : Type) where
  /-- `pool_size_`. -/
  poolSize : Nat
  /-- The value of `INVALID_PAGE_ID` (`common/config.h` is not in src/). -/
  invalidPageId : Int
  /-- `pages_`, indexed by frame id. -/
  pages : Int → Page D
  /-- `page_table_`, as the finite map it refines. -/
  pageTable : Int → Option Int
  /-- `replacer_`. -/
  replacer : LRUKReplacer
  /-- `free_list_`, front first. -/
  freeList : List Int
  /-- `next_page_id_`. -/
  nextPageId : Int
  /-- The pages on disk. -/
  disk : Int → D

namespace BufferPoolManager

variable {D : Type}

/-- Modelled from the spec: `Page` and `DiskManager` are not in src/.  A new frame holds no page
(`INVALID_PAGE_ID`), is unpinned, clean and zeroed, as `DeletePgImp` leaves a freed frame; a
page never written reads from disk as zeros.  The constructor proper puts every frame on the
free list and makes `LRUKReplacer(pool_size, replacer_k)`. -/
def new [Zero D] (poolSize replacerK : Nat) (invalidPageId : Int) : BufferPoolManager D where
  poolSize := poolSize
  invalidPageId := invalidPageId
  pages _ := ⟨invalidPageId, 0, false, 0⟩
  pageTable _ := none
  replacer := LRUKReplacer.new poolSize replacerK
  freeList := (List.range poolSize).map Int.ofNat
  nextPageId := 0
  disk _ := 0

/-- `GetAvailableFrame`: the front of the free list, or else the replacer's victim, written to
disk under its page id if dirty and removed from the page table; `none` when it returns
`false`. -/
def getAvailableFrame (b : BufferPoolManager D) : Option (Int × BufferPoolManager D) :=
  match b.freeList with
  | f :: rest => some (f, { b with freeList := rest })
  | [] =>
    b.replacer.evict.map fun (f, r) =>
      let pg := b.pages f
      (f, { b with
        replacer := r
        disk := if pg.isDirty then Function.update b.disk pg.pageId pg.data else b.disk
        pageTable := Function.update b.pageTable pg.pageId none })

/-- `AllocatePage`. -/
def allocatePage (b : BufferPoolManager D) : Int × BufferPoolManager D :=
  (b.nextPageId, { b with nextPageId := b.nextPageId + 1 })

/-- The two replacer calls that end `NewPgImp` and `FetchPgImp`:
`RecordAccess(frame_id)` then `SetEvictable(frame_id, false)`. -/
def recordAndPin (b : BufferPoolManager D) (frameId : Int) :
    Except ReplacerError (BufferPoolManager D) := do
  let r ← b.replacer.recordAccess frameId
  let r ← r.setEvictable frameId false
  pure { b with replacer := r }

/-- `NewPgImp`: the new page id and its frame, or `none` for `nullptr`. -/
def newPgImp [Zero D] (b : BufferPoolManager D) :
    Except ReplacerError (Option (Int × Int) × BufferPoolManager D) :=
  match b.getAvailableFrame with
  | none => .ok (none, b)
  | some (f, b) =>
    let (p, b) := b.allocatePage
    let b := { b with
      pages := Function.update b.pages f ⟨p, 1, false, 0⟩
      pageTable := Function.update b.pageTable p (some f) }
    (b.recordAndPin f).map fun b => (some (p, f), b)

/-- `FetchPgImp`: the frame that holds the page, or `none` for `nullptr`. -/
def fetchPgImp (b : BufferPoolManager D) (pageId : Int) :
    Except ReplacerError (Option Int × BufferPoolManager D) :=
  match b.pageTable pageId with
  | some f =>
    let b := { b with
      pages := Function.update b.pages f { b.pages f with pinCount := (b.pages f).pinCount + 1 } }
    (b.recordAndPin f).map fun b => (some f, b)
  | none =>
    match b.getAvailableFrame with
    | none => .ok (none, b)
    | some (f, b) =>
      let b := { b with
        pages := Function.update b.pages f ⟨pageId, 1, false, b.disk pageId⟩
        pageTable := Function.update b.pageTable pageId (some f) }
      (b.recordAndPin f).map fun b => (some f, b)

/-- `UnpinPgImp`.  The dirty flag is set before the pin count is checked. -/
def unpinPgImp (b : BufferPoolManager D) (pageId : Int) (isDirty : Bool) :
    Except ReplacerError (Bool × BufferPoolManager D) :=
  match b.pageTable pageId with
  | none => .ok (false, b)
  | some f =>
    let pg := if isDirty then { b.pages f with isDirty := true } else b.pages f
    let b := { b with pages := Function.update b.pages f pg }
    if pg.pinCount ≠ 0 then
      let b := { b with pages := Function.update b.pages f { pg with pinCount := pg.pinCount - 1 } }
      if pg.pinCount - 1 = 0 then
        (b.replacer.setEvictable f true).map fun r => (true, { b with replacer := r })
      else .ok (true, b)
    else .ok (false, b)

/-- `FlushPgImp`. -/
def flushPgImp (b : BufferPoolManager D) (pageId : Int) : Bool × BufferPoolManager D :=
  match b.pageTable pageId with
  | none => (false, b)
  | some f =>
    (true, { b with
      disk := Function.update b.disk pageId (b.pages f).data
      pages := Function.update b.pages f { b.pages f with isDirty := false } })

/-- `FlushAllPgsImp`: for each frame in turn, flush the page its `page_id_` names. -/
def flushAllPgsImp (b : BufferPoolManager D) : BufferPoolManager D :=
  (List.range b.poolSize).foldl (fun b i => (b.flushPgImp (b.pages i).pageId).2) b

/-- `DeletePgImp`.  `DeallocatePage` is not in src/; the model's disk keeps no allocation
state, so it does nothing here. -/
def deletePgImp [Zero D] (b : BufferPoolManager D) (pageId : Int) :
    Except ReplacerError (Bool × BufferPoolManager D) :=
  match b.pageTable pageId with
  | none => .ok (true, b)
  | some f =>
    if (b.pages f).pinCount > 0 then .ok (false, b)
    else
      (b.replacer.remove f).map fun r =>
        (true, { b with
          pageTable := Function.update b.pageTable pageId none
          replacer := r
          freeList := b.freeList ++ [f]
          pages := Function.update b.pages f ⟨b.invalidPageId, 0, false, 0⟩ })

end BufferPoolManager

end Bustub
