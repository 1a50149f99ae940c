import Bustub.Buffer.PoolInvariant

/-!
# The buffer pool as a page store

A client of the pool fetches a page, writes its payload through the frame it gets back while it
holds the pin, and passes `is_dirty = true` to the `UnpinPgImp` that releases that pin.  Seen so,
the pool should behave as a plain store of pages: a fetch shows the data last written to the
page, whatever evictions and flushes came between.

`Session` is a pool together with what its clients did: the abstract store of the data last
written to each page (`store`), the pages a `DeletePgImp` removed, and for each frame whether a
client wrote it since the last dirty unpin of its page (`owed`).  `Session.Step mayFetch` makes a
call of the pool or a client write, under the discipline above, with `FetchPgImp` given the page
ids that `mayFetch` allows.

The store is not refined when `FetchPgImp` is given a page id that `NewPgImp` has not handed
out yet: the stray frame it fills is evicted later and takes the page table entry of the real
page with it, and a fetch then reads the page's old data from disk while its new data sits
unmapped in another frame (`fetch_misses_last_write`).  With fetches of `Allocated` page ids
only, every fetch of a live page shows the data last written to it, a victim frame is unpinned,
and a dirty victim is written back under its page id (`fetch_sees_last_write`).  The proof is
the coupling `Session.Inv`: a live page in a frame holds the stored data there, and the disk
holds it too unless the frame is dirty or owed a dirty unpin; a live page in no frame holds the
stored data on disk.
-/

namespace Bustub.BufferPoolManager

variable {D : Type}

/-- A client writing the payload of frame `frameId` through the `Page *` it was handed. -/
def writeData (b : BufferPoolManager D) (frameId : Int) (d : D) : BufferPoolManager D :=
  { b with pages := Function.update b.pages frameId { b.pages frameId with data := d } }

theorem writeData_pages (b : BufferPoolManager D) (frameId : Int) (d : D) (x : Int) :
    (b.writeData frameId d).pages x =
      if x = frameId then { b.pages x with data := d } else b.pages x := by
  by_cases hx : x = frameId
  · subst hx; simp [writeData]
  · simp [writeData, hx]

variable {b b' b₁ : BufferPoolManager D} {f pageId : Int}

/-- The page table maps at most one page to a frame. -/
theorem Inv.pageTable_inj (h : b.Inv) {p q : Int} (hp : b.pageTable p = some f)
    (hq : b.pageTable q = some f) : p = q :=
  (((h.frame_ok f).table_iff p).mp hp).2.symm.trans (((h.frame_ok f).table_iff q).mp hq).2

/-- The replacer's victim holds a page, which the page table maps to it. -/
theorem Inv.pageTable_victim (h : b.Inv) {r : LRUKReplacer} (hev : b.replacer.evict = some (f, r)) :
    b.pageTable (b.pages f).pageId = some f :=
  ((h.frame_ok f).table_iff _).mpr ⟨(h.frame_ok f).tracked_iff.mp
    (LRUKReplacer.evict_tracked h.replacer_inv.toConsistent hev).1, rfl⟩

/-- `GetAvailableFrame` writes the disk only at the page of its victim, which is in the page
table. -/
theorem getAvailableFrame_disk (hb : b.getAvailableFrame = some (f, b₁)) {p : Int}
    (hp : b.pageTable p = none) (hinv : b.Inv) : b₁.disk p = b.disk p := by
  rcases getAvailableFrame_eq hb with ⟨-, rfl⟩ | ⟨-, r, hev, rfl⟩
  · rfl
  · have hne : p ≠ (b.pages f).pageId := fun h' => by simp [h', hinv.pageTable_victim hev] at hp
    dsimp only
    split <;> simp [Function.update_noteq hne]

/-- The frame `GetAvailableFrame` hands out is unpinned, and when it held a dirty page, that
page's payload is on disk under its page id. -/
theorem getAvailableFrame_writes_back (h : b.Inv) (hb : b.getAvailableFrame = some (f, b₁)) :
    (b.pages f).pinCount = 0 ∧ (b.Resident f → (b.pages f).isDirty = true →
      b₁.disk (b.pages f).pageId = (b.pages f).data) := by
  refine ⟨(getAvailableFrame_detached h hb).pinCount_eq, fun hres hdirty => ?_⟩
  rcases getAvailableFrame_eq hb with ⟨hmem, -⟩ | ⟨-, r, -, rfl⟩
  · exact absurd hmem hres.2.2
  · simp [hdirty]

/-- A returning `FetchPgImp` maps its page to the frame it returns. -/
theorem fetchPgImp_pageTable (hb : b.fetchPgImp pageId = .ok (some f, b')) :
    b'.pageTable pageId = some f := by
  rcases fetchPgImp_eq hb with ⟨g, hg, hfg, hb⟩ | ⟨-, -, hfg, -⟩ | ⟨-, g, b₁, -, hfg, hb⟩
  · obtain ⟨r, rfl⟩ := recordAndPin_eq hb
    cases hfg
    exact hg
  · cases hfg
  · obtain ⟨r, rfl⟩ := recordAndPin_eq hb
    cases hfg
    simp

end Bustub.BufferPoolManager

namespace Bustub

/-- A buffer pool and what its clients did to it. -/
structure Session (D : Type) where
  /-- The pool. -/
  pool : BufferPoolManager D
  /-- The data last written to each page by a client; zeros if none. -/
  store : Int → D
  /-- The pages a `DeletePgImp` call removed from the pool. -/
  deleted : Int → Bool
  /-- The frames written since the last dirty unpin of their page. -/
  owed : Int → Bool

namespace Session

open BufferPoolManager

variable {D : Type}

/-- A new pool, before any call. -/
def new [Zero D] (poolSize replacerK : Nat) (invalidPageId : Int) : Session D :=
  ⟨BufferPoolManager.new poolSize replacerK invalidPageId, fun _ => 0, fun _ => false,
    fun _ => false⟩

/-- The frames owed a dirty unpin after `UnpinPgImp(page_id, is_dirty)`: a dirty unpin settles
the page's frame. -/
def unpinOwed (s : Session D) (pageId : Int) (isDirty : Bool) : Int → Bool :=
  match s.pool.pageTable pageId with
  | some f => if isDirty then Function.update s.owed f false else s.owed
  | none => s.owed

/-- Page ids below `next_page_id_`: all the ids `NewPgImp` has handed out. -/
def Allocated (s : Session D) (pageId : Int) : Prop :=
  pageId < s.pool.nextPageId

/-- One call of the pool, or one client write, under the clients' discipline: a write goes to a
pinned frame that holds a page, a clean unpin never releases the last pin of a frame owed a
dirty unpin, and `FetchPgImp` is given the page ids `mayFetch` allows. -/
inductive Step [Zero D] (mayFetch : Session D → Int → Prop) : Session D → Session D → Prop
  | newPgImp {s : Session D} {b' : BufferPoolManager D} {res : Option (Int × Int)} :
      s.pool.newPgImp = .ok (res, b') → Step mayFetch s { s with pool := b' }
  | fetchPgImp {s : Session D} {b' : BufferPoolManager D} {res : Option Int} (pageId : Int) :
      mayFetch s pageId → s.pool.fetchPgImp pageId = .ok (res, b') →
      Step mayFetch s { s with pool := b' }
  | unpinPgImp {s : Session D} {b' : BufferPoolManager D} {res : Bool} (pageId : Int)
      (isDirty : Bool) :
      (∀ f, s.pool.pageTable pageId = some f → s.owed f = true → isDirty = false →
        2 ≤ (s.pool.pages f).pinCount) →
      s.pool.unpinPgImp pageId isDirty = .ok (res, b') →
      Step mayFetch s { s with pool := b', owed := s.unpinOwed pageId isDirty }
  | flushPgImp {s : Session D} (pageId : Int) :
      Step mayFetch s { s with pool := (s.pool.flushPgImp pageId).2 }
  | flushAllPgsImp {s : Session D} : Step mayFetch s { s with pool := s.pool.flushAllPgsImp }
  | deletePgImp {s : Session D} {b' : BufferPoolManager D} {res : Bool} (pageId : Int) :
      s.pool.deletePgImp pageId = .ok (res, b') →
      Step mayFetch s { s with
        pool := b'
        deleted := if res = true ∧ s.pool.pageTable pageId ≠ none then
          Function.update s.deleted pageId true else s.deleted }
  | write {s : Session D} (frameId : Int) (d : D) :
      s.pool.Resident frameId → 0 < (s.pool.pages frameId).pinCount →
      Step mayFetch s { s with
        pool := s.pool.writeData frameId d
        store := Function.update s.store (s.pool.pages frameId).pageId d
        owed := Function.update s.owed frameId true }

/-- The sessions such steps make from a new pool. -/
def Reachable [Zero D] (mayFetch : Session D → Int → Prop) (poolSize replacerK : Nat)
    (invalidPageId : Int) (s : Session D) : Prop :=
  Relation.ReflTransGen (Step mayFetch) (new poolSize replacerK invalidPageId) s

/-! ## The coupling -/

/-- The coupling at one page: in a frame, the page holds the stored data, and the disk does
too unless the frame is dirty or owed a dirty unpin; in no frame, the disk holds it. -/
def PageOk (s : Session D) (p : Int) : Prop :=
  match s.pool.pageTable p with
  | some f => (s.pool.pages f).data = s.store p ∧
      (s.pool.disk p = s.store p ∨ (s.pool.pages f).isDirty = true ∨ s.owed f = true)
  | none => s.pool.disk p = s.store p

/-- The coupling between a pool and the store its clients see. -/
structure Inv [Zero D] (s : Session D) : Prop where
  /-- The pool keeps its frame invariant. -/
  pool_inv : s.pool.Inv
  /-- A frame owed a dirty unpin is pinned. -/
  owed_pinned : ∀ f, s.owed f = true → 0 < (s.pool.pages f).pinCount
  /-- No client has written a page not handed out yet. -/
  fresh : ∀ p, s.pool.nextPageId ≤ p → s.store p = 0
  /-- Every live page is coupled. -/
  page_ok : ∀ p, s.deleted p = false → s.PageOk p

variable {s s' : Session D} {p : Int}

/-- The coupling at `p` survives a step that keeps `p`'s table entry, disk page and stored data,
and the payload of its frame, and does not lose that frame's dirtiness. -/
theorem PageOk.congr (h : s.PageOk p) (htable : s'.pool.pageTable p = s.pool.pageTable p)
    (hdisk : s'.pool.disk p = s.pool.disk p) (hstore : s'.store p = s.store p)
    (hframe : ∀ f, s.pool.pageTable p = some f → (s'.pool.pages f).data = (s.pool.pages f).data ∧
      ((s.pool.pages f).isDirty = true ∨ s.owed f = true →
        (s'.pool.pages f).isDirty = true ∨ s'.owed f = true)) : s'.PageOk p := by
  unfold PageOk at h ⊢
  rw [htable, hdisk, hstore]
  cases hp : s.pool.pageTable p with
  | none => simpa [hp] using h
  | some f =>
    simp only [hp] at h ⊢
    obtain ⟨hdata, hdirty⟩ := hframe f hp
    exact ⟨hdata.trans h.1, h.2.imp_right fun h' => hdirty h'⟩

/-- A step that keeps the page table, the disk, the store and every payload, and loses no
frame's dirtiness or debt, keeps every page coupled. -/
theorem PageOk.of_frames (h : s.PageOk p) (htable : s'.pool.pageTable = s.pool.pageTable)
    (hdisk : s'.pool.disk = s.pool.disk) (hstore : s'.store = s.store)
    (hdata : ∀ f, (s'.pool.pages f).data = (s.pool.pages f).data)
    (hdirty : ∀ f, (s.pool.pages f).isDirty = true ∨ s.owed f = true →
      (s'.pool.pages f).isDirty = true ∨ s'.owed f = true) : s'.PageOk p :=
  h.congr (congrFun htable p) (congrFun hdisk p) (congrFun hstore p) fun f _ => ⟨hdata f, hdirty f⟩

section
variable [Zero D] {b' b₁ : BufferPoolManager D} {f : Int}

theorem inv_new (poolSize replacerK : Nat) (invalidPageId : Int) (hk : 2 ≤ replacerK) :
    (new poolSize replacerK invalidPageId : Session D).Inv where
  pool_inv := BufferPoolManager.inv_new poolSize replacerK invalidPageId hk
  owed_pinned _ h := by cases h
  fresh _ _ := rfl
  page_ok _ _ := rfl

/-- `GetAvailableFrame` hands out a frame owed nothing, and leaves every live page coupled. -/
theorem Inv.detach (h : s.Inv) (hget : s.pool.getAvailableFrame = some (f, b₁)) :
    s.owed f = false ∧ ∀ p, s.deleted p = false → ({ s with pool := b₁ } : Session D).PageOk p := by
  have hpin := (getAvailableFrame_detached h.pool_inv hget).pinCount_eq
  have howed : s.owed f = false := Bool.eq_false_iff.mpr fun ho => by
    have := h.owed_pinned f ho
    omega
  refine ⟨howed, fun p hp => ?_⟩
  rcases getAvailableFrame_eq hget with ⟨-, rfl⟩ | ⟨-, r, hev, rfl⟩
  · exact h.page_ok p hp
  · by_cases hpq : p = (s.pool.pages f).pageId
    · -- the victim's page: written back when dirty, already on disk otherwise
      subst hpq
      have hok := h.page_ok _ hp
      simp only [PageOk, h.pool_inv.pageTable_victim hev] at hok
      simp only [PageOk, Function.update_same]
      split
      · simp [hok.1]
      · rename_i hclean
        simpa [hclean, howed] using hok.2
    · exact (h.page_ok p hp).congr (Function.update_noteq hpq _ _)
        (by split <;> simp [Function.update_noteq hpq]) rfl fun g _ => ⟨rfl, id⟩

/-- Putting a page into the frame `GetAvailableFrame` handed out, with the page's stored data
when the page is live, keeps the coupling. -/
theorem Inv.attach (h : s.Inv) (hget : s.pool.getAvailableFrame = some (f, b₁)) {p₀ next : Int}
    {d : D} (hp₀ : s.pool.pageTable p₀ = none) (hnext : s.pool.nextPageId ≤ next)
    (hd : s.deleted p₀ = false → d = s.store p₀) (hpool : b'.Inv)
    (hb : ({ b₁ with
      nextPageId := next
      pages := Function.update b₁.pages f ⟨p₀, 1, false, d⟩
      pageTable := Function.update b₁.pageTable p₀ (some f) } : BufferPoolManager D).recordAndPin f
        = .ok b') : Inv { s with pool := b' } := by
  have hdet := getAvailableFrame_detached h.pool_inv hget
  obtain ⟨howed, hok⟩ := h.detach hget
  obtain ⟨r, rfl⟩ := recordAndPin_eq hb
  refine ⟨hpool, fun x hx => ?_, fun p hp => h.fresh p (le_trans hnext hp), fun p hp => ?_⟩
  · by_cases hxf : x = f
    · subst hxf
      simp [howed] at hx
    · simpa [Function.update_noteq hxf, hdet.pages_eq] using h.owed_pinned x hx
  · by_cases hpp : p = p₀
    · -- the page put into the frame
      subst hpp
      have hok₀ := h.page_ok p hp
      simp only [PageOk, hp₀] at hok₀
      simp [PageOk, hd hp, getAvailableFrame_disk hget hp₀ h.pool_inv, hok₀]
    · refine (hok p hp).congr (Function.update_noteq hpp _ _) rfl rfl fun g hg => ?_
      have hgf : g ≠ f := fun hgf => hdet.not_in_table p (hgf ▸ hg)
      simp [Function.update_noteq hgf]

theorem Inv.newPgImp (h : s.Inv) {res : Option (Int × Int)} (hb : s.pool.newPgImp = .ok (res, b')) :
    Inv { s with pool := b' } := by
  rcases newPgImp_eq hb with ⟨-, -, rfl⟩ | ⟨f, b₁, hget, -, hb'⟩
  · exact h
  · have hnext := (getAvailableFrame_detached h.pool_inv hget).nextPageId_eq
    refine h.attach hget ?_ (by omega : s.pool.nextPageId ≤ b₁.nextPageId + 1)
      (fun _ => (h.fresh _ hnext.ge).symm) (h.pool_inv.newPgImp hb) hb'
    cases hx : s.pool.pageTable b₁.nextPageId with
    | none => rfl
    | some x => exact absurd (h.pool_inv.lt_of_pageTable hx) (by omega)

theorem Inv.fetchPgImp (h : s.Inv) {pageId : Int} {res : Option Int}
    (hp : pageId < s.pool.nextPageId) (hb : s.pool.fetchPgImp pageId = .ok (res, b')) :
    Inv { s with pool := b' } := by
  have hpool := h.pool_inv.fetchPgImp hp hb
  rcases fetchPgImp_eq hb with ⟨f, -, -, hb'⟩ | ⟨-, -, -, rfl⟩ | ⟨hnone, f, b₁, hget, -, hb'⟩
  · -- one more pin on a resident page
    obtain ⟨r, rfl⟩ := recordAndPin_eq hb'
    refine ⟨hpool, fun x hx => ?_, h.fresh, fun p hp =>
      (h.page_ok p hp).of_frames rfl rfl rfl (fun x => ?_) (fun x hx => ?_)⟩
    · by_cases hxf : x = f
      · subst hxf; simp
      · simpa [hxf] using h.owed_pinned x hx
    · by_cases hxf : x = f
      · subst hxf; simp
      · simp [hxf]
    · by_cases hxf : x = f
      · subst hxf; simpa using hx
      · simpa [hxf] using hx
  · exact h
  · -- the page is read from disk into a detached frame
    refine h.attach hget hnone (le_of_eq (getAvailableFrame_detached h.pool_inv hget).nextPageId_eq.symm)
      (fun hl => ?_) hpool hb'
    have hok := h.page_ok pageId hl
    simp only [PageOk, hnone] at hok
    rw [getAvailableFrame_disk hget hnone h.pool_inv, hok]

theorem Inv.unpinPgImp (h : s.Inv) {pageId : Int} {isDirty res : Bool}
    (hdisc : ∀ f, s.pool.pageTable pageId = some f → s.owed f = true → isDirty = false →
      2 ≤ (s.pool.pages f).pinCount)
    (hb : s.pool.unpinPgImp pageId isDirty = .ok (res, b')) :
    Inv { s with pool := b', owed := s.unpinOwed pageId isDirty } := by
  have hpool := h.pool_inv.unpinPgImp hb
  rcases unpinPgImp_eq hb with ⟨hnone, rfl⟩ | ⟨f, hf, r, rfl, -⟩
  · have howed : s.unpinOwed pageId isDirty = s.owed := by simp [unpinOwed, hnone]
    rw [howed]
    exact h
  · have howed_f : s.unpinOwed pageId isDirty f = (!isDirty && s.owed f) := by
      cases isDirty <;> simp [unpinOwed, hf]
    have howed_ne : ∀ x, x ≠ f → s.unpinOwed pageId isDirty x = s.owed x := fun x hx => by
      cases isDirty <;> simp [unpinOwed, hf, hx]
    refine ⟨hpool, fun x hx => ?_, h.fresh, fun p hp =>
      (h.page_ok p hp).of_frames rfl rfl rfl (fun x => ?_) (fun x hx => ?_)⟩
    · by_cases hxf : x = f
      · -- a clean unpin leaves a pin on an owed frame
        subst hxf
        simp only [howed_f, Bool.and_eq_true, Bool.not_eq_true'] at hx
        have := hdisc x hf hx.2 hx.1
        simp only [Function.update_same]
        omega
      · simpa [hxf] using h.owed_pinned x ((howed_ne x hxf).symm.trans hx)
    · by_cases hxf : x = f
      · subst hxf; simp
      · simp [hxf]
    · by_cases hxf : x = f
      · subst hxf
        cases isDirty
        · simpa [howed_f] using hx
        · simp
      · simpa [hxf, howed_ne x hxf] using hx

theorem Inv.flushPgImp (h : s.Inv) (pageId : Int) :
    Inv { s with pool := (s.pool.flushPgImp pageId).2 } := by
  have hpool := h.pool_inv.flushPgImp pageId
  revert hpool
  unfold BufferPoolManager.flushPgImp
  split
  · exact fun _ => h
  · rename_i f hf
    intro hpool
    refine ⟨hpool, fun x hx => ?_, h.fresh, fun p hp => ?_⟩
    · by_cases hxf : x = f
      · subst hxf; simpa using h.owed_pinned x hx
      · simpa [hxf] using h.owed_pinned x hx
    · by_cases hpq : p = pageId
      · -- the flushed page is now on disk
        subst hpq
        have hok := h.page_ok p hp
        simp only [PageOk, hf] at hok
        simp [PageOk, hf, hok.1]
      · refine (h.page_ok p hp).congr rfl (Function.update_noteq hpq _ _) rfl fun g hg => ?_
        have hgf : g ≠ f := fun hgf => hpq (h.pool_inv.pageTable_inj hg (hgf ▸ hf))
        simp [hgf]

theorem Inv.flushAllPgsImp (h : s.Inv) : Inv { s with pool := s.pool.flushAllPgsImp } := by
  suffices ∀ (l : List Nat) (s : Session D), s.Inv →
      Inv { s with pool := l.foldl (fun b i => (b.flushPgImp (b.pages i).pageId).2) s.pool } from
    this _ s h
  intro l
  induction l with
  | nil => exact fun _ h => h
  | cons i l ih => exact fun s h => ih _ (h.flushPgImp _)

theorem Inv.deletePgImp (h : s.Inv) {pageId : Int} {res : Bool}
    (hb : s.pool.deletePgImp pageId = .ok (res, b')) :
    Inv { s with
      pool := b'
      deleted := if res = true ∧ s.pool.pageTable pageId ≠ none then
        Function.update s.deleted pageId true else s.deleted } := by
  have hpool := h.pool_inv.deletePgImp hb
  rcases deletePgImp_eq hb with ⟨rfl, hnone⟩ | ⟨rfl, f, hf, hpin, r, -, rfl⟩
  · rw [if_neg fun ⟨hr, hne⟩ => hne (hnone hr)]
    exact h
  · rw [if_pos ⟨rfl, by simp [hf]⟩]
    refine ⟨hpool, fun x hx => ?_, h.fresh, fun p hp => ?_⟩
    · by_cases hxf : x = f
      · subst hxf
        exact absurd (h.owed_pinned x hx) (by omega)
      · simpa [hxf] using h.owed_pinned x hx
    · have hpq : p ≠ pageId := fun hpq => by subst hpq; simp at hp
      refine (h.page_ok p (by simpa [hpq] using hp)).congr (Function.update_noteq hpq _ _) rfl rfl
        fun g hg => ?_
      have hgf : g ≠ f := fun hgf => hpq (h.pool_inv.pageTable_inj hg (hgf ▸ hf))
      simp [hgf]

/-- A client write keeps the coupling: the frame takes the page's new data and is owed a dirty
unpin. -/
theorem Inv.write (h : s.Inv) {frameId : Int} (d : D) (hres : s.pool.Resident frameId)
    (hpin : 0 < (s.pool.pages frameId).pinCount) :
    Inv { s with
      pool := s.pool.writeData frameId d
      store := Function.update s.store (s.pool.pages frameId).pageId d
      owed := Function.update s.owed frameId true } := by
  have hok := h.pool_inv.frame_ok frameId
  have hq := (hok.table_iff _).mpr ⟨hres, rfl⟩
  have hlt := hok.pageId_lt hres
  refine ⟨h.pool_inv.of_headers rfl rfl rfl rfl rfl rfl (fun x => ?_) (fun x => ?_),
    fun x hx => ?_, fun p hp => ?_, fun p hp => ?_⟩
  · rw [writeData_pages]; split <;> rfl
  · rw [writeData_pages]; split <;> rfl
  · rw [writeData_pages]
    by_cases hxf : x = frameId
    · simpa [hxf] using hpin
    · simpa [hxf] using h.owed_pinned x (by simpa [hxf] using hx)
  · have hpq : p ≠ (s.pool.pages frameId).pageId := by
      have : s.pool.nextPageId ≤ p := hp
      omega
    simpa [hpq] using h.fresh p hp
  · by_cases hpq : p = (s.pool.pages frameId).pageId
    · -- the written page
      subst hpq
      simp [PageOk, writeData, hq]
    · refine (h.page_ok p hp).congr rfl rfl (Function.update_noteq hpq _ _) fun g hg => ?_
      have hgf : g ≠ frameId := fun hgf => hpq (h.pool_inv.pageTable_inj hg (hgf ▸ hq))
      simp [writeData_pages, hgf]

theorem Inv.step (h : s.Inv) : Step Allocated s s' → s'.Inv
  | .newPgImp hb => h.newPgImp hb
  | .fetchPgImp _ hp hb => h.fetchPgImp hp hb
  | .unpinPgImp _ _ hdisc hb => h.unpinPgImp hdisc hb
  | .flushPgImp _ => h.flushPgImp _
  | .flushAllPgsImp => h.flushAllPgsImp
  | .deletePgImp _ hb => h.deletePgImp hb
  | .write _ d hres hpin => h.write d hres hpin

theorem Inv.of_reachable {poolSize replacerK : Nat} {invalidPageId : Int} (hk : 2 ≤ replacerK)
    (h : Reachable Allocated poolSize replacerK invalidPageId s) : s.Inv := by
  induction h with
  | refl => exact inv_new poolSize replacerK invalidPageId hk
  | tail _ hs ih => exact ih.step hs

/-! ## Fetches see the last write -/

/-- For every pool size and `replacer_k ≥ 2`, and every run of calls and client writes under the
clients' discipline in which `FetchPgImp` is given only page ids below `next_page_id_`: a
`FetchPgImp` of a live page shows the data last written to it, and `GetAvailableFrame` hands out
only an unpinned frame, having written a dirty page it held to disk under that page's id. -/
theorem fetch_sees_last_write {poolSize replacerK : Nat} {invalidPageId : Int} (hk : 2 ≤ replacerK)
    (h : Reachable Allocated poolSize replacerK invalidPageId s) :
    (∀ p f (b' : BufferPoolManager D), s.deleted p = false → p < s.pool.nextPageId →
      s.pool.fetchPgImp p = .ok (some f, b') → (b'.pages f).data = s.store p) ∧
    (∀ f (b₁ : BufferPoolManager D), s.pool.getAvailableFrame = some (f, b₁) →
      (s.pool.pages f).pinCount = 0 ∧ (s.pool.Resident f → (s.pool.pages f).isDirty = true →
        b₁.disk (s.pool.pages f).pageId = (s.pool.pages f).data)) := by
  have hi := Inv.of_reachable hk h
  refine ⟨fun p f b' hlive hp hb => ?_, fun f b₁ hget =>
    getAvailableFrame_writes_back hi.pool_inv hget⟩
  have hok := (hi.fetchPgImp hp hb).page_ok p hlive
  simp only [PageOk, fetchPgImp_pageTable hb] at hok
  exact hok.1

end

/-- On a pool of one frame, page 0 is written with 7 and unpinned dirty, then evicted by a second
`NewPgImp`: a fetch of page 0 reads 7 back from disk. -/
theorem fetch_sees_last_write_one_frame :
    ∃ (s : Session Nat) (b' : BufferPoolManager Nat), Reachable Allocated 1 2 (-1) s ∧
      s.pool.fetchPgImp 0 = .ok (some 0, b') ∧ (b'.pages 0).data = 7 :=
  have reach : Reachable Allocated 1 2 (-1) _ :=
    .tail (.tail (.tail (.tail (.single (.newPgImp rfl)) (.write 0 7 (by decide) (by decide)))
      (.unpinPgImp 0 true (fun _ _ _ h => nomatch h) rfl)) (.newPgImp rfl))
      (.unpinPgImp 1 true (fun _ _ _ h => nomatch h) rfl)
  ⟨_, _, reach, rfl, (fetch_sees_last_write (le_refl 2) reach).1 0 0 _ rfl (by decide) rfl⟩

/-- On a pool of two frames: `FetchPgImp(0)` before page 0 is handed out, then page 0 from
`NewPgImp` in frame 1, fetched, written with 7 and unpinned by both holders; the next `NewPgImp`
evicts the stray copy in frame 0 and with it the table entry of page 0, so a later fetch of
page 0 reads 0 from disk while 7 sits unmapped in frame 1. -/
theorem fetch_misses_last_write :
    ∃ (s : Session Nat) (b' : BufferPoolManager Nat), Reachable (fun _ _ => True) 2 2 (-1) s ∧
      s.deleted 0 = false ∧ 0 < s.pool.nextPageId ∧ s.pool.fetchPgImp 0 = .ok (some 0, b') ∧
      (b'.pages 0).data ≠ s.store 0 :=
  have reach : Reachable (fun _ _ => True) 2 2 (-1) _ :=
    .tail (.tail (.tail (.tail (.tail (.tail (.tail (.tail
      (.single (.fetchPgImp 0 trivial rfl))
      (.unpinPgImp 0 false (fun _ _ h _ => by simp [Session.new] at h) rfl))
      (.newPgImp rfl))
      (.fetchPgImp 0 trivial rfl))
      (.write 1 7 (by decide) (by decide)))
      (.unpinPgImp 0 true (fun _ _ _ h => nomatch h) rfl))
      (.unpinPgImp 0 false (fun _ hf h _ => by cases hf; exact absurd h (by decide)) rfl))
      (.newPgImp rfl))
      (.unpinPgImp 1 false (fun _ hf h _ => by cases hf; exact absurd h (by decide)) rfl)
  ⟨_, _, reach, rfl, by decide, rfl, by decide⟩

end Session

end Bustub
