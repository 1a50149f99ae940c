import Bustub.Buffer.PoolInvariant

/-!
# When `NewPgImp` and `FetchPgImp` return `nullptr`

Both calls return `nullptr` when `GetAvailableFrame` finds no frame, and they then change
nothing.  `GetAvailableFrame` finds none exactly when every frame is pinned, on any pool where
every frame of the pool is on the free list, unpinned, or tracked by the replacer and evictable
exactly when unpinned, and where a frame the page table maps to is tracked and holds that page
(`PinInv`, `PinInv.getAvailableFrame_eq_none_iff`).

`PinInv` asks less than the frame invariant of `PoolInvariant`: it says nothing of the pages
that no frame is mapped from.  So, unlike the frame invariant, every call keeps it whatever page
ids `FetchPgImp` is given (`PinInv.of_reachable`).  A `NewPgImp` that hands out a page id a
stray `FetchPgImp` already read only takes the page table entry away from the stray frame.
-/

namespace Bustub.BufferPoolManager

variable {D : Type}

/-- Every frame of the pool has `pin_count_ > 0`. -/
def AllPinned (b : BufferPoolManager D) : Prop :=
  ∀ f : Nat, f < b.poolSize → 0 < (b.pages f).pinCount

instance (b : BufferPoolManager D) : Decidable b.AllPinned :=
  inferInstanceAs (Decidable (∀ f : Nat, f < b.poolSize → _))

/-- What `PinInv` asks of one frame. -/
structure PinOk (b : BufferPoolManager D) (f : Int) : Prop where
  /-- A free frame is a frame of the pool, unpinned and untracked. -/
  free : f ∈ b.freeList →
    (0 ≤ f ∧ f < b.poolSize) ∧ (b.pages f).pinCount = 0 ∧ b.replacer.entries f = none
  /-- A tracked frame is a frame of the pool, evictable iff unpinned. -/
  tracked : b.replacer.entries f ≠ none →
    (0 ≤ f ∧ f < b.poolSize) ∧ (b.replacer.isEvictable f = true ↔ (b.pages f).pinCount = 0)
  /-- A frame of the pool is free or tracked. -/
  cover : 0 ≤ f → f < b.poolSize → f ∈ b.freeList ∨ b.replacer.entries f ≠ none
  /-- A frame the page table maps to is tracked and holds the page. -/
  table : ∀ p, b.pageTable p = some f → b.replacer.entries f ≠ none ∧ (b.pages f).pageId = p

/-- Every frame is `PinOk`, and the replacer is consistent, with `k_ ≥ 2`, over the pool. -/
structure PinInv (b : BufferPoolManager D) : Prop where
  freeList_nodup : b.freeList.Nodup
  pin_ok : ∀ f, b.PinOk f
  replacer_inv : b.replacer.Inv
  replacer_k : 2 ≤ b.replacer.k
  replacer_size : b.replacer.replacerSize = b.poolSize

variable {b b' b₁ : BufferPoolManager D} {f x : Int}

/-- `PinOk` of a frame reads only that frame, its replacer entry and the pages mapped to it; the
page table may lose entries. -/
theorem PinOk.congr (h : b.PinOk x) (hsize : b'.poolSize = b.poolSize)
    (hpage : b'.pages x = b.pages x) (hfree : x ∈ b'.freeList ↔ x ∈ b.freeList)
    (hent : b'.replacer.entries x = b.replacer.entries x)
    (htable : ∀ p, b'.pageTable p = some x → b.pageTable p = some x) : b'.PinOk x where
  free hf := by rw [hsize, hpage, hent]; exact h.free (hfree.mp hf)
  tracked ht := by
    rw [hsize, hpage, LRUKReplacer.isEvictable_of_entries_eq hent]
    exact h.tracked (hent ▸ ht)
  cover h0 hlt := by
    rw [hfree, hent]; exact h.cover h0 (hsize ▸ hlt)
  table p hp := by rw [hent, hpage]; exact h.table p (htable p hp)

/-- A step that changes at most frame `f`, leaves it `PinOk` and keeps the global parts keeps
`PinInv`. -/
theorem PinInv.of_frame (h : PinInv b) (hsize : b'.poolSize = b.poolSize)
    (hpage : ∀ x, x ≠ f → b'.pages x = b.pages x)
    (hfree : ∀ x, x ≠ f → (x ∈ b'.freeList ↔ x ∈ b.freeList))
    (hent : ∀ x, x ≠ f → b'.replacer.entries x = b.replacer.entries x)
    (htable : ∀ p x, x ≠ f → b'.pageTable p = some x → b.pageTable p = some x)
    (hf : b'.PinOk f) (hnodup : b'.freeList.Nodup) (hr : b'.replacer.Inv)
    (hk : 2 ≤ b'.replacer.k) (hrsize : b'.replacer.replacerSize = b'.poolSize) : PinInv b' where
  freeList_nodup := hnodup
  pin_ok x := by
    by_cases hx : x = f
    · exact hx ▸ hf
    · exact (h.pin_ok x).congr hsize (hpage x hx) (hfree x hx) (hent x hx)
        fun p => htable p x hx
  replacer_inv := hr
  replacer_k := hk
  replacer_size := hrsize

/-! ## Finding a frame -/

/-- `GetAvailableFrame` finds no frame exactly when every frame is pinned. -/
theorem PinInv.getAvailableFrame_eq_none_iff (h : PinInv b) :
    b.getAvailableFrame = none ↔ b.AllPinned := by
  have hev := LRUKReplacer.evict_eq_none_iff h.replacer_inv.toConsistent
  unfold getAvailableFrame
  constructor
  · intro hnone n hn
    split at hnone
    · cases hnone
    · rename_i hfl
      have hcov := (h.pin_ok n).cover (by omega) (by exact_mod_cast hn)
      rw [hfl] at hcov
      have htr := hcov.resolve_left (List.not_mem_nil _)
      have hpin := ((h.pin_ok n).tracked htr).2
      have hnot := hev.mp (Option.map_eq_none'.mp hnone) n htr
      simp only [hnot, Bool.false_eq_true, false_iff] at hpin
      omega
  · intro hall
    split
    · rename_i g rest hfl
      obtain ⟨⟨h0, hlt⟩, hpin, -⟩ := (h.pin_ok g).free (by simp [hfl])
      have := hall g.toNat (by omega)
      rw [Int.toNat_of_nonneg h0] at this
      omega
    · refine Option.map_eq_none'.mpr (hev.mpr fun g hg => ?_)
      obtain ⟨⟨h0, hlt⟩, hiff⟩ := (h.pin_ok g).tracked hg
      have := hall g.toNat (by omega)
      rw [Int.toNat_of_nonneg h0] at this
      exact Bool.eq_false_iff.mpr fun he => by have := hiff.mp he; omega

/-- What `GetAvailableFrame` leaves on a pool that keeps `PinInv`: frame `f` of the pool,
unpinned, off the free list, untracked and mapped from no page.  The page table only loses
entries: evicting a stray frame removes the entry of its page, whichever frame it names. -/
structure Freed (b b₁ : BufferPoolManager D) (f : Int) : Prop where
  poolSize_eq : b₁.poolSize = b.poolSize
  pages_eq : b₁.pages = b.pages
  nextPageId_eq : b₁.nextPageId = b.nextPageId
  freeList_eq : b₁.freeList = b.freeList.erase f
  range : 0 ≤ f ∧ f < b.poolSize
  pinCount_eq : (b.pages f).pinCount = 0
  table_sub : ∀ p x, b₁.pageTable p = some x → b.pageTable p = some x
  not_in_table : ∀ p, b₁.pageTable p ≠ some f
  untracked : b₁.replacer.entries f = none
  entries_eq : ∀ x, x ≠ f → b₁.replacer.entries x = b.replacer.entries x
  replacer_inv : b₁.replacer.Inv
  replacer_k : b₁.replacer.k = b.replacer.k
  replacer_size : b₁.replacer.replacerSize = b.replacer.replacerSize

theorem PinInv.freed (h : PinInv b) (hb : b.getAvailableFrame = some (f, b₁)) : Freed b b₁ f := by
  have hok := h.pin_ok f
  rcases getAvailableFrame_eq hb with ⟨hmem, rfl⟩ | ⟨hfl, r, hev, rfl⟩
  · -- the front of the free list
    obtain ⟨hrange, hpin, hnone⟩ := hok.free hmem
    exact ⟨rfl, rfl, rfl, rfl, hrange, hpin, fun _ _ => id, fun p hp => (hok.table p hp).1 hnone,
      hnone, fun _ _ => rfl, h.replacer_inv, rfl, rfl⟩
  · -- the replacer's victim
    obtain ⟨htr, hpv⟩ := LRUKReplacer.evict_tracked h.replacer_inv.toConsistent hev
    obtain ⟨hrange, hiff⟩ := hok.tracked htr
    obtain ⟨hnone, hent, -, -⟩ := LRUKReplacer.evict_untracks hev
    have hparams := (LRUKReplacer.Step.evict f hev).params
    refine ⟨rfl, rfl, rfl, by simp [hfl], hrange, hiff.mp hpv, fun p x hp => ?_, fun p hp => ?_,
      hnone, hent, h.replacer_inv.evict hev, hparams.1, hparams.2⟩ <;> dsimp only at hp
    · by_cases hq : p = (b.pages f).pageId
      · subst hq; simp at hp
      · rwa [Function.update_noteq hq] at hp
    · by_cases hq : p = (b.pages f).pageId
      · subst hq; simp at hp
      · rw [Function.update_noteq hq] at hp
        exact hq (hok.table p hp).2.symm

/-- Putting page `p`, pinned once, into the frame `GetAvailableFrame` freed, and pinning the frame
in the replacer, keeps `PinInv`. -/
theorem PinInv.attach (h : PinInv b) (hd : Freed b b₁ f) {p next : Int} {d : D}
    (hb : ({ b₁ with
      nextPageId := next
      pages := Function.update b₁.pages f ⟨p, 1, false, d⟩
      pageTable := Function.update b₁.pageTable p (some f) } : BufferPoolManager D).recordAndPin f
        = .ok b') : PinInv b' := by
  obtain ⟨r, rfl, hr, hk, hsize, htr, hev, hent⟩ :=
    recordAndPin_spec hb hd.replacer_inv (hd.replacer_k ▸ h.replacer_k)
  have hnf : f ∉ b₁.freeList := hd.freeList_eq ▸ h.freeList_nodup.not_mem_erase
  have hto : ∀ q, Function.update b₁.pageTable p (some f) q = some f → q = p := fun q hq => by
    by_contra hqp
    rw [Function.update_noteq hqp] at hq
    exact hd.not_in_table q hq
  refine h.of_frame hd.poolSize_eq (fun x hx => by simp [Function.update_noteq hx, hd.pages_eq])
    (fun x hx => by rw [hd.freeList_eq]; exact List.mem_erase_of_ne hx)
    (fun x hx => (hent x hx).trans (hd.entries_eq x hx)) (fun q x hx hq => ?_)
    ⟨fun hf => absurd hf hnf, fun _ => ⟨hd.poolSize_eq ▸ hd.range, by simp [hev]⟩,
      fun _ _ => .inr htr, fun q hq => ⟨htr, by simp [hto q hq]⟩⟩
    (hd.freeList_eq ▸ h.freeList_nodup.erase f) hr (hk ▸ hd.replacer_k ▸ h.replacer_k)
    (hsize.trans (hd.replacer_size.trans (h.replacer_size.trans hd.poolSize_eq.symm)))
  by_cases hqp : q = p
  · subst hqp; simp only [Function.update_same, Option.some.injEq] at hq; exact absurd hq.symm hx
  · exact hd.table_sub q x (by simpa [Function.update_noteq hqp] using hq)

/-- Changing the header of a tracked frame `f` but not its page, and its replacer entry, keeps
`PinInv` when `f` stays tracked with a flag that matches its new pin count. -/
theorem PinInv.repin (h : PinInv b) (htr : b.replacer.entries f ≠ none) {pg : Page D}
    {r : LRUKReplacer} (hid : pg.pageId = (b.pages f).pageId) (hr : r.Inv)
    (hk : r.k = b.replacer.k) (hsize : r.replacerSize = b.replacer.replacerSize)
    (htr' : r.entries f ≠ none) (hev : r.isEvictable f = true ↔ pg.pinCount = 0)
    (hent : ∀ x, x ≠ f → r.entries x = b.replacer.entries x) :
    PinInv { b with pages := Function.update b.pages f pg, replacer := r } := by
  have hok := h.pin_ok f
  refine h.of_frame rfl (fun x hx => Function.update_noteq hx _ _) (fun _ _ => Iff.rfl) hent
    (fun _ _ _ => id) ⟨fun hf => absurd (hok.free hf).2.2 htr,
      fun _ => ⟨(hok.tracked htr).1, by simpa using hev⟩, fun _ _ => .inr htr',
      fun q hq => ⟨htr', by simpa [hid] using (hok.table q hq).2⟩⟩
    h.freeList_nodup hr (hk ▸ h.replacer_k) (hsize ▸ h.replacer_size)

/-- Changing only dirty flags, payloads and the disk keeps `PinInv`. -/
theorem PinInv.of_headers (h : PinInv b) (hsize : b'.poolSize = b.poolSize)
    (hfree : b'.freeList = b.freeList) (htable : b'.pageTable = b.pageTable)
    (hrep : b'.replacer = b.replacer) (hid : ∀ x, (b'.pages x).pageId = (b.pages x).pageId)
    (hpin : ∀ x, (b'.pages x).pinCount = (b.pages x).pinCount) : PinInv b' := by
  refine ⟨hfree ▸ h.freeList_nodup, fun x => ?_, hrep ▸ h.replacer_inv, hrep ▸ h.replacer_k,
    by rw [hrep, hsize]; exact h.replacer_size⟩
  have hok := h.pin_ok x
  refine ⟨fun hf => ?_, fun ht => ?_, fun h0 hlt => ?_, fun p hp => ?_⟩
  · rw [hsize, hpin, hrep]; exact hok.free (hfree ▸ hf)
  · rw [hsize, hpin, hrep]; exact hok.tracked (hrep ▸ ht)
  · rw [hfree, hrep]; exact hok.cover h0 (hsize ▸ hlt)
  · rw [hrep, hid]; exact hok.table p (htable ▸ hp)

/-! ## Every call keeps `PinInv` -/

theorem PinInv.newPgImp [Zero D] {res : Option (Int × Int)} (h : PinInv b)
    (hb : b.newPgImp = .ok (res, b')) : PinInv b' := by
  rcases newPgImp_eq hb with ⟨-, -, rfl⟩ | ⟨f, b₁, hget, -, hb⟩
  · exact h
  · exact h.attach (h.freed hget) hb

theorem PinInv.fetchPgImp {pageId : Int} {res : Option Int} (h : PinInv b)
    (hb : b.fetchPgImp pageId = .ok (res, b')) : PinInv b' := by
  rcases fetchPgImp_eq hb with ⟨f, hf, -, hb⟩ | ⟨-, -, -, rfl⟩ | ⟨-, f, b₁, hget, -, hb⟩
  · -- the page is resident: one more pin
    obtain ⟨r, rfl, hr, hk, hsize, htr, hev, hent⟩ := recordAndPin_spec hb h.replacer_inv h.replacer_k
    exact h.repin ((h.pin_ok f).table _ hf).1 rfl hr hk hsize htr (by simp [hev]) hent
  · exact h
  · exact h.attach (h.freed hget) hb

theorem PinInv.unpinPgImp {pageId : Int} {isDirty res : Bool} (h : PinInv b)
    (hb : b.unpinPgImp pageId isDirty = .ok (res, b')) : PinInv b' := by
  rcases unpinPgImp_eq hb with ⟨-, rfl⟩ | ⟨f, hf, r, rfl, ⟨h1, hr⟩ | ⟨h1, rfl⟩⟩
  · exact h
  · -- the last pin goes: the frame becomes evictable
    have htr := ((h.pin_ok f).table _ hf).1
    obtain ⟨-, -, -, hev, hnone, hent⟩ := LRUKReplacer.setEvictable_effect hr
    have hp := (LRUKReplacer.Step.setEvictable f true hr).params
    exact h.repin htr rfl (h.replacer_inv.setEvictable hr) hp.1 hp.2 (fun hn => htr (hnone.mp hn))
      (by simp [hev htr, h1]) hent
  · -- otherwise the replacer is left alone
    have htr := ((h.pin_ok f).table _ hf).1
    exact h.repin htr rfl h.replacer_inv rfl rfl htr
      (by rw [((h.pin_ok f).tracked htr).2]; dsimp only; omega) fun _ _ => rfl

theorem PinInv.flushPgImp (h : PinInv b) (pageId : Int) : PinInv (b.flushPgImp pageId).2 := by
  unfold BufferPoolManager.flushPgImp
  split
  · exact h
  · rename_i f hf
    refine h.of_headers rfl rfl rfl rfl (fun x => ?_) (fun x => ?_) <;> by_cases hx : x = f
    all_goals first | (subst hx; simp) | simp [Function.update_noteq hx]

theorem PinInv.flushAllPgsImp (h : PinInv b) : PinInv b.flushAllPgsImp := by
  suffices ∀ (l : List Nat) (b : BufferPoolManager D), PinInv b →
      PinInv (l.foldl (fun b i => (b.flushPgImp (b.pages i).pageId).2) b) from this _ b h
  intro l
  induction l with
  | nil => exact fun _ h => h
  | cons i l ih => exact fun b h => ih _ (h.flushPgImp _)

theorem PinInv.deletePgImp [Zero D] {pageId : Int} {res : Bool} (h : PinInv b)
    (hb : b.deletePgImp pageId = .ok (res, b')) : PinInv b' := by
  rcases deletePgImp_eq hb with ⟨rfl, -⟩ | ⟨-, f, hf, hpin, r, hr, rfl⟩
  · exact h
  · have hok := h.pin_ok f
    obtain ⟨htr, hpid⟩ := hok.table pageId hf
    obtain ⟨hnone, hent, -, -⟩ := LRUKReplacer.remove_untracks hr
    have hp := (LRUKReplacer.Step.remove f hr).params
    have hnf : f ∉ b.freeList := fun hm => htr (hok.free hm).2.2
    refine h.of_frame rfl (fun x hx => Function.update_noteq hx _ _) (fun x hx => by simp [hx])
      hent (fun q x _ hq => ?_) ⟨fun _ => ⟨(hok.tracked htr).1, by simp, hnone⟩,
        fun hn => absurd hnone hn, fun _ _ => .inl (by simp), fun q hq => ?_⟩
      (List.nodup_append.mpr ⟨h.freeList_nodup, List.nodup_singleton f,
        List.disjoint_singleton.mpr hnf⟩)
      (h.replacer_inv.remove hr) (hp.1 ▸ h.replacer_k) (hp.2 ▸ h.replacer_size)
    · by_cases hqp : q = pageId
      · subst hqp; simp at hq
      · simpa [Function.update_noteq hqp] using hq
    · by_cases hqp : q = pageId
      · subst hqp; simp at hq
      · simp only [Function.update_noteq hqp] at hq
        exact absurd ((hok.table q hq).2.symm.trans hpid) hqp

/-! ## Every run keeps `PinInv` -/

/-- The frame invariant asks more: every pool that keeps it keeps `PinInv`. -/
theorem Inv.pinInv (h : Inv b) : PinInv b where
  freeList_nodup := h.freeList_nodup
  pin_ok f := by
    have hok := h.frame_ok f
    have huntracked : f ∈ b.freeList → b.replacer.entries f = none := fun hf =>
      not_not.mp fun ht => (hok.tracked_iff.mp ht).2.2 hf
    refine ⟨fun hf => ⟨hok.free_range hf, (hok.free_page hf).2, huntracked hf⟩,
      fun ht => ?_, fun h0 hlt => ?_, fun p hp => ?_⟩
    · have hres := hok.tracked_iff.mp ht
      exact ⟨⟨hres.1, hres.2.1⟩, hok.evictable_iff hres⟩
    · by_cases hf : f ∈ b.freeList
      · exact .inl hf
      · exact .inr (hok.tracked_iff.mpr ⟨h0, hlt, hf⟩)
    · obtain ⟨hres, hid⟩ := (hok.table_iff p).mp hp
      exact ⟨hok.tracked_iff.mpr hres, hid⟩
  replacer_inv := h.replacer_inv
  replacer_k := h.replacer_k
  replacer_size := h.replacer_size

/-- One returning call; `FetchPgImp` may be given any page id. -/
inductive Call [Zero D] : BufferPoolManager D → BufferPoolManager D → Prop
  | newPgImp {b b' : BufferPoolManager D} {res : Option (Int × Int)} :
      b.newPgImp = .ok (res, b') → Call b b'
  | fetchPgImp {b b' : BufferPoolManager D} {res : Option Int} (pageId : Int) :
      b.fetchPgImp pageId = .ok (res, b') → Call b b'
  | unpinPgImp {b b' : BufferPoolManager D} {res : Bool} (pageId : Int) (isDirty : Bool) :
      b.unpinPgImp pageId isDirty = .ok (res, b') → Call b b'
  | flushPgImp {b : BufferPoolManager D} (pageId : Int) : Call b (b.flushPgImp pageId).2
  | flushAllPgsImp {b : BufferPoolManager D} : Call b b.flushAllPgsImp
  | deletePgImp {b b' : BufferPoolManager D} {res : Bool} (pageId : Int) :
      b.deletePgImp pageId = .ok (res, b') → Call b b'

/-- The pools any sequence of returning calls makes from the constructor. -/
def ReachableByCalls [Zero D] (poolSize replacerK : Nat) (invalidPageId : Int)
    (b : BufferPoolManager D) : Prop :=
  Relation.ReflTransGen Call (new poolSize replacerK invalidPageId) b

theorem PinInv.call [Zero D] (h : PinInv b) : Call b b' → PinInv b'
  | .newPgImp hb => h.newPgImp hb
  | .fetchPgImp _ hb => h.fetchPgImp hb
  | .unpinPgImp _ _ hb => h.unpinPgImp hb
  | .flushPgImp _ => h.flushPgImp _
  | .flushAllPgsImp => h.flushAllPgsImp
  | .deletePgImp _ hb => h.deletePgImp hb

theorem PinInv.of_reachable [Zero D] {poolSize replacerK : Nat} {invalidPageId : Int}
    (hk : 2 ≤ replacerK) (h : ReachableByCalls poolSize replacerK invalidPageId b) : PinInv b := by
  induction h with
  | refl => exact (inv_new poolSize replacerK invalidPageId hk).pinInv
  | tail _ hs ih => exact ih.call hs

/-- On every pool that returning calls reach from the constructor, with `replacer_k ≥ 2`,
`NewPgImp` returns `nullptr` iff every frame is pinned, and `FetchPgImp(p)` iff moreover `p` is
not resident; a call that returns `nullptr` leaves the pool as it was. -/
theorem nullptr_iff_all_pinned [Zero D] {poolSize replacerK : Nat} {invalidPageId : Int}
    (hk : 2 ≤ replacerK) (h : ReachableByCalls poolSize replacerK invalidPageId b) :
    (∀ b', b.newPgImp = .ok (none, b') ↔ b.AllPinned ∧ b' = b) ∧
      ∀ p b', b.fetchPgImp p = .ok (none, b') ↔ b.pageTable p = none ∧ b.AllPinned ∧ b' = b := by
  have hiff := (PinInv.of_reachable hk h).getAvailableFrame_eq_none_iff
  refine ⟨fun b' => ⟨fun hb => ?_, ?_⟩, fun p b' => ⟨fun hb => ?_, ?_⟩⟩
  · rcases newPgImp_eq hb with ⟨hget, -, rfl⟩ | ⟨_, _, _, hres, _⟩
    · exact ⟨hiff.mp hget, rfl⟩
    · cases hres
  · rintro ⟨hall, rfl⟩
    simp only [BufferPoolManager.newPgImp, hiff.mpr hall]
  · rcases fetchPgImp_eq hb with ⟨_, _, hres, _⟩ | ⟨hnone, hget, -, rfl⟩ | ⟨_, _, _, _, hres, _⟩
    · cases hres
    · exact ⟨hnone, hiff.mp hget, rfl⟩
    · cases hres
  · rintro ⟨hnone, hall, rfl⟩
    simp only [BufferPoolManager.fetchPgImp, hnone, hiff.mpr hall]

/-- A pool of one frame after `NewPgImp`: its frame is pinned, so `NewPgImp` and `FetchPgImp(5)`
return `nullptr` and change nothing. -/
theorem nullptr_iff_all_pinned_one_frame :
    ∃ b : BufferPoolManager Nat, (new 1 2 (-1) : BufferPoolManager Nat).newPgImp =
      .ok (some (0, 0), b) ∧ 2 ≤ 2 ∧ ReachableByCalls 1 2 (-1) b ∧
      b.newPgImp = .ok (none, b) ∧ b.fetchPgImp 5 = .ok (none, b) :=
  have reach : ReachableByCalls 1 2 (-1) _ := .single (.newPgImp rfl)
  ⟨_, rfl, le_refl 2, reach, ((nullptr_iff_all_pinned (le_refl 2) reach).1 _).mpr ⟨by decide, rfl⟩,
    ((nullptr_iff_all_pinned (le_refl 2) reach).2 5 _).mpr ⟨rfl, by decide, rfl⟩⟩

end Bustub.BufferPoolManager
