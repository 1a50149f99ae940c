import Mathlib
import Bustub.Buffer.BufferPoolManager
import Bustub.Buffer.ReplacerConsistency

/-!
# The frame invariant of the buffer pool

`PoolInvariant` ties the four structures of the pool together: the free list, the page table,
the replacer and the frames.  A frame on the free list holds no page, is unpinned, and neither
the page table nor the replacer knows it; every other frame holds the page the page table maps
to it, is tracked by the replacer, and is evictable exactly when unpinned.

The calls do not keep it when `FetchPgImp` is given a page id that `NewPgImp` has not handed out
yet: the page is read into a frame, and a later `NewPgImp` hands out the same id again, for a
second frame (`fetch_then_new_breaks_invariant`).  With fetches of allocated page ids only, and
`replacer_k ≥ 2`, every call keeps it (`poolInvariant_of_reachable`).

The proof goes frame by frame.  `FrameOk b f` is what the invariant asks of frame `f`;
`AgreeOff b b' f` says that `b'` differs from `b` at most at frame `f`, so that every other
frame stays `FrameOk` (`FrameOk.congr`).  Each call changes one frame, through
`getAvailableFrame`, which detaches a frame, and `recordAndPin`, which pins it in the replacer.
-/

namespace Bustub.BufferPoolManager

variable {D : Type}

/-- A frame that holds a page: a frame of the pool that is not on the free list. -/
def Resident (b : BufferPoolManager D) (f : Int) : Prop :=
  0 ≤ f ∧ f < b.poolSize ∧ f ∉ b.freeList

instance (b : BufferPoolManager D) (f : Int) : Decidable (b.Resident f) :=
  inferInstanceAs (Decidable (_ ∧ _ ∧ _))

/-- The invariant: each frame is free, or holds the page the page table maps to it. -/
structure PoolInvariant (b : BufferPoolManager D) : Prop where
  /-- `free_list_` has no duplicates. -/
  freeList_nodup : b.freeList.Nodup
  /-- A free frame holds no page, is unpinned, and is known to neither the page table nor the
  replacer. -/
  free_frame : ∀ f ∈ b.freeList, (b.pages f).pageId = b.invalidPageId ∧
    (b.pages f).pinCount = 0 ∧ (∀ p, b.pageTable p ≠ some f) ∧ b.replacer.entries f = none
  /-- Every other frame is mapped to by its page, tracked, and evictable iff unpinned. -/
  resident_frame : ∀ f, b.Resident f → b.pageTable (b.pages f).pageId = some f ∧
    b.replacer.entries f ≠ none ∧ (b.replacer.isEvictable f = true ↔ (b.pages f).pinCount = 0)
  /-- The page table holds no other entries. -/
  table_entry : ∀ p f, b.pageTable p = some f → b.Resident f ∧ (b.pages f).pageId = p

/-- What the invariant asks of one frame. -/
structure FrameOk (b : BufferPoolManager D) (f : Int) : Prop where
  /-- A free frame is a frame of the pool. -/
  free_range : f ∈ b.freeList → 0 ≤ f ∧ f < b.poolSize
  /-- A free frame holds no page and is unpinned. -/
  free_page : f ∈ b.freeList → (b.pages f).pageId = b.invalidPageId ∧ (b.pages f).pinCount = 0
  /-- The page table maps exactly the page of a resident frame to it. -/
  table_iff : ∀ p, b.pageTable p = some f ↔ b.Resident f ∧ (b.pages f).pageId = p
  /-- The replacer tracks exactly the resident frames. -/
  tracked_iff : b.replacer.entries f ≠ none ↔ b.Resident f
  /-- A resident frame is evictable iff unpinned. -/
  evictable_iff : b.Resident f → (b.replacer.isEvictable f = true ↔ (b.pages f).pinCount = 0)
  /-- A resident frame holds a page that `NewPgImp` has handed out. -/
  pageId_lt : b.Resident f → (b.pages f).pageId < b.nextPageId

/-- The invariant the proofs carry: every frame is `FrameOk`, and the replacer is consistent,
with `k_ ≥ 2`, over the frames of the pool. -/
structure Inv (b : BufferPoolManager D) : Prop where
  freeList_nodup : b.freeList.Nodup
  frame_ok : ∀ f, b.FrameOk f
  replacer_inv : b.replacer.Inv
  replacer_k : 2 ≤ b.replacer.k
  replacer_size : b.replacer.replacerSize = b.poolSize

theorem Inv.poolInvariant {b : BufferPoolManager D} (h : Inv b) : PoolInvariant b where
  freeList_nodup := h.freeList_nodup
  free_frame f hf := by
    have hok := h.frame_ok f
    refine ⟨(hok.free_page hf).1, (hok.free_page hf).2, fun p hp => ?_, ?_⟩
    · exact ((hok.table_iff p).mp hp).1.2.2 hf
    · by_contra ht; exact ((hok.tracked_iff).mp ht).2.2 hf
  resident_frame f hf := by
    have hok := h.frame_ok f
    exact ⟨(hok.table_iff _).mpr ⟨hf, rfl⟩, hok.tracked_iff.mpr hf, hok.evictable_iff hf⟩
  table_entry p f hp := ((h.frame_ok f).table_iff p).mp hp

/-! ## Frames that a step leaves alone -/

/-- `b'` differs from `b` at most at frame `f`. -/
structure AgreeOff (b b' : BufferPoolManager D) (f : Int) : Prop where
  poolSize_eq : b'.poolSize = b.poolSize
  invalidPageId_eq : b'.invalidPageId = b.invalidPageId
  nextPageId_le : b.nextPageId ≤ b'.nextPageId
  pages_eq : ∀ x, x ≠ f → b'.pages x = b.pages x
  mem_freeList_iff : ∀ x, x ≠ f → (x ∈ b'.freeList ↔ x ∈ b.freeList)
  entries_eq : ∀ x, x ≠ f → b'.replacer.entries x = b.replacer.entries x
  pageTable_iff : ∀ p x, x ≠ f → (b'.pageTable p = some x ↔ b.pageTable p = some x)

theorem AgreeOff.refl (b : BufferPoolManager D) (f : Int) : AgreeOff b b f :=
  ⟨rfl, rfl, le_refl _, fun _ _ => rfl, fun _ _ => Iff.rfl, fun _ _ => rfl, fun _ _ _ => Iff.rfl⟩

theorem AgreeOff.trans {b b₁ b₂ : BufferPoolManager D} {f : Int} (h₁ : AgreeOff b b₁ f)
    (h₂ : AgreeOff b₁ b₂ f) : AgreeOff b b₂ f where
  poolSize_eq := h₂.poolSize_eq.trans h₁.poolSize_eq
  invalidPageId_eq := h₂.invalidPageId_eq.trans h₁.invalidPageId_eq
  nextPageId_le := h₁.nextPageId_le.trans h₂.nextPageId_le
  pages_eq x hx := (h₂.pages_eq x hx).trans (h₁.pages_eq x hx)
  mem_freeList_iff x hx := (h₂.mem_freeList_iff x hx).trans (h₁.mem_freeList_iff x hx)
  entries_eq x hx := (h₂.entries_eq x hx).trans (h₁.entries_eq x hx)
  pageTable_iff p x hx := (h₂.pageTable_iff p x hx).trans (h₁.pageTable_iff p x hx)

/-- `FrameOk` of a frame reads only that frame, its table entries and its replacer entry. -/
theorem FrameOk.congr {b b' : BufferPoolManager D} {f x : Int} (h : b.FrameOk x)
    (ha : AgreeOff b b' f) (hx : x ≠ f) : b'.FrameOk x := by
  have hres : b'.Resident x ↔ b.Resident x := by
    simp only [Resident, ha.poolSize_eq, ha.mem_freeList_iff x hx]
  have hfree := ha.mem_freeList_iff x hx
  have hpage := ha.pages_eq x hx
  refine ⟨fun h' => ?_, fun h' => ?_, fun p => ?_, ?_, fun h' => ?_, fun h' => ?_⟩
  · rw [ha.poolSize_eq]; exact h.free_range (hfree.mp h')
  · rw [hpage, ha.invalidPageId_eq]; exact h.free_page (hfree.mp h')
  · rw [ha.pageTable_iff p x hx, hres, hpage]; exact h.table_iff p
  · rw [ha.entries_eq x hx, hres]; exact h.tracked_iff
  · rw [LRUKReplacer.isEvictable_of_entries_eq (ha.entries_eq x hx), hpage]
    exact h.evictable_iff (hres.mp h')
  · rw [hpage]; exact lt_of_lt_of_le (h.pageId_lt (hres.mp h')) ha.nextPageId_le

/-- A step that changes at most frame `f`, leaves it `FrameOk` and keeps the global parts
keeps the invariant. -/
theorem inv_of_agreeOff {b b' : BufferPoolManager D} {f : Int}
    (hothers : ∀ x, x ≠ f → b.FrameOk x) (ha : AgreeOff b b' f) (hf : b'.FrameOk f)
    (hnodup : b'.freeList.Nodup) (hr : b'.replacer.Inv) (hk : 2 ≤ b'.replacer.k)
    (hsize : b'.replacer.replacerSize = b'.poolSize) : Inv b' where
  freeList_nodup := hnodup
  frame_ok x := by
    by_cases hx : x = f
    · exact hx ▸ hf
    · exact (hothers x hx).congr ha hx
  replacer_inv := hr
  replacer_k := hk
  replacer_size := hsize

/-! ## What each call can do -/

section
variable {b b' b₁ : BufferPoolManager D} {pageId f : Int}

/-- Inversion of `GetAvailableFrame`: the front of the free list, or the replacer's victim with
its dirty payload written under its page id and its page table entry removed. -/
theorem getAvailableFrame_eq (hb : b.getAvailableFrame = some (f, b₁)) :
    (f ∈ b.freeList ∧ b₁ = { b with freeList := b.freeList.erase f }) ∨
    (b.freeList = [] ∧ ∃ r, b.replacer.evict = some (f, r) ∧ b₁ = { b with
      replacer := r
      disk := if (b.pages f).isDirty then Function.update b.disk (b.pages f).pageId (b.pages f).data
        else b.disk
      pageTable := Function.update b.pageTable (b.pages f).pageId none }) := by
  unfold getAvailableFrame at hb
  split at hb
  · rename_i g rest hfl
    simp only [Option.some.injEq, Prod.mk.injEq] at hb
    obtain ⟨hg, rfl⟩ := hb
    subst g
    exact .inl ⟨by simp [hfl], by simp [hfl]⟩
  · rename_i hfl
    obtain ⟨⟨v, r⟩, hev, hb⟩ := Option.map_eq_some'.mp hb
    simp only [Option.some.injEq, Prod.mk.injEq] at hb
    obtain ⟨hv, rfl⟩ := hb
    subst v
    exact .inr ⟨hfl, r, hev, rfl⟩

/-- `recordAndPin` changes only the replacer. -/
theorem recordAndPin_eq (hb : b.recordAndPin f = .ok b') : ∃ r, b' = { b with replacer := r } := by
  obtain ⟨r₁, -, hb⟩ := except_bind_eq_ok.mp hb
  obtain ⟨r₂, -, hb⟩ := except_bind_eq_ok.mp hb
  cases hb
  exact ⟨r₂, rfl⟩

/-- Inversion of `NewPgImp`. -/
theorem newPgImp_eq [Zero D] {res : Option (Int × Int)} (hb : b.newPgImp = .ok (res, b')) :
    (b.getAvailableFrame = none ∧ res = none ∧ b' = b) ∨
    ∃ f b₁, b.getAvailableFrame = some (f, b₁) ∧ res = some (b₁.nextPageId, f) ∧
      ({ b₁ with
        nextPageId := b₁.nextPageId + 1
        pages := Function.update b₁.pages f ⟨b₁.nextPageId, 1, false, 0⟩
        pageTable := Function.update b₁.pageTable b₁.nextPageId (some f) } :
          BufferPoolManager D).recordAndPin f = .ok b' := by
  unfold newPgImp at hb
  split at hb
  · rename_i hget
    cases hb
    exact .inl ⟨hget, rfl, rfl⟩
  · rename_i f b₁ hget
    obtain ⟨b'', hb'', heq⟩ := except_map_eq_ok.mp hb
    simp only [Prod.mk.injEq] at heq
    obtain ⟨rfl, rfl⟩ := heq
    exact .inr ⟨f, b₁, hget, rfl, hb''⟩

/-- Inversion of `FetchPgImp`. -/
theorem fetchPgImp_eq {res : Option Int} (hb : b.fetchPgImp pageId = .ok (res, b')) :
    (∃ f, b.pageTable pageId = some f ∧ res = some f ∧
      ({ b with
        pages := Function.update b.pages f
          { b.pages f with pinCount := (b.pages f).pinCount + 1 } } :
          BufferPoolManager D).recordAndPin f = .ok b') ∨
    (b.pageTable pageId = none ∧ b.getAvailableFrame = none ∧ res = none ∧ b' = b) ∨
    (b.pageTable pageId = none ∧ ∃ f b₁, b.getAvailableFrame = some (f, b₁) ∧ res = some f ∧
      ({ b₁ with
        pages := Function.update b₁.pages f ⟨pageId, 1, false, b₁.disk pageId⟩
        pageTable := Function.update b₁.pageTable pageId (some f) } :
          BufferPoolManager D).recordAndPin f = .ok b') := by
  unfold fetchPgImp at hb
  split at hb
  · rename_i f hf
    obtain ⟨b'', hb'', heq⟩ := except_map_eq_ok.mp hb
    simp only [Prod.mk.injEq] at heq
    obtain ⟨rfl, rfl⟩ := heq
    exact .inl ⟨f, hf, rfl, hb''⟩
  · rename_i hnone
    split at hb
    · rename_i hget
      cases hb
      exact .inr (.inl ⟨hnone, hget, rfl, rfl⟩)
    · rename_i f b₁ hget
      obtain ⟨b'', hb'', heq⟩ := except_map_eq_ok.mp hb
      simp only [Prod.mk.injEq] at heq
      obtain ⟨rfl, rfl⟩ := heq
      exact .inr (.inr ⟨hnone, f, b₁, hget, rfl, hb''⟩)

/-- Inversion of `UnpinPgImp`: when the page is resident, its frame takes the dirty flag and
loses a pin (none when it had none), and the replacer marks it evictable when the last pin
goes. -/
theorem unpinPgImp_eq {isDirty res : Bool} (hb : b.unpinPgImp pageId isDirty = .ok (res, b')) :
    (b.pageTable pageId = none ∧ b' = b) ∨
    ∃ f, b.pageTable pageId = some f ∧ ∃ r, b' = { b with
      pages := Function.update b.pages f { b.pages f with
        isDirty := isDirty || (b.pages f).isDirty
        pinCount := (b.pages f).pinCount - 1 }
      replacer := r } ∧
      ((b.pages f).pinCount = 1 ∧ b.replacer.setEvictable f true = .ok r ∨
        (b.pages f).pinCount ≠ 1 ∧ r = b.replacer) := by
  unfold unpinPgImp at hb
  split at hb
  · rename_i hp
    cases hb
    exact .inl ⟨hp, rfl⟩
  · rename_i f hp
    refine .inr ⟨f, hp, ?_⟩
    generalize hpg : (if isDirty = true then { b.pages f with isDirty := true } else b.pages f) = pg
      at hb
    have hpin : pg.pinCount = (b.pages f).pinCount := by rw [← hpg]; split <;> rfl
    have hpg' : { pg with pinCount := pg.pinCount - 1 } = { b.pages f with
        isDirty := isDirty || (b.pages f).isDirty
        pinCount := (b.pages f).pinCount - 1 } := by
      subst hpg; cases isDirty <;> rfl
    simp only [Function.update_idem] at hb
    split_ifs at hb with h0 h1
    · obtain ⟨r, hr, heq⟩ := except_map_eq_ok.mp hb
      simp only [Prod.mk.injEq] at heq
      obtain ⟨-, rfl⟩ := heq
      exact ⟨r, by rw [← hpg'], .inl ⟨by omega, hr⟩⟩
    · cases hb
      exact ⟨b.replacer, by rw [← hpg'], .inr ⟨by omega, rfl⟩⟩
    · cases hb
      refine ⟨b.replacer, ?_, .inr ⟨by omega, rfl⟩⟩
      rw [← hpg']
      rcases pg with ⟨_, _, _, _⟩
      simp_all

/-- Inversion of `DeletePgImp`: nothing changes, or an unpinned resident page leaves its frame,
which goes back to the free list. -/
theorem deletePgImp_eq [Zero D] {res : Bool} (hb : b.deletePgImp pageId = .ok (res, b')) :
    (b' = b ∧ (res = true → b.pageTable pageId = none)) ∨
    (res = true ∧ ∃ f, b.pageTable pageId = some f ∧ (b.pages f).pinCount = 0 ∧
      ∃ r, b.replacer.remove f = .ok r ∧ b' = { b with
        pageTable := Function.update b.pageTable pageId none
        replacer := r
        freeList := b.freeList ++ [f]
        pages := Function.update b.pages f ⟨b.invalidPageId, 0, false, 0⟩ }) := by
  unfold deletePgImp at hb
  split at hb
  · rename_i hp
    cases hb
    exact .inl ⟨rfl, fun _ => hp⟩
  · rename_i f hf
    split_ifs at hb with hpin
    · cases hb
      exact .inl ⟨rfl, fun h => by cases h⟩
    · obtain ⟨r, hr, heq⟩ := except_map_eq_ok.mp hb
      simp only [Prod.mk.injEq] at heq
      obtain ⟨rfl, rfl⟩ := heq
      exact .inr ⟨rfl, f, hf, by omega, r, hr, rfl⟩

end

/-! ## The constructor -/

section
variable [Zero D]

theorem mem_freeList_new {poolSize replacerK : Nat} {invalidPageId f : Int} :
    f ∈ (new poolSize replacerK invalidPageId : BufferPoolManager D).freeList ↔
      0 ≤ f ∧ f < poolSize := by
  simp only [new, List.mem_map, List.mem_range, Int.ofNat_eq_coe]
  constructor
  · rintro ⟨n, hn, rfl⟩; omega
  · intro hf; exact ⟨f.toNat, by omega, by omega⟩

theorem inv_new (poolSize replacerK : Nat) (invalidPageId : Int) (hk : 2 ≤ replacerK) :
    Inv (new poolSize replacerK invalidPageId : BufferPoolManager D) where
  freeList_nodup := (List.nodup_range poolSize).map fun _ _ => Int.ofNat.inj
  frame_ok f := by
    have hres : ¬ Resident (new poolSize replacerK invalidPageId : BufferPoolManager D) f :=
      fun ⟨h0, hlt, hnot⟩ => hnot (mem_freeList_new.mpr ⟨h0, hlt⟩)
    refine ⟨fun hf => mem_freeList_new.mp hf, fun _ => ⟨rfl, rfl⟩, fun p => ?_, ?_,
      fun h => absurd h hres, fun h => absurd h hres⟩
    · simp only [new, reduceCtorEq, false_iff]; exact fun h => hres h.1
    · simp only [new, LRUKReplacer.new, ne_eq, not_true_eq_false, false_iff]; exact hres
  replacer_inv := LRUKReplacer.inv_new poolSize replacerK
  replacer_k := hk
  replacer_size := rfl

end

/-! ## What each part of a call does to the frames -/

variable {b b' b₁ : BufferPoolManager D} {f : Int}

/-- `recordAndPin` changes only the replacer, where it tracks `f` as a non-evictable frame. -/
theorem recordAndPin_spec (hb : b.recordAndPin f = .ok b') (hr : b.replacer.Inv)
    (hk : 2 ≤ b.replacer.k) :
    ∃ r, b' = { b with replacer := r } ∧ r.Inv ∧ r.k = b.replacer.k ∧
      r.replacerSize = b.replacer.replacerSize ∧ r.entries f ≠ none ∧ r.isEvictable f = false ∧
      ∀ x, x ≠ f → r.entries x = b.replacer.entries x := by
  obtain ⟨r₁, h₁, hb⟩ := except_bind_eq_ok.mp hb
  obtain ⟨r₂, h₂, hb⟩ := except_bind_eq_ok.mp hb
  cases hb
  have hs₁ := (LRUKReplacer.Step.recordAccess f h₁).params
  have hs₂ := (LRUKReplacer.Step.setEvictable f false h₂).params
  obtain ⟨⟨_, hf₁⟩, hent₁⟩ := LRUKReplacer.recordAccess_entries h₁
  obtain ⟨-, -, -, hev, hnone, hent₂⟩ := LRUKReplacer.setEvictable_effect h₂
  refine ⟨r₂, rfl, (hr.recordAccess hk h₁).setEvictable h₂, hs₂.1.trans hs₁.1, hs₂.2.trans hs₁.2,
    fun h => ?_, hev (by simp [hf₁]), fun x hx => (hent₂ x hx).trans (hent₁ x hx)⟩
  simp [hnone.mp h, hf₁] at *

/-- What `GetAvailableFrame` leaves: frame `f` of the pool, unpinned, taken off the free list,
the page table and the replacer, and every other frame as it was. -/
structure Detached (b b₁ : BufferPoolManager D) (f : Int) : Prop where
  agree : AgreeOff b b₁ f
  range : 0 ≤ f ∧ f < b.poolSize
  freeList_eq : b₁.freeList = b.freeList.erase f
  pages_eq : b₁.pages = b.pages
  nextPageId_eq : b₁.nextPageId = b.nextPageId
  pinCount_eq : (b.pages f).pinCount = 0
  not_in_table : ∀ p, b₁.pageTable p ≠ some f
  untracked : b₁.replacer.entries f = none
  replacer_inv : b₁.replacer.Inv
  replacer_k : b₁.replacer.k = b.replacer.k
  replacer_size : b₁.replacer.replacerSize = b.replacer.replacerSize

theorem getAvailableFrame_detached (h : Inv b) (hb : b.getAvailableFrame = some (f, b₁)) :
    Detached b b₁ f := by
  have hok := h.frame_ok f
  rcases getAvailableFrame_eq hb with ⟨hmem, rfl⟩ | ⟨hfl, r, hev, rfl⟩
  · -- the front of the free list
    have hnres : ¬ b.Resident f := fun hr => hr.2.2 hmem
    refine ⟨⟨rfl, rfl, le_refl _, fun _ _ => rfl, fun x hx => List.mem_erase_of_ne hx,
      fun _ _ => rfl, fun _ _ _ => Iff.rfl⟩, hok.free_range hmem, rfl, rfl, rfl,
      (hok.free_page hmem).2, fun p hp => hnres ((hok.table_iff p).mp hp).1, ?_, h.replacer_inv,
      rfl, rfl⟩
    by_contra ht
    exact hnres (hok.tracked_iff.mp ht)
  · -- the replacer's victim
    obtain ⟨htr, hpv⟩ := LRUKReplacer.evict_tracked h.replacer_inv.toConsistent hev
    have hres := hok.tracked_iff.mp htr
    obtain ⟨hnone, hent, -, -⟩ := LRUKReplacer.evict_untracks hev
    have hparams := (LRUKReplacer.Step.evict f hev).params
    have hself := (hok.table_iff (b.pages f).pageId).mpr ⟨hres, rfl⟩
    refine ⟨⟨rfl, rfl, le_refl _, fun _ _ => rfl, fun _ _ => Iff.rfl, hent, fun p x hx => ?_⟩,
      ⟨hres.1, hres.2.1⟩, by simp [hfl], rfl, rfl, (hok.evictable_iff hres).mp hpv, fun p => ?_,
      hnone, h.replacer_inv.evict hev, hparams.1, hparams.2⟩
    · by_cases hp : p = (b.pages f).pageId
      · subst hp
        simp only [Function.update_same, reduceCtorEq, false_iff, hself, Option.some.injEq]
        exact fun hfx => hx hfx.symm
      · simp only [Function.update_noteq hp]
    · by_cases hp : p = (b.pages f).pageId
      · subst hp; simp
      · simp only [Function.update_noteq hp]
        exact fun h' => hp ((hok.table_iff p).mp h').2.symm

/-- Putting page `p`, pinned once, into the frame `GetAvailableFrame` detached, and pinning the
frame in the replacer, restores the invariant when no frame holds `p` and `p` is below the
next page id. -/
theorem inv_attach (h : Inv b) (hd : Detached b b₁ f) {p next : Int} {d : D}
    (hp : ∀ x, b.pageTable p ≠ some x) (hnext : b.nextPageId ≤ next) (hplt : p < next)
    (hb : ({ b₁ with
      nextPageId := next
      pages := Function.update b₁.pages f ⟨p, 1, false, d⟩
      pageTable := Function.update b₁.pageTable p (some f) } : BufferPoolManager D).recordAndPin f
        = .ok b') : Inv b' := by
  obtain ⟨r, rfl, hr, hk, hsize, htr, hev, hent⟩ :=
    recordAndPin_spec hb hd.replacer_inv (hd.replacer_k ▸ h.replacer_k)
  have hp₁ : b₁.pageTable p = none := by
    cases hq : b₁.pageTable p with
    | none => rfl
    | some x =>
      by_cases hx : x = f
      · exact absurd (hx ▸ hq) (hd.not_in_table p)
      · exact absurd ((hd.agree.pageTable_iff p x hx).mp hq) (hp x)
  have hnf : f ∉ b.freeList.erase f := h.freeList_nodup.not_mem_erase
  have hres : 0 ≤ f ∧ f < b.poolSize ∧ f ∉ b₁.freeList := ⟨hd.range.1, hd.range.2, hd.freeList_eq ▸ hnf⟩
  refine inv_of_agreeOff (fun x _ => h.frame_ok x)
    (hd.agree.trans ⟨rfl, rfl, hd.nextPageId_eq ▸ hnext, fun x hx => Function.update_noteq hx _ _,
      fun _ _ => Iff.rfl, hent, fun q x hx => ?_⟩)
    ⟨fun hf => absurd (hd.freeList_eq ▸ hf) hnf, fun hf => absurd (hd.freeList_eq ▸ hf) hnf,
      fun q => ?_, ⟨fun _ => by simpa [Resident, hd.agree.poolSize_eq] using hres, fun _ => htr⟩,
      fun _ => by simp [hev], fun _ => by simpa using hplt⟩
    (hd.freeList_eq ▸ h.freeList_nodup.erase f) hr (hk ▸ hd.replacer_k ▸ h.replacer_k)
    (hsize.trans (hd.replacer_size.trans (h.replacer_size.trans hd.agree.poolSize_eq.symm)))
  · by_cases hq : q = p
    · subst hq; simp [hp₁, Ne.symm hx]
    · simp [Function.update_noteq hq]
  · by_cases hq : q = p
    · subst hq; simpa [Resident, hd.agree.poolSize_eq] using hres
    · simp only [Function.update_noteq hq, Function.update_same]
      exact ⟨fun h' => absurd h' (hd.not_in_table q), fun h' => absurd h'.2.symm hq⟩

/-- Changing only dirty flags, payloads and the disk keeps the invariant. -/
theorem Inv.of_headers (h : Inv b) (hsize : b'.poolSize = b.poolSize)
    (hinv : b'.invalidPageId = b.invalidPageId) (hnext : b'.nextPageId = b.nextPageId)
    (hfree : b'.freeList = b.freeList) (htable : b'.pageTable = b.pageTable)
    (hrep : b'.replacer = b.replacer) (hid : ∀ x, (b'.pages x).pageId = (b.pages x).pageId)
    (hpin : ∀ x, (b'.pages x).pinCount = (b.pages x).pinCount) : Inv b' := by
  have hres : ∀ x, b'.Resident x ↔ b.Resident x := fun x => by simp only [Resident, hsize, hfree]
  refine ⟨hfree ▸ h.freeList_nodup, fun x => ?_, hrep ▸ h.replacer_inv, hrep ▸ h.replacer_k,
    by rw [hrep, hsize]; exact h.replacer_size⟩
  have hok := h.frame_ok x
  refine ⟨fun hf => ?_, fun hf => ?_, fun p => ?_, ?_, fun hr => ?_, fun hr => ?_⟩
  · rw [hsize]; exact hok.free_range (hfree ▸ hf)
  · rw [hid, hpin, hinv]; exact hok.free_page (hfree ▸ hf)
  · rw [htable, hres, hid]; exact hok.table_iff p
  · rw [hrep, hres]; exact hok.tracked_iff
  · rw [hrep, hpin]; exact hok.evictable_iff ((hres x).mp hr)
  · rw [hid, hnext]; exact hok.pageId_lt ((hres x).mp hr)

/-- Changing the header of a resident frame `f` but not its page, and its replacer entry,
keeps the invariant when `f` stays tracked with a flag that matches its new pin count. -/
theorem Inv.repin (h : Inv b) (hres : b.Resident f) {pg : Page D} {r : LRUKReplacer}
    (hid : pg.pageId = (b.pages f).pageId) (hr : r.Inv) (hk : r.k = b.replacer.k)
    (hsize : r.replacerSize = b.replacer.replacerSize) (htr : r.entries f ≠ none)
    (hev : r.isEvictable f = true ↔ pg.pinCount = 0)
    (hent : ∀ x, x ≠ f → r.entries x = b.replacer.entries x) :
    Inv { b with pages := Function.update b.pages f pg, replacer := r } := by
  have hok := h.frame_ok f
  refine inv_of_agreeOff (fun x _ => h.frame_ok x)
    ⟨rfl, rfl, le_refl _, fun x hx => Function.update_noteq hx _ _, fun _ _ => Iff.rfl, hent,
      fun _ _ _ => Iff.rfl⟩
    ⟨fun hf => absurd hf hres.2.2, fun hf => absurd hf hres.2.2, fun q => ?_,
      ⟨fun _ => hres, fun _ => htr⟩, fun _ => by simpa using hev, fun _ => ?_⟩
    h.freeList_nodup hr (hk ▸ h.replacer_k) (hsize ▸ h.replacer_size)
  · simpa [hid] using hok.table_iff q
  · simpa [hid] using hok.pageId_lt hres

/-- A page in the page table is below the next page id. -/
theorem Inv.lt_of_pageTable (h : Inv b) {p x : Int} (hp : b.pageTable p = some x) :
    p < b.nextPageId := by
  obtain ⟨hres, rfl⟩ := ((h.frame_ok x).table_iff p).mp hp
  exact (h.frame_ok x).pageId_lt hres

theorem Inv.newPgImp [Zero D] {res : Option (Int × Int)} (h : Inv b)
    (hb : b.newPgImp = .ok (res, b')) : Inv b' := by
  rcases newPgImp_eq hb with ⟨-, -, rfl⟩ | ⟨f, b₁, hget, -, hb⟩
  · exact h
  · have hd := getAvailableFrame_detached h hget
    exact inv_attach h hd (fun x hx => absurd (h.lt_of_pageTable (hd.nextPageId_eq ▸ hx)) (lt_irrefl _))
      (by rw [hd.nextPageId_eq]; omega) (by omega) hb

theorem Inv.fetchPgImp {pageId : Int} {res : Option Int} (h : Inv b) (hp : pageId < b.nextPageId)
    (hb : b.fetchPgImp pageId = .ok (res, b')) : Inv b' := by
  rcases fetchPgImp_eq hb with ⟨f, hf, -, hb⟩ | ⟨-, -, -, rfl⟩ | ⟨hnone, f, b₁, hget, -, hb⟩
  · -- the page is resident: one more pin
    obtain ⟨r, rfl, hr, hk, hsize, htr, hev, hent⟩ := recordAndPin_spec hb h.replacer_inv h.replacer_k
    exact h.repin (((h.frame_ok f).table_iff pageId).mp hf).1 rfl hr hk hsize htr (by simp [hev])
      hent
  · exact h
  · -- the page is read into a detached frame
    have hd := getAvailableFrame_detached h hget
    exact inv_attach h hd (fun x hx => by simp [hnone] at hx) (le_of_eq hd.nextPageId_eq.symm)
      (hd.nextPageId_eq ▸ hp) hb

theorem Inv.unpinPgImp {pageId : Int} {isDirty res : Bool} (h : Inv b)
    (hb : b.unpinPgImp pageId isDirty = .ok (res, b')) : Inv b' := by
  rcases unpinPgImp_eq hb with ⟨-, rfl⟩ | ⟨f, hf, r, rfl, ⟨h1, hr⟩ | ⟨h1, rfl⟩⟩
  · exact h
  · -- the last pin goes: the frame becomes evictable
    have hres := (((h.frame_ok f).table_iff pageId).mp hf).1
    have htr := (h.frame_ok f).tracked_iff.mpr hres
    obtain ⟨-, -, -, hev, hnone, hent⟩ := LRUKReplacer.setEvictable_effect hr
    have hp := (LRUKReplacer.Step.setEvictable f true hr).params
    exact h.repin hres rfl (h.replacer_inv.setEvictable hr) hp.1 hp.2 (fun hn => htr (hnone.mp hn))
      (by simp [hev htr, h1]) hent
  · -- otherwise the replacer is left alone
    have hres := (((h.frame_ok f).table_iff pageId).mp hf).1
    exact h.repin hres rfl h.replacer_inv rfl rfl ((h.frame_ok f).tracked_iff.mpr hres)
      (by rw [(h.frame_ok f).evictable_iff hres]; dsimp only; omega) fun _ _ => rfl

theorem Inv.flushPgImp (h : Inv b) (pageId : Int) : Inv (b.flushPgImp pageId).2 := by
  unfold BufferPoolManager.flushPgImp
  split
  · exact h
  · rename_i f hf
    refine h.of_headers rfl rfl rfl rfl rfl rfl (fun x => ?_) (fun x => ?_) <;>
      by_cases hx : x = f
    all_goals first | (subst hx; simp) | simp [Function.update_noteq hx]

theorem Inv.flushAllPgsImp (h : Inv b) : Inv b.flushAllPgsImp := by
  suffices ∀ (l : List Nat) (b : BufferPoolManager D), Inv b →
      Inv (l.foldl (fun b i => (b.flushPgImp (b.pages i).pageId).2) b) from this _ b h
  intro l
  induction l with
  | nil => exact fun _ h => h
  | cons i l ih => exact fun b h => ih _ (h.flushPgImp _)

theorem Inv.deletePgImp [Zero D] {pageId : Int} {res : Bool} (h : Inv b)
    (hb : b.deletePgImp pageId = .ok (res, b')) : Inv b' := by
  rcases deletePgImp_eq hb with ⟨rfl, -⟩ | ⟨-, f, hf, -, r, hr, rfl⟩
  · exact h
  · have hok := h.frame_ok f
    obtain ⟨hres, hpid⟩ := (hok.table_iff pageId).mp hf
    obtain ⟨hnone, hent, -, -⟩ := LRUKReplacer.remove_untracks hr
    have hp := (LRUKReplacer.Step.remove f hr).params
    have hnres : ∀ {b₂ : BufferPoolManager D}, b₂.freeList = b.freeList ++ [f] → ¬ b₂.Resident f :=
      fun hfl h' => h'.2.2 (by rw [hfl]; simp)
    refine inv_of_agreeOff (fun x _ => h.frame_ok x)
      ⟨rfl, rfl, le_refl _, fun x hx => Function.update_noteq hx _ _, fun x hx => by simp [hx],
        hent, fun q x hx => ?_⟩
      ⟨fun _ => ⟨hres.1, hres.2.1⟩, fun _ => by simp, fun q => ⟨fun h' => ?_,
        fun h' => absurd h'.1 (hnres rfl)⟩, ⟨fun h' => absurd hnone h', fun h' => absurd h' (hnres rfl)⟩,
        fun h' => absurd h' (hnres rfl), fun h' => absurd h' (hnres rfl)⟩
      (List.nodup_append.mpr ⟨h.freeList_nodup, List.nodup_singleton f,
        List.disjoint_singleton.mpr hres.2.2⟩)
      (h.replacer_inv.remove hr) (hp.1 ▸ h.replacer_k) (hp.2 ▸ h.replacer_size)
    · by_cases hq : q = pageId
      · subst hq; simp [hf, Ne.symm hx]
      · simp [Function.update_noteq hq]
    · by_cases hq : q = pageId
      · subst hq; simp at h'
      · simp only [Function.update_noteq hq] at h'
        exact absurd (((hok.table_iff q).mp h').2.symm.trans hpid) hq

/-! ## Every call keeps the invariant -/

/-- One returning call, with `FetchPgImp` given only page ids that `NewPgImp` has handed out. -/
inductive Step [Zero D] : BufferPoolManager D → BufferPoolManager D → Prop
  | newPgImp {b b' : BufferPoolManager D} {res : Option (Int × Int)} :
      b.newPgImp = .ok (res, b') → Step b b'
  | fetchPgImp {b b' : BufferPoolManager D} {res : Option Int} (pageId : Int) :
      pageId < b.nextPageId → b.fetchPgImp pageId = .ok (res, b') → Step b b'
  | unpinPgImp {b b' : BufferPoolManager D} {res : Bool} (pageId : Int) (isDirty : Bool) :
      b.unpinPgImp pageId isDirty = .ok (res, b') → Step b b'
  | flushPgImp {b : BufferPoolManager D} (pageId : Int) : Step b (b.flushPgImp pageId).2
  | flushAllPgsImp {b : BufferPoolManager D} : Step b b.flushAllPgsImp
  | deletePgImp {b b' : BufferPoolManager D} {res : Bool} (pageId : Int) :
      b.deletePgImp pageId = .ok (res, b') → Step b b'

/-- The pools such calls make from the constructor. -/
def Reachable [Zero D] (poolSize replacerK : Nat) (invalidPageId : Int) (b : BufferPoolManager D) :
    Prop :=
  Relation.ReflTransGen Step (new poolSize replacerK invalidPageId) b

theorem Inv.step [Zero D] (h : Inv b) : Step b b' → Inv b'
  | .newPgImp hb => h.newPgImp hb
  | .fetchPgImp _ hp hb => h.fetchPgImp hp hb
  | .unpinPgImp _ _ hb => h.unpinPgImp hb
  | .flushPgImp _ => h.flushPgImp _
  | .flushAllPgsImp => h.flushAllPgsImp
  | .deletePgImp _ hb => h.deletePgImp hb

theorem Inv.of_reachable [Zero D] {poolSize replacerK : Nat} {invalidPageId : Int}
    (hk : 2 ≤ replacerK) (h : Reachable poolSize replacerK invalidPageId b) : Inv b := by
  induction h with
  | refl => exact inv_new poolSize replacerK invalidPageId hk
  | tail _ hs ih => exact ih.step hs

/-- For every pool size and `replacer_k ≥ 2`, every sequence of returning calls in which
`FetchPgImp` is given only page ids below `next_page_id_` keeps the frame invariant. -/
theorem poolInvariant_of_reachable [Zero D] {poolSize replacerK : Nat} {invalidPageId : Int}
    (hk : 2 ≤ replacerK) (h : Reachable poolSize replacerK invalidPageId b) : PoolInvariant b :=
  (Inv.of_reachable hk h).poolInvariant

/-- The invariant after `NewPgImp` and `UnpinPgImp(0, true)` on a pool of two frames. -/
theorem poolInvariant_new_unpin :
    ∃ b : BufferPoolManager Nat, ((new 2 2 (-1) : BufferPoolManager Nat).newPgImp >>=
      fun r => r.2.unpinPgImp 0 true) = .ok (true, b) ∧ 2 ≤ 2 ∧ Reachable 2 2 (-1) b ∧
      PoolInvariant b :=
  have reach : Reachable 2 2 (-1) _ := .tail (.single (.newPgImp rfl)) (.unpinPgImp 0 true rfl)
  ⟨_, rfl, le_refl 2, reach, poolInvariant_of_reachable (le_refl 2) reach⟩

/-- `FetchPgImp(0)` before page 0 is handed out, then `NewPgImp`, which hands out page 0 for a
second frame: frame 0 still holds page 0, but the page table maps page 0 to frame 1. -/
theorem fetch_then_new_breaks_invariant :
    ∃ b : BufferPoolManager Nat, ((new 2 2 (-1) : BufferPoolManager Nat).fetchPgImp 0 >>=
      fun r => r.2.newPgImp) = .ok (some (0, 1), b) ∧ ¬ PoolInvariant b := by
  refine ⟨_, rfl, fun h => ?_⟩
  exact absurd (h.resident_frame 0 (by decide)).1 (by decide)

end Bustub.BufferPoolManager
