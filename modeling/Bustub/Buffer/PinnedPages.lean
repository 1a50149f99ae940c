import Bustub.Buffer.PoolInvariant

/-!
# Pinned pages stay in their frames

A client that holds a pin on a page reads and writes it through the `Page *` that `NewPgImp` or
`FetchPgImp` returned, so while the pin is held the frame must keep the page.  Only two calls
take a page out of a frame.  `GetAvailableFrame` takes the front of the free list or the
replacer's victim, and under the frame invariant both are unpinned (`Detached.pinCount_eq`).
`DeletePgImp` refuses a pinned page.  Every other call changes a frame's header or the disk, never
the page table entry or the payload of another page.

So a call made while frame `f` is pinned leaves the page it holds mapped to `f` with the same
payload (`HoldsAt.step`), and so does every run of such calls from a reachable pool
(`pinned_page_stays`).
-/

namespace Bustub.BufferPoolManager

variable {D : Type} {b b' b₁ : BufferPoolManager D} {p f g : Int} {d : D}

/-- Page `p` is in frame `f` with payload `d`: the page table maps `p` to `f`, whose payload is
`d`. -/
structure HoldsAt (b : BufferPoolManager D) (p f : Int) (d : D) : Prop where
  table : b.pageTable p = some f
  data : (b.pages f).data = d

/-- A call that keeps the page table and every payload keeps every page in its frame. -/
theorem HoldsAt.of_data (h : b.HoldsAt p f d) (htable : b'.pageTable = b.pageTable)
    (hdata : ∀ x, (b'.pages x).data = (b.pages x).data) : b'.HoldsAt p f d :=
  ⟨htable ▸ h.table, (hdata f).trans h.data⟩

/-- Changing the header of one frame leaves every payload as it was. -/
theorem data_update_header {pages : Int → Page D} {pg : Page D} (hpg : pg.data = (pages g).data)
    (x : Int) : (Function.update pages g pg x).data = (pages x).data := by
  by_cases hx : x = g
  · subst hx; simpa using hpg
  · rw [Function.update_noteq hx]

/-- Putting page `q` into the frame `g` that `GetAvailableFrame` detached, and pinning `g` in the
replacer, keeps page `p` in the pinned frame `f`, when `q` is not `p`. -/
theorem HoldsAt.attach (h : b.HoldsAt p f d) (hpin : 0 < (b.pages f).pinCount)
    (hd : Detached b b₁ g) {q next : Int} {d' : D} (hq : q ≠ p)
    (hb : ({ b₁ with
      nextPageId := next
      pages := Function.update b₁.pages g ⟨q, 1, false, d'⟩
      pageTable := Function.update b₁.pageTable q (some g) } : BufferPoolManager D).recordAndPin g
        = .ok b') : b'.HoldsAt p f d := by
  obtain ⟨r, rfl⟩ := recordAndPin_eq hb
  -- the detached frame was unpinned, so it is not `f`
  have hfg : f ≠ g := fun hfg => by rw [hfg, hd.pinCount_eq] at hpin; exact lt_irrefl 0 hpin
  refine ⟨?_, ?_⟩
  · show Function.update b₁.pageTable q (some g) p = some f
    rw [Function.update_noteq hq.symm]
    exact (hd.agree.pageTable_iff p f hfg).mpr h.table
  · show (Function.update b₁.pages g _ f).data = d
    rw [Function.update_noteq hfg, hd.pages_eq]
    exact h.data

theorem HoldsAt.flushPgImp (h : b.HoldsAt p f d) (pageId : Int) :
    (b.flushPgImp pageId).2.HoldsAt p f d := by
  unfold BufferPoolManager.flushPgImp
  split
  · exact h
  · exact h.of_data rfl (data_update_header rfl)

theorem HoldsAt.flushAllPgsImp (h : b.HoldsAt p f d) : b.flushAllPgsImp.HoldsAt p f d := by
  suffices ∀ (l : List Int) (b : BufferPoolManager D), b.HoldsAt p f d →
      (l.foldl (fun b i => (b.flushPgImp (b.pages i).pageId).2) b).HoldsAt p f d from this _ b h
  intro l
  induction l with
  | nil => exact fun _ h => h
  | cons i l ih => exact fun b h => ih _ (h.flushPgImp _)

/-- One call made while frame `f` is pinned leaves page `p` in `f` with its payload. -/
theorem HoldsAt.step [Zero D] (hinv : Inv b) (h : b.HoldsAt p f d)
    (hpin : 0 < (b.pages f).pinCount) : Step b b' → b'.HoldsAt p f d
  | .newPgImp hb => by
    rcases newPgImp_eq hb with ⟨-, -, rfl⟩ | ⟨g, b₁, hget, -, hb⟩
    · exact h
    · -- the new page id is past every page in the table
      have hd := getAvailableFrame_detached hinv hget
      have hlt := hinv.lt_of_pageTable h.table
      exact h.attach hpin hd (by rw [hd.nextPageId_eq]; omega) hb
  | .fetchPgImp pageId _ hb => by
    rcases fetchPgImp_eq hb with ⟨g, -, -, hb⟩ | ⟨-, -, -, rfl⟩ | ⟨hnone, g, b₁, hget, -, hb⟩
    · -- a resident page: one more pin on its frame
      obtain ⟨r, rfl⟩ := recordAndPin_eq hb
      exact h.of_data rfl (data_update_header rfl)
    · exact h
    · -- a page read from disk: it is not `p`, which is in the table
      exact h.attach hpin (getAvailableFrame_detached hinv hget)
        (fun hq => by rw [hq, h.table] at hnone; cases hnone) hb
  | .unpinPgImp _ _ hb => by
    rcases unpinPgImp_eq hb with ⟨-, rfl⟩ | ⟨g, -, r, rfl, -⟩
    · exact h
    · exact h.of_data rfl (data_update_header rfl)
  | .flushPgImp _ => h.flushPgImp _
  | .flushAllPgsImp => h.flushAllPgsImp
  | .deletePgImp pageId hb => by
    rcases deletePgImp_eq hb with ⟨rfl, -⟩ | ⟨-, g, hg, hpin0, r, -, rfl⟩
    · exact h
    · -- `DeletePgImp` frees only an unpinned frame, so neither `f` nor `p`
      have hfg : f ≠ g := fun hfg => by rw [hfg, hpin0] at hpin; exact lt_irrefl 0 hpin
      have hp : p ≠ pageId := fun hp => hfg (Option.some.inj (h.table.symm.trans (hp ▸ hg)))
      exact ⟨by simpa [Function.update_noteq hp] using h.table,
        by simpa [Function.update_noteq hfg] using h.data⟩

/-- A pinned page stays in its frame: over every run of calls from a reachable pool, with
`FetchPgImp` given only page ids `NewPgImp` has handed out, in which each call starts with frame
`f` pinned, a page that the page table maps to `f` is still mapped to `f` at the end, and the
pool has left its payload as it was. -/
theorem pinned_page_stays [Zero D] {poolSize replacerK : Nat} {invalidPageId : Int}
    (hk : 2 ≤ replacerK) (hreach : Reachable poolSize replacerK invalidPageId b)
    (hp : b.pageTable p = some f)
    (hrun : Relation.ReflTransGen (fun b b' => Step b b' ∧ 0 < (b.pages f).pinCount) b b') :
    b'.pageTable p = some f ∧ (b'.pages f).data = (b.pages f).data := by
  obtain ⟨-, h⟩ : Inv b' ∧ b'.HoldsAt p f (b.pages f).data := by
    induction hrun with
    | refl => exact ⟨Inv.of_reachable hk hreach, hp, rfl⟩
    | tail _ hs ih => exact ⟨ih.1.step hs.1, ih.2.step ih.1 hs.2 hs.1⟩
  exact ⟨h.table, h.data⟩

/-- On a pool of two frames holding pages 0 and 1, each pinned once, `UnpinPgImp(1)` and a third
`NewPgImp` evict page 1 and put page 2 into frame 1, while page 0 stays pinned in frame 0. -/
theorem pinned_page_stays_eviction :
    ∃ b b' : BufferPoolManager Nat, 2 ≤ 2 ∧ Reachable 2 2 (-1) b ∧ b.pageTable 0 = some 0 ∧
      Relation.ReflTransGen (fun b b' => Step b b' ∧ 0 < (b.pages 0).pinCount) b b' ∧
      b'.pageTable 2 = some 1 ∧ b'.pageTable 1 = none ∧
      (b'.pageTable 0 = some 0 ∧ (b'.pages 0).data = (b.pages 0).data) :=
  have reach : Reachable 2 2 (-1) _ := .tail (.single (.newPgImp rfl)) (.newPgImp rfl)
  ⟨_, _, le_refl 2, reach, rfl,
    .tail (.single ⟨.unpinPgImp 1 false rfl, by decide⟩) ⟨.newPgImp rfl, by decide⟩, rfl, rfl,
    pinned_page_stays (le_refl 2) reach rfl
      (.tail (.single ⟨.unpinPgImp 1 false rfl, by decide⟩) ⟨.newPgImp rfl, by decide⟩)⟩

end Bustub.BufferPoolManager
