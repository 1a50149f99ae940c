import Bustub.Buffer.LRUKReplacer
import Mathlib.Data.List.Perm.Basic
import Mathlib.Logic.Relation

/-!
# Consistency of the replacer's representation

`Consistent` says the three structures of the replacer agree: a frame is tracked in `entries_`
iff it sits in one of the lists; it sits exactly once, in `hist_list_` with `pos_` there while
it has fewer than `k_` accesses and in `cache_list_` with `pos_` there after; `curr_size_`
counts the evictable tracked frames.

For `k_ = 1` the first branch of `RecordAccess` puts a frame with one access, already `k_`,
into `hist_list_`, and the next access erases that `hist_list_` iterator through `cache_list_`
(`recordAccess_k_one`).  For `k_ ≥ 2` every call keeps the invariant
(`consistent_of_reachable`).  The inversion lemmas `recordAccess_cases`, `setEvictable_cases`,
`remove_cases` and `evict_cases` say once what each call can do; every later proof about the
replacer starts from them.
-/

namespace Bustub.LRUKReplacer

/-- The representation invariant of the replacer. -/
structure Consistent (r : LRUKReplacer) : Prop where
  /-- Tracked frames are exactly the frames of the two lists. -/
  tracked_iff : ∀ f, r.entries f ≠ none ↔ f ∈ r.histList ∨ f ∈ r.cacheList
  /-- A frame occurs at most once in `hist_list_`. -/
  hist_nodup : r.histList.Nodup
  /-- A frame occurs at most once in `cache_list_`. -/
  cache_nodup : r.cacheList.Nodup
  /-- A frame of `hist_list_` has fewer than `k_` accesses and `pos_` in `hist_list_`. -/
  hist_entry : ∀ f ∈ r.histList, ∃ e, r.entries f = some e ∧ e.pos = .hist ∧ e.hitCount < r.k
  /-- A frame of `cache_list_` has at least `k_` accesses and `pos_` in `cache_list_`. -/
  cache_entry : ∀ f ∈ r.cacheList, ∃ e, r.entries f = some e ∧ e.pos = .cache ∧ r.k ≤ e.hitCount
  /-- `curr_size_` counts the evictable tracked frames. -/
  currSize_eq : r.currSize = (r.histList ++ r.cacheList).countP r.isEvictable

/-- Consistency, and every tracked frame has been accessed. -/
structure Inv (r : LRUKReplacer) extends Consistent r : Prop where
  /-- Tracked frames have a positive hit count. -/
  hitCount_pos : ∀ f e, r.entries f = some e → 0 < e.hitCount

/-- One call that returns. -/
inductive Step : LRUKReplacer → LRUKReplacer → Prop
  | recordAccess {r r' : LRUKReplacer} (frameId : Int) : r.recordAccess frameId = .ok r' → Step r r'
  | setEvictable {r r' : LRUKReplacer} (frameId : Int) (b : Bool) :
      r.setEvictable frameId b = .ok r' → Step r r'
  | remove {r r' : LRUKReplacer} (frameId : Int) : r.remove frameId = .ok r' → Step r r'
  | evict {r r' : LRUKReplacer} (frameId : Int) : r.evict = some (frameId, r') → Step r r'

/-- The replacers some sequence of returning calls makes from `LRUKReplacer(num_frames, k)`. -/
def Reachable (numFrames k : Nat) (r : LRUKReplacer) : Prop :=
  Relation.ReflTransGen Step (new numFrames k) r

/-! ## What each call does -/

variable {r r' : LRUKReplacer} {f : Int}

@[simp] theorem entry_of_none (h : r.entries f = none) : r.entry f = FrameEntry.default := by
  simp [entry, h]

@[simp] theorem entry_of_some {e : FrameEntry} (h : r.entries f = some e) : r.entry f = e := by
  simp [entry, h]

theorem isEvictable_of_entries_eq {x : Int} (h : r'.entries x = r.entries x) :
    r'.isEvictable x = r.isEvictable x := by
  simp [isEvictable, entry, h]

theorem eraseAt_map_eq_ok {w : ListId} {e : FrameEntry} {l : List Int} {g : List Int → LRUKReplacer} :
    (eraseAt w e f l).map g = .ok r' ↔ e.pos = w ∧ g (l.erase f) = r' := by
  unfold eraseAt
  split_ifs with hw <;> simp [Except.map, hw]

/-- Inversion of a returning `RecordAccess`: its four branches, with what each checked. -/
theorem recordAccess_cases (hr : r.recordAccess f = .ok r') :
    ¬ f > r.replacerSize ∧
    ((r.entry f).hitCount = 0 ∧
      r' = { r with
        currSize := r.currSize + 1
        histList := f :: r.histList
        entries := Function.update r.entries f (some ⟨1, (r.entry f).evictable, .hist⟩) } ∨
    (r.entry f).hitCount ≠ 0 ∧ (r.entry f).hitCount + 1 = r.k ∧ (r.entry f).pos = .hist ∧
      r' = { r with
        histList := r.histList.erase f
        cacheList := f :: r.cacheList
        entries := Function.update r.entries f (some ⟨r.k, (r.entry f).evictable, .cache⟩) } ∨
    (r.entry f).hitCount ≠ 0 ∧ r.k < (r.entry f).hitCount + 1 ∧ (r.entry f).pos = .cache ∧
      r' = { r with
        cacheList := f :: r.cacheList.erase f
        entries := Function.update r.entries f
          (some ⟨(r.entry f).hitCount + 1, (r.entry f).evictable, .cache⟩) } ∨
    (r.entry f).hitCount ≠ 0 ∧ (r.entry f).hitCount + 1 < r.k ∧
      r' = { r with
        entries := Function.update r.entries f
          (some { r.entry f with hitCount := (r.entry f).hitCount + 1 }) }) := by
  unfold recordAccess at hr
  dsimp only at hr
  split_ifs at hr with hsz h1 h2 h3
  · cases hr
    exact ⟨hsz, .inl ⟨by omega, by rw [h1]⟩⟩
  · obtain ⟨hpos, rfl⟩ := eraseAt_map_eq_ok.mp hr
    exact ⟨hsz, .inr (.inl ⟨by omega, h2, hpos, by rw [← h2]⟩)⟩
  · obtain ⟨hpos, rfl⟩ := eraseAt_map_eq_ok.mp hr
    exact ⟨hsz, .inr (.inr (.inl ⟨by omega, h3, hpos, rfl⟩))⟩
  · cases hr
    exact ⟨hsz, .inr (.inr (.inr ⟨by omega, by omega, rfl⟩))⟩

/-- Inversion of a returning `SetEvictable`. -/
theorem setEvictable_cases {b : Bool} (hr : r.setEvictable f b = .ok r') :
    ¬ f > r.replacerSize ∧
    (r.entries f = none ∧ r' = r ∨
     ∃ e, r.entries f = some e ∧
      r' = { r with
        currSize :=
          if !e.evictable && b then r.currSize + 1
          else if e.evictable && !b then r.currSize - 1
          else r.currSize
        entries := Function.update r.entries f (some { e with evictable := b }) }) := by
  unfold setEvictable at hr
  split_ifs at hr with hsz
  refine ⟨hsz, ?_⟩
  cases he : r.entries f with
  | none => simp only [he, Except.ok.injEq] at hr; exact .inl ⟨rfl, hr.symm⟩
  | some e => simp only [he, Except.ok.injEq] at hr; exact .inr ⟨e, rfl, hr.symm⟩

/-- Inversion of a returning `Remove`. -/
theorem remove_cases (hr : r.remove f = .ok r') :
    ¬ f > r.replacerSize ∧
    (r.entries f = none ∧ r' = r ∨
     ∃ e, r.entries f = some e ∧ e.evictable = true ∧
      (e.hitCount < r.k ∧ e.pos = .hist ∧
        r' = { r with
          histList := r.histList.erase f
          currSize := r.currSize - 1
          entries := Function.update r.entries f none } ∨
       r.k ≤ e.hitCount ∧ e.pos = .cache ∧
        r' = { r with
          cacheList := r.cacheList.erase f
          currSize := r.currSize - 1
          entries := Function.update r.entries f none })) := by
  unfold remove at hr
  split_ifs at hr with hsz
  refine ⟨hsz, ?_⟩
  cases he : r.entries f with
  | none => simp only [he, Except.ok.injEq] at hr; exact .inl ⟨rfl, hr.symm⟩
  | some e =>
    simp only [he] at hr
    split_ifs at hr with hev hk
    · obtain ⟨hpos, rfl⟩ := eraseAt_map_eq_ok.mp hr
      exact .inr ⟨e, rfl, by simpa using hev, .inl ⟨hk, hpos, rfl⟩⟩
    · obtain ⟨hpos, rfl⟩ := eraseAt_map_eq_ok.mp hr
      exact .inr ⟨e, rfl, by simpa using hev, .inr ⟨by omega, hpos, rfl⟩⟩

theorem evictFrom_eq_none_iff {p : Int → Bool} :
    ∀ {l : List Int}, evictFrom p l = none ↔ ∀ x ∈ l, p x = false
  | [] => by simp [evictFrom]
  | f :: rest => by
    simp only [evictFrom, List.forall_mem_cons, ← evictFrom_eq_none_iff]
    cases evictFrom p rest <;> simp

/-- The reverse scan takes the evictable frame nearest the tail: the list is `a ++ v :: b`, the
scan leaves `a ++ b`, and no frame of `b` is evictable. -/
theorem evictFrom_spec {p : Int → Bool} {v : Int} :
    ∀ {l l' : List Int}, evictFrom p l = some (v, l') →
      p v = true ∧ ∃ a b, l = a ++ v :: b ∧ l' = a ++ b ∧ ∀ x ∈ b, p x = false
  | [], _, h => by simp [evictFrom] at h
  | f :: rest, l', h => by
    unfold evictFrom at h
    split at h
    · rename_i v' rest' hrest
      simp only [Option.some.injEq, Prod.mk.injEq] at h
      obtain ⟨rfl, rfl⟩ := h
      obtain ⟨hv, a, b, rfl, rfl, hb⟩ := evictFrom_spec hrest
      exact ⟨hv, f :: a, b, rfl, rfl, hb⟩
    · rename_i hrest
      split_ifs at h with hf
      simp only [Option.some.injEq, Prod.mk.injEq] at h
      obtain ⟨rfl, rfl⟩ := h
      exact ⟨hf, [], rest, rfl, rfl, evictFrom_eq_none_iff.mp hrest⟩

theorem evictFrom_sublist {p : Int → Bool} {v : Int} {l l' : List Int}
    (h : evictFrom p l = some (v, l')) : l'.Sublist l := by
  obtain ⟨-, a, b, rfl, rfl, -⟩ := evictFrom_spec h
  exact (List.sublist_cons_self v b).append_left a

/-- On a duplicate-free list the scan erases the victim's only node. -/
theorem evictFrom_eq_erase {p : Int → Bool} {v : Int} {l l' : List Int} (hnd : l.Nodup)
    (h : evictFrom p l = some (v, l')) : v ∈ l ∧ p v = true ∧ l' = l.erase v := by
  obtain ⟨hv, a, b, rfl, rfl, -⟩ := evictFrom_spec h
  have hva : v ∉ a := fun hva => List.disjoint_of_nodup_append hnd hva (List.mem_cons_self v b)
  exact ⟨by simp, hv, by rw [List.erase_append_right _ hva, List.erase_cons_head]⟩

/-- Inversion of a returning `Evict`: the victim comes from `hist_list_`, or from `cache_list_`
when no frame of `hist_list_` is evictable. -/
theorem evict_cases {v : Int} (hr : r.evict = some (v, r')) :
    (∃ hist, evictFrom r.isEvictable r.histList = some (v, hist) ∧
      r' = { r with
        histList := hist
        entries := Function.update r.entries v none
        currSize := r.currSize - 1 }) ∨
    evictFrom r.isEvictable r.histList = none ∧
    ∃ cache, evictFrom r.isEvictable r.cacheList = some (v, cache) ∧
      r' = { r with
        cacheList := cache
        entries := Function.update r.entries v none
        currSize := r.currSize - 1 } := by
  unfold evict at hr
  split at hr
  · rename_i v' hist hh
    simp only [Option.map_some', Option.some.injEq, Prod.mk.injEq] at hr
    obtain ⟨rfl, rfl⟩ := hr
    exact .inl ⟨hist, hh, rfl⟩
  · rename_i hh
    cases hc : evictFrom r.isEvictable r.cacheList with
    | none => simp [hc] at hr
    | some vc =>
      simp only [hc, Option.map_some', Option.some.injEq, Prod.mk.injEq] at hr
      obtain ⟨rfl, rfl⟩ := hr
      exact .inr ⟨hh, vc.2, rfl, rfl⟩

/-- A returning `RecordAccess` adds one access to `f`'s entry, keeps its flag, and touches no
other entry. -/
theorem recordAccess_entries (hr : r.recordAccess f = .ok r') :
    (∃ pos, r'.entries f = some ⟨(r.entry f).hitCount + 1, (r.entry f).evictable, pos⟩) ∧
    ∀ x, x ≠ f → r'.entries x = r.entries x := by
  rcases (recordAccess_cases hr).2 with ⟨h0, rfl⟩ | ⟨-, hkeq, -, rfl⟩ | ⟨-, -, -, rfl⟩ | ⟨-, -, rfl⟩
  all_goals refine ⟨?_, fun x hx => Function.update_noteq hx _ _⟩
  · exact ⟨.hist, by simp [h0]⟩
  · exact ⟨.cache, by simp [hkeq]⟩
  · exact ⟨.cache, by simp⟩
  · exact ⟨_, Function.update_same _ _ _⟩

/-- `RecordAccess` keeps every frame's flag. -/
theorem recordAccess_isEvictable (hr : r.recordAccess f = .ok r') : r'.isEvictable = r.isEvictable := by
  obtain ⟨⟨pos, hf⟩, hent⟩ := recordAccess_entries hr
  funext x
  by_cases hx : x = f
  · subst hx; simp [isEvictable, entry_of_some hf]
  · exact isEvictable_of_entries_eq (hent x hx)

/-- A returning `SetEvictable` changes no list and no hit count, and sets the flag of a tracked
frame. -/
theorem setEvictable_effect {b : Bool} (hr : r.setEvictable f b = .ok r') :
    r'.histList = r.histList ∧ r'.cacheList = r.cacheList ∧
    (∀ x, (r'.entry x).hitCount = (r.entry x).hitCount) ∧
    (r.entries f ≠ none → r'.isEvictable f = b) ∧
    (r'.entries f = none ↔ r.entries f = none) ∧
    ∀ x, x ≠ f → r'.entries x = r.entries x := by
  rcases (setEvictable_cases hr).2 with ⟨hnone, rfl⟩ | ⟨e, he, rfl⟩
  · exact ⟨rfl, rfl, fun _ => rfl, fun h => absurd hnone h, Iff.rfl, fun _ _ => rfl⟩
  · refine ⟨rfl, rfl, fun x => ?_, fun _ => by simp [isEvictable, entry], by simp [he],
      fun x hx => Function.update_noteq hx _ _⟩
    by_cases hx : x = f
    · subst hx; simp [entry, he]
    · simp [entry, Function.update_noteq hx]

/-- A returning `Remove` leaves `f` untracked, touches no other entry, and only shortens the
lists. -/
theorem remove_untracks (hr : r.remove f = .ok r') :
    r'.entries f = none ∧ (∀ x, x ≠ f → r'.entries x = r.entries x) ∧
    r'.histList.Sublist r.histList ∧ r'.cacheList.Sublist r.cacheList := by
  rcases (remove_cases hr).2 with ⟨hnone, rfl⟩ | ⟨e, -, -, ⟨-, -, rfl⟩ | ⟨-, -, rfl⟩⟩
  · exact ⟨hnone, fun _ _ => rfl, List.Sublist.refl _, List.Sublist.refl _⟩
  all_goals refine ⟨by simp, fun x hx => Function.update_noteq hx _ _, ?_, ?_⟩
  all_goals first | exact List.Sublist.refl _ | exact List.erase_sublist _ _

/-- A returning `Evict` leaves its victim untracked, touches no other entry, and only shortens
the lists. -/
theorem evict_untracks {v : Int} (hr : r.evict = some (v, r')) :
    r'.entries v = none ∧ (∀ x, x ≠ v → r'.entries x = r.entries x) ∧
    r'.histList.Sublist r.histList ∧ r'.cacheList.Sublist r.cacheList := by
  rcases evict_cases hr with ⟨hist, hh, rfl⟩ | ⟨-, cache, hc, rfl⟩
  · exact ⟨by simp, fun x hx => Function.update_noteq hx _ _, evictFrom_sublist hh, List.Sublist.refl _⟩
  · exact ⟨by simp, fun x hx => Function.update_noteq hx _ _, List.Sublist.refl _, evictFrom_sublist hc⟩

/-! ## The invariant is kept for `k_ ≥ 2` -/

namespace Consistent

theorem not_mem_cache (h : Consistent r) (hf : f ∈ r.histList) : f ∉ r.cacheList := fun hc => by
  obtain ⟨e, he, hpos, -⟩ := h.hist_entry f hf
  obtain ⟨e', he', hpos', -⟩ := h.cache_entry f hc
  rw [he, Option.some.injEq] at he'
  subst he'
  rw [hpos] at hpos'
  cases hpos'

theorem nodup (h : Consistent r) : (r.histList ++ r.cacheList).Nodup :=
  List.nodup_append.mpr ⟨h.hist_nodup, h.cache_nodup, fun _ hh hc => h.not_mem_cache hh hc⟩

/-- A tracked frame sits in the list its `pos_` names. -/
theorem mem_iff_pos (h : Consistent r) {e : FrameEntry} (he : r.entries f = some e) :
    (f ∈ r.histList ↔ e.pos = .hist) ∧ (f ∈ r.cacheList ↔ e.pos = .cache) := by
  have hmem := (h.tracked_iff f).mp (by simp [he])
  have hh : f ∈ r.histList → e.pos = .hist := fun hf => by
    obtain ⟨e', he', hp, -⟩ := h.hist_entry f hf
    rwa [he, Option.some.injEq, ← he'] at *
  have hc : f ∈ r.cacheList → e.pos = .cache := fun hf => by
    obtain ⟨e', he', hp, -⟩ := h.cache_entry f hf
    rwa [he, Option.some.injEq, ← he'] at *
  cases hpos : e.pos <;> simp_all

/-- A tracked frame with fewer than `k_` accesses sits in `hist_list_`. -/
theorem mem_hist_of_lt (h : Consistent r) {e : FrameEntry} (he : r.entries f = some e)
    (hlt : e.hitCount < r.k) : f ∈ r.histList :=
  ((h.tracked_iff f).mp (by simp [he])).resolve_right fun hc => by
    obtain ⟨e', he', -, hle⟩ := h.cache_entry f hc
    rw [he, Option.some.injEq] at he'
    subst he'
    omega

end Consistent

theorem countP_eq_erase_add (p : Int → Bool) {l : List Int} (hf : f ∈ l) :
    l.countP p = (l.erase f).countP p + if p f then 1 else 0 := by
  rw [(List.perm_cons_erase hf).countP_eq, List.countP_cons]

/-- Frame lemma: a replacer that agrees with an `Inv` one on `k_` and on every frame but `f`
keeps `Inv` once its lists are duplicate-free, frame `f` is consistent and `curr_size_` counts
the evictable frames. -/
theorem Inv.frame (h : Inv r) (hk : r'.k = r.k)
    (hent : ∀ x, x ≠ f → r'.entries x = r.entries x)
    (hhist : ∀ x, x ≠ f → (x ∈ r'.histList ↔ x ∈ r.histList))
    (hcache : ∀ x, x ≠ f → (x ∈ r'.cacheList ↔ x ∈ r.cacheList))
    (hnd : r'.histList.Nodup ∧ r'.cacheList.Nodup)
    (htf : r'.entries f ≠ none ↔ f ∈ r'.histList ∨ f ∈ r'.cacheList)
    (hhf : f ∈ r'.histList → ∃ e, r'.entries f = some e ∧ e.pos = .hist ∧ e.hitCount < r'.k)
    (hcf : f ∈ r'.cacheList → ∃ e, r'.entries f = some e ∧ e.pos = .cache ∧ r'.k ≤ e.hitCount)
    (hpf : ∀ e, r'.entries f = some e → 0 < e.hitCount)
    (hsize : r'.currSize = (r'.histList ++ r'.cacheList).countP r'.isEvictable) : Inv r' where
  tracked_iff x := by
    by_cases hx : x = f
    · exact hx ▸ htf
    · rw [hent x hx, hhist x hx, hcache x hx]; exact h.tracked_iff x
  hist_nodup := hnd.1
  cache_nodup := hnd.2
  hist_entry x hx' := by
    by_cases hx : x = f
    · exact hx ▸ hhf (hx ▸ hx')
    · rw [hent x hx, hk]; exact h.hist_entry x ((hhist x hx).mp hx')
  cache_entry x hx' := by
    by_cases hx : x = f
    · exact hx ▸ hcf (hx ▸ hx')
    · rw [hent x hx, hk]; exact h.cache_entry x ((hcache x hx).mp hx')
  currSize_eq := hsize
  hitCount_pos x e := by
    by_cases hx : x = f
    · exact hx ▸ hpf e
    · rw [hent x hx]; exact h.hitCount_pos x e

theorem Inv.entries_eq_none (h : Inv r) (h0 : (r.entry f).hitCount = 0) : r.entries f = none := by
  cases he : r.entries f with
  | none => rfl
  | some e => have := h.hitCount_pos f e he; rw [entry_of_some he] at h0; omega

theorem entries_eq_some (h0 : (r.entry f).hitCount ≠ 0) : r.entries f = some (r.entry f) := by
  cases he : r.entries f with
  | none => simp [entry_of_none he, FrameEntry.default] at h0
  | some e => rw [entry_of_some he]

/-- Updating the entry of `f` without touching its flag keeps every frame's flag. -/
theorem isEvictable_of_update {n k c hitCount : Nat} {hist cache : List Int} {pos : ListId} :
    (LRUKReplacer.mk n k hist cache
      (Function.update r.entries f (some ⟨hitCount, (r.entry f).evictable, pos⟩)) c).isEvictable =
      r.isEvictable := by
  funext x
  by_cases hx : x = f
  · subst hx; simp [isEvictable, entry]
  · exact isEvictable_of_entries_eq (Function.update_noteq hx _ _)

theorem countP_erase_congr {l : List Int} (hnd : l.Nodup)
    (hent : ∀ x, x ≠ f → r'.entries x = r.entries x) :
    (l.erase f).countP r'.isEvictable = (l.erase f).countP r.isEvictable :=
  List.countP_congr fun x hx => by
    have hx : x ≠ f := fun hxf => hnd.not_mem_erase (hxf ▸ hx)
    rw [isEvictable_of_entries_eq (hent x hx)]

/-- Putting `f` back between the two halves of `l.erase f` gives a permutation of `l`. -/
theorem perm_of_erase {l l₁ l₂ : List Int} (hf : f ∈ l) (he : l₁ ++ l₂ = l.erase f) :
    List.Perm (l₁ ++ f :: l₂) l :=
  List.perm_middle.trans (he ▸ (List.perm_cons_erase hf).symm)

/-- Dropping a tracked evictable frame from its list and from `entries_`, as `Remove` and
`Evict` do, keeps `Inv`. -/
theorem Inv.untrack (h : Inv r) (hf : r.entries f ≠ none) (hev : r.isEvictable f = true) :
    Inv { r with
      histList := r.histList.erase f
      cacheList := r.cacheList.erase f
      entries := Function.update r.entries f none
      currSize := r.currSize - 1 } := by
  have hmem : f ∈ r.histList ++ r.cacheList := List.mem_append.mpr ((h.tracked_iff f).mp hf)
  have herase : r.histList.erase f ++ r.cacheList.erase f = (r.histList ++ r.cacheList).erase f := by
    rw [h.hist_nodup.erase_eq_filter, h.cache_nodup.erase_eq_filter, h.nodup.erase_eq_filter,
      List.filter_append]
  have hent : ∀ x, x ≠ f → Function.update r.entries f none x = r.entries x :=
    fun x hx => Function.update_noteq hx _ _
  refine h.frame rfl hent (fun x hx => List.mem_erase_of_ne hx) (fun x hx => List.mem_erase_of_ne hx)
    ⟨h.hist_nodup.erase f, h.cache_nodup.erase f⟩ ?_ (fun hx => absurd hx h.hist_nodup.not_mem_erase)
    (fun hx => absurd hx h.cache_nodup.not_mem_erase) (by simp) ?_
  · simp [h.hist_nodup.not_mem_erase, h.cache_nodup.not_mem_erase]
  · show r.currSize - 1 = _
    rw [herase, countP_erase_congr h.nodup hent, h.currSize_eq, countP_eq_erase_add _ hmem, hev]
    rfl

theorem Inv.recordAccess (h : Inv r) (hk : 2 ≤ r.k) (hr : r.recordAccess f = .ok r') : Inv r' := by
  obtain ⟨-, hc⟩ := recordAccess_cases hr
  rcases hc with ⟨h0, rfl⟩ | ⟨h0, hkeq, hpos, rfl⟩ | ⟨h0, hlt, hpos, rfl⟩ | ⟨h0, hlt, rfl⟩
  · -- first access: push front of `hist_list_`
    have hnone := h.entries_eq_none h0
    obtain ⟨hnh, hnc⟩ := not_or.mp ((not_congr (h.tracked_iff f)).mp (by simp [hnone]))
    refine h.frame rfl (fun x hx => Function.update_noteq hx _ _) (fun x hx => by simp [hx])
      (fun _ _ => Iff.rfl) ⟨List.nodup_cons.mpr ⟨hnh, h.hist_nodup⟩, h.cache_nodup⟩ (by simp)
      (fun _ => ⟨_, Function.update_same _ _ _, rfl, by show 1 < r.k; omega⟩)
      (fun hc => absurd hc hnc) (by simp) ?_
    rw [isEvictable_of_update, List.cons_append, List.countP_cons, ← h.currSize_eq]
    simp [isEvictable, entry_of_none hnone, FrameEntry.default]
  · -- `k_`-th access: from `hist_list_` to the front of `cache_list_`
    have hfh := ((h.mem_iff_pos (entries_eq_some h0)).1).mpr hpos
    refine h.frame rfl (fun x hx => Function.update_noteq hx _ _)
      (fun x hx => List.mem_erase_of_ne hx) (fun x hx => by simp [hx])
      ⟨h.hist_nodup.erase f, List.nodup_cons.mpr ⟨h.not_mem_cache hfh, h.cache_nodup⟩⟩ (by simp)
      (fun hx => absurd hx h.hist_nodup.not_mem_erase)
      (fun _ => ⟨_, Function.update_same _ _ _, rfl, le_refl _⟩) (by simp; omega) ?_
    rw [isEvictable_of_update, h.currSize_eq]
    exact ((perm_of_erase (List.mem_append_left _ hfh)
      (List.erase_append_left _ hfh).symm).countP_eq _).symm
  · -- later access: to the front of `cache_list_`
    have hfc := ((h.mem_iff_pos (entries_eq_some h0)).2).mpr hpos
    have hnh : f ∉ r.histList := fun hh => h.not_mem_cache hh hfc
    refine h.frame rfl (fun x hx => Function.update_noteq hx _ _) (fun _ _ => Iff.rfl)
      (fun x hx => by simp [hx, List.mem_erase_of_ne hx])
      ⟨h.hist_nodup, List.nodup_cons.mpr ⟨h.cache_nodup.not_mem_erase, h.cache_nodup.erase f⟩⟩
      (by simp) (fun hh => absurd hh hnh)
      (fun _ => ⟨_, Function.update_same _ _ _, rfl, by show r.k ≤ (r.entry f).hitCount + 1; omega⟩) (by simp) ?_
    rw [isEvictable_of_update, h.currSize_eq]
    exact ((perm_of_erase (List.mem_append_right _ hfc)
      (List.erase_append_right _ hnh).symm).countP_eq _).symm
  · -- an access below `k_`: only the count changes
    have hsome := entries_eq_some h0
    have hfh := h.mem_hist_of_lt hsome (by omega)
    have hnc := h.not_mem_cache hfh
    refine h.frame rfl (fun x hx => Function.update_noteq hx _ _) (fun _ _ => Iff.rfl)
      (fun _ _ => Iff.rfl) ⟨h.hist_nodup, h.cache_nodup⟩ (by simp [hfh])
      (fun _ => ⟨_, Function.update_same _ _ _, ((h.mem_iff_pos hsome).1).mp hfh, hlt⟩)
      (fun hc => absurd hc hnc) (by simp) ?_
    rw [isEvictable_of_update, h.currSize_eq]

theorem Inv.setEvictable {b : Bool} (h : Inv r) (hr : r.setEvictable f b = .ok r') : Inv r' := by
  obtain ⟨-, ⟨-, rfl⟩ | ⟨e, he, rfl⟩⟩ := setEvictable_cases hr
  · exact h
  have hmem : f ∈ r.histList ++ r.cacheList :=
    List.mem_append.mpr ((h.tracked_iff f).mp (by simp [he]))
  have hent : ∀ x, x ≠ f → Function.update r.entries f (some { e with evictable := b }) x = r.entries x :=
    fun x hx => Function.update_noteq hx _ _
  refine h.frame rfl hent (fun _ _ => Iff.rfl) (fun _ _ => Iff.rfl) ⟨h.hist_nodup, h.cache_nodup⟩
    (by simpa [he] using h.tracked_iff f) (fun hf => ?_) (fun hf => ?_)
    (by simpa using h.hitCount_pos f e he) ?_
  · obtain ⟨e', he', hp, hlt⟩ := h.hist_entry f hf
    rw [he, Option.some.injEq] at he'
    subst he'
    exact ⟨_, Function.update_same _ _ _, hp, hlt⟩
  · obtain ⟨e', he', hp, hle⟩ := h.cache_entry f hf
    rw [he, Option.some.injEq] at he'
    subst he'
    exact ⟨_, Function.update_same _ _ _, hp, hle⟩
  · show _ = List.countP _ (r.histList ++ r.cacheList)
    rw [countP_eq_erase_add _ hmem, countP_erase_congr h.nodup hent, h.currSize_eq,
      countP_eq_erase_add r.isEvictable hmem]
    simp only [isEvictable, entry, Function.update_same, Option.getD_some, he]
    cases e.evictable <;> cases b <;> simp

theorem Inv.remove (h : Inv r) (hr : r.remove f = .ok r') : Inv r' := by
  obtain ⟨-, ⟨-, rfl⟩ | ⟨e, he, hev, ⟨-, hpos, rfl⟩ | ⟨-, hpos, rfl⟩⟩⟩ := remove_cases hr
  · exact h
  · have hfh := ((h.mem_iff_pos he).1).mpr hpos
    have := h.untrack ((h.tracked_iff f).mpr (.inl hfh)) (by simp [isEvictable, entry, he, hev])
    rwa [List.erase_of_not_mem (h.not_mem_cache hfh)] at this
  · have hfc := ((h.mem_iff_pos he).2).mpr hpos
    have := h.untrack ((h.tracked_iff f).mpr (.inr hfc)) (by simp [isEvictable, entry, he, hev])
    rwa [List.erase_of_not_mem fun hh => h.not_mem_cache hh hfc] at this

theorem Inv.evict {v : Int} (h : Inv r) (hr : r.evict = some (v, r')) : Inv r' := by
  rcases evict_cases hr with ⟨hist, hh, rfl⟩ | ⟨-, cache, hc, rfl⟩
  · obtain ⟨hv, hev, rfl⟩ := evictFrom_eq_erase h.hist_nodup hh
    have := h.untrack ((h.tracked_iff v).mpr (.inl hv)) hev
    rwa [List.erase_of_not_mem (h.not_mem_cache hv)] at this
  · obtain ⟨hv, hev, rfl⟩ := evictFrom_eq_erase h.cache_nodup hc
    have := h.untrack ((h.tracked_iff v).mpr (.inr hv)) hev
    rwa [List.erase_of_not_mem fun hh => h.not_mem_cache hh hv] at this

/-- `Evict` takes a tracked evictable frame. -/
theorem evict_tracked {v : Int} (h : Consistent r) (hr : r.evict = some (v, r')) :
    r.entries v ≠ none ∧ r.isEvictable v = true := by
  rcases evict_cases hr with ⟨_, hh, -⟩ | ⟨-, _, hc, -⟩
  · obtain ⟨hv, hpv, -⟩ := evictFrom_eq_erase h.hist_nodup hh
    exact ⟨(h.tracked_iff v).mpr (.inl hv), hpv⟩
  · obtain ⟨hv, hpv, -⟩ := evictFrom_eq_erase h.cache_nodup hc
    exact ⟨(h.tracked_iff v).mpr (.inr hv), hpv⟩

/-- `Evict` returns `false` exactly when no tracked frame is evictable. -/
theorem evict_eq_none_iff (h : Consistent r) :
    r.evict = none ↔ ∀ f, r.entries f ≠ none → r.isEvictable f = false := by
  have hnone : r.evict = none ↔
      evictFrom r.isEvictable r.histList = none ∧ evictFrom r.isEvictable r.cacheList = none := by
    unfold evict
    rcases evictFrom r.isEvictable r.histList with _ | ⟨_, _⟩ <;>
      rcases evictFrom r.isEvictable r.cacheList with _ | ⟨_, _⟩ <;> simp
  simp only [hnone, evictFrom_eq_none_iff, h.tracked_iff]
  exact ⟨fun ⟨hh, hc⟩ f hf => hf.elim (hh f) (hc f),
    fun hall => ⟨fun f hf => hall f (.inl hf), fun f hf => hall f (.inr hf)⟩⟩

theorem Inv.step (h : Inv r) (hk : 2 ≤ r.k) : Step r r' → Inv r'
  | .recordAccess _ hr => h.recordAccess hk hr
  | .setEvictable _ _ hr => h.setEvictable hr
  | .remove _ hr => h.remove hr
  | .evict _ hr => h.evict hr

/-- No call changes `k_` or `replacer_size_`. -/
theorem Step.params : Step r r' → r'.k = r.k ∧ r'.replacerSize = r.replacerSize
  | .recordAccess _ hr => by
    rcases (recordAccess_cases hr).2 with ⟨-, rfl⟩ | ⟨-, -, -, rfl⟩ | ⟨-, -, -, rfl⟩ | ⟨-, -, rfl⟩ <;>
      exact ⟨rfl, rfl⟩
  | .setEvictable _ _ hr => by
    rcases (setEvictable_cases hr).2 with ⟨-, rfl⟩ | ⟨_, -, rfl⟩ <;> exact ⟨rfl, rfl⟩
  | .remove _ hr => by
    rcases (remove_cases hr).2 with ⟨-, rfl⟩ | ⟨_, -, -, ⟨-, -, rfl⟩ | ⟨-, -, rfl⟩⟩ <;> exact ⟨rfl, rfl⟩
  | .evict _ hr => by rcases evict_cases hr with ⟨_, -, rfl⟩ | ⟨-, _, -, rfl⟩ <;> exact ⟨rfl, rfl⟩

theorem inv_new (numFrames k : Nat) : Inv (new numFrames k) where
  tracked_iff := by simp [new]
  hist_nodup := List.nodup_nil
  cache_nodup := List.nodup_nil
  hist_entry := by simp [new]
  cache_entry := by simp [new]
  currSize_eq := rfl
  hitCount_pos := by simp [new]

/-- For `k_ ≥ 2` every sequence of returning calls keeps the replacer consistent. -/
theorem consistent_of_reachable {numFrames k : Nat} (hk : 2 ≤ k) (h : Reachable numFrames k r) :
    Consistent r := by
  suffices Inv r ∧ r.k = k from this.1.toConsistent
  induction h with
  | refl => exact ⟨inv_new numFrames k, rfl⟩
  | tail _ hs ih => exact ⟨ih.1.step (ih.2 ▸ hk) hs, hs.params.1.trans ih.2⟩

/-! ## `k_ = 1` -/

/-- With `k_ = 1`, a first access leaves a frame with `k_` accesses in `hist_list_`, and a second
one erases its `hist_list_` iterator through `cache_list_`. -/
theorem recordAccess_k_one :
    let r0 : LRUKReplacer :=
      { replacerSize := 8, k := 1, histList := [0], cacheList := [],
        entries := Function.update (fun _ => none) 0 (some ⟨1, true, .hist⟩), currSize := 1 }
    (new 8 1).recordAccess 0 = .ok r0 ∧ ¬ Consistent r0 ∧ r0.recordAccess 0 = .error .undefinedBehavior := by
  refine ⟨rfl, fun h => ?_, rfl⟩
  obtain ⟨e, he, -, hlt⟩ := h.hist_entry 0 (List.mem_singleton_self _)
  simp only [Function.update_same, Option.some.injEq] at he
  subst he
  exact absurd hlt (by decide)

end Bustub.LRUKReplacer
