import Bustub.Buffer.ReplacerConsistency

/-!
# Which frame `Evict` chooses

The replacer keeps no timestamps; the order of its two lists is all it remembers of the past.
`Timed` puts beside a replacer the history that produced it: a logical clock that every
`RecordAccess` advances, and for each frame the times of its accesses since it was last
tracked, most recent first.  The replacer never reads them.

`kDistance` and `IsLRUKVictim` state, in the spec's words, the classical LRU-K choice: the
evictable frame of largest backward `k`-distance, where frames with fewer than `k` accesses
have distance +∞ and go first, oldest first access first.  `Evict` does not make that choice
among frames with `k` or more accesses, because `cache_list_` is kept in order of the most
recent access (`evict_not_lruk`).  What it does, for every `k_ ≥ 2` and every history, is
`evict_victim`: it takes the `IsTwoListVictim`, where frames with fewer than `k_` accesses go
first, oldest first access first, and then frames go in least-recently-used order.  This
follows from two order invariants, `hist_list_` by first access and `cache_list_` by last
access (`Timed.Inv`), which every call keeps.
-/

namespace Bustub.LRUKReplacer

/-- A replacer and the history of the calls that built it. -/
structure Timed where
  /-- The replacer itself. -/
  replacer : LRUKReplacer
  /-- Accesses recorded so far: the time the next access gets. -/
  now : Nat
  /-- The times of each frame's accesses since it was last tracked, most recent first. -/
  accesses : Int → List Nat

namespace Timed

/-- A new replacer, before any call. -/
def new (numFrames k : Nat) : Timed := ⟨LRUKReplacer.new numFrames k, 0, fun _ => []⟩

/-- The time of a frame's earliest recorded access. -/
def firstAccess (t : Timed) (f : Int) : Nat := (t.accesses f).getLastD 0

/-- The time of a frame's most recent access. -/
def lastAccess (t : Timed) (f : Int) : Nat := (t.accesses f).headD 0

/-- `RecordAccess`, which records an access at `now`. -/
def recordAccess (t : Timed) (frameId : Int) : Except ReplacerError Timed :=
  (t.replacer.recordAccess frameId).map fun r' =>
    ⟨r', t.now + 1, Function.update t.accesses frameId (t.now :: t.accesses frameId)⟩

/-- `SetEvictable`. -/
def setEvictable (t : Timed) (frameId : Int) (setEvictable : Bool) : Except ReplacerError Timed :=
  (t.replacer.setEvictable frameId setEvictable).map fun r' => ⟨r', t.now, t.accesses⟩

/-- `Remove`, after which the frame's accesses are forgotten. -/
def remove (t : Timed) (frameId : Int) : Except ReplacerError Timed :=
  (t.replacer.remove frameId).map fun r' => ⟨r', t.now, Function.update t.accesses frameId []⟩

/-- `Evict`, after which the victim's accesses are forgotten. -/
def evict (t : Timed) : Option (Int × Timed) :=
  t.replacer.evict.map fun (v, r') => (v, ⟨r', t.now, Function.update t.accesses v []⟩)

/-- One call that returns. -/
inductive Step : Timed → Timed → Prop
  | recordAccess {t t' : Timed} (frameId : Int) : t.recordAccess frameId = .ok t' → Step t t'
  | setEvictable {t t' : Timed} (frameId : Int) (b : Bool) :
      t.setEvictable frameId b = .ok t' → Step t t'
  | remove {t t' : Timed} (frameId : Int) : t.remove frameId = .ok t' → Step t t'
  | evict {t t' : Timed} (frameId : Int) : t.evict = some (frameId, t') → Step t t'

/-- The timed replacers some sequence of returning calls makes from `LRUKReplacer(num_frames, k)`. -/
def Reachable (numFrames k : Nat) (t : Timed) : Prop :=
  Relation.ReflTransGen Step (new numFrames k) t

/-! ## The policy in the spec's words -/

/-- The backward `k`-distance at time `now` of a frame accessed at `ts`, most recent first: the
distance to the `k`-th most recent access, `none` (+∞) with fewer than `k` accesses. -/
def kDistance (k now : Nat) (ts : List Nat) : Option Nat :=
  if k ≤ ts.length then some (now - ts.getD (k - 1) 0) else none

/-- LRU-K prefers evicting `v` to evicting `u`: larger `k`-distance, and among frames of
infinite distance the older first access. -/
def beats (t : Timed) (v u : Int) : Bool :=
  match kDistance t.replacer.k t.now (t.accesses v), kDistance t.replacer.k t.now (t.accesses u) with
  | none, none => t.firstAccess v < t.firstAccess u
  | none, some _ => true
  | some _, none => false
  | some dv, some du => du < dv

/-- The frame LRU-K evicts: tracked, evictable, and preferred to every other such frame. -/
def IsLRUKVictim (t : Timed) (v : Int) : Prop :=
  t.replacer.entries v ≠ none ∧ t.replacer.isEvictable v = true ∧
    ∀ u, u ≠ v → t.replacer.entries u ≠ none → t.replacer.isEvictable u = true → t.beats v u = true


/-- The counterexample: with `k = 2`, frame 0 accessed at times 0, 1 and 4 and frame 1 at times
2 and 3, frame 0's second most recent access (time 1) is older than frame 1's (time 2), so LRU-K
evicts frame 0; `cache_list_` is `[0, 1]`, and `Evict` takes frame 1 from its tail. -/
theorem evict_not_lruk :
    ∃ t, ((Timed.new 8 2).recordAccess 0 >>= (·.recordAccess 0) >>= (·.recordAccess 1) >>=
      (·.recordAccess 1) >>= (·.recordAccess 0)) = .ok t ∧
      t.evict.map Prod.fst = some 1 ∧ ¬ t.IsLRUKVictim 1 := by
  refine ⟨_, rfl, by decide, fun h => ?_⟩
  exact absurd (h.2.2 0 (by decide) (by decide) (by decide)) (by decide)

/-- The frame the code evicts: tracked and evictable; while some evictable frame has fewer than
`k_` accesses (`k`-distance +∞), such a frame, the one whose first access is oldest; otherwise
the evictable frame whose most recent access is oldest. -/
def IsTwoListVictim (t : Timed) (v : Int) : Prop :=
  t.replacer.entries v ≠ none ∧ t.replacer.isEvictable v = true ∧
  ((∃ u, t.replacer.entries u ≠ none ∧ t.replacer.isEvictable u = true ∧
      (t.accesses u).length < t.replacer.k) →
    (t.accesses v).length < t.replacer.k ∧
    ∀ u, u ≠ v → t.replacer.entries u ≠ none → t.replacer.isEvictable u = true →
      (t.accesses u).length < t.replacer.k → t.firstAccess v < t.firstAccess u) ∧
  ((∀ u, t.replacer.entries u ≠ none → t.replacer.isEvictable u = true →
      t.replacer.k ≤ (t.accesses u).length) →
    ∀ u, u ≠ v → t.replacer.entries u ≠ none → t.replacer.isEvictable u = true →
      t.lastAccess v < t.lastAccess u)

/-! ## The order of the two lists -/

/-- What the history and the replacer agree on. -/
structure Inv (t : Timed) : Prop where
  /-- The replacer is consistent. -/
  replacer_inv : t.replacer.Inv
  /-- `hit_count_` counts the recorded accesses. -/
  length_eq : ∀ f, (t.accesses f).length = (t.replacer.entry f).hitCount
  /-- Every recorded access is in the past. -/
  lt_now : ∀ f, ∀ x ∈ t.accesses f, x < t.now
  /-- `hist_list_` runs from the newest first access to the oldest. -/
  hist_sorted : t.replacer.histList.Pairwise fun a b => t.firstAccess b < t.firstAccess a
  /-- `cache_list_` runs from the newest last access to the oldest. -/
  cache_sorted : t.replacer.cacheList.Pairwise fun a b => t.lastAccess b < t.lastAccess a

variable {t t' : Timed} {f : Int} {r' : LRUKReplacer}

/-- An order by a key survives dropping elements and changing the key of other elements. -/
theorem pairwise_key {key key' : Int → Nat} {l l' : List Int}
    (hs : l.Pairwise fun a b => key b < key a) (hsub : l'.Sublist l) (hkey : ∀ x ∈ l', key' x = key x) :
    l'.Pairwise fun a b => key' b < key' a :=
  (hs.sublist hsub).imp_of_mem fun ha hb hab => by rwa [hkey _ ha, hkey _ hb]

/-- ... and putting in front an element newer than all of them. -/
theorem pairwise_key_cons {key key' : Int → Nat} {l l' : List Int}
    (hs : l.Pairwise fun a b => key b < key a) (hsub : l'.Sublist l) (hkey : ∀ x ∈ l', key' x = key x)
    (hnew : ∀ x ∈ l', key x < key' f) : (f :: l').Pairwise fun a b => key' b < key' a :=
  List.pairwise_cons.mpr ⟨fun x hx => hkey x hx ▸ hnew x hx, pairwise_key hs hsub hkey⟩

theorem firstAccess_update {n : Nat} {l : List Nat} {x : Int} (hx : x ≠ f) :
    firstAccess ⟨r', n, Function.update t.accesses f l⟩ x = t.firstAccess x := by
  simp [firstAccess, Function.update_noteq hx]

theorem lastAccess_update {n : Nat} {l : List Nat} {x : Int} (hx : x ≠ f) :
    lastAccess ⟨r', n, Function.update t.accesses f l⟩ x = t.lastAccess x := by
  simp [lastAccess, Function.update_noteq hx]

theorem Inv.accesses_ne_nil (h : Inv t) (hf : t.replacer.entries f ≠ none) : t.accesses f ≠ [] := by
  obtain ⟨e, he⟩ := Option.ne_none_iff_exists'.mp hf
  rw [← List.length_pos, h.length_eq, entry_of_some he]
  exact h.replacer_inv.hitCount_pos f e he

theorem Inv.firstAccess_lt (h : Inv t) (hf : t.replacer.entries f ≠ none) : t.firstAccess f < t.now := by
  obtain ⟨x, xs, hx⟩ := List.exists_cons_of_ne_nil (h.accesses_ne_nil hf)
  refine h.lt_now f _ ?_
  rw [firstAccess, hx, List.getLastD_cons]
  exact List.getLastD_mem_cons xs x

theorem Inv.lastAccess_lt (h : Inv t) (hf : t.replacer.entries f ≠ none) : t.lastAccess f < t.now := by
  obtain ⟨x, xs, hx⟩ := List.exists_cons_of_ne_nil (h.accesses_ne_nil hf)
  exact h.lt_now f _ (by rw [lastAccess, hx]; exact List.mem_cons_self x xs)

theorem Inv.ne_of_mem_hist (h : Inv t) {x : Int} (hf : t.replacer.entries f = none)
    (hx : x ∈ t.replacer.histList) : x ≠ f :=
  fun hxf => (h.replacer_inv.tracked_iff x).mpr (.inl hx) (hxf ▸ hf)

theorem Inv.ne_of_mem_cache (h : Inv t) {x : Int} (hf : t.replacer.entries f = none)
    (hx : x ∈ t.replacer.cacheList) : x ≠ f :=
  fun hxf => (h.replacer_inv.tracked_iff x).mpr (.inr hx) (hxf ▸ hf)


/-- `RecordAccess` keeps both lists in order: the frame it puts in front has the newest
access, and a frame it leaves in `hist_list_` keeps its first access. -/
theorem Inv.sorted_recordAccess (h : Inv t) (hr : t.replacer.recordAccess f = .ok r') :
    let t' : Timed := ⟨r', t.now + 1, Function.update t.accesses f (t.now :: t.accesses f)⟩
    (r'.histList.Pairwise fun a b => t'.firstAccess b < t'.firstAccess a) ∧
    (r'.cacheList.Pairwise fun a b => t'.lastAccess b < t'.lastAccess a) := by
  intro t'
  have hc := h.replacer_inv
  have hlast : t'.lastAccess f = t.now := by simp [t', lastAccess]
  rcases (recordAccess_cases hr).2 with ⟨h0, rfl⟩ | ⟨h0, -, hpos, rfl⟩ | ⟨h0, -, hpos, rfl⟩ | ⟨h0, hlt, rfl⟩
  · -- first access: `f` goes in front of `hist_list_`
    have hnone := hc.entries_eq_none h0
    have hnil : t.accesses f = [] := List.length_eq_zero.mp (by rw [h.length_eq, h0])
    have hfirst : t'.firstAccess f = t.now := by simp [t', firstAccess, hnil]
    exact ⟨pairwise_key_cons h.hist_sorted (List.Sublist.refl _)
        (fun x hx => firstAccess_update (h.ne_of_mem_hist hnone hx))
        (fun x hx => hfirst ▸ h.firstAccess_lt ((hc.tracked_iff x).mpr (.inl hx))),
      pairwise_key h.cache_sorted (List.Sublist.refl _)
        (fun x hx => lastAccess_update (h.ne_of_mem_cache hnone hx))⟩
  · -- `k_`-th access: `f` leaves `hist_list_` for the front of `cache_list_`
    have hfh := ((hc.mem_iff_pos (entries_eq_some h0)).1).mpr hpos
    exact ⟨pairwise_key h.hist_sorted (List.erase_sublist _ _)
        (fun x hx => firstAccess_update (ne_of_mem_of_not_mem hx hc.hist_nodup.not_mem_erase)),
      pairwise_key_cons h.cache_sorted (List.Sublist.refl _)
        (fun x hx => lastAccess_update (ne_of_mem_of_not_mem hx (hc.not_mem_cache hfh)))
        (fun x hx => hlast ▸ h.lastAccess_lt ((hc.tracked_iff x).mpr (.inr hx)))⟩
  · -- later access: `f` moves to the front of `cache_list_`
    have hfc := ((hc.mem_iff_pos (entries_eq_some h0)).2).mpr hpos
    have hnh : f ∉ t.replacer.histList := fun hh => hc.not_mem_cache hh hfc
    exact ⟨pairwise_key h.hist_sorted (List.Sublist.refl _)
        (fun x hx => firstAccess_update (ne_of_mem_of_not_mem hx hnh)),
      pairwise_key_cons h.cache_sorted (List.erase_sublist _ _)
        (fun x hx => lastAccess_update (ne_of_mem_of_not_mem hx hc.cache_nodup.not_mem_erase))
        (fun x hx => hlast ▸ h.lastAccess_lt
          ((hc.tracked_iff x).mpr (.inr ((List.erase_sublist _ _).subset hx))))⟩
  · -- access below `k_`: the lists stay, and so does `f`'s first access
    have hsome := entries_eq_some h0
    have hfh := hc.mem_hist_of_lt hsome (by omega)
    obtain ⟨y, ys, hy⟩ := List.exists_cons_of_ne_nil (h.accesses_ne_nil (by simp [hsome] : t.replacer.entries f ≠ none))
    have hfirst : ∀ x, t'.firstAccess x = t.firstAccess x := fun x => by
      by_cases hx : x = f
      · subst hx; simp [t', firstAccess, hy, List.getLastD_cons]
      · exact firstAccess_update hx
    exact ⟨pairwise_key h.hist_sorted (List.Sublist.refl _) (fun x _ => hfirst x),
      pairwise_key h.cache_sorted (List.Sublist.refl _)
        (fun x hx => lastAccess_update (ne_of_mem_of_not_mem hx (hc.not_mem_cache hfh)))⟩


theorem Inv.recordAccess (h : Inv t) (hk : 2 ≤ t.replacer.k) (hs : t.recordAccess f = .ok t') :
    Inv t' := by
  obtain ⟨r', hr, rfl⟩ := except_map_eq_ok.mp hs
  obtain ⟨⟨pos, hent_f⟩, hent⟩ := recordAccess_entries hr
  obtain ⟨hhist, hcache⟩ := h.sorted_recordAccess hr
  refine ⟨h.replacer_inv.recordAccess hk hr, fun x => ?_, fun x y hy => ?_, hhist, hcache⟩
  · by_cases hx : x = f
    · subst hx; simp [entry_of_some hent_f, h.length_eq]
    · simp only [Function.update_noteq hx, h.length_eq x, entry, hent x hx]
  · by_cases hx : x = f
    · subst hx
      rcases List.mem_cons.mp (by simpa using hy) with rfl | hy
      · exact Nat.lt_succ_self _
      · exact Nat.lt_succ_of_lt (h.lt_now _ _ hy)
    · simp only [Function.update_noteq hx] at hy
      exact Nat.lt_succ_of_lt (h.lt_now x y hy)

theorem Inv.setEvictable {b : Bool} (h : Inv t) (hs : t.setEvictable f b = .ok t') : Inv t' := by
  obtain ⟨r', hr, rfl⟩ := except_map_eq_ok.mp hs
  obtain ⟨hhist, hcache, hcount, -, -, -⟩ := setEvictable_effect hr
  refine ⟨h.replacer_inv.setEvictable hr, fun x => (h.length_eq x).trans (hcount x).symm, h.lt_now, ?_, ?_⟩
  · rw [hhist]; exact h.hist_sorted
  · rw [hcache]; exact h.cache_sorted

/-- A frame that leaves the replacer, by `Remove` or `Evict`, forgets its accesses, and the
lists only lose frames. -/
theorem Inv.untrack (h : Inv t) (hr' : r'.Inv) (hnone : r'.entries f = none)
    (hent : ∀ x, x ≠ f → r'.entries x = t.replacer.entries x)
    (hhist : r'.histList.Sublist t.replacer.histList)
    (hcache : r'.cacheList.Sublist t.replacer.cacheList) :
    Inv ⟨r', t.now, Function.update t.accesses f []⟩ := by
  refine ⟨hr', fun x => ?_, fun x y hy => ?_, ?_, ?_⟩
  · by_cases hx : x = f
    · subst hx; simp [entry_of_none hnone, FrameEntry.default]
    · simp only [Function.update_noteq hx, h.length_eq x, entry, hent x hx]
  · by_cases hx : x = f
    · subst hx; simp at hy
    · simp only [Function.update_noteq hx] at hy
      exact h.lt_now x y hy
  · exact pairwise_key h.hist_sorted hhist fun x hx =>
      firstAccess_update fun hxf => (hr'.tracked_iff x).mpr (.inl hx) (hxf ▸ hnone)
  · exact pairwise_key h.cache_sorted hcache fun x hx =>
      lastAccess_update fun hxf => (hr'.tracked_iff x).mpr (.inr hx) (hxf ▸ hnone)

theorem Inv.remove (h : Inv t) (hs : t.remove f = .ok t') : Inv t' := by
  obtain ⟨r', hr, rfl⟩ := except_map_eq_ok.mp hs
  obtain ⟨hnone, hent, hhist, hcache⟩ := remove_untracks hr
  exact h.untrack (h.replacer_inv.remove hr) hnone hent hhist hcache

theorem Inv.evict {v : Int} (h : Inv t) (hs : t.evict = some (v, t')) : Inv t' := by
  obtain ⟨⟨v', r'⟩, hr, he⟩ := Option.map_eq_some'.mp hs
  simp only [Prod.mk.injEq] at he
  obtain ⟨rfl, rfl⟩ := he
  obtain ⟨hnone, hent, hhist, hcache⟩ := evict_untracks hr
  exact h.untrack (h.replacer_inv.evict hr) hnone hent hhist hcache

/-- Forgetting the history, a timed step is a step of the replacer. -/
theorem Step.replacer : Step t t' → LRUKReplacer.Step t.replacer t'.replacer
  | .recordAccess f hs => by
    obtain ⟨r', hr, rfl⟩ := except_map_eq_ok.mp hs
    exact .recordAccess f hr
  | .setEvictable f b hs => by
    obtain ⟨r', hr, rfl⟩ := except_map_eq_ok.mp hs
    exact .setEvictable f b hr
  | .remove f hs => by
    obtain ⟨r', hr, rfl⟩ := except_map_eq_ok.mp hs
    exact .remove f hr
  | .evict v hs => by
    obtain ⟨⟨v', r'⟩, hr, he⟩ := Option.map_eq_some'.mp hs
    simp only [Prod.mk.injEq] at he
    obtain ⟨rfl, rfl⟩ := he
    exact .evict _ hr

theorem Inv.step (h : Inv t) (hk : 2 ≤ t.replacer.k) : Step t t' → Inv t'
  | .recordAccess _ hs => h.recordAccess hk hs
  | .setEvictable _ _ hs => h.setEvictable hs
  | .remove _ hs => h.remove hs
  | .evict _ hs => h.evict hs

theorem inv_new (numFrames k : Nat) : Inv (new numFrames k) where
  replacer_inv := LRUKReplacer.inv_new numFrames k
  length_eq _ := rfl
  lt_now := by simp [new]
  hist_sorted := List.Pairwise.nil
  cache_sorted := List.Pairwise.nil

theorem inv_of_reachable {numFrames k : Nat} (hk : 2 ≤ k) (h : Reachable numFrames k t) :
    Inv t ∧ t.replacer.k = k := by
  induction h with
  | refl => exact ⟨inv_new numFrames k, rfl⟩
  | tail _ hs ih => exact ⟨ih.1.step (ih.2 ▸ hk) hs, hs.replacer.params.1.trans ih.2⟩


/-! ## The victim -/

/-- In a list ordered by a key, newest first, the scan's victim has the oldest key among the
frames it could have taken. -/
theorem lt_of_evictFrom {p : Int → Bool} {key : Int → Nat} {l l' : List Int} {v u : Int}
    (hs : l.Pairwise fun a b => key b < key a) (he : evictFrom p l = some (v, l'))
    (hu : u ∈ l) (huv : u ≠ v) (hpu : p u = true) : key v < key u := by
  obtain ⟨-, a, b, rfl, -, hb⟩ := evictFrom_spec he
  rcases List.mem_append.mp hu with hua | hub
  · exact (List.pairwise_append.mp hs).2.2 u hua v (List.mem_cons_self v b)
  · rcases List.mem_cons.mp hub with rfl | hub
    · exact absurd rfl huv
    · exact absurd (hb u hub) (by simp [hpu])

theorem Inv.length_lt_iff_mem_hist (h : Inv t) (hu : t.replacer.entries f ≠ none) :
    (t.accesses f).length < t.replacer.k ↔ f ∈ t.replacer.histList := by
  obtain ⟨e, he⟩ := Option.ne_none_iff_exists'.mp hu
  rw [h.length_eq, entry_of_some he]
  refine ⟨h.replacer_inv.mem_hist_of_lt he, fun hf => ?_⟩
  obtain ⟨e', he', -, hlt⟩ := h.replacer_inv.hist_entry f hf
  rw [he, Option.some.injEq] at he'
  exact he' ▸ hlt

/-- What `Evict` returns, for every `k_ ≥ 2` and every history of returning calls: `false`
exactly when no tracked frame is evictable, and otherwise the two-list victim, which it
untracks. -/
theorem evict_victim {numFrames k : Nat} (hk : 2 ≤ k) (h : Reachable numFrames k t) :
    (t.replacer.evict = none ↔
      ∀ f, t.replacer.entries f ≠ none → t.replacer.isEvictable f = false) ∧
    ∀ v r', t.replacer.evict = some (v, r') →
      t.IsTwoListVictim v ∧ r'.entries = Function.update t.replacer.entries v none := by
  obtain ⟨hi, -⟩ := inv_of_reachable hk h
  have hc := hi.replacer_inv
  refine ⟨evict_eq_none_iff hc.toConsistent, fun v r' he => ?_⟩
  rcases evict_cases he with ⟨hist, hh, rfl⟩ | ⟨hnone, cache, hcache, rfl⟩
  · -- the victim comes from `hist_list_`
    obtain ⟨hv, hpv, -⟩ := evictFrom_eq_erase hc.hist_nodup hh
    have hvt := (hc.tracked_iff v).mpr (.inl hv)
    have hlen := (hi.length_lt_iff_mem_hist hvt).mpr hv
    exact ⟨⟨hvt, hpv, fun _ => ⟨hlen, fun u huv hu hpu hlu =>
        lt_of_evictFrom hi.hist_sorted hh ((hi.length_lt_iff_mem_hist hu).mp hlu) huv hpu⟩,
      fun hall => absurd (hall v hvt hpv) (by omega)⟩, rfl⟩
  · -- no frame of `hist_list_` is evictable; the victim comes from `cache_list_`
    obtain ⟨hv, hpv, -⟩ := evictFrom_eq_erase hc.cache_nodup hcache
    have hvt := (hc.tracked_iff v).mpr (.inr hv)
    have hnoev := evictFrom_eq_none_iff.mp hnone
    have hcache_of : ∀ u, t.replacer.entries u ≠ none → t.replacer.isEvictable u = true →
        u ∈ t.replacer.cacheList := fun u hu hpu =>
      ((hc.tracked_iff u).mp hu).resolve_left fun huh => by simp [hnoev u huh] at hpu
    refine ⟨⟨hvt, hpv, fun ⟨u, hu, hpu, hlu⟩ => ?_, fun _ u huv hu hpu =>
      lt_of_evictFrom hi.cache_sorted hcache (hcache_of u hu hpu) huv hpu⟩, rfl⟩
    exact absurd (hnoev u ((hi.length_lt_iff_mem_hist hu).mp hlu)) (by simp [hpu])

/-- The run of the counterexample satisfies the hypotheses: after frame 0 is accessed at 0, 1,
4 and frame 1 at 2, 3, `Evict` takes the two-list victim, frame 1. -/
theorem evict_victim_five_accesses :
    ∃ t, ((Timed.new 8 2).recordAccess 0 >>= (·.recordAccess 0) >>= (·.recordAccess 1) >>=
      (·.recordAccess 1) >>= (·.recordAccess 0)) = .ok t ∧ 2 ≤ 2 ∧ Reachable 8 2 t ∧
      ((t.replacer.evict = none ↔
        ∀ f, t.replacer.entries f ≠ none → t.replacer.isEvictable f = false) ∧
      ∀ v r', t.replacer.evict = some (v, r') →
        t.IsTwoListVictim v ∧ r'.entries = Function.update t.replacer.entries v none) :=
  have reach : Reachable 8 2 _ :=
    .tail (.tail (.tail (.tail (.single (.recordAccess 0 rfl)) (.recordAccess 0 rfl))
      (.recordAccess 1 rfl)) (.recordAccess 1 rfl)) (.recordAccess 0 rfl)
  ⟨_, rfl, le_refl 2, reach, evict_victim (le_refl 2) reach⟩

end Timed

end Bustub.LRUKReplacer
