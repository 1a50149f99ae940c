import Bustub.Concurrency.WaitsFor

/-!
# What `HasCycle` finds

`DFS` explores every simple path from its start; it stops when the transaction it is about to
visit is already on the stack.  It prunes nothing with the visited set, so a search from `v` with
the stack `A` finds a cycle exactly when some transaction reachable from `v` without passing
through `A` has an edge back into `A` or closes a cycle (`Bad`).  This module proves both
directions, the second with enough fuel (`dfs_found`, `not_bad_of_dfs`), and what they give for
`HasCycle`:

* the stack of a search that found a cycle is a path whose top has an edge back into the stack,
  so every transaction on it reaches a cycle, and so does the victim, the largest one
  (`hasCycle_some`), though it need not lie on the cycle;
* when `HasCycle` returns false, no cycle is left, provided every edge leaves a marked
  transaction and ends at a known one (`hasCycle_none`).
-/

namespace Bustub

open Relation

/-! ## Paths of a successor function -/

section Graph

variable (w : Int → List Int)

/-- An edge of the successor function `w`. -/
def Edge (x y : Int) : Prop := y ∈ w x

/-- `x` lies on a cycle. -/
def OnCycle (x : Int) : Prop := TransGen (Edge w) x x

/-- A cycle can be reached from `x`. -/
def ReachesCycle (x : Int) : Prop := ∃ y, ReflTransGen (Edge w) x y ∧ OnCycle w y

/-- An edge into a transaction not in `A`. -/
def EdgeOff (A : List Int) (x y : Int) : Prop := y ∈ w x ∧ y ∉ A

/-- What a search from `v` with the stack `A` finds: a transaction it reaches without passing
through `A`, with an edge back into `A` or to a transaction that reaches it. -/
def Bad (A : List Int) (v : Int) : Prop :=
  ∃ y z, ReflTransGen (EdgeOff w A) v y ∧ z ∈ w y ∧ (z ∈ A ∨ ReflTransGen (EdgeOff w A) z y)

variable {w}

theorem ReachesCycle.of_reflTransGen {x y : Int} (hxy : ReflTransGen (Edge w) x y)
    (hy : ReachesCycle w y) : ReachesCycle w x := by
  obtain ⟨z, hyz, hz⟩ := hy
  exact ⟨z, hxy.trans hyz, hz⟩

theorem OnCycle.reachesCycle {x : Int} (h : OnCycle w x) : ReachesCycle w x := ⟨x, .refl, h⟩

/-- A transaction that reaches a cycle has a successor. -/
theorem ReachesCycle.ne_nil {x : Int} (h : ReachesCycle w x) : w x ≠ [] := by
  obtain ⟨y, hxy, hy⟩ := h
  rcases hxy.cases_head with rfl | ⟨z, hxz, -⟩
  · obtain ⟨z, hxz, -⟩ := TransGen.head'_iff.mp hy
    exact List.ne_nil_of_mem hxz
  · exact List.ne_nil_of_mem hxz

/-- Cycles survive adding edges. -/
theorem ReachesCycle.mono {w' : Int → List Int} (hw : ∀ x y, y ∈ w x → y ∈ w' x) {x : Int}
    (h : ReachesCycle w x) : ReachesCycle w' x := by
  obtain ⟨y, hxy, hy⟩ := h
  exact ⟨y, hxy.mono fun a b => hw a b, hy.mono fun a b => hw a b⟩

theorem not_reachesCycle_of_not_bad {v : Int} (h : ¬Bad w [] v) : ¬ReachesCycle w v := by
  rintro ⟨y, hvy, hy⟩
  obtain ⟨z, hyz, hzy⟩ := TransGen.head'_iff.mp hy
  have hoff : ∀ {a b}, ReflTransGen (Edge w) a b → ReflTransGen (EdgeOff w []) a b :=
    fun hab => hab.mono fun _ _ h => ⟨h, List.not_mem_nil _⟩
  exact h ⟨y, z, hoff hvy, hyz, .inr (hoff hzy)⟩

variable {A : List Int} {v y z : Int}

/-- A path from `v` that avoids `A` stays at `v`, or leaves `v` for the last time by an edge
into some `n` and then avoids `v` too. -/
theorem reflTransGen_edgeOff_from (h : ReflTransGen (EdgeOff w A) v y) :
    y = v ∨ ∃ n, n ∈ w v ∧ n ∉ v :: A ∧ ReflTransGen (EdgeOff w (v :: A)) n y := by
  induction h with
  | refl => exact .inl rfl
  | @tail y z _ hyz ih =>
    by_cases hz : z = v
    · exact .inl hz
    · have hz' : z ∉ v :: A := by simp [hz, hyz.2]
      rcases ih with rfl | ⟨n, hn, hnA, hny⟩
      · exact .inr ⟨z, hyz.1, hz', .refl⟩
      · exact .inr ⟨n, hn, hnA, hny.tail ⟨hyz.1, hz'⟩⟩

/-- A path from `z ≠ v` that avoids `A` avoids `v` too, or first reaches a transaction with an
edge to `v`. -/
theorem reflTransGen_edgeOff_to (h : ReflTransGen (EdgeOff w A) z y) (hz : z ≠ v) :
    ReflTransGen (EdgeOff w (v :: A)) z y ∨
      ∃ y', ReflTransGen (EdgeOff w (v :: A)) z y' ∧ v ∈ w y' := by
  revert hz
  induction h using ReflTransGen.head_induction_on with
  | refl => exact fun _ => .inl .refl
  | @head z z₁ hzz₁ _ ih =>
    intro hz
    by_cases hz₁ : z₁ = v
    · exact .inr ⟨z, .refl, hz₁ ▸ hzz₁.1⟩
    · have hstep : EdgeOff w (v :: A) z z₁ := ⟨hzz₁.1, by simp [hz₁, hzz₁.2]⟩
      rcases ih hz₁ with h | ⟨y', hy', hv⟩
      · exact .inl (.head hstep h)
      · exact .inr ⟨y', .head hstep hy', hv⟩

/-- A path that avoids `B` cannot end in `B` unless it is empty. -/
theorem eq_of_reflTransGen_edgeOff {B : List Int} (h : ReflTransGen (EdgeOff w B) z y)
    (hy : y ∈ B) : z = y := by
  rcases h.cases_tail with rfl | ⟨_, -, hlast⟩
  · rfl
  · exact absurd hy hlast.2

/-- The step of the search: when no successor of `v` is on the stack `v :: A` or leads a search
with that stack to a cycle, the search from `v` with the stack `A` finds none. -/
theorem not_bad_of_succ (hv : ∀ n ∈ w v, n ∉ v :: A ∧ ¬Bad w (v :: A) n) : ¬Bad w A v := by
  rintro ⟨y, z, hvy, hzy, hz⟩
  rcases reflTransGen_edgeOff_from hvy with hyv | ⟨n, hn, -, hny⟩
  · -- the edge leaves `v` itself
    rw [hyv] at hzy hz
    obtain ⟨hzA, hbad⟩ := hv z hzy
    rcases hz with hz | hzv
    · exact hzA (List.mem_cons_of_mem _ hz)
    · have hne : z ≠ v := fun h => hzA (h ▸ List.mem_cons_self _ _)
      rcases reflTransGen_edgeOff_to hzv hne with h | ⟨y', hzy', hvy'⟩
      · exact hne (eq_of_reflTransGen_edgeOff h (List.mem_cons_self _ _))
      · exact hbad ⟨y', v, hzy', hvy', .inl (List.mem_cons_self _ _)⟩
  · -- the edge leaves a transaction past the last visit of `v`
    have hbad := (hv n hn).2
    by_cases hzB : z ∈ v :: A
    · exact hbad ⟨y, z, hny, hzy, .inl hzB⟩
    · rcases hz with hz | hzy'
      · exact hzB (List.mem_cons_of_mem _ hz)
      · have hne : z ≠ v := fun h => hzB (h ▸ List.mem_cons_self _ _)
        rcases reflTransGen_edgeOff_to hzy' hne with h | ⟨y', hzy'', hvy'⟩
        · exact hbad ⟨y, z, hny, hzy, .inr h⟩
        · exact hbad ⟨y', v, (hny.tail ⟨hzy, hzB⟩).trans hzy'', hvy', .inl (List.mem_cons_self _ _)⟩

end Graph

/-! ## The stack of a search that found a cycle -/

/-- A stack that `DFS` returns with a cycle: each transaction on it is a successor of the one
below, and the top has an edge back into the stack. -/
def FoundStack (w : Int → List Int) (stack : List Int) : Prop :=
  ∃ top rest, stack = top :: rest ∧ List.Chain' (fun a b => a ∈ w b) stack ∧
    ∃ u ∈ stack, u ∈ w top

/-- Every transaction on a path reaches its top. -/
theorem reflTransGen_of_chain {w : Int → List Int} {top : Int} {rest : List Int}
    (h : List.Chain' (fun a b => a ∈ w b) (top :: rest)) {x : Int} (hx : x ∈ top :: rest) :
    ReflTransGen (Edge w) x top := by
  induction rest generalizing top with
  | nil =>
    rw [List.mem_singleton.mp hx]
  | cons b rest ih =>
    rw [List.chain'_cons] at h
    rcases List.mem_cons.mp hx with rfl | hx
    · exact .refl
    · exact (ih h.2 hx).tail h.1

theorem FoundStack.reachesCycle {w : Int → List Int} {stack : List Int} (h : FoundStack w stack)
    {x : Int} (hx : x ∈ stack) : ReachesCycle w x := by
  obtain ⟨top, rest, rfl, hchain, u, hu, hedge⟩ := h
  exact ⟨top, reflTransGen_of_chain hchain hx,
    TransGen.head'_iff.mpr ⟨u, hedge, reflTransGen_of_chain hchain hu⟩⟩

/-! ## `DFS` -/

section Dfs

variable {w : Int → List Int}

theorem foldl_invariant {α β : Type} (f : β → α → β) (P : β → Prop) {l : List α} {b : β}
    (hb : P b) (hf : ∀ b a, a ∈ l → P b → P (f b a)) : P (l.foldl f b) := by
  induction l generalizing b with
  | nil => exact hb
  | cons a l ih =>
    exact ih (hf b a (List.mem_cons_self _ _) hb) fun b' a' ha' => hf b' a' (List.mem_cons_of_mem _ ha')

/-- Once a cycle is found, the loop over the successors changes nothing. -/
theorem foldl_dfsVisit_found (visit : Int → List Int → List Int → Bool × List Int × List Int)
    (l : List Int) {acc : Bool × List Int × List Int} (h : acc.1 = true) :
    l.foldl (dfsVisit visit) acc = acc := by
  induction l with
  | nil => rfl
  | cons n l ih => simp [dfsVisit, h, ih]

/-- When the loop finds no cycle, no successor is on the stack, and the search from each finds
none. -/
theorem foldl_dfsVisit_not_found (visit : Int → List Int → List Int → Bool × List Int × List Int)
    {l : List Int} {S T : List Int} (h : (l.foldl (dfsVisit visit) (false, S, T)).1 = false) :
    ∀ n ∈ l, n ∉ S ∧ ∃ T', (visit n S T').1 = false := by
  induction l generalizing T with
  | nil => simp
  | cons n l ih =>
    simp only [List.foldl_cons] at h
    by_cases hn : n ∈ S
    · simp [dfsVisit, hn, foldl_dfsVisit_found] at h
    · cases hr : (visit n S T).1
      · have h' : (l.foldl (dfsVisit visit) (false, S, (visit n S T).2.2)).1 = false := by
          simpa [dfsVisit, hn, hr] using h
        intro n' hn'
        rcases List.mem_cons.mp hn' with rfl | hn'
        · exact ⟨hn, T, hr⟩
        · exact ih h' n' hn'
      · simp [dfsVisit, hn, hr, foldl_dfsVisit_found] at h

theorem dfs_succ_not_found {fuel : Nat} {v : Int} {A T : List Int}
    (h : (dfs w (fuel + 1) v A T).1 = false) :
    ∀ n ∈ w v, n ∉ v :: A ∧ ∃ T', (dfs w fuel n (v :: A) T').1 = false := by
  simp only [dfs] at h
  split at h
  · rename_i hr
    rw [hr] at h
    cases h
  · rename_i hr
    exact foldl_dfsVisit_not_found _ (by simpa using hr)

/-- The stack of a search that found a cycle, started on a path, is a `FoundStack`. -/
theorem dfs_found {fuel : Nat} {v : Int} {A T : List Int}
    (hA : List.Chain' (fun a b => a ∈ w b) (v :: A)) (h : (dfs w fuel v A T).1 = true) :
    FoundStack w (dfs w fuel v A T).2.1 := by
  induction fuel generalizing v A T with
  | zero => cases h
  | succ fuel ih =>
    simp only [dfs] at h ⊢
    -- the loop keeps its stack until it finds a cycle, and then holds a `FoundStack`
    have hloop := foldl_invariant (dfsVisit (dfs w fuel))
      (fun acc => (acc.1 = false → acc.2.1 = v :: A) ∧ (acc.1 = true → FoundStack w acc.2.1))
      (l := w v) (b := (false, v :: A, v :: T)) ⟨fun _ => rfl, fun h => by cases h⟩
      (fun acc n hn ⟨hfalse, htrue⟩ => by
        dsimp only [dfsVisit]
        split_ifs with hacc hmem hr
        · exact ⟨fun h => absurd hacc (by simp [h]), htrue⟩
        · rw [hfalse (by simpa using hacc)] at hmem ⊢
          exact ⟨(fun h => by cases h), fun _ => ⟨v, A, rfl, hA, n, hmem, hn⟩⟩
        · rw [hfalse (by simpa using hacc)] at hr ⊢
          exact ⟨fun h => absurd hr (by simp [h]),
            fun _ => ih (List.chain'_cons.mpr ⟨hn, hA⟩) hr⟩
        · exact ⟨fun _ => hfalse (by simpa using hacc), (fun h => by cases h)⟩)
    by_cases hr : ((w v).foldl (dfsVisit (dfs w fuel)) (false, v :: A, v :: T)).1 = true
    · rw [if_pos hr]
      exact hloop.2 hr
    · simp [hr] at h

/-- The visited transactions are those visited before and transactions reachable from the start;
the start is among them. -/
theorem dfs_traversed {fuel : Nat} {v : Int} {A T : List Int} :
    (∀ x ∈ (dfs w fuel v A T).2.2, x ∈ T ∨ ReflTransGen (Edge w) v x) ∧
      (∀ x ∈ T, x ∈ (dfs w fuel v A T).2.2) ∧ (0 < fuel → v ∈ (dfs w fuel v A T).2.2) := by
  induction fuel generalizing v A T with
  | zero => exact ⟨fun x hx => .inl hx, fun _ => id, fun h => absurd h (lt_irrefl 0)⟩
  | succ fuel ih =>
    have hloop := foldl_invariant (dfsVisit (dfs w fuel))
      (fun acc => (∀ x ∈ acc.2.2, x ∈ T ∨ ReflTransGen (Edge w) v x) ∧ ∀ x ∈ v :: T, x ∈ acc.2.2)
      (l := w v) (b := (false, v :: A, v :: T))
      ⟨fun x hx => (List.mem_cons.mp hx).elim (fun h => .inr (h ▸ .refl)) .inl, fun _ => id⟩
      (fun acc n hn ⟨hsound, hsub⟩ => by
        dsimp only [dfsVisit]
        have hr := @ih n acc.2.1 acc.2.2
        have hsound' : ∀ x ∈ (dfs w fuel n acc.2.1 acc.2.2).2.2,
            x ∈ T ∨ ReflTransGen (Edge w) v x := fun x hx =>
          (hr.1 x hx).elim (hsound x) fun h => .inr (ReflTransGen.head hn h)
        split_ifs
        · exact ⟨hsound, hsub⟩
        · exact ⟨hsound, hsub⟩
        · exact ⟨hsound', fun x hx => hr.2.1 x (hsub x hx)⟩
        · exact ⟨hsound', fun x hx => hr.2.1 x (hsub x hx)⟩)
    simp only [dfs]
    split
    · exact ⟨hloop.1, fun x hx => hloop.2 x (List.mem_cons_of_mem _ hx),
        fun _ => hloop.2 v (List.mem_cons_self _ _)⟩
    · exact ⟨hloop.1, fun x hx => hloop.2 x (List.mem_cons_of_mem _ hx),
        fun _ => hloop.2 v (List.mem_cons_self _ _)⟩

/-- With enough fuel, a search that finds no cycle leaves none to find: `fuel` exceeds the
number of known transactions not on the stack. -/
theorem not_bad_of_dfs {U : Finset Int} (hU : ∀ x y, y ∈ w x → y ∈ U) {fuel : Nat} {v : Int}
    {A T : List Int} (hv : v ∈ U) (hvA : v ∉ A) (hfuel : (U \ A.toFinset).card < fuel)
    (h : (dfs w fuel v A T).1 = false) : ¬Bad w A v := by
  induction fuel generalizing v A T with
  | zero => exact absurd hfuel (Nat.not_lt_zero _)
  | succ fuel ih =>
    refine not_bad_of_succ fun n hn => ?_
    obtain ⟨hnA, T', hT'⟩ := dfs_succ_not_found h n hn
    have hlt : (U \ (v :: A).toFinset).card < (U \ A.toFinset).card := by
      apply Finset.card_lt_card
      refine Finset.ssubset_iff_subset_ne.mpr ⟨fun x hx => ?_, fun heq => ?_⟩
      · simp only [Finset.mem_sdiff, List.mem_toFinset, List.mem_cons, not_or] at hx ⊢
        exact ⟨hx.1, hx.2.2⟩
      · have : v ∈ U \ A.toFinset := by simp [hv, hvA]
        rw [← heq] at this
        simp at this
    exact ⟨hnA, ih (hU v n hn) hnA (by omega) hT'⟩

end Dfs

/-! ## `HasCycle` -/

namespace WaitsForGraph

variable {g : WaitsForGraph}

theorem minStart_some {avoid : List Int} {s : Int} (h : g.minStart avoid = some s) :
    s ∈ g.txnIds ∧ g.txnIdSet s = true ∧ s ∉ avoid := by
  have hs := List.min?_mem (fun a b => min_choice a b) h
  simp only [List.mem_filter, Bool.and_eq_true, Bool.not_eq_true', List.contains_eq_any_beq,
    List.any_eq_false, beq_iff_eq] at hs
  exact ⟨hs.1, hs.2.1, fun hmem => hs.2.2 s hmem rfl⟩

theorem minStart_none {avoid : List Int} (h : g.minStart avoid = none) {t : Int}
    (ht : t ∈ g.txnIds) (hmark : g.txnIdSet t = true) : t ∈ avoid := by
  unfold minStart at h
  rw [List.min?_eq_none_iff, List.filter_eq_nil_iff] at h
  simpa [hmark] using h t ht

/-- The search of `HasCycle` returns the stack of a search that found a cycle. -/
theorem searchFrom_found {fuel : Nat} {s : Int} {T stack : List Int}
    (h : g.searchFrom fuel s T = some stack) : FoundStack g.waitsFor stack := by
  induction fuel generalizing s T with
  | zero => cases h
  | succ fuel ih =>
    simp only [searchFrom] at h
    split at h
    · rename_i hr
      cases h
      exact dfs_found (List.chain'_singleton _) hr
    · split at h
      · cases h
      · exact ih h

/-- The transactions marked 1 and not yet visited: the starts left to `HasCycle`. -/
def starts (g : WaitsForGraph) (T : List Int) : Finset Int :=
  g.txnIds.toFinset.filter fun t => g.txnIdSet t = true ∧ t ∉ T

/-- When the search of `HasCycle` finds no cycle, no marked transaction reaches one, provided the
fuel exceeds the starts left and every edge ends at a known transaction. -/
theorem searchFrom_none (htarget : ∀ x y, y ∈ g.waitsFor x → y ∈ g.txnIds) {fuel : Nat}
    {s : Int} {T : List Int} (hs : s ∈ g.starts T) (hT : ∀ x ∈ T, ¬ReachesCycle g.waitsFor x)
    (hfuel : (g.starts T).card < fuel) (h : g.searchFrom fuel s T = none) :
    ∀ t ∈ g.txnIds, g.txnIdSet t = true → ¬ReachesCycle g.waitsFor t := by
  induction fuel generalizing s T with
  | zero => exact absurd hfuel (Nat.not_lt_zero _)
  | succ fuel ih =>
    simp only [starts, Finset.mem_filter, List.mem_toFinset] at hs
    simp only [searchFrom] at h
    split at h
    · cases h
    · rename_i hr
      have hfound : (dfs g.waitsFor (g.txnIds.length + 1) s [] T).1 = false := by simpa using hr
      have hsclean : ¬ReachesCycle g.waitsFor s :=
        not_reachesCycle_of_not_bad (not_bad_of_dfs (U := g.txnIds.toFinset)
          (fun x y hy => List.mem_toFinset.mpr (htarget x y hy)) (List.mem_toFinset.mpr hs.1)
          (List.not_mem_nil _) (by simpa using Nat.lt_succ_of_le (List.toFinset_card_le _)) hfound)
      obtain ⟨hsound, hsub, hstart⟩ := @dfs_traversed g.waitsFor (g.txnIds.length + 1) s [] T
      have hclean : ∀ x ∈ (dfs g.waitsFor (g.txnIds.length + 1) s [] T).2.2,
          ¬ReachesCycle g.waitsFor x := fun x hx hcyc =>
        (hsound x hx).elim (fun hxT => hT x hxT hcyc)
          fun hsx => hsclean (hcyc.of_reflTransGen hsx)
      split at h
      · rename_i hnone
        exact fun t ht hmark => hclean t (minStart_none hnone ht hmark)
      · rename_i s' hsome
        obtain ⟨hs'₁, hs'₂, hs'₃⟩ := minStart_some hsome
        refine ih (by simp [starts, hs'₁, hs'₂, hs'₃]) hclean ?_ h
        have hlt : g.starts (dfs g.waitsFor (g.txnIds.length + 1) s [] T).2.2 ⊂ g.starts T := by
          refine Finset.ssubset_iff_subset_ne.mpr ⟨fun x hx => ?_, fun heq => ?_⟩
          · simp only [starts, Finset.mem_filter] at hx ⊢
            exact ⟨hx.1, hx.2.1, fun hxT => hx.2.2 (hsub x hxT)⟩
          · have : s ∈ g.starts T := by simp [starts, hs.1, hs.2.1, hs.2.2]
            rw [← heq] at this
            simp only [starts, Finset.mem_filter] at this
            exact this.2.2 (hstart (Nat.succ_pos _))
        have := Finset.card_lt_card hlt
        omega

/-- A victim of `HasCycle` reaches a cycle, and loses its mark. -/
theorem hasCycle_some {v : Int} {g' : WaitsForGraph} (h : g.hasCycle = some (v, g')) :
    ReachesCycle g.waitsFor v ∧ g' = { g with txnIdSet := Function.update g.txnIdSet v false } := by
  unfold hasCycle at h
  split at h
  · cases h
  · split at h
    · cases h
    · rename_i stack hstack
      obtain ⟨v', hv', heq⟩ := Option.map_eq_some'.mp h
      cases heq
      exact ⟨(searchFrom_found hstack).reachesCycle (List.max?_mem (fun a b => max_choice a b) hv'), rfl⟩

/-- When `HasCycle` returns false, the graph has no cycle, provided every edge leaves a marked
transaction and ends at a known one. -/
theorem hasCycle_none (htarget : ∀ x y, y ∈ g.waitsFor x → y ∈ g.txnIds)
    (hsource : ∀ x, g.waitsFor x ≠ [] → x ∈ g.txnIds ∧ g.txnIdSet x = true) (h : g.hasCycle = none)
    (x : Int) : ¬OnCycle g.waitsFor x := by
  intro hx
  obtain ⟨hxmem, hxmark⟩ := hsource x hx.reachesCycle.ne_nil
  unfold hasCycle at h
  split at h
  · rename_i hnone
    exact List.not_mem_nil _ (minStart_none hnone hxmem hxmark)
  · rename_i s hs
    obtain ⟨hs₁, hs₂, -⟩ := minStart_some hs
    split at h
    · rename_i hsearch
      refine searchFrom_none htarget (by simp [starts, hs₁, hs₂]) (fun _ h => absurd h (List.not_mem_nil _)) ?_
        hsearch x hxmem hxmark hx.reachesCycle
      calc (g.starts []).card ≤ g.txnIds.toFinset.card := Finset.card_filter_le _ _
        _ ≤ g.txnIds.length := List.toFinset_card_le _
        _ < g.txnIds.length + 1 := Nat.lt_succ_self _
    · rename_i stack hstack
      obtain ⟨top, rest, rfl, -⟩ := searchFrom_found hstack
      simp at h

end WaitsForGraph

end Bustub
