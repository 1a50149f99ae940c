import Bustub.Execution.Executors

/-!
# The hash join is the nested-loop join

The join of two children over a predicate takes each left tuple in the left child's order, joins
it to every right tuple the predicate accepts, in the right child's order, and on a left join
pads it once with NULLs when there is none (`joinOutput`).

*Draining an executor.*  What the `Next` calls from a state still yield is its *pending* output.
When every call from a good state yields the head of its pending output and leaves the tail
pending in a good state (`YieldsHead`), `Next` calls until false yield all of it
(`drain_eq_pending`).

*The nested-loop join.*  Between calls, the executor holds a left tuple, the right tuples it has
still to try against it and whether one matched; its pending output is what that left tuple
still contributes (`joinRest`) and the join of the left tuples to come.  Each round of the
`while (true)` loop tries one right tuple or moves to the next left tuple, so the loop ends
within a full pass over the right child per left tuple (`NestedLoopJoinExecutor.loop_yields`),
and for every predicate `Init` and `Next` until false yield the join
(`NestedLoopJoinExecutor.drain_eq_joinOutput`).

*The hash join.*  When the key comparison is symmetric and transitive, `Init` leaves in
`right_hash_map_` as the bucket of every key the right tuples whose key it equals, in order
(`HashJoinExecutor.bucket_init`).  A call then yields the next tuple of the current left tuple's
bucket, or moves to the next left tuple, and `Init` and `Next` until false yield the join over
the predicate "the left key equals the right key" (`HashJoinExecutor.drain_eq_joinOutput`).

*Join keys.*  `JoinKey::operator==` is symmetric and transitive, and a NULL key equals no key,
so over keys of one type the two executors yield the same tuples
(`hashJoin_eq_nestedLoopJoin`).
-/

namespace Bustub

variable {Tuple : Type}

/-! ## The join -/

/-- The join of `left` and `right` over `predicate`: each left tuple joined to the right tuples
the predicate accepts, and on a left join padded once when there is none. -/
def joinOutput (predicate : Tuple → Tuple → Bool) (plan : JoinPlan Tuple)
    (left right : List Tuple) : List Tuple :=
  left.flatMap fun l =>
    (right.filter (predicate l)).map (plan.joined l) ++
      if plan.joinType = .left ∧ right.any (predicate l) = false then [plan.padded l] else []

/-- What the left tuple `l` still contributes to the join when the right tuples `rest` are still
to be tried and `isMatched` says whether an earlier one matched. -/
def joinRest (predicate : Tuple → Tuple → Bool) (plan : JoinPlan Tuple) (l : Tuple)
    (rest : List Tuple) (isMatched : Bool) : List Tuple :=
  (rest.filter (predicate l)).map (plan.joined l) ++
    if plan.joinType = .left ∧ (isMatched || rest.any (predicate l)) = false then [plan.padded l]
    else []

section Join

variable {predicate : Tuple → Tuple → Bool} {plan : JoinPlan Tuple} {l t : Tuple}
  {left right rest : List Tuple} {isMatched : Bool}

@[simp]
theorem joinOutput_nil : joinOutput predicate plan [] right = [] := rfl

theorem joinOutput_cons :
    joinOutput predicate plan (l :: left) right =
      joinRest predicate plan l right false ++ joinOutput predicate plan left right := by
  simp [joinOutput, joinRest]

/-- One right tuple tried: joined when the predicate accepts it, which marks a match. -/
theorem joinRest_cons :
    joinRest predicate plan l (t :: rest) isMatched =
      if predicate l t then plan.joined l t :: joinRest predicate plan l rest true
      else joinRest predicate plan l rest isMatched := by
  by_cases h : predicate l t <;> simp [joinRest, h]

theorem joinRest_nil :
    joinRest predicate plan l [] isMatched =
      if plan.joinType = .left ∧ isMatched = false then [plan.padded l] else [] := by
  simp [joinRest]

theorem joinRest_false_of_filter_nil (hf : right.filter (predicate l) = []) :
    joinRest predicate plan l right false =
      if plan.joinType = .left then [plan.padded l] else [] := by
  have : right.any (predicate l) = false := List.any_eq_false.mpr (List.filter_eq_nil_iff.mp hf)
  simp [joinRest, hf, this]

theorem joinRest_false_of_filter_cons {r : Tuple} (hf : right.filter (predicate l) = r :: rest) :
    joinRest predicate plan l right false = plan.joined l r :: rest.map (plan.joined l) := by
  have hr := List.mem_filter.mp (hf ▸ List.mem_cons_self r rest)
  have : right.any (predicate l) = true := List.any_eq_true.mpr ⟨r, hr⟩
  simp [joinRest, hf, this]

theorem length_joinRest_le : (joinRest predicate plan l right false).length ≤ right.length + 1 := by
  unfold joinRest
  have := List.length_filter_le (predicate l) right
  split_ifs <;> simp only [List.length_append, List.length_map, List.length_cons,
    List.length_nil] <;> omega

theorem length_joinOutput_le :
    (joinOutput predicate plan left right).length ≤ left.length * (right.length + 1) := by
  induction left with
  | nil => simp
  | cons l left ih =>
    rw [joinOutput_cons, List.length_append, List.length_cons, Nat.succ_mul]
    have : (joinRest predicate plan l right false).length ≤ right.length + 1 := length_joinRest_le
    omega

end Join

/-! ## Draining an executor -/

section Drain

variable {S : Type} (Good : S → Prop) (pending : S → List Tuple)

/-- A `Next` call's result `r` from a state whose pending output is `out`: it yields the head of
`out`, and when `out` has one it leaves the tail pending in a good state. -/
def YieldsHead (r : Option Tuple × S) (out : List Tuple) : Prop :=
  r.1 = out.head? ∧ (out ≠ [] → Good r.2 ∧ pending r.2 = out.tail)

variable {Good pending}

theorem yieldsHead_nil {r : Option Tuple × S} (h : r.1 = none) : YieldsHead Good pending r [] :=
  ⟨h, fun h => absurd rfl h⟩

theorem yieldsHead_cons {r : Option Tuple × S} {t : Tuple} {out : List Tuple}
    (h : r = (some t, r.2)) (hgood : Good r.2) (hout : pending r.2 = out) :
    YieldsHead Good pending r (t :: out) :=
  ⟨by rw [h]; rfl, fun _ => ⟨hgood, hout⟩⟩

/-- `Next` calls until false yield the pending output, given more calls than it has tuples. -/
theorem drain_eq_pending {next : S → Option Tuple × S}
    (hstep : ∀ s, Good s → YieldsHead Good pending (next s) (pending s)) :
    ∀ n s, Good s → (pending s).length < n → drain next n s = pending s
  | 0, _, _, hn => absurd hn (Nat.not_lt_zero _)
  | n + 1, s, hs, hn => by
    obtain ⟨hhead, htail⟩ := hstep s hs
    rcases hr : next s with ⟨o, s'⟩
    rw [hr] at hhead htail
    rcases hp : pending s with _ | ⟨t, rest⟩
    · rw [hp] at hhead
      simp only [drain, hr, show o = none from hhead]
    · rw [hp] at hhead htail hn
      obtain ⟨hs', hrest⟩ := htail (List.cons_ne_nil _ _)
      obtain rfl : o = some t := hhead
      have hlen : (pending s').length < n := by
        rw [hrest]
        simpa using hn
      simp only [drain, hr, drain_eq_pending hstep n s' hs' hlen, hrest, List.tail_cons]

end Drain

/-! ## The nested-loop join -/

theorem Child.next_of_rest_nil {c : Child Tuple} (h : c.rest = []) : c.next = (none, c) := by
  simp [Child.next, h]

theorem Child.next_of_rest_cons {c : Child Tuple} {t : Tuple} {rest : List Tuple}
    (h : c.rest = t :: rest) : c.next = (some t, { c with rest := rest }) := by
  simp [Child.next, h]

namespace NestedLoopJoinExecutor

variable (predicate : Tuple → Tuple → Bool) (plan : JoinPlan Tuple)

/-- What the `Next` calls from a state yield: nothing once `has_no_tuple_` is set; before the first
left tuple is read, the join of the left tuples to come; on a left tuple, what it still
contributes and the join of the left tuples to come. -/
def pending (s : NestedLoopJoinExecutor Tuple) : List Tuple :=
  if s.hasNoTuple then []
  else match s.leftIsInitialized, s.leftTuple with
    | true, some l =>
      joinRest predicate plan l s.right.rest s.isMatched ++
        joinOutput predicate plan s.left.rest s.right.output
    | _, _ => joinOutput predicate plan s.left.rest s.right.output

variable (ls rs : List Tuple)

/-- The states of a run from `Init` over the children's outputs `ls` and `rs`: the children read
suffixes of them, an exhausted right child has nothing left, and before the first left tuple the
right child and the flags are as `Init` left them. -/
structure Good (s : NestedLoopJoinExecutor Tuple) : Prop where
  right_output : s.right.output = rs
  left_suffix : s.left.rest <:+ ls
  right_suffix : s.right.rest <:+ rs
  exhausted : s.rightIsNeedInitialized = true → s.right.rest = []
  unstarted : s.leftIsInitialized = false →
    s.right.rest = rs ∧ s.rightIsNeedInitialized = false ∧ s.isMatched = false
  started : s.leftIsInitialized = true → s.leftTuple.isSome

variable {predicate plan ls rs}

@[simp]
theorem pending_started {left right : Child Tuple} {l : Tuple} {isMatched need : Bool} :
    pending predicate plan ⟨left, right, some l, isMatched, true, need, false⟩ =
      joinRest predicate plan l right.rest isMatched ++
        joinOutput predicate plan left.rest right.output := rfl

theorem Good.setMatched {s : NestedLoopJoinExecutor Tuple} (hs : Good ls rs s)
    (h : s.leftIsInitialized = true) (b : Bool) : Good ls rs { s with isMatched := b } :=
  { hs with unstarted := fun h' => absurd (h.symm.trans h') Bool.noConfusion }

/-- The right tuple `t` tried against the left tuple `l` (`tryMatch`), the loop going on when it
does not match: the call yields what `l` still contributes with `t` still to try. -/
theorem tryMatch_yields {fuel : Nat} {left right : Child Tuple} {l t : Tuple} {isMatched need : Bool}
    (hs : Good ls rs ⟨left, right, some l, isMatched, true, need, false⟩)
    (hloop : YieldsHead (Good ls rs) (pending predicate plan)
      (loop predicate plan fuel (some t) ⟨left, right, some l, isMatched, true, need, false⟩)
      (joinRest predicate plan l right.rest isMatched ++
        joinOutput predicate plan left.rest right.output)) :
    YieldsHead (Good ls rs) (pending predicate plan)
      ((tryMatch predicate plan (some t) ⟨left, right, some l, isMatched, true, need, false⟩).getD
        (loop predicate plan fuel (some t) ⟨left, right, some l, isMatched, true, need, false⟩))
      (joinRest predicate plan l (t :: right.rest) isMatched ++
        joinOutput predicate plan left.rest right.output) := by
  rw [joinRest_cons]
  by_cases hp : predicate l t
  · simp only [tryMatch, hp, if_true, Option.getD_some, List.cons_append]
    exact yieldsHead_cons rfl (hs.setMatched rfl true) pending_started
  · simpa only [tryMatch, hp, Bool.false_eq_true, if_false, Option.getD_none] using hloop

variable (predicate plan ls rs) in
/-- The `while (true)` loop of `Next` with `fuel` rounds, from a left tuple: it yields the head of
the pending output when the rounds cover the right tuples still to try, plus one, plus a full
pass over the right child for each left tuple to come. -/
def LoopYields (fuel : Nat) : Prop :=
  ∀ (rightTuple : Option Tuple) (s : NestedLoopJoinExecutor Tuple),
    Good ls rs s → s.hasNoTuple = false → s.leftIsInitialized = true →
    (rightTuple.isSome → rs ≠ []) →
    s.right.rest.length + 1 + s.left.rest.length * (rs.length + 1) ≤ fuel →
    YieldsHead (Good ls rs) (pending predicate plan) (loop predicate plan fuel rightTuple s)
      (pending predicate plan s)

/-- The move to the next left tuple `l'`: the right child restarts and its first tuple, if any,
is tried against `l'`, the loop going on from there. -/
theorem advance_yields {fuel : Nat} {rightTuple : Option Tuple} {left right : Child Tuple}
    {l' : Tuple} {rest' : List Tuple} (ih : LoopYields predicate plan ls rs fuel)
    (hleft : left.rest = l' :: rest') (hls : left.rest <:+ ls) (hright : right.output = rs)
    (hrt : rightTuple.isSome → rs ≠ [])
    (hbound : rs.length + 1 + rest'.length * (rs.length + 1) ≤ fuel) :
    YieldsHead (Good ls rs) (pending predicate plan)
      ((tryMatch predicate plan (right.init.next.1.orElse fun _ => rightTuple)
          ⟨⟨left.output, rest'⟩, right.init.next.2, some l', false, true, false, false⟩).getD
        (loop predicate plan fuel (right.init.next.1.orElse fun _ => rightTuple)
          ⟨⟨left.output, rest'⟩, right.init.next.2, some l', false, true, false, false⟩))
      (joinOutput predicate plan (l' :: rest') right.output) := by
  have hs : ∀ c : Child Tuple, c.output = rs → c.rest <:+ rs →
      Good ls rs ⟨⟨left.output, rest'⟩, c, some l', false, true, false, false⟩ := fun c h₁ h₂ =>
    { right_output := h₁
      left_suffix := (List.suffix_cons l' rest').trans (hleft ▸ hls)
      right_suffix := h₂
      exhausted := fun h => Bool.noConfusion h
      unstarted := fun h => Bool.noConfusion h
      started := fun _ => rfl }
  obtain ⟨rout, rrest⟩ := right
  dsimp only at hright
  subst rs
  rw [joinOutput_cons]
  rcases rout with _ | ⟨r0, rs'⟩
  · -- No right tuple: the loop goes on, `right_tuple` still empty.
    obtain rfl : rightTuple = none := Option.not_isSome_iff_eq_none.mp fun h => hrt h rfl
    exact ih none _ (hs _ rfl List.nil_suffix) rfl rfl (fun h => Bool.noConfusion h)
      (by simpa using hbound)
  · have hs' := hs ⟨r0 :: rs', rs'⟩ rfl (List.suffix_cons r0 rs')
    exact tryMatch_yields hs' (ih (some r0) _ hs' rfl rfl (fun _ => List.cons_ne_nil _ _)
      (by simp only [Child.init, Child.next, List.length_cons] at hbound ⊢; omega))

variable (predicate plan) in
theorem loop_yields : ∀ fuel, LoopYields predicate plan ls rs fuel
  | 0 => fun _ _ _ _ _ _ hfuel => absurd hfuel (by omega)
  | fuel + 1 => by
    rintro rightTuple ⟨left, right, _ | l, isMatched, leftIsInitialized, need, hasNoTuple⟩ hs h₁ h₂
      hrt hfuel
    · exact absurd (hs.started h₂) Bool.noConfusion
    subst h₁ h₂
    rw [pending_started]
    dsimp only at hfuel
    rcases hrest : right.rest with _ | ⟨t, rest⟩
    · -- The right child has nothing left: pad the left tuple, or move to the next one.
      simp only [loop, Child.next_of_rest_nil hrest, Option.isSome_none, Bool.and_false,
        Bool.false_eq_true, if_false, ite_self]
      by_cases hpad : plan.joinType = .left ∧ isMatched = false
      · obtain ⟨hleft, rfl⟩ := hpad
        simp only [Bool.not_false, hleft, Bool.and_self, if_true, Option.map_some', joinRest_nil,
          and_self, List.singleton_append]
        refine yieldsHead_cons rfl
          { hs with exhausted := fun _ => hrest, unstarted := fun h => Bool.noConfusion h } ?_
        simp [hrest, joinRest_nil]
      · rw [joinRest_nil, if_neg hpad, List.nil_append, if_neg (by simpa [and_comm] using hpad)]
        rcases hleft : left.rest with _ | ⟨l', rest'⟩
        · simp only [Child.next_of_rest_nil hleft, joinOutput_nil]
          exact yieldsHead_nil rfl
        · simp only [Child.next_of_rest_cons hleft]
          refine advance_yields (loop_yields fuel) hleft hs.left_suffix hs.right_output
            (hs.right_output ▸ hrt) ?_
          rw [hrest, hleft, List.length_cons, Nat.succ_mul] at hfuel
          simp only [List.length_nil] at hfuel
          omega
    · -- The next right tuple is tried.
      obtain rfl : need = false := by
        cases need
        · rfl
        · exact absurd (hrest.symm.trans (hs.exhausted rfl)) (List.cons_ne_nil _ _)
      have hs₁ : Good ls rs ⟨left, { right with rest := rest }, some l, isMatched, true, false, false⟩ :=
        { hs with
          right_suffix := (List.suffix_cons t rest).trans (hrest ▸ hs.right_suffix)
          exhausted := fun h => Bool.noConfusion h
          unstarted := fun h => Bool.noConfusion h }
      simp only [loop, Child.next_of_rest_cons hrest, Bool.not_false, Option.isSome_some,
        Bool.and_self, if_true]
      refine tryMatch_yields hs₁ (loop_yields fuel (some t) _ hs₁ rfl rfl ?_ ?_)
      · exact fun _ => List.ne_nil_of_mem (hs.right_suffix.subset (hrest ▸ List.mem_cons_self t rest))
      · simp only [hrest, List.length_cons] at hfuel
        simp only
        omega

theorem Good.cost_le {s : NestedLoopJoinExecutor Tuple} (hs : Good ls rs s) :
    s.right.rest.length + 1 + s.left.rest.length * (rs.length + 1) ≤
      (ls.length + 1) * (rs.length + 1) := by
  have := Nat.mul_le_mul_right (rs.length + 1) hs.left_suffix.length_le
  have := hs.right_suffix.length_le
  rw [Nat.succ_mul]
  omega

/-- A `Next` call from a state of a run yields the head of its pending output, given a full pass
over the right child per left tuple, plus one, as rounds of its loop. -/
theorem next_yields {fuel : Nat} (hfuel : (ls.length + 1) * (rs.length + 1) ≤ fuel)
    (s : NestedLoopJoinExecutor Tuple) (hs : Good ls rs s) :
    YieldsHead (Good ls rs) (pending predicate plan) (next predicate plan fuel s)
      (pending predicate plan s) := by
  obtain ⟨left, right, leftTuple, isMatched, _ | _, need, _ | _⟩ := s
  · -- Before the first left tuple.
    obtain ⟨hrest, rfl, rfl⟩ := hs.unstarted rfl
    rcases hleft : left.rest with _ | ⟨l, rest⟩
    · simp only [next, Child.next_of_rest_nil hleft, pending, hleft, joinOutput_nil]
      exact yieldsHead_nil rfl
    · have hs₁ : Good ls rs ⟨⟨left.output, rest⟩, right, some l, false, true, false, false⟩ :=
        { hs with
          left_suffix := (List.suffix_cons l rest).trans (hleft ▸ hs.left_suffix)
          exhausted := fun h => Bool.noConfusion h
          unstarted := fun h => Bool.noConfusion h
          started := fun _ => rfl }
      have hp : pending predicate plan ⟨left, right, leftTuple, false, false, false, false⟩ =
          pending predicate plan ⟨⟨left.output, rest⟩, right, some l, false, true, false, false⟩ := by
        dsimp only at hrest
        rw [pending_started, hrest, ← hs.right_output, ← joinOutput_cons, ← hleft]
        rfl
      simp only [next, Bool.false_eq_true, if_false, Child.next_of_rest_cons hleft, hp]
      exact loop_yields predicate plan fuel none _ hs₁ rfl rfl (fun h => Bool.noConfusion h)
        (hs₁.cost_le.trans hfuel)
  · simp only [next, pending, if_true]
    exact yieldsHead_nil rfl
  · -- On a left tuple.
    obtain ⟨l, rfl⟩ := Option.isSome_iff_exists.mp (hs.started rfl)
    exact loop_yields predicate plan fuel none _ hs rfl rfl (fun h => Bool.noConfusion h)
      (hs.cost_le.trans hfuel)
  · simp only [next, pending, if_true]
    exact yieldsHead_nil rfl

theorem good_init (ls rs : List Tuple) : Good ls rs (create ls rs).init where
  right_output := rfl
  left_suffix := List.suffix_refl ls
  right_suffix := List.suffix_refl rs
  exhausted h := Bool.noConfusion h
  unstarted _ := ⟨rfl, rfl, rfl⟩
  started h := Bool.noConfusion h

/-- For every predicate, `Init` and `Next` until false yield the join, given a full pass over the
right child per left tuple, plus one, as rounds of the loop of each call, and more calls than the
join has tuples. -/
theorem drain_eq_joinOutput {fuel n : Nat} (hfuel : (ls.length + 1) * (rs.length + 1) ≤ fuel)
    (hn : (joinOutput predicate plan ls rs).length < n) :
    drain (next predicate plan fuel) n (create ls rs).init = joinOutput predicate plan ls rs :=
  drain_eq_pending (next_yields hfuel) n _ (good_init ls rs) hn

end NestedLoopJoinExecutor

/-! ## The hash join -/

/-- The hash join's predicate: the left tuple's key `==` the right tuple's. -/
def HashJoinKeys.keysEqual {Key : Type} [BEq Key] (keys : HashJoinKeys Tuple Key) (l r : Tuple) :
    Bool :=
  keys.leftJoinKey l == keys.rightJoinKey r

namespace HashJoinExecutor

variable {Key : Type} [BEq Key]

section Buckets

/-! ### The buckets of `right_hash_map_`

With a key comparison that is symmetric and transitive, at most one bucket's key `==` a given
key, and the bucket of a key holds the right tuples whose key it `==`.  A key `==` to no key,
NULL among them, has no bucket, and a right tuple with such a key lands in a bucket no lookup
finds. -/

theorem find?_map_of_fst {map : List (Key × List Tuple)} {g : Key × List Tuple → Key × List Tuple}
    (hg : ∀ e, (g e).1 = e.1) (k : Key) :
    (map.map g).find? (fun e => k == e.1) = (map.find? fun e => k == e.1).map g := by
  rw [List.find?_map]
  congr
  funext e
  simp [hg]

variable (hsymm : ∀ a b : Key, (a == b) = (b == a))
  (htrans : ∀ a b c : Key, (a == b) = true → (b == c) = true → (a == c) = true)
include hsymm htrans

/-- A right tuple goes to the end of the bucket of every key that `==` its key. -/
theorem bucket_insertRight (map : List (Key × List Tuple)) (key k : Key) (t : Tuple) :
    bucket (insertRight map key t) k = bucket map k ++ if k == key then [t] else [] := by
  unfold insertRight
  by_cases hany : (map.any fun e => key == e.1) = true
  · -- `key` has a bucket: `t` joins it.
    obtain ⟨e₀, he₀, hk₀⟩ := List.any_eq_true.mp hany
    rw [if_pos hany, bucket, bucket, find?_map_of_fst fun e => by split <;> rfl]
    rcases hf : map.find? (fun e => k == e.1) with _ | e
    · have hk : (k == key) = false := Bool.eq_false_iff.mpr fun h =>
        List.find?_eq_none.mp hf e₀ he₀ (htrans _ _ _ h hk₀)
      simp [hk, hf]
    · have hk : (k == e.1) = true := by simpa using List.find?_some hf
      by_cases h : (k == key) = true
      · have : (key == e.1) = true := htrans _ _ _ ((hsymm key k).trans h) hk
        simp [h, hf, this]
      · have : (key == e.1) ≠ true := fun h' => h (htrans _ _ _ hk ((hsymm e.1 key).trans h'))
        simp [h, hf, this]
  · -- No bucket for `key`: a new one holds `t`.
    rw [if_neg hany, bucket, bucket, List.find?_append]
    rcases hf : map.find? (fun e => k == e.1) with _ | e
    · by_cases h : (k == key) = true <;> simp [h, hf]
    · have hk : (k == key) = false := Bool.eq_false_iff.mpr fun h => hany (List.any_eq_true.mpr
        ⟨e, List.mem_of_find?_eq_some hf,
          htrans _ _ _ ((hsymm key k).trans h) (by simpa using List.find?_some hf)⟩)
      simp [hk, hf]

/-- `Init` leaves as the bucket of every key the right tuples whose key it `==`, in order. -/
theorem bucket_init (keys : HashJoinKeys Tuple Key) (right : List Tuple) :
    ∀ (pre : List Tuple) (map : List (Key × List Tuple)),
      (∀ k, bucket map k = pre.filter fun r => k == keys.rightJoinKey r) →
      ∀ k, bucket (right.foldl (fun map t => insertRight map (keys.rightJoinKey t) t) map) k =
        (pre ++ right).filter fun r => k == keys.rightJoinKey r := by
  induction right with
  | nil => simp
  | cons t right ih =>
    intro pre map hmap
    rw [List.foldl_cons, ← List.singleton_append, ← List.append_assoc]
    refine ih _ _ fun k => ?_
    rw [bucket_insertRight hsymm htrans, hmap, List.filter_append]
    by_cases h : (k == keys.rightJoinKey t) = true <;> simp [h]

end Buckets

variable (keys : HashJoinKeys Tuple Key) (plan : JoinPlan Tuple) (ls rs : List Tuple)

/-- What the `Next` calls from a state yield: on a left tuple with `current_index_` at `i`, its
matches from the `i`-th on and the join of the left tuples to come; otherwise the join of the
left tuples to come. -/
def pending (s : HashJoinExecutor Tuple Key) : List Tuple :=
  match s.currentIndex, s.leftTuple with
  | some i, some l =>
    ((rs.filter (keys.keysEqual l)).drop i).map (plan.joined l) ++
      joinOutput keys.keysEqual plan s.left.rest rs
  | _, _ => joinOutput keys.keysEqual plan s.left.rest rs

/-- The states of a run from `Init` over the children's outputs `ls` and `rs`: the bucket of every
key holds the right tuples whose key it `==`, the left child reads a suffix of `ls`, and once
`current_index_` is set, `left_join_key_` is the key of `left_tuple_`. -/
structure Good (s : HashJoinExecutor Tuple Key) : Prop where
  buckets : ∀ k, bucket s.rightHashMap k = rs.filter fun r => k == keys.rightJoinKey r
  left_suffix : s.left.rest <:+ ls
  current : ∀ i, s.currentIndex = some i →
    ∃ l, s.leftTuple = some l ∧ s.leftJoinKey = some (keys.leftJoinKey l)

variable {keys plan ls rs}

@[simp]
theorem pending_current {left right : Child Tuple} {map : List (Key × List Tuple)} {i : Nat}
    {isMatched : Bool} {l : Tuple} {leftJoinKey : Option Key} :
    pending keys plan rs ⟨left, right, map, some i, isMatched, some l, leftJoinKey⟩ =
      ((rs.filter (keys.keysEqual l)).drop i).map (plan.joined l) ++
        joinOutput keys.keysEqual plan left.rest rs := rfl

theorem Good.bucket_leftJoinKey {s : HashJoinExecutor Tuple Key} (hs : Good keys ls rs s)
    (l : Tuple) : bucket s.rightHashMap (keys.leftJoinKey l) = rs.filter (keys.keysEqual l) :=
  hs.buckets _

theorem next_yields : ∀ fuel (s : HashJoinExecutor Tuple Key), Good keys ls rs s →
    s.left.rest.length < fuel →
    YieldsHead (Good keys ls rs) (pending keys plan rs) (next keys plan fuel s)
      (pending keys plan rs s)
  | 0, _, _, hfuel => absurd hfuel (Nat.not_lt_zero _)
  | fuel + 1, ⟨left, right, map, currentIndex, isMatched, leftTuple, leftJoinKey⟩, hs, hfuel => by
    by_cases hcur : ∃ i l, currentIndex = some i ∧ leftTuple = some l ∧
        i < (rs.filter (keys.keysEqual l)).length
    · -- The next tuple of the current left tuple's bucket.
      obtain ⟨i, l, rfl, rfl, hi⟩ := hcur
      obtain ⟨_, ⟨⟩, rfl⟩ := hs.current i rfl
      have hb := hs.bucket_leftJoinKey l
      have hmatch : (keys.leftJoinKey l == keys.rightJoinKey _) = true :=
        (List.mem_filter.mp (List.getElem_mem hi)).2
      simp only [next, hb, List.getElem?_eq_getElem hi, decide_eq_true_eq, Nat.not_le.mpr hi,
        if_false, if_pos hmatch]
      rw [pending_current, List.drop_eq_getElem_cons hi, List.map_cons, List.cons_append]
      exact yieldsHead_cons rfl { hs with current := fun _ _ => ⟨l, rfl, rfl⟩ } rfl
    · -- The current left tuple is done: move to the next one.
      have hp : pending keys plan rs ⟨left, right, map, currentIndex, isMatched, leftTuple, leftJoinKey⟩ =
          joinOutput keys.keysEqual plan left.rest rs := by
        rcases currentIndex with _ | i
        · rfl
        · obtain ⟨l, rfl, -⟩ := hs.current i rfl
          rw [pending_current, List.drop_of_length_le (Nat.not_lt.mp fun h => hcur ⟨i, l, rfl, rfl, h⟩)]
          rfl
      have hflag : ∀ i key, currentIndex = some i → leftJoinKey = some key →
          (bucket map key).length ≤ i := by
        rintro i key rfl rfl
        obtain ⟨l, rfl, ⟨⟩⟩ := hs.current i rfl
        rw [hs.bucket_leftJoinKey l]
        exact Nat.not_lt.mp fun h => hcur ⟨i, l, rfl, rfl, h⟩
      rw [hp]
      rcases hleft : left.rest with _ | ⟨l, rest⟩
      · cases currentIndex <;> cases leftJoinKey <;>
          simp [next, Child.next_of_rest_nil hleft, hflag] <;> exact yieldsHead_nil rfl
      · rw [joinOutput_cons]
        have hb := hs.bucket_leftJoinKey l
        have hs₁ : ∀ i m, Good keys ls rs
            ⟨⟨left.output, rest⟩, right, map, some i, m, some l, some (keys.leftJoinKey l)⟩ :=
          fun _ _ =>
            { buckets := hs.buckets
              left_suffix := (List.suffix_cons l rest).trans (hleft ▸ hs.left_suffix)
              current := fun _ _ => ⟨l, rfl, rfl⟩ }
        rcases hf : rs.filter (keys.keysEqual l) with _ | ⟨r, rs'⟩
        · rw [joinRest_false_of_filter_nil hf]
          by_cases hj : plan.joinType = .left
          · -- No match on a left join: pad.
            rw [if_pos hj]
            cases currentIndex <;> cases leftJoinKey <;>
              simp [next, Child.next_of_rest_cons hleft, hflag, hb, hf, hj] <;>
              exact yieldsHead_cons rfl (hs₁ 0 false) (by simp [hf])
          · -- No match on an inner join: the loop goes on to the next left tuple.
            rw [if_neg hj, List.nil_append]
            have := next_yields fuel _ (hs₁ 0 false) (by
              simp only [hleft, List.length_cons] at hfuel
              exact Nat.lt_of_succ_lt_succ hfuel)
            cases currentIndex <;> cases leftJoinKey <;>
              simpa [next, Child.next_of_rest_cons hleft, hflag, hb, hf, hj] using this
        · -- The first match.
          rw [joinRest_false_of_filter_cons hf]
          have hmatch : (keys.leftJoinKey l == keys.rightJoinKey r) = true :=
            (List.mem_filter.mp (hf ▸ List.mem_cons_self r rs' : r ∈ rs.filter (keys.keysEqual l))).2
          cases currentIndex <;> cases leftJoinKey <;>
            simp [next, Child.next_of_rest_cons hleft, hflag, hb, hf, hmatch] <;>
            exact yieldsHead_cons rfl (hs₁ 1 true) (by simp [hf])

theorem good_init (hsymm : ∀ a b : Key, (a == b) = (b == a))
    (htrans : ∀ a b c : Key, (a == b) = true → (b == c) = true → (a == c) = true)
    (keys : HashJoinKeys Tuple Key) (ls rs : List Tuple) :
    Good keys ls rs ((create ls rs).init keys) where
  buckets := bucket_init hsymm htrans keys rs [] [] fun _ => rfl
  left_suffix := List.suffix_refl ls
  current _ h := Option.noConfusion h

/-- When `==` on keys is symmetric and transitive, `Init` and `Next` until false yield the join
over "the left key `==` the right key", given one more round of the loop of each call than there
are left tuples, and more calls than the join has tuples. -/
theorem drain_eq_joinOutput (hsymm : ∀ a b : Key, (a == b) = (b == a))
    (htrans : ∀ a b c : Key, (a == b) = true → (b == c) = true → (a == c) = true)
    {fuel n : Nat} (hfuel : ls.length < fuel)
    (hn : (joinOutput keys.keysEqual plan ls rs).length < n) :
    drain (next keys plan fuel) n ((create ls rs).init keys) = joinOutput keys.keysEqual plan ls rs :=
  drain_eq_pending (fun s hs => next_yields fuel s hs (hs.left_suffix.length_le.trans_lt hfuel)) n _
    (good_init hsymm htrans keys ls rs) hn

end HashJoinExecutor

/-! ## Join keys -/

namespace JoinKey

variable {α : Type} [DecidableEq α]

/-- Two join keys are `==` exactly when they hold one non-NULL value. -/
theorem beq_iff {a b : JoinKey α} :
    (a == b) = true ↔ ∃ x, a.value = some x ∧ b.value = some x := by
  show (compareEquals a.value b.value == CmpBool.cmpTrue) = true ↔ _
  obtain ⟨_ | x⟩ := a <;> obtain ⟨_ | y⟩ := b
  · simp [compareEquals]
  · simp [compareEquals]
  · simp [compareEquals]
  · by_cases h : x = y <;> simp [compareEquals, h, Ne.symm]

theorem beq_symm (a b : JoinKey α) : (a == b) = (b == a) :=
  Bool.eq_iff_iff.mpr <| by
    simp only [beq_iff]
    exact ⟨fun ⟨x, ha, hb⟩ => ⟨x, hb, ha⟩, fun ⟨x, hb, ha⟩ => ⟨x, ha, hb⟩⟩

theorem beq_trans {a b c : JoinKey α} (h₁ : (a == b) = true) (h₂ : (b == c) = true) :
    (a == c) = true := by
  obtain ⟨x, ha, hb⟩ := beq_iff.mp h₁
  obtain ⟨y, hb', hc⟩ := beq_iff.mp h₂
  obtain rfl : x = y := Option.some.inj (hb.symm.trans hb')
  exact beq_iff.mpr ⟨x, ha, hc⟩

end JoinKey

/-- The predicate `left_key = right_key` of a nested-loop join over join keys, as the executor
evaluates it: the comparison's `CmpBool`, made a boolean value, compares equal to true only when
it is `CmpTrue`. -/
def equalKeys {α : Type} [DecidableEq α] (keys : HashJoinKeys Tuple (JoinKey α)) (l r : Tuple) :
    Bool :=
  compareEquals (keys.leftJoinKey l).value (keys.rightJoinKey r).value == .cmpTrue

/-- Over join keys of one type, `Init` and `Next` until false of `HashJoinExecutor`, and of
`NestedLoopJoinExecutor` with predicate `left_key = right_key`, yield the same tuples: each left
tuple in order joined to every right tuple whose key compares equal, in order, and on a left join
padded once when there is none.  A NULL key compares equal to no key. -/
theorem hashJoin_eq_nestedLoopJoin {α : Type} [DecidableEq α]
    (keys : HashJoinKeys Tuple (JoinKey α)) (plan : JoinPlan Tuple) (left right : List Tuple) :
    (∃ bound, ∀ n fuel, bound ≤ n → bound ≤ fuel →
      drain (HashJoinExecutor.next keys plan fuel) n ((HashJoinExecutor.create left right).init keys) =
          drain (NestedLoopJoinExecutor.next (equalKeys keys) plan fuel) n
            (NestedLoopJoinExecutor.create left right).init ∧
        drain (HashJoinExecutor.next keys plan fuel) n
            ((HashJoinExecutor.create left right).init keys) =
          joinOutput (equalKeys keys) plan left right) ∧
    ∀ l r, (keys.leftJoinKey l).value = none ∨ (keys.rightJoinKey r).value = none →
      equalKeys keys l r = false := by
  refine ⟨⟨(left.length + 1) * (right.length + 1), fun n fuel hn hfuel => ?_⟩, ?_⟩
  · have hlen : (joinOutput keys.keysEqual plan left right).length < n := by
      have : (joinOutput keys.keysEqual plan left right).length ≤ left.length * (right.length + 1) :=
        length_joinOutput_le
      rw [Nat.succ_mul] at hn
      omega
    have hleft : left.length < fuel := by
      have : left.length ≤ left.length * (right.length + 1) :=
        Nat.le_mul_of_pos_right _ (Nat.zero_lt_succ _)
      rw [Nat.succ_mul] at hfuel
      omega
    have hhash := HashJoinExecutor.drain_eq_joinOutput JoinKey.beq_symm
      (fun _ _ _ => JoinKey.beq_trans) hleft hlen
    have hnested := NestedLoopJoinExecutor.drain_eq_joinOutput hfuel
      (show (joinOutput (equalKeys keys) plan left right).length < n from hlen)
    exact ⟨hhash.trans hnested.symm, hhash⟩
  · rintro l r (h | h) <;> simp only [equalKeys, h]
    · rfl
    · cases (keys.leftJoinKey l).value <;> rfl

/-- A left join on `t % 2`, with key NULL for `0`: the left tuple `0` matches nothing and is
padded, and the left tuple `1` matches two right tuples, in order. -/
theorem hashJoin_eq_nestedLoopJoin_nullKey :
    let keys : HashJoinKeys Nat (JoinKey Nat) :=
      ⟨fun t => ⟨if t = 0 then none else some (t % 2)⟩, fun t => ⟨if t = 0 then none else some (t % 2)⟩⟩
    let plan : JoinPlan Nat := ⟨.left, fun l r => 10 * l + r, fun l => 100 + l⟩
    ∃ bound, ∀ n fuel, bound ≤ n → bound ≤ fuel →
      drain (HashJoinExecutor.next keys plan fuel) n
          ((HashJoinExecutor.create [0, 1, 2] [0, 3, 4, 5]).init keys) = [100, 13, 15, 24] ∧
        drain (NestedLoopJoinExecutor.next (equalKeys keys) plan fuel) n
          (NestedLoopJoinExecutor.create [0, 1, 2] [0, 3, 4, 5]).init = [100, 13, 15, 24] := by
  intro keys plan
  obtain ⟨⟨bound, h⟩, -⟩ := hashJoin_eq_nestedLoopJoin keys plan [0, 1, 2] [0, 3, 4, 5]
  have hjoin : joinOutput (equalKeys keys) plan [0, 1, 2] [0, 3, 4, 5] = [100, 13, 15, 24] := rfl
  exact ⟨bound, fun n fuel hn hfuel =>
    ⟨(h n fuel hn hfuel).2.trans hjoin, ((h n fuel hn hfuel).1.symm.trans (h n fuel hn hfuel).2).trans hjoin⟩⟩

end Bustub
