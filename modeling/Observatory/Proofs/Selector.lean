import Mathlib.Data.List.Basic
import Mathlib.Data.List.Induction
import Observatory.Selector

/-!
# What a selector expands to

A selector is expanded from the inside out: every alternative of a group gives up its own
repetitions before the group is multiplied with what comes after it.  Two alternatives can still
come to the same step list once the tails are appended, and the outermost expansion drops those.
All this dropping on the way is harmless, since first occurrences do not care about earlier
droppings: concatenating two lists, or multiplying them, has the same first occurrences as doing
so with the first occurrences of both.

* `Selector.gathered`: a list extended by what is new in another one, of which
  `Selector.firstOccurrences` is the case of nothing gathered before;
* `Selector.firstOccurrences_append`, `Selector.firstOccurrences_cross`: first occurrences may be
  taken of both sides beforehand;
* `Selector.pairwise_firstOccurrences`: they stand in the order of the list they come from;
* `Selector.expand_eq_product`: the expansion against the plain cross product;
* `Selector.mem_product`: the cross product against the language;
* `Selector.expand_exact`: the expansion of a selector is its language, each step list once, in
  the order of the cross product.
-/

namespace Observatory

namespace Selector

section FirstOccurrences

variable {α β : Type} [DecidableEq α] [DecidableEq β]

/-! ### First occurrences -/

/-- What was gathered already, followed by the members of `xs` that are new, each once. -/
def gathered (seen xs : List α) : List α :=
  xs.foldl (fun seen x => if x ∈ seen then seen else seen ++ [x]) seen

/-- `firstOccurrences xs` is `gathered` with nothing gathered before. -/
theorem firstOccurrences_eq (xs : List α) : firstOccurrences xs = gathered [] xs := rfl

@[simp] theorem gathered_nil (seen : List α) : gathered seen [] = seen := rfl

/-- To gather from `xs ++ ys` is to gather from `xs` and then from `ys`. -/
@[simp] theorem gathered_append (seen xs ys : List α) :
    gathered seen (xs ++ ys) = gathered (gathered seen xs) ys := List.foldl_append

/-- To gather from one member is to append it, unless it is there already. -/
theorem gathered_singleton (seen : List α) (x : α) :
    gathered seen [x] = if x ∈ seen then seen else seen ++ [x] := rfl

/-- `gathered seen xs` has the members of `seen` and those of `xs`, and no others. -/
@[simp] theorem mem_gathered {seen xs : List α} {y : α} :
    y ∈ gathered seen xs ↔ y ∈ seen ∨ y ∈ xs := by
  induction xs using List.reverseRecOn with
  | nil => simp
  | append_singleton xs x ih =>
    rw [gathered_append, gathered_singleton]
    split
    · next hx =>
      -- A repeated member adds nothing to either side.
      have hmem : y = x → y ∈ seen ∨ y ∈ xs := fun e => ih.1 (e ▸ hx)
      simp only [ih, List.mem_append, List.mem_singleton]
      tauto
    · simp only [ih, List.mem_append, List.mem_singleton, or_assoc]

/-- `firstOccurrences xs` has the same members as `xs`. -/
@[simp] theorem mem_firstOccurrences {xs : List α} {y : α} :
    y ∈ firstOccurrences xs ↔ y ∈ xs := by
  simp [firstOccurrences_eq]

/-- The first occurrences of `xs ++ [x]` are those of `xs`, with `x` behind them if it is not a
    member of `xs`. -/
theorem firstOccurrences_concat (xs : List α) (x : α) : firstOccurrences (xs ++ [x]) =
    if x ∈ xs then firstOccurrences xs else firstOccurrences xs ++ [x] := by
  rw [firstOccurrences_eq, gathered_append, gathered_singleton, ← firstOccurrences_eq]
  simp only [mem_firstOccurrences]

/-- If `seen` has all members of `xs` already, then gathering from `xs` adds nothing. -/
theorem gathered_of_subset {seen xs : List α} (h : xs ⊆ seen) : gathered seen xs = seen := by
  induction xs with
  | nil => rfl
  | cons x rest ih =>
    obtain ⟨hx, hrest⟩ := List.cons_subset.1 h
    rw [← List.singleton_append, gathered_append, gathered_singleton, if_pos hx, ih hrest]

/-- Gathering from `firstOccurrences xs` is gathering from `xs`: the repetitions that were dropped
    would have added nothing. -/
theorem gathered_firstOccurrences (seen xs : List α) :
    gathered seen (firstOccurrences xs) = gathered seen xs := by
  induction xs using List.reverseRecOn with
  | nil => rfl
  | append_singleton xs x ih =>
    rw [firstOccurrences_concat, gathered_append]
    split
    · next hx =>
      have hgathered : [x] ⊆ gathered seen xs := by simp [hx]
      rw [ih, gathered_of_subset hgathered]
    · rw [gathered_append, ih]

/-- `firstOccurrences` is idempotent. -/
@[simp] theorem firstOccurrences_firstOccurrences (xs : List α) :
    firstOccurrences (firstOccurrences xs) = firstOccurrences xs :=
  gathered_firstOccurrences [] xs

/-- The first occurrences of `xs ++ ys` are those of `xs`, extended by what is new among those of
    `ys`. -/
theorem firstOccurrences_append (xs ys : List α) : firstOccurrences (xs ++ ys) =
    gathered (firstOccurrences xs) (firstOccurrences ys) := by
  rw [gathered_firstOccurrences]
  exact gathered_append [] xs ys

/-- `firstOccurrences xs` lists the members in the order of their first positions in `xs`. -/
theorem pairwise_firstOccurrences [BEq α] [LawfulBEq α] (xs : List α) :
    (firstOccurrences xs).Pairwise fun a b => xs.idxOf a < xs.idxOf b := by
  induction xs using List.reverseRecOn with
  | nil => exact List.Pairwise.nil
  | append_singleton xs x ih =>
    -- The members that are there keep their positions when one more comes behind them.
    have hkept : (firstOccurrences xs).Pairwise fun a b =>
        (xs ++ [x]).idxOf a < (xs ++ [x]).idxOf b := by
      refine ih.imp_of_mem fun {a b} ha hb hlt => ?_
      rwa [List.idxOf_append_of_mem (mem_firstOccurrences.1 ha),
        List.idxOf_append_of_mem (mem_firstOccurrences.1 hb)]
    rw [firstOccurrences_concat]
    split
    · exact hkept
    · next hx =>
      -- A new member is at the last position, and the others were found before it.
      refine List.pairwise_append.2 ⟨hkept, List.pairwise_singleton _ _, ?_⟩
      intro a ha b hb
      obtain rfl := List.mem_singleton.1 hb
      have hmem : a ∈ xs := mem_firstOccurrences.1 ha
      have hlt : xs.idxOf a < xs.length := List.idxOf_lt_length_iff.2 hmem
      rw [List.idxOf_append_of_mem hmem, List.idxOf_append_of_notMem hx]
      omega

/-- `firstOccurrences xs` has no repetitions, because its members stand at increasing positions of
    `xs`. -/
theorem nodup_firstOccurrences (xs : List α) : (firstOccurrences xs).Nodup :=
  (pairwise_firstOccurrences xs).imp fun hlt e => by simp [e] at hlt

end FirstOccurrences

/-! ### Products -/

section Products

variable {α β : Type} [DecidableEq β]

/-- `xs.flatMap f` and `xs.flatMap g` have the same first occurrences if `f x` and `g x` have them
    for every `x` in `xs`. -/
theorem firstOccurrences_flatMap_congr {xs : List α} {f g : α → List β}
    (h : ∀ x ∈ xs, firstOccurrences (f x) = firstOccurrences (g x)) :
    firstOccurrences (xs.flatMap f) = firstOccurrences (xs.flatMap g) := by
  induction xs with
  | nil => rfl
  | cons x rest ih =>
    obtain ⟨hx, hrest⟩ := List.forall_mem_cons.1 h
    rw [List.flatMap_cons, List.flatMap_cons, firstOccurrences_append, firstOccurrences_append,
      hx, ih hrest]

variable [DecidableEq α]

/-- Dropping the repetitions in `xs` does not change the first occurrences of `xs.flatMap f`, since
    a repeated member brings its list once more. -/
theorem firstOccurrences_flatMap (f : α → List β) (xs : List α) :
    firstOccurrences ((firstOccurrences xs).flatMap f) = firstOccurrences (xs.flatMap f) := by
  induction xs using List.reverseRecOn with
  | nil => rfl
  | append_singleton xs x ih =>
    have hstep : ∀ ys : List α, firstOccurrences ((ys ++ [x]).flatMap f) =
        gathered (firstOccurrences (ys.flatMap f)) (firstOccurrences (f x)) := by
      intro ys
      rw [List.flatMap_append, List.flatMap_singleton, firstOccurrences_append]
    rw [firstOccurrences_concat, hstep]
    split
    · next hx =>
      -- The list of a repeated member was gathered when the member came first.
      have hlist : firstOccurrences (f x) ⊆ firstOccurrences (xs.flatMap f) := by
        intro y hy
        simp only [mem_firstOccurrences, List.mem_flatMap] at hy ⊢
        exact ⟨x, hx, hy⟩
      rw [ih, gathered_of_subset hlist]
    · rw [hstep, ih]

/-- Dropping the repetitions in `xs` does not change the first occurrences of `xs.map f`, which is a
    `flatMap` of lists with one member. -/
theorem firstOccurrences_map (f : α → β) (xs : List α) :
    firstOccurrences ((firstOccurrences xs).map f) = firstOccurrences (xs.map f) := by
  simp only [List.map_eq_flatMap, firstOccurrences_flatMap]

end Products

/-- `cross heads tails` has the same first occurrences if both factors lose their repetitions
    before they are multiplied. -/
theorem firstOccurrences_cross (heads tails : List (List Step)) :
    firstOccurrences (cross (firstOccurrences heads) (firstOccurrences tails)) =
      firstOccurrences (cross heads tails) := by
  unfold cross
  rw [firstOccurrences_flatMap]
  exact firstOccurrences_flatMap_congr fun head _ => firstOccurrences_map (head ++ ·) tails

/-- If two pairs of factors have the same first occurrences, then so have their products. -/
theorem firstOccurrences_cross_congr {heads heads' tails tails' : List (List Step)}
    (hh : firstOccurrences heads = firstOccurrences heads')
    (ht : firstOccurrences tails = firstOccurrences tails') :
    firstOccurrences (cross heads tails) = firstOccurrences (cross heads' tails') := by
  rw [← firstOccurrences_cross, hh, ht, firstOccurrences_cross]

/-- `cross heads tails` has every head followed by every tail. -/
theorem mem_cross {heads tails : List (List Step)} {steps : List Step} :
    steps ∈ cross heads tails ↔ ∃ head ∈ heads, ∃ tail ∈ tails, steps = head ++ tail := by
  simp only [cross, List.mem_flatMap, List.mem_map, eq_comm]

/-! ### Repetitions dropped on the way -/

/-- If `xs` and `ys` have the same first occurrences, then so have the two with one step put in
    front of every member. -/
theorem firstOccurrences_map_congr {step : Step} {xs ys : List (List Step)}
    (h : firstOccurrences xs = firstOccurrences ys) :
    firstOccurrences (xs.map (step :: ·)) = firstOccurrences (ys.map (step :: ·)) := by
  rw [← firstOccurrences_map, h, firstOccurrences_map]

/-- `expandParts` and `product` have the same first occurrences, although `expandParts` drops
    repetitions in every group and `product` drops none.  The recursion is through the alternatives
    of a group, so both halves are proved together. -/
theorem firstOccurrences_expand :
    (∀ parts, firstOccurrences (expandParts parts) = firstOccurrences (product parts)) ∧
      ∀ alternatives, firstOccurrences (expandAlternatives alternatives) =
        firstOccurrences (productAlternatives alternatives) := by
  refine expandParts.mutual_induct
    (fun parts => firstOccurrences (expandParts parts) = firstOccurrences (product parts))
    (fun alternatives => firstOccurrences (expandAlternatives alternatives) =
      firstOccurrences (productAlternatives alternatives))
    ?nil ?key ?wildcard ?any ?none ?more
  case nil => rw [expandParts, product]
  case key =>
    intro k rest ih
    rw [expandParts, product]
    exact firstOccurrences_map_congr ih
  case wildcard =>
    intro rest ih
    rw [expandParts, product]
    exact firstOccurrences_map_congr ih
  case any =>
    intro alternatives rest ihAlternatives ihRest
    rw [expandParts, product]
    exact firstOccurrences_cross_congr ihAlternatives ihRest
  case none => rw [expandAlternatives, productAlternatives]
  case more =>
    -- The repetitions of one alternative are the only ones that are dropped at this point.
    intro a rest iha ihRest
    rw [expandAlternatives, productAlternatives, firstOccurrences_append,
      firstOccurrences_append, firstOccurrences_firstOccurrences, iha, ihRest]

/-- `expand` gives the first occurrences of the plain cross product of the selector. -/
theorem expand_eq_product (s : Selector) : s.expand = firstOccurrences (product s) :=
  firstOccurrences_expand.1 s

/-- `expand` gives no step list twice. -/
theorem nodup_expand (s : Selector) : s.expand.Nodup := nodup_firstOccurrences _

/-! ### Languages -/

section Language

variable {k : String} {a parts rest : List Part} {alternatives others : List (List Part)}
  {steps : List Step}

/-- The selector without parts matches the empty step list and no other. -/
theorem matches_nil_iff : Matches [] steps ↔ steps = [] := by
  constructor
  · rintro ⟨⟩
    rfl
  · rintro rfl
    exact .nil

/-- A selector that begins with a key matches what begins with that key as a step and goes on with
    a match of the rest. -/
theorem matches_key_iff : Matches (.key k :: rest) steps ↔
    ∃ tail, Matches rest tail ∧ steps = .key k :: tail := by
  constructor
  · rintro (_ | h)
    exact ⟨_, h, rfl⟩
  · rintro ⟨tail, h, rfl⟩
    exact .key h

/-- A selector that begins with a wildcard matches what begins with a wildcard step and goes on
    with a match of the rest. -/
theorem matches_wildcard_iff : Matches (.wildcard :: rest) steps ↔
    ∃ tail, Matches rest tail ∧ steps = .wildcard :: tail := by
  constructor
  · rintro (_ | _ | h)
    exact ⟨_, h, rfl⟩
  · rintro ⟨tail, h, rfl⟩
    exact .wildcard h

/-- A selector that begins with a group matches what begins with a match of one of the alternatives
    and goes on with a match of the rest. -/
theorem matches_any_iff : Matches (.any alternatives :: rest) steps ↔
    ∃ head, MatchesSome alternatives head ∧ ∃ tail, Matches rest tail ∧ steps = head ++ tail := by
  constructor
  · rintro (_ | _ | _ | ⟨hhead, htail⟩)
    exact ⟨_, hhead, _, htail, rfl⟩
  · rintro ⟨head, hhead, tail, htail, rfl⟩
    exact .any hhead htail

/-- A group without alternatives matches nothing. -/
theorem not_matchesSome_nil : ¬ MatchesSome [] steps := nofun

/-- With one more alternative, a group matches what that one matches besides. -/
theorem matchesSome_cons_iff : MatchesSome (a :: others) steps ↔
    Matches a steps ∨ MatchesSome others steps := by
  constructor
  · rintro (h | h)
    · exact .inl h
    · exact .inr h
  · rintro (h | h)
    · exact .here h
    · exact .there h

end Language

/-- `product` has exactly the step lists that the parts match, and `productAlternatives` exactly
    those that one of the alternatives matches.  Both are proved by one induction, as the two
    functions call each other. -/
theorem mem_product :
    (∀ parts steps, steps ∈ product parts ↔ Matches parts steps) ∧
      ∀ alternatives steps, steps ∈ productAlternatives alternatives ↔
        MatchesSome alternatives steps := by
  refine product.mutual_induct
    (fun parts => ∀ steps, steps ∈ product parts ↔ Matches parts steps)
    (fun alternatives => ∀ steps, steps ∈ productAlternatives alternatives ↔
      MatchesSome alternatives steps)
    ?nil ?key ?wildcard ?any ?none ?more
  case nil =>
    intro steps
    rw [product, List.mem_singleton, matches_nil_iff]
  case key =>
    intro k rest ih steps
    simp only [product, List.mem_map, ih, matches_key_iff, eq_comm]
  case wildcard =>
    intro rest ih steps
    simp only [product, List.mem_map, ih, matches_wildcard_iff, eq_comm]
  -- The steps are those of one alternative, followed by those of the rest.
  case any =>
    intro alternatives rest ihAlternatives ihRest steps
    simp only [product, mem_cross, ihAlternatives, ihRest, matches_any_iff]
  case none =>
    intro steps
    simp [productAlternatives, not_matchesSome_nil]
  case more =>
    intro a rest iha ihRest steps
    rw [productAlternatives, List.mem_append, iha, ihRest, matchesSome_cons_iff]

/-- **What `expand` computes.**  It gives the step lists that the selector matches and no others,
    none of them twice, in the order in which the plain cross product `product s` has them for the
    first time. -/
theorem expand_exact (s : Selector) :
    (∀ steps, steps ∈ s.expand ↔ Matches s steps) ∧ s.expand.Nodup ∧
      s.expand = firstOccurrences (product s) ∧
      s.expand.Pairwise fun a b => (product s).idxOf a < (product s).idxOf b := by
  refine ⟨?_, nodup_expand s, expand_eq_product s, ?_⟩
  · intro steps
    rw [expand_eq_product, mem_firstOccurrences]
    exact mem_product.1 s steps
  · rw [expand_eq_product]
    exact pairwise_firstOccurrences (product s)

/-- Two alternatives that differ come to the same step list behind a group that may be empty: of
    six products three are left. -/
example : expand [.any [[.key "a"], [.key "a", .any [[], [.key "b"]]]], .any [[.key "b"], []]] =
    [[.key "a", .key "b"], [.key "a"], [.key "a", .key "b", .key "b"]] := by cbv

end Selector

end Observatory
