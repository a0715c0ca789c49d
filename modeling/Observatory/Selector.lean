/-!
# Path selectors

A selector names a set of paths: a sequence of keys, wildcards and groups of alternatives.
A wildcard stands for every key, a group for any of its alternatives followed by what comes
after the group.

* `Selector.Matches`: the step lists that belong to a selector.
* `Selector.expand`: those step lists, each once, in the order of the alternatives.
* `Selector.product`: the plain cross product, with repetitions.
-/

namespace Observatory

/-- One step of a flattened selector. -/
inductive Step where
  | key (k : String)
  | wildcard
  deriving DecidableEq, Repr, Inhabited

/-- One part of a selector. -/
inductive Selector.Part where
  | key (k : String)
  | wildcard
  | any (alternatives : List (List Selector.Part))
  deriving Repr, Inhabited

/-- A sequence of parts. -/
abbrev Selector := List Selector.Part

namespace Selector

/-- The members of a list without repetitions, in the order of their first occurrences. -/
def firstOccurrences {α : Type} [DecidableEq α] (xs : List α) : List α :=
  xs.foldl (fun seen x => if x ∈ seen then seen else seen ++ [x]) []

/-- Every head followed by every tail, head by head. -/
def cross (heads tails : List (List Step)) : List (List Step) :=
  heads.flatMap fun head => tails.map (head ++ ·)

mutual

/-- The step lists of a sequence of parts; alternatives bring no repetitions of their own. -/
def expandParts : List Part → List (List Step)
  | [] => [[]]
  | .key k :: rest => (expandParts rest).map (.key k :: ·)
  | .wildcard :: rest => (expandParts rest).map (.wildcard :: ·)
  | .any alternatives :: rest => cross (expandAlternatives alternatives) (expandParts rest)

/-- The step lists of some alternatives, one alternative after the other. -/
def expandAlternatives : List (List Part) → List (List Step)
  | [] => []
  | a :: rest => firstOccurrences (expandParts a) ++ expandAlternatives rest

end

/-- The step lists of a selector, each once.  A group without alternatives has none. -/
def expand (s : Selector) : List (List Step) := firstOccurrences (expandParts s)

mutual

/-- The cross product of a sequence of parts, repetitions kept. -/
def product : List Part → List (List Step)
  | [] => [[]]
  | .key k :: rest => (product rest).map (.key k :: ·)
  | .wildcard :: rest => (product rest).map (.wildcard :: ·)
  | .any alternatives :: rest => cross (productAlternatives alternatives) (product rest)

/-- The cross products of some alternatives, one after the other. -/
def productAlternatives : List (List Part) → List (List Step)
  | [] => []
  | a :: rest => product a ++ productAlternatives rest

end

mutual

/-- A step list belongs to a sequence of parts when it is a concatenation of one member of
    each part's language. -/
inductive Matches : List Part → List Step → Prop where
  | nil : Matches [] []
  | key {k : String} {parts : List Part} {steps : List Step} :
      Matches parts steps → Matches (.key k :: parts) (.key k :: steps)
  | wildcard {parts : List Part} {steps : List Step} :
      Matches parts steps → Matches (.wildcard :: parts) (.wildcard :: steps)
  | any {alternatives : List (List Part)} {parts : List Part} {head tail : List Step} :
      MatchesSome alternatives head → Matches parts tail →
      Matches (.any alternatives :: parts) (head ++ tail)

/-- A step list belongs to one of some alternatives. -/
inductive MatchesSome : List (List Part) → List Step → Prop where
  | here {a : List Part} {rest : List (List Part)} {steps : List Step} :
      Matches a steps → MatchesSome (a :: rest) steps
  | there {a : List Part} {rest : List (List Part)} {steps : List Step} :
      MatchesSome rest steps → MatchesSome (a :: rest) steps

end

end Selector

end Observatory
