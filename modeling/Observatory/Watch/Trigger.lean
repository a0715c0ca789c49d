import Observatory.Selector
import Observatory.Store.Node

/-!
# Triggers

The watched paths of all listeners form a trie.  A key of a path is a named branch.  A wildcard
is a pattern with an instance for every key seen in the data: an instance is a copy of the
pattern, made when its key appears and dropped when the key is gone.  Every listener records
the stamp that it saw last at its place, so that a change is told by comparing stamps.

* `Trigger`: the tries.
* `Trigger.insert`, `Trigger.remove`: listeners come and go.
* `Trigger.visit`: compare a trie with the data.
* `Trigger.instances`, `Trigger.nodeCount`: what a trie looks like.
-/

namespace Observatory

/-- Names one registration; later registrations have larger tokens. -/
abbrev Token := Nat

/-- A token as it is shown to people. -/
def Token.text (t : Token) : String := "sync#" ++ toString t

/-- What was seen at a place in the data: the stamp of the node there, if there is a node. -/
abbrev Sighting := Option Stamp

/-- What there is to see of a node. -/
def Sighting.of (data : Option Node) : Sighting := data.map Node.stamp

/-- A registration at the end of one of its paths, and what it saw there last. -/
structure Listener where
  token : Token
  seen : Sighting
  deriving DecidableEq, Repr

/-- A trie of watched paths.  `wildcard` holds the pattern of a wildcard step and its instances;
    `visited` is what the last visit saw, nothing before the first one. -/
inductive Trigger where
  | mk (listeners : List Listener) (named : List (String × Trigger))
      (wildcard : Option (Trigger × List (String × Trigger))) (visited : Sighting)
  deriving Repr, Inhabited

namespace Trigger

/-! ### Parts -/

/-- The trie without paths. -/
def empty : Trigger := mk [] [] none none

/-- The listeners whose path ends here. -/
def listeners : Trigger → List Listener
  | mk ls _ _ _ => ls

/-- The branches of the keys. -/
def named : Trigger → Dict Trigger
  | mk _ ns _ _ => ns

/-- The pattern and the instances of a wildcard step. -/
def wildcard : Trigger → Option (Trigger × Dict Trigger)
  | mk _ _ w _ => w

/-- What the last visit saw. -/
def visited : Trigger → Sighting
  | mk _ _ _ v => v

/-- Whether no path ends here or goes on from here. -/
def isEmpty : Trigger → Bool
  | mk ls ns w _ => ls.isEmpty && ns.isEmpty && w.isNone

/-- The part of some data under a key. -/
def part (data : Option Node) (key : String) : Option Node := data.bind fun n => n.child? key

/-- The keys of some data, in ascending order. -/
def dataKeys : Option Node → List String
  | none => []
  | some (.array _ items) => Dict.keys (Dict.ofPairs (Node.numbered 0 items))
  | some n => n.keys

mutual

/-- The number of nodes, patterns and instances included. -/
def nodeCount : Trigger → Nat
  | mk _ ns none _ => 1 + nodeCounts ns
  | mk _ ns (some (pattern, instances)) _ =>
    1 + nodeCounts ns + (nodeCount pattern + nodeCounts instances)

/-- The number of nodes of some branches. -/
def nodeCounts : List (String × Trigger) → Nat
  | [] => 0
  | (_, t) :: rest => nodeCount t + nodeCounts rest

end

/-- The keys that have an instance of the wildcard at a path; a named branch hides the instance
    of its key. -/
def instances : List String → Trigger → List String
  | [], t =>
    match t.wildcard with
    | none => []
    | some (_, is) => Dict.keys is
  | key :: rest, t =>
    match Dict.get? t.named key, t.wildcard.bind fun w => Dict.get? w.2 key with
    | some branch, _ => instances rest branch
    | none, some branch => instances rest branch
    | none, none => []

/-! ### Registration -/

/-- The instances of a pattern for the keys of some data, old ones kept. -/
def instantiate (pattern : Trigger) (is : Dict Trigger) (data : Option Node) : Dict Trigger :=
  (dataKeys data).foldl
    (fun is key => if Dict.contains is key then is else Dict.insert is key pattern) is

/-- Add a listener at the end of a path.  It has seen the present data, so that it hears of
    later changes only. -/
def insert (token : Token) : List Step → Option Node → Trigger → Trigger
  | [], data, mk ls ns w v => mk (ls ++ [⟨token, Sighting.of data⟩]) ns w v
  | .key key :: rest, data, mk ls ns w v =>
    let branch := insert token rest (part data key) ((Dict.get? ns key).getD empty)
    mk ls (Dict.insert ns key branch) w v
  | .wildcard :: rest, data, mk ls ns w v =>
    let (pattern, is) := w.getD (empty, [])
    -- The pattern is registered with nothing, so that a copy of it hears when its key appears.
    let is := (instantiate pattern is data).map fun p =>
      (p.1, insert token rest (part data p.1) p.2)
    mk ls ns (some (insert token rest none pattern, is)) v

mutual

/-- Drop the listeners of a token, and the branches and the pattern that are left empty. -/
def remove (token : Token) : Trigger → Trigger
  | mk ls ns none v => mk (ls.filter (·.token ≠ token)) (removeNamed token ns) none v
  | mk ls ns (some (pattern, is)) v =>
    let pattern := remove token pattern
    -- Instances have the listeners of their pattern, so they go with it.
    let w := if pattern.isEmpty then none else some (pattern, removeEach token is)
    mk (ls.filter (·.token ≠ token)) (removeNamed token ns) w v

/-- Drop the listeners of a token from some branches, and the branches that are left empty. -/
def removeNamed (token : Token) : List (String × Trigger) → List (String × Trigger)
  | [] => []
  | (key, t) :: rest =>
    let t := remove token t
    if t.isEmpty then removeNamed token rest else (key, t) :: removeNamed token rest

/-- Drop the listeners of a token from some instances. -/
def removeEach (token : Token) : List (String × Trigger) → List (String × Trigger)
  | [] => []
  | (key, t) :: rest => (key, remove token t) :: removeEach token rest

end

/-! ### Visits -/

/-- What a visit comes to: the trie after it, and the tokens whose listeners saw a change. -/
abbrev Visit := Trigger × List Token

/-- The listeners after they saw the data, and the tokens of those that saw a change. -/
def notice (current : Sighting) (ls : List Listener) : List Listener × List Token :=
  (ls.map fun l => { l with seen := current },
    (ls.filter fun l => l.seen ≠ current).map Listener.token)

/-- The tries of some visits under their keys. -/
def tries (visits : List (String × Visit)) : List (String × Trigger) :=
  visits.map fun p => (p.1, p.2.1)

/-- The tokens of some visits. -/
def tokens (visits : List (String × Visit)) : List Token := visits.flatMap fun p => p.2.2

mutual

/-- Visit a trie with the data at its place.  Data with the stamp of the last visit is passed
    over together with everything beneath it. -/
def visit : Trigger → Option Node → Visit
  | mk ls ns none v, data =>
    let current := Sighting.of data
    if current = v then (mk ls ns none v, [])
    else
      let (ls, heard) := notice current ls
      let branches := (visitors ns).map fun p => (p.1, p.2 (part data p.1))
      (mk ls (tries branches) none current, heard ++ tokens branches)
  | mk ls ns (some (pattern, is)) v, data =>
    let current := Sighting.of data
    if current = v then (mk ls ns (some (pattern, is)) v, [])
    else
      let (ls, heard) := notice current ls
      let branches := (visitors ns).map fun p => (p.1, p.2 (part data p.1))
      let keys := dataKeys data
      let visits := visitors is
      -- An instance whose key is gone is visited for the last time; one that is missing is made.
      let gone := (visits.filter fun p => p.1 ∉ keys).flatMap fun p => (p.2 none).2
      let present := keys.map fun key =>
        (key, (Dict.get? visits key).getD (visit pattern) (part data key))
      (mk ls (tries branches) (some (pattern, tries present)) current,
        heard ++ tokens branches ++ gone ++ tokens present)

/-- The visits that some branches are open to. -/
def visitors : List (String × Trigger) → List (String × (Option Node → Visit))
  | [] => []
  | (key, t) :: rest => (key, visit t) :: visitors rest

end

end Trigger

end Observatory
