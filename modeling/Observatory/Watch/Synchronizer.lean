import Observatory.Store.Basic
import Observatory.Watch.Trigger

/-!
# Synchronizers

A synchronizer keeps callbacks that watch parts of a store.  One pass compares the trie of
watched paths with the store and calls every callback that saw a change, each once and in the
order of registration.

* `Synchronizer.add`, `Synchronizer.remove`: registrations.
* `Synchronizer.collect`: the tokens whose callbacks saw a change.
* `Synchronizer.run`: one pass.
-/

namespace Observatory

/-- What a registration does when it hears of a change: whether it succeeded, and the store
    after it.  It may remember earlier calls, so it is told how many there were. -/
structure Callback where
  act : Nat → Store → Bool × Store
  calls : Nat := 0

/-- A callback that does the same at every call. -/
instance : Coe (Store → Bool × Store) Callback := ⟨fun act => { act := fun _ => act }⟩

/-- Call a callback; one that fails has an effect all the same. -/
def Callback.invoke (c : Callback) (s : Store) : Callback × Store :=
  ({ c with calls := c.calls + 1 }, (c.act c.calls s).2)

/-- Callbacks by token in ascending order, the trie of their paths, and the next token. -/
structure Synchronizer where
  root : Trigger := .empty
  callbacks : List (Token × Callback) := []
  nextToken : Token := 1

namespace Synchronizer

/-- The callback of a token. -/
def callback? (y : Synchronizer) (token : Token) : Option Callback :=
  (y.callbacks.find? fun p => p.1 = token).map Prod.snd

/-- The number of callbacks. -/
def size (y : Synchronizer) : Nat := y.callbacks.length

/-- The number of nodes of the trie. -/
def triggerNodes (y : Synchronizer) : Nat := y.root.nodeCount

/-- The keys that have an instance of the wildcard at a path. -/
def instances (y : Synchronizer) (path : List String) : List String := y.root.instances path

/-- The synchronizer in one line. -/
def summary (y : Synchronizer) : String :=
  "Synchronizer \x7b callbacks: " ++ toString y.size ++ ", trigger_nodes: " ++
    toString y.triggerNodes ++ " \x7d"

/-- Watch the paths of a selector from now on.  With `force` the callback is called at once.
    A selector without paths is refused. -/
def add (y : Synchronizer) (s : Store) (selector : Selector) (callback : Callback) (force : Bool) :
    Option (Token × Synchronizer × Store) :=
  let paths := selector.expand
  if paths.isEmpty then none
  else
    let token := y.nextToken
    -- What the listeners see now is told apart from every later change.
    let s := s.closeTick
    let root := paths.foldl (fun t steps => t.insert token steps (some s.root)) y.root
    let (callback, s) := if force then callback.invoke s else (callback, s)
    some (token,
      { root, callbacks := y.callbacks ++ [(token, callback)], nextToken := token + 1 }, s)

/-- Forget a token; whether it was known. -/
def remove (y : Synchronizer) (token : Token) : Bool × Synchronizer :=
  match y.callback? token with
  | none => (false, y)
  | some _ => (true, { y with
      root := y.root.remove token
      callbacks := y.callbacks.filter fun p => p.1 ≠ token })

/-- Put a token into an ascending list, unless it is there. -/
def insertToken (token : Token) : List Token → List Token
  | [] => [token]
  | t :: rest =>
    if token < t then token :: t :: rest
    else if token = t then t :: rest
    else t :: insertToken token rest

/-- The tokens of a list in ascending order, each once. -/
def ascending (tokens : List Token) : List Token := tokens.foldr insertToken []

/-- The tokens whose paths saw a change since the last time, in ascending order. -/
def collect (y : Synchronizer) (s : Store) : List Token × Synchronizer × Store :=
  let (root, heard) := y.root.visit (some s.root)
  (ascending heard, { y with root }, s.closeTick)

/-- Call the callback of a token, if there is one. -/
def invoke (y : Synchronizer) (token : Token) (s : Store) : Synchronizer × Store :=
  match y.callback? token with
  | none => (y, s)
  | some callback =>
    let (callback, s) := callback.invoke s
    ({ y with
        callbacks := y.callbacks.map fun p => if p.1 = token then (token, callback) else p }, s)

/-- Call the callbacks of some tokens in order. -/
def call (y : Synchronizer) (tokens : List Token) (s : Store) : Synchronizer × Store :=
  tokens.foldl (fun (y, s) token => y.invoke token s) (y, s)

/-- One pass; the tokens whose callbacks were called. -/
def run (y : Synchronizer) (s : Store) : List Token × Synchronizer × Store :=
  let (fired, y, s) := y.collect s
  (fired, y.call fired s)

end Synchronizer

end Observatory
