import Observatory.Proofs.Store.Consumer
import Observatory.Proofs.Store.Hidden
import Observatory.Watch.Synchronizer

/-!
# Others never influence a consumer

A consumer with a whitelist shares its store with others.  They change what the whitelist keeps
back, end ticks, take snapshots and differences of their own, look for changes that callbacks
wait for, and draw from the clock; so the serials of the store tell a lot about them.  The
differences that the consumer gets tell nothing.

* `Consumer.Aside`: what others do, and `Consumer.Aside.Discreet`: their changes are hidden;
* `Consumer.Step`, `Consumer.answers`, `Consumer.Discreet`: a run of common events with asides
  in between, what the consumer is told in it, and that its asides are discreet;
* `Consumer.Abreast`: two runs that agree so far, kept by an aside in either
  (`Consumer.Abreast.aside`) and by an event in both (`Consumer.Abreast.step`);
* `Consumer.answers_eq_of_common`: two runs with the same common events, each with its own
  asides, tell the consumer the same.
-/

namespace Observatory

namespace Consumer

/-! ### Runs with asides -/

/-- What others do between two events: a request, or a look for changes that callbacks wait
    for. -/
inductive Aside where
  | request (op : Store.Op)
  | collect (y : Synchronizer)

/-- The store after an aside. -/
def Aside.run (s : Store) : Aside → Store
  | request op => op.run s
  | collect y => (y.collect s).2.2

/-- An aside that changes the tree does so at a path that is `Hidden` from the whitelist at that
    moment. -/
def Aside.Discreet (w : Whitelist) (s : Store) : Aside → Prop
  | request op => ∀ c path, op.change? = some (c, path) → s.root.Hidden w path
  | collect _ => True

/-- One step of a run: an event that is common to the runs, or an aside. -/
inductive Step where
  | common (e : Event)
  | aside (a : Aside)

/-- The common event that a step is. -/
def Step.common? : Step → Option Event
  | common e => some e
  | aside _ => none

/-- What the consumer is told at an event: an answer, if it asks for a difference. -/
def Event.answer (w : Whitelist) (x : Store × Cursor) : Event → List (Option Diff)
  | diff => [(x.1.diff w x.2).1]
  | _ => []

/-- What the consumer is told in a run. -/
def answers (w : Whitelist) (x : Store × Cursor) : List Step → List (Option Diff)
  | [] => []
  | .common e :: rest => e.answer w x ++ answers w (e.step w x) rest
  | .aside a :: rest => answers w (a.run x.1, x.2) rest

/-- Every aside of a run is discreet when it happens. -/
def Discreet (w : Whitelist) (x : Store × Cursor) : List Step → Prop
  | [] => True
  | .common e :: rest => Discreet w (e.step w x) rest
  | .aside a :: rest => a.Discreet w x.1 ∧ Discreet w (a.run x.1, x.2) rest

/-! ### Two runs that agree -/

/-- Two runs that the consumer cannot tell apart: what it saw last in the one is `Alike` what it
    saw last in the other, and so are the present trees.  The serials of the two need not have
    anything to do with each other. -/
structure Abreast (w : Whitelist) (a b : Nat) (o p : Option Node) (x y : Store × Cursor) :
    Prop where
  left : Looked w a o x
  right : Looked w b p y
  saw : Node.Alike a b w o p
  root : Node.Alike a b w (some x.1.root) (some y.1.root)

section Abreast

variable {w : Whitelist} {a b : Nat} {o p : Option Node} {x y : Store × Cursor}

/-- `Abreast` is symmetric. -/
theorem Abreast.symm (h : Abreast w a b o p x y) : Abreast w b a p o y x :=
  ⟨h.right, h.left, h.saw.symm, h.root.symm⟩

/-- Two new stores are `Abreast`, even if their clocks differ. -/
theorem abreast_start (w : Whitelist) (c₁ c₂ : Clock) :
    Abreast w c₁.current c₂.current none none (start c₁) (start c₂) where
  left := looked_start w c₁
  right := looked_start w c₂
  saw := .nowhere
  root := .object (iff_of_false (Nat.not_lt_zero _) (Nat.not_lt_zero _)) fun _ _ _ => .nowhere

/-- A discreet aside in one of the runs keeps them `Abreast`. -/
theorem Abreast.aside (h : Abreast w a b o p x y) {e : Aside} (he : e.Discreet w x.1) :
    Abreast w a b o p (e.run x.1, x.2) y := by
  cases e with
  | collect z =>
    have hl := Store.later_closeTick h.left.after.valid
    exact ⟨h.left.later hl, h.right, h.saw, h.root⟩
  | request op =>
    refine ⟨h.left.later (Store.later_run h.left.after.valid op), h.right, h.saw, ?_⟩
    show Node.Alike a b w (some (op.run x.1).root) _
    rw [Store.root_run]
    cases hop : op.change? with
    | none => exact h.root
    | some change =>
      obtain ⟨c, path⟩ := change
      -- The changed tree is like the one before, which is like that of the other run.
      have hself := Node.alike_hidden (he c path hop) a c x.1.openTick.1
      exact hself.symm.trans h.root

/-- The same request in both runs keeps them `Abreast`. -/
theorem Abreast.request (h : Abreast w a b o p x y) (op : Store.Op) :
    Abreast w a b o p (op.run x.1, x.2) (op.run y.1, y.2) := by
  refine ⟨h.left.later (Store.later_run h.left.after.valid op),
    h.right.later (Store.later_run h.right.after.valid op), h.saw, ?_⟩
  show Node.Alike a b w (some (op.run x.1).root) (some (op.run y.1).root)
  rw [Store.root_run, Store.root_run]
  cases op.change? with
  | none => exact h.root
  | some change =>
    exact h.root.apply h.left.after.lt_openTick h.right.after.lt_openTick change.1 change.2

/-- A look in both runs keeps them `Abreast`. -/
theorem Abreast.capture (h : Abreast w a b o p x y) :
    Abreast w x.1.clock.current y.1.clock.current (some x.1.root) (some y.1.root)
      (Event.capture.step w x) (Event.capture.step w y) := by
  have hx := looked_capture w h.left.after.valid
  have hy := looked_capture w h.right.after.valid
  have hroot := h.root.rebase hx.after.covered hy.after.covered
  exact ⟨hx, hy, hroot, hroot⟩

/-- If two runs are `Abreast`, then the consumer gets the same difference in both, or none in
    both. -/
theorem Abreast.diff_eq (hw : w ≠ .nothing) (h : Abreast w a b o p x y) :
    (x.1.diff w x.2).1 = (y.1.diff w y.2).1 := by
  show (Cursor.advance w x.1.root x.2).2 = (Cursor.advance w y.1.root y.2).2
  have hm : ∀ n, some x.1.root = some n → n.Regular :=
    fun n hn => Option.some.inj hn ▸ h.left.after.valid.root.2
  have hn : ∀ n, some y.1.root = some n → n.Regular :=
    fun n hn => Option.some.inj hn ▸ h.right.after.valid.root.2
  rw [h.left.cursor, h.right.cursor]
  cases o with
  | none => cases h.saw with
    | nowhere =>
      -- Whoever has seen nothing is told everything.
      have hall := Cursor.materialize_alike h.root hm hn
      rw [Cursor.recordOf, Cursor.advance_unseen, Cursor.advance_unseen]
      exact hall
  | some m => cases p with
    | none => cases h.saw
    | some n =>
      have hleft : Cursor.Came a (some m) (some x.1.root) :=
        ⟨h.left.after.covered, fun _ hr => Option.some.inj hr ▸ h.left.after.since m rfl, hm⟩
      have hright : Cursor.Came b (some n) (some y.1.root) :=
        ⟨h.right.after.covered, fun _ hr => Option.some.inj hr ▸ h.right.after.since n rfl, hn⟩
      exact Option.some.inj (Cursor.told_alike hw h.root h.saw hleft hright)

/-- The same event in both runs keeps them `Abreast`, and the consumer is told the same at it. -/
theorem Abreast.step (hw : w ≠ .nothing) (h : Abreast w a b o p x y) (e : Event) :
    e.answer w x = e.answer w y ∧
      ∃ a' b' o' p', Abreast w a' b' o' p' (e.step w x) (e.step w y) := by
  cases e with
  | request op => exact ⟨rfl, a, b, o, p, h.request op⟩
  | capture => exact ⟨rfl, _, _, _, _, h.capture⟩
  | diff =>
    refine ⟨congrArg (fun d => [d]) (h.diff_eq hw), ?_⟩
    rw [h.left.step_diff, h.right.step_diff]
    exact ⟨_, _, _, _, h.capture⟩

/-- Two runs that are `Abreast` tell the consumer the same from then on, if the same common events
    are before them and their asides are discreet. -/
theorem Abreast.answers_eq (hw : w ≠ .nothing) (h : Abreast w a b o p x y) {xs ys : List Step}
    (hcommon : xs.filterMap Step.common? = ys.filterMap Step.common?) (hx : Discreet w x xs)
    (hy : Discreet w y ys) : answers w x xs = answers w y ys := by
  -- The asides of either run are taken one by one, the common events together.
  induction xs generalizing x y a b o p ys with
  | nil =>
    induction ys generalizing y with
    | nil => rfl
    | cons step rest ih => cases step with
      | common e => cases hcommon
      | aside e => exact ih (h.symm.aside hy.1).symm hcommon hy.2
  | cons step rest ih => cases step with
    | aside e => exact ih (h.aside hx.1) hcommon hx.2 hy
    | common e =>
      induction ys generalizing y with
      | nil => cases hcommon
      | cons step' rest' ih' => cases step' with
        | aside e' => exact ih' (h.symm.aside hy.1).symm hy.2 hcommon
        | common e' =>
          obtain ⟨rfl, hrest⟩ : e = e' ∧
              rest.filterMap Step.common? = rest'.filterMap Step.common? :=
            List.cons.inj hcommon
          obtain ⟨hanswer, a', b', o', p', h'⟩ := h.step hw e
          rw [answers, answers, hanswer, ih h' hrest hx hy]

end Abreast

/-- **Others never influence what a consumer is told.**  Two runs on stores with any clocks have
    the same common events, and between them asides of their own that change only what is hidden
    from the whitelist when they happen.  Then the consumer gets the same differences in both, and
    gets none at the same events. -/
theorem answers_eq_of_common (w : Whitelist) (hw : w ≠ .nothing) (c₁ c₂ : Clock)
    (xs ys : List Step) (hcommon : xs.filterMap Step.common? = ys.filterMap Step.common?)
    (hx : Discreet w (start c₁) xs) (hy : Discreet w (start c₂) ys) :
    answers w (start c₁) xs = answers w (start c₂) ys :=
  (abreast_start w c₁ c₂).answers_eq hw hcommon hx hy

/-- `answers_eq_of_common` for a consumer that may see one key of the root: in one run others set a
    private value and end the tick, in the other they draw from the clock and collect. -/
theorem answers_eq_beside_private :
    Whitelist.fields [("public", .all)] ≠ .nothing ∧
    answers (.fields [("public", .all)]) (start {})
      [.common (.request (.set ["public", "a"] (.ofScalar (.int 1)))),
        .aside (.request (.set ["private", "b"] (.ofScalar .null))), .aside (.request .endTick),
        .common .diff] =
      answers (.fields [("public", .all)]) (start ⟨7⟩)
        [.aside (.request .draw), .aside (.collect {}),
          .common (.request (.set ["public", "a"] (.ofScalar (.int 1)))), .common .diff] := by
  have hw : Whitelist.fields [("public", .all)] ≠ .nothing := nofun
  refine ⟨hw, answers_eq_of_common _ hw {} ⟨7⟩ _ _ rfl ⟨?_, nofun, trivial⟩
    ⟨nofun, trivial, trivial⟩⟩
  intro c path h
  cases h
  -- The path leaves what may be seen at the root already.
  exact ⟨[], "private", ["b"], _, _, rfl, rfl, by decide⟩

end Consumer

end Observatory
