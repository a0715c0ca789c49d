import Observatory.Proofs.Panel.Entrusted

/-!
# A caller with an order

One caller wants an order settled.  It waits until its vector takes an order, looks at its token
once more, gives the order and waits for the answer.  Each of these takes several steps of
`Call.step`, and each step has the panel to itself, but between any two of them the connection goes
on, others take the steps of their calls, anyone may use the hub, and the token may be cancelled.

* `Errand`, `Errand.Move`, `Errand.step?`, `Errand.run?`: the caller, and all that happens
  meanwhile;
* `Errand.Pursues`: how far the call of such a caller may have come;
* `Errand.Took`, `Errand.took_of_step?`: what a step of the caller comes to;
* `Errand.Kept`, `Errand.Kept.step`: what lasts of the panel, whatever happens;
* `Errand.ready_step`: a vector that takes orders is disturbed by others only;
* `Order.Takes`, `Errand.takes_of_submit`: a command that is accepted.
-/

namespace Observatory

/-! ### Errands -/

/-- A panel, a caller with its call, the result of the call if it is over, and whether the token of
    the call is cancelled. -/
structure Errand where
  panel : Panel
  call : Call
  result : Option Call.Result := none
  cancelled : Bool := false

namespace Errand

/-- What happens while a caller has a request. -/
inductive Move where
  /-- The caller takes the next step of its call. -/
  | own
  /-- Its token is cancelled, for good. -/
  | cancel
  /-- The connection goes on, someone else takes a step of a call, or someone uses the hub. -/
  | panel (m : Panel.Move)

/-- A caller comes with an order, to have it settled. -/
def ofOrder (o : Order) (p : Panel) : Errand := { panel := p, call := .setParameter o }

/-- The errand after a step of its call, given how far the call came and the panel that the step
    left. -/
def proceed (e : Errand) : Progress Call (Option VectorView) × Panel → Errand
  | (.goesOn next, panel) => { e with panel, call := next }
  | (.waits, panel) => { e with panel }
  | (.ends result, panel) => { e with panel, result := some result }

/-- What happens, if it can happen.  An `own` move is one `Call.step`, so that others may come
    between any two of them.  A caller that is done takes no more steps. -/
def step? (e : Errand) : Move → Option Errand
  | .own =>
    if e.result.isSome then none else some (e.proceed (e.call.step e.cancelled e.panel))
  | .cancel => some { e with cancelled := true }
  | .panel m => (e.panel.step? m).map fun panel => { e with panel }

/-- Some moves, if they can happen. -/
def run? (e : Errand) (moves : List Move) : Option Errand := moves.foldlM step? e

/-- What others write, or have callbacks write, leaves alone the node at `path`, where the devices
    are.  Steps of calls and events of the connection may do what they do. -/
def Move.Spares (path : List String) : Move → Prop
  | panel m => m.Spares (Store.Rests path)
  | own | cancel => True

section Runs

variable {e e' u : Errand} {moves : List Move} {m : Move}

theorem run?_concat (e : Errand) (moves : List Move) (m : Move) :
    e.run? (moves ++ [m]) = (e.run? moves).bind fun u => u.step? m :=
  foldlM_concat e moves m

theorem run?_append (e : Errand) (moves more : List Move) :
    e.run? (moves ++ more) = (e.run? moves).bind fun u => u.run? more :=
  List.foldlM_append

@[simp] theorem panel_proceed (e : Errand) (r : Progress Call (Option VectorView) × Panel) :
    (e.proceed r).panel = r.2 := by
  obtain ⟨progress, p⟩ := r
  cases progress <;> rfl

@[simp] theorem cancelled_proceed (e : Errand) (r : Progress Call (Option VectorView) × Panel) :
    (e.proceed r).cancelled = e.cancelled := by
  obtain ⟨progress, p⟩ := r
  cases progress <;> rfl

/-- The caller takes a step only while it has no result, and then its call takes one. -/
theorem own_of_step? (hstep : e.step? .own = some e') :
    e.result = none ∧ e' = e.proceed (e.call.step e.cancelled e.panel) := by
  rw [step?] at hstep
  split at hstep
  · cases hstep
  · next hresult => exact ⟨by simpa using hresult, (Option.some.inj hstep).symm⟩

end Runs

/-! ### Steps of the caller -/

/-- The calls that a caller which wants `o` settled comes to: it waits for the vector, confirms,
    gives the order, or waits for the answer.  It never comes to `inspecting`, the step that looks
    whether the vector is busy as an order is given. -/
inductive Pursues (o : Order) : Call → Prop
  | await (phase : Wait.Phase) : Pursues o (.await o phase)
  | confirm : Pursues o (.confirm o)
  | place {phase : Order.Phase} (hphase : phase ≠ .inspecting) : Pursues o (.place o phase)
  | settle (phase : Wait.Phase) : Pursues o (.settle o phase)

/-- What a step of the caller comes to.  Nothing but `submits`, `announces` and a failure changes
    the panel, and no failure of a step is the word of a vector in alert. -/
inductive Took (o : Order) (e : Errand) : Errand → Prop
  | waits {phase : Wait.Phase} (hcall : e.call = .await o phase) (next : Wait.Phase) :
    Took o e { e with call := .await o next }
  | finds {seen : Nat} (hcall : e.call = .await o (.judging seen))
    (hready : (o.target e.panel.tree).isReady = true) : Took o e { e with call := .confirm o }
  | confirms (hcall : e.call = .confirm o) (htoken : e.cancelled = false) :
    Took o e { e with call := .place o .checking }
  | connects (hcall : e.call = .place o .checking) : Took o e { e with call := .place o .composing }
  | composes (hcall : e.call = .place o .composing) {command : Command}
    (hcommand : (o.target e.panel.tree).command o.values = .ok command) :
    Took o e { e with call := .place o (.submitting command.toXml) }
  | submits {xml : String} (hcall : e.call = .place o (.submitting xml)) {p : Panel}
    (hsubmit : e.panel.submit o.device o.vector xml = (.ok (), p)) :
    Took o e { e with panel := p, call := .place o .announcing }
  | announces (hcall : e.call = .place o .announcing) :
    Took o e { e with panel := e.panel.announce id, call := .settle o .checking }
  | listens {phase : Wait.Phase} (hcall : e.call = .settle o phase) (next : Wait.Phase) :
    Took o e { e with call := .settle o next }
  | judges {seen : Nat} (hcall : e.call = .settle o (.judging seen))
    {answer : Except OperationError Unit} (hanswer : o.answer? e.panel.tree = some answer) :
    Took o e { e with result := some (answer.map fun _ => none) }
  | fails {error : OperationError} (herror : ∀ device vector, error ≠ .alert device vector)
    (p : Panel) : Took o e { e with panel := p, result := some (.error error) }

section Steps

variable {o : Order} {e e' : Errand} {m : Move} {l : Layout} {device name : String}

/-- A step of a call that waits leads to another phase of the wait, fails, or finds something
    that fulfils the condition and goes on as `andThen` says.  Both waits of the caller are
    instances. -/
theorem took_wait {α : Type} {w : Wait α} {resume : Wait.Phase → Call} {phase : Wait.Phase}
    {andThen : α → Progress Call (Option VectorView)} (hcall : e.call = resume phase)
    (hwaits : ∀ next, Took o e { e with call := resume next })
    (hends : ∀ seen a, phase = .judging seen → w.condition e.panel.tree = some a →
      Took o e (e.proceed (andThen a, e.panel))) :
    Took o e (e.proceed
      (Call.after resume andThen (w.step e.cancelled e.panel phase), e.panel)) := by
  cases phase with
  | checking =>
    rw [Wait.step]
    split
    · exact .fails (by simp) e.panel
    · exact hwaits .looking
  | looking =>
    rw [Wait.step]
    split
    · exact hwaits (.judging e.panel.status.revision)
    · exact .fails (by simp) e.panel
  | judging seen =>
    rw [Wait.step]
    split
    · next a ha => exact hends seen a rfl ha
    · exact hwaits (.asleep seen)
  | asleep seen =>
    rw [Wait.step]
    split
    · exact .fails (by simp) e.panel
    · split
      · -- Nobody has announced anything, and the caller stays where it is.
        have hsame : { e with call := resume (.asleep seen) } = e := hcall ▸ rfl
        exact hsame ▸ hwaits (.asleep seen)
      · exact hwaits .checking

/-- The panel refuses an order for want of a stream, or because the store refuses the mark, but
    never with the word of a vector in alert. -/
theorem ne_alert_of_submit {p p' : Panel} {device vector xml : String} {error : OperationError}
    (h : p.submit device vector xml = (.error error, p')) (device' vector' : String) :
    error ≠ .alert device' vector' := by
  rintro rfl
  rw [Panel.submit] at h
  split at h
  · dsimp only at h
    split at h <;> cases h
  · cases h

/-- A step of a caller that gives its order is one of `Took`, for each phase of the order but
    `inspecting`. -/
theorem took_place {phase : Order.Phase} (hcall : e.call = .place o phase)
    (hphase : phase ≠ .inspecting) :
    Took o e (e.proceed ((Call.place o phase).step e.cancelled e.panel)) := by
  cases phase with
  | inspecting => exact absurd rfl hphase
  | checking =>
    rw [Call.step, Order.step]
    cases e.panel.status.isConnected with
    | true => exact .connects hcall
    | false => exact .fails (by simp) e.panel
  | composing =>
    rw [Call.step, Order.step]
    cases hcommand : (o.target e.panel.tree).command o.values with
    | ok command => exact .composes hcall hcommand
    | error error => exact .fails (by simp) e.panel
  | submitting xml =>
    rw [Call.step, Order.step]
    -- Whether the order was submitted or refused, the panel is the one that `submit` leaves.
    cases hsubmit : e.panel.submit o.device o.vector xml with
    | mk result p =>
      cases result with
      | ok _ => exact .submits hcall hsubmit
      | error error => exact .fails (ne_alert_of_submit hsubmit) p
  | announcing => exact .announces hcall

/-- Every step of a caller that wants `o` settled is one of `Took`.  No later proof unfolds the
    step of a call. -/
theorem took_of_step? (hpursues : Pursues o e.call) (hstep : e.step? .own = some e') :
    Took o e e' := by
  obtain ⟨-, rfl⟩ := own_of_step? hstep
  generalize hcall : e.call = c at hpursues ⊢
  -- One case for each call of `Pursues`; the two waits are instances of `took_wait`.
  cases hpursues with
  | await phase =>
    refine took_wait (w := o.takesCommand) hcall (fun next => .waits hcall next) ?_
    rintro seen a rfl ha
    refine .finds hcall ?_
    have hcondition : (if (o.target e.panel.tree).isReady then some () else none) = some a := ha
    split at hcondition
    · assumption
    · cases hcondition
  | confirm =>
    cases htoken : e.cancelled with
    | true => exact .fails (by simp) e.panel
    | false => exact .confirms hcall htoken
  | place hphase => exact took_place hcall hphase
  | settle phase =>
    refine took_wait (w := o.settled) hcall (fun next => .listens hcall next) ?_
    rintro seen a rfl ha
    exact .judges hcall ha

/-- A move of anyone else neither brings the caller on nor ends its call. -/
theorem call_of_step? (hm : m ≠ .own) (hstep : e.step? m = some e') :
    e'.call = e.call ∧ e'.result = e.result := by
  cases m with
  | own => exact absurd rfl hm
  | cancel =>
    obtain rfl := Option.some.inj hstep
    exact ⟨rfl, rfl⟩
  | panel m =>
    obtain ⟨p, -, rfl⟩ := Option.map_eq_some_iff.1 hstep
    exact ⟨rfl, rfl⟩

/-! ### What lasts of the panel -/

/-- What happens to the panel: the step of a call for a step of the caller, and nothing when the
    token is cancelled. -/
def onPanel? (e : Errand) : Move → Option Panel.Move
  | .own => some (.call e.cancelled e.call)
  | .cancel => none
  | .panel m => some m

/-- A move that leaves the devices alone is one on the panel as well. -/
theorem spares_of_onPanel? {path : List String} {m' : Panel.Move} (hm : m.Spares path)
    (hm' : e.onPanel? m = some m') : m'.Spares (Store.Rests path) := by
  cases m with
  | cancel => cases hm'
  | own =>
    obtain rfl := Option.some.inj hm'
    trivial
  | panel m =>
    obtain rfl := Option.some.inj hm'
    exact hm

/-- Messages are delivered by the connection, and so not by a step of the caller. -/
theorem eq_panel_of_delivers? {p : Panel} {m' : Panel.Move} {msg : Message}
    (hm' : e.onPanel? m = some m') (hdelivers : p.delivers? m' = some msg) : m = .panel m' := by
  cases m with
  | cancel => cases hm'
  | own =>
    obtain rfl := Option.some.inj hm'
    cases hdelivers
  | panel m =>
    obtain rfl := Option.some.inj hm'
    rfl

/-- Every move is a move of the panel, or leaves it alone.  So what holds of all moves of a panel
    holds here. -/
theorem panel_of_step? (hstep : e.step? m = some e') :
    (m = .cancel ∧ e'.panel = e.panel) ∨
      ∃ m', e.onPanel? m = some m' ∧ e.panel.step? m' = some e'.panel := by
  cases m with
  | own =>
    obtain ⟨-, rfl⟩ := own_of_step? hstep
    exact .inr ⟨_, rfl, congrArg some (panel_proceed e _).symm⟩
  | cancel =>
    obtain rfl := Option.some.inj hstep
    exact .inl ⟨rfl, rfl⟩
  | panel m =>
    obtain ⟨p, hp, rfl⟩ := Option.map_eq_some_iff.1 hstep
    exact .inr ⟨m, rfl, hp⟩

/-- What lasts of a panel, seen from one vector: its devices are left to the connection, no list
    stands on the way to the state of the vector, the announced state fits the phase of the
    connection, and there are no devices in a phase without any. -/
structure Kept (l : Layout) (device name : String) (p : Panel) : Prop where
  entrusted : p.Entrusted l
  straight : p.hub.store.Says (fun _ => True) (l.state device name)
  announced : p.Announced
  bare : p.connection.phase.isBare = true → p.hub.store.Bare l.treePath

/-- All of `Kept` holds of a panel that was just opened. -/
theorem kept_open {config : PanelConfig} {p : Panel} (h : Panel.open? config = .ok p) :
    Kept config.layout device name p where
  entrusted := Panel.entrusted_open h
  straight := Panel.says_open h _
  announced := Panel.announced_open h
  bare := (Panel.tidied_open h).bare

/-- `Kept` is preserved by every move of the panel that leaves the devices alone. -/
theorem Kept.step {p p' : Panel} {m : Panel.Move} (hk : Kept l device name p)
    (hm : m.Spares (Store.Rests l.treePath)) (hstep : p.step? m = some p') :
    Kept l device name p' := by
  obtain ⟨hentrusted, hedits⟩ := hk.entrusted.step hm hstep
  exact
    { entrusted := hentrusted
      straight := hedits.state hk.entrusted.writer hk.straight (fun _ _ _ _ => trivial)
        fun _ _ _ _ => trivial
      announced := (Panel.announced_step hk.announced hstep).1
      bare := hedits.bare hk.straight.straight_tree hk.bare }

/-- `Kept` is preserved by every move while the caller has its request, its own steps included. -/
theorem Kept.errand (hk : Kept l device name e.panel) (hm : m.Spares l.treePath)
    (hstep : e.step? m = some e') : Kept l device name e'.panel := by
  rcases panel_of_step? hstep with ⟨-, hpanel⟩ | ⟨m', hm', hstep'⟩
  · rwa [hpanel]
  · exact hk.step (spares_of_onPanel? hm hm') hstep'

/-! ### Vectors that are disturbed -/

/-- The vector of an order is a view of the store. -/
theorem target_eq {p : Panel} (hlayout : p.config.layout = l) (o : Order) :
    o.target p.tree = l.view p.hub.store o.device o.vector := hlayout ▸ rfl

/-- A vector that takes orders goes on to do so after one more move, or the move is one of others
    and disturbs it.  The step of the caller in which it submits its own order is left out by
    `hown`. -/
theorem ready_step (hk : Kept l o.device o.vector e.panel) (hm : m.Spares l.treePath)
    (hstep : e.step? m = some e') (hown : m = .own → e.call.order? = none)
    (hready : (o.target e.panel.tree).isReady = true) :
    (o.target e'.panel.tree).isReady = true ∨
      ∃ m', m = .panel m' ∧ e.panel.Disturbs l o.device o.vector m' := by
  have hk' := hk.errand hm hstep
  rw [target_eq hk.entrusted.layout] at hready
  rw [target_eq hk'.entrusted.layout]
  rcases panel_of_step? hstep with ⟨-, hpanel⟩ | ⟨m', hm', hstep'⟩
  · rw [hpanel]
    exact .inl hready
  · cases m with
    | cancel => cases hm'
    | own =>
      obtain rfl := Option.some.inj hm'
      have hedits := (hk.entrusted.step (m := .call e.cancelled e.call) trivial hstep').2
      refine .inl ((hedits.ready hk.entrusted.writer hk.straight hready).resolve_right ?_)
      -- A step of a call that leaves no order delivers and clears nothing.
      rintro (⟨msg, hdelivers, -⟩ | hclears | ⟨o', horders, -⟩)
      · cases hdelivers
      · exact hclears
      · rw [Panel.orders?, hown rfl, Option.map_none, ite_self] at horders
        cases horders
    | panel m =>
      obtain rfl := Option.some.inj hm'
      have hedits := (hk.entrusted.step hm hstep').2
      refine (hedits.ready hk.entrusted.writer hk.straight hready).imp_right fun hdisturbs => ?_
      exact ⟨m, rfl, hdisturbs⟩

end Steps

end Errand

/-! ### Commands that are accepted -/

/-- A panel accepts the command of an order: there is a stream, and in one step the command is left
    for the connection and the vector, if it is there, becomes busy.  It is not said that the
    vector was free before, since the step does not look. -/
structure Order.Takes (o : Order) (command : Command) (p p' : Panel) : Prop where
  connected : p.status.isConnected = true
  submitted : p.submit o.device o.vector command.toXml = (.ok (), p')
  left : p'.connection.outbound = p.connection.outbound ++ [command.toXml]
  busy : (o.target p.tree).isPresent = true → (o.target p'.tree).state? = some .busy

namespace Errand

variable {l : Layout} {o : Order} {command : Command} {p p' : Panel}

/-- What becomes of the store when an order is accepted: the vector is marked if it is there, and
    the callbacks that hear of it leave the devices as they are then. -/
theorem rests_of_submit (hk : Kept l o.device o.vector p) {xml : String}
    (hsubmit : p.submit o.device o.vector xml = (.ok (), p')) :
    (TreeWriter.markBusy l o.device o.vector p.hub.store).1 = .ok () ∧
      ∀ i, Store.Rests l.treePath i
        (TreeWriter.markBusy l o.device o.vector p.hub.store).2 →
          Store.Rests l.treePath i p'.hub.store := by
  obtain ⟨⟨-, rfl, hy⟩, -⟩ := hk
  obtain ⟨hconnected, hmark⟩ := Panel.markBusy_of_submit hsubmit
  obtain ⟨-, -, hhub⟩ := Panel.submit_of_connected
    (Store.lasting_rests p.writer.layout.treePath) hy hconnected o.device o.vector xml
  rw [hsubmit] at hhub
  exact ⟨hmark, hhub.store⟩

/-- An order that is submitted is accepted as `Order.Takes` says.  From then on the vector is busy
    or not there, and so nothing is said of its state but that it is `Unsettled`, which is what the
    answer to the order is told from. -/
theorem takes_of_submit (hk : Kept l o.device o.vector p) (hk' : Kept l o.device o.vector p')
    (hsubmit : p.submit o.device o.vector command.toXml = (.ok (), p')) :
    o.Takes command p p' ∧
      p'.hub.store.Says VectorState.Unsettled (l.state o.device o.vector) := by
  obtain ⟨hmark, hrests⟩ := rests_of_submit hk hsubmit
  have hconnected := (Panel.markBusy_of_submit hsubmit).1
  have hconnection := Panel.connection_submit hconnected o.device o.vector command.toXml
  rw [hsubmit] at hconnection
  -- The callbacks leave the devices as the mark left them, so the view of the vector is the marked
  -- one.
  have hbusy : p.hub.store.contains (l.vector o.device o.vector) = true →
      (o.target p'.tree).state? = some .busy := by
    intro hpresent
    have hmarked := TreeWriter.says_markBusy hk.straight o.device o.vector fun _ _ => trivial
    rw [target_eq hk'.entrusted.layout,
      Layout.view_congr (hrests _ ⟨hmarked.straight_tree, rfl⟩).2]
    exact TreeWriter.state?_markBusy hpresent hmark
  refine ⟨⟨hconnected, hsubmit, congrArg Connection.outbound hconnection, fun hpresent => ?_⟩, ?_⟩
  · refine hbusy ?_
    rwa [target_eq hk.entrusted.layout, VectorView.isPresent, l.node_view] at hpresent
  · cases hpresent : p.hub.store.contains (l.vector o.device o.vector) with
    | true =>
      have hstate := hbusy hpresent
      rw [target_eq hk'.entrusted.layout] at hstate
      exact Store.says_of_busy hk'.straight hstate
    | false =>
      -- Nothing was marked, and nothing has come into being by that.
      have hsaid : p.hub.store.Says VectorState.Unsettled (l.state o.device o.vector) :=
        Store.says_of_absent hk.straight hpresent
      rw [TreeWriter.markBusy, hpresent, if_neg Bool.false_ne_true] at hrests
      exact hsaid.of_rests_tree hrests

end Errand

end Observatory
