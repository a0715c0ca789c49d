import Observatory.Proofs.Panel.Errand

/-!
# Answers to orders

A caller that wants an order settled waits until its vector takes an order, confirms that its token
is not cancelled, gives the order, and waits for the answer.  Between any two of these steps the
connection goes on, others take the steps of their calls, and anyone may use the hub, in any order.
The vector may be redefined or deleted, and streams come and go.  What the caller found before its
order was accepted may be out of date by then, since the panel does not look again: a message, a
cleared tree or another order may have come in between.  But from the acceptance on the vector is
busy or not there, and nobody says otherwise except a message about it.

* `Errand.Past`, `Errand.Since`: properties of runs, and what came after a step of the caller;
* `Errand.Accepted`: the caller found its vector ready, confirmed, and its command was accepted;
* `Errand.Answered`: a result that tells of a message which came after that;
* `Errand.Stage`, `Errand.Course`, `Errand.Course.step`: how far the caller came, with a case for
  every move;
* `Errand.confirmed_before_cancel`: a caller that is cancelled before it confirms leaves nothing;
* `Errand.answers_run`: every answer came after the command was accepted;
* `Errand.misled`: what may have changed between the last look of the caller and its order.
-/

namespace Observatory

namespace Errand

/-! ### Properties of runs -/

/-- A property of a run: of the errand at its start, of its moves, and of the errand at its end.
    It sees all the moves, so it can say in which order things happened. -/
abbrev Past := Errand → List Move → Errand → Prop

/-- The property that every run has. -/
def Whatever : Past := fun _ _ _ => True

/-- `Since P Q start moves e`: along the moves from `start` to `e` the caller took a step from some
    `u` to some `v`, and `P before u v` holds with the moves before it.  The rest of the run, from
    `v` to `e`, has the property `Q`. -/
def Since (P : List Move → Errand → Errand → Prop) (Q : Past) : Past := fun start moves e =>
  ∃ before after u v, moves = before ++ .own :: after ∧ start.run? before = some u ∧
    u.step? .own = some v ∧ P before u v ∧ v.run? after = some e ∧ Q v after e

/-- A message that defines or updates a vector is delivered in a run. -/
def Heard (device name : String) : Past := fun start moves _ =>
  ∃ before m after u msg, moves = before ++ .panel m :: after ∧ start.run? before = some u ∧
    u.panel.delivers? m = some msg ∧ msg.Concerns device name

/-- Someone else disturbs the vector of an order in a run, as `Panel.Disturbs` says of one move: a
    message is delivered that defines, updates or may erase it, the tree is cleared, or an order for
    the same vector is left. -/
def Disturbed (l : Layout) (o : Order) : Past := fun start moves _ =>
  ∃ before m after u, moves = before ++ .panel m :: after ∧ start.run? before = some u ∧
    u.panel.Disturbs l o.device o.vector m

/-- At the end of a run the vector of an order is still there and not busy, unless someone else has
    disturbed it. -/
def Still (l : Layout) (o : Order) : Past := fun start moves e =>
  (o.target e.panel.tree).isReady = true ∨ Disturbed l o start moves e

/-! ### What a caller has done -/

/-- In its first wait, with its next step, the caller finds the vector there and not busy. -/
structure Finds (o : Order) (u : Errand) : Prop where
  call : ∃ seen, u.call = .await o (.judging seen)
  ready : (o.target u.panel.tree).isReady = true

/-- With its next step the caller confirms that its token is not cancelled. -/
structure Confirms (o : Order) (u : Errand) : Prop where
  call : u.call = .confirm o
  token : u.cancelled = false

/-- With its next step the caller makes a command of its order and of the vector as it is. -/
structure Composes (o : Order) (command : Command) (u : Errand) : Prop where
  call : u.call = .place o .composing
  composed : (o.target u.panel.tree).command o.values = .ok command

/-- With the step from `u` to `v` the caller submits its command, and the panel accepts it. -/
structure Submits (o : Order) (command : Command) (u v : Errand) : Prop where
  call : u.call = .place o (.submitting command.toXml)
  takes : o.Takes command u.panel v.panel

/-- The caller has found the vector ready.  It still is, unless someone else has disturbed it, and
    the run since then has the property `Q` as well. -/
def Looked (l : Layout) (o : Order) (Q : Past) : Past :=
  Since (fun _ u _ => Finds o u) fun v after e => Still l o v after e ∧ Q v after e

/-- The caller has confirmed that its token is not cancelled, and the run since then has the
    property `Q`. -/
def Confirmed (o : Order) (Q : Past) : Past := Since (fun _ u _ => Confirms o u) Q

/-- The caller has made its command, of its order and of the vector as it was then. -/
def Composed (o : Order) (command : Command) : Past :=
  Since (fun _ u _ => Composes o command u) Whatever

/-- The command of the caller was accepted.  Before that it had found the vector ready, then
    confirmed, then made the command; and when it was accepted, the vector was still ready unless
    someone else had disturbed it.  The run since then has the property `Q`. -/
def Accepted (l : Layout) (o : Order) (Q : Past) : Past := fun start =>
  Since (fun before u v => ∃ command,
    Looked l o (Confirmed o (Composed o command)) start before u ∧ Submits o command u v) Q start

/-- The states of a vector that a result tells of: success tells of an idle vector or of one that is
    fine, and the error `alert` of one in alert.  Other errors tell of no state. -/
def Tells : Call.Result → VectorState → Prop
  | .ok _, state => state = .idle ∨ state = .ok
  | .error (.alert _ _), state => state = .alert
  | .error _, _ => False

/-- With the step from `w` to `x` the caller ends its second wait: while a stream is open, it sees
    the vector in a state of which its result tells. -/
structure Judges (o : Order) (result : Call.Result) (w x : Errand) : Prop where
  call : ∃ seen, w.call = .settle o (.judging seen)
  connected : w.panel.status.isConnected = true
  verdict : ∃ state, (o.target w.panel.tree).state? = some state ∧ Tells result state
  result : x.result = some result

/-- The result of the caller is an answer: its command was accepted, then a message that defines or
    updates the vector was delivered, and after that the caller saw what its result tells of. -/
def Answered (l : Layout) (o : Order) (result : Call.Result) : Past := fun start =>
  Since (fun before w x =>
    Accepted l o (Heard o.device o.vector) start before w ∧ Judges o result w x) Whatever start

/-- In a run the caller leaves something for the connection. -/
def Sent (start : Errand) (moves : List Move) : Prop :=
  ∃ before after u v, moves = before ++ .own :: after ∧ start.run? before = some u ∧
    u.step? .own = some v ∧ v.panel.connection.outbound ≠ u.panel.connection.outbound

/-- In a run the caller confirms that its token is not cancelled. -/
def ConfirmedIn (o : Order) (start : Errand) (moves : List Move) : Prop :=
  ∃ before after u, moves = before ++ .own :: after ∧ start.run? before = some u ∧ Confirms o u

section Course

variable {l : Layout} {o : Order} {start e e' : Errand} {moves : List Move} {m : Move}
  {P : List Move → Errand → Errand → Prop} {Q Q' : Past} {device name : String}
  {result : Call.Result} {command : Command}

/-- The step with which a run ends is one for `Since`, if the run before it has the property `P`,
    and nothing has happened since. -/
theorem since_own (hrun : start.run? moves = some e) (hstep : e.step? .own = some e')
    (hP : P moves e e') (hQ : Q e' [] e') : Since P Q start (moves ++ [.own]) e' :=
  ⟨moves, [], e, e', rfl, hrun, hstep, hP, rfl, hQ⟩

/-- One more move at the end of a run, whoever takes it, leaves the step of `Since` where it was.
    The run since that step goes on from `Q` to `Q'`. -/
theorem Since.concat (h : Since P Q start moves e) (hstep : e.step? m = some e')
    (hQ : ∀ v after, v.run? after = some e → Q v after e → Q' v (after ++ [m]) e') :
    Since P Q' start (moves ++ [m]) e' := by
  obtain ⟨before, after, u, v, rfl, hu, hv, hP, hafter, hQe⟩ := h
  refine ⟨before, after ++ [m], u, v, by simp, hu, hv, hP, ?_, hQ v after hafter hQe⟩
  rw [run?_concat, hafter]
  exact hstep

/-- `Since P Whatever` is kept by every move: a step that the caller took is behind it for good. -/
theorem Since.whatever (h : Since P Whatever start moves e) (hstep : e.step? m = some e') :
    Since P Whatever start (moves ++ [m]) e' := h.concat hstep fun _ _ _ _ => trivial

/-- `Heard` is kept by every move: a message that was delivered stays delivered. -/
theorem Heard.concat (h : Heard device name start moves e) (m : Move) (e' : Errand) :
    Heard device name start (moves ++ [m]) e' := by
  obtain ⟨before, m', after, u, msg, rfl, hu, hdelivers, hconcerns⟩ := h
  exact ⟨before, m', after ++ [m], u, msg, by simp, hu, hdelivers, hconcerns⟩

/-- `Still` is kept by every move of others, and by every step of the caller but the one in which
    it submits its order.  A move that disturbs the vector is the witness from then on. -/
theorem Still.concat (h : Still l o start moves e) (hrun : start.run? moves = some e)
    (hk : Kept l o.device o.vector e.panel) (hm : m.Spares l.treePath)
    (hstep : e.step? m = some e') (hown : m = .own → e.call.order? = none) :
    Still l o start (moves ++ [m]) e' := by
  rcases h with hready | ⟨before, m', after, u, rfl, hu, hdisturbs⟩
  · -- Up to now nobody had disturbed the vector, and this move may be the first to do so.
    refine (ready_step hk hm hstep hown hready).imp_right ?_
    rintro ⟨m', rfl, hdisturbs⟩
    exact ⟨moves, m', [], e, rfl, hrun, hdisturbs⟩
  · exact .inr ⟨before, m', after ++ [m], u, by simp, hu, hdisturbs⟩

/-- `Looked` is kept by every move but the submission: the look of the caller stays behind it, and
    what it saw is `Still` so. -/
theorem Looked.concat (h : Looked l o Q start moves e) (hk : Kept l o.device o.vector e.panel)
    (hm : m.Spares l.treePath) (hstep : e.step? m = some e')
    (hown : m = .own → e.call.order? = none)
    (hQ : ∀ v after, v.run? after = some e → Q v after e → Q' v (after ++ [m]) e') :
    Looked l o Q' start (moves ++ [m]) e' :=
  Since.concat h hstep fun v after hafter ⟨hstill, hQe⟩ =>
    ⟨hstill.concat hafter hk hm hstep hown, hQ v after hafter hQe⟩

/-! ### How far a caller came -/

/-- Since the command was accepted a message about the vector was delivered, or nothing is said of
    its state but that it is busy.  This is the invariant of the second wait. -/
def Unanswered (l : Layout) (o : Order) : Past := fun start moves e =>
  Heard o.device o.vector start moves e ∨
    e.panel.hub.store.Says VectorState.Unsettled (l.state o.device o.vector)

/-- What a caller that is not done has behind it, by the call that it comes to next. -/
inductive Stage (l : Layout) (o : Order) (start : Errand) (moves : List Move) (e : Errand) :
    Call → Prop
  | awaiting (phase : Wait.Phase) : Stage l o start moves e (.await o phase)
  | confirming (h : Looked l o Whatever start moves e) : Stage l o start moves e (.confirm o)
  | placing {phase : Order.Phase} (hphase : phase = .checking ∨ phase = .composing)
    (h : Looked l o (Confirmed o Whatever) start moves e) :
    Stage l o start moves e (.place o phase)
  | submitting (command : Command)
    (h : Looked l o (Confirmed o (Composed o command)) start moves e) :
    Stage l o start moves e (.place o (.submitting command.toXml))
  | announcing (h : Accepted l o (Unanswered l o) start moves e) :
    Stage l o start moves e (.place o .announcing)
  | settling (phase : Wait.Phase) (h : Accepted l o (Unanswered l o) start moves e) :
    Stage l o start moves e (.settle o phase)

/-- How far a caller came: at a `Stage` of its call, or at a result, and then the result is an
    answer if it tells of a state.  This is the invariant of a run. -/
structure Course (l : Layout) (o : Order) (start : Errand) (moves : List Move) (e : Errand) :
    Prop where
  running : e.result = none → Stage l o start moves e e.call
  ended : ∀ result, e.result = some result → (∃ state, Tells result state) →
    Answered l o result start moves e

/-- At every stage the call is one that a caller with this order comes to. -/
theorem Stage.pursues {c : Call} (h : Stage l o start moves e c) : Pursues o c := by
  cases h with
  | awaiting phase => exact .await phase
  | confirming => exact .confirm
  | placing hphase => rcases hphase with rfl | rfl <;> exact .place nofun
  | submitting | announcing => exact .place nofun
  | settling phase => exact .settle phase

/-- A caller that has just come with its order is on its `Course`. -/
theorem course_start (l : Layout) (o : Order) (p : Panel) :
    Course l o (ofOrder o p) [] (ofOrder o p) := ⟨fun _ => .awaiting .checking, nofun⟩

/-- While an answer is waited for, only a message about the vector says something else of its state
    than that it is busy.  So `Unanswered` is kept by every move. -/
theorem Accepted.concat (h : Accepted l o (Unanswered l o) start moves e)
    (hk : Kept l o.device o.vector e.panel) (hm : m.Spares l.treePath)
    (hstep : e.step? m = some e') : Accepted l o (Unanswered l o) start (moves ++ [m]) e' := by
  refine Since.concat h hstep fun v after hafter hunanswered => ?_
  rcases hunanswered with hheard | hsaid
  · exact .inl (hheard.concat m e')
  · rcases panel_of_step? hstep with ⟨-, hpanel⟩ | ⟨m', hm', hstep'⟩
    · refine .inr ?_
      rwa [hpanel]
    · have hedits := (hk.entrusted.step (spares_of_onPanel? hm hm') hstep').2
      -- A message about the vector is what is waited for; anything else leaves its state
      -- unsettled.
      by_cases hmsg : ∃ msg, e.panel.delivers? m' = some msg ∧ msg.Concerns o.device o.vector
      · obtain ⟨msg, hdelivers, hconcerns⟩ := hmsg
        obtain rfl := eq_panel_of_delivers? hm' hdelivers
        exact .inl ⟨after, m', [], e, msg, rfl, hafter, hdelivers, hconcerns⟩
      · refine .inr (hedits.state hk.entrusted.writer hsaid ?_ fun _ _ _ _ => ?_)
        · exact fun msg hdelivers hconcerns => absurd ⟨msg, hdelivers, hconcerns⟩ hmsg
        · exact VectorState.unsettled_busy

/-- Every move of others leaves a caller at its stage. -/
theorem Stage.other {c : Call} (h : Stage l o start moves e c)
    (hk : Kept l o.device o.vector e.panel) (hm : m.Spares l.treePath) (hother : m ≠ .own)
    (hstep : e.step? m = some e') : Stage l o start (moves ++ [m]) e' c := by
  have hown : m = .own → e.call.order? = none := fun h => absurd h hother
  cases h with
  | awaiting phase => exact .awaiting phase
  | confirming h => exact .confirming (h.concat hk hm hstep hown fun _ _ _ _ => trivial)
  | placing hphase h =>
    exact .placing hphase (h.concat hk hm hstep hown fun _ _ _ h => h.whatever hstep)
  | submitting command h =>
    exact .submitting command (h.concat hk hm hstep hown fun _ _ _ h =>
      h.concat hstep fun _ _ _ h => h.whatever hstep)
  | announcing h => exact .announcing (h.concat hk hm hstep)
  | settling phase h => exact .settling phase (h.concat hk hm hstep)

/-- What the caller finds in the end tells of the state of its vector, and that is not busy, or it
    tells of no state at all. -/
theorem tells_of_answer? {t : DeviceTree} {answer : Except OperationError Unit}
    (h : o.answer? t = some answer) :
    (∃ state, (o.target t).state? = some state ∧ state ≠ .busy ∧
      Tells (answer.map fun _ => none) state) ∨
        ∀ state, ¬ Tells (answer.map fun _ => none) state := by
  rw [Order.answer?] at h
  -- Without a vector the answer is an error that tells of no state, and while it is busy there is
  -- no answer.
  split at h
  · cases h
    exact .inr fun _ => id
  · cases h
  · next hstate =>
    cases h
    exact .inl ⟨_, hstate, nofun, rfl⟩
  · next hstate =>
    cases h
    exact .inl ⟨_, hstate, nofun, .inl rfl⟩
  · next hstate =>
    cases h
    exact .inl ⟨_, hstate, nofun, .inr rfl⟩

/-- Every error but `alert` tells of no state. -/
theorem not_tells_error {error : OperationError} (h : ∀ device vector, error ≠ .alert device vector)
    (state : VectorState) : ¬ Tells (.error error) state := by
  cases error with
  | alert device vector => exact absurd rfl (h device vector)
  | _ => exact id

/-- A caller that sees a settled vector has heard of it since its command was accepted, and a
    stream is open. -/
theorem Accepted.heard {state : VectorState} (h : Accepted l o (Unanswered l o) start moves e)
    (hk : Kept l o.device o.vector e.panel)
    (hstate : (o.target e.panel.tree).state? = some state) (hne : state ≠ .busy) :
    Accepted l o (Heard o.device o.vector) start moves e ∧
      e.panel.status.isConnected = true := by
  rw [target_eq hk.entrusted.layout] at hstate
  constructor
  · obtain ⟨before, after, u, v, rfl, hu, hv, hP, hafter, hunanswered⟩ := h
    refine ⟨before, after, u, v, rfl, hu, hv, hP, hafter, hunanswered.resolve_right fun hsaid => ?_⟩
    -- Without a message the vector could only be seen busy.
    obtain ⟨text, hname, hunsettled⟩ := hsaid.exists_text hstate
    exact hne (hunsettled state hname)
  · have hcontains : e.panel.hub.store.contains (l.vector o.device o.vector) = true := by
      rw [l.state?_view] at hstate
      rw [Store.contains]
      cases hnode : e.panel.hub.store.node? (l.vector o.device o.vector) with
      | some n => rfl
      | none =>
        rw [hnode] at hstate
        cases hstate
    exact Panel.isConnected_of_contains hk.announced hk.bare hcontains

/-- `Course` is kept by a step of the caller, with a case for each way of `Took`.  A step that ends
    the second wait makes the result an answer. -/
theorem Course.own (h : Course l o start moves e) (hrun : start.run? moves = some e)
    (hk : Kept l o.device o.vector e.panel) (hstep : e.step? .own = some e') :
    Course l o start (moves ++ [.own]) e' := by
  have hk' : Kept l o.device o.vector e'.panel := hk.errand (m := .own) trivial hstep
  have hresult := (own_of_step? hstep).1
  have hstage := h.running hresult
  have hrunning : ∀ {e' : Errand}, e'.result = e.result →
      Stage l o start (moves ++ [.own]) e' e'.call → Course l o start (moves ++ [.own]) e' :=
    fun {e'} hsame hstage => by
      refine ⟨fun _ => hstage, fun result hsome => ?_⟩
      rw [hsame, hresult] at hsome
      cases hsome
  have htook := took_of_step? hstage.pursues hstep
  -- Each step but the last two kinds leads to a stage, which it adds to what the caller has done.
  cases htook with
  | waits hcall next => exact hrunning rfl (.awaiting next)
  | @finds seen hcall hready =>
    exact hrunning rfl (.confirming (since_own hrun hstep ⟨⟨seen, hcall⟩, hready⟩
      ⟨.inl hready, trivial⟩))
  | confirms hcall htoken =>
    rw [hcall] at hstage
    cases hstage with
    | confirming hlooked =>
      refine hrunning rfl (.placing (.inl rfl) (hlooked.concat hk trivial hstep ?_ ?_))
      · exact fun _ => hcall ▸ rfl
      · exact fun v after hafter _ => since_own hafter hstep ⟨hcall, htoken⟩ trivial
  | connects hcall =>
    rw [hcall] at hstage
    cases hstage with
    | placing _ hlooked =>
      refine hrunning rfl (.placing (.inr rfl) (hlooked.concat hk trivial hstep ?_ ?_))
      · exact fun _ => hcall ▸ rfl
      · exact fun _ _ _ hconfirmed => hconfirmed.whatever hstep
  | @composes hcall command hcommand =>
    rw [hcall] at hstage
    cases hstage with
    | placing _ hlooked =>
      refine hrunning rfl (.submitting command (hlooked.concat hk trivial hstep ?_ ?_))
      · exact fun _ => hcall ▸ rfl
      · exact fun _ _ _ hconfirmed => hconfirmed.concat hstep fun v after hafter _ =>
          since_own hafter hstep ⟨hcall, hcommand⟩ trivial
  | @submits xml hcall p hsubmit =>
    rw [hcall] at hstage
    cases hstage with
    | placing hphase => rcases hphase with hphase | hphase <;> cases hphase
    | submitting command hlooked =>
      obtain ⟨htakes, hsaid⟩ := takes_of_submit hk hk' hsubmit
      exact hrunning rfl (.announcing (since_own hrun hstep
        ⟨command, hlooked, hcall, htakes⟩ (.inr hsaid)))
  | announces hcall =>
    rw [hcall] at hstage
    cases hstage with
    | placing hphase => rcases hphase with hphase | hphase <;> cases hphase
    | announcing haccepted =>
      exact hrunning rfl (.settling .checking (haccepted.concat hk trivial hstep))
  | listens hcall next =>
    rw [hcall] at hstage
    cases hstage with
    | settling _ haccepted =>
      exact hrunning rfl (.settling next (haccepted.concat hk trivial hstep))
  | @judges seen hcall answer hanswer =>
    rw [hcall] at hstage
    cases hstage with
    | settling _ haccepted =>
      refine ⟨fun hnone => absurd hnone (Option.some_ne_none _), fun result hsome htells => ?_⟩
      obtain rfl := Option.some.inj hsome
      rcases tells_of_answer? hanswer with ⟨state, hstate, hne, htells⟩ | hnone
      · -- The state is settled, so the caller has heard of it, and this step is the answer.
        obtain ⟨hheard, hconnected⟩ := haccepted.heard hk hstate hne
        exact since_own hrun hstep ⟨hheard, ⟨seen, hcall⟩, hconnected, ⟨state, hstate, htells⟩, rfl⟩
          trivial
      · obtain ⟨state, htells⟩ := htells
        exact absurd htells (hnone state)
  | fails herror p =>
    refine ⟨fun hnone => absurd hnone (Option.some_ne_none _), fun result hsome htells => ?_⟩
    obtain rfl := Option.some.inj hsome
    obtain ⟨state, htells⟩ := htells
    exact absurd htells (not_tells_error herror state)

/-- `Course` is kept by every move. -/
theorem Course.step (h : Course l o start moves e) (hrun : start.run? moves = some e)
    (hk : Kept l o.device o.vector e.panel) (hm : m.Spares l.treePath)
    (hstep : e.step? m = some e') : Course l o start (moves ++ [m]) e' := by
  by_cases hown : m = .own
  · subst hown
    exact h.own hrun hk hstep
  · obtain ⟨hcall, hresult⟩ := call_of_step? hown hstep
    refine ⟨fun hnone => ?_, fun result hsome htells => ?_⟩
    · rw [hcall]
      exact (h.running (hresult ▸ hnone)).other hk hm hown hstep
    · exact (h.ended result (hresult ▸ hsome) htells).whatever hstep

/-- `Course` and `Kept` hold after every run of a caller that comes to a panel that was just
    opened, as long as all moves leave the devices to the connection. -/
theorem course_run {config : PanelConfig} {p : Panel} (hopen : Panel.open? config = .ok p)
    (hothers : ∀ m ∈ moves, m.Spares config.layout.treePath)
    (hrun : (ofOrder o p).run? moves = some e) :
    Kept config.layout o.device o.vector e.panel ∧
      Course config.layout o (ofOrder o p) moves e := by
  -- By induction on the run from its end; `Kept` goes along, as every step of `Course` needs it.
  refine foldlM_induction (motive := fun moves e =>
    (∀ m ∈ moves, m.Spares config.layout.treePath) →
      Kept config.layout o.device o.vector e.panel ∧
        Course config.layout o (ofOrder o p) moves e) ?_ ?_ hrun hothers
  · exact fun _ => ⟨kept_open hopen, course_start _ o p⟩
  · intro moves u m v hmoves ih hstep hothers
    obtain ⟨hothers, hm⟩ := List.forall_mem_append.1 hothers
    obtain ⟨hk, hcourse⟩ := ih hothers
    have hspares := hm m (List.mem_singleton_self m)
    exact ⟨hk.errand hspares hstep, hcourse.step hmoves hk hspares hstep⟩

/-! ### Cancellation -/

/-- Where the token is cancelled in a run, it is cancelled at the end: no move takes a cancellation
    back. -/
theorem cancelled_run (hrun : start.run? moves = some e) (h : .cancel ∈ moves) :
    e.cancelled = true := by
  refine foldlM_induction (motive := fun moves e => .cancel ∈ moves → e.cancelled = true)
    (fun h => absurd h List.not_mem_nil) ?_ hrun h
  intro moves u m v hmoves ih hstep hmem
  rw [List.mem_append, List.mem_singleton] at hmem
  -- Only `cancel` sets the flag, and nothing resets it.
  cases m with
  | own =>
    obtain ⟨-, rfl⟩ := own_of_step? hstep
    rw [cancelled_proceed]
    exact ih (hmem.resolve_right (by simp))
  | cancel =>
    obtain rfl := Option.some.inj hstep
    rfl
  | panel m =>
    obtain ⟨p', -, rfl⟩ := Option.map_eq_some_iff.1 hstep
    exact ih (hmem.resolve_right (by simp))

/-- A step of the caller that leaves something for the connection is the one that submits its
    command, also when the panel refuses it in the end.  So the caller has looked, confirmed and
    composed before. -/
theorem Stage.of_sent (h : Stage l o start moves e e.call) (hstep : e.step? .own = some e')
    (hsent : e'.panel.connection.outbound ≠ e.panel.connection.outbound) :
    ∃ command, Looked l o (Confirmed o (Composed o command)) start moves e := by
  obtain ⟨-, rfl⟩ := own_of_step? hstep
  have hpursues := h.pursues
  rw [panel_proceed] at hsent
  -- The other calls that leave a command are ones that this caller never comes to.
  rcases e.call.step_cases e.cancelled e.panel with ⟨o', xml, horder, -⟩ |
    ⟨-, ⟨xml, hsend, -⟩ | hannounced | hsame⟩
  · generalize e.call = c at h horder
    cases h with
    | submitting command hlooked => exact ⟨command, hlooked⟩
    | placing hphase => rcases hphase with rfl | rfl <;> cases horder
    | awaiting | confirming | announcing | settling => cases horder
  · rw [hsend] at hpursues
    cases hpursues
  · exact absurd (congrArg (·.connection.outbound) hannounced) hsent
  · exact absurd (congrArg (·.connection.outbound) hsame) hsent

/-- What a caller leaves for the connection, it leaves after it has confirmed that its token was
    not cancelled.  So if the token is cancelled at some time, and the caller leaves anything in
    the whole run, it had confirmed before that time. -/
theorem confirmed_before_cancel {config : PanelConfig} {p : Panel} {before after : List Move}
    (hopen : Panel.open? config = .ok p)
    (hothers : ∀ m ∈ before ++ .cancel :: after, m.Spares config.layout.treePath)
    (hsent : (ofOrder o p).Sent (before ++ .cancel :: after)) :
    (ofOrder o p).ConfirmedIn o before := by
  obtain ⟨first, rest, u, v, hsplit, hu, hv, hleft⟩ := hsent
  have hcourse := (course_run (o := o) hopen (fun m hm => hothers m ?_) hu).2
  swap
  · rw [hsplit]
    exact List.mem_append_left _ hm
  obtain ⟨command, hlooked⟩ := (hcourse.running (own_of_step? hv).1).of_sent hv hleft
  -- The caller confirmed at `c`, after the moves `looked` and `further`.
  obtain ⟨looked, between, a, b, rfl, ha, hb, -, -, -, further, composed, c, d, rfl, hc, hd,
    hconfirms, -⟩ := hlooked
  have hrun : (ofOrder o p).run? (looked ++ .own :: further) = some c := by
    rw [run?_append, ha]
    show (a.step? .own).bind _ = _
    rw [hb]
    exact hc
  have huncancelled : .cancel ∉ looked ++ .own :: further := by
    intro hmem
    exact absurd (hconfirms.token.symm.trans (cancelled_run hrun hmem)) Bool.false_ne_true
  -- Both ways to cut the run at a step are the same run, so one cut is not before the other.
  have hwhole : before ++ .cancel :: after =
      (looked ++ .own :: further) ++ .own :: (composed ++ .own :: rest) := by
    rw [hsplit]
    simp
  rcases List.append_eq_append_iff.1 hwhole with ⟨more, hmore, hcancel⟩ | ⟨more, rfl, hown⟩
  · -- The token cannot have been cancelled before it was found not to be.
    cases more with
    | nil => cases hcancel
    | cons m more =>
      obtain rfl := (List.cons.inj hcancel).1
      rw [hmore] at huncancelled
      simp at huncancelled
  · cases more with
    | nil => cases hown
    | cons m more =>
      obtain rfl := (List.cons.inj hown).1
      exact ⟨_, more, c, rfl, hrun, hconfirms⟩

/-- A result that tells of a state is an answer, in every run from an opened panel. -/
theorem answered_of_tells {config : PanelConfig} {p : Panel} (hopen : Panel.open? config = .ok p)
    (hothers : ∀ m ∈ moves, m.Spares config.layout.treePath)
    (hrun : (ofOrder o p).run? moves = some e) (hresult : e.result = some result)
    (htells : ∃ state, Tells result state) :
    Answered config.layout o result (ofOrder o p) moves e :=
  (course_run hopen hothers hrun).2.ended result hresult htells

/-- **Answers to orders.** A caller gives an order and waits for the answer, by single steps, and
    between any two of them the connection, other callers and other users of the hub may do
    whatever they like, as long as they leave the devices to the connection (`Move.Spares`).  Then
    `ok` and `alert` are each an answer to the command of this caller (`Answered`): the caller
    found its vector there and not busy, confirmed that its token was not cancelled, composed its
    command, and had it accepted in one step that made the vector busy if it was there.  When the
    command was accepted the vector was still there and not busy, except if someone else had
    disturbed it since the caller looked (`Panel.Disturbs`).  A message that defines or updates the
    vector was delivered after that, and then the caller saw the state that it tells of, while a
    stream was open.  And if the token is cancelled before the caller confirms, the caller leaves
    no command. -/
theorem answers_run {config : PanelConfig} {p : Panel} (hopen : Panel.open? config = .ok p)
    (hothers : ∀ m ∈ moves, m.Spares config.layout.treePath)
    (hrun : (ofOrder o p).run? moves = some e) :
    (∀ v, e.result = some (.ok v) →
      Answered config.layout o (.ok v) (ofOrder o p) moves e) ∧
    (∀ device vector, e.result = some (.error (.alert device vector)) →
      Answered config.layout o (.error (.alert device vector)) (ofOrder o p) moves e) ∧
    ∀ before after, moves = before ++ .cancel :: after → (ofOrder o p).Sent moves →
      (ofOrder o p).ConfirmedIn o before := by
  refine ⟨fun v hresult => ?_, fun device vector hresult => ?_, fun before after hmoves hsent => ?_⟩
  · exact answered_of_tells hopen hothers hrun hresult ⟨.idle, .inl rfl⟩
  · exact answered_of_tells hopen hothers hrun hresult ⟨.alert, rfl⟩
  · subst hmoves
    exact confirmed_before_cancel hopen hothers hsent

/-! ### Runs -/

/-- A stream is opened. -/
def connecting : List Move :=
  [.panel (.task 0 .proceed), .panel (.task 0 .accepted), .panel (.task 0 .proceed)]

/-- The driver says something, and the connection reads, queues and delivers it. -/
def hearing (now : Nat) (xml : String) : List Move :=
  [.panel (.task now (.received (xml.toList.map fun c => c.toNat.toUInt8))),
    .panel (.task now .proceed), .panel (.task now .proceed), .panel (.task now .elapsed),
    .panel (.task now .proceed)]

/-- The caller takes some steps. -/
def going (n : Nat) : List Move := List.replicate n .own

/-- The caller asks for a vector that is not there yet.  It is defined, the caller gives its order
    while the driver sends a message that is not about the vector, and sleeps until the driver has
    answered. -/
def answeredRun : List Move :=
  connecting ++ going 3 ++ hearing 0 "<defTextVector device='D' name='V' state='Idle'/>" ++
    going 6 ++ hearing 1 "<message message='hello'/>" ++ going 6 ++ [.panel (.task 1 .command)] ++
    hearing 2 "<setTextVector device='D' name='V' state='Ok'/>" ++ going 4

/-- Whether a caller is done, and without an error. -/
def isFine (e : Errand) : Bool :=
  match e.result with
  | some (.ok _) => true
  | _ => false

theorem isFine_iff : e.isFine = true ↔ ∃ v, e.result = some (.ok v) := by
  rw [isFine]
  constructor
  · intro h
    split at h
    · next v hv => exact ⟨v, hv⟩
    · cases h
  · rintro ⟨v, hv⟩
    rw [hv]

/-- In `answeredRun` the result is `ok`, and so it is an answer. -/
theorem answers_run_ok : ∃ p e v, Panel.open? {} = .ok p ∧
    (∀ m ∈ answeredRun, m.Spares ["deviceTree"]) ∧
    (ofOrder ⟨"D", "V", []⟩ p).run? answeredRun = some e ∧ e.result = some (.ok v) ∧
    Answered (PanelConfig.layout {}) ⟨"D", "V", []⟩ (.ok v) (ofOrder ⟨"D", "V", []⟩ p)
      answeredRun e := by
  have hopen : Panel.open? {} = .ok { hub := { maxPasses := 16 } } := rfl
  have hspares : ∀ m ∈ answeredRun, m.Spares ["deviceTree"] := by
    simp [answeredRun, connecting, hearing, going, Move.Spares, Panel.Move.Spares]
  have hend : ((ofOrder ⟨"D", "V", []⟩ { hub := { maxPasses := 16 } }).run? answeredRun).map
      isFine = some true := by decide +kernel
  obtain ⟨e, hrun, hfine⟩ := Option.map_eq_some_iff.1 hend
  obtain ⟨v, hresult⟩ := isFine_iff.1 hfine
  have hanswered := (answers_run (o := ⟨"D", "V", []⟩) hopen hspares hrun).1 v hresult
  exact ⟨_, e, v, hopen, hspares, hrun, hresult, hanswered⟩

/-! ### What an answer does not say -/

/-- The plain reading of an answer, without what others may do: when the command of the caller was
    accepted the vector was there and not busy, and a message about it was delivered after that. -/
def Plain (o : Order) : Past :=
  Since (fun _ u v => (∃ command, Submits o command u v) ∧ (o.target u.panel.tree).isReady = true)
    (Heard o.device o.vector)

/-- A run misleads its caller: it gets `ok`, but not by the plain reading. -/
def Misleads (config : PanelConfig) (o : Order) (moves : List Move) : Prop :=
  ∃ p e v, Panel.open? config = .ok p ∧ (ofOrder o p).run? moves = some e ∧
    e.result = some (.ok v) ∧ ¬ Plain o (ofOrder o p) moves e

/-- Whether every move of a run passes a check.  The check sees the errand before the move, the
    move, and the moves to come. -/
def passes (check : Errand → Move → List Move → Bool) : Errand → List Move → Bool
  | _, [] => true
  | e, m :: rest => check e m rest && (e.step? m).all fun next => next.passes check rest

/-- A run that `passes` a check, cut at one of its moves: the check holds there. -/
theorem check_of_passes {check : Errand → Move → List Move → Bool} {u : Errand}
    {before after : List Move} (h : start.passes check (before ++ m :: after) = true)
    (hrun : start.run? before = some u) : check u m after = true := by
  induction before generalizing start with
  | nil =>
    obtain rfl := Option.some.inj hrun
    exact (Bool.and_eq_true_iff.1 h).1
  | cons first before ih =>
    obtain ⟨next, hnext, hrest⟩ := Option.bind_eq_some_iff.1 hrun
    have hpasses := (Bool.and_eq_true_iff.1 h).2
    rw [hnext] at hpasses
    exact ih hpasses hrest

/-- Whether a move delivers nothing about the vector of an order. -/
def isQuiet (o : Order) (e : Errand) : Move → Bool
  | .panel m => (e.panel.delivers? m).all fun msg => !decide (msg.Concerns o.device o.vector)
  | .own | .cancel => true

/-- Whether a move is none by which the caller submits its command as `Plain` wants it: if it
    submits, then the vector is not ready, or nothing is heard of it in the moves to come. -/
def isBlind (o : Order) (e : Errand) (m : Move) (rest : List Move) : Bool :=
  match m, e.call with
  | .own, .place _ (.submitting _) =>
    !(o.target e.panel.tree).isReady ||
      (e.step? .own).all fun next => next.passes (fun u m _ => u.isQuiet o m) rest
  | _, _ => true

/-- A run whose moves are all `isBlind` is not `Plain`.  This is how a run is shown to mislead by
    evaluation. -/
theorem not_plain_of_blind (h : start.passes (isBlind o) moves = true) :
    ¬ Plain o start moves e := by
  rintro ⟨before, after, u, v, rfl, hu, hv, ⟨⟨command, hsubmits⟩, hready⟩, -, hheard⟩
  have hblind := check_of_passes h hu
  simp only [isBlind, hsubmits.call, hready, hv, Bool.not_true, Bool.false_or,
    Option.all_some] at hblind
  obtain ⟨between, m, rest, w, msg, rfl, hw, hdelivers, hconcerns⟩ := hheard
  have hquiet := check_of_passes hblind hw
  rw [isQuiet, hdelivers, Option.all_some, decide_eq_true hconcerns] at hquiet
  cases hquiet

/-- A run in which the caller gets `ok` misleads it if all its moves are `isBlind`. -/
theorem misleads_of_blind {config : PanelConfig} {p : Panel} (hopen : Panel.open? config = .ok p)
    (hend : ((ofOrder o p).run? moves).map isFine = some true)
    (hblind : (ofOrder o p).passes (isBlind o) moves = true) : Misleads config o moves := by
  obtain ⟨e, hrun, hfine⟩ := Option.map_eq_some_iff.1 hend
  obtain ⟨v, hresult⟩ := isFine_iff.1 hfine
  exact ⟨p, e, v, hopen, hrun, hresult, not_plain_of_blind hblind⟩

/-- A vector is defined, and the caller finds it, confirms, and makes its command. -/
def composing : List Move :=
  connecting ++ hearing 0 "<defTextVector device='D' name='V' state='Idle'/>" ++ going 6

/-- Before the caller submits its command, another one gives an order for the same vector.  The
    driver answers that one. -/
def overtakenRun : List Move :=
  composing ++ [.panel (.call false (.give ⟨"D", "V", []⟩ .checking)),
    .panel (.call false (.give ⟨"D", "V", []⟩ .composing)),
    .panel (.call false (.give ⟨"D", "V", []⟩
      (.submitting "<newTextVector device=\"D\" name=\"V\">\n</newTextVector>\n"))),
    .panel (.call false (.give ⟨"D", "V", []⟩ .announcing))] ++ going 5 ++
    hearing 1 "<setTextVector device='D' name='V' state='Ok'/>" ++ going 4

/-- Before the caller submits its command, the vector is deleted.  It is defined again while the
    caller goes to wait for the answer. -/
def vanishedRun : List Move :=
  composing ++ hearing 1 "<delProperty device='D' name='V'/>" ++ going 2 ++
    hearing 2 "<defTextVector device='D' name='V' state='Idle'/>" ++ going 3

/-- The devices are an item of a list that is the log, and the log keeps nothing. -/
def listedConfig : PanelConfig :=
  { server := { maxMessages := 0 }
    hub := { treePath := ["log", "byUid", "0"], messagesPath := ["log"] } }

/-- Others make that list, and write an item of their own behind the devices.  After the order is
    accepted a message is logged, the log drops its first item, and what others wrote stands where
    the devices were. -/
def listedRun : List Move :=
  connecting ++ [.panel (.mutate fun s => (s.put ["log", "byUid"] (.arr [])).2)] ++
    hearing 0 "<defTextVector device='D' name='V' state='Idle'/>" ++
    [.panel (.mutate fun s => (s.put ["log", "byUid", "1"] (.obj [("D", .obj [("V",
      .obj [("$type", .str "Text"), ("$state", .str "Ok")])])])).2)] ++ going 11 ++
    hearing 1 "<message message='hello'/>" ++ going 4

/-- **What may have changed between the last look of a caller and its order.** Another order or a
    deletion may come in between, so that the command is accepted while the vector is busy or not
    there, and a cancellation, so that the command is sent all the same.  And where a list stands
    on the way to the devices, `ok` may be the state of something else, with no message about the
    vector at all. -/
theorem misled :
    ((∀ m ∈ overtakenRun, m.Spares ["deviceTree"]) ∧
      Misleads {} ⟨"D", "V", []⟩ overtakenRun) ∧
    ((∀ m ∈ vanishedRun, m.Spares ["deviceTree"]) ∧ Misleads {} ⟨"D", "V", []⟩ vanishedRun) ∧
    Misleads listedConfig ⟨"D", "V", []⟩ listedRun ∧
    ∃ p, Panel.open? {} = .ok p ∧
      ((ofOrder ⟨"D", "V", []⟩ p).run? composing).map
        (fun e => e.panel.connection.outbound) = some [] ∧
      ((ofOrder ⟨"D", "V", []⟩ p).run? (composing ++ [.cancel, .own])).map
        (fun e => e.panel.connection.outbound) =
          some ["<newTextVector device=\"D\" name=\"V\">\n</newTextVector>\n"] := by
  have hopen : Panel.open? {} = .ok { hub := { maxPasses := 16 } } := rfl
  have hlisted : Panel.open? listedConfig = .ok
      { config := listedConfig, hub := { maxPasses := 16 },
        writer := { layout := listedConfig.layout },
        connection := { framer := listedConfig.framer, queue := listedConfig.queue } } := rfl
  -- Each run is followed by evaluation, and so is the check that all its moves are blind.
  refine ⟨⟨?_, misleads_of_blind hopen ?_ ?_⟩, ⟨?_, misleads_of_blind hopen ?_ ?_⟩,
    misleads_of_blind hlisted ?_ ?_, _, hopen, ?_, ?_⟩
  · simp [overtakenRun, composing, connecting, hearing, going, Move.Spares, Panel.Move.Spares]
  · decide +kernel
  · decide +kernel
  · simp [vanishedRun, composing, connecting, hearing, going, Move.Spares, Panel.Move.Spares]
  all_goals decide +kernel

end Course

end Errand

end Observatory
