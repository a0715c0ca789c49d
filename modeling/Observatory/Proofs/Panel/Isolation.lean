import Mathlib.Data.List.Infix
import Observatory.Proofs.Indi.Oversized
import Observatory.Proofs.Panel.Reception

/-!
# Sessions that know nothing of each other

When a session is over, its bytes, its messages and its devices are forgotten, at three moments
between which anything else may happen.  Whatever the sessions before were like, and wherever they
broke off, the next one begins as the first one does.

* `Framer.reset_nextMessage`, `MessageQueue.clear_popReady?`, …: what is there before anything has
  arrived does not change;
* `Connection.Purged`: a connection that has forgotten the last session when it should;
* `Panel.Equipped`: a tree without devices when there should be none;
* `Reception.start`: the beginning of every session;
* `Panel.isolated_run`: what the devices are in a session.
-/

namespace Observatory

/-! ### Framers and queues -/

namespace Framer

variable {f g : Framer}

theorem limit_next (f : Framer) : f.next.2.limit = f.limit := by
  induction f using nextInduction with
  | waits f hnone =>
    rw [next_of_none hnone, wait_eq]
    split <;> exact limit_waiting f
  | ends f t a f' ht hm =>
    have hlimit := (f.meet_bounds ht).1
    rw [hm] at hlimit
    rw [next_ends ht hm]
    exact hlimit
  | goesOn f t f' ht hm ih =>
    have hlimit := (f.meet_bounds ht).1
    rw [hm] at hlimit
    rw [next_goesOn ht hm]
    exact ih.trans hlimit

/-- A call of `nextMessage` changes only what `reset` forgets. -/
theorem reset_nextMessage {result : Except FramingError (Option String)}
    (h : f.nextMessage = (result, g)) : g.reset = f.reset := by
  have hg : f.next.2 = g := congrArg Prod.snd h
  rw [reset, reset, ← hg, level_next, limit_next]

end Framer

namespace MessageQueue

variable {q q' : MessageQueue} {m : Message} {now : Nat}

/-- A push changes only what `clear` forgets. -/
theorem clear_push (q : MessageQueue) (m : Message) (now : Nat) :
    (q.push m now).clear = q.clear := by
  rw [push]
  split
  · rfl
  · split <;> rfl

/-- A pop changes only what `clear` forgets. -/
theorem clear_popReady? (h : q.popReady? now = some (m, q')) : q'.clear = q.clear := by
  obtain ⟨-, -, -, -, -, -, -, rfl⟩ := popReady?_eq_some h
  rfl

end MessageQueue

/-! ### What is forgotten -/

namespace Connection

/-- Whether, in this phase, the connection has forgotten its last session. -/
def Phase.isPurged : Phase → Bool
  | idle | dialing | emptied | cleared | refused | resting _ | ending | stopped => true
  | greeting | serving | framing | delivered | leaving => false

theorem not_isPurged {c : Connection} {phase : Phase} (hphase : c.phase = phase)
    (h : phase.isPurged = false) : ¬ c.phase.isPurged = true := by
  rw [hphase, h]
  exact Bool.false_ne_true

/-- The framer and the queue of the connection are those of the configuration, up to what `reset`
    and `clear` forget, and exactly so between sessions. -/
structure Purged (config : PanelConfig) (c : Connection) : Prop where
  framer : c.framer.reset = config.framer
  queue : c.queue.clear = config.queue
  between : c.phase.isPurged = true → c.framer = config.framer ∧ c.queue = config.queue

end Connection

namespace Panel

open TreeWriter (Standing)

section Steps

variable {config : PanelConfig} {l : Layout} {p p' : Panel} {m : Move} {now : Nat}
  {e : Connection.Event}

/-- A panel that was opened is `Purged`. -/
theorem purged_open (h : open? config = .ok p) : p.connection.Purged config := by
  obtain rfl := eq_of_open? h
  exact ⟨rfl, rfl, fun _ => ⟨rfl, rfl⟩⟩

/-- `Purged` is kept by every transition. -/
theorem purged_turn (h : p.connection.Purged config) (hturn : Turn now p e p') :
    p'.connection.Purged config := by
  obtain ⟨hframer, hqueue, hbetween⟩ := h
  -- Where the phase after the transition is one of a session, nothing is said about what waits.
  cases hturn with
  | hear => exact ⟨hframer, hqueue, nofun⟩
  | deliver hphase hpop =>
    exact ⟨hframer, (MessageQueue.clear_popReady? hpop).trans hqueue, nofun⟩
  | take hphase hnext hm =>
    exact ⟨(Framer.reset_nextMessage hnext).trans hframer,
      (MessageQueue.clear_push _ _ _).trans hqueue,
      fun hpurged => absurd hpurged (Connection.not_isPurged hphase rfl)⟩
  | skip hphase hnext | misread hphase hnext | misframe hphase hnext =>
    exact ⟨(Framer.reset_nextMessage hnext).trans hframer, hqueue,
      fun hpurged => absurd hpurged (Connection.not_isPurged hphase rfl)⟩
  | drain hphase hnext => exact ⟨(Framer.reset_nextMessage hnext).trans hframer, hqueue, nofun⟩
  | send hphase =>
    exact ⟨hframer, hqueue, fun hpurged => absurd hpurged (Connection.not_isPurged hphase rfl)⟩
  | empty => exact ⟨hframer, hqueue, fun _ => ⟨hframer, hqueue⟩⟩
  | accept | greet | failToGreet | cut | fail | lose | leave | notice =>
    exact ⟨hframer, hqueue, nofun⟩
  | rest hphase =>
    refine ⟨hframer, hqueue, fun _ => hbetween ?_⟩
    rcases hphase with hphase | hphase <;> rw [hphase] <;> rfl
  | dial hphase | giveUp hphase | miss hphase | abandon hphase | clear hphase | wake hphase
  | retire hphase | stop hphase =>
    exact ⟨hframer, hqueue, fun _ => hbetween (by rw [hphase]; rfl)⟩

/-- The store shows some devices at the path of the layout, and none between sessions. -/
structure Equipped (l : Layout) (p : Panel) : Prop where
  layout : p.writer.layout = l
  callbacks : p.hub.synchronizer.Spares (Standing l)
  stands : ∃ devices, Standing l devices p.hub.store ∧
    (p.connection.phase.isBare = true → devices.getD .empty = .empty)

/-- A panel that was opened is `Equipped`. -/
theorem equipped_open (h : open? config = .ok p) (hl : config.layout.Separate) :
    p.Equipped config.layout := by
  obtain rfl := eq_of_open? h
  exact ⟨rfl, List.forall_mem_nil _, none, TreeWriter.stands_start hl {}, fun _ => rfl⟩

/-- `Equipped` is kept by every transition. -/
theorem Equipped.turn (h : p.Equipped l) (hl : l.Separate) (hfits : p.connection.queue.Fitting)
    (hturn : Turn now p e p') : p'.Equipped l := by
  have hlasting := TreeWriter.lasting_standing l
  obtain ⟨hlayout, hcallbacks⟩ := hturn.kept hlasting h.callbacks
  obtain ⟨devices, hstands, hbare⟩ := h.stands
  have hdraw := (spared_announce hlasting h.callbacks id).store _ hstands
  refine ⟨hlayout.trans h.layout, hcallbacks, ?_⟩
  -- The devices change only by a delivery and by the clearing; otherwise at most a number is
  -- drawn.
  cases hturn with
  | deliver hphase hpop =>
    obtain ⟨-, -, hdelivered⟩ :=
      stands_deliver hl h.layout h.callbacks hstands (hfits.fits hpop)
    exact ⟨_, hdelivered, nofun⟩
  | clear hphase =>
    have hclear : p.clearTree = p.committed (TreeWriter.clear l p.hub.store).2 := by
      rw [clearTree, h.layout]
    rw [hclear]
    exact ⟨_, (spared_committed hlasting h.callbacks _).store _ (hstands.clear hl), fun _ => rfl⟩
  | accept | failToGreet | cut | fail | notice => exact ⟨_, hdraw, nofun⟩
  | greet | hear | lose | leave | drain | empty => exact ⟨_, hstands, nofun⟩
  | send | take | skip => exact ⟨_, hstands, hbare⟩
  | misread | misframe => exact ⟨_, hdraw, hbare⟩
  | giveUp hphase | abandon hphase | wake hphase | retire hphase =>
    exact ⟨_, hstands, fun _ => hbare (by rw [hphase]; rfl)⟩
  | dial hphase | miss hphase | stop hphase =>
    exact ⟨_, hdraw, fun _ => hbare (by rw [hphase]; rfl)⟩
  | rest hphase =>
    refine ⟨_, hdraw, fun _ => hbare ?_⟩
    rcases hphase with hphase | hphase <;> rw [hphase] <;> rfl

/-- `Equipped` is kept by an order, which marks nothing where there are no devices. -/
theorem Equipped.submit (h : p.Equipped l) (hl : l.Separate) (device vector xml : String) :
    (p.submit device vector xml).2.Equipped l := by
  obtain ⟨rfl, hcallbacks, devices, hstands, hbare⟩ := h
  cases hconnected : p.status.isConnected with
  | false =>
    rw [submit_of_not_connected hconnected]
    exact ⟨rfl, hcallbacks, devices, hstands, hbare⟩
  | true =>
    obtain ⟨hconnection, hwriter, hhub⟩ := submit_of_connected
      (TreeWriter.lasting_standing p.writer.layout) hcallbacks hconnected device vector xml
    refine ⟨congrArg TreeWriter.layout hwriter, hhub.callbacks, _,
      hhub.store _ (hstands.markBusy hl device vector), fun hphase => ?_⟩
    rw [hconnection] at hphase
    exact DeviceMap.getD_write_update (hbare hphase) _

/-- `Purged` and `Equipped` are kept by every move. -/
theorem purged_equipped_step (hp : p.connection.Purged config) (he : p.Equipped l)
    (hl : l.Separate) (hfits : p.connection.queue.Fitting) (hm : m.Spares (Standing l))
    (hstep : p.step? m = some p') : p'.connection.Purged config ∧ p'.Equipped l := by
  have hlasting := TreeWriter.lasting_standing l
  -- Orders leave a command and mark a vector; nothing of that is in the framer or in the queue.
  cases deed_of_step? hlasting he.callbacks hm hstep with
  | turn hturn => exact ⟨purged_turn hp hturn, he.turn hl hfits hturn⟩
  | @submit cancelled c o xml horder =>
    refine ⟨?_, he.submit hl o.device o.vector xml⟩
    cases hconnected : p.status.isConnected with
    | false => rwa [submit_of_not_connected hconnected]
    | true =>
      rw [connection_submit hconnected]
      exact ⟨hp.framer, hp.queue, hp.between⟩
  | leave | close => exact ⟨⟨hp.framer, hp.queue, hp.between⟩, he.layout, he.callbacks, he.stands⟩
  | announce =>
    obtain ⟨devices, hstands, hbare⟩ := he.stands
    exact ⟨⟨hp.framer, hp.queue, hp.between⟩, he.layout, he.callbacks, devices,
      (spared_announce hlasting he.callbacks id).store _ hstands, hbare⟩
  | look => exact ⟨hp, he⟩
  | aside htask hcall haside =>
    obtain ⟨hconnection, hwriter, hhub⟩ := haside
    obtain ⟨devices, hstands, hbare⟩ := he.stands
    refine ⟨hconnection ▸ hp, (congrArg TreeWriter.layout hwriter).trans he.layout,
      hhub.callbacks, devices, hhub.store _ hstands, ?_⟩
    rwa [hconnection]

end Steps

/-! ### Sessions -/

section Sessions

variable {config : PanelConfig} {p q : Panel} {history : List Move}

/-- After every run, a panel is `Purged` and `Equipped`. -/
theorem purged_equipped_run (hopen : open? config = .ok p) (hl : config.layout.Separate)
    (halone : Undisturbed config.layout p history) (hrun : p.run? history = some q) :
    q.connection.Purged config ∧ q.Equipped config.layout := by
  refine run?_induction (p := p) (motive := fun moves q => Undisturbed config.layout p moves →
    q.connection.Purged config ∧ q.Equipped config.layout)
    (fun _ => ⟨purged_open hopen, equipped_open hopen hl⟩) ?_ hrun halone
  intro moves q m r hmoves ih hstep halone
  have hpre : moves <+: moves ++ [m] := List.prefix_append _ _
  obtain ⟨hpurged, hequipped⟩ := ih (halone.of_prefix hpre)
  exact purged_equipped_step hpurged hequipped hl (halone.fits moves hpre q hmoves)
    (halone.others m (List.mem_append_right _ (List.mem_singleton_self m))) hstep

end Sessions

end Panel

/-- The beginning of every session: nothing but the configuration. -/
def Reception.start (config : PanelConfig) : Reception :=
  { phase := .greeting, framer := config.framer, queue := config.queue, devices := .empty }

namespace Panel

/-- The devices of a panel without revisions, where nothing and an empty object count as the
    same. -/
def plainDevices (l : Layout) (p : Panel) : Json :=
  ((p.get? l.treePath).getD .emptyObject).unrevised

section Isolation

variable {config : PanelConfig} {l : Layout} {p q : Panel} {x : Reception}
  {history session : List Move} {now : Nat}

/-- A panel that opens a stream `Receives` what every session begins with. -/
theorem receives_accept (hp : p.connection.Purged config) (he : p.Equipped config.layout)
    (hturn : Turn now p .accepted q) : q.Receives config.layout (.start config) := by
  have hlasting := TreeWriter.lasting_standing config.layout
  obtain ⟨hlayout, hcallbacks⟩ := hturn.kept hlasting he.callbacks
  obtain ⟨devices, hstands, hbare⟩ := he.stands
  have hdraw := (spared_announce hlasting he.callbacks id).store _ hstands
  -- Between sessions framer and queue are those of the configuration, and the tree is bare.
  cases hturn with
  | accept hphase =>
    obtain ⟨hframer, hqueue⟩ := hp.between (by rw [hphase]; rfl)
    exact
      { layout := hlayout.trans he.layout
        callbacks := hcallbacks
        connected := rfl
        stream := rfl
        phase := rfl
        framer := hframer
        queue := hqueue
        stands := ⟨devices, hdraw, hbare (by rw [hphase]; rfl)⟩ }

/-- From the opening of a stream on, the panel follows the machine from its start, whatever
    happened before. -/
theorem follows_start (hopen : open? config = .ok p) (hl : config.layout.Separate)
    (halone : Undisturbed config.layout p (history ++ .task now .accepted :: session))
    (hopens : ∀ m ∈ session, m.opens = false)
    (hrun : p.run? (history ++ .task now .accepted :: session) = some q) :
    q.Follows config.layout ((Reception.start config).run? (session.filterMap Move.input?)) := by
  rw [run?_append] at hrun
  obtain ⟨r, hr, hrun⟩ := Option.bind_eq_some_iff.1 hrun
  rw [run?_cons] at hrun
  obtain ⟨r', hstep, hsession⟩ := Option.bind_eq_some_iff.1 hrun
  -- The past makes the panel `Purged` and `Equipped`, and that is all that is used of it.
  have hhistory := halone.of_prefix (List.prefix_append _ _)
  obtain ⟨hpurged, hequipped⟩ := purged_equipped_run hopen hl hhistory hr
  have hstart := receives_accept hpurged hequipped (turn_of_handle? hstep)
  refine hstart.run hl ⟨fun m hm => ?_, fun before hbefore s hs => ?_⟩ hopens hsession
  · exact halone.others m (List.mem_append_right _ (List.mem_cons_of_mem _ hm))
  · refine halone.fits (history ++ .task now .accepted :: before) ?_ s ?_
    · exact (List.prefix_append_right_inj _).2 (List.cons_prefix_cons.2 ⟨rfl, hbefore⟩)
    · rw [run?_append, hr, Option.bind_some, run?_cons, hstep]
      exact hs

/-- Along a session, every message that waits in the machine fits, since it waits in the panel. -/
theorem fitting_start (hopen : open? config = .ok p) (hl : config.layout.Separate)
    (halone : Undisturbed config.layout p (history ++ .task now .accepted :: session))
    (hopens : ∀ m ∈ session, m.opens = false)
    (hrun : p.run? (history ++ .task now .accepted :: session) = some q)
    {inputs : List Reception.Input} (hpre : inputs <+: session.filterMap Move.input?)
    (hx : (Reception.start config).run? inputs = some x) : x.queue.Fitting := by
  obtain ⟨before, ⟨after, rfl⟩, rfl⟩ := List.prefix_filterMap_iff.1 hpre
  -- The inputs so far are those of a part of the session, and at its end panel and machine agree.
  have hbefore : history ++ .task now .accepted :: before <+:
      history ++ .task now .accepted :: (before ++ after) :=
    ⟨after, by rw [List.append_assoc, List.cons_append]⟩
  rw [← List.cons_append, ← List.append_assoc, run?_append] at hrun
  obtain ⟨r, hr, -⟩ := Option.bind_eq_some_iff.1 hrun
  have hfollows := follows_start hopen hl (halone.of_prefix hbefore)
    (fun m hm => hopens m (List.mem_append_left _ hm)) hr
  rw [hx] at hfollows
  exact hfollows.queue ▸ halone.fits _ hbefore r hr

/-- Two panels that have received the same have the same devices but for revisions. -/
theorem Receives.plainDevices_eq {p' : Panel} (h : p.Receives l x) (h' : p'.Receives l x) :
    p.plainDevices l = p'.plainDevices l := by
  obtain ⟨devices, hstands, hsame⟩ := h.stands
  obtain ⟨devices', hstands', hsame'⟩ := h'.stands
  exact hstands.shows.unrevised_getD hstands'.shows (hsame.trans hsame'.symm)

/-- A panel that was just opened can open a stream at once. -/
theorem exists_fresh (hopen : open? config = .ok p) (hl : config.layout.Separate) (now : Nat) :
    ∃ r, p.run? [.task now .proceed, .task now .accepted] = some r ∧
      r.Receives config.layout (.start config) := by
  have hpurged := purged_open hopen
  have hequipped := equipped_open hopen hl
  have hfits : p.connection.queue.Fitting := by
    obtain rfl := eq_of_open? hopen
    exact List.forall_mem_nil _
  -- Two transitions: it dials, and the server takes the call.
  have hdial : Turn now p .proceed ((p.enter .connecting).move .dialing) := by
    obtain rfl := eq_of_open? hopen
    exact .dial rfl rfl
  have haccept : Turn now _ .accepted ((p.enter .connecting).move .dialing).beginSession :=
    .accept rfl
  refine ⟨_, ?_, receives_accept (purged_turn hpurged hdial) (hequipped.turn hl hfits hdial)
    haccept⟩
  obtain rfl := eq_of_open? hopen
  rfl

/-- **Sessions know nothing of each other.** Whatever a connection went through before a stream was
    opened, as long as the stream is there the devices are those of a fresh connection that takes
    in only what comes in since then, at the same times and in the same order.  They are also those
    of any other session, after any other past, with the same bytes, orders and times. -/
theorem isolated_run (hopen : open? config = .ok p) (hl : config.layout.Separate)
    (halone : Undisturbed config.layout p (history ++ .task now .accepted :: session))
    (hopens : ∀ m ∈ session, m.opens = false)
    (hrun : p.run? (history ++ .task now .accepted :: session) = some q)
    (hstream : q.connection.phase.hasStream = true) :
    (∃ q', p.run? ([.task now .proceed, .task now .accepted] ++
          session.filter fun m => m.input?.isSome) = some q' ∧
        q'.connection.phase = q.connection.phase ∧
          q'.plainDevices config.layout = q.plainDevices config.layout) ∧
      ∀ history' now' session' q',
        Undisturbed config.layout p (history' ++ .task now' .accepted :: session') →
        (∀ m ∈ session', m.opens = false) →
        p.run? (history' ++ .task now' .accepted :: session') = some q' →
        session'.filterMap Move.input? = session.filterMap Move.input? →
          q'.connection.phase = q.connection.phase ∧
            q'.plainDevices config.layout = q.plainDevices config.layout := by
  -- Each of the panels has come to what the machine has come to.
  have hfollows := follows_start hopen hl halone hopens hrun
  have hfits : ∀ before, before <+: session.filterMap Move.input? → ∀ x,
      (Reception.start config).run? before = some x → x.queue.Fitting := fun _ hbefore _ =>
    fitting_start hopen hl halone hopens hrun hbefore
  cases hx : (Reception.start config).run? (session.filterMap Move.input?) with
  | none =>
    rw [hx] at hfollows
    exact absurd (hfollows.symm.trans hstream) Bool.false_ne_true
  | some x =>
    rw [hx] at hfollows
    refine ⟨?_, fun history' now' session' q' halone' hopens' hrun' hinputs => ?_⟩
    · obtain ⟨r, hr, hreceives⟩ := exists_fresh hopen hl now
      have hfilter : (session.filter fun m => m.input?.isSome).filterMap Move.input? =
          session.filterMap Move.input? := by
        rw [List.filterMap_filter]
        refine List.filterMap_congr fun m _ => ?_
        cases m.input? <;> rfl
      obtain ⟨q', hq', hfresh⟩ := hreceives.exists_run hl
        (fun m hm => (List.mem_filter.1 hm).2) (hfilter.symm ▸ hfits) (hfilter.symm ▸ hx)
      refine ⟨q', ?_, hfresh.phase.trans hfollows.phase.symm, hfresh.plainDevices_eq hfollows⟩
      rw [run?_append, hr]
      exact hq'
    · have hfollows' := follows_start hopen hl halone' hopens' hrun'
      rw [hinputs, hx] at hfollows'
      exact ⟨hfollows'.phase.trans hfollows.phase.symm, hfollows'.plainDevices_eq hfollows⟩

/-- The server sends the beginning of a tag, hangs up, and takes another call.  In between somebody
    writes a value of their own. -/
def tornHistory : List Move :=
  [.task 0 .proceed, .task 0 .accepted, .task 0 .proceed, .task 0 (.received [0x3c, 0x61]),
    .task 0 .proceed, .mutate fun s => (s.put ["focus"] (.nat 7)).2, .task 0 .hungUp,
    .task 0 .proceed, .task 0 .proceed, .task 0 .proceed, .task 3000 .elapsed,
    .task 3000 .proceed]

/-- The server sends what would be the end of the tag, and defines a vector, which gets an
    order. -/
def tornSession : List Move :=
  [.task 3000 .proceed,
    .task 3000 (.received ("/><defTextVector device='D' name='V' state='Ok'/>".toList.map
      fun c => c.toNat.toUInt8)),
    .task 3000 .proceed, .task 3000 .proceed, .task 3000 .elapsed, .task 3000 .proceed,
    .call false (.give ⟨"D", "V", []⟩ (.submitting "<x/>")), .task 3000 .command]

/-- The definition in `tornSession`. -/
def tornDefinition : Definition :=
  { kind := .text, device := "D", name := "V", state := .ok, members := [], timestamp := none,
    message := none, attributes := [] }

/-- `isolated_run` on `tornSession` after `tornHistory`: the second session has its vector and no
    trace of the tag. -/
theorem isolated_run_torn : ∃ p q q', open? {} = .ok p ∧
    p.run? (tornHistory ++ .task 3000 .accepted :: tornSession) = some q ∧
    p.run? ([.task 3000 .proceed, .task 3000 .accepted] ++
      tornSession.filter fun m => m.input?.isSome) = some q' ∧
    (q.get? ["deviceTree", "D", "V"]).isSome = true ∧
    q'.plainDevices {} = q.plainDevices {} := by
  have hopen : open? {} = .ok { hub := { maxPasses := 16 } } := rfl
  have hrun : (run? { hub := { maxPasses := 16 } }
      (tornHistory ++ .task 3000 .accepted :: tornSession)).map (fun q =>
        (q.connection.phase, (q.get? ["deviceTree", "D", "V"]).isSome)) =
      some (.serving, true) := by decide +kernel
  -- No message waits but the definition of the vector.
  have hwaits : (tornHistory ++ .task 3000 .accepted :: tornSession).inits.all (fun before =>
      (run? { hub := { maxPasses := 16 } } before).all fun q =>
        q.connection.queue.entries.all fun e => e.message = .define tornDefinition) = true := by
    decide +kernel
  obtain ⟨q, hq, hend⟩ := Option.map_eq_some_iff.1 hrun
  obtain ⟨hphase, hvector⟩ := Prod.mk.inj hend
  have hseparate : (PanelConfig.layout {}).Separate :=
    Layout.separate_of_not_prefix (by decide) (by decide)
  have halone : Undisturbed (PanelConfig.layout {}) { hub := { maxPasses := 16 } }
      (tornHistory ++ .task 3000 .accepted :: tornSession) := by
    -- What is written beside the devices and the log is nothing to them.
    have hfocus : (Move.mutate fun s => (s.put ["focus"] (.nat 7)).2).Spares
        (TreeWriter.Standing (PanelConfig.layout {})) := by
      intro devices s h
      have hsurvives : Store.Survives (TreeWriter.Standing (PanelConfig.layout {}) devices)
          ["focus"] := TreeWriter.survives_standing (by decide) (by decide)
        (Layout.separate_of_not_prefix (by decide) (by decide))
      exact hsurvives.put [] (Json.firm_nat 7).proper h
    refine ⟨?_, fun before hbefore r hr e he => ?_⟩
    · simp only [tornHistory, tornSession, List.cons_append, List.nil_append, List.forall_mem_cons]
      exact ⟨trivial, trivial, trivial, trivial, trivial, hfocus, by simp [Move.Spares]⟩
    have hall := List.all_eq_true.1 hwaits before ((List.mem_inits _ _).2 hbefore)
    rw [hr, Option.all_some] at hall
    rw [of_decide_eq_true (List.all_eq_true.1 hall e he)]
    exact Nat.zero_le _
  obtain ⟨⟨q', hq', -, hdevices⟩, -⟩ := isolated_run hopen hseparate halone (by decide) hq
    (hphase ▸ rfl)
  exact ⟨_, q, q', hopen, hq, hq', hvector, hdevices⟩

end Isolation

end Panel

end Observatory
