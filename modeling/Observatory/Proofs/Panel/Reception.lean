import Observatory.Proofs.DeviceTree.Writing
import Observatory.Proofs.Indi.Deadline
import Observatory.Proofs.Panel.Status

/-!
# What a session receives

While there is a stream, the devices depend on little: on the bytes that come in, on the times at
which messages are taken out of them and delivered, and on the orders that mark vectors.  A small
machine reads nothing else and keeps the framer, the queue and the devices.  A panel follows it
from the moment at which both have the same of these, whatever else happens.

* `TreeWriter.survives_standing`: which devices stand does not depend on writes elsewhere;
* `DeviceMap.getD_write`: no devices and no map of devices are the same to a message;
* `Reception`, `Reception.step?`, `Reception.run?`: the machine and what reaches it;
* `Panel.Receives`: a panel that shows what the machine has come to;
* `Panel.Receives.step`: one move, with a case for every transition;
* `Panel.Receives.run`: moves without a new stream.
-/

namespace Observatory

/-! ### Devices or none -/

theorem KeyMap.getD_apply {α : Type} (o : Option (KeyMap α)) (key : String) :
    o.getD empty key = o.bind fun f => f key := by
  cases o <;> rfl

/-- `alter` in terms of the map that is there or else empty. -/
theorem KeyMap.getD_alter {α : Type} (g : Option α → Option α) (key : String)
    (o : Option (KeyMap α)) :
    (alter g key o).getD empty = (o.getD empty).set key (g (o.getD empty key)) := by
  funext k
  rw [getD_apply, alter_bind, set_apply, getD_apply, getD_apply]

namespace DeviceMap

variable {devices devices' : DeviceMap} {o o' : Option Json}

/-- A message makes the same of no devices and of an empty map of devices. -/
theorem getD_write (h : devices.getD .empty = devices'.getD .empty) (m : Message) :
    (devices.write m).getD .empty = (devices'.write m).getD .empty := by
  -- A message alters one key, and where there is no map one is made for that.
  have halter : ∀ g key, (KeyMap.alter g key devices).getD .empty =
      (KeyMap.alter g key devices').getD .empty := by
    intro g key
    rw [KeyMap.getD_alter, KeyMap.getD_alter, h]
  cases m with
  | define d =>
    rw [write, write, alterVector, alterVector]
    exact halter _ _
  | update u =>
    rw [write, write, alterVector, alterVector]
    exact halter _ _
  | delete d =>
    rw [write, write]
    cases d.name with
    | some name =>
      dsimp only
      rw [alterVector, alterVector]
      exact halter _ _
    | none => exact halter _ _
  | notice n => exact h

/-- An update makes nothing out of no devices. -/
theorem getD_write_update (h : devices.getD .empty = .empty) (u : Update) :
    (devices.write (.update u)).getD .empty = .empty := by
  rw [write_update]
  cases devices with
  | none => rfl
  | some f =>
    have hf : f = .empty := h
    rw [hf]
    exact KeyMap.set_self .empty u.device

/-- What shows the devices, with an empty object in place of nothing, shows the map that is there
    or else empty. -/
theorem Shown.getD (h : devices.Shown o) :
    KeyMap.Shows (KeyMap.Shows VectorFacts.Shown) (devices.getD .empty)
      (o.getD .emptyObject) := by
  cases h with
  | none => exact KeyMap.shows_empty _
  | some h => exact h

/-- Two values that show the same devices are equal without revisions, where no devices and an
    empty map of devices count as the same. -/
theorem Shown.unrevised_getD (h : devices.Shown o) (h' : devices'.Shown o')
    (hsame : devices.getD .empty = devices'.getD .empty) :
    (o.getD .emptyObject).unrevised = (o'.getD .emptyObject).unrevised := by
  have hshows := h'.getD
  rw [← hsame] at hshows
  refine h.getD.unrevised_eq (fun f t t' ht ht' => ?_) hshows
  exact ht.unrevised_eq (fun v t t' ht ht' => ht.unrevised_eq ht') ht'

end DeviceMap

/-! ### What is written elsewhere -/

namespace TreeWriter

variable {l : Layout} {s : Store} {devices : DeviceMap}

/-- The properties of a store that say which devices stand in it, one for each map of devices. -/
abbrev Standing (l : Layout) (devices : DeviceMap) (s : Store) : Prop := Stands l s devices

/-- `Standing` does not depend on ticks and on numbers that are drawn. -/
theorem lasting_standing (l : Layout) (devices : DeviceMap) :
    Store.Lasting (Standing l devices) where
  closeTick := fun h => ⟨(Store.later_closeTick h.valid).valid, h.open_tree, h.open_entry, h.shows⟩
  endTick := fun h => ⟨(Store.later_endTick h.valid).valid, h.open_tree, h.open_entry, h.shows⟩
  draw := fun h => h.draw

/-- `Standing` survives writes at a path that forks from that of the devices and leaves the way to
    the log alone. -/
theorem survives_standing {path : List String} (hp : ¬ path <+: l.treePath)
    (hq : ¬ l.treePath <+: path) (hlog : Layout.Separate { l with treePath := path }) :
    Store.Survives (Standing l devices) path := by
  have htree := fun o => Store.survives_holds hp hq o
  have hentry := fun uid o =>
    Store.survives_holds (hlog.not_prefix_logEntry uid) (hlog.logEntry_not_prefix uid) o
  refine ⟨fun more v hv h => ?_, fun more h => ?_⟩
  · obtain ⟨hvalid, hopen, hreads⟩ := (htree _).put more hv ⟨h.valid, h.open_tree, rfl⟩
    exact ⟨hvalid, hopen, fun uid =>
      ((hentry uid _).put more hv ⟨h.valid, h.open_entry uid, rfl⟩).open_path, hreads ▸ h.shows⟩
  · obtain ⟨hvalid, hopen, hreads⟩ := (htree _).drop more ⟨h.valid, h.open_tree, rfl⟩
    exact ⟨hvalid, hopen, fun uid =>
      ((hentry uid _).drop more ⟨h.valid, h.open_entry uid, rfl⟩).open_path, hreads ▸ h.shows⟩

end TreeWriter

/-! ### Messages that wait -/

namespace MessageQueue

variable {q q' : MessageQueue} {now : Nat} {m : Message}

/-- All messages that wait fit into the tree. -/
def Fitting (q : MessageQueue) : Prop := ∀ e ∈ q.entries, TreeWriter.Fits e.message

/-- A message that is delivered by a `Fitting` queue fits. -/
theorem Fitting.fits (h : q.Fitting) (hpop : q.popReady? now = some (m, q')) :
    TreeWriter.Fits m := by
  obtain ⟨before, e, after, hentries, -, -, rfl, -⟩ := popReady?_eq_some hpop
  refine h e ?_
  rw [hentries]
  exact List.mem_append_right _ List.mem_cons_self

end MessageQueue

/-! ### The machine -/

/-- What a session has come to: the phase of the connection, the framer, the queue, and the
    devices.  It is all that the devices of a session depend on. -/
structure Reception where
  phase : Connection.Phase
  framer : Framer
  queue : MessageQueue
  devices : KeyMap (KeyMap VectorFacts)

namespace Reception

/-- What reaches a session: an event of the connection, or an order for a vector. -/
inductive Input where
  | event (now : Nat) (e : Connection.Event)
  | order (device vector : String)

/-- The devices after a message; no devices and an empty map count as the same. -/
def write (m : Message) (x : Reception) : Reception :=
  { x with devices := (DeviceMap.write (some x.devices) m).getD .empty }

/-- Take one message out of the bytes that came in, as the connection does. -/
def frame (now : Nat) (x : Reception) : Reception :=
  let (result, framer) := x.framer.nextMessage
  let x := { x with framer }
  match result with
  | .ok (some text) =>
    match Message.ofText text with
    | .ok (some m) => { x with queue := x.queue.push m now }
    | .ok none | .error _ => x
  | .ok none => { x with phase := .serving }
  | .error _ => x

/-- What reaches a session and does not end it. -/
def step? (x : Reception) : Input → Option Reception
  | .order device vector => some (x.write (.update (.busy device vector)))
  | .event now e =>
    match x.phase, e with
    | .greeting, .proceed => some { x with phase := .serving }
    | .serving, .received bytes =>
      some { x with framer := x.framer.extend bytes, phase := .framing }
    | .serving, .elapsed => (x.queue.popReady? now).map fun (m, queue) =>
        { x.write m with queue, phase := .delivered }
    | .framing, .proceed => some (x.frame now)
    | .delivered, .proceed => some { x with phase := .serving }
    | _, _ => none

/-- Several inputs. -/
def run? (x : Reception) (inputs : List Input) : Option Reception := inputs.foldlM step? x

theorem run?_append (x : Reception) (inputs inputs' : List Input) :
    x.run? (inputs ++ inputs') = (x.run? inputs).bind fun y => y.run? inputs' :=
  List.foldlM_append

/-- A run of the machine with one more input, or with none. -/
theorem run?_concat (x : Reception) (inputs : List Input) (o : Option Input) :
    x.run? (inputs ++ o.toList) = (x.run? inputs).bind fun y => o.elim (some y) y.step? := by
  cases o with
  | none =>
    rw [Option.toList_none, List.append_nil]
    cases x.run? inputs <;> rfl
  | some i => exact foldlM_concat x inputs i

end Reception

namespace Panel

open TreeWriter (Standing)

/-- What a move is for the machine.  Commands that go out mean nothing to it. -/
def Move.input? : Move → Option Reception.Input
  | .task _ .command => none
  | .task now e => some (.event now e)
  | .call _ c => c.order?.map fun p => .order p.1.device p.1.vector
  | _ => none

theorem filterMap_input?_concat (moves : List Move) (m : Move) :
    (moves ++ [m]).filterMap Move.input? =
      moves.filterMap Move.input? ++ m.input?.toList := by
  rw [List.filterMap_append]
  cases hi : m.input? <;> simp [hi]

/-- `p.Receives l x`: the panel `p` is in a session, with the phase, the framer and the queue of
    the machine `x`, and shows the devices of `x`. -/
structure Receives (l : Layout) (p : Panel) (x : Reception) : Prop where
  layout : p.writer.layout = l
  callbacks : p.hub.synchronizer.Spares (Standing l)
  connected : p.status.isConnected = true
  stream : p.connection.phase.hasStream = true
  phase : p.connection.phase = x.phase
  framer : p.connection.framer = x.framer
  queue : p.connection.queue = x.queue
  stands : ∃ devices, Standing l devices p.hub.store ∧ devices.getD .empty = x.devices

section Receives

variable {l : Layout} {p p' : Panel} {x x' : Reception} {m : Move} {now : Nat}
  {e : Connection.Event}

/-- Delivering a message writes it into the tree, and keeps the layout and what callbacks spare. -/
theorem stands_deliver {devices : DeviceMap} (hl : l.Separate) (hlayout : p.writer.layout = l)
    (hy : p.hub.synchronizer.Spares (Standing l)) (hs : Standing l devices p.hub.store)
    {m : Message} (hm : TreeWriter.Fits m) :
    (p.deliver m).writer.layout = l ∧ (p.deliver m).hub.synchronizer.Spares (Standing l) ∧
      Standing l (devices.write m) (p.deliver m).hub.store := by
  subst hlayout
  obtain ⟨w', s', happly, hlayout, h'⟩ := hs.apply hl hm
  have hspared := spared_committed (TreeWriter.lasting_standing p.writer.layout) hy s'
  have hdeliver : p.deliver m = { p with writer := w' }.committed s' := by rw [deliver, happly]
  rw [hdeliver]
  exact ⟨hlayout, hspared.callbacks, hspared.store _ h'⟩

/-- Delivering a message changes the devices as the machine says. -/
theorem getD_deliver {devices : DeviceMap} (hsame : devices.getD .empty = x.devices)
    (m : Message) : (devices.write m).getD .empty = (x.write m).devices := by
  have hsome : devices.getD .empty = (some x.devices).getD .empty := hsame
  exact DeviceMap.getD_write hsome m

/-- The panel `Receives` what the machine has come to, or has lost its stream if the machine has
    stopped. -/
def Follows (l : Layout) (p : Panel) : Option Reception → Prop
  | some x => p.Receives l x
  | none => p.connection.phase.hasStream = false

/-- **One transition.** The panel follows the machine, one case for each transition. -/
theorem Receives.turn (h : p.Receives l x) (hl : l.Separate) (hfits : x.queue.Fitting)
    (hturn : Turn now p e p') (he : e ≠ .command) : p'.Follows l (x.step? (.event now e)) := by
  have hlasting := TreeWriter.lasting_standing l
  obtain ⟨hlayout, hy⟩ := hturn.kept hlasting h.callbacks
  obtain ⟨devices, hstands, hsame⟩ := h.stands
  have hdraw := (spared_announce hlasting h.callbacks id).store _ hstands
  have hlayout' := hlayout.trans h.layout
  have hphase' := h.phase
  have hstream := h.stream
  unfold Reception.step?
  -- Within a session the machine makes the same step; where the stream is lost it has none.
  cases hturn with
  | send => exact absurd rfl he
  | greet hphase =>
    rw [← hphase', hphase]
    exact ⟨hlayout', hy, h.connected, rfl, rfl, h.framer, h.queue, devices, hstands, hsame⟩
  | hear hphase bytes =>
    rw [← hphase', hphase]
    exact ⟨hlayout', hy, h.connected, rfl, rfl, congrArg (·.extend bytes) h.framer, h.queue,
      devices, hstands, hsame⟩
  | deliver hphase hpop =>
    rw [h.queue] at hpop
    obtain ⟨-, -, hdelivered⟩ :=
      stands_deliver hl h.layout h.callbacks hstands (hfits.fits hpop)
    rw [← hphase', hphase]
    dsimp only
    rw [hpop]
    exact ⟨hlayout', hy, h.connected, rfl, rfl, h.framer, rfl, _, hdelivered,
      getD_deliver hsame _⟩
  | take hphase hnext hm =>
    rw [h.framer] at hnext
    rw [← hphase', hphase]
    simp only [Reception.frame, hnext, hm]
    exact ⟨hlayout', hy, h.connected, hstream, h.phase, rfl,
      congrArg (MessageQueue.push · _ now) h.queue, devices, hstands, hsame⟩
  | skip hphase hnext hm =>
    rw [h.framer] at hnext
    rw [← hphase', hphase]
    simp only [Reception.frame, hnext, hm]
    exact ⟨hlayout', hy, h.connected, hstream, h.phase, rfl, h.queue, devices, hstands, hsame⟩
  | misread hphase hnext hm =>
    rw [h.framer] at hnext
    rw [← hphase', hphase]
    simp only [Reception.frame, hnext, hm]
    exact ⟨hlayout', hy, h.connected, hstream, h.phase, rfl, h.queue, devices, hdraw, hsame⟩
  | drain hphase hnext =>
    rw [h.framer] at hnext
    rw [← hphase', hphase]
    simp only [Reception.frame, hnext]
    exact ⟨hlayout', hy, h.connected, rfl, rfl, rfl, h.queue, devices, hstands, hsame⟩
  | misframe hphase hnext =>
    rw [h.framer] at hnext
    rw [← hphase', hphase]
    simp only [Reception.frame, hnext]
    exact ⟨hlayout', hy, h.connected, hstream, h.phase, rfl, h.queue, devices, hdraw, hsame⟩
  | notice hphase =>
    rw [← hphase', hphase]
    exact ⟨hlayout', hy, h.connected, rfl, rfl, h.framer, h.queue, devices, hdraw, hsame⟩
  | failToGreet hphase | cut hphase | fail hphase | lose hphase | leave hphase =>
    rw [← hphase', hphase]
    rfl
  | dial hphase | giveUp hphase | accept hphase | miss hphase | abandon hphase | empty hphase
  | clear hphase | wake hphase | retire hphase | stop hphase =>
    rw [hphase] at hstream
    cases hstream
  | rest hphase => rcases hphase with hphase | hphase <;> rw [hphase] at hstream <;> cases hstream

/-- A submitted order marks the vector as the machine says. -/
theorem Receives.submit (h : p.Receives l x) (hl : l.Separate) (device vector xml : String) :
    (p.submit device vector xml).2.Receives l (x.write (.update (.busy device vector))) := by
  obtain ⟨devices, hstands, hsame⟩ := h.stands
  obtain ⟨hconnection, hwriter, hhub⟩ := submit_of_connected (TreeWriter.lasting_standing l)
    h.callbacks h.connected device vector xml
  rw [h.layout] at hhub
  -- The mark is the update `busy`, and the callbacks leave what it wrote.
  have hmarked := hhub.store _ (hstands.markBusy hl device vector)
  have hphase := congrArg Connection.phase hconnection
  exact
    { layout := (congrArg TreeWriter.layout hwriter).trans h.layout
      callbacks := hhub.callbacks
      connected := (congrArg (fun c => c.status.isConnected) hconnection).trans h.connected
      stream := (congrArg Connection.Phase.hasStream hphase).trans h.stream
      phase := hphase.trans h.phase
      framer := (congrArg Connection.framer hconnection).trans h.framer
      queue := (congrArg Connection.queue hconnection).trans h.queue
      stands := ⟨_, hmarked, getD_deliver hsame _⟩ }

/-- `Receives` is kept by every move that leaves the phase, the announced state, the framer, the
    queue and the writer of the panel as they are, and of the store no less true. -/
theorem Receives.of_spared (h : p.Receives l x) (hphase : p'.connection.phase = p.connection.phase)
    (hstate : p'.status.state = p.status.state)
    (hframer : p'.connection.framer = p.connection.framer)
    (hqueue : p'.connection.queue = p.connection.queue)
    (hwriter : p'.writer = p.writer) (hhub : p.hub.Spared (Standing l) p'.hub) :
    p'.Receives l x := by
  obtain ⟨devices, hstands, hsame⟩ := h.stands
  refine ⟨(congrArg TreeWriter.layout hwriter).trans h.layout, hhub.callbacks, ?_, ?_,
    hphase.trans h.phase, hframer.trans h.framer, hqueue.trans h.queue,
    devices, hhub.store _ hstands, hsame⟩
  · have hconnected := h.connected
    rwa [Status.isConnected, ← hstate] at hconnected
  · rw [hphase]
    exact h.stream

/-- **One move.** The panel follows the machine if the move is an input, and otherwise `Receives`
    the same. -/
theorem Receives.step (h : p.Receives l x) (hl : l.Separate) (hfits : x.queue.Fitting)
    (hm : m.Spares (Standing l)) (hstep : p.step? m = some p') :
    p'.Follows l (m.input?.elim (some x) x.step?) := by
  have hlasting := TreeWriter.lasting_standing l
  have hstays : p.hub.Spared (Standing l) p.hub := .refl h.callbacks
  cases deed_of_step? hlasting h.callbacks hm hstep with
  | @turn now e _ hturn =>
    -- A command that goes out is an event, but no input.
    by_cases he : e = .command
    · subst he
      cases hturn with
      | send => exact h.of_spared rfl rfl rfl rfl rfl hstays
    · have hinput : (Move.task now e).input? = some (.event now e) := by
        cases e <;> first | rfl | exact absurd rfl he
      rw [hinput]
      exact h.turn hl hfits hturn he
  | @submit cancelled c o xml horder =>
    have hinput : (Move.call cancelled c).input? = some (.order o.device o.vector) := by
      rw [Move.input?, horder]
      rfl
    rw [hinput]
    exact h.submit hl o.device o.vector xml
  | leave => exact h.of_spared rfl rfl rfl rfl rfl hstays
  | @announce cancelled c horder =>
    rw [Move.input?, horder]
    exact h.of_spared rfl rfl rfl rfl rfl (spared_announce hlasting h.callbacks id)
  | @look cancelled c horder =>
    rw [Move.input?, horder]
    exact h
  | close => exact h.of_spared rfl rfl rfl rfl rfl hstays
  | aside htask hcall haside =>
    have hinput : m.input? = none := by
      cases m <;> first | rfl | exact absurd rfl (htask _ _) | exact absurd rfl (hcall _ _)
    obtain ⟨hconnection, hwriter, hhub⟩ := haside
    rw [hinput]
    exact h.of_spared (congrArg Connection.phase hconnection)
      (congrArg (fun c => c.status.state) hconnection) (congrArg Connection.framer hconnection)
      (congrArg Connection.queue hconnection) hwriter hhub

/-- A move whose input the machine takes is possible for the panel. -/
theorem Receives.exists_step (h : p.Receives l x) {i : Reception.Input} (hi : m.input? = some i)
    (hx : x.step? i = some x') : ∃ p', p.step? m = some p' := by
  have hphase := h.phase
  cases m with
  | call cancelled c => exact ⟨_, rfl⟩
  | task now e =>
    have hinput : i = .event now e := by
      cases e <;> first | exact (Option.some.inj hi).symm | cases hi
    subst hinput
    show ∃ p', p.handle? now e = some p'
    unfold handle?
    unfold Reception.step? at hx
    rw [hphase]
    dsimp only at hx
    -- The machine takes an event in the phase in which the panel does.
    split at hx
    case h_1 hx' => exact ⟨_, by rw [hx']⟩
    case h_2 hx' => exact ⟨_, by rw [hx']; rfl⟩
    case h_3 hx' =>
      obtain ⟨r, hpop, -⟩ := Option.map_eq_some_iff.1 hx
      rw [← h.queue] at hpop
      have hdeliver : ∃ p', p.deliverReady? now = some p' := by
        rw [deliverReady?, hpop]
        exact ⟨_, rfl⟩
      rw [hx']
      exact hdeliver
    case h_4 hx' => exact ⟨_, by rw [hx']⟩
    case h_5 hx' => exact ⟨_, by rw [hx']⟩
    case h_6 => cases hx
  | _ => cases hi

/-- A stream that is lost is not there until the next one is opened. -/
theorem hasStream_step (h : p.connection.phase.hasStream = false) (hm : m.opens = false)
    (hstep : p.step? m = some p') : p'.connection.phase.hasStream = false := by
  cases deed_anyhow hstep with
  | turn hturn =>
    -- From a phase without a stream only `accept` leads to one with a stream.
    cases hturn with
    | accept => cases hm
    | greet hphase | failToGreet hphase | hear hphase | deliver hphase | send hphase | cut hphase
    | fail hphase | lose hphase | leave hphase | take hphase | skip hphase | misread hphase
    | drain hphase | misframe hphase | notice hphase =>
      rw [hphase] at h
      cases h
    | dial | giveUp | miss | abandon | empty | clear | rest | wake | retire | stop => rfl
  | submit horder =>
    cases hconnected : p.status.isConnected with
    | false =>
      rw [submit_of_not_connected hconnected]
      exact h
    | true =>
      rw [connection_submit hconnected]
      exact h
  | leave | announce | look | close => exact h
  | aside htask hcall haside =>
    rw [haside.connection]
    exact h

end Receives

/-! ### Runs -/

section Runs

variable {l : Layout} {p q : Panel} {x y : Reception} {moves : List Move}

/-- Along a run, what others write leaves the devices and the ways to them and to the log alone,
    and every message that waits fits into the tree. -/
structure Undisturbed (l : Layout) (p : Panel) (moves : List Move) : Prop where
  others : ∀ m ∈ moves, m.Spares (Standing l)
  fits : ∀ before, before <+: moves → ∀ q, p.run? before = some q → q.connection.queue.Fitting

theorem Undisturbed.of_prefix {moves' : List Move} (h : Undisturbed l p moves)
    (hpre : moves' <+: moves) : Undisturbed l p moves' where
  others := fun m hm => h.others m (hpre.subset hm)
  fits := fun before hbefore => h.fits before (hbefore.trans hpre)

/-- **A session.** As long as no stream is opened, the panel follows the machine, which is given
    only the inputs among the moves. -/
theorem Receives.run (h : p.Receives l x) (hl : l.Separate) (halone : Undisturbed l p moves)
    (hopens : ∀ m ∈ moves, m.opens = false) (hrun : p.run? moves = some q) :
    q.Follows l (x.run? (moves.filterMap Move.input?)) := by
  refine run?_induction (p := p) (motive := fun moves q => Undisturbed l p moves →
    (∀ m ∈ moves, m.opens = false) → q.Follows l (x.run? (moves.filterMap Move.input?)))
    (fun _ _ => h) ?_ hrun halone hopens
  intro moves q m r hmoves ih hstep halone hopens
  obtain ⟨hothers, hm⟩ := List.forall_mem_append.1 halone.others
  obtain ⟨hopens, hmopens⟩ := List.forall_mem_append.1 hopens
  have hfollows := ih (halone.of_prefix (List.prefix_append _ _)) hopens
  -- A message that is delivered fits, since no message that waits in this run does not.
  have hfits := halone.fits moves (List.prefix_append _ _) q hmoves
  rw [filterMap_input?_concat, Reception.run?_concat]
  cases hy : x.run? (moves.filterMap Move.input?) with
  | none =>
    rw [hy] at hfollows
    exact hasStream_step hfollows (hmopens m (List.mem_singleton_self m)) hstep
  | some y =>
    rw [hy] at hfollows
    exact Receives.step hfollows hl (hfollows.queue ▸ hfits) (hm m (List.mem_singleton_self m))
      hstep

/-- Moves whose inputs the machine takes one after the other are possible for the panel. -/
theorem Receives.exists_run (h : p.Receives l x) (hl : l.Separate)
    (hinput : ∀ m ∈ moves, m.input?.isSome = true)
    (hfits : ∀ before, before <+: moves.filterMap Move.input? → ∀ y, x.run? before = some y →
      y.queue.Fitting)
    (hx : x.run? (moves.filterMap Move.input?) = some y) :
    ∃ q, p.run? moves = some q ∧ q.Receives l y := by
  induction moves using List.reverseRecOn generalizing y with
  | nil =>
    obtain rfl := Option.some.inj hx
    exact ⟨p, rfl, h⟩
  | append_singleton moves m ih =>
    obtain ⟨hinput, hm⟩ := List.forall_mem_append.1 hinput
    obtain ⟨i, hi⟩ := Option.isSome_iff_exists.1 (hm m (List.mem_singleton_self m))
    rw [filterMap_input?_concat] at hx hfits
    rw [Reception.run?_concat, hi] at hx
    obtain ⟨z, hz, hy⟩ := Option.bind_eq_some_iff.1 hx
    have hpre := List.prefix_append (moves.filterMap Move.input?) m.input?.toList
    obtain ⟨r, hr, hreceives⟩ :=
      ih hinput (fun before hbefore => hfits before (hbefore.trans hpre)) hz
    obtain ⟨q, hq⟩ := hreceives.exists_step hi hy
    -- What others do is never an input.
    have hspares : m.Spares (Standing l) := by
      cases m <;> first | exact trivial | cases hi
    have hfollows := hreceives.step hl (hfits _ hpre z hz) hspares hq
    rw [hi] at hfollows
    rw [Option.elim_some] at hy hfollows
    rw [hy] at hfollows
    exact ⟨q, by rw [run?_concat, hr]; exact hq, hfollows⟩

end Runs

end Panel

end Observatory
