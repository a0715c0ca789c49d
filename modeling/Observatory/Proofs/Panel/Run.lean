import Mathlib.Data.List.Induction
import Observatory.Panel.Call
import Observatory.Panel.Lifecycle
import Observatory.Proofs.Hub.Spared

/-!
# Runs of a panel

The connection of a panel goes from one event to the next.  In between, callers take steps, and
anyone may change the store, watch it, or ask for it.  All of this may come in any order and as
often as it likes.

* `Panel.Move`, `Panel.step?`, `Panel.run?`: what happens to a panel;
* `Panel.Turn`, `Panel.turn_of_handle?`: the transitions of the connection, one by one;
* `Call.Gives`, `Call.step_cases`: what a step of a call does to a panel, with the calls that give
  an order as one case;
* `Panel.Deed`, `Panel.deed_of_step?`: what a move does to a panel;
* `Panel.run?_induction`: what holds at the start and lasts from move to move.
-/

namespace Observatory

/-! ### Steps that may be impossible -/

section Folds

variable {σ μ : Type} {step? : σ → μ → Option σ} {s t : σ} {moves : List μ}

/-- A fold that may fail, with one more step at its end. -/
theorem foldlM_concat (s : σ) (moves : List μ) (m : μ) :
    (moves ++ [m]).foldlM step? s = (moves.foldlM step? s).bind fun t => step? t m := by
  rw [List.foldlM_append]
  congr
  funext t
  rw [List.foldlM_cons]
  cases step? t m <;> rfl

/-- Induction from the end of a fold that may fail: what holds at the start and is kept by each
    step holds after all of them. -/
theorem foldlM_induction {motive : List μ → σ → Prop} (start : motive [] s)
    (step : ∀ moves t m u, moves.foldlM step? s = some t → motive moves t → step? t m = some u →
      motive (moves ++ [m]) u) (h : moves.foldlM step? s = some t) : motive moves t := by
  induction moves using List.reverseRecOn generalizing t with
  | nil =>
    obtain rfl := Option.some.inj h
    exact start
  | append_singleton moves m ih =>
    rw [foldlM_concat] at h
    obtain ⟨t', ht', hstep⟩ := Option.bind_eq_some_iff.1 h
    exact step moves t' m t ht' (ih ht') hstep

end Folds

namespace Panel

/-! ### Moves -/

/-- What happens to a panel: an event of its connection, a step of a call, or an operation. -/
inductive Move where
  | task (now : Nat) (e : Connection.Event)
  | call (cancelled : Bool) (c : Call)
  | close
  /-- The store is changed without a commit. -/
  | write (f : Store → Store)
  /-- The store is changed, then committed. -/
  | mutate (f : Store → Store)
  | commit
  | register (selector : Selector) (callback : Callback) (force : Bool)
  | unregister (token : Token)
  | attach (w : Whitelist)
  | detach (id : ClientId)
  /-- A client takes what is queued for it. -/
  | receive (id : ClientId)

/-- The panel after a move, if it can happen. -/
def step? (p : Panel) : Move → Option Panel
  | .task now e => p.handle? now e
  | .call cancelled c => some (c.step cancelled p).2
  | .close => some p.close
  | .write f => some { p with hub := { p.hub with store := f p.hub.store } }
  | .mutate f => some (p.mutate fun s => ((), f s)).2.1
  | .commit => some p.commit
  | .register selector callback force =>
    match p.addSynchronizer selector callback force with
    | .error _ => some p
    | .ok (_, p) => some p
  | .unregister token => some (p.removeSynchronizer token).2
  | .attach w => some (p.attach w).2
  | .detach id =>
    match p.detach id with
    | .error _ => some p
    | .ok p => some p
  | .receive id => some (p.receive id).2

/-- The panel after some moves, if they can happen. -/
def run? (p : Panel) (moves : List Move) : Option Panel := moves.foldlM step? p

/-- What others write by a move, or have callbacks write, breaks none of some properties of the
    store. -/
def Move.Spares {ι : Type} (I : ι → Store → Prop) : Move → Prop
  | write f | mutate f => ∀ i {s}, I i s → I i (f s)
  | register _ callback _ => callback.Spares I
  | task _ _ | call _ _ | close | commit | unregister _ | attach _ | detach _ | receive _ => True

section Runs

variable {p q r : Panel} {m : Move} {moves moves' : List Move}

theorem run?_append (p : Panel) (moves moves' : List Move) :
    p.run? (moves ++ moves') = (p.run? moves).bind fun q => q.run? moves' :=
  List.foldlM_append

theorem run?_cons (p : Panel) (m : Move) (moves : List Move) :
    p.run? (m :: moves) = (p.step? m).bind fun q => q.run? moves :=
  List.foldlM_cons

theorem run?_concat (p : Panel) (moves : List Move) (m : Move) :
    p.run? (moves ++ [m]) = (p.run? moves).bind fun q => q.step? m :=
  foldlM_concat p moves m

/-- The induction rule for runs of a panel. -/
theorem run?_induction {motive : List Move → Panel → Prop} (start : motive [] p)
    (step : ∀ moves q m r, p.run? moves = some q → motive moves q → q.step? m = some r →
      motive (moves ++ [m]) r) (hrun : p.run? moves = some q) : motive moves q :=
  foldlM_induction start step hrun

end Runs

/-- A panel that was opened has its configuration, an empty hub, and a connection that has not
    begun. -/
theorem eq_of_open? {config : PanelConfig} {p : Panel} (h : open? config = .ok p) :
    p = { config, hub := { maxPasses := config.hub.maxPasses },
          writer := { layout := config.layout },
          connection := { framer := config.framer, queue := config.queue } } := by
  rw [open?, PanelConfig.validate] at h
  cases hfault : config.fault? with
  | some fault =>
    rw [hfault] at h
    cases h
  | none =>
    rw [hfault] at h
    exact (Except.ok.inj h).symm

/-! ### Transitions of the connection -/

/-- `Turn now p e p'`: the connection of the panel `p` takes the event `e` at the time `now`,
    and the panel is `p'` then.  One constructor for each transition with its guards, so that
    every invariant of the connection is a case analysis on `Turn` and no other proof unfolds
    `handle?`. -/
inductive Turn (now : Nat) (p : Panel) : Connection.Event → Panel → Prop
  | dial (hphase : p.connection.phase = .idle) (hopen : p.connection.closing = false) :
      Turn now p .proceed ((p.enter .connecting).move .dialing)
  | giveUp (hphase : p.connection.phase = .idle) (hclosing : p.connection.closing = true) :
      Turn now p .proceed (p.move .ending)
  | accept (hphase : p.connection.phase = .dialing) : Turn now p .accepted p.beginSession
  | miss (hphase : p.connection.phase = .dialing) : Turn now p .refused p.missSession
  | abandon (hphase : p.connection.phase = .dialing) (hclosing : p.connection.closing = true) :
      Turn now p .closing (p.move .ending)
  | greet (hphase : p.connection.phase = .greeting) : Turn now p .proceed p.greet
  | failToGreet (hphase : p.connection.phase = .greeting) :
      Turn now p .broken (p.flag.move .leaving)
  | hear (hphase : p.connection.phase = .serving) (bytes : List UInt8) :
      Turn now p (.received bytes) ((p.modifyConnection fun c =>
        { c with framer := c.framer.extend bytes }).move .framing)
  | deliver (hphase : p.connection.phase = .serving) {m : Message} {queue : MessageQueue}
      (hpop : p.connection.queue.popReady? now = some (m, queue)) :
      Turn now p .elapsed
        (((p.modifyConnection fun c => { c with queue }).deliver m).move .delivered)
  | send (hphase : p.connection.phase = .serving) {xml : String} {outbound : List String}
      (hnext : p.connection.outbound = xml :: outbound) :
      Turn now p .command ((p.modifyConnection fun c => { c with outbound }).transmit xml)
  | cut (hphase : p.connection.phase = .serving) {xml : String} {outbound : List String}
      (hnext : p.connection.outbound = xml :: outbound) (n : Nat) :
      Turn now p (.cut n) ((((p.modifyConnection fun c => { c with outbound }).transmit
        (String.ofList (xml.toList.take n))).flag).move .leaving)
  | fail (hphase : p.connection.phase = .serving) : Turn now p .broken (p.flag.move .leaving)
  | lose (hphase : p.connection.phase = .serving) : Turn now p .hungUp (p.move .leaving)
  | leave (hphase : p.connection.phase = .serving) (hclosing : p.connection.closing = true) :
      Turn now p .closing (p.move .leaving)
  | take (hphase : p.connection.phase = .framing) {text : String} {framer : Framer} {m : Message}
      (hnext : p.connection.framer.nextMessage = (.ok (some text), framer))
      (hm : Message.ofText text = .ok (some m)) :
      Turn now p .proceed (p.modifyConnection fun c =>
        { c with framer, queue := c.queue.push m now })
  | skip (hphase : p.connection.phase = .framing) {text : String} {framer : Framer}
      (hnext : p.connection.framer.nextMessage = (.ok (some text), framer))
      (hm : Message.ofText text = .ok none) :
      Turn now p .proceed (p.modifyConnection fun c => { c with framer })
  | misread (hphase : p.connection.phase = .framing) {text : String} {framer : Framer}
      {error : ProtocolError}
      (hnext : p.connection.framer.nextMessage = (.ok (some text), framer))
      (hm : Message.ofText text = .error error) :
      Turn now p .proceed (p.modifyConnection fun c => { c with framer }).flag
  | drain (hphase : p.connection.phase = .framing) {framer : Framer}
      (hnext : p.connection.framer.nextMessage = (.ok none, framer)) :
      Turn now p .proceed ((p.modifyConnection fun c => { c with framer }).move .serving)
  | misframe (hphase : p.connection.phase = .framing) {framer : Framer} {error : FramingError}
      (hnext : p.connection.framer.nextMessage = (.error error, framer)) :
      Turn now p .proceed (p.modifyConnection fun c => { c with framer }).flag
  | notice (hphase : p.connection.phase = .delivered) :
      Turn now p .proceed ((p.announce id).move .serving)
  | empty (hphase : p.connection.phase = .leaving) : Turn now p .proceed p.empty
  | clear (hphase : p.connection.phase = .emptied) :
      Turn now p .proceed (p.clearTree.move .cleared)
  | rest (hphase : p.connection.phase = .cleared ∨ p.connection.phase = .refused) :
      Turn now p .proceed (p.rest now)
  | wake {time : Nat} (hphase : p.connection.phase = .resting time) (htime : time ≤ now) :
      Turn now p .elapsed (p.move .idle)
  | retire {time : Nat} (hphase : p.connection.phase = .resting time)
      (hclosing : p.connection.closing = true) : Turn now p .closing (p.move .ending)
  | stop (hphase : p.connection.phase = .ending) :
      Turn now p .proceed ((p.enter .disconnected).move .stopped)

section Turns

variable {now : Nat} {p p' : Panel} {e : Connection.Event}

/-- An event that `handleServing?` takes is a `Turn` from `serving`. -/
theorem turn_of_handleServing? (hphase : p.connection.phase = .serving)
    (h : p.handleServing? now e = some p') : Turn now p e p' := by
  -- One transition for each event, with the guard under which it is taken.
  cases e with
  | received bytes =>
    obtain rfl := Option.some.inj h
    exact .hear hphase bytes
  | elapsed =>
    obtain ⟨⟨m, queue⟩, hpop, rfl⟩ := Option.map_eq_some_iff.1 h
    exact .deliver hphase hpop
  | command =>
    obtain ⟨⟨xml, p₁⟩, hnext, rfl⟩ := Option.map_eq_some_iff.1 h
    rw [nextCommand?] at hnext
    split at hnext
    · cases hnext
    · next heq =>
      cases hnext
      exact .send hphase heq
  | cut n =>
    obtain ⟨⟨xml, p₁⟩, hnext, rfl⟩ := Option.map_eq_some_iff.1 h
    rw [nextCommand?] at hnext
    split at hnext
    · cases hnext
    · next heq =>
      cases hnext
      exact .cut hphase heq n
  | broken =>
    obtain rfl := Option.some.inj h
    exact .fail hphase
  | hungUp =>
    obtain rfl := Option.some.inj h
    exact .lose hphase
  | closing =>
    rw [handleServing?] at h
    split at h
    · next hclosing =>
      obtain rfl := Option.some.inj h
      exact .leave hphase hclosing
    · cases h
  | proceed => cases h
  | accepted => cases h
  | refused => cases h

/-- Taking one message out of the bytes that came in is a `Turn` from `framing`. -/
theorem turn_frame (hphase : p.connection.phase = .framing) :
    Turn now p .proceed (p.frame now) := by
  rw [frame]
  -- The framer has a message, none or an error, and a message can be read or not.
  cases hnext : p.connection.framer.nextMessage with
  | mk result framer =>
    cases result with
    | error error => exact .misframe hphase hnext
    | ok message =>
      cases message with
      | none => exact .drain hphase hnext
      | some text =>
        dsimp only
        rw [takeIn]
        cases hm : Message.ofText text with
        | error error => exact .misread hphase hnext hm
        | ok message =>
          cases message with
          | none => exact .skip hphase hnext hm
          | some m => exact .take hphase hnext hm

/-- Every event that `handle?` takes is a `Turn`. -/
theorem turn_of_handle? (h : p.handle? now e = some p') : Turn now p e p' := by
  unfold handle? at h
  -- One case for each line of `handle?`, in the order in which they stand there.
  split at h
  case h_1 hphase =>
    rw [dial] at h
    cases hclosing : p.connection.closing with
    | true =>
      rw [hclosing] at h
      obtain rfl := Option.some.inj h
      exact .giveUp hphase hclosing
    | false =>
      rw [hclosing] at h
      obtain rfl := Option.some.inj h
      exact .dial hphase hclosing
  case h_2 hphase => exact Option.some.inj h ▸ .accept hphase
  case h_3 hphase => exact Option.some.inj h ▸ .miss hphase
  case h_4 hphase =>
    split at h
    · next hclosing => exact Option.some.inj h ▸ .abandon hphase hclosing
    · cases h
  case h_5 hphase => exact Option.some.inj h ▸ .greet hphase
  case h_6 hphase => exact Option.some.inj h ▸ .failToGreet hphase
  case h_7 hphase => exact turn_of_handleServing? hphase h
  case h_8 hphase => exact Option.some.inj h ▸ turn_frame hphase
  case h_9 hphase => exact Option.some.inj h ▸ .notice hphase
  case h_10 hphase => exact Option.some.inj h ▸ .empty hphase
  case h_11 hphase => exact Option.some.inj h ▸ .clear hphase
  case h_12 hphase => exact Option.some.inj h ▸ .rest (.inl hphase)
  case h_13 hphase => exact Option.some.inj h ▸ .rest (.inr hphase)
  case h_14 hphase =>
    split at h
    · next htime => exact Option.some.inj h ▸ .wake hphase htime
    · cases h
  case h_15 hphase =>
    split at h
    · next hclosing => exact Option.some.inj h ▸ .retire hphase hclosing
    · cases h
  case h_16 hphase => exact Option.some.inj h ▸ .stop hphase
  case h_17 => cases h

/-- A connection that has stopped takes no event. -/
theorem Turn.not_stopped (h : Turn now p e p') : p.connection.phase ≠ .stopped := by
  cases h with
  | rest hphase => rcases hphase with hphase | hphase <;> simp [hphase]
  | _ => simp [*]

end Turns

/-! ### What transitions leave alone -/

section Calls

variable {ι : Type} {I : ι → Store → Prop} {p p' : Panel} {now : Nat} {e : Connection.Event}
  {device vector xml : String}

/-- An announcement keeps what survives a draw. -/
theorem spared_announce (hI : ∀ i, Store.Lasting (I i)) (hy : p.hub.synchronizer.Spares I)
    (change : Status → Status) : p.hub.Spared I (p.announce change).hub :=
  ⟨hy, fun i hs => (hI i).draw hs⟩

/-- Committing a store keeps what holds of that store. -/
theorem spared_committed (hI : ∀ i, Store.Lasting (I i)) (hy : p.hub.synchronizer.Spares I)
    (store : Store) : Hub.Spared I { p.hub with store } (p.committed store).hub :=
  Hub.spared_commit hI hy

/-- A transition keeps what is true of the store, unless it delivers a message or clears the
    tree. -/
theorem Turn.spared (hI : ∀ i, Store.Lasting (I i)) (hy : p.hub.synchronizer.Spares I)
    (h : Turn now p e p') :
    (p'.writer = p.writer ∧ p.hub.Spared I p'.hub) ∨
      (∃ m queue, p.connection.phase = .serving ∧
        p.connection.queue.popReady? now = some (m, queue) ∧
        p' = ((p.modifyConnection fun c => { c with queue }).deliver m).move .delivered) ∨
      (p.connection.phase = .emptied ∧ p' = p.clearTree.move .cleared) := by
  have hdraw := spared_announce hI hy
  cases h with
  | deliver hphase hpop => exact .inr (.inl ⟨_, _, hphase, hpop, rfl⟩)
  | clear hphase => exact .inr (.inr ⟨hphase, rfl⟩)
  | giveUp | abandon | greet | hear | send | lose | leave | take | skip | drain | empty | wake
  | retire => exact .inl ⟨rfl, .refl hy⟩
  | dial | accept | miss | failToGreet | cut | fail | misread | misframe | notice | rest | stop =>
    exact .inl ⟨rfl, hdraw id⟩

/-- A transition keeps the layout and what callbacks spare. -/
theorem Turn.kept (hI : ∀ i, Store.Lasting (I i)) (hy : p.hub.synchronizer.Spares I)
    (h : Turn now p e p') :
    p'.writer.layout = p.writer.layout ∧ p'.hub.synchronizer.Spares I := by
  rcases h.spared hI hy with ⟨hwriter, hhub⟩ | ⟨m, queue, -, -, rfl⟩ | ⟨-, rfl⟩
  · exact ⟨congrArg TreeWriter.layout hwriter, hhub.callbacks⟩
  · exact ⟨TreeWriter.layout_apply p.writer m p.hub.store, (spared_committed hI hy _).callbacks⟩
  · exact ⟨rfl, (spared_committed hI hy _).callbacks⟩

/-- Without a stream, `submit` is refused and changes nothing. -/
theorem submit_of_not_connected (h : p.status.isConnected = false) (device vector xml : String) :
    p.submit device vector xml = (.error .disconnected, p) := by
  rw [submit, if_neg (by simp [h])]

/-- `submit` succeeds only with a stream, and only if the store takes the mark. -/
theorem markBusy_of_submit {device vector xml : String}
    (h : p.submit device vector xml = (.ok (), p')) : p.status.isConnected = true ∧
      (TreeWriter.markBusy p.writer.layout device vector p.hub.store).1 = .ok () := by
  rw [submit] at h
  split at h
  · next hconnected =>
    refine ⟨hconnected, ?_⟩
    dsimp only at h
    split at h
    · next hmark => exact congrArg Prod.fst hmark
    · cases h
  · cases h

/-- With a stream, `submit` leaves the command for the connection and marks the vector. -/
theorem submit_of_connected (hI : ∀ i, Store.Lasting (I i)) (hy : p.hub.synchronizer.Spares I)
    (h : p.status.isConnected = true) (device vector xml : String) :
    (p.submit device vector xml).2.connection = (p.enqueue xml).connection ∧
      (p.submit device vector xml).2.writer = p.writer ∧
        Hub.Spared I
          { p.hub with
            store := (TreeWriter.markBusy p.writer.layout device vector p.hub.store).2 }
          (p.submit device vector xml).2.hub := by
  rw [submit, if_pos h]
  -- The command is left before the vector is marked, and the mark does not depend on it.
  have hmark : TreeWriter.markBusy (p.enqueue xml).writer.layout device vector
      (p.enqueue xml).hub.store =
        TreeWriter.markBusy p.writer.layout device vector p.hub.store := rfl
  dsimp only
  rw [hmark]
  generalize TreeWriter.markBusy p.writer.layout device vector p.hub.store = w
  obtain ⟨result, store⟩ := w
  cases result with
  | ok _ => exact ⟨rfl, rfl, Hub.spared_commit hI hy⟩
  | error e => exact ⟨rfl, rfl, .refl hy⟩

end Calls

end Panel

namespace Call

/-- The order and the command of a call whose next step is `submit`. -/
def order? : Call → Option (Order × String)
  | give o (.submitting xml) | place o (.submitting xml) => some (o, xml)
  | _ => none

/-- A step of an order submits it, or makes an announcement, or changes nothing. -/
theorem step_order (o : Order) (p : Panel) (phase : Order.Phase) :
    (∃ xml, phase = .submitting xml ∧ (o.step p phase).2 = (p.submit o.device o.vector xml).2) ∨
      ((∀ xml, phase ≠ .submitting xml) ∧
        ((o.step p phase).2 = p ∨ (o.step p phase).2 = p.announce id)) := by
  -- The looks of an order change nothing, whatever they find.
  cases phase with
  | submitting xml =>
    refine .inl ⟨xml, rfl, ?_⟩
    rw [Order.step]
    split
    · next heq => rw [heq]
    · next heq => rw [heq]
  | announcing => exact .inr ⟨nofun, .inr rfl⟩
  | inspecting =>
    refine .inr ⟨nofun, .inl ?_⟩
    rw [Order.step]
    split <;> rfl
  | checking =>
    refine .inr ⟨nofun, .inl ?_⟩
    rw [Order.step]
    split <;> rfl
  | composing =>
    refine .inr ⟨nofun, .inl ?_⟩
    rw [Order.step]
    split <;> rfl

/-- The calls whose next step is a step of their order.  `give` and `place` differ only in what the
    call goes on to when the order is given. -/
inductive Gives (o : Order) (phase : Order.Phase) : Call → Prop
  | give : Gives o phase (.give o phase)
  | place : Gives o phase (.place o phase)

section Gives

variable {o : Order} {phase : Order.Phase} {c : Call}

/-- Such a call steps as its order does, and goes on to a call that gives the same order. -/
theorem Gives.step_eq (h : c.Gives o phase) (cancelled : Bool) (p : Panel) :
    ∃ resume andThen, (∀ next, (resume next).Gives o next) ∧
      c.step cancelled p = (after resume andThen (o.step p phase).1, (o.step p phase).2) := by
  cases h with
  | give => exact ⟨.give o, _, fun _ => .give, rfl⟩
  | place => exact ⟨.place o, _, fun _ => .place, rfl⟩

/-- What such a step does to the panel is what the step of the order does. -/
theorem Gives.step_cases (h : c.Gives o phase) (cancelled : Bool) (p : Panel) :
    (∃ o xml, c.order? = some (o, xml) ∧
        (c.step cancelled p).2 = (p.submit o.device o.vector xml).2) ∨
      (c.order? = none ∧ ((∃ xml, c = .send xml true ∧ p.connection.phase ≠ .stopped ∧
          (c.step cancelled p).2 = p.enqueue xml) ∨
        (c.step cancelled p).2 = p.announce id ∨ (c.step cancelled p).2 = p)) := by
  obtain ⟨resume, andThen, -, hstep⟩ := h.step_eq cancelled p
  rw [hstep]
  rcases step_order o p phase with ⟨xml, rfl, hsubmit⟩ | ⟨hphase, hidle⟩
  · refine .inl ⟨o, xml, ?_, hsubmit⟩
    cases h <;> rfl
  · refine .inr ⟨?_, .inr hidle.symm⟩
    cases h <;> cases phase <;> first | rfl | exact absurd rfl (hphase _)

end Gives

/-- Every step of a call submits an order, leaves a command, makes an announcement, or changes
    nothing. -/
theorem step_cases (cancelled : Bool) (p : Panel) (c : Call) :
    (∃ o xml, c.order? = some (o, xml) ∧
        (c.step cancelled p).2 = (p.submit o.device o.vector xml).2) ∨
      (c.order? = none ∧ ((∃ xml, c = .send xml true ∧ p.connection.phase ≠ .stopped ∧
          (c.step cancelled p).2 = p.enqueue xml) ∨
        (c.step cancelled p).2 = p.announce id ∨ (c.step cancelled p).2 = p)) := by
  -- Waiting, confirming and the first look of `send` change nothing.
  cases c with
  | wait w phase => exact .inr ⟨rfl, .inr (.inr rfl)⟩
  | await o phase => exact .inr ⟨rfl, .inr (.inr rfl)⟩
  | settle o phase => exact .inr ⟨rfl, .inr (.inr rfl)⟩
  | send xml checked =>
    cases checked with
    | true =>
      refine .inr ⟨rfl, ?_⟩
      rw [step]
      split
      · exact .inr (.inr rfl)
      · next hphase => exact .inl ⟨xml, rfl, hphase, rfl⟩
    | false =>
      refine .inr ⟨rfl, .inr (.inr ?_)⟩
      rw [step]
      split <;> rfl
  | confirm o =>
    refine .inr ⟨rfl, .inr (.inr ?_)⟩
    rw [step]
    split <;> rfl
  | give o phase => exact Gives.give.step_cases cancelled p
  | place o phase => exact Gives.place.step_cases cancelled p

end Call

/-! ### Moves that leave the connection alone -/

namespace Panel

variable {ι : Type} {I : ι → Store → Prop} {p p' : Panel} {m : Move}

/-- The configuration, the connection and its writer are the same, and all that `I` says of the
    store still holds. -/
structure Aside (I : ι → Store → Prop) (p p' : Panel) : Prop where
  connection : p'.connection = p.connection
  writer : p'.writer = p.writer
  hub : p.hub.Spared I p'.hub
  config : p'.config = p.config

/-- What a move does to a panel: a transition of the connection, one of the effects of a call,
    closing, or something `Aside`. -/
inductive Deed (I : ι → Store → Prop) (p : Panel) : Move → Panel → Prop
  | turn {now : Nat} {e : Connection.Event} {p' : Panel} (hturn : Turn now p e p') :
      Deed I p (.task now e) p'
  | submit {cancelled : Bool} {c : Call} {o : Order} {xml : String}
      (horder : c.order? = some (o, xml)) :
      Deed I p (.call cancelled c) (p.submit o.device o.vector xml).2
  | leave (cancelled : Bool) (xml : String) (hphase : p.connection.phase ≠ .stopped) :
      Deed I p (.call cancelled (.send xml true)) (p.enqueue xml)
  | announce {cancelled : Bool} {c : Call} (horder : c.order? = none) :
      Deed I p (.call cancelled c) (p.announce id)
  | look {cancelled : Bool} {c : Call} (horder : c.order? = none) : Deed I p (.call cancelled c) p
  | close : Deed I p .close p.close
  | aside {m : Move} {p' : Panel} (htask : ∀ now e, m ≠ .task now e)
      (hcall : ∀ cancelled c, m ≠ .call cancelled c) (haside : p.Aside I p') : Deed I p m p'

/-- Every move of a panel is a `Deed`, so that what is to be kept by all moves is proved for the
    deeds. -/
theorem deed_of_step? (hI : ∀ i, Store.Lasting (I i)) (hy : p.hub.synchronizer.Spares I)
    (hm : m.Spares I) (h : p.step? m = some p') : p.Deed I m p' := by
  -- The uses of the hub are all `aside`: they reach the store through writes that spare `I`.
  cases m with
  | task now e => exact .turn (turn_of_handle? h)
  | call cancelled c =>
    obtain rfl := Option.some.inj h
    rcases c.step_cases cancelled p with ⟨o, xml, horder, hstep⟩ |
      ⟨horder, ⟨xml, rfl, hphase, hstep⟩ | hstep | hstep⟩
    · exact hstep ▸ .submit horder
    · exact hstep ▸ .leave cancelled xml hphase
    · exact hstep ▸ .announce horder
    · exact hstep.symm ▸ .look horder
  | close => exact Option.some.inj h ▸ .close
  | write f =>
    obtain rfl := Option.some.inj h
    exact .aside nofun nofun ⟨rfl, rfl, ⟨hy, fun i hs => hm i hs⟩, rfl⟩
  | mutate f =>
    obtain rfl := Option.some.inj h
    exact .aside nofun nofun ⟨rfl, rfl,
      Hub.spared_mutate hI hy (f := fun s => ((), f s)) fun i _ hs => hm i hs, rfl⟩
  | commit =>
    obtain rfl := Option.some.inj h
    exact .aside nofun nofun ⟨rfl, rfl, Hub.spared_commit hI hy, rfl⟩
  | register selector callback force =>
    rw [step?, addSynchronizer] at h
    cases hadd : p.hub.addSynchronizer selector callback force with
    | error e =>
      rw [hadd] at h
      exact Option.some.inj h ▸ .aside nofun nofun ⟨rfl, rfl, .refl hy, rfl⟩
    | ok r =>
      obtain ⟨token, called, hub⟩ := r
      rw [hadd] at h
      obtain rfl := Option.some.inj h
      exact .aside nofun nofun ⟨rfl, rfl, Hub.spared_addSynchronizer hI hy hm hadd, rfl⟩
  | unregister token =>
    obtain rfl := Option.some.inj h
    exact .aside nofun nofun ⟨rfl, rfl, ⟨hy.remove token, fun _ hs => hs⟩, rfl⟩
  | attach w =>
    obtain rfl := Option.some.inj h
    exact .aside nofun nofun ⟨rfl, rfl, Hub.spared_attach hI hy w, rfl⟩
  | detach id =>
    rw [step?, Panel.detach] at h
    cases hdetach : p.hub.detach id with
    | error e =>
      rw [hdetach] at h
      exact Option.some.inj h ▸ .aside nofun nofun ⟨rfl, rfl, .refl hy, rfl⟩
    | ok hub =>
      rw [hdetach] at h
      obtain rfl := Option.some.inj h
      exact .aside nofun nofun ⟨rfl, rfl, Hub.spared_detach hy hdetach, rfl⟩
  | receive id =>
    obtain rfl := Option.some.inj h
    exact .aside nofun nofun ⟨rfl, rfl, ⟨hy, fun _ hs => hs⟩, rfl⟩

/-! ### What is true of all stores -/

/-- The properties of which nothing is asked. -/
abbrev Anyhow (_ : Unit) (_ : Store) : Prop := True

theorem lasting_anyhow (u : Unit) : Store.Lasting (Anyhow u) :=
  ⟨fun _ => trivial, fun _ => trivial, fun _ => trivial⟩

theorem spares_anyhow (y : Synchronizer) : y.Spares Anyhow := fun _ _ _ _ _ _ => trivial

theorem Move.spares_anyhow (m : Move) : m.Spares Anyhow := by
  cases m <;> first | exact trivial | exact fun _ _ _ => trivial | exact fun _ _ _ _ => trivial

/-- With a stream, `submit` does to the connection what `enqueue` does. -/
theorem connection_submit (h : p.status.isConnected = true) (device vector xml : String) :
    (p.submit device vector xml).2.connection = (p.enqueue xml).connection :=
  (submit_of_connected lasting_anyhow (spares_anyhow _) h device vector xml).1

/-- Every move is a `Deed`, if nothing is asked of the store. -/
theorem deed_anyhow (h : p.step? m = some p') : p.Deed Anyhow m p' :=
  deed_of_step? lasting_anyhow (spares_anyhow _) m.spares_anyhow h

end Panel

end Observatory
