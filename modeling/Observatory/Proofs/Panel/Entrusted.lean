import Observatory.Proofs.DeviceTree.Presence
import Observatory.Proofs.Panel.Status

/-!
# Devices that are left to the connection

The devices of a panel are left to its connection: callbacks and other users of the hub may write
what they like, but they leave alone what stands at the path of the devices, and put no list on the
way to it.  Then everything that happens to one vector is the work of the connection and of those
who give orders, and there is little of it: a message is delivered, the tree is cleared, or a vector
is marked busy.

* `Panel.delivers?`, `Panel.clears`, `Panel.orders?`: the moves that touch devices;
* `Panel.Entrusted`: a panel whose devices others leave alone;
* `Panel.Edits`, `Panel.Entrusted.step`: what one move does to the devices;
* `Panel.Edits.state`, `Panel.Edits.holds`, `Panel.Edits.bare`: what each of these leaves of the
  state of a vector, of a vector that is there, and of an empty tree;
* `Panel.Disturbs`, `Panel.Edits.ready`: a vector that takes an order goes on to do so, unless a
  move disturbs it;
* `Panel.isConnected_of_contains`: where there is a vector, a stream is announced.
-/

namespace Observatory

namespace Panel

open Store (Rests)

/-! ### Moves that touch devices -/

/-- The message that the connection delivers by a move: it takes the first one that is ready out of
    its queue while it serves a session. -/
def delivers? (p : Panel) : Move → Option Message
  | .task now .elapsed =>
    if p.connection.phase = .serving then (p.connection.queue.popReady? now).map Prod.fst else none
  | _ => none

/-- The connection clears the tree by a move, once the commands of a session are forgotten. -/
def clears (p : Panel) : Move → Prop
  | .task _ .proceed => p.connection.phase = .emptied
  | _ => False

/-- The order that someone submits by a move, if the panel says that there is a stream.  Nothing
    checks here whether the vector of the order is busy. -/
def orders? (p : Panel) : Move → Option Order
  | .call _ c => if p.status.isConnected then c.order?.map Prod.fst else none
  | _ => none

/-- A panel with the layout `l` whose callbacks leave alone what stands at the path of the devices,
    wherever no list stands on the way to it. -/
structure Entrusted (l : Layout) (p : Panel) : Prop where
  layout : p.config.layout = l
  writer : p.writer.layout = l
  callbacks : p.hub.synchronizer.Spares (Rests l.treePath)

/-- What a move does to the devices of a panel: nothing, or it delivers a message, clears the tree
    or marks a vector.  The callbacks that hear of it leave the devices as they are then.  Each
    constructor also says what becomes of the phase of the connection, as far as `Edits.bare` needs
    it. -/
inductive Edits (l : Layout) (p : Panel) (m : Move) (p' : Panel) : Prop
  | leaves (store : ∀ o, Rests l.treePath o p.hub.store → Rests l.treePath o p'.hub.store)
    (phase : p'.connection.phase.isBare = true → p.connection.phase.isBare = true)
  | delivers (msg : Message) (hmsg : p.delivers? m = some msg)
    (store : ∀ o, Rests l.treePath o (p.writer.apply msg p.hub.store).2.2 →
      Rests l.treePath o p'.hub.store)
    (phase : p'.connection.phase.isBare = false)
  | clears (hclears : p.clears m)
    (store : ∀ o, Rests l.treePath o (TreeWriter.clear l p.hub.store).2 →
      Rests l.treePath o p'.hub.store)
  | marks (o : Order) (ho : p.orders? m = some o)
    (store : ∀ i, Rests l.treePath i
      (TreeWriter.markBusy l o.device o.vector p.hub.store).2 → Rests l.treePath i p'.hub.store)
    (phase : p'.connection.phase = p.connection.phase)

section Steps

variable {P : String → Prop} {l : Layout} {p p' : Panel} {m : Move} {now : Nat}
  {e : Connection.Event} {device name : String} {config : PanelConfig}

/-! ### What a move does -/

/-- A panel that was just opened is `Entrusted`, since it has no callbacks. -/
theorem entrusted_open (h : open? config = .ok p) : p.Entrusted config.layout := by
  obtain rfl := eq_of_open? h
  exact ⟨rfl, rfl, List.forall_mem_nil _⟩

/-- In a panel that was just opened there are no devices, so whatever `P` is, it holds of all that
    is said of a state. -/
theorem says_open (h : open? config = .ok p) (P : String → Prop) :
    p.hub.store.Says P (config.layout.state device name) := by
  obtain rfl := eq_of_open? h
  exact Node.says_object_nil P _ _

/-- No transition of the connection changes the configuration. -/
theorem Turn.config_eq (h : Turn now p e p') : p'.config = p.config := by
  cases h <;> rfl

theorem config_submit (p : Panel) (device vector xml : String) :
    (p.submit device vector xml).2.config = p.config := by
  rw [submit]
  split
  · dsimp only
    split <;> rfl
  · rfl

/-- Of the transitions of the connection, only a delivery and the clearing after a session touch
    devices; the others draw a number at most. -/
theorem Entrusted.turn (hp : p.Entrusted l) (h : Turn now p e p') :
    p'.Entrusted l ∧ p.Edits l (.task now e) p' := by
  obtain ⟨hconfig, rfl, hy⟩ := hp
  have hlasting := Store.lasting_rests p.writer.layout.treePath
  obtain ⟨hlayout, hcallbacks⟩ := h.kept hlasting hy
  have hdraw := (spared_announce hlasting hy id).store
  refine ⟨⟨h.config_eq ▸ hconfig, hlayout, hcallbacks⟩, ?_⟩
  cases h with
  | deliver hphase hpop =>
    refine .delivers _ ?_ (spared_committed hlasting hy _).store rfl
    rw [delivers?, if_pos hphase, hpop]
    rfl
  | clear hphase => exact .clears hphase (spared_committed hlasting hy _).store
  -- Where the phase after the transition is not bare there is nothing to show about it.
  | greet | hear | lose | leave | drain | empty => exact .leaves (fun _ hs => hs) nofun
  | accept | failToGreet | cut | fail | notice => exact .leaves hdraw nofun
  | send | take | skip => exact .leaves (fun _ hs => hs) id
  | misread | misframe => exact .leaves hdraw id
  | giveUp hphase | abandon hphase | wake hphase | retire hphase =>
    exact .leaves (fun _ hs => hs) fun _ => by rw [hphase]; rfl
  | dial hphase | miss hphase | stop hphase =>
    exact .leaves hdraw fun _ => by rw [hphase]; rfl
  | rest hphase =>
    refine .leaves hdraw fun _ => ?_
    rcases hphase with hphase | hphase <;> rw [hphase] <;> rfl

/-- An order marks its vector if there is a stream, and does nothing otherwise. -/
theorem Entrusted.submit (hp : p.Entrusted l) {cancelled : Bool} {c : Call} {o : Order}
    {xml : String} (horder : c.order? = some (o, xml)) :
    (p.submit o.device o.vector xml).2.Entrusted l ∧
      p.Edits l (.call cancelled c) (p.submit o.device o.vector xml).2 := by
  cases hconnected : p.status.isConnected with
  | false =>
    rw [submit_of_not_connected hconnected]
    exact ⟨hp, .leaves (fun _ hs => hs) id⟩
  | true =>
    obtain ⟨hconfig, rfl, hy⟩ := hp
    -- The panel gets another command and another store, and nothing else.
    obtain ⟨hconnection, hwriter, hhub⟩ := submit_of_connected
      (Store.lasting_rests p.writer.layout.treePath) hy hconnected o.device o.vector xml
    refine ⟨⟨?_, congrArg TreeWriter.layout hwriter, hhub.callbacks⟩, ?_⟩
    · rw [config_submit]
      exact hconfig
    · refine .marks o ?_ hhub.store ((congrArg Connection.phase hconnection).trans rfl)
      rw [orders?, if_pos hconnected, horder]
      rfl

/-- Whatever happens to a panel, its devices stay entrusted to the connection, and what is done to
    them is one of the four `Edits`.  The lemmas about a vector below are case analyses on it. -/
theorem Entrusted.step (hp : p.Entrusted l) (hm : m.Spares (Rests l.treePath))
    (hstep : p.step? m = some p') : p'.Entrusted l ∧ p.Edits l m p' := by
  cases deed_of_step? (Store.lasting_rests l.treePath) hp.callbacks hm hstep with
  | turn hturn => exact hp.turn hturn
  | submit horder => exact hp.submit horder
  | leave | announce | look | close =>
    exact ⟨⟨hp.layout, hp.writer, hp.callbacks⟩, .leaves (fun _ hs => hs) id⟩
  | aside htask hcall haside =>
    obtain ⟨hconnection, hwriter, hhub, hconfig⟩ := haside
    refine ⟨⟨hconfig ▸ hp.layout, hwriter ▸ hp.writer, hhub.callbacks⟩, .leaves hhub.store ?_⟩
    rw [hconnection]
    exact id

/-! ### What is left of a vector -/

/-- Only messages about a vector and orders for it change what is said of its state: a text that
    fulfils `P` before a move does so after it, if every text does where a message about the vector
    is delivered, and the word for busy does where an order for it is left. -/
theorem Edits.state (h : p.Edits l m p') (hwriter : p.writer.layout = l)
    (hsaid : p.hub.store.Says P (l.state device name))
    (hmsg : ∀ msg, p.delivers? m = some msg → msg.Concerns device name → ∀ text, P text)
    (horder : ∀ o, p.orders? m = some o → o.device = device → o.vector = name →
      P VectorState.busy.name) : p'.hub.store.Says P (l.state device name) := by
  -- What is said after a write is said when the callbacks have heard of it as well.
  subst hwriter
  cases h with
  | leaves store => exact hsaid.of_rests_tree store
  | delivers msg hdelivers store =>
    exact (TreeWriter.says_apply hsaid (hmsg msg hdelivers)).of_rests_tree store
  | clears _ store => exact (TreeWriter.says_clear hsaid).of_rests_tree store
  | marks o ho store =>
    exact (TreeWriter.says_markBusy hsaid _ _ (horder o ho)).of_rests_tree store

/-- A vector that is there stays, unless a message is delivered that may take it away, or the tree
    is cleared. -/
theorem Edits.holds (h : p.Edits l m p') (hwriter : p.writer.layout = l)
    (hholds : TreeWriter.Holds l device name p.hub.store) (hclears : ¬ p.clears m)
    (hmsg : ∀ msg, p.delivers? m = some msg → ¬ msg.Erases l device name) :
    TreeWriter.Holds l device name p'.hub.store := by
  -- The node at the path of the devices stays, and with it the vector.
  have hspared : ∀ s : Store, TreeWriter.Holds l device name s →
      (∀ o, Rests l.treePath o s → Rests l.treePath o p'.hub.store) →
        TreeWriter.Holds l device name p'.hub.store := by
    intro s hs hstore
    have hnode := (hstore _ ⟨hs.straight.straight_tree, rfl⟩).2
    refine ⟨hs.straight.of_rests_tree hstore, ?_⟩
    have hpresent := hs.present
    rw [Store.contains, ← l.node_view] at hpresent ⊢
    rwa [Layout.view_congr hnode]
  subst hwriter
  cases h with
  | leaves store => exact hspared _ hholds store
  | delivers msg hdelivers store =>
    exact hspared _ (TreeWriter.holds_apply hholds (hmsg msg hdelivers)) store
  | clears hcleared => exact absurd hcleared hclears
  | marks o ho store => exact hspared _ (TreeWriter.holds_markBusy hholds _ _) store

/-- In the phases of the connection in which `isBare` holds there are no devices, and that lasts:
    the moves that lead into such a phase clear the tree, or leave it as it was. -/
theorem Edits.bare (h : p.Edits l m p') (hstraight : p.hub.store.root.Straight l.treePath)
    (hbare : p.connection.phase.isBare = true → p.hub.store.Bare l.treePath)
    (hphase : p'.connection.phase.isBare = true) : p'.hub.store.Bare l.treePath := by
  -- A bare tree that the callbacks leave as it is stays bare.
  have hspared : ∀ s : Store, s.Bare l.treePath → s.root.Straight l.treePath →
      (∀ o, Rests l.treePath o s → Rests l.treePath o p'.hub.store) →
        p'.hub.store.Bare l.treePath := by
    intro s hs hstraight hstore
    have hnode := (hstore _ ⟨hstraight, rfl⟩).2
    rw [Store.Bare, Store.get?] at hs ⊢
    rwa [hnode]
  cases h with
  | leaves store phase => exact hspared _ (hbare (phase hphase)) hstraight store
  | delivers msg hdelivers store phase => rw [phase] at hphase; cases hphase
  | clears _ store =>
    refine hspared _ (Store.bare_clear l p.hub.store) ?_ store
    exact Store.says_put ⟨hstraight, fun _ => hstraight⟩ fun more hmore => by
      obtain rfl : more = [] := by simpa using hmore
      exact fun _ _ => trivial
  | marks o ho store phase =>
    have hbefore := hbare (phase ▸ hphase)
    rw [hbefore.markBusy] at store
    exact hspared _ hbefore hstraight store

/-! ### Vectors that take orders -/

/-- A move may keep a vector from taking an order that it would have taken: a message about the
    vector is delivered, or one that may take it away; the tree is cleared; or someone leaves an
    order for the same vector. -/
def Disturbs (l : Layout) (device name : String) (p : Panel) (m : Move) : Prop :=
  (∃ msg, p.delivers? m = some msg ∧ (msg.Concerns device name ∨ msg.Erases l device name)) ∨
    p.clears m ∨ ∃ o, p.orders? m = some o ∧ o.device = device ∧ o.vector = name

/-- A vector takes an order if it is there and is not said to be busy.  In this form `Edits.holds`
    and `Edits.state` apply to the two halves of `isReady`. -/
theorem isReady_iff (hstraight : p.hub.store.Says (fun _ => True) (l.state device name)) :
    (l.view p.hub.store device name).isReady = true ↔
      TreeWriter.Holds l device name p.hub.store ∧
        p.hub.store.Says (fun text => VectorState.ofName? text ≠ some .busy)
          (l.state device name) := by
  have hpresent : (l.view p.hub.store device name).isPresent =
      p.hub.store.contains (l.vector device name) := by
    rw [VectorView.isPresent, l.node_view]
    rfl
  rw [VectorView.isReady, Bool.and_eq_true, decide_eq_true_eq, hpresent]
  constructor
  · rintro ⟨hcontains, hstate⟩
    refine ⟨⟨hstraight, hcontains⟩, ?_⟩
    -- No list stands on the way, so the state that is seen is the text at the end of the path.
    obtain ⟨hpath, hvector⟩ := Node.says_append.1 hstraight
    refine Node.says_append.2 ⟨hpath, fun n hn => ⟨(hvector n hn).1, fun c hc text htext => ?_⟩⟩
    rw [l.state?_view_of_some hn, hc, Option.bind_some, htext] at hstate
    exact hstate
  · rintro ⟨hholds, hsaid⟩
    refine ⟨hholds.present, fun hstate => ?_⟩
    obtain ⟨text, hname, hnot⟩ := hsaid.exists_text hstate
    exact hnot hname

/-- A vector that takes an order does so after every move that does not disturb it. -/
theorem Edits.ready (h : p.Edits l m p') (hwriter : p.writer.layout = l)
    (hstraight : p.hub.store.Says (fun _ => True) (l.state device name))
    (hready : (l.view p.hub.store device name).isReady = true) :
    (l.view p'.hub.store device name).isReady = true ∨ p.Disturbs l device name m := by
  by_cases hdisturbs : p.Disturbs l device name m
  · exact .inr hdisturbs
  · rw [Disturbs, not_or, not_or] at hdisturbs
    -- None of the three happens, so the vector stays and nothing new is said of its state.
    obtain ⟨hmsg, hclears, horder⟩ := hdisturbs
    obtain ⟨hholds, hsaid⟩ := (isReady_iff hstraight).1 hready
    have hholds' := h.holds hwriter hholds hclears fun msg hdelivers herases =>
      hmsg ⟨msg, hdelivers, .inr herases⟩
    refine .inl ((isReady_iff hholds'.straight).2 ⟨hholds', h.state hwriter hsaid ?_ ?_⟩)
    · exact fun msg hdelivers hconcerns => absurd ⟨msg, hdelivers, .inl hconcerns⟩ hmsg
    · exact fun o ho hdevice hvector => absurd ⟨o, ho, hdevice, hvector⟩ horder

/-- Where a vector is there, the announced state is that of an open stream: in every other state
    there are no devices. -/
theorem isConnected_of_contains (hannounced : p.Announced)
    (hbare : p.connection.phase.isBare = true → p.hub.store.Bare l.treePath)
    (hcontains : p.hub.store.contains (l.vector device name) = true) :
    p.status.isConnected = true := by
  rw [Status.isConnected, decide_eq_true_eq]
  by_contra hstate
  -- Without a stream the phase is bare, and a bare tree holds no vector.
  have hnone := (hbare (hannounced.isBare hstate)).contains_vector device name
  rw [hnone] at hcontains
  cases hcontains

end Steps

end Panel

end Observatory
