import Observatory.Proofs.DeviceTree.Marking
import Observatory.Proofs.Panel.Run

/-!
# A caller that waits

One caller waits for something of the device tree.  Meanwhile the connection goes on, others take
the steps of their calls, and anyone may use the hub.  Whoever changes the tree announces it, but
in a step of its own, and until then the announcement is owed.

* `Connection.Phase.owes`, `Order.Phase.owes`, `Call.owes`: who has changed the tree and has yet to
  announce it;
* `Vigil`, `Vigil.step?`, `Vigil.run?`: the caller that waits, and all that happens meanwhile;
* `Vigil.Owed`: someone owes an announcement;
* `Panel.Watched`: what holds of a panel whose tree others leave alone;
* `Panel.Stir`: what a step does to the tree and to what is announced;
* `Panel.Turn.stir`, `Order.stir_step`, `Call.stir_step`, `Vigil.stir_step`: what each step does.
-/

namespace Observatory

/-! ### Announcements that are owed -/

/-- Whether the connection has changed the tree and has yet to announce it. -/
def Connection.Phase.owes : Phase → Bool
  | delivered | cleared => true
  | idle | dialing | greeting | serving | framing | leaving | emptied | refused | resting _
  | ending | stopped => false

/-- Whether someone who gives an order has changed the tree and has yet to announce it. -/
def Order.Phase.owes : Order.Phase → Bool
  | announcing => true
  | inspecting | checking | composing | submitting _ => false

/-- Whether a call has changed the tree and has yet to announce it. -/
def Call.owes : Call → Bool
  | give _ phase | place _ phase => phase.owes
  | send _ _ | wait _ _ | confirm _ | await _ _ | settle _ _ => false

/-- The step goes on to a state that owes an announcement. -/
def Progress.Owing {σ α : Type} (owes : σ → Bool) (progress : Progress σ α) : Prop :=
  ∃ next, progress = .goesOn next ∧ owes next = true

/-! ### Vigils -/

namespace Vigil

/-- How far the caller that waits came. -/
inductive Waiter (α : Type) where
  | at (phase : Wait.Phase)
  | ended (result : Except OperationError α)

/-- What happens while a caller waits. -/
inductive Move where
  /-- The caller takes a step. -/
  | wait
  /-- Its token is cancelled, for good. -/
  | cancel
  /-- The connection goes on, or someone uses the hub. -/
  | panel (m : Panel.Move)
  /-- Someone else comes with a request. -/
  | join (c : Call)
  /-- Someone else takes a step. -/
  | call (i : Nat) (cancelled : Bool)
  /-- Someone else gives up. -/
  | leave (i : Nat)

end Vigil

/-- A panel, a caller that waits, whether its token is cancelled, and the calls of others. -/
structure Vigil (α : Type) where
  panel : Panel
  waiter : Vigil.Waiter α := .at .checking
  cancelled : Bool := false
  others : List Call := []

/-- Whether a move is a step of a call. -/
def Panel.Move.isCall : Panel.Move → Bool
  | call _ _ => true
  | _ => false

namespace Vigil

variable {α : Type}

/-- The vigil after the caller took a step. -/
def proceed (v : Vigil α) : Progress Wait.Phase α → Vigil α
  | .goesOn next => { v with waiter := .at next }
  | .waits => v
  | .ends result => { v with waiter := .ended result }

/-- The calls of others after one of them took a step. -/
def othersAfter (others : List Call) (i : Nat) : Progress Call (Option VectorView) → List Call
  | .goesOn next => others.set i next
  | .waits => others
  | .ends _ => others.eraseIdx i

/-- One move, if it can happen.  Nobody begins or gives up a call that owes an announcement. -/
def step? (w : Wait α) (v : Vigil α) : Move → Option (Vigil α)
  | .wait =>
    match v.waiter with
    | .at phase => some (v.proceed (w.step v.cancelled v.panel phase))
    | .ended _ => none
  | .cancel => some { v with cancelled := true }
  | .panel m => if m.isCall then none else (v.panel.step? m).map fun panel => { v with panel }
  | .join c => if c.owes then none else some { v with others := v.others ++ [c] }
  | .call i cancelled => v.others[i]?.map fun c =>
    let (progress, panel) := c.step cancelled v.panel
    { v with panel, others := othersAfter v.others i progress }
  | .leave i => v.others[i]?.bind fun c =>
    if c.owes then none else some { v with others := v.others.eraseIdx i }

/-- Some moves, if they can happen. -/
def run? (w : Wait α) (v : Vigil α) (moves : List Move) : Option (Vigil α) :=
  moves.foldlM (step? w) v

/-- An announcement is owed: the connection or one of the other callers stands between a step that
    may have changed the tree and the step that announces it. -/
def Owed (v : Vigil α) : Prop :=
  v.panel.connection.phase.owes = true ∨ ∃ c ∈ v.others, c.owes = true

end Vigil

/-! ### What others leave alone -/

namespace Panel

variable {path : List String} {p p' : Panel}

/-- The node at a path of a store, and a number that its clock has reached. -/
abbrev Steady (path : List String) (i : Option Node × Nat) (s : Store) : Prop :=
  s.node? path = i.1 ∧ i.2 ≤ s.clock.current

theorem lasting_steady (path : List String) (i : Option Node × Nat) :
    Store.Lasting (Steady path i) :=
  Store.Lasting.and (Store.lasting_root fun n => n.descendant? path = i.1)
    (Store.lasting_clock i.2)

/-- What is `Spared` has the same node at the path, and a clock that was not turned back. -/
theorem steady_of_spared {h h' : Hub} (hs : h.Spared (Steady path) h') :
    h'.store.node? path = h.store.node? path ∧
      h.store.clock.current ≤ h'.store.clock.current :=
  hs.store (h.store.node? path, h.store.clock.current) ⟨rfl, Nat.le_refl _⟩

/-- The tree is at a path that callbacks leave alone, and the number of the last announcement was
    drawn from the clock. -/
structure Watched (path : List String) (p : Panel) : Prop where
  tree : p.config.layout.treePath = path
  callbacks : p.hub.synchronizer.Spares (Steady path)
  drawn : p.status.revision ≤ p.hub.store.clock.current

/-- A panel that was opened is `Watched`. -/
theorem watched_open {config : PanelConfig} (h : open? config = .ok p) :
    p.Watched config.layout.treePath := by
  obtain rfl := eq_of_open? h
  exact ⟨rfl, List.forall_mem_nil _, Nat.le_refl _⟩

/-- The hub is as a commit left it. -/
def Committed (p : Panel) : Prop := ∃ h : Hub, p.hub = h.commit.1

/-- What a step does to the tree and to what is announced: it announces and leaves the tree alone,
    or changes the tree in a commit and then owes an announcement, or does neither.  `owed` and
    `owes` say whether an announcement is owed before and after it. -/
inductive Stir (path : List String) (owed owes : Prop) (p p' : Panel) : Prop
  | announces (later : p.status.revision < p'.status.revision)
    (node : p'.hub.store.node? path = p.hub.store.node? path)
  | changes (status : p'.status = p.status) (committed : p'.Committed) (owing : owes)
  | rests (status : p'.status = p.status)
    (node : p'.hub.store.node? path = p.hub.store.node? path) (owing : owed → owes)

/-- What is owed before and after a step may be told otherwise. -/
theorem Stir.imp {owed owes owed' owes' : Prop} (h : Stir path owed owes p p')
    (howes : owes → owes') (howed : (owed → owes) → owed' → owes') :
    Stir path owed' owes' p p' := by
  cases h with
  | announces later node => exact .announces later node
  | changes status committed owing => exact .changes status committed (howes owing)
  | rests status node owing => exact .rests status node (howed owing)

/-- `Watched` is kept by an announcement, which has a greater number than the last one. -/
theorem Watched.announce (hp : p.Watched path) (change : Status → Status) :
    (p.announce change).Watched path ∧
      p.status.revision < (p.announce change).status.revision :=
  ⟨⟨hp.tree, hp.callbacks, Nat.le_refl _⟩, Nat.lt_succ_of_le hp.drawn⟩

/-- `Watched` is kept when a store is committed. -/
theorem Watched.committed (hp : p.Watched path) {store : Store}
    (hclock : p.hub.store.clock.current ≤ store.clock.current) :
    (p.committed store).Watched path ∧ (p.committed store).Committed := by
  have hspared := spared_committed (lasting_steady path) hp.callbacks store
  refine ⟨⟨hp.tree, hspared.callbacks, ?_⟩, _, rfl⟩
  exact Nat.le_trans (Nat.le_trans hp.drawn hclock) (steady_of_spared hspared).2

/-! ### One step -/

/-- What a transition of the connection does is a `Stir`. -/
theorem Turn.stir {now : Nat} {e : Connection.Event} (hp : p.Watched path) (h : Turn now p e p') :
    p'.Watched path ∧ p.Stir path (p.connection.phase.owes = true)
      (p'.connection.phase.owes = true) p' := by
  -- Where the phase before owed nothing, nothing can be lost.
  have hrests : p.connection.phase.owes = false → ∀ owes,
      p.connection.phase.owes = true → owes := by
    intro hphase owes howed
    rw [hphase] at howed
    cases howed
  cases h with
  | deliver hphase hpop =>
    obtain ⟨hwatched, hcommitted⟩ := hp.committed (TreeWriter.clock_apply p.writer _ p.hub.store)
    exact ⟨⟨hwatched.tree, hwatched.callbacks, hwatched.drawn⟩, .changes rfl hcommitted rfl⟩
  | clear hphase =>
    obtain ⟨hwatched, hcommitted⟩ := hp.committed
      (Store.clock_put p.hub.store p.writer.layout.treePath .emptyObject)
    exact ⟨⟨hwatched.tree, hwatched.callbacks, hwatched.drawn⟩, .changes rfl hcommitted rfl⟩
  | dial | accept | miss | failToGreet | cut | fail | misread | misframe | notice | rest | stop =>
    exact ⟨⟨hp.tree, hp.callbacks, Nat.le_refl _⟩, .announces (Nat.lt_succ_of_le hp.drawn) rfl⟩
  | giveUp hphase | abandon hphase | greet hphase | hear hphase | send hphase | lose hphase
  | leave hphase | take hphase | skip hphase | drain hphase | empty hphase | wake hphase
  | retire hphase =>
    refine ⟨⟨hp.tree, hp.callbacks, hp.drawn⟩, .rests rfl rfl (hrests ?_ _)⟩
    rw [hphase]
    rfl

/-- To change nothing is a `Stir`, if nothing is owed. -/
theorem Stir.nothing {owed owes : Prop} (h : ¬owed) : p.Stir path owed owes p :=
  .rests rfl rfl fun howed => absurd howed h

/-- Submitting an order is a `Stir` that owes an announcement, unless it is refused. -/
theorem stir_submit (hp : p.Watched path) (device vector xml : String) :
    (p.submit device vector xml).2.Watched path ∧
      p.Stir path False ((p.submit device vector xml).1.isOk = true)
        (p.submit device vector xml).2 ∧
      (p.submit device vector xml).2.connection.phase = p.connection.phase := by
  cases hconnected : p.status.isConnected with
  | false =>
    rw [submit_of_not_connected hconnected]
    exact ⟨hp, .nothing id, rfl⟩
  | true =>
    have hclock := TreeWriter.clock_markBusy p.writer.layout device vector p.hub.store
    have hroot := TreeWriter.root_markBusy p.writer.layout device vector p.hub.store
    rw [submit, if_pos hconnected]
    dsimp only
    have hmark : TreeWriter.markBusy (p.enqueue xml).writer.layout device vector
        (p.enqueue xml).hub.store =
          TreeWriter.markBusy p.writer.layout device vector p.hub.store := rfl
    rw [hmark]
    generalize TreeWriter.markBusy p.writer.layout device vector p.hub.store = w at hclock hroot ⊢
    obtain ⟨result, store⟩ := w
    cases result with
    | ok _ =>
      have hqueued : (p.enqueue xml).Watched path := ⟨hp.tree, hp.callbacks, hp.drawn⟩
      obtain ⟨hwatched, hcommitted⟩ := hqueued.committed hclock
      exact ⟨hwatched, .changes rfl hcommitted rfl, rfl⟩
    -- If the store refuses the mark its tree is the same, and the order is not owed an
    -- announcement.
    | error e =>
      have hnode : store.node? path = p.hub.store.node? path :=
        congrArg (Node.descendant? · path) (hroot rfl)
      exact ⟨⟨hp.tree, hp.callbacks, Nat.le_trans hp.drawn hclock⟩,
        .rests rfl hnode fun howed => absurd howed id, rfl⟩

/-- What the connection does, and what others do to the hub, is a `Stir`. -/
theorem stir_step? {m : Move} (hp : p.Watched path) (hm : m.Spares (Steady path))
    (hcall : m.isCall = false) (h : p.step? m = some p') :
    p'.Watched path ∧ p.Stir path (p.connection.phase.owes = true)
      (p'.connection.phase.owes = true) p' := by
  cases deed_of_step? (lasting_steady path) hp.callbacks hm h with
  | turn hturn => exact hturn.stir hp
  | submit | leave | announce | look => cases hcall
  | close => exact ⟨⟨hp.tree, hp.callbacks, hp.drawn⟩, .rests rfl rfl id⟩
  | aside htask hcall haside =>
    obtain ⟨hconnection, -, hhub, hconfig⟩ := haside
    obtain ⟨hnode, hclock⟩ := steady_of_spared hhub
    have hstatus : p'.status = p.status := congrArg Connection.status hconnection
    -- Others reach the store through the hub, and leave the node at the path.
    refine ⟨⟨?_, hhub.callbacks, ?_⟩, .rests hstatus hnode fun howed => ?_⟩
    · rw [hconfig]
      exact hp.tree
    · rw [hstatus]
      exact Nat.le_trans hp.drawn hclock
    · rwa [hconnection]

end Panel

/-- What a step of an order does is a `Stir`. -/
theorem Order.stir_step {path : List String} {p : Panel} (hp : p.Watched path) (o : Order)
    (phase : Order.Phase) :
    (o.step p phase).2.Watched path ∧
      p.Stir path (phase.owes = true) ((o.step p phase).1.Owing Order.Phase.owes)
        (o.step p phase).2 ∧
      (o.step p phase).2.connection.phase = p.connection.phase := by
  cases phase with
  | inspecting =>
    rw [Order.step]
    split <;> exact ⟨hp, .nothing Bool.false_ne_true, rfl⟩
  | checking =>
    rw [Order.step]
    split <;> exact ⟨hp, .nothing Bool.false_ne_true, rfl⟩
  | composing =>
    rw [Order.step]
    split <;> exact ⟨hp, .nothing Bool.false_ne_true, rfl⟩
  | submitting xml =>
    -- Only this step owes an announcement, which the next step makes.
    have hsubmit := Panel.stir_submit hp o.device o.vector xml
    rw [Order.step]
    generalize p.submit o.device o.vector xml = r at hsubmit ⊢
    obtain ⟨result, p'⟩ := r
    obtain ⟨hwatched, hstir, hphase⟩ := hsubmit
    cases result with
    | ok _ =>
      refine ⟨hwatched, hstir.imp (fun _ => ⟨_, rfl, rfl⟩) fun _ howed => ?_, hphase⟩
      exact absurd howed Bool.false_ne_true
    | error e =>
      refine ⟨hwatched, hstir.imp (fun hok => ?_) fun _ howed => ?_, hphase⟩
      · exact absurd hok Bool.false_ne_true
      · exact absurd howed Bool.false_ne_true
  | announcing =>
    obtain ⟨hwatched, hlater⟩ := hp.announce id
    exact ⟨hwatched, .announces hlater rfl, rfl⟩

namespace Call

/-- A call owes what its present part owes. -/
theorem owing_after {σ α : Type} {owed : σ → Bool} {progress : Progress σ α}
    (h : progress.Owing owed) {resume : σ → Call} (hresume : ∀ next, (resume next).owes = owed next)
    (andThen : α → Progress Call (Option VectorView)) :
    (after resume andThen progress).Owing owes := by
  obtain ⟨next, rfl, howes⟩ := h
  exact ⟨resume next, rfl, (hresume next).trans howes⟩

/-- What a call that gives an order does is a `Stir`, as the order's step is one. -/
theorem Gives.stir_step {path : List String} {p : Panel} {o : Order} {phase : Order.Phase}
    {c : Call} (h : c.Gives o phase) (hp : p.Watched path) (cancelled : Bool) :
    (c.step cancelled p).2.Watched path ∧
      p.Stir path (c.owes = true) ((c.step cancelled p).1.Owing owes) (c.step cancelled p).2 ∧
      (c.step cancelled p).2.connection.phase = p.connection.phase := by
  have howes : ∀ {phase : Order.Phase} {c : Call}, c.Gives o phase → c.owes = phase.owes := by
    rintro phase c (_ | _) <;> rfl
  obtain ⟨resume, andThen, hresume, hstep⟩ := h.step_eq cancelled p
  obtain ⟨hwatched, hstir, hphase⟩ := o.stir_step hp phase
  have howing : (o.step p phase).1.Owing Order.Phase.owes →
      (after resume andThen (o.step p phase).1).Owing owes :=
    fun howing => owing_after howing (fun next => howes (hresume next)) andThen
  rw [hstep, howes h]
  exact ⟨hwatched, hstir.imp howing fun hkept howed => howing (hkept howed), hphase⟩

/-- What a step of a call does is a `Stir`, where the call may owe an order before and after. -/
theorem stir_step {path : List String} {p : Panel} (hp : p.Watched path) (cancelled : Bool)
    (c : Call) :
    (c.step cancelled p).2.Watched path ∧
      p.Stir path (c.owes = true) ((c.step cancelled p).1.Owing owes) (c.step cancelled p).2 ∧
      (c.step cancelled p).2.connection.phase = p.connection.phase := by
  -- Calls that wait or only look change nothing, and owe nothing.
  cases c with
  | wait w phase => exact ⟨hp, .nothing Bool.false_ne_true, rfl⟩
  | await o phase => exact ⟨hp, .nothing Bool.false_ne_true, rfl⟩
  | settle o phase => exact ⟨hp, .nothing Bool.false_ne_true, rfl⟩
  | send xml checked =>
    cases checked with
    | false =>
      rw [step]
      split <;> exact ⟨hp, .nothing Bool.false_ne_true, rfl⟩
    | true =>
      rw [step]
      split
      · exact ⟨hp, .nothing Bool.false_ne_true, rfl⟩
      · exact ⟨⟨hp.tree, hp.callbacks, hp.drawn⟩,
          .rests rfl rfl fun h => absurd h Bool.false_ne_true, rfl⟩
  | confirm o =>
    rw [step]
    split <;> exact ⟨hp, .nothing Bool.false_ne_true, rfl⟩
  | give o phase => exact Gives.give.stir_step hp cancelled
  | place o phase => exact Gives.place.stir_step hp cancelled

end Call

/-! ### One move -/

namespace Vigil

variable {α : Type} {w : Wait α} {v v' : Vigil α} {path : List String} {m : Move}

/-- What others write, or have callbacks write, leaves the tree alone and turns no clock back. -/
def Move.Spares (path : List String) : Move → Prop
  | panel m => m.Spares (Panel.Steady path)
  | _ => True

/-- A call is still there after a step of the calls, unless it is the one that took the step. -/
theorem mem_othersAfter {others : List Call} {i : Nat} {c c' : Call} (hc : others[i]? = some c)
    (progress : Progress Call (Option VectorView)) (hc' : c' ∈ others) :
    c' = c ∨ c' ∈ othersAfter others i progress := by
  obtain ⟨j, hj, rfl⟩ := List.getElem_of_mem hc'
  by_cases hij : i = j
  · subst hij
    exact .inl (Option.some.inj ((List.getElem?_eq_getElem hj).symm.trans hc))
  · right
    cases progress with
    | goesOn next =>
      have hset := List.getElem?_set_ne (a := next) hij (l := others)
      exact List.mem_of_getElem? (hset.trans (List.getElem?_eq_getElem hj))
    | waits => exact hc'
    | ends result => exact List.mem_eraseIdx_iff_getElem.2 ⟨j, hj, Ne.symm hij, rfl⟩

/-- A call that goes on owing an announcement is still there. -/
theorem exists_of_owing {others : List Call} {i : Nat} {c : Call} (hc : others[i]? = some c)
    {progress : Progress Call (Option VectorView)} (h : progress.Owing Call.owes) :
    ∃ c ∈ othersAfter others i progress, c.owes = true := by
  obtain ⟨next, rfl, howes⟩ := h
  exact ⟨next, List.mem_set (List.getElem?_eq_some_iff.1 hc).1 next, howes⟩

/-- What happens meanwhile changes the tree or announces something, or does nothing that the caller
    could see. -/
theorem stir_step (hv : v.panel.Watched path) (hm : m.Spares path)
    (hstep : step? w v m = some v') :
    v'.panel.Watched path ∧ v.panel.Stir path v.Owed v'.Owed v'.panel := by
  cases m with
  | wait =>
    rw [step?] at hstep
    split at hstep
    · next phase hphase =>
      obtain rfl := Option.some.inj hstep
      cases w.step v.cancelled v.panel phase <;> exact ⟨hv, .rests rfl rfl id⟩
    · cases hstep
  | cancel =>
    obtain rfl := Option.some.inj hstep
    exact ⟨hv, .rests rfl rfl id⟩
  | panel m =>
    rw [step?] at hstep
    split at hstep
    · cases hstep
    · next hcall =>
      obtain ⟨p', hp', rfl⟩ := Option.map_eq_some_iff.1 hstep
      obtain ⟨hwatched, hstir⟩ := Panel.stir_step? hv hm (Bool.not_eq_true _ ▸ hcall) hp'
      exact ⟨hwatched, hstir.imp .inl fun hkept => Or.imp_left hkept⟩
  | join c =>
    rw [step?] at hstep
    split at hstep
    · cases hstep
    · obtain rfl := Option.some.inj hstep
      refine ⟨hv, .rests rfl rfl (Or.imp_right ?_)⟩
      rintro ⟨c', hc', howes⟩
      exact ⟨c', List.mem_append_left _ hc', howes⟩
  | call i cancelled =>
    obtain ⟨c, hc, rfl⟩ := Option.map_eq_some_iff.1 hstep
    obtain ⟨hwatched, hstir, hphase⟩ := Call.stir_step hv cancelled c
    refine ⟨hwatched, hstir.imp (fun howing => .inr (exists_of_owing hc howing)) fun hkept => ?_⟩
    rintro (hpending | ⟨c', hc', howes⟩)
    · exact .inl (hphase ▸ hpending)
    · right
      -- The call that was stepped owes what it goes on to owe; the others owe what they did.
      rcases mem_othersAfter hc (c.step cancelled v.panel).1 hc' with rfl | hstays
      · exact exists_of_owing hc (hkept howes)
      · exact ⟨c', hstays, howes⟩
  | leave i =>
    obtain ⟨c, hc, hleave⟩ := Option.bind_eq_some_iff.1 hstep
    split at hleave
    · cases hleave
    · next howes =>
      obtain rfl := Option.some.inj hleave
      refine ⟨hv, .rests rfl rfl (Or.imp_right ?_)⟩
      rintro ⟨c', hc', howes'⟩
      rcases mem_othersAfter hc (.ends (.ok none)) hc' with rfl | hstays
      · exact absurd howes' howes
      · exact ⟨c', hstays, howes'⟩

end Vigil

end Observatory
