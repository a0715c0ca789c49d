import Observatory.Proofs.DeviceTree.Writing
import Observatory.Proofs.Panel.Run

/-!
# What a panel announces

Others see of a connection only what it announces: its state, and whether something went wrong.
Many transitions announce something, some of them twice, and orders may come between any two.
What is announced is where the connection stands all the same, and where no open stream is
announced, there are no devices.

* `Node.toJson_of_cleared`: where an empty object was to be set, there is nothing else;
* `Store.Bare`: a path at which there is nothing, or an empty object;
* `LinkState.Leads`: from which state to which an announcement may lead;
* `Panel.fails`, `Panel.FailedSince`: failures, and whether there was one since a stream was
  opened;
* `Panel.announced_step`: what one move announces;
* `Panel.Tidied.step`: trees that hold nothing go on to do so;
* `Panel.status_run`: what is announced after every run.
-/

namespace Observatory

/-! ### Bare paths -/

namespace Node

variable {serial : Nat} {n m : Node} {path : List String}

/-- A node that was given an empty object is one. -/
theorem toJson_given_emptyObject (serial : Nat) (n : Node) :
    (given serial (some n) .emptyObject).toJson = .emptyObject := by
  rw [given]
  cases n with
  | scalar s a => rfl
  | array s items => rfl
  | object s children =>
    cases children with
    | nil => rfl
    | cons c children =>
      rw [assign, assignFields]
      rfl

/-- The value that `nest` puts at the end of a path is built there. -/
theorem descendant?_build_nest (serial : Nat) (v : Json) (path : List String) :
    (build serial (.nest path v)).descendant? path = some (build serial v) := by
  rw [← buildPath_eq]
  induction path with
  | nil => rfl
  | cons key rest ih =>
    have hchild : (buildPath serial v (key :: rest)).child? key =
        some (buildPath serial v rest) := by
      rw [buildPath, child?, Dict.get?, if_pos rfl]
    rw [descendant?, hchild]
    exact ih

/-- **Clearing leaves an empty object or nothing.** If something is at a path after an empty object
    was set there, it is an empty object, also where arrays or scalars stood on the way.  By
    induction on the path. -/
theorem toJson_of_cleared
    (h : ((Change.set .emptyObject).apply serial path n).descendant? path = some m) :
    m.toJson = .emptyObject := by
  have hnew : ∀ path, (build serial (.nest path .emptyObject)).descendant? path = some m →
      m.toJson = .emptyObject := by
    intro path hm
    rw [descendant?_build_nest] at hm
    rw [← Option.some.inj hm]
    rfl
  induction path generalizing n with
  | nil =>
    rw [Change.apply_set_nil] at h
    rw [← Option.some.inj h]
    exact toJson_given_emptyObject serial n
  | cons key rest ih =>
    -- Under the key there is something new, or what was there is cleared.
    have hput : ∀ o c, (Change.set .emptyObject).put serial rest o = some c →
        c.descendant? rest = some m → m.toJson = .emptyObject := by
      intro o c hc hm
      cases o with
      | none => exact hnew rest (Option.some.inj hc ▸ hm)
      | some c' =>
        rw [Change.put_some _ rfl] at hc
        exact ih (Option.some.inj hc ▸ hm)
    cases n with
    | scalar s a =>
      rw [Change.apply_scalar] at h
      exact hnew (key :: rest) h
    | object s children =>
      obtain ⟨s', next, happly, -, hnext⟩ :=
        (Change.set .emptyObject).apply_object serial key rest s children
      rw [happly, descendant?, child?, hnext, if_pos rfl] at h
      obtain ⟨c, hc, hm⟩ := Option.bind_eq_some_iff.1 h
      exact hput _ c hc hm
    | array s items =>
      have hstays : (Change.set .emptyObject).takesAway rest = false := rfl
      obtain ⟨s', -, happly⟩ := Change.apply_array serial key hstays s items
      rw [happly, descendant?, child?, Change.items] at h
      cases hp : ArrayIndex.parse? key with
      | none =>
        rw [hp] at h
        cases h
      | some i =>
        rw [hp] at h
        dsimp only [Option.bind_some] at h
        split at h
        · rw [List.getElem?_modify_eq] at h
          obtain ⟨c, hc, hm⟩ := Option.bind_eq_some_iff.1 h
          obtain ⟨item, -, rfl⟩ := Option.map_eq_some_iff.1 hc
          exact ih hm
        · split at h
          · next hi =>
            rw [hi] at h
            obtain ⟨c, hc, hm⟩ := Option.bind_eq_some_iff.1 h
            have hlast : (Change.set .emptyObject).put serial rest none = some c := by
              simpa [Change.put] using hc
            exact hput none c hlast hm
          · next hlt hne =>
            rw [List.getElem?_eq_none (by omega)] at h
            cases h

end Node

namespace Store

variable {path : List String} {s s' : Store} {l : Layout}

/-- At the path there is nothing, or an empty object. -/
def Bare (path : List String) (s : Store) : Prop :=
  s.get? path = none ∨ s.get? path = some .emptyObject

/-- What is at a path does not depend on ticks and on numbers that are drawn. -/
theorem lasting_get? (path : List String) (o : Option Json) : Lasting fun s => s.get? path = o :=
  lasting_root fun n => (n.descendant? path).map Node.toJson = o

/-- `Bare` is kept by what leaves the value at the path. -/
theorem Bare.of_spared (h : Bare path s) (hs' : ∀ o, s.get? path = o → s'.get? path = o) :
    Bare path s' := h.imp (hs' none) (hs' (some .emptyObject))

/-- After `clear`, the path of the devices is `Bare`. -/
theorem bare_clear (l : Layout) (s : Store) : Bare l.treePath (TreeWriter.clear l s).2 := by
  have hroot : (TreeWriter.clear l s).2.root =
      (Node.Change.set .emptyObject).apply s.openTick.1 l.treePath s.root := s.root_set _ _
  rw [Bare, get?, node?, hroot]
  cases hm : ((Node.Change.set .emptyObject).apply s.openTick.1 l.treePath s.root).descendant?
      l.treePath with
  | none => exact .inl rfl
  | some m => exact .inr (congrArg some (Node.toJson_of_cleared hm))

/-- In a `Bare` tree there is no vector. -/
theorem Bare.contains_vector (h : Bare l.treePath s) (device name : String) :
    s.contains (l.vector device name) = false := by
  have hat := TreeWriter.at?_vector l s device name []
  rw [List.append_nil, Json.read_nil] at hat
  rw [contains_eq, hat]
  rcases h with h | h
  · rw [h]
    rfl
  · rw [h]
    rfl

/-- Marking a vector of a `Bare` tree is not refused and changes nothing. -/
theorem Bare.markBusy (h : Bare l.treePath s) (device name : String) :
    TreeWriter.markBusy l device name s = (.ok (), s) := by
  rw [TreeWriter.markBusy, h.contains_vector, if_neg Bool.false_ne_true]
  rfl

end Store

/-! ### States -/

/-- Which state may be announced after which: the same one, or the next one on the way through a
    session. -/
inductive LinkState.Leads : LinkState → LinkState → Prop
  | stay (a : LinkState) : Leads a a
  | dial : Leads .disconnected .connecting
  | accept : Leads .connecting .connected
  | miss : Leads .connecting .disconnected
  | leave : Leads .connected .disconnected

namespace Connection.Phase

/-- The states that may be announced while the connection is in a phase. -/
def Announces : Phase → LinkState → Prop
  | idle, a | refused, a | resting _, a | stopped, a => a = .disconnected
  | dialing, a => a = .connecting
  | greeting, a | serving, a | framing, a | delivered, a | leaving, a | emptied, a | cleared, a =>
    a = .connected
  | ending, a => a ≠ .connected

/-- Whether there are no devices while the connection is in a phase. -/
def isBare : Phase → Bool
  | idle | dialing | cleared | refused | resting _ | ending | stopped => true
  | greeting | serving | framing | delivered | leaving | emptied => false

/-- In a phase in which something else than a stream is announced, there are no devices. -/
theorem Announces.isBare {phase : Phase} {a : LinkState} (h : phase.Announces a)
    (ha : a ≠ .connected) : phase.isBare = true := by
  cases phase <;> first | rfl | exact absurd h ha

end Connection.Phase

namespace Panel

/-! ### Failures -/

/-- Whether what comes next in the bytes that came in is an error, of framing or of reading. -/
def misreads (p : Panel) : Bool :=
  match p.connection.framer.nextMessage.1 with
  | .error _ => true
  | .ok none => false
  | .ok (some text) =>
    match Message.ofText text with
    | .error _ => true
    | .ok _ => false

/-- Whether a move is a failure of the connection: the server refuses the call, the stream breaks,
    or what came in is no message. -/
def fails (p : Panel) : Move → Bool
  | .task _ e =>
    match p.connection.phase, e with
    | .dialing, .refused | .greeting, .broken | .serving, .broken | .serving, .cut _ => true
    | .framing, .proceed => p.misreads
    | _, _ => false
  | _ => false

/-- Whether a move opens a stream. -/
def Move.opens : Move → Bool
  | task _ .accepted => true
  | _ => false

/-- Some move of the run was a failure, and no stream was opened since. -/
def FailedSince (p : Panel) (moves : List Move) : Prop :=
  ∃ before m after q, moves = before ++ m :: after ∧ p.run? before = some q ∧
    q.fails m = true ∧ ∀ m' ∈ after, m'.opens = false

/-- Opening a stream is no failure. -/
theorem fails_of_opens {q : Panel} {m : Move} (h : m.opens = true) : q.fails m = false := by
  unfold Move.opens at h
  split at h
  · unfold fails
    dsimp only
    split <;> first | rfl | contradiction
  · cases h

/-- `FailedSince` with one more move. -/
theorem failedSince_concat {p q : Panel} {moves : List Move} (hrun : p.run? moves = some q)
    (m : Move) : p.FailedSince (moves ++ [m]) ↔
      m.opens = false ∧ (p.FailedSince moves ∨ q.fails m = true) := by
  constructor
  · rintro ⟨before, m', after, r, hmoves, hbefore, hfails, hafter⟩
    -- The failure is the last move, or it is one before it.
    rcases List.eq_nil_or_concat after with rfl | ⟨after, last, rfl⟩
    · obtain ⟨rfl, hm⟩ := List.append_inj' hmoves rfl
      obtain rfl := (List.cons.inj hm).1
      obtain rfl := Option.some.inj (hbefore.symm.trans hrun)
      refine ⟨?_, .inr hfails⟩
      rw [← Bool.not_eq_true]
      exact fun hopens => Bool.false_ne_true ((fails_of_opens hopens).symm.trans hfails)
    · rw [List.concat_eq_append] at hmoves hafter
      rw [← List.cons_append, ← List.append_assoc] at hmoves
      obtain ⟨rfl, hm⟩ := List.append_inj' hmoves rfl
      obtain rfl := (List.cons.inj hm).1
      rw [List.forall_mem_append] at hafter
      exact ⟨hafter.2 m (List.mem_singleton_self m), .inl ⟨before, m', after, r, rfl, hbefore,
        hfails, hafter.1⟩⟩
  · rintro ⟨hopens, ⟨before, m', after, r, rfl, hbefore, hfails, hafter⟩ | hfails⟩
    · refine ⟨before, m', after ++ [m], r, by simp, hbefore, hfails, ?_⟩
      exact List.forall_mem_append.2 ⟨hafter, List.forall_mem_singleton.2 hopens⟩
    · exact ⟨moves, m, [], q, rfl, hrun, hfails, List.forall_mem_nil _⟩

/-! ### What is announced -/

section Announced

variable {p p' : Panel} {m : Move} {now : Nat} {e : Connection.Event}

/-- The announced state is one that the phase of the connection `Announces`. -/
def Announced (p : Panel) : Prop := p.connection.phase.Announces p.status.state

/-- A panel that was opened announces that it is disconnected. -/
theorem announced_open {config : PanelConfig} (h : open? config = .ok p) : p.Announced := by
  obtain rfl := eq_of_open? h
  rfl

/-- `Announced` is kept by every transition, and the state goes where `Leads` allows. -/
theorem announced_turn (h : p.Announced) (hturn : Turn now p e p') :
    p'.Announced ∧ p.status.state.Leads p'.status.state := by
  rw [Announced] at h ⊢
  -- In each phase `Announced` says which state there is, and so where the transition leads.
  cases hturn with
  | dial hphase =>
    rw [hphase] at h
    have hstate : p.status.state = .disconnected := h
    exact ⟨rfl, hstate ▸ .dial⟩
  | giveUp hphase | retire hphase =>
    rw [hphase] at h
    have hstate : p.status.state = .disconnected := h
    refine ⟨?_, .stay _⟩
    show p.status.state ≠ .connected
    rw [hstate]
    exact nofun
  | accept hphase =>
    rw [hphase] at h
    have hstate : p.status.state = .connecting := h
    exact ⟨rfl, hstate ▸ .accept⟩
  | miss hphase =>
    rw [hphase] at h
    have hstate : p.status.state = .connecting := h
    exact ⟨rfl, hstate ▸ .miss⟩
  | abandon hphase =>
    rw [hphase] at h
    have hstate : p.status.state = .connecting := h
    refine ⟨?_, .stay _⟩
    show p.status.state ≠ .connected
    rw [hstate]
    exact nofun
  | rest hphase =>
    refine ⟨rfl, ?_⟩
    rcases hphase with hphase | hphase
    · rw [hphase] at h
      have hstate : p.status.state = .connected := h
      exact hstate ▸ .leave
    · rw [hphase] at h
      have hstate : p.status.state = .disconnected := h
      exact hstate ▸ .stay _
  | stop hphase =>
    rw [hphase] at h
    refine ⟨rfl, ?_⟩
    show p.status.state.Leads .disconnected
    cases hstate : p.status.state with
    | disconnected => exact .stay _
    | connecting => exact .miss
    | connected => exact absurd hstate h
  | greet hphase | failToGreet hphase | hear hphase | deliver hphase | cut hphase
  | fail hphase | lose hphase | leave hphase | drain hphase | notice hphase | empty hphase
  | clear hphase | wake hphase =>
    rw [hphase] at h
    exact ⟨h, .stay _⟩
  | send | take | skip | misread | misframe => exact ⟨h, .stay _⟩

/-- A transition sets `errored` if it is a failure, and resets it if it opens a stream. -/
theorem errored_turn (hturn : Turn now p e p') : p'.status.errored =
    (!(Move.task now e).opens && (p.status.errored || p.fails (.task now e))) := by
  -- Only while framing it depends on what was read whether a transition is a failure.
  cases hturn with
  | misread hphase hnext hm =>
    have hmis : p.misreads = true := by simp only [misreads, hnext, hm]
    simp only [Move.opens, fails, hphase, hmis, Bool.or_true, Bool.not_false, Bool.and_self]
    rfl
  | misframe hphase hnext =>
    have hmis : p.misreads = true := by rw [misreads, hnext]
    simp only [Move.opens, fails, hphase, hmis, Bool.or_true, Bool.not_false, Bool.and_self]
    rfl
  | take hphase hnext hm =>
    have hmis : p.misreads = false := by simp only [misreads, hnext, hm]
    simp only [Move.opens, fails, hphase, hmis, Bool.or_false, Bool.not_false, Bool.true_and]
    rfl
  | skip hphase hnext hm =>
    have hmis : p.misreads = false := by simp only [misreads, hnext, hm]
    simp only [Move.opens, fails, hphase, hmis, Bool.or_false, Bool.not_false, Bool.true_and]
    rfl
  | drain hphase hnext =>
    have hmis : p.misreads = false := by rw [misreads, hnext]
    simp only [Move.opens, fails, hphase, hmis, Bool.or_false, Bool.not_false, Bool.true_and]
    rfl
  | rest hphase =>
    rcases hphase with hphase | hphase <;>
      simp only [Move.opens, fails, hphase, Bool.or_false, Bool.not_false, Bool.true_and] <;> rfl
  | accept hphase => rfl
  | miss hphase | failToGreet hphase | cut hphase | fail hphase =>
    simp only [Move.opens, fails, hphase, Bool.or_true, Bool.not_false, Bool.and_self]
    rfl
  | dial hphase | giveUp hphase | abandon hphase | greet hphase | hear hphase | deliver hphase
  | send hphase | lose hphase | leave hphase | notice hphase | empty hphase | clear hphase
  | wake hphase | retire hphase | stop hphase =>
    simp only [Move.opens, fails, hphase, Bool.or_false, Bool.not_false, Bool.true_and]
    rfl

/-- **One move.** `Announced` is kept, the state goes where `Leads` allows, `errored` is set and
    reset as it should, and a connection that has stopped stays so. -/
theorem announced_step (h : p.Announced) (hstep : p.step? m = some p') :
    p'.Announced ∧ p.status.state.Leads p'.status.state ∧
      p'.status.errored = (!m.opens && (p.status.errored || p.fails m)) ∧
        (p.connection.phase = .stopped → p'.connection.phase = .stopped) := by
  -- Most moves change neither the phase nor what is announced.
  have hsame : ∀ p' : Panel, p'.connection.phase = p.connection.phase →
      p'.status.state = p.status.state → p'.status.errored = p.status.errored →
      m.opens = false → p.fails m = false →
      p'.Announced ∧ p.status.state.Leads p'.status.state ∧
        p'.status.errored = (!m.opens && (p.status.errored || p.fails m)) ∧
          (p.connection.phase = .stopped → p'.connection.phase = .stopped) := by
    intro p' hphase hstate herrored hopens hfails
    rw [Announced, hphase, hstate, herrored, hopens, hfails]
    exact ⟨h, .stay _, by simp, id⟩
  cases deed_anyhow hstep with
  | turn hturn =>
    obtain ⟨hannounced, hleads⟩ := announced_turn h hturn
    exact ⟨hannounced, hleads, errored_turn hturn,
      fun hstopped => absurd hstopped hturn.not_stopped⟩
  | @submit cancelled c o xml horder =>
    cases hconnected : p.status.isConnected with
    | false =>
      rw [submit_of_not_connected hconnected]
      exact hsame p rfl rfl rfl rfl rfl
    | true =>
      have hconnection := connection_submit hconnected o.device o.vector xml
      have hstatus := congrArg Connection.status hconnection
      exact hsame _ ((congrArg Connection.phase hconnection).trans rfl)
        ((congrArg Status.state hstatus).trans rfl) ((congrArg Status.errored hstatus).trans rfl)
        rfl rfl
  | leave | announce | look | close => exact hsame _ rfl rfl rfl rfl rfl
  | aside htask hcall haside =>
    have hstatus := congrArg Connection.status haside.connection
    refine hsame p' (congrArg Connection.phase haside.connection) (congrArg Status.state hstatus)
      (congrArg Status.errored hstatus) ?_ ?_
    · cases m <;> first | rfl | exact absurd rfl (htask _ _)
    · cases m <;> first | rfl | exact absurd rfl (htask _ _)

end Announced

/-! ### Bare trees -/

/-- There are no devices in the phases that are bare, and callbacks leave the path of the devices
    alone. -/
structure Tidied (l : Layout) (p : Panel) : Prop where
  layout : p.writer.layout = l
  callbacks : p.hub.synchronizer.Spares fun o s => s.get? l.treePath = o
  bare : p.connection.phase.isBare = true → p.hub.store.Bare l.treePath

section Tidied

variable {l : Layout} {p p' : Panel} {m : Move} {now : Nat} {e : Connection.Event}

/-- A panel that was opened is `Tidied`. -/
theorem tidied_open {config : PanelConfig} (h : open? config = .ok p) :
    p.Tidied config.layout := by
  obtain rfl := eq_of_open? h
  refine ⟨rfl, List.forall_mem_nil _, fun _ => ?_⟩
  show Store.Bare config.layout.treePath {}
  cases hpath : config.layout.treePath with
  | nil => exact .inr rfl
  | cons key rest => exact .inl rfl

/-- `Tidied` is kept by every transition. -/
theorem Tidied.turn (h : p.Tidied l) (hturn : Turn now p e p') : p'.Tidied l := by
  obtain ⟨rfl, hcallbacks, hbefore⟩ := h
  have hlasting := Store.lasting_get? p.writer.layout.treePath
  have hdraw := (spared_announce hlasting hcallbacks id).store
  obtain ⟨hlayout, hcallbacks'⟩ := hturn.kept hlasting hcallbacks
  refine ⟨hlayout, hcallbacks', fun hbare => ?_⟩
  -- Into a bare phase leads the clearing, and from there on nothing touches the tree.
  cases hturn with
  | clear hphase =>
    exact (Store.bare_clear p.writer.layout p.hub.store).of_spared
      (spared_committed hlasting hcallbacks _).store
  | giveUp hphase | abandon hphase | wake hphase | retire hphase =>
    exact hbefore (by rw [hphase]; rfl)
  | dial hphase | miss hphase | stop hphase =>
    exact (hbefore (by rw [hphase]; rfl)).of_spared hdraw
  | rest hphase =>
    refine (hbefore ?_).of_spared hdraw
    rcases hphase with hphase | hphase <;> rw [hphase] <;> rfl
  | accept | greet | failToGreet | hear | deliver | cut | fail | lose | leave | drain | notice
  | empty => cases hbare
  | send hphase | take hphase | skip hphase | misread hphase | misframe hphase =>
    have hsame : p.connection.phase.isBare = true := hbare
    rw [hphase] at hsame
    cases hsame

/-- `Tidied` is kept by an order, which marks nothing in a bare tree. -/
theorem Tidied.submit (h : p.Tidied l) (device vector xml : String) :
    (p.submit device vector xml).2.Tidied l := by
  obtain ⟨rfl, hcallbacks, hbare⟩ := h
  cases hconnected : p.status.isConnected with
  | false =>
    rw [submit_of_not_connected hconnected]
    exact ⟨rfl, hcallbacks, hbare⟩
  | true =>
    obtain ⟨hconnection, hwriter, hhub⟩ := submit_of_connected
      (Store.lasting_get? p.writer.layout.treePath) hcallbacks hconnected device vector xml
    refine ⟨congrArg TreeWriter.layout hwriter, hhub.callbacks, fun hphase => ?_⟩
    rw [hconnection] at hphase
    -- There is nothing to mark, so the callbacks hear of nothing new at the path.
    have hstore := hbare hphase
    refine Store.Bare.of_spared ?_ hhub.store
    show Store.Bare _ (TreeWriter.markBusy p.writer.layout device vector p.hub.store).2
    rw [hstore.markBusy]
    exact hstore

/-- `Tidied` is kept by every move, if others leave the path of the devices alone. -/
theorem Tidied.step (h : p.Tidied l)
    (hm : m.Spares fun o (s : Store) => s.get? l.treePath = o) (hstep : p.step? m = some p') :
    p'.Tidied l := by
  have hlasting := Store.lasting_get? l.treePath
  cases deed_of_step? hlasting h.callbacks hm hstep with
  | turn hturn => exact h.turn hturn
  | submit horder => exact h.submit _ _ _
  | leave | close => exact ⟨h.layout, h.callbacks, h.bare⟩
  | announce =>
    refine ⟨h.layout, h.callbacks, fun hphase => ?_⟩
    exact (h.bare hphase).of_spared (spared_announce hlasting h.callbacks id).store
  | look => exact h
  | aside htask hcall haside =>
    obtain ⟨hconnection, hwriter, hhub⟩ := haside
    -- Others do not change the phase, and what they write leaves the path alone.
    refine ⟨(congrArg TreeWriter.layout hwriter).trans h.layout, hhub.callbacks, ?_⟩
    rw [hconnection]
    exact fun hphase => (h.bare hphase).of_spared hhub.store

end Tidied

/-! ### Runs -/

section Runs

variable {config : PanelConfig} {p p' : Panel} {moves : List Move}

/-- After every run a panel is `Announced`, and `errored` tells of a failure since a stream was
    last opened. -/
theorem announced_run (hopen : open? config = .ok p) (hrun : p.run? moves = some p') :
    p'.Announced ∧ (p'.status.errored = true ↔ p.FailedSince moves) := by
  refine run?_induction (p := p) (motive := fun moves q =>
    q.Announced ∧ (q.status.errored = true ↔ p.FailedSince moves))
    ⟨announced_open hopen, ?_⟩ ?_ hrun
  · obtain rfl := eq_of_open? hopen
    refine ⟨nofun, ?_⟩
    rintro ⟨before, m, after, q, hmoves, -⟩
    cases before <;> cases hmoves
  · intro moves q m r hmoves ⟨hq, herrored⟩ hstep
    obtain ⟨hr, -, hnext, -⟩ := announced_step hq hstep
    refine ⟨hr, ?_⟩
    rw [failedSince_concat hmoves, ← herrored, hnext]
    simp

/-- A connection that has stopped stays so in every run. -/
theorem stopped_run (hp : p.Announced) (hstopped : p.connection.phase = .stopped)
    (hrun : p.run? moves = some p') : p'.Announced ∧ p'.connection.phase = .stopped := by
  refine run?_induction (p := p) (motive := fun _ q =>
    q.Announced ∧ q.connection.phase = .stopped) ⟨hp, hstopped⟩ ?_ hrun
  intro moves q m r _ ⟨hq, hphase⟩ hstep
  obtain ⟨hr, -, -, hstays⟩ := announced_step hq hstep
  exact ⟨hr, hstays hphase⟩

/-- After every run a panel is `Tidied`, if others leave the path of the devices alone. -/
theorem tidied_run (hopen : open? config = .ok p)
    (hothers : ∀ m ∈ moves, m.Spares fun o (s : Store) => s.get? config.layout.treePath = o)
    (hrun : p.run? moves = some p') : p'.Tidied config.layout := by
  refine run?_induction (p := p) (motive := fun moves q =>
    (∀ m ∈ moves, m.Spares fun o (s : Store) => s.get? config.layout.treePath = o) →
      q.Tidied config.layout) (fun _ => tidied_open hopen) ?_ hrun hothers
  intro moves q m r _ ih hstep hothers
  rw [List.forall_mem_append, List.forall_mem_singleton] at hothers
  exact (ih hothers.1).step hothers.2 hstep

/-- **What a panel announces.** After every run: the state goes to another one only where it may;
    it tells of a failure if and only if there was one since a stream was last opened; whenever the
    state is not that of an open stream there are no devices, as long as nobody else writes at
    their path; and once the connection has stopped it is disconnected, whatever happens later. -/
theorem status_run (hopen : open? config = .ok p) (hrun : p.run? moves = some p') :
    (∀ m p'', p'.step? m = some p'' → p'.status.state.Leads p''.status.state) ∧
      (p'.status.errored = true ↔ p.FailedSince moves) ∧
      ((∀ m ∈ moves, m.Spares fun o (s : Store) => s.get? config.layout.treePath = o) →
        p'.status.state ≠ .connected →
          p'.get? config.layout.treePath = none ∨
            p'.get? config.layout.treePath = some .emptyObject) ∧
      (p'.connection.phase = .stopped → ∀ more p'', p'.run? more = some p'' →
        p''.connection.phase = .stopped ∧ p''.status.state = .disconnected) := by
  obtain ⟨hannounced, herrored⟩ := announced_run hopen hrun
  refine ⟨fun m p'' hstep => (announced_step hannounced hstep).2.1, herrored,
    fun hothers hstate => ?_, fun hstopped more p'' hmore => ?_⟩
  · exact (tidied_run hopen hothers hrun).bare (hannounced.isBare hstate)
  · -- Once it has stopped it stays so, and `Announced` says which state that is.
    obtain ⟨hlast, hphase⟩ := stopped_run hannounced hstopped hmore
    rw [Announced, hphase] at hlast
    exact ⟨hphase, hlast⟩

/-- A stream is opened, breaks before the server was asked for anything, and a command comes
    between the end of the session and its announcement; then the connection is closed. -/
def brokenRun : List Move :=
  [.task 0 .proceed, .task 0 .accepted, .task 0 .broken, .task 0 .proceed,
    .call false (.give ⟨"D", "V", []⟩ (.submitting "<x/>")), .task 0 .proceed, .task 0 .proceed,
    .close, .task 0 .closing, .task 0 .proceed]

/-- `status_run` on `brokenRun`: the failure is told, there are no devices, and the connection is
    disconnected for good. -/
theorem status_run_broken : ∃ p p', open? {} = .ok p ∧ p.run? brokenRun = some p' ∧
    (p'.status.errored = true ↔ p.FailedSince brokenRun) ∧
    (p'.get? ["deviceTree"] = none ∨ p'.get? ["deviceTree"] = some .emptyObject) ∧
    ∀ more p'', p'.run? more = some p'' → p''.status.state = .disconnected := by
  have hopen : open? {} = .ok { hub := { maxPasses := 16 } } := rfl
  have hrun : ∃ p', run? { hub := { maxPasses := 16 } } brokenRun = some p' ∧
      p'.connection.phase = .stopped ∧ p'.status.state ≠ .connected := ⟨_, rfl, rfl, nofun⟩
  obtain ⟨p', hrun, hstopped, hstate⟩ := hrun
  obtain ⟨-, herrored, hbare, hover⟩ := status_run hopen hrun
  refine ⟨_, p', hopen, hrun, herrored, hbare ?_ hstate, fun more p'' hmore =>
    (hover hstopped more p'' hmore).2⟩
  simp only [brokenRun, List.forall_mem_cons]
  exact ⟨trivial, trivial, trivial, trivial, trivial, trivial, trivial, trivial, trivial, trivial,
    List.forall_mem_nil _⟩

end Runs

end Panel

end Observatory
