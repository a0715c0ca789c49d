import Observatory.Proofs.Panel.Vigil

/-!
# No wake-up is lost

A caller that waits judges the tree and goes to sleep until something is announced.  The tree may
change at any time: before it read the status, between reading and judging, or while it goes to
sleep.  Each change is announced in a later step, and so the caller either has judged the tree as
it is, or there is an announcement that it does not know of, or the tree has changed since the last
one, and somebody still owes the next.  And what the caller hands out has passed all the looks of
one round.

* `Wait.OfTree`: conditions on nothing but the tree;
* `Wait.asleep_of_waits`: who goes on sleeping;
* `Vigil.Took`: what a step of the caller comes to;
* `Vigil.Pending`, `Vigil.owed_of_pending`: changes of the tree since something was announced last,
  and who announces them;
* `Vigil.Alert`, `Vigil.Alert.step`: what a caller that sleeps has seen;
* `Vigil.LastStep`: the last step of the caller in a run;
* `Vigil.Checked`, `Vigil.Looked`, `Vigil.Judged`: the looks of one round;
* `Vigil.alert_run`: no wake-up is lost, and no answer is false.
-/

namespace Observatory

/-- The condition depends on nothing but the node that holds the devices. -/
def Wait.OfTree {α : Type} (w : Wait α) : Prop :=
  ∀ t t' : DeviceTree, t.root? = t'.root? → w.condition t = w.condition t'

/-- A caller that goes on waiting sleeps, and knows of the last announcement. -/
theorem Wait.asleep_of_waits {α : Type} {w : Wait α} {cancelled : Bool} {p : Panel}
    {phase : Wait.Phase} (h : w.step cancelled p phase = .waits) :
    phase = .asleep p.status.revision := by
  cases phase with
  | asleep seen =>
    rw [step] at h
    split at h
    · cases h
    · split at h
      · next hrevision => rw [hrevision]
      · cases h
  | checking | looking | judging =>
    rw [step] at h
    split at h <;> cases h

namespace Vigil

variable {α : Type} {w : Wait α} {v v' : Vigil α} {path : List String} {m : Move}

/-! ### A step of the caller -/

/-- What a step of the caller may come to, one constructor for each outcome with what was found. -/
inductive Took (w : Wait α) (v : Vigil α) : Waiter α → Prop
  | checks (phase : v.waiter = .at .checking) (token : v.cancelled = false) :
    Took w v (.at .looking)
  | looks (phase : v.waiter = .at .looking)
    (link : w.allowDisconnected = true ∨ v.panel.status.isConnected = true) :
    Took w v (.at (.judging v.panel.status.revision))
  | accepts {seen : Nat} {a : α} (phase : v.waiter = .at (.judging seen))
    (verdict : w.condition v.panel.tree = some a) : Took w v (.ended (.ok a))
  | sleeps {seen : Nat} (phase : v.waiter = .at (.judging seen))
    (verdict : w.condition v.panel.tree = none) : Took w v (.at (.asleep seen))
  | stays {seen : Nat} (phase : v.waiter = .at (.asleep seen)) : Took w v (.at (.asleep seen))
  | wakes : Took w v (.at .checking)
  | fails (e : OperationError) : Took w v (.ended (.error e))

/-- A step of the caller is one that it `Took`, and changes nothing else. -/
theorem took_of_step? (h : step? w v .wait = some v') :
    ∃ next, v' = { v with waiter := next } ∧ Took w v next := by
  rw [step?] at h
  split at h
  · next phase hphase =>
    obtain rfl := Option.some.inj h
    -- One case for each phase of the wait and each way out of it.
    cases phase with
    | checking =>
      rw [Wait.step]
      split
      · exact ⟨_, rfl, .fails _⟩
      · next htoken => exact ⟨_, rfl, .checks hphase (Bool.not_eq_true _ ▸ htoken)⟩
    | looking =>
      rw [Wait.step]
      split
      · next hlink => exact ⟨_, rfl, .looks hphase (Bool.or_eq_true _ _ ▸ hlink)⟩
      · exact ⟨_, rfl, .fails _⟩
    | judging seen =>
      rw [Wait.step]
      split
      · next a hverdict => exact ⟨_, rfl, .accepts hphase hverdict⟩
      · next hverdict => exact ⟨_, rfl, .sleeps hphase hverdict⟩
    | asleep seen =>
      rw [Wait.step]
      split
      · exact ⟨_, rfl, .fails _⟩
      · split
        · exact ⟨_, congrArg (fun waiter => { v with waiter }) hphase, .stays hphase⟩
        · exact ⟨_, rfl, .wakes⟩
  · cases h

/-- No move but its own steps brings the caller on. -/
theorem waiter_of_step? (hm : m ≠ .wait) (h : step? w v m = some v') :
    v'.waiter = v.waiter := by
  -- Only `wait` steps the waiter; the other moves change the panel or the calls of others.
  cases m with
  | wait => exact absurd rfl hm
  | cancel =>
    obtain rfl := Option.some.inj h
    rfl
  | panel m =>
    rw [step?] at h
    split at h
    · cases h
    · obtain ⟨p', -, rfl⟩ := Option.map_eq_some_iff.1 h
      rfl
  | join c =>
    rw [step?] at h
    split at h
    · cases h
    · obtain rfl := Option.some.inj h
      rfl
  | call i cancelled =>
    obtain ⟨c, -, rfl⟩ := Option.map_eq_some_iff.1 h
    rfl
  | leave i =>
    obtain ⟨c, -, hleave⟩ := Option.bind_eq_some_iff.1 h
    split at hleave
    · cases hleave
    · obtain rfl := Option.some.inj hleave
      rfl

/-! ### Changes that are pending -/

variable {v₀ : Vigil α} {moves : List Move} {P : List Move → Vigil α → Prop}

/-- The induction rule for runs of a vigil. -/
theorem run?_induction {motive : List Move → Vigil α → Prop} (start : motive [] v₀)
    (step : ∀ moves u m u', run? w v₀ moves = some u → motive moves u → step? w u m = some u' →
      motive (moves ++ [m]) u') (hrun : run? w v₀ moves = some v) : motive moves v :=
  foldlM_induction start step hrun

/-- A move of the run changed the node that holds the devices, while `revision` was the number of
    the last announcement. -/
def ChangedAt (w : Wait α) (v₀ : Vigil α) (moves : List Move) (revision : Nat) : Prop :=
  ∃ before m after u u', moves = before ++ m :: after ∧ run? w v₀ before = some u ∧
    step? w u m = some u' ∧ u'.panel.tree.root? ≠ u.panel.tree.root? ∧
    u.panel.status.revision = revision

/-- A change of the tree is pending at the end of a run: one of its moves changed the tree, and
    since then nothing has been announced.  Every announcement has a later number than all before
    it, so there was none if the last number is still the one of that time. -/
def Pending (w : Wait α) (v₀ : Vigil α) (moves : List Move) (v : Vigil α) : Prop :=
  ChangedAt w v₀ moves v.panel.status.revision

/-- `ChangedAt` with one more move: this one changed the tree, or one before it did. -/
theorem changedAt_concat {revision : Nat} (hrun : run? w v₀ moves = some v)
    (hstep : step? w v m = some v') :
    ChangedAt w v₀ (moves ++ [m]) revision ↔ ChangedAt w v₀ moves revision ∨
      (v'.panel.tree.root? ≠ v.panel.tree.root? ∧ v.panel.status.revision = revision) := by
  constructor
  · rintro ⟨before, m', after, u, u', hsplit, hu, hu', hroot, hrevision⟩
    -- The change is the last move, or it is one before it.
    rcases List.eq_nil_or_concat after with rfl | ⟨after, last, rfl⟩
    · obtain ⟨rfl, hm⟩ := List.append_inj' hsplit rfl
      obtain rfl := (List.cons.inj hm).1
      obtain rfl := Option.some.inj (hrun.symm.trans hu)
      obtain rfl := Option.some.inj (hstep.symm.trans hu')
      exact .inr ⟨hroot, hrevision⟩
    · rw [List.concat_eq_append, ← List.cons_append, ← List.append_assoc] at hsplit
      obtain ⟨rfl, -⟩ := List.append_inj' hsplit rfl
      exact .inl ⟨before, m', after, u, u', rfl, hu, hu', hroot, hrevision⟩
  · rintro (⟨before, m', after, u, u', rfl, hu, hu', hroot, hrevision⟩ | ⟨hroot, hrevision⟩)
    · exact ⟨before, m', after ++ [m], u, u', by simp, hu, hu', hroot, hrevision⟩
    · exact ⟨moves, m, [], v, v', rfl, hrun, hstep, hroot, hrevision⟩

/-- If the node at the path is the same, so is the root of the tree. -/
theorem root?_eq {p p' : Panel} (hp : p.Watched path) (hp' : p'.Watched path)
    (hnode : p'.hub.store.node? path = p.hub.store.node? path) :
    p'.tree.root? = p.tree.root? := by
  show p'.hub.store.node? p'.config.layout.treePath = p.hub.store.node? p.config.layout.treePath
  rw [hp.tree, hp'.tree]
  exact hnode

/-- `Watched` is kept by every run, and the number of the last announcement does not go back. -/
theorem revision_le_run (hv₀ : v₀.panel.Watched path) (hothers : ∀ m ∈ moves, m.Spares path)
    (hrun : run? w v₀ moves = some v) :
    v.panel.Watched path ∧ v₀.panel.status.revision ≤ v.panel.status.revision := by
  refine run?_induction (motive := fun moves v => (∀ m ∈ moves, m.Spares path) →
    v.panel.Watched path ∧ v₀.panel.status.revision ≤ v.panel.status.revision)
    (fun _ => ⟨hv₀, Nat.le_refl _⟩) ?_ hrun hothers
  intro moves u m u' hmoves ih hstep hothers
  rw [List.forall_mem_append, List.forall_mem_singleton] at hothers
  obtain ⟨hu, hle⟩ := ih hothers.1
  obtain ⟨hu', hstir⟩ := stir_step hu hothers.2 hstep
  refine ⟨hu', Nat.le_trans hle ?_⟩
  cases hstir with
  | announces later => exact Nat.le_of_lt later
  | changes status | rests status => exact Nat.le_of_eq (congrArg Status.revision status.symm)

/-- A change was made under a number no later than that of the last announcement. -/
theorem ChangedAt.le {revision : Nat} (h : ChangedAt w v₀ moves revision)
    (hv₀ : v₀.panel.Watched path) (hothers : ∀ m ∈ moves, m.Spares path)
    (hrun : run? w v₀ moves = some v) : revision ≤ v.panel.status.revision := by
  obtain ⟨before, m, after, u, u', rfl, hu, -, -, rfl⟩ := h
  obtain ⟨hbefore, hafter⟩ := List.forall_mem_append.1 hothers
  rw [run?, List.foldlM_append] at hrun
  obtain ⟨u₁, hu₁, hrest⟩ := Option.bind_eq_some_iff.1 hrun
  obtain rfl := Option.some.inj (hu.symm.trans hu₁)
  exact (revision_le_run (revision_le_run hv₀ hbefore hu).1 hafter hrest).2

/-- **Whoever changed the tree announces it.** While a change is `Pending`, the connection or some
    caller owes an announcement. -/
theorem owed_of_pending (hv₀ : v₀.panel.Watched path) (hothers : ∀ m ∈ moves, m.Spares path)
    (hrun : run? w v₀ moves = some v) (h : Pending w v₀ moves v) : v.Owed := by
  refine run?_induction (motive := fun moves v => (∀ m ∈ moves, m.Spares path) →
    Pending w v₀ moves v → v.Owed) ?_ ?_ hrun hothers h
  · rintro - ⟨before, m, after, u, u', hsplit, -⟩
    cases before <;> cases hsplit
  · intro moves v m v' hmoves ih hstep hothers hpending
    rw [List.forall_mem_append, List.forall_mem_singleton] at hothers
    have hv := (revision_le_run hv₀ hothers.1 hmoves).1
    obtain ⟨hv', hstir⟩ := stir_step hv hothers.2 hstep
    rw [Pending, changedAt_concat hmoves hstep] at hpending
    cases hstir with
    | changes status committed owing => exact owing
    | rests status node owing =>
      -- The last move changed nothing, and what was pending before it was owed before it.
      have hbefore := hpending.resolve_right fun hchanged => hchanged.1 (root?_eq hv hv' node)
      rw [status] at hbefore
      exact owing (ih hothers.1 hbefore)
    | announces later node =>
      -- Nothing is pending any more, since this announcement comes after all changes.
      have hbefore := hpending.resolve_right fun hchanged => hchanged.1 (root?_eq hv hv' node)
      exact absurd (hbefore.le hv₀ hothers.1 hmoves) (Nat.not_le_of_lt later)

/-! ### What a caller that sleeps has seen -/

/-- The caller knows of no announcement that was not made.  If it sleeps and knows of the last one,
    then the tree does not fulfil the condition, or a change of it is `Pending`. -/
structure Alert (w : Wait α) (v₀ : Vigil α) (moves : List Move) (v : Vigil α) : Prop where
  judging : ∀ seen, v.waiter = .at (.judging seen) → seen ≤ v.panel.status.revision
  asleep : ∀ seen, v.waiter = .at (.asleep seen) → seen ≤ v.panel.status.revision ∧
    (v.panel.status.revision = seen →
      Pending w v₀ moves v ∨ w.condition v.panel.tree = none)

/-- A caller that has just come is `Alert`. -/
theorem alert_start (w : Wait α) (p : Panel) : Alert w { panel := p } [] { panel := p } :=
  ⟨nofun, nofun⟩

/-- `Alert` is kept by a step of the caller. -/
theorem Alert.took (h : Alert w v₀ moves v) (hrun : run? w v₀ moves = some v) {next : Waiter α}
    (hstep : step? w v .wait = some { v with waiter := next }) (hnext : Took w v next) :
    Alert w v₀ (moves ++ [.wait]) { v with waiter := next } := by
  cases hnext with
  | checks | accepts | wakes | fails => exact ⟨nofun, nofun⟩
  | looks phase link =>
    refine ⟨fun seen hseen => ?_, nofun⟩
    cases hseen
    exact Nat.le_refl _
  -- It falls asleep right after the condition was found not to be fulfilled.
  | sleeps phase verdict =>
    refine ⟨nofun, fun seen hseen => ?_⟩
    cases hseen
    exact ⟨h.judging _ phase, fun _ => .inr verdict⟩
  | stays phase =>
    refine ⟨nofun, fun seen hseen => ?_⟩
    cases hseen
    obtain ⟨hle, hidle⟩ := h.asleep _ phase
    exact ⟨hle, fun heq => (hidle heq).imp_left fun hpending =>
      (changedAt_concat hrun hstep).2 (.inl hpending)⟩

/-- A move without an announcement keeps the alternative of `Alert`: it leaves the tree and so the
    condition, or it changes the tree and so a change is `Pending`. -/
theorem pending_or_condition_eq (hw : w.OfTree) (hrun : run? w v₀ moves = some v)
    (hstep : step? w v m = some v') (hstatus : v'.panel.status = v.panel.status)
    (h : Pending w v₀ moves v ∨ w.condition v.panel.tree = none) :
    Pending w v₀ (moves ++ [m]) v' ∨ w.condition v'.panel.tree = none := by
  rw [Pending, hstatus, changedAt_concat hrun hstep]
  by_cases hroot : v'.panel.tree.root? = v.panel.tree.root?
  · exact h.imp .inl fun hnone => (hw _ _ hroot).trans hnone
  · exact .inl (.inr ⟨hroot, rfl⟩)

/-- `Alert` is kept by every move. -/
theorem Alert.step (h : Alert w v₀ moves v) (hrun : run? w v₀ moves = some v) (hw : w.OfTree)
    (hv : v.panel.Watched path) (hm : m.Spares path) (hstep : step? w v m = some v') :
    Alert w v₀ (moves ++ [m]) v' := by
  by_cases hwait : m = .wait
  · subst hwait
    obtain ⟨next, rfl, hnext⟩ := took_of_step? hstep
    exact h.took hrun hstep hnext
  · have hwaiter := waiter_of_step? hwait hstep
    have hsame : v'.panel.status = v.panel.status → Alert w v₀ (moves ++ [m]) v' := by
      refine fun hstatus => ⟨fun seen hseen => ?_, fun seen hseen => ?_⟩
      · exact hstatus ▸ h.judging seen (hwaiter ▸ hseen)
      · obtain ⟨hle, hidle⟩ := h.asleep seen (hwaiter ▸ hseen)
        exact ⟨hstatus ▸ hle, fun heq =>
          pending_or_condition_eq hw hrun hstep hstatus (hidle (hstatus ▸ heq))⟩
    cases (stir_step hv hm hstep).2 with
    | announces later node =>
      -- Whatever the caller knows of, this announcement comes after it.
      refine ⟨fun seen hseen => ?_, fun seen hseen => ?_⟩
      · exact Nat.le_trans (h.judging seen (hwaiter ▸ hseen)) (Nat.le_of_lt later)
      · have hle := (h.asleep seen (hwaiter ▸ hseen)).1
        exact ⟨Nat.le_trans hle (Nat.le_of_lt later), fun heq => absurd later (by omega)⟩
    | changes status | rests status => exact hsame status

/-! ### What a caller has found -/

/-- The caller has taken steps in the run, and at the last one `P` was true of the moves before it
    and of what they led to. -/
def LastStep (w : Wait α) (v₀ : Vigil α) (P : List Move → Vigil α → Prop) (moves : List Move) :
    Prop :=
  ∃ before after u, moves = before ++ .wait :: after ∧ (∀ m ∈ after, m ≠ .wait) ∧
    run? w v₀ before = some u ∧ P before u

/-- A step of the caller at which `P` is true is its last one. -/
theorem lastStep_wait (hrun : run? w v₀ moves = some v) (h : P moves v) :
    LastStep w v₀ P (moves ++ [.wait]) :=
  ⟨moves, [], v, rfl, List.forall_mem_nil _, hrun, h⟩

/-- `LastStep` is kept by what others do. -/
theorem LastStep.concat (h : LastStep w v₀ P moves) (hm : m ≠ .wait) :
    LastStep w v₀ P (moves ++ [m]) := by
  obtain ⟨before, after, u, rfl, hafter, hu, hP⟩ := h
  refine ⟨before, after ++ [m], u, List.append_assoc .., ?_, hu, hP⟩
  exact List.forall_mem_append.2 ⟨hafter, List.forall_mem_singleton.2 hm⟩

/-- The tree is as a commit of the run left it, or as it was at the start. -/
def Settled (w : Wait α) (v₀ : Vigil α) (moves : List Move) (v : Vigil α) : Prop :=
  ∃ front u, front <+: moves ∧ run? w v₀ front = some u ∧ (front = [] ∨ u.panel.Committed) ∧
    v.panel.tree.root? = u.panel.tree.root?

/-- At its last step, the caller found its token not cancelled. -/
def Checked (w : Wait α) (v₀ : Vigil α) : List Move → Prop :=
  LastStep w v₀ fun _ u => u.waiter = .at .checking ∧ u.cancelled = false

/-- At its last step, the caller found a stream or may wait without one; at the step before, it
    found its token not cancelled. -/
def Looked (w : Wait α) (v₀ : Vigil α) : List Move → Prop :=
  LastStep w v₀ fun before u => u.waiter = .at .looking ∧
    (w.allowDisconnected = true ∨ u.panel.status.isConnected = true) ∧ Checked w v₀ before

/-- At its last step, the caller got `a` from a tree that a commit left; at the steps before, it
    found all that it looks for. -/
def Judged (w : Wait α) (v₀ : Vigil α) (a : α) : List Move → Prop :=
  LastStep w v₀ fun before u => (∃ seen, u.waiter = .at (.judging seen)) ∧
    w.condition u.panel.tree = some a ∧ Settled w v₀ before u ∧ Looked w v₀ before

/-- What the caller has found in this round, by what it does next. -/
structure Found (w : Wait α) (v₀ : Vigil α) (moves : List Move) (v : Vigil α) : Prop where
  looking : v.waiter = .at .looking → Checked w v₀ moves
  judging : ∀ seen, v.waiter = .at (.judging seen) → Looked w v₀ moves
  ended : ∀ a, v.waiter = .ended (.ok a) → Judged w v₀ a moves

/-- `Settled` is kept by every move. -/
theorem Settled.concat {m : Move} (h : Settled w v₀ moves v) (hrun : run? w v₀ moves = some v)
    (hv : v.panel.Watched path) (hm : m.Spares path) (hstep : step? w v m = some v') :
    Settled w v₀ (moves ++ [m]) v' := by
  obtain ⟨front, u, hfront, hu, hcommitted, hroot⟩ := h
  obtain ⟨hv', hstir⟩ := stir_step hv hm hstep
  have hrun' : run? w v₀ (moves ++ [m]) = some v' := by
    show (moves ++ [m]).foldlM (step? w) v₀ = _
    rw [foldlM_concat]
    exact (congrArg (Option.bind · _) hrun).trans hstep
  -- A move that leaves the node at the path leaves the commit that the tree goes back to.
  have hsame : v'.panel.hub.store.node? path = v.panel.hub.store.node? path →
      Settled w v₀ (moves ++ [m]) v' := by
    intro hnode
    exact ⟨front, u, hfront.trans (List.prefix_append _ _), hu, hcommitted,
      (root?_eq hv hv' hnode).trans hroot⟩
  cases hstir with
  | announces later node => exact hsame node
  | changes status committed owing =>
    exact ⟨_, v', List.prefix_refl _, hrun', .inr committed, rfl⟩
  | rests status node owing => exact hsame node

/-- `Found` is kept by every move. -/
theorem Found.step (h : Found w v₀ moves v) (hrun : run? w v₀ moves = some v)
    (hsettled : Settled w v₀ moves v) (hstep : step? w v m = some v') :
    Found w v₀ (moves ++ [m]) v' := by
  -- Its own step puts the caller where that step found something; others leave it there.
  by_cases hwait : m = .wait
  · subst hwait
    obtain ⟨next, rfl, hnext⟩ := took_of_step? hstep
    cases hnext with
    | checks phase token =>
      exact ⟨fun _ => lastStep_wait hrun ⟨phase, token⟩, nofun, nofun⟩
    | looks phase link =>
      exact ⟨nofun, fun _ _ => lastStep_wait hrun ⟨phase, link, h.looking phase⟩, nofun⟩
    | accepts phase verdict =>
      refine ⟨nofun, nofun, fun a ha => ?_⟩
      cases ha
      exact lastStep_wait hrun ⟨⟨_, phase⟩, verdict, hsettled, h.judging _ phase⟩
    | sleeps | stays | wakes | fails => exact ⟨nofun, nofun, nofun⟩
  · have hwaiter := waiter_of_step? hwait hstep
    exact ⟨fun hphase => (h.looking (hwaiter ▸ hphase)).concat hwait,
      fun seen hphase => (h.judging seen (hwaiter ▸ hphase)).concat hwait,
      fun a hphase => (h.ended a (hwaiter ▸ hphase)).concat hwait⟩

/-- **No wake-up is lost, and no answer is false.** Whatever the connection and other callers do
    while a caller waits, and in whatever order: if its next step would be to go on sleeping, and
    no change of the tree is `Pending`, then the tree does not fulfil the condition.  While one is
    pending someone owes an announcement, which will wake the caller.  And if the caller is over
    with an answer, then in one round it found its token not cancelled, found a stream unless it
    waits without one, and got the answer from a tree that a commit left (`Judged`). -/
theorem alert_run {config : PanelConfig} {p : Panel} (hopen : Panel.open? config = .ok p)
    (hw : w.OfTree) (hothers : ∀ m ∈ moves, m.Spares config.layout.treePath)
    (hrun : run? w { panel := p } moves = some v) :
    (∀ phase, v.waiter = .at phase → w.step v.cancelled v.panel phase = .waits →
      ¬Pending w { panel := p } moves v → w.condition v.panel.tree = none) ∧
    (Pending w { panel := p } moves v → v.Owed) ∧
    ∀ a, v.waiter = .ended (.ok a) → Judged w { panel := p } a moves := by
  -- The four invariants go together: `Alert` and `Found` need the others at every step.
  have hkept : v.panel.Watched config.layout.treePath ∧ Alert w { panel := p } moves v ∧
      Settled w { panel := p } moves v ∧ Found w { panel := p } moves v := by
    refine run?_induction (motive := fun moves v =>
      (∀ m ∈ moves, m.Spares config.layout.treePath) →
        v.panel.Watched config.layout.treePath ∧ Alert w { panel := p } moves v ∧
          Settled w { panel := p } moves v ∧ Found w { panel := p } moves v) ?_ ?_ hrun hothers
    · intro _
      exact ⟨Panel.watched_open hopen, alert_start w p,
        ⟨[], _, List.prefix_refl _, rfl, .inl rfl, rfl⟩, nofun, nofun, nofun⟩
    · intro moves u m u' hmoves ih hstep hothers
      rw [List.forall_mem_append, List.forall_mem_singleton] at hothers
      obtain ⟨hwatched, halert, hsettled, hfound⟩ := ih hothers.1
      exact ⟨(stir_step hwatched hothers.2 hstep).1,
        halert.step hmoves hw hwatched hothers.2 hstep,
        hsettled.concat hmoves hwatched hothers.2 hstep, hfound.step hmoves hsettled hstep⟩
  obtain ⟨-, halert, -, hfound⟩ := hkept
  refine ⟨fun phase hphase hwaits hpending => ?_,
    owed_of_pending (Panel.watched_open hopen) hothers hrun, hfound.ended⟩
  obtain rfl := Wait.asleep_of_waits hwaits
  exact ((halert.asleep _ hphase).2 rfl).resolve_left hpending

/-- Waiting until there is a node that holds the devices, with a stream or without one. -/
def untilDevices : Wait Unit where
  allowDisconnected := true
  condition t := if t.root?.isSome then some () else none

/-- A stream is opened, and the caller goes to sleep. -/
def fallAsleep : List Move :=
  [.panel (.task 0 .proceed), .panel (.task 0 .accepted), .wait, .wait, .wait]

/-- The stream breaks, which wakes the caller.  The tree is cleared only after the caller has
    judged it again, and the next answer waits for that to be announced. -/
def wakeTwice : List Move :=
  fallAsleep ++ [.panel (.task 0 .broken), .wait, .wait, .wait, .panel (.task 0 .proceed), .wait,
    .panel (.task 0 .proceed), .wait, .panel (.task 0 .proceed), .wait, .wait, .wait, .wait]

/-- `alert_run` on `wakeTwice`: the caller sleeps while there is nothing, and finds the cleared
    tree once that is announced. -/
theorem alert_run_cleared : ∃ p v v', Panel.open? {} = .ok p ∧ untilDevices.OfTree ∧
    (∀ m ∈ wakeTwice, m.Spares ["deviceTree"]) ∧
    run? untilDevices { panel := p } fallAsleep = some v ∧
    run? untilDevices { panel := p } wakeTwice = some v' ∧
    untilDevices.condition v.panel.tree = none ∧ v'.waiter = .ended (.ok ()) ∧
    Judged untilDevices { panel := p } () wakeTwice := by
  have hopen : Panel.open? {} = .ok { hub := { maxPasses := 16 } } := rfl
  have htree : untilDevices.OfTree := by
    intro t t' h
    show (if t.root?.isSome then some () else none) = if t'.root?.isSome then some () else none
    rw [h]
  have hspares : ∀ m ∈ wakeTwice, m.Spares ["deviceTree"] := by
    simp [wakeTwice, fallAsleep, Move.Spares, Panel.Move.Spares]
  have hasleep : ∃ v, run? untilDevices { panel := { hub := { maxPasses := 16 } } } fallAsleep =
      some v ∧ v.waiter = .at (.asleep 2) ∧
        untilDevices.step v.cancelled v.panel (.asleep 2) = .waits ∧
          v.panel.connection.phase.owes = false ∧ v.others = [] := ⟨_, rfl, rfl, rfl, rfl, rfl⟩
  have hended : ∃ v, run? untilDevices { panel := { hub := { maxPasses := 16 } } } wakeTwice =
      some v ∧ v.waiter = .ended (.ok ()) := ⟨_, rfl, rfl⟩
  obtain ⟨v, hrun, hphase, hwaits, howes, hothers⟩ := hasleep
  obtain ⟨v', hrun', hended⟩ := hended
  -- Nobody owes an announcement, so nothing is pending and the sleep is right.
  have howed : ¬v.Owed := by
    rintro (h | ⟨c, hc, -⟩)
    · rw [howes] at h
      cases h
    · rw [hothers] at hc
      cases hc
  have halert := alert_run hopen htree (fun m hm => hspares m (List.mem_append_left _ hm)) hrun
  have hnone := halert.1 _ hphase hwaits fun hpending => howed (halert.2.1 hpending)
  have hjudged := (alert_run hopen htree hspares hrun').2.2 () hended
  exact ⟨_, v, v', hopen, htree, hspares, hrun, hrun', hnone, hended, hjudged⟩

end Vigil

end Observatory
