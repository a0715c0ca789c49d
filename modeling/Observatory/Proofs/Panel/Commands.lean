import Observatory.Proofs.Panel.Isolation

/-!
# Where commands go

Callers leave commands, and the connection takes them one by one.  A session that is over takes
the commands with it that have not gone out.  But the connection forgets them before it announces
that it is disconnected, and what is left for it in between goes out in the next session.

* `Panel.leaves?`, `Panel.left`: the commands that are left by one move, by several;
* `Panel.Orderly`: calls that keep to the times at which the connection waits;
* `Outgoing`: what went out in a session, given the commands of the session;
* `Panel.Sends.turn`, `Panel.Sends.more`: one transition, one more command;
* `Panel.outgoing_run`: what goes out in a session, and which commands those are;
* `Panel.late_run`: a command that goes out in a later session.
-/

namespace Observatory

/-- What went out in a session, given the commands for it: nothing, or the request for all
    definitions and then the first of the commands one after the other.  The last one may be cut
    short. -/
inductive Outgoing (commands : List String) : List String → Prop
  | silent : Outgoing commands []
  | whole {done : List String} (hdone : done <+: commands) :
      Outgoing commands (requestProperties none :: done)
  | cut {done : List String} {xml : String} (hdone : done ++ [xml] <+: commands) (n : Nat) :
      Outgoing commands
        (requestProperties none :: (done ++ [String.ofList (xml.toList.take n)]))

/-- `Outgoing` is kept when there are more commands behind the others. -/
theorem Outgoing.more {commands sent : List String} (h : Outgoing commands sent)
    (later : List String) : Outgoing (commands ++ later) sent := by
  have hpre : commands <+: commands ++ later := List.prefix_append _ _
  cases h with
  | silent => exact .silent
  | whole hdone => exact .whole (hdone.trans hpre)
  | cut hdone n => exact .cut (hdone.trans hpre) n

namespace Panel

/-! ### Commands that are left -/

/-- The command that a move leaves for the connection, if it leaves one. -/
def leaves? (p : Panel) : Move → Option String
  | .call _ (.send xml true) => if p.connection.phase = .stopped then none else some xml
  | .call _ c => if p.status.isConnected then c.order?.map Prod.snd else none
  | _ => none

/-- The commands that some moves leave for the connection, in their order. -/
def left (p : Panel) : List Move → List String
  | [] => []
  | m :: moves =>
    (p.leaves? m).toList ++
      match p.step? m with
      | some q => q.left moves
      | none => []

section Left

variable {p p' q r : Panel} {m : Move} {moves : List Move}

/-- The commands left by a run and one more move. -/
theorem left_concat (hrun : p.run? moves = some q) (m : Move) :
    p.left (moves ++ [m]) = p.left moves ++ (q.leaves? m).toList := by
  induction moves generalizing p with
  | nil =>
    obtain rfl := Option.some.inj hrun
    show (p.leaves? m).toList ++ _ = _
    cases p.step? m <;> simp [left]
  | cons m' moves ih =>
    rw [run?_cons] at hrun
    obtain ⟨p', hp', hrun⟩ := Option.bind_eq_some_iff.1 hrun
    rw [List.cons_append, left, hp', left, hp']
    dsimp only
    rw [ih hrun, List.append_assoc]

/-- A call other than `send` leaves the command of its order, if there is a stream. -/
theorem leaves?_call {c : Call} (hc : ∀ xml, c ≠ .send xml true) (cancelled : Bool) (p : Panel) :
    p.leaves? (.call cancelled c) =
      if p.status.isConnected then c.order?.map Prod.snd else none := by
  cases c with
  | send xml checked =>
    cases checked with
    | true => exact absurd rfl (hc xml)
    | false => rfl
  | _ => rfl

/-- A step of a call changes nothing of the connection but the commands, where it puts what it
    `leaves?` behind the others. -/
theorem connection_of_call (cancelled : Bool) (c : Call) (p : Panel) :
    (c.step cancelled p).2.connection.phase = p.connection.phase ∧
      (c.step cancelled p).2.connection.sent = p.connection.sent ∧
        (c.step cancelled p).2.connection.outbound =
          p.connection.outbound ++ (p.leaves? (.call cancelled c)).toList := by
  -- `send` leaves a command that is no order; every other call leaves that of its order or none.
  by_cases hc : ∃ xml, c = .send xml true
  · obtain ⟨xml, rfl⟩ := hc
    rw [Call.step, leaves?]
    split
    · exact ⟨rfl, rfl, (List.append_nil _).symm⟩
    · exact ⟨rfl, rfl, rfl⟩
  · rw [not_exists] at hc
    rw [leaves?_call hc]
    rcases c.step_cases cancelled p with ⟨o, xml, horder, hstep⟩ |
      ⟨horder, ⟨xml, rfl, -⟩ | hstep | hstep⟩
    · rw [hstep, horder]
      cases hconnected : p.status.isConnected with
      | false =>
        rw [submit_of_not_connected hconnected]
        exact ⟨rfl, rfl, (List.append_nil _).symm⟩
      | true =>
        rw [connection_submit hconnected]
        exact ⟨rfl, rfl, rfl⟩
    · exact absurd rfl (hc xml)
    · rw [hstep, horder, Option.map_none, ite_self]
      exact ⟨rfl, rfl, (List.append_nil _).symm⟩
    · rw [hstep, horder, Option.map_none, ite_self]
      exact ⟨rfl, rfl, (List.append_nil _).symm⟩

/-- A move that is no event of the connection changes nothing of it but the commands, where it puts
    what it `leaves?` behind the others. -/
theorem connection_of_step? (hstep : p.step? m = some p') (htask : ∀ now e, m ≠ .task now e) :
    p'.connection.phase = p.connection.phase ∧ p'.connection.sent = p.connection.sent ∧
      p'.connection.outbound = p.connection.outbound ++ (p.leaves? m).toList := by
  -- A move that leaves nothing has nothing to put behind the others.
  have hlast : p.leaves? m = none → p.connection.outbound =
      p.connection.outbound ++ (p.leaves? m).toList := fun hnone => by
    rw [hnone, Option.toList_none, List.append_nil]
  cases m with
  | task now e => exact absurd rfl (htask now e)
  | call cancelled c =>
    obtain rfl := Option.some.inj hstep
    exact connection_of_call cancelled c p
  | close =>
    obtain rfl := Option.some.inj hstep
    exact ⟨rfl, rfl, hlast rfl⟩
  | _ =>
    cases deed_anyhow hstep with
    | aside htask hcall haside =>
      rw [haside.connection]
      exact ⟨rfl, rfl, hlast rfl⟩

end Left

/-! ### A session -/

/-- How far a connection is with the commands of a session: before its greeting, between greeting
    and end, where `done` went out and the others wait, or at its end. -/
inductive Sends (commands : List String) (c : Connection) : Prop
  | greeting (hphase : c.phase = .greeting) (hsent : c.sent = []) (hrest : c.outbound = commands)
  | serving (hphase : c.phase.hasStream = true) (hgreeted : c.phase ≠ .greeting)
      (done : List String) (hsent : c.sent = requestProperties none :: done)
      (hrest : done ++ c.outbound = commands)
  | ended (hphase : c.phase.hasStream = false) (hsent : Outgoing commands c.sent)

section Sends

variable {commands : List String} {p p' q r : Panel} {m : Move} {moves : List Move} {now : Nat}
  {e : Connection.Event}

/-- What went out so far is `Outgoing`. -/
theorem Sends.outgoing {c : Connection} (h : Sends commands c) : Outgoing commands c.sent := by
  cases h with
  | greeting hphase hsent hrest => exact hsent ▸ .silent
  | serving hphase hgreeted done hsent hrest =>
    exact hsent ▸ .whole (hrest ▸ List.prefix_append _ _)
  | ended hphase hsent => exact hsent

/-- `Sends` is kept when a command is left behind the others. -/
theorem Sends.more {c c' : Connection} (h : Sends commands c) (hphase : c'.phase = c.phase)
    (hsent : c'.sent = c.sent) {later : List String} (hrest : c'.outbound = c.outbound ++ later) :
    Sends (commands ++ later) c' := by
  cases h with
  | greeting hphase' hsent' hrest' =>
    exact .greeting (hphase.trans hphase') (hsent.trans hsent') (hrest' ▸ hrest)
  | serving hphase' hgreeted done hsent' hrest' =>
    refine .serving (hphase ▸ hphase') (hphase ▸ hgreeted) done (hsent.trans hsent') ?_
    rw [hrest, ← List.append_assoc, hrest']
  | ended hphase' hsent' => exact .ended (hphase ▸ hphase') (hsent ▸ hsent'.more later)

/-- Between greeting and end, the request and some commands went out, and the other commands
    wait. -/
theorem Sends.exists_done {c : Connection} (h : Sends commands c)
    (hphase : c.phase.hasStream = true) (hgreeted : c.phase ≠ .greeting) :
    ∃ done, c.sent = requestProperties none :: done ∧ done ++ c.outbound = commands := by
  cases h with
  | greeting hphase' => exact absurd hphase' hgreeted
  | serving _ _ done hsent hrest => exact ⟨done, hsent, hrest⟩
  | ended hphase' => rw [hphase'] at hphase; cases hphase

/-- `Sends` is kept by every transition but the opening of a stream, one case for each. -/
theorem Sends.turn (h : Sends commands p.connection) (hturn : Turn now p e p')
    (he : e ≠ .accepted) : Sends commands p'.connection := by
  have hout := h.outgoing
  have hdone : p.connection.phase.hasStream = true → p.connection.phase ≠ .greeting →
      ∃ done, p.connection.sent = requestProperties none :: done ∧
        done ++ p.connection.outbound = commands := h.exists_done
  cases hturn with
  | accept => exact absurd rfl he
  | greet hphase =>
    cases h with
    | greeting _ hsent hrest =>
      refine .serving rfl nofun [] ?_ hrest
      exact congrArg (· ++ [requestProperties none]) hsent
    | serving _ hgreeted => exact absurd hphase hgreeted
    | ended hphase' => rw [hphase] at hphase'; cases hphase'
  | hear hphase | deliver hphase | drain hphase | notice hphase =>
    rw [hphase] at hdone
    obtain ⟨done, hsent, hrest⟩ := hdone rfl nofun
    exact .serving rfl nofun done hsent hrest
  | take hphase | skip hphase | misread hphase | misframe hphase =>
    rw [hphase] at hdone
    obtain ⟨done, hsent, hrest⟩ := hdone rfl nofun
    exact .serving (hphase ▸ rfl) (hphase ▸ nofun) done hsent hrest
  | send hphase hnext =>
    -- The first command that waits is the next one to be done.
    rw [hphase, hnext] at hdone
    obtain ⟨done, hsent, hrest⟩ := hdone rfl nofun
    refine .serving (hphase ▸ rfl) (hphase ▸ nofun) _ (congrArg (· ++ [_]) hsent) ?_
    rw [← hrest, List.append_cons]
    rfl
  | cut hphase hnext n =>
    rw [hphase, hnext] at hdone
    obtain ⟨done, hsent, hrest⟩ := hdone rfl nofun
    refine .ended rfl ?_
    show Outgoing commands (p.connection.sent ++ [_])
    rw [hsent]
    exact .cut ⟨_, (List.append_cons _ _ _).symm.trans hrest⟩ n
  | failToGreet | fail | lose | leave | dial | giveUp | miss | abandon | empty | clear | rest
  | wake | retire | stop => exact .ended rfl hout

/-- `Sends` is kept by every move within a session, with the command that the move leaves. -/
theorem Sends.step (h : Sends commands p.connection) (hstep : p.step? m = some p')
    (hopens : m.opens = false) : Sends (commands ++ (p.leaves? m).toList) p'.connection := by
  cases m with
  | task now e =>
    show Sends (commands ++ []) p'.connection
    rw [List.append_nil]
    exact h.turn (turn_of_handle? hstep) (by rintro rfl; cases hopens)
  | _ =>
    obtain ⟨hphase, hsent, hrest⟩ := connection_of_step? hstep nofun
    exact h.more hphase hsent hrest

/-- `Sends` is kept by a run within a session, with the commands that the run leaves. -/
theorem Sends.run (h : Sends commands p.connection) (hopens : ∀ m ∈ moves, m.opens = false)
    (hrun : p.run? moves = some q) : Sends (commands ++ p.left moves) q.connection := by
  refine run?_induction (p := p) (motive := fun moves q => (∀ m ∈ moves, m.opens = false) →
    Sends (commands ++ p.left moves) q.connection) (fun _ => ?_) ?_ hrun hopens
  · rw [left, List.append_nil]
    exact h
  · intro moves q m r hmoves ih hstep hopens
    rw [List.forall_mem_append, List.forall_mem_singleton] at hopens
    rw [left_concat hmoves, ← List.append_assoc]
    exact (ih hopens.1).step hstep hopens.2

end Sends

/-! ### Between sessions -/

/-- Calls keep to the times at which the connection waits: nothing comes between a call's look for
    the stream and its command, and no call takes a step between the moment at which the commands
    of a session are forgotten and the announcement that the session is over. -/
structure Orderly (p : Panel) (moves : List Move) : Prop where
  looks : ∀ before cancelled xml after,
    moves = before ++ .call cancelled (.send xml true) :: after →
      ∃ earlier q, before = earlier ++ [.call cancelled (.send xml false)] ∧
        p.run? earlier = some q ∧ q.status.isConnected = true
  waits : ∀ before cancelled c after q, moves = before ++ .call cancelled c :: after →
    p.run? before = some q → q.connection.phase ≠ .emptied ∧ q.connection.phase ≠ .cleared

section Between

variable {config : PanelConfig} {p p' q r : Panel} {m : Move} {before moves since : List Move}
  {now : Nat} {e : Connection.Event} {xml : String}

theorem Orderly.of_prefix (h : p.Orderly moves) (hpre : before <+: moves) : p.Orderly before := by
  obtain ⟨after, rfl⟩ := hpre
  refine ⟨fun b cancelled xml a hb => h.looks b cancelled xml (a ++ after) ?_,
    fun b cancelled c a q hb => h.waits b cancelled c (a ++ after) q ?_⟩
  · rw [hb, List.append_assoc, List.cons_append]
  · rw [hb, List.append_assoc, List.cons_append]

/-- In an `Orderly` run, a command is left only while the stream is announced. -/
theorem Orderly.isConnected (h : p.Orderly (moves ++ [m])) (hrun : p.run? moves = some q)
    (hleaves : q.leaves? m = some xml) : q.status.isConnected = true := by
  cases m with
  | call cancelled c =>
    by_cases hc : ∃ xml, c = .send xml true
    · obtain ⟨xml', rfl⟩ := hc
      obtain ⟨earlier, s, rfl, hs, hconnected⟩ := h.looks moves cancelled xml' [] rfl
      rw [run?_concat, hs] at hrun
      -- Right before it sends, the call has looked, and a look changes nothing.
      have hlook : s.step? (.call cancelled (.send xml' false)) = some s := by
        rw [step?, Call.step, if_pos hconnected]
      rw [Option.bind_some, hlook] at hrun
      obtain rfl := Option.some.inj hrun
      exact hconnected
    · rw [leaves?_call (not_exists.1 hc)] at hleaves
      split at hleaves
      · assumption
      · cases hleaves
  | _ => cases hleaves

/-- A transition takes commands away from those that wait, and adds none. -/
theorem outbound_turn (hturn : Turn now p e p') :
    p'.connection.outbound <:+ p.connection.outbound := by
  cases hturn with
  | send hphase hnext | cut hphase hnext => exact hnext ▸ List.suffix_cons _ _
  | empty => exact List.nil_suffix
  | _ => exact List.suffix_rfl

/-- What waits after a run waited before it, or was left in it. -/
theorem outbound_run (hrun : p.run? moves = some q) :
    q.connection.outbound <:+ p.connection.outbound ++ p.left moves := by
  -- Transitions take commands from the front, and calls put theirs at the end.
  refine run?_induction (p := p) (motive := fun moves q =>
    q.connection.outbound <:+ p.connection.outbound ++ p.left moves) ?_ ?_ hrun
  · rw [left, List.append_nil]
  · intro moves q m r hmoves ih hstep
    rw [left_concat hmoves, ← List.append_assoc]
    cases m with
    | task now e =>
      have hnone : q.leaves? (.task now e) = none := rfl
      rw [hnone, Option.toList_none, List.append_nil]
      exact (outbound_turn (turn_of_handle? hstep)).trans ih
    | _ =>
      obtain ⟨-, -, hrest⟩ := connection_of_step? hstep nofun
      obtain ⟨front, hfront⟩ := ih
      exact ⟨front, by rw [hrest, ← List.append_assoc, hfront]⟩

/-- If nothing waits while the session is forgotten, that is so after the next transition as
    well. -/
theorem outbound_of_isPurged (hturn : Turn now p e p')
    (h : p.connection.phase.isPurged = true → p.connection.outbound = [])
    (hpurged : p'.connection.phase.isPurged = true) : p'.connection.outbound = [] := by
  cases hturn with
  | empty => rfl
  | send hphase | take hphase | skip hphase | misread hphase | misframe hphase =>
    exact absurd hpurged (Connection.not_isPurged hphase rfl)
  | accept | greet | failToGreet | hear | deliver | cut | fail | lose | leave | drain | notice =>
    cases hpurged
  | rest hphase => exact h (by rcases hphase with hphase | hphase <;> rw [hphase] <;> rfl)
  | dial hphase | giveUp hphase | miss hphase | abandon hphase | clear hphase | wake hphase
  | retire hphase | stop hphase => exact h (by rw [hphase]; rfl)

/-- While the session is forgotten, the stream is announced only between forgetting it and the
    announcement of its end. -/
theorem Announced.not_isConnected (h : p.Announced) (hpurged : p.connection.phase.isPurged = true)
    (hphase : p.connection.phase ≠ .emptied ∧ p.connection.phase ≠ .cleared) :
    p.status.isConnected = false := by
  rw [Announced] at h
  rw [Status.isConnected, decide_eq_false_iff_not]
  generalize p.connection.phase = phase at h hpurged hphase
  cases phase with
  | emptied => exact absurd rfl hphase.1
  | cleared => exact absurd rfl hphase.2
  | ending => exact h
  | greeting | serving | framing | delivered | leaving => cases hpurged
  | idle | dialing | refused | resting | stopped =>
    intro hstate
    cases hstate.symm.trans h

/-- In an `Orderly` run no command waits between sessions. -/
theorem outbound_of_orderly (hopen : open? config = .ok p) (hrun : p.run? moves = some q)
    (horderly : p.Orderly moves) (hpurged : q.connection.phase.isPurged = true) :
    q.connection.outbound = [] := by
  refine run?_induction (p := p) (motive := fun moves q => p.Orderly moves →
    q.connection.phase.isPurged = true → q.connection.outbound = []) ?_ ?_ hrun horderly hpurged
  · obtain rfl := eq_of_open? hopen
    exact fun _ _ => rfl
  · intro moves q m r hmoves ih hstep horderly hpurged
    have hbefore := ih (horderly.of_prefix (List.prefix_append _ _))
    cases m with
    | task now e => exact outbound_of_isPurged (turn_of_handle? hstep) hbefore hpurged
    | call cancelled c =>
      obtain ⟨hphase, -, hrest⟩ := connection_of_step? hstep nofun
      rw [hphase] at hpurged
      -- A command would have to come in the gap, where calls take no steps.
      have hnone : q.leaves? (.call cancelled c) = none := by
        rw [Option.eq_none_iff_forall_ne_some]
        intro xml hleaves
        have hconnected := horderly.isConnected hmoves hleaves
        rw [(announced_run hopen hmoves).1.not_isConnected hpurged
          (horderly.waits moves cancelled c [] q rfl hmoves)] at hconnected
        cases hconnected
      rw [hrest, hbefore hpurged, hnone]
      rfl
    | _ =>
      obtain ⟨hphase, -, hrest⟩ := connection_of_step? hstep nofun
      rw [hphase] at hpurged
      rw [hrest, hbefore hpurged]
      rfl

/-- When a session is over, the commands that wait are forgotten. -/
theorem outbound_of_forgets (hphase : p.connection.phase = .leaving)
    (hstep : p.step? (.task now .proceed) = some p') : p'.connection.outbound = [] := by
  have hturn : Turn now p .proceed p' := turn_of_handle? hstep
  cases hturn with
  | empty => rfl
  | rest hphase' => rcases hphase' with hphase' | hphase' <;> cases hphase.symm.trans hphase'
  | _ => cases hphase.symm.trans ‹_›

/-- **What goes out in a session.** It is what was left since the commands of the session before
    were forgotten, in that order and each as a whole, up to the last one that goes out, which may
    be cut short.  In an `Orderly` run none of it was left before the stream was opened, and all of
    it while the stream was announced. -/
theorem outgoing_run (hopen : open? config = .ok p) (hopens : ∀ m ∈ since, m.opens = false)
    (hrun : p.run? (before ++ .task now .accepted :: since) = some q) :
    ∃ r, p.run? (before ++ [.task now .accepted]) = some r ∧
      Outgoing (r.connection.outbound ++ r.left since) q.connection.sent ∧
      (∀ earlier time later s s', before = earlier ++ .task time .proceed :: later →
        p.run? earlier = some s → s.connection.phase = .leaving →
          s.step? (.task time .proceed) = some s' → r.connection.outbound <:+ s'.left later) ∧
      (p.Orderly (before ++ .task now .accepted :: since) → r.connection.outbound = [] ∧
        ∀ earlier m later s xml, before ++ .task now .accepted :: since = earlier ++ m :: later →
          p.run? earlier = some s → s.leaves? m = some xml → s.status.isConnected = true) := by
  rw [run?_append] at hrun
  obtain ⟨t, ht, hrun⟩ := Option.bind_eq_some_iff.1 hrun
  rw [run?_cons] at hrun
  obtain ⟨r, hstep, hsince⟩ := Option.bind_eq_some_iff.1 hrun
  have haccept : Turn now t .accepted r := turn_of_handle? hstep
  have hr : p.run? (before ++ [.task now .accepted]) = some r := by
    rw [run?_concat, ht]
    exact hstep
  -- The session begins with nothing sent, and with the commands that wait.
  obtain ⟨hphase, hbegins, hrest⟩ : t.connection.phase = .dialing ∧
      Sends r.connection.outbound r.connection ∧
        r.connection.outbound = t.connection.outbound := by
    cases haccept with
    | accept hphase => exact ⟨hphase, .greeting rfl rfl rfl, rfl⟩
  refine ⟨r, hr, (hbegins.run hopens hsince).outgoing, ?_, fun horderly => ⟨?_, ?_⟩⟩
  · rintro earlier time later s s' rfl hs hleaving hforgets
    rw [run?_append, hs, Option.bind_some, run?_cons, hforgets, Option.bind_some] at ht
    have hlater := outbound_run ht
    rw [outbound_of_forgets hleaving hforgets, List.nil_append] at hlater
    exact hrest ▸ hlater
  · rw [hrest]
    exact outbound_of_orderly hopen ht (horderly.of_prefix (List.prefix_append _ _))
      (by rw [hphase]; rfl)
  · intro earlier m later s xml hmoves hs hleaves
    refine Orderly.isConnected (horderly.of_prefix ?_) hs hleaves
    exact ⟨later, by rw [hmoves, List.append_assoc]; rfl⟩

/-- A stream is opened and breaks.  Its commands are forgotten, and a command is left before the
    end of the session is announced; then the server takes another call. -/
def lateRun : List Move :=
  [.task 0 .proceed, .task 0 .accepted, .task 0 .broken, .task 0 .proceed,
    .call false (.sendCommand "<late/>"), .call false (.send "<late/>" true),
    .task 0 .proceed, .task 0 .proceed, .task 3000 .elapsed, .task 3000 .proceed,
    .task 3000 .accepted, .task 3000 .proceed, .task 3000 .command]

/-- Without `Orderly`, a command may go out in a later session than the one that it was left for:
    that of `lateRun` does. -/
theorem late_run : ∃ q, run? { hub := { maxPasses := 16 } } lateRun = some q ∧
    q.connection.session = 2 ∧
    q.connection.sent = [requestProperties none, "<late/>"] := ⟨_, rfl, rfl, rfl⟩

end Between

end Panel

end Observatory
