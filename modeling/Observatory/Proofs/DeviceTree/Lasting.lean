import Observatory.Proofs.DeviceTree.Writing

/-!
# What the writes of a device tree leave alone

A message is written by many changes of the store, some of which may be refused.  A property of
stores that survives every single change beneath the devices survives all of them, whatever
becomes of the writes.

* `Store.Lasting`: a property that does not depend on ticks and on numbers that are drawn;
* `Store.Survives`: a property that a change beneath a path does not break;
* `Message.Puts`, `TreeWriter.survives_puts`: the single values that a message puts;
* `TreeWriter.survives_project`, `TreeWriter.survives_apply`: what a message leaves alone;
* `Store.survives_valid`: stores stay valid;
* `Store.survives_beside`: what stands beside the path stays as it is;
* `Store.survives_holds`: what an open path leads to, whatever is written elsewhere.
-/

namespace Observatory

namespace Store

/-! ### Properties that last -/

/-- A property of stores that neither ticks nor the numbers that others draw can break. -/
structure Lasting (I : Store → Prop) : Prop where
  closeTick : ∀ {s}, I s → I s.closeTick
  endTick : ∀ {s}, I s → I s.endTick.2
  draw : ∀ {s}, I s → I s.draw.2

/-- A property of stores that no write at or beneath `path` can break, whether it is done or
    refused. -/
structure Survives (I : Store → Prop) (path : List String) : Prop where
  put : ∀ {s} rest {v : Json}, v.Proper → I s → I (s.put (path ++ rest) v).2
  drop : ∀ {s} rest, I s → I (s.drop (path ++ rest)).2

/-- Two properties that last, last together. -/
theorem Lasting.and {I J : Store → Prop} (hI : Lasting I) (hJ : Lasting J) :
    Lasting fun s => I s ∧ J s where
  closeTick := fun h => ⟨hI.closeTick h.1, hJ.closeTick h.2⟩
  endTick := fun h => ⟨hI.endTick h.1, hJ.endTick h.2⟩
  draw := fun h => ⟨hI.draw h.1, hJ.draw h.2⟩

theorem lasting_valid : Lasting Valid where
  closeTick := fun h => (later_closeTick h).valid
  endTick := fun h => (later_endTick h).valid
  draw := fun h => (later_draw h).valid

/-- A property of the tree alone lasts. -/
theorem lasting_root (P : Node → Prop) : Lasting fun s => P s.root where
  closeTick := fun h => h
  endTick := fun h => h
  draw := fun h => h

end Store

namespace Written

variable {I : Store → Prop}

/-- A property survives two writes one after the other, also when the first is refused. -/
theorem survives_andThen {w : Written} (hw : I w.2) {f : Store → Written}
    (hf : ∀ {s}, I s → I (f s).2) : I (w.andThen f).2 := by
  obtain ⟨result, s⟩ := w
  cases result with
  | ok _ => exact hf hw
  | error e => exact hw

/-- A property survives a series of writes, also when one of them is refused. -/
theorem survives_each {α : Type} {f : α → Store → Written} {as : List α}
    (hf : ∀ a ∈ as, ∀ {s}, I s → I (f a s).2) {s : Store} (hs : I s) : I (each f as s).2 := by
  induction as generalizing s with
  | nil => exact hs
  | cons a as ih =>
    obtain ⟨ha, has⟩ := List.forall_mem_cons.1 hf
    exact survives_andThen (ha hs) fun h => ih has h

end Written

/-! ### Messages -/

/-- `m.Puts device name rest v`: the message `m` may put the value `v` at the path `rest` beneath
    the vector `name` of `device`.  A definition puts the whole vector; an update puts fields,
    values of members and a revision. -/
inductive Message.Puts : Message → String → String → List String → Json → Prop
  | define (d : Definition) (revision : Nat) :
    Puts (.define d) d.device d.name [] (TreeWriter.vectorObject d revision)
  | field (u : Update) (p : String × Json) (hp : p ∈ TreeWriter.updateFields u) :
    Puts (.update u) u.device u.name [p.1] p.2
  | member (u : Update) (member : Member) :
    Puts (.update u) u.device u.name [Layout.membersKey, member.name, Layout.valueKey]
      (.str member.value)
  | revise (u : Update) (revision : Nat) :
    Puts (.update u) u.device u.name [Layout.revisionKey] (.nat revision)

namespace TreeWriter

section Messages

variable {I : Store → Prop} {l : Layout} {s : Store}

/-- What a message writes about devices is what it puts, one thing after the other, and what a
    deletion takes away.  So a property of stores that survives each of these survives
    `project l m`, also when a write in the middle is refused. -/
theorem survives_puts {m : Message} (hlast : Store.Lasting I)
    (hput : ∀ device name rest v, m.Puts device name rest v →
      ∀ s, I s → I (s.put (l.vector device name ++ rest) v).2)
    (hdelete : ∀ d, m = .delete d → ∀ s, I s → I (delete l d s).2) (hs : I s) :
    I (project l m s).2 := by
  cases m with
  | define d =>
    have hwhole := hput _ _ _ _ (.define d s.draw.1) s.draw.2 (hlast.draw hs)
    rw [List.append_nil] at hwhole
    exact hwhole
  | update u =>
    rw [project, update]
    split
    · -- First the fields, then the members that are there, and last the revision.
      refine Written.survives_andThen (Written.survives_andThen ?_ fun hs => ?_) fun hs => ?_
      · exact Written.survives_each (fun p hp s hs => hput _ _ _ _ (.field u p hp) s hs) hs
      · refine Written.survives_each (fun member _ s hs => ?_) hs
        rw [updateMember]
        split
        · rw [Layout.member, List.append_assoc]
          exact hput _ _ _ _ (.member u member) s hs
        · exact hs
      · exact hput _ _ _ _ (.revise u _) _ (hlast.draw hs)
    · exact hs
  | delete d => exact hdelete d rfl s hs
  | notice n => exact hs

/-- A property that survives the state and the revision that `markBusy` puts, survives the mark. -/
theorem survives_mark {device name : String} (hlast : Store.Lasting I)
    (hstate : ∀ s, I s → I (s.put (l.vector device name ++ [Layout.stateKey])
      (.str VectorState.busy.name)).2)
    (hrevision : ∀ revision s, I s → I (s.put (l.vector device name ++ [Layout.revisionKey])
      (.nat revision)).2) (hs : I s) : I (markBusy l device name s).2 := by
  rw [markBusy]
  split
  · exact Written.survives_andThen (hstate s hs) fun hs => hrevision _ _ (hlast.draw hs)
  · exact hs

/-- What survives writes beneath the devices survives a definition with room for its member
    names. -/
theorem survives_define (hlast : Store.Lasting I) (hpath : Store.Survives I l.treePath)
    {d : Definition} (hd : d.members.length ≤ ArrayIndex.limit) (hs : I s) :
    I (define l d s).2 :=
  hpath.put _ (firm_vectorObject hd _).proper (hlast.draw hs)

/-- What survives writes beneath the devices survives every update, as all that an update puts is
    proper. -/
theorem survives_update (hlast : Store.Lasting I) (hpath : Store.Survives I l.treePath)
    (u : Update) (hs : I s) : I (update l u s).2 := by
  refine survives_puts (m := .update u) hlast (fun device name rest v hputs s hs => ?_) nofun hs
  have hproper : v.Proper := by
    cases hputs with
    | field u p hp => exact (firm_updateFields u p hp).2.proper
    | member u member => exact (Json.firm_str _).proper
    | revise u revision => exact (Json.firm_nat _).proper
  rw [Layout.vector, List.append_assoc]
  exact hpath.put _ hproper hs

/-- What survives writes beneath the devices survives every deletion. -/
theorem survives_delete (hpath : Store.Survives I l.treePath) (d : Deletion) (hs : I s) :
    I (delete l d s).2 := by
  rw [delete]
  split
  · exact hpath.drop _ hs
  · exact hpath.drop _ hs

/-- What survives writes beneath the devices survives all that a message says about devices. -/
theorem survives_project (hlast : Store.Lasting I) (hpath : Store.Survives I l.treePath)
    {m : Message} (hdefine : ∀ d, m = .define d → ∀ {s}, I s → I (define l d s).2) (hs : I s) :
    I (project l m s).2 := by
  cases m with
  | define d => exact hdefine d rfl hs
  | update u => exact survives_update hlast hpath u hs
  | delete d => exact survives_delete hpath d hs
  | notice n => exact hs

/-- What survives the dropping of entries survives `trim`. -/
theorem survives_trim (hdrop : ∀ uid {s}, I s → I (s.drop (l.logEntry uid)).2) (uids : List Nat)
    (hs : I s) : I (trim l uids s).2.2 := by
  induction uids generalizing s with
  | nil => exact hs
  | cons uid uids ih =>
    have hdropped := hdrop uid hs
    rw [trim]
    split
    · exact hs
    · generalize s.drop (l.logEntry uid) = w at hdropped
      obtain ⟨result, s'⟩ := w
      cases result with
      | ok _ => exact ih hdropped
      | error e => exact hdropped

/-- What survives the new entry and the dropping of entries survives `appendLog`. -/
theorem survives_appendLog {w : TreeWriter} {device timestamp : Option String} {words : String}
    (hput : I (s.put (w.layout.logEntry w.nextUid) (logObject device timestamp words)).2)
    (hdrop : ∀ uid {s}, I s → I (s.drop (w.layout.logEntry uid)).2) :
    I (w.appendLog device timestamp words s).2.2 := by
  rw [appendLog]
  dsimp only
  generalize s.put (w.layout.logEntry w.nextUid) _ = r at hput
  obtain ⟨result, s'⟩ := r
  cases result with
  | ok _ => exact survives_trim hdrop _ hput
  | error e => exact hput

theorem layout_appendLog (w : TreeWriter) (device timestamp : Option String) (words : String)
    (s : Store) : (w.appendLog device timestamp words s).1.layout = w.layout := by
  rw [appendLog]
  dsimp only
  split <;> rfl

/-- A message does not change the layout. -/
theorem layout_apply (w : TreeWriter) (m : Message) (s : Store) :
    (w.apply m s).1.layout = w.layout := by
  rw [apply]
  split
  · rfl
  · exact layout_appendLog w _ _ _ s

/-- **Messages.** What survives writes beneath the devices and beneath the log survives every
    message. -/
theorem survives_apply (hlast : Store.Lasting I) (hpath : Store.Survives I l.treePath)
    (hlog : Store.Survives I l.messagesPath) {w : TreeWriter} (hw : w.layout = l) {m : Message}
    (hdefine : ∀ d, m = .define d → ∀ {s}, I s → I (define l d s).2) (hs : I s) :
    I (w.apply m s).2.2 := by
  subst hw
  rw [apply]
  split
  · exact survives_project hlast hpath hdefine hs
  · have hlayout := layout_appendLog w m.device? m.timestamp? ‹String› s
    have hput := hlog.put (s := s) [Layout.entriesKey, toString w.nextUid]
      (firm_logObject m.device? m.timestamp? ‹String›).proper hs
    refine Written.survives_andThen (survives_appendLog hput fun uid _ h => hlog.drop _ h)
      fun h => ?_
    rw [hlayout]
    exact survives_project hlast hpath hdefine h

end Messages

end TreeWriter

/-! ### Beneath a path -/

namespace Json

variable {path rest : List String} {o : Option Json} {t t' v : Json}

/-- What is put beneath an open path replaces the value at the end of that path. -/
theorem alter_of_put (h : OpenIn path o)
    (hput : put v (path ++ rest) (o.getD emptyObject) = .ok t') :
    ∃ u, Json.alter (fun _ => some u) path o = some t' := by
  induction path generalizing o t' with
  | nil => exact ⟨t', rfl⟩
  | cons key path ih =>
    obtain ⟨hobj, hrest⟩ := openIn_cons.1 h
    obtain ⟨u, hu, hw⟩ := put_eq_ok hput
    have hpart : (o.getD emptyObject).partOrNew key =
        (o.bind fun t => t.part? key).getD emptyObject := by
      cases o <;> rfl
    -- Where nothing was, `put` goes on in an empty object, and so does `alter`.
    obtain ⟨x, hx⟩ := ih hrest (hpart ▸ hu)
    refine ⟨x, ?_⟩
    rw [Json.alter, hx]
    cases o with
    | none => exact congrArg Except.toOption hw
    | some t =>
      obtain ⟨fields, rfl⟩ := hobj t rfl
      exact congrArg Except.toOption hw

/-- What is cut beneath an open path replaces the value at the end of that path, or takes it
    away. -/
theorem alter_of_cut (h : Open path t) (hcut : cut (path ++ rest) t = .ok t') :
    ∃ x, Json.alter (fun _ => x) path (some t) = some t' := by
  induction path generalizing t t' with
  | nil => exact ⟨some t', rfl⟩
  | cons key path ih =>
    obtain ⟨fields, rfl, hrest⟩ := h
    rw [List.cons_append, cut] at hcut
    cases hc : (obj fields).part? key with
    | none =>
      rw [hc] at hcut
      refine ⟨none, ?_⟩
      rw [Json.alter, Option.bind_some, hc, alter_none]
      exact congrArg Except.toOption hcut
    | some c =>
      rw [hc] at hcut
      dsimp only at hcut
      -- The cut ends at this child, or goes on beneath it.
      split at hcut
      · next hempty =>
        obtain ⟨rfl, -⟩ := List.append_eq_nil_iff.1 (List.isEmpty_iff.1 hempty)
        exact ⟨none, congrArg Except.toOption hcut⟩
      · cases hu : cut (path ++ rest) c with
        | error e =>
          rw [hu] at hcut
          cases hcut
        | ok u =>
          rw [hu] at hcut
          obtain ⟨x, hx⟩ := ih (hrest c hc) hu
          refine ⟨x, ?_⟩
          rw [Json.alter, Option.bind_some, hc, hx]
          exact congrArg Except.toOption hcut

end Json

namespace Store

variable {s s' : Store} {path q : List String} {v : Json}

/-- `Valid` survives writes everywhere. -/
theorem survives_valid (path : List String) : Survives Valid path where
  put := fun _ v hv hs => (later_set hs _ ⟨v, hv⟩).valid
  drop := fun _ hs => (later_remove hs _).valid

/-- A valid store in which the paths `path` and `q` are open, and `o` is what `q` leads to. -/
structure Beside (path q : List String) (o : Option Json) (s : Store) : Prop where
  valid : s.Valid
  open_path : Json.Open path s.value
  open_beside : Json.Open q s.value
  reads : s.get? q = o

/-- A change at the end of `path` does not reach `q`, if neither is a prefix of the other. -/
theorem Beside.alter {o x : Option Json} (h : Beside path q o s) (hp : ¬ path <+: q)
    (hq : ¬ q <+: path) (hs' : s'.Valid)
    (hvalue : s'.value = s.value ∨
      Json.alter (fun _ => x) path (some s.value) = some s'.value) : Beside path q o s' := by
  rcases hvalue with hsame | halter
  · refine ⟨hs', hsame ▸ h.open_path, hsame ▸ h.open_beside, ?_⟩
    rw [← h.reads, get?_eq, get?_eq, hsame]
  · have hpath : Json.OpenIn path (some s.value) := fun t ht => Option.some.inj ht ▸ h.open_path
    have hbeside : Json.OpenIn q (some s.value) := fun t ht => Option.some.inj ht ▸ h.open_beside
    refine ⟨hs', ?_, ?_, ?_⟩
    · exact hpath.alter hpath (fun _ => rfl) _ halter
    · exact hpath.alter hbeside (fun hpre => absurd hpre hp) _ halter
    · -- Reading along `q` leaves the path of the change before its end.
      have hread := Json.read_alter_beside (f := fun _ => x) hpath hp hq
      rw [halter] at hread
      rw [← h.reads, get?_eq, get?_eq]
      exact hread

theorem lasting_beside (path q : List String) (o : Option Json) : Lasting (Beside path q o) where
  closeTick := fun h => ⟨lasting_valid.closeTick h.valid, h.open_path, h.open_beside, h.reads⟩
  endTick := fun h => ⟨lasting_valid.endTick h.valid, h.open_path, h.open_beside, h.reads⟩
  draw := fun h => ⟨lasting_valid.draw h.valid, h.open_path, h.open_beside, h.reads⟩

/-- What `q` leads to survives writes beneath an open path that forks from it. -/
theorem survives_beside (hp : ¬ path <+: q) (hq : ¬ q <+: path) (o : Option Json) :
    Survives (Beside path q o) path where
  put := by
    intro s rest v hv h
    have hvalid := (survives_valid path).put rest hv h.valid
    -- A write that is refused leaves the value, and any other is one at the end of the path.
    cases hset : (s.set (path ++ rest) v).1 with
    | error e => exact h.alter (x := none) hp hq hvalid (.inl (value_set_error (v := ⟨v, hv⟩) hset))
    | ok b =>
      obtain ⟨u, -, hput⟩ := h.valid.put_of_set (v := ⟨v, hv⟩) hset
      obtain ⟨x, hx⟩ := Json.alter_of_put (o := some s.value)
        (fun t ht => Option.some.inj ht ▸ h.open_path) hput
      exact h.alter hp hq hvalid (.inr hx)
  drop := by
    intro s rest h
    have hvalid := (survives_valid path).drop rest h.valid
    have hcut := h.valid.plain_remove (path ++ rest)
    cases hremove : (s.remove (path ++ rest)).1 with
    | error e => exact h.alter (x := none) hp hq hvalid (.inl (value_remove_error hremove))
    | ok b =>
      rw [plain, hremove] at hcut
      obtain ⟨x, hx⟩ := Json.alter_of_cut h.open_path hcut.symm
      exact h.alter hp hq hvalid (.inr hx)

end Store

/-! ### Elsewhere -/

namespace Json

variable {path q : List String} {t : Json}

/-- Two paths of which neither is a prefix of the other part at some keys behind a common stem. -/
theorem exists_fork (hp : ¬ path <+: q) (hq : ¬ q <+: path) :
    ∃ stem key rest k rest', path = stem ++ key :: rest ∧ q = stem ++ k :: rest' ∧ key ≠ k := by
  induction path generalizing q with
  | nil => exact absurd List.nil_prefix hp
  | cons key path ih =>
    cases q with
    | nil => exact absurd List.nil_prefix hq
    | cons k q =>
      by_cases hk : key = k
      · subst hk
        rw [List.cons_prefix_cons] at hp hq
        obtain ⟨stem, key', rest, k', rest', rfl, rfl, hne⟩ :=
          ih (fun h => hp ⟨rfl, h⟩) fun h => hq ⟨rfl, h⟩
        exact ⟨key :: stem, key', rest, k', rest', rfl, rfl, hne⟩
      · exact ⟨[], key, path, k, q, rfl, rfl, hk⟩

/-- Where an open path takes one key of a node, any other key can be taken. -/
theorem Open.fork {stem rest : List String} {k : String} (h : Open (stem ++ k :: rest) t)
    (key : String) : Open (stem ++ [key]) t := by
  have hopen : OpenIn (stem ++ k :: rest) (some t) := fun u hu => Option.some.inj hu ▸ h
  obtain ⟨hstem, hrest⟩ := openIn_append.1 hopen
  have hkey : OpenIn [key] (read stem (some t)) :=
    openIn_cons.2 ⟨(openIn_cons.1 hrest).1, fun u _ => (trivial : Open [] u)⟩
  exact openIn_append.2 ⟨hstem, hkey⟩ t rfl

end Json

namespace Store

variable {path q : List String}

/-- A valid store in which the path `q` is open, and `o` is what it leads to. -/
structure Holds (q : List String) (o : Option Json) (s : Store) : Prop where
  valid : s.Valid
  open_path : Json.Open q s.value
  reads : s.get? q = o

/-- **What an open path leads to survives writes beneath any path that forks from it**, open or
    not: only what is beneath the key that leads away can change. -/
theorem survives_holds (hp : ¬ path <+: q) (hq : ¬ q <+: path) (o : Option Json) :
    Survives (Holds q o) path := by
  obtain ⟨stem, key, rest, k, rest', rfl, rfl, hne⟩ := Json.exists_fork hp hq
  -- The paths part at `key` and `k`; what is written beneath one of them stays beneath it.
  have hbeside : Survives (Beside (stem ++ [key]) (stem ++ k :: rest') o) (stem ++ [key]) := by
    refine survives_beside (fun h => hne ?_) (fun h => hne ?_) o
    · exact (List.cons_prefix_cons.1 ((List.prefix_append_right_inj stem).1 h)).1
    · exact (List.cons_prefix_cons.1 ((List.prefix_append_right_inj stem).1 h)).1.symm
  have hpath : ∀ more, (stem ++ key :: rest) ++ more = (stem ++ [key]) ++ (rest ++ more) := by
    simp
  have hfork : ∀ {s}, Holds (stem ++ k :: rest') o s →
      Beside (stem ++ [key]) (stem ++ k :: rest') o s := fun h =>
    ⟨h.valid, h.open_path.fork key, h.open_path, h.reads⟩
  refine ⟨fun more v hv h => ?_, fun more h => ?_⟩
  · have hput := hbeside.put (rest ++ more) hv (hfork h)
    rw [hpath]
    exact ⟨hput.valid, hput.open_beside, hput.reads⟩
  · have hdrop := hbeside.drop (rest ++ more) (hfork h)
    rw [hpath]
    exact ⟨hdrop.valid, hdrop.open_beside, hdrop.reads⟩

end Store

end Observatory
