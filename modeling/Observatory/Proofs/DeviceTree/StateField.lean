import Observatory.Proofs.DeviceTree.Readback

/-!
# Who says what state a vector is in

The state of a vector is one text at the end of one path.  Everything that a writer writes is
written along some path as well, and wherever the devices and the messages lie, only two things
are written at or above the state of a vector: messages about that vector, and its mark.  Only
lists could lead two spellings of a path to one place, and no list stands on the way.

* `Json.Says`, `Node.Says`: the text at the end of a path, where no list stands on the way;
* `Node.Change.says_put`: a change along another path;
* `Layout.state`: the path of the state of a vector;
* `Message.Concerns`: messages about a vector;
* `TreeWriter.says_apply`, `says_clear`, `says_markBusy`: what is said of the state of a vector
  after each thing that is written.
-/

namespace Observatory

/-! ### Texts at the end of a path -/

/-- No array stands on the way along the path, and the text at its end, if there is one, satisfies
    `P`. -/
def Json.Says (P : String → Prop) : List String → Json → Prop
  | [], v => ∀ text, v.asText? = some text → P text
  | key :: rest, v => (∀ items, v ≠ .arr items) ∧ ∀ u, v.part? key = some u → Json.Says P rest u

namespace Node

/-- No list stands on the way along a path, and a text at its end fulfils a condition. -/
def Says (P : String → Prop) : List String → Node → Prop
  | [], n => ∀ text, n.asScalar? = some (.str text) → P text
  | key :: rest, n => n.isArray = false ∧ ∀ c, n.child? key = some c → Says P rest c

/-- No array stands on the way along the path. -/
abbrev Straight (path : List String) (n : Node) : Prop := n.Says (fun _ => True) path

section Says

variable {P Q : String → Prop} {serial : Nat} {path rest : List String} {n m : Node} {v : Json}

theorem Says.mono (h : n.Says P path) (hPQ : ∀ text, P text → Q text) : n.Says Q path := by
  induction path generalizing n with
  | nil => exact fun text htext => hPQ text (h text htext)
  | cons key path ih => exact ⟨h.1, fun c hc => ih (h.2 c hc)⟩

theorem Says.straight (h : n.Says P path) : n.Straight path := h.mono fun _ _ => trivial

/-- `Says` along a path and what goes on behind it: no array on the first part, and `Says` from its
    end on. -/
theorem says_append : n.Says P (path ++ rest) ↔
    n.Straight path ∧ ∀ m, n.descendant? path = some m → m.Says P rest := by
  induction path generalizing n with
  | nil =>
    refine ⟨fun h => ⟨fun _ _ => trivial, fun m hm => Option.some.inj hm ▸ h⟩, fun h => ?_⟩
    exact h.2 n rfl
  -- Both sides look at the node here, that it is no array, and at the child on the way.
  | cons key path ih =>
    constructor
    · rintro ⟨harray, hparts⟩
      refine ⟨⟨harray, fun c hc => (ih.1 (hparts c hc)).1⟩, fun m hm => ?_⟩
      obtain ⟨c, hc, hm⟩ := Option.bind_eq_some_iff.1 hm
      exact (ih.1 (hparts c hc)).2 m hm
    · rintro ⟨⟨harray, hparts⟩, hbelow⟩
      refine ⟨harray, fun c hc => ih.2 ⟨hparts c hc, fun m hm => hbelow m ?_⟩⟩
      rw [descendant?, hc]
      exact hm

/-- The text at the end of the path satisfies `P`. -/
theorem Says.text (h : n.Says P path) {text : String} (hm : n.descendant? path = some m)
    (htext : m.asScalar? = some (.str text)) : P text := by
  rw [← List.append_nil path, says_append] at h
  exact h.2 m hm text htext

/-- An empty object `Says` everything, as nothing is at the end of a path through it. -/
theorem says_object_nil (P : String → Prop) (s : Stamp) (path : List String) :
    (object s []).Says P path := by
  cases path with
  | nil => exact nofun
  | cons key rest => exact ⟨rfl, nofun⟩

/-- A node that was given an object has children for its fields only, each given the value of the
    field. -/
theorem given_obj (serial : Nat) (old : Option Node) (fields : List (String × Json)) :
    ∃ s next, given serial old (.obj fields) = object s next ∧
      ∀ key c, Dict.get? next key = some c →
        ∃ o u, Dict.get? fields key = some u ∧ c = given serial o u := by
  -- Where there was no object before, the node is built, and its children with it.
  have hbuild : ∃ s next, build serial (.obj fields) = object s next ∧
      ∀ key c, Dict.get? next key = some c →
        ∃ o u, Dict.get? fields key = some u ∧ c = given serial o u := by
    refine ⟨_, _, rfl, fun key c hc => ?_⟩
    rw [buildFields_eq, Dict.get?_mapValues] at hc
    obtain ⟨u, hu, rfl⟩ := Option.map_eq_some_iff.1 hc
    exact ⟨none, u, hu, rfl⟩
  cases old with
  | none => exact hbuild
  | some n =>
    cases n with
    | scalar s a => exact hbuild
    | array s items => exact hbuild
    | object s children =>
      obtain ⟨s', next, hgiven, -, hnext⟩ := given_object serial s children fields
      refine ⟨s', next, hgiven, fun key c hc => ?_⟩
      rw [hnext] at hc
      obtain ⟨u, hu, rfl⟩ := Option.map_eq_some_iff.1 hc
      exact ⟨_, u, hu, rfl⟩

/-- A node that was given a scalar is that scalar, or one that is equal to it. -/
theorem given_scalar (serial : Nat) (old : Option Node) (a : Scalar) :
    ∃ s b, given serial old (.scalar a) = scalar s b ∧ (b = a ∨ b.same a = true) := by
  cases old with
  | none => exact ⟨_, a, rfl, .inl rfl⟩
  | some n =>
    cases n with
    | object s children => exact ⟨_, a, rfl, .inl rfl⟩
    | array s items => exact ⟨_, a, rfl, .inl rfl⟩
    | scalar s b =>
      rw [given, assign]
      split
      · next hsame => exact ⟨s, b, rfl, .inr hsame⟩
      · exact ⟨_, a, rfl, .inl rfl⟩

/-- A node that was given an array is one. -/
theorem given_arr (serial : Nat) (old : Option Node) (values : List Json) :
    (given serial old (.arr values)).isArray = true := by
  cases old with
  | none => rfl
  | some n =>
    cases n with
    | scalar s a => rfl
    | object s children => rfl
    | array s items =>
      obtain ⟨s', next, hgiven, -⟩ := given_array serial s items values
      rw [hgiven]
      rfl

/-- The text of a node that was given a value is the text of the value. -/
theorem asText?_of_given {old : Option Node} {text : String}
    (h : (given serial old v).asScalar? = some (.str text)) : v.asText? = some text := by
  -- Only a value that is a scalar can have given the node a text.
  cases v with
  | scalar a =>
    obtain ⟨s, b, hgiven, hb⟩ := given_scalar serial old a
    rw [hgiven] at h
    obtain rfl := Option.some.inj h
    rcases hb with rfl | hsame
    · rfl
    · rw [Scalar.same.eq_def] at hsame
      split at hsame
      · contradiction
      · rw [← of_decide_eq_true hsame]
        rfl
  | arr items =>
    have harray := given_arr serial old items
    generalize given serial old (.arr items) = n at h harray
    cases n with
    | scalar s a => cases harray
    | object s children | array s items => cases h
  | obj fields =>
    obtain ⟨s, next, hgiven, -⟩ := given_obj serial old fields
    rw [hgiven] at h
    cases h

/-- A node that was given a text is that text. -/
theorem asScalar?_given_str (serial : Nat) (old : Option Node) (text : String) :
    (given serial old (.str text)).asScalar? = some (.str text) := by
  obtain ⟨s, b, hgiven, hb⟩ := given_scalar serial old (.str text)
  rw [hgiven]
  rcases hb with rfl | hsame
  · rfl
  · have heq : Json.scalar b = .str text := (Json.firm_str text).eq_of_same _ hsame
    rw [(Json.scalar.inj heq)]
    rfl

/-- `Says` goes over from a value to a node that was given it. -/
theorem says_given (h : v.Says P path) (serial : Nat) (old : Option Node) :
    (given serial old v).Says P path := by
  -- Along the path, with the old node left open, because a child may have been there or not.
  induction path generalizing v old with
  | nil => exact fun text htext => h text (asText?_of_given htext)
  | cons key rest ih =>
    cases v with
    | scalar a =>
      obtain ⟨s, b, hgiven, -⟩ := given_scalar serial old a
      rw [hgiven]
      exact ⟨rfl, nofun⟩
    | arr items => exact absurd rfl (h.1 items)
    | obj fields =>
      obtain ⟨s, next, hgiven, hnext⟩ := given_obj serial old fields
      rw [hgiven]
      refine ⟨rfl, fun c hc => ?_⟩
      obtain ⟨o, u, hu, rfl⟩ := hnext key c hc
      exact ih (h.2 u hu) o

namespace Change

variable {c : Change} {o : Option Node} {key : String} {a : Scalar}

/-- A scalar above the place of a change was there before the change. -/
theorem asScalar?_of_put (hm : c.put serial (key :: rest) o = some m)
    (ha : m.asScalar? = some a) : ∃ n, o = some n ∧ n.asScalar? = some a := by
  cases o with
  | none =>
    cases c with
    | set v =>
      obtain rfl := Option.some.inj hm
      cases ha
    | remove | touch => cases hm
  | some n =>
    have hstays : c.takesAway (key :: rest) = false := by cases c <;> rfl
    rw [put_some c hstays] at hm
    obtain rfl := Option.some.inj hm
    refine ⟨n, rfl, ?_⟩
    -- A change below makes an object of whatever it meets, or leaves it alone.
    cases n with
    | scalar s b =>
      rw [apply_scalar] at ha
      cases c with
      | set v => cases ha
      | remove | touch => exact ha
    | object s children =>
      obtain ⟨s', next, happly, -⟩ := c.apply_object serial key rest s children
      rw [happly] at ha
      cases ha
    | array s items =>
      cases ht : c.takesAway rest with
      | false =>
        obtain ⟨s', -, happly⟩ := apply_array serial key ht s items
        rw [happly] at ha
        cases ha
      | true =>
        obtain ⟨rfl, rfl⟩ := eq_remove_of_takesAway ht
        rw [apply_remove_item] at ha
        split at ha <;> cases ha

/-- A node as a change beneath the key `key` leaves it: no array, with what the change left under
    that key, and with what was there before under every other one. -/
structure Leaves (c : Change) (serial : Nat) (key : String) (rest : List String) (o : Option Node)
    (m : Node) : Prop where
  flat : m.isArray = false
  parts : ∀ k part, m.child? k = some part →
    (key = k ∧ ∃ o', c.put serial rest o' = some part ∧
      ∀ n, o' = some n → ∃ n', o = some n' ∧ n'.child? key = some n) ∨
    (key ≠ k ∧ ∃ n, o = some n ∧ n.child? k = some part)

/-- `put` beneath a key leaves `Leaves`, where no array stood. -/
theorem leaves_put (hflat : ∀ n, o = some n → n.isArray = false)
    (hm : c.put serial (key :: rest) o = some m) : c.Leaves serial key rest o m := by
  -- Where nothing was, or a scalar that is written over, there is the one child that is put.
  have hnew : ∀ m', c.put serial (key :: rest) none = some m' →
      c.Leaves serial key rest o m' := by
    intro m' hm'
    cases c with
    | remove | touch => cases hm'
    | set v =>
      obtain rfl := Option.some.inj hm'
      refine ⟨rfl, fun k part hchild => ?_⟩
      rw [Json.nest, build, buildFields_eq, child?, Dict.get?_mapValues, Dict.get?_cons] at hchild
      split at hchild
      · next hkey =>
        refine .inl ⟨hkey, none, hchild, fun n hn => ?_⟩
        cases hn
      · cases hchild
  cases o with
  | none => exact hnew m hm
  | some n =>
    have hstays : c.takesAway (key :: rest) = false := by cases c <;> rfl
    rw [put_some c hstays] at hm
    obtain rfl := Option.some.inj hm
    cases n with
    | scalar s b =>
      rw [apply_scalar]
      cases hput : c.put serial (key :: rest) none with
      | none =>
        refine ⟨rfl, fun k part hchild => ?_⟩
        cases hchild
      | some m' => exact hnew m' hput
    | object s children =>
      obtain ⟨s', next, happly, -, hnext⟩ := c.apply_object serial key rest s children
      rw [happly]
      refine ⟨rfl, fun k part hchild => ?_⟩
      rw [child?, hnext] at hchild
      split at hchild
      · next hkey => exact .inl ⟨hkey, _, hchild, fun n hn => ⟨_, rfl, hn⟩⟩
      · next hkey => exact .inr ⟨hkey, _, rfl, hchild⟩
    | array s items => cases hflat _ rfl

/-- After a change nothing is said along a path but what was said before, unless the path leads
    to something that was set, which then says what the value does. -/
theorem says_put (hold : ∀ n, o = some n → n.Straight path ∧ (¬ rest <+: path → n.Says P path))
    (hc : c = .remove ∨ ∃ v, c = .set v ∧ ∀ more, path = rest ++ more → v.Says P more)
    (hm : c.put serial rest o = some m) : m.Says P path := by
  -- Along the path of the change and along that of what is said, as far as they go together.
  induction rest generalizing path o m with
  | nil =>
    rcases hc with rfl | ⟨v, rfl, hv⟩
    · cases o <;> cases hm
    · cases o with
      | none =>
        obtain rfl := Option.some.inj hm
        exact says_given (hv path rfl) serial none
      | some n =>
        rw [put_some _ rfl, apply_set_nil] at hm
        obtain rfl := Option.some.inj hm
        exact says_given (hv path rfl) serial (some n)
  | cons key rest ih =>
    cases path with
    | nil =>
      intro text htext
      obtain ⟨n, hn, hbefore⟩ := asScalar?_of_put hm htext
      exact (hold n hn).2 (by simp) text hbefore
    | cons k path =>
      have hleaves := leaves_put (fun n hn => (hold n hn).1.1) hm
      refine ⟨hleaves.flat, fun part hchild => ?_⟩
      rcases hleaves.parts k part hchild with ⟨rfl, o', hput, hbefore⟩ | ⟨hkey, n, hn, hbefore⟩
      · refine ih (fun n hn => ?_) (hc.imp_right ?_) hput
        · obtain ⟨n', hn', hchild⟩ := hbefore n hn
          obtain ⟨hstraight, hsaid⟩ := hold n' hn'
          refine ⟨hstraight.2 n hchild, fun hpre => (hsaid ?_).2 n hchild⟩
          rwa [List.cons_prefix_cons, and_iff_right rfl]
        · rintro ⟨v, hv, hmore⟩
          exact ⟨v, hv, fun more hpath => hmore more (congrArg (key :: ·) hpath)⟩
      · refine ((hold n hn).2 fun hpre => hkey ?_).2 part hbefore
        exact (List.cons_prefix_cons.1 hpre).1

end Change

/-- Setting one field of a node that is no array leaves its other children. -/
theorem child?_field (hflat : n.isArray = false) (serial : Nat) (v : Json) (key k : String) :
    ((Change.set v).apply serial [key] n).child? k =
      if key = k then some (given serial (n.child? key) v) else n.child? k := by
  cases n with
  | scalar s a =>
    rw [Change.apply_scalar]
    rfl
  -- The child was there or comes into being; in both cases it is given the value.
  | object s children =>
    obtain ⟨s', next, happly, -, hnext⟩ := (Change.set v).apply_object serial key [] s children
    rw [happly, child?, hnext]
    refine ite_congr rfl (fun _ => ?_) fun _ => rfl
    cases hc : (object s children).child? key with
    | none =>
      rw [show Dict.get? children key = none from hc]
      rfl
    | some c =>
      rw [show Dict.get? children key = some c from hc, Change.put_some _ rfl,
        Change.apply_set_nil]
  | array s items => cases hflat

end Says

end Node

/-! ### What a store says along a path -/

namespace Store

/-- No list stands on the way along a path, and a text at its end fulfils a condition. -/
def Says (P : String → Prop) (path : List String) (s : Store) : Prop := s.root.Says P path

variable {P : String → Prop} {s : Store} {path p : List String} {v : Json}

/-- The node at the path, and no array on the way to it. -/
def Rests (path : List String) (o : Option Node) (s : Store) : Prop :=
  s.root.Straight path ∧ s.node? path = o

theorem lasting_rests (path : List String) (o : Option Node) : Lasting (Rests path o) :=
  lasting_root fun n => n.Straight path ∧ n.descendant? path = o

/-- `Says` is kept by what keeps all that `Rests` at some place on the way. -/
theorem Says.of_rests {s' : Store} {more : List String} (h : s.Says P (path ++ more))
    (hs' : ∀ o, s.Rests path o → s'.Rests path o) : s'.Says P (path ++ more) := by
  obtain ⟨hstraight, hbelow⟩ := Node.says_append.1 h
  obtain ⟨hstraight', hnode⟩ := hs' _ ⟨hstraight, rfl⟩
  exact Node.says_append.2 ⟨hstraight', fun m hm => hbelow m (hnode.symm.trans hm)⟩

/-- `Says` is kept by a `put` along any path, if nothing stood in the way of the text before, and a
    value that is put at or above it says the same. -/
theorem says_put (hold : s.root.Straight path ∧ (¬ p <+: path → s.Says P path))
    (hv : ∀ more, path = p ++ more → v.Says P more) : (s.put p v).2.Says P path := by
  have hroot : (s.put p v).2.root = (Node.Change.set v).apply s.openTick.1 p s.root :=
    s.root_set p v
  rw [Says, hroot]
  refine Node.Change.says_put (fun n hn => ?_) (.inr ⟨v, rfl, hv⟩)
    (Node.Change.put_some _ rfl s.root)
  exact Option.some.inj hn ▸ hold

/-- A value that is put beneath a node is set in that node. -/
theorem node?_put_append {n : Node} (hn : s.node? path = some n) (rest : List String) (v : Json) :
    (s.put (path ++ rest) v).2.node? path =
      some ((Node.Change.set v).apply s.openTick.1 rest n) := by
  have hroot : (s.put (path ++ rest) v).2.root =
      (Node.Change.set v).apply s.openTick.1 (path ++ rest) s.root := s.root_set _ v
  rw [node?, hroot]
  exact Node.descendant?_apply_append _ v rest hn

/-- `Says` is kept by every `drop`. -/
theorem says_drop (h : s.Says P path) (p : List String) : (s.drop p).2.Says P path := by
  have hroot : (s.drop p).2.root = Node.Change.remove.apply s.openTick.1 p s.root :=
    s.root_remove p
  rw [Says, hroot]
  cases p with
  | nil => exact h
  | cons key rest =>
    refine Node.Change.says_put (fun n hn => ?_) (.inl rfl) (Node.Change.put_some _ rfl s.root)
    exact Option.some.inj hn ▸ ⟨h.straight, fun _ => h⟩

end Store

/-! ### The state of a vector -/

/-- The path of the state of a vector. -/
def Layout.state (l : Layout) (device name : String) : List String :=
  l.vector device name ++ [stateKey]

theorem Layout.state_eq (l : Layout) (device name : String) :
    l.state device name = l.treePath ++ [device, name, stateKey] := by
  rw [state, vector, List.append_assoc]
  rfl

/-- The message defines or updates the vector. -/
def Message.Concerns (device name : String) : Message → Prop
  | .define d => d.device = device ∧ d.name = name
  | .update u => u.device = device ∧ u.name = name
  | .delete _ | .notice _ => False

instance (device name : String) : DecidablePred (Message.Concerns device name)
  | .define d => inferInstanceAs (Decidable (d.device = device ∧ d.name = name))
  | .update u => inferInstanceAs (Decidable (u.device = device ∧ u.name = name))
  | .delete _ | .notice _ => inferInstanceAs (Decidable False)

/-- What is beneath one vector is beneath another only if they are the same. -/
theorem Layout.vector_append_prefix {l : Layout} {device name device' name' : String}
    {rest more : List String}
    (h : l.vector device' name' ++ rest <+: l.vector device name ++ more) :
    device' = device ∧ name' = name ∧ rest <+: more := by
  rw [vector, vector, List.append_assoc, List.append_assoc, List.prefix_append_right_inj] at h
  simpa using h

/-- The text names no state, or the state `busy`. -/
def VectorState.Unsettled (text : String) : Prop :=
  ∀ state, ofName? text = some state → state = .busy

theorem VectorState.unsettled_busy : Unsettled busy.name := by
  intro state hstate
  rw [ofName?_name] at hstate
  exact (Option.some.inj hstate).symm

section View

variable {P : String → Prop} {l : Layout} {s : Store} {device name : String} {state : VectorState}

/-- The view of a vector depends only on the node at the path of the devices. -/
theorem Layout.view_congr {s' : Store} (h : s'.node? l.treePath = s.node? l.treePath) :
    l.view s' device name = l.view s device name := by
  rw [view, DeviceTree.device, DeviceTree.root?, h]
  rfl

/-- The state in a view is the text at the path of the state. -/
theorem Layout.state?_view (l : Layout) (s : Store) (device name : String) :
    (l.view s device name).state? = ((((s.node? (l.vector device name)).bind fun n =>
      n.child? stateKey).bind Node.asScalar?).bind VectorView.text?).bind VectorState.ofName? := by
  rw [← l.node_view]
  rfl

theorem Layout.state?_view_of_some {n : Node} (hn : s.node? (l.vector device name) = some n) :
    (l.view s device name).state? = (((n.child? stateKey).bind Node.asScalar?).bind
      VectorView.text?).bind VectorState.ofName? := by
  rw [l.state?_view, hn, Option.bind_some]

/-- The state that is seen of a vector is named by a text that satisfies `P`. -/
theorem Store.Says.exists_text (h : s.Says P (l.state device name))
    (hstate : (l.view s device name).state? = some state) :
    ∃ text, VectorState.ofName? text = some state ∧ P text := by
  rw [l.state?_view] at hstate
  obtain ⟨text, htext, hstate⟩ := Option.bind_eq_some_iff.1 hstate
  obtain ⟨a, ha, htext⟩ := Option.bind_eq_some_iff.1 htext
  obtain ⟨c, hc, ha⟩ := Option.bind_eq_some_iff.1 ha
  refine ⟨text, hstate, h.text (m := c) ?_ ?_⟩
  · rw [Layout.state, Node.descendant?_concat]
    exact hc
  · cases a with
    | str x => cases htext; exact ha
    | _ => cases htext

/-- If a vector is seen busy, the text at the path of its state is `Unsettled`. -/
theorem Store.says_of_busy (hstraight : s.root.Straight (l.state device name))
    (hstate : (l.view s device name).state? = some .busy) :
    s.Says VectorState.Unsettled (l.state device name) := by
  obtain ⟨hpath, hvector⟩ := Node.says_append.1 hstraight
  refine Node.says_append.2 ⟨hpath, fun n hn => ⟨(hvector n hn).1, fun c hc text htext => ?_⟩⟩
  rw [l.state?_view_of_some hn, hc, Option.bind_some, htext] at hstate
  intro state hname
  exact Option.some.inj (hname.symm.trans hstate)

/-- If something is said of the state of a vector, no array stands on the way to the devices. -/
theorem Store.Says.straight_tree (h : s.Says P (l.state device name)) :
    s.root.Straight l.treePath := by
  rw [l.state_eq] at h
  exact (Node.says_append.1 h).1

/-- What is said of a state is kept by what leaves the node of the devices as it is. -/
theorem Store.Says.of_rests_tree {s' : Store} (h : s.Says P (l.state device name))
    (hs' : ∀ o, s.Rests l.treePath o → s'.Rests l.treePath o) :
    s'.Says P (l.state device name) := by
  rw [l.state_eq] at h ⊢
  exact h.of_rests hs'

/-- Everything is said of the state of a vector that is not there. -/
theorem Store.says_of_absent (hstraight : s.root.Straight (l.state device name))
    (habsent : s.contains (l.vector device name) = false) : s.Says P (l.state device name) := by
  refine Node.says_append.2 ⟨(Node.says_append.1 hstraight).1, fun n hn => ?_⟩
  rw [Store.contains, Store.node?, hn] at habsent
  cases habsent

end View

namespace TreeWriter

variable {P : String → Prop} {l : Layout} {s : Store} {device name : String}

/-- A write at or beneath some vector keeps what is said of a state, unless the vector is the same
    one and the value says something else. -/
theorem says_putVector (h : s.Says P (l.state device name)) {device' name' : String}
    {rest : List String} {v : Json} (hv : device' = device → name' = name →
      ∀ more, [Layout.stateKey] = rest ++ more → v.Says P more) :
    (s.put (l.vector device' name' ++ rest) v).2.Says P (l.state device name) := by
  refine Store.says_put ⟨h.straight, fun _ => h⟩ fun more hmore => ?_
  obtain ⟨rfl, rfl, -⟩ := Layout.vector_append_prefix ⟨more, hmore.symm⟩
  rw [Layout.state, List.append_assoc, List.append_cancel_left_eq] at hmore
  exact hv rfl rfl more hmore

/-- Of what a message puts in a vector, only a definition or an update says something about the
    state of that vector. -/
theorem says_of_puts {m : Message} {device name : String} {rest more : List String} {v : Json}
    (h : m.Puts device name rest v) (hmore : [Layout.stateKey] = rest ++ more)
    (hm : m.Concerns device name → ∀ text, P text) : v.Says P more := by
  cases h with
  | define d revision =>
    -- The whole vector is put, and its state is whatever the definition says.
    obtain rfl : [Layout.stateKey] = more := hmore
    exact ⟨nofun, fun u _ text _ => hm ⟨rfl, rfl⟩ text⟩
  | field u p hp =>
    obtain rfl : [] = more := (List.cons.inj hmore).2
    exact fun text _ => hm ⟨rfl, rfl⟩ text
  | member u member => exact absurd (List.cons.inj hmore).1 (by decide)
  | revise u revision => exact absurd (List.cons.inj hmore).1 (by decide)

/-- What a message writes about devices changes no state but that of a vector that it
    `Concerns`. -/
theorem says_project (h : s.Says P (l.state device name)) {m : Message}
    (hm : m.Concerns device name → ∀ text, P text) :
    (project l m s).2.Says P (l.state device name) := by
  refine survives_puts (Store.lasting_root fun n => n.Says P (l.state device name))
    (fun device' name' rest v hputs s hs => ?_) (fun d _ s hs => ?_) h
  · refine says_putVector hs fun hdevice hname more hmore => ?_
    exact says_of_puts hputs hmore (hdevice ▸ hname ▸ hm)
  · rw [delete]
    split <;> exact Store.says_drop hs _

/-- An entry of the log says nothing about any state, wherever the log lies. -/
theorem says_logObject (P : String → Prop) (author timestamp : Option String) (words : String)
    {path more : List String} (h : l.state device name = path ++ more) :
    (logObject author timestamp words).Says P more := by
  cases more with
  | nil => exact nofun
  | cons key rest =>
    refine ⟨nofun, fun u hu => ?_⟩
    have hmem := Dict.mem_of_last? ((Dict.get?_ofPairs_eq_last? _ key).symm.trans hu)
    -- The fields of an entry are texts, and none of their keys is that of the state.
    obtain ⟨hkey, text, rfl⟩ : key ≠ Layout.stateKey ∧ ∃ text, u = .str text := by
      rw [List.mem_append, List.mem_append, List.mem_singleton] at hmem
      rcases hmem with (hmem | hmem) | hmem
      · obtain ⟨rfl, htext⟩ := eq_of_mem_optionalField hmem
        exact ⟨by decide, htext⟩
      · obtain ⟨rfl, htext⟩ := eq_of_mem_optionalField hmem
        exact ⟨by decide, htext⟩
      · cases hmem
        exact ⟨by decide, words, rfl⟩
    cases rest with
    | nil =>
      refine absurd ?_ hkey
      exact (List.cons.inj (List.append_inj' h rfl).2).1.symm
    | cons k rest => exact ⟨nofun, nofun⟩

/-- Noting the words of a message changes no state. -/
theorem says_note (h : s.Says P (l.state device name)) (w : TreeWriter) (m : Message) :
    (w.note m s).2.2.Says P (l.state device name) := by
  rw [note]
  split
  · exact h
  · exact survives_appendLog
      (Store.says_put ⟨h.straight, fun _ => h⟩ fun more => says_logObject P _ _ _)
      fun uid _ h => Store.says_drop h _

/-- **Who says what state a vector is in.** A message changes no state but that of a vector that it
    `Concerns`, wherever devices and log lie. -/
theorem says_apply {w : TreeWriter} (h : s.Says P (w.layout.state device name)) {m : Message}
    (hm : m.Concerns device name → ∀ text, P text) :
    (w.apply m s).2.2.Says P (w.layout.state device name) := by
  rw [apply_eq]
  exact Written.survives_andThen (says_note h w m) fun h => says_project h hm

/-- Clearing keeps what is said of a state, as nothing is left to say otherwise. -/
theorem says_clear (h : s.Says P (l.state device name)) :
    (clear l s).2.Says P (l.state device name) := by
  refine Store.says_put ⟨h.straight, fun _ => h⟩ fun more _ => ?_
  cases more with
  | nil => exact nofun
  | cons key rest => exact ⟨nofun, nofun⟩

/-- A mark changes no state but that of its vector, which it makes busy. -/
theorem says_markBusy (h : s.Says P (l.state device name)) (device' name' : String)
    (hbusy : device' = device → name' = name → P VectorState.busy.name) :
    (markBusy l device' name' s).2.Says P (l.state device name) := by
  refine survives_mark (Store.lasting_root fun n => n.Says P (l.state device name))
    (fun s hs => ?_) (fun revision s hs => ?_) h
  · refine says_putVector hs fun hdevice hname more hmore => ?_
    obtain rfl : [] = more := (List.cons.inj hmore).2
    intro text htext
    cases htext
    exact hbusy hdevice hname
  · exact says_putVector hs fun _ _ more hmore => absurd (List.cons.inj hmore).1 (by decide)

/-- A vector that is there and was marked is seen busy. -/
theorem state?_markBusy (hpresent : s.contains (l.vector device name) = true)
    (hok : (markBusy l device name s).1 = .ok ()) :
    (l.view (markBusy l device name s).2 device name).state? = some .busy := by
  obtain ⟨n, hn⟩ := Option.isSome_iff_exists.1 hpresent
  rw [markBusy, if_pos hpresent] at hok ⊢
  have hkey : ArrayIndex.parse? Layout.stateKey = none := by decide
  have hput : (s.put (l.vector device name ++ [Layout.stateKey])
      (.str VectorState.busy.name)).1.isOk = true := by
    generalize s.put (l.vector device name ++ [Layout.stateKey]) _ = w at hok
    obtain ⟨result | _, s'⟩ := w
    · cases hok
    · rfl
  -- The state could be written, so the vector is no array and its fields are its children.
  have hflat : n.isArray = false := by
    rw [isOk_put, Node.isOk_attempt_append hn, Node.isOk_attempt_field hkey] at hput
    simpa using hput
  have hmarked := Store.node?_put_append hn [Layout.stateKey] (.str VectorState.busy.name)
  generalize s.put (l.vector device name ++ [Layout.stateKey]) _ = w at hok hmarked ⊢
  obtain ⟨result | _, s'⟩ := w
  · cases hok
  · have hdrawn : s'.draw.2.node? (l.vector device name) = some _ := hmarked
    have hrevised := Store.node?_put_append hdrawn [Layout.revisionKey] (.nat s'.draw.1)
    refine (l.state?_view_of_some hrevised).trans ?_
    rw [Node.child?_field (Node.isArray_apply_field _ _ _ hflat), if_neg (by decide),
      Node.child?_field hflat, if_pos rfl, Option.bind_some, Node.asScalar?_given_str,
      Option.bind_some, VectorView.text?, Option.bind_some, VectorState.ofName?_name]

end TreeWriter

end Observatory
