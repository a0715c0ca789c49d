import Observatory.Proofs.Watch.Place

/-!
# Listeners come and go

A registration adds one listener at every place of its path, and a removal takes away all
listeners of a token, together with what is left empty.  Neither touches anything else: the
other listeners keep what they have seen.

* `Trigger.enter`, `Trigger.registeredAt`: the data that a branch and a place are registered
  with, which are those that are there if the trie has `Trigger.NoStrays`;
* `Trigger.listeners_place_insert`, `Trigger.proper_insert`: the listeners at a place after one
  came, and that the trie stays proper;
* `Trigger.listeners_place_remove`, `Trigger.proper_remove`: the same after those of a token
  went.
-/

namespace Observatory

namespace Trigger

/-! ### Instances -/

/-- Whether the wildcard here has an instance for a key. -/
def knows : Trigger → String → Bool
  | mk _ _ none _, _ => false
  | mk _ _ (some (_, is)) _, key => Dict.contains is key

/-- `instantiate` keeps old instances and makes copies of the pattern for the other keys that are
    there. -/
theorem get?_instantiate (pattern : Trigger) (is : Dict Trigger) (data : Option Node)
    (key : String) : Dict.get? (instantiate pattern is data) key =
      (Dict.get? is key).or (if key ∈ dataKeys data then some pattern else none) := by
  unfold instantiate
  generalize dataKeys data = keys
  induction keys generalizing is with
  | nil =>
    rw [List.foldl_nil, if_neg List.not_mem_nil]
    cases Dict.get? is key <;> rfl
  | cons k rest ih =>
    rw [List.foldl_cons, ih]
    by_cases hk : k = key
    · subst hk
      cases hg : Dict.get? is k with
      | none => simp [Dict.contains, hg, Dict.get?_insert]
      | some t => simp [Dict.contains, hg]
    · have hiff : key ∈ k :: rest ↔ key ∈ rest := by
        rw [List.mem_cons]
        exact ⟨fun h => h.resolve_left fun e => hk e.symm, Or.inr⟩
      -- The instance of another key neither helps nor hurts.
      simp only [hiff]
      split
      · rfl
      · rw [Dict.get?_insert, if_neg hk]

theorem sorted_instantiate (pattern : Trigger) {is : Dict Trigger} (h : Dict.Sorted is)
    (data : Option Node) : Dict.Sorted (instantiate pattern is data) := by
  unfold instantiate
  generalize dataKeys data = keys
  induction keys generalizing is with
  | nil => exact h
  | cons k rest ih =>
    rw [List.foldl_cons]
    split
    · exact ih h
    · exact ih (Dict.sorted_insert h k pattern)

/-! ### A listener comes -/

section Insert

variable (token : Token) (data : Option Node) (t : Trigger)

/-- At the end of its path a new listener comes after the others, and has seen what is there. -/
theorem listeners_insert_nil :
    (insert token [] data t).listeners = t.listeners ++ [⟨token, Sighting.of data⟩] := by
  cases t
  rfl

theorem listeners_insert_cons (step : Step) (rest : List Step) :
    (insert token (step :: rest) data t).listeners = t.listeners := by
  cases t
  cases step with
  | key key => rfl
  | wildcard => rfl

@[simp] theorem visited_insert (steps : List Step) :
    (insert token steps data t).visited = t.visited := by
  cases t
  rcases steps with - | ⟨- | -, rest⟩ <;> rfl

theorem branch_insert_nil (b : Branch) : (insert token [] data t).branch b = t.branch b := by
  obtain ⟨ls, ns, w, v⟩ := t
  cases b with
  | named key => rfl
  | wild key =>
    cases w with
    | none => rfl
    | some w => rfl
/-- A key of the path is gone down by name, and by nothing else. -/
theorem branch_insert_key (key : String) (rest : List Step) (b : Branch) :
    (insert token (.key key :: rest) data t).branch b =
      if b = .named key then insert token rest (part data key) (t.branch b) else t.branch b := by
  obtain ⟨ls, ns, w, v⟩ := t
  cases b with
  | named k =>
    rw [insert, branch, Dict.get?_insert]
    -- The registration goes into the branch of its key, which may be made for it.
    by_cases hk : key = k
    · subst hk
      rw [if_pos rfl, if_pos rfl]
      rfl
    · have hne : Branch.named k ≠ .named key := by
        intro h
        cases h
        exact hk rfl
      rw [if_neg hk, if_neg hne]
      rfl
  | wild k =>
    have hne : Branch.wild k ≠ .named key := by
      intro h
      cases h
    rw [if_neg hne]
    cases w with
    | none => rfl
    | some w => rfl

/-- The data that a branch is registered with.  A key that is not there may still have an instance
    of a wildcard that is left of it; then the part under the key is used nevertheless. -/
def enter : Branch → Option Node
  | .named key => part data key
  | .wild key => if key ∈ dataKeys data ∨ t.knows key = true then part data key else none

/-- Registering a wildcard registers the rest of the path in the branch for every key, whether the
    key has an instance or not. -/
theorem branch_insert_wildcard (rest : List Step) (b : Branch) :
    (insert token (.wildcard :: rest) data t).branch b =
      match b with
      | .named _ => t.branch b
      | .wild _ => insert token rest (enter data t b) (t.branch b) := by
  obtain ⟨ls, ns, w, v⟩ := t
  -- Without a wildcard the empty trie is the pattern.
  have hwild : ∀ (pattern : Trigger) (is : Dict Trigger) (key : String),
      ((Dict.get? ((instantiate pattern is data).map fun p =>
        (p.1, insert token rest (part data p.1) p.2)) key).getD (insert token rest none pattern)) =
      insert token rest (if key ∈ dataKeys data ∨ Dict.contains is key = true then part data key
        else none) ((Dict.get? is key).getD pattern) := by
    intro pattern is key
    rw [Dict.get?_mapEntries fun key t => insert token rest (part data key) t, get?_instantiate,
      Dict.contains]
    cases hg : Dict.get? is key with
    | some t =>
      have hsome : (some t).isSome = true := rfl
      rw [if_pos (Or.inr hsome)]
      rfl
    | none =>
      by_cases hk : key ∈ dataKeys data
      · rw [if_pos hk, if_pos (Or.inl hk)]
        rfl
      · rw [if_neg hk, if_neg fun h => h.elim hk nofun]
        rfl
  cases b with
  | named k => rfl
  | wild k =>
    rcases w with - | ⟨pattern, is⟩
    · exact hwild empty [] k
    · exact hwild pattern is k

end Insert

/-- The data that a place is registered with: those that `enter` gives, branch by branch. -/
def registeredAt (t : Trigger) (data : Option Node) : Place → Option Node
  | [] => data
  | b :: p => registeredAt (t.branch b) (enter data t b) p

@[simp] theorem enter_none (t : Trigger) (b : Branch) : enter none t b = none := by
  cases b with
  | named key => rfl
  | wild key => exact ite_self _

@[simp] theorem registeredAt_none (t : Trigger) (p : Place) : registeredAt t none p = none := by
  induction p generalizing t with
  | nil => rfl
  | cons b rest ih => rw [registeredAt, enter_none, ih]

/-- **Where a listener comes.**  After a registration there is one listener more at the places of
    its path, and the listeners elsewhere are as before. -/
theorem listeners_place_insert (token : Token) (steps : List Step) (data : Option Node)
    (t : Trigger) (p : Place) : ((insert token steps data t).place p).listeners =
      (t.place p).listeners ++
        if p.steps = steps then [⟨token, Sighting.of (registeredAt t data p)⟩] else [] := by
  induction steps generalizing data t p with
  | nil =>
    cases p with
    | nil => exact listeners_insert_nil token data t
    | cons b rest =>
      have hne : Place.steps (b :: rest) ≠ [] := List.cons_ne_nil _ _
      rw [place_cons, branch_insert_nil, if_neg hne, List.append_nil]
      rfl
  | cons step rest ih =>
    cases p with
    | nil =>
      have hne : Place.steps [] ≠ step :: rest := (List.cons_ne_nil _ _).symm
      rw [place_nil, listeners_insert_cons, if_neg hne, List.append_nil]
      rfl
    | cons b q =>
      simp only [Place.steps_cons, List.cons.injEq]
      rw [place_cons, place_cons, registeredAt]
      cases step with
      | key key =>
        rw [branch_insert_key]
        by_cases hb : b = .named key
        · subst hb
          rw [if_pos rfl, ih]
          simp only [Branch.step, true_and, enter]
        · have hstep : b.step ≠ .key key := by
            cases b with
            | named k =>
              intro h
              cases h
              exact hb rfl
            | wild k =>
              intro h
              cases h
          rw [if_neg hb, if_neg fun h => hstep h.1, List.append_nil]
      | wildcard =>
        -- All instances are entered, and so is the pattern for the keys without one.
        rw [branch_insert_wildcard]
        cases b with
        | named k =>
          have hstep : (Branch.named k).step ≠ .wildcard := by
            intro h
            cases h
          rw [if_neg fun h => hstep h.1, List.append_nil]
        | wild k =>
          dsimp only
          rw [ih]
          simp only [Branch.step, true_and]

/-! #### Stray instances -/

/-- No instance is left of a key that is gone but still leads somewhere.  Such a key can only be an
    unusual spelling of a position in an array that has come where an object was. -/
def NoStrays (t : Trigger) (data : Option Node) : Prop :=
  ∀ p key, (t.place p).knows key = true → key ∉ dataKeys (look data p) →
    part (look data p) key = none

theorem noStrays_empty (data : Option Node) : NoStrays empty data := by
  intro p key h
  rw [place_empty] at h
  cases h

/-- With `NoStrays`, branches are registered with what is there. -/
theorem NoStrays.enter_eq {t : Trigger} {data : Option Node} (h : NoStrays t data) (b : Branch) :
    enter data t b = b.part data := by
  cases b with
  | named key => rfl
  | wild key =>
    rw [enter, Branch.part]
    by_cases hkey : key ∈ dataKeys data
    · rw [if_pos hkey, if_pos (.inl hkey)]
    · -- An instance without a key leads nowhere.
      rw [if_neg hkey]
      split
      · next hk => exact h [] key (hk.resolve_left hkey) hkey
      · rfl

/-- With `NoStrays`, places are registered with what is there. -/
theorem NoStrays.registeredAt_eq {t : Trigger} {data : Option Node} (h : NoStrays t data)
    (p : Place) : registeredAt t data p = look data p := by
  induction p generalizing t data with
  | nil => rfl
  | cons b rest ih =>
    rw [registeredAt, h.enter_eq, look_cons]
    exact ih fun q key => h (b :: q) key

/-- A registration makes instances only for keys that are there. -/
theorem knows_place_insert {token : Token} {steps : List Step} {data : Option Node} {t : Trigger}
    {p : Place} {key : String}
    (h : ((insert token steps data t).place p).knows key = true) :
    (t.place p).knows key = true ∨ key ∈ dataKeys (registeredAt t data p) := by
  induction steps generalizing data t p with
  | nil =>
    cases p with
    | nil =>
      obtain ⟨ls, ns, w, v⟩ := t
      cases w <;> exact .inl h
    | cons b q =>
      rw [place_cons, branch_insert_nil] at h
      exact .inl h
  | cons step rest ih =>
    cases p with
    | nil =>
      obtain ⟨ls, ns, w, v⟩ := t
      cases step with
      | key k => cases w <;> exact .inl h
      | wildcard =>
        rw [place_nil, insert] at h
        change Dict.contains (List.map _ (instantiate _ _ data)) key = true at h
        rw [Dict.contains, Dict.get?_mapEntries fun key t => insert token rest (part data key) t,
          Option.isSome_map, get?_instantiate] at h
        -- A new instance is one of a key that is there.
        by_cases hkey : key ∈ dataKeys data
        · exact .inr hkey
        · rw [if_neg hkey, Option.or_none] at h
          rcases w with - | ⟨pattern, is⟩
          · cases h
          · exact .inl h
    | cons b q =>
      rw [place_cons] at h ⊢
      unfold registeredAt
      cases step with
      | key k =>
        rw [branch_insert_key] at h
        split at h
        · next hb =>
          subst hb
          exact ih h
        · exact .inl h
      | wildcard =>
        rw [branch_insert_wildcard] at h
        cases b with
        | named k => exact .inl h
        | wild k => exact ih h

/-- A registration keeps `NoStrays`. -/
theorem NoStrays.insert {t : Trigger} {data : Option Node} (h : NoStrays t data) (token : Token)
    (steps : List Step) : NoStrays (Trigger.insert token steps data t) data := by
  intro p key hk hout
  rcases knows_place_insert hk with hk | hk
  · exact h p key hk hout
  · rw [h.registeredAt_eq] at hk
    exact absurd hk hout

/-! #### Proper tries stay proper -/

/-- A registration leaves what is recorded at every place. -/
theorem visited_place_insert (token : Token) (steps : List Step) (data : Option Node)
    (t : Trigger) (p : Place) :
    ((insert token steps data t).place p).visited = (t.place p).visited := by
  -- Along the steps of the path and the place as far as they go together.
  induction steps generalizing data t p with
  | nil =>
    cases p with
    | nil => exact visited_insert token data t []
    | cons b rest => rw [place_cons, place_cons, branch_insert_nil]
  | cons step rest ih =>
    cases p with
    | nil => exact visited_insert token data t _
    | cons b q =>
      rw [place_cons, place_cons]
      cases step with
      | key key =>
        rw [branch_insert_key]
        split
        · exact ih _ _ _
        · rfl
      | wildcard =>
        rw [branch_insert_wildcard]
        cases b with
        | named k => rfl
        | wild k => exact ih _ _ _

/-- After a registration its token is at the places of its path, behind those that were there. -/
theorem tokensAt_insert (token : Token) (steps : List Step) (data : Option Node) (t : Trigger)
    (p : Place) : (insert token steps data t).tokensAt p =
      t.tokensAt p ++ if p.steps = steps then [token] else [] := by
  rw [tokensAt, listeners_place_insert, List.map_append, tokensAt]
  split <;> rfl

/-- The same registration keeps tries `Alike`, whatever data it is made with. -/
theorem Alike.insert {t u : Trigger} (h : Alike t u) (token : Token) (steps : List Step)
    (data data' : Option Node) :
    Alike (Trigger.insert token steps data t) (Trigger.insert token steps data' u) := by
  intro p
  rw [tokensAt_insert, tokensAt_insert, h p]

/-- A registration without data keeps a trie `Blank`: this is how patterns are registered. -/
theorem Blank.insert {t : Trigger} (h : Blank t) (token : Token) (steps : List Step) :
    Blank (Trigger.insert token steps none t) := by
  intro p
  refine ⟨(visited_place_insert token steps none t p).trans (h p).1, ?_⟩
  intro l hl
  rw [listeners_place_insert, registeredAt_none, List.mem_append] at hl
  rcases hl with hl | hl
  · exact (h p).2 l hl
  · split at hl
    · rw [List.mem_singleton.1 hl]
      rfl
    · cases hl

/-- `instantiate` keeps `ProperInstances`, as new instances are copies of the pattern. -/
theorem ProperInstances.instantiate {pattern : Trigger} {is : Dict Trigger}
    (h : ProperInstances pattern is) (data : Option Node) :
    ProperInstances pattern (Trigger.instantiate pattern is data) := by
  -- An instance was there before, or it is a copy of the pattern.
  have hinstance : ∀ key t, Dict.get? (Trigger.instantiate pattern is data) key = some t →
      Proper t ∧ Alike pattern t := by
    intro key t hk
    rw [get?_instantiate] at hk
    cases hg : Dict.get? is key with
    | some u =>
      rw [hg] at hk
      cases hk
      exact ⟨h.each key t hg, h.alike key t hg⟩
    | none =>
      rw [hg, Option.none_or] at hk
      split at hk
      · cases hk
        exact ⟨h.proper, .refl _⟩
      · cases hk
  exact ⟨sorted_instantiate pattern h.sorted data, h.proper, h.blank,
    fun key t hk => (hinstance key t hk).1, fun key t hk => (hinstance key t hk).2⟩

/-- A registration keeps a trie `Proper`. -/
theorem proper_insert (token : Token) (steps : List Step) (data : Option Node) {t : Trigger}
    (h : Proper t) : Proper (insert token steps data t) := by
  induction steps generalizing data t with
  | nil =>
    cases h with
    | mk named each instances pattern blank instanceOf alike =>
      exact .mk named each instances pattern blank instanceOf alike
  | cons step rest ih =>
    cases step with
    | key key =>
      have hbranch := h.branch (.named key)
      have hinstances : ∀ pattern is, t.wildcard = some (pattern, is) →
          ProperInstances pattern is := fun _ _ hw => h.instances hw
      cases h with
      | @mk ls ns w v named each =>
        refine proper_mk (Dict.sorted_insert named _ _) ?_ hinstances
        intro k t hk
        rw [Dict.get?_insert] at hk
        split at hk
        · cases hk
          exact ih _ hbranch
        · exact each k t hk
    | wildcard =>
      have hinstances : ∀ pattern is, t.wildcard = some (pattern, is) →
          ProperInstances pattern is := fun _ _ hw => h.instances hw
      cases h with
      | @mk ls ns w v named each =>
        -- Without a wildcard so far, the empty trie is the pattern.
        have hold : ProperInstances (w.getD (empty, [])).1 (w.getD (empty, [])).2 := by
          rcases w with - | ⟨pattern, is⟩
          · exact properInstances_empty
          · exact hinstances pattern is rfl
        have hnew := hold.instantiate data
        refine proper_mk named each ?_
        intro pattern is he
        cases he
        exact hnew.map (f := fun key t => insert token rest (part data key) t)
          (ih none hnew.proper) (hnew.blank.insert token rest)
          (fun key t hk => ih _ (hnew.each key t hk))
          fun key t hk => (hnew.alike key t hk).insert token rest none _

/-! ### Listeners go -/

section Remove

variable (token : Token)

theorem listeners_remove (t : Trigger) :
    (remove token t).listeners = t.listeners.filter (·.token ≠ token) := by
  obtain ⟨ls, ns, w, v⟩ := t
  rcases w with - | ⟨pattern, is⟩
  · unfold remove
    rfl
  · unfold remove
    rfl

theorem visited_remove (t : Trigger) : (remove token t).visited = t.visited := by
  obtain ⟨ls, ns, w, v⟩ := t
  rcases w with - | ⟨pattern, is⟩
  · unfold remove
    rfl
  · unfold remove
    rfl

/-- `removeNamed` drops the branches of which nothing is left. -/
theorem removeNamed_eq (ns : List (String × Trigger)) : removeNamed token ns =
    Dict.select (fun _ t => if (remove token t).isEmpty then none else some (remove token t))
      ns := by
  induction ns with
  | nil =>
    unfold removeNamed
    rfl
  | cons p rest ih =>
    obtain ⟨key, t⟩ := p
    rw [removeNamed, Dict.select_cons, ih]
    cases (remove token t).isEmpty <;> rfl

/-- `removeEach` keeps all instances.  Whether they go is decided by their pattern. -/
theorem removeEach_eq (is : List (String × Trigger)) :
    removeEach token is = Dict.mapValues (remove token) is := by
  induction is with
  | nil =>
    unfold removeEach
    rfl
  | cons p rest ih =>
    obtain ⟨key, t⟩ := p
    rw [removeEach, ih]
    rfl

/-- The trie, or the empty one if nothing is left of it. -/
def pruned (t : Trigger) : Trigger := if t.isEmpty then empty else t

/-- Dropping a trie of which nothing is left loses no listeners. -/
theorem listeners_place_pruned (t : Trigger) (p : Place) :
    ((pruned t).place p).listeners = (t.place p).listeners := by
  unfold pruned
  split
  · next h =>
    rw [place_empty, listeners_place_of_isEmpty h]
    rfl
  · rfl

theorem named_remove (ls : List Listener) (ns : Dict Trigger)
    (w : Option (Trigger × Dict Trigger)) (v : Sighting) :
    (remove token (mk ls ns w v)).named = Dict.select (fun _ t =>
      if (remove token t).isEmpty then none else some (remove token t)) ns := by
  rw [← removeNamed_eq]
  rcases w with - | ⟨pattern, is⟩
  · unfold remove
    rfl
  · unfold remove
    rfl

/-- After a removal the wildcard is dropped if nothing is left of its pattern, together with all
    its instances. -/
theorem wildcard_remove (ls : List Listener) (ns : Dict Trigger)
    (w : Option (Trigger × Dict Trigger)) (v : Sighting) :
    (remove token (mk ls ns w v)).wildcard = w.bind fun w =>
      if (remove token w.1).isEmpty then none
      else some (remove token w.1, Dict.mapValues (remove token) w.2) := by
  rcases w with - | ⟨pattern, is⟩
  · unfold remove
    rfl
  · rw [remove, removeEach_eq]
    rfl

@[simp] theorem remove_empty : remove token empty = empty := by
  rw [empty, remove]
  rfl

theorem branch_remove_named {t : Trigger} (h : Dict.Sorted t.named) (key : String) :
    (remove token t).branch (.named key) = pruned (remove token (t.branch (.named key))) := by
  obtain ⟨ls, ns, w, v⟩ := t
  have hn : (Dict.keys ns).Nodup := Dict.Sorted.nodup_keys h
  rw [branch_named, named_remove, Dict.get?_select hn, branch_named, named]
  cases Dict.get? ns key with
  | none =>
    rw [Option.getD_none, remove_empty]
    rfl
  | some t =>
    rw [Option.bind_some, Option.getD_some, pruned]
    split <;> rfl

/-- After a removal the branch of a wildcard is what is left of it, unless nothing is left of the
    pattern. -/
theorem branch_remove_wild (t : Trigger) (key : String) :
    (remove token t).branch (.wild key) = match t.wildcard with
      | none => empty
      | some (pattern, _) => if (remove token pattern).isEmpty then empty
          else remove token (t.branch (.wild key)) := by
  obtain ⟨ls, ns, w, v⟩ := t
  rw [branch_wild, wildcard_remove, wildcard]
  rcases w with - | ⟨pattern, is⟩
  · rfl
  · rw [Option.bind_some, branch_wild, wildcard]
    dsimp only
    -- The wildcard goes as a whole or stays as a whole.
    cases (remove token pattern).isEmpty with
    | true => rfl
    | false =>
      show (Dict.get? (Dict.mapValues (remove token) is) key).getD (remove token pattern) = _
      rw [Dict.get?_mapValues]
      cases Dict.get? is key <;> rfl

/-- If a place of a trie has no listeners but those of the token, then neither has an `Alike` trie
    there. -/
theorem Alike.filter_eq_nil {t u : Trigger} (h : Alike t u) {p : Place}
    (ht : (t.place p).listeners.filter (·.token ≠ token) = []) :
    (u.place p).listeners.filter (·.token ≠ token) = [] := by
  rw [List.filter_eq_nil_iff] at ht ⊢
  intro l hl
  have hmem : l.token ∈ t.tokensAt p := by
    rw [h p]
    exact List.mem_map_of_mem hl
  obtain ⟨l', hl', he⟩ := List.mem_map.1 hmem
  rw [← he]
  exact ht l' hl'

/-- **What a removal takes away.**  After a removal every place has its listeners but those of the
    token.  A place that was dropped had no others, since instances are `Alike` their pattern. -/
theorem listeners_place_remove {t : Trigger} (h : Proper t) (p : Place) :
    ((remove token t).place p).listeners =
      (t.place p).listeners.filter (·.token ≠ token) := by
  induction p generalizing t with
  | nil => exact listeners_remove token t
  | cons b rest ih =>
    rw [place_cons, place_cons, ← ih (h.branch b)]
    cases b with
    | named key => rw [branch_remove_named token h.sorted_named, listeners_place_pruned]
    | wild key =>
      rw [branch_remove_wild]
      cases hw : t.wildcard with
      | none =>
        rw [branch_wild, hw]
        dsimp only
        rw [remove_empty]
      | some w =>
        obtain ⟨pattern, is⟩ := w
        dsimp only
        split
        · next hempty =>
          -- Nothing is left of the pattern, so nothing is left of its instances.
          have hpattern := ih (h.instances hw).proper
          rw [listeners_place_of_isEmpty hempty] at hpattern
          rw [ih (h.branch _), (h.alike_branch hw key).filter_eq_nil token hpattern.symm,
            place_empty]
          rfl
        · rfl

/-- After a removal a place is recorded as before, or not at all. -/
theorem visited_place_remove {t : Trigger} (h : Proper t) (p : Place) :
    ((remove token t).place p).visited = (t.place p).visited ∨
      ((remove token t).place p).visited = none := by
  induction p generalizing t with
  | nil => exact .inl (visited_remove token t)
  | cons b rest ih =>
    rw [place_cons, place_cons]
    -- A branch that is dropped leaves an empty trie, which has recorded nothing.
    have hempty : (empty.place rest).visited = none := by
      rw [place_empty]
      rfl
    cases b with
    | named key =>
      rw [branch_remove_named token h.sorted_named, pruned]
      split
      · exact .inr hempty
      · exact ih (h.branch _)
    | wild key =>
      rw [branch_remove_wild]
      split
      · exact .inr hempty
      · split
        · exact .inr hempty
        · exact ih (h.branch _)

/-- A removal keeps a trie `Blank`. -/
theorem Blank.remove {t : Trigger} (h : Blank t) (ht : Proper t) :
    Blank (Trigger.remove token t) := by
  intro p
  constructor
  · rcases visited_place_remove token ht p with hv | hv
    · exact hv.trans (h p).1
    · exact hv
  · intro l hl
    rw [listeners_place_remove token ht p] at hl
    exact (h p).2 l (List.mem_filter.1 hl).1

/-- After a removal every place has its tokens but the one that was removed. -/
theorem tokensAt_remove {t : Trigger} (h : Proper t) (p : Place) :
    (remove token t).tokensAt p = (t.tokensAt p).filter (· ≠ token) := by
  rw [tokensAt, listeners_place_remove token h p, tokensAt, List.filter_map]
  rfl

/-- The same removal keeps tries `Alike`. -/
theorem Alike.remove {t u : Trigger} (h : Alike t u) (ht : Proper t) (hu : Proper u) :
    Alike (Trigger.remove token t) (Trigger.remove token u) := by
  intro p
  rw [tokensAt_remove token ht, tokensAt_remove token hu, h p]

/-- A removal keeps a trie `Proper`. -/
theorem proper_remove {t : Trigger} (h : Proper t) : Proper (remove token t) := by
  induction h with
  | @mk ls ns w v named each sorted pattern blank instanceOf alike ihe ihp ihi =>
    have hnamed := named_remove token ls ns w v
    have hwildcard := wildcard_remove token ls ns w v
    generalize remove token (mk ls ns w v) = u at hnamed hwildcard
    obtain ⟨ls', ns', w', v'⟩ := u
    have hn : ns' = _ := hnamed
    have hw : w' = _ := hwildcard
    refine proper_mk ?_ ?_ ?_
    · rw [hn]
      exact Dict.sorted_select named _
    · intro key t hk
      rw [hn, Dict.get?_select named.nodup_keys] at hk
      obtain ⟨t', ht', he⟩ := Option.bind_eq_some_iff.1 hk
      split at he
      · cases he
      · cases he
        exact ihe key t' ht'
    · intro pat is he
      rw [hw] at he
      obtain ⟨⟨pat', is'⟩, hw', he⟩ := Option.bind_eq_some_iff.1 he
      split at he
      · cases he
      · -- The pattern and the instances that are left come from those that were there.
        cases he
        have hold : ProperInstances pat' is' := ⟨sorted pat' is' hw', pattern pat' is' hw',
          blank pat' is' hw', instanceOf pat' is' hw', alike pat' is' hw'⟩
        exact hold.map (f := fun _ t => Trigger.remove token t) (ihp pat' is' hw')
          (hold.blank.remove token hold.proper) (ihi pat' is' hw')
          fun key t hk => (hold.alike key t hk).remove token hold.proper (hold.each key t hk)

end Remove

end Trigger

end Observatory
