import Observatory.Proofs.Indi.Outbound
import Observatory.Proofs.Xml.Scan

/-!
# Commands as they are read

A command is a document, and a reader finds the vector, its members and their values in it.  White
space is not escaped where a command is written, so that some of it is read as other white space.

* `Command.ofElement?`: the command that an element is;
* `Command.asRead`, `Command.Lossless`: a command as it is read, and commands that are read as they
  were;
* `Command.tokens`, `Command.scan?_toXml`: the tokens of a command;
* `Command.document`, `Command.ofText?_toXml`: the element that a command is read as;
* `Command.read_back`: what is read of any command.
-/

namespace Observatory

open Xml (spaced lined escape plainName writtenAttributes scannedAttribute readAttribute PlainName)

namespace Command

/-! ### Reading -/

/-- The member that an element is, in a command of the given kind: its name comes from the
    attribute `name`, its value from the text in it. -/
def memberOfElement? (kind : VectorKind) (e : Xml.Element) : Option (String × String) :=
  if e.name = "one" ++ kind.name then
    (e.attribute? "name").map fun name => (name, e.leadingText)
  else none

/-- The command that an element is.  The kind comes from its name, and every element in it has to
    be a member of that kind. -/
def ofElement? (e : Xml.Element) : Option Command := do
  let kind ← VectorKind.ofTag? "new" "Vector" e.name
  let device ← e.attribute? "device"
  let name ← e.attribute? "name"
  let members ← e.elements.mapM (memberOfElement? kind)
  some { kind, device, name, members }

/-- An attribute value as a reader finds it, see `Xml.spaced`. -/
def spacedText (text : String) : String := String.ofList (spaced text.toList)

/-- A text as a reader finds it, see `Xml.lined`. -/
def linedText (text : String) : String := String.ofList (lined false text.toList)

/-- A command as a reader finds it, its names normalised as attribute values and its values as
    texts. -/
def asRead (c : Command) : Command where
  kind := c.kind
  device := spacedText c.device
  name := spacedText c.name
  members := c.members.map fun m => (spacedText m.1, linedText m.2)

/-- A text without white space other than spaces. -/
def SpacesOnly (text : String) : Prop := ∀ c ∈ text.toList, Xml.isSpace c = true → c = ' '

/-- A command in which a reader changes nothing: there is no white space but spaces in its names,
    and every carriage return in a value `Stays`. -/
structure Lossless (c : Command) : Prop where
  device : SpacesOnly c.device
  name : SpacesOnly c.name
  members : ∀ m ∈ c.members, SpacesOnly m.1 ∧ Xml.Stays false m.2.toList

/-- A name is read as it was written if and only if it has no white space but spaces. -/
theorem spacedText_eq_self {text : String} : spacedText text = text ↔ SpacesOnly text := by
  rw [SpacesOnly, ← Xml.spaced_eq_self, spacedText, ← String.toList_inj, String.toList_ofList]

/-- A value is read as it was written if and only if every carriage return in it stays. -/
theorem linedText_eq_self {text : String} :
    linedText text = text ↔ Xml.Stays false text.toList := by
  rw [← Xml.lined_eq_self, linedText, ← String.toList_inj, String.toList_ofList]

/-- `asRead` changes nothing in a command if and only if the command is `Lossless`. -/
theorem asRead_eq_self {c : Command} : c.asRead = c ↔ c.Lossless := by
  -- A list is mapped to itself if and only if each member is.
  have hmembers : c.members.map (fun m => (spacedText m.1, linedText m.2)) = c.members ↔
      ∀ m ∈ c.members, SpacesOnly m.1 ∧ Xml.Stays false m.2.toList := by
    have hmap := List.map_inj_left (l := c.members)
      (f := fun m => (spacedText m.1, linedText m.2)) (g := id)
    rw [List.map_id] at hmap
    rw [hmap]
    refine forall₂_congr fun m _ => ?_
    rw [← spacedText_eq_self, ← linedText_eq_self]
    exact Prod.ext_iff
  constructor
  · intro h
    exact ⟨spacedText_eq_self.1 (congrArg Command.device h),
      spacedText_eq_self.1 (congrArg Command.name h), hmembers.1 (congrArg Command.members h)⟩
  · intro h
    rw [asRead, spacedText_eq_self.2 h.device, spacedText_eq_self.2 h.name,
      hmembers.2 h.members]

/-! ### Tokens -/

/-- The name of the tag of a vector. -/
def vectorTagName (kind : VectorKind) : List Char := ("new" ++ kind.name ++ "Vector").toList

/-- The name of the tag of a member. -/
def memberTagName (kind : VectorKind) : List Char := ("one" ++ kind.name).toList

/-- The attributes of the tag of a vector. -/
def vectorAttributes (c : Command) : List (List Char × List Char) :=
  [("device".toList, c.device.toList), ("name".toList, c.name.toList)]

/-- The attributes of the tag of a member. -/
def memberAttributes (m : String × String) : List (List Char × List Char) :=
  [("name".toList, m.1.toList)]

/-- The characters of a member between its indentation and the end of its line. -/
def memberChars (kind : VectorKind) (m : String × String) (rest : List Char) : List Char :=
  '<' :: (memberTagName kind ++ (writtenAttributes (memberAttributes m) ++ '>' ::
    (escape m.2.toList ++ '<' :: '/' :: (memberTagName kind ++ '>' :: rest))))

/-- The characters behind the tag of a vector. -/
def insideChars (kind : VectorKind) : List (String × String) → List Char → List Char
  | [], rest => '\n' :: rest
  | m :: members, rest => '\n' :: ' ' :: ' ' :: memberChars kind m (insideChars kind members rest)

/-- The line of a member is its indentation, `memberChars` and the end of the line. -/
theorem toList_memberLine (kind : VectorKind) (m : String × String) (rest : List Char) :
    (memberLine kind m).toList ++ rest = ' ' :: ' ' :: memberChars kind m ('\n' :: rest) := by
  simp [memberLine, memberChars, memberTagName, memberAttributes, writtenAttributes,
    writeAttribute, escapeText, String.toList_append]

/-- The lines of the members are `insideChars`, where the line feed of each line is counted with
    the next one, as a reader finds it in one text with the indentation. -/
theorem toList_memberLines (kind : VectorKind) (members : List (String × String))
    (rest : List Char) :
    '\n' :: ((String.join (members.map (memberLine kind))).toList ++ rest) =
      insideChars kind members rest := by
  induction members with
  | nil => rfl
  | cons m members ih =>
    rw [List.map_cons, String.join_cons, String.toList_append, List.append_assoc,
      toList_memberLine, ih, insideChars]

/-- The characters of a command in the form in which they are scanned. -/
theorem toList_toXml (c : Command) : c.toXml.toList =
    '<' :: (vectorTagName c.kind ++ (writtenAttributes c.vectorAttributes ++ '>' ::
      insideChars c.kind c.members ('<' :: '/' :: (vectorTagName c.kind ++ ['>', '\n'])))) := by
  rw [← toList_memberLines]
  simp [toXml, vectorTagName, vectorAttributes, writtenAttributes, writeAttribute, escapeText,
    String.toList_append]

/-- The tokens of a member.  An empty value is no text token, as the two tags then stand side by
    side. -/
def memberTokens (kind : VectorKind) (m : String × String) : List Xml.Token :=
  .opening (plainName (memberTagName kind)) ((memberAttributes m).map scannedAttribute) false ::
    ((if m.2.toList = [] then [] else [.text (escape m.2.toList)]) ++
      [.closing (plainName (memberTagName kind))])

/-- The tokens behind the tag of a vector. -/
def insideTokens (kind : VectorKind) : List (String × String) → List Xml.Token
  | [] => [.text ['\n']]
  | m :: members => .text ['\n', ' ', ' '] :: (memberTokens kind m ++ insideTokens kind members)

/-- The tokens of a command. -/
def tokens (c : Command) : List Xml.Token :=
  .opening (plainName (vectorTagName c.kind)) (c.vectorAttributes.map scannedAttribute) false ::
    (insideTokens c.kind c.members ++ [.closing (plainName (vectorTagName c.kind)), .text ['\n']])

theorem plainName_vector (kind : VectorKind) : PlainName (vectorTagName kind) := by
  cases kind <;> decide

theorem plainName_member (kind : VectorKind) : PlainName (memberTagName kind) := by
  cases kind <;> decide

theorem plainName_vectorAttributes (c : Command) : ∀ a ∈ c.vectorAttributes, PlainName a.1 := by
  simp only [vectorAttributes, List.forall_mem_cons]
  exact ⟨by decide, by decide, List.forall_mem_nil _⟩

theorem plainName_memberAttributes (m : String × String) :
    ∀ a ∈ memberAttributes m, PlainName a.1 := by
  simp only [memberAttributes, List.forall_mem_cons]
  exact ⟨by decide, List.forall_mem_nil _⟩

/-- The scanner finds `memberTokens` where a member is written, in front of any rest. -/
theorem scan?_memberChars (kind : VectorKind) (m : String × String) (rest : List Char) :
    Xml.Token.scan? (memberChars kind m rest) =
      (Xml.Token.scan? rest).map (memberTokens kind m ++ ·) := by
  have hclosing := Xml.Token.scan?_closing (plainName_member kind) rest
  have hvalue : Xml.Token.scan?
      (escape m.2.toList ++ '<' :: '/' :: (memberTagName kind ++ '>' :: rest)) =
      (Xml.Token.scan? rest).map (((if m.2.toList = [] then [] else [.text (escape m.2.toList)]) ++
        [.closing (plainName (memberTagName kind))]) ++ ·) := by
    -- An empty value is no text token, so the two tags stand side by side.
    by_cases hempty : m.2.toList = []
    · rw [hempty, if_pos rfl]
      exact hclosing
    · have hne : escape m.2.toList ≠ [] := fun h => hempty (Xml.escape_eq_nil.1 h)
      have hsection : Xml.Token.occursIn [']', ']', '>'] (escape m.2.toList) = false :=
        Xml.Token.occursIn_eq_false (c := '>') (by decide) (Xml.not_mem_escape (by decide) _)
      rw [if_neg hempty, Xml.Token.scan?_text hne (Xml.not_mem_escape (by decide) _) hsection
        (.inr rfl), hclosing, Option.map_map]
      rfl
  rw [memberChars, Xml.Token.scan?_opening (plainName_member kind) (plainName_memberAttributes m),
    hvalue, Option.map_map]
  rfl

/-- The scanner finds `insideTokens` where the lines of the members are written, in front of a rest
    that begins with a tag. -/
theorem scan?_insideChars (kind : VectorKind) (members : List (String × String))
    {rest : List Char} (hrest : rest.head? = some '<') :
    Xml.Token.scan? (insideChars kind members rest) =
      (Xml.Token.scan? rest).map (insideTokens kind members ++ ·) := by
  induction members with
  | nil =>
    have hline : Xml.Token.scan? (['\n'] ++ rest) = _ :=
      Xml.Token.scan?_text (by decide) (by decide) (by decide) (.inr hrest)
    exact hline
  | cons m members ih =>
    have hspace : Xml.Token.scan?
        (['\n', ' ', ' '] ++ memberChars kind m (insideChars kind members rest)) = _ :=
      Xml.Token.scan?_text (by decide) (by decide) (by decide) (.inr rfl)
    rw [insideChars]
    refine hspace.trans ?_
    rw [scan?_memberChars, ih, Option.map_map, Option.map_map]
    -- What was found in front is put in front, once for the line and once for the member.
    refine congrArg (Option.map · _) (funext fun tokens => ?_)
    exact congrArg (List.cons _) (List.append_assoc _ _ _).symm

/-- The scanner finds `tokens` in the text of a command. -/
theorem scan?_toXml (c : Command) : Xml.Token.scan? c.toXml.toList = some c.tokens := by
  have hend : Xml.Token.scan? (['\n'] ++ []) = _ :=
    Xml.Token.scan?_text (by decide) (by decide) (by decide) (.inl rfl)
  rw [List.append_nil, Xml.Token.scan?_nil] at hend
  rw [toList_toXml,
    Xml.Token.scan?_opening (plainName_vector c.kind) (plainName_vectorAttributes c),
    scan?_insideChars _ _ rfl, Xml.Token.scan?_closing (plainName_vector c.kind), hend]
  rfl

/-! ### The document -/

open Xml (OpenElement Partial)

/-- The element that a member is read as. -/
def memberDocument (kind : VectorKind) (m : String × String) : Xml.Element :=
  .mk (String.ofList (memberTagName kind)) ((memberAttributes m).map readAttribute)
    (if m.2.toList = [] then [] else [.text (lined false m.2.toList)])

/-- What is read in a vector. -/
def insideDocument (kind : VectorKind) : List (String × String) → List Xml.Content
  | [] => [.text ['\n']]
  | m :: members =>
    .text ['\n', ' ', ' '] :: .element (memberDocument kind m) :: insideDocument kind members

/-- The element that a command is read as. -/
def document (c : Command) : Xml.Element :=
  .mk (String.ofList (vectorTagName c.kind)) (c.vectorAttributes.map readAttribute)
    (insideDocument c.kind c.members)

/-- The tag of a member is read with its name attribute normalised. -/
theorem openTag?_member (kind : VectorKind) (m : String × String) :
    Xml.openTag? [] (plainName (memberTagName kind)) ((memberAttributes m).map scannedAttribute) =
      some ((memberAttributes m).map readAttribute, []) := by
  refine Xml.openTag?_plain ?_ ?_
  · simp only [memberAttributes, List.forall_mem_cons]
    exact ⟨by decide, List.forall_mem_nil _⟩
  · show ["name"].Nodup
    decide

/-- The tag of a vector is read with its device and its name normalised. -/
theorem openTag?_vector (c : Command) :
    Xml.openTag? [] (plainName (vectorTagName c.kind)) (c.vectorAttributes.map scannedAttribute) =
      some (c.vectorAttributes.map readAttribute, []) := by
  refine Xml.openTag?_plain ?_ ?_
  · simp only [vectorAttributes, List.forall_mem_cons]
    exact ⟨by decide, by decide, List.forall_mem_nil _⟩
  · show ["device", "name"].Nodup
    decide

section Fold

variable {o : OpenElement} {outer : List OpenElement} {root : Option Xml.Element}

/-- With an element open, the tokens of a member add `memberDocument` to its children. -/
theorem foldlM_memberTokens (ho : o.scope = []) (kind : VectorKind) (m : String × String) :
    (memberTokens kind m).foldlM Partial.step? ⟨o :: outer, root⟩ =
      some ⟨o.push (.element (memberDocument kind m)) :: outer, root⟩ := by
  -- What stands between the two tags is one text, or nothing if the value is empty.
  have hvalue : ∀ inner : OpenElement, inner.children = [] →
      (if m.2.toList = [] then [] else [Xml.Token.text (escape m.2.toList)]).foldlM Partial.step?
        ⟨inner :: o :: outer, root⟩ = some ⟨{ inner with children :=
          if m.2.toList = [] then [] else [.text (lined false m.2.toList)] } :: o :: outer,
            root⟩ := by
    rintro ⟨name, attributes, scope, children⟩ rfl
    have hfirst : ∀ before others, ([] : List Xml.Content) ≠ .text before :: others := nofun
    by_cases hempty : m.2.toList = []
    · rw [if_pos hempty, if_pos hempty]
      rfl
    · rw [if_neg hempty, if_neg hempty, List.foldlM_cons,
        Partial.step?_text (Xml.textValue?_escape _) hfirst]
      rfl
  have hscope : ((o :: outer).head?.map OpenElement.scope).getD [] = [] := ho
  have hroot : o :: outer = [] → root = none := nofun
  have helement := Partial.foldlM_element hscope hroot (openTag?_member kind m)
    (hvalue ⟨plainName (memberTagName kind), (memberAttributes m).map readAttribute, [], []⟩ rfl)
  rw [memberTokens, helement, memberDocument]
  split <;> rfl

/-- With an element open, the tokens in a vector add `insideDocument` to its children, behind those
    that it has. -/
theorem foldlM_insideTokens (kind : VectorKind) (members : List (String × String))
    (ho : o.scope = []) (hchildren : ∀ before others, o.children ≠ .text before :: others) :
    (insideTokens kind members).foldlM Partial.step? ⟨o :: outer, root⟩ =
      some ⟨{ o with children := (insideDocument kind members).reverse ++ o.children } :: outer,
        root⟩ := by
  induction members generalizing o with
  | nil =>
    have hline : Xml.textValue? ['\n'] = some ['\n'] := by decide
    rw [insideTokens, List.foldlM_cons, Partial.step?_text hline hchildren]
    rfl
  | cons m members ih =>
    have hline : Xml.textValue? ['\n', ' ', ' '] = some ['\n', ' ', ' '] := by decide
    -- Behind a member there is an element, so the next line begins a text of its own.
    have hnext : ∀ before others, ((o.push (.text ['\n', ' ', ' '])).push
        (.element (memberDocument kind m))).children ≠ .text before :: others := nofun
    have hpushed : (o.push (.text ['\n', ' ', ' '])).scope = [] := ho
    have hscope : ((o.push (.text ['\n', ' ', ' '])).push
        (.element (memberDocument kind m))).scope = [] := ho
    rw [insideTokens, List.foldlM_cons, Partial.step?_text hline hchildren, Option.bind_eq_bind,
      Option.bind_some, List.foldlM_append, foldlM_memberTokens hpushed, Option.bind_eq_bind,
      Option.bind_some, ih hscope hnext]
    simp [insideDocument, OpenElement.push]

end Fold

/-- The tokens of a command make the element `document`. -/
theorem ofTokens?_tokens (c : Command) : Xml.Element.ofTokens? c.tokens = some c.document := by
  have hinside : (insideTokens c.kind c.members).foldlM Partial.step?
      ⟨[⟨plainName (vectorTagName c.kind), c.vectorAttributes.map readAttribute, [], []⟩], none⟩ =
        some ⟨[⟨plainName (vectorTagName c.kind), c.vectorAttributes.map readAttribute, [],
          (insideDocument c.kind c.members).reverse ++ []⟩], none⟩ :=
    foldlM_insideTokens c.kind c.members rfl nofun
  have helement := Partial.foldlM_element rfl (fun _ => rfl) (openTag?_vector c) hinside
  rw [List.append_nil, List.reverse_reverse] at helement
  -- Behind the element there is only the last line feed, which adds nothing.
  have hsplit : c.tokens = (.opening (plainName (vectorTagName c.kind))
      (c.vectorAttributes.map scannedAttribute) false ::
        (insideTokens c.kind c.members ++ [.closing (plainName (vectorTagName c.kind))])) ++
      [.text ['\n']] := by
    simp [tokens]
  have hfold : c.tokens.foldlM Partial.step? {} = some ⟨[], some c.document⟩ := by
    rw [hsplit, List.foldlM_append, helement]
    rfl
  rw [Xml.Element.ofTokens?, hfold]
  rfl

/-! ### What is read -/

/-- Whether a document may hold every character of a text. -/
def allowed (text : String) : Bool := text.toList.all Xml.isAllowed

/-- Whether a document may hold every character of a command. -/
def isAllowed (c : Command) : Bool :=
  allowed c.device && allowed c.name && c.members.all fun m => allowed m.1 && allowed m.2

theorem isAllowed_mark : ∀ c ∈ ['\n', ' ', '<', '>', '/', '=', '"'], Xml.isAllowed c = true :=
  List.all_eq_true.1 (by decide)

/-- In written attributes only the values may hold characters that a document may not. -/
theorem all_isAllowed_writtenAttributes {attributes : List (List Char × List Char)}
    (h : ∀ a ∈ attributes, a.1.all Xml.isAllowed = true) :
    (writtenAttributes attributes).all Xml.isAllowed =
      attributes.all fun a => a.2.all Xml.isAllowed := by
  have hmarks := isAllowed_mark
  simp only [List.forall_mem_cons] at hmarks
  induction attributes with
  | nil => rfl
  | cons a attributes ih =>
    obtain ⟨ha, hattributes⟩ := List.forall_mem_cons.1 h
    simp only [writtenAttributes, List.cons_append, List.all_cons, List.all_append,
      Xml.all_isAllowed_escape, ih hattributes, ha, hmarks, Bool.true_and]

/-- In the lines of the members only their names and values may hold characters that a document may
    not. -/
theorem all_isAllowed_insideChars (kind : VectorKind) (members : List (String × String))
    (rest : List Char) : (insideChars kind members rest).all Xml.isAllowed =
      ((members.all fun m => allowed m.1 && allowed m.2) && rest.all Xml.isAllowed) := by
  have hname : (memberTagName kind).all Xml.isAllowed = true := by cases kind <;> decide
  have hfixed : "name".toList.all Xml.isAllowed = true := by decide
  have hmarks := isAllowed_mark
  simp only [List.forall_mem_cons] at hmarks
  induction members with
  | nil => simp [insideChars, hmarks]
  | cons m members ih =>
    -- The key of the attribute is fixed, so only the name of the member matters.
    have hattributes :
        (writtenAttributes (memberAttributes m)).all Xml.isAllowed = allowed m.1 := by
      rw [memberAttributes,
        all_isAllowed_writtenAttributes (List.forall_mem_singleton.2 hfixed)]
      exact Bool.and_true _
    have hvalue : m.2.toList.all Xml.isAllowed = allowed m.2 := rfl
    simp only [insideChars, memberChars, List.all_cons, List.all_append, hattributes, hname,
      Xml.all_isAllowed_escape, hvalue, hmarks, ih, Bool.true_and, Bool.and_assoc]

/-- The text of a command is allowed in a document if and only if its names and values are. -/
theorem all_isAllowed_toXml (c : Command) : c.toXml.toList.all Xml.isAllowed = c.isAllowed := by
  have hname : (vectorTagName c.kind).all Xml.isAllowed = true := by cases c.kind <;> decide
  have hmarks := isAllowed_mark
  simp only [List.forall_mem_cons] at hmarks
  have hattributes : (writtenAttributes c.vectorAttributes).all Xml.isAllowed =
      (allowed c.device && allowed c.name) := by
    rw [all_isAllowed_writtenAttributes (by
      simp only [vectorAttributes, List.forall_mem_cons]
      exact ⟨by decide, by decide, List.forall_mem_nil _⟩)]
    exact congrArg (allowed c.device && ·) (Bool.and_true _)
  simp only [toList_toXml, List.all_cons, List.all_append, all_isAllowed_insideChars, hattributes,
    hname, hmarks, List.all_nil, Bool.and_true, Bool.true_and, isAllowed]

/-- **The document of a command.** If a document may hold its characters, the text of a command is
    the document `document`; otherwise it is none. -/
theorem ofText?_toXml (c : Command) :
    Xml.Element.ofText? c.toXml = if c.isAllowed then some c.document else none := by
  -- It begins with the bracket of a tag, so there is no declaration in front of it.
  have hafter : Xml.Token.afterDeclaration? c.toXml.toList = some c.toXml.toList := by
    obtain ⟨rest, hrest⟩ : ∃ rest, c.toXml.toList = '<' :: 'n' :: rest := by
      rw [toList_toXml]
      cases c.kind <;> exact ⟨_, rfl⟩
    rw [hrest]
    rfl
  rw [Xml.Element.ofText?, Xml.Token.ofDocument?, all_isAllowed_toXml, hafter]
  split
  · rw [Option.bind_some, scan?_toXml, Option.bind_some, ofTokens?_tokens]
  · rfl

/-- What is found in the element of a member is its name and its value as they are read. -/
theorem memberOfElement?_document (kind : VectorKind) (m : String × String) :
    memberOfElement? kind (memberDocument kind m) = some (spacedText m.1, linedText m.2) := by
  have hname : (memberDocument kind m).name = "one" ++ kind.name := String.ofList_toList
  have hattribute : (memberDocument kind m).attribute? "name" = some (spacedText m.1) := by
    simp [Xml.Element.attribute?, memberDocument, Xml.Element.attributes, memberAttributes,
      readAttribute, spacedText]
  have hvalue : (memberDocument kind m).leadingText = linedText m.2 := by
    rw [Xml.Element.leadingText, memberDocument, Xml.Element.children, linedText]
    by_cases hempty : m.2.toList = []
    · rw [if_pos hempty, hempty]
      rfl
    · rw [if_neg hempty]
  rw [memberOfElement?, if_pos hname, hattribute, hvalue]
  rfl

/-- What is found in the document of a command are its members in their order, as they are read. -/
theorem mapM_memberOfElement? (kind : VectorKind) (members : List (String × String)) :
    ((insideDocument kind members).filterMap fun
      | .element child => some child
      | _ => none).mapM (memberOfElement? kind) =
        some (members.map fun m => (spacedText m.1, linedText m.2)) := by
  induction members with
  | nil => rfl
  | cons m members ih =>
    rw [insideDocument, List.filterMap_cons, List.filterMap_cons]
    dsimp only
    rw [List.mapM_cons, memberOfElement?_document, ih]
    rfl

/-- The command that is found in the document of `c` is `c.asRead`. -/
theorem ofElement?_document (c : Command) : ofElement? c.document = some c.asRead := by
  have hkind : VectorKind.ofTag? "new" "Vector" c.document.name = some c.kind := by
    rw [document, Xml.Element.name, vectorTagName, String.ofList_toList]
    cases c.kind <;> decide
  have hdevice : c.document.attribute? "device" = some (spacedText c.device) := by
    simp [Xml.Element.attribute?, document, Xml.Element.attributes, vectorAttributes,
      readAttribute, spacedText]
  have hname : c.document.attribute? "name" = some (spacedText c.name) := by
    simp [Xml.Element.attribute?, document, Xml.Element.attributes, vectorAttributes,
      readAttribute, spacedText]
  have hmembers : c.document.elements.mapM (memberOfElement? c.kind) = some c.asRead.members :=
    mapM_memberOfElement? c.kind c.members
  rw [ofElement?, hkind, hdevice, hname]
  simp only [Option.bind_eq_bind, Option.bind_some, hmembers]
  rfl

/-- **What is read of a command.** If a document may hold its characters, a reader finds the
    command `asRead`: its kind, and its names, members and values with white space normalised;
    otherwise the text is no document.  What is found is the command itself if and only if it is
    `Lossless`. -/
theorem read_back (c : Command) :
    (Xml.Element.ofText? c.toXml).bind ofElement? = (if c.isAllowed then some c.asRead else none) ∧
      (c.asRead = c ↔ c.Lossless) := by
  refine ⟨?_, asRead_eq_self⟩
  rw [ofText?_toXml]
  split
  · exact ofElement?_document c
  · rfl

/-- A command with a line feed in the name of its device and a carriage return in a value. -/
def twoLines : Command :=
  { kind := .text, device := "a\nb", name := "V", members := [("M", "x\ry")] }

/-- A document may hold the command `twoLines`, but a reader finds a space in the name of the
    device and a line feed in the value, because neither was escaped.  So a command that is written
    is not always the one that is read. -/
theorem twoLines_changed : twoLines.isAllowed = true ∧
    (Xml.Element.ofText? twoLines.toXml).bind ofElement? =
      some { kind := .text, device := "a b", name := "V", members := [("M", "x\ny")] } ∧
    twoLines.asRead ≠ twoLines := by
  have hallowed : twoLines.isAllowed = true := by decide
  have hread : twoLines.asRead =
      { kind := .text, device := "a b", name := "V", members := [("M", "x\ny")] } := by decide
  refine ⟨hallowed, ?_, by decide⟩
  rw [ofText?_toXml, if_pos hallowed, Option.bind_some, ofElement?_document, hread]

end Command

end Observatory
