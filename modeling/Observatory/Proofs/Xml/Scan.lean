import Mathlib.Data.List.TakeDrop
import Mathlib.Data.List.TakeWhile
import Observatory.Xml.Element
import Observatory.Proofs.Xml.Escape

/-!
# Tags and texts as a reader scans them

Tags that are written with plain names and escaped values, and texts between them, are scanned one
by one.

* `Xml.PlainName`: names without a colon;
* `Xml.writtenAttributes`: attributes with escaped values;
* `Xml.Token.next?_opening`, `Xml.Token.next?_closing`, `Xml.Token.next?_text`: the token at the
  head of a document;
* `Xml.Token.scan?_opening`, `Xml.Token.scan?_closing`, `Xml.Token.scan?_text`: it, and the tokens
  behind it;
* `Xml.openTag?_plain`: the attributes of a tag as they are read;
* `Xml.Partial.foldlM_element`, `Xml.Partial.step?_text`: the element that some tokens are.
-/

namespace Observatory

namespace Xml

/-! ### Names -/

/-- A name that a reader takes for one, without a colon in it. -/
structure PlainName (cs : List Char) : Prop where
  start : Token.isName cs = true
  part : ∀ c ∈ cs, isNamePart c = true

instance (cs : List Char) : Decidable (PlainName cs) :=
  decidable_of_iff (Token.isName cs = true ∧ cs.all isNamePart = true)
    ⟨fun h => ⟨h.1, List.all_eq_true.1 h.2⟩, fun h => ⟨h.start, List.all_eq_true.2 h.part⟩⟩

/-- The `QName` of a tag or an attribute that has no prefix. -/
def plainName (cs : List Char) : QName := ⟨"", String.ofList cs⟩

/-- The characters of some attributes as they are written behind the name of a tag: a space, the
    name, and the escaped value in double quotes. -/
def writtenAttributes : List (List Char × List Char) → List Char
  | [] => []
  | a :: rest => ' ' :: a.1 ++ '=' :: '"' :: escape a.2 ++ '"' :: writtenAttributes rest

/-- The `WrittenAttribute` that the scanner makes of one of these attributes. -/
def scannedAttribute (a : List Char × List Char) : WrittenAttribute := ⟨plainName a.1, escape a.2⟩

/-- `takeWhile` and `dropWhile` cut at the end of `body` if all of `body` satisfies `p` and what
    follows begins with a character that does not.  Every scan up to a mark is a case of this. -/
theorem cut_append {p : Char → Bool} {body : List Char} (hbody : ∀ c ∈ body, p c = true)
    (rest : List Char) (hrest : ∀ c, rest.head? = some c → p c = false) :
    (body ++ rest).takeWhile p = body ∧ (body ++ rest).dropWhile p = rest := by
  rw [List.takeWhile_append_of_pos hbody, List.dropWhile_append_of_pos hbody]
  cases rest with
  | nil => exact ⟨List.append_nil body, rfl⟩
  | cons c rest =>
    have hc : ¬ p c = true := Bool.eq_false_iff.1 (hrest c rfl)
    rw [List.takeWhile_cons_of_neg hc, List.dropWhile_cons_of_neg hc, List.append_nil]
    exact ⟨rfl, rfl⟩

namespace PlainName

variable {name : List Char}

/-- A plain name begins with a character that may begin names. -/
theorem exists_cons (h : PlainName name) :
    ∃ c rest, name = c :: rest ∧ isNameStart c = true := by
  cases name with
  | nil => exact absurd h.start nofun
  | cons c rest => exact ⟨c, rest, rfl, h.start⟩

/-- A plain name does not begin with a character that may not begin names. -/
theorem append_ne (h : PlainName name) {c : Char} (hc : isNameStart c = false)
    (rest rest' : List Char) : name ++ rest ≠ c :: rest' := by
  obtain ⟨d, more, rfl, hd⟩ := h.exists_cons
  intro heq
  rw [(List.cons.inj heq).1, hc] at hd
  cases hd

/-- `skipSpaces` in front of a plain name drops the one space and stops. -/
theorem skipSpaces (h : PlainName name) (rest : List Char) :
    Xml.skipSpaces (' ' :: (name ++ rest)) = name ++ rest := by
  obtain ⟨c, more, rfl, hc⟩ := h.exists_cons
  have hspace : ¬ isSpace c = true := by
    simp only [isSpace, Bool.or_eq_true, decide_eq_true_eq, not_or]
    refine ⟨⟨⟨?_, ?_⟩, ?_⟩, ?_⟩ <;> rintro rfl <;> exact absurd hc (by decide)
  rw [Xml.skipSpaces, List.dropWhile_cons_of_pos (by decide), List.cons_append,
    List.dropWhile_cons_of_neg hspace]

end PlainName

namespace Token

variable {name cs rest : List Char}

/-- A plain name is split into an empty prefix and itself. -/
theorem qname?_plainName (h : PlainName name) : qname? name = some (plainName name) := by
  have hcolon : ∀ c ∈ name, (decide (c ≠ ':')) = true := by
    rintro c hc
    refine decide_eq_true ?_
    rintro rfl
    exact absurd (h.part _ hc) (by decide)
  rw [qname?, List.span_eq_takeWhile_dropWhile, List.takeWhile_eq_self_iff.2 hcolon,
    List.dropWhile_eq_nil_iff.2 hcolon]
  exact if_pos h.start

/-- A plain name is read up to the first character that belongs to no name. -/
theorem readName?_plainName (h : PlainName name) {c : Char} (hc : isQNamePart c = false)
    (rest : List Char) : readName? (name ++ c :: rest) = some (plainName name, c :: rest) := by
  have hpart : ∀ d ∈ name, isQNamePart d = true := by
    intro d hd
    rw [isQNamePart, h.part d hd, Bool.or_true]
  obtain ⟨htake, hdrop⟩ := cut_append hpart (c :: rest)
    fun d hd => (Option.some.inj hd) ▸ hc
  rw [readName?, htake, hdrop, qname?_plainName h]
  rfl

/-! ### Tags -/

/-- A quoted escaped value is read up to its closing quote, since the value itself holds no
    quote. -/
theorem readValue?_escape (cs rest : List Char) :
    readValue? ('"' :: (escape cs ++ '"' :: rest)) = some (escape cs, rest) := by
  have hinside : ∀ c ∈ escape cs, (c ≠ '"' && c ≠ '<') = true := by
    intro c hc
    have hquote : c ≠ '"' := fun h => not_mem_escape (by decide) cs (h ▸ hc)
    have hbracket : c ≠ '<' := fun h => not_mem_escape (by decide) cs (h ▸ hc)
    simp [hquote, hbracket]
  obtain ⟨htake, hdrop⟩ := cut_append hinside ('"' :: rest)
    fun c hc => (Option.some.inj hc) ▸ rfl
  rw [readValue?]
  simp only [decide_true, Bool.true_or, if_true]
  rw [htake, hdrop]
  rfl

/-- One attribute is read as `scannedAttribute` of it, in front of any rest. -/
theorem readAttribute?_written (h : PlainName name) (cs rest : List Char) :
    readAttribute? (name ++ '=' :: '"' :: (escape cs ++ '"' :: rest)) =
      some (scannedAttribute (name, cs), rest) := by
  have hsign : afterSign? '=' ('=' :: '"' :: (escape cs ++ '"' :: rest)) =
      some ('"' :: (escape cs ++ '"' :: rest)) := rfl
  rw [readAttribute?, readName?_plainName h (by decide), Option.bind_eq_bind, Option.bind_some]
  dsimp only
  rw [hsign, Option.bind_eq_bind, Option.bind_some, readValue?_escape]
  rfl

/-- All attributes of a tag are read in their order, up to the bracket that closes the tag, by
    induction on the attributes. -/
theorem readAttributes?_written {attributes : List (List Char × List Char)}
    (h : ∀ a ∈ attributes, PlainName a.1) (rest : List Char) :
    readAttributes? (writtenAttributes attributes ++ '>' :: rest) =
      some (attributes.map scannedAttribute, false, rest) := by
  induction attributes with
  | nil =>
    rw [readAttributes?]
    rfl
  | cons a attributes ih =>
    obtain ⟨ha, hattributes⟩ := List.forall_mem_cons.1 h
    have hread := readAttribute?_written ha a.2
      (writtenAttributes attributes ++ '>' :: rest)
    have hcons : writtenAttributes (a :: attributes) ++ '>' :: rest = ' ' :: (a.1 ++ '=' :: '"' ::
        (escape a.2 ++ '"' :: (writtenAttributes attributes ++ '>' :: rest))) := by
      simp [writtenAttributes]
    have hskip : skipSpaces (' ' :: (a.1 ++ '=' :: '"' ::
        (escape a.2 ++ '"' :: (writtenAttributes attributes ++ '>' :: rest)))) =
        a.1 ++ '=' :: '"' :: (escape a.2 ++ '"' :: (writtenAttributes attributes ++ '>' :: rest)) :=
      ha.skipSpaces _
    -- What follows the space is neither of the two ends of a tag, as a name begins there.
    rw [readAttributes?, hcons, hskip]
    split
    · next heq => exact absurd heq (ha.append_ne (by decide) _ _)
    · next heq => exact absurd heq (ha.append_ne (by decide) _ _)
    · rw [if_pos (by rfl), hread]
      dsimp only
      rw [dif_pos (by simp; omega), ih hattributes]
      rfl

/-- At the head of a document, an opening tag with `writtenAttributes` is the token of that tag. -/
theorem next?_opening (h : PlainName name) {attributes : List (List Char × List Char)}
    (ha : ∀ a ∈ attributes, PlainName a.1) (rest : List Char) :
    next? ('<' :: (name ++ (writtenAttributes attributes ++ '>' :: rest))) =
      some (.opening (plainName name) (attributes.map scannedAttribute) false, rest) := by
  -- The name ends at the first attribute, or at the bracket if there is none.
  have hname : readName? (name ++ (writtenAttributes attributes ++ '>' :: rest)) =
      some (plainName name, writtenAttributes attributes ++ '>' :: rest) := by
    cases attributes with
    | nil => exact readName?_plainName h (by decide) rest
    | cons a attributes => exact readName?_plainName h (by decide) _
  have hread : readOpening? (name ++ (writtenAttributes attributes ++ '>' :: rest)) =
      some (.opening (plainName name) (attributes.map scannedAttribute) false, rest) := by
    rw [readOpening?, hname, Option.bind_eq_bind, Option.bind_some]
    dsimp only
    rw [readAttributes?_written ha]
    rfl
  rw [next?, hread]
  all_goals exact fun _ heq => h.append_ne (by decide) _ _ heq

/-- At the head of a document, a closing tag is the token of that tag. -/
theorem next?_closing (h : PlainName name) (rest : List Char) :
    next? ('<' :: '/' :: (name ++ '>' :: rest)) = some (.closing (plainName name), rest) := by
  show readClosing? (name ++ '>' :: rest) = _
  rw [readClosing?, readName?_plainName h (by decide)]
  rfl

/-- A text that lacks one character of `part` has no occurrence of `part`. -/
theorem occursIn_eq_false {part : List Char} {c : Char} (hc : c ∈ part) (h : c ∉ cs) :
    occursIn part cs = false := by
  rw [occursIn]
  induction cs with
  | nil =>
    rw [splitBefore?, if_neg]
    · rfl
    · rw [List.isEmpty_iff]
      exact List.ne_nil_of_mem hc
  | cons d cs ih =>
    have hprefix : ¬ part.isPrefixOf (d :: cs) = true := fun hpart =>
      h ((List.isPrefixOf_iff_prefix.1 hpart).subset hc)
    rw [splitBefore?, if_neg hprefix, Option.isSome_map]
    exact ih fun hmem => h (List.mem_cons_of_mem d hmem)

/-- At the head of a document, characters up to the next bracket or up to the end are one text
    token, if `]]>` does not occur in them. -/
theorem next?_text {words : List Char} (hne : words ≠ []) (hplain : '<' ∉ words)
    (hsection : occursIn [']', ']', '>'] words = false)
    (hrest : rest = [] ∨ rest.head? = some '<') :
    next? (words ++ rest) = some (.text words, rest) := by
  have hinside : ∀ c ∈ words, (decide (c ≠ '<')) = true := by
    intro c hc
    refine decide_eq_true ?_
    rintro rfl
    exact hplain hc
  -- The text ends where the next bracket stands, or with the document.
  have hread : readText? (words ++ rest) = some (.text words, rest) := by
    obtain ⟨htake, hdrop⟩ := cut_append hinside rest fun c hc => by
      rcases hrest with rfl | hhead
      · cases hc
      · exact (Option.some.inj (hhead.symm.trans hc)) ▸ rfl
    rw [readText?, htake, hdrop, hsection, if_neg Bool.false_ne_true]
  obtain ⟨c, more, rfl⟩ := List.exists_cons_of_ne_nil hne
  have hc : c ≠ '<' := fun h => hplain (h ▸ List.mem_cons_self)
  rw [next?, hread]
  all_goals
    intros
    exact absurd (List.cons.inj ‹_›).1 hc

/-- `scan?` is the first token, followed by the tokens of what is behind it.  The length is what
    the recursion of `scan?` is on. -/
theorem scan?_cons {t : Token} (h : next? cs = some (t, rest)) (hlen : rest.length < cs.length) :
    scan? cs = (scan? rest).map (t :: ·) := by
  have hne : ¬ cs.isEmpty = true := by
    rw [List.isEmpty_iff]
    rintro rfl
    exact absurd hlen (Nat.not_lt_zero _)
  rw [scan?, if_neg hne, h]
  exact dif_pos hlen

theorem scan?_nil : scan? [] = some [] := by
  rw [scan?]
  rfl

/-- `scan?` on an opening tag and any rest. -/
theorem scan?_opening (h : PlainName name) {attributes : List (List Char × List Char)}
    (ha : ∀ a ∈ attributes, PlainName a.1) (rest : List Char) :
    scan? ('<' :: (name ++ (writtenAttributes attributes ++ '>' :: rest))) =
      (scan? rest).map
        (.opening (plainName name) (attributes.map scannedAttribute) false :: ·) :=
  scan?_cons (next?_opening h ha rest) (by simp; omega)

/-- `scan?` on a closing tag and any rest. -/
theorem scan?_closing (h : PlainName name) (rest : List Char) :
    scan? ('<' :: '/' :: (name ++ '>' :: rest)) =
      (scan? rest).map (.closing (plainName name) :: ·) :=
  scan?_cons (next?_closing h rest) (by simp; omega)

/-- `scan?` on a text and a rest that is empty or begins with a tag. -/
theorem scan?_text {words : List Char} (hne : words ≠ []) (hplain : '<' ∉ words)
    (hsection : occursIn [']', ']', '>'] words = false)
    (hrest : rest = [] ∨ rest.head? = some '<') :
    scan? (words ++ rest) = (scan? rest).map (.text words :: ·) :=
  scan?_cons (next?_text hne hplain hsection hrest) (by
    rw [List.length_append]
    exact Nat.lt_add_of_pos_left (List.length_pos_iff.2 hne))

end Token

/-! ### Attributes -/

/-- An attribute as the reader hands it out: without a namespace, and with its value normalised by
    `spaced`. -/
def readAttribute (a : List Char × List Char) : Attribute :=
  ⟨none, String.ofList a.1, String.ofList (spaced a.2)⟩

variable {attributes : List (List Char × List Char)}

/-- `TagFacts.add?` collects attributes that declare no namespace behind the others, with their
    values normalised. -/
theorem foldlM_add?_scanned (h : ∀ a ∈ attributes, String.ofList a.1 ≠ "xmlns")
    (facts : TagFacts) : (attributes.map scannedAttribute).foldlM TagFacts.add? facts =
      some { facts with others := facts.others ++
        (attributes.map fun a => (plainName a.1, String.ofList (spaced a.2))) } := by
  induction attributes generalizing facts with
  | nil => simp
  | cons a attributes ih =>
    obtain ⟨ha, hattributes⟩ := List.forall_mem_cons.1 h
    have hadd : facts.add? (scannedAttribute a) = some { facts with
        others := facts.others ++ [(plainName a.1, String.ofList (spaced a.2))] } := by
      simp [TagFacts.add?, scannedAttribute, plainName, attributeValue?_escape, ha]
    rw [List.map_cons, List.foldlM_cons, hadd, Option.bind_eq_bind, Option.bind_some,
      ih hattributes]
    simp

/-- Attributes without prefixes are resolved to themselves if their names differ.  The induction is
    on the attributes with those already resolved (`done`) arbitrary, since a name must be new
    among these as well. -/
theorem resolveAttributes?_plain (scope : Scope)
    (h : (attributes.map fun a => String.ofList a.1).Nodup) :
    resolveAttributes? scope
      (attributes.map fun a => (plainName a.1, String.ofList (spaced a.2))) =
        some (attributes.map readAttribute) := by
  have hfold : ∀ (attributes : List (List Char × List Char)) (done : List Attribute),
      (done.map Attribute.name ++ attributes.map fun a => String.ofList a.1).Nodup →
      (attributes.map fun a => (plainName a.1, String.ofList (spaced a.2))).foldlM
        (fun (done : List Attribute) (p : QName × String) => do
          let a ← resolveAttribute? scope p.1 p.2
          if done.any fun b => b.space = a.space && b.name = a.name then none
          else some (done ++ [a])) done = some (done ++ attributes.map readAttribute) := by
    intro attributes
    induction attributes with
    | nil => simp
    | cons a attributes ih =>
      intro done hnames
      -- None of those resolved so far has the name of this one.
      have hfresh : ¬ (done.any fun b =>
          b.space = (readAttribute a).space && b.name = (readAttribute a).name) = true := by
        rw [Bool.not_eq_true, List.any_eq_false]
        intro b hb
        have hne := (List.nodup_append.1 hnames).2.2 _ (List.mem_map_of_mem hb) _ List.mem_cons_self
        simp [readAttribute, hne]
      have hnext : ((done ++ [readAttribute a]).map Attribute.name ++
          attributes.map fun a => String.ofList a.1).Nodup := by
        rwa [List.map_append, List.append_assoc]
      have hresolve : resolveAttribute? scope (plainName a.1) (String.ofList (spaced a.2)) =
          some (readAttribute a) := rfl
      rw [List.map_cons, List.foldlM_cons]
      dsimp only
      rw [hresolve, Option.bind_eq_bind, Option.bind_eq_bind, Option.bind_some, if_neg hfresh,
        Option.bind_some]
      refine (ih _ hnext).trans ?_
      rw [List.append_assoc]
      rfl
  exact hfold attributes [] h

/-- **Tags.** A tag without prefixes and namespace declarations is read with `readAttribute` of
    each of its attributes, and declares nothing. -/
theorem openTag?_plain {name : List Char} (h : ∀ a ∈ attributes, String.ofList a.1 ≠ "xmlns")
    (hnodup : (attributes.map fun a => String.ofList a.1).Nodup) :
    openTag? [] (plainName name) (attributes.map scannedAttribute) =
      some (attributes.map readAttribute, []) := by
  rw [openTag?, foldlM_add?_scanned h]
  show (resolveAttributes? [] (attributes.map fun a =>
    (plainName a.1, String.ofList (spaced a.2)))).bind _ = _
  rw [resolveAttributes?_plain _ hnodup]
  rfl

/-! ### Elements -/

/-- **Elements.** An opening tag, tokens that add `children` inside it, and the closing tag make
    one element.  The hypothesis `hinside` is about the tokens inside alone, so that elements are
    read from the inside out. -/
theorem Partial.foldlM_element {stack : List OpenElement} {root : Option Element} {name : QName}
    {written : List WrittenAttribute} {attributes : List Attribute} {inside : List Token}
    {children : List Content} (hscope : (stack.head?.map OpenElement.scope).getD [] = [])
    (hroot : stack = [] → root = none)
    (htag : openTag? [] name written = some (attributes, []))
    (hinside : inside.foldlM step? ⟨⟨name, attributes, [], []⟩ :: stack, root⟩ =
      some ⟨⟨name, attributes, [], children⟩ :: stack, root⟩) :
    (.opening name written false :: (inside ++ [.closing name])).foldlM step? ⟨stack, root⟩ =
      some (close ⟨stack, root⟩ (.mk name.name attributes children.reverse) stack) := by
  -- The opening tag puts a new element on the stack.
  have hopen : step? ⟨stack, root⟩ (.opening name written false) =
      some ⟨⟨name, attributes, [], []⟩ :: stack, root⟩ := by
    have hfirst : ¬ (stack.isEmpty && root.isSome) = true := by
      cases stack with
      | nil => rw [hroot rfl]; decide
      | cons o outer => exact Bool.false_ne_true
    rw [step?]
    dsimp only
    rw [if_neg hfirst, hscope, htag]
    rfl
  have hclose : step? ⟨⟨name, attributes, [], children⟩ :: stack, root⟩ (.closing name) =
      some (close ⟨stack, root⟩ (.mk name.name attributes children.reverse) stack) := by
    rw [step?]
    dsimp only
    rw [if_pos rfl]
    cases stack <;> rfl
  rw [List.foldlM_cons, hopen, Option.bind_eq_bind, Option.bind_some, List.foldlM_append, hinside,
    Option.bind_eq_bind, Option.bind_some, List.foldlM_cons, hclose]
  rfl

/-- A text token becomes one more child of the open element, if the child before it is no text,
    with which it would be joined. -/
theorem Partial.step?_text {o : OpenElement} {outer : List OpenElement} {root : Option Element}
    {cs value : List Char} (hvalue : textValue? cs = some value)
    (hchildren : ∀ before others, o.children ≠ .text before :: others) :
    step? ⟨o :: outer, root⟩ (.text cs) = some ⟨o.push (.text value) :: outer, root⟩ := by
  rw [step?]
  dsimp only
  rw [hvalue, Option.map_some, OpenElement.pushText]
  split
  · next before others heq => exact absurd heq (hchildren before others)
  · rfl

end Xml

end Observatory
