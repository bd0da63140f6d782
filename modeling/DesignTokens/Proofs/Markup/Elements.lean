import DesignTokens.Proofs.Markup.Pieces
import Mathlib.Data.List.TakeWhile

/-!
# The elements of a marked-up text

`read?` reads a document: its declaration, comments, and one element, with blanks between them. The
pieces of the element are put together by a stack of the elements that are open (`content`). An
element that has no content is read if it has two tags, an attribute if it stands in double quotes.

`Reads cs text children` says that `cs` adds `text` and `children` to whatever element it stands in;
such texts may be put together (`Reads.append`), and put into an element (`reads_element`). So a
document is read back when its root is (`document?_cut`).
-/

namespace DesignTokens.Markup

/-! ### Tags -/

/-- A tag that opens or closes an element. -/
inductive Tag
  | opening (name : String) (attributes : List (String × String))
  | closing (name : String)

/-- A character of a name; digits, dots and dashes do not begin one. -/
def isNameChar (c : Char) : Bool :=
  c.isAlphanum || c == '_' || c == ':' || c == '.' || c == '-'

def isName (cs : List Char) : Bool :=
  cs.all isNameChar && cs.head?.any fun c => c.isAlpha || c == '_' || c == ':'

def name? (cs : List Char) : Option String :=
  if isName cs then some (String.ofList cs) else none

/-- The name of an attribute, with blanks before it and `=` behind it. -/
def attributeName? (cs : List Char) : Option String :=
  let key := cs.dropWhile Char.isWhitespace
  if key.length < cs.length ∧ key.getLast? = some '=' then name? key.dropLast else none

def Piece.char? : Piece → Option Char
  | char c => some c
  | _ => none

/-- The text of a value in which there is no markup. -/
def value? (cs : List Char) : Option String :=
  ((cut .content cs).bind fun pieces => pieces.mapM Piece.char?).map String.ofList

/-- The attributes of a tag, of which the text behind its name is cut at the quotes. -/
def attributes? : List (List Char) → Option (List (String × String))
  | [] => none
  | [behind] => if behind.all Char.isWhitespace then some [] else none
  | key :: value :: rest =>
    (attributeName? key).bind fun key => (value? value).bind fun value =>
      (attributes? rest).map ((key, value) :: ·)

def tag? : List Char → Option Tag
  | '/' :: cs => (name? cs).map .closing
  | cs =>
    (name? (cs.takeWhile isNameChar)).bind fun name =>
      (attributes? ((cs.dropWhile isNameChar).splitOn '"')).map (.opening name)

/-! ### Elements -/

/-- An element: its name, its attributes, the text that stands directly in it, and the elements in
it. -/
inductive Element
  | mk (name : String) (attributes : List (String × String)) (text : String)
      (children : List Element)

/-- What was read of an element that is open. -/
structure Frame where
  name : String
  attributes : List (String × String)
  text : List Char
  children : List Element

def Frame.element (frame : Frame) : Element :=
  .mk frame.name frame.attributes (String.ofList frame.text) frame.children

/-- The element with more text and more elements in it. -/
def Frame.add (frame : Frame) (text : List Char) (children : List Element) : Frame :=
  { frame with text := frame.text ++ text, children := frame.children ++ children }

/-- The element that stands open, read to its end, and the pieces behind it. `outer` are the open
elements that it stands in, the innermost one first. -/
def content (frame : Frame) (outer : List Frame) : List Piece → Option (Element × List Piece)
  | [] => none
  | .char c :: rest => content (frame.add [c] []) outer rest
  | .comment _ :: rest => content frame outer rest
  | .instruction _ :: _ => none
  | .tag body :: rest =>
    match tag? body with
    | some (.opening name attributes) => content ⟨name, attributes, [], []⟩ (frame :: outer) rest
    | some (.closing name) =>
      if name = frame.name then
        match outer with
        | [] => some (frame.element, rest)
        | parent :: outer => content (parent.add [] [frame.element]) outer rest
      else none
    | none => none

/-! ### Documents -/

/-- A document: its declaration, the comments before its root element, and the root element. -/
structure Document where
  declaration : String
  comments : List String
  root : Element

/-- The comments at the front, with blanks between them, and the pieces behind them. -/
def leading : List Piece → List String × List Piece
  | .char c :: rest => if c.isWhitespace then leading rest else ([], .char c :: rest)
  | .comment body :: rest => ((leading rest).1.cons (String.ofList body), (leading rest).2)
  | rest => ([], rest)

def element? : List Piece → Option (Element × List Piece)
  | .tag body :: rest =>
    match tag? body with
    | some (.opening name attributes) => content ⟨name, attributes, [], []⟩ [] rest
    | _ => none
  | _ => none

/-- The document of the pieces: a declaration, one element, comments and blanks. -/
def document? : List Piece → Option Document
  | .instruction ('x' :: 'm' :: 'l' :: ' ' :: declaration) :: rest =>
    (element? (leading rest).2).bind fun (root, behind) =>
      if (leading behind).2 = [] then
        some { declaration := String.ofList declaration, comments := (leading rest).1, root }
      else none
  | _ => none

/-- The document that the text is, up to the rules for single characters (`cut`). -/
def read? (text : String) : Option Document :=
  (cut .content text.toList).bind document?

/-! ### Texts in an element -/

/-- The text adds `text` and `children` to the element that it stands in. -/
def Reads (cs text : List Char) (children : List Element) : Prop :=
  ∃ pieces, Cuts cs pieces ∧ ∀ frame outer rest,
    content frame outer (pieces ++ rest) = content (frame.add text children) outer rest

theorem Frame.add_add (frame : Frame) (text more : List Char) (children others : List Element) :
    (frame.add text children).add more others = frame.add (text ++ more) (children ++ others) := by
  simp [add]

theorem reads_nil : Reads [] [] [] := by
  refine ⟨[], cuts_nil, fun frame outer rest => ?_⟩
  simp [Frame.add]

theorem Reads.append {cs ds text more : List Char} {children others : List Element}
    (h : Reads cs text children) (h' : Reads ds more others) :
    Reads (cs ++ ds) (text ++ more) (children ++ others) := by
  obtain ⟨pieces, cuts, adds⟩ := h
  obtain ⟨behind, cuts', adds'⟩ := h'
  refine ⟨pieces ++ behind, cuts.append cuts', fun frame outer rest => ?_⟩
  rw [List.append_assoc, adds, adds', Frame.add_add]

theorem content_map_char (text : List Char) (frame : Frame) (outer : List Frame)
    (rest : List Piece) :
    content frame outer (text.map .char ++ rest) = content (frame.add text []) outer rest := by
  induction text generalizing frame with
  | nil => simp [Frame.add]
  | cons c text ih =>
    rw [List.map_cons, List.cons_append, content, ih, Frame.add_add]
    rfl

/-- Escaped text adds the text. -/
theorem reads_entities (text : List Char) :
    Reads (text.flatMap Text.Literal.entity) text [] :=
  ⟨_, cuts_entities text, content_map_char text⟩

theorem reads_char {c : Char} (tag : c ≠ '<') (reference : c ≠ '&') : Reads [c] [c] [] :=
  ⟨_, cuts_char tag reference, content_map_char [c]⟩

theorem reads_comment {body : List Char} (h : CommentBody body) :
    Reads ("<!--".toList ++ body ++ "-->".toList) [] [] := by
  refine ⟨_, cuts_comment h, fun frame outer rest => ?_⟩
  simp [content, Frame.add]

/-! ### Names and values -/

theorem isNameChar_of_isName {cs : List Char} (h : isName cs) {c : Char} (hc : c ∈ cs) :
    isNameChar c := by
  simp only [isName, Bool.and_eq_true, List.all_eq_true] at h
  exact h.1 c hc

theorem exists_cons_of_isName {cs : List Char} (h : isName cs) :
    ∃ c rest, cs = c :: rest ∧ isNameChar c := by
  cases cs with
  | nil => simp [isName] at h
  | cons c rest => exact ⟨c, rest, rfl, isNameChar_of_isName h List.mem_cons_self⟩

theorem ne_of_isNameChar {c : Char} (h : isNameChar c) :
    c ≠ '<' ∧ c ≠ '>' ∧ c ≠ '"' ∧ c ≠ '/' ∧ c ≠ '!' ∧ c ≠ '?' := by
  refine ⟨?_, ?_, ?_, ?_, ?_, ?_⟩
  all_goals
    rintro rfl
    revert h
    decide

theorem not_mem_of_isName {cs : List Char} (h : isName cs) {c : Char}
    (other : isNameChar c = false) : c ∉ cs := by
  intro hc
  simp [isNameChar_of_isName h hc] at other

theorem quote_not_mem_entities (text : List Char) : '"' ∉ text.flatMap Text.Literal.entity := by
  intro h
  obtain ⟨c, -, hc⟩ := List.mem_flatMap.1 h
  unfold Text.Literal.entity at hc
  split at hc
  iterate 4 revert hc; decide
  next quote => exact quote (List.mem_singleton.1 hc).symm

theorem mapM_char?_map_char (text : List Char) : (text.map .char).mapM Piece.char? = some text := by
  induction text with
  | nil => rfl
  | cons c text ih =>
    rw [List.map_cons, List.mapM_cons, ih]
    rfl

theorem value?_entities (text : String) :
    value? (text.toList.flatMap Text.Literal.entity) = some text := by
  rw [value?, (cuts_entities text.toList).cut_eq, Option.bind_some, mapM_char?_map_char]
  simp

theorem not_isWhitespace_of_isNameChar {c : Char} (h : isNameChar c) :
    c.isWhitespace = false := by
  by_contra blank
  simp only [Char.isWhitespace, Bool.not_eq_false, Bool.or_eq_true, decide_eq_true_eq] at blank
  rcases blank with ((rfl | rfl) | rfl) | rfl <;> revert h <;> decide

/-! ### Tags of elements -/

/-- An attribute as it is written. -/
def attributeChars (key : String × String) : List Char :=
  ' ' :: key.1.toList ++ '=' :: '"' :: key.2.toList.flatMap Text.Literal.entity ++ ['"']

/-- What stands in an opening tag. -/
def openingChars (name : String) (attributes : List (String × String)) : List Char :=
  name.toList ++ attributes.flatMap attributeChars

theorem attributeName?_written {name : String} (h : isName name.toList) :
    attributeName? (' ' :: name.toList ++ ['=']) = some name := by
  obtain ⟨c, rest, hcs, hc⟩ := exists_cons_of_isName h
  have kept : (' ' :: name.toList ++ ['=']).dropWhile Char.isWhitespace = name.toList ++ ['='] := by
    rw [List.cons_append, List.dropWhile_cons_of_pos (by decide), hcs, List.cons_append,
      List.dropWhile_cons_of_neg (by simp [not_isWhitespace_of_isNameChar hc])]
  rw [attributeName?, kept]
  simp [name?, h]

/-- Cut at its quotes, an attribute is its name and its value. -/
theorem splitOn_attributeChars {name : String} (h : isName name.toList) (value : String)
    (rest : List Char) :
    (attributeChars (name, value) ++ rest).splitOn '"' =
      (' ' :: name.toList ++ ['=']) :: value.toList.flatMap Text.Literal.entity ::
        rest.splitOn '"' := by
  have key : '"' ∉ ' ' :: name.toList ++ ['='] := by
    simpa using not_mem_of_isName h (by decide)
  have text : attributeChars (name, value) ++ rest =
      (' ' :: name.toList ++ ['=']) ++
        '"' :: (value.toList.flatMap Text.Literal.entity ++ '"' :: rest) := by
    simp [attributeChars]
  rw [text, List.splitOn_append_cons_self_of_not_mem key,
    List.splitOn_append_cons_self_of_not_mem (quote_not_mem_entities _)]

theorem attributes?_written {attributes : List (String × String)}
    (names : ∀ key ∈ attributes, isName key.1.toList) :
    attributes? ((attributes.flatMap attributeChars).splitOn '"') = some attributes := by
  induction attributes with
  | nil => decide
  | cons key attributes ih =>
    obtain ⟨hkey, hrest⟩ := List.forall_mem_cons.1 names
    rw [List.flatMap_cons, splitOn_attributeChars hkey, attributes?, attributeName?_written hkey,
      value?_entities, ih hrest]
    rfl

/-- **Opening tags** are read as they were written. -/
theorem tag?_openingChars {name : String} (h : isName name.toList)
    {attributes : List (String × String)} (names : ∀ key ∈ attributes, isName key.1.toList) :
    tag? (openingChars name attributes) = some (.opening name attributes) := by
  obtain ⟨c, rest, hcs, hc⟩ := exists_cons_of_isName h
  have all : ∀ d ∈ name.toList, isNameChar d := fun d hd => isNameChar_of_isName h hd
  -- What follows the name is nothing, or an attribute with a blank before it.
  have behind : (attributes.flatMap attributeChars).takeWhile isNameChar = [] ∧
      (attributes.flatMap attributeChars).dropWhile isNameChar =
        attributes.flatMap attributeChars := by
    cases attributes with
    | nil => exact ⟨rfl, rfl⟩
    | cons key attributes => exact ⟨rfl, rfl⟩
  have taken : (openingChars name attributes).takeWhile isNameChar = name.toList := by
    rw [openingChars, List.takeWhile_append_of_pos all, behind.1, List.append_nil]
  have dropped : (openingChars name attributes).dropWhile isNameChar =
      attributes.flatMap attributeChars := by
    rw [openingChars, List.dropWhile_append_of_pos all, behind.2]
  have slash : ∀ cs, openingChars name attributes = '/' :: cs → False := by
    intro cs heq
    rw [openingChars, hcs, List.cons_append] at heq
    exact (ne_of_isNameChar hc).2.2.2.1 (List.cons.inj heq).1
  rw [tag?, taken, dropped, attributes?_written names, name?, if_pos h]
  · simp
  · exact slash

theorem tag?_closing {name : String} (h : isName name.toList) :
    tag? ('/' :: name.toList) = some (.closing name) := by
  rw [tag?, name?, if_pos h]
  simp

/-! ### Where tags end -/

/-- In a tag, the text does not end it. -/
def Inside (cs : List Char) : Prop :=
  ∀ read rest, cut (.tag read) (cs ++ rest) = cut (.tag (cs.reverse ++ read)) rest

theorem inside_nil : Inside [] :=
  fun _ _ => rfl

theorem Inside.append {cs ds : List Char} (h : Inside cs) (h' : Inside ds) : Inside (cs ++ ds) := by
  intro read rest
  rw [List.append_assoc, h, h', List.reverse_append, List.append_assoc]

theorem inside_char {c : Char} (lt : c ≠ '<') (gt : c ≠ '>') (quote : c ≠ '"') : Inside [c] := by
  intro read rest
  rw [List.singleton_append, cut]
  · rfl
  · exact gt
  · exact lt
  · exact quote

theorem inside_name {cs : List Char} (h : ∀ c ∈ cs, isNameChar c) : Inside cs := by
  induction cs with
  | nil => exact inside_nil
  | cons c cs ih =>
    obtain ⟨hc, hcs⟩ := List.forall_mem_cons.1 h
    obtain ⟨lt, gt, quote, -⟩ := ne_of_isNameChar hc
    exact (inside_char lt gt quote).append (ih hcs)

theorem cut_quoted {cs : List Char} (quote : '"' ∉ cs) (read rest : List Char) :
    cut (.quoted read) (cs ++ '"' :: rest) = cut (.tag ('"' :: cs.reverse ++ read)) rest := by
  induction cs generalizing read with
  | nil => rw [List.nil_append, cut]; rfl
  | cons c cs ih =>
    obtain ⟨first, behind⟩ := not_or.1 (mt List.mem_cons.2 quote)
    rw [List.cons_append, cut, ih behind]
    · simp
    · exact Ne.symm first

theorem inside_quoted {cs : List Char} (quote : '"' ∉ cs) : Inside ('"' :: cs ++ ['"']) := by
  intro read rest
  have whole := cut_quoted quote ('"' :: read) rest
  simpa [cut] using whole

theorem inside_attributeChars {key : String × String} (h : isName key.1.toList) :
    Inside (attributeChars key) := by
  have name : Inside key.1.toList := inside_name fun _ hc => isNameChar_of_isName h hc
  have blank : Inside [' '] := inside_char (by decide) (by decide) (by decide)
  have equals : Inside ['='] := inside_char (by decide) (by decide) (by decide)
  have value := inside_quoted (quote_not_mem_entities key.2.toList)
  simpa [attributeChars] using (blank.append name).append (equals.append value)

theorem inside_openingChars {name : String} (h : isName name.toList)
    {attributes : List (String × String)} (names : ∀ key ∈ attributes, isName key.1.toList) :
    Inside (openingChars name attributes) := by
  refine (inside_name fun _ hc => isNameChar_of_isName h hc).append ?_
  induction attributes with
  | nil => exact inside_nil
  | cons key attributes ih =>
    obtain ⟨hkey, hrest⟩ := List.forall_mem_cons.1 names
    exact (inside_attributeChars hkey).append (ih hrest)

theorem cuts_tag {c : Char} {body : List Char} (bang : c ≠ '!') (question : c ≠ '?')
    (h : Inside (c :: body)) : Cuts ('<' :: c :: body ++ ['>']) [.tag (c :: body)] := by
  intro rest
  have opened : cut .content ('<' :: c :: (body ++ '>' :: rest)) =
      cut (.tag []) (c :: (body ++ '>' :: rest)) := by
    rw [cut]
    · intro _ heq
      exact bang (List.cons.inj heq).1
    · intro _ heq
      exact question (List.cons.inj heq).1
  have whole := h [] ('>' :: rest)
  rw [List.cons_append, ← opened] at whole
  simpa [cut] using whole

/-! ### Elements are read back -/

/-- An element as it is written, with `inner` between its tags. -/
def elementChars (name : String) (attributes : List (String × String)) (inner : List Char) :
    List Char :=
  '<' :: openingChars name attributes ++ ['>'] ++ inner ++ ('<' :: '/' :: name.toList ++ ['>'])

theorem content_opening {body : List Char} {name : String} {attributes : List (String × String)}
    (opens : tag? body = some (.opening name attributes)) (frame : Frame) (outer : List Frame)
    (rest : List Piece) :
    content frame outer (.tag body :: rest) =
      content ⟨name, attributes, [], []⟩ (frame :: outer) rest := by
  cases outer <;> rw [content, opens]

section Element

variable {name : String} (isname : isName name.toList) {attributes : List (String × String)}
  (names : ∀ key ∈ attributes, isName key.1.toList)
include isname

theorem cuts_closing : Cuts ('<' :: '/' :: name.toList ++ ['>']) [.tag ('/' :: name.toList)] := by
  have inside : Inside ('/' :: name.toList) :=
    (inside_char (by decide) (by decide) (by decide)).append
      (inside_name fun _ hc => isNameChar_of_isName isname hc)
  exact cuts_tag (by decide) (by decide) inside

include names

theorem cuts_opening :
    Cuts ('<' :: openingChars name attributes ++ ['>']) [.tag (openingChars name attributes)] := by
  have inside := inside_openingChars isname names
  obtain ⟨c, rest, hcs, hc⟩ := exists_cons_of_isName isname
  obtain ⟨-, -, -, -, bang, question⟩ := ne_of_isNameChar hc
  rw [openingChars, hcs] at inside ⊢
  exact cuts_tag bang question inside

theorem cuts_elementChars {inner : List Char} {pieces : List Piece} (h : Cuts inner pieces) :
    Cuts (elementChars name attributes inner)
      (.tag (openingChars name attributes) :: (pieces ++ [.tag ('/' :: name.toList)])) := by
  have whole := ((cuts_opening isname names).append h).append (cuts_closing isname)
  simpa [elementChars] using whole

omit names in
/-- When its closing tag is met, an element is put into the one that it stands in. -/
theorem content_closing {pieces : List Piece} {text : List Char} {children : List Element}
    (adds : ∀ frame outer rest,
      content frame outer (pieces ++ rest) = content (frame.add text children) outer rest)
    (outer : List Frame) (rest : List Piece) :
    content ⟨name, attributes, [], []⟩ outer (pieces ++ .tag ('/' :: name.toList) :: rest) =
      match outer with
      | [] => some (.mk name attributes (String.ofList text) children, rest)
      | parent :: outer =>
        content (parent.add [] [.mk name attributes (String.ofList text) children]) outer rest := by
  rw [adds]
  cases outer with
  | nil =>
    rw [content, tag?_closing isname]
    simp [Frame.add, Frame.element]
  | cons parent outer =>
    rw [content, tag?_closing isname]
    simp [Frame.add, Frame.element]

/-- **An element** is read back, if what stands in it is. -/
theorem reads_element {inner text : List Char} {children : List Element}
    (h : Reads inner text children) :
    Reads (elementChars name attributes inner) []
      [.mk name attributes (String.ofList text) children] := by
  obtain ⟨pieces, cuts, adds⟩ := h
  refine ⟨_, cuts_elementChars isname names cuts, fun frame outer rest => ?_⟩
  rw [List.cons_append, content_opening (tag?_openingChars isname names), List.append_assoc]
  exact content_closing isname adds (frame :: outer) rest

theorem element?_elementChars {inner text : List Char} {children : List Element}
    (h : Reads inner text children) :
    ∃ pieces, Cuts (elementChars name attributes inner) pieces ∧ ∀ rest,
      leading (pieces ++ rest) = ([], pieces ++ rest) ∧
      element? (pieces ++ rest) =
        some (.mk name attributes (String.ofList text) children, rest) := by
  obtain ⟨pieces, cuts, adds⟩ := h
  refine ⟨_, cuts_elementChars isname names cuts, fun rest => ⟨rfl, ?_⟩⟩
  rw [List.cons_append, element?, tag?_openingChars isname names, List.append_assoc]
  exact content_closing isname adds [] rest

end Element

/-! ### Elements with blanks between them -/

/-- The text adds elements to the one that it stands in, and no text but blanks. -/
def Holds (cs : List Char) (children : List Element) : Prop :=
  ∃ blanks, (∀ c ∈ blanks, c.isWhitespace) ∧ Reads cs blanks children

theorem holds_nil : Holds [] [] :=
  ⟨[], by simp, reads_nil⟩

theorem Holds.append {cs ds : List Char} {children others : List Element} (h : Holds cs children)
    (h' : Holds ds others) : Holds (cs ++ ds) (children ++ others) := by
  obtain ⟨blanks, blank, reads⟩ := h
  obtain ⟨more, blank', reads'⟩ := h'
  exact ⟨blanks ++ more, List.forall_mem_append.2 ⟨blank, blank'⟩, reads.append reads'⟩

theorem holds_blanks {cs : List Char} (blank : cs.all Char.isWhitespace) : Holds cs [] := by
  induction cs with
  | nil => exact holds_nil
  | cons c cs ih =>
    obtain ⟨hc, hcs⟩ := Bool.and_eq_true_iff.1 (List.all_cons ▸ blank)
    have plain : c ≠ '<' ∧ c ≠ '&' := by
      constructor <;> rintro rfl <;> revert hc <;> decide
    have first : Holds [c] [] := ⟨[c], by simpa using hc, reads_char plain.1 plain.2⟩
    exact first.append (ih hcs)

theorem holds_comment {body : List Char} (h : CommentBody body) :
    Holds ("<!--".toList ++ body ++ "-->".toList) [] :=
  ⟨[], by simp, reads_comment h⟩

/-! ### Documents are read back -/

/-- The text is comments with blanks between them. -/
def Leads (cs : List Char) (comments : List String) : Prop :=
  ∃ pieces, Cuts cs pieces ∧ ∀ rest,
    leading (pieces ++ rest) = (comments ++ (leading rest).1, (leading rest).2)

theorem leads_nil : Leads [] [] :=
  ⟨[], cuts_nil, fun _ => rfl⟩

theorem Leads.append {cs ds : List Char} {comments others : List String} (h : Leads cs comments)
    (h' : Leads ds others) : Leads (cs ++ ds) (comments ++ others) := by
  obtain ⟨pieces, cuts, adds⟩ := h
  obtain ⟨more, cuts', adds'⟩ := h'
  refine ⟨pieces ++ more, cuts.append cuts', fun rest => ?_⟩
  rw [List.append_assoc, adds, adds', List.append_assoc]

theorem leads_newline : Leads ['\n'] [] := by
  refine ⟨_, cuts_char (by decide) (by decide), fun rest => ?_⟩
  rw [List.singleton_append, leading, if_pos (by decide)]
  rfl

theorem leads_comment {body : List Char} (h : CommentBody body) :
    Leads ("<!--".toList ++ body ++ "-->".toList) [String.ofList body] :=
  ⟨_, cuts_comment h, fun _ => rfl⟩

/-- **A document** is read back, if the content of its root element is. -/
theorem document?_cut {name : String} (isname : isName name.toList)
    {attributes : List (String × String)} (names : ∀ key ∈ attributes, isName key.1.toList)
    {opening declaration front inner text behind : List Char} {comments : List String}
    {children : List Element}
    (declares : Cuts opening [.instruction ("xml ".toList ++ declaration)])
    (leads : Leads front comments) (h : Reads inner text children) (ends : Leads behind []) :
    (cut .content (opening ++ front ++ elementChars name attributes inner ++ behind)).bind
        document? =
      some {
        declaration := String.ofList declaration
        comments
        root := .mk name attributes (String.ofList text) children } := by
  obtain ⟨first, cuts, adds⟩ := leads
  obtain ⟨pieces, cuts', element⟩ := element?_elementChars isname names h
  obtain ⟨last, cuts'', ends⟩ := ends
  have whole := (((declares.append cuts).append cuts').append cuts'').cut_eq
  obtain ⟨none, found⟩ := element last
  have blank := ends []
  rw [List.append_nil] at blank
  rw [whole, Option.bind_some]
  simp [document?, adds, none, found, blank, leading]

end DesignTokens.Markup
