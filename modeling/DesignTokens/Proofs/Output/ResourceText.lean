import DesignTokens.Format
import DesignTokens.Proofs.Markup.Elements

/-!
# Resource files are read back

A reader of markup finds in a resource file the resources that the file was made of
(`resources_read_back`): names and values are escaped, and no comment ends early. That holds if the
header is a comment of markup or is not there. Which comment a header is follows from the name of
the file alone, so that a file which is named like code has a header that is no markup
(`prolog_wellFormed_iff`).
-/

namespace DesignTokens

open Markup (CommentBody Cuts Holds Leads isName)

/-- The resources that a format lists, if it is one of resource files. -/
def Format.listed? (dictionary : Dictionary) (context : Context) :
    Format → Option (List Resource)
  | resources none => some (Resources.ofVariants dictionary context)
  | resources (some side) => some (Resources.ofSide side dictionary context)
  | dimens => some (Resources.dimens dictionary context)
  | _ => none

theorem Format.document_of_listed? {dictionary : Dictionary} {context : Context} {format : Format}
    {entries : List Resource} (listed : format.listed? dictionary context = some entries) :
    format.document dictionary context = Resources.text context.header entries := by
  fun_cases Format.listed? dictionary context format with
  | case1 => cases listed; rfl
  | case2 => cases listed; rfl
  | case3 => cases listed; rfl
  | case4 => simp [listed?] at listed

namespace Resources

/-! ### What a reader finds -/

/-- The element, the name and the value of a resource that is read. -/
def entry? : Markup.Element → Option (ResourceElement × String × String)
  | .mk "color" [("name", name)] value [] => some (.color, name, value)
  | .mk "dimen" [("name", name)] value [] => some (.dimen, name, value)
  | .mk "item" [("name", name), ("type", "string")] value [] => some (.item, name, value)
  | .mk "string" [("name", name)] value [] => some (.string, name, value)
  | _ => none

/-- The resources of a file that is read: the elements in the root, between which are blanks. -/
def read? (text : String) : Option (List (ResourceElement × String × String)) :=
  (Markup.read? text).bind fun document =>
    match document.root with
    | .mk "resources" [] between children =>
      if between.toList.all Char.isWhitespace then children.mapM entry? else none
    | _ => none

def tagName : ResourceElement → String
  | .color => "color"
  | .dimen => "dimen"
  | .item => "item"
  | .string => "string"

def attributes (name : String) : ResourceElement → List (String × String)
  | .item => [("name", name), ("type", "string")]
  | _ => [("name", name)]

def markup (r : Resource) : Markup.Element :=
  .mk (tagName r.element) (attributes r.name r.element) r.value []

theorem entry?_markup (r : Resource) : entry? (markup r) = some (r.element, r.name, r.value) := by
  obtain ⟨comment, element, name, value⟩ := r
  cases element <;> rfl

theorem mapM_entry?_markup (entries : List Resource) :
    (entries.map markup).mapM entry? =
      some (entries.map fun r => (r.element, r.name, r.value)) := by
  induction entries with
  | nil => rfl
  | cons r entries ih =>
    rw [List.map_cons, List.mapM_cons, entry?_markup, ih]
    rfl

/-! ### Resources -/

theorem attributeChars_name (name : String) :
    Markup.attributeChars ("name", name) =
      " name=\"".toList ++ name.toList.flatMap Text.Literal.entity ++ "\"".toList := by
  simp [Markup.attributeChars]

theorem attributeChars_type :
    Markup.attributeChars ("type", "string") = " type=\"string\"".toList := by
  decide

theorem toList_elementText (name value : String) (element : ResourceElement) :
    (elementText (Text.Literal.xml name) (Text.Literal.xml value) element).toList =
      Markup.elementChars (tagName element) (attributes name element)
        (value.toList.flatMap Text.Literal.entity) := by
  rw [elementText.eq_def, Markup.elementChars, Markup.openingChars]
  cases element with
  | item =>
    rw [attributes, List.flatMap_cons, List.flatMap_cons, attributeChars_name, attributeChars_type]
    simp [Text.Literal.xml, tagName]
  | color | dimen | string =>
    rw [attributes, List.flatMap_cons, attributeChars_name]
    · simp [Text.Literal.xml, tagName]
    · simp

theorem holds_elementText (r : Resource) :
    Holds (elementText (Text.Literal.xml r.name) (Text.Literal.xml r.value) r.element).toList
      [markup r] := by
  obtain ⟨comment, element, name, value⟩ := r
  have isname : isName (tagName element).toList := by cases element <;> decide
  have names : ∀ key ∈ attributes name element, isName key.1.toList := by
    cases element <;> simp [attributes, isName, Markup.isNameChar]
  have reads := Markup.reads_element isname names (Markup.reads_entities value.toList)
  rw [String.ofList_toList, ← toList_elementText] at reads
  exact ⟨[], by simp, reads⟩

theorem holds_indent : Holds "  ".toList [] :=
  Markup.holds_blanks rfl

theorem holds_newline : Holds "\n".toList [] :=
  Markup.holds_blanks rfl

theorem holds_commentText (comment : Option String) : Holds (commentText comment).toList [] := by
  cases comment with
  | none => exact Markup.holds_nil
  | some text =>
    have comment := Markup.holds_comment (Markup.commentBody_xml text)
    have whole := (holds_indent.append comment).append holds_newline
    simpa [commentText] using whole

theorem holds_resourceText (r : Resource) : Holds (resourceText r).toList [markup r] := by
  have element := (holds_indent.append (holds_elementText r)).append holds_newline
  have whole := (holds_commentText r.comment).append element
  simpa [resourceText] using whole

theorem holds_join_resourceText (entries : List Resource) :
    Holds (String.join (entries.map resourceText)).toList (entries.map markup) := by
  induction entries with
  | nil => simpa using Markup.holds_nil
  | cons r entries ih => simpa using (holds_resourceText r).append ih

/-! ### The file around the resources -/

/-- What the declaration of a file says. -/
def declared : String := "version=\"1.0\" encoding=\"UTF-8\""

theorem cuts_declaration :
    Cuts ("<?xml ".toList ++ declared.toList ++ "?>".toList)
      [.instruction ("xml ".toList ++ declared.toList)] :=
  fun _ => rfl

/-- **A resource file is read back**, if its header is comments of markup. -/
theorem markup_read?_text {header : String} {comments : List String}
    (leads : Leads header.toList comments) (entries : List Resource) :
    ∃ between : String, between.toList.all Char.isWhitespace ∧
      Markup.read? (text header entries) =
        some ⟨declared, comments, .mk "resources" [] between (entries.map markup)⟩ := by
  obtain ⟨blanks, blank, reads⟩ := holds_newline.append (holds_join_resourceText entries)
  have spelled : (text header entries).toList =
      ("<?xml ".toList ++ declared.toList ++ "?>".toList) ++ (['\n'] ++ header.toList) ++
        Markup.elementChars "resources" []
          ("\n".toList ++ (String.join (entries.map resourceText)).toList) ++ ['\n'] := by
    simp [text, declaration, declared, Markup.elementChars, Markup.openingChars]
  refine ⟨String.ofList blanks, by simpa using blank, ?_⟩
  have document := Markup.document?_cut (by decide : isName "resources".toList)
    (by simp : ∀ key ∈ ([] : List (String × String)), isName key.1.toList) cuts_declaration
    (Markup.leads_newline.append leads) reads Markup.leads_newline
  rw [Markup.read?, spelled, document]
  simp

theorem read?_text {header : String} {comments : List String}
    (leads : Leads header.toList comments) (entries : List Resource) :
    read? (text header entries) = some (entries.map fun r => (r.element, r.name, r.value)) := by
  obtain ⟨between, blank, document⟩ := markup_read?_text leads entries
  rw [read?, document, Option.bind_some]
  simp only [blank, if_true, mapM_entry?_markup]

end Resources

/-! ### Headers -/

/-- The text is nothing, or one comment of markup and the end of its line. -/
def Markup.AtMostOneComment (text : String) : Prop :=
  text = "" ∨ ∃ body, CommentBody body ∧
    text.toList = "<!--".toList ++ body ++ "-->".toList ++ ['\n']

open Markup (AtMostOneComment)

theorem Markup.AtMostOneComment.leads {text : String} (h : AtMostOneComment text) :
    ∃ comments, comments.length ≤ 1 ∧ Leads text.toList comments := by
  rcases h with rfl | ⟨body, comment, spelled⟩
  · exact ⟨[], by simp, Markup.leads_nil⟩
  · refine ⟨[String.ofList body], by simp, ?_⟩
    rw [spelled]
    simpa using (Markup.leads_comment comment).append Markup.leads_newline

theorem Markup.AtMostOneComment.not_slash {text : String} {more : List Char}
    (h : AtMostOneComment text) : text.toList ≠ '/' :: more := by
  intro slash
  rcases h with rfl | ⟨body, -, spelled⟩
  · simp at slash
  · simp [spelled] at slash

namespace HeaderStyle

def commentOf (lines : List String) : String :=
  "\n" ++ String.join (lines.map fun text => "  " ++ Text.Comment.xml text ++ "\n")

theorem commentBody_lines (lines : List String) :
    CommentBody (String.join (lines.map fun text =>
      "  " ++ Text.Comment.xml text ++ "\n")).toList := by
  induction lines with
  | nil => exact Markup.commentBody_nil
  | cons line lines ih =>
    have blanks : CommentBody "  ".toList := by decide
    have first := blanks.append ((Markup.dashless_xml line).commentBody (by decide : '\n' ≠ '-'))
    simpa using first.append ih

theorem commentBody_commentOf (lines : List String) : CommentBody (commentOf lines).toList := by
  have newline : CommentBody "\n".toList := by decide
  simpa [commentOf] using newline.append (commentBody_lines lines)

theorem toList_wrap_xml (lines : List String) :
    (xml.wrap lines).toList =
      "<!--".toList ++ (commentOf lines).toList ++ "-->".toList ++ ['\n'] := by
  simp [wrap.eq_def, commentOf]

theorem atMostOneComment_wrap_xml (lines : List String) : AtMostOneComment (xml.wrap lines) :=
  .inr ⟨_, commentBody_commentOf lines, toList_wrap_xml lines⟩

theorem exists_slash {style : HeaderStyle} (line_or_block : style ≠ xml ∧ style ≠ none)
    (lines : List String) : ∃ more, (style.wrap lines).toList = '/' :: more := by
  obtain ⟨notXml, notNone⟩ := line_or_block
  cases style with
  | xml => exact absurd rfl notXml
  | none => exact absurd rfl notNone
  | line => exact ⟨_, by simp [wrap.eq_def]; rfl⟩
  | block => exact ⟨_, by simp [wrap.eq_def]; rfl⟩

/-- The extensions of the names for which a header is markup, or nothing. -/
theorem suits_iff {destination : String} :
    ofDestination destination = xml ∨ ofDestination destination = none ↔
      Path.extension? destination = some "xml" ∨ Path.extension? destination = some "json" := by
  unfold ofDestination
  split
  · next h => simp [h]
  · next h => simp [h]
  · next h => simp [h]
  · next notXml _ notJson => exact iff_of_false (by simp) (not_or.2 ⟨notXml, notJson⟩)

end HeaderStyle

/-- A header is markup or nothing if the name of the file ends so, else it begins as no markup
does. -/
theorem Header.comment_or_slash (destination : String) (lines : List String) :
    ((Path.extension? destination = some "xml" ∨ Path.extension? destination = some "json") ∧
        AtMostOneComment (text destination lines)) ∨
      (¬ (Path.extension? destination = some "xml" ∨ Path.extension? destination = some "json") ∧
        ∃ more, (text destination lines).toList = '/' :: more) := by
  rw [← HeaderStyle.suits_iff, text]
  by_cases suits : HeaderStyle.ofDestination destination = .xml ∨
      HeaderStyle.ofDestination destination = .none
  · refine .inl ⟨suits, ?_⟩
    rcases suits with style | style <;> rw [style]
    · exact HeaderStyle.atMostOneComment_wrap_xml _
    · exact .inl rfl
  · exact .inr ⟨suits, HeaderStyle.exists_slash (not_or.1 suits) _⟩

/-- A header is markup or nothing exactly if the name of the file ends so. -/
theorem Header.atMostOneComment_iff (destination : String) (lines : List String) :
    AtMostOneComment (text destination lines) ↔
      Path.extension? destination = some "xml" ∨ Path.extension? destination = some "json" := by
  rcases comment_or_slash destination lines with ⟨suits, comment⟩ | ⟨other, more, slash⟩
  · exact iff_of_true comment suits
  · exact iff_of_false (fun comment => comment.not_slash slash) other

/-! ### Files and their headers -/

/-- What a resource of a file says to its reader: the element, the name and the value. -/
abbrev Resources.Entry : Type := ResourceElement × String × String

def Resource.entry (r : Resource) : Resources.Entry :=
  (r.element, r.name, r.value)

/-- A reader finds the entries in the document: in all of it if its header is markup, and without
the header in any case. -/
structure Resources.Lists (document header : String) (entries : List Entry) : Prop where
  body : ∃ body, document = declaration ++ header ++ body ∧
    read? (declaration ++ body) = some entries
  whole : AtMostOneComment header → read? document = some entries

theorem Resources.lists_text (header : String) (entries : List Resource) :
    Lists (text header entries) header (entries.map Resource.entry) where
  body := by
    refine ⟨"<resources>\n" ++ String.join (entries.map resourceText) ++ "</resources>\n", ?_, ?_⟩
    · simp only [text, String.append_assoc]
    · have none : Markup.Leads "".toList [] := Markup.leads_nil
      have bare := read?_text none entries
      simp only [text, String.append_empty, String.append_assoc] at bare ⊢
      exact bare
  whole comment := by
    obtain ⟨comments, -, leads⟩ := comment.leads
    exact read?_text leads entries

/-- A header that begins as no markup does spoils the file. -/
theorem Resources.markup_read?_text_eq_none {header : String} {more : List Char}
    (slash : header.toList = '/' :: more) (entries : List Resource) :
    Markup.read? (text header entries) = none := by
  have front := (cuts_declaration.append (Markup.cuts_char (by decide : '\n' ≠ '<')
    (by decide))).append (Markup.cuts_char (by decide : '/' ≠ '<') (by decide))
  have spelled : (text header entries).toList =
      "<?xml ".toList ++ declared.toList ++ "?>".toList ++ ['\n'] ++ ['/'] ++ (more ++
        ("<resources>\n" ++ String.join (entries.map resourceText) ++
          "</resources>\n").toList) := by
    rw [text, declaration, declared]
    simp [slash]
  rw [Markup.read?, spelled, front, Option.bind_map]
  cases Markup.cut .content _ with
  | none => rfl
  | some pieces => rfl

theorem Resources.isSome_markup_read?_text {header : String} (h : AtMostOneComment header)
    (entries : List Resource) : (Markup.read? (text header entries)).isSome := by
  obtain ⟨comments, -, leads⟩ := h.leads
  obtain ⟨between, -, document⟩ := markup_read?_text leads entries
  rw [document]
  rfl

/-- **Resource files are read back.** If there is no header, or the name of the file is one of
markup, then a file is a declaration, at most one comment, and one element in which a reader finds
the listed resources; no comment in it holds `--`. -/
theorem resources_read_back (dictionary : Dictionary) (context : Context) {format : Format}
    {entries : List Resource} (listed : format.listed? dictionary context = some entries)
    (suits : context.showHeader = false ∨ Path.extension? context.destination = some "xml") :
    Resources.read? (format.document dictionary context) =
        some (entries.map fun r => (r.element, r.name, r.value)) ∧
    (∃ document, Markup.read? (format.document dictionary context) = some document ∧
      document.declaration = Resources.declared ∧ document.comments.length ≤ 1) ∧
    ∃ pieces, Markup.cut .content (format.document dictionary context).toList = some pieces ∧
      ∀ body, .comment body ∈ pieces → ¬ ['-', '-'] <:+: body := by
  have header : AtMostOneComment context.header := by
    rcases suits with hidden | xml
    · left
      simp [Context.header, hidden]
    · unfold Context.header
      split
      · exact (Header.atMostOneComment_iff _ _).2 (.inl xml)
      · exact .inl rfl
  obtain ⟨comments, few, leads⟩ := header.leads
  obtain ⟨between, -, document⟩ := Resources.markup_read?_text leads entries
  rw [Format.document_of_listed? listed]
  refine ⟨Resources.read?_text leads entries, ⟨_, document, rfl, few⟩, ?_⟩
  obtain ⟨pieces, cut, -⟩ := Option.bind_eq_some_iff.1 document
  exact ⟨pieces, cut, fun body => Markup.not_infix_of_mem_cut cut⟩

/-- Tokens and options whose texts look like markup, wherever they are free. -/
def Resources.misleading : Dictionary :=
  .ofTokens [{ Token.ofValue ["color", "<b>"] "b" (.string "</color><!-- & -->") with
      typeName := some "color", comment := some "--> <color name=\"x\"> --" },
    { Token.ofValue ["text", "dark", "&lt;"] "lt" (.string "&lt;\"--\"") with
      comment := some "-" }]

def Resources.misleadingContext : Context :=
  { destination := "values/colors.xml", headerLines := ["--><resources>", "--"],
    stemOption := some "\"/><&" }

theorem resources_read_back_misleading :
    Format.listed? Resources.misleading Resources.misleadingContext (.resources (some .light)) =
      some (Resources.ofSide .light Resources.misleading Resources.misleadingContext) ∧
    Path.extension? Resources.misleadingContext.destination = some "xml" ∧
    Resources.read? (Format.document Resources.misleading Resources.misleadingContext
        (.resources (some .light))) =
      some [(.color, "\"/><&_color__b_", "</color><!-- & -->"),
        (.item, "\"/><&_text__lt_", "&lt;\"--\"")] := by
  have xml : Path.extension? Resources.misleadingContext.destination = some "xml" := by decide
  have entries : (Resources.ofSide .light Resources.misleading
      Resources.misleadingContext).map (fun r => (r.element, r.name, r.value)) =
      [(.color, "\"/><&_color__b_", "</color><!-- & -->"),
        (.item, "\"/><&_text__lt_", "&lt;\"--\"")] := by
    decide +kernel
  have back := (resources_read_back Resources.misleading Resources.misleadingContext
    (rfl : Format.listed? _ _ (.resources (some .light)) = some _) (.inr xml)).1
  rw [entries] at back
  exact ⟨rfl, xml, back⟩

/-- **The name of the file decides on the header.** What stands between the declaration and the
resources is nothing or one comment, and the file can be read, exactly if its name ends as that of
a markup file or of one without comments; else it begins as a comment of code. -/
theorem prolog_wellFormed_iff (dictionary : Dictionary) (context : Context) {format : Format}
    {entries : List Resource} (listed : format.listed? dictionary context = some entries)
    (shown : context.showHeader = true) :
    format.document dictionary context =
      Resources.declaration ++ context.header ++ "<resources>\n" ++
        String.join (entries.map Resources.resourceText) ++ "</resources>\n" ∧
    (AtMostOneComment context.header ↔
      Path.extension? context.destination = some "xml" ∨
        Path.extension? context.destination = some "json") ∧
    ((Markup.read? (format.document dictionary context)).isSome ↔
      Path.extension? context.destination = some "xml" ∨
        Path.extension? context.destination = some "json") ∧
    (¬ (Path.extension? context.destination = some "xml" ∨
        Path.extension? context.destination = some "json") →
      ∃ more, context.header.toList = '/' :: more) := by
  have header : context.header = Header.text context.destination context.headerLines := by
    rw [Context.header, if_pos shown]
  rw [Format.document_of_listed? listed, header]
  refine ⟨rfl, Header.atMostOneComment_iff _ _, ?_⟩
  rcases Header.comment_or_slash context.destination context.headerLines with
    ⟨suits, markup⟩ | ⟨other, more, slash⟩
  · exact ⟨iff_of_true (Resources.isSome_markup_read?_text markup entries) suits,
      fun other => absurd suits other⟩
  · refine ⟨iff_of_false ?_ other, fun _ => ⟨more, slash⟩⟩
    simp [Resources.markup_read?_text_eq_none slash]

theorem prolog_wellFormed_iff_misleading :
    Format.listed? Resources.misleading Resources.misleadingContext .dimens =
      some (Resources.dimens Resources.misleading Resources.misleadingContext) ∧
    Resources.misleadingContext.showHeader = true ∧
    AtMostOneComment Resources.misleadingContext.header ∧
    (Markup.read? (Format.document Resources.misleading Resources.misleadingContext
      .dimens)).isSome := by
  have xml : Path.extension? Resources.misleadingContext.destination = some "xml" := by decide
  obtain ⟨-, comment, readable, -⟩ := prolog_wellFormed_iff Resources.misleading
    Resources.misleadingContext (rfl : Format.listed? _ _ .dimens = some _) rfl
  exact ⟨rfl, rfl, comment.2 (.inl xml), readable.2 (.inl xml)⟩

/-- A resource file that is named like code has a header that is no markup. -/
theorem code_name_breaks_prolog :
    let context : Context := { destination := "values/Dimens.kt" }
    context.showHeader = true ∧
    Format.document (.ofTokens []) context .dimens =
      "<?xml version=\"1.0\" encoding=\"UTF-8\"?>\n/**\n * " ++ Header.defaultLine ++
        "\n */\n\n<resources>\n</resources>\n" ∧
    ¬ AtMostOneComment context.header ∧
    Markup.read? (Format.document (.ofTokens []) context .dimens) = none := by
  intro context
  have header : context.header = "/**\n * " ++ Header.defaultLine ++ "\n */\n\n" := by
    decide +kernel
  have slash : context.header.toList =
      '/' :: ("**\n * " ++ Header.defaultLine ++ "\n */\n\n").toList := by
    rw [header]
    simp
  refine ⟨rfl, ?_, fun comment => comment.not_slash slash,
    Resources.markup_read?_text_eq_none slash []⟩
  decide +kernel

end DesignTokens
