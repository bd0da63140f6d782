import DesignTokens.Output.Stylesheet
import DesignTokens.Proofs.Text.Comments

/-!
# Lines of stylesheets

A line of a stylesheet gives a name a value. `Assigns` says so of the text of a line: behind blanks
stand the name and a colon, then the value and a semicolon, and at most one comment. `namesIn` reads
the names off the lines of a text. A text is read line by line (`namesIn_append_break`), and a name
without a colon is read off each line that declares it (`nameIn?_of_declares`).
-/

namespace DesignTokens.Stylesheet

/-- A name in a stylesheet. -/
inductive Name
  | property (name : String)
  | scss (name : String)
  deriving DecidableEq

/-- How a line spells the name that it declares. -/
def Name.text : Name → String
  | .property name => "--" ++ name
  | .scss name => "$" ++ name

/-- How a value spells a name that it refers to. -/
def Name.reference : Name → String
  | .property name => "var(--" ++ name ++ ")"
  | .scss name => "$" ++ name

/-- What stands behind a declaration: nothing, or a comment that does not end early. -/
inductive IsNote : String → Prop
  | none : IsNote ""
  | block (body : String) (stays : ¬ ['*', '/'] <:+: body.toList) :
    IsNote (" /** " ++ body ++ " */")
  | line (body : String) (stays : ∀ c ∈ body.toList, Text.Comment.isLineBreak c = false) :
    IsNote (" // " ++ body)

/-- The line gives the name the value. -/
def Assigns (line : String) (name : Name) (value : String) : Prop :=
  ∃ indent note : String, indent.toList.all Char.isWhitespace ∧ IsNote note ∧
    line = indent ++ name.text ++ ": " ++ value ++ ";" ++ note

/-- The line gives the name a value. -/
def Declares (line : String) (name : Name) : Prop :=
  ∃ value, Assigns line name value

/-! ### Names that are read -/

/-- The name that a line declares, read up to the first colon. -/
def nameIn? (line : List Char) : Option Name :=
  match line.dropWhile Char.isWhitespace with
  | '-' :: '-' :: cs => some (.property (String.ofList (cs.takeWhile (· != ':'))))
  | '$' :: cs => some (.scss (String.ofList (cs.takeWhile (· != ':'))))
  | _ => none

/-- The names that the lines of a text declare. -/
def namesIn (text : String) : List Name :=
  (text.toList.splitOn '\n').filterMap nameIn?

theorem namesIn_append_break (front behind : String) :
    namesIn (front ++ "\n" ++ behind) = namesIn front ++ namesIn behind := by
  have text : (front ++ "\n" ++ behind).toList = front.toList ++ '\n' :: behind.toList := by simp
  rw [namesIn, text, List.splitOn_append_cons_self, List.filterMap_append, namesIn, namesIn]

theorem namesIn_intercalate (lines : List String) :
    namesIn ("\n".intercalate lines) = lines.flatMap namesIn := by
  induction lines with
  | nil => rfl
  | cons line lines ih =>
    cases lines with
    | nil => simp
    | cons next lines =>
      rw [String.intercalate_cons_cons, namesIn_append_break, ih, ← List.flatMap_cons]

theorem takeWhile_colon {name : String} (plain : ':' ∉ name.toList) (more : List Char) :
    (name.toList ++ ':' :: more).takeWhile (· != ':') = name.toList := by
  have inside : ∀ c ∈ name.toList, (c != ':') = true := fun c hc => by
    simpa using ne_of_mem_of_not_mem hc plain
  rw [List.takeWhile_append_of_pos inside]
  simp

/-- A name without a colon in it is read off each line that declares it. -/
theorem nameIn?_of_declares {line : String} {name : Name} (h : Declares line name)
    (plain : ':' ∉ name.text.toList) : nameIn? line.toList = some name := by
  obtain ⟨value, indent, note, blank, -, rfl⟩ := h
  have front : ∀ c cs, c.isWhitespace = false →
      (indent.toList ++ c :: cs).dropWhile Char.isWhitespace = c :: cs := by
    intro c cs hc
    rw [List.dropWhile_append_of_pos (List.all_eq_true.1 blank), List.dropWhile_cons_of_neg]
    simp [hc]
  cases name with
  | property name =>
    have own : ':' ∉ name.toList := fun colon => plain (by simp [Name.text, colon])
    simp [nameIn?, Name.text, front, takeWhile_colon own]
  | scss name =>
    have own : ':' ∉ name.toList := fun colon => plain (by simp [Name.text, colon])
    simp [nameIn?, Name.text, front, takeWhile_colon own]

theorem namesIn_of_declares {line : String} {name : Name} (h : Declares line name)
    (plain : ':' ∉ name.text.toList) (single : '\n' ∉ line.toList) : namesIn line = [name] := by
  rw [namesIn, List.splitOn_eq_singleton single,
    List.filterMap_cons_some (nameIn?_of_declares h plain), List.filterMap_nil]

/-! ### The lines that are written -/

theorem isNote_trailingNote (comment : Option String) : IsNote (trailingNote comment) := by
  cases comment with
  | none => exact .none
  | some text =>
    exact .block _ (Text.Comment.not_infix_onChars Text.brokenBySpace_isClosing rfl text)

theorem isNote_lineNote (comment : Option String) : IsNote (lineNote comment) := by
  cases comment with
  | none => exact .none
  | some text => exact .line _ fun _ => Text.Comment.not_isLineBreak_of_mem_line

theorem assigns_propertyText {indent : String} (blank : indent.toList.all Char.isWhitespace)
    (d : Declaration) : Assigns (propertyText indent d) (.property d.name) d.value :=
  ⟨indent, _, blank, isNote_trailingNote d.comment, by
    simp only [propertyText, Name.text, String.append_assoc]⟩

theorem assigns_variableLine (d : Declaration) :
    Assigns (variableLine d) (.scss d.name) d.value :=
  ⟨"", _, rfl, isNote_lineNote d.comment, by
    simp only [variableLine, Name.text, String.empty_append, String.append_assoc]⟩

theorem assigns_globalLine (d : Declaration) :
    Assigns (globalLine d) (.scss d.name) (Name.property d.name).reference :=
  ⟨"", "", rfl, .none, String.toList_injective (by simp [globalLine, Name.text, Name.reference])⟩

theorem assigns_aliasLine (retired : Alias) :
    Assigns (aliasLine retired) (.scss retired.legacy)
      (Name.scss retired.current).reference :=
  ⟨"", _, rfl, isNote_lineNote retired.comment,
    String.toList_injective (by simp [aliasLine, Name.text, Name.reference])⟩

/-- The line of a retired name as a custom property. -/
def retiredPropertyText (indent : String) (retired : Alias) : String :=
  indent ++ "--" ++ retired.legacy ++ ": var(--" ++ retired.current ++ ");" ++
    trailingNote retired.comment

theorem assigns_retiredPropertyText {indent : String} (blank : indent.toList.all Char.isWhitespace)
    (retired : Alias) :
    Assigns (retiredPropertyText indent retired) (.property retired.legacy)
      (Name.property retired.current).reference :=
  ⟨indent, _, blank, isNote_trailingNote retired.comment,
    String.toList_injective (by simp [retiredPropertyText, Name.text, Name.reference])⟩

end DesignTokens.Stylesheet
