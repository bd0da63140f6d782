import DesignTokens.Output.ComposeTheme
import DesignTokens.Output.NestedEnum
import DesignTokens.Proofs.Identifier.Segments
import DesignTokens.Proofs.Output.Outline
import DesignTokens.Proofs.Text.Comments
import DesignTokens.Proofs.Text.SwiftLiteral

/-!
# Members in Swift and Kotlin sources

The lines of a member declare it by its name, in either language (`NestedEnum.isMember_memberText`,
`ComposeTheme.isMember_memberText`), and nothing else is read off them if no break is in a text that
is written as it is (`NestedEnum.readsMember_of_isLegible`,
`ComposeTheme.readsMember_of_isLegible`).
-/

namespace DesignTokens

namespace Outline

open Container (indentation break_not_mem_indentation)

namespace Language

/-- Swift, as far as its enums and extensions of constants go. -/
def swift : Language := ⟨["public enum", "extension"], "public static let "⟩

/-- Kotlin, as far as its objects of values go. -/
def kotlin : Language := ⟨["object"], "val "⟩

theorem dropSuffix?_append (front back : List Char) :
    (front ++ back).dropSuffix? back = some front :=
  List.dropSuffix?_eq_some_iff.2 ⟨back, rfl, beq_self_eq_true back⟩

theorem dropPrefix?_of_head_ne {c d : Char} (ne : c ≠ d) (cs ds : List Char) :
    (c :: cs).dropPrefix? (d :: ds) = none := by
  rw [List.dropPrefix?, if_neg (by simpa using ne)]

/-- A line is read as opening what it opens if it begins neither as a member does nor with a word
that is looked for earlier. -/
theorem opens_of_split {language : Language} (before after : List String) {word : String}
    (split : language.containers = before ++ word :: after) (plain : '\n' ∉ word.toList)
    (member : ∀ rest, ((word ++ " ").toList ++ rest).dropPrefix? language.member.toList = none)
    (first : ∀ other ∈ before, ∀ rest,
      ((word ++ " ").toList ++ rest).dropPrefix? (other ++ " ").toList = none) :
    language.Opens word := by
  refine ⟨by simp [split], plain, fun name => ?_⟩
  have line : (word ++ " " ++ name ++ " \x7b").toList =
      (word ++ " ").toList ++ (name.toList ++ " \x7b".toList) := by
    rw [String.toList_append, String.toList_append, List.append_assoc]
  have earlier : before.findSome? (fun other =>
      (((word ++ " ").toList ++ (name.toList ++ " \x7b".toList)).dropPrefix?
        (other ++ " ").toList).bind fun rest =>
        (rest.dropSuffix? " \x7b".toList).map String.ofList) = none := by
    rw [List.findSome?_eq_none_iff]
    intro other hother
    rw [first other hother, Option.bind_none]
  rw [line, indentedEvent, member, opened?, split, List.findSome?_append, earlier, Option.none_or,
    List.findSome?_cons, List.dropPrefix?_append_of_beq _ (beq_self_eq_true _), Option.bind_some,
    dropSuffix?_append, Option.map_some, String.ofList_toList]

theorem opens_enum : swift.Opens "public enum" :=
  opens_of_split [] ["extension"] rfl (by decide) (fun _ => rfl) (by simp)

theorem opens_extension : swift.Opens "extension" :=
  opens_of_split ["public enum"] [] rfl (by decide) (fun _ => rfl)
    (List.forall_mem_singleton.2 fun _ => rfl)

theorem opens_object : kotlin.Opens "object" :=
  opens_of_split [] [] rfl (by decide) (fun _ => rfl) (by simp)

/-- A line that begins neither as a member nor as a container says nothing. -/
theorem indentedEvent_of_head_ne {language : Language} {c : Char} (cs : List Char)
    (member : (c :: cs).dropPrefix? language.member.toList = none)
    (containers : ∀ word ∈ language.containers,
      (c :: cs).dropPrefix? (word ++ " ").toList = none) :
    language.indentedEvent (c :: cs) = .nothing := by
  have none : language.opened? (c :: cs) = none := by
    rw [opened?, List.findSome?_eq_none_iff]
    intro word hword
    rw [containers word hword, Option.bind_none]
  rw [indentedEvent, member, none]

theorem indentedEvent_swift_of_head {c : Char} (p : c ≠ 'p') (e : c ≠ 'e') (cs : List Char) :
    swift.indentedEvent (c :: cs) = .nothing := by
  refine indentedEvent_of_head_ne cs (dropPrefix?_of_head_ne p _ _) ?_
  rw [swift, List.forall_mem_cons, List.forall_mem_singleton]
  exact ⟨dropPrefix?_of_head_ne p _ _, dropPrefix?_of_head_ne e _ _⟩

theorem indentedEvent_kotlin_of_head {c : Char} (v : c ≠ 'v') (o : c ≠ 'o') (cs : List Char) :
    kotlin.indentedEvent (c :: cs) = .nothing := by
  refine indentedEvent_of_head_ne cs (dropPrefix?_of_head_ne v _ _) ?_
  rw [kotlin, List.forall_mem_singleton]
  exact dropPrefix?_of_head_ne o _ _

theorem indentedEvent_member (language : Language) {name : String} {rest : List Char}
    (plain : name.toList.all isNameChar) (ends : rest.head?.all (!isNameChar ·)) :
    language.indentedEvent (language.member.toList ++ (name.toList ++ rest)) = .declares name := by
  have spelled : (name.toList ++ rest).takeWhile isNameChar = name.toList := by
    rw [List.takeWhile_append_of_pos (List.all_eq_true.1 plain)]
    cases rest with
    | nil => simp
    | cons c rest =>
      have stop : isNameChar c = false := by simpa using ends
      simp [stop]
  rw [indentedEvent, List.dropPrefix?_append_of_beq _ (beq_self_eq_true _)]
  simp [spelled]

end Language

theorem reads_nothing (language : Language) (r : Reading) (behind : String)
    (single : '\n' ∉ behind.toList)
    (event : language.indentedEvent behind.toList = .nothing) :
    Reads language r (indentation r.depth ++ behind ++ "\n") r := by
  have line : '\n' ∉ (indentation r.depth ++ behind).toList := by
    simp [break_not_mem_indentation, single]
  have reads := reads_line language r _ line
  rwa [String.toList_append, Reading.step, event_indented, event] at reads

theorem reads_declaration {language : Language} (r : Reading) {name : String} (rest : String)
    (word : '\n' ∉ language.member.toList) (plain : name.toList.all isNameChar)
    (ends : rest.toList.head?.all (!isNameChar ·)) (single : '\n' ∉ rest.toList) :
    Reads language r (indentation r.depth ++ language.member ++ name ++ rest ++ "\n")
      (r.add [] [name]) := by
  have own := break_not_mem_of_isNameChar plain
  have line : '\n' ∉ (indentation r.depth ++ (language.member ++ (name ++ rest))).toList := by
    simp [break_not_mem_indentation, word, own, single]
  have reads := reads_line language r _ line
  rw [String.toList_append, Reading.step, event_indented, String.toList_append,
    String.toList_append, Language.indentedEvent_member language plain ends] at reads
  simpa only [String.append_assoc] using reads

end Outline

open Container (indentation ReadsMember)
open Outline (Language Reading Reads isNameChar)

/-! ### Names of members -/

theorem Identifier.isNameChar_guardReserved (reserved : List String) {name : String}
    (h : IsPlain name) : (guardReserved reserved name).toList.all isNameChar := by
  refine List.all_eq_true.2 (forall_mem_guardReserved (by decide) (by decide) (fun c letter => ?_)
    reserved h)
  exact of_isAlphanum (P := fun c => c.isAlphanum → isNameChar c) (by decide) letter letter

theorem Text.Comment.break_not_mem (forbidden : Char → Char → Bool) {text : String}
    (single : '\n' ∉ text.toList) : '\n' ∉ (onChars (breakPairs forbidden) text).toList := by
  intro h
  rcases (spaced_onChars text).mem h with space | own
  · exact absurd space (by decide)
  · exact single own

/-! ### Swift -/

namespace SwiftMember

def Body.texts : Body → List String
  | .fixed value => [value]
  | .dynamic light dark => [light, dark]

theorem exists_declarationText (indent name : String) (body : Body) :
    ∃ tail, declarationText indent name body = indent ++ "public static let " ++ name ++ " = " ++
      tail := by
  cases body with
  | fixed value => exact ⟨value, rfl⟩
  | dynamic light dark =>
    refine ⟨"UIColor \x7b traitCollection in\n" ++ indent ++
      "    return traitCollection.userInterfaceStyle == .dark ? " ++ dark ++ " : " ++ light ++
      "\n" ++ indent ++ "\x7d", String.toList_injective ?_⟩
    simp [declarationText]

theorem reads_declarationText {name : String} {body : Body} (note : String) {r : Reading}
    (plain : name.toList.all isNameChar) (single : ∀ text ∈ body.texts, '\n' ∉ text.toList)
    (last : '\n' ∉ note.toList) :
    Reads .swift r (declarationText (indentation r.depth) name body ++ note ++ "\n")
      (r.add [] [name]) := by
  have word : '\n' ∉ Language.swift.member.toList := by decide
  cases body with
  | fixed value =>
    have line := Outline.reads_declaration r (" = " ++ value ++ note) word plain
      (by simp [isNameChar]) (by simpa [Body.texts, last] using single)
    simpa [declarationText, Language.swift, String.append_assoc] using line
  | dynamic light dark =>
    obtain ⟨light_single, dark_single⟩ : '\n' ∉ light.toList ∧ '\n' ∉ dark.toList := by
      simpa [Body.texts] using single
    have line := Outline.reads_declaration r " = UIColor \x7b traitCollection in"
      word plain (by decide) (by decide)
    have inside := Outline.reads_nothing .swift (r.add [] [name])
      ("    return traitCollection.userInterfaceStyle == .dark ? " ++ dark ++ " : " ++ light)
      (by simp [light_single, dark_single])
      (by simpa using Language.indentedEvent_swift_of_head (by decide) (by decide) _)
    have close := Outline.reads_nothing .swift (r.add [] [name]) ("\x7d" ++ note)
       (by simp [last])
      (by simpa using Language.indentedEvent_swift_of_head (by decide) (by decide) _)
    rw [Reading.depth_add] at inside close
    have text : declarationText (indentation r.depth) name (.dynamic light dark) ++ note ++ "\n" =
        indentation r.depth ++ Language.swift.member ++ name ++
            " = UIColor \x7b traitCollection in" ++ "\n" ++
          (indentation r.depth ++ ("    return traitCollection.userInterfaceStyle == .dark ? " ++
            dark ++ " : " ++ light) ++ "\n") ++
          (indentation r.depth ++ ("\x7d" ++ note) ++ "\n") :=
      String.toList_injective (by simp [declarationText, Language.swift])
    rw [text]
    exact (line.append inside).append close

theorem reads_attributeText (deprecation : Option String) (r : Reading) :
    Reads .swift r (attributeText (indentation r.depth) deprecation) r := by
  cases deprecation with
  | none => exact Outline.reads_empty
  | some message =>
    have line := Outline.reads_nothing .swift r
      ("@available(*, deprecated, message: \"" ++ Text.Literal.swift message ++ "\")")
      (by simpa using fun h => absurd (Text.not_isLineBreak_of_mem_swift h) (by decide))
      (by simpa using Language.indentedEvent_swift_of_head (by decide) (by decide) _)
    simpa [attributeText, availabilityAttribute, String.append_assoc] using line

end SwiftMember

namespace NestedEnum

/-- The constant holds no break in the texts that are written as they are. -/
def IsLegible (m : NestedMember) : Prop :=
  (∀ text ∈ m.body.texts, '\n' ∉ text.toList) ∧ ∀ text ∈ m.comment, '\n' ∉ text.toList

theorem isMember_memberText {m : NestedMember} (plain : m.name.toList.all isNameChar)
    (depth : Nat) :
    Language.swift.IsMember depth m.name (memberText (indentation depth) m) := by
  obtain ⟨tail, declaration⟩ := SwiftMember.exists_declarationText (indentation depth) m.name m.body
  refine ⟨plain, SwiftMember.attributeText (indentation depth) m.deprecation,
    " = " ++ tail ++
      (m.comment.map fun text => " /** " ++ Text.Comment.nested text ++ " */").getD "" ++ "\n",
    by simp [isNameChar], ?_⟩
  rw [memberText, declaration]
  simp only [Language.swift, String.append_assoc]

theorem readsMember_of_isLegible {m : NestedMember} (plain : m.name.toList.all isNameChar)
    (legible : IsLegible m) : ReadsMember .swift NestedMember.name memberText m := by
  intro r
  have note : '\n' ∉
      ((m.comment.map fun text =>
        " /** " ++ Text.Comment.nested text ++ " */").getD "").toList := by
    cases comment : m.comment with
    | none => simp
    | some text =>
      have single := Text.Comment.break_not_mem Text.Comment.isNesting
        (legible.2 text comment)
      simpa [Text.Comment.nested] using single
  have lines := (SwiftMember.reads_attributeText m.deprecation r).append
    (SwiftMember.reads_declarationText _ plain legible.1 note)
  simpa only [memberText, String.append_assoc] using lines

end NestedEnum

/-! ### Kotlin -/

namespace ComposeTheme

def expressions : ThemeBody → List ThemeExpression
  | .initializer value => [value]
  | .getter light dark => [light, dark]

/-- The member holds no break in the texts that are written as they are. -/
def IsLegible (m : ThemeMember) : Prop :=
  (∀ value ∈ expressions m.body, '\n' ∉ (expressionText value).toList) ∧
    (∀ text ∈ m.comment, '\n' ∉ text.toList) ∧ ∀ text ∈ m.deprecation, '\n' ∉ (quoted text).toList

theorem exists_bodyText (indent name : String) (isColor : Bool) (body : ThemeBody) :
    ∃ rest : String, (rest.toList.head?.any fun c => !isNameChar c) ∧
      bodyText indent name (if isColor then ": ComposeColor" else "") body =
        indent ++ "val " ++ name ++ rest := by
  cases body with
  | initializer value =>
    refine ⟨(if isColor then ": ComposeColor" else "") ++ " = " ++ expressionText value ++ "\n",
      ?_, ?_⟩
    · cases isColor <;> simp [isNameChar]
    · simp only [bodyText, String.append_assoc]
  | getter light dark =>
    refine ⟨(if isColor then ": ComposeColor" else "") ++ "\n" ++ indent ++
      "    @Composable get() = if (isSystemInDarkTheme()) " ++ expressionText dark ++ " else " ++
      expressionText light ++ "\n", ?_, ?_⟩
    · cases isColor <;> simp [isNameChar]
    · simp only [bodyText, String.append_assoc]

theorem isMember_memberText {m : ThemeMember} (plain : m.name.toList.all isNameChar) (depth : Nat) :
    Language.kotlin.IsMember depth m.name (memberText (indentation depth) m) := by
  obtain ⟨rest, ends, body⟩ := exists_bodyText (indentation depth) m.name m.isColor m.body
  refine ⟨plain,
    (m.comment.map fun text =>
      indentation depth ++ "/** " ++ Text.Comment.block text ++ " */\n").getD "" ++
      (m.deprecation.map fun message =>
        indentation depth ++ "@Deprecated(" ++ quoted message ++ ")\n").getD "", rest, ends, ?_⟩
  rw [memberText, body]
  simp only [Language.kotlin, String.append_assoc]

theorem reads_bodyText {name : String} {isColor : Bool} {body : ThemeBody} {r : Reading}
    (plain : name.toList.all isNameChar)
    (single : ∀ value ∈ expressions body, '\n' ∉ (expressionText value).toList) :
    Reads .kotlin r
      (bodyText (indentation r.depth) name (if isColor then ": ComposeColor" else "") body)
      (r.add [] [name]) := by
  have word : '\n' ∉ Language.kotlin.member.toList := by decide
  have typed : '\n' ∉ (if isColor then ": ComposeColor" else "").toList := by
    cases isColor <;> decide
  cases body with
  | initializer value =>
    have line := Outline.reads_declaration r
      ((if isColor then ": ComposeColor" else "") ++ " = " ++ expressionText value) word plain
      (by cases isColor <;> simp [isNameChar]) (by simpa [expressions, typed] using single)
    simpa [bodyText, Language.kotlin, String.append_assoc] using line
  | getter light dark =>
    obtain ⟨light_single, dark_single⟩ :
        '\n' ∉ (expressionText light).toList ∧ '\n' ∉ (expressionText dark).toList := by
      simpa [expressions] using single
    have line := Outline.reads_declaration r (if isColor then ": ComposeColor" else "") word plain
      (by cases isColor <;> simp [isNameChar]) typed
    have getter := Outline.reads_nothing .kotlin (r.add [] [name])
      ("    @Composable get() = if (isSystemInDarkTheme()) " ++ expressionText dark ++
        " else " ++ expressionText light)
      (by simp [light_single, dark_single])
      (by simpa using Language.indentedEvent_kotlin_of_head (by decide) (by decide) _)
    rw [Reading.depth_add] at getter
    have lines := line.append getter
    simpa [bodyText, Language.kotlin, String.append_assoc] using lines

theorem readsMember_of_isLegible {m : ThemeMember} (plain : m.name.toList.all isNameChar)
    (legible : IsLegible m) : ReadsMember .kotlin ThemeMember.name memberText m := by
  obtain ⟨values, comments, notes⟩ := legible
  intro r
  have comment : Reads .kotlin r ((m.comment.map fun text =>
      indentation r.depth ++ "/** " ++ Text.Comment.block text ++ " */\n").getD "") r := by
    cases written : m.comment with
    | none => exact Outline.reads_empty
    | some text =>
      have single := Text.Comment.break_not_mem Text.Comment.isClosing
        (comments text written)
      have line := Outline.reads_nothing .kotlin r
        ("/** " ++ Text.Comment.block text ++ " */")
        (by simpa [Text.Comment.block] using single)
        (by simpa using Language.indentedEvent_kotlin_of_head (by decide) (by decide) _)
      simpa [String.append_assoc] using line
  have deprecation : Reads .kotlin r ((m.deprecation.map fun message =>
      indentation r.depth ++ "@Deprecated(" ++ quoted message ++ ")\n").getD "") r := by
    cases written : m.deprecation with
    | none => exact Outline.reads_empty
    | some message =>
      have line := Outline.reads_nothing .kotlin r
        ("@Deprecated(" ++ quoted message ++ ")")
        (by simpa using notes message written)
        (by simpa using Language.indentedEvent_kotlin_of_head (by decide) (by decide) _)
      simpa [String.append_assoc] using line
  exact (comment.append deprecation).append (reads_bodyText plain values)

end ComposeTheme

end DesignTokens
