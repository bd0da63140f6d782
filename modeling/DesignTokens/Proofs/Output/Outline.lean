import DesignTokens.Output.Container
import Mathlib.Data.List.Basic

/-!
# The outline of a source

A source opens and closes containers, each on a line of its own, and its members stand in them on
lines that begin with a word of the language. `Language.Holds` is the grammar of such sources: the
lines of each member are found behind the names of the containers around it, and its own name.
`Language.read?` reads the names off a source line by line, by a stack of the containers that are
open. The names of a container are read back from its text if every line is what it seems to be
(`Container.read?_text`).
-/

namespace DesignTokens

/-! ### Containers of names -/

namespace Container

variable {α β : Type}

/-- How far a line in this many containers is indented. -/
def indentation : Nat → String
  | 0 => ""
  | depth + 1 => deeper (indentation depth)

theorem break_not_mem_indentation (depth : Nat) : '\n' ∉ (indentation depth).toList := by
  induction depth with
  | zero => simp [indentation]
  | succ depth ih => simp [indentation, deeper, ih]

mutual

def mapMembers (f : α → β) : Container α → Container β
  | mk name children members => mk name (mapMemberss f children) (members.map f)

def mapMemberss (f : α → β) : List (Container α) → List (Container β)
  | [] => []
  | child :: rest => mapMembers f child :: mapMemberss f rest

end

mutual

/-- All names of containers and all members are as they should be. -/
def All (named : String → Prop) (holds : α → Prop) : Container α → Prop
  | mk name children members => named name ∧ Alls named holds children ∧ ∀ m ∈ members, holds m

def Alls (named : String → Prop) (holds : α → Prop) : List (Container α) → Prop
  | [] => True
  | child :: rest => All named holds child ∧ Alls named holds rest

end

/-- The container with more containers and members in it. -/
def add (children : List (Container α)) (members : List α) : Container α → Container α
  | mk name before own => mk name (before ++ children) (own ++ members)

end Container

namespace Outline

open Container (indentation)

/-- The words that open containers, and the word that opens a member. -/
structure Language where
  containers : List String
  member : String

/-! ### The grammar of sources -/

/-- A character that does not end the name of a member. -/
def isNameChar (c : Char) : Bool :=
  c != ' ' && c != ':' && c != '\n'

theorem break_not_mem_of_isNameChar {name : String} (h : name.toList.all isNameChar) :
    '\n' ∉ name.toList :=
  fun found => by simpa [isNameChar] using List.all_eq_true.1 h _ found

namespace Language

/-- The lines declare a member of this name in this many containers. -/
def IsMember (language : Language) (depth : Nat) (name lines : String) : Prop :=
  name.toList.all isNameChar ∧ ∃ lead rest : String,
    (rest.toList.head?.any fun c => !isNameChar c) ∧
    lines = lead ++ indentation depth ++ language.member ++ name ++ rest

/-- The text is containers and members, one behind the other; and what is found in it are the lines
of the members, each behind the names of the containers around it and its own. -/
inductive Holds (language : Language) : Nat → String → List (List String × String) → Prop
  | nil (depth : Nat) : Holds language depth "" []
  | member {depth : Nat} {name lines rest : String} {found : List (List String × String)}
    (declares : language.IsMember depth name lines) (behind : Holds language depth rest found) :
    Holds language depth (lines ++ rest) (([name], lines) :: found)
  | container {depth : Nat} {word name body rest : String}
    {inner found : List (List String × String)} (opens : word ∈ language.containers)
    (inside : Holds language (depth + 1) body inner) (behind : Holds language depth rest found) :
    Holds language depth
      (indentation depth ++ word ++ " " ++ name ++ " \x7b\n" ++ body ++ indentation depth ++
        "\x7d\n" ++ rest)
      (inner.map (Prod.map (name :: ·) id) ++ found)

theorem Holds.append {language : Language} {depth : Nat} {front behind : String}
    {found more : List (List String × String)} (h : language.Holds depth front found)
    (h' : language.Holds depth behind more) :
    language.Holds depth (front ++ behind) (found ++ more) := by
  induction h with
  | nil => simpa using h'
  | member declares _ ih => simpa [String.append_assoc] using Holds.member declares (ih h')
  | container opens inside _ _ ih =>
    simpa [String.append_assoc] using Holds.container opens inside (ih h')

/-! ### Reading a source -/

/-- What a line does. -/
inductive Event
  | opens (name : String)
  | declares (name : String)
  | closes
  | nothing

/-- The name of the container that the line opens. -/
def opened? (language : Language) (line : List Char) : Option String :=
  language.containers.findSome? fun word =>
    (line.dropPrefix? (word ++ " ").toList).bind fun rest =>
      (rest.dropSuffix? " \x7b".toList).map String.ofList

/-- What a line does that is indented as far as the innermost container asks for. -/
def indentedEvent (language : Language) (line : List Char) : Event :=
  match line.dropPrefix? language.member.toList with
  | some rest => .declares (String.ofList (rest.takeWhile isNameChar))
  | none =>
    match language.opened? line with
    | some name => .opens name
    | none => .nothing

/-- Whether the line closes the innermost of this many containers. -/
def closes (line : List Char) : Nat → Bool
  | 0 => false
  | depth + 1 => line == (indentation depth).toList ++ ['\x7d']

/-- What a line does in this many containers. -/
def event (language : Language) (depth : Nat) (line : List Char) : Event :=
  match line.dropPrefix? (indentation depth).toList with
  | some behind => language.indentedEvent behind
  | none => if closes line depth then .closes else .nothing

end Language

/-- The containers that are open, the innermost one apart, as far as they were read. -/
structure Reading where
  inner : Container String
  outer : List (Container String)

namespace Reading

/-- How many containers are open. What stands in none is read into a container without a name. -/
def depth (r : Reading) : Nat :=
  r.outer.length

/-- The innermost container with more in it. -/
def add (r : Reading) (children : List (Container String)) (members : List String) : Reading :=
  { r with inner := r.inner.add children members }

/-- One line more. -/
def step (language : Language) (r : Reading) (line : List Char) : Reading :=
  match language.event r.depth line with
  | .opens name => ⟨.mk name [] [], r.inner :: r.outer⟩
  | .declares name => r.add [] [name]
  | .closes =>
    match r.outer with
    | [] => r
    | parent :: outer => ⟨parent.add [r.inner] [], outer⟩
  | .nothing => r

end Reading

/-- What is read of all lines of a text. -/
def Language.read (language : Language) (r : Reading) (cs : List Char) : Reading :=
  (cs.splitOn '\n').foldl (Reading.step language) r

/-- The containers of a source, with the names of their members. -/
def Language.read? (language : Language) (text : String) : Option (List (Container String)) :=
  match language.read ⟨.mk "" [] [], []⟩ text.toList with
  | ⟨.mk _ children [], []⟩ => some children
  | _ => none

/-- Reading the text leads from one reading to another, whatever stands behind it. -/
def Reads (language : Language) (r : Reading) (text : String) (r' : Reading) : Prop :=
  ∀ rest, language.read r (text.toList ++ rest) = language.read r' rest

variable {language : Language} {r r' r'' : Reading}

theorem reads_empty : Reads language r "" r :=
  fun _ => rfl

theorem Reads.append {text more : String} (h : Reads language r text r')
    (h' : Reads language r' more r'') : Reads language r (text ++ more) r'' := by
  intro rest
  rw [String.toList_append, List.append_assoc, h, h']

/-- Behind the last break of a text there is nothing to read. -/
theorem Reads.read_eq {text : String} (h : Reads language r text r') (bottom : r'.outer = [])
    (blank : language.indentedEvent [] = .nothing) : language.read r text.toList = r' := by
  obtain ⟨inner, outer⟩ := r'
  obtain rfl : outer = [] := bottom
  have event : language.event 0 [] = .nothing := blank
  have last := h []
  rwa [List.append_nil, Language.read, Language.read, List.splitOn_nil, List.foldl_cons,
    List.foldl_nil, Reading.step, Reading.depth, List.length_nil, event] at last

theorem Reads.read?_eq {text : String} {children : List (Container String)}
    (h : Reads language ⟨.mk "" [] [], []⟩ text ⟨.mk "" children [], []⟩)
    (blank : language.indentedEvent [] = .nothing) : language.read? text = some children := by
  rw [Language.read?, h.read_eq rfl blank]

theorem reads_line (language : Language) (r : Reading) (line : String)
    (single : '\n' ∉ line.toList) :
    Reads language r (line ++ "\n") (r.step language line.toList) := by
  intro rest
  have text : (line ++ "\n").toList ++ rest = line.toList ++ '\n' :: rest := by simp
  rw [text, Language.read, List.splitOn_append_cons_self_of_not_mem single]
  rfl

theorem dropPrefix?_of_length_lt {line front : List Char} (short : line.length < front.length) :
    line.dropPrefix? front = none := by
  rw [Option.eq_none_iff_forall_ne_some]
  intro rest found
  obtain ⟨same, spelled, equal⟩ := List.dropPrefix?_eq_some_iff.1 found
  rw [eq_of_beq equal] at spelled
  rw [spelled, List.length_append] at short
  omega

theorem event_nil (blank : language.indentedEvent [] = .nothing) (depth : Nat) :
    language.event depth [] = .nothing := by
  cases depth with
  | zero => exact blank
  | succ depth =>
    have short : ([] : List Char).length < (indentation (depth + 1)).toList.length := by
      simp [indentation, Container.deeper]
    rw [Language.event, dropPrefix?_of_length_lt short]
    simp [Language.closes]

theorem reads_blank (blank : language.indentedEvent [] = .nothing) : Reads language r "\n" r := by
  have reads := reads_line language r "" (by simp)
  rwa [String.toList_empty, Reading.step, event_nil blank, String.empty_append] at reads

/-! ### Lines of which the indentation is known -/

theorem event_indented (depth : Nat) (behind : List Char) :
    language.event depth ((indentation depth).toList ++ behind) =
      language.indentedEvent behind := by
  rw [Language.event, List.dropPrefix?_append_of_beq _ (beq_self_eq_true _)]

theorem event_closing (depth : Nat) :
    language.event (depth + 1) ((indentation depth).toList ++ ['\x7d']) = .closes := by
  have less : ((indentation depth).toList ++ ['\x7d']).length <
      (indentation (depth + 1)).toList.length := by
    simp [indentation, Container.deeper]
  rw [Language.event, dropPrefix?_of_length_lt less]
  simp [Language.closes]

/-- The word opens a container, with whatever name. -/
def Language.Opens (language : Language) (word : String) : Prop :=
  word ∈ language.containers ∧ '\n' ∉ word.toList ∧ ∀ name : String,
    language.indentedEvent (word ++ " " ++ name ++ " \x7b").toList = .opens name

theorem Reading.add_add (r : Reading) (children more : List (Container String))
    (members others : List String) :
    (r.add children members).add more others = r.add (children ++ more) (members ++ others) := by
  obtain ⟨⟨name, before, own⟩, outer⟩ := r
  simp [Reading.add, Container.add, List.append_assoc]

theorem Reading.depth_add (r : Reading) (children : List (Container String))
    (members : List String) : (r.add children members).depth = r.depth :=
  rfl

theorem Reading.add_nil (r : Reading) : r.add [] [] = r := by
  obtain ⟨⟨name, before, own⟩, outer⟩ := r
  simp [Reading.add, Container.add]

theorem reads_opening {word name : String} (opens : language.Opens word)
    (single : '\n' ∉ name.toList) :
    Reads language r (indentation r.depth ++ word ++ " " ++ name ++ " \x7b\n")
      ⟨.mk name [] [], r.inner :: r.outer⟩ := by
  obtain ⟨-, word_single, event⟩ := opens
  have line : '\n' ∉ (indentation r.depth ++ (word ++ " " ++ name ++ " \x7b")).toList := by
    simp [Container.break_not_mem_indentation, word_single, single]
  have reads := reads_line language r _ line
  rw [String.toList_append, Reading.step, event_indented, event] at reads
  simpa [String.append_assoc] using reads

theorem reads_closing (language : Language) (r : Reading) (inner : Container String) :
    Reads language ⟨inner, r.inner :: r.outer⟩ (indentation r.depth ++ "\x7d\n")
      (r.add [inner] []) := by
  have line : '\n' ∉ (indentation r.depth ++ "\x7d").toList := by
    simp [Container.break_not_mem_indentation]
  have closes : language.event (Reading.depth ⟨inner, r.inner :: r.outer⟩)
      (indentation r.depth ++ "\x7d").toList = .closes := by
    rw [String.toList_append]
    exact event_closing r.depth
  have reads := reads_line language ⟨inner, r.inner :: r.outer⟩ _ line
  rw [Reading.step, closes] at reads
  simpa [String.append_assoc, Reading.add] using reads

end Outline

namespace Container

open Outline (Language Reading Reads)

variable {α : Type} {language : Language} {keyword : String} (nameOf : α → String)
  (memberText : String → α → String)

/-- The lines of the member are read as one member of its name. -/
def ReadsMember (language : Language) (nameOf : α → String) (memberText : String → α → String)
    (m : α) : Prop :=
  ∀ r : Reading, Reads language r (memberText (indentation r.depth) m) (r.add [] [nameOf m])

theorem reads_members {members : List α}
    (each : ∀ m ∈ members, ReadsMember language nameOf memberText m) (r : Reading) :
    Reads language r (String.join (members.map (memberText (indentation r.depth))))
      (r.add [] (members.map nameOf)) := by
  induction members generalizing r with
  | nil => simpa [Reading.add_nil] using Outline.reads_empty
  | cons m members ih =>
    rw [List.forall_mem_cons] at each
    have rest := ih each.2 (r.add [] [nameOf m])
    rw [Reading.add_add, Reading.depth_add] at rest
    simpa using (each.1 r).append rest

mutual

/-- The text of a container is read as the container of its names. -/
theorem reads_text (opens : language.Opens keyword) : ∀ (container : Container α) (r : Reading),
    container.All ('\n' ∉ ·.toList) (ReadsMember language nameOf memberText) →
    Reads language r (container.text keyword memberText (indentation r.depth))
      (r.add [container.mapMembers nameOf] [])
  | .mk name children members, r, ⟨single, below, own⟩ => by
    have inside : Reads language ⟨mk name [] [], r.inner :: r.outer⟩
        (texts keyword memberText (deeper (indentation r.depth)) children)
        ⟨mk name (mapMemberss nameOf children) [], r.inner :: r.outer⟩ :=
      reads_texts opens children ⟨mk name [] [], r.inner :: r.outer⟩ below
    have last : Reads language ⟨mk name (mapMemberss nameOf children) [], r.inner :: r.outer⟩
        (String.join (members.map (memberText (deeper (indentation r.depth)))))
        ⟨(mk name children members).mapMembers nameOf, r.inner :: r.outer⟩ := by
      have all := reads_members nameOf memberText own
        ⟨mk name (mapMemberss nameOf children) [], r.inner :: r.outer⟩
      rwa [Reading.add, Container.add, List.append_nil, List.nil_append, ← mapMembers] at all
    have whole := (((Outline.reads_opening opens single).append inside).append last).append
      (Outline.reads_closing language r _)
    rw [text]
    simpa only [String.append_assoc] using whole

theorem reads_texts (opens : language.Opens keyword) :
    ∀ (children : List (Container α)) (r : Reading),
    Alls ('\n' ∉ ·.toList) (ReadsMember language nameOf memberText) children →
    Reads language r (texts keyword memberText (indentation r.depth) children)
      (r.add (mapMemberss nameOf children) [])
  | [], r, _ => by
    rw [texts, mapMemberss, Reading.add_nil]
    exact Outline.reads_empty
  | child :: rest, r, ⟨first, behind⟩ => by
    have more := reads_texts opens rest (r.add [child.mapMembers nameOf] []) behind
    rw [Reading.add_add, Reading.depth_add] at more
    exact (reads_text opens child r first).append more

end

theorem read?_text (opens : language.Opens keyword) (blank : language.indentedEvent [] = .nothing)
    (container : Container α)
    (all : container.All ('\n' ∉ ·.toList) (ReadsMember language nameOf memberText)) :
    language.read? (container.text keyword memberText "") = some [container.mapMembers nameOf] :=
  (reads_text nameOf memberText opens container ⟨.mk "" [] [], []⟩ all).read?_eq blank

end Container
end DesignTokens
