import DesignTokens.Path
import DesignTokens.Text.Comment

/-!
# Headers of generated files

A generated file starts with a comment that warns against changing it. The comment's style follows
the extension of the file's name: markup, lines, a block, or nothing where there are no comments.
-/

namespace DesignTokens

/-- The way in which a header is a comment. -/
inductive HeaderStyle
  /-- One comment of a markup file, `<!-- -->`. -/
  | xml
  /-- A comment per line, `//`. -/
  | line
  /-- One block comment, `/** */`. -/
  | block
  /-- No header at all. -/
  | none
  deriving DecidableEq

namespace HeaderStyle

/-- The style for a file of this name. -/
def ofDestination (destination : String) : HeaderStyle :=
  match Path.extension? destination with
  | some "xml" => xml
  | some "swift" => line
  | some "json" => none
  | _ => block

def name : HeaderStyle → String
  | xml => "Xml"
  | line => "Line"
  | block => "Block"
  | none => "None"

/-- The lines of a header as one comment, and the blank line that follows it in code. -/
def wrap (lines : List String) : HeaderStyle → String
  | xml =>
    "<!--\n" ++ String.join (lines.map fun text => "  " ++ Text.Comment.xml text ++ "\n") ++ "-->\n"
  | line =>
    "//\n" ++ String.join (lines.map fun text => "// " ++ Text.Comment.line text ++ "\n") ++
      "//\n\n"
  | block =>
    "/**\n" ++ String.join (lines.map fun text => " * " ++ Text.Comment.block text ++ "\n") ++
      " */\n\n"
  | none => ""

end HeaderStyle

namespace Header

/-- The line of a header for which no other is given. -/
def defaultLine : String := "Do not edit directly, this file was auto-generated."

def text (destination : String) (lines : List String) : String :=
  (HeaderStyle.ofDestination destination).wrap (if lines.isEmpty then [defaultLine] else lines)

end Header
end DesignTokens
