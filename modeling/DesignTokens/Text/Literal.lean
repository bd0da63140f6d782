import DesignTokens.Text.Blank

/-!
# Free text inside literals

The bodies of quoted texts in the generated sources: markup text and attribute values (`xml`), and
the string literals of Kotlin and Swift. Each is a map on single characters, `escape` says what a
character becomes, and the quotes around the body are the caller's.
-/

namespace DesignTokens.Text.Literal

/-- The entity of a character that markup gives a meaning to. -/
def entity : Char → List Char
  | '&' => "&amp;".toList
  | '<' => "&lt;".toList
  | '>' => "&gt;".toList
  | '"' => "&quot;".toList
  | c => [c]

/-- The body of a Kotlin literal escapes backslashes, quotes and the `$` of a template. -/
def kotlinEscape : Char → List Char
  | '\\' => ['\\', '\\']
  | '"' => ['\\', '"']
  | '$' => ['\\', '$']
  | c => [c]

/-- The body of a Swift literal escapes backslashes, quotes, line breaks and tabs. -/
def swiftEscape : Char → List Char
  | '\\' => ['\\', '\\']
  | '"' => ['\\', '"']
  | '\n' => ['\\', 'n']
  | '\r' => ['\\', 'r']
  | '\t' => ['\\', 't']
  | c => [c]

def xml (text : String) : String :=
  onChars (·.flatMap entity) text

def kotlin (text : String) : String :=
  onChars (·.flatMap kotlinEscape) text

def swift (text : String) : String :=
  onChars (·.flatMap swiftEscape) text

end DesignTokens.Text.Literal
