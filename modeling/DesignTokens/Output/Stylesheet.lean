import DesignTokens.Alias
import DesignTokens.Context
import DesignTokens.Identifier
import DesignTokens.Mode.Counterpart
import DesignTokens.Reference

/-!
# Stylesheets

A stylesheet declares one variable per token, in the dialect CSS or SCSS. A plain one declares all
of them in a row. A moded one declares the light tokens as custom properties of the root and the
dark ones once more, under the names of their light counterparts, where a dark rule holds; in SCSS
every light property is also a global variable. Names that were replaced follow the light
declarations when their replacement is among them.

`Stylesheet.plain` and `Stylesheet.moded` say what is declared, `Stylesheet.text` how it is written.
-/

namespace DesignTokens

/-- The language of a stylesheet. -/
inductive Dialect
  | css
  | scss
  deriving DecidableEq

/-- Where the dark declarations of a stylesheet hold. -/
inductive DarkRule
  /-- Below an element of the class `dark`. -/
  | darkClass
  /-- When the user prefers dark colors. -/
  | darkMedia
  deriving DecidableEq

/-- A variable with its value. -/
structure Declaration where
  name : String
  value : String
  comment : Option String

inductive Stylesheet
  | plain (dialect : Dialect) (declarations : List Declaration) (aliases : List Alias)
  | moded (dialect : Dialect) (rule : DarkRule) (light dark : List Declaration)
      (aliases : List Alias)

namespace Stylesheet

/-! ### What is declared -/

/-- The retired names whose replacement is the name of one of the tokens. -/
def aliasesFor (tokens : List Token) : List Alias :=
  Alias.table.filter fun retired => tokens.any fun t => t.name == retired.current

/-- The name of the custom property of a token. -/
def propertyName (dictionary : Dictionary) (context : Context) (t : Token) : String :=
  t.sharedName dictionary context.convention fun canonical =>
    Identifier.hyphenatedName (context.stem :: canonical)

/-- The custom property of a token; a reference is a call of `var`. -/
def property (dictionary : Dictionary) (context : Context) (t : Token) : Declaration :=
  { name := propertyName dictionary context t
    value := Reference.emit dictionary context.outputReferences
      (fun r => "var(--" ++ propertyName dictionary context r ++ ")") t
    comment := t.comment }

/-- The SCSS variable of a token; a reference is another variable. -/
def variableOf (dictionary : Dictionary) (context : Context) (t : Token) : Declaration :=
  { name := t.name
    value := Reference.emit dictionary context.outputReferences (fun r => "$" ++ r.name) t
    comment := t.comment }

/-- The stylesheet of a dictionary without modes. -/
def ofTokens (dialect : Dialect) (dictionary : Dictionary) (context : Context) : Stylesheet :=
  let declare :=
    match dialect with
    | .css => property
    | .scss => variableOf
  plain dialect (dictionary.tokens.map (declare dictionary context))
    (aliasesFor dictionary.tokens)

/-- The stylesheet of a dictionary with modes. -/
def ofVariants (dialect : Dialect) (rule : DarkRule) (dictionary : Dictionary) (context : Context) :
    Stylesheet :=
  let light := dictionary.tokens.filter fun t => !t.isDark context.convention
  let dark := dictionary.tokens.filter fun t => t.isDark context.convention
  moded dialect rule (light.map (property dictionary context))
    (dark.map (property dictionary context)) (aliasesFor light)

/-! ### How it is written -/

/-- A comment behind a custom property. -/
def trailingNote (comment : Option String) : String :=
  match comment with
  | some text => " /** " ++ Text.Comment.block text ++ " */"
  | none => ""

/-- A comment behind a variable of SCSS. -/
def lineNote (comment : Option String) : String :=
  match comment with
  | some text => " // " ++ Text.Comment.line text
  | none => ""

def propertyText (indent : String) (d : Declaration) : String :=
  indent ++ "--" ++ d.name ++ ": " ++ d.value ++ ";" ++ trailingNote d.comment

/-- The lines of custom properties, without a break at the end. -/
def propertiesText (indent : String) (declarations : List Declaration) : String :=
  "\n".intercalate (declarations.map (propertyText indent))

def aliasProperties (indent : String) (aliases : List Alias) : String :=
  String.join (aliases.map fun retired =>
    "\n" ++ indent ++ "--" ++ retired.legacy ++ ": var(--" ++ retired.current ++ ");" ++
      trailingNote retired.comment)

def variableLine (d : Declaration) : String :=
  "$" ++ d.name ++ ": " ++ d.value ++ ";" ++ lineNote d.comment

def aliasLine (retired : Alias) : String :=
  "$" ++ retired.legacy ++ ": $" ++ retired.current ++ ";" ++ lineNote retired.comment

/-- The line of a global variable of SCSS that stands for a custom property. -/
def globalLine (d : Declaration) : String :=
  "$" ++ d.name ++ ": var(--" ++ d.name ++ ");"

def rootBlock (declarations : List Declaration) (aliases : List Alias) : String :=
  ":root \x7b\n" ++ propertiesText "  " declarations ++ aliasProperties "  " aliases ++ "\n\x7d\n"

def darkBlock (declarations : List Declaration) : DarkRule → String
  | .darkClass => ".dark \x7b\n" ++ propertiesText "  " declarations ++ "\n\x7d"
  | .darkMedia =>
    "@media (prefers-color-scheme: dark) \x7b\n  :root \x7b\n" ++
      propertiesText "    " declarations ++ "\n  \x7d\n\x7d\n"

/-- The break that ends the dark block if it does not end in one. -/
def darkEnd : DarkRule → String
  | .darkClass => "\n"
  | .darkMedia => ""

/-- The text of a stylesheet behind its header. -/
def text : Stylesheet → String
  | plain .css declarations aliases => rootBlock declarations aliases
  | plain .scss declarations aliases =>
    "\n".intercalate (declarations.map variableLine ++ aliases.map aliasLine) ++ "\n"
  | moded .css rule light dark aliases => rootBlock light aliases ++ "\n" ++ darkBlock dark rule
  | moded .scss rule light dark aliases =>
    rootBlock light aliases ++ "\n" ++ darkBlock dark rule ++ darkEnd rule ++ "\n" ++
      "\n".intercalate (light.map globalLine ++ aliases.map aliasLine) ++ "\n"

end Stylesheet
end DesignTokens
