import DesignTokens.Context
import DesignTokens.Dictionary
import DesignTokens.Output.MergedTree

/-!
# Script modules

The merged token tree as an object literal inside a module that registers itself with whichever
module system it finds. The literal is JSON text but for the doc comments in front of its tokens.
-/

namespace DesignTokens.ScriptModule

open Json (quoteChars newline)

/-- The name under which the module registers itself. -/
def globalVariable : String := "_styleDictionary"

/-- The blanks of `depth` levels. -/
def blanks (depth : Nat) : List Char :=
  List.replicate (2 * depth) ' '

/-- The doc comment of a token on lines of its own. -/
def docComment (depth : Nat) : List String → List Char
  | [] => []
  | [line] => blanks depth ++ "/** ".toList ++ line.toList ++ " */\n".toList
  | lines =>
    blanks depth ++ "/**\n".toList ++
      lines.flatMap (fun line => blanks depth ++ " * ".toList ++ line.toList ++ ['\n']) ++
      blanks depth ++ " */\n".toList

mutual

/-- The literal of a group whose first line stands `depth` levels deep. -/
def groupChars (depth : Nat) : List (String × Json) → List Char
  | [] => ['\x7b', '\x7d']
  | (key, value) :: rest =>
    '\x7b' :: '\n' :: memberChars (depth + 1) key value ++ moreChars depth rest

/-- The members behind the first one, and the closing bracket. -/
def moreChars (depth : Nat) : List (String × Json) → List Char
  | [] => '\n' :: blanks depth ++ ['\x7d']
  | (key, value) :: rest =>
    ',' :: '\n' :: memberChars (depth + 1) key value ++ moreChars depth rest

/-- A member on lines `depth` levels deep, a token with its doc comment. -/
def memberChars (depth : Nat) (key : String) : Json → List Char
  | .object members =>
    if (MergedTree.tokenValue? members).isSome then
      docComment depth (MergedTree.notesOf members) ++ blanks depth ++ quoteChars key.toList ++
        ':' :: ' ' :: (Json.object members).prettyChars depth
    else
      blanks depth ++ quoteChars key.toList ++ ':' :: ' ' :: groupChars depth members
  | value => blanks depth ++ quoteChars key.toList ++ ':' :: ' ' :: value.compactChars

end

/-- The literal of a merged tree, one level deep in its module. -/
def literal (tree : JsonObject) : List Char :=
  groupChars 1 tree

/-- The text of a module behind its header. -/
def text (tree : JsonObject) : String :=
  "(function (root, factory) \x7b\n" ++
  "  if (typeof module === \"object\" && module.exports) \x7b\n" ++
  "    module.exports = factory();\n" ++
  "  \x7d else if (typeof exports === \"object\") \x7b\n" ++
  "    exports[\"" ++ globalVariable ++ "\"] = factory();\n" ++
  "  \x7d else if (typeof define === \"function\" && define.amd) \x7b\n" ++
  "    define([], factory);\n" ++
  "  \x7d else \x7b\n" ++
  "    root[\"" ++ globalVariable ++ "\"] = factory();\n" ++
  "  \x7d\n" ++
  "\x7d)(this, function () \x7b\n" ++
  "  return " ++ String.ofList (literal tree) ++ ";\n" ++
  "\x7d);\n"

def ofDictionary (dictionary : Dictionary) (context : Context) : JsonObject :=
  MergedTree.ofTokens context.convention dictionary.tokens

end DesignTokens.ScriptModule
