/-!
# What can go wrong

The causes for which a dictionary cannot be read or a document cannot be generated, and the sentence
that tells each of them to a user.
-/

namespace DesignTokens

/-- Why a dictionary or a document is not available. -/
inductive Error
  /-- No format is registered under this name. -/
  | unknownFormat (name : String)
  /-- The text is not a dictionary export. -/
  | malformedExport
  /-- The token with this name has no value. -/
  | missingValue (token : String)
  /-- The text given for this parameter is no truth value. -/
  | invalidFlag (key value : String)
  /-- The text is not the name of a mode convention. -/
  | unknownConvention (name : String)
  deriving DecidableEq

def Error.message : Error → String
  | unknownFormat name => "Format '" ++ name ++ "' not found"
  | malformedExport => "Parse error: the text is not a dictionary export"
  | missingValue token =>
    "Invalid token '" ++ token ++ "': token has neither `value` nor `$value`"
  | invalidFlag key value => "Invalid option: invalid boolean '" ++ value ++ "' for '" ++ key ++ "'"
  | unknownConvention name => "Invalid option: unknown mode convention '" ++ name ++ "'"

end DesignTokens
