import DesignTokens.Proofs.SortedAssoc
import DesignTokens.Token

/-!
# The JSON view of a token

The view has each of its keys once (`Token.nodup_jsonMembers`), so that under each there is the
field of the token (`Token.get?_toJson`), whatever other fields the token has.
-/

namespace DesignTokens.Token

open SortedAssoc (find?)

/-- The keys of a JSON view, as far as the token has the fields. -/
def viewKeys : List String :=
  ["value", "type", "comment", "deprecated", "deprecated_comment", "name", "path", "original",
    "attributes"]

theorem map_fst_optional {α : Type} (key : String) (found : Option α) (value : α → Json) :
    ((found.map fun a => (key, value a)).toList.map Prod.fst).Sublist [key] := by
  cases found with
  | none => exact List.nil_sublist _
  | some _ => exact .refl _

theorem keys_jsonMembers (t : Token) : (t.jsonMembers.map Prod.fst).Sublist viewKeys := by
  have notes : ((if t.deprecated then ("deprecated", Json.bool true) ::
      (t.reason.map fun text => ("deprecated_comment", Json.string text)).toList else []).map
        Prod.fst).Sublist ["deprecated", "deprecated_comment"] := by
    split
    · exact (map_fst_optional _ _ _).cons_cons _
    · exact List.nil_sublist _
  rw [jsonMembers]
  simp only [List.map_append]
  exact (((((((List.Sublist.refl ["value"]).append (map_fst_optional _ _ _)).append
    (map_fst_optional _ _ _)).append notes).append (.refl ["name", "path"])).append
      (map_fst_optional _ _ _)).append (map_fst_optional _ _ _))

theorem nodup_jsonMembers (t : Token) : (t.jsonMembers.map Prod.fst).Nodup :=
  (by decide : viewKeys.Nodup).sublist t.keys_jsonMembers

/-- What the view has under a key. -/
def field? (t : Token) : String → Option Json
  | "value" => some t.value
  | "type" => t.typeName.map .string
  | "comment" => t.comment.map .string
  | "deprecated" => if t.deprecated then some (.bool true) else none
  | "deprecated_comment" => (if t.deprecated then t.reason else none).map .string
  | "name" => some (.string t.name)
  | "path" => some (.array (t.path.map .string))
  | "original" => t.raw.map fun raw => .object [("value", raw)]
  | "attributes" => t.category.map fun category => .object [("category", .string category)]
  | _ => none

theorem find?_jsonMembers (t : Token) (key : String) : find? key t.jsonMembers = t.field? key := by
  cases flag : t.deprecated <;> unfold field? <;> split <;>
    simp_all [jsonMembers, SortedAssoc.find?_append, SortedAssoc.find?_map_toList, find?]

theorem get?_toJson (t : Token) (key : String) : t.toJson.get? key = t.field? key :=
  (SortedAssoc.find?_ofList_of_nodup t.nodup_jsonMembers key).trans (t.find?_jsonMembers key)

/-- The token as its view shows it: there is no reason without a deprecation. -/
def shown (t : Token) : Token :=
  { t with reason := if t.deprecated then t.reason else none }

end DesignTokens.Token
