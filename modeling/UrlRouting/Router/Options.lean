import UrlRouting.Regex.Basic
import UrlRouting.Schema.Pattern
import UrlRouting.Text.Blank
import UrlRouting.Value.Basic

/-!
# Options of a router

Five options, their defaults, which values of them make sense
(`UrlRouting.Options.invalid?`), and how they are read from a value
(`UrlRouting.Options.ofValue?`): from an object by name, or from a list by position. What is not
given keeps its default, and fields of other names are passed over.
-/

namespace UrlRouting

/-- The options of a router. -/
structure Options where
  /-- The pattern of parameters of which nothing else is said. -/
  defaultPattern : String := Pattern.default
  /-- The host of absolute urls where no other host is set. -/
  defaultHost : Option String := none
  /-- Do urls with a host begin with `https`? -/
  secure : Bool := false
  /-- Does what no schema uses go into the query? -/
  appendQuery : Bool := true
  /-- What stands between namespaces. -/
  separator : String := "."
  deriving DecidableEq, Repr

/-- What can be wrong with options. -/
inductive OptionsError where
  /-- The default pattern is empty. -/
  | emptyPattern
  /-- The default pattern is no regular expression. -/
  | invalidPattern (pattern : String)
  /-- The default host is white space. -/
  | emptyHost
  /-- Nothing stands between namespaces. -/
  | emptySeparator
  deriving DecidableEq, Repr

/-- The message of an error. What is wrong with a pattern is not part of it. -/
def OptionsError.message : OptionsError → String
  | .emptyPattern => "param_pattern_default must not be empty"
  | .invalidPattern pattern => "param_pattern_default '" ++ pattern ++ "' is not a valid regex"
  | .emptyHost => "default_host must not be blank"
  | .emptySeparator => "namespace_separator must not be empty"

namespace Options

/-- The first thing that is wrong with options. -/
def invalid? (o : Options) : Option OptionsError :=
  if o.defaultPattern.isEmpty then some .emptyPattern
  else if (Regex.compile? (Regex.anchored o.defaultPattern)).isNone then
    some (.invalidPattern o.defaultPattern)
  else if o.defaultHost.any Text.isBlankText then some .emptyHost
  else if o.separator.isEmpty then some .emptySeparator
  else none

/-! ### Reading -/

/-- A text, if one is given. -/
def textOr (standard : String) : Option Value → Option String
  | none => some standard
  | some (.str s) => some s
  | some _ => none

/-- A text or null, if one is given. -/
def textOrNull (standard : Option String) : Option Value → Option (Option String)
  | none => some standard
  | some .null => some none
  | some (.str s) => some (some s)
  | some _ => none

/-- A truth value, if one is given. -/
def boolOr (standard : Bool) : Option Value → Option Bool
  | none => some standard
  | some (.bool b) => some b
  | some _ => none

/-- The options with the given values, of which some may be absent. -/
def ofParts? (defaultPattern defaultHost secure appendQuery separator : Option Value) :
    Option Options := do
  let standard : Options := {}
  return {
    defaultPattern := ← textOr standard.defaultPattern defaultPattern
    defaultHost := ← textOrNull standard.defaultHost defaultHost
    secure := ← boolOr standard.secure secure
    appendQuery := ← boolOr standard.appendQuery appendQuery
    separator := ← textOr standard.separator separator }

/-- Reads options. -/
def ofValue? : Value → Option Options
  | .obj fields =>
    ofParts? (fields.lookup "param_pattern_default") (fields.lookup "default_host")
      (fields.lookup "secure") (fields.lookup "append_query") (fields.lookup "namespace_separator")
  | .arr items =>
    if items.length ≤ 5 then ofParts? items[0]? items[1]? items[2]? items[3]? items[4]? else none
  | _ => none

end Options

end UrlRouting
