import UrlRouting.Consult
import UrlRouting.Router.Options
import UrlRouting.Tree.Names
import UrlRouting.Url.Form

/-!
# Building urls

The url of a node is a path, and a host in front of it if one is set on the node or above it, or if
the url is to be absolute. The path is that of the node behind those of the groups around it, and a
path that would be empty is a slash. Whatever no schema has used up follows as a query.

The node's own schema is filled first, then those of the groups from the inside out, and the schema
of the host last. So what the inner ones use up is not there any more for the outer ones.
-/

namespace UrlRouting

/-! ### Hosts -/

/-- What stands in front of the first `://`. -/
def schemePart? : List Char → Option (List Char)
  | [] => none
  | c :: rest =>
    if c = ':' ∧ (behind? ['/', '/'] rest).isSome then some []
    else (schemePart? rest).map (c :: ·)

/-- Does the text begin with a scheme: a letter, then letters, digits, `+`, `-` and dots, up to
`://`? -/
def hasScheme (host : String) : Bool :=
  match schemePart? host.toList with
  | none => false
  | some scheme =>
    scheme.head?.any Char.isAlpha &&
      scheme.all fun c => c.isAlphanum || c == '+' || c == '-' || c == '.'

/-- A host with its scheme: its own one if it has one, else the given one. -/
def withScheme (host : String) (secure : Bool) : String :=
  let scheme := if secure then "https" else "http"
  if hasScheme host then host
  else
    match behind? ['/', '/'] host.toList with
    | some rest => scheme ++ "://" ++ String.ofList rest
    | none => scheme ++ "://" ++ host

namespace Tree

/-! ### Paths -/

/-- The path of the first of some nodes, of which each next one is the parent of the one in front,
and the parameters that remain. -/
def pathOf (t : Tree) (view : View) : List Node → Params → Consult (String × Params)
  | [], params => return ("", params)
  | n :: above, params => do
    let compiled ← Consult.node view n.id
    let (own, params) ← Consult.lift (t.fillSchema n.id n.schema compiled.schema params)
    match above with
    | [] => return (own, params)
    | parent :: _ =>
      if parent.isGroup then
        let (front, params) ← pathOf t view above params
        return (front ++ own, params)
      else return (own, params)

/-! ### Urls -/

/-- The schema of the host of a url, if it has one. -/
def hostSchema? (t : Tree) (options : Options) (id : NodeId) (absolute : Bool) :
    Except RouterError (Option String) :=
  match t.host? id with
  | some host => .ok (some host)
  | none =>
    if absolute then
      match options.defaultHost with
      | some host => .ok (some host)
      | none => .error (.missingHost (((t.get? id).bind (·.name)).getD ""))
    else .ok none

/-- The host of a url, and the parameters that remain. Its schema is compiled with what is set at
the node. -/
def hostText (t : Tree) (options : Options) (id : NodeId) (schema : String) (params : Params) :
    Except RouterError (String × Params) := do
  let compiled ←
    (CompiledSchema.ofText schema (t.compileContext id options.defaultPattern)).mapError .schema
  let (host, params) ← t.fillSchema id schema compiled params
  return (withScheme host options.secure, params)

/-- The url of a node in front of its query, and the parameters that remain for that. -/
def urlFront (t : Tree) (view : View) (options : Options) (id : NodeId) (params : Params)
    (absolute : Bool) : Consult (String × Params) := do
  let (path, params) ← t.pathOf view (t.chain id) params.given
  let path := if path.isEmpty then "/" else path
  match ← Consult.lift (t.hostSchema? options id absolute) with
  | none => return (path, params)
  | some schema =>
    let (host, params) ← Consult.lift (t.hostText options id schema params)
    return (host ++ path, params)

/-- The url of a node. -/
def url (t : Tree) (view : View) (options : Options) (id : NodeId) (params : Params)
    (absolute : Bool) : Consult String := do
  let (front, params) ← t.urlFront view options id params absolute
  if options.appendQuery && !params.isEmpty then
    let query ← Consult.lift (Form.query params)
    return front ++ "?" ++ query
  else return front

end Tree

end UrlRouting
