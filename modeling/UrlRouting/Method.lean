/-!
# Request methods

The nine methods of a request, their names, and reading a name in any mixture of ASCII capitals and
small letters.
-/

namespace UrlRouting

/-- A request method. -/
inductive Method where
  /-- Fetch a resource. -/
  | get
  /-- Fetch the header of a resource only. -/
  | head
  /-- Submit to a resource. -/
  | post
  /-- Store a resource. -/
  | put
  /-- Remove a resource. -/
  | delete
  /-- Open a tunnel. -/
  | connect
  /-- Ask for the means of communication. -/
  | options
  /-- Echo the request. -/
  | trace
  /-- Change a part of a resource. -/
  | patch
  deriving DecidableEq, Repr

namespace Method

/-- All methods, in the order of their numbers. -/
def all : List Method := [.get, .head, .post, .put, .delete, .connect, .options, .trace, .patch]

/-- The name of a method, in capitals. -/
def name : Method → String
  | .get => "GET"
  | .head => "HEAD"
  | .post => "POST"
  | .put => "PUT"
  | .delete => "DELETE"
  | .connect => "CONNECT"
  | .options => "OPTIONS"
  | .trace => "TRACE"
  | .patch => "PATCH"

/-- The number of a method: its place among all of them. -/
def number (m : Method) : Nat := all.idxOf m

/-- Reads a method name; the case of ASCII letters does not matter. -/
def ofName? (text : String) : Option Method :=
  all.find? fun m => m.name.toList == text.toList.map Char.toUpper

/-- What is said about a text that names no method. -/
def unknownMessage (text : String) : String := "unknown http method '" ++ text ++ "'"

/-- The name of a requested method, or of the absence of one. -/
def label : Option Method → String
  | some m => m.name
  | none => "ANY"

end Method

end UrlRouting
