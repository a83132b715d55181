import UrlRouting.Params

/-!
# Matches

What a path says about the parameters of a route that matched it, twice: the *clean* values, after
defaults and types, and the *bound* ones, after the binders. The match of a route inside groups is
put together from the inside out (`UrlRouting.RouteMatch.nestUnder`), the inner values having
precedence over the outer ones.
-/

namespace UrlRouting

/-- A match of a path. -/
structure RouteMatch where
  /-- The path. -/
  path : String
  /-- The values after the binders. -/
  params : Params
  /-- The values after defaults and types. -/
  clean : Params
  deriving Repr

namespace RouteMatch

/-- The value of a parameter after the binders. -/
def param? (m : RouteMatch) (name : String) : Option Value := m.params.get? name

/-- The value of a parameter after defaults and types. -/
def cleanParam? (m : RouteMatch) (name : String) : Option Value := m.clean.get? name

/-- The match seen from the group around it: its full path, and its parameters below. -/
def nestUnder (m : RouteMatch) (path : String) (params clean : Params) : RouteMatch :=
  ⟨path, m.params.underlay params, m.clean.underlay clean⟩

end RouteMatch

end UrlRouting
