import UrlRouting.Value.Basic

/-!
# Parameters

An ordered map from names to values. A name keeps the place of its first insertion for as long as
it is there; a later insertion replaces the value in place. Actions receive the values by position,
so the order is part of the meaning.

* `UrlRouting.Params.insert`, `get?`, `erase` – the map;
* `UrlRouting.Params.filter` – keeps some entries, in their order;
* `UrlRouting.Params.underlay` – a map with the entries of another one below it, as far as their
  names are free.
-/

namespace UrlRouting

/-- Parameters, in order. Every operation of this file keeps the names distinct. -/
structure Params where
  /-- The entries, in order. -/
  entries : List (String × Value)
  deriving Repr

namespace Params

/-- No parameters. -/
def empty : Params := ⟨[]⟩

instance : Inhabited Params := ⟨empty⟩

/-! ### Looking up -/

/-- The value of a name. -/
def get? (p : Params) (name : String) : Option Value := p.entries.lookup name

/-- Is there a value for the name? -/
def contains (p : Params) (name : String) : Bool := (p.get? name).isSome

/-- The names, in order. -/
def names (p : Params) : List String := p.entries.map (·.1)

/-- The values, in order. -/
def values (p : Params) : List Value := p.entries.map (·.2)

/-- The number of entries. -/
def size (p : Params) : Nat := p.entries.length

/-- Are there no entries? -/
def isEmpty (p : Params) : Bool := p.entries.isEmpty

/-! ### Changing -/

/-- Puts a value at the end of the entries, or in the place of the entry that has its name. -/
def insertEntry (name : String) (v : Value) : List (String × Value) → List (String × Value)
  | [] => [(name, v)]
  | (other, w) :: rest =>
    if other = name then (other, v) :: rest else (other, w) :: insertEntry name v rest

/-- Gives a name a value. -/
def insert (p : Params) (name : String) (v : Value) : Params := ⟨insertEntry name v p.entries⟩

/-- Takes a name out. -/
def erase (p : Params) (name : String) : Params := ⟨p.entries.eraseP (·.1 == name)⟩

/-- Takes several names out. -/
def eraseAll (p : Params) (names : List String) : Params := names.foldl erase p

/-- Keeps the entries that pass a test. -/
def filter (p : Params) (keep : String → Value → Bool) : Params :=
  ⟨p.entries.filter fun e => keep e.1 e.2⟩

/-- Drops the entries whose value counts as not given. -/
def given (p : Params) : Params := p.filter fun _ v => !v.isVoid

/-- The entries of `p`, then those of `lower` whose names `p` does not have. -/
def underlay (p lower : Params) : Params :=
  ⟨p.entries ++ lower.entries.filter fun e => !p.contains e.1⟩

/-! ### From and to other shapes -/

/-- Inserts the pairs one after the other. -/
def ofList (pairs : List (String × Value)) : Params :=
  pairs.foldl (fun p e => p.insert e.1 e.2) empty

/-- The parameters as one object value, which forgets their order. -/
def toObject (p : Params) : Value := Value.ofFields p.entries

/-- Are the entries the same, in the same order? -/
def same (p q : Params) : Bool := Value.sameFields p.entries q.entries

end Params

end UrlRouting
