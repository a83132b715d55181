import UrlRouting.Regex.Meaning

/-!
# Searching with a regular expression

A match is a way through an expression along a text, and of two ways the one that was preferred
where they part is the match. To find it, the text is gone through from its end to its start, and at
every place each part of the expression gets a *value*: the preferred way from before that part to
the end of the expression, if there is one. The value of a part depends on the value of what follows
it here, and for the characters it reads, on what was found out at the places behind
(`UrlRouting.Regex.Expr.Memo`): the values of what follows each set and each word there. So every
part is looked at once or twice at a place, and a search takes time in proportion to the length of
the text, however many ways there are.

A round of a loop that reads nothing leads back to where it began, which cannot help. So from a loop
that was entered at a place, such a round can only leave the loop, whereas a round that comes back
to the loop after reading goes on from it with another round or leaves it, and if it goes on, it has
to read something before it comes back again.

* `UrlRouting.Regex.Expr.value` – the value of an expression at a place;
* `UrlRouting.Regex.Expr.step` – the value, and what is found out about the place;
* `UrlRouting.Regex.Expr.find?` – the match at the first place of a text where there is one.
-/

namespace UrlRouting

namespace Regex

/-! ### Ways -/

/-- A note on the way: a capture began or ended where so much of the text was left. -/
inductive Note where
  /-- A capture began. -/
  | opened (name : String) (rest : List Char)
  /-- A capture ended. -/
  | closed (name : String) (rest : List Char)
  deriving DecidableEq, Repr

/-- The notes of a way, from where it begins to where it ends. -/
abbrev Trail := List Note

/-- A way with a note in front of it, if there is a name to note. -/
def noted (note : String → Note) (name : Option String) (way : Option Trail) : Option Trail :=
  match name with
  | some name => way.map (note name :: ·)
  | none => way

/-- The preferred one of going on and of ending. -/
def prefer (greedy : Bool) (goOn finish : Option Trail) : Option Trail :=
  if greedy then goOn.or finish else finish.or goOn

namespace Expr

/-! ### What is known of the next place -/

/-- What is known of a place when the place in front of it is looked at: the value of what follows
each set there, and the values of what follows each word, there and at the places behind. Rounds
that are written out have words and sets of their own. -/
def Memo : Expr → Type
  | .empty => Unit
  | .word _ => List (Option Trail)
  | .set _ => Option Trail
  | .look _ => Unit
  | .capture _ body => body.Memo
  | .seq first second => first.Memo × second.Memo
  | .alt first second => first.Memo × second.Memo
  | .atLeast _ _ body => List body.Memo × body.Memo
  | .between _ _ _ body => List body.Memo × List body.Memo

/-- What is known behind the end of a text, where nothing can be read. -/
def nothingKnown : (e : Expr) → e.Memo
  | .empty => ()
  | .word _ => []
  | .set _ => none
  | .look _ => ()
  | .capture _ body => body.nothingKnown
  | .seq first second => (first.nothingKnown, second.nothingKnown)
  | .alt first second => (first.nothingKnown, second.nothingKnown)
  | .atLeast _ least body => (List.replicate (least - 1) body.nothingKnown, body.nothingKnown)
  | .between _ least more body =>
    (List.replicate least body.nothingKnown, List.replicate more body.nothingKnown)

/-! ### One place -/

/-- The value of a word, from the values of what follows it at the place and at those behind. -/
def wordValue (text rest : List Char) (known : List (Option Trail)) : Option Trail :=
  (known[text.length]?).join.filter fun _ => text.isPrefixOf rest

/-- The value of an expression at a place, from what is known of the next place and from the value
of what follows the expression. -/
def value (before : Option Char) (rest : List Char) :
    (e : Expr) → e.Memo → Option Trail → Option Trail
  | .empty, _, after => after
  | .word text, next, after => wordValue text rest (after :: next)
  | .set s, next, _ => if rest.head?.any s.mem then next else none
  | .look l, _, after => if l.holds before rest then after else none
  | .capture name body, next, after =>
    noted (.opened · rest) name
      (value before rest body next (noted (.closed · rest) name after))
  | .seq first second, next, after =>
    value before rest first next.1 (value before rest second next.2 after)
  | .alt first second, next, after =>
    (value before rest first next.1 after).or (value before rest second next.2 after)
  | .atLeast greedy least body, next, after =>
    let entered := next.1.foldr (value before rest body) (value before rest body next.2 after)
    if least = 0 then prefer greedy entered after else entered
  | .between greedy _ _ body, next, after =>
    next.1.foldr (value before rest body)
      (next.2.foldr (fun m v => prefer greedy (value before rest body m v) after) after)

/-- Rounds that are written out one behind the other: the value of the first one, and what is found
out in each of them. -/
def rounds {α : Type} (round : α → Option Trail → Option Trail × α) (after : Option Trail)
    (known : List α) : Option Trail × List α :=
  known.foldr (fun m behind =>
    let here := round m behind.1
    (here.1, here.2 :: behind.2)) (after, [])

/-- The value of an expression at a place, and what is then known of the place. -/
def step (before : Option Char) (rest : List Char) :
    (e : Expr) → e.Memo → Option Trail → Option Trail × e.Memo
  | .empty, _, after => (after, ())
  | .word text, next, after => (wordValue text rest (after :: next), after :: next)
  | .set s, next, after => (if rest.head?.any s.mem then next else none, after)
  | .look l, _, after => (if l.holds before rest then after else none, ())
  | .capture name body, next, after =>
    let inside := step before rest body next (noted (.closed · rest) name after)
    (noted (.opened · rest) name inside.1, inside.2)
  | .seq first second, next, after =>
    let behind := step before rest second next.2 after
    let front := step before rest first next.1 behind.1
    (front.1, front.2, behind.2)
  | .alt first second, next, after =>
    let one := step before rest first next.1 after
    let other := step before rest second next.2 after
    (one.1.or other.1, one.2, other.2)
  | .atLeast greedy least body, next, after =>
    -- behind a round that has read something, one that reads nothing does not come back
    let again := prefer greedy (value before rest body next.2 none) after
    let loop := (step before rest body next.2 again).2
    let entered := rounds (step before rest body) (value before rest body next.2 after) next.1
    (if least = 0 then prefer greedy entered.1 after else entered.1, entered.2, loop)
  | .between greedy _ _ body, next, after =>
    let further := rounds (fun m v =>
      let round := step before rest body m v
      (prefer greedy round.1 after, round.2)) after next.2
    let needed := rounds (step before rest body) further.1 next.1
    (needed.1, needed.2, further.2)

/-! ### A text -/

/-- How far a search has come from the end of a text. -/
structure Scan (e : Expr) where
  /-- The text from the place on. -/
  rest : List Char
  /-- What is known of the place. -/
  known : e.Memo
  /-- The match at the first place so far where there is one. -/
  found : Option Trail

/-- Looks at a place, given what was found behind it. -/
def lookAt (e : Expr) (before : Option Char) (rest : List Char) (next : e.Memo)
    (found : Option Trail) : Scan e :=
  let here := step before rest e next (some [])
  ⟨rest, here.2, here.1.or found⟩

/-- Looks at the place one character further in front. -/
def Scan.back {e : Expr} (s : Scan e) (before : Option Char) (c : Char) : Scan e :=
  e.lookAt before (c :: s.rest) s.known s.found

/-- The match at the first place of a text where there is one, its notes in their order. -/
def find? (e : Expr) (text : String) : Option Trail :=
  let cs := text.toList
  (((none :: cs.map some).zip cs).foldr (fun p s => s.back p.1 p.2)
    (e.lookAt cs.getLast? [] e.nothingKnown none)).found

end Expr

/-! ### Captures -/

/-- How much of the text was left where the capture last began. The notes are given from the last
one to the first. -/
def Trail.openedAt? (name : String) : Trail → Option (List Char)
  | [] => none
  | .opened other rest :: trail => if other = name then some rest else openedAt? name trail
  | .closed _ _ :: trail => openedAt? name trail

/-- The text captured under a name. The notes are given from the last one to the first. -/
def Trail.lastText? (name : String) : Trail → Option String
  | [] => none
  | .opened _ _ :: trail => lastText? name trail
  | .closed other rest :: trail =>
    if other = name then
      (Trail.openedAt? name trail).map fun start =>
        String.ofList (start.take (start.length - rest.length))
    else lastText? name trail

/-- The text captured under a name: that of the last round, if it was captured repeatedly. -/
def Trail.text? (name : String) (trail : Trail) : Option String :=
  Trail.lastText? name trail.reverse

end Regex

end UrlRouting
