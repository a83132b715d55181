import UrlRouting.Regex.Expr
import UrlRouting.Regex.Utf8

/-!
# The size of an automaton

An expression is accepted only if the automata for it fit into a given space: one that reads texts
forwards and notes where groups begin and end, and one that reads them backwards and only finds
where a match begins (`UrlRouting.Regex.Expr.fits`). Both are built from the parts of the expression
in the usual way, with repetitions written out, and read one byte at a time.

Every state takes the same space, and a state with several arrows takes some more for each of them:
less for a *fork*, whose arrows read nothing, than for a *switch*, whose arrows read a byte each
(`UrlRouting.Regex.Size.fork`, `UrlRouting.Regex.Size.switch`). A state that reads bytes of one
range is a plain one.

* A character is a chain of plain states, one for each byte.
* A set of ASCII characters is one switch. For any other set, the automaton that reads forwards
  shares what rows end with (`UrlRouting.Regex.Size.sharedEnds`), the one that reads backwards what
  they begin with (`UrlRouting.Regex.Size.sharedStarts`).
* Alternatives that are all words make a tree that shares what words begin with
  (`UrlRouting.Regex.Size.wordTree`); other alternatives hang on a fork.
-/

namespace UrlRouting

namespace Regex

/-- The way an automaton reads. -/
inductive Direction where
  /-- From the start of a text to its end. -/
  | forward
  /-- From the end of a text to its start. -/
  | backward
  deriving DecidableEq, Repr

namespace Size

/-- The space of a state. -/
def state : Nat := 32

/-- The space of a state with so many arrows that read nothing. -/
def fork (arrows : Nat) : Nat := state + 4 * arrows

/-- The space of a state with so many arrows that read bytes. -/
def switch (arrows : Nat) : Nat := state + 8 * arrows

/-- All of some spaces together. -/
def total (spaces : List Nat) : Nat := spaces.foldr (· + ·) 0

/-! ### Sets -/

/-- How many entries two lists begin with alike. -/
def sharedLength {α : Type} [DecidableEq α] : List α → List α → Nat
  | a :: as, b :: bs => if a = b then sharedLength as bs + 1 else 0
  | _, _ => 0

/-- The space of rows, each behind another one with which it shares the states of what both begin
with. -/
def chains : (above : ByteRow) → List ByteRow → Nat
  | _, [] => 0
  | above, row :: rest => state * (row.length - sharedLength above row) + chains row rest

/-- The space of rows that share the states of what they begin with. They begin at the arrows of one
fork, and meet in a state. -/
def sharedStarts (rows : List ByteRow) : Nat := fork rows.length + state + chains [] rows

/-- What rows go on with behind each of the ranges that they begin with. -/
def behindFirst (rows : List ByteRow) : List (List ByteRow) :=
  (rows.splitBy fun a b => a.head? == b.head?).map (·.map List.tail)

/-- The rows that are left behind the first ranges of rows, behind the first two, and so on. -/
def tailsOf : (most : Nat) → List ByteRow → List (List ByteRow)
  | 0, _ => []
  | most + 1, rows =>
    rows :: ((behindFirst rows).filter (!·.any List.isEmpty)).flatMap (tailsOf most)

/-- The space of rows that share the states of what they end with: a switch for all that can be left
of rows, and a state in which they meet. -/
def sharedEnds (rows : List ByteRow) : Nat :=
  state + total ((tailsOf 4 rows).eraseDups.map fun left => switch (behindFirst left).length)

/-- The space of a set. -/
def setSize (d : Direction) (s : CharSet) : Nat :=
  if s.ranges.all (·.2 ≤ 0x7F) then switch s.ranges.length + state
  else match d with
    | .forward => sharedEnds (byteRows s.ranges)
    | .backward => sharedStarts (byteRows s.ranges)

/-! ### Words -/

/-- The bytes of a word, in the order in which they are read. -/
def bytesOf (d : Direction) (text : List Char) : List Nat :=
  let bytes := text.flatMap fun c => (byteRowsOfRange c.toNat c.toNat).flatten.map (·.1)
  match d with
  | .forward => bytes
  | .backward => bytes.reverse

/-- The word that an expression is. -/
def word? : Expr → Option (List Char)
  | .word text => some text
  | _ => none

/-- What is left behind the first byte of words, by that byte. -/
def behindBytes (words : List (List Nat)) : List (List (List Nat)) :=
  (words.filterMap List.head?).eraseDups.map fun b =>
    (words.filter (·.head? == some b)).map List.tail

/-- The space of the tree of words that are no longer than `most`. Where a word ends, the tree
leaves for its end, and words behind it in the order of preference have branches of their own. -/
def wordNode : (most : Nat) → List (List Nat) → Nat
  | 0, _ => 0
  | most + 1, words =>
    -- that a word ends here is noted once as long as none goes on
    let words := match words with
      | [] :: rest => [] :: rest.dropWhile List.isEmpty
      | _ => words
    let parts := words.splitBy fun a b => !a.isEmpty && !b.isEmpty
    let switches := (parts.filter fun part => !part.any List.isEmpty).map fun part =>
      let behind := behindBytes part
      (if behind.length = 1 then state else switch behind.length) +
        total ((behind.filter fun words => !words.all List.isEmpty).map (wordNode most))
    fork parts.length + total switches

/-- The space of a tree of words. -/
def wordTree (words : List (List Nat)) : Nat :=
  wordNode ((words.map List.length).foldl max 0 + 1) words + state

end Size

namespace Expr

open Size

/-! ### Expressions -/

/-- The least number of characters that the expression reads, as far as its form shows. There is
none if a part of it can never be matched. -/
def minLength? : Expr → Option Nat
  | .empty => some 0
  | .word text => some text.length
  | .set s => if s.ranges.isEmpty then none else some 1
  | .look _ => some 0
  | .capture _ body => body.minLength?
  | .seq first second => do return (← first.minLength?) + (← second.minLength?)
  | .alt first second => do return min (← first.minLength?) (← second.minLength?)
  | .atLeast _ least body => body.minLength?.map (least * ·)
  | .between _ least _ body => body.minLength?.map (least * ·)

/-- The space of an expression; the alternatives behind the first one are `further` ones, which hang
on the fork of the first. -/
def sizeWithin (d : Direction) : (further : Bool) → Expr → Nat
  | _, .empty => state
  | _, .word text => state * (bytesOf d text).length
  | _, .set s => setSize d s
  | _, .look _ => state
  | _, .capture _ body =>
    sizeWithin d false body + if d = .forward then 2 * state else 0
  | _, .seq first second => sizeWithin d false first + sizeWithin d false second
  | true, .alt first second => sizeWithin d false first + sizeWithin d true second
  | false, .alt first second =>
    let branches := first :: second.branches
    match branches.mapM word? with
    | some words => wordTree (words.map (bytesOf d))
    | none => state + fork branches.length + sizeWithin d false first + sizeWithin d true second
  | _, .atLeast _ least body =>
    let round := sizeWithin d false body
    if least = 0 then
      -- a body that may be empty is entered past the fork that leads back to it
      if body.minLength?.any (0 < ·) then round + fork 2 else round + fork 2 + fork 2 + state
    else least * round + fork 2
  | _, .between _ least more body =>
    let round := sizeWithin d false body
    if more = 0 then least * round
    else if least = 0 ∧ more = 1 then round + fork 2 + state
    else (if least = 0 then state else least * round) + more * (round + fork 2) + state

/-- The space of the automaton for an expression: that of its parts, a state to start in and one to
match in, and if it reads forwards, two to note where the match begins and ends. -/
def size (d : Direction) (e : Expr) : Nat :=
  sizeWithin d false e + 2 * state + if d = .forward then 2 * state else 0

/-- The greatest space an automaton may take: ten mebibytes. -/
def sizeLimit : Nat := 10 * 0x100000

/-- Do the automata for an expression fit? -/
def fits (e : Expr) : Bool := e.size .forward ≤ sizeLimit && e.size .backward ≤ sizeLimit

end Expr

end Regex

end UrlRouting
