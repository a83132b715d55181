import UrlRouting.Schema.Reader

/-!
# What one character of a schema does

The reader tests a character for one mark after the other, and what it does then depends on what it
is in the middle of. What comes of it is said here once and for all, as a relation with one rule for
each case (`UrlRouting.Schema.Reading.Step`): the rules are all that a character can do, and each of
them can be done (`UrlRouting.Schema.Reading.read_eq_ok_iff`). So a fact about all that has been
read is proved by going through the rules, and nothing needs to look at the tests of the reader.

Behind a parameter a character is read as in literal text unless it is a question mark, so there is
one relation for literal text (`UrlRouting.Schema.Reading.TextStep`) and one for what stands between
braces (`UrlRouting.Schema.Reading.TokenStep`).
-/

namespace UrlRouting

namespace Schema

namespace Reading

variable {r q : Reading} {c : Char} {pending : List Char} {start nested : Nat}
  {body : List BodyChar}

/-- **What a character of literal text does**, by the mark that it may be. -/
inductive TextStep (r : Reading) (pending : List Char) : Char → Reading → Prop
  /-- A brace begins a parameter. -/
  | beginsParam : TextStep r pending '{'
      ⟨r.offset + '{'.utf8Size, withLiteral r.row pending, r.around, .token r.offset 0 []⟩
  /-- A bracket begins a segment. -/
  | beginsSegment : TextStep r pending '['
      ⟨r.offset + '['.utf8Size, .done, (r.offset, withLiteral r.row pending) :: r.around, .text []⟩
  /-- A bracket ends the innermost segment. -/
  | endsSegment {start : Nat} {front : Schema} {around : List (Nat × Schema)}
      (innermost : r.around = (start, front) :: around) : TextStep r pending ']'
      ⟨r.offset + ']'.utf8Size, front.append (.segment (withLiteral r.row pending) .done), around,
        .text []⟩
  /-- A backslash makes the next character plain. -/
  | escapes : TextStep r pending '\\'
      ⟨r.offset + '\\'.utf8Size, r.row, r.around, .textEscape pending r.offset⟩
  /-- Anything else is literal text. -/
  | plain {c : Char} (hc : c ∉ ['{', '[', ']', '}', '\\']) : TextStep r pending c
      ⟨r.offset + c.utf8Size, r.row, r.around, .text (c :: pending)⟩

/-- **What a character between braces does.** -/
inductive TokenStep (r : Reading) (start : Nat) : Nat → List BodyChar → Char → Reading → Prop
  /-- A backslash makes the next character plain. -/
  | escapes {nested : Nat} {body : List BodyChar} : TokenStep r start nested body '\\'
      ⟨r.offset + '\\'.utf8Size, r.row, r.around, .tokenEscape start nested body r.offset⟩
  /-- A brace is opened. -/
  | opens {nested : Nat} {body : List BodyChar} : TokenStep r start nested body '{'
      ⟨r.offset + '{'.utf8Size, r.row, r.around, .token start (nested + 1) (('{', false) :: body)⟩
  /-- A brace is closed that was opened between the braces. -/
  | closes {nested : Nat} {body : List BodyChar} : TokenStep r start (nested + 1) body '}'
      ⟨r.offset + '}'.utf8Size, r.row, r.around, .token start nested (('}', false) :: body)⟩
  /-- The brace of the parameter is closed. -/
  | ends {body : List BodyChar} {p : Parameter} (hp : Parameter.ofBody? body.reverse = some p) :
      TokenStep r start 0 body '}' ⟨r.offset + '}'.utf8Size, r.row, r.around, .behind p⟩
  /-- Anything else is part of the parameter. -/
  | plain {nested : Nat} {body : List BodyChar} {c : Char} (hc : c ∉ ['\\', '{', '}']) :
      TokenStep r start nested body c
        ⟨r.offset + c.utf8Size, r.row, r.around, .token start nested ((c, false) :: body)⟩

/-- **What a character does**, by what the reader is in the middle of. -/
inductive Step (r : Reading) : Char → Reading → Prop
  /-- A character of literal text. -/
  | text {pending : List Char} {c : Char} {q : Reading} (mode : r.mode = .text pending)
      (step : r.TextStep pending c q) : Step r c q
  /-- A character behind a backslash in literal text. -/
  | escaped {pending : List Char} {index : Nat} {c : Char} (mode : r.mode = .textEscape pending index) :
      Step r c ⟨r.offset + c.utf8Size, r.row, r.around, .text (c :: pending)⟩
  /-- A character between braces. -/
  | token {start nested : Nat} {body : List BodyChar} {c : Char} {q : Reading}
      (mode : r.mode = .token start nested body) (step : r.TokenStep start nested body c q) :
      Step r c q
  /-- A character behind a backslash between braces. -/
  | tokenEscaped {start nested index : Nat} {body : List BodyChar} {c : Char}
      (mode : r.mode = .tokenEscape start nested body index) :
      Step r c ⟨r.offset + c.utf8Size, r.row, r.around, .token start nested ((c, true) :: body)⟩
  /-- A question mark behind a parameter makes it optional. -/
  | optional {p : Parameter} (mode : r.mode = .behind p) :
      Step r '?' ⟨r.offset + '?'.utf8Size, r.row.append (.param { p with optional := true } .done),
        r.around, .text []⟩
  /-- Anything else behind a parameter is read as in literal text. -/
  | behind {p : Parameter} {c : Char} {q : Reading} (mode : r.mode = .behind p) (hc : c ≠ '?')
      (step : (r.pushParam p).TextStep [] c q) : Step r c q

theorem textStep_of_ok (h : r.readText pending c = .ok q) : r.TextStep pending c q := by
  rw [readText] at h
  split at h
  · subst_vars
    obtain rfl := Except.ok.inj h
    exact .beginsParam
  split at h
  · subst_vars
    obtain rfl := Except.ok.inj h
    exact .beginsSegment
  split at h
  · subst_vars
    split at h
    · cases h
    · obtain rfl := Except.ok.inj h
      exact .endsSegment ‹_›
  split at h
  · cases h
  split at h
  · subst_vars
    obtain rfl := Except.ok.inj h
    exact .escapes
  · obtain rfl := Except.ok.inj h
    exact .plain (by simp [*])

/-- **The rules for literal text** are what the reader does. -/
theorem readText_eq_ok_iff : r.readText pending c = .ok q ↔ r.TextStep pending c q := by
  refine ⟨textStep_of_ok, fun h => ?_⟩
  cases h with
  | beginsParam | beginsSegment | escapes => rfl
  | endsSegment innermost =>
    rw [readText, innermost]
    rfl
  | plain hc =>
    simp only [List.mem_cons, List.not_mem_nil, or_false, not_or] at hc
    obtain ⟨h1, h2, h3, h4, h5⟩ := hc
    rw [readText, if_neg h1, if_neg h2, if_neg h3, if_neg h4, if_neg h5]

theorem tokenStep_of_ok (h : r.readToken start nested body c = .ok q) :
    r.TokenStep start nested body c q := by
  rw [readToken.eq_def] at h
  split at h
  · subst_vars
    obtain rfl := Except.ok.inj h
    exact .escapes
  split at h
  · subst_vars
    obtain rfl := Except.ok.inj h
    exact .opens
  split at h
  · subst_vars
    split at h
    · obtain rfl := Except.ok.inj h
      exact .closes
    · split at h
      · obtain rfl := Except.ok.inj h
        exact .ends ‹_›
      · cases h
  · obtain rfl := Except.ok.inj h
    exact .plain (by simp [*])

/-- **The rules between braces** are what the reader does. -/
theorem readToken_eq_ok_iff :
    r.readToken start nested body c = .ok q ↔ r.TokenStep start nested body c q := by
  refine ⟨tokenStep_of_ok, fun h => ?_⟩
  cases h with
  | escapes | opens | closes => rfl
  | ends hp =>
    rw [readToken.eq_def, hp]
    rfl
  | plain hc =>
    simp only [List.mem_cons, List.not_mem_nil, or_false, not_or] at hc
    obtain ⟨h1, h2, h3⟩ := hc
    rw [readToken.eq_def, if_neg h1, if_neg h2, if_neg h3]

/-- **The rules are what the reader does.** -/
theorem read_eq_ok_iff : r.read c = .ok q ↔ r.Step c q := by
  obtain ⟨o, row, around, mode⟩ := r
  constructor
  · intro h
    cases mode with
    | text pending => exact .text rfl (readText_eq_ok_iff.mp h)
    | textEscape pending index =>
      obtain rfl := Except.ok.inj h
      exact .escaped rfl
    | token start nested body => exact .token rfl (readToken_eq_ok_iff.mp h)
    | tokenEscape start nested body index =>
      obtain rfl := Except.ok.inj h
      exact .tokenEscaped rfl
    | behind p =>
      change (if c = '?' then _ else _) = _ at h
      split at h
      · subst_vars
        obtain rfl := Except.ok.inj h
        exact .optional rfl
      · exact .behind rfl ‹_› (readText_eq_ok_iff.mp h)
  · intro h
    cases h with
    | text hmode step =>
      obtain rfl : mode = _ := hmode
      exact readText_eq_ok_iff.mpr step
    | token hmode step =>
      obtain rfl : mode = _ := hmode
      exact readToken_eq_ok_iff.mpr step
    | escaped hmode =>
      obtain rfl : mode = _ := hmode
      rfl
    | tokenEscaped hmode =>
      obtain rfl : mode = _ := hmode
      rfl
    | optional hmode =>
      obtain rfl : mode = _ := hmode
      rfl
    | behind hmode hc step =>
      obtain rfl : mode = _ := hmode
      exact (if_neg hc).trans (readText_eq_ok_iff.mpr step)

end Reading

end Schema

end UrlRouting
