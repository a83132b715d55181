import UrlRouting.Proofs.Schema.Tidy

/-!
# Printing schemas

A schema can be printed so that it is read back as it is (`UrlRouting.Schema.print`). In literal
text and in the name, the default and the type of a parameter every character gets a backslash,
which makes it plain. A validator keeps its backslashes, so it has to be printed as it is, and its
braces have to be balanced.

A tidy schema is read from its print if its validators allow that, and nothing but tidy schemas is
ever read (`UrlRouting.Schema.ofText_print`).
-/

namespace UrlRouting

/-! ### Printing -/

/-- A text with every character behind a backslash. -/
def escapeAll (text : String) : List Char := text.toList.flatMap fun c => ['\\', c]

/-- A part of a parameter behind its mark, if there is one. -/
def printPart (mark : Char) (part : Option (List Char)) : List Char :=
  match part with
  | none => []
  | some cs => mark :: cs

/-- A parameter as it is printed. -/
def Parameter.print (p : Parameter) : List Char :=
  ['{'] ++ (escapeAll p.name ++ printPart ':' (p.default.map escapeAll) ++
    printPart '#' (p.typeName.map escapeAll) ++ printPart '|' (p.validator.map String.toList)) ++
    ['}'] ++ if p.optional then ['?'] else []

/-- A schema as it is printed. -/
def Schema.print : Schema → List Char
  | .done => []
  | .literal text rest => escapeAll text ++ rest.print
  | .param p rest => p.print ++ rest.print
  | .segment inner rest => ['['] ++ inner.print ++ [']'] ++ rest.print

/-! ### Validators -/

namespace BodyChar

/-- How many braces are open behind a character, unless it closes one that is not open. -/
def openBehind? (nested : Nat) (c : BodyChar) : Option Nat :=
  if c.2 then some nested
  else if c.1 = '{' then some (nested + 1)
  else if c.1 = '}' then
    match nested with
    | 0 => none
    | nested + 1 => some nested
  else some nested

/-- **Characters with balanced braces**, none of them a backslash without a character behind it. -/
structure Balanced (cs : List BodyChar) : Prop where
  /-- No backslash is plain. -/
  paired : ('\\', false) ∉ cs
  /-- No brace is closed that is not open, and none is left open. -/
  balanced : cs.foldlM openBehind? 0 = some 0

end BodyChar

/-- **A text of pairs and plain characters with balanced braces**, those in pairs not counted. -/
def IsBalanced (text : String) : Prop := ∃ cs, BodyChar.Balanced cs ∧ BodyChar.rawText cs = text

/-! ### Reading a parameter -/

namespace BodyChar

variable {cs ds rest : List BodyChar} {marks ends : List Char} {mark : Char}

/-- The characters of a text, each behind a backslash. -/
def escaped (text : String) : List BodyChar := text.toList.map fun c => (c, true)

/-- A part behind its mark, if there is one. -/
def part (mark : Char) (cs : Option (List BodyChar)) : List BodyChar :=
  match cs with
  | none => []
  | some cs => (mark, false) :: cs

theorem toList_rawText_append (cs ds : List BodyChar) :
    (rawText (cs ++ ds)).toList = (rawText cs).toList ++ (rawText ds).toList := by
  simp [rawText]

theorem toList_rawText_escaped (text : String) :
    (rawText (escaped text)).toList = escapeAll text := by
  rw [rawText, String.toList_ofList, escaped, List.flatMap_map]
  rfl

theorem toList_rawText_part (mark : Char) (cs : Option (List BodyChar)) :
    (rawText (part mark cs)).toList = printPart mark (cs.map fun cs => (rawText cs).toList) := by
  cases cs with
  | none => rfl
  | some cs => simp [rawText, part, printPart]

theorem text_escaped (text : String) : BodyChar.text (escaped text) = text := by
  rw [BodyChar.text, escaped, List.map_map]
  exact (congrArg String.ofList (List.map_id _)).trans (String.ofList_toList ..)

theorem not_isPlain_of_mem_escaped {text : String} {c : BodyChar} (hc : c ∈ escaped text)
    (marks : List Char) : isPlain marks c = false := by
  obtain ⟨d, -, rfl⟩ := List.mem_map.mp hc
  rfl

/-- A mark is plain, and so are those behind a part that may be left out. -/
theorem isPlain_head_part (hmark : mark ∈ marks) (cs : Option (List BodyChar))
    (hrest : ∀ c ∈ rest.head?, isPlain marks c = true) :
    ∀ c ∈ (part mark cs ++ rest).head?, isPlain marks c = true := by
  cases cs with
  | none => exact hrest
  | some cs =>
    intro c hc
    obtain rfl := Option.some.inj hc
    simpa [isPlain] using hmark

/-- A text is read up to the first plain mark behind it. -/
theorem takeWhile_marks (hcs : ∀ c ∈ cs, isPlain marks c = false)
    (hrest : ∀ c ∈ rest.head?, isPlain marks c = true) :
    (cs ++ rest).takeWhile (!isPlain marks ·) = cs ∧
      (cs ++ rest).dropWhile (!isPlain marks ·) = rest := by
  have hall : ∀ c ∈ cs, (!isPlain marks c) = true := fun c hc => by rw [hcs c hc]; rfl
  rw [List.takeWhile_append_of_pos hall, List.dropWhile_append_of_pos hall]
  cases rest with
  | nil => exact ⟨List.append_nil cs, rfl⟩
  | cons d rest =>
    have hd : (!isPlain marks d) = false := by rw [hrest d rfl]; rfl
    rw [List.takeWhile_cons, List.dropWhile_cons, hd]
    exact ⟨List.append_nil cs, rfl⟩

/-- **A part is cut off behind its mark.** -/
theorem cutPart_part (hmark : mark ∉ ends) (cs : Option (List BodyChar))
    (hcs : ∀ c ∈ cs.getD [], isPlain ends c = false)
    (hrest : ∀ c ∈ rest.head?, isPlain ends c = true) :
    cutPart mark ends (part mark cs ++ rest) = (cs.getD [], rest) := by
  cases cs with
  | some cs =>
    rw [Option.getD_some] at hcs ⊢
    obtain ⟨htake, hdrop⟩ := takeWhile_marks hcs hrest
    have hplain : isPlain [mark] (mark, false) = true := by simp [isPlain]
    rw [part, List.cons_append, cutPart, if_pos hplain, htake, hdrop]
  | none =>
    cases rest with
    | nil => rfl
    | cons d rest =>
      have hd := hrest d rfl
      have hother : ¬isPlain [mark] d = true := by
        simp only [isPlain, Bool.and_eq_true, List.contains_iff_mem, List.mem_singleton] at hd ⊢
        exact fun hd' => hmark (hd'.2 ▸ hd.2)
      rw [part, List.nil_append, cutPart, if_neg hother]
      rfl

theorem balanced_nil : Balanced [] := ⟨List.not_mem_nil, rfl⟩

theorem Balanced.append (hcs : Balanced cs) (hds : Balanced ds) : Balanced (cs ++ ds) where
  paired hmem := (List.mem_append.mp hmem).elim hcs.paired hds.paired
  balanced := by
    rw [List.foldlM_append, hcs.balanced]
    exact hds.balanced

theorem balanced_escaped (text : String) : Balanced (escaped text) where
  paired hmem := by
    obtain ⟨c, -, heq⟩ := List.mem_map.mp hmem
    cases heq
  balanced := by
    rw [escaped]
    induction text.toList with
    | nil => rfl
    | cons c cs ih => exact ih

theorem Balanced.part {cs : Option (List BodyChar)} (hcs : Balanced (cs.getD []))
    (hmark : mark ∉ ['\\', '{', '}']) : Balanced (part mark cs) := by
  simp only [List.mem_cons, List.not_mem_nil, or_false, not_or] at hmark
  obtain ⟨hbackslash, hopen, hclose⟩ := hmark
  cases cs with
  | none => exact balanced_nil
  | some cs =>
    refine ⟨fun hmem => ?_, ?_⟩
    · rcases List.mem_cons.mp hmem with heq | hmem
      · exact hbackslash (congrArg Prod.fst heq).symm
      · exact hcs.paired hmem
    · have hone : openBehind? 0 (mark, false) = some 0 := by simp [openBehind?, hopen, hclose]
      rw [BodyChar.part, List.foldlM_cons, hone]
      exact hcs.balanced

end BodyChar

theorem unlessEmpty_of_ne {text : String} (h : text ≠ "") : unlessEmpty text = some text := by
  rw [unlessEmpty, if_neg fun hempty => h (String.isEmpty_iff.mp hempty)]

namespace Parameter

open BodyChar

variable {p : Parameter}

/-- The inside of the braces of a parameter. -/
def body (p : Parameter) (validator : Option (List BodyChar)) : List BodyChar :=
  escaped p.name ++ (part ':' (p.default.map escaped) ++ (part '#' (p.typeName.map escaped) ++
    part '|' validator))

theorem print_eq {validator : Option (List BodyChar)}
    (hvalidator : validator.map rawText = p.validator) :
    p.print = ['{'] ++ (rawText (p.body validator)).toList ++ ['}'] ++
      if p.optional then ['?'] else [] := by
  have hescape : ((fun cs => (rawText cs).toList) ∘ escaped) = escapeAll :=
    funext toList_rawText_escaped
  rw [print, body, toList_rawText_append, toList_rawText_append, toList_rawText_append,
    toList_rawText_escaped, toList_rawText_part, toList_rawText_part, toList_rawText_part,
    Option.map_map, Option.map_map, hescape, ← hvalidator, Option.map_map]
  simp only [List.append_assoc]
  rfl

/-- A part that is not empty is kept. -/
theorem unlessEmpty_text_escaped {text : Option String} (hne : text ≠ some "") :
    unlessEmpty (BodyChar.text ((text.map escaped).getD [])) = text := by
  cases text with
  | none => rfl
  | some text =>
    rw [Option.map_some, Option.getD_some, text_escaped]
    exact unlessEmpty_of_ne fun hempty => hne (congrArg some hempty)

/-- No mark stands in an escaped part. -/
theorem not_isPlain_of_mem_getD {text : Option String} (marks : List Char) :
    ∀ c ∈ (text.map escaped).getD [], isPlain marks c = false := by
  cases text with
  | none => exact fun c hc => absurd hc List.not_mem_nil
  | some text => exact fun c hc => not_isPlain_of_mem_escaped hc marks

/-- What follows a part begins with a mark that ends it: first the validator, and in front of that
the type. -/
theorem isPlain_head_validator {validator : Option (List BodyChar)} {marks : List Char}
    (hmark : '|' ∈ marks) : ∀ c ∈ (part '|' validator).head?, isPlain marks c = true := by
  have hhead : ∀ c ∈ (part '|' validator ++ []).head?, isPlain marks c = true :=
    isPlain_head_part hmark validator fun c hc => absurd hc (Option.not_mem_none c)
  rwa [List.append_nil] at hhead

theorem isPlain_head_type {validator : Option (List BodyChar)} {marks : List Char}
    (htype : '#' ∈ marks) (hvalidator : '|' ∈ marks) (cs : Option (List BodyChar)) :
    ∀ c ∈ (part '#' cs ++ part '|' validator).head?, isPlain marks c = true :=
  isPlain_head_part htype cs (isPlain_head_validator hvalidator)

/-- **The parts of a parameter are found again** between its braces. -/
theorem ofBody?_body (h : p.IsTidy) {validator : Option (List BodyChar)}
    (hvalidator : validator.map rawText = p.validator) :
    ofBody? (p.body validator) = some { p with optional := false } := by
  have hbehind : ∀ c ∈ (part ':' (p.default.map escaped) ++
      (part '#' (p.typeName.map escaped) ++ part '|' validator)).head?,
        isPlain [':', '#', '|'] c = true :=
    isPlain_head_part (by decide) _ (isPlain_head_type (by decide) (by decide) _)
  obtain ⟨htake, hdrop⟩ := takeWhile_marks
    (fun c (hc : c ∈ escaped p.name) => not_isPlain_of_mem_escaped hc _) hbehind
  have hdefault : cutPart ':' ['#', '|'] (part ':' (p.default.map escaped) ++
      (part '#' (p.typeName.map escaped) ++ part '|' validator)) = _ :=
    cutPart_part (by decide) _ (not_isPlain_of_mem_getD _)
      (isPlain_head_type (by decide) (by decide) _)
  have htype : cutPart '#' ['|'] (part '#' (p.typeName.map escaped) ++ part '|' validator) = _ :=
    cutPart_part (by decide) _ (not_isPlain_of_mem_getD _) (isPlain_head_validator (by decide))
  have hlast : cutPart '|' [] (part '|' validator ++ []) = _ :=
    cutPart_part (by decide) validator (fun c _ => by simp [isPlain])
      fun c hc => absurd hc (Option.not_mem_none c)
  rw [List.append_nil] at hlast
  have hname : (escaped p.name).isEmpty = false := by
    refine List.isEmpty_eq_false_iff.mpr fun hempty => h.name ?_
    rw [← text_escaped p.name, hempty]
    rfl
  have hsource : unlessEmpty (rawText (validator.getD [])) = p.validator := by
    rw [← hvalidator]
    cases validator with
    | none => rfl
    | some cs => exact unlessEmpty_of_ne fun hempty =>
        h.validator (hvalidator.symm.trans (congrArg some hempty))
  rw [ofBody?, body, htake, hdrop]
  dsimp only
  rw [hdefault]
  dsimp only
  rw [htype]
  dsimp only
  rw [hlast]
  dsimp only
  rw [hname, text_escaped, unlessEmpty_text_escaped h.default, unlessEmpty_text_escaped h.typeName,
    hsource]
  rfl

/-- **What is printed between the braces is balanced**, if the validator is. -/
theorem exists_validator (hbalanced : ∀ v ∈ p.validator, IsBalanced v) :
    ∃ validator, Option.map rawText validator = p.validator ∧ Balanced (p.body validator) := by
  obtain ⟨validator, htext, hvalidator⟩ : ∃ validator : Option (List BodyChar),
      validator.map rawText = p.validator ∧ Balanced (validator.getD []) := by
    cases hv : p.validator with
    | none => exact ⟨none, rfl, balanced_nil⟩
    | some v =>
      obtain ⟨cs, hcs, htext⟩ := hbalanced v hv
      exact ⟨some cs, congrArg some htext, hcs⟩
  have hescaped (text : Option String) : Balanced ((text.map escaped).getD []) := by
    cases text with
    | none => exact balanced_nil
    | some text => exact balanced_escaped text
  have hdefault : Balanced (part ':' (p.default.map escaped)) := (hescaped _).part (by decide)
  have htype : Balanced (part '#' (p.typeName.map escaped)) := (hescaped _).part (by decide)
  exact ⟨validator, htext, (balanced_escaped p.name).append
    (hdefault.append (htype.append (hvalidator.part (by decide))))⟩

end Parameter

/-! ### Reading what was printed -/

namespace Schema

theorem withLiteral_reverse (row : Schema) {text : String} (hne : text ≠ "") :
    withLiteral row text.toList.reverse = row.append (.literal text .done) := by
  obtain ⟨c, cs, hcs⟩ := List.exists_cons_of_ne_nil fun hnil =>
    hne (String.toList_eq_nil_iff.mp (List.reverse_eq_nil_iff.mp hnil))
  have htext : String.ofList (c :: cs).reverse = text := by
    rw [← hcs, List.reverse_reverse, String.ofList_toList]
  rw [hcs]
  exact congrArg (fun text => row.append (.literal text .done)) htext

namespace Reading

variable {cs : List BodyChar} {row : Schema} {around : List (Nat × Schema)} {r : Reading}

theorem foldlM_read_cons {q : Reading} {c : Char} (h : r.read c = .ok q) (cs : List Char) :
    (c :: cs).foldlM read r = cs.foldlM read q := by
  rw [List.foldlM_cons, h]
  rfl

theorem foldlM_read_append {q : Reading} {cs : List Char} (h : cs.foldlM read r = .ok q)
    (ds : List Char) : (cs ++ ds).foldlM read r = ds.foldlM read q := by
  rw [List.foldlM_append, h]
  rfl

/-- A character between braces is read, if it is no unpaired backslash and closes no brace too many,
and the depth behind it is counted. -/
theorem exists_foldlM_read_bodyChar {c : BodyChar} (hc : c ≠ ('\\', false)) {nested mid : Nat}
    (hmid : c.openBehind? nested = some mid) (o start : Nat) (row : Schema)
    (around : List (Nat × Schema)) (body : List BodyChar) :
    ∃ o', (if c.2 then ['\\', c.1] else [c.1]).foldlM read
        ⟨o, row, around, .token start nested body⟩ =
      .ok ⟨o', row, around, .token start mid (c :: body)⟩ := by
  obtain ⟨c, escaped⟩ := c
  cases escaped with
  | true =>
    obtain rfl := Option.some.inj hmid
    exact ⟨_, rfl⟩
  | false =>
    -- without a backslash, one rule of the reader applies
    suffices hstep : TokenStep ⟨o, row, around, .token start nested body⟩ start nested body c
        ⟨o + c.utf8Size, row, around, .token start mid ((c, false) :: body)⟩ from
      ⟨_, foldlM_read_cons (read_eq_ok_iff.mpr (.token rfl hstep)) []⟩
    by_cases hopen : c = '{'
    · subst hopen
      obtain rfl := Option.some.inj hmid
      exact .opens
    · by_cases hclose : c = '}'
      · subst hclose
        cases nested with
        | zero => cases hmid
        | succ nested =>
          obtain rfl := Option.some.inj hmid
          exact .closes
      · have hmid : some nested = some mid := by
          simpa [BodyChar.openBehind?, hopen, hclose] using hmid
        obtain rfl := Option.some.inj hmid
        exact .plain (by simpa [hopen, hclose] using hc)

/-- **The inside of braces is read** character by character, if it has no unpaired backslash and
closes no brace too many. -/
theorem foldlM_read_body (hpaired : ('\\', false) ∉ cs) {nested nested' : Nat}
    (hnested : cs.foldlM BodyChar.openBehind? nested = some nested') (o start : Nat) (row : Schema)
    (around : List (Nat × Schema)) (body : List BodyChar) :
    ∃ o', (BodyChar.rawText cs).toList.foldlM read ⟨o, row, around, .token start nested body⟩ =
      .ok ⟨o', row, around, .token start nested' (cs.reverse ++ body)⟩ := by
  rw [BodyChar.rawText, String.toList_ofList]
  induction cs generalizing o nested body with
  | nil =>
    obtain rfl := Option.some.inj hnested
    exact ⟨o, rfl⟩
  | cons c cs ih =>
    obtain ⟨hc, hcs⟩ := not_or.mp fun h => hpaired (List.mem_cons.mpr h)
    rw [List.foldlM_cons] at hnested
    obtain ⟨mid, hmid, hnested⟩ := Option.bind_eq_some_iff.mp hnested
    obtain ⟨o', hone⟩ := exists_foldlM_read_bodyChar (Ne.symm hc) hmid o start row around body
    obtain ⟨o'', hrest⟩ := ih hcs hnested o' (c :: body)
    refine ⟨o'', ?_⟩
    rw [List.flatMap_cons, List.foldlM_append]
    refine bind_eq_ok_iff.mpr ⟨_, hone, ?_⟩
    rw [hrest, List.reverse_cons, List.append_assoc]
    rfl

/-- **A reading shows a row** inside of open segments: that is what there is if the level ends here.
-/
inductive Shows (row : Schema) (around : List (Nat × Schema)) : Reading → Prop
  | text (o : Nat) (front : Schema) (pending : List Char) (h : withLiteral front pending = row) :
    Shows row around ⟨o, front, around, .text pending⟩
  | behind (o : Nat) (front : Schema) (p : Parameter) (h : front.append (.param p .done) = row) :
    Shows row around ⟨o, front, around, .behind p⟩

/-- Where nothing is pending, the row is shown as it is. -/
theorem shows_row (o : Nat) (row : Schema) (around : List (Nat × Schema)) :
    Shows row around ⟨o, row, around, .text []⟩ := .text o row [] rfl

/-- Is literal text being read? -/
def isLiteral (r : Reading) : Bool :=
  match r.mode with
  | .text pending => !pending.isEmpty
  | _ => false

/-- Behind what a reading shows, anything but a question mark is read as in literal text. -/
theorem Shows.foldlM_eq (h : r.Shows row around) {c : Char} (hc : c ≠ '?') (cs : List Char) :
    ∃ o front pending, withLiteral front pending = row ∧ (r.isLiteral = false → pending = []) ∧
      (c :: cs).foldlM read r = (c :: cs).foldlM read ⟨o, front, around, .text pending⟩ := by
  cases h with
  | text o front pending h =>
    refine ⟨o, front, pending, h, fun hliteral => ?_, rfl⟩
    exact List.isEmpty_iff.mp ((Bool.not_eq_false' _).mp hliteral)
  | behind o front p h =>
    refine ⟨o, front.append (.param p .done), [], h, fun _ => rfl, ?_⟩
    rw [List.foldlM_cons, List.foldlM_cons]
    exact congrArg (· >>= _) (if_neg hc)

/-- Escaped characters are literal text. -/
theorem foldlM_read_escapeAll (text : String) (o : Nat) (row : Schema)
    (around : List (Nat × Schema)) (pending : List Char) :
    ∃ o', (escapeAll text).foldlM read ⟨o, row, around, .text pending⟩ =
      .ok ⟨o', row, around, .text (text.toList.reverse ++ pending)⟩ := by
  rw [escapeAll]
  induction text.toList generalizing o pending with
  | nil => exact ⟨o, rfl⟩
  | cons c cs ih =>
    obtain ⟨o', hrest⟩ := ih (o + '\\'.utf8Size + c.utf8Size) (c :: pending)
    refine ⟨o', ?_⟩
    rw [List.reverse_cons, List.append_assoc]
    exact hrest

/-- **A printed literal is read**, if no literal stands in front of it. -/
theorem Shows.read_literal (h : r.Shows row around) (hliteral : r.isLiteral = false) {text : String}
    (hne : text ≠ "") : ∃ q, (escapeAll text).foldlM read r = .ok q ∧
      q.Shows (row.append (.literal text .done)) around ∧ q.isLiteral = true := by
  obtain ⟨c, cs, hcs⟩ := List.exists_cons_of_ne_nil fun hnil =>
    hne (String.toList_eq_nil_iff.mp hnil)
  have htext : escapeAll text = '\\' :: c :: cs.flatMap fun c => ['\\', c] := by
    rw [escapeAll, hcs]
    rfl
  obtain ⟨o, front, pending, hfront, hpending, heq⟩ :=
    h.foldlM_eq (c := '\\') (by decide) (c :: cs.flatMap fun c => ['\\', c])
  obtain rfl := hpending hliteral
  obtain rfl : front = row := hfront
  obtain ⟨o', hread⟩ := foldlM_read_escapeAll text o front around []
  rw [← htext, hread, List.append_nil] at heq
  refine ⟨_, heq, .text _ _ _ (withLiteral_reverse _ hne), ?_⟩
  simp [isLiteral, hcs]

/-- **A printed parameter is read.** -/
theorem Shows.read_param (h : r.Shows row around) {p : Parameter} (hp : p.IsTidy)
    (hbalanced : ∀ v ∈ p.validator, IsBalanced v) : ∃ q, p.print.foldlM read r = .ok q ∧
      q.Shows (row.append (.param p .done)) around ∧ q.isLiteral = false := by
  obtain ⟨validator, hvalidator, hbody⟩ := Parameter.exists_validator hbalanced
  obtain ⟨o, front, pending, rfl, -, heq⟩ := h.foldlM_eq (c := '{') (by decide)
    ((BodyChar.rawText (p.body validator)).toList ++ '}' :: if p.optional then ['?'] else [])
  obtain ⟨o', hread⟩ := foldlM_read_body hbody.paired hbody.balanced (o + '{'.utf8Size) o
    (withLiteral front pending) around []
  rw [List.append_nil] at hread
  have hclose : read ⟨o', withLiteral front pending, around, .token o 0 (p.body validator).reverse⟩
      '}' = .ok ⟨o' + '}'.utf8Size, withLiteral front pending, around,
        .behind { p with optional := false }⟩ := by
    refine read_eq_ok_iff.mpr (.token rfl (.ends ?_))
    rw [List.reverse_reverse, Parameter.ofBody?_body hp hvalidator]
  have hopen : read ⟨o, front, around, .text pending⟩ '{' =
      .ok ⟨o + '{'.utf8Size, withLiteral front pending, around, .token o 0 []⟩ := rfl
  have hbehind : p.print.foldlM read r = (if p.optional then ['?'] else []).foldlM read
      ⟨o' + '}'.utf8Size, withLiteral front pending, around,
        .behind { p with optional := false }⟩ := by
    rw [Parameter.print_eq hvalidator, List.append_assoc, List.append_assoc, List.singleton_append,
      List.singleton_append]
    rw [heq, foldlM_read_cons hopen, foldlM_read_append hread]
    exact foldlM_read_cons hclose _
  obtain ⟨name, default, typeName, validatorText, optional⟩ := p
  rw [hbehind]
  cases optional with
  | true => exact ⟨_, rfl, .text _ _ [] rfl, rfl⟩
  | false => exact ⟨_, rfl, .behind _ _ _ rfl, rfl⟩

/-- **A printed schema is read**, wherever it stands. -/
theorem Shows.read_schema (h : r.Shows row around) {s : Schema} (hs : s.IsTidyBehind r.isLiteral)
    (hbalanced : ∀ p ∈ s.params, ∀ v ∈ p.validator, IsBalanced v) :
    ∃ q, s.print.foldlM read r = .ok q ∧ q.Shows (row.append s) around := by
  induction s generalizing r row around with
  | done => exact ⟨r, rfl, (append_done row).symm ▸ h⟩
  | literal text rest ih =>
    obtain ⟨hliteral, hne, hrest⟩ := hs
    obtain ⟨q, hq, hshows, htrue⟩ := h.read_literal hliteral hne
    obtain ⟨q', hq', hshows'⟩ := ih hshows (htrue ▸ hrest) hbalanced
    rw [append_assoc] at hshows'
    exact ⟨q', (foldlM_read_append hq _).trans hq', hshows'⟩
  | param p rest ih =>
    obtain ⟨hp, hrest⟩ := hs
    obtain ⟨hbalanced, hbalancedRest⟩ := List.forall_mem_cons.mp hbalanced
    obtain ⟨q, hq, hshows, hfalse⟩ := h.read_param hp hbalanced
    obtain ⟨q', hq', hshows'⟩ := ih hshows (hfalse ▸ hrest) hbalancedRest
    rw [append_assoc] at hshows'
    exact ⟨q', (foldlM_read_append hq _).trans hq', hshows'⟩
  | segment inner rest ih1 ih2 =>
    obtain ⟨hinner, hrest⟩ := hs
    obtain ⟨hbalancedInner, hbalancedRest⟩ := List.forall_mem_append.mp hbalanced
    rw [print, List.append_assoc, List.append_assoc, List.singleton_append]
    -- the bracket puts the row aside, and what is in it begins with nothing
    obtain ⟨o, front, pending, rfl, -, heq⟩ := h.foldlM_eq (c := '[') (by decide)
      (inner.print ++ ([']'] ++ rest.print))
    have hopen : read ⟨o, front, around, .text pending⟩ '[' = .ok ⟨o + '['.utf8Size, .done,
        (o, withLiteral front pending) :: around, .text []⟩ := rfl
    obtain ⟨q, hq, hshows⟩ := ih1
      (shows_row (o + '['.utf8Size) .done ((o, withLiteral front pending) :: around)) hinner
      hbalancedInner
    -- the other one puts it behind the row
    obtain ⟨o', front', pending', hfront', -, heq'⟩ :=
      hshows.foldlM_eq (c := ']') (by decide) rest.print
    have hclose : read ⟨o', front', (o, withLiteral front pending) :: around, .text pending'⟩ ']' =
        .ok ⟨o' + ']'.utf8Size, (withLiteral front pending).append
          (.segment (withLiteral front' pending') .done), around, .text []⟩ := rfl
    rw [hfront'] at hclose
    obtain ⟨q', hq', hshows'⟩ := ih2 (shows_row (o' + ']'.utf8Size)
      ((withLiteral front pending).append (.segment inner .done)) around) hrest hbalancedRest
    rw [append_assoc] at hshows'
    refine ⟨q', ?_, hshows'⟩
    rw [heq, foldlM_read_cons hopen, foldlM_read_append hq]
    refine heq'.trans ?_
    rw [foldlM_read_cons hclose]
    exact hq'

end Reading

/-! ### Printing and reading -/

variable {s : Schema}

/-- **A tidy schema is read from its print.** -/
theorem ofText_print_eq (hs : s.IsTidy)
    (hbalanced : ∀ p ∈ s.params, ∀ v ∈ p.validator, IsBalanced v) :
    ofText (String.ofList s.print) = .ok s := by
  obtain ⟨q, hq, hshows⟩ :=
    (Reading.shows_row 0 .done []).read_schema (s := s) hs hbalanced
  have hfinish : q.finish = .ok s := by
    cases hshows with
    | text o front pending h => exact congrArg Except.ok h
    | behind o front p h => exact congrArg Except.ok h
  have hall : Reading.start.readAll (String.ofList s.print).toList = .ok s := by
    rw [String.toList_ofList]
    exact bind_eq_ok_iff.mpr ⟨q, hq, hfinish⟩
  rw [ofText, hall]

/-- **Reading inverts printing.** A schema is read from its print if it is tidy and the braces of
its validators are balanced, and only tidy schemas are ever read. -/
theorem ofText_print : (∀ s : Schema, s.IsTidy →
      (∀ p ∈ s.params, ∀ v ∈ p.validator, IsBalanced v) → ofText (String.ofList s.print) = .ok s) ∧
    ∀ text s, ofText text = .ok s → s.IsTidy :=
  ⟨fun _ => ofText_print_eq, fun _ _ => isTidy_of_ofText⟩

/-- An optional number behind a slash, and a question mark that may be left out. Its validator has
braces in it, one pair of them plain and one behind a backslash. -/
def numbered : Schema :=
  .literal "/" (.param ⟨"n", some "1", some "int", some "[0-9]\x7b2\x7d|\\\x7d", true⟩
    (.segment (.literal "?" .done) .done))

theorem ofText_print_numbered :
    ofText "\\/\x7b\\n:\\1#\\i\\n\\t|[0-9]\x7b2\x7d|\\\x7d\x7d?[\\?]" = .ok numbered := by
  have hvalidator : IsBalanced "[0-9]\x7b2\x7d|\\\x7d" :=
    ⟨[('[', false), ('0', false), ('-', false), ('9', false), (']', false), ('{', false),
      ('2', false), ('}', false), ('|', false), ('}', true)], ⟨by decide, rfl⟩, rfl⟩
  have hparam : Parameter.IsTidy
      ⟨"n", some "1", some "int", some "[0-9]\x7b2\x7d|\\\x7d", true⟩ := by
    refine ⟨by decide, by decide, by decide, by decide, fun v hv => ?_⟩
    obtain rfl := Option.some.inj hv
    obtain ⟨cs, hcs, htext⟩ := hvalidator
    exact ⟨cs, hcs.paired, htext⟩
  refine ofText_print.1 numbered
    ⟨rfl, by decide, hparam, ⟨rfl, by decide, trivial⟩, trivial⟩ fun p hp v hv => ?_
  obtain rfl := List.mem_singleton.mp hp
  obtain rfl := Option.some.inj hv
  exact hvalidator

end Schema

end UrlRouting

