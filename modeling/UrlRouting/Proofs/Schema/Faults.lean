import UrlRouting.Proofs.Schema.Printing

/-!
# Where the fault of a schema is

A text that is no schema is refused with an offset, and there the text is beyond help, while what
stands in front of it is not: closing the segments that are still open makes a schema of it. For
characters that close nothing this is all there is to say. For what is never closed, the offset is
that of the bracket or the brace that was to be closed first, although the reader only finds out at
the end.

The reader goes from left to right and remembers the offsets of what is open. So what an offset
stands for is a fact about what has been read so far (`UrlRouting.Schema.Reading.Located`), and
every character keeps it. The hard part is the text behind a bracket, which is to be a segment by
itself: it is read there as it is read in its place, with fewer segments around it
(`UrlRouting.Schema.Reading.Beneath`).
-/

namespace UrlRouting

namespace Schema

/-! ### What is said about a text -/

/-- The number of bytes of some characters. -/
def byteLength (cs : List Char) : Nat := (String.ofList cs).utf8ByteSize

/-- Are characters the text of a schema? -/
def IsAccepted (cs : List Char) : Prop := ∃ s, ofText (String.ofList cs) = .ok s

/-- As many closing brackets. -/
def closing (k : Nat) : List Char := List.replicate k ']'

/-- **A character that closes nothing.** Whatever comes behind it, it is refused, and what stands in
front of it can be made a schema by closing segments. A closing bracket is refused where there is
none to be closed. -/
def ClosesNothing (cs : List Char) (index : Nat) (found : Char) : Prop :=
  ∃ front back, cs = front ++ found :: back ∧ byteLength front = index ∧
    (∀ more, ofText (String.ofList (front ++ found :: more)) =
      .error ⟨String.ofList (front ++ found :: more), .unexpectedClosing index found⟩) ∧
    ∃ k, IsAccepted (front ++ closing k) ∧ (found = ']' → k = 0)

/-- **A bracket that is not closed**, the innermost one. Brackets are missing at the end, in front
of it there is one less of them, and from it on there is just one. -/
def LeavesSegment (cs : List Char) (start : Nat) : Prop :=
  ∃ front back, cs = front ++ '[' :: back ∧ byteLength front = start ∧
    ∃ k, 1 ≤ k ∧ IsAccepted (cs ++ closing k) ∧ IsAccepted (front ++ closing (k - 1)) ∧
      IsAccepted ('[' :: back ++ closing 1)

/-- **A brace that is not closed.** In front of it only brackets are missing, and at the end braces
and then brackets, unless what was begun has no name. -/
def LeavesParameter (cs : List Char) (start : Nat) : Prop :=
  ∃ front back, cs = front ++ '{' :: back ∧ byteLength front = start ∧
    (∃ k, IsAccepted (front ++ closing k)) ∧
    ∃ m k, ∀ e, ofText (String.ofList (cs ++ (List.replicate m '}' ++ closing k))) = .error e →
      e.fault = .missingName

/-- **A backslash at the end**, which is the last byte. -/
def EndsInEscape (cs : List Char) (index : Nat) : Prop :=
  ∃ front, cs = front ++ ['\\'] ∧ byteLength front = index ∧ byteLength cs = index + 1

end Schema

open Schema in
/-- **Does a fault say where a text is wrong?** Only what is wrong with the form of a schema is
found in reading it. -/
def SchemaFault.PointsInto (cs : List Char) : SchemaFault → Prop
  | .unexpectedClosing index found => ClosesNothing cs index found
  | .unterminatedSegment start => LeavesSegment cs start
  | .unterminatedParameter start => LeavesParameter cs start
  | .loneEscape index => EndsInEscape cs index
  | .missingName => True
  | .duplicateParameter _ | .unknownType _ _ | .invalidPattern _ => False

namespace Schema

theorem byteLength_append (cs ds : List Char) :
    byteLength (cs ++ ds) = byteLength cs + byteLength ds := by
  rw [byteLength, String.ofList_append, String.utf8ByteSize_append]
  rfl

theorem byteLength_singleton (c : Char) : byteLength [c] = c.utf8Size := by
  rw [byteLength, ← String.singleton_eq_ofList, String.utf8ByteSize_singleton]

theorem ofText_ofList (cs : List Char) : ofText (String.ofList cs) =
    match Reading.start.readAll cs with
    | .ok s => .ok s
    | .error fault => .error ⟨String.ofList cs, fault⟩ := by
  unfold ofText
  cases hread : Reading.start.readAll cs with
  | ok s => simp only [String.toList_ofList, hread]
  | error fault => simp only [String.toList_ofList, hread]

/-! ### One character -/

/-- Where the backslash stands that makes the next character plain. -/
def Mode.escape? : Mode → Option Nat
  | .textEscape _ index | .tokenEscape _ _ _ index => some index
  | _ => none

/-- Where the parameter begins that is being read. -/
def Mode.token? : Mode → Option Nat
  | .token start _ _ | .tokenEscape start _ _ _ => some start
  | _ => none

/-- May a level end here? -/
def Mode.canEnd : Mode → Bool
  | .text _ | .behind _ => true
  | _ => false

namespace Reading

variable {r r' q : Reading} {c : Char} {cs : List Char} {fault : SchemaFault} {m : Nat}

theorem exists_shows (h : r.mode.canEnd = true) : ∃ row, r.Shows row r.around := by
  obtain ⟨o, row, around, mode⟩ := r
  cases mode with
  | text pending => exact ⟨_, .text o row pending rfl⟩
  | behind p => exact ⟨_, .behind o row p rfl⟩
  | textEscape | token | tokenEscape => cases h

/-- **What a character does** to the segments and the parameter that are open. -/
inductive Turns (r : Reading) (c : Char) (q : Reading) : Prop
  /-- A brace begins a parameter. -/
  | beginsToken (canEnd : r.mode.canEnd = true) (eq : c = '{') (around : q.around = r.around)
    (mode : q.mode = .token r.offset 0 [])
  /-- A bracket begins a segment. -/
  | beginsSegment (row : Schema) (canEnd : r.mode.canEnd = true) (eq : c = '[')
    (around : q.around = (r.offset, row) :: r.around) (mode : q.mode = .text [])
  /-- A bracket ends a segment. -/
  | endsSegment (top : Nat × Schema) (around : r.around = top :: q.around) (mode : q.mode = .text [])
  /-- A backslash is read. -/
  | escapes (eq : c = '\\') (around : q.around = r.around) (token : q.mode.token? = r.mode.token?)
    (escape : q.mode.escape? = some r.offset)
  /-- Something is read that begins nothing. -/
  | goesOn (around : q.around = r.around)
    (token : ∀ start, q.mode.token? = some start → r.mode.token? = some start)
    (escape : q.mode.escape? = none)

theorem turns_of_textStep {pending : List Char} (hr : r.mode.canEnd = true)
    (h : r.TextStep pending c q) : r.Turns c q := by
  have htoken : r.mode.token? = none := by
    cases hmode : r.mode with
    | text | behind | textEscape => rfl
    | token | tokenEscape =>
      rw [hmode] at hr
      cases hr
  cases h with
  | beginsParam => exact .beginsToken hr rfl rfl rfl
  | beginsSegment => exact .beginsSegment _ hr rfl rfl rfl
  | endsSegment innermost => exact .endsSegment _ innermost rfl
  | escapes => exact .escapes rfl rfl htoken.symm rfl
  | plain => exact .goesOn rfl (fun _ h => nomatch h) rfl

theorem turns_of_tokenStep {start nested : Nat} {body : List BodyChar}
    (hmode : r.mode = .token start nested body) (h : r.TokenStep start nested body c q) :
    r.Turns c q := by
  have hsame : r.mode.token? = some start := by rw [hmode]; rfl
  cases h with
  | escapes => exact .escapes rfl rfl hsame.symm rfl
  | opens | closes | plain => exact .goesOn rfl (fun _ h => hsame.trans h) rfl
  | ends => exact .goesOn rfl (fun _ h => nomatch h) rfl

/-- Every character is counted. -/
theorem Step.offset_eq (h : r.Step c q) : q.offset = r.offset + c.utf8Size := by
  cases h with
  | text _ step => cases step <;> rfl
  | token _ step => cases step <;> rfl
  | behind _ _ step => cases step <;> rfl
  | _ => rfl

/-- **What a character does** is one of five things. -/
theorem Step.turns (h : r.Step c q) : r.Turns c q := by
  cases h with
  | text mode step => exact turns_of_textStep (by rw [mode]; rfl) step
  | escaped => exact .goesOn rfl (fun _ h => nomatch h) rfl
  | token mode step => exact turns_of_tokenStep mode step
  | tokenEscaped mode => exact .goesOn rfl (fun _ h => by rwa [mode]) rfl
  | optional => exact .goesOn rfl (fun _ h => nomatch h) rfl
  | @behind p _ _ mode _ step =>
    -- the parameter has been put behind the row, and nothing else has changed
    have hend : r.mode.canEnd = true := by rw [mode]; rfl
    have htoken : r.mode.token? = none := by rw [mode]; rfl
    cases turns_of_textStep (r := r.pushParam p) rfl step with
    | beginsToken _ hc haround hmode => exact .beginsToken hend hc haround hmode
    | beginsSegment row _ hc haround hmode => exact .beginsSegment row hend hc haround hmode
    | endsSegment top haround hmode => exact .endsSegment top haround hmode
    | escapes hc haround hsame hescape =>
      exact .escapes hc haround (hsame.trans htoken.symm) hescape
    | goesOn haround hsame hescape =>
      exact .goesOn haround (fun start h => htoken.trans (hsame start h)) hescape

/-- In literal text a character is refused if it closes what is not open. -/
theorem readText_eq_error {pending : List Char} (h : r.readText pending c = .error fault) :
    fault = .unexpectedClosing r.offset c ∧ (c = ']' → r.around = []) := by
  rw [readText] at h
  split at h
  · cases h
  split at h
  · cases h
  split at h
  · split at h
    · exact ⟨(Except.error.inj h).symm, fun _ => ‹_›⟩
    · cases h
  split at h
  · exact ⟨(Except.error.inj h).symm, fun hc => absurd hc ‹_›⟩
  split at h <;> cases h

/-- Between braces a character is refused if it ends a parameter without a name. -/
theorem readToken_eq_error {start nested : Nat} {body : List BodyChar}
    (h : r.readToken start nested body c = .error fault) : fault = .missingName := by
  rw [readToken.eq_def] at h
  split at h
  · cases h
  split at h
  · cases h
  split at h
  · split at h
    · cases h
    · split at h
      · cases h
      · exact (Except.error.inj h).symm
  · cases h

/-- **A character is refused** if it closes what is not open, or a parameter without a name. -/
theorem read_eq_error (h : r.read c = .error fault) : fault = .missingName ∨
    fault = .unexpectedClosing r.offset c ∧ r.mode.canEnd = true ∧ (c = ']' → r.around = []) := by
  obtain ⟨o, row, around, mode⟩ := r
  cases mode with
  | text pending =>
    obtain ⟨hfault, hempty⟩ := readText_eq_error h
    exact .inr ⟨hfault, rfl, hempty⟩
  | textEscape | tokenEscape => cases h
  | token start nested body => exact .inl (readToken_eq_error h)
  | behind p =>
    rw [read.eq_def] at h
    dsimp only at h
    split at h
    · cases h
    · obtain ⟨hfault, hempty⟩ := readText_eq_error h
      exact .inr ⟨hfault, rfl, hempty⟩

/-- **A reading is refused at the end** for what is still open. -/
theorem finish_eq_error (h : r.finish = .error fault) :
    (∃ i, r.mode.escape? = some i ∧ fault = .loneEscape i) ∨
      (∃ start nested body, r.mode = .token start nested body ∧
        fault = .unterminatedParameter start) ∨
      ∃ start row outer, r.around = (start, row) :: outer ∧ r.mode.canEnd = true ∧
        fault = .unterminatedSegment start := by
  obtain ⟨o, row, around, mode⟩ := r
  cases mode with
  | text pending | behind p =>
    cases around with
    | nil => cases h
    | cons top outer =>
      obtain rfl := Except.error.inj h
      exact .inr (.inr ⟨_, _, _, rfl, rfl, rfl⟩)
  | textEscape pending i =>
    obtain rfl := Except.error.inj h
    exact .inl ⟨_, rfl, rfl⟩
  | tokenEscape start nested body i =>
    obtain rfl := Except.error.inj h
    exact .inl ⟨_, rfl, rfl⟩
  | token start nested body =>
    obtain rfl := Except.error.inj h
    exact .inr (.inl ⟨_, _, _, rfl, rfl⟩)

/-! ### Closing what is open -/

theorem readAll_append (h : cs.foldlM read r = .ok q) (ds : List Char) :
    r.readAll (cs ++ ds) = q.readAll ds := by
  rw [readAll, readAll, foldlM_read_append h]

theorem isAccepted_append {s : Schema} (h : cs.foldlM read .start = .ok r) {ds : List Char}
    (hs : r.readAll ds = .ok s) : IsAccepted (cs ++ ds) := by
  refine ⟨s, ?_⟩
  rw [ofText_ofList, readAll_append h, hs]

/-- **As many brackets as segments are open** make a schema, where a level may end. -/
theorem Shows.exists_readAll_closing {row : Schema} {around : List (Nat × Schema)}
    (h : r.Shows row around) : ∃ s, r.readAll (closing around.length) = .ok s := by
  induction around generalizing r row with
  | nil =>
    cases h with
    | text o front pending h => exact ⟨_, rfl⟩
    | behind o front p h => exact ⟨_, rfl⟩
  | cons top around ih =>
    obtain ⟨o, front, pending, -, -, heq⟩ :=
      h.foldlM_eq (c := ']') (by decide) (closing around.length)
    obtain ⟨start, outer⟩ := top
    have hclose : read ⟨o, front, (start, outer) :: around, .text pending⟩ ']' =
        .ok ⟨o + ']'.utf8Size, outer.append (.segment (withLiteral front pending) .done), around,
          .text []⟩ := rfl
    obtain ⟨s, hs⟩ := ih (shows_row (o + ']'.utf8Size) _ around)
    refine ⟨s, ?_⟩
    rw [List.length_cons, closing, List.replicate_succ, readAll, ← closing, heq,
      foldlM_read_cons hclose]
    exact hs

theorem isAccepted_closing (h : cs.foldlM read .start = .ok r) (hend : r.mode.canEnd = true) :
    IsAccepted (cs ++ closing r.around.length) := by
  obtain ⟨row, hshows⟩ := exists_shows hend
  obtain ⟨s, hs⟩ := hshows.exists_readAll_closing
  exact isAccepted_append h hs

/-- **As many braces as are open, and then brackets**, make a schema of an open parameter, if it has
a name. -/
theorem readAll_closing_token (o start nested : Nat) (row : Schema) (around : List (Nat × Schema))
    (body : List BodyChar) (h : readAll ⟨o, row, around, .token start nested body⟩
      (List.replicate (nested + 1) '}' ++ closing around.length) = .error fault) :
    fault = .missingName := by
  -- only the last brace ends the parameter, the others are characters of its body
  induction nested generalizing o body with
  | zero =>
    cases hparam : Parameter.ofBody? body.reverse with
    | none =>
      have hclose : read ⟨o, row, around, .token start 0 body⟩ '}' = .error .missingName := by
        change readToken _ start 0 body '}' = _
        rw [readToken.eq_def, hparam]
        rfl
      rw [readAll, List.replicate_one, List.singleton_append, List.foldlM_cons, hclose] at h
      exact (Except.error.inj h).symm
    | some p =>
      have hclose : read ⟨o, row, around, .token start 0 body⟩ '}' =
          .ok ⟨o + '}'.utf8Size, row, around, .behind p⟩ := by
        change readToken _ start 0 body '}' = _
        rw [readToken.eq_def, hparam]
        rfl
      have hshows : Shows (row.append (.param p .done)) around
        ⟨o + '}'.utf8Size, row, around, .behind p⟩ := .behind _ row p rfl
      obtain ⟨s, hs⟩ := hshows.exists_readAll_closing
      rw [readAll, List.replicate_one, List.singleton_append, foldlM_read_cons hclose] at h
      cases hs.symm.trans h
  | succ nested ih =>
    have hclose : read ⟨o, row, around, .token start (nested + 1) body⟩ '}' =
        .ok ⟨o + '}'.utf8Size, row, around, .token start nested (('}', false) :: body)⟩ := rfl
    rw [readAll, List.replicate_succ, List.cons_append, foldlM_read_cons hclose] at h
    exact ih _ _ h

/-! ### With fewer segments around -/

/-- **One reading is in the middle of what another one is in the middle of**, which has `m` more
segments around it. -/
structure Beneath (m : Nat) (q r : Reading) : Prop where
  mode : Alike q.mode r.mode
  depth : r.around.length = q.around.length + m

theorem Alike.canEnd_eq {m n : Mode} (h : Alike m n) : m.canEnd = n.canEnd := by
  cases h <;> rfl

/-- In literal text the segments around count for a closing bracket only, and it ends one of those
that both have. -/
theorem beneath_textStep {pending : List Char} (hdepth : r.around.length = q.around.length + m)
    (h : r.TextStep pending c r') (hopen : m < r'.around.length) :
    ∃ q', q.TextStep pending c q' ∧ Beneath m q' r' := by
  cases h with
  | beginsParam => exact ⟨_, .beginsParam, .token _ _ 0 [], hdepth⟩
  | beginsSegment =>
    refine ⟨_, .beginsSegment, .text [], ?_⟩
    rw [List.length_cons, hdepth, List.length_cons, Nat.add_right_comm]
  | endsSegment innermost =>
    rw [innermost, List.length_cons] at hdepth
    dsimp only at hopen
    obtain ⟨⟨start, front⟩, around, hq⟩ : ∃ top around, q.around = top :: around :=
      List.exists_cons_of_length_pos (by omega)
    refine ⟨_, .endsSegment hq, .text [], ?_⟩
    rw [hq, List.length_cons] at hdepth
    dsimp only
    omega
  | escapes => exact ⟨_, .escapes, .textEscape pending _ _, hdepth⟩
  | plain hc => exact ⟨_, .plain hc, .text _, hdepth⟩

/-- Between braces the segments around do not count. -/
theorem beneath_tokenStep {i j nested : Nat} {body : List BodyChar}
    (hdepth : r.around.length = q.around.length + m) (h : r.TokenStep j nested body c r') :
    ∃ q', q.TokenStep i nested body c q' ∧ Beneath m q' r' := by
  cases h with
  | escapes => exact ⟨_, .escapes, .tokenEscape i j nested body _ _, hdepth⟩
  | opens => exact ⟨_, .opens, .token i j _ _, hdepth⟩
  | closes => exact ⟨_, .closes, .token i j _ _, hdepth⟩
  | ends hp => exact ⟨_, .ends hp, .behind _, hdepth⟩
  | plain hc => exact ⟨_, .plain hc, .token i j _ _, hdepth⟩

/-- **A character is read alike with fewer segments around**, as long as it ends none of those that
are missing. -/
theorem Beneath.read (h : Beneath m q r) (hread : r.Step c r') (hopen : m < r'.around.length) :
    ∃ q', q.Step c q' ∧ Beneath m q' r' := by
  obtain ⟨hmode, hdepth⟩ := h
  generalize hq : q.mode = mode at hmode
  cases hread with
  | text mode' step =>
    rw [mode'] at hmode
    cases hmode with
    | text =>
      obtain ⟨q', hstep, hbeneath⟩ := beneath_textStep hdepth step hopen
      exact ⟨q', .text hq hstep, hbeneath⟩
  | escaped mode' =>
    rw [mode'] at hmode
    cases hmode with
    | textEscape => exact ⟨_, .escaped hq, .text _, hdepth⟩
  | token mode' step =>
    rw [mode'] at hmode
    cases hmode with
    | token =>
      obtain ⟨q', hstep, hbeneath⟩ := beneath_tokenStep hdepth step
      exact ⟨q', .token hq hstep, hbeneath⟩
  | tokenEscaped mode' =>
    rw [mode'] at hmode
    cases hmode with
    | tokenEscape => exact ⟨_, .tokenEscaped hq, .token _ _ _ _, hdepth⟩
  | optional mode' =>
    rw [mode'] at hmode
    cases hmode with
    | behind => exact ⟨_, .optional hq, .text [], hdepth⟩
  | @behind p _ _ mode' hc step =>
    rw [mode'] at hmode
    cases hmode with
    | behind =>
      obtain ⟨q', hstep, hbeneath⟩ :=
        beneath_textStep (r := r.pushParam p) (q := q.pushParam p) hdepth step hopen
      exact ⟨q', .behind hq hc hstep, hbeneath⟩

/-! ### What the offsets stand for -/

/-- **A mark stands at an offset**, and a level may end in front of it. -/
structure StandsAt (mark : Char) (cs : List Char) (index : Nat) (front back : List Char)
    (q : Reading) : Prop where
  eq : cs = front ++ mark :: back
  bytes : byteLength front = index
  read : front.foldlM read .start = .ok q
  canEnd : q.mode.canEnd = true

/-- **An open segment begins at an offset**, and what stands from there on is read by itself as it
is read here, with no segment around it but this one. -/
def SegmentAt (cs : List Char) (start depth : Nat) (r : Reading) : Prop :=
  ∃ front back outside inside, StandsAt '[' cs start front back outside ∧
    outside.around.length = depth ∧ ('[' :: back).foldlM read .start = .ok inside ∧
    Beneath depth inside r

/-- **Every offset of a reading stands for something** in what has been read. -/
structure Located (cs : List Char) (r : Reading) : Prop where
  offset : r.offset = byteLength cs
  escape : ∀ i, r.mode.escape? = some i → ∃ front, cs = front ++ ['\\'] ∧ byteLength front = i
  token : ∀ start, r.mode.token? = some start → ∃ front back q, StandsAt '{' cs start front back q
  segment : ∀ start row outer, (start, row) :: outer <:+ r.around →
    SegmentAt cs start outer.length r

section

variable {mark : Char} {index start depth : Nat} {front back : List Char}

theorem StandsAt.snoc (h : StandsAt mark cs index front back q) (c : Char) :
    StandsAt mark (cs ++ [c]) index front (back ++ [c]) q where
  eq := by rw [h.eq, List.append_assoc, List.cons_append]
  bytes := h.bytes
  read := h.read
  canEnd := h.canEnd

theorem StandsAt.isAccepted (h : StandsAt mark cs index front back q) :
    IsAccepted (front ++ closing q.around.length) := isAccepted_closing h.read h.canEnd

/-- The character that is being read stands where the reading is. -/
theorem Located.standsAt (h : Located cs r) (hr : cs.foldlM Reading.read .start = .ok r)
    (hend : r.mode.canEnd = true) (c : Char) (back : List Char) :
    StandsAt c (cs ++ c :: back) r.offset cs back r :=
  ⟨rfl, h.offset.symm, hr, hend⟩

theorem SegmentAt.read (h : SegmentAt cs start depth r) (hread : r.Step c q)
    (hopen : depth < q.around.length) : SegmentAt (cs ++ [c]) start depth q := by
  obtain ⟨front, back, outside, inside, hstands, hdepth, hinside, hbeneath⟩ := h
  obtain ⟨inside', hread', hbeneath'⟩ := hbeneath.read hread hopen
  refine ⟨front, back ++ [c], outside, inside', hstands.snoc c, hdepth, ?_, hbeneath'⟩
  rw [← List.cons_append, foldlM_read_append hinside,
    foldlM_read_cons (read_eq_ok_iff.mpr hread')]
  rfl

theorem located_start : Located [] .start where
  offset := rfl
  escape := fun _ h => nomatch h
  token := fun _ h => nomatch h
  segment := fun _ _ _ h => nomatch List.suffix_nil.mp h

/-- What was open is open as long as it is around. -/
theorem Located.segmentAt (h : Located cs r) (hread : r.Step c q) {row : Schema}
    {outer : List (Nat × Schema)} (hsuffix : (start, row) :: outer <:+ r.around)
    (hopen : outer.length < q.around.length) : SegmentAt (cs ++ [c]) start outer.length q :=
  (h.segment start row outer hsuffix).read hread hopen

/-- What is being read was begun at its offset, and is still. -/
theorem Located.exists_standsAt (h : Located cs r) (c : Char) (hr : r.mode.token? = some start) :
    ∃ front back q, StandsAt '{' (cs ++ [c]) start front back q := by
  obtain ⟨front, back, before, hstands⟩ := h.token start hr
  exact ⟨front, back ++ [c], before, hstands.snoc c⟩

/-- A segment that begins holds nothing so far. -/
theorem Located.segmentAt_begin (h : Located cs r) (hr : cs.foldlM Reading.read .start = .ok r)
    (hend : r.mode.canEnd = true) {row : Schema} (haround : q.around = (r.offset, row) :: r.around)
    (hmode : q.mode = .text []) : SegmentAt (cs ++ ['[']) r.offset r.around.length q := by
  refine ⟨cs, [], r, _, h.standsAt hr hend '[' [], rfl, rfl, hmode ▸ .text [], ?_⟩
  rw [haround, List.length_cons, Nat.add_comm]
  rfl

/-- **Reading a character** keeps what the offsets stand for. -/
theorem Located.read (h : Located cs r) (hr : cs.foldlM Reading.read .start = .ok r)
    (hread : r.Step c q) : Located (cs ++ [c]) q := by
  constructor
  case offset => rw [hread.offset_eq, h.offset, byteLength_append, byteLength_singleton]
  case escape =>
    intro i hi
    cases hread.turns with
    | escapes hc _ _ hescape =>
      obtain rfl := Option.some.inj (hescape.symm.trans hi)
      exact ⟨cs, hc ▸ rfl, h.offset.symm⟩
    | goesOn _ _ hescape => cases hescape.symm.trans hi
    | beginsToken _ _ _ hmode | beginsSegment _ _ _ _ hmode | endsSegment _ _ hmode =>
      rw [hmode] at hi
      cases hi
  case token =>
    intro start hstart
    cases hread.turns with
    | beginsToken hend hc _ hmode =>
      rw [hmode] at hstart
      obtain rfl := Option.some.inj hstart
      exact ⟨cs, [], r, hc ▸ h.standsAt hr hend c []⟩
    | escapes _ _ hsame _ => exact h.exists_standsAt c (hsame.symm.trans hstart)
    | goesOn _ hsame _ => exact h.exists_standsAt c (hsame start hstart)
    | beginsSegment _ _ _ _ hmode | endsSegment _ _ hmode =>
      rw [hmode] at hstart
      cases hstart
  case segment =>
    intro start row outer hsuffix
    have hlength : outer.length < q.around.length := hsuffix.length_le
    cases hread.turns with
    | beginsToken _ _ haround _ | escapes _ haround _ _ | goesOn haround _ _ =>
      exact h.segmentAt hread (haround ▸ hsuffix) hlength
    | endsSegment top haround _ =>
      exact h.segmentAt hread (haround ▸ hsuffix.trans (List.suffix_cons _ _)) hlength
    | beginsSegment row' hend hc haround hmode =>
      rw [haround, List.suffix_cons_iff] at hsuffix
      rcases hsuffix with heq | hsuffix
      · obtain ⟨hfirst, rfl⟩ := List.cons.inj heq
        obtain ⟨rfl, -⟩ := Prod.mk.inj hfirst
        exact hc ▸ h.segmentAt_begin hr hend haround hmode
      · exact h.segmentAt hread hsuffix hlength

end

/-- **In every reading the offsets stand for something.** -/
theorem located (h : cs.foldlM read .start = .ok r) : Located cs r := by
  induction cs using List.reverseRecOn generalizing r with
  | nil =>
    obtain rfl := Except.ok.inj h
    exact located_start
  | append_singleton cs c ih =>
    rw [List.foldlM_append] at h
    obtain ⟨mid, hmid, h⟩ := bind_eq_ok_iff.mp h
    obtain ⟨last, hlast, h⟩ := bind_eq_ok_iff.mp h
    obtain rfl := Except.ok.inj h
    exact (ih hmid).read hmid (read_eq_ok_iff.mp hlast)

/-! ### What a fault points at -/

/-- What cannot be read has a first character that cannot be read. -/
theorem foldlM_read_error (h : cs.foldlM read r = .error fault) : ∃ front c back q,
    cs = front ++ c :: back ∧ front.foldlM read r = .ok q ∧ q.read c = .error fault := by
  induction cs generalizing r with
  | nil => cases h
  | cons c cs ih =>
    cases hread : r.read c with
    | error e =>
      rw [List.foldlM_cons, hread] at h
      obtain rfl := Except.error.inj h
      exact ⟨[], c, cs, r, rfl, rfl, hread⟩
    | ok q =>
      rw [foldlM_read_cons hread] at h
      obtain ⟨front, d, back, last, rfl, hfront, hd⟩ := ih h
      exact ⟨c :: front, d, back, last, rfl, (foldlM_read_cons hread front).trans hfront, hd⟩

theorem closesNothing {front back : List Char} (hr : front.foldlM read .start = .ok r)
    (hend : r.mode.canEnd = true) (hread : r.read c = .error (.unexpectedClosing r.offset c))
    (hempty : c = ']' → r.around = []) : ClosesNothing (front ++ c :: back) r.offset c := by
  refine ⟨front, back, rfl, (located hr).offset.symm, fun more => ?_, r.around.length,
    isAccepted_closing hr hend, fun hc => by rw [hempty hc, List.length_nil]⟩
  rw [ofText_ofList, readAll_append hr, readAll, List.foldlM_cons, hread]
  rfl

theorem leavesSegment {start : Nat} {row : Schema} {outer : List (Nat × Schema)}
    (hr : cs.foldlM read .start = .ok r) (hend : r.mode.canEnd = true)
    (haround : r.around = (start, row) :: outer) : LeavesSegment cs start := by
  obtain ⟨front, back, outside, inside, hstands, hdepth, hinside, hbeneath⟩ :=
    (located hr).segment start row outer (haround ▸ List.suffix_refl _)
  have hone : inside.around.length = 1 := by
    have := hbeneath.depth
    rw [haround, List.length_cons] at this
    omega
  refine ⟨front, back, hstands.eq, hstands.bytes, outer.length + 1, Nat.le_add_left _ _, ?_, ?_, ?_⟩
  · have := isAccepted_closing hr hend
    rwa [haround, List.length_cons] at this
  · exact hdepth ▸ hstands.isAccepted
  · exact hone ▸ isAccepted_closing hinside (hbeneath.mode.canEnd_eq.trans hend)

theorem leavesParameter {start nested : Nat} {body : List BodyChar}
    (hr : cs.foldlM read .start = .ok r) (hmode : r.mode = .token start nested body) :
    LeavesParameter cs start := by
  obtain ⟨front, back, q, hstands⟩ := (located hr).token start (by rw [hmode]; rfl)
  refine ⟨front, back, hstands.eq, hstands.bytes, ⟨_, hstands.isAccepted⟩, nested + 1,
    r.around.length, fun e he => ?_⟩
  obtain ⟨o, row, around, mode⟩ := r
  obtain rfl : mode = _ := hmode
  rw [ofText_ofList, readAll_append hr] at he
  split at he
  · cases he
  · next heq =>
    obtain rfl := Except.error.inj he
    exact readAll_closing_token o start nested row around body heq

theorem endsInEscape {i : Nat} (hr : cs.foldlM read .start = .ok r)
    (hmode : r.mode.escape? = some i) : EndsInEscape cs i := by
  obtain ⟨front, rfl, hbytes⟩ := (located hr).escape i hmode
  refine ⟨front, rfl, hbytes, ?_⟩
  rw [byteLength_append, hbytes, byteLength_singleton]
  rfl

/-- **What is refused is refused for a fault that points into it.** -/
theorem pointsInto (h : start.readAll cs = .error fault) : fault.PointsInto cs := by
  cases hr : cs.foldlM read start with
  | error e =>
    have herror := h
    rw [readAll, hr] at herror
    obtain rfl := Except.error.inj herror
    obtain ⟨front, c, back, q, rfl, hfront, hread⟩ := foldlM_read_error hr
    rcases read_eq_error hread with rfl | ⟨rfl, hend, hempty⟩
    · trivial
    · exact closesNothing hfront hend hread hempty
  | ok r =>
    have hfinish : r.finish = .error fault := by
      rw [← h, readAll, hr]
      rfl
    rcases finish_eq_error hfinish with
      ⟨i, hi, rfl⟩ | ⟨start, nested, body, hmode, rfl⟩ | ⟨start, row, outer, haround, hend, rfl⟩
    · exact endsInEscape hr hi
    · exact leavesParameter hr hmode
    · exact leavesSegment hr hend haround

end Reading

/-- **A text that is refused is refused with its fault and where that is.** -/
theorem ofText_eq_error {text : String} {e : SchemaError} (h : ofText text = .error e) :
    e.schema = text ∧ e.fault.PointsInto text.toList := by
  rw [ofText] at h
  split at h
  · cases h
  · next fault hfault =>
    obtain rfl := Except.error.inj h
    exact ⟨rfl, Reading.pointsInto hfault⟩

/-- The brace stands behind a letter of two bytes and inside of an open bracket, and neither of them
is what is reported. -/
theorem ofText_eq_error_letter :
    ofText "/ä[\x7bid" = .error ⟨"/ä[\x7bid", .unterminatedParameter 4⟩ ∧
      LeavesParameter "/ä[\x7bid".toList 4 := by
  have h : ofText "/ä[\x7bid" = .error ⟨"/ä[\x7bid", .unterminatedParameter 4⟩ := by decide +kernel
  exact ⟨h, (ofText_eq_error h).2⟩

end Schema

end UrlRouting
