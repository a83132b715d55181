import UrlRouting.Proofs.Schema.Joining

/-!
# Tidy schemas

Not every schema is the schema of a text. Two literals side by side would be read as one, parts that
are empty are not kept, and a backslash at the end of a validator would have made the brace behind
it plain. A schema with nothing of that kind is *tidy* (`UrlRouting.Schema.IsTidy`), and what the
reader gives is tidy (`UrlRouting.Schema.isTidy_of_ofText`): so is every row at every point of
reading, and where literal text is read, no literal stands in front of it.
-/

namespace UrlRouting

/-! ### Tidy parameters -/

/-- **A text of pairs**, of a backslash and a character each, **and of plain characters** other than
the backslash. -/
def IsPaired (text : String) : Prop :=
  ∃ cs, ('\\', false) ∉ cs ∧ BodyChar.rawText cs = text

/-- **A parameter without empty parts**, and without an unpaired backslash in its validator. -/
structure Parameter.IsTidy (p : Parameter) : Prop where
  /-- There is a name. -/
  name : p.name ≠ ""
  /-- A default is not empty. -/
  default : p.default ≠ some ""
  /-- A type is not empty. -/
  typeName : p.typeName ≠ some ""
  /-- A validator is not empty. -/
  validator : p.validator ≠ some ""
  /-- Backslashes of a validator are paired. -/
  paired : ∀ v ∈ p.validator, IsPaired v

/-! ### The parts of a parameter -/

/-- What is cut off, and what is left, is there before. -/
theorem cutPart_subset (mark : Char) (ends : List Char) (cs : List BodyChar) :
    (cutPart mark ends cs).1 ⊆ cs ∧ (cutPart mark ends cs).2 ⊆ cs := by
  cases cs with
  | nil => exact ⟨List.Subset.refl _, List.Subset.refl _⟩
  | cons c cs =>
    rw [cutPart]
    split
    · exact ⟨fun d hd => List.mem_cons_of_mem c (List.takeWhile_subset _ hd),
        fun d hd => List.mem_cons_of_mem c (List.dropWhile_subset _ hd)⟩
    · exact ⟨List.nil_subset _, List.Subset.refl _⟩

theorem unlessEmpty_eq_some {text part : String} (h : unlessEmpty text = some part) :
    text = part ∧ part ≠ "" := by
  rw [unlessEmpty] at h
  split at h
  · cases h
  · next hne =>
    obtain rfl := Option.some.inj h
    exact ⟨rfl, fun hempty => hne (String.isEmpty_iff.mpr hempty)⟩

theorem unlessEmpty_ne (text : String) : unlessEmpty text ≠ some "" := fun h =>
  (unlessEmpty_eq_some h).2 rfl

/-- **A parameter that was read is tidy**, if no backslash between its braces is unpaired. -/
theorem Parameter.isTidy_of_ofBody? {body : List BodyChar} {p : Parameter}
    (hbody : ('\\', false) ∉ body) (hp : ofBody? body = some p) : p.IsTidy := by
  unfold ofBody? at hp
  dsimp only at hp
  split at hp
  · cases hp
  · next hname =>
    obtain rfl := Option.some.inj hp
    refine ⟨fun hempty => ?_, unlessEmpty_ne _, unlessEmpty_ne _, unlessEmpty_ne _, fun v hv => ?_⟩
    · have hlist := congrArg String.toList hempty
      rw [BodyChar.text, String.toList_ofList] at hlist
      exact hname (List.isEmpty_iff.mpr (List.map_eq_nil_iff.mp hlist))
    · exact ⟨_, fun hmem => hbody (List.dropWhile_subset _ ((cutPart_subset ..).2
        ((cutPart_subset ..).2 ((cutPart_subset ..).1 hmem)))), (unlessEmpty_eq_some hv).1⟩

/-! ### Tidy rows -/

namespace Schema

/-- Is a schema tidy, given whether a literal stands in front of it? -/
def IsTidyBehind : (literal : Bool) → Schema → Prop
  | _, .done => True
  | behind, .literal text rest => behind = false ∧ text ≠ "" ∧ rest.IsTidyBehind true
  | _, .param p rest => p.IsTidy ∧ rest.IsTidyBehind false
  | _, .segment inner rest => inner.IsTidyBehind false ∧ rest.IsTidyBehind false

/-- **A tidy schema**: literals are not empty and never side by side, and parameters are tidy. -/
def IsTidy (s : Schema) : Prop := s.IsTidyBehind false

/-- Is a literal the last part of a row, given whether one stands in front of it? -/
def endsLiteral : (literal : Bool) → Schema → Bool
  | behind, .done => behind
  | _, .literal _ rest => rest.endsLiteral true
  | _, .param _ rest => rest.endsLiteral false
  | _, .segment _ rest => rest.endsLiteral false

variable {row s : Schema} {behind : Bool} {pending : List Char}

theorem isTidyBehind_append : (row.append s).IsTidyBehind behind ↔
    row.IsTidyBehind behind ∧ s.IsTidyBehind (row.endsLiteral behind) := by
  induction row generalizing behind with
  | done => exact (and_iff_right trivial).symm
  | literal text rest ih => simp only [append, IsTidyBehind, endsLiteral, ih, and_assoc]
  | param p rest ih => simp only [append, IsTidyBehind, endsLiteral, ih, and_assoc]
  | segment inner rest _ ih => simp only [append, IsTidyBehind, endsLiteral, ih, and_assoc]

theorem endsLiteral_append :
    (row.append s).endsLiteral behind = s.endsLiteral (row.endsLiteral behind) := by
  induction row generalizing behind with
  | done => rfl
  | literal text rest ih => exact ih
  | param p rest ih => exact ih
  | segment inner rest _ ih => exact ih

/-- Literal text may follow a row that does not end with a literal. -/
theorem isTidy_withLiteral (hrow : row.IsTidy) (hends : row.endsLiteral false = false) :
    (withLiteral row pending).IsTidy := by
  cases pending with
  | nil => exact hrow
  | cons c pending =>
    refine isTidyBehind_append.mpr ⟨hrow, hends, fun hempty => ?_, trivial⟩
    have hlist := congrArg String.toList hempty
    rw [String.toList_ofList] at hlist
    exact absurd (List.reverse_eq_nil_iff.mp hlist) (List.cons_ne_nil _ _)

/-! ### What the reader gives -/

/-- What a reading is in the middle of agrees with its row: no literal stands in front of literal
text, and what has been read of a parameter is tidy. -/
def Mode.Suits (row : Schema) : Mode → Prop
  | .text _ => row.endsLiteral false = false
  | .textEscape _ _ => row.endsLiteral false = false
  | .token _ _ body => ('\\', false) ∉ body
  | .tokenEscape _ _ body _ => ('\\', false) ∉ body
  | .behind p => p.IsTidy

namespace Reading

/-- **A tidy reading**: all its rows are tidy, those around it too. -/
structure IsTidy (r : Reading) : Prop where
  /-- The row is tidy. -/
  row : r.row.IsTidy
  /-- The rows around it are tidy. -/
  around : ∀ e ∈ r.around, e.2.IsTidy
  /-- What comes next suits the row. -/
  mode : r.mode.Suits r.row

variable {r q : Reading} {c : Char}

theorem isTidy_start : start.IsTidy := ⟨trivial, nofun, rfl⟩

/-- A parameter may follow any row. -/
theorem IsTidy.append_param {row : Schema} {p : Parameter} (hrow : row.IsTidy) (hp : p.IsTidy) :
    (row.append (.param p .done)).IsTidy ∧
      (row.append (.param p .done)).endsLiteral false = false :=
  ⟨isTidyBehind_append.mpr ⟨hrow, hp, trivial⟩, endsLiteral_append⟩

/-- Reading a character of literal text keeps a reading tidy. -/
theorem IsTidy.readText {pending : List Char} (hrow : r.row.IsTidy)
    (haround : ∀ e ∈ r.around, e.2.IsTidy) (hends : r.row.endsLiteral false = false)
    (hq : r.TextStep pending c q) : q.IsTidy := by
  have hliteral : (withLiteral r.row pending).IsTidy := isTidy_withLiteral hrow hends
  cases hq with
  | beginsParam => exact ⟨hliteral, haround, List.not_mem_nil⟩
  | beginsSegment => exact ⟨trivial, List.forall_mem_cons.mpr ⟨hliteral, haround⟩, rfl⟩
  | endsSegment innermost =>
    rw [innermost] at haround
    obtain ⟨hfront, haround⟩ := List.forall_mem_cons.mp haround
    exact ⟨isTidyBehind_append.mpr ⟨hfront, hliteral, trivial⟩, haround, endsLiteral_append⟩
  | escapes => exact ⟨hrow, haround, hends⟩
  | plain => exact ⟨hrow, haround, hends⟩

/-- Reading a character between braces keeps a reading tidy: no backslash is left unpaired. -/
theorem IsTidy.readToken {start nested : Nat} {body : List BodyChar} (hrow : r.row.IsTidy)
    (haround : ∀ e ∈ r.around, e.2.IsTidy) (hbody : ('\\', false) ∉ body)
    (hq : r.TokenStep start nested body c q) : q.IsTidy := by
  have hnext {d : Char} (hd : d ≠ '\\') : ('\\', false) ∉ (d, false) :: body := fun hmem =>
    (List.mem_cons.mp hmem).elim (fun heq => hd (congrArg Prod.fst heq).symm) hbody
  cases hq with
  | escapes => exact ⟨hrow, haround, hbody⟩
  | opens => exact ⟨hrow, haround, hnext (by decide)⟩
  | closes => exact ⟨hrow, haround, hnext (by decide)⟩
  | ends hp =>
    exact ⟨hrow, haround,
      Parameter.isTidy_of_ofBody? (fun hmem => hbody (List.mem_reverse.mp hmem)) hp⟩
  | plain hc => exact ⟨hrow, haround, hnext fun heq => hc (heq ▸ List.mem_cons_self)⟩

/-- **Reading a character keeps a reading tidy.** -/
theorem IsTidy.read (h : r.IsTidy) (hq : r.Step c q) : q.IsTidy := by
  obtain ⟨hrow, haround, hmode⟩ := h
  cases hq with
  | text mode step =>
    rw [mode] at hmode
    exact readText hrow haround hmode step
  | escaped mode =>
    rw [mode] at hmode
    exact ⟨hrow, haround, hmode⟩
  | token mode step =>
    rw [mode] at hmode
    exact readToken hrow haround hmode step
  | tokenEscaped mode =>
    rw [mode] at hmode
    refine ⟨hrow, haround, fun hmem => ?_⟩
    rcases List.mem_cons.mp hmem with heq | hmem
    · cases heq
    · exact hmode hmem
  | @optional p mode =>
    rw [mode] at hmode
    have hp : ({ p with optional := true } : Parameter).IsTidy :=
      ⟨hmode.name, hmode.default, hmode.typeName, hmode.validator, hmode.paired⟩
    exact ⟨(append_param hrow hp).1, haround, (append_param hrow hp).2⟩
  | @behind p _ _ mode hc step =>
    rw [mode] at hmode
    exact readText (r := r.pushParam p) (append_param hrow hmode).1 haround
      (append_param hrow hmode).2 step

theorem IsTidy.readAll {cs : List Char} (h : r.IsTidy) (hq : cs.foldlM Reading.read r = .ok q) :
    q.IsTidy := by
  induction cs generalizing r with
  | nil =>
    obtain rfl := Except.ok.inj hq
    exact h
  | cons c cs ih =>
    rw [List.foldlM_cons] at hq
    obtain ⟨mid, hmid, hq⟩ := bind_eq_ok_iff.mp hq
    exact ih (h.read (read_eq_ok_iff.mp hmid)) hq

/-- At the end of a text, the row of a tidy reading is tidy. -/
theorem IsTidy.finish {s : Schema} (h : r.IsTidy) (hs : r.finish = .ok s) : s.IsTidy := by
  obtain ⟨o, row, around, m⟩ := r
  obtain ⟨hrow, -, hmode⟩ := h
  cases m with
  | text pending =>
    cases around with
    | nil => exact Except.ok.inj hs ▸ isTidy_withLiteral hrow hmode
    | cons outer around => cases hs
  | behind p =>
    cases around with
    | nil => exact Except.ok.inj hs ▸ (append_param hrow hmode).1
    | cons outer around => cases hs
  | textEscape | token | tokenEscape => cases hs

end Reading

variable {text : String}

/-- **What the reader gives is tidy.** -/
theorem isTidy_of_ofText (h : ofText text = .ok s) : s.IsTidy := by
  rw [ofText] at h
  split at h
  · next s' hs =>
    obtain rfl := Except.ok.inj h
    obtain ⟨q, hq, hfinish⟩ := bind_eq_ok_iff.mp hs
    exact (Reading.isTidy_start.readAll hq).finish hfinish
  · cases h

end Schema

end UrlRouting
