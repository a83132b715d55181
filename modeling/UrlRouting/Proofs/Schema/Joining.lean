import UrlRouting.Proofs.Schema.Steps
import UrlRouting.Proofs.Schema.Ways

/-!
# Schemas written one behind the other

Two schemas can be written as one, if the second one begins with a slash: it is read as the first
one and then the second one. Only where they meet there is something to see. The slash ends a
parameter in front of it, so that no question mark of the second schema can be taken for part of
that, and literal text that ends the first schema and literal text that begins the second one become
one literal (`UrlRouting.Schema.Reading.Continues`).

What they mean is not changed by that: the ways of the schema are those of the first one, continued
by those of the second one (`UrlRouting.Schema.ofText_append_ways`).
-/

namespace UrlRouting

open Regex Regex.Ways

namespace Schema

/-! ### Rows behind rows -/

section Append

variable {ctx : CompileContext} {r s : Schema}

theorem append_done (s : Schema) : s.append .done = s := by
  induction s with
  | done => rfl
  | literal text rest ih => rw [append, ih]
  | param p rest ih => rw [append, ih]
  | segment inner rest _ ih => rw [append, ih]

theorem append_assoc (r s t : Schema) : (r.append s).append t = r.append (s.append t) := by
  induction r with
  | done => rfl
  | literal text rest ih => rw [append, append, append, ih]
  | param p rest ih => rw [append, append, append, ih]
  | segment inner rest _ ih => rw [append, append, append, ih]

theorem params_append (r s : Schema) : (r.append s).params = r.params ++ s.params := by
  induction r with
  | done => rfl
  | literal text rest ih => exact ih
  | param p rest ih => rw [append, params, ih, params, List.cons_append]
  | segment inner rest _ ih => rw [append, params, ih, params, List.append_assoc]

theorem allNames_append (r s : Schema) (k : Nat) :
    (r.append s).allNames ctx k = r.allNames ctx k ++ s.allNames ctx (k + r.params.length) := by
  induction r generalizing k with
  | done => rfl
  | literal text rest ih => exact ih k
  | param p rest ih =>
    rw [append, allNames, ih, allNames, params, List.append_assoc, List.length_cons, Nat.add_assoc,
      Nat.add_comm 1]
  | segment inner rest _ ih =>
    rw [append, allNames, ih, allNames, params, List.append_assoc, List.length_append,
      Nat.add_assoc]

/-- **The ways of rows behind each other** are those of the first one, continued. -/
theorem ways_append (r s : Schema) (k : Nat) (P : Position) :
    (r.append s).ways ctx k P = extend (r.ways ctx k P) (s.ways ctx (k + r.params.length)) := by
  induction r generalizing k P with
  | done => exact stay_extend.symm
  | literal text rest ih =>
    rw [append, ways, ways, extend_extend]
    exact extend_congr fun w _ => ih k w.stop
  | param p rest ih =>
    rw [append, ways, ways, extend_extend]
    refine extend_congr fun w _ => (ih (k + 1) w.stop).trans ?_
    rw [params, List.length_cons, Nat.add_assoc, Nat.add_comm 1]
  | segment inner rest _ ih =>
    rw [append, ways, ways, extend_extend]
    refine extend_congr fun w _ => (ih (k + inner.params.length) w.stop).trans ?_
    rw [params, List.length_append, Nat.add_assoc]

/-- Literal text may be cut in two. -/
theorem ways_literal_append (text more : String) (s : Schema) (k : Nat) (P : Position) :
    (literal (text ++ more) s).ways ctx k P =
      extend ((Expr.word text.toList).ways P) ((literal more s).ways ctx k) := by
  rw [ways, String.toList_append, Expr.ways_word_append, extend_extend]
  rfl

end Append

/-! ### Reading on -/

namespace Reading

/-- Are two modes the same, wherever it was that they began? -/
inductive Alike : Mode → Mode → Prop
  | text (pending : List Char) : Alike (.text pending) (.text pending)
  | textEscape (pending : List Char) (i j : Nat) :
    Alike (.textEscape pending i) (.textEscape pending j)
  | token (i j nested : Nat) (body : List BodyChar) :
    Alike (.token i nested body) (.token j nested body)
  | tokenEscape (i j nested : Nat) (body : List BodyChar) (k l : Nat) :
    Alike (.tokenEscape i nested body k) (.tokenEscape j nested body l)
  | behind (p : Parameter) : Alike (.behind p) (.behind p)

/-- **Rows of two readings**, the innermost one and those around it: of the outermost ones, the
second one is the first one behind the given row and the given literal text. -/
inductive Glued (front : Schema) (text : String) :
    Schema → List (Nat × Schema) → Schema → List (Nat × Schema) → Prop
  | outermost {head : String} (h : head ≠ "") (rest : Schema) :
    Glued front text (.literal head rest) []
      (front.append (.literal (text ++ head) rest)) []
  | inside {i j : Nat} {outer outer' : Schema} {around around' : List (Nat × Schema)}
      (row : Schema) (h : Glued front text outer around outer' around') :
    Glued front text row ((i, outer) :: around) row ((j, outer') :: around')

/-- **One reading goes on behind what another one does not know of**: a row and literal text behind
it. As long as the first literal text is still being read, it is the same text; after that, the
outermost row is glued to what was there. -/
inductive Continues (front : Schema) (pending : List Char) : Reading → Reading → Prop
  | text {o o' : Nat} (got : List Char) (h : got ≠ []) :
    Continues front pending ⟨o, .done, [], .text got⟩ ⟨o', front, [], .text (got ++ pending)⟩
  | escape {o o' i i' : Nat} (got : List Char) (h : got ≠ []) :
    Continues front pending ⟨o, .done, [], .textEscape got i⟩
      ⟨o', front, [], .textEscape (got ++ pending) i'⟩
  | later {o o' : Nat} {row row' : Schema} {around around' : List (Nat × Schema)} {m m' : Mode}
      (rows : Glued front (String.ofList pending.reverse) row around row' around')
      (mode : Alike m m') :
    Continues front pending ⟨o, row, around, m⟩ ⟨o', row', around', m'⟩

section Steps

variable {front row row' : Schema} {text : String} {pending got : List Char}
  {around around' : List (Nat × Schema)} {r r' q : Reading} {c : Char} {s : Schema}

theorem Glued.append (h : Glued front text row around row' around') (s : Schema) :
    Glued front text (row.append s) around (row'.append s) around' := by
  cases h with
  | outermost hhead rest =>
    rw [append_assoc]
    exact .outermost hhead (rest.append s)
  | inside row h => exact .inside _ h

theorem Glued.withLiteral (h : Glued front text row around row' around') (got : List Char) :
    Glued front text (withLiteral row got) around (withLiteral row' got) around' := by
  cases got with
  | nil => exact h
  | cons c got => exact h.append _

/-- The first literal text is put behind what was pending. -/
theorem glued_first (h : got ≠ []) :
    Glued front (String.ofList pending.reverse) (withLiteral .done got) []
      (withLiteral front (got ++ pending)) [] := by
  obtain ⟨c, got, rfl⟩ := List.exists_cons_of_ne_nil h
  have hhead : String.ofList (c :: got).reverse ≠ "" := fun heq => by
    have hlist := congrArg String.toList heq
    rw [String.toList_ofList] at hlist
    exact h (List.reverse_eq_nil_iff.mp hlist)
  have hglued : Glued front (String.ofList pending.reverse) _ [] _ [] := .outermost hhead .done
  rw [← String.ofList_append, ← List.reverse_append] at hglued
  exact hglued

/-- Literal text is read alike, if it may go on, and may be followed by something else. -/
theorem Continues.readText {o o' : Nat} {m m' : Mode} {got' : List Char}
    (hrows : Glued front (String.ofList pending.reverse) (Schema.withLiteral row got) around
      (Schema.withLiteral row' got') around')
    (hplain : ∀ o o', Continues front pending ⟨o, row, around, .text (c :: got)⟩
      ⟨o', row', around', .text (c :: got')⟩)
    (hescape : ∀ o o' i i', Continues front pending ⟨o, row, around, .textEscape got i⟩
      ⟨o', row', around', .textEscape got' i'⟩)
    (hq : TextStep ⟨o, row, around, m⟩ got c q) :
    ∃ q', TextStep ⟨o', row', around', m'⟩ got' c q' ∧ Continues front pending q q' := by
  cases hq with
  | beginsParam => exact ⟨_, .beginsParam, .later hrows (.token _ _ _ _)⟩
  | beginsSegment => exact ⟨_, .beginsSegment, .later (.inside _ hrows) (.text [])⟩
  | @endsSegment start outer rest innermost =>
    obtain rfl : around = (start, outer) :: rest := innermost
    dsimp only
    generalize Schema.withLiteral row got = inner at hrows
    -- the segment that ends is not the outermost row, so it is the same in both readings
    cases hrows with
    | inside inner h => exact ⟨_, .endsSegment rfl, .later (h.append _) (.text [])⟩
  | escapes => exact ⟨_, .escapes, hescape _ _ _ _⟩
  | plain hc => exact ⟨_, .plain hc, hplain _ _⟩

/-- Between braces both readings read the same. -/
theorem Continues.readToken {o o' i j nested : Nat} {m m' : Mode} {body : List BodyChar}
    (hrows : Glued front (String.ofList pending.reverse) row around row' around')
    (hq : TokenStep ⟨o, row, around, m⟩ i nested body c q) :
    ∃ q', TokenStep ⟨o', row', around', m'⟩ j nested body c q' ∧ Continues front pending q q' := by
  cases hq with
  | escapes => exact ⟨_, .escapes, .later hrows (.tokenEscape _ _ _ _ _ _)⟩
  | opens => exact ⟨_, .opens, .later hrows (.token _ _ _ _)⟩
  | closes => exact ⟨_, .closes, .later hrows (.token _ _ _ _)⟩
  | ends hp => exact ⟨_, .ends hp, .later hrows (.behind _)⟩
  | plain hc => exact ⟨_, .plain hc, .later hrows (.token _ _ _ _)⟩

/-- **Reading a character goes on alike.** -/
theorem Continues.read (h : Continues front pending r r') (hq : r.Step c q) :
    ∃ q', r'.Step c q' ∧ Continues front pending q q' := by
  cases h with
  | text got hne =>
    cases hq with
    | text mode step =>
      obtain rfl := Mode.text.inj mode
      obtain ⟨q', hstep, hq'⟩ := readText (glued_first hne)
        (fun _ _ => .text (c :: got) (List.cons_ne_nil _ _)) (fun _ _ _ _ => .escape got hne) step
      exact ⟨q', .text rfl hstep, hq'⟩
    | escaped mode | token mode | tokenEscaped mode | optional mode | behind mode => cases mode
  | escape got hne =>
    cases hq with
    | escaped mode =>
      obtain ⟨rfl, -⟩ := Mode.textEscape.inj mode
      exact ⟨_, .escaped rfl, .text (c :: got) (List.cons_ne_nil _ _)⟩
    | text mode | token mode | tokenEscaped mode | optional mode | behind mode => cases mode
  | later rows mode =>
    cases hq with
    | @text got _ _ hmode step =>
      obtain rfl : _ = Mode.text _ := hmode
      cases mode with
      | text =>
        obtain ⟨q', hstep, hq'⟩ := readText (rows.withLiteral got)
          (fun _ _ => .later rows (.text _)) (fun _ _ _ _ => .later rows (.textEscape got _ _)) step
        exact ⟨q', .text rfl hstep, hq'⟩
    | escaped hmode =>
      obtain rfl : _ = Mode.textEscape _ _ := hmode
      cases mode with
      | textEscape => exact ⟨_, .escaped rfl, .later rows (.text _)⟩
    | token hmode step =>
      obtain rfl : _ = Mode.token _ _ _ := hmode
      cases mode with
      | token =>
        obtain ⟨q', hstep, hq'⟩ := readToken rows step
        exact ⟨q', .token rfl hstep, hq'⟩
    | tokenEscaped hmode =>
      obtain rfl : _ = Mode.tokenEscape _ _ _ _ := hmode
      cases mode with
      | tokenEscape => exact ⟨_, .tokenEscaped rfl, .later rows (.token _ _ _ _)⟩
    | optional hmode =>
      obtain rfl : _ = Mode.behind _ := hmode
      cases mode with
      | behind => exact ⟨_, .optional rfl, .later (rows.append _) (.text [])⟩
    | @behind p _ _ hmode hc step =>
      obtain rfl : _ = Mode.behind _ := hmode
      cases mode with
      | behind =>
        have hrows := rows.append (.param p .done)
        obtain ⟨q', hstep, hq'⟩ := readText (hrows.withLiteral [])
          (fun _ _ => .later hrows (.text _)) (fun _ _ _ _ => .later hrows (.textEscape _ _ _)) step
        exact ⟨q', .behind rfl hc hstep, hq'⟩

theorem Continues.readAll {cs : List Char} (h : Continues front pending r r')
    (hq : cs.foldlM Reading.read r = .ok q) :
    ∃ q', cs.foldlM Reading.read r' = .ok q' ∧ Continues front pending q q' := by
  induction cs generalizing r r' with
  | nil =>
    obtain rfl := Except.ok.inj hq
    exact ⟨r', rfl, h⟩
  | cons c cs ih =>
    rw [List.foldlM_cons] at hq ⊢
    obtain ⟨mid, hmid, hq⟩ := bind_eq_ok_iff.mp hq
    obtain ⟨mid', hmid', hcontinues⟩ := h.read (read_eq_ok_iff.mp hmid)
    obtain ⟨q', hq', hlast⟩ := ih hcontinues hq
    exact ⟨q', bind_eq_ok_iff.mpr ⟨mid', read_eq_ok_iff.mpr hmid', hq'⟩, hlast⟩

/-- **What has been read alike ends alike**: the whole row begins with literal text, and is put
behind what was there. -/
theorem Continues.finish (h : Continues front pending r r') (hs : r.finish = .ok s) :
    ∃ head rest, head ≠ "" ∧ s = .literal head rest ∧
      r'.finish = .ok (front.append (.literal (String.ofList pending.reverse ++ head) rest)) := by
  have hglued (o o' : Nat) {row row' : Schema} {around around' : List (Nat × Schema)}
      (h : Glued front (String.ofList pending.reverse) row around row' around')
      (hs : Reading.finish ⟨o, row, around, .text []⟩ = .ok s) :
      ∃ head rest, head ≠ "" ∧ s = .literal head rest ∧ Reading.finish ⟨o', row', around', .text []⟩ =
          .ok (front.append (.literal (String.ofList pending.reverse ++ head) rest)) := by
    cases h with
    | @outermost head hhead rest => exact ⟨head, rest, hhead, (Except.ok.inj hs).symm, rfl⟩
    | inside row h => cases hs
  cases h with
  | text got hne => exact hglued 0 0 (glued_first hne) hs
  | escape got hne => cases hs
  | later rows mode =>
    cases mode with
    | text got => exact hglued 0 0 (rows.withLiteral got) hs
    | behind p => exact hglued 0 0 (rows.append _) hs
    | textEscape | token | tokenEscape => cases hs

end Steps

end Reading

/-! ### Two schemas -/

/-- What is left of a reading that has come to an end: a row, and literal text behind it. A slash
goes on from there. -/
theorem Reading.finish_eq_ok {r : Reading} {s : Schema} (h : r.finish = .ok s) :
    ∃ front pending, s = withLiteral front pending ∧
      ∃ o, r.read '/' = .ok ⟨o, front, [], .text ('/' :: pending)⟩ := by
  obtain ⟨o, row, around, m⟩ := r
  cases m with
  | text pending =>
    cases around with
    | nil => exact ⟨row, pending, (Except.ok.inj h).symm, _, rfl⟩
    | cons outer around => cases h
  | behind p =>
    cases around with
    | nil => exact ⟨row.append (.param p .done), [], (Except.ok.inj h).symm, _, rfl⟩
    | cons outer around => cases h
  | textEscape | token | tokenEscape => cases h

variable {ctx : CompileContext} {first second : String} {g c : Schema}

/-- **Two schemas are read as one**, if the second one begins with a slash: literal text that ends
the first one becomes a part of the literal that the second one begins with. -/
theorem ofText_append (hg : ofText first = .ok g) (hc : ofText second = .ok c)
    (hslash : second.toList.head? = some '/') :
    ∃ front pending head rest, g = withLiteral front pending ∧ head ≠ "" ∧ c = .literal head rest ∧
      ofText (first ++ second) =
        .ok (front.append (.literal (String.ofList pending.reverse ++ head) rest)) := by
  have hread {text : String} {s : Schema} (h : ofText text = .ok s) :
      ∃ r, text.toList.foldlM Reading.read .start = .ok r ∧ r.finish = .ok s := by
    rw [ofText] at h
    split at h
    · next s' hs =>
      obtain rfl := Except.ok.inj h
      exact bind_eq_ok_iff.mp hs
    · cases h
  obtain ⟨r, hr, hfinish⟩ := hread hg
  obtain ⟨q, hq, hend⟩ := hread hc
  obtain ⟨front, pending, rfl, o, hslashed⟩ := Reading.finish_eq_ok hfinish
  obtain ⟨cs, hcs⟩ : ∃ cs, second.toList = '/' :: cs := by
    cases hsecond : second.toList with
    | nil =>
      rw [hsecond] at hslash
      cases hslash
    | cons c cs =>
      rw [hsecond] at hslash
      obtain rfl := Option.some.inj hslash
      exact ⟨cs, rfl⟩
  rw [hcs, List.foldlM_cons] at hq
  obtain ⟨mid, hmid, hq⟩ := bind_eq_ok_iff.mp hq
  obtain rfl := Except.ok.inj hmid
  -- the second text is read again behind the first one: its slash is put behind what is pending
  have hfirst {o' : Nat} : Reading.Continues front pending ⟨o', .done, [], .text ['/']⟩
      ⟨o, front, [], .text ('/' :: pending)⟩ := .text ['/'] (List.cons_ne_nil _ _)
  obtain ⟨q', hq', hlast⟩ := hfirst.readAll hq
  obtain ⟨head, rest, hhead, rfl, hfinish'⟩ := hlast.finish hend
  refine ⟨front, pending, head, rest, rfl, hhead, rfl, ?_⟩
  have hall : Reading.start.readAll (first ++ second).toList =
      .ok (front.append (.literal (String.ofList pending.reverse ++ head) rest)) := by
    refine bind_eq_ok_iff.mpr ⟨q', ?_, hfinish'⟩
    rw [String.toList_append, List.foldlM_append, hcs]
    refine bind_eq_ok_iff.mpr ⟨r, hr, ?_⟩
    rw [List.foldlM_cons]
    exact bind_eq_ok_iff.mpr ⟨_, hslashed, hq'⟩
  rw [ofText, hall]

/-- **The schema of two texts means what they mean**, one behind the other. -/
theorem ofText_append_ways (ctx : CompileContext) (hg : ofText first = .ok g)
    (hc : ofText second = .ok c) (hslash : second.toList.head? = some '/') :
    ∃ s, ofText (first ++ second) = .ok s ∧ s.params = g.params ++ c.params ∧
      (∀ k, s.allNames ctx k = g.allNames ctx k ++ c.allNames ctx (k + g.params.length)) ∧
      (∃ head rest, head ≠ "" ∧ c = .literal head rest) ∧
      ∀ k P, s.ways ctx k P = extend (g.ways ctx k P) (c.ways ctx (k + g.params.length)) := by
  obtain ⟨front, pending, head, rest, rfl, hhead, rfl, hs⟩ := ofText_append hg hc hslash
  have hparams : (withLiteral front pending).params = front.params := by
    cases pending with
    | nil => rfl
    | cons c pending => exact (params_append ..).trans (List.append_nil _)
  have hnames (k : Nat) : (withLiteral front pending).allNames ctx k = front.allNames ctx k := by
    cases pending with
    | nil => rfl
    | cons c pending => exact (allNames_append ..).trans (List.append_nil _)
  refine ⟨_, hs, ?_, fun k => ?_, ⟨head, rest, hhead, rfl⟩, fun k P => ?_⟩
  · rw [params_append, hparams]
    rfl
  · rw [allNames_append, hnames, hparams]
    rfl
  · -- a literal that was made of two leads where the two lead
    rw [ways_append, hparams]
    cases pending with
    | nil =>
      rw [List.reverse_nil, String.ofList_nil, String.empty_append]
      rfl
    | cons c pending =>
      change _ = extend ((front.append (.literal _ .done)).ways ctx k P) _
      rw [ways_append, extend_extend]
      refine extend_congr fun w _ => ?_
      have hone : (literal (String.ofList (c :: pending).reverse) .done).ways ctx
          (k + front.params.length) w.stop =
            (Expr.word (String.ofList (c :: pending).reverse).toList).ways w.stop := extend_stay
      rw [ways_literal_append, hone]

end Schema

end UrlRouting
