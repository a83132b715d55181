import Mathlib
import UrlRouting.Proofs.Regex.Leaves
import UrlRouting.Proofs.Regex.Whole
import UrlRouting.Proofs.Schema.Uncapture

/-!
# Validators as patterns

The pattern of a validator is its text without captures, and with a lazy repetition at its end if
there is a greedy one. Both change the text only, and are done without reading it; nevertheless the
pattern of a regular expression is a regular expression, and its tree is alike that of the validator
(`UrlRouting.Pattern.exists_read?_ofValidator`). So it matches the same texts as a whole
(`UrlRouting.Pattern.wholeTexts_ofValidator`), for captures and preferences have no part in that.

* The question mark at the end makes the last token lazy and changes no other
  (`UrlRouting.Pattern.exists_lazy`). For this the plus sign or the asterisk there has to be a token
  of its own; and it is, because tokens do not end inside an escape and so leave an even number of
  backslashes in front of it (`UrlRouting.Pattern.evenSlashes_of_lexes`).
* Sizes are another matter. Alternatives that are all words are kept in a tree of words, which may
  take more space than the words by themselves; a group that captures is no word. So the pattern may
  outgrow a limit that the validator keeps.
-/

namespace UrlRouting

namespace Pattern

open Regex

/-! ### The repetition at the end -/

/-- The text ends with an even number of backslashes, so that it does not end inside an escape. -/
def EvenSlashes (x : List Char) : Prop := (x.reverse.takeWhile (· == '\\')).length % 2 = 0

/-- The text ends with a character that is no backslash and no sign of a repetition. -/
def EndsMild (x : List Char) : Prop := ∃ y c, x = y ++ [c] ∧ c ∉ ['\\', '+', '*']

section Slashes

variable {x y : List Char} {c : Char}

theorem evenSlashes_concat (hc : c ≠ '\\') (x : List Char) : EvenSlashes (x ++ [c]) := by
  have hne : ¬((c == '\\') = true) := fun h => hc (beq_iff_eq.mp h)
  rw [EvenSlashes, List.reverse_append, List.reverse_singleton, List.singleton_append,
    List.takeWhile_cons, if_neg hne]
  rfl

theorem evenSlashes_slash : EvenSlashes (x ++ ['\\']) ↔ ¬EvenSlashes x := by
  rw [EvenSlashes, EvenSlashes, List.reverse_append, List.reverse_singleton, List.singleton_append,
    List.takeWhile_cons_of_pos (by decide), List.length_cons]
  omega

theorem EndsMild.append (h : EndsMild y) (x : List Char) : EndsMild (x ++ y) := by
  obtain ⟨z, c, rfl, hc⟩ := h
  exact ⟨x ++ z, c, (List.append_assoc x z [c]).symm, hc⟩

theorem EndsMild.evenSlashes (h : EndsMild x) : EvenSlashes x := by
  obtain ⟨y, c, rfl, hc⟩ := h
  exact evenSlashes_concat (fun heq => hc (heq ▸ List.mem_cons_self)) y

theorem endsMild_of_quiet (h : Quiet (c :: x)) : EndsMild (c :: x) := by
  obtain ⟨y, d, hy⟩ := (List.eq_nil_or_concat' (c :: x)).resolve_left (List.cons_ne_nil c x)
  refine ⟨y, d, hy, fun hd => h d (hy ▸ List.mem_concat_self) ?_⟩
  simp only [List.mem_cons, List.not_mem_nil, or_false] at hd
  rcases hd with rfl | rfl | rfl <;> decide

theorem endsMild_of_inside {wild : Prop} {n : Nat} (h : ClassSet.Inside wild n x) : EndsMild x := by
  induction h with
  | close => exact ⟨[], ']', rfl, by decide⟩
  | closeInner h ih => exact ih.append [']']
  | @plain n x c hc h ih => exact ih.append [c]
  | escaped c h ih => exact ih.append ['\\', c]
  | opening hm h ih => exact ih.append _
  | rangeEnd hwild h ih => exact ih.append ['[']

/-- The text of a greedy repetition ends with a plus sign or an asterisk that is not escaped. -/
theorem of_endsGreedy (h : endsGreedy x = true) :
    ∃ y c, x = y ++ [c] ∧ (c = '+' ∨ c = '*') ∧ EvenSlashes y := by
  unfold endsGreedy at h
  split at h
  · cases h
  · rename_i last front hreverse
    have hx : x = front.reverse ++ [last] := by
      rw [← List.reverse_reverse x, hreverse, List.reverse_cons]
    simp only [Bool.and_eq_true, Bool.or_eq_true, beq_iff_eq] at h
    refine ⟨front.reverse, last, hx, h.1.1, ?_⟩
    rw [EvenSlashes, List.reverse_reverse]
    exact h.2

end Slashes

/-- **How the text of a token ends**: with a character that is no backslash and no sign, as an
escaped character, or it is the sign of a repetition. -/
theorem ending_of_spelled {t : Token} {x : List Char} (h : Token.Spelled t x) :
    EndsMild x ∨ (∃ c, x = ['\\', c]) ∨
      ∃ c bounds, (c = '+' ∨ c = '*') ∧ x = [c] ∧ t = .repetition bounds true := by
  cases h with
  | quiet ht ho hx => exact Or.inl (endsMild_of_quiet hx)
  | sign hc bounds => exact Or.inr (Or.inr ⟨_, bounds, hc, rfl, rfl⟩)
  | @lazySign c hc bounds => exact Or.inl ⟨[c], '?', rfl, by decide⟩
  | bracket => exact Or.inl ⟨[], ']', rfl, by decide⟩
  | escape ht ho hx =>
    obtain ⟨c, y, rfl, hy⟩ := hx
    cases y with
    | nil => exact Or.inr (Or.inl ⟨c, rfl⟩)
    | cons d y => exact Or.inl ((endsMild_of_quiet hy).append ['\\', c])
  | class_ ho hx =>
    obtain ⟨m, y, rfl, hm, hy⟩ := hx
    exact Or.inl ((endsMild_of_inside hy).append ('[' :: m))
  | group => exact Or.inl ⟨[], '(', rfl, by decide⟩
  | @named o name ho hname => exact Or.inl ⟨o ++ name, '>', rfl, by decide⟩
  | plain hx hc => exact Or.inl ((endsMild_of_quiet hx).append ['(', '?'])
  | flags hx hc => exact Or.inl ((endsMild_of_quiet hx).append ['(', '?'])

section Ends

variable {x cs rest : List Char} {t : Token} {ts : List Token}

theorem evenSlashes_of_spelled (h : Token.Spelled t x) {y : List Char} (hy : EvenSlashes y) :
    EvenSlashes (y ++ x) := by
  obtain hmild | ⟨c, rfl⟩ | ⟨c, bounds, hc, rfl, -⟩ := ending_of_spelled h
  · exact (hmild.append y).evenSlashes
  · have htext : y ++ ['\\', c] = y ++ ['\\'] ++ [c] := by simp
    rw [htext]
    by_cases hc : c = '\\'
    · subst hc
      rw [evenSlashes_slash, evenSlashes_slash, not_not]
      exact hy
    · exact evenSlashes_concat hc _
  · exact evenSlashes_concat (by rcases hc with rfl | rfl <;> decide) y

/-- **Tokens do not end inside an escape.** -/
theorem evenSlashes_of_lexes (h : Token.Lexes cs ts rest) {y : List Char} (hy : EvenSlashes y) :
    ∃ x, cs = x ++ rest ∧ EvenSlashes (y ++ x) := by
  induction h generalizing y with
  | done cs => exact ⟨[], rfl, (List.append_nil y).symm ▸ hy⟩
  | step first _ ih =>
    obtain ⟨x, rfl, hx, -⟩ := Token.determined_read? first
    obtain ⟨z, rfl, hz⟩ := ih (evenSlashes_of_spelled hx hy)
    exact ⟨x ++ z, (List.append_assoc x z _).symm, (List.append_assoc y x z) ▸ hz⟩

/-- In front of something the tokens stay what they are when more is added at the end. -/
theorem lexes_append (h : Token.Lexes cs ts rest) (hrest : rest ≠ []) (z : List Char) :
    Token.Lexes (cs ++ z) ts (rest ++ z) := by
  induction h with
  | done cs => exact .done _
  | step first more ih =>
    obtain ⟨x, rfl, -, hagain⟩ := Token.determined_read? first
    rw [List.append_assoc]
    refine .step (hagain _ (.append fun hnil => ?_)) (ih hrest)
    subst hnil
    exact absurd (List.suffix_nil.mp more.suffix) hrest

/-- **A question mark behind a greedy repetition makes it lazy**, and changes nothing else. -/
theorem exists_lazy (h : Token.Lexes cs ts []) (hcs : endsGreedy cs = true) :
    ∃ us bounds, ts = us ++ [.repetition bounds true] ∧
      Token.Lexes (cs ++ ['?']) (us ++ [.repetition bounds false]) [] := by
  obtain ⟨y, c, hy, hc, hslashes⟩ := of_endsGreedy hcs
  rcases List.eq_nil_or_concat' ts with rfl | ⟨us, t, rfl⟩
  · cases h
    exact absurd hy (by simp)
  obtain ⟨mid, hus, hlast⟩ := h.of_append
  cases hlast with
  | step first more =>
    cases more
    obtain ⟨x, rfl, hx, -⟩ := Token.determined_read? first
    obtain ⟨w, rfl, hw⟩ := evenSlashes_of_lexes hus (y := []) rfl
    rw [List.append_nil] at hus hy first
    -- the text ends with a sign, and it is not escaped
    obtain ⟨z, a, rfl, ha⟩ | ⟨a, rfl⟩ | ⟨a, bounds, ha, rfl, rfl⟩ := ending_of_spelled hx
    · rw [← List.append_assoc] at hy
      obtain ⟨-, heq⟩ := List.append_inj' hy rfl
      obtain rfl := List.singleton_inj.mp heq
      rcases hc with rfl | rfl <;> exact absurd (by decide) ha
    · have htext : w ++ ['\\', a] = w ++ ['\\'] ++ [a] := by simp
      rw [htext] at hy
      obtain ⟨rfl, -⟩ := List.append_inj' hy rfl
      exact absurd hw (evenSlashes_slash.mp hslashes)
    · refine ⟨us, bounds, rfl, (lexes_append hus (List.cons_ne_nil a []) ['?']).append (.single ?_)⟩
      rcases ha with rfl | rfl <;>
      · cases first
        rfl

/-- The tokens of a validator, and those of its pattern. -/
theorem exists_lexes_ofValidator {raw : String} (hraw : raw ≠ spanning)
    (h : Token.Lexes raw.toList ts []) : ∃ us, Token.Lexes (ofValidator raw).toList us [] ∧
      List.Forall₂ (Token.Alike MayUncapture) ts us ∧
      ((∀ t ∈ ts, isTame t = true) → List.Forall₂ (Token.Alike Uncaptures) ts us) := by
  obtain ⟨us, d', hlex, halike, htame⟩ := exists_lexes h 0
  have htext : (uncapture raw).toList = uncaptureFrom (.brackets 0) raw.toList :=
    String.toList_ofList
  rw [uncaptureFrom, ← htext] at hlex
  rw [ofValidator, if_neg hraw]
  dsimp only
  split
  · rename_i hgreedy
    obtain ⟨vs, bounds, rfl, hlazy⟩ := exists_lazy hlex hgreedy
    rw [String.toList_append]
    exact ⟨_, hlazy, Token.Alike.lazy_last halike, fun hts => Token.Alike.lazy_last (htame rfl hts)⟩
  · exact ⟨us, hlex, halike, htame rfl⟩

end Ends

/-! ### Trees -/

theorem names_of_mayUncapture (k k' : GroupKind) (h : MayUncapture k k') :
    k'.names.Sublist k.names := by
  obtain rfl | rfl := h
  · rw [GroupKind.names_uncaptured]
    exact List.nil_sublist _
  · exact List.Sublist.refl _

theorem change_of_mayUncapture (k k' : GroupKind) (h : MayUncapture k k') :
    k'.change = k.change := by
  obtain rfl | rfl := h
  · exact k.change_uncaptured
  · rfl

section Trees

variable {raw : String} {s : Syntax}

/-- **The pattern of a validator has a tree that is alike.** If no range of the validator ends in an
opening bracket, no group of it captures. -/
theorem exists_read?_ofValidator (hraw : raw ≠ spanning) (h : Syntax.read? raw = some s) :
    ∃ t, Syntax.read? (ofValidator raw) = some t ∧ s.Alike MayUncapture t ∧
      ((∀ c ∈ s.classes, c.all (ClassSet.noRangeTo '[') = true) → s.Alike Uncaptures t) := by
  rw [← String.ofList_toList (s := raw)] at h
  obtain ⟨ts, level, hlex, hread, rfl⟩ := Syntax.read?_eq_some_iff.mp h
  obtain ⟨us, hus, halike, htame⟩ := exists_lexes_ofValidator hraw hlex
  obtain ⟨level', hread', htree⟩ := Syntax.exists_alike halike hread
  refine ⟨level'.tree, ?_, htree, fun hclasses => ?_⟩
  · rw [← String.ofList_toList (s := ofValidator raw)]
    exact Syntax.read?_eq_some_iff.mpr ⟨us, level', hus, hread', rfl⟩
  · have hall : ∀ t ∈ ts, isTame t = true := by
      intro t ht
      cases t with
      | class_ c => exact hclasses c ((Syntax.mem_classes_iff hread).mpr ht)
      | _ => rfl
    obtain ⟨level'', hread'', htree'⟩ := Syntax.exists_alike (htame hall) hread
    rw [hread'] at hread''
    cases hread''
    exact htree'

/-- **The pattern of a validator is a regular expression**: its tree keeps the names distinct and
the nesting within its limit, so that it compiles unless its automata are too large. If no range of
the validator ends in an opening bracket, no group of the pattern captures. -/
theorem ofText?_ofValidator (hraw : raw ≠ spanning) (h : Syntax.ofText? raw = some s) :
    ∃ t, Syntax.ofText? (ofValidator raw) = some t ∧
      compile? (ofValidator raw) =
        (if t.expr.fits then some ⟨ofValidator raw, t.expr⟩ else none) ∧
      ((∀ c ∈ s.classes, c.all (ClassSet.noRangeTo '[') = true) → t.capturesNothing = true) := by
  obtain ⟨hread, hproper⟩ := Option.filter_eq_some_iff.mp h
  obtain ⟨hnames, hdepth⟩ := Bool.and_eq_true_iff.mp hproper
  obtain ⟨t, ht, halike, htame⟩ := exists_read?_ofValidator hraw hread
  have hsub := halike.names_sublist names_of_mayUncapture
  have hproper' : t.isProper = true := by
    refine Bool.and_eq_true_iff.mpr ⟨?_, ?_⟩
    · exact decide_eq_true (hsub.nodup (of_decide_eq_true hnames))
    · rw [halike.depth_eq]
      exact hdepth
  have hofText : Syntax.ofText? (ofValidator raw) = some t :=
    Option.filter_eq_some_iff.mpr ⟨ht, hproper'⟩
  refine ⟨t, hofText, ?_, fun hclasses => ?_⟩
  · rw [compile?, hofText, Option.bind_some]
  · refine (htame hclasses).capturesNothing ?_
    rintro k _ rfl
    exact k.exists_uncaptured_eq

end Trees

/-- Two groups, one of them with a name, and a repetition at the end. -/
def groupPair : Syntax :=
  .seq (.seq (.group (.capture none) (.alt (.seq (.char 'a') (.char 'b'))
    (.seq (.char 'c') (.char 'd')))) (.char '-'))
    (.repetition (.group (.capture (some "n")) (.char 'e')) ⟨1, none⟩ true)

theorem ofText?_groupPair : Syntax.ofText? "(ab|cd)-(?P<n>e)+" = some groupPair := by decide +kernel

theorem ofText?_ofValidator_groupPair : "(ab|cd)-(?P<n>e)+" ≠ spanning ∧
    Syntax.ofText? "(ab|cd)-(?P<n>e)+" = some groupPair ∧
    ∃ t, Syntax.ofText? (ofValidator "(ab|cd)-(?P<n>e)+") = some t ∧
      compile? (ofValidator "(ab|cd)-(?P<n>e)+") =
        (if t.expr.fits then some ⟨ofValidator "(ab|cd)-(?P<n>e)+", t.expr⟩ else none) ∧
      t.capturesNothing = true := by
  obtain ⟨t, ht, hcompile, hnothing⟩ := ofText?_ofValidator (by decide) ofText?_groupPair
  exact ⟨by decide, ofText?_groupPair, t, ht, hcompile, hnothing (List.forall_mem_nil _)⟩

/-- A class with a range that ends in an opening bracket, and a group. -/
def behindRange : Syntax :=
  .seq (.class_ (.bracket false (.range '!' '['))) (.group (.capture none) (.char 'x'))

/-- **A group behind a range that ends in an opening bracket is overlooked**: the pattern of this
validator is the validator, and a group in it captures. -/
theorem overlooked_group : (compile? "[!-[](x)").isSome = true ∧
    ofValidator "[!-[](x)" = "[!-[](x)" ∧
    Syntax.ofText? (ofValidator "[!-[](x)") = some behindRange ∧
    behindRange.capturesNothing = false := by
  have hread : Syntax.read? "[!-[](x)" = some behindRange := by cbv
  have hexpr : behindRange.expr = .seq (.set ⟨[(33, 91)]⟩) (.capture none (.word ['x'])) := by cbv
  have hfits : (Expr.seq (.set ⟨[(33, 91)]⟩) (.capture none (.word ['x']))).fits = true := by cbv
  have hsame : ofValidator "[!-[](x)" = "[!-[](x)" := by decide +kernel
  refine ⟨?_, hsame, ?_, rfl⟩
  · rw [compile?_eq_ite hread, hexpr, if_pos ⟨by decide, by decide, hfits⟩]
    rfl
  · rw [hsame, Syntax.ofText?, hread]
    rfl

section Language

variable {raw : String} {s : Syntax}

/-- Between anchors, a validator and its pattern have trees that are alike. -/
theorem exists_read?_anchored (hraw : raw ≠ spanning) (h : Syntax.read? raw = some s) :
    ∃ u v, Syntax.read? (anchored raw) = some u ∧
      Syntax.read? (anchored (ofValidator raw)) = some v ∧ u.names = s.names ∧
      u.Alike MayUncapture v := by
  obtain ⟨t, ht, halike, -⟩ := exists_read?_ofValidator hraw h
  refine ⟨_, _, read?_anchored h, read?_anchored ht, ?_, ?_⟩
  · simp [Syntax.names]
  · exact .seq (.seq (.leaf rfl) (.group (Or.inr rfl) halike)) (.leaf rfl)

theorem sets_anchored {u : Syntax} (hu : Syntax.read? (anchored raw) = some u) :
    u.Sets CharSet.IsProper :=
  Syntax.sets_isProper_of_read? (x := (anchored raw).toList) (by rwa [String.ofList_toList])

/-- **A validator and its pattern match the same texts as a whole.** -/
theorem wholeTexts_ofValidator (hraw : raw ≠ spanning) (h : Syntax.read? raw = some s) :
    wholeTexts (ofValidator raw) = wholeTexts raw := by
  obtain ⟨u, v, hu, hv, -, halike⟩ := exists_read?_anchored hraw h
  have hfind := halike.isSome_find?_eq change_of_mayUncapture (sets_anchored hu)
  ext x
  simp only [wholeTexts, hu, hv, Option.some.injEq, exists_eq_left', hfind]

/-- **Taking captures and preferences out of a validator keeps its language.** Between anchors, the
validator and its pattern are regular expressions that nest equally deep, and each of them compiles
exactly if it keeps the limits. Where both compile they match the same texts. -/
theorem isMatch_ofValidator (hraw : raw ≠ spanning) (h : Syntax.ofText? raw = some s) :
    wholeTexts (ofValidator raw) = wholeTexts raw ∧
    ∃ u v, Syntax.read? (anchored raw) = some u ∧
      Syntax.read? (anchored (ofValidator raw)) = some v ∧ v.depth = u.depth ∧
      compile? (anchored raw) = (if u.depth ≤ Syntax.depthLimit ∧ u.expr.fits = true then
        some ⟨anchored raw, u.expr⟩ else none) ∧
      compile? (anchored (ofValidator raw)) = (if v.depth ≤ Syntax.depthLimit ∧ v.expr.fits = true
        then some ⟨anchored (ofValidator raw), v.expr⟩ else none) ∧
      ∀ r r', compile? (anchored raw) = some r → compile? (anchored (ofValidator raw)) = some r' →
        ∀ text, r'.isMatch text = r.isMatch text := by
  obtain ⟨hread, hproper⟩ := Option.filter_eq_some_iff.mp h
  obtain ⟨hnames, -⟩ := Bool.and_eq_true_iff.mp hproper
  obtain ⟨u, v, hu, hv, hus, halike⟩ := exists_read?_anchored hraw hread
  have hnodup : u.names.Nodup := hus ▸ of_decide_eq_true hnames
  have hnodup' : v.names.Nodup := (halike.names_sublist names_of_mayUncapture).nodup hnodup
  refine ⟨wholeTexts_ofValidator hraw hread, u, v, hu, hv, halike.depth_eq, ?_, ?_, ?_⟩
  · rw [compile?_eq_ite hu]
    simp only [hnodup, true_and]
  · rw [compile?_eq_ite hv]
    simp only [hnodup', true_and]
  · intro r r' hr hr' text
    obtain ⟨rfl, -⟩ := of_compile?_eq_some hu hr
    obtain ⟨rfl, -⟩ := of_compile?_eq_some hv hr'
    exact halike.isSome_find?_eq change_of_mayUncapture (sets_anchored hu) text

end Language

theorem isMatch_ofValidator_groupPair : "(ab|cd)-(?P<n>e)+" ≠ spanning ∧
    Syntax.ofText? "(ab|cd)-(?P<n>e)+" = some groupPair ∧
    wholeTexts (ofValidator "(ab|cd)-(?P<n>e)+") = wholeTexts "(ab|cd)-(?P<n>e)+" ∧
    ∃ r r', compile? (anchored "(ab|cd)-(?P<n>e)+") = some r ∧
      compile? (anchored (ofValidator "(ab|cd)-(?P<n>e)+")) = some r' ∧
      ∀ text, r'.isMatch text = r.isMatch text := by
  obtain ⟨hwhole, -, -, -, -, -, -, -, hmatch⟩ := isMatch_ofValidator (by decide) ofText?_groupPair
  have hsome : (compile? (anchored "(ab|cd)-(?P<n>e)+")).isSome := by decide +kernel
  have hsome' : (compile? (anchored (ofValidator "(ab|cd)-(?P<n>e)+"))).isSome := by decide +kernel
  obtain ⟨r, hr⟩ := Option.isSome_iff_exists.mp hsome
  obtain ⟨r', hr'⟩ := Option.isSome_iff_exists.mp hsome'
  exact ⟨by decide, ofText?_groupPair, hwhole, r, r', hr, hr', hmatch r r' hr hr'⟩

/-! ### A pattern that is too large -/

/-- A validator with two long words, one of them in a group that captures, and many rounds of
them. -/
def heavy : String := "x|(?:(aaaaaaaaaaaaaaaa)|bbbbbbbbbbbbbbbb)\x7b6500\x7d"

/-- The tree of the validator. -/
def heavyTree : Syntax :=
  .alt (.char 'x') (.repetition (.group (.plain ⟨[], []⟩)
    (.alt (.group (.capture none) (.ofItems (List.replicate 16 (.char 'a'))))
      (.ofItems (List.replicate 16 (.char 'b'))))) ⟨6500, some 6500⟩ true)

/-- Between anchors, the validator matches the word in front. -/
theorem isSome_find?_heavyTree :
    ((Syntax.seq (.seq .caret (.group (.plain ⟨[], []⟩) heavyTree)) .dollar).expr.find?
      "x").isSome := by
  refine Expr.isSome_find?_iff.mpr ⟨_, List.mem_cons_self, ⟨some 'x', []⟩, ?_⟩
  refine (Syntax.reaches_meaning_iff (Syntax.sets_isProper (List.forall_mem_nil _)) {}).mpr ?_
  have hx : Position.Reads ⟨none, ['x']⟩ ['x'] ⟨some 'x', []⟩ := ⟨rfl, rfl⟩
  exact ⟨_, ⟨_, ⟨rfl, rfl⟩, Or.inl ⟨'x', by decide, hx⟩⟩, rfl, rfl⟩

/-- **A pattern can outgrow the limit that its validator keeps.** A group that captures is no word,
and alternatives that are not all words take less space; so the validator matches a text as a whole,
and its pattern does not compile. -/
theorem pattern_outgrows_limit : heavy ≠ spanning ∧ (compile? heavy).isSome = true ∧
    (∃ r, compile? (anchored heavy) = some r ∧ r.isMatch "x" = true) ∧
    compile? (anchored (ofValidator heavy)) = none := by
  have hread : Syntax.read? heavy = some heavyTree := by decide +kernel
  obtain ⟨r, hr⟩ := Option.isSome_iff_exists.mp
    (by decide +kernel : (compile? (anchored heavy)).isSome = true)
  obtain ⟨rfl, -⟩ := of_compile?_eq_some (read?_anchored hread) hr
  exact ⟨by decide, by decide +kernel, ⟨_, hr, isSome_find?_heavyTree⟩, by decide +kernel⟩

end Pattern

end UrlRouting
