import UrlRouting.Proofs.Schema.Printing

/-!
# Literals that take too much space

Between anchors, an escaped text is one word between two conditions
(`UrlRouting.Regex.Expr.row_words`), and a word takes a state for each of its bytes. So
the engine refuses it if it is long enough, and a schema with such a text for its literal has no
expression (`UrlRouting.Schema.compile?_of_long_literal`).
-/

namespace UrlRouting

namespace Regex

/-! ### Bytes -/

namespace Size

/-- A number has digits. -/
theorem digitRows_self (weights : List Nat) (n : Nat) :
    ∃ d ds, digitRows weights n n = [d :: ds] := by
  cases weights with
  | nil => exact ⟨_, _, rfl⟩
  | cons w ws =>
    obtain ⟨d, ds, hrest⟩ := digitRows_self ws (n % w)
    refine ⟨(n / w, n / w), d :: ds, ?_⟩
    rw [digitRows, if_pos rfl, hrest]
    rfl

/-- A character has bytes. -/
theorem one_le_bytes (c : Char) : 1 ≤ (byteRowsOfRange c.toNat c.toNat).flatten.length := by
  obtain ⟨l, hl, hfirst, hlast⟩ : ∃ l ∈ encodedLengths, l.first ≤ c.toNat ∧ c.toNat ≤ l.last := by
    have hvalid : c.toNat < 0xD800 ∨ 0xDFFF < c.toNat ∧ c.toNat < 0x110000 := c.valid
    simp only [encodedLengths, List.mem_cons, List.not_mem_nil, or_false, exists_eq_or_imp,
      exists_eq_left]
    omega
  have hmem : (digitRows l.weights c.toNat c.toNat).map (toBytes l.lead) ⊆
      byteRowsOfRange c.toNat c.toNat := by
    intro row hrow
    refine List.mem_flatMap.mpr ⟨l, hl, ?_⟩
    rwa [Nat.max_eq_left hfirst, Nat.min_eq_left hlast, if_pos (Nat.le_refl _)]
  obtain ⟨d, ds, hrow⟩ := digitRows_self l.weights c.toNat
  rw [hrow] at hmem
  have hfirst : toBytes l.lead (d :: ds) ∈ byteRowsOfRange c.toNat c.toNat := hmem (by simp)
  exact List.length_pos_of_mem (List.mem_flatten.mpr ⟨_, hfirst, List.mem_cons_self⟩)

/-- **A text has as many bytes as characters**, at least. -/
theorem length_le_bytesOf (d : Direction) (text : List Char) :
    text.length ≤ (bytesOf d text).length := by
  have hforward : text.length ≤ (bytesOf .forward text).length := by
    induction text with
    | nil => exact Nat.le_refl _
    | cons c text ih =>
      have hc := one_le_bytes c
      simp only [bytesOf] at ih
      simp only [bytesOf, List.flatMap_cons, List.length_append, List.length_map, List.length_cons]
      omega
  cases d with
  | forward => exact hforward
  | backward => exact (List.length_reverse ..).symm ▸ hforward

end Size

/-! ### Words between conditions -/

namespace Expr

/-- Characters in front of a condition are a word. -/
theorem foldr_before_words {text : List Char} (htext : text ≠ []) (l : Look) :
    ((text.map fun c => word [c]) ++ [look l]).foldr before .empty = .seq (word text) (look l) := by
  induction text with
  | nil => exact absurd rfl htext
  | cons c text ih =>
    cases text with
    | nil => rfl
    | cons c' text =>
      rw [List.map_cons, List.cons_append, List.foldr_cons, ih (List.cons_ne_nil _ _)]
      rfl

theorem row_words {text : List Char} (htext : text ≠ []) (l l' : Look) :
    row ([look l] ++ (text.map fun c => word [c]) ++ [look l']) =
      .seq (look l) (.seq (word text) (look l')) := by
  have hitems : ([look l] ++ (text.map fun c => word [c]) ++ [look l']).flatMap items =
      look l :: ((text.map fun c => word [c]) ++ [look l']) := by
    rw [List.flatMap_append, List.flatMap_append, List.flatMap_map]
    exact congrArg (fun es => look l :: (es ++ [look l'])) (List.flatMap_pure_eq_map ..)
  rw [row, hitems, List.foldr_cons, foldr_before_words htext]
  rfl

/-- **A word takes a state for each of its characters**, at least. -/
theorem lt_size_words (d : Direction) (text : List Char) (l l' : Look) :
    Size.state * text.length < (seq (look l) (seq (word text) (look l'))).size d := by
  have hbytes := Nat.mul_le_mul_left Size.state (Size.length_le_bytesOf d text)
  simp only [size, sizeWithin, Size.state] at hbytes ⊢
  omega

end Expr

namespace Syntax

/-- Items that mean simple expressions mean these in a row, as they are. -/
theorem expr_ofItems {items : List Syntax} {es : List Expr} (h : List.Forall₂ Means items es)
    (hsimple : ∀ e ∈ es, Expr.row [e] = e) (hne : es ≠ []) :
    (ofItems items).expr = Expr.row es.reverse := by
  suffices hmeaning : (ofItems items).meaning {} = (.row es, {}) by rw [expr, hmeaning]; rfl
  induction h with
  | nil => exact absurd rfl hne
  | @cons item e items es hitem hitems ih =>
    cases hitems with
    | nil => exact hitem
    | @cons item' e' items es hitem' hitems =>
      have hrest := ih (fun e he => hsimple e (List.mem_cons_of_mem _ he)) (List.cons_ne_nil _ _)
      change meaning (.seq (ofItems (item' :: items)) item) {} = _
      rw [meaning, hrest]
      dsimp only
      rw [hitem]
      exact congrArg (fun f => (Series.row (f :: e' :: es), ({} : Flags)))
        (hsimple e List.mem_cons_self)

end Syntax

/-- An expression that does not fit is refused. -/
theorem compile?_of_not_fits {source : String} {s : Syntax} (h : Syntax.read? source = some s)
    (hfits : s.expr.fits = false) : compile? source = none := by
  rw [compile?, Syntax.ofText?, h]
  cases hs : (some s).filter Syntax.isProper with
  | none => rfl
  | some t =>
    obtain rfl := Option.some.inj (Option.filter_eq_some_iff.mp hs).1
    rw [Option.bind_some, hfits]
    rfl

/-- **A text that is too long is refused** between anchors. -/
theorem compile?_of_long_text {text : List Char}
    (hlong : Expr.sizeLimit ≤ Size.state * text.length) :
    compile? (String.ofList (['^'] ++ text.flatMap escapeChar ++ ['$'])) = none := by
  have hstands := (Syntax.stands_caret.append (Syntax.stands_escape text)).append
    Syntax.stands_dollar
  have htext : text ≠ [] := by
    rintro rfl
    exact absurd hlong (by decide)
  -- a word and a condition are what they become in a row, so the row is that of the items
  have hsimple : ∀ e ∈ ([.look .textStart] ++ (text.map fun c => .word [c]) ++
      [.look .textEnd] : List Expr).reverse, Expr.row [e] = e := by
    intro e he
    simp only [List.mem_reverse, List.mem_append, List.mem_singleton, List.mem_map] at he
    obtain (rfl | ⟨c, -, rfl⟩) | rfl := he <;> rfl
  have hexpr := Syntax.expr_ofItems (List.rel_reverse hstands.means) hsimple (by simp)
  rw [List.reverse_reverse, Expr.row_words htext] at hexpr
  refine compile?_of_not_fits hstands.read?_eq ?_
  have hsize := Expr.lt_size_words .forward text .textStart .textEnd
  rw [hexpr, Expr.fits, Bool.and_eq_false_iff]
  exact .inl (decide_eq_false (Nat.not_le_of_lt (Nat.lt_of_le_of_lt hlong hsize)))

end Regex

/-! ### Long literals -/

open Regex

namespace Schema

/-- **A schema with too long a literal has no expression** for whole paths. -/
theorem compile?_of_long_literal {ctx : CompileContext} {text : String}
    (hlong : Expr.sizeLimit ≤ Size.state * text.length) :
    Regex.compile? ((literal text .done).compiled ctx).whole = none := by
  have hwhole : ((literal text .done).compiled ctx).whole =
      String.ofList (['^'] ++ text.toList.flatMap escapeChar ++ ['$']) := by
    refine String.toList_injective ?_
    simp [CompiledSchema.whole, compiled, fragment, escape, String.toList_append]
  rw [hwhole]
  exact compile?_of_long_text hlong

namespace Reading

/-- Characters of literal text are read as they are. -/
theorem foldlM_read_text {cs : List Char} (h : ∀ c ∈ cs, c ∉ ['{', '[', ']', '}', '\\'])
    (o : Nat) (row : Schema) (around : List (Nat × Schema)) (pending : List Char) :
    ∃ o', cs.foldlM read ⟨o, row, around, .text pending⟩ =
      .ok ⟨o', row, around, .text (cs.reverse ++ pending)⟩ := by
  induction cs generalizing o pending with
  | nil => exact ⟨o, rfl⟩
  | cons c cs ih =>
    obtain ⟨hc, hcs⟩ := List.forall_mem_cons.mp h
    obtain ⟨o', hrest⟩ := ih hcs (o + c.utf8Size) (c :: pending)
    refine ⟨o', ?_⟩
    have hread : read ⟨o, row, around, .text pending⟩ c =
        .ok ⟨o + c.utf8Size, row, around, .text (c :: pending)⟩ :=
      read_eq_ok_iff.mpr (.text rfl (.plain hc))
    rw [List.foldlM_cons, hread, List.reverse_cons, List.append_assoc]
    exact hrest

end Reading

/-- **Literal text is read as one literal.** -/
theorem ofText_literal {text : String} (hne : text ≠ "")
    (h : ∀ c ∈ text.toList, c ∉ ['{', '[', ']', '}', '\\']) :
    ofText text = .ok (.literal text .done) := by
  obtain ⟨o, hread⟩ := Reading.foldlM_read_text h 0 .done [] []
  have hliteral : withLiteral .done text.toList.reverse = .literal text .done :=
    withLiteral_reverse .done hne
  have hall : Reading.start.readAll text.toList = .ok (.literal text .done) := by
    rw [Reading.readAll, Reading.start, hread, List.append_nil, ← hliteral]
    rfl
  rw [ofText, hall]

end Schema

end UrlRouting
