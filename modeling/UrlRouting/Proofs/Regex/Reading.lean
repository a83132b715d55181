import Std.Data.String.ToNat
import UrlRouting.Proofs.Regex.Tokens
import UrlRouting.Proofs.Regex.Trees
import UrlRouting.Regex.Basic

/-!
# Reading a text that was put together

A text that is put together from escaped characters, anchors and groups is read as the row of their
trees. Two kinds of texts are told apart.

* A text *stands* for items (`UrlRouting.Regex.Syntax.Stands`) if they are read off it in the middle
  of any row, whatever follows. Only a question mark must not follow, since it would make the last
  item lazy. Texts that stand for items can be put one behind the other.
* A text is *closed* by a parenthesis (`UrlRouting.Regex.Syntax.Closes`) if in a group it is read as
  a tree. Every text that is an expression by itself is of this kind, and every text that stands for
  items.

A closed text in a group stands for that group (`UrlRouting.Regex.Syntax.Closes.stands`), which may
also be left out (`UrlRouting.Regex.Syntax.Closes.stands_optional`); so the two kinds build each
other up.
-/

namespace UrlRouting

namespace Regex

namespace Syntax

/-! ### Places -/

/-- The place behind items that are read one after the other. -/
def Place.pushAll (p : Place) (items : List Syntax) : Place := items.foldl Place.push p

/-- The place in more groups than are open already. -/
def Place.within (p : Place) (further : List (GroupKind × Level)) : Place :=
  { p with around := p.around ++ further }

section Places

variable {p q : Place} {t : Token} {ts us : List Token} {items : List Syntax}

theorem Place.pushAll_eq (p : Place) (items : List Syntax) :
    p.pushAll items = ⟨⟨p.level.branches, items.reverse ++ p.level.items⟩, p.around⟩ := by
  induction items generalizing p with
  | nil => rfl
  | cons item items ih =>
    change (p.push item).pushAll items = _
    rw [ih, List.reverse_cons, List.append_assoc]
    rfl

theorem Place.readAll?_append (p : Place) (ts us : List Token) :
    p.readAll? (ts ++ us) = (p.readAll? ts).bind (·.readAll? us) :=
  List.foldlM_append

/-- What is read in some groups is read in more groups as well. -/
theorem Place.read?_within (h : p.read? t = some q) (further : List (GroupKind × Level)) :
    (p.within further).read? t = some (q.within further) := by
  cases t with
  | closing =>
    obtain ⟨level, around⟩ := p
    cases around with
    | nil => cases h
    | cons g around =>
      cases h
      rfl
  | repetition bounds greedy =>
    obtain ⟨level, hlevel, rfl⟩ := Option.map_eq_some_iff.mp h
    exact Option.map_eq_some_iff.mpr ⟨level, hlevel, rfl⟩
  | _ =>
    cases h
    rfl

theorem Place.readAll?_within (h : p.readAll? ts = some q) (further : List (GroupKind × Level)) :
    (p.within further).readAll? ts = some (q.within further) := by
  induction ts generalizing p with
  | nil =>
    cases h
    rfl
  | cons t ts ih =>
    rw [readAll?, List.foldlM_cons] at h ⊢
    obtain ⟨mid, hmid, hrest⟩ := Option.bind_eq_some_iff.mp h
    exact Option.bind_eq_some_iff.mpr ⟨_, Place.read?_within hmid further, ih hrest⟩

end Places

/-! ### Texts in a row -/

/-- **A text that stands for items** in any row, each of which means one expression. -/
structure Stands (x : List Char) (items : List Syntax) (es : List Expr) : Prop where
  /-- The items mean the expressions. -/
  means : List.Forall₂ Means items es
  /-- No question mark is to be seen in front. -/
  noMark : ∀ more, NoMark more → NoMark (x ++ more)
  /-- There are tokens that are read off the text, and add the items. -/
  reads : ∃ ts : List Token, ts.length ≤ x.length ∧
    (∀ more, NoMark more → Token.Lexes (x ++ more) ts more) ∧
    ∀ p : Place, p.readAll? ts = some (p.pushAll items)

/-- **A text that is closed by a parenthesis**: in a group it is read as a tree. -/
def Closes (x : List Char) (s : Syntax) : Prop :=
  ∃ ts : List Token, ts.length ≤ x.length ∧
    (∀ more, Token.Lexes (x ++ ')' :: more) ts (')' :: more)) ∧
    ∀ around, ∃ level : Level, Place.readAll? ⟨.start, around⟩ ts = some ⟨level, around⟩ ∧
      level.tree = s

section Stands

variable {x y : List Char} {items items' : List Syntax} {es fs : List Expr} {s : Syntax} {e : Expr}

theorem Stands.nil : Stands [] [] [] :=
  ⟨.nil, fun _ h => h, [], Nat.le_refl 0, fun more _ => .done more, fun _ => rfl⟩

/-- Texts that stand for items can be put one behind the other. -/
theorem Stands.append (hx : Stands x items es) (hy : Stands y items' fs) :
    Stands (x ++ y) (items ++ items') (es ++ fs) := by
  obtain ⟨ts, htlen, htlex, htread⟩ := hx.reads
  obtain ⟨us, hulen, hulex, huread⟩ := hy.reads
  refine ⟨List.rel_append hx.means hy.means, fun more h => ?_, ts ++ us, ?_, fun more h => ?_,
    fun p => ?_⟩
  · rw [List.append_assoc]
    exact hx.noMark _ (hy.noMark more h)
  · rw [List.length_append, List.length_append]
    exact Nat.add_le_add htlen hulen
  · rw [List.append_assoc]
    exact (htlex _ (hy.noMark more h)).append (hulex more h)
  · rw [Place.readAll?_append, htread, Option.bind_some, huread, Place.pushAll, Place.pushAll,
      Place.pushAll, List.foldl_append]

/-- One token that adds one item. -/
theorem stands_token {c : Char} {t : Token} (hm : Means s e) (hmark : NoMark (c :: x))
    (hlex : ∀ more, Token.read? (c :: x ++ more) = some (t, more))
    (hread : ∀ p : Place, p.read? t = some (p.push s)) : Stands (c :: x) [s] [e] := by
  refine ⟨.cons hm .nil, fun more _ => hmark, [t], Nat.succ_le_succ (Nat.zero_le _),
    fun more _ => .single (hlex more), fun p => ?_⟩
  rw [Place.readAll?, List.foldlM_cons, hread]
  rfl

theorem stands_caret : Stands ['^'] [.caret] [.look .textStart] :=
  stands_token means_caret (by simp [NoMark]) (fun _ => rfl) fun _ => rfl

theorem stands_dollar : Stands ['$'] [.dollar] [.look .textEnd] :=
  stands_token means_dollar (by simp [NoMark]) (fun _ => rfl) fun _ => rfl

theorem isEscapable_of_isMeta {c : Char} (h : isMeta c = true) : isEscapable c = true := by
  have hall : ['\\', '.', '+', '*', '?', '(', ')', '|', '[', ']', '{', '}', '^', '$', '#',
      '&', '-', '~'].all isEscapable = true := by decide
  exact List.all_eq_true.mp hall c (List.contains_iff_mem.mp h)

/-- **An escaped character stands for itself.** -/
theorem stands_escapeChar (c : Char) : Stands (escapeChar c) [.char c] [.word [c]] := by
  unfold escapeChar
  split
  · rename_i hmeta
    refine stands_token (means_char c) (by simp [NoMark]) (t := .char c) ?_ fun _ => rfl
    intro more
    have hescape := escape_read?_of_isEscapable (isEscapable_of_isMeta hmeta) more
    simp only [List.cons_append, List.nil_append, Token.read?, hescape]
  · rename_i hmeta
    have hne : ∀ d, isMeta d = true → c ≠ d := fun d hd heq => hmeta (heq ▸ hd)
    refine stands_token (means_char c) ?_ (t := .char c) ?_ fun _ => rfl
    · exact fun h => hne '?' (by decide) (Option.some.inj h)
    · intro more
      rw [List.cons_append, List.nil_append, Token.read?]
      all_goals exact fun heq => hne _ (by decide) heq

/-- **An escaped text stands for its characters.** -/
theorem stands_escape (text : List Char) :
    Stands (text.flatMap escapeChar) (text.map .char) (text.map fun c => .word [c]) := by
  induction text with
  | nil => exact Stands.nil
  | cons c text ih =>
    rw [List.flatMap_cons]
    exact (stands_escapeChar c).append ih

/-! ### Texts in groups -/

/-- A text that opens a group of a kind. -/
def Opens (o : List Char) (kind : GroupKind) : Prop :=
  o.head? = some '(' ∧ ∀ more, Token.read? (o ++ more) = some (.opening kind, more)

theorem opens_plain : Opens "(?:".toList (.plain ⟨[], []⟩) := ⟨rfl, fun _ => rfl⟩

theorem ne_of_isName {name : List Char} (h : isName name = true) : ∀ c ∈ name, (c != '>') = true :=
  fun _ hc => bne_iff_ne.mpr (ne_of_mem_of_not_mem hc (not_mem_of_isName h (by decide) (by decide)))

theorem opens_capture {name : List Char} (h : isName name = true) :
    Opens ("(?P<".toList ++ name ++ ['>']) (.capture (some (String.ofList name))) := by
  have hne := ne_of_isName h
  refine ⟨rfl, fun more => ?_⟩
  have hread : readName? (name ++ '>' :: more) = some (String.ofList name, more) := by
    unfold readName?
    rw [List.takeWhile_append_of_pos hne, List.dropWhile_append_of_pos hne,
      List.takeWhile_cons_of_neg (by decide), List.dropWhile_cons_of_neg (by decide),
      List.append_nil]
    exact if_pos h
  change readOpening? ('?' :: 'P' :: '<' :: (name ++ ['>'] ++ more)) = _
  rw [readOpening?, List.append_assoc]
  exact congrArg (Option.map fun r => (Token.opening (.capture (some r.1)), r.2)) hread

/-- An expression by itself is closed by a parenthesis. -/
theorem closes_of_read? (h : Syntax.read? (String.ofList x) = some s) :
    Closes x s := by
  obtain ⟨ts, hts, htree⟩ := Option.bind_eq_some_iff.mp h
  obtain ⟨hlex, hlen⟩ := Token.ofText?_eq_some_iff.mp hts
  rw [String.toList_ofList] at hlex hlen
  refine ⟨ts, hlen, fun more => hlex.inGroup more, fun around => ?_⟩
  unfold ofTokens? at htree
  split at htree
  · rename_i level hread
    cases htree
    exact ⟨level, Place.readAll?_within hread around, rfl⟩
  · cases htree

theorem noMark_closing (more : List Char) : NoMark (')' :: more) := by simp [NoMark]

/-- What stands for items is closed by a parenthesis. -/
theorem Stands.closes (h : Stands x items es) : Closes x (ofItems items.reverse) := by
  obtain ⟨ts, hlen, hlex, hread⟩ := h.reads
  refine ⟨ts, hlen, fun more => hlex _ (noMark_closing more), fun around => ?_⟩
  refine ⟨⟨[], items.reverse⟩, ?_, rfl⟩
  rw [hread, Place.pushAll_eq, Level.start, List.append_nil]

section Closes

variable {o : List Char} {kind : GroupKind}

/-- The tokens of a group, and what they add. -/
theorem Closes.reads (h : Closes x s) (ho : Opens o kind) :
    ∃ ts : List Token, ts.length ≤ (o ++ x ++ [')']).length ∧
      (∀ more, Token.Lexes (o ++ x ++ ')' :: more) ts more) ∧
      ∀ p : Place, p.readAll? ts = some (p.push (.group kind s)) := by
  obtain ⟨ts, hlen, hlex, hread⟩ := h
  obtain ⟨hhead, hopen⟩ := ho
  refine ⟨.opening kind :: ts ++ [.closing], ?_, fun more => ?_, fun p => ?_⟩
  · have hpos : 0 < o.length := List.length_pos_of_mem (List.mem_of_head? hhead)
    simp only [List.length_append, List.length_cons, List.length_nil]
    omega
  · rw [List.append_assoc]
    exact (Token.Lexes.step (hopen _) (hlex more)).append (.single rfl)
  · obtain ⟨level, hlevel, rfl⟩ := hread ((kind, p.level) :: p.around)
    rw [Place.readAll?_append]
    change (Place.readAll? ⟨.start, (kind, p.level) :: p.around⟩ ts).bind _ = _
    rw [hlevel]
    rfl

theorem noMark_of_opens (ho : Opens o kind) (more : List Char) : NoMark (o ++ more) := by
  unfold NoMark
  rw [List.head?_append, ho.1]
  simp

/-- **A closed text in a group stands for the group.** -/
theorem Closes.stands (h : Closes x s) (ho : Opens o kind) (hm : Means (.group kind s) e) :
    Stands (o ++ x ++ [')']) [.group kind s] [e] := by
  obtain ⟨ts, hlen, hlex, hread⟩ := h.reads ho
  refine ⟨.cons hm .nil, fun more _ => ?_, ts, hlen, fun more _ => ?_, hread⟩
  · simp only [List.append_assoc]
    exact noMark_of_opens ho _
  · rw [List.append_assoc]
    exact hlex more

/-- **A closed text in a group that may be left out stands for that.** -/
theorem Closes.stands_optional (h : Closes x s) (ho : Opens o kind) (hm : Means (.group kind s) e) :
    Stands (o ++ x ++ [')', '?']) [.repetition (.group kind s) ⟨0, some 1⟩ true] [optional e] := by
  obtain ⟨ts, hlen, hlex, hread⟩ := h.reads ho
  refine ⟨.cons (means_optional hm) .nil, fun more _ => ?_,
    ts ++ [.repetition ⟨0, some 1⟩ true], ?_, fun more hmore => ?_, fun p => ?_⟩
  · simp only [List.append_assoc]
    exact noMark_of_opens ho _
  · simp only [List.length_append, List.length_cons, List.length_nil] at hlen ⊢
    omega
  · have hmark : Token.read? ('?' :: more) = some (.repetition ⟨0, some 1⟩ true, more) := by
      refine congrArg some ?_
      rw [Token.repeated]
      exact fun rest heq => hmore (congrArg List.head? heq)
    rw [List.append_assoc]
    exact (hlex ('?' :: more)).append (.single hmark)
  · rw [Place.readAll?_append, hread]
    rfl

end Closes

/-! ### Whole texts -/

/-- **A text that stands for items is the text of their row.** -/
theorem Stands.read?_eq (h : Stands x items es) :
    Syntax.read? (String.ofList x) = some (ofItems items.reverse) := by
  obtain ⟨ts, hlen, hlex, hread⟩ := h.reads
  have hts : Token.ofText? (String.ofList x) = some ts := by
    rw [Token.ofText?_eq_some_iff, String.toList_ofList]
    have hnil := hlex [] (by simp [NoMark])
    rw [List.append_nil] at hnil
    exact ⟨hnil, hlen⟩
  rw [Syntax.read?, hts, Option.bind_some, ofTokens?, hread, Place.pushAll_eq]
  simp only [Level.start, List.append_nil]
  rfl

end Stands

end Syntax

end Regex

end UrlRouting
