import UrlRouting.Proofs.Regex.Rows
import UrlRouting.Regex.Meaning

/-!
# The ways of a tree of syntax

What a tree means is simplified as a whole, so the expression of a larger tree need not contain
those of its parts. Two things survive nevertheless, and they are all that is needed of a tree that
was put together from parts.

* Conditions and captures do not come from nowhere: a tree without any has an expression without any
  (`UrlRouting.Regex.Syntax.all_expr`). This includes alternatives, of which common beginnings are
  taken out.
* A row of items that each mean one expression has the ways of these expressions one behind the
  other (`UrlRouting.Regex.Syntax.ways_ofItems`). Items are characters, anchors, groups, and groups
  that may be left out; what stands in the groups does not matter.
-/

namespace UrlRouting

namespace Regex

/-! ### Conditions and captures -/

namespace Syntax

/-- Do all conditions and all captures in the tree pass a test, whatever the flags are? -/
def all (look : Look → Bool) (name : Option String → Bool) : Syntax → Bool
  | .empty | .char _ | .any | .class_ _ | .flags _ => true
  | .caret => look .lineStart && look .textStart
  | .dollar => look .lineEnd && look .textEnd
  | .look l => look l
  | .group (.capture n) body => name n && body.all look name
  | .group (.plain _) body => body.all look name
  | .repetition body _ _ => body.all look name
  | .seq items last => items.all look name && last.all look name
  | .alt branches last => branches.all look name && last.all look name

/-- Do all sets of characters that the tree reads have a property, whatever the flags are? -/
def Sets (set : CharSet → Prop) : Syntax → Prop
  | .char c => ∀ ignoreCase, set ((CharSet.single c).foldedIf ignoreCase)
  | .any => ∀ given, set (dot given)
  | .class_ s => ∀ ignoreCase, set (s.set ignoreCase)
  | .group _ body => body.Sets set
  | .repetition body _ _ => body.Sets set
  | .seq items last => items.Sets set ∧ last.Sets set
  | .alt branches last => branches.Sets set ∧ last.Sets set
  | .empty | .caret | .dollar | .look _ | .flags _ => True

theorem sets_true (s : Syntax) : s.Sets fun _ => True := by
  induction s with
  | char c => exact fun _ => trivial
  | any => exact fun _ => trivial
  | class_ s => exact fun _ => trivial
  | group kind body ih => exact ih
  | repetition body bounds greedy ih => exact ih
  | seq items last ih1 ih2 => exact ⟨ih1, ih2⟩
  | alt branches last ih1 ih2 => exact ⟨ih1, ih2⟩
  | _ => trivial

/-- Does the tree put no condition on a place and capture nothing? -/
def isPlain (s : Syntax) : Bool := s.all (fun _ => false) (fun _ => false)

end Syntax

namespace Series

/-- The expressions that belong together. -/
def parts : Series → List Expr
  | .row es => es
  | .choice es => es

end Series

/-- **A property of expressions that simplifying keeps**, if the sets that are read have a property,
and the conditions and the captures in them pass a test. -/
structure Expr.Closed (set : CharSet → Prop) (look : Look → Bool) (name : Option String → Bool)
    (P : Expr → Prop) : Prop where
  /-- The empty expression has it. -/
  empty : P .empty
  /-- Sets have it. -/
  ofSet : ∀ s, set s → P (.ofSet s)
  /-- Conditions that pass have it. -/
  look : ∀ l, look l = true → P (.look l)
  /-- Captures that pass keep it. -/
  capture : ∀ {n e}, name n = true → P e → P (.capture n e)
  /-- Repetitions keep it. -/
  repeated : ∀ {e}, P e → ∀ greedy bounds, P (.repeated greedy e bounds)
  /-- Rows keep it. -/
  row : ∀ {es}, (∀ e ∈ es, P e) → P (.row es)
  /-- Alternatives keep it. -/
  choice : ∀ {es}, (∀ e ∈ es, P e) → P (.choice es)

namespace Series

section Closed

variable {set : CharSet → Prop} {look : Look → Bool} {name : Option String → Bool}
  {P : Expr → Prop} {s : Series} {e f : Expr}

theorem closed_expr (hP : Expr.Closed set look name P) (h : ∀ e ∈ s.parts, P e) : P s.expr := by
  cases s with
  | row es => exact hP.row fun e he => h e (List.mem_reverse.mp he)
  | choice es => exact hP.choice fun e he => h e (List.mem_reverse.mp he)

theorem closed_single (he : P e) (hf : f ∈ (single e).parts) : P f := by
  obtain rfl := List.mem_singleton.mp hf
  exact he

/-- What follows or is an alternative is one more part. -/
theorem closed_more (hP : Expr.Closed set look name P) (h : ∀ e ∈ s.parts, P e) (he : P e) :
    (∀ f ∈ (s.followedBy e).parts, P f) ∧ ∀ f ∈ (s.or e).parts, P f := by
  have hexpr := closed_expr hP h
  cases s with
  | row es =>
    refine ⟨fun f hf => ?_, fun f hf => ?_⟩
    · rcases List.mem_cons.mp hf with rfl | hf
      · exact he
      · exact h f hf
    · rcases List.mem_cons.mp hf with rfl | hf
      · exact he
      · exact closed_single hexpr hf
  | choice es =>
    refine ⟨fun f hf => ?_, fun f hf => ?_⟩
    · rcases List.mem_cons.mp hf with rfl | hf
      · exact he
      · exact closed_single hexpr hf
    · rcases List.mem_cons.mp hf with rfl | hf
      · exact he
      · exact h f hf

end Closed

end Series

namespace Syntax

section All

variable {set : CharSet → Prop} {look : Look → Bool} {name : Option String → Bool}
  {P : Expr → Prop} {s : Syntax}

theorem closed_meaning (hP : Expr.Closed set look name P) (hset : s.Sets set)
    (h : s.all look name = true) (given : Flags) : ∀ e ∈ (s.meaning given).1.parts, P e := by
  induction s generalizing given with
  | empty => exact fun e => Series.closed_single hP.empty
  | char c => exact fun e => Series.closed_single (hP.ofSet _ (hset _))
  | any => exact fun e => Series.closed_single (hP.ofSet _ (hset _))
  | class_ s => exact fun e => Series.closed_single (hP.ofSet _ (hset _))
  | caret =>
    obtain ⟨hline, htext⟩ := Bool.and_eq_true_iff.mp h
    refine fun e => Series.closed_single (hP.look _ ?_)
    split
    · exact hline
    · exact htext
  | dollar =>
    obtain ⟨hline, htext⟩ := Bool.and_eq_true_iff.mp h
    refine fun e => Series.closed_single (hP.look _ ?_)
    split
    · exact hline
    · exact htext
  | look l => exact fun e => Series.closed_single (hP.look l h)
  | flags c => exact fun e => Series.closed_single hP.empty
  | group kind body ih =>
    cases kind with
    | capture n =>
      obtain ⟨hn, hbody⟩ := Bool.and_eq_true_iff.mp h
      exact fun e =>
        Series.closed_single (hP.capture hn (Series.closed_expr hP (ih hset hbody given)))
    | plain change => exact fun e => Series.closed_single (Series.closed_expr hP (ih hset h _))
  | repetition body bounds greedy ih =>
    exact fun e => Series.closed_single (hP.repeated (Series.closed_expr hP (ih hset h given)) _ _)
  | seq items last ih1 ih2 =>
    obtain ⟨h1, h2⟩ := Bool.and_eq_true_iff.mp h
    exact (Series.closed_more hP (ih1 hset.1 h1 given) (Series.closed_expr hP (ih2 hset.2 h2 _))).1
  | alt branches last ih1 ih2 =>
    obtain ⟨h1, h2⟩ := Bool.and_eq_true_iff.mp h
    exact (Series.closed_more hP (ih1 hset.1 h1 given) (Series.closed_expr hP (ih2 hset.2 h2 _))).2

/-- **What simplifying keeps is true of the expression of a tree.** -/
theorem closed_expr (hP : Expr.Closed set look name P) (hset : s.Sets set)
    (h : s.all look name = true) : P s.expr :=
  Series.closed_expr hP (closed_meaning hP hset h {})

theorem closed_all (look : Look → Bool) (name : Option String → Bool) :
    Expr.Closed (fun _ => True) look name (·.all look name = true) where
  empty := rfl
  ofSet s _ := Expr.all_ofSet s
  look _ h := h
  capture hn he := Bool.and_eq_true_iff.mpr ⟨hn, he⟩
  repeated := (Expr.inherited_all look name).repeated
  row := (Expr.inherited_all look name).kept.row
  choice := (Expr.inherited_all look name).kept.choice

/-- **The conditions and captures of an expression are those of its tree.** -/
theorem all_expr (h : s.all look name = true) : s.expr.all look name = true :=
  closed_expr (closed_all look name) s.sets_true h

theorem isPlain_expr (h : s.isPlain = true) : s.expr.isPlain = true := all_expr h

/-- A plain tree has no names of groups. -/
theorem names_eq_nil (h : s.isPlain = true) : s.names = [] := by
  induction s with
  | group kind body ih =>
    cases kind with
    | capture n => cases h
    | plain change => exact ih h
  | repetition body bounds greedy ih => exact ih h
  | seq items last ih1 ih2 =>
    obtain ⟨h1, h2⟩ := Bool.and_eq_true_iff.mp h
    rw [names, ih1 h1, ih2 h2, List.append_nil]
  | alt branches last ih1 ih2 =>
    obtain ⟨h1, h2⟩ := Bool.and_eq_true_iff.mp h
    rw [names, ih1 h1, ih2 h2, List.append_nil]
  | _ => rfl

/-- The captures of a tree pass a test, if its names of groups do, and the lack of a name. -/
theorem all_of_names (hnone : name none = true) (h : ∀ n ∈ s.names, name (some n) = true) :
    s.all (fun _ => true) name = true := by
  induction s with
  | group kind body ih =>
    cases kind with
    | capture n =>
      cases n with
      | none => exact Bool.and_eq_true_iff.mpr ⟨hnone, ih h⟩
      | some n =>
        obtain ⟨hn, hbody⟩ := List.forall_mem_cons.mp h
        exact Bool.and_eq_true_iff.mpr ⟨hn, ih hbody⟩
    | plain change => exact ih h
  | repetition body bounds greedy ih => exact ih h
  | seq items last ih1 ih2 | alt items last ih1 ih2 =>
    obtain ⟨h1, h2⟩ := List.forall_mem_append.mp h
    exact Bool.and_eq_true_iff.mpr ⟨ih1 h1, ih2 h2⟩
  | _ => rfl

/-- **The notes of a tree are about its names of groups.** -/
theorem notes_expr (s : Syntax) (P : Position) : Notes (· ∈ s.names) (s.expr.ways P) := by
  have hall : s.all (fun _ => true) (fun n => n.all (· ∈ s.names)) = true :=
    all_of_names rfl fun n hn => decide_eq_true hn
  exact fun w hw n hn => of_decide_eq_true (Expr.notes_ways (all_expr hall) P w hw n hn)

end All

/-! ### Items -/

/-- **A tree that means one expression** where no flags are set, and sets none. -/
def Means (s : Syntax) (e : Expr) : Prop := s.meaning {} = (.single e, {})

theorem means_char (c : Char) : Means (.char c) (.word [c]) := by
  have hset : Expr.ofSet (.single c) = .word [c] := by
    have hsingle : (CharSet.single c).single? = some c := by
      simp [CharSet.single?, CharSet.single]
    rw [Expr.ofSet, hsingle]
  exact congrArg (fun e => (Series.single e, ({} : Flags))) hset

theorem means_caret : Means .caret (.look .textStart) := rfl

theorem means_dollar : Means .dollar (.look .textEnd) := rfl

theorem means_group (body : Syntax) : Means (.group (.plain ⟨[], []⟩) body) body.expr := rfl

theorem means_capture (name : Option String) (body : Syntax) :
    Means (.group (.capture name) body) (.capture name body.expr) := rfl

/-- The expression of something that may be left out, and is preferred. -/
def optional (e : Expr) : Expr := Expr.repeated true (Expr.row [e]) ⟨0, some 1⟩

theorem means_optional {s : Syntax} {e : Expr} (h : Means s e) :
    Means (.repetition s ⟨0, some 1⟩ true) (optional e) := by
  unfold Means meaning
  rw [h]
  rfl

theorem ways_optional (e : Expr) (P : Position) : (optional e).ways P = e.ways P ++ Ways.stay P := by
  rw [optional, Expr.ways_repeated_optional, Expr.ways_row, Expr.rowWays_singleton]

/-- A row of items means expressions in a row, with the ways of those that the items mean. -/
theorem meaning_ofItems {items : List Syntax} {es : List Expr} (h : List.Forall₂ Means items es) :
    ∃ fs, (ofItems items).meaning {} = (.row fs, {}) ∧
      ∀ P, Expr.rowWays fs.reverse P = Expr.rowWays es.reverse P := by
  induction h with
  | nil => exact ⟨[.empty], rfl, fun P => congrFun (Expr.rowWays_singleton .empty) P⟩
  | @cons item e items es hitem hitems ih =>
    cases hitems with
    | nil => exact ⟨[e], hitem, fun _ => rfl⟩
    | @cons item' e' items es hitem' hitems =>
      obtain ⟨fs, hfs, hways⟩ := ih
      refine ⟨Expr.row [e] :: fs, ?_, fun P => ?_⟩
      · change meaning (.seq (ofItems (item' :: items)) item) {} = _
        rw [meaning, hfs]
        dsimp only
        rw [hitem]
        rfl
      · rw [List.reverse_cons, List.reverse_cons, Expr.rowWays_append, Expr.rowWays_append, hways]
        refine extend_congr fun w _ => ?_
        rw [Expr.rowWays_singleton, Expr.ways_row]

/-- **A row of items has the ways of the expressions they mean**, one behind the other. -/
theorem ways_ofItems {items : List Syntax} {es : List Expr} (h : List.Forall₂ Means items es)
    (P : Position) : (ofItems items).expr.ways P = Expr.rowWays es.reverse P := by
  obtain ⟨fs, hfs, hways⟩ := meaning_ofItems h
  rw [expr, hfs, Series.expr, Expr.ways_row, hways]

theorem names_ofItems (items : List Syntax) :
    (ofItems items).names = items.reverse.flatMap names := by
  induction items with
  | nil => rfl
  | cons item items ih =>
    rw [List.reverse_cons, List.flatMap_append, ← ih]
    cases items with
    | nil => simp [ofItems, names]
    | cons item' items => simp [ofItems, names]

end Syntax

end Regex

end UrlRouting
