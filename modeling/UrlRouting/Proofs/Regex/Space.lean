import Mathlib.Algebra.BigOperators.Group.List.Basic
import UrlRouting.Proofs.Regex.Alone
import UrlRouting.Proofs.Regex.Whole

/-!
# The space of a row

Expressions are simplified while they are put together: rows in rows become one row, and characters
that stand side by side one word. Neither of this saves space, so the space of a row is that of its
parts together (`UrlRouting.Regex.Expr.sizeWithin_row`), provided that the parts are what simplifying
makes of a tree: no part of a row is a row or empty, and no alternative is one of alternatives
(`UrlRouting.Regex.Expr.isTidy`).

It follows that an expression takes no more space by itself than between anchors. So the limits of
the engine do not matter for the question whether a text that can be tried is an expression by itself
(`UrlRouting.Regex.compile?_isSome_iff_of_anchored`).
-/

namespace UrlRouting

namespace Regex

namespace Expr

/-! ### Tidy expressions -/

/-- Is the expression neither a row nor empty? -/
def isPart : Expr → Bool
  | .empty | .seq _ _ => false
  | _ => true

/-- Does the expression consist of no alternatives? -/
def isBranch : Expr → Bool
  | .alt _ _ => false
  | _ => true

/-- Are rows made of parts, and alternatives of branches? What stands in captures and repetitions
does not matter. -/
def isTidy : Expr → Bool
  | .seq first second => first.isPart && first.isTidy && second.isTidy && second != .empty
  | .alt first second => first.isBranch && first.isTidy && second.isTidy
  | _ => true

section Tidy

variable {e f : Expr} {es : List Expr}

theorem isTidy_seq_iff : (seq e f).isTidy = true ↔
    (e.isPart = true ∧ e.isTidy = true) ∧ f.isTidy = true ∧ f ≠ .empty := by
  simp [isTidy, and_assoc]

theorem isTidy_alt_iff : (alt e f).isTidy = true ↔
    (e.isBranch = true ∧ e.isTidy = true) ∧ f.isTidy = true := by
  simp [isTidy, and_assoc]

theorem isTidy_of_mem_items (h : e.isTidy = true) (hf : f ∈ e.items) :
    f.isPart = true ∧ f.isTidy = true := by
  induction e with
  | empty => exact absurd hf List.not_mem_nil
  | seq first second _ ih =>
    obtain ⟨hfirst, hsecond, -⟩ := isTidy_seq_iff.mp h
    rcases List.mem_cons.mp hf with rfl | hf
    · exact hfirst
    · exact ih hsecond hf
  | _ =>
    obtain rfl := List.mem_singleton.mp hf
    exact ⟨rfl, h⟩

theorem isTidy_of_mem_branches (h : e.isTidy = true) (hf : f ∈ e.branches) :
    f.isBranch = true ∧ f.isTidy = true := by
  induction e with
  | alt first second _ ih =>
    obtain ⟨hfirst, hsecond⟩ := isTidy_alt_iff.mp h
    rcases List.mem_cons.mp hf with rfl | hf
    · exact hfirst
    · exact ih hsecond hf
  | _ =>
    obtain rfl := List.mem_singleton.mp hf
    exact ⟨rfl, h⟩

theorem before_ne_empty (he : e.isPart = true) : before e f ≠ .empty := by
  unfold before
  split
  · rintro rfl
    cases he
  all_goals exact nofun

theorem isTidy_before (he : e.isPart = true ∧ e.isTidy = true) (hf : f.isTidy = true) :
    (before e f).isTidy = true := by
  unfold before
  split
  · exact he.2
  · rfl
  · exact isTidy_seq_iff.mpr ⟨⟨rfl, rfl⟩, (isTidy_seq_iff.mp hf).2⟩
  · rename_i hne _ _
    exact isTidy_seq_iff.mpr ⟨he, hf, hne⟩

theorem isTidy_ofSet (s : CharSet) : (ofSet s).isTidy = true := by
  unfold ofSet
  split <;> rfl

theorem isTidy_anyOf (h : ∀ e ∈ es, e.isBranch = true ∧ e.isTidy = true) :
    (anyOf es).isTidy = true := by
  unfold anyOf
  split
  · rfl
  · exact (h _ List.mem_cons_self).2
  · split
    · exact isTidy_ofSet _
    · exact isTidy_ofSet _
    · exact nested_of_alt (P := (·.isTidy = true)) And.right
        (fun he hf => isTidy_alt_iff.mpr ⟨he, hf⟩) h

/-- **Rows and alternatives of tidy expressions are tidy.** -/
theorem kept_isTidy : Kept (·.isTidy = true) (fun e => e.isPart = true ∧ e.isTidy = true)
    (fun e => e.isBranch = true ∧ e.isTidy = true) where
  empty := rfl
  of_part h := h.2
  items h _ := isTidy_of_mem_items h
  before := isTidy_before
  of_branch h := h.2
  branches h _ := isTidy_of_mem_branches h
  anyOf := isTidy_anyOf

theorem isTidy_row (h : ∀ e ∈ es, e.isTidy = true) : (row es).isTidy = true := kept_isTidy.row h

theorem isTidy_repeated (h : e.isTidy = true) (greedy : Bool) (bounds : Bounds) :
    (repeated greedy e bounds).isTidy = true := by
  unfold repeated
  split
  · rfl
  · rfl
  · exact h
  · rfl

theorem closed_isTidy :
    Closed (fun _ => True) (fun _ => true) (fun _ => true) (·.isTidy = true) where
  empty := rfl
  ofSet s _ := isTidy_ofSet s
  look _ _ := rfl
  capture _ _ := rfl
  repeated := isTidy_repeated
  row := kept_isTidy.row
  choice := kept_isTidy.choice

end Tidy

/-! ### Space -/

section Space

variable {d : Direction} {e f : Expr} {es : List Expr}

theorem sizeWithin_word_append (d : Direction) (x y : List Char) :
    sizeWithin d false (word (x ++ y)) = sizeWithin d false (word x) + sizeWithin d false (word y) := by
  have hbytes : (Size.bytesOf d (x ++ y)).length =
      (Size.bytesOf d x).length + (Size.bytesOf d y).length := by
    cases d with
    | forward => simp [Size.bytesOf]
    | backward => simp [Size.bytesOf, Nat.add_comm]
  simp only [sizeWithin, hbytes, Nat.mul_add]

theorem sizeWithin_before (hf : f ≠ .empty) :
    sizeWithin d false (before e f) = sizeWithin d false e + sizeWithin d false f := by
  unfold before
  split
  · exact absurd rfl hf
  · exact sizeWithin_word_append d _ _
  · change sizeWithin d false (word _) + _ = _ + (sizeWithin d false (word _) + _)
    rw [sizeWithin_word_append, Nat.add_assoc]
  · rfl

/-- The space of expressions together. -/
def sizeOf (d : Direction) (es : List Expr) : Nat := (es.map (sizeWithin d false)).sum

/-- A tidy expression takes the space of its parts. -/
theorem sizeWithin_eq (h : e.isTidy = true) (hne : e ≠ .empty) :
    sizeWithin d false e = sizeOf d e.items := by
  induction e with
  | empty => exact absurd rfl hne
  | seq first second _ ih =>
    obtain ⟨-, hsecond, hne⟩ := isTidy_seq_iff.mp h
    rw [sizeWithin, ih hsecond hne]
    rfl
  | _ => rfl

theorem row_ne_empty (h : ∀ e ∈ es, e.isTidy = true) (hne : es.flatMap items ≠ []) :
    row es ≠ .empty := by
  obtain ⟨f, fs, hfs⟩ := List.exists_cons_of_ne_nil hne
  obtain ⟨e, he, hf⟩ := List.mem_flatMap.mp (hfs ▸ List.mem_cons_self : f ∈ es.flatMap items)
  rw [row, hfs, List.foldr_cons]
  exact before_ne_empty (isTidy_of_mem_items (h e he) hf).1

/-- **A row takes the space of its parts.** -/
theorem sizeWithin_row (h : ∀ e ∈ es, e.isTidy = true) (hne : es.flatMap items ≠ []) :
    sizeWithin d false (row es) = sizeOf d (es.flatMap items) := by
  have hitems : ∀ f ∈ es.flatMap items, f.isPart = true := by
    intro f hf
    obtain ⟨e, he, hf⟩ := List.mem_flatMap.mp hf
    exact (isTidy_of_mem_items (h e he) hf).1
  unfold row
  generalize es.flatMap items = fs at hitems hne
  induction fs with
  | nil => exact absurd rfl hne
  | cons f fs ih =>
    obtain ⟨hf, hfs⟩ := List.forall_mem_cons.mp hitems
    cases fs with
    | nil => rfl
    | cons g gs =>
      have hrest : (g :: gs).foldr before .empty ≠ .empty :=
        before_ne_empty (hfs g List.mem_cons_self)
      rw [List.foldr_cons, sizeWithin_before hrest, ih hfs (List.cons_ne_nil _ _)]
      rfl

theorem items_eq_nil (h : e.items = []) : e = .empty := by
  cases e <;> first | rfl | cases h

/-- **An expression takes no more space by itself** than between two conditions. -/
theorem size_le_between (h : e.isTidy = true) (l l' : Look) :
    e.size d ≤ (row [look l, row [e], row [look l']]).size d := by
  suffices hle : sizeWithin d false e ≤
      sizeWithin d false (row [look l, row [e], row [look l']]) by
    simp only [size]
    omega
  have he : ∀ f ∈ [e], f.isTidy = true := List.forall_mem_singleton.mpr h
  have hrow : (row [e]).isTidy = true := isTidy_row he
  have hall : ∀ f ∈ [look l, row [e], row [look l']], f.isTidy = true :=
    List.forall_mem_cons.mpr ⟨rfl, List.forall_mem_cons.mpr ⟨hrow, List.forall_mem_singleton.mpr rfl⟩⟩
  rw [sizeWithin_row hall (by simp [items])]
  by_cases hempty : e = .empty
  · subst hempty
    simp [sizeOf, items, row, before, sizeWithin]
  · have hitems : [e].flatMap items ≠ [] := by
      rw [List.flatMap_singleton]
      exact fun hnil => hempty (items_eq_nil hnil)
    have hsize : sizeWithin d false e = sizeOf d (row [e]).items := by
      rw [← sizeWithin_eq hrow (row_ne_empty he hitems), sizeWithin_row he hitems,
        List.flatMap_singleton, sizeWithin_eq h hempty]
    rw [hsize]
    simp only [sizeOf, List.flatMap_cons, List.map_append, List.sum_append]
    omega

end Space

theorem isTidy_expr (s : Syntax) : s.expr.isTidy = true :=
  s.closed_expr closed_isTidy s.sets_true (Syntax.all_of_names rfl fun _ _ => rfl)

end Expr

/-- **Texts that compile when they are anchored compile by themselves**, unless they close the group
that they are tried in. -/
theorem compile?_isSome_iff_of_anchored {source : String} (h : (compile? (anchored source)).isSome) :
    (compile? source).isSome ↔ ¬ClosesGroup source := by
  obtain ⟨r, hr⟩ := Option.isSome_iff_exists.mp h
  obtain ⟨t, ht, hfits⟩ := Option.bind_eq_some_iff.mp hr
  obtain ⟨ht, hproper⟩ := Option.filter_eq_some_iff.mp ht
  rw [← read?_isSome_iff_of_anchored (ht ▸ rfl)]
  constructor
  · intro hsome
    obtain ⟨r', hr'⟩ := Option.isSome_iff_exists.mp hsome
    obtain ⟨s, hs, -⟩ := Option.bind_eq_some_iff.mp hr'
    rw [(Option.filter_eq_some_iff.mp hs).1]
    rfl
  · intro hsome
    obtain ⟨s, hs⟩ := Option.isSome_iff_exists.mp hsome
    obtain rfl := Option.some.inj ((read?_anchored hs).symm.trans ht)
    obtain ⟨hnames, hdepth⟩ := Bool.and_eq_true_iff.mp hproper
    have hnames : s.names.Nodup := by simpa [Syntax.names] using hnames
    have hdepth : s.depth ≤ Syntax.depthLimit := by
      simp only [Syntax.depth, Syntax.depthWithin, decide_eq_true_eq] at hdepth ⊢
      omega
    -- what fits between two looks fits by itself
    have hexpr : (Syntax.seq (.seq .caret (.group (.plain ⟨[], []⟩) s)) .dollar).expr =
        .row [.look .textStart, .row [s.expr], .row [.look .textEnd]] := rfl
    rw [hexpr] at hfits
    split_ifs at hfits with hall
    obtain ⟨hforward, hbackward⟩ := Bool.and_eq_true_iff.mp hall
    have hsize (d : Direction) := Expr.size_le_between (d := d) (Expr.isTidy_expr s) .textStart .textEnd
    have hfits : s.expr.fits = true := by
      simp only [Expr.fits, Bool.and_eq_true, decide_eq_true_eq] at hforward hbackward ⊢
      exact ⟨(hsize _).trans hforward, (hsize _).trans hbackward⟩
    rw [compile?_eq_ite hs, if_pos ⟨hnames, hdepth, hfits⟩]
    rfl

end Regex

end UrlRouting
