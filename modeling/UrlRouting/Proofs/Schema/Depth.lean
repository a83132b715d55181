import UrlRouting.Proofs.Schema.Ways

/-!
# Schemas that nest too deeply

A schema compiles whatever its segments look like, but its text between anchors is an expression
only as long as that does not nest too deeply. Each optional segment costs two levels there, one for
its group and one for the repetition of the group. So a schema with more than 125 segments inside of
each other can be read, compiled and written, and no path can ever be matched with it
(`UrlRouting.Schema.compile?_of_nesting`).
-/

namespace UrlRouting

open Regex

/-! ### The depth of rows -/

namespace Regex

namespace Syntax

/-- **Items that go down to a depth**: one of them does, unless the depth is none. -/
def GoesDown (depth : Nat) (items : List Syntax) : Prop :=
  depth = 0 ∨ ∃ item ∈ items, depth ≤ item.depth

section Depth

variable {items items' : List Syntax} {item : Syntax} {n : Nat}

theorem GoesDown.append_left (h : GoesDown n items) (items' : List Syntax) :
    GoesDown n (items ++ items') :=
  h.imp_right fun ⟨item, hitem, hn⟩ => ⟨item, List.mem_append_left items' hitem, hn⟩

theorem GoesDown.append_right (items : List Syntax) (h : GoesDown n items') :
    GoesDown n (items ++ items') :=
  h.imp_right fun ⟨item, hitem, hn⟩ => ⟨item, List.mem_append_right items hitem, hn⟩

/-- In a row, a tree counts for one level less at most. -/
theorem depth_le_depthWithin_row (s : Syntax) : s.depth ≤ s.depthWithin .row + 1 := by
  cases s with
  | seq items last =>
    rw [depth, depthWithin, depthWithin, if_neg (by decide), if_pos rfl]
    omega
  | _ => exact Nat.le_succ _

theorem depth_le_ofItems_row (h : item ∈ items) :
    item.depth ≤ (ofItems items).depthWithin .row + 1 := by
  induction items with
  | nil => cases h
  | cons last rest ih =>
    cases rest with
    | nil =>
      obtain rfl := List.mem_singleton.mp h
      exact depth_le_depthWithin_row item
    | cons next rest =>
      have hrow : (ofItems (last :: next :: rest)).depthWithin .row =
          max ((ofItems (next :: rest)).depthWithin .row) last.depth := Nat.zero_add _
      rw [hrow]
      rcases List.mem_cons.mp h with rfl | h
      · exact Nat.le_succ_of_le (Nat.le_max_right _ _)
      · exact Nat.le_trans (ih h) (Nat.succ_le_succ (Nat.le_max_left _ _))

/-- **A row is as deep as each of its items.** -/
theorem depth_le_ofItems (h : item ∈ items) : item.depth ≤ (ofItems items).depth := by
  match items, h with
  | [_], h => exact Nat.le_of_eq (congrArg depth (List.mem_singleton.mp h))
  | last :: next :: rest, h =>
    have hall : (ofItems (last :: next :: rest)).depth =
        max ((ofItems (next :: rest)).depthWithin .row) last.depth + 1 := Nat.add_comm ..
    rw [hall]
    rcases List.mem_cons.mp h with rfl | h
    · exact Nat.le_succ_of_le (Nat.le_max_right _ _)
    · exact Nat.le_trans (depth_le_ofItems_row h) (Nat.succ_le_succ (Nat.le_max_left _ _))

theorem GoesDown.le_depth (h : GoesDown n items) : n ≤ (ofItems items.reverse).depth := by
  rcases h with rfl | ⟨item, hitem, hn⟩
  · exact Nat.zero_le _
  · exact Nat.le_trans hn (depth_le_ofItems (List.mem_reverse.mpr hitem))

end Depth

end Syntax

end Regex

/-! ### The depth of schemas -/

namespace Schema

/-- How many optional segments stand inside of each other. -/
def nesting : Schema → Nat
  | .done => 0
  | .literal _ rest => rest.nesting
  | .param _ rest => rest.nesting
  | .segment inner rest => max (inner.nesting + 1) rest.nesting

variable {ctx : CompileContext} {s : Schema}

/-- **The text of a schema goes down two levels for each segment.** -/
theorem fragment_goesDown (h : ∀ p ∈ s.params, p.StandsAlone ctx) (k : Nat) :
    ∃ items es, Syntax.Stands (s.fragment ctx k).toList items es ∧
      Syntax.GoesDown (2 * s.nesting) items := by
  induction s generalizing k with
  | done => exact ⟨[], [], Syntax.Stands.nil, .inl rfl⟩
  | literal text rest ih =>
    obtain ⟨items, es, hrest, hdown⟩ := ih h k
    have hstands := (Syntax.stands_escape text.toList).append hrest
    rw [fragment, String.toList_append, escape, String.toList_ofList]
    exact ⟨_, _, hstands, hdown.append_right _⟩
  | param p rest ih =>
    obtain ⟨items, es, hp, -, -⟩ := (h p List.mem_cons_self).traces k
    obtain ⟨items', fs, hrest, hdown⟩ := ih (fun q hq => h q (List.mem_cons_of_mem p hq)) (k + 1)
    rw [fragment, String.toList_append]
    exact ⟨_, _, hp.append hrest, hdown.append_right _⟩
  | segment inner rest ih1 ih2 =>
    obtain ⟨items, es, hinner, hdown⟩ := ih1 (fun p hp => h p (List.mem_append_left _ hp)) k
    obtain ⟨items', fs, hrest, hdown'⟩ :=
      ih2 (fun p hp => h p (List.mem_append_right _ hp)) (k + inner.params.length)
    have hgroup := hinner.closes.stands_optional Syntax.opens_plain (Syntax.means_group _)
    rw [toList_fragment_segment]
    refine ⟨_, _, hgroup.append hrest, ?_⟩
    -- the deeper one of the group and what is behind it
    rcases Nat.le_total (inner.nesting + 1) rest.nesting with hle | hle
    · rw [nesting, Nat.max_eq_right hle]
      exact hdown'.append_right _
    · rw [nesting, Nat.max_eq_left hle]
      refine .inr ⟨_, List.mem_append_left _ List.mem_cons_self, ?_⟩
      have hbody := hdown.le_depth
      rw [Syntax.depth, Syntax.depthWithin, Syntax.depthWithin]
      rw [Syntax.depth] at hbody
      omega

/-- **A schema that nests too deeply has no expression** for whole paths. -/
theorem compile?_of_nesting (h : ∀ p ∈ s.params, p.StandsAlone ctx) (hdeep : 125 < s.nesting) :
    Regex.compile? (s.compiled ctx).whole = none := by
  obtain ⟨items, es, hstands, hdown⟩ := fragment_goesDown h 0
  have hall := (Syntax.stands_caret.append hstands).append Syntax.stands_dollar
  have hread := hall.read?_eq
  have hwhole : String.ofList (['^'] ++ (s.fragment ctx 0).toList ++ ['$']) =
      (s.compiled ctx).whole := by
    refine String.toList_injective ?_
    simp [CompiledSchema.whole, compiled, String.toList_append]
  rw [hwhole] at hread
  have hdepth := ((hdown.append_right [Syntax.caret]).append_left [Syntax.dollar]).le_depth
  have hproper : ¬(Syntax.ofItems (([Syntax.caret] ++ items) ++ [Syntax.dollar]).reverse).isProper
      = true := by
    intro hproper
    have hlimit := of_decide_eq_true (Bool.and_eq_true_iff.mp hproper).2
    rw [Syntax.depthLimit] at hlimit
    omega
  rw [Regex.compile?, Syntax.ofText?, hread, Option.filter_some, if_neg hproper]
  rfl

end Schema

end UrlRouting
