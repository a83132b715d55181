import UrlRouting.Proofs.Regex.Greedy
import UrlRouting.Proofs.Schema.Ways
import UrlRouting.Tree.Compile

/-!
# What a group matches

The expression of a group is that of its schema, and a capture behind it of whatever is left, as
long as that is one line. So a group tries the ways of its schema in their order, and takes the
first one behind which there is no line break; what is left there is what it hands on
(`UrlRouting.Schema.group_read?`). So this is the end of the path, whatever the patterns of the
schema capture besides (`UrlRouting.Node.handed_isSuffix`).

All this needs patterns that are expressions by themselves. A pattern that closes the group around
it can switch on flags for what follows, and under one of them `$` matches in front of any line
break.
-/

namespace UrlRouting

open Regex Regex.Ways
open scoped Computability

/-! ### The rest of a line -/

/-- The characters but the line break. -/
def notBreak : CharSet := ⟨[(0, 9), (11, 55295), (57344, 1114111)]⟩

/-- The expression of what a group leaves. -/
def restExpr : Expr := .atLeast true 0 (.set notBreak)

theorem exists_read?_rest : ∃ s, Syntax.read? ".*" = some s ∧ s.names = [] ∧ s.expr = restExpr := by
  refine ⟨.repetition .any ⟨0, none⟩ true, ?_, rfl, ?_⟩ <;> cbv

theorem mem_notBreak_iff {c : Char} : notBreak.mem c = true ↔ c ≠ '\n' := by
  have hvalid : c.toNat < 0xd800 ∨ 0xdfff < c.toNat ∧ c.toNat < 0x110000 := c.valid
  have hbreak : c = '\n' ↔ c.toNat = 10 := Char.toNat_inj.symm
  rw [Ne, hbreak]
  simp only [CharSet.mem, notBreak, Text.inRanges]
  split_ifs <;> simp <;> omega

theorem not_mem_of_mem_language {x : List Char} (hx : x ∈ restExpr.language) : '\n' ∉ x := by
  rw [restExpr, Expr.language, pow_zero, one_mul] at hx
  obtain ⟨parts, rfl, hparts⟩ := Language.mem_kstar.mp hx
  intro hmem
  obtain ⟨part, hpart, hmem⟩ := List.mem_flatten.mp hmem
  obtain ⟨c, hc, rfl⟩ := hparts part hpart
  exact mem_notBreak_iff.mp hc (List.mem_singleton.mp hmem).symm

/-- What is left of a text behind a way is one line. -/
def Regex.Way.LeavesLine (w : Way) : Prop := '\n' ∉ w.stop.rest

instance (w : Way) : Decidable w.LeavesLine := inferInstanceAs (Decidable (_ ∉ _))

/-- The notes of what a group leaves. -/
def restNotes (rest : List Char) : Trail := [.opened restName rest, .closed restName []]

/-- **The rest of a text is captured** up to its end, if it is one line. -/
theorem find?_isWhole_rest (v : Way) :
    (((Expr.capture (some restName) restExpr).ways v.stop).find? Way.isWhole).map (·.trail) =
      if v.LeavesLine then some (restNotes v.stop.rest) else none := by
  obtain ⟨-, P⟩ := v
  split
  · next hline =>
    have hreads : P.Reads P.rest (P.skip P.rest) := Position.reads_skip (List.prefix_refl _)
    have hend : (P.skip P.rest).rest = [] := List.drop_length
    have hfirst : GoesFirst (restExpr.ways P) [] (P.skip P.rest) := by
      refine goesFirst_anyRun hreads (fun c hc => mem_notBreak_iff.mpr fun h => hline (h ▸ hc)) ?_
      rw [hend]
      exact fun c hc => nomatch hc
    rw [(hfirst.capture restName).find?_isWhole hend, hend]
    rfl
  · next hbreak =>
    refine Option.map_eq_none_iff.mpr (List.find?_eq_none.mpr fun w hw hwhole => hbreak ?_)
    obtain ⟨u, hu, rfl⟩ := List.mem_map.mp hw
    have hplain : restExpr.isPlain = true := rfl
    obtain ⟨x, hx, hreads⟩ := (Expr.spells_ways hplain P u.stop).mp ⟨u, hu, rfl⟩
    have hrest : u.stop.rest = [] := List.isEmpty_iff.mp hwhole
    rw [Way.LeavesLine, hreads.1, hrest, List.append_nil]
    exact not_mem_of_mem_language hx

/-- In a row, the first way that reads a whole text is the first one of the front that can be
completed. -/
theorem find?_isWhole_extend (ws : List Way) (next : Position → List Way) :
    (extend ws next).find? Way.isWhole =
      ws.findSome? fun v => ((next v.stop).find? Way.isWhole).map (behind v.trail) := by
  rw [extend, List.find?_flatMap]
  refine congrArg (List.findSome? · ws) (funext fun v => ?_)
  rw [List.find?_map]
  rfl

/-- The text that a group leaves is what its last notes are about. -/
theorem text?_restName (t : Trail) (rest : List Char) :
    Trail.text? restName (t ++ restNotes rest) = some (String.ofList rest) := by
  have hreverse : (t ++ restNotes rest).reverse =
      .closed restName [] :: .opened restName rest :: t.reverse := by
    rw [List.reverse_append]
    rfl
  rw [Trail.text?, hreverse, Trail.lastText?, if_pos rfl, Trail.openedAt?, if_pos rfl,
    Option.map_some, List.length_nil, Nat.sub_zero, List.take_length]

/-! ### The expression of a group -/

/-- The text of the expression of a group. -/
def CompiledSchema.front (c : CompiledSchema) : String :=
  "^" ++ c.fragment ++ "(?P<" ++ restName ++ ">.*)$"

namespace Schema

variable {ctx : CompileContext} {s : Schema}

/-- **The match of a group** is the first way of its schema that leaves one line of the path, and
this line. -/
theorem group_read? (h : ∀ p ∈ s.params, p.StandsAlone ctx) :
    ∃ t, Syntax.read? (s.compiled ctx).front = some t ∧ t.names = s.allNames ctx 0 ++ [restName] ∧
      ∀ path, t.expr.find? path =
        ((s.ways ctx 0 (.start path.toList)).find? (·.LeavesLine)).map fun v =>
          v.trail ++ restNotes v.stop.rest := by
  obtain ⟨r, hread, hnames, hexpr⟩ := exists_read?_rest
  have hcloses : Syntax.Closes ".*".toList r :=
    Syntax.closes_of_read? (by rwa [String.ofList_toList])
  have hopens := Syntax.opens_capture (show isName restName.toList = true by decide)
  rw [String.ofList_toList] at hopens
  -- the capture of the rest is a piece of its own, behind those of the schema
  have hrest := hcloses.traces hopens (Syntax.means_capture (some restName) r)
  have hgroup : (Syntax.group (.capture (some restName)) r).names = [restName] := by
    rw [Syntax.names, hnames]
  rw [hgroup, hexpr] at hrest
  obtain ⟨t, ht, htnames, hfind⟩ := ((fragment_traces h 0).append hrest).whole
  have hfront : String.ofList (['^'] ++ ((s.fragment ctx 0).toList ++
      ("(?P<".toList ++ restName.toList ++ ['>'] ++ ".*".toList ++ [')'])) ++ ['$']) =
      (s.compiled ctx).front := by
    refine String.toList_injective ?_
    simp [CompiledSchema.front, compiled, String.toList_append]
  rw [hfront] at ht
  refine ⟨t, ht, htnames, fun path => ?_⟩
  rw [hfind, find?_isWhole_extend]
  generalize s.ways ctx 0 (.start path.toList) = ws
  induction ws with
  | nil => rfl
  | cons v ws ih =>
    have hv := find?_isWhole_rest v
    rw [List.findSome?_cons, List.find?_cons]
    by_cases hline : v.LeavesLine
    · rw [if_pos hline] at hv
      obtain ⟨w, hw, htrail⟩ := Option.map_eq_some_iff.mp hv
      rw [hw, decide_eq_true hline, Option.map_some]
      exact congrArg (fun t => some (v.trail ++ t)) htrail
    · rw [if_neg hline, Option.map_eq_none_iff] at hv
      rw [hv, decide_eq_false hline]
      exact ih

end Schema

/-! ### Nodes that are groups -/

namespace Node

variable {n : Node} {ctx : CompileContext} {c : CompiledNode}

/-- A node that compiles has the schema that its text says. -/
theorem exists_schema_of_compile (h : n.compile ctx = .ok c) :
    ∃ s, Schema.ofText n.schema = .ok s ∧ Parameter.AllResolve s.params ctx [] ∧
      c.schema = s.compiled ctx := by
  rw [compile] at h
  cases hcompiled : CompiledSchema.ofText n.schema ctx with
  | error e =>
    rw [hcompiled] at h
    cases h
  | ok schema =>
    obtain ⟨s, hs, hresolve, rfl⟩ := CompiledSchema.ofText_eq_ok_iff.mp hcompiled
    refine ⟨s, hs, hresolve, ?_⟩
    rw [hcompiled] at h
    dsimp only at h
    split at h
    · cases h
      rfl
    · split at h
      · cases h
        rfl
      · cases h

theorem schema_of_compile {s : Schema} (hs : Schema.ofText n.schema = .ok s)
    (h : n.compile ctx = .ok c) : c.schema = s.compiled ctx := by
  obtain ⟨s', hs', -, hschema⟩ := exists_schema_of_compile h
  obtain rfl : s = s' := Except.ok.inj (hs.symm.trans hs')
  exact hschema

/-- A node that can be matched and compiles has an expression, that of the text which goes around
the one of its schema. -/
theorem compile_eq_ok_of_source (around : String → String)
    (hsource : ∀ fragment, n.matcherSource? fragment = some (around fragment))
    (h : n.compile ctx = .ok c) :
    ∃ s, Schema.ofText n.schema = .ok s ∧ Parameter.AllResolve s.params ctx [] ∧
      c.schema = s.compiled ctx ∧
      ∃ r, c.matcher = some r ∧ Regex.compile? (around (s.compiled ctx).fragment) = some r := by
  rw [compile] at h
  cases hcompiled : CompiledSchema.ofText n.schema ctx with
  | error e =>
    rw [hcompiled] at h
    cases h
  | ok schema =>
    obtain ⟨s, hs, hresolve, rfl⟩ := CompiledSchema.ofText_eq_ok_iff.mp hcompiled
    rw [hcompiled] at h
    dsimp only at h
    rw [hsource] at h
    dsimp only at h
    split at h
    · next r hr =>
      cases h
      exact ⟨s, hs, hresolve, rfl, r, rfl, hr⟩
    · cases h

/-- A group that compiles has an expression, that of its schema with the rest behind it. -/
theorem compile_group_eq_ok (hgroup : n.isGroup = true) (h : n.compile ctx = .ok c) :
    ∃ s, Schema.ofText n.schema = .ok s ∧ Parameter.AllResolve s.params ctx [] ∧
      c.schema = s.compiled ctx ∧
      ∃ r, c.matcher = some r ∧ Regex.compile? (s.compiled ctx).front = some r := by
  refine compile_eq_ok_of_source (fun fragment => "^" ++ fragment ++ "(?P<" ++ restName ++ ">.*)$")
    (fun fragment => ?_) h
  rw [isGroup] at hgroup
  rw [matcherSource?]
  split at hgroup
  · next hk => rw [hk]
  · cases hgroup

/-- **What a group captures**: the first way of its schema that leaves one line, and this line. -/
theorem captures?_group (hgroup : n.isGroup = true) (h : n.compile ctx = .ok c) {s : Schema}
    (hs : Schema.ofText n.schema = .ok s) (halone : ∀ p ∈ s.params, p.StandsAlone ctx)
    (path : String) :
    c.matcher.bind (·.captures? path) =
      ((s.ways ctx 0 (.start path.toList)).find? (·.LeavesLine)).map fun v =>
        v.trail ++ restNotes v.stop.rest := by
  obtain ⟨s', hs', -, -, r, hr, hcompile⟩ := compile_group_eq_ok hgroup h
  obtain rfl : s = s' := Except.ok.inj (hs.symm.trans hs')
  obtain ⟨t, ht, -, hfind⟩ := Schema.group_read? halone
  obtain ⟨rfl, -⟩ := of_compile?_eq_some ht hcompile
  rw [hr, Option.bind_some, Regex.captures?, hfind]

/-- **What a group hands on is the end of its text**, if the pattern of each of its parameters is an
expression by itself. -/
theorem exists_handed (hgroup : n.isGroup = true) (h : n.compile ctx = .ok c)
    (halone : ∀ spec ∈ c.schema.params, (Syntax.read? spec.pattern).isSome) {path : String}
    {trail : Trail} (htrail : c.matcher.bind (·.captures? path) = some trail) :
    ∃ rest, trail.text? restName = some rest ∧ rest.toList <:+ path.toList := by
  obtain ⟨s, hs, -, hschema, -⟩ := compile_group_eq_ok hgroup h
  have halone : ∀ p ∈ s.params, p.StandsAlone ctx := fun p hp =>
    halone (p.spec ctx) (hschema ▸ List.mem_map_of_mem hp)
  rw [captures?_group hgroup h hs halone] at htrail
  obtain ⟨v, hv, rfl⟩ := Option.map_eq_some_iff.mp htrail
  obtain ⟨x, hreads⟩ := Schema.leads_ways s ctx 0 _ v (List.mem_of_find?_eq_some hv)
  refine ⟨_, text?_restName _ _, ?_⟩
  rw [String.toList_ofList]
  exact ⟨x, hreads.1.symm⟩

/-- The same of the text that is searched for in the group. -/
theorem handed_isSuffix (hgroup : n.isGroup = true) (h : n.compile ctx = .ok c)
    (halone : ∀ spec ∈ c.schema.params, (Syntax.read? spec.pattern).isSome) {path : String}
    {trail : Trail} (htrail : c.matcher.bind (·.captures? path) = some trail) :
    ((trail.text? restName).getD "").toList <:+ path.toList := by
  obtain ⟨rest, hrest, hsuffix⟩ := exists_handed hgroup h halone htrail
  rwa [hrest, Option.getD_some]

end Node

end UrlRouting
