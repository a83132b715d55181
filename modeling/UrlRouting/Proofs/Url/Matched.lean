import Mathlib
import UrlRouting.Proofs.Matching.Layers
import UrlRouting.Proofs.Schema.Language
import UrlRouting.Proofs.Schema.TypedTexts
import UrlRouting.Proofs.Url.Rows

/-!
# What was matched can be written

A schema can be filled with the clean values of a path that it matches
(`UrlRouting.CompiledSchema.fill_of_match`). Nothing that is required is missing, since a parameter
outside of segments has captured some text. And the text that is written for a value passes the
checks of its parameter: what was captured for a parameter without a type is written as it was
captured, and the canonical text of a value passes the checks of its type.

Two things stand between reading and writing. A validator checks the text that is to be written by
itself, while the same pattern has read it in its place in the path, where it may look at what stands
around it (`UrlRouting.Pattern.ReadsAlone`). And a type reads more texts than it writes, so that a
validator that stands beside a type may have let a text through, and refuse its canonical form
(`UrlRouting.CompiledSchema.matched_not_filled`).
-/

namespace UrlRouting

open Regex

/-! ### Rows with checked texts -/

/-- The parameters that every path of a schema has a text for: those that are neither optional nor in
a segment. -/
def Schema.required : Schema → List Parameter
  | .done => []
  | .literal _ rest => rest.required
  | .param p rest => if p.optional then rest.required else p :: rest.required
  | .segment _ rest => rest.required

/-- **A text that may be written for a parameter**: the one that it has, without a binder, and it
passes its checks unless it is empty. -/
structure ParamSpec.MayWrite (spec : ParamSpec) (params : Params) (text : String) : Prop where
  /-- The text is that of the value, or the default. -/
  resolves : spec.resolve none params = .ok text
  /-- It passes its checks. -/
  passes : text ≠ "" → spec.check text = .ok ()

section Parameters

variable {spec : ParamSpec} {params params' : Params} {text route : String}
  {optional required behind : Bool}

theorem ParamSpec.MayWrite.congr (h : spec.MayWrite params text)
    (hsame : params'.get? spec.name = params.get? spec.name) : spec.MayWrite params' text := by
  refine ⟨?_, h.passes⟩
  rw [← h.resolves]
  unfold resolve
  rw [hsame]
  cases params.get? spec.name <;> rfl

/-- A text that passes its checks is written or left out; an empty one is left out or missing. -/
theorem ParamSpec.exists_emit (h : text ≠ "" → spec.check text = .ok ())
    (hneeds : optional = false → required = true → text ≠ "") :
    ∃ emission, spec.emit route text optional required behind = .ok emission := by
  rw [emit]
  by_cases hempty : text = ""
  · rw [if_pos (String.isEmpty_iff.mpr hempty)]
    cases optional with
    | true => exact ⟨_, rfl⟩
    | false =>
      cases required with
      | true => exact absurd hempty (hneeds rfl rfl)
      | false => exact ⟨_, rfl⟩
  · rw [if_neg (mt String.isEmpty_iff.mp hempty), h hempty]
    refine ⟨if optional && !behind && spec.default == some text then .skip else .text text, ?_⟩
    change ite _ _ _ = _
    split <;> rfl

end Parameters

/-- Whatever becomes of a parameter, its row goes on. -/
theorem Template.exists_fill_param {ctx : FillContext} {spec : ParamSpec} {params : Params}
    {rest : Template} {row : Filled} {text : String} {k : Nat} {optional required : Bool}
    (h : rest.fill ctx required params = .ok row) (hspec : ctx.specs[k]? = some spec)
    (hresolve : spec.resolve (ctx.output spec.name) row.params = .ok text)
    (hemit : ∃ emission,
      spec.emit ctx.route text optional required (!row.text.isEmpty) = .ok emission) :
    ∃ row', (param k optional rest).fill ctx required params = .ok row' ∧
      row'.params = row.params ∧ row'.used = row.used ++ [spec.name] := by
  obtain ⟨emission, hemit⟩ := hemit
  rw [fill, h]
  dsimp only [bind, Except.bind]
  rw [hspec]
  dsimp only
  cases row.missing with
  | true => exact ⟨_, rfl, rfl, rfl⟩
  | false =>
    rw [hresolve]
    dsimp only
    rw [hemit]
    cases emission <;> exact ⟨_, rfl, rfl, rfl⟩

namespace Schema

variable {s : Schema} {ctx : FillContext} {cctx : CompileContext} {k : Nat} {required : Bool}
  {params : Params}

/-- A row of the template can be written, and takes no other values than those of its own
parameters. -/
def CanFill (s : Schema) (ctx : FillContext) (k : Nat) (required : Bool) (params : Params) : Prop :=
  ∃ row, (s.template k).fill ctx required params = .ok row ∧
    row.used ⊆ s.params.map (·.name) ∧
    ∀ name ∉ s.params.map (·.name), row.params.get? name = params.get? name

section CanFill

variable {p : Parameter} {inner rest : Schema} {text : Parameter → String}

/-- In front of a row that can be written a parameter can be, with a text that may be written for
it: the parts behind have not taken its value. -/
theorem CanFill.param (h : rest.CanFill ctx (k + 1) required params)
    (hspec : ctx.specs[k]? = some (p.spec cctx)) (hnew : p.name ∉ rest.params.map (·.name))
    (hout : ctx.output p.name = none) {text : String} (hwrite : (p.spec cctx).MayWrite params text)
    (hneeds : p.optional = false → required = true → text ≠ "") :
    (Schema.param p rest).CanFill ctx k required params := by
  obtain ⟨row, hrow, hused, hothers⟩ := h
  have hown := hwrite.congr (hothers p.name hnew)
  have hresolve : (p.spec cctx).resolve (ctx.output p.name) row.params = .ok text :=
    hout ▸ hown.resolves
  obtain ⟨row', hrow', hparams, hused'⟩ := Template.exists_fill_param hrow hspec hresolve
    (ParamSpec.exists_emit hown.passes hneeds)
  refine ⟨row', hrow', ?_, fun name hname => ?_⟩
  · rw [hused']
    refine List.append_subset.mpr ⟨List.subset_cons_of_subset _ hused, fun n hn => ?_⟩
    exact List.mem_singleton.mp hn ▸ List.mem_cons_self
  · rw [hparams]
    exact hothers name fun hmem => hname (List.mem_cons_of_mem _ hmem)

/-- In front of a row that can be written a segment can be, with the values that the row has left. -/
theorem CanFill.segment (h : rest.CanFill ctx (k + inner.params.length) required params)
    (hinner : ∀ left : Params,
      (∀ name ∉ rest.params.map (·.name), left.get? name = params.get? name) →
        inner.CanFill ctx k false left) :
    (Schema.segment inner rest).CanFill ctx k required params := by
  obtain ⟨row, hrow, hused, hothers⟩ := h
  obtain ⟨inside, hinside, husedInner, hothersInner⟩ := hinner row.params hothers
  refine ⟨_, Template.fill_segment hrow hinside, ?_, fun name hname => ?_⟩
  · rw [Schema.params, List.map_append]
    exact List.subset_append_of_subset_right _ hused
  · rw [Schema.params, List.map_append, List.mem_append, not_or] at hname
    exact (Params.get?_eraseAll fun hmem => hname.1 (husedInner hmem)).trans
      ((hothersInner name hname.1).trans (hothers name hname.2))

/-- A parameter that is not optional is required, and so are those behind it. -/
theorem forall_required_param (h : ∀ q ∈ (Schema.param p rest).required, text q ≠ "") :
    (p.optional = false → text p ≠ "") ∧ ∀ q ∈ rest.required, text q ≠ "" := by
  rw [Schema.required] at h
  cases hopt : p.optional with
  | true =>
    rw [if_pos hopt] at h
    exact ⟨fun hno => Bool.noConfusion hno, h⟩
  | false =>
    rw [if_neg (Bool.eq_false_iff.mp hopt)] at h
    exact (List.forall_mem_cons.mp h).imp_left fun hp _ => hp

end CanFill

/-- **A row can be written** if each parameter has a text that may be written for it, and, where the
row is required, the required ones have one that is not empty. -/
theorem exists_fill (text : Parameter → String) (hspecs : s.specs cctx <+: ctx.specs.drop k)
    (hnodup : (s.params.map (·.name)).Nodup) (houtput : ∀ p ∈ s.params, ctx.output p.name = none)
    (hwrites : ∀ p ∈ s.params, (p.spec cctx).MayWrite params (text p))
    (hrequired : required = true → ∀ p ∈ s.required, text p ≠ "") :
    s.CanFill ctx k required params := by
  induction s generalizing k required params with
  | done => exact ⟨_, rfl, List.nil_subset _, fun _ _ => rfl⟩
  | literal head rest ih =>
    obtain ⟨row, hrow, hused, hothers⟩ := ih hspecs hnodup houtput hwrites hrequired
    exact ⟨_, Template.fill_literal hrow, hused, hothers⟩
  | param p rest ih =>
    obtain ⟨hspec, hspecs⟩ := getElem?_of_prefix hspecs
    obtain ⟨hnew, hnodup⟩ := List.nodup_cons.mp hnodup
    obtain ⟨hout, houtput⟩ := List.forall_mem_cons.mp houtput
    obtain ⟨hwrite, hwrites⟩ := List.forall_mem_cons.mp hwrites
    have hrest : rest.CanFill ctx (k + 1) required params :=
      ih hspecs hnodup houtput hwrites fun hr => (forall_required_param (hrequired hr)).2
    exact hrest.param hspec hnew hout hwrite fun hopt hr =>
      (forall_required_param (hrequired hr)).1 hopt
  | segment inner rest ih1 ih2 =>
    obtain ⟨hspecsInner, hspecs⟩ := specs_segment_prefix hspecs
    rw [Schema.params, List.map_append] at hnodup
    obtain ⟨hnodupInner, hnodup, hdisjoint⟩ := List.nodup_append.mp hnodup
    obtain ⟨houtputInner, houtput⟩ := List.forall_mem_append.mp houtput
    obtain ⟨hwritesInner, hwrites⟩ := List.forall_mem_append.mp hwrites
    refine (ih2 hspecs hnodup houtput hwrites hrequired).segment fun left hleft => ?_
    have hwritesLeft : ∀ p ∈ inner.params, (p.spec cctx).MayWrite left (text p) :=
      fun p hp => (hwritesInner p hp).congr <| hleft p.name fun hmem =>
        hdisjoint p.name (List.mem_map_of_mem hp) p.name hmem rfl
    -- nothing is required in a segment
    exact ih1 hspecsInner hnodupInner houtputInner hwritesLeft fun h => Bool.noConfusion h

/-- A schema can be written at a node without binders for its parameters. -/
theorem exists_fillSchema {t : Tree} {id : NodeId} {route : String} (text : Parameter → String)
    (hnodup : (s.params.map (·.name)).Nodup)
    (hbinders : ∀ p ∈ s.params, t.binderOut? id p.name = none)
    (hwrites : ∀ p ∈ s.params, (p.spec cctx).MayWrite params.given (text p))
    (hrequired : ∀ p ∈ s.required, text p ≠ "") :
    ∃ url left, t.fillSchema id route (s.compiled cctx) params = .ok (url, left) := by
  have hspecs : s.specs cctx <+: (FillContext.mk (t.binderOut? id) route (s.specs cctx)).specs.drop 0 :=
    List.prefix_refl _
  obtain ⟨row, hrow, -⟩ := exists_fill text hspecs hnodup hbinders hwrites fun _ => hrequired
  refine ⟨row.text, row.left, ?_⟩
  change ((s.template 0).fill ⟨t.binderOut? id, route, s.specs cctx⟩ true params.given >>= _) = _
  rw [hrow]
  rfl

end Schema

/-! ### The texts of clean values -/

/-- **A value whose text may be written** for a parameter. -/
structure ParamSpec.MayShow (spec : ParamSpec) (v : Value) : Prop where
  /-- It has a text. -/
  urlText : v.urlText spec.name = .ok (textOf v)
  /-- If it counts as not given, there is nothing else to be written. -/
  void : v.isVoid = true → textOf v = "" ∧ spec.default.getD "" = ""
  /-- The text passes its checks. -/
  passes : textOf v ≠ "" → spec.check (textOf v) = .ok ()

namespace Parameter

variable {p : Parameter} {ctx : CompileContext} {i : Nat} {trail : Trail} {v : Value} {x : String}

/-- The validator of a parameter accepts the texts of the parameter. -/
theorem accepts_of_mem_texts (hx : x.toList ∈ p.texts ctx) {val : Validator}
    (hval : (p.spec ctx).validator = some val) : val.accepts x = true := by
  obtain ⟨source, hsource, hof⟩ := Option.bind_eq_some_iff.mp hval
  refine (Validator.accepts_iff hof).mpr ?_
  rwa [texts, pattern, hsource] at hx

/-- **The text of a parameter without a type may be shown**: it was captured, or it is the default.
-/
theorem mayShow_of_text (hx : (p.spec ctx).textOf? i trail = some x)
    (htype : (p.spec ctx).type = none)
    (htext : ∀ x ∈ trail.text? (captureName i), x.toList ∈ p.texts ctx)
    (hdefault : ∀ d ∈ p.default, (p.spec ctx).check d = .ok ()) :
    (p.spec ctx).MayShow (.str x) := by
  refine ⟨rfl, fun hvoid => ?_, fun _ => ?_⟩
  · obtain rfl : x = "" := String.isEmpty_iff.mp hvoid
    rcases Option.or_eq_some_iff.mp hx with hcaptured | ⟨-, hd⟩
    · cases (Option.filter_eq_some_iff.mp hcaptured).2
    · exact ⟨rfl, congrArg (·.getD "") hd⟩
  · rcases Option.or_eq_some_iff.mp hx with hcaptured | ⟨-, hd⟩
    · refine ParamSpec.check_eq_ok_iff.mpr ⟨fun t ht => ?_, fun val hval => ?_⟩
      · rw [htype] at ht
        cases ht
      · exact accepts_of_mem_texts (htext x (Option.filter_eq_some_iff.mp hcaptured).1) hval
    · exact hdefault x hd

/-- **The value of a parameter with a type may be shown**, if its text passes a validator that
stands beside the type. -/
theorem mayShow_of_coerce {τ : ParamType} (hcoerce : τ.coerce? x = some v)
    (htype : (p.spec ctx).type = some τ)
    (hcanonical : ∀ τ ∈ (p.spec ctx).type, ∀ val ∈ (p.spec ctx).validator,
      val.source ≠ τ.pattern → v.isNull = false → val.accepts (textOf v) = true) :
    (p.spec ctx).MayShow v := by
  have hholds := ParamType.holds_of_coerce? hcoerce
  have hnull : v.isNull = false := by
    cases v <;> first | rfl | cases τ <;> exact hholds.elim
  refine ⟨hholds.urlText p.name, fun hvoid => ?_, fun _ => ?_⟩
  · rw [hholds.isVoid_eq_false] at hvoid
    cases hvoid
  · refine ParamSpec.check_eq_ok_iff.mpr ⟨fun t ht => hholds.accepts t (htype ▸ ht),
      fun val hval => ?_⟩
    by_cases hown : val.source = τ.pattern
    · exact (Validator.accepts_iff (source_of_validator hval)).mpr (hown ▸ hholds.mem_wholeTexts)
    · exact hcanonical τ htype val hval hown hnull

/-- **The clean value of a parameter may be shown**, if what was captured for it is one of its texts,
its default passes its checks, and so does the text of the value where a validator stands beside a
type. -/
theorem mayShow_of_clean (hv : (p.spec ctx).clean? ((p.spec ctx).textOf? i trail) = some v)
    (htext : ∀ x ∈ trail.text? (captureName i), x.toList ∈ p.texts ctx)
    (hdefault : ∀ d ∈ p.default, (p.spec ctx).check d = .ok ())
    (hcanonical : ∀ τ ∈ (p.spec ctx).type, ∀ val ∈ (p.spec ctx).validator,
      val.source ≠ τ.pattern → v.isNull = false → val.accepts (textOf v) = true) :
    (p.spec ctx).MayShow v := by
  cases hx : (p.spec ctx).textOf? i trail with
  | none =>
    rw [hx] at hv
    obtain rfl : Value.null = v := Option.some.inj hv
    have hnone : p.default = none := (Option.or_eq_none_iff.mp hx).2
    exact ⟨rfl, fun _ => ⟨rfl, congrArg (·.getD "") hnone⟩, fun hne => absurd rfl hne⟩
  | some x =>
    rw [hx] at hv
    unfold ParamSpec.clean? at hv
    cases htype : (p.spec ctx).type with
    | none =>
      rw [htype] at hv
      obtain rfl : Value.str x = v := Option.some.inj hv
      exact mayShow_of_text hx htype htext hdefault
    | some τ =>
      rw [htype] at hv
      exact mayShow_of_coerce hv htype hcanonical

end Parameter

/-! ### Captures and clean values -/

namespace Schema

variable {s : Schema} {ctx : CompileContext} {x : List Char} {texts : List (Option String)}

theorem getElem?_behind {α : Type} (front : List α) (l : List α) (i : Nat) :
    (front ++ l)[front.length + i]? = l[i]? := by
  rw [List.getElem?_append_right (Nat.le_add_right ..), Nat.add_sub_cancel_left]

/-- **A required parameter has a text** in every split. -/
theorem Splits.exists_text (h : s.Splits ctx x texts) :
    ∀ p ∈ s.required, ∃ (i : Nat) (t : String), s.params[i]? = some p ∧ texts[i]? = some (some t) := by
  induction h with
  | done => exact nofun
  | literal _ ih => exact ih
  | @param p rest t y texts htext _ ih =>
    have hshift : ∀ q ∈ rest.required, ∃ (i : Nat) (u : String),
        (Schema.param p rest).params[i]? = some q ∧ (some t :: texts)[i]? = some (some u) := by
      intro q hq
      obtain ⟨i, u, hi, hu⟩ := ih q hq
      exact ⟨i + 1, u, hi, hu⟩
    rw [required]
    split
    · exact hshift
    · exact List.forall_mem_cons.mpr ⟨⟨0, t, rfl, rfl⟩, hshift⟩
  | @noParam p rest y texts hopt _ ih =>
    rw [required, if_pos hopt]
    intro q hq
    obtain ⟨i, u, hi, hu⟩ := ih q hq
    exact ⟨i + 1, u, hi, hu⟩
  | @segment inner rest x y texts texts' hinside _ _ ih =>
    intro q hq
    obtain ⟨i, u, hi, hu⟩ := ih q hq
    refine ⟨inner.params.length + i, u, (getElem?_behind _ _ i).trans hi, ?_⟩
    rw [hinside.texts_mem.length_eq]
    exact (getElem?_behind _ _ i).trans hu
  | @noSegment inner rest y texts _ ih =>
    intro q hq
    obtain ⟨i, u, hi, hu⟩ := ih q hq
    refine ⟨inner.params.length + i, u, (getElem?_behind _ _ i).trans hi, ?_⟩
    have hbehind := getElem?_behind (List.replicate inner.params.length none) texts i
    rw [List.length_replicate] at hbehind
    exact hbehind.trans hu

end Schema

/-- Values that count as not given are not found among the given ones. -/
theorem Params.get?_given_of_isVoid {p : Params} {name : String} {v : Value} (hnodup : p.names.Nodup)
    (h : p.get? name = some v) (hv : v.isVoid = true) : p.given.get? name = none := by
  rw [get?_eq_none_iff]
  intro hmem
  obtain ⟨⟨n, w⟩, he, rfl⟩ := List.mem_map.mp hmem
  obtain ⟨he, hgiven⟩ := List.mem_filter.mp he
  obtain rfl : v = w := Option.some.inj (h.symm.trans ((get?_eq_some_iff hnodup).mpr he))
  dsimp only at hgiven
  rw [hv] at hgiven
  cases hgiven

/-- What may be shown may be written, whether it is given or not. -/
theorem ParamSpec.MayShow.mayWrite {spec : ParamSpec} {v : Value} {params : Params}
    (h : spec.MayShow v) (hnodup : params.names.Nodup) (hv : params.get? spec.name = some v) :
    spec.MayWrite params.given (textOf v) := by
  refine ⟨?_, h.passes⟩
  unfold resolve
  cases hvoid : v.isVoid with
  | true =>
    obtain ⟨hempty, hdefault⟩ := h.void hvoid
    rw [Params.get?_given_of_isVoid hnodup hv hvoid, hempty]
    exact congrArg Except.ok hdefault
  | false =>
    rw [Params.get?_given hv hvoid]
    exact h.urlText

/-- A text that is not empty does not become a value with an empty one. -/
theorem ParamSpec.textOf_ne_empty {spec : ParamSpec} {x : String} {v : Value} (hx : x ≠ "")
    (hv : spec.clean? (some x) = some v) : textOf v ≠ "" := by
  unfold clean? at hv
  split at hv
  · next heq => cases heq
  · next text heq _ =>
    cases heq
    cases hv
    exact hx
  · next text τ heq _ =>
    cases heq
    exact (ParamType.holds_of_coerce? hv).textOf_ne_empty

/-! ### Paths -/

namespace Schema

variable {s : Schema} {ctx : CompileContext} {trail : Trail}

theorem getElem?_texts (trail : Trail) {i n : Nat} (hi : i < n) :
    (trail.texts 0 n)[i]? = some (trail.text? (captureName i)) := by
  rw [Trail.texts, List.getElem?_map, List.getElem?_range' hi, Nat.one_mul, Nat.zero_add]
  rfl

theorem Splits.mem_texts {x : List Char} {texts : List (Option String)} (h : s.Splits ctx x texts)
    {i : Nat} {p : Parameter} {z : String} (hp : s.params[i]? = some p)
    (hz : texts[i]? = some (some z)) : z.toList ∈ p.texts ctx := by
  obtain ⟨hi, hp⟩ := List.getElem?_eq_some_iff.mp hp
  obtain ⟨hi', hz⟩ := List.getElem?_eq_some_iff.mp hz
  have hall := (List.forall₂_iff_get.mp h.texts_mem).2 i hi hi'
  rw [List.get_eq_getElem, List.get_eq_getElem, hp, hz] at hall
  exact hall z rfl

/-- **The captures of a match split the path**, if the patterns read alone. -/
theorem splits_of_captures {path : String} {r : Regex} (h : ∀ p ∈ s.params, p.ReadsAlone ctx)
    (hr : Regex.compile? (s.compiled ctx).whole = some r) (htrail : r.captures? path = some trail) :
    s.Splits ctx path.toList (trail.texts 0 s.params.length) := by
  obtain ⟨e, hread, hnames, hfind⟩ := whole_traces fun p hp => (h p hp).standsAlone
  obtain ⟨rfl, hnodup⟩ := Regex.of_compile?_eq_some hread hr
  rw [Regex.captures?, hfind] at htrail
  obtain ⟨w, hw, rfl⟩ := Option.map_eq_some_iff.mp htrail
  obtain ⟨x, hx, hsplits⟩ := splits_of_readsAlone h (hnames ▸ hnodup) (List.mem_of_find?_eq_some hw)
  rwa [← hx.eq_of_isWhole (List.find?_some hw)] at hsplits

/-- **A path has been read**: the captures split it, and each parameter has the clean value of what
was captured for it. -/
structure HasRead (s : Schema) (ctx : CompileContext) (path : String) (trail : Trail)
    (clean : Params) : Prop where
  /-- The captures split the path. -/
  splits : s.Splits ctx path.toList (trail.texts 0 s.params.length)
  /-- Each parameter has one value. -/
  nodup : clean.names.Nodup
  /-- It is the clean value of its text. -/
  value : ∀ {i : Nat} {p : Parameter}, s.params[i]? = some p →
    ∃ v, (p.spec ctx).clean? ((p.spec ctx).textOf? i trail) = some v ∧ clean.get? p.name = some v

/-- A match with clean values has read its path, if the patterns read alone. -/
theorem hasRead_of_clean? {path : String} {r : Regex} {clean : Params}
    (halone : ∀ p ∈ s.params, p.ReadsAlone ctx) (hnodup : (s.params.map (·.name)).Nodup)
    (hr : Regex.compile? (s.compiled ctx).whole = some r) (htrail : r.captures? path = some trail)
    (hclean : (s.compiled ctx).clean? trail = some clean) : s.HasRead ctx path trail clean := by
  have hnames : (s.compiled ctx).params.map (·.name) = s.params.map (·.name) := s.names_specs ctx
  obtain ⟨hclean, -, hvalues⟩ :=
    cleanFrom?_values hclean (hnames ▸ hnodup) fun _ _ => List.not_mem_nil
  refine ⟨splits_of_captures halone hr htrail, ?_, fun {i p} hi => ?_⟩
  · rw [hclean, hnames]
    exact hnodup
  · have hspec : (s.compiled ctx).params[i]? = some (p.spec ctx) := by
      change (s.params.map _)[i]? = _
      rw [List.getElem?_map, hi]
      rfl
    obtain ⟨v, hv, hget⟩ := hvalues i _ hspec
    rw [Nat.zero_add] at hv
    exact ⟨v, hv, hget⟩

namespace HasRead

variable {path : String} {clean : Params} {i : Nat} {p : Parameter}

/-- What was captured for a parameter is one of its texts. -/
theorem mem_texts (h : s.HasRead ctx path trail clean) (hi : s.params[i]? = some p) :
    ∀ z ∈ trail.text? (captureName i), z.toList ∈ p.texts ctx := by
  intro z hz
  have hget := getElem?_texts trail (List.getElem?_eq_some_iff.mp hi).1
  rw [show trail.text? (captureName i) = some z from hz] at hget
  exact h.splits.mem_texts hi hget

/-- The clean value of a parameter may be written, if its default passes its checks and a validator
beside its type accepts the canonical text of the value. -/
theorem mayWrite (h : s.HasRead ctx path trail clean) (hp : p ∈ s.params)
    (hdefault : ∀ d ∈ p.default, (p.spec ctx).check d = .ok ())
    (hcanonical : ∀ τ ∈ (p.spec ctx).type, ∀ val ∈ (p.spec ctx).validator,
      val.source ≠ τ.pattern → ∀ v, clean.get? p.name = some v → v.isNull = false →
        val.accepts (textOf v) = true) :
    (p.spec ctx).MayWrite clean.given (textOf (clean.orNull p.name)) := by
  obtain ⟨i, hi⟩ := List.mem_iff_getElem?.mp hp
  obtain ⟨v, hv, hget⟩ := h.value hi
  have hshow : (p.spec ctx).MayShow v :=
    Parameter.mayShow_of_clean hv (h.mem_texts hi) hdefault fun τ hτ val hval hown =>
      hcanonical τ hτ val hval hown v hget
  rw [Params.orNull_of_get? hget]
  exact hshow.mayWrite h.nodup hget

/-- A required parameter has a value with a text, if it does not match the empty text: it has
captured one. -/
theorem textOf_ne_empty (h : s.HasRead ctx path trail clean) (hp : p ∈ s.required)
    (hempty : [] ∉ p.texts ctx) : textOf (clean.orNull p.name) ≠ "" := by
  obtain ⟨i, z, hi, hz⟩ := h.splits.exists_text p hp
  have hne : z ≠ "" := by
    rintro rfl
    have hmem := h.splits.mem_texts hi hz
    rw [String.toList_empty] at hmem
    exact hempty hmem
  rw [getElem?_texts trail (List.getElem?_eq_some_iff.mp hi).1] at hz
  have htext : (p.spec ctx).textOf? i trail = some z := by
    rw [ParamSpec.textOf?, Option.some.inj hz, Option.filter_some, if_pos (by simp [hne]),
      Option.some_or]
  obtain ⟨v, hv, hget⟩ := h.value hi
  rw [htext] at hv
  rw [Params.orNull_of_get? hget]
  exact ParamSpec.textOf_ne_empty hne hv

end HasRead

theorem mem_params_of_required : ∀ p ∈ s.required, p ∈ s.params := by
  induction s with
  | done => exact fun p hp => hp
  | literal _ _ ih => exact ih
  | param q rest ih =>
    rw [required]
    split
    · exact fun p hp => List.mem_cons_of_mem q (ih p hp)
    · refine List.forall_mem_cons.mpr ⟨List.mem_cons_self, fun p hp => ?_⟩
      exact List.mem_cons_of_mem q (ih p hp)
  | segment inner rest _ ih => exact fun p hp => List.mem_append_right _ (ih p hp)

end Schema

/-- **What was matched can be written.** A schema whose expression compiles, whose patterns read
alone and do not match the empty text, and whose defaults pass the checks of their parameters, can be
filled with the clean values of every path it matches, at every node without binders for its
parameters; where a validator of its own stands beside a type, it has to accept the canonical text of
the value. -/
theorem CompiledSchema.fill_of_match {text path route : String} {ctx : CompileContext}
    {c : CompiledSchema} {r : Regex} {trail : Trail} {clean : Params} {t : Tree} {id : NodeId}
    (hc : ofText text ctx = .ok c)
    (halone : ∀ spec ∈ c.params, Pattern.ReadsAlone spec.pattern)
    (hempty : ∀ spec ∈ c.params, [] ∉ wholeTexts spec.pattern)
    (hdefault : ∀ spec ∈ c.params, ∀ d ∈ spec.default, spec.check d = .ok ())
    (hr : Regex.compile? c.whole = some r) (htrail : r.captures? path = some trail)
    (hclean : c.clean? trail = some clean)
    (hcanonical : ∀ spec ∈ c.params, ∀ τ ∈ spec.type, ∀ val ∈ spec.validator,
      val.source ≠ τ.pattern → ∀ v, clean.get? spec.name = some v → v.isNull = false →
        val.accepts (textOf v) = true)
    (hbinders : ∀ spec ∈ c.params, t.binderOut? id spec.name = none) :
    ∃ url left, t.fillSchema id route c clean = .ok (url, left) := by
  obtain ⟨s, -, hresolve, rfl⟩ := ofText_eq_ok_iff.mp hc
  have hspec (p : Parameter) (hp : p ∈ s.params) : p.spec ctx ∈ (s.compiled ctx).params :=
    List.mem_map_of_mem hp
  have hread : s.HasRead ctx path trail clean :=
    Schema.hasRead_of_clean? (fun p hp => halone (p.spec ctx) (hspec p hp)) hresolve.nodup hr
      htrail hclean
  have hwrite : ∀ p ∈ s.params,
      (p.spec ctx).MayWrite clean.given (textOf (clean.orNull p.name)) :=
    fun p hp => hread.mayWrite hp (hdefault (p.spec ctx) (hspec p hp))
      (hcanonical (p.spec ctx) (hspec p hp))
  have hrequired : ∀ p ∈ s.required, textOf (clean.orNull p.name) ≠ "" := fun p hp =>
    hread.textOf_ne_empty hp (hempty (p.spec ctx) (hspec p (Schema.mem_params_of_required p hp)))
  exact Schema.exists_fillSchema (fun p => textOf (clean.orNull p.name)) hresolve.nodup
    (fun p hp => hbinders _ (hspec p hp)) hwrite hrequired

/-- A pattern does not match the empty text if the validator with its text refuses that. -/
theorem Validator.nil_not_mem_wholeTexts {source : String}
    (hsome : (Validator.ofSource? source).isSome = true)
    (h : (Validator.ofSource? source).any (·.accepts "") = false) : [] ∉ wholeTexts source := by
  obtain ⟨v, hv⟩ := Option.isSome_iff_exists.mp hsome
  rw [hv, Option.any_some] at h
  have hiff : v.accepts "" = true ↔ "".toList ∈ wholeTexts source := Validator.accepts_iff hv
  rw [String.toList_empty, h] at hiff
  exact fun hmem => Bool.false_ne_true (hiff.mpr hmem)

/-- A number, with a validator beside its type. -/
def checkedNumber : CompiledSchema where
  fragment := "/(?P<p0>[0-9]+?)"
  params := [⟨"id", none, some .int, Validator.ofSource? "[0-9]+?", "[0-9]+?"⟩]
  template := .literal "/" (.param 0 false .done)

/-- A number with a zero in front is matched, and can be written without it. -/
theorem CompiledSchema.fill_of_match_number : ∃ r trail url left,
    ofText "/\x7bid#int|[0-9]+\x7d" {} = .ok checkedNumber ∧
      Regex.compile? checkedNumber.whole = some r ∧ r.captures? "/07" = some trail ∧
      checkedNumber.clean? trail = some ⟨[("id", .int 7)]⟩ ∧
      Tree.empty.fillSchema Tree.root "number" checkedNumber ⟨[("id", .int 7)]⟩ =
        .ok (url, left) := by
  have hdigits : (Validator.ofSource? "[0-9]+?").isSome = true := by cbv
  have hrefuses : (Validator.ofSource? "[0-9]+?").any (·.accepts "") = false := by cbv
  have haccepts : (Validator.ofSource? "[0-9]+?").any (·.accepts "7") = true := by cbv
  have hc : ofText "/\x7bid#int|[0-9]+\x7d" {} = .ok checkedNumber := by cbv
  have hmatch : ((Regex.compile? checkedNumber.whole).bind (·.captures? "/07")).bind
      checkedNumber.clean? = some ⟨[("id", .int 7)]⟩ := by cbv
  obtain ⟨trail, htrail, hclean⟩ := Option.bind_eq_some_iff.mp hmatch
  obtain ⟨r, hr, htrail⟩ := Option.bind_eq_some_iff.mp htrail
  have hcanonical : ∀ spec ∈ checkedNumber.params, ∀ τ ∈ spec.type, ∀ val ∈ spec.validator,
      val.source ≠ τ.pattern → ∀ v, Params.get? ⟨[("id", .int 7)]⟩ spec.name = some v →
        v.isNull = false → val.accepts (textOf v) = true := by
    refine List.forall_mem_singleton.mpr fun τ _ val hval _ v hv _ => ?_
    obtain rfl : Value.int 7 = v := Option.some.inj hv
    have hval : Validator.ofSource? "[0-9]+?" = some val := hval
    rwa [hval] at haccepts
  have hbinder : Tree.empty.binderOut? Tree.root "id" = none := rfl
  have hdefault : ∀ spec ∈ checkedNumber.params, ∀ d ∈ spec.default, spec.check d = .ok () := by
    refine List.forall_mem_singleton.mpr fun d hd => ?_
    cases hd
  obtain ⟨url, left, hfill⟩ := fill_of_match hc
    (List.forall_mem_singleton.mpr (Pattern.readsAlone_of_isPlain rfl rfl))
    (List.forall_mem_singleton.mpr (Validator.nil_not_mem_wholeTexts hdigits hrefuses))
    hdefault hr htrail hclean hcanonical
    (List.forall_mem_singleton.mpr hbinder)
  exact ⟨r, trail, url, left, hc, hr, htrail, hclean, hfill⟩

/-- A truth value, with a validator beside its type. -/
def checkedTruth : CompiledSchema where
  fragment := "/(?P<p0>true)"
  params := [⟨"on", none, some .bool, Validator.ofSource? "true", "true"⟩]
  template := .literal "/" (.param 0 false .done)

/-- A letter that has to stand behind another one. -/
def behindLetter : CompiledSchema where
  fragment := "/a(?P<p0>\\Bb)"
  params := [⟨"x", none, none, Validator.ofSource? "\\Bb", "\\Bb"⟩]
  template := .literal "/a" (.param 0 false .done)

set_option maxRecDepth 4000 in
/-- A match need not be written. The validator lets `true` through, and refuses `1`, which is what is
written for that value. And a letter that stands inside of a word in the path does not do so by
itself. -/
theorem CompiledSchema.matched_not_filled :
    (ofText "/\x7bon#bool|true\x7d" {} = .ok checkedTruth ∧
      [] ∉ wholeTexts "true" ∧
      ((Regex.compile? checkedTruth.whole).bind (·.captures? "/true")).bind checkedTruth.clean? =
        some ⟨[("on", .bool true)]⟩ ∧
      Tree.empty.fillSchema Tree.root "on" checkedTruth ⟨[("on", .bool true)]⟩ =
        .error (.paramValidationFailed "on" "1" "true")) ∧
    ofText "/a\x7bx|\\Bb\x7d" {} = .ok behindLetter ∧
      [] ∉ wholeTexts "\\Bb" ∧
      ((Regex.compile? behindLetter.whole).bind (·.captures? "/ab")).bind behindLetter.clean? =
        some ⟨[("x", .str "b")]⟩ ∧
      Tree.empty.fillSchema Tree.root "x" behindLetter ⟨[("x", .str "b")]⟩ =
        .error (.paramValidationFailed "x" "b" "\\Bb") := by
  refine ⟨⟨by cbv, ?_, by cbv, by cbv⟩, by cbv, ?_, by cbv, by cbv⟩
  · exact Validator.nil_not_mem_wholeTexts (by cbv) (by cbv)
  · exact Validator.nil_not_mem_wholeTexts (by cbv) (by cbv)

end UrlRouting
