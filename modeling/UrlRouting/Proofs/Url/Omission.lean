import Mathlib
import UrlRouting.Proofs.Url.Accounts
import UrlRouting.Proofs.Url.Matched
import UrlRouting.Proofs.Url.Written

/-!
# What is left out of a url

Without binders, each parameter has a text by itself, or none: that of the value given for it, or
else its default (`UrlRouting.Parameter.ownText?`). What becomes of a schema can then be told from
these texts, although it is written from the right to the left with a flag for what is missing, and
the values are used up on the way.

A schema is written unless it lacks something, that is, unless a parameter that is neither optional
nor in a segment has no text, and the rightmost one is reported. In a schema that is written, a
segment is dropped if it lacks something itself or has nothing to show, and everything around it
stays (`UrlRouting.Tree.fillSchema_outcome`).

Optional parameters are left out where they have their default and nothing to their right *in their
row* has been written (`UrlRouting.Tree.default_left_out_iff`). What stands behind the segment they
are in makes no difference, so that a separator can be left over
(`UrlRouting.Tree.default_left_out_before_text`).
-/

namespace UrlRouting

/-! ### Texts of values -/

theorem Decimal.Layout.text_ne_nil (layout : Layout) (x : Scaled) : layout.text x ≠ [] := by
  unfold text
  dsimp only
  split_ifs
  · simp
  · simp
  · simp
  all_goals
    split
    · exact List.cons_ne_nil _ _
    · simp

theorem Binary64.text_ne_empty (x : Binary64) : x.text ≠ "" := by
  have hmagnitude := Decimal.Layout.text_ne_nil Decimal.plain x.shortest
  rw [text, Ne, String.ofList_eq_empty_iff]
  split
  · exact List.cons_ne_nil _ _
  · exact hmagnitude

/-- A value that counts as given has a text that is not empty, if it has one. -/
theorem Value.urlText_ne_empty {v : Value} {name text : String} (hv : v.isVoid = false)
    (h : v.urlText name = .ok text) : text ≠ "" := by
  cases v with
  | null => cases hv
  | bool b => cases h; cases b <;> decide
  | int n => cases h; exact Decimal.toString_ne_empty n
  | double x => cases h; exact x.text_ne_empty
  | str s => cases h; exact mt String.isEmpty_iff.mpr (Bool.eq_false_iff.mp hv)
  | arr items => cases h
  | obj fields => cases h

/-! ### Texts of parameters -/

/-- **The text that a parameter has by itself**: that of the value given for it, or else its
default. -/
def Parameter.ownText? (p : Parameter) (params : Params) : Option String :=
  match params.given.get? p.name with
  | some v => (v.urlText p.name).toOption
  | none => p.default.filter (· ≠ "")

/-- What is written for a parameter with such a text, in front of what its row goes on with. Its
default is left out where nothing follows. -/
def Parameter.contribution (p : Parameter) (text? : Option String) (behind : String) : String :=
  if p.optional = true ∧ behind = "" ∧ p.default = text? then "" else text?.getD ""

/-- **The parameters that a row lacks a text for**, from the left to the right. -/
def Schema.lacking (s : Schema) (params : Params) : List Parameter :=
  s.required.filter fun p => (p.ownText? params).isNone

/-- **A parameter whose texts pass its checks**: that of the value given for it, which has one, and
its default. -/
structure Parameter.Passes (p : Parameter) (ctx : CompileContext) (params : Params) : Prop where
  /-- The text of the value. -/
  value : ∀ v, params.given.get? p.name = some v →
    ∃ text, v.urlText p.name = .ok text ∧ (p.spec ctx).check text = .ok ()
  /-- The default. -/
  default : ∀ d ∈ p.default, d ≠ "" → (p.spec ctx).check d = .ok ()

namespace Parameter

variable {p : Parameter} {ctx : CompileContext} {params params' : Params} {text : String}

theorem ownText?_ne_empty (h : p.ownText? params = some text) : text ≠ "" := by
  unfold ownText? at h
  split at h
  · next v hv =>
    have hgiven := List.of_mem_filter (Params.mem_entries_of_get? hv)
    have hvoid : v.isVoid = false := Bool.not_eq_true' v.isVoid ▸ hgiven
    cases htext : v.urlText p.name with
    | ok t =>
      rw [htext] at h
      exact Option.some.inj h ▸ v.urlText_ne_empty hvoid htext
    | error e =>
      rw [htext] at h
      cases h
  · exact of_decide_eq_true (Option.filter_eq_some_iff.mp h).2

theorem getD_filter_ne_empty (d : Option String) : (d.filter (· ≠ "")).getD "" = d.getD "" := by
  cases d with
  | none => rfl
  | some x =>
    rw [Option.filter_some]
    by_cases hx : x = "" <;> simp [hx]

/-- Without a binder, a parameter is resolved to the text it has by itself. -/
theorem eq_of_resolve (hsame : params'.get? p.name = params.given.get? p.name)
    (h : (p.spec ctx).resolve none params' = .ok text) : text = (p.ownText? params).getD "" := by
  have hname : params'.get? (p.spec ctx).name = params.given.get? p.name := hsame
  unfold ParamSpec.resolve at h
  rw [hname] at h
  rw [ownText?]
  cases hv : params.given.get? p.name with
  | some v =>
    rw [hv] at h
    have htext : v.urlText p.name = .ok text := h
    dsimp only
    rw [htext]
    rfl
  | none =>
    rw [hv] at h
    exact (Except.ok.inj h).symm.trans (getD_filter_ne_empty p.default).symm

/-- What passes its checks may be written. -/
theorem Passes.mayWrite (h : p.Passes ctx params) :
    (p.spec ctx).MayWrite params.given ((p.ownText? params).getD "") := by
  rw [ownText?]
  cases hv : params.given.get? p.name with
  | some v =>
    obtain ⟨text, htext, hcheck⟩ := h.value v hv
    have hresolve : (p.spec ctx).resolve none params.given = .ok text :=
      ParamSpec.resolve_eq_ok hv rfl htext
    dsimp only
    rw [htext]
    exact ⟨hresolve, fun _ => hcheck⟩
  | none =>
    dsimp only
    rw [getD_filter_ne_empty]
    refine ⟨?_, fun hne => ?_⟩
    · have hname : params.given.get? (p.spec ctx).name = none := hv
      unfold ParamSpec.resolve
      rw [hname]
      rfl
    · cases hd : p.default with
      | none => exact absurd (congrArg (Option.getD · "") hd) hne
      | some d =>
        rw [hd] at hne
        exact h.default d hd hne

end Parameter

/-- **What becomes of a parameter with a text.** -/
theorem ParamSpec.emit_eq_ok {spec : ParamSpec} {route text : String}
    {optional required behind : Bool} {emission : Emission}
    (h : spec.emit route text optional required behind = .ok emission) :
    (emission = .missing ↔ optional = false ∧ text = "") ∧
      emission.written =
        if optional = true ∧ behind = false ∧ spec.default = some text then "" else text := by
  rw [emit] at h
  -- an empty text is never checked, and its default does not matter
  by_cases hempty : text = ""
  · rw [if_pos (String.isEmpty_iff.mpr hempty)] at h
    subst hempty
    cases optional with
    | true => cases h; simp [Emission.written]
    | false =>
      cases required with
      | true => cases h
      | false => cases h; simp [Emission.written]
  · rw [if_neg (mt String.isEmpty_iff.mp hempty)] at h
    obtain ⟨-, -, h⟩ := Schema.bind_eq_ok_iff.mp h
    split at h
    · next hskip =>
      cases h
      simp only [Bool.and_eq_true, Bool.not_eq_true', beq_iff_eq, and_assoc] at hskip
      rw [if_pos hskip]
      simp [Emission.written, hempty]
    · next hskip =>
      cases h
      simp only [Bool.and_eq_true, Bool.not_eq_true', beq_iff_eq, and_assoc] at hskip
      rw [if_neg hskip]
      simp [Emission.written, hempty]

/-- A parameter without a text stops a row that must not lack anything. -/
theorem Template.fill_param_error {ctx : FillContext} {spec : ParamSpec} {rest : Template}
    {params : Params} {row : Filled} {k : Nat} (h : rest.fill ctx true params = .ok row)
    (hspec : ctx.specs[k]? = some spec) (hwhole : row.missing = false)
    (hresolve : spec.resolve (ctx.output spec.name) row.params = .ok "") :
    (param k false rest).fill ctx true params =
      .error (.missingRequiredParameter spec.name ctx.route) := by
  rw [fill, h]
  dsimp only [bind, Except.bind]
  rw [hspec]
  dsimp only
  rw [hwhole, hresolve]
  rfl

/-! ### Rows -/

/-- **A row that is written from some values**: its parameters have distinct names and no binders,
and their values are still there. -/
structure Schema.Sees (s : Schema) (ctx : FillContext) (start params : Params) : Prop where
  /-- The names are distinct. -/
  nodup : (s.params.map (·.name)).Nodup
  /-- There are no binders. -/
  output : ∀ p ∈ s.params, ctx.output p.name = none
  /-- The values are there. -/
  get? : ∀ p ∈ s.params, params.get? p.name = start.given.get? p.name

namespace Schema

variable {s rest inner : Schema} {ctx : FillContext} {cctx : CompileContext} {k : Nat}
  {required : Bool} {start params : Params} {row : Filled} {a b : Account} {p : Parameter}
  {emission : Emission} {written : String}

/-- The values of other names are not taken. -/
theorem Writes.get?_eq (h : s.Writes ctx cctx required params row a) {name : String}
    (hname : name ∉ s.params.map (·.name)) : row.params.get? name = params.get? name := by
  obtain ⟨erased, hparams, hnames⟩ := h.names
  rw [hparams]
  exact Params.get?_eraseAll fun hmem => hname ((hnames name).mp (List.mem_append_left _ hmem))

namespace Sees

theorem behind_literal {text : String} (h : (literal text rest).Sees ctx start params) :
    rest.Sees ctx start params := ⟨h.nodup, h.output, h.get?⟩

theorem behind_param (h : (param p rest).Sees ctx start params) : rest.Sees ctx start params :=
  ⟨(List.nodup_cons.mp h.nodup).2, fun q hq => h.output q (List.mem_cons_of_mem _ hq),
    fun q hq => h.get? q (List.mem_cons_of_mem _ hq)⟩

theorem behind_segment (h : (segment inner rest).Sees ctx start params) :
    rest.Sees ctx start params := by
  obtain ⟨hnodup, houtput, hget⟩ := h
  rw [Schema.params, List.map_append] at hnodup
  exact ⟨(List.nodup_append.mp hnodup).2.1, fun q hq => houtput q (List.mem_append_right _ hq),
    fun q hq => hget q (List.mem_append_right _ hq)⟩

/-- The row behind a segment has not taken the values of the segment. -/
theorem inside (h : (segment inner rest).Sees ctx start params)
    (hrest : rest.Writes ctx cctx required params row a) : inner.Sees ctx start row.params := by
  obtain ⟨hnodup, houtput, hget⟩ := h
  rw [Schema.params, List.map_append] at hnodup
  obtain ⟨hinner, -, hdisjoint⟩ := List.nodup_append.mp hnodup
  refine ⟨hinner, fun q hq => houtput q (List.mem_append_left _ hq), fun q hq => ?_⟩
  rw [← hget q (List.mem_append_left _ hq)]
  exact hrest.get?_eq fun hmem => hdisjoint q.name (List.mem_map_of_mem hq) q.name hmem rfl

/-- The row behind a parameter has not taken its value. -/
theorem get?_behind (h : (param p rest).Sees ctx start params)
    (hrest : rest.Writes ctx cctx required params row a) :
    row.params.get? p.name = start.given.get? p.name :=
  (hrest.get?_eq (List.nodup_cons.mp h.nodup).1).trans (h.get? p List.mem_cons_self)

/-- **What becomes of a parameter**, where nothing is missing behind it: it is missing if it needs a
text and has none, and otherwise its contribution is written. -/
theorem becomes (h : (param p rest).Sees ctx start params)
    (hrest : rest.Writes ctx cctx required params row a) (hwhole : row.missing = false)
    (hbecomes : (p.spec cctx).Becomes ctx p.optional required row emission) :
    (emission = .missing ↔ p.optional = false ∧ p.ownText? start = none) ∧
      emission.written = p.contribution (p.ownText? start) row.text := by
  cases hbecomes with
  | passed missing => exact absurd (hwhole.symm.trans missing) Bool.false_ne_true
  | @resolved text _ _ resolve emit =>
    have hout : ctx.output (p.spec cctx).name = none := h.output p List.mem_cons_self
    rw [hout] at resolve
    obtain rfl := Parameter.eq_of_resolve (h.get?_behind hrest) resolve
    obtain ⟨hmissing, hwritten⟩ := ParamSpec.emit_eq_ok emit
    simp only [Bool.not_eq_false', String.isEmpty_iff] at hwritten
    have hdefault : (p.spec cctx).default = p.default := rfl
    rw [hmissing, hwritten, Parameter.contribution, hdefault]
    cases hown : p.ownText? start with
    | none => simp
    | some x => simp [Parameter.ownText?_ne_empty hown]

end Sees

/-! ### What is lacking -/

theorem lacking_param : (param p rest).lacking params =
    if p.optional = false ∧ p.ownText? params = none then p :: rest.lacking params
    else rest.lacking params := by
  rw [lacking, lacking, Schema.required]
  cases p.optional with
  | true => simp
  | false => cases hown : p.ownText? params <;> simp [hown]

/-- **A row is missing if it lacks something.** -/
theorem Writes.missing_eq_false_iff (h : s.Writes ctx cctx required params row a)
    (hsees : s.Sees ctx start params) : row.missing = false ↔ s.lacking start = [] := by
  induction h with
  | done => exact iff_of_true rfl rfl
  | literal _ ih => exact ih hsees.behind_literal
  | param behind becomes ih =>
    have hrest := ih hsees.behind_param
    rw [Filled.missing_put, lacking_param, hrest]
    -- what the parameter becomes is known only where nothing is missing behind it
    split
    · next hlacks =>
      refine iff_of_false (fun h => h.2 ?_) (List.cons_ne_nil _ _)
      exact (hsees.becomes behind (hrest.mpr h.1) becomes).1.mpr hlacks
    · next hlacks =>
      refine and_iff_left_of_imp fun h hmissing => hlacks ?_
      exact (hsees.becomes behind (hrest.mpr h) becomes).1.mp hmissing
  | segment behind _ ih _ => exact ih hsees.behind_segment

/-- In a row that must not lack anything, nothing is missing. -/
theorem Writes.missing_eq_false (h : s.Writes ctx cctx true params row a) : row.missing = false := by
  generalize hr : true = required at h
  induction h with
  | done => rfl
  | literal _ ih => exact ih hr
  | param _ becomes ih =>
    refine Filled.missing_put .. |>.mpr ⟨ih hr, ?_⟩
    rintro rfl
    subst hr
    cases becomes with
    | passed missing => exact Bool.false_ne_true ((ih rfl).symm.trans missing)
    | resolved _ _ emit => exact ParamSpec.emit_required emit
  | segment _ _ ih _ => exact ih hr

/-! ### Parts that can be seen -/

/-- **A part that can be seen is a row by itself**, and nothing is missing in it. -/
theorem Writes.of_shows {part : Account} (h : s.Writes ctx cctx required params row a)
    (hwhole : row.missing = false) (hsees : s.Sees ctx start params) (hshows : a.Shows part) :
    ∃ (s' : Schema) (required' : Bool) (params' : Params) (row' : Filled),
      s'.Writes ctx cctx required' params' row' part ∧ row'.missing = false ∧
        s'.Sees ctx start params' := by
  induction hshows generalizing s required params row with
  | here a => exact ⟨s, required, params, row, h, hwhole, hsees⟩
  | literal _ ih =>
    cases h with
    | literal behind => exact ih behind hwhole hsees.behind_literal
  | param _ ih =>
    cases h with
    | param behind _ => exact ih behind (Filled.missing_put .. |>.mp hwhole).1 hsees.behind_param
  | behind _ ih =>
    cases h with
    | segment behind _ => exact ih behind hwhole hsees.behind_segment
  | inside appears _ ih =>
    cases h with
    | @segment inner rest _ _ row inside _ _ behind within =>
      -- a segment in which something is missing has contributed nothing
      refine ih within ?_ (hsees.inside behind)
      rw [Filled.shown] at appears
      exact Bool.eq_false_iff.mpr fun hmissing => appears (if_pos hmissing)

/-- What a parameter has contributed. -/
theorem Writes.written_param (h : s.Writes ctx cctx required params row (.param p written a))
    (hwhole : row.missing = false) (hsees : s.Sees ctx start params) :
    written = p.contribution (p.ownText? start) a.text := by
  cases h with
  | param behind becomes =>
    rw [behind.text_eq]
    exact (hsees.becomes behind (Filled.missing_put .. |>.mp hwhole).1 becomes).2

/-- What a segment has contributed. -/
theorem Writes.written_segment (h : s.Writes ctx cctx required params row (.segment b written a))
    (hsees : s.Sees ctx start params) :
    written = if b.schema.lacking start = [] then b.text else "" := by
  cases h with
  | @segment _ _ _ _ _ inside _ _ behind within =>
    rw [within.schema_eq, within.text_eq, Filled.shown]
    simp only [← within.missing_eq_false_iff (hsees.inside behind)]
    cases inside.missing <;> rfl

/-! ### Rows that can be written -/

/-- **A row that lacks nothing can be written**, and so can one that may lack something. -/
theorem Sees.exists_fill (h : s.Sees ctx start params) (hspecs : s.specs cctx <+: ctx.specs.drop k)
    (hpasses : ∀ p ∈ s.params, p.Passes cctx start)
    (hlacks : required = true → s.lacking start = []) :
    ∃ row, (s.template k).fill ctx required params = .ok row := by
  have hwrites : ∀ p ∈ s.params, (p.spec cctx).MayWrite params ((p.ownText? start).getD "") :=
    fun p hp => (hpasses p hp).mayWrite.congr (h.get? p hp)
  have hrequired : required = true → ∀ p ∈ s.required, (p.ownText? start).getD "" ≠ "" := by
    intro hr p hp
    cases hown : p.ownText? start with
    | some x => exact Parameter.ownText?_ne_empty hown
    | none =>
      have hmem : p ∈ s.lacking start := List.mem_filter.mpr ⟨hp, by rw [hown]; rfl⟩
      rw [hlacks hr] at hmem
      exact absurd hmem List.not_mem_nil
  obtain ⟨row, hrow, -⟩ := Schema.exists_fill (fun p => (p.ownText? start).getD "") hspecs h.nodup
    h.output hwrites hrequired
  exact ⟨row, hrow⟩

/-- **A row that must not lack anything stops at the rightmost parameter that it lacks.** -/
theorem Sees.fill_eq_error (h : s.Sees ctx start params) (hspecs : s.specs cctx <+: ctx.specs.drop k)
    (hpasses : ∀ p ∈ s.params, p.Passes cctx start) (hlast : (s.lacking start).getLast? = some p) :
    (s.template k).fill ctx true params = .error (.missingRequiredParameter p.name ctx.route) := by
  induction s generalizing k with
  | done => cases hlast
  | literal text rest ih =>
    rw [template, Template.fill, ih h.behind_literal hspecs hpasses hlast]
    rfl
  | segment inner rest _ ih =>
    obtain ⟨-, hspecs⟩ := specs_segment_prefix hspecs
    have hrest := ih h.behind_segment hspecs (fun q hq => hpasses q (List.mem_append_right _ hq)) hlast
    rw [template, Template.fill, hrest]
    rfl
  | param q rest ih =>
    obtain ⟨hspec, hspecs⟩ := getElem?_of_prefix hspecs
    obtain ⟨hown, hpasses⟩ := List.forall_mem_cons.mp hpasses
    rw [lacking_param] at hlast
    by_cases hrest : rest.lacking start = []
    · -- it is this parameter, and the row behind it can be written
      rw [hrest] at hlast
      split at hlast
      · next hlacks =>
        obtain rfl : q = p := Option.some.inj hlast
        obtain ⟨row, hrow⟩ := h.behind_param.exists_fill hspecs hpasses fun (_ : true = true) => hrest
        obtain ⟨a, hwrites⟩ := (fill_eq_ok_iff hspecs).mp hrow
        have hwhole : row.missing = false :=
          (hwrites.missing_eq_false_iff h.behind_param).mpr hrest
        have hout : ctx.output (q.spec cctx).name = none := h.output q List.mem_cons_self
        have hresolve := (hown.mayWrite.congr (h.get?_behind hwrites)).resolves
        rw [hlacks.2, ← hout] at hresolve
        rw [template, hlacks.1]
        exact Template.fill_param_error hrow hspec hwhole hresolve
      · cases hlast
    · -- it is one behind it
      have hlast : (rest.lacking start).getLast? = some p := by
        split at hlast
        · rwa [List.getLast?_cons_of_ne_nil hrest] at hlast
        · exact hlast
      rw [template, Template.fill, ih h.behind_param hspecs hpasses hlast]
      rfl

end Schema

namespace Tree

variable {t : Tree} {id : NodeId} {route : String} {s : Schema} {ctx : CompileContext}
  {c : CompiledSchema} {params : Params}

/-- A schema is filled as its template is. -/
theorem fillSchema_eq_map : t.fillSchema id route (s.compiled ctx) params =
    ((s.template 0).fill ⟨t.binderOut? id, route, s.specs ctx⟩ true params.given).map
      fun row => (row.text, row.left) := rfl

/-- A schema at a node without binders for its parameters is written from the values that are
given. -/
theorem sees_fillSchema (hc : s.compile ctx = .ok c)
    (hbinders : ∀ p ∈ s.params, t.binderOut? id p.name = none) :
    s.Sees ⟨t.binderOut? id, route, s.specs ctx⟩ params params.given :=
  ⟨(Schema.compile_eq_ok_iff.mp hc).1.nodup, hbinders, fun _ _ => rfl⟩

/-- A schema that is written has an account, in which nothing is missing. -/
theorem exists_account {text : String} {left : Params} (hc : s.compile ctx = .ok c)
    (h : t.fillSchema id route c params = .ok (text, left)) :
    ∃ (row : Filled) (a : Account),
      s.Writes ⟨t.binderOut? id, route, s.specs ctx⟩ ctx true params.given row a ∧
        a.schema = s ∧ a.text = text := by
  obtain ⟨row, a, hwrites, htext, -⟩ := exists_writes hc h
  exact ⟨row, a, hwrites, hwrites.schema_eq, hwrites.text_eq.trans htext⟩

/-- **Which schemas are written, and what of them.** A schema without binders whose texts pass their
checks is written unless it lacks something, and then the rightmost parameter that it lacks is
reported. A segment contributes its text if it lacks nothing and has any, and nothing otherwise. -/
theorem fillSchema_outcome (hc : s.compile ctx = .ok c)
    (hbinders : ∀ p ∈ s.params, t.binderOut? id p.name = none)
    (hpasses : ∀ p ∈ s.params, p.Passes ctx params) :
    (∀ e, t.fillSchema id route c params = .error e ↔
      ∃ p, (s.lacking params).getLast? = some p ∧ e = .missingRequiredParameter p.name route) ∧
    ∀ text left, t.fillSchema id route c params = .ok (text, left) →
      ∃ (row : Filled) (a : Account),
        s.Writes ⟨t.binderOut? id, route, s.specs ctx⟩ ctx true params.given row a ∧
        a.schema = s ∧ a.text = text ∧
        (∀ inner written rest, a.Shows (.segment inner written rest) →
          (written ≠ "" ↔ inner.schema.lacking params = [] ∧ inner.text ≠ "") ∧
            (written ≠ "" → written = inner.text)) ∧
        ∀ p written rest, a.Shows (.param p written rest) →
          written = p.contribution (p.ownText? params) rest.text := by
  have hsees : s.Sees ⟨t.binderOut? id, route, s.specs ctx⟩ params params.given :=
    sees_fillSchema hc hbinders
  obtain ⟨-, rfl⟩ := Schema.compile_eq_ok_iff.mp hc
  refine ⟨fun e => ?_, fun text left h => ?_⟩
  · rw [fillSchema_eq_map]
    cases hlast : (s.lacking params).getLast? with
    | none =>
      obtain ⟨row, hrow⟩ := hsees.exists_fill (k := 0) (List.prefix_refl _) hpasses
        fun (_ : true = true) => List.getLast?_eq_none_iff.mp hlast
      rw [hrow]
      constructor
      · rintro ⟨⟩
      · rintro ⟨p, ⟨⟩, -⟩
    | some p =>
      rw [hsees.fill_eq_error (k := 0) (List.prefix_refl _) hpasses hlast]
      constructor
      · intro h
        exact ⟨p, rfl, (Except.error.inj h).symm⟩
      · rintro ⟨q, hq, rfl⟩
        rw [Option.some.inj hq]
        rfl
  · obtain ⟨row, a, hwrites, hschema, htext⟩ := exists_account hc h
    have hwhole := hwrites.missing_eq_false
    refine ⟨row, a, hwrites, hschema, htext, fun inner written rest hshows => ?_,
      fun p written rest hshows => ?_⟩
    · obtain ⟨_, _, _, _, hpart, -, hsees⟩ := hwrites.of_shows hwhole hsees hshows
      rw [hpart.written_segment hsees]
      split
      · next hlacks => simp [hlacks]
      · next hlacks => simp [hlacks]
    · obtain ⟨_, _, _, _, hpart, hwhole, hsees⟩ := hwrites.of_shows hwhole hsees hshows
      exact hpart.written_param hwhole hsees

/-- A page of a list in a language. -/
def listSchema : Schema :=
  .literal "/" <| .param ⟨"lang", none, none, none, false⟩ <|
    .segment (.literal "/" <| .param ⟨"id", none, some "int", none, false⟩ <|
      .segment (.literal "-" <| .param ⟨"tag", none, none, none, false⟩ .done) .done) .done

/-- Only the number of the page. -/
def onlyNumber : Params := ⟨[("id", .int 5)]⟩

/-- The number of the page and the language. -/
def numberInEnglish : Params := ⟨[("lang", .str "en"), ("id", .int 5)]⟩

theorem passes_listSchema (hlang : ∀ v, params.given.get? "lang" = some v → v = .str "en")
    (hid : ∀ v, params.given.get? "id" = some v → v = .int 5)
    (htag : params.given.get? "tag" = none) : ∀ p ∈ listSchema.params, p.Passes {} params := by
  refine List.forall_mem_cons.mpr ⟨⟨fun v hv => ?_, fun d hd => ?_⟩, List.forall_mem_cons.mpr
    ⟨⟨fun v hv => ?_, fun d hd => ?_⟩,
      List.forall_mem_singleton.mpr ⟨fun v hv => ?_, fun d hd => ?_⟩⟩⟩
  · obtain rfl := hlang v hv
    exact ⟨"en", rfl, rfl⟩
  · cases hd
  · obtain rfl := hid v hv
    exact ⟨"5", by cbv, by cbv⟩
  · cases hd
  · cases htag.symm.trans hv
  · cases hd

set_option maxRecDepth 4000 in
/-- Without a language there is no url; without a tag, only the segment of the tag is left out. -/
theorem fillSchema_outcome_list :
    listSchema.compile {} = .ok (listSchema.compiled {}) ∧
      (∀ p ∈ listSchema.params, empty.binderOut? root p.name = none) ∧
      (∀ p ∈ listSchema.params, p.Passes {} onlyNumber) ∧
      empty.fillSchema root "list" (listSchema.compiled {}) onlyNumber =
        .error (.missingRequiredParameter "lang" "list") ∧
      (∀ p ∈ listSchema.params, p.Passes {} numberInEnglish) ∧
      ∃ (row : Filled) (a : Account),
        listSchema.Writes ⟨empty.binderOut? root, "list", listSchema.specs {}⟩ {} true
          numberInEnglish.given row a ∧
        a.schema = listSchema ∧ a.text = "/en/5" ∧
        ∀ inner written rest, a.Shows (.segment inner written rest) →
          (written ≠ "" ↔ inner.schema.lacking numberInEnglish = [] ∧ inner.text ≠ "") ∧
            (written ≠ "" → written = inner.text) := by
  have hc : listSchema.compile {} = .ok (listSchema.compiled {}) := by cbv
  have hbinders : ∀ p ∈ listSchema.params, empty.binderOut? root p.name = none := fun _ _ => rfl
  have hnumber : ∀ p ∈ listSchema.params, p.Passes {} onlyNumber := by
    refine passes_listSchema (fun v hv => ?_) (fun v hv => (Option.some.inj hv).symm) rfl
    cases hv
  have henglish : ∀ p ∈ listSchema.params, p.Passes {} numberInEnglish :=
    passes_listSchema (fun v hv => (Option.some.inj hv).symm)
      (fun v hv => (Option.some.inj hv).symm) rfl
  have hfill : empty.fillSchema root "list" (listSchema.compiled {}) numberInEnglish =
      .ok ("/en/5", ⟨[]⟩) := by cbv
  have herror : empty.fillSchema root "list" (listSchema.compiled {}) onlyNumber =
      .error (.missingRequiredParameter "lang" "list") :=
    ((fillSchema_outcome hc hbinders hnumber).1 _).mpr
      ⟨⟨"lang", none, none, none, false⟩, by cbv, rfl⟩
  obtain ⟨row, a, hwrites, hschema, htext, hsegments, -⟩ :=
    (fillSchema_outcome hc hbinders henglish).2 _ _ hfill
  exact ⟨hc, hbinders, hnumber, herror, henglish, row, a, hwrites, hschema, htext, hsegments⟩

/-- **Which defaults are left out.** In a schema without binders that is written, an optional
parameter in sight that has its default is left out just if nothing to its right in its own row has
been written. -/
theorem default_left_out_iff {text : String} {left : Params} (hc : s.compile ctx = .ok c)
    (hbinders : ∀ p ∈ s.params, t.binderOut? id p.name = none)
    (h : t.fillSchema id route c params = .ok (text, left)) :
    ∃ (row : Filled) (a : Account),
      s.Writes ⟨t.binderOut? id, route, s.specs ctx⟩ ctx true params.given row a ∧
      a.schema = s ∧ a.text = text ∧
      ∀ p written rest, a.Shows (.param p written rest) → p.optional = true →
        ∀ x, p.ownText? params = some x → p.default = some x →
          (written = "" ↔ rest.text = "") ∧ (written ≠ "" → written = x) := by
  obtain ⟨row, a, hwrites, hschema, htext⟩ := exists_account hc h
  refine ⟨row, a, hwrites, hschema, htext, fun p written rest hshows hopt x hown hdefault => ?_⟩
  obtain ⟨_, _, _, _, hpart, hwhole, hsees⟩ :=
    hwrites.of_shows hwrites.missing_eq_false (sees_fillSchema hc hbinders) hshows
  have hne := Parameter.ownText?_ne_empty hown
  rw [hpart.written_param hwhole hsees, Parameter.contribution, hown, hdefault]
  by_cases hbehind : rest.text = ""
  · simp [hopt, hbehind]
  · simp [hbehind, hne]

/-- A page, the first one by default. -/
def firstPage : Parameter := ⟨"p", some "1", none, none, true⟩

/-- An optional page in front of more text. -/
def pageSchema : Schema :=
  .literal "/a" <| .segment (.literal "/" <| .param firstPage .done) <| .literal "/b" .done

/-- The page is left out in its segment. -/
theorem default_left_out_iff_page :
    pageSchema.compile {} = .ok (pageSchema.compiled {}) ∧
      (∀ p ∈ pageSchema.params, empty.binderOut? root p.name = none) ∧
      empty.fillSchema root "page" (pageSchema.compiled {}) .empty = .ok ("/a//b", .empty) ∧
      ∃ (row : Filled) (a : Account),
        pageSchema.Writes ⟨empty.binderOut? root, "page", pageSchema.specs {}⟩ {} true
          Params.empty.given row a ∧
        a.schema = pageSchema ∧ a.text = "/a//b" ∧
        ∀ p written rest, a.Shows (.param p written rest) → p.optional = true →
          ∀ x, p.ownText? .empty = some x → p.default = some x →
            (written = "" ↔ rest.text = "") ∧ (written ≠ "" → written = x) := by
  have hc : pageSchema.compile {} = .ok (pageSchema.compiled {}) := by cbv
  have hbinders : ∀ p ∈ pageSchema.params, empty.binderOut? root p.name = none := fun _ _ => rfl
  have hfill : empty.fillSchema root "page" (pageSchema.compiled {}) .empty =
      .ok ("/a//b", .empty) := by cbv
  exact ⟨hc, hbinders, hfill, default_left_out_iff hc hbinders hfill⟩

/-- The default is left out although text has been written to its right, behind its segment. -/
theorem default_left_out_before_text :
    Schema.ofText "/a[/\x7bp:1\x7d?]/b" = .ok pageSchema ∧
      pageSchema.compile {} = .ok (pageSchema.compiled {}) ∧
      empty.fillSchema root "page" (pageSchema.compiled {}) .empty = .ok ("/a//b", .empty) ∧
      ∃ (row : Filled) (a : Account),
        pageSchema.Writes ⟨empty.binderOut? root, "page", pageSchema.specs {}⟩ {} true
          Params.empty.given row a ∧
        a = .literal "/a" (.segment (.literal "/" (.param firstPage "" .done)) "/"
          (.literal "/b" .done)) ∧
        a.Shows (.param firstPage "" .done) ∧
        firstPage.ownText? .empty = some "1" ∧ firstPage.default = some "1" := by
  have hbecomes : (firstPage.spec {}).Becomes ⟨empty.binderOut? root, "page", pageSchema.specs {}⟩
      true false ⟨"", Params.empty.given, [], false⟩ .skip := .resolved rfl (by cbv) (by cbv)
  refine ⟨by cbv, by cbv, by cbv, _, _,
    .literal (.segment (.literal .done) (.literal (.param .done hbecomes))), ?_, ?_, by cbv, rfl⟩
  · cbv
  · exact .literal (.inside (by cbv) (.literal (.here _)))

end Tree

end UrlRouting
