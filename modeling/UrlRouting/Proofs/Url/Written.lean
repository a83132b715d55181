import UrlRouting.Proofs.Schema.Language
import UrlRouting.Proofs.Schema.Printing
import UrlRouting.Proofs.Url.Accounts

/-!
# What is written is matched

Whatever a schema is filled with, the path that comes out is one of its language, and so its
expression matches it (`UrlRouting.CompiledSchema.match_of_fill`). A parameter that was written has
passed the check of its validator, or of that of its type; one that was left out is optional; and a
segment in which something was missing may be left out as a whole. Only a parameter with neither a
validator nor a type has passed no check, so what was written for it has to be looked at.

For that, writing keeps a note of the parameters that it has written and of their texts
(`UrlRouting.Template.write`). Without the note it is the filling of the schema
(`UrlRouting.Template.map_row_write`).
-/

namespace UrlRouting

open Regex

/-! ### Writing with a note -/

/-- A row that has been written, and the parameters in its text, each with what was written for it.
-/
structure Written where
  /-- The row. -/
  row : Filled
  /-- The parameters and their texts, from left to right. -/
  texts : List (ParamSpec × String)

/-- Writes a row, and notes what is written for parameters. -/
def Template.write (ctx : FillContext) : Template → Bool → Params → Except RouterError Written
  | .done, _, params => .ok ⟨⟨"", params, [], false⟩, []⟩
  | .literal text rest, required, params => do
    let w ← rest.write ctx required params
    return ⟨{ w.row with text := text ++ w.row.text }, w.texts⟩
  | .param index optional rest, required, params => do
    let w ← rest.write ctx required params
    match ctx.specs[index]? with
    | none => return w
    | some spec =>
      let row := { w.row with used := w.row.used ++ [spec.name] }
      if row.missing then return ⟨row, w.texts⟩
      else
        let text ← spec.resolve (ctx.output spec.name) row.params
        match ← spec.emit ctx.route text optional required (!row.text.isEmpty) with
        | .text s => return ⟨{ row with text := s ++ row.text }, (spec, s) :: w.texts⟩
        | .skip => return ⟨row, w.texts⟩
        | .missing => return ⟨{ row with missing := true }, w.texts⟩
  | .segment inner rest, required, params => do
    let w ← rest.write ctx required params
    let inside ← inner.write ctx false w.row.params
    let text := if inside.row.missing then "" else inside.row.text
    let texts := if inside.row.missing then [] else inside.texts
    return ⟨{ w.row with text := text ++ w.row.text, params := inside.row.left },
      texts ++ w.texts⟩

/-- **Without the note, writing is filling.** -/
theorem Template.map_row_write (ctx : FillContext) (t : Template) (required : Bool)
    (params : Params) :
    (t.write ctx required params).map Written.row = t.fill ctx required params := by
  induction t generalizing required params with
  | done => rfl
  | literal text rest ih =>
    rw [fill, ← ih, write]
    cases rest.write ctx required params <;> rfl
  -- both run the same pieces one after the other, and part in what they note
  | param index optional rest ih =>
    rw [fill, ← ih, write]
    cases rest.write ctx required params with
    | error e => rfl
    | ok w =>
      change Except.map _ (match ctx.specs[index]? with | none => _ | some spec => _) =
        match ctx.specs[index]? with | none => _ | some spec => _
      cases ctx.specs[index]? with
      | none => rfl
      | some spec =>
        dsimp only
        cases w.row.missing with
        | true => rfl
        | false =>
          change Except.map _ (spec.resolve _ w.row.params >>= _) =
            spec.resolve _ w.row.params >>= _
          cases spec.resolve (ctx.output spec.name) w.row.params with
          | error e => rfl
          | ok text =>
            change Except.map _ (spec.emit ctx.route text optional required _ >>= _) =
              spec.emit ctx.route text optional required _ >>= _
            cases spec.emit ctx.route text optional required (!w.row.text.isEmpty) with
            | error e => rfl
            | ok emission => cases emission <;> rfl
  | segment inner rest ih1 ih2 =>
    rw [fill, ← ih2, write]
    cases rest.write ctx required params with
    | error e => rfl
    | ok w =>
      change Except.map _ (inner.write ctx false w.row.params >>= _) =
        inner.fill ctx false w.row.params >>= _
      rw [← ih1]
      cases inner.write ctx false w.row.params <;> rfl

/-- What is written, with a parameter in front of it. -/
def Written.put (w : Written) (spec : ParamSpec) : Emission → Written
  | .text out => ⟨w.row.put spec.name (.text out), (spec, out) :: w.texts⟩
  | .skip => ⟨w.row.put spec.name .skip, w.texts⟩
  | .missing => ⟨w.row.put spec.name .missing, w.texts⟩

@[simp] theorem Written.row_put (w : Written) (spec : ParamSpec) (emission : Emission) :
    (w.put spec emission).row = w.row.put spec.name emission := by
  cases emission <;> rfl

/-- **What is written at a parameter**: what becomes of it is put in front of the rest. -/
theorem Template.exists_becomes_of_write {ctx : FillContext} {spec : ParamSpec} {rest : Template}
    {params : Params} {w : Written} {k : Nat} {optional required : Bool}
    (hspec : ctx.specs[k]? = some spec)
    (h : (param k optional rest).write ctx required params = .ok w) :
    ∃ v, rest.write ctx required params = .ok v ∧
      ∃ emission, spec.Becomes ctx optional required v.row emission ∧ w = v.put spec emission := by
  rw [write] at h
  obtain ⟨⟨row, texts⟩, hv, h⟩ := Schema.bind_eq_ok_iff.mp h
  refine ⟨_, hv, ?_⟩
  rw [hspec] at h
  obtain ⟨written, left, used, missing⟩ := row
  dsimp only at h
  cases missing with
  | true => exact ⟨.missing, .passed rfl, (Except.ok.inj h).symm⟩
  | false =>
    rw [if_neg Bool.false_ne_true] at h
    obtain ⟨text, hresolve, h⟩ := Schema.bind_eq_ok_iff.mp h
    obtain ⟨emission, hemit, h⟩ := Schema.bind_eq_ok_iff.mp h
    refine ⟨emission, .resolved rfl hresolve hemit, ?_⟩
    cases emission <;> exact (Except.ok.inj h).symm

/-! ### Parameters -/

section Parameters

variable {spec : ParamSpec} {route text out : String} {optional required behind : Bool}

/-- What is written for a parameter is its text, and has passed its check. -/
theorem ParamSpec.emit_text
    (h : spec.emit route text optional required behind = .ok (.text out)) :
    out = text ∧ spec.check text = .ok () := by
  unfold emit at h
  split at h
  · split_ifs at h <;> cases h
  · obtain ⟨_, hcheck, h⟩ := Schema.bind_eq_ok_iff.mp h
    split at h
    · cases h
    · cases h
      exact ⟨rfl, hcheck⟩

/-- What is left out is optional. -/
theorem ParamSpec.emit_skip (h : spec.emit route text optional required behind = .ok .skip) :
    optional = true := by
  unfold emit at h
  split at h
  · split at h
    · assumption
    · split_ifs at h
      cases h
  · obtain ⟨_, -, h⟩ := Schema.bind_eq_ok_iff.mp h
    split at h
    · next hdefault =>
      simp only [Bool.and_eq_true] at hdefault
      exact hdefault.1.1
    · cases h

/-- What a parameter's validator accepts is one of its texts. -/
theorem Parameter.mem_texts_of_check {p : Parameter} {ctx : CompileContext} (hp : p.Resolves ctx)
    (hcheck : (p.spec ctx).check text = .ok ())
    (hdefault : (p.spec ctx).type = none → (p.spec ctx).validator = none →
      text.toList ∈ wholeTexts ctx.defaultPattern) : text.toList ∈ p.texts ctx := by
  have hspec : (p.spec ctx).validator = (p.source? ctx).bind Validator.ofSource? := rfl
  rw [Parameter.texts, Parameter.pattern]
  cases hsource : p.source? ctx with
  | none =>
    rw [hsource] at hspec
    refine hdefault ?_ hspec
    exact Option.map_eq_none_iff.mp (Option.or_eq_none_iff.mp hsource).2
  | some source =>
    obtain ⟨v, hv⟩ := Option.isSome_iff_exists.mp (hp.validator source hsource)
    rw [hsource, Option.bind_some, hv] at hspec
    exact (Validator.accepts_iff hv).mp ((ParamSpec.check_eq_ok_iff.mp hcheck).2 v hspec)

/-- In a row that is required, nothing is missing. -/
theorem ParamSpec.emit_required (h : spec.emit route text optional true behind = .ok .missing) :
    False := by
  unfold emit at h
  split at h
  · split_ifs at h with _ hrequired
    · cases h
    · exact hrequired rfl
  · obtain ⟨_, -, h⟩ := Schema.bind_eq_ok_iff.mp h
    split at h <;> cases h

end Parameters

/-! ### Schemas -/

/-- **A row that is required is written in full.** -/
theorem Template.missing_of_required {ctx : FillContext} {t : Template} {params : Params}
    {w : Written} (hw : t.write ctx true params = .ok w) : w.row.missing = false := by
  induction t generalizing params w with
  | done =>
    obtain rfl := Except.ok.inj hw
    rfl
  | literal text rest ih =>
    obtain ⟨v, hv, hw⟩ := Schema.bind_eq_ok_iff.mp hw
    have hmissing := ih hv
    obtain rfl := Except.ok.inj hw
    exact hmissing
  | param index optional rest ih =>
    cases hspec : ctx.specs[index]? with
    | none =>
      obtain ⟨v, hv, hw⟩ := Schema.bind_eq_ok_iff.mp hw
      rw [hspec] at hw
      obtain rfl := Except.ok.inj hw
      exact ih hv
    | some spec =>
      obtain ⟨v, hv, emission, hbecomes, rfl⟩ := exists_becomes_of_write hspec hw
      rw [Written.row_put]
      refine (Filled.missing_put ..).mpr ⟨ih hv, ?_⟩
      rintro rfl
      cases hbecomes with
      | passed missing =>
        rw [ih hv] at missing
        cases missing
      | resolved _ _ emit => exact ParamSpec.emit_required emit
  | segment inner rest _ ih =>
    obtain ⟨v, hv, hw⟩ := Schema.bind_eq_ok_iff.mp hw
    have hmissing := ih hv
    obtain ⟨inside, -, hw⟩ := Schema.bind_eq_ok_iff.mp hw
    obtain rfl := Except.ok.inj hw
    exact hmissing

/-- The texts that were written are checked: where a parameter has neither a type nor a validator,
its text is one that the default pattern matches as a whole. -/
def Checked (defaultPattern : String) (texts : List (ParamSpec × String)) : Prop :=
  ∀ e ∈ texts, e.1.type = none → e.1.validator = none → e.2.toList ∈ wholeTexts defaultPattern

namespace Schema

variable {s : Schema} {ctx : FillContext} {cctx : CompileContext} {k : Nat} {required : Bool}
  {params : Params} {w : Written}

/-- **What is written of a schema is a path of its language**, unless something is missing in it. -/
theorem splits_of_write (hspecs : s.specs cctx <+: ctx.specs.drop k)
    (hresolves : ∀ p ∈ s.params, p.Resolves cctx)
    (hw : (s.template k).write ctx required params = .ok w) (hmissing : w.row.missing = false)
    (hchecked : Checked cctx.defaultPattern w.texts) :
    ∃ texts, s.Splits cctx w.row.text.toList texts := by
  induction s generalizing k required params w with
  | done =>
    obtain rfl := Except.ok.inj hw
    exact ⟨[], .done⟩
  | literal text rest ih =>
    obtain ⟨v, hv, hw⟩ := bind_eq_ok_iff.mp hw
    obtain rfl := Except.ok.inj hw
    obtain ⟨texts, hrest⟩ := ih hspecs hresolves hv hmissing hchecked
    dsimp only
    rw [String.toList_append]
    exact ⟨texts, .literal hrest⟩
  | param p rest ih =>
    obtain ⟨hp, hresolves⟩ := List.forall_mem_cons.mp hresolves
    obtain ⟨hspec, hspecs⟩ := getElem?_of_prefix hspecs
    obtain ⟨v, hv, emission, hbecomes, rfl⟩ := Template.exists_becomes_of_write hspec hw
    rw [Written.row_put] at hmissing ⊢
    obtain ⟨hmissing, hwhole⟩ := (Filled.missing_put ..).mp hmissing
    cases hbecomes with
    | passed => exact absurd rfl hwhole
    | resolved _ _ emit =>
      rw [Filled.text_put, String.toList_append]
      cases emission with
      | text out =>
        obtain ⟨rfl, hcheck⟩ := ParamSpec.emit_text emit
        obtain ⟨hdefault, hchecked⟩ := List.forall_mem_cons.mp hchecked
        obtain ⟨texts, hrest⟩ := ih hspecs hresolves hv hmissing hchecked
        exact ⟨_, .param (Parameter.mem_texts_of_check hp hcheck hdefault) hrest⟩
      | skip =>
        obtain ⟨texts, hrest⟩ := ih hspecs hresolves hv hmissing hchecked
        exact ⟨_, .noParam (ParamSpec.emit_skip emit) hrest⟩
      | missing => exact absurd rfl hwhole
  | segment inner rest ih1 ih2 =>
    obtain ⟨hresolvesInner, hresolves⟩ := List.forall_mem_append.mp hresolves
    obtain ⟨hspecsInner, hspecs⟩ := specs_segment_prefix hspecs
    obtain ⟨v, hv, hw⟩ := bind_eq_ok_iff.mp hw
    obtain ⟨inside, hinside, hw⟩ := bind_eq_ok_iff.mp hw
    obtain rfl := Except.ok.inj hw
    obtain ⟨hcheckedInside, hchecked⟩ := List.forall_mem_append.mp hchecked
    obtain ⟨texts, hrest⟩ := ih2 hspecs hresolves hv hmissing hchecked
    dsimp only at hcheckedInside ⊢
    rw [String.toList_append]
    -- a segment in which something is missing is not written, and its texts are not noted
    cases hmissingInside : inside.row.missing with
    | true => exact ⟨_, .noSegment hrest⟩
    | false =>
      rw [hmissingInside] at hcheckedInside
      obtain ⟨texts', hinner⟩ :=
        ih1 hspecsInner hresolvesInner hinside hmissingInside hcheckedInside
      exact ⟨_, .segment hinner hrest⟩

end Schema

/-! ### Paths -/

/-- What is written for the parameters of a schema at a node, from left to right. -/
def Tree.writtenTexts (t : Tree) (id : NodeId) (route : String) (c : CompiledSchema)
    (params : Params) : List (ParamSpec × String) :=
  match c.template.write ⟨t.binderOut? id, route, c.params⟩ true params.given with
  | .ok w => w.texts
  | .error _ => []

/-- What is filled is what is written, with its texts. -/
theorem Tree.exists_written {t : Tree} {id : NodeId} {route path : String} {c : CompiledSchema}
    {params left : Params} (h : t.fillSchema id route c params = .ok (path, left)) :
    ∃ w, c.template.write ⟨t.binderOut? id, route, c.params⟩ true params.given = .ok w ∧
      w.row.text = path ∧ w.texts = t.writtenTexts id route c params := by
  obtain ⟨row, hrow, h⟩ := Schema.bind_eq_ok_iff.mp h
  rw [← Template.map_row_write] at hrow
  rw [writtenTexts]
  cases hw : c.template.write ⟨t.binderOut? id, route, c.params⟩ true params.given with
  | error e =>
    rw [hw] at hrow
    cases hrow
  | ok w =>
    rw [hw] at hrow
    obtain rfl := Except.ok.inj hrow
    exact ⟨w, rfl, congrArg Prod.fst (Except.ok.inj h), rfl⟩

/-- **What is written is matched.** Between anchors, the text of a compiled schema is an expression,
which compiles if it keeps the limits on its depth and its size. It matches every path that the
schema is filled with, at any node and with any values, if the default pattern matches what was
written for parameters that have neither a type nor a validator. -/
theorem CompiledSchema.match_of_fill {text route path : String} {ctx : CompileContext}
    {c : CompiledSchema} {t : Tree} {id : NodeId} {params left : Params}
    (hc : ofText text ctx = .ok c)
    (hplain : ∀ spec ∈ c.params, ∃ s, Syntax.ofText? spec.pattern = some s ∧ s.isPlain = true)
    (hfill : t.fillSchema id route c params = .ok (path, left))
    (hchecked : Checked ctx.defaultPattern (t.writtenTexts id route c params)) :
    ∃ e, Syntax.read? c.whole = some e ∧
      Regex.compile? c.whole =
        (if e.depth ≤ Syntax.depthLimit ∧ e.expr.fits then some ⟨c.whole, e.expr⟩ else none) ∧
      Regex.isMatch ⟨c.whole, e.expr⟩ path = true := by
  obtain ⟨s, hs, hresolve, rfl⟩ := ofText_eq_ok_iff.mp hc
  obtain ⟨e, hread, hcompile, hmatch⟩ := match_iff_mem_language hs hc hplain
  refine ⟨e, hread, hcompile, (hmatch path).1.mpr (Schema.mem_language_iff.mpr ?_)⟩
  obtain ⟨w, hw, rfl, htexts⟩ := Tree.exists_written hfill
  exact Schema.splits_of_write (List.prefix_refl _) hresolve.each hw
    (Template.missing_of_required hw) (htexts ▸ hchecked)

/-- A user, and a page that may be left out. -/
def userPage : Schema :=
  .literal "/" (.param (.bare "name" none)
    (.segment (.literal "/pages/" (.param (.bare "page" none) .done)) .done))

/-- A page that is not given is left out of the path with all that stands around it. -/
theorem CompiledSchema.match_of_fill_user : ∃ c left e,
    ofText "/\x7bname\x7d[/pages/\x7bpage\x7d]" {} = .ok c ∧
      Tree.empty.fillSchema Tree.root "user" c ⟨[("name", .str "ann")]⟩ = .ok ("/ann", left) ∧
      Syntax.read? c.whole = some e ∧ Regex.isMatch ⟨c.whole, e.expr⟩ "/ann" = true := by
  have hs : Schema.ofText "/\x7bname\x7d[/pages/\x7bpage\x7d]" = .ok userPage := rfl
  have hresolve : Parameter.AllResolve userPage.params {} [] :=
    ⟨List.forall_mem_cons.mpr ⟨Parameter.resolves_bare nofun,
      List.forall_mem_singleton.mpr (Parameter.resolves_bare nofun)⟩, by decide, by decide⟩
  have hc := ofText_eq_ok_iff.mpr ⟨_, hs, hresolve, rfl⟩
  have hfill : Tree.empty.fillSchema Tree.root "user" (userPage.compiled {})
      ⟨[("name", .str "ann")]⟩ = .ok ("/ann", ⟨[]⟩) := rfl
  have hann : Holds none (.str "ann") := ⟨by decide, by decide⟩
  obtain ⟨e, hread, -, hmatch⟩ := match_of_fill hc
    (List.forall_mem_cons.mpr ⟨⟨_, rfl, rfl⟩, List.forall_mem_singleton.mpr ⟨_, rfl, rfl⟩⟩) hfill
    (List.forall_mem_singleton.mpr fun _ _ => hann.mem_wholeTexts)
  exact ⟨_, _, e, hc, hfill, hread, hmatch⟩

/-- A letter in segments is written, however many of them stand around it. -/
theorem Template.fill_inSegments (ctx : FillContext) (n k : Nat) (required : Bool)
    (params : Params) : ((Schema.inSegments n).template k).fill ctx required params =
      .ok ⟨"a", params, [], false⟩ := by
  induction n generalizing required with
  | zero => rfl
  | succ n ih =>
    have hdone : done.fill ctx required params = .ok ⟨"", params, [], false⟩ := rfl
    exact fill_segment hdone (ih false)

theorem Schema.isTidy_inSegments (n : Nat) : (inSegments n).IsTidy := by
  induction n with
  | zero => exact ⟨rfl, by decide, trivial⟩
  | succ n ih => exact ⟨ih, trivial⟩

/-- The limits are met: a schema of 126 segments inside of each other is compiled, and is always
filled, but there is no expression to match the path with. -/
theorem CompiledSchema.filled_segments_have_no_expression : ∃ c,
    ofText (String.ofList (Schema.inSegments 126).print) {} = .ok c ∧ c.params = [] ∧
      (∀ (t : Tree) id route params, t.fillSchema id route c params = .ok ("a", params.given)) ∧
      Regex.compile? c.whole = none := by
  have hnone := Schema.params_inSegments 126
  have hs : Schema.ofText (String.ofList (Schema.inSegments 126).print) =
      .ok (Schema.inSegments 126) :=
    Schema.ofText_print_eq (Schema.isTidy_inSegments 126) fun p hp => by
      rw [hnone] at hp
      cases hp
  have hresolve : Parameter.AllResolve (Schema.inSegments 126).params {} [] :=
    hnone ▸ Parameter.allResolve_nil _ _
  refine ⟨_, ofText_eq_ok_iff.mpr ⟨_, hs, hresolve, rfl⟩, ?_, fun t id route params => ?_, ?_⟩
  · rw [Schema.compiled, Schema.specs, hnone, List.map_nil]
  · have hfill := Template.fill_inSegments
      ⟨t.binderOut? id, route, (Schema.inSegments 126).specs {}⟩ 126 0 true params.given
    rw [Tree.fillSchema, Schema.compiled]
    dsimp only
    rw [hfill]
    rfl
  · refine Schema.compile?_of_nesting (fun p hp => ?_) ?_
    · rw [hnone] at hp
      cases hp
    · rw [Schema.nesting_inSegments]
      decide

end UrlRouting
