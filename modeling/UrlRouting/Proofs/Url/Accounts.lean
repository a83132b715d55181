import UrlRouting.Proofs.Url.Rows

/-!
# What becomes of the parts of a schema

When a schema is written, each of its parts contributes something to the text or nothing. An
*account* (`UrlRouting.Account`) is the schema again, with every parameter and every segment
carrying what it has contributed; the text is these contributions, one behind the other
(`UrlRouting.Account.text`).

How a row comes to its account is a relation with one rule for each kind of part
(`UrlRouting.Schema.Writes`). A row can be written just if it has an account, and then it is written
as the account says (`UrlRouting.Schema.fill_eq_ok_iff`), so that later proofs are inductions on
these rules. The first of them is about names: a row uses up the names of its own parameters when it
is done, and those of a segment when the segment is done, so that in the end all names of the schema
have been used up, whether their parameters were written or not (`UrlRouting.Schema.Writes.names`).
-/

namespace UrlRouting

/-! ### Accounts -/

/-- **What has become of a row**: its parts, each with what it has contributed. -/
inductive Account where
  /-- No more parts. -/
  | done
  /-- Literal text, then more. -/
  | literal (text : String) (rest : Account)
  /-- A parameter and what was written for it, then more. -/
  | param (p : Parameter) (written : String) (rest : Account)
  /-- A segment, what has become of its own parts and what was written of it, then more. -/
  | segment (inner : Account) (written : String) (rest : Account)
  deriving DecidableEq, Repr

namespace Account

/-- The row that the account is about. -/
def schema : Account → Schema
  | .done => .done
  | .literal text rest => .literal text rest.schema
  | .param p _ rest => .param p rest.schema
  | .segment inner _ rest => .segment inner.schema rest.schema

/-- The contributions of the parts, one behind the other. -/
def text : Account → String
  | .done => ""
  | .literal text rest => text ++ rest.text
  | .param _ written rest => written ++ rest.text
  | .segment _ written rest => written ++ rest.text

/-- **Parts that can be seen**: the row itself from some part on, or that of a segment which has
contributed something and stands in such a row. -/
inductive Shows : Account → Account → Prop
  /-- The row from its first part on. -/
  | here (a : Account) : Shows a a
  /-- Behind literal text. -/
  | literal {text : String} {rest part : Account} (h : Shows rest part) :
      Shows (.literal text rest) part
  /-- Behind a parameter. -/
  | param {p : Parameter} {written : String} {rest part : Account} (h : Shows rest part) :
      Shows (.param p written rest) part
  /-- Behind a segment. -/
  | behind {inner : Account} {written : String} {rest part : Account} (h : Shows rest part) :
      Shows (.segment inner written rest) part
  /-- In a segment that has contributed something. -/
  | inside {inner : Account} {written : String} {rest part : Account} (appears : written ≠ "")
      (h : Shows inner part) : Shows (.segment inner written rest) part

end Account

/-! ### One part -/

/-- What is written in the end: nothing if something is missing in the row. -/
def Filled.shown (row : Filled) : String := if row.missing then "" else row.text

/-- What is written for a parameter. -/
def Emission.written : Emission → String
  | .text s => s
  | .skip => ""
  | .missing => ""

/-- The row with a parameter in front of it. -/
def Filled.put (row : Filled) (name : String) : Emission → Filled
  | .text s => { row with text := s ++ row.text, used := row.used ++ [name] }
  | .skip => { row with used := row.used ++ [name] }
  | .missing => { row with used := row.used ++ [name], missing := true }

namespace Filled

variable (row : Filled) (name : String) (emission : Emission)

@[simp] theorem params_put : (row.put name emission).params = row.params := by cases emission <;> rfl

@[simp] theorem used_put : (row.put name emission).used = row.used ++ [name] := by
  cases emission <;> rfl

@[simp] theorem text_put : (row.put name emission).text = emission.written ++ row.text := by
  cases emission with
  | text s => rfl
  | skip | missing => exact (String.empty_append ..).symm

theorem missing_put :
    (row.put name emission).missing = false ↔ row.missing = false ∧ emission ≠ .missing := by
  cases emission <;> simp [put]

end Filled

/-- **What becomes of a parameter in front of a row.** In front of something that is missing, the
parameter is passed over. -/
inductive ParamSpec.Becomes (spec : ParamSpec) (ctx : FillContext) (optional required : Bool)
    (row : Filled) : Emission → Prop
  /-- Something is missing in the row. -/
  | passed (missing : row.missing = true) : Becomes spec ctx optional required row .missing
  /-- Nothing is missing, and the parameter has a text, be it empty. -/
  | resolved {text : String} {emission : Emission} (whole : row.missing = false)
      (resolve : spec.resolve (ctx.output spec.name) row.params = .ok text)
      (emit : spec.emit ctx.route text optional required (!row.text.isEmpty) = .ok emission) :
      Becomes spec ctx optional required row emission

namespace Template

variable {ctx : FillContext} {spec : ParamSpec} {rest inner : Template} {params : Params}
  {row : Filled} {text : String} {k : Nat} {optional required : Bool}

theorem fill_literal_eq_ok_iff : (literal text rest).fill ctx required params = .ok row ↔
    ∃ r, rest.fill ctx required params = .ok r ∧ row = { r with text := text ++ r.text } := by
  rw [fill, Schema.bind_eq_ok_iff]
  exact exists_congr fun r => and_congr_right' ⟨fun h => (Except.ok.inj h).symm, fun h => h ▸ rfl⟩

theorem fill_param_eq_ok_iff (hspec : ctx.specs[k]? = some spec) :
    (param k optional rest).fill ctx required params = .ok row ↔
      ∃ r, rest.fill ctx required params = .ok r ∧
        ∃ emission, spec.Becomes ctx optional required r emission ∧ row = r.put spec.name emission := by
  rw [fill, Schema.bind_eq_ok_iff]
  refine exists_congr fun r => and_congr_right' ?_
  rw [hspec]
  dsimp only
  obtain ⟨written, left, used, missing⟩ := r
  cases missing with
  | true =>
    constructor
    · intro h
      exact ⟨.missing, .passed rfl, (Except.ok.inj h).symm⟩
    · rintro ⟨emission, hbecomes, rfl⟩
      cases hbecomes with
      | passed _ => rfl
      | resolved whole _ _ => cases whole
  | false =>
    dsimp only
    rw [if_neg Bool.false_ne_true, Schema.bind_eq_ok_iff]
    constructor
    · rintro ⟨text, hresolve, h⟩
      obtain ⟨emission, hemit, h⟩ := Schema.bind_eq_ok_iff.mp h
      refine ⟨emission, .resolved rfl hresolve hemit, ?_⟩
      cases emission <;> exact (Except.ok.inj h).symm
    · rintro ⟨emission, hbecomes, rfl⟩
      cases hbecomes with
      | passed missing => cases missing
      | @resolved text _ _ resolve emit =>
        refine ⟨text, resolve, Schema.bind_eq_ok_iff.mpr ⟨emission, emit, ?_⟩⟩
        cases emission <;> rfl

theorem fill_segment_eq_ok_iff : (segment inner rest).fill ctx required params = .ok row ↔
    ∃ r, rest.fill ctx required params = .ok r ∧
      ∃ inside, inner.fill ctx false r.params = .ok inside ∧
        row = { r with text := inside.shown ++ r.text, params := inside.left } := by
  rw [fill, Schema.bind_eq_ok_iff]
  refine exists_congr fun r => and_congr_right' ?_
  rw [Schema.bind_eq_ok_iff]
  exact exists_congr fun inside =>
    and_congr_right' ⟨fun h => (Except.ok.inj h).symm, fun h => h ▸ rfl⟩

end Template

/-! ### Rows -/

theorem Params.eraseAll_append (p : Params) (names names' : List String) :
    p.eraseAll (names ++ names') = (p.eraseAll names).eraseAll names' := List.foldl_append

/-- **How a row is written**, from the right to the left, and its account. -/
inductive Schema.Writes (ctx : FillContext) (cctx : CompileContext) :
    Schema → Bool → Params → Filled → Account → Prop
  /-- The right end. -/
  | done {required : Bool} {params : Params} :
      Writes ctx cctx .done required params ⟨"", params, [], false⟩ .done
  /-- Literal text is written. -/
  | literal {text : String} {rest : Schema} {required : Bool} {params : Params} {row : Filled}
      {a : Account} (behind : Writes ctx cctx rest required params row a) :
      Writes ctx cctx (.literal text rest) required params { row with text := text ++ row.text }
        (.literal text a)
  /-- A parameter is written, left out or missing. -/
  | param {p : Parameter} {rest : Schema} {required : Bool} {params : Params} {row : Filled}
      {a : Account} {emission : Emission} (behind : Writes ctx cctx rest required params row a)
      (becomes : (p.spec cctx).Becomes ctx p.optional required row emission) :
      Writes ctx cctx (.param p rest) required params (row.put p.name emission)
        (.param p emission.written a)
  /-- A segment is written if nothing is missing in it. -/
  | segment {inner rest : Schema} {required : Bool} {params : Params} {row inside : Filled}
      {a b : Account} (behind : Writes ctx cctx rest required params row a)
      (within : Writes ctx cctx inner false row.params inside b) :
      Writes ctx cctx (.segment inner rest) required params
        { row with text := inside.shown ++ row.text, params := inside.left }
        (.segment b inside.shown a)

namespace Schema

variable {s : Schema} {ctx : FillContext} {cctx : CompileContext} {k : Nat} {required : Bool}
  {params : Params} {row : Filled} {a : Account}

/-- **A row can be written just if it has an account**, and is written as the account says. -/
theorem fill_eq_ok_iff (hspecs : s.specs cctx <+: ctx.specs.drop k) :
    (s.template k).fill ctx required params = .ok row ↔
      ∃ a, s.Writes ctx cctx required params row a := by
  induction s generalizing k required params row with
  | done =>
    constructor
    · intro h
      obtain rfl := Except.ok.inj h
      exact ⟨_, .done⟩
    · rintro ⟨a, ⟨⟩⟩
      rfl
  | literal text rest ih =>
    rw [template, Template.fill_literal_eq_ok_iff]
    constructor
    · rintro ⟨r, hr, rfl⟩
      obtain ⟨a, ha⟩ := (ih hspecs).mp hr
      exact ⟨_, .literal ha⟩
    · rintro ⟨_, ⟨⟩⟩
      exact ⟨_, (ih hspecs).mpr ⟨_, ‹_›⟩, rfl⟩
  | param p rest ih =>
    obtain ⟨hspec, hspecs⟩ := getElem?_of_prefix hspecs
    rw [template, Template.fill_param_eq_ok_iff hspec]
    constructor
    · rintro ⟨r, hr, emission, hbecomes, rfl⟩
      obtain ⟨a, ha⟩ := (ih hspecs).mp hr
      exact ⟨_, .param ha hbecomes⟩
    · rintro ⟨_, ⟨⟩⟩
      exact ⟨_, (ih hspecs).mpr ⟨_, ‹_›⟩, _, ‹_›, rfl⟩
  | segment inner rest ih1 ih2 =>
    obtain ⟨hspecsInner, hspecs⟩ := specs_segment_prefix hspecs
    rw [template, Template.fill_segment_eq_ok_iff]
    constructor
    · rintro ⟨r, hr, inside, hinside, rfl⟩
      obtain ⟨a, ha⟩ := (ih2 hspecs).mp hr
      obtain ⟨b, hb⟩ := (ih1 hspecsInner).mp hinside
      exact ⟨_, .segment ha hb⟩
    · rintro ⟨_, ⟨⟩⟩
      exact ⟨_, (ih2 hspecs).mpr ⟨_, ‹_›⟩, _, (ih1 hspecsInner).mpr ⟨_, ‹_›⟩, rfl⟩

namespace Writes

/-- An account is one of the row. -/
theorem schema_eq (h : s.Writes ctx cctx required params row a) : a.schema = s := by
  induction h with
  | done => rfl
  | literal _ ih => rw [Account.schema, ih]
  | param _ _ ih => rw [Account.schema, ih]
  | segment _ _ ih1 ih2 => rw [Account.schema, ih1, ih2]

/-- The text of a row is what its parts have contributed. -/
theorem text_eq (h : s.Writes ctx cctx required params row a) : a.text = row.text := by
  induction h with
  | done => rfl
  | literal _ ih => rw [Account.text, ih]
  | param _ _ ih => rw [Account.text, ih, Filled.text_put]
  | segment _ _ ih _ => rw [Account.text, ih]

/-- **What a row takes out of the values**: the names of its segments at once, and its own ones when
it is done; together all its names. -/
theorem names (h : s.Writes ctx cctx required params row a) :
    ∃ erased, row.params = params.eraseAll erased ∧
      ∀ name, name ∈ erased ++ row.used ↔ name ∈ s.params.map (·.name) := by
  induction h with
  | done => exact ⟨[], rfl, fun name => Iff.rfl⟩
  | literal _ ih => exact ih
  | @param p rest _ _ row _ emission _ _ ih =>
    obtain ⟨erased, hparams, hnames⟩ := ih
    refine ⟨erased, (Filled.params_put ..).trans hparams, fun name => ?_⟩
    rw [Filled.used_put, ← List.append_assoc, List.mem_append, hnames, List.mem_singleton,
      Schema.params, List.map_cons, List.mem_cons, or_comm]
  | @segment inner rest _ params row inside _ _ _ _ ih1 ih2 =>
    -- the segment is done in front of the row behind it, which still has its own names
    obtain ⟨erased, hparams, hnames⟩ := ih1
    obtain ⟨erased', hparams', hnames'⟩ := ih2
    refine ⟨erased ++ (erased' ++ inside.used), ?_, fun name => ?_⟩
    · change inside.params.eraseAll inside.used = _
      rw [hparams', hparams, Params.eraseAll_append, Params.eraseAll_append]
    · rw [Schema.params, List.map_append, List.mem_append (s := inner.params.map _), ← hnames name,
        ← hnames' name]
      simp only [List.mem_append]
      tauto

end Writes

end Schema

/-- **A schema that is written has an account**, and leaves what its row leaves. -/
theorem Tree.exists_writes {t : Tree} {id : NodeId} {s : Schema} {ctx : CompileContext}
    {c : CompiledSchema} {route text : String} {params left : Params} (hc : s.compile ctx = .ok c)
    (h : t.fillSchema id route c params = .ok (text, left)) :
    ∃ (row : Filled) (a : Account),
      s.Writes ⟨t.binderOut? id, route, s.specs ctx⟩ ctx true params.given row a ∧
        row.text = text ∧ row.left = left := by
  obtain ⟨-, rfl⟩ := Schema.compile_eq_ok_iff.mp hc
  obtain ⟨row, hrow, h⟩ := Schema.bind_eq_ok_iff.mp h
  obtain ⟨a, hwrites⟩ := (Schema.fill_eq_ok_iff (List.prefix_refl _)).mp hrow
  cases h
  exact ⟨row, a, hwrites, rfl, rfl⟩

end UrlRouting
