import Mathlib
import UrlRouting.Proofs.Url.Omission
import UrlRouting.Proofs.Url.Tails

/-!
# Question marks in paths

Whoever reads a url cuts it at its first question mark, and takes what stands behind it for the
query (`UrlRouting.Form.cut`). In a query there are no question marks that could be mistaken, but a
path is written as it is: the texts of values go into it without any percent encoding, and so a
value can bring a question mark along. Then the url is cut in the middle of its path, and the rest
of the value is read as a query (`UrlRouting.Router.cut_in_path`).

That is the only way. If the schemas have no question mark themselves, there is one in a path just
if a parameter that has been written brings it (`UrlRouting.Tree.WritesPath.mem_pathText_iff`), and
a parameter can bring nothing but what a value or a binder supplies for it
(`UrlRouting.Tree.WritesPath.exists_supplies`). Where none of them supplies a question mark, the cut
is between the path and the query, and the query does not depend on what the path was written from
(`UrlRouting.Router.cut_at_query`).
-/

namespace UrlRouting

/-! ### Cutting a url -/

namespace Form

/-- **A url, cut at its first question mark**: what stands in front of it, and what stands behind it,
if there is one. -/
def cut (url : String) : String × Option String :=
  (String.ofList (url.toList.takeWhile (· ≠ '?')),
    (url.toList.dropWhile (· ≠ '?')).tail?.map String.ofList)

variable {path : String}

theorem not_mem_cut (url : String) : '?' ∉ (cut url).1.toList := by
  rw [cut, String.toList_ofList]
  intro hmem
  have hne := List.mem_takeWhile_imp hmem
  exact of_decide_eq_true hne rfl

/-- Without a question mark there is nothing to cut. -/
theorem cut_of_not_mem (h : '?' ∉ path.toList) : cut path = (path, none) := by
  have hall : ∀ c ∈ path.toList, decide (c ≠ '?') = true := fun c hc =>
    decide_eq_true fun heq => h (heq ▸ hc)
  rw [cut, List.takeWhile_eq_self_iff.mpr hall, List.dropWhile_eq_nil_iff.mpr hall,
    String.ofList_toList]
  rfl

/-- A path without a question mark is cut off what stands behind the first one. -/
theorem cut_append_mark (h : '?' ∉ path.toList) (query : String) :
    cut (path ++ "?" ++ query) = (path, some query) := by
  have hall : ∀ c ∈ path.toList, decide (c ≠ '?') = true := fun c hc =>
    decide_eq_true fun heq => h (heq ▸ hc)
  have hmark : (path ++ "?" ++ query).toList = path.toList ++ '?' :: query.toList := by
    rw [String.toList_append, String.toList_append, List.append_assoc]
    rfl
  rw [cut, hmark, List.takeWhile_append_of_pos hall, List.dropWhile_append_of_pos hall,
    List.takeWhile_cons_of_neg (by decide), List.dropWhile_cons_of_neg (by decide),
    List.append_nil, String.ofList_toList, List.tail?_cons, Option.map_some, String.ofList_toList]

/-- **A path without a question mark is cut off its tail.** -/
theorem cut_tail {options : Options} {left : Params} (h : '?' ∉ path.toList) :
    cut (path ++ tail options left) =
      (path, if options.appendQuery && !left.isEmpty then some (queryText left) else none) := by
  rw [tail]
  split
  · rw [← String.append_assoc, cut_append_mark h]
  · rw [String.append_empty, cut_of_not_mem h]

end Form

/-! ### Characters of accounts -/

/-- **A parameter in sight brings a character** into the text of a row. -/
def Account.Brings (c : Char) : Account → Prop
  | .done => False
  | .literal _ rest => rest.Brings c
  | .param _ written rest => c ∈ written.toList ∨ rest.Brings c
  | .segment inner written rest => written ≠ "" ∧ inner.Brings c ∨ rest.Brings c

namespace Schema

/-- The texts that are in a schema itself: literal text and defaults. -/
def texts : Schema → List String
  | .done => []
  | .literal text rest => text :: rest.texts
  | .param p rest => p.default.toList ++ rest.texts
  | .segment inner rest => inner.texts ++ rest.texts

/-- None of these texts has the character. -/
def Avoids (s : Schema) (c : Char) : Prop := ∀ text ∈ s.texts, c ∉ text.toList

/-- The texts that are in a text that is a schema. -/
def textsIn (text : String) : List String :=
  match Schema.ofText text with
  | .ok s => s.texts
  | .error _ => []

theorem textsIn_eq {text : String} {s : Schema} (h : Schema.ofText text = .ok s) :
    textsIn text = s.texts := by
  rw [textsIn, h]

namespace Avoids

variable {inner rest : Schema} {text : String} {p : Parameter} {c : Char}

theorem literal (h : (literal text rest).Avoids c) : c ∉ text.toList ∧ rest.Avoids c :=
  List.forall_mem_cons.mp h

theorem param (h : (param p rest).Avoids c) : c ∉ (p.default.getD "").toList ∧ rest.Avoids c := by
  obtain ⟨hdefault, hrest⟩ := List.forall_mem_append.mp h
  refine ⟨?_, hrest⟩
  cases hp : p.default with
  | none => exact List.not_mem_nil
  | some d => exact hdefault d (Option.mem_toList.mpr hp)

theorem segment (h : (segment inner rest).Avoids c) : inner.Avoids c ∧ rest.Avoids c :=
  List.forall_mem_append.mp h

end Avoids

end Schema

namespace Params

/-- **The texts that values supply for a name.** Without a binder, it is that of the value of the
name. With a binder, it is that of what the binder makes of this value, or else of an object of
values without it. -/
inductive Supplies (p : Params) (name : String) : Option Transform → String → Prop
  /-- A value as it is. -/
  | plain {v : Value} {text : String} (value : p.get? name = some v)
      (text_eq : v.urlText name = .ok text) : Supplies p name none text
  /-- A value behind its binder. -/
  | bound {f : Transform} {v w : Value} {text : String} (value : p.get? name = some v)
      (sent : f v = .ok w) (text_eq : w.urlText name = .ok text) : Supplies p name (some f) text
  /-- What a binder makes of other values. -/
  | made {f : Transform} {others : Params} {w : Value} {text : String}
      (part : others.entries.Sublist p.entries) (absent : others.get? name = none)
      (sent : f others.toObject = .ok w) (text_eq : w.urlText name = .ok text) :
      Supplies p name (some f) text

variable {p q : Params} {name : String} {output : Option Transform} {text : String}

/-- Some of the values supply nothing that all of them do not supply. -/
theorem Supplies.of_sublist (h : q.Supplies name output text)
    (hsub : q.entries.Sublist p.entries) (hnodup : p.names.Nodup) :
    p.Supplies name output text := by
  have hvalue {v : Value} (hv : q.get? name = some v) : p.get? name = some v :=
    (get?_eq_some_iff hnodup).mpr (hsub.subset (mem_entries_of_get? hv))
  cases h with
  | plain value text_eq => exact .plain (hvalue value) text_eq
  | bound value sent text_eq => exact .bound (hvalue value) sent text_eq
  | made part absent sent text_eq => exact .made (part.trans hsub) absent sent text_eq

theorem eraseAll_sublist (p : Params) (names : List String) :
    (p.eraseAll names).entries.Sublist p.entries := by
  induction names generalizing p with
  | nil => exact List.Sublist.refl _
  | cons name names ih => exact (ih (p.erase name)).trans List.eraseP_sublist

end Params

/-- **Where the text of a parameter comes from**: it is the default, or it is supplied. -/
theorem ParamSpec.eq_default_or_supplies {spec : ParamSpec} {output : Option Transform}
    {params : Params} {text : String} (h : spec.resolve output params = .ok text) :
    text = spec.default.getD "" ∨ params.Supplies spec.name output text := by
  unfold resolve at h
  cases hv : params.get? spec.name with
  | some v =>
    rw [hv] at h
    cases output with
    | none => exact .inr (.plain hv h)
    | some f =>
      obtain ⟨w, hw, h⟩ := Schema.bind_eq_ok_iff.mp h
      exact .inr (.bound hv (mapError_eq_ok hw) h)
  | none =>
    rw [hv] at h
    cases output with
    | none => exact .inl (Except.ok.inj h).symm
    | some f =>
      obtain ⟨w, hw, h⟩ := Schema.bind_eq_ok_iff.mp h
      split at h
      · exact .inl (Except.ok.inj h).symm
      · exact .inr (.made (List.Sublist.refl _) hv (mapError_eq_ok hw) h)

namespace Schema.Writes

variable {s : Schema} {ctx : FillContext} {cctx : CompileContext} {required : Bool}
  {params : Params} {row : Filled} {a : Account} {c : Char}

/-- A row leaves some of the values. -/
theorem params_sublist (h : s.Writes ctx cctx required params row a) :
    row.params.entries.Sublist params.entries := by
  obtain ⟨erased, hparams, -⟩ := h.names
  exact hparams ▸ params.eraseAll_sublist erased

theorem left_sublist (h : s.Writes ctx cctx required params row a) :
    row.left.entries.Sublist params.entries :=
  (row.params.eraseAll_sublist row.used).trans h.params_sublist

/-- **A character that the schema avoids is in a row just if a parameter brings it.** -/
theorem mem_text_iff (h : s.Writes ctx cctx required params row a) (havoids : s.Avoids c) :
    c ∈ row.text.toList ↔ a.Brings c := by
  induction h with
  | done => exact iff_of_false List.not_mem_nil id
  | literal _ ih =>
    obtain ⟨htext, hrest⟩ := havoids.literal
    rw [Account.Brings, String.toList_append, List.mem_append, or_iff_right htext, ih hrest]
  | param _ _ ih =>
    rw [Account.Brings, Filled.text_put, String.toList_append, List.mem_append,
      ih havoids.param.2]
  | @segment _ _ _ _ _ inside _ _ _ _ ih1 ih2 =>
    obtain ⟨hinner, hrest⟩ := havoids.segment
    rw [Account.Brings, String.toList_append, List.mem_append, ih1 hrest, ← ih2 hinner]
    -- a segment in which something is missing has contributed nothing
    refine or_congr_left ?_
    rw [Filled.shown]
    split
    · exact iff_of_false List.not_mem_nil fun h => h.1 rfl
    · refine ⟨fun hmem => ⟨?_, hmem⟩, fun h => h.2⟩
      intro hempty
      rw [hempty] at hmem
      exact List.not_mem_nil hmem

/-- **What a parameter brings is supplied** for it by a value or by a binder. -/
theorem exists_supplies (h : s.Writes ctx cctx required params row a) (havoids : s.Avoids c)
    (hnodup : params.names.Nodup) (hbrings : a.Brings c) :
    ∃ p ∈ s.params, ∃ text, params.Supplies p.name (ctx.output p.name) text ∧ c ∈ text.toList := by
  induction h with
  | done => exact hbrings.elim
  | literal _ ih => exact ih havoids.literal.2 hnodup hbrings
  | @param p rest _ params row _ emission behind becomes ih =>
    rcases hbrings with hmem | hbrings
    · cases becomes with
      | passed missing => exact absurd hmem List.not_mem_nil
      | @resolved text _ _ resolve emit =>
        refine ⟨p, List.mem_cons_self, text, ?_⟩
        have htext : c ∈ text.toList := by
          rw [(ParamSpec.emit_eq_ok emit).2] at hmem
          split at hmem
          · exact absurd hmem List.not_mem_nil
          · exact hmem
        rcases ParamSpec.eq_default_or_supplies resolve with hdefault | hsupplies
        · rw [hdefault] at htext
          exact absurd htext havoids.param.1
        · exact ⟨hsupplies.of_sublist behind.params_sublist hnodup, htext⟩
    · obtain ⟨q, hq, hsupplied⟩ := ih havoids.param.2 hnodup hbrings
      exact ⟨q, List.mem_cons_of_mem p hq, hsupplied⟩
  | segment behind _ ih1 ih2 =>
    rcases hbrings with ⟨-, hbrings⟩ | hbrings
    · have hsub := behind.params_sublist
      obtain ⟨q, hq, text, hsupplies, hmem⟩ :=
        ih2 havoids.segment.1 (hnodup.sublist (hsub.map _)) hbrings
      exact ⟨q, List.mem_append_left _ hq, text, hsupplies.of_sublist hsub hnodup, hmem⟩
    · obtain ⟨q, hq, hsupplied⟩ := ih1 havoids.segment.2 hnodup hbrings
      exact ⟨q, List.mem_append_right _ hq, hsupplied⟩

end Schema.Writes

/-! ### Characters of paths -/

/-- The text of some accounts, of which each next one is about the schema in front. -/
def Account.pathText : List Account → String
  | [] => ""
  | a :: above => pathText above ++ a.text

/-- The same in a url, where a path that would be empty is a slash. -/
def Account.urlPath (accounts : List Account) : String :=
  if (pathText accounts).isEmpty then "/" else pathText accounts

namespace Tree

variable {t : Tree} {view : View} {id : NodeId} {nodes : List Node} {params left : Params}
  {accounts : List Account} {path : String} {c : Char}

/-- **How a path is written**, from the inside out, and the accounts of its nodes. -/
inductive WritesPath (t : Tree) : List Node → Params → List Account → Prop
  /-- No more nodes. -/
  | nil {params : Params} : WritesPath t [] params []
  /-- The schema of a node, then the nodes above it. -/
  | cons {n : Node} {nodes : List Node} {s : Schema} {cctx : CompileContext} {params : Params}
      {row : Filled} {a : Account} {accounts : List Account} (read : Schema.ofText n.schema = .ok s)
      (own : s.Writes ⟨t.binderOut? n.id, n.schema, s.specs cctx⟩ cctx true params.given row a)
      (above : WritesPath t nodes row.left accounts) : WritesPath t (n :: nodes) params (a :: accounts)

/-- None of the texts in the schemas of some nodes has the character. -/
def Avoid (nodes : List Node) (c : Char) : Prop :=
  ∀ n ∈ nodes, ∀ text ∈ Schema.textsIn n.schema, c ∉ text.toList

theorem Avoid.cons {n : Node} {s : Schema} (h : Avoid (n :: nodes) c)
    (hs : Schema.ofText n.schema = .ok s) : s.Avoids c ∧ Avoid nodes c := by
  rw [Schema.Avoids, ← Schema.textsIn_eq hs]
  exact List.forall_mem_cons.mp h

theorem FillsPath.exists_writesPath (h : t.FillsPath view nodes params path left)
    (hnodes : ∀ n ∈ nodes, ∃ ctx, view n.id = n.compile ctx) :
    ∃ accounts, t.WritesPath nodes params accounts ∧ path = Account.pathText accounts := by
  induction h with
  | nil => exact ⟨[], .nil, rfl⟩
  | cons compiles fill _ ih =>
    obtain ⟨⟨ctx, hview⟩, hnodes⟩ := List.forall_mem_cons.mp hnodes
    obtain ⟨s, hs, hc⟩ := Node.exists_compile (hview.symm.trans compiles)
    obtain ⟨row, a, hwrites, rfl, rfl⟩ := exists_writes hc fill
    obtain ⟨accounts, habove, rfl⟩ := ih hnodes
    refine ⟨a :: accounts, .cons hs hwrites habove, ?_⟩
    rw [Account.pathText, hwrites.text_eq]

/-- **A path that is written has accounts.** -/
theorem exists_writesPath (hne : nodes ≠ [])
    (hnodes : ∀ n ∈ nodes, ∃ ctx, view n.id = n.compile ctx)
    (h : (t.pathOf view nodes params).outcome = .ok (path, left)) :
    ∃ accounts, t.WritesPath (alongPath nodes) params accounts ∧
      path = Account.pathText accounts :=
  (fillsPath_of_pathOf hne h).exists_writesPath fun n hn => hnodes n (alongPath_subset nodes hn)

namespace WritesPath

/-- **A character that the schemas avoid is in a path just if a parameter brings it.** -/
theorem mem_pathText_iff (h : t.WritesPath nodes params accounts) (havoid : Avoid nodes c) :
    c ∈ (Account.pathText accounts).toList ↔ ∃ a ∈ accounts, a.Brings c := by
  induction h with
  | nil => exact iff_of_false List.not_mem_nil fun ⟨a, ha, _⟩ => List.not_mem_nil ha
  | cons read own _ ih =>
    obtain ⟨hown, habove⟩ := havoid.cons read
    rw [Account.pathText, String.toList_append, List.mem_append, ih habove, own.text_eq,
      own.mem_text_iff hown, List.exists_mem_cons_iff, or_comm]

/-- **What a parameter brings into a path is supplied** for it by a value or by a binder. -/
theorem exists_supplies (h : t.WritesPath nodes params accounts) (havoid : Avoid nodes c)
    (hnodup : params.names.Nodup) (hbrings : ∃ a ∈ accounts, a.Brings c) :
    ∃ n ∈ nodes, ∃ p ∈ n.declared, ∃ text,
      params.Supplies p.name (t.binderOut? n.id p.name) text ∧ c ∈ text.toList := by
  induction h with
  | nil =>
    obtain ⟨a, ha, -⟩ := hbrings
    exact absurd ha List.not_mem_nil
  | @cons n nodes s _ params row a _ read own _ ih =>
    obtain ⟨hown, habove⟩ := havoid.cons read
    have hgiven : params.given.entries.Sublist params.entries := List.filter_sublist
    rcases (List.exists_mem_cons_iff ..).mp hbrings with hbrings | hbrings
    · obtain ⟨p, hp, text, hsupplies, hmem⟩ :=
        own.exists_supplies hown (hnodup.sublist (hgiven.map _)) hbrings
      have hdeclared : n.declared = s.params := Schema.declaredIn_eq read
      exact ⟨n, List.mem_cons_self, p, hdeclared ▸ hp, text, hsupplies.of_sublist hgiven hnodup, hmem⟩
    · have hsub := own.left_sublist.trans hgiven
      obtain ⟨m, hm, p, hp, text, hsupplies, hmem⟩ :=
        ih habove (hnodup.sublist (hsub.map _)) hbrings
      exact ⟨m, List.mem_cons_of_mem n hm, p, hp, text, hsupplies.of_sublist hsub hnodup, hmem⟩

theorem mem_urlPath_iff (h : t.WritesPath nodes params accounts) (havoid : Avoid nodes '?') :
    '?' ∈ (Account.urlPath accounts).toList ↔ ∃ a ∈ accounts, a.Brings '?' := by
  rw [← h.mem_pathText_iff havoid, Account.urlPath]
  split
  · next hempty =>
    rw [String.isEmpty_iff.mp hempty]
    decide
  · rfl

end WritesPath

/-- Nothing that is supplied for the path of a node has the character. -/
def SuppliesNo (t : Tree) (c : Char) (id : NodeId) (params : Params) : Prop :=
  ∀ n ∈ alongPath (t.chain id), ∀ p ∈ n.declared, ∀ text,
    params.given.Supplies p.name (t.binderOut? n.id p.name) text → c ∉ text.toList

end Tree

namespace Router

variable {r : Router} {id : NodeId} {name u : String} {params : Params}

/-- **The url of a node without a host** is a path, written from its schemas, and the tail for what
these leave. -/
theorem IsSound.path_of_url (h : r.IsSound) (hid : r.tree.find? name = some id)
    (hhost : r.tree.host? id = none) (hnodup : params.names.Nodup)
    (hu : (r.url name params false).outcome = .ok u) :
    ∃ accounts, (r.tree.urlFront r.view r.options id params false).outcome =
        .ok (Account.urlPath accounts, params.leaving (r.tree.pathNames id)) ∧
      r.tree.WritesPath (Tree.alongPath (r.tree.chain id)) params.given accounts ∧
      u = Account.urlPath accounts ++ Form.tail r.options (params.leaving (r.tree.pathNames id)) := by
  have hschema : r.tree.hostSchema? r.options id false = .ok none := by
    rw [Tree.hostSchema?, hhost]
    rfl
  have hnames : r.tree.urlNames r.options id false = r.tree.pathNames id := by
    rw [Tree.urlNames, Tree.hostNames, hschema]
    exact List.append_nil _
  obtain ⟨front, hfront, rfl⟩ := h.front_of_url hid hnodup hu
  rw [hnames] at hfront ⊢
  obtain ⟨⟨path, rest⟩, hpath, hrest⟩ := Consult.bind_eq_ok.mp hfront
  obtain ⟨schema?, hschema', hrest⟩ := Consult.bind_eq_ok.mp hrest
  obtain rfl : none = schema? := Except.ok.inj (hschema.symm.trans hschema')
  obtain ⟨accounts, hwrites, rfl⟩ :=
    Tree.exists_writesPath (h.chain_ne_nil hid) h.view_chain hpath
  obtain rfl : Account.urlPath accounts = front := congrArg Prod.fst (Except.ok.inj hrest)
  exact ⟨accounts, hfront, hwrites, rfl⟩

/-- A url without a host is cut at the end of its path just if no parameter brings a question mark
into the path, and none does if none is supplied. -/
theorem IsSound.cut_of_url (h : r.IsSound) (hquery : r.options.appendQuery = true)
    (hid : r.tree.find? name = some id) (hhost : r.tree.host? id = none)
    (havoid : Tree.Avoid (Tree.alongPath (r.tree.chain id)) '?') (hnodup : params.names.Nodup)
    (hu : (r.url name params false).outcome = .ok u) :
    ∃ accounts, (r.tree.urlFront r.view r.options id params false).outcome =
        .ok (Account.urlPath accounts, params.leaving (r.tree.pathNames id)) ∧
      r.tree.WritesPath (Tree.alongPath (r.tree.chain id)) params.given accounts ∧
      (r.tree.SuppliesNo '?' id params → ∀ a ∈ accounts, ¬a.Brings '?') ∧
      ((Form.cut u).1 = Account.urlPath accounts ↔ ∀ a ∈ accounts, ¬a.Brings '?') ∧
      ((∀ a ∈ accounts, ¬a.Brings '?') → (Form.cut u).2 =
        if (params.leaving (r.tree.pathNames id)).isEmpty then none
        else some (Form.queryText (params.leaving (r.tree.pathNames id)))) := by
  obtain ⟨accounts, hfront, hwrites, rfl⟩ := h.path_of_url hid hhost hnodup hu
  have hmem : '?' ∉ (Account.urlPath accounts).toList ↔ ∀ a ∈ accounts, ¬a.Brings '?' := by
    rw [hwrites.mem_urlPath_iff havoid]
    push Not
    rfl
  refine ⟨accounts, hfront, hwrites, fun hsupplies a ha hbrings => ?_,
    ⟨fun hpath => ?_, fun hnone => ?_⟩, fun hnone => ?_⟩
  · obtain ⟨n, hn, p, hp, text, hsupplied, htext⟩ :=
      hwrites.exists_supplies havoid (Params.nodup_filter hnodup _) ⟨a, ha, hbrings⟩
    exact hsupplies n hn p hp text hsupplied htext
  · exact hmem.mp (hpath ▸ Form.not_mem_cut _)
  · rw [Form.cut_tail (hmem.mpr hnone)]
  · rw [Form.cut_tail (hmem.mpr hnone), hquery, Bool.true_and]
    cases (params.leaving (r.tree.pathNames id)).isEmpty <;> rfl

/-- **Where a url is cut**, in a router whose urls have queries, if there is no host, and no question
mark in a schema. The cut is at the end of the path just if no parameter has brought a question
mark into the path, and then what stands behind it is the query of the values that are left over.

No parameter brings one if nothing that is supplied for a parameter of the path has one. Then what
stands behind the cut depends on nothing but the values that are left over. -/
theorem cut_at_query (hr : r.Reachable) (hquery : r.options.appendQuery = true)
    (hid : r.tree.find? name = some id) (hhost : r.tree.host? id = none)
    (havoid : Tree.Avoid (Tree.alongPath (r.tree.chain id)) '?') (hnodup : params.names.Nodup)
    (hu : (r.url name params false).outcome = .ok u) :
    ∃ path left accounts,
      (r.tree.urlFront r.view r.options id params false).outcome = .ok (path, left) ∧
      left = params.leaving (r.tree.pathNames id) ∧
      r.tree.WritesPath (Tree.alongPath (r.tree.chain id)) params.given accounts ∧
      path = Account.urlPath accounts ∧
      ((Form.cut u).1 = path ↔ ∀ a ∈ accounts, ¬a.Brings '?') ∧
      ((∀ a ∈ accounts, ¬a.Brings '?') → Form.query left = .ok ((Form.cut u).2.getD "")) ∧
      (r.tree.SuppliesNo '?' id params → (∀ a ∈ accounts, ¬a.Brings '?') ∧
        ∀ (params' : Params) (u' : String), params'.names.Nodup →
          params'.leaving (r.tree.pathNames id) = left → r.tree.SuppliesNo '?' id params' →
          (r.url name params' false).outcome = .ok u' → (Form.cut u').2 = (Form.cut u).2) := by
  have hsound := hr.isSound
  obtain ⟨accounts, hfront, hwrites, hclean, hpath, hcut⟩ :=
    hsound.cut_of_url hquery hid hhost havoid hnodup hu
  refine ⟨_, _, accounts, hfront, rfl, hwrites, rfl, hpath, fun hnone => ?_,
    fun hsupplies => ⟨hclean hsupplies, fun params' u' hnodup' hleft hsupplies' hu' => ?_⟩⟩
  · rw [Form.query_eq, hcut hnone]
    split
    · next hempty => exact congrArg Except.ok (Form.queryText_of_isEmpty hempty)
    · rfl
  · obtain ⟨accounts', -, -, hclean', -, hcut'⟩ :=
      hsound.cut_of_url hquery hid hhost havoid hnodup' hu'
    rw [hcut (hclean hsupplies), hcut' (hclean' hsupplies'), hleft]

/-- A search for what is asked for, in a language. -/
def searchPage : Router :=
  ((new {}).runAll [.group "/\x7blang\x7d" none
    (.step false (.route "/s/\x7bq\x7d" (some "s") none (.identifier "") []) .done)]).1

/-- What is asked for, in English, and a page. -/
def asked (q page : String) : Params := ⟨[("q", .str q), ("lang", .str "en"), ("page", .str page)]⟩

theorem avoid_searchPage : Tree.Avoid (Tree.alongPath (searchPage.tree.chain 2)) '?' := by
  have htexts : (Tree.alongPath (searchPage.tree.chain 2)).map (fun n => Schema.textsIn n.schema) =
      [["/s/"], ["/"]] := by cbv
  have hall : ∀ texts ∈ [["/s/"], ["/"]], ∀ text ∈ texts, '?' ∉ text.toList := by decide
  exact fun n hn => hall _ (htexts ▸ List.mem_map_of_mem hn)

theorem suppliesNo_searchPage : searchPage.tree.SuppliesNo '?' 2 (asked "a&b" "1?") := by
  have hnodes : (Tree.alongPath (searchPage.tree.chain 2)).map (fun n => (n.id, n.declared)) =
      [(2, [.bare "q" none]), (1, [.bare "lang" none])] := by cbv
  intro n hn p hp text hsupplies
  have hmem : (n.id, n.declared) ∈ [(2, [Parameter.bare "q" none]), (1, [.bare "lang" none])] :=
    hnodes ▸ List.mem_map_of_mem hn
  rcases List.mem_pair.mp hmem with h | h
  all_goals
    obtain ⟨hid, hdeclared⟩ := Prod.mk.inj h
    rw [hdeclared] at hp
    obtain rfl := List.mem_singleton.mp hp
    rw [hid] at hsupplies
    -- there are no binders, so it is the text of the value
    cases hsupplies with
    | plain value text_eq =>
      cases value
      cases text_eq
      decide

set_option maxRecDepth 4000 in
/-- An ampersand in the path and a question mark in the query do no harm. -/
theorem cut_at_query_of_page :
    searchPage.options.appendQuery = true ∧ searchPage.tree.find? "s" = some 2 ∧
      searchPage.tree.host? 2 = none ∧
      Tree.Avoid (Tree.alongPath (searchPage.tree.chain 2)) '?' ∧
      (asked "a&b" "1?").names.Nodup ∧ searchPage.tree.SuppliesNo '?' 2 (asked "a&b" "1?") ∧
      ∃ u, (searchPage.url "s" (asked "a&b" "1?") false).outcome = .ok u ∧
        (Form.cut u).1 = "/en/s/a&b" ∧
        Form.query ⟨[("page", .str "1?")]⟩ = .ok ((Form.cut u).2.getD "") := by
  have hid : searchPage.tree.find? "s" = some 2 := by rfl
  have hnodup : (asked "a&b" "1?").names.Nodup := by decide
  have hu : (searchPage.url "s" (asked "a&b" "1?") false).outcome =
      .ok "/en/s/a&b?page=1%3F" := by cbv
  have hfront : (searchPage.tree.urlFront searchPage.view searchPage.options 2
      (asked "a&b" "1?") false).outcome = .ok ("/en/s/a&b", ⟨[("page", .str "1?")]⟩) := by cbv
  obtain ⟨path, left, accounts, hfront', -, -, -, hpath, hquery, hclean⟩ :=
    cut_at_query ⟨{}, _, rfl⟩ rfl hid rfl avoid_searchPage hnodup hu
  obtain ⟨rfl, rfl⟩ : path = "/en/s/a&b" ∧ left = ⟨[("page", .str "1?")]⟩ :=
    Prod.mk.injEq .. ▸ Except.ok.inj (hfront'.symm.trans hfront)
  have hnone := (hclean suppliesNo_searchPage).1
  exact ⟨rfl, hid, rfl, avoid_searchPage, hnodup, suppliesNo_searchPage, _, hu, hpath.mpr hnone,
    hquery hnone⟩

set_option maxRecDepth 4000 in
/-- **A value can move the cut.** With a question mark in what is asked for, and no page, the url has
a query although nothing is left over. It is the url of another search, with a page. -/
theorem cut_in_path :
    searchPage.options.appendQuery = true ∧ searchPage.tree.find? "s" = some 2 ∧
      searchPage.tree.host? 2 = none ∧
      Tree.Avoid (Tree.alongPath (searchPage.tree.chain 2)) '?' ∧
      (asked "a?page=1" "").names.Nodup ∧
      (searchPage.tree.urlFront searchPage.view searchPage.options 2
        (asked "a?page=1" "") false).outcome = .ok ("/en/s/a?page=1", .empty) ∧
      (searchPage.url "s" (asked "a?page=1" "") false).outcome = .ok "/en/s/a?page=1" ∧
      Form.cut "/en/s/a?page=1" = ("/en/s/a", some "page=1") ∧
      (searchPage.url "s" (asked "a" "1") false).outcome = .ok "/en/s/a?page=1" := by
  refine ⟨rfl, rfl, rfl, avoid_searchPage, by decide, ?_, ?_, by decide, ?_⟩
  · cbv
  · cbv
  · cbv

end Router

end UrlRouting
