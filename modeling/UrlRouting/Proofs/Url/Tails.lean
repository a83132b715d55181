import Mathlib
import UrlRouting.Proofs.Router.Arena
import UrlRouting.Proofs.Url.Consumption
import UrlRouting.Proofs.Url.Leaves

/-!
# What a url ends in

A url is a front, which is written from schemas, and a tail, which is made of the values that no
schema has used up (`UrlRouting.Tree.outcome_url`): those that count as given and whose names are
declared neither along the path nor by the schema of the host
(`UrlRouting.Tree.left_of_urlFront`).

Whether there is a tail is decided by these values, and not by the pairs that they become. So there
are three cases (`UrlRouting.Router.url_ends_in`): nothing is left and there is no tail; pairs are
left, and the tail is a question mark and the query; or values are left that have no leaf, such as
an empty list, and the url ends in a question mark with nothing behind it
(`UrlRouting.Router.url_ends_in_mark`).
-/

namespace UrlRouting

/-! ### Tails -/

namespace Form

/-- What follows the front of a url, given the values that are left. -/
def tail (options : Options) (left : Params) : String :=
  if options.appendQuery && !left.isEmpty then "?" ++ queryText left else ""

theorem tail_of_isEmpty {options : Options} {left : Params} (h : left.isEmpty = true) :
    tail options left = "" := by
  rw [tail, h, Bool.not_true, Bool.and_false]
  rfl

theorem tail_of_appendQuery {options : Options} {left : Params} (hquery : options.appendQuery = true)
    (h : left.isEmpty = false) : tail options left = "?" ++ queryText left := by
  rw [tail, hquery, h]
  rfl

theorem queryText_of_isEmpty {params : Params} (h : params.isEmpty = true) :
    queryText params = "" := by
  rw [queryText, query, paramPairs, List.isEmpty_iff.mp h]
  rfl

/-- There are no pairs just if there are no leaves. -/
theorem paramPairs_eq_nil_iff {params : Params} :
    paramPairs params = .ok [] ↔ params.leaves = [] := by
  rw [paramPairs_eq]
  constructor
  · intro hpairs
    cases hleaves : params.leaves with
    | nil => rfl
    | cons leaf leaves =>
      rw [hleaves, List.mapM_cons] at hpairs
      obtain ⟨pair, -, hpairs⟩ := Schema.bind_eq_ok_iff.mp hpairs
      obtain ⟨pairs, -, hpairs⟩ := Schema.bind_eq_ok_iff.mp hpairs
      cases hpairs
  · intro hleaves
    rw [hleaves]
    rfl

/-- Only of no pairs the encoding is empty, since it can be read back. -/
theorem encode_eq_empty_iff {pairs : List (String × String)} : encode pairs = "" ↔ pairs = [] := by
  constructor
  · intro hempty
    have hread : decode? (encode pairs) = some pairs := decode?_encode pairs
    rw [hempty] at hread
    exact (Option.some.inj hread).symm
  · rintro rfl
    rfl

/-- **A query is empty just if there are no leaves.** -/
theorem queryText_eq_empty_iff {params : Params} : queryText params = "" ↔ params.leaves = [] := by
  obtain ⟨pairs, hpairs⟩ := exists_paramPairs params
  have htext : queryText params = encode pairs := by
    rw [queryText, query, hpairs]
    rfl
  rw [htext, encode_eq_empty_iff, ← paramPairs_eq_nil_iff, hpairs, Except.ok.injEq]

end Form

/-! ### Fronts -/

namespace Consult

/-- The answer to two pieces is that of the second one for the answer to the first one. -/
theorem outcome_bind {α β : Type} (x : Consult α) (f : α → Consult β) :
    (x >>= f).outcome = x.outcome >>= fun a => (f a).outcome := by
  cases h : x.outcome with
  | ok a => rw [bind_of_ok h]; rfl
  | error e => rw [bind_of_error h]; rfl

end Consult

namespace Params

theorem leaving_given (p : Params) (names : List String) : p.given.leaving names = p.leaving names := by
  refine congrArg mk (List.filter_filter.trans (List.filter_congr fun e _ => ?_))
  rw [Bool.and_right_comm, Bool.and_self]

end Params

namespace Tree

variable {t : Tree} {view : View} {options : Options} {id : NodeId} {params left : Params}
  {absolute : Bool} {front : String}

/-- The names that the schema of the host of a url declares, if there is one. -/
def hostNames (t : Tree) (options : Options) (id : NodeId) (absolute : Bool) : List String :=
  match t.hostSchema? options id absolute with
  | .ok (some schema) => (Schema.declaredIn schema).map (·.name)
  | _ => []

/-- The names that the schemas of a url declare. -/
def urlNames (t : Tree) (options : Options) (id : NodeId) (absolute : Bool) : List String :=
  t.pathNames id ++ t.hostNames options id absolute

/-- **A url is its front and its tail.** -/
theorem outcome_url : (t.url view options id params absolute).outcome =
    (t.urlFront view options id params absolute).outcome.map
      fun f => f.1 ++ Form.tail options f.2 := by
  rw [url, Consult.outcome_bind]
  cases (t.urlFront view options id params absolute).outcome with
  | error e => rfl
  | ok f =>
    obtain ⟨front, left⟩ := f
    change (if _ then _ else _ : Consult String).outcome = .ok (front ++ Form.tail options left)
    rw [Form.tail]
    split
    · rw [Form.query_eq, ← String.append_assoc]
      rfl
    · rw [String.append_empty]
      rfl

theorem outcome_url_eq_ok {u : String} (h : (t.url view options id params absolute).outcome = .ok u) :
    ∃ front left, (t.urlFront view options id params absolute).outcome = .ok (front, left) ∧
      u = front ++ Form.tail options left := by
  rw [outcome_url] at h
  cases hfront : (t.urlFront view options id params absolute).outcome with
  | error e =>
    rw [hfront] at h
    cases h
  | ok f =>
    rw [hfront] at h
    exact ⟨f.1, f.2, rfl, (Except.ok.inj h).symm⟩

/-- A host uses up the names of its schema. -/
theorem left_of_hostText {schema host : String} (hnodup : params.names.Nodup)
    (h : t.hostText options id schema params = .ok (host, left)) :
    left = params.leaving ((Schema.declaredIn schema).map (·.name)) := by
  obtain ⟨c, hcompiled, h⟩ := Schema.bind_eq_ok_iff.mp h
  obtain ⟨⟨text, rest⟩, hfill, h⟩ := Schema.bind_eq_ok_iff.mp h
  obtain rfl : rest = left := congrArg Prod.snd (Except.ok.inj h)
  obtain ⟨s, hs, hc⟩ := CompiledSchema.exists_compile (mapError_eq_ok hcompiled)
  rw [Schema.declaredIn_eq hs]
  exact left_of_fillSchema hc hnodup hfill

/-- **What the front of a url leaves**: the values that count as given and whose names are declared
by none of its schemas. -/
theorem left_of_urlFront (hne : t.chain id ≠ [])
    (hnodes : ∀ n ∈ t.chain id, ∃ ctx, view n.id = n.compile ctx) (hnodup : params.names.Nodup)
    (h : (t.urlFront view options id params absolute).outcome = .ok (front, left)) :
    left = params.leaving (t.urlNames options id absolute) := by
  obtain ⟨⟨path, rest⟩, hpath, h⟩ := Consult.bind_eq_ok.mp h
  have hgiven : params.given.names.Nodup := Params.nodup_filter hnodup _
  have hrest : rest = params.leaving (t.pathNames id) :=
    (left_of_pathOf hne hnodes hgiven hpath).trans (Params.leaving_given params _)
  obtain ⟨schema?, hschema, h⟩ := Consult.bind_eq_ok.mp h
  have hschema : t.hostSchema? options id absolute = .ok schema? := hschema
  rw [urlNames, hostNames, hschema]
  cases schema? with
  | none =>
    obtain rfl : rest = left := congrArg Prod.snd (Except.ok.inj h)
    rw [hrest, List.append_nil]
  | some schema =>
    obtain ⟨⟨host, final⟩, hhost, h⟩ := Consult.bind_eq_ok.mp h
    obtain rfl : final = left := congrArg Prod.snd (Except.ok.inj h)
    have hnodup' : rest.names.Nodup := hrest ▸ Params.nodup_filter hnodup _
    rw [left_of_hostText hnodup' hhost, hrest, Params.leaving_leaving]

end Tree

namespace Router

variable {r : Router} {id : NodeId} {name u : String} {params : Params} {absolute : Bool}

/-- What is seen of the nodes of a chain. -/
theorem IsSound.view_chain (h : r.IsSound) :
    ∀ n ∈ r.tree.chain id, ∃ ctx, r.view n.id = n.compile ctx := by
  intro n hn
  obtain ⟨ctx, -, hview⟩ := h.view_eq (h.tree.mem_iff.mp (Tree.mem_of_mem_chain hn))
  exact ⟨ctx, hview⟩

/-- What has a name has a chain. -/
theorem IsSound.chain_ne_nil (h : r.IsSound) (hid : r.tree.find? name = some id) :
    r.tree.chain id ≠ [] := by
  obtain ⟨n, hn⟩ : ∃ n, r.tree.get? id = some n :=
    ⟨_, List.getElem?_eq_getElem (h.tree.lt_size_of_find? hid)⟩
  rw [h.tree.chain_eq hn]
  exact List.cons_ne_nil _ _

/-- **The url of a name that there is** is its front, with the tail for what is not declared. -/
theorem IsSound.outcome_url (h : r.IsSound) (hid : r.tree.find? name = some id)
    (hnodup : params.names.Nodup) : (r.url name params absolute).outcome =
      ((r.tree.urlFront r.view r.options id params absolute).outcome.map (·.1)).map
        (· ++ Form.tail r.options (params.leaving (r.tree.urlNames r.options id absolute))) := by
  rw [Router.url, hid]
  refine Tree.outcome_url.trans ?_
  cases hfront : (r.tree.urlFront r.view r.options id params absolute).outcome with
  | error e => rfl
  | ok f =>
    have hleft : f.2 = params.leaving (r.tree.urlNames r.options id absolute) :=
      Tree.left_of_urlFront (h.chain_ne_nil hid) h.view_chain hnodup hfront
    rw [← hleft]
    rfl

/-- **The url of a name that there is** has a front, which leaves what is not declared, and the tail
for that. -/
theorem IsSound.front_of_url (h : r.IsSound) (hid : r.tree.find? name = some id)
    (hnodup : params.names.Nodup) (hu : (r.url name params absolute).outcome = .ok u) :
    ∃ front, (r.tree.urlFront r.view r.options id params absolute).outcome =
        .ok (front, params.leaving (r.tree.urlNames r.options id absolute)) ∧
      u = front ++ Form.tail r.options (params.leaving (r.tree.urlNames r.options id absolute)) := by
  rw [Router.url, hid] at hu
  obtain ⟨front, left, hfront, rfl⟩ := Tree.outcome_url_eq_ok hu
  obtain rfl := Tree.left_of_urlFront (h.chain_ne_nil hid) h.view_chain hnodup hfront
  exact ⟨front, hfront, rfl⟩

/-- **What a url ends in**, in a router whose urls have queries. If pairs are left over, it is its
front, a question mark and the query, which is not empty; if no values are left over, it is its
front alone. If values are left over but no pairs, there is a question mark all the same. -/
theorem url_ends_in (hr : r.Reachable) (hquery : r.options.appendQuery = true)
    (hid : r.tree.find? name = some id) (hnodup : params.names.Nodup)
    (hu : (r.url name params absolute).outcome = .ok u) :
    ∃ front left, (r.tree.urlFront r.view r.options id params absolute).outcome =
        .ok (front, left) ∧
      left = params.leaving (r.tree.urlNames r.options id absolute) ∧
      (left.leaves ≠ [] →
        ∃ text, Form.query left = .ok text ∧ u = front ++ "?" ++ text ∧ text ≠ "") ∧
      (left.isEmpty = true → u = front) ∧
      (left.isEmpty = false → left.leaves = [] → u = front ++ "?") := by
  obtain ⟨front, hfront, rfl⟩ := hr.isSound.front_of_url hid hnodup hu
  refine ⟨front, _, hfront, rfl, fun hleaves => ?_, fun hnone => ?_, fun hsome hleaves => ?_⟩
  · have hsome : (params.leaving (r.tree.urlNames r.options id absolute)).isEmpty = false := by
      refine Bool.eq_false_iff.mpr fun hnone => hleaves ?_
      exact Form.queryText_eq_empty_iff.mp (Form.queryText_of_isEmpty hnone)
    rw [Form.tail_of_appendQuery hquery hsome, ← String.append_assoc]
    exact ⟨_, Form.query_eq _, rfl, mt Form.queryText_eq_empty_iff.mp hleaves⟩
  · rw [Form.tail_of_isEmpty hnone, String.append_empty]
  · rw [Form.tail_of_appendQuery hquery hsome, Form.queryText_eq_empty_iff.mpr hleaves,
      String.append_empty]

/-- A search in a group, with a host that has a parameter. -/
def searchOnHost : Router :=
  ((new {}).runAll [.group "/\x7blang\x7d" none
    (.step false (.setting (.host "\x7bregion\x7d.example.com"))
      (.step false (.route "/search" (some "search") none (.identifier "") []) .done))]).1

/-- Values for the search: a language, a region, tags of which one is null, and an empty list. -/
def searchValues : Params :=
  ⟨[("tags", .arr [.null, .str "x"]), ("lang", .str "en"), ("none", .arr []), ("region", .str "eu")]⟩

/-- The values that the search leaves. -/
def searchLeft : Params := ⟨[("tags", .arr [.null, .str "x"]), ("none", .arr [])]⟩

set_option maxRecDepth 4000 in
theorem urlFront_searchOnHost :
    (searchOnHost.tree.urlFront searchOnHost.view searchOnHost.options 2 searchValues false).outcome =
      .ok ("http://eu.example.com/en/search", searchLeft) := by
  have hpath : (searchOnHost.tree.pathOf searchOnHost.view (searchOnHost.tree.chain 2)
      searchValues.given).outcome = .ok ("/en/search",
        ⟨[("tags", .arr [.null, .str "x"]), ("none", .arr []), ("region", .str "eu")]⟩) := by cbv
  rw [Tree.urlFront, Consult.bind_of_ok hpath]
  rfl

/-- The language goes into the path and the region into the host, and of what is left, one tag has a
pair. -/
theorem url_ends_in_query :
    searchOnHost.options.appendQuery = true ∧ searchOnHost.tree.find? "search" = some 2 ∧
      searchValues.names.Nodup ∧
      ∃ u, (searchOnHost.url "search" searchValues false).outcome = .ok u ∧
        searchLeft = searchValues.leaving (searchOnHost.tree.urlNames searchOnHost.options 2 false) ∧
        searchLeft.leaves ≠ [] ∧
        ∃ text, Form.query searchLeft = .ok text ∧
          u = "http://eu.example.com/en/search" ++ "?" ++ text ∧ text ≠ "" := by
  have hid : searchOnHost.tree.find? "search" = some 2 := by rfl
  have hnodup : searchValues.names.Nodup := by decide
  have hfront := urlFront_searchOnHost
  have hu : (searchOnHost.url "search" searchValues false).outcome =
      .ok ("http://eu.example.com/en/search" ++ Form.tail searchOnHost.options searchLeft) := by
    rw [Router.url, hid, Tree.outcome_url, hfront]
    rfl
  obtain ⟨front, left, hfront', hleft, hpairs, -⟩ := url_ends_in ⟨{}, _, rfl⟩ rfl hid hnodup hu
  obtain ⟨rfl, rfl⟩ : front = "http://eu.example.com/en/search" ∧ left = searchLeft :=
    Prod.mk.injEq .. ▸ Except.ok.inj (hfront'.symm.trans hfront)
  have hleaves : searchLeft.leaves ≠ [] := List.cons_ne_nil _ _
  exact ⟨rfl, hid, hnodup, _, hu, hleft, hleaves, hpairs hleaves⟩

/-- A search alone. -/
def search : Router :=
  ((new {}).runAll [.route "/search" (some "search") none (.identifier "")]).1

/-- **A question mark may be left over**: of an empty list there are no pairs, and the url ends in a
question mark with nothing behind it. -/
theorem url_ends_in_mark :
    search.options.appendQuery = true ∧
      (search.tree.urlFront search.view search.options 1 ⟨[("tags", .arr [])]⟩ false).outcome =
        .ok ("/search", ⟨[("tags", .arr [])]⟩) ∧
      Form.paramPairs ⟨[("tags", .arr [])]⟩ = .ok [] ∧
      (search.url "search" ⟨[("tags", .arr [])]⟩ false).outcome = .ok "/search?" := by
  refine ⟨rfl, ?_, rfl, ?_⟩
  · cbv
  · cbv

end Router

end UrlRouting
