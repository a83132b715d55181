import Mathlib
import UrlRouting.Proofs.Matching.Rows
import UrlRouting.Proofs.Router.Nesting
import UrlRouting.Proofs.Schema.Space

/-!
# Urls that lead back

In a router that is one chain of groups around a named route, all of them with rows of components
for schemas (`UrlRouting.Router.IsChain`), a url of the route leads back to it: the search finds the
route, the clean values are those that stand in the path, and the bound values are those that the
url was asked for with (`UrlRouting.Router.url_round_trip`). The binders of each node only have to
undo each other on these values.

The nodes have to compile, and all that can keep them from it is the engine, which refuses
expressions that would take too much space. Some such chains are refused: a single literal may be
too long (`UrlRouting.Router.long_route_has_no_url`).
-/

namespace UrlRouting

open Regex Component

/-! ### Lines -/

section Lines

variable {comps : List Component} {value : String → Value} {v : Value}

/-- Only texts may have line breaks in them. -/
theorem not_mem_textOf (h : ∀ s, v = .str s → '\n' ∉ s.toList) : '\n' ∉ (textOf v).toList := by
  cases v with
  | str s => exact h s rfl
  | int n =>
    intro hmem
    obtain ⟨ds, -, hds, ⟨-, hn⟩ | ⟨-, hn⟩⟩ := Decimal.exists_digits n
    · rw [textOf, hn] at hmem
      exact absurd (hds _ hmem) (by decide)
    · rw [textOf, hn] at hmem
      rcases List.mem_cons.mp hmem with heq | hmem
      · exact absurd heq (by decide)
      · exact absurd (hds _ hmem) (by decide)
  | bool b => cases b <;> decide
  | _ => exact List.not_mem_nil

/-- The text of components is one line if that of each of them is. -/
theorem not_mem_pathText (hliterals : ∀ text, .literal text ∈ comps → '\n' ∉ text.toList)
    (hvalues : ∀ n ∈ names comps, ∀ s, value n = .str s → '\n' ∉ s.toList) :
    '\n' ∉ (pathText value comps).toList := by
  have hslash : '\n' ∉ "/".toList := by decide
  induction comps with
  | nil => exact List.not_mem_nil
  | cons comp comps ih =>
    have hrest := fun hvalues => ih (fun text hmem => hliterals text (List.mem_cons_of_mem _ hmem)) hvalues
    cases comp with
    | literal text =>
      rw [pathText, String.toList_append, String.toList_append, List.mem_append, List.mem_append,
        not_or, not_or]
      exact ⟨⟨hslash, hliterals text List.mem_cons_self⟩, hrest hvalues⟩
    | param name typeName =>
      rw [pathText, String.toList_append, String.toList_append, List.mem_append, List.mem_append,
        not_or, not_or]
      exact ⟨⟨hslash, not_mem_textOf (hvalues name List.mem_cons_self)⟩,
        hrest fun n hn => hvalues n (List.mem_cons_of_mem _ hn)⟩

end Lines

theorem Component.Fair.sublist {comps comps' : List Component} (h : Fair comps)
    (hsub : comps'.Sublist comps) : Fair comps' := by
  have hparams : (Component.params comps').Sublist (Component.params comps) := hsub.filterMap _
  exact ⟨fun p hp => h.types p (hparams.subset hp), (hparams.map _).nodup h.nodup⟩

theorem isEmpty_pathText {comps : List Component} (value : String → Value) (h : comps ≠ []) :
    (pathText value comps).isEmpty = false := by
  have hslash (text : String) : ("/" ++ text).isEmpty = false := by
    rw [Bool.eq_false_iff, Ne, String.isEmpty_iff, String.append_eq_empty_iff]
    exact fun hempty => absurd hempty.1 (by decide)
  cases comps with
  | nil => exact absurd rfl h
  | cons comp comps =>
    cases comp <;>
    · rw [pathText, String.append_assoc]
      exact hslash _

/-! ### The ends of a chain -/

namespace Tree

variable {t : Tree} {method : Option Method} {place : NodeId} {n : Node} {nodes : List Node}

/-- In front of its route, a chain has groups. -/
theorem Leads.isGroup (h : t.Leads method place (nodes ++ [n])) : ∀ m ∈ nodes, m.isGroup = true := by
  generalize hall : nodes ++ [n] = all at h
  induction h generalizing nodes with
  | route mem isIn kind answers =>
    obtain ⟨rfl, -⟩ := eq_of_append_cons_eq_singleton hall
    exact fun m hm => absurd hm List.not_mem_nil
  | group mem isIn isGroup inside ih =>
    cases nodes with
    | nil => exact absurd (List.cons.inj hall).2.symm inside.ne_nil
    | cons m nodes =>
      obtain ⟨rfl, hrest⟩ := List.cons.inj hall
      exact List.forall_mem_cons.mpr ⟨isGroup, ih hrest⟩

end Tree

namespace Router

variable {r : Router} {method : Option Method} {nodes : List Node} {last : Node} {name : String}
  {comps : Node → List Component} {domain clean : String → Value} {supplied : Params}

/-! ### Chains -/

/-- **A router that is one chain**: groups, each in the one in front of it, and a route in the last
one, with rows of components for schemas. No host is set, and no pattern or type of a parameter. -/
structure IsChain (r : Router) (nodes : List Node) (comps : Node → List Component) : Prop where
  /-- The nodes lead to a route. -/
  leads : ∃ method, r.tree.Leads method Tree.root nodes
  /-- Besides the root there are no others. -/
  only : r.tree.nodes.tail = nodes
  /-- The schemas are rows. -/
  schemas : ∀ n ∈ nodes, Schema.ofText n.schema = .ok (Schema.row "" (comps n) .done)
  /-- The types exist, and the names are distinct. -/
  fair : Fair (nodes.flatMap comps)
  /-- There is a component. -/
  ne_nil : nodes.flatMap comps ≠ []
  /-- No literal has a line break in it. -/
  literals : ∀ text, .literal text ∈ nodes.flatMap comps → '\n' ∉ text.toList
  /-- There is no host. -/
  host : ∀ n ∈ nodes, r.tree.host? n.id = none
  /-- There are no patterns and no types. -/
  overrides : ∀ n ∈ nodes, ∀ name, r.tree.override n.id name = {}
  /-- The default pattern is that of default options. -/
  defaultPattern : r.options.defaultPattern = Pattern.default

/-- **The engine accepts the expressions of a chain.** -/
def Accepts (nodes : List Node) (comps : Node → List Component) : Prop :=
  ∀ n ∈ nodes, ∀ source, n.matcherSource? ((Schema.row "" (comps n) .done).fragment {} 0) =
    some source → (Regex.compile? source).isSome

section Chain

variable (h : r.IsSound) (hchain : r.IsChain nodes comps)

include h hchain

/-- The nodes of a chain show the rows that their schemas are. -/
theorem IsChain.showsRows (haccepts : Accepts nodes comps) :
    Tree.ShowsRows r.view comps nodes := by
  intro n hn
  obtain ⟨method, hleads⟩ := hchain.leads
  have hs := hchain.schemas n hn
  refine ⟨hs, ?_⟩
  -- whenever the node was compiled, nothing was set
  obtain ⟨ctx, hctx, hview⟩ := h.view_eq (h.tree.mem_iff.mp (hleads.mem n hn))
  have hcompile : n.compile ctx = n.compile {} := by
    refine Node.compile_congr rfl rfl (fun p _ => ?_)
      (hctx.defaultPattern.trans hchain.defaultPattern)
    have hnone := hctx.overrides p.name (hchain.overrides n hn p.name)
    exact ⟨fun _ => congrArg Override.pattern hnone, fun _ => congrArg Override.typeName hnone⟩
  have hsub : (comps n).Sublist (nodes.flatMap comps) := by
    rw [List.flatMap_def]
    exact List.sublist_flatten_of_mem (List.mem_map_of_mem hn)
  have hcompiled : CompiledSchema.ofText n.schema {} =
      .ok ((Schema.row "" (comps n) .done).compiled {}) := by
    refine CompiledSchema.ofText_eq_ok_iff.mpr ⟨_, hs, ?_, rfl⟩
    rw [Schema.params_row, Schema.params, List.append_nil]
    exact (hchain.fair.sublist hsub).allResolve
  have haccepted := haccepts n hn
  rw [hview, hcompile, Node.compile, hcompiled]
  dsimp only
  rw [Schema.compiled]
  cases hsource : n.matcherSource? ((Schema.row "" (comps n) .done).fragment {} 0) with
  | none => exact ⟨_, rfl, rfl⟩
  | some source =>
    obtain ⟨r, hr⟩ := Option.isSome_iff_exists.mp (haccepted source hsource)
    dsimp only
    rw [hr]
    exact ⟨_, rfl, rfl⟩

/-- The root stands in front of a chain, and is none of its nodes. -/
theorem IsChain.exists_root : ∃ root, r.tree.nodes = root :: nodes ∧
    r.tree.chain Tree.root = [root] ∧ root.isGroup = false ∧ root.isIn Tree.root = false := by
  obtain ⟨root, hroot, hkind, hparent, -⟩ := h.tree.atRoot
  have hhead : r.tree.nodes.head? = some root := (List.head?_eq_getElem? ..).trans hroot
  obtain ⟨others, hnodes⟩ := List.head?_eq_some_iff.mp hhead
  have hothers : others = nodes := by rw [← hchain.only, hnodes, List.tail_cons]
  refine ⟨root, hothers ▸ hnodes, ?_, ?_, ?_⟩
  · rw [h.tree.chain_eq hroot, hparent]
  · rw [Node.isGroup, hkind]
  · rw [Node.isIn, hparent]
    rfl

/-- **The full name of the route is found.** -/
theorem IsChain.find?_eq (hlast : nodes.getLast? = some last) (hname : last.name = some name) :
    r.tree.find? (fullName name nodes) = some last.id := by
  obtain ⟨method, hleads⟩ := hchain.leads
  obtain ⟨root, hnodes, -, -, hin⟩ := hchain.exists_root h
  have hfound : Tree.lookIn r.tree.nodes Tree.root (fullName name nodes) = some last.id := by
    rw [hnodes, Tree.lookIn_cons hin]
    exact hleads.lookIn_eq h.tree hlast hname
  exact hfound

/-- **The url of the route** is the text of all components. -/
theorem IsChain.url_eq (haccepts : Accepts nodes comps) (hlast : nodes.getLast? = some last)
    (hname : last.name = some name) (hvalues : r.tree.ExchangesAll comps nodes domain clean)
    (hsupplied : supplied.Gives domain (names (nodes.flatMap comps))) :
    (r.url (fullName name nodes) supplied false).outcome =
      .ok (pathText clean (nodes.flatMap comps)) := by
  obtain ⟨method, hleads⟩ := hchain.leads
  obtain ⟨root, -, hroot, hgroup, -⟩ := hchain.exists_root h
  obtain ⟨above, rfl⟩ : ∃ above, nodes = above ++ [last] := List.getLast?_eq_some_iff.mp hlast
  have hlist : r.tree.chain last.id = (above ++ [last]).reverse ++ [root] := by
    rw [hleads.chain_eq h.tree, hroot]
  have hgroups : ∀ n ∈ (above ++ [last]).reverse.tail, n.isGroup = true := by
    rw [List.reverse_append, List.reverse_singleton, List.singleton_append, List.tail_cons]
    exact fun n hn => hleads.isGroup n (List.mem_reverse.mp hn)
  -- the path is written from the route upwards
  have hperm : (names ((above ++ [last]).reverse.flatMap comps)).Perm
      (names ((above ++ [last]).flatMap comps)) :=
    (((List.reverse_perm _).flatMap_right comps).filterMap _).map _
  have hrows : Tree.ShowsRows r.view comps (above ++ [last]).reverse := fun n hn =>
    hchain.showsRows h haccepts n (List.mem_reverse.mp hn)
  obtain ⟨left, hpath, hleft⟩ := Tree.pathOf_chain (by simp) hgroups hgroup hrows
    (fun n hn => hvalues n (List.mem_reverse.mp hn)) (hperm.nodup_iff.mpr hchain.fair.nodup)
    (hsupplied.congr fun name => hperm.mem_iff.symm)
  rw [List.reverse_reverse] at hpath
  have hne := isEmpty_pathText clean hchain.ne_nil
  have hempty : left.isEmpty = true := by rw [Params.isEmpty, hleft.entries_eq_nil, List.isEmpty_nil]
  have hhost : r.tree.hostSchema? r.options last.id false = .ok none := by
    rw [Tree.hostSchema?, hchain.host last (by simp)]
    rfl
  have hfront : (r.tree.urlFront r.view r.options last.id supplied false).outcome =
      .ok (pathText clean ((above ++ [last]).flatMap comps), left) := by
    rw [Tree.urlFront, hlist, hsupplied.given_eq hvalues.given, Consult.bind_of_ok hpath]
    dsimp only
    rw [hne, hhost]
    rfl
  rw [Router.url, hchain.find?_eq h hlast hname]
  dsimp only
  rw [Tree.url, Consult.bind_of_ok hfront]
  dsimp only
  rw [hempty, Bool.not_true, Bool.and_false]
  rfl

/-- **The path leads to the route**, and the values in it are found again. -/
theorem IsChain.findMatch_eq (haccepts : Accepts nodes comps) (hlast : nodes.getLast? = some last)
    (hvalues : r.tree.ExchangesAll comps nodes domain clean)
    (hlines : ∀ n ∈ names (nodes.flatMap comps), ∀ s, clean n = .str s → '\n' ∉ s.toList)
    (hleads : r.tree.Leads method Tree.root nodes) :
    ∃ m, (r.findMatch (pathText clean (nodes.flatMap comps)) method).outcome = .ok (last.id, m) ∧
      m.Carries (pathText clean (nodes.flatMap comps)) domain clean
        (names (nodes.flatMap comps)) := by
  obtain ⟨root, hnodes, -, -, hin⟩ := hchain.exists_root h
  obtain ⟨m, hm, hcarries⟩ := hleads.matchIn_rows h.tree hlast (hchain.showsRows h haccepts) hvalues
    hchain.fair.nodup (not_mem_pathText hchain.literals hlines)
  rw [← Tree.matchIn_skip hin, ← hnodes, ← Tree.match?_eq_matchIn] at hm
  refine ⟨m, ?_, hcarries⟩
  rw [findMatch, Consult.bind_of_ok hm]
  rfl

end Chain

/-- **A url of the route at the end of a chain leads back to it**, for every method that the route
answers to: the clean values are those that the binders send the given ones to, and the bound values
are the given ones. -/
theorem url_round_trip (hreachable : r.Reachable) (hchain : r.IsChain nodes comps)
    (haccepts : Accepts nodes comps) (hlast : nodes.getLast? = some last)
    (hname : last.name = some name) (hvalues : r.tree.ExchangesAll comps nodes domain clean)
    (hlines : ∀ n ∈ names (nodes.flatMap comps), ∀ s, clean n = .str s → '\n' ∉ s.toList)
    (hsupplied : supplied.Gives domain (names (nodes.flatMap comps))) :
    ∃ u, (r.url (fullName name nodes) supplied false).outcome = .ok u ∧
      ∀ method, r.tree.Leads method Tree.root nodes →
        ∃ m, (r.findMatch u method).outcome = .ok (last.id, m) ∧
          m.Carries u domain clean (names (nodes.flatMap comps)) :=
  ⟨_, hchain.url_eq hreachable.isSound haccepts hlast hname hvalues hsupplied,
    fun _ hleads => hchain.findMatch_eq hreachable.isSound haccepts hlast hvalues hlines hleads⟩

/-! ### A shop -/

/-- Adds a number to integers. -/
def addInt (number : Int) : Transform
  | .int n => .ok (.int (n + number))
  | v => .ok v

/-- A group with a binder: items are numbered from zero for actions, and from one in paths. -/
def shopGroup : Node where
  id := 1
  parent := some 0
  schema := "/shop"
  name := none
  kind := .group (some "shop.")
  settings := { binders := ⟨[("id", addInt (-1))], [("id", addInt 1)]⟩ }

/-- The route of an item. -/
def shopItem : Node where
  id := 2
  parent := some 1
  schema := "/\x7bid#int\x7d"
  name := some "item"
  kind := .route (some .get) (.identifier "")

/-- A router with the group and the route. -/
def shop : Router :=
  ((new {}).runAll [.group "/shop" (some "shop.")
    (.step false (.setting (.bind "id" (addInt (-1)) (addInt 1)))
      (.step false (.route "/\x7bid#int\x7d" (some "item") (some .get) (.identifier "") []) .done))]).1

/-- The rows of the group and the route. -/
def shopRows (n : Node) : List Component :=
  if n.isGroup then [.literal "shop"] else [.param "id" (some "int")]

theorem shop_rows :
    [shopGroup, shopItem].flatMap shopRows = [.literal "shop", .param "id" (some "int")] := rfl

theorem leads_shop : shop.tree.Leads (some .get) Tree.root [shopGroup, shopItem] := by
  have hnodes : shop.tree.nodes = Tree.empty.nodes ++ [shopGroup, shopItem] := rfl
  exact .group (hnodes ▸ by simp) rfl rfl (.route (hnodes ▸ by simp) rfl rfl (.inr rfl))

theorem isChain_shop : shop.IsChain [shopGroup, shopItem] shopRows := by
  have hboth {p : Node → Prop} (hgroup : p shopGroup) (hroute : p shopItem) :
      ∀ n ∈ [shopGroup, shopItem], p n := by
    rintro n hn
    rcases List.mem_pair.mp hn with rfl | rfl
    · exact hgroup
    · exact hroute
  refine ⟨⟨_, leads_shop⟩, rfl, hboth rfl rfl, ?_, nofun, ?_, hboth rfl rfl,
    hboth (fun _ => rfl) fun _ => rfl, rfl⟩
  · rw [shop_rows]
    refine ⟨fun p hp type htype => ?_, List.nodup_singleton "id"⟩
    obtain rfl := List.mem_singleton.mp hp
    obtain rfl := Option.some.inj htype
    decide
  · rw [shop_rows]
    intro text htext
    rcases List.mem_pair.mp htext with heq | heq
    · obtain rfl := Component.literal.inj heq
      decide
    · cases heq

set_option maxRecDepth 4000 in
theorem url_round_trip_item :
    ∃ u, (shop.url "shop.item" ⟨[("id", .int 6)]⟩ false).outcome = .ok u ∧
      ∃ m, (shop.findMatch u (some .get)).outcome = .ok (2, m) ∧
        m.Carries u (fun _ => .int 6) (fun _ => .int 7) ["id"] := by
  have haccepts : Accepts [shopGroup, shopItem] shopRows := by
    intro n hn source hsource
    rcases List.mem_pair.mp hn with rfl | rfl
    · obtain rfl := Option.some.inj hsource
      cbv
    · obtain rfl := Option.some.inj hsource
      cbv
  have hvalues : shop.tree.ExchangesAll shopRows [shopGroup, shopItem] (fun _ => .int 6)
      fun _ => .int 7 := by
    rintro n hn p hp
    rcases List.mem_pair.mp hn with rfl | rfl
    · cases hp
    · obtain rfl := List.mem_singleton.mp hp
      exact ⟨show Decimal.isSigned64 7 = true by decide, rfl, rfl, rfl⟩
  have hsupplied : (Params.mk (["id"].map fun n => (n, .int 6))).Gives (fun _ => .int 6) ["id"] :=
    Params.gives_map (List.nodup_singleton "id")
  obtain ⟨u, hu, hfind⟩ := url_round_trip ⟨{}, _, rfl⟩ isChain_shop haccepts rfl rfl hvalues
    (fun _ _ s hs => by cases hs) hsupplied
  exact ⟨u, hu, hfind (some .get) leads_shop⟩

/-! ### Words -/

/-- The route of a word. -/
def wordRoute (word : String) : Node where
  id := 1
  parent := some 0
  schema := "/" ++ word
  name := some "word"
  kind := .route none (.identifier "A@b")

/-- A router with the route of a word. -/
def dictionary (word : String) : Router :=
  ((new {}).runAll [.route ("/" ++ word) (some "word") none (.identifier "A@b")]).1

/-- A row of one word. -/
def wordRows (word : String) (_ : Node) : List Component := [.literal word]

section Word

variable {word : String}

theorem ne_empty_of_slash (word : String) : "/" ++ word ≠ "" := fun h =>
  absurd (String.append_eq_empty_iff.mp h).1 (by decide)

theorem row_word (word : String) :
    Schema.row "" [.literal word] .done = .literal ("/" ++ word) .done := by
  rw [Schema.row, Schema.row, String.empty_append, if_neg (ne_empty_of_slash word)]

theorem isChain_dictionary (hplain : ∀ c ∈ word.toList, c ∉ ['{', '[', ']', '}', '\\', '\n']) :
    (dictionary word).IsChain [wordRoute word] (wordRows word) := by
  have hone {p : Node → Prop} (h : p (wordRoute word)) : ∀ n ∈ [wordRoute word], p n :=
    fun n hn => List.mem_singleton.mp hn ▸ h
  have hleads : (dictionary word).tree.Leads none Tree.root [wordRoute word] :=
    .route (List.mem_cons_of_mem _ List.mem_cons_self) rfl rfl (.inl rfl)
  refine ⟨⟨none, hleads⟩, rfl, hone ?_, ⟨nofun, List.nodup_nil⟩, nofun, ?_, hone rfl,
    hone fun _ => rfl, rfl⟩
  · rw [wordRows, row_word]
    refine Schema.ofText_literal (ne_empty_of_slash word) fun c hc hmem => ?_
    have hc : c ∈ ("/" ++ word).toList := hc
    rw [String.toList_append] at hc
    rcases List.mem_append.mp hc with hc | hc
    · obtain rfl := List.mem_singleton.mp hc
      exact absurd hmem (by decide)
    · exact hplain c hc (List.mem_append_left ['\n'] hmem)
  · intro text htext hline
    obtain rfl := Component.literal.inj (List.mem_singleton.mp htext)
    exact hplain _ hline (by decide)

/-- A word that is too long has no url. -/
theorem url_dictionary (hplain : ∀ c ∈ word.toList, c ∉ ['{', '[', ']', '}', '\\', '\n'])
    (hlong : Regex.Expr.sizeLimit ≤ Size.state * word.length) :
    ((dictionary word).url "word" ⟨[]⟩ false).outcome =
      .error (.schema ⟨"/" ++ word, .invalidPattern ""⟩) := by
  have hschema := (isChain_dictionary hplain).schemas _ List.mem_cons_self
  rw [wordRows, row_word] at hschema
  have hrefused : Regex.compile? ((Schema.literal ("/" ++ word) .done).compiled {}).whole = none := by
    refine Schema.compile?_of_long_literal (Nat.le_trans hlong (Nat.mul_le_mul_left _ ?_))
    rw [String.length_append]
    exact Nat.le_add_left _ _
  -- literal text compiles alike, whatever is set
  have hcompile (ctx : CompileContext) : (wordRoute word).compile ctx =
      .error ⟨"/" ++ word, .invalidPattern ""⟩ := by
    have hok : CompiledSchema.ofText (wordRoute word).schema ctx =
        .ok ((Schema.literal ("/" ++ word) .done).compiled {}) :=
      CompiledSchema.ofText_eq_ok_iff.mpr ⟨_, hschema, Parameter.allResolve_nil ctx [], rfl⟩
    have hsource : Regex.compile? ("^" ++ ((Schema.literal ("/" ++ word) .done).compiled {}).fragment
        ++ "$") = none := hrefused
    rw [Node.compile, hok]
    dsimp only [Node.matcherSource?, wordRoute]
    rw [hsource]
  have hview : (dictionary word).view 1 = .error ⟨"/" ++ word, .invalidPattern ""⟩ := hcompile _
  have hfind : (dictionary word).tree.find? "word" = some 1 := rfl
  have hchain : ∃ above, (dictionary word).tree.chain 1 = wordRoute word :: above := ⟨_, rfl⟩
  obtain ⟨above, habove⟩ := hchain
  rw [Router.url, hfind]
  dsimp only
  rw [Tree.url, Tree.urlFront, habove, Tree.pathOf]
  have hnode : (Consult.node (dictionary word).view (wordRoute word).id).outcome =
      .error (.schema ⟨"/" ++ word, .invalidPattern ""⟩) := by
    rw [Consult.outcome_node, show (wordRoute word).id = 1 from rfl, hview]
    rfl
  rw [Consult.bind_of_error hnode, Consult.bind_of_error rfl, Consult.bind_of_error rfl]

end Word

/-- A word of so many letters. -/
def letters (n : Nat) : String := String.ofList (List.replicate n 'a')

theorem length_letters (n : Nat) : (letters n).length = n := by
  rw [letters, String.length_ofList, List.length_replicate]

theorem eq_of_mem_letters {n : Nat} {c : Char} (hc : c ∈ (letters n).toList) : c = 'a' := by
  rw [letters, String.toList_ofList] at hc
  exact List.eq_of_mem_replicate hc

/-- The limit is met: a chain of one route whose schema is a slash and a word of 340000 letters has
no url, for the engine refuses its expression. -/
theorem long_route_has_no_url :
    (dictionary (letters 340000)).Reachable ∧
      (dictionary (letters 340000)).IsChain [wordRoute (letters 340000)]
        (wordRows (letters 340000)) ∧
      '/' ∉ (letters 340000).toList ∧
      (∀ domain clean, (dictionary (letters 340000)).tree.ExchangesAll
        (wordRows (letters 340000)) [wordRoute (letters 340000)] domain clean) ∧
      (∀ domain, (⟨[]⟩ : Params).Gives domain
        (names ([wordRoute (letters 340000)].flatMap (wordRows (letters 340000))))) ∧
      ((dictionary (letters 340000)).url "word" ⟨[]⟩ false).outcome =
        .error (.schema ⟨"/" ++ letters 340000, .invalidPattern ""⟩) := by
  have hplain : ∀ c ∈ (letters 340000).toList, c ∉ ['{', '[', ']', '}', '\\', '\n'] := by
    intro c hc
    rw [eq_of_mem_letters hc]
    decide
  refine ⟨⟨{}, _, rfl⟩, isChain_dictionary hplain, fun hslash => ?_, ?_, ?_, ?_⟩
  · exact absurd (eq_of_mem_letters hslash) (by decide)
  · exact fun domain clean n hn p hp => absurd hp List.not_mem_nil
  · exact fun domain => ⟨List.nodup_nil, fun name => Iff.rfl, nofun⟩
  · refine url_dictionary hplain ?_
    rw [length_letters]
    decide

end Router

end UrlRouting
