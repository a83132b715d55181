import Mathlib
import UrlRouting.Proofs.Tree.FullNames
import UrlRouting.Proofs.Url.Marks

/-!
# Hosts and what follows them

A url with a host is a scheme, `://`, the host, the path and the tail, one behind the other
(`UrlRouting.Router.authority_of_url`). Nothing is put between the host and the path: a path is never
empty, but it begins with whatever the schemas of the route begin with. Whoever reads the url takes
for its authority what stands behind `://` up to the first slash, question mark or hash
(`UrlRouting.Url.authority?`). So the authority is the host just if the path begins with one of the
three; otherwise the path runs into the host (`UrlRouting.Router.path_in_authority`).

Schemas lead with a slash if the first literal text in them begins with one, and so does every
segment in front of it (`UrlRouting.Tree.leadsWithSlash`). Then so does the path, whatever the values
are.
-/

namespace UrlRouting

/-! ### Schemes -/

namespace Url

/-- A letter, then letters, digits, `+`, `-` and dots. -/
def isScheme (cs : List Char) : Bool :=
  cs.head?.any Char.isAlpha && cs.all fun c => c.isAlphanum || c == '+' || c == '-' || c == '.'

/-- What stands behind the first `://`. -/
def behindScheme? (url : String) : Option (List Char) :=
  (schemePart? url.toList).map fun scheme => url.toList.drop (scheme.length + 3)

/-- The characters that end an authority. -/
def endsAuthority (c : Char) : Bool := c == '/' || c == '?' || c == '#'

/-- **The authority of a url**: what stands behind `://`, up to the first slash, question mark or
hash. -/
def authority? (url : String) : Option String :=
  (behindScheme? url).map fun cs => String.ofList (cs.takeWhile (!endsAuthority ·))

/-- The scheme that a host gets: its own one if it has one, else the given one. -/
def schemeOf (host : String) (secure : Bool) : String :=
  match (schemePart? host.toList).filter isScheme with
  | some scheme => String.ofList scheme
  | none => if secure then "https" else "http"

/-- A host without its scheme. -/
def bareHost (host : String) : String :=
  match (schemePart? host.toList).filter isScheme with
  | some scheme => String.ofList (host.toList.drop (scheme.length + 3))
  | none => ((behind? ['/', '/'] host.toList).map String.ofList).getD host

/-- The character behind the beginning of a text, if that is not all of it. -/
def charBehind? (front text : String) : Option (Option Char) :=
  (behind? front.toList text.toList).map List.head?

/-- A path that would be empty is a slash. -/
def orSlash (path : String) : String := if path.isEmpty then "/" else path

variable {cs scheme rest : List Char} {host path : String}

theorem schemePart?_append (h : ':' ∉ scheme) (rest : List Char) :
    schemePart? (scheme ++ ':' :: '/' :: '/' :: rest) = some scheme := by
  induction scheme with
  | nil => rfl
  | cons c scheme ih =>
    have hc : c ≠ ':' := fun heq => h (heq ▸ List.mem_cons_self)
    rw [List.cons_append, schemePart?, if_neg fun hcolon => hc hcolon.1,
      ih fun hmem => h (List.mem_cons_of_mem c hmem), Option.map_some]

/-- What has a scheme is its scheme, `://`, and the rest. -/
theorem eq_append_of_schemePart? (h : schemePart? cs = some scheme) :
    cs = scheme ++ ':' :: '/' :: '/' :: cs.drop (scheme.length + 3) := by
  induction cs generalizing scheme with
  | nil => cases h
  | cons c cs ih =>
    rw [schemePart?] at h
    split at h
    · next hcolon =>
      obtain rfl := Option.some.inj h
      obtain ⟨rest, hrest⟩ := Option.isSome_iff_exists.mp hcolon.2
      rw [hcolon.1, behind?_eq_some hrest]
      rfl
    · obtain ⟨front, hfront, rfl⟩ := Option.map_eq_some_iff.mp h
      exact congrArg (c :: ·) (ih hfront)

/-- There is no colon in a scheme. -/
theorem not_mem_of_isScheme (h : isScheme scheme = true) : ':' ∉ scheme := by
  rw [isScheme, Bool.and_eq_true, List.all_eq_true] at h
  exact fun hmem => absurd (h.2 ':' hmem) (by decide)

theorem hasScheme_eq (host : String) :
    hasScheme host = ((schemePart? host.toList).filter isScheme).isSome := by
  rw [hasScheme]
  rcases schemePart? host.toList with _ | scheme
  · rfl
  · rw [Option.filter_some, isScheme]
    dsimp only
    split
    · assumption
    · next hno => exact Bool.eq_false_iff.mpr hno

/-- **A host with its scheme** is the scheme, `://`, and the host without it. -/
theorem withScheme_eq (host : String) (secure : Bool) :
    withScheme host secure = schemeOf host secure ++ "://" ++ bareHost host := by
  rw [withScheme, hasScheme_eq, schemeOf, bareHost]
  rcases hscheme : (schemePart? host.toList).filter isScheme with _ | scheme
  · dsimp only
    rw [Option.isSome_none, if_neg Bool.false_ne_true]
    rcases behind? ['/', '/'] host.toList <;> rfl
  · -- a host that has a scheme is kept
    rw [Option.isSome_some, if_pos rfl]
    have hpart : schemePart? host.toList = some scheme := (Option.filter_eq_some_iff.mp hscheme).1
    have hlist := eq_append_of_schemePart? hpart
    dsimp only
    refine String.toList_injective ?_
    rw [String.toList_append, String.toList_append, String.toList_ofList, String.toList_ofList,
      String.toList_ofList, List.append_assoc]
    exact hlist

theorem isScheme_schemeOf (host : String) (secure : Bool) :
    isScheme (schemeOf host secure).toList = true := by
  rw [schemeOf]
  rcases hscheme : (schemePart? host.toList).filter isScheme with _ | scheme
  · cases secure <;> decide
  · rw [String.toList_ofList]
    exact (Option.filter_eq_some_iff.mp hscheme).2

/-- What stands behind the scheme of a url. -/
theorem behindScheme?_append (h : isScheme scheme = true) (rest : String) :
    behindScheme? (String.ofList scheme ++ "://" ++ rest) = some rest.toList := by
  have hlist : (String.ofList scheme ++ "://" ++ rest).toList =
      scheme ++ ':' :: '/' :: '/' :: rest.toList := by
    rw [String.toList_append, String.toList_append, String.toList_ofList, List.append_assoc]
    rfl
  rw [behindScheme?, hlist, schemePart?_append (not_mem_of_isScheme h), Option.map_some,
    List.drop_append, List.drop_of_length_le (Nat.le_add_right _ _), Nat.add_sub_cancel_left]
  rfl

/-! ### Authorities -/

theorem exists_head?_orSlash (path : String) : ∃ c, (orSlash path).toList.head? = some c := by
  rw [orSlash]
  split
  · exact ⟨'/', rfl⟩
  · next hne =>
    rcases hlist : path.toList with _ | ⟨c, cs⟩
    · exact absurd (String.isEmpty_iff.mpr (String.toList_eq_nil_iff.mp hlist)) hne
    · exact ⟨c, rfl⟩

theorem charBehind?_append {c : Char} (front : String) {text : String}
    (h : text.toList.head? = some c) (rest : String) :
    charBehind? front (front ++ text ++ rest) = some (some c) := by
  rw [charBehind?, String.append_assoc, String.toList_append, behind?_append, Option.map_some,
    String.toList_append, List.head?_append, h, Option.some_or]

/-- **A host without such characters is the authority** just if the first character behind it ends
authorities. -/
theorem authority?_append_iff {c : Char} (hscheme : isScheme scheme = true)
    (hhost : ∀ c ∈ host.toList, endsAuthority c = false) (hpath : path.toList.head? = some c) :
    authority? (String.ofList scheme ++ "://" ++ (host ++ path)) = some host ↔
      endsAuthority c = true := by
  obtain ⟨cs, hcs⟩ : ∃ cs, path.toList = c :: cs := List.head?_eq_some_iff.mp hpath
  have hinside : ∀ c ∈ host.toList, (!endsAuthority c) = true := fun c hc => by rw [hhost c hc]; rfl
  rw [authority?, behindScheme?_append hscheme, Option.map_some, Option.some_inj,
    ← String.toList_inj, String.toList_ofList, String.toList_append,
    List.takeWhile_append_of_pos hinside, List.append_right_eq_self, hcs]
  rcases hc : endsAuthority c with _ | _
  · simp [hc]
  · simp [hc]

end Url

/-! ### Schemas that lead with a slash -/

/-- Does what is written of a row begin with a slash, or else is it empty? Then it depends on what
comes behind the row. A parameter may have any text. -/
def Schema.leadsWithSlash (behind : Bool) : Schema → Bool
  | .done => behind
  | .literal text rest =>
    if text.isEmpty then rest.leadsWithSlash behind else text.toList.head? == some '/'
  | .param _ _ => false
  | .segment inner rest => rest.leadsWithSlash behind && inner.leadsWithSlash true

/-- The same of the schema of a node. -/
def Node.leadsWithSlash (behind : Bool) (n : Node) : Bool :=
  match Schema.ofText n.schema with
  | .ok s => s.leadsWithSlash behind
  | .error _ => false

/-- **Do the schemas along a path lead with a slash**, whatever is written of them? The first node
is the innermost one; behind it nothing comes, and an empty path is a slash too. -/
def Tree.leadsWithSlash (nodes : List Node) : Bool :=
  nodes.foldl Node.leadsWithSlash true

/-- A text is empty or begins with a slash. -/
def Url.IsRooted (text : String) : Prop := text = "" ∨ text.toList.head? = some '/'

namespace Url.IsRooted

variable {text tail : String}

theorem of_head? (h : text.toList.head? = some '/') (tail : String) : IsRooted (text ++ tail) := by
  right
  rw [String.toList_append, List.head?_append, h, Option.some_or]

theorem head?_orSlash (h : IsRooted text) : (orSlash text).toList.head? = some '/' := by
  rw [orSlash]
  rcases h with rfl | h
  · rfl
  · rw [if_neg, h]
    intro hempty
    rw [String.isEmpty_iff.mp hempty] at h
    cases h

end Url.IsRooted

/-- **A row that leads with a slash** begins with it, or is empty and leaves it to what comes
behind. -/
theorem Schema.Writes.isRooted {s : Schema} {ctx : FillContext} {cctx : CompileContext}
    {required behind : Bool} {params : Params} {row : Filled} {a : Account} {tail : String}
    (h : s.Writes ctx cctx required params row a) (hleads : s.leadsWithSlash behind = true)
    (htail : behind = true → Url.IsRooted tail) : Url.IsRooted (row.text ++ tail) := by
  induction h generalizing behind tail with
  | done =>
    rw [String.empty_append]
    exact htail hleads
  | @literal text rest _ _ row _ _ ih =>
    rw [leadsWithSlash] at hleads
    change Url.IsRooted (text ++ row.text ++ tail)
    split at hleads
    · next hempty =>
      rw [String.isEmpty_iff.mp hempty, String.empty_append]
      exact ih hleads htail
    · rw [String.append_assoc]
      exact .of_head? (beq_iff_eq.mp hleads) _
  | param => cases hleads
  | @segment _ _ _ _ row inside _ _ _ _ ih1 ih2 =>
    rw [leadsWithSlash, Bool.and_eq_true] at hleads
    have hrest := ih1 hleads.1 htail
    change Url.IsRooted (inside.shown ++ row.text ++ tail)
    rw [String.append_assoc, Filled.shown]
    split
    · rwa [String.empty_append]
    · exact ih2 hleads.2 fun _ => hrest

/-- **A path whose schemas lead with a slash** begins with it, or is empty. -/
theorem Tree.WritesPath.isRooted {t : Tree} {nodes : List Node} {params : Params}
    {accounts : List Account} {behind : Bool} {tail : String}
    (h : t.WritesPath nodes params accounts)
    (hleads : nodes.foldl Node.leadsWithSlash behind = true)
    (htail : behind = true → Url.IsRooted tail) :
    Url.IsRooted (Account.pathText accounts ++ tail) := by
  induction h generalizing behind tail with
  | nil =>
    rw [Account.pathText, String.empty_append]
    exact htail hleads
  | @cons n _ _ _ _ _ a _ read own _ ih =>
    rw [Account.pathText, String.append_assoc]
    refine ih hleads fun hown => ?_
    rw [Node.leadsWithSlash, read] at hown
    rw [own.text_eq]
    exact own.isRooted hown htail

namespace Router

variable {r : Router} {id : NodeId} {name schema u : String} {params : Params} {absolute : Bool}

/-- **A url with a host** is a scheme, the host, the path and the tail, so that the first character of
the path stands behind the host, which never ends the url. If no character in the host ends an
authority, the host is the authority of the url just if that one does. It is a slash if the schemas
along the path lead with one. -/
theorem authority_of_url (hr : r.Reachable) (hid : r.tree.find? name = some id)
    (hschema : r.tree.hostSchema? r.options id absolute = .ok (some schema))
    (hu : (r.url name params absolute).outcome = .ok u) :
    ∃ path rest compiled text left c,
      (r.tree.pathOf r.view (r.tree.chain id) params.given).outcome = .ok (path, rest) ∧
      CompiledSchema.ofText schema (r.tree.compileContext id r.options.defaultPattern) =
        .ok compiled ∧
      r.tree.fillSchema id schema compiled rest = .ok (text, left) ∧
      let front := Url.schemeOf text r.options.secure ++ "://" ++ Url.bareHost text
      u = front ++ Url.orSlash path ++ Form.tail r.options left ∧
      (Url.orSlash path).toList.head? = some c ∧ Url.charBehind? front u = some (some c) ∧
      ((∀ c ∈ (Url.bareHost text).toList, Url.endsAuthority c = false) →
        (Url.authority? u = some (Url.bareHost text) ↔ Url.endsAuthority c = true)) ∧
      (Tree.leadsWithSlash (Tree.alongPath (r.tree.chain id)) = true → c = '/') := by
  rw [Router.url, hid] at hu
  obtain ⟨front, left, hfront, rfl⟩ := Tree.outcome_url_eq_ok hu
  obtain ⟨⟨path, rest⟩, hpath, hfront⟩ := Consult.bind_eq_ok.mp hfront
  obtain ⟨schema?, hschema', hfront⟩ := Consult.bind_eq_ok.mp hfront
  obtain rfl : some schema = schema? := Except.ok.inj (hschema.symm.trans hschema')
  obtain ⟨⟨host, final⟩, hhost, hfront⟩ := Consult.bind_eq_ok.mp hfront
  obtain ⟨rfl, rfl⟩ := Prod.mk.inj (Except.ok.inj hfront)
  obtain ⟨compiled, hcompiled, hhost⟩ := Schema.bind_eq_ok_iff.mp hhost
  obtain ⟨⟨text, rest'⟩, hfill, hhost⟩ := Schema.bind_eq_ok_iff.mp hhost
  obtain ⟨rfl, rfl⟩ := Prod.mk.inj (Except.ok.inj hhost)
  obtain ⟨c, hc⟩ := Url.exists_head?_orSlash path
  -- an authority is read off a url that begins with a scheme
  have hscheme := Url.isScheme_schemeOf text r.options.secure
  have hurl : withScheme text r.options.secure ++ (if path.isEmpty then "/" else path) ++
      Form.tail r.options rest' = Url.schemeOf text r.options.secure ++ "://" ++
        Url.bareHost text ++ Url.orSlash path ++ Form.tail r.options rest' := by
    rw [Url.withScheme_eq]
    rfl
  rw [hurl]
  refine ⟨path, rest, compiled, text, rest', c, hpath, mapError_eq_ok hcompiled, hfill, rfl, hc,
    Url.charBehind?_append _ hc _, fun hplain => ?_, fun hleads => ?_⟩
  · have hbehind : (Url.orSlash path ++ Form.tail r.options rest').toList.head? = some c := by
      rw [String.toList_append, List.head?_append, hc, Option.some_or]
    have hiff := Url.authority?_append_iff hscheme hplain hbehind
    simpa only [String.append_assoc, String.ofList_toList] using hiff
  · obtain ⟨accounts, hwrites, rfl⟩ :=
      Tree.exists_writesPath (hr.isSound.chain_ne_nil hid) hr.isSound.view_chain hpath
    have hrooted := hwrites.isRooted hleads fun _ => .inl (rfl : "" = "")
    rw [String.append_empty] at hrooted
    exact Option.some.inj (hc.symm.trans hrooted.head?_orSlash)

/-- A route on a host. -/
def onHost (schema : String) : Router :=
  ((new {}).runAll [.setting (.host "example.com"),
    .route schema (some "users") none (.identifier "")]).1

theorem reachable_onHost (schema : String) : (onHost schema).Reachable := ⟨{}, _, rfl⟩

theorem find?_onHost (schema : String) : (onHost schema).tree.find? "users" = some 1 := by rfl

theorem hostSchema?_onHost (schema : String) :
    (onHost schema).tree.hostSchema? (onHost schema).options 1 false =
      .ok (some "example.com") := by
  rfl

/-- The url of the route, given its path. -/
theorem url_onHost {path : String} (hpath : ((onHost schema).tree.pathOf (onHost schema).view
      ((onHost schema).tree.chain 1) Params.empty.given).outcome = .ok (path, .empty)) :
    ((onHost schema).url "users" .empty false).outcome =
      .ok ("http://example.com" ++ Url.orSlash path) := by
  have hfront : ((onHost schema).tree.urlFront (onHost schema).view (onHost schema).options 1 .empty
      false).outcome = .ok ("http://example.com" ++ Url.orSlash path, .empty) := by
    rw [Tree.urlFront, Consult.bind_of_ok hpath]
    rfl
  rw [Router.url, find?_onHost, Tree.outcome_url, hfront, Except.map, Form.tail_of_isEmpty rfl,
    String.append_empty]

theorem hostText_onHost (schema : String) :
    (onHost schema).tree.hostText (onHost schema).options 1 "example.com" .empty =
      .ok ("http://example.com", .empty) := by
  rfl

/-- No character in the host ends an authority. -/
theorem plain_host : ∀ c ∈ "example.com".toList, Url.endsAuthority c = false := by
  simp [Url.endsAuthority]

/-- With a slash in front of the path, the authority is the host. -/
theorem authority_of_url_slash :
    (onHost "/users").tree.find? "users" = some 1 ∧
      (onHost "/users").tree.hostSchema? (onHost "/users").options 1 false =
        .ok (some "example.com") ∧
      ∃ u, ((onHost "/users").url "users" .empty false).outcome = .ok u ∧
        Url.authority? u = some "example.com" := by
  have hpath : ((onHost "/users").tree.pathOf (onHost "/users").view
      ((onHost "/users").tree.chain 1) Params.empty.given).outcome = .ok ("/users", .empty) := by cbv
  have hu := url_onHost hpath
  refine ⟨find?_onHost _, hostSchema?_onHost _, _, hu, ?_⟩
  obtain ⟨path, rest, compiled, text, left, c, hpath', hcompiled, hfill, -, -, -, hplain, hslash⟩ :=
    authority_of_url (reachable_onHost _) (find?_onHost _) (hostSchema?_onHost _) hu
  obtain ⟨rfl, rfl⟩ := Prod.mk.inj (Except.ok.inj (hpath'.symm.trans hpath))
  have hbare : Url.bareHost text = "example.com" := by
    have hhost := hostText_onHost "/users"
    rw [Tree.hostText, hcompiled] at hhost
    change (Tree.fillSchema _ 1 "example.com" compiled .empty >>= _) = _ at hhost
    rw [hfill] at hhost
    have hwith : withScheme text false = "http://example.com" :=
      congrArg Prod.fst (Except.ok.inj hhost)
    have hbehind := Url.behindScheme?_append (Url.isScheme_schemeOf text false) (Url.bareHost text)
    rw [String.ofList_toList, ← Url.withScheme_eq, hwith] at hbehind
    have hknown : Url.behindScheme? "http://example.com" = some "example.com".toList := by cbv
    exact String.toList_inj.mp (Option.some.inj (hbehind.symm.trans hknown))
  rw [hbare] at hplain
  refine (hplain plain_host).mpr ?_
  rw [hslash (by cbv)]
  decide

/-- **A path can run into the host**: without a slash in front of it, it reads as the end of the
host. -/
theorem path_in_authority :
    (onHost "users").Reachable ∧ (onHost "users").tree.find? "users" = some 1 ∧
      (onHost "users").tree.hostSchema? (onHost "users").options 1 false =
        .ok (some "example.com") ∧
      (onHost "users").tree.hostText (onHost "users").options 1 "example.com" .empty =
        .ok ("http://example.com", .empty) ∧
      (∀ c ∈ "example.com".toList, Url.endsAuthority c = false) ∧
      ((onHost "users").url "users" .empty false).outcome = .ok "http://example.comusers" ∧
      Url.charBehind? "http://example.com" "http://example.comusers" = some (some 'u') ∧
      Url.authority? "http://example.comusers" = some "example.comusers" := by
  have hpath : ((onHost "users").tree.pathOf (onHost "users").view
      ((onHost "users").tree.chain 1) Params.empty.given).outcome = .ok ("users", .empty) := by cbv
  refine ⟨reachable_onHost _, find?_onHost _, hostSchema?_onHost _, hostText_onHost _, plain_host,
    url_onHost hpath, ?_, ?_⟩
  · cbv
  · cbv

end Router

end UrlRouting
