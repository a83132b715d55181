import Mathlib.Data.List.Nodup
import UrlRouting.Params

/-!
# Looking up parameters

What the operations of parameters do to the value of a name, and to the names. Dropping what counts
as not given and taking other names out leave a value that is there (`UrlRouting.Params.get?_given`,
`UrlRouting.Params.get?_eraseAll`), and what is taken out leaves no name
(`UrlRouting.Params.names_eraseAll`). New names are put at the end (`UrlRouting.Params.insert_eq`),
and of a map below, those that are free (`UrlRouting.Params.names_underlay`). Where the order does
not matter, it is enough to say that parameters are the values of some names
(`UrlRouting.Params.Gives`).
-/

namespace UrlRouting

/-- What is kept of a list of pairs has the values of what is kept. -/
theorem lookup_filter {α β : Type} [BEq α] [LawfulBEq α] {keep : α → Bool} {a : α}
    (h : keep a = true) (l : List (α × β)) :
    (l.filter fun e => keep e.1).lookup a = l.lookup a := by
  induction l with
  | nil => rfl
  | cons e l ih =>
    rw [List.filter_cons, List.lookup_cons]
    by_cases he : a = e.1
    · subst he
      rw [if_pos h, List.lookup_cons]
      simp
    · have hne : (a == e.1) = false := beq_eq_false_iff_ne.mpr he
      rw [hne, ← ih]
      split
      · rw [List.lookup_cons, hne]
      · rfl

namespace Params

section

variable {p q : Params} {name : String} {v : Value}

theorem get?_eq_none_iff : p.get? name = none ↔ name ∉ p.names := by
  obtain ⟨entries⟩ := p
  rw [get?, List.lookup_eq_none_iff, names, List.mem_map]
  constructor
  · rintro h ⟨e, he, rfl⟩
    exact bne_iff_ne.mp (h e he) rfl
  · intro h e he
    exact bne_iff_ne.mpr fun heq => h ⟨e, he, heq.symm⟩

/-- The value of a name, null if it is not there. -/
def orNull (p : Params) (name : String) : Value := (p.get? name).getD .null

theorem orNull_of_get? (h : p.get? name = some v) : p.orNull name = v := by
  rw [orNull, h, Option.getD_some]

theorem orNull_eq_null (h : p.get? name = none) : p.orNull name = .null := by
  rw [orNull, h, Option.getD_none]

theorem mem_entries_of_get? (h : p.get? name = some v) : (name, v) ∈ p.entries := by
  obtain ⟨entries⟩ := p
  obtain ⟨l, k, hl : entries = _, -⟩ := List.lookup_eq_some_iff.mp h
  change _ ∈ entries
  rw [hl]
  exact List.mem_append_right l List.mem_cons_self

/-- A value that counts as given is not dropped. -/
theorem get?_given (h : p.get? name = some v) (hv : v.isVoid = false) :
    p.given.get? name = some v := by
  obtain ⟨entries⟩ := p
  obtain ⟨l, k, hl : entries = _, hnew⟩ := List.lookup_eq_some_iff.mp h
  have hkeep : entries.filter (fun e => !e.2.isVoid) =
      l.filter (fun e => !e.2.isVoid) ++ (name, v) :: k.filter (fun e => !e.2.isVoid) := by
    rw [hl, List.filter_append, List.filter_cons_of_pos (by rw [hv]; rfl)]
  change (entries.filter fun e => !e.2.isVoid).lookup name = some v
  rw [hkeep]
  exact List.lookup_eq_some_iff.mpr
    ⟨_, _, rfl, fun e he => hnew e (List.mem_of_mem_filter he)⟩

theorem get?_given_eq_none (h : p.get? name = none) : p.given.get? name = none := by
  rw [get?_eq_none_iff] at h ⊢
  intro hmem
  obtain ⟨e, he, rfl⟩ := List.mem_map.mp hmem
  exact h (List.mem_map_of_mem (List.mem_of_mem_filter he))

/-- Nothing is dropped where all is given. -/
theorem given_eq (h : ∀ e ∈ p.entries, e.2.isVoid = false) : p.given = p := by
  obtain ⟨entries⟩ := p
  refine congrArg Params.mk (List.filter_eq_self.mpr fun e he => ?_)
  exact congrArg not (h e he)

/-! ### Taking names out -/

theorem get?_erase {other : String} (h : name ≠ other) :
    (p.erase other).get? name = p.get? name := by
  obtain ⟨entries⟩ := p
  change (entries.eraseP _).lookup name = entries.lookup name
  induction entries with
  | nil => rfl
  | cons e entries ih =>
    obtain ⟨first, w⟩ := e
    rw [List.eraseP_cons, List.lookup_cons]
    by_cases hfirst : first = other
    · subst hfirst
      have hne : (name == first) = false := beq_eq_false_iff_ne.mpr h
      simp [hne]
    · have hne : (first == other) = false := beq_eq_false_iff_ne.mpr hfirst
      rw [hne, cond_false, List.lookup_cons, ih]

/-- Names that are not taken out keep their values. -/
theorem get?_eraseAll {names : List String} (h : name ∉ names) :
    (p.eraseAll names).get? name = p.get? name := by
  induction names generalizing p with
  | nil => rfl
  | cons other names ih =>
    have hrest := ih (p := p.erase other) fun hmem => h (List.mem_cons_of_mem other hmem)
    refine hrest.trans (get?_erase fun heq => h ?_)
    rw [heq]
    exact List.mem_cons_self

theorem names_erase (p : Params) (name : String) : (p.erase name).names = p.names.erase name := by
  obtain ⟨entries⟩ := p
  change (entries.eraseP _).map _ = (entries.map _).erase name
  induction entries with
  | nil => rfl
  | cons e entries ih =>
    rw [List.eraseP_cons, List.map_cons, List.erase_cons]
    by_cases he : e.1 = name
    · simp [he]
    · have hne : (e.1 == name) = false := beq_eq_false_iff_ne.mpr he
      rw [hne, cond_false, List.map_cons, ih]
      rfl

/-- What is taken out leaves no name. -/
theorem names_eraseAll (p : Params) (names : List String) :
    (p.eraseAll names).names = p.names.diff names := by
  induction names generalizing p with
  | nil => rfl
  | cons name names ih =>
    rw [List.diff_cons, ← names_erase]
    exact ih (p.erase name)

/-- A name that is there once is taken out together with nothing else. -/
theorem erase_eq_filter (h : p.names.Nodup) (name : String) :
    p.erase name = p.filter fun other _ => decide (other ≠ name) := by
  obtain ⟨entries⟩ := p
  refine congrArg mk ?_
  induction entries with
  | nil => rfl
  | cons e entries ih =>
    obtain ⟨hnew, hnodup⟩ := List.nodup_cons.mp h
    rw [List.eraseP_cons, List.filter_cons]
    by_cases he : e.1 = name
    · have hkeep : entries.filter (fun other => decide (other.1 ≠ name)) = entries := by
        refine List.filter_eq_self.mpr fun other hother => decide_eq_true fun heq => hnew ?_
        exact List.mem_map.mpr ⟨other, hother, heq.trans he.symm⟩
      rw [hkeep]
      simp [he]
    · have hrest := ih hnodup
      dsimp only at hrest
      rw [← hrest]
      simp [beq_eq_false_iff_ne.mpr he, he]

/-- Taking names out keeps the other entries. -/
theorem eraseAll_eq_filter (h : p.names.Nodup) (names : List String) :
    p.eraseAll names = p.filter fun name _ => decide (name ∉ names) := by
  induction names generalizing p with
  | nil =>
    exact congrArg mk (List.filter_eq_self.mpr fun _ _ => decide_eq_true List.not_mem_nil).symm
  | cons name names ih =>
    have hnodup : (p.erase name).names.Nodup := names_erase p name ▸ h.erase name
    refine (ih hnodup).trans ?_
    rw [erase_eq_filter h]
    refine congrArg mk (List.filter_filter.trans (List.filter_congr fun e _ => ?_))
    simp [Bool.and_comm]

theorem nodup_filter (h : p.names.Nodup) (keep : String → Value → Bool) :
    (p.filter keep).names.Nodup := h.sublist (List.filter_sublist.map _)

/-! ### Putting names in -/

theorem insertEntry_eq {entries : List (String × Value)} (h : ∀ e ∈ entries, e.1 ≠ name) :
    insertEntry name v entries = entries ++ [(name, v)] := by
  induction entries with
  | nil => rfl
  | cons e entries ih =>
    have he : e.1 ≠ name := h e List.mem_cons_self
    rw [insertEntry, if_neg he, ih fun e he => h e (List.mem_cons_of_mem _ he)]
    rfl

/-- A new name is put at the end. -/
theorem insert_eq (h : name ∉ p.names) : p.insert name v = ⟨p.entries ++ [(name, v)]⟩ := by
  rw [insert, insertEntry_eq]
  rintro e he rfl
  exact h (List.mem_map_of_mem he)

/-- A name that is put in is there, and has the value that it is given. -/
theorem get?_insert_self (p : Params) (name : String) (v : Value) :
    (p.insert name v).get? name = some v := by
  obtain ⟨entries⟩ := p
  change (insertEntry name v entries).lookup name = some v
  induction entries with
  | nil => rw [insertEntry, List.lookup_cons, beq_self_eq_true]
  | cons e entries ih =>
    obtain ⟨first, w⟩ := e
    rw [insertEntry]
    by_cases hfirst : first = name
    · rw [if_pos hfirst, List.lookup_cons, beq_iff_eq.mpr hfirst.symm]
    · rw [if_neg hfirst, List.lookup_cons, beq_eq_false_iff_ne.mpr (Ne.symm hfirst), ih]

theorem get?_insert_of_ne {other : String} (h : other ≠ name) :
    (p.insert name v).get? other = p.get? other := by
  obtain ⟨entries⟩ := p
  change (insertEntry name v entries).lookup other = entries.lookup other
  induction entries with
  | nil => rw [insertEntry, List.lookup_cons, beq_eq_false_iff_ne.mpr h]
  | cons e entries ih =>
    obtain ⟨first, w⟩ := e
    rw [insertEntry]
    by_cases hfirst : first = name
    · subst hfirst
      rw [if_pos rfl, List.lookup_cons, List.lookup_cons, beq_eq_false_iff_ne.mpr h]
    · rw [if_neg hfirst, List.lookup_cons, List.lookup_cons, ih]

/-- A new name is behind the others. -/
theorem names_insert (h : name ∉ p.names) : (p.insert name v).names = p.names ++ [name] := by
  rw [insert_eq h]
  exact List.map_append

/-- A name that is there stays in its place. -/
theorem names_insert_of_mem (h : name ∈ p.names) : (p.insert name v).names = p.names := by
  obtain ⟨entries⟩ := p
  change (insertEntry name v entries).map (·.1) = entries.map (·.1)
  change name ∈ entries.map (·.1) at h
  induction entries with
  | nil => cases h
  | cons e entries ih =>
    obtain ⟨first, w⟩ := e
    rw [insertEntry]
    by_cases hfirst : first = name
    · rw [if_pos hfirst]
      rfl
    · have hrest := (List.mem_cons.mp h).resolve_left (Ne.symm hfirst)
      rw [if_neg hfirst, List.map_cons, List.map_cons, ih hrest]

theorem not_mem_names_insert {other : String} (h : name ∉ p.names) (hother : other ∉ p.names)
    (hne : other ≠ name) : other ∉ (p.insert name v).names := by
  intro hmem
  rw [names_insert h] at hmem
  rcases List.mem_append.mp hmem with hmem | hmem
  · exact hother hmem
  · exact hne (List.mem_singleton.mp hmem)

/-- Of the map below, the names that are free are put at the end. -/
theorem names_underlay (p q : Params) :
    (p.underlay q).names = p.names ++ q.names.filter (· ∉ p.names) := by
  have hfree (name : String) : (!p.contains name) = decide (name ∉ p.names) := by
    rw [contains, Option.not_isSome, Bool.eq_iff_iff, Option.isNone_iff_eq_none,
      get?_eq_none_iff, decide_eq_true_eq]
  have hlower : (q.entries.filter fun e => !p.contains e.1).map (·.1) =
      q.names.filter (· ∉ p.names) := by
    change _ = (q.entries.map (·.1)).filter (· ∉ p.names)
    rw [List.filter_map]
    exact congrArg _ (List.filter_congr fun e _ => hfree e.1)
  rw [← hlower]
  exact List.map_append

/-- A name has the value that it has above, or else the one below. -/
theorem get?_underlay (p q : Params) (name : String) :
    (p.underlay q).get? name = (p.get? name).or (q.get? name) := by
  rw [underlay, get?, List.lookup_append]
  change (p.get? name).or _ = _
  cases hp : p.get? name with
  | some v => rfl
  | none =>
    rw [Option.none_or, Option.none_or]
    refine @lookup_filter _ _ _ _ (fun other => !p.contains other) name ?_ q.entries
    rw [contains, hp]
    rfl

/-- Entries with distinct names are the values of their names. -/
theorem get?_eq_some_iff (h : p.names.Nodup) : p.get? name = some v ↔ (name, v) ∈ p.entries := by
  refine ⟨mem_entries_of_get?, fun hmem => ?_⟩
  obtain ⟨entries⟩ := p
  obtain ⟨l, k, hl⟩ := List.append_of_mem hmem
  change entries = _ at hl
  subst hl
  refine List.lookup_eq_some_iff.mpr ⟨l, k, rfl, fun e he => ?_⟩
  have hdisjoint := (List.nodup_append.mp ((List.map_append ..).symm ▸ h :
    (l.map (·.1) ++ ((name, v) :: k).map (·.1)).Nodup)).2.2
  exact bne_iff_ne.mpr
    (hdisjoint e.1 (List.mem_map_of_mem he) name List.mem_cons_self).symm

/-- **The entries of distinct names have the values of their names**, one after the other. -/
theorem map_values_eq (h : p.names.Nodup) :
    (p.entries.map (·.2)).map some = p.names.map p.get? := by
  rw [names, List.map_map, List.map_map]
  exact List.map_congr_left fun e he => ((get?_eq_some_iff h).mpr he).symm

/-! ### The values of some names -/

/-- **Parameters that are the values of some names**, and nothing else. -/
structure Gives (p : Params) (value : String → Value) (names : List String) : Prop where
  /-- Each name is there once. -/
  nodup : p.names.Nodup
  /-- The names are those. -/
  mem_names : ∀ name, name ∈ p.names ↔ name ∈ names
  /-- The values are those of the names. -/
  get? : ∀ name ∈ names, p.get? name = some (value name)

section Gives

variable {value : String → Value} {names names' : List String}

theorem gives_map (h : names.Nodup) : (mk (names.map fun n => (n, value n))).Gives value names := by
  have hnames : (mk (names.map fun n => (n, value n))).names = names := by
    rw [Params.names, List.map_map]
    exact List.map_id names
  refine ⟨hnames.symm ▸ h, fun name => by rw [hnames], fun name hname => ?_⟩
  refine (get?_eq_some_iff (hnames.symm ▸ h)).mpr ?_
  exact List.mem_map_of_mem (f := fun n => (n, value n)) hname

theorem Gives.congr (h : p.Gives value names) (hsame : ∀ name, name ∈ names ↔ name ∈ names') :
    p.Gives value names' :=
  ⟨h.nodup, fun name => (h.mem_names name).trans (hsame name),
    fun name hname => h.get? name ((hsame name).mpr hname)⟩

/-- None of the values is dropped if all of them count as given. -/
theorem Gives.given_eq (h : p.Gives value names) (hvalue : ∀ n ∈ names, (value n).isVoid = false) :
    p.given = p := by
  refine Params.given_eq fun e he => ?_
  have hname : e.1 ∈ names := (h.mem_names e.1).mp (List.mem_map_of_mem he)
  have hget : p.get? e.1 = some e.2 := (get?_eq_some_iff h.nodup).mpr he
  rw [h.get? e.1 hname] at hget
  exact Option.some.inj hget ▸ hvalue e.1 hname

/-- The values that are left when some of the names are taken out. -/
theorem Gives.eraseAll (h : p.Gives value (names ++ names')) (hnodup : (names ++ names').Nodup) :
    (p.eraseAll names.reverse).Gives value names' := by
  obtain ⟨-, -, hdisjoint⟩ := List.nodup_append.mp hnodup
  have hmem (name : String) : name ∈ (p.eraseAll names.reverse).names ↔ name ∈ names' := by
    rw [names_eraseAll, List.Nodup.mem_sdiff_iff h.nodup, h.mem_names, List.mem_append,
      List.mem_reverse]
    constructor
    · rintro ⟨hname | hname, hnot⟩
      · exact absurd hname hnot
      · exact hname
    · exact fun hname => ⟨.inr hname, fun hmem => hdisjoint name hmem name hname rfl⟩
  refine ⟨names_eraseAll p _ ▸ List.Nodup.diff h.nodup, hmem, fun name hname => ?_⟩
  rw [get?_eraseAll fun hmem => hdisjoint name (List.mem_reverse.mp hmem) name hname rfl]
  exact h.get? name (List.mem_append_right names hname)

theorem Gives.entries_eq_nil (h : p.Gives value []) : p.entries = [] := by
  refine List.eq_nil_iff_forall_not_mem.mpr fun e he => ?_
  exact List.not_mem_nil ((h.mem_names e.1).mp (List.mem_map_of_mem he))

/-- The values of other names can be put below. -/
theorem Gives.underlay (h : p.Gives value names) (h' : q.Gives value names')
    (hnodup : (names ++ names').Nodup) : (p.underlay q).Gives value (names ++ names') := by
  obtain ⟨-, -, hdisjoint⟩ := List.nodup_append.mp hnodup
  have hnew : ∀ name ∈ q.names, name ∉ p.names := fun name hname hmem =>
    hdisjoint name ((h.mem_names name).mp hmem) name ((h'.mem_names name).mp hname) rfl
  have hnames : (p.underlay q).names = p.names ++ q.names := by
    rw [names_underlay, List.filter_eq_self.mpr fun name hname => decide_eq_true (hnew name hname)]
  refine ⟨?_, fun name => ?_, fun name hname => ?_⟩
  · rw [hnames]
    refine List.nodup_append.mpr ⟨h.nodup, h'.nodup, ?_⟩
    rintro name hname _ hname' rfl
    exact hnew name hname' hname
  · rw [hnames, List.mem_append, List.mem_append, h.mem_names, h'.mem_names]
  · rw [get?_underlay]
    rcases List.mem_append.mp hname with hname | hname
    · rw [h.get? name hname, Option.some_or]
    · have hnone : p.get? name = none :=
        get?_eq_none_iff.mpr (hnew name ((h'.mem_names name).mpr hname))
      rw [hnone, Option.none_or, h'.get? name hname]

end Gives

end

end Params

end UrlRouting
