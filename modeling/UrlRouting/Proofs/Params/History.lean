import Mathlib.Data.List.Induction
import UrlRouting.Proofs.Params

/-!
# Parameters and what has happened to them

Parameters are put together in several ways: names are given values and taken out, entries that fail
a test are dropped, and other parameters are put below. None of this is recorded, and only a list of
entries is left. This file says that the list is what it should be. Given the log of all that has
been written and removed (`UrlRouting.Params.History.events`), the value of a name is the last one
that was written for it since it was removed last, and the names stand in the order in which each of
them was written first since then (`UrlRouting.Params.History.in_order_of_first_write`).

A log is replayed one event at a time, and an event is a write or a removal of one name, so two
steps are enough (`UrlRouting.Params.Records.apply`). What remains is that dropping entries and
putting other parameters below come to the same as a row of such events. Both hold only while names
are distinct, above and below: the entries of the map below are put at the end as they are, and
nothing would keep two of one name apart.
-/

namespace UrlRouting

namespace Params

/-! ### Events -/

/-- What happens to a name. -/
inductive Event where
  /-- It is given a value. -/
  | written (name : String) (v : Value)
  /-- It is taken out. -/
  | removed (name : String)

namespace Event

/-- The name that something happens to. -/
def name : Event → String
  | .written name _ => name
  | .removed name => name

theorem written_ne_removed {name other : String} {v : Value} :
    written name v ≠ removed other := by
  intro heq
  cases heq

/-- Lets an event happen. -/
def apply (p : Params) : Event → Params
  | .written name v => p.insert name v
  | .removed name => p.erase name

end Event

/-- **The last value written for a name since its last removal**: nothing happens to the name
afterwards. -/
def LastWritten (log : List Event) (name : String) (v : Value) : Prop :=
  ∃ before after, log = before ++ .written name v :: after ∧ ∀ e ∈ after, e.name ≠ name

/-- **The first write of a name since its last removal**, with so many events before it: the name is
not there before, and it is not removed afterwards. -/
def FirstWritten (log : List Event) (name : String) (place : Nat) : Prop :=
  ∃ before v after, log = before ++ .written name v :: after ∧ before.length = place ∧
    (∀ w, ¬LastWritten before name w) ∧ .removed name ∉ after

section Log

variable {log : List Event} {e : Event} {name : String} {v : Value} {k l : Nat}

theorem not_lastWritten_nil : ¬LastWritten [] name v := by
  rintro ⟨before, after, hlog, -⟩
  exact List.append_ne_nil_of_right_ne_nil _ (List.cons_ne_nil _ _) hlog.symm

/-- The last event decides if it is about the name. -/
theorem lastWritten_concat_iff : LastWritten (log ++ [e]) name v ↔
    e = .written name v ∨ e.name ≠ name ∧ LastWritten log name v := by
  constructor
  · rintro ⟨before, after, hlog, hafter⟩
    rcases List.eq_nil_or_concat after with rfl | ⟨after, last, rfl⟩
    · obtain ⟨-, he⟩ := List.append_inj' hlog rfl
      exact .inl (List.singleton_inj.mp he)
    · rw [List.concat_eq_append] at hlog hafter
      rw [← List.cons_append, ← List.append_assoc] at hlog
      obtain ⟨rfl, he⟩ := List.append_inj' hlog rfl
      obtain rfl := List.singleton_inj.mp he
      obtain ⟨hafter, hlast⟩ := List.forall_mem_append.mp hafter
      exact .inr ⟨hlast e List.mem_cons_self, before, after, rfl, hafter⟩
  · rintro (rfl | ⟨hne, before, after, rfl, hafter⟩)
    · exact ⟨log, [], rfl, List.forall_mem_nil _⟩
    · refine ⟨before, after ++ [e], by simp, List.forall_mem_append.mpr ⟨hafter, ?_⟩⟩
      exact List.forall_mem_singleton.mpr hne

/-- A name that is not removed after a write has a last value. -/
theorem exists_lastWritten (before : List Event) {after : List Event}
    (h : .removed name ∉ after) :
    ∃ w, LastWritten (before ++ .written name v :: after) name w := by
  induction after using List.reverseRecOn with
  | nil => exact ⟨v, before, [], rfl, List.forall_mem_nil _⟩
  | append_singleton after e ih =>
    have hsplit : before ++ .written name v :: (after ++ [e]) =
        before ++ .written name v :: after ++ [e] := by simp
    rw [hsplit]
    simp only [lastWritten_concat_iff]
    by_cases hname : e.name = name
    · cases e with
      | written other w => exact ⟨w, .inl (congrArg (Event.written · w) hname)⟩
      | removed other =>
        subst hname
        exact absurd (List.mem_append_right after List.mem_cons_self) h
    · obtain ⟨w, hw⟩ := ih fun hmem => h (List.mem_append_left _ hmem)
      exact ⟨w, .inr ⟨hname, hw⟩⟩

theorem FirstWritten.concat (h : FirstWritten log name k) (he : e ≠ .removed name) :
    FirstWritten (log ++ [e]) name k := by
  obtain ⟨before, v, after, rfl, hlength, hnew, hafter⟩ := h
  refine ⟨before, v, after ++ [e], by simp, hlength, hnew, ?_⟩
  rw [List.mem_append, List.mem_singleton]
  exact not_or.mpr ⟨hafter, he.symm⟩

theorem firstWritten_concat (h : ∀ w, ¬LastWritten log name w) (v : Value) :
    FirstWritten (log ++ [.written name v]) name log.length :=
  ⟨log, v, [], rfl, rfl, h, List.not_mem_nil⟩

theorem FirstWritten.lt_length (h : FirstWritten log name k) : k < log.length := by
  obtain ⟨before, v, after, rfl, rfl, -, -⟩ := h
  simp

/-- **There is one first write at most.** A write after it finds the name there. -/
theorem FirstWritten.unique (h : FirstWritten log name k) (h' : FirstWritten log name l) :
    k = l := by
  have hle {k l : Nat} (h : FirstWritten log name k) (h' : FirstWritten log name l) : l ≤ k := by
    obtain ⟨before, v, after, rfl, rfl, -, hafter⟩ := h
    obtain ⟨before', v', after', hlog, rfl, hnew', -⟩ := h'
    rcases List.append_eq_append_iff.mp hlog with ⟨between, rfl, hbetween⟩ | ⟨between, rfl, -⟩
    · cases between with
      | nil => simp
      | cons e between =>
        obtain ⟨rfl, rfl⟩ := List.cons.inj hbetween
        obtain ⟨w, hw⟩ := exists_lastWritten (v := v) before
          fun hmem => hafter (List.mem_append_left _ hmem)
        exact absurd hw (hnew' w)
    · simp
  exact Nat.le_antisymm (hle h' h) (hle h h')

end Log

/-! ### What a log leaves -/

/-- **What parameters are after a log.** -/
structure Records (log : List Event) (p : Params) : Prop where
  /-- The names are distinct. -/
  nodup : p.names.Nodup
  /-- The value of a name is the last one. -/
  get?_eq_some_iff : ∀ name v, p.get? name = some v ↔ LastWritten log name v
  /-- The names are in the order of their first writes. -/
  inOrder : ∃ place : String → Nat, (∀ name ∈ p.names, FirstWritten log name (place name)) ∧
    p.names.Pairwise fun name other => place name < place other

section Records

variable {log : List Event} {p : Params} {name : String}

theorem records_empty : Records [] empty where
  nodup := List.nodup_nil
  get?_eq_some_iff _ _ := iff_of_false (Option.not_mem_none _) not_lastWritten_nil
  inOrder := ⟨fun _ => 0, List.forall_mem_nil _, .nil⟩

theorem Records.mem_names_iff (h : Records log p) :
    name ∈ p.names ↔ ∃ v, LastWritten log name v := by
  have hnone : ¬(p.get? name).isSome ↔ name ∉ p.names :=
    Option.not_isSome_iff_eq_none.trans get?_eq_none_iff
  simp only [← h.get?_eq_some_iff]
  rw [← Option.isSome_iff_exists, ← not_iff_not, hnone]

theorem Records.get?_insert_iff (h : Records log p) (name : String) (v : Value) (other : String)
    (w : Value) : (p.insert name v).get? other = some w ↔
      LastWritten (log ++ [.written name v]) other w := by
  rw [lastWritten_concat_iff, Event.written.injEq]
  by_cases hother : other = name
  · subst hother
    rw [get?_insert_self, Option.some.injEq]
    simp [Event.name]
  · rw [get?_insert_of_ne hother, h.get?_eq_some_iff]
    simp [Event.name, Ne.symm hother]

/-- A name that is there keeps its place. -/
theorem Records.written_of_mem (h : Records log p) (hname : name ∈ p.names) (v : Value) :
    Records (log ++ [.written name v]) (p.insert name v) := by
  have hnames : (p.insert name v).names = p.names := names_insert_of_mem hname
  obtain ⟨place, hplace, hpairwise⟩ := h.inOrder
  refine ⟨hnames.symm ▸ h.nodup, h.get?_insert_iff name v, place, fun other hother => ?_,
    hnames.symm ▸ hpairwise⟩
  exact (hplace other (hnames ▸ hother)).concat Event.written_ne_removed

/-- A name that is new has its first write at the end of the log. -/
theorem Records.written_of_not_mem (h : Records log p) (hname : name ∉ p.names) (v : Value) :
    Records (log ++ [.written name v]) (p.insert name v) := by
  have hnames : (p.insert name v).names = p.names ++ [name] := names_insert hname
  have hne : ∀ other ∈ p.names, other ≠ name := by
    rintro other hother rfl
    exact hname hother
  obtain ⟨place, hplace, hpairwise⟩ := h.inOrder
  refine ⟨?_, h.get?_insert_iff name v, Function.update place name log.length, ?_, ?_⟩
  · rw [hnames]
    refine List.nodup_append.mpr
      ⟨h.nodup, List.nodup_singleton name, fun other hother last hlast => ?_⟩
    exact List.mem_singleton.mp hlast ▸ hne other hother
  · rw [hnames]
    refine List.forall_mem_append.mpr ⟨fun other hother => ?_, ?_⟩
    · rw [Function.update_of_ne (hne other hother)]
      exact (hplace other hother).concat Event.written_ne_removed
    · rw [List.forall_mem_singleton, Function.update_self]
      exact firstWritten_concat (fun w hw => hname (h.mem_names_iff.mpr ⟨w, hw⟩)) v
  · rw [hnames]
    refine List.pairwise_append.mpr
      ⟨?_, List.pairwise_singleton _ _, fun other hother last hlast => ?_⟩
    · refine hpairwise.imp_of_mem fun hother hlater hlt => ?_
      rwa [Function.update_of_ne (hne _ hother), Function.update_of_ne (hne _ hlater)]
    · obtain rfl := List.mem_singleton.mp hlast
      rw [Function.update_of_ne (hne other hother), Function.update_self]
      exact (hplace other hother).lt_length

theorem Records.removed (h : Records log p) (name : String) :
    Records (log ++ [.removed name]) (p.erase name) := by
  have hnames : (p.erase name).names = p.names.erase name := names_erase p name
  obtain ⟨place, hplace, hpairwise⟩ := h.inOrder
  refine ⟨hnames ▸ h.nodup.erase name, fun other w => ?_, place, fun other hother => ?_,
    hnames ▸ hpairwise.sublist List.erase_sublist⟩
  · rw [lastWritten_concat_iff]
    by_cases hother : other = name
    · subst hother
      have hnone : (p.erase other).get? other = none := by
        rw [get?_eq_none_iff, hnames]
        exact h.nodup.not_mem_erase
      simp [hnone, Event.name]
    · rw [get?_erase hother, h.get?_eq_some_iff]
      simp [Event.name, Ne.symm hother]
  · rw [hnames, h.nodup.mem_erase_iff] at hother
    refine (hplace other hother.2).concat fun heq => hother.1 ?_
    exact (Event.removed.inj heq).symm

/-- **One event.** -/
theorem Records.apply (h : Records log p) (e : Event) : Records (log ++ [e]) (e.apply p) := by
  cases e with
  | written name v =>
    by_cases hname : name ∈ p.names
    · exact h.written_of_mem hname v
    · exact h.written_of_not_mem hname v
  | removed name => exact h.removed name

/-- **A row of events.** -/
theorem Records.foldl (h : Records log p) (es : List Event) :
    Records (log ++ es) (es.foldl Event.apply p) := by
  induction es generalizing log p with
  | nil => rwa [List.append_nil]
  | cons e es ih =>
    rw [List.append_cons]
    exact ih (h.apply e)

end Records

/-! ### Several names at once -/

section Several

variable {p q : Params}

/-- The entries of a map that fail a test. -/
def failing (p : Params) (keep : String → Value → Bool) : List (String × Value) :=
  p.entries.filter fun e => !keep e.1 e.2

/-- The entries of another map whose names are free. -/
def free (p lower : Params) : List (String × Value) :=
  lower.entries.filter fun e => decide (e.1 ∉ p.names)

/-- **Dropping what fails a test** is taking the names of it out. -/
theorem filter_eq_foldl (h : p.names.Nodup) (keep : String → Value → Bool) :
    p.filter keep = ((p.failing keep).map fun e => Event.removed e.1).foldl Event.apply p := by
  have hfails : ∀ e ∈ p.entries, e.1 ∉ (p.failing keep).map (·.1) ↔ keep e.1 e.2 = true := by
    intro e he
    rw [List.mem_map, not_exists]
    constructor
    · intro hnot
      by_contra hkeep
      refine hnot e ⟨List.mem_filter.mpr ⟨he, ?_⟩, rfl⟩
      rw [Bool.eq_false_iff.mpr hkeep]
      rfl
    · rintro hkeep ⟨name, w⟩ ⟨hmem, hname⟩
      dsimp only at hname
      subst hname
      obtain ⟨hother, hfails⟩ := List.mem_filter.mp hmem
      have hsame : some w = some e.2 :=
        ((get?_eq_some_iff h).mpr hother).symm.trans ((get?_eq_some_iff h).mpr he)
      rw [Option.some.inj hsame, hkeep] at hfails
      cases hfails
  have herase : p.eraseAll ((p.failing keep).map (·.1)) =
      ((p.failing keep).map fun e => Event.removed e.1).foldl Event.apply p := by
    rw [eraseAll, List.foldl_map, List.foldl_map]
    rfl
  rw [← herase, eraseAll_eq_filter h]
  refine congrArg mk (List.filter_congr fun e he => ?_)
  rw [Bool.eq_iff_iff, decide_eq_true_eq, hfails e he]

/-- Names that are new one after the other are put at the end. -/
theorem foldl_insert_eq {entries : List (String × Value)} (hnodup : (entries.map (·.1)).Nodup)
    (hnew : ∀ e ∈ entries, e.1 ∉ p.names) :
    entries.foldl (fun p e => p.insert e.1 e.2) p = ⟨p.entries ++ entries⟩ := by
  induction entries generalizing p with
  | nil => rw [List.append_nil]; rfl
  | cons e entries ih =>
    obtain ⟨hfirst, hnodup⟩ := List.nodup_cons.mp hnodup
    obtain ⟨he, hnew⟩ := List.forall_mem_cons.mp hnew
    have hrest : ∀ other ∈ entries, other.1 ∉ (p.insert e.1 e.2).names := by
      intro other hother
      refine not_mem_names_insert he (hnew other hother) fun heq => hfirst ?_
      exact List.mem_map.mpr ⟨other, hother, heq⟩
    rw [List.foldl_cons, ih hnodup hrest, insert_eq he, ← List.append_cons]

theorem underlay_eq_free (p lower : Params) :
    p.underlay lower = ⟨p.entries ++ p.free lower⟩ := by
  refine congrArg (fun entries => mk (p.entries ++ entries)) (List.filter_congr fun e _ => ?_)
  rw [contains, Option.not_isSome, Bool.eq_iff_iff, Option.isNone_iff_eq_none, get?_eq_none_iff,
    decide_eq_true_eq]

/-- **Putting other parameters below** is giving the names that are free their values. -/
theorem underlay_eq_foldl (h : q.names.Nodup) :
    p.underlay q = ((p.free q).map fun e => Event.written e.1 e.2).foldl Event.apply p := by
  have hnodup : ((p.free q).map (·.1)).Nodup := h.sublist (List.filter_sublist.map _)
  have hnew : ∀ e ∈ p.free q, e.1 ∉ p.names := fun e he =>
    of_decide_eq_true (List.mem_filter.mp he).2
  rw [underlay_eq_free, List.foldl_map, ← foldl_insert_eq hnodup hnew]
  rfl

/-- Puts an entry at the end if its name is free. -/
def pushFree (p : Params) (e : String × Value) : Params :=
  if p.contains e.1 then p else ⟨p.entries ++ [e]⟩

theorem pushFree_of_mem {e : String × Value} (h : e.1 ∈ p.names) : p.pushFree e = p := by
  rw [pushFree, contains, if_pos]
  exact Option.isSome_iff_ne_none.mpr fun hnone => get?_eq_none_iff.mp hnone h

theorem pushFree_of_not_mem {e : String × Value} (h : e.1 ∉ p.names) :
    p.pushFree e = ⟨p.entries ++ [e]⟩ := by
  rw [pushFree, contains, get?_eq_none_iff.mpr h, if_neg (by decide)]

/-- **Entries are put below one after the other**, and what has been put there already is in the way
of none of them. -/
theorem foldl_pushFree_eq (h : q.names.Nodup) : q.entries.foldl pushFree p = p.underlay q := by
  obtain ⟨entries⟩ := q
  rw [underlay_eq_free]
  induction entries generalizing p with
  | nil => exact congrArg mk (List.append_nil _).symm
  | cons e entries ih =>
    obtain ⟨hfirst, hnodup⟩ := List.nodup_cons.mp h
    change entries.foldl pushFree (p.pushFree e) = mk (p.entries ++ List.filter _ (e :: entries))
    rw [ih hnodup, List.filter_cons]
    by_cases he : e.1 ∈ p.names
    · rw [pushFree_of_mem he, if_neg (by simpa using he)]
      rfl
    · have hnames : (mk (p.entries ++ [e])).names = p.names ++ [e.1] := List.map_append
      have hfree : free ⟨p.entries ++ [e]⟩ ⟨entries⟩ = p.free ⟨entries⟩ := by
        refine List.filter_congr fun other hother => ?_
        have hne : other.1 ≠ e.1 := fun heq => hfirst (List.mem_map.mpr ⟨other, hother, heq⟩)
        rw [hnames]
        simp [hne]
      rw [pushFree_of_not_mem he, hfree, if_pos (by simpa using he), ← List.append_cons]
      rfl

end Several

/-! ### Histories -/

/-- **How parameters have come about.** A test that looks at what it was asked before is no more
than one that does not, since it is asked once for each name. -/
inductive History where
  /-- There are none. -/
  | empty
  /-- A name is given a value. -/
  | insert (h : History) (name : String) (v : Value)
  /-- A name is taken out. -/
  | erase (h : History) (name : String)
  /-- The entries that fail a test are dropped. -/
  | filter (h : History) (keep : String → Value → Bool)
  /-- Other parameters, with a history of their own, are put below. -/
  | underlay (h lower : History)

namespace History

/-- The parameters that have come about. -/
def params : History → Params
  | .empty => Params.empty
  | .insert h name v => h.params.insert name v
  | .erase h name => h.params.erase name
  | .filter h keep => h.params.filter keep
  | .underlay h lower => h.params.underlay lower.params

/-- **The log of a history**: what has been written and removed, from the beginning. Entries that
fail a test are removed, and of what is put below the entries with free names are written. -/
def events : History → List Event
  | .empty => []
  | .insert h name v => h.events ++ [.written name v]
  | .erase h name => h.events ++ [.removed name]
  | .filter h keep => h.events ++ (h.params.failing keep).map fun e => .removed e.1
  | .underlay h lower => h.events ++ (h.params.free lower.params).map fun e => .written e.1 e.2

/-- **Parameters are what their log leaves.** -/
theorem records (h : History) : Records h.events h.params := by
  induction h with
  | empty => exact records_empty
  | insert h name v ih => exact ih.apply (.written name v)
  | erase h name ih => exact ih.apply (.removed name)
  | filter h keep ih =>
    rw [params, filter_eq_foldl ih.nodup]
    exact ih.foldl _
  | underlay h lower ih ihlower =>
    rw [params, underlay_eq_foldl ihlower.nodup]
    exact ih.foldl _

/-- **Parameters are a map in the order of first writes**, whatever their history. The names are
distinct, the value of a name is the last one written for it since its last removal, and the names
stand in the order of their first writes since then, of which each name has one only. So taking a
name out and dropping entries leave the others in their order. And what is put below, one entry
after the other, are the entries whose names are free, in their order and behind all others. -/
theorem in_order_of_first_write (h : History) :
    h.params.names.Nodup ∧
    (∀ name v, h.params.get? name = some v ↔ LastWritten h.events name v) ∧
    (∃ place : String → Nat,
      (∀ name ∈ h.params.names, ∀ k, FirstWritten h.events name k ↔ k = place name) ∧
      h.params.names.Pairwise fun name other => place name < place other) ∧
    (∀ name, (h.params.erase name).entries =
      h.params.entries.filter fun e => decide (e.1 ≠ name)) ∧
    (∀ keep, (h.params.filter keep).entries = h.params.entries.filter fun e => keep e.1 e.2) ∧
    ∀ lower : History,
      h.params.underlay lower.params = lower.params.entries.foldl pushFree h.params ∧
      (h.params.underlay lower.params).entries = h.params.entries ++
        lower.params.entries.filter fun e => decide (e.1 ∉ h.params.names) := by
  have hrecords := h.records
  refine ⟨hrecords.nodup, hrecords.get?_eq_some_iff, ?_, fun name => ?_, fun keep => rfl,
    fun lower => ⟨(foldl_pushFree_eq lower.records.nodup).symm, ?_⟩⟩
  · obtain ⟨place, hplace, hpairwise⟩ := hrecords.inOrder
    refine ⟨place, fun name hname k => ⟨fun hk => hk.unique (hplace name hname), ?_⟩, hpairwise⟩
    rintro rfl
    exact hplace name hname
  · rw [erase_eq_filter hrecords.nodup]
    rfl
  · rw [underlay_eq_free]
    rfl

/-- A name that is taken out and put in again has lost its place. -/
example : ((((Params.empty.insert "a" .null).insert "b" .null).erase "a").insert "a" .null).names =
    ["b", "a"] := by decide

end History

end Params

end UrlRouting
