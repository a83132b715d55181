import UrlRouting.Proofs.Regex.Alone
import UrlRouting.Proofs.Regex.Sets

/-!
# The classes of a tree

The classes in the tree of a text are those among its tokens, no more and no fewer
(`UrlRouting.Regex.Syntax.mem_classes_iff`): a token moves what has been read from level to level,
but drops and copies nothing. So what reading makes sure of for the tokens is true of the tree.
Above all, no range in it ends in front of its start, and its sets are proper
(`UrlRouting.Regex.Syntax.sets_isProper_of_read?`).
-/

namespace UrlRouting

namespace Regex

namespace Syntax

/-- The classes in the tree. -/
def classes : Syntax → List ClassSet
  | .class_ s => [s]
  | .group _ body => body.classes
  | .repetition body _ _ => body.classes
  | .seq items last => items.classes ++ last.classes
  | .alt branches last => branches.classes ++ last.classes
  | .empty | .char _ | .any | .caret | .dollar | .look _ | .flags _ => []

/-- The classes that have been read at a level. -/
def Level.classes (l : Level) : List ClassSet :=
  l.branches.flatMap Syntax.classes ++ l.items.flatMap Syntax.classes

/-- The classes that have been read so far. -/
def Place.classes (p : Place) : List ClassSet := p.level.classes ++ p.around.flatMap (·.2.classes)

section Levels

variable {c : ClassSet} {l m : Level}

theorem mem_classes_ofItems {items : List Syntax} :
    c ∈ (ofItems items).classes ↔ c ∈ items.flatMap classes := by
  induction items with
  | nil => simp [ofItems, classes]
  | cons item items ih =>
    cases items with
    | nil => simp [ofItems]
    | cons item' items =>
      change c ∈ (ofItems (item' :: items)).classes ++ item.classes ↔
        c ∈ item.classes ++ (item' :: items).flatMap classes
      rw [List.mem_append, List.mem_append, ih, or_comm]

theorem mem_classes_ofBranches {branches : List Syntax} :
    c ∈ (ofBranches branches).classes ↔ c ∈ branches.flatMap classes := by
  induction branches with
  | nil => simp [ofBranches, classes]
  | cons branch branches ih =>
    cases branches with
    | nil => simp [ofBranches]
    | cons branch' branches =>
      change c ∈ (ofBranches (branch' :: branches)).classes ++ branch.classes ↔
        c ∈ branch.classes ++ (branch' :: branches).flatMap classes
      rw [List.mem_append, List.mem_append, ih, or_comm]

theorem Level.mem_classes_push {s : Syntax} :
    c ∈ (l.push s).classes ↔ c ∈ l.classes ∨ c ∈ s.classes := by
  simp only [Level.classes, Level.push, List.flatMap_cons, List.mem_append]
  tauto

theorem Level.mem_classes_bar : c ∈ l.bar.classes ↔ c ∈ l.classes := by
  simp only [Level.classes, Level.bar, List.flatMap_cons, List.flatMap_nil, List.mem_append,
    mem_classes_ofItems, List.append_nil]
  tauto

theorem Level.mem_classes_tree : c ∈ l.tree.classes ↔ c ∈ l.classes := by
  rw [Level.tree, mem_classes_ofBranches, List.flatMap_cons, List.mem_append, mem_classes_ofItems,
    Level.classes, List.mem_append, or_comm]

theorem Level.mem_classes_repeat? {bounds : Bounds} {greedy : Bool}
    (h : l.repeat? bounds greedy = some m) : c ∈ m.classes ↔ c ∈ l.classes := by
  unfold Level.repeat? at h
  split at h
  · cases h
  · cases h
  · rename_i item rest _ hitems
    cases h
    simp only [Level.classes, hitems, List.flatMap_cons, Syntax.classes]

end Levels

section Places

variable {c : ClassSet} {p q : Place} {t : Token} {ts : List Token}

/-- **A token adds the class that it is**, if it is one. -/
theorem Place.mem_classes_read? (h : p.read? t = some q) :
    c ∈ q.classes ↔ c ∈ p.classes ∨ .class_ c = t := by
  have hpush (s : Syntax) : c ∈ (p.push s).classes ↔ c ∈ p.classes ∨ c ∈ s.classes := by
    simp only [Place.classes, Place.push, List.mem_append, Level.mem_classes_push]
    tauto
  cases t with
  | closing =>
    obtain ⟨level, around⟩ := p
    cases around with
    | nil => cases h
    | cons g around =>
      cases h
      simp only [Place.classes, List.flatMap_cons, List.mem_append, Level.mem_classes_push,
        Syntax.classes, Level.mem_classes_tree, reduceCtorEq]
      tauto
  | repetition bounds greedy =>
    obtain ⟨m, hm, rfl⟩ := Option.map_eq_some_iff.mp h
    simp [Place.classes, Level.mem_classes_repeat? hm]
  | bar =>
    cases h
    simp [Place.classes, Level.mem_classes_bar]
  | opening kind =>
    cases h
    simp [Place.classes, Level.start, Level.classes]
  | class_ s =>
    cases h
    rw [hpush]
    simp [Syntax.classes]
  | _ =>
    cases h
    rw [hpush]
    simp [Syntax.classes]

theorem Place.mem_classes_readAll? (h : p.readAll? ts = some q) :
    c ∈ q.classes ↔ c ∈ p.classes ∨ .class_ c ∈ ts := by
  induction ts generalizing p with
  | nil =>
    cases h
    simp
  | cons t ts ih =>
    rw [readAll?, List.foldlM_cons] at h
    obtain ⟨mid, hmid, hrest⟩ := Option.bind_eq_some_iff.mp h
    rw [ih hrest, mem_classes_read? hmid, List.mem_cons, or_assoc]

/-- **The classes of a tree are those among its tokens.** -/
theorem mem_classes_iff {level : Level}
    (h : Place.readAll? ⟨.start, []⟩ ts = some ⟨level, []⟩) :
    c ∈ level.tree.classes ↔ .class_ c ∈ ts := by
  have hread := Place.mem_classes_readAll? (c := c) h
  simpa [Place.classes, Level.start, Level.classes, Level.mem_classes_tree] using hread

end Places

/-! ### Proper sets -/

theorem sets_isProper {s : Syntax} (h : ∀ c ∈ s.classes, c.all ClassSet.isOrdered = true) :
    s.Sets CharSet.IsProper := by
  induction s with
  | char c => exact fun i => CharSet.isProper_foldedIf (CharSet.isProper_single c) i
  | any => exact isProper_dot
  | class_ s => exact ClassSet.isProper_set (h s (List.mem_singleton_self s))
  | group kind body ih => exact ih h
  | repetition body bounds greedy ih => exact ih h
  | seq items last ih1 ih2 | alt items last ih1 ih2 =>
    obtain ⟨h1, h2⟩ := List.forall_mem_append.mp h
    exact ⟨ih1 h1, ih2 h2⟩
  | _ => trivial

end Syntax

theorem Token.Lexes.isOrdered {cs rest : List Char} {ts : List Token} (h : Lexes cs ts rest) :
    ∀ t ∈ ts, t.isOrdered = true := by
  induction h with
  | done => exact List.forall_mem_nil _
  | step first _ ih =>
    obtain ⟨x, -, hx, -⟩ := determined_read? first
    exact List.forall_mem_cons.mpr ⟨hx.isOrdered, ih⟩

/-- **All sets of the tree of a text are proper.** -/
theorem Syntax.sets_isProper_of_read? {x : List Char} {s : Syntax}
    (h : read? (String.ofList x) = some s) : s.Sets CharSet.IsProper := by
  obtain ⟨ts, level, hlex, hread, rfl⟩ := read?_eq_some_iff.mp h
  exact sets_isProper fun _ hc => hlex.isOrdered _ ((mem_classes_iff hread).mp hc)

end Regex

end UrlRouting
