import UrlRouting.Proofs.Regex.Rows

/-!
# What a trail says about a capture

The text of a capture is found in a trail by its last notes. Of a trail that is put together from
parts it is shown here which part decides: notes about other names are passed over on either side,
so that the text under a name is what the part with that name says
(`UrlRouting.Regex.Trail.text?_append_left`, `UrlRouting.Regex.Trail.text?_append_right`), and a
capture says what was read between its two notes (`UrlRouting.Regex.Trail.text?_capture`).

Whatever an expression captures, it captures on its way: a captured text is no longer than what the
way reads (`UrlRouting.Regex.Way.StaysWithin.length_text?_le`), and so empty if the way reads
nothing.
-/

namespace UrlRouting

namespace Regex

namespace Trail

/-- A trail with no note about a name. -/
def Omits (name : String) (t : Trail) : Prop := ∀ n ∈ t, n.name ≠ name

section

variable {name : String} {t u : Trail}

theorem omits_nil (name : String) : Omits name [] := fun _ hn => nomatch hn

theorem Omits.append (h : Omits name t) (h' : Omits name u) : Omits name (t ++ u) := by
  intro n hn
  rcases List.mem_append.mp hn with hn | hn
  · exact h n hn
  · exact h' n hn

theorem Omits.reverse (h : Omits name t) : Omits name t.reverse :=
  fun n hn => h n (List.mem_reverse.mp hn)

theorem openedAt?_append_right (h : Omits name t) :
    openedAt? name (t ++ u) = openedAt? name u := by
  induction t with
  | nil => rfl
  | cons n t ih =>
    have hrest := ih fun m hm => h m (List.mem_cons_of_mem n hm)
    have hn : n.name ≠ name := h n List.mem_cons_self
    cases n with
    | opened other rest => exact (if_neg hn).trans hrest
    | closed other rest => exact hrest

theorem openedAt?_append_left (h : Omits name u) :
    openedAt? name (t ++ u) = openedAt? name t := by
  induction t with
  | nil =>
    have hnil := openedAt?_append_right (u := []) h
    rwa [List.append_nil] at hnil
  | cons n t ih =>
    cases n with
    | opened other rest => rw [List.cons_append, openedAt?, openedAt?, ih]
    | closed other rest => exact ih

theorem lastText?_append_right (h : Omits name t) :
    lastText? name (t ++ u) = lastText? name u := by
  induction t with
  | nil => rfl
  | cons n t ih =>
    have hrest := ih fun m hm => h m (List.mem_cons_of_mem n hm)
    have hn : n.name ≠ name := h n List.mem_cons_self
    cases n with
    | opened other rest => exact hrest
    | closed other rest => exact (if_neg hn).trans hrest

theorem lastText?_append_left (h : Omits name u) :
    lastText? name (t ++ u) = lastText? name t := by
  induction t with
  | nil =>
    have hnil := lastText?_append_right (u := []) h
    rwa [List.append_nil] at hnil
  | cons n t ih =>
    cases n with
    | opened other rest => exact ih
    | closed other rest =>
      rw [List.cons_append, lastText?, lastText?, ih, openedAt?_append_left h]

/-- Notes about other names do not matter in front. -/
theorem text?_append_right (h : Omits name t) : text? name (t ++ u) = text? name u := by
  rw [text?, List.reverse_append, lastText?_append_left h.reverse, text?]

/-- Notes about other names do not matter behind. -/
theorem text?_append_left (h : Omits name u) : text? name (t ++ u) = text? name t := by
  rw [text?, List.reverse_append, lastText?_append_right h.reverse, text?]

/-- **A capture says what was read between its notes.** -/
theorem text?_capture (h : Omits name t) (x rest : List Char) :
    text? name (.opened name (x ++ rest) :: t ++ [.closed name rest]) = some (String.ofList x) := by
  have hreverse : (Note.opened name (x ++ rest) :: t ++ [Note.closed name rest]).reverse =
      Note.closed name rest :: (t.reverse ++ [Note.opened name (x ++ rest)]) := by
    rw [List.reverse_append, List.reverse_singleton, List.reverse_cons]
    rfl
  rw [text?, hreverse]
  rw [lastText?, if_pos rfl, openedAt?_append_right h.reverse, openedAt?, if_pos rfl,
    Option.map_some, List.length_append, Nat.add_sub_cancel, List.take_left]

end

end Trail

/-! ### Captures on the way -/

open Ways

/-- How much of the text was left where the note was taken. -/
def Note.rest : Note → List Char
  | .opened _ rest => rest
  | .closed _ rest => rest

/-- **A way from a place takes its notes between its ends.** -/
structure Way.StaysWithin (P : Position) (w : Way) : Prop where
  /-- It does not go back. -/
  stop : w.stop.rest.length ≤ P.rest.length
  /-- Its notes are about places on the way. -/
  notes : ∀ n ∈ w.trail, w.stop.rest.length ≤ n.rest.length ∧ n.rest.length ≤ P.rest.length

theorem composes_staysWithin : Composes fun P w => w.StaysWithin P where
  stay P := ⟨Nat.le_refl _, List.forall_mem_nil _⟩
  behind {P v u} hv hu := by
    refine ⟨Nat.le_trans hu.stop hv.stop, List.forall_mem_append.mpr ⟨fun n hn => ?_, fun n hn => ?_⟩⟩
    · exact ⟨Nat.le_trans hu.stop (hv.notes n hn).1, (hv.notes n hn).2⟩
    · exact ⟨(hu.notes n hn).1, Nat.le_trans (hu.notes n hn).2 hv.stop⟩

/-- **Every way of an expression takes its notes between its ends.** -/
theorem Expr.staysWithin_ways (e : Expr) (P : Position) : ∀ w ∈ e.ways P, w.StaysWithin P := by
  refine composes_staysWithin.ways (fun hreads => ⟨hreads.length_le, List.forall_mem_nil _⟩) ?_ e P
  intro P v name hv
  refine ⟨hv.stop, fun n hn => ?_⟩
  rcases List.mem_append.mp hn with hn | hn
  · rcases List.mem_append.mp hn with hn | hn
    · obtain ⟨name, -, rfl⟩ := List.mem_map.mp hn
      exact ⟨hv.stop, Nat.le_refl _⟩
    · exact hv.notes n hn
  · obtain ⟨name, -, rfl⟩ := List.mem_map.mp hn
    exact ⟨Nat.le_refl _, hv.stop⟩

namespace Trail

variable {name text : String} {t : Trail} {start : List Char} {least most : Nat}

theorem mem_of_openedAt? (h : openedAt? name t = some start) : .opened name start ∈ t := by
  induction t with
  | nil => cases h
  | cons n t ih =>
    cases n with
    | opened other rest =>
      rw [openedAt?] at h
      split at h
      · next hname =>
        obtain rfl := Option.some.inj h
        exact hname ▸ List.mem_cons_self
      · exact List.mem_cons_of_mem _ (ih h)
    | closed other rest => exact List.mem_cons_of_mem _ (ih h)

/-- A captured text is no longer than what lies between the notes. -/
theorem length_lastText?_le (h : ∀ n ∈ t, least ≤ n.rest.length ∧ n.rest.length ≤ most)
    (htext : lastText? name t = some text) : text.toList.length ≤ most - least := by
  induction t with
  | nil => cases htext
  | cons n t ih =>
    obtain ⟨hn, ht⟩ := List.forall_mem_cons.mp h
    cases n with
    | opened other rest => exact ih ht htext
    | closed other rest =>
      rw [lastText?] at htext
      split at htext
      · obtain ⟨start, hstart, rfl⟩ := Option.map_eq_some_iff.mp htext
        have hfirst : start.length ≤ most := (ht _ (mem_of_openedAt? hstart)).2
        have hlast : least ≤ rest.length := hn.1
        rw [String.toList_ofList, List.length_take]
        omega
      · exact ih ht htext

end Trail

/-- **A captured text is no longer than what the way reads.** -/
theorem Way.StaysWithin.length_text?_le {P : Position} {w : Way} {name text : String}
    (h : w.StaysWithin P) (htext : w.trail.text? name = some text) :
    text.toList.length ≤ P.rest.length - w.stop.rest.length :=
  Trail.length_lastText?_le (fun n hn => h.notes n (List.mem_reverse.mp hn)) htext

/-- **A way that reads nothing captures nothing**, or empty texts. -/
theorem Way.StaysWithin.eq_empty {P : Position} {w : Way} {name text : String}
    (h : w.StaysWithin P) (hstays : w.stop.rest = P.rest) (htext : w.trail.text? name = some text) :
    text = "" := by
  have hlength := h.length_text?_le htext
  rw [hstays, Nat.sub_self] at hlength
  exact String.toList_inj.mp (List.eq_nil_of_length_eq_zero (Nat.le_zero.mp hlength))

end Regex

end UrlRouting
