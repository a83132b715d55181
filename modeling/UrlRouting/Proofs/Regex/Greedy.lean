import UrlRouting.Proofs.Regex.Whole

/-!
# First ways

Where the text decides what a part can read, only its first way matters. A part *goes first* to a
place if its preferred way ends there and takes no more than the given notes
(`UrlRouting.Regex.GoesFirst`); parts in a row go first one behind the other. A greedy loop over a
set goes first to the end of the run of its characters (`UrlRouting.Regex.goesFirst_run`), and
something that may be left out is left out only if it leads nowhere.
-/

namespace UrlRouting

namespace Regex

open Ways

/-- **The preferred one of some ways** takes the given notes and ends at a place. -/
def GoesFirst (ws : List Way) (trail : Trail) (Q : Position) : Prop := ws.head? = some ⟨trail, Q⟩

section GoesFirst

variable {ws vs : List Way} {next : Position → List Way} {t u : Trail} {P Q R : Position}
  {x y : List Char}

theorem goesFirst_stay (P : Position) : GoesFirst (stay P) [] P := rfl

/-- Parts in a row go first one behind the other. -/
theorem GoesFirst.extend (h : GoesFirst ws t Q) (hn : GoesFirst (next Q) u R) :
    GoesFirst (extend ws next) (t ++ u) R := by
  obtain ⟨ws, rfl⟩ : ∃ vs, ws = ⟨t, Q⟩ :: vs := List.head?_eq_some_iff.mp h
  obtain ⟨us, hus⟩ : ∃ us, next Q = ⟨u, R⟩ :: us := List.head?_eq_some_iff.mp hn
  change ((next Q).map (behind t) ++ _).head? = _
  rw [hus]
  rfl

theorem GoesFirst.append (h : GoesFirst ws t Q) (vs : List Way) : GoesFirst (ws ++ vs) t Q := by
  obtain ⟨ws, rfl⟩ : ∃ us, ws = ⟨t, Q⟩ :: us := List.head?_eq_some_iff.mp h
  rfl

theorem goesFirst_word (h : P.Reads x Q) : GoesFirst ((Expr.word x).ways P) [] Q := by
  have hpre : x.isPrefixOf P.rest = true := List.isPrefixOf_iff_prefix.mpr ⟨Q.rest, h.1.symm⟩
  rw [GoesFirst, Expr.ways, if_pos hpre, h.skip_eq]
  rfl

theorem goesFirst_set {s : CharSet} {c : Char} (h : P.Reads [c] Q) (hc : s.mem c = true) :
    GoesFirst ((Expr.set s).ways P) [] Q := by
  obtain ⟨b, rest⟩ := P
  obtain ⟨rfl, hQ⟩ : rest = c :: Q.rest ∧ Q.before = some c := h
  change (if s.mem c then stay ⟨some c, Q.rest⟩ else []).head? = _
  rw [if_pos hc, ← hQ]
  rfl

/-- A capture notes where it begins and where it ends. -/
theorem GoesFirst.capture {e : Expr} (h : GoesFirst (e.ways P) [] Q) (name : String) :
    GoesFirst ((Expr.capture (some name) e).ways P)
      [.opened name P.rest, .closed name Q.rest] Q := by
  obtain ⟨ws, hws⟩ : ∃ vs, e.ways P = ⟨[], Q⟩ :: vs := List.head?_eq_some_iff.mp h
  rw [GoesFirst, Expr.ways, hws]
  rfl

/-- If the first way is one that is looked for, it is the one that is found. -/
theorem GoesFirst.find?_eq (h : GoesFirst ws t Q) {keep : Way → Bool} (hkeep : keep ⟨t, Q⟩ = true) :
    ws.find? keep = some ⟨t, Q⟩ := by
  obtain ⟨ws, rfl⟩ : ∃ vs, ws = ⟨t, Q⟩ :: vs := List.head?_eq_some_iff.mp h
  exact List.find?_cons_of_pos hkeep

/-- Where the first way ends the text, it is the match of the whole text. -/
theorem GoesFirst.find?_isWhole (h : GoesFirst ws t Q) (hQ : Q.rest = []) :
    ws.find? Way.isWhole = some ⟨t, Q⟩ := h.find?_eq (List.isEmpty_iff.mpr hQ)

/-! ### Loops over a set -/

theorem Position.reads_cons_iff {c : Char} :
    P.Reads (c :: x) Q ↔ ∃ R, P.Reads [c] R ∧ R.Reads x Q :=
  Position.reads_append_iff (x := [c])

theorem ways_set_eq_nil {s : CharSet} (h : ∀ c ∈ P.rest.head?, s.mem c = false) :
    (Expr.set s).ways P = [] := by
  obtain ⟨b, rest⟩ := P
  cases rest with
  | nil => rfl
  | cons c rest => exact if_neg (Bool.eq_false_iff.mp (h c rfl))

/-- Rounds over a set go on as long as there are characters of the set. -/
theorem goesFirst_again {s : CharSet} (h : P.Reads x Q) (hx : ∀ c ∈ x, s.mem c = true)
    (hQ : ∀ c ∈ Q.rest.head?, s.mem c = false) :
    GoesFirst (again true (Expr.set s).ways P) [] Q := by
  induction x generalizing P with
  | nil =>
    obtain rfl := Position.reads_nil_iff.mp h
    rw [again_eq, ways_set_eq_nil hQ]
    exact goesFirst_stay Q
  | cons c x ih =>
    obtain ⟨R, hR, hrest⟩ := Position.reads_cons_iff.mp h
    obtain ⟨ws, hws⟩ : ∃ vs, (Expr.set s).ways P = ⟨[], R⟩ :: vs :=
      List.head?_eq_some_iff.mp (goesFirst_set hR (hx c List.mem_cons_self))
    have hadvances : advances P ⟨[], R⟩ = true :=
      advances_iff.mpr (hR.length_lt (List.cons_ne_nil c []))
    have hround : GoesFirst (((Expr.set s).ways P).filter (advances P)) [] R := by
      rw [hws, GoesFirst, List.filter_cons_of_pos hadvances]
      rfl
    rw [again_eq]
    exact (hround.extend (ih hrest fun d hd => hx d (List.mem_cons_of_mem c hd))).append _

/-- **A greedy loop over a set** goes first to the end of the run. -/
theorem goesFirst_run {s : CharSet} (h : P.Reads x Q) (hx : ∀ c ∈ x, s.mem c = true)
    (hQ : ∀ c ∈ Q.rest.head?, s.mem c = false) (hne : x ≠ []) :
    GoesFirst ((Expr.atLeast true 1 (.set s)).ways P) [] Q := by
  obtain ⟨c, x, rfl⟩ := List.exists_cons_of_ne_nil hne
  obtain ⟨R, hR, hrest⟩ := Position.reads_cons_iff.mp h
  obtain ⟨ws, hws⟩ : ∃ vs, (Expr.set s).ways P = ⟨[], R⟩ :: vs :=
    List.head?_eq_some_iff.mp (goesFirst_set hR (hx c List.mem_cons_self))
  have hadvances : advances P ⟨[], R⟩ = true :=
    advances_iff.mpr (hR.length_lt (List.cons_ne_nil c []))
  obtain ⟨us, hus⟩ : ∃ us, again true (Expr.set s).ways R = ⟨[], Q⟩ :: us :=
    List.head?_eq_some_iff.mp
      (goesFirst_again hrest (fun d hd => hx d (List.mem_cons_of_mem c hd)) hQ)
  have henter : GoesFirst (enter true (Expr.set s).ways P) [] Q := by
    rw [GoesFirst, enter, hws, List.flatMap_cons, if_pos hadvances, hus]
    rfl
  exact (goesFirst_stay P).extend henter

/-- A greedy loop over a set that need not be entered goes first to the end of the run, too. -/
theorem goesFirst_anyRun {s : CharSet} (h : P.Reads x Q) (hx : ∀ c ∈ x, s.mem c = true)
    (hQ : ∀ c ∈ Q.rest.head?, s.mem c = false) :
    GoesFirst ((Expr.atLeast true 0 (.set s)).ways P) [] Q := by
  rcases eq_or_ne x [] with rfl | hne
  · obtain rfl := Position.reads_nil_iff.mp h
    change (enter true (Expr.set s).ways Q ++ stay Q).head? = _
    rw [enter, ways_set_eq_nil hQ]
    rfl
  · have hrun := goesFirst_run h hx hQ hne
    have hways : (Expr.atLeast true 1 (.set s)).ways P = enter true (Expr.set s).ways P :=
      stay_extend
    rw [hways] at hrun
    exact hrun.append _

end GoesFirst

end Regex

end UrlRouting
