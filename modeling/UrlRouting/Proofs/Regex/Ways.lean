import UrlRouting.Regex.Search

/-!
# The ways through an expression

A match was said to be a way through an expression along a text, and of two ways the one preferred
where they part to be the match. This file lists the ways: `UrlRouting.Regex.Expr.ways` gives all
ways of an expression from a place, the preferred ones first, each with the notes it takes and the
place where it ends. Nothing is remembered here and nothing is shared, so the list may be as long as
the ways are many; it says what a search means, not how it is done.

A loop is the only expression that needs care. Entered at a place, a round that reads nothing leaves
it; a round that has read something goes on with `UrlRouting.Regex.Ways.again`, where every further
round reads something too. So the number of rounds is bounded by the length of the text.

* `UrlRouting.Regex.Position.Reads` – a text leads from one place to another;
* `UrlRouting.Regex.Expr.ways` – the ways of an expression from a place;
* `UrlRouting.Regex.firstTrail` – the notes of the first way that can be continued.
-/

namespace UrlRouting

namespace Regex

/-! ### Places -/

/-- A place in a text: the character in front of it, if there is one, and the rest of the text. -/
structure Position where
  /-- The character in front. -/
  before : Option Char
  /-- The rest of the text. -/
  rest : List Char
  deriving DecidableEq

namespace Position

/-- **A text leads from a place to another one**: it is what stands between them. -/
def Reads (P : Position) (x : List Char) (Q : Position) : Prop :=
  P.rest = x ++ Q.rest ∧ Q.before = x.getLast?.or P.before

/-- The place behind a text that the rest begins with. -/
def skip (P : Position) (x : List Char) : Position := ⟨x.getLast?.or P.before, P.rest.drop x.length⟩

/-- The places behind each character of a text. -/
def behindEach : List Char → List Position
  | [] => []
  | c :: rest => ⟨some c, rest⟩ :: behindEach rest

/-- The places behind a place, the nearest one first. -/
def later (P : Position) : List Position := behindEach P.rest

variable {P Q R : Position} {x y : List Char}

theorem Reads.refl (P : Position) : P.Reads [] P := ⟨rfl, rfl⟩

theorem Reads.trans (hx : P.Reads x Q) (hy : Q.Reads y R) : P.Reads (x ++ y) R := by
  refine ⟨by rw [hx.1, hy.1, List.append_assoc], ?_⟩
  rw [hy.2, hx.2, List.getLast?_append]
  cases y.getLast? <;> rfl

theorem Reads.skip_eq (h : P.Reads x Q) : P.skip x = Q := by
  cases Q
  obtain ⟨h1, h2⟩ := h
  simp only [skip, h1, List.drop_left]
  exact congrArg (Position.mk · _) h2.symm

theorem reads_skip (h : x <+: P.rest) : P.Reads x (P.skip x) := by
  obtain ⟨y, hy⟩ := h
  exact ⟨by rw [skip, ← hy, List.drop_left], rfl⟩

/-- Two texts between the same places are the same. -/
theorem Reads.unique (hx : P.Reads x Q) (hy : P.Reads y Q) : x = y :=
  List.append_cancel_right (hx.1.symm.trans hy.1)

theorem Reads.length_le (h : P.Reads x Q) : Q.rest.length ≤ P.rest.length := by
  rw [h.1, List.length_append]
  omega

theorem reads_nil_iff : P.Reads [] Q ↔ Q = P := by
  constructor
  · rintro ⟨h1, h2⟩
    cases P
    cases Q
    simp_all
  · rintro rfl
    exact Reads.refl _

theorem length_lt_of_mem_behindEach {cs : List Char} :
    ∀ {Q : Position}, Q ∈ behindEach cs → Q.rest.length < cs.length := by
  induction cs with
  | nil => exact fun h => absurd h List.not_mem_nil
  | cons c cs ih =>
    intro Q h
    rcases List.mem_cons.mp h with rfl | h
    · exact Nat.lt_succ_self _
    · exact Nat.lt_succ_of_lt (ih h)

theorem length_lt_of_mem_later (h : Q ∈ P.later) : Q.rest.length < P.rest.length :=
  length_lt_of_mem_behindEach h

/-- The place behind so many characters, in the list of the places from the first one on. -/
theorem getElem?_places (b : Option Char) (cs : List Char) (n : Nat) (h : n ≤ cs.length) :
    (Position.mk b cs :: behindEach cs)[n]? = some ((Position.mk b cs).skip (cs.take n)) := by
  induction cs generalizing b n with
  | nil =>
    obtain rfl : n = 0 := Nat.le_zero.mp h
    rfl
  | cons c cs ih =>
    cases n with
    | zero => rfl
    | succ n =>
      have hstep := ih (some c) n (Nat.le_of_succ_le_succ h)
      rw [List.getElem?_cons_succ]
      refine hstep.trans ?_
      simp only [skip, List.take_succ_cons, List.length_cons, List.drop_succ_cons,
        List.getLast?_cons]
      cases (cs.take n).getLast? <;> rfl

end Position

/-! ### Ways -/

/-- A way: the notes taken on it, and the place where it ends. -/
structure Way where
  /-- The notes. -/
  trail : Trail
  /-- The place where it ends. -/
  stop : Position
  deriving DecidableEq

namespace Ways

/-- The way with more notes in front of it. -/
def behind (front : Trail) (w : Way) : Way := ⟨front ++ w.trail, w.stop⟩

/-- Staying at a place. -/
def stay (P : Position) : List Way := [⟨[], P⟩]

/-- Each way of a list, continued. -/
def extend (ws : List Way) (next : Position → List Way) : List Way :=
  ws.flatMap fun w => (next w.stop).map (behind w.trail)

/-- The ways of going on, and those of ending: what is preferred comes first. -/
def inOrder (greedy : Bool) (goOn finish : List Way) : List Way :=
  if greedy then goOn ++ finish else finish ++ goOn

/-- So many rounds. -/
def times (round : Position → List Way) : Nat → Position → List Way
  | 0, P => stay P
  | n + 1, P => extend (round P) (times round n)

/-- At most so many rounds. -/
def upTo (greedy : Bool) (round : Position → List Way) : Nat → Position → List Way
  | 0, P => stay P
  | n + 1, P => inOrder greedy (extend (round P) (upTo greedy round n)) (stay P)

/-- Does the way from a place read something? -/
def advances (P : Position) (w : Way) : Bool := w.stop.rest.length < P.rest.length

theorem advances_iff {P : Position} {w : Way} :
    advances P w = true ↔ w.stop.rest.length < P.rest.length :=
  decide_eq_true_iff

/-- At most so many rounds, each of which reads something. -/
def againWithin (greedy : Bool) (round : Position → List Way) : Nat → Position → List Way
  | 0, P => stay P
  | n + 1, P =>
    inOrder greedy (extend ((round P).filter (advances P)) (againWithin greedy round n)) (stay P)

/-- Any number of rounds, each of which reads something. -/
def again (greedy : Bool) (round : Position → List Way) (P : Position) : List Way :=
  againWithin greedy round P.rest.length P

/-- A round, and further ones if it has read something. -/
def enter (greedy : Bool) (round : Position → List Way) (P : Position) : List Way :=
  (round P).flatMap fun w =>
    if advances P w then (again greedy round w.stop).map (behind w.trail) else [w]

/-- At least so many rounds. -/
def atLeast (greedy : Bool) (least : Nat) (round : Position → List Way) (P : Position) : List Way :=
  match least with
  | 0 => inOrder greedy (enter greedy round P) (stay P)
  | n + 1 => extend (times round n P) (enter greedy round)

end Ways

open Ways

/-- The ways of an expression from a place, the preferred ones first. -/
def Expr.ways : Expr → Position → List Way
  | .empty, P => stay P
  | .word text, P => if text.isPrefixOf P.rest then stay (P.skip text) else []
  | .set s, P =>
    match P.rest with
    | c :: rest => if s.mem c then stay ⟨some c, rest⟩ else []
    | [] => []
  | .look l, P => if l.holds P.before P.rest then stay P else []
  | .capture name body, P =>
    (body.ways P).map fun w =>
      ⟨name.toList.map (.opened · P.rest) ++ w.trail ++ name.toList.map (.closed · w.stop.rest),
        w.stop⟩
  | .seq first second, P => extend (first.ways P) second.ways
  | .alt first second, P => first.ways P ++ second.ways P
  | .atLeast greedy least body, P => Ways.atLeast greedy least body.ways P
  | .between greedy least more body, P =>
    extend (times body.ways least P) (upTo greedy body.ways more)

/-! ### Loops -/

section Loops

variable {ws : List Way} {next other round : Position → List Way} {greedy : Bool}

theorem extend_congr (h : ∀ w ∈ ws, next w.stop = other w.stop) :
    extend ws next = extend ws other := by
  induction ws with
  | nil => rfl
  | cons w ws ih =>
    have hrest : extend ws next = extend ws other :=
      ih fun v hv => h v (List.mem_cons_of_mem w hv)
    change (next w.stop).map _ ++ extend ws next = (other w.stop).map _ ++ extend ws other
    rw [h w List.mem_cons_self, hrest]

/-- At the end of a text no round reads anything. -/
theorem filter_advances_nil {P : Position} (h : P.rest.length = 0) : ws.filter (advances P) = [] := by
  refine List.filter_eq_nil_iff.mpr fun w _ => ?_
  simp [advances, h]

/-- More rounds than there are characters left make no difference. -/
theorem againWithin_congr {n m : Nat} {P : Position} (hn : P.rest.length ≤ n)
    (hm : P.rest.length ≤ m) : againWithin greedy round n P = againWithin greedy round m P := by
  induction n generalizing m P with
  | zero =>
    cases m with
    | zero => rfl
    | succ m =>
      rw [againWithin, againWithin, filter_advances_nil (Nat.le_zero.mp hn)]
      cases greedy <;> rfl
  | succ n ih =>
    cases m with
    | zero =>
      rw [againWithin, againWithin, filter_advances_nil (Nat.le_zero.mp hm)]
      cases greedy <;> rfl
    | succ m =>
      rw [againWithin, againWithin]
      refine congrArg (inOrder greedy · _) (extend_congr fun w hw => ?_)
      have hlt : w.stop.rest.length < P.rest.length := advances_iff.mp (List.mem_filter.mp hw).2
      exact ih (by omega) (by omega)

/-- **The rounds of a loop**: one that reads something and then the rounds behind it, or none. -/
theorem again_eq (P : Position) :
    again greedy round P =
      inOrder greedy (extend ((round P).filter (advances P)) (again greedy round)) (stay P) := by
  unfold again
  cases hn : P.rest.length with
  | zero =>
    rw [filter_advances_nil hn]
    cases greedy <;> rfl
  | succ n =>
    rw [againWithin]
    refine congrArg (inOrder greedy · _) (extend_congr fun w hw => ?_)
    have hlt : w.stop.rest.length < P.rest.length := advances_iff.mp (List.mem_filter.mp hw).2
    exact againWithin_congr (by omega) (Nat.le_refl _)

end Loops

/-! ### What ways have in common -/

section Members

variable {ws vs : List Way} {next : Position → List Way} {greedy : Bool} {w : Way}

theorem mem_extend_iff :
    w ∈ extend ws next ↔ ∃ v ∈ ws, ∃ u ∈ next v.stop, behind v.trail u = w := by
  simp only [extend, List.mem_flatMap, List.mem_map]

theorem mem_inOrder_iff : w ∈ inOrder greedy ws vs ↔ w ∈ ws ∨ w ∈ vs := by
  unfold inOrder
  split
  · exact List.mem_append
  · rw [List.mem_append, or_comm]

end Members

/-- **A property of ways from places that composes**: staying has it, and two ways, one behind the
other, have it together. -/
structure Composes (C : Position → Way → Prop) : Prop where
  /-- Staying has it. -/
  stay (P : Position) : C P ⟨[], P⟩
  /-- So have two ways, one behind the other. -/
  behind {P : Position} {v u : Way} (hv : C P v) (hu : C v.stop u) : C P (behind v.trail u)

namespace Composes

variable {C : Position → Way → Prop} {P : Position} {ws vs : List Way}
  {next round : Position → List Way} {greedy : Bool}

theorem extend (h : Composes C) (hws : ∀ w ∈ ws, C P w) (hn : ∀ Q, ∀ w ∈ next Q, C Q w) :
    ∀ w ∈ extend ws next, C P w := by
  intro w hw
  obtain ⟨v, hv, u, hu, rfl⟩ := mem_extend_iff.mp hw
  exact h.behind (hws v hv) (hn v.stop u hu)

theorem goOn (h : Composes C) (hws : ∀ w ∈ ws, C P w) :
    ∀ w ∈ inOrder greedy ws (Ways.stay P), C P w := by
  intro w hw
  rcases mem_inOrder_iff.mp hw with hw | hw
  · exact hws w hw
  · exact List.mem_singleton.mp hw ▸ h.stay P

section Loops

variable (h : Composes C) (hr : ∀ Q, ∀ w ∈ round Q, C Q w)

include h hr

theorem times (n : Nat) (P : Position) : ∀ w ∈ times round n P, C P w := by
  induction n generalizing P with
  | zero => exact List.forall_mem_singleton.mpr (h.stay P)
  | succ n ih => exact h.extend (hr P) ih

theorem upTo (greedy : Bool) (n : Nat) (P : Position) : ∀ w ∈ upTo greedy round n P, C P w := by
  induction n generalizing P with
  | zero => exact List.forall_mem_singleton.mpr (h.stay P)
  | succ n ih => exact h.goOn (h.extend (hr P) ih)

theorem again (greedy : Bool) (P : Position) : ∀ w ∈ again greedy round P, C P w := by
  unfold Ways.again
  generalize P.rest.length = n
  induction n generalizing P with
  | zero => exact List.forall_mem_singleton.mpr (h.stay P)
  | succ n ih => exact h.goOn (h.extend (fun w hw => hr P w (List.mem_filter.mp hw).1) ih)

theorem enter (greedy : Bool) (P : Position) : ∀ w ∈ enter greedy round P, C P w := by
  intro w hw
  obtain ⟨v, hv, hw⟩ := List.mem_flatMap.mp hw
  split at hw
  · obtain ⟨u, hu, rfl⟩ := List.mem_map.mp hw
    exact h.behind (hr P v hv) (h.again hr greedy v.stop u hu)
  · exact List.mem_singleton.mp hw ▸ hr P v hv

theorem atLeast (greedy : Bool) (least : Nat) (P : Position) :
    ∀ w ∈ Ways.atLeast greedy least round P, C P w := by
  cases least with
  | zero => exact h.goOn (h.enter hr greedy P)
  | succ n => exact h.extend (h.times hr n P) (h.enter hr greedy)

end Loops

/-- **What every way of an expression has**: a property that composes, that reading has, and that
captures keep. -/
theorem ways (h : Composes C) (hreads : ∀ {P : Position} {x : List Char} {Q : Position},
      P.Reads x Q → C P ⟨[], Q⟩)
    (hcapture : ∀ {P : Position} {v : Way} (name : Option String), C P v →
      C P ⟨name.toList.map (.opened · P.rest) ++ v.trail ++
        name.toList.map (.closed · v.stop.rest), v.stop⟩)
    (e : Expr) (P : Position) : ∀ w ∈ e.ways P, C P w := by
  induction e generalizing P with
  | empty => exact List.forall_mem_singleton.mpr (h.stay P)
  | word text =>
    unfold Expr.ways
    split
    · next hprefix =>
      exact List.forall_mem_singleton.mpr
        (hreads (Position.reads_skip (List.isPrefixOf_iff_prefix.mp hprefix)))
    · exact List.forall_mem_nil _
  | set s =>
    obtain ⟨b, rest⟩ := P
    cases rest with
    | nil => exact List.forall_mem_nil _
    | cons c rest =>
      change ∀ w ∈ (if s.mem c then Ways.stay ⟨some c, rest⟩ else []), C _ w
      split
      · exact List.forall_mem_singleton.mpr (hreads (x := [c]) ⟨rfl, rfl⟩)
      · exact List.forall_mem_nil _
  | look l =>
    unfold Expr.ways
    split
    · exact List.forall_mem_singleton.mpr (h.stay P)
    · exact List.forall_mem_nil _
  | capture name body ih =>
    intro w hw
    obtain ⟨v, hv, rfl⟩ := List.mem_map.mp hw
    exact hcapture name (ih P v hv)
  | seq first second ih1 ih2 => exact h.extend (ih1 P) ih2
  | alt first second ih1 ih2 => exact List.forall_mem_append.mpr ⟨ih1 P, ih2 P⟩
  | atLeast greedy least body ih => exact h.atLeast ih greedy least P
  | between greedy least more body ih =>
    exact h.extend (h.times ih least P) (h.upTo ih greedy more)

end Composes

/-! ### A text leads along every way -/

/-- A list of ways from a place: each of them leads to its end. -/
def Leads (P : Position) (ws : List Way) : Prop := ∀ w ∈ ws, ∃ x, P.Reads x w.stop

theorem composes_reads : Composes fun P w => ∃ x, P.Reads x w.stop where
  stay P := ⟨[], Position.Reads.refl P⟩
  behind := by
    rintro P v u ⟨x, hx⟩ ⟨y, hy⟩
    exact ⟨x ++ y, hx.trans hy⟩

theorem leads_stay (P : Position) : Leads P (stay P) :=
  List.forall_mem_singleton.mpr (composes_reads.stay P)

theorem Leads.extend {P : Position} {ws : List Way} {next : Position → List Way} (h : Leads P ws)
    (hn : ∀ Q, Leads Q (next Q)) : Leads P (extend ws next) := composes_reads.extend h hn

/-- **Every way of an expression reads a text.** -/
theorem Expr.leads_ways (e : Expr) (P : Position) : Leads P (e.ways P) :=
  composes_reads.ways (fun hreads => ⟨_, hreads⟩) (fun _ hv => hv) e P

/-! ### The first way that can be continued -/

/-- **The notes of the first way that can be continued**, those of its continuation included. -/
def firstTrail (ws : List Way) (after : Position → Option Trail) : Option Trail :=
  ws.findSome? fun w => (after w.stop).map (w.trail ++ ·)

section FirstTrail

variable {ws vs : List Way} {after other : Position → Option Trail}

@[simp] theorem firstTrail_nil : firstTrail [] after = none := rfl

theorem firstTrail_cons (w : Way) :
    firstTrail (w :: ws) after = ((after w.stop).map (w.trail ++ ·)).or (firstTrail ws after) := by
  rw [firstTrail, List.findSome?_cons]
  cases (after w.stop).map (w.trail ++ ·) <;> rfl

theorem firstTrail_append :
    firstTrail (ws ++ vs) after = (firstTrail ws after).or (firstTrail vs after) := by
  induction ws with
  | nil => rfl
  | cons w ws ih => rw [List.cons_append, firstTrail_cons, firstTrail_cons, ih, Option.or_assoc]

@[simp] theorem firstTrail_stay (P : Position) : firstTrail (stay P) after = after P := by
  rw [stay, firstTrail_cons]
  cases after P <;> rfl

theorem firstTrail_map_behind (front : Trail) :
    firstTrail (ws.map (behind front)) after = (firstTrail ws after).map (front ++ ·) := by
  induction ws with
  | nil => rfl
  | cons w ws ih =>
    rw [List.map_cons, firstTrail_cons, firstTrail_cons, ih]
    simp only [behind]
    cases after w.stop <;> simp [List.append_assoc]

theorem firstTrail_flatMap (f : Way → List Way) :
    firstTrail (ws.flatMap f) after = ws.findSome? fun w => firstTrail (f w) after := by
  induction ws with
  | nil => rfl
  | cons w ws ih =>
    rw [List.flatMap_cons, firstTrail_append, ih, List.findSome?_cons]
    cases firstTrail (f w) after <;> rfl

/-- What follows a continuation is part of the continuation. -/
theorem firstTrail_extend (next : Position → List Way) :
    firstTrail (extend ws next) after = firstTrail ws fun Q => firstTrail (next Q) after := by
  rw [extend, firstTrail_flatMap, firstTrail]
  exact congrArg (ws.findSome? ·) (funext fun w => firstTrail_map_behind w.trail)

theorem firstTrail_inOrder (greedy : Bool) :
    firstTrail (inOrder greedy ws vs) after =
      prefer greedy (firstTrail ws after) (firstTrail vs after) := by
  unfold inOrder prefer
  split <;> exact firstTrail_append

theorem firstTrail_congr (h : ∀ w ∈ ws, after w.stop = other w.stop) :
    firstTrail ws after = firstTrail ws other := by
  induction ws with
  | nil => rfl
  | cons w ws ih =>
    rw [firstTrail_cons, firstTrail_cons, h w List.mem_cons_self,
      ih fun v hv => h v (List.mem_cons_of_mem w hv)]

/-- Where every place can be continued with no more notes, the first way is the first one. -/
theorem firstTrail_all : firstTrail ws (fun _ => some []) = ws.head?.map (·.trail) := by
  cases ws with
  | nil => rfl
  | cons w ws =>
    rw [firstTrail_cons]
    simp

end FirstTrail

end Regex

end UrlRouting
