import UrlRouting.Proofs.Schema.Language

/-!
# The numbers of parameters do not matter

The parameters of a schema are captured under numbers, which depend on how many parameters stand in
front of it. Its ways do not: behind other parameters they are the same ways, in the same order, and
what they say about the parameters is the same, under other numbers
(`UrlRouting.Schema.ways_renumber`). So the first way to the end of a path gives the parameters the
same texts, wherever the schema stands (`UrlRouting.Schema.find?_isWhole_of_saysAlike`).
-/

namespace UrlRouting

open Regex Regex.Ways

namespace Schema

/-- **Two ways that say the same under other numbers**: they end at the same place, and what they
say about so many parameters is the same. -/
structure SaysAlike (n k l : Nat) (w v : Way) : Prop where
  /-- The ends. -/
  stop : w.stop = v.stop
  /-- The texts. -/
  texts : w.trail.texts k n = v.trail.texts l n

section Ways

variable {n m k l : Nat} {w v : Way} {ws vs : List Way} {next further : Position → List Way}
  {names names' more more' : List String} {P : Position} {ctx : CompileContext} {s : Schema}

theorem saysAlike_stay (n k l : Nat) (P : Position) :
    List.Forall₂ (SaysAlike n k l) (stay P) (stay P) := by
  refine .cons ⟨rfl, ?_⟩ .nil
  rw [texts_nil, texts_nil]

/-- **Ways that say the same, continued by ways that say the same**, say the same. -/
theorem saysAlike_extend (h : List.Forall₂ (SaysAlike m k l) ws vs)
    (hnext : ∀ Q, List.Forall₂ (SaysAlike n (k + m) (l + m)) (next Q) (further Q))
    (hws : Owns names k m ws) (hmore : ∀ Q, Owns more (k + m) n (next Q))
    (hvs : Owns names' l m vs) (hmore' : ∀ Q, Owns more' (l + m) n (further Q))
    (hnodup : (names ++ more).Nodup) (hnodup' : (names' ++ more').Nodup) :
    List.Forall₂ (SaysAlike (m + n) k l) (extend ws next) (extend vs further) := by
  induction h with
  | nil => exact .nil
  | @cons w v ws vs hfirst _ ih =>
    have hothers : Owns names k m ws :=
      ⟨fun w hw => hws.notes w (List.mem_cons_of_mem _ hw), hws.subset⟩
    have hothers' : Owns names' l m vs :=
      ⟨fun w hw => hvs.notes w (List.mem_cons_of_mem _ hw), hvs.subset⟩
    refine List.rel_append ?_ (ih hothers hothers')
    rw [List.forall₂_map_left_iff, List.forall₂_map_right_iff, ← hfirst.stop]
    refine (List.forall₂_iff_zip.mpr ⟨(hnext w.stop).length_eq, fun hmem => ?_⟩)
    obtain ⟨hu, ht⟩ := List.of_mem_zip hmem
    have halike := (List.forall₂_iff_zip.mp (hnext w.stop)).2 hmem
    refine ⟨halike.stop, ?_⟩
    change Trail.texts (w.trail ++ _) k (m + n) = Trail.texts (v.trail ++ _) l (m + n)
    rw [hws.texts_behind (hmore w.stop) hnodup List.mem_cons_self hu,
      hvs.texts_behind (hmore' w.stop) hnodup' List.mem_cons_self ht, hfirst.texts, halike.texts]

/-- The ways of one parameter. -/
theorem parameterWays_renumber {p : Parameter} (hk : captureName k ∉ p.innerNames ctx)
    (hl : captureName l ∉ p.innerNames ctx) (P : Position) :
    List.Forall₂ (SaysAlike 1 k l) (p.ways ctx k P) (p.ways ctx l P) := by
  have hcapture : List.Forall₂ (SaysAlike 1 k l) ((p.capture ctx k).ways P)
      ((p.capture ctx l).ways P) := by
    refine List.forall₂_map_left_iff.mpr (List.forall₂_map_right_iff.mpr ?_)
    refine List.forall₂_same.mpr fun w hw => ⟨rfl, ?_⟩
    obtain ⟨x, hreads⟩ := Expr.leads_ways _ P w hw
    exact (texts_around hk hw hreads).trans (texts_around hl hw hreads).symm
  rw [Parameter.ways, Parameter.ways]
  split
  · exact List.rel_append hcapture (saysAlike_stay 1 k l P)
  · exact hcapture

/-- **The ways of a schema are the same under other numbers**, if no name is given twice. -/
theorem ways_renumber (hk : (s.allNames ctx k).Nodup) (hl : (s.allNames ctx l).Nodup)
    (P : Position) :
    List.Forall₂ (SaysAlike s.params.length k l) (s.ways ctx k P) (s.ways ctx l P) := by
  induction s generalizing k l P with
  | done => exact saysAlike_stay 0 k l P
  | literal text rest ih =>
    have hword : List.Forall₂ (SaysAlike 0 k l) ((Expr.word text.toList).ways P)
        ((Expr.word text.toList).ways P) := List.forall₂_same.mpr fun w _ => ⟨rfl, rfl⟩
    have hall := saysAlike_extend hword (ih hk hl) (owns_word _ k P) (owns_ways rest ctx k)
      (owns_word _ l P) (owns_ways rest ctx l) hk hl
    rwa [Nat.zero_add] at hall
  | param p rest ih =>
    obtain ⟨hp, hrest, -⟩ := List.nodup_append.mp hk
    obtain ⟨hp', hrest', -⟩ := List.nodup_append.mp hl
    have hall := saysAlike_extend
      (parameterWays_renumber (List.nodup_cons.mp hp).1 (List.nodup_cons.mp hp').1 P)
      (ih hrest hrest') (owns_parameter p ctx k P) (owns_ways rest ctx (k + 1))
      (owns_parameter p ctx l P) (owns_ways rest ctx (l + 1)) hk hl
    rwa [Nat.add_comm 1] at hall
  | segment inner rest ih1 ih2 =>
    obtain ⟨hinner, hrest, -⟩ := List.nodup_append.mp hk
    obtain ⟨hinner', hrest', -⟩ := List.nodup_append.mp hl
    have hall := saysAlike_extend
      (List.rel_append (ih1 hinner hinner' P) (saysAlike_stay inner.params.length k l P))
      (ih2 hrest hrest') (owns_segment inner ctx k P) (owns_ways rest ctx _)
      (owns_segment inner ctx l P) (owns_ways rest ctx _) hk hl
    rwa [← List.length_append] at hall

/-- **The first way to the end of a path says the same under other numbers**, if there is one. -/
theorem find?_isWhole_of_saysAlike (h : List.Forall₂ (SaysAlike n k l) ws vs) :
    (ws.find? Way.isWhole = none ∧ vs.find? Way.isWhole = none) ∨
      ∃ w v, ws.find? Way.isWhole = some w ∧ vs.find? Way.isWhole = some v ∧ SaysAlike n k l w v := by
  induction h with
  | nil => exact .inl ⟨rfl, rfl⟩
  | @cons w v ws vs hfirst _ ih =>
    have hsame : v.isWhole = w.isWhole := by rw [Way.isWhole, Way.isWhole, hfirst.stop]
    rw [List.find?_cons, List.find?_cons, hsame]
    cases w.isWhole with
    | true => exact .inr ⟨w, v, rfl, rfl, hfirst⟩
    | false => exact ih

/-- A literal at the front hides what stands in front of it. -/
theorem ways_literal_congr {head : String} (hhead : head ≠ "") {P Q : Position}
    (hrest : P.rest = Q.rest) (rest : Schema) (k : Nat) :
    (literal head rest).ways ctx k P = (literal head rest).ways ctx k Q := by
  have hskip : P.skip head.toList = Q.skip head.toList := by
    cases hlast : head.toList.getLast? with
    | none =>
      have hnil : head.toList = [] := List.getLast?_eq_none_iff.mp hlast
      exact absurd (String.toList_injective (hnil.trans rfl)) hhead
    | some c => rw [Position.skip, Position.skip, hlast, hrest, Option.some_or, Option.some_or]
  have hword : (Expr.word head.toList).ways P = (Expr.word head.toList).ways Q := by
    rw [Expr.ways, Expr.ways, hrest, hskip]
  rw [ways, ways, hword]

end Ways

end Schema

end UrlRouting
