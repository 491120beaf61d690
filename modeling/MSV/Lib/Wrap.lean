import Mathlib.Data.List.Basic

/-!
# Neighbours in a list, and elements put around others

`next a l` is the element behind the first `a` of a list. Putting a pair of new elements around some
of the old ones (`wrap`) changes the neighbours of an element in a way that depends on that element
and its neighbour only, which is what `next_wrap` and `prev_wrap` say.
-/

namespace MSV

variable {α : Type*} {a : α} {l : List α} {m : α → Option (α × α)}

/-! ## Elements put around others -/

/-- The element, with the pair `m` gives for it around it. -/
def wrap (m : α → Option (α × α)) (x : α) : List α :=
  match m x with
  | some (b, e) => [b, x, e]
  | none => [x]

/-- What comes first in the place of an element. -/
def wrapHead (m : α → Option (α × α)) (x : α) : α := ((m x).map Prod.fst).getD x

theorem wrap_none {x : α} (h : m x = none) : wrap m x = [x] := by
  rw [wrap, h]

theorem wrap_some {x b e : α} (h : m x = some (b, e)) : wrap m x = [b, x, e] := by
  rw [wrap, h]

theorem head?_wrap (l : List α) : (l.flatMap (wrap m)).head? = l.head?.map (wrapHead m) := by
  cases l with
  | nil => rfl
  | cons x l =>
      rw [List.flatMap_cons, List.head?_cons, Option.map_some, wrapHead]
      cases hx : m x with
      | none => rw [wrap_none hx]; rfl
      | some p => rw [wrap_some (b := p.1) (e := p.2) hx]; rfl

/-- Read backwards, the pairs are swapped. -/
theorem reverse_wrap (l : List α) :
    (l.flatMap (wrap m)).reverse = l.reverse.flatMap (wrap fun x => (m x).map Prod.swap) := by
  rw [List.reverse_flatMap]
  refine List.flatMap_congr fun x _ => ?_
  show (wrap m x).reverse = _
  cases h : m x with
  | none => rw [wrap_none h, wrap_none (by rw [h]; rfl)]; rfl
  | some p =>
      rw [wrap_some (b := p.1) (e := p.2) h, wrap_some (b := p.2) (e := p.1) (by rw [h]; rfl)]
      rfl

/-- The new elements are different from `a`. -/
def Avoids (m : α → Option (α × α)) (a : α) : Prop := ∀ x b e, m x = some (b, e) → b ≠ a ∧ e ≠ a

theorem Avoids.swap (hm : Avoids m a) : Avoids (fun x => (m x).map Prod.swap) a := by
  intro x b e h
  obtain ⟨p, hp, hs⟩ := Option.map_eq_some_iff.mp h
  obtain ⟨rfl, rfl⟩ : p.2 = b ∧ p.1 = e := Prod.mk.inj hs
  exact (hm x p.1 p.2 hp).symm

theorem mem_wrap (hm : Avoids m a) : a ∈ l.flatMap (wrap m) ↔ a ∈ l := by
  rw [List.mem_flatMap]
  constructor
  · rintro ⟨x, hx, ha⟩
    cases hmx : m x with
    | none =>
        rw [wrap_none hmx, List.mem_singleton] at ha
        rwa [ha]
    | some p =>
        obtain ⟨hb, he⟩ := hm x p.1 p.2 hmx
        rw [wrap_some (b := p.1) (e := p.2) hmx] at ha
        simp only [List.mem_cons, List.not_mem_nil, or_false] at ha
        rcases ha with ha | ha | ha
        · exact (hb ha.symm).elim
        · rwa [ha]
        · exact (he ha.symm).elim
  · intro ha
    refine ⟨a, ha, ?_⟩
    unfold wrap
    split <;> simp

/-- Putting pairs around elements twice, where the second time leaves the first alone. -/
theorem wrap_wrap {m' : α → Option (α × α)}
    (hnew : ∀ x b e, m x = some (b, e) → m' b = none ∧ m' x = none ∧ m' e = none) (l : List α) :
    (l.flatMap (wrap m)).flatMap (wrap m') = l.flatMap (wrap fun x => (m x).or (m' x)) := by
  rw [List.flatMap_assoc]
  refine List.flatMap_congr fun x _ => ?_
  cases h : m x with
  | none =>
      rw [wrap_none h, List.flatMap_singleton, wrap, wrap, h]
      rfl
  | some p =>
      obtain ⟨hb, hx, he⟩ := hnew x p.1 p.2 h
      rw [wrap_some (b := p.1) (e := p.2) h, wrap_some (b := p.1) (e := p.2) (by rw [h]; rfl)]
      simp [wrap_none hb, wrap_none hx, wrap_none he]

/-- Deleting elements, but neither new ones nor those in their middle. -/
theorem filter_wrap {p : α → Bool}
    (hp : ∀ x b e, m x = some (b, e) → p b = true ∧ p x = true ∧ p e = true) (l : List α) :
    (l.flatMap (wrap m)).filter p = (l.filter p).flatMap (wrap m) := by
  induction l with
  | nil => rfl
  | cons x l ih =>
      rw [List.flatMap_cons, List.filter_append, ih]
      cases h : m x with
      | none =>
          rw [wrap_none h]
          cases hx : p x with
          | false =>
              rw [List.filter_cons_of_neg (by simp [hx]), List.filter_cons_of_neg (by simp [hx])]
              rfl
          | true =>
              rw [List.filter_cons_of_pos hx, List.filter_cons_of_pos hx, List.flatMap_cons,
                wrap_none h]
              rfl
      | some q =>
          obtain ⟨hb, hx, he⟩ := hp x q.1 q.2 h
          rw [List.filter_cons_of_pos hx, List.flatMap_cons, wrap_some (b := q.1) (e := q.2) h]
          simp [hb, hx, he]

/-- Deleting the new elements again. -/
theorem filter_wrap_new {p : α → Bool}
    (hp : ∀ x b e, m x = some (b, e) → p b = false ∧ p x = true ∧ p e = false) (l : List α) :
    (l.flatMap (wrap m)).filter p = l.filter p := by
  induction l with
  | nil => rfl
  | cons x l ih =>
      rw [List.flatMap_cons, List.filter_append, ih]
      cases h : m x with
      | none => rw [wrap_none h, ← List.filter_append]; rfl
      | some q =>
          obtain ⟨hb, hx, he⟩ := hp x q.1 q.2 h
          rw [List.filter_cons_of_pos hx, wrap_some (b := q.1) (e := q.2) h]
          simp [hb, hx, he]

/-! ## Neighbours -/

variable [DecidableEq α]

/-- The element behind the first `a`. -/
def next (a : α) : List α → Option α
  | [] => none
  | x :: l => if x = a then l.head? else next a l

/-- The element before the last `a`. -/
def prev (a : α) (l : List α) : Option α := next a l.reverse

/-- An element occurs as often as before. -/
theorem count_wrap (hm : Avoids m a) (l : List α) : (l.flatMap (wrap m)).count a = l.count a := by
  induction l with
  | nil => rfl
  | cons x l ih =>
      rw [List.flatMap_cons, List.count_append, ih, List.count_cons]
      cases hx : m x with
      | none => rw [wrap_none hx, List.count_singleton, Nat.add_comm]
      | some p =>
          obtain ⟨hb, he⟩ := hm x p.1 p.2 hx
          rw [wrap_some (b := p.1) (e := p.2) hx, List.count_cons, List.count_cons,
            List.count_singleton]
          simp [hb, he, Nat.add_comm]

theorem next_of_append {l' : List α} (h : a ∉ l) : next a (l ++ a :: l') = l'.head? := by
  induction l with
  | nil => exact if_pos rfl
  | cons x l ih =>
      rw [List.mem_cons, not_or] at h
      rw [List.cons_append, next, if_neg (Ne.symm h.1), ih h.2]

theorem prev_of_append {l' : List α} (h : a ∉ l') : prev a (l ++ a :: l') = l.getLast? := by
  rw [prev, List.reverse_append, List.reverse_cons, List.append_assoc, List.singleton_append,
    next_of_append (by simpa using h), List.head?_reverse]

/-- The neighbour behind an element that is wrapped is the new one. -/
theorem next_wrap_some (hm : Avoids m a) {b e : α} (h : m a = some (b, e)) (ha : a ∈ l) :
    next a (l.flatMap (wrap m)) = some e := by
  induction l with
  | nil => cases ha
  | cons x l ih =>
      rw [List.flatMap_cons]
      by_cases hx : x = a
      · subst hx
        rw [wrap_some h, List.cons_append, next, if_neg (hm x b e h).1, List.cons_append, next,
          if_pos rfl]
        rfl
      · have hl : a ∈ l := (List.mem_cons.mp ha).resolve_left (Ne.symm hx)
        cases hmx : m x with
        | none =>
            rw [wrap_none hmx, List.cons_append, next, if_neg hx]
            exact ih hl
        | some p =>
            obtain ⟨hb, he⟩ := hm x p.1 p.2 hmx
            rw [wrap_some (b := p.1) (e := p.2) hmx, List.cons_append, next, if_neg hb,
              List.cons_append, next, if_neg hx, List.cons_append, next, if_neg he]
            exact ih hl

/-- Behind an element that is not wrapped stands what comes first in its neighbour's place. -/
theorem next_wrap_none (hm : Avoids m a) (h : m a = none) :
    next a (l.flatMap (wrap m)) = (next a l).map (wrapHead m) := by
  induction l with
  | nil => rfl
  | cons x l ih =>
      rw [List.flatMap_cons]
      by_cases hx : x = a
      · subst hx
        rw [wrap_none h, List.cons_append, next, if_pos rfl, next, if_pos rfl, List.nil_append]
        exact head?_wrap l
      · rw [next, if_neg hx, ← ih]
        cases hmx : m x with
        | none =>
            rw [wrap_none hmx, List.cons_append, next, if_neg hx]
            rfl
        | some p =>
            obtain ⟨hb, he⟩ := hm x p.1 p.2 hmx
            rw [wrap_some (b := p.1) (e := p.2) hmx, List.cons_append, next, if_neg hb,
              List.cons_append, next, if_neg hx, List.cons_append, next, if_neg he]
            rfl

theorem prev_wrap_some (hm : Avoids m a) {b e : α} (h : m a = some (b, e)) (ha : a ∈ l) :
    prev a (l.flatMap (wrap m)) = some b := by
  rw [prev, reverse_wrap]
  exact next_wrap_some hm.swap (by rw [h]; rfl) (List.mem_reverse.mpr ha)

theorem prev_wrap_none (hm : Avoids m a) (h : m a = none) :
    prev a (l.flatMap (wrap m)) =
      (prev a l).map fun x => ((m x).map Prod.snd).getD x := by
  rw [prev, reverse_wrap, next_wrap_none hm.swap (by rw [h]; rfl)]
  congr 1
  funext x
  rw [wrapHead]
  cases m x <;> rfl

end MSV
