import MSV.Lib.Explore

/-!
# Worklists

A search with a list of nodes it is still to look at. It takes the first node and puts its
successors in front of the others, or it leaves the node out, because the node does not matter any
more or because one that covers it has been seen. Roots come in at any time.

When the list is empty, everything that is reached from a root and matters is covered by what has
been seen (`covered_of_reach`), and what has been seen is reached from a root (`traced_of_steps`).
-/

namespace MSV

/-- The state of a search. -/
structure Worklist (C : Type*) where
  todo : List C
  seen : List C
  /-- The roots that came in so far. -/
  roots : List C

namespace Worklist

variable {C : Type*} (succ : C → List C) (Live : C → Prop) (Covers : C → C → Prop)

inductive Step : Worklist C → Worklist C → Prop
  | visit {c : C} {todo seen roots : List C} (h : Live c) :
      Step ⟨c :: todo, seen, roots⟩ ⟨succ c ++ todo, c :: seen, roots⟩
  | skip {c : C} {todo seen roots : List C} (h : Live c → ∃ d ∈ seen, Covers d c) :
      Step ⟨c :: todo, seen, roots⟩ ⟨todo, seen, roots⟩
  | root (c : C) {todo seen roots : List C} :
      Step ⟨todo, seen, roots⟩ ⟨c :: todo, seen, c :: roots⟩

/-- Reached along successors. -/
def Reach : C → C → Prop := Relation.ReflTransGen fun a b => b ∈ succ a

/-- What it means for one node to cover another. `Good` holds of the nodes on the way from a
root. -/
structure Covering (Good : C → Prop) : Prop where
  refl : ∀ c, Covers c c
  trans : ∀ {a b c}, Covers a b → Covers b c → Covers a c
  live : ∀ {d c}, Covers d c → Live c → Live d
  back : ∀ {c c'}, c' ∈ succ c → Live c' → Live c
  good : ∀ {c c'}, Good c → c' ∈ succ c → Good c'
  answer : ∀ {d c c'}, Good c → Covers d c → c' ∈ succ c → ∃ d' ∈ succ d, Covers d' c'

variable {succ Live Covers}

/-! ## What has been seen is reached -/

/-- Everything that is not from before comes from a root. -/
structure Traced (succ : C → List C) (Live : C → Prop) (before : List C) (w : Worklist C) :
    Prop where
  todo : ∀ c ∈ w.todo, ∃ r ∈ w.roots, Reach succ r c
  seen : ∀ c ∈ w.seen, c ∈ before ∨ Live c ∧ ∃ r ∈ w.roots, Reach succ r c

theorem Traced.step {before : List C} {w w' : Worklist C} (h : Traced succ Live before w)
    (hstep : Step succ Live Covers w w') : Traced succ Live before w' := by
  cases hstep with
  | @visit c todo seen roots hlive =>
      obtain ⟨r, hr, hreach⟩ := h.todo c List.mem_cons_self
      refine ⟨fun d hd => ?_, fun d hd => ?_⟩
      · obtain hd | hd := List.mem_append.mp hd
        · exact ⟨r, hr, hreach.tail hd⟩
        · exact h.todo d (List.mem_cons_of_mem c hd)
      · obtain rfl | hd := List.mem_cons.mp hd
        · exact .inr ⟨hlive, r, hr, hreach⟩
        · exact h.seen d hd
  | @skip c todo seen roots _ => exact ⟨fun d hd => h.todo d (List.mem_cons_of_mem c hd), h.seen⟩
  | @root c todo seen roots =>
      have hmore : ∀ d, (∃ r ∈ roots, Reach succ r d) → ∃ r ∈ c :: roots, Reach succ r d :=
        fun d ⟨r, hr, hreach⟩ => ⟨r, List.mem_cons_of_mem c hr, hreach⟩
      refine ⟨fun d hd => ?_, fun d hd => (h.seen d hd).imp_right fun hnew => ?_⟩
      · obtain rfl | hd := List.mem_cons.mp hd
        · exact ⟨d, List.mem_cons_self, .refl⟩
        · exact hmore d (h.todo d hd)
      · exact ⟨hnew.1, hmore d hnew.2⟩

/-- **What has been seen is reached from a root.** -/
theorem traced_of_steps {before : List C} {w : Worklist C}
    (h : Relation.ReflTransGen (Step succ Live Covers) ⟨[], before, []⟩ w) :
    Traced succ Live before w := by
  induction h with
  | refl => exact ⟨(fun c hc => nomatch hc), fun c hc => .inl hc⟩
  | tail _ hstep ih => exact ih.step hstep

/-! ## What is reached has been seen -/

/-- Covered by something that has been seen or is on the list. -/
def Owed (Covers : C → C → Prop) (w : Worklist C) (c : C) : Prop :=
  ∃ d, (d ∈ w.todo ∨ d ∈ w.seen) ∧ Covers d c

/-- The live successors of what has been seen are covered by it. -/
def Closed (succ : C → List C) (Live : C → Prop) (Covers : C → C → Prop) (seen : List C) : Prop :=
  ∀ c ∈ seen, ∀ c' ∈ succ c, Live c' → ∃ d ∈ seen, Covers d c'

/-- Nothing is lost. -/
structure Complete (succ : C → List C) (Live : C → Prop) (Covers : C → C → Prop) (w : Worklist C) :
    Prop where
  seen : ∀ c ∈ w.seen, ∀ c' ∈ succ c, Live c' → w.Owed Covers c'
  roots : ∀ r ∈ w.roots, Live r → w.Owed Covers r

section

variable {Good : C → Prop} (hcov : Covering succ Live Covers Good)

include hcov

/-- What is owed stays owed, as long as it matters. -/
theorem Owed.step {w w' : Worklist C} {c : C} (h : w.Owed Covers c) (hlive : Live c)
    (hstep : Step succ Live Covers w w') : w'.Owed Covers c := by
  obtain ⟨d, hd, hdc⟩ := h
  cases hstep with
  | visit _ =>
      refine ⟨d, ?_, hdc⟩
      obtain hd | hd := hd
      · obtain rfl | hd := List.mem_cons.mp hd
        · exact .inr List.mem_cons_self
        · exact .inl (List.mem_append_right _ hd)
      · exact .inr (List.mem_cons_of_mem _ hd)
  | skip hskip =>
      obtain hd | hd := hd
      · obtain rfl | hd := List.mem_cons.mp hd
        · obtain ⟨e, he, hed⟩ := hskip (hcov.live hdc hlive)
          exact ⟨e, .inr he, hcov.trans hed hdc⟩
        · exact ⟨d, .inl hd, hdc⟩
      · exact ⟨d, .inr hd, hdc⟩
  | root r => exact ⟨d, hd.imp_left fun hd => List.mem_cons_of_mem r hd, hdc⟩

theorem Complete.step {w w' : Worklist C} (h : Complete succ Live Covers w)
    (hstep : Step succ Live Covers w w') : Complete succ Live Covers w' := by
  have hkeep : ∀ c, Live c → w.Owed Covers c → w'.Owed Covers c :=
    fun c hlive howed => howed.step hcov hlive hstep
  cases hstep with
  | visit _ =>
      refine ⟨fun c hc c' hc' hlive => ?_, fun r hr hlive => hkeep r hlive (h.roots r hr hlive)⟩
      obtain rfl | hc := List.mem_cons.mp hc
      · exact ⟨c', .inl (List.mem_append_left _ hc'), hcov.refl c'⟩
      · exact hkeep c' hlive (h.seen c hc c' hc' hlive)
  | skip _ =>
      exact ⟨fun c hc c' hc' hlive => hkeep c' hlive (h.seen c hc c' hc' hlive),
        fun r hr hlive => hkeep r hlive (h.roots r hr hlive)⟩
  | root r =>
      refine ⟨fun c hc c' hc' hlive => hkeep c' hlive (h.seen c hc c' hc' hlive),
        fun r' hr hlive => ?_⟩
      obtain rfl | hr := List.mem_cons.mp hr
      · exact ⟨r', .inl List.mem_cons_self, hcov.refl r'⟩
      · exact hkeep r' hlive (h.roots r' hr hlive)

theorem complete_of_steps {before : List C} {w : Worklist C}
    (hbefore : Closed succ Live Covers before)
    (h : Relation.ReflTransGen (Step succ Live Covers) ⟨[], before, []⟩ w) :
    Complete succ Live Covers w := by
  induction h with
  | refl =>
      refine ⟨fun c hc c' hc' hlive => ?_, fun r hr => nomatch hr⟩
      obtain ⟨d, hd, hdc⟩ := hbefore c hc c' hc' hlive
      exact ⟨d, .inr hd, hdc⟩
  | tail _ hstep ih => exact ih.step hcov hstep

omit hcov in
theorem Owed.seen {w : Worklist C} {c : C} (hend : w.todo = []) (h : w.Owed Covers c) :
    ∃ d ∈ w.seen, Covers d c := by
  obtain ⟨d, hd | hd, hdc⟩ := h
  · rw [hend] at hd
    cases hd
  · exact ⟨d, hd, hdc⟩

omit hcov in
/-- With nothing left to do, what has been seen is closed. -/
theorem Complete.closed {w : Worklist C} (h : Complete succ Live Covers w) (hend : w.todo = []) :
    Closed succ Live Covers w.seen :=
  fun c hc c' hc' hlive => (h.seen c hc c' hc' hlive).seen hend

/-- **What is reached from a root and matters is covered.** -/
theorem covered_of_reach {w : Worklist C} (h : Complete succ Live Covers w) (hend : w.todo = [])
    {r c : C} (hr : r ∈ w.roots) (hgood : Good r) (hreach : Reach succ r c) (hlive : Live c) :
    ∃ d ∈ w.seen, Covers d c :=
  dominated_of_reach Covers Good Live (fun d => d ∈ w.seen)
    (fun _ _ hg hs => hcov.good hg hs)
    (fun _ _ hs hl => hcov.back hs hl)
    (fun _ _ hdc hl => hcov.live hdc hl)
    (fun _ _ _ hab hbc => hcov.trans hab hbc)
    (fun _ _ _ hg hdc hs => hcov.answer hg hdc hs)
    (fun d d' hd hs hl => h.closed hend d hd d' hs hl)
    hgood (fun hl => (h.roots r hr hl).seen hend) hreach hlive

end

end Worklist

end MSV
