import Mathlib.Data.List.Dedup
import MSV.SLH.SplitEdgeProof

/-!
# The predicate state says whether a branch was mispredicted

`runOnMachineFunction` brings the PHIs into canonical form, collects the conditions of the blocks
and puts conditional moves on the edges behind their branches, one edge at a time. The proof goes
along with the loops: over the branches of a block from the last to the first, where the edges that
are done lead to blocks of their own or to targets no other edge of the block has
(`CondsTraced`), and over the blocks (`CFGTraced`). In between, `edgeTraced` does one edge.

**Theorem (`traceCFG_runs_iff`).** The speculative runs of the traced function between the blocks
of the function as it was given are that function's runs, where the predicate state becomes all
ones when an exit contradicts the flags: a branch whose condition does not hold, or the other way
out when one of the conditions holds.

**Theorem (`traceCFG_architectural`).** As long as the exits follow the flags, nothing changes.

**Theorem (`traceCFG_state`).** With one conditional branch a block, the state is zero exactly if
no branch was mispredicted. With several, a branch is checked against its own condition only, and
not against those of the branches before it.
-/

namespace MSV.SLH

/-! ## The codes of a block -/

@[simp] theorem codes_jcc (c : CondCode) (t : Nat) (terms : List Terminator) :
    codes (.jcc c t :: terms) = c :: codes terms := rfl

theorem getElem?_codes (terms : List Terminator) (i : Nat) :
    (codes terms)[i]? = (conds terms)[i]?.bind Terminator.cond? := by
  induction terms generalizing i with
  | nil => simp [codes, conds]
  | cons t terms ih =>
    cases t with
    | jcc c x =>
      cases i with
      | zero => rfl
      | succ i => exact ih i
    | _ => simp [codes, conds, Terminator.isJcc]

theorem length_codes (terms : List Terminator) :
    (codes terms).length = (conds terms).length := by
  induction terms with
  | nil => simp [codes, conds]
  | cons t terms ih =>
    cases t with
    | jcc c x => simp [ih]
    | _ => simp [codes, conds, Terminator.isJcc]

theorem codes_congr {terms terms' : List Terminator}
    (h : (conds terms).map Terminator.cond? = (conds terms').map Terminator.cond?) :
    codes terms = codes terms' := by
  have hid (l : List Terminator) :
      l.filterMap Terminator.cond? = (l.map Terminator.cond?).filterMap id := by
    simp [List.filterMap_map]
  rw [codes, codes, hid, hid, h]

/-- A conditional branch in front of the barrier, as the pass finds it. -/
theorem getElem?_of_codes {terms : List Terminator} {i : Nat} {c : CondCode}
    (h : (codes terms)[i]? = some c) :
    ∃ t, terms[i]? = some (.jcc c t) ∧ (conds terms)[i]? = some (.jcc c t) := by
  rw [getElem?_codes, Option.bind_eq_some_iff] at h
  obtain ⟨x, hx, hc⟩ := h
  have hprefix : terms[i]? = some x := by
    obtain ⟨rest, hrest⟩ := List.takeWhile_prefix (l := terms) Terminator.isJcc
    rw [← hrest, List.getElem?_append_left]
    · exact hx
    · exact (List.getElem?_eq_some_iff.mp hx).1
  cases x <;> simp_all [Terminator.cond?]

/-! ## The branches of one block -/

namespace MachineCFG

/-- A block whose edges can be traced: its branches lead to blocks of the function itself, it can
be left without taking one of them, and its indirect branch does not share targets with them. -/
structure Traceable (F : MachineCFG) (b : Nat) : Prop where
  mem : b ∈ F.layout
  old : (F.mbb b).inserted = false
  old_cond : ∀ i t, F.target b (.cond i) = some t → (F.mbb t).inserted = false
  old_uncond : ∀ t, F.target b .uncond = some t → (F.mbb t).inserted = false
  falls : barrier (F.mbb b).terms = none → (F.target b .uncond).isSome
  disjoint : ∀ i t x, F.target b (.cond i) = some t → F.target b (.indirect x) ≠ some t

/-- The conditional moves behind the branches from position `j` on. -/
def condChecks (cs : List CondCode) (j : Nat) : Exit → List CondCode
  | .cond i =>
      if j ≤ i then (cs[i]?.map CondCode.GetOppositeBranchCondition).toList else []
  | _ => []

/-- The edges that are not traced yet. -/
def pendingTargets (F : MachineCFG) (b j : Nat) : List Nat :=
  (F.target b .uncond).toList ++ (List.range j).filterMap fun i => F.target b (.cond i)

/-- The state of the loop over the conditional branches, those from position `j` on being done. -/
structure CondsTraced (F : MachineCFG) (b j : Nat) (L : CondLoop) : Prop where
  consistent : L.cfg.Consistent
  mem : ∀ c ∈ F.layout, c ∈ L.cfg.layout
  inserted : ∀ c ∈ F.layout, (L.cfg.mbb c).inserted = (F.mbb c).inserted
  new : ∀ c ∈ L.cfg.layout, c ∉ F.layout → (L.cfg.mbb c).inserted = true
  arrive : ∀ c ∈ F.layout, ∀ e, L.cfg.arrive c e =
    if c = b then (F.arrive b e).map (Arrival.check (condChecks (codes (F.mbb b).terms) j e))
    else F.arrive c e
  terms : ∀ c ∈ F.layout, c ≠ b → (L.cfg.mbb c).terms = (F.mbb c).terms
  target : ∀ c ∈ F.layout, ∀ e, (c = b → ∀ i, j ≤ i → e ≠ .cond i) →
    L.cfg.target c e = F.target c e
  apart : ∀ i t, j ≤ i → t ∈ F.layout → L.cfg.target b (.cond i) = some t →
    t ∉ F.pendingTargets b j
  counts : ∀ t, L.SuccCounts t = (F.pendingTargets b j).count t
  codes : codes (L.cfg.mbb b).terms = codes (F.mbb b).terms
  uncond : L.UncondBr = uncondPos (L.cfg.mbb b).terms
  falls : barrier (L.cfg.mbb b).terms = none → (L.cfg.target b .uncond).isSome
  seq : L.UncondCodeSeq = ((MSV.SLH.codes (F.mbb b).terms).drop j).reverse

variable {F : MachineCFG} {b : Nat}

theorem target_cond (i : Nat) (h : i < (codes (F.mbb b).terms).length) :
    ∃ c t, (codes (F.mbb b).terms)[i]? = some c ∧ (F.mbb b).terms[i]? = some (.jcc c t) ∧
      F.target b (.cond i) = some t := by
  obtain ⟨t, ht, hconds⟩ := getElem?_of_codes (List.getElem?_eq_getElem h)
  exact ⟨_, t, List.getElem?_eq_getElem h, ht, by simp [target, hconds, Terminator.getMBB]⟩

theorem target_cond_none {i : Nat} (h : (codes (F.mbb b).terms).length ≤ i) :
    F.target b (.cond i) = none := by
  rw [length_codes] at h
  simp [target, List.getElem?_eq_none h]

theorem mem_pendingTargets {j t : Nat} : t ∈ F.pendingTargets b j ↔
    F.target b .uncond = some t ∨ ∃ i < j, F.target b (.cond i) = some t := by
  simp [pendingTargets, eq_comm]

theorem pendingTargets_succ {j t : Nat} (h : F.target b (.cond j) = some t) :
    F.pendingTargets b (j + 1) = F.pendingTargets b j ++ [t] := by
  simp [pendingTargets, List.range_succ, h]

/-- The next branch can be traced. -/
theorem CondsTraced.traces {j s : Nat} {L : CondLoop} (hF : F.Consistent) (hb : F.Traceable b)
    (h : CondsTraced F b (j + 1) L) (hs : F.target b (.cond j) = some s) :
    L.cfg.Traces b s (.cond j) (L.SuccCounts s) (some j) L.UncondBr := by
  have hsmem := hF.target_mem hb.mem hs
  have hsame (e : Exit) (he : ∀ i, j + 1 ≤ i → e ≠ .cond i) : L.cfg.target b e = F.target b e :=
    h.target b hb.mem e fun _ => he
  have hpad := hF.not_pad b hb.mem (.cond j) s (by simp) (by simp) hs
  refine ⟨h.mem b hb.mem, (h.inserted b hb.mem).trans hb.old, ?_,
    (h.inserted s hsmem).trans (hb.old_cond j s hs), h.uncond, .inl ⟨j, rfl, rfl⟩, h.falls, ?_⟩
  · rw [hsame _ fun i hi h' => by simp at h'; omega, hs]
  · intro hk e ht
    have hcount : ((F.pendingTargets b j).count s : Int) = 0 := by
      rw [h.counts, pendingTargets_succ hs] at hk
      rw [List.count_append, List.count_singleton_self] at hk
      omega
    have hnot : s ∉ F.pendingTargets b j := by
      rw [← List.count_eq_zero]
      exact_mod_cast hcount
    rw [mem_pendingTargets, not_or] at hnot
    cases e with
    | cond i =>
      obtain hi | rfl | hi := Nat.lt_trichotomy i j
      · rw [hsame _ fun i' hi' h' => by simp at h'; omega] at ht
        exact absurd ⟨i, hi, ht⟩ hnot.2
      · rfl
      · have hapart := h.apart i s hi hsmem ht
        rw [mem_pendingTargets, not_or] at hapart
        exact absurd ⟨j, by omega, hs⟩ hapart.2
    | uncond =>
      rw [hsame _ (by simp)] at ht
      exact absurd ht hnot.1
    | indirect x =>
      rw [hsame _ (by simp)] at ht
      exact absurd ht (hb.disjoint j s x hs)
    | unwind x =>
      rw [hsame _ (by simp), MachineCFG.target] at ht
      split_ifs at ht with hx
      obtain rfl := Option.some.inj ht
      simp [hpad] at hx

/-- The branch that is traced next is as it was given. -/
theorem CondsTraced.branch {j : Nat} {L : CondLoop} (hb : F.Traceable b)
    (h : CondsTraced F b (j + 1) L) (hj : j < (MSV.SLH.codes (F.mbb b).terms).length) :
    ∃ c s, (MSV.SLH.codes (F.mbb b).terms)[j]? = some c ∧ F.target b (.cond j) = some s ∧
      (L.cfg.mbb b).terms[j]? = some (.jcc c s) := by
  obtain ⟨c, s, hc, -, hs⟩ := target_cond j hj
  obtain ⟨c', s', hc', hterm, ht⟩ := target_cond (F := L.cfg) j (by rw [h.codes]; exact hj)
  rw [h.codes, hc] at hc'
  rw [h.target b hb.mem _ fun _ i hi h' => by simp at h'; omega, hs] at ht
  exact ⟨c, s, hc, hs, by rw [hterm, Option.some.inj hc', Option.some.inj ht]⟩

/-- The body of the loop over the conditional branches. -/
theorem CondsTraced.step {j : Nat} {L : CondLoop} (hF : F.Consistent) (hb : F.Traceable b)
    (h : CondsTraced F b (j + 1) L) (hj : j < (MSV.SLH.codes (F.mbb b).terms).length) :
    CondsTraced F b j (traceCondBr b L j) := by
  obtain ⟨c, s, hc, hs, hL⟩ := h.branch hb hj
  have hsmem := hF.target_mem hb.mem hs
  have hedge := edgeTraced h.consistent (h.traces hF hb hs) [c.GetOppositeBranchCondition]
  have htarget {x : Nat} (hx : x ∈ F.layout) {e : Exit} (he : x = b → ∀ i, j ≤ i → e ≠ .cond i) :
      (traceCondBr b L j).cfg.target x e = F.target x e := by
    simp only [traceCondBr, hL]
    rw [hedge.target x (h.mem x hx) e (by rintro ⟨rfl, rfl⟩; exact he rfl j le_rfl rfl),
      h.target x hx e fun hxb i hi => he hxb i (by omega)]
  refine ⟨?_, ?_, ?_, ?_, ?_, ?_, ?_, ?_, ?_, ?_, ?_, ?_, ?_⟩
  · simp only [traceCondBr, hL]
    exact hedge.consistent
  · intro x hx
    simp only [traceCondBr, hL]
    exact hedge.mem x (h.mem x hx)
  · intro x hx
    simp only [traceCondBr, hL]
    rw [hedge.inserted x (h.mem x hx), h.inserted x hx]
  · intro x hx hnew
    simp only [traceCondBr, hL] at hx ⊢
    by_cases hxL : x ∈ L.cfg.layout
    · rw [hedge.inserted x hxL]
      exact h.new x hxL hnew
    · exact hedge.new x hx hxL
  · intro x hx e
    simp only [traceCondBr, hL]
    rw [hedge.arrive x (h.mem x hx), h.arrive x hx]
    by_cases hxb : x = b
    · subst hxb
      cases e with
      | cond i =>
        by_cases hij : i = j
        · subst hij
          have hnot : ¬i + 1 ≤ i := by omega
          simp [condChecks, hc, hnot, Function.comp_def, Arrival.check]
          rfl
        · have hle : (j + 1 ≤ i) ↔ j ≤ i := by omega
          simp [condChecks, hij, hle]
      | _ => simp [condChecks]
    · simp [hxb]
  · intro x hx hxb
    simp only [traceCondBr, hL]
    rw [hedge.terms x (h.mem x hx) hxb, h.terms x hx hxb]
  · intro x hx e he
    exact htarget hx he
  · intro i t hi htmem ht hpend
    by_cases hij : i = j
    · subst hij
      simp only [traceCondBr, hL] at ht
      obtain ⟨rfl, hk⟩ | hnot := hedge.edge t ht
      · rw [h.counts, pendingTargets_succ hs] at hk
        rw [List.count_append, List.count_singleton_self] at hk
        have := List.count_pos_iff.mpr hpend
        omega
      · exact hnot (h.mem t htmem)
    · simp only [traceCondBr, hL] at ht
      rw [hedge.target b (h.mem b hb.mem) _ (by simp [hij])] at ht
      refine h.apart i t (by omega) htmem ht ?_
      rw [pendingTargets_succ hs]
      exact List.mem_append_left _ hpend
  · intro t
    simp only [traceCondBr, hL, Function.update_apply]
    have hcounts := h.counts t
    rw [pendingTargets_succ hs, List.count_append] at hcounts
    by_cases hts : t = s
    · subst hts
      rw [if_pos rfl, hcounts]
      simp
    · rw [if_neg hts, hcounts]
      simp [Ne.symm hts]
  · simp only [traceCondBr, hL]
    rw [codes_congr hedge.conds, h.codes]
  · simp only [traceCondBr, hL]
    exact hedge.uncond
  · simp only [traceCondBr, hL]
    exact hedge.falls
  · simp only [traceCondBr, hL, h.seq]
    have hdrop := List.drop_eq_getElem_cons hj
    rw [List.getElem?_eq_getElem hj] at hc
    rw [hdrop, List.reverse_cons, Option.some.inj hc]

/-- The loop over the conditional branches, from the last to the first. -/
theorem CondsTraced.loop {j : Nat} {L : CondLoop} (hF : F.Consistent) (hb : F.Traceable b)
    (h : CondsTraced F b j L) (hj : j ≤ (MSV.SLH.codes (F.mbb b).terms).length) :
    CondsTraced F b 0 ((List.range j).reverse.foldl (traceCondBr b) L) := by
  induction j generalizing L with
  | zero => simpa using h
  | succ j ih =>
    rw [List.range_succ, List.reverse_append, List.reverse_singleton, List.singleton_append,
      List.foldl_cons]
    exact ih (h.step hF hb hj) (by omega)

/-! ## One block -/

/-- The conditional moves behind the exits of a block. -/
def exitChecks (cs : List CondCode) : Exit → List CondCode
  | .cond i => (cs[i]?.map CondCode.GetOppositeBranchCondition).toList
  | .uncond => sortCodes cs.reverse
  | _ => []

/-- What `traceBlock` does to the function. -/
structure BlockTraced (F G : MachineCFG) (b : Nat) : Prop where
  consistent : G.Consistent
  mem : ∀ c ∈ F.layout, c ∈ G.layout
  inserted : ∀ c ∈ F.layout, (G.mbb c).inserted = (F.mbb c).inserted
  new : ∀ c ∈ G.layout, c ∉ F.layout → (G.mbb c).inserted = true
  arrive : ∀ c ∈ F.layout, ∀ e, G.arrive c e =
    if c = b then (F.arrive b e).map (Arrival.check (exitChecks (codes (F.mbb b).terms) e))
    else F.arrive c e
  terms : ∀ c ∈ F.layout, c ≠ b → (G.mbb c).terms = (F.mbb c).terms
  target : ∀ c ∈ F.layout, c ≠ b → ∀ e, G.target c e = F.target c e

theorem getElem?_length_conds (terms : List Terminator) :
    terms[(conds terms).length]? = barrier terms := by
  have happ := List.takeWhile_append_dropWhile (p := Terminator.isJcc) (l := terms)
  calc terms[(conds terms).length]?
      = (conds terms ++ terms.dropWhile Terminator.isJcc)[(conds terms).length]? :=
        congrArg (·[(conds terms).length]?) happ.symm
    _ = (terms.dropWhile Terminator.isJcc)[0]? := by
        rw [List.getElem?_append_right le_rfl, Nat.sub_self]
    _ = barrier terms := List.head?_eq_getElem?.symm

/-- What the pass knows of the block. -/
def infoOf (F : MachineCFG) (b : Nat) : BlockCondInfo :=
  { MBB := b
    CondBrs := (List.range (codes (F.mbb b).terms).length).reverse
    UncondBr := uncondPos (F.mbb b).terms }

theorem uncondSucc_infoOf (hb : F.Traceable b) :
    uncondSucc F (F.infoOf b) = F.target b .uncond := by
  cases hbar : barrier (F.mbb b).terms with
  | none =>
    obtain ⟨u, hu⟩ := Option.isSome_iff_exists.mp (hb.falls hbar)
    have hsucc := hu
    rw [target_uncond_none hbar, Option.filter_eq_some_iff] at hsucc
    simp only [uncondSucc, infoOf, uncondPos, hbar, Option.map_none, hu]
    exact hsucc.1
  | some x =>
    simp only [uncondSucc, infoOf, uncondPos, hbar, Option.map_some, getElem?_length_conds,
      target]
    cases x <;> rfl

theorem succCounts_infoOf (hb : F.Traceable b) (t : Nat) :
    succCounts F (F.infoOf b) t =
      (F.pendingTargets b (codes (F.mbb b).terms).length).count t := by
  have hbr : ∀ i ∈ List.range (codes (F.mbb b).terms).length,
      (F.mbb b).terms[i]?.bind Terminator.getMBB = F.target b (.cond i) := by
    intro i hi
    obtain ⟨c, s, -, hterm, hs⟩ := target_cond i (List.mem_range.mp hi)
    rw [hterm, hs]
    rfl
  rw [succCounts, uncondSucc_infoOf hb, pendingTargets, infoOf, List.filterMap_reverse,
    List.count_append, List.count_append, List.count_reverse, List.filterMap_congr hbr]

theorem condsTraced_init (hF : F.Consistent) (hb : F.Traceable b) :
    CondsTraced F b (codes (F.mbb b).terms).length
      ⟨F, succCounts F (F.infoOf b), uncondPos (F.mbb b).terms, []⟩ where
  consistent := hF
  mem := fun _ hc => hc
  inserted := fun _ _ => rfl
  new := fun _ hc hn => absurd hc hn
  arrive := fun c _ e => by
    have hnil : condChecks (MSV.SLH.codes (F.mbb b).terms)
        (MSV.SLH.codes (F.mbb b).terms).length e = [] := by
      cases e with
      | cond i =>
        simp only [condChecks]
        split_ifs with hi
        · rw [List.getElem?_eq_none hi]; rfl
        · rfl
      | _ => rfl
    have hcheck : Arrival.check [] = id := by funext a; rfl
    by_cases hcb : c = b
    · subst hcb
      rw [if_pos rfl, hnil, hcheck, Option.map_id, id]
    · rw [if_neg hcb]
  terms := fun _ _ _ => rfl
  target := fun _ _ _ _ => rfl
  apart := fun i t hi _ ht => by simp [target_cond_none hi] at ht
  counts := succCounts_infoOf hb
  codes := rfl
  uncond := rfl
  falls := hb.falls
  seq := by simp

/-- The unconditional edge can be traced when the others are. -/
theorem CondsTraced.traces_uncond {u : Nat} {L : CondLoop} (hF : F.Consistent)
    (hb : F.Traceable b) (h : CondsTraced F b 0 L) (hu : F.target b .uncond = some u) :
    L.cfg.Traces b u .uncond 1 L.UncondBr L.UncondBr := by
  have humem := hF.target_mem hb.mem hu
  have hsame (e : Exit) (he : ∀ i, e ≠ .cond i) : L.cfg.target b e = F.target b e :=
    h.target b hb.mem e fun _ i _ => he i
  refine ⟨h.mem b hb.mem, (h.inserted b hb.mem).trans hb.old, ?_,
    (h.inserted u humem).trans (hb.old_uncond u hu), h.uncond, .inr ⟨rfl, rfl⟩, h.falls, ?_⟩
  · rw [hsame _ (by simp), hu]
  · intro _ e ht
    cases e with
    | cond i =>
      have hapart := h.apart i u (Nat.zero_le i) humem ht
      rw [mem_pendingTargets, not_or] at hapart
      exact absurd hu hapart.1
    | uncond => rfl
    | indirect x =>
      rw [hsame _ (by simp)] at ht
      simp only [MachineCFG.target] at ht hu
      split at ht
      · case h_1 ts hts => simp [hts] at hu
      · simp at ht
    | unwind x =>
      have hpad := hF.not_pad b hb.mem .uncond u (by simp) (by simp) hu
      rw [hsame _ (by simp), MachineCFG.target] at ht
      split_ifs at ht with hx
      obtain rfl := Option.some.inj ht
      simp [hpad] at hx

/-- The body of the loop over the blocks. -/
theorem blockTraced (hF : F.Consistent) (hb : F.Traceable b) :
    BlockTraced F (traceBlock F (F.infoOf b)) b := by
  have hloop := (condsTraced_init hF hb).loop hF hb le_rfl
  have hchecks (e : Exit) (he : e ≠ .uncond) (cs : List CondCode) :
      exitChecks cs e = condChecks cs 0 e := by
    cases e <;> simp_all [exitChecks, condChecks]
  rw [traceBlock, uncondSucc_infoOf hb]
  set L := (F.infoOf b).CondBrs.foldl (traceCondBr (F.infoOf b).MBB)
    ⟨F, succCounts F (F.infoOf b), (F.infoOf b).UncondBr, []⟩ with hL
  have h : CondsTraced F b 0 L := hloop
  cases hu : F.target b .uncond with
  | none =>
    show BlockTraced F L.cfg b
    refine ⟨h.consistent, h.mem, h.inserted, h.new, ?_, h.terms, ?_⟩
    · intro c hc e
      rw [h.arrive c hc e]
      by_cases hcb : c = b
      · rw [if_pos hcb, if_pos hcb]
        by_cases he : e = .uncond
        · subst he
          simp [arrive, hu]
        · rw [hchecks e he]
      · rw [if_neg hcb, if_neg hcb]
    · exact fun c hc hcb e => h.target c hc e fun h' => absurd h' hcb
  | some u =>
    have hedge := edgeTraced h.consistent (h.traces_uncond hF hb hu) (sortCodes L.UncondCodeSeq)
    show BlockTraced F (buildCheckingBlockForSuccAndConds L.cfg b u 1 L.UncondBr L.UncondBr
      (sortCodes L.UncondCodeSeq)).1 b
    refine ⟨hedge.consistent, fun c hc => hedge.mem c (h.mem c hc), ?_, ?_, ?_, ?_, ?_⟩
    · exact fun c hc => (hedge.inserted c (h.mem c hc)).trans (h.inserted c hc)
    · intro c hc hnew
      by_cases hcL : c ∈ L.cfg.layout
      · rw [hedge.inserted c hcL]
        exact h.new c hcL hnew
      · exact hedge.new c hc hcL
    · intro c hc e
      rw [hedge.arrive c (h.mem c hc), h.arrive c hc]
      by_cases hcb : c = b
      · subst hcb
        by_cases he : e = .uncond
        · subst he
          have hseq := h.seq
          rw [List.drop_zero] at hseq
          simp [exitChecks, condChecks, hseq, Arrival.check, Function.comp_def]
          rfl
        · simp [he, hchecks e he]
      · simp [hcb]
    · exact fun c hc hcb => (hedge.terms c (h.mem c hc) hcb).trans (h.terms c hc hcb)
    · intro c hc hcb e
      rw [hedge.target c (h.mem c hc) e fun h' => hcb h'.1]
      exact h.target c hc e fun h' => absurd h' hcb

/-! ## All blocks -/

/-- The blocks that are traced: with several successors, nothing but branches among the
terminators, and a conditional branch in front. -/
def isTraced (F : MachineCFG) (b : Nat) : Prop :=
  1 < (F.mbb b).succs.length ∧ .other ∉ (F.mbb b).terms ∧ codes (F.mbb b).terms ≠ []

instance (F : MachineCFG) (b : Nat) : Decidable (F.isTraced b) :=
  inferInstanceAs (Decidable (_ ∧ _ ∧ _))

theorem collectBlockCondInfo_eq (F : MachineCFG) :
    collectBlockCondInfo F = (F.layout.filter fun b => F.isTraced b).map F.infoOf := by
  have hinfo (b : Nat) (h : .other ∉ (F.mbb b).terms) : blockCondInfo F b = F.infoOf b := by
    rw [blockCondInfo_eq h, infoOf, length_codes]
  rw [collectBlockCondInfo, List.filter_map, List.filter_filter]
  have hfilter : (F.layout.filter fun b =>
      ((fun info : BlockCondInfo => !info.CondBrs.isEmpty) ∘ blockCondInfo F) b &&
        decide (1 < (F.mbb b).succs.length)) = F.layout.filter fun b => F.isTraced b := by
    refine List.filter_congr fun b _ => ?_
    rw [Bool.eq_iff_iff]
    by_cases hother : .other ∈ (F.mbb b).terms
    · simp [isTraced, blockCondInfo_of_other hother, hother]
    · simp only [Function.comp, hinfo b hother, infoOf, isTraced, hother]
      cases hcodes : codes (F.mbb b).terms <;> simp
  rw [hfilter]
  refine List.map_congr_left fun b hb => hinfo b ?_
  exact (of_decide_eq_true (List.mem_filter.mp hb).2).2.1

/-- The function when the blocks in `done` are traced. -/
structure CFGTraced (F G : MachineCFG) (done : List Nat) : Prop where
  consistent : G.Consistent
  mem : ∀ c ∈ F.layout, c ∈ G.layout
  inserted : ∀ c ∈ F.layout, (G.mbb c).inserted = (F.mbb c).inserted
  new : ∀ c ∈ G.layout, c ∉ F.layout → (G.mbb c).inserted = true
  arrive : ∀ c ∈ F.layout, ∀ e, G.arrive c e = (F.arrive c e).map (Arrival.check
    (if c ∈ done then exitChecks (codes (F.mbb c).terms) e else []))
  terms : ∀ c ∈ F.layout, c ∉ done → (G.mbb c).terms = (F.mbb c).terms
  target : ∀ c ∈ F.layout, c ∉ done → ∀ e, G.target c e = F.target c e

theorem Arrival.check_nil : Arrival.check [] = id := by
  funext a
  rfl

/-- A block that is not traced yet is as it was given. -/
theorem CFGTraced.traceable {G : MachineCFG} {done : List Nat} (hF : F.Consistent)
    (h : CFGTraced F G done) (hb : F.Traceable b) (hnew : b ∉ done) :
    G.Traceable b ∧ F.infoOf b = G.infoOf b := by
  have hterms := h.terms b hb.mem hnew
  have htarget := h.target b hb.mem hnew
  have hold {e : Exit} {t : Nat} (ht : F.target b e = some t)
      (hins : (F.mbb t).inserted = false) : (G.mbb t).inserted = false := by
    rw [h.inserted t (hF.target_mem hb.mem ht), hins]
  refine ⟨⟨h.mem b hb.mem, (h.inserted b hb.mem).trans hb.old, ?_, ?_, ?_, ?_⟩,
    by simp [infoOf, hterms]⟩
  · intro i t ht
    rw [htarget] at ht
    exact hold ht (hb.old_cond i t ht)
  · intro t ht
    rw [htarget] at ht
    exact hold ht (hb.old_uncond t ht)
  · rw [hterms, htarget]
    exact hb.falls
  · intro i t x
    rw [htarget, htarget]
    exact hb.disjoint i t x

/-- The body of the loop over the blocks, seen from the start of the loop. -/
theorem CFGTraced.step {G : MachineCFG} {done : List Nat} (hF : F.Consistent)
    (h : CFGTraced F G done) (hb : F.Traceable b) (hnew : b ∉ done) :
    CFGTraced F (traceBlock G (F.infoOf b)) (b :: done) := by
  have hterms := h.terms b hb.mem hnew
  obtain ⟨hG, hinfo⟩ := h.traceable hF hb hnew
  have hblock := blockTraced h.consistent hG
  rw [hinfo]
  refine ⟨hblock.consistent, fun c hc => hblock.mem c (h.mem c hc), ?_, ?_, ?_, ?_, ?_⟩
  · exact fun c hc => (hblock.inserted c (h.mem c hc)).trans (h.inserted c hc)
  · intro c hc hcF
    by_cases hcG : c ∈ G.layout
    · rw [hblock.inserted c hcG]
      exact h.new c hcG hcF
    · exact hblock.new c hc hcG
  · intro c hc e
    rw [hblock.arrive c (h.mem c hc)]
    by_cases hcb : c = b
    · subst hcb
      rw [h.arrive c hc, hterms]
      simp [hnew, Arrival.check_nil]
    · rw [h.arrive c hc]
      simp [hcb]
  · intro c hc hcd
    obtain ⟨hcb, hcd⟩ := not_or.mp fun h' => hcd (List.mem_cons.mpr h')
    exact (hblock.terms c (h.mem c hc) hcb).trans (h.terms c hc hcd)
  · intro c hc hcd e
    obtain ⟨hcb, hcd⟩ := not_or.mp fun h' => hcd (List.mem_cons.mpr h')
    exact (hblock.target c (h.mem c hc) hcb e).trans (h.target c hc hcd e)

theorem cfgTraced_init (hF : F.Consistent) : CFGTraced F F [] where
  consistent := hF
  mem := fun _ hc => hc
  inserted := fun _ _ => rfl
  new := fun _ hc hn => absurd hc hn
  arrive := fun c _ e => by simp [Arrival.check_nil]
  terms := fun _ _ _ => rfl
  target := fun _ _ _ _ => rfl

/-- The loop over the blocks. -/
theorem CFGTraced.loop (hF : F.Consistent) (l : List Nat) {G : MachineCFG} {done : List Nat}
    (h : CFGTraced F G done) (hl : l.Nodup) (hb : ∀ b ∈ l, F.Traceable b ∧ b ∉ done) :
    CFGTraced F (tracePredStateThroughCFG G (l.map F.infoOf)) (l.reverse ++ done) := by
  induction l generalizing G done with
  | nil => exact h
  | cons b l ih =>
    obtain ⟨hbl, hl⟩ := List.nodup_cons.mp hl
    have hstep := h.step hF (hb b List.mem_cons_self).1 (hb b List.mem_cons_self).2
    have := ih hstep hl fun c hc => ⟨(hb c (List.mem_cons_of_mem _ hc)).1, fun h' => by
      obtain rfl | h' := List.mem_cons.mp h'
      · exact hbl hc
      · exact (hb c (List.mem_cons_of_mem _ hc)).2 h'⟩
    simpa [tracePredStateThroughCFG] using this

end MachineCFG

/-! ## PHIs in canonical form -/

/-- The first operand for each block. -/
def firstOps : List Nat → List (Reg × Nat) → List (Reg × Nat)
  | _, [] => []
  | Preds, op :: ops =>
      if op.2 ∈ Preds then firstOps Preds ops else op :: firstOps (op.2 :: Preds) ops

/-- The removal from the back leaves the first operand for each block. -/
theorem foldr_dupIndices (Preds : List Nat) (ops l : List (Reg × Nat)) :
    (dupIndices Preds l.length ops).foldr (fun i ops => ops.eraseIdx i) (l ++ ops) =
      l ++ firstOps Preds ops := by
  induction ops generalizing Preds l with
  | nil => simp [dupIndices, firstOps]
  | cons op ops ih =>
    have hl : l ++ op :: ops = (l ++ [op]) ++ ops := by simp
    have hlen : l.length + 1 = (l ++ [op]).length := by simp
    by_cases hop : op.2 ∈ Preds
    · rw [dupIndices, if_pos hop, List.foldr_cons, hl, hlen, ih, firstOps, if_pos hop]
      simp [List.eraseIdx_append_of_length_le]
    · rw [dupIndices, if_neg hop, hl, hlen, ih, firstOps, if_neg hop]
      simp

theorem PHI.canonicalize_ops (phi : PHI) : phi.canonicalize.ops = firstOps [] phi.ops :=
  foldr_dupIndices [] phi.ops []

theorem find?_firstOps (Preds : List Nat) (ops : List (Reg × Nat)) (c : Nat) (h : c ∉ Preds) :
    (firstOps Preds ops).find? (fun op => op.2 == c) = ops.find? fun op => op.2 == c := by
  induction ops generalizing Preds with
  | nil => rfl
  | cons op ops ih =>
    by_cases hop : op.2 ∈ Preds
    · have hne : (op.2 == c) = false := beq_false_of_ne fun h' => h (h' ▸ hop)
      rw [firstOps, if_pos hop, ih Preds h, List.find?_cons, hne]
    · rw [firstOps, if_neg hop, List.find?_cons, List.find?_cons]
      cases hc : op.2 == c with
      | true => rfl
      | false =>
        refine ih _ fun h' => ?_
        obtain rfl | h' := List.mem_cons.mp h'
        · simp at hc
        · exact h h'

theorem firstOps_sublist (Preds : List Nat) (ops : List (Reg × Nat)) :
    (firstOps Preds ops).Sublist ops := by
  induction ops generalizing Preds with
  | nil => exact List.Sublist.slnil
  | cons op ops ih =>
    rw [firstOps]
    split
    · exact (ih Preds).cons op
    · exact (ih _).cons_cons op

theorem firstOps_nodup (Preds : List Nat) (ops : List (Reg × Nat)) :
    ((firstOps Preds ops).map Prod.snd).Nodup ∧
      ∀ b ∈ (firstOps Preds ops).map Prod.snd, b ∉ Preds := by
  induction ops generalizing Preds with
  | nil => simp [firstOps]
  | cons op ops ih =>
    rw [firstOps]
    split
    · exact ih Preds
    · rename_i hop
      obtain ⟨hnodup, hnew⟩ := ih (op.2 :: Preds)
      rw [List.map_cons, List.nodup_cons]
      refine ⟨⟨fun h => hnew _ h List.mem_cons_self, hnodup⟩, fun b hb => ?_⟩
      obtain rfl | hb := List.mem_cons.mp hb
      · exact hop
      · exact fun h => hnew b hb (List.mem_cons_of_mem _ h)

@[simp] theorem PHI.lookup_canonicalize (phi : PHI) (b : Nat) :
    phi.canonicalize.lookup b = phi.lookup b := by
  rw [lookup, lookup, canonicalize_ops, find?_firstOps [] phi.ops b List.not_mem_nil]

/-- Every PHI is left with one operand for each block, the first one, and reads what it read
before. -/
theorem canonicalizePHIOperands_canonical (F : MachineCFG) (b : Nat) :
    List.Forall₂ (fun phi phi' : PHI => phi'.dst = phi.dst ∧ phi'.ops.Sublist phi.ops ∧
        (phi'.ops.map Prod.snd).Nodup ∧ ∀ c, phi'.lookup c = phi.lookup c)
      (F.mbb b).phis ((canonicalizePHIOperands F).mbb b).phis := by
  rw [canonicalizePHIOperands, List.forall₂_map_right_iff]
  refine List.forall₂_same.mpr fun phi _ => ⟨rfl, ?_, ?_, phi.lookup_canonicalize⟩
  · rw [PHI.canonicalize_ops]
    exact firstOps_sublist [] phi.ops
  · rw [PHI.canonicalize_ops]
    exact (firstOps_nodup [] phi.ops).1

namespace MachineCFG

variable {F : MachineCFG}

theorem target_canonicalize (b : Nat) (e : Exit) :
    (canonicalizePHIOperands F).target b e = F.target b e := by
  cases e <;> rfl

theorem edge_canonicalize (b t : Nat) :
    (canonicalizePHIOperands F).edge b t = F.edge b t := by
  have hmoves : ((F.mbb t).phis.map PHI.canonicalize).map (fun phi => (phi.dst, phi.lookup b)) =
      (F.mbb t).phis.map fun phi => (phi.dst, phi.lookup b) := by
    rw [List.map_map]
    exact List.map_congr_left fun phi _ => Prod.ext rfl (phi.lookup_canonicalize b)
  rw [edge, edge, ← hmoves]
  rfl

theorem WellFormed.consistent (hF : F.WellFormed) : (canonicalizePHIOperands F).Consistent where
  nodup := hF.nodup
  lt_fresh := hF.lt_fresh
  succs_mem := hF.succs_mem
  target_succ := fun b hb e t ht => hF.target_succ b hb e t (by rwa [← target_canonicalize])
  not_pad := fun b hb e t hu _ ht =>
    hF.not_pad b hb e t hu (by rwa [← target_canonicalize])
  phi_lt := by
    intro b hb phi hphi op hop
    obtain ⟨phi₀, hphi₀, rfl⟩ := List.mem_map.mp hphi
    rw [PHI.canonicalize_ops] at hop
    have hop := (firstOps_sublist [] phi₀.ops).mem hop
    exact hF.lt_fresh op.2 (hF.phi_mem b hb phi₀ hphi₀ op hop)
  new := fun n hn hins => by
    have hplain : (F.mbb n).inserted = true := hins
    rw [(hF.plain n hn).1] at hplain
    exact absurd hplain Bool.false_ne_true

theorem WellFormed.target_mem (hF : F.WellFormed) {b t : Nat} {e : Exit} (hb : b ∈ F.layout)
    (ht : F.target b e = some t) : t ∈ F.layout :=
  hF.succs_mem b hb t (hF.target_succ b hb e t ht)

theorem WellFormed.traceable (hF : F.WellFormed) {b : Nat} (hb : b ∈ F.layout)
    (htraced : F.isTraced b) : (canonicalizePHIOperands F).Traceable b where
  mem := hb
  old := (hF.plain b hb).1
  old_cond := fun i t ht => (hF.plain t (hF.target_mem hb (by rwa [← target_canonicalize]))).1
  old_uncond := fun t ht => (hF.plain t (hF.target_mem hb (by rwa [← target_canonicalize]))).1
  falls := fun hbar => by
    rw [target_canonicalize]
    exact hF.falls b hb htraced.1 hbar
  disjoint := fun i t x ht => by
    rw [target_canonicalize] at ht ⊢
    exact hF.disjoint b hb i t x ht

/-- An arrival in the function as it was given. -/
theorem WellFormed.arrive (hF : F.WellFormed) {b : Nat} (hb : b ∈ F.layout) (e : Exit) :
    (canonicalizePHIOperands F).arrive b e = (F.target b e).map (F.edge b) := by
  rw [MachineCFG.arrive, target_canonicalize]
  cases ht : F.target b e with
  | none => rfl
  | some t =>
    have hplain : ((canonicalizePHIOperands F).mbb t).inserted = false :=
      (hF.plain t (hF.target_mem hb ht)).1
    simp [hplain, edge_canonicalize]

/-- The conditional moves behind the exits of a block of the function. -/
def exitChecksOf (F : MachineCFG) (b : Nat) (e : Exit) : List CondCode :=
  if F.isTraced b then exitChecks (codes (F.mbb b).terms) e else []

/-- What `runOnMachineFunction` does to the control flow. -/
theorem WellFormed.traced (hF : F.WellFormed) :
    CFGTraced (canonicalizePHIOperands F) (traceCFG F)
      (F.layout.filter fun b => F.isTraced b).reverse := by
  have hloop := (cfgTraced_init hF.consistent).loop hF.consistent
    (F.layout.filter fun b => F.isTraced b) (hF.nodup.filter _) fun b hb =>
      ⟨hF.traceable (List.mem_filter.mp hb).1 (of_decide_eq_true (List.mem_filter.mp hb).2),
        List.not_mem_nil⟩
  have hinfo : (canonicalizePHIOperands F).infoOf = F.infoOf := rfl
  rw [hinfo, List.append_nil] at hloop
  rw [traceCFG, collectBlockCondInfo_eq]
  exact hloop

/-- Where the exits of the traced function lead. -/
theorem WellFormed.arrive_traceCFG (hF : F.WellFormed) {b : Nat} (hb : b ∈ F.layout) (e : Exit) :
    (traceCFG F).arrive b e =
      (F.target b e).map fun t => (F.edge b t).check (F.exitChecksOf b e) := by
  have hcodes : codes ((canonicalizePHIOperands F).mbb b).terms = codes (F.mbb b).terms := rfl
  rw [hF.traced.arrive b hb, hF.arrive hb, Option.map_map, hcodes]
  simp [exitChecksOf, hb, Function.comp_def]

end MachineCFG

/-! ## Runs -/

section Runs

variable {V : Type} {F : MachineCFG} (body : Body V) (allowed : Nat → Flags → Exit → Prop)

theorem runChecks_eq (f : Flags) (l : List CondCode) (state : BitVec 64) :
    runChecks f l state = if l.any fun c => c.holds f then PoisonVal else state := by
  induction l generalizing state with
  | nil => rfl
  | cons c l ih =>
    rw [runChecks, List.foldl_cons, ← runChecks, ih, List.any_cons]
    cases c.holds f <;> simp

theorem runChecks_append (f : Flags) (l l' : List CondCode) (state : BitVec 64) :
    runChecks f (l ++ l') state = runChecks f l' (runChecks f l state) :=
  List.foldl_append

@[simp] theorem assign_nil (env : Reg → V) : assign [] env = env := rfl

namespace MachineCFG

/-- Whether an exit of a traced block contradicts the flags. -/
def contradicts (F : MachineCFG) (b : Nat) (f : Flags) (e : Exit) : Bool :=
  F.isTraced b && match e with
    | .cond i => (codes (F.mbb b).terms)[i]?.any fun c => !c.holds f
    | .uncond => (codes (F.mbb b).terms).any fun c => c.holds f
    | _ => false

/-- A step of the function as it was given, and what the predicate state is to become. -/
def specStep (F : MachineCFG) (c : Config V) (e : Exit) : Option (Config V) :=
  (F.step body c e).map fun c' =>
    { c' with state := if F.contradicts c.block c'.flags e then PoisonVal else c.state }

/-- The runs of the function as it was given. -/
inductive SpecRuns (F : MachineCFG) : Config V → List Exit → Config V → Prop
  | refl (c : Config V) : SpecRuns F c [] c
  | step {c c₁ c₂ : Config V} {e : Exit} {es : List Exit}
      (hallowed : allowed c.block (c.exec F body).flags e)
      (hstep : F.specStep body c e = some c₁) (rest : SpecRuns F c₁ es c₂) :
      SpecRuns F c (e :: es) c₂

/-- Through an inserted block. -/
def settle (G : MachineCFG) (c : Config V) : Config V :=
  if (G.mbb c.block).inserted then
    match G.target c.block .uncond with
    | some s => c.enter (G.edge c.block s)
    | none => c
  else c

theorem mem_sortCodes (c : CondCode) (l : List CondCode) : c ∈ sortCodes l ↔ c ∈ l := by
  rw [sortCodes, List.mem_dedup, List.mem_mergeSort]

/-- The conditional moves on an exit poison the state when it contradicts the flags. -/
theorem any_exitChecksOf (F : MachineCFG) (b : Nat) (f : Flags) (e : Exit) :
    ((F.exitChecksOf b e).any fun c => c.holds f) = F.contradicts b f e := by
  by_cases ht : F.isTraced b
  · cases e with
    | cond i =>
      cases hc : (codes (F.mbb b).terms)[i]? <;>
        simp [exitChecksOf, contradicts, ht, exitChecks, hc, CondCode.holds_opposite]
    | uncond =>
      rw [Bool.eq_iff_iff]
      simp [exitChecksOf, contradicts, ht, exitChecks, mem_sortCodes]
    | _ => simp [exitChecksOf, contradicts, ht, exitChecks]
  · simp [exitChecksOf, contradicts, ht]

theorem exec_traceCFG (hF : F.WellFormed) {c : Config V} (hc : c.block ∈ F.layout) :
    c.exec (traceCFG F) body = c.exec F body := by
  have hins : ((traceCFG F).mbb c.block).inserted = (F.mbb c.block).inserted :=
    hF.traced.inserted c.block hc
  rw [Config.exec, Config.exec, hins]

/-- One step, and through the inserted block if there is one, is a step of the function as it was
given. -/
theorem specStep_eq (hF : F.WellFormed) {c : Config V} (hc : c.block ∈ F.layout) (e : Exit) :
    F.specStep body c e = ((traceCFG F).step body c e).map (traceCFG F).settle := by
  have hG := hF.traced
  have harrive := hF.arrive_traceCFG hc e
  rw [specStep, step, step, exec_traceCFG body hF hc]
  have hblock : (c.exec F body).state = c.state ∧ (c.exec F body).block = c.block := by
    rw [Config.exec]; split <;> exact ⟨rfl, rfl⟩
  -- The arrival of the traced function, entered from the end of the block.
  have henter (t : Nat) (ht : F.target c.block e = some t) :
      (c.exec F body).enter ((F.edge c.block t).check (F.exitChecksOf c.block e)) =
        { (c.exec F body).enter (F.edge c.block t) with
          state := if F.contradicts c.block ((c.exec F body).enter (F.edge c.block t)).flags e
            then PoisonVal else c.state } := by
    have hchecks : (F.edge c.block t).checks = [] := (hF.plain t (hF.target_mem hc ht)).2
    simp only [Config.enter, Arrival.check, hchecks, List.append_nil, runChecks_eq,
      any_exitChecksOf, hblock.1]
  rw [arrive] at harrive
  cases htG : (traceCFG F).target c.block e with
  | none =>
    rw [htG] at harrive
    have htF : F.target c.block e = none := by simpa using harrive.symm
    simp [htF]
  | some t =>
    rw [htG, Option.bind_some] at harrive
    have htmem := hG.consistent.target_mem (hG.mem _ hc) htG
    simp only [Option.map_some]
    by_cases hins : ((traceCFG F).mbb t).inserted = true
    · obtain ⟨hphis, -, y, -, hy, -⟩ := hG.consistent.new t htmem hins
      rw [if_pos hins, hy, Option.map_some] at harrive
      obtain ⟨u, hu, hcheck⟩ := Option.map_eq_some_iff.mp harrive.symm
      have hsettle : (traceCFG F).settle ((c.exec F body).enter ((traceCFG F).edge c.block t)) =
          (c.exec F body).enter { (traceCFG F).edge t y with
            checks := ((traceCFG F).mbb t).checks ++ ((traceCFG F).mbb y).checks } := by
        simp only [settle, Config.enter, edge, hins, if_true, hy, hphis, List.map_nil,
          assign_nil, runChecks_append]
      rw [hsettle, ← hcheck, henter u hu, hu]
      rfl
    · rw [if_neg hins] at harrive
      obtain ⟨u, hu, hcheck⟩ := Option.map_eq_some_iff.mp harrive.symm
      have hsettle : (traceCFG F).settle ((c.exec F body).enter ((traceCFG F).edge c.block t)) =
          (c.exec F body).enter ((traceCFG F).edge c.block t) := by
        rw [settle, if_neg]
        exact hins
      rw [hsettle, ← hcheck, henter u hu, hu]
      rfl

/-- A run of the traced function from where the block at its start has been passed, if that is an
inserted one. -/
theorem specRuns_settle (hF : F.WellFormed) {c c' : Config V} {es : List Exit}
    (hc : c.block ∈ (traceCFG F).layout) (hc' : c'.block ∈ F.layout)
    (h : (traceCFG F).Runs body allowed c es c') :
    F.SpecRuns body allowed ((traceCFG F).settle c) es c' := by
  have hG := hF.traced
  have hplain {x : Nat} (hx : x ∈ F.layout) : ((traceCFG F).mbb x).inserted = false :=
    (hG.inserted x hx).trans (hF.plain x hx).1
  have hold {x : Nat} (hx : x ∈ (traceCFG F).layout)
      (hins : ((traceCFG F).mbb x).inserted = false) : x ∈ F.layout := by
    by_contra hnot
    rw [hG.new x hx hnot] at hins
    exact Bool.false_ne_true hins.symm
  induction h with
  | refl c =>
    rw [settle, hplain hc', if_neg Bool.false_ne_true]
    exact .refl c
  | @step c c₁ c₂ e es old hallowed hstep rest ih =>
    have hcF := hold hc old
    obtain ⟨t, ht, rfl⟩ := Option.map_eq_some_iff.mp hstep
    have hc₁ := hG.consistent.target_mem hc ht
    rw [settle, old, if_neg Bool.false_ne_true]
    refine .step (exec_traceCFG body hF hcF ▸ hallowed) ?_ (ih hc₁ hc')
    rw [specStep_eq body hF hcF, hstep, Option.map_some]
  | @silent c c₁ c₂ e es new hstep rest ih =>
    obtain ⟨-, -, s, hsuccs, hs, hsold⟩ := hG.consistent.new c.block hc new
    obtain ⟨t, ht, rfl⟩ := Option.map_eq_some_iff.mp hstep
    -- The jump of an inserted block is its only exit.
    obtain rfl : t = s := by
      have := hG.consistent.target_succ c.block hc e t ht
      simpa [hsuccs] using this
    have hc₁ := hG.consistent.target_mem hc ht
    have hexec : c.exec (traceCFG F) body = c := by rw [Config.exec, if_pos new]
    have hsettle : (traceCFG F).settle ((c.exec (traceCFG F) body).enter
        ((traceCFG F).edge c.block t)) = (traceCFG F).settle c := by
      have hblock : (c.enter ((traceCFG F).edge c.block t)).block = t := rfl
      rw [hexec, settle, hblock, hsold, if_neg Bool.false_ne_true, settle, if_pos new, hs]
    rw [← hsettle]
    exact ih hc₁ hc'

/-- A run of the function as it was given is one of the traced function. -/
theorem runs_of_specRuns (hF : F.WellFormed) {c c' : Config V} {es : List Exit}
    (hc : c.block ∈ F.layout) (h : F.SpecRuns body allowed c es c') :
    (traceCFG F).Runs body allowed c es c' := by
  have hG := hF.traced
  induction h with
  | refl c => exact .refl c
  | @step c c₁ c₂ e es hallowed hstep rest ih =>
    have hc₁ : c₁.block ∈ F.layout := by
      rw [specStep, step, Option.map_map] at hstep
      obtain ⟨t, ht, rfl⟩ := Option.map_eq_some_iff.mp hstep
      exact hF.target_mem hc ht
    rw [specStep_eq body hF hc] at hstep
    obtain ⟨c₀, hc₀, rfl⟩ := Option.map_eq_some_iff.mp hstep
    have hold : ((traceCFG F).mbb c.block).inserted = false :=
      (hG.inserted _ hc).trans (hF.plain _ hc).1
    refine .step hold (exec_traceCFG body hF hc ▸ hallowed) hc₀ ?_
    have hrest := ih hc₁
    rw [settle] at hrest
    by_cases hins : ((traceCFG F).mbb c₀.block).inserted = true
    · obtain ⟨t, ht, rfl⟩ := Option.map_eq_some_iff.mp hc₀
      have htmem := hG.consistent.target_mem (hG.mem _ hc) ht
      obtain ⟨-, -, s, -, hs, -⟩ := hG.consistent.new t htmem hins
      have hs' : (traceCFG F).target
          ((c.exec (traceCFG F) body).enter ((traceCFG F).edge c.block t)).block .uncond = some s :=
        hs
      rw [if_pos hins, hs'] at hrest
      refine .silent (e := .uncond) hins ?_ hrest
      rw [step, hs', Option.map_some, Config.exec, if_pos hins]
    · rwa [if_neg hins] at hrest

/-- A run of the traced function is one of the function as it was given. -/
theorem specRuns_of_runs (hF : F.WellFormed) {c c' : Config V} {es : List Exit}
    (hc : c.block ∈ F.layout) (hc' : c'.block ∈ F.layout)
    (h : (traceCFG F).Runs body allowed c es c') : F.SpecRuns body allowed c es c' := by
  have hsettle : (traceCFG F).settle c = c := by
    rw [settle, hF.traced.inserted _ hc]
    exact if_neg (by simp [canonicalizePHIOperands, (hF.plain _ hc).1])
  rw [← hsettle]
  exact specRuns_settle body allowed hF (hF.traced.mem _ hc) hc' h

/-- The runs of the traced function between the blocks of the function as it was given are its
runs, with the predicate state poisoned by the exits that contradict the flags. -/
theorem traceCFG_runs_iff (hF : F.WellFormed) {c c' : Config V} (hc : c.block ∈ F.layout)
    (hc' : c'.block ∈ F.layout) (es : List Exit) :
    (traceCFG F).Runs body allowed c es c' ↔ F.SpecRuns body allowed c es c' :=
  ⟨specRuns_of_runs body allowed hF hc hc', runs_of_specRuns body allowed hF hc⟩

/-! ### A branch around a block -/

/-- A branch around a block, with a PHI where the ways meet. -/
def triangle : MachineCFG where
  layout := [0, 1, 2]
  mbb := fun b => match b with
    | 0 => { terms := [.jcc .COND_E 2], succs := [1, 2] }
    | 1 => { terms := [.jmp 2], succs := [2] }
    | 2 => { phis := [⟨.virt 0, [(.virt 1, 0), (.virt 2, 1), (.virt 1, 0)]⟩], terms := [.other] }
    | _ => {}
  fresh := 3

theorem triangle_target {b t : Nat} {e : Exit} (hb : b ∈ triangle.layout)
    (ht : triangle.target b e = some t) :
    (b = 0 ∧ e = .cond 0 ∧ t = 2) ∨ (b = 0 ∧ e = .uncond ∧ t = 1) ∨
      (b = 1 ∧ e = .uncond ∧ t = 2) := by
  have hpad (x : Nat) : (triangle.mbb x).isEHPad = false := by
    simp only [triangle]
    split <;> rfl
  simp only [triangle, List.mem_cons, List.not_mem_nil, or_false] at hb
  obtain rfl | rfl | rfl := hb <;> cases e with
  | cond i =>
    cases i <;> simp_all [target, triangle, Terminator.getMBB]
  | uncond => simp_all [target, triangle, layoutSucc, nextIn, Option.filter]
  | indirect x => simp [target, triangle] at ht
  | unwind x => simp [target, hpad] at ht

theorem triangle_wellFormed : triangle.WellFormed where
  nodup := by decide
  lt_fresh := by decide
  succs_mem := by decide
  target_succ := fun b hb e t ht => by
    obtain ⟨rfl, -, rfl⟩ | ⟨rfl, -, rfl⟩ | ⟨rfl, -, rfl⟩ := triangle_target hb ht <;> decide
  not_pad := fun b hb e t _ ht => by
    obtain ⟨-, -, rfl⟩ | ⟨-, -, rfl⟩ | ⟨-, -, rfl⟩ := triangle_target hb ht <;> rfl
  falls := by decide
  phi_mem := by decide
  disjoint := fun b hb i t x _ ht => by
    obtain ⟨-, h, -⟩ | ⟨-, h, -⟩ | ⟨-, h, -⟩ := triangle_target hb ht <;> simp at h
  plain := by decide

/-- No instructions but those of the control flow. -/
def idle : Body Nat := fun _ s => s

/-- The start of a run, with the flags of an inequality. -/
def start (b : Nat) : Config Nat :=
  { block := b, env := fun _ => 0, flags := ⟨false, false, false, false, false⟩, state := 0 }

theorem assign_zero (moves : List (Reg × Option Reg)) :
    assign moves (fun _ => (0 : Nat)) = fun _ => 0 := by
  funext r
  unfold assign
  split <;> rfl

theorem triangle_step_wrong : triangle.specStep idle (start 0) (.cond 0) =
    some { start 2 with state := PoisonVal } :=
  congrArg some (Config.ext rfl (assign_zero (triangle.edge 0 2).moves) rfl rfl)

theorem triangle_step_right (b t : Nat) (hb : b = 0 ∧ t = 1 ∨ b = 1 ∧ t = 2) :
    triangle.step idle (start b) .uncond = some (start t) := by
  obtain ⟨rfl, rfl⟩ | ⟨rfl, rfl⟩ := hb
  · exact congrArg some (Config.ext rfl (assign_zero (triangle.edge 0 1).moves) rfl rfl)
  · exact congrArg some (Config.ext rfl (assign_zero (triangle.edge 1 2).moves) rfl rfl)

/-- The branch is taken against its condition. -/
theorem triangle_mispredicted : (traceCFG triangle).Runs idle (fun _ _ _ => True) (start 0)
    [.cond 0] { start 2 with state := PoisonVal } :=
  (traceCFG_runs_iff idle _ triangle_wellFormed (by decide) (by decide) [.cond 0]).mpr
    (.step trivial triangle_step_wrong (.refl _))

/-! ### Architectural runs -/

/-- The exits are those the flags ask for. -/
def architectural (F : MachineCFG) (b : Nat) (f : Flags) (e : Exit) : Prop :=
  follows (codes (F.mbb b).terms) f e = true

theorem contradicts_of_follows {b : Nat} {f : Flags} {e : Exit} (h : F.architectural b f e) :
    F.contradicts b f e = false := by
  cases e with
  | cond i =>
    cases hc : (codes (F.mbb b).terms)[i]? <;>
      simp_all [architectural, follows, contradicts]
  | uncond => simp_all [architectural, follows, contradicts]
  | _ => simp [contradicts]

/-- Without conditional moves a step leaves the predicate state alone. -/
theorem step_state (hF : F.WellFormed) {c c' : Config V} {e : Exit} (hc : c.block ∈ F.layout)
    (h : F.step body c e = some c') : c'.state = c.state ∧ c'.block ∈ F.layout ∧
      c'.flags = (c.exec F body).flags := by
  obtain ⟨t, ht, rfl⟩ := Option.map_eq_some_iff.mp h
  have hchecks : (F.edge c.block t).checks = [] := (hF.plain t (hF.target_mem hc ht)).2
  refine ⟨?_, hF.target_mem hc ht, rfl⟩
  simp only [Config.enter, hchecks, runChecks, List.foldl_nil, Config.exec]
  split <;> rfl

theorem specStep_architectural (hF : F.WellFormed) {c : Config V} {e : Exit}
    (hc : c.block ∈ F.layout) (h : F.architectural c.block (c.exec F body).flags e) :
    F.specStep body c e = F.step body c e := by
  rw [specStep]
  cases hstep : F.step body c e with
  | none => rfl
  | some c₁ =>
    obtain ⟨hstate, -, hflags⟩ := step_state body hF hc hstep
    have hcon : F.contradicts c.block c₁.flags e = false := by
      rw [hflags]
      exact contradicts_of_follows h
    simp [hcon, ← hstate]

theorem specRuns_architectural (hF : F.WellFormed) {c c' : Config V} {es : List Exit}
    (hc : c.block ∈ F.layout) :
    F.SpecRuns body F.architectural c es c' ↔ F.Runs body F.architectural c es c' := by
  constructor
  · intro h
    induction h with
    | refl c => exact .refl c
    | @step c c₁ c₂ e es hallowed hstep rest ih =>
      rw [specStep_architectural body hF hc hallowed] at hstep
      exact .step (hF.plain _ hc).1 hallowed hstep (ih (step_state body hF hc hstep).2.1)
  · intro h
    induction h with
    | refl c => exact .refl c
    | @step c c₁ c₂ e es old hallowed hstep rest ih =>
      refine .step hallowed ?_ (ih (step_state body hF hc hstep).2.1)
      rwa [specStep_architectural body hF hc hallowed]
    | @silent c c₁ c₂ e es new hstep rest ih =>
      rw [(hF.plain _ hc).1] at new
      exact absurd new Bool.false_ne_true

theorem state_of_runs (hF : F.WellFormed) {c c' : Config V} {es : List Exit}
    (hc : c.block ∈ F.layout) (h : F.Runs body allowed c es c') : c'.state = c.state := by
  induction h with
  | refl c => rfl
  | @step c c₁ c₂ e es old hallowed hstep rest ih =>
    obtain ⟨hstate, hmem, -⟩ := step_state body hF hc hstep
    exact (ih hmem).trans hstate
  | @silent c c₁ c₂ e es new hstep rest ih =>
    rw [(hF.plain _ hc).1] at new
    exact absurd new Bool.false_ne_true

theorem SpecRuns.mono {allowed' : Nat → Flags → Exit → Prop} {c c' : Config V} {es : List Exit}
    (hmono : ∀ b f e, allowed b f e → allowed' b f e) (h : F.SpecRuns body allowed c es c') :
    F.SpecRuns body allowed' c es c' := by
  induction h with
  | refl c => exact .refl c
  | step hallowed hstep _ ih => exact .step (hmono _ _ _ hallowed) hstep ih

theorem specStep_state (hF : F.WellFormed) {c c' : Config V} {e : Exit} (hc : c.block ∈ F.layout)
    (h : F.specStep body c e = some c') : c'.block ∈ F.layout ∧ c'.state =
      if F.contradicts c.block (c.exec F body).flags e then PoisonVal else c.state := by
  obtain ⟨c₁, hstep, rfl⟩ := Option.map_eq_some_iff.mp h
  obtain ⟨-, hmem, hflags⟩ := step_state body hF hc hstep
  exact ⟨hmem, by simp only [hflags]⟩

/-- A poisoned state stays poisoned. -/
theorem SpecRuns.poisoned (hF : F.WellFormed) {c c' : Config V} {es : List Exit}
    (hc : c.block ∈ F.layout) (h : F.SpecRuns body allowed c es c')
    (hstate : c.state = PoisonVal) : c'.state = PoisonVal := by
  induction h with
  | refl c => exact hstate
  | step _ hstep _ ih =>
    obtain ⟨hmem, hstate'⟩ := specStep_state body hF hc hstep
    refine ih hmem ?_
    rw [hstate', hstate, ite_self]

/-- From zero the state is zero or poisoned, and zero if no exit contradicted the flags. -/
theorem SpecRuns.state (hF : F.WellFormed) {c c' : Config V} {es : List Exit}
    (hc : c.block ∈ F.layout) (h : F.SpecRuns body allowed c es c') (hstate : c.state = 0) :
    (c'.state = PoisonVal ∧
        ¬F.SpecRuns body (fun b f e => F.contradicts b f e = false) c es c') ∨
      (c'.state = 0 ∧ F.SpecRuns body (fun b f e => F.contradicts b f e = false) c es c') := by
  induction h with
  | refl c => exact .inr ⟨hstate, .refl c⟩
  | @step c c₁ c₂ e es hallowed hstep rest ih =>
    obtain ⟨hmem, hstate'⟩ := specStep_state body hF hc hstep
    cases hcon : F.contradicts c.block (c.exec F body).flags e with
    | true =>
      rw [hcon, if_pos rfl] at hstate'
      refine .inl ⟨rest.poisoned body allowed hF hmem hstate', fun h => ?_⟩
      cases h with
      | step hallowed' _ _ => simp [hcon] at hallowed'
    | false =>
      rw [hcon, if_neg Bool.false_ne_true, hstate] at hstate'
      obtain ⟨hpoison, hnot⟩ | ⟨hzero, hruns⟩ := ih hmem hstate'
      · refine .inl ⟨hpoison, fun h => ?_⟩
        cases h with
        | step _ hstep' rest' =>
          rw [hstep] at hstep'
          exact hnot (Option.some.inj hstep' ▸ rest')
      · exact .inr ⟨hzero, .step hcon hstep hruns⟩

/-- The traced blocks have one conditional branch, and the other way out is direct. -/
def SingleBranch (F : MachineCFG) : Prop :=
  ∀ b ∈ F.layout, F.isTraced b → (codes (F.mbb b).terms).length = 1 ∧
    ∀ ts, barrier (F.mbb b).terms ≠ some (.indirect ts)

/-- With one branch a block, an exit that can be taken contradicts the flags if they ask for the
other one. -/
theorem SingleBranch.contradicts_iff (h1 : F.SingleBranch) {b : Nat} (hb : b ∈ F.layout)
    {e : Exit} {t : Nat} (ht : F.target b e = some t) (f : Flags) :
    F.contradicts b f e = false ↔ (F.isTraced b → F.architectural b f e) := by
  by_cases htraced : F.isTraced b
  · obtain ⟨hlen, hind⟩ := h1 b hb htraced
    obtain ⟨c, hc⟩ := List.length_eq_one_iff.mp hlen
    cases e with
    | cond i =>
      cases i with
      | zero => simp [contradicts, architectural, htraced, follows, hc]
      | succ i => simp [target_cond_none (F := F) (b := b) (i := i + 1) (by omega)] at ht
    | uncond => simp [contradicts, architectural, htraced, follows, hc]
    | indirect x =>
      rw [target] at ht
      split at ht
      · case h_1 ts hts => exact absurd hts (hind ts)
      · simp at ht
    | unwind x => simp [contradicts, architectural, htraced, follows]
  · simp [contradicts, htraced]

/-- In a function whose blocks have one conditional branch each, the predicate state of a
speculative run that starts with zero is zero if every traced block was left as the flags ask for,
and all ones from the first one on that was not. -/
theorem traceCFG_state (hF : F.WellFormed) (h1 : F.SingleBranch) {c c' : Config V}
    (hc : c.block ∈ F.layout) (hc' : c'.block ∈ F.layout) (es : List Exit) (h0 : c.state = 0)
    (h : (traceCFG F).Runs body (fun _ _ _ => True) c es c') :
    (c'.state = 0 ∨ c'.state = PoisonVal) ∧ (c'.state = 0 ↔
      (traceCFG F).Runs body (fun b f e => F.isTraced b → F.architectural b f e) c es c') := by
  have hspec := specRuns_of_runs body _ hF hc hc' h
  have hright : (traceCFG F).Runs body (fun b f e => F.isTraced b → F.architectural b f e) c es c' ↔
      F.SpecRuns body (fun b f e => F.isTraced b → F.architectural b f e) c es c' :=
    ⟨specRuns_of_runs body _ hF hc hc', runs_of_specRuns body _ hF hc⟩
  have hiff : F.SpecRuns body (fun b f e => F.contradicts b f e = false) c es c' ↔
      F.SpecRuns body (fun b f e => F.isTraced b → F.architectural b f e) c es c' := by
    clear h h0 hspec hright
    have htarget {c c₁ : Config V} {e : Exit} (hc : c.block ∈ F.layout)
        (hstep : F.specStep body c e = some c₁) (f : Flags) :
        F.contradicts c.block f e = false ↔ (F.isTraced c.block → F.architectural c.block f e) := by
      rw [specStep, step, Option.map_map] at hstep
      obtain ⟨t, ht, -⟩ := Option.map_eq_some_iff.mp hstep
      exact h1.contradicts_iff hc ht f
    constructor
    · intro h
      induction h with
      | refl c => exact .refl c
      | step hallowed hstep _ ih =>
        exact .step ((htarget hc hstep _).mp hallowed) hstep
          (ih (specStep_state body hF hc hstep).1 hc')
    · intro h
      induction h with
      | refl c => exact .refl c
      | step hallowed hstep _ ih =>
        exact .step ((htarget hc hstep _).mpr hallowed) hstep
          (ih (specStep_state body hF hc hstep).1 hc')
  rw [hright, ← hiff]
  obtain ⟨hpoison, hnot⟩ | ⟨hzero, hruns⟩ := hspec.state body _ hF hc h0
  · refine ⟨.inr hpoison, fun hzero => ?_, fun hruns => absurd hruns hnot⟩
    rw [hpoison] at hzero
    exact absurd hzero (by decide)
  · exact ⟨.inl hzero, fun _ => hruns, fun _ => hzero⟩

theorem triangle_singleBranch : triangle.SingleBranch := by
  intro b hb
  simp only [triangle, List.mem_cons, List.not_mem_nil, or_false] at hb
  obtain rfl | rfl | rfl := hb <;> simp [isTraced, triangle, codes, Terminator.cond?]

/-- After the branch that was taken against its condition the state is not zero. -/
theorem triangle_state : ¬(traceCFG triangle).Runs idle
    (fun b f e => triangle.isTraced b → triangle.architectural b f e) (start 0) [.cond 0]
    { start 2 with state := PoisonVal } := fun h =>
  absurd ((traceCFG_state idle triangle_wellFormed triangle_singleBranch (by decide) (by decide)
    [.cond 0] rfl (runs_of_specRuns idle _ triangle_wellFormed (by decide)
      (.step trivial triangle_step_wrong (.refl _)))).2.mpr h)
    (by decide)

end MachineCFG

end Runs

end MSV.SLH
