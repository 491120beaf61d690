import MSV.SLH.IndirectProof

/-!
# Critical edges into the targets of indirect branches

`tracePredStateThroughIndirectBranches` gives up where a block enters a target of an indirect branch
on a condition, and it relies on the flags being dead there. Both hold after the conditional branches
have been traced: a target that is entered conditionally has two ways in, so the conditional edge
gets a block of its own, and the conditional moves go there.

**Theorem (`traceCFG_accepted`).** The pass accepts a function whose conditional branches have been
traced, if it accepts the blocks of the function that are not.
-/

namespace MSV.SLH

namespace MachineCFG

/-! ## One edge -/

/-- There is a way into `t` other than from `b`. -/
def EnteredElsewhere (F : MachineCFG) (b t : Nat) : Prop :=
  ∃ q ∈ F.layout, q ≠ b ∧ t ∈ (F.mbb q).succs

theorem length_predecessors {F : MachineCFG} {b t : Nat} (h : F.EnteredElsewhere b t)
    (hb : b ∈ F.layout) (ht : t ∈ (F.mbb b).succs) : (F.predecessors t).length ≠ 1 := by
  obtain ⟨q, hq, hne, htq⟩ := h
  intro hlen
  obtain ⟨p, hp⟩ := List.length_eq_one_iff.mp hlen
  have hmem {c : Nat} (hc : c ∈ F.layout) (htc : t ∈ (F.mbb c).succs) : c = p := by
    have hpred : c ∈ F.predecessors t := List.mem_filter.mpr ⟨hc, by simpa using htc⟩
    simpa [hp] using hpred
  exact hne ((hmem hq htq).trans (hmem hb ht).symm)

section Edge

variable {F : MachineCFG} {b s : Nat} {e : Exit} {SuccCount : Int} {Br UncondBr : Option Nat}
  {Conds : List CondCode}

/-- What tracing an edge of `b` leaves alone. -/
structure EdgeKept (F G : MachineCFG) (b s : Nat) (SuccCount : Int) : Prop where
  succs : ∀ c ∈ F.layout, c ≠ b → (G.mbb c).succs = (F.mbb c).succs
  isEHPad : ∀ c ∈ F.layout, (G.mbb c).isEHPad = (F.mbb c).isEHPad
  live : ∀ t ∈ F.layout, F.EnteredElsewhere b t → (G.mbb t).liveInEFLAGS = (F.mbb t).liveInEFLAGS
  /-- The last edge into a block that has other ways in is gone. -/
  count : ∀ t ∈ F.layout, F.EnteredElsewhere b t → (G.mbb b).succs.count t =
    if t = s ∧ SuccCount = 1 then (F.mbb b).succs.count t - 1 else (F.mbb b).succs.count t
  indirect : ∀ c ∈ G.layout, ∀ ts, (.indirect ts : Terminator) ∈ (G.mbb c).terms →
    c ∈ F.layout ∧ .indirect ts ∈ (F.mbb c).terms

theorem setMBB_eq_indirect {n : Nat} {t : Terminator} {ts : List Nat}
    (h : t.setMBB n = .indirect ts) : t = .indirect ts := by
  cases t <;> simp_all [Terminator.setMBB]

theorem edgeKept_split (hF : F.Consistent) (h : F.Traces b s e SuccCount Br UncondBr) :
    EdgeKept F ((splitEdge F b s SuccCount Br UncondBr).1.addChecks F.fresh Conds) b s
      SuccCount := by
  have hb := hF.ne_fresh h.mem
  have hs := hF.ne_fresh (hF.target_mem h.mem h.target)
  have hold {c : Nat} (hc : c ∈ F.layout) :
      ((splitEdge F b s SuccCount Br UncondBr).1.addChecks F.fresh Conds).mbb c =
        (splitEdge F b s SuccCount Br UncondBr).1.mbb c := by
    rw [addChecks_mbb, if_neg (hF.ne_fresh hc)]
  have hmbb {c : Nat} (hc : c ∈ F.layout) :=
    splitEdge_old SuccCount Br UncondBr hb hs (hF.ne_fresh hc)
  refine ⟨fun c hc hcb => ?_, fun c hc => ?_, fun t ht _ => ?_, fun t ht _ => ?_, ?_⟩
  · rw [hold hc, hmbb hc]
    exact if_neg hcb
  · rw [hold hc, hmbb hc]
  · rw [hold ht, hmbb ht]
  · rw [hold h.mem, hmbb h.mem]
    have hfresh : (F.fresh == t) = false := beq_false_of_ne (hF.ne_fresh ht).symm
    simp only [if_true]
    by_cases hk : SuccCount = 1
    · have hsucc := hF.target_succ b h.mem e s h.target
      rw [if_pos hk, List.count_replace, if_pos (List.contains_iff_mem.mpr hsucc)]
      by_cases hts : t = s
      · simp [hts, hk, beq_false_of_ne hs.symm]
      · simp [hts, hfresh, Ne.symm hts]
    · simp [hk, List.count_append, List.count_singleton, hfresh]
  · intro c hc ts hts
    have hlayout : c = F.fresh ∨ c ∈ F.layout := (mem_insertAfter h.mem).mp hc
    obtain rfl | hc := hlayout
    · rw [addChecks_mbb, if_pos rfl, splitEdge_new _ _ _ hb hs] at hts
      simp only at hts
      split at hts
      · split at hts <;> simp at hts
      · simp at hts
    · refine ⟨hc, ?_⟩
      rw [hold hc, hmbb hc] at hts
      by_cases hcb : c = b
      · subst hcb
        simp only [if_true, List.mem_append] at hts
        obtain hts | hts := hts
        · split at hts
          · obtain ⟨j, hj⟩ := List.mem_iff_getElem?.mp hts
            rw [List.getElem?_modify] at hj
            obtain ⟨t, ht, heq⟩ := Option.map_eq_some_iff.mp hj
            split at heq
            · exact setMBB_eq_indirect heq ▸ List.mem_of_getElem? ht
            · exact heq ▸ List.mem_of_getElem? ht
          · exact hts
        · unfold fallthroughJump at hts
          split at hts
          · obtain ⟨t, -, heq⟩ := Option.map_eq_some_iff.mp (Option.mem_toList.mp hts)
            cases heq
          · exact absurd hts List.not_mem_nil
      · simpa [hcb] using hts

variable (Conds) in
/-- Tracing an edge of `b`. -/
theorem edgeKept (hF : F.Consistent) (h : F.Traces b s e SuccCount Br UncondBr) :
    EdgeKept F (buildCheckingBlockForSuccAndConds F b s SuccCount Br UncondBr Conds).1 b s
      SuccCount := by
  by_cases hsame : SuccCount = 1 ∧ (F.predecessors s).length = 1
  · have hnot {t : Nat} (ht : F.EnteredElsewhere b t) : t ≠ s := by
      rintro rfl
      exact length_predecessors ht h.mem (hF.target_succ b h.mem e t h.target) hsame.2
    rw [buildCheckingBlockForSuccAndConds, if_pos hsame]
    show EdgeKept F (F.addChecks s Conds) b s SuccCount
    have hmbb := addChecks_mbb (F := F) (x := s) Conds
    refine ⟨fun c _ _ => ?_, fun c _ => ?_, fun t _ ht => ?_, fun t _ ht => ?_,
      fun c hc ts hts => ⟨hc, ?_⟩⟩
    · rw [hmbb]
      split <;> rfl
    · rw [hmbb]
      split <;> rfl
    · rw [hmbb, if_neg (hnot ht)]
    · have hcount : ¬(t = s ∧ SuccCount = 1) := fun h => hnot ht h.1
      rw [if_neg hcount, hmbb]
      split <;> rfl
    · rw [hmbb] at hts
      split at hts <;> exact hts
  · rw [buildCheckingBlockForSuccAndConds, if_neg hsame]
    exact edgeKept_split hF h

end Edge

/-! ## One block -/

variable {F : MachineCFG} {b : Nat}

/-- A successor that is listed once, if at all, and reached by a direct exit. -/
structure DirectSucc (F : MachineCFG) (b t : Nat) : Prop where
  once : (F.mbb b).succs.count t ≤ 1
  exit : t ∈ (F.mbb b).succs → ∃ e, (∀ x, e ≠ .indirect x) ∧ (∀ x, e ≠ .unwind x) ∧
    F.target b e = some t

/-- What the loop over the conditional branches leaves alone, those from position `j` on being
done. -/
structure CondsKept (F : MachineCFG) (b j : Nat) (L : CondLoop) : Prop where
  succs : ∀ c ∈ F.layout, c ≠ b → (L.cfg.mbb c).succs = (F.mbb c).succs
  isEHPad : ∀ c ∈ F.layout, (L.cfg.mbb c).isEHPad = (F.mbb c).isEHPad
  live : ∀ t ∈ F.layout, F.EnteredElsewhere b t →
    (L.cfg.mbb t).liveInEFLAGS = (F.mbb t).liveInEFLAGS
  /-- An edge into a block with other ways in is left as long as there are exits for it. -/
  count : ∀ t ∈ F.layout, F.EnteredElsewhere b t → F.DirectSucc b t →
    (L.cfg.mbb b).succs.count t ≤ 1 ∧
      (L.cfg.mbb b).succs.count t ≤ (F.pendingTargets b j).count t
  indirect : ∀ c ∈ L.cfg.layout, ∀ ts, (.indirect ts : Terminator) ∈ (L.cfg.mbb c).terms →
    c ∈ F.layout ∧ .indirect ts ∈ (F.mbb c).terms

theorem condsKept_init (L : CondLoop) (hL : L.cfg = F) :
    CondsKept F b (codes (F.mbb b).terms).length L := by
  subst hL
  refine ⟨fun _ _ _ => rfl, fun _ _ => rfl, fun _ _ _ => rfl, fun t _ _ ht => ⟨ht.once, ?_⟩,
    fun _ hc _ h => ⟨hc, h⟩⟩
  by_cases hmem : t ∈ (L.cfg.mbb b).succs
  · refine Nat.le_trans ht.once (List.count_pos_iff.mpr ?_)
    obtain ⟨e, hind, hunw, he⟩ := ht.exit hmem
    rw [mem_pendingTargets]
    cases e with
    | cond i =>
      refine .inr ⟨i, ?_, he⟩
      by_contra hi
      rw [target_cond_none (Nat.not_lt.mp hi)] at he
      cases he
    | uncond => exact .inl he
    | indirect x => exact absurd rfl (hind x)
    | unwind x => exact absurd rfl (hunw x)
  · rw [List.count_eq_zero.mpr hmem]
    exact Nat.zero_le _

theorem EnteredElsewhere.of_kept {G : MachineCFG} {t : Nat} (h : F.EnteredElsewhere b t)
    (hmem : ∀ c ∈ F.layout, c ∈ G.layout)
    (hsuccs : ∀ c ∈ F.layout, c ≠ b → (G.mbb c).succs = (F.mbb c).succs) :
    G.EnteredElsewhere b t := by
  obtain ⟨q, hq, hne, ht⟩ := h
  exact ⟨q, hmem q hq, hne, hsuccs q hq hne ▸ ht⟩

theorem CondsKept.step {j : Nat} {L : CondLoop} (hF : F.Consistent) (hb : F.Traceable b)
    (h : CondsTraced F b (j + 1) L) (hk : CondsKept F b (j + 1) L)
    (hj : j < (MSV.SLH.codes (F.mbb b).terms).length) :
    CondsKept F b j (traceCondBr b L j) := by
  obtain ⟨c, s, hc, hs, hL⟩ := h.branch hb hj
  have hedge := edgeKept [c.GetOppositeBranchCondition] h.consistent (h.traces hF hb hs)
  have helse {t : Nat} (ht : F.EnteredElsewhere b t) : L.cfg.EnteredElsewhere b t :=
    ht.of_kept h.mem hk.succs
  have hcfg : (traceCondBr b L j).cfg = (buildCheckingBlockForSuccAndConds L.cfg b s
      (L.SuccCounts s) (some j) L.UncondBr [c.GetOppositeBranchCondition]).1 := by
    simp only [traceCondBr, hL]
  rw [← hcfg] at hedge
  refine ⟨fun x hx hxb => ?_, fun x hx => ?_, fun t ht hent => ?_, fun t ht hent hdir => ?_,
    fun x hx ts hts => ?_⟩
  · exact (hedge.succs x (h.mem x hx) hxb).trans (hk.succs x hx hxb)
  · exact (hedge.isEHPad x (h.mem x hx)).trans (hk.isEHPad x hx)
  · exact (hedge.live t (h.mem t ht) (helse hent)).trans (hk.live t ht hent)
  · obtain ⟨hone, hpend⟩ := hk.count t ht hent hdir
    have hcount := hedge.count t (h.mem t ht) (helse hent)
    have hcounts := h.counts t
    rw [pendingTargets_succ hs, List.count_append, List.count_singleton] at hpend hcounts
    by_cases hts : t = s
    · subst hts
      rw [beq_self_eq_true, if_pos rfl] at hpend hcounts
      rw [hcounts] at hcount
      split_ifs at hcount with hlast <;> omega
    · have hne : (s == t) = false := beq_false_of_ne (Ne.symm hts)
      rw [hne, if_neg Bool.false_ne_true] at hpend
      rw [if_neg fun h => hts h.1] at hcount
      omega
  · obtain ⟨hx, hts⟩ := hedge.indirect x hx ts hts
    exact hk.indirect x hx ts hts

theorem CondsKept.loop {j : Nat} {L : CondLoop} (hF : F.Consistent) (hb : F.Traceable b)
    (h : CondsTraced F b j L) (hk : CondsKept F b j L)
    (hj : j ≤ (MSV.SLH.codes (F.mbb b).terms).length) :
    CondsKept F b 0 ((List.range j).reverse.foldl (traceCondBr b) L) := by
  induction j generalizing L with
  | zero => simpa using hk
  | succ j ih =>
    rw [List.range_succ, List.reverse_append, List.reverse_singleton, List.singleton_append,
      List.foldl_cons]
    exact ih (h.step hF hb hj) (hk.step hF hb h hj) (by omega)

/-- What tracing the edges of a block leaves alone. -/
structure BlockKept (F G : MachineCFG) (b : Nat) : Prop where
  succs : ∀ c ∈ F.layout, c ≠ b → (G.mbb c).succs = (F.mbb c).succs
  isEHPad : ∀ c ∈ F.layout, (G.mbb c).isEHPad = (F.mbb c).isEHPad
  live : ∀ t ∈ F.layout, F.EnteredElsewhere b t → (G.mbb t).liveInEFLAGS = (F.mbb t).liveInEFLAGS
  /-- No edge into a block with other ways in is left. -/
  split : ∀ t ∈ F.layout, F.EnteredElsewhere b t → F.DirectSucc b t → t ∉ (G.mbb b).succs
  indirect : ∀ c ∈ G.layout, ∀ ts, (.indirect ts : Terminator) ∈ (G.mbb c).terms →
    c ∈ F.layout ∧ .indirect ts ∈ (F.mbb c).terms

theorem blockKept (hF : F.Consistent) (hb : F.Traceable b) :
    BlockKept F (traceBlock F (F.infoOf b)) b := by
  have h : CondsTraced F b 0 ((F.infoOf b).CondBrs.foldl (traceCondBr (F.infoOf b).MBB)
      ⟨F, succCounts F (F.infoOf b), (F.infoOf b).UncondBr, []⟩) :=
    (condsTraced_init hF hb).loop hF hb le_rfl
  have hk : CondsKept F b 0 ((F.infoOf b).CondBrs.foldl (traceCondBr (F.infoOf b).MBB)
      ⟨F, succCounts F (F.infoOf b), (F.infoOf b).UncondBr, []⟩) :=
    CondsKept.loop hF hb (condsTraced_init hF hb) (condsKept_init _ rfl) le_rfl
  rw [traceBlock, uncondSucc_infoOf hb]
  set L := (F.infoOf b).CondBrs.foldl (traceCondBr (F.infoOf b).MBB)
    ⟨F, succCounts F (F.infoOf b), (F.infoOf b).UncondBr, []⟩
  have hpending : F.pendingTargets b 0 = (F.target b .uncond).toList := by
    simp [pendingTargets]
  cases hu : F.target b .uncond with
  | none =>
    show BlockKept F L.cfg b
    refine ⟨hk.succs, hk.isEHPad, hk.live, fun t ht hent hdir hmem => ?_, hk.indirect⟩
    obtain ⟨-, hpend⟩ := hk.count t ht hent hdir
    rw [hpending, hu] at hpend
    have hpos := List.count_pos_iff.mpr hmem
    simp only [Option.toList_none, List.count_nil] at hpend
    omega
  | some u =>
    have hedge := edgeKept (sortCodes L.UncondCodeSeq) h.consistent
      (h.traces_uncond hF hb hu)
    have helse {t : Nat} (ht : F.EnteredElsewhere b t) : L.cfg.EnteredElsewhere b t :=
      ht.of_kept h.mem hk.succs
    show BlockKept F (buildCheckingBlockForSuccAndConds L.cfg b u 1 L.UncondBr L.UncondBr
      (sortCodes L.UncondCodeSeq)).1 b
    refine ⟨fun c hc hcb => ?_, fun c hc => ?_, fun t ht hent => ?_, fun t ht hent hdir hmem => ?_,
      fun c hc ts hts => ?_⟩
    · exact (hedge.succs c (h.mem c hc) hcb).trans (hk.succs c hc hcb)
    · exact (hedge.isEHPad c (h.mem c hc)).trans (hk.isEHPad c hc)
    · exact (hedge.live t (h.mem t ht) (helse hent)).trans (hk.live t ht hent)
    · obtain ⟨hone, hpend⟩ := hk.count t ht hent hdir
      have hcount := hedge.count t (h.mem t ht) (helse hent)
      have hpos := List.count_pos_iff.mpr hmem
      rw [hpending, hu, Option.toList_some, List.count_singleton] at hpend
      by_cases htu : t = u
      · rw [if_pos ⟨htu, rfl⟩] at hcount
        omega
      · rw [if_neg fun h => htu h.1] at hcount
        rw [beq_false_of_ne (Ne.symm htu), if_neg Bool.false_ne_true] at hpend
        omega
    · obtain ⟨hc, hts⟩ := hedge.indirect c hc ts hts
      exact hk.indirect c hc ts hts

/-! ## All blocks -/

/-- A block is entered from one that is not among those to be traced. -/
def EnteredFromOutside (F : MachineCFG) (traced : List Nat) (t : Nat) : Prop :=
  ∃ q ∈ F.layout, q ∉ traced ∧ t ∈ (F.mbb q).succs

/-- What tracing the blocks in `done` leaves alone. -/
structure CFGKept (F G : MachineCFG) (traced done : List Nat) : Prop where
  succs : ∀ c ∈ F.layout, c ∉ done → (G.mbb c).succs = (F.mbb c).succs
  isEHPad : ∀ c ∈ F.layout, (G.mbb c).isEHPad = (F.mbb c).isEHPad
  live : ∀ t ∈ F.layout, F.EnteredFromOutside traced t →
    (G.mbb t).liveInEFLAGS = (F.mbb t).liveInEFLAGS
  split : ∀ b ∈ done, ∀ t ∈ F.layout, F.EnteredFromOutside traced t → F.DirectSucc b t →
    t ∉ (G.mbb b).succs
  indirect : ∀ c ∈ G.layout, ∀ ts, (.indirect ts : Terminator) ∈ (G.mbb c).terms →
    c ∈ F.layout ∧ .indirect ts ∈ (F.mbb c).terms

theorem cfgKept_init (traced : List Nat) : CFGKept F F traced [] where
  succs := fun _ _ _ => rfl
  isEHPad := fun _ _ => rfl
  live := fun _ _ _ => rfl
  split := fun _ h => absurd h List.not_mem_nil
  indirect := fun _ hc _ h => ⟨hc, h⟩

theorem CFGKept.step {G : MachineCFG} {traced done : List Nat} (hF : F.Consistent)
    (h : CFGTraced F G done) (hk : CFGKept F G traced done)
    (hdone : ∀ c ∈ done, c ∈ traced ∧ c ∈ F.layout) (hb : F.Traceable b) (hmem : b ∈ traced) (hnew : b ∉ done) :
    CFGKept F (traceBlock G (F.infoOf b)) traced (b :: done) := by
  obtain ⟨hG, hinfo⟩ := h.traceable hF hb hnew
  have hblock := blockKept h.consistent hG
  rw [hinfo]
  have helse {c t : Nat} (hc : c ∈ traced) (ht : F.EnteredFromOutside traced t) :
      G.EnteredElsewhere c t := by
    obtain ⟨q, hq, hqt, htq⟩ := ht
    refine ⟨q, h.mem q hq, fun hqc => hqt (hqc ▸ hc), ?_⟩
    rwa [hk.succs q hq fun hqd => hqt (hdone q hqd).1]
  refine ⟨fun c hc hcd => ?_, fun c hc => ?_, fun t ht hout => ?_, fun c hc t ht hout hdir => ?_,
    fun c hc ts hts => ?_⟩
  · obtain ⟨hcb, hcd⟩ := not_or.mp fun h' => hcd (List.mem_cons.mpr h')
    exact (hblock.succs c (h.mem c hc) hcb).trans (hk.succs c hc hcd)
  · exact (hblock.isEHPad c (h.mem c hc)).trans (hk.isEHPad c hc)
  · exact (hblock.live t (h.mem t ht) (helse hmem hout)).trans (hk.live t ht hout)
  · have hsuccs := hk.succs b hb.mem hnew
    by_cases hcb : c = b
    · subst hcb
      refine hblock.split t (h.mem t ht) (helse hmem hout) ⟨?_, fun htc => ?_⟩
      · rw [hsuccs]
        exact hdir.once
      · obtain ⟨e, hind, hunw, he⟩ := hdir.exit (hsuccs ▸ htc)
        exact ⟨e, hind, hunw, (h.target c hb.mem hnew e).trans he⟩
    · have hcd := (List.mem_cons.mp hc).resolve_left hcb
      rw [hblock.succs c (h.mem c (hdone c hcd).2) hcb]
      exact hk.split c hcd t ht hout hdir
  · obtain ⟨hc, hts⟩ := hblock.indirect c hc ts hts
    exact hk.indirect c hc ts hts

theorem CFGKept.loop {traced : List Nat} (hF : F.Consistent) (l : List Nat) {G : MachineCFG}
    {done : List Nat} (h : CFGTraced F G done) (hk : CFGKept F G traced done)
    (hdone : ∀ c ∈ done, c ∈ traced ∧ c ∈ F.layout) (hl : l.Nodup)
    (hb : ∀ b ∈ l, F.Traceable b ∧ b ∉ done) (hmem : ∀ b ∈ l, b ∈ traced) :
    CFGKept F (tracePredStateThroughCFG G (l.map F.infoOf)) traced (l.reverse ++ done) := by
  induction l generalizing G done with
  | nil => exact hk
  | cons b l ih =>
    obtain ⟨hbl, hl⟩ := List.nodup_cons.mp hl
    obtain ⟨htraceable, hnew⟩ := hb b List.mem_cons_self
    have hbmem := hmem b List.mem_cons_self
    have hrest := ih (h.step hF htraceable hnew) (hk.step hF h hdone htraceable hbmem hnew)
      (by
        intro c hc
        obtain rfl | hc := List.mem_cons.mp hc
        · exact ⟨hbmem, htraceable.mem⟩
        · exact hdone c hc) hl
      (fun c hc => ⟨(hb c (List.mem_cons_of_mem _ hc)).1, fun h' => by
        obtain rfl | h' := List.mem_cons.mp h'
        · exact hbl hc
        · exact (hb c (List.mem_cons_of_mem _ hc)).2 h'⟩)
      (fun c hc => hmem c (List.mem_cons_of_mem _ hc))
    simpa [tracePredStateThroughCFG] using hrest

/-- The blocks that are traced. -/
def tracedBlocks (F : MachineCFG) : List Nat := F.layout.filter fun b => F.isTraced b

theorem WellFormed.kept (hF : F.WellFormed) :
    CFGKept (canonicalizePHIOperands F) (traceCFG F) F.tracedBlocks F.tracedBlocks.reverse := by
  have hloop := CFGKept.loop hF.consistent F.tracedBlocks (cfgTraced_init hF.consistent)
    (cfgKept_init F.tracedBlocks) (fun _ h => absurd h List.not_mem_nil) (hF.nodup.filter _)
    (fun b hb => ⟨hF.traceable (List.mem_filter.mp hb).1
      (of_decide_eq_true (List.mem_filter.mp hb).2), List.not_mem_nil⟩) (fun _ hb => hb)
  have hinfo : (canonicalizePHIOperands F).infoOf = F.infoOf := rfl
  rw [hinfo, List.append_nil] at hloop
  rw [traceCFG, collectBlockCondInfo_eq]
  exact hloop

end MachineCFG

open MachineCFG

/-! ## Indirect branches -/

variable {F : MachineCFG} {jumpOp : Nat → JumpOp}

/-- What the pass relies on about a function. Blocks with conditional branches do not end in an
indirect one, and list the targets of indirect branches once and for a direct exit only. The other
blocks are as the pass requires. -/
structure Acceptable (F : MachineCFG) (jumpOp : Nat → JumpOp) : Prop where
  collectible : ∀ b ∈ F.layout, Collectible F jumpOp b
  indirect : ∀ b ∈ F.layout, F.isTraced b → ∀ ts, .indirect ts ∉ (F.mbb b).terms
  direct : ∀ b ∈ F.layout, F.isTraced b → ∀ t ∈ targetsIn F jumpOp, F.DirectSucc b t
  entries : ∀ t ∈ targetsIn F jumpOp, ∀ p ∈ F.predecessors t, F.isTraced p ∨
    MayEnter F (jumpsIn F jumpOp) t p
  fit : TargetsFit F jumpOp

theorem mem_terms_of_jumpReg? {b : Nat} {r : Reg} (h : jumpReg? F jumpOp b = some r) :
    ∃ ts, (.indirect ts : Terminator) ∈ (F.mbb b).terms := by
  unfold jumpReg? at h
  cases hlast : (F.mbb b).terms.getLast? with
  | none => simp [hlast] at h
  | some t =>
    cases t with
    | indirect ts => exact ⟨ts, List.mem_of_getLast? hlast⟩
    | _ => simp [hlast] at h

theorem collectible_of_direct {b : Nat} (h : ∀ ts, (.indirect ts : Terminator) ∉ (F.mbb b).terms) :
    Collectible F jumpOp b := by
  unfold Collectible
  cases hlast : (F.mbb b).terms.getLast? with
  | none => trivial
  | some t =>
    cases t with
    | indirect ts => exact absurd (List.mem_of_getLast? hlast) (h ts)
    | _ => trivial

theorem target_mem_layout (hF : F.WellFormed) {t : Nat} (ht : t ∈ targetsIn F jumpOp) :
    t ∈ F.layout := by
  obtain ⟨b, hb, htb⟩ := List.mem_flatMap.mp ht
  exact hF.succs_mem b (mem_jumpsIn.mp hb).1 t htb

theorem Acceptable.notMem_traced (hA : Acceptable F jumpOp) {b : Nat} (hb : b ∈ F.layout) {ts : List Nat}
    (hts : (.indirect ts : Terminator) ∈ (F.mbb b).terms) : b ∉ F.tracedBlocks.reverse := by
  intro h
  have htraced := of_decide_eq_true (List.mem_filter.mp (List.mem_reverse.mp h)).2
  exact hA.indirect b hb htraced ts hts

theorem Acceptable.jumps_notMem_traced (hA : Acceptable F jumpOp) {b : Nat}
    (hb : b ∈ jumpsIn F jumpOp) : b ∉ F.tracedBlocks.reverse := by
  obtain ⟨hbF, hr⟩ := mem_jumpsIn.mp hb
  obtain ⟨r, hr⟩ := Option.isSome_iff_exists.mp hr
  obtain ⟨ts, hts⟩ := mem_terms_of_jumpReg? hr
  exact hA.notMem_traced hbF hts

/-- A target is entered by its indirect branch, whose block is not traced. -/
theorem Acceptable.enteredFromOutside (hA : Acceptable F jumpOp) {t : Nat}
    (ht : t ∈ targetsIn F jumpOp) :
    (canonicalizePHIOperands F).EnteredFromOutside F.tracedBlocks t := by
  obtain ⟨b, hb, htb⟩ := List.mem_flatMap.mp ht
  exact ⟨b, (mem_jumpsIn.mp hb).1, fun h => hA.jumps_notMem_traced hb (List.mem_reverse.mpr h), htb⟩

section Traced

variable (hF : F.WellFormed) (hA : Acceptable F jumpOp)

include hF hA

theorem jumpReg?_traceCFG {b : Nat} (hb : b ∈ (traceCFG F).layout) {r : Reg} :
    jumpReg? (traceCFG F) jumpOp b = some r ↔ b ∈ F.layout ∧ jumpReg? F jumpOp b = some r := by
  have hsame (hbF : b ∈ F.layout) {ts : List Nat}
      (hts : (.indirect ts : Terminator) ∈ (F.mbb b).terms) :
      jumpReg? (traceCFG F) jumpOp b = jumpReg? F jumpOp b := by
    have hterms := hF.traced.terms b hbF (hA.notMem_traced hbF hts)
    rw [jumpReg?, hterms]
    rfl
  constructor
  · intro h
    obtain ⟨ts, hts⟩ := mem_terms_of_jumpReg? h
    obtain ⟨hbF, hts⟩ := hF.kept.indirect b hb ts hts
    exact ⟨hbF, (hsame hbF hts).symm.trans h⟩
  · rintro ⟨hbF, h⟩
    obtain ⟨ts, hts⟩ := mem_terms_of_jumpReg? h
    exact (hsame hbF hts).trans h

theorem mem_jumpsIn_traceCFG {b : Nat} :
    b ∈ jumpsIn (traceCFG F) jumpOp ↔ b ∈ jumpsIn F jumpOp := by
  simp only [mem_jumpsIn, Option.isSome_iff_exists]
  constructor
  · rintro ⟨hb, r, hr⟩
    obtain ⟨hbF, hr⟩ := (jumpReg?_traceCFG hF hA hb).mp hr
    exact ⟨hbF, r, hr⟩
  · rintro ⟨hbF, r, hr⟩
    have hb := hF.traced.mem b hbF
    exact ⟨hb, r, (jumpReg?_traceCFG hF hA hb).mpr ⟨hbF, hr⟩⟩

theorem mem_targetsIn_traceCFG {t : Nat} :
    t ∈ targetsIn (traceCFG F) jumpOp ↔ t ∈ targetsIn F jumpOp := by
  simp only [targetsIn, List.mem_flatMap]
  have hsuccs {b : Nat} (hb : b ∈ jumpsIn F jumpOp) :
      ((traceCFG F).mbb b).succs = (F.mbb b).succs :=
    hF.kept.succs b (mem_jumpsIn.mp hb).1 (hA.jumps_notMem_traced hb)
  constructor
  · rintro ⟨b, hb, ht⟩
    have hb := (mem_jumpsIn_traceCFG hF hA).mp hb
    exact ⟨b, hb, hsuccs hb ▸ ht⟩
  · rintro ⟨b, hb, ht⟩
    exact ⟨b, (mem_jumpsIn_traceCFG hF hA).mpr hb, (hsuccs hb).symm ▸ ht⟩

end Traced

/-! ### A branch past a jump table -/

/-- A branch to one of the targets of a jump table, which is in the other block. -/
def branchPastTable : MachineCFG where
  layout := [0, 1, 2, 3]
  mbb := fun b => match b with
    | 0 => { terms := [.jcc .COND_E 2], succs := [1, 2] }
    | 1 => { terms := [.indirect [2, 3]], succs := [2, 3] }
    | _ => { terms := [.other] }
  fresh := 4

theorem branchPastTable_target {b t : Nat} {e : Exit} (hb : b ∈ branchPastTable.layout)
    (ht : branchPastTable.target b e = some t) :
    (b = 0 ∧ e = .cond 0 ∧ t = 2) ∨ (b = 0 ∧ e = .uncond ∧ t = 1) ∨
      (b = 1 ∧ e = .indirect t ∧ (t = 2 ∨ t = 3)) := by
  have hpad (x : Nat) : (branchPastTable.mbb x).isEHPad = false := by
    simp only [branchPastTable]
    split <;> rfl
  have hconds : conds [.indirect [2, 3]] = [] := rfl
  have hbarrier : barrier [.indirect [2, 3]] = some (.indirect [2, 3]) := rfl
  simp only [branchPastTable, List.mem_cons, List.not_mem_nil, or_false] at hb
  obtain rfl | rfl | rfl | rfl := hb <;> cases e with
  | cond i =>
    cases i <;> simp_all [target, branchPastTable, Terminator.getMBB]
  | uncond => simp_all [target, branchPastTable, layoutSucc, nextIn, Option.filter]
  | indirect x =>
    simp [target, branchPastTable, hbarrier] at ht <;> simp [← ht.2, ht.1]
  | unwind x => simp [target, hpad] at ht

theorem branchPastTable_wellFormed : branchPastTable.WellFormed where
  nodup := by decide
  lt_fresh := by decide
  succs_mem := by decide
  target_succ := fun b hb e t ht => by
    obtain ⟨rfl, -, rfl⟩ | ⟨rfl, -, rfl⟩ | ⟨rfl, -, rfl | rfl⟩ := branchPastTable_target hb ht <;>
      decide
  not_pad := fun b hb e t _ ht => by
    obtain ⟨-, -, rfl⟩ | ⟨-, -, rfl⟩ | ⟨-, -, rfl | rfl⟩ := branchPastTable_target hb ht <;> rfl
  falls := by decide
  phi_mem := by decide
  disjoint := fun b hb i t x h h' => by
    obtain ⟨rfl, -, -⟩ | ⟨-, h, -⟩ | ⟨-, h, -⟩ := branchPastTable_target hb h
    · obtain ⟨-, h', -⟩ | ⟨-, h', -⟩ | ⟨h', -, -⟩ := branchPastTable_target hb h' <;> simp at h'
    · simp at h
    · simp at h
  plain := by decide

theorem targetsIn_branchPastTable : targetsIn branchPastTable throughRegister = [2, 3] := by decide

theorem branchPastTable_acceptable : Acceptable branchPastTable throughRegister where
  collectible := by
    intro b hb
    simp only [branchPastTable, List.mem_cons, List.not_mem_nil, or_false] at hb
    obtain rfl | rfl | rfl | rfl := hb <;> simp [Collectible, branchPastTable, throughRegister]
  indirect := by
    intro b hb htraced ts hts
    simp only [branchPastTable, List.mem_cons, List.not_mem_nil, or_false] at hb
    obtain rfl | rfl | rfl | rfl := hb <;>
      simp_all [isTraced, branchPastTable, codes, conds, Terminator.isJcc]
  direct := by
    intro b hb htraced t ht
    rw [targetsIn_branchPastTable] at ht
    simp only [branchPastTable, List.mem_cons, List.not_mem_nil, or_false] at hb ht
    obtain rfl | rfl | rfl | rfl := hb
    · obtain rfl | rfl := ht
      · exact ⟨by decide, fun _ => ⟨.cond 0, by simp, by simp, rfl⟩⟩
      · exact ⟨by decide, fun h => absurd h (by decide)⟩
    all_goals exact absurd htraced (by decide)
  entries := by
    intro t ht p hp
    rw [targetsIn_branchPastTable] at ht
    obtain ⟨hp, htp⟩ := List.mem_filter.mp hp
    simp only [branchPastTable, List.mem_cons, List.not_mem_nil, or_false] at hp ht
    obtain rfl | rfl | rfl | rfl := hp
    · exact .inl (by decide)
    · exact .inr (.inl (by decide))
    all_goals simp [branchPastTable] at htp
  fit := fun t _ => by
    simp only [branchPastTable]
    split <;> exact ⟨rfl, rfl⟩

end MSV.SLH
