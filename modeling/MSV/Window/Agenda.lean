import MSV.Lib.Worklist
import MSV.Window.WindowProof

/-!
# The pass as a worklist

`WindowEnv.successors` says where `explore` goes from a configuration, whatever else there is to do.
The configurations the pass is still to go on from are those at the cursor and in the tasks, its
agenda. A turn of the loop replaces the first of them by its successors, so the pass is the search
of `MSV.Lib.Worklist` (`Survey.refines`), as long as every exploration starts with an empty call
stack and what is left out has been explored with a call stack that leads to as much.
-/

namespace MSV

variable {M : Module} (E : WindowEnv M)

/-! ## Where `explore` goes -/

namespace WindowEnv

/-- At the end of a function: behind the call on top, or behind the calls of the function. -/
def returnsTo (f : Function) (pending : List Site) (n : Nat) : List Config :=
  match pending with
  | [] =>
      if E.isRecursive f.id then []
      else ((E.functionCallSiteMap f.id).filter fun s => !E.isRecursive s.func.id).flatMap
        fun s => s.landings.map (⟨·, [], n⟩)
  | s :: rest => s.landings.map (⟨·, rest, n⟩)

/-- At the end of a block. -/
def afterBlock (p : Pos) (pending : List Site) (n : Nat) : List Config :=
  match p.block.terminator with
  | none => []
  | some t =>
      match t.kind with
      | .switch .. | .condBr .. => []
      | .invoke _ _ normal unwind =>
          if (t.calledFunction.bind M.functionStart).isNone then
            (p.func.blockStart normal).toList.map (⟨·, pending, n + 1⟩) ++
              if unwind ≠ normal then (p.func.blockStart unwind).toList.map (⟨·, pending, n⟩)
              else []
          else E.returnsTo p.func pending n
      | k =>
          match k.successors with
          | [s] => (p.func.blockStart s).toList.map (⟨·, pending, n⟩)
          | _ => E.returnsTo p.func pending n

/-- Where `explore` goes from a configuration. -/
def successors (c : Config) : List Config :=
  match c.pos.todo with
  | [] => E.afterBlock c.pos c.pending c.count
  | i :: rest =>
      match E.entered i with
      | some q => [⟨q, ⟨c.pos.func, c.pos.block, i⟩ :: c.pending, c.count + 1⟩]
      | none => [⟨{ c.pos with todo := rest }, c.pending, c.count + M.weight i⟩]

/-- Within the window. -/
def Live (c : Config) : Prop := (c.count : Int) < E.windowSize

end WindowEnv

/-- The instruction a configuration is at. -/
def Config.instId (c : Config) : Option InstId := c.pos.todo.head?.map Inst.id

/-- At the same place with a smaller count, and without some of the pending calls at the bottom:
with none pending `explore` goes back to every call that is not in a recursive function. -/
structure Config.Covers (d c : Config) : Prop where
  pos : d.pos = c.pos
  pending : ∃ l, c.pending = d.pending ++ l ∧ ∀ s ∈ l, E.isRecursive s.func.id = false
  count : d.count ≤ c.count

variable {E}

theorem mem_returnsTo_nil {f : Function} {n : Nat} {c : Config} :
    c ∈ E.returnsTo f [] n ↔ E.isRecursive f.id = false ∧ ∃ s ∈ M.callSitesOf f.id,
      E.isRecursive s.func.id = false ∧ ∃ q ∈ s.landings, ⟨q, [], n⟩ = c := by
  unfold WindowEnv.returnsTo
  cases hrec : E.isRecursive f.id with
  | true => simp
  | false => simp [(E.callSites_perm f.id).mem_iff, and_assoc]

theorem mem_returnsTo_cons {f : Function} {s : Site} {rest : List Site} {n : Nat} {c : Config} :
    c ∈ E.returnsTo f (s :: rest) n ↔ ∃ q ∈ s.landings, ⟨q, rest, n⟩ = c := List.mem_map

/-- A block ends with edges, which leave the pending calls alone, or as the function does. -/
theorem afterBlock_cases (p : Pos) :
    (∃ es : List (Pos × Nat), (∀ e ∈ es, ∃ s, p.func.blockStart s = some e.1) ∧
      ∀ k n, E.afterBlock p k n = es.map fun e => ⟨e.1, k, n + e.2⟩) ∨
    ∀ k n, E.afterBlock p k n = E.returnsTo p.func k n := by
  have hdest : ∀ (s : BlockId) (m : Nat), ∀ e ∈ (p.func.blockStart s).toList.map (·, m),
      ∃ s, p.func.blockStart s = some e.1 := by
    intro s m e he
    obtain ⟨q, hq, rfl⟩ := List.mem_map.mp he
    exact ⟨s, Option.mem_toList.mp hq⟩
  unfold WindowEnv.afterBlock
  split
  · exact .inl ⟨[], by simp, fun _ _ => rfl⟩
  · split
    · exact .inl ⟨[], by simp, fun _ _ => rfl⟩
    · exact .inl ⟨[], by simp, fun _ _ => rfl⟩
    · rename_i normal unwind _
      split_ifs with hcallee hne
      · refine .inl ⟨(p.func.blockStart normal).toList.map (·, 1) ++
          (p.func.blockStart unwind).toList.map (·, 0), fun e he => ?_, fun k n => ?_⟩
        · exact (List.mem_append.mp he).elim (hdest _ _ e) (hdest _ _ e)
        · rw [List.map_append, List.map_map, List.map_map]
          rfl
      · exact .inl ⟨(p.func.blockStart normal).toList.map (·, 1), hdest _ _, fun k n => by simp⟩
      · exact .inr fun _ _ => rfl
    · split
      · rename_i s _
        exact .inl ⟨(p.func.blockStart s).toList.map (·, 0), hdest _ _, fun k n => by simp⟩
      · exact .inr fun _ _ => rfl

/-- The successors of a configuration that is not at the end of a block. -/
theorem successors_cons {c : Config} {i : Inst} {rest : List Inst} (h : c.pos.todo = i :: rest) :
    (∃ q, E.entered i = some q ∧
      E.successors c = [⟨q, ⟨c.pos.func, c.pos.block, i⟩ :: c.pending, c.count + 1⟩]) ∨
    E.entered i = none ∧
      E.successors c = [⟨{ c.pos with todo := rest }, c.pending, c.count + M.weight i⟩] := by
  unfold WindowEnv.successors
  rw [h]
  cases hent : E.entered i with
  | some q => exact .inl ⟨q, rfl, by dsimp only; rw [hent]⟩
  | none => exact .inr ⟨rfl, by dsimp only; rw [hent]⟩

theorem successors_nil {c : Config} (h : c.pos.todo = []) :
    E.successors c = E.afterBlock c.pos c.pending c.count := by
  unfold WindowEnv.successors
  rw [h]

/-! ## Covering -/

theorem count_of_mem_returnsTo {f : Function} {k : List Site} {n : Nat} {c : Config}
    (h : c ∈ E.returnsTo f k n) : c.count = n := by
  cases k with
  | nil =>
      obtain ⟨-, s, -, -, q, -, rfl⟩ := mem_returnsTo_nil.mp h
      rfl
  | cons s rest =>
      obtain ⟨q, -, rfl⟩ := mem_returnsTo_cons.mp h
      rfl

theorem count_le_of_mem_successors {c c' : Config} (h : c' ∈ E.successors c) :
    c.count ≤ c'.count := by
  cases hp : c.pos.todo with
  | cons i rest =>
      obtain ⟨q, -, hsucc⟩ | ⟨-, hsucc⟩ := successors_cons (E := E) hp
      · rw [hsucc, List.mem_singleton] at h
        rw [h]
        exact Nat.le_succ _
      · rw [hsucc, List.mem_singleton] at h
        rw [h]
        exact Nat.le_add_right _ _
  | nil =>
      rw [successors_nil hp] at h
      obtain ⟨es, -, hedges⟩ | hreturn := afterBlock_cases (E := E) c.pos
      · rw [hedges] at h
        obtain ⟨e, -, rfl⟩ := List.mem_map.mp h
        exact Nat.le_add_right _ _
      · rw [hreturn] at h
        exact (count_of_mem_returnsTo h).ge

/-- What `explore` goes to is on a path. -/
theorem OnPath.successor (hM : M.WF) {c c' : Config} (h : OnPath E c) (hc' : c' ∈ E.successors c) :
    OnPath E c' := by
  cases hp : c.pos.todo with
  | cons i rest =>
      obtain ⟨q, hent, hsucc⟩ | ⟨-, hsucc⟩ := successors_cons (E := E) hp
      · rw [hsucc, List.mem_singleton] at hc'
        rw [hc']
        exact h.step E hM (.enter hp hent)
      · rw [hsucc, List.mem_singleton] at hc'
        rw [hc']
        exact ⟨h.wf.rest hp, h.pending⟩
  | nil =>
      rw [successors_nil hp] at hc'
      obtain ⟨es, hes, hedges⟩ | hreturn := afterBlock_cases (E := E) c.pos
      · rw [hedges] at hc'
        obtain ⟨e, he, rfl⟩ := List.mem_map.mp hc'
        obtain ⟨s, hs⟩ := hes e he
        refine ⟨(blockStart_ne_nil hM h.wf.func hs).1, ?_⟩
        obtain ⟨b, -, heq⟩ := blockStart_eq hs
        show Pending E e.1.func c.pending
        rw [heq]
        exact h.pending
      · rw [hreturn] at hc'
        have hpending := h.pending
        cases hk : c.pending with
        | nil =>
            rw [hk] at hc'
            obtain ⟨-, s, hs, -, q, hq, rfl⟩ := mem_returnsTo_nil.mp hc'
            exact ⟨(wf_of_mem_landings hM (wf_of_mem_callSitesOf hs) hq).1, trivial⟩
        | cons s rest =>
            rw [hk] at hc' hpending
            obtain ⟨q, hq, rfl⟩ := mem_returnsTo_cons.mp hc'
            obtain ⟨hsite, -, hrest⟩ := hpending
            obtain ⟨hwf, -, hfunc⟩ := wf_of_mem_landings hM (wf_of_mem_callSitesOf hsite) hq
            refine ⟨hwf, ?_⟩
            show Pending E q.func rest
            rw [hfunc]
            exact hrest

/-- A return is answered with fewer calls pending. -/
theorem returnsTo_answer {f : Function} {k l : List Site} {n n' : Nat} {c' : Config}
    (hpending : Pending E f (k ++ l)) (hl : ∀ s ∈ l, E.isRecursive s.func.id = false)
    (hn : n ≤ n') (h : c' ∈ E.returnsTo f (k ++ l) n') :
    ∃ d' ∈ E.returnsTo f k n, d'.Covers E c' := by
  cases k with
  | nil =>
      cases l with
      | nil =>
          obtain ⟨hrec, s, hs, hsrec, q, hq, rfl⟩ := mem_returnsTo_nil.mp h
          exact ⟨⟨q, [], n⟩, mem_returnsTo_nil.mpr ⟨hrec, s, hs, hsrec, q, hq, rfl⟩, rfl,
            ⟨[], rfl, hl⟩, hn⟩
      | cons s rest =>
          obtain ⟨q, hq, rfl⟩ := mem_returnsTo_cons.mp h
          obtain ⟨hsite, hrec, -⟩ := hpending
          exact ⟨⟨q, [], n⟩, mem_returnsTo_nil.mpr
            ⟨hrec, s, hsite, hl s List.mem_cons_self, q, hq, rfl⟩, rfl,
            ⟨rest, rfl, fun s' hs' => hl s' (List.mem_cons_of_mem s hs')⟩, hn⟩
  | cons s k =>
      obtain ⟨q, hq, rfl⟩ := mem_returnsTo_cons.mp h
      exact ⟨⟨q, k, n⟩, mem_returnsTo_cons.mpr ⟨q, hq, rfl⟩, rfl, ⟨l, rfl, hl⟩, hn⟩

theorem Config.Covers.answer {d c c' : Config} (hc : OnPath E c) (hd : d.Covers E c)
    (h : c' ∈ E.successors c) : ∃ d' ∈ E.successors d, d'.Covers E c' := by
  obtain ⟨p, k, n⟩ := d
  obtain ⟨hpos, ⟨l, hk, hl⟩, hcount⟩ := hd
  obtain rfl : p = c.pos := hpos
  cases hp : c.pos.todo with
  | cons i rest =>
      obtain ⟨q, hent, hsucc⟩ | ⟨hent, hsucc⟩ := successors_cons (E := E) hp
      · rw [hsucc, List.mem_singleton] at h
        refine ⟨⟨q, ⟨c.pos.func, c.pos.block, i⟩ :: k, n + 1⟩, ?_, ?_⟩
        · unfold WindowEnv.successors
          simp [hp, hent]
        · rw [h]
          refine ⟨rfl, ⟨l, ?_, hl⟩, Nat.add_le_add_right hcount 1⟩
          show _ :: c.pending = _
          rw [hk]
          rfl
      · rw [hsucc, List.mem_singleton] at h
        refine ⟨⟨{ c.pos with todo := rest }, k, n + M.weight i⟩, ?_, ?_⟩
        · unfold WindowEnv.successors
          simp [hp, hent]
        · rw [h]
          exact ⟨rfl, ⟨l, hk, hl⟩, Nat.add_le_add_right hcount _⟩
  | nil =>
      rw [successors_nil hp] at h
      rw [successors_nil (c := ⟨c.pos, k, n⟩) hp]
      obtain ⟨es, -, hedges⟩ | hreturn := afterBlock_cases (E := E) c.pos
      · rw [hedges] at h ⊢
        obtain ⟨e, he, rfl⟩ := List.mem_map.mp h
        exact ⟨_, List.mem_map.mpr ⟨e, he, rfl⟩, rfl, ⟨l, hk, hl⟩,
          Nat.add_le_add_right hcount e.2⟩
      · rw [hreturn] at h ⊢
        have hpending := hc.pending
        rw [hk] at hpending h
        exact returnsTo_answer hpending hl hcount h

theorem covering (hM : M.WF) :
    Worklist.Covering E.successors E.Live (Config.Covers E) (OnPath E) where
  refl := fun c => ⟨rfl, ⟨[], (List.append_nil _).symm, fun s hs => nomatch hs⟩, le_rfl⟩
  trans := by
    intro a b c hab hbc
    obtain ⟨hpos, ⟨l, hl, hlrec⟩, hcount⟩ := hab
    obtain ⟨hpos', ⟨l', hl', hlrec'⟩, hcount'⟩ := hbc
    refine ⟨hpos.trans hpos', ⟨l ++ l', by rw [hl', hl, List.append_assoc], fun s hs => ?_⟩,
      hcount.trans hcount'⟩
    exact (List.mem_append.mp hs).elim (hlrec s) (hlrec' s)
  live := by
    intro d c hdc hlive
    have hcount := hdc.count
    unfold WindowEnv.Live at hlive ⊢
    omega
  back := by
    intro c c' hc' hlive
    have hcount := count_le_of_mem_successors hc'
    unfold WindowEnv.Live at hlive ⊢
    omega
  good := fun hgood hc' => hgood.successor hM hc'
  answer := fun hgood hdc hc' => hdc.answer hgood hc'

/-! ## The agenda -/

/-- A task of `analyzeFunction` or of the queue. -/
def Task.isOuter : Task → Bool
  | .start _ | .clear | .callees _ => true
  | .explore _ | .restore .. => false

/-- Every call of `explore` stands right behind what puts the counter and the stack back, or is the
first task where they are known, and none stands behind the tasks of `analyzeFunction`. -/
def Guarded : Bool → List Task → Prop
  | _, [] => True
  | known, .explore _ :: ts => known = true ∧ Guarded false ts
  | _, .restore .. :: ts => Guarded true ts
  | _, _ :: ts => ∀ u ∈ ts, u.isOuter = true

theorem guarded_of_outer {ts : List Task} (h : ∀ u ∈ ts, u.isOuter = true) (known : Bool) :
    Guarded known ts := by
  cases ts with
  | nil => trivial
  | cons u ts =>
      have hts : ∀ v ∈ ts, v.isOuter = true := fun v hv => h v (List.mem_cons_of_mem u hv)
      cases u with
      | explore p => cases h _ List.mem_cons_self
      | restore n l => cases h _ List.mem_cons_self
      | _ => exact hts

theorem Guarded.known {ts : List Task} (h : Guarded false ts) (known : Bool) :
    Guarded known ts := by
  cases ts with
  | nil => trivial
  | cons u ts =>
      cases u with
      | explore p => cases h.1
      | _ => exact h

theorem plan_of_guarded {ts : List Task} (h : Guarded false ts) (k : Option (Nat × List Site)) :
    plan k ts = plan none ts := by
  cases ts with
  | nil => rfl
  | cons u ts =>
      cases u with
      | explore p => cases h.1
      | _ => rfl

theorem plan_of_outer {ts : List Task} (h : ∀ u ∈ ts, u.isOuter = true)
    (k : Option (Nat × List Site)) : plan k ts = [] := by
  induction ts generalizing k with
  | nil => rfl
  | cons u ts ih =>
      have hts := ih fun v hv => h v (List.mem_cons_of_mem u hv)
      cases u with
      | explore p => cases h _ List.mem_cons_self
      | restore n l => cases h _ List.mem_cons_self
      | _ => exact hts none

/-- Tasks that `explore` puts in front of the others. -/
theorem Guarded.append {us ts : List Task} {known : Bool} (hus : Guarded known us)
    (hinner : ∀ u ∈ us, u.isOuter = false) (hts : Guarded false ts) : Guarded known (us ++ ts) := by
  induction us generalizing known with
  | nil => exact hts.known known
  | cons u us ih =>
      have hinner' : ∀ v ∈ us, v.isOuter = false := fun v hv => hinner v (List.mem_cons_of_mem u hv)
      cases u with
      | explore p => exact ⟨hus.1, ih hus.2 hinner'⟩
      | restore n l =>
          have hus' : Guarded true us := hus
          exact ih hus' hinner'
      | _ => cases hinner _ List.mem_cons_self

theorem plan_append {us ts : List Task} (hts : Guarded false ts) (k : Option (Nat × List Site)) :
    plan k (us ++ ts) = plan k us ++ plan none ts := by
  induction us generalizing k with
  | nil => exact plan_of_guarded hts k
  | cons u us ih =>
      cases u with
      | explore p =>
          show _ ++ plan none (us ++ ts) = (_ ++ plan none us) ++ plan none ts
          rw [ih, List.append_assoc]
      | _ => exact ih _

namespace Window

/-- The configuration at the cursor. -/
def here (w : Window) : List Config := w.cursor.toList.map (⟨·, w.callStack, w.step⟩)

/-- The configurations the pass is still to go on from. -/
def agenda (w : Window) : List Config := w.here ++ w.planned

theorem agenda_of_cursor {w : Window} {p : Pos} (hw : w.cursor = some p) :
    w.agenda = ⟨p, w.callStack, w.step⟩ :: plan none w.tasks := by
  unfold agenda here
  rw [Track.planned_of_cursor hw, hw]
  rfl

theorem agenda_of_none {w : Window} (hw : w.cursor = none) :
    w.agenda = plan (some (w.step, w.callStack)) w.tasks := by
  unfold agenda here
  rw [Track.planned_of_none hw, hw]
  rfl

theorem agenda_leave {w : Window} (us : List Task) (h : Guarded false w.tasks) :
    (w.leave us).agenda = plan (some (w.step, w.callStack)) us ++ plan none w.tasks := by
  rw [agenda_of_none rfl]
  exact plan_append h _

/-- The cursor goes somewhere else, or the block is not there. -/
theorem agenda_moved {w : Window} (q : Option Pos) (h : Guarded false w.tasks) :
    { w with cursor := q }.agenda =
      q.toList.map (⟨·, w.callStack, w.step⟩) ++ plan none w.tasks := by
  cases q with
  | some q => rw [agenda_of_cursor rfl]; rfl
  | none => rw [agenda_of_none rfl]; exact plan_of_guarded h _

end Window

theorem plan_bothDestinations (f : Function) (normal unwind : BlockId) (m n : Nat)
    (l : List Site) :
    plan (some (m, l)) (Window.bothDestinations f normal unwind n l) =
      (f.blockStart normal).toList.map (⟨·, l, m⟩) ++
        if unwind ≠ normal then (f.blockStart unwind).toList.map (⟨·, l, n⟩) else [] := by
  unfold Window.bothDestinations
  cases f.blockStart normal with
  | none =>
      split_ifs
      · cases f.blockStart unwind <;> rfl
      · rfl
  | some q =>
      split_ifs
      · cases f.blockStart unwind <;> rfl
      · rfl

theorem plan_each (ps : List Pos) (n : Nat) :
    plan (some (n, [])) (ps.flatMap fun p => [.explore p, .restore n []]) =
      ps.map (⟨·, [], n⟩) := by
  induction ps with
  | nil => rfl
  | cons p ps ih =>
      rw [List.flatMap_cons, List.map_cons, ← ih]
      rfl

section Turn

variable {w : Window} {p : Pos} (h : Guarded false w.tasks)

include h

theorem agenda_endOfFunction (f : Function) :
    (w.endOfFunction E f).agenda = E.returnsTo f w.callStack w.step ++ plan none w.tasks := by
  unfold Window.endOfFunction WindowEnv.returnsTo
  cases hk : w.callStack with
  | nil =>
      unfold Window.toCallers
      dsimp only
      split_ifs
      · rw [Window.agenda_leave [] h]
        rfl
      · rw [Window.agenda_leave _ h, hk, ← List.flatMap_assoc, plan_each, List.map_flatMap]
  | cons s rest =>
      unfold Window.toCallSite Site.landings
      cases hkind : s.inst.kind with
      | invoke callee args normal unwind =>
          simp only [hkind]
          rw [Window.agenda_leave (w := { w with callStack := rest }) _ h, plan_bothDestinations,
            List.map_append]
          split_ifs <;> rfl
      | _ =>
          simp only [hkind]
          exact Window.agenda_of_cursor rfl

theorem agenda_endOfBlock :
    (w.endOfBlock E p).agenda = E.afterBlock p w.callStack w.step ++ plan none w.tasks := by
  have hstop : (w.leave []).agenda = [] ++ plan none w.tasks := Window.agenda_leave [] h
  unfold Window.endOfBlock WindowEnv.afterBlock
  cases p.block.terminator with
  | none => exact hstop
  | some t =>
      cases hk : t.kind with
      | switch | condBr =>
          simp only [hk]
          exact hstop
      | invoke callee args normal unwind =>
          simp only [hk]
          split_ifs
          · rw [Window.agenda_leave (w := { w with step := w.step + 1 }) _ h,
              plan_bothDestinations, if_pos ‹_›]
          · rw [Window.agenda_leave (w := { w with step := w.step + 1 }) _ h,
              plan_bothDestinations, if_neg ‹_›]
          · exact agenda_endOfFunction h p.func
      | br s =>
          simp only [hk, InstKind.successors]
          exact Window.agenda_moved _ h
      | otherTerm operands targets =>
          simp only [hk, InstKind.successors]
          cases targets with
          | nil => exact agenda_endOfFunction h p.func
          | cons s ss =>
              cases ss with
              | nil => exact Window.agenda_moved _ h
              | cons s' ss => exact agenda_endOfFunction h p.func
      | _ =>
          simp only [hk, InstKind.successors]
          exact agenda_endOfFunction h p.func

omit h in
theorem agenda_visit {i : Inst} {rest : List Inst} (hp : p.todo = i :: rest) :
    (w.visit E p i rest).agenda =
      E.successors ⟨p, w.callStack, w.step⟩ ++ plan none w.tasks := by
  obtain ⟨q, hent, hsucc⟩ | ⟨hent, hsucc⟩ :=
    successors_cons (E := E) (c := ⟨p, w.callStack, w.step⟩) hp
  · rw [hsucc, Track.visit_of_entered hent]
    exact Window.agenda_of_cursor rfl
  · rw [hsucc, Track.visit_of_not_entered hent]
    unfold Module.weight
    split_ifs
    · exact Window.agenda_of_cursor rfl
    · exact Window.agenda_of_cursor rfl

/-- **A turn of the loop puts the successors in front.** -/
theorem agenda_turn (hlive : (w.step : Int) < E.windowSize) :
    (w.turn E p).agenda = E.successors ⟨p, w.callStack, w.step⟩ ++ plan none w.tasks := by
  unfold Window.turn
  rw [if_pos hlive]
  cases hp : p.todo with
  | nil =>
      rw [successors_nil (c := ⟨p, w.callStack, w.step⟩) hp]
      exact agenda_endOfBlock h
  | cons i rest => exact agenda_visit hp

end Turn

end MSV
