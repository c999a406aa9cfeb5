import Kirenenko.Pass.ConcolicRuns
import Kirenenko.Runtime.PlainTerms

namespace Kirenenko
set_option autoImplicit true

section
variable {env : Env} {z : Z3} {mem : Memory} {t t' : LabelTable}

theorem SoundTable.plainRecords (h : SoundTable env z size t) : PlainRecords t :=
  fun l hl hlast => (h.records l hl hlast).plain.2

theorem SoundTable.refill (h : SoundTable env z size t) (hs : SameKeys t t')
    (hc : WellCached z mem t')
    (hd : ∀ l e, (t'.info l).expr = some e → (t'.info l).deps = some (labelOffsets t l))
    (hb : CachedBelow size t t') : SoundTable env z size t' := by
  obtain ⟨S, hS⟩ := h.inv
  have hg := hs.extends
  have ho' := hS.ordered.sameKeys hs
  have hplain : PlainRecords t' := by
    intro l hl hlast
    rw [hs.key]
    exact h.plainRecords l hl (hs.lastLabel ▸ hlast)
  refine ⟨⟨S, hS.sameKeys hs⟩, ⟨?_, ?_, ?_⟩, ?_, ?_, ⟨.refl _, ?_⟩,
    h.offsets.serialized hb⟩
  · rw [hs.lastLabel]
    exact h.file.bound
  · rw [hs.lastLabel, hs.key]
    exact h.file.raw
  · rw [hs.key]
    exact h.file.key
  · intro l hl hlast
    rw [hs.lastLabel] at hlast
    have hl1 := hS.ordered.l1 l hl hlast
    rw [hs.key]
    exact (h.records l hl hlast).extends (by omega) hS.ordered hg
  · intro mem'
    refine ⟨.refl _, ?_⟩
    intro l e he
    obtain ⟨hl, hterm⟩ := hc.cached l e he
    exact ⟨hl, (termOf_memory hplain ho' hl).trans hterm⟩
  · intro l e he
    have hl := (hc.cached l e he).1
    rw [hg.labelOffsets hS.ordered ho' (hs.lastLabel ▸ hl)]
    exact hd l e he

theorem SoundTable.yields (h : SoundTable env z size t) (hl : label ≤ t.lastLabel) :
    Yields (DepsFrame t) (fun _ => True) (Adds t label ∅)
      (serialize z mem (label + 1) label ∅) :=
  yields_serialize h.ordered hl (Nat.lt_succ_self label)
    (h.plainRecords.settled h.ordered (by rw [h.zero_key]) hl) (.inl rfl)

theorem SoundTable.serialize (h : SoundTable env z size t) (hl : label ≤ t.lastLabel) :
    SoundTable env z size (finalState (serialize z mem (label + 1) label ∅ t)) := by
  obtain ⟨S, hS⟩ := h.inv
  have hbelow : Yields (CachedBelow size t) InVector (Below size)
      (Kirenenko.serialize z mem (label + 1) label ∅) :=
    below_serialize h.offsets.records (Finset.empty_subset _)
  exact h.refill (serialize_sameKeys hS hl) ((h.cached mem).serialize hS.ordered hl)
    ((h.yields hl).keeps.finalState h.sets).deps
    (hbelow.keeps.finalState ⟨.refl _, h.offsets.cached⟩)

theorem SoundTable.flip (h : SoundTable env z size t) (label : Nat) :
    SoundTable env z size (t.flip label) := by
  have hbelow : CachedBelow size t (t.flip label) :=
    CachedBelow.modifyInfo ⟨.refl _, h.offsets.cached⟩ (fun _ => rfl) (h.offsets.cached label)
  refine h.refill (flip_sameKeys t label) ((h.cached fun _ => 0).flip h.ordered label) ?_ hbelow
  intro l e he
  rcases modifyInfo_cases t label (fun info => { info with flipped := true }) l with
    ⟨_, hinfo⟩ | hinfo
  all_goals
    rw [LabelTable.flip, hinfo] at he ⊢
    exact h.sets.deps l e he

theorem SoundTable.expression (h : SoundTable env z size t) (hz : z.KeepsConsts)
    (hs : Stands env z t label w v)
    (he : Kirenenko.serialize z mem (label + 1) label ∅ t = .ok (e, deps) t') :
    OverInputs e deps ∧ HasValue env e w v := by
  have hterm : termOf z mem t label = .ok e :=
    (Coherent.serialize (h.cached mem) h.ordered hs.label).1 ⟨deps, t', he⟩
  have hdeps : deps = ∅ ∪ labelOffsets t label := ((h.yields hs.label t h.sets).1 _ _ he).2
  rw [hdeps, Finset.empty_union]
  exact ⟨termOf_overInputs hz h.plainRecords h.ordered hs.label hterm,
    (hs.agrees mem).value e hterm⟩

section
variable {host : Host} {input : TaintedInput} {s s' : SolverState} {result : Term}

theorem SoundTable.handled (h : SoundTable env z size s.table) (hl : label ≤ s.table.lastLabel)
    (ho : CondOutcome z mem label result addNested s r s') :
    SoundTable env z size s'.table ∧ SameKeys s.table s'.table := by
  obtain ⟨S, hS⟩ := h.inv
  have hser : SoundTable env z size
      (finalState (Kirenenko.serialize z mem (label + 1) label ∅ s.table)) := h.serialize hl
  have hsame : SameKeys s.table
      (finalState (Kirenenko.serialize z mem (label + 1) label ∅ s.table)) :=
    serialize_sameKeys hS hl
  cases ho with
  | skipped => exact ⟨h, .refl _⟩
  | failed _ ho =>
    rw [ho.table]
    exact ⟨hser, hsame⟩
  | solved _ ho =>
    rw [ho.serialized] at hser hsame
    rw [ho.table]
    exact ⟨hser.flip label, hsame.trans (flip_sameKeys _ label)⟩

/-- The constraint recorded for a branch that is told truthfully holds on the input. -/
theorem solveCond_sound (hz : z.KeepsConsts)
    (h : solveCond z mem host input label result addNested s = .ok r s')
    (ht : SoundTable (inputEnv input.bytes) z size s.table) (hi : SliceInv input.bytes s.dep)
    (hs : Stands (inputEnv input.bytes) z s.table label w v) (hres : result.consts = ∅)
    (hv : result.eval (inputEnv input.bytes) = v) :
    SoundTable (inputEnv input.bytes) z size s'.table ∧ Extends s.table s'.table ∧
      SliceInv input.bytes s'.dep := by
  obtain ⟨hl, ho⟩ := solveCond_outcome h
  obtain ⟨ht', hk⟩ := ht.handled hl ho
  refine ⟨ht', hk.extends, SliceStep.inv (.solveCond hres ?_ h) hi⟩
  intro e deps t' he
  obtain ⟨hover, hval⟩ := ht.expression hz hs he
  exact ⟨hover, hval.eval.trans hv.symm⟩

/-- The label that `__taint_trace_cmp` makes for a case stands for the outcome of the comparison. -/
theorem SoundTable.traceCmp (h : SoundTable env z size t) (hz : z.Lawful)
    (hu : dfsanUnion t (traceCmpKey l 0 w Predicate.bveq.code c1 c2) = .ok (temp, t'))
    (hw : 1 ≤ w ∧ w ≤ 64) (hc2 : c2 < 2 ^ w) (hs : Stands env z t l w c1) :
    SoundTable env z size t' ∧ Extends t t' ∧ Stands env z t' temp 1 (decide (c1 = c2)).toNat := by
  have hop : ((Predicate.bveq.code <<< 8) ||| Operators.ICmp.code) % 2 ^ 16 = cmpOp .eq := by decide
  have hsize : w % 2 ^ 8 = w := Nat.mod_eq_of_lt (by omega)
  rw [dfsanUnion, traceCmpKey, hop, hsize] at hu
  obtain ⟨htab, hret⟩ := h.union_ordinary (cmpOp_ordinary .eq) hs.label (Nat.zero_le _) hu
  refine ⟨htab, hret.grows, hret.stands (bool_toNat_lt _) (fun h1 => (h1 rfl).elim) ?_⟩
  intro mem e he
  exact cmp_node (p := .eq) hz hw hs.bound hc2
    ((hs.extends h.ordered hret.grows).agrees mem).value (Agrees.zero w c2).value he

theorem cmpResult_equal (hz : z.Lawful) (hk : z.KeepsConsts)
    (h : cmpResult z w Predicate.bveq.code c1 c2 = .ok result) (h1 : c1 < 2 ^ w) (h2 : c2 < 2 ^ w) :
    result.consts = ∅ ∧ result.eval env = (decide (c1 = c2)).toNat := by
  obtain ⟨a, ha, h⟩ := except_bind_ok.1 h
  obtain ⟨b, hb, h⟩ := except_bind_ok.1 h
  obtain ⟨_, rfl⟩ := checked_bvVal.1 ha
  obtain ⟨_, rfl⟩ := checked_bvVal.1 hb
  obtain ⟨e, he, rfl⟩ := except_map_ok.1 h
  obtain ⟨rfl, σ, hσ⟩ := checked_eq_ok.1 he
  refine ⟨Finset.subset_empty.1 (hk _), ?_⟩
  rw [hz.simplify_eval _ σ env hσ, Term.eval, Term.eval, Term.eval, Nat.mod_eq_of_lt h1,
    Nat.mod_eq_of_lt h2]

theorem after_ok (h : s.after x = .ok (s', t')) :
    ∃ r u, x = .ok r u ∧ s' = { u with table := s.table } ∧ t' = u.table := by
  cases x with
  | ok r u =>
    cases h
    exact ⟨r, u, rfl, rfl, rfl⟩
  | error e u => cases e <;> cases h

theorem boolVal_eval (hr : r < 2) (env : Env) : (Term.boolVal (r ≠ 0)).eval env = r := by
  obtain rfl | rfl : r = 0 ∨ r = 1 := by omega
  · rfl
  · rfl

/-- What the runtime has recorded for an input: constraints that hold on it, about bytes that it
has. -/
structure SolverSound (input : TaintedInput) (s : SolverState) : Prop where
  slices : SliceInv input.bytes s.dep
  size : s.depSize = input.buf.length
  inRange : ∀ o d, s.dep o = some d → d.inputDeps ⊆ Finset.range input.buf.length

theorem SolverSound.start (input : TaintedInput) (t : LabelTable) :
    SolverSound input (.start input t) :=
  ⟨.start input t, rfl, fun _ _ h => by cases h⟩

theorem SolverSound.depsInRange (h : SolverSound input s)
    (ht : SoundTable env z input.buf.length t) :
    DepsInRange input.buf.length { s with table := t } :=
  ⟨h.size, ht.offsets, h.inRange⟩

theorem solverReaction_sound (hz : z.Lawful) (hk : z.KeepsConsts) (hin : input.isStdin = false)
    (context : List TraceSite → Option Nat → Nat × Nat) :
    (solverReaction z host input context).Sound (inputEnv input.bytes) z input.buf.length
      (SolverSound input) := by
  intro c mem s t s' t' ht hi hc h
  have hrange := hi.depsInRange ht
  cases c with
  | cond stack label r =>
    obtain ⟨x, u, hx, rfl, rfl⟩ := after_ok h
    have hu := (inRange_taintTraceCond hin _ hrange).1 x u hx
    rcases taintTraceCond_ok hx with ⟨-, rfl⟩ | ⟨-, -, hsolve⟩
    · exact ⟨ht, .refl _, hi⟩
    · obtain ⟨hsound, hg, hinv⟩ :=
        solveCond_sound hk hsolve ht hi.slices hc rfl (boolVal_eval hc.bound _)
      exact ⟨hsound, hg, hinv, hu.size, hu.entries⟩
  | cmp stack k label w c1 c2 =>
    obtain ⟨hlo, hhi, hc2, hs⟩ := hc
    obtain ⟨x, u, hx, rfl, rfl⟩ := after_ok h
    have hu' := (inRange_taintTraceCmp hin _ hrange).1 x u hx
    rcases taintTraceCmp_ok hx with rfl | ⟨temp, t₁, result, hu, hresult, hsolve⟩
    · exact ⟨ht, .refl _, hi⟩
    · obtain ⟨ht₁, hg, hs₁⟩ := ht.traceCmp hz hu ⟨hlo, hhi⟩ hc2 hs
      obtain ⟨hconsts, heval⟩ := cmpResult_equal hz hk hresult hs.bound hc2
      obtain ⟨hsound, hg', hinv⟩ := solveCond_sound hk hsolve ht₁ hi.slices hs₁ hconsts heval
      exact ⟨hsound, hg.trans hg', hinv, hu'.size, hu'.entries⟩

end

end

end Kirenenko
