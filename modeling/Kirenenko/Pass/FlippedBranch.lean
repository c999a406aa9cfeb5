import Kirenenko.Pass.PathSoundness
import Kirenenko.Pass.SamePath
import Kirenenko.Runtime.HandOver

namespace Kirenenko
set_option autoImplicit true

section
variable {z : Z3} {mem : Memory} {host : Host} {input : TaintedInput} {t t' : LabelTable}
  {s s' : SolverState} {result : Term}

theorem CondOutcome.branches (h : CondOutcome z mem label result addNested s r s') :
    s'.branches = s.branches := by
  cases h with
  | skipped => rfl
  | failed _ hs => exact hs.branches
  | solved _ hs => exact hs.branches

theorem SameKeys.symm (h : SameKeys t t') : SameKeys t' t :=
  ⟨h.key.symm, h.lastLabel.symm, h.bucket.symm⟩

theorem solveCond_quiet (h : solveCond z mem host input label result addNested s = .ok r s')
    (ht : SoundTable env z size s.table) :
    SameKeys s.table s'.table ∧ s'.branches = s.branches := by
  obtain ⟨hl, ho⟩ := solveCond_outcome h
  exact ⟨(ht.handled hl ho).2, ho.branches⟩

theorem visited_alike (h : s'.branches = s.branches) (context : Nat × Nat) :
    (s'.visited context).branches = (s.visited context).branches := by
  simp only [SolverState.visited, h]

theorem solverReaction_alike (hz : z.Lawful) (host host' : Host) (input input' : TaintedInput)
    (context : List TraceSite → Option Nat → Nat × Nat) :
    (solverReaction z host input context).Alike (solverReaction z host' input' context) env env' z
      size fun s s' => s'.branches = s.branches := by
  intro c c' mem mem' s s' t t' u v u' v' hcc hq hk ht ht' hc hc' h h'
  cases hcc with
  | @cond stack label r r' =>
    obtain ⟨x, w, hx, rfl, rfl⟩ := after_ok h
    obtain ⟨x', w', hx', rfl, rfl⟩ := after_ok h'
    rcases taintTraceCond_ok hx with ⟨hskip, rfl⟩ | ⟨hl, hb, hsolve⟩
    · rcases taintTraceCond_ok hx' with ⟨-, rfl⟩ | ⟨hl', hb', -⟩
      · exact ⟨hq, hk⟩
      · exact (hskip.elim hl' fun hn => hn (hq ▸ hb')).elim
    · rcases taintTraceCond_ok hx' with ⟨hskip', -⟩ | ⟨-, -, hsolve'⟩
      · exact (hskip'.elim hl fun hn => hn (hq.symm ▸ hb)).elim
      · obtain ⟨hkeys, hbr⟩ := solveCond_quiet hsolve ht
        obtain ⟨hkeys', hbr'⟩ := solveCond_quiet hsolve' ht'
        exact ⟨hbr'.trans ((visited_alike hq _).trans hbr.symm),
          hkeys.symm.trans (hk.trans hkeys')⟩
  | @cmp stack k w label c1 c1' c2 =>
    obtain ⟨hlo, hhi, hc2, hs⟩ := hc
    obtain ⟨_, _, _, hs'⟩ := hc'
    obtain ⟨x, w₁, hx, rfl, rfl⟩ := after_ok h
    obtain ⟨x', w₁', hx', rfl, rfl⟩ := after_ok h'
    rcases taintTraceCmp_cases hx with ⟨hskip, rfl⟩ | ⟨hpass, temp, t₁, result, hu, -, hsolve⟩
    · rcases taintTraceCmp_cases hx' with ⟨-, rfl⟩ | ⟨hpass', -⟩
      · exact ⟨hq, hk⟩
      · exact (hpass' (hq.symm ▸ hskip)).elim
    · rcases taintTraceCmp_cases hx' with ⟨hskip', -⟩ | ⟨-, temp', t₁', result', hu', -, hsolve'⟩
      · exact (hpass (hq ▸ hskip')).elim
      · obtain ⟨t₂, hu₂, hkeys₁⟩ := dfsanUnion_alike hk (fun h0 => hpass (.inl ⟨h0, rfl⟩)) hu
        cases hu'.symm.trans hu₂
        obtain ⟨ht₁, -, -⟩ := ht.traceCmp hz hu ⟨hlo, hhi⟩ hc2 hs
        obtain ⟨ht₁', -, -⟩ := ht'.traceCmp hz hu' ⟨hlo, hhi⟩ hc2 hs'
        obtain ⟨hkeys, hbr⟩ := solveCond_quiet hsolve ht₁
        obtain ⟨hkeys', hbr'⟩ := solveCond_quiet hsolve' ht₁'
        exact ⟨hbr'.trans ((visited_alike hq _).trans hbr.symm),
          hkeys.symm.trans (hkeys₁.trans hkeys')⟩

/-- A model of the second query, written over the input, satisfies the negated branch and every
recorded constraint. -/
theorem SliceInv.satisfied {dep : Nat → Option BranchDep} {q : BranchQuery}
    (hi : SliceInv bytes dep) (hz : z.Lawful) (hq : Queried z dep result e₀ deps q)
    (hcond : OverInputs q.cond q.inputs) (hres : result.consts = ∅)
    (hm : q.second = some (.sat m)) :
    (Term.distinct q.cond result).eval (inputEnv (overwrite bytes m)) = 1 ∧
      (∀ off d e, dep off = some d → e ∈ d.exprDeps →
        e.eval (inputEnv (overwrite bytes m)) = 1) ∧
      ∀ k v, m.lookup k = some v → ∃ n ∈ q.inputs, k = (.int n, 8) := by
  obtain ⟨k, fs, hcheck, hfs⟩ := hq.second m hm
  have hover : ∀ f ∈ fs, OverInputs f q.inputs := fun f hf =>
    ((hfs f).1 hf).overInputs hi hcond hres hq.closed
  have hcomp : Completes (inputEnv (overwrite bytes m)) m := overwrite_completes hz hcheck hover
  refine ⟨hz.check_sound k fs m _ hcheck hcomp _ ((hfs _).2 (.inl rfl)), ?_, ?_⟩
  · intro off d e hd he
    obtain ⟨hv, S, _, hS, hall⟩ := hi off d e hd he
    by_cases hin : e ∈ fs
    · exact hz.check_sound k fs m _ hcheck hcomp e hin
    · rw [unasserted_eval hz hcheck hover hfs hS hall hin]
      exact hv
  · intro key v hv
    obtain ⟨f, hf, hkey⟩ := hz.check_consts k fs m key v hcheck hv
    exact hover f hf key hkey

end

section
variable {m : List ((Symbol × Nat) × Nat)} {buf : List UInt8}

/-- The values of a model are for bytes of the input, each listed once. -/
structure ByteModel (size : Nat) (m : List ((Symbol × Nat) × Nat)) : Prop where
  distinct : (m.map (·.1.1)).Nodup
  bytes : ∀ c ∈ m, ∃ n < size, c.1 = (.int n, 8)

theorem ByteModel.modelValue (h : ByteModel size m) (n : Nat) :
    modelValue m (.int n) = m.lookup (.int n, 8) := by
  obtain ⟨-, h⟩ := h
  induction m with
  | nil => rfl
  | cons c m ih =>
    obtain ⟨k, hk, hc⟩ := h c List.mem_cons_self
    obtain ⟨key, v⟩ := c
    cases hc
    rw [modelValue_cons, List.lookup_cons, ih fun c hc => h c (List.mem_cons_of_mem _ hc)]
    by_cases hn : n = k
    · subst hn
      simp
    · have hne : ((Symbol.int n, 8) == (Symbol.int k, 8)) = false := by
        simpa using hn
      rw [hne, if_neg fun he => hn (Symbol.int.inj he).symm]

theorem ByteModel.bytes_written (h : ByteModel buf.length m) (b : Bool) :
    TaintedInput.bytes ⟨b, writeBytes m buf⟩ = overwrite (TaintedInput.bytes ⟨b, buf⟩) m := by
  funext n
  unfold TaintedInput.bytes overwrite
  rw [List.getD_eq_getElem?_getD, writeBytes_getElem? h.distinct, h.modelValue n]
  cases hl : m.lookup (.int n, 8) with
  | none =>
    simp only [Option.elim, Option.map_id', List.getD_eq_getElem?_getD]
  | some v =>
    obtain ⟨pre, post, hsplit, -⟩ := List.lookup_eq_some_iff.1 hl
    obtain ⟨k, hk, hkey⟩ := h.bytes ((.int n, 8), v) (by rw [hsplit]; simp)
    cases hkey
    rw [List.getElem?_eq_getElem hk]
    rfl

theorem ByteModel.writeModel (h : ByteModel buf.length m) :
    (writeModel buf.length m buf).1 = writeBytes m buf := by
  have hints : ∀ c ∈ m, ∃ n < buf.length, c.1.1 = .int n := by
    intro c hc
    obtain ⟨n, hn, hc⟩ := h.bytes c hc
    exact ⟨n, hn, congrArg Prod.fst hc⟩
  have hw : Kirenenko.writeModel buf.length (m ++ []) buf = _ := writeModel_bytes hints
  rw [List.append_nil] at hw
  rw [hw]
  rfl

theorem ByteModel.generated {host : Host} {input : TaintedInput} {s : SolverState}
    (h : ByteModel input.buf.length m) (hfile : input.isStdin = false)
    (hopen : host.opens s.currentIndex = true) (hcopy : host.copies s.currentIndex = .full) :
    (s.generated host input m).files s.currentIndex = some (writeBytes m input.buf) := by
  simp only [SolverState.generated, hopen, if_true, Function.update_self, generatedFile, hfile,
    Host.copied, hcopy, Bool.false_eq_true, if_false, h.writeModel]

end

/-- The same program on another file of the same length. -/
def Session.withInput (c : Session) (buf : List UInt8) (h : buf.length = c.input.buf.length) :
    Session :=
  { c with
    input := ⟨false, buf⟩
    file := rfl
    allocated := h.symm ▸ c.allocated }

/-- The same program on the input with the bytes of a model. -/
def Session.rerun (c : Session) (m : List ((Symbol × Nat) × Nat)) : Session :=
  c.withInput (writeBytes m c.input.buf) (writeBytes_length m c.input.buf)

/-- The constraint that a call's expression has its outcome is recorded. -/
def TraceCall.RecordedIn (z : Z3) (t : LabelTable) (d : SolverState) (c : TraceCall) : Prop :=
  ∃ mem e result, c.Expression z mem t e ∧ (∀ env, result.eval env = c.outcome) ∧
    Recorded d (.eq e result)

/-- The next step does not branch on a label, or the constraint that says where it goes is
recorded. -/
def TaggedState.RecordedIn {σ : Type} (z : Z3) (d : SolverState) (s : TaggedState σ) : Prop :=
  (∀ c ∈ s.traceCalls, c.label = 0) ∨
    ∃ c ∈ s.traceCalls, c.Taken ∧ c.RecordedIn z s.store.table d

theorem TaggedState.RecordedIn.holdsOn {σ : Type} {s : TaggedState σ} (h : s.RecordedIn z d)
    (hd : ∀ e, Recorded d e → e.eval env = 1) : s.HoldsOn z env := by
  rcases h with h | ⟨c, hc, htaken, mem, e, result, he, hresult, hrec⟩
  · exact .inl fun c hc h0 => (h0 (h c hc)).elim
  · refine .inr ⟨c, hc, htaken, fun _ => ⟨mem, e, he, ?_⟩⟩
    have heq := hd _ hrec
    rw [Term.eval] at heq
    rw [← hresult env]
    exact of_decide_eq_true (Bool.toNat_eq_one.1 heq)

section
variable {c : Session} {buf : List UInt8} {s s' : TaggedState SolverState}

theorem Session.withInput_store (hlen : buf.length = c.input.buf.length) :
    (c.withInput buf hlen).store = c.store := by
  unfold Session.store SolverState.start
  simp only [Session.withInput, hlen]

theorem RunAlike.start {main : IrFunction} {σ : Type} {Q : σ → σ → Prop} {S : LabelStore σ}
    {s : TaggedState σ} (h : TaggedState.start main args M S = .ok s) (hQ : Q S.solver S.solver) :
    RunAlike Q s s := by
  obtain ⟨v, hv, h⟩ := except_bind_ok.1 h
  obtain ⟨F, hF, hv⟩ := except_bind_ok.1 hv
  cases hv
  cases h
  obtain ⟨_, b, hb, rfl⟩ := start_ok hF
  refine ⟨.cons ⟨?_, ?_, ?_, rfl, ?_⟩ .nil, rfl, ⟨?_, rfl, rfl, .refl _, hQ⟩, rfl, ?_⟩
  all_goals
    intros
    rfl

/-- Two sessions on inputs of the same length are in the same place with the same labels, as long
as the branches of the first go the same way on the input of the second. -/
theorem Session.alike (hex : c.Exact) (hlen : buf.length = c.input.buf.length)
    (hsteps : ∀ k < n, ∀ s, c.run k = .ok s →
      s.Clean ∧ s.HoldsOn c.z (c.withInput buf hlen).env)
    (h : c.run n = .ok s) (h' : (c.withInput buf hlen).run n = .ok s') :
    c.Stands s ∧ (c.withInput buf hlen).Stands s' ∧
      RunAlike (fun u u' : SolverState => u'.branches = u.branches) s s' := by
  obtain ⟨s₀, hs₀, h⟩ := except_bind_ok.1 h
  obtain ⟨s₀', hs₀', h'⟩ := except_bind_ok.1 h'
  have h₀' := (c.withInput buf hlen).stands_start hs₀'
  have hin' := (c.withInput buf hlen).hostInput
  have hsound' : (c.withInput buf hlen).reaction.Sound (c.withInput buf hlen).env c.z
      (c.withInput buf hlen).input.buf.length (SolverSound (c.withInput buf hlen).input) :=
    solverReaction_sound c.lawful c.keepsConsts rfl c.context
  have halike : c.reaction.Alike (c.withInput buf hlen).reaction c.env (c.withInput buf hlen).env
      c.z c.input.buf.length fun u u' => u'.branches = u.branches :=
    solverReaction_alike c.lawful _ _ _ _ c.context
  have hhost : HostAlike c.irHost (c.withInput buf hlen).irHost := ⟨rfl, hlen⟩
  have hsize : (c.withInput buf hlen).input.buf.length = c.input.buf.length := hlen
  unfold Session.Stands at h₀' ⊢
  rw [hsize] at h₀' hin' hsound' ⊢
  rw [Session.withInput_store] at hs₀'
  cases hs₀.symm.trans hs₀'
  refine RunAlike.run c.lawful halike
    (solverReaction_sound c.lawful c.keepsConsts c.file c.context) hsound' hhost c.hostInput hin'
    c.typed ?_ (c.stands_start hs₀) h₀' (.start hs₀ rfl) h h'
  intro k hk s hrun
  have hkrun : c.run k = .ok s := by
    rw [Session.run, hs₀]
    exact hrun
  obtain ⟨hclean, hholds⟩ := hsteps k hk s hkrun
  exact ⟨hex k s hkrun, hclean, hholds⟩

end

/-- The state in which the runtime asks the solver about a branch. -/
def Session.asked (c : Session) (s : TaggedState SolverState) (stack : List TraceSite) :
    SolverState :=
  SolverState.visited { s.store.solver with table := s.store.table } (c.context stack none)

/-- The next step tells the runtime of a branch that is past the filter and on a label that is not
flagged, and both queries about the other side are satisfiable, the second with a model that lists
each byte once. -/
structure Session.Solves (c : Session) (s : TaggedState SolverState) (stack : List TraceSite)
    (label r : Nat) (m : List ((Symbol × Nat) × Nat)) : Prop where
  calls : s.traceCalls = [.cond stack label r]
  labelled : label ≠ 0
  visits : s.store.solver.branches (c.context stack none) < maxBranchCount
  unflagged : (s.store.table.info label).flipped = false
  model : ∃ q u m₀, queryBranch c.z s.values.memory.mem c.input label (.boolVal (r ≠ 0))
    (c.asked s stack) = .ok q u ∧ q.first = .sat m₀ ∧ q.second = some (.sat m)
  distinct : (m.map (·.1.1)).Nodup

section
variable {c : Session} {s : TaggedState SolverState} {q : BranchQuery}

theorem mem_lookup {m : List (α × β)} [BEq α] [LawfulBEq α] (h : (a, b) ∈ m) :
    ∃ b', m.lookup a = some b' := by
  induction m with
  | nil => cases h
  | cons p m ih =>
    rw [List.lookup_cons]
    cases hp : a == p.1 with
    | true => exact ⟨_, rfl⟩
    | false =>
      rcases List.mem_cons.1 h with rfl | h
      · rw [beq_self_eq_true] at hp
        cases hp
      · exact ih h

theorem Session.Stands.model (hs : c.Stands s)
    (ht : Kirenenko.Stands c.env c.z s.store.table label 1 r)
    (hq : queryBranch c.z mem c.input label (.boolVal (r ≠ 0)) (c.asked s stack) = .ok q u)
    (hm : q.second = some (.sat m)) (hd : (m.map (·.1.1)).Nodup) :
    (∃ deps t, serialize c.z mem (label + 1) label ∅ s.store.table = .ok (q.cond, deps) t) ∧
      ByteModel c.input.buf.length m ∧ q.cond.eval (c.rerun m).env ≠ r ∧
      ∀ e, Recorded s.store.solver e → e.eval (c.rerun m).env = 1 := by
  obtain ⟨deps, t, hser, -, hqd⟩ := queryBranch_ok hq
  have hover := (hs.store.table.expression c.keepsConsts ht hser).1
  obtain ⟨hneg, hrec, hkeys⟩ :=
    hs.store.solver.slices.satisfied c.lawful hqd (hover.mono hqd.inputs) rfl hm
  have hyields : Yields (DepsInRange c.input.buf.length) InVector
      (fun q => q.inputs ⊆ Finset.range c.input.buf.length)
      (queryBranch c.z mem c.input label (.boolVal (r ≠ 0))) :=
    inRange_serializeLabel.bind fun p hp => inRange_queryWith c.file c.z _ p.1 hp
  have hdeps := hs.store.solver.depsInRange hs.store.table
  have hrange := ((hyields (c.asked s stack) ⟨hdeps.size, hdeps.table, hdeps.entries⟩).1 q u hq).2
  have hbytes : ByteModel c.input.buf.length m := by
    refine ⟨hd, ?_⟩
    rintro ⟨key, v⟩ hc
    obtain ⟨v', hv⟩ := mem_lookup hc
    obtain ⟨n, hn, rfl⟩ := hkeys key v' hv
    exact ⟨n, Finset.mem_range.1 (hrange hn), rfl⟩
  have henv : (c.rerun m).env = inputEnv (overwrite c.input.bytes m) :=
    congrArg inputEnv (hbytes.bytes_written false)
  rw [henv]
  refine ⟨⟨deps, t, hser⟩, hbytes, ?_, ?_⟩
  · intro heq
    rw [Term.eval, heq, boolVal_eval ht.bound] at hneg
    simp at hneg
  · rintro e ⟨off, d, hd, he⟩
    exact hrec off d e hd he

theorem Session.Solves.written (h : c.Solves s stack label r m)
    (hbytes : ByteModel c.input.buf.length m)
    (hreact : c.reaction.react (.cond stack label r) s.values.memory.mem s.store.solver
      s.store.table = .ok (u, t))
    (hopen : c.host.opens s.store.solver.currentIndex = true)
    (hcopy : c.host.copies s.store.solver.currentIndex = .full) :
    u.files s.store.solver.currentIndex = some (c.rerun m).input.buf := by
  obtain ⟨q, u₀, m₀, hq, hfirst, hsecond⟩ := h.model
  obtain ⟨x, w, hx, rfl, rfl⟩ := after_ok hreact
  rcases taintTraceCond_ok hx with ⟨hskip, -⟩ | ⟨-, -, hsolve⟩
  · exact (hskip.elim h.labelled fun hn => hn h.visits).elim
  · have hfresh : ¬(((c.asked s stack).table.info label).flipped = true) :=
      Bool.not_eq_true _ ▸ h.unflagged
    have hmodel : condModel c.z s.values.memory.mem c.input label (.boolVal (r ≠ 0))
        (c.asked s stack) = some m := by
      simp only [condModel, if_neg hfresh, solvedModel, hq, BranchQuery.model, hfirst, hsecond]
    have hfiles : w.files = ((c.asked s stack).afterModel c.host c.input (condModel c.z
        s.values.memory.mem c.input label (.boolVal (r ≠ 0)) (c.asked s stack))).files :=
      (solveCond_files hsolve).files
    change w.files _ = _
    rw [hfiles, hmodel]
    exact hbytes.generated c.file hopen hcopy

theorem Session.run_succ (h : c.run n = .ok s) (h' : c.run (n + 1) = .ok s') :
    TaggedStep c.reaction c.irHost c.program s s' := by
  obtain ⟨s₀, hs₀, h⟩ := except_bind_ok.1 h
  rw [Session.run, hs₀, except_ok_bind, TaggedState.run, stepsOf_add] at h'
  rw [TaggedState.run] at h
  rw [h, except_ok_bind, stepsOf_one] at h'
  exact taggedStep_ok h'

theorem Session.Solves.written_next (h : c.Solves s stack label r m)
    (hbytes : ByteModel c.input.buf.length m) (hrun : c.run n = .ok s)
    (hnext : c.run (n + 1) = .ok s')
    (hopen : c.host.opens s.store.solver.currentIndex = true)
    (hcopy : c.host.copies s.store.solver.currentIndex = .full) :
    s'.store.solver.files s.store.solver.currentIndex = some (c.rerun m).input.buf := by
  obtain ⟨S, htraced, hsolver⟩ := (Session.run_succ hrun hnext).traced
  rw [h.calls, List.foldlM_cons] at htraced
  obtain ⟨S', ht, htraced⟩ := except_bind_ok.1 htraced
  cases htraced
  obtain ⟨⟨u, t⟩, hreact, ht⟩ := except_bind_ok.1 ht
  cases ht
  rw [hsolver]
  exact h.written hbytes (runtime_ok.1 hreact) hopen hcopy

end

theorem forall₂_singleton {Q : α → β → Prop} (h : List.Forall₂ Q [a] bs) :
    ∃ b, bs = [b] ∧ Q a b := by
  cases h with
  | cons hab hnil =>
    cases hnil
    exact ⟨_, rfl, hab⟩

/-- Two states at the same place of a program, with the same labels. -/
structure TaggedState.SamePlace {σ : Type} (s s' : TaggedState σ) : Prop where
  sites : s'.values.frames.map IrFrame.site = s.values.frames.map IrFrame.site
  frames : s'.frames = s.frames
  shadow : s'.store.shadow = s.store.shadow

theorem RunAlike.samePlace {σ : Type} {Q : σ → σ → Prop} {s s' : TaggedState σ}
    (h : RunAlike Q s s') : s.SamePlace s' :=
  ⟨h.frames.sites, h.labels, h.store.shadow⟩

/-- When the solver has a model for the other side of a branch, together with the constraints that
depend on the same input, the runtime writes a file on which the program, as far as it gets, goes
the same way up to the branch and there takes the other side; provided that the constraints of the
branches on the way are recorded and no address or length on the way depends on the input. -/
theorem generated_input_flips_branch (c : Session) (hex : c.Exact) (hrun : c.run n = .ok s)
    (hclean : ∀ k < n, ∀ u, c.run k = .ok u → u.Clean)
    (hrec : ∀ k < n, ∀ u, c.run k = .ok u → u.RecordedIn c.z s.store.solver)
    (hsolves : c.Solves s stack label r m) :
    (∀ u t, c.reaction.react (.cond stack label r) s.values.memory.mem s.store.solver
        s.store.table = .ok (u, t) →
      c.host.opens s.store.solver.currentIndex = true →
      c.host.copies s.store.solver.currentIndex = .full →
      u.files s.store.solver.currentIndex = some (c.rerun m).input.buf) ∧
    (∀ u, c.run (n + 1) = .ok u → c.host.opens s.store.solver.currentIndex = true →
      c.host.copies s.store.solver.currentIndex = .full →
      u.store.solver.files s.store.solver.currentIndex = some (c.rerun m).input.buf) ∧
    (∀ k ≤ n, ∀ u u', c.run k = .ok u → (c.rerun m).run k = .ok u' → u.SamePlace u') ∧
    ∀ s', (c.rerun m).run n = .ok s' →
      ∃ r', s'.traceCalls = [.cond stack label r'] ∧ r' ≠ r := by
  obtain ⟨q, u₀, m₀, hq, hfirst, hsecond⟩ := hsolves.model
  have hs := c.stands hex hrun
  have htells := hs.traceCalls (.cond stack label r) (hsolves.calls ▸ List.mem_cons_self)
  obtain ⟨hser, hbytes, hother, hholds⟩ := hs.model htells hq hsecond hsolves.distinct
  have hlen := writeBytes_length m c.input.buf
  have hsteps : ∀ k < n, ∀ u, c.run k = .ok u →
      u.Clean ∧ u.HoldsOn c.z (c.withInput (writeBytes m c.input.buf) hlen).env := by
    intro k hk u hu
    exact ⟨hclean k hk u hu, (hrec k hk u hu).holdsOn hholds⟩
  refine ⟨?_, ?_, ?_, ?_⟩
  · intro u t hreact hopen hcopy
    exact hsolves.written hbytes hreact hopen hcopy
  · intro u hnext hopen hcopy
    exact hsolves.written_next hbytes hrun hnext hopen hcopy
  · intro k hk u u' hu hu'
    exact (Session.alike hex hlen (fun i hi => hsteps i (Nat.lt_of_lt_of_le hi hk)) hu
      hu').2.2.samePlace
  · intro s' hrun'
    obtain ⟨_, hs', halike⟩ := Session.alike hex hlen hsteps hrun hrun'
    have hboth := halike.traceCalls
    rw [hsolves.calls] at hboth
    obtain ⟨call', hcalls', hcall⟩ := forall₂_singleton hboth
    have htells' := hs'.traceCalls call' (hcalls' ▸ List.mem_cons_self)
    have hdecided := hcall.decided c.lawful hs.store.table (hlen ▸ hs'.store.table)
      halike.store.table htells htells' hsolves.labelled hser
    cases hcall with
    | @cond _ _ _ r' => exact ⟨r', hcalls', fun heq => hother (hdecided.trans heq)⟩

/-- Whether the constraint for the next branch is recorded under an offset. -/
def TaggedState.recordedAt {σ : Type} (z : Z3) (d : SolverState) (off : Nat)
    (s : TaggedState σ) : Bool :=
  match s.traceCalls with
  | [] => true
  | [.cond _ label r] =>
    decide (r < 2) &&
      match serialize z (fun _ => 0) (label + 1) label ∅ s.store.table with
      | .ok (e, _) _ => (d.dep off).any fun b => decide (.eq e (.boolVal (r ≠ 0)) ∈ b.exprDeps)
      | .error _ _ => false
  | _ => false

theorem TaggedState.recordedIn_of_check {σ : Type} {s : TaggedState σ}
    (h : s.recordedAt z d off = true) : s.RecordedIn z d := by
  unfold TaggedState.recordedAt at h
  split at h
  case h_1 hcalls =>
    refine .inl fun c hc => ?_
    rw [hcalls] at hc
    cases hc
  case h_2 stack label r hcalls =>
    obtain ⟨hr, h⟩ := Bool.and_eq_true_iff.1 h
    split at h
    case h_1 e deps t he =>
      obtain ⟨b, hb, hmem⟩ := (Option.any_eq_true _ _).1 h
      refine .inr ⟨.cond stack label r, hcalls ▸ List.mem_cons_self, trivial, fun _ => 0, e, _,
        ⟨deps, t, he⟩, boolVal_eval (of_decide_eq_true hr), off, b, hb, of_decide_eq_true hmem⟩
    case h_2 => cases h
  case h_3 => cases h

/-- Whether the solver answers the queries about the next branch with a given model. -/
def Session.solvesWith (c : Session) (m : List ((Symbol × Nat) × Nat))
    (s : TaggedState SolverState) : Bool :=
  match s.traceCalls with
  | [.cond stack label r] =>
    decide (label ≠ 0 ∧ s.store.solver.branches (c.context stack none) < maxBranchCount ∧
        (s.store.table.info label).flipped = false) &&
      match queryBranch c.z s.values.memory.mem c.input label (.boolVal (r ≠ 0))
        (c.asked s stack) with
      | .ok ⟨_, _, .sat _, some (.sat m')⟩ _ => decide (m' = m)
      | _ => false
  | _ => false

theorem Session.solves_of_check {c : Session} {s : TaggedState SolverState}
    (h : c.solvesWith m s = true) (hm : (m.map (·.1.1)).Nodup) :
    ∃ stack label r, c.Solves s stack label r m := by
  unfold Session.solvesWith at h
  split at h
  case h_1 stack label r hcalls =>
    obtain ⟨hcond, h⟩ := Bool.and_eq_true_iff.1 h
    obtain ⟨hl, hvisits, hflag⟩ := of_decide_eq_true hcond
    split at h
    case h_1 hq =>
      cases of_decide_eq_true h
      exact ⟨stack, label, r, hcalls, hl, hvisits, hflag, ⟨_, _, _, hq, rfl, rfl⟩, hm⟩
    case h_2 => cases h
  case h_2 => cases h

instance (slots : List Nat) (g : LabelFrame) (i : IrInst) : Decidable (i.Clean slots g) :=
  match i with
  | .gep base index _ => inferInstanceAs (Decidable (g.label base = 0 ∧ g.label index = 0))
  | .load _ ptr | .store _ _ ptr =>
    inferInstanceAs (Decidable (variableOf slots ptr = none → g.label ptr = 0))
  | .memset dest _ len => inferInstanceAs (Decidable (g.label dest = 0 ∧ g.label len = 0))
  | .memTransfer dest src len =>
    inferInstanceAs (Decidable (g.label dest = 0 ∧ g.label src = 0 ∧ g.label len = 0))
  | .pread buf count offset =>
    inferInstanceAs (Decidable (g.label buf = 0 ∧ g.label count = 0 ∧ g.label offset = 0))
  | .binary _ _ _ _ | .cast _ _ _ _ | .icmp _ _ _ _ | .select _ _ _ _ | .alloca _
  | .call _ _ _ => isTrue trivial

instance {σ : Type} (s : TaggedState σ) : Decidable s.Clean :=
  inferInstanceAs (Decidable (∀ F ∈ s.values.frames.head?, ∀ g ∈ s.frames.head?,
    ∀ x ∈ F.rest.head?, _))

/-- A program that looks for an `F` among the letters. -/
def findF : IrFunction where
  name := "main"
  params := 0
  ret := some 8
  blocks := [
    ⟨[], [(0, .alloca 8), (1, .pread (.inst 0) (.const 1) (.const 0)), (2, .load 8 (.inst 0)),
      (3, .icmp .ugt 8 (.inst 2) (.const 64))], .condBr (.inst 3) 1 2⟩,
    ⟨[], [(4, .icmp .eq 8 (.inst 2) (.const 70))], .condBr (.inst 4) 3 2⟩,
    ⟨[], [], .ret (some (8, .const 0))⟩,
    ⟨[], [], .ret (some (8, .const 1))⟩]

/-- A session on a file that starts with an `A`, with a solver that thinks of an `F`. -/
def findFSession : Session where
  z := .guess [((.int 0, 8), 70)]
  host := ⟨fun _ => true, fun _ => .full⟩
  input := ⟨false, [65]⟩
  context := fun stack _ => (stack.length, 0)
  place := fun _ => kAppAddr
  program := [findF]
  types := [⟨[], fun id => [64, 64, 8, 1, 1].getD id 0, fun _ => 8⟩]
  main := findF
  args := []
  memory := ⟨fun _ => 0, 0⟩
  history := ⟨oneByteStore.table, []⟩
  lawful := Z3.guess_lawful _
  keepsConsts := fun _ => Finset.Subset.refl _
  file := doubleASession.file
  placed := doubleASession.placed
  formed := by
    intro f hf
    cases List.mem_singleton.1 hf
    exact .of_check (by decide)
  typed := by decide
  entry := ⟨0, _, rfl, rfl, fun i w x h => by cases i <;> cases h⟩
  allocated := .cons (.create rfl) .nil

theorem findFSession_exact : findFSession.Exact := by
  have h : ((findFSession.run 8).toOption.bind TaggedState.outcome).isSome = true := by
    decide +kernel
  obtain ⟨o, ho⟩ := Option.isSome_iff_exists.1 h
  obtain ⟨s, hs, hdone⟩ := Option.bind_eq_some_iff.1 ho
  exact Session.exact_of_done (ok_of_toOption hs) hdone (by decide +kernel)

theorem findFSession_clean (n : Nat) (hn : n < 6) (h : findFSession.run n = .ok u) : u.Clean := by
  have hall : ∀ n < 6, ((findFSession.run n).toOption.all fun u => decide u.Clean) = true := by
    decide +kernel
  have hclean := hall n hn
  rw [h] at hclean
  exact of_decide_eq_true hclean

/-- The second branch of the program gets a file that takes its other side. -/
theorem generated_input_flips_branch_findF :
    ∃ s u s' stack label r r', findFSession.run 6 = .ok s ∧
      s.traceCalls = [.cond stack label r] ∧ findFSession.run 7 = .ok u ∧
      u.store.solver.files s.store.solver.currentIndex = some [70] ∧
      (findFSession.rerun [((.int 0, 8), 70)]).run 6 = .ok s' ∧
      s'.traceCalls = [.cond stack label r'] ∧ r' ≠ r := by
  have hcheck : ((findFSession.run 6).toOption.any fun s =>
      findFSession.solvesWith [((.int 0, 8), 70)] s &&
        (List.range 6).all fun n => (findFSession.run n).toOption.all fun u =>
          u.recordedAt findFSession.z s.store.solver 0) = true := by
    decide +kernel
  have hrerun : ((findFSession.rerun [((.int 0, 8), 70)]).run 6).toOption.isSome = true := by
    decide +kernel
  have hnext : (findFSession.run 7).toOption.isSome = true := by
    decide +kernel
  obtain ⟨s, hs, hcheck⟩ := (Option.any_eq_true _ _).1 hcheck
  obtain ⟨hsolved, hrec⟩ := Bool.and_eq_true_iff.1 hcheck
  obtain ⟨stack, label, r, hsolves⟩ := Session.solves_of_check hsolved (by decide)
  obtain ⟨s', hs'⟩ := Option.isSome_iff_exists.1 hrerun
  obtain ⟨u, hu⟩ := Option.isSome_iff_exists.1 hnext
  have hrun := ok_of_toOption hs
  have hrun' := ok_of_toOption hs'
  have hrecorded : ∀ n < 6, ∀ u, findFSession.run n = .ok u →
      u.RecordedIn findFSession.z s.store.solver := by
    intro n hn u hu
    have hu' := List.all_eq_true.1 hrec n (List.mem_range.2 hn)
    rw [hu] at hu'
    exact TaggedState.recordedIn_of_check hu'
  obtain ⟨-, hfile, -, hflip⟩ := generated_input_flips_branch findFSession findFSession_exact hrun
    (fun n hn u => findFSession_clean n hn) hrecorded hsolves
  obtain ⟨r', hr', hne⟩ := hflip s' hrun'
  have hu' := ok_of_toOption hu
  exact ⟨s, u, s', stack, label, r, r', hrun, hsolves.calls, hu', hfile u hu' rfl rfl, hrun', hr',
    hne⟩

end Kirenenko
