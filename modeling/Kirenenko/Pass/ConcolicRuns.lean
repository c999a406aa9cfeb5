import Kirenenko.Pass.ConcolicInsts

namespace Kirenenko
set_option autoImplicit true

/-- What an activation has still to run is well typed. -/
structure FrameTyped (types : List IrTyping) (τ : IrTyping) (F : IrFrame) : Prop where
  func : F.func.Typed types τ
  rest : ∀ x ∈ F.rest, x.2.Typed types τ F.func.promoted x.1
  term : F.term.Typed τ F.func.ret

/-- The call that a caller waits for has the type that the callee returns. -/
def IrFrame.Awaits (ret : Option Nat) (F : IrFrame) : Prop :=
  ∀ id callee args r rest, F.rest = (id, .call callee args r) :: rest → r = ret

/-- The activations of a program with labels that stand for their values. -/
inductive FramesStand (env : Env) (z : Z3) (t : LabelTable) (types : List IrTyping) :
    List IrFrame → List LabelFrame → Prop where
  | nil : FramesStand env z t types [] []
  | cons {F : IrFrame} : FrameTyped types τ F → FrameStands env z t τ F.locals g →
      (∀ G ∈ fs.head?, IrFrame.Awaits F.func.ret G) → FramesStand env z t types fs gs →
      FramesStand env z t types (F :: fs) (g :: gs)

/-- Everything that the program computes with has a label that stands for it. -/
structure RunStands {σ : Type} (env : Env) (z : Z3) (size : Nat) (J : σ → Prop)
    (types : List IrTyping) (s : TaggedState σ) : Prop where
  frames : FramesStand env z s.store.table types s.values.frames s.frames
  store : StoreStands env z size J s.store s.values.memory.mem
  result : ∀ x ∈ s.values.result, ∃ w, Stands env z s.store.table s.resultLabel w x

/-- The next instruction loads exactly, if it loads at all. -/
def TaggedState.Exact {σ : Type} (s : TaggedState σ) : Prop :=
  ∀ F ∈ s.values.frames.head?, ∀ x ∈ F.rest.head?,
    x.2.ExactAt F.func.promoted F.locals s.values.memory.mem s.store

/-- The value that a call tells the runtime of. -/
def TraceCall.value : TraceCall → Nat
  | .cond _ _ r => r
  | .cmp _ _ _ _ c1 _ => c1

/-- The calls that the next step makes. -/
def TaggedState.traceCalls {σ : Type} (s : TaggedState σ) : List TraceCall :=
  match s.values.frames, s.frames with
  | F :: fs, g :: _ =>
    let stack := (F :: fs).map IrFrame.site
    match F.rest with
    | (_, .select _ c _ _) :: _ =>
      ((F.locals.read 1 c).map fun k => TraceCall.cond stack (g.label c) k).toList
    | _ :: _ => []
    | [] => (F.term.traceCalls stack F.locals g).toOption.getD []
  | _, _ => []

/-- The runtime is told of these calls, in this order, and of nothing else. -/
theorem TaggedStep.traced {σ : Type} {R : Reaction σ} {s s' : TaggedState σ}
    (h : TaggedStep R host m s s') :
    ∃ S, s.traceCalls.foldlM (LabelStore.trace R s.values.memory.mem) s.store = .ok S ∧
      s'.store.solver = S.solver := by
  cases h with
  | @inst i rest M g S l₁ M₁ g₁ S₁ fs out gs label F id hrest hi =>
    simp only [TaggedState.traceCalls, List.map_cons, IrFrame.site, hrest, List.head?_cons,
      Option.map_some]
    cases hi with
    | select _ hk _ _ ht =>
      simp only [hk, Option.map_some, Option.toList_some, List.foldlM_cons, ht]
      exact ⟨S₁, rfl, rfl⟩
    | _ => exact ⟨S, rfl, rfl⟩
  | @call rest callee args ret G xs F' fs M out g gs S label F id hrest _ _ _ =>
    simp only [TaggedState.traceCalls, hrest]
    exact ⟨S, rfl, rfl⟩
  | @ret v x fs fs' M out g gs S label F hrest hterm _ _ =>
    simp only [TaggedState.traceCalls, hrest, hterm]
    exact ⟨S, rfl, rfl⟩
  | @jump g calls S S' t F' fs M out gs label F hrest _ hc ht _ _ =>
    simp only [TaggedState.traceCalls, List.map_cons, IrFrame.site, hrest, List.head?_nil,
      Option.map_none, hc]
    exact ⟨S', ht, rfl⟩
  | done hend =>
    have hnone : s.traceCalls = [] := by
      unfold TaggedState.traceCalls
      rcases hend with h | h
      · rw [h]
      · rw [h]
        cases s.values.frames <;> rfl
    rw [hnone]
    exact ⟨s.store, rfl, rfl⟩

/-- Arguments of the widths of the parameters. -/
def IrTyping.Fits (τ : IrTyping) (args : List Nat) : Prop :=
  ∀ (i : Nat) w x, τ.params[i]? = some w → args[i]? = some x → x < 2 ^ w

section
variable {env : Env} {z : Z3} {t t' : LabelTable} {τ : IrTyping} {l : Locals} {g : LabelFrame}

theorem FramesStand.extends (h : FramesStand env z t types fs gs) (ho : Ordered t)
    (hg : Extends t t') : FramesStand env z t' types fs gs := by
  induction h with
  | nil => exact .nil
  | cons hty hf haw _ ih => exact .cons hty (hf.extends ho hg) haw ih

theorem FrameTyped.enter {F : IrFrame} {b : IrBlock} {n : Nat} (h : F.func.Typed types τ)
    (hb : F.func.blocks[n]? = some b) (hrest : F.rest = b.body) (hterm : F.term = b.term) :
    FrameTyped types τ F := by
  obtain ⟨_, hbody, ht⟩ := h b (List.mem_of_getElem? hb)
  refine ⟨h, ?_, ?_⟩
  · rw [hrest]
    exact hbody
  · rw [hterm]
    exact ht

theorem FrameTyped.head {F : IrFrame} {x : Nat × IrInst} (h : FrameTyped types τ F)
    (hrest : F.rest = x :: xs) : x.2.Typed types τ F.func.promoted x.1 :=
  h.rest x (hrest ▸ List.mem_cons_self)

theorem FrameTyped.tail {F : IrFrame} (h : FrameTyped types τ F) (hrest : F.rest = x :: xs)
    (l : Locals) : FrameTyped types τ { F with rest := xs, locals := l } where
  func := h.func
  rest y hy := h.rest y (hrest ▸ List.mem_cons_of_mem _ hy)
  term := h.term

theorem result_extends {r : Option Nat} (h : ∀ x ∈ r, ∃ w, Stands env z t label w x)
    (ho : Ordered t) (hg : Extends t t') : ∀ x ∈ r, ∃ w, Stands env z t' label w x := by
  intro x hx
  obtain ⟨w, hw⟩ := h x hx
  exact ⟨w, hw.extends ho hg⟩

theorem FrameStands.phis {phis : List IrPhi} (h : FrameStands env z t τ l g)
    (hty : ∀ φ ∈ phis, φ.Typed τ) (hx : phiValues l p phis = some xs) (id : Nat) :
    (xs.lookup id = none ∧ (phiLabels g p phis).lookup id = none) ∨
      ∃ x label, xs.lookup id = some x ∧ (phiLabels g p phis).lookup id = some label ∧
        Stands env z t label (τ.regs id) x := by
  induction phis generalizing xs with
  | nil =>
    cases hx
    exact .inl ⟨rfl, rfl⟩
  | cons φ phis ih =>
    simp only [phiValues, List.mapM_cons, Option.bind_eq_bind, Option.bind_eq_some_iff] at hx
    obtain ⟨_, ⟨v, hv, x, hread, hpair⟩, ys, hys, hxs⟩ := hx
    cases hpair
    cases hxs
    have hlabels : phiLabels g p (φ :: phis) = (φ.id, g.label v) :: phiLabels g p phis := by
      simp only [phiLabels, List.filterMap_cons, hv, Option.map_some]
    obtain ⟨hreg, hin⟩ := hty φ List.mem_cons_self
    rw [hlabels, List.lookup_cons, List.lookup_cons]
    cases hid : id == φ.id with
    | true =>
      refine .inr ⟨x, g.label v, rfl, rfl, ?_⟩
      rw [eq_of_beq hid, hreg]
      obtain ⟨pre, post, hsplit, -⟩ := List.lookup_eq_some_iff.1 hv
      exact h.read (hin (p, v) (by rw [hsplit]; simp)) hread
    | false => exact ih (fun ψ hψ => hty ψ (List.mem_cons_of_mem _ hψ)) hys

theorem FrameStands.enter {phis : List IrPhi} (h : FrameStands env z t τ l g)
    (hty : ∀ φ ∈ phis, φ.Typed τ) (hx : phiValues l p phis = some xs) :
    FrameStands env z t τ (l.setAll xs) (g.enter p phis) where
  args := h.args
  regs id x hr := by
    change (xs.lookup id).or (l.regs id) = some x at hr
    change Stands env z t (((phiLabels g p phis).lookup id).getD (g.regs id)) _ x
    rcases h.phis hty hx id with ⟨hv, hl⟩ | ⟨y, label, hv, hl, hs⟩
    · rw [hv] at hr
      rw [hl]
      exact h.regs id x hr
    · rw [hv] at hr
      rw [hl]
      cases hr
      exact hs
  vars := h.vars

theorem argValues_getElem {args : List (Nat × IrValue)} {i : Nat} (h : argValues l args = some xs)
    (ha : args[i]? = some a) (hx : xs[i]? = some x) : l.read a.1 a.2 = some x := by
  induction args generalizing xs i with
  | nil => cases ha
  | cons b args ih =>
    simp only [argValues, List.mapM_cons, Option.bind_eq_bind, Option.bind_eq_some_iff] at h
    obtain ⟨y, hy, ys, hys, h⟩ := h
    cases h
    cases i with
    | zero =>
      cases ha
      cases hx
      exact hy
    | succ i => exact ih hys ha hx

theorem FrameStands.start {args : List (Nat × IrValue)} {τ' : IrTyping}
    (h : FrameStands env z t τ l g) (hty : ∀ a ∈ args, τ.Has a.1 a.2)
    (hp : τ'.params = args.map Prod.fst) (hx : argValues l args = some xs) :
    FrameStands env z t τ' (.enter xs) (g.start args) where
  args i w x hw hi := by
    rw [hp, List.getElem?_map, Option.map_eq_some_iff] at hw
    obtain ⟨a, ha, rfl⟩ := hw
    change Stands env z t ((args[i]?).elim 0 fun a => g.label a.2) a.1 x
    rw [ha]
    exact h.read (hty a (List.mem_of_getElem? ha)) (argValues_getElem hx ha hi)
  regs id x hx := by cases hx
  vars a x hx := by cases hx

theorem TraceCall.Tells.extends {c : TraceCall} (h : c.Tells env z t) (ho : Ordered t)
    (hg : Extends t t') : c.Tells env z t' := by
  cases c with
  | cond stack label r => exact Stands.extends h ho hg
  | cmp stack k label size c1 c2 =>
    obtain ⟨hlo, hhi, hc, hs⟩ := h
    exact ⟨hlo, hhi, hc, hs.extends ho hg⟩

/-- The runtime is told the truth about every branch. -/
theorem FrameStands.traceCalls {term : IrTerm} (h : FrameStands env z t τ l g)
    (hty : term.Typed τ ret) (hc : term.traceCalls stack l g = .ok calls) :
    ∀ c ∈ calls, c.Tells env z t := by
  cases term with
  | br target =>
    cases hc
    intro c hc
    cases hc
  | condBr c t e =>
    obtain ⟨x, hx, hc⟩ := except_bind_ok.1 hc
    cases hc
    intro c hc
    cases List.mem_singleton.1 hc
    exact h.read hty (defined_ok.1 hx)
  | switch w c cases default =>
    obtain ⟨x, hx, hc⟩ := except_bind_ok.1 hc
    cases hc
    intro c hc
    obtain ⟨y, -, rfl⟩ := List.mem_map.1 hc
    obtain ⟨hv, hlo, hhi, _⟩ := hty
    have hs := h.read hv (defined_ok.1 hx)
    refine ⟨hlo, hhi, ?_, ?_⟩
    · exact Nat.lt_of_le_of_lt (Nat.mod_le _ _) (Nat.mod_lt _ (Nat.two_pow_pos w))
    · rw [value_mod ⟨hlo, hhi⟩ hs.bound]
      exact hs
  | ret v =>
    cases hc
    intro c hc
    cases hc

section
variable {σ : Type} {R : Reaction σ} {J : σ → Prop} {S S' : LabelStore σ} {mem : Nat → UInt8}
  {host : IrHost} {m : List IrFunction} {s s' : TaggedState σ}

theorem StoreStands.traces {calls : List TraceCall}
    (h : StoreStands env z size J S mem) (hR : R.Sound env z size J)
    (ht : calls.foldlM (LabelStore.trace R mem) S = .ok S')
    (hc : ∀ c ∈ calls, c.Tells env z S.table) :
    StoreStands env z size J S' mem ∧ Extends S.table S'.table := by
  induction calls generalizing S with
  | nil =>
    cases ht
    exact ⟨h, .refl _⟩
  | cons c calls ih =>
    rw [List.foldlM_cons] at ht
    obtain ⟨S₁, ht₁, ht⟩ := except_bind_ok.1 ht
    obtain ⟨h₁, hg₁⟩ := h.trace hR ht₁ (hc c List.mem_cons_self)
    obtain ⟨h', hg'⟩ := ih h₁ ht fun d hd =>
      (hc d (List.mem_cons_of_mem _ hd)).extends h.table.ordered hg₁
    exact ⟨h', hg₁.trans hg'⟩

theorem FrameStands.returned {v : Option (Nat × IrValue)} (h : FrameStands env z t τ l g)
    (hty : (IrTerm.ret v).Typed τ ret) (hx : returnValue l ret v = .ok x) :
    (x = none ∧ v = none) ∨ ∃ w a y, x = some y ∧ v = some (w, a) ∧ ret = some w ∧
      Stands env z t (g.label a) w y := by
  cases v with
  | none =>
    cases ret with
    | none =>
      cases hx
      exact .inl ⟨rfl, rfl⟩
    | some w => cases hx
  | some v =>
    obtain ⟨w, a⟩ := v
    obtain ⟨hv, rfl⟩ := hty (w, a) rfl
    obtain ⟨y, hy, hx⟩ := except_bind_ok.1 hx
    cases hx
    exact .inr ⟨w, a, y, rfl, rfl, rfl, h.read hv (defined_ok.1 hy)⟩

theorem returnTo_ok {G : IrFrame} (h : returnTo x (G :: fs) = .ok fs') :
    ∃ id callee args r rest, G.rest = (id, .call callee args r) :: rest ∧
      fs' = { G with rest := rest, locals := x.elim G.locals (G.locals.set id) } :: fs := by
  simp only [returnTo] at h
  split at h
  case h_1 id callee args r rest hrest =>
    cases h
    exact ⟨id, callee, args, r, rest, hrest, rfl⟩
  case h_2 => cases h

theorem FramesStand.resume {v : Option (Nat × IrValue)}
    (h : FramesStand env z t types fs gs)
    (haw : ∀ G ∈ fs.head?, IrFrame.Awaits ret G)
    (hx : (x = none ∧ v = none) ∨ ∃ w a y, x = some y ∧ v = some (w, a) ∧ ret = some w ∧
      Stands env z t (g.label a) w y)
    (hr : returnTo x fs = .ok fs') :
    FramesStand env z t types fs' (labelReturn (v.map fun v => g.label v.2) fs gs) := by
  cases h with
  | nil =>
    cases hr
    exact .nil
  | @cons τ g' fs gs G hty hf hup htail =>
    obtain ⟨id, callee, args, r, rest, hrest, rfl⟩ := returnTo_ok hr
    obtain rfl := haw G rfl id callee args r rest hrest
    obtain ⟨_, _, hid⟩ := hty.head hrest
    rcases hx with ⟨rfl, rfl⟩ | ⟨w, a, y, rfl, rfl, rfl, hs⟩
    · exact .cons (hty.tail hrest _) hf hup htail
    · simp only [labelReturn, Option.map_some, hrest]
      rw [← hid w rfl] at hs
      exact .cons (hty.tail hrest _) (hf.set hs) hup htail

theorem start_ok {G : IrFunction} (h : G.start xs ret = .ok F) :
    G.ret = ret ∧ ∃ b, G.blocks[0]? = some b ∧ F = ⟨G, 0, b.body, b.term, .enter xs⟩ := by
  obtain ⟨_, hif, h⟩ := except_bind_ok.1 h
  obtain ⟨b, hb, h⟩ := except_bind_ok.1 h
  cases h
  exact ⟨(Option.ite_none_right_eq_some.1 (defined_ok.1 hif)).1.2, b, defined_ok.1 hb, rfl⟩

theorem jump_ok {F : IrFrame} {n : Nat} (h : F.jump n = .ok F') :
    ∃ b xs, F.func.blocks[n]? = some b ∧ phiValues F.locals F.block b.phis = some xs ∧
      F' = { F with block := n, rest := b.body, term := b.term, locals := F.locals.setAll xs } := by
  obtain ⟨b, hb, h⟩ := except_bind_ok.1 h
  obtain ⟨xs, hx, h⟩ := except_bind_ok.1 h
  cases h
  exact ⟨b, xs, defined_ok.1 hb, defined_ok.1 hx, rfl⟩

theorem TaggedStep.stands (h : TaggedStep R host m s s') (hz : z.Lawful)
    (hR : R.Sound env z size J) (hin : HostInput env size host) (hm : ModuleTyped types m)
    (hex : s.Exact) (hs : RunStands env z size J types s) : RunStands env z size J types s' := by
  cases h with
  | @inst i rest M g S l' M' g' S' fs out gs label F id hrest hi =>
    obtain ⟨hframes, hstore, hres⟩ := hs
    cases hframes with
    | cons hty hf haw htail =>
      have hexact := hex F rfl (id, i) (by rw [hrest]; rfl)
      obtain ⟨hf', hstore', hg⟩ := hi.stands hz hR hin (hty.head hrest) hexact hf hstore
      have ho := hstore.table.ordered
      exact ⟨.cons (hty.tail hrest _) hf' haw (htail.extends ho hg), hstore',
        result_extends hres ho hg⟩
  | @call rest callee args ret G xs F' fs M out g gs S label F id hrest hG hx hstart =>
    obtain ⟨hframes, hstore, hres⟩ := hs
    cases hframes with
    | cons hty hf haw htail =>
      obtain ⟨hparams, hargs, _⟩ := hty.head hrest
      obtain ⟨τ', hτ', htyG⟩ := hm.function hG
      obtain ⟨hret, b, hb, rfl⟩ := start_ok hstart
      rw [hτ', Option.map_some, Option.some.injEq] at hparams
      refine ⟨.cons (.enter htyG hb rfl rfl) (hf.start hargs hparams hx) ?_
        (.cons hty hf haw htail), hstore, hres⟩
      intro F₀ hF₀ id' callee' args' r' rest' hrest'
      cases hF₀
      rw [hrest] at hrest'
      cases hrest'
      exact hret.symm
  | @ret v x fs fs' M out g gs S label F hrest hterm hx hr =>
    obtain ⟨hframes, hstore, hres⟩ := hs
    cases hframes with
    | cons hty hf haw htail =>
      have hreturned := hf.returned (hterm ▸ hty.term) hx
      refine ⟨htail.resume haw hreturned hr, hstore, ?_⟩
      intro y hy
      cases fs with
      | cons G fs => exact hres y hy
      | nil =>
        rcases hreturned with ⟨rfl, -⟩ | ⟨w, a, _, rfl, rfl, -, hst⟩
        · cases hy
        · cases hy
          exact ⟨w, hst⟩
  | @jump g calls S S' t F' fs M out gs label F hrest hret hc ht htarget hj =>
    obtain ⟨hframes, hstore, hres⟩ := hs
    cases hframes with
    | cons hty hf haw htail =>
      obtain ⟨hstore', hg⟩ := hstore.traces hR ht (hf.traceCalls hty.term hc)
      have ho := hstore.table.ordered
      obtain ⟨b, xs, hb, hx, rfl⟩ := jump_ok hj
      have hphis := (hty.func b (List.mem_of_getElem? hb)).1
      have hjump : g.jump F t = g.enter F.block b.phis := by
        unfold LabelFrame.jump
        rw [hb]
        rfl
      rw [hjump]
      exact ⟨.cons (.enter hty.func hb rfl rfl) ((hf.extends ho hg).enter hphis hx) haw
        (htail.extends ho hg), hstore', result_extends hres ho hg⟩
  | done _ => exact hs

theorem RunStands.start {main : IrFunction} {k : Nat} (hm : ModuleTyped types m)
    (hmain : m[k]? = some main) (hτ : types[k]? = some τ) (hargs : τ.Fits args)
    (hS : StoreStands env z size J S M.mem) (h : TaggedState.start main args M S = .ok s) :
    RunStands env z size J types s := by
  obtain ⟨v, hv, h⟩ := except_bind_ok.1 h
  obtain ⟨F, hF, hv⟩ := except_bind_ok.1 hv
  cases hv
  cases h
  obtain ⟨_, b, hb, rfl⟩ := start_ok hF
  obtain ⟨τ', hτ', hty⟩ := hm.function hmain
  rw [hτ] at hτ'
  cases hτ'
  refine ⟨.cons (.enter hty hb rfl rfl) ⟨?_, ?_, ?_⟩ ?_ .nil, hS, ?_⟩
  · intro i w x hw hx
    exact .zero (hargs i w x hw hx)
  · intro id x hx
    cases hx
  · intro a x hx
    cases hx
  · intro G hG
    cases hG
  · intro x hx
    cases hx

/-- Labels stand for values throughout a run whose loads are exact. -/
theorem RunStands.run (hz : z.Lawful) (hR : R.Sound env z size J)
    (hin : HostInput env size host) (hm : ModuleTyped types m)
    (hex : ∀ k s, TaggedState.run R host m k s₀ = .ok s → s.Exact)
    (h₀ : RunStands env z size J types s₀) (h : TaggedState.run R host m n s₀ = .ok s) :
    RunStands env z size J types s := by
  have hstep : ∀ a b, (RunStands env z size J types a ∧
        ∃ k, TaggedState.run R host m k s₀ = .ok a) → TaggedState.step R host m a = .ok b →
      RunStands env z size J types b ∧ ∃ k, TaggedState.run R host m k s₀ = .ok b := by
    rintro a b ⟨ha, k, hk⟩ hab
    refine ⟨(taggedStep_ok hab).stands hz hR hin hm (hex k a hk) ha, k + 1, ?_⟩
    change stepsOf _ (k + 1) s₀ = _
    rw [stepsOf_add]
    change TaggedState.run R host m k s₀ >>= _ = _
    rw [hk, except_ok_bind, stepsOf_one]
    exact hab
  exact (stepsOf_invariant hstep ⟨h₀, 0, rfl⟩ h).1

theorem RunStands.traceCalls (h : RunStands env z size J types s) :
    ∀ c ∈ s.traceCalls, c.Tells env z s.store.table := by
  obtain ⟨⟨frames, M, out⟩, gs, S, label⟩ := s
  obtain ⟨hframes, -, -⟩ := h
  intro c hc
  cases hframes with
  | nil => cases hc
  | @cons τ g fs gs F hty hf haw htail =>
    simp only [TaggedState.traceCalls] at hc
    split at hc
    case h_1 id w v a b rest hrest =>
      obtain ⟨hv, -, -, -⟩ := hty.head hrest
      cases hk : F.locals.read 1 v with
      | none =>
        rw [hk] at hc
        cases hc
      | some k =>
        rw [hk] at hc
        cases List.mem_singleton.1 hc
        exact hf.read hv hk
    case h_2 => cases hc
    case h_3 =>
      cases hcalls : F.term.traceCalls ((F :: fs).map IrFrame.site) F.locals g with
      | error e =>
        rw [hcalls] at hc
        cases hc
      | ok calls =>
        rw [hcalls] at hc
        exact hf.traceCalls hty.term hcalls c hc

end

end

end Kirenenko
