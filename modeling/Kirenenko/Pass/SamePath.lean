import Kirenenko.Pass.TwoRuns

namespace Kirenenko
set_option autoImplicit true

/-- The same activations, with the same values wherever there is no label. -/
inductive FramesAlike : List IrFrame → List IrFrame → List LabelFrame → Prop where
  | nil : FramesAlike [] [] []
  | cons {F : IrFrame} : LocalsAlike g F.locals l' → FramesAlike fs fs' gs →
      FramesAlike (F :: fs) ({ F with locals := l' } :: fs') (g :: gs)

/-- Two runs at the same place, with the same labels, and the same values where there is none. -/
structure RunAlike {σ : Type} (Q : σ → σ → Prop) (s s' : TaggedState σ) : Prop where
  frames : FramesAlike s.values.frames s'.values.frames s.frames
  labels : s'.frames = s.frames
  store : StoreAlike Q s.values.memory s'.values.memory s.store s'.store
  resultLabel : s'.resultLabel = s.resultLabel
  result : s.resultLabel = 0 → s'.values.result = s.values.result

/-- The next instruction is clean. -/
def TaggedState.Clean {σ : Type} (s : TaggedState σ) : Prop :=
  ∀ F ∈ s.values.frames.head?, ∀ g ∈ s.frames.head?, ∀ x ∈ F.rest.head?,
    x.2.Clean F.func.promoted g

/-- A call that tells where a branch goes: a condition, or the case that is taken. -/
def TraceCall.Taken : TraceCall → Prop
  | .cond _ _ _ => True
  | .cmp _ _ _ _ c1 c2 => c1 = c2

/-- The calls for a branch decide it in the same way on another input: all of them, or the one that
tells where it goes. -/
def HoldOn (z : Z3) (t : LabelTable) (env : Env) (calls : List TraceCall) : Prop :=
  (∀ c ∈ calls, c.HoldsOn z t env) ∨ ∃ c ∈ calls, c.Taken ∧ c.HoldsOn z t env

/-- The next step branches on another input as it does here. -/
def TaggedState.HoldsOn {σ : Type} (z : Z3) (env : Env) (s : TaggedState σ) : Prop :=
  HoldOn z s.store.table env s.traceCalls

section
variable {env env' : Env} {z : Z3} {t t' : LabelTable} {τ τ' : IrTyping} {l l' : Locals}
  {g : LabelFrame}

theorem FramesAlike.sites (h : FramesAlike fs fs' gs) :
    fs'.map IrFrame.site = fs.map IrFrame.site := by
  induction h with
  | nil => rfl
  | cons _ _ ih => exact congrArg (_ :: ·) ih

theorem FramesAlike.isEmpty (h : FramesAlike fs fs' gs) : fs'.isEmpty = fs.isEmpty := by
  cases h <;> rfl

theorem FramesAlike.labelReturn (h : FramesAlike fs fs' gs) (label : Option Nat) :
    labelReturn label fs' gs = labelReturn label fs gs := by
  cases h <;> rfl

theorem LocalsAlike.phis {phis : List IrPhi} (h : LocalsAlike g l l')
    (hx : phiValues l p phis = some xs) (hx' : phiValues l' p phis = some xs') (id : Nat) :
    (xs.lookup id = none ∧ xs'.lookup id = none ∧ (phiLabels g p phis).lookup id = none) ∨
      ∃ x x' label, xs.lookup id = some x ∧ xs'.lookup id = some x' ∧
        (phiLabels g p phis).lookup id = some label ∧ (label = 0 → x' = x) := by
  induction phis generalizing xs xs' with
  | nil =>
    cases hx
    cases hx'
    exact .inl ⟨rfl, rfl, rfl⟩
  | cons φ phis ih =>
    simp only [phiValues, List.mapM_cons, Option.bind_eq_bind, Option.bind_eq_some_iff] at hx hx'
    obtain ⟨_, ⟨v, hv, x, hread, hpair⟩, ys, hys, hxs⟩ := hx
    obtain ⟨_, ⟨v', hv', x', hread', hpair'⟩, ys', hys', hxs'⟩ := hx'
    cases hpair
    cases hxs
    cases hpair'
    cases hxs'
    rw [hv] at hv'
    cases hv'
    have hlabels : phiLabels g p (φ :: phis) = (φ.id, g.label v) :: phiLabels g p phis := by
      simp only [phiLabels, List.filterMap_cons, hv, Option.map_some]
    rw [hlabels, List.lookup_cons, List.lookup_cons, List.lookup_cons]
    cases id == φ.id with
    | true => exact .inr ⟨x, x', g.label v, rfl, rfl, rfl, fun h0 => h.read h0 hread hread'⟩
    | false => exact ih hys hys'

theorem LocalsAlike.enter {phis : List IrPhi} (h : LocalsAlike g l l')
    (hx : phiValues l p phis = some xs) (hx' : phiValues l' p phis = some xs') :
    LocalsAlike (g.enter p phis) (l.setAll xs) (l'.setAll xs') where
  args := h.args
  regs id h0 := by
    change ((phiLabels g p phis).lookup id).getD (g.regs id) = 0 at h0
    change (xs'.lookup id).or (l'.regs id) = (xs.lookup id).or (l.regs id)
    rcases h.phis hx hx' id with ⟨hv, hv', hl⟩ | ⟨x, x', label, hv, hv', hl, heq⟩
    · rw [hl] at h0
      rw [hv, hv']
      exact h.regs id h0
    · rw [hl] at h0
      rw [hv, hv', heq h0]
      rfl
  vars := h.vars
  passed := h.passed
  assigned id := by
    change ((xs'.lookup id).or (l'.regs id)).isSome = ((xs.lookup id).or (l.regs id)).isSome
    rcases h.phis hx hx' id with ⟨hv, hv', -⟩ | ⟨x, x', label, hv, hv', -⟩
    · rw [hv, hv']
      exact h.assigned id
    · rw [hv, hv']
      rfl

theorem LocalsAlike.start {args : List (Nat × IrValue)} (h : LocalsAlike g l l')
    (hx : argValues l args = some xs) (hx' : argValues l' args = some xs') :
    LocalsAlike (g.start args) (.enter xs) (.enter xs') where
  args i h0 := by
    change (args[i]?).elim 0 (fun a => g.label a.2) = 0 at h0
    change xs'[i]? = xs[i]?
    have hlen := argValues_length hx
    have hlen' := argValues_length hx'
    rcases Nat.lt_or_ge i args.length with hi | hi
    · have ha := List.getElem?_eq_getElem hi
      have hv := List.getElem?_eq_getElem (hlen.symm ▸ hi)
      have hv' := List.getElem?_eq_getElem (hlen'.symm ▸ hi)
      rw [ha] at h0
      rw [hv, hv']
      exact congrArg some (h.read h0 (argValues_getElem hx ha hv) (argValues_getElem hx' ha hv'))
    · rw [List.getElem?_eq_none (by omega), List.getElem?_eq_none (by omega)]
  regs _ _ := rfl
  vars _ _ := rfl
  passed := (argValues_length hx').trans (argValues_length hx).symm
  assigned _ := rfl

theorem LocalsAlike.returned {v : Option (Nat × IrValue)} (h : LocalsAlike g l l')
    (hx : returnValue l ret v = .ok x) (hx' : returnValue l' ret v = .ok x') :
    (x = none ∧ x' = none ∧ v = none) ∨
      ∃ w a y y', x = some y ∧ x' = some y' ∧ v = some (w, a) ∧ (g.label a = 0 → y' = y) := by
  cases ret with
  | none =>
    cases v with
    | none =>
      cases hx
      cases hx'
      exact .inl ⟨rfl, rfl, rfl⟩
    | some v => cases hx
  | some u =>
    cases v with
    | none => cases hx
    | some v =>
      obtain ⟨w, a⟩ := v
      obtain ⟨y, hy, hx⟩ := except_bind_ok.1 hx
      obtain ⟨y', hy', hx'⟩ := except_bind_ok.1 hx'
      cases hx
      cases hx'
      exact .inr ⟨w, a, y, y', rfl, rfl, rfl,
        fun h0 => h.read h0 (defined_ok.1 hy) (defined_ok.1 hy')⟩

theorem FramesAlike.resume {v : Option (Nat × IrValue)} (h : FramesAlike fs fs' gs)
    (hx : (x = none ∧ x' = none ∧ v = none) ∨
      ∃ w a y y', x = some y ∧ x' = some y' ∧ v = some (w, a) ∧ (g.label a = 0 → y' = y))
    (hr : returnTo x fs = .ok fs₁) (hr' : returnTo x' fs' = .ok fs₁') :
    FramesAlike fs₁ fs₁' (Kirenenko.labelReturn (v.map fun v => g.label v.2) fs gs) := by
  cases h with
  | nil =>
    cases hr
    cases hr'
    exact .nil
  | @cons g' l' fs fs' gs G hl htail =>
    obtain ⟨id, callee, args, r, rest, hrest, rfl⟩ := returnTo_ok hr
    obtain ⟨id', callee', args', r', rest', hrest', rfl⟩ := returnTo_ok hr'
    cases hrest.symm.trans hrest'
    rcases hx with ⟨rfl, rfl, rfl⟩ | ⟨w, a, y, y', rfl, rfl, rfl, heq⟩
    · exact .cons hl htail
    · simp only [Kirenenko.labelReturn, Option.map_some, hrest]
      exact .cons (hl.set heq) htail

theorem related_defined {x x' : Option α} (h : x'.isSome = x.isSome) :
    Related (fun _ _ => True) (defined x) (defined x') := by
  cases x with
  | none =>
    cases x' with
    | none => rfl
    | some _ => cases h
  | some _ =>
    cases x' with
    | none => cases h
    | some _ => trivial

theorem Related.getD_nil {Q : α → β → Prop} {x : Except ε (List α)} {y : Except ε (List β)}
    (h : Related (List.Forall₂ Q) x y) :
    List.Forall₂ Q (x.toOption.getD []) (y.toOption.getD []) := by
  cases x with
  | error e =>
    cases y with
    | error e' => exact .nil
    | ok _ => exact h.elim
  | ok _ =>
    cases y with
    | error e' => exact h.elim
    | ok _ => exact h

theorem forall₂_toList {Q : β → β → Prop} {f : α → β} {x x' : Option α}
    (h : x'.isSome = x.isSome) (hf : ∀ a a', Q (f a) (f a')) :
    List.Forall₂ Q (x.map f).toList (x'.map f).toList := by
  cases x with
  | none =>
    cases x' with
    | none => exact .nil
    | some _ => cases h
  | some a =>
    cases x' with
    | none => cases h
    | some a' => exact .cons (hf a a') .nil

theorem LocalsAlike.traceCalls (h : LocalsAlike g l l') (stack : List TraceSite) (term : IrTerm) :
    Related (List.Forall₂ TraceCall.Alike) (term.traceCalls stack l g)
      (term.traceCalls stack l' g) := by
  cases term with
  | br target => exact .nil
  | condBr c t e =>
    apply (related_defined (h.read_isSome 1 c)).bind
    intro x x' _
    exact .cons .cond .nil
  | switch w c cases default =>
    apply (related_defined (h.read_isSome w c)).bind
    intro x x' _
    change List.Forall₂ _ _ _
    rw [List.forall₂_map_left_iff, List.forall₂_map_right_iff, List.forall₂_same]
    intro y _
    exact .cmp
  | ret v => exact .nil

theorem lookup_congr {cases : List (Nat × Nat)} (h : ∀ y ∈ cases, x' = y.1 ↔ x = y.1) :
    cases.lookup x' = cases.lookup x := by
  induction cases with
  | nil => rfl
  | cons y cases ih =>
    rw [List.lookup_cons, List.lookup_cons, ih fun y' hy' => h y' (List.mem_cons_of_mem _ hy')]
    have hy : (x' == y.1) = (x == y.1) := by
      rw [Bool.eq_iff_iff, beq_iff_eq, beq_iff_eq]
      exact h y List.mem_cons_self
    rw [hy]

theorem HoldOn.singleton (h : HoldOn z t env [c]) : c.HoldsOn z t env := by
  rcases h with h | ⟨d, hd, -, h⟩
  · exact h c List.mem_cons_self
  · cases List.mem_singleton.1 hd
    exact h

theorem mem_caseCalls {cases : List (Nat × Nat)} {y : Nat × Nat} (hy : y ∈ cases)
    (f : (Nat × Nat) × Nat → TraceCall) : ∃ i, f (y, i) ∈ cases.zipIdx.map f := by
  obtain ⟨i, hi⟩ := List.getElem?_of_mem hy
  exact ⟨i, List.mem_map_of_mem (List.mk_mem_zipIdx_iff_getElem?.2 hi)⟩

theorem case_alike (hz : z.Lawful) (hs : SoundTable env z size t)
    (hs' : SoundTable env' z size t') (hk : SameKeys t t') (hw : 1 ≤ w ∧ w ≤ 64)
    (hy : y < 2 ^ w) (hx : Stands env z t label w x) (hx' : Stands env' z t' label w x')
    (h0 : label = 0 → x' = x)
    (hcall : (TraceCall.cmp stack i label w (x % 2 ^ 64) (y % 2 ^ w % 2 ^ 64)).HoldsOn z t env') :
    x' = y ↔ x = y := by
  rw [value_mod hw hx.bound, Nat.mod_eq_of_lt hy, value_mod hw hy] at hcall
  have hsame := TraceCall.Alike.outcome_eq .cmp hz hs hs' hk ⟨hw.1, hw.2, hy, hx⟩
    ⟨hw.1, hw.2, hy, hx'⟩ hcall h0
  have hbool : ∀ a b : Bool, a.toNat = b.toNat → a = b := by decide
  exact decide_eq_decide.1 (hbool _ _ hsame)

-- Either every comparison with a case comes out as before, or the one with the case taken does,
-- and then the second run takes that case too.
theorem switch_alike {cases : List (Nat × Nat)} (hcases : ∀ y ∈ cases, y.1 < 2 ^ w)
    (hw : 1 ≤ w ∧ w ≤ 64) (hx : x < 2 ^ w)
    (hcase : ∀ y ∈ cases, ∀ i, (TraceCall.cmp stack i label w (x % 2 ^ 64)
      (y.1 % 2 ^ w % 2 ^ 64)).HoldsOn z t env' → (x' = y.1 ↔ x = y.1))
    (hholds : HoldOn z t env' (cases.zipIdx.map fun y =>
      .cmp stack y.2 label w (x % 2 ^ 64) (y.1.1 % 2 ^ w % 2 ^ 64))) :
    cases.lookup x' = cases.lookup x := by
  rcases hholds with hall | ⟨d, hd, htaken, hone⟩
  · apply lookup_congr
    intro y hy
    obtain ⟨i, hi⟩ := mem_caseCalls hy fun y => TraceCall.cmp stack y.2 label w
      (x % 2 ^ 64) (y.1.1 % 2 ^ w % 2 ^ 64)
    exact hcase y hy i (hall _ hi)
  · obtain ⟨⟨y, i⟩, hy, rfl⟩ := List.mem_map.1 hd
    have hmem : y ∈ cases := List.fst_mem_of_mem_zipIdx hy
    have hyw := hcases y hmem
    have hxy : x = y.1 := by
      change x % 2 ^ 64 = y.1 % 2 ^ w % 2 ^ 64 at htaken
      rwa [value_mod hw hx, Nat.mod_eq_of_lt hyw, value_mod hw hyw] at htaken
    rw [(hcase y hmem i hone).2 hxy, hxy]

theorem target_alike {term : IrTerm} (hz : z.Lawful) (hs : SoundTable env z size t)
    (hs' : SoundTable env' z size t') (hk : SameKeys t t')
    (hf : FrameStands env z t τ l g) (hf' : FrameStands env' z t' τ' l' g)
    (hl : LocalsAlike g l l') (hty : term.Typed τ ret) (hty' : term.Typed τ' ret')
    (hc : term.traceCalls stack l g = .ok calls) (hholds : HoldOn z t env' calls)
    (ht : term.target l = .ok n) (ht' : term.target l' = .ok n') : n' = n := by
  cases term with
  | br target =>
    cases ht
    cases ht'
    rfl
  | condBr c a b =>
    obtain ⟨x, hx, ht⟩ := except_bind_ok.1 ht
    obtain ⟨x', hx', ht'⟩ := except_bind_ok.1 ht'
    rw [IrTerm.traceCalls, hx] at hc
    cases ht
    cases ht'
    cases hc
    have hsame := TraceCall.Alike.outcome_eq .cond hz hs hs' hk (hf.read hty (defined_ok.1 hx))
      (hf'.read hty' (defined_ok.1 hx')) hholds.singleton
      fun h0 => hl.read h0 (defined_ok.1 hx) (defined_ok.1 hx')
    simp only [TraceCall.outcome] at hsame
    rw [hsame]
  | switch w c cases default =>
    obtain ⟨x, hx, ht⟩ := except_bind_ok.1 ht
    obtain ⟨x', hx', ht'⟩ := except_bind_ok.1 ht'
    rw [IrTerm.traceCalls, hx] at hc
    cases ht
    cases ht'
    cases hc
    obtain ⟨hv, hlo, hhi, hcases⟩ := hty
    have hsx := hf.read hv (defined_ok.1 hx)
    have hsx' := hf'.read hty'.1 (defined_ok.1 hx')
    have hsame : cases.lookup x' = cases.lookup x := by
      refine switch_alike hcases ⟨hlo, hhi⟩ hsx.bound ?_ hholds
      intro y hy i
      exact case_alike hz hs hs' hk ⟨hlo, hhi⟩ (hcases y hy) hsx hsx' fun h0 =>
        hl.read h0 (defined_ok.1 hx) (defined_ok.1 hx')
    rw [hsame]
  | ret v => cases ht

section
variable {σ : Type} {R R' : Reaction σ} {Q : σ → σ → Prop} {J J' : σ → Prop} {S S' : LabelStore σ}
  {host host' : IrHost} {M M' : IrMemory} {m : List IrFunction} {s s' : TaggedState σ}

theorem StoreAlike.traces {calls calls' : List TraceCall} (h : StoreAlike Q M M' S S')
    (hR : R.Alike R' env env' z size Q) (hRs : R.Sound env z size J)
    (hRs' : R'.Sound env' z size J') (hcc : List.Forall₂ TraceCall.Alike calls calls')
    (hs : StoreStands env z size J S M.mem) (hs' : StoreStands env' z size J' S' M'.mem)
    (hc : ∀ c ∈ calls, c.Tells env z S.table) (hc' : ∀ c ∈ calls', c.Tells env' z S'.table)
    (ht : calls.foldlM (LabelStore.trace R M.mem) S = .ok S₁)
    (ht' : calls'.foldlM (LabelStore.trace R' M'.mem) S' = .ok S₁') :
    StoreAlike Q M M' S₁ S₁' := by
  induction hcc generalizing S S' with
  | nil =>
    cases ht
    cases ht'
    exact h
  | @cons c c' calls calls' halike _ ih =>
    rw [List.foldlM_cons] at ht ht'
    obtain ⟨S₂, ht₂, ht⟩ := except_bind_ok.1 ht
    obtain ⟨S₂', ht₂', ht'⟩ := except_bind_ok.1 ht'
    have hcall := hc c List.mem_cons_self
    have hcall' := hc' c' List.mem_cons_self
    obtain ⟨h₂, hg⟩ := hs.trace hRs ht₂ hcall
    obtain ⟨h₂', hg'⟩ := hs'.trace hRs' ht₂' hcall'
    refine ih (h.trace hR halike hs hs' hcall hcall' ht₂ ht₂') h₂ h₂' ?_ ?_ ht ht'
    · intro d hd
      exact (hc d (List.mem_cons_of_mem _ hd)).extends hs.table.ordered hg
    · intro d hd
      exact (hc' d (List.mem_cons_of_mem _ hd)).extends hs'.table.ordered hg'

theorem LoadsExactly.alike (h : LoadsExactly t app ls n) (hk : SameKeys t t')
    (happ : ∀ i, ls i = 0 → app' i = app i) : LoadsExactly t' app' ls n := by
  intro hsome
  obtain ⟨hconsecutive, hzero⟩ := h hsome
  refine ⟨?_, ?_⟩
  · intro hc i hi
    rw [hk.key]
    exact hconsecutive (by simpa only [Consecutive, hk.key] using hc) i hi
  · intro j hj hall
    rw [happ j (hall j (Nat.le_refl j))]
    exact hzero j hj hall

theorem RunAlike.exact (h : RunAlike Q s s') (hclean : s.Clean) (hex : s.Exact) : s'.Exact := by
  obtain ⟨⟨frames, M, out⟩, gs, S, label⟩ := s
  obtain ⟨⟨frames', M', out'⟩, gs', S', label'⟩ := s'
  obtain ⟨hframes, hlabels, hst, -, -⟩ := h
  cases hframes with
  | nil =>
    intro F hF
    cases hF
  | @cons g l' fs fs' gs F hl htail =>
    intro F' hF' x hx
    cases hF'
    have hexact := hex F rfl x hx
    have hcl := hclean F rfl g rfl x hx
    obtain ⟨id, i⟩ := x
    cases i with
    | load w ptr =>
      intro hvar p hp
      change l'.read 64 ptr = some p at hp
      rw [hl.read_eq (hcl hvar)] at hp
      rw [hst.shadow]
      exact (hexact hvar p hp).alike hst.table fun i h0 => hst.mem _ h0
    | _ => trivial

section
variable {F : IrFrame} {fs : List IrFrame} {out : Option Nat} {gs : List LabelFrame}
  {label id : Nat} {g₁ : LabelFrame} {S₁ : LabelStore σ} {M₁ : IrMemory} {l₁ : Locals}

theorem RunAlike.cons_inv (h : RunAlike Q ⟨⟨F :: fs, M, out⟩, g :: gs, S, label⟩ s') :
    ∃ l' fs' M' out' S', s' = ⟨⟨{ F with locals := l' } :: fs', M', out'⟩, g :: gs, S', label⟩ ∧
      LocalsAlike g F.locals l' ∧ FramesAlike fs fs' gs ∧ StoreAlike Q M M' S S' ∧
      (label = 0 → out' = out) := by
  obtain ⟨⟨frames', M', out'⟩, gs', S', label'⟩ := s'
  obtain ⟨hframes, hlabels, hst, hlabel, hres⟩ := h
  cases hlabels
  cases hlabel
  cases hframes with
  | cons hl htail => exact ⟨_, _, M', out', S', rfl, hl, htail, hst, hres⟩

theorem RunStands.pair
    (h : RunStands env z size J types ⟨⟨F :: fs, M, out⟩, g :: gs, S, label⟩)
    (h' : RunStands env' z size J' types
      ⟨⟨{ F with locals := l' } :: fs', M', out'⟩, g :: gs, S', label⟩)
    (hl : LocalsAlike g F.locals l') (hst : StoreAlike Q M M' S S') :
    ∃ τ τ', FrameTyped types τ F ∧ FrameTyped types τ' { F with locals := l' } ∧
      PairStands env env' z size J J' Q τ τ' F.locals l' M M' g S S' := by
  obtain ⟨hframes, hstore, -⟩ := h
  obtain ⟨hframes', hstore', -⟩ := h'
  cases hframes with
  | cons hty hf _ _ =>
    cases hframes' with
    | cons hty' hf' _ _ => exact ⟨_, _, hty, hty', hf, hf', hstore, hstore', hl, hst⟩

theorem RunAlike.inst (ha : RunAlike Q ⟨⟨F :: fs, M, out⟩, g :: gs, S, label⟩ s')
    (hrest : F.rest = (id, i) :: rest)
    (hi : TaggedInst R host F.func.promoted id
      (⟨F.func.name, F.block, some id⟩ :: fs.map IrFrame.site) F.locals M g S i l₁ M₁ g₁ S₁)
    (h' : TaggedStep R' host' m s' s₁') (hz : z.Lawful) (hR : R.Alike R' env env' z size Q)
    (hh : HostAlike host host') (hin : HostInput env size host)
    (hex : TaggedState.Exact ⟨⟨F :: fs, M, out⟩, g :: gs, S, label⟩)
    (hclean : TaggedState.Clean ⟨⟨F :: fs, M, out⟩, g :: gs, S, label⟩)
    (hholds : TaggedState.HoldsOn z env' ⟨⟨F :: fs, M, out⟩, g :: gs, S, label⟩)
    (hs : RunStands env z size J types ⟨⟨F :: fs, M, out⟩, g :: gs, S, label⟩)
    (hs' : RunStands env' z size J' types s') :
    RunAlike Q ⟨⟨{ F with rest := rest, locals := l₁ } :: fs, M₁, out⟩, g₁ :: gs, S₁, label⟩
      s₁' := by
  obtain ⟨l', fs', M', out', S', rfl, hl, htail, hst, hres⟩ := ha.cons_inv
  obtain ⟨τ, τ', hty, hty', hpair⟩ := hs.pair hs' hl hst
  have hhead : (id, i) ∈ F.rest.head? := by
    rw [hrest]
    rfl
  have hcall : ∀ callee args ret, i ≠ .call callee args ret := by
    rintro callee args ret rfl
    cases hi
  obtain ⟨l₁', M₁', g₁', S₁', hi', rfl⟩ := h'.inst_inv hrest hcall
  rw [htail.sites] at hi'
  have hselect : ∀ w c a b k, i = .select w c a b → F.locals.read 1 c = some k →
      (TraceCall.cond (F.site :: fs.map IrFrame.site) (g.label c) k).HoldsOn z S.table env' := by
    rintro w c a b k rfl hk
    apply HoldOn.singleton
    simp only [TaggedState.HoldsOn, TaggedState.traceCalls, hrest, hk] at hholds
    exact hholds
  obtain ⟨rfl, hl₁, hst₁⟩ := hi.alike hi' hpair hz hR hh hin (hty.head hrest)
    (hty'.head hrest) (hex F rfl _ hhead) (hclean F rfl g rfl _ hhead) hselect
  exact ⟨.cons hl₁ htail, rfl, hst₁, rfl, hres⟩

theorem RunAlike.call (ha : RunAlike Q ⟨⟨F :: fs, M, out⟩, g :: gs, S, label⟩ s')
    (hrest : F.rest = (id, .call callee args ret) :: rest) (hG : m[callee]? = some G)
    (hx : argValues F.locals args = some xs) (hstart : G.start xs ret = .ok F₁)
    (h' : TaggedStep R' host' m s' s₁') :
    RunAlike Q ⟨⟨F₁ :: F :: fs, M, out⟩, g.start args :: g :: gs, S, label⟩ s₁' := by
  obtain ⟨l', fs', M', out', S', rfl, hl, htail, hst, hres⟩ := ha.cons_inv
  obtain ⟨G', xs', F₁', hG', hx', hstart', rfl⟩ := h'.call_inv hrest
  rw [hG] at hG'
  cases hG'
  obtain ⟨_, b, hb, rfl⟩ := start_ok hstart
  obtain ⟨_, b', hb', rfl⟩ := start_ok hstart'
  rw [hb] at hb'
  cases hb'
  exact ⟨.cons (hl.start hx hx') (.cons hl htail), rfl, hst, rfl, hres⟩

theorem RunAlike.ret (ha : RunAlike Q ⟨⟨F :: fs, M, out⟩, g :: gs, S, label⟩ s')
    (hrest : F.rest = []) (hterm : F.term = .ret v)
    (hx : returnValue F.locals F.func.ret v = .ok x) (hr : returnTo x fs = .ok fs₁)
    (h' : TaggedStep R' host' m s' s₁') :
    RunAlike Q ⟨⟨fs₁, M, if fs.isEmpty then x else out⟩,
      labelReturn (v.map fun v => g.label v.2) fs gs, S,
      if fs.isEmpty then (v.map fun v => g.label v.2).getD 0 else label⟩ s₁' := by
  obtain ⟨l', fs', M', out', S', rfl, hl, htail, hst, hres⟩ := ha.cons_inv
  obtain ⟨x', fs₁', hx', hr', rfl⟩ := h'.ret_inv hrest hterm
  have hreturned := hl.returned hx hx'
  rw [htail.labelReturn, htail.isEmpty]
  refine ⟨htail.resume hreturned hr hr', rfl, hst, rfl, ?_⟩
  intro h0
  cases fs with
  | cons G fs => exact hres h0
  | nil =>
    rcases hreturned with ⟨rfl, rfl, -⟩ | ⟨w, a, y, y', rfl, rfl, rfl, heq⟩
    · rfl
    · exact congrArg some (heq h0)

theorem RunAlike.jump (ha : RunAlike Q ⟨⟨F :: fs, M, out⟩, g :: gs, S, label⟩ s')
    (hrest : F.rest = []) (hret : ∀ v, F.term ≠ .ret v)
    (hc : F.term.traceCalls (⟨F.func.name, F.block, none⟩ :: fs.map IrFrame.site) F.locals g =
      .ok calls)
    (ht : calls.foldlM (LabelStore.trace R M.mem) S = .ok S₁)
    (htarget : F.term.target F.locals = .ok n) (hj : F.jump n = .ok F₁)
    (h' : TaggedStep R' host' m s' s₁') (hz : z.Lawful) (hR : R.Alike R' env env' z size Q)
    (hRs : R.Sound env z size J) (hRs' : R'.Sound env' z size J')
    (hholds : TaggedState.HoldsOn z env' ⟨⟨F :: fs, M, out⟩, g :: gs, S, label⟩)
    (hs : RunStands env z size J types ⟨⟨F :: fs, M, out⟩, g :: gs, S, label⟩)
    (hs' : RunStands env' z size J' types s') :
    RunAlike Q ⟨⟨F₁ :: fs, M, out⟩, g.jump F n :: gs, S₁, label⟩ s₁' := by
  obtain ⟨l', fs', M', out', S', rfl, hl, htail, hst, hres⟩ := ha.cons_inv
  obtain ⟨τ, τ', hty, hty', hf, hf', hstore, hstore', -, -⟩ := hs.pair hs' hl hst
  obtain ⟨calls', S₁', n', F₁', hc', ht', htarget', hj', rfl⟩ := h'.jump_inv hrest hret
  rw [htail.sites] at hc'
  have hpath : HoldOn z S.table env' calls := by
    simp only [TaggedState.HoldsOn, TaggedState.traceCalls, List.map_cons, IrFrame.site, hrest,
      List.head?_nil, Option.map_none, hc] at hholds
    exact hholds
  cases target_alike hz hstore.table hstore'.table hst.table hf hf' hl hty.term hty'.term hc
    hpath htarget htarget'
  have hcalls := related_ok (hl.traceCalls _ F.term) hc hc'
  have hst₁ := hst.traces hR hRs hRs' hcalls hstore hstore'
    (hf.traceCalls hty.term hc) (hf'.traceCalls hty'.term hc') ht ht'
  obtain ⟨b, xs, hb, hx, rfl⟩ := jump_ok hj
  obtain ⟨b', xs', hb', hx', rfl⟩ := jump_ok hj'
  rw [hb] at hb'
  cases hb'
  have hjump : g.jump F n = g.enter F.block b.phis := by
    unfold LabelFrame.jump
    rw [hb]
    rfl
  refine ⟨?_, rfl, hst₁, rfl, hres⟩
  rw [hjump]
  exact .cons (hl.enter hx hx') htail

end

theorem RunAlike.done (ha : RunAlike Q s s') (hend : s.values.frames = [] ∨ s.frames = [])
    (h' : TaggedStep R' host' m s' s₁') : RunAlike Q s s₁' := by
  have hnone : s.frames = [] := by
    have hframes := ha.frames
    generalize s.values.frames = fs, s'.values.frames = fs', s.frames = gs at hend hframes ⊢
    cases hframes with
    | nil => rfl
    | cons => rcases hend with h | h <;> cases h
  cases h'.done_inv (ha.labels.trans hnone)
  exact ha

/-- The two runs take the same step if the branches of the first go the same way on the input of
the second. -/
theorem TaggedStep.alike (h : TaggedStep R host m s s₁) (h' : TaggedStep R' host' m s' s₁')
    (hz : z.Lawful) (hR : R.Alike R' env env' z size Q) (hRs : R.Sound env z size J)
    (hRs' : R'.Sound env' z size J') (hh : HostAlike host host') (hin : HostInput env size host)
    (hex : s.Exact) (hclean : s.Clean) (hholds : s.HoldsOn z env')
    (hs : RunStands env z size J types s) (hs' : RunStands env' z size J' types s')
    (ha : RunAlike Q s s') : RunAlike Q s₁ s₁' := by
  cases h with
  | inst hrest hi => exact ha.inst hrest hi h' hz hR hh hin hex hclean hholds hs hs'
  | call hrest hG hx hstart => exact ha.call hrest hG hx hstart h'
  | ret hrest hterm hx hr => exact ha.ret hrest hterm hx hr h'
  | jump hrest hret hc ht htarget hj =>
    exact ha.jump hrest hret hc ht htarget hj h' hz hR hRs hRs' hholds hs hs'
  | done hend => exact ha.done hend h'

/-- The two runs go the same way as long as the branches of the first go the same way on the input
of the second. -/
theorem RunAlike.run {s₀ s₀' : TaggedState σ} (hz : z.Lawful) (hR : R.Alike R' env env' z size Q)
    (hRs : R.Sound env z size J) (hRs' : R'.Sound env' z size J') (hh : HostAlike host host')
    (hin : HostInput env size host) (hin' : HostInput env' size host') (hm : ModuleTyped types m)
    (hsteps : ∀ k < n, ∀ s, TaggedState.run R host m k s₀ = .ok s →
      s.Exact ∧ s.Clean ∧ s.HoldsOn z env')
    (h₀ : RunStands env z size J types s₀) (h₀' : RunStands env' z size J' types s₀')
    (ha : RunAlike Q s₀ s₀') (h : TaggedState.run R host m n s₀ = .ok s)
    (h' : TaggedState.run R' host' m n s₀' = .ok s') :
    RunStands env z size J types s ∧ RunStands env' z size J' types s' ∧ RunAlike Q s s' := by
  refine stepsOf_pair (R := fun s s' => RunStands env z size J types s ∧
    RunStands env' z size J' types s' ∧ RunAlike Q s s') ?_ ⟨h₀, h₀', ha⟩ h h'
  rintro k hk s s' u u' hrun ⟨hs, hs', ha⟩ hstep hstep'
  obtain ⟨hex, hclean, hholds⟩ := hsteps k hk s hrun
  have htag := taggedStep_ok hstep
  have htag' := taggedStep_ok hstep'
  exact ⟨htag.stands hz hRs hin hm hex hs, htag'.stands hz hRs' hin' hm (ha.exact hclean hex) hs',
    htag.alike htag' hz hR hRs hRs' hh hin hex hclean hholds hs hs' ha⟩

theorem RunAlike.traceCalls (h : RunAlike Q s s') :
    List.Forall₂ TraceCall.Alike s.traceCalls s'.traceCalls := by
  obtain ⟨⟨frames, M, out⟩, gs, S, label⟩ := s
  obtain ⟨⟨frames', M', out'⟩, gs', S', label'⟩ := s'
  obtain ⟨hframes, hlabels, -, -, -⟩ := h
  cases hlabels
  cases hframes with
  | nil => exact .nil
  | @cons g l' fs fs' gs F hl htail =>
    obtain ⟨func, block, rest, term, l⟩ := F
    simp only [TaggedState.traceCalls, List.map_cons, htail.sites]
    cases rest with
    | nil => exact (hl.traceCalls _ term).getD_nil
    | cons x rest =>
      obtain ⟨id, i⟩ := x
      cases i with
      | select w c a b => exact forall₂_toList (hl.read_isSome 1 c) fun _ _ => .cond
      | _ => exact .nil

end

end

end Kirenenko
