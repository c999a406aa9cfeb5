import Kirenenko.Lib.Simulation

namespace Kirenenko
set_option autoImplicit true

/-- A run of a labelled transition relation over a list of events. -/
inductive Steps {σ α : Type} (R : σ → α → σ → Prop) : σ → List α → σ → Prop where
  | nil : Steps R s [] s
  | cons : R s a s' → Steps R s' as s'' → Steps R s (a :: as) s''

section
variable {σ α : Type} {R : σ → α → σ → Prop}

theorem Steps.invariant {I : σ → Prop} (hstep : ∀ s a s', I s → R s a s' → I s')
    (h : Steps R s as s') (hs : I s) : I s' := by
  induction h with
  | nil => exact hs
  | cons hr _ ih => exact ih (hstep _ _ _ hs hr)

theorem Steps.mono {R' : σ → α → σ → Prop} (hR : ∀ s a s', R s a s' → R' s a s')
    (h : Steps R s as s') : Steps R' s as s' := by
  induction h with
  | nil => exact .nil
  | cons hr _ ih => exact .cons (hR _ _ _ hr) ih

theorem Steps.single (h : R s a s') : Steps R s [a] s' := .cons h .nil

theorem Steps.append (h : Steps R s as s') (h' : Steps R s' bs s'') :
    Steps R s (as ++ bs) s'' := by
  induction h with
  | nil => exact h'
  | cons hr _ ih => exact .cons hr (ih h')

theorem Steps.of_append (h : Steps R s (as ++ bs) s'') :
    ∃ s', Steps R s as s' ∧ Steps R s' bs s'' := by
  induction as generalizing s with
  | nil => exact ⟨s, .nil, h⟩
  | cons a as ih =>
    cases h with
    | cons hr h' =>
      obtain ⟨s', h1, h2⟩ := ih h'
      exact ⟨s', .cons hr h1, h2⟩

/-- If a step leads to a property exactly from the states that have it and meet a condition, so
does a run exactly when all its steps meet the condition. -/
theorem Steps.iff_each {P I : σ → Prop} {C : σ → α → Prop}
    (hI : ∀ s a s', I s → R s a s' → I s')
    (hstep : ∀ s a s', I s → R s a s' → (P s' ↔ P s ∧ C s a)) (h : Steps R s as s') (hs : I s) :
    P s' ↔ P s ∧ Steps (fun s a s' => R s a s' ∧ C s a) s as s' := by
  constructor
  · intro hp
    induction h with
    | nil => exact ⟨hp, .nil⟩
    | cons hr _ ih =>
      obtain ⟨hp', hrest⟩ := ih (hI _ _ _ hs hr) hp
      obtain ⟨hp, hc⟩ := (hstep _ _ _ hs hr).1 hp'
      exact ⟨hp, .cons ⟨hr, hc⟩ hrest⟩
  · rintro ⟨hp, hall⟩
    have hstep' : ∀ s a s', I s ∧ P s → R s a s' ∧ C s a → I s' ∧ P s' := by
      rintro s a s' ⟨hs, hp⟩ ⟨hr, hc⟩
      exact ⟨hI s a s' hs hr, (hstep s a s' hs hr).2 ⟨hp, hc⟩⟩
    exact (hall.invariant hstep' ⟨hs, hp⟩).2

end

section
variable {σ α : Type} (step : σ → α → σ)

/-- A property of states, at the start of a run and after each of its events. -/
def Throughout (P : σ → Prop) : σ → List α → Prop
  | s, [] => P s
  | s, a :: as => P s ∧ Throughout P (step s a) as

/-- A property of the events of a run, each in the state where it happens. -/
def EachStep (C : σ → α → Prop) : σ → List α → Prop
  | _, [] => True
  | s, a :: as => C s a ∧ EachStep C (step s a) as

instance Throughout.decidable (P : σ → Prop) [∀ s, Decidable (P s)] :
    (s : σ) → (as : List α) → Decidable (Throughout step P s as)
  | s, [] => inferInstanceAs (Decidable (P s))
  | s, a :: as =>
    have := Throughout.decidable P (step s a) as
    inferInstanceAs (Decidable (P s ∧ Throughout step P (step s a) as))

instance EachStep.decidable (C : σ → α → Prop) [∀ s a, Decidable (C s a)] :
    (s : σ) → (as : List α) → Decidable (EachStep step C s as)
  | _, [] => isTrue trivial
  | s, a :: as =>
    have := EachStep.decidable C (step s a) as
    inferInstanceAs (Decidable (C s a ∧ EachStep step C (step s a) as))

/-- If an event keeps a property exactly when a condition holds, then a run has the property
throughout exactly when it starts with it and all its events meet the condition. -/
theorem throughout_iff {P I : σ → Prop} {F C : σ → α → Prop}
    (hI : ∀ s a, I s → I (step s a))
    (hstep : ∀ s a, I s → P s → F s a → (P (step s a) ↔ C s a)) {s : σ} (hs : I s)
    (hF : EachStep step F s as) : Throughout step P s as ↔ P s ∧ EachStep step C s as := by
  induction as generalizing s with
  | nil => exact ⟨fun h => ⟨h, trivial⟩, fun h => h.1⟩
  | cons a as ih =>
    obtain ⟨hf, hF⟩ := hF
    have ih := ih (hI s a hs) hF
    constructor
    · rintro ⟨hp, h⟩
      obtain ⟨hp', hC⟩ := ih.1 h
      exact ⟨hp, (hstep s a hs hp hf).1 hp', hC⟩
    · rintro ⟨hp, hc, hC⟩
      exact ⟨hp, ih.2 ⟨(hstep s a hs hp hf).2 hc, hC⟩⟩

/-- If the events that meet a condition keep an invariant that gives the property, and any other
breaks the property, then a run has the property throughout exactly when all its events meet the
condition. -/
theorem throughout_iff_each {I P : σ → Prop} {F C : σ → α → Prop} (hP : ∀ s, I s → P s)
    (hgood : ∀ s a, I s → F s a → C s a → I (step s a))
    (hbad : ∀ s a, I s → F s a → ¬C s a → ¬P (step s a)) {s : σ} (hs : I s)
    (hF : EachStep step F s as) : Throughout step P s as ↔ EachStep step C s as := by
  induction as generalizing s with
  | nil => exact ⟨fun _ => trivial, fun _ => hP s hs⟩
  | cons a as ih =>
    obtain ⟨hf, hF⟩ := hF
    by_cases hc : C s a
    · have ih := ih (hgood s a hs hf hc) hF
      exact ⟨fun h => ⟨hc, ih.1 h.2⟩, fun h => ⟨hP s hs, ih.2 h.2⟩⟩
    · have hnot : ¬Throughout step P (step s a) as := by
        intro h
        cases as with
        | nil => exact hbad s a hs hf hc h
        | cons b bs => exact hbad s a hs hf hc h.1
      exact ⟨fun h => (hnot h.2).elim, fun h => (hc h.1).elim⟩

end

section
variable {σ α ε : Type} (step : σ → α → Except ε σ)

/-- A condition on the events of a run that may fail, each in the state where it happens. -/
def EachRun (C : σ → α → Prop) : σ → List α → Prop
  | _, [] => True
  | s, a :: as => C s a ∧ ∀ s', step s a = .ok s' → EachRun C s' as

/-- A condition that can be decided can be decided for a whole run. -/
instance EachRun.decidable (C : σ → α → Prop) [∀ s a, Decidable (C s a)] :
    (s : σ) → (as : List α) → Decidable (EachRun step C s as)
  | _, [] => isTrue trivial
  | s, a :: as =>
    match h : step s a with
    | .error _ => decidable_of_iff (C s a) ⟨fun hc => ⟨hc, fun _ hs => by cases h.symm.trans hs⟩,
        fun hC => hC.1⟩
    | .ok s' =>
      have := EachRun.decidable C s' as
      decidable_of_iff (C s a ∧ EachRun step C s' as)
        ⟨fun hc => ⟨hc.1, fun _ hs => by cases h.symm.trans hs; exact hc.2⟩,
          fun hC => ⟨hC.1, hC.2 s' h⟩⟩

theorem EachRun.congr {F C D : σ → α → Prop} (h : ∀ s a, F s a → (C s a ↔ D s a)) {s : σ}
    (hF : EachRun step F s as) : EachRun step C s as ↔ EachRun step D s as := by
  induction as generalizing s with
  | nil => exact Iff.rfl
  | cons a as ih =>
    obtain ⟨hf, hrest⟩ := hF
    exact and_congr (h s a hf) (forall₂_congr fun s' hs' => ih (hrest s' hs'))

theorem EachRun.and {C D : σ → α → Prop} {s : σ} (hC : EachRun step C s as)
    (hD : EachRun step D s as) : EachRun step (fun s a => C s a ∧ D s a) s as := by
  induction as generalizing s with
  | nil => exact trivial
  | cons a as ih => exact ⟨⟨hC.1, hD.1⟩, fun s' hs' => ih (hC.2 s' hs') (hD.2 s' hs')⟩

theorem EachRun.of_forall {D : α → Prop} (h : ∀ a ∈ as, D a) {s : σ} :
    EachRun step (fun _ a => D a) s as := by
  induction as generalizing s with
  | nil => exact trivial
  | cons a as ih =>
    exact ⟨h a List.mem_cons_self, fun s' _ => ih fun a ha => h a (List.mem_cons_of_mem _ ha)⟩

theorem EachRun.imp {I : σ → Prop} {C P : σ → α → Prop} (hP : ∀ s a, I s → C s a → P s a)
    (hI : ∀ s a s', I s → C s a → step s a = .ok s' → I s') {s : σ} (hs : I s)
    (hC : EachRun step C s as) : EachRun step P s as := by
  induction as generalizing s with
  | nil => exact trivial
  | cons a as ih =>
    obtain ⟨hc, hrest⟩ := hC
    exact ⟨hP s a hs hc, fun s' hs' => ih (hI s a s' hs hc hs') (hrest s' hs')⟩

theorem foldlM_ends {I : σ → Prop} {E : ε → Prop} {C : σ → α → Prop}
    (hstep : ∀ s a, I s → C s a → Ends E I (step s a)) {s : σ} (hs : I s)
    (hC : EachRun step C s as) : Ends E I (as.foldlM step s) := by
  induction as generalizing s with
  | nil => exact hs
  | cons a as ih =>
    obtain ⟨hc, hrest⟩ := hC
    have hend := hstep s a hs hc
    rw [List.foldlM_cons]
    cases hr : step s a with
    | ok s' =>
      rw [hr] at hend
      exact ih hend (hrest s' hr)
    | error e =>
      rw [hr] at hend
      exact hend

theorem foldlM_invariant {I : σ → Prop} (hstep : ∀ s a s', I s → step s a = .ok s' → I s') {s : σ}
    {as : List α} (hs : I s) (h : as.foldlM step s = .ok s') : I s' := by
  induction as generalizing s with
  | nil =>
    cases h
    exact hs
  | cons a as ih =>
    obtain ⟨s₁, hs₁, h⟩ := except_bind_ok.1 h
    exact ih (hstep s a s₁ hs hs₁) h

/-- If the events that meet a condition keep a run good and any other spoils it for ever, then a
run ends well exactly when all its events meet the condition. -/
theorem foldlM_iff_each {I B P : σ → Prop} {C : σ → α → Prop}
    (hgood : ∀ s a s', I s → C s a → step s a = .ok s' → I s')
    (hbad : ∀ s a s', I s → ¬C s a → step s a = .ok s' → B s')
    (hB : ∀ s a s', B s → step s a = .ok s' → B s') (hI : ∀ s, I s → P s) (hP : ∀ s, B s → ¬P s)
    {s : σ} {as : List α} (hs : I s) (h : as.foldlM step s = .ok s') :
    P s' ↔ EachRun step C s as := by
  induction as generalizing s with
  | nil =>
    cases h
    exact ⟨fun _ => trivial, fun _ => hI _ hs⟩
  | cons a as ih =>
    obtain ⟨s₁, hs₁, hrun⟩ := except_bind_ok.1 h
    by_cases hc : C s a
    · rw [ih (hgood s a s₁ hs hc hs₁) hrun]
      constructor
      · intro hrest
        refine ⟨hc, fun s₂ hs₂ => ?_⟩
        cases hs₁.symm.trans hs₂
        exact hrest
      · intro hC
        exact hC.2 s₁ hs₁
    · have hend : B s' := foldlM_invariant step hB (hbad s a s₁ hs hc hs₁) hrun
      exact ⟨fun hp => (hP s' hend hp).elim, fun hC => (hc hC.1).elim⟩

/-- A relation between the state and the events so far is kept by a run whose events meet a
condition. -/
theorem foldlM_history {P : σ → List α → Prop} {C : σ → α → Prop}
    (hstep : ∀ s before a, P s before → C s a → ∃ s', step s a = .ok s' ∧ P s' (before ++ [a]))
    {s : σ} {before as : List α} (hs : P s before) (hC : EachRun step C s as) :
    ∃ s', as.foldlM step s = .ok s' ∧ P s' (before ++ as) := by
  induction as generalizing s before with
  | nil =>
    rw [List.append_nil]
    exact ⟨s, rfl, hs⟩
  | cons a as ih =>
    obtain ⟨hc, hrest⟩ := hC
    obtain ⟨s₁, hok, hs₁⟩ := hstep s before a hs hc
    rw [List.foldlM_cons, hok, List.append_cons]
    exact ih hs₁ (hrest s₁ hok)

theorem foldlM_history_of_ok {P : σ → List α → Prop} {C : σ → α → Prop}
    (hstep : ∀ s before a s', P s before → C s a → step s a = .ok s' → P s' (before ++ [a]))
    {s : σ} {before as : List α} (hs : P s before) (hC : EachRun step C s as)
    (h : as.foldlM step s = .ok s') : P s' (before ++ as) := by
  induction as generalizing s before with
  | nil =>
    cases h
    rwa [List.append_nil]
  | cons a as ih =>
    obtain ⟨s₁, hok, h⟩ := except_bind_ok.1 h
    rw [List.append_cons]
    exact ih (hstep s before a s₁ hs hC.1 hok) (hC.2 s₁ hok) h

end

end Kirenenko
