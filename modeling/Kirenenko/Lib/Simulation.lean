namespace Kirenenko
set_option autoImplicit true

theorem except_ok_bind (a : α) (f : α → Except ε β) : Except.ok a >>= f = f a := rfl

theorem except_bind_ok {x : Except ε α} {f : α → Except ε β} :
    x >>= f = .ok b ↔ ∃ a, x = .ok a ∧ f a = .ok b := by
  cases x with
  | ok a =>
    constructor
    · intro h
      exact ⟨a, rfl, h⟩
    · rintro ⟨_, ha, h⟩
      cases ha
      exact h
  | error e =>
    constructor
    · intro h
      cases h
    · rintro ⟨_, h, _⟩
      cases h

theorem except_map_ok {x : Except ε α} {f : α → β} :
    f <$> x = .ok b ↔ ∃ a, x = .ok a ∧ f a = b := by
  cases x with
  | ok a =>
    constructor
    · intro h
      cases h
      exact ⟨a, rfl, rfl⟩
    · rintro ⟨_, ha, rfl⟩
      cases ha
      rfl
  | error e =>
    constructor
    · intro h
      cases h
    · rintro ⟨_, h, _⟩
      cases h

theorem estate_bind_ok {x : EStateM ε σ α} {f : α → EStateM ε σ β} (h : x s = .ok a s') :
    (x >>= f) s = f a s' := by
  simp only [bind, EStateM.bind, h]

theorem estate_bind_error {x : EStateM ε σ α} {f : α → EStateM ε σ β} (h : x s = .error e s') :
    (x >>= f) s = .error e s' := by
  simp only [bind, EStateM.bind, h]

theorem estate_bind_eq_ok {x : EStateM ε σ α} {f : α → EStateM ε σ β} :
    (x >>= f) s = .ok b s'' ↔ ∃ a s', x s = .ok a s' ∧ f a s' = .ok b s'' := by
  cases hx : x s with
  | ok a s' =>
    rw [estate_bind_ok hx]
    constructor
    · intro h
      exact ⟨a, s', rfl, h⟩
    · rintro ⟨_, _, h, h'⟩
      cases h
      exact h'
  | error e s' =>
    rw [estate_bind_error hx]
    constructor
    · intro h
      cases h
    · rintro ⟨_, _, h, _⟩
      cases h

theorem estate_map_eq {x : EStateM ε σ α} (f : α → β) : f <$> x = x >>= fun a => pure (f a) := by
  funext s
  simp only [Functor.map, EStateM.map, bind, EStateM.bind]
  cases x s <;> rfl

/-- Two computations that return related values or fail alike. -/
def Related (R : α → β → Prop) : Except ε α → Except ε β → Prop
  | .ok a, .ok b => R a b
  | .error e, .error e' => e = e'
  | _, _ => False

theorem Related.refl (x : Except ε α) : Related (fun a b => a = b) x x := by
  cases x with
  | ok a => exact rfl
  | error e => exact rfl

section
variable {R : α → β → Prop} {x : Except ε α} {y : Except ε β}

theorem Related.ok_left (h : Related R x y) (hx : x = .ok a) : ∃ b, y = .ok b ∧ R a b := by
  subst hx
  cases y with
  | error e => exact h.elim
  | ok b => exact ⟨b, rfl, h⟩

theorem Related.ok_right (h : Related R x y) (hy : y = .ok b) : ∃ a, x = .ok a ∧ R a b := by
  subst hy
  cases x with
  | error e => exact h.elim
  | ok a => exact ⟨a, rfl, h⟩

theorem Related.error_left (h : Related R x y) (hx : x = .error e) : y = .error e := by
  subst hx
  cases y with
  | error e' => exact congrArg Except.error h.symm
  | ok b => exact h.elim

theorem Related.error_right (h : Related R x y) (hy : y = .error e) : x = .error e := by
  subst hy
  cases x with
  | error e' => exact congrArg Except.error h
  | ok a => exact h.elim

theorem Related.bind_same {z : Except ε γ} {f : γ → Except ε α} {f' : γ → Except ε β}
    (h : ∀ c, z = .ok c → Related R (f c) (f' c)) : Related R (z >>= f) (z >>= f') := by
  cases z with
  | error e => exact rfl
  | ok c => exact h c rfl

end

theorem Related.bind {R : α → β → Prop} {R' : γ → δ → Prop} {x : Except ε α} {y : Except ε β}
    {f : α → Except ε γ} {g : β → Except ε δ} (h : Related R x y)
    (hf : ∀ a b, R a b → Related R' (f a) (g b)) : Related R' (x >>= f) (y >>= g) := by
  cases x with
  | ok a =>
    cases y with
    | ok b => exact hf a b h
    | error e => exact h.elim
  | error e =>
    cases y with
    | ok b => exact h.elim
    | error e' => exact h

/-- What two computations return, when both do, is in a relation. -/
def Agree (P : α → β → Prop) (x : Except ε α) (y : Except ε β) : Prop :=
  ∀ a b, x = .ok a → y = .ok b → P a b

/-- A computation that fails with an error makes another one fail with it. -/
def FailsWith (e : ε) (x : Except ε α) (y : Except ε β) : Prop := x = .error e → y = .error e

section
variable {P : α → β → Prop} {x : Except ε α} {y : Except ε β} {z : Except ε γ}

theorem Agree.ok (h : P a b) : Agree P (.ok a : Except ε α) (.ok b) := by
  intro a' b' ha hb
  cases ha
  cases hb
  exact h

theorem Agree.bind {f : γ → Except ε α} {f' : γ → Except ε β}
    (h : ∀ c, z = .ok c → Agree P (f c) (f' c)) : Agree P (z >>= f) (z >>= f') := by
  intro a b ha hb
  obtain ⟨c, hc, ha⟩ := except_bind_ok.1 ha
  rw [hc] at hb
  exact h c hc a b ha hb

theorem Agree.bind_left {f : γ → Except ε α} (h : ∀ c, z = .ok c → Agree P (f c) y) :
    Agree P (z >>= f) y := by
  intro a b ha hb
  obtain ⟨c, hc, ha⟩ := except_bind_ok.1 ha
  exact h c hc a b ha hb

theorem Agree.bind_right {f : γ → Except ε β} (h : ∀ c, z = .ok c → Agree P x (f c)) :
    Agree P x (z >>= f) := by
  intro a b ha hb
  obtain ⟨c, hc, hb⟩ := except_bind_ok.1 hb
  exact h c hc a b ha hb

theorem FailsWith.bind {f : γ → Except ε α} {f' : γ → Except ε β}
    (h : ∀ c, FailsWith e (f c) (f' c)) : FailsWith e (z >>= f) (z >>= f') := by
  cases z with
  | ok c => exact h c
  | error e' => exact fun he => congrArg Except.error (Except.error.inj he)

theorem FailsWith.bind_right {f : γ → Except ε β} (hz : ∀ e', z = .error e' → e' = e)
    (h : ∀ c, FailsWith e x (f c)) : FailsWith e x (z >>= f) := by
  cases z with
  | ok c => exact h c
  | error e' => exact fun _ => congrArg Except.error (hz e' rfl)

end

/-- A stateful computation keeps the invariant and computes what a pure one computes. -/
def Simulates {ε σ α β : Type} (I : σ → Prop) (R : α → β → Prop) (x : EStateM ε σ α)
    (r : Except ε β) : Prop :=
  ∀ s, I s →
    (∀ a s', x s = .ok a s' → I s' ∧ ∃ b, r = .ok b ∧ R a b) ∧
    (∀ e s', x s = .error e s' → I s' ∧ r = .error e)

section
variable {ε σ α β γ δ : Type} {I : σ → Prop} {R : α → β → Prop} {R' : γ → δ → Prop}
  {x : EStateM ε σ α} {r : Except ε β}

theorem Simulates.pure (h : R a b) : Simulates I R (Pure.pure a : EStateM ε σ α) (.ok b) := by
  intro s hs
  refine ⟨?_, ?_⟩
  · intro a' s' he
    cases he
    exact ⟨hs, b, rfl, h⟩
  · intro e s' he
    cases he

theorem Simulates.throw (e : ε) :
    Simulates I R (MonadExcept.throw e : EStateM ε σ α) (.error e) := by
  intro s hs
  refine ⟨?_, ?_⟩
  · intro a' s' he
    cases he
  · intro e' s' he
    cases he
    exact ⟨hs, rfl⟩

/-- What holds once the first computation has returned is known to the rest. -/
theorem Simulates.bind_learn {K : σ → Prop} {f : α → EStateM ε σ γ} {g : β → Except ε δ}
    (hx : Simulates I R x r) (hK : ∀ s a s', I s → x s = .ok a s' → K s')
    (hf : ∀ a b, r = .ok b → R a b → Simulates (fun s => I s ∧ K s) R' (f a) (g b)) :
    Simulates I R' (x >>= f) (r >>= g) := by
  intro s hs
  obtain ⟨hok, herr⟩ := hx s hs
  cases hr : x s with
  | ok a s' =>
    obtain ⟨hs', b, rfl, hR⟩ := hok a s' hr
    rw [estate_bind_ok hr]
    obtain ⟨hok', herr'⟩ := hf a b rfl hR s' ⟨hs', hK s a s' hs hr⟩
    refine ⟨?_, ?_⟩
    · intro c s'' hc
      obtain ⟨hi, hd⟩ := hok' c s'' hc
      exact ⟨hi.1, hd⟩
    · intro e s'' he
      obtain ⟨hi, hd⟩ := herr' e s'' he
      exact ⟨hi.1, hd⟩
  | error e s' =>
    obtain ⟨hs', rfl⟩ := herr e s' hr
    rw [estate_bind_error hr]
    refine ⟨?_, ?_⟩
    · intro a s'' he
      cases he
    · intro e' s'' he
      cases he
      exact ⟨hs', rfl⟩

theorem Simulates.bind {f : α → EStateM ε σ γ} {g : β → Except ε δ} (hx : Simulates I R x r)
    (hf : ∀ a b, r = .ok b → R a b → Simulates I R' (f a) (g b)) :
    Simulates I R' (x >>= f) (r >>= g) := by
  apply hx.bind_learn (K := fun _ => True) (fun _ _ _ _ _ => trivial)
  simpa only [and_true] using hf

theorem Simulates.read {f : α → EStateM ε σ γ} {r : Except ε δ} {P : α → Prop}
    (hx : ∀ s, I s → ∃ a, x s = .ok a s ∧ P a)
    (hf : ∀ a, P a → Simulates I R' (f a) r) : Simulates I R' (x >>= f) r := by
  intro s hs
  obtain ⟨a, ha, hP⟩ := hx s hs
  rw [estate_bind_ok ha]
  exact hf a hP s hs

theorem Simulates.update {g : σ → σ} (hg : ∀ s, I s → I (g s)) (hx : Simulates I R x r) :
    Simulates I R (modify g >>= fun _ => x) r := by
  intro s hs
  exact hx (g s) (hg s hs)

theorem Simulates.map {f : α → γ} {g : β → δ} (hx : Simulates I R x r)
    (hf : ∀ a b, R a b → R' (f a) (g b)) : Simulates I R' (f <$> x) (g <$> r) := by
  have hr : g <$> r = r >>= fun b => .ok (g b) := by
    cases r <;> rfl
  rw [estate_map_eq, hr]
  exact hx.bind fun a b _ hR => .pure (hf a b hR)

theorem Simulates.returns_iff {x : EStateM ε σ (β × γ)}
    (hx : Simulates I (fun p b => p.1 = b) x r) (hs : I s) :
    (∃ c s', x s = .ok (b, c) s') ↔ r = .ok b := by
  obtain ⟨hok, herr⟩ := hx s hs
  constructor
  · rintro ⟨c, s', hr⟩
    obtain ⟨_, b', hb, rfl⟩ := hok _ _ hr
    exact hb
  · intro hb
    cases hr : x s with
    | ok p s' =>
      obtain ⟨_, b', hb', rfl⟩ := hok _ _ hr
      cases hb.symm.trans hb'
      exact ⟨p.2, s', rfl⟩
    | error e s' => cases hb.symm.trans (herr _ _ hr).2

/-- A computation that keeps an invariant, whether it returns a value with `P` or throws one of
`E`. -/
def Yields (I : σ → Prop) (E : ε → Prop) (P : α → Prop) (x : EStateM ε σ α) : Prop :=
  ∀ s, I s → (∀ a s', x s = .ok a s' → I s' ∧ P a) ∧ (∀ e s', x s = .error e s' → I s' ∧ E e)

variable {E : ε → Prop} {P : α → Prop} {Q : γ → Prop}

theorem Yields.pure (h : P a) : Yields I E P (Pure.pure a : EStateM ε σ α) := by
  intro s hs
  refine ⟨?_, ?_⟩
  · intro a' s' he
    cases he
    exact ⟨hs, h⟩
  · intro e s' he
    cases he

theorem Yields.throw (h : E e) : Yields I E P (MonadExcept.throw e : EStateM ε σ α) := by
  intro s hs
  refine ⟨?_, ?_⟩
  · intro a' s' he
    cases he
  · intro e' s' he
    cases he
    exact ⟨hs, h⟩

theorem Yields.bind {f : α → EStateM ε σ γ} (hx : Yields I E P x)
    (hf : ∀ a, P a → Yields I E Q (f a)) : Yields I E Q (x >>= f) := by
  intro s hs
  obtain ⟨hok, herr⟩ := hx s hs
  cases hr : x s with
  | ok a s' =>
    obtain ⟨hs', ha⟩ := hok a s' hr
    rw [estate_bind_ok hr]
    exact hf a ha s' hs'
  | error e s' =>
    rw [estate_bind_error hr]
    refine ⟨?_, ?_⟩
    · intro a s'' he
      cases he
    · intro e' s'' he
      cases he
      exact herr e s' hr

theorem Yields.ite {c : Prop} [Decidable c] {y : EStateM ε σ α} (hx : c → Yields I E P x)
    (hy : ¬c → Yields I E P y) : Yields I E P (if c then x else y) := by
  by_cases hc : c
  · rw [if_pos hc]
    exact hx hc
  · rw [if_neg hc]
    exact hy hc

theorem Yields.read {f : α → EStateM ε σ γ} (hx : ∀ s, I s → ∃ a, x s = .ok a s ∧ P a)
    (hf : ∀ a, P a → Yields I E Q (f a)) : Yields I E Q (x >>= f) := by
  intro s hs
  obtain ⟨a, ha, hP⟩ := hx s hs
  rw [estate_bind_ok ha]
  exact hf a hP s hs

theorem Yields.update {g : σ → σ} (hg : ∀ s, I s → I (g s)) :
    Yields I E (fun _ => True) (modify g : EStateM ε σ PUnit) := by
  intro s hs
  refine ⟨?_, ?_⟩
  · intro a s' he
    cases he
    exact ⟨hg s hs, trivial⟩
  · intro e s' he
    cases he

theorem Yields.mono {P' : α → Prop} (hx : Yields I E P x) (h : ∀ a, P a → P' a) :
    Yields I E P' x := by
  intro s hs
  obtain ⟨hok, herr⟩ := hx s hs
  refine ⟨?_, herr⟩
  intro a s' hr
  obtain ⟨hs', ha⟩ := hok a s' hr
  exact ⟨hs', h a ha⟩

theorem Yields.map {f : α → γ} (hx : Yields I E P x) (hf : ∀ a, P a → Q (f a)) :
    Yields I E Q (f <$> x) := by
  rw [estate_map_eq]
  exact hx.bind fun a ha => .pure (hf a ha)

/-- A computation that keeps an invariant whether it returns or throws one of `E`. -/
def Keeps (I : σ → Prop) (E : ε → Prop) (x : EStateM ε σ α) : Prop :=
  ∀ s, I s → (∀ a s', x s = .ok a s' → I s') ∧ (∀ e s', x s = .error e s' → I s' ∧ E e)

theorem keeps_iff_yields : Keeps I E x ↔ Yields I E (fun _ => True) x := by
  simp only [Keeps, Yields, and_true]

theorem Yields.keeps (hx : Yields I E P x) : Keeps I E x := by
  intro s hs
  obtain ⟨hok, herr⟩ := hx s hs
  exact ⟨fun a s' hr => (hok a s' hr).1, herr⟩

theorem Keeps.pure (a : α) : Keeps I E (Pure.pure a : EStateM ε σ α) :=
  (Yields.pure (P := fun _ => True) trivial).keeps

theorem Keeps.throw (h : E e) : Keeps I E (MonadExcept.throw e : EStateM ε σ α) :=
  (Yields.throw (P := fun _ => True) h).keeps

theorem Yields.bind_keeps {f : α → EStateM ε σ γ} (hx : Yields I E P x)
    (hf : ∀ a, P a → Keeps I E (f a)) : Keeps I E (x >>= f) :=
  (hx.bind fun a ha => keeps_iff_yields.1 (hf a ha)).keeps

theorem Keeps.bind_yields {f : α → EStateM ε σ γ} (hx : Keeps I E x)
    (hf : ∀ a, Yields I E Q (f a)) : Yields I E Q (x >>= f) :=
  (keeps_iff_yields.1 hx).bind fun a _ => hf a

theorem Keeps.bind {f : α → EStateM ε σ γ} (hx : Keeps I E x) (hf : ∀ a, Keeps I E (f a)) :
    Keeps I E (x >>= f) :=
  (hx.bind_yields fun a => keeps_iff_yields.1 (hf a)).keeps

theorem Keeps.ite {c : Prop} [Decidable c] {y : EStateM ε σ α} (hx : c → Keeps I E x)
    (hy : ¬c → Keeps I E y) : Keeps I E (if c then x else y) :=
  (Yields.ite (fun hc => keeps_iff_yields.1 (hx hc)) fun hc => keeps_iff_yields.1 (hy hc)).keeps

theorem Keeps.read {f : α → EStateM ε σ γ} (hx : ∀ s, I s → ∃ a, x s = .ok a s ∧ P a)
    (hf : ∀ a, P a → Keeps I E (f a)) : Keeps I E (x >>= f) :=
  (Yields.read hx fun a ha => keeps_iff_yields.1 (hf a ha)).keeps

theorem Keeps.update {g : σ → σ} (hg : ∀ s, I s → I (g s)) :
    Keeps I E (modify g : EStateM ε σ PUnit) :=
  (Yields.update hg).keeps

theorem Keeps.map {f : α → γ} (hx : Keeps I E x) : Keeps I E (f <$> x) := by
  rw [estate_map_eq]
  exact hx.bind fun a => .pure (f a)

def finalState : EStateM.Result ε σ α → σ
  | .ok _ s => s
  | .error _ s => s

theorem Simulates.finalState (h : Simulates I R x r) (hs : I s) :
    I (Kirenenko.finalState (x s)) := by
  obtain ⟨hok, herr⟩ := h s hs
  cases hr : x s with
  | ok a s' => exact (hok a s' hr).1
  | error e s' => exact (herr e s' hr).1

theorem Keeps.finalState (h : Keeps I E x) (hs : I s) : I (Kirenenko.finalState (x s)) := by
  obtain ⟨hok, herr⟩ := h s hs
  cases hr : x s with
  | ok a s' => exact hok a s' hr
  | error e s' => exact (herr e s' hr).1

end

/-- A computation that returns a value with `P` or fails with one of `E`. -/
def Ends (E : ε → Prop) (P : α → Prop) : Except ε α → Prop
  | .ok a => P a
  | .error e => E e

section
variable {E : ε → Prop} {P : α → Prop} {Q : β → Prop} {x : Except ε α}

theorem Ends.bind {f : α → Except ε β} (hx : Ends E P x) (hf : ∀ a, P a → Ends E Q (f a)) :
    Ends E Q (x >>= f) := by
  cases x with
  | ok a => exact hf a hx
  | error e => exact hx

theorem Ends.mono {P' : α → Prop} (hx : Ends E P x) (h : ∀ a, P a → P' a) : Ends E P' x := by
  cases x with
  | ok a => exact h a hx
  | error e => exact hx

theorem Ends.weaken {E' : ε → Prop} (hx : Ends E P x) (h : ∀ e, E e → E' e) : Ends E' P x := by
  cases x with
  | ok a => exact hx
  | error e => exact h e hx

theorem Ends.and {E' : ε → Prop} {P' : α → Prop} (hx : Ends E P x) (hx' : Ends E' P' x) :
    Ends (fun e => E e ∧ E' e) (fun a => P a ∧ P' a) x := by
  cases x with
  | ok a => exact ⟨hx, hx'⟩
  | error e => exact ⟨hx, hx'⟩

theorem Ends.ite {c : Prop} [Decidable c] {y : Except ε α} (hx : c → Ends E P x)
    (hy : ¬c → Ends E P y) : Ends E P (if c then x else y) := by
  by_cases hc : c
  · rw [if_pos hc]
    exact hx hc
  · rw [if_neg hc]
    exact hy hc

end

end Kirenenko
