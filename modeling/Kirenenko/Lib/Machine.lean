import Kirenenko.Lib.Simulation

namespace Kirenenko
set_option autoImplicit true

section
variable {ε α β ω : Type} {next : α → Except ε α} {next' : β → Except ε β}

theorem Related.mono {R R' : α → β → Prop} {x : Except ε α} {y : Except ε β}
    (h : Related R x y) (hR : ∀ a b, R a b → R' a b) : Related R' x y := by
  cases x <;> cases y <;> first | exact hR _ _ h | exact h

/-- `n` steps of a machine that may stop with an error. -/
def stepsOf (next : α → Except ε α) : Nat → α → Except ε α
  | 0, a => .ok a
  | n + 1, a => next a >>= stepsOf next n

theorem stepsOf_one (next : α → Except ε α) (a : α) : stepsOf next 1 a = next a := by
  change next a >>= Except.ok = next a
  cases next a <;> rfl

theorem stepsOf_add (next : α → Except ε α) (m n : Nat) (a : α) :
    stepsOf next (m + n) a = stepsOf next m a >>= stepsOf next n := by
  induction m generalizing a with
  | zero => rw [Nat.zero_add]; rfl
  | succ m ih =>
    rw [Nat.succ_add]
    change next a >>= stepsOf next (m + n) = (next a >>= stepsOf next m) >>= stepsOf next n
    cases next a with
    | error e => rfl
    | ok b => exact ih b

theorem stepsOf_le (h : m ≤ n) (hm : stepsOf next m a = r) (hr : r >>= next = r) :
    stepsOf next n a = r := by
  obtain ⟨d, rfl⟩ := Nat.exists_eq_add_of_le h
  rw [stepsOf_add, hm]
  clear h hm
  induction d with
  | zero => cases r <;> rfl
  | succ d ih =>
    cases r with
    | error e => rfl
    | ok b =>
      change next b = .ok b at hr
      change next b >>= stepsOf next d = .ok b
      rw [hr]
      exact ih

theorem stepsOf_invariant {I : α → Prop} (hstep : ∀ a b, I a → next a = .ok b → I b)
    (ha : I a) (h : stepsOf next n a = .ok b) : I b := by
  induction n generalizing a with
  | zero =>
    cases h
    exact ha
  | succ n ih =>
    obtain ⟨c, hc, h⟩ := except_bind_ok.1 h
    exact ih (hstep a c ha hc) h

theorem stepsOf_succ (h : stepsOf next (n + 1) a = .ok c) :
    ∃ b, stepsOf next n a = .ok b ∧ next b = .ok c := by
  rw [stepsOf_add] at h
  obtain ⟨b, hb, h⟩ := except_bind_ok.1 h
  rw [stepsOf_one] at h
  exact ⟨b, hb, h⟩

theorem stepsOf_pair {R : α → β → Prop}
    (hstep : ∀ k < n, ∀ c d c' d', stepsOf next k a = .ok c → R c d → next c = .ok c' →
      next' d = .ok d' → R c' d')
    (hab : R a b) (h : stepsOf next n a = .ok c) (h' : stepsOf next' n b = .ok d) : R c d := by
  induction n generalizing c d with
  | zero =>
    cases h
    cases h'
    exact hab
  | succ n ih =>
    obtain ⟨c₁, hc₁, h⟩ := stepsOf_succ h
    obtain ⟨d₁, hd₁, h'⟩ := stepsOf_succ h'
    have hr := ih (fun k hk => hstep k (Nat.lt_succ_of_lt hk)) hc₁ hd₁
    exact hstep n (Nat.lt_succ_self n) c₁ d₁ c d hc₁ hr h h'

/-- Each step of the one machine is some steps of the other, errors included. -/
def Implements (R : α → β → Prop) (next : α → Except ε α) (next' : β → Except ε β) : Prop :=
  ∀ a b, R a b → ∃ k, 0 < k ∧ Related R (next a) (stepsOf next' k b)

variable {R : α → β → Prop}

theorem Implements.run (h : Implements R next next') (hab : R a b) (n : Nat) :
    ∃ k, n ≤ k ∧ Related R (stepsOf next n a) (stepsOf next' k b) := by
  induction n generalizing a b with
  | zero => exact ⟨0, Nat.le_refl 0, hab⟩
  | succ n ih =>
    obtain ⟨k, hk, hstep⟩ := h a b hab
    change ∃ k, n + 1 ≤ k ∧ Related R (next a >>= stepsOf next n) (stepsOf next' k b)
    cases ha : next a with
    | error e =>
      refine ⟨k + n, by omega, ?_⟩
      rw [stepsOf_add, hstep.error_left ha]
      exact rfl
    | ok a' =>
      obtain ⟨b', hb, hab'⟩ := hstep.ok_left ha
      obtain ⟨k', hk', hrest⟩ := ih hab'
      refine ⟨k + k', by omega, ?_⟩
      rw [stepsOf_add, hb]
      exact hrest

/-- Two machines that go step by step, unless the first one stops with an error of its own. -/
theorem stepsOf_lockstep {E : ε → Prop}
    (h : ∀ a b, R a b → (∃ e, E e ∧ next a = .error e) ∨ Related R (next a) (next' b))
    (hab : R a b) (n : Nat) : (∃ e, E e ∧ stepsOf next n a = .error e) ∨
      Related R (stepsOf next n a) (stepsOf next' n b) := by
  induction n generalizing a b with
  | zero => exact .inr hab
  | succ n ih =>
    change (∃ e, E e ∧ next a >>= stepsOf next n = .error e) ∨
      Related R (next a >>= stepsOf next n) (next' b >>= stepsOf next' n)
    rcases h a b hab with ⟨e, he, ha⟩ | hr
    · rw [ha]
      exact .inl ⟨e, he, rfl⟩
    · cases ha : next a with
      | error e =>
        rw [hr.error_left ha]
        exact .inr rfl
      | ok a' =>
        obtain ⟨b', hb, hab'⟩ := hr.ok_left ha
        rw [hb]
        exact ih hab'

/-- How a run ends: with an error, or in a state that is done, with what it has to show. -/
def EndsIn (next : α → Except ε α) (done : α → Option ω) (a : α) : Except ε ω → Prop
  | .error e => ∃ n, stepsOf next n a = .error e
  | .ok o => ∃ n b, stepsOf next n a = .ok b ∧ done b = some o

theorem EndsIn.of_steps {done : α → Option ω} (hhalt : ∀ a o, done a = some o → next a = .ok a)
    (hab : stepsOf next k a = .ok b) (o : Except ε ω) :
    EndsIn next done a o ↔ EndsIn next done b o := by
  have hadd : ∀ n, stepsOf next (k + n) a = stepsOf next n b := by
    intro n
    rw [stepsOf_add, hab]
    rfl
  cases o with
  | error e =>
    constructor
    · rintro ⟨n, hn⟩
      exact ⟨n, (hadd n).symm.trans (stepsOf_le (Nat.le_add_left n k) hn rfl)⟩
    · rintro ⟨n, hn⟩
      exact ⟨k + n, (hadd n).trans hn⟩
  | ok o =>
    constructor
    · rintro ⟨n, c, hn, hc⟩
      exact ⟨n, c, (hadd n).symm.trans (stepsOf_le (Nat.le_add_left n k) hn (hhalt c o hc)), hc⟩
    · rintro ⟨n, c, hn, hc⟩
      exact ⟨k + n, c, (hadd n).trans hn, hc⟩

/-- Two machines end in the same ways, if related states show the same. -/
theorem Implements.endsIn_iff {done : α → Option ω} {done' : β → Option ω}
    (h : Implements R next next') (hab : R a b) (hdone : ∀ a b, R a b → done a = done' b)
    (hhalt : ∀ b o, done' b = some o → next' b = .ok b) (o : Except ε ω) :
    EndsIn next done a o ↔ EndsIn next' done' b o := by
  cases o with
  | error e =>
    constructor
    · rintro ⟨n, hn⟩
      obtain ⟨k, -, hr⟩ := h.run hab n
      exact ⟨k, hr.error_left hn⟩
    · rintro ⟨n, hn⟩
      obtain ⟨k, hle, hr⟩ := h.run hab n
      exact ⟨n, hr.error_right (stepsOf_le hle hn rfl)⟩
  | ok o =>
    constructor
    · rintro ⟨n, a', hn, ha'⟩
      obtain ⟨k, -, hr⟩ := h.run hab n
      obtain ⟨b', hb', hab'⟩ := hr.ok_left hn
      exact ⟨k, b', hb', (hdone a' b' hab').symm.trans ha'⟩
    · rintro ⟨n, b', hn, hb'⟩
      obtain ⟨k, hle, hr⟩ := h.run hab n
      obtain ⟨a', ha, hab'⟩ := hr.ok_right (stepsOf_le hle hn (hhalt b' o hb'))
      exact ⟨n, a', ha, (hdone a' b' hab').trans hb'⟩

section
variable {E : ε → Prop} {done : α → Option ω} {done' : β → Option υ} {view : ω → υ}

theorem EndsIn.lockstep (h : EndsIn next done a o)
    (hstep : ∀ a b, R a b → (∃ e, E e ∧ next a = .error e) ∨ Related R (next a) (next' b))
    (hdone : ∀ a b, R a b → (done a).map view = done' b) (hab : R a b) :
    (∃ e, E e ∧ o = .error e) ∨ EndsIn next' done' b (o.map view) := by
  cases o with
  | error e =>
    obtain ⟨n, hn⟩ := h
    rcases stepsOf_lockstep hstep hab n with ⟨e', he, hn'⟩ | hr
    · cases hn.symm.trans hn'
      exact .inl ⟨e, he, rfl⟩
    · exact .inr ⟨n, hr.error_left hn⟩
  | ok o =>
    obtain ⟨n, a', hn, ha'⟩ := h
    rcases stepsOf_lockstep hstep hab n with ⟨e', _, hn'⟩ | hr
    · cases hn.symm.trans hn'
    · obtain ⟨b', hb', hab'⟩ := hr.ok_left hn
      have hout := hdone a' b' hab'
      rw [ha'] at hout
      exact .inr ⟨n, b', hb', hout.symm⟩

theorem EndsIn.lockstep_back (h : EndsIn next' done' b p)
    (hstep : ∀ a b, R a b → (∃ e, E e ∧ next a = .error e) ∨ Related R (next a) (next' b))
    (hdone : ∀ a b, R a b → (done a).map view = done' b) (hab : R a b) :
    (∃ e, E e ∧ EndsIn next done a (.error e)) ∨
      ∃ o, EndsIn next done a o ∧ o.map view = p := by
  cases p with
  | error e =>
    obtain ⟨n, hn⟩ := h
    rcases stepsOf_lockstep hstep hab n with ⟨e', he, hn'⟩ | hr
    · exact .inl ⟨e', he, n, hn'⟩
    · exact .inr ⟨.error e, ⟨n, hr.error_right hn⟩, rfl⟩
  | ok p =>
    obtain ⟨n, b', hn, hb'⟩ := h
    rcases stepsOf_lockstep hstep hab n with ⟨e', he, hn'⟩ | hr
    · exact .inl ⟨e', he, n, hn'⟩
    · obtain ⟨a', ha', hab'⟩ := hr.ok_right hn
      obtain ⟨o, ho, rfl⟩ := Option.map_eq_some_iff.1 ((hdone a' b' hab').trans hb')
      exact .inr ⟨.ok o, ⟨n, a', ha', ho⟩, rfl⟩

end

end

end Kirenenko
