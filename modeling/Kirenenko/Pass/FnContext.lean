import Kirenenko.Llvm.Integer
import Kirenenko.Pass.ContextRecording

namespace Kirenenko
set_option autoImplicit true

/-- `num_fn_ctx` as `initVariables` sets it from the integer in the environment, if there is one;
`none` where the pass exits. -/
def initNumFnCtx : Option Int → Option Int
  | none => some (-1)
  | some n => if n < 0 ∨ n ≥ 32 then none else some n

/-- `OriCtxVal`, from the context on entry. A poison value is `none`. -/
def oriCtxVal (numFnCtx : Int) (ctx : Option Nat) : Option Nat :=
  if numFnCtx > 0 then ctx.bind fun v => BinaryOps.LShr.exec 32 v (32 / numFnCtx).toNat
  else ctx

/-- The code around a function, entered with the id of a call site in `__angora_call_site`. -/
def addFnWrap (numFnCtx : Int) : SaveRestore (Option Nat) Nat :=
  if numFnCtx = 0 then
    { save := fun _ ctx => ctx
      enter := fun _ ctx => ctx
      leave := fun _ _ ctx => ctx }
  else
    { save := fun _ ctx => oriCtxVal numFnCtx ctx
      enter := fun callSite ctx =>
        (oriCtxVal numFnCtx ctx).bind fun v => BinaryOps.Xor.exec 32 v callSite
      leave := fun inst ori ctx => if inst.isReturnOrResume then ori else ctx }

theorem initNumFnCtx_bounds (hn : initNumFnCtx custom = some n) (hne : n ≠ 0) :
    n = -1 ∨ 1 ≤ n ∧ n < 32 := by
  cases custom with
  | none =>
    cases hn
    exact .inl rfl
  | some k =>
    simp only [initNumFnCtx] at hn
    split at hn
    · cases hn
    · cases hn
      omega

theorem addFnWrap_save (hne : n ≠ 0) : (addFnWrap n).save a ctx = oriCtxVal n ctx := by
  simp [addFnWrap, hne]

theorem addFnWrap_enter (hne : n ≠ 0) :
    (addFnWrap n).enter a ctx = (oriCtxVal n ctx).bind fun v => some (v ^^^ a) := by
  simp [addFnWrap, hne, BinaryOps.exec]

theorem addFnWrap_leave (hne : n ≠ 0) :
    (addFnWrap n).leave t ori ctx = if t.isReturnOrResume then ori else ctx := by
  simp [addFnWrap, hne]

theorem oriCtxVal_unset : oriCtxVal (-1) ctx = ctx := rfl

theorem oriCtxVal_one (ctx : Option Nat) : oriCtxVal 1 ctx = none := by
  cases ctx <;> rfl

theorem oriCtxVal_shift (hlow : 2 ≤ n) (hhigh : n < 32) (v : Nat) :
    ∃ k, 1 ≤ k ∧ oriCtxVal n (some v) = some (v / 2 ^ k) := by
  refine ⟨(32 / n).toNat, ?_, ?_⟩
  · have : 1 ≤ 32 / n := Int.le_ediv_of_mul_le (by omega) (by omega)
    omega
  · have hwidth : (32 / n).toNat < 32 := by
      have : 32 / n < 32 := Int.ediv_lt_of_lt_mul (by omega) (by omega)
      omega
    have hpos : n > 0 := by omega
    simp [oriCtxVal, hpos, BinaryOps.exec, hwidth]

/-- What an activation keeps is the context it began with only in the default mode, or if nothing
is shifted out. -/
theorem oriCtxVal_eq_iff (hn : n = -1 ∨ 1 ≤ n ∧ n < 32) (v : Nat) :
    oriCtxVal n (some v) = some v ↔ n = -1 ∨ n ≠ 1 ∧ v = 0 := by
  by_cases hunset : n = -1
  · subst hunset
    simp [oriCtxVal_unset]
  by_cases hone : n = 1
  · subst hone
    simp [oriCtxVal_one]
  · obtain ⟨k, hk, hshift⟩ := oriCtxVal_shift (n := n) (by omega) (by omega) v
    rw [hshift]
    constructor
    · intro h
      have hfix : v / 2 ^ k = v := Option.some.inj h
      refine .inr ⟨hone, Nat.eq_zero_of_not_pos fun hpos => ?_⟩
      have hlt := Nat.div_lt_self hpos (Nat.one_lt_two_pow (by omega : k ≠ 0))
      omega
    · rintro (h | ⟨_, rfl⟩)
      · exact (hunset h).elim
      · simp

/-- Everywhere in a run, an activation on the stack keeps the context it began with, shifted. -/
theorem fnWrap_saved (hne : n ≠ 0) (ctx : Option Nat) (events : List (CallEvent Nat)) :
    ∀ f ∈ (events.foldl (addFnWrap n).step (.start ctx)).stack, f.saved = oriCtxVal n f.start := by
  have hkept := (addFnWrap n).run_kept (I := fun _ => True)
    (J := fun f => f.saved = oriCtxVal n f.start)
    (fun a v _ => ⟨trivial, addFnWrap_save hne⟩) (fun _ _ _ _ _ => trivial) (v := ctx) trivial
    events
  exact hkept.stack

theorem fnWrap_defined (hn : n = -1 ∨ 2 ≤ n ∧ n < 32) (v : Nat) (events : List (CallEvent Nat)) :
    ∀ f ∈ (events.foldl (addFnWrap n).step (.start (some v))).stack, f.start.isSome := by
  have hne : n ≠ 0 := by omega
  have hori : ∀ ctx : Option Nat, ctx.isSome → (oriCtxVal n ctx).isSome := by
    intro ctx hctx
    obtain ⟨u, rfl⟩ := Option.isSome_iff_exists.1 hctx
    rcases hn with rfl | ⟨hlow, hhigh⟩
    · rfl
    · obtain ⟨k, _, hk⟩ := oriCtxVal_shift hlow hhigh u
      rw [hk]
      rfl
  have henter : ∀ a ctx, Option.isSome ctx → Option.isSome ((addFnWrap n).enter a ctx) ∧
      (ctx.isSome ∧ ((addFnWrap n).save a ctx).isSome) := by
    intro a ctx hctx
    rw [addFnWrap_enter hne, addFnWrap_save hne]
    obtain ⟨u, hu⟩ := Option.isSome_iff_exists.1 (hori ctx hctx)
    rw [hu]
    exact ⟨rfl, hctx, rfl⟩
  have hleave : ∀ t (f : Activation (Option Nat) Nat) ctx, f.start.isSome ∧ f.saved.isSome →
      Option.isSome ctx → Option.isSome ((addFnWrap n).leave t f.saved ctx) := by
    intro t f ctx hf hctx
    rw [addFnWrap_leave hne]
    split
    · exact hf.2
    · exact hctx
  have hkept := (addFnWrap n).run_kept (I := fun ctx => ctx.isSome)
    (J := fun f => f.start.isSome ∧ f.saved.isSome) henter hleave (v := some v) rfl events
  exact fun f hf => (hkept.stack f hf).1

/-- The context is defined and is the one the activation began with. -/
def Restored (f : Activation (Option Nat) Nat) (s : CallState (Option Nat) Nat) : Prop :=
  ∃ v, f.start = some v ∧ s.value = some v

instance : Decidable (Restored f s) :=
  decidable_of_iff (f.start.isSome ∧ s.value = f.start) <| by
    simp only [Restored, Option.isSome_iff_exists]
    constructor
    · rintro ⟨⟨v, hv⟩, h⟩
      exact ⟨v, hv, h.trans hv⟩
    · rintro ⟨v, hv, h⟩
      exact ⟨⟨v, hv⟩, h.trans hv.symm⟩

theorem restored_iff (hne : n ≠ 0) {s : CallState (Option Nat) Nat} (hstack : s.stack = f :: rest)
    (hsaved : f.saved = oriCtxVal n f.start) :
    Restored f ((addFnWrap n).step s (.terminate .ret)) ↔
      ∃ v, f.start = some v ∧ oriCtxVal n (some v) = some v := by
  have hvalue : ((addFnWrap n).step s (.terminate .ret)).value = oriCtxVal n f.start := by
    simp only [SaveRestore.step, hstack, SaveRestore.terminate]
    rw [addFnWrap_leave hne, hsaved]
    rfl
  unfold Restored
  rw [hvalue]
  constructor
  · rintro ⟨v, hv, h⟩
    exact ⟨v, hv, hv ▸ h⟩
  · rintro ⟨v, hv, h⟩
    exact ⟨v, hv, by rw [hv]; exact h⟩

/-- In every run, an activation that returns leaves the context as it was when it began exactly in
the default mode, or if the context was zero and the setting is not one. -/
theorem fn_context_restored (custom : Option Int) (hn : initNumFnCtx custom = some n)
    (hne : n ≠ 0) (v : Nat) (events : List (CallEvent Nat)) (s : CallState (Option Nat) Nat)
    (hs : events.foldl (addFnWrap n).step (.start (some v)) = s) (hstack : s.stack = f :: rest) :
    Restored f ((addFnWrap n).step s (.terminate .ret)) ↔
      n = -1 ∨ n ≠ 1 ∧ f.start = some 0 := by
  have hbounds := initNumFnCtx_bounds hn hne
  have hmem : f ∈ (events.foldl (addFnWrap n).step (.start (some v))).stack := by
    rw [hs, hstack]
    exact List.mem_cons_self
  rw [restored_iff hne hstack (fnWrap_saved hne _ events f hmem)]
  constructor
  · rintro ⟨u, hu, h⟩
    rcases (oriCtxVal_eq_iff hbounds u).1 h with hunset | ⟨hone, rfl⟩
    · exact .inl hunset
    · exact .inr ⟨hone, hu⟩
  · rintro (hunset | ⟨hone, hzero⟩)
    · have hdefined := fnWrap_defined (.inl hunset) v events f hmem
      obtain ⟨u, hu⟩ := Option.isSome_iff_exists.1 hdefined
      exact ⟨u, hu, (oriCtxVal_eq_iff hbounds u).2 (.inl hunset)⟩
    · exact ⟨0, hzero, (oriCtxVal_eq_iff hbounds 0).2 (.inr ⟨hone, rfl⟩)⟩

/-- In the default mode, from the second of two nested calls. -/
theorem fn_context_restored_unset :
    let s := [CallEvent.enter 5, .enter 9].foldl (addFnWrap (-1)).step (.start (some 0))
    initNumFnCtx none = some (-1) ∧ ∃ f rest, s.stack = f :: rest ∧ f.start = some 5 ∧
      Restored f ((addFnWrap (-1)).step s (.terminate .ret)) := by
  intro s
  have h := fn_context_restored none rfl (by decide) 0 [.enter 5, .enter 9] s rfl rfl
  exact ⟨rfl, _, _, rfl, rfl, h.2 (.inl rfl)⟩

/-- With two contexts, a call from the function entered at call site 65541 takes away half of its
context. -/
theorem shifted_context_stored_back :
    let s := [CallEvent.enter 65541, .enter 9].foldl (addFnWrap 2).step (.start (some 0))
    let s' := (addFnWrap 2).step s (.terminate .ret)
    initNumFnCtx (some 2) = some 2 ∧ ∃ f rest, s.stack = f :: rest ∧ f.start = some 65541 ∧
      s'.value = some 1 ∧ ¬Restored f s' :=
  ⟨rfl, _, _, rfl, rfl, by decide, by decide⟩

end Kirenenko
