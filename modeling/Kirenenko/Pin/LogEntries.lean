import Kirenenko.Pin.Logger

namespace Kirenenko
set_option autoImplicit true

/-- The arguments of a string comparison. -/
structure FnArgs where
  size : UInt32
  arg1 : Option (List UInt8)
  arg2 : Option (List UInt8)
deriving DecidableEq

/-- One entry of the log: a statement and, for a string comparison, the compared strings. -/
structure LogEntry where
  stmt : CondStmt
  fn : Option FnArgs
deriving DecidableEq

section
variable (api : TagApi)

/-- The entries that a call adds to the log on the visit `ctr` of its site. -/
def HandlerCall.entries (ctr : UInt32) : HandlerCall → List LogEntry
  | .cmp cid ctx size op arg1 arg2 cond t1 t2 =>
    let hasLen := api.hasLenLb t1 || api.hasLenLb t2
    let u1 := if hasLen then api.clearLenMask t1 else t1
    let u2 := if hasLen then api.clearLenMask t2 else t2
    (if hasLen ∧ ctr ≤ maxOrder then
      [⟨{ cid, context := ctx, order := ctr + 0x10000, belong := 0, condition := cond, level := 0,
          op := condLenOp, size, lb1 := 0, lb2 := 1, arg1, arg2 }, none⟩]
    else []) ++
    if ¬(api.tagIsEmpty u1 ∧ api.tagIsEmpty u2) ∧ ctr ≤ maxOrder then
      [⟨{ cid, context := ctx, order := ctr, belong := 0, condition := cond, level := 0, op, size,
          lb1 := u1, lb2 := u2, arg1, arg2 }, none⟩]
    else []
  | .sw cid ctx size cond num args t =>
    let u := api.clearLenMask t
    if ¬api.tagIsEmpty u ∧ ctr ≤ maxOrder then
      (List.range num.toNat).map fun i =>
        ⟨swStmt cid ctx size ctr cond u (.ofNat i) (args (.ofNat i)), none⟩
    else []
  | .fn cid ctx size arg1 arg2 t1 t2 =>
    let u1 := api.clearLenMask t1
    let u2 := api.clearLenMask t2
    if ctr ≤ maxOrder then
      if ¬api.tagIsEmpty u1 then
        [⟨fnStmt cid ctx ctr (argLen size arg2) u1 0, some ⟨size, arg1, arg2⟩⟩]
      else if ¬api.tagIsEmpty u2 then
        [⟨fnStmt cid ctx ctr (argLen size arg1) 0 u2, some ⟨size, arg1, arg2⟩⟩]
      else []
    else []
  | .exploit cid ctx size op val t =>
    let u := api.clearLenMask t
    if ¬api.tagIsEmpty u ∧ ctr ≤ maxOrder then
      [⟨{ cid, context := ctx, order := ctr, belong := 0, condition := condFalseSt, level := 0, op,
          size, lb1 := u, lb2 := 0, arg1 := val, arg2 := 0 }, none⟩]
    else []

def HandlerCall.cid : HandlerCall → UInt32
  | .cmp cid .. | .sw cid .. | .fn cid .. | .exploit cid .. => cid

def HandlerCall.ctx : HandlerCall → UInt32
  | .cmp _ ctx .. | .sw _ ctx .. | .fn _ ctx .. | .exploit _ ctx .. => ctx

/-- A call that takes the length of a null pointer's string does not come back. -/
def HandlerCall.Crashes : HandlerCall → Prop
  | .fn _ _ size arg1 arg2 _ _ => size = 0 ∧ (arg1.isNone ∨ arg2.isNone)
  | _ => False

instance : (c : HandlerCall) → Decidable c.Crashes
  | .fn .. => inferInstanceAs (Decidable (_ ∧ _))
  | .cmp .. | .sw .. | .exploit .. => inferInstanceAs (Decidable False)

def Logger.saveEntry (g : Logger) (e : LogEntry) : Except LogFault Logger := do
  let (i, g) ← g.saveCond api e.stmt
  match e.fn with
  | none => return g
  | some fn => g.saveMb i (argLen fn.size fn.arg1) (argLen fn.size fn.arg2) fn.arg1 fn.arg2

theorem saveEntry_none (g : Logger) (stmt : CondStmt) :
    g.saveEntry api ⟨stmt, none⟩ = Prod.snd <$> g.saveCond api stmt := by
  rw [Logger.saveEntry]
  cases g.saveCond api stmt <;> rfl

theorem foldlM_one {step : σ → α → Except ε σ} (s : σ) (a : α) : [a].foldlM step s = step s a := by
  rw [List.foldlM_cons]
  exact bind_pure _

theorem swLoop_eq (stmt : UInt32 → UInt64 → CondStmt) (args : UInt32 → UInt64) (k i : Nat)
    (g : Logger) :
    swLoop api stmt args k (.ofNat i) g =
      ((List.range' i k).map fun i => (⟨stmt (.ofNat i) (args (.ofNat i)), none⟩ : LogEntry)).foldlM
        (Logger.saveEntry api) g := by
  induction k generalizing i g with
  | zero => rfl
  | succ k ih =>
    have hnext : UInt32.ofNat i + 1 = .ofNat (i + 1) := by simp
    rw [swLoop, List.range'_succ, List.map_cons, List.foldlM_cons, saveEntry_none, hnext]
    cases g.saveCond api (stmt (.ofNat i) (args (.ofNat i))) with
    | error e => rfl
    | ok x => exact ih (i + 1) x.2

theorem foldlM_if {c : Prop} [Decidable c] (g : Logger) (stmt : CondStmt) :
    (if c then [(⟨stmt, none⟩ : LogEntry)] else []).foldlM (Logger.saveEntry api) g =
      if c then Prod.snd <$> g.saveCond api stmt else .ok g := by
  split
  · rw [foldlM_one, saveEntry_none]
  · rfl

theorem cmpHandler_eq (cid ctx size op : UInt32) (arg1 arg2 : UInt64) (cond t1 t2 : UInt32)
    (g : Logger) :
    cmpHandler api cid ctx size op arg1 arg2 cond t1 t2 g =
      ((HandlerCall.cmp cid ctx size op arg1 arg2 cond t1 t2).entries api
        (g.getOrder cid ctx).1).foldlM (Logger.saveEntry api) (g.getOrder cid ctx).2 := by
  simp only [cmpHandler, HandlerCall.entries, List.foldlM_append, foldlM_if]
  generalize (if api.hasLenLb t1 || api.hasLenLb t2 then api.clearLenMask t1 else t1) = u1
  generalize (if api.hasLenLb t1 || api.hasLenLb t2 then api.clearLenMask t2 else t2) = u2
  by_cases ht : api.tagIsEmpty u1 ∧ api.tagIsEmpty u2 <;>
    by_cases hctr : (g.getOrder cid ctx).1 ≤ maxOrder <;>
    by_cases hlen : api.hasLenLb t1 ∨ api.hasLenLb t2 <;> simp [ht, hctr, hlen]

theorem swHandler_eq (cid ctx size : UInt32) (cond : UInt64) (num : UInt32)
    (args : UInt32 → UInt64) (t : UInt32) (g : Logger) :
    swHandler api cid ctx size cond num args t g =
      ((HandlerCall.sw cid ctx size cond num args t).entries api (g.getOrder cid ctx).1).foldlM
        (Logger.saveEntry api) (g.getOrder cid ctx).2 := by
  simp only [swHandler, HandlerCall.entries]
  by_cases ht : api.tagIsEmpty (api.clearLenMask t)
  · rw [if_pos ht, if_neg fun h => h.1 ht]
    rfl
  · by_cases hctr : (g.getOrder cid ctx).1 ≤ maxOrder
    · rw [if_neg ht, if_pos hctr, if_pos ⟨ht, hctr⟩, List.range_eq_range']
      exact swLoop_eq api _ args num.toNat 0 _
    · rw [if_neg ht, if_neg hctr, if_neg fun h => hctr h.2]
      rfl

theorem fnHandler_eq (cid ctx size : UInt32) (arg1 arg2 : Option (List UInt8)) (t1 t2 : UInt32)
    (g : Logger) (hc : ¬(HandlerCall.fn cid ctx size arg1 arg2 t1 t2).Crashes) :
    fnHandler api cid ctx size arg1 arg2 t1 t2 g =
      ((HandlerCall.fn cid ctx size arg1 arg2 t1 t2).entries api (g.getOrder cid ctx).1).foldlM
        (Logger.saveEntry api) (g.getOrder cid ctx).2 := by
  rw [HandlerCall.Crashes] at hc
  simp only [fnHandler, HandlerCall.entries, if_neg hc]
  by_cases hctr : (g.getOrder cid ctx).1 ≤ maxOrder
  · by_cases h1 : api.tagIsEmpty (api.clearLenMask t1)
    · by_cases h2 : api.tagIsEmpty (api.clearLenMask t2)
      · simp [hctr, h1, h2]
        rfl
      · simp [hctr, h1, h2, Logger.saveEntry]
    · simp [hctr, h1, Logger.saveEntry]
  · rw [if_neg hctr, if_neg hctr]
    rfl

theorem exploitHandler_eq (cid ctx size op : UInt32) (val : UInt64) (t : UInt32) (g : Logger) :
    exploitHandler api cid ctx size op val t g =
      ((HandlerCall.exploit cid ctx size op val t).entries api (g.getOrder cid ctx).1).foldlM
        (Logger.saveEntry api) (g.getOrder cid ctx).2 := by
  simp only [exploitHandler, HandlerCall.entries, foldlM_if]
  by_cases ht : api.tagIsEmpty (api.clearLenMask t) <;>
    by_cases hctr : (g.getOrder cid ctx).1 ≤ maxOrder <;> simp [ht, hctr]

theorem handle_eq (g : Logger) (c : HandlerCall) :
    handle api g c =
      if c.Crashes then .error .nullPointer
      else (c.entries api (g.getOrder c.cid c.ctx).1).foldlM (Logger.saveEntry api)
        (g.getOrder c.cid c.ctx).2 := by
  cases c with
  | cmp cid ctx size op arg1 arg2 cond t1 t2 =>
    exact (cmpHandler_eq api cid ctx size op arg1 arg2 cond t1 t2 g).trans (if_neg id).symm
  | sw cid ctx size cond num args t =>
    exact (swHandler_eq api cid ctx size cond num args t g).trans (if_neg id).symm
  | fn cid ctx size arg1 arg2 t1 t2 =>
    by_cases hc : (HandlerCall.fn cid ctx size arg1 arg2 t1 t2).Crashes
    · rw [if_pos hc]
      exact if_pos hc
    · rw [if_neg hc]
      exact fnHandler_eq api cid ctx size arg1 arg2 t1 t2 g hc
  | exploit cid ctx size op val t =>
    exact (exploitHandler_eq api cid ctx size op val t g).trans (if_neg id).symm

/-- How often a site has been visited in a context. -/
def visits (calls : List HandlerCall) (cid ctx : UInt32) : Nat :=
  calls.countP fun c => c.cid = cid ∧ c.ctx = ctx

/-- The log of some calls after others. -/
def loggedFrom (before : List HandlerCall) : List HandlerCall → List LogEntry
  | [] => []
  | c :: calls =>
    c.entries api (.ofNat (visits before c.cid c.ctx + 1)) ++ loggedFrom (before ++ [c]) calls

/-- The log that some calls are to produce. -/
def logged (calls : List HandlerCall) : List LogEntry := loggedFrom api [] calls

theorem loggedFrom_snoc (before calls : List HandlerCall) (c : HandlerCall) :
    loggedFrom api before (calls ++ [c]) = loggedFrom api before calls ++
      c.entries api (.ofNat (visits (before ++ calls) c.cid c.ctx + 1)) := by
  induction calls generalizing before with
  | nil => simp [loggedFrom]
  | cons d calls ih =>
    rw [List.cons_append, loggedFrom, loggedFrom, ih, List.append_assoc, List.append_assoc]
    rfl

theorem logged_snoc (calls : List HandlerCall) (c : HandlerCall) :
    logged api (calls ++ [c]) =
      logged api calls ++ c.entries api (.ofNat (visits calls c.cid c.ctx + 1)) :=
  loggedFrom_snoc api [] calls c

theorem toNat_orderKey (cid ctx : UInt32) :
    (orderKey cid ctx).toNat = cid.toNat * 2 ^ 32 + ctx.toNat := by
  have hcid := cid.toNat_lt
  have hshift : (cid.toUInt64 <<< 32).toNat = cid.toNat <<< 32 := by
    have h32 : (32 : UInt64).toNat % 64 = 32 := rfl
    rw [UInt64.toNat_shiftLeft, UInt32.toNat_toUInt64, h32, Nat.shiftLeft_eq]
    omega
  rw [orderKey, UInt64.toNat_or, hshift, UInt32.toNat_toUInt64,
    ← Nat.shiftLeft_add_eq_or_of_lt ctx.toNat_lt, Nat.shiftLeft_eq]

theorem orderKey_inj (h : orderKey cid ctx = orderKey cid' ctx') : cid = cid' ∧ ctx = ctx' := by
  have hnat := congrArg UInt64.toNat h
  have hctx := ctx.toNat_lt
  have hctx' := ctx'.toNat_lt
  rw [toNat_orderKey, toNat_orderKey] at hnat
  exact ⟨UInt32.toNat_inj.1 (by omega), UInt32.toNat_inj.1 (by omega)⟩

/-- The map holds the number of visits, in 32 bits. -/
def Counted (g : Logger) (calls : List HandlerCall) : Prop :=
  ∀ cid ctx, g.orderMap (orderKey cid ctx) =
    if visits calls cid ctx = 0 then none else some (.ofNat (visits calls cid ctx))

theorem visits_snoc (calls : List HandlerCall) (c : HandlerCall) (cid ctx : UInt32) :
    visits (calls ++ [c]) cid ctx =
      visits calls cid ctx + if c.cid = cid ∧ c.ctx = ctx then 1 else 0 := by
  simp [visits, List.countP_append, List.countP_cons]

theorem getOrder_map (g : Logger) (cid ctx : UInt32) :
    (g.getOrder cid ctx).2 = { g with
      orderMap :=
        Function.update g.orderMap (orderKey cid ctx) (some (g.getOrder cid ctx).1) } := by
  simp only [Logger.getOrder]
  cases g.orderMap (orderKey cid ctx) <;> rfl

theorem Counted.order (h : Counted g calls) (cid ctx : UInt32) :
    (g.getOrder cid ctx).1 = .ofNat (visits calls cid ctx + 1) := by
  have hmap := h cid ctx
  simp only [Logger.getOrder]
  by_cases hv : visits calls cid ctx = 0
  · rw [if_pos hv] at hmap
    rw [hmap, hv]
    rfl
  · rw [if_neg hv] at hmap
    rw [hmap, UInt32.ofNat_add]
    rfl

theorem Counted.getOrder (h : Counted g calls) (c : HandlerCall) :
    Counted (g.getOrder c.cid c.ctx).2 (calls ++ [c]) := by
  intro cid ctx
  have hv := visits_snoc calls c cid ctx
  rw [getOrder_map, h.order]
  by_cases hsite : c.cid = cid ∧ c.ctx = ctx
  · rw [if_pos hsite] at hv
    obtain ⟨rfl, rfl⟩ := hsite
    rw [hv, if_neg (Nat.succ_ne_zero _)]
    simp only [Function.update_self]
  · have hkey : orderKey cid ctx ≠ orderKey c.cid c.ctx := by
      intro heq
      obtain ⟨h1, h2⟩ := orderKey_inj heq
      exact hsite ⟨h1.symm, h2.symm⟩
    rw [if_neg hsite, Nat.add_zero] at hv
    rw [hv, ← h cid ctx]
    simp only [Function.update_of_ne hkey]

end

end Kirenenko
