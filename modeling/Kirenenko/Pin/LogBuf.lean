import Mathlib.Algebra.Group.Nat.Defs
import Kirenenko.Lib.Cells
import Kirenenko.Lib.Run

namespace Kirenenko
set_option autoImplicit true

/-- How a call into the logger can end without returning. -/
inductive LogFault where
  | overflow
  | assertion
  | nullPointer
deriving DecidableEq

/-- `BUF_LEN` -/
def bufLen : Nat := 2 <<< 16

/-- A `LogBuf`, with the size of the block that `buffer` points at. -/
structure LogBuf where
  buffer : Nat → UInt8
  allocated : Nat
  cap : Nat
  len : Nat

/-- The bytes of a fresh block are arbitrary. -/
def LogBuf.new (fresh : Nat → UInt8) : LogBuf := ⟨fresh, bufLen, bufLen, 0⟩

/-- `cap *= 2` and the call of `realloc`. -/
def LogBuf.grow (b : LogBuf) : LogBuf :=
  { b with cap := b.cap * 2 % 2 ^ 64, allocated := b.cap * 2 % 2 ^ 64 }

/-- The copy behind the check; a byte outside of the block is a fault of the model. -/
def LogBuf.memcpy (b : LogBuf) (bytes : Nat → UInt8) (size : Nat) : Except LogFault LogBuf :=
  if b.len + size ≤ b.allocated then
    .ok { b with buffer := written b.len bytes size b.buffer, len := (b.len + size) % 2 ^ 64 }
  else .error .overflow

/-- Nothing happens for a null pointer. -/
def LogBuf.pushBytes (b : LogBuf) (bytes : Option (Nat → UInt8)) (size : Nat) :
    Except LogFault LogBuf :=
  match bytes with
  | none => .ok b
  | some bytes =>
    if size > 0 then
      let next := (b.len + size) % 2 ^ 64
      if next > b.cap then b.grow.memcpy bytes size else b.memcpy bytes size
    else .ok b

def LogBuf.content (b : LogBuf) : List UInt8 := (List.range b.len).map b.buffer

/-- A pointer to a string of bytes. -/
def bytesAt (bytes : List UInt8) (i : Nat) : UInt8 := bytes.getD i 0

def LogBuf.push (b : LogBuf) (bytes : List UInt8) : Except LogFault LogBuf :=
  b.pushBytes (some (bytesAt bytes)) bytes.length

/-- One doubling of the capacity is enough. -/
def LogBuf.Fits (b : LogBuf) (size : Nat) : Prop :=
  size = 0 ∨ b.len + size ≤ b.cap ∨ b.len + size ≤ 2 * b.cap ∧ 2 * b.cap < 2 ^ 64

instance (b : LogBuf) (size : Nat) : Decidable (b.Fits size) := inferInstanceAs (Decidable (_ ∨ _))

structure LogBuf.Sound (b : LogBuf) : Prop where
  len : b.len ≤ b.cap
  allocated : b.allocated = b.cap
  word : b.cap < 2 ^ 64
  large : bufLen ≤ b.cap
  needed : b.cap = bufLen ∨ b.cap < 2 * b.len

theorem LogBuf.Sound.new (fresh : Nat → UInt8) : (LogBuf.new fresh).Sound where
  len := Nat.zero_le _
  allocated := rfl
  word := (by decide : bufLen < 2 ^ 64)
  large := Nat.le_refl _
  needed := .inl rfl

theorem content_written (b : LogBuf) (bytes : Nat → UInt8) (size : Nat) :
    (List.range (b.len + size)).map (written b.len bytes size b.buffer) =
      b.content ++ (List.range size).map bytes := by
  rw [List.range_add, List.map_append, List.map_map]
  congr 1
  · apply List.map_congr_left
    intro i hi
    apply written_outside
    have hlt := List.mem_range.1 hi
    omega
  · apply List.map_congr_left
    intro i hi
    exact written_inside bytes b.buffer (List.mem_range.1 hi)

theorem LogBuf.memcpy_ok (b : LogBuf) (h : b.len + size ≤ b.allocated)
    (hword : b.allocated < 2 ^ 64) (bytes : Nat → UInt8) :
    ∃ b', b.memcpy bytes size = .ok b' ∧ b'.cap = b.cap ∧ b'.allocated = b.allocated ∧
      b'.len = b.len + size ∧ b'.content = b.content ++ (List.range size).map bytes := by
  have hlen : (b.len + size) % 2 ^ 64 = b.len + size := Nat.mod_eq_of_lt (by omega)
  rw [LogBuf.memcpy, if_pos h, hlen]
  exact ⟨_, rfl, rfl, rfl, rfl, content_written b bytes size⟩

theorem LogBuf.Sound.pushBytes {b : LogBuf} (hb : b.Sound) (hfit : b.Fits size)
    (bytes : Nat → UInt8) :
    ∃ b', b.pushBytes (some bytes) size = .ok b' ∧ b'.Sound ∧ b'.len = b.len + size ∧
      b'.content = b.content ++ (List.range size).map bytes := by
  obtain ⟨hlen, halloc, hword, hlarge, hneeded⟩ := hb
  simp only [LogBuf.pushBytes]
  by_cases hzero : size = 0
  · subst hzero
    exact ⟨b, rfl, ⟨hlen, halloc, hword, hlarge, hneeded⟩, rfl, (List.append_nil _).symm⟩
  · rw [if_pos (by omega)]
    by_cases hroom : b.len + size ≤ b.cap
    · have hin : b.len + size ≤ b.allocated := by omega
      obtain ⟨b', hok, hcap, halloc', hlen', hcontent⟩ := b.memcpy_ok hin (by omega) bytes
      rw [if_neg (by omega), hok]
      exact ⟨b', rfl, ⟨by omega, by omega, by omega, by omega, by omega⟩, hlen', hcontent⟩
    · obtain ⟨hle, hdouble⟩ : b.len + size ≤ 2 * b.cap ∧ 2 * b.cap < 2 ^ 64 := by
        rcases hfit with h | h | h
        · exact (hzero h).elim
        · exact (hroom h).elim
        · exact h
      have hgrow : b.grow.allocated = 2 * b.cap := by
        simp only [LogBuf.grow]
        omega
      have hlen₀ : b.grow.len = b.len := rfl
      have hcap₀ : b.grow.cap = b.grow.allocated := rfl
      have hin : b.grow.len + size ≤ b.grow.allocated := by omega
      obtain ⟨b', hok, hcap, halloc', hlen', hcontent⟩ := b.grow.memcpy_ok hin (by omega) bytes
      rw [if_pos (by omega), hok]
      exact ⟨b', rfl, ⟨by omega, by omega, by omega, by omega, by omega⟩, hlen', hcontent⟩

/-- A push that does not fit writes past the end of the block. -/
theorem LogBuf.Sound.overflows {b : LogBuf} (hb : b.Sound) (hfit : ¬b.Fits size)
    (bytes : Nat → UInt8) : b.pushBytes (some bytes) size = .error .overflow := by
  obtain ⟨hlen, halloc, hword, hlarge, hneeded⟩ := hb
  simp only [LogBuf.Fits, not_or] at hfit
  obtain ⟨hpos, hcap, hdouble⟩ := hfit
  have hbig : ¬b.len + size ≤ b.allocated := by omega
  have hgrow : ¬b.grow.len + size ≤ b.grow.allocated := by
    simp only [LogBuf.grow]
    omega
  simp only [LogBuf.pushBytes, LogBuf.memcpy, if_neg hbig, if_neg hgrow, ite_self]
  exact if_pos (by omega)

theorem LogBuf.Sound.fits_small {b : LogBuf} (hb : b.Sound) (hsize : size ≤ bufLen)
    (hlen : b.len < 2 ^ 61) : b.Fits size := by
  obtain ⟨hle, -, -, hlarge, hneeded⟩ := hb
  simp only [LogBuf.Fits]
  simp only [bufLen] at hsize hlarge hneeded
  omega

theorem range_map_take (bytes : List UInt8) (h : n ≤ bytes.length) :
    (List.range n).map (bytesAt bytes) = bytes.take n := by
  apply List.ext_getElem
  · simp [h]
  · intro i hi hi'
    have hlt : i < bytes.length := by
      rw [List.length_take] at hi'
      omega
    simp [bytesAt, hlt]

theorem range_map_bytesAt (bytes : List UInt8) :
    (List.range bytes.length).map (bytesAt bytes) = bytes := by
  rw [range_map_take bytes (Nat.le_refl _), List.take_length]

theorem LogBuf.length_content (b : LogBuf) : b.content.length = b.len := by
  rw [LogBuf.content, List.length_map, List.length_range]

theorem pushBytes_eq_push (b : LogBuf) (bytes : Nat → UInt8) (size : Nat) :
    b.pushBytes (some bytes) size = b.push ((List.range size).map bytes) := by
  have hcopy : ∀ b : LogBuf, b.memcpy bytes size =
      b.memcpy (bytesAt ((List.range size).map bytes)) size := by
    intro b
    have hsame : ∀ i < size, bytes i = bytesAt ((List.range size).map bytes) i := by
      intro i hi
      simp [bytesAt, hi]
    rw [LogBuf.memcpy, LogBuf.memcpy, written_congr hsame]
  simp only [LogBuf.push, LogBuf.pushBytes, List.length_map, List.length_range, ← hcopy]

theorem LogBuf.Sound.push {b : LogBuf} (hb : b.Sound) (hfit : b.Fits bytes.length) :
    ∃ b', b.push bytes = .ok b' ∧ b'.Sound ∧ b'.len = b.len + bytes.length ∧
      b'.content = b.content ++ bytes := by
  have hpush := hb.pushBytes hfit (bytesAt bytes)
  rwa [range_map_bytesAt] at hpush

/-- All the strings fit, one after another. -/
def LogBuf.FitsAll (b : LogBuf) (pushes : List (List UInt8)) : Prop :=
  EachRun LogBuf.push (fun b bytes => b.Fits bytes.length) b pushes

instance (b : LogBuf) (pushes : List (List UInt8)) : Decidable (b.FitsAll pushes) :=
  EachRun.decidable _ _ _ _

theorem LogBuf.Sound.pushes {b : LogBuf} {pushes : List (List UInt8)} (hb : b.Sound)
    (hfit : b.FitsAll pushes) :
    ∃ b', pushes.foldlM LogBuf.push b = .ok b' ∧ b'.Sound ∧
      b'.content = b.content ++ pushes.flatten := by
  have hstart : b.Sound ∧ b.content = b.content ++ ([] : List (List UInt8)).flatten :=
    ⟨hb, (List.append_nil _).symm⟩
  apply foldlM_history LogBuf.push
    (P := fun b' pushed => b'.Sound ∧ b'.content = b.content ++ pushed.flatten) _ hstart hfit
  rintro b₁ pushed bytes ⟨hb₁, hcontent⟩ hfits
  obtain ⟨b₂, hok, hb₂, -, hcontent₂⟩ := hb₁.push hfits
  refine ⟨b₂, hok, hb₂, ?_⟩
  rw [hcontent₂, hcontent, List.flatten_append, List.flatten_singleton, List.append_assoc]

theorem LogBuf.Sound.fitsAll_small {b : LogBuf} {pushes : List (List UInt8)} (hb : b.Sound)
    (hsize : ∀ bytes ∈ pushes, bytes.length ≤ bufLen)
    (hlen : b.len + pushes.flatten.length < 2 ^ 61) : b.FitsAll pushes := by
  induction pushes generalizing b with
  | nil => exact trivial
  | cons bytes pushes ih =>
    rw [List.flatten_cons, List.length_append] at hlen
    have hfit := hb.fits_small (hsize bytes List.mem_cons_self) (by omega)
    refine ⟨hfit, fun b' hpush => ?_⟩
    obtain ⟨b₁, hok, hb₁, hlen₁, -⟩ := hb.push hfit
    cases hpush.symm.trans hok
    exact ih hb₁ (fun x hx => hsize x (List.mem_cons_of_mem _ hx)) (by omega)

/-- Every copy stays inside of the buffer and appends, exactly when every push fits. -/
theorem push_appends (fresh : Nat → UInt8) (pushes : List (List UInt8)) :
    (∃ b, pushes.foldlM LogBuf.push (.new fresh) = .ok b ∧ b.len ≤ b.cap ∧ b.allocated = b.cap ∧
      b.content = pushes.flatten) ↔
    (LogBuf.new fresh).FitsAll pushes := by
  constructor
  · rintro ⟨b, hrun, -⟩
    have hiff := foldlM_iff_each LogBuf.push (I := LogBuf.Sound) (B := fun _ => False)
      (P := fun _ => True) (C := fun b bytes => b.Fits bytes.length) ?_ ?_ (fun _ _ _ h _ => h)
      (fun _ _ => trivial) (fun _ h _ => h) (.new fresh) hrun
    · exact hiff.1 trivial
    · intro b bytes b' hb hfit hok
      obtain ⟨b₁, hok₁, hb₁, -⟩ := hb.push hfit
      cases hok.symm.trans hok₁
      exact hb₁
    · intro b bytes b' hb hfit hok
      cases hok.symm.trans (hb.overflows hfit (bytesAt bytes))
  · intro hfit
    obtain ⟨b, hrun, hb, hcontent⟩ := (LogBuf.Sound.new fresh).pushes hfit
    exact ⟨b, hrun, hb.len, hb.allocated, hcontent⟩

/-- One string of more than twice the initial capacity overflows the buffer. -/
theorem push_long_overflows :
    [List.replicate (2 * bufLen + 1) (0 : UInt8)].foldlM LogBuf.push (.new fun _ => 0) =
      .error .overflow := by
  have hfit : ¬(LogBuf.new fun _ => 0).Fits (2 * bufLen + 1) := by
    simp only [LogBuf.Fits, LogBuf.new, bufLen]
    decide
  have hpush := (LogBuf.Sound.new fun _ => 0).overflows hfit
    (bytesAt (List.replicate (2 * bufLen + 1) 0))
  rw [List.foldlM_cons, LogBuf.push, List.length_replicate, hpush]
  rfl

end Kirenenko
