import Kirenenko.Lib.LittleEndian

namespace Kirenenko
set_option autoImplicit true

/-- A reader takes a value off the front of a string of bytes. -/
def Reader (α : Type) : Type := List UInt8 → Option (α × List UInt8)

def Reader.pure (a : α) : Reader α := fun bytes => some (a, bytes)

def Reader.bind (r : Reader α) (f : α → Reader β) : Reader β := fun bytes =>
  (r bytes).bind fun x => f x.1 x.2

instance : Monad Reader where
  pure := Reader.pure
  bind := Reader.bind

def readBytes (n : Nat) : Reader (List UInt8) := fun bytes =>
  if n ≤ bytes.length then some (bytes.take n, bytes.drop n) else none

/-- The bytes of a number, the lowest one first. -/
def bytesOf (n v : Nat) : List UInt8 := (List.range n).map fun i => UInt8.ofNat (v / 2 ^ (8 * i))

def readNat (n : Nat) : Reader Nat := do
  let bytes ← readBytes n
  return littleEndian 8 (fun i => (bytes.getD i 0).toNat) n

/-- The reader takes exactly these bytes for this value, whatever follows. -/
def Reads (r : Reader α) (bytes : List UInt8) (a : α) : Prop :=
  ∀ rest, r (bytes ++ rest) = some (a, rest)

/-- Reads as many records as a count says. -/
def readMany (r : Reader α) : Nat → Reader (List α)
  | 0 => return []
  | n + 1 => do
    let a ← r
    let as ← readMany r n
    return a :: as

/-- Reads records until nothing is left. -/
def readAll (r : Reader α) : Nat → List UInt8 → Option (List α)
  | _, [] => some []
  | 0, _ :: _ => none
  | fuel + 1, b :: bs => (r (b :: bs)).bind fun x => (readAll r fuel x.2).map (x.1 :: ·)

/-- The records a string of bytes consists of. -/
def records (r : Reader α) (bytes : List UInt8) : Option (List α) := readAll r bytes.length bytes

theorem Reads.pure (a : α) : Reads (Pure.pure a : Reader α) [] a := by
  intro rest
  rfl

theorem Reads.bind {r : Reader α} {f : α → Reader β} (hr : Reads r bytes a)
    (hf : Reads (f a) bytes' b) : Reads (r >>= f) (bytes ++ bytes') b := by
  intro rest
  have hbind : (r >>= f) (bytes ++ bytes' ++ rest) =
      (r (bytes ++ bytes' ++ rest)).bind fun x => f x.1 x.2 := rfl
  rw [hbind, List.append_assoc, hr]
  exact hf rest

theorem Reads.map {r : Reader α} {f : α → β} (h : Reads r bytes a) :
    Reads (r >>= fun a => Pure.pure (f a)) bytes (f a) := by
  rw [← List.append_nil bytes]
  exact h.bind (Reads.pure (f a))

theorem Reads.bytes {bytes : List UInt8} (h : bytes.length = n) :
    Reads (readBytes n) bytes bytes := by
  intro rest
  have hle : n ≤ (bytes ++ rest).length := by
    rw [List.length_append]
    omega
  rw [readBytes, if_pos hle, List.take_left' h, List.drop_left' h]

@[simp] theorem length_bytesOf : (bytesOf n v).length = n := by
  rw [bytesOf, List.length_map, List.length_range]

theorem Reads.nat (h : v < 2 ^ (8 * n)) : Reads (readNat n) (bytesOf n v) v := by
  have hvalue : littleEndian 8 (fun i => ((bytesOf n v).getD i 0).toNat) n = v := by
    have hdigit : ∀ i < n, ((bytesOf n v).getD i 0).toNat = v / 2 ^ (8 * i) % 2 ^ 8 := by
      intro i hi
      simp [bytesOf, List.getD_eq_getElem?_getD, hi, UInt8.toNat_ofNat']
    rw [littleEndian_congr hdigit, littleEndian_digits, Nat.mod_eq_of_lt h]
  have hread := (Reads.bytes (length_bytesOf (n := n) (v := v))).map
    (f := fun bytes => littleEndian 8 (fun i => (bytes.getD i 0).toNat) n)
  rwa [hvalue] at hread

theorem readAll_flatMap {r : Reader α} {bs : List β} {enc : β → List UInt8}
    {val : β → α} (h : ∀ b ∈ bs, Reads r (enc b) (val b) ∧ enc b ≠ [])
    (hfuel : (bs.flatMap enc).length ≤ fuel) :
    readAll r fuel (bs.flatMap enc) = some (bs.map val) := by
  induction bs generalizing fuel with
  | nil => cases fuel <;> rfl
  | cons b bs ih =>
    obtain ⟨hread, hne⟩ := h b List.mem_cons_self
    obtain ⟨x, xs, henc⟩ := List.exists_cons_of_ne_nil hne
    rw [List.flatMap_cons] at hfuel ⊢
    rw [List.length_append, henc, List.length_cons] at hfuel
    obtain ⟨fuel, rfl⟩ : ∃ k, fuel = k + 1 := ⟨fuel - 1, by omega⟩
    have hlen : (bs.flatMap enc).length ≤ fuel := by omega
    have hrest := ih (fun c hc => h c (List.mem_cons_of_mem _ hc)) hlen
    have hstep := hread (bs.flatMap enc)
    rw [henc, List.cons_append] at hstep ⊢
    rw [readAll, hstep]
    simpa using hrest

theorem records_flatMap {r : Reader α} {bs : List β} {enc : β → List UInt8}
    {val : β → α} (h : ∀ b ∈ bs, Reads r (enc b) (val b) ∧ enc b ≠ []) :
    records r (bs.flatMap enc) = some (bs.map val) :=
  readAll_flatMap h (Nat.le_refl _)

theorem Reads.many {r : Reader α} {bs : List β} {enc : β → List UInt8} {val : β → α}
    (h : ∀ b ∈ bs, Reads r (enc b) (val b)) (hn : n = bs.length) :
    Reads (readMany r n) (bs.flatMap enc) (bs.map val) := by
  subst hn
  induction bs with
  | nil => exact Reads.pure []
  | cons b bs ih =>
    have hrest := ih fun c hc => h c (List.mem_cons_of_mem _ hc)
    exact (h b List.mem_cons_self).bind hrest.map

end Kirenenko
