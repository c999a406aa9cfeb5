import Kirenenko.Lib.Cells
import Kirenenko.Lib.LittleEndian

namespace Kirenenko
set_option autoImplicit true

/-- The number in `n` bytes of memory, the lowest byte first. -/
def loadBytes (mem : Nat → UInt8) (a n : Nat) : Nat :=
  littleEndian 8 (fun i => (mem (a + i)).toNat) n

def storeBytes (mem : Nat → UInt8) (a n v : Nat) : Nat → UInt8 :=
  written a (fun i => UInt8.ofNat (v / 2 ^ (8 * i))) n mem

/-- The length of the string that starts with some bytes and a terminating NUL. -/
def strlen (bytes : List UInt8) : Nat := (bytes.takeWhile (· ≠ 0)).length

section
variable {mem mem' : Nat → UInt8} {a b n m v : Nat}

theorem loadBytes_congr (h : ∀ i < n, mem (a + i) = mem' (a + i)) :
    loadBytes mem a n = loadBytes mem' a n :=
  littleEndian_congr fun i hi => congrArg UInt8.toNat (h i hi)

theorem storeBytes_outside (h : a < b ∨ b + m ≤ a) : storeBytes mem b m v a = mem a := by
  apply written_outside
  intro i hi
  omega

theorem loadBytes_storeBytes : loadBytes (storeBytes mem a n v) a n = v % 2 ^ (8 * n) := by
  have hdigit : ∀ i < n, (storeBytes mem a n v (a + i)).toNat = v / 2 ^ (8 * i) % 2 ^ 8 := by
    intro i hi
    rw [storeBytes, written_inside _ mem hi, UInt8.toNat_ofNat']
  rw [loadBytes, littleEndian_congr hdigit, littleEndian_digits]

theorem loadBytes_storeBytes_apart (h : a + n ≤ b ∨ b + m ≤ a) :
    loadBytes (storeBytes mem b m v) a n = loadBytes mem a n := by
  apply loadBytes_congr
  intro i hi
  exact storeBytes_outside (by omega)

end

end Kirenenko
