import Mathlib.Algebra.Group.Nat.Even
import Mathlib.Data.List.Basic
import Mathlib.Tactic.Common

namespace LibSwitch.ByteOrder

/-- Little-endian bytes of `n`, truncated to the given width. -/
def leBytes : Nat → Nat → List UInt8
  | 0, _ => []
  | k + 1, n => UInt8.ofNat n :: leBytes k (n / 256)

def leNat : List UInt8 → Nat
  | [] => 0
  | b :: bs => b.toNat + 256 * leNat bs

/-- Conversion to the signed integer type whose least value is `-half`. -/
def narrow (half v : Int) : Int := (half + v) % (2 * half) - half

def toShort (v : Int) : Int := narrow 32768 v

def toInt (v : Int) : Int := narrow 2147483648 v

def intBytes (v : Int) : List UInt8 := leBytes 4 (v % 4294967296).toNat

def readInt (bs : List UInt8) : Int := toInt (leNat bs)

/-- The two bytes of a `short` in memory, whatever its signedness. -/
def shortBytes (v : Int) : List UInt8 := leBytes 2 (v % 65536).toNat

@[simp] theorem length_leBytes (k n : Nat) : (leBytes k n).length = k := by
  induction k generalizing n with
  | zero => rfl
  | succ k ih => rw [leBytes, List.length_cons, ih]

@[simp] theorem length_intBytes (v : Int) : (intBytes v).length = 4 := length_leBytes 4 _

@[simp] theorem length_shortBytes (v : Int) : (shortBytes v).length = 2 := length_leBytes 2 _

theorem leNat_leBytes (k n : Nat) : leNat (leBytes k n) = n % 256 ^ k := by
  induction k generalizing n with
  | zero => simp [leBytes, leNat, Nat.mod_one]
  | succ k ih =>
    have hb : (UInt8.ofNat n).toNat = n % 256 := UInt8.toNat_ofNat'
    rw [leBytes, leNat, ih, hb, Nat.pow_succ', Nat.mod_mul]

theorem narrow_of_mem {half v : Int} (hl : -half ≤ v) (hu : v < half) : narrow half v = v := by
  rw [narrow, Int.emod_eq_of_lt (by omega) (by omega)]
  omega

theorem toShort_of_mem {v : Int} (hl : -32768 ≤ v) (hu : v < 32768) : toShort v = v :=
  narrow_of_mem hl hu

theorem toInt_of_mem {v : Int} (hl : -2147483648 ≤ v) (hu : v < 2147483648) : toInt v = v :=
  narrow_of_mem hl hu

theorem readInt_intBytes {v : Int} (hl : -2147483648 ≤ v) (hu : v < 2147483648) :
    readInt (intBytes v) = v := by
  rw [readInt, intBytes, leNat_leBytes, toInt, narrow]
  omega

theorem leNat_shortBytes (v : Int) : (leNat (shortBytes v) : Int) = v % 65536 := by
  rw [shortBytes, leNat_leBytes]
  omega

end LibSwitch.ByteOrder
