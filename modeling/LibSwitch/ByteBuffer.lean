import LibSwitch.ByteOrder

namespace LibSwitch.ByteBuffer

open LibSwitch.ByteOrder

structure Buffer (n : Nat) where
  bytes : List UInt8
  length_eq : bytes.length = n

variable {n : Nat}

theorem ext {b c : Buffer n} (h : b.bytes = c.bytes) : b = c := by
  cases b
  cases c
  simp_all

def zeros (n : Nat) : Buffer n := ⟨List.replicate n 0, List.length_replicate⟩

def read (b : Buffer n) (off len : Nat) : List UInt8 := (b.bytes.drop off).take len

def intAt (b : Buffer n) (off : Nat) : Int := readInt (read b off 4)

def put (b : Buffer n) (off : Nat) (bs : List UInt8) (h : off + bs.length ≤ n) : Buffer n :=
  ⟨b.bytes.take off ++ (bs ++ b.bytes.drop (off + bs.length)), by
    simp only [List.length_append, List.length_take, List.length_drop, b.length_eq]
    omega⟩

/-- Store bytes at an offset, undefined unless they all lie inside the array. -/
def write (b : Buffer n) (off : Nat) (bs : List UInt8) : Option (Buffer n) :=
  if h : off + bs.length ≤ n then some (put b off bs h) else none

/-- The array a pointer `k` bytes into the buffer reaches. -/
def after (k : Nat) (b : Buffer n) : Buffer (n - k) :=
  ⟨b.bytes.drop k, by rw [List.length_drop, b.length_eq]⟩

def replaceAfter (k : Nat) (b : Buffer n) (p : Buffer (n - k)) (h : k ≤ n) : Buffer n :=
  ⟨b.bytes.take k ++ p.bytes, by
    rw [List.length_append, List.length_take, b.length_eq, p.length_eq]
    omega⟩

theorem put_bytes (b : Buffer n) {off : Nat} {bs : List UInt8} (h : off + bs.length ≤ n) :
    (put b off bs h).bytes = b.bytes.take off ++ (bs ++ b.bytes.drop (off + bs.length)) := rfl

theorem replaceAfter_bytes {k : Nat} (b : Buffer n) (p : Buffer (n - k)) (h : k ≤ n) :
    (replaceAfter k b p h).bytes = b.bytes.take k ++ p.bytes := rfl

theorem length_read (b : Buffer n) {off len : Nat} (h : off + len ≤ n) :
    (read b off len).length = len := by
  rw [read, List.length_take, List.length_drop, b.length_eq]
  omega

theorem write_of_le (b : Buffer n) {off : Nat} {bs : List UInt8} (h : off + bs.length ≤ n) :
    write b off bs = some (put b off bs h) := dif_pos h

theorem write_of_lt (b : Buffer n) {off : Nat} {bs : List UInt8} (h : n < off + bs.length) :
    write b off bs = none := dif_neg (by omega)

theorem read_put_self (b : Buffer n) (off : Nat) (bs : List UInt8) (h : off + bs.length ≤ n) :
    read (put b off bs h) off bs.length = bs := by
  have ht : (b.bytes.take off).length = off := by rw [List.length_take, b.length_eq]; omega
  rw [read, put, List.drop_left' ht, List.take_left]

theorem intAt_put_self (b : Buffer n) (off : Nat) {v : Int} (h : off + (intBytes v).length ≤ n)
    (hl : -2147483648 ≤ v) (hu : v < 2147483648) : intAt (put b off (intBytes v) h) off = v := by
  have hr := read_put_self b off (intBytes v) h
  rw [length_intBytes] at hr
  rw [intAt, hr, readInt_intBytes hl hu]

theorem read_put_start (b : Buffer n) {bs : List UInt8} (h : 0 + bs.length ≤ n) {i len : Nat}
    (hi : i + len ≤ bs.length) : read (put b 0 bs h) i len = (bs.drop i).take len := by
  have hb : (put b 0 bs h).bytes = bs ++ b.bytes.drop bs.length := by simp [put]
  rw [read, hb, List.drop_append_of_le_length (by omega),
    List.take_append_of_le_length (by rw [List.length_drop]; omega)]

theorem read_put_before (b : Buffer n) {off len i : Nat} {bs : List UInt8}
    (h : off + bs.length ≤ n) (hi : i + len ≤ off) :
    read (put b off bs h) i len = read b i len := by
  have ht : (b.bytes.take off).length = off := by rw [List.length_take, b.length_eq]; omega
  rw [read, put, List.drop_append_of_le_length (by omega), List.take_append_of_le_length
    (by rw [List.length_drop]; omega), List.drop_take, List.take_take, read]
  congr 1
  omega

theorem read_replaceAfter (b : Buffer n) {k i len : Nat} (p : Buffer (n - k)) (h : k ≤ n)
    (hi : i + len ≤ k) : read (replaceAfter k b p h) i len = read b i len := by
  have ht : (b.bytes.take k).length = k := by rw [List.length_take, b.length_eq]; omega
  rw [read, replaceAfter, List.drop_append_of_le_length (by omega),
    List.take_append_of_le_length (by rw [List.length_drop]; omega), List.drop_take,
    List.take_take, read]
  congr 1
  omega

def AgreeTo (k : Nat) (b c : Buffer n) : Prop := b.bytes.take k = c.bytes.take k

theorem AgreeTo.mono {b c : Buffer n} {j k : Nat} (h : AgreeTo k b c) (hj : j ≤ k) :
    AgreeTo j b c := by
  have htake := congrArg (List.take j) h
  rw [List.take_take, List.take_take, Nat.min_eq_left hj] at htake
  exact htake

theorem AgreeTo.read {b c : Buffer n} {k off len : Nat} (h : AgreeTo k b c)
    (hl : off + len ≤ k) : read b off len = read c off len := by
  have htake : b.bytes.take (off + len) = c.bytes.take (off + len) := h.mono hl
  have hdrop := congrArg (List.drop off) htake
  rw [List.drop_take, List.drop_take, Nat.add_sub_cancel_left] at hdrop
  exact hdrop

theorem AgreeTo.intAt {b c : Buffer n} {k off : Nat} (h : AgreeTo k b c) (hl : off + 4 ≤ k) :
    intAt b off = intAt c off := by
  rw [ByteBuffer.intAt, h.read hl, ByteBuffer.intAt]

theorem AgreeTo.after {b c : Buffer n} {j k : Nat} (h : AgreeTo (j + k) b c) :
    AgreeTo k (after j b) (after j c) := h.read (Nat.le_refl (j + k))

theorem agreeTo_put_start (b c : Buffer n) {bs : List UInt8} (h : 0 + bs.length ≤ n) :
    AgreeTo bs.length (put b 0 bs h) (put c 0 bs h) := by
  have htake (d : Buffer n) : (put d 0 bs h).bytes.take bs.length = bs := List.take_left
  exact (htake b).trans (htake c).symm

end LibSwitch.ByteBuffer
