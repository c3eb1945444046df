namespace HostedLisp.Text

/-- What may follow a first byte: the number of further bytes and the range of the next one. -/
structure Utf8Tail where
  count : Nat
  low : Nat
  high : Nat
deriving Repr, DecidableEq

/-- The tail of a sequence of several bytes, by its first byte. -/
def utf8Tail? (b : Nat) : Option Utf8Tail :=
  if 0xC2 ≤ b ∧ b ≤ 0xDF then some ⟨1, 0x80, 0xBF⟩
  else if b = 0xE0 then some ⟨2, 0xA0, 0xBF⟩
  else if b = 0xED then some ⟨2, 0x80, 0x9F⟩
  else if 0xE1 ≤ b ∧ b ≤ 0xEF then some ⟨2, 0x80, 0xBF⟩
  else if b = 0xF0 then some ⟨3, 0x90, 0xBF⟩
  else if 0xF1 ≤ b ∧ b ≤ 0xF3 then some ⟨3, 0x80, 0xBF⟩
  else if b = 0xF4 then some ⟨3, 0x80, 0x8F⟩
  else none

/-- The bits of a first byte that belong to the character. -/
def leadBits (tail : Nat) (b : Nat) : Nat :=
  match tail with
  | 0 => b
  | 1 => b % 32
  | 2 => b % 16
  | _ => b % 8

/-- Reads the bytes after a first one, with the bits collected so far. -/
def readTail : Utf8Tail → Nat → List UInt8 → Option Char × List UInt8
  | ⟨0, _, _⟩, bits, rest => (some (Char.ofNat bits), rest)
  | ⟨_ + 1, _, _⟩, _, [] => (none, [])
  | ⟨n + 1, low, high⟩, bits, b :: rest =>
      if low ≤ b.toNat ∧ b.toNat ≤ high then
        readTail ⟨n, 0x80, 0xBF⟩ (64 * bits + b.toNat % 64) rest
      else (none, b :: rest)

theorem readTail_length_le (tail : Utf8Tail) (bits : Nat) (bytes : List UInt8) :
    (readTail tail bits bytes).2.length ≤ bytes.length := by
  fun_induction readTail tail bits bytes with
  | case1 => simp
  | case2 => simp
  | case3 n low high bits b rest h ih =>
      simp only [List.length_cons]
      omega
  | case4 => simp

/-- The characters of a byte string, with nothing in place of a part that is not well formed. -/
def utf8 : List UInt8 → List (Option Char)
  | [] => []
  | b :: rest =>
      if b.toNat < 0x80 then some (Char.ofNat b.toNat) :: utf8 rest
      else
        match utf8Tail? b.toNat with
        | none => none :: utf8 rest
        | some tail =>
            let r := readTail tail (leadBits tail.count b.toNat) rest
            r.1 :: utf8 r.2
termination_by bytes => bytes.length
decreasing_by
  · simp
  · simp
  · have := readTail_length_le tail (leadBits tail.count b.toNat) rest
    simp only [List.length_cons]
    omega

/-- The characters of a byte string that is well formed as a whole. -/
def wholeUtf8? (bytes : List UInt8) : Option (List Char) := (utf8 bytes).mapM id

end HostedLisp.Text
