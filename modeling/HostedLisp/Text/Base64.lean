namespace HostedLisp.Text

/-- The character of a number below sixty-four. -/
def base64Char (n : Nat) : Char :=
  if n < 26 then Char.ofNat (65 + n)
  else if n < 52 then Char.ofNat (71 + n)
  else if n < 62 then Char.ofNat (n - 4)
  else if n = 62 then '+'
  else '/'

/-- The number of a character, if it has one. -/
def base64Value? (c : Char) : Option Nat :=
  let n := c.toNat
  if 65 ≤ n ∧ n < 91 then some (n - 65)
  else if 97 ≤ n ∧ n < 123 then some (n - 71)
  else if 48 ≤ n ∧ n < 58 then some (n + 4)
  else if c = '+' then some 62
  else if c = '/' then some 63
  else none

/-- The characters of a byte string. -/
def base64 : List UInt8 → List Char
  | a :: b :: c :: rest =>
      let n := (a.toNat * 256 + b.toNat) * 256 + c.toNat
      base64Char (n / 262144) :: base64Char (n / 4096 % 64) :: base64Char (n / 64 % 64) ::
        base64Char (n % 64) :: base64 rest
  | [a, b] =>
      let n := (a.toNat * 256 + b.toNat) * 4
      [base64Char (n / 4096), base64Char (n / 64 % 64), base64Char (n % 64), '=']
  | [a] =>
      let n := a.toNat * 16
      [base64Char (n / 64), base64Char (n % 64), '=', '=']
  | [] => []

/-- The bytes of a list of numbers below sixty-four; an incomplete byte at the end is dropped. -/
def bytesOfSextets : List Nat → List UInt8
  | a :: b :: c :: d :: rest =>
      let n := ((a * 64 + b) * 64 + c) * 64 + d
      UInt8.ofNat (n / 65536) :: UInt8.ofNat (n / 256 % 256) :: UInt8.ofNat (n % 256) ::
        bytesOfSextets rest
  | [a, b, c] =>
      let n := (a * 64 + b) * 64 + c
      [UInt8.ofNat (n / 1024), UInt8.ofNat (n / 4 % 256)]
  | [a, b] => [UInt8.ofNat ((a * 64 + b) / 16)]
  | _ => []

/-- A list cut into pieces of a length; the last piece may be shorter. -/
def pieces {α : Type} (length : Nat) : List α → List (List α)
  | [] => []
  | x :: xs => (x :: xs.take (length - 1)) :: pieces length (xs.drop (length - 1))
termination_by s => s.length
decreasing_by
  simp only [List.length_drop, List.length_cons]
  omega

/-- The lines of a byte string in base 64, of fifty-seven bytes each. -/
def base64Lines (bytes : List UInt8) : List (List Char) :=
  (pieces 57 bytes).map base64

/-- The numbers of the characters of base 64 in a text, up to the padding that ends it, and
whether such padding was met. Other characters are skipped. -/
def sextets : Nat → Nat → List Char → List Nat × Bool
  | _, _, [] => ([], false)
  | count, pads, c :: rest =>
      if c = '=' then
        if 2 ≤ count % 4 ∧ 4 ≤ count % 4 + pads + 1 then ([], true)
        else sextets count (pads + 1) rest
      else
        match base64Value? c with
        | some n =>
            let (ns, ended) := sextets (count + 1) 0 rest
            (n :: ns, ended)
        | none => sextets count pads rest

/-- The bytes of a text in base 64, whose last group must be full or padded. -/
def decodeBase64? (s : List Char) : Option (List UInt8) :=
  let (ns, ended) := sextets 0 0 s
  if ended || ns.length % 4 = 0 then some (bytesOfSextets ns) else none

end HostedLisp.Text
