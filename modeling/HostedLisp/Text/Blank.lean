namespace HostedLisp.Text

/-- Characters removed by trimming: the ASCII spaces and separators, and the Unicode spaces. -/
def isBlank (c : Char) : Bool :=
  let n := c.toNat
  (9 ≤ n && n ≤ 13) || (28 ≤ n && n ≤ 32) || n == 0x85 || n == 0xA0 || n == 0x1680 ||
    (0x2000 ≤ n && n ≤ 0x200A) || n == 0x2028 || n == 0x2029 || n == 0x202F ||
    n == 0x205F || n == 0x3000

/-- The text without its leading blanks. -/
def trimLeft (s : List Char) : List Char :=
  s.dropWhile isBlank

/-- The text without its leading and trailing blanks. -/
def trim (s : List Char) : List Char :=
  (trimLeft (trimLeft s).reverse).reverse

/-- Lower case of the ASCII letters; all other characters stay. -/
def asciiLower (s : List Char) : List Char :=
  s.map Char.toLower

/-- Whether `part` occurs somewhere in the text. -/
def contains (part : List Char) : List Char → Bool
  | [] => part.isEmpty
  | c :: rest => part.isPrefixOf (c :: rest) || contains part rest

theorem trimLeft_eq_self {s : List Char} (h : ∀ c ∈ s.head?, isBlank c = false) :
    trimLeft s = s := by
  cases s with
  | nil => rfl
  | cons c rest =>
      have hc : isBlank c = false := h c rfl
      simp [trimLeft, List.dropWhile, hc]

end HostedLisp.Text
