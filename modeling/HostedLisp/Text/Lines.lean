namespace HostedLisp.Text

/-- A one-based line and column. -/
structure Location where
  line : Nat
  column : Nat
deriving Repr, DecidableEq

/-- Moves a location past one character; only `'\n'` ends a line. -/
def Location.step (loc : Location) (c : Char) : Location :=
  if c = '\n' then ⟨loc.line + 1, 1⟩ else ⟨loc.line, loc.column + 1⟩

/-- The location of an offset; offsets outside the text count as its nearest end. -/
def locate (source : List Char) (offset : Int) : Location :=
  (source.take offset.toNat).foldl Location.step ⟨1, 1⟩

/-- The place of the last occurrence of a character. -/
def lastIndex? (c : Char) : List Char → Option Nat
  | [] => none
  | d :: rest =>
      match lastIndex? c rest with
      | some i => some (i + 1)
      | none => if d = c then some 0 else none

theorem lastIndex?_concat (c d : Char) (s : List Char) :
    lastIndex? c (s ++ [d]) = if d = c then some s.length else lastIndex? c s := by
  induction s with
  | nil => rfl
  | cons e s ih =>
      rw [List.cons_append, lastIndex?, ih, lastIndex?]
      by_cases hd : d = c
      · rw [if_pos hd, if_pos hd]
        rfl
      · rw [if_neg hd, if_neg hd]

theorem lt_length_of_lastIndex? {c : Char} {s : List Char} {i : Nat}
    (h : lastIndex? c s = some i) : i < s.length := by
  induction s generalizing i with
  | nil => cases h
  | cons d s ih =>
      rw [lastIndex?] at h
      rw [List.length_cons]
      split at h
      · rename_i j hj
        cases h
        exact Nat.succ_lt_succ (ih hj)
      · split at h
        · cases h
          exact Nat.succ_pos _
        · cases h

/-- The line of an offset counts the newlines in front of it, and the column what stands behind the
last of these. -/
theorem locate_eq_count_lastIndex? (source : List Char) (offset : Int) :
    let before := source.take offset.toNat
    locate source offset =
      ⟨before.count '\n' + 1,
        before.length - ((lastIndex? '\n' before).map (· + 1)).getD 0 + 1⟩ := by
  rw [locate]
  generalize source.take offset.toNat = before
  -- From the end of the text, since every character moves the location that is reached before it.
  rw [← before.reverse_reverse]
  induction before.reverse with
  | nil => rfl
  | cons c s ih =>
      dsimp only at ih ⊢
      rw [List.reverse_cons, List.foldl_append, ih, List.foldl_cons, List.foldl_nil, Location.step,
        lastIndex?_concat, List.count_append, List.length_append]
      by_cases hc : c = '\n'
      · simp [hc]
      · cases h : lastIndex? '\n' s.reverse with
        | none => simp [hc]
        | some i =>
            have hi := lt_length_of_lastIndex? h
            rw [if_neg hc, if_neg hc]
            simp only [List.length_reverse] at hi
            simp [hc]
            omega

/-- Characters that end a visible line on their own. -/
def isLineEnd (c : Char) : Bool :=
  let n := c.toNat
  n == 10 || n == 11 || n == 12 || n == 13 || (28 ≤ n && n ≤ 30) || n == 0x85 ||
    n == 0x2028 || n == 0x2029

/-- The visible lines of a text, without their ends; a final line end opens no further line. -/
def splitLines (source : List Char) : List (List Char) :=
  go [] source
where
  /-- Collects the current line in reverse until its end. -/
  go (line : List Char) : List Char → List (List Char)
    | [] => if line.isEmpty then [] else [line.reverse]
    | '\r' :: '\n' :: rest => line.reverse :: go [] rest
    | c :: rest => if isLineEnd c then line.reverse :: go [] rest else go (c :: line) rest

/-- Reads `"\r\n"` and lone `'\r'` as `'\n'`. -/
def normalizeNewlines : List Char → List Char
  | [] => []
  | '\r' :: '\n' :: rest => '\n' :: normalizeNewlines rest
  | c :: rest => (if c = '\r' then '\n' else c) :: normalizeNewlines rest

/-- Splits at every `'\n'`, keeping it at the end of its piece; a last piece may lack it. -/
def linesWithEnds (source : List Char) : List (List Char) :=
  go [] source
where
  /-- Collects the current piece in reverse. -/
  go (line : List Char) : List Char → List (List Char)
    | [] => if line.isEmpty then [] else [line.reverse]
    | c :: rest => if c = '\n' then (c :: line).reverse :: go [] rest else go (c :: line) rest

/-- The pieces of a text between its newlines. -/
def splitAtNewlines (source : List Char) : List (List Char) :=
  go [] source
where
  /-- Collects the current piece in reverse. -/
  go (line : List Char) : List Char → List (List Char)
    | [] => [line.reverse]
    | c :: rest => if c = '\n' then line.reverse :: go [] rest else go (c :: line) rest

def padLeft (width : Nat) (s : String) : String :=
  String.ofList (List.replicate (width - s.length) ' ') ++ s

/-- The numbered line `number` of an excerpt, marked if it is the one reported. -/
def excerptLine (width marked number : Nat) (content : List Char) : String :=
  (if number = marked then ">" else " ") ++ " " ++ padLeft width (toString number) ++ " | " ++
    String.ofList content

/-- The line below the reported one, with a caret under the column. -/
def caretLine (width : Nat) (column : Int) : String :=
  "  " ++ String.ofList (List.replicate width ' ') ++ " | " ++
    String.ofList (List.replicate (column - 1).toNat ' ') ++ "^"

/-- The lines within `radius` of the reported line, numbered, with a caret under the column;
empty when the source has no such line. -/
def excerpt (source : List Char) (line : Int) (column : Option Int) (radius : Int) : String :=
  let lines := splitLines source
  if line < 1 ∨ (lines.length : Int) < line then
    ""
  else
    let first := (max 1 (line - radius)).toNat
    let last := (min (lines.length : Int) (line + radius)).toNat
    let marked := line.toNat
    let width := (toString last).length
    let numbered := (lines.take last).zipIdx 1 |>.filter (first ≤ ·.2)
    let rows := numbered.flatMap fun (content, number) =>
      let row := excerptLine width marked number content
      match column with
      | some col => if number = marked then [row, caretLine width col] else [row]
      | none => [row]
    "\n".intercalate rows

end HostedLisp.Text
