import HostedLisp.Host.Sample
import HostedLisp.Proofs.Script.Taxonomy
import HostedLisp.Proofs.Text.Lines

/-!
Excerpts in the reports of texts that cannot be read. Main statement: the report marks the visible
line whose number is one more than the newlines before the fault, with a caret under its column, and
this is the line that the fault is on wherever the text has no other line ends up to its end.
-/

namespace HostedLisp

open Text

/-- Whether the rows of an excerpt mark one line: a row begins with a mark, the number of the line
and a bar, and goes on with the content of the line; the row below it has a caret under a column of
this content; and no other row has a mark. -/
def MarksLine (rows : List String) (number column : Nat) (content : List Char) : Prop :=
  ∃ (above below : List String) (lead gutter : List Char),
    rows = above ++ [String.ofList (lead ++ content),
      String.ofList (gutter ++ List.replicate (column - 1) ' ' ++ ['^'])] ++ below ∧
    (∃ padding, lead =
      '>' :: ' ' :: List.replicate padding ' ' ++ (toString number).toList ++ " | ".toList) ∧
    gutter.length = lead.length ∧ gutter.head? = some ' ' ∧ '^' ∉ gutter ∧
    (∀ row ∈ above ++ below, row.toList.head? = some ' ') ∧ ∀ row ∈ rows, '\n' ∉ row.toList

namespace Text

/-- The rows of an excerpt for a numbered line. -/
def rowsOf (width marked column : Nat) (line : List Char × Nat) : List String :=
  let row := excerptLine width marked line.2 line.1
  if line.2 = marked then [row, caretLine width column] else [row]

/-- The rows of an excerpt for the numbered lines from the number `first` on. -/
def excerptRows (width marked column first : Nat) (lines : List (List Char × Nat)) : List String :=
  (lines.filter (first ≤ ·.2)).flatMap (rowsOf width marked column)

section Excerpt

variable {source content : List Char} {k : Nat}

theorem toList_excerptLine (width marked number : Nat) (content : List Char) :
    (excerptLine width marked number content).toList =
      (if number = marked then '>' else ' ') :: ' ' ::
        List.replicate (width - (toString number).length) ' ' ++ (toString number).toList ++
          " | ".toList ++ content := by
  unfold excerptLine padLeft
  split <;> simp

theorem toList_caretLine (width column : Nat) :
    (caretLine width column).toList =
      (' ' :: ' ' :: List.replicate width ' ' ++ " | ".toList) ++ List.replicate (column - 1) ' ' ++
        ['^'] := by
  have hcolumn : ((column : Int) - 1).toNat = column - 1 := by omega
  unfold caretLine
  rw [hcolumn]
  simp

theorem newline_notMem_toDigits (n : Nat) : '\n' ∉ Nat.toDigits 10 n := by
  intro h
  exact absurd (Nat.isDigit_of_mem_toDigits (by decide) (by decide) h) (by decide)

theorem newline_notMem_excerptLine (width marked number : Nat) (h : '\n' ∉ content) :
    '\n' ∉ (excerptLine width marked number content).toList := by
  rw [toList_excerptLine]
  split <;> simp [newline_notMem_toDigits, h]

theorem newline_notMem_caretLine (width column : Nat) :
    '\n' ∉ (caretLine width column).toList := by
  rw [toList_caretLine]
  simp

theorem length_toString_le {m n : Nat} (h : m ≤ n) :
    (toString m).length ≤ (toString n).length := by
  rw [Nat.toString_eq_repr, Nat.toString_eq_repr]
  have hn := (Nat.length_repr_le_iff (n := n) Nat.length_repr_pos).mp (Nat.le_refl _)
  exact (Nat.length_repr_le_iff Nat.length_repr_pos).mpr (Nat.lt_of_le_of_lt h hn)

theorem head?_of_mem_excerptRows {width marked column first : Nat} {lines : List (List Char × Nat)}
    (h : ∀ line ∈ lines, line.2 ≠ marked) :
    ∀ row ∈ excerptRows width marked column first lines, row.toList.head? = some ' ' := by
  intro row hrow
  obtain ⟨line, hline, hrow⟩ := List.mem_flatMap.mp hrow
  have hne := h line (List.mem_filter.mp hline).1
  rw [rowsOf, if_neg hne, List.mem_singleton] at hrow
  rw [hrow, toList_excerptLine, if_neg hne]
  rfl

theorem newline_notMem_of_mem_excerptRows {width marked column first : Nat}
    {lines : List (List Char × Nat)} (h : ∀ line ∈ lines, '\n' ∉ line.1) :
    ∀ row ∈ excerptRows width marked column first lines, '\n' ∉ row.toList := by
  intro row hrow
  obtain ⟨line, hline, hrow⟩ := List.mem_flatMap.mp hrow
  have hnewline := h line (List.mem_filter.mp hline).1
  unfold rowsOf at hrow
  dsimp only at hrow
  split at hrow
  · simp only [List.mem_cons, List.not_mem_nil, or_false] at hrow
    rcases hrow with rfl | rfl
    · exact newline_notMem_excerptLine _ _ _ hnewline
    · exact newline_notMem_caretLine _ _
  · rw [List.mem_singleton.mp hrow]
    exact newline_notMem_excerptLine _ _ _ hnewline

theorem excerptRows_append_cons {width column first : Nat} (hfirst : first ≤ k)
    (above below : List (List Char × Nat)) (content : List Char) :
    excerptRows width k column first (above ++ (content, k) :: below) =
      excerptRows width k column first above ++
        [excerptLine width k k content, caretLine width column] ++
          excerptRows width k column first below := by
  rw [excerptRows, List.filter_append, List.filter_cons_of_pos (by simpa using hfirst),
    List.flatMap_append, List.flatMap_cons, rowsOf, if_pos rfl, List.append_assoc]
  rfl

theorem exists_eq_append_cons {α : Type} {xs : List α} {k : Nat} {x : α} (h : xs[k]? = some x) :
    ∃ above below, xs = above ++ x :: below ∧ above.length = k := by
  obtain ⟨hlt, rfl⟩ := List.getElem?_eq_some_iff.mp h
  refine ⟨xs.take k, xs.drop (k + 1), ?_, List.length_take_of_le (Nat.le_of_lt hlt)⟩
  rw [← List.drop_eq_getElem_cons, List.take_append_drop]

theorem marksLine_excerptRows {lines : List (List Char)} {width first : Nat} (column : Nat)
    (hk : lines[k]? = some content) (hfirst : first ≤ k + 1)
    (hwidth : (toString (k + 1)).length ≤ width) (hlines : ∀ line ∈ lines, '\n' ∉ line) :
    MarksLine (excerptRows width (k + 1) column first (lines.zipIdx 1)) (k + 1) column content := by
  have hnewlines : ∀ row ∈ excerptRows width (k + 1) column first (lines.zipIdx 1),
      '\n' ∉ row.toList :=
    newline_notMem_of_mem_excerptRows fun line hline =>
      hlines _ (List.fst_mem_of_mem_zipIdx hline)
  -- The lines are numbered from one, so that only the one at `k` has the number `k + 1`.
  obtain ⟨above, below, rfl, rfl⟩ := exists_eq_append_cons hk
  have habove : ∀ line ∈ above.zipIdx 1, line.2 ≠ above.length + 1 := by
    intro line hline
    have := (List.mem_zipIdx hline).2.1
    omega
  have hbelow : ∀ line ∈ below.zipIdx (above.length + 2), line.2 ≠ above.length + 1 := by
    intro line hline
    have := (List.mem_zipIdx hline).1
    omega
  have hrow := toList_excerptLine width (above.length + 1) (above.length + 1) content
  rw [if_pos rfl] at hrow
  refine ⟨excerptRows width (above.length + 1) column first (above.zipIdx 1),
    excerptRows width (above.length + 1) column first (below.zipIdx (above.length + 2)),
    '>' :: ' ' :: List.replicate (width - (toString (above.length + 1)).length) ' ' ++
      (toString (above.length + 1)).toList ++ " | ".toList,
    ' ' :: ' ' :: List.replicate width ' ' ++ " | ".toList,
    ?_, ⟨_, rfl⟩, ?_, rfl, ?_, ?_, hnewlines⟩
  · rw [List.zipIdx_append, List.zipIdx_cons, Nat.add_comm 1, excerptRows_append_cons hfirst,
      ← hrow, ← toList_caretLine, String.ofList_toList, String.ofList_toList]
  · simp only [List.length_append, List.length_cons, List.length_replicate, String.length_toList]
    omega
  · simp
  · intro row hrow
    rcases List.mem_append.mp hrow with hrow | hrow
    · exact head?_of_mem_excerptRows habove row hrow
    · exact head?_of_mem_excerptRows hbelow row hrow

theorem exists_excerpt_eq (column : Nat) (h : (splitLines source)[k]? = some content) :
    ∃ rows, excerpt source (k + 1 : Nat) (some (column : Int)) 2 = "\n".intercalate rows ∧
      MarksLine rows (k + 1) column content := by
  obtain ⟨hlt, -⟩ := List.getElem?_eq_some_iff.mp h
  have hline :
      ¬ (((k + 1 : Nat) : Int) < 1 ∨ ((splitLines source).length : Int) < (k + 1 : Nat)) := by
    omega
  generalize hlast : (min ((splitLines source).length : Int) ((k + 1 : Nat) + 2)).toNat = last
  have hle : k + 1 ≤ last := by omega
  have htake : ((splitLines source).take last)[k]? = some content := by
    rw [List.getElem?_take_of_lt (by omega), h]
  have hmarks := marksLine_excerptRows column htake
    (show (max 1 (((k + 1 : Nat) : Int) - 2)).toNat ≤ k + 1 by omega) (length_toString_le hle)
    fun line hline => newline_notMem_of_mem_splitLines (List.mem_of_mem_take hline)
  refine ⟨_, ?_, hmarks⟩
  unfold excerpt
  dsimp only
  rw [if_neg hline, hlast]
  rfl

theorem excerpt_eq_empty (column : Nat) (h : (splitLines source).length ≤ k) :
    excerpt source (k + 1 : Nat) (some (column : Int)) 2 = "" :=
  if_pos (.inr (by omega))

end Excerpt

end Text

namespace MarksLine

variable {rows : List String} {number column : Nat} {content : List Char}

theorem exists_eq_cons (h : MarksLine rows number column content) :
    ∃ row rest, rows = row :: rest ∧ row ≠ "" := by
  obtain ⟨above, below, lead, gutter, rfl, ⟨padding, rfl⟩, -, -, -, hhead, -⟩ := h
  cases above with
  | nil => exact ⟨_, _, rfl, fun heq => by simpa using congrArg String.toList heq⟩
  | cons row above =>
      refine ⟨row, _, rfl, ?_⟩
      rintro rfl
      exact absurd (hhead "" List.mem_cons_self) (by decide)

theorem isInfix (h : MarksLine rows number column content) (head : String) :
    " | ".toList ++ content ++ ['\n'] <:+: (below (head :: rows)).toList := by
  obtain ⟨above, beneath, lead, gutter, rfl, ⟨padding, rfl⟩, -⟩ := h
  -- Seen as one text, the marked row stands between two newlines, as the row below it is there.
  have hsplit : ∀ row caret : String, below (head :: (above ++ [row, caret] ++ beneath)) =
      below (head :: above) ++ "\n" ++ (row ++ "\n" ++ below (caret :: beneath)) := by
    intro row caret
    rw [List.append_assoc, ← List.cons_append, below,
      String.intercalate_append_of_ne_nil (List.cons_ne_nil _ _) (by simp)]
    exact congrArg _ String.intercalate_cons_cons
  rw [hsplit]
  generalize below (String.ofList (gutter ++ _ ++ _) :: beneath) = rest
  refine ⟨(below (head :: above)).toList ++ ['\n'] ++
    ('>' :: ' ' :: List.replicate padding ' ' ++ (toString number).toList), rest.toList, ?_⟩
  simp only [String.toList_append, String.toList_ofList, List.append_assoc]
  rfl

end MarksLine

/-- The excerpt for a line that is there is a part of the report. -/
theorem below_excerpt {source content : List Char} {k : Nat} (head : String) (column : Nat)
    (h : (splitLines source)[k]? = some content) :
    ∃ rows, MarksLine rows (k + 1) column content ∧
      (let text := excerpt source (k + 1 : Nat) (some (column : Int)) 2
       below (head :: if text.isEmpty then [] else [text]) = below (head :: rows)) := by
  obtain ⟨rows, htext, hmarks⟩ := exists_excerpt_eq column h
  obtain ⟨row, rest, rfl, hrow⟩ := hmarks.exists_eq_cons
  have hne : (excerpt source (k + 1 : Nat) (some (column : Int)) 2).isEmpty = false := by
    rw [htext, ← Bool.not_eq_true, String.isEmpty_iff]
    cases rest with
    | nil => rwa [String.intercalate_singleton]
    | cons next rest =>
        rw [String.intercalate_cons_cons, String.append_assoc]
        exact fun heq => hrow (String.append_eq_empty_iff.mp heq).1
  refine ⟨row :: rest, hmarks, ?_⟩
  dsimp only
  rw [hne, htext]
  simp [below]

/-- Why a text cannot be read, if it cannot. -/
def syntaxError? (source : String) : Option SyntaxError :=
  match parseMany source with
  | .ok _ => none
  | .error e => some e

theorem parseMany_of_syntaxError? {source : String} {e : SyntaxError}
    (h : syntaxError? source = some e) : parseMany source = .error e := by
  unfold syntaxError? at h
  split at h
  · cases h
  · rename_i heq
    cases h
    exact heq

namespace Runner

/-- The report of a text that cannot be read gives the line of the fault, which is one more than the
newlines before it, and its column. It shows the visible line of that number between the ones around
it, with a mark of its own and a caret under the column, and has no excerpt just if there are not so
many visible lines. The line shown is the one that the fault is on if the visible lines up to it are
counted like the newlines. -/
theorem handleScript_marks_line [HostClasses] (r : Runner) (source : String) (e : SyntaxError)
    (h : parseMany source = .error e) :
    let text := source.toList
    let newlines := (beforeLine text e.start.position).count '\n'
    let column := (lineLead text e.start.position).length + 1
    ∃ rows,
      (r.handleScript source).1 =
        .ok (.failure
          (below (("ParseError: " ++ e.message ++ " " ++
            ("(line " ++ toString (newlines + 1) ++ ", col " ++ toString column ++ ")")) :: rows))
          (some ⟨e.start, ⟨newlines + 1, column⟩⟩)) ∧
      ((splitLines text)[newlines]? = none → rows = []) ∧
      (∀ content, (splitLines text)[newlines]? = some content →
        MarksLine rows (newlines + 1) column content) ∧
      (CountsAlike text e.start.position →
        MarksLine rows (newlines + 1) column (lineAt text e.start.position)) := by
  intro text newlines column
  have hplace : LocatedToken.of source e.start = ⟨e.start, ⟨newlines + 1, column⟩⟩ := by
    rw [LocatedToken.of, locate_eq]
  have hresult : (r.handleScript source).1 = .ok (syntaxReport source e) := by
    unfold handleScript
    rw [h]
  have halike : CountsAlike text e.start.position →
      (splitLines text)[newlines]? = some (lineAt text e.start.position) :=
    fun hcounts => hcounts.getElem?_eq
  rw [hresult, syntaxReport, hplace]
  cases hvisible : (splitLines text)[newlines]? with
  | none =>
      have hempty := excerpt_eq_empty column (List.getElem?_eq_none_iff.mp hvisible)
      refine ⟨[], ?_, fun _ => rfl, fun c hsome => absurd hsome.symm (Option.some_ne_none c),
        fun hcounts => ?_⟩
      · dsimp only [LocatedToken.excerptParts]
        rw [hempty]
        rfl
      · rw [halike hcounts] at hvisible
        cases hvisible
  | some content =>
      obtain ⟨rows, hmarks, hrows⟩ := below_excerpt ("ParseError: " ++ e.message ++ " " ++
        ("(line " ++ toString (newlines + 1) ++ ", col " ++ toString column ++ ")")) column hvisible
      refine ⟨rows, ?_, fun hnone => absurd hnone (Option.some_ne_none content), ?_,
        fun hcounts => ?_⟩
      · rw [← hrows]
        rfl
      · rintro _ ⟨⟩
        exact hmarks
      · rw [halike hcounts] at hvisible
        cases hvisible
        exact hmarks

open scoped Sample

/-- The second line of a text is marked at a character that no token begins with. -/
theorem handleScript_marks_second_line :
    let r : Runner := .start ⟨Table.host, []⟩ .empty
    let source := "(eq 1 1)\n(eq 1 @)"
    ∃ rows token,
      (r.handleScript source).1 =
        .ok (.failure
          (below ("ParseError: Unexpected character '@' at position 15 (line 2, col 7)" :: rows))
          (some ⟨token, ⟨2, 7⟩⟩)) ∧
      MarksLine rows 2 7 "(eq 1 @)".toList := by
  intro r source
  let fault : Token := ⟨15, .fault, some "Unexpected character '@' at position 15"⟩
  have hread : parseMany source =
      .error (.atToken (.lexical "Unexpected character '@' at position 15") fault) :=
    parseMany_of_syntaxError? (by decide +kernel)
  have hwithin : (lineAt source.toList fault.position).all (!isLineEnd ·) = true := by
    decide +kernel
  have hcounts : CountsAlike source.toList fault.position :=
    ⟨by decide +kernel, by simpa using hwithin, by decide +kernel⟩
  obtain ⟨rows, hresult, -, -, hmarks⟩ := handleScript_marks_line r source _ hread
  have hline : (beforeLine source.toList fault.position).count '\n' = 1 := by decide +kernel
  have hlead : (lineLead source.toList fault.position).length = 6 := by decide +kernel
  have hcontent : lineAt source.toList fault.position = "(eq 1 @)".toList := by decide +kernel
  have hmarks := hmarks hcounts
  simp only [SyntaxError.atToken, hline, hlead, hcontent] at hresult hmarks
  exact ⟨rows, fault, hresult, hmarks⟩

/-- With a carriage return in a string before the fault, the report marks a line that the fault is
not on. -/
theorem handleScript_marks_other_line :
    ¬ ∀ (r : Runner) (source : String) (e : SyntaxError), parseMany source = .error e →
      ∃ head place rows,
        (r.handleScript source).1 = .ok (.failure (below (head :: rows)) (some place)) ∧
        MarksLine rows place.location.line place.location.column
          (lineAt source.toList e.start.position) := by
  intro h
  let r : Runner := .start ⟨Table.host, []⟩ .empty
  let source := "'a\rb'\n)"
  let fault : Token := ⟨6, .parenClose, some ")"⟩
  let report := "ParseError: Unexpected token 'ParenClose' (line 2, col 1)\n" ++
    "  1 | 'a\n> 2 | b'\n    | ^\n  3 | )"
  obtain ⟨head, place, rows, hresult, hmarks⟩ :=
    h r source (.atToken (.unexpectedToken .parenClose) fault)
      (parseMany_of_syntaxError? (by decide +kernel))
  have hreport : reported? (r.handleScript source).1 = some (report, some ⟨fault, ⟨2, 1⟩⟩) := by
    decide +kernel
  have hinfix := hmarks.isInfix head
  rw [hresult, reported?, Option.some.injEq, Prod.mk.injEq] at hreport
  rw [hreport.1] at hinfix
  exact absurd hinfix (by decide +kernel)

end Runner

end HostedLisp
