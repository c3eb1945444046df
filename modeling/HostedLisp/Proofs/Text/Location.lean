import HostedLisp.Proofs.Text.Lines

namespace HostedLisp.Text

/-- The offset at which a line begins, where the first line has number one: the length of the lines
before it, with the newlines that end them. -/
def lineStart (source : List Char) (line : Nat) : Nat :=
  ((linesWithEnds source).take (line - 1)).flatten.length

/-- Whether a location comes before another one: on an earlier line, or further left on the same
one. -/
def Location.Precedes (a b : Location) : Prop :=
  a.line < b.line ∨ a.line = b.line ∧ a.column < b.column

section Lines

variable {source : List Char} {offset : Nat}

theorem flatten_take_go_append {s : List Char} (rest : List Char) (h : ∀ c ∈ s.getLast?, c = '\n')
    {line : List Char} (hline : s = [] → line = []) :
    ((linesWithEnds.go line (s ++ rest)).take (s.count '\n')).flatten = line.reverse ++ s := by
  induction s generalizing line with
  | nil => simp [hline rfl]
  | cons c s ih =>
      have hs := getLast?_of_cons h
      rw [List.cons_append, linesWithEnds.go]
      by_cases hc : c = '\n'
      · rw [if_pos hc, hc, List.count_cons_self, List.take_succ_cons, List.flatten_cons,
          ih hs fun _ => rfl]
        simp
      · have hne : s ≠ [] := by
          rintro rfl
          exact hc (h c rfl)
        rw [if_neg hc, List.count_cons_of_ne hc, ih hs fun heq => absurd heq hne]
        simp

theorem lineStart_of_beforeLine (source : List Char) (offset : Nat) :
    lineStart source ((beforeLine source offset).count '\n' + 1) =
      (beforeLine source offset).length := by
  have hsource := beforeLine_append_lineAt_append source offset
  have hlast : ∀ c ∈ (beforeLine source offset).getLast?, c = '\n' := getLast?_beforeLine
  have hstart : beforeLine source offset = [] → ([] : List Char) = [] := fun _ => rfl
  have htake :=
    flatten_take_go_append (lineAt source offset ++ afterLine source offset) hlast hstart
  rw [← List.append_assoc, hsource, List.reverse_nil, List.nil_append] at htake
  rw [lineStart, Nat.add_sub_cancel]
  exact congrArg List.length htake

theorem line_locate (source : List Char) (offset : Nat) :
    (locate source offset).line = (source.take offset).count '\n' + 1 := by
  rw [locate_eq, ← beforeLine_append_lineLead source offset, List.count_append,
    List.count_eq_zero_of_not_mem newline_notMem_lineLead, Nat.add_zero]

theorem one_le_column (source : List Char) (offset : Nat) : 1 ≤ (locate source offset).column := by
  rw [locate_eq]
  exact Nat.le_add_left _ _

theorem lineStart_add_column (h : offset ≤ source.length) :
    lineStart source (locate source offset).line + ((locate source offset).column - 1) =
      offset := by
  have hlength := congrArg List.length (beforeLine_append_lineLead source offset)
  rw [List.length_append, List.length_take, Nat.min_eq_left h] at hlength
  rw [locate_eq, lineStart_of_beforeLine, Nat.add_sub_cancel]
  exact hlength

theorem count_take_le (c : Char) (source : List Char) {p q : Nat} (h : p ≤ q) :
    (source.take p).count c ≤ (source.take q).count c :=
  (List.take_prefix_take_left h).sublist.count_le c

theorem precedes_of_lt {p q : Nat} (hpq : p < q) (hq : q ≤ source.length) :
    (locate source p).Precedes (locate source q) := by
  have hlines : (locate source p).line ≤ (locate source q).line := by
    rw [line_locate, line_locate]
    exact Nat.succ_le_succ (count_take_le '\n' source (Nat.le_of_lt hpq))
  rcases Nat.lt_or_eq_of_le hlines with hlt | heq
  · exact .inl hlt
  · -- On one line the columns are as far apart as the offsets.
    have hp := lineStart_add_column (Nat.le_of_lt (Nat.lt_of_lt_of_le hpq hq))
    have hq := lineStart_add_column hq
    have hcolumn := one_le_column source p
    rw [heq] at hp
    exact .inr ⟨heq, by omega⟩

theorem locate_of_neg {offset : Int} (h : offset < 0) : locate source offset = locate source 0 := by
  rw [locate, locate, Int.toNat_of_nonpos (Int.le_of_lt h)]
  rfl

theorem locate_of_length_lt {offset : Int} (h : (source.length : Int) < offset) :
    locate source offset = locate source source.length := by
  rw [locate, locate, Int.toNat_natCast, List.take_length, List.take_of_length_le (by omega)]

end Lines

/-- The location of an offset of a text has a line one more than the newlines before the offset, and
the offset is where that line begins and as far behind as the column says, counted from one. No two
offsets of a text have the same location, a later one has a later one, and all offsets outside the
text have the location of its nearest end. -/
theorem locate_identifies (source : List Char) :
    (∀ p : Nat, p ≤ source.length →
      (locate source p).line = (source.take p).count '\n' + 1 ∧ 1 ≤ (locate source p).column ∧
        p = lineStart source (locate source p).line + ((locate source p).column - 1)) ∧
      (∀ p q : Nat, p ≤ source.length → q ≤ source.length →
        locate source p = locate source q → p = q) ∧
      (∀ p q : Nat, p < q → q ≤ source.length →
        (locate source p).Precedes (locate source q)) ∧
      (∀ p : Int, p < 0 → locate source p = locate source 0) ∧
      ∀ p : Int, source.length < p → locate source p = locate source source.length := by
  refine ⟨fun p hp => ?_, fun p q hp hq heq => ?_, fun p q => precedes_of_lt,
    fun p => locate_of_neg, fun p => locate_of_length_lt⟩
  · exact ⟨line_locate source p, one_le_column source p, (lineStart_add_column hp).symm⟩
  · rw [← lineStart_add_column hp, ← lineStart_add_column hq, heq]

/-- Offsets on a newline, right after it on an empty line, and at the end of a text. -/
theorem locate_identifies_around_newlines :
    let source := ['a', '\n', '\n', 'b']
    locate source 1 = ⟨1, 2⟩ ∧ locate source 2 = ⟨2, 1⟩ ∧ locate source 4 = ⟨3, 2⟩ ∧
      4 = lineStart source 3 + (2 - 1) ∧ (locate source 1).Precedes (locate source 2) ∧
      (locate source 1 = locate source 2 → 1 = 2) ∧ locate source (-1) = locate source 0 ∧
      locate source 7 = locate source 4 := by
  intro source
  obtain ⟨hformula, hinjective, hincreasing, hbefore, hbehind⟩ := locate_identifies source
  obtain ⟨-, -, hend⟩ := hformula 4 (by decide)
  exact ⟨rfl, rfl, rfl, hend, hincreasing 1 2 (by decide) (by decide),
    hinjective 1 2 (by decide) (by decide), hbefore (-1) (by decide), hbehind 7 (by decide)⟩

end HostedLisp.Text
