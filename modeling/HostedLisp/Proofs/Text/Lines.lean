import HostedLisp.Text.Lines
import Mathlib.Data.List.TakeWhile

namespace HostedLisp.Text

/-- What stands before an offset on its own line. -/
def lineLead (source : List Char) (offset : Nat) : List Char :=
  ((source.take offset).reverse.takeWhile (· != '\n')).reverse

/-- The text before the line that an offset is on. -/
def beforeLine (source : List Char) (offset : Nat) : List Char :=
  ((source.take offset).reverse.dropWhile (· != '\n')).reverse

/-- The line that an offset is on: what stands between the newline nearest before the offset and the
nearest one at the offset or after it. -/
def lineAt (source : List Char) (offset : Nat) : List Char :=
  lineLead source offset ++ (source.drop offset).takeWhile (· != '\n')

/-- The text after the line that an offset is on, with the newline that ends this line. -/
def afterLine (source : List Char) (offset : Nat) : List Char :=
  (source.drop offset).dropWhile (· != '\n')

/-- Whether the visible lines are counted like the newlines up to the line that an offset is on: as
many of them end before it as there are newlines, no line end but a newline is in it, and it shows,
which a line without characters at the end of the text does not. -/
structure CountsAlike (source : List Char) (offset : Nat) : Prop where
  before : (splitLines (beforeLine source offset)).length =
    (beforeLine source offset).count '\n'
  within : ∀ c ∈ lineAt source offset, isLineEnd c = false
  shown : lineAt source offset = [] → afterLine source offset ≠ []

section Location

variable {source : List Char} {offset : Nat}

theorem beforeLine_append_lineLead (source : List Char) (offset : Nat) :
    beforeLine source offset ++ lineLead source offset = source.take offset := by
  rw [beforeLine, lineLead, ← List.reverse_append, List.takeWhile_append_dropWhile,
    List.reverse_reverse]

theorem beforeLine_append_lineAt_append (source : List Char) (offset : Nat) :
    beforeLine source offset ++ lineAt source offset ++ afterLine source offset = source := by
  rw [lineAt, ← List.append_assoc, beforeLine_append_lineLead, afterLine, List.append_assoc,
    List.takeWhile_append_dropWhile, List.take_append_drop]

theorem newline_notMem_lineLead : '\n' ∉ lineLead source offset := by
  intro h
  have hc := List.mem_takeWhile_imp (List.mem_reverse.mp h)
  exact absurd hc (by decide)

theorem getLast?_beforeLine : ∀ c ∈ (beforeLine source offset).getLast?, c = '\n' := by
  intro c hc
  rw [beforeLine, List.getLast?_reverse] at hc
  have hhead := List.head?_dropWhile_not (· != '\n') (source.take offset).reverse
  rw [hc] at hhead
  simpa using hhead

theorem head?_afterLine : ∀ c ∈ (afterLine source offset).head?, c = '\n' := by
  intro c hc
  have hhead := List.head?_dropWhile_not (· != '\n') (source.drop offset)
  rw [afterLine] at hc
  rw [hc] at hhead
  simpa using hhead

theorem foldl_step_of_notMem {s : List Char} (h : '\n' ∉ s) (loc : Location) :
    s.foldl Location.step loc = ⟨loc.line, loc.column + s.length⟩ := by
  induction s generalizing loc with
  | nil => rfl
  | cons c s ih =>
      have hc : c ≠ '\n' := fun heq => h (heq ▸ List.mem_cons_self)
      have hs : '\n' ∉ s := fun hmem => h (List.mem_cons_of_mem _ hmem)
      rw [List.foldl_cons, Location.step, if_neg hc, ih hs, List.length_cons, Nat.add_comm s.length,
        ← Nat.add_assoc]

theorem getLast?_of_cons {c d : Char} {s : List Char} (h : ∀ e ∈ (c :: s).getLast?, e = d) :
    ∀ e ∈ s.getLast?, e = d := by
  intro e he
  refine h e ?_
  rw [List.getLast?_cons, Option.mem_def.mp he]
  rfl

theorem foldl_step_of_getLast? {s : List Char} (h : ∀ c ∈ s.getLast?, c = '\n') {loc : Location}
    (hloc : s = [] → loc.column = 1) :
    s.foldl Location.step loc = ⟨loc.line + s.count '\n', 1⟩ := by
  induction s generalizing loc with
  | nil =>
      rw [List.foldl_nil, List.count_nil, Nat.add_zero, ← hloc rfl]
  | cons c s ih =>
      have hs := getLast?_of_cons h
      rw [List.foldl_cons, Location.step]
      split
      · rename_i hc
        rw [ih hs fun _ => rfl, hc, List.count_cons_self, Nat.add_comm (s.count '\n'),
          ← Nat.add_assoc]
      · rename_i hc
        have hne : s ≠ [] := by
          rintro rfl
          exact hc (h c rfl)
        rw [ih hs fun heq => absurd heq hne, List.count_cons_of_ne hc]

/-- The line of an offset counts the newlines before it, and its column the characters since the
last of them. -/
theorem locate_eq (source : List Char) (offset : Nat) :
    locate source offset =
      ⟨(beforeLine source offset).count '\n' + 1, (lineLead source offset).length + 1⟩ := by
  have htake : source.take (offset : Int).toNat =
      beforeLine source offset ++ lineLead source offset :=
    (beforeLine_append_lineLead source offset).symm
  rw [locate, htake, List.foldl_append, foldl_step_of_getLast? getLast?_beforeLine fun _ => rfl,
    foldl_step_of_notMem newline_notMem_lineLead]
  congr 1
  · exact Nat.add_comm _ _
  · exact Nat.add_comm _ _

end Location

section VisibleLines

theorem isLineEnd_newline : isLineEnd '\n' = true := by decide

theorem isLineEnd_return : isLineEnd '\r' = true := by decide

theorem splitLines_go_append {s : List Char} (rest : List Char) (h : ∀ c ∈ s.getLast?, c = '\n')
    {line : List Char} (hline : s = [] → line = []) :
    splitLines.go line (s ++ rest) = splitLines.go line s ++ splitLines rest := by
  fun_induction splitLines.go line s with
  | case1 line hempty =>
      rw [hline rfl]
      rfl
  | case2 line hempty => simp [hline rfl] at hempty
  | case3 line s ih =>
      have hs := getLast?_of_cons (getLast?_of_cons h)
      rw [List.cons_append, List.cons_append, splitLines.go, ih hs fun _ => rfl]
      rfl
  | case4 line c s hpair hend ih =>
      have hs : ∀ d ∈ s.getLast?, d = '\n' := getLast?_of_cons h
      have hpair' : ∀ s', c = '\r' → s ++ rest ≠ '\n' :: s' := by
        rintro s' rfl heq
        cases s with
        | nil => exact absurd (h '\r' rfl) (by decide)
        | cons d s =>
            cases heq
            exact hpair s rfl rfl
      rw [List.cons_append, splitLines.go.eq_3 _ _ _ hpair', if_pos hend, ih hs fun _ => rfl]
      rfl
  | case5 line c s hpair hend ih =>
      have hc : c ≠ '\n' := by
        rintro rfl
        exact hend isLineEnd_newline
      have hne : s ≠ [] := by
        rintro rfl
        exact hc (h c rfl)
      have hpair' : ∀ s', c = '\r' → s ++ rest ≠ '\n' :: s' := by
        rintro s' rfl
        exact absurd isLineEnd_return hend
      rw [List.cons_append, splitLines.go.eq_3 _ _ _ hpair', if_neg hend,
        ih (getLast?_of_cons h) fun heq => absurd heq hne]

theorem splitLines_append {s : List Char} (rest : List Char) (h : ∀ c ∈ s.getLast?, c = '\n') :
    splitLines (s ++ rest) = splitLines s ++ splitLines rest :=
  splitLines_go_append rest h fun _ => rfl

theorem splitLines_go_plain {s : List Char} (h : ∀ c ∈ s, isLineEnd c = false)
    (line rest : List Char) :
    splitLines.go line (s ++ rest) = splitLines.go (s.reverse ++ line) rest := by
  induction s generalizing line with
  | nil => rfl
  | cons c s ih =>
      obtain ⟨hc, hs⟩ := List.forall_mem_cons.mp h
      have hpair : ∀ s', c = '\r' → s ++ rest ≠ '\n' :: s' := by
        rintro s' rfl
        exact absurd isLineEnd_return (by simp [hc])
      rw [List.cons_append, splitLines.go.eq_3 _ _ _ hpair, if_neg (by simp [hc]), ih hs,
        List.reverse_cons, List.append_assoc]
      rfl

theorem splitLines_line {s rest : List Char} (h : ∀ c ∈ s, isLineEnd c = false)
    (hrest : ∀ c ∈ rest.head?, c = '\n') (hshown : s = [] → rest ≠ []) :
    (splitLines (s ++ rest))[0]? = some s := by
  have hgo : splitLines (s ++ rest) = splitLines.go s.reverse rest := by
    rw [splitLines, splitLines_go_plain h, List.append_nil]
  rw [hgo]
  cases rest with
  | nil =>
      have hne : ¬ s.reverse.isEmpty = true := by
        simpa using fun heq : s = [] => hshown heq rfl
      rw [splitLines.go, if_neg hne, List.reverse_reverse]
      rfl
  | cons c rest =>
      obtain rfl := hrest c rfl
      rw [splitLines.go.eq_3 _ _ _ (by rintro _ ⟨⟩), if_pos isLineEnd_newline, List.reverse_reverse]
      rfl

/-- The visible line of a number is the line of an offset, where both are counted alike. -/
theorem CountsAlike.getElem?_eq {source : List Char} {offset : Nat}
    (h : CountsAlike source offset) :
    (splitLines source)[(beforeLine source offset).count '\n']? = some (lineAt source offset) := by
  have hsplit : splitLines source =
      splitLines (beforeLine source offset) ++
        splitLines (lineAt source offset ++ afterLine source offset) := by
    rw [← splitLines_append _ getLast?_beforeLine, ← List.append_assoc,
      beforeLine_append_lineAt_append]
  rw [hsplit, ← h.before, List.getElem?_append_right (Nat.le_refl _), Nat.sub_self]
  exact splitLines_line h.within head?_afterLine h.shown

theorem newline_notMem_of_mem_go {s line : List Char} (hline : '\n' ∉ line) :
    ∀ visible ∈ splitLines.go line s, '\n' ∉ visible := by
  fun_induction splitLines.go line s with
  | case1 => nofun
  | case2 line hempty => simpa using hline
  | case3 line s ih => simpa [hline] using ih nofun
  | case4 line c s hpair hend ih => simpa [hline] using ih nofun
  | case5 line c s hpair hend ih =>
      refine ih ?_
      have hc : '\n' ≠ c := by
        rintro rfl
        exact hend isLineEnd_newline
      simp [hline, hc]

theorem newline_notMem_of_mem_splitLines {source visible : List Char}
    (h : visible ∈ splitLines source) : '\n' ∉ visible :=
  newline_notMem_of_mem_go List.not_mem_nil visible h

end VisibleLines

end HostedLisp.Text
