import HostedLisp.Proofs.Source.Segmentation

namespace HostedLisp

/-- Whether a character continues neither a name nor a number. -/
def isBoundary (c : Char) : Bool := !isNamePart c && !isNumeralPart c

theorem isBoundary_of_isGap {c : Char} (h : isGap c = true) : isBoundary c = true := by
  simp only [isGap, Bool.or_eq_true, beq_iff_eq] at h
  rcases h with (((rfl | rfl) | rfl) | rfl) | rfl <;> decide

/-- Whether characters may follow a lexeme that others follow: they begin in the same way, or with
what continues no lexeme, or there are none. -/
def MayFollow (after after' : List Char) : Prop :=
  ∀ c ∈ after'.head?, c ∈ after.head? ∨ isBoundary c = true

section MayFollow

variable {after after' : List Char}

theorem MayFollow.refl (after : List Char) : MayFollow after after := fun _ hc => .inl hc

theorem MayFollow.nil (after : List Char) : MayFollow after [] := nofun

theorem MayFollow.of_cons {c : Char} (h : isBoundary c = true) (after cs : List Char) :
    MayFollow after (c :: cs) := by
  intro d hd
  obtain rfl : c = d := by simpa using hd
  exact .inr h

theorem MayFollow.append_left (h : MayFollow after after') (cs : List Char) :
    MayFollow (cs ++ after) (cs ++ after') := by
  cases cs with
  | nil => exact h
  | cons c cs => exact fun d hd => .inl hd

theorem MayFollow.append_right {c : Char} (h : isBoundary c = true) (after cs : List Char) :
    MayFollow after (after ++ c :: cs) := by
  cases after with
  | nil => exact .of_cons h [] cs
  | cons d after => exact fun e he => .inl he

end MayFollow

theorem IsLexeme.of_mayFollow {after after' x : List Char} {t : Token} (h : IsLexeme after t x)
    (hafter : MayFollow after after') (position : Nat) :
    IsLexeme after' { t with position := position } x := by
  have hnext {P : Char → Prop} (hboundary : ∀ c, isBoundary c = true → P c)
      (hP : ∀ c ∈ after.head?, P c) : ∀ c ∈ after'.head?, P c := fun c hc =>
    (hafter c hc).elim (hP c) (hboundary c)
  cases h with
  | punctuation h => exact .punctuation h
  | word hc hcs hend =>
      refine .word hc hcs (hnext (fun c hc => ?_) hend)
      simp_all [isBoundary]
  | numeral hbody hend =>
      refine .numeral hbody (hnext (fun c hc => ⟨?_, ?_, ?_⟩) hend)
      · simp_all [isBoundary]
      · rintro rfl
        cases hc
      · rintro rfl
        cases hc
  | double hbody => exact .double hbody
  | float hbody => exact .float hbody
  | string h => exact .string h
  | rawString h => exact .rawString h

namespace Segment

variable {offset : Nat} {ss : List Segment} {ts us : List Token} {rest rest' : List Char}

theorem spell_of_mayFollow (h : Spell offset ss ts rest) (hrest : MayFollow rest rest') :
    Spell offset ss ts rest' := by
  induction ss generalizing offset ts with
  | nil =>
      cases ts with
      | nil => trivial
      | cons t ts => cases h
  | cons s ss ih =>
      cases ts with
      | nil => cases h
      | cons t ts =>
          obtain ⟨hgap, hposition, hlexeme, htail⟩ := h
          exact ⟨hgap, hposition, hlexeme.of_mayFollow (hrest.append_left _) t.position, ih htail⟩

end Segment

end HostedLisp
