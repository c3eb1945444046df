import HostedLisp.Proofs.Source.RoundTrip
import HostedLisp.Text.Blank

namespace HostedLisp

open Number

namespace Text

/-- Whether a text is not empty and neither begins nor ends with a blank. -/
structure IsTight (s : List Char) : Prop where
  ne_nil : s ≠ []
  head : ∀ c ∈ s.head?, isBlank c = false
  last : ∀ c ∈ s.getLast?, isBlank c = false

namespace IsTight

variable {s t : List Char} {c d : Char}

theorem of_forall (hne : s ≠ []) (h : ∀ c ∈ s, isBlank c = false) : IsTight s :=
  ⟨hne, fun c hc => h c (List.mem_of_head? hc), fun c hc => h c (List.mem_of_getLast? hc)⟩

theorem of_any (hne : s ≠ []) (h : s.any isBlank = false) : IsTight s :=
  of_forall hne fun c hc => Bool.eq_false_iff.mpr (List.any_eq_false.mp h c hc)

theorem around (hs : IsTight s) (ht : IsTight t) (between : List Char) :
    IsTight (s ++ (between ++ t)) where
  ne_nil := by simp [hs.ne_nil]
  head c hc := by
    obtain ⟨x, xs, rfl⟩ := List.exists_cons_of_ne_nil hs.ne_nil
    exact hs.head c hc
  last c hc := by
    rw [← List.append_assoc, List.getLast?_append_of_ne_nil _ ht.ne_nil] at hc
    exact ht.last c hc

theorem append (hs : IsTight s) (ht : IsTight t) : IsTight (s ++ t) := hs.around ht []

theorem singleton (hc : isBlank c = false) : IsTight [c] :=
  of_forall (List.cons_ne_nil c []) (List.forall_mem_singleton.mpr hc)

theorem enclosed (hc : isBlank c = false) (hd : isBlank d = false) (s : List Char) :
    IsTight (c :: (s ++ [d])) :=
  (singleton hc).around (singleton hd) s

theorem trim_eq_self (hs : IsTight s) : trim s = s := by
  have hback : trimLeft s.reverse = s.reverse :=
    trimLeft_eq_self fun c hc => hs.last c (by rwa [List.head?_reverse] at hc)
  rw [trim, trimLeft_eq_self hs.head, hback, List.reverse_reverse]

end IsTight

end Text

open Text

section Characters

variable {c : Char}

theorem isBlank_of_between (h : 33 ≤ c.toNat) (h' : c.toNat ≤ 126) : isBlank c = false := by
  simp only [isBlank, Bool.or_eq_false_iff, Bool.and_eq_false_iff, decide_eq_false_iff_not,
    beq_eq_false_iff_ne]
  omega

theorem isBlank_of_isNamePart (h : isNamePart c = true) : isBlank c = false := by
  simp only [isNamePart, isNameStart, Bool.or_eq_true, Bool.and_eq_true, decide_eq_true_eq,
    beq_iff_eq, Char.le_def, UInt32.le_iff_toNat_le] at h
  have hrange : ∀ {a b : Char}, 33 ≤ a.val.toNat → b.val.toNat ≤ 126 →
      a.val.toNat ≤ c.val.toNat ∧ c.val.toNat ≤ b.val.toNat → isBlank c = false :=
    fun ha hb h => isBlank_of_between (Nat.le_trans ha h.1) (Nat.le_trans h.2 hb)
  rcases h with (((h | h) | rfl) | h) | rfl
  · exact hrange (by decide) (by decide) h
  · exact hrange (by decide) (by decide) h
  · decide
  · exact hrange (by decide) (by decide) h
  · decide

theorem isBlank_of_isNumeralPart (h : isNumeralPart c = true) : isBlank c = false := by
  rw [isNumeralPart, Bool.or_eq_true, beq_iff_eq] at h
  rcases h with h | rfl
  · exact isBlank_of_isNamePart (by rw [isNamePart, h, Bool.or_true, Bool.true_or])
  · decide

end Characters

theorem IsName.isTight {name : String} (h : IsName name) : IsTight name.toList := by
  obtain ⟨c, cs, hname, hc, hcs, -⟩ := h
  have hpart : isNamePart c = true := by rw [isNamePart, hc, Bool.true_or, Bool.true_or]
  rw [hname]
  refine .of_forall (List.cons_ne_nil c cs) (List.forall_mem_cons.mpr ?_)
  exact ⟨isBlank_of_isNamePart hpart, fun d hd => isBlank_of_isNamePart (hcs d hd)⟩

theorem IsNumeral.isTight {s : List Char} (h : IsNumeral s) : IsTight s := by
  obtain ⟨c, cs, rfl, hc, hcs⟩ := h
  refine .of_forall (List.cons_ne_nil c cs) (List.forall_mem_cons.mpr ⟨?_, fun d hd =>
    isBlank_of_isNumeralPart (hcs d hd)⟩)
  rw [isNumeralStart, Bool.or_eq_true, beq_iff_eq] at hc
  rcases hc with hc | rfl
  · exact isBlank_of_isNumeralPart (by rw [isNumeralPart, hc, Bool.true_or])
  · decide

theorem Literal.isTight_text {v : Literal} (hv : v.WellFormed) : IsTight v.text.toList := by
  have hbinary : ∀ {f : Format} {x : Binary} {suffix : Char}, f.Holds x → isBlank suffix = false →
      IsTight (binaryText suffix x).toList := by
    intro f x suffix hx hsuffix
    obtain ⟨htext, hnumeral⟩ := Binary.text_of_holds hx suffix
    rw [htext]
    exact hnumeral.isTight.append (.singleton hsuffix)
  cases v with
  | string s =>
      rw [text, stringText, String.toList_ofList]
      exact .enclosed (by decide) (by decide) _
  | integer n =>
      rw [text, intText, String.toList_ofList, integerText_eq]
      exact (isNumeral_of_isSpelling (isSpelling_digits _ _)).isTight
  | decimal d =>
      cases d with
      | finite negative c e =>
          obtain ⟨k, hspelling, -⟩ := isSpelling_decimalText negative c e
          exact (isNumeral_of_isSpelling hspelling).isTight
      | infinite => cases hv
      | nan => cases hv
  | double x => exact hbinary hv (by decide)
  | float x => exact hbinary hv (by decide)
  | boolean b => cases b <;> exact .of_any (by decide) (by decide)
  | null => exact .of_any (by decide) (by decide)

namespace Node

theorem isTight_text : (x : Node) → x.WellFormed → IsTight x.text.toList
  | .identifier _ _, hx => IsName.isTight hx
  | .literal _ _, hx => Literal.isTight_text hx
  | .quote inner _, hx => by
      rw [text, String.toList_append]
      exact (IsTight.singleton (by decide)).append (isTight_text inner hx)
  | .list items _, _ => by
      rw [text, String.toList_append, String.toList_append, List.append_assoc]
      exact .enclosed (by decide) (by decide) _
  | .invocation head parameters _, _ => by
      rw [text, String.toList_append, String.toList_append, String.toList_append,
        List.append_assoc, List.append_assoc, ← List.append_assoc head.text.toList]
      exact .enclosed (by decide) (by decide) _
  | .error .., hx | .instanceMember .., hx | .staticMember .., hx => hx.elim
termination_by structural x => x

theorem isTight_itemsText : (xs : List Node) → xs ≠ [] → AllWellFormed xs →
    IsTight (itemsText xs).toList
  | [], hne, _ => absurd rfl hne
  | [x], _, hxs => by
      rw [itemsText, restText, String.append_empty]
      exact x.isTight_text hxs.1
  | x :: y :: xs, _, hxs => by
      have hrest := isTight_itemsText (y :: xs) (List.cons_ne_nil y xs) hxs.2
      rw [itemsText, restText, String.append_assoc, ← itemsText, String.toList_append,
        String.toList_append]
      exact (x.isTight_text hxs.1).around hrest _

theorem trim_itemsText {xs : List Node} (hxs : AllWellFormed xs) :
    trim (itemsText xs).toList = (itemsText xs).toList := by
  by_cases hne : xs = []
  · rw [hne]
    rfl
  · exact (isTight_itemsText xs hne hxs).trim_eq_self

theorem restText_eq {xs : List Node} (hxs : AllWellFormed xs) :
    restText xs = if (itemsText xs).isEmpty then "" else " " ++ itemsText xs := by
  cases xs with
  | nil => rfl
  | cons x xs =>
      have hne := (isTight_itemsText (x :: xs) (List.cons_ne_nil x xs) hxs).ne_nil
      rw [if_neg fun h => hne (by rw [String.isEmpty_iff.mp h]; rfl), restText, itemsText,
        String.append_assoc]

end Node

end HostedLisp
