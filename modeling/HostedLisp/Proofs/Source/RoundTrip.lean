import HostedLisp.Proofs.Number.Reading
import HostedLisp.Proofs.Source.Acceptance
import HostedLisp.Proofs.Source.Lexeme

/-!
Texts of nodes. Main statements: the text of a well-formed node reads as the same node, whose
text is the same again; what a text reads as is well-formed if its binary numbers are finite.
-/

namespace HostedLisp

open Number Derivation

/-- Whether a literal is one that a text can spell. -/
def Literal.WellFormed : Literal → Prop
  | integer n => leastInt64 ≤ n ∧ n ≤ greatestInt64
  | decimal d => d.isFinite = true
  | double x => Format.double.Holds x
  | float x => Format.single.Holds x
  | _ => True

/-- Whether two literals have one kind and one content. Decimals are compared by value, all else
exactly. -/
def Literal.Alike : Literal → Literal → Prop
  | decimal a, decimal b => Exact.same (Exact.ofDecimal? a) (Exact.ofDecimal? b) = true
  | a, b => a = b

/-- Whether the binary numbers of a literal are finite. -/
def Literal.FloatsFinite : Literal → Prop
  | double x => x.isFinite = true
  | float x => x.isFinite = true
  | _ => True

namespace Node

/-- Whether a node can be the head of an invocation. -/
def IsHead : Node → Prop
  | identifier name _ => IsName name
  | instanceMember member _ => IsName member
  | staticMember path member _ => path ≠ [] ∧ (∀ p ∈ path, IsName p) ∧ IsName member
  | _ => False

mutual

/-- Whether a node is an expression that a text can spell. -/
def WellFormed : Node → Prop
  | quote inner _ => WellFormed inner
  | invocation head parameters _ => IsHead head ∧ AllWellFormed parameters
  | list items _ => AllWellFormed items
  | identifier name _ => IsName name
  | literal value _ => value.WellFormed
  | _ => False

/-- Whether all nodes are expressions that a text can spell. -/
def AllWellFormed : List Node → Prop
  | [] => True
  | x :: xs => WellFormed x ∧ AllWellFormed xs

end

mutual

/-- Whether two expressions are built alike from literals that are alike. -/
def Alike : Node → Node → Prop
  | quote a _, quote b _ => Alike a b
  | invocation h ps _, invocation k qs _ => h.same k = true ∧ AllAlike ps qs
  | list xs _, list ys _ => AllAlike xs ys
  | identifier a _, identifier b _ => a = b
  | literal a _, literal b _ => a.Alike b
  | _, _ => False

/-- Whether two lists of expressions are alike, item by item. -/
def AllAlike : List Node → List Node → Prop
  | [], [] => True
  | x :: xs, y :: ys => Alike x y ∧ AllAlike xs ys
  | _, _ => False

end

mutual

/-- Whether all binary numbers in a node are finite. -/
def FloatsFinite : Node → Prop
  | quote inner _ => FloatsFinite inner
  | invocation head parameters _ => FloatsFinite head ∧ AllFloatsFinite parameters
  | list items _ => AllFloatsFinite items
  | literal value _ => value.FloatsFinite
  | _ => True

/-- Whether all binary numbers in nodes are finite. -/
def AllFloatsFinite : List Node → Prop
  | [] => True
  | x :: xs => FloatsFinite x ∧ AllFloatsFinite xs

end

instance : (v : Literal) → Decidable v.FloatsFinite
  | .double x => inferInstanceAs (Decidable (x.isFinite = true))
  | .float x => inferInstanceAs (Decidable (x.isFinite = true))
  | .string _ | .integer _ | .decimal _ | .boolean _ | .null => inferInstanceAs (Decidable True)

mutual

instance decidableFloatsFinite : (x : Node) → Decidable x.FloatsFinite
  | quote inner _ => decidableFloatsFinite inner
  | invocation head parameters _ =>
      @instDecidableAnd _ _ (decidableFloatsFinite head) (decidableAllFloatsFinite parameters)
  | list items _ => decidableAllFloatsFinite items
  | literal value _ => inferInstanceAs (Decidable value.FloatsFinite)
  | error .. | identifier .. | instanceMember .. | staticMember .. =>
      inferInstanceAs (Decidable True)

instance decidableAllFloatsFinite : (xs : List Node) → Decidable (AllFloatsFinite xs)
  | [] => inferInstanceAs (Decidable True)
  | x :: xs => @instDecidableAnd _ _ (decidableFloatsFinite x) (decidableAllFloatsFinite xs)

end

theorem intercalate_text : (xs : List Node) → " ".intercalate (xs.map text) = itemsText xs
  | [] => rfl
  | [x] => by
      rw [List.map_singleton, String.intercalate_singleton]
      exact String.append_empty.symm
  | x :: y :: xs => by
      rw [List.map_cons, List.map_cons, String.intercalate_cons_cons, ← List.map_cons,
        intercalate_text (y :: xs)]
      simp only [itemsText, restText, String.append_assoc]

end Node

namespace Lexer

/-- The lexer `lx` reads the tokens `ts`, none of them the last, and then is `lx'`. -/
inductive Reads : Lexer → List Token → Lexer → Prop
  | nil (lx : Lexer) : Reads lx [] lx
  | cons {lx lx' : Lexer} {ts : List Token} (h : lx.next.1.isFinal = false)
      (hts : Reads lx.next.2 ts lx') : Reads lx (lx.next.1 :: ts) lx'

namespace Reads

variable {lx lx' lx'' : Lexer} {t : Token} {ts us : List Token}

theorem single (h : lx.next = (t, lx')) (ht : t.isFinal = false) : lx.Reads [t] lx' := by
  have hread : lx.Reads [lx.next.1] lx.next.2 := .cons (by rw [h]; exact ht) (.nil _)
  rwa [h] at hread

theorem trans (hts : lx.Reads ts lx') (hus : lx'.Reads us lx'') : lx.Reads (ts ++ us) lx'' := by
  induction hts with
  | nil => exact hus
  | cons h hts ih => exact .cons h (ih hus)

theorem tokens_eq (h : lx.Reads ts lx') : lx.tokens = ts ++ lx'.tokens := by
  induction h with
  | nil => rfl
  | cons h hts ih => rw [tokens_of_not_final h, ih, List.cons_append]

theorem of_gap {s : List Char} (h : lx.rest = ' ' :: s)
    (hts : Reads ⟨s, lx.position + 1, lx.lastStart⟩ ts lx') (hne : ts ≠ []) : lx.Reads ts lx' := by
  cases hts with
  | nil => exact absurd rfl hne
  | cons hfinal hts =>
      rw [← next_of_gap h] at hfinal hts ⊢
      exact .cons hfinal hts

end Reads

end Lexer

/-- Whether the characters after an expression cannot continue its last token. -/
def IsBoundary (r : List Char) : Prop :=
  ∀ c ∈ r.head?, c = ' ' ∨ c = ')' ∨ c = ']'

theorem isBoundary_nil : IsBoundary [] := by simp [IsBoundary]

theorem isBoundary_cons {c : Char} (h : c = ' ' ∨ c = ')' ∨ c = ']') (r : List Char) :
    IsBoundary (c :: r) := by
  simpa [IsBoundary] using h

theorem IsBoundary.not_isNamePart {r : List Char} (h : IsBoundary r) :
    ∀ c ∈ r.head?, isNamePart c = false := by
  intro c hc
  rcases h c hc with rfl | rfl | rfl <;> decide

theorem IsBoundary.not_isNumeralPart {r : List Char} (h : IsBoundary r) :
    ∀ c ∈ r.head?, isNumeralPart c = false ∧ c ≠ 'd' ∧ c ≠ 'f' := by
  intro c hc
  rcases h c hc with rfl | rfl | rfl <;> decide

theorem Number.Numeral.isNumeral {n : Numeral} {text : List Char} (h : n.SpelledBy text)
    (hstart : n.negative = true ∨ n.whole ≠ []) : IsNumeral text := by
  obtain ⟨negative, whole, fraction, hdigits, _⟩ := n
  have hpart : ∀ x, isDigit x = true → isNumeralPart x = true := by
    intro x hx
    change (isDigit x || x == '.') = true
    rw [hx, Bool.true_or]
  obtain ⟨body, rfl, hbody, hhead⟩ : ∃ body, text = signText negative ++ body ∧
      (∀ x ∈ body, isNumeralPart x = true) ∧
        (whole ≠ [] → ∃ c cs, body = c :: cs ∧ isDigit c = true) := by
    rcases h with rfl | ⟨rfl, rfl⟩
    · refine ⟨_, rfl, fun x hx => ?_, fun hne => ?_⟩
      · rcases List.mem_append.mp hx with hx | hx
        · exact hpart x (hdigits x (List.mem_append_left _ hx))
        · rcases List.mem_cons.mp hx with rfl | hx
          · rfl
          · exact hpart x (hdigits x (List.mem_append_right _ hx))
      · obtain ⟨c, cs, rfl⟩ := List.exists_cons_of_ne_nil hne
        exact ⟨c, _, rfl, hdigits c (by simp)⟩
    · refine ⟨_, rfl, fun x hx => hpart x (hdigits x (List.mem_append_left _ hx)), fun hne => ?_⟩
      obtain ⟨c, cs, rfl⟩ := List.exists_cons_of_ne_nil hne
      exact ⟨c, _, rfl, hdigits c (by simp)⟩
  cases negative with
  | true => exact ⟨'-', body, rfl, rfl, hbody⟩
  | false =>
      obtain ⟨c, cs, rfl, hc⟩ := hhead (hstart.resolve_left (by simp))
      refine ⟨c, cs, rfl, ?_, fun x hx => hbody x (List.mem_cons_of_mem _ hx)⟩
      change (isDigit c || c == '-') = true
      rw [hc, Bool.true_or]

theorem isNumeral_of_isSpelling {text : List Char} {negative : Bool} {c : Nat} {e : Int}
    (h : IsSpelling text negative c e) : IsNumeral text := by
  obtain ⟨whole, fraction, hwhole, hdigits, -, -, htext⟩ := h
  exact Numeral.isNumeral (n := ⟨negative, whole, fraction, hdigits, by simp [hwhole]⟩) htext
    (.inr hwhole)

theorem Exact.same_self {x : Option Exact} (h : x ≠ none) : Exact.same x x = true := by
  cases x with
  | none => exact absurd rfl h
  | some x => exact beq_self_eq_true x

theorem Binary.same_self {f : Format} {x : Binary} (hx : f.Holds x) :
    Exact.same (Exact.ofBinary? x) (Exact.ofBinary? x) = true := by
  apply Exact.same_self
  cases x with
  | finite => simp [Exact.ofBinary?]
  | infinite => cases hx
  | nan => cases hx

theorem Binary.text_of_holds {f : Format} {x : Binary} (hx : f.Holds x) (suffix : Char) :
    (binaryText suffix x).toList = x.positionalText ++ [suffix] ∧ IsNumeral x.positionalText := by
  cases x with
  | finite negative m e =>
      obtain ⟨k, hk⟩ := Number.Binary.isSpelling_positionalText negative m e
      exact ⟨by simp [binaryText, Number.Binary.isFinite], isNumeral_of_isSpelling hk⟩
  | infinite => cases hx
  | nan => cases hx

section Reading

variable {lx : Lexer} {r : List Char}

theorem reads_word {c : Char} {cs : List Char} (h : lx.rest = c :: cs ++ r)
    (hc : isNameStart c = true) (hcs : ∀ x ∈ cs, isNamePart x = true)
    (hr : ∀ x ∈ r.head?, isNamePart x = false) :
    ∃ t lx', lx.Reads [t] lx' ∧ lx'.rest = r ∧ t.kind = wordKind (c :: cs) ∧
      t.text = some (String.ofList (c :: cs)) := by
  refine ⟨_, _, .single (Lexer.next_word h hc hcs hr) ?_, rfl, rfl, rfl⟩
  rcases wordKind_cases (c :: cs) with hkind | hkind | hkind <;> simp [Token.isFinal, hkind]

theorem reads_name {name : String} (hname : IsName name) (hr : ∀ x ∈ r.head?, isNamePart x = false)
    (h : lx.rest = name.toList ++ r) :
    ∃ t lx', lx.Reads [t] lx' ∧ lx'.rest = r ∧ t.kind = .identifier ∧ t.textOrEmpty = name := by
  obtain ⟨c, cs, hcs, hc, hpart, hkind⟩ := hname
  rw [hcs] at h
  obtain ⟨t, lx', hread, hrest, hkind', htext⟩ := reads_word h hc hpart hr
  rw [← hcs, String.ofList_toList] at htext
  exact ⟨t, lx', hread, hrest, hkind'.trans hkind, by rw [Token.textOrEmpty, htext]; rfl⟩

theorem reads_punctuation {c : Char} {kind : TokenKind} (hc : punctuation? c = some kind)
    (h : lx.rest = c :: r) :
    ∃ t lx', lx.Reads [t] lx' ∧ lx'.rest = r ∧ t.kind = kind := by
  refine ⟨_, _, .single (Lexer.next_punctuation h hc) ?_, rfl, rfl⟩
  rcases punctuation?_cases hc with rfl | rfl | rfl | rfl | rfl | rfl | rfl <;> rfl

theorem reads_literal {v : Literal} (hv : v.WellFormed) (hr : IsBoundary r)
    (h : lx.rest = v.text.toList ++ r) :
    ∃ t lx' v', lx.Reads [t] lx' ∧ lx'.rest = r ∧ t.kind ≠ .identifier ∧ t.literal? = some v' ∧
      v.Alike v' ∧ v'.text = v.text := by
  cases v with
  | string s =>
      obtain ⟨n, hnext⟩ := Lexer.next_string h
      exact ⟨_, _, .string s, .single hnext rfl, rfl, by simp, rfl, rfl, rfl⟩
  | integer n =>
      have hspelling := isSpelling_digits (decide (n < 0)) n.natAbs
      have hpoint := point_notMem_digits (decide (n < 0)) n.natAbs
      rw [← integerText_eq] at hspelling hpoint
      change lx.rest = (String.ofList (integerText n)).toList ++ r at h
      rw [String.toList_ofList] at h
      have hnext := Lexer.next_unsuffixed h (isNumeral_of_isSpelling hspelling) hr.not_isNumeralPart
      rw [if_neg hpoint] at hnext
      refine ⟨_, _, .integer n, .single hnext rfl, rfl, by simp, ?_, rfl, rfl⟩
      simp [Token.literal?, Token.textOrEmpty, readInt64_integerText hv.1 hv.2, Except.toOption]
  | decimal d =>
      cases d with
      | finite negative c e =>
          obtain ⟨k, hspelling, hpoint, htext⟩ := isSpelling_decimalText negative c e
          have hnext := Lexer.next_unsuffixed h (isNumeral_of_isSpelling hspelling)
            hr.not_isNumeralPart
          change '.' ∈ (Literal.decimal (.finite negative c e)).text.toList at hpoint
          rw [if_pos hpoint] at hnext
          refine ⟨_, _, .decimal (.finite negative (c * pow10 k) (e - k)), .single hnext rfl, rfl,
            by simp, ?_, ?_, htext⟩
          · have hread := Decimal.read?_of_isSpelling hspelling
            simp [Token.literal?, Token.textOrEmpty, Literal.text, hread]
          · rw [Literal.Alike, ofDecimal?_mul_pow10]
            exact Exact.same_self (by simp [Exact.ofDecimal?])
      | infinite => cases hv
      | nan => cases hv
  | double x =>
      obtain ⟨htext, hnumeral⟩ := Binary.text_of_holds hv 'd'
      change lx.rest = (binaryText 'd' x).toList ++ r at h
      rw [htext, List.append_assoc, List.singleton_append] at h
      have hnext := Lexer.next_suffixed (.inl ⟨rfl, rfl⟩) h hnumeral
      refine ⟨_, _, .double x, .single hnext rfl, rfl, by simp, ?_, rfl, rfl⟩
      simp [Token.literal?, Token.textOrEmpty, readDouble?_positionalText hv]
  | float x =>
      obtain ⟨htext, hnumeral⟩ := Binary.text_of_holds hv 'f'
      change lx.rest = (binaryText 'f' x).toList ++ r at h
      rw [htext, List.append_assoc, List.singleton_append] at h
      have hnext := Lexer.next_suffixed (.inr ⟨rfl, rfl⟩) h hnumeral
      refine ⟨_, _, .float x, .single hnext rfl, rfl, by simp, ?_, rfl, rfl⟩
      simp [Token.literal?, Token.textOrEmpty, readSingle?_positionalText hv]
  | boolean b =>
      cases b with
      | true =>
          obtain ⟨t, lx', hread, hrest, hkind, htext⟩ :=
            reads_word h (show isNameStart 't' = true from rfl) (List.all_eq_true.mp rfl)
              hr.not_isNamePart
          exact ⟨t, lx', .boolean true, hread, hrest, by rw [hkind]; decide,
            by rw [Token.literal?, hkind, Token.textOrEmpty, htext]; rfl, rfl, rfl⟩
      | false =>
          obtain ⟨t, lx', hread, hrest, hkind, htext⟩ :=
            reads_word h (show isNameStart 'f' = true from rfl) (List.all_eq_true.mp rfl)
              hr.not_isNamePart
          exact ⟨t, lx', .boolean false, hread, hrest, by rw [hkind]; decide,
            by rw [Token.literal?, hkind, Token.textOrEmpty, htext]; rfl, rfl, rfl⟩
  | null =>
      obtain ⟨t, lx', hread, hrest, hkind, htext⟩ :=
        reads_word h (show isNameStart 'n' = true from rfl) (List.all_eq_true.mp rfl)
          hr.not_isNamePart
      exact ⟨t, lx', .null, hread, hrest, by rw [hkind]; decide,
        by rw [Token.literal?, hkind]; rfl, rfl, rfl⟩

theorem reads_segments {names : List String} (hnames : ∀ p ∈ names, IsName p)
    (hr : ∀ x ∈ r.head?, isNamePart x = false)
    (h : lx.rest = names.flatMap (fun p => '.' :: p.toList) ++ r) :
    ∃ more lx', lx.Reads (HeadDerivation.segments more) lx' ∧ lx'.rest = r ∧
      HeadDerivation.AreSegments more ∧ more.map (fun s => s.2.textOrEmpty) = names := by
  induction names generalizing lx with
  | nil => exact ⟨[], lx, .nil lx, h, HeadDerivation.areSegments_nil, rfl⟩
  | cons name names ih =>
      rw [List.flatMap_cons, List.cons_append, List.cons_append, List.append_assoc] at h
      obtain ⟨dot, lx₁, hread₁, hrest₁, hdot⟩ := reads_punctuation (show _ = some .dot from rfl) h
      have hnext : ∀ x ∈ (names.flatMap (fun p => '.' :: p.toList) ++ r).head?,
          isNamePart x = false := by
        cases names with
        | nil => exact hr
        | cons p ps =>
            intro x hx
            obtain rfl : '.' = x := by simpa using hx
            decide
      obtain ⟨t, lx₂, hread₂, hrest₂, ht, htext⟩ := reads_name (hnames name (by simp)) hnext hrest₁
      obtain ⟨more, lx', hread, hrest, hmore, hmap⟩ :=
        ih (fun p hp => hnames p (by simp [hp])) hrest₂
      refine ⟨(dot, t) :: more, lx', hread₁.trans (hread₂.trans hread), hrest, ?_, ?_⟩
      · intro s hs
        rcases List.mem_cons.mp hs with rfl | hs
        · exact ⟨hdot, ht⟩
        · exact hmore s hs
      · rw [List.map_cons, hmap, htext]

theorem toList_dotted (first : String) (more : List String) :
    (Node.dotted (first :: more)).toList =
      first.toList ++ more.flatMap fun p => '.' :: p.toList := by
  induction more generalizing first with
  | nil => simp [Node.dotted]
  | cons p more ih =>
      have hp := ih p
      unfold Node.dotted at hp ⊢
      rw [String.intercalate_cons_cons, String.toList_append, String.toList_append, hp]
      simp

theorem reads_head {x : Node} (hx : x.IsHead) (hr : IsBoundary r)
    (h : lx.rest = x.text.toList ++ r) :
    ∃ (d : HeadDerivation) (lx' : Lexer), lx.Reads d.yield lx' ∧ lx'.rest = r ∧ d.Valid ∧
      x.same d.tree = true ∧ d.tree.text = x.text := by
  cases x with
  | identifier name span =>
      obtain ⟨t, lx', hread, hrest, ht, rfl⟩ := reads_name hx hr.not_isNamePart h
      exact ⟨.identifier t, lx', hread, hrest, ht, beq_self_eq_true _, rfl⟩
  | instanceMember member span =>
      rw [Node.text, String.toList_append, List.append_assoc] at h
      obtain ⟨dot, lx₁, hread₁, hrest₁, hdot⟩ := reads_punctuation (show _ = some .dot from rfl) h
      obtain ⟨t, lx', hread, hrest, ht, rfl⟩ := reads_name hx hr.not_isNamePart hrest₁
      exact ⟨.instanceMember dot t, lx', hread₁.trans hread, hrest, ⟨hdot, ht⟩, beq_self_eq_true _,
        rfl⟩
  | staticMember path member span =>
      obtain ⟨hne, hpath, hmember⟩ := hx
      obtain ⟨first, more, rfl⟩ := List.exists_cons_of_ne_nil hne
      rw [Node.text, String.toList_append, String.toList_append, toList_dotted] at h
      simp only [List.append_assoc] at h
      have hslash : ∀ x ∈ ("/".toList ++ (member.toList ++ r)).head?, isNamePart x = false := by
        intro x hx
        obtain rfl : '/' = x := by simpa using hx
        decide
      have hdot : ∀ x ∈ (more.flatMap (fun p => '.' :: p.toList) ++
          ("/".toList ++ (member.toList ++ r))).head?, isNamePart x = false := by
        cases more with
        | nil => exact hslash
        | cons p ps =>
            intro x hx
            obtain rfl : '.' = x := by simpa using hx
            decide
      obtain ⟨t, lx₁, hread₁, hrest₁, ht, rfl⟩ := reads_name (hpath first (by simp)) hdot h
      obtain ⟨segments, lx₂, hread₂, hrest₂, hsegments, rfl⟩ :=
        reads_segments (fun p hp => hpath p (by simp [hp])) hslash hrest₁
      obtain ⟨slash, lx₃, hread₃, hrest₃, hkind⟩ :=
        reads_punctuation (show _ = some .slash from rfl) hrest₂
      obtain ⟨u, lx', hread, hrest, hu, rfl⟩ := reads_name hmember hr.not_isNamePart hrest₃
      refine ⟨.staticMember t segments slash u, lx', ?_, hrest, ⟨ht, hsegments, hkind, hu⟩, ?_, rfl⟩
      · exact hread₁.trans (hread₂.trans (hread₃.trans hread))
      · simp [HeadDerivation.tree, Node.same]
  | error => cases hx
  | quote => cases hx
  | invocation => cases hx
  | list => cases hx
  | literal => cases hx

theorem isBoundary_restText (xs : List Node) (hr : IsBoundary r) :
    IsBoundary ((Node.restText xs).toList ++ r) := by
  cases xs with
  | nil => exact hr
  | cons x xs =>
      rw [Node.restText, String.append_assoc, String.toList_append]
      exact isBoundary_cons (.inl rfl) _

end Reading

mutual

/-- The text of a well-formed node reads as the same node, up to where the node ends. -/
theorem reads_node : (x : Node) → x.WellFormed → ∀ {lx : Lexer} {r : List Char}, IsBoundary r →
    lx.rest = x.text.toList ++ r →
    ∃ (d : Derivation) (lx' : Lexer), lx.Reads d.yield lx' ∧ lx'.rest = r ∧ d.Valid ∧
      x.Alike d.tree ∧ d.tree.text = x.text
  | .identifier name span => by
      intro hx lx r hr h
      obtain ⟨t, lx', hread, hrest, ht, rfl⟩ := reads_name hx hr.not_isNamePart h
      have hatom : t.atom? = some (.identifier t.textOrEmpty (.ofToken t)) := by
        rw [Token.atom?, if_pos ht]
      refine ⟨.atom t, lx', hread, hrest, ⟨_, hatom⟩, ?_, ?_⟩
      · simp [tree, hatom, Node.Alike]
      · simp [tree, hatom, Node.text]
  | .literal v span => by
      intro hx lx r hr h
      obtain ⟨t, lx', v', hread, hrest, ht, hv', halike, htext⟩ := reads_literal hx hr h
      have hatom : t.atom? = some (.literal v' (.ofToken t)) := by
        rw [Token.atom?, if_neg ht, hv', Option.map_some]
      refine ⟨.atom t, lx', hread, hrest, ⟨_, hatom⟩, ?_, ?_⟩
      · simpa [tree, hatom, Node.Alike] using halike
      · simpa [tree, hatom, Node.text] using htext
  | .quote inner span => by
      intro hx lx r hr h
      rw [Node.text, String.toList_append, List.append_assoc] at h
      obtain ⟨mark, lx₁, hread₁, hrest₁, hmark⟩ :=
        reads_punctuation (show _ = some .quote from rfl) h
      obtain ⟨d, lx', hread, hrest, hd, halike, htext⟩ := reads_node inner hx hr hrest₁
      refine ⟨.quote mark d, lx', hread₁.trans hread, hrest, ⟨hmark, hd⟩, halike, ?_⟩
      rw [tree, Node.text, Node.text, htext]
  | .list items span => by
      intro hx lx r hr h
      rw [Node.text, String.toList_append, String.toList_append, List.append_assoc,
        List.append_assoc] at h
      obtain ⟨opening, lx₁, hread₁, hrest₁, hopening⟩ :=
        reads_punctuation (show _ = some .bracketOpen from rfl) h
      obtain ⟨ds, lx₂, hread₂, hrest₂, hds, halike, htext⟩ :=
        reads_items items hx (isBoundary_cons (.inr (.inr rfl)) r) hrest₁
      obtain ⟨closing, lx', hread, hrest, hclosing⟩ :=
        reads_punctuation (show _ = some .bracketClose from rfl) hrest₂
      refine ⟨.list opening ds closing, lx', ?_, hrest, ⟨hopening, hds, hclosing⟩, halike, ?_⟩
      · exact hread₁.trans (hread₂.trans hread)
      · rw [tree, Node.text, Node.text, htext]
  | .invocation head parameters span => by
      intro hx lx r hr h
      rw [Node.text, String.toList_append, String.toList_append, String.toList_append,
        List.append_assoc, List.append_assoc, List.append_assoc] at h
      obtain ⟨opening, lx₁, hread₁, hrest₁, hopening⟩ :=
        reads_punctuation (show _ = some .parenOpen from rfl) h
      have hclose : IsBoundary (")".toList ++ r) := isBoundary_cons (.inr (.inl rfl)) r
      obtain ⟨d, lx₂, hread₂, hrest₂, hd, hhead, htext⟩ :=
        reads_head hx.1 (isBoundary_restText parameters hclose) hrest₁
      obtain ⟨ds, lx₃, hread₃, hrest₃, hds, halike, htext'⟩ :=
        reads_rest parameters hx.2 hclose hrest₂
      obtain ⟨closing, lx', hread, hrest, hclosing⟩ :=
        reads_punctuation (show _ = some .parenClose from rfl) hrest₃
      refine ⟨.invocation opening d ds closing, lx', ?_, hrest, ⟨hopening, hd, hds, hclosing⟩,
        ?_, ?_⟩
      · exact hread₁.trans (hread₂.trans (hread₃.trans hread))
      · exact ⟨hhead, halike⟩
      · rw [tree, Node.text, Node.text, htext, htext']
  | .error .. => by
      intro hx
      exact hx.elim
  | .instanceMember .. => by
      intro hx
      exact hx.elim
  | .staticMember .. => by
      intro hx
      exact hx.elim

theorem reads_rest : (xs : List Node) → Node.AllWellFormed xs → ∀ {lx : Lexer} {r : List Char},
    IsBoundary r → lx.rest = (Node.restText xs).toList ++ r →
    ∃ (ds : List Derivation) (lx' : Lexer), lx.Reads (yieldAll ds) lx' ∧ lx'.rest = r ∧
      ValidAll ds ∧ Node.AllAlike xs (treeAll ds) ∧
      Node.restText (treeAll ds) = Node.restText xs
  | [] => by
      intro _ lx r _ h
      exact ⟨[], lx, .nil lx, h, trivial, trivial, rfl⟩
  | x :: xs => by
      intro hxs lx r hr h
      rw [Node.restText, String.append_assoc, String.toList_append, String.toList_append,
        List.append_assoc, List.append_assoc] at h
      obtain ⟨d, lx₁, hread₁, hrest₁, hd, halike, htext⟩ :=
        reads_node x hxs.1 (isBoundary_restText xs hr)
          (show Lexer.rest ⟨_, lx.position + 1, lx.lastStart⟩ = _ from rfl)
      obtain ⟨t, ts, hyield, -⟩ := exists_yield_eq_cons hd
      have hread := hread₁.of_gap h (by simp [hyield])
      obtain ⟨ds, lx', hread', hrest, hds, halike', htext'⟩ := reads_rest xs hxs.2 hr hrest₁
      refine ⟨d :: ds, lx', hread.trans hread', hrest, ⟨hd, hds⟩, ?_, ?_⟩
      · exact ⟨halike, halike'⟩
      · rw [treeAll, Node.restText, Node.restText, htext, htext']

theorem reads_items : (xs : List Node) → Node.AllWellFormed xs → ∀ {lx : Lexer} {r : List Char},
    IsBoundary r → lx.rest = (Node.itemsText xs).toList ++ r →
    ∃ (ds : List Derivation) (lx' : Lexer), lx.Reads (yieldAll ds) lx' ∧ lx'.rest = r ∧
      ValidAll ds ∧ Node.AllAlike xs (treeAll ds) ∧
      Node.itemsText (treeAll ds) = Node.itemsText xs
  | [] => by
      intro _ lx r _ h
      exact ⟨[], lx, .nil lx, h, trivial, trivial, rfl⟩
  | x :: xs => by
      intro hxs lx r hr h
      rw [Node.itemsText, String.toList_append, List.append_assoc] at h
      obtain ⟨d, lx₁, hread, hrest₁, hd, halike, htext⟩ :=
        reads_node x hxs.1 (isBoundary_restText xs hr) h
      obtain ⟨ds, lx', hread', hrest, hds, halike', htext'⟩ := reads_rest xs hxs.2 hr hrest₁
      refine ⟨d :: ds, lx', hread.trans hread', hrest, ⟨hd, hds⟩, ?_, ?_⟩
      · exact ⟨halike, halike'⟩
      · rw [treeAll, Node.itemsText, Node.itemsText, htext, htext']

end

theorem Literal.same_of_alike {v v' : Literal} (hv : v.WellFormed) (h : v.Alike v') :
    v.same v' = true := by
  cases v with
  | decimal d =>
      cases v' with
      | decimal d' => exact h
      | _ => cases h
  | double x =>
      cases h
      exact Binary.same_self hv
  | float x =>
      cases h
      exact Binary.same_self hv
  | _ =>
      cases h
      simp [same]

mutual

theorem Node.same_of_alike : (x : Node) → x.WellFormed → ∀ {y : Node}, x.Alike y →
    x.same y = true
  | .quote inner span, hx, y, h => by
      cases y with
      | quote => exact same_of_alike inner hx h
      | _ => cases h
  | .invocation head parameters span, hx, y, h => by
      cases y with
      | invocation =>
          rw [same, h.1, sameAll_of_allAlike parameters hx.2 h.2, Bool.and_self]
      | _ => cases h
  | .list items span, hx, y, h => by
      cases y with
      | list => exact sameAll_of_allAlike items hx h
      | _ => cases h
  | .identifier name span, _, y, h => by
      cases y with
      | identifier => exact beq_iff_eq.mpr h
      | _ => cases h
  | .literal v span, hx, y, h => by
      cases y with
      | literal => exact Literal.same_of_alike hx h
      | _ => cases h
  | .error .., hx, _, _ => hx.elim
  | .instanceMember .., hx, _, _ => hx.elim
  | .staticMember .., hx, _, _ => hx.elim

theorem Node.sameAll_of_allAlike : (xs : List Node) → AllWellFormed xs → ∀ {ys : List Node},
    AllAlike xs ys → sameAll xs ys = true
  | [], _, ys, h => by
      cases ys with
      | nil => rfl
      | cons => cases h
  | x :: xs, hxs, ys, h => by
      cases ys with
      | nil => cases h
      | cons =>
          rw [sameAll, same_of_alike x hxs.1 h.1, sameAll_of_allAlike xs hxs.2 h.2, Bool.and_self]

end

theorem parse_text_alike {x : Node} (hx : x.WellFormed) :
    ∃ y, parse x.text = .ok y ∧ x.Alike y ∧ y.text = x.text := by
  obtain ⟨d, lx', hread, hrest, hd, halike, htext⟩ :=
    reads_node x hx isBoundary_nil
      (show (Lexer.ofText x.text).rest = _ from (List.append_nil _).symm)
  have hnext : lx'.next.1.kind = .endOfInput := by
    simp [Lexer.next, Lexer.skipGap, Lexer.lexeme, hrest]
  have htokens : tokenize x.text = d.yield ++ [lx'.next.1] := by
    rw [tokenize, hread.tokens_eq, Lexer.tokens_of_final (by simp [Token.isFinal, hnext])]
  exact ⟨d.tree, parse_eq_ok_iff.mpr ⟨d, hd, spells_iff.mpr ⟨_, hnext, htokens⟩, rfl⟩, halike,
    htext⟩

theorem parse_text {x : Node} (hx : x.WellFormed) :
    ∃ y, parse x.text = .ok y ∧ x.same y = true ∧ y.text = x.text := by
  obtain ⟨y, hparse, halike, htext⟩ := parse_text_alike hx
  exact ⟨y, hparse, x.same_of_alike hx halike, htext⟩

theorem parseMany_itemsText {xs : List Node} (hxs : Node.AllWellFormed xs) :
    ∃ ys, parseMany (Node.itemsText xs) = .ok ys ∧ Node.sameAll xs ys = true := by
  obtain ⟨ds, lx', hread, hrest, hds, halike, -⟩ :=
    reads_items xs hxs isBoundary_nil
      (show (Lexer.ofText (Node.itemsText xs)).rest = _ from (List.append_nil _).symm)
  have hnext : lx'.next.1.kind = .endOfInput := by
    simp [Lexer.next, Lexer.skipGap, Lexer.lexeme, hrest]
  have htokens : tokenize (Node.itemsText xs) = yieldAll ds ++ [lx'.next.1] := by
    rw [tokenize, hread.tokens_eq, Lexer.tokens_of_final (by simp [Token.isFinal, hnext])]
  have hparse := parseMany_eq_ok_iff.mpr ⟨ds, hds, spells_iff.mpr ⟨_, hnext, htokens⟩, rfl⟩
  exact ⟨_, hparse, Node.sameAll_of_allAlike xs hxs halike⟩

theorem IsNumeral.exists_eq {s : List Char} (hs : IsNumeral s) :
    ∃ negative body, s = signText negative ++ body ∧ ∀ x ∈ body, isNumeralPart x = true := by
  obtain ⟨c, cs, rfl, hc, hcs⟩ := hs
  by_cases hminus : c = '-'
  · exact ⟨true, cs, by rw [hminus]; rfl, hcs⟩
  · refine ⟨false, c :: cs, rfl, fun x hx => ?_⟩
    rcases List.mem_cons.mp hx with rfl | hx
    · simp_all [isNumeralStart, isNumeralPart]
    · exact hcs x hx

theorem IsNumeral.exists_numeral {s : List Char} (hs : IsNumeral s) {d : Decimal}
    (h : Decimal.read? s = some d) : ∃ n : Numeral, n.SpelledBy s ∧ d = n.decimal 0 := by
  obtain ⟨negative, body, rfl, hbody⟩ := hs.exists_eq
  have hpart : ∀ x ∈ body, Number.isDigit x = true ∨ x = '.' := by
    intro x hx
    have hx' : (Number.isDigit x || x == '.') = true := hbody x hx
    simpa using hx'
  -- Neither a digit nor a point begins an exponent.
  have hexponent : ∀ rest e, (∀ x ∈ rest, x ∈ body) → Decimal.readExponent rest = some e →
      rest = [] := by
    intro rest e hrest he
    cases rest with
    | nil => rfl
    | cons x rest =>
        rw [Decimal.readExponent, if_neg] at he
        · cases he
        · rintro hx
          rcases hpart x (hrest x (by simp)) with hdigit | rfl
          · rcases (by simpa using hx : x = 'e' ∨ x = 'E') with rfl | rfl <;> cases hdigit
          · cases hx
  suffices hspelled : ∃ n : Numeral, n.SpelledBy (signText negative ++ body) by
    obtain ⟨n, hn⟩ := hspelled
    exact ⟨n, hn, Option.some.inj (h.symm.trans (Numeral.read?_eq hn))⟩
  cases body with
  | nil => cases negative <;> cases h
  | cons c cs =>
      rw [Decimal.read?_signText (hpart c (by simp))] at h
      cases hread : Decimal.readMantissa (c :: cs) with
      | none =>
          rw [hread] at h
          cases h
      | some read =>
          obtain ⟨m, rest⟩ := read
          rw [hread] at h
          obtain ⟨e, he, -⟩ := Option.map_eq_some_iff.mp h
          obtain ⟨hdigits, hne, heq | ⟨hnil, heq⟩⟩ := Decimal.eq_of_readMantissa hread
          · obtain rfl := hexponent rest e (fun x hx => by simp [heq, hx]) he
            refine ⟨⟨negative, m.whole, m.fraction, hdigits, hne⟩, .inl ?_⟩
            rw [heq, List.append_nil]
          · obtain rfl := hexponent rest e (fun x hx => by simp [heq, hx]) he
            refine ⟨⟨negative, m.whole, m.fraction, hdigits, hne⟩, .inr ⟨hnil, ?_⟩⟩
            rw [heq, List.append_nil]

theorem IsNumeral.isFinite {s : List Char} (hs : IsNumeral s) {d : Decimal}
    (h : Decimal.read? s = some d) : d.isFinite = true := by
  obtain ⟨n, -, rfl⟩ := hs.exists_numeral h
  rfl

theorem Token.WellSpelled.wellFormed_literal {t : Token} (ht : t.WellSpelled) {v : Literal}
    (h : t.literal? = some v) (hfinite : v.FloatsFinite) : v.WellFormed := by
  have hreads := denotes_of_literal? h
  cases v with
  | integer n => exact range_of_readInt64 hreads.2
  | decimal d =>
      rw [Token.WellSpelled, hreads.1] at ht
      exact IsNumeral.isFinite ht hreads.2
  | double x => exact holds_of_readDouble? hreads.2 hfinite
  | float x => exact holds_of_readSingle? hreads.2 hfinite
  | string s | boolean b | null => trivial

theorem Token.WellSpelled.isName {t : Token} (ht : t.WellSpelled) (hkind : t.kind = .identifier) :
    IsName t.textOrEmpty := by
  rwa [Token.WellSpelled, hkind] at ht

theorem HeadDerivation.isHead_tree {h : HeadDerivation} (hvalid : h.Valid)
    (hspelled : ∀ t ∈ h.yield, t.WellSpelled) : h.tree.IsHead := by
  cases h with
  | instanceMember dot name => exact (hspelled name (by simp [yield])).isName hvalid.2
  | identifier name => exact (hspelled name (by simp [yield])).isName hvalid
  | staticMember first more slash member =>
      obtain ⟨hfirst, hmore, -, hmember⟩ := hvalid
      refine ⟨by simp, ?_, (hspelled member (by simp [yield])).isName hmember⟩
      intro p hp
      rcases List.mem_cons.mp hp with rfl | hp
      · exact (hspelled first (by simp [yield])).isName hfirst
      · obtain ⟨s, hs, rfl⟩ := List.mem_map.mp hp
        have hmem : s.2 ∈ segments more := List.mem_flatMap.mpr ⟨s, hs, by simp⟩
        exact (hspelled s.2 (by simp [yield, hmem])).isName (hmore s hs).2

mutual

/-- The tree of a derivation over tokens that a lexer has read is well-formed if its binary
numbers are finite. -/
theorem wellFormed_tree : (d : Derivation) → d.Valid → (∀ t ∈ d.yield, t.WellSpelled) →
    d.tree.FloatsFinite → d.tree.WellFormed
  | .atom t, ⟨x, hx⟩, hspelled, hfinite => by
      have ht := hspelled t (by simp [yield])
      rw [tree, hx, Option.getD_some] at hfinite ⊢
      unfold Token.atom? at hx
      split at hx
      · rename_i hkind
        obtain rfl := Option.some.inj hx
        exact ht.isName hkind
      · obtain ⟨v, hv, rfl⟩ := Option.map_eq_some_iff.mp hx
        exact ht.wellFormed_literal hv hfinite
  | .quote mark inner, hd, hspelled, hfinite =>
      wellFormed_tree inner hd.2 (fun t ht => hspelled t (List.mem_cons_of_mem _ ht)) hfinite
  | .list opening items closing, hd, hspelled, hfinite =>
      allWellFormed_treeAll items hd.2.1 (fun t ht => hspelled t (by simp [yield, ht])) hfinite
  | .invocation opening head parameters closing, hd, hspelled, hfinite =>
      ⟨HeadDerivation.isHead_tree hd.2.1 fun t ht => hspelled t (by simp [yield, ht]),
        allWellFormed_treeAll parameters hd.2.2.1 (fun t ht => hspelled t (by simp [yield, ht]))
          hfinite.2⟩

theorem allWellFormed_treeAll : (ds : List Derivation) → ValidAll ds →
    (∀ t ∈ yieldAll ds, t.WellSpelled) → Node.AllFloatsFinite (treeAll ds) →
    Node.AllWellFormed (treeAll ds)
  | [], _, _, _ => trivial
  | d :: ds, hds, hspelled, hfinite =>
      ⟨wellFormed_tree d hds.1 (fun t ht => hspelled t (by simp [yieldAll, ht])) hfinite.1,
        allWellFormed_treeAll ds hds.2 (fun t ht => hspelled t (by simp [yieldAll, ht])) hfinite.2⟩

end

theorem wellFormed_of_parse {source : String} {x : Node} (h : parse source = .ok x)
    (hfinite : x.FloatsFinite) : x.WellFormed := by
  obtain ⟨d, hd, hspells, rfl⟩ := parse_eq_ok_iff.mp h
  obtain ⟨eof, -, htokens⟩ := spells_iff.mp hspells
  apply wellFormed_tree d hd _ hfinite
  intro t ht
  exact (Lexer.ofText source).wellSpelled_of_mem_tokens t (by
    change t ∈ tokenize source
    simp [htokens, ht])

theorem allWellFormed_of_parseMany {source : String} {xs : List Node}
    (h : parseMany source = .ok xs) (hfinite : Node.AllFloatsFinite xs) :
    Node.AllWellFormed xs := by
  obtain ⟨ds, hds, hspells, rfl⟩ := parseMany_eq_ok_iff.mp h
  obtain ⟨eof, -, htokens⟩ := spells_iff.mp hspells
  refine allWellFormed_treeAll ds hds (fun t ht => ?_) hfinite
  exact (Lexer.ofText source).wellSpelled_of_mem_tokens t (by
    change t ∈ tokenize source
    simp [htokens, ht])

/-- The text of a well-formed node reads as a node that is the same in kind and value at every
position and has the same text again, and every node that a text reads as is well-formed if its
binary numbers are finite. -/
theorem text_parse_round_trip :
    (∀ x : Node, x.WellFormed → ∃ y, parse x.text = .ok y ∧ x.same y = true ∧ y.text = x.text) ∧
    (∀ (source : String) (x : Node), parse source = .ok x → x.FloatsFinite → x.WellFormed) :=
  ⟨fun _ hx => parse_text hx, fun _ _ h hfinite => wellFormed_of_parse h hfinite⟩

/-- The text of a call of a static member with a string and a quoted number. -/
theorem round_trip_static_call :
    ∃ y, parse "(a.b/c 'it' ~-1)" = .ok y ∧ y.text = "(a.b/c 'it' ~-1)" := by
  let x : Node := .invocation (.staticMember ["a", "b"] "c" .absent)
    [.literal (.string "it") .absent, .quote (.literal (.integer (-1)) .absent) .absent] .absent
  have hx : x.WellFormed := by
    refine ⟨⟨by decide, ?_, ⟨'c', [], rfl, rfl, List.all_eq_true.mp rfl, by decide⟩⟩, trivial,
      ⟨by decide, by decide⟩, trivial⟩
    intro p hp
    rcases List.mem_cons.mp hp with rfl | hp
    · exact ⟨'a', [], rfl, rfl, List.all_eq_true.mp rfl, by decide⟩
    · rw [List.mem_singleton.mp hp]
      exact ⟨'b', [], rfl, rfl, List.all_eq_true.mp rfl, by decide⟩
  have htext : x.text = "(a.b/c 'it' ~-1)" := by decide +kernel
  obtain ⟨y, hparse, -, hsame⟩ := text_parse_round_trip.1 x hx
  exact ⟨y, htext ▸ hparse, htext ▸ hsame⟩

end HostedLisp
