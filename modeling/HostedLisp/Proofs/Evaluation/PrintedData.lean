import HostedLisp.Host.Sample
import HostedLisp.Proofs.Evaluation.Termination
import HostedLisp.Proofs.Source.RoundTrip

/-!
Data in source text. Main statement: the text of a value that is data parses, and evaluation of what
it parses as has a value that is alike, in every scope and whatever the host and the primitives are.
-/

namespace HostedLisp

open Number

namespace Node

mutual

theorem isUnwritable_of_wellFormed : (x : Node) → x.WellFormed → x.isUnwritable = false
  | .quote inner _, hx => isUnwritable_of_wellFormed inner hx
  | .list items _, hx => anyUnwritable_of_allWellFormed items hx
  | .invocation head parameters _, hx => by
      have hhead : head.isUnwritable = false := by
        cases head <;> first | rfl | exact hx.1.elim
      rw [isUnwritable, hhead, anyUnwritable_of_allWellFormed parameters hx.2, Bool.or_self]
  | .literal v _, hx => by
      cases v with
      | integer n =>
          rw [isUnwritable, Literal.isUnwritable, exceedsDigitLimit_of_range hx.1 hx.2]
      | _ => rfl
  | .identifier .., _ => rfl
  | .error .., hx | .instanceMember .., hx | .staticMember .., hx => hx.elim
termination_by structural x => x

theorem anyUnwritable_of_allWellFormed : (xs : List Node) → AllWellFormed xs →
    anyUnwritable xs = false
  | [], _ => rfl
  | x :: xs, hxs => by
      rw [anyUnwritable, isUnwritable_of_wellFormed x hxs.1,
        anyUnwritable_of_allWellFormed xs hxs.2, Bool.or_self]
termination_by structural xs => xs

end

end Node

namespace Value

mutual

/-- Whether a value is data that a text can spell: null, a truth value, a number in range, a string,
a quote, or a list of data. -/
def IsData : Value → Prop
  | null => True
  | bool _ => True
  | int n => leastInt64 ≤ n ∧ n ≤ greatestInt64
  | double x => Format.double.Holds x
  | float x => Format.single.Holds x
  | decimal d => d.isFinite = true
  | str _ => True
  | list _ items => AllData items
  | code x => x.WellFormed ∧ x.kind = .quote
  | _ => False
termination_by structural v => v

/-- Whether all values are data. -/
def AllData : List Value → Prop
  | [] => True
  | v :: vs => IsData v ∧ AllData vs
termination_by structural vs => vs

end

mutual

/-- Whether the second value is of the kind of the first one and has its contents. Decimals are
compared by value, all other numbers and texts exactly, and lists whatever their identities. -/
def Alike : Value → Value → Prop
  | decimal a, w =>
      ∃ b, w = decimal b ∧ Exact.same (Exact.ofDecimal? a) (Exact.ofDecimal? b) = true
  | list _ items, w => ∃ id items', w = list id items' ∧ AllAlike items items'
  | code x, w => ∃ y, w = code y ∧ x.Alike y
  | v, w => w = v
termination_by structural v => v

/-- Whether values are alike, one by one. -/
def AllAlike : List Value → List Value → Prop
  | [], ws => ws = []
  | v :: vs, ws => ∃ w ws', ws = w :: ws' ∧ Alike v w ∧ AllAlike vs ws'
termination_by structural vs => vs

end

mutual

/-- The expression that spells a value that is data. -/
def expression : Value → Node
  | bool b => .literal (.boolean b) .absent
  | int n => .literal (.integer n) .absent
  | double x => .literal (.double x) .absent
  | float x => .literal (.float x) .absent
  | decimal d => .literal (.decimal d) .absent
  | str s => .literal (.string s) .absent
  | list _ items => .list (expressions items) .absent
  | code x => x
  | _ => .literal .null .absent
termination_by structural v => v

/-- The expressions that spell values that are data. -/
def expressions : List Value → List Node
  | [] => []
  | v :: vs => expression v :: expressions vs
termination_by structural vs => vs

end

mutual

theorem wellFormed_expression : (v : Value) → v.IsData → v.expression.WellFormed
  | null, _ | bool _, _ | str _, _ => trivial
  | int _, hv | double _, hv | float _, hv | decimal _, hv => hv
  | list _ items, hv => allWellFormed_expressions items hv
  | code _, hv => hv.1
  | tuple _, hv | map _, hv | date _, hv | bytes _, hv | object .., hv | handle _, hv
  | callable _, hv | token _, hv | nodeKind _, hv => hv.elim
termination_by structural v => v

theorem allWellFormed_expressions : (vs : List Value) → AllData vs →
    Node.AllWellFormed (expressions vs)
  | [], _ => trivial
  | v :: vs, hvs => ⟨wellFormed_expression v hvs.1, allWellFormed_expressions vs hvs.2⟩
termination_by structural vs => vs

end

mutual

theorem source?_of_isData [HostClasses] : (v : Value) → v.IsData →
    v.source? = .ok v.expression.text
  | null, _ | bool _, _ | str _, _ | double _, _ | float _, _ | decimal _, _ => rfl
  | int _, hv => intText?_eq (exceedsDigitLimit_of_range hv.1 hv.2)
  | code x, hv => Node.text?_eq (Node.isUnwritable_of_wellFormed x hv.1)
  | list _ items, hv => by
      rw [source?, sourceAll?_of_allData items hv, expression, Node.text, ← Node.intercalate_text]
      rfl
  | tuple _, hv | map _, hv | date _, hv | bytes _, hv | object .., hv | handle _, hv
  | callable _, hv | token _, hv | nodeKind _, hv => hv.elim
termination_by structural v => v

theorem sourceAll?_of_allData [HostClasses] : (vs : List Value) → AllData vs →
    sourceAll? vs = .ok ((expressions vs).map Node.text)
  | [], _ => rfl
  | v :: vs, hvs => by
      rw [sourceAll?, source?_of_isData v hvs.1, sourceAll?_of_allData vs hvs.2]
      rfl
termination_by structural vs => vs

end

mutual

theorem alike_place : (v : Value) → v.IsData → ∀ {w : Value} (next : Identity), v.Alike w →
    v.Alike (w.place next).1
  | list _ items, hv, w, next, h => by
      obtain ⟨id, items', rfl, h⟩ := h
      simp only [place]
      split
      · exact ⟨_, _, rfl, allAlike_placeAll items hv next h⟩
      · exact ⟨_, _, rfl, allAlike_placeAll items hv next h⟩
  | decimal _, _, w, next, h => by
      obtain ⟨b, rfl, h⟩ := h
      exact ⟨b, rfl, h⟩
  | code _, _, w, next, h => by
      obtain ⟨y, rfl, h⟩ := h
      exact ⟨y, rfl, h⟩
  | null, _, w, _, h | bool _, _, w, _, h | str _, _, w, _, h | int _, _, w, _, h
  | double _, _, w, _, h | float _, _, w, _, h => by
      obtain rfl : w = _ := h
      exact rfl
  | tuple _, hv, _, _, _ | map _, hv, _, _, _ | date _, hv, _, _, _ | bytes _, hv, _, _, _
  | object .., hv, _, _, _ | handle _, hv, _, _, _ | callable _, hv, _, _, _
  | token _, hv, _, _, _ | nodeKind _, hv, _, _, _ => hv.elim
termination_by structural v => v

theorem allAlike_placeAll : (vs : List Value) → AllData vs → ∀ {ws : List Value}
    (next : Identity), AllAlike vs ws → AllAlike vs (placeAll ws next).1
  | [], _, ws, next, h => by
      obtain rfl : ws = [] := h
      exact rfl
  | v :: vs, hvs, ws, next, h => by
      obtain ⟨w, ws', rfl, hw, hws⟩ := h
      exact ⟨_, _, rfl, alike_place v hvs.1 next hw, allAlike_placeAll vs hvs.2 _ hws⟩
termination_by structural vs => vs

end

end Value

/-- The state in which only the value at hand and the next free identity may be others. -/
def Machine.moved (m : Machine) (current : Option Value) (next : Identity) : Machine :=
  { m with current := current, store := { m.store with nextIdentity := next } }

/-- The state after an evaluation in which no call was made. -/
def Machine.evaluated (m : Machine) (current : Option Value) (next : Identity) : Machine :=
  { m.moved current next with frames := if m.depth = 0 then [] else m.frames }

namespace Setting

/-- Whether a node evaluates to a value like `v` whatever the host and the primitives are, with
nothing else in the state changed but the value at hand and the next free identity. -/
def EvaluatesLike (y : Node) (v : Value) : Prop :=
  ∀ m : Machine, ∃ w current next, v.Alike w ∧ ∀ (env : Setting) (fuel : Nat), y.weight ≤ fuel →
    env.dispatch fuel y m = (.ok w, m.moved current next)

theorem evaluatesLike_literal {v : Value} {l : Literal} {y : Node}
    (h : (Node.literal l .absent).Alike y) (hv : ∀ l', l.Alike l' → v.Alike (.ofLiteral l')) :
    EvaluatesLike y v := by
  intro m
  cases y with
  | literal l' span =>
      refine ⟨.ofLiteral l', some (.code (.literal l' span)), m.store.nextIdentity, hv l' h, ?_⟩
      intro env fuel hfuel
      have hpos := Node.weight_pos (.literal l' span)
      obtain ⟨fuel, rfl⟩ : ∃ k, fuel = k + 1 := ⟨fuel - 1, by omega⟩
      rw [dispatch]
      rfl
  | _ => cases h

theorem evaluatesLike_quote {inner y : Node} {span : Span} (h : (Node.quote inner span).Alike y) :
    EvaluatesLike y (.code (.quote inner span)) := by
  intro m
  cases y with
  | quote inner' span' =>
      refine ⟨.code (.quote inner' span'), some (.code (.quote inner' span')),
        m.store.nextIdentity, ⟨_, rfl, h⟩, ?_⟩
      intro env fuel hfuel
      have hpos := Node.weight_pos (.quote inner' span')
      obtain ⟨fuel, rfl⟩ : ∃ k, fuel = k + 1 := ⟨fuel - 1, by omega⟩
      rw [dispatch]
      rfl
  | _ => cases h

mutual

/-- An expression like the one that spells a value that is data evaluates to a value that is alike.
The induction is on the value; the items of a list are evaluated from the states that the items
before them left. -/
theorem evaluatesLike_expression : (v : Value) → v.IsData → ∀ {y : Node}, v.expression.Alike y →
    EvaluatesLike y v
  | .null, _, _, h | .bool _, _, _, h | .int _, _, _, h | .double _, _, _, h | .float _, _, _, h
  | .str _, _, _, h => evaluatesLike_literal h fun _ hl => by
      cases hl
      exact rfl
  | .decimal _, _, _, h => evaluatesLike_literal h fun l' hl => by
      cases l' with
      | decimal d => exact ⟨d, rfl, hl⟩
      | _ => cases hl
  | .code x, hv, _, h => by
      cases x with
      | quote => exact evaluatesLike_quote h
      | literal l => cases l <;> cases hv.2
      | _ => cases hv.2
  | .list id items, hv, y, h => by
      intro m
      cases y with
      | list ys span =>
          obtain ⟨ws, current, next, hws, hrun⟩ :=
            mapAll_expressions items hv h { m with current := some (.code (.list ys span)) }
          have halike : (Value.list id items).Alike (.listOf ws) := ⟨0, ws, rfl, hws⟩
          refine ⟨((Value.listOf ws).place next).1, current, ((Value.listOf ws).place next).2,
            Value.alike_place (.list id items) hv next halike, ?_⟩
          intro env fuel hfuel
          rw [Node.weight] at hfuel
          obtain ⟨fuel, rfl⟩ : ∃ k, fuel = k + 1 := ⟨fuel - 1, by omega⟩
          have hitems := hrun env fuel (by omega)
          rw [dispatch]
          change Run.bind (Run.mapAll (env.dispatch fuel) ys) _ _ = _
          rw [Run.bind, hitems]
          rfl
      | _ => cases h
  | .tuple _, hv, _, _ | .map _, hv, _, _ | .date _, hv, _, _ | .bytes _, hv, _, _
  | .object .., hv, _, _ | .handle _, hv, _, _ | .callable _, hv, _, _ | .token _, hv, _, _
  | .nodeKind _, hv, _, _ => hv.elim
termination_by structural v => v

theorem mapAll_expressions : (vs : List Value) → Value.AllData vs → ∀ {ys : List Node},
    Node.AllAlike (Value.expressions vs) ys → ∀ m : Machine, ∃ ws current next,
      Value.AllAlike vs ws ∧ ∀ (env : Setting) (fuel : Nat), Node.weightAll ys ≤ fuel →
        Run.mapAll (env.dispatch fuel) ys m = (.ok ws, m.moved current next)
  | [], _, ys, h, m => by
      cases ys with
      | nil => exact ⟨[], m.current, m.store.nextIdentity, rfl, fun _ _ _ => rfl⟩
      | cons => cases h
  | v :: vs, hvs, ys, h, m => by
      cases ys with
      | nil => cases h
      | cons y ys =>
          obtain ⟨w, current, next, hw, hrun⟩ := evaluatesLike_expression v hvs.1 h.1 m
          obtain ⟨ws, current', next', hws, hrest⟩ :=
            mapAll_expressions vs hvs.2 h.2 (m.moved current next)
          refine ⟨w :: ws, current', next', ⟨w, ws, rfl, hw, hws⟩, ?_⟩
          intro env fuel hfuel
          rw [Node.weightAll] at hfuel
          rw [Run.mapAll, Run.bind, hrun env fuel (by omega)]
          dsimp only
          rw [Run.bind, hrest env fuel (by omega)]
          rfl
termination_by structural vs => vs

end

/-- The text of a value that is data parses, and what it parses as evaluates in every scope to a
value of the same kind with the same contents. Neither the host nor a primitive is asked, so that
the result is the same whatever they are, and of the state only the value at hand, the next free
identity and the frames left from an earlier failure are others afterwards. -/
theorem printed_data_evaluates [HostClasses] {v : Value} (hv : v.IsData) :
    ∃ text x, v.source? = .ok text ∧ parse text = .ok x ∧
      ∀ (scope : Option Nat) (m : Machine), ∃ w current next, v.Alike w ∧
        ∀ (env : Setting) (fuel : Nat), x.weight ≤ fuel →
          Run.evaluation scope (env.dispatch fuel x) m = (.ok w, m.evaluated current next) := by
  obtain ⟨x, hparse, halike, -⟩ := parse_text_alike (Value.wellFormed_expression v hv)
  refine ⟨_, x, Value.source?_of_isData v hv, hparse, ?_⟩
  intro scope m
  obtain ⟨w, current, next, hw, hrun⟩ := evaluatesLike_expression v hv halike
    { m with
      frames := if m.depth = 0 then [] else m.frames
      scope := scope.getD m.scope
      depth := m.depth + 1 }
  refine ⟨w, current, next, hw, ?_⟩
  intro env fuel hfuel
  unfold Run.evaluation
  dsimp only
  rw [hrun env fuel hfuel]
  rfl

open scoped Sample

/-- A list with a negative zero, a single, a decimal with an exponent, a string that holds quotation
marks, and a quoted call. -/
theorem printed_data_evaluates_in_list :
    let call : Node :=
      .invocation (.identifier "f" .absent) [.literal (.boolean true) .absent] .absent
    let v : Value := .listOf [.double (.finite true 0 0), .float (.finite false 3 (-1)),
      .list 5 [.decimal (.finite false 1 3), .str "it's"], .code (.quote call .absent)]
    ∃ x, parse "[-0.0d 1.5f [1000.0 'it\\'s'] ~(f true)]" = .ok x ∧
      ∀ (scope : Option Nat) (m : Machine), ∃ w current next, v.Alike w ∧
        ∀ (env : Setting) (fuel : Nat), x.weight ≤ fuel →
          Run.evaluation scope (env.dispatch fuel x) m = (.ok w, m.evaluated current next) := by
  intro call v
  have hcall : (Value.code (.quote call .absent)).IsData :=
    ⟨⟨⟨'f', [], rfl, rfl, List.all_eq_true.mp rfl, by decide⟩, trivial, trivial⟩, rfl⟩
  have hsingle : Format.single.Holds (.finite false 3 (-1)) := .inr (by decide)
  have hv : v.IsData :=
    ⟨.inl ⟨rfl, rfl⟩, hsingle, ⟨rfl, trivial, trivial⟩, hcall, trivial⟩
  have htext : v.expression.text = "[-0.0d 1.5f [1000.0 'it\\'s'] ~(f true)]" := by decide +kernel
  obtain ⟨text, x, hsource, hparse, hrun⟩ := printed_data_evaluates hv
  obtain rfl : v.expression.text = text :=
    Except.ok.inj ((Value.source?_of_isData v hv).symm.trans hsource)
  exact ⟨x, htext ▸ hparse, hrun⟩

end Setting

end HostedLisp
