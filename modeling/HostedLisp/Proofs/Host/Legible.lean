import HostedLisp.Host.Builtin
import HostedLisp.Host.Reflection
import HostedLisp.Host.Table
import HostedLisp.Proofs.Primitive.Legible

namespace HostedLisp

namespace Builtin

variable {v : Value} {arguments : List Value}

theorem legible_readNode {n : Node} (h : n.Legible) (name : String) :
    ∀ w ∈ readNode n name, w.Legible := by
  have hcodes : ∀ {xs : List Node}, (∀ x ∈ xs, x.WellFormed) →
      (Value.tuple (xs.map Value.code)).Legible :=
    fun hxs => Value.legible_tuple_iff.mpr (Value.legible_codes hxs)
  unfold readNode
  split <;> rintro w ⟨⟩
  case h_3 | h_4 =>
    unfold tokenValue
    split <;> exact Value.legible_of_nodes_eq_nil rfl
  case h_7 => exact Value.legible_code_iff.mpr (.inl h.inner)
  case h_8 => exact Value.legible_code_iff.mpr (.inr h.invocation.1)
  case h_9 => exact hcodes (Node.allWellFormed_iff.mp h.invocation.2)
  case h_11 => exact hcodes h.items
  case h_14 => exact Primitive.legible_listOf_str _
  case h_17 => exact Value.legible_ofLiteral _
  all_goals exact Value.legible_of_nodes_eq_nil rfl

theorem legible_readData (h : v.Legible) (name : String) :
    ∀ w ∈ readData v name, w.Legible := by
  have hscalar : ∀ v : Value, ∀ w ∈ (v.integer?.map Value.int).or (v.binary?.map Value.double),
      w.Legible := by
    intro v w hw
    cases v <;> cases hw <;> exact Value.legible_of_nodes_eq_nil rfl
  unfold readData
  split
  case h_1 => exact legible_readNode (Value.legible_code_iff.mp h) name
  case h_12 => exact hscalar _
  all_goals rintro w ⟨⟩
  case h_6 t => cases t.text <;> exact Value.legible_of_nodes_eq_nil rfl
  case h_10 => split <;> exact Value.legible_of_nodes_eq_nil rfl
  all_goals exact Value.legible_of_nodes_eq_nil rfl

theorem upholds_read (h : v.Legible) (name : String) : (read v name).Upholds Value.Legible := by
  unfold read
  split
  · exact .pure (Value.legible_of_nodes_eq_nil rfl)
  · refine .pure ?_
    cases hread : readData v name with
    | none => exact Value.legible_of_nodes_eq_nil rfl
    | some w => exact legible_readData h name w hread
  · exact .fail _

theorem upholds_write (v : Value) (name : String) : (write v name).Upholds fun _ => True := by
  unfold write
  split <;> exact .fail _

section Results

theorem legible_bool (b : Bool) : (Value.bool b).Legible := Value.legible_of_nodes_eq_nil rfl

theorem legible_int (n : Int) : (Value.int n).Legible := Value.legible_of_nodes_eq_nil rfl

theorem legible_searchText (s : List Char) (name : String) (arguments : List Value) :
    Yields Value.Legible (searchText s name arguments) := by
  cases arguments with
  | nil => exact .error _
  | cons part bounds =>
      unfold searchText
      dsimp only
      split
      · exact .error _
      · refine .bind_any fun range => ?_
        -- What is sought is checked for some of the searches only.
        split
        all_goals
          refine .bind_any fun check => ?_
          split
          · exact .bind_any fun found => .ok (legible_bool _)
          · split
            · split
              · exact .ok (legible_int _)
              · exact .error _
            · exact .error _
          · split <;> exact .ok (legible_int _)

theorem legible_withoutArguments (name : String) (arguments : List Value) (h : v.Legible) :
    Yields Value.Legible (withoutArguments name arguments v) := by
  unfold withoutArguments
  split
  · exact .ok h
  · exact .error _

theorem legible_countIn (name : String) (items arguments : List Value) :
    Yields Value.Legible (withOneArgument name arguments (countIn items)) := by
  unfold withOneArgument
  split
  · exact .ok (legible_int _)
  · exact .error _

theorem legible_indexIn (items : List Value) (notFound : Value → Except Failure Failure)
    (arguments : List Value) : Yields Value.Legible (indexIn items notFound arguments) := by
  refine .bind_any fun _ => ?_
  split
  · exact .ok (Value.legible_of_nodes_eq_nil rfl)
  · refine .bind_any fun range => ?_
    dsimp only
    split
    · exact .ok (legible_int _)
    · exact .bind_any fun f => .error f

theorem legible_getEntry {entries : List (Value × Value)} (h : (Value.map entries).Legible)
    (harguments : ∀ v ∈ arguments, v.Legible) :
    Yields Value.Legible (getEntry entries arguments) := by
  refine .bind_any fun _ => ?_
  split
  · rename_i key rest
    refine .bind_any fun _ => .ok ?_
    cases hentry : Value.entry? entries key with
    | some v => exact Value.legible_entry? h v hentry
    | none =>
        cases rest with
        | nil => exact Value.legible_of_nodes_eq_nil rfl
        | cons w rest => exact harguments w (by simp)
  · exact .ok (Value.legible_of_nodes_eq_nil rfl)

theorem legible_result [HostClasses] (h : v.Legible) (harguments : ∀ v ∈ arguments, v.Legible)
    (name : String) : Yields Value.Legible (result v name arguments) := by
  unfold result
  split
  · exact legible_withoutArguments _ _ (Primitive.legible_str _)
  · exact legible_withoutArguments _ _ (Primitive.legible_str _)
  · exact legible_searchText _ _ _
  · exact legible_countIn _ _ _
  · exact legible_indexIn _ _ _
  · exact legible_countIn _ _ _
  · exact legible_indexIn _ _ _
  · exact legible_getEntry h harguments
  · exact legible_withoutArguments _ _ (Primitive.legible_str _)
  · split
    · exact legible_withoutArguments _ _ (legible_int _)
    · exact legible_withoutArguments _ _ (legible_bool _)
    · exact .error _

end Results

variable [HostClasses]

theorem upholds_call (h : v.Legible) (harguments : ∀ v ∈ arguments, v.Legible) (name : String) :
    (call v name arguments).Upholds Value.Legible := by
  unfold call
  split
  · rename_i id xs
    split
    · rename_i x
      have hitems : ∀ w ∈ xs ++ [x], w.Legible :=
        List.forall_mem_append.mpr ⟨Value.legible_list_iff.mp h, harguments⟩
      refine Effect.Upholds.bind (.modify fun s hs => hs.setItems hitems id) fun _ _ => ?_
      exact .pure (Value.legible_of_nodes_eq_nil rfl)
    · exact .fail _
  · exact .ofExcept (legible_result h harguments name)

theorem legible_catalogue : catalogue.Legible where
  read _ name h := upholds_read h name
  write v name _ _ := upholds_write v name
  call _ name _ h harguments := upholds_call h harguments name
  module? _ := nofun

end Builtin

namespace Reflection

variable {r : Reflection}

theorem upholds_reach (r : Reflection) (access : Event) (target : Value) (name : String) :
    (r.reach access target name).Upholds fun _ => True :=
  Effect.Upholds.bind (.record _) fun _ _ => Effect.Upholds.read.bind fun _ _ => .pure trivial

theorem legible_findAttribute? {attributes : List (String × Value)}
    (h : ∀ a ∈ attributes, a.2.Legible) (name : String) :
    ∀ v ∈ findAttribute? name attributes, v.Legible := by
  intro v hv
  obtain ⟨a, ha, rfl⟩ := Option.map_eq_some_iff.mp hv
  exact h a (List.mem_of_find?_eq_some ha)

theorem legible_importModule (hc : r.catalogue.Legible) (path : String) :
    Yields (fun found => ∀ v ∈ found, v.Legible) (r.importModule path) := by
  unfold importModule
  split
  · exact .error _
  · exact .error _
  · exact .ok (hc.module? path)

theorem upholds_resolveType (hc : r.catalogue.Legible) (htypes : ∀ t ∈ r.types, t.2.Legible)
    (path : List String) : (r.resolveType path).Upholds fun found => ∀ v ∈ found, v.Legible := by
  have hregistered := legible_findAttribute? htypes (Node.dotted path)
  unfold resolveType
  split
  · exact .pure nofun
  · rename_i v _ hv
    exact (Effect.Upholds.settle (hregistered v hv)).bind fun w hw => .pure hw.of_mem_some
  · split
    · exact .pure nofun
    · refine (Effect.Upholds.ofExcept (legible_importModule hc _)).bind fun found hfound => ?_
      split
      · exact .pure hfound
      · split
        · exact .pure nofun
        · refine (Effect.Upholds.ofExcept (legible_importModule hc _)).bind fun found hfound => ?_
          split
          · exact .pure nofun
          · rename_i m
            refine (upholds_reach r _ m _).bind fun found _ => ?_
            split
            · exact .pure nofun
            · exact (hc.read m _ (hfound m rfl)).bind fun w hw => .pure hw.of_mem_some

theorem upholds_resolveMember [HostClasses] (r : Reflection) {target : Value} (h : target.Legible)
    (name : String) (types : Option (List ValueType)) :
    (r.resolveMember target name types).Upholds fun found => ∀ m ∈ found, m.target.Legible := by
  have hfound : ∀ isProperty, ∀ m ∈ some (Member.mk target name isProperty), m.target.Legible := by
    rintro isProperty m ⟨⟩
    exact h
  unfold resolveMember
  split
  · exact .pure nofun
  · refine (upholds_reach r _ target name).bind fun found _ => ?_
    split
    · exact .pure nofun
    · exact .pure (hfound _)
    · split
      · exact .pure nofun
      · split
        · exact .pure (hfound _)
        · refine (Effect.Upholds.ofExcept (P := fun _ => True) fun _ _ => trivial).bind
            fun b _ => ?_
          cases b with
          | true => exact .pure (hfound _)
          | false => exact .pure nofun

theorem upholds_call (hc : r.catalogue.Legible) {m : Member} (hm : m.target.Legible)
    {arguments : List Value} (h : ∀ v ∈ arguments, v.Legible) :
    (r.call m arguments).Upholds Value.Legible := by
  unfold call
  split
  · unfold callProperty
    split
    · exact Effect.Upholds.bind (.record _) fun _ _ => hc.read _ _ hm
    · rename_i v
      have hv : v.Legible := h v (by simp)
      refine Effect.Upholds.bind (.record _) fun _ _ => ?_
      exact (hc.write _ _ v hv).bind fun _ _ => .pure hv
    · exact .fail _
  · exact hc.call _ _ _ hm h

theorem legible_host [HostClasses] (hc : r.catalogue.Legible)
    (htypes : ∀ t ∈ r.types, t.2.Legible) : r.host.Legible where
  resolveType := upholds_resolveType hc htypes
  resolveMember _ name types h := upholds_resolveMember r h name types
  call _ _ hm h := upholds_call hc hm h

end Reflection

namespace Table

theorem legible_host [HostClasses] : host.Legible where
  resolveType path := by
    refine Effect.Upholds.bind (.record _) fun _ _ => .pure ?_
    split
    · exact (Primitive.legible_str _).of_mem_some
    · exact nofun
  resolveMember target name types h := by
    refine (Effect.Upholds.ofExcept (P := fun _ => True) fun _ _ => trivial).bind fun text _ => ?_
    refine Effect.Upholds.bind (.record _) fun _ _ => .pure ?_
    split
    · rintro m ⟨⟩
      exact h
    · exact nofun
  call m arguments _ h := by
    change (call m arguments).Upholds Value.Legible
    unfold call
    split
    · exact .pure (Value.legible_list_iff.mpr h)
    · exact .fail _

end Table

end HostedLisp
