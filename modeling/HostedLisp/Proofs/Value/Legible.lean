import HostedLisp.Proofs.Source.RoundTrip
import HostedLisp.Proofs.Value.Reading

namespace HostedLisp

/-- Whether a text can spell a node: as an expression, or as the head of an invocation. -/
def Node.Legible (x : Node) : Prop := x.WellFormed ∨ x.IsHead

namespace Node

theorem allWellFormed_iff {xs : List Node} : AllWellFormed xs ↔ ∀ x ∈ xs, x.WellFormed := by
  induction xs with
  | nil => simp [AllWellFormed]
  | cons x xs ih => simp [AllWellFormed, ih]

variable {x head : Node} {xs : List Node} {span : Span}

theorem Legible.inner (h : (quote x span).Legible) : x.WellFormed := h.resolve_right id

theorem Legible.items (h : (list xs span).Legible) : ∀ x ∈ xs, x.WellFormed :=
  allWellFormed_iff.mp (h.resolve_right id)

theorem Legible.invocation (h : (invocation head xs span).Legible) :
    (Node.invocation head xs span).WellFormed :=
  h.resolve_right id

end Node

section Contents

namespace Value

mutual

/-- The code in a value. -/
def nodes : Value → List Node
  | list _ items => nodesAll items
  | tuple items => nodesAll items
  | map entries => entryNodes entries
  | object _ _ attributes => attributeNodes attributes
  | code x => [x]
  | _ => []
termination_by structural v => v

/-- The code in values. -/
def nodesAll : List Value → List Node
  | [] => []
  | v :: vs => nodes v ++ nodesAll vs
termination_by structural vs => vs

/-- The code in the entries of a map. -/
def entryNodes : List (Value × Value) → List Node
  | [] => []
  | (k, v) :: rest => nodes k ++ nodes v ++ entryNodes rest
termination_by structural entries => entries

/-- The code in the attributes of an object. -/
def attributeNodes : List (String × Value) → List Node
  | [] => []
  | (_, v) :: rest => nodes v ++ attributeNodes rest
termination_by structural attributes => attributes

end

mutual

theorem nodes_place : ∀ (v : Value) (next : Identity), (v.place next).1.nodes = v.nodes
  | list id items, next => by
      have hitems := nodesAll_placeAll items next
      simp only [place]
      split <;> exact hitems
  | tuple items, next => nodesAll_placeAll items next
  | map entries, next => entryNodes_placeEntries entries next
  | object id className attributes, next => by
      have hattributes := attributeNodes_placeAttributes attributes next
      simp only [place]
      split <;> exact hattributes
  | null, _ | bool _, _ | int _, _ | double _, _ | float _, _ | decimal _, _ | str _, _
  | code _, _ | date _, _ | bytes _, _ | handle _, _ | callable _, _ | token _, _
  | nodeKind _, _ => rfl

theorem nodesAll_placeAll : ∀ (vs : List Value) (next : Identity),
    nodesAll (placeAll vs next).1 = nodesAll vs
  | [], _ => rfl
  | v :: vs, next => by
      simp only [placeAll, nodesAll, nodes_place v next, nodesAll_placeAll vs]

theorem entryNodes_placeEntries : ∀ (entries : List (Value × Value)) (next : Identity),
    entryNodes (placeEntries entries next).1 = entryNodes entries
  | [], _ => rfl
  | (k, v) :: rest, next => by
      simp only [placeEntries, entryNodes, nodes_place k next, nodes_place v,
        entryNodes_placeEntries rest]

theorem attributeNodes_placeAttributes : ∀ (attributes : List (String × Value))
    (next : Identity), attributeNodes (placeAttributes attributes next).1 =
      attributeNodes attributes
  | [], _ => rfl
  | (_, v) :: rest, next => by
      simp only [placeAttributes, attributeNodes, nodes_place v next,
        attributeNodes_placeAttributes rest]

end

section Members

variable {x : Node}

theorem mem_nodesAll {vs : List Value} : x ∈ nodesAll vs ↔ ∃ v ∈ vs, x ∈ v.nodes := by
  induction vs with
  | nil => simp [nodesAll]
  | cons v vs ih => simp [nodesAll, ih]

theorem mem_entryNodes {entries : List (Value × Value)} :
    x ∈ entryNodes entries ↔ ∃ e ∈ entries, x ∈ e.1.nodes ∨ x ∈ e.2.nodes := by
  induction entries with
  | nil => simp [entryNodes]
  | cons e entries ih => simp [entryNodes, ih, or_assoc]

theorem mem_attributeNodes_setAttribute {name : String} {value : Value}
    {attributes : List (String × Value)}
    (h : x ∈ attributeNodes (setAttribute name value attributes)) :
    x ∈ attributeNodes attributes ∨ x ∈ value.nodes := by
  induction attributes with
  | nil => exact .inr (by simpa [setAttribute, attributeNodes] using h)
  | cons a attributes ih =>
      rw [setAttribute] at h
      split at h
      · simp only [attributeNodes, List.mem_append] at h ⊢
        tauto
      · simp only [attributeNodes, List.mem_append] at h ⊢
        tauto

end Members

end Value

/-- The code in a change. -/
def Change.nodes : Change → List Node
  | items _ contents => Value.nodesAll contents
  | member _ _ value => value.nodes

theorem Change.nodes_of_itemsOf? {c : Change} {id : Identity} {contents : List Value}
    (h : c.itemsOf? id = some contents) : Value.nodesAll contents = c.nodes := by
  cases c with
  | items i contents' =>
      rw [itemsOf?] at h
      split at h
      · rw [Change.nodes, Option.some.inj h]
      · cases h
  | member => cases h

theorem Change.nodes_of_attributeOf? {c : Change} {owner : Owner} {name : String} {value : Value}
    (h : c.attributeOf? owner = some (name, value)) : value.nodes = c.nodes := by
  cases c with
  | items => cases h
  | member o n v =>
      rw [attributeOf?] at h
      split at h
      · cases h
        rfl
      · cases h

namespace Value

mutual

theorem mem_nodes_update (c : Change) : ∀ (v : Value), ∀ x ∈ (v.update c).nodes,
    x ∈ v.nodes ∨ x ∈ c.nodes
  | list id items, x, hx => by
      rw [update] at hx
      split at hx
      · rename_i contents hcontents
        rw [nodes, Change.nodes_of_itemsOf? hcontents] at hx
        exact .inr hx
      · exact mem_nodesAll_updateAll c items x hx
  | tuple items, x, hx => mem_nodesAll_updateAll c items x hx
  | map entries, x, hx => mem_entryNodes_updateEntries c entries x hx
  | object id className attributes, x, hx => by
      have hattributes := mem_attributeNodes_updateAttributes c attributes x
      rw [update] at hx
      split at hx
      · rename_i name value hvalue
        rcases mem_attributeNodes_setAttribute hx with hx | hx
        · exact hattributes hx
        · exact .inr (Change.nodes_of_attributeOf? hvalue ▸ hx)
      · exact hattributes hx
  | null, _, hx | bool _, _, hx | int _, _, hx | double _, _, hx | float _, _, hx
  | decimal _, _, hx | str _, _, hx | code _, _, hx | date _, _, hx | bytes _, _, hx
  | handle _, _, hx | callable _, _, hx | token _, _, hx | nodeKind _, _, hx => .inl hx

theorem mem_nodesAll_updateAll (c : Change) : ∀ (vs : List Value), ∀ x ∈ nodesAll (updateAll c vs),
    x ∈ nodesAll vs ∨ x ∈ c.nodes
  | [], _, hx => .inl hx
  | v :: vs, x, hx => by
      have hv := mem_nodes_update c v x
      have hvs := mem_nodesAll_updateAll c vs x
      simp only [updateAll, nodesAll, List.mem_append] at hx ⊢
      tauto

theorem mem_entryNodes_updateEntries (c : Change) : ∀ (entries : List (Value × Value)),
    ∀ x ∈ entryNodes (updateEntries c entries), x ∈ entryNodes entries ∨ x ∈ c.nodes
  | [], _, hx => .inl hx
  | (k, v) :: rest, x, hx => by
      have hk := mem_nodes_update c k x
      have hv := mem_nodes_update c v x
      have hrest := mem_entryNodes_updateEntries c rest x
      simp only [updateEntries, entryNodes, List.mem_append] at hx ⊢
      tauto

theorem mem_attributeNodes_updateAttributes (c : Change) :
    ∀ (attributes : List (String × Value)),
      ∀ x ∈ attributeNodes (updateAttributes c attributes),
        x ∈ attributeNodes attributes ∨ x ∈ c.nodes
  | [], _, hx => .inl hx
  | (_, v) :: rest, x, hx => by
      have hv := mem_nodes_update c v x
      have hrest := mem_attributeNodes_updateAttributes c rest x
      simp only [updateAttributes, attributeNodes, List.mem_append] at hx ⊢
      tauto

end

end Value

end Contents

/-- Whether a text can spell all code in a value. -/
def Value.Legible (v : Value) : Prop := ∀ x ∈ v.nodes, x.Legible

def Change.Legible (c : Change) : Prop := ∀ x ∈ c.nodes, x.Legible

/-- Whether a text can spell all code that the lists and objects of a store hold. -/
def Store.Legible (s : Store) : Prop := ∀ c ∈ s.changes, c.Legible

namespace Value

variable {v : Value} {x : Node} {vs : List Value} {entries : List (Value × Value)}

theorem legible_of_nodes_eq_nil (h : v.nodes = []) : v.Legible := by
  intro x hx
  rw [h] at hx
  exact absurd hx List.not_mem_nil

theorem legible_ofLiteral (l : Literal) : (ofLiteral l).Legible :=
  legible_of_nodes_eq_nil (by cases l <;> rfl)

theorem legible_code_iff : (code x).Legible ↔ x.Legible := List.forall_mem_singleton

theorem legible_codes {xs : List Node} (h : ∀ x ∈ xs, x.WellFormed) :
    ∀ v ∈ xs.map code, v.Legible := by
  intro v hv
  obtain ⟨x, hx, rfl⟩ := List.mem_map.mp hv
  exact legible_code_iff.mpr (.inl (h x hx))

theorem Legible.of_mem_some (h : v.Legible) : ∀ w ∈ some v, w.Legible := by
  rintro w ⟨⟩
  exact h

theorem forall_mem_nodesAll_iff {P : Node → Prop} :
    (∀ x ∈ nodesAll vs, P x) ↔ ∀ v ∈ vs, ∀ x ∈ v.nodes, P x := by
  constructor
  · exact fun h v hv x hx => h x (mem_nodesAll.mpr ⟨v, hv, hx⟩)
  · intro h x hx
    obtain ⟨v, hv, hx⟩ := mem_nodesAll.mp hx
    exact h v hv x hx

theorem legible_list_iff {id : Identity} : (list id vs).Legible ↔ ∀ v ∈ vs, v.Legible :=
  forall_mem_nodesAll_iff

theorem legible_tuple_iff : (tuple vs).Legible ↔ ∀ v ∈ vs, v.Legible := forall_mem_nodesAll_iff

theorem legible_map_iff :
    (map entries).Legible ↔ ∀ e ∈ entries, e.1.Legible ∧ e.2.Legible := by
  constructor
  · exact fun h e he => ⟨fun x hx => h x (mem_entryNodes.mpr ⟨e, he, .inl hx⟩),
      fun x hx => h x (mem_entryNodes.mpr ⟨e, he, .inr hx⟩)⟩
  · intro h x hx
    obtain ⟨e, he, hx⟩ := mem_entryNodes.mp hx
    exact hx.elim ((h e he).1 x) ((h e he).2 x)

end Value

namespace Store

variable {s : Store} {v : Value} {vs : List Value}

theorem Legible.settle (hs : s.Legible) (hv : v.Legible) : (s.settle v).Legible := by
  unfold Store.settle
  unfold Store.Legible at hs
  revert hs
  induction s.changes generalizing v with
  | nil => exact fun _ => hv
  | cons c changes ih =>
      intro hs
      obtain ⟨hc, hchanges⟩ := List.forall_mem_cons.mp hs
      have hupdated : (v.update c).Legible :=
        fun x hx => (v.mem_nodes_update c x hx).elim (hv x) (hc x)
      exact ih hupdated hchanges

theorem Legible.settleAll (hs : s.Legible) (hvs : ∀ v ∈ vs, v.Legible) :
    ∀ v ∈ s.settleAll vs, v.Legible := by
  intro v hv
  obtain ⟨w, hw, rfl⟩ := List.mem_map.mp hv
  exact hs.settle (hvs w hw)

theorem Legible.change {c : Change} (hs : s.Legible) (hc : c.Legible) : (s.change c).Legible :=
  List.forall_mem_append.mpr ⟨hs, List.forall_mem_singleton.mpr hc⟩

theorem Legible.setItems (hs : s.Legible) (hvs : ∀ v ∈ vs, v.Legible) (id : Identity) :
    (s.setItems id vs).Legible :=
  hs.change (Value.forall_mem_nodesAll_iff.mpr (hs.settleAll hvs))

end Store

end HostedLisp
