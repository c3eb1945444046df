import HostedLisp.Proofs.Value.Renaming
import HostedLisp.Store

namespace HostedLisp

namespace Renaming

variable {i : Identity}

/-- The renaming that makes the identities from some `n` on larger by `d`. -/
def shift (n d : Nat) (hn : 0 < n) : Renaming where
  toFun i := if i < n then i else i + d
  injective (i j : Nat) h := by
    change (if i < n then i else i + d : Nat) = (if j < n then j else j + d : Nat) at h
    change @Eq Nat i j
    split at h <;> split at h <;> omega
  map_zero := if_pos hn

section Shift

variable {n d : Nat} {hn : 0 < n}

theorem shift_of_lt (h : i < n) : shift n d hn i = i := if_pos h

theorem shift_of_le (h : n ≤ i) : shift n d hn i = i + d := if_neg (Nat.not_lt.mpr h)

end Shift

end Renaming

section Placement

namespace Value

mutual

theorem le_place : ∀ (v : Value) (next : Identity), next ≤ (v.place next).2
  | list id items, next => by
      have hitems := le_placeAll items next
      simp only [place]
      split
      · exact Nat.le_succ_of_le hitems
      · exact hitems
  | tuple items, next => by
      simp only [place]
      exact le_placeAll items next
  | map entries, next => by
      simp only [place]
      exact le_placeEntries entries next
  | object id className attributes, next => by
      have hattributes := le_placeAttributes attributes next
      simp only [place]
      split
      · exact Nat.le_succ_of_le hattributes
      · exact hattributes
  | null, _ | bool _, _ | int _, _ | double _, _ | float _, _ | decimal _, _ | str _, _
  | code _, _ | date _, _ | bytes _, _ | handle _, _ | callable _, _ | token _, _
  | nodeKind _, _ => Nat.le_refl _

theorem le_placeAll : ∀ (xs : List Value) (next : Identity), next ≤ (placeAll xs next).2
  | [], _ => Nat.le_refl _
  | x :: xs, next => by
      simp only [placeAll]
      exact Nat.le_trans (le_place x next) (le_placeAll xs _)

theorem le_placeEntries : ∀ (entries : List (Value × Value)) (next : Identity),
    next ≤ (placeEntries entries next).2
  | [], _ => Nat.le_refl _
  | (k, v) :: rest, next => by
      simp only [placeEntries]
      exact Nat.le_trans (le_place k next)
        (Nat.le_trans (le_place v _) (le_placeEntries rest _))

theorem le_placeAttributes : ∀ (attributes : List (String × Value)) (next : Identity),
    next ≤ (placeAttributes attributes next).2
  | [], _ => Nat.le_refl _
  | (name, v) :: rest, next => by
      simp only [placeAttributes]
      exact Nat.le_trans (le_place v next) (le_placeAttributes rest _)

end

section Shift

variable {n d : Nat} {hn : 0 < n}

mutual

/-- Identities are given to the parts first, and are large already when the whole gets its own. -/
theorem place_shift : ∀ (v : Value) {next : Identity}, n ≤ next →
    (v.rename (.shift n d hn)).place (next + d) =
      ((v.place next).1.rename (.shift n d hn), (v.place next).2 + d)
  | list id items, next, h => by
      have hle := Nat.le_trans h (le_placeAll items next)
      simp only [rename, place, placeAll_shift items h, Renaming.eq_zero_iff]
      split
      · simp only [rename, Renaming.shift_of_le hle, Nat.add_right_comm]
      · rfl
  | tuple items, next, h => by simp only [rename, place, placeAll_shift items h]
  | map entries, next, h => by simp only [rename, place, placeEntries_shift entries h]
  | object id className attributes, next, h => by
      have hle := Nat.le_trans h (le_placeAttributes attributes next)
      simp only [rename, place, placeAttributes_shift attributes h, Renaming.eq_zero_iff]
      split
      · simp only [rename, Renaming.shift_of_le hle, Nat.add_right_comm]
      · rfl
  | null, _, _ | bool _, _, _ | int _, _, _ | double _, _, _ | float _, _, _ | decimal _, _, _
  | str _, _, _ | code _, _, _ | date _, _, _ | bytes _, _, _ | handle _, _, _
  | callable _, _, _ | token _, _, _ | nodeKind _, _, _ => rfl

theorem placeAll_shift : ∀ (xs : List Value) {next : Identity}, n ≤ next →
    placeAll (renameAll (.shift n d hn) xs) (next + d) =
      (renameAll (.shift n d hn) (placeAll xs next).1, (placeAll xs next).2 + d)
  | [], _, _ => rfl
  | x :: xs, next, h => by
      have hle := Nat.le_trans h (le_place x next)
      simp only [renameAll, placeAll, place_shift x h, placeAll_shift xs hle]

theorem placeEntries_shift : ∀ (entries : List (Value × Value)) {next : Identity}, n ≤ next →
    placeEntries (renameEntries (.shift n d hn) entries) (next + d) =
      (renameEntries (.shift n d hn) (placeEntries entries next).1,
        (placeEntries entries next).2 + d)
  | [], _, _ => rfl
  | (k, v) :: rest, next, h => by
      have hk := Nat.le_trans h (le_place k next)
      have hv := Nat.le_trans hk (le_place v _)
      simp only [renameEntries, placeEntries, place_shift k h, place_shift v hk,
        placeEntries_shift rest hv]

theorem placeAttributes_shift : ∀ (attributes : List (String × Value)) {next : Identity},
    n ≤ next →
    placeAttributes (renameAttributes (.shift n d hn) attributes) (next + d) =
      (renameAttributes (.shift n d hn) (placeAttributes attributes next).1,
        (placeAttributes attributes next).2 + d)
  | [], _, _ => rfl
  | (name, v) :: rest, next, h => by
      have hle := Nat.le_trans h (le_place v next)
      simp only [renameAttributes, placeAttributes, place_shift v h, placeAttributes_shift rest hle]

end

end Shift

end Value

end Placement

section Identities

namespace Value

mutual

/-- The identities in a value. -/
def identities : Value → List Identity
  | list id items => id :: identitiesAll items
  | tuple items => identitiesAll items
  | map entries => entryIdentities entries
  | object id _ attributes => id :: attributeIdentities attributes
  | _ => []
termination_by structural v => v

/-- The identities in values. -/
def identitiesAll : List Value → List Identity
  | [] => []
  | x :: xs => identities x ++ identitiesAll xs
termination_by structural xs => xs

/-- The identities in the entries of a map. -/
def entryIdentities : List (Value × Value) → List Identity
  | [] => []
  | (k, v) :: rest => identities k ++ identities v ++ entryIdentities rest
termination_by structural xs => xs

/-- The identities in the attributes of an object. -/
def attributeIdentities : List (String × Value) → List Identity
  | [] => []
  | (_, v) :: rest => identities v ++ attributeIdentities rest
termination_by structural xs => xs

end

section Fixed

variable {ρ : Renaming}

mutual

theorem rename_eq_self : ∀ v : Value, (∀ i ∈ v.identities, ρ i = i) → v.rename ρ = v
  | list id items, h => by
      simp only [identities, List.mem_cons, forall_eq_or_imp] at h
      rw [rename, h.1, renameAll_eq_self items h.2]
  | tuple items, h => by rw [rename, renameAll_eq_self items h]
  | map entries, h => by rw [rename, renameEntries_eq_self entries h]
  | object id className attributes, h => by
      simp only [identities, List.mem_cons, forall_eq_or_imp] at h
      rw [rename, h.1, renameAttributes_eq_self attributes h.2]
  | null, _ | bool _, _ | int _, _ | double _, _ | float _, _ | decimal _, _ | str _, _
  | code _, _ | date _, _ | bytes _, _ | handle _, _ | callable _, _ | token _, _
  | nodeKind _, _ => rfl

theorem renameAll_eq_self : ∀ xs : List Value, (∀ i ∈ identitiesAll xs, ρ i = i) →
    renameAll ρ xs = xs
  | [], _ => rfl
  | x :: xs, h => by
      simp only [identitiesAll, List.mem_append, or_imp, forall_and] at h
      rw [renameAll, rename_eq_self x h.1, renameAll_eq_self xs h.2]

theorem renameEntries_eq_self : ∀ entries : List (Value × Value),
    (∀ i ∈ entryIdentities entries, ρ i = i) → renameEntries ρ entries = entries
  | [], _ => rfl
  | (k, v) :: rest, h => by
      simp only [entryIdentities, List.mem_append, or_imp, forall_and] at h
      rw [renameEntries, rename_eq_self k h.1.1, rename_eq_self v h.1.2,
        renameEntries_eq_self rest h.2]

theorem renameAttributes_eq_self : ∀ attributes : List (String × Value),
    (∀ i ∈ attributeIdentities attributes, ρ i = i) → renameAttributes ρ attributes = attributes
  | [], _ => rfl
  | (name, v) :: rest, h => by
      simp only [attributeIdentities, List.mem_append, or_imp, forall_and] at h
      rw [renameAttributes, rename_eq_self v h.1, renameAttributes_eq_self rest h.2]

end

end Fixed

mutual

theorem identities_place : ∀ (v : Value) (next : Identity), ∀ i ∈ (v.place next).1.identities,
    i ∈ v.identities ∨ i < (v.place next).2
  | list id items, next, i, hi => by
      have hitems := identities_placeAll items next i
      by_cases hid : id = 0
      · simp only [place, hid, if_true, identities, List.mem_cons] at hi ⊢
        rcases hi with rfl | hi
        · exact .inr (Nat.lt_succ_self _)
        · exact (hitems hi).imp .inr Nat.lt_succ_of_lt
      · simp only [place, hid, if_false, identities, List.mem_cons] at hi ⊢
        rcases hi with rfl | hi
        · exact .inl (.inl rfl)
        · exact (hitems hi).imp_left .inr
  | tuple items, next, i, hi => by
      simp only [place, identities] at hi ⊢
      exact identities_placeAll items next i hi
  | map entries, next, i, hi => by
      simp only [place, identities] at hi ⊢
      exact identities_placeEntries entries next i hi
  | object id className attributes, next, i, hi => by
      have hattributes := identities_placeAttributes attributes next i
      by_cases hid : id = 0
      · simp only [place, hid, if_true, identities, List.mem_cons] at hi ⊢
        rcases hi with rfl | hi
        · exact .inr (Nat.lt_succ_self _)
        · exact (hattributes hi).imp .inr Nat.lt_succ_of_lt
      · simp only [place, hid, if_false, identities, List.mem_cons] at hi ⊢
        rcases hi with rfl | hi
        · exact .inl (.inl rfl)
        · exact (hattributes hi).imp_left .inr
  | null, _, _, hi | bool _, _, _, hi | int _, _, _, hi | double _, _, _, hi | float _, _, _, hi
  | decimal _, _, _, hi | str _, _, _, hi | code _, _, _, hi | date _, _, _, hi
  | bytes _, _, _, hi | handle _, _, _, hi | callable _, _, _, hi | token _, _, _, hi
  | nodeKind _, _, _, hi => .inl hi

theorem identities_placeAll : ∀ (xs : List Value) (next : Identity),
    ∀ i ∈ identitiesAll (placeAll xs next).1, i ∈ identitiesAll xs ∨ i < (placeAll xs next).2
  | [], _, _, hi => .inl hi
  | x :: xs, next, i, hi => by
      have hx := identities_place x next i
      have hxs := identities_placeAll xs (x.place next).2 i
      have hle := le_placeAll xs (x.place next).2
      simp only [placeAll, identitiesAll, List.mem_append] at hi ⊢
      grind

theorem identities_placeEntries : ∀ (entries : List (Value × Value)) (next : Identity),
    ∀ i ∈ entryIdentities (placeEntries entries next).1,
      i ∈ entryIdentities entries ∨ i < (placeEntries entries next).2
  | [], _, _, hi => .inl hi
  | (k, v) :: rest, next, i, hi => by
      have hk := identities_place k next i
      have hv := identities_place v (k.place next).2 i
      have hrest := identities_placeEntries rest (v.place (k.place next).2).2 i
      have hle := le_place v (k.place next).2
      have hle' := le_placeEntries rest (v.place (k.place next).2).2
      simp only [placeEntries, entryIdentities, List.mem_append] at hi ⊢
      grind

theorem identities_placeAttributes : ∀ (attributes : List (String × Value)) (next : Identity),
    ∀ i ∈ attributeIdentities (placeAttributes attributes next).1,
      i ∈ attributeIdentities attributes ∨ i < (placeAttributes attributes next).2
  | [], _, _, hi => .inl hi
  | (name, v) :: rest, next, i, hi => by
      have hv := identities_place v next i
      have hrest := identities_placeAttributes rest (v.place next).2 i
      have hle := le_placeAttributes rest (v.place next).2
      simp only [placeAttributes, attributeIdentities, List.mem_append] at hi ⊢
      grind

end

mutual

theorem place_eq_self : ∀ (v : Value) (next : Identity), 0 ∉ v.identities → v.place next = (v, next)
  | list id items, next, h => by
      simp only [identities, List.mem_cons, not_or] at h
      rw [place, placeAll_eq_self items next h.2]
      exact if_neg (Ne.symm h.1)
  | tuple items, next, h => by rw [place, placeAll_eq_self items next h]
  | map entries, next, h => by rw [place, placeEntries_eq_self entries next h]
  | object id className attributes, next, h => by
      simp only [identities, List.mem_cons, not_or] at h
      rw [place, placeAttributes_eq_self attributes next h.2]
      exact if_neg (Ne.symm h.1)
  | null, _, _ | bool _, _, _ | int _, _, _ | double _, _, _ | float _, _, _ | decimal _, _, _
  | str _, _, _ | code _, _, _ | date _, _, _ | bytes _, _, _ | handle _, _, _
  | callable _, _, _ | token _, _, _ | nodeKind _, _, _ => rfl

theorem placeAll_eq_self : ∀ (xs : List Value) (next : Identity), 0 ∉ identitiesAll xs →
    placeAll xs next = (xs, next)
  | [], _, _ => rfl
  | x :: xs, next, h => by
      simp only [identitiesAll, List.mem_append, not_or] at h
      rw [placeAll, place_eq_self x next h.1]
      dsimp only
      rw [placeAll_eq_self xs next h.2]

theorem placeEntries_eq_self : ∀ (entries : List (Value × Value)) (next : Identity),
    0 ∉ entryIdentities entries → placeEntries entries next = (entries, next)
  | [], _, _ => rfl
  | (k, v) :: rest, next, h => by
      simp only [entryIdentities, List.mem_append, not_or] at h
      rw [placeEntries, place_eq_self k next h.1.1]
      dsimp only
      rw [place_eq_self v next h.1.2]
      dsimp only
      rw [placeEntries_eq_self rest next h.2]

theorem placeAttributes_eq_self : ∀ (attributes : List (String × Value)) (next : Identity),
    0 ∉ attributeIdentities attributes → placeAttributes attributes next = (attributes, next)
  | [], _, _ => rfl
  | (name, v) :: rest, next, h => by
      simp only [attributeIdentities, List.mem_append, not_or] at h
      rw [placeAttributes, place_eq_self v next h.1]
      dsimp only
      rw [placeAttributes_eq_self rest next h.2]

end

end Value

/-- The identities in a change. -/
def Change.identities : Change → List Identity
  | items id contents => id :: Value.identitiesAll contents
  | member (.object id) _ value => id :: value.identities
  | member (.handle _) _ value => value.identities

theorem Change.rename_eq_self {ρ : Renaming} (c : Change) (h : ∀ i ∈ c.identities, ρ i = i) :
    c.rename ρ = c := by
  cases c with
  | items id contents =>
      simp only [identities, List.mem_cons, forall_eq_or_imp] at h
      rw [rename, h.1, Value.renameAll_eq_self contents h.2]
  | member owner name value =>
      cases owner with
      | object id =>
          simp only [identities, List.mem_cons, forall_eq_or_imp] at h
          rw [rename, Owner.rename, h.1, value.rename_eq_self h.2]
      | handle handle => rw [rename, Owner.rename, value.rename_eq_self h]

end Identities

end HostedLisp
