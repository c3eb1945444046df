import Mathlib.Data.List.Permutation
import HostedLisp.Proofs.Number.Magnitude
import HostedLisp.Value.Equality

/-!
Equality of runtime values. Main statement: on values that contain nothing that is not a number, the
equality that scripts see is an equivalence relation, which keeps null and the scalar kinds apart
and compares the numbers in containers by their exact values.
-/

namespace HostedLisp

open Number

/-- In a list that is at least as long as another one, and whose items have partners in that one
that are not shared, each item of the other list is a partner. -/
theorem exists_partner {α β : Type} {R : α → β → Prop} {xs : List α} {ys : List β}
    (hlength : ys.length ≤ xs.length) (hpartner : ∀ x ∈ xs, ∃ y ∈ ys, R x y)
    (hdistinct : xs.Pairwise fun x x' => ∀ y ∈ ys, R x y → ¬ R x' y) :
    ∀ y ∈ ys, ∃ x ∈ xs, R x y := by
  induction xs generalizing ys with
  | nil =>
      obtain rfl := List.length_eq_zero_iff.mp (Nat.le_zero.mp hlength)
      exact List.forall_mem_nil _
  | cons x xs ih =>
      obtain ⟨hx, hxs⟩ := List.pairwise_cons.mp hdistinct
      obtain ⟨y, hy, hxy⟩ := hpartner x List.mem_cons_self
      obtain ⟨before, after, rfl⟩ := List.append_of_mem hy
      -- The other items have their partners among the rest.
      have hmem {z : β} : z ∈ before ++ y :: after ↔ z = y ∨ z ∈ before ++ after := by
        simp only [List.mem_append, List.mem_cons]
        grind
      have hrest : ∀ x' ∈ xs, ∃ z ∈ before ++ after, R x' z := by
        intro x' hx'
        obtain ⟨z, hz, hxz⟩ := hpartner x' (List.mem_cons_of_mem x hx')
        rcases hmem.mp hz with rfl | hz
        · exact absurd hxz (hx x' hx' z hy hxy)
        · exact ⟨z, hz, hxz⟩
      have hlength' : (before ++ after).length ≤ xs.length := by
        simp only [List.length_append, List.length_cons] at hlength ⊢
        omega
      intro z hz
      rcases hmem.mp hz with rfl | hz
      · exact ⟨x, List.mem_cons_self, hxy⟩
      · obtain ⟨x', hx', hxz⟩ := ih hlength' hrest
          (hxs.imp fun h z hz => h z (hmem.mpr (.inr hz))) z hz
        exact ⟨x', List.mem_cons_of_mem x hx', hxz⟩

/-- Whether a literal is not something that is not a number. -/
def Literal.Ordinary : Literal → Prop
  | decimal d => d.magnitude? ≠ none
  | double x => x.magnitude? ≠ none
  | float x => x.magnitude? ≠ none
  | _ => True

namespace Literal

theorem same_comm (a b : Literal) : a.same b = b.same a := by
  cases a <;> cases b <;> simp [same, Exact.same_comm, Bool.beq_comm]

theorem same_trans {a b c : Literal} (hab : a.same b = true) (hbc : b.same c = true) :
    a.same c = true := by
  cases a with
  | decimal x | double x | float x =>
      cases b <;> cases c <;> first | cases hab | cases hbc | exact Exact.same_trans hab hbc
  | _ =>
      cases b <;> cases c <;> simp_all [same]

theorem same_self {a : Literal} (h : a.Ordinary) : a.same a = true := by
  cases a with
  | decimal d => exact (Exact.same_iff (Exact.represents_ofDecimal? d)
      (Exact.represents_ofDecimal? d)).mpr ⟨h, rfl⟩
  | double x | float x => exact (Exact.same_iff (Exact.represents_ofBinary? x)
      (Exact.represents_ofBinary? x)).mpr ⟨h, rfl⟩
  | _ => simp [same]

end Literal

namespace Node

mutual

/-- Whether a node contains nothing that is not a number. -/
def Ordinary : Node → Prop
  | quote inner _ => Ordinary inner
  | invocation head parameters _ => Ordinary head ∧ AllOrdinary parameters
  | list items _ => AllOrdinary items
  | literal value _ => value.Ordinary
  | _ => True

/-- Whether nodes contain nothing that is not a number. -/
def AllOrdinary : List Node → Prop
  | [] => True
  | x :: xs => Ordinary x ∧ AllOrdinary xs

end

mutual

theorem same_comm : ∀ x y : Node, x.same y = y.same x
  | quote a _, y => by
      cases y with
      | quote b _ => exact same_comm a b
      | _ => rfl
  | invocation h ps _, y => by
      cases y with
      | invocation k qs _ => exact congrArg₂ and (same_comm h k) (sameAll_comm ps qs)
      | _ => rfl
  | list xs _, y => by
      cases y with
      | list ys _ => exact sameAll_comm xs ys
      | _ => rfl
  | literal a _, y => by
      cases y with
      | literal b _ => exact a.same_comm b
      | _ => rfl
  | error m _, y | identifier m _, y | instanceMember m _, y | staticMember _ m _, y => by
      cases y <;> simp [same, Bool.beq_comm]

theorem sameAll_comm : ∀ xs ys : List Node, sameAll xs ys = sameAll ys xs
  | [], ys => by cases ys <;> rfl
  | x :: xs, ys => by
      cases ys with
      | nil => rfl
      | cons y ys => exact congrArg₂ and (same_comm x y) (sameAll_comm xs ys)

end

mutual

theorem same_trans : ∀ {x y z : Node}, x.same y = true → y.same z = true → x.same z = true
  | quote a _, y, z, hxy, hyz => by
      cases y with
      | quote b _ =>
          cases z with
          | quote c _ => exact same_trans (x := a) (y := b) hxy hyz
          | _ => cases hyz
      | _ => cases hxy
  | invocation h ps _, y, z, hxy, hyz => by
      cases y with
      | invocation k qs _ =>
          cases z with
          | invocation l rs _ =>
              rw [same, Bool.and_eq_true] at hxy hyz ⊢
              exact ⟨same_trans hxy.1 hyz.1, sameAll_trans hxy.2 hyz.2⟩
          | _ => cases hyz
      | _ => cases hxy
  | list xs _, y, z, hxy, hyz => by
      cases y with
      | list ys _ =>
          cases z with
          | list zs _ =>
              have hitems : sameAll xs ys = true := hxy
              exact sameAll_trans hitems hyz
          | _ => cases hyz
      | _ => cases hxy
  | literal a _, y, z, hxy, hyz => by
      cases y with
      | literal b _ =>
          cases z with
          | literal c _ => exact Literal.same_trans (a := a) (b := b) hxy hyz
          | _ => cases hyz
      | _ => cases hxy
  | error m _, y, z, hxy, hyz | identifier m _, y, z, hxy, hyz | instanceMember m _, y, z, hxy, hyz
  | staticMember _ m _, y, z, hxy, hyz => by
      cases y <;> cases z <;> simp_all [same]

theorem sameAll_trans : ∀ {xs ys zs : List Node}, sameAll xs ys = true → sameAll ys zs = true →
    sameAll xs zs = true
  | [], [], _, _, h => h
  | x :: xs, y :: ys, z :: zs, hxy, hyz => by
      simp only [sameAll, Bool.and_eq_true] at hxy hyz ⊢
      exact ⟨same_trans hxy.1 hyz.1, sameAll_trans hxy.2 hyz.2⟩

end

mutual

theorem same_self : ∀ x : Node, x.Ordinary → x.same x = true
  | quote inner _, h => same_self inner h
  | invocation head parameters _, h => by
      rw [same, same_self head h.1, sameAll_self parameters h.2, Bool.and_self]
  | list items _, h => sameAll_self items h
  | literal value _, h => value.same_self h
  | error .., _ | identifier .., _ | instanceMember .., _ | staticMember .., _ => by simp [same]

theorem sameAll_self : ∀ xs : List Node, AllOrdinary xs → sameAll xs xs = true
  | [], _ => rfl
  | x :: xs, h => by rw [sameAll, same_self x h.1, sameAll_self xs h.2, Bool.and_self]

end

end Node

namespace Value

/-- The exact value of a number or truth value; values that are not numbers have none. -/
def magnitude? : Value → Option Magnitude
  | bool b => some (.finite (if b then 1 else 0))
  | int n => some (.finite n)
  | double x => x.magnitude?
  | float x => x.magnitude?
  | decimal d => d.magnitude?
  | _ => none

theorem represents_numeric? (v : Value) : Exact.Represents v.numeric? v.magnitude? := by
  cases v with
  | bool b =>
      have h := Exact.represents_ofInt (if b then 1 else 0)
      rwa [Int.cast_ite, Int.cast_one, Int.cast_zero] at h
  | int n => exact Exact.represents_ofInt n
  | double x | float x => exact Exact.represents_ofBinary? x
  | decimal d => exact Exact.represents_ofDecimal? d
  | _ => exact Exact.represents_none

/-- What a value without parts is compared by. -/
inductive Atom where
  | null
  | number (value : Magnitude)
  | text (value : String)
  | date (value : Date)
  | bytes (value : List UInt8)
  | object (id : Identity)
  | handle (value : Handle)
  | callable (name : String)
  | token (value : Token)
  | nodeKind (value : NodeKind)

/-- What a value is compared by as a whole; values with parts, and what is not a number, are not
compared so. -/
def atom? : Value → Option Atom
  | null => some .null
  | str s => some (.text s)
  | date d => some (.date d)
  | bytes b => some (.bytes b)
  | object id _ _ => some (.object id)
  | handle h => some (.handle h)
  | callable name => some (.callable name)
  | token t => some (.token t)
  | nodeKind k => some (.nodeKind k)
  | v => v.magnitude?.map .number

theorem atom?_eq_number_iff {v : Value} {q : Magnitude} :
    v.atom? = some (.number q) ↔ v.magnitude? = some q := by
  cases v <;> simp [atom?, magnitude?]

theorem same_iff_of_atom? {x y : Value} {a : Atom} (h : x.atom? = some a) :
    x.same y = true ↔ y.atom? = some a := by
  have hnumber : ∀ q, x.magnitude? = some q →
      (Exact.same x.numeric? y.numeric? = true ↔ y.atom? = some (.number q)) := by
    intro q hq
    rw [Exact.same_iff x.represents_numeric? y.represents_numeric?, atom?_eq_number_iff, hq]
    simp [eq_comm]
  cases x with
  | bool | int =>
      cases h
      exact hnumber _ rfl
  | double | float | decimal =>
      have hmap : Option.map Atom.number _ = some a := h
      obtain ⟨q, hq, rfl⟩ := Option.map_eq_some_iff.mp hmap
      exact hnumber q hq
  | list | tuple | map | code => cases h
  | _ =>
      cases h
      cases y <;> simp [same, atom?, isNull, magnitude?] <;> exact eq_comm

theorem sameItems_iff {xs ys : List Value} :
    sameItems xs ys = true ↔ List.Forall₂ (fun x y => x.same y = true) xs ys := by
  induction xs generalizing ys with
  | nil => cases ys <;> simp [sameItems]
  | cons x xs ih => cases ys <;> simp [sameItems, ih]

/-- The ways for two values to be the same. -/
inductive SameAs : Value → Value → Prop where
  | atom {x y : Value} {a : Atom} (hx : x.atom? = some a) (hy : y.atom? = some a) : SameAs x y
  | list {i j : Identity} {xs ys : List Value}
      (h : List.Forall₂ (fun x y => x.same y = true) xs ys) : SameAs (list i xs) (list j ys)
  | tuple {xs ys : List Value} (h : List.Forall₂ (fun x y => x.same y = true) xs ys) :
      SameAs (tuple xs) (tuple ys)
  | map {xs ys : List (Value × Value)} (hlength : xs.length = ys.length)
      (h : sameEntries xs ys = true) : SameAs (map xs) (map ys)
  | code {x y : Node} (h : x.same y = true) : SameAs (code x) (code y)

theorem same_iff_sameAs {x y : Value} : x.same y = true ↔ SameAs x y := by
  constructor
  · intro h
    have hnumber : Exact.same x.numeric? y.numeric? = true → SameAs x y := by
      intro hsame
      rw [Exact.same_iff x.represents_numeric? y.represents_numeric?] at hsame
      obtain ⟨q, hq⟩ := Option.ne_none_iff_exists'.mp hsame.1
      exact .atom (atom?_eq_number_iff.mpr hq) (atom?_eq_number_iff.mpr (hsame.2 ▸ hq))
    cases x with
    | bool | int | double | float | decimal => exact hnumber h
    | list i xs =>
        cases y with
        | list j ys => exact .list (sameItems_iff.mp h)
        | _ => cases h
    | tuple xs =>
        cases y with
        | tuple ys => exact .tuple (sameItems_iff.mp h)
        | _ => cases h
    | map xs =>
        cases y with
        | map ys =>
            rw [same, Bool.and_eq_true, beq_iff_eq] at h
            exact .map h.1 h.2
        | _ => cases h
    | code x =>
        cases y with
        | code y => exact .code h
        | _ => cases h
    | _ => exact .atom rfl ((same_iff_of_atom? rfl).mp h)
  · intro h
    cases h with
    | atom hx hy => exact (same_iff_of_atom? hx).mpr hy
    | list h => exact sameItems_iff.mpr h
    | tuple h => exact sameItems_iff.mpr h
    | map hlength h => rw [same, hlength, h, beq_self_eq_true, Bool.and_self]
    | code h => exact h

/-- Whether no two entries have the same key. -/
def DistinctKeys (entries : List (Value × Value)) : Prop :=
  entries.Pairwise fun e e' => e.1.same e'.1 = false

mutual

/-- Whether a value contains nothing that is not a number, and no map with two entries for a key. -/
def Ordinary : Value → Prop
  | double x => x.magnitude? ≠ none
  | float x => x.magnitude? ≠ none
  | decimal d => d.magnitude? ≠ none
  | list _ items => AllOrdinary items
  | tuple items => AllOrdinary items
  | map entries => DistinctKeys entries ∧ EntriesOrdinary entries
  | code x => x.Ordinary
  | _ => True
termination_by structural v => v

/-- Whether the values contain nothing that is not a number and no map with two entries for a
key. -/
def AllOrdinary : List Value → Prop
  | [] => True
  | x :: xs => Ordinary x ∧ AllOrdinary xs
termination_by structural xs => xs

/-- Whether the keys and values of a map contain nothing that is not a number and no map with two
entries for a key. -/
def EntriesOrdinary : List (Value × Value) → Prop
  | [] => True
  | (k, v) :: rest => Ordinary k ∧ Ordinary v ∧ EntriesOrdinary rest
termination_by structural xs => xs

end

theorem allOrdinary_iff {xs : List Value} : AllOrdinary xs ↔ ∀ x ∈ xs, x.Ordinary := by
  induction xs with
  | nil => simp [AllOrdinary]
  | cons x xs ih => simp [AllOrdinary, ih]

theorem entriesOrdinary_iff {entries : List (Value × Value)} :
    EntriesOrdinary entries ↔ ∀ e ∈ entries, e.1.Ordinary ∧ e.2.Ordinary := by
  induction entries with
  | nil => simp [EntriesOrdinary]
  | cons e rest ih => simp [EntriesOrdinary, ih, and_assoc]

/-- Whether each entry has one with the same key and the same value in a second list. -/
def Covered (xs ys : List (Value × Value)) : Prop :=
  ∀ e ∈ xs, ∃ e' ∈ ys, e.1.same e'.1 = true ∧ e.2.same e'.2 = true

/-- Whether sameness can be turned round and composed among some values. -/
structure Consistent (P : Value → Prop) : Prop where
  symm : ∀ {x y}, P x → P y → x.same y = true → y.same x = true
  trans : ∀ {x y z}, P x → P y → P z → x.same y = true → y.same z = true → x.same z = true

namespace Consistent

variable {P : Value → Prop} (h : Consistent P)
include h

section Items

variable {xs ys zs : List Value}

theorem symm_items (hxs : ∀ x ∈ xs, P x) (hys : ∀ y ∈ ys, P y)
    (hsame : List.Forall₂ (fun x y => x.same y = true) xs ys) :
    List.Forall₂ (fun x y => x.same y = true) ys xs := by
  induction hsame with
  | nil => exact .nil
  | cons hxy _ ih =>
      obtain ⟨hx, hxs⟩ := List.forall_mem_cons.mp hxs
      obtain ⟨hy, hys⟩ := List.forall_mem_cons.mp hys
      exact .cons (h.symm hx hy hxy) (ih hxs hys)

theorem trans_items (hxs : ∀ x ∈ xs, P x) (hys : ∀ y ∈ ys, P y) (hzs : ∀ z ∈ zs, P z)
    (hxy : List.Forall₂ (fun x y => x.same y = true) xs ys)
    (hyz : List.Forall₂ (fun x y => x.same y = true) ys zs) :
    List.Forall₂ (fun x y => x.same y = true) xs zs := by
  induction hxy generalizing zs with
  | nil => exact hyz
  | cons hxy _ ih =>
      cases hyz with
      | cons hyz hrest =>
          obtain ⟨hx, hxs⟩ := List.forall_mem_cons.mp hxs
          obtain ⟨hy, hys⟩ := List.forall_mem_cons.mp hys
          obtain ⟨hz, hzs⟩ := List.forall_mem_cons.mp hzs
          exact .cons (h.trans hx hy hz hxy hyz) (ih hxs hys hzs hrest)

end Items

section Entries

variable {xs ys zs : List (Value × Value)}

theorem eq_of_same_key (hkeys : DistinctKeys ys) (hys : ∀ e ∈ ys, P e.1) {e e' : Value × Value}
    (he : e ∈ ys) (he' : e' ∈ ys) (hsame : e.1.same e'.1 = true) : e = e' := by
  by_contra hne
  let apart (e e' : Value × Value) : Prop := e.1.same e'.1 = false ∨ e'.1.same e.1 = false
  have hsymm : Std.Symm apart := ⟨fun _ _ => Or.symm⟩
  have hapart : ys.Pairwise apart := List.Pairwise.imp .inl hkeys
  rcases hapart.forall he he' hne with hf | hf
  · rw [hsame] at hf
    cases hf
  · rw [h.symm (hys e he) (hys e' he') hsame] at hf
    cases hf

theorem sameEntries_iff (hkeys : DistinctKeys ys) (hxs : ∀ e ∈ xs, P e.1) (hys : ∀ e ∈ ys, P e.1) :
    sameEntries xs ys = true ↔ Covered xs ys := by
  induction xs with
  | nil => simp [sameEntries, Covered]
  | cons e rest ih =>
      obtain ⟨k, v⟩ := e
      obtain ⟨hk, hrest⟩ := List.forall_mem_cons.mp hxs
      rw [sameEntries, Bool.and_eq_true, ih hrest, Covered, Covered, List.forall_mem_cons]
      refine and_congr_left fun _ => ?_
      cases hfind : ys.find? fun e => k.same e.1 with
      | none =>
          simp only [Bool.false_eq_true, false_iff]
          rintro ⟨e, he, hsame, -⟩
          exact absurd hsame (by simpa using List.find?_eq_none.mp hfind e he)
      | some e =>
          have he := List.mem_of_find?_eq_some hfind
          have hsame : k.same e.1 = true := by simpa using List.find?_some hfind
          constructor
          · intro hv
            exact ⟨e, he, hsame, hv⟩
          · rintro ⟨e', he', hsame', hv⟩
            have hee : e.1.same e'.1 = true :=
              h.trans (hys e he) hk (hys e' he') (h.symm hk (hys e he) hsame) hsame'
            rwa [h.eq_of_same_key hkeys hys he he' hee]

theorem symm_entries (hkeys : DistinctKeys xs) (hxs : ∀ e ∈ xs, P e.1 ∧ P e.2)
    (hys : ∀ e ∈ ys, P e.1 ∧ P e.2) (hlength : xs.length = ys.length) (hsame : Covered xs ys) :
    Covered ys xs := by
  -- Entries with a common partner would have the same key.
  have hdistinct : xs.Pairwise fun e e' => ∀ f ∈ ys,
      e.1.same f.1 = true ∧ e.2.same f.2 = true →
        ¬ (e'.1.same f.1 = true ∧ e'.2.same f.2 = true) := by
    refine (List.pairwise_iff_forall_sublist.mpr fun {e e'} hsub f hf hef hef' => ?_)
    have he := hxs e (hsub.subset (by simp))
    have he' := hxs e' (hsub.subset (by simp))
    have hkey := List.pairwise_iff_forall_sublist.mp hkeys hsub
    have hback := h.symm he'.1 (hys f hf).1 hef'.1
    rw [h.trans he.1 (hys f hf).1 he'.1 hef.1 hback] at hkey
    cases hkey
  intro f hf
  obtain ⟨e, he, hkey, hvalue⟩ := exists_partner hlength.ge hsame hdistinct f hf
  exact ⟨e, he, h.symm (hxs e he).1 (hys f hf).1 hkey, h.symm (hxs e he).2 (hys f hf).2 hvalue⟩

theorem trans_entries (hxs : ∀ e ∈ xs, P e.1 ∧ P e.2) (hys : ∀ e ∈ ys, P e.1 ∧ P e.2)
    (hzs : ∀ e ∈ zs, P e.1 ∧ P e.2) (hxy : Covered xs ys) (hyz : Covered ys zs) :
    Covered xs zs := by
  intro e he
  obtain ⟨f, hf, hkey, hvalue⟩ := hxy e he
  obtain ⟨g, hg, hkey', hvalue'⟩ := hyz f hf
  exact ⟨g, hg, h.trans (hxs e he).1 (hys f hf).1 (hzs g hg).1 hkey hkey',
    h.trans (hxs e he).2 (hys f hf).2 (hzs g hg).2 hvalue hvalue'⟩

end Entries

end Consistent

/-- The ordinary values up to a size. -/
def OrdinaryBelow (n : Nat) (v : Value) : Prop := v.Ordinary ∧ sizeOf v < n

section Parts

variable {n : Nat} {i : Identity} {xs : List Value} {entries : List (Value × Value)}

theorem ordinaryBelow_of_mem_list (h : OrdinaryBelow (n + 1) (list i xs)) {x : Value}
    (hx : x ∈ xs) : OrdinaryBelow n x := by
  obtain ⟨hordinary, hsize⟩ := h
  have hlt := List.sizeOf_lt_of_mem hx
  rw [list.sizeOf_spec] at hsize
  exact ⟨allOrdinary_iff.mp hordinary x hx, by omega⟩

theorem ordinaryBelow_of_mem_tuple (h : OrdinaryBelow (n + 1) (tuple xs)) {x : Value}
    (hx : x ∈ xs) : OrdinaryBelow n x := by
  obtain ⟨hordinary, hsize⟩ := h
  have hlt := List.sizeOf_lt_of_mem hx
  rw [tuple.sizeOf_spec] at hsize
  exact ⟨allOrdinary_iff.mp hordinary x hx, by omega⟩

theorem ordinaryBelow_of_mem_map (h : OrdinaryBelow (n + 1) (map entries)) {e : Value × Value}
    (he : e ∈ entries) : OrdinaryBelow n e.1 ∧ OrdinaryBelow n e.2 := by
  obtain ⟨⟨-, hordinary⟩, hsize⟩ := h
  obtain ⟨hkey, hvalue⟩ := entriesOrdinary_iff.mp hordinary e he
  have hlt := List.sizeOf_lt_of_mem he
  obtain ⟨k, v⟩ := e
  rw [map.sizeOf_spec] at hsize
  rw [Prod.mk.sizeOf_spec] at hlt
  exact ⟨⟨hkey, show sizeOf k < n by omega⟩, ⟨hvalue, show sizeOf v < n by omega⟩⟩

end Parts

theorem consistent_succ {n : Nat} (h : Consistent (OrdinaryBelow n)) :
    Consistent (OrdinaryBelow (n + 1)) where
  symm {x y} hx hy hxy := by
    rw [same_iff_sameAs] at hxy ⊢
    cases hxy with
    | atom hx hy => exact .atom hy hx
    | list hitems => exact .list (h.symm_items (fun _ => ordinaryBelow_of_mem_list hx)
        (fun _ => ordinaryBelow_of_mem_list hy) hitems)
    | tuple hitems => exact .tuple (h.symm_items (fun _ => ordinaryBelow_of_mem_tuple hx)
        (fun _ => ordinaryBelow_of_mem_tuple hy) hitems)
    | map hlength hentries =>
        have hxs := fun e => ordinaryBelow_of_mem_map (e := e) hx
        have hys := fun e => ordinaryBelow_of_mem_map (e := e) hy
        rw [h.sameEntries_iff hy.1.1 (fun e he => (hxs e he).1) fun e he => (hys e he).1]
          at hentries
        refine .map hlength.symm ?_
        rw [h.sameEntries_iff hx.1.1 (fun e he => (hys e he).1) fun e he => (hxs e he).1]
        exact h.symm_entries hx.1.1 hxs hys hlength hentries
    | code hnodes => exact .code ((Node.same_comm _ _).trans hnodes)
  trans {x y z} hx hy hz hxy hyz := by
    rw [same_iff_sameAs] at hxy hyz ⊢
    cases hxy with
    | atom hx hy =>
        cases hyz with
        | atom hy' hz => exact .atom hx (hz.trans (hy'.symm.trans hy))
        | _ => cases hy
    | list hitems =>
        cases hyz with
        | atom hy' _ => cases hy'
        | list hitems' => exact .list (h.trans_items (fun _ => ordinaryBelow_of_mem_list hx)
            (fun _ => ordinaryBelow_of_mem_list hy) (fun _ => ordinaryBelow_of_mem_list hz)
            hitems hitems')
    | tuple hitems =>
        cases hyz with
        | atom hy' _ => cases hy'
        | tuple hitems' => exact .tuple (h.trans_items (fun _ => ordinaryBelow_of_mem_tuple hx)
            (fun _ => ordinaryBelow_of_mem_tuple hy) (fun _ => ordinaryBelow_of_mem_tuple hz)
            hitems hitems')
    | map hlength hentries =>
        cases hyz with
        | atom hy' _ => cases hy'
        | map hlength' hentries' =>
            have hxs := fun e => ordinaryBelow_of_mem_map (e := e) hx
            have hys := fun e => ordinaryBelow_of_mem_map (e := e) hy
            have hzs := fun e => ordinaryBelow_of_mem_map (e := e) hz
            rw [h.sameEntries_iff hy.1.1 (fun e he => (hxs e he).1) fun e he => (hys e he).1]
              at hentries
            rw [h.sameEntries_iff hz.1.1 (fun e he => (hys e he).1) fun e he => (hzs e he).1]
              at hentries'
            refine .map (hlength.trans hlength') ?_
            rw [h.sameEntries_iff hz.1.1 (fun e he => (hxs e he).1) fun e he => (hzs e he).1]
            exact h.trans_entries hxs hys hzs hentries hentries'
    | code hnodes =>
        cases hyz with
        | atom hy' _ => cases hy'
        | code hnodes' => exact .code (Node.same_trans hnodes hnodes')

theorem consistent_ordinaryBelow (n : Nat) : Consistent (OrdinaryBelow n) := by
  -- On the size, since keys and values of both maps are compared with each other both ways.
  induction n with
  | zero =>
      exact ⟨fun hx => absurd hx.2 (Nat.not_lt_zero _), fun hx => absurd hx.2 (Nat.not_lt_zero _)⟩
  | succ n ih => exact consistent_succ ih

theorem consistent_ordinary : Consistent Ordinary where
  symm {x y} hx hy := by
    let n := sizeOf x + sizeOf y + 1
    exact (consistent_ordinaryBelow n).symm ⟨hx, by omega⟩ ⟨hy, by omega⟩
  trans {x y z} hx hy hz := by
    let n := sizeOf x + sizeOf y + sizeOf z + 1
    exact (consistent_ordinaryBelow n).trans ⟨hx, by omega⟩ ⟨hy, by omega⟩ ⟨hz, by omega⟩

mutual

theorem same_self : ∀ v : Value, v.Ordinary → v.same v = true
  | list _ items, h => sameItems_self items h
  | tuple items, h => sameItems_self items h
  | map entries, h => by
      have hall := entriesOrdinary_iff.mp h.2
      rw [same, beq_self_eq_true, Bool.true_and, consistent_ordinary.sameEntries_iff h.1
        (fun e he => (hall e he).1) fun e he => (hall e he).1]
      exact covered_self entries h.2
  | code x, h => x.same_self h
  | double x, h => (Exact.same_iff (Exact.represents_ofBinary? x)
      (Exact.represents_ofBinary? x)).mpr ⟨h, rfl⟩
  | float x, h => (Exact.same_iff (Exact.represents_ofBinary? x)
      (Exact.represents_ofBinary? x)).mpr ⟨h, rfl⟩
  | decimal d, h => (Exact.same_iff (Exact.represents_ofDecimal? d)
      (Exact.represents_ofDecimal? d)).mpr ⟨h, rfl⟩
  | null, _ | bool _, _ | int _, _ | str _, _ | date _, _ | bytes _, _ | object .., _ | handle _, _
  | callable _, _ | token _, _ | nodeKind _, _ => (same_iff_of_atom? rfl).mpr rfl

theorem sameItems_self : ∀ xs : List Value, AllOrdinary xs → sameItems xs xs = true
  | [], _ => rfl
  | x :: xs, h => by rw [sameItems, same_self x h.1, sameItems_self xs h.2, Bool.and_self]

theorem covered_self : ∀ entries : List (Value × Value), EntriesOrdinary entries →
    Covered entries entries
  | [], _ => List.forall_mem_nil _
  | (k, v) :: rest, h => by
      refine List.forall_mem_cons.mpr ⟨⟨(k, v), List.mem_cons_self, same_self k h.1,
        same_self v h.2.1⟩, fun e he => ?_⟩
      obtain ⟨e', he', hsame⟩ := covered_self rest h.2.2 e he
      exact ⟨e', List.mem_cons_of_mem _ he', hsame⟩

end

section Maps

variable {entries : List (Value × Value)}

theorem mem_insertEntry {key value : Value} {e : Value × Value}
    (he : e ∈ insertEntry key value entries) :
    (e.1 = key ∨ ∃ v, (e.1, v) ∈ entries) ∧ (e.2 = value ∨ ∃ k, (k, e.2) ∈ entries) := by
  induction entries with
  | nil =>
      obtain rfl := List.mem_singleton.mp he
      exact ⟨.inl rfl, .inl rfl⟩
  | cons first rest ih =>
      obtain ⟨k, v⟩ := first
      rw [insertEntry] at he
      split at he
      · rcases List.mem_cons.mp he with rfl | he
        · exact ⟨.inr ⟨v, List.mem_cons_self⟩, .inl rfl⟩
        · exact ⟨.inr ⟨e.2, List.mem_cons_of_mem _ he⟩, .inr ⟨e.1, List.mem_cons_of_mem _ he⟩⟩
      · rcases List.mem_cons.mp he with rfl | he
        · exact ⟨.inr ⟨v, List.mem_cons_self⟩, .inr ⟨k, List.mem_cons_self⟩⟩
        · obtain ⟨hkey, hvalue⟩ := ih he
          exact ⟨hkey.imp_right (Exists.imp fun _ hw => List.mem_cons_of_mem _ hw),
            hvalue.imp_right (Exists.imp fun _ hw => List.mem_cons_of_mem _ hw)⟩

theorem distinctKeys_insertEntry (h : DistinctKeys entries) (key value : Value) :
    DistinctKeys (insertEntry key value entries) := by
  induction entries with
  | nil => exact List.pairwise_singleton _ _
  | cons first rest ih =>
      obtain ⟨k, v⟩ := first
      obtain ⟨hfirst, hrest⟩ := List.pairwise_cons.mp h
      rw [insertEntry]
      split
      · exact List.pairwise_cons.mpr ⟨hfirst, hrest⟩
      · rename_i hk
        refine List.pairwise_cons.mpr ⟨fun e he => ?_, ih hrest⟩
        rcases (mem_insertEntry he).1 with hkey | ⟨w, hw⟩
        · rw [hkey]
          exact Bool.eq_false_iff.mpr hk
        · exact hfirst (e.1, w) hw

theorem distinctKeys_foldl_insertEntry (hentries : DistinctKeys entries)
    (context : List (Value × Value)) :
    DistinctKeys (context.foldl (fun names e => insertEntry e.1 e.2 names) entries) := by
  induction context generalizing entries with
  | nil => exact hentries
  | cons first rest ih => exact ih (distinctKeys_insertEntry hentries first.1 first.2)

theorem entriesOrdinary_insertEntry {key value : Value} (h : EntriesOrdinary entries)
    (hkey : key.Ordinary) (hvalue : value.Ordinary) :
    EntriesOrdinary (insertEntry key value entries) := by
  have hall := entriesOrdinary_iff.mp h
  refine entriesOrdinary_iff.mpr fun e he => ?_
  obtain ⟨hk, hv⟩ := mem_insertEntry he
  constructor
  · rcases hk with hk | ⟨w, hw⟩
    · exact hk ▸ hkey
    · exact (hall _ hw).1
  · rcases hv with hv | ⟨w, hw⟩
    · exact hv ▸ hvalue
    · exact (hall _ hw).2

/-- A map that is built entry by entry has one entry for a key. -/
theorem ordinary_mapOf (h : EntriesOrdinary entries) : (mapOf entries).Ordinary := by
  refine ⟨distinctKeys_foldl_insertEntry .nil entries, ?_⟩
  suffices hfold : ∀ built, EntriesOrdinary built →
      EntriesOrdinary (entries.foldl (fun m e => insertEntry e.1 e.2 m) built) from hfold [] trivial
  induction entries with
  | nil => exact fun _ => id
  | cons e rest ih =>
      intro built hbuilt
      exact ih h.2.2 _ (entriesOrdinary_insertEntry hbuilt h.1 h.2.1)

end Maps

end Value

theorem valuesEqual_iff {a b : Value} :
    valuesEqual a b = true ↔ a.scalarKind? = b.scalarKind? ∧ a.same b = true := by
  unfold valuesEqual
  cases a <;> cases b <;> simp [Value.isNull, Value.scalarKind?, Value.same]

open Value in
/-- The equality of scripts is an equivalence relation on the values that contain nothing that is
not a number, and maps only with one entry for a key. It keeps null to itself and the kinds of
scalars apart; lists, tuples and maps are equal if their parts are the same, and a number is the
same as those of any kind with its exact value. -/
theorem valuesEqual_equivalence :
    Equivalence (fun a b : { v : Value // v.Ordinary } => valuesEqual a b = true) ∧
      (∀ a b, valuesEqual a b = true → (a = .null ↔ b = .null) ∧ a.scalarKind? = b.scalarKind?) ∧
      (∀ (x y : Value) q, x.magnitude? = some q → (x.same y = true ↔ y.magnitude? = some q)) ∧
      (∀ i j xs ys, valuesEqual (.list i xs) (.list j ys) = true ↔
        List.Forall₂ (fun x y => x.same y = true) xs ys) ∧
      (∀ xs ys, valuesEqual (.tuple xs) (.tuple ys) = true ↔
        List.Forall₂ (fun x y => x.same y = true) xs ys) ∧
      ∀ xs ys, (Value.map xs).Ordinary → (Value.map ys).Ordinary →
        (valuesEqual (.map xs) (.map ys) = true ↔ xs.length = ys.length ∧ Covered xs ys) := by
  refine ⟨⟨?refl, ?symm, ?trans⟩, ?kinds, ?numbers, ?lists, ?tuples, ?maps⟩
  case refl =>
    intro a
    exact valuesEqual_iff.mpr ⟨rfl, same_self a.1 a.2⟩
  case symm =>
    intro a b h
    obtain ⟨hkind, hsame⟩ := valuesEqual_iff.mp h
    exact valuesEqual_iff.mpr ⟨hkind.symm, consistent_ordinary.symm a.2 b.2 hsame⟩
  case trans =>
    intro a b c hab hbc
    obtain ⟨hkind, hsame⟩ := valuesEqual_iff.mp hab
    obtain ⟨hkind', hsame'⟩ := valuesEqual_iff.mp hbc
    exact valuesEqual_iff.mpr ⟨hkind.trans hkind',
      consistent_ordinary.trans a.2 b.2 c.2 hsame hsame'⟩
  case kinds =>
    intro a b h
    obtain ⟨hkind, hsame⟩ := valuesEqual_iff.mp h
    refine ⟨⟨?_, ?_⟩, hkind⟩
    · rintro rfl
      cases b <;> first | rfl | cases hsame
    · rintro rfl
      cases a <;> first | rfl | cases hsame | cases hkind
  case numbers =>
    intro x y q hx
    rw [same_iff_of_atom? (atom?_eq_number_iff.mpr hx), atom?_eq_number_iff]
  case lists =>
    intro i j xs ys
    rw [valuesEqual_iff, ← sameItems_iff]
    exact and_iff_right rfl
  case tuples =>
    intro xs ys
    rw [valuesEqual_iff, ← sameItems_iff]
    exact and_iff_right rfl
  case maps =>
    intro xs ys hxs hys
    have hx := entriesOrdinary_iff.mp hxs.2
    have hy := entriesOrdinary_iff.mp hys.2
    rw [valuesEqual_iff, same, Bool.and_eq_true, beq_iff_eq, consistent_ordinary.sameEntries_iff
      hys.1 (fun e he => (hx e he).1) fun e he => (hy e he).1]
    exact and_iff_right rfl

open Value in
/-- Maps that are the same but for the kinds of their numbers and the order of their entries: each
equals the next, and so the first the last. -/
theorem valuesEqual_equivalence_of_mixed_maps :
    let quoted (coefficient : Nat) (exponent : Int) : Value :=
      .code (.quote (.literal (.decimal (.finite false coefficient exponent)) .absent) .absent)
    let a : Value := mapOf [(.int 1, .list 1 [.decimal (.finite false 250 (-2)), quoted 3 0]),
      (.str "all", .tuple [.double (.infinite false), .null])]
    let b : Value := mapOf [(.str "all", .tuple [.float (.infinite false), .null]),
      (.bool true, .list 2 [.double (.finite false 5 (-1)), quoted 30 (-1)])]
    let c : Value := mapOf [(.decimal (.finite false 100 (-2)),
      .list 3 [.float (.finite false 5 (-1)), quoted 300 (-2)]),
      (.str "all", .tuple [.decimal (.infinite false), .null])]
    valuesEqual a b = true ∧ valuesEqual b c = true ∧ valuesEqual a c = true := by
  intro quoted a b c
  have hab : valuesEqual a b = true := by cbv
  have hbc : valuesEqual b c = true := by cbv
  have ha : a.Ordinary := ordinary_mapOf (by
    simp [EntriesOrdinary, AllOrdinary, Ordinary, quoted, Node.Ordinary, Literal.Ordinary,
      Decimal.magnitude?, Binary.magnitude?])
  have hb : b.Ordinary := ordinary_mapOf (by
    simp [EntriesOrdinary, AllOrdinary, Ordinary, quoted, Node.Ordinary, Literal.Ordinary,
      Decimal.magnitude?, Binary.magnitude?])
  have hc : c.Ordinary := ordinary_mapOf (by
    simp [EntriesOrdinary, AllOrdinary, Ordinary, quoted, Node.Ordinary, Literal.Ordinary,
      Decimal.magnitude?, Binary.magnitude?])
  obtain ⟨hequivalence, -⟩ := valuesEqual_equivalence
  exact ⟨hab, hbc, hequivalence.trans (x := ⟨a, ha⟩) (y := ⟨b, hb⟩) (z := ⟨c, hc⟩) hab hbc⟩

end HostedLisp
