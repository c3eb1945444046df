import Mathlib.Data.List.Nodup
import HostedLisp.Proofs.Evaluation.Chains

namespace HostedLisp

namespace Bindings

variable {bs : Bindings} {b c : Binding} {name : String}

theorem isSome_find?_iff : (bs.find? name).isSome = true ↔ name ∈ bs.names := by
  simp [find?, names]

theorem find?_eq_some_iff (hbs : bs.names.Nodup) :
    bs.find? name = some b ↔ b ∈ bs ∧ b.name = name := by
  constructor
  · intro h
    exact ⟨List.mem_of_find?_eq_some h, by simpa using List.find?_some h⟩
  · rintro ⟨hmem, rfl⟩
    obtain ⟨c, hc⟩ : ∃ c, bs.find? b.name = some c :=
      Option.isSome_iff_exists.mp (isSome_find?_iff.mpr (List.mem_map_of_mem hmem))
    have hname : c.name = b.name := by simpa using List.find?_some hc
    rwa [List.inj_on_of_nodup_map hbs (List.mem_of_find?_eq_some hc) hmem hname] at hc

theorem find?_insert (b : Binding) (bs : Bindings) (name : String) :
    (bs.insert b).find? name = if name = b.name then some b else bs.find? name := by
  induction bs with
  | nil =>
      by_cases hname : name = b.name
      · simp [insert, find?, hname]
      · simp [insert, find?, hname, Ne.symm hname]
  | cons c rest ih =>
      unfold find? at ih ⊢
      rw [insert]
      by_cases hc : c.name = b.name
      · by_cases hname : name = b.name
        · simp [hc, hname]
        · simp [hc, hname, Ne.symm hname]
      · by_cases hname : c.name = name
        · have hne : name ≠ b.name := hname ▸ hc
          simp [hname, hne]
        · simp [hc, hname, ih]

theorem names_insert (b : Binding) (bs : Bindings) :
    (bs.insert b).names = if b.name ∈ bs.names then bs.names else bs.names ++ [b.name] := by
  induction bs with
  | nil => rfl
  | cons c rest ih =>
      unfold names at ih ⊢
      rw [insert]
      by_cases hc : c.name = b.name
      · simp [hc]
      · have hne : b.name ≠ c.name := Ne.symm hc
        rw [if_neg hc, List.map_cons, ih, List.map_cons]
        simp only [List.mem_cons, hne, false_or]
        split <;> rfl

theorem nodup_insert (hbs : bs.names.Nodup) (b : Binding) : (bs.insert b).names.Nodup := by
  rw [names_insert]
  split
  · exact hbs
  · rename_i hnew
    simpa [List.nodup_append] using ⟨hbs, fun a ha (h : a = b.name) => hnew (h ▸ ha)⟩

theorem mem_insert (h : c ∈ bs.insert b) : c = b ∨ c ∈ bs := by
  induction bs with
  | nil => exact .inl (List.mem_singleton.mp h)
  | cons d rest ih =>
      rw [insert] at h
      split at h
      · exact (List.mem_cons.mp h).imp_right (List.mem_cons_of_mem _)
      · rcases List.mem_cons.mp h with rfl | h
        · exact .inr List.mem_cons_self
        · exact (ih h).imp_right (List.mem_cons_of_mem _)

end Bindings

namespace Binding

theorem ofText?_eq_ok_iff {name : String} {v : Value} {b : Binding} :
    ofText? name v = .ok b ↔ name ≠ "" ∧ ⟨name, none, v⟩ = b := by
  unfold ofText?
  by_cases h : name = ""
  · simp [h]
  · simp [h]

theorem value_of_ofText? {name : String} {v : Value} {b : Binding}
    (h : ofText? name v = .ok b) : b.value = v := by
  rw [← (ofText?_eq_ok_iff.mp h).2]

variable [HostClasses]

theorem declare_eq_ok_iff {b b' : Binding} {t : ValueType} :
    b.declare t = .ok b' ↔ b.value.suits? t = .ok true ∧ { b with declared := some t } = b' := by
  unfold declare
  cases b.value.suits? t with
  | error f => simp [bind, Except.bind]
  | ok suits => cases suits <;> simp [bind, Except.bind, pure, Except.pure]

theorem of?_eq_ok_iff {name v : Value} {declared : Option ValueType} {b : Binding} :
    of? name declared v = .ok b ↔
      ∃ text, name = .str text ∧ text ≠ "" ∧ (∀ t ∈ declared, v.suits? t = .ok true) ∧
        ⟨text, declared, v⟩ = b := by
  cases name with
  | str text =>
      rw [of?]
      by_cases htext : text = ""
      · have hfailed : ofText? text v = .error (notBindable (Text.quoted text)) :=
          if_pos (String.isEmpty_iff.mpr htext)
        rw [hfailed]
        refine ⟨nofun, ?_⟩
        rintro ⟨_, h, hne, -⟩
        cases h
        exact absurd htext hne
      · rw [ofText?_eq_ok_iff.mpr ⟨htext, rfl⟩]
        cases declared with
        | none => simp [bind, Except.bind, pure, Except.pure, htext]
        | some t =>
            refine declare_eq_ok_iff.trans ?_
            simp [htext]
  | _ =>
      refine ⟨fun h => ?_, nofun⟩
      dsimp only [of?] at h
      revert h
      cases Value.inspect? _ <;> nofun

theorem value_of_of? {name v : Value} {declared : Option ValueType} {b : Binding}
    (h : of? name declared v = .ok b) : b.value = v := by
  obtain ⟨_, -, -, -, rfl⟩ := of?_eq_ok_iff.mp h
  rfl

end Binding

theorem Scopes.mem_insert {s : Scopes} {i : Nat} {b c : Binding} {sc : Scope}
    (hsc : sc ∈ (s.insert i b).all) (hc : c ∈ sc.bindings) :
    c = b ∨ ∃ sc ∈ s.all, c ∈ sc.bindings := by
  obtain ⟨j, hj, rfl⟩ := List.mem_iff_getElem.mp hsc
  dsimp only [Scopes.insert] at hj hc
  rw [List.getElem_modify] at hc
  rw [List.length_modify] at hj
  split at hc
  · exact (Bindings.mem_insert hc).imp_right fun hold => ⟨_, List.getElem_mem hj, hold⟩
  · exact .inr ⟨_, List.getElem_mem hj, hc⟩

namespace Chain

section Flat

variable {flat : List (String × Value)} {n name : String} {v value : Value}

theorem keys_setName (name : String) (value : Value) (flat : List (String × Value)) :
    (setName name value flat).map Prod.fst =
      if name ∈ flat.map Prod.fst then flat.map Prod.fst else flat.map Prod.fst ++ [name] := by
  induction flat with
  | nil => rfl
  | cons e rest ih =>
      obtain ⟨n, v⟩ := e
      rw [setName]
      by_cases hn : n = name
      · simp [hn]
      · have hne : name ≠ n := Ne.symm hn
        rw [if_neg hn, List.map_cons, ih, List.map_cons]
        simp only [List.mem_cons, hne, false_or]
        split <;> rfl

theorem nodup_setName (hflat : (flat.map Prod.fst).Nodup) (name : String) (value : Value) :
    ((setName name value flat).map Prod.fst).Nodup := by
  rw [keys_setName]
  split
  · exact hflat
  · rename_i hnew
    simpa [List.nodup_append] using ⟨hflat, fun a w ha (h : a = name) =>
      hnew (h ▸ List.mem_map_of_mem ha)⟩

theorem mem_setName_iff (hflat : (flat.map Prod.fst).Nodup) :
    (n, v) ∈ setName name value flat ↔ (n = name ∧ v = value) ∨ (n ≠ name ∧ (n, v) ∈ flat) := by
  induction flat with
  | nil => simp [setName]
  | cons e rest ih =>
      obtain ⟨k, w⟩ := e
      obtain ⟨hk, hrest⟩ := List.nodup_cons.mp hflat
      rw [setName]
      by_cases hname : k = name
      · subst hname
        have hne : (n, v) ∈ rest → n ≠ k := by
          intro hmem hn
          have hkey : n ∈ rest.map Prod.fst := List.mem_map_of_mem hmem
          exact hk (hn ▸ hkey)
        simp only [if_true, List.mem_cons, Prod.mk.injEq]
        grind
      · have hne : n = k → n ≠ name := fun h => h ▸ hname
        simp only [if_neg hname, List.mem_cons, Prod.mk.injEq, ih hrest]
        grind

theorem nodup_overlay (hflat : (flat.map Prod.fst).Nodup) (bs : Bindings) :
    ((overlay flat bs).map Prod.fst).Nodup := by
  induction bs generalizing flat with
  | nil => exact hflat
  | cons b rest ih => exact ih (nodup_setName hflat b.name b.value)

theorem mem_overlay_iff {bs : Bindings} (hflat : (flat.map Prod.fst).Nodup)
    (hbs : bs.names.Nodup) :
    (n, v) ∈ overlay flat bs ↔
      (∃ b ∈ bs, b.name = n ∧ b.value = v) ∨ (n ∉ bs.names ∧ (n, v) ∈ flat) := by
  induction bs generalizing flat with
  | nil => simp [overlay, Bindings.names]
  | cons b rest ih =>
      obtain ⟨hb, hrest⟩ := List.nodup_cons.mp hbs
      have hnew : (∃ c ∈ rest, c.name = n ∧ c.value = v) → n ≠ b.name := by
        rintro ⟨c, hc, rfl, -⟩ heq
        exact hb (heq ▸ List.mem_map_of_mem hc)
      have hown : n = b.name → n ∉ Bindings.names rest := fun h => h ▸ hb
      change (n, v) ∈ overlay (setName b.name b.value flat) rest ↔ _
      rw [ih (nodup_setName hflat _ _) hrest, mem_setName_iff hflat]
      simp only [Bindings.names, List.map_cons, List.mem_cons, exists_eq_or_imp, not_or] at hown ⊢
      grind

end Flat

section Values

variable {P : Value → Prop} {flat : List (String × Value)}

theorem forall_mem_setName (hflat : ∀ e ∈ flat, P e.2) {v : Value} (hv : P v) (name : String) :
    ∀ e ∈ setName name v flat, P e.2 := by
  induction flat with
  | nil => exact List.forall_mem_singleton.mpr hv
  | cons e flat ih =>
      obtain ⟨he, hrest⟩ := List.forall_mem_cons.mp hflat
      rw [setName]
      split
      · exact List.forall_mem_cons.mpr ⟨hv, hrest⟩
      · exact List.forall_mem_cons.mpr ⟨he, ih hrest⟩

theorem forall_mem_overlay (hflat : ∀ e ∈ flat, P e.2) {bs : Bindings}
    (hbs : ∀ b ∈ bs, P b.value) : ∀ e ∈ overlay flat bs, P e.2 := by
  induction bs generalizing flat with
  | nil => exact hflat
  | cons b bs ih =>
      obtain ⟨hb, hrest⟩ := List.forall_mem_cons.mp hbs
      exact ih (forall_mem_setName hflat hb b.name) hrest

theorem forall_mem_flatten {chain : Chain} (h : ∀ bs ∈ chain, ∀ b ∈ bs, P b.value) :
    ∀ e ∈ flatten chain, P e.2 := by
  induction chain with
  | nil => exact List.forall_mem_nil _
  | cons bs outer ih =>
      obtain ⟨hbs, houter⟩ := List.forall_mem_cons.mp h
      exact forall_mem_overlay (ih houter) hbs

end Values

theorem lookup?_cons (bs : Bindings) (outer : Chain) (name : String) :
    lookup? (bs :: outer) name = (bs.find? name).or (lookup? outer name) := by
  rw [lookup?, List.findSome?_cons, ← lookup?]
  cases bs.find? name <;> rfl

theorem nodup_flatten (chain : Chain) : ((flatten chain).map Prod.fst).Nodup := by
  induction chain with
  | nil => exact List.nodup_nil
  | cons bs outer ih => exact nodup_overlay ih bs

/-- The traversal that starts at the root and overwrites keeps what the one that starts inside and
stops finds. -/
theorem mem_flatten_iff {chain : Chain} (hchain : ∀ bs ∈ chain, bs.names.Nodup) {n : String}
    {v : Value} : (n, v) ∈ flatten chain ↔ ∃ b, chain.lookup? n = some b ∧ b.value = v := by
  induction chain with
  | nil => simp [flatten, lookup?]
  | cons bs outer ih =>
      obtain ⟨hbs, houter⟩ := List.forall_mem_cons.mp hchain
      rw [flatten, mem_overlay_iff (nodup_flatten outer) hbs, ih houter, lookup?_cons]
      cases hfind : bs.find? n with
      | some b =>
          have hmem : n ∈ bs.names := by simp [← Bindings.isSome_find?_iff, hfind]
          have hiff : ∀ c, c ∈ bs ∧ c.name = n ↔ b = c := fun c => by
            rw [← Bindings.find?_eq_some_iff hbs, hfind, Option.some.injEq]
          simp [hmem, ← and_assoc, hiff]
      | none =>
          have hmem : n ∉ bs.names := by simp [← Bindings.isSome_find?_iff, hfind]
          have hnone : ¬ ∃ b ∈ bs, b.name = n ∧ b.value = v := by
            rintro ⟨b, hb, rfl, -⟩
            exact hmem (List.mem_map_of_mem hb)
          simp [hmem, hnone]

end Chain

namespace Scopes

variable {s : Scopes} {i j : Nat} {name : String} {b : Binding}

theorem own_of_length_le (h : s.all.length ≤ i) : s.own i = [] := by
  rw [own, List.getElem?_eq_none h]
  rfl

theorem length_insert (s : Scopes) (i : Nat) (b : Binding) :
    (s.insert i b).all.length = s.all.length := by
  simp [insert]

theorem own_insert (s : Scopes) (i : Nat) (b : Binding) (j : Nat) :
    (s.insert i b).own j = (s.own j).insert b ∨ (s.insert i b).own j = s.own j := by
  by_cases hj : j = i
  · subst hj
    by_cases hlt : j < s.all.length
    · exact .inl (own_insert_self hlt b)
    · have hlength := s.length_insert j b
      rw [own_of_length_le (show s.all.length ≤ j by omega), own_of_length_le (by omega)]
      exact .inr rfl
  · exact .inr (own_insert_of_ne hj b)

theorem own_add (s : Scopes) (p : Option Nat) (i : Nat) : (s.add p).2.own i = s.own i := by
  by_cases hi : i < s.all.length
  · exact (s.keeps_add p false 0).own_eq i hi (by simp)
  · rw [own_of_length_le (Nat.le_of_not_lt hi), own, add, List.getElem?_append_right
      (Nat.le_of_not_lt hi)]
    cases i - s.all.length <;> rfl

/-- Whether no scope binds a name twice. -/
def Distinct (s : Scopes) : Prop := ∀ i, (s.own i).names.Nodup

theorem distinct_initial : initial.Distinct := by
  intro i
  cases i <;> exact List.nodup_nil

theorem Distinct.add (h : s.Distinct) (p : Option Nat) : (s.add p).2.Distinct := by
  intro i
  rw [own_add]
  exact h i

theorem Distinct.insert (h : s.Distinct) (i : Nat) (b : Binding) : (s.insert i b).Distinct := by
  intro j
  rcases s.own_insert i b j with hown | hown
  · rw [hown]
    exact Bindings.nodup_insert (h j) b
  · rw [hown]
    exact h j

theorem Distinct.nodup_of_mem_chain (h : s.Distinct) {bs : Bindings} (hbs : bs ∈ s.chain i) :
    bs.names.Nodup := by
  obtain ⟨j, -, rfl⟩ := List.mem_map.mp hbs
  exact h j

/-- Looking a name up ends at its owner. -/
theorem lookup?_chain (s : Scopes) (i : Nat) (name : String) :
    (s.chain i).lookup? name = (s.owner? i name).bind fun j => (s.own j).find? name := by
  rw [chain, owner?]
  induction s.path i with
  | nil => rfl
  | cons j outer ih =>
      rw [List.map_cons, Chain.lookup?_cons, ih, List.find?_cons]
      cases hfind : (s.own j).find? name <;> simp [hfind]

/-- Whether the scope at `j` is the innermost one on the way from the one at `i` to the root that
binds a name, and `b` is its binding of it. -/
structure Resolves (s : Scopes) (i : Nat) (name : String) (j : Nat) (b : Binding) : Prop where
  innermost : ∃ inner outer, s.path i = inner ++ j :: outer ∧ ∀ k ∈ inner, name ∉ (s.own k).names
  mem : b ∈ s.own j
  name_eq : b.name = name

/-- Whether no scope on the way from the one at `i` to the root binds a name. -/
def Unbound (s : Scopes) (i : Nat) (name : String) : Prop :=
  ∀ j ∈ s.path i, name ∉ (s.own j).names

theorem owner?_eq_some_iff :
    s.owner? i name = some j ↔ name ∈ (s.own j).names ∧
      ∃ inner outer, s.path i = inner ++ j :: outer ∧ ∀ k ∈ inner, name ∉ (s.own k).names := by
  rw [owner?, List.find?_eq_some_iff_append, Bindings.isSome_find?_iff]
  simp [← Bindings.isSome_find?_iff]

theorem owner?_eq_none_iff : s.owner? i name = none ↔ s.Unbound i name := by
  rw [owner?, List.find?_eq_none]
  simp only [Bindings.isSome_find?_iff]
  rfl

theorem resolves_iff (hs : s.Distinct) :
    s.Resolves i name j b ↔ s.owner? i name = some j ∧ (s.own j).find? name = some b := by
  rw [owner?_eq_some_iff, Bindings.find?_eq_some_iff (hs j)]
  constructor
  · rintro ⟨hinnermost, hmem, rfl⟩
    exact ⟨⟨List.mem_map_of_mem hmem, hinnermost⟩, hmem, rfl⟩
  · rintro ⟨⟨-, hinnermost⟩, hmem, hname⟩
    exact ⟨hinnermost, hmem, hname⟩

theorem Resolves.lookup? (h : s.Resolves i name j b) (hs : s.Distinct) :
    (s.chain i).lookup? name = some b := by
  obtain ⟨howner, hfind⟩ := (resolves_iff hs).mp h
  rw [lookup?_chain, howner]
  exact hfind

theorem Unbound.lookup? (h : s.Unbound i name) : (s.chain i).lookup? name = none := by
  rw [lookup?_chain, owner?_eq_none_iff.mpr h]
  rfl

theorem resolves_or_unbound (hs : s.Distinct) (i : Nat) (name : String) :
    (∃ j b, s.Resolves i name j b) ∨ s.Unbound i name := by
  cases howner : s.owner? i name with
  | none => exact .inr (owner?_eq_none_iff.mp howner)
  | some j =>
      have hmem := (owner?_eq_some_iff.mp howner).1
      obtain ⟨b, hb⟩ := Option.isSome_iff_exists.mp (Bindings.isSome_find?_iff.mpr hmem)
      exact .inl ⟨j, b, (resolves_iff hs).mpr ⟨howner, hb⟩⟩

/-- What is found in the scope at `i` is what its flat list has. -/
theorem mem_flatten_iff (hs : s.Distinct) {v : Value} :
    (name, v) ∈ (s.chain i).flatten ↔ ∃ j b, s.Resolves i name j b ∧ b.value = v := by
  rw [Chain.mem_flatten_iff fun bs hbs => hs.nodup_of_mem_chain hbs]
  constructor
  · rintro ⟨b, hb, hv⟩
    rcases resolves_or_unbound hs i name with ⟨j, c, hc⟩ | hnone
    · rw [hc.lookup? hs, Option.some.injEq] at hb
      exact ⟨j, c, hc, hb ▸ hv⟩
    · rw [hnone.lookup?] at hb
      cases hb
  · rintro ⟨j, b, hb, hv⟩
    exact ⟨b, hb.lookup? hs, hv⟩

end Scopes

end HostedLisp
