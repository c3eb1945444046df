import HostedLisp.Proofs.Evaluation.Reference

namespace HostedLisp

namespace Scopes

/-- Whether the scopes of `s` are still there in `s'` with the same parents and bindings; if
`opened` holds, the scope at `i` may bind other names than before. -/
structure Keeps (opened : Bool) (i : Nat) (s s' : Scopes) : Prop where
  length_le : s.all.length ≤ s'.all.length
  parent_eq : ∀ j < s.all.length, (s'.all[j]?).bind Scope.parent = (s.all[j]?).bind Scope.parent
  own_eq : ∀ j < s.all.length, (opened = true → j ≠ i) → s'.own j = s.own j

variable {s s' s'' : Scopes} {opened : Bool} {i j : Nat}

theorem Keeps.refl (opened : Bool) (i : Nat) (s : Scopes) : s.Keeps opened i s :=
  ⟨Nat.le_refl _, fun _ _ => rfl, fun _ _ _ => rfl⟩

theorem Keeps.trans (h : s.Keeps opened i s') (h' : s'.Keeps opened i s'') :
    s.Keeps opened i s'' where
  length_le := Nat.le_trans h.length_le h'.length_le
  parent_eq j hj := (h'.parent_eq j (Nat.lt_of_lt_of_le hj h.length_le)).trans (h.parent_eq j hj)
  own_eq j hj hne :=
    (h'.own_eq j (Nat.lt_of_lt_of_le hj h.length_le) hne).trans (h.own_eq j hj hne)

theorem Keeps.weaken (h : s.Keeps false j s') (opened : Bool) (i : Nat) : s.Keeps opened i s' where
  length_le := h.length_le
  parent_eq := h.parent_eq
  own_eq k hk _ := h.own_eq k hk (by simp)

theorem Keeps.trans_of_new (h : s.Keeps false i s') (h' : s'.Keeps opened j s'')
    (hj : s.all.length ≤ j) : s.Keeps false i s'' where
  length_le := Nat.le_trans h.length_le h'.length_le
  parent_eq k hk := (h'.parent_eq k (Nat.lt_of_lt_of_le hk h.length_le)).trans (h.parent_eq k hk)
  own_eq k hk hne :=
    (h'.own_eq k (Nat.lt_of_lt_of_le hk h.length_le) fun _ =>
      Nat.ne_of_lt (Nat.lt_of_lt_of_le hk hj)).trans (h.own_eq k hk hne)

theorem exists_path_eq_cons (s : Scopes) (i : Nat) :
    ∃ outer, s.path i = i :: outer ∧ ∀ j ∈ outer, j < i := by
  induction i using Nat.strongRecOn with
  | ind i ih =>
      rw [path]
      split
      · rename_i p hp
        split
        · rename_i hlt
          obtain ⟨outer, houter, hless⟩ := ih p hlt
          refine ⟨p :: outer, by rw [houter], ?_⟩
          intro j hj
          rcases List.mem_cons.mp hj with rfl | hj
          · exact hlt
          · exact Nat.lt_trans (hless j hj) hlt
        · exact ⟨[], rfl, by simp⟩
      · exact ⟨[], rfl, by simp⟩

theorem path_of_keeps (h : s.Keeps opened i s') (hj : j < s.all.length) : s'.path j = s.path j := by
  induction j using Nat.strongRecOn with
  | ind j ih =>
      rw [path, path, h.parent_eq j hj]
      split
      · rename_i p hp
        split
        · rename_i hlt
          rw [ih p hlt (Nat.lt_trans hlt hj)]
        · rfl
      · rfl

theorem chain_eq_cons (s : Scopes) (i : Nat) : s.chain i = s.own i :: (s.chain i).tail := by
  obtain ⟨outer, houter, -⟩ := s.exists_path_eq_cons i
  rw [chain, houter]
  rfl

/-- Outside the scope at `i` nothing that is seen changes. -/
theorem chain_of_keeps (h : s.Keeps opened i s') (hj : j < s.all.length)
    (hi : opened = true → j < i) : s'.chain j = s.chain j := by
  obtain ⟨outer, houter, hless⟩ := s.exists_path_eq_cons j
  rw [chain, chain, path_of_keeps h hj]
  apply List.map_congr_left
  intro k hk
  have hle : k ≤ j := by
    rw [houter] at hk
    rcases List.mem_cons.mp hk with rfl | hk
    · exact Nat.le_refl _
    · exact Nat.le_of_lt (hless k hk)
  refine h.own_eq k (Nat.lt_of_le_of_lt hle hj) fun ho => ?_
  exact Nat.ne_of_lt (Nat.lt_of_le_of_lt hle (hi ho))

theorem chain_of_keeps_closed (h : s.Keeps false i s') (hj : j < s.all.length) :
    s'.chain j = s.chain j :=
  chain_of_keeps h hj (by simp)

theorem tail_chain_of_keeps (h : s.Keeps opened i s') (hi : i < s.all.length) :
    (s'.chain i).tail = (s.chain i).tail := by
  obtain ⟨outer, houter, hless⟩ := s.exists_path_eq_cons i
  rw [chain, chain, path_of_keeps h hi, houter, List.map_cons, List.map_cons, List.tail_cons,
    List.tail_cons]
  apply List.map_congr_left
  intro k hk
  exact h.own_eq k (Nat.lt_trans (hless k hk) hi) fun _ => Nat.ne_of_lt (hless k hk)

theorem length_add (s : Scopes) (p : Option Nat) : (s.add p).2.all.length = s.all.length + 1 := by
  simp [add]

theorem keeps_add (s : Scopes) (p : Option Nat) (opened : Bool) (i : Nat) :
    s.Keeps opened i (s.add p).2 where
  length_le := by
    rw [length_add]
    exact Nat.le_succ _
  parent_eq j hj := by rw [add, List.getElem?_append_left hj]
  own_eq j hj _ := by rw [own, own, add, List.getElem?_append_left hj]

theorem chain_add (s : Scopes) (p : Option Nat) (hp : ∀ i ∈ p, i < s.all.length) :
    (s.add p).2.chain (s.add p).1 = [] :: (p.map s.chain).getD [] := by
  have hparent : ((s.add p).2.all[s.all.length]?).bind Scope.parent = p := by
    simp [add]
  have hown : (s.add p).2.own s.all.length = [] := by simp [add, own]
  change (s.add p).2.chain s.all.length = _
  cases p with
  | none =>
      rw [chain, path, hparent]
      simp [hown]
  | some i =>
      have hi := hp i rfl
      have htail : ((s.add (some i)).2.path i).map (s.add (some i)).2.own = s.chain i :=
        chain_of_keeps_closed (s.keeps_add (some i) false i) hi
      rw [chain, path, hparent]
      simp [hi, hown, htail]

theorem own_insert_self (hi : i < s.all.length) (b : Binding) :
    (s.insert i b).own i = (s.own i).insert b := by
  rw [own, own, insert, List.getElem?_modify, List.getElem?_eq_getElem hi]
  simp

theorem own_insert_of_ne (h : j ≠ i) (b : Binding) : (s.insert i b).own j = s.own j := by
  rw [own, own, insert, List.getElem?_modify]
  simp [Ne.symm h]

theorem keeps_insert (s : Scopes) (i : Nat) (b : Binding) : s.Keeps true i (s.insert i b) where
  length_le := by simp [insert]
  parent_eq j hj := by
    rw [insert, List.getElem?_modify]
    cases s.all[j]? with
    | none => rfl
    | some sc =>
        by_cases h : i = j <;> simp [h]
  own_eq j _ hne := own_insert_of_ne (hne rfl) b

theorem chain_insert (b : Binding) (hi : i < s.all.length) :
    (s.insert i b).chain i = (s.chain i).insertTop b := by
  rw [chain_eq_cons, tail_chain_of_keeps (s.keeps_insert i b) hi, own_insert_self hi,
    chain_eq_cons s i]
  rfl

theorem chain_parent? (hi : i < s.all.length) :
    (s.parent? i = none ∧ (s.chain i).tail = []) ∨
      ∃ p, s.parent? i = some p ∧ p < s.all.length ∧ s.chain p = (s.chain i).tail ∧
        (s.chain i).tail ≠ [] := by
  have halone : s.path i = [i] → s.parent? i = none ∧ (s.chain i).tail = [] := by
    intro h
    rw [parent?, chain, h]
    exact ⟨rfl, rfl⟩
  cases hp : (s.all[i]?).bind Scope.parent with
  | none =>
      have hpath : s.path i = [i] := by rw [path, hp]
      exact .inl (halone hpath)
  | some p =>
      by_cases hlt : p < i
      · have hpath : s.path i = i :: s.path p := by
          rw [path, hp]
          exact if_pos hlt
        obtain ⟨outer, houter, -⟩ := s.exists_path_eq_cons p
        refine .inr ⟨p, ?_, Nat.lt_trans hlt hi, ?_, ?_⟩
        · rw [parent?, hpath, houter]
          rfl
        · rw [chain, chain, hpath]
          rfl
        · rw [chain, hpath, houter]
          simp
      · have hpath : s.path i = [i] := by
          rw [path, hp]
          exact if_neg hlt
        exact .inl (halone hpath)

end Scopes

end HostedLisp
