import HostedLisp.Source.Parser

namespace HostedLisp

namespace Lexer

/-- The lexer after a number of requests for a token. -/
def after (lx : Lexer) : Nat → Lexer
  | 0 => lx
  | n + 1 => lx.next.2.after n

theorem after_succ (lx : Lexer) (n : Nat) : lx.after (n + 1) = (lx.after n).next.2 := by
  induction n generalizing lx with
  | zero => rfl
  | succ n ih => exact ih lx.next.2

theorem tokens_of_final {lx : Lexer} (h : lx.next.1.isFinal = true) : lx.tokens = [lx.next.1] := by
  rw [tokens, dif_pos h]

theorem tokens_of_not_final {lx : Lexer} (h : lx.next.1.isFinal = false) :
    lx.tokens = lx.next.1 :: lx.next.2.tokens := by
  rw [tokens, dif_neg (by simp [h])]

theorem exists_tokens_eq_cons (lx : Lexer) : ∃ ts, lx.tokens = lx.next.1 :: ts := by
  cases h : lx.next.1.isFinal with
  | false => exact ⟨_, tokens_of_not_final h⟩
  | true => exact ⟨[], tokens_of_final h⟩

theorem exists_tokens_eq_append (lx : Lexer) :
    ∃ ts t, lx.tokens = ts ++ [t] ∧ t.isFinal = true ∧ ∀ u ∈ ts, u.isFinal = false := by
  fun_induction tokens lx with
  | case1 lx h => exact ⟨[], lx.next.1, rfl, h, by simp⟩
  | case2 lx h ih =>
      obtain ⟨ts, t, e, ht, hts⟩ := ih
      refine ⟨lx.next.1 :: ts, t, by simp [e], ht, ?_⟩
      intro u hu
      rcases List.mem_cons.mp hu with rfl | hu
      · simpa using h
      · exact hts u hu

end Lexer

namespace Parser

/-- A bound on the tokens that the parser can still read. -/
def ahead (p : Parser) : Nat :=
  p.lexer.rest.length + if p.held then 1 else 0

theorem pull_snd (p : Parser) : p.pull.2 = ⟨p.pull.2.lexer, some p.pull.1, false⟩ := by
  obtain ⟨lx, current, held⟩ := p
  cases held <;> cases current <;> rfl

theorem pull_of_not_held {p : Parser} (h : p.held = false) :
    p.pull = (p.lexer.next.1, ⟨p.lexer.next.2, some p.lexer.next.1, false⟩) := by
  simp [pull, h]

theorem pull_hold_pull (p : Parser) : p.pull.2.hold.pull = p.pull := by
  have h := pull_snd p
  refine Prod.ext ?_ ?_
  · rw [h]
    rfl
  · rw [h]
    rfl

theorem ahead_pull_lt {p : Parser} (h : p.pull.1.isFinal = false) : p.pull.2.ahead < p.ahead := by
  obtain ⟨lx, current, held⟩ := p
  cases held with
  | false =>
      have := @Lexer.length_rest_next_lt lx (by simpa [pull] using h)
      simpa [ahead, pull] using this
  | true =>
      cases current with
      | none =>
          have := @Lexer.length_rest_next_lt lx (by simpa [pull] using h)
          simp only [ahead, pull]
          simp only [Bool.false_eq_true, if_false, if_true]
          omega
      | some t => simp [ahead, pull]

theorem ahead_hold_pull_le {p : Parser} (h : p.pull.1.isFinal = false) :
    p.pull.2.hold.ahead ≤ p.ahead := by
  have hlt := ahead_pull_lt h
  rw [pull_snd p] at hlt ⊢
  simp only [ahead, hold] at hlt ⊢
  simp only [Bool.false_eq_true, if_false, if_true] at hlt ⊢
  omega

/-- The parser `p` reads the tokens `ts`, none of them the last of its text, and is then `q`. -/
inductive Reads : Parser → List Token → Parser → Prop
  | nil (p : Parser) : Reads p [] p
  | cons {p q : Parser} {ts : List Token} (notFinal : p.pull.1.isFinal = false)
      (rest : Reads p.pull.2 ts q) : Reads p (p.pull.1 :: ts) q

namespace Reads

variable {p q r : Parser} {ts us : List Token}

theorem single (h : p.pull.1.isFinal = false) : Reads p [p.pull.1] p.pull.2 :=
  .cons h (.nil _)

theorem trans (h : Reads p ts q) (h' : Reads q us r) : Reads p (ts ++ us) r := by
  induction h with
  | nil p => exact h'
  | cons final _ ih => exact .cons final (ih h')

theorem snoc (h : Reads p ts q) (hq : q.pull.1.isFinal = false) :
    Reads p (ts ++ [q.pull.1]) q.pull.2 :=
  h.trans (single hq)

theorem of_pull_eq {p' : Parser} (h : Reads p ts q) (e : p'.pull = p.pull) (hts : ts ≠ []) :
    Reads p' ts q := by
  cases h with
  | nil => exact absurd rfl hts
  | cons final rest =>
      rw [← e] at final rest ⊢
      exact .cons final rest

theorem ahead_add_length_le (h : Reads p ts q) : q.ahead + ts.length ≤ p.ahead := by
  induction h with
  | nil p => simp
  | cons final _ ih =>
      have := ahead_pull_lt final
      simp only [List.length_cons]
      omega

theorem current_eq {t : Token} (h : Reads p us q) (e : us = ts ++ [t]) : q.current = some t := by
  induction h generalizing ts with
  | nil p => simp at e
  | cons final rest ih =>
      cases rest with
      | nil =>
          rw [pull_snd]
          cases ts <;> simp_all
      | cons final' rest' =>
          cases ts with
          | nil => simp at e
          | cons u ts => exact ih (List.cons.inj e).2

/-- The tokens read are the next ones of the lexer, which has been asked for no others. -/
theorem tokens_eq (h : Reads p ts q) (hp : p.held = false) :
    q.held = false ∧ p.lexer.tokens = ts ++ q.lexer.tokens ∧
      q.lexer = p.lexer.after ts.length := by
  induction h with
  | nil p => exact ⟨hp, rfl, rfl⟩
  | @cons p q ts final rest ih =>
      obtain ⟨hq, htokens, hafter⟩ := ih (by rw [pull_snd])
      rw [pull_of_not_held hp] at final htokens hafter ⊢
      refine ⟨hq, ?_, hafter⟩
      rw [Lexer.tokens_of_not_final final, htokens, List.cons_append]

end Reads

end Parser

end HostedLisp
