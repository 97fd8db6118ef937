/-!
Parsers over a list of symbols. A parser that succeeds has consumed something, and carries the
proof, so repeating it ends with the input: `many` and `list` are total without a bound.
-/

namespace SieveRules

/-- Reads a value off the front of its input, or fails. A success leaves a shorter rest. -/
structure Parser (σ ε α : Type) where
  run : List σ → Except ε (α × List σ)
  consumes : ∀ {input a rest}, run input = .ok (a, rest) → rest.length < input.length

namespace Parser

variable {σ ε α : Type}

def fail (error : List σ → ε) : Parser σ ε α where
  run input := .error (error input)
  consumes h := nomatch h

def map {β : Type} (p : Parser σ ε α) (f : α → β) : Parser σ ε β where
  run input := (p.run input).map fun (a, rest) => (f a, rest)
  consumes {input b rest} h := by
    cases hp : p.run input with
    | error e => simp [hp, Except.map] at h
    | ok found =>
      simp only [hp, Except.map, Except.ok.injEq, Prod.mk.injEq] at h
      exact h.2 ▸ p.consumes (hp.trans (congrArg Except.ok (Prod.eta found).symm))

/-- Items up to the place where `done` says how the repetition ends. -/
def many (item : Parser σ ε α) (done : List σ → Option (Except ε (List σ))) (input : List σ) :
    Except ε (List α × List σ) :=
  match done input with
  | some (.ok rest) => .ok ([], rest)
  | some (.error e) => .error e
  | none =>
    match _ : item.run input with
    | .error e => .error e
    | .ok (a, rest) =>
      match item.many done rest with
      | .error e => .error e
      | .ok (as, rest) => .ok (a :: as, rest)
termination_by input.length
decreasing_by exact item.consumes ‹_›

inductive Delimiter where
  | separator
  | close
  deriving DecidableEq, Repr

def list (item : Parser σ ε α) (delimiter : σ → Option Delimiter) (missing : List σ → ε)
    (input : List σ) : Except ε (List α × List σ) :=
  match _ : item.run input with
  | .error e => .error e
  | .ok (_, []) => .error (missing [])
  | .ok (a, symbol :: rest) =>
    match delimiter symbol with
    | some .close => .ok ([a], rest)
    | some .separator =>
      match item.list delimiter missing rest with
      | .error e => .error e
      | .ok (as, rest) => .ok (a :: as, rest)
    | none => .error (missing (symbol :: rest))
termination_by input.length
decreasing_by
  have shorter := item.consumes ‹item.run input = _›
  exact Nat.lt_of_succ_lt shorter

theorem many_length {item : Parser σ ε α} {done : List σ → Option (Except ε (List σ))}
    (ends : ∀ {input rest}, done input = some (.ok rest) → rest.length ≤ input.length)
    {input : List σ} {as : List α} {rest : List σ}
    (h : item.many done input = .ok (as, rest)) : rest.length ≤ input.length := by
  fun_induction many item done input generalizing as with
  | case1 input out hd =>
    simp only [Except.ok.injEq, Prod.mk.injEq] at h
    exact h.2 ▸ ends hd
  | case2 => simp at h
  | case3 => simp at h
  | case4 => simp at h
  | case5 input _ a mid hrun as' out hmany ih =>
    simp only [Except.ok.injEq, Prod.mk.injEq] at h
    obtain ⟨rfl, rfl⟩ := h
    exact Nat.le_trans (ih hmany) (Nat.le_of_lt (item.consumes hrun))

theorem many_consumes {item : Parser σ ε α} {done : List σ → Option (Except ε (List σ))}
    (ends : ∀ {input rest}, done input = some (.ok rest) → rest.length < input.length)
    {input : List σ} {as : List α} {rest : List σ}
    (h : item.many done input = .ok (as, rest)) : rest.length < input.length := by
  fun_induction many item done input generalizing as with
  | case1 input out hd =>
    simp only [Except.ok.injEq, Prod.mk.injEq] at h
    exact h.2 ▸ ends hd
  | case2 => simp at h
  | case3 => simp at h
  | case4 => simp at h
  | case5 input _ a mid hrun as' out hmany ih =>
    simp only [Except.ok.injEq, Prod.mk.injEq] at h
    obtain ⟨rfl, rfl⟩ := h
    exact Nat.lt_trans (ih hmany) (item.consumes hrun)

def manyUntil (item : Parser σ ε α) (done : List σ → Option (Except ε (List σ)))
    (ends : ∀ {input rest}, done input = some (.ok rest) → rest.length < input.length) :
    Parser σ ε (List α) where
  run input := item.many done input
  consumes h := many_consumes ends h

theorem list_length {item : Parser σ ε α} {delimiter : σ → Option Delimiter}
    {missing : List σ → ε} {input : List σ} {as : List α} {rest : List σ}
    (h : item.list delimiter missing input = .ok (as, rest)) : rest.length < input.length := by
  fun_induction list item delimiter missing input generalizing as with
  | case1 => simp at h
  | case2 => simp at h
  | case3 input a symbol mid hrun =>
    simp only [Except.ok.injEq, Prod.mk.injEq] at h
    exact h.2 ▸ Nat.lt_of_succ_lt (item.consumes hrun)
  | case4 => simp at h
  | case5 input a symbol mid hrun hd as' out hlist ih =>
    simp only [Except.ok.injEq, Prod.mk.injEq] at h
    obtain ⟨rfl, rfl⟩ := h
    exact Nat.lt_trans (ih hlist) (Nat.lt_of_succ_lt (item.consumes hrun))
  | case6 => simp at h

end Parser

end SieveRules
