import SieveRules.Parser
/-!
One step of the repeating parsers, by what the parser of an item and the symbol behind it give.
-/

namespace SieveRules

namespace Parser

variable {σ ε α : Type} {p : Parser σ ε α} {input mid : List σ} {a : α}

section

variable {done : List σ → Option (Except ε (List σ))}

theorem many_done {outcome : Except ε (List σ)} (hd : done input = some outcome) :
    p.many done input = outcome.map fun rest => ([], rest) := by
  rw [many, hd]
  cases outcome <;> rfl

theorem many_fails {e : ε} (hd : done input = none) (hr : p.run input = .error e) :
    p.many done input = .error e := by
  rw [many, hd]
  simp only
  split
  · rename_i he
    exact congrArg _ (Except.error.inj (he.symm.trans hr))
  · rename_i he
    cases he.symm.trans hr

theorem many_step (hd : done input = none) (hr : p.run input = .ok (a, mid)) :
    p.many done input = (p.many done mid).map fun found => (a :: found.1, found.2) := by
  rw [many, hd]
  simp only
  split
  · rename_i he
    cases he.symm.trans hr
  · rename_i he
    cases he.symm.trans hr
    cases p.many done mid <;> rfl

end

section

variable {delimiter : σ → Option Delimiter} {missing : List σ → ε} {symbol : σ}

theorem list_fails {e : ε} (hr : p.run input = .error e) :
    p.list delimiter missing input = .error e := by
  rw [list]
  split <;> rename_i he <;> cases he.symm.trans hr
  rfl

theorem list_ends (hr : p.run input = .ok (a, [])) :
    p.list delimiter missing input = .error (missing []) := by
  rw [list]
  split <;> rename_i he <;> cases he.symm.trans hr
  rfl

theorem list_close (hr : p.run input = .ok (a, symbol :: mid))
    (hc : delimiter symbol = some .close) : p.list delimiter missing input = .ok ([a], mid) := by
  rw [list]
  split <;> rename_i he <;> cases he.symm.trans hr
  rw [hc]

theorem list_step (hr : p.run input = .ok (a, symbol :: mid))
    (hs : delimiter symbol = some .separator) :
    p.list delimiter missing input =
      (p.list delimiter missing mid).map fun found => (a :: found.1, found.2) := by
  rw [list]
  split <;> rename_i he <;> cases he.symm.trans hr
  rw [hs]
  cases p.list delimiter missing mid <;> rfl

theorem list_unclosed (hr : p.run input = .ok (a, symbol :: mid)) (hn : delimiter symbol = none) :
    p.list delimiter missing input = .error (missing (symbol :: mid)) := by
  rw [list]
  split <;> rename_i he <;> cases he.symm.trans hr
  rw [hn]

end

end Parser

end SieveRules
