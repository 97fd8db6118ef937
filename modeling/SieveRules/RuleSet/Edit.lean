import SieveRules.RuleSet
/-!
Editing a filter. Rules are addressed by name, or by their place in the order; where names collide
the first rule is meant, except that removal takes them all.
-/

namespace SieveRules

/-- The list with the items at two places exchanged, if it has both places. -/
def exchange? {α : Type} (items : List α) (i j : Nat) : Option (List α) :=
  match items[i]?, items[j]? with
  | some a, some b => some ((items.set i b).set j a)
  | _, _ => none

def updateFirst (id : RuleId) (change : Rule → Rule) : List Rule → List Rule
  | [] => []
  | rule :: rest =>
    if rule.id = id then change rule :: rest else rule :: updateFirst id change rest

/-- An index arithmetic on 64-bit words went out of range. -/
inductive IndexFault where
  | outOfRange
  deriving DecidableEq, Repr

namespace RuleSet

def position? (set : RuleSet) (id : RuleId) : Option Nat :=
  set.rules.findIdx? (·.id = id)

def rule? (set : RuleSet) (id : RuleId) : Option Rule :=
  set.rules.find? (·.id = id)

def update (set : RuleSet) (id : RuleId) (change : Rule → Rule) : Bool × RuleSet :=
  (set.rules.any (·.id = id), { set with rules := updateFirst id change set.rules })

def rename (set : RuleSet) (id new : RuleId) : Bool × RuleSet :=
  set.update id fun rule => { rule with id := new }

def toggleActive (set : RuleSet) (id : RuleId) : Bool × RuleSet :=
  set.update id fun rule => { rule with active := !rule.active }

def toggleCombinator (set : RuleSet) (id : RuleId) : Bool × RuleSet :=
  set.update id fun rule => { rule with combinator := rule.combinator.toggled }

def push (set : RuleSet) (rule : Rule) : RuleSet :=
  { set with rules := set.rules ++ [rule] }

def addRule (set : RuleSet) (source : IdSource) : RuleId × RuleSet × IdSource :=
  let (id, source) := source.mint
  (id, set.push (Policy.initial.named id), source)

/-- Puts a copy of a rule right behind it, under a fresh name. -/
def duplicateRule (set : RuleSet) (id : RuleId) (source : IdSource) :
    Option RuleId × RuleSet × IdSource :=
  match set.position? id, set.rule? id with
  | some i, some rule =>
    let (new, source) := source.mint
    (some new, { set with rules := set.rules.insertIdx (i + 1) { rule with id := new } }, source)
  | _, _ => (none, set, source)

def removeRule (set : RuleSet) (id : RuleId) : Bool × RuleSet :=
  (set.rules.any (·.id = id), { set with rules := set.rules.filter (·.id ≠ id) })

def moveUp (set : RuleSet) (index : UInt64) : Bool × RuleSet :=
  if index = 0 then (false, set)
  else
    match exchange? set.rules index.toNat (index - 1).toNat with
    | some rules => (true, { set with rules })
    | none => (false, set)

/-- Exchanges a rule with the one after it. The place after is reckoned in 64-bit words, so the
highest index has the first place after it, and that exchange is out of range. -/
def moveDown (set : RuleSet) (index : UInt64) : Except IndexFault (Bool × RuleSet) :=
  let next := index + 1
  if set.rules.length ≤ next.toNat then .ok (false, set)
  else
    match exchange? set.rules index.toNat next.toNat with
    | some rules => .ok (true, { set with rules })
    | none => .error .outOfRange

/-- Gives every rule a fresh name whose name has been seen before; counts them. -/
def renameRepeated (seen : List RuleId) (source : IdSource) :
    List Rule → List Rule × Nat × IdSource
  | [] => ([], 0, source)
  | rule :: rest =>
    if rule.id ∈ seen then
      let (id, source) := source.mint
      let (rules, count, source) := renameRepeated (id :: seen) source rest
      ({ rule with id } :: rules, count + 1, source)
    else
      let (rules, count, source) := renameRepeated (rule.id :: seen) source rest
      (rule :: rules, count, source)

def ensureUniqueIds (set : RuleSet) (source : IdSource) : Nat × RuleSet × IdSource :=
  let (rules, count, source) := renameRepeated [] source set.rules
  (count, { set with rules }, source)

/-- Takes over the rules of a filter that was read, and switches on the extensions it has on. -/
def adopt (set parsed : RuleSet) (source : IdSource) : RuleSet × IdSource :=
  let (_, unique, source) := ensureUniqueIds { set with rules := parsed.rules } source
  ({ unique with extensions := set.extensions.mergeEnabled parsed.extensions }, source)

end RuleSet

end SieveRules
