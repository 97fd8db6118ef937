import SieveRules.Proofs.Literals
import SieveRules.Proofs.Printing
/-!
The grammar of scripts without a limit, and how deep its trees are. The parser accepts what the
grammar derives and the limit allows; where only the limit forbids it, the error says so.
-/

namespace SieveRules

open Text

variable {α : Type}

/-- A test is a name, arguments, and perhaps tests: one as it stands or several in parentheses. -/
inductive Test.Grammatical : List Token → Test → Prop where
  | intro {ts name arguments tests} (h : Test.Head Grammatical ts (name, arguments, tests)) :
      Grammatical ts ⟨name, arguments, tests⟩

inductive Command.Body (command : List Token → Command → Prop) :
    List Token → List Command → Prop where
  | intro {ts body} (h : Sequence command ts body) : Body command (ts ++ [.rbrace]) body

/-- A command begins like a test and ends with a semicolon or with commands in braces. -/
inductive Command.Grammatical : List Token → Command → Prop where
  | intro {ts command}
      (h : Command.Form Test.Grammatical (Command.Body Grammatical) ts command) :
      Grammatical ts command

/-- The grammar derives the script from the tokens, however deep it is nested. -/
def Script.Grammatical (ts : List Token) (script : Script) : Prop :=
  Sequence Command.Grammatical ts script.commands

mutual

/-- The depths of a test and of the tests inside it, where the test itself has the given depth. -/
def Test.depths (depth : Nat) : Test → List Nat
  | ⟨_, _, tests⟩ => depth :: Test.depthsAll (depth + 1) tests

def Test.depthsAll (depth : Nat) : List Test → List Nat
  | [] => []
  | test :: rest => test.depths depth ++ Test.depthsAll depth rest

end

mutual

/-- The depths of the tests and blocks inside a command of the given depth. The tests and the block
of the command itself are one level deeper, also where the block is empty. -/
def Command.depths (depth : Nat) : Command → List Nat
  | ⟨_, _, tests, block⟩ =>
    Test.depthsAll (depth + 1) tests ++ Command.blockDepths (depth + 1) block

def Command.blockDepths (depth : Nat) : Option (List Command) → List Nat
  | none => []
  | some body => depth :: Command.depthsAll depth body

def Command.depthsAll (depth : Nat) : List Command → List Nat
  | [] => []
  | command :: rest => command.depths depth ++ Command.depthsAll depth rest

end

def Script.depths (script : Script) : List Nat :=
  Command.depthsAll 0 script.commands

theorem Test.mem_depthsAll {depth d : Nat} {tests : List Test} :
    d ∈ Test.depthsAll depth tests ↔ ∃ test ∈ tests, d ∈ test.depths depth := by
  induction tests with
  | nil => simp [depthsAll]
  | cons test rest ih => simp [depthsAll, ih]

theorem Command.mem_depthsAll {depth d : Nat} {commands : List Command} :
    d ∈ Command.depthsAll depth commands ↔ ∃ command ∈ commands, d ∈ command.depths depth := by
  induction commands with
  | nil => simp [depthsAll]
  | cons command rest ih => simp [depthsAll, ih]

theorem Sequence.imp {item other : List Token → α → Prop} {ts : List Token} {as : List α}
    (h : Sequence item ts as) (himp : ∀ a ∈ as, ∀ us, item us a → other us a) :
    Sequence other ts as := by
  induction h with
  | nil => exact .nil
  | cons ha _ ih =>
    refine .cons (himp _ List.mem_cons_self _ ha) (ih ?_)
    intro a hm
    exact himp a (List.mem_cons_of_mem _ hm)

theorem Listed.imp {item other : List Token → α → Prop} {close : Token} {ts : List Token}
    {as : List α} (h : Listed item close ts as) (himp : ∀ a ∈ as, ∀ us, item us a → other us a) :
    Listed other close ts as := by
  induction h with
  | last ha => exact .last (himp _ List.mem_cons_self _ ha)
  | more ha _ ih =>
    refine .more (himp _ List.mem_cons_self _ ha) (ih ?_)
    intro a hm
    exact himp a (List.mem_cons_of_mem _ hm)

namespace Test

variable {test other : List Token → Test → Prop} {ts : List Token} {name : String}
  {arguments : List Argument} {tests : List Test}

theorem Head.imp (h : Head test ts (name, arguments, tests))
    (himp : ∀ t ∈ tests, ∀ us, test us t → other us t) : Head other ts (name, arguments, tests) := by
  cases h with
  | intro ha ht =>
    refine .intro ha ?_
    cases ht with
    | none => exact .none
    | bare hl => exact .bare (himp _ List.mem_cons_self _ hl)
    | list hl => exact .list (hl.imp himp)

/-- Derived with so many levels means derived at all, and no deeper than the levels reach. -/
theorem derives_iff (depth : Nat) {levels : Nat} {ts : List Token} {t : Test} :
    Derives levels ts t ↔ Grammatical ts t ∧ ∀ d ∈ t.depths depth, d < depth + levels := by
  induction levels generalizing depth ts t with
  | zero =>
    obtain ⟨name, arguments, tests⟩ := t
    constructor
    · intro h
      exact h.elim
    · rintro ⟨-, h⟩
      exact absurd (h depth (by simp [depths])) (by omega)
  | succ levels ih =>
    obtain ⟨name, arguments, tests⟩ := t
    constructor
    · intro h
      have h : Head (Derives levels) ts (name, arguments, tests) := h
      refine ⟨.intro (h.imp fun t _ us hd => ((ih (depth + 1)).mp hd).1), ?_⟩
      intro d hd
      rw [depths, List.mem_cons, mem_depthsAll] at hd
      rcases hd with rfl | ⟨t, ht, hd⟩
      · omega
      · obtain ⟨us, -, hus⟩ := h.test_of_mem ht
        have := ((ih (depth + 1)).mp hus).2 d hd
        omega
    · rintro ⟨⟨h⟩, hd⟩
      refine h.imp fun t ht us hg => (ih (depth + 1)).mpr ⟨hg, ?_⟩
      intro d hm
      have := hd d (List.mem_cons_of_mem _ (mem_depthsAll.mpr ⟨t, ht, hm⟩))
      omega

end Test

namespace Command

theorem Form.imp {test test' : List Token → Test → Prop}
    {block block' : List Token → List Command → Prop} {ts : List Token} {command : Command}
    (h : Form test block ts command) (ht : ∀ t ∈ command.tests, ∀ us, test us t → test' us t)
    (hb : ∀ body ∈ command.block, ∀ us, block us body → block' us body) :
    Form test' block' ts command := by
  cases h with
  | line hh => exact .line (hh.imp ht)
  | block hh hbody => exact .block (hh.imp ht) (hb _ rfl _ hbody)

theorem Form.block_of_mem {test : List Token → Test → Prop}
    {block : List Token → List Command → Prop} {ts : List Token} {command : Command}
    (h : Form test block ts command) {body : List Command} (hb : body ∈ command.block) :
    ∃ us, block us body := by
  cases h with
  | line => cases hb
  | block _ hbody =>
    cases hb
    exact ⟨_, hbody⟩

def BlocksReach (levels : Nat) : Prop :=
  ∀ (depth : Nat) (ts : List Token) (body : List Command), BlockDerives levels ts body ↔
    Body Grammatical ts body ∧ ∀ d ∈ blockDepths depth (some body), d < depth + levels

theorem derives_iff_of_blocks {levels : Nat} (hb : BlocksReach levels) (depth : Nat)
    {ts : List Token} {command : Command} : Derives levels ts command ↔
      Grammatical ts command ∧ ∀ d ∈ command.depths depth, d ≤ depth + levels := by
  obtain ⟨name, arguments, tests, block⟩ := command
  constructor
  · intro h
    refine ⟨.intro (h.imp ?_ ?_), ?_⟩
    · intro t _ us ht
      exact ((Test.derives_iff (depth + 1)).mp ht).1
    · intro body _ us hus
      exact ((hb (depth + 1) us body).mp hus).1
    · intro d hd
      rw [depths, List.mem_append, Test.mem_depthsAll] at hd
      rcases hd with ⟨t, ht, hd⟩ | hd
      · obtain ⟨us, -, hus⟩ := h.test_of_mem ht
        have := ((Test.derives_iff (depth + 1)).mp hus).2 d hd
        omega
      · cases block with
        | none => cases hd
        | some body =>
          obtain ⟨us, hus⟩ := h.block_of_mem rfl
          have := ((hb (depth + 1) us body).mp hus).2 d hd
          omega
  · rintro ⟨⟨h⟩, hd⟩
    refine h.imp ?_ ?_
    · intro t ht us hg
      refine (Test.derives_iff (depth + 1)).mpr ⟨hg, ?_⟩
      intro d hm
      have := hd d (List.mem_append_left _ (Test.mem_depthsAll.mpr ⟨t, ht, hm⟩))
      omega
    · rintro body ⟨⟩ us hg
      refine (hb (depth + 1) us body).mpr ⟨hg, ?_⟩
      intro d hm
      have := hd d (List.mem_append_right _ hm)
      omega

theorem sequence_iff_of_blocks {levels : Nat} (hb : BlocksReach levels) (depth : Nat)
    {ts : List Token} {commands : List Command} : Sequence (Derives levels) ts commands ↔
      Sequence Grammatical ts commands ∧ ∀ d ∈ depthsAll depth commands, d ≤ depth + levels := by
  constructor
  · intro h
    refine ⟨h.imp ?_, ?_⟩
    · intro command _ us hd
      exact ((derives_iff_of_blocks hb depth).mp hd).1
    · intro d hd
      obtain ⟨command, hc, hd⟩ := mem_depthsAll.mp hd
      obtain ⟨us, -, hus⟩ := h.item_of_mem hc
      exact ((derives_iff_of_blocks hb depth).mp hus).2 d hd
  · rintro ⟨h, hd⟩
    refine h.imp ?_
    intro command hc us hg
    refine (derives_iff_of_blocks hb depth).mpr ⟨hg, ?_⟩
    intro d hm
    exact hd d (mem_depthsAll.mpr ⟨command, hc, hm⟩)

theorem blocks_reach (levels : Nat) : BlocksReach levels := by
  induction levels with
  | zero =>
    intro depth ts body
    constructor
    · intro h
      exact h.elim
    · rintro ⟨-, h⟩
      exact absurd (h depth List.mem_cons_self) (by omega)
  | succ levels ih =>
    intro depth ts body
    constructor
    · rintro ⟨us, rfl, h⟩
      obtain ⟨hg, hd⟩ := (sequence_iff_of_blocks ih depth).mp h
      refine ⟨.intro hg, ?_⟩
      intro d hm
      rcases List.mem_cons.mp hm with rfl | hm
      · omega
      · have := hd d hm
        omega
    · rintro ⟨⟨hg⟩, hd⟩
      refine ⟨_, rfl, (sequence_iff_of_blocks ih depth).mpr ⟨hg, ?_⟩⟩
      intro d hm
      have := hd d (List.mem_cons_of_mem _ hm)
      omega

end Command

theorem Script.derives_within_iff {levels : Nat} {ts : List Token} {script : Script} :
    Sequence (Command.Derives levels) ts script.commands ↔
      Grammatical ts script ∧ ∀ d ∈ script.depths, d ≤ levels := by
  rw [Command.sequence_iff_of_blocks (Command.blocks_reach levels) 0, Nat.zero_add]
  rfl

def Cuts (x y : Except ScriptError α) : Prop :=
  x = y ∨ ∃ offset, x = .error (.tooDeep offset)

theorem Cuts.refl (x : Except ScriptError α) : Cuts x x :=
  .inl rfl

theorem Cuts.map {β : Type} {x y : Except ScriptError α} (h : Cuts x y) (f : α → β) :
    Cuts (x.map f) (y.map f) := by
  rcases h with rfl | ⟨offset, rfl⟩
  · exact .refl _
  · exact .inr ⟨offset, rfl⟩

namespace Parser

/-- The one parser gives what the other gives, or runs out of levels. -/
def CutsShort (p q : SpanParser α) : Prop :=
  ∀ input, Cuts (p.run input) (q.run input)

variable {p q : SpanParser α}

theorem many_cuts (h : p.CutsShort q) (done : List Span → Option (Except ScriptError (List Span)))
    (input : List Span) : Cuts (p.many done input) (q.many done input) := by
  cases hd : done input with
  | some outcome =>
    rw [many_done hd, many_done hd]
    exact .refl _
  | none =>
    cases hp : p.run input with
    | error e =>
      rw [many_fails hd hp]
      rcases h input with same | ⟨offset, deep⟩
      · rw [many_fails hd (same.symm.trans hp)]
        exact .refl _
      · exact .inr ⟨offset, congrArg _ (Except.error.inj (hp.symm.trans deep))⟩
    | ok found =>
      obtain ⟨a, mid⟩ := found
      rw [many_step hd hp]
      rcases h input with same | ⟨offset, deep⟩
      · have shorter := p.consumes hp
        rw [many_step hd (same.symm.trans hp)]
        exact (many_cuts h done mid).map _
      · cases hp.symm.trans deep
termination_by input.length

theorem list_cuts (h : p.CutsShort q) (delimiter : Span → Option Delimiter)
    (missing : List Span → ScriptError) (input : List Span) :
    Cuts (p.list delimiter missing input) (q.list delimiter missing input) := by
  cases hp : p.run input with
  | error e =>
    rw [list_fails hp]
    rcases h input with same | ⟨offset, deep⟩
    · rw [list_fails (same.symm.trans hp)]
      exact .refl _
    · exact .inr ⟨offset, congrArg _ (Except.error.inj (hp.symm.trans deep))⟩
  | ok found =>
    obtain ⟨a, mid⟩ := found
    rcases h input with same | ⟨offset, deep⟩
    · have hq := same.symm.trans hp
      cases mid with
      | nil =>
        rw [list_ends hp, list_ends hq]
        exact .refl _
      | cons symbol mid =>
        cases hs : delimiter symbol with
        | none =>
          rw [list_unclosed hp hs, list_unclosed hq hs]
          exact .refl _
        | some kind =>
          cases kind with
          | close =>
            rw [list_close hp hs, list_close hq hs]
            exact .refl _
          | separator =>
            have shorter := Nat.lt_of_succ_lt (p.consumes hp)
            rw [list_step hp hs, list_step hq hs]
            exact (list_cuts h delimiter missing mid).map _
    · cases hp.symm.trans deep
termination_by input.length

end Parser

namespace Test

variable {p q : SpanParser Test}

theorem trailing_cuts (h : p.CutsShort q) (input : List Span) :
    Cuts (trailing p input) (trailing q input) := by
  unfold trailing
  split
  · exact (h _).map _
  · exact Parser.list_cuts h _ _ _
  · exact .refl _

theorem header_cuts (what : Expectation) (h : p.CutsShort q) :
    (header what p).CutsShort (header what q) := by
  intro input
  simp only [header]
  split
  · split
    · exact .refl _
    · rename_i rest _
      rcases trailing_cuts h rest with same | ⟨offset, deep⟩
      · rw [same]
        exact .refl _
      · rw [deep]
        exact .inr ⟨offset, rfl⟩
  · exact .refl _

theorem parser_cuts {levels more : Nat} (h : levels ≤ more) :
    (parser levels).CutsShort (parser more) := by
  induction levels generalizing more with
  | zero =>
    intro input
    cases input with
    | nil => exact .inr ⟨_, rfl⟩
    | cons span rest => exact .inr ⟨_, rfl⟩
  | succ levels ih =>
    obtain ⟨more, rfl⟩ : ∃ n, more = n + 1 := ⟨more - 1, by omega⟩
    intro input
    exact (header_cuts .test (ih (Nat.le_of_succ_le_succ h)) input).map _

end Test

namespace Command

theorem parserWith_cuts {test test' : SpanParser Test} {block block' : SpanParser (List Command)}
    (ht : test.CutsShort test') (hb : block.CutsShort block') :
    (parserWith test block).CutsShort (parserWith test' block') := by
  intro input
  simp only [parserWith]
  rcases Test.header_cuts .command ht input with same | ⟨offset, deep⟩
  · rw [same]
    split
    · exact .refl _
    · exact .refl _
    · exact (hb _).map _
    · exact .refl _
  · rw [deep]
    exact .inr ⟨offset, rfl⟩

theorem blockParser_cuts {levels more : Nat} (h : levels ≤ more) :
    (blockParser levels).CutsShort (blockParser more) := by
  induction levels generalizing more with
  | zero =>
    intro input
    cases input with
    | nil => exact .inr ⟨_, rfl⟩
    | cons span rest => exact .inr ⟨_, rfl⟩
  | succ levels ih =>
    obtain ⟨more, rfl⟩ : ∃ n, more = n + 1 := ⟨more - 1, by omega⟩
    have less := Nat.le_of_succ_le_succ h
    intro input
    exact Parser.many_cuts (parserWith_cuts (Test.parser_cuts less) (ih less)) _ input

end Command

namespace Script

theorem ofSpansWithin_cuts {levels more : Nat} (h : levels ≤ more) (spans : List Span) :
    Cuts (ofSpansWithin levels spans) (ofSpansWithin more spans) :=
  (Parser.many_cuts (Command.parserWith_cuts (Test.parser_cuts h) (Command.blockParser_cuts h))
    Command.scriptDone _).map _

variable {spans : List Span} {script other : Script}

theorem ofSpansWithin_enough (h : Grammatical (meaning spans) script) :
    ∃ enough, ∀ levels, enough ≤ levels → ofSpansWithin levels spans = .ok script := by
  refine ⟨script.depths.max?.getD 0, ?_⟩
  intro levels hl
  refine ofSpansWithin_complete (derives_within_iff.mpr ⟨h, ?_⟩)
  intro d hd
  exact Nat.le_trans (List.le_max?_getD_of_mem hd) hl

theorem grammatical_unique (h : Grammatical (meaning spans) script)
    (h' : Grammatical (meaning spans) other) : script = other := by
  obtain ⟨n, hn⟩ := ofSpansWithin_enough h
  obtain ⟨m, hm⟩ := ofSpansWithin_enough h'
  have same := (hn (max n m) (Nat.le_max_left n m)).symm.trans (hm (max n m) (Nat.le_max_right n m))
  exact Except.ok.inj same

theorem ofSpans_deep (h : Grammatical (meaning spans) script)
    (hd : ∃ d ∈ script.depths, maxDepth < d) :
    ∃ offset, ofSpans spans = .error (.tooDeep offset) := by
  obtain ⟨enough, he⟩ := ofSpansWithin_enough h
  rcases ofSpansWithin_cuts (Nat.le_max_right enough maxDepth) spans with same | deep
  · rw [he _ (Nat.le_max_left enough maxDepth)] at same
    obtain ⟨d, hm, hlt⟩ := hd
    have := (derives_within_iff.mp (ofSpansWithin_sound same)).2 d hm
    omega
  · exact deep

/-- A text that lexes parses exactly where its tokens are a script of the grammar with every test
and every block within the depth that is allowed. There is one such script at most, it is the one
that is returned, and if it is too deep, then this is the error. -/
theorem parse_accepts_grammar (text : String) (spans : List Span) (h : tokenize text = .ok spans) :
    (∀ script, parse text = .ok script ↔
      Grammatical (meaning spans) script ∧ ∀ depth ∈ script.depths, depth ≤ maxDepth) ∧
    (∀ script other, Grammatical (meaning spans) script → Grammatical (meaning spans) other →
      script = other) ∧
    ∀ script, Grammatical (meaning spans) script → (∃ depth ∈ script.depths, maxDepth < depth) →
      ∃ offset, parse text = .error (.tooDeep offset) := by
  have parsed : parse text = ofSpans spans := by rw [parse, h]
  rw [parsed]
  refine ⟨?_, ?_, ?_⟩
  · intro script
    rw [ofSpans_iff]
    exact derives_within_iff
  · intro script other
    exact grammatical_unique
  · intro script
    exact ofSpans_deep

def nest : Nat → String
  | 0 => ""
  | count + 1 => "if\x7b" ++ nest count ++ "\x7d"

def nestTokens : Nat → List Token
  | 0 => []
  | count + 1 => .identifier "if" :: .lbrace :: (nestTokens count ++ [.rbrace])

def nestCommands : Nat → List Command
  | 0 => []
  | count + 1 => [⟨"if", [], [], some (nestCommands count)⟩]

theorem nest_writes (count : Nat) : Writes (nest count).toList (nestTokens count) := by
  induction count with
  | zero => exact .nil
  | succ count ih =>
    have closed : Writes ((nest count).toList ++ ['}']) (nestTokens count ++ [.rbrace]) :=
      ih.append (.punctuation rfl .nil) (at_boundary_cons.mpr (by decide))
    have word : Writes "if".toList [.identifier "if"] := .word (by decide)
    have opened := word.append (.punctuation (c := '{') rfl closed) (at_boundary_cons.mpr (by decide))
    simpa [nest, nestTokens] using opened

theorem nest_grammatical (count : Nat) : Grammatical (nestTokens count) ⟨nestCommands count⟩ := by
  induction count with
  | zero => exact .nil
  | succ count ih =>
    have named : Test.Head Test.Grammatical [.identifier "if"] ("if", [], []) :=
      .intro .nil .none
    have block : Command.Grammatical (nestTokens (count + 1)) ⟨"if", [], [], some (nestCommands count)⟩ :=
      .intro (.block named (.intro ih))
    have single := Sequence.cons block .nil
    rwa [List.append_nil] at single

theorem nest_tokenize (count : Nat) :
    ∃ spans, tokenize (nest count) = .ok spans ∧ Grammatical (meaning spans) ⟨nestCommands count⟩ := by
  obtain ⟨spans, hs, hm⟩ := nest_writes count at_boundary_nil lexes_nil 0
  rw [List.append_nil] at hs hm
  exact ⟨spans, hs, hm ▸ nest_grammatical count⟩

/-- The deepest nest that is allowed, and the next one. -/
theorem nest_limit :
    (∃ spans, tokenize (nest 64) = .ok spans ∧ parse (nest 64) = .ok ⟨nestCommands 64⟩) ∧
    ∃ spans, tokenize (nest 65) = .ok spans ∧ ∃ offset, parse (nest 65) = .error (.tooDeep offset) := by
  constructor
  · obtain ⟨spans, hs, hg⟩ := nest_tokenize 64
    refine ⟨spans, hs, ((parse_accepts_grammar (nest 64) spans hs).1 _).mpr ⟨hg, ?_⟩⟩
    decide
  · obtain ⟨spans, hs, hg⟩ := nest_tokenize 65
    refine ⟨spans, hs, (parse_accepts_grammar (nest 65) spans hs).2.2 _ hg ⟨65, ?_, by decide⟩⟩
    decide

end Script

end SieveRules
