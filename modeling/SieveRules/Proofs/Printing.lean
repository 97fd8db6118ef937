import SieveRules.Proofs.Grammar
import SieveRules.Proofs.Lexing
/-!
A written script reads back as itself. What has to hold of a tree for this is `Printable`: its names
and tags are words in lower case, its numbers are size literals, and it nests no deeper than a
script may. Its strings can be anything.
-/

namespace SieveRules

open Text

/-- The text means these tokens, whatever is understood behind it. -/
def Writes (text : List Char) (tokens : List Token) : Prop :=
  ∀ ⦃rest us⦄, AtBoundary rest → Lexes rest us → Lexes (text ++ rest) (tokens ++ us)

namespace Writes

variable {text more : List Char} {tokens ts : List Token}

theorem nil : Writes [] [] :=
  fun _ _ _ h => h

theorem append (h : Writes text tokens) (hm : Writes more ts) (hb : AtBoundary more) :
    Writes (text ++ more) (tokens ++ ts) := by
  intro rest us hr hl
  rw [List.append_assoc, List.append_assoc]
  exact h (hb.append hr) (hm hr hl)

theorem blank {c : Char} (hc : isBlank c = true) (h : Writes text tokens) :
    Writes (c :: text) tokens :=
  fun _ _ hr hl => .blank hc (h hr hl)

theorem blanks {indent : List Char} (hi : indent.all isBlank = true) (h : Writes text tokens) :
    Writes (indent ++ text) tokens := by
  intro rest us hr hl
  rw [List.append_assoc]
  exact .blanks hi (h hr hl)

theorem punctuation {c : Char} {token : Token} (hp : Token.punctuation? c = some token)
    (h : Writes text tokens) : Writes (c :: text) (token :: tokens) :=
  fun _ _ hr hl => .punctuation hp (h hr hl)

theorem quote (value : String) : Writes (SieveRules.quote value).toList [.quoted value] :=
  fun _ _ _ hl => .quote value hl

theorem word {name : String} (hn : isWord name = true) : Writes name.toList [.identifier name] :=
  fun _ _ hr hl => .word hn hr hl

theorem tag {name : String} (hn : isTag name = true) (hl : lowerCase name = name) :
    Writes name.toList [.tag name] :=
  fun _ _ hr h => .tag hn hl hr h

theorem number {digits : String} (hd : isSizeLiteral digits = true) :
    Writes digits.toList [.number digits] :=
  fun _ _ hr hl => .number hd hr hl

end Writes

theorem blank_boundary {c : Char} (h : isBlank c = true) : isWordPart c = false ∧ c ≠ ':' := by
  simp only [isBlank, Bool.or_eq_true, decide_eq_true_eq] at h
  rcases h with (((rfl | rfl) | rfl) | rfl) | rfl <;> decide

theorem blanks_boundary {indent text : List Char} (hi : indent.all isBlank = true)
    (ht : AtBoundary text) : AtBoundary (indent ++ text) := by
  cases indent with
  | nil => exact ht
  | cons c indent =>
    simp only [List.all_cons, Bool.and_eq_true] at hi
    exact at_boundary_cons.mpr (blank_boundary hi.1)

structure IsKeyword (name : String) : Prop where
  word : isWord name = true
  lower : lowerCase name = name

namespace Argument

def Printable : Argument → Prop
  | number digits => isSizeLiteral digits = true
  | tag name => isTag name = true ∧ lowerCase name = name
  | string _ | stringList _ => True

theorem items_writes (value : String) (items : List String) :
    ∃ ts, Listed ItemDerives .rbracket ts (value :: items) ∧
      Writes ((", ".intercalate ((value :: items).map quote)).toList ++ [']']) ts := by
  induction items generalizing value with
  | nil =>
    refine ⟨[.quoted value] ++ [.rbracket], .last ⟨_, rfl, rfl⟩, ?_⟩
    rw [List.map_singleton, String.intercalate_singleton]
    exact (Writes.quote value).append (.punctuation rfl .nil) (at_boundary_cons.mpr (by decide))
  | cons next items ih =>
    obtain ⟨ts, hl, hw⟩ := ih next
    refine ⟨[.quoted value] ++ .comma :: ts, .more ⟨_, rfl, rfl⟩ hl, ?_⟩
    have written : (", ".intercalate ((value :: next :: items).map quote)).toList ++ [']'] =
        (quote value).toList ++
          ',' :: ' ' :: ((", ".intercalate ((next :: items).map quote)).toList ++ [']']) := by
      rw [List.map_cons, List.map_cons, String.intercalate_cons_cons]
      simp only [String.toList_append, List.append_assoc]
      rfl
    rw [written]
    exact (Writes.quote value).append (.punctuation rfl (.blank rfl hw))
      (at_boundary_cons.mpr (by decide))

theorem render_writes {a : Argument} (h : a.Printable) :
    ∃ ts, Derives ts a ∧ Writes a.render.toList ts := by
  cases a with
  | string value => exact ⟨[.quoted value], .string rfl, .quote value⟩
  | number digits => exact ⟨[.number digits], .number digits, .number h⟩
  | tag name => exact ⟨[.tag name], .tag name, .tag h.1 h.2⟩
  | stringList items =>
    cases items with
    | nil => exact ⟨[.lbracket, .rbracket], .emptyList, .punctuation rfl (.punctuation rfl .nil)⟩
    | cons value items =>
      obtain ⟨ts, hl, hw⟩ := items_writes value items
      refine ⟨.lbracket :: ts, .stringList hl, ?_⟩
      have written : (render (.stringList (value :: items))).toList =
          '[' :: ((", ".intercalate ((value :: items).map quote)).toList ++ [']']) := by
        simp only [render, String.toList_append]
        rfl
      rw [written]
      exact .punctuation rfl hw

theorem renderAll_cons (a : Argument) (arguments : List Argument) :
    (renderAll (a :: arguments)).toList = ' ' :: (a.render.toList ++ (renderAll arguments).toList) := by
  simp [renderAll]

theorem renderAll_boundary (arguments : List Argument) :
    AtBoundary (renderAll arguments).toList := by
  cases arguments with
  | nil => simp [renderAll]
  | cons a arguments =>
    rw [renderAll_cons]
    exact at_boundary_cons.mpr (by decide)

theorem renderAll_writes {arguments : List Argument} (h : ∀ a ∈ arguments, a.Printable) :
    ∃ ts, Sequence Derives ts arguments ∧ Writes (renderAll arguments).toList ts := by
  induction arguments with
  | nil => exact ⟨[], .nil, by simpa [renderAll] using Writes.nil⟩
  | cons a arguments ih =>
    obtain ⟨ts, ha, hw⟩ := render_writes (h a List.mem_cons_self)
    obtain ⟨us, hs, hv⟩ := ih fun b hb => h b (List.mem_cons_of_mem _ hb)
    refine ⟨ts ++ us, .cons ha hs, ?_⟩
    rw [renderAll_cons]
    exact .blank rfl (hw.append hv (renderAll_boundary arguments))

end Argument

namespace Test

def AllWrite (language : List Token → Test → Prop) (tests : List Test) : Prop :=
  ∀ t ∈ tests, ∃ ts, language ts t ∧ Writes t.render.toList ts

variable {language : List Token → Test → Prop}

theorem listed_writes {t : Test} {tests : List Test} (h : AllWrite language (t :: tests)) :
    ∃ ts, Listed language .rparen ts (t :: tests) ∧
      Writes (t.render.toList ++ ((renderMore tests).toList ++ [')'])) ts := by
  induction tests generalizing t with
  | nil =>
    obtain ⟨ts, ht, hw⟩ := h t List.mem_cons_self
    refine ⟨ts ++ [.rparen], .last ht, ?_⟩
    have written : (renderMore []).toList ++ [')'] = [')'] := by simp [renderMore]
    rw [written]
    exact hw.append (.punctuation rfl .nil) (at_boundary_cons.mpr (by decide))
  | cons next tests ih =>
    obtain ⟨ts, ht, hw⟩ := h t List.mem_cons_self
    obtain ⟨us, hl, hv⟩ := ih fun u hu => h u (List.mem_cons_of_mem _ hu)
    refine ⟨ts ++ .comma :: us, .more ht hl, ?_⟩
    have written : (renderMore (next :: tests)).toList ++ [')'] =
        ',' :: ' ' :: (next.render.toList ++ ((renderMore tests).toList ++ [')'])) := by
      simp [renderMore]
    rw [written]
    exact hw.append (.punctuation rfl (.blank rfl hv)) (at_boundary_cons.mpr (by decide))

theorem renderAll_writes {tests : List Test} (h : AllWrite language tests) :
    ∃ ts, Trail language ts tests ∧ Writes (renderAll tests).toList ts := by
  match tests with
  | [] => exact ⟨[], .none, by simpa [renderAll] using Writes.nil⟩
  | [t] =>
    obtain ⟨ts, ht, hw⟩ := h t List.mem_cons_self
    refine ⟨ts, .bare ht, ?_⟩
    simpa [renderAll] using Writes.blank rfl hw
  | t :: next :: rest =>
    obtain ⟨ts, hl, hw⟩ := listed_writes h
    refine ⟨.lparen :: ts, .list hl, ?_⟩
    have written : (renderAll (t :: next :: rest)).toList =
        ' ' :: '(' :: (t.render.toList ++ ((renderMore (next :: rest)).toList ++ [')'])) := by
      simp [renderAll]
    rw [written]
    exact .blank rfl (.punctuation rfl hw)

theorem renderAll_boundary (tests : List Test) : AtBoundary (renderAll tests).toList := by
  match tests with
  | [] => simp [renderAll]
  | [t] => simp [renderAll, at_boundary_cons]; decide
  | t :: next :: rest => simp [renderAll, at_boundary_cons]; decide

theorem head_writes {name : String} {gap : List Char} {arguments : List Argument}
    {tests : List Test} (hn : IsKeyword name) (hg : gap.all isBlank = true)
    (ha : ∀ a ∈ arguments, a.Printable) (ht : AllWrite language tests) :
    ∃ ts, Head language ts (name, arguments, tests) ∧
      Writes (name.toList ++ (gap ++ ((Argument.renderAll arguments).toList ++
        (renderAll tests).toList))) ts := by
  obtain ⟨us, hs, hv⟩ := Argument.renderAll_writes ha
  obtain ⟨vs, hl, hw⟩ := renderAll_writes ht
  have hb := (Argument.renderAll_boundary arguments).append (renderAll_boundary tests)
  have behind : Writes ((Argument.renderAll arguments).toList ++ (renderAll tests).toList)
      (us ++ vs) := hv.append hw (renderAll_boundary tests)
  refine ⟨.identifier name :: (us ++ vs), ?_, ?_⟩
  · have hh : Head language (.identifier name :: (us ++ vs)) (lowerCase name, arguments, tests) :=
      .intro hs hl
    rwa [hn.lower] at hh
  · exact (Writes.word hn.word).append (.blanks hg behind) (blanks_boundary hg hb)

def Printable : Nat → Test → Prop
  | 0, _ => False
  | levels + 1, t =>
    IsKeyword t.name ∧ (∀ a ∈ t.arguments, a.Printable) ∧ ∀ u ∈ t.tests, Printable levels u

theorem render_eq (t : Test) : t.render.toList =
    t.name.toList ++ ((Argument.renderAll t.arguments).toList ++ (renderAll t.tests).toList) := by
  obtain ⟨name, arguments, tests⟩ := t
  simp [render]

theorem render_writes {levels : Nat} {t : Test} (h : t.Printable levels) :
    ∃ ts, Derives levels ts t ∧ Writes t.render.toList ts := by
  induction levels generalizing t with
  | zero => exact h.elim
  | succ levels ih =>
    obtain ⟨hn, ha, ht⟩ := h
    obtain ⟨ts, hh, hw⟩ := head_writes hn (List.all_nil) ha fun u hu => ih (ht u hu)
    exact ⟨ts, hh, render_eq t ▸ hw⟩

end Test

namespace Command

structure HeadPrintable (levels : Nat) (command : Command) : Prop where
  name : IsKeyword command.name
  arguments : ∀ a ∈ command.arguments, a.Printable
  tests : ∀ t ∈ command.tests, t.Printable levels

def Printable : Nat → Command → Prop
  | 0, command => command.HeadPrintable 0 ∧ command.block = none
  | levels + 1, command =>
    command.HeadPrintable (levels + 1) ∧ ∀ body ∈ command.block, ∀ c ∈ body, Printable levels c

theorem optionPlace_blank (name : String) (arguments : List Argument) :
    (optionPlace name arguments).toList.all isBlank = true := by
  unfold optionPlace
  split
  · decide
  · rfl

theorem render_eq (indent : String) (command : Command) : (command.render indent).toList =
    command.name.toList ++ ((optionPlace command.name command.arguments).toList ++
      ((Argument.renderAll command.arguments).toList ++ (Test.renderAll command.tests).toList)) ++
      (renderBlock indent command.block).toList := by
  obtain ⟨name, arguments, tests, block⟩ := command
  simp [render]

theorem renderBlock_boundary (indent : String) (block : Option (List Command)) :
    AtBoundary (renderBlock indent block).toList := by
  cases block with
  | none => simp [renderBlock, at_boundary_cons]; decide
  | some body => simp [renderBlock, at_boundary_cons]; decide

theorem renderLines_cons (indent : String) (command : Command) (body : List Command) :
    (renderLines indent (command :: body)).toList =
      indent.toList ++ ((command.render indent).toList ++
        '\n' :: (renderLines indent body).toList) := by
  simp [renderLines]

theorem renderBlock_some (indent : String) (body : List Command) :
    (renderBlock indent (some body)).toList = '\n' :: (indent.toList ++ '{' :: '\n' ::
      ((renderLines (indent ++ "    ") body).toList ++ (indent.toList ++ ['}']))) := by
  simp [renderBlock]

variable {language : List Token → Command → Prop}

theorem renderLines_writes {indent : String} (hi : indent.toList.all isBlank = true)
    {body : List Command}
    (h : ∀ c ∈ body, ∃ ts, language ts c ∧ Writes (c.render indent).toList ts) :
    ∃ ts, Sequence language ts body ∧ Writes (renderLines indent body).toList ts := by
  induction body with
  | nil => exact ⟨[], .nil, by simpa [renderLines] using Writes.nil⟩
  | cons c body ih =>
    obtain ⟨ts, hc, hw⟩ := h c List.mem_cons_self
    obtain ⟨us, hs, hv⟩ := ih fun d hd => h d (List.mem_cons_of_mem _ hd)
    refine ⟨ts ++ us, .cons hc hs, ?_⟩
    rw [renderLines_cons]
    exact .blanks hi (hw.append (.blank rfl hv) (at_boundary_cons.mpr (by decide)))

theorem HeadPrintable.writes {levels : Nat} {command : Command}
    (h : command.HeadPrintable levels) :
    ∃ ts, Test.Head (Test.Derives levels) ts (command.name, command.arguments, command.tests) ∧
      Writes (command.name.toList ++ ((optionPlace command.name command.arguments).toList ++
        ((Argument.renderAll command.arguments).toList ++
          (Test.renderAll command.tests).toList))) ts :=
  Test.head_writes h.name (optionPlace_blank _ _) h.arguments
    fun t ht => Test.render_writes (h.tests t ht)

theorem line_writes {levels : Nat} {command : Command} (h : command.HeadPrintable levels)
    (hb : command.block = none) (indent : String) :
    ∃ ts, Derives levels ts command ∧ Writes (command.render indent).toList ts := by
  obtain ⟨ts, hh, hw⟩ := h.writes
  obtain ⟨name, arguments, tests, block⟩ := command
  obtain rfl : block = none := hb
  have derived : Derives levels (ts ++ [.semicolon]) ⟨name, arguments, tests, none⟩ :=
    Form.line hh
  refine ⟨_, derived, ?_⟩
  rw [render_eq]
  exact hw.append (by simpa [renderBlock] using .punctuation rfl .nil) (renderBlock_boundary _ _)

/-- The induction is on the levels left, one of which each block takes. -/
theorem render_writes {levels : Nat} {command : Command} (h : command.Printable levels)
    {indent : String} (hi : indent.toList.all isBlank = true) :
    ∃ ts, Derives levels ts command ∧ Writes (command.render indent).toList ts := by
  induction levels generalizing command indent with
  | zero => exact line_writes h.1 h.2 indent
  | succ levels ih =>
    obtain ⟨hh, hb⟩ := h
    cases hblock : command.block with
    | none => exact line_writes hh hblock indent
    | some body =>
      have deeper : (indent ++ "    ").toList.all isBlank = true := by
        rw [String.toList_append, List.all_append, hi]
        rfl
      obtain ⟨us, hs, hv⟩ := renderLines_writes deeper fun c hc => ih (hb body hblock c hc) deeper
      obtain ⟨ts, hd, hw⟩ := hh.writes
      obtain ⟨name, arguments, tests, block⟩ := command
      obtain rfl : block = some body := hblock
      have closing : Writes (indent.toList ++ ['}']) [.rbrace] :=
        .blanks hi (.punctuation rfl .nil)
      have inner : Writes ((renderLines (indent ++ "    ") body).toList ++
          (indent.toList ++ ['}'])) (us ++ [.rbrace]) :=
        hv.append closing (blanks_boundary hi (at_boundary_cons.mpr (by decide)))
      have written : Writes (renderBlock indent (some body)).toList
          (.lbrace :: (us ++ [.rbrace])) := by
        rw [renderBlock_some]
        exact .blank rfl (.blanks hi (.punctuation rfl (.blank rfl inner)))
      have derived : Derives (levels + 1) (ts ++ .lbrace :: (us ++ [.rbrace]))
          ⟨name, arguments, tests, some body⟩ := Form.block hd ⟨us, rfl, hs⟩
      refine ⟨_, derived, ?_⟩
      rw [render_eq]
      exact hw.append written (renderBlock_boundary _ _)

theorem renderTop_lexes {levels : Nat} {command : Command} (h : command.Printable levels) :
    ∃ ts, Derives levels ts command ∧ ∀ rest us, Lexes rest us →
      Lexes (command.renderTop.toList ++ rest) (ts ++ us) := by
  have flush : "".toList.all isBlank = true := rfl
  obtain ⟨ts, hd, hw⟩ := render_writes h flush
  refine ⟨ts, hd, ?_⟩
  intro rest us hl
  rw [renderTop, String.toList_append, List.append_assoc]
  split
  · exact hw (at_boundary_cons.mpr (by decide)) (.blank rfl (.blank rfl hl))
  · exact hw (at_boundary_cons.mpr (by decide)) (.blank rfl hl)

end Command

namespace Script

def Printable (script : Script) : Prop :=
  ∀ command ∈ script.commands, command.Printable maxDepth

theorem render_lexes {levels : Nat} {commands : List Command}
    (h : ∀ command ∈ commands, command.Printable levels) :
    ∃ ts, Sequence (Command.Derives levels) ts commands ∧
      Lexes (String.join (commands.map Command.renderTop)).toList ts := by
  induction commands with
  | nil => exact ⟨[], .nil, by simpa using lexes_nil⟩
  | cons command commands ih =>
    obtain ⟨ts, hd, hw⟩ := Command.renderTop_lexes (h command List.mem_cons_self)
    obtain ⟨us, hs, hl⟩ := ih fun c hc => h c (List.mem_cons_of_mem _ hc)
    refine ⟨ts ++ us, .cons hd hs, ?_⟩
    rw [List.map_cons, String.join_cons, String.toList_append]
    exact hw _ _ hl

theorem parse_render {script : Script} (h : script.Printable) :
    Script.parse script.render = .ok script := by
  obtain ⟨ts, hd, hl⟩ := render_lexes h
  obtain ⟨spans, hs, rfl⟩ := hl 0
  have tokens : tokenize script.render = .ok spans := hs
  rw [Script.parse, tokens]
  exact ofSpans_iff.mpr hd

end Script

end SieveRules
