import SieveRules.Proofs.Lookahead
/-!
The errors of the parser are where they belong. It looks at no more than one token behind those it
takes, so an error is there whatever follows the token that it names; and whatever it has taken
goes on to a script, so no token before is to blame.
-/

namespace SieveRules

open Text

namespace Argument

theorem begins_item : Begins ItemDerives [] :=
  .of_more (List.forall_mem_singleton.mpr (Token.writable_quoted "")) ⟨_, rfl, rfl⟩

theorem item_foreseen (input : List Span) : Foreseen item.run ItemDerives input := by
  cases input with
  | nil => exact .wants_end rfl begins_item
  | cons span rest =>
    cases hv : span.token.string? with
    | none =>
      refine .wants_other .string ?_ begins_item
      intro tail
      simp only [item, hv]
    | some value =>
      refine .takes (a := value) ?_
      intro tail
      simp only [item, hv]

theorem items_eq {others : List Span} (h : ∀ span ∈ others.head?, span.token ≠ .rbracket) :
    items others = item.list delimiter Expectation.listEnd.unmet others := by
  unfold items
  split
  · exact absurd rfl (h _ rfl)
  · rfl

theorem items_foreseen (input : List Span) :
    Foreseen items (fun ts values => Derives (.lbracket :: ts) (.stringList values)) input := by
  have listed := Parser.list_foreseen .listEnd item_foreseen item_sound delimits
    (Token.writable_punctuation (c := ']') rfl) input
  by_cases empty : ∃ span rest, input = span :: rest ∧ span.token = .rbracket
  · obtain ⟨⟨_, offset⟩, rest, rfl, rfl⟩ := empty
    exact .takes fun _ => rfl
  · refine (listed.imp ?_).congr ?_
    · intro ts hb
      exact hb.imp fun us values hl => ⟨values, .stringList hl⟩
    intro others ho
    refine items_eq ?_
    intro span hs ht
    rw [ho] at hs
    obtain ⟨rest, rfl⟩ := List.head?_eq_some_iff.mp hs
    exact empty ⟨span, rest, rfl, ht⟩

theorem begins : Begins Derives [] :=
  .of_more (List.forall_mem_singleton.mpr (Token.writable_quoted "")) (.string rfl)

theorem run_other {span : Span} (h : span.token ≠ .lbracket) (rest : List Span) :
    parser.run (span :: rest) =
      match ofToken? span.token with
      | some argument => .ok (argument, rest)
      | none => .error (Expectation.string.unmet (span :: rest)) := by
  simp only [parser]
  split
  · contradiction
  · rename_i hs
    obtain ⟨rfl, -⟩ := List.cons.inj hs
    exact absurd rfl h
  · rename_i hs
    obtain ⟨rfl, rfl⟩ := List.cons.inj hs
    rfl

theorem parser_foreseen (input : List Span) : Foreseen parser.run Derives input := by
  cases input with
  | nil => exact .wants_end rfl begins
  | cons span rest =>
    by_cases opening : span.token = .lbracket
    · obtain ⟨_, offset⟩ := span
      cases opening
      have behind : Foreseen (Reading.map items stringList)
          (fun ts argument => Derives (.lbracket :: ts) argument) rest :=
        (items_foreseen rest).map _ fun ts hb => hb.imp fun us values hd => ⟨_, hd⟩
      exact behind.cons (fun _ => rfl) fun ts hb => hb.behind [.lbracket]
    · cases ha : ofToken? span.token with
      | some argument =>
        refine .takes (a := argument) ?_
        intro tail
        rw [run_other opening, ha]
      | none =>
        refine .wants_other .string ?_ begins
        intro tail
        rw [run_other opening, ha]

theorem done_seen (input : List Span) : Parser.EndSeen done input := by
  cases input with
  | nil => exact .ends [] (sees_end rfl)
  | cons span rest =>
    cases hs : starts span.token with
    | true =>
      refine .goesOn (sees_next ?_)
      intro tail
      rw [done, hs, if_pos rfl]
    | false =>
      refine .ends [] (sees_next ?_)
      intro tail
      rw [List.nil_append, done, hs, if_neg Bool.false_ne_true]

theorem sequence_foreseen (input : List Span) :
    Foreseen sequence (Sequence Derives) input :=
  Parser.many_foreseen parser_foreseen parser_sound done_seen input

end Argument

namespace Test

variable {test : SpanParser Test} {language : List Token → Test → Prop}

theorem trailing_foreseen (hp : ∀ input, Foreseen test.run language input)
    (sound : test.Sound language) (input : List Span) :
    Foreseen (trailing test) (Trail language) input := by
  have bare : Foreseen (Reading.map test.run fun t => [t]) (Trail language) input :=
    (hp input).map _ fun ts hb => hb.imp fun us t hl => ⟨[t], .bare hl⟩
  cases input with
  | nil => exact .gives (sees_end rfl)
  | cons span rest =>
    obtain ⟨token, offset⟩ := span
    cases token with
    | identifier name => exact bare.congr (sees_next fun _ => rfl)
    | lparen =>
      have listed := Parser.list_foreseen .testListEnd hp sound delimits
        (Token.writable_punctuation (c := ')') rfl) rest
      refine listed.cons (fun _ => rfl) ?_
      intro ts hb
      exact Begins.behind [.lparen] (hb.imp fun us tests hl => ⟨tests, .list hl⟩)
    | _ => exact .gives (sees_next fun _ => rfl)

theorem begins_head : Begins (Head language) [] :=
  .of_more (List.forall_mem_singleton.mpr
    (Token.writable_word (show isWord "true" = true by decide))) (.intro .nil .none)

def behindName (test : SpanParser Test) (name : String) :
    Reading (String × List Argument × List Test) :=
  Reading.andThen Argument.sequence fun arguments =>
    Reading.map (trailing test) fun tests => (lowerCase name, arguments, tests)

theorem header_name (what : Expectation) (name : String) (offset : Nat) (rest : List Span) :
    (header what test).run (⟨.identifier name, offset⟩ :: rest) = behindName test name rest := by
  simp only [header, behindName]
  cases ha : Argument.sequence rest with
  | error e => rw [Reading.andThen_error ha]
  | ok found =>
    obtain ⟨arguments, behind⟩ := found
    rw [Reading.andThen_ok ha]
    simp only [Reading.map]
    cases trailing test behind with
    | error e => rfl
    | ok found => rfl

theorem behindName_foreseen (hp : ∀ input, Foreseen test.run language input)
    (sound : test.Sound language) (name : String) (input : List Span) :
    Foreseen (behindName test name)
      (fun ts found => Head language (.identifier name :: ts) found) input := by
  refine (Argument.sequence_foreseen input).andThen (fun _ _ => Argument.sequence_sound) ?_ ?_
  · intro ts hb
    refine hb.imp fun us arguments ha => ⟨(lowerCase name, arguments, []), ?_⟩
    have head : Head language (.identifier name :: (us ++ [])) (lowerCase name, arguments, []) :=
      .intro ha .none
    rwa [List.append_nil] at head
  · intro ts arguments rest _ ha
    refine (trailing_foreseen hp sound rest).map _ ?_
    exact fun us hb => hb.imp fun vs tests ht => ⟨_, .intro ha ht⟩

theorem header_foreseen (what : Expectation) (hp : ∀ input, Foreseen test.run language input)
    (sound : test.Sound language) (input : List Span) :
    Foreseen (header what test).run (Head language) input := by
  cases input with
  | nil => exact .wants_end rfl begins_head
  | cons span rest =>
    obtain ⟨token, offset⟩ := span
    cases token with
    | identifier name =>
      refine (behindName_foreseen hp sound name rest).cons (header_name what name offset) ?_
      exact fun ts hb => hb.behind [.identifier name]
    | _ => exact .wants_other what (fun _ => rfl) begins_head

theorem parser_foreseen (levels : Nat) (input : List Span) :
    Foreseen (parser levels).run (Derives levels) input := by
  induction levels generalizing input with
  | zero =>
    refine .inl ?_
    cases input with
    | nil => exact ⟨_, rfl⟩
    | cons span rest => exact ⟨_, rfl⟩
  | succ levels ih =>
    have headed := header_foreseen .test ih (parser_sound levels) input
    exact headed.map (fun found => Test.mk found.1 found.2.1 found.2.2) fun ts hb =>
      hb.imp fun us found hh => ⟨⟨found.1, found.2.1, found.2.2⟩, hh⟩

end Test

namespace Command

variable {test : SpanParser Test} {block : SpanParser (List Command)}
  {tests : List Token → Test → Prop} {blocks : List Token → List Command → Prop}

def behindHeader (block : SpanParser (List Command)) (header : String × List Argument × List Test) :
    Reading Command
  | ⟨.semicolon, _⟩ :: rest => .ok (⟨header.1, header.2.1, header.2.2, none⟩, rest)
  | ⟨.lbrace, _⟩ :: rest =>
    Reading.map block.run (fun body => ⟨header.1, header.2.1, header.2.2, some body⟩) rest
  | rest => .error (Expectation.commandEnd.unmet rest)

theorem parserWith_eq :
    (parserWith test block).run =
      Reading.andThen (Test.header .command test).run (behindHeader block) := by
  funext input
  simp only [parserWith]
  cases hh : (Test.header .command test).run input with
  | error e => rw [Reading.andThen_error hh]
  | ok found =>
    obtain ⟨header, rest⟩ := found
    rw [Reading.andThen_ok hh]
    cases rest with
    | nil => rfl
    | cons span rest =>
      obtain ⟨token, offset⟩ := span
      cases token <;> rfl

theorem behindHeader_foreseen (hb : ∀ input, Foreseen block.run blocks input) {ts : List Token}
    {header : String × List Argument × List Test} (hh : Test.Head tests ts header)
    (input : List Span) :
    Foreseen (behindHeader block header) (fun us command => Form tests blocks (ts ++ us) command)
      input := by
  have unfinished : Begins (fun us command => Form tests blocks (ts ++ us) command) [] :=
    .of_more (List.forall_mem_singleton.mpr (Token.writable_punctuation (c := ';') rfl)) (.line hh)
  cases input with
  | nil => exact .wants_end rfl unfinished
  | cons span rest =>
    obtain ⟨token, offset⟩ := span
    cases token with
    | semicolon => exact .takes fun _ => rfl
    | lbrace =>
      have behind : Foreseen (Reading.map block.run fun body =>
            Command.mk header.1 header.2.1 header.2.2 (some body))
          (fun us command => Form tests blocks (ts ++ .lbrace :: us) command) rest :=
        (hb rest).map _ fun us hu => hu.imp fun vs body hl => ⟨_, .block hh hl⟩
      exact behind.cons (fun _ => rfl) fun us hu => hu
    | _ => exact .wants_other .commandEnd (fun _ => rfl) unfinished

theorem parserWith_foreseen (ht : ∀ input, Foreseen test.run tests input) (sound : test.Sound tests)
    (hb : ∀ input, Foreseen block.run blocks input) (input : List Span) :
    Foreseen (parserWith test block).run (Form tests blocks) input := by
  rw [parserWith_eq]
  refine (Test.header_foreseen .command ht sound input).andThen
    (@Test.header_sound _ _ .command sound input) ?_ ?_
  · intro ts begins
    refine begins.closed
      (List.forall_mem_singleton.mpr (Token.writable_punctuation (c := ';') rfl)) ?_
    exact fun us header hh => ⟨_, .line hh⟩
  · intro ts header rest _ hh
    exact behindHeader_foreseen hb hh rest

theorem blockDone_seen (input : List Span) : Parser.EndSeen blockDone input := by
  cases input with
  | nil => exact .wants .blockEnd (sees_end rfl)
  | cons span rest =>
    obtain ⟨token, offset⟩ := span
    cases token with
    | rbrace => exact .ends [⟨.rbrace, offset⟩] fun _ _ => rfl
    | _ => exact .goesOn (sees_next fun _ => rfl)

theorem scriptDone_seen (input : List Span) : Parser.EndSeen scriptDone input := by
  cases input with
  | nil => exact .ends [] (sees_end rfl)
  | cons span rest => exact .goesOn (sees_next fun _ => rfl)

theorem blockParser_foreseen (levels : Nat) (input : List Span) :
    Foreseen (blockParser levels).run (BlockDerives levels) input := by
  induction levels generalizing input with
  | zero =>
    refine .inl ?_
    cases input with
    | nil => exact ⟨_, rfl⟩
    | cons span rest => exact ⟨_, rfl⟩
  | succ levels ih =>
    have tests := Test.parser_sound levels
    have commands := Parser.many_foreseen
      (parserWith_foreseen (Test.parser_foreseen levels) tests ih)
      (parserWith_sound tests (blockParser_sound levels)) blockDone_seen input
    refine commands.imp ?_
    intro ts begins
    refine begins.closed
      (List.forall_mem_singleton.mpr (Token.writable_punctuation (c := '}') rfl)) ?_
    exact fun us body hs => ⟨body, us, rfl, hs⟩

end Command

namespace Script

def reading : Reading (List Command) :=
  (Command.parserWith (Test.parser maxDepth) (Command.blockParser maxDepth)).many Command.scriptDone

theorem reading_foreseen (input : List Span) :
    Foreseen reading (Sequence (Command.Derives maxDepth)) input :=
  Parser.many_foreseen
    (Command.parserWith_foreseen (Test.parser_foreseen maxDepth) (Test.parser_sound maxDepth)
      (Command.blockParser_foreseen maxDepth))
    (Command.parserWith_sound (Test.parser_sound maxDepth) (Command.blockParser_sound maxDepth))
    Command.scriptDone_seen input

def Accepted (ts : List Token) : Prop :=
  ∃ spans script, meaning spans = ts ∧ ofSpans spans = .ok script

theorem accepted_iff {spans : List Span} :
    Accepted (meaning spans) ↔ ∃ script, ofSpans spans = .ok script := by
  constructor
  · rintro ⟨others, script, same, ho⟩
    exact ⟨script, ofSpans_iff.mpr (same ▸ ofSpans_iff.mp ho)⟩
  · rintro ⟨script, h⟩
    exact ⟨spans, script, rfl, h⟩

def plain (spans : List Span) : List Span :=
  spans.filter fun span => !span.token.isComment

theorem plain_eq_self {spans : List Span} :
    plain spans = spans ↔ ∀ span ∈ spans, span.token.isComment = false := by
  simp [plain]

theorem meaning_eq (spans : List Span) : meaning spans = (plain spans).map Span.token := rfl

theorem Accepted.no_comment {ts : List Token} (h : Accepted ts) :
    ∀ token ∈ ts, token.isComment = false := by
  obtain ⟨spans, script, rfl, -⟩ := h
  intro token ht
  obtain ⟨span, hs, rfl⟩ := List.mem_map.mp ht
  simpa using (List.mem_filter.mp hs).2

theorem plain_cut {spans used rest : List Span} {span : Span}
    (h : plain spans = used ++ span :: rest) :
    ∃ before after, spans = before ++ span :: after ∧ plain before = used := by
  obtain ⟨before, behind, rfl, hu, hb⟩ := List.filter_eq_append_iff.mp h
  obtain ⟨comments, after, rfl, hc, -, -⟩ := List.filter_eq_cons_iff.mp hb
  refine ⟨before ++ comments, after, by simp, ?_⟩
  have none : plain comments = [] := List.filter_eq_nil_iff.mpr hc
  rw [plain, List.filter_append, hu, ← plain, none, List.append_nil]

theorem ofSpans_reading (spans : List Span) :
    ofSpans spans = (reading (plain spans)).map fun found => ⟨found.1⟩ := rfl

variable {used rest spans : List Span} {what : Expectation} {e : ScriptError}

/-- Where the parser wants something else, nothing that begins with the same tokens and the one
behind them is accepted. -/
theorem not_prefix {span : Span}
    (hs : Settles reading (Sequence (Command.Derives maxDepth)) used (span :: rest) (.wants what))
    {ts : List Token} (ha : Accepted ts) : ¬ used.map Span.token ++ [span.token] <+: ts := by
  rintro ⟨more, rfl⟩
  -- the tokens that are accepted, with the offsets of the text as far as it goes
  let spans := used ++ span :: more.map (Span.mk · 0)
  have tokens : spans.map Span.token = used.map Span.token ++ [span.token] ++ more := by
    simp [spans, Function.comp_def]
  have all : plain spans = spans := by
    refine plain_eq_self.mpr ?_
    intro s hm
    exact ha.no_comment s.token (tokens ▸ List.mem_map_of_mem hm)
  have stops : reading spans = .error _ := hs.looks _ rfl
  rw [← tokens, ← all, ← meaning_eq, accepted_iff] at ha
  obtain ⟨script, h⟩ := ha
  rw [ofSpans_reading, all, stops] at h
  cases h

theorem unmet_of_error (h : ofSpans spans = .error e) (hd : ∀ offset, e ≠ .tooDeep offset) :
    ∃ used rest what, plain spans = used ++ rest ∧ e = Expectation.unmet what rest ∧
      Settles reading (Sequence (Command.Derives maxDepth)) used rest (.wants what) := by
  rw [ofSpans_reading] at h
  rcases reading_foreseen (plain spans) with ⟨offset, deep⟩ | ⟨used, rest, verdict, split, hs⟩
  · rw [deep] at h
    exact absurd (Except.error.inj h).symm (hd offset)
  · have outcome := hs.looks rest rfl
    rw [split, outcome] at h
    cases verdict with
    | gives commands => cases h
    | wants what => exact ⟨used, rest, what, split, (Except.error.inj h).symm, hs⟩

theorem completed_before {text : String} {before after : List Span} {span : Span}
    (h : tokenize text = .ok (before ++ span :: after))
    (hb : Begins (Sequence (Command.Derives maxDepth)) (meaning before)) :
    ∃ other others, tokenize other = .ok others ∧ Accepted (meaning others) ∧
      meaning before <+: meaning others := by
  obtain ⟨more, commands, hw, hd⟩ := hb
  obtain ⟨written, boundary, writes⟩ := writes_of_writable hw
  obtain ⟨left, -, -, -, -, -, -, ahead⟩ := spansFrom_parts h
  obtain ⟨behind, reads, means⟩ := writes at_boundary_nil lexes_nil span.offset
  rw [List.append_nil] at reads means
  have joined : meaning (before ++ behind) = meaning before ++ more := by
    rw [meaning_append, means]
  refine ⟨String.ofList (left ++ written), before ++ behind, ?_, ?_, ?_⟩
  · rw [tokenize, String.toList_ofList, ahead written boundary, reads]
    rfl
  · exact accepted_iff.mpr ⟨⟨commands⟩, ofSpans_iff.mpr (joined ▸ hd)⟩
  · exact ⟨more, joined.symm⟩

theorem completed_after {text : String} (h : tokenize text = .ok spans)
    (hb : Begins (Sequence (Command.Derives maxDepth)) (meaning spans)) :
    ∃ other others, tokenize other = .ok others ∧ Accepted (meaning others) ∧
      meaning spans <+: meaning others := by
  obtain ⟨more, commands, hw, hd⟩ := hb
  obtain ⟨written, boundary, writes⟩ := writes_of_writable hw
  obtain ⟨behind, reads, means⟩ := writes at_boundary_nil lexes_nil 0
  rw [List.append_nil] at reads means
  have reads : tokenize (String.ofList written) = .ok behind := by
    rw [tokenize, String.toList_ofList, reads]
  have joined : meaning (spans ++ behind.map (Span.shift (size text.toList + 1))) =
      meaning spans ++ more := by
    rw [meaning_append, meaning_shift, means]
  refine ⟨_, _, tokenize_joined h reads, ?_, more, joined.symm⟩
  exact accepted_iff.mpr ⟨⟨commands⟩, ofSpans_iff.mpr (joined ▸ hd)⟩

/-- An error names the first token with which the text stops being the beginning of a script: the
tokens before it go on to a text that parses, and none of those that are accepted goes on with it.
Where the text is at its end too early, all of it goes on to a text that parses. -/
theorem errors_at_first_impossible_token (text : String) (spans : List Span)
    (h : tokenize text = .ok spans) :
    (∀ what found offset, parse text = .error (.expected what found offset) →
      ∃ before after, plain spans = before ++ ⟨found, offset⟩ :: after ∧
        (∃ other others, tokenize other = .ok others ∧ Accepted (meaning others) ∧
          before.map Span.token <+: meaning others) ∧
        ∀ ts, Accepted ts → ¬ before.map Span.token ++ [found] <+: ts) ∧
    ∀ what, parse text = .error (.unexpectedEnd what) →
      (∃ other others, tokenize other = .ok others ∧ Accepted (meaning others) ∧
        meaning spans <+: meaning others ∧ meaning spans ≠ meaning others) ∧
      ¬ Accepted (meaning spans) := by
  have parsed : parse text = ofSpans spans := by rw [parse, h]
  rw [parsed]
  constructor
  · intro what found offset he
    obtain ⟨used, rest, what', split, same, hs⟩ := unmet_of_error he (by simp)
    cases rest with
    | nil => cases same
    | cons span after =>
      cases same
      obtain ⟨before, behind, rfl, rfl⟩ := plain_cut split
      refine ⟨plain before, after, split, ?_, ?_⟩
      · exact completed_before h (hs.begins what rfl)
      · intro ts ha hp
        exact not_prefix hs ha hp
  · intro what he
    obtain ⟨used, rest, what', split, same, hs⟩ := unmet_of_error he (by simp)
    cases rest with
    | cons span after => cases same
    | nil =>
      rw [List.append_nil] at split
      subst split
      have unaccepted : ¬ Accepted (meaning spans) := by
        rw [accepted_iff, he]
        rintro ⟨script, hs⟩
        cases hs
      obtain ⟨other, others, ho, ha, hp⟩ := completed_after h (hs.begins what' rfl)
      refine ⟨⟨other, others, ho, ha, hp, ?_⟩, unaccepted⟩
      intro he
      exact unaccepted (he ▸ ha)

def failure? {ε α : Type} : Except ε α → Option ε
  | .error e => some e
  | .ok _ => none

theorem error_of_failure? {ε α : Type} {x : Except ε α} {e : ε} (h : failure? x = some e) :
    x = .error e := by
  cases x with
  | error e' => exact congrArg _ (Option.some.inj h)
  | ok a => cases h

def unended : String := "if true \x7b keep \x7d"

def unclosed : String := "if true \x7b keep;"

theorem unended_unclosed :
    (parse unended = .error (.expected .commandEnd .rbrace 15) ∧
      ∃ spans, tokenize unended = .ok spans ∧
        ∃ before after, plain spans = before ++ ⟨.rbrace, 15⟩ :: after ∧
          (∃ other others, tokenize other = .ok others ∧ Accepted (meaning others) ∧
            before.map Span.token <+: meaning others) ∧
          ∀ ts, Accepted ts → ¬ before.map Span.token ++ [.rbrace] <+: ts) ∧
    parse unclosed = .error (.unexpectedEnd .blockEnd) ∧
      ∃ spans, tokenize unclosed = .ok spans ∧
        (∃ other others, tokenize other = .ok others ∧ Accepted (meaning others) ∧
          meaning spans <+: meaning others ∧ meaning spans ≠ meaning others) ∧
        ¬ Accepted (meaning spans) := by
  have keeps : (tokenize unended).toOption = some [⟨.identifier "if", 0⟩, ⟨.identifier "true", 3⟩,
      ⟨.lbrace, 8⟩, ⟨.identifier "keep", 10⟩, ⟨.rbrace, 15⟩] := by
    decide +kernel
  have ends : (tokenize unclosed).toOption = some [⟨.identifier "if", 0⟩, ⟨.identifier "true", 3⟩,
      ⟨.lbrace, 8⟩, ⟨.identifier "keep", 10⟩, ⟨.semicolon, 14⟩] := by
    decide +kernel
  have stops : parse unended = .error (.expected .commandEnd .rbrace 15) :=
    error_of_failure? (by decide +kernel)
  have lacks : parse unclosed = .error (.unexpectedEnd .blockEnd) :=
    error_of_failure? (by decide +kernel)
  have first := errors_at_first_impossible_token unended _ (except_ok_of_toOption keeps)
  have second := errors_at_first_impossible_token unclosed _ (except_ok_of_toOption ends)
  exact ⟨⟨stops, _, except_ok_of_toOption keeps, first.1 _ _ _ stops⟩,
    lacks, _, except_ok_of_toOption ends, second.2 _ lacks⟩

end Script

end SieveRules
