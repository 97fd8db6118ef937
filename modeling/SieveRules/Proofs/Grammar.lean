import SieveRules.Proofs.Lexing
import SieveRules.Proofs.Parsing
import SieveRules.Script.Parser
/-!
The grammar of scripts, over tokens, and the two directions between it and the parsers: what a
parser returns the grammar derives from the tokens that were read, and what the grammar derives
the parser returns. Tests and blocks are derived with a number of levels left for nesting.
-/

namespace SieveRules

open Text

variable {α : Type}

inductive Sequence (item : List Token → α → Prop) : List Token → List α → Prop where
  | nil : Sequence item [] []
  | cons {ts us a as} (h : item ts a) (rest : Sequence item us as) :
      Sequence item (ts ++ us) (a :: as)

/-- One item or more with commas between them, and the token that closes the list. -/
inductive Listed (item : List Token → α → Prop) (close : Token) :
    List Token → List α → Prop where
  | last {ts a} (h : item ts a) : Listed item close (ts ++ [close]) [a]
  | more {ts us a as} (h : item ts a) (rest : Listed item close us as) :
      Listed item close (ts ++ .comma :: us) (a :: as)

namespace Argument

def ItemDerives (ts : List Token) (value : String) : Prop :=
  ∃ token, ts = [token] ∧ token.string? = some value

inductive Derives : List Token → Argument → Prop where
  | string {token value} (h : token.string? = some value) : Derives [token] (.string value)
  | number (digits) : Derives [.number digits] (.number digits)
  | tag (name) : Derives [.tag name] (.tag name)
  | emptyList : Derives [.lbracket, .rbracket] (.stringList [])
  | stringList {ts items} (h : Listed ItemDerives .rbracket ts items) :
      Derives (.lbracket :: ts) (.stringList items)

end Argument

namespace Test

inductive Trail (test : List Token → Test → Prop) : List Token → List Test → Prop where
  | none : Trail test [] []
  | bare {ts t} (h : test ts t) : Trail test ts [t]
  | list {ts tests} (h : Listed test .rparen ts tests) : Trail test (.lparen :: ts) tests

inductive Head (test : List Token → Test → Prop) :
    List Token → String × List Argument × List Test → Prop where
  | intro {word ts us arguments tests} (ha : Sequence Argument.Derives ts arguments)
      (ht : Trail test us tests) :
      Head test (.identifier word :: (ts ++ us)) (lowerCase word, arguments, tests)

def Derives : Nat → List Token → Test → Prop
  | 0, _, _ => False
  | levels + 1, ts, test => Head (Derives levels) ts (test.name, test.arguments, test.tests)

end Test

namespace Command

inductive Form (test : List Token → Test → Prop) (block : List Token → List Command → Prop) :
    List Token → Command → Prop where
  | line {ts name arguments tests} (h : Test.Head test ts (name, arguments, tests)) :
      Form test block (ts ++ [.semicolon]) ⟨name, arguments, tests, none⟩
  | block {ts us name arguments tests body} (h : Test.Head test ts (name, arguments, tests))
      (hb : block us body) :
      Form test block (ts ++ .lbrace :: us) ⟨name, arguments, tests, some body⟩

def BlockDerives : Nat → List Token → List Command → Prop
  | 0, _, _ => False
  | levels + 1, ts, body => ∃ us, ts = us ++ [.rbrace] ∧
      Sequence (Form (Test.Derives levels) (BlockDerives levels)) us body

def Derives (levels : Nat) : List Token → Command → Prop :=
  Form (Test.Derives levels) (BlockDerives levels)

end Command

def Script.Derives (ts : List Token) (script : Script) : Prop :=
  Sequence (Command.Derives maxDepth) ts script.commands

namespace Parser

/-- What the parser returns, the language derives from the tokens that were read. -/
def Sound (p : SpanParser α) (language : List Token → α → Prop) : Prop :=
  ∀ ⦃input a rest⦄, p.run input = .ok (a, rest) →
    ∃ used, input = used ++ rest ∧ language (used.map Span.token) a

/-- What the language derives, the parser returns where something may follow that does not go on
with it. -/
def Complete (p : SpanParser α) (language : List Token → α → Prop)
    (follow : List Span → Prop) : Prop :=
  ∀ ⦃used a rest⦄, language (used.map Span.token) a → follow rest →
    p.run (used ++ rest) = .ok (a, rest)

structure Delimits (delimiter : Span → Option Delimiter) (close : Token) : Prop where
  close_iff : ∀ span, delimiter span = some .close ↔ span.token = close
  separator_iff : ∀ span, delimiter span = some .separator ↔ span.token = .comma

variable {p : SpanParser α} {language : List Token → α → Prop} {follow : List Span → Prop}
  {delimiter : Span → Option Delimiter} {missing : List Span → ScriptError} {close : Token}
  {done : List Span → Option (Except ScriptError (List Span))}

theorem list_sound (hp : p.Sound language) (hd : Delimits delimiter close) {input rest : List Span}
    {as : List α} (h : p.list delimiter missing input = .ok (as, rest)) :
    ∃ used, input = used ++ rest ∧ Listed language close (used.map Span.token) as := by
  fun_induction Parser.list p delimiter missing input generalizing as with
  | case1 => simp at h
  | case2 => simp at h
  | case3 input a symbol mid hrun hc =>
    simp only [Except.ok.injEq, Prod.mk.injEq] at h
    obtain ⟨rfl, rfl⟩ := h
    obtain ⟨used, rfl, ha⟩ := hp hrun
    refine ⟨used ++ [symbol], by simp, ?_⟩
    rw [List.map_append, List.map_singleton, (hd.close_iff symbol).mp hc]
    exact .last ha
  | case4 => simp at h
  | case5 input a symbol mid hrun hs as' out hlist ih =>
    simp only [Except.ok.injEq, Prod.mk.injEq] at h
    obtain ⟨rfl, rfl⟩ := h
    obtain ⟨used, rfl, ha⟩ := hp hrun
    obtain ⟨more, rfl, has⟩ := ih hlist
    refine ⟨used ++ symbol :: more, by simp, ?_⟩
    rw [List.map_append, List.map_cons, (hd.separator_iff symbol).mp hs]
    exact .more ha has
  | case6 => simp at h

theorem list_complete (hp : p.Complete language follow) (hd : Delimits delimiter close)
    (hf : ∀ span rest, span.token = close ∨ span.token = .comma → follow (span :: rest))
    {used rest : List Span} {as : List α} (h : Listed language close (used.map Span.token) as) :
    p.list delimiter missing (used ++ rest) = .ok (as, rest) := by
  generalize hts : used.map Span.token = ts at h
  induction h generalizing used with
  | last ha =>
    obtain ⟨us, vs, rfl, rfl, hvs⟩ := List.map_eq_append_iff.mp hts
    obtain ⟨span, rfl, hspan⟩ := List.map_eq_singleton_iff.mp hvs
    rw [List.append_assoc, List.singleton_append]
    exact list_close (hp ha (hf span rest (.inl hspan))) ((hd.close_iff span).mpr hspan)
  | more ha _ ih =>
    obtain ⟨us, vs, rfl, rfl, hvs⟩ := List.map_eq_append_iff.mp hts
    obtain ⟨span, ws, rfl, hspan, rfl⟩ := List.map_eq_cons_iff.mp hvs
    rw [List.append_assoc, List.cons_append, list_step (hp ha (hf span _ (.inr hspan)))
      ((hd.separator_iff span).mpr hspan), ih rfl]
    rfl

theorem many_sound (hp : p.Sound language) {input rest : List Span} {as : List α}
    (h : p.many done input = .ok (as, rest)) :
    ∃ used mid, input = used ++ mid ∧ Sequence language (used.map Span.token) as ∧
      done mid = some (.ok rest) := by
  fun_induction Parser.many p done input generalizing as with
  | case1 input out hd =>
    simp only [Except.ok.injEq, Prod.mk.injEq] at h
    obtain ⟨rfl, rfl⟩ := h
    exact ⟨[], input, rfl, .nil, hd⟩
  | case2 => simp at h
  | case3 => simp at h
  | case4 => simp at h
  | case5 input _ a mid hrun as' out hmany ih =>
    simp only [Except.ok.injEq, Prod.mk.injEq] at h
    obtain ⟨rfl, rfl⟩ := h
    obtain ⟨used, rfl, ha⟩ := hp hrun
    obtain ⟨more, last, rfl, has, hl⟩ := ih hmany
    exact ⟨used ++ more, last, by simp, List.map_append ▸ .cons ha has, hl⟩

theorem many_complete (hp : p.Complete language fun _ => True)
    (hd : ∀ used a rest, language (used.map Span.token) a → done (used ++ rest) = none)
    {used mid rest : List Span} {as : List α} (h : Sequence language (used.map Span.token) as)
    (hl : done mid = some (.ok rest)) : p.many done (used ++ mid) = .ok (as, rest) := by
  generalize hts : used.map Span.token = ts at h
  induction h generalizing used with
  | nil =>
    obtain rfl := List.map_eq_nil_iff.mp hts
    exact many_done hl
  | cons ha _ ih =>
    obtain ⟨us, vs, rfl, rfl, rfl⟩ := List.map_eq_append_iff.mp hts
    rw [List.append_assoc, many_step (hd us _ _ ha) (hp ha trivial), ih rfl]
    rfl

end Parser

namespace Argument

theorem item_sound : item.Sound ItemDerives := by
  intro input value rest h
  cases input with
  | nil => simp [item] at h
  | cons span tail =>
    simp only [item] at h
    split at h
    · rename_i v hv
      simp only [Except.ok.injEq, Prod.mk.injEq] at h
      obtain ⟨rfl, rfl⟩ := h
      exact ⟨[span], rfl, span.token, rfl, hv⟩
    · simp at h

theorem item_complete : item.Complete ItemDerives fun _ => True := by
  rintro used value rest ⟨token, ht, hv⟩ -
  obtain ⟨span, rfl, rfl⟩ := List.map_eq_singleton_iff.mp ht
  simp [item, hv]

theorem delimits : Parser.Delimits delimiter .rbracket := by
  constructor <;> intro span <;> unfold delimiter <;> split <;> simp_all

theorem items_sound {input rest : List Span} {values : List String}
    (h : items input = .ok (values, rest)) :
    ∃ used, input = used ++ rest ∧
      Derives (.lbracket :: used.map Span.token) (.stringList values) := by
  unfold items at h
  split at h
  · rename_i offset tail
    simp only [Except.ok.injEq, Prod.mk.injEq] at h
    obtain ⟨rfl, rfl⟩ := h
    exact ⟨[⟨.rbracket, offset⟩], rfl, .emptyList⟩
  · obtain ⟨used, rfl, hl⟩ := Parser.list_sound item_sound delimits h
    exact ⟨used, rfl, .stringList hl⟩

theorem listed_head {close : Token} {ts : List Token} {values : List String}
    (h : Listed ItemDerives close ts values) :
    ∃ token us, ts = token :: us ∧ token.string?.isSome = true := by
  cases h with
  | last hi => obtain ⟨token, rfl, hv⟩ := hi; exact ⟨token, _, rfl, by simp [hv]⟩
  | more hi => obtain ⟨token, rfl, hv⟩ := hi; exact ⟨token, _, rfl, by simp [hv]⟩

theorem items_complete {used rest : List Span} {values : List String}
    (h : Listed ItemDerives .rbracket (used.map Span.token) values) :
    items (used ++ rest) = .ok (values, rest) := by
  have hl : item.list delimiter Expectation.listEnd.unmet (used ++ rest) = .ok (values, rest) :=
    Parser.list_complete item_complete delimits (fun _ _ _ => trivial) h
  unfold items
  split
  · -- a list that is not empty starts with a string
    rename_i offset tail he
    obtain ⟨token, us, ht, hv⟩ := listed_head h
    obtain ⟨span, spans, rfl, rfl, -⟩ := List.map_eq_cons_iff.mp ht
    obtain ⟨rfl, -⟩ := List.cons.inj he
    simp [Token.string?] at hv
  · exact hl

theorem parser_sound : parser.Sound Derives := by
  intro input a rest h
  simp only [parser] at h
  split at h
  · simp at h
  · rename_i offset tail
    cases hi : items tail with
    | error e => simp [hi, Except.map] at h
    | ok found =>
      simp only [hi, Except.map, Except.ok.injEq, Prod.mk.injEq] at h
      obtain ⟨rfl, rfl⟩ := h
      obtain ⟨used, rfl, hd⟩ := items_sound hi
      exact ⟨⟨.lbracket, offset⟩ :: used, rfl, hd⟩
  · rename_i span tail _
    split at h
    · rename_i a' ha
      simp only [Except.ok.injEq, Prod.mk.injEq] at h
      obtain ⟨rfl, rfl⟩ := h
      refine ⟨[span], rfl, ?_⟩
      rw [List.map_singleton]
      unfold ofToken? at ha
      split at ha
      all_goals simp only [Option.some.injEq, reduceCtorEq] at ha
      all_goals subst ha; simp only [*]
      · exact .string rfl
      · exact .string rfl
      · exact .number _
      · exact .tag _
    · simp at h

theorem parser_complete : parser.Complete Derives fun _ => True := by
  intro used a rest h _
  generalize hts : used.map Span.token = ts at h
  cases h with
  | string hv =>
    obtain ⟨⟨token, offset⟩, rfl, rfl⟩ := List.map_eq_singleton_iff.mp hts
    cases token <;> simp_all [Token.string?, parser, ofToken?]
  | number digits =>
    obtain ⟨⟨token, offset⟩, rfl, rfl⟩ := List.map_eq_singleton_iff.mp hts
    rfl
  | tag name =>
    obtain ⟨⟨token, offset⟩, rfl, rfl⟩ := List.map_eq_singleton_iff.mp hts
    rfl
  | emptyList =>
    obtain ⟨⟨token, offset⟩, spans, rfl, rfl, hrest⟩ := List.map_eq_cons_iff.mp hts
    obtain ⟨⟨token, close⟩, rfl, rfl⟩ := List.map_eq_singleton_iff.mp hrest
    rfl
  | stringList hl =>
    obtain ⟨⟨token, offset⟩, spans, rfl, rfl, rfl⟩ := List.map_eq_cons_iff.mp hts
    simp [parser, items_complete hl, Except.map]

theorem derives_starts {ts : List Token} {a : Argument} (h : Derives ts a) :
    ∃ token us, ts = token :: us ∧ starts token = true := by
  cases h with
  | @string token value hv =>
    refine ⟨token, [], rfl, ?_⟩
    cases token <;> simp_all [Token.string?, starts, ofToken?]
  | number => exact ⟨_, _, rfl, rfl⟩
  | tag => exact ⟨_, _, rfl, rfl⟩
  | emptyList => exact ⟨_, _, rfl, rfl⟩
  | stringList => exact ⟨_, _, rfl, rfl⟩

def NoneStarts (rest : List Span) : Prop :=
  ∀ span ∈ rest.head?, starts span.token = false

theorem sequence_sound {input rest : List Span} {arguments : List Argument}
    (h : sequence input = .ok (arguments, rest)) :
    ∃ used, input = used ++ rest ∧ Sequence Derives (used.map Span.token) arguments := by
  obtain ⟨used, mid, rfl, hs, hd⟩ := Parser.many_sound parser_sound h
  refine ⟨used, ?_, hs⟩
  unfold done at hd
  split at hd
  · simp_all
  · split at hd <;> simp_all

theorem sequence_complete {used rest : List Span} {arguments : List Argument}
    (h : Sequence Derives (used.map Span.token) arguments) (hr : NoneStarts rest) :
    sequence (used ++ rest) = .ok (arguments, rest) := by
  refine Parser.many_complete parser_complete (fun us a rest ha => ?_) h ?_
  · obtain ⟨token, ts, ht, hs⟩ := derives_starts ha
    obtain ⟨span, spans, rfl, rfl, -⟩ := List.map_eq_cons_iff.mp ht
    simp [done, hs]
  · cases rest with
    | nil => rfl
    | cons span rest => simp [done, hr span rfl]

end Argument

namespace Test

/-- What may stand behind a test or behind the tests of a command. -/
def Ends (rest : List Span) : Prop :=
  ∀ span ∈ rest.head?, span.token ∈ [.semicolon, .comma, .rparen, .lbrace]

theorem delimits : Parser.Delimits delimiter .rparen := by
  constructor <;> intro span <;> unfold delimiter <;> split <;> simp_all

theorem ends_delimiter (span : Span) (rest : List Span)
    (h : span.token = .rparen ∨ span.token = .comma) : Ends (span :: rest) := by
  intro s hs
  obtain rfl : span = s := by simpa using hs
  rcases h with h | h <;> simp [h]

variable {test : SpanParser Test} {language : List Token → Test → Prop}

theorem trailing_sound (ht : test.Sound language) {input rest : List Span} {tests : List Test}
    (h : trailing test input = .ok (tests, rest)) :
    ∃ used, input = used ++ rest ∧ Trail language (used.map Span.token) tests := by
  unfold trailing at h
  split at h
  · rename_i name offset tail
    cases hrun : test.run (⟨.identifier name, offset⟩ :: tail) with
    | error e => simp [hrun, Except.map] at h
    | ok found =>
      simp only [hrun, Except.map, Except.ok.injEq, Prod.mk.injEq] at h
      obtain ⟨rfl, rfl⟩ := h
      obtain ⟨used, hu, hl⟩ := ht hrun
      exact ⟨used, hu, .bare hl⟩
  · rename_i offset tail
    obtain ⟨used, rfl, hl⟩ := Parser.list_sound ht delimits h
    exact ⟨⟨.lparen, offset⟩ :: used, rfl, .list hl⟩
  · simp only [Except.ok.injEq, Prod.mk.injEq] at h
    obtain ⟨rfl, rfl⟩ := h
    exact ⟨[], rfl, .none⟩

theorem trailing_none {rest : List Span} (h : Ends rest) : trailing test rest = .ok ([], rest) := by
  rcases rest with _ | ⟨⟨token, offset⟩, rest⟩
  · rfl
  · have ht := h _ rfl
    simp only [List.mem_cons, List.not_mem_nil, or_false] at ht
    rcases ht with rfl | rfl | rfl | rfl <;> rfl

theorem Ends.none_starts {rest : List Span} (h : Ends rest) : Argument.NoneStarts rest := by
  intro span hs
  have ht := h span hs
  simp only [List.mem_cons, List.not_mem_nil, or_false] at ht
  rcases ht with ht | ht | ht | ht <;> rw [ht] <;> rfl

def Named (language : List Token → Test → Prop) : Prop :=
  ∀ ⦃ts t⦄, language ts t → ∃ word us, ts = .identifier word :: us

theorem trailing_complete (ht : test.Complete language Ends) (hn : Named language)
    {used rest : List Span} {tests : List Test} (h : Trail language (used.map Span.token) tests)
    (hr : Ends rest) : trailing test (used ++ rest) = .ok (tests, rest) := by
  generalize hts : used.map Span.token = ts at h
  cases h with
  | none =>
    obtain rfl := List.map_eq_nil_iff.mp hts
    exact trailing_none hr
  | bare hl =>
    obtain ⟨word, us, rfl⟩ := hn hl
    obtain ⟨⟨token, offset⟩, spans, rfl, rfl, rfl⟩ := List.map_eq_cons_iff.mp hts
    have hrun : test.run (⟨.identifier word, offset⟩ :: (spans ++ rest)) = .ok (_, rest) :=
      @ht (⟨.identifier word, offset⟩ :: spans) _ rest hl hr
    simp [trailing, hrun, Except.map]
  | list hl =>
    obtain ⟨⟨token, offset⟩, spans, rfl, rfl, rfl⟩ := List.map_eq_cons_iff.mp hts
    exact Parser.list_complete ht delimits ends_delimiter hl

theorem trail_none_starts (hn : Named language) {used rest : List Span} {tests : List Test}
    (h : Trail language (used.map Span.token) tests) (hr : Ends rest) :
    Argument.NoneStarts (used ++ rest) := by
  generalize hts : used.map Span.token = ts at h
  cases h with
  | none =>
    obtain rfl := List.map_eq_nil_iff.mp hts
    exact hr.none_starts
  | bare hl =>
    obtain ⟨word, us, rfl⟩ := hn hl
    obtain ⟨span, spans, rfl, hspan, -⟩ := List.map_eq_cons_iff.mp hts
    intro s hs
    obtain rfl : span = s := by simpa using hs
    rw [hspan]
    rfl
  | list hl =>
    obtain ⟨span, spans, rfl, hspan, -⟩ := List.map_eq_cons_iff.mp hts
    intro s hs
    obtain rfl : span = s := by simpa using hs
    rw [hspan]
    rfl

theorem header_sound (what : Expectation) (ht : test.Sound language) :
    (header what test).Sound (Head language) := by
  intro input found rest h
  simp only [header] at h
  split at h
  · rename_i word offset tail
    split at h
    · simp at h
    · rename_i arguments mid ha
      split at h
      · simp at h
      · rename_i tests out hs
        simp only [Except.ok.injEq, Prod.mk.injEq] at h
        obtain ⟨rfl, rfl⟩ := h
        obtain ⟨us, rfl, hus⟩ := Argument.sequence_sound ha
        obtain ⟨vs, rfl, hvs⟩ := trailing_sound ht hs
        refine ⟨⟨.identifier word, offset⟩ :: (us ++ vs), by simp, ?_⟩
        rw [List.map_cons, List.map_append]
        exact .intro hus hvs
  · simp at h

theorem header_complete (what : Expectation) (ht : test.Complete language Ends)
    (hn : Named language) : (header what test).Complete (Head language) Ends := by
  intro used found rest h hr
  generalize hts : used.map Span.token = ts at h
  cases h with
  | intro ha hs =>
    obtain ⟨⟨token, offset⟩, spans, rfl, rfl, hspans⟩ := List.map_eq_cons_iff.mp hts
    obtain ⟨us, vs, rfl, rfl, rfl⟩ := List.map_eq_append_iff.mp hspans
    have harguments := Argument.sequence_complete ha (trail_none_starts hn hs hr)
    have htests := trailing_complete ht hn hs hr
    simp [header, harguments, htests]

theorem derives_named (levels : Nat) : Named (Derives levels) := by
  intro ts t h
  cases levels with
  | zero => exact h.elim
  | succ levels =>
    generalize hh : (t.name, t.arguments, t.tests) = found at h
    simp only [Derives, hh] at h
    cases h with
    | intro => exact ⟨_, _, rfl⟩

theorem parser_sound (levels : Nat) : (parser levels).Sound (Derives levels) := by
  induction levels with
  | zero => intro input t rest h; simp [parser, Parser.fail] at h
  | succ levels ih =>
    intro input t rest h
    simp only [parser, Parser.map] at h
    cases hh : (header .test (parser levels)).run input with
    | error e => simp [hh, Except.map] at h
    | ok found =>
      simp only [hh, Except.map, Except.ok.injEq, Prod.mk.injEq] at h
      obtain ⟨rfl, rfl⟩ := h
      exact header_sound .test ih hh

theorem parser_complete (levels : Nat) : (parser levels).Complete (Derives levels) Ends := by
  induction levels with
  | zero => intro used t rest h; exact h.elim
  | succ levels ih =>
    rintro used ⟨name, arguments, tests⟩ rest h hr
    have hh := header_complete .test ih (derives_named levels) h hr
    simp [parser, Parser.map, hh, Except.map]

end Test

namespace Command

variable {test : SpanParser Test} {block : SpanParser (List Command)}
  {tests : List Token → Test → Prop} {blocks : List Token → List Command → Prop}

theorem parserWith_sound (ht : test.Sound tests) (hb : block.Sound blocks) :
    (parserWith test block).Sound (Form tests blocks) := by
  intro input command rest h
  simp only [parserWith] at h
  split at h
  · simp at h
  · rename_i name arguments inner offset tail hh
    simp only [Except.ok.injEq, Prod.mk.injEq] at h
    obtain ⟨rfl, rfl⟩ := h
    obtain ⟨used, rfl, hu⟩ := Test.header_sound .command ht hh
    refine ⟨used ++ [⟨.semicolon, offset⟩], by simp, ?_⟩
    rw [List.map_append]
    exact .line hu
  · rename_i name arguments inner offset tail hh
    cases hrun : block.run tail with
    | error e => simp [hrun, Except.map] at h
    | ok found =>
      simp only [hrun, Except.map, Except.ok.injEq, Prod.mk.injEq] at h
      obtain ⟨rfl, rfl⟩ := h
      obtain ⟨used, rfl, hu⟩ := Test.header_sound .command ht hh
      obtain ⟨body, rfl, hbody⟩ := hb hrun
      refine ⟨used ++ ⟨.lbrace, offset⟩ :: body, by simp, ?_⟩
      rw [List.map_append]
      exact .block hu hbody
  · simp at h

theorem parserWith_complete (ht : test.Complete tests Test.Ends) (hn : Test.Named tests)
    (hb : block.Complete blocks fun _ => True) :
    (parserWith test block).Complete (Form tests blocks) fun _ => True := by
  intro used command rest h _
  generalize hts : used.map Span.token = ts at h
  cases h with
  | line hh =>
    obtain ⟨us, vs, rfl, rfl, hvs⟩ := List.map_eq_append_iff.mp hts
    obtain ⟨⟨token, offset⟩, rfl, rfl⟩ := List.map_eq_singleton_iff.mp hvs
    have ends : Test.Ends (⟨.semicolon, offset⟩ :: rest) := by simp [Test.Ends]
    have hrun := Test.header_complete .command ht hn hh ends
    simp [parserWith, hrun]
  | block hh hbody =>
    obtain ⟨us, vs, rfl, rfl, hvs⟩ := List.map_eq_append_iff.mp hts
    obtain ⟨⟨token, offset⟩, body, rfl, rfl, rfl⟩ := List.map_eq_cons_iff.mp hvs
    have ends : Test.Ends (⟨.lbrace, offset⟩ :: (body ++ rest)) := by simp [Test.Ends]
    have hrun := Test.header_complete .command ht hn hh ends
    have hrest : block.run (body ++ rest) = .ok (_, rest) := hb hbody trivial
    simp [parserWith, hrun, hrest, Except.map]

theorem form_named {ts : List Token} {command : Command} (h : Form tests blocks ts command) :
    ∃ word us, ts = .identifier word :: us := by
  cases h with
  | line hh => cases hh with | intro => exact ⟨_, _, rfl⟩
  | block hh => cases hh with | intro => exact ⟨_, _, rfl⟩

theorem blockParser_sound (levels : Nat) : (blockParser levels).Sound (BlockDerives levels) := by
  induction levels with
  | zero => intro input body rest h; simp [blockParser, Parser.fail] at h
  | succ levels ih =>
    intro input body rest h
    simp only [blockParser, Parser.manyUntil] at h
    obtain ⟨used, mid, rfl, hs, hd⟩ :=
      Parser.many_sound (parserWith_sound (Test.parser_sound levels) ih) h
    unfold blockDone at hd
    split at hd
    · simp at hd
    · rename_i offset tail
      simp only [Option.some.injEq, Except.ok.injEq] at hd
      subst hd
      refine ⟨used ++ [⟨.rbrace, offset⟩], by simp, used.map Span.token, by simp, hs⟩
    · simp at hd

theorem blockParser_complete (levels : Nat) :
    (blockParser levels).Complete (BlockDerives levels) fun _ => True := by
  induction levels with
  | zero => intro used body rest h; exact h.elim
  | succ levels ih =>
    rintro used body rest ⟨ts, hts, hs⟩ -
    obtain ⟨us, vs, rfl, rfl, hvs⟩ := List.map_eq_append_iff.mp hts
    obtain ⟨⟨token, offset⟩, rfl, rfl⟩ := List.map_eq_singleton_iff.mp hvs
    rw [List.append_assoc, List.singleton_append]
    have items := parserWith_complete (Test.parser_complete levels) (Test.derives_named levels) ih
    refine Parser.many_complete items (fun us a rest ha => ?_) hs rfl
    obtain ⟨word, ts, ht⟩ := form_named ha
    obtain ⟨⟨token, offset⟩, spans, rfl, rfl, -⟩ := List.map_eq_cons_iff.mp ht
    rfl

end Command

namespace Script

def ofSpansWithin (levels : Nat) (spans : List Span) : Except ScriptError Script :=
  ((Command.parserWith (Test.parser levels) (Command.blockParser levels)).many Command.scriptDone
    (spans.filter fun s => !s.token.isComment)).map fun (commands, _) => ⟨commands⟩

theorem ofSpans_eq : ofSpans = ofSpansWithin maxDepth := rfl

variable {levels : Nat} {spans : List Span} {script : Script}

theorem ofSpansWithin_sound (h : ofSpansWithin levels spans = .ok script) :
    Sequence (Command.Derives levels) (meaning spans) script.commands := by
  have commands := Command.parserWith_sound (Test.parser_sound levels)
    (Command.blockParser_sound levels)
  simp only [ofSpansWithin] at h
  cases hm : (Command.parserWith (Test.parser levels) (Command.blockParser levels)).many
      Command.scriptDone (spans.filter fun s => !s.token.isComment) with
  | error e => simp [hm, Except.map] at h
  | ok found =>
    simp only [hm, Except.map, Except.ok.injEq] at h
    subst h
    obtain ⟨used, mid, hu, hs, hd⟩ := Parser.many_sound commands hm
    unfold Command.scriptDone at hd
    split at hd
    · rw [List.append_nil] at hu
      rw [meaning, hu]
      exact hs
    · simp at hd

theorem ofSpansWithin_complete
    (h : Sequence (Command.Derives levels) (meaning spans) script.commands) :
    ofSpansWithin levels spans = .ok script := by
  have commands := Command.parserWith_complete (Test.parser_complete levels)
    (Test.derives_named levels) (Command.blockParser_complete levels)
  have hm := Parser.many_complete commands (fun us a rest ha => ?_) h
    (show Command.scriptDone [] = some (.ok []) from rfl)
  · rw [List.append_nil] at hm
    simp [ofSpansWithin, hm, Except.map]
  · obtain ⟨word, ts, ht⟩ := Command.form_named ha
    obtain ⟨span, spans, rfl, -, -⟩ := List.map_eq_cons_iff.mp ht
    rfl

/-- The parser accepts what the grammar derives, and returns the tree of the derivation. -/
theorem ofSpans_iff : ofSpans spans = .ok script ↔ Derives (meaning spans) script := by
  rw [ofSpans_eq]
  exact ⟨ofSpansWithin_sound, ofSpansWithin_complete⟩

theorem parse_ok_iff {text : String} {script : Script} :
    parse text = .ok script ↔ ∃ spans, tokenize text = .ok spans ∧ Derives (meaning spans) script := by
  unfold parse
  cases tokenize text with
  | error e =>
    constructor
    · intro h
      cases h
    · rintro ⟨spans, h, -⟩
      cases h
  | ok spans =>
    constructor
    · intro h
      exact ⟨spans, rfl, ofSpans_iff.mp h⟩
    · rintro ⟨spans', h, derived⟩
      cases h
      exact ofSpans_iff.mpr derived

end Script

end SieveRules
