import SieveRules.Json.Printer
import SieveRules.Json.Reader
import SieveRules.Proofs.Parsing
import SieveRules.Proofs.Text
/-!
JSON text reads back as the value it is written for. `Spells` ties a text to its tokens, whatever
stands behind it; `Reads` goes on to the value that the tokens mean.
-/

namespace SieveRules

namespace Json

/-- The text does not carry on a number that stands before it. -/
def AtEnd (text : List Char) : Prop :=
  ∀ c ∈ text.head?, Text.isDigit c = false ∧ c ≠ '.' ∧ c ≠ 'e' ∧ c ≠ 'E'

@[simp] theorem at_end_nil : AtEnd [] := by
  simp [AtEnd]

theorem at_end_cons {c : Char} {text : List Char} :
    AtEnd (c :: text) ↔ Text.isDigit c = false ∧ c ≠ '.' ∧ c ≠ 'e' ∧ c ≠ 'E' := by
  simp [AtEnd]

theorem AtEnd.append {text rest : List Char} (h : AtEnd text) (hr : AtEnd rest) :
    AtEnd (text ++ rest) := by
  cases text with
  | nil => exact hr
  | cons c text => exact at_end_cons.mpr (at_end_cons.mp h)

theorem tokens?_nil : tokens? [] = some [] := by
  have ended : tokensDone [] = some (.ok []) := rfl
  rw [tokens?, Parser.many_done ended]
  rfl

theorem tokens?_space {c : Char} (hc : isSpace c = true) (input : List Char) :
    tokens? (c :: input) = tokens? input := by
  have skipped : (c :: input).dropWhile isSpace = input.dropWhile isSpace := by
    rw [List.dropWhile_cons, if_pos hc]
  have ended : tokensDone (c :: input) = tokensDone input := by rw [tokensDone, skipped, tokensDone]
  have run : tokenParser.run (c :: input) = tokenParser.run input := by
    simp only [tokenParser, skipped]
  rw [tokens?, tokens?]
  cases hd : tokensDone input with
  | some outcome => rw [Parser.many_done (ended.trans hd), Parser.many_done hd]
  | none =>
    cases hr : tokenParser.run input with
    | error e => rw [Parser.many_fails (ended.trans hd) (run.trans hr), Parser.many_fails hd hr]
    | ok found => rw [Parser.many_step (ended.trans hd) (run.trans hr), Parser.many_step hd hr]

theorem token?_space {c : Char} (hc : isSpace c = true) (input : List Char) :
    token? (c :: input) = none := by
  simp only [isSpace, Bool.or_eq_true, decide_eq_true_eq] at hc
  rcases hc with ((rfl | rfl) | rfl) | rfl <;> rfl

theorem tokens?_token {input rest : List Char} {token : Token} {later : List Token}
    (ht : token? input = some (token, rest)) (h : tokens? rest = some later) :
    tokens? input = some (token :: later) := by
  obtain ⟨c, cs, rfl⟩ : ∃ c cs, input = c :: cs := by
    cases input with
    | nil => cases ht
    | cons c cs => exact ⟨c, cs, rfl⟩
  have solid : (c :: cs).dropWhile isSpace = c :: cs := by
    rw [List.dropWhile_cons, if_neg]
    intro hc
    rw [token?_space hc] at ht
    cases ht
  have ended : tokensDone (c :: cs) = none := by rw [tokensDone, solid]
  have run : tokenParser.run (c :: cs) = .ok (token, rest) := by
    simp only [tokenParser, solid, ht]
  rw [tokens?] at h ⊢
  rw [Parser.many_step ended run]
  cases hm : tokenParser.many tokensDone rest with
  | error e =>
    rw [hm] at h
    cases h
  | ok found =>
    rw [hm] at h
    cases h
    rfl

/-- The text is these tokens in front of any others. -/
def Spells (text : List Char) (tokens : List Token) : Prop :=
  ∀ rest later, AtEnd rest → tokens? rest = some later →
    tokens? (text ++ rest) = some (tokens ++ later)

namespace Spells

variable {text more : List Char} {tokens others : List Token}

theorem nil : Spells [] [] :=
  fun _ _ _ h => h

theorem append (h : Spells text tokens) (hm : Spells more others) (he : AtEnd more) :
    Spells (text ++ more) (tokens ++ others) := by
  intro rest later hr hl
  rw [List.append_assoc, List.append_assoc]
  exact h _ _ (he.append hr) (hm _ _ hr hl)

theorem token {input : List Char} {t : Token} (ht : ∀ rest, token? (input ++ rest) = some (t, rest)) :
    Spells input [t] := by
  intro rest later _ hl
  exact tokens?_token (ht rest) hl

theorem punctuation {c : Char} {t : Token} (ht : ∀ rest, token? (c :: rest) = some (t, rest))
    (h : Spells text tokens) : Spells (c :: text) (t :: tokens) := by
  intro rest later hr hl
  exact tokens?_token (ht (text ++ rest)) (h _ _ hr hl)

theorem spaces (lead : List Char) (hs : lead.all isSpace = true) (h : Spells text tokens) :
    Spells (lead ++ text) tokens := by
  intro rest later hr hl
  induction lead with
  | nil => exact h _ _ hr hl
  | cons c lead ih =>
    simp only [List.all_cons, Bool.and_eq_true] at hs
    rw [List.cons_append, List.cons_append, tokens?_space hs.1]
    exact ih hs.2

end Spells

theorem hexUnit?_control : ∀ n < 0x20,
    hexUnit? '0' '0' (Nat.digitChar (n / 16)) (Nat.digitChar (n % 16)) = some n := by
  decide

theorem stringUnits_plain {c : Char} (hq : c ≠ '"') (hb : c ≠ '\\') (hc : ¬ c.toNat < 0x20)
    (rest : List Char) : stringUnits (c :: rest) =
      (stringUnits rest).map fun (units, rest) => (c.toNat :: units, rest) := by
  rw [stringUnits]
  · simp [hb, hc]
  · exact hq
  · exact fun _ _ _ _ _ h => absurd h hb
  · exact fun _ _ h => absurd h hb

theorem stringUnits_escape (c : Char) (rest : List Char) :
    stringUnits (escapeChar c ++ rest) =
      (stringUnits rest).map fun (units, rest) => (c.toNat :: units, rest) := by
  unfold escapeChar
  iterate 7
    split
    · rename_i h
      subst h
      rfl
  split
  · rename_i hc
    change stringUnits ('\\' :: 'u' :: '0' :: '0' :: _ :: _ :: rest) = _
    rw [stringUnits, hexUnit?_control c.toNat hc]
  · rename_i hq hb _ _ _ _ _ hc
    exact stringUnits_plain hq hb hc rest

theorem stringUnits_escaped (cs rest : List Char) :
    stringUnits (cs.flatMap escapeChar ++ '"' :: rest) = some (cs.map Char.toNat, rest) := by
  induction cs with
  | nil => rfl
  | cons c cs ih =>
    rw [List.flatMap_cons, List.append_assoc, stringUnits_escape, ih]
    rfl

theorem unitChar?_toNat (c : Char) : unitChar? c.toNat = some c := by
  have valid : c.toNat.isValidChar := c.valid
  rw [unitChar?, if_pos valid, Char.ofNat_toNat]

theorem not_high_surrogate (c : Char) : isHighSurrogate c.toNat = false := by
  have valid : c.toNat.isValidChar := c.valid
  simp only [isHighSurrogate, Nat.isValidChar] at *
  simp
  omega

theorem unitsText?_cons (c : Char) (units : List Nat) :
    unitsText? (c.toNat :: units) = (unitsText? units).map (c :: ·) := by
  cases units with
  | nil =>
    change (unitChar? c.toNat).map (fun c => [c]) = _
    rw [unitChar?_toNat]
    rfl
  | cons unit units =>
    rw [unitsText?, not_high_surrogate, unitChar?_toNat]
    cases unitsText? (unit :: units) <;> rfl

theorem unitsText?_units (cs : List Char) : unitsText? (cs.map Char.toNat) = some cs := by
  induction cs with
  | nil => rfl
  | cons c cs ih => rw [List.map_cons, unitsText?_cons, ih]; rfl

theorem Spells.text (s : String) : Spells (quoteText s).toList [.string (some s)] := by
  apply Spells.token
  intro rest
  have text : (quoteText s).toList ++ rest =
      '"' :: (s.toList.flatMap escapeChar ++ '"' :: rest) := by
    simp [quoteText]
  rw [text]
  change (stringUnits _).map _ = _
  rw [stringUnits_escaped]
  simp [unitsText?_units]

theorem AtEnd.no_digit {text : List Char} (h : AtEnd text) :
    ∀ c ∈ text.head?, Text.isDigit c = false :=
  fun c hc => (h c hc).1

theorem digits?_run {ds rest : List Char} (hne : ds ≠ []) (hd : ds.all Text.isDigit = true)
    (he : AtEnd rest) : digits? (ds ++ rest) = some (ds, rest) := by
  rw [digits?, takeWhile_run hd he.no_digit, dropWhile_run hd he.no_digit]
  cases ds with
  | nil => exact absurd rfl hne
  | cons d ds => rfl

theorem whole?_toString (n : Nat) {rest : List Char} (he : AtEnd rest) :
    whole? ((toString n).toList ++ rest) = some ((toString n).toList, rest) := by
  by_cases hn : n = 0
  · subst hn
    rfl
  · have plain := digits?_run (toString_nonempty n) (toString_digits n) he
    rw [whole?]
    · exact plain
    · intro tail htail
      cases hd : (toString n).toList with
      | nil => exact absurd hd (toString_nonempty n)
      | cons d ds =>
        rw [hd] at htail
        obtain ⟨rfl, -⟩ := List.cons.inj htail
        exact toString_leading hn (by rw [hd]; rfl)

theorem fraction?_end {rest : List Char} (he : AtEnd rest) : fraction? rest = some ([], rest) := by
  rw [fraction?]
  rintro tail rfl
  exact absurd rfl (at_end_cons.mp he).2.1

theorem exponent?_end {rest : List Char} (he : AtEnd rest) : exponent? rest = some (none, rest) := by
  cases rest with
  | nil => rfl
  | cons c rest =>
    obtain ⟨-, -, small, large⟩ := at_end_cons.mp he
    simp [exponent?, small, large]

theorem number?_toString (n : Nat) {rest : List Char} (he : AtEnd rest) :
    number? ((toString n).toList ++ rest) = some (.ofNat n, rest) := by
  have unsigned : ∀ tail, (toString n).toList ++ rest ≠ '-' :: tail := by
    intro tail ht
    cases hd : (toString n).toList with
    | nil => exact toString_nonempty n hd
    | cons d ds =>
      have digits := toString_digits n
      rw [hd] at ht digits
      obtain ⟨rfl, -⟩ := List.cons.inj ht
      cases digits
  unfold number?
  split
  rename_i negative input hs
  split at hs
  · rename_i tail ht
    exact absurd ht (unsigned tail)
  · cases hs
    simp only [whole?_toString n he, fraction?_end he, exponent?_end he, decimal_toString,
      Option.bind_eq_bind, Option.bind_some]
    rfl

theorem token?_digit {d : Char} (hd : Text.isDigit d = true) (rest : List Char) :
    token? (d :: rest) = (number? (d :: rest)).map fun (n, rest) => (.number n, rest) := by
  rw [token?]
  all_goals
    intros
    rename_i h
    cases h <;> cases hd

theorem Spells.number (n : Nat) : Spells (toString n).toList [.number (.ofNat n)] := by
  intro rest later he hl
  refine tokens?_token ?_ hl
  have read := number?_toString n he
  have digits := toString_digits n
  cases hd : (toString n).toList with
  | nil => exact absurd hd (toString_nonempty n)
  | cons d ds =>
    rw [hd] at read digits
    simp only [List.all_cons, Bool.and_eq_true] at digits
    rw [List.cons_append] at read ⊢
    rw [token?_digit digits.1, read]
    rfl

/-- The value is nested in no more levels than given; its strings are texts and its numbers 32-bit
words. -/
inductive Fits : Nat → Json → Prop where
  | bool {levels : Nat} (value : Bool) : Fits levels (.bool value)
  | word {levels n : Nat} : n < UInt32.size → Fits levels (.ofNat n)
  | text {levels : Nat} (s : String) : Fits levels (.ofString s)
  | array {levels : Nat} {items : List Json} :
      (∀ item ∈ items, Fits levels item) → Fits (levels + 1) (.array items)
  | members {levels : Nat} {members : List (String × Json)} :
      (∀ m ∈ members, Fits levels m.2) → Fits (levels + 1) (.ofMembers members)

/-- The text is read as a value by parsers that go as many levels deep as it opens. -/
def Reads {α : Type} (p : Nat → TokenParser α) (text : List Char) (a : α) : Prop :=
  ∃ tokens, Spells text tokens ∧ ∀ levels, tokens.countP Token.opens < levels → ∀ rest,
    (p levels).run (tokens ++ rest) = .ok (a, rest)

section

variable {α : Type} {p : Nat → TokenParser α} {delimiter : Token → Option Parser.Delimiter}
  {closing : Token} (hc : delimiter closing = some .close)
  (hs : delimiter .comma = some .separator) {lead : List Char} (hl : lead.all isSpace = true)

include hc hs hl

theorem listed_reads {write : α → List Char} {a : α} {items : List α}
    (h : ∀ b ∈ a :: items, Reads p (write b) b) :
    ∃ tokens, Spells (write a ++ items.flatMap fun b => ',' :: (lead ++ write b)) tokens ∧
      ∀ levels, tokens.countP Token.opens < levels → ∀ rest,
        (p levels).list delimiter (fun _ => ()) (tokens ++ closing :: rest) =
          .ok (a :: items, rest) := by
  induction items generalizing a with
  | nil =>
    obtain ⟨ts, hw, hp⟩ := h a List.mem_cons_self
    refine ⟨ts, by simpa using hw, ?_⟩
    intro levels hn rest
    exact Parser.list_close (hp levels hn _) hc
  | cons b items ih =>
    obtain ⟨ts, hw, hp⟩ := h a List.mem_cons_self
    obtain ⟨us, hv, hq⟩ := ih fun b' hb => h b' (List.mem_cons_of_mem _ hb)
    have behind : Spells (',' :: (lead ++ (write b ++ items.flatMap fun b => ',' :: (lead ++ write b))))
        (.comma :: us) :=
      .punctuation (fun _ => rfl) (.spaces lead hl hv)
    refine ⟨ts ++ .comma :: us, ?_, ?_⟩
    · have all := hw.append behind (at_end_cons.mpr (by decide))
      simpa using all
    · intro levels hn rest
      rw [List.countP_append, List.countP_cons] at hn
      have first := hp levels (by omega) (.comma :: (us ++ closing :: rest))
      rw [List.append_assoc, List.cons_append, Parser.list_step first hs, hq levels (by omega) rest]
      rfl

end

theorem number_text {n : Nat} (h : n < UInt32.size) : (JsonNumber.ofNat n).text = toString n := by
  have fits : n < UInt64.size := Nat.lt_trans h (by decide)
  simp [JsonNumber.text, JsonNumber.ofNat, fits]

theorem parser_rbracket (levels : Nat) (rest : List Token) :
    (parser levels).run (.rbracket :: rest) = .error () := by
  cases levels <;> rfl

theorem array_reads {levels : Nat} {tokens rest : List Token} {items : List Json}
    (h : (parser levels).list itemDelimiter (fun _ => ()) tokens = .ok (items, rest)) :
    (parser (levels + 1)).run (.lbracket :: tokens) = .ok (.array items, rest) := by
  change readValue (parser levels) (.lbracket :: tokens) = _
  rw [readValue]
  · rw [h]
    rfl
  · rintro tail rfl
    rw [Parser.list_fails (parser_rbracket levels tail)] at h
    cases h

theorem object_reads {levels : Nat} {tokens rest : List Token}
    {members : List (Option String × Json)}
    (h : (memberParser (parser levels)).list memberDelimiter (fun _ => ()) tokens =
      .ok (members, rest)) :
    (parser (levels + 1)).run (.lbrace :: tokens) = .ok (.object members, rest) := by
  change readValue (parser levels) (.lbrace :: tokens) = _
  rw [readValue]
  · rw [h]
    rfl
  · rintro tail rfl
    have fails : (memberParser (parser levels)).run (.rbrace :: tail) = .error () := rfl
    rw [Parser.list_fails fails] at h
    cases h

theorem flat_reads {text : List Char} {tokens : List Token} {j : Json} (hw : Spells text tokens)
    (hr : ∀ inner rest, readValue inner (tokens ++ rest) = .ok (j, rest)) : Reads parser text j := by
  refine ⟨tokens, hw, ?_⟩
  intro levels hn rest
  cases levels with
  | zero => exact absurd hn (Nat.not_lt_zero _)
  | succ levels => exact hr (parser levels) rest

theorem newline_spaces {lead : List Char} (h : lead.all isSpace = true) :
    ('\n' :: lead).all isSpace = true := by
  rw [List.all_cons, h]
  rfl

/-- What stands on lines of its own between brackets is read one level deeper. -/
theorem enclosed_reads {opens closes : Char} {opening closing : Token}
    (ho : ∀ rest, token? (opens :: rest) = some (opening, rest))
    (hc : ∀ rest, token? (closes :: rest) = some (closing, rest))
    (deeper : opening.opens = true) {inner outer body : List Char} (hi : inner.all isSpace = true)
    (hu : outer.all isSpace = true) {tokens : List Token} (hw : Spells body tokens) {j : Json}
    (hp : ∀ levels, tokens.countP Token.opens < levels → ∀ rest,
      (parser (levels + 1)).run (opening :: (tokens ++ closing :: rest)) = .ok (j, rest)) :
    Reads parser (opens :: '\n' :: (inner ++ (body ++ '\n' :: (outer ++ [closes])))) j := by
  refine ⟨opening :: (tokens ++ [closing]), ?_, ?_⟩
  · have close : Spells ('\n' :: (outer ++ [closes])) [closing] :=
      .spaces ('\n' :: outer) (newline_spaces hu) (.punctuation hc .nil)
    have rest := hw.append close (at_end_cons.mpr (by decide))
    exact .punctuation ho (.spaces ('\n' :: inner) (newline_spaces hi) rest)
  · intro levels hn rest
    rw [List.countP_cons, List.countP_append, deeper, if_pos rfl] at hn
    cases levels with
    | zero => exact absurd hn (Nat.not_lt_zero _)
    | succ levels =>
      have read := hp levels (by omega) rest
      simpa using read

def memberText (indent : String) (m : Option String × Json) : List Char :=
  (quoteText (m.1.getD "")).toList ++ ':' :: ' ' :: (m.2.prettyAt indent).toList

theorem member_reads {indent name : String} {value : Json}
    (h : Reads parser (value.prettyAt indent).toList value) :
    Reads (fun levels => memberParser (parser levels)) (memberText indent (some name, value))
      (some name, value) := by
  obtain ⟨ts, hw, hp⟩ := h
  refine ⟨.string (some name) :: .colon :: ts, ?_, ?_⟩
  · have colon : Spells (':' :: ' ' :: (value.prettyAt indent).toList) (.colon :: ts) :=
      .punctuation (fun _ => rfl) (.spaces [' '] rfl hw)
    exact (Spells.text name).append colon (at_end_cons.mpr (by decide))
  · intro levels hn rest
    have read := hp levels (by simpa [List.countP_cons, Token.opens] using hn) rest
    change ((parser levels).run (ts ++ rest)).map _ = _
    rw [read]
    rfl

theorem prettyItems_text (indent : String) (items : List Json) :
    (prettyItems indent items).toList =
      items.flatMap fun item => ',' :: ('\n' :: indent.toList ++ (item.prettyAt indent).toList) := by
  induction items with
  | nil => simp [prettyItems]
  | cons item rest ih => simp [prettyItems, ih]

theorem prettyMembers_text (indent : String) (members : List (Option String × Json)) :
    (prettyMembers indent members).toList =
      members.flatMap fun m => ',' :: ('\n' :: indent.toList ++ memberText indent m) := by
  induction members with
  | nil => simp [prettyMembers]
  | cons m rest ih => simp [prettyMembers, memberText, ih]

theorem array_text (indent : String) (item : Json) (rest : List Json) :
    ((Json.array (item :: rest)).prettyAt indent).toList =
      '[' :: '\n' :: ((indent ++ "  ").toList ++ (((item.prettyAt (indent ++ "  ")).toList ++
        rest.flatMap fun item =>
          ',' :: ('\n' :: (indent ++ "  ").toList ++ (item.prettyAt (indent ++ "  ")).toList)) ++
        '\n' :: (indent.toList ++ [']']))) := by
  simp [prettyAt, prettyItems_text]

theorem object_text (indent : String) (m : Option String × Json)
    (rest : List (Option String × Json)) :
    ((Json.object (m :: rest)).prettyAt indent).toList =
      '\x7b' :: '\n' :: ((indent ++ "  ").toList ++ ((memberText (indent ++ "  ") m ++
        rest.flatMap fun m =>
          ',' :: ('\n' :: (indent ++ "  ").toList ++ memberText (indent ++ "  ") m)) ++
        '\n' :: (indent.toList ++ ['\x7d']))) := by
  simp [prettyAt, prettyMembers_text, memberText]

theorem Fits.reads {levels : Nat} {j : Json} (h : Fits levels j) {indent : String}
    (hi : indent.toList.all isSpace = true) : Reads parser (j.prettyAt indent).toList j := by
  have deeper : ∀ {indent : String}, indent.toList.all isSpace = true →
      (indent ++ "  ").toList.all isSpace = true := by
    intro indent hi
    rw [String.toList_append, List.all_append, hi]
    rfl
  induction h generalizing indent with
  | bool value =>
    cases value with
    | false => exact flat_reads (@Spells.token "false".toList _ fun _ => rfl) fun _ _ => rfl
    | true => exact flat_reads (@Spells.token "true".toList _ fun _ => rfl) fun _ _ => rfl
  | @word _ n hn =>
    have digits : ((Json.ofNat n).prettyAt indent) = toString n := number_text hn
    rw [digits]
    exact flat_reads (.number n) fun _ _ => rfl
  | text s => exact flat_reads (.text s) fun _ _ => rfl
  | @array levels items _ ih =>
    cases items with
    | nil =>
      have brackets : Spells "[]".toList [.lbracket, .rbracket] :=
        .punctuation (fun _ => rfl) (.punctuation (fun _ => rfl) .nil)
      exact flat_reads brackets fun _ _ => rfl
    | cons item rest =>
      have close : itemDelimiter .rbracket = some .close := rfl
      obtain ⟨ts, hw, hp⟩ := listed_reads close rfl (newline_spaces (deeper hi))
        fun b hb => ih b hb (deeper hi)
      rw [array_text]
      exact enclosed_reads (fun _ => rfl) (fun _ => rfl) rfl (deeper hi) hi hw
        fun levels hn rest => array_reads (hp levels hn rest)
  | @members levels members _ ih =>
    cases members with
    | nil =>
      have braces : Spells "\x7b\x7d".toList [.lbrace, .rbrace] :=
        .punctuation (fun _ => rfl) (.punctuation (fun _ => rfl) .nil)
      exact flat_reads braces fun _ _ => rfl
    | cons m rest =>
      have close : memberDelimiter .rbrace = some .close := rfl
      have read : ∀ b ∈ (m :: rest).map (fun m => (some m.1, m.2)),
          Reads (fun levels => memberParser (parser levels)) (memberText (indent ++ "  ") b) b := by
        intro b hb
        obtain ⟨m', hm, rfl⟩ := List.mem_map.mp hb
        exact member_reads (ih m' hm (deeper hi))
      obtain ⟨ts, hw, hp⟩ := listed_reads close rfl (newline_spaces (deeper hi)) read
      change Reads parser ((Json.object (_ :: rest.map _)).prettyAt indent).toList _
      rw [object_text]
      exact enclosed_reads (fun _ => rfl) (fun _ => rfl) rfl (deeper hi) hi hw
        fun levels hn rest => object_reads (hp levels hn rest)

/-- What is written for a value is read as the value. -/
theorem Fits.read?_pretty {levels : Nat} {j : Json} (h : Fits levels j) : read? j.pretty = some j := by
  have unindented : "".toList.all isSpace = true := rfl
  obtain ⟨ts, hw, hp⟩ := h.reads unindented
  have tokens : tokens? j.pretty.toList = some ts := by
    simpa [pretty] using hw [] [] at_end_nil tokens?_nil
  have read := hp _ (Nat.lt_succ_self _) []
  rw [List.append_nil] at read
  simp only [read?, tokens, read]

end Json

end SieveRules
