import SieveRules.Proofs.Regeneration
/-!
Scripts one behind the other. A newline ends whatever token a text may end with, so the tokens of
two texts on lines of their own are those of the first and then those of the second; commands and
rules follow the tokens.
-/

namespace SieveRules

open Text

theorem takeWhile_before {p : Char → Bool} {stop : Char} (h : p stop = false)
    (text more : List Char) : (text ++ stop :: more).takeWhile p = text.takeWhile p := by
  induction text with
  | nil => simp [h]
  | cons c text ih =>
    by_cases hc : p c = true
    · simp [hc, ih]
    · simp [hc]

theorem dropWhile_before {p : Char → Bool} {stop : Char} (h : p stop = false)
    (text more : List Char) :
    (text ++ stop :: more).dropWhile p = text.dropWhile p ++ stop :: more := by
  induction text with
  | nil => simp [h]
  | cons c text ih =>
    by_cases hc : p c = true
    · simp [hc, ih]
    · simp [hc]

def Scanned.followed {α : Type} (s : Scanned α) (more : List Char) : Scanned α :=
  { s with rest := s.rest ++ more }

theorem Scanned.push_followed (value text more : List Char) (s : Scanned (List Char)) :
    (s.push value text).followed more = (s.followed more).push value text := rfl

namespace Token

theorem quotedBody_followed {input : List Char} {s : Scanned (List Char)} (more : List Char)
    (h : quotedBody input = some s) : quotedBody (input ++ more) = some (s.followed more) := by
  fun_induction quotedBody input generalizing s with
  | case1 => cases h
  | case2 => cases h
  | case3 c rest ih =>
    obtain ⟨s', hs, rfl⟩ := Option.map_eq_some_iff.mp h
    simp [quotedBody, ih hs, Scanned.push_followed]
  | case4 rest =>
    cases h
    simp [quotedBody, Scanned.followed]
  | case5 c rest alone escaped quote ih =>
    obtain ⟨s', hs, rfl⟩ := Option.map_eq_some_iff.mp h
    have plain : c ≠ '\\' := by
      rintro rfl
      cases rest with
      | nil => exact alone rfl rfl
      | cons d rest => exact escaped d rest rfl rfl
    rw [List.cons_append, quotedBody, ih hs]
    · rfl
    · exact fun hc _ => plain hc
    · exact fun _ _ hc _ => plain hc
    · exact quote

theorem commentBody_followed {input : List Char} {s : Scanned (List Char)} (more : List Char)
    (h : commentBody input = some s) : commentBody (input ++ more) = some (s.followed more) := by
  fun_induction commentBody input generalizing s with
  | case1 => cases h
  | case2 rest =>
    cases h
    simp [commentBody, Scanned.followed]
  | case3 c rest opens ih =>
    obtain ⟨s', hs, rfl⟩ := Option.map_eq_some_iff.mp h
    cases rest with
    | nil => cases hs
    | cons d rest =>
      rw [List.cons_append, commentBody, ih hs]
      · rfl
      · rintro tail rfl hd
        rw [List.cons_append, List.cons.injEq] at hd
        exact opens rest rfl (by rw [hd.1])

/-- A newline behind a text leaves a scan of it as it is, or completes its last line. -/
def CarriesOn {α : Type} (more : List Char) (s : Scanned α) (result : Scanned α) : Prop :=
  result = s.followed ('\n' :: more) ∨
    s.rest = [] ∧ result = { s with text := s.text ++ ['\n'], rest := more }

theorem CarriesOn.push {more value text : List Char} {s result : Scanned (List Char)}
    (h : CarriesOn more s result) : CarriesOn more (s.push value text) (result.push value text) := by
  rcases h with rfl | ⟨hr, rfl⟩
  · exact .inl rfl
  · exact .inr ⟨hr, by simp [Scanned.push]⟩

theorem multilineBody_newline {lineStart : Bool} {input : List Char} {s : Scanned (List Char)}
    (more : List Char) (h : multilineBody lineStart input = some s) :
    ∃ result, multilineBody lineStart (input ++ '\n' :: more) = some result ∧
      CarriesOn more s result := by
  fun_induction multilineBody lineStart input generalizing s with
  | case1 => cases h
  | case2 =>
    cases h
    exact ⟨_, rfl, .inr ⟨rfl, rfl⟩⟩
  | case3 rest =>
    cases h
    exact ⟨_, rfl, .inl rfl⟩
  | case4 rest =>
    cases h
    exact ⟨_, rfl, .inl rfl⟩
  | case5 rest ih =>
    obtain ⟨s', hs, rfl⟩ := Option.map_eq_some_iff.mp h
    obtain ⟨result, hr, hc⟩ := ih hs
    exact ⟨result.push ['.'] ['.', '.'], by simp [multilineBody, hr], hc.push⟩
  | case6 lineStart c rest dot line crlf dots ih =>
    obtain ⟨s', hs, rfl⟩ := Option.map_eq_some_iff.mp h
    obtain ⟨result, hr, hc⟩ := ih hs
    refine ⟨result.push [c] [c], ?_, hc.push⟩
    cases rest with
    | nil => cases hs
    | cons d rest =>
      rw [List.cons_append, multilineBody, hr]
      · rfl
      · rintro rfl rfl ⟨⟩
      · rintro tail rfl rfl hd
        rw [List.cons_append, List.cons.injEq] at hd
        exact line rest rfl rfl (by rw [hd.1])
      · rintro tail rfl rfl hd
        rw [List.cons_append, List.cons.injEq] at hd
        obtain ⟨rfl, hd⟩ := hd
        cases rest with
        | nil => cases hs
        | cons e rest =>
          rw [List.cons_append, List.cons.injEq] at hd
          exact crlf rest rfl rfl (by rw [hd.1])
      · rintro tail rfl rfl hd
        rw [List.cons_append, List.cons.injEq] at hd
        exact dots rest rfl rfl (by rw [hd.1])

theorem multiline?_newline {input : List Char} {s : Scanned (List Char)} (more : List Char)
    (h : multiline? input = some s) :
    ∃ result, multiline? (input ++ '\n' :: more) = some result ∧ CarriesOn more s result := by
  have stop : decide ('\n' ≠ '\n') = false := rfl
  unfold multiline? at h ⊢
  rw [dropWhile_before stop, takeWhile_before stop]
  split at h
  · cases h
  · rename_i newline body hd
    obtain ⟨s', hs, rfl⟩ := Option.map_eq_some_iff.mp h
    obtain ⟨result, hr, hc⟩ := multilineBody_newline more hs
    rw [hd, List.cons_append]
    exact ⟨_, congrArg (Option.map _) hr, hc.push⟩

/-- A text does not come to open a multi-line string by what stands behind it, where this starts
with no letter of the introducer. -/
theorem opensMultiline_before {stop : Char} (h : stop.toLower ∉ ['t', 'e', 'x', 't', ':'])
    (input more : List Char) : opensMultiline (input ++ stop :: more) = opensMultiline input := by
  rcases Nat.lt_or_ge input.length 5 with short | long
  · -- the character behind would be one of the five
    have among : stop.toLower ∈ ((input ++ stop :: more).take 5).map Char.toLower := by
      rw [List.take_append, List.map_append, List.take_of_length_le (Nat.le_of_lt short)]
      obtain ⟨k, hk⟩ : ∃ k, 5 - input.length = k + 1 := ⟨4 - input.length, by omega⟩
      simp [hk]
    have longer : opensMultiline (input ++ stop :: more) = false := by
      rw [opensMultiline, decide_eq_false_iff_not]
      intro opens
      rw [opens] at among
      exact h among
    have shorter : opensMultiline input = false := by
      rw [opensMultiline, decide_eq_false_iff_not]
      intro h
      have := congrArg List.length h
      simp only [List.length_map, List.length_take, List.length_cons, List.length_nil] at this
      omega
    rw [longer, shorter]
  · rw [opensMultiline, opensMultiline, List.take_append_of_le_length long]

theorem scanNumber_before {stop : Char} (hd : isDigit stop = false) (hs : isScale stop = false)
    (input more : List Char) :
    scanNumber (input ++ stop :: more) = (scanNumber input).followed (stop :: more) := by
  unfold scanNumber
  rw [takeWhile_before hd, dropWhile_before hd]
  cases input.dropWhile isDigit with
  | nil => simp [Scanned.followed, hs]
  | cons c rest =>
    simp only [List.cons_append]
    split <;> rfl

theorem ofBody_newline {make : String → Token} {what : Unclosed} {opening more : List Char}
    {body longer : Option (Scanned (List Char))} {found : Scanned Token}
    (newline : ∀ s, body = some s → ∃ result, longer = some result ∧ CarriesOn more s result)
    (h : ofBody make what opening body = .ok found) :
    ∃ result, ofBody make what opening longer = .ok result ∧
      CarriesOn more found result := by
  cases body with
  | none => cases h
  | some s =>
    cases h
    obtain ⟨result, rfl, rfl | ⟨hr, rfl⟩⟩ := newline s rfl
    · exact ⟨_, rfl, .inl rfl⟩
    · exact ⟨_, rfl, .inr ⟨hr, by simp⟩⟩

theorem scan_newline {c : Char} {rest : List Char} {found : Scanned Token} (more : List Char)
    (h : scan c rest = .ok found) :
    ∃ result, scan c (rest ++ '\n' :: more) = .ok result ∧ CarriesOn more found result := by
  unfold scan at h
  split at h
  · rename_i token hp
    cases h
    exact ⟨_, by simp [scan, hp, Scanned.followed], .inl rfl⟩
  · rename_i hp
    unfold scan
    simp only [hp]
    split at h
    · rename_i hc
      cases h
      have stop : decide ('\n' ≠ '\n') = false := rfl
      rw [if_pos hc, takeWhile_before stop, dropWhile_before stop]
      exact ⟨_, rfl, .inl rfl⟩
    · rename_i hc
      rw [if_neg hc]
      split at h
      · rename_i hc
        rw [if_pos hc]
        split at h
        · rename_i body
          exact ofBody_newline (fun s hs => ⟨_, commentBody_followed _ hs, .inl rfl⟩) h
        · cases h
      · rename_i hc
        rw [if_neg hc]
        split at h
        · rename_i hc
          rw [if_pos hc]
          exact ofBody_newline (fun s hs => ⟨_, quotedBody_followed _ hs, .inl rfl⟩) h
        · rename_i hc
          rw [if_neg hc, ← List.cons_append, opensMultiline_before (by decide)]
          split at h
          · rename_i hm
            rw [if_pos hm]
            exact ofBody_newline (fun s hs => multiline?_newline _ hs) h
          · rename_i hm
            have stop : isWordPart '\n' = false := rfl
            rw [if_neg hm, takeWhile_before stop, dropWhile_before stop]
            split at h
            · rename_i hc
              cases h
              rw [if_pos hc]
              exact ⟨_, rfl, .inl rfl⟩
            · rename_i hc
              rw [if_neg hc]
              split at h
              · rename_i hd
                cases h
                rw [if_pos hd, scanNumber_before rfl rfl]
                exact ⟨_, rfl, .inl rfl⟩
              · rename_i hd
                rw [if_neg hd]
                split at h
                · rename_i hw
                  cases h
                  rw [if_pos hw]
                  exact ⟨_, rfl, .inl rfl⟩
                · cases h

end Token

/-- The tokens of a text, and then those of another text on lines of its own. -/
theorem spansFrom_newline {offset : Nat} {text : List Char} {spans : List Span} (more : List Char)
    (h : spansFrom offset text = .ok spans) :
    spansFrom offset (text ++ '\n' :: more) =
      (spansFrom (offset + size text + 1) more).map (spans ++ ·) := by
  have blank : ∀ offset, spansFrom offset ('\n' :: more) = spansFrom (offset + 1) more := by
    intro offset
    have space : isBlank '\n' = true := rfl
    rw [spansFrom, if_pos space]
    rfl
  fun_induction spansFrom offset text generalizing spans with
  | case1 offset =>
    cases h
    rw [List.nil_append, blank, size_nil, Nat.add_zero]
    cases spansFrom (offset + 1) more <;> rfl
  | case2 offset c rest hc ih =>
    rw [List.cons_append, spansFrom, if_pos hc, ih h, size_cons, Nat.add_assoc offset]
  | case3 => cases h
  | case4 => cases h
  | case5 offset c rest hc found hs spans' hr ih =>
    cases h
    obtain ⟨result, hresult, carries⟩ := Token.scan_newline more hs
    have whole := congrArg size (Token.scan_split hs)
    rw [size_append] at whole
    rw [List.cons_append, spansFrom_scanned (Bool.eq_false_iff.mpr hc) hresult]
    rcases carries with rfl | ⟨hn, rfl⟩
    · rw [Scanned.followed, ih hr, Nat.add_assoc offset, whole]
      cases spansFrom (offset + size (c :: rest) + 1) more <;> rfl
    · -- the newline belongs to the last token, and no token follows in the first text
      rw [hn] at hr whole
      rw [spansFrom] at hr
      cases hr
      rw [size_append, ← Nat.add_assoc, ← whole]
      rfl

def Span.shift (n : Nat) (span : Span) : Span :=
  ⟨span.token, n + span.offset⟩

def ScriptError.shift (n : Nat) : ScriptError → ScriptError
  | unterminated what offset => unterminated what (n + offset)
  | unexpectedChar c offset => unexpectedChar c (n + offset)
  | expected what found offset => expected what found (n + offset)
  | tooDeep offset => tooDeep (n + offset)
  | unexpectedEnd what => unexpectedEnd what
  | noBlocks => noBlocks

theorem Fault.at_shift (n offset : Nat) (fault : Fault) :
    fault.at (n + offset) = (fault.at offset).shift n := by
  cases fault <;> rfl

/-- What a text reads as with more bytes before it. -/
def moved (n : Nat) : Except ScriptError (List Span) → Except ScriptError (List Span)
  | .ok spans => .ok (spans.map (Span.shift n))
  | .error e => .error (e.shift n)

theorem spansFrom_moved (n offset : Nat) (text : List Char) :
    spansFrom (n + offset) text = moved n (spansFrom offset text) := by
  fun_induction spansFrom offset text with
  | case1 offset =>
    rw [spansFrom]
    rfl
  | case2 offset c rest hc ih => rw [spansFrom, if_pos hc, Nat.add_assoc, ih]
  | case3 offset c rest hc fault hs =>
    rw [spansFrom_unscanned (Bool.eq_false_iff.mpr hc) hs, Fault.at_shift]
    rfl
  | case4 offset c rest hc found hs e he ih =>
    rw [spansFrom_scanned (Bool.eq_false_iff.mpr hc) hs, Nat.add_assoc, ih, he]
    rfl
  | case5 offset c rest hc found hs spans hr ih =>
    rw [spansFrom_scanned (Bool.eq_false_iff.mpr hc) hs, Nat.add_assoc, ih, hr]
    rfl

theorem spansFrom_shift {offset : Nat} {text : List Char} {spans : List Span} (n : Nat)
    (h : spansFrom offset text = .ok spans) :
    spansFrom (n + offset) text = .ok (spans.map (Span.shift n)) := by
  rw [spansFrom_moved, h]
  rfl

theorem meaning_append (first second : List Span) :
    meaning (first ++ second) = meaning first ++ meaning second := by
  simp [meaning]

theorem meaning_shift (n : Nat) (spans : List Span) :
    meaning (spans.map (Span.shift n)) = meaning spans := by
  induction spans with
  | nil => rfl
  | cons span spans ih =>
    have same : (span.shift n).token = span.token := rfl
    by_cases hc : span.token.isComment = true
    · simpa [meaning, same, hc] using ih
    · simpa [meaning, same, hc] using ih

theorem tokenize_joined {first second : String} {left right : List Span}
    (hl : tokenize first = .ok left) (hr : tokenize second = .ok right) :
    tokenize (first ++ "\n" ++ second) =
      .ok (left ++ right.map (Span.shift (size first.toList + 1))) := by
  have lines : (first ++ "\n" ++ second).toList = first.toList ++ '\n' :: second.toList := by simp
  have later := spansFrom_shift (size first.toList + 1) hr
  rw [tokenize, lines, spansFrom_newline _ hl, Nat.zero_add]
  rw [Nat.add_zero] at later
  rw [later]
  rfl

theorem Sequence.append {α : Type} {item : List Token → α → Prop} {ts us : List Token}
    {as bs : List α} (h : Sequence item ts as) (hb : Sequence item us bs) :
    Sequence item (ts ++ us) (as ++ bs) := by
  induction h with
  | nil => exact hb
  | cons ha _ ih =>
    rw [List.append_assoc]
    exact .cons ha ih

namespace Script

theorem parse_joined {first second : String} {a b : Script} (ha : parse first = .ok a)
    (hb : parse second = .ok b) :
    parse (first ++ "\n" ++ second) = .ok ⟨a.commands ++ b.commands⟩ := by
  obtain ⟨left, hl, hda⟩ := parse_ok_iff.mp ha
  obtain ⟨right, hr, hdb⟩ := parse_ok_iff.mp hb
  refine parse_ok_iff.mpr ⟨_, tokenize_joined hl hr, ?_⟩
  rw [meaning_append, meaning_shift]
  exact Sequence.append hda hdb

end Script

/-- The policy that a command of a script gives, if it is a branch that gives one. -/
def Command.policy? (command : Command) : Option Policy :=
  if command.isBranch then command.toPolicy.1.toOption else none

namespace Script

theorem recoverFrom_policies {required : Bool} {block : Nat} (commands : List Command) :
    (recoverFrom required block commands).1 = commands.filterMap Command.policy? := by
  induction commands generalizing required block with
  | nil => rfl
  | cons command rest ih =>
    rw [List.filterMap_cons, Command.policy?]
    by_cases hn : command.name = "require"
    · have plain : command.isBranch = false := by simp [Command.isBranch, hn]
      rw [recoverFrom, if_pos hn, plain]
      exact ih
    · by_cases hb : command.isBranch = true
      · rw [Policy.recoverFrom_branch hn hb, if_pos hb, ih]
        cases command.toPolicy.1.toOption <;> rfl
      · rw [recoverFrom, if_neg hn, if_neg hb, if_neg hb]
        exact ih

theorem outline_ok_iff {script : Script} {outline : Outline} :
    script.outline.1 = .ok outline ↔ script.commands.any Command.isBranch = true ∧
      outline = ⟨script.commands.filterMap Command.policy?, script.extensions⟩ := by
  rw [← recoverFrom_policies, Script.outline]
  by_cases hb : script.commands.any Command.isBranch = true
  · simp only [hb, if_true, true_and, Except.ok.injEq]
    exact eq_comm
  · simp only [hb, Bool.false_eq_true, if_false, false_and, reduceCtorEq]

theorem extensions_append (commands more : List Command) :
    extensions ⟨commands ++ more⟩ =
      if commands.any (·.name = "require") then extensions ⟨commands⟩ else extensions ⟨more⟩ := by
  unfold extensions
  rw [List.find?_append]
  by_cases hr : commands.any (·.name = "require") = true
  · obtain ⟨command, hc⟩ := Option.isSome_iff_exists.mp (List.find?_isSome.mpr (List.any_eq_true.mp hr))
    rw [if_pos hr, hc]
    rfl
  · have none : commands.find? (·.name = "require") = none := by
      rw [List.find?_eq_none]
      intro command hc hn
      exact hr (List.any_eq_true.mpr ⟨command, hc, hn⟩)
    rw [if_neg hr, none]
    rfl

end Script

theorem Outline.parse_ok_iff {text : String} {outline : Outline} :
    (Outline.parse text).1 = .ok outline ↔
      ∃ script, Script.parse text = .ok script ∧ script.outline.1 = .ok outline := by
  unfold Outline.parse
  cases Script.parse text with
  | error e =>
    constructor
    · intro h
      cases h
    · rintro ⟨script, h, -⟩
      cases h
  | ok script =>
    constructor
    · intro h
      exact ⟨script, rfl, h⟩
    · rintro ⟨script', h, outlined⟩
      cases h
      exact outlined

theorem Outline.parse_joined {first second : String} {left right : Outline} {script : Script}
    (hs : Script.parse first = .ok script) (hl : (Outline.parse first).1 = .ok left)
    (hr : (Outline.parse second).1 = .ok right) :
    (Outline.parse (first ++ "\n" ++ second)).1 = .ok ⟨left.policies ++ right.policies,
      if script.commands.any (·.name = "require") then left.extensions else right.extensions⟩ := by
  obtain ⟨a, ha, hla⟩ := Outline.parse_ok_iff.mp hl
  obtain ⟨b, hb, hrb⟩ := Outline.parse_ok_iff.mp hr
  cases ha.symm.trans hs
  obtain ⟨branches, rfl⟩ := Script.outline_ok_iff.mp hla
  obtain ⟨-, rfl⟩ := Script.outline_ok_iff.mp hrb
  refine Outline.parse_ok_iff.mpr ⟨_, Script.parse_joined ha hb, ?_⟩
  refine Script.outline_ok_iff.mpr ⟨?_, ?_⟩
  · rw [List.any_append, branches, Bool.true_or]
  · rw [List.filterMap_append, Script.extensions_append]

namespace RuleSet

/-- Two scripts on lines of their own are one script: the commands of the first and then those of
the second, and so the rules; the extensions are those of the first script that requires any. -/
theorem joined_scripts (first second : String) :
    (∀ a b, Script.parse first = .ok a → Script.parse second = .ok b →
      Script.parse (first ++ "\n" ++ second) = .ok ⟨a.commands ++ b.commands⟩) ∧
    ∀ (left right : RuleSet) (source₁ source₂ source₁' source₂' source : IdSource),
      (parse first source₁).1 = .ok (left, source₁') →
      (parse second source₂).1 = .ok (right, source₂') →
      ∃ script joined source', Script.parse first = .ok script ∧
        (parse (first ++ "\n" ++ second) source).1 = .ok (joined, source') ∧
        joined.policies = left.policies ++ right.policies ∧
        joined.extensions = if script.commands.any (·.name = "require") then left.extensions
          else right.extensions := by
  constructor
  · intro a b ha hb
    exact Script.parse_joined ha hb
  · intro left right source₁ source₂ source₁' source₂' source hl hr
    obtain ⟨script, hs, -⟩ := Outline.parse_ok_iff.mp (outline_of_parse hl)
    have outlined := Outline.parse_joined hs (outline_of_parse hl) (outline_of_parse hr)
    obtain ⟨joined, source', hp, ho⟩ := @parse_ok _ source _ outlined
    exact ⟨script, joined, source', hs, hp, congrArg Outline.policies ho,
      congrArg Outline.extensions ho⟩

/-- A script that ends in a comment without a newline. -/
def trailing : String :=
  "if header \"Subject\" \"a\" \x7b discard; \x7d # \x7b"

/-- A script that requires an extension and goes on the chain before it. -/
def leading : String :=
  "require \"fileinto\"; elsif true \x7b fileinto text:\n..\n.\n; \x7d"

theorem trailing_joined :
    ∃ a b left right source₁ source₂, Script.parse trailing = .ok a ∧ Script.parse leading = .ok b ∧
      (parse trailing (.startingAt 1)).1 = .ok (left, source₁) ∧
      (parse leading (.startingAt 2)).1 = .ok (right, source₂) ∧
      Script.parse (trailing ++ "\n" ++ leading) = .ok ⟨a.commands ++ b.commands⟩ ∧
      ∃ joined source', (parse (trailing ++ "\n" ++ leading) (.startingAt 3)).1 = .ok (joined, source') ∧
        joined.policies = [⟨true, .allof, [.header defaultComparator .is "Subject" ["a"]], [.discard]⟩,
          ⟨true, .allof, [.always], [.fileinto ".\n" false false []]⟩] ∧
        joined.extensions = CapabilitySet.empty.set .fileinto true := by
  have found : (Outline.parse trailing).1.toOption = some
      ⟨[⟨true, .allof, [.header defaultComparator .is "Subject" ["a"]], [.discard]⟩], .empty⟩ := by
    decide +kernel
  have found' : (Outline.parse leading).1.toOption = some
      ⟨[⟨true, .allof, [.always], [.fileinto ".\n" false false []]⟩],
        CapabilitySet.empty.set .fileinto true⟩ := by
    decide +kernel
  have unrequired : (Script.parse trailing).toOption.map
      (fun script => script.commands.any (·.name = "require")) = some false := by
    decide +kernel
  obtain ⟨a, ha, -⟩ := Outline.parse_ok_iff.mp (except_ok_of_toOption found)
  obtain ⟨b, hb, -⟩ := Outline.parse_ok_iff.mp (except_ok_of_toOption found')
  obtain ⟨left, source₁, hl, hlo⟩ := @parse_ok _ (.startingAt 1) _ (except_ok_of_toOption found)
  obtain ⟨right, source₂, hr, hro⟩ := @parse_ok _ (.startingAt 2) _ (except_ok_of_toOption found')
  obtain ⟨script, joined, source', hs, hj, policies, extensions⟩ :=
    (joined_scripts trailing leading).2 left right _ _ _ _ (.startingAt 3) hl hr
  refine ⟨a, b, left, right, source₁, source₂, ha, hb, hl, hr,
    (joined_scripts trailing leading).1 a b ha hb, joined, source', hj, ?_, ?_⟩
  · rw [policies, show left.policies = _ from congrArg Outline.policies hlo,
      show right.policies = _ from congrArg Outline.policies hro]
    rfl
  · rw [hs] at unrequired
    rw [extensions, if_neg (by simpa [Except.toOption] using unrequired),
      show right.extensions = _ from congrArg Outline.extensions hro]

end RuleSet

end SieveRules
