import SieveRules.Proofs.Joining
import SieveRules.Proofs.Partition
/-!
Blanks and comments between tokens. What is put in front of a token leaves the tokens before it as
they are, as it ends whatever they could go on with, and moves the others; so it changes neither
the tree of a script nor its rules.
-/

namespace SieveRules

open Text

theorem AtBoundary.letters {stop : Char} {more : List Char} (h : AtBoundary (stop :: more)) :
    stop.toLower ∉ ['t', 'e', 'x', 't', ':'] :=
  fun hd => boundary_lower_ne h (introducer_part hd) rfl

namespace Token

variable {input rest : List Char}

theorem commentBody_instead {s : Scanned (List Char)} (h : commentBody input = some s)
    (rest : List Char) : commentBody (s.text ++ rest) = some (s.cut rest) := by
  have alone := commentBody_cut h List.nil_prefix
  rw [List.append_nil] at alone
  exact commentBody_followed rest alone

theorem multilineBody_text {lineStart : Bool} {s : Scanned (List Char)}
    (h : multilineBody lineStart input = some s) : s.text ≠ [] ∧ s.text ≠ ['\r'] := by
  fun_induction multilineBody lineStart input generalizing s with
  | case1 => cases h
  | case2 =>
    cases h
    simp
  | case3 behind =>
    cases h
    simp
  | case4 behind =>
    cases h
    simp
  | case5 behind ih =>
    obtain ⟨s', -, rfl⟩ := Option.map_eq_some_iff.mp h
    simp [Scanned.push]
  | case6 lineStart c behind _ _ _ _ ih =>
    obtain ⟨s', hs, rfl⟩ := Option.map_eq_some_iff.mp h
    simp [Scanned.push, (ih hs).1]

theorem multilineBody_instead {lineStart : Bool} {s : Scanned (List Char)}
    (h : multilineBody lineStart input = some s) (hr : s.rest ≠ []) (rest : List Char) :
    multilineBody lineStart (s.text ++ rest) = some (s.cut rest) := by
  fun_induction multilineBody lineStart input generalizing s with
  | case1 => cases h
  | case2 =>
    cases h
    exact absurd rfl hr
  | case3 behind =>
    cases h
    rfl
  | case4 behind =>
    cases h
    rfl
  | case5 behind ih =>
    obtain ⟨s', hs, rfl⟩ := Option.map_eq_some_iff.mp h
    simp [Scanned.push, multilineBody, ih hs hr, Scanned.cut]
  | case6 lineStart c behind dot line crlf dots ih =>
    obtain ⟨s', hs, rfl⟩ := Option.map_eq_some_iff.mp h
    obtain ⟨some, more⟩ := multilineBody_text hs
    have whole := multilineBody_split hs
    have later := ih hs hr
    -- what could end the string here stands in the text that was read
    obtain ⟨d, text, ht⟩ := List.exists_cons_of_ne_nil some
    rw [Scanned.push_cut]
    change multilineBody lineStart (c :: (s'.text ++ rest)) = _
    rw [multilineBody, later]
    · rfl
    · intro start hc he
      rw [ht] at he
      cases he
    · rintro tail start hc he
      rw [ht] at he whole
      cases he
      exact line _ start hc whole.symm
    · rintro tail start hc he
      rw [ht] at he whole more
      cases text with
      | nil =>
        cases he
        exact more rfl
      | cons e text =>
        cases he
        exact crlf _ start hc whole.symm
    · rintro tail start hc he
      rw [ht] at he whole
      cases he
      exact dots _ start hc whole.symm

theorem multiline?_instead {s : Scanned (List Char)} (h : multiline? input = some s)
    (hr : s.rest ≠ []) (rest : List Char) : multiline? (s.text ++ rest) = some (s.cut rest) := by
  obtain ⟨body, line, s', hs, rfl, lines⟩ := multiline?_lines h
  exact lines rest (multilineBody_instead hs hr rest)

theorem run_instead {kind : Char → Bool} {between behind more : List Char}
    (hr : input.dropWhile kind = between ++ behind)
    (hm : between = [] → ∀ d ∈ more.head?, kind d = false) :
    (input.takeWhile kind ++ (between ++ more)).takeWhile kind = input.takeWhile kind ∧
      (input.takeWhile kind ++ (between ++ more)).dropWhile kind = between ++ more := by
  have run := List.all_takeWhile (p := kind) (l := input)
  have stop : ∀ d ∈ (between ++ more).head?, kind d = false := by
    cases between with
    | nil => exact hm rfl
    | cons e between =>
      have ends := dropWhile_stops kind input
      rwa [hr] at ends
  exact ⟨takeWhile_run run stop, dropWhile_run run stop⟩

theorem opensMultiline_boundary {more : List Char} (hm : AtBoundary more) (input : List Char) :
    opensMultiline (input ++ more) = opensMultiline input := by
  cases more with
  | nil => rw [List.append_nil]
  | cons stop more => exact opensMultiline_before hm.letters input more

theorem scanNumber_boundary {more : List Char} (hm : AtBoundary more) (input : List Char) :
    scanNumber (input ++ more) = (scanNumber input).followed more := by
  cases more with
  | nil => simp [Scanned.followed]
  | cons stop more =>
    have part : isWordPart stop = false := (at_boundary_cons.mp hm).1
    refine scanNumber_before (Bool.eq_false_iff.mpr ?_) (Bool.eq_false_iff.mpr ?_) input more
    · intro digit
      rw [word_part_of_digit digit] at part
      cases part
    · intro scale
      rw [word_part_of_scale scale] at part
      cases part

/-- The token that starts a text is the same where, somewhere behind it and before a later token,
the text goes on otherwise. -/
theorem scan_instead {c d : Char} {text between behind more : List Char} {found : Scanned Token}
    (h : scan c input = .ok found) (ht : found.text = c :: text)
    (hr : found.rest = between ++ d :: behind) (hd : isBlank d = false) (hm : AtBoundary more) :
    scan c (text ++ (between ++ more)) = .ok (found.cut (between ++ more)) := by
  have part : between <+: found.rest := ⟨_, hr.symm⟩
  have some : found.rest ≠ [] := by
    rw [hr]
    exact List.append_ne_nil_of_right_ne_nil _ (List.cons_ne_nil _ _)
  rw [scan_ok_iff] at h ⊢
  cases h with
  | punctuation hp =>
    cases ht
    exact .punctuation hp
  | comment =>
    cases ht
    -- a comment ends with its line, and the newline is blank
    have line : between ≠ [] := by
      rintro rfl
      obtain rfl := ByteLexer.dropWhile_line hr
      cases hd
    obtain ⟨run, stop⟩ := @run_instead _ _ _ _ more hr fun none => absurd none line
    have instead := @Reads.comment (input.takeWhile (· ≠ '\n') ++ (between ++ more))
    rwa [run, stop] at instead
  | blockComment hb =>
    cases ht
    exact .blockComment (commentBody_instead hb _)
  | quoted hq =>
    cases ht
    exact .quoted (quotedBody_cut hq _)
  | @multiline c input s opens hm' =>
    have whole : s.text ++ (between ++ more) = c :: (text ++ (between ++ more)) := by
      rw [← List.cons_append, ← ht]
    have opens := multiline?_opens opens hm' (between ++ more)
    have instead := multiline?_instead hm' some (between ++ more)
    rw [whole] at opens instead
    exact .multiline opens instead
  | tag =>
    cases ht
    obtain ⟨run, stop⟩ := run_instead hr fun _ => hm.no_word_part
    have instead := @Reads.tag (input.takeWhile isWordPart ++ (between ++ more))
    rwa [run, stop] at instead
  | number digit =>
    have same : scanNumber ((scanNumber (c :: input)).text ++ (between ++ more)) =
        (scanNumber (c :: input)).cut (between ++ more) := by
      rw [← List.append_assoc, scanNumber_boundary hm, scanNumber_cut part]
      rfl
    have instead := @Reads.number c (text ++ (between ++ more)) digit
    rwa [← List.cons_append, ← ht, same] at instead
  | word start plain =>
    cases ht
    obtain ⟨run, stop⟩ := run_instead hr fun _ => hm.no_word_part
    have whole : c :: (input.takeWhile isWordPart ++ between) ++ d :: behind = c :: input := by
      have split := List.takeWhile_append_dropWhile (p := isWordPart) (l := input)
      change input.dropWhile isWordPart = _ at hr
      rw [hr, ← List.append_assoc] at split
      exact congrArg (c :: ·) split
    have closed := opensMultiline_cut ⟨_, whole⟩ plain
    have instead := @Reads.word c (input.takeWhile isWordPart ++ (between ++ more)) start (by
      rwa [← List.append_assoc, ← List.cons_append, opensMultiline_boundary hm])
    rwa [run, stop] at instead

end Token

theorem map_nil_append {ε α : Type} (x : Except ε (List α)) : x.map ([] ++ ·) = x := by
  cases x <;> rfl

/-- A text that reads is cut where one of its tokens starts. The tokens before stay the same
whatever stands there instead, as long as it does not carry on a word. -/
theorem spansFrom_parts {offset : Nat} {input : List Char} {before after : List Span} {span : Span}
    (h : spansFrom offset input = .ok (before ++ span :: after)) :
    ∃ left d right, left ++ d :: right = input ∧ isBlank d = false ∧
      offset + size left = span.offset ∧ spansFrom span.offset (d :: right) = .ok (span :: after) ∧
      ∀ more, AtBoundary more →
        spansFrom offset (left ++ more) = (spansFrom span.offset more).map (before ++ ·) := by
  generalize hs : before ++ span :: after = spans at h
  fun_induction spansFrom offset input generalizing before spans with
  | case1 offset =>
    cases h
    cases before <;> cases hs
  | case2 offset c rest hc ih =>
    obtain ⟨left, d, right, rfl, hd, place, behind, ahead⟩ := ih _ hs h
    refine ⟨c :: left, d, right, rfl, hd, ?_, behind, ?_⟩
    · rw [size_cons, ← Nat.add_assoc, place]
    · intro more hm
      rw [List.cons_append, spansFrom, if_pos hc, ahead more hm]
  | case3 => cases h
  | case4 => cases h
  | case5 offset c rest hc found hscan spans' hr ih =>
    cases h
    have plain : isBlank c = false := Bool.eq_false_iff.mpr hc
    cases before with
    | nil =>
      cases hs
      refine ⟨[], c, rest, rfl, plain, rfl, ?_, ?_⟩
      · rw [spansFrom_scanned plain hscan, hr]
        rfl
      · intro more _
        exact (map_nil_append _).symm
    | cons first before =>
      cases hs
      obtain ⟨left, d, right, split, hd, place, behind, ahead⟩ := ih _ rfl hr
      obtain ⟨text, ht⟩ := Token.scan_text hscan
      refine ⟨found.text ++ left, d, right, ?_, hd, ?_, behind, ?_⟩
      · rw [List.append_assoc, split, Token.scan_split hscan]
      · rw [size_append, ← Nat.add_assoc, place]
      · intro more hm
        have scanned := Token.scan_instead hscan ht split.symm hd hm
        rw [List.append_assoc, ht, List.cons_append, spansFrom_scanned plain scanned]
        change (spansFrom (offset + size found.text) (left ++ more)).map _ = _
        rw [ahead more hm]
        cases spansFrom span.offset more <;> rfl

/-- Blanks, or a comment that is complete, and the tokens that this makes. -/
inductive Spacing : String → List Token → Prop where
  | blanks {run : String} (h : run.toList.all isBlank = true) : Spacing run []
  | comment {line : String} (h : '\n' ∉ line.toList) : Spacing ("#" ++ line ++ "\n") [.comment]
  | blockComment {body : String} (h : ¬ ['*', '/'] <:+: body.toList) :
      Spacing ("/*" ++ body ++ "*/") [.blockComment]

theorem commentBody_closed {body : List Char} (h : ¬ ['*', '/'] <:+: body)
    (rest : List Char) :
    Token.commentBody (body ++ '*' :: '/' :: rest) = some ⟨body, body ++ ['*', '/'], rest⟩ := by
  induction body with
  | nil => rfl
  | cons c body ih =>
    have later : ¬ ['*', '/'] <:+: body := fun inner =>
      h (inner.trans (List.suffix_cons c _).isInfix)
    rw [List.cons_append, Token.commentBody, ih later]
    · rfl
    · rintro tail rfl he
      -- the end would stand where the body starts
      cases body with
      | nil => cases he
      | cons e body =>
        cases he
        exact h ⟨[], body, rfl⟩

theorem scan_comment {line : List Char} (h : '\n' ∉ line) (rest : List Char) :
    Token.scan '#' (line ++ '\n' :: rest) = .ok ⟨.comment, '#' :: line, '\n' :: rest⟩ := by
  have run : line.all (· ≠ '\n') = true := by
    rw [List.all_eq_true]
    rintro c hc
    refine decide_eq_true ?_
    rintro rfl
    exact h hc
  have stop : ∀ c ∈ ('\n' :: rest).head?, decide (c ≠ '\n') = false := by simp
  have reads := Token.scan_of_reads (@Token.Reads.comment (line ++ '\n' :: rest))
  rwa [takeWhile_run run stop, dropWhile_run run stop] at reads

/-- What is put between tokens ends what stands before it, and makes its own tokens. -/
theorem Spacing.reads {inserted : String} {comments : List Token} (h : Spacing inserted comments)
    (some : inserted.toList ≠ []) (offset : Nat) (rest : List Char) :
    AtBoundary (inserted.toList ++ rest) ∧
      spansFrom offset (inserted.toList ++ rest) =
        (spansFrom (offset + size inserted.toList) rest).map
          (comments.map (Span.mk · offset) ++ ·) := by
  cases h with
  | blanks h =>
    refine ⟨?_, ?_⟩
    · obtain ⟨c, run, hc⟩ := List.exists_cons_of_ne_nil some
      rw [hc, List.all_cons, Bool.and_eq_true] at h
      rw [hc, List.cons_append, at_boundary_cons]
      constructor
      · rw [Bool.eq_false_iff]
        intro part
        rw [(word_part_plain part).2.1] at h
        cases h.1
      · rintro rfl
        cases h.1
    · rw [spansFrom_blanks h]
      exact (map_nil_append _).symm
  | @comment line h =>
    have whole : ("#" ++ line ++ "\n").toList ++ rest = '#' :: (line.toList ++ '\n' :: rest) := by
      simp
    have length : ("#" ++ line ++ "\n").toList = '#' :: line.toList ++ ['\n'] := by simp
    have newline : ∀ o, spansFrom o ('\n' :: rest) = spansFrom (o + size ['\n']) rest :=
      fun o => @spansFrom_blanks o ['\n'] rest rfl
    refine ⟨?_, ?_⟩
    · rw [whole, at_boundary_cons]
      decide
    · rw [whole, spansFrom_scanned rfl (scan_comment h rest), newline, length, size_append,
        Nat.add_assoc]
      rfl
  | @blockComment body h =>
    have whole : ("/*" ++ body ++ "*/").toList ++ rest =
        '/' :: '*' :: (body.toList ++ '*' :: '/' :: rest) := by
      simp
    have scanned := Token.scan_of_reads (.blockComment (commentBody_closed h rest))
    have length : ("/*" ++ body ++ "*/").toList = '/' :: '*' :: (body.toList ++ ['*', '/']) := by
      simp
    refine ⟨?_, ?_⟩
    · rw [whole, at_boundary_cons]
      decide
    · rw [whole, spansFrom_scanned rfl scanned, length]
      rfl

theorem Spacing.of_empty {comments : List Token} (h : Spacing "" comments) : comments = [] := by
  generalize he : "" = inserted at h
  cases h with
  | blanks => rfl
  | comment | blockComment => simp [String.ext_iff] at he

theorem Spacing.comments {inserted : String} {comments : List Token}
    (h : Spacing inserted comments) : ∀ token ∈ comments, token.isComment = true := by
  cases h with
  | blanks => exact fun _ h => absurd h List.not_mem_nil
  | comment | blockComment =>
    intro token ht
    rw [List.mem_singleton.mp ht]
    rfl

theorem shift_zero (spans : List Span) : spans.map (Span.shift 0) = spans := by
  refine (List.map_congr_left fun span _ => ?_).trans (List.map_id _)
  simp [Span.shift]

theorem tokenize_spaced {text : String} {before after : List Span} {span : Span}
    (h : tokenize text = .ok (before ++ span :: after)) :
    ∃ left right : String, left ++ right = text ∧ left.utf8ByteSize = span.offset ∧
      ∀ inserted comments, Spacing inserted comments →
        tokenize (left ++ inserted ++ right) =
          .ok (before ++ comments.map (Span.mk · span.offset) ++
            (span :: after).map (Span.shift inserted.utf8ByteSize)) := by
  obtain ⟨left, d, right, split, hd, place, behind, ahead⟩ := spansFrom_parts h
  have whole : String.ofList left ++ String.ofList (d :: right) = text := by
    rw [← String.ofList_append, split, String.ofList_toList]
  refine ⟨.ofList left, .ofList (d :: right), whole, ?_, ?_⟩
  · rw [size_ofList, ← place, Nat.zero_add]
  · intro inserted comments spacing
    by_cases some : inserted.toList = []
    · obtain rfl : inserted = "" := String.toList_eq_nil_iff.mp some
      obtain rfl := spacing.of_empty
      have same : (span :: after).map (Span.shift "".utf8ByteSize) = span :: after := shift_zero _
      rw [String.append_empty, whole, h, same, List.map_nil, List.append_nil]
    · obtain ⟨boundary, reads⟩ := spacing.reads some span.offset (d :: right)
      have moved := spansFrom_shift inserted.utf8ByteSize behind
      have parts : (String.ofList left ++ inserted ++ String.ofList (d :: right)).toList =
          left ++ (inserted.toList ++ d :: right) := by
        simp
      rw [tokenize, parts, ahead _ boundary, reads, ← utf8ByteSize_eq, Nat.add_comm, moved]
      change Except.ok (before ++ (_ ++ _)) = _
      rw [List.append_assoc]

theorem toOption_congr {ε α : Type} {x y : Except ε α} (h : ∀ a, x = .ok a ↔ y = .ok a) :
    x.toOption = y.toOption := by
  cases x with
  | ok a => rw [(h a).mp rfl]
  | error e =>
    cases y with
    | ok b => cases (h b).mpr rfl
    | error => rfl

theorem meaning_comments {comments : List Token} (h : ∀ token ∈ comments, token.isComment = true)
    (offset : Nat) : meaning (comments.map (Span.mk · offset)) = [] := by
  have none : (comments.map (Span.mk · offset)).filter (fun s => !s.token.isComment) = [] := by
    rw [List.filter_eq_nil_iff]
    intro s hs
    obtain ⟨token, ht, rfl⟩ := List.mem_map.mp hs
    simp [h token ht]
  rw [meaning, none, List.map_nil]

theorem Script.parse_of_derives {text other : String} {spans others : List Span}
    (h : tokenize text = .ok spans) (ho : tokenize other = .ok others)
    (same : ∀ script, Derives (meaning others) script ↔ Derives (meaning spans) script) :
    (parse other).toOption = (parse text).toOption := by
  apply toOption_congr
  intro script
  rw [parse_ok_iff, parse_ok_iff]
  constructor
  · rintro ⟨_, read, derived⟩
    cases ho.symm.trans read
    exact ⟨spans, h, (same script).mp derived⟩
  · rintro ⟨_, read, derived⟩
    cases h.symm.trans read
    exact ⟨others, ho, (same script).mpr derived⟩

theorem Script.parse_of_meaning {text other : String} {spans others : List Span}
    (h : tokenize text = .ok spans) (ho : tokenize other = .ok others)
    (same : meaning others = meaning spans) :
    (parse other).toOption = (parse text).toOption :=
  parse_of_derives h ho fun script => by rw [same]

theorem Outline.parse_of_script {text other : String}
    (h : (Script.parse other).toOption = (Script.parse text).toOption) :
    (parse other).1.toOption = (parse text).1.toOption ∧ (parse other).2 = (parse text).2 := by
  unfold parse
  cases hs : Script.parse text with
  | ok script =>
    rw [hs] at h
    rw [except_ok_of_toOption h]
    exact ⟨rfl, rfl⟩
  | error e =>
    rw [hs] at h
    cases ho : Script.parse other with
    | ok script =>
      rw [ho] at h
      cases h
    | error => exact ⟨rfl, rfl⟩

theorem RuleSet.parse_outline (text : String) (source : IdSource) :
    ((parse text source).1.toOption.map fun found => found.1.outline) =
      (Outline.parse text).1.toOption := by
  change ((Outline.parse text).1.map (·.named source)).toOption.map _ = _
  cases (Outline.parse text).1 with
  | error e => rfl
  | ok outline => exact congrArg some (named_outline outline source)

/-- Blanks, or a complete comment, in front of a token of a text that reads: the tokens are the same
but for the comment and for their places. So the tree is the same, if there is one, and so are the
rules but for their names, and what there is to tell of them. -/
theorem RuleSet.spacing_changes_nothing (text : String) (before after : List Span) (span : Span)
    (h : tokenize text = .ok (before ++ span :: after)) :
    ∃ left right : String, left ++ right = text ∧ left.utf8ByteSize = span.offset ∧
      ∀ inserted comments, Spacing inserted comments →
        tokenize (left ++ inserted ++ right) =
          .ok (before ++ comments.map (Span.mk · span.offset) ++
            (span :: after).map (Span.shift inserted.utf8ByteSize)) ∧
        (Script.parse (left ++ inserted ++ right)).toOption = (Script.parse text).toOption ∧
        ∀ source source',
          ((parse (left ++ inserted ++ right) source).1.toOption.map fun found => found.1.outline) =
            ((parse text source').1.toOption.map fun found => found.1.outline) ∧
          (parse (left ++ inserted ++ right) source).2 = (parse text source').2 := by
  obtain ⟨left, right, whole, place, spaced⟩ := tokenize_spaced h
  refine ⟨left, right, whole, place, ?_⟩
  intro inserted comments spacing
  have reads := spaced inserted comments spacing
  have same : meaning (before ++ comments.map (Span.mk · span.offset) ++
      (span :: after).map (Span.shift inserted.utf8ByteSize)) =
        meaning (before ++ span :: after) := by
    rw [meaning_append, meaning_append, meaning_shift, meaning_comments spacing.comments,
      List.append_nil, ← meaning_append]
  have scripts := Script.parse_of_meaning h reads same
  obtain ⟨outlines, events⟩ := Outline.parse_of_script scripts
  refine ⟨reads, scripts, ?_⟩
  intro source source'
  refine ⟨?_, events⟩
  rw [parse_outline, parse_outline, outlines]

/-- Tokens with nothing between them. -/
def crowded : String := "text:\n.\n10:is/**/if"

theorem crowded_spaced :
    tokenize crowded = .ok ([⟨.multiline "", 0⟩, ⟨.number "10", 8⟩] ++
      ⟨.tag ":is", 10⟩ :: [⟨.blockComment, 13⟩, ⟨.identifier "if", 17⟩]) ∧
    ∃ left right : String, left ++ right = crowded ∧ left.utf8ByteSize = 10 ∧
      Spacing "#K é\n" [.comment] ∧
      tokenize (left ++ "#K é\n" ++ right) = .ok [⟨.multiline "", 0⟩, ⟨.number "10", 8⟩,
        ⟨.comment, 10⟩, ⟨.tag ":is", 16⟩, ⟨.blockComment, 19⟩, ⟨.identifier "if", 23⟩] := by
  have found : (tokenize crowded).toOption = some ([⟨.multiline "", 0⟩, ⟨.number "10", 8⟩] ++
      ⟨.tag ":is", 10⟩ :: [⟨.blockComment, 13⟩, ⟨.identifier "if", 17⟩]) := by
    decide +kernel
  have reads := except_ok_of_toOption found
  have spacing : Spacing "#K é\n" [.comment] :=
    @Spacing.comment "K é" (by decide)
  obtain ⟨left, right, whole, place, spaced⟩ :=
    RuleSet.spacing_changes_nothing crowded _ _ _ reads
  exact ⟨reads, left, right, whole, place, spacing, (spaced _ _ spacing).1⟩

end SieveRules
