import SieveRules.Proofs.Bytes
/-!
Multi-line strings, found by stepping through bytes from line to line. The lines up to the one that
ends the string are found first, and their dots are undone in the text that is cut out; reading the
characters does both at once.
-/

namespace SieveRules

open Text

namespace ByteLexer

variable {text : String} {i : Nat} {c : Char} {input rest : List Char}

theorem byte?_of_lt (h : i < text.utf8ByteSize) : ∃ b, byte? text i = some b := by
  have there : i < text.toByteArray.data.size := h
  rw [byte?, Array.getElem?_eq_getElem there]
  exact ⟨_, rfl⟩

theorem bytes_there {n : Nat} (h : i + n ≤ text.utf8ByteSize) :
    ∃ word, (List.range' i n).mapM (byte? text) = some word := by
  induction n generalizing i with
  | zero => exact ⟨[], rfl⟩
  | succ n ih =>
    obtain ⟨b, hb⟩ := @byte?_of_lt text i (by omega)
    obtain ⟨word, hw⟩ := @ih (i + 1) (by omega)
    exact ⟨b :: word, by rw [List.range'_succ, List.mapM_cons, hb, hw]; rfl⟩

/-- As many bytes as an ASCII word has letters spell it exactly where the characters do. -/
theorem word_bytes {word : List Char} (hw : ∀ d ∈ word, d.toNat < 128)
    (h : StandsAt text i input) (hi : i + word.length ≤ text.utf8ByteSize) :
    ∃ bytes, (List.range' i word.length).mapM (byte? text) = some bytes ∧
      (bytes.map Char.toLower = word ↔ (input.take word.length).map Char.toLower = word) := by
  induction word generalizing i input with
  | nil => exact ⟨[], rfl, by simp⟩
  | cons d word ih =>
    have lower : d.toNat < 128 := hw d List.mem_cons_self
    have later : ∀ e ∈ word, e.toNat < 128 := fun e he => hw e (List.mem_cons_of_mem d he)
    cases input with
    | nil =>
      have ends := h.not_lt
      simp only [List.length_cons] at hi
      omega
    | cons c rest =>
      obtain ⟨b, hb, looks⟩ := h.byte
      simp only [List.length_cons] at hi
      rw [List.length_cons, List.range'_succ, List.mapM_cons, hb]
      rcases looks with ⟨rfl, one⟩ | ⟨beyond, beyond'⟩
      · obtain ⟨bytes, hbytes, same⟩ := ih later (h.ascii one) (by omega)
        refine ⟨b :: bytes, by rw [hbytes]; rfl, ?_⟩
        simp [same]
      · obtain ⟨bytes, hbytes⟩ := @bytes_there text (i + 1) word.length (by omega)
        refine ⟨b :: bytes, by rw [hbytes]; rfl, ?_⟩
        have apart : ∀ e : Char, 128 ≤ e.toNat → e.toLower ≠ d := by
          rintro e he rfl
          rw [toLower_of_not_ascii he] at lower
          omega
        simp [apart b beyond, apart c beyond']

theorem toLower_eq_t {c : Char} (h : c.toLower = 't') : c = 't' ∨ c = 'T' := by
  unfold Char.toLower at h
  split at h
  · rename_i capital
    have value := congrArg (fun d : Char => d.val.toNat) h
    have bound := UInt32.le_iff_toNat_le.mp capital.2
    have : 'Z'.val.toNat = 90 := rfl
    have : 't'.val.toNat = 116 := rfl
    have : ('a'.val - 'A'.val).toNat = 32 := rfl
    simp only [UInt32.toNat_add] at value
    refine .inr (Char.ext (UInt32.toNat_inj.mp ?_))
    have : 'T'.val.toNat = 84 := rfl
    omega
  · exact .inl h

theorem opens_letter (h : Token.opensMultiline (c :: rest) = true) : c = 't' ∨ c = 'T' := by
  have spelled : ((c :: rest).take 5).map Char.toLower = ['t', 'e', 'x', 't', ':'] :=
    of_decide_eq_true h
  have heads := congrArg List.head? spelled
  exact toLower_eq_t (by simpa using heads)

theorem introducer_letters {d : Char} (h : d ∈ ['t', 'e', 'x', 't', ':']) :
    d.toNat < 128 ∧ d ≠ '\n' := by
  simp only [List.mem_cons, List.not_mem_nil, or_false] at h
  rcases h with rfl | rfl | rfl | rfl | rfl <;> decide

theorem opensMultiline_at (h : StandsAt text i (c :: rest)) :
    opensMultiline text i = some (Token.opensMultiline (c :: rest)) := by
  obtain ⟨b, hb, looks⟩ := h.byte
  have letters : ∀ d ∈ ['t', 'e', 'x', 't', ':'], d.toNat < 128 := fun d hd =>
    (introducer_letters hd).1
  rw [opensMultiline, hb]
  simp only [Option.bind_eq_bind, Option.bind_some]
  split
  · rename_i opens
    obtain ⟨bytes, hw, same⟩ := word_bytes letters h opens.2
    change (List.range' i 5).mapM (byte? text) = some bytes at hw
    rw [hw]
    exact congrArg some (decide_eq_decide.mpr same)
  · rename_i opens
    refine congrArg some (Bool.eq_false_iff.mpr fun spelled => opens ⟨?_, ?_⟩).symm
    · rcases opens_letter spelled with rfl | rfl
      · exact .inl ((looks.eq_iff (by decide)).mpr rfl)
      · exact .inr ((looks.eq_iff (by decide)).mpr rfl)
    · have long := congrArg List.length (of_decide_eq_true spelled)
      have fits := length_le_size (c :: rest)
      have whole := h.length
      simp only [List.length_map, List.length_take, List.length_cons, List.length_nil] at long fits
      omega

def firstLine (input : List Char) : List Char :=
  input.takeWhile (· ≠ '\n') ++ (input.dropWhile (· ≠ '\n')).take 1

theorem firstLine_behind (input : List Char) :
    firstLine input ++ (input.dropWhile (· ≠ '\n')).drop 1 = input := by
  rw [firstLine, List.append_assoc, List.take_append_drop, List.takeWhile_append_dropWhile]

theorem dropWhile_line {d : Char} {more : List Char}
    (h : input.dropWhile (· ≠ '\n') = d :: more) : d = '\n' := by
  have stops := List.head?_dropWhile_not (p := (· ≠ '\n')) input
  rw [h] at stops
  simpa using stops

theorem firstLine_ended {more : List Char} (h : input.dropWhile (· ≠ '\n') = '\n' :: more) :
    firstLine input = input.takeWhile (· ≠ '\n') ++ ['\n'] := by
  rw [firstLine, h]
  rfl

theorem nextLine_at (h : StandsAt text i input) :
    nextLine text i = some (i + size (firstLine input)) := by
  have whole := List.takeWhile_append_dropWhile (p := (· ≠ '\n')) (l := input)
  rw [nextLine, skip_run isAsciiKind_line h]
  simp only [Option.bind_eq_bind, Option.bind_some, firstLine]
  rw [← whole] at h
  have behind := h.behind
  cases hd : input.dropWhile (· ≠ '\n') with
  | nil =>
    rw [hd] at behind
    rw [if_neg behind.not_lt, List.take_nil, List.append_nil]
    rfl
  | cons d more =>
    obtain rfl := dropWhile_line hd
    rw [hd] at behind
    rw [if_pos behind.lt, size_append, ← Nat.add_assoc]
    rfl

def unstuffed : List Char → List Char
  | '.' :: '.' :: rest => '.' :: rest
  | line => line

def ending? : List Char → Option (List Char)
  | ['.'] => some ['.']
  | '.' :: '\n' :: _ => some ['.', '\n']
  | '.' :: '\r' :: '\n' :: _ => some ['.', '\r', '\n']
  | _ => none

theorem multilineBody_ends {e : List Char} (h : ending? (e ++ rest) = some e) :
    Token.multilineBody true (e ++ rest) = some ⟨[], e, rest⟩ := by
  unfold ending? at h
  split at h
  · rename_i whole
    obtain rfl := Option.some.inj h
    obtain rfl : rest = [] := by simpa using whole
    rfl
  · obtain rfl := Option.some.inj h
    rfl
  · obtain rfl := Option.some.inj h
    rfl
  · cases h

theorem multilineBody_inside (input : List Char) :
    Token.multilineBody false input =
      match input.dropWhile (· ≠ '\n') with
      | [] => none
      | _ :: behind =>
        (Token.multilineBody true behind).map (.push (firstLine input) (firstLine input)) := by
  induction input with
  | nil => rfl
  | cons c rest ih =>
    have step : Token.multilineBody false (c :: rest) =
        (Token.multilineBody (c = '\n') rest).map (.push [c] [c]) := by
      rw [Token.multilineBody] <;> simp
    rw [step]
    by_cases line : c = '\n'
    · subst line
      simp [firstLine]
    · have dropped : (c :: rest).dropWhile (· ≠ '\n') = rest.dropWhile (· ≠ '\n') :=
        List.dropWhile_cons_of_pos (by simpa using line)
      simp only [dropped, line, decide_false, ih]
      have first : firstLine (c :: rest) = c :: firstLine rest := by
        simp [firstLine, line]
      rw [first]
      split
      · rfl
      · rw [Option.map_map]
        rfl

theorem multilineBody_plain (h : ending? input = none) (hd : ∀ more, input ≠ '.' :: '.' :: more) :
    Token.multilineBody true input = Token.multilineBody false input := by
  cases input with
  | nil => rfl
  | cons c rest =>
    have step : Token.multilineBody false (c :: rest) =
        (Token.multilineBody (c = '\n') rest).map (.push [c] [c]) := by
      rw [Token.multilineBody] <;> simp
    rw [step, Token.multilineBody]
    · rintro - rfl rfl
      cases h
    · rintro more - rfl rfl
      cases h
    · rintro more - rfl rfl
      cases h
    · rintro more - rfl rfl
      exact hd more rfl

theorem unstuffed_plain (hd : ∀ more, input ≠ '.' :: '.' :: more) :
    unstuffed (firstLine input) = firstLine input := by
  unfold unstuffed
  split
  · rename_i more he
    have whole := firstLine_behind input
    rw [he] at whole
    exact absurd whole.symm (hd _)
  · rfl

theorem multilineBody_line (h : ending? input = none) :
    Token.multilineBody true input =
      match input.dropWhile (· ≠ '\n') with
      | [] => none
      | _ :: behind =>
        (Token.multilineBody true behind).map
          (.push (unstuffed (firstLine input)) (firstLine input)) := by
  by_cases hd : ∃ more, input = '.' :: '.' :: more
  · obtain ⟨more, rfl⟩ := hd
    have dropped : ('.' :: '.' :: more).dropWhile (· ≠ '\n') = more.dropWhile (· ≠ '\n') := rfl
    have first : firstLine ('.' :: '.' :: more) = '.' :: '.' :: firstLine more := rfl
    rw [Token.multilineBody, multilineBody_inside, dropped, first]
    split
    · rfl
    · rw [Option.map_map]
      rfl
  · have plain : ∀ more, input ≠ '.' :: '.' :: more := fun more he => hd ⟨more, he⟩
    rw [multilineBody_plain h plain, multilineBody_inside, unstuffed_plain plain]

theorem lines_line (line taken : List Char) (h : ∀ c ∈ line, c ≠ '\n') :
    lines (line ++ '\n' :: taken) = (line ++ ['\n']) :: lines taken := by
  induction line with
  | nil => rw [List.nil_append, lines, if_pos rfl, List.nil_append]
  | cons c line ih =>
    rw [List.cons_append, lines, if_neg (h c List.mem_cons_self),
      ih fun d hd => h d (List.mem_cons_of_mem c hd)]
    rfl

theorem unstuffLine?_ofList (line : List Char) :
    unstuffLine? (.ofList line) = some (.ofList (unstuffed line)) := by
  rw [unstuffLine?, String.toList_ofList]
  by_cases dots : ['.', '.'].isPrefixOf line = true
  · obtain ⟨more, rfl⟩ := List.isPrefixOf_iff_prefix.mp dots
    have start : StandsAt (.ofList ('.' :: '.' :: more)) 0 ('.' :: '.' :: more) :=
      ⟨[], String.toList_ofList, rfl⟩
    have dot : StandsAt (.ofList ('.' :: '.' :: more)) 1 ('.' :: more) := start.ascii rfl
    rw [if_pos dots]
    exact dot.slice_end
  · rw [if_neg dots]
    unfold unstuffed
    split
    · rename_i more
      exact absurd (List.isPrefixOf_iff_prefix.mpr ⟨more, rfl⟩) dots
    · rfl

theorem unstuff?_line {line taken value : List Char} (h : ∀ c ∈ line, c ≠ '\n')
    (rest : unstuff? (.ofList taken) = some (.ofList value)) :
    unstuff? (.ofList (line ++ '\n' :: taken)) =
      some (.ofList (unstuffed (line ++ ['\n']) ++ value)) := by
  obtain ⟨kept, hk, joined⟩ := Option.bind_eq_some_iff.mp rest
  rw [String.toList_ofList] at hk
  have joined : String.join kept = .ofList value := Option.some.inj joined
  rw [unstuff?, String.toList_ofList, lines_line line taken h, List.mapM_cons, hk,
    unstuffLine?_ofList]
  simp [joined]

theorem endsBody_at (h : StandsAt text i (c :: rest)) :
    endsBody text i = some (ending? (c :: rest)).isSome := by
  obtain ⟨b, hb, looks⟩ := h.byte
  rw [endsBody, hb]
  simp only [Option.bind_eq_bind, Option.bind_some]
  by_cases dot : c = '.'
  · subst dot
    obtain rfl := (looks.eq_iff (by decide)).mpr rfl
    have next := h.ascii rfl
    cases rest with
    | nil =>
      simp [next.not_lt, ending?]
    | cons d more =>
      obtain ⟨b', hb', looks'⟩ := next.byte
      simp only [ne_eq, not_true_eq_false, if_false, next.lt, if_true, hb', Option.bind_some]
      by_cases line : d = '\n'
      · subst line
        obtain rfl := (looks'.eq_iff (by decide)).mpr rfl
        rfl
      · have other : b' ≠ '\n' := fun he => line ((looks'.eq_iff (by decide)).mp he)
        rw [if_neg other]
        by_cases feed : d = '\r'
        · subst feed
          obtain rfl := (looks'.eq_iff (by decide)).mpr rfl
          have last := next.ascii rfl
          cases more with
          | nil => simp [last.not_lt, ending?]
          | cons e more =>
            obtain ⟨b'', hb'', looks''⟩ := last.byte
            simp only [last.lt, and_self, if_true, hb'', Option.bind_some]
            by_cases line' : e = '\n'
            · subst line'
              obtain rfl := (looks''.eq_iff (by decide)).mpr rfl
              rfl
            · have other' : b'' ≠ '\n' := fun he => line' ((looks''.eq_iff (by decide)).mp he)
              simp [ending?, line', other']
        · have other' : b' ≠ '\r' := fun he => feed ((looks'.eq_iff (by decide)).mp he)
          simp [ending?, line, feed, other']
  · have other : b ≠ '.' := fun he => dot ((looks.eq_iff (by decide)).mp he)
    simp [ending?, dot, other]

theorem ending?_prefix {e : List Char} (h : ending? input = some e) : ∃ rest, input = e ++ rest := by
  unfold ending? at h
  split at h
  · exact ⟨[], by rw [← Option.some.inj h]; rfl⟩
  · rename_i rest
    exact ⟨rest, by rw [← Option.some.inj h]; rfl⟩
  · rename_i rest
    exact ⟨rest, by rw [← Option.some.inj h]; rfl⟩
  · cases h

theorem endDot_line (h : StandsAt text i (c :: rest)) (he : ending? (c :: rest) = none) :
    endDot text i = endDot text (i + size (firstLine (c :: rest))) := by
  have ends := endsBody_at h
  rw [he] at ends
  rw [endDot, dif_pos h.lt, ends]
  simp only [Option.bind_eq_bind, Option.bind_some, Option.isSome_none, Bool.false_eq_true, if_false]
  split
  · rename_i none
    cases (nextLine_at h).symm.trans none
  · rename_i next found
    cases (nextLine_at h).symm.trans found
    rfl

/-- From an index on, the end of the string is found where a scan of its lines ends, and undoing the
dots of the lines before gives what the scan gives. -/
def Closes (text : String) (i : Nat) : Option (Scanned (List Char)) → Prop
  | none => endDot text i = some (.error .multiline)
  | some s => ∃ taken e, s.text = taken ++ e ∧ endDot text i = some (.ok (i + size taken)) ∧
      ending? (e ++ s.rest) = some e ∧ unstuff? (.ofList taken) = some (.ofList s.value)

theorem closes_end (h : StandsAt text i []) : Closes text i none := by
  change endDot text i = _
  rw [endDot, dif_neg h.not_lt]
  rfl

theorem closes_ending {e : List Char} (h : StandsAt text i (c :: rest))
    (he : ending? (c :: rest) = some e) :
    Closes text i (Token.multilineBody true (c :: rest)) := by
  have ends := endsBody_at h
  obtain ⟨behind, whole⟩ := ending?_prefix he
  rw [he] at ends
  rw [whole] at he ⊢
  rw [multilineBody_ends he]
  refine ⟨[], e, rfl, ?_, he, rfl⟩
  rw [endDot, dif_pos h.lt, ends]
  rfl

theorem Closes.line {behind : List Char} {found : Option (Scanned (List Char))}
    (h : StandsAt text i (c :: rest)) (he : ending? (c :: rest) = none)
    (hd : (c :: rest).dropWhile (· ≠ '\n') = '\n' :: behind)
    (closes : Closes text (i + size (firstLine (c :: rest))) found) :
    Closes text i (found.map (.push (unstuffed (firstLine (c :: rest))) (firstLine (c :: rest)))) := by
  have stepped := endDot_line h he
  cases found with
  | none => exact stepped.trans closes
  | some s =>
    obtain ⟨taken, e, split, dot, ending, kept⟩ := closes
    refine ⟨firstLine (c :: rest) ++ taken, e, ?_, ?_, ending, ?_⟩
    · simp [Scanned.push, split]
    · rw [stepped, dot, size_append, Nat.add_assoc]
    · have plain : ∀ d ∈ (c :: rest).takeWhile (· ≠ '\n'), d ≠ '\n' := by
        intro d hd
        simpa using List.all_eq_true.mp List.all_takeWhile d hd
      rw [firstLine_ended hd, List.append_assoc]
      exact unstuff?_line plain kept

theorem endDot_body (h : StandsAt text i input) :
    Closes text i (Token.multilineBody true input) := by
  induction hn : input.length using Nat.strongRecOn generalizing i input with
  | ind n ih =>
    cases input with
    | nil => exact closes_end h
    | cons c rest =>
      cases he : ending? (c :: rest) with
      | some e => exact closes_ending h he
      | none =>
        have whole := firstLine_behind (c :: rest)
        have behind := h
        rw [← whole] at behind
        have behind := behind.behind
        rw [multilineBody_line he]
        cases hd : (c :: rest).dropWhile (· ≠ '\n') with
        | nil =>
          rw [hd] at behind
          exact (endDot_line h he).trans (closes_end behind)
        | cons d more =>
          obtain rfl := dropWhile_line hd
          rw [hd, List.drop_one, List.tail_cons] at behind whole
          have shorter : more.length < n := by
            have long := congrArg List.length whole
            rw [firstLine_ended hd] at long
            simp only [List.length_append, List.length_cons, List.length_nil] at long hn
            omega
          exact .line h he hd (ih more.length shorter behind rfl)

theorem pass_at {d : Char} (hd : d.toNat < 128) (h : StandsAt text i input) :
    pass text d i = some (if input.head? = some d then i + 1 else i) := by
  unfold pass
  cases input with
  | nil =>
    rw [if_neg h.not_lt]
    rfl
  | cons c rest =>
    obtain ⟨b, hb, looks⟩ := h.byte
    rw [if_pos h.lt, hb]
    simp [looks.eq_iff hd]

theorem pass_ending {e : List Char} (h : StandsAt text i (e ++ rest))
    (he : ending? (e ++ rest) = some e) :
    ∃ j, pass text '\r' (i + 1) = some j ∧ pass text '\n' j = some (i + size e) := by
  have feed : '\r'.toNat < 128 := by decide
  have line : '\n'.toNat < 128 := by decide
  unfold ending? at he
  split at he
  · rename_i whole
    have dot : StandsAt text (i + 1) [] := StandsAt.ascii rfl (whole ▸ h)
    obtain rfl := Option.some.inj he
    exact ⟨_, pass_at feed dot, pass_at line dot⟩
  · rename_i more whole
    have behind : StandsAt text (i + 1) ('\n' :: more) := StandsAt.ascii rfl (whole ▸ h)
    obtain rfl := Option.some.inj he
    exact ⟨_, pass_at feed behind, pass_at line behind⟩
  · rename_i more whole
    have behind : StandsAt text (i + 1) ('\r' :: '\n' :: more) := StandsAt.ascii rfl (whole ▸ h)
    obtain rfl := Option.some.inj he
    exact ⟨_, pass_at feed behind, pass_at line (behind.ascii rfl)⟩
  · cases he

/-- The introducer opens a multi-line string whatever case its letters are of. -/
theorem introducer_opens {word : List Char}
    (h : word.map Char.toLower = ['t', 'e', 'x', 't', ':']) :
    (∀ c ∈ word, c ≠ '\n') ∧ ∀ behind, Token.opensMultiline (word ++ behind) = true := by
  constructor
  · rintro c hc rfl
    exact (introducer_letters (h ▸ List.mem_map_of_mem hc)).2 rfl
  · intro behind
    have five : word.length = 5 := by simpa using congrArg List.length h
    rw [Token.opensMultiline, List.take_append_of_le_length (Nat.le_of_eq five.symm),
      List.take_of_length_le (Nat.le_of_eq five), h]
    rfl

theorem introducer (h : Token.opensMultiline input = true) :
    ∃ word more, input = word ++ more ∧ size word = 5 ∧ (∀ c ∈ word, c ≠ '\n') ∧
      ∀ behind, Token.opensMultiline (word ++ behind) = true := by
  have spelled : (input.take 5).map Char.toLower = ['t', 'e', 'x', 't', ':'] :=
    of_decide_eq_true h
  have ascii : ∀ c ∈ input.take 5, c.toNat < 128 := by
    intro c hc
    have small := (introducer_letters (spelled ▸ List.mem_map_of_mem hc)).1
    by_cases beyond : 128 ≤ c.toNat
    · rwa [toLower_of_not_ascii beyond] at small
    · omega
  have five : (input.take 5).length = 5 := by simpa using congrArg List.length spelled
  refine ⟨input.take 5, input.drop 5, (List.take_append_drop 5 input).symm, ?_,
    introducer_opens spelled⟩
  rw [size_of_ascii ascii, five]

theorem multiline?_introduced {word more : List Char} (h : ∀ c ∈ word, c ≠ '\n') :
    Token.multiline? (word ++ more) =
      match more.dropWhile (· ≠ '\n') with
      | [] => none
      | newline :: body => (Token.multilineBody true body).map
          (.push [] (word ++ more.takeWhile (· ≠ '\n') ++ [newline])) := by
  have run : ∀ c ∈ word, decide (c ≠ '\n') = true := by simpa using h
  have behind := @List.dropWhile_append_of_pos _ _ word more run
  cases hd : more.dropWhile (· ≠ '\n') with
  | nil => simp only [Token.multiline?, behind, hd]
  | cons newline body =>
    simp only [Token.multiline?, behind, List.takeWhile_append_of_pos run, hd]

theorem multilineAt_body (h : StandsAt text i input) (hm : Token.opensMultiline input = true) :
    multilineAt text i = some ((Token.ofBody .multiline .multiline [] (Token.multiline? input)).map
      fun found => (found.value, i + size found.text)) := by
  obtain ⟨word, more, rfl, five, plain, -⟩ := introducer hm
  have introduced := h.behind
  rw [five] at introduced
  have whole := firstLine_behind more
  have lines := introduced
  rw [← whole] at lines
  have behind := lines.behind
  rw [multiline?_introduced plain, multilineAt, nextLine_at introduced]
  simp only [Option.bind_eq_bind, Option.bind_some]
  cases hd : more.dropWhile (· ≠ '\n') with
  | nil =>
    rw [hd] at behind
    have unclosed : endDot text (i + 5 + size (firstLine more)) = some (.error .multiline) :=
      closes_end behind
    rw [unclosed]
    rfl
  | cons d body =>
    obtain rfl := dropWhile_line hd
    rw [hd, List.drop_one, List.tail_cons] at behind
    have first := firstLine_ended hd
    have found := endDot_body behind
    cases hb : Token.multilineBody true body with
    | none =>
      rw [hb] at found
      have unclosed : endDot text (i + 5 + size (firstLine more)) = some (.error .multiline) := found
      rw [unclosed]
      simp only [hb]
      rfl
    | some s =>
      rw [hb] at found
      obtain ⟨taken, e, parts, dot, ending, kept⟩ := found
      rw [← Token.multilineBody_split hb, parts, List.append_assoc] at behind
      obtain ⟨j, feed, line⟩ := pass_ending behind.behind ending
      have stop : i + size (word ++ more.takeWhile (· ≠ '\n') ++ ['\n'] ++ s.text) =
          i + 5 + size (firstLine more) + size taken + size e := by
        rw [List.append_assoc word, ← first, size_append, size_append, five, parts, size_append]
        omega
      rw [dot]
      simp only [Option.bind_some, behind.slice, kept, feed, line, hb, Option.map_some,
        Token.ofBody, Except.map, Scanned.push, List.nil_append, stop]
      rfl

end ByteLexer

end SieveRules
