import SieveRules.Proofs.LeadingLiteral
/-!
Dot-stuffing. A text is put into a script as the lines of a multi-line string, where a line that
begins with a dot gets one more. No such line can be taken for the one that ends the string, and
reading takes the dot off again, so whatever the lines are they are read back.
-/

namespace SieveRules

open Text

/-- The line with one more dot in front where it begins with one. -/
def stuffLine (line : List Char) : List Char :=
  if line.head? = some '.' then '.' :: line else line

def stuffedLines (text : List Char) : List Char :=
  (ByteLexer.lines text).flatMap stuffLine

def stuff (s : String) : String :=
  .ofList (stuffedLines s.toList)

theorem unstuffed_stuffLine (line : List Char) :
    ByteLexer.unstuffed (stuffLine line) = line := by
  by_cases dot : line.head? = some '.'
  · obtain ⟨more, rfl⟩ := List.head?_eq_some_iff.mp dot
    rfl
  · rw [stuffLine, if_neg dot, ByteLexer.unstuffed]
    rintro more rfl
    exact dot rfl

theorem stuffLine_no_ending {line : List Char} (some : line ≠ []) (rest : List Char) :
    ByteLexer.ending? (stuffLine line ++ rest) = none := by
  obtain ⟨c, more, rfl⟩ := List.exists_cons_of_ne_nil some
  by_cases dot : c = '.'
  · subst dot
    rfl
  · have other : (c :: more).head? ≠ Option.some '.' := fun he => dot (Option.some.inj he)
    rw [stuffLine, if_neg other]
    unfold ByteLexer.ending?
    split <;> simp_all

theorem stuffLine_line {line : List Char} (plain : ∀ c ∈ line, c ≠ '\n') :
    ∃ lead, (∀ c ∈ lead, c ≠ '\n') ∧ stuffLine (line ++ ['\n']) = lead ++ ['\n'] := by
  unfold stuffLine
  split
  · refine ⟨'.' :: line, ?_, rfl⟩
    intro c hc
    rcases List.mem_cons.mp hc with rfl | hc
    · decide
    · exact plain c hc
  · exact ⟨line, plain, rfl⟩

inductive Lined : List Char → Prop where
  | nil : Lined []
  | line {line behind : List Char} (plain : ∀ c ∈ line, c ≠ '\n') (h : Lined behind) :
      Lined (line ++ '\n' :: behind)

theorem Lined.cons {c : Char} {text : List Char} (h : Lined text) (hc : c = '\n' ∨ text ≠ []) :
    Lined (c :: text) := by
  by_cases newline : c = '\n'
  · subst newline
    have empty : Lined ([] ++ '\n' :: text) := .line (by simp) h
    exact empty
  · cases h with
    | nil => exact absurd rfl (hc.resolve_left newline)
    | line plain h =>
      have longer := Lined.line (List.forall_mem_cons.mpr ⟨newline, plain⟩) h
      exact longer

theorem lined_of_last {text : List Char} (h : text = [] ∨ text.getLast? = some '\n') :
    Lined text := by
  induction text with
  | nil => exact .nil
  | cons c text ih =>
    have last := h.resolve_left (List.cons_ne_nil c text)
    cases text with
    | nil => exact .cons .nil (.inl (Option.some.inj last))
    | cons d text =>
      rw [List.getLast?_cons_cons] at last
      exact (ih (.inr last)).cons (.inr (List.cons_ne_nil d text))

/-- Whatever the lines are, the string that they are stuffed into is made of them. -/
theorem multilineBody_stuffed {text ending rest : List Char} (h : Lined text)
    (he : ByteLexer.ending? (ending ++ rest) = some ending) :
    Token.multilineBody true (stuffedLines text ++ (ending ++ rest)) =
      some ⟨text, stuffedLines text ++ ending, rest⟩ := by
  induction h with
  | nil => exact ByteLexer.multilineBody_ends he
  | @line line behind plain _ ih =>
    have stuffed : stuffedLines (line ++ '\n' :: behind) =
        stuffLine (line ++ ['\n']) ++ stuffedLines behind := by
      rw [stuffedLines, ByteLexer.lines_line line behind plain, List.flatMap_cons]
      rfl
    obtain ⟨lead, plain', same⟩ := stuffLine_line plain
    have run : lead.all (· ≠ '\n') = true := by simpa using plain'
    have stop : ∀ more : List Char, ∀ c ∈ ('\n' :: more).head?, decide (c ≠ '\n') = false := by simp
    rw [stuffed, List.append_assoc,
      ByteLexer.multilineBody_line (stuffLine_no_ending (by simp) _)]
    -- what is read of the first line is that line with its dot taken off
    have dropped : (stuffLine (line ++ ['\n']) ++
        (stuffedLines behind ++ (ending ++ rest))).dropWhile (· ≠ '\n') =
          '\n' :: (stuffedLines behind ++ (ending ++ rest)) := by
      rw [same, List.append_assoc, List.singleton_append, dropWhile_run run (stop _)]
    have first : ByteLexer.firstLine
        (stuffLine (line ++ ['\n']) ++ (stuffedLines behind ++ (ending ++ rest))) =
          stuffLine (line ++ ['\n']) := by
      rw [ByteLexer.firstLine_ended dropped, same, List.append_assoc, List.singleton_append,
        takeWhile_run run (stop _)]
    simp only [dropped, first, unstuffed_stuffLine, ih, Option.map_some, Scanned.push]
    simp

theorem multiline?_of_lines {word line body : List Char} {s : Scanned (List Char)}
    (hw : ∀ c ∈ word, c ≠ '\n') (hl : ∀ c ∈ line, c ≠ '\n')
    (hb : Token.multilineBody true body = some s) :
    Token.multiline? (word ++ (line ++ '\n' :: body)) =
      some ⟨s.value, word ++ (line ++ '\n' :: s.text), s.rest⟩ := by
  have run : line.all (· ≠ '\n') = true := by simpa using hl
  have stop : ∀ c ∈ ('\n' :: body).head?, decide (c ≠ '\n') = false := by simp
  rw [ByteLexer.multiline?_introduced hw, dropWhile_run run stop, takeWhile_run run stop]
  simp [hb, Scanned.push]

/-- A text of lines that is stuffed and put between an introducer, in any case and with anything
behind it on its line, and a line with a dot, reads as that text in front of any other. -/
theorem dot_stuffing_undone (introducer line s ending rest : String)
    (hi : introducer.toLower = "text:") (hl : '\n' ∉ line.toList)
    (hs : s = "" ∨ s.toList.getLast? = some '\n') (he : ending = ".\n" ∨ ending = ".\r\n") :
    Leads (introducer ++ line ++ "\n" ++ stuff s ++ ending) (.multiline s) rest := by
  have spelled : introducer.toList.map Char.toLower = ['t', 'e', 'x', 't', ':'] := by
    rw [← toList_toLower, hi]
    rfl
  obtain ⟨plain, opens⟩ := ByteLexer.introducer_opens spelled
  have plain' : ∀ c ∈ line.toList, c ≠ '\n' := by
    rintro c hc rfl
    exact hl hc
  have lined : Lined s.toList := lined_of_last (hs.imp_left String.toList_eq_nil_iff.mpr)
  have closes : ByteLexer.ending? (ending.toList ++ rest.toList) = some ending.toList := by
    rcases he with rfl | rfl <;> rfl
  have reads := multiline?_of_lines plain plain' (multilineBody_stuffed lined closes)
  have whole : (introducer ++ line ++ "\n" ++ stuff s ++ ending).toList = introducer.toList ++
      (line.toList ++ '\n' :: (stuffedLines s.toList ++ ending.toList)) := by
    simp [stuff]
  obtain ⟨c, letters, hc⟩ : ∃ c letters, introducer.toList = c :: letters := by
    refine List.exists_cons_of_ne_nil fun none => ?_
    rw [none] at spelled
    cases spelled
  rw [hc] at opens reads whole
  have blank : isBlank c = false := by
    rcases ByteLexer.opens_letter (opens []) with rfl | rfl <;> rfl
  have token := Token.Reads.multiline (opens _) reads
  rw [String.ofList_toList] at token
  refine leads_of_reads whole blank ?_
  simpa [whole] using token

/-- Lines that begin with dots, one of which would end a string. -/
def dotted : String := ".\n..é\r\n\n.\r\n"

theorem dotted_undone : "TeXt:".toLower = "text:" ∧ '\n' ∉ " # ".toList ∧
    dotted.toList.getLast? = some '\n' ∧
    Leads ("TeXt:" ++ " # " ++ "\n" ++ stuff dotted ++ ".\r\n") (.multiline dotted) ";\"" := by
  have spelled : "TeXt:".toLower = "text:" := by decide +kernel
  have line : '\n' ∉ " # ".toList := by decide
  have last : dotted.toList.getLast? = some '\n' := by decide
  exact ⟨spelled, line, last,
    dot_stuffing_undone "TeXt:" " # " dotted ".\r\n" ";\"" spelled line (.inr last) (.inr rfl)⟩

example : stuff dotted = "..\n...é\r\n\n..\r\n" := by
  decide +kernel

end SieveRules
