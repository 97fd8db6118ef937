import SieveRules.Proofs.Nesting
import SieveRules.Proofs.Spacing
/-!
Readings that look at no more than one token behind those they take. Such a reading comes to the same
whatever follows that token; and where it wants something else, what it has taken begins a phrase.
-/

namespace SieveRules

open Text

variable {α β : Type}

/-- Some text reads as the token. -/
def Token.Writable (token : Token) : Prop :=
  ∃ text, Writes text [token]

theorem writes_of_writable {ts : List Token} (h : ∀ token ∈ ts, token.Writable) :
    ∃ text, AtBoundary text ∧ Writes text ts := by
  induction ts with
  | nil => exact ⟨[], at_boundary_nil, .nil⟩
  | cons token rest ih =>
    obtain ⟨text, ht⟩ := h token List.mem_cons_self
    obtain ⟨more, hb, hm⟩ := ih fun t ht => h t (List.mem_cons_of_mem _ ht)
    exact ⟨' ' :: (text ++ more), at_boundary_cons.mpr (by decide), .blank rfl (ht.append hm hb)⟩

theorem Token.writable_punctuation {c : Char} {token : Token} (h : punctuation? c = some token) :
    token.Writable :=
  ⟨[c], .punctuation h .nil⟩

theorem Token.writable_word {name : String} (h : isWord name = true) :
    (identifier name).Writable :=
  ⟨name.toList, .word h⟩

theorem Token.writable_quoted (value : String) : (quoted value).Writable :=
  ⟨_, .quote value⟩

/-- The tokens go on to a phrase of the language, by tokens that can be written. -/
def Begins (language : List Token → α → Prop) (ts : List Token) : Prop :=
  ∃ more a, (∀ token ∈ more, token.Writable) ∧ language (ts ++ more) a

namespace Begins

variable {language : List Token → α → Prop} {other : List Token → β → Prop} {ts us : List Token}

theorem of_phrase {a : α} (h : language ts a) : Begins language ts :=
  ⟨[], a, by simp, by rwa [List.append_nil]⟩

theorem of_more {more : List Token} {a : α} (hm : ∀ token ∈ more, token.Writable)
    (h : language (ts ++ more) a) : Begins language ts :=
  ⟨more, a, hm, h⟩

theorem closed {closing : List Token} (hc : ∀ token ∈ closing, token.Writable)
    (h : Begins language ts) (hl : ∀ us a, language us a → ∃ b, other (us ++ closing) b) :
    Begins other ts := by
  obtain ⟨more, a, hw, ha⟩ := h
  obtain ⟨b, hb⟩ := hl _ a ha
  rw [List.append_assoc] at hb
  exact ⟨more ++ closing, b, List.forall_mem_append.mpr ⟨hw, hc⟩, hb⟩

theorem imp (h : Begins language ts) (hl : ∀ us a, language us a → ∃ b, other us b) :
    Begins other ts := by
  have none : ∀ token ∈ ([] : List Token), token.Writable := nofun
  refine h.closed none ?_
  intro us a ha
  rw [List.append_nil]
  exact hl us a ha

theorem behind (ts : List Token) (h : Begins (fun vs b => other (ts ++ vs) b) us) :
    Begins other (ts ++ us) := by
  obtain ⟨more, b, hw, hb⟩ := h
  exact ⟨more, b, hw, by rwa [List.append_assoc]⟩

end Begins

abbrev Reading (α : Type) := List Span → Except ScriptError (α × List Span)

namespace Reading

def map (run : Reading α) (f : α → β) : Reading β :=
  fun input => (run input).map fun found => (f found.1, found.2)

def andThen (run : Reading α) (next : α → Reading β) : Reading β :=
  fun input => (run input).bind fun found => next found.1 found.2

variable {run : Reading α} {input rest : List Span} {a : α} {e : ScriptError}

theorem map_error (h : run input = .error e) (f : α → β) : run.map f input = .error e := by
  rw [map, h]
  rfl

theorem map_ok (h : run input = .ok (a, rest)) (f : α → β) :
    run.map f input = .ok (f a, rest) := by
  rw [map, h]
  rfl

theorem andThen_error (h : run input = .error e) (next : α → Reading β) :
    run.andThen next input = .error e := by
  rw [andThen, h]
  rfl

theorem andThen_ok (h : run input = .ok (a, rest)) (next : α → Reading β) :
    run.andThen next input = next a rest := by
  rw [andThen, h]
  rfl

end Reading

/-- What a reading comes to where it stops. -/
inductive Verdict (α : Type) where
  | gives (a : α)
  | wants (what : Expectation)

def Verdict.outcome : Verdict α → Reading α
  | gives a, rest => .ok (a, rest)
  | wants what, rest => .error (what.unmet rest)

/-- The reading comes to this verdict behind these tokens, where it sees the next token and no more.
If it wants something there, what it has read begins a phrase. -/
structure Settles (run : Reading α) (language : List Token → α → Prop) (used rest : List Span)
    (verdict : Verdict α) : Prop where
  looks : ∀ others, others.head? = rest.head? → run (used ++ others) = verdict.outcome others
  begins : ∀ what, verdict = .wants what → Begins language (used.map Span.token)

/-- The reading settles somewhere in the input, or the input is nested too deep. -/
def Foreseen (run : Reading α) (language : List Token → α → Prop) (input : List Span) : Prop :=
  (∃ offset, run input = .error (.tooDeep offset)) ∨
    ∃ used rest verdict, input = used ++ rest ∧ Settles run language used rest verdict

theorem head?_append_congr {σ : Type} {others rest : List σ} (h : others.head? = rest.head?)
    (used : List σ) : (used ++ others).head? = (used ++ rest).head? := by
  rw [List.head?_append, List.head?_append, h]

section

variable {P : List Span → Prop}

theorem sees_end (h : P []) : ∀ others, others.head? = ([] : List Span).head? → P others := by
  intro others ho
  obtain rfl := List.head?_eq_none_iff.mp ho
  exact h

theorem sees_next {span : Span} {rest : List Span} (h : ∀ tail, P (span :: tail)) :
    ∀ others, others.head? = (span :: rest).head? → P others := by
  intro others ho
  obtain ⟨tail, rfl⟩ := List.head?_eq_some_iff.mp ho
  exact h tail

end

namespace Foreseen

variable {run other : Reading α} {language : List Token → α → Prop}
  {target : List Token → β → Prop} {input rest : List Span} {span : Span} {a : α}

theorem gives (h : ∀ others, others.head? = input.head? → run others = .ok (a, others)) :
    Foreseen run language input :=
  .inr ⟨[], input, .gives a, rfl, h, nofun⟩

theorem wants_end {what : Expectation} (h : run [] = .error (what.unmet []))
    (hb : Begins language []) : Foreseen run language [] :=
  .inr ⟨[], [], .wants what, rfl, sees_end h, fun _ _ => hb⟩

theorem wants_other (what : Expectation)
    (h : ∀ tail, run (span :: tail) = .error (what.unmet (span :: tail)))
    (hb : Begins language []) : Foreseen run language (span :: rest) :=
  .inr ⟨[], span :: rest, .wants what, rfl, sees_next h, fun _ _ => hb⟩

theorem takes (h : ∀ tail, run (span :: tail) = .ok (a, tail)) :
    Foreseen run language (span :: rest) :=
  .inr ⟨[span], rest, .gives a, rfl, fun others _ => h others, nofun⟩

theorem congr (h : Foreseen other language input)
    (same : ∀ others, others.head? = input.head? → run others = other others) :
    Foreseen run language input := by
  rcases h with ⟨offset, deep⟩ | ⟨used, after, verdict, rfl, hs⟩
  · exact .inl ⟨offset, (same input rfl).trans deep⟩
  · refine .inr ⟨used, after, verdict, rfl, ?_, hs.begins⟩
    intro others ho
    exact (same _ (head?_append_congr ho used)).trans (hs.looks others ho)

theorem imp {wider : List Token → α → Prop} (h : Foreseen run language input)
    (hl : ∀ ts, Begins language ts → Begins wider ts) : Foreseen run wider input := by
  rcases h with deep | ⟨used, after, verdict, rfl, hs⟩
  · exact .inl deep
  · exact .inr ⟨used, after, verdict, rfl, hs.looks, fun what hw => hl _ (hs.begins what hw)⟩

theorem cons {inner : Reading α} {later : List Token → α → Prop} (h : Foreseen inner later rest)
    (same : ∀ tail, run (span :: tail) = inner tail)
    (hl : ∀ us, Begins later us → Begins language (span.token :: us)) :
    Foreseen run language (span :: rest) := by
  rcases h with ⟨offset, deep⟩ | ⟨used, after, verdict, rfl, hs⟩
  · exact .inl ⟨offset, (same rest).trans deep⟩
  · refine .inr ⟨span :: used, after, verdict, rfl, ?_, ?_⟩
    · intro others ho
      exact (same _).trans (hs.looks others ho)
    · intro what hw
      exact hl _ (hs.begins what hw)

theorem map (h : Foreseen run language input) (f : α → β)
    (hl : ∀ ts, Begins language ts → Begins target ts) :
    Foreseen (run.map f) target input := by
  rcases h with ⟨offset, deep⟩ | ⟨used, after, verdict, rfl, hs⟩
  · exact .inl ⟨offset, Reading.map_error deep f⟩
  · cases verdict with
    | gives a =>
      refine .inr ⟨used, after, .gives (f a), rfl, ?_, nofun⟩
      intro others ho
      exact Reading.map_ok (hs.looks others ho) f
    | wants what =>
      refine .inr ⟨used, after, .wants what, rfl, ?_, fun _ _ => hl _ (hs.begins what rfl)⟩
      intro others ho
      exact Reading.map_error (hs.looks others ho) f

/-- A reading behind another one, which found a phrase. -/
theorem andThen {next : α → Reading β} (h : Foreseen run language input)
    (sound : ∀ ⦃a rest⦄, run input = .ok (a, rest) →
      ∃ used, input = used ++ rest ∧ language (used.map Span.token) a)
    (hb : ∀ ts, Begins language ts → Begins target ts)
    (hn : ∀ ts a rest, run input = .ok (a, rest) → language ts a →
      Foreseen (next a) (fun us b => target (ts ++ us) b) rest) :
    Foreseen (run.andThen next) target input := by
  rcases h with ⟨offset, deep⟩ | ⟨used, after, verdict, rfl, hs⟩
  · exact .inl ⟨offset, Reading.andThen_error deep next⟩
  · cases verdict with
    | wants what =>
      refine .inr ⟨used, after, .wants what, rfl, ?_, fun _ _ => hb _ (hs.begins what rfl)⟩
      intro others ho
      exact Reading.andThen_error (hs.looks others ho) next
    | gives a =>
      have ran : run (used ++ after) = .ok (a, after) := hs.looks after rfl
      obtain ⟨us, hu, ha⟩ := sound ran
      obtain rfl := List.append_cancel_right hu
      rcases hn _ a after ran ha with ⟨offset, deep⟩ | ⟨more, last, verdict, rfl, hm⟩
      · exact .inl ⟨offset, (Reading.andThen_ok ran next).trans deep⟩
      · refine .inr ⟨used ++ more, last, verdict, (List.append_assoc ..).symm, ?_, ?_⟩
        · intro others ho
          rw [List.append_assoc,
            Reading.andThen_ok (hs.looks _ (head?_append_congr ho more)) next]
          exact hm.looks others ho
        · intro what hw
          rw [List.map_append]
          exact (hm.begins what hw).behind _

end Foreseen

namespace Parser

variable {p : SpanParser α} {language : List Token → α → Prop}

def listBehind (p : SpanParser α) (delimiter : Span → Option Delimiter) (what : Expectation)
    (a : α) : Reading (List α)
  | [] => .error (what.unmet [])
  | symbol :: rest =>
    match delimiter symbol with
    | none => .error (what.unmet (symbol :: rest))
    | some .close => .ok ([a], rest)
    | some .separator => Reading.map (p.list delimiter what.unmet) (a :: ·) rest

theorem list_eq (delimiter : Span → Option Delimiter) (what : Expectation) :
    p.list delimiter what.unmet = Reading.andThen p.run (p.listBehind delimiter what) := by
  funext input
  cases hr : p.run input with
  | error e => rw [list_fails hr, Reading.andThen_error hr]
  | ok found =>
    obtain ⟨a, rest⟩ := found
    rw [Reading.andThen_ok hr]
    cases rest with
    | nil => rw [list_ends hr, listBehind]
    | cons symbol rest =>
      rw [listBehind]
      cases hd : delimiter symbol with
      | none => rw [list_unclosed hr hd]
      | some kind =>
        cases kind with
        | close => rw [list_close hr hd]
        | separator =>
          rw [list_step hr hd]
          rfl

/-- The recursion is on the input, which gets shorter with each item. -/
theorem list_foreseen {delimiter : Span → Option Delimiter} {close : Token}
    (what : Expectation) (hp : ∀ input, Foreseen p.run language input) (sound : p.Sound language)
    (hd : Delimits delimiter close) (hc : close.Writable) (input : List Span) :
    Foreseen (p.list delimiter what.unmet) (Listed language close) input := by
  have closing : ∀ token ∈ [close], token.Writable := List.forall_mem_singleton.mpr hc
  rw [list_eq]
  refine (hp input).andThen (@sound input) ?_ ?_
  · intro ts hb
    exact hb.closed closing fun us a ha => ⟨[a], .last ha⟩
  · intro ts a rest hr ha
    have shorter := p.consumes hr
    have unclosed : Begins (fun us b => Listed language close (ts ++ us) b) [] :=
      .of_more closing (.last ha)
    cases rest with
    | nil => exact .wants_end rfl unclosed
    | cons symbol rest =>
      cases hs : delimiter symbol with
      | none =>
        refine .wants_other what ?_ unclosed
        intro tail
        rw [listBehind, hs]
      | some kind =>
        cases kind with
        | close =>
          refine .takes (a := [a]) ?_
          intro tail
          rw [listBehind, hs]
        | separator =>
          have comma := (hd.separator_iff symbol).mp hs
          have later := list_foreseen what hp sound hd hc rest
          have more : Foreseen (Reading.map (p.list delimiter what.unmet) (a :: ·))
              (fun us b => Listed language close (ts ++ .comma :: us) b) rest :=
            later.map _ fun us hb => hb.imp fun vs as hl => ⟨a :: as, .more ha hl⟩
          refine more.cons ?_ ?_
          · intro tail
            rw [listBehind, hs]
          · rw [comma]
            exact fun _ hb => hb
termination_by input.length
decreasing_by exact Nat.lt_of_succ_lt shorter

/-- The end of a repetition is seen by the next token at most. -/
inductive EndSeen (done : List Span → Option (Except ScriptError (List Span))) :
    List Span → Prop where
  | goesOn {input} (h : ∀ others, others.head? = input.head? → done others = none) :
      EndSeen done input
  | wants {input} (what : Expectation)
      (h : ∀ others, others.head? = input.head? → done others = some (.error (what.unmet others))) :
      EndSeen done input
  | ends (used) {rest} (h : ∀ others, others.head? = rest.head? →
      done (used ++ others) = some (.ok others)) : EndSeen done (used ++ rest)

variable {done : List Span → Option (Except ScriptError (List Span))}

theorem many_eq {input : List Span} (hd : done input = none) :
    p.many done input =
      Reading.andThen p.run (fun a => Reading.map (p.many done) (a :: ·)) input := by
  cases hr : p.run input with
  | error e => rw [many_fails hd hr, Reading.andThen_error hr]
  | ok found =>
    obtain ⟨a, rest⟩ := found
    rw [many_step hd hr, Reading.andThen_ok hr]
    rfl

theorem many_foreseen (hp : ∀ input, Foreseen p.run language input) (sound : p.Sound language)
    (hd : ∀ input, EndSeen done input) (input : List Span) :
    Foreseen (p.many done) (Sequence language) input := by
  cases hd input with
  | goesOn seen =>
    refine Foreseen.congr ?_ fun others ho => many_eq (seen others ho)
    refine (hp input).andThen (@sound input) ?_ ?_
    · intro ts hb
      exact hb.imp fun us a ha => ⟨[a], by simpa using Sequence.cons ha .nil⟩
    · intro ts a rest hr ha
      have shorter := p.consumes hr
      have later := many_foreseen hp sound hd rest
      exact later.map _ fun us hb => hb.imp fun vs as hs => ⟨a :: as, .cons ha hs⟩
  | wants what seen =>
    refine .inr ⟨[], input, .wants what, rfl, ?_, fun _ _ => .of_phrase .nil⟩
    intro others ho
    exact many_done (seen others ho)
  | @ends used rest seen =>
    refine .inr ⟨used, rest, .gives [], rfl, ?_, nofun⟩
    intro others ho
    exact many_done (seen others ho)
termination_by input.length

end Parser

end SieveRules
