import Mathlib.Data.List.Forall2
import Mathlib.Data.List.ReduceOption
import Flock.AgentList
import Flock.Proofs.Text.Blank

/-!
# The grammar of agent lists

An agent list is read line by line, and no line has to do with another. A line is blank, or a
comment, or holds an agent (`AgentList.Holds`), or else there is a first check that it does not
pass (`AgentList.Offends`). So all lines of a list hold something, or there is a first one that
does not pass a check (`AgentList.all_hold_or_offends`), and what is read of the list is known in
either case (`AgentList.ofLines_of_holds`, `AgentList.ofLines_of_offends`). From this comes the
grammar of whole lists, and what is read of two lists one below the other
(`AgentList.parse_by_grammar`).

How a number is read is of no importance here, but for one thing: no number begins with the
sign that comments begin with (`AgentList.parse?_hash`).
-/

namespace Flock

/-- The same line with a number of lines put in front of it. -/
def BadLine.lowered (count : Nat) (bad : BadLine) : BadLine :=
  { bad with number := bad.number + count }

namespace AgentList

/-- What a line holds: nothing, if it is blank or a comment, or an agent without a label at the
two finite numbers on it. -/
inductive Holds (raw : List Char) : Option (Placement Float) → Prop where
  | blank (h : Text.Trimmed raw []) : Holds raw none
  | comment {rest : List Char} (h : Text.Trimmed raw ('#' :: rest)) : Holds raw none
  | agent {line first second : List Char} {x y : Float} (h : Text.Trimmed raw line)
      (hfields : Text.Words line [first, second]) (hx : Decimal.parse? first = some x)
      (hy : Decimal.parse? second = some y) (hfinite : x.isFinite ∧ y.isFinite) :
      Holds raw (some ⟨x, y, ""⟩)

/-- The first of the checks that a line does not pass: the number of its fields, the first field,
the second one, and then whether the numbers are finite. -/
inductive Fails (line : List Char) : LineFault → Prop where
  | tooFewFields {fields : List (List Char)} (h : Text.Words line fields)
      (hcount : fields.length < 2) : Fails line .tooFewFields
  | tooManyFields {fields : List (List Char)} (h : Text.Words line fields)
      (hcount : 2 < fields.length) : Fails line .tooManyFields
  | badX {first second : List Char} (h : Text.Words line [first, second])
      (hx : Decimal.parse? first = none) : Fails line .badX
  | badY {first second : List Char} {x : Float} (h : Text.Words line [first, second])
      (hx : Decimal.parse? first = some x) (hy : Decimal.parse? second = none) : Fails line .badY
  | notFinite {first second : List Char} {x y : Float} (h : Text.Words line [first, second])
      (hx : Decimal.parse? first = some x) (hy : Decimal.parse? second = some y)
      (hfinite : ¬ (x.isFinite ∧ y.isFinite)) : Fails line .notFinite

/-- A line that is neither blank nor a comment does not pass a check. -/
structure Offends (raw content : List Char) (fault : LineFault) : Prop where
  trimmed : Text.Trimmed raw content
  ne_nil : content ≠ []
  not_comment : content.head? ≠ some '#'
  fails : Fails content fault

variable {raw line content : List Char} {fault : LineFault} {held : Option (Placement Float)}
  {number : Nat} {lines before : List (List Char)}
  {holdings : List (Option (Placement Float))}

/-! One line. -/

/-- No number begins with the sign of a comment. -/
theorem parse?_hash (rest : List Char) : Decimal.parse? ('#' :: rest) = none := by
  have hword (name : String) (hname : name.toList.head? ≠ some '#') :
      String.ofList (('#' :: rest).map Char.toLower) ≠ name := by
    rintro rfl
    exact hname (by rw [String.toList_ofList]; rfl)
  have hnamed : Decimal.named? ('#' :: rest) = none := by
    simp only [Decimal.named?, hword "inf" (by decide), hword "infinity" (by decide),
      hword "nan" (by decide), or_self, if_false]
  have hmagnitude : Decimal.magnitude? ('#' :: rest) = none := by
    simp [Decimal.magnitude?, Decimal.isDigit]
  simp [Decimal.parse?, hnamed, hmagnitude]

theorem isSkipped_eq_false_iff :
    isSkipped line = false ↔ line ≠ [] ∧ line.head? ≠ some '#' := by
  simp [isSkipped]

theorem placement_of_words {first second : List Char} {x y : Float}
    (h : Text.Words line [first, second]) (hx : Decimal.parse? first = some x)
    (hy : Decimal.parse? second = some y) (hfinite : x.isFinite ∧ y.isFinite) :
    placement line = .ok ⟨x, y, ""⟩ := by
  rw [placement, h.words_eq]
  simp [coordinate, hx, hy, hfinite, bind, Except.bind]

theorem Fails.placement_eq (h : Fails line fault) : placement line = .error fault := by
  cases h with
  | @tooFewFields fields h hcount =>
      rw [placement, h.words_eq]
      match fields, hcount with
      | [], _ => rfl
      | [_], _ => rfl
  | @tooManyFields fields h hcount =>
      rw [placement, h.words_eq]
      match fields, hcount with
      | _ :: _ :: _ :: _, _ => rfl
  | badX h hx =>
      rw [placement, h.words_eq]
      simp [coordinate, hx, bind, Except.bind]
  | badY h hx hy =>
      rw [placement, h.words_eq]
      simp [coordinate, hx, hy, bind, Except.bind]
  | notFinite h hx hy hfinite =>
      rw [placement, h.words_eq]
      simp [coordinate, hx, hy, hfinite, bind, Except.bind]

/-- A line with two finite numbers begins with a character of the first one. -/
theorem isSkipped_of_words {first second : List Char} {x : Float}
    (h : Text.Words line [first, second]) (hx : Decimal.parse? first = some x) :
    isSkipped line = false := by
  rw [isSkipped_eq_false_iff]
  cases line with
  | nil => exact absurd h.words_eq (by simp [Text.words, Text.pieces])
  | cons c line =>
      refine ⟨List.cons_ne_nil c line, ?_⟩
      rw [List.head?_cons, ne_eq, Option.some.injEq]
      rintro rfl
      have hfirst : first.head? = some '#' := h.head?_eq fun c hc => by
        obtain rfl := Option.some.inj hc
        decide
      obtain ⟨tail, rfl⟩ := List.head?_eq_some_iff.mp hfirst
      rw [parse?_hash] at hx
      exact absurd hx (by simp)

/-- A line holds something or does not pass a check. -/
theorem holds_or_offends (raw : List Char) :
    (∃ held, Holds raw held) ∨ ∃ content fault, Offends raw content fault := by
  obtain ⟨line, htrimmed⟩ := Text.exists_trimmed raw
  by_cases hskipped : line = [] ∨ line.head? = some '#'
  · left
    rcases hskipped with rfl | hhash
    · exact ⟨none, .blank htrimmed⟩
    · obtain ⟨rest, rfl⟩ := List.head?_eq_some_iff.mp hhash
      exact ⟨none, .comment htrimmed⟩
  · rw [not_or] at hskipped
    have hoffends {fault : LineFault} (h : Fails line fault) :
        ∃ content fault, Offends raw content fault :=
      ⟨line, fault, htrimmed, hskipped.1, hskipped.2, h⟩
    obtain ⟨fields, h⟩ := Text.exists_words line
    match fields, h with
    | [], h => exact .inr (hoffends (.tooFewFields h (by decide)))
    | [_], h => exact .inr (hoffends (.tooFewFields h (by simp)))
    | _ :: _ :: _ :: _, h => exact .inr (hoffends (.tooManyFields h (by simp)))
    | [first, second], h =>
        cases hx : Decimal.parse? first with
        | none => exact .inr (hoffends (.badX h hx))
        | some x =>
            cases hy : Decimal.parse? second with
            | none => exact .inr (hoffends (.badY h hx hy))
            | some y =>
                by_cases hfinite : x.isFinite ∧ y.isFinite
                · exact .inl ⟨_, .agent htrimmed h hx hy hfinite⟩
                · exact .inr (hoffends (.notFinite h hx hy hfinite))

/-! The lines of a list. -/

/-- What a line holds comes before what the lines after it hold. -/
theorem ofLines_cons_of_holds (h : Holds raw held) (number : Nat) (rest : List (List Char)) :
    ofLines number (raw :: rest) = (ofLines (number + 1) rest).map (held.toList ++ ·) := by
  cases h with
  | blank h =>
      rw [ofLines, h.trim_eq]
      cases ofLines (number + 1) rest <;> rfl
  | comment h =>
      rw [ofLines, h.trim_eq]
      cases ofLines (number + 1) rest <;> rfl
  | agent h hfields hx hy hfinite =>
      have hplacement := placement_of_words hfields hx hy hfinite
      rw [ofLines, h.trim_eq]
      simp only [isSkipped_of_words hfields hx, hplacement]
      cases ofLines (number + 1) rest <;> rfl

theorem ofLines_cons_of_offends (h : Offends raw content fault) (number : Nat)
    (rest : List (List Char)) :
    ofLines number (raw :: rest) = .error ⟨number, String.ofList content, fault⟩ := by
  have hskipped := isSkipped_eq_false_iff.mpr ⟨h.ne_nil, h.not_comment⟩
  rw [ofLines, h.trimmed.trim_eq]
  simp [hskipped, h.fails.placement_eq]

/-- Lines that hold something hold what is read of them. -/
theorem ofLines_of_holds (h : List.Forall₂ Holds lines holdings) (number : Nat) :
    ofLines number lines = .ok holdings.reduceOption := by
  induction h generalizing number with
  | nil => rfl
  | @cons raw held lines holdings hraw _ ih =>
      rw [ofLines_cons_of_holds hraw, ih]
      cases held <;> rfl

/-- The first line that does not pass a check ends the reading. -/
theorem ofLines_of_offends (hbefore : List.Forall₂ Holds before holdings)
    (h : Offends raw content fault) (number : Nat) (after : List (List Char)) :
    ofLines number (before ++ raw :: after) =
      .error ⟨number + before.length, String.ofList content, fault⟩ := by
  induction hbefore generalizing number with
  | nil => exact ofLines_cons_of_offends h number after
  | @cons other held before holdings hother _ ih =>
      rw [List.cons_append, ofLines_cons_of_holds hother, ih, List.length_cons, Except.map,
        Nat.add_right_comm, Nat.add_assoc]

/-- All lines hold something, or there is a first one that does not pass a check. -/
theorem all_hold_or_offends (lines : List (List Char)) :
    (∃ holdings, List.Forall₂ Holds lines holdings) ∨
      ∃ before holdings raw after content fault, lines = before ++ raw :: after ∧
        List.Forall₂ Holds before holdings ∧ Offends raw content fault := by
  induction lines with
  | nil => exact .inl ⟨[], .nil⟩
  | cons raw lines ih =>
      rcases holds_or_offends raw with ⟨held, hraw⟩ | ⟨content, fault, hraw⟩
      · rcases ih with ⟨holdings, hlines⟩ |
          ⟨before, holdings, other, after, content, fault, rfl, hbefore, hother⟩
        · exact .inl ⟨held :: holdings, .cons hraw hlines⟩
        · exact .inr ⟨raw :: before, held :: holdings, other, after, content, fault, rfl,
            .cons hraw hbefore, hother⟩
      · exact .inr ⟨[], [], raw, lines, content, fault, rfl, .nil, hraw⟩

theorem exists_holds_iff :
    (∃ holdings, List.Forall₂ Holds lines holdings) ↔ ∀ raw ∈ lines, ∃ held, Holds raw held := by
  induction lines with
  | nil => simp
  | cons raw lines ih =>
      rw [List.forall_mem_cons, ← ih]
      constructor
      · rintro ⟨_, hraw | ⟨hraw, hlines⟩⟩
        exact ⟨⟨_, hraw⟩, _, hlines⟩
      · rintro ⟨⟨held, hraw⟩, holdings, hlines⟩
        exact ⟨held :: holdings, .cons hraw hlines⟩

theorem ofLines_eq_ok_iff {agents : List (Placement Float)} :
    ofLines number lines = .ok agents ↔
      ∃ holdings, List.Forall₂ Holds lines holdings ∧ agents = holdings.reduceOption := by
  constructor
  · intro h
    rcases all_hold_or_offends lines with ⟨holdings, hlines⟩ |
      ⟨before, holdings, raw, after, content, fault, rfl, hbefore, hraw⟩
    · rw [ofLines_of_holds hlines] at h
      exact ⟨holdings, hlines, (Except.ok.inj h).symm⟩
    · rw [ofLines_of_offends hbefore hraw] at h
      exact absurd h (by simp)
  · rintro ⟨holdings, hlines, rfl⟩
    exact ofLines_of_holds hlines number

theorem ofLines_eq_error_iff {bad : BadLine} :
    ofLines number lines = .error bad ↔
      ∃ before raw after, lines = before ++ raw :: after ∧
        (∀ other ∈ before, ∃ held, Holds other held) ∧
        Offends raw bad.content.toList bad.fault ∧ bad.number = number + before.length := by
  constructor
  · intro h
    rcases all_hold_or_offends lines with ⟨holdings, hlines⟩ |
      ⟨before, holdings, raw, after, content, fault, rfl, hbefore, hraw⟩
    · rw [ofLines_of_holds hlines] at h
      exact absurd h (by simp)
    · rw [ofLines_of_offends hbefore hraw] at h
      obtain rfl := Except.error.inj h
      exact ⟨before, raw, after, rfl, exists_holds_iff.mp ⟨holdings, hbefore⟩,
        by rwa [String.toList_ofList], rfl⟩
  · rintro ⟨before, raw, after, rfl, hbefore, hraw, hnumber⟩
    obtain ⟨holdings, hbefore⟩ := exists_holds_iff.mpr hbefore
    rw [ofLines_of_offends hbefore hraw, String.ofList_toList, ← hnumber]

/-! One list below another. -/

/-- Lines put in front change no more than the number of a bad line. -/
theorem ofLines_add (number count : Nat) (lines : List (List Char)) :
    ofLines (number + count) lines = (ofLines number lines).mapError (·.lowered count) := by
  rcases all_hold_or_offends lines with ⟨holdings, hlines⟩ |
    ⟨before, holdings, raw, after, content, fault, rfl, hbefore, hraw⟩
  · rw [ofLines_of_holds hlines, ofLines_of_holds hlines]
    rfl
  · rw [ofLines_of_offends hbefore hraw, ofLines_of_offends hbefore hraw, Nat.add_right_comm]
    rfl

/-- The lines of two lists are read one after the other. -/
theorem ofLines_append (number : Nat) (lines below : List (List Char)) :
    ofLines number (lines ++ below) =
      match ofLines number lines with
      | .error bad => .error bad
      | .ok above => (ofLines (number + lines.length) below).map (above ++ ·) := by
  induction lines generalizing number with
  | nil =>
      rw [List.nil_append, ofLines]
      cases ofLines number below <;> rfl
  | cons raw lines ih =>
      rcases holds_or_offends raw with ⟨held, hraw⟩ | ⟨content, fault, hraw⟩
      · rw [List.cons_append, ofLines_cons_of_holds hraw, ofLines_cons_of_holds hraw, ih,
          List.length_cons, Nat.add_assoc, Nat.add_comm 1]
        cases ofLines (number + 1) lines with
        | error bad => rfl
        | ok above =>
            simp only [Except.map]
            cases ofLines (number + (lines.length + 1)) below <;> simp
      · rw [List.cons_append, ofLines_cons_of_offends hraw, ofLines_cons_of_offends hraw]

/-- A carriage return at the end of a line makes no difference. -/
theorem ofLines_map_dropReturn (number : Nat) (lines : List (List Char)) :
    ofLines number (lines.map Text.dropReturn) = ofLines number lines := by
  induction lines generalizing number with
  | nil => rfl
  | cons raw lines ih => simp only [List.map_cons, ofLines, Text.trim_dropReturn, ih]

/-- The lines of a text are read as the pieces between its line feeds are: a carriage return at
the end of a piece is a blank, and an empty piece at the end is a blank line. -/
theorem ofLines_lines (number : Nat) (text : List Char) :
    ofLines number (Text.lines text) = ofLines number (Text.pieces (· = '\n') text) := by
  obtain ⟨front, last, hpieces⟩ : ∃ front last, Text.pieces (· = '\n') text = front ++ [last] :=
    ⟨_, _, (List.dropLast_append_getLast (Text.pieces_ne_nil _ text)).symm⟩
  have hlast (number : Nat) :
      ofLines number (if last.isEmpty then [] else [last]) = ofLines number [last] := by
    cases last <;> rfl
  rw [Text.lines, hpieces, List.dropLast_concat, List.getLastD_concat, ofLines_append,
    ofLines_append, ofLines_map_dropReturn, hlast, List.length_map]

theorem parse_eq (text : String) :
    parse text = ofLines 1 (Text.pieces (· = '\n') text.toList) := ofLines_lines 1 text.toList

theorem parse_append_feed (text below : String) :
    parse (text ++ "\n" ++ below) =
      match parse text, parse below with
      | .error bad, _ => .error bad
      | .ok _, .error bad => .error (bad.lowered (text.toList.count '\n' + 1))
      | .ok above, .ok others => .ok (above ++ others) := by
  have hpieces : Text.pieces (· = '\n') (text ++ "\n" ++ below).toList =
      Text.pieces (· = '\n') text.toList ++ Text.pieces (· = '\n') below.toList := by
    rw [← Text.pieces_append_separator _ _ _ '\n' (by decide)]
    simp
  have hlength : (Text.pieces (· = '\n') text.toList).length = text.toList.count '\n' + 1 :=
    Text.length_pieces _ _
  rw [parse_eq, parse_eq, parse_eq, hpieces, ofLines_append, hlength, ofLines_add]
  cases ofLines 1 (Text.pieces (· = '\n') text.toList) with
  | error bad => rfl
  | ok above => cases ofLines 1 (Text.pieces (· = '\n') below.toList) <;> rfl

/-- An agent list is read if and only if every line of it is blank, a comment, or holds two fields
that are read as finite numbers. What is read are the agents at these numbers, without labels,
line by line. Otherwise the first line that is none of these is refused, with its number among
all lines, what it holds without the blanks around it, and the first check that it does not pass.

So of two lists one below the other the agents of the first are read and then those of the
second; or the first is refused as it is by itself, or else the second, with a number that the
lines of the first are added to. -/
theorem parse_by_grammar (text : String) :
    let lines := Text.lines text.toList
    Text.Lines text.toList lines ∧
    ((∃ agents, parse text = .ok agents) ↔ ∀ raw ∈ lines, ∃ held, Holds raw held) ∧
    (∀ agents, parse text = .ok agents ↔
      ∃ holdings, List.Forall₂ Holds lines holdings ∧ agents = holdings.reduceOption) ∧
    (∀ bad, parse text = .error bad ↔
      ∃ before raw after, lines = before ++ raw :: after ∧
        (∀ other ∈ before, ∃ held, Holds other held) ∧
        Offends raw bad.content.toList bad.fault ∧ bad.number = 1 + before.length) ∧
    ∀ below : String, parse (text ++ "\n" ++ below) =
      match parse text, parse below with
      | .error bad, _ => .error bad
      | .ok _, .error bad => .error (bad.lowered (text.toList.count '\n' + 1))
      | .ok above, .ok others => .ok (above ++ others) := by
  intro lines
  have hread (agents : List (Placement Float)) : parse text = .ok agents ↔
      ∃ holdings, List.Forall₂ Holds lines holdings ∧ agents = holdings.reduceOption :=
    ofLines_eq_ok_iff
  refine ⟨Text.lines_eq_iff.mp rfl, ?_, hread, fun bad => ofLines_eq_error_iff,
    parse_append_feed text⟩
  rw [← exists_holds_iff]
  simp only [hread]
  constructor
  · rintro ⟨agents, holdings, hlines, -⟩
    exact ⟨holdings, hlines⟩
  · rintro ⟨holdings, hlines⟩
    exact ⟨_, holdings, hlines, rfl⟩

example : parse "# robots\r\n4 1\n\n\u3000 1.5\u00a0-4" = .ok [⟨4, 1, ""⟩, ⟨1.5, -4, ""⟩] := by
  decide +kernel

example : parse "# robots\r\n4 1\n\n 1 two\r\n3" = .error ⟨4, "1 two", .badY⟩ := by
  decide +kernel

end AgentList

end Flock
