import Mathlib.Data.List.Basic
import Mathlib.Data.List.TakeWhile
import Mathlib.Tactic.Common
import Flock.Text.Blank

/-!
# Texts cut at blanks and at line feeds

What trimming a text and cutting it into words or lines come to is said without the functions
that do it, by the ways in which such texts are put together: `Trimmed`, `Words` and `Lines`.
Each text is put together in one way only, and the functions find it (`trim_eq_iff`,
`words_eq_iff`, `lines_eq_iff`).
-/

namespace Flock.Text

/-- A text of blanks, which may be empty. -/
def AllBlank (text : List Char) : Prop := ∀ c ∈ text, isBlank c

/-- A text without blanks that is not empty. -/
structure IsWord (text : List Char) : Prop where
  ne_nil : text ≠ []
  not_blank : ∀ c ∈ text, isBlank c = false

/-- A text has blanks around a core that neither begins nor ends with one. -/
structure Trimmed (text core : List Char) : Prop where
  around : ∃ before after, text = before ++ core ++ after ∧ AllBlank before ∧ AllBlank after
  head : ∀ c ∈ core.head?, isBlank c = false
  last : ∀ c ∈ core.getLast?, isBlank c = false

/-- A text is made of words, in this order, and of blanks before, between and after them. -/
inductive Words : List Char → List (List Char) → Prop where
  | none {text : List Char} (h : AllBlank text) : Words text []
  | last {before word : List Char} (hbefore : AllBlank before) (hword : IsWord word) :
      Words (before ++ word) [word]
  | next {before word rest : List Char} {c : Char} {words : List (List Char)}
      (hbefore : AllBlank before) (hword : IsWord word) (hc : isBlank c) (h : Words rest words) :
      Words (before ++ (word ++ c :: rest)) (word :: words)

/-- A text is made of lines, in this order. A line ends with a line feed, or with a carriage
return and a line feed. The last one may lack its end if it is not empty, and is then the whole
rest of the text, also if this ends with a carriage return. -/
inductive Lines : List Char → List (List Char) → Prop where
  | none : Lines [] []
  | unended {line : List Char} (hne : line ≠ []) (hline : '\n' ∉ line) : Lines line [line]
  | fed {line rest : List Char} {lines : List (List Char)} (hline : '\n' ∉ line)
      (hlast : line.getLast? ≠ some '\r') (h : Lines rest lines) :
      Lines (line ++ '\n' :: rest) (line :: lines)
  | returned {line rest : List Char} {lines : List (List Char)} (hline : '\n' ∉ line)
      (h : Lines rest lines) : Lines (line ++ '\r' :: '\n' :: rest) (line :: lines)

variable {text core rest word line before : List Char} {c : Char}

/-- A text is cut where a property of its first characters ends. -/
theorem exists_split (p : Char → Bool) (text : List Char) :
    ∃ front back, text = front ++ back ∧ (∀ c ∈ front, p c) ∧ ∀ c ∈ back.head?, p c = false := by
  refine ⟨text.takeWhile p, text.dropWhile p, List.takeWhile_append_dropWhile.symm,
    fun c hc => List.mem_takeWhile_imp hc, fun c hc => ?_⟩
  have hhead := List.head?_dropWhile_not p text
  rwa [hc] at hhead

theorem dropWhile_append {p : Char → Bool} (hbefore : ∀ c ∈ before, p c)
    (hhead : ∀ c ∈ rest.head?, p c = false) : (before ++ rest).dropWhile p = rest := by
  rw [List.dropWhile_append_of_pos hbefore]
  cases rest with
  | nil => rfl
  | cons c rest => exact List.dropWhile_cons_of_neg (by simp [hhead c rfl])

/-! Trimming. -/

theorem Trimmed.trim_eq (h : Trimmed text core) : trim text = core := by
  obtain ⟨⟨before, after, rfl, hbefore, hafter⟩, hhead, hlast⟩ := h
  by_cases hcore : core = []
  · subst hcore
    have hblank : ∀ c ∈ before ++ [] ++ after, isBlank c := by
      rw [List.append_nil]
      exact List.forall_mem_append.mpr ⟨hbefore, hafter⟩
    rw [trim, List.dropWhile_eq_nil_iff.mpr hblank]
    rfl
  · have hfront : ∀ c ∈ (core ++ after).head?, isBlank c = false := by
      rwa [List.head?_append_of_ne_nil core hcore]
    have hback : ∀ c ∈ core.reverse.head?, isBlank c = false := by
      rwa [List.head?_reverse]
    rw [trim, List.append_assoc, dropWhile_append hbefore hfront, List.reverse_append,
      dropWhile_append (by simpa [AllBlank] using hafter) hback, List.reverse_reverse]

theorem exists_trimmed (text : List Char) : ∃ core, Trimmed text core := by
  obtain ⟨before, rest, rfl, hbefore, hhead⟩ := exists_split isBlank text
  obtain ⟨after, core, hrest, hafter, hlast⟩ := exists_split isBlank rest.reverse
  obtain rfl : rest = core.reverse ++ after.reverse := by
    rw [← List.reverse_append, ← hrest, List.reverse_reverse]
  refine ⟨core.reverse, ⟨before, after.reverse, (List.append_assoc ..).symm, hbefore,
    by simpa [AllBlank] using hafter⟩, ?_, ?_⟩
  · exact fun c hc => hhead c (List.mem_head?_append_of_mem_head? hc)
  · rwa [List.getLast?_reverse]

theorem trim_eq_iff : trim text = core ↔ Trimmed text core := by
  refine ⟨?_, Trimmed.trim_eq⟩
  rintro rfl
  obtain ⟨core, h⟩ := exists_trimmed text
  rwa [h.trim_eq]

/-- Blanks at the end make no difference. -/
theorem trim_append_blank (text : List Char) (hc : isBlank c) : trim (text ++ [c]) = trim text := by
  have htrimmed : Trimmed text (trim text) := trim_eq_iff.mp rfl
  obtain ⟨before, after, htext, hbefore, hafter⟩ := htrimmed.around
  refine trim_eq_iff.mpr ⟨⟨before, after ++ [c], ?_, hbefore, ?_⟩, htrimmed.head, htrimmed.last⟩
  · rw [← List.append_assoc, ← htext]
  · simpa [AllBlank, or_imp, forall_and, hc] using hafter

theorem dropReturn_of_ne (h : line.getLast? ≠ some '\r') : dropReturn line = line := if_neg h

theorem dropReturn_append_return (line : List Char) : dropReturn (line ++ ['\r']) = line := by
  simp [dropReturn]

/-- A carriage return is a blank. -/
theorem trim_dropReturn (line : List Char) : trim (dropReturn line) = trim line := by
  by_cases h : line.getLast? = some '\r'
  · obtain ⟨front, rfl⟩ := List.getLast?_eq_some_iff.mp h
    rw [dropReturn_append_return, trim_append_blank front rfl]
  · rw [dropReturn_of_ne h]

/-! Pieces. -/

theorem pieces_of_forall {p : Char → Bool} (h : ∀ c ∈ text, p c = false) :
    pieces p text = [text] := by
  induction text with
  | nil => rfl
  | cons c text ih =>
      obtain ⟨hc, htext⟩ := List.forall_mem_cons.mp h
      simp [pieces, ih htext, hc]

/-- There is one piece more than there are separators. -/
theorem length_pieces (p : Char → Bool) (text : List Char) :
    (pieces p text).length = text.countP p + 1 := by
  induction text with
  | nil => rfl
  | cons c text ih =>
      obtain ⟨first, others, h⟩ := List.exists_cons_of_ne_nil (pieces_ne_nil p text)
      rw [h] at ih
      by_cases hc : p c <;> simpa [pieces, h, hc] using ih

/-! Words. -/

theorem words_append_blank (a b : List Char) (hc : isBlank c) :
    words (a ++ c :: b) = words a ++ words b := by
  rw [words, pieces_append_separator isBlank a b c hc, List.filter_append, words, words]

theorem words_cons_blank (text : List Char) (hc : isBlank c) : words (c :: text) = words text :=
  words_append_blank [] text hc

theorem words_append_of_allBlank (hbefore : AllBlank before) (text : List Char) :
    words (before ++ text) = words text := by
  induction before with
  | nil => rfl
  | cons c before ih =>
      obtain ⟨hc, hbefore⟩ := List.forall_mem_cons.mp hbefore
      rw [List.cons_append, words_cons_blank _ hc, ih hbefore]

theorem IsWord.words_eq (h : IsWord word) : words word = [word] := by
  rw [words, pieces_of_forall h.not_blank]
  simp [h.ne_nil]

theorem Words.words_eq {found : List (List Char)} (h : Words text found) : words text = found := by
  induction h with
  | @none text h =>
      rw [← List.append_nil text, words_append_of_allBlank h]
      rfl
  | last hbefore hword => rw [words_append_of_allBlank hbefore, hword.words_eq]
  | next hbefore hword hc _ ih =>
      rw [words_append_of_allBlank hbefore, words_append_blank _ _ hc, hword.words_eq, ih]
      rfl

/-- A text that does not begin with a blank begins with its first word. -/
theorem Words.head?_eq {found : List (List Char)} (h : Words text (word :: found))
    (hhead : ∀ c ∈ text.head?, isBlank c = false) : word.head? = text.head? := by
  have hfront {before : List Char} (hbefore : AllBlank before) (rest : List Char)
      (hword : IsWord word) (hhead : ∀ c ∈ (before ++ (word ++ rest)).head?, isBlank c = false) :
      word.head? = (before ++ (word ++ rest)).head? := by
    cases before with
    | nil => rw [List.nil_append, List.head?_append_of_ne_nil word hword.ne_nil]
    | cons b before =>
        have hb := hbefore b List.mem_cons_self
        rw [hhead b rfl] at hb
        exact absurd hb (by simp)
  cases h with
  | last hbefore hword => simpa using hfront hbefore [] hword (by simpa using hhead)
  | next hbefore hword _ _ => exact hfront hbefore _ hword hhead

theorem exists_words (text : List Char) : ∃ found, Words text found := by
  induction hlength : text.length using Nat.strongRecOn generalizing text with
  | ind n ih =>
      obtain ⟨before, rest, rfl, hbefore, hhead⟩ := exists_split isBlank text
      obtain ⟨word, back, rfl, hword, hback⟩ := exists_split (fun c => !isBlank c) rest
      by_cases hne : word = []
      · -- nothing but blanks, as the rest begins with none
        subst hne
        cases back with
        | nil => exact ⟨[], .none (List.forall_mem_append.mpr ⟨hbefore, by simp⟩)⟩
        | cons c back => exact absurd (hback c rfl) (by simp [hhead c rfl])
      · have hword : IsWord word := ⟨hne, by simpa using hword⟩
        cases back with
        | nil => exact ⟨[word], by simpa using Words.last hbefore hword⟩
        | cons c back =>
            obtain ⟨found, hfound⟩ := ih back.length (by simp at hlength; omega) back rfl
            exact ⟨word :: found, .next hbefore hword (by simpa using hback c rfl) hfound⟩

theorem words_eq_iff {found : List (List Char)} : words text = found ↔ Words text found := by
  refine ⟨?_, Words.words_eq⟩
  rintro rfl
  obtain ⟨found, h⟩ := exists_words text
  rwa [h.words_eq]

/-! Lines. -/

theorem pieces_of_not_mem (hline : '\n' ∉ line) : pieces (· = '\n') line = [line] :=
  pieces_of_forall fun _ hc => decide_eq_false fun heq => hline (heq ▸ hc)

theorem lines_of_not_mem (hne : line ≠ []) (hline : '\n' ∉ line) : lines line = [line] := by
  simp [lines, pieces_of_not_mem hline, hne]

theorem lines_append_feed (hline : '\n' ∉ line) (rest : List Char) :
    lines (line ++ '\n' :: rest) = dropReturn line :: lines rest := by
  obtain ⟨first, others, h⟩ := List.exists_cons_of_ne_nil (pieces_ne_nil (· = '\n') rest)
  have hall : pieces (· = '\n') (line ++ '\n' :: rest) = line :: first :: others := by
    rw [pieces_append_separator _ _ _ _ (by decide), pieces_of_not_mem hline, h]
    rfl
  simp [lines, hall, h]

theorem Lines.lines_eq {found : List (List Char)} (h : Lines text found) : lines text = found := by
  induction h with
  | none => rfl
  | unended hne hline => exact lines_of_not_mem hne hline
  | fed hline hlast _ ih => rw [lines_append_feed hline, dropReturn_of_ne hlast, ih]
  | @returned line rest _ hline _ ih =>
      have hreturn : '\n' ∉ line ++ ['\r'] := by simpa using hline
      rw [List.append_cons, lines_append_feed hreturn, dropReturn_append_return, ih]

theorem exists_lines (text : List Char) : ∃ found, Lines text found := by
  induction hlength : text.length using Nat.strongRecOn generalizing text with
  | ind n ih =>
      by_cases hfeed : '\n' ∈ text
      · obtain ⟨line, rest, rfl, hline⟩ := List.eq_append_cons_of_mem hfeed
        obtain ⟨found, hfound⟩ := ih rest.length (by simp at hlength; omega) rest rfl
        by_cases hlast : line.getLast? = some '\r'
        · obtain ⟨front, rfl⟩ := List.getLast?_eq_some_iff.mp hlast
          refine ⟨front :: found, ?_⟩
          simpa using Lines.returned (by simpa using hline) hfound
        · exact ⟨line :: found, .fed hline hlast hfound⟩
      · by_cases hne : text = []
        · exact ⟨[], hne ▸ .none⟩
        · exact ⟨[text], .unended hne hfeed⟩

theorem lines_eq_iff {found : List (List Char)} : lines text = found ↔ Lines text found := by
  refine ⟨?_, Lines.lines_eq⟩
  rintro rfl
  obtain ⟨found, h⟩ := exists_lines text
  rwa [h.lines_eq]

end Flock.Text
