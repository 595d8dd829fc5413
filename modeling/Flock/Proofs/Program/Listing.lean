import Flock.Proofs.Decimal.Text
import Flock.Proofs.Program.Traversal

/-!
# Listings determine programs

A listing is a row of lines, one for each piece of a program. How far a line is set in says nothing
that the order of the lines does not say, so a line is read from its first word on (`unindent`).
That word is the name of the piece, and the rest of the line is taken apart from the left, or from
the right where a label comes first: numbers have no blank, comma or parenthesis in them
(`Legible`). So labels may be what they like, other lines included, as long as they have no line
feed (`events_eq_of_listing_eq`).
-/

namespace Flock

/-- Texts are cut at the first place where a character stands. -/
theorem eq_of_append_cons {β : Type} {a : β} {front other rest rest' : List β} (h : a ∉ front)
    (h' : a ∉ other) (heq : front ++ a :: rest = other ++ a :: rest') :
    front = other ∧ rest = rest' := by
  induction front generalizing other with
  | nil =>
      cases other with
      | nil => exact ⟨rfl, (List.cons.inj heq).2⟩
      | cons b other => exact absurd ((List.cons.inj heq).1 ▸ List.mem_cons_self) h'
  | cons b front ih =>
      cases other with
      | nil => exact absurd ((List.cons.inj heq).1 ▸ List.mem_cons_self) h
      | cons c other =>
          obtain ⟨rfl, htail⟩ := List.cons.inj heq
          obtain ⟨rfl, rfl⟩ := ih (List.not_mem_of_not_mem_cons h)
            (List.not_mem_of_not_mem_cons h') htail
          exact ⟨rfl, rfl⟩

/-- Texts are cut at the last place where a character stands. -/
theorem eq_of_append_cons_last {β : Type} {a : β} {front other rest rest' : List β} (h : a ∉ rest)
    (h' : a ∉ rest') (heq : front ++ a :: rest = other ++ a :: rest') :
    front = other ∧ rest = rest' := by
  have hreverse := congrArg List.reverse heq
  simp only [List.reverse_append, List.reverse_cons, List.append_assoc, List.singleton_append]
    at hreverse
  obtain ⟨hrest, hfront⟩ := eq_of_append_cons (by simpa) (by simpa) hreverse
  exact ⟨List.reverse_injective hfront, List.reverse_injective hrest⟩

/-- Rows of texts that are ended by a character are cut at its places. -/
theorem eq_of_flatMap_append {β : Type} {a : β} {lines others : List (List β)}
    (h : ∀ line ∈ lines, a ∉ line) (h' : ∀ line ∈ others, a ∉ line)
    (heq : lines.flatMap (· ++ [a]) = others.flatMap (· ++ [a])) : lines = others := by
  induction lines generalizing others with
  | nil =>
      cases others with
      | nil => rfl
      | cons line others => simp at heq
  | cons line lines ih =>
      cases others with
      | nil => simp at heq
      | cons other others =>
          rw [List.flatMap_cons, List.flatMap_cons, List.append_assoc, List.append_assoc,
            List.singleton_append, List.singleton_append] at heq
          rw [List.forall_mem_cons] at h h'
          obtain ⟨rfl, hrest⟩ := eq_of_append_cons h.1 h'.1 heq
          rw [ih h.2 h'.2 hrest]

theorem eq_of_map_eq {β γ : Type} {f : β → γ} {l others : List β}
    (hf : ∀ a ∈ l, ∀ b ∈ others, f a = f b → a = b) (h : l.map f = others.map f) :
    l = others := by
  induction l generalizing others with
  | nil => exact (List.map_eq_nil_iff.mp h.symm).symm
  | cons a l ih =>
      cases others with
      | nil => simp at h
      | cons b others =>
          obtain ⟨hab, h⟩ := List.cons.inj h
          rw [hf a List.mem_cons_self b List.mem_cons_self hab,
            ih (fun a ha b hb => hf a (List.mem_cons_of_mem _ ha) b (List.mem_cons_of_mem _ hb)) h]

variable {α : Type}

def Action.label? : Action α → Option String
  | signal label | unsignal label | follow label _ _ => some label
  | _ => none

def Loop.label? : Loop → Option String
  | untilIn region => some region
  | _ => none

def Node.label? : Node α → Option String
  | action a => a.label?
  | block loop _ => loop.label?

namespace Piece

def label? : Piece α → Option String
  | action a => a.label?
  | start loop => loop.label?
  | finish => none

/-- The line of a piece, without the blanks before it. -/
def text (numeral : α → String) : Piece α → String
  | action a => a.text numeral
  | start loop => loop.text ++ " " ++ openBrace
  | finish => closeBrace

/-- The first word of the line. -/
def keyword : Piece α → String
  | action a => a.kind.name
  | start (.times _) => "repeat"
  | start .forever => "forever"
  | start (.untilIn _) => "until"
  | finish => closeBrace

theorem takeWhile_text (numeral : α → String) (piece : Piece α) :
    (piece.text numeral).toList.takeWhile (· ≠ ' ') = piece.keyword.toList := by
  cases piece with
  | action a =>
      cases a <;> simp [text, Action.text, keyword, Action.kind, ActionKind.name]
  | start loop => cases loop <;> simp [text, Loop.text, keyword]
  | finish => simp [text, keyword, closeBrace]

end Piece

namespace Script

/-- The pieces that the sequence is declared with. -/
def pieces : Script α → List (Piece α)
  | done => []
  | action _ a rest => .action a :: rest.pieces
  | block _ loop body rest => .start loop :: (body.pieces ++ .finish :: rest.pieces)

theorem map_event_pieces (s : Script α) : s.pieces.map Piece.event = s.events := by
  induction s with
  | done => rfl
  | action node a rest ih => simp [pieces, events, Piece.event, ih]
  | block node loop body rest ihBody ihRest =>
      simp [pieces, events, Piece.event, ihBody, ihRest]

/-- A line from its first word on. -/
def unindent (line : String) : List Char := line.toList.dropWhile (· = ' ')

theorem unindent_indent (line : String) : unindent ("  " ++ line) = unindent line := by
  simp [unindent]

theorem unindent_text (numeral : α → String) (piece : Piece α) :
    unindent (piece.text numeral) = (piece.text numeral).toList := by
  cases piece with
  | action a => cases a <;> simp [unindent, Piece.text, Action.text]
  | start loop => cases loop <;> simp [unindent, Piece.text, Loop.text]
  | finish => simp [unindent, Piece.text, closeBrace]

theorem map_unindent_lines (numeral : α → String) (s : Script α) :
    (s.lines numeral).map unindent = s.pieces.map fun piece => (piece.text numeral).toList := by
  have hindent : unindent ∘ ("  " ++ ·) = unindent := funext unindent_indent
  induction s with
  | done => rfl
  | action node a rest ih =>
      rw [lines, pieces, List.map_cons, List.map_cons, ih]
      exact congrArg (· :: _) (unindent_text numeral (.action a))
  | block node loop body rest ihBody ihRest =>
      have hopen : unindent (loop.text ++ " " ++ openBrace) = _ :=
        unindent_text numeral (.start loop)
      have hclose : unindent closeBrace = _ := unindent_text numeral .finish
      rw [lines, pieces, List.map_cons, List.map_cons, List.map_append, List.map_append,
        List.map_map, hindent, List.map_cons, List.map_cons, ihBody, ihRest, hopen, hclose]

end Script

theorem toString_toNat_inj {m n : UInt32} (h : toString m.toNat = toString n.toNat) : m = n :=
  UInt32.toNat_inj.mp (Nat.repr_inj.mp h)

theorem ActionKind.name_inj {k l : ActionKind} (h : k.name = l.name) : k = l := by
  cases k <;> cases l <;> first | rfl | exact absurd h (by decide)

theorem Loop.text_inj {loop other : Loop}
    (hkey : (Piece.start loop : Piece α).keyword = (Piece.start other : Piece α).keyword)
    (heq : loop.text = other.text) : loop = other := by
  cases loop with
  | times count =>
      cases other with
      | times count' =>
          rw [toString_toNat_inj ((String.append_right_inj _).mp heq)]
      | _ => exact absurd hkey (by simp [Piece.keyword])
  | forever =>
      cases other with
      | forever => rfl
      | _ => exact absurd hkey (by simp [Piece.keyword])
  | untilIn region =>
      cases other with
      | untilIn region' =>
          rw [(String.append_right_inj _).mp heq]
      | _ => exact absurd hkey (by simp [Piece.keyword])

section Numerals

variable [Scalar α]

/-- Numbers are told apart by their numerals, and these are told from what stands around them. -/
structure Legible (numeral : α → String) : Prop where
  inj : ∀ {x y : α}, Scalar.isFinite x → Scalar.isFinite y → numeral x = numeral y → x = y
  clear : ∀ {x : α}, Scalar.isFinite x →
    ' ' ∉ (numeral x).toList ∧ ',' ∉ (numeral x).toList ∧ ')' ∉ (numeral x).toList ∧
      '\n' ∉ (numeral x).toList

namespace Legible

variable {numeral : α → String} (h : Legible numeral)

include h

/-- A point is read up to its parenthesis. -/
theorem point_inj {p q : Point α} {rest rest' : List Char}
    (hp : Scalar.isFinite p.x ∧ Scalar.isFinite p.y)
    (hq : Scalar.isFinite q.x ∧ Scalar.isFinite q.y)
    (heq : (Action.text.point numeral p).toList ++ rest =
      (Action.text.point numeral q).toList ++ rest') : p = q ∧ rest = rest' := by
  have htext (p : Point α) (rest : List Char) : (Action.text.point numeral p).toList ++ rest =
      '(' :: ((numeral p.x).toList ++ ',' :: ' ' :: ((numeral p.y).toList ++ ')' :: rest)) := by
    simp [Action.text.point]
  rw [htext, htext] at heq
  obtain ⟨hx, heq⟩ := eq_of_append_cons (h.clear hp.1).2.1 (h.clear hq.1).2.1 (List.cons.inj heq).2
  obtain ⟨hy, heq⟩ := eq_of_append_cons (h.clear hp.2).2.2.1 (h.clear hq.2).2.2.1
    (List.cons.inj heq).2
  refine ⟨?_, heq⟩
  cases p
  cases q
  rw [Point.mk.injEq]
  exact ⟨h.inj hp.1 hq.1 (String.toList_inj.mp hx), h.inj hp.2 hq.2 (String.toList_inj.mp hy)⟩

theorem text_inj_action {a b : Action α} (ha : a.event.Valid) (hb : b.event.Valid)
    (hkind : a.kind = b.kind) (htext : a.text numeral = b.text numeral) : a = b := by
  have heq := congrArg String.toList htext
  cases a with
  | move target speed =>
      cases b with
      | move target' speed' =>
          obtain ⟨hx, hy, hspeed⟩ := ha
          obtain ⟨hx', hy', hspeed'⟩ := hb
          have htext (t : Point α) (s : α) : ((Action.move t s).text numeral).toList =
              "move ".toList ++ ((Action.text.point numeral t).toList ++
                (" speed ".toList ++ (numeral s).toList)) := by
            simp [Action.text]
          rw [htext, htext] at heq
          obtain ⟨rfl, hrest⟩ := h.point_inj ⟨hx, hy⟩ ⟨hx', hy'⟩ (List.append_cancel_left heq)
          rw [h.inj hspeed hspeed' (String.toList_inj.mp (List.append_cancel_left hrest))]
      | _ => exact absurd hkind (by simp [Action.kind])
  | wander corner1 corner2 speed =>
      cases b with
      | wander corner1' corner2' speed' =>
          obtain ⟨h1, h2, hspeed⟩ := ha
          obtain ⟨h1', h2', hspeed'⟩ := hb
          have htext (c d : Point α) (s : α) : ((Action.wander c d s).text numeral).toList =
              "random_move ".toList ++ ((Action.text.point numeral c).toList ++
                ("..".toList ++ ((Action.text.point numeral d).toList ++
                  (" speed ".toList ++ (numeral s).toList)))) := by
            simp [Action.text]
          rw [htext, htext] at heq
          obtain ⟨rfl, hrest⟩ := h.point_inj h1 h1' (List.append_cancel_left heq)
          obtain ⟨rfl, hlast⟩ := h.point_inj h2 h2' (List.append_cancel_left hrest)
          rw [h.inj hspeed hspeed' (String.toList_inj.mp (List.append_cancel_left hlast))]
      | _ => exact absurd hkind (by simp [Action.kind])
  | signal label =>
      cases b with
      | signal label' =>
          rw [(String.append_right_inj _).mp htext]
      | _ => exact absurd hkind (by simp [Action.kind])
  | unsignal label =>
      cases b with
      | unsignal label' =>
          rw [(String.append_right_inj _).mp htext]
      | _ => exact absurd hkind (by simp [Action.kind])
  | follow label radius speed =>
      cases b with
      | follow label' radius' speed' =>
          obtain ⟨⟨hradius, -⟩, hspeed⟩ := ha
          obtain ⟨⟨hradius', -⟩, hspeed'⟩ := hb
          have htext (l : String) (r s : α) : ((Action.follow l r s).text numeral).toList =
              (("follow ".toList ++ l.toList ++ " radius".toList ++ ' ' :: (numeral r).toList) ++
                " speed".toList) ++ ' ' :: (numeral s).toList := by
            simp [Action.text]
          -- the label may be anything, so the line is read from its end
          rw [htext, htext] at heq
          obtain ⟨heq, hs⟩ := eq_of_append_cons_last (h.clear hspeed).1 (h.clear hspeed').1 heq
          obtain ⟨heq, hr⟩ := eq_of_append_cons_last (h.clear hradius).1 (h.clear hradius').1
            (List.append_cancel_right heq)
          rw [String.toList_inj.mp (List.append_cancel_left (List.append_cancel_right heq)),
            h.inj hradius hradius' (String.toList_inj.mp hr),
            h.inj hspeed hspeed' (String.toList_inj.mp hs)]
      | _ => exact absurd hkind (by simp [Action.kind])
  | stop =>
      cases b with
      | stop => rfl
      | _ => exact absurd hkind (by simp [Action.kind])
  | wait ticks =>
      cases b with
      | wait ticks' =>
          rw [toString_toNat_inj ((String.append_right_inj _).mp htext)]
      | _ => exact absurd hkind (by simp [Action.kind])

/-- A line determines the piece that it is written for. -/
theorem text_inj {piece other : Piece α} (hvalid : piece.event.Valid) (hvalid' : other.event.Valid)
    (heq : piece.text numeral = other.text numeral) : piece = other := by
  have hkey : piece.keyword = other.keyword := by
    rw [← String.toList_inj, ← Piece.takeWhile_text numeral, ← Piece.takeWhile_text numeral, heq]
  have haction (a : Action α) (loop : Loop) :
      (Piece.action a).keyword ≠ (Piece.start loop : Piece α).keyword ∧
        (Piece.action a).keyword ≠ (Piece.finish : Piece α).keyword ∧
        (Piece.start loop : Piece α).keyword ≠ (Piece.finish : Piece α).keyword := by
    cases a <;> cases loop <;>
      simp [Piece.keyword, Action.kind, ActionKind.name, closeBrace]
  cases piece with
  | action a =>
      cases other with
      | action b => rw [h.text_inj_action hvalid hvalid' (ActionKind.name_inj hkey) heq]
      | start loop => exact absurd hkey (haction a loop).1
      | finish => exact absurd hkey (haction a .forever).2.1
  | start loop =>
      cases other with
      | action a => exact absurd hkey.symm (haction a loop).1
      | start loop' =>
          rw [Loop.text_inj hkey
            ((String.append_left_inj _).mp ((String.append_left_inj _).mp heq))]
      | finish => exact absurd hkey (haction .stop loop).2.2
  | finish =>
      cases other with
      | action a => exact absurd hkey.symm (haction a .forever).2.1
      | start loop => exact absurd hkey.symm (haction .stop loop).2.2
      | finish => rfl

theorem break_not_mem_text {piece : Piece α} (hvalid : piece.event.Valid)
    (hlabel : ∀ label ∈ piece.label?, '\n' ∉ label.toList) :
    '\n' ∉ (piece.text numeral).toList := by
  have hcount (n : Nat) : '\n' ∉ (toString n).toList := fun hmem => by
    rw [Nat.toString_eq_ofList_toDigits, String.toList_ofList] at hmem
    exact absurd (Nat.isDigit_of_mem_toDigits (by decide) le_rfl hmem) (by decide)
  cases piece with
  | action a =>
      cases a with
      | move target speed =>
          simp [Piece.text, Action.text, Action.text.point, (h.clear hvalid.1).2.2.2,
            (h.clear hvalid.2.1).2.2.2, (h.clear hvalid.2.2).2.2.2]
      | wander corner1 corner2 speed =>
          simp [Piece.text, Action.text, Action.text.point, (h.clear hvalid.1.1).2.2.2,
            (h.clear hvalid.1.2).2.2.2, (h.clear hvalid.2.1.1).2.2.2,
            (h.clear hvalid.2.1.2).2.2.2, (h.clear hvalid.2.2).2.2.2]
      | signal label => simpa [Piece.text, Action.text] using hlabel label rfl
      | unsignal label => simpa [Piece.text, Action.text] using hlabel label rfl
      | follow label radius speed =>
          simp [Piece.text, Action.text, hlabel label rfl, (h.clear hvalid.1.1).2.2.2,
            (h.clear hvalid.2).2.2.2]
      | stop => simp [Piece.text, Action.text]
      | wait ticks => simpa [Piece.text, Action.text] using hcount ticks.toNat
  | start loop =>
      cases loop with
      | times count => simpa [Piece.text, Loop.text, openBrace] using hcount count.toNat
      | forever => simp [Piece.text, Loop.text, openBrace]
      | untilIn region => simpa [Piece.text, Loop.text, openBrace] using hlabel region rfl
  | finish => simp [Piece.text, closeBrace]

end Legible

end Numerals

namespace Script

variable [Scalar α] {numeral : α → String} {s t : Script α}

/-- The labels of the pieces have no line feed. -/
def LabelsUnbroken (s : Script α) : Prop :=
  ∀ piece ∈ s.pieces, ∀ label ∈ piece.label?, '\n' ∉ label.toList

theorem valid_event_of_mem_pieces (hs : ∀ event ∈ s.events, event.Valid) {piece : Piece α}
    (h : piece ∈ s.pieces) : piece.event.Valid :=
  hs _ (s.map_event_pieces ▸ List.mem_map_of_mem h)

theorem break_not_mem_line (h : Legible numeral) (hs : ∀ event ∈ s.events, event.Valid)
    (hlabels : s.LabelsUnbroken) {line : String} (hline : line ∈ s.lines numeral) :
    '\n' ∉ line.toList := by
  have hmem : unindent line ∈ s.pieces.map fun piece => (piece.text numeral).toList := by
    rw [← map_unindent_lines]
    exact List.mem_map_of_mem hline
  obtain ⟨piece, hpiece, htext⟩ := List.mem_map.mp hmem
  rw [← List.takeWhile_append_dropWhile (p := (· = ' ')) (l := line.toList), List.mem_append]
  rintro (hblank | hrest)
  · exact absurd (List.mem_takeWhile_imp hblank) (by decide)
  · have hbreak : '\n' ∈ unindent line := hrest
    rw [← htext] at hbreak
    exact h.break_not_mem_text (valid_event_of_mem_pieces hs hpiece) (hlabels piece hpiece) hbreak

/-- The lines of a sequence determine its events. -/
theorem events_eq_of_lines_eq (h : Legible numeral) (hs : ∀ event ∈ s.events, event.Valid)
    (ht : ∀ event ∈ t.events, event.Valid) (heq : s.lines numeral = t.lines numeral) :
    s.events = t.events := by
  have htexts := congrArg (List.map unindent) heq
  rw [map_unindent_lines, map_unindent_lines] at htexts
  rw [← map_event_pieces, ← map_event_pieces, eq_of_map_eq (fun piece hpiece other hother htext =>
    h.text_inj (valid_event_of_mem_pieces hs hpiece) (valid_event_of_mem_pieces ht hother)
      (String.toList_inj.mp htext)) htexts]

end Script

namespace Program

variable {p q : Program α}

/-- The labels of a program have no line feed. -/
def LabelsUnbroken (p : Program α) : Prop :=
  ∀ node ∈ p.nodes, ∀ label ∈ node.label?, '\n' ∉ label.toList

instance (p : Program α) : Decidable p.LabelsUnbroken :=
  inferInstanceAs (Decidable (∀ node ∈ p.nodes, ∀ label ∈ node.label?, '\n' ∉ label.toList))

theorem Reads.labelsUnbroken {ids : List Nat} {s : Script α} (h : p.Reads ids s)
    (hp : p.LabelsUnbroken) : s.LabelsUnbroken := by
  induction h with
  | done => exact List.forall_mem_nil _
  | action hnode _ ih => exact List.forall_mem_cons.mpr ⟨hp _ (Array.mem_of_getElem? hnode), ih⟩
  | block hnode _ _ ihBody ihRest =>
      refine List.forall_mem_cons.mpr
        ⟨hp _ (Array.mem_of_getElem? hnode), List.forall_mem_append.mpr ⟨ihBody, ?_⟩⟩
      exact List.forall_mem_cons.mpr ⟨by simp [Piece.label?], ihRest⟩

theorem toList_listing (numeral : α → String) (p : Program α) :
    (p.listing numeral).toList =
      ((p.lines numeral).map String.toList).flatMap (· ++ ['\n']) := by
  simp [listing, String.toList_join, List.flatMap_map]

variable [Scalar α] {numeral : α → String}

/-- No two streams of events have the same listing. -/
theorem events_eq_of_listing_eq (hnumeral : Legible numeral) {events others : List (Event α)}
    (hp : ofEvents events = .ok p) (hq : ofEvents others = .ok q) (hlabels : p.LabelsUnbroken)
    (hlabels' : q.LabelsUnbroken) (h : p.listing numeral = q.listing numeral) :
    events = others := by
  have hvalid := ((ofEvents_isOk_iff events).mp ⟨p, hp⟩).1
  have hvalid' := ((ofEvents_isOk_iff others).mp ⟨q, hq⟩).1
  obtain ⟨hsound, rfl⟩ := sound_of_ofEvents hp
  obtain ⟨hsound', rfl⟩ := sound_of_ofEvents hq
  have htexts := congrArg String.toList h
  rw [toList_listing, toList_listing, hsound.lines_eq, hsound'.lines_eq] at htexts
  have hlines := eq_of_flatMap_append
    (List.forall_mem_map.mpr fun line hline => Script.break_not_mem_line hnumeral hvalid
      (hsound.reads_outline.labelsUnbroken hlabels) hline)
    (List.forall_mem_map.mpr fun line hline => Script.break_not_mem_line hnumeral hvalid'
      (hsound'.reads_outline.labelsUnbroken hlabels') hline) htexts
  exact Script.events_eq_of_lines_eq hnumeral hvalid hvalid'
    (List.map_injective_iff.mpr (fun _ _ => String.toList_inj.mp) hlines)

/-- Plain texts of doubles are legible. -/
theorem legible_plain : Legible Layout.plain.render where
  inj := Double.render_inj
  clear hx := by
    have hmem (c : Char) (hc : ¬ (Decimal.isDigit c ∨ c = '.' ∨ c = '-')) :
        c ∉ (Layout.plain.render _).toList := fun h => hc (Double.mem_render hx h)
    exact ⟨hmem _ (by decide), hmem _ (by decide), hmem _ (by decide), hmem _ (by decide)⟩

/-- Programs without line feeds in their labels have the same listing only if they are the same.
So the stream of events, with its order, its nesting and all labels, numbers and counts, can be read
back from the listing. -/
theorem listing_eq_iff {events others : List (Event Float)} {p q : Program Float}
    (hp : ofEvents events = .ok p) (hq : ofEvents others = .ok q) (hlabels : p.LabelsUnbroken)
    (hlabels' : q.LabelsUnbroken) :
    (p.listing Layout.plain.render = q.listing Layout.plain.render ↔ p = q) ∧
    (p.listing Layout.plain.render = q.listing Layout.plain.render ↔ events = others) := by
  have hevents := events_eq_of_listing_eq legible_plain hp hq hlabels hlabels'
  have hsame (h : events = others) : p = q := by
    subst h
    exact Except.ok.inj (hp.symm.trans hq)
  have hlisting (h : p = q) : p.listing Layout.plain.render = q.listing Layout.plain.render :=
    congrArg _ h
  exact ⟨⟨hsame ∘ hevents, hlisting⟩, ⟨hevents, hlisting ∘ hsame⟩⟩

/-- Labels that look like the rest of a line. -/
theorem listing_eq_iff_labels :
    ∃ p q : Program Float,
      ofEvents [.startUntil "a \x7b", .follow "b radius 1" 2 (-0.5), .finish] = .ok p ∧
      ofEvents [.startUntil "a \x7b", .follow "b" 1 (-0.5), .finish] = .ok q ∧
      p.listing Layout.plain.render ≠ q.listing Layout.plain.render := by
  have hp : ofEvents [.startUntil "a \x7b", .follow "b radius 1" (2 : Float) (-0.5), .finish] =
      .ok ⟨#[.action (.follow "b radius 1" 2 (-0.5)), .block (.untilIn "a \x7b") [0]], [1]⟩ := by
    rfl
  have hq : ofEvents [.startUntil "a \x7b", .follow "b" (1 : Float) (-0.5), .finish] =
      .ok ⟨#[.action (.follow "b" 1 (-0.5)), .block (.untilIn "a \x7b") [0]], [1]⟩ := by
    rfl
  have hiff := listing_eq_iff hp hq (by decide) (by decide)
  exact ⟨_, _, hp, hq, fun h => absurd (hiff.2.mp h) (by simp)⟩

end Program

end Flock
