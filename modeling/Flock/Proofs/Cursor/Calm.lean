import Flock.Proofs.Cursor.Pass

/-!
# Passes without an action

A loop with a number of passes skips those still due when a pass has run no action.
That is right as long as the agent stands where it stood during that pass: everything
the pass went through would be gone through again. `Calm` says so of every pass in
progress, for the regions that the agent stands in now. The search of a step keeps it
(`Calm.leads`), an action makes it true wherever the agent goes next
(`calm_of_ran`), and only an agent that is moved after a step without an action can
break it.
-/

namespace Flock

namespace Cursor

variable {α : Type} {p : Program α} {inside : String → Bool} {c d : Cursor} {index : Nat}
  {f : Frame} {frames outer : List Frame}

/-- What a pass without an action has gone through would be gone through again, and so
would the body of a loop that has counted passes without an action. -/
def Calm (p : Program α) (inside : String → Bool) : List Frame → Prop
  | [] => True
  | f :: outer =>
    (f.ran = false → (p.script ((p.children f.node).take f.index)).fate inside = .through) ∧
      (∀ g ∈ outer.head?, g.ran = false →
        f.passes = 0 ∨ (p.script (p.children f.node)).fate inside = .through) ∧
      Calm p inside outer

/-- The child that the innermost frame stands at is gone through as well. -/
def Passed (p : Program α) (inside : String → Bool) (frames : List Frame) : Prop :=
  ∀ f ∈ frames.head?, f.ran = false →
    (p.script ((p.children f.node).take (f.index + 1))).fate inside = .through

theorem calm_of_ran (p : Program α) (inside : String → Bool) (h : ∀ f ∈ frames, f.ran) :
    Calm p inside frames := by
  induction frames with
  | nil => trivial
  | cons f outer ih =>
      rw [List.forall_mem_cons] at h
      refine ⟨?_, ?_, ih h.2⟩
      · intro hran
        rw [h.1] at hran
        exact absurd hran (by simp)
      · intro g hg hran
        rw [h.2 g (List.mem_of_head? hg)] at hran
        exact absurd hran (by simp)

theorem passed_of_ran (p : Program α) (inside : String → Bool) (h : ∀ f ∈ frames, f.ran) :
    Passed p inside frames := by
  intro f hf hran
  rw [h f (List.mem_of_head? hf)] at hran
  exact absurd hran (by simp)

theorem Calm.of_append {inner : List Frame} (h : Calm p inside (inner ++ frames)) :
    Calm p inside frames := by
  induction inner with
  | nil => exact h
  | cons f inner ih => exact ih h.2.2

theorem take_eq_self_of_last (h : (p.children f.node).length ≤ f.index + 1) :
    (p.children f.node).take (f.index + 1) = p.children f.node :=
  List.take_of_length_le h

/-- A loop that has come to its end and has counted no passes, or has a body that would
be gone through, would be gone through itself. -/
theorem fate_of_isDone (hf : f.Fits p) (hdone : f.isDone p inside)
    (hcalm : f.passes = 0 ∨ (p.script (p.children f.node)).fate inside = .through) :
    ∃ loop, p.node? f.node = some (.block loop (p.children f.node)) ∧
      loop.fate inside ((p.script (p.children f.node)).fate inside) = .through := by
  obtain ⟨loop, kids, hnode, -⟩ := hf
  refine ⟨loop, by rw [Frame.children_eq hnode, hnode], ?_⟩
  rw [Frame.children_eq hnode] at hcalm ⊢
  cases loop with
  | forever =>
      rw [Frame.isDone_forever hnode] at hdone
      exact absurd hdone (by simp)
  | untilIn region =>
      rw [Frame.isDone_untilIn hnode] at hdone
      rw [Loop.fate, if_pos hdone]
  | times count =>
      rw [Loop.fate]
      split
      · rfl
      · next hcount =>
        rcases hcalm with hpasses | hthrough
        · rw [Frame.isDone_times hnode, hpasses] at hdone
          have hkids : kids = [] := by simpa [hcount] using hdone
          rw [hkids, Program.script_nil, Script.fate]
        · exact hthrough

/-- A loop that has come to its end is gone through. -/
theorem Calm.passed (hp : p.Descends) (hnested : Nested p index (f :: outer))
    (h : Calm p inside (f :: outer)) (hdone : f.isDone p inside) : Passed p inside outer := by
  obtain ⟨hf, hplace, -, -⟩ := hnested
  obtain ⟨-, hbody, houter⟩ := h
  cases outer with
  | nil => exact fun g hg => absurd hg (by simp)
  | cons g rest =>
      intro g' hg hran
      obtain rfl := Option.some.inj hg
      obtain ⟨loop, hnode, hfate⟩ := fate_of_isDone hf hdone (hbody g rfl hran)
      rw [level, spot] at hplace
      rw [List.take_add_one, hplace, Option.toList_some, Program.script_append,
        Script.fate_append, houter.1 hran, Program.script_cons_block hp hnode,
        Program.script_nil, Script.fate, hfate]
      rfl

/-- Moving on from a child that is gone through keeps the frames calm. -/
theorem Calm.advance (hnested : Nested p index (f :: outer)) (h : Calm p inside (f :: outer))
    (hpassed : Passed p inside (f :: outer)) : Calm p inside (f.advance p :: outer) := by
  have hpassed := hpassed f rfl
  obtain ⟨-, hbody, houter⟩ := h
  by_cases hlt : f.index + 1 < (p.children f.node).length
  · rw [Frame.advance_of_lt hlt]
    exact ⟨hpassed, hbody, houter⟩
  · rw [Frame.advance_of_le (by omega)]
    refine ⟨?_, ?_, houter⟩
    · intro _
      rw [List.take_zero, Program.script_nil, Script.fate]
    · intro g hg hran
      right
      have hquiet : f.ran = false := by
        by_contra hran'
        rw [(hnested.2.2.1 g hg).2 (by simpa using hran')] at hran
        exact absurd hran (by simp)
      rw [take_eq_self_of_last (by omega)] at hpassed
      exact hpassed hquiet

theorem Calm.frames_advance (hnested : Nested p index frames) (h : Calm p inside frames)
    (hpassed : Passed p inside frames) :
    Calm p inside ((⟨index, frames, none⟩ : Cursor).advance p).frames := by
  cases frames with
  | nil => trivial
  | cons f outer => exact h.advance hnested hpassed

/-- Moving on from inside `frames` and closing what comes to its end moves on from inside
the second list of frames too. -/
inductive Settles (p : Program α) (inside : String → Bool) : List Frame → List Frame → Prop where
  | here (frames : List Frame) : Settles p inside frames frames
  | outer {f : Frame} {outer frames : List Frame} (h : (f.advance p).isDone p inside)
      (houter : Settles p inside outer frames) : Settles p inside (f :: outer) frames

theorem exists_settles (p : Program α) (inside : String → Bool) (index : Nat)
    (frames : List Frame) : ∃ last, Settles p inside frames last ∧
      ⟨(settle p inside index frames).1, (settle p inside index frames).2.1, none⟩ =
        (⟨index, last, none⟩ : Cursor).advance p := by
  induction frames with
  | nil => exact ⟨[], .here [], rfl⟩
  | cons f outer ih =>
      simp only [settle]
      split
      · next hdone =>
        obtain ⟨last, hlast, heq⟩ := ih
        exact ⟨last, .outer hdone hlast, heq⟩
      · exact ⟨f :: outer, .here _, rfl⟩

theorem Calm.settles {last : List Frame} (hp : p.Descends) (haround : Around p index frames)
    (h : Calm p inside frames) (hpassed : Passed p inside frames)
    (hlast : Settles p inside frames last) :
    Around p index last ∧ Calm p inside last ∧ Passed p inside last := by
  induction hlast with
  | here => exact ⟨haround, h, hpassed⟩
  | outer hdone _ ih =>
      have hnested := haround.nested.advance (haround.isOpen _ rfl)
      have hcalm := h.advance haround.nested hpassed
      exact ih hnested.around hcalm.2.2 (hcalm.passed hp hnested hdone)

/-! The first phase of a step and its search keep the frames calm. -/

/-- What the first phase of a step moves on from is gone through. -/
theorem Calm.aroundDone (hp : p.Descends) (hc : Sound p c) (h : Calm p inside c.frames)
    (haround : aroundDone? (·.isDone p inside) c.frames = some outer) :
    Around p c.index outer ∧ Calm p inside outer ∧ Passed p inside outer := by
  obtain ⟨inner, f, hsplit, hdone, -⟩ := aroundDone?_eq_some haround
  have hnested := hc.nested
  rw [hsplit] at hnested h
  have hcalm := h.of_append
  exact ⟨hnested.of_append.around, hcalm.2.2, hcalm.passed hp hnested.of_append hdone⟩

theorem Calm.closeFinished (hp : p.Descends) (hc : Sound p c) (h : Calm p inside c.frames) :
    Calm p inside (c.closeFinished p inside).1.frames := by
  cases haround : aroundDone? (·.isDone p inside) c.frames with
  | none =>
      rw [closeFinished_of_none haround]
      exact h
  | some outer =>
      obtain ⟨hopen, hcalm, hpassed⟩ := h.aroundDone hp hc haround
      obtain ⟨last, hlast, heq⟩ := exists_settles p inside c.index outer
      obtain ⟨hopen, hcalm, hpassed⟩ := hcalm.settles hp hopen hpassed hlast
      rw [closeFinished_of_some haround, heq]
      exact hcalm.frames_advance hopen.nested hpassed

theorem Calm.entered (h : Calm p inside c.frames) (hhop : c.hop p inside = .entered d) :
    Calm p inside d.frames := by
  obtain ⟨-, id, loop, kids, -, -, rfl⟩ := entered_of_hop hhop
  refine ⟨?_, fun _ _ _ => .inl rfl, h⟩
  intro _
  rw [Frame.enter, List.take_zero, Program.script_nil, Script.fate]

theorem Calm.closed (hp : p.Descends) (hc : Sound p c) (h : Calm p inside c.frames)
    (hhop : c.hop p inside = .closed d) : Calm p inside d.frames := by
  obtain ⟨f, outer, hframes, hdone, rfl⟩ := closed_of_hop hhop
  have hnested := hc.nested
  rw [hframes] at hnested h
  exact h.2.2.frames_advance hnested.2.2.2 (h.passed hp hnested hdone)

theorem Calm.leads {n : Nat} (hp : p.Descends) (hc : Sound p c) (h : Calm p inside c.frames)
    (hleads : Leads p inside n c d) : Calm p inside d.frames := by
  induction hleads with
  | refl => exact h
  | entered hhop _ ih => exact ih (hc.entered hhop) (h.entered hhop)
  | closed hhop _ ih => exact ih (hc.closed hhop) (h.closed hp hc hhop)

theorem Calm.found (hp : p.Descends) (hc : Sound p c) (h : Calm p inside c.frames) :
    Calm p inside (c.found p inside).cursor.frames := by
  have hfirst := h.closeFinished hp hc
  obtain ⟨n, hleads⟩ := leads_found p inside c
  exact hfirst.leads hp hc.closeFinished hleads

/-! The action. -/

theorem ran_of_mem_markRan : ∀ f ∈ c.markRan.frames, f.ran := by
  intro f hf
  obtain ⟨g, -, rfl⟩ := List.mem_map.mp hf
  rfl

/-- After an action the frames are calm wherever the agent goes. -/
theorem calm_advance_of_ran (p : Program α) (inside : String → Bool)
    (hnested : Nested p index frames) (h : ∀ f ∈ frames, f.ran) :
    Calm p inside ((⟨index, frames, none⟩ : Cursor).advance p).frames :=
  (calm_of_ran p inside h).frames_advance hnested (passed_of_ran p inside h)

end Cursor

end Flock
