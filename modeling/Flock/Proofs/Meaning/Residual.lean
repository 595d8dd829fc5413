import Flock.Proofs.Cursor.Calm
import Flock.Proofs.Meaning.Basic

/-!
# What a cursor leaves of a program

`Cursor.rest` is what is left of a program when a cursor has come to its place: the rest
of the sequence it stands in, enclosed in the loops that it is inside. A hop of the
cursor is a number of moves of the rest, none of which executes an action
(`Poised.leads`). That a hop can stand for many moves is due to the passes that a
loop skips.
-/

namespace Flock

namespace Rest

variable {α : Type} {inside : String → Bool} {n counted : Nat} {r next : Rest α}
  {body after : Script α} {loop : Loop}

/-- What is left inside a loop that has counted a number of passes. -/
def inLoop (counted : Nat) (body : Script α) (now : Rest α) (after : Script α) : Loop → Rest α
  | .times count => passes (count.toNat - (counted + 1)) body now after
  | .forever => endless none body now after
  | .untilIn region => endless (some region) body now after

/-- What is left of a loop when its present pass has ended. -/
def passEnded (counted : Nat) (body after : Script α) : Loop → Rest α
  | .times count => nextPass body after (count.toNat - (counted + 1))
  | .forever => endless none body (todo body) after
  | .untilIn region => endless (some region) body (todo body) after

theorem move_inLoop (loop : Loop) (now : Rest α) :
    (inLoop counted body now after loop).move inside =
      (now.move inside).inLoop (inLoop counted body · after loop)
        (passEnded counted body after loop) := by
  cases loop <;> rfl

theorem Quiet.around (around : Rest α → Rest α) {finish : Rest α}
    (haround : ∀ r, (around r).move inside = (r.move inside).inLoop around finish)
    (h : Quiet inside n r next) : Quiet inside n (around r) (around next) := by
  induction h with
  | refl r => exact .refl _
  | move hmove _ ih =>
      refine .move ?_ ih
      rw [haround, hmove, Move.inLoop]

/-- The passes still due of a loop whose body is gone through. -/
theorem quiet_passes (hbody : ∃ n, Quiet inside n (todo body) (todo .done)) (after : Script α)
    (more : Nat) : ∃ n, Quiet inside n (passes more body (todo .done) after) (todo after) := by
  induction more with
  | zero => exact ⟨1, .single rfl⟩
  | succ more ih =>
      obtain ⟨n, hbody⟩ := hbody
      obtain ⟨m, hlater⟩ := ih
      have hpass : Quiet inside n (passes more body (todo body) after)
          (passes more body (todo .done) after) := hbody.around (passes more body · after) fun _ => rfl
      exact ⟨n + m + 1, .move rfl (hpass.trans hlater)⟩

/-- A sequence whose fate it is to be gone through is left behind without an action. -/
theorem quiet_of_through {s : Script α} (h : s.fate inside = .through) :
    ∃ n, Quiet inside n (todo s) (todo .done) := by
  induction s with
  | done => exact ⟨0, .refl _⟩
  | action node a after => exact absurd h (by simp [Script.fate])
  | block node loop body after ihBody ihAfter =>
      rw [Script.fate] at h
      obtain ⟨hloop, hafter⟩ := Fate.through_of_andThen h
      obtain ⟨m, hlater⟩ := ihAfter hafter
      suffices hleft : ∃ n, Quiet inside n (enter inside body after loop) (todo after) by
        obtain ⟨n, hleft⟩ := hleft
        exact ⟨n + m + 1, .move rfl (hleft.trans hlater)⟩
      cases loop with
      | forever => exact absurd hloop (Fate.endless_ne_through _)
      | untilIn region =>
          rw [Loop.fate] at hloop
          split at hloop
          · next hregion => exact ⟨0, by rw [enter, if_pos hregion]; exact .refl _⟩
          · exact absurd hloop (Fate.endless_ne_through _)
      | times count =>
          rw [Loop.fate] at hloop
          rw [enter]
          split
          · exact ⟨0, .refl _⟩
          · next hcount =>
            rw [if_neg hcount] at hloop
            obtain ⟨k, hbody⟩ := ihBody hloop
            obtain ⟨l, hrest⟩ := quiet_passes ⟨k, hbody⟩ after (count.toNat - 1)
            have hpass : Quiet inside k (passes (count.toNat - 1) body (todo body) after)
                (passes (count.toNat - 1) body (todo .done) after) :=
              hbody.around (passes _ body · after) fun _ => rfl
            exact ⟨k + l, hpass.trans hrest⟩

end Rest

namespace Cursor

variable {α : Type} {p : Program α} {inside : String → Bool} {c d : Cursor} {index : Nat}
  {f : Frame} {frames outer : List Frame}

/-- The sequence behind the child that the frames are at. -/
def behind (p : Program α) (index : Nat) (frames : List Frame) : Script α :=
  p.script ((level p frames).drop (spot index frames + 1))

/-- What is left of the program, from what is left inside the frames. -/
def enclose (p : Program α) (index : Nat) : List Frame → Rest α → Rest α
  | [], r => r
  | f :: outer, r =>
    match p.node? f.node with
    | some (.block loop kids) =>
      enclose p index outer (.inLoop f.passes (p.script kids) r (behind p index outer) loop)
    | _ => enclose p index outer r

/-- What is left of the sequence that the cursor stands in. -/
def here (p : Program α) (c : Cursor) : Rest α :=
  match c.waitLeft, c.current? p with
  | some left, some id =>
    match p.node? id with
    | some (.action (.wait ticks)) => .waiting id ticks left (behind p c.index c.frames)
    | _ => .todo (p.script (c.pending p))
  | _, _ => .todo (p.script (c.pending p))

/-- What is left of the program. A loop that has come to its end is left behind. -/
def rest (p : Program α) (inside : String → Bool) (c : Cursor) : Rest α :=
  if topDone p inside c.frames then
    enclose p c.index c.frames.tail (.todo (behind p c.index c.frames.tail))
  else enclose p c.index c.frames (here p c)

theorem rest_of_topDone (hframes : c.frames = f :: outer) (h : f.isDone p inside) :
    rest p inside c = enclose p c.index outer (.todo (behind p c.index outer)) := by
  rw [rest, hframes, if_pos (by rwa [topDone]), List.tail_cons]

theorem rest_of_not_topDone (h : topDone p inside c.frames = false) :
    rest p inside c = enclose p c.index c.frames (here p c) := by
  rw [rest, if_neg (by simp [h])]

theorem here_of_waitLeft (h : c.waitLeft = none) : here p c = .todo (p.script (c.pending p)) := by
  rw [here, h]

theorem enclose_cons {loop : Loop} {kids : List Nat}
    (hnode : p.node? f.node = some (.block loop kids)) (r : Rest α) :
    enclose p index (f :: outer) r =
      enclose p index outer (.inLoop f.passes (p.script kids) r (behind p index outer) loop) := by
  rw [enclose, hnode]

theorem quiet_enclose {n : Nat} {r next : Rest α} (h : Rest.Quiet inside n r next) :
    Rest.Quiet inside n (enclose p index frames r) (enclose p index frames next) := by
  induction frames generalizing r next with
  | nil => exact h
  | cons f outer ih =>
      simp only [enclose]
      split
      · exact ih (h.around (Rest.inLoop _ _ · _ _) (Rest.move_inLoop _))
      · exact ih h

theorem move_enclose_acts {r next : Rest α} {node : Nat} {a : Action α}
    (h : r.move inside = .acts node a next) :
    (enclose p index frames r).move inside = .acts node a (enclose p index frames next) := by
  induction frames generalizing r next with
  | nil => exact h
  | cons f outer ih =>
      simp only [enclose]
      split
      · exact ih (by rw [Rest.move_inLoop, h, Move.inLoop])
      · exact ih h

/-! Moving on. -/

/-- What is left at the start of a pass. -/
theorem rest_fresh {loop : Loop} {kids : List Nat} (hindex : f.index = 0)
    (hnode : p.node? f.node = some (.block loop kids)) (hdone : f.isDone p inside = false) :
    rest p inside ⟨index, f :: outer, none⟩ =
      enclose p index outer
        (.inLoop f.passes (p.script kids) (.todo (p.script kids)) (behind p index outer) loop) := by
  have hpending : pending p ⟨index, f :: outer, none⟩ = kids := by
    rw [pending, level, spot, hindex, List.drop_zero, Frame.children_eq hnode]
  have htop : topDone p inside (f :: outer) = false := hdone
  rw [rest_of_not_topDone htop, here_of_waitLeft rfl, hpending]
  exact enclose_cons hnode _

/-- The end of a pass that was due. -/
theorem quiet_passEnded (haround : Around p index (f :: outer)) (hdone : f.isDone p inside = false)
    (hpassed : Passed p inside (f :: outer)) (hlast : (p.children f.node).length ≤ f.index + 1) :
    ∃ n, Rest.Quiet inside n (enclose p index (f :: outer) (.todo .done))
      (rest p inside ⟨index, ⟨f.node, 0, f.passesAfter p, false⟩ :: outer, none⟩) := by
  obtain ⟨⟨loop, kids, hnode, -, -⟩, -⟩ := haround.nested
  have hended : Rest.Quiet inside 1 (enclose p index (f :: outer) (.todo .done))
      (enclose p index outer
        (.passEnded f.passes (p.script kids) (behind p index outer) loop)) := by
    rw [enclose_cons hnode]
    refine quiet_enclose (.single ?_)
    rw [Rest.move_inLoop, Rest.move, Move.inLoop]
  have hfresh (counted : Nat)
      (hopen : Frame.isDone p inside ⟨f.node, 0, counted, false⟩ = false) :
      rest p inside ⟨index, ⟨f.node, 0, counted, false⟩ :: outer, none⟩ =
        enclose p index outer (.inLoop counted (p.script kids) (.todo (p.script kids))
          (behind p index outer) loop) :=
    rest_fresh (f := ⟨f.node, 0, counted, false⟩) rfl hnode hopen
  cases loop with
  | forever =>
      refine ⟨1, ?_⟩
      rw [hfresh _ (Frame.isDone_forever hnode)]
      exact hended
  | untilIn region =>
      rw [Frame.isDone_untilIn hnode] at hdone
      have hopen : Frame.isDone p inside ⟨f.node, 0, f.passesAfter p, false⟩ = false :=
        (Frame.isDone_untilIn (f := ⟨f.node, 0, _, _⟩) hnode).trans hdone
      refine ⟨1, ?_⟩
      rw [hfresh _ hopen]
      exact hended
  | times count =>
      have hdue := haround.isOpen f rfl count kids hnode
      have hisDone : Frame.isDone p inside ⟨f.node, 0, f.passesAfter p, false⟩ =
          (kids.isEmpty || decide (count.toNat ≤ f.passesAfter p)) :=
        Frame.isDone_times (f := ⟨f.node, 0, _, _⟩) hnode
      rw [Frame.isDone_times hnode] at hdone
      have hkids : kids.isEmpty = false := by
        simp only [Bool.or_eq_false_iff] at hdone
        exact hdone.1
      cases hran : f.ran with
      | true =>
          have hcounted : f.passesAfter p = f.passes + 1 := by
            have := Frame.le_greatestPassCount count
            rw [Frame.passesAfter_times hnode, if_pos hran]
            omega
          refine ⟨1, ?_⟩
          rw [hcounted] at hisDone ⊢
          by_cases hall : count.toNat ≤ f.passes + 1
          · rw [rest_of_topDone rfl (by simp [hisDone, hall])]
            have hnone : count.toNat - (f.passes + 1) = 0 := by omega
            rwa [Rest.passEnded, hnone, Rest.nextPass] at hended
          · rw [hfresh _ (by simpa [hisDone, hkids] using hall)]
            have hmore : count.toNat - (f.passes + 1) = count.toNat - (f.passes + 1 + 1) + 1 := by
              omega
            rwa [Rest.passEnded, hmore, Rest.nextPass] at hended
      | false =>
          -- the passes still due are skipped: they would have come to no action
          have hcounted : f.passesAfter p = max f.passes count.toNat := by
            rw [Frame.passesAfter_times hnode, if_neg (by simp [hran])]
          have hthrough := hpassed f rfl hran
          rw [take_eq_self_of_last hlast, Frame.children_eq hnode] at hthrough
          obtain ⟨n, hskipped⟩ := Rest.quiet_passes (Rest.quiet_of_through hthrough)
            (behind p index outer) (count.toNat - (f.passes + 1))
          have hfinished : Frame.isDone p inside ⟨f.node, 0, f.passesAfter p, false⟩ := by
            rw [hisDone, hcounted, hkids, Bool.false_or, decide_eq_true_iff]
            exact Nat.le_max_right _ _
          refine ⟨n, ?_⟩
          rw [rest_of_topDone rfl hfinished, enclose_cons hnode]
          exact quiet_enclose hskipped

/-- Moving on from a child that has been gone through. -/
theorem quiet_advance (haround : Around p index frames) (hdone : topDone p inside frames = false)
    (hpassed : Passed p inside frames) :
    ∃ n, Rest.Quiet inside n (enclose p index frames (.todo (behind p index frames)))
      (rest p inside ((⟨index, frames, none⟩ : Cursor).advance p)) := by
  cases frames with
  | nil => exact ⟨0, .refl _⟩
  | cons f outer =>
      by_cases hlt : f.index + 1 < (p.children f.node).length
      · have htop : topDone p inside ({ f with index := f.index + 1 } :: outer) = false := hdone
        refine ⟨0, ?_⟩
        rw [advance_cons, Frame.advance_of_lt hlt, rest_of_not_topDone htop, here_of_waitLeft rfl]
        exact .refl _
      · have hlast : (p.children f.node).length ≤ f.index + 1 := by omega
        have hbehind : behind p index (f :: outer) = .done := by
          rw [behind, level, spot, List.drop_eq_nil_of_le hlast, Program.script_nil]
        rw [hbehind, advance_cons, Frame.advance_of_le hlast]
        exact quiet_passEnded haround hdone hpassed hlast

end Cursor

end Flock
