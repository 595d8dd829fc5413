import Flock.Proofs.Meaning.Search
import Flock.Proofs.Whole

/-!
# Cursors run programs as they are meant

Between two steps a cursor and what is left of the program need not agree to the letter:
a loop that has just come to its end may still be open on one side, and passes may have
been skipped on the other. `Tracks` says that they agree as soon as the next step has
closed what has come to its end. A tick of the meaning is a step of the cursor
(`Tracks.tick`), so from the start of a program both execute the same, whatever the
surroundings of the agent, the words that are drawn and the motion of its body
(`Tracks.plays_iff`).
-/

namespace Flock

/-- Whether a loop is abandoned by an agent that stands in the regions given. -/
def Loop.isLeft (inside : String → Bool) : Loop → Bool
  | untilIn region => inside region
  | _ => false

theorem Rest.abandon_inLoop {α : Type} {inside : String → Bool} {counted : Nat}
    {body after : Script α} (loop : Loop) (r : Rest α) :
    (inLoop counted body r after loop).abandon inside =
      if loop.isLeft inside then todo after
      else inLoop counted body (r.abandon inside) after loop := by
  cases loop <;> rfl

namespace Cursor

variable {α : Type} {p : Program α} {inside inside' : String → Bool} {c d : Cursor} {index : Nat}
  {f : Frame} {frames outer : List Frame} {r : Rest α}

/-! Loops that are abandoned at the start of a tick. -/

/-- Whether the loop of a frame is abandoned. -/
def isLeft (p : Program α) (inside : String → Bool) (f : Frame) : Bool :=
  match p.node? f.node with
  | some (.block loop _) => loop.isLeft inside
  | _ => false

theorem aroundDone?_congr {done done' : Frame → Bool} (h : ∀ g ∈ frames, done g = done' g) :
    aroundDone? done frames = aroundDone? done' frames := by
  induction frames with
  | nil => rfl
  | cons f outer ih =>
      rw [List.forall_mem_cons] at h
      rw [aroundDone?, aroundDone?, ih h.2, h.1]

theorem abandon_enclose (hnested : Nested p index frames) (r : Rest α) :
    (enclose p index frames r).abandon inside =
      match aroundDone? (isLeft p inside) frames with
      | some outer => enclose p index outer (.todo (behind p index outer))
      | none => enclose p index frames (r.abandon inside) := by
  induction frames generalizing r with
  | nil => rfl
  | cons f outer ih =>
      obtain ⟨⟨loop, kids, hnode, -⟩, -, -, houter⟩ := hnested
      rw [enclose_cons hnode, ih houter, aroundDone?]
      cases haround : aroundDone? (isLeft p inside) outer with
      | some rest => rfl
      | none =>
          simp only [Option.none_or, Rest.abandon_inLoop, isLeft, hnode]
          cases loop.isLeft inside with
          | true => rfl
          | false => exact (enclose_cons hnode _).symm

theorem abandon_here (p : Program α) (inside : String → Bool) (c : Cursor) :
    (here p c).abandon inside = here p c := by
  unfold here
  repeat' split
  all_goals rfl

theorem isDone_of_isLeft {g : Frame} (hnode : g.node = f.node) (h : isLeft p inside f) :
    g.isDone p inside := by
  unfold isLeft at h
  unfold Frame.isDone
  rw [hnode]
  cases hnode : p.node? f.node with
  | none => simp [hnode] at h
  | some node =>
      cases node with
      | action a => simp [hnode] at h
      | block loop kids =>
          simp only [hnode] at h
          cases loop with
          | times count => exact absurd h (by simp [Loop.isLeft])
          | forever => exact absurd h (by simp [Loop.isLeft])
          | untilIn region => exact h

/-- A loop that had not come to its end where the agent stood before has come to its end
now only if it runs until the agent stands where it does. -/
theorem isDone_eq_isLeft (h : f.isDone p inside = false) :
    f.isDone p inside' = isLeft p inside' f := by
  unfold Frame.isDone at h ⊢
  unfold isLeft
  cases hnode : p.node? f.node with
  | none => rfl
  | some node =>
      cases node with
      | action a => rfl
      | block loop kids =>
          cases loop with
          | times count =>
              simp only [hnode] at h
              exact h
          | forever => rfl
          | untilIn region => rfl

/-! What is left between two steps. -/

/-- A cursor has what is left of the program before it, as soon as the next step has closed
what has come to its end. -/
structure Tracks (p : Program α) (inside : String → Bool) (c : Cursor) (r : Rest α) : Prop where
  sound : Sound p c
  calm : Calm p inside c.frames
  quiet : ∃ n, Rest.Quiet inside n (r.abandon inside) (rest p inside (c.closeFinished p inside).1)

theorem poised_closeFinished (hp : p.Descends) (hc : Sound p c) (h : Calm p inside c.frames) :
    Poised p inside (c.closeFinished p inside).1 :=
  ⟨hc.closeFinished, h.closeFinished hp hc,
    fun g hg => not_isDone_closeFinished c g (List.mem_of_mem_tail hg)⟩

/-- On the search only the innermost loop can have come to its end, so closing what has is
a number of moves. -/
theorem Poised.quiet_closeFinished (hp : p.Descends) (h : Poised p inside c) :
    ∃ n, Rest.Quiet inside n (rest p inside c) (rest p inside (c.closeFinished p inside).1) := by
  cases haround : aroundDone? (·.isDone p inside) c.frames with
  | none =>
      rw [closeFinished_of_none haround]
      exact ⟨0, .refl _⟩
  | some outer =>
      obtain ⟨hopen, hcalm, hpassed⟩ := h.calm.aroundDone hp h.sound haround
      obtain ⟨inner, f, hsplit, hdone, houter⟩ := aroundDone?_eq_some haround
      have hframes : c.frames = f :: outer := by
        cases inner with
        | nil => exact hsplit
        | cons g inner =>
            have hf : f ∈ c.frames.tail := by simp [hsplit]
            rw [h.isOpen f hf] at hdone
            exact absurd hdone (by simp)
      rw [closeFinished_of_some haround, rest_of_topDone hframes hdone]
      exact quiet_settle hp hopen houter hcalm hpassed

theorem Poised.tracks (hp : p.Descends) (h : Poised p inside c)
    (hr : ∃ n, Rest.Quiet inside n (r.abandon inside) (rest p inside c)) :
    Tracks p inside c r := by
  obtain ⟨n, hquiet⟩ := hr
  obtain ⟨m, hclosed⟩ := h.quiet_closeFinished hp
  exact ⟨h.sound, h.calm, n + m, hquiet.trans hclosed⟩

theorem aroundDone?_advance (hopen : ∀ g ∈ frames, g.isDone p inside = false)
    (h : aroundDone? (isLeft p inside') frames = some outer) :
    aroundDone? (·.isDone p inside') ((⟨index, frames, none⟩ : Cursor).advance p).frames =
      some outer := by
  cases frames with
  | nil => exact absurd h (by simp [aroundDone?])
  | cons f rest =>
      rw [List.forall_mem_cons] at hopen
      have hcongr : aroundDone? (·.isDone p inside') rest = aroundDone? (isLeft p inside') rest :=
        aroundDone?_congr fun g hg => isDone_eq_isLeft (hopen.2 g hg)
      rw [aroundDone?] at h
      rw [advance_cons, aroundDone?, hcongr]
      cases hrest : aroundDone? (isLeft p inside') rest with
      | some other => rwa [hrest] at h
      | none =>
          rw [hrest, Option.none_or] at h
          split at h
          · next hleft => rwa [Option.none_or, if_pos (isDone_of_isLeft (Frame.node_advance p f) hleft)]
          · exact absurd h (by simp)

section Executed

variable (hran : ∀ g ∈ frames, g.ran) (hopen : ∀ g ∈ frames, g.isDone p inside = false)

include hran hopen

theorem quiet_settle_of_isLeft (hp : p.Descends) (hnested : Nested p index frames)
    (h : aroundDone? (isLeft p inside') frames = some outer) :
    ∃ n, Rest.Quiet inside' n (enclose p index outer (.todo (behind p index outer)))
      (rest p inside'
        ⟨(settle p inside' index outer).1, (settle p inside' index outer).2.1, none⟩) := by
  obtain ⟨inner, f, rfl, hleft, houter⟩ := aroundDone?_eq_some h
  have hmem : ∀ g ∈ outer, g ∈ inner ++ f :: outer := fun g hg => by simp [hg]
  refine quiet_settle hp hnested.of_append.around (fun g hg => ?_)
    (calm_of_ran p inside' fun g hg => hran g (hmem g hg))
    (passed_of_ran p inside' fun g hg => hran g (hmem g hg))
  rw [isDone_eq_isLeft (hopen g (hmem g hg))]
  exact houter g hg

/-- A cursor that stays on an action which is not finished. -/
theorem tracks_here (hp : p.Descends) (hc : Sound p c) (hframes : c.frames = frames) :
    Tracks p inside' c (enclose p c.index c.frames (here p c)) := by
  subst hframes
  refine ⟨hc, calm_of_ran p inside' hran, ?_⟩
  have hcongr : aroundDone? (·.isDone p inside') c.frames = aroundDone? (isLeft p inside') c.frames :=
    aroundDone?_congr fun g hg => isDone_eq_isLeft (hopen g hg)
  rw [abandon_enclose hc.nested]
  cases hleft : aroundDone? (isLeft p inside') c.frames with
  | some outer =>
      rw [closeFinished_of_some (hcongr.trans hleft)]
      exact quiet_settle_of_isLeft hran hopen hp hc.nested hleft
  | none =>
      have hnone := hcongr.trans hleft
      rw [closeFinished_of_none hnone, abandon_here,
        rest_of_not_topDone (topDone_eq_false (aroundDone?_eq_none_iff.mp hnone))]
      exact ⟨0, .refl _⟩

/-- A cursor that has gone on from an action. -/
theorem tracks_advance (hp : p.Descends) (haround : Around p index frames) :
    Tracks p inside' ((⟨index, frames, none⟩ : Cursor).advance p)
      (enclose p index frames (.todo (behind p index frames))) := by
  have hsound := haround.sound_advance
  have hcalm := calm_advance_of_ran p inside' haround.nested hran
  cases hleft : aroundDone? (isLeft p inside') frames with
  | some outer =>
      refine ⟨hsound, hcalm, ?_⟩
      have hindex : ((⟨index, frames, none⟩ : Cursor).advance p).index = index := by
        cases frames with
        | nil => exact absurd hleft (by simp [aroundDone?])
        | cons f rest => rfl
      rw [abandon_enclose haround.nested, hleft,
        closeFinished_of_some (aroundDone?_advance hopen hleft), hindex]
      exact quiet_settle_of_isLeft hran hopen hp haround.nested hleft
  | none =>
      have hnone : ∀ g ∈ frames, g.isDone p inside' = false := fun g hg => by
        rw [isDone_eq_isLeft (hopen g hg)]
        exact aroundDone?_eq_none_iff.mp hleft g hg
      have hpoised : Poised p inside' ((⟨index, frames, none⟩ : Cursor).advance p) := by
        refine ⟨hsound, hcalm, ?_⟩
        intro g hg
        rw [tail_frames_advance] at hg
        exact hnone g (List.mem_of_mem_tail hg)
      refine hpoised.tracks hp ?_
      rw [abandon_enclose haround.nested, hleft]
      exact quiet_advance haround (topDone_eq_false hnone) (passed_of_ran p inside' hran)

end Executed

theorem tracks_start (hp : p.Descends) (inside : String → Bool) :
    Tracks p inside start (.todo p.outline) := by
  have hpoised : Poised p inside start :=
    ⟨sound_start p, trivial, fun g hg => absurd hg (by simp [start])⟩
  refine hpoised.tracks hp ⟨0, ?_⟩
  exact .refl _

/-! Ticks. -/

@[simp] theorem behind_ranFrames (p : Program α) (index : Nat) (frames : List Frame) :
    behind p index (ranFrames frames) = behind p index frames := by
  rw [behind, level_ranFrames, spot_ranFrames, behind]

@[simp] theorem enclose_ranFrames (frames : List Frame) (r : Rest α) :
    enclose p index (ranFrames frames) r = enclose p index frames r := by
  induction frames generalizing r with
  | nil => rfl
  | cons f outer ih =>
      have hcons : ranFrames (f :: outer) = { f with ran := true } :: ranFrames outer := rfl
      simp only [hcons, enclose, behind_ranFrames, ih]

section Step

variable [Scalar α] [Circular α] {id : AgentId} {view : Surroundings α} {b b' : Body α}
  {words words' : WordStream}

/-- An action that succeeds has the effect on the body that it is meant to have. -/
theorem carryOut_of_execute {node : Nat} {a : Action α} (hc : Sound p c)
    (hid : c.current? p = some node) (hnode : p.node? node = some (.action a))
    (h : c.execute p id view b words a = .ok (d, b', words')) :
    b.carryOut id view words a = .ok (b', words') := by
  rcases execute_cases h with ⟨ticks, rfl, htick, rfl⟩ | ⟨ha, hperform, -⟩
  · have hticks : c.waitLeft.getD ticks.toNat = 0 ↔ ticks.toNat = 0 := by
      cases hwait : c.waitLeft with
      | none => rfl
      | some left =>
          obtain ⟨other, heq, hpos, hlt⟩ := hc.eq_wait hid hnode hwait
          obtain rfl := Action.wait.inj (Node.action.inj heq)
          rw [Option.getD_some]
          omega
    have hbody := (waitTick_eq_ok htick).1
    simp only [hticks] at hbody
    rw [Body.carryOut]
    split at hbody
    · next hzero => rw [if_pos hzero, hbody]
    · next hpos => rw [if_neg hpos, hbody, Except.map]
  · have hcarry : b.carryOut id view words a = b.perform id view words a := by
      cases a
      case wait ticks => exact absurd rfl (ha ticks)
      all_goals rfl
    rw [hcarry, hperform]

/-- After an action the cursor has what is left of the program before it, wherever the
agent goes. -/
theorem tracks_of_execute {node : Nat} {a : Action α} (hp : p.Descends) (hc : Poised p inside c)
    (hhop : c.hop p inside = .reached node a)
    (h : c.markRan.execute p id view b words a = .ok (d, b', words')) :
    Tracks p inside' d (enclose p c.index c.frames (leaves p c node a)) := by
  obtain ⟨hdone, hid, hnode⟩ := reached_of_hop hhop
  have hmark := hc.sound.markRan
  have hid' : c.markRan.current? p = some node := by rwa [current?_markRan]
  have hframes : c.markRan.frames = ranFrames c.frames := rfl
  have hopen : ∀ g ∈ c.markRan.frames, g.isDone p inside = false :=
    not_isDone_markRan (hc.underway.not_isDone hdone)
  rcases execute_eq_ok hmark hid' hnode h with ⟨rfl, hlast⟩ | ⟨ticks, left, rfl, hleft, hpos, rfl⟩
  · have haround : Around p c.markRan.index c.markRan.frames :=
      hmark.around hid' (by rwa [topDone_markRan])
    have hleaves : leaves p c node a = .todo (behind p c.index c.frames) := by
      cases a with
      | wait ticks =>
          have hdue : c.waitLeft.getD ticks.toNat - 1 = 0 := Nat.sub_eq_zero_of_le (hlast ticks rfl)
          rw [leaves, hdue, Rest.ofWait, if_pos rfl]
      | _ => rfl
    have htracks : Tracks p inside' _ _ := tracks_advance ran_of_mem_markRan hopen hp haround
    rw [hframes, enclose_ranFrames, behind_ranFrames] at htracks
    rw [hleaves]
    exact htracks
  · have hnext : Sound p { c.markRan with waitLeft := some left } :=
      hmark.execute (by rwa [topDone_markRan]) hid' hnode h
    have hhere : here p { c.markRan with waitLeft := some left } = leaves p c node (.wait ticks) := by
      have hdue : c.waitLeft.getD ticks.toNat = left + 1 := hleft
      have hid'' : ({ c.markRan with waitLeft := some left } : Cursor).current? p = some node := hid'
      rw [leaves, hdue, Nat.add_sub_cancel, Rest.ofWait, if_neg (by omega), here, hid'']
      simp only [hnode, hframes, behind_ranFrames]
      rfl
    have htracks : Tracks p inside' _ _ := tracks_here ran_of_mem_markRan hopen hp hnext rfl
    rwa [hhere, hframes, enclose_ranFrames] at htracks

/-- What a step finds and executes is what is to be executed, and the cursor then has what is
left, wherever the agent goes. -/
theorem Tracks.acts {node : Nat} {a : Action α} (hp : p.Sound)
    (h : Tracks p (view.inRegion b.position) c r)
    (haction : (c.found p (view.inRegion b.position)).action? = some (node, a))
    (hexecute : (c.found p (view.inRegion b.position)).cursor.markRan.execute p id view b words a =
      .ok (d, b', words')) :
    ∃ n next, (r.abandon (view.inRegion b.position)).Finds (view.inRegion b.position) n
        (some (node, a, next)) ∧
      b.carryOut id view words a = .ok (b', words') ∧ ∀ inside', Tracks p inside' d next := by
  have hfirst := poised_closeFinished hp.descends h.sound h.calm
  obtain ⟨n, hquiet⟩ := h.quiet
  obtain ⟨k, hends⟩ := endsIn_found haction
  have hlast := (hfirst.leads hp.descends hends.leads).1
  have hhop := hop_found haction
  obtain ⟨-, hid, hnode⟩ := reached_of_hop hhop
  have heffect := carryOut_of_execute hlast.sound.markRan (by rwa [current?_markRan]) hnode hexecute
  rcases hfirst.finds_of_endsIn hp hends with ⟨node', a', l, haction', hfinds⟩ | ⟨hnone, -⟩
  · obtain ⟨rfl, rfl⟩ := Prod.mk.inj (Option.some.inj (haction.symm.trans haction'))
    exact ⟨_, _, hquiet.finds hfinds, heffect,
      fun _ => tracks_of_execute hp.descends hlast hhop hexecute⟩
  · exact absurd (hnone.symm.trans haction) (by simp)

omit [Scalar α] [Circular α] in
/-- Where a step finds nothing the search has come to the end of the program, or moves are made
for ever, those of the search among them. -/
theorem Tracks.idle (hp : p.Sound) (h : Tracks p inside c r)
    (hnone : (c.found p inside).action? = none) :
    Poised p inside (c.found p inside).cursor ∧
      ((c.found p inside).cursor.isExhausted p ∧ (∃ n, (r.abandon inside).Finds inside n none) ∨
        (∀ n result, ¬(r.abandon inside).Finds inside n result) ∧
          ∃ n, Rest.Quiet inside n (r.abandon inside)
            (rest p inside (c.found p inside).cursor)) := by
  have hfirst := poised_closeFinished hp.descends h.sound h.calm
  obtain ⟨n, hquiet⟩ := h.quiet
  have hendless {k : Nat}
      (hleads : Leads p inside k (c.closeFinished p inside).1 (c.found p inside).cursor)
      (hnever : ∀ l result,
        ¬Rest.Finds inside l (rest p inside (c.closeFinished p inside).1) result) :
      (∀ l result, ¬(r.abandon inside).Finds inside l result) ∧
        ∃ l, Rest.Quiet inside l (r.abandon inside) (rest p inside (c.found p inside).cursor) := by
    obtain ⟨-, l, hsearch⟩ := hfirst.leads hp.descends hleads
    refine ⟨fun i result hfinds => ?_, _, hquiet.trans hsearch⟩
    obtain ⟨j, -, hrest⟩ := hfinds.of_quiet hquiet
    exact hnever j result hrest
  rcases found_cases p inside c with ⟨k, hends⟩ | ⟨hleads, -⟩
  · refine ⟨(hfirst.leads hp.descends hends.leads).1, ?_⟩
    rcases hfirst.finds_of_endsIn hp hends with ⟨_, _, _, hsome, -⟩ | ⟨-, hended | hnever⟩
    · exact absurd (hnone.symm.trans hsome) (by simp)
    · obtain ⟨hexhausted, l, hfinds⟩ := hended
      exact .inl ⟨hexhausted, _, hquiet.finds hfinds⟩
    · exact .inr (hendless hends.leads hnever)
  · exact ⟨(hfirst.leads hp.descends hleads).1, .inr (hendless hleads (hfirst.not_finds hp hleads))⟩

/-- A step of the cursor is a tick of the meaning. -/
theorem Tracks.tick {m : Moment α} {turn : Turn α} (hp : p.Sound)
    (h : Tracks p (m.view.inRegion b.position) c r)
    (hstep : c.step p id m.view b m.words = (d, .ok turn)) :
    ∃ next, Tick id m r b turn.report.executed next turn.body ∧
      Tracks p (m.view.inRegion turn.body.position) d next := by
  have houtcome := outcome_step p id m.view c b m.words
  rw [hstep] at houtcome
  cases houtcome with
  | executed haction hexecute =>
      obtain ⟨n, next, hfinds, heffect, htracks⟩ := h.acts hp haction hexecute
      exact ⟨next, .acts hfinds heffect, htracks _⟩
  | idle haction =>
      -- the search has come to rest or was cut short; in both cases nothing has moved the agent
      obtain ⟨hlast, hended | ⟨hnever, hquiet⟩⟩ := h.idle hp haction
      · obtain ⟨hexhausted, n, hfinds⟩ := hended
        refine ⟨.todo .done, .ended hfinds, hlast.tracks hp.descends ⟨0, ?_⟩⟩
        rw [rest_of_isExhausted hexhausted]
        exact .refl _
      · exact ⟨r, .endless hnever, hlast.tracks hp.descends hquiet⟩

/-- What the steps of a cursor execute, one after another, while its steps alone change the
body of the agent. -/
def executions (p : Program α) (id : AgentId) :
    Cursor → Body α → List (Moment α) → Except (Fault α) (List (Option (Nat × Action α)))
  | _, _, [] => .ok []
  | c, b, m :: moments =>
    match c.step p id m.view b m.words with
    | (_, .error fault) => .error fault
    | (c, .ok turn) => (executions p id c turn.body moments).map (turn.report.executed :: ·)

theorem Tracks.plays_iff {inRegion : Point α → String → Bool} {moments : List (Moment α)}
    {executed later : List (Option (Nat × Action α))} (hp : p.Sound)
    (hregions : ∀ m ∈ moments, m.view.inRegion = inRegion)
    (h : Tracks p (inRegion b.position) c r) (hrun : executions p id c b moments = .ok executed) :
    Plays id r b moments later ↔ later = executed := by
  induction moments generalizing c r b executed later with
  | nil =>
      obtain rfl := Except.ok.inj hrun
      constructor
      · intro hplays
        cases hplays
        rfl
      · rintro rfl
        exact .nil r b
  | cons m moments ih =>
      rw [List.forall_mem_cons] at hregions
      obtain ⟨hregion, hregions⟩ := hregions
      rw [executions] at hrun
      cases hstep : c.step p id m.view b m.words with
      | mk d outcome =>
          cases outcome with
          | error fault => simp [hstep] at hrun
          | ok turn =>
              simp only [hstep] at hrun
              cases hlater : executions p id d turn.body moments with
              | error fault => simp [hlater, Except.map] at hrun
              | ok rest =>
                  rw [hlater, Except.map, Except.ok.injEq] at hrun
                  subst hrun
                  rw [← hregion] at h
                  obtain ⟨next, htick, htracks⟩ := h.tick hp hstep
                  rw [hregion] at htracks
                  constructor
                  · intro hplays
                    cases hplays with
                    | cons htick' hplays =>
                        obtain ⟨rfl, rfl, rfl⟩ := htick.unique htick'
                        rw [(ih hregions htracks hlater).mp hplays]
                  · rintro rfl
                    exact .cons htick ((ih hregions htracks hlater).mpr rfl)

/-- From the start of a program the steps of a cursor execute what the program means, tick
after tick, and there is nothing else that it means. The regions are the same all along;
all else about the surroundings, and the words that are drawn, may be different at every
tick. -/
theorem executions_iff_plays {events : List (Event α)} (hp : Program.ofEvents events = .ok p)
    {inRegion : Point α → String → Bool} {moments : List (Moment α)}
    (hregions : ∀ m ∈ moments, m.view.inRegion = inRegion) (id : AgentId) (b : Body α)
    {executed : List (Option (Nat × Action α))}
    (hrun : executions p id start b moments = .ok executed)
    (meant : List (Option (Nat × Action α))) :
    Plays id (.todo p.outline) b moments meant ↔ meant = executed := by
  have hprogram := (Program.sound_of_ofEvents hp).1
  exact (tracks_start hprogram.descends _).plays_iff hprogram hregions hrun

/-- A wait until the agent has come to a region, then two passes, then nothing. -/
theorem executions_iff_plays_until_and_times :
    let regions : List (Region Whole) := [⟨"a", .circle ⟨3, 0⟩ 1⟩]
    ∃ p : Program Whole,
      Program.ofEvents [.move ⟨3, 0⟩ 1, .startUntil "a", .wait 2, .finish, .startTimes 2,
        .signal "x", .finish] = .ok p ∧
      Plays ⟨0, 0⟩ (.todo p.outline) (.atPoint ⟨0, 0⟩)
        (List.replicate 6 ⟨.alone regions, .ofSeed 0⟩)
        [some (0, .move ⟨3, 0⟩ 1), some (1, .wait 2), some (1, .wait 2), some (3, .signal "x"),
          some (3, .signal "x"), none] := by
  intro regions
  have hbuilt : Program.ofEvents [.move ⟨3, 0⟩ 1, .startUntil "a", .wait 2, .finish, .startTimes 2,
      .signal "x", .finish] = .ok (⟨#[.action (.move ⟨3, 0⟩ 1), .action (.wait 2),
        .block (.untilIn "a") [1], .action (.signal "x"), .block (.times 2) [3]],
        [0, 2, 4]⟩ : Program Whole) := by decide
  have hregions : ∀ m ∈ List.replicate 6 (⟨.alone regions, .ofSeed 0⟩ : Moment Whole),
      m.view.inRegion = Region.anyContains regions := fun m hm => by
    rw [List.eq_of_mem_replicate hm]
    rfl
  exact ⟨_, hbuilt, (executions_iff_plays hbuilt hregions _ _ rfl _).mpr rfl⟩

end Step

end Cursor

end Flock
