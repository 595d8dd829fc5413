import Flock.Proofs.Cursor.Unfinished
import Flock.Proofs.Meaning.Residual

/-!
# The search and the meaning of programs

The hops of a cursor are moves of what it leaves of the program, and so the search for
the next action finds what the meaning of the program says. A search may also go on for
ever: then the moves do, for every loop entered is at least one of them, and only so many
loops can be left without one being entered (`Poised.endsIn_of_finds`).
-/

namespace Flock

namespace Cursor

variable {α : Type} {p : Program α} {inside : String → Bool} {c d : Cursor} {index : Nat}
  {f : Frame} {frames outer : List Frame}

/-- What holds of a cursor on the search for an action: it is sound and calm, and no loop
around the innermost one has come to its end. -/
structure Poised (p : Program α) (inside : String → Bool) (c : Cursor) : Prop where
  sound : Sound p c
  calm : Calm p inside c.frames
  isOpen : ∀ g ∈ c.frames.tail, g.isDone p inside = false

theorem pending_of_current? {id : Nat} (h : c.current? p = some id) :
    c.pending p = id :: (level p c.frames).drop (spot c.index c.frames + 1) := by
  rw [current?_eq] at h
  obtain ⟨hlt, rfl⟩ := List.getElem?_eq_some_iff.mp h
  exact List.drop_eq_getElem_cons hlt

theorem Poised.underway (h : Poised p inside c) : Underway p inside c := h.isOpen

/-! Hops. -/

theorem Poised.closed (hp : p.Descends) (h : Poised p inside c)
    (hhop : c.hop p inside = .closed d) :
    Poised p inside d ∧ ∃ n, Rest.Quiet inside n (rest p inside c) (rest p inside d) := by
  obtain ⟨f, outer, hframes, hdone, rfl⟩ := closed_of_hop hhop
  have hsound := h.sound.closed hhop
  have hcalm := h.calm.closed hp h.sound hhop
  have hopen := h.isOpen
  have hnested := h.sound.nested
  have hinside := h.calm
  rw [hframes] at hopen hnested hinside
  refine ⟨⟨hsound, hcalm, h.underway.closed hhop⟩, ?_⟩
  rw [rest_of_topDone hframes hdone]
  exact quiet_advance hnested.around (topDone_eq_false hopen) (hinside.passed hp hnested hdone)

/-- A loop that has come to its end when it is entered is left behind. -/
theorem quiet_enter_of_isDone {id : Nat} {loop : Loop} {kids : List Nat}
    (hnode : p.node? id = some (.block loop kids)) (hdone : (Frame.enter id).isDone p inside)
    (after : Script α) :
    ∃ n, Rest.Quiet inside n (Rest.enter inside (p.script kids) after loop) (.todo after) := by
  cases loop with
  | forever =>
      rw [Frame.isDone_forever (f := .enter id) hnode] at hdone
      exact absurd hdone (by simp)
  | untilIn region =>
      rw [Frame.isDone_untilIn (f := .enter id) hnode] at hdone
      rw [Rest.enter, if_pos hdone]
      exact ⟨0, .refl _⟩
  | times count =>
      rw [Frame.isDone_times (f := .enter id) hnode] at hdone
      rw [Rest.enter]
      split
      · exact ⟨0, .refl _⟩
      · next hcount =>
        have hkids : kids = [] := by simpa [Frame.enter, hcount] using hdone
        rw [hkids, Program.script_nil]
        exact Rest.quiet_passes ⟨0, .refl _⟩ after _

theorem enter_of_not_isDone {id : Nat} {loop : Loop} {kids : List Nat}
    (hnode : p.node? id = some (.block loop kids))
    (hdone : (Frame.enter id).isDone p inside = false) (after : Script α) :
    Rest.enter inside (p.script kids) after loop =
      Rest.inLoop 0 (p.script kids) (.todo (p.script kids)) after loop := by
  cases loop with
  | forever => rfl
  | untilIn region =>
      rw [Frame.isDone_untilIn (f := .enter id) hnode] at hdone
      rw [Rest.enter, if_neg (by simp [hdone]), Rest.inLoop]
  | times count =>
      have hcount : 0 < count.toNat := Frame.isOpen_of_not_isDone hdone count kids hnode
      rw [Rest.enter, if_neg (Nat.ne_of_gt hcount), Rest.inLoop]

theorem Poised.entered (hp : p.Descends) (h : Poised p inside c)
    (hhop : c.hop p inside = .entered d) :
    Poised p inside d ∧ ∃ n, Rest.Quiet inside (n + 1) (rest p inside c) (rest p inside d) := by
  have hsound := h.sound.entered hhop
  have hcalm := h.calm.entered hhop
  obtain ⟨hdone, id, loop, kids, hid, hnode, rfl⟩ := entered_of_hop hhop
  have hwait := h.sound.waitLeft_eq_none hid hnode (by simp)
  have hopen := h.underway.not_isDone hdone
  have hmove : Rest.Quiet inside 1 (rest p inside c)
      (enclose p c.index c.frames
        (.enter inside (p.script kids) (behind p c.index c.frames) loop)) := by
    rw [rest_of_not_topDone hdone, here_of_waitLeft hwait, pending_of_current? hid,
      Program.script_cons_block hp hnode]
    exact quiet_enclose (.single rfl)
  refine ⟨⟨hsound, hcalm, hopen⟩, ?_⟩
  rw [hwait]
  cases hentered : (Frame.enter id).isDone p inside with
  | true =>
      obtain ⟨n, hleft⟩ := quiet_enter_of_isDone hnode hentered (behind p c.index c.frames)
      refine ⟨n, ?_⟩
      rw [Nat.add_comm, rest_of_topDone (c := ⟨c.index, .enter id :: c.frames, none⟩) rfl hentered]
      exact hmove.trans (quiet_enclose hleft)
  | false =>
      refine ⟨0, ?_⟩
      rw [enter_of_not_isDone hnode hentered] at hmove
      rw [rest_fresh rfl hnode hentered]
      exact hmove

theorem Poised.leads {n : Nat} (hp : p.Descends) (h : Poised p inside c)
    (hleads : Leads p inside n c d) :
    Poised p inside d ∧ ∃ m, Rest.Quiet inside m (rest p inside c) (rest p inside d) := by
  induction hleads with
  | refl => exact ⟨h, 0, .refl _⟩
  | entered hhop _ ih =>
      obtain ⟨hnext, n, hquiet⟩ := h.entered hp hhop
      obtain ⟨hlast, m, hquiet'⟩ := ih hnext
      exact ⟨hlast, _, hquiet.trans hquiet'⟩
  | closed hhop _ ih =>
      obtain ⟨hnext, n, hquiet⟩ := h.closed hp hhop
      obtain ⟨hlast, m, hquiet'⟩ := ih hnext
      exact ⟨hlast, _, hquiet.trans hquiet'⟩

/-! Ends of the search. -/

/-- What is left inside the frames when an action has been executed. -/
def leaves (p : Program α) (c : Cursor) (id : Nat) : Action α → Rest α
  | .wait ticks =>
    .ofWait id ticks (c.waitLeft.getD ticks.toNat - 1) (behind p c.index c.frames)
  | _ => .todo (behind p c.index c.frames)

theorem move_here {id : Nat} {a : Action α} (hc : Sound p c) (hid : c.current? p = some id)
    (hnode : p.node? id = some (.action a)) :
    (here p c).move inside = .acts id a (leaves p c id a) := by
  cases hwait : c.waitLeft with
  | none =>
      rw [here_of_waitLeft hwait, pending_of_current? hid, Program.script_cons_action hnode,
        Rest.move]
      cases a with
      | wait ticks => rw [Rest.afterAction, leaves, hwait, Option.getD_none, behind]
      | _ => rfl
  | some left =>
      obtain ⟨ticks, heq, -⟩ := hc.eq_wait hid hnode hwait
      obtain rfl := Node.action.inj heq
      rw [here, hwait, hid]
      simp only [hnode]
      rw [Rest.move, leaves, hwait, Option.getD_some]

theorem move_rest_of_reached {id : Nat} {a : Action α} (hc : Sound p c)
    (hhop : c.hop p inside = .reached id a) :
    (rest p inside c).move inside =
      .acts id a (enclose p c.index c.frames (leaves p c id a)) := by
  obtain ⟨hdone, hid, hnode⟩ := reached_of_hop hhop
  rw [rest_of_not_topDone hdone]
  exact move_enclose_acts (move_here hc hid hnode)

theorem here_of_pending_nil (h : c.pending p = []) : here p c = .todo .done := by
  have hnone : c.current? p = none := by
    rw [current?_eq]
    exact List.getElem?_eq_none (List.drop_eq_nil_iff.mp h)
  rw [here, hnone]
  cases c.waitLeft <;> simp [h]

theorem rest_of_isExhausted (h : c.isExhausted p) : rest p inside c = .todo .done := by
  simp only [isExhausted, Bool.and_eq_true, List.isEmpty_iff, decide_eq_true_iff] at h
  obtain ⟨hframes, hindex⟩ := h
  have hpending : c.pending p = [] := by
    rw [pending, hframes, level, spot, List.drop_eq_nil_of_le hindex]
  rw [rest_of_not_topDone (by rw [hframes, topDone]), hframes, enclose,
    here_of_pending_nil hpending]

/-- At a loop without end that has nothing to run, moves are made for ever. -/
theorem not_finds_of_atEmptyLoop (h : AtEmptyLoop p c)
    (hdone : topDone p inside c.frames = false) :
    ∀ n result, ¬Rest.Finds inside n (rest p inside c) result := by
  obtain ⟨f, outer, loop, hframes, hnode, hloop⟩ := h
  have hpending : c.pending p = [] := by
    rw [pending, hframes, level, Frame.children_eq hnode, List.drop_nil]
  rw [rest_of_not_topDone hdone, here_of_pending_nil hpending, hframes, enclose_cons hnode,
    Program.script_nil]
  refine Rest.not_finds_of_move_eq (Rest.Quiet.move_eq (quiet_enclose (.single ?_)))
  cases loop with
  | times count => exact absurd rfl (hloop count)
  | forever => rfl
  | untilIn region => rfl

/-- What the meaning of the program says where the search ends. -/
theorem Poised.finds_of_endsIn {n : Nat} {found : Found α} (hp : p.Sound) (h : Poised p inside c)
    (hends : EndsIn p inside n c found) :
    (∃ id a k, found.action? = some (id, a) ∧
      Rest.Finds inside k (rest p inside c)
        (some (id, a, enclose p found.cursor.index found.cursor.frames
          (leaves p found.cursor id a)))) ∨
    found.action? = none ∧
      (found.cursor.isExhausted p ∧ (∃ k, Rest.Finds inside k (rest p inside c) none) ∨
        ∀ k result, ¬Rest.Finds inside k (rest p inside c) result) := by
  obtain ⟨hlast, m, hquiet⟩ := h.leads hp.descends hends.leads
  have hhop := hends.hop_eq
  cases haction : found.action? with
  | some result =>
      obtain ⟨id, a⟩ := result
      rw [haction] at hhop
      exact .inl ⟨id, a, m, rfl, hquiet.finds (.acts (move_rest_of_reached hlast.sound hhop))⟩
  | none =>
      rw [haction] at hhop
      refine .inr ⟨rfl, ?_⟩
      rcases exhausted_or_atEmptyLoop hp hlast.sound hhop with hexhausted | hempty
      · refine .inl ⟨hexhausted, m, hquiet.finds (.ended ?_)⟩
        rw [rest_of_isExhausted hexhausted, Rest.move]
      · right
        intro k result hfinds
        obtain ⟨l, -, hrest⟩ := hfinds.of_quiet hquiet
        exact not_finds_of_atEmptyLoop hempty (rest_of_hop hhop).1 l result hrest

/-- Where the meaning of the program finds something, the search ends. The induction is on
the number of moves, and for hops that are no move on the number of frames. -/
theorem Poised.endsIn_of_finds {n : Nat} {result : Option (Nat × Action α × Rest α)}
    (hp : p.Descends) (h : Poised p inside c) (hfinds : Rest.Finds inside n (rest p inside c) result) :
    ∃ m found, EndsIn p inside m c found := by
  induction n using Nat.strongRecOn generalizing c with
  | ind n ihMoves =>
      induction hlength : c.frames.length using Nat.strongRecOn generalizing c n with
      | ind depth ihFrames =>
          cases hhop : c.hop p inside with
          | reached id a => exact ⟨0, _, .reached hhop⟩
          | rest => exact ⟨0, _, .rest hhop⟩
          | entered d =>
              obtain ⟨hnext, k, hquiet⟩ := h.entered hp hhop
              obtain ⟨l, hn, hrest⟩ := hfinds.of_quiet hquiet
              obtain ⟨m, found, hends⟩ := ihMoves l (by omega) hnext hrest
              exact ⟨m + 1, found, .entered hhop hends⟩
          | closed d =>
              obtain ⟨hnext, k, hquiet⟩ := h.closed hp hhop
              obtain ⟨l, hn, hrest⟩ := hfinds.of_quiet hquiet
              have hfewer : d.frames.length < depth := by
                obtain ⟨f, outer, hframes, -, rfl⟩ := closed_of_hop hhop
                rw [length_frames_advance, ← hlength, hframes]
                exact Nat.lt_succ_self _
              obtain ⟨m, found, hends⟩ := ihFrames d.frames.length hfewer l
                (fun l' hl' => ihMoves l' (by omega)) hnext hrest rfl
              exact ⟨m + 1, _, .closed hhop hends⟩

/-- Where a search does not end, nothing is found. -/
theorem Poised.not_finds (hp : p.Sound) (h : Poised p inside c)
    (hleads : Leads p inside (hopLimit p) c d) :
    ∀ n result, ¬Rest.Finds inside n (rest p inside c) result := by
  intro n result hfinds
  obtain ⟨m, found, hends⟩ := h.endsIn_of_finds hp.descends hfinds
  obtain ⟨k, rest, hm, -⟩ := hends.of_leads hleads
  have := lt_hopLimit hp h.sound hends
  omega

/-! The first phase of a step. -/

theorem quiet_settle (hp : p.Descends) (haround : Around p index frames)
    (hopen : ∀ g ∈ frames, g.isDone p inside = false) (hcalm : Calm p inside frames)
    (hpassed : Passed p inside frames) :
    ∃ n, Rest.Quiet inside n (enclose p index frames (.todo (behind p index frames)))
      (rest p inside
        ⟨(settle p inside index frames).1, (settle p inside index frames).2.1, none⟩) := by
  induction frames with
  | nil => exact ⟨0, .refl _⟩
  | cons f outer ih =>
      obtain ⟨n, hquiet⟩ := quiet_advance haround (topDone_eq_false hopen) hpassed
      rw [advance_cons] at hquiet
      have hnested := haround.nested.advance (haround.isOpen f rfl)
      have hnext := hcalm.advance haround.nested hpassed
      simp only [settle]
      split
      · next hdone =>
        obtain ⟨m, hquiet'⟩ := ih hnested.around (fun g hg => hopen g (List.mem_cons_of_mem _ hg))
          hnext.2.2 (hnext.passed hp hnested hdone)
        rw [rest_of_topDone rfl hdone] at hquiet
        exact ⟨n + m, hquiet.trans hquiet'⟩
      · exact ⟨n, hquiet⟩

end Cursor

end Flock
