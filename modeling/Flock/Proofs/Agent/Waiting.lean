import Flock.Proofs.Agent.Headless
import Flock.Proofs.Cursor.Standing
import Flock.Proofs.Meaning.Agreement

/-!
# Waits

A cursor keeps one number for all the waits of its program: the ticks that are left of the
wait it stands on. While ticks are left the cursor does not go anywhere, so the number
belongs to the wait under the cursor and to no other (`Cursor.continues_of_waitLeft`). It is
gone with the last tick, and as soon as the search for the next action moves the cursor, into a
loop or out of one (`Cursor.Sound.stands_of_waitLeft`).

So a wait that a cursor comes to (`Cursor.ComesTo`) is executed in as many steps as it has
ticks, and in one if it has none, unless the cursor is reset or the agent gets to where a loop
around the wait ends (`Cursor.accounted_of_comesTo`).
-/

namespace Flock

/-- The circumstances of one step. -/
structure Occasion (α : Type) where
  id : AgentId
  view : Surroundings α
  body : Body α
  words : WordStream

/-- What is done with a cursor: a step is taken, or it is put at the start again. -/
inductive Deed (α : Type) where
  | step (occasion : Occasion α)
  | reset

namespace Occasion

variable {α : Type}

/-- The regions that the agent stands in. -/
def inside (o : Occasion α) : String → Bool := o.view.inRegion o.body.position

def step [Scalar α] [Circular α] (o : Occasion α) (p : Program α) (c : Cursor) :
    Cursor × Except (Fault α) (Turn α) :=
  c.step p o.id o.view o.body o.words

end Occasion

namespace Deed

variable {α : Type}

def HasHeading : Deed α → Prop
  | step o => o.body.heading.isSome
  | reset => True

/-- Whether a wait inside the loops of the given frames does not outlast the deed: it is a reset,
or a step of an agent that stands where one of the loops ends. -/
def CutsShort (p : Program α) (frames : List Frame) : Deed α → Prop
  | step o => ∃ f ∈ frames, Cursor.isLeft p o.inside f
  | reset => True

def apply [Scalar α] [Circular α] (p : Program α) (c : Cursor) : Deed α → Cursor
  | step o => (o.step p c).1
  | reset => .start

end Deed

namespace Cursor

variable {α : Type} {p : Program α} {inside inside' : String → Bool} {c d : Cursor} {node : Nat}
  {a : Action α} {outer : List Frame} {n k : Nat}

/-! The ticks that are left while the cursor moves. -/

@[simp] theorem waitLeft_advance (p : Program α) (c : Cursor) :
    (c.advance p).waitLeft = c.waitLeft := by
  unfold advance
  split <;> rfl

theorem Leads.waitLeft_eq_none (h : Leads p inside n c d) (hc : c.waitLeft = none) :
    d.waitLeft = none := by
  induction h with
  | refl => exact hc
  | entered hhop _ ih =>
      obtain ⟨-, id, loop, kids, -, -, rfl⟩ := entered_of_hop hhop
      exact ih hc
  | closed hhop _ ih =>
      obtain ⟨f, outer, -, -, rfl⟩ := closed_of_hop hhop
      exact ih (waitLeft_advance p _)

theorem Leads.eq_of_zero (h : Leads p inside 0 c d) : d = c := by
  cases h
  rfl

/-- Ticks are left of a wait only on that wait, so the first hop leaves none. -/
theorem Sound.waitLeft_of_leads (hc : Sound p c) (h : Leads p inside (n + 1) c d) :
    d.waitLeft = none := by
  cases h with
  | entered hhop hleads =>
      obtain ⟨-, id, loop, kids, hid, hnode, rfl⟩ := entered_of_hop hhop
      exact hleads.waitLeft_eq_none (hc.waitLeft_eq_none hid hnode (by simp))
  | closed hhop hleads =>
      obtain ⟨f, outer, -, -, rfl⟩ := closed_of_hop hhop
      exact hleads.waitLeft_eq_none (waitLeft_advance p _)

/-- A search that ends with ticks left has not moved the cursor, which stands on a wait. -/
theorem Sound.stands_of_waitLeft (hc : Sound p c) {left : Nat}
    (hleft : (c.found p inside).cursor.waitLeft = some left) :
    (c.found p inside).cursor = c ∧ ∃ node ticks, Stands p inside c node (.wait ticks) := by
  obtain ⟨n, hleads⟩ := leads_found p inside c
  cases haround : aroundDone? (·.isDone p inside) c.frames with
  | some outer =>
      have hnone := hleads.waitLeft_eq_none (by rw [closeFinished_of_some haround])
      exact absurd (hnone.symm.trans hleft) (by simp)
  | none =>
      rw [closeFinished_of_none haround] at hleads
      cases n with
      | zero =>
          have hsame := hleads.eq_of_zero
          rw [hsame] at hleft
          obtain ⟨node, ticks, hid, hnode, -⟩ := hc.wait left hleft
          exact ⟨hsame, node, ticks, aroundDone?_eq_none_iff.mp haround, hid, hnode⟩
      | succ n =>
          have hnone := hc.waitLeft_of_leads hleads
          exact absurd (hnone.symm.trans hleft) (by simp)

/-! Places where a wait is held. -/

/-- The place of an action is the same in regions where no loop around it ends. -/
theorem Stands.elsewhere (h : Stands p inside c node a)
    (hleft : ∀ f ∈ c.frames, isLeft p inside' f = false) : Stands p inside' c node a := by
  refine ⟨fun g hg => ?_, h.current, h.action⟩
  rw [isDone_eq_isLeft (h.unfinished g hg)]
  exact hleft g hg

theorem Stands.withWait (h : Stands p inside c node a) (waitLeft : Option Nat) :
    Stands p inside { c with waitLeft } node a :=
  ⟨h.unfinished, h.current, h.action⟩

/-- The cursor after a number of ticks of a wait, at least one, at the place of the wait. -/
def held (p : Program α) (c : Cursor) (ticks k : Nat) : Cursor :=
  if k < max 1 ticks then { c with waitLeft := some (ticks - k) }
  else ({ c with waitLeft := none } : Cursor).advance p

theorem held_of_lt (h : k < max 1 n) : held p c n k = { c with waitLeft := some (n - k) } :=
  if_pos h

/-- It does not matter how many ticks were left. -/
theorem held_congr (hindex : c.index = d.index) (hframes : c.frames = d.frames) :
    held p c n k = held p d n k := by
  simp only [held, advance, hindex, hframes]

/-- A step from inside a loop that has come to its end goes on from behind the outermost such
loop, with no tick of any wait left. -/
theorem found_of_aroundDone (h : aroundDone? (·.isDone p inside) c.frames = some outer) :
    (∃ n, Leads p inside n ((⟨c.index, outer, none⟩ : Cursor).advance p)
      (c.found p inside).cursor) ∧ 0 < c.closedIn p inside ∧
      (c.found p inside).cursor.waitLeft = none := by
  obtain ⟨n, hsettle⟩ := leads_settle p inside c.index outer
  obtain ⟨m, hleads⟩ := leads_found p inside c
  rw [closeFinished_of_some h] at hleads
  have hclosed : 0 < (c.closeFinished p inside).2 := by simp [closeFinished, h]
  exact ⟨⟨n + m, hsettle.trans hleads⟩, Nat.add_pos_left hclosed _, hleads.waitLeft_eq_none rfl⟩

/-! Steps and runs. -/

/-- A step comes to a wait: it finds it, and the cursor did not stand on it in the midst of it. -/
structure ComesTo (p : Program α) (inside : String → Bool) (c : Cursor) (node : Nat)
    (ticks : UInt32) : Prop where
  action : (c.found p inside).action? = some (node, .wait ticks)
  fresh : c.waitLeft = none ∨ (c.found p inside).cursor ≠ c

theorem ComesTo.waitLeft_eq_none {ticks : UInt32} (hc : Sound p c)
    (h : ComesTo p inside c node ticks) : (c.found p inside).cursor.waitLeft = none := by
  cases hleft : (c.found p inside).cursor.waitLeft with
  | none => rfl
  | some left =>
      obtain ⟨hsame, -⟩ := hc.stands_of_waitLeft hleft
      rw [hsame] at hleft
      rcases h.fresh with hnone | hmoved
      · exact absurd (hnone.symm.trans hleft) (by simp)
      · exact absurd hsame hmoved

variable [Scalar α] [Circular α] {o first : Occasion α} {ticks : UInt32} {deeds : Nat → Deed α}

/-- The cursor after a number of deeds. -/
def cursorAt (p : Program α) (deeds : Nat → Deed α) (c : Cursor) : Nat → Cursor
  | 0 => c
  | k + 1 => (deeds k).apply p (cursorAt p deeds c k)

theorem Reachable.cursorAt (hc : Reachable p c) (deeds : Nat → Deed α) (k : Nat) :
    Reachable p (cursorAt p deeds c k) := by
  induction k with
  | zero => exact hc
  | succ k ih =>
      rw [Cursor.cursorAt]
      cases deeds k with
      | step o => exact ih.step o.id o.view o.body o.words
      | reset => exact .start

/-- What a step comes to that executes one tick of a wait. -/
structure Ticked (o : Occasion α) (node : Nat) (ticks : UInt32) (turn : Turn α) : Prop where
  executed : turn.report.executed = some (node, .wait ticks)
  body : if ticks.toNat = 0 then turn.body = o.body else o.body.moveStep = .ok turn.body
  words : turn.words = o.words

/-- One tick of a wait, with a number of them behind it. -/
theorem tick_of_found (hdue : (c.found p o.inside).action? = some (node, .wait ticks))
    (hheading : o.body.heading.isSome) (hk : k < max 1 ticks.toNat)
    (hleft : (c.found p o.inside).cursor.waitLeft.getD ticks.toNat = ticks.toNat - k) :
    ∃ turn, o.step p c =
        (held p (c.found p o.inside).cursor.markRan ticks.toNat (k + 1), .ok turn) ∧
      Ticked o node ticks turn := by
  let here := (c.found p o.inside).cursor.markRan
  obtain ⟨d, b', hexecute, htick⟩ :=
    execute_wait_of_heading hheading p here o.id o.view o.words ticks
  have hleft : here.waitLeft.getD ticks.toNat = ticks.toNat - k := hleft
  obtain ⟨hbody, hd⟩ := waitTick_eq_ok htick
  rw [hleft] at hbody hd
  have hheld : d = held p here ticks.toNat (k + 1) := by
    rcases hd with ⟨rfl, hlast⟩ | ⟨left, hmore, hpos, rfl⟩
    · rw [held, if_neg (by omega)]
    · rw [held_of_lt (by omega), Nat.sub_add_eq, hmore, Nat.add_sub_cancel]
  refine ⟨_, (step_of_execute_eq_ok hdue hexecute).trans (by rw [hheld]), rfl, ?_, rfl⟩
  by_cases hzero : ticks.toNat = 0
  · rw [if_pos (by omega)] at hbody
    rwa [if_pos hzero]
  · rw [if_neg (by omega)] at hbody
    rwa [if_neg hzero]

/-- As long as nothing cuts it short, a wait is executed tick by tick at its place. -/
theorem ticks_of_comesTo (hc : Sound p c) (hheading : ∀ k, (deeds k).HasHeading)
    (hfirst : deeds 0 = .step first) (hcomes : ComesTo p first.inside c node ticks)
    (hk : k < max 1 ticks.toNat)
    (huncut : ∀ j < k,
      ¬(deeds (j + 1)).CutsShort p (c.found p first.inside).cursor.markRan.frames) :
    ∃ o turn, deeds k = .step o ∧ o.step p (cursorAt p deeds c k) =
        (held p (c.found p first.inside).cursor.markRan ticks.toNat (k + 1), .ok turn) ∧
      Ticked o node ticks turn := by
  induction k with
  | zero =>
      have hbody := hheading 0
      rw [hfirst] at hbody
      obtain ⟨turn, hstep, hticked⟩ :=
        tick_of_found hcomes.action hbody hk (by rw [hcomes.waitLeft_eq_none hc]; rfl)
      exact ⟨first, turn, hfirst, hstep, hticked⟩
  | succ k ih =>
      obtain ⟨before, turn, hbefore, hstep, -⟩ :=
        ih (by omega) fun j hj => huncut j (Nat.lt_succ_of_lt hj)
      have hcursor : cursorAt p deeds c (k + 1) =
          { (c.found p first.inside).cursor.markRan with
            waitLeft := some (ticks.toNat - (k + 1)) } := by
        rw [cursorAt, hbefore, Deed.apply, hstep, held_of_lt hk]
      have hlasts := huncut k (Nat.lt_succ_self k)
      have hbody := hheading (k + 1)
      cases hdeed : deeds (k + 1) with
      | reset =>
          rw [hdeed] at hlasts
          exact absurd trivial hlasts
      | step o =>
          rw [hdeed] at hlasts hbody
          have hstands : Stands p o.inside (cursorAt p deeds c (k + 1)) node (.wait ticks) := by
            rw [hcursor]
            refine ((stands_found hcomes.action).markRan.elsewhere fun f hf => ?_).withWait _
            by_contra hleft
            exact hlasts ⟨f, hf, by simpa using hleft⟩
          obtain ⟨turn', hstep', hticked⟩ := tick_of_found (o := o) (by rw [hstands.found]) hbody hk
            (by rw [hstands.found, hcursor]; rfl)
          refine ⟨o, turn', rfl, ?_, hticked⟩
          have hframes := congrArg Cursor.frames (markRan_markRan (c.found p first.inside).cursor)
          rw [hstep', hstands.found, hcursor]
          exact congrArg (·, Except.ok turn') (held_congr rfl hframes)

/-- Ticks are left after a step only of the wait that it has executed, and then the cursor is
where it was. -/
theorem continues_of_waitLeft (hc : Sound p c) (hheading : o.body.heading.isSome) {left : Nat}
    (hleft : (o.step p c).1.waitLeft = some left) :
    ∃ node ticks turn, (c.found p o.inside).action? = some (node, .wait ticks) ∧
      (c.found p o.inside).cursor.waitLeft.getD ticks.toNat = left + 1 ∧
      o.step p c = ({ (c.found p o.inside).cursor.markRan with waitLeft := some left }, .ok turn) ∧
      turn.report.executed = some (node, .wait ticks) := by
  have houtcome := outcome_step p o.id o.view c o.body o.words
  rw [Occasion.step] at hleft ⊢
  generalize c.step p o.id o.view o.body o.words = result at houtcome hleft
  cases houtcome with
  | idle hnone =>
      obtain ⟨-, node, ticks, hstands⟩ := hc.stands_of_waitLeft hleft
      rw [hstands.found] at hnone
      exact absurd hnone (by simp)
  | @failed node a fault hdue hexecute =>
      obtain ⟨-, node', ticks, hstands⟩ := hc.stands_of_waitLeft hleft
      obtain ⟨-, rfl⟩ : node = node' ∧ a = .wait ticks := by
        rw [hstands.found] at hdue
        simpa [eq_comm] using hdue
      obtain ⟨d, b', hok, -⟩ := execute_wait_of_heading hheading p
        (c.found p (o.view.inRegion o.body.position)).cursor.markRan o.id o.view o.words ticks
      exact absurd (hexecute.symm.trans hok) (by simp)
  | @executed node a d b' words' hdue hexecute =>
      obtain ⟨-, hid, hnode⟩ := reached_of_hop (hop_found hdue)
      rcases execute_eq_ok hc.found.markRan (by rwa [current?_markRan]) hnode hexecute with
        ⟨rfl, -⟩ | ⟨ticks, left', rfl, hdue', -, rfl⟩
      · exact absurd hleft (by simp)
      · obtain rfl := Option.some.inj hleft
        exact ⟨node, ticks, _, hdue, hdue', rfl, rfl⟩

/-- A step leaves the outermost loop that ends where the agent stands, and all that is inside
it, and goes on from behind it with no tick of any wait left. -/
structure Abandons (p : Program α) (inside : String → Bool) (c : Cursor) : Prop where
  leads : ∃ inner f outer n, c.frames = inner ++ f :: outer ∧ isLeft p inside f ∧
    (∀ g ∈ outer, isLeft p inside g = false) ∧
    Leads p inside n ((⟨c.index, outer, none⟩ : Cursor).advance p) (c.found p inside).cursor
  closes : 0 < c.closedIn p inside
  waitLeft : (c.found p inside).cursor.waitLeft = none

omit [Scalar α] [Circular α] in
theorem Stands.abandons (h : Stands p inside c node a)
    (hleft : ∃ f ∈ c.frames, isLeft p inside' f) : Abandons p inside' c := by
  have hdone : aroundDone? (·.isDone p inside') c.frames =
      aroundDone? (isLeft p inside') c.frames :=
    aroundDone?_congr fun g hg => isDone_eq_isLeft (h.unfinished g hg)
  obtain ⟨f, hf, hf'⟩ := hleft
  cases haround : aroundDone? (isLeft p inside') c.frames with
  | none => exact absurd ((aroundDone?_eq_none_iff.mp haround f hf).symm.trans hf') (by simp)
  | some outer =>
      obtain ⟨⟨n, hleads⟩, hcloses, hwait⟩ := found_of_aroundDone (hdone.trans haround)
      obtain ⟨inner, g, hsplit, hg, houter⟩ := aroundDone?_eq_some haround
      exact ⟨⟨inner, g, outer, n, hsplit, hg, houter, hleads⟩, hcloses, hwait⟩

/-- The step before has executed a wait with ticks left, and the next one takes the wait up
where it is. -/
structure Continues (p : Program α) (before : Occasion α) (c d : Cursor) (inside : String → Bool)
    (node : Nat) (ticks : UInt32) : Prop where
  ticked : ∃ turn left, before.step p c = (d, .ok turn) ∧
    turn.report.executed = some (node, .wait ticks) ∧ d.waitLeft = some left ∧
    (c.found p before.inside).cursor.waitLeft.getD ticks.toNat = left + 1
  found : d.found p inside = ⟨d, 0, some (node, .wait ticks)⟩

/-- A wait that is found by a step either is come to, and then has all its ticks, or is the wait
of which the step before has executed a tick. -/
theorem comesTo_or_continues (hc : Sound p c) (hheading : o.body.heading.isSome)
    (hdue : ((o.step p c).1.found p inside).action? = some (node, .wait ticks)) :
    ComesTo p inside (o.step p c).1 node ticks ∨
      Continues p o c (o.step p c).1 inside node ticks := by
  by_cases hfresh : (o.step p c).1.waitLeft = none ∨
      ((o.step p c).1.found p inside).cursor ≠ (o.step p c).1
  · exact .inl ⟨hdue, hfresh⟩
  · right
    obtain ⟨hwait, hsame⟩ := not_or.mp hfresh
    rw [not_ne_iff] at hsame
    have hstands := stands_found hdue
    rw [hsame] at hstands
    obtain ⟨left, hleft⟩ := Option.ne_none_iff_exists'.mp hwait
    obtain ⟨node', ticks', turn, haction, hticks, hstep, hexecuted⟩ :=
      continues_of_waitLeft hc hheading hleft
    have hbefore := (stands_found haction).markRan.withWait (some left)
    rw [hstep] at hstands ⊢
    obtain rfl := Option.some.inj (hbefore.current.symm.trans hstands.current)
    obtain rfl : ticks' = ticks := by
      simpa using hbefore.action.symm.trans hstands.action
    exact ⟨⟨turn, left, hstep, hexecuted, rfl, hticks⟩, hstands.found⟩

/-- What becomes of a wait that is come to in the first of a series of deeds; `here` is its
place. -/
structure Accounted (p : Program α) (c : Cursor) (deeds : Nat → Deed α) (here : Cursor)
    (node : Nat) (ticks : UInt32) : Prop where
  /-- It begins with all its ticks. -/
  full : here.waitLeft = none
  /-- Each deed that finds it uncut is a step that executes one tick, and only the last of them
  takes the cursor past it. -/
  ticked : ∀ k < max 1 ticks.toNat,
    (∀ j < k, ¬(deeds (j + 1)).CutsShort p here.frames) →
      ∃ o turn, deeds k = .step o ∧
        o.step p (cursorAt p deeds c k) = (held p here ticks.toNat (k + 1), .ok turn) ∧
        Ticked o node ticks turn
  /-- The first deed that cuts it short is a reset, or leaves a loop around it. -/
  cut : ∀ k, k + 1 < max 1 ticks.toNat →
    (∀ j < k, ¬(deeds (j + 1)).CutsShort p here.frames) →
      (deeds (k + 1)).CutsShort p here.frames →
        deeds (k + 1) = .reset ∧ cursorAt p deeds c (k + 2) = start ∨
          ∃ o, deeds (k + 1) = .step o ∧ Abandons p o.inside (cursorAt p deeds c (k + 1))
  /-- From then on no wait begins with fewer ticks than its own. -/
  later : ∀ (k : Nat) (o : Occasion α) (node' : Nat) (ticks' : UInt32), deeds (k + 1) = .step o →
    ((cursorAt p deeds c (k + 1)).found p o.inside).action? = some (node', .wait ticks') →
      ComesTo p o.inside (cursorAt p deeds c (k + 1)) node' ticks' ∧
          ((cursorAt p deeds c (k + 1)).found p o.inside).cursor.waitLeft = none ∨
        ∃ before, deeds k = .step before ∧
          Continues p before (cursorAt p deeds c k) (cursorAt p deeds c (k + 1)) o.inside
            node' ticks'

/-- A wait of `n` ticks that a cursor comes to is executed in `max 1 n` steps on end, in `n` of
them with a step of motion, and then the cursor goes on. Only a reset ends it before, or a step
of an agent that stands where a loop around it ends, and then its remaining ticks are gone:
every wait that is come to later begins with all of its own. -/
theorem accounted_of_comesTo (hc : Reachable p c) (hheading : ∀ k, (deeds k).HasHeading)
    (hfirst : deeds 0 = .step first) (hcomes : ComesTo p first.inside c node ticks) :
    Accounted p c deeds (c.found p first.inside).cursor.markRan node ticks where
  full := hcomes.waitLeft_eq_none (sound_of_reachable hc)
  ticked k hk huncut := ticks_of_comesTo (sound_of_reachable hc) hheading hfirst hcomes hk huncut
  cut k hk huncut hcut := by
    obtain ⟨before, turn, hbefore, hstep, -⟩ :=
      ticks_of_comesTo (sound_of_reachable hc) hheading hfirst hcomes (Nat.lt_of_succ_lt hk) huncut
    cases hdeed : deeds (k + 1) with
    | reset => exact .inl ⟨rfl, by rw [cursorAt, hdeed, Deed.apply]⟩
    | step o =>
        rw [hdeed] at hcut
        refine .inr ⟨o, rfl, ?_⟩
        rw [cursorAt, hbefore, Deed.apply, hstep, held_of_lt hk]
        exact ((stands_found hcomes.action).markRan.withWait _).abandons hcut
  later k o node' ticks' hdeed hdue := by
    have hsound := sound_of_reachable (hc.cursorAt deeds k)
    have hbody := hheading k
    cases hlast : deeds k with
    | reset =>
        rw [cursorAt, hlast, Deed.apply] at hdue ⊢
        have hcomes : ComesTo p o.inside start node' ticks' := ⟨hdue, .inl rfl⟩
        exact .inl ⟨hcomes, hcomes.waitLeft_eq_none (sound_start p)⟩
    | step before =>
        rw [hlast] at hbody
        rw [cursorAt, hlast, Deed.apply] at hdue ⊢
        rcases comesTo_or_continues hsound hbody hdue with hcomes | hcontinues
        · exact .inl ⟨hcomes, hcomes.waitLeft_eq_none (hsound.step _ _ _ _)⟩
        · exact .inr ⟨before, rfl, hcontinues⟩

/-- A wait of three ticks that the agent is moved out of after two of them. -/
theorem accounted_of_comesTo_until :
    ∃ p : Program Whole,
      Program.ofEvents [.startUntil "home", .wait 3, .finish, .wait 2] = .ok p ∧
      let regions : List (Region Whole) := [⟨"home", .circle ⟨2, 0⟩ 0⟩]
      let occasion (k : Nat) : Occasion Whole :=
        ⟨⟨1, 0⟩, .alone regions, (Body.atPoint ⟨⟨k⟩, 0⟩).setHeading .east, .ofSeed 0⟩
      let deeds (k : Nat) : Deed Whole := .step (occasion k)
      Reachable p start ∧ (∀ k, (deeds k).HasHeading) ∧ deeds 0 = .step (occasion 0) ∧
        ComesTo p (occasion 0).inside start 0 3 ∧
        Accounted p start deeds (start.found p (occasion 0).inside).cursor.markRan 0 3 ∧
        (deeds 2).CutsShort p (start.found p (occasion 0).inside).cursor.markRan.frames := by
  let p : Program Whole :=
    ⟨#[.action (.wait 3), .block (.untilIn "home") [0], .action (.wait 2)], [1, 2]⟩
  have hbuilt : Program.ofEvents [.startUntil "home", .wait 3, .finish, .wait 2] = .ok p := by
    decide
  refine ⟨p, hbuilt, ?_⟩
  intro regions occasion deeds
  have hheading : ∀ k, (deeds k).HasHeading := fun _ => rfl
  have hcomes : ComesTo p (occasion 0).inside start 0 3 := ⟨rfl, .inl rfl⟩
  exact ⟨.start, hheading, rfl, hcomes, accounted_of_comesTo .start hheading rfl hcomes,
    _, List.mem_cons_self, rfl⟩

end Cursor

end Flock
