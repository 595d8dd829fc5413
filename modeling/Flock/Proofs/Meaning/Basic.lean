import Flock.Agent.Step
import Flock.Proofs.Program.Script

/-!
# The meaning of programs

What a program does, told without cursors and frames. A `Rest` is what is left of a
program to be run: a sequence, or a loop with what is left of its present pass. The
next action is found by single moves (`Rest.move`): a sequence is run from left to
right, a loop with a number of passes counts them one by one, and the other loops begin
one pass after another. There is no limit on the number of moves; where they go on for
ever nothing is executed (`Tick.endless`).

At the start of a tick a loop that runs until the agent stands in a region is abandoned
if it does, with everything inside it, and of several such loops the outermost
(`Rest.abandon`).
-/

namespace Flock

/-- What is left of a program to be run. -/
inductive Rest (α : Type) where
  /-- A sequence. -/
  | todo (script : Script α)
  /-- A wait with some executions left, and the sequence behind it. -/
  | waiting (node : Nat) (ticks : UInt32) (left : Nat) (after : Script α)
  /-- A loop with a number of passes: those that follow the present one, its body, what is
  left of the present pass, and the sequence behind the loop. -/
  | passes (more : Nat) (body : Script α) (now : Rest α) (after : Script α)
  /-- A loop without end, or until the agent stands in a region. -/
  | endless (region? : Option String) (body : Script α) (now : Rest α) (after : Script α)
deriving DecidableEq, Repr

/-- The next move. -/
inductive Move (α : Type) where
  /-- An action is executed. -/
  | acts (node : Nat) (action : Action α) (next : Rest α)
  /-- Nothing is executed. -/
  | quiet (next : Rest α)
  /-- Nothing is left. -/
  | ended
deriving DecidableEq, Repr

/-- A move inside a loop, and what is left where nothing is left of the present pass. -/
def Move.inLoop {α : Type} (around : Rest α → Rest α) (finish : Rest α) : Move α → Move α
  | acts node a next => .acts node a (around next)
  | quiet next => .quiet (around next)
  | ended => .quiet finish

namespace Rest

variable {α : Type}

/-- A wait with some executions left, or none. -/
def ofWait (node : Nat) (ticks : UInt32) (left : Nat) (after : Script α) : Rest α :=
  if left = 0 then todo after else waiting node ticks left after

/-- What is left when an action has been executed. A wait of `n` ticks takes `n`
executions, and one where `n` is 0. -/
def afterAction (node : Nat) (after : Script α) : Action α → Rest α
  | .wait ticks => ofWait node ticks (ticks.toNat - 1) after
  | _ => todo after

/-- What is left when a loop has been come to. -/
def enter (inside : String → Bool) (body after : Script α) : Loop → Rest α
  | .times count =>
    if count.toNat = 0 then todo after else passes (count.toNat - 1) body (todo body) after
  | .forever => endless none body (todo body) after
  | .untilIn region =>
    if inside region then todo after else endless (some region) body (todo body) after

/-- What is left of a loop with a number of passes when one of them has ended. -/
def nextPass (body after : Script α) : Nat → Rest α
  | 0 => todo after
  | more + 1 => passes more body (todo body) after

/-- The next move of an agent that stands in the regions given by `inside`. -/
def move (inside : String → Bool) : Rest α → Move α
  | todo .done => .ended
  | todo (.action node a after) => .acts node a (afterAction node after a)
  | todo (.block _ loop body after) => .quiet (enter inside body after loop)
  | waiting node ticks left after => .acts node (.wait ticks) (ofWait node ticks (left - 1) after)
  | passes more body now after =>
    (now.move inside).inLoop (passes more body · after) (nextPass body after more)
  | endless region? body now after =>
    (now.move inside).inLoop (endless region? body · after) (endless region? body (todo body) after)

/-- What is left when the outermost loop has been abandoned that runs until the agent
stands where it does, if there is one. -/
def abandon (inside : String → Bool) : Rest α → Rest α
  | endless region? body now after =>
    if region?.any inside then todo after else endless region? body (now.abandon inside) after
  | passes more body now after => passes more body (now.abandon inside) after
  | r => r

/-- A number of moves without an action, and then either an action or the end of the
program. -/
inductive Finds (inside : String → Bool) : Nat → Rest α → Option (Nat × Action α × Rest α) → Prop where
  | acts {r next : Rest α} {node : Nat} {a : Action α} (h : r.move inside = .acts node a next) :
      Finds inside 0 r (some (node, a, next))
  | ended {r : Rest α} (h : r.move inside = .ended) : Finds inside 0 r none
  | quiet {n : Nat} {r next : Rest α} {result : Option (Nat × Action α × Rest α)}
      (h : r.move inside = .quiet next) (hnext : Finds inside n next result) :
      Finds inside (n + 1) r result

variable {inside : String → Bool} {n m : Nat} {r next : Rest α}
  {result : Option (Nat × Action α × Rest α)}

/-- A number of moves without an action. -/
inductive Quiet (inside : String → Bool) : Nat → Rest α → Rest α → Prop where
  | refl (r : Rest α) : Quiet inside 0 r r
  | move {n : Nat} {r next last : Rest α} (h : r.move inside = .quiet next)
      (hnext : Quiet inside n next last) : Quiet inside (n + 1) r last

theorem Quiet.single (h : r.move inside = .quiet next) : Quiet inside 1 r next :=
  .move h (.refl next)

theorem Quiet.move_eq (h : Quiet inside 1 r next) : r.move inside = .quiet next := by
  cases h with
  | move hmove hnext =>
      cases hnext with
      | refl => exact hmove

theorem Quiet.trans {last : Rest α} (h : Quiet inside n r next) (h' : Quiet inside m next last) :
    Quiet inside (n + m) r last := by
  induction h with
  | refl => rwa [Nat.zero_add]
  | move hmove _ ih =>
      rw [Nat.add_right_comm]
      exact .move hmove (ih h')

theorem Quiet.finds (h : Quiet inside n r next) (hfinds : Finds inside m next result) :
    Finds inside (n + m) r result := by
  induction h with
  | refl => rwa [Nat.zero_add]
  | move hmove _ ih =>
      rw [Nat.add_right_comm]
      exact .quiet hmove (ih hfinds)

theorem Finds.of_quiet (h : Finds inside n r result) (hquiet : Quiet inside m r next) :
    ∃ k, n = m + k ∧ Finds inside k next result := by
  induction hquiet generalizing n with
  | refl => exact ⟨n, (Nat.zero_add n).symm, h⟩
  | move hmove _ ih =>
      cases h with
      | acts hacts => exact absurd (hacts.symm.trans hmove) (by simp)
      | ended hended => exact absurd (hended.symm.trans hmove) (by simp)
      | quiet hmove' hnext =>
          obtain rfl := Move.quiet.inj (hmove'.symm.trans hmove)
          obtain ⟨k, hn, hfinds⟩ := ih hnext
          exact ⟨k, by omega, hfinds⟩

theorem Finds.unique {other : Option (Nat × Action α × Rest α)} (h : Finds inside n r result)
    (h' : Finds inside m r other) : result = other := by
  induction h generalizing m with
  | acts hacts =>
      cases h' with
      | acts hacts' =>
          obtain ⟨rfl, rfl, rfl⟩ := Move.acts.inj (hacts.symm.trans hacts')
          rfl
      | ended hended => exact absurd (hacts.symm.trans hended) (by simp)
      | quiet hmove => exact absurd (hacts.symm.trans hmove) (by simp)
  | ended hended =>
      cases h' with
      | acts hacts => exact absurd (hended.symm.trans hacts) (by simp)
      | ended => rfl
      | quiet hmove => exact absurd (hended.symm.trans hmove) (by simp)
  | quiet hmove _ ih =>
      obtain ⟨k, -, hfinds⟩ := h'.of_quiet (.single hmove)
      exact ih hfinds

/-- A move that changes nothing is made for ever. -/
theorem not_finds_of_move_eq (h : r.move inside = .quiet r) : ∀ n result, ¬Finds inside n r result := by
  intro n
  induction n with
  | zero =>
      intro result hfinds
      obtain ⟨k, hk, -⟩ := hfinds.of_quiet (.single h)
      omega
  | succ n ih =>
      intro result hfinds
      obtain ⟨k, hk, hrest⟩ := hfinds.of_quiet (.single h)
      obtain rfl : k = n := by omega
      exact ih result hrest

end Rest

/-- The effect of one execution of an action. That of a wait is one step of motion, unless
it is a wait of no ticks. -/
def Body.carryOut {α : Type} [Scalar α] [Circular α] (id : AgentId) (view : Surroundings α)
    (b : Body α) (words : WordStream) : Action α → Except (Fault α) (Body α × WordStream)
  | .wait ticks => if ticks.toNat = 0 then .ok (b, words) else b.moveStep.map fun b => (b, words)
  | a => b.perform id view words a

/-- The circumstances of one tick. -/
structure Moment (α : Type) where
  view : Surroundings α
  words : WordStream

variable {α : Type} [Scalar α] [Circular α]

/-- One tick: what is executed in it, what is left of the program, and the body. -/
inductive Tick (id : AgentId) (m : Moment α) (r : Rest α) (b : Body α) :
    Option (Nat × Action α) → Rest α → Body α → Prop where
  | acts {n node : Nat} {a : Action α} {next : Rest α} {b' : Body α} {words : WordStream}
      (h : (r.abandon (m.view.inRegion b.position)).Finds (m.view.inRegion b.position) n
        (some (node, a, next)))
      (heffect : b.carryOut id m.view m.words a = .ok (b', words)) :
      Tick id m r b (some (node, a)) next b'
  | ended {n : Nat}
      (h : (r.abandon (m.view.inRegion b.position)).Finds (m.view.inRegion b.position) n none) :
      Tick id m r b none (.todo .done) b
  | endless
      (h : ∀ n result,
        ¬(r.abandon (m.view.inRegion b.position)).Finds (m.view.inRegion b.position) n result) :
      Tick id m r b none r b

/-- A tick goes in one way only. -/
theorem Tick.unique {id : AgentId} {m : Moment α} {r next other : Rest α} {b b' b'' : Body α}
    {executed executed' : Option (Nat × Action α)} (h : Tick id m r b executed next b')
    (h' : Tick id m r b executed' other b'') : executed = executed' ∧ next = other ∧ b' = b'' := by
  cases h with
  | acts hfinds heffect =>
      cases h' with
      | acts hfinds' heffect' =>
          obtain ⟨rfl, rfl, rfl⟩ : _ ∧ _ ∧ _ := by simpa using hfinds.unique hfinds'
          obtain ⟨rfl, -⟩ : _ ∧ _ := by simpa using heffect.symm.trans heffect'
          exact ⟨rfl, rfl, rfl⟩
      | ended hfinds' => exact absurd (hfinds.unique hfinds') (by simp)
      | endless hnever => exact absurd hfinds (hnever _ _)
  | ended hfinds =>
      cases h' with
      | acts hfinds' => exact absurd (hfinds.unique hfinds') (by simp)
      | ended => exact ⟨rfl, rfl, rfl⟩
      | endless hnever => exact absurd hfinds (hnever _ _)
  | endless hnever =>
      cases h' with
      | acts hfinds => exact absurd hfinds (hnever _ _)
      | ended hfinds => exact absurd hfinds (hnever _ _)
      | endless => exact ⟨rfl, rfl, rfl⟩

/-- Tick after tick, and what is executed in each. -/
inductive Plays (id : AgentId) :
    Rest α → Body α → List (Moment α) → List (Option (Nat × Action α)) → Prop where
  | nil (r : Rest α) (b : Body α) : Plays id r b [] []
  | cons {r next : Rest α} {b b' : Body α} {m : Moment α} {moments : List (Moment α)}
      {executed : Option (Nat × Action α)} {later : List (Option (Nat × Action α))}
      (h : Tick id m r b executed next b') (hlater : Plays id next b' moments later) :
      Plays id r b (m :: moments) (executed :: later)

end Flock
