import Mathlib.Data.List.Basic
import Mathlib.Tactic.Common
import Flock.Program.Builder

/-!
# Programs written out

A program is held in one array, and a loop only names its children there. A
`Script` is a sequence of actions and loops in which the body of every loop is
written out at its place, so it is the form for recursion and induction.

`p.script ids` reads the sequence `ids` off the array. The array may name
children in a circle, so the reading stops after as many levels as there are
nodes. In a program whose children stand before their loop (`Program.Descends`)
this bound is never met, and `script_nil`, `script_cons_action` and
`script_cons_block` are all that has to be known about it.
-/

namespace Flock

/-- A sequence of actions and loops, the bodies of the loops included. Every item
carries the number of its node. -/
inductive Script (α : Type) where
  | done
  | action (node : Nat) (action : Action α) (rest : Script α)
  | block (node : Nat) (loop : Loop) (body rest : Script α)
deriving DecidableEq, Repr

/-- The event that declares an action. -/
def Action.event {α : Type} : Action α → Event α
  | move target speed => .move target speed
  | wander corner1 corner2 speed => .wander corner1 corner2 speed
  | signal label => .signal label
  | unsignal label => .unsignal label
  | follow label radius speed => .follow label radius speed
  | stop => .stop
  | wait ticks => .wait (.ofInt ticks.toNat)

/-- The event that declares the start of a loop. -/
def Loop.event {α : Type} : Loop → Event α
  | times count => .startTimes (.ofInt count.toNat)
  | forever => .startForever
  | untilIn region => .startUntil region

namespace Script

variable {α : Type}

/-- One sequence after another. -/
def append : Script α → Script α → Script α
  | done, t => t
  | action node a rest, t => action node a (rest.append t)
  | block node loop body rest, t => block node loop body (rest.append t)

/-- The numbers of all nodes, a loop before its body. -/
def nodes : Script α → List Nat
  | done => []
  | action node _ rest => node :: rest.nodes
  | block node _ body rest => node :: (body.nodes ++ rest.nodes)

/-- The number of loops. -/
def loops : Script α → Nat
  | done => 0
  | action _ _ rest => rest.loops
  | block _ _ body rest => body.loops + rest.loops + 1

/-- The greatest number of loops that stand inside one another. -/
def depth : Script α → Nat
  | done => 0
  | action _ _ rest => rest.depth
  | block _ _ body rest => max (body.depth + 1) rest.depth

/-- The events that declare the sequence: one for each action, and for each loop
its start, the events of its body and its end. -/
def events : Script α → List (Event α)
  | done => []
  | action _ a rest => a.event :: rest.events
  | block _ loop body rest => loop.event :: (body.events ++ .finish :: rest.events)

theorem nodes_append (s t : Script α) : (s.append t).nodes = s.nodes ++ t.nodes := by
  induction s with
  | done => rfl
  | action node a rest ih => simp [append, nodes, ih]
  | block node loop body rest _ ih => simp [append, nodes, ih]

theorem loops_append (s t : Script α) : (s.append t).loops = s.loops + t.loops := by
  induction s with
  | done => simp [append, loops]
  | action node a rest ih => simp [append, loops, ih]
  | block node loop body rest _ ih =>
      simp only [append, loops, ih]
      omega

theorem depth_append (s t : Script α) : (s.append t).depth = max s.depth t.depth := by
  induction s with
  | done => simp [append, depth]
  | action node a rest ih => simp [append, depth, ih]
  | block node loop body rest _ ih =>
      simp only [append, depth, ih]
      omega

theorem events_append (s t : Script α) : (s.append t).events = s.events ++ t.events := by
  induction s with
  | done => rfl
  | action node a rest ih => simp [append, events, ih]
  | block node loop body rest _ ih => simp [append, events, ih]

/-- Every loop is a node. -/
theorem loops_le_length_nodes (s : Script α) : s.loops ≤ s.nodes.length := by
  induction s with
  | done => simp [loops]
  | action node a rest ih =>
      simp only [loops, nodes, List.length_cons]
      omega
  | block node loop body rest ihBody ihRest =>
      simp only [loops, nodes, List.length_cons, List.length_append]
      omega

end Script

namespace Program

variable {α : Type}

/-- Children stand before their loop. -/
def Descends (p : Program α) : Prop :=
  ∀ id loop kids, p.node? id = some (.block loop kids) → ∀ kid ∈ kids, kid < id

/-- The sequence `ids`, read off the array down to a number of levels. Numbers
without a node are passed over. -/
def scriptTo (p : Program α) : Nat → List Nat → Script α
  | 0, _ => .done
  | n + 1, ids =>
    ids.foldr
      (fun id rest =>
        match p.node? id with
        | some (.action a) => .action id a rest
        | some (.block loop kids) => .block id loop (p.scriptTo n kids) rest
        | none => rest)
      .done

/-- The sequence `ids`, read off the array. -/
def script (p : Program α) (ids : List Nat) : Script α := p.scriptTo p.size ids

/-- The whole program, read off the array. -/
def outline (p : Program α) : Script α := p.script p.root

theorem lt_size_of_node? {p : Program α} {id : Nat} {node : Node α}
    (h : p.node? id = some node) : id < p.size := by
  by_contra hge
  rw [node?, Array.getElem?_eq_none (by simpa [size] using hge)] at h
  exact absurd h (by simp)

theorem exists_node? (p : Program α) {id : Nat} (h : id < p.size) : ∃ node, p.node? id = some node :=
  ⟨p.nodes[id], Array.getElem?_eq_getElem h⟩

/-- A sequence is read alike from two programs that agree on the nodes below a
bound, with any number of levels from that bound on. -/
theorem scriptTo_congr {p q : Program α} (hp : p.Descends) {bound : Nat}
    (hpq : ∀ id < bound, q.node? id = p.node? id) :
    ∀ {n m k : Nat} {ids : List Nat}, k ≤ bound → k ≤ n → k ≤ m → (∀ id ∈ ids, id < k) →
      q.scriptTo n ids = p.scriptTo m ids
  | n, m, 0, ids, _, _, _, hids => by
      have hnil : ids = [] := List.eq_nil_iff_forall_not_mem.mpr fun id h => by
        simpa using hids id h
      cases n <;> cases m <;> simp [hnil, scriptTo]
  | n + 1, m + 1, k + 1, ids, hk, hn, hm, hids => by
      simp only [scriptTo]
      apply List.foldr_ext
      intro id hid rest
      rw [hpq id (Nat.lt_of_lt_of_le (hids id hid) hk)]
      cases hnode : p.node? id with
      | none => rfl
      | some node =>
          cases node with
          | action a => rfl
          | block loop kids =>
              have hkids : ∀ kid ∈ kids, kid < k := fun kid hkid => by
                have := hp id loop kids hnode kid hkid
                have := hids id hid
                omega
              have ih := scriptTo_congr hp hpq (n := n) (m := m) (k := k) (by omega) (by omega)
                (by omega) hkids
              simp only [ih]

/-- What is read off a program is read off any program that extends it. -/
theorem script_congr {p q : Program α} (hp : p.Descends) (hsize : p.size ≤ q.size)
    (hpq : ∀ id < p.size, q.node? id = p.node? id) {ids : List Nat}
    (hids : ∀ id ∈ ids, id < p.size) : q.script ids = p.script ids :=
  scriptTo_congr hp hpq (Nat.le_refl _) hsize (Nat.le_refl _) hids

@[simp] theorem script_nil (p : Program α) : p.script [] = .done := by
  rw [script]
  cases p.size <;> rfl

theorem script_cons_action {p : Program α} {id : Nat} {a : Action α}
    (h : p.node? id = some (.action a)) (ids : List Nat) :
    p.script (id :: ids) = .action id a (p.script ids) := by
  have hid := lt_size_of_node? h
  rw [script, script]
  cases hsize : p.size with
  | zero => omega
  | succ n => simp [scriptTo, h]

theorem script_cons_block {p : Program α} (hp : p.Descends) {id : Nat} {loop : Loop}
    {kids : List Nat} (h : p.node? id = some (.block loop kids)) (ids : List Nat) :
    p.script (id :: ids) = .block id loop (p.script kids) (p.script ids) := by
  have hid := lt_size_of_node? h
  have hkids := hp id loop kids h
  rw [script, script, script]
  cases hsize : p.size with
  | zero => omega
  | succ n =>
      have hbelow : p.scriptTo (n + 1) kids = p.scriptTo n kids :=
        scriptTo_congr hp (fun _ _ => rfl) (Nat.le_refl n) (by omega) (Nat.le_refl _)
          fun kid hkid => by
            have := hkids kid hkid
            omega
      rw [hbelow]
      simp [scriptTo, h]

theorem script_append (p : Program α) (ids others : List Nat) :
    p.script (ids ++ others) = (p.script ids).append (p.script others) := by
  simp only [script]
  cases p.size with
  | zero => rfl
  | succ n =>
      induction ids with
      | nil => rfl
      | cons id ids ih =>
          simp only [scriptTo, List.cons_append, List.foldr_cons] at ih ⊢
          rw [ih]
          cases p.node? id with
          | none => rfl
          | some node => cases node <;> rfl

/-- The body of a loop has fewer loops than a sequence that the loop stands in. -/
theorem loops_script_lt {p : Program α} (hp : p.Descends) {id : Nat} {loop : Loop}
    {kids ids : List Nat} (h : p.node? id = some (.block loop kids)) (hid : id ∈ ids) :
    (p.script kids).loops < (p.script ids).loops := by
  obtain ⟨before, after, rfl⟩ := List.append_of_mem hid
  rw [script_append, Script.loops_append, script_cons_block hp h, Script.loops]
  omega

/-- The body of a loop is nested less deeply than a sequence that the loop stands in. -/
theorem depth_script_lt {p : Program α} (hp : p.Descends) {id : Nat} {loop : Loop}
    {kids ids : List Nat} (h : p.node? id = some (.block loop kids)) (hid : id ∈ ids) :
    (p.script kids).depth < (p.script ids).depth := by
  obtain ⟨before, after, rfl⟩ := List.append_of_mem hid
  rw [script_append, Script.depth_append, script_cons_block hp h, Script.depth]
  omega

/-! The depth of a program is tabulated node by node; it is the depth of the
program written out. -/

/-- A table holds the values it is meant to hold, if each entry does as soon as
those before it do. -/
theorem tabulate_getD {β : Type} (p : Program α) (entry : Array β → Node α → β) (other : β)
    (value : Nat → β)
    (hentry : ∀ id node (table : Array β), p.node? id = some node → table.size = id →
      (∀ earlier < id, table.getD earlier other = value earlier) → entry table node = value id) :
    (p.tabulate entry).size = p.size ∧
      ∀ id < p.size, (p.tabulate entry).getD id other = value id := by
  refine Array.foldl_induction
    (motive := fun n (table : Array β) => table.size = n ∧
      ∀ id < n, table.getD id other = value id) ?_ ?_
  · exact ⟨rfl, fun id h => absurd h (Nat.not_lt_zero id)⟩
  · intro next table htable
    refine ⟨by simp [htable.1], ?_⟩
    intro id hid
    have hnode : p.node? next = some p.nodes[next] := Array.getElem?_eq_getElem next.isLt
    have hlast := hentry next p.nodes[next] table hnode htable.1 htable.2
    by_cases heq : id = next
    · rw [heq, Array.getD_eq_getD_getElem?, Array.getElem?_push, if_pos htable.1.symm,
        Option.getD_some]
      exact hlast
    · have hlt : id < next := by omega
      rw [← htable.2 id hlt]
      simp [Array.getD_eq_getD_getElem?, Array.getElem?_push, htable.1, heq]

theorem foldl_max_depth (p : Program α) (f : Nat → Nat) (ids : List Nat)
    (hf : ∀ id ∈ ids, f id = (p.script [id]).depth) (n : Nat) :
    ids.foldl (fun n id => max n (f id)) n = max n (p.script ids).depth := by
  induction ids generalizing n with
  | nil => simp [Script.depth]
  | cons id ids ih =>
      have hcons : p.script (id :: ids) = (p.script [id]).append (p.script ids) :=
        script_append p [id] ids
      rw [List.foldl_cons, ih (fun other h => hf other (List.mem_cons_of_mem _ h)),
        hf id List.mem_cons_self, hcons, Script.depth_append]
      omega

theorem greatest_depth (p : Program α) (f : Nat → Nat) (ids : List Nat)
    (hf : ∀ id ∈ ids, f id = (p.script [id]).depth) :
    greatest f ids = (p.script ids).depth := by
  rw [greatest, foldl_max_depth p f ids hf]
  omega

/-- The table of heights holds the depth of every node read as a sequence. -/
theorem heights_getD {p : Program α} (hp : p.Descends) {id : Nat} (hid : id < p.size) :
    p.heights.getD id 0 = (p.script [id]).depth := by
  refine (tabulate_getD p _ 0 (fun id => (p.script [id]).depth) ?_).2 id hid
  intro id node table hnode _ htable
  cases node with
  | action a => simp [script_cons_action hnode, Script.depth]
  | block loop kids =>
      have hkids : ∀ kid ∈ kids, table.getD kid 0 = (p.script [kid]).depth :=
        fun kid hkid => htable kid (hp id loop kids hnode kid hkid)
      rw [script_cons_block hp hnode, Script.depth, script_nil, Script.depth,
        ← greatest_depth p _ kids hkids]
      simp [Nat.add_comm]

theorem depth_eq_depth_outline {p : Program α} (hp : p.Descends)
    (hroot : ∀ id ∈ p.root, id < p.size) : p.depth = p.outline.depth :=
  greatest_depth p _ p.root fun id hid => heights_getD hp (hroot id hid)

end Program

end Flock
