import Flock.Proofs.Program.Traversal
import Flock.Proofs.Whole

/-!
# Programs as forests

A builder appends each node that it completes to one sequence, under the greatest number so
far. So all its sequences ascend, those of the loops that are still open as well
(`Builder.Ascends`), and in a program that has been built every node stands in exactly one
sequence, at the top or in a loop with a greater number. The array is then a forest, and each
traversal of it comes to an end when it has met every node once (`Program.forest_of_ofEvents`).
-/

namespace Flock

variable {α : Type}

namespace Builder

variable {b next built : Builder α} {node : Node α}

/-- The numbers of nodes ascend in all sequences: at the top, in the open loops and in those
completed. -/
structure Ascends (b : Builder α) : Prop where
  root : b.root.Pairwise (· < ·)
  blocks : ∀ block ∈ b.blocks, block.children.Pairwise (· < ·)
  children : ∀ id, (b.arena.children id).Pairwise (· < ·)

theorem ascends_empty : (empty : Builder α).Ascends where
  root := .nil
  blocks := fun block h => absurd h (by simp [empty])
  children := fun id => by simp [Program.children, Program.node?, arena, empty]

theorem children_emit (b : Builder α) (node : Node α) (id : Nat) :
    (b.emit node).arena.children id =
      if id = b.nodes.size then node.children else b.arena.children id := by
  simp only [Program.children, Program.node?, arena, nodes_emit, Array.getElem?_push]
  by_cases h : id = b.nodes.size <;> simp [h]

/-- A sequence goes on ascending with the number of the next node. -/
theorem pairwise_append_size {ids : List Nat} (h : ids.Pairwise (· < ·))
    (hids : ∀ id ∈ ids, id < b.nodes.size) : (ids ++ [b.nodes.size]).Pairwise (· < ·) := by
  rw [List.pairwise_append]
  exact ⟨h, List.pairwise_singleton _ _, by simpa using hids⟩

theorem Ascends.emit (h : b.Ascends) (hb : b.Orderly) (hnode : node.children.Pairwise (· < ·)) :
    (b.emit node).Ascends := by
  have hchildren (id : Nat) : ((b.emit node).arena.children id).Pairwise (· < ·) := by
    rw [children_emit]
    split
    · exact hnode
    · exact h.children id
  cases hblocks : b.blocks with
  | nil =>
      obtain ⟨hroot, hopen⟩ := emit_of_nil node hblocks
      refine ⟨?_, by simp [hopen], hchildren⟩
      rw [hroot]
      exact pairwise_append_size h.root hb.root_lt
  | cons block outer =>
      obtain ⟨hroot, hopen⟩ := emit_of_cons node hblocks
      refine ⟨by rw [hroot]; exact h.root, ?_, hchildren⟩
      rw [hopen]
      intro other hother
      rcases List.mem_cons.mp hother with rfl | hother
      · have hmem : block ∈ b.blocks := by simp [hblocks]
        exact pairwise_append_size (h.blocks block hmem) (hb.children_lt block hmem)
      · exact h.blocks other (by simp [hblocks, hother])

theorem Ascends.place (h : b.Ascends) (hb : b.Sound) {piece : Piece α}
    (hplace : b.place piece = .ok next) : next.Ascends := by
  cases piece with
  | action a =>
      obtain rfl := Except.ok.inj hplace
      exact h.emit hb.toOrderly .nil
  | start loop =>
      obtain rfl := Except.ok.inj hplace
      refine ⟨h.root, fun block hblock => ?_, h.children⟩
      rcases List.mem_cons.mp hblock with rfl | hblock
      · exact .nil
      · exact h.blocks block hblock
  | finish =>
      cases hblocks : b.blocks with
      | nil => simp [Builder.place, hblocks] at hplace
      | cons block outer =>
          simp only [Builder.place, hblocks, Except.ok.injEq] at hplace
          subst hplace
          have htail : ({ b with blocks := outer } : Builder α).Ascends :=
            ⟨h.root, fun other hother => h.blocks other (by simp [hblocks, hother]), h.children⟩
          exact htail.emit (orderly_tail hb hblocks) (h.blocks block (by simp [hblocks]))

variable [Scalar α]

/-- What each accepted event keeps of a sound builder, all of them keep. -/
theorem foldlM_accept_induction {P : Builder α → Prop}
    (hstep : ∀ b next event, b.Sound → P b → b.accept event = .ok next → P next)
    {events : List (Event α)} (hb : b.Sound) (h : P b)
    (hbuilt : events.foldlM accept b = .ok built) : P built := by
  induction events generalizing b with
  | nil =>
      obtain rfl := Except.ok.inj hbuilt
      exact h
  | cons event events ih =>
      rw [List.foldlM_cons] at hbuilt
      obtain ⟨next, hnext, hrest⟩ := bind_eq_ok_iff.mp hbuilt
      exact ih (accept_spec hb hnext).2.1 (hstep b next event hb h hnext) hrest

theorem Ascends.accept (h : b.Ascends) (hb : b.Sound) {event : Event α}
    (haccept : b.accept event = .ok next) : next.Ascends := by
  obtain ⟨piece, -, hplace⟩ := bind_eq_ok_iff.mp haccept
  exact h.place hb hplace

end Builder

namespace Program

variable {p : Program α}

/-- Every node stands in one sequence, at the top or in a loop. -/
theorem Sound.sequences_perm (hp : p.Sound) :
    (p.root ++ (List.range p.size).flatMap p.children).Perm (List.range p.size) := by
  have hmet := hp.reads_outline.nodes_perm
  have hchildren := hp.nodes_perm.flatMap_right p.children
  exact ((hchildren.append_left p.root).symm.trans hmet.symm).trans hp.nodes_perm

/-- The nodes that can be got to from the top are those there are. -/
theorem Sound.below_iff (hp : p.Sound) (id : Nat) :
    (∃ top ∈ p.root, p.Below top id) ↔ ∃ node, p.node? id = some node := by
  rw [← hp.reads_outline.mem_nodes_iff, hp.nodes_perm.mem_iff, List.mem_range]
  constructor
  · exact p.exists_node?
  · rintro ⟨node, hnode⟩
    exact lt_size_of_node? hnode

variable [Scalar α]

/-- In a program that has been built the numbers ascend in all sequences. -/
theorem ascends_of_ofEvents {events : List (Event α)} (h : ofEvents events = .ok p) :
    p.root.Pairwise (· < ·) ∧ ∀ id, (p.children id).Pairwise (· < ·) := by
  obtain ⟨built, hbuilt, hprogram⟩ := ofEvents_eq_ok_iff.mp h
  have hsound := (Builder.foldlM_accept_spec Builder.sound_empty hbuilt).1
  have hascends : built.Ascends := Builder.foldlM_accept_induction
    (fun _ _ _ hb h haccept => h.accept hb haccept) Builder.sound_empty Builder.ascends_empty hbuilt
  obtain ⟨-, rfl⟩ := (program_eq_ok_iff hsound).mp hprogram
  exact ⟨hascends.root, hascends.children⟩

/-- A program that has been built is a forest. In the top-level sequence and the bodies of all
loops together every number of a node occurs once and no other number does; the numbers ascend in
each of them, and in the body of a loop they are less than that of the loop. So every number that
can be got to from the top is that of a node, and every node can be got to. There is one way of
descending through the program, it comes to an end and meets every node once; depth, actions and
listing are what it collects, and a walk with a stack visits the nodes in the same order and is
done when it has visited as many as there are. -/
theorem forest_of_ofEvents {events : List (Event α)} (h : ofEvents events = .ok p) :
    (p.root ++ (List.range p.size).flatMap p.children).Perm (List.range p.size) ∧
    p.root.Pairwise (· < ·) ∧
    (∀ id loop kids, p.node? id = some (.block loop kids) →
      kids.Pairwise (· < ·) ∧ ∀ kid ∈ kids, kid < id) ∧
    (∀ id, (∃ top ∈ p.root, p.Below top id) ↔ ∃ node, p.node? id = some node) ∧
    ∃ s, (∀ t, p.Reads p.root t ↔ t = s) ∧ s.nodes.Perm (List.range p.size) ∧
      p.depth = s.depth ∧ p.actions = s.actions ∧
      (∀ numeral : α → String, p.lines numeral = s.lines numeral) ∧
      ∀ n, p.size ≤ n → p.walk n p.root = s.nodes := by
  have hp := (sound_of_ofEvents h).1
  obtain ⟨hroot, hchildren⟩ := ascends_of_ofEvents h
  refine ⟨hp.sequences_perm, hroot, fun id loop kids hnode => ⟨?_, hp.descends id loop kids hnode⟩,
    hp.below_iff, p.outline, fun t => ⟨fun ht => ht.unique hp.reads_outline, ?_⟩, hp.nodes_perm,
    hp.depth_eq, hp.actions_eq, hp.lines_eq, fun n hn => hp.walk_root hn⟩
  · rw [← children_of_block hnode]
    exact hchildren id
  · rintro rfl
    exact hp.reads_outline

/-- A loop that has another one in it, with an action in front of that and one after itself. The
innermost action can be got to from the top, and a descent meets the five nodes. -/
theorem forest_of_ofEvents_nested :
    let events : List (Event Whole) :=
      [.startTimes 2, .stop, .startForever, .signal "x", .finish, .finish, .stop]
    let p : Program Whole := ⟨#[.action .stop, .action (.signal "x"), .block .forever [1],
      .block (.times 2) [0, 2], .action .stop], [3, 4]⟩
    ofEvents events = .ok p ∧ (∃ top ∈ p.root, p.Below top 1) ∧
      ∃ s, p.Reads p.root s ∧ s.nodes = [3, 0, 2, 1, 4] ∧ s.nodes.Perm (List.range 5) ∧
        s.depth = 2 := by
  intro events p
  have hbuilt : ofEvents events = .ok p := rfl
  obtain ⟨-, -, -, hbelow, s, hreads, hmet, hdepth, -, -, hwalk⟩ := forest_of_ofEvents hbuilt
  refine ⟨hbuilt, (hbelow 1).mpr ⟨_, rfl⟩, s, (hreads s).mpr rfl, ?_, hmet, ?_⟩
  · exact (hwalk 5 (Nat.le_refl _)).symm.trans rfl
  · exact hdepth.symm.trans rfl

end Program

end Flock
