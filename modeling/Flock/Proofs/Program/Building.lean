import Flock.Proofs.Program.Events

/-!
# From events to programs and back

At every moment the nodes that a builder has completed, together with the loops
still open, write out exactly the events taken so far (`Builder.written`), and
every node stands at one place of them (`Builder.Sound`). When the last loop is
closed, what is written out is the program. So a program built from a stream of
events is sound and writes out that stream (`Program.sound_of_ofEvents`), and stream
and program determine each other.
-/

namespace Flock

namespace Builder

variable {α : Type}

/-- The nodes completed so far, seen as a program. -/
def arena (b : Builder α) : Program α := ⟨b.nodes, b.root⟩

/-- The numbers of all nodes that stand at a place, whether in the top-level sequence
or in an open loop. -/
def placed (b : Builder α) : List Nat :=
  (b.arena.script b.root).nodes ++
    b.blocks.flatMap fun block => (b.arena.script block.children).nodes

/-- The events that an open loop stands for: its start, and what is in it so far. -/
def opened (b : Builder α) (block : OpenBlock) : List (Event α) :=
  block.loop.event :: (b.arena.script block.children).events

/-- The events that the state of a builder stands for. -/
def written (b : Builder α) : List (Event α) :=
  (b.arena.script b.root).events ++ b.blocks.reverse.flatMap b.opened

/-- The next node, read as a sequence of its own. -/
def item (b : Builder α) : Node α → Script α
  | .action a => .action b.nodes.size a .done
  | .block loop kids => .block b.nodes.size loop (b.arena.script kids) .done

/-- A builder that has refused nothing, in which children stand before their loop
and no sequence names a node that is not there yet. -/
structure Orderly (b : Builder α) : Prop where
  unrejected : b.rejection = none
  descends : b.arena.Descends
  root_lt : ∀ id ∈ b.root, id < b.nodes.size
  children_lt : ∀ block ∈ b.blocks, ∀ id ∈ block.children, id < b.nodes.size

/-- An orderly builder in which every node stands at exactly one place. -/
structure Sound (b : Builder α) : Prop extends b.Orderly where
  placed_perm : b.placed.Perm (List.range b.nodes.size)

theorem sound_empty : (empty : Builder α).Sound where
  unrejected := rfl
  descends := fun id loop kids h => absurd h (by simp [arena, empty, Program.node?])
  root_lt := fun id h => absurd h (by simp [empty])
  children_lt := fun block h => absurd h (by simp [empty])
  placed_perm := by simp [placed, empty, Script.nodes]

theorem written_empty : (empty : Builder α).written = [] := by
  simp [written, empty, Script.events]

theorem nodes_emit (b : Builder α) (node : Node α) : (b.emit node).nodes = b.nodes.push node := by
  unfold emit
  cases b.blocks <;> rfl

theorem openCount_emit (b : Builder α) (node : Node α) : (b.emit node).openCount = b.openCount := by
  unfold emit
  cases h : b.blocks <;> simp [openCount, h]

/-- Where no loop is open a new node goes to the top-level sequence. -/
theorem emit_of_nil {b : Builder α} (node : Node α) (h : b.blocks = []) :
    (b.emit node).root = b.root ++ [b.nodes.size] ∧ (b.emit node).blocks = [] := by
  simp [emit, h]

/-- Otherwise it goes to the innermost open loop. -/
theorem emit_of_cons {b : Builder α} {block : OpenBlock} {outer : List OpenBlock} (node : Node α)
    (h : b.blocks = block :: outer) :
    (b.emit node).root = b.root ∧
      (b.emit node).blocks =
        { block with children := block.children ++ [b.nodes.size] } :: outer := by
  simp [emit, h]

theorem node?_emit_of_lt (b : Builder α) (node : Node α) {id : Nat} (h : id < b.nodes.size) :
    (b.emit node).arena.node? id = b.arena.node? id := by
  simp [arena, Program.node?, nodes_emit, Array.getElem?_push, Nat.ne_of_lt h]

theorem node?_emit_size (b : Builder α) (node : Node α) :
    (b.emit node).arena.node? b.nodes.size = some node := by
  simp [arena, Program.node?, nodes_emit]

section Emit

variable {b : Builder α} {node : Node α}

/-- A new node leaves all that was there before as it was. -/
theorem script_emit (hb : b.arena.Descends) {ids : List Nat}
    (hids : ∀ id ∈ ids, id < b.nodes.size) :
    (b.emit node).arena.script ids = b.arena.script ids := by
  refine Program.script_congr hb ?_ (fun id h => node?_emit_of_lt b node h) hids
  simp [arena, Program.size, nodes_emit]

theorem descends_emit (hb : b.arena.Descends) (hnode : ∀ kid ∈ node.children, kid < b.nodes.size) :
    (b.emit node).arena.Descends := by
  intro id loop kids h
  have hid : id < b.nodes.size + 1 := by
    simpa [arena, Program.size, nodes_emit] using Program.lt_size_of_node? h
  rcases Nat.lt_succ_iff_lt_or_eq.mp hid with hlt | heq
  · exact hb id loop kids (by rw [← node?_emit_of_lt b node hlt, h])
  · rw [heq, node?_emit_size, Option.some.injEq] at h
    subst heq h
    exact hnode

theorem script_emit_singleton (hb : b.arena.Descends)
    (hnode : ∀ kid ∈ node.children, kid < b.nodes.size) :
    (b.emit node).arena.script [b.nodes.size] = b.item node := by
  cases node with
  | action a => rw [Program.script_cons_action (node?_emit_size b _), Program.script_nil, item]
  | block loop kids =>
      have hkids : ∀ kid ∈ kids, kid < b.nodes.size := hnode
      rw [Program.script_cons_block (descends_emit hb hnode) (node?_emit_size b _),
        Program.script_nil, script_emit hb hkids, item]

/-- The sequence that a new node is appended to. -/
theorem script_emit_append (hb : b.arena.Descends)
    (hnode : ∀ kid ∈ node.children, kid < b.nodes.size) {ids : List Nat}
    (hids : ∀ id ∈ ids, id < b.nodes.size) :
    (b.emit node).arena.script (ids ++ [b.nodes.size]) =
      (b.arena.script ids).append (b.item node) := by
  rw [Program.script_append, script_emit hb hids, script_emit_singleton hb hnode]

/-- Open loops that a new node does not go into stand for the same as before. -/
theorem opened_emit (hb : b.Orderly) {blocks : List OpenBlock} (hblocks : ∀ block ∈ blocks, block ∈ b.blocks) :
    blocks.reverse.flatMap (b.emit node).opened = blocks.reverse.flatMap b.opened := by
  apply List.flatMap_congr
  intro block hblock
  have hmem := hblocks block (List.mem_reverse.mp hblock)
  rw [opened, opened, script_emit hb.descends (hb.children_lt block hmem)]

/-- A new node adds its own events at the end. -/
theorem written_emit (hb : b.Orderly) (hnode : ∀ kid ∈ node.children, kid < b.nodes.size) :
    (b.emit node).written = b.written ++ (b.item node).events := by
  have happend {ids : List Nat} (hids : ∀ id ∈ ids, id < b.nodes.size) :
      ((b.emit node).arena.script (ids ++ [b.nodes.size])).events =
        (b.arena.script ids).events ++ (b.item node).events := by
    rw [script_emit_append hb.descends hnode hids, Script.events_append]
  cases hblocks : b.blocks with
  | nil =>
      obtain ⟨hroot, hopen⟩ := emit_of_nil node hblocks
      simp [written, hroot, hopen, hblocks, happend hb.root_lt]
  | cons block outer =>
      obtain ⟨hroot, hopen⟩ := emit_of_cons node hblocks
      have houter : outer.reverse.flatMap (b.emit node).opened = outer.reverse.flatMap b.opened :=
        opened_emit hb fun other h => by simp [hblocks, h]
      have hblock : ∀ id ∈ block.children, id < b.nodes.size :=
        hb.children_lt block (by simp [hblocks])
      simp only [written, hroot, hopen, hblocks, script_emit hb.descends hb.root_lt,
        List.reverse_cons, List.flatMap_append, houter, List.flatMap_cons, List.flatMap_nil]
      simp [opened, happend hblock]

/-- A new node stands at one place, and so do the nodes of its body from then on. -/
theorem placed_emit (hb : b.Orderly) (hnode : ∀ kid ∈ node.children, kid < b.nodes.size) :
    (b.emit node).placed.Perm (b.placed ++ (b.item node).nodes) := by
  have happend {ids : List Nat} (hids : ∀ id ∈ ids, id < b.nodes.size) :
      ((b.emit node).arena.script (ids ++ [b.nodes.size])).nodes =
        (b.arena.script ids).nodes ++ (b.item node).nodes := by
    rw [script_emit_append hb.descends hnode hids, Script.nodes_append]
  cases hblocks : b.blocks with
  | nil =>
      obtain ⟨hroot, hopen⟩ := emit_of_nil node hblocks
      simp [placed, hroot, hopen, hblocks, happend hb.root_lt]
  | cons block outer =>
      obtain ⟨hroot, hopen⟩ := emit_of_cons node hblocks
      have houter : (outer.flatMap fun other => ((b.emit node).arena.script other.children).nodes) =
          outer.flatMap fun other => (b.arena.script other.children).nodes :=
        List.flatMap_congr fun other h => by
          rw [script_emit hb.descends (hb.children_lt other (by simp [hblocks, h]))]
      have hblock : ∀ id ∈ block.children, id < b.nodes.size :=
        hb.children_lt block (by simp [hblocks])
      simp only [placed, hroot, hopen, hblocks, List.flatMap_cons, houter, happend hblock,
        script_emit hb.descends hb.root_lt, List.append_assoc]
      exact (List.perm_append_comm.append_left _).append_left _

end Emit

/-- An orderly builder takes in any node whose children are there. -/
theorem Orderly.emit {b : Builder α} (hb : b.Orderly) {node : Node α}
    (hnode : ∀ kid ∈ node.children, kid < b.nodes.size) : (b.emit node).Orderly := by
  have hgrow {ids : List Nat} (hids : ∀ id ∈ ids, id < b.nodes.size) :
      ∀ id ∈ ids ++ [b.nodes.size], id < b.nodes.size + 1 := by
    intro id hid
    rcases List.mem_append.mp hid with hold | hnew
    · exact Nat.lt_succ_of_lt (hids id hold)
    · rw [List.mem_singleton.mp hnew]
      exact Nat.lt_succ_self _
  have hunrejected : (b.emit node).rejection = none := by
    rw [← hb.unrejected]
    unfold Builder.emit
    cases b.blocks <;> rfl
  have hdescends := descends_emit hb.descends hnode
  have hsize : (b.emit node).nodes.size = b.nodes.size + 1 := by rw [nodes_emit, Array.size_push]
  cases hblocks : b.blocks with
  | nil =>
      obtain ⟨hroot, hopen⟩ := emit_of_nil node hblocks
      refine ⟨hunrejected, hdescends, ?_, by simp [hopen]⟩
      rw [hroot, hsize]
      exact hgrow hb.root_lt
  | cons block outer =>
      obtain ⟨hroot, hopen⟩ := emit_of_cons node hblocks
      refine ⟨hunrejected, hdescends, ?_, ?_⟩
      · rw [hroot, hsize]
        exact fun id hid => Nat.lt_succ_of_lt (hb.root_lt id hid)
      · rw [hopen, hsize]
        intro other hother
        rcases List.mem_cons.mp hother with rfl | hother
        · exact hgrow (hb.children_lt block (by simp [hblocks]))
        · exact fun id hid =>
            Nat.lt_succ_of_lt (hb.children_lt other (by simp [hblocks, hother]) id hid)

/-- A node comes to stand at a place together with the nodes of its body, which have
to be the ones that were lacking. -/
theorem Orderly.sound_emit {b : Builder α} (hb : b.Orderly) {node : Node α}
    (hnode : ∀ kid ∈ node.children, kid < b.nodes.size)
    (hlacking : (b.placed ++ (b.arena.script node.children).nodes).Perm
      (List.range b.nodes.size)) : (b.emit node).Sound := by
  have hitem : (b.item node).nodes = b.nodes.size :: (b.arena.script node.children).nodes := by
    cases node <;> simp [item, Node.children, Script.nodes]
  refine ⟨hb.emit hnode, (placed_emit hb hnode).trans ?_⟩
  rw [hitem, nodes_emit, Array.size_push, List.range_succ]
  exact List.perm_middle.trans
    ((hlacking.cons _).trans (List.perm_append_singleton _ _).symm)

/-! Each of the three kinds of pieces keeps a builder sound and is written at the
end. -/

section Place

variable {b next : Builder α}

theorem sound_place_action (hb : b.Sound) (a : Action α) : (b.emit (.action a)).Sound := by
  refine hb.toOrderly.sound_emit (by simp [Node.children]) ?_
  simpa [Node.children, Script.nodes] using hb.placed_perm

theorem written_place_action (hb : b.Sound) (a : Action α) :
    (b.emit (.action a)).written = b.written ++ [a.event] :=
  written_emit hb.toOrderly (by simp [Node.children])

theorem sound_place_start (hb : b.Sound) (loop : Loop) :
    ({ b with blocks := ⟨loop, []⟩ :: b.blocks } : Builder α).Sound where
  unrejected := hb.unrejected
  descends := hb.descends
  root_lt := hb.root_lt
  children_lt := by
    intro block hmem
    rcases List.mem_cons.mp hmem with rfl | hmem
    · simp
    · exact hb.children_lt block hmem
  placed_perm := by
    have harena : ({ b with blocks := ⟨loop, []⟩ :: b.blocks } : Builder α).arena = b.arena := rfl
    simpa [placed, harena, Script.nodes] using hb.placed_perm

theorem written_place_start (b : Builder α) (loop : Loop) :
    ({ b with blocks := ⟨loop, []⟩ :: b.blocks } : Builder α).written =
      b.written ++ [loop.event] := by
  have hopened : ({ b with blocks := ⟨loop, []⟩ :: b.blocks } : Builder α).opened = b.opened := rfl
  simp only [written, hopened, List.reverse_cons, List.flatMap_append]
  simp [arena, opened, Script.events]

section Finish

variable {block : OpenBlock} {outer : List OpenBlock}

/-- Without its innermost open loop a builder is still orderly. -/
theorem orderly_tail (hb : b.Sound) (h : b.blocks = block :: outer) :
    ({ b with blocks := outer } : Builder α).Orderly where
  unrejected := hb.unrejected
  descends := hb.descends
  root_lt := hb.root_lt
  children_lt := fun other hmem => hb.children_lt other (by simp [h, hmem])

theorem sound_place_finish (hb : b.Sound) (h : b.blocks = block :: outer) :
    (({ b with blocks := outer } : Builder α).emit (.block block.loop block.children)).Sound := by
  refine (orderly_tail hb h).sound_emit (hb.children_lt block (by simp [h])) ?_
  refine List.Perm.trans ?_ hb.placed_perm
  have harena : ({ b with blocks := outer } : Builder α).arena = b.arena := rfl
  simp only [placed, h, harena, Node.children, List.flatMap_cons, List.append_assoc]
  exact List.perm_append_comm.append_left _

theorem written_place_finish (hb : b.Sound) (h : b.blocks = block :: outer) :
    (({ b with blocks := outer } : Builder α).emit (.block block.loop block.children)).written =
      b.written ++ [.finish] := by
  have hkids : ∀ kid ∈ (Node.block (α := α) block.loop block.children).children,
      kid < b.nodes.size := hb.children_lt block (by simp [h])
  rw [written_emit (orderly_tail hb h) hkids]
  have harena : ({ b with blocks := outer } : Builder α).arena = b.arena := rfl
  have hopened : ({ b with blocks := outer } : Builder α).opened = b.opened := rfl
  simp [written, h, hopened, opened, item, harena, Script.events]

end Finish

/-- What a piece does to a builder: it is written at the end, and it opens or closes
a loop or neither. -/
theorem place_spec (hb : b.Sound) {piece : Piece α} (h : b.place piece = .ok next) :
    next.Sound ∧ next.written = b.written ++ [piece.event] ∧
      next.openCount + [piece.event].countP Event.isFinish =
        b.openCount + [piece.event].countP Event.isStart := by
  cases piece with
  | action a =>
      simp only [place, Except.ok.injEq] at h
      subst h
      refine ⟨sound_place_action hb a, written_place_action hb a, ?_⟩
      simp [openCount_emit, Piece.event, Event.isStart_event_action, Event.isFinish_event_action]
  | start loop =>
      simp only [place, Except.ok.injEq] at h
      subst h
      refine ⟨sound_place_start hb loop, written_place_start b loop, ?_⟩
      simp [openCount, Piece.event, Event.isStart_event_loop, Event.isFinish_event_loop]
  | finish =>
      cases hblocks : b.blocks with
      | nil => simp [place, hblocks] at h
      | cons block outer =>
          simp only [place, hblocks, Except.ok.injEq] at h
          subst h
          refine ⟨sound_place_finish hb hblocks, written_place_finish hb hblocks, ?_⟩
          rw [openCount_emit]
          simp [openCount, hblocks, Piece.event, Event.isStart, Event.isFinish]

/-- Only the end of a loop can be out of place. -/
theorem place_eq_ok (b : Builder α) (piece : Piece α)
    (h : piece.event.isFinish → 0 < b.openCount) : ∃ next, b.place piece = .ok next := by
  cases piece with
  | action a => exact ⟨_, rfl⟩
  | start loop => exact ⟨_, rfl⟩
  | finish =>
      cases hblocks : b.blocks with
      | nil => exact absurd (h rfl) (by simp [openCount, hblocks])
      | cons block outer =>
          exact ⟨({ b with blocks := outer } : Builder α).emit (.block block.loop block.children),
            by simp only [place, hblocks]⟩

end Place

variable [Scalar α]

/-- What an accepted event does to a builder. -/
theorem accept_spec {b next : Builder α} (hb : b.Sound) {event : Event α}
    (h : b.accept event = .ok next) :
    event.Valid ∧ next.Sound ∧ next.written = b.written ++ [event] ∧
      next.openCount + [event].countP Event.isFinish =
        b.openCount + [event].countP Event.isStart := by
  obtain ⟨piece, hpiece, hplace⟩ := bind_eq_ok_iff.mp h
  obtain ⟨hvalid, rfl⟩ := Event.event_of_piece_eq_ok hpiece
  exact ⟨hvalid, place_spec hb hplace⟩

theorem accept_eq_ok {b : Builder α} {event : Event α} (hvalid : event.Valid)
    (h : event.isFinish → 0 < b.openCount) : ∃ next, b.accept event = .ok next := by
  obtain ⟨piece, hpiece⟩ := Event.piece_eq_ok_of_valid hvalid
  obtain ⟨-, rfl⟩ := Event.event_of_piece_eq_ok hpiece
  obtain ⟨next, hnext⟩ := place_eq_ok b piece h
  exact ⟨next, bind_eq_ok_iff.mpr ⟨piece, hpiece, hnext⟩⟩

/-- What a stream of accepted events does to a builder. No more loops are ended than
were open or have been started, at any moment. -/
theorem foldlM_accept_spec {events : List (Event α)} {b built : Builder α} (hb : b.Sound)
    (h : events.foldlM accept b = .ok built) :
    built.Sound ∧ built.written = b.written ++ events ∧
      built.openCount + events.countP Event.isFinish =
        b.openCount + events.countP Event.isStart ∧
      (∀ event ∈ events, event.Valid) ∧
      ∀ front, front <+: events →
        front.countP Event.isFinish ≤ b.openCount + front.countP Event.isStart := by
  induction events generalizing b with
  | nil =>
      simp only [List.foldlM_nil, pure, Except.pure, Except.ok.injEq] at h
      subst h
      refine ⟨hb, by simp, by simp, by simp, fun front hfront => ?_⟩
      simp [List.prefix_nil.mp hfront]
  | cons event events ih =>
      rw [List.foldlM_cons] at h
      obtain ⟨next, hnext, hrest⟩ := bind_eq_ok_iff.mp h
      obtain ⟨hvalid, hsound, hwritten, hcount⟩ := accept_spec hb hnext
      obtain ⟨hsound', hwritten', hcount', hvalid', hfronts⟩ := ih hsound hrest
      refine ⟨hsound', by rw [hwritten', hwritten, List.append_assoc, List.singleton_append], ?_,
        List.forall_mem_cons.mpr ⟨hvalid, hvalid'⟩, fun front hfront => ?_⟩
      · rw [Event.countP_first Event.isFinish, Event.countP_first Event.isStart event events]
        omega
      · cases front with
        | nil => simp
        | cons first front =>
            obtain ⟨rfl, htail⟩ := List.cons_prefix_cons.mp hfront
            have := hfronts front htail
            rw [Event.countP_first Event.isFinish, Event.countP_first Event.isStart first front]
            omega

/-- A stream of valid events is accepted if it never ends a loop where none is open. -/
theorem foldlM_accept_eq_ok {events : List (Event α)} {b : Builder α} (hb : b.Sound)
    (hvalid : ∀ event ∈ events, event.Valid)
    (hfronts : ∀ front, front <+: events →
      front.countP Event.isFinish ≤ b.openCount + front.countP Event.isStart) :
    ∃ built, events.foldlM accept b = .ok built := by
  induction events generalizing b with
  | nil => exact ⟨b, rfl⟩
  | cons event events ih =>
      have hfirst := hfronts [event] (by simp)
      obtain ⟨next, hnext⟩ := accept_eq_ok (b := b) (hvalid event List.mem_cons_self) fun hfinish => by
        have hstart : event.isStart = false := by cases event <;> simp_all [Event.isFinish, Event.isStart]
        simp only [List.countP_singleton, hfinish, hstart] at hfirst
        simpa [Nat.succ_le_iff] using hfirst
      obtain ⟨-, hsound, -, hcount⟩ := accept_spec hb hnext
      obtain ⟨built, hbuilt⟩ := ih hsound (fun other h => hvalid other (List.mem_cons_of_mem _ h))
        fun front hfront => by
          have hlonger := hfronts (event :: front) (List.cons_prefix_cons.mpr ⟨rfl, hfront⟩)
          rw [Event.countP_first Event.isFinish, Event.countP_first Event.isStart event front] at hlonger
          omega
      exact ⟨built, by rw [List.foldlM_cons]; exact bind_eq_ok_iff.mpr ⟨next, hnext, hbuilt⟩⟩

end Builder

namespace Program

variable {α : Type}

/-- What holds of every program that was built from events: children stand before
their loop, and every node stands at exactly one place of the tree. -/
structure Sound (p : Program α) : Prop where
  descends : p.Descends
  root_lt : ∀ id ∈ p.root, id < p.size
  nodes_perm : p.outline.nodes.Perm (List.range p.size)

theorem Sound.length_nodes {p : Program α} (hp : p.Sound) : p.outline.nodes.length = p.size := by
  rw [hp.nodes_perm.length_eq, List.length_range]

/-- There are no more loops than nodes. -/
theorem Sound.loops_le {p : Program α} (hp : p.Sound) : p.outline.loops ≤ p.size := by
  rw [← hp.length_nodes]
  exact p.outline.loops_le_length_nodes

theorem Sound.depth_eq {p : Program α} (hp : p.Sound) : p.depth = p.outline.depth :=
  depth_eq_depth_outline hp.descends hp.root_lt

/-- A sound builder gives a program if and only if no loop is open. -/
theorem program_eq_ok_iff {b : Builder α} (hb : b.Sound) {p : Program α} :
    b.program = .ok p ↔ b.openCount = 0 ∧ b.arena = p := by
  cases hblocks : b.blocks with
  | nil => simp [Builder.program, hb.unrejected, hblocks, Builder.openCount, Builder.arena]
  | cons block outer => simp [Builder.program, hb.unrejected, hblocks, Builder.openCount]

variable [Scalar α]

theorem ofEvents_eq_ok_iff {events : List (Event α)} {p : Program α} :
    ofEvents events = .ok p ↔
      ∃ built, events.foldlM Builder.accept Builder.empty = .ok built ∧ built.program = .ok p :=
  bind_eq_ok_iff

theorem sound_of_ofEvents {events : List (Event α)} {p : Program α} (h : ofEvents events = .ok p) :
    p.Sound ∧ p.outline.events = events := by
  obtain ⟨built, hbuilt, hprogram⟩ := ofEvents_eq_ok_iff.mp h
  obtain ⟨hsound, hwritten, -⟩ := Builder.foldlM_accept_spec Builder.sound_empty hbuilt
  obtain ⟨hopen, rfl⟩ := (program_eq_ok_iff hsound).mp hprogram
  have hblocks : built.blocks = [] := List.eq_nil_of_length_eq_zero hopen
  have hplaced := hsound.placed_perm
  rw [Builder.written_empty, List.nil_append] at hwritten
  simp only [Builder.placed, Builder.written, hblocks, List.flatMap_nil, List.reverse_nil,
    List.append_nil] at hplaced hwritten
  exact ⟨⟨hsound.descends, hsound.root_lt, hplaced⟩, hwritten⟩

/-- The streams that are accepted are those of valid events whose loops are balanced:
no loop is ended before it was started, and all are ended in the end. -/
theorem ofEvents_isOk_iff (events : List (Event α)) :
    (∃ p, ofEvents events = .ok p) ↔
      (∀ event ∈ events, event.Valid) ∧
      (∀ front, front <+: events → front.countP Event.isFinish ≤ front.countP Event.isStart) ∧
      events.countP Event.isStart = events.countP Event.isFinish := by
  have hnone : (Builder.empty : Builder α).openCount = 0 := rfl
  constructor
  · rintro ⟨p, h⟩
    obtain ⟨built, hbuilt, hprogram⟩ := ofEvents_eq_ok_iff.mp h
    obtain ⟨hsound, -, hcount, hvalid, hfronts⟩ :=
      Builder.foldlM_accept_spec Builder.sound_empty hbuilt
    have hopen := ((program_eq_ok_iff hsound).mp hprogram).1
    refine ⟨hvalid, ?_, by omega⟩
    intro front hfront
    have := hfronts front hfront
    omega
  · rintro ⟨hvalid, hfronts, hcount⟩
    obtain ⟨built, hbuilt⟩ := Builder.foldlM_accept_eq_ok Builder.sound_empty hvalid
      fun front hfront => by
        have := hfronts front hfront
        omega
    obtain ⟨hsound, -, hcount', -⟩ := Builder.foldlM_accept_spec Builder.sound_empty hbuilt
    exact ⟨built.arena, ofEvents_eq_ok_iff.mpr
      ⟨built, hbuilt, (program_eq_ok_iff hsound).mpr ⟨by omega, rfl⟩⟩⟩

/-- Building a program and writing it out are inverse: the streams accepted are the
balanced ones of valid events, the program built from a stream writes out that very
stream, and so no two streams build the same program. -/
theorem ofEvents_roundTrip (events : List (Event α)) :
    ((∃ p, ofEvents events = .ok p) ↔
      (∀ event ∈ events, event.Valid) ∧
      (∀ front, front <+: events → front.countP Event.isFinish ≤ front.countP Event.isStart) ∧
      events.countP Event.isStart = events.countP Event.isFinish) ∧
    ∀ p, ofEvents events = .ok p →
      p.outline.events = events ∧ ∀ others, ofEvents others = .ok p → others = events := by
  refine ⟨ofEvents_isOk_iff events, ?_⟩
  intro p h
  have hevents := (sound_of_ofEvents h).2
  refine ⟨hevents, ?_⟩
  intro others hothers
  rw [← (sound_of_ofEvents hothers).2, hevents]

end Program

end Flock
