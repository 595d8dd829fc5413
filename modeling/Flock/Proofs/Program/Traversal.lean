import Mathlib.Logic.Relation
import Flock.Program.Listing
import Flock.Proofs.Program.Building

/-!
# Traversals of programs

`Program.Reads` says that a descent through a sequence of nodes, from each loop into its body
and then on, comes to an end, and with which script; where a program names its nodes in a
circle, or names one that it does not have, there is none. What is collected in the course of
such a descent is what is read off the script by recursion. The functions of a program get at
the same without a recursion on the tree: the walk from node to node visits the nodes in the
order of the script (`Reads.walk`), and the tables filled in one pass over the array hold the
depth and the lines of each node read as a sequence (`Sound.lines_eq`).
-/

namespace Flock

namespace Script

variable {α : Type}

/-- The actions, in the order in which they are written. -/
def actions : Script α → List (Action α)
  | done => []
  | action _ a rest => a :: rest.actions
  | block _ _ body rest => body.actions ++ rest.actions

/-- The lines of a listing. -/
def lines (numeral : α → String) : Script α → List String
  | done => []
  | action _ a rest => a.text numeral :: rest.lines numeral
  | block _ loop body rest =>
    (loop.text ++ " " ++ openBrace) ::
      ((body.lines numeral).map ("  " ++ ·) ++ closeBrace :: rest.lines numeral)

theorem lines_append (numeral : α → String) (s t : Script α) :
    (s.append t).lines numeral = s.lines numeral ++ t.lines numeral := by
  induction s with
  | done => rfl
  | action node a rest ih => simp [append, lines, ih]
  | block node loop body rest _ ih => simp [append, lines, ih]

end Script

namespace Program

variable {α : Type} {p : Program α} {ids : List Nat} {s t : Script α}

/-- The descent through a sequence of nodes comes to an end, with all that it has met written
out. -/
inductive Reads (p : Program α) : List Nat → Script α → Prop where
  | done : Reads p [] .done
  | action {id : Nat} {ids : List Nat} {a : Action α} {rest : Script α}
      (hnode : p.node? id = some (.action a)) (hrest : Reads p ids rest) :
      Reads p (id :: ids) (.action id a rest)
  | block {id : Nat} {ids kids : List Nat} {loop : Loop} {body rest : Script α}
      (hnode : p.node? id = some (.block loop kids)) (hbody : Reads p kids body)
      (hrest : Reads p ids rest) : Reads p (id :: ids) (.block id loop body rest)

/-- A node can be got to from another one, from loops to nodes of their bodies. -/
def Below (p : Program α) : Nat → Nat → Prop :=
  Relation.ReflTransGen fun id kid => kid ∈ p.children id

theorem children_of_action {id : Nat} {a : Action α} (h : p.node? id = some (.action a)) :
    p.children id = [] := by
  rw [children, h]
  rfl

theorem children_of_block {id : Nat} {loop : Loop} {kids : List Nat}
    (h : p.node? id = some (.block loop kids)) : p.children id = kids := by
  rw [children, h]
  rfl

namespace Reads

/-- There is only one way through a sequence. -/
theorem unique (hs : p.Reads ids s) (ht : p.Reads ids t) : s = t := by
  induction hs generalizing t with
  | done =>
      cases ht
      rfl
  | action hnode _ ih =>
      cases ht with
      | action hnode' hrest =>
          obtain rfl := Node.action.inj (Option.some.inj (hnode.symm.trans hnode'))
          rw [ih hrest]
      | block hnode' => exact absurd (hnode.symm.trans hnode') (by simp)
  | block hnode _ _ ihBody ihRest =>
      cases ht with
      | action hnode' => exact absurd (hnode.symm.trans hnode') (by simp)
      | block hnode' hbody hrest =>
          obtain ⟨rfl, rfl⟩ := Node.block.inj (Option.some.inj (hnode.symm.trans hnode'))
          rw [ihBody hbody, ihRest hrest]

/-- The nodes met are those of the sequence and the children of those met. -/
theorem nodes_perm (h : p.Reads ids s) : s.nodes.Perm (ids ++ s.nodes.flatMap p.children) := by
  induction h with
  | done => exact List.Perm.refl _
  | action hnode _ ih =>
      simpa [Script.nodes, children_of_action hnode] using ih
  | block hnode _ _ ihBody ihRest =>
      rw [List.perm_iff_count] at ihBody ihRest ⊢
      intro id
      have hbody := ihBody id
      have hrest := ihRest id
      simp only [Script.nodes, List.flatMap_cons, List.flatMap_append, children_of_block hnode,
        List.cons_append, List.count_cons, List.count_append] at *
      omega

/-- The nodes met are those that can be got to from the sequence. -/
theorem mem_nodes_iff (h : p.Reads ids s) (id : Nat) :
    id ∈ s.nodes ↔ ∃ top ∈ ids, p.Below top id := by
  induction h with
  | done => simp [Script.nodes]
  | @action top ids a rest hnode _ ih =>
      have htop : p.Below top id ↔ id = top := by
        constructor
        · intro hbelow
          rcases hbelow.cases_head with rfl | ⟨kid, hkid, -⟩
          · rfl
          · exact absurd hkid (by simp [children_of_action hnode])
        · rintro rfl
          exact .refl
      simp [Script.nodes, ih, htop]
  | @block top ids kids loop body rest hnode _ _ ihBody ihRest =>
      have htop : p.Below top id ↔ id = top ∨ ∃ kid ∈ kids, p.Below kid id := by
        constructor
        · intro hbelow
          rcases hbelow.cases_head with rfl | ⟨kid, hkid, hbelow⟩
          · exact .inl rfl
          · exact .inr ⟨kid, by rwa [children_of_block hnode] at hkid, hbelow⟩
        · rintro (rfl | ⟨kid, hkid, hbelow⟩)
          · exact .refl
          · exact .head (by rwa [children_of_block hnode]) hbelow
      simp [Script.nodes, ihBody, ihRest, htop, or_assoc]

/-- A walk that may visit enough nodes visits those of the script, in their order, and is then
where it would be without them. -/
theorem walk (h : p.Reads ids s) {n : Nat} (hn : s.nodes.length ≤ n) (pending : List Nat) :
    p.walk n (ids ++ pending) = s.nodes ++ p.walk (n - s.nodes.length) pending := by
  induction h generalizing n pending with
  | done => rfl
  | @action id ids a rest hnode _ ih =>
      obtain ⟨m, rfl⟩ : ∃ m, n = m + 1 := Nat.exists_eq_add_one.mpr (Nat.zero_lt_of_lt hn)
      have hm : rest.nodes.length ≤ m := Nat.le_of_succ_le_succ hn
      rw [List.cons_append, Program.walk, children_of_action hnode, List.nil_append, ih hm,
        Script.nodes, List.length_cons, Nat.add_sub_add_right, List.cons_append]
  | @block id ids kids loop body rest hnode _ _ ihBody ihRest =>
      obtain ⟨m, rfl⟩ : ∃ m, n = m + 1 := Nat.exists_eq_add_one.mpr (Nat.zero_lt_of_lt hn)
      have hm : body.nodes.length + rest.nodes.length ≤ m := by
        simpa [Script.nodes] using hn
      -- what the loop stands in front of is pending while its body is walked through
      rw [List.cons_append, Program.walk, children_of_block hnode, ihBody (by omega),
        ihRest (by omega), Script.nodes, List.length_cons, List.length_append,
        Nat.add_sub_add_right, Nat.sub_sub, List.cons_append, List.append_assoc]

/-- The actions met on the way. -/
theorem filterMap_action? (h : p.Reads ids s) :
    s.nodes.filterMap (fun id => (p.node? id).bind Node.action?) = s.actions := by
  induction h with
  | done => rfl
  | action hnode _ ih => simp [Script.nodes, Script.actions, hnode, Node.action?, ih]
  | block hnode _ _ ihBody ihRest =>
      simp [Script.nodes, Script.actions, hnode, Node.action?, ihBody, ihRest]

end Reads

/-- In a program whose children stand before their loop every descent comes to an end. -/
theorem reads_script (hp : p.Descends) (hids : ∀ id ∈ ids, id < p.size) :
    p.Reads ids (p.script ids) := by
  suffices h : ∀ bound ids, (∀ id ∈ ids, id < bound ∧ id < p.size) → p.Reads ids (p.script ids) from
    h p.size ids fun id hid => ⟨hids id hid, hids id hid⟩
  -- the nodes of a body stand before the loop, so the bound can be lowered
  intro bound
  induction bound with
  | zero =>
      intro ids hids
      obtain rfl := List.eq_nil_iff_forall_not_mem.mpr fun id hid => Nat.not_lt_zero _ (hids id hid).1
      rw [script_nil]
      exact .done
  | succ bound ihBound =>
      intro ids hids
      induction ids with
      | nil =>
          rw [script_nil]
          exact .done
      | cons id ids ih =>
          have hrest := ih fun other hother => hids other (List.mem_cons_of_mem _ hother)
          obtain ⟨hbound, hsize⟩ := hids id List.mem_cons_self
          obtain ⟨node, hnode⟩ := p.exists_node? hsize
          cases node with
          | action a =>
              rw [script_cons_action hnode]
              exact .action hnode hrest
          | block loop kids =>
              rw [script_cons_block hp hnode]
              refine .block hnode (ihBound kids fun kid hkid => ?_) hrest
              have hless := hp id loop kids hnode kid hkid
              omega

theorem flatMap_lines (numeral : α → String) (p : Program α) (f : Nat → List String)
    (ids : List Nat) (hf : ∀ id ∈ ids, f id = (p.script [id]).lines numeral) :
    ids.flatMap f = (p.script ids).lines numeral := by
  induction ids with
  | nil => rw [script_nil]; rfl
  | cons id ids ih =>
      have hcons : p.script (id :: ids) = (p.script [id]).append (p.script ids) :=
        script_append p [id] ids
      rw [List.flatMap_cons, hf id List.mem_cons_self,
        ih fun other hother => hf other (List.mem_cons_of_mem _ hother), hcons, Script.lines_append]

/-- The table of lines holds those of every node read as a sequence. -/
theorem lineTable_getD (numeral : α → String) (hp : p.Descends) {id : Nat} (hid : id < p.size) :
    (p.lineTable numeral).getD id [] = (p.script [id]).lines numeral := by
  refine (tabulate_getD p _ [] (fun id => (p.script [id]).lines numeral) ?_).2 id hid
  intro id node table hnode _ htable
  cases node with
  | action a => simp [script_cons_action hnode, Script.lines]
  | block loop kids =>
      have hkids : ∀ kid ∈ kids, table.getD kid [] = (p.script [kid]).lines numeral :=
        fun kid hkid => htable kid (hp id loop kids hnode kid hkid)
      rw [script_cons_block hp hnode, Script.lines, script_nil, Script.lines,
        ← flatMap_lines numeral p _ kids hkids]

namespace Sound

variable (hp : p.Sound)

include hp

theorem reads_outline : p.Reads p.root p.outline := reads_script hp.descends hp.root_lt

/-- A walk that may visit as many nodes as there are, or more, visits them all and ends. -/
theorem walk_root {n : Nat} (hn : p.size ≤ n) : p.walk n p.root = p.outline.nodes := by
  have hlength : p.outline.nodes.length ≤ n := by rwa [hp.length_nodes]
  have hwalk := hp.reads_outline.walk hlength []
  have hend : p.walk (n - p.outline.nodes.length) [] = [] := by
    cases n - p.outline.nodes.length <;> rfl
  rwa [List.append_nil, hend, List.append_nil] at hwalk

theorem actions_eq : p.actions = p.outline.actions := by
  rw [actions, preorder, hp.walk_root (Nat.le_refl _)]
  exact hp.reads_outline.filterMap_action?

theorem lines_eq (numeral : α → String) : p.lines numeral = p.outline.lines numeral :=
  flatMap_lines numeral p _ p.root fun _ hid => lineTable_getD numeral hp.descends (hp.root_lt _ hid)

end Sound

end Program

end Flock
