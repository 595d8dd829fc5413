import Flock.Proofs.Cursor.Shape

/-!
# The search for the next action

A step closes the outermost loop that has come to its end and then hops from node
to node. `Cursor.EndsIn` is this search without any limit on the number of hops,
`Cursor.Leads` a part of it; `Cursor.seek` is the search with a limit, and agrees
with the unlimited one wherever that ends in time (`seek_of_endsIn`).
-/

namespace Flock

namespace Cursor

variable {α : Type}

/-- The search from a cursor, hop by hop and without a limit, ends after a number of
hops. -/
inductive EndsIn (p : Program α) (inside : String → Bool) : Nat → Cursor → Found α → Prop where
  | reached {c : Cursor} {id : Nat} {a : Action α} (h : c.hop p inside = .reached id a) :
      EndsIn p inside 0 c ⟨c, 0, some (id, a)⟩
  | rest {c : Cursor} (h : c.hop p inside = .rest) : EndsIn p inside 0 c ⟨c, 0, none⟩
  | entered {n : Nat} {c d : Cursor} {found : Found α} (h : c.hop p inside = .entered d)
      (hd : EndsIn p inside n d found) : EndsIn p inside (n + 1) c found
  | closed {n : Nat} {c d : Cursor} {found : Found α} (h : c.hop p inside = .closed d)
      (hd : EndsIn p inside n d found) :
      EndsIn p inside (n + 1) c { found with closed := found.closed + 1 }

/-- A number of hops lead from one cursor to another. -/
inductive Leads (p : Program α) (inside : String → Bool) : Nat → Cursor → Cursor → Prop where
  | refl (c : Cursor) : Leads p inside 0 c c
  | entered {n : Nat} {c d e : Cursor} (h : c.hop p inside = .entered d)
      (hd : Leads p inside n d e) : Leads p inside (n + 1) c e
  | closed {n : Nat} {c d e : Cursor} (h : c.hop p inside = .closed d)
      (hd : Leads p inside n d e) : Leads p inside (n + 1) c e

/-- Whether the innermost loop has come to its end. -/
def topDone (p : Program α) (inside : String → Bool) : List Frame → Bool
  | [] => false
  | f :: _ => f.isDone p inside

variable {p : Program α} {inside : String → Bool} {c d : Cursor}

theorem topDone_eq_false {frames : List Frame} (h : ∀ g ∈ frames, g.isDone p inside = false) :
    topDone p inside frames = false := by
  cases frames with
  | nil => rfl
  | cons f outer => exact h f List.mem_cons_self

/-! What each outcome of a hop says about the cursor. -/

theorem hop_of_topDone {f : Frame} {outer : List Frame} (hframes : c.frames = f :: outer)
    (h : f.isDone p inside) :
    c.hop p inside = .closed ((⟨c.index, outer, none⟩ : Cursor).advance p) := by
  simp [hop, hframes, h, leave]

theorem hop_of_not_topDone (h : topDone p inside c.frames = false) :
    c.hop p inside = c.look p := by
  unfold hop
  cases hframes : c.frames with
  | nil => rfl
  | cons f outer =>
      rw [hframes, topDone] at h
      simp [h]

theorem closed_of_hop (h : c.hop p inside = .closed d) :
    ∃ f outer, c.frames = f :: outer ∧ f.isDone p inside ∧
      d = (⟨c.index, outer, none⟩ : Cursor).advance p := by
  cases hdone : topDone p inside c.frames with
  | false =>
      rw [hop_of_not_topDone hdone, look] at h
      repeat' split at h
      all_goals simp at h
  | true =>
      cases hframes : c.frames with
      | nil => simp [hframes, topDone] at hdone
      | cons f outer =>
          rw [hframes, topDone] at hdone
          rw [hop_of_topDone hframes hdone, Hop.closed.injEq] at h
          exact ⟨f, outer, rfl, hdone, h.symm⟩

theorem not_topDone_of_hop (h : ∀ d, c.hop p inside ≠ .closed d) :
    topDone p inside c.frames = false := by
  cases hframes : c.frames with
  | nil => rfl
  | cons f outer =>
      by_contra hdone
      exact h _ (hop_of_topDone hframes (by simpa [topDone] using hdone))

theorem entered_of_hop (h : c.hop p inside = .entered d) :
    topDone p inside c.frames = false ∧ ∃ id loop kids, c.current? p = some id ∧
      p.node? id = some (.block loop kids) ∧ d = { c with frames := .enter id :: c.frames } := by
  have hdone : topDone p inside c.frames = false := not_topDone_of_hop (by simp [h])
  rw [hop_of_not_topDone hdone, look] at h
  refine ⟨hdone, ?_⟩
  split at h
  · exact absurd h (by simp)
  · next id hid =>
    split at h
    · exact absurd h (by simp)
    · exact absurd h (by simp)
    · next loop kids hnode => exact ⟨id, loop, kids, hid, hnode, (Hop.entered.inj h).symm⟩

theorem reached_of_hop {id : Nat} {a : Action α} (h : c.hop p inside = .reached id a) :
    topDone p inside c.frames = false ∧ c.current? p = some id ∧
      p.node? id = some (.action a) := by
  have hdone : topDone p inside c.frames = false := not_topDone_of_hop (by simp [h])
  rw [hop_of_not_topDone hdone, look] at h
  refine ⟨hdone, ?_⟩
  split at h
  · exact absurd h (by simp)
  · next other hother =>
    split at h
    · exact absurd h (by simp)
    · next b hnode =>
      obtain ⟨rfl, rfl⟩ := Hop.reached.inj h
      exact ⟨hother, hnode⟩
    · exact absurd h (by simp)

theorem rest_of_hop (h : c.hop p inside = .rest) :
    topDone p inside c.frames = false ∧ ∀ id, c.current? p = some id → p.node? id = none := by
  have hdone : topDone p inside c.frames = false := not_topDone_of_hop (by simp [h])
  rw [hop_of_not_topDone hdone, look] at h
  refine ⟨hdone, ?_⟩
  intro id hid
  rw [hid] at h
  cases hnode : p.node? id with
  | none => rfl
  | some node => cases node <;> simp [hnode] at h

theorem hop_of_action {id : Nat} {a : Action α} (hdone : topDone p inside c.frames = false)
    (hid : c.current? p = some id) (hnode : p.node? id = some (.action a)) :
    c.hop p inside = .reached id a := by
  simp [hop_of_not_topDone hdone, look, hid, hnode]

theorem hop_of_block {id : Nat} {loop : Loop} {kids : List Nat}
    (hdone : topDone p inside c.frames = false) (hid : c.current? p = some id)
    (hnode : p.node? id = some (.block loop kids)) :
    c.hop p inside = .entered { c with frames := .enter id :: c.frames } := by
  simp [hop_of_not_topDone hdone, look, hid, hnode]

theorem hop_of_none (hdone : topDone p inside c.frames = false) (hid : c.current? p = none) :
    c.hop p inside = .rest := by
  simp [hop_of_not_topDone hdone, look, hid]

/-! Searches put together and taken apart. -/

theorem Leads.trans {n m : Nat} {e : Cursor} (h : Leads p inside n c d)
    (h' : Leads p inside m d e) : Leads p inside (n + m) c e := by
  induction h with
  | refl => simpa using h'
  | @entered n _ _ _ hop _ ih =>
      rw [Nat.add_right_comm]
      exact .entered hop (ih h')
  | @closed n _ _ _ hop _ ih =>
      rw [Nat.add_right_comm]
      exact .closed hop (ih h')

/-- A search that is led on ends where the rest of it ends. -/
theorem Leads.endsIn {n m : Nat} {found : Found α} (h : Leads p inside n c d)
    (hd : EndsIn p inside m d found) : ∃ earlier, EndsIn p inside (n + m) c earlier ∧
      earlier.cursor = found.cursor ∧ earlier.action? = found.action? := by
  induction h with
  | refl => exact ⟨found, by simpa using hd, rfl, rfl⟩
  | @entered n _ _ _ hop _ ih =>
      obtain ⟨earlier, hends, hcursor, haction⟩ := ih hd
      rw [Nat.add_right_comm]
      exact ⟨earlier, .entered hop hends, hcursor, haction⟩
  | @closed n _ _ _ hop _ ih =>
      obtain ⟨earlier, hends, hcursor, haction⟩ := ih hd
      rw [Nat.add_right_comm]
      exact ⟨_, .closed hop hends, hcursor, haction⟩

/-- A search that ends passes through every cursor that it is led to. -/
theorem EndsIn.of_leads {n m : Nat} {found : Found α} (h : EndsIn p inside n c found)
    (hd : Leads p inside m c d) : ∃ k rest, n = m + k ∧ EndsIn p inside k d rest ∧
      rest.cursor = found.cursor ∧ rest.action? = found.action? := by
  induction hd generalizing n found with
  | refl => exact ⟨n, found, by simp, h, rfl, rfl⟩
  | @entered m _ _ _ hop _ ih =>
      cases h with
      | reached h => exact absurd (h.symm.trans hop) (by simp)
      | rest h => exact absurd (h.symm.trans hop) (by simp)
      | closed h => exact absurd (h.symm.trans hop) (by simp)
      | entered h hends =>
          obtain rfl := Hop.entered.inj (h.symm.trans hop)
          obtain ⟨k, rest, hn, hrest, hcursor, haction⟩ := ih hends
          exact ⟨k, rest, by omega, hrest, hcursor, haction⟩
  | @closed m _ _ _ hop _ ih =>
      cases h with
      | reached h => exact absurd (h.symm.trans hop) (by simp)
      | rest h => exact absurd (h.symm.trans hop) (by simp)
      | entered h => exact absurd (h.symm.trans hop) (by simp)
      | closed h hends =>
          obtain rfl := Hop.closed.inj (h.symm.trans hop)
          obtain ⟨k, rest, hn, hrest, hcursor, haction⟩ := ih hends
          exact ⟨k, rest, by omega, hrest, hcursor, haction⟩

/-- The hops of a search that ends. -/
theorem EndsIn.leads {n : Nat} {found : Found α} (h : EndsIn p inside n c found) :
    Leads p inside n c found.cursor := by
  induction h with
  | reached => exact .refl _
  | rest => exact .refl _
  | entered hop _ ih => exact .entered hop ih
  | closed hop _ ih => exact .closed hop ih

/-- What a search stands on where it ends. -/
theorem EndsIn.hop_eq {n : Nat} {found : Found α} (h : EndsIn p inside n c found) :
    found.cursor.hop p inside =
      match found.action? with
      | some (id, a) => .reached id a
      | none => .rest := by
  induction h with
  | reached h => exact h
  | rest h => exact h
  | entered _ _ ih => exact ih
  | closed _ _ ih => exact ih

/-- A limit that is not met makes no difference. -/
theorem seek_of_endsIn {n limit : Nat} {found : Found α} (h : EndsIn p inside n c found)
    (hlimit : n < limit) : seek p inside limit c = found := by
  induction h generalizing limit with
  | reached h =>
      obtain ⟨m, rfl⟩ := Nat.exists_eq_add_of_lt hlimit
      simp [seek, h]
  | rest h =>
      obtain ⟨m, rfl⟩ := Nat.exists_eq_add_of_lt hlimit
      simp [seek, h]
  | entered h _ ih =>
      cases limit with
      | zero => omega
      | succ limit =>
          have hrest : seek p inside limit _ = _ := ih (by omega)
          simp [seek, h, hrest]
  | closed h _ ih =>
      cases limit with
      | zero => omega
      | succ limit =>
          have hrest : seek p inside limit _ = _ := ih (by omega)
          simp [seek, h, hrest]

/-- A search ends in one way only. -/
theorem EndsIn.unique {n m : Nat} {found other : Found α} (h : EndsIn p inside n c found)
    (h' : EndsIn p inside m c other) : n = m ∧ found = other := by
  obtain ⟨k, -, hk, -⟩ := h'.of_leads h.leads
  obtain ⟨l, -, hl, -⟩ := h.of_leads h'.leads
  have hn : seek p inside (max n m + 1) c = found := seek_of_endsIn h (by omega)
  have hm : seek p inside (max n m + 1) c = other := seek_of_endsIn h' (by omega)
  exact ⟨by omega, hn.symm.trans hm⟩

/-- A search with a limit ends as the unlimited search does, or meets the limit and
has found nothing. -/
theorem seek_cases (p : Program α) (inside : String → Bool) (limit : Nat) (c : Cursor) :
    (∃ n < limit, EndsIn p inside n c (seek p inside limit c)) ∨
      Leads p inside limit c (seek p inside limit c).cursor ∧
        (seek p inside limit c).action? = none := by
  induction limit generalizing c with
  | zero => exact .inr ⟨.refl c, rfl⟩
  | succ limit ih =>
      cases hhop : c.hop p inside with
      | reached id a =>
          refine .inl ⟨0, Nat.succ_pos _, ?_⟩
          simpa [seek, hhop] using EndsIn.reached hhop
      | rest =>
          refine .inl ⟨0, Nat.succ_pos _, ?_⟩
          simpa [seek, hhop] using EndsIn.rest hhop
      | entered next =>
          simp only [seek, hhop]
          rcases ih next with ⟨n, hn, hends⟩ | ⟨hleads, hnone⟩
          · exact .inl ⟨n + 1, by omega, .entered hhop hends⟩
          · exact .inr ⟨.entered hhop hleads, hnone⟩
      | closed next =>
          simp only [seek, hhop]
          rcases ih next with ⟨n, hn, hends⟩ | ⟨hleads, hnone⟩
          · exact .inl ⟨n + 1, by omega, .closed hhop hends⟩
          · exact .inr ⟨.closed hhop hleads, hnone⟩

end Cursor

end Flock
