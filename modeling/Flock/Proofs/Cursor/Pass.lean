import Flock.Proofs.Cursor.Reachable

/-!
# What becomes of a pass

A pass over the body of a loop either goes through without an action, or comes to an
action, or gets stuck: at a loop without end that has nothing to run. As long as the
agent stays where it is, which of the three it will be can be read off the body
(`Script.fate`), and so can a bound on the hops it takes: two for each loop in the body
(`passes`).
-/

namespace Flock

/-- What becomes of a pass over a sequence. -/
inductive Fate where
  /-- It goes through without an action. -/
  | through
  /-- It comes to an action. -/
  | acts
  /-- It comes to a loop without end and without an action to run. -/
  | stuck
deriving DecidableEq, Repr

namespace Fate

/-- A sequence that is gone through leads on to what stands after it. -/
def andThen : Fate → Fate → Fate
  | through, fate => fate
  | acts, _ => acts
  | stuck, _ => stuck

@[simp] theorem andThen_through (fate : Fate) : fate.andThen .through = fate := by
  cases fate <;> rfl

/-- A loop without end is never gone through. -/
def endless : Fate → Fate
  | acts => acts
  | _ => stuck

theorem through_of_andThen {fate after : Fate} (h : fate.andThen after = through) :
    fate = through ∧ after = through := by
  cases fate with
  | through => exact ⟨rfl, h⟩
  | acts => exact absurd h (by simp [andThen])
  | stuck => exact absurd h (by simp [andThen])

theorem endless_ne_through (fate : Fate) : fate.endless ≠ through := by
  cases fate <;> simp [endless]

end Fate

/-- What becomes of a pass at a loop, from what becomes of one over its body. -/
def Loop.fate (inside : String → Bool) : Loop → Fate → Fate
  | times count, body => if count.toNat = 0 then .through else body
  | forever, body => body.endless
  | untilIn region, body => if inside region then .through else body.endless

/-- What becomes of a pass over a sequence from its start, for an agent that stands in
the regions given by `inside`. -/
def Script.fate {α : Type} (inside : String → Bool) : Script α → Fate
  | .done => .through
  | .action .. => .acts
  | .block _ loop body rest => (loop.fate inside (body.fate inside)).andThen (rest.fate inside)

theorem Script.fate_append {α : Type} (inside : String → Bool) (s t : Script α) :
    (s.append t).fate inside = (s.fate inside).andThen (t.fate inside) := by
  induction s with
  | done => rfl
  | action => rfl
  | block node loop body rest _ ih =>
      simp only [Script.append, Script.fate, ih]
      cases loop.fate inside (body.fate inside) <;> rfl

namespace Cursor

variable {α : Type} {p : Program α} {inside : String → Bool} {c d : Cursor}

/-- The rest of the sequence that the cursor stands in. -/
def pending (p : Program α) (c : Cursor) : List Nat :=
  (level p c.frames).drop (spot c.index c.frames)

/-- The cursor when the sequence that it stands in has been gone through: a pass is
counted, and the top-level sequence is at its end. -/
def past (p : Program α) (c : Cursor) : Cursor :=
  match c.frames with
  | [] => ⟨p.root.length, [], none⟩
  | f :: outer => ⟨c.index, ⟨f.node, 0, f.passesAfter p, false⟩ :: outer, none⟩

/-- The cursor moved past a loop at its place. -/
def beyond (p : Program α) (c : Cursor) : Cursor :=
  (⟨c.index, c.frames, none⟩ : Cursor).advance p

theorem current?_of_pending {id : Nat} {ids : List Nat} (h : c.pending p = id :: ids) :
    c.current? p = some id ∧ ids = (level p c.frames).drop (spot c.index c.frames + 1) := by
  rw [pending] at h
  have hid := congrArg List.head? h
  have hids := congrArg List.tail h
  rw [List.head?_drop, List.head?_cons] at hid
  rw [List.tail_drop, List.tail_cons] at hids
  exact ⟨by rw [current?_eq, hid], hids.symm⟩

theorem hop_of_pending_nil (h : c.pending p = []) (hdone : topDone p inside c.frames = false) :
    c.hop p inside = .rest := by
  refine hop_of_none hdone ?_
  rw [current?_eq]
  exact List.getElem?_eq_none (List.drop_eq_nil_iff.mp h)

theorem beyond_eq_past (h : (level p c.frames).length = spot c.index c.frames + 1) :
    c.beyond p = c.past p := by
  unfold beyond past advance
  cases hframes : c.frames with
  | nil =>
      rw [hframes, level, spot] at h
      simp [h]
  | cons f outer =>
      rw [hframes, level, spot] at h
      simp [Frame.advance_of_le (p := p) (f := f) (by omega)]

/-- Behind the top-level sequence there is nothing. -/
theorem hop_past_of_nil (h : c.frames = []) : (c.past p).hop p inside = .rest := by
  rw [past, h]
  exact hop_of_pending_nil (by simp [pending, level, spot]) rfl

section Beyond

variable (h : spot c.index c.frames + 1 < (level p c.frames).length)

include h

/-- Within its sequence, a cursor moved on differs only in its place. -/
theorem beyond_of_lt : (c.frames = [] ∧ c.beyond p = ⟨c.index + 1, [], none⟩) ∨
    ∃ f outer, c.frames = f :: outer ∧
      c.beyond p = ⟨c.index, { f with index := f.index + 1 } :: outer, none⟩ := by
  cases hframes : c.frames with
  | nil => exact .inl ⟨rfl, by simp [beyond, advance, hframes]⟩
  | cons f outer =>
      rw [hframes, level, spot] at h
      exact .inr ⟨f, outer, rfl, by simp [beyond, advance, hframes, Frame.advance_of_lt h]⟩

theorem pending_beyond :
    (c.beyond p).pending p = (level p c.frames).drop (spot c.index c.frames + 1) := by
  rcases beyond_of_lt h with ⟨hframes, hbeyond⟩ | ⟨f, outer, hframes, hbeyond⟩
  · rw [hbeyond, hframes]
    rfl
  · rw [hbeyond, hframes]
    rfl

theorem topDone_beyond :
    topDone p inside (c.beyond p).frames = topDone p inside c.frames := by
  rcases beyond_of_lt h with ⟨hframes, hbeyond⟩ | ⟨f, outer, hframes, hbeyond⟩
  · rw [hbeyond, hframes]
  · rw [hbeyond, hframes]
    rfl

theorem past_beyond : (c.beyond p).past p = c.past p := by
  rcases beyond_of_lt h with ⟨hframes, hbeyond⟩ | ⟨f, outer, hframes, hbeyond⟩
  · rw [hbeyond, past, past, hframes]
  · rw [hbeyond, past, past, hframes]
    rfl

end Beyond

/-- A stretch of the search that meets its fate within a number of hops, and leads from
`c` to `d` if it goes through. -/
structure Passes (p : Program α) (inside : String → Bool) (c d : Cursor) (bound : Nat)
    (fate : Fate) : Prop where
  through : fate = .through → ∃ n, 0 < n ∧ n ≤ bound ∧ Leads p inside n c d
  acts : fate = .acts → ∃ n ≤ bound, ∃ found, EndsIn p inside n c found ∧ found.action?.isSome
  stuck : fate = .stuck → ∀ n found, EndsIn p inside n c found → n ≤ bound ∧ found.action? = none

namespace Passes

variable {e : Cursor} {m n : Nat} {fate fate' : Fate}

theorem of_entered (h : c.hop p inside = .entered d) : Passes p inside c d 1 .through :=
  ⟨fun _ => ⟨1, Nat.one_pos, Nat.le_refl _, .entered h (.refl d)⟩, fun h => by simp at h,
    fun h => by simp at h⟩

theorem of_closed (h : c.hop p inside = .closed d) : Passes p inside c d 1 .through :=
  ⟨fun _ => ⟨1, Nat.one_pos, Nat.le_refl _, .closed h (.refl d)⟩, fun h => by simp at h,
    fun h => by simp at h⟩

theorem of_reached {id : Nat} {a : Action α} (h : c.hop p inside = .reached id a) (d : Cursor) :
    Passes p inside c d 0 .acts :=
  ⟨fun h => by simp at h, fun _ => ⟨0, Nat.le_refl _, _, .reached h, rfl⟩, fun h => by simp at h⟩

theorem of_rest (h : c.hop p inside = .rest) (d : Cursor) : Passes p inside c d 0 .stuck := by
  refine ⟨fun h => by simp at h, fun h => by simp at h, ?_⟩
  intro _ n found hends
  obtain ⟨rfl, rfl⟩ := hends.unique (.rest h)
  exact ⟨Nat.le_refl _, rfl⟩

/-- A search that never ends is stuck. -/
theorem of_never (h : ∀ n found, ¬EndsIn p inside n c found) (d : Cursor) :
    Passes p inside c d 0 .stuck :=
  ⟨fun h => by simp at h, fun h => by simp at h, fun _ n found hends => absurd hends (h n found)⟩

theorem mono (h : Passes p inside c d m fate) (hle : m ≤ n) : Passes p inside c d n fate := by
  constructor
  · intro hfate
    obtain ⟨k, hpos, hk, hleads⟩ := h.through hfate
    exact ⟨k, hpos, Nat.le_trans hk hle, hleads⟩
  · intro hfate
    obtain ⟨k, hk, hends⟩ := h.acts hfate
    exact ⟨k, Nat.le_trans hk hle, hends⟩
  · intro hfate k found hends
    obtain ⟨hk, hnone⟩ := h.stuck hfate k found hends
    exact ⟨Nat.le_trans hk hle, hnone⟩

/-- One stretch after another. -/
theorem andThen (h : Passes p inside c d m fate) (h' : Passes p inside d e n fate') :
    Passes p inside c e (m + n) (fate.andThen fate') := by
  cases fate with
  | through =>
      obtain ⟨k, hpos, hk, hleads⟩ := h.through rfl
      constructor
      · intro hfate
        obtain ⟨l, -, hl, hleads'⟩ := h'.through hfate
        exact ⟨k + l, by omega, Nat.add_le_add hk hl, hleads.trans hleads'⟩
      · intro hfate
        obtain ⟨l, hl, found, hends, haction⟩ := h'.acts hfate
        obtain ⟨earlier, hearlier, -, heq⟩ := hleads.endsIn hends
        exact ⟨k + l, Nat.add_le_add hk hl, earlier, hearlier, by rwa [heq]⟩
      · intro hfate l found hends
        obtain ⟨j, rest, rfl, hrest, -, haction⟩ := hends.of_leads hleads
        obtain ⟨hj, hnone⟩ := h'.stuck hfate j rest hrest
        exact ⟨Nat.add_le_add hk hj, by rw [← haction, hnone]⟩
  | acts =>
      refine ⟨fun hfate => by simp [Fate.andThen] at hfate, ?_,
        fun hfate => by simp [Fate.andThen] at hfate⟩
      intro _
      obtain ⟨k, hk, hends⟩ := h.acts rfl
      exact ⟨k, Nat.le_trans hk (Nat.le_add_right m n), hends⟩
  | stuck =>
      refine ⟨fun hfate => by simp [Fate.andThen] at hfate,
        fun hfate => by simp [Fate.andThen] at hfate, ?_⟩
      intro _ l found hends
      obtain ⟨hl, hnone⟩ := h.stuck rfl l found hends
      exact ⟨Nat.le_trans hl (Nat.le_add_right m n), hnone⟩

/-- The end of a stretch that does not go through is of no account. -/
theorem of_ne_through (h : Passes p inside c d n fate) (hfate : fate ≠ .through) (e : Cursor) :
    Passes p inside c e n fate :=
  ⟨fun hthrough => absurd hthrough hfate, h.acts, h.stuck⟩

end Passes

/-- A search that is led back to where it was never ends. -/
theorem not_endsIn_of_leads (good : Cursor → Prop)
    (hgood : ∀ c, good c → ∃ d n, 0 < n ∧ good d ∧ Leads p inside n c d) (hc : good c) :
    ∀ n found, ¬EndsIn p inside n c found := by
  intro n
  induction n using Nat.strongRecOn generalizing c with
  | ind n ih =>
      intro found hends
      obtain ⟨d, m, hpos, hd, hleads⟩ := hgood c hc
      obtain ⟨k, rest, hn, hrest, -⟩ := hends.of_leads hleads
      exact ih k (by omega) hd rest hrest

/-- Every node named in a sequence is there. -/
def Named (p : Program α) (ids : List Nat) : Prop := ∀ id ∈ ids, id < p.size

/-- What a pass over a sequence is, wherever in a program the sequence may stand. -/
def PassesOver (p : Program α) (inside : String → Bool) (s : Script α) : Prop :=
  ∀ c ids, p.script ids = s → Named p ids → c.pending p = ids → ids ≠ [] →
    topDone p inside c.frames = false →
    Passes p inside c (c.past p) (2 * s.loops) (s.fate inside)

section Loop

variable {id : Nat} {loop : Loop} {kids : List Nat}
  (hnode : p.node? id = some (.block loop kids))

include hnode

theorem pending_enter (index : Nat) (f : Frame) (outer : List Frame) (wait : Option Nat)
    (hid : f.node = id) (hindex : f.index = 0) :
    pending p ⟨index, f :: outer, wait⟩ = kids := by
  simp [pending, level, spot, hid, hindex, Program.children, hnode, Node.children]

/-- An endless loop whose body can be gone through keeps the search hopping for ever. -/
theorem not_endsIn_of_endless (hbody : PassesOver p inside (p.script kids)) (hnamed : Named p kids)
    (hkids : kids ≠ []) (hthrough : (p.script kids).fate inside = .through)
    (hopen : ∀ passes ran, Frame.isDone p inside ⟨id, 0, passes, ran⟩ = false)
    (index passes : Nat) (ran : Bool) (outer : List Frame) (wait : Option Nat) :
    ∀ n found, ¬EndsIn p inside n ⟨index, ⟨id, 0, passes, ran⟩ :: outer, wait⟩ found := by
  refine not_endsIn_of_leads
    (fun c => ∃ passes ran wait, c = ⟨index, ⟨id, 0, passes, ran⟩ :: outer, wait⟩) ?_
    ⟨passes, ran, wait, rfl⟩
  rintro _ ⟨passes, ran, wait, rfl⟩
  have hpending := pending_enter hnode index ⟨id, 0, passes, ran⟩ outer wait rfl rfl
  obtain ⟨n, hpos, -, hleads⟩ :=
    (hbody _ kids rfl hnamed hpending hkids (hopen passes ran)).through hthrough
  exact ⟨_, n, hpos, ⟨Frame.passesAfter p ⟨id, 0, passes, ran⟩, false, none, rfl⟩, hleads⟩

section Entry

variable (hid : c.current? p = some id) (hdone : topDone p inside c.frames = false)

include hid hdone

/-- A loop that is done on entry is left at once. -/
theorem passes_of_isDone (h : (Frame.enter id).isDone p inside) :
    Passes p inside c (c.beyond p) 2 .through :=
  (Passes.of_entered (hop_of_block hdone hid hnode)).andThen
    (.of_closed (hop_of_topDone (c := { c with frames := .enter id :: c.frames }) rfl h))

/-- A loop that is not done on entry has its body gone through. -/
theorem passes_body (hbody : PassesOver p inside (p.script kids)) (hnamed : Named p kids)
    (hkids : kids ≠ []) (h : (Frame.enter id).isDone p inside = false) :
    Passes p inside c ⟨c.index, ⟨id, 0, (Frame.enter id).passesAfter p, false⟩ :: c.frames, none⟩
      (1 + 2 * (p.script kids).loops) ((p.script kids).fate inside) :=
  (Passes.of_entered (hop_of_block hdone hid hnode)).andThen
    (hbody _ kids rfl hnamed (pending_enter hnode c.index _ c.frames c.waitLeft rfl rfl) hkids h)

theorem passes_endless (hbody : PassesOver p inside (p.script kids)) (hnamed : Named p kids)
    (hopen : ∀ passes ran, Frame.isDone p inside ⟨id, 0, passes, ran⟩ = false) :
    Passes p inside c (c.beyond p) (2 * ((p.script kids).loops + 1))
      ((p.script kids).fate inside).endless := by
  have hentered := Passes.of_entered (hop_of_block hdone hid hnode)
  by_cases hkids : kids = []
  · have hrest : ({ c with frames := .enter id :: c.frames } : Cursor).hop p inside = .rest := by
      refine hop_of_none (hopen 0 false) ?_
      simp [current?, Frame.enter, Program.children, hnode, Node.children, hkids]
    rw [hkids, Program.script_nil, Script.fate]
    exact (hentered.andThen (.of_rest hrest _)).mono (by omega)
  · have hpass := passes_body hnode hid hdone hbody hnamed hkids (hopen 0 false)
    cases hfate : (p.script kids).fate inside with
    | through =>
        have hnever := not_endsIn_of_endless hnode hbody hnamed hkids hfate hopen c.index 0 false
          c.frames c.waitLeft
        exact (hentered.andThen (.of_never hnever _)).mono (by omega)
    | acts =>
        rw [hfate] at hpass
        exact (hpass.of_ne_through (by simp) _).mono (by omega)
    | stuck =>
        rw [hfate] at hpass
        exact (hpass.of_ne_through (by simp) _).mono (by omega)

end Entry

/-- A loop with a number of passes goes on to its last when its first has been gone
through. -/
theorem passes_times {count : UInt32} (hloop : loop = .times count)
    (hid : c.current? p = some id) (hdone : topDone p inside c.frames = false)
    (hbody : PassesOver p inside (p.script kids)) (hnamed : Named p kids) :
    Passes p inside c (c.beyond p) (2 * ((p.script kids).loops + 1))
      (if count.toNat = 0 then .through else (p.script kids).fate inside) := by
  subst hloop
  have hisDone : (Frame.enter id).isDone p inside = _ := Frame.isDone_times hnode
  by_cases hcount : count.toNat = 0
  · rw [if_pos hcount]
    exact (passes_of_isDone hnode hid hdone (by simp [hisDone, hcount])).mono (by omega)
  · rw [if_neg hcount]
    by_cases hkids : kids = []
    · rw [hkids, Program.script_nil, Script.fate]
      exact (passes_of_isDone hnode hid hdone (by simp [hisDone, hkids])).mono (by omega)
    · have hopen : (Frame.enter id).isDone p inside = false := by
        rw [hisDone]
        simpa [Frame.enter, hkids] using hcount
      have hpass := passes_body hnode hid hdone hbody hnamed hkids hopen
      cases hfate : (p.script kids).fate inside with
      | through =>
          have hclosed : Frame.isDone p inside ⟨id, 0, (Frame.enter id).passesAfter p, false⟩ := by
            rw [Frame.isDone_times hnode, Frame.passesAfter_times hnode]
            simp [Frame.enter]
          rw [hfate] at hpass
          exact (hpass.andThen (.of_closed (hop_of_topDone rfl hclosed))).mono (by omega)
      | acts =>
          rw [hfate] at hpass
          exact (hpass.of_ne_through (by simp) _).mono (by omega)
      | stuck =>
          rw [hfate] at hpass
          exact (hpass.of_ne_through (by simp) _).mono (by omega)

/-- What becomes of a pass at a loop. -/
theorem passes_loop (hid : c.current? p = some id) (hdone : topDone p inside c.frames = false)
    (hbody : PassesOver p inside (p.script kids)) (hnamed : Named p kids) :
    Passes p inside c (c.beyond p) (2 * ((p.script kids).loops + 1))
      (loop.fate inside ((p.script kids).fate inside)) := by
  cases loop with
  | times count => exact passes_times hnode rfl hid hdone hbody hnamed
  | forever =>
      exact passes_endless hnode hid hdone hbody hnamed fun _ _ => Frame.isDone_forever hnode
  | untilIn region =>
      have hisDone (f : Frame) (hf : f.node = id) : f.isDone p inside = inside region :=
        Frame.isDone_untilIn (by rwa [hf])
      by_cases hregion : inside region
      · rw [Loop.fate, if_pos hregion]
        exact (passes_of_isDone hnode hid hdone (by rwa [hisDone _ rfl])).mono (by omega)
      · rw [Loop.fate, if_neg hregion]
        exact passes_endless hnode hid hdone hbody hnamed fun _ _ => by
          rw [hisDone _ rfl]
          simpa using hregion

end Loop

/-- A pass over a sequence meets the fate that can be read off the sequence, within two
hops for each loop in it. -/
theorem passesOver (hp : p.Descends) (s : Script α) : PassesOver p inside s := by
  induction s with
  | done =>
      intro c ids hscript hnamed hpending hne hdone
      obtain ⟨id, ids, rfl⟩ := List.exists_cons_of_ne_nil hne
      obtain ⟨node, hnode⟩ := p.exists_node? (hnamed id List.mem_cons_self)
      cases node with
      | action a => simp [Program.script_cons_action hnode] at hscript
      | block loop kids => simp [Program.script_cons_block hp hnode] at hscript
  | action node a rest =>
      intro c ids hscript hnamed hpending hne hdone
      obtain ⟨id, ids, rfl⟩ := List.exists_cons_of_ne_nil hne
      obtain ⟨b, hnode⟩ : ∃ b, p.node? id = some (.action b) := by
        obtain ⟨n, hnode⟩ := p.exists_node? (hnamed id List.mem_cons_self)
        cases n with
        | action b => exact ⟨b, hnode⟩
        | block loop kids => simp [Program.script_cons_block hp hnode] at hscript
      have hhop := hop_of_action hdone (current?_of_pending hpending).1 hnode
      exact (Passes.of_reached hhop _).mono (Nat.zero_le _)
  | block node loop body rest ihBody ihRest =>
      intro c ids hscript hnamed hpending hne hdone
      obtain ⟨id, ids, rfl⟩ := List.exists_cons_of_ne_nil hne
      obtain ⟨hid, hids⟩ := current?_of_pending hpending
      obtain ⟨kids, hnode, rfl, rfl⟩ : ∃ kids, p.node? id = some (.block loop kids) ∧
          p.script kids = body ∧ p.script ids = rest := by
        obtain ⟨n, hnode⟩ := p.exists_node? (hnamed id List.mem_cons_self)
        cases n with
        | action a => simp [Program.script_cons_action hnode] at hscript
        | block other kids =>
            rw [Program.script_cons_block hp hnode, Script.block.injEq] at hscript
            obtain ⟨-, rfl, hbody, hrest⟩ := hscript
            exact ⟨kids, hnode, hbody, hrest⟩
      have hkids : Named p kids := fun kid hkid =>
        Nat.lt_trans (hp id loop kids hnode kid hkid) (Program.lt_size_of_node? hnode)
      have hloop := passes_loop hnode hid hdone ihBody hkids
      rw [Script.loops, Script.fate]
      by_cases hlast : ids = []
      · have hlength : (level p c.frames).length = spot c.index c.frames + 1 := by
          have := congrArg List.length hpending
          rw [pending, List.length_drop, hlast, List.length_singleton] at this
          omega
        rw [← beyond_eq_past hlength]
        have hnone : (p.script ids).fate inside = .through := by
          rw [hlast, Program.script_nil, Script.fate]
        rw [hnone, Fate.andThen_through]
        exact hloop.mono (by omega)
      · have hmore : spot c.index c.frames + 1 < (level p c.frames).length := by
          by_contra hge
          rw [hids] at hlast
          exact hlast (List.drop_eq_nil_of_le (by omega))
        have hrest := ihRest (c.beyond p) ids rfl
          (fun other h => hnamed other (List.mem_cons_of_mem _ h))
          (by rw [pending_beyond hmore, hids]) hlast (by rwa [topDone_beyond hmore])
        rw [past_beyond hmore] at hrest
        exact (hloop.andThen hrest).mono (by omega)

end Cursor

end Flock
