import Mathlib.Tactic.Ring
import Flock.Proofs.Cursor.Pass
import Flock.Proofs.Whole

/-!
# The limit on the number of hops

A step may take `Cursor.hopLimit` hops. A search that ends at all ends sooner: at each
level of nesting it ends the present pass, goes at most once through the whole body
without an action, and leaves the loop, and every pass takes at most two hops for each
loop of the program (`Cursor.endsIn_le`). So the limit only ever stops a search that
would not have ended (`Cursor.lt_hopLimit`).
-/

namespace Flock

namespace Cursor

variable {α : Type} {p : Program α} {inside : String → Bool} {c d : Cursor} {index : Nat}
  {frames : List Frame}

/-! What the program says of the sequences that frames stand in. -/

theorem node?_of_nested {f : Frame} {outer : List Frame} (h : Nested p index (f :: outer)) :
    f.node ∈ level p outer ∧ ∃ loop, p.node? f.node = some (.block loop (level p (f :: outer))) := by
  obtain ⟨⟨loop, kids, hnode, -⟩, hplace, -⟩ := h
  refine ⟨List.mem_of_getElem? hplace, loop, ?_⟩
  rw [level, Frame.children_eq hnode, hnode]

theorem named_level (hp : p.Sound) (h : Nested p index frames) : Named p (level p frames) := by
  cases frames with
  | nil => exact hp.root_lt
  | cons f outer =>
      obtain ⟨-, loop, hnode⟩ := node?_of_nested h
      exact fun kid hkid =>
        Nat.lt_trans (hp.descends _ _ _ hnode kid hkid) (Program.lt_size_of_node? hnode)

theorem loops_level_le (hp : p.Sound) (h : Nested p index frames) :
    (p.script (level p frames)).loops ≤ p.outline.loops := by
  induction frames with
  | nil => exact Nat.le_refl _
  | cons f outer ih =>
      obtain ⟨hmem, loop, hnode⟩ := node?_of_nested h
      have := Program.loops_script_lt hp.descends hnode hmem
      have := ih h.2.2.2
      omega

theorem depth_level_le (hp : p.Sound) (h : Nested p index frames) :
    frames.length + (p.script (level p frames)).depth ≤ p.outline.depth := by
  induction frames with
  | nil => simp [level, Program.outline]
  | cons f outer ih =>
      obtain ⟨hmem, loop, hnode⟩ := node?_of_nested h
      have := Program.depth_script_lt hp.descends hnode hmem
      have := ih h.2.2.2
      rw [List.length_cons]
      omega

/-- The rest of a sequence has no more loops than the sequence. -/
theorem loops_pending_le (hp : p.Sound) (h : Nested p c.index c.frames) :
    (p.script (c.pending p)).loops ≤ p.outline.loops := by
  have hsplit := p.script_append ((level p c.frames).take (spot c.index c.frames)) (c.pending p)
  rw [pending, List.take_append_drop] at hsplit
  have hloops := congrArg Script.loops hsplit
  rw [Script.loops_append] at hloops
  have := loops_level_le hp h
  rw [pending]
  omega

/-- The rest of the present pass. -/
theorem passes_pending (hp : p.Sound) (h : Nested p c.index c.frames) (hne : c.pending p ≠ [])
    (hdone : topDone p inside c.frames = false) :
    Passes p inside c (c.past p) (2 * p.outline.loops) ((p.script (c.pending p)).fate inside) := by
  have hnamed : Named p (c.pending p) := fun id hid =>
    named_level hp h id (List.mem_of_mem_drop hid)
  have hloops := loops_pending_le hp h
  exact (passesOver hp.descends _ c _ rfl hnamed rfl hne hdone).mono (by omega)

/-- A search ends in the rest of the present pass, or goes through it. -/
theorem endsIn_or_past {n : Nat} {found : Found α} (hp : p.Sound)
    (h : Nested p c.index c.frames) (hdone : topDone p inside c.frames = false)
    (hends : EndsIn p inside n c found) :
    n ≤ 2 * p.outline.loops ∨
      (c.pending p ≠ [] ∧ (p.script (c.pending p)).fate inside = .through ∧
        ∃ m ≤ 2 * p.outline.loops, ∃ k rest, n = m + k ∧ EndsIn p inside k (c.past p) rest) := by
  by_cases hne : c.pending p = []
  · obtain ⟨rfl, -⟩ := hends.unique (.rest (hop_of_pending_nil hne hdone))
    exact .inl (Nat.zero_le _)
  · have hpass := passes_pending hp h hne hdone
    cases hfate : (p.script (c.pending p)).fate inside with
    | through =>
        obtain ⟨m, -, hm, hleads⟩ := hpass.through hfate
        obtain ⟨k, rest, hn, hrest, -⟩ := hends.of_leads hleads
        exact .inr ⟨hne, rfl, m, hm, k, rest, hn, hrest⟩
    | acts =>
        obtain ⟨m, hm, other, hother, -⟩ := hpass.acts hfate
        obtain ⟨rfl, -⟩ := hends.unique hother
        exact .inl hm
    | stuck => exact .inl (hpass.stuck hfate n found hends).1

/-- The search goes on behind the loop around which the frames stand, after at most a
number of hops. -/
def GoesOn (p : Program α) (inside : String → Bool) (index : Nat) (outer : List Frame)
    (bound n : Nat) : Prop :=
  n ≤ bound ∨ ∃ m ≤ bound, ∃ k rest, n = m + k ∧
    EndsIn p inside k ((⟨index, outer, none⟩ : Cursor).advance p) rest

theorem GoesOn.mono {outer : List Frame} {bound bound' n : Nat}
    (h : GoesOn p inside index outer bound n) (hle : bound ≤ bound') :
    GoesOn p inside index outer bound' n := by
  rcases h with hn | ⟨m, hm, k, rest, hn, hrest⟩
  · exact .inl (by omega)
  · exact .inr ⟨m, by omega, k, rest, hn, hrest⟩

/-- The hops of one stretch and those after it. -/
theorem GoesOn.after {outer : List Frame} {bound bound' m n : Nat}
    (h : GoesOn p inside index outer bound n) (hm : m ≤ bound') :
    GoesOn p inside index outer (bound' + bound) (m + n) := by
  rcases h with hn | ⟨k, hk, l, rest, hn, hrest⟩
  · exact .inl (by omega)
  · exact .inr ⟨m + k, by omega, l, rest, by omega, hrest⟩

section Level

variable {f : Frame} {outer : List Frame} {n : Nat} {found : Found α} (hp : p.Sound)
  (hframes : c.frames = f :: outer) (hends : EndsIn p inside n c found)

include hframes hends

theorem goesOn_of_isDone (h : f.isDone p inside) : GoesOn p inside c.index outer 1 n := by
  have hhop := hop_of_topDone hframes h
  obtain ⟨k, rest, hn, hrest, -⟩ := hends.of_leads (.closed hhop (.refl _))
  exact .inr ⟨1, Nat.le_refl _, k, rest, hn, hrest⟩

include hp

/-- A pass gone through without an action is followed by another one only where the
search never ends. -/
theorem isDone_of_through (h : Nested p c.index (f :: outer)) (hindex : f.index = 0)
    (hran : f.ran = false) (hdone : f.isDone p inside = false) (hne : c.pending p ≠ [])
    (hfate : (p.script (c.pending p)).fate inside = .through) :
    Frame.isDone p inside ⟨f.node, 0, f.passesAfter p, false⟩ := by
  obtain ⟨⟨loop, kids, hnode, -, -⟩, -⟩ := id h
  have hpending : c.pending p = kids := by
    rw [pending, hframes, level, spot, hindex, List.drop_zero, Frame.children_eq hnode]
  have hnamed : Named p kids := by
    have := named_level hp h
    rwa [level, Frame.children_eq hnode] at this
  rw [hpending] at hne hfate
  have hnever (hopen : ∀ passes ran, Frame.isDone p inside ⟨f.node, 0, passes, ran⟩ = false) :
      False := by
    refine not_endsIn_of_endless hnode (passesOver hp.descends _) hnamed hne hfate hopen c.index
      f.passes f.ran outer c.waitLeft n found ?_
    have hc : c = ⟨c.index, ⟨f.node, 0, f.passes, f.ran⟩ :: outer, c.waitLeft⟩ := by
      rw [← hindex, ← hframes]
    rwa [← hc]
  cases loop with
  | times count =>
      rw [Frame.isDone_times (f := ⟨f.node, 0, _, false⟩) hnode, Frame.passesAfter_times hnode, hran]
      simp
  | forever => exact (hnever fun _ _ => Frame.isDone_forever hnode).elim
  | untilIn region =>
      exfalso
      apply hnever
      intro passes ran
      rw [Frame.isDone_untilIn (f := ⟨f.node, 0, passes, ran⟩) hnode]
      rwa [Frame.isDone_untilIn hnode] at hdone

/-- A pass that begins anew is the last one of its loop, unless it runs an action. -/
theorem goesOn_of_fresh (h : Nested p c.index (f :: outer)) (hindex : f.index = 0)
    (hran : f.ran = false) : GoesOn p inside c.index outer (2 * p.outline.loops + 1) n := by
  cases hdone : f.isDone p inside with
  | true => exact (goesOn_of_isDone hframes hends hdone).mono (by omega)
  | false =>
      have htop : topDone p inside c.frames = false := by rwa [hframes, topDone]
      rcases endsIn_or_past hp (by rwa [hframes]) htop hends with
        hn | ⟨hne, hfate, m, hm, k, rest, rfl, hrest⟩
      · exact .inl (by omega)
      · have hlast := isDone_of_through hp hframes hends h hindex hran hdone hne hfate
        rw [past, hframes] at hrest
        exact (goesOn_of_isDone rfl hrest hlast).after hm

/-- At each level the present pass ends, and one more may follow. -/
theorem goesOn (h : Nested p c.index (f :: outer)) :
    GoesOn p inside c.index outer (4 * p.outline.loops + 1) n := by
  cases hdone : f.isDone p inside with
  | true => exact (goesOn_of_isDone hframes hends hdone).mono (by omega)
  | false =>
      have htop : topDone p inside c.frames = false := by rwa [hframes, topDone]
      rcases endsIn_or_past hp (by rwa [hframes]) htop hends with
        hn | ⟨-, -, m, hm, k, rest, rfl, hrest⟩
      · exact .inl (by omega)
      · have hpast := h.past (Frame.isOpen_of_not_isDone hdone)
        rw [past, hframes] at hrest
        exact ((goesOn_of_fresh hp rfl hrest hpast rfl rfl).after hm).mono (by omega)

end Level

/-- The frames around a loop that is left are as many after it. -/
theorem length_frames_advance (c : Cursor) : (c.advance p).frames.length = c.frames.length := by
  unfold advance
  cases hframes : c.frames with
  | nil => simp
  | cons f outer => simp

/-- A search that ends takes at most one fresh pass at each level. -/
theorem endsIn_le (hp : p.Sound) {n : Nat} {found : Found α} (hc : Sound p c)
    (hends : EndsIn p inside n c found) :
    n ≤ c.frames.length * (4 * p.outline.loops + 1) + 2 * p.outline.loops := by
  induction hlength : c.frames.length generalizing c n found with
  | zero =>
      have hframes := List.eq_nil_of_length_eq_zero hlength
      have htop : topDone p inside c.frames = false := by rw [hframes, topDone]
      rcases endsIn_or_past hp hc.nested htop hends with hn | ⟨-, -, m, hm, k, rest, rfl, hrest⟩
      · omega
      · obtain ⟨rfl, -⟩ := hrest.unique (.rest (hop_past_of_nil hframes))
        omega
  | succ depth ih =>
      obtain ⟨f, outer, hframes⟩ := List.exists_cons_of_length_eq_add_one hlength
      have hnested := hc.nested
      rw [hframes] at hnested
      rw [Nat.succ_mul]
      rcases goesOn hp hframes hends hnested with hn | ⟨m, hm, k, rest, rfl, hrest⟩
      · omega
      · have hlength' := length_frames_advance (p := p) ⟨c.index, outer, none⟩
        have := ih hnested.around.sound_advance hrest (by
          rw [hlength']
          simpa [hframes] using hlength)
        omega

/-- The limit is never met by a search that ends. -/
theorem lt_hopLimit (hp : p.Sound) {n : Nat} {found : Found α} (hc : Sound p c)
    (hends : EndsIn p inside n c found) : n < hopLimit p := by
  have hn := endsIn_le hp hc hends
  have hdepth := depth_level_le hp hc.nested
  have hloops := hp.loops_le
  rw [← hp.depth_eq] at hdepth
  have hproduct : c.frames.length * (4 * p.outline.loops + 1) ≤ p.depth * (4 * p.size + 1) :=
    Nat.mul_le_mul (by omega) (by omega)
  have hlimit : hopLimit p = p.depth * (4 * p.size + 1) + 3 * p.depth + 4 * p.size + 4 := by
    rw [hopLimit]
    ring
  omega

/-- The cursor is inside a loop that has no end and nothing to run. -/
def AtEmptyLoop (p : Program α) (c : Cursor) : Prop :=
  ∃ f outer loop, c.frames = f :: outer ∧ p.node? f.node = some (.block loop []) ∧
    ∀ count, loop ≠ .times count

/-- A search that comes to rest has come to the end of the program or to a loop without
end that has nothing to run. -/
theorem exhausted_or_atEmptyLoop (hp : p.Sound) (hc : Sound p c)
    (hrest : c.hop p inside = .rest) : c.isExhausted p ∨ AtEmptyLoop p c := by
  obtain ⟨hdone, hnone⟩ := rest_of_hop hrest
  have hpending : (level p c.frames).length ≤ spot c.index c.frames := by
    by_contra hlt
    rw [Nat.not_le] at hlt
    have hid : c.current? p = some (level p c.frames)[spot c.index c.frames] := by
      rw [current?_eq]
      exact List.getElem?_eq_getElem hlt
    obtain ⟨node, hnode⟩ := p.exists_node?
      (named_level hp hc.nested _ (List.getElem_mem hlt))
    rw [hnone _ hid] at hnode
    exact absurd hnode (by simp)
  cases hframes : c.frames with
  | nil =>
      left
      rw [hframes, level, spot] at hpending
      simpa [isExhausted, hframes] using hpending
  | cons f outer =>
      right
      have hnested := hc.nested
      rw [hframes] at hnested hpending hdone
      obtain ⟨⟨loop, kids, hnode, hindex, -⟩, -⟩ := hnested
      rw [level, spot, Frame.children_eq hnode] at hpending
      have hkids : kids = [] := List.eq_nil_of_length_eq_zero (by omega)
      subst hkids
      refine ⟨f, outer, loop, hframes, hnode, ?_⟩
      rintro count rfl
      rw [topDone, Frame.isDone_times hnode] at hdone
      exact absurd hdone (by simp)

section Step

variable [Scalar α] [Circular α]

/-- The limit on the number of hops never cuts a search short. Wherever the search of a
step would end without a limit, it ends alike with the limit; so a step that executes
nothing, does not end the program and does not stop at an empty loop would search for
ever without the limit. -/
theorem hopLimit_suffices {events : List (Event α)} (hp : Program.ofEvents events = .ok p)
    (hc : Reachable p c) (id : AgentId) (view : Surroundings α) (b : Body α)
    (words : WordStream) :
    (∀ n found,
      EndsIn p (view.inRegion b.position) n (c.closeFinished p (view.inRegion b.position)).1 found →
      seek p (view.inRegion b.position) (hopLimit p)
        (c.closeFinished p (view.inRegion b.position)).1 = found) ∧
    ∀ d turn, c.step p id view b words = (d, .ok turn) → turn.report.executed = none →
      turn.report.exhausted = false → ¬AtEmptyLoop p d → ∀ n found,
      ¬EndsIn p (view.inRegion b.position) n
        (c.closeFinished p (view.inRegion b.position)).1 found := by
  have hprogram := (Program.sound_of_ofEvents hp).1
  have hsound := sound_of_reachable hc
  have hfound n found
      (h : EndsIn p (view.inRegion b.position) n
        (c.closeFinished p (view.inRegion b.position)).1 found) :
      seek p (view.inRegion b.position) (hopLimit p)
        (c.closeFinished p (view.inRegion b.position)).1 = found :=
    seek_of_endsIn h (lt_hopLimit hprogram hsound.closeFinished h)
  refine ⟨hfound, ?_⟩
  intro d turn hstep hexecuted hexhausted hempty n found hends
  obtain rfl : c.found p (view.inRegion b.position) = found := hfound n found hends
  have houtcome := outcome_step p id view c b words
  rw [hstep] at houtcome
  cases houtcome with
  | executed => exact absurd hexecuted (by simp)
  | idle haction =>
      have hhop := hends.hop_eq
      rw [haction] at hhop
      rcases exhausted_or_atEmptyLoop hprogram hsound.found hhop with h | h
      · exact absurd (hexhausted.symm.trans h) (by simp)
      · exact hempty h

/-- A search that ends, in the second pass of a loop, and one that would not. -/
theorem hopLimit_suffices_times_and_forever :
    (∃ p : Program Whole, Program.ofEvents [.startTimes 2, .signal "x", .finish] = .ok p ∧
      seek p (fun _ => false) (hopLimit p) ⟨0, [⟨1, 0, 1, false⟩], none⟩ =
        ⟨⟨0, [⟨1, 0, 1, false⟩], none⟩, 0, some (0, .signal "x")⟩) ∧
    ∃ p : Program Whole,
      Program.ofEvents [.startForever, .startTimes 2, .finish, .finish] = .ok p ∧
        ∀ n found, ¬EndsIn p (fun _ => false) n start found := by
  refine ⟨⟨⟨#[.action (.signal "x"), .block (.times 2) [0]], [1]⟩, by decide, ?_⟩,
    ⟨⟨#[.block (.times 2) [], .block .forever [0]], [1]⟩, by decide, ?_⟩⟩
  · have hbuilt : Program.ofEvents [.startTimes 2, .signal "x", .finish] =
        .ok (⟨#[.action (.signal "x"), .block (.times 2) [0]], [1]⟩ : Program Whole) := by decide
    have hreachable := Reachable.start.step (p := ⟨#[.action (.signal "x"), .block (.times 2) [0]], [1]⟩)
      ⟨0, 0⟩ (.alone []) (.atPoint (.origin : Point Whole)) (.ofSeed 0)
    exact (hopLimit_suffices hbuilt hreachable ⟨0, 0⟩ (.alone []) (.atPoint .origin)
      (.ofSeed 0)).1 0 _ (.reached rfl)
  · have hbuilt : Program.ofEvents [.startForever, .startTimes 2, .finish, .finish] =
        .ok (⟨#[.block (.times 2) [], .block .forever [0]], [1]⟩ : Program Whole) := by decide
    refine (hopLimit_suffices hbuilt .start ⟨0, 0⟩ (.alone []) (.atPoint .origin)
      (.ofSeed 0)).2 _ _ rfl rfl rfl ?_
    rintro ⟨f, outer, loop, hframes, hnode, hloop⟩
    obtain ⟨rfl, -⟩ := List.cons.inj hframes
    obtain ⟨rfl, -⟩ := Node.block.inj (Option.some.inj hnode)
    exact hloop 2 rfl

end Step

end Cursor

end Flock
