import Flock.Proofs.Double.Product
import Flock.Proofs.World.Use

/-!
# Coordinates that stay finite

A position has to be finite where it is given, but where a step leads to is not checked.
Half of the last digit of the greatest doubles is worth `2 ^ 970`. Speeds below that lead
no coordinate out of the finite doubles, however many steps are taken, and a single step of
any greater speed can (`World.forall_finite_iff`). So an agent whose position, heading,
speed and program have all been accepted can come to a place that is not
(`World.not_finite_of_accepted`).

Headings that come from an angle rely on its cosine and sine being numbers, which is all
that is asked of the circular functions here.
-/

namespace Flock

open Double

theorem Point.check_eq_ok_iff {p : Point Float} :
    p.check = .ok () ↔ p.x.isFinite ∧ p.y.isFinite := by
  have hone {name : String} {value : Float} :
      Fault.requireFinite name value = .ok () ↔ value.isFinite := by
    refine ⟨fun h => Fault.requireFinite_eq_ok h, fun h => if_pos h⟩
  unfold check
  rw [bind_eq_ok_iff]
  simp only [hone]
  exact ⟨fun ⟨⟨⟩, hx, hy⟩ => ⟨hx, hy⟩, fun ⟨hx, hy⟩ => ⟨(), hx, hy⟩⟩

section Headings

variable [Circular Float]

/-- The cosine and the sine of a finite angle are numbers. -/
def Circular.HasNumbers : Prop :=
  ∀ angle : Float, angle.isFinite →
    (Circular.cos angle).isNaN = false ∧ (Circular.sin angle).isNaN = false

theorem Heading.Made.atMostOne {h : Heading Float} (hcircular : Circular.HasNumbers)
    (hmade : h.Made) : AtMostOne h.dx ∧ AtMostOne h.dy := by
  cases hmade with
  | ofComponents hmade =>
      have hcomponent {name : String} {value : Float}
          (hcheck : Heading.checkComponent name value = .ok ()) : AtMostOne value := by
        unfold Heading.checkComponent at hcheck
        split at hcheck
        · next hunit => exact atMostOne_of_le hunit.1 hunit.2
        · exact absurd hcheck (by simp)
      obtain ⟨⟨⟩, hdx, hmade⟩ := bind_eq_ok_iff.mp hmade
      obtain ⟨⟨⟩, hdy, hmade⟩ := bind_eq_ok_iff.mp hmade
      obtain rfl := Except.ok.inj hmade
      exact ⟨hcomponent hdx, hcomponent hdy⟩
  | ofAngle angle =>
      have hfinite : (if Scalar.isFinite angle then angle else Scalar.zero).isFinite := by
        split
        · next h => exact h
        · rfl
      obtain ⟨hcos, hsin⟩ := hcircular _ hfinite
      exact ⟨Scalar.atMostOne_clampUnit hcos, Scalar.atMostOne_clampUnit hsin⟩
  | east =>
      exact ⟨.inr ⟨_, _, _, _, parts_one, by decide, by decide⟩, .inl ⟨.positive, rfl⟩⟩

end Headings

namespace Body

/-- A coordinate stays finite in a step whose speed is below `2 ^ 970`. -/
theorem isFinite_stride {x d speed : Float} (hx : x.isFinite) (hd : AtMostOne d)
    (hspeed : speed.abs < halfLast) : (x + d * speed).isFinite := by
  have hupTo := hd.upTo_mul (abs_lt_halfLast_iff.mp hspeed) (by decide) (by decide)
  exact isFinite_add hx (abs_lt_halfLast_iff.mpr hupTo)

variable [Circular Float] {allowed : Float → Prop} {b b' : Body Float}

/-- A body that steps of less than `2 ^ 970` keep at finite positions. -/
structure Steady (b : Body Float) : Prop where
  x_finite : b.position.x.isFinite
  y_finite : b.position.y.isFinite
  heading : ∀ h, b.heading = some h → AtMostOne h.dx ∧ AtMostOne h.dy
  speed : b.speed.abs < halfLast

omit [Circular Float] in
theorem steady_atPoint {p : Point Float} {label : String} (h : p.check = .ok ()) :
    ((Body.atPoint p).signal label).Steady where
  x_finite := (Point.check_eq_ok_iff.mp h).1
  y_finite := (Point.check_eq_ok_iff.mp h).2
  heading := fun _ hnone => absurd hnone (by simp [atPoint, signal])
  speed := abs_zero_lt_halfLast

theorem Change.steady (hcircular : Circular.HasNumbers)
    (hallowed : ∀ speed, allowed speed → speed.abs < halfLast) (h : Change allowed b b')
    (hb : b.Steady) : b'.Steady := by
  cases h with
  | placed hcheck =>
      obtain ⟨hx, hy⟩ := Point.check_eq_ok_iff.mp hcheck
      exact { hb with x_finite := hx, y_finite := hy }
  | sped hspeed => exact { hb with speed := hallowed _ hspeed }
  | halted => exact { hb with speed := abs_zero_lt_halfLast }
  | turned hmade =>
      refine { hb with heading := ?_ }
      intro h hset
      obtain rfl := Option.some.inj hset
      exact hmade.atMostOne hcircular
  | labelled => exact { hb with }
  | moved hheading =>
      obtain ⟨hdx, hdy⟩ := hb.heading _ hheading
      exact { hb with
        x_finite := isFinite_stride hb.x_finite hdx hb.speed
        y_finite := isFinite_stride hb.y_finite hdy hb.speed }

end Body

namespace World

/-- Every agent is at a finite position. -/
def Finite (w : World Float) : Prop :=
  w.agents.Forall fun agent => agent.body.position.x.isFinite ∧ agent.body.position.y.isFinite

/-- A random place is finite. -/
theorem check_randomPlace [Circular Float] {w : World Float} (hw : Reachable w) {p : Point Float}
    {words : WordStream} (h : w.randomPlace = .ok (p, words)) : p.check = .ok () := by
  obtain ⟨hfinite, h0⟩ := Scalar.isFiniteNonneg_iff.mp hw.isFiniteNonneg_spawnExtent
  have hsample {words words' : WordStream} {x : Float} (h : words.sampleRange
      (-w.settings.spawnExtent) w.settings.spawnExtent = .ok (x, words')) : x.isFinite := by
    simp only [WordStream.sampleRange] at h
    split at h
    · next hwidth =>
      obtain ⟨rfl, -⟩ := Prod.mk.inj (Except.ok.inj h)
      exact isFinite_sample words.head hfinite h0 hwidth
    · exact absurd h (by simp)
  simp only [randomPlace] at h
  split at h
  · obtain ⟨⟨x, words₁⟩, hx, h⟩ := bind_eq_ok_iff.mp h
    obtain ⟨⟨y, words₂⟩, hy, h⟩ := bind_eq_ok_iff.mp h
    obtain ⟨rfl, -⟩ := Prod.mk.inj (Except.ok.inj h)
    exact Point.check_eq_ok_iff.mpr ⟨hsample hx, hsample hy⟩
  · obtain ⟨rfl, -⟩ := Prod.mk.inj (Except.ok.inj h)
    rfl

/-- Under speeds below `2 ^ 970` all coordinates stay finite. -/
theorem Used.finite [Circular Float] {allowed : Float → Prop} {w : World Float}
    (hcircular : Circular.HasNumbers) (hallowed : ∀ speed, allowed speed → speed.abs < halfLast)
    (h : Used allowed w) : w.Finite := by
  have hsteady := h.forall_body (P := Body.Steady) (fun p label => Body.steady_atPoint)
    (fun w hw p words => check_randomPlace hw) fun b b' hchange =>
      hchange.steady hcircular hallowed
  exact fun e he => ⟨(hsteady e he).x_finite, (hsteady e he).y_finite⟩

/-- A world with one agent, which has no program. -/
def lone (b : Body Float) : World Float := World.add ⟨.default, .ofSeed 3, .empty, []⟩ ⟨b, none⟩

section Lone

variable [Circular Float] {allowed : Float → Prop} {b b' : Body Float}

theorem used_lone_atPoint {p : Point Float} (h : p.check = .ok ()) :
    Used allowed (lone ((Body.atPoint p).signal "")) := by
  have hstart : Used allowed (⟨.default, .ofSeed 3, .empty, []⟩ : World Float) :=
    @Used.created Float _ _ _ .default 3 _ rfl
  exact hstart.used (.spawned (p := p) (by rw [spawn, h]; rfl))

theorem Used.operated_lone (h : Used allowed (lone b)) (hop : b.Operation b')
    (hspeed : allowed b'.speed) : Used allowed (lone b') :=
  h.used (@Use.operated _ _ _ _ _ ⟨1, 0⟩ ⟨b, none⟩ b' rfl hop hspeed)

/-- A speed of `2 ^ 970` or more leads from the greatest double to infinity. -/
theorem exists_used_not_finite {v : Float} (hv : v.isFinite) (hallowed : allowed v)
    (hlarge : ¬ v.abs < halfLast) : ∃ w, Used allowed w ∧ ¬ w.Finite := by
  obtain ⟨s, n, f, hn, hparts⟩ : ∃ s n f hn, parts v = .finite s n f hn := by
    rcases isFinite_iff_upTo.mp hv with ⟨s, hzero⟩ | ⟨s, n, f, hn, hparts, -⟩
    · exact absurd (abs_lt_halfLast_iff.mpr (.inl ⟨s, hzero⟩)) hlarge
    · exact ⟨s, n, f, hn, hparts⟩
  -- the heading has the sign of the speed, so the step leads up
  obtain ⟨dx, ⟨hu, hdx⟩, hmade⟩ : ∃ dx, (∃ hu, parts dx = .finite s (2 ^ 52) (-52) hu) ∧
      Heading.ofComponents dx 0 = .ok ⟨dx, 0⟩ := by
    cases s with
    | positive => exact ⟨1, ⟨_, parts_one⟩, rfl⟩
    | negative => exact ⟨-1, ⟨_, parts_neg_one⟩, rfl⟩
  have hstep : parts (dx * v) = .finite .positive n f hn := by
    rw [parts_mul_of_unit hdx hparts]
    cases s <;> rfl
  have habs : (dx * v).abs = v.abs := by
    refine parts_injective ?_
    rw [parts_abs, parts_abs, hstep, hparts]
    rfl
  let placed : Body Float := (Body.atPoint ⟨greatest, 0⟩).signal ""
  let sped : Body Float := { placed with speed := v }
  have hsped : placed.setSpeed v = .ok sped := by
    have hcheck : Fault.requireFinite "speed" v = .ok () := if_pos hv
    rw [Body.setSpeed, hcheck]
    rfl
  have husedSped : Used allowed (lone sped) :=
    (used_lone_atPoint rfl).operated_lone (.sped hsped) hallowed
  have husedTurned : Used allowed (lone (sped.setHeading ⟨dx, 0⟩)) :=
    husedSped.operated_lone (.turned sped (.ofComponents hmade)) hallowed
  refine ⟨_, husedTurned.operated_lone (.moved rfl) hallowed, ?_⟩
  intro hfinite
  have hx : (greatest + dx * v).isFinite := (hfinite _ (List.mem_singleton_self _)).1
  rw [not_isFinite_greatest_add hstep (by rwa [habs])] at hx
  exact absurd hx Bool.false_ne_true

end Lone

/-- Up to which speed all coordinates stay finite. Where no body and no program has a speed
greater than some number in magnitude, every history of operations leaves every agent at a
finite position if that number is below `2 ^ 970`, and only then. -/
theorem forall_finite_iff [Circular Float] (hcircular : Circular.HasNumbers) {v : Float}
    (hv : v.isFinite) :
    (∀ w, Used (fun speed : Float => speed.abs ≤ v.abs) w → w.Finite) ↔ v.abs < halfLast := by
  constructor
  · intro hall
    by_contra hlarge
    obtain ⟨w, hw, hnot⟩ : ∃ w, Used (fun speed : Float => speed.abs ≤ v.abs) w ∧ ¬ w.Finite :=
      exists_used_not_finite hv (le_refl_abs hv) hlarge
    exact hnot (hall w hw)
  · intro hsmall w hw
    exact hw.finite hcircular fun speed hle => abs_lt_of_abs_le hle hsmall

/-- The circular functions of vectors that point due east, whose angle is 0. -/
@[reducible]
def eastward : Circular Float := ⟨fun _ => 1, fun _ => 0, fun _ _ => 0⟩

theorem moveStep_eastward :
    (@Body.face Float _ eastward ⟨.origin, none, 5, ""⟩ ⟨8, 0⟩).moveStep =
      .ok ⟨⟨5, 0⟩, some ⟨1, 0⟩, 5, ""⟩ := by decide +kernel

/-- An agent that turns east and goes there at a speed of 5 is at a finite position. At
`2 ^ 1023` there are some that are not. -/
theorem forall_finite_iff_eastward :
    letI := eastward
    let strider : World Float := lone ⟨⟨5, 0⟩, some ⟨1, 0⟩, 5, ""⟩
    Used (fun speed => speed.abs ≤ (5 : Float).abs) strider ∧ strider.Finite ∧
      ¬ ∀ w : World Float, Used (fun speed => speed.abs ≤ greatestPower.abs) w → w.Finite := by
  intro strider
  let _ : Circular Float := eastward
  have hcircular : Circular.HasNumbers := by
    intro angle _
    have hnumbers : (1 : Float).isNaN = false ∧ (0 : Float).isNaN = false := by decide +kernel
    exact hnumbers
  have hused : Used (fun speed => speed.abs ≤ (5 : Float).abs) strider := by
    have hplaced : Used (fun speed => speed.abs ≤ (5 : Float).abs)
        (lone ((Body.atPoint .origin).signal "")) := used_lone_atPoint rfl
    have hsped := hplaced.operated_lone (@Body.Operation.sped _ _ _ _ _ 5 rfl) (by decide +kernel)
    have hfaced := hsped.operated_lone (.faced _ ⟨8, 0⟩) (by decide +kernel)
    exact hfaced.operated_lone (.moved moveStep_eastward) (by decide +kernel)
  refine ⟨hused, ?_, ?_⟩
  · exact (forall_finite_iff hcircular rfl).mpr (by decide +kernel) strider hused
  · intro hall
    exact absurd ((forall_finite_iff hcircular rfl).mp hall) (by decide +kernel)

/-- An agent at the origin that is to go east for two ticks at a speed of `2 ^ 1023`. -/
def sprinter : World Float :=
  (lone ⟨.origin, some .east, greatestPower, ""⟩).updateAgent ⟨1, 0⟩
    (·.bind ⟨#[.action (.wait 2)], [0]⟩)

theorem used_sprinter : Used (fun speed => speed.isFinite) sprinter := by
  have hplaced : Used (fun speed => speed.isFinite) (lone ((Body.atPoint .origin).signal "")) :=
    used_lone_atPoint rfl
  have hturned : Used (fun speed => speed.isFinite) (lone ⟨.origin, some .east, 0, ""⟩) :=
    hplaced.operated_lone (.turned _ (@Heading.Made.ofComponents _ _ _ 1 0 _ rfl)) rfl
  have hsped : Used (fun speed => speed.isFinite) (lone ⟨.origin, some .east, greatestPower, ""⟩) :=
    hturned.operated_lone (@Body.Operation.sped _ _ _ _ _ greatestPower rfl) rfl
  have hprogram : Program.ofEvents [.wait 2] =
      .ok (⟨#[.action (.wait 2)], [0]⟩ : Program Float) := rfl
  refine hsped.used (@Use.bound _ _ _ _ _ _ ⟨1, 0⟩ _ _ hprogram ?_ rfl)
  intro node a hnode v hv
  obtain ⟨hid, hnode⟩ := Array.getElem?_eq_some_iff.mp hnode
  obtain rfl := Nat.lt_one_iff.mp hid
  obtain rfl := (Node.action.inj hnode).symm
  exact absurd hv (by simp [Action.speed?])

/-- Everything that the agent is given is accepted, and both ticks succeed; the second one
leads it to infinity. -/
theorem not_finite_of_accepted :
    Used (fun speed => speed.isFinite) sprinter ∧
      ∃ (next last : World Float) (first second : Activity), sprinter.tick = .ok (next, first) ∧
        next.tick = .ok (last, second) ∧ next.Finite ∧ ¬ last.Finite := by
  refine ⟨used_sprinter, _, _, _, _, rfl, rfl, ?_, ?_⟩
  · intro e he
    obtain rfl := List.mem_singleton.mp he
    exact ⟨by decide +kernel, by decide +kernel⟩
  · intro hfinite
    exact absurd (hfinite _ (List.mem_singleton_self _)).1 (by decide +kernel)

end World

end Flock
