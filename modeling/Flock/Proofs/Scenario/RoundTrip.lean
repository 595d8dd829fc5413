import Flock.Proofs.Json.Record
import Flock.Scenario.Format

/-!
# Scenarios are read back as they were written

Every part of a scenario is read back from its form in JSON, unless it holds a double that
is not finite, which has no form (`Scenario.ofJson?_of_form`). Fields that have their
default may be left out: `Placement.Form`, `Settings.Form` and `Scenario.Form` are the forms
that come of leaving out any of them.
-/

namespace Flock

/-! The doubles that each part holds. -/

namespace Point

def floats (p : Point Float) : List Float := [p.x, p.y]

end Point

namespace Shape

def floats : Shape Float → List Float
  | circle center radius => center.floats ++ [radius]
  | rectangle corner width height => corner.floats ++ [width, height]

end Shape

namespace Region

def floats (r : Region Float) : List Float := r.shape.floats

end Region

namespace Placement

def floats (p : Placement Float) : List Float := [p.x, p.y]

end Placement

namespace Settings

def floats (s : Settings Float) : List Float := [s.cellSize, s.spawnExtent]

end Settings

namespace Event

def floats : Event Float → List Float
  | move target speed => target.floats ++ [speed]
  | wander corner1 corner2 speed => corner1.floats ++ corner2.floats ++ [speed]
  | follow _ radius speed => [radius, speed]
  | _ => []

end Event

namespace Scenario

def floats (s : Scenario Float) : List Float :=
  s.settings.floats ++ s.agents.flatMap Placement.floats ++ s.regions.flatMap Region.floats ++
    s.program.flatMap Event.floats

end Scenario

/-- Whether all of a list of doubles are finite. -/
def allFinite (floats : List Float) : Bool := floats.all Float.isFinite

@[simp] theorem allFinite_nil : allFinite [] = true := rfl

@[simp] theorem allFinite_cons (x : Float) (floats : List Float) :
    allFinite (x :: floats) = (x.isFinite && allFinite floats) := rfl

@[simp] theorem allFinite_append (floats others : List Float) :
    allFinite (floats ++ others) = (allFinite floats && allFinite others) := List.all_append

theorem allFinite_flatMap {β : Type} (values : List β) (floats : β → List Float) :
    allFinite (values.flatMap floats) = values.all fun value => allFinite (floats value) :=
  List.all_flatMap

/-! Parts without defaults. -/

namespace Point

theorem ofJson?_toJson (p : Point Float) :
    ofJson? p.toJson = if allFinite p.floats then some p else none := by
  have hfields : p.toJson.fields? ["x", "y"] = some [some (.ofFloat p.x), some (.ofFloat p.y)] :=
    Json.fields?_object rfl (by simp)
  simp only [ofJson?, hfields, Json.float?_ofFloat]
  cases hx : p.x.isFinite <;> cases hy : p.y.isFinite <;> simp [floats, hx, hy]

@[simp] theorem isReadable_toJson (p : Point Float) : p.toJson.isReadable = true := by
  simp [toJson, Json.isReadable, Json.readableEntries]

@[simp] theorem nesting_toJson (p : Point Float) : p.toJson.nesting = 1 := by
  simp [toJson, Json.nesting, Json.nestingEntries]

end Point

namespace Shape

theorem ofJson?_toJson (shape : Shape Float) :
    ofJson? shape.toJson = if allFinite shape.floats then some shape else none := by
  cases shape with
  | circle center radius =>
      have hfields : Json.fields? ["center", "radius"]
          (.object [("center", center.toJson), ("radius", .ofFloat radius)]) =
            some [some center.toJson, some (.ofFloat radius)] := Json.fields?_object rfl (by simp)
      simp only [toJson, ofJson?, hfields, Point.ofJson?_toJson, Json.float?_ofFloat]
      cases hcenter : allFinite center.floats <;> cases hradius : radius.isFinite <;>
        simp [floats, hcenter, hradius]
  | rectangle corner width height =>
      have hfields : Json.fields? ["corner", "width", "height"]
          (.object [("corner", corner.toJson), ("width", .ofFloat width),
            ("height", .ofFloat height)]) =
            some [some corner.toJson, some (.ofFloat width), some (.ofFloat height)] :=
        Json.fields?_object rfl (by simp)
      simp only [toJson, ofJson?, hfields, Point.ofJson?_toJson, Json.float?_ofFloat]
      cases hcorner : allFinite corner.floats <;> cases hwidth : width.isFinite <;>
        cases hheight : height.isFinite <;> simp [floats, hcorner, hwidth, hheight]

end Shape

namespace Region

theorem ofJson?_toJson (r : Region Float) :
    ofJson? r.toJson = if allFinite r.floats then some r else none := by
  have hfields : r.toJson.fields? ["label", "shape"] =
      some [some (.string r.label), some r.shape.toJson] := Json.fields?_object rfl (by simp)
  simp only [ofJson?, hfields, Json.asString?, Shape.ofJson?_toJson]
  cases hshape : allFinite r.shape.floats <;> simp [floats, hshape]

end Region

namespace Event

/-- An event is read from its kind and from its arguments. -/
theorem ofJson?_tagged (op : String) {arguments : List (String × Json)}
    (hreadable : Json.readableEntries arguments) (hnesting : Json.nestingEntries arguments ≤ 1)
    (hop : ∀ argument ∈ arguments, argument.1 ≠ "op") :
    ofJson? 2 (toJson.tagged op arguments) = ofArguments? op (.object arguments) := by
  have hlimit : 2 + (toJson.tagged op arguments).nesting < nestingLimit := by
    simp only [toJson.tagged, Json.nesting, Json.nestingEntries, nestingLimit]
    omega
  have hall : (toJson.tagged op arguments).isReadable := by
    simpa [toJson.tagged, Json.isReadable, Json.readableEntries] using hreadable
  have hkind : arguments.filter (fun argument => argument.1 = "op") = [] := by
    simpa [List.filter_eq_nil_iff] using hop
  have hrest : arguments.filter (fun argument => argument.1 ≠ "op") = arguments := by
    simpa [List.filter_eq_self] using hop
  unfold ofJson?
  rw [if_pos (by simp [hall, hlimit])]
  simp only [ne_eq, decide_not] at hrest
  simp [toJson.tagged, hkind, hrest]

theorem ofJson?_toJson (event : Event Float) :
    ofJson? 2 event.toJson = if allFinite event.floats then some event else none := by
  cases event with
  | move target speed =>
      have hfields : Json.fields? ["target", "speed"]
          (.object [("target", target.toJson), ("speed", .ofFloat speed)]) =
            some [some target.toJson, some (.ofFloat speed)] := Json.fields?_object rfl (by simp)
      rw [toJson, ofJson?_tagged _ (by simp [Json.readableEntries]) (by simp [Json.nestingEntries])
        (by simp)]
      simp only [ofArguments?, hfields, Point.ofJson?_toJson, Json.float?_ofFloat]
      cases htarget : allFinite target.floats <;> cases hspeed : speed.isFinite <;>
        simp [floats, htarget, hspeed]
  | wander corner1 corner2 speed =>
      have hfields : Json.fields? ["corner1", "corner2", "speed"]
          (.object [("corner1", corner1.toJson), ("corner2", corner2.toJson),
            ("speed", .ofFloat speed)]) =
            some [some corner1.toJson, some corner2.toJson, some (.ofFloat speed)] :=
        Json.fields?_object rfl (by simp)
      rw [toJson, ofJson?_tagged _ (by simp [Json.readableEntries]) (by simp [Json.nestingEntries])
        (by simp)]
      simp only [ofArguments?, hfields, Point.ofJson?_toJson, Json.float?_ofFloat]
      cases hfirst : allFinite corner1.floats <;> cases hsecond : allFinite corner2.floats <;>
        cases hspeed : speed.isFinite <;> simp [floats, hfirst, hsecond, hspeed]
  | follow label radius speed =>
      have hfields : Json.fields? ["label", "radius", "speed"]
          (.object [("label", .string label), ("radius", .ofFloat radius),
            ("speed", .ofFloat speed)]) =
            some [some (.string label), some (.ofFloat radius), some (.ofFloat speed)] :=
        Json.fields?_object rfl (by simp)
      rw [toJson, ofJson?_tagged _ (by simp [Json.readableEntries, Json.isReadable])
        (by simp [Json.nestingEntries, Json.nesting]) (by simp)]
      simp only [ofArguments?, hfields, Json.asString?, Json.float?_ofFloat]
      cases hradius : radius.isFinite <;> cases hspeed : speed.isFinite <;>
        simp [floats, hradius, hspeed]
  | wait ticks =>
      have hfields : Json.fields? ["ticks"] (.object [("ticks", .integer ticks.toInt)]) =
          some [some (.integer ticks.toInt)] := Json.fields?_object rfl (by simp)
      rw [toJson, ofJson?_tagged _ (by simp [Json.readableEntries, Json.isReadable])
        (by simp [Json.nestingEntries, Json.nesting]) (by simp)]
      simp [ofArguments?, hfields, Json.int64?_integer, floats]
  | startTimes count =>
      have hfields : Json.fields? ["times"] (.object [("times", .integer count.toInt)]) =
          some [some (.integer count.toInt)] := Json.fields?_object rfl (by simp)
      rw [toJson, ofJson?_tagged _ (by simp [Json.readableEntries, Json.isReadable])
        (by simp [Json.nestingEntries, Json.nesting]) (by simp)]
      simp [ofArguments?, hfields, Json.int64?_integer, floats]
  | _ => rfl

end Event

/-! Parts that have defaults. -/

namespace Placement

/-- The forms of a placement: its label may be left out if it is empty. -/
def Form (p : Placement Float) (value : Json) : Prop :=
  ∃ keep : String → Bool, (∀ key, keep key = false → key = "label" ∧ p.label = "") ∧
    value = p.toJson.keeping keep

theorem form_toJson (p : Placement Float) : p.Form p.toJson :=
  ⟨fun _ => true, by simp, by simp [toJson]⟩

theorem ofJson?_of_form {p : Placement Float} {value : Json} (h : p.Form value) :
    ofJson? value = if allFinite p.floats then some p else none := by
  obtain ⟨keep, hkeep, rfl⟩ := h
  have hkept (key : String) (hkey : key ≠ "label") : keep key = true := by
    by_contra hleft
    exact hkey (hkeep key (by simpa using hleft)).1
  have hfields : Json.fields? ["x", "y", "label"] (.keeping keep
      (.object [("x", .ofFloat p.x), ("y", .ofFloat p.y), ("label", .string p.label)])) =
        some [if keep "x" then some (.ofFloat p.x) else none,
          if keep "y" then some (.ofFloat p.y) else none,
          if keep "label" then some (.string p.label) else none] :=
    Json.fields?_keeping (by rfl) (by simp) keep
  have hlabel : Json.orDefault "" Json.asString?
      (if keep "label" then some (.string p.label) else none) = some p.label :=
    Json.orDefault_of_kept "" rfl fun hleft => by rw [(hkeep "label" hleft).2]
  rw [if_pos (hkept "x" (by simp)), if_pos (hkept "y" (by simp))] at hfields
  simp only [toJson, ofJson?, hfields, Json.float?_ofFloat, hlabel]
  cases hx : p.x.isFinite <;> cases hy : p.y.isFinite <;> simp [floats, hx, hy]

end Placement

namespace Settings

/-- The settings of which every field has its default. -/
abbrev standard : Settings Float := .default

/-- A field of the settings has its default. -/
def IsStandard (s : Settings Float) : String → Prop
  | "rng_seed" => s.seed = standard.seed
  | "history_capacity" => s.historyCapacity = standard.historyCapacity
  | "index_cell_size" => s.cellSize = standard.cellSize
  | "spawn_extent" => s.spawnExtent = standard.spawnExtent
  | _ => False

/-- The forms of settings: fields may be left out that have their default. -/
def Form (s : Settings Float) (value : Json) : Prop :=
  ∃ keep : String → Bool, (∀ key, keep key = false → s.IsStandard key) ∧
    value = s.toJson.keeping keep

theorem form_toJson (s : Settings Float) : s.Form s.toJson :=
  ⟨fun _ => true, by simp, by simp [toJson]⟩

theorem allFinite_standard : allFinite standard.floats := by
  decide +kernel

theorem nullable?_seed (seed : Option UInt64) :
    Json.nullable? Json.uint64? (seed.elim .null fun seed => .integer seed.toNat) = some seed := by
  cases seed with
  | none => rfl
  | some seed =>
      have hread := Json.uint64?_integer seed
      simp only [Option.elim_some, Json.nullable?, hread, Option.map_some]

theorem ofJson?_of_form {s : Settings Float} {value : Json} (h : s.Form value) :
    ofJson? value = if allFinite s.floats then some s else none := by
  obtain ⟨keep, hkeep, rfl⟩ := h
  obtain ⟨hcell, hextent⟩ : standard.cellSize.isFinite ∧
      standard.spawnExtent.isFinite := by
    simpa [floats] using allFinite_standard
  have hfields : Json.fields?
      ["rng_seed", "history_capacity", "index_cell_size", "spawn_extent"] (.keeping keep
        (.object [("rng_seed", s.seed.elim .null fun seed => .integer seed.toNat),
          ("history_capacity", .integer s.historyCapacity.toNat),
          ("index_cell_size", .ofFloat s.cellSize), ("spawn_extent", .ofFloat s.spawnExtent)])) =
        some [if keep "rng_seed" then some (s.seed.elim .null fun seed => .integer seed.toNat)
            else none,
          if keep "history_capacity" then some (.integer s.historyCapacity.toNat) else none,
          if keep "index_cell_size" then some (.ofFloat s.cellSize) else none,
          if keep "spawn_extent" then some (.ofFloat s.spawnExtent) else none] :=
    Json.fields?_keeping (by rfl) (by simp) keep
  have hseed := Json.orDefault_of_kept standard.seed (nullable?_seed s.seed) fun hleft =>
    congrArg some (hkeep "rng_seed" hleft)
  have hcapacity := Json.orDefault_of_kept standard.historyCapacity
    (Json.uint64?_integer s.historyCapacity) fun hleft =>
      congrArg some (hkeep "history_capacity" hleft)
  have hsize := Json.orDefault_of_kept standard.cellSize (Json.float?_ofFloat s.cellSize)
    fun hleft => by
      rw [show s.cellSize = standard.cellSize from hkeep "index_cell_size" hleft, if_pos hcell]
  have hspawn := Json.orDefault_of_kept standard.spawnExtent (Json.float?_ofFloat s.spawnExtent)
    fun hleft => by
      rw [show s.spawnExtent = standard.spawnExtent from hkeep "spawn_extent" hleft,
        if_pos hextent]
  simp only [toJson, ofJson?, hfields, hseed, hcapacity, hsize, hspawn]
  cases hx : s.cellSize.isFinite <;> cases hy : s.spawnExtent.isFinite <;> simp [floats, hx, hy]

end Settings

namespace Scenario

/-- A field of the scenario has its default. -/
def IsStandard (s : Scenario Float) : String → Prop
  | "config" => s.settings = .standard
  | "agents" => s.agents = []
  | "regions" => s.regions = []
  | "program" => s.program = []
  | _ => False

/-- The forms of a scenario: its settings and placements in any of their forms, and fields
that have their default left out. -/
def Form (s : Scenario Float) (value : Json) : Prop :=
  ∃ (settings : Json) (agents : List Json) (keep : String → Bool),
    s.settings.Form settings ∧ List.Forall₂ Placement.Form s.agents agents ∧
      (∀ key, keep key = false → s.IsStandard key) ∧
      value = Json.keeping keep
        (.object [("config", settings), ("agents", .array agents),
          ("regions", .array (s.regions.map Region.toJson)),
          ("program", .array (s.program.map Event.toJson))])

theorem form_toJson (s : Scenario Float) : s.Form s.toJson := by
  refine ⟨s.settings.toJson, s.agents.map Placement.toJson, fun _ => true,
    s.settings.form_toJson, ?_, by simp, by simp [toJson]⟩
  rw [List.forall₂_map_right_iff]
  exact List.forall₂_same.mpr fun p _ => p.form_toJson

theorem ofJson?_of_form {s : Scenario Float} {value : Json} (h : s.Form value) :
    ofJson? value = if allFinite s.floats then some s else none := by
  obtain ⟨settings, agents, keep, hsettings, hagents, hkeep, rfl⟩ := h
  have hfields : Json.fields? ["config", "agents", "regions", "program"] (.keeping keep
      (.object [("config", settings), ("agents", .array agents),
        ("regions", .array (s.regions.map Region.toJson)),
        ("program", .array (s.program.map Event.toJson))])) =
        some [if keep "config" then some settings else none,
          if keep "agents" then some (.array agents) else none,
          if keep "regions" then some (.array (s.regions.map Region.toJson)) else none,
          if keep "program" then some (.array (s.program.map Event.toJson)) else none] :=
    Json.fields?_keeping (by rfl) (by simp) keep
  have hconfig := Json.orDefault_of_kept Settings.standard (Settings.ofJson?_of_form hsettings)
    fun hleft => by
      rw [show s.settings = .standard from hkeep "config" hleft,
        if_pos Settings.allFinite_standard]
  have hplaced := Json.orDefault_of_kept []
    (Json.list?_of_forall₂ (hagents.imp fun _ _ => Placement.ofJson?_of_form)) fun hleft => by
      rw [show s.agents = [] from hkeep "agents" hleft, List.all_nil, if_pos rfl]
  have hregions := Json.orDefault_of_kept [] (Json.list?_map Region.ofJson?_toJson s.regions)
    fun hleft => by
      rw [show s.regions = [] from hkeep "regions" hleft, List.all_nil, if_pos rfl]
  have hprogram := Json.orDefault_of_kept [] (Json.list?_map Event.ofJson?_toJson s.program)
    fun hleft => by
      rw [show s.program = [] from hkeep "program" hleft, List.all_nil, if_pos rfl]
  simp only [ofJson?, hfields, hconfig, hplaced, hregions, hprogram, floats, allFinite_append,
    allFinite_flatMap]
  cases allFinite s.settings.floats <;>
    cases s.agents.all (fun p => allFinite p.floats) <;>
    cases s.regions.all (fun r => allFinite r.floats) <;>
    cases s.program.all (fun event => allFinite event.floats) <;> simp

/-- A scenario is read from its form, and from every form in which defaults are left out, if
and only if every double in it is finite, and then it is the scenario that was written. -/
theorem reads_back_iff_finite (s : Scenario Float) :
    s.Form s.toJson ∧ ∀ value, s.Form value →
      ((ofJson? value).isSome ↔ ∀ x ∈ s.floats, x.isFinite) ∧
        ((∀ x ∈ s.floats, x.isFinite) → ofJson? value = some s) := by
  refine ⟨s.form_toJson, fun value hvalue => ?_⟩
  have hread := ofJson?_of_form hvalue
  have hfinite : allFinite s.floats ↔ ∀ x ∈ s.floats, x.isFinite := List.all_eq_true
  rw [← hfinite, hread]
  cases allFinite s.floats <;> simp

/-- Two of the settings, the regions and the label of the first agent have their defaults and
are left out. The number of ticks is not one that a program admits, which is no matter here. -/
theorem reads_back_iff_finite_brief :
    let s : Scenario Float :=
      ⟨⟨some 18446744073709551615, 256, 10, 2.5⟩, [⟨1, -4, ""⟩, ⟨0.5, 0, "x"⟩], [],
        [.follow "x" 3 1, .wait (-3), .finish]⟩
    let value : Json := .object
      [("config", .object
        [("rng_seed", .integer 18446744073709551615), ("spawn_extent", .real 2.5)]),
       ("agents", .array
        [.object [("x", .real 1), ("y", .real (-4))],
         .object [("x", .real 0.5), ("y", .real 0), ("label", .string "x")]]),
       ("program", .array
        [.object [("op", .string "follow"), ("label", .string "x"), ("radius", .real 3),
          ("speed", .real 1)],
         .object [("op", .string "wait"), ("ticks", .integer (-3))],
         .object [("op", .string "block_end")]])]
    s.Form value ∧ ofJson? value = some s := by
  intro s value
  have hform : s.Form value := by
    refine ⟨_, _, fun key => key ≠ "regions",
      ⟨fun key => key ≠ "history_capacity" && key ≠ "index_cell_size", ?_, rfl⟩,
      .cons ⟨fun key => key ≠ "label", ?_, rfl⟩ (.cons ⟨fun _ => true, by simp, rfl⟩ .nil), ?_, ?_⟩
    · intro key hkey
      obtain rfl | rfl : key = "history_capacity" ∨ key = "index_cell_size" := by
        simpa [or_iff_not_imp_left] using hkey
      · rfl
      · show (10 : Float) = Settings.standard.cellSize
        decide +kernel
    · intro key hkey
      exact ⟨by simpa using hkey, rfl⟩
    · intro key hkey
      obtain rfl : key = "regions" := by simpa using hkey
      rfl
    · have hfinite : ∀ x ∈ [(2.5 : Float), 1, -4, 0.5, 0, 3], x.isFinite := by decide +kernel
      have hreal : ∀ x ∈ [(2.5 : Float), 1, -4, 0.5, 0, 3], Json.ofFloat x = .real x :=
        fun x hx => Json.ofFloat_of_isFinite (hfinite x hx)
      simp only [List.forall_mem_cons] at hreal
      obtain ⟨hextent, hone, hy, hx, hzero, hradius, -⟩ := hreal
      simp [s, value, Settings.toJson, Placement.toJson, Event.toJson, Event.toJson.tagged,
        hextent, hone, hy, hx, hzero, hradius]
  exact ⟨hform, ((reads_back_iff_finite s).2 value hform).2 (by decide +kernel)⟩

end Scenario

end Flock
