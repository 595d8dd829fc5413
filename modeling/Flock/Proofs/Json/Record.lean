import Mathlib.Data.List.Nodup
import Mathlib.Tactic.Common
import Flock.Json.Record

/-!
# What is read of a record

A record is written as an object that has each of its fields once. `Json.keeping` leaves
fields out of it. What is read of the object is then the value of every field that was
kept, and nothing of the others (`Json.fields?_keeping`). Numbers, lists and absent values
are read back as they were written, except for the doubles that are not finite
(`Json.float?_ofFloat`).
-/

namespace Flock

namespace Json

variable {entries : List (String × Json)}

/-- An object without the fields that are not kept. -/
def keeping (keep : String → Bool) : Json → Json
  | object entries => object (entries.filter fun entry => keep entry.1)
  | value => value

@[simp] theorem keeping_object (keep : String → Bool) (entries : List (String × Json)) :
    (object entries).keeping keep = object (entries.filter fun entry => keep entry.1) := rfl

theorem lookup?_filter (keep : String → Bool) (key : String) (entries : List (String × Json)) :
    lookup? key (entries.filter fun entry => keep entry.1) =
      if keep key then lookup? key entries else none := by
  unfold lookup?
  induction entries with
  | nil => simp
  | cons entry rest ih =>
      by_cases hkey : entry.1 = key
      · cases hkeep : keep key with
        | true => simp [hkey, hkeep]
        | false => simpa [hkey, hkeep] using ih
      · cases hkeep : keep entry.1 with
        | true => simpa [hkey, hkeep] using ih
        | false => simpa [hkey, hkeep] using ih

theorem lookup?_of_mem (hnodup : (entries.map (·.1)).Nodup) {entry : String × Json}
    (h : entry ∈ entries) : lookup? entry.1 entries = some entry.2 := by
  unfold lookup?
  induction entries with
  | nil => simp at h
  | cons first rest ih =>
      rw [List.map_cons, List.nodup_cons] at hnodup
      rcases List.mem_cons.mp h with rfl | hrest
      · simp
      · have hne : first.1 ≠ entry.1 := fun heq =>
          hnodup.1 (heq ▸ List.mem_map_of_mem hrest)
        simpa [hne] using ih hnodup.2 hrest

theorem countP_le_one (hnodup : (entries.map (·.1)).Nodup) (keep : String → Bool)
    (key : String) :
    (entries.filter fun entry => keep entry.1).countP (·.1 = key) ≤ 1 := by
  have hcount := List.nodup_iff_count_le_one.mp hnodup key
  rw [List.count, List.countP_map] at hcount
  refine Nat.le_trans (List.Sublist.countP_le List.filter_sublist) (Nat.le_trans ?_ hcount)
  exact Nat.le_of_eq (List.countP_congr fun entry _ => by simp)

/-- Of an object that has each of its fields once, whatever fields are left out, the values
of those are read that are kept. -/
theorem fields?_keeping {names : List String} (hnames : entries.map (·.1) = names)
    (hnodup : names.Nodup) (keep : String → Bool) :
    ((object entries).keeping keep).fields? names =
      some (entries.map fun entry => if keep entry.1 then some entry.2 else none) := by
  subst hnames
  have honce : (entries.map (·.1)).all (fun name =>
      decide ((entries.filter fun entry => keep entry.1).countP (·.1 = name) ≤ 1)) = true := by
    simp [countP_le_one hnodup keep]
  rw [keeping_object, fields?, if_pos honce, List.map_map, Option.some.injEq]
  refine List.map_congr_left fun entry hentry => ?_
  rw [Function.comp_apply, lookup?_filter, lookup?_of_mem hnodup hentry]

theorem fields?_object {names : List String} (hnames : entries.map (·.1) = names)
    (hnodup : names.Nodup) :
    (object entries).fields? names = some (entries.map fun entry => some entry.2) := by
  have hall := fields?_keeping hnames hnodup fun _ => true
  rwa [keeping_object, List.filter_eq_self.mpr fun _ _ => rfl] at hall

/-- A field that was left out reads as its default, so it may be left out where that is its
value. -/
theorem orDefault_of_kept {β : Type} (standard : β) {read? : Json → Option β} {item : Json}
    {result : Option β} {kept : Bool} (hread : read? item = result)
    (hleft : kept = false → result = some standard) :
    orDefault standard read? (if kept then some item else none) = result := by
  cases kept with
  | true => exact hread
  | false => exact (hleft rfl).symm

/-! Values. -/

theorem ofFloat_of_isFinite {x : Float} (h : x.isFinite) : ofFloat x = real x := if_pos h

theorem float?_ofFloat (x : Float) : (ofFloat x).float? = if x.isFinite then some x else none := by
  unfold ofFloat
  split <;> rfl

@[simp] theorem isReadable_ofFloat (x : Float) : (ofFloat x).isReadable = true := by
  unfold ofFloat
  split <;> simp [isReadable]

@[simp] theorem nesting_ofFloat (x : Float) : (ofFloat x).nesting = 0 := by
  unfold ofFloat
  split <;> simp [nesting]

theorem int64?_integer (n : Int64) : (integer n.toInt).int64? = some n := by
  have hbounds : Int64.minValue.toInt ≤ n.toInt ∧ n.toInt ≤ Int64.maxValue.toInt :=
    ⟨n.minValue_le_toInt, n.toInt_le⟩
  rw [int64?, integerBetween?, if_pos hbounds, Option.map_some, Int64.ofInt_toInt]

theorem uint64?_integer (n : UInt64) : (integer n.toNat).uint64? = some n := by
  have hbounds : 0 ≤ (n.toNat : Int) ∧ (n.toNat : Int) ≤ (UInt64.size : Int) - 1 := by
    have := n.toNat_lt
    simp only [UInt64.size]
    omega
  rw [uint64?, integerBetween?, if_pos hbounds, Option.map_some, Int.toNat_natCast,
    UInt64.ofNat_toNat]

/-- A list is read back if each of its members is, and not at all if one is not. -/
theorem list?_of_forall₂ {β : Type} {read? : Json → Option β} {good : β → Bool} {values : List β}
    {items : List Json}
    (h : List.Forall₂ (fun value item => read? item = if good value then some value else none)
      values items) :
    list? read? (array items) = if values.all good then some values else none := by
  rw [list?]
  induction h with
  | nil => rfl
  | @cons value item values items hfirst _ ih =>
      rw [List.mapM_cons, hfirst, ih]
      cases hvalue : good value <;> cases hrest : values.all good <;> simp [hvalue, hrest]

theorem list?_map {β : Type} {read? : Json → Option β} {write : β → Json} {good : β → Bool}
    (h : ∀ value, read? (write value) = if good value then some value else none)
    (values : List β) :
    list? read? (array (values.map write)) = if values.all good then some values else none :=
  list?_of_forall₂ (List.forall₂_map_right_iff.mpr (List.forall₂_same.mpr fun value _ => h value))

end Json

end Flock
