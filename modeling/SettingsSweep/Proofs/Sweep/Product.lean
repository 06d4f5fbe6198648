import SettingsSweep.Proofs.Scalar
import SettingsSweep.Proofs.Sweep.Run
import Mathlib.Data.List.Nodup
import Mathlib.Data.Nat.Basic

/-!
The combinations of a run by position: X turns over fastest and Z slowest, and no combination comes
twice.
-/

set_option autoImplicit false

namespace SettingsSweep

theorem getElem?_flatMap_of_length {α β : Type} {f : α → List β} {n : Nat} (pos : 0 < n)
    {xs : List α} (length : ∀ x ∈ xs, (f x).length = n) (i : Nat) :
    (xs.flatMap f)[i]? = xs[i / n]?.bind fun x => (f x)[i % n]? := by
  induction xs generalizing i with
  | nil => simp
  | cons x xs ih =>
    have head : (f x).length = n := length x List.mem_cons_self
    have tail := ih fun y hy => length y (List.mem_cons_of_mem _ hy)
    rw [List.flatMap_cons]
    by_cases h : i < n
    · rw [List.getElem?_append_left (by omega), Nat.div_eq_of_lt h, Nat.mod_eq_of_lt h]
      rfl
    · obtain ⟨j, rfl⟩ : ∃ j, i = j + n := ⟨i - n, by omega⟩
      rw [List.getElem?_append_right (by omega), head, Nat.add_sub_cancel, tail,
        Nat.add_div_right j pos, Nat.add_mod_right]
      rfl

theorem length_flatMap_of_length {α β : Type} {f : α → List β} {n : Nat} {xs : List α}
    (length : ∀ x ∈ xs, (f x).length = n) : (xs.flatMap f).length = n * xs.length := by
  induction xs with
  | nil => simp
  | cons x xs ih =>
    rw [List.flatMap_cons, List.length_append, length x List.mem_cons_self,
      ih fun y hy => length y (List.mem_cons_of_mem _ hy), List.length_cons, Nat.mul_succ]
    omega

namespace Combination

variable {axes : SweepAxes}

theorem length_row (axes : SweepAxes) (z : Option Scalar) (y : Scalar) :
    (axes.x.values.map fun x => (⟨x, y, z⟩ : Combination)).length = axes.x.values.length :=
  List.length_map _

theorem length_layer (axes : SweepAxes) (z : Option Scalar) :
    (axes.y.values.flatMap fun y => axes.x.values.map fun x => (⟨x, y, z⟩ : Combination)).length =
      axes.x.values.length * axes.y.values.length :=
  length_flatMap_of_length fun y _ => length_row axes z y

theorem length_all (axes : SweepAxes) : (all axes).length =
    axes.x.values.length * axes.y.values.length * (zValues axes).length :=
  length_flatMap_of_length fun z _ => length_layer axes z

theorem getElem?_all (hx : axes.x.values ≠ []) (hy : axes.y.values ≠ []) (i : Nat) :
    (all axes)[i]? =
      (zValues axes)[i / (axes.x.values.length * axes.y.values.length)]?.bind fun z =>
        axes.y.values[i / axes.x.values.length % axes.y.values.length]?.bind fun y =>
          axes.x.values[i % axes.x.values.length]?.map fun x => ⟨x, y, z⟩ := by
  have px := List.length_pos_iff.2 hx
  have py := List.length_pos_iff.2 hy
  rw [all, getElem?_flatMap_of_length (Nat.mul_pos px py) fun z _ => length_layer axes z]
  congr 1
  funext z
  rw [getElem?_flatMap_of_length px fun y _ => length_row axes z y,
    Nat.mod_mul_right_div_self, Nat.mod_mul_right_mod]
  congr 1
  funext y
  rw [List.getElem?_map]

theorem getElem?_all_eq_some (hx : axes.x.values ≠ []) (hy : axes.y.values ≠ []) {i : Nat}
    {c : Combination} (h : (all axes)[i]? = some c) :
    axes.x.values[i % axes.x.values.length]? = some c.x ∧
      axes.y.values[i / axes.x.values.length % axes.y.values.length]? = some c.y ∧
      (zValues axes)[i / (axes.x.values.length * axes.y.values.length)]? = some c.z := by
  rw [getElem?_all hx hy] at h
  obtain ⟨z, hz, h⟩ := Option.bind_eq_some_iff.1 h
  obtain ⟨y, hy, h⟩ := Option.bind_eq_some_iff.1 h
  obtain ⟨x, hx, rfl⟩ := Option.map_eq_some_iff.1 h
  exact ⟨hx, hy, hz⟩

end Combination

/-- A position is told by its place on each axis. -/
theorem eq_of_places_eq {i j m n : Nat} (hx : i % m = j % m) (hy : i / m % n = j / m % n)
    (hz : i / (m * n) = j / (m * n)) : i = j := by
  rw [← Nat.div_div_eq_div_mul, ← Nat.div_div_eq_div_mul] at hz
  have outer : i / m = j / m := by
    rw [← Nat.div_add_mod (i / m) n, ← Nat.div_add_mod (j / m) n, hy, hz]
  rw [← Nat.div_add_mod i m, ← Nat.div_add_mod j m, hx, outer]

theorem Scalar.key_ne_of_getElem? {values : List Scalar} (nodup : (values.map Scalar.key).Nodup)
    {a b : Nat} {v w : Scalar} (hv : values[a]? = some v) (hw : values[b]? = some w) (h : a ≠ b) :
    v.key ≠ w.key := by
  intro he
  have ha : (values.map Scalar.key)[a]? = some v.key := by rw [List.getElem?_map, hv]; rfl
  have hb : (values.map Scalar.key)[b]? = some v.key := by rw [List.getElem?_map, hw, he]; rfl
  obtain ⟨la, ea⟩ := List.getElem?_eq_some_iff.1 ha
  obtain ⟨lb, eb⟩ := List.getElem?_eq_some_iff.1 hb
  exact h (nodup.getElem_inj_iff.1 (ea.trans eb.symm))

namespace Dict

theorem find?_putAll {α : Type} (key : String) (d : Dict α) (entries : List (String × α)) :
    (d.putAll entries).find? key =
      ((entries.reverse.find? fun e => e.1 = key).map (·.2)).or (d.find? key) := by
  induction entries generalizing d with
  | nil => simp [putAll]
  | cons e entries ih =>
    change (putAll (d.put e.1 e.2) entries).find? key = _
    rw [ih, List.reverse_cons, List.find?_append]
    cases entries.reverse.find? fun e => e.1 = key with
    | some found => simp
    | none =>
      by_cases h : e.1 = key
      · subst h
        simp [find?_put_self]
      · simp [find?_put_of_ne (Ne.symm h), h]

theorem find?_ofList {α : Type} (key : String) (entries : List (String × α)) :
    (ofList entries).find? key = (entries.reverse.find? fun e => e.1 = key).map (·.2) := by
  rw [ofList, find?_putAll]
  simp [find?]

end Dict

namespace PlotParams

def toList (params : PlotParams) : List AxisValue := params.x :: params.y :: params.z.toList

/-- Two artifacts have different values on an axis. -/
def DifferAt (p q : PlotParams) (name : AxisName) : Prop :=
  ∃ v w, p.get? name = some v ∧ q.get? name = some w ∧ v.value.key ≠ w.value.key

end PlotParams

namespace SweepRequest

/-- Each axis in use carries the name of its slot. -/
structure InSlots (request : SweepRequest) : Prop where
  x : request.x.name = .x
  y : request.y.name = .y
  z : ∀ z, request.activeZ = some z → z.name = .z

/-- The fields in use with the values of a combination. -/
def recorded (request : SweepRequest) (c : Combination) : PlotParams :=
  ⟨⟨request.x.path, c.x⟩, ⟨request.y.path, c.y⟩,
    request.activeZ.bind fun z => c.z.map fun v => ⟨z.path, v⟩⟩

variable {request : SweepRequest} {options : SweepOptions} {now : Instant} {report : SweepReport}

theorem map_entries (request : SweepRequest) (catalog : Catalog) (c : Combination) :
    (c.entries (request.sweepAxes catalog)).map (fun e => AxisValue.mk e.1.field e.2) =
      (request.recorded c).toList := by
  cases hz : request.activeZ with
  | none =>
    simp [Combination.entries, sweepAxes, recorded, PlotParams.toList, hz, Axis.resolve_field]
  | some z =>
    cases hc : c.z <;>
      simp [Combination.entries, sweepAxes, recorded, PlotParams.toList, hz, hc, Axis.resolve_field]

theorem plotParams_eq (slots : request.InSlots) (catalog : Catalog) (c : Combination) :
    plotParams c (request.sweepAxes catalog) = request.recorded c := by
  have hx : (request.x.resolve catalog).name = .x := by rw [Axis.resolve_name, slots.x]
  have hy : (request.y.resolve catalog).name = .y := by rw [Axis.resolve_name, slots.y]
  cases hz : request.activeZ with
  | none =>
    simp [plotParams, Combination.axisValue?, Combination.entries, sweepAxes, recorded, hz, hx, hy,
      Axis.resolve_field]
  | some z =>
    have hn : (z.resolve catalog).name = .z := by rw [Axis.resolve_name, slots.z z hz]
    cases hc : c.z <;>
      simp [plotParams, Combination.axisValue?, Combination.entries, sweepAxes, recorded, hz, hc, hx,
        hy, hn, Axis.resolve_field]

theorem find?_overrides (request : SweepRequest) (catalog : Catalog) (c : Combination)
    (field : String) :
    (c.overrides (request.sweepAxes catalog)).find? field =
      ((request.recorded c).toList.reverse.find? fun v => v.field = field).map
        (·.value.toJson) := by
  have entries : (c.entries (request.sweepAxes catalog)).map
      (fun e => (e.1.field, e.2.toJson)) =
        (request.recorded c).toList.map fun v => (v.field, v.value.toJson) := by
    rw [← map_entries request catalog c, List.map_map]
    rfl
  change (Dict.ofList ((c.entries (request.sweepAxes catalog)).map
    fun e => (e.1.field, e.2.toJson))).find? field = _
  rw [entries, Dict.find?_ofList, ← List.map_reverse, List.find?_map, Option.map_map]
  rfl

/-- What the artifact at a position records: the combination of that position. -/
theorem artifact_records (slots : request.InSlots) (run : request.generate options now = .ok report)
    {i : Nat} {artifact : Artifact} (h : report.artifacts[i]? = some artifact) :
    ∃ c, (Combination.all (request.sweepAxes options.catalog))[i]? = some c ∧
      artifact.provenance.params = request.recorded c ∧
      artifact.overrides = c.overrides (request.sweepAxes options.catalog) := by
  obtain ⟨c, name, hc, rfl⟩ := artifact_getElem? run h
  rw [axes_eq run] at hc ⊢
  exact ⟨c, hc, plotParams_eq slots options.catalog c, rfl⟩

theorem exists_artifact (slots : request.InSlots) (run : request.generate options now = .ok report)
    {i : Nat} {c : Combination}
    (hc : (Combination.all (request.sweepAxes options.catalog))[i]? = some c) :
    ∃ artifact, report.artifacts[i]? = some artifact ∧
      artifact.provenance.params = request.recorded c := by
  obtain ⟨hi, -⟩ := List.getElem?_eq_some_iff.1 hc
  have length := length_artifacts run
  rw [axes_eq run] at length
  have h := List.getElem?_eq_getElem (l := report.artifacts) (by omega : i < _)
  obtain ⟨d, hd, hp, -⟩ := artifact_records slots run h
  obtain rfl := Option.some.inj (hc.symm.trans hd)
  exact ⟨_, h, hp⟩

theorem values_ne_nil (run : request.generate options now = .ok report) :
    ∀ axis ∈ request.activeAxes, (axis.resolve options.catalog).values ≠ [] :=
  fun axis ha => ((resolveAxes_eq_ok_iff.1 (generate_eq_ok run).1).2 axis ha).2

theorem places_of_getElem? (run : request.generate options now = .ok report) {i : Nat}
    {c : Combination}
    (h : (Combination.all (request.sweepAxes options.catalog))[i]? = some c) :
    let xs := (request.x.resolve options.catalog).values
    let ys := (request.y.resolve options.catalog).values
    xs[i % xs.length]? = some c.x ∧ ys[i / xs.length % ys.length]? = some c.y ∧
      (request.activeZ = none → i / (xs.length * ys.length) = 0 ∧ c.z = none) ∧
      ∀ z, request.activeZ = some z → ∃ v, c.z = some v ∧
        (z.resolve options.catalog).values[i / (xs.length * ys.length)]? = some v := by
  have nonempty := values_ne_nil run
  obtain ⟨hx, hy, hz⟩ := Combination.getElem?_all_eq_some
    (nonempty request.x (by simp [activeAxes])) (nonempty request.y (by simp [activeAxes])) h
  refine ⟨hx, hy, ?_, ?_⟩
  · intro none
    simp only [Combination.zValues, sweepAxes, none, Option.map_none, List.getElem?_singleton] at hz
    split at hz
    · next zero => exact ⟨zero, (Option.some.inj hz).symm⟩
    · cases hz
  · intro z some
    simp only [Combination.zValues, sweepAxes, some, Option.map_some, List.getElem?_map] at hz
    obtain ⟨v, hv, hc⟩ := Option.map_eq_some_iff.1 hz
    exact ⟨v, hc.symm, hv⟩

theorem mem_all {axes : SweepAxes} {c : Combination} : c ∈ Combination.all axes ↔
    c.x ∈ axes.x.values ∧ c.y ∈ axes.y.values ∧ c.z ∈ Combination.zValues axes := by
  obtain ⟨x, y, z⟩ := c
  simp only [Combination.all, List.mem_flatMap, List.mem_map, Combination.mk.injEq]
  constructor
  · rintro ⟨z, hz, y, hy, x, hx, rfl, rfl, rfl⟩
    exact ⟨hx, hy, hz⟩
  · rintro ⟨hx, hy, hz⟩
    exact ⟨z, hz, y, hy, x, hx, rfl, rfl, rfl⟩

theorem exists_combination (slots : request.InSlots) (run : request.generate options now = .ok report)
    {axis : Axis} (ha : axis ∈ request.activeAxes) {v : Scalar}
    (hv : v ∈ (axis.resolve options.catalog).values) :
    ∃ c ∈ Combination.all (request.sweepAxes options.catalog),
      (request.recorded c).get? axis.name = some ⟨axis.path, v⟩ := by
  have nonempty := values_ne_nil run
  obtain ⟨x, hx⟩ := List.exists_mem_of_ne_nil _ (nonempty request.x (by simp [activeAxes]))
  obtain ⟨y, hy⟩ := List.exists_mem_of_ne_nil _ (nonempty request.y (by simp [activeAxes]))
  obtain ⟨z, hz⟩ : ∃ z, z ∈ Combination.zValues (request.sweepAxes options.catalog) := by
    cases hz : request.activeZ with
    | none => exact ⟨none, by simp [Combination.zValues, sweepAxes, hz]⟩
    | some z =>
      obtain ⟨u, hu⟩ := List.exists_mem_of_ne_nil _ (nonempty z (by simp [activeAxes, hz]))
      exact ⟨some u, by simp [Combination.zValues, sweepAxes, hz, hu]⟩
  rcases List.mem_cons.1 ha with rfl | ha
  · exact ⟨⟨v, y, z⟩, mem_all.2 ⟨hv, hy, hz⟩, by rw [slots.x]; rfl⟩
  rcases List.mem_cons.1 ha with rfl | ha
  · exact ⟨⟨x, v, z⟩, mem_all.2 ⟨hx, hv, hz⟩, by rw [slots.y]; rfl⟩
  have active : request.activeZ = some axis := Option.mem_toList.1 ha
  refine ⟨⟨x, y, some v⟩, mem_all.2 ⟨hx, hy, ?_⟩, ?_⟩
  · simp [Combination.zValues, sweepAxes, active, hv]
  · simp [slots.z axis active, PlotParams.get?, recorded, active]

theorem exists_differAt (slots : request.InSlots) (run : request.generate options now = .ok report)
    {i j : Nat} {a b : Artifact} (hi : report.artifacts[i]? = some a)
    (hj : report.artifacts[j]? = some b) (hij : i ≠ j) :
    ∃ axis ∈ request.activeAxes,
      a.provenance.params.DifferAt b.provenance.params axis.name := by
  obtain ⟨c, hc, ha, -⟩ := artifact_records slots run hi
  obtain ⟨d, hd, hb, -⟩ := artifact_records slots run hj
  obtain ⟨cx, cy, cn, cz⟩ := places_of_getElem? run hc
  obtain ⟨dx, dy, dn, dz⟩ := places_of_getElem? run hd
  rw [ha, hb]
  by_cases px : i % (request.x.resolve options.catalog).values.length =
      j % (request.x.resolve options.catalog).values.length
  · by_cases py : i / (request.x.resolve options.catalog).values.length %
        (request.y.resolve options.catalog).values.length =
          j / (request.x.resolve options.catalog).values.length %
            (request.y.resolve options.catalog).values.length
    · have pz := fun h => hij (eq_of_places_eq px py h)
      cases hz : request.activeZ with
      | none => exact absurd ((cn hz).1.trans (dn hz).1.symm) pz
      | some z =>
        obtain ⟨v, ev, hv⟩ := cz z hz
        obtain ⟨w, ew, hw⟩ := dz z hz
        refine ⟨z, by simp [activeAxes, hz], ?_⟩
        rw [slots.z z hz]
        exact ⟨⟨z.path, v⟩, ⟨z.path, w⟩, by simp [PlotParams.get?, recorded, hz, ev],
          by simp [PlotParams.get?, recorded, hz, ew],
          Scalar.key_ne_of_getElem? (z.nodup_keys_resolve _) hv hw pz⟩
    · refine ⟨request.y, by simp [activeAxes], ?_⟩
      rw [slots.y]
      exact ⟨_, _, rfl, rfl,
        Scalar.key_ne_of_getElem? (request.y.nodup_keys_resolve _) cy dy py⟩
  · refine ⟨request.x, by simp [activeAxes], ?_⟩
    rw [slots.x]
    exact ⟨_, _, rfl, rfl, Scalar.key_ne_of_getElem? (request.x.nodup_keys_resolve _) cx dx px⟩

theorem length_artifacts_eq (run : request.generate options now = .ok report) :
    report.artifacts.length =
      (request.x.resolve options.catalog).values.length *
        (request.y.resolve options.catalog).values.length *
        ((request.activeZ.map fun z => (z.resolve options.catalog).values).map
          List.length).getD 1 := by
  rw [length_artifacts run, axes_eq run, Combination.length_all]
  cases hz : request.activeZ <;> simp [Combination.zValues, sweepAxes, hz]

/-- The artifacts of a run are the combinations of its axes: each records the values of its position
    under the trimmed fields, its overrides keep the last value of a field, and no two artifacts record
    equal values throughout. -/
theorem artifacts_are_product (slots : request.InSlots)
    (run : request.generate options now = .ok report) :
    let xs := (request.x.resolve options.catalog).values
    let ys := (request.y.resolve options.catalog).values
    let zs := request.activeZ.map fun z => (z.resolve options.catalog).values
    report.artifacts.length = xs.length * ys.length * (zs.map List.length).getD 1 ∧
      (∀ (i : Nat) artifact, report.artifacts[i]? = some artifact →
        let params := artifact.provenance.params
        (∃ x, xs[i % xs.length]? = some x ∧ params.x = ⟨request.x.path, x⟩) ∧
        (∃ y, ys[i / xs.length % ys.length]? = some y ∧ params.y = ⟨request.y.path, y⟩) ∧
        (request.activeZ = none → params.z = none) ∧
        (∀ z, request.activeZ = some z → ∃ v,
          (z.resolve options.catalog).values[i / (xs.length * ys.length)]? = some v ∧
            params.z = some ⟨z.path, v⟩) ∧
        ∀ field, artifact.overrides.find? field =
          (params.toList.reverse.find? fun v => v.field = field).map (·.value.toJson)) ∧
      ∀ (i j : Nat) a b, report.artifacts[i]? = some a → report.artifacts[j]? = some b → i ≠ j →
        ∃ name v w, a.provenance.params.get? name = some v ∧
          b.provenance.params.get? name = some w ∧
          v.value ≠ w.value ∧ v.value.same w.value = false := by
  refine ⟨length_artifacts_eq run, ?_, ?_⟩
  · intro i artifact h
    obtain ⟨c, hc, hp, ho⟩ := artifact_records slots run h
    obtain ⟨hx, hy, hn, hz⟩ := places_of_getElem? run hc
    rw [hp, ho]
    refine ⟨⟨c.x, hx, rfl⟩, ⟨c.y, hy, rfl⟩, ?_, ?_, find?_overrides request options.catalog c⟩
    · intro none
      simp [recorded, none]
    · intro z some
      obtain ⟨v, hv, hi⟩ := hz z some
      exact ⟨v, hi, by simp [recorded, some, hv]⟩
  · intro i j a b hi hj hij
    obtain ⟨axis, -, v, w, hv, hw, hne⟩ := exists_differAt slots run hi hj hij
    refine ⟨axis.name, v, w, hv, hw, fun he => hne (he ▸ rfl), ?_⟩
    exact Bool.eq_false_iff.2 fun hs => hne (Scalar.key_eq_of_same hs)

def cubeRequest : SweepRequest where
  base := []
  x := { name := .x, field := " sampler ", choices := ["euler", "lms"] }
  y := { name := .y, field := "seed", expressions := ["1, -0", "0"] }
  z := some { name := .z, field := "steps", expressions := ["20", "true"] }

theorem artifacts_are_product_cube :
    ∃ report, cubeRequest.generate {} ⟨0, 0⟩ = .ok report ∧ cubeRequest.InSlots ∧
      report.artifacts.length = 8 ∧
      ∀ artifact, report.artifacts[5]? = some artifact →
        artifact.provenance.params.x = ⟨"sampler", .text "lms"⟩ := by
  have axes : ∀ axis ∈ cubeRequest.activeAxes,
      axis.hasField = true ∧ axis.contributed ({} : SweepOptions).catalog ≠ [] := by
    decide +kernel
  have slots : cubeRequest.InSlots := ⟨rfl, rfl, by rintro z ⟨⟩; rfl⟩
  have path : cubeRequest.x.path = "sampler" := by decide +kernel
  have xs : (cubeRequest.x.resolve {}).values = [.text "euler", .text "lms"] := by
    rw [Axis.resolve_values (by decide)]
    decide +kernel
  have ys : (cubeRequest.y.resolve {}).values.length = 2 := by
    rw [Axis.resolve_values (by decide)]
    decide +kernel
  have zs : ((cubeRequest.activeZ.map fun z => (z.resolve {}).values).map List.length).getD 1 =
      2 := by
    change (Axis.resolve { name := .z, field := "steps", expressions := ["20", "true"] }
      {}).values.length = 2
    rw [Axis.resolve_values (by decide)]
    decide +kernel
  obtain ⟨report, run⟩ := exists_generate_eq_ok axes ⟨0, 0⟩
  obtain ⟨length, records, -⟩ := artifacts_are_product slots run
  refine ⟨report, run, slots, ?_, ?_⟩
  · rw [length, ys, zs, xs]
    rfl
  · intro artifact h
    obtain ⟨⟨x, hx, hp⟩, -⟩ := records 5 artifact h
    rw [xs] at hx
    obtain rfl := Option.some.inj hx
    rw [hp, path]

end SweepRequest

end SettingsSweep
