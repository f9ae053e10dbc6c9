import Mathlib.Data.List.Induction
import StyleOrigin.Ledger
import StyleOrigin.Proofs.Sequence

/-! # What a ledger records

A ledger is filled one resolution at a time. Here its groups are compared with the resolutions that
have arrived, whatever their order.

* `Resolution.key?`: the file and query that a resolution is put under.
* `unitsUnder`: the units that arrived under a key.
* `Ledger.Records`: the invariant of filling. There is one group for each key that arrived, and it
  holds exactly the units that arrived under that key.
* `records_addAll`: it holds of every ledger that is filled from nothing.
-/
set_option autoImplicit false

namespace StyleOrigin

/-! ## Keys -/

/-- The file and the query that a resolution is put under, if it has an origin. -/
def Resolution.key? (resolution : Resolution) : Option (Text × Text) :=
  resolution.origin.map fun origin => (origin, resolution.unit.query)

def Group.key (group : Group) : Text × Text :=
  (group.path, group.query)

/-- The units of the resolutions that are put under a key, in order of arrival. -/
def unitsUnder (key : Text × Text) (resolutions : List Resolution) : List StyleUnit :=
  (resolutions.filter fun resolution => resolution.key? == some key).map (·.unit)

theorem Resolution.key?_eq_some_iff {resolution : Resolution} {key : Text × Text} :
    resolution.key? = some key ↔
      resolution.origin = some key.1 ∧ resolution.unit.query = key.2 := by
  unfold Resolution.key?
  cases horigin : resolution.origin with
  | none => simp
  | some origin => simp [Prod.ext_iff]

theorem Resolution.key?_eq_none_iff {resolution : Resolution} :
    resolution.key? = none ↔ resolution.origin = none := by
  simp [Resolution.key?]

theorem Group.isOf_iff {group : Group} {path query : Text} :
    group.isOf path query = true ↔ group.key = (path, query) := by
  simp [Group.isOf, Group.key, Prod.ext_iff]

theorem unitsUnder_concat (key : Text × Text) (resolutions : List Resolution)
    (resolution : Resolution) :
    unitsUnder key (resolutions ++ [resolution]) =
      unitsUnder key resolutions ++ (if resolution.key? = some key then [resolution.unit] else []) := by
  unfold unitsUnder
  rw [List.filter_append, List.map_append]
  congr 1
  by_cases hkey : resolution.key? = some key <;> simp [hkey]

theorem mem_unitsUnder {key : Text × Text} {resolutions : List Resolution} {unit : StyleUnit} :
    unit ∈ unitsUnder key resolutions ↔
      ∃ resolution ∈ resolutions, resolution.key? = some key ∧ resolution.unit = unit := by
  simp [unitsUnder, and_assoc]

theorem unitsUnder_perm {key : Text × Text} {front back : List Resolution} (h : front.Perm back) :
    (unitsUnder key front).Perm (unitsUnder key back) :=
  (h.filter _).map _

/-! ## One more unit -/

namespace Ledger

theorem keys_addUnit (path : Text) (unit : StyleUnit) (groups : List Group) :
    (addUnit path unit groups).map Group.key =
      if (path, unit.query) ∈ groups.map Group.key then groups.map Group.key
      else groups.map Group.key ++ [(path, unit.query)] := by
  induction groups with
  | nil => rfl
  | cons group rest ih =>
    by_cases hof : group.isOf path unit.query = true
    · have hkey := Group.isOf_iff.mp hof
      simp only [addUnit, hof, if_true, List.map_cons]
      rw [hkey, if_pos (by simp)]
      exact congrArg (· :: rest.map Group.key) hkey
    · have hkey : (path, unit.query) ≠ group.key := fun h => hof (Group.isOf_iff.mpr h.symm)
      simp only [addUnit, hof, Bool.false_eq_true, if_false, List.map_cons, ih, List.mem_cons, hkey,
        false_or]
      split <;> simp

theorem nodup_keys_addUnit {groups : List Group} (h : (groups.map Group.key).Nodup) (path : Text)
    (unit : StyleUnit) : ((addUnit path unit groups).map Group.key).Nodup := by
  rw [keys_addUnit]
  split
  · exact h
  · rename_i hnew
    refine List.nodup_append.mpr ⟨h, by simp, fun key hkey other hother heq => ?_⟩
    rw [List.mem_singleton.mp hother] at heq
    exact hnew (heq ▸ hkey)

theorem mem_keys_addUnit {path : Text} {unit : StyleUnit} {groups : List Group} {key : Text × Text} :
    key ∈ (addUnit path unit groups).map Group.key ↔
      key ∈ groups.map Group.key ∨ (path, unit.query) = key := by
  rw [keys_addUnit]
  split
  · rename_i hold
    exact ⟨.inl, fun hor => hor.elim id fun heq => heq ▸ hold⟩
  · simp [eq_comm]

/-- A group of the new groups is an old one under another key, an old one with the unit at its end,
or a new one. -/
theorem mem_addUnit {path : Text} {unit : StyleUnit} {groups : List Group} {group : Group}
    (hdistinct : (groups.map Group.key).Nodup) (h : group ∈ addUnit path unit groups) :
    (group.key ≠ (path, unit.query) ∧ group ∈ groups) ∨
      (group.key = (path, unit.query) ∧
        ((∃ old ∈ groups, old.key = group.key ∧ group.units = old.units ++ [unit]) ∨
          (group.key ∉ groups.map Group.key ∧ group.units = [unit]))) := by
  induction groups with
  | nil =>
    have hgroup : group = ⟨path, unit.query, unit, []⟩ := by simpa [addUnit] using h
    subst hgroup
    exact .inr ⟨rfl, .inr ⟨by simp, rfl⟩⟩
  | cons first rest ih =>
    rw [List.map_cons, List.nodup_cons] at hdistinct
    by_cases hof : first.isOf path unit.query = true
    · have hkey := Group.isOf_iff.mp hof
      simp only [addUnit, hof, if_true, List.mem_cons] at h
      rcases h with rfl | hmem
      · exact .inr ⟨hkey, .inl ⟨first, by simp, rfl, rfl⟩⟩
      · have hne : group.key ≠ (path, unit.query) := by
          intro heq
          exact hdistinct.1 (List.mem_map.mpr ⟨group, hmem, heq.trans hkey.symm⟩)
        exact .inl ⟨hne, List.mem_cons_of_mem first hmem⟩
    · have hkey : first.key ≠ (path, unit.query) := fun heq => hof (Group.isOf_iff.mpr heq)
      simp only [addUnit, hof, Bool.false_eq_true, if_false, List.mem_cons] at h
      rcases h with rfl | hmem
      · exact .inl ⟨hkey, by simp⟩
      · rcases ih hdistinct.2 hmem with ⟨hne, hold⟩ | ⟨heq, hold | hnew⟩
        · exact .inl ⟨hne, List.mem_cons_of_mem first hold⟩
        · obtain ⟨old, hmem, hsame, hunits⟩ := hold
          exact .inr ⟨heq, .inl ⟨old, List.mem_cons_of_mem first hmem, hsame, hunits⟩⟩
        · refine .inr ⟨heq, .inr ⟨?_, hnew.2⟩⟩
          rw [List.map_cons, List.mem_cons, not_or]
          exact ⟨fun hfirst => hkey (hfirst.symm.trans heq), hnew.1⟩

/-! ## The invariant of filling -/

/-- What a ledger holds of the resolutions that have arrived. -/
structure Records (ledger : Ledger) (arrived : List Resolution) : Prop where
  count_eq : ledger.count = arrived.length
  unresolved_eq : ledger.unresolved = arrived.filter fun resolution => resolution.origin.isNone
  distinct : (ledger.groups.map Group.key).Nodup
  mem_keys : ∀ key, key ∈ ledger.groups.map Group.key ↔
    ∃ resolution ∈ arrived, resolution.key? = some key
  units_eq : ∀ group ∈ ledger.groups, group.units = unitsUnder group.key arrived

theorem records_empty : Records .empty [] :=
  ⟨rfl, rfl, by simp [empty], by simp [empty], by simp [empty]⟩

theorem Records.unitsUnder_eq_nil {ledger : Ledger} {arrived : List Resolution}
    (h : Records ledger arrived) {key : Text × Text} (hkey : key ∉ ledger.groups.map Group.key) :
    unitsUnder key arrived = [] := by
  rw [List.eq_nil_iff_forall_not_mem]
  intro unit hunit
  obtain ⟨resolution, hmem, hsome, -⟩ := mem_unitsUnder.mp hunit
  exact hkey ((h.mem_keys key).mpr ⟨resolution, hmem, hsome⟩)

/-- One more resolution without an origin touches no group. -/
theorem Records.add_of_isNone {ledger : Ledger} {arrived : List Resolution}
    (h : Records ledger arrived) {resolution : Resolution} (horigin : resolution.origin = none) :
    Records (ledger.add resolution) (arrived ++ [resolution]) := by
  have hkey : resolution.key? = none := Resolution.key?_eq_none_iff.mpr horigin
  have hadd : ledger.add resolution =
      ⟨ledger.groups, ledger.unresolved ++ [resolution], ledger.count + 1⟩ := by
    simp [Ledger.add, horigin]
  rw [hadd]
  refine ⟨?_, ?_, h.distinct, ?_, ?_⟩
  · simp [h.count_eq]
  · simp [h.unresolved_eq, horigin]
  · intro key
    rw [h.mem_keys key]
    simp [or_and_right, exists_or, hkey]
  · intro group hgroup
    rw [unitsUnder_concat, hkey, h.units_eq group hgroup]
    simp

/-- One more resolution with an origin fills the group under its key. -/
theorem Records.add_of_isSome {ledger : Ledger} {arrived : List Resolution}
    (h : Records ledger arrived) {resolution : Resolution} {origin : Text}
    (horigin : resolution.origin = some origin) :
    Records (ledger.add resolution) (arrived ++ [resolution]) := by
  have hkey : resolution.key? = some (origin, resolution.unit.query) :=
    Resolution.key?_eq_some_iff.mpr ⟨horigin, rfl⟩
  have hadd : ledger.add resolution =
      ⟨addUnit origin resolution.unit ledger.groups, ledger.unresolved, ledger.count + 1⟩ := by
    simp [Ledger.add, horigin]
  rw [hadd]
  refine ⟨?_, ?_, nodup_keys_addUnit h.distinct _ _, ?_, ?_⟩
  · simp [h.count_eq]
  · simp [h.unresolved_eq, horigin]
  · intro key
    rw [mem_keys_addUnit, h.mem_keys key]
    simp [or_and_right, exists_or, hkey]
  · intro group hgroup
    rw [unitsUnder_concat, hkey]
    rcases mem_addUnit h.distinct hgroup with ⟨hne, hold⟩ | ⟨heq, hold | hnew⟩
    · have hother : some (origin, resolution.unit.query) ≠ some group.key :=
        fun hsome => hne (Option.some.inj hsome).symm
      rw [if_neg hother, List.append_nil]
      exact h.units_eq group hold
    · obtain ⟨old, hmem, hsame, hunits⟩ := hold
      rw [hunits, h.units_eq old hmem, hsame, if_pos (by rw [heq])]
    · rw [hnew.2, h.unitsUnder_eq_nil hnew.1, if_pos (by rw [heq]), List.nil_append]

theorem Records.add {ledger : Ledger} {arrived : List Resolution} (h : Records ledger arrived)
    (resolution : Resolution) : Records (ledger.add resolution) (arrived ++ [resolution]) := by
  cases horigin : resolution.origin with
  | none => exact h.add_of_isNone horigin
  | some origin => exact h.add_of_isSome horigin

theorem addAll_concat (ledger : Ledger) (front : List Resolution) (resolution : Resolution) :
    ledger.addAll (front ++ [resolution]) = (ledger.addAll front).add resolution := by
  simp [addAll]

/-- A ledger that is filled from nothing records what has arrived. -/
theorem records_addAll (arrived : List Resolution) : Records (Ledger.empty.addAll arrived) arrived := by
  induction arrived using List.reverseRecOn with
  | nil => exact records_empty
  | append_singleton front resolution ih =>
    rw [addAll_concat]
    exact ih.add resolution

end Ledger
end StyleOrigin
