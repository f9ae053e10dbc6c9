import StyleOrigin.Proofs.Ledger.Assembly
import StyleOrigin.Proofs.Media.Fragment

/-! # Reports mirror what was added

A ledger takes resolutions in any order, and their indices may repeat. The report that is made of it is
described here by the resolutions alone, without groups.

* `Precedes`: one sequence of units starts no later than another.
* `Report.Mirrors`: what the files, fragments and entries of a report are.
* `Ledger.exists_reportFor_iff`: there is a report if the query of each attributed unit can be read.
* `Ledger.size_addAll`: each resolution that is added counts once.
* `report_mirrors_additions`: the report of a ledger that is filled from nothing.
-/
set_option autoImplicit false

namespace StyleOrigin

open Css

/-! ## What a report says -/

/-- The units of the resolutions with an origin, in order of arrival. -/
def unitsFrom (path : Text) (resolutions : List Resolution) : List StyleUnit :=
  (resolutions.filter fun resolution => resolution.origin == some path).map (·.unit)

/-- The least index of the first units is at most the least index of the others. -/
def Precedes (units others : List StyleUnit) : Prop :=
  ∀ other ∈ others, ∃ unit ∈ units, unit.index ≤ other.index

/-- A fragment of a file holds the rules of the units that were put under the file and its query, and
is written rule by rule. -/
structure Fragment.Mirrors (fragment : Fragment) (path : Text) (arrived : List Resolution) : Prop where
  condition : Css.tokens true fragment.query = .ok fragment.condition
  rules : ∃ units, StablySorted StyleUnit.index (unitsUnder (path, fragment.query) arrived) units ∧
    fragment.rules = units.map (·.rule)
  text : fragment.write = "@media ".toList ++ writeTokens fragment.condition ++ " \x7b".toList ++
    (fragment.rules.flatMap fun rule => "\n  ".toList ++ rule.write) ++ "\n\x7d".toList

/-- A report shows the resolutions that have arrived: each file once, in each file each query once, and
both in the order of their first units. -/
structure Report.Mirrors (report : Report) (arrived : List Resolution) : Prop where
  mem_files : ∀ path, path ∈ report.files.map Prod.fst ↔
    ∃ resolution ∈ arrived, resolution.origin = some path
  files_nodup : (report.files.map Prod.fst).Nodup
  files_sorted : report.files.Pairwise fun file file' =>
    Precedes (unitsFrom file.1 arrived) (unitsFrom file'.1 arrived)
  mem_queries : ∀ file ∈ report.files, ∀ query, query ∈ file.2.map Fragment.query ↔
    ∃ resolution ∈ arrived, resolution.origin = some file.1 ∧ resolution.unit.query = query
  queries_nodup : ∀ file ∈ report.files, (file.2.map Fragment.query).Nodup
  fragments_sorted : ∀ file ∈ report.files, file.2.Pairwise fun fragment fragment' =>
    Precedes (unitsUnder (file.1, fragment.query) arrived)
      (unitsUnder (file.1, fragment'.query) arrived)
  fragments : ∀ file ∈ report.files, ∀ fragment ∈ file.2, fragment.Mirrors file.1 arrived
  unresolved : StablySorted (fun resolution : Resolution => resolution.unit.index)
    (arrived.filter fun resolution => resolution.origin.isNone) report.unresolved

theorem mem_unitsFrom {path : Text} {resolutions : List Resolution} {unit : StyleUnit} :
    unit ∈ unitsFrom path resolutions ↔
      ∃ resolution ∈ resolutions, resolution.origin = some path ∧ resolution.unit = unit := by
  simp [unitsFrom, and_assoc]

/-- The units of a file are those under the file and any query. -/
theorem mem_unitsFrom_iff_exists_query {path : Text} {resolutions : List Resolution}
    {unit : StyleUnit} :
    unit ∈ unitsFrom path resolutions ↔ unit ∈ unitsUnder (path, unit.query) resolutions := by
  simp only [mem_unitsFrom, mem_unitsUnder, Resolution.key?_eq_some_iff]
  constructor
  · rintro ⟨resolution, hmem, horigin, rfl⟩
    exact ⟨resolution, hmem, ⟨horigin, rfl⟩, rfl⟩
  · rintro ⟨resolution, hmem, ⟨horigin, -⟩, hunit⟩
    exact ⟨resolution, hmem, horigin, hunit⟩

/-! ## Sizes -/

namespace Ledger

/-- The number of units in groups and of resolutions without an origin. -/
def size (ledger : Ledger) : Nat :=
  (ledger.groups.map fun group => group.units.length).sum + ledger.unresolved.length

theorem sum_length_addUnit (path : Text) (unit : StyleUnit) (groups : List Group) :
    ((addUnit path unit groups).map fun group => group.units.length).sum =
      (groups.map fun group => group.units.length).sum + 1 := by
  induction groups with
  | nil => rfl
  | cons group rest ih =>
    rw [addUnit]
    split
    · simp only [List.map_cons, List.sum_cons, Group.units, List.length_cons, List.length_append,
        List.length_nil]
      omega
    · rw [List.map_cons, List.sum_cons, ih, List.map_cons, List.sum_cons, Nat.add_assoc]

theorem size_add (ledger : Ledger) (resolution : Resolution) :
    (ledger.add resolution).size = ledger.size + 1 := by
  unfold add size
  cases resolution.origin with
  | none =>
    simp only [List.length_append, List.length_singleton]
    omega
  | some origin =>
    simp only [sum_length_addUnit]
    omega

theorem size_addAll (ledger : Ledger) (arrived : List Resolution) :
    (ledger.addAll arrived).size = ledger.size + arrived.length := by
  induction arrived generalizing ledger with
  | nil => rfl
  | cons resolution rest ih =>
    have hrest := ih (ledger.add resolution)
    rw [size_add] at hrest
    rw [List.length_cons]
    change ((ledger.add resolution).addAll rest).size = _
    omega

/-! ## The order of groups -/

variable {ledger : Ledger} {arrived : List Resolution}

theorem Records.precedes (h : ledger.Records arrived) {group group' : Group}
    (hgroup : group ∈ ledger.groups) (hgroup' : group' ∈ ledger.groups)
    (hle : group.firstIndex ≤ group'.firstIndex) :
    Precedes (unitsUnder group.key arrived) (unitsUnder group'.key arrived) := by
  intro other hother
  rw [← h.units_eq group' hgroup'] at hother
  obtain ⟨unit, hunit, hfirst⟩ := group.exists_index_eq_firstIndex
  have hother := Group.firstIndex_le hother
  exact ⟨unit, h.units_eq group hgroup ▸ hunit, by omega⟩

theorem Records.keys_sorted (h : ledger.Records arrived) :
    (ledger.sortedGroups.map Group.key).Pairwise fun key key' =>
      Precedes (unitsUnder key arrived) (unitsUnder key' arrived) := by
  rw [List.pairwise_map]
  have hsorted : ledger.sortedGroups.Pairwise fun a b => a.firstIndex ≤ b.firstIndex :=
    pairwise_mergeSort_key Group.firstIndex ledger.groups
  refine hsorted.imp_of_mem fun hgroup hgroup' hle => ?_
  exact h.precedes (ledger.sortedGroups_perm.mem_iff.mp hgroup)
    (ledger.sortedGroups_perm.mem_iff.mp hgroup') hle

end Ledger

/-! ## The order of files -/

/-- Files come in the order of their first fragments: if the fragments are in order, then some fragment
of a file stands in front of all those of a later one. -/
theorem Report.paths_filesOf_pairwise {found : List (Text × Fragment)}
    {R : Text × Fragment → Text × Fragment → Prop} (h : found.Pairwise R) :
    ((Report.filesOf found).map Prod.fst).Pairwise fun path path' =>
      ∃ placed ∈ found, placed.1 = path ∧ ∀ other ∈ found, other.1 = path' → R placed other := by
  induction found using List.reverseRecOn with
  | nil => simp [Report.filesOf]
  | append_singleton front next ih =>
    obtain ⟨hfront, -, hnext⟩ := List.pairwise_append.mp h
    have hnext : ∀ placed ∈ front, R placed next := fun placed hplaced =>
      hnext placed hplaced next List.mem_cons_self
    have hold : ((Report.filesOf front).map Prod.fst).Pairwise fun path path' =>
        ∃ placed ∈ front ++ [next], placed.1 = path ∧
          ∀ other ∈ front ++ [next], other.1 = path' → R placed other := by
      refine (ih hfront).imp ?_
      rintro path path' ⟨placed, hplaced, hpath, hothers⟩
      refine ⟨placed, List.mem_append_left _ hplaced, hpath, fun other hother hpath' => ?_⟩
      rcases List.mem_append.mp hother with hother | hother
      · exact hothers other hother hpath'
      · obtain rfl := List.mem_singleton.mp hother
        exact hnext placed hplaced
    rw [Report.filesOf_concat, Report.paths_addFragment]
    split
    · exact hold
    · rename_i hnew
      refine List.pairwise_append.mpr ⟨hold, List.pairwise_singleton _ _, ?_⟩
      intro path hpath path' hpath'
      obtain rfl := List.mem_singleton.mp hpath'
      obtain ⟨placed, hplaced, rfl⟩ := List.mem_map.mp (Report.mem_paths_filesOf.mp hpath)
      refine ⟨placed, List.mem_append_left _ hplaced, rfl, fun other hother hsame => ?_⟩
      rcases List.mem_append.mp hother with hother | hother
      · refine absurd (Report.mem_paths_filesOf.mpr ?_) hnew
        exact List.mem_map.mpr ⟨other, hother, hsame⟩
      · obtain rfl := List.mem_singleton.mp hother
        exact hnext placed hplaced

/-! ## From a ledger to its report -/

namespace Ledger
variable {ledger : Ledger} {arrived : List Resolution} {unitCount : Int} {report : Report}

theorem exists_placedFragment_iff {group : Group} :
    (∃ placed, placedFragment group = .ok placed) ↔
      ∃ condition, tokens true group.query = .ok condition := by
  constructor
  · rintro ⟨placed, hplaced⟩
    obtain ⟨condition, hcondition, -⟩ :=
      Group.fragment_eq_ok_iff.mp (placedFragment_eq_ok_iff.mp hplaced).2
    exact ⟨condition, hcondition⟩
  · rintro ⟨condition, hcondition⟩
    exact ⟨(group.path, ⟨group.query, condition, group.sortedUnits.map (·.rule)⟩),
      placedFragment_eq_ok_iff.mpr
        ⟨rfl, Group.fragment_eq_ok_iff.mpr ⟨condition, hcondition, rfl⟩⟩⟩

/-- There is a report if the query of each unit that has an origin can be read again. -/
theorem exists_reportFor_iff (h : ledger.Records arrived) :
    (∃ report, ledger.reportFor unitCount = .ok report) ↔
      ∀ resolution ∈ arrived, ∀ path, resolution.origin = some path →
        ∃ condition, tokens true resolution.unit.query = .ok condition := by
  have hgroups : (∃ report, ledger.reportFor unitCount = .ok report) ↔
      ∀ group ∈ ledger.groups, ∃ condition, tokens true group.query = .ok condition := by
    simp only [reportFor_eq_ok_iff, ← exists_placedFragment_iff,
      ← ledger.sortedGroups_perm.mem_iff, ← exists_mapM_eq_ok_iff]
    exact ⟨fun ⟨_, found, hfound, _⟩ => ⟨found, hfound⟩,
      fun ⟨found, hfound⟩ => ⟨_, found, hfound, rfl⟩⟩
  rw [hgroups]
  constructor
  · intro hread resolution hresolution path horigin
    have hkey : (path, resolution.unit.query) ∈ ledger.groups.map Group.key :=
      (h.mem_keys _).mpr ⟨resolution, hresolution, Resolution.key?_eq_some_iff.mpr ⟨horigin, rfl⟩⟩
    obtain ⟨group, hgroup, heq⟩ := List.mem_map.mp hkey
    rw [show resolution.unit.query = group.query from (Prod.ext_iff.mp heq).2.symm]
    exact hread group hgroup
  · intro hread group hgroup
    obtain ⟨resolution, hresolution, hkey⟩ :=
      (h.mem_keys group.key).mp (List.mem_map.mpr ⟨group, hgroup, rfl⟩)
    obtain ⟨horigin, hquery⟩ := Resolution.key?_eq_some_iff.mp hkey
    rw [show group.query = resolution.unit.query from hquery.symm]
    exact hread resolution hresolution group.path horigin

theorem mirrors_of_placedFragment (h : ledger.Records arrived) {group : Group}
    (hgroup : group ∈ ledger.groups) {placed : Text × Fragment}
    (hplaced : placedFragment group = .ok placed) : placed.2.Mirrors placed.1 arrived := by
  have hkey := key_placedFragment hplaced
  obtain ⟨condition, hcondition, hmade⟩ :=
    Group.fragment_eq_ok_iff.mp (placedFragment_eq_ok_iff.mp hplaced).2
  have hread : tokens true placed.2.query = .ok placed.2.condition := by
    rw [hmade]
    exact hcondition
  refine ⟨hread, ⟨group.sortedUnits, ?_, by rw [hmade]⟩, Fragment.write_eq (wellRead_of_tokens hread).1⟩
  rw [hkey, ← h.units_eq group hgroup]
  exact stablySorted_mergeSort group.units

/-- Placed fragments stand for the files and queries that have arrived, in the order of their first
units. -/
structure Arranges (found : List (Text × Fragment)) (arrived : List Resolution) : Prop where
  mem_keys : ∀ path query, (path, query) ∈ (found.map fun next => (next.1, next.2.query)) ↔
    ∃ resolution ∈ arrived, resolution.origin = some path ∧ resolution.unit.query = query
  sorted : found.Pairwise fun next next' =>
    Precedes (unitsUnder (next.1, next.2.query) arrived)
      (unitsUnder (next'.1, next'.2.query) arrived)

theorem Records.arranges (h : ledger.Records arrived) {found : List (Text × Fragment)}
    (hfound : ledger.sortedGroups.mapM placedFragment = .ok found) : Arranges found arrived := by
  have hkeys := keys_of_mapM_placedFragment hfound
  constructor
  · intro path query
    rw [hkeys, (ledger.sortedGroups_perm.map Group.key).mem_iff, h.mem_keys]
    simp only [Resolution.key?_eq_some_iff]
  · have hsorted := h.keys_sorted
    rwa [← hkeys, List.pairwise_map] at hsorted

namespace Arranges
variable {found : List (Text × Fragment)}

/-- The first unit of a file is the first unit of its first fragment. -/
theorem files_sorted (h : Arranges found arrived) :
    (Report.filesOf found).Pairwise fun file file' =>
      Precedes (unitsFrom file.1 arrived) (unitsFrom file'.1 arrived) := by
  rw [← List.pairwise_map (f := Prod.fst)
    (R := fun path path' => Precedes (unitsFrom path arrived) (unitsFrom path' arrived))]
  refine (Report.paths_filesOf_pairwise h.sorted).imp ?_
  rintro path path' ⟨placed, hplaced, rfl, hothers⟩ other hother
  obtain ⟨resolution, hresolution, horigin, rfl⟩ := mem_unitsFrom.mp hother
  obtain ⟨next, hnext, hkey⟩ := List.mem_map.mp
    ((h.mem_keys path' resolution.unit.query).mpr ⟨resolution, hresolution, horigin, rfl⟩)
  obtain ⟨hpath, hquery⟩ := Prod.ext_iff.mp hkey
  have hunder : resolution.unit ∈ unitsUnder (next.1, next.2.query) arrived := by
    rw [show next.1 = path' from hpath, show next.2.query = resolution.unit.query from hquery]
    exact mem_unitsFrom_iff_exists_query.mp hother
  obtain ⟨unit, hunit, hle⟩ := hothers next hnext hpath resolution.unit hunder
  obtain ⟨resolution', hresolution', hkey', rfl⟩ := mem_unitsUnder.mp hunit
  exact ⟨_, mem_unitsFrom.mpr
    ⟨resolution', hresolution', (Resolution.key?_eq_some_iff.mp hkey').1, rfl⟩, hle⟩

theorem mem_queries (h : Arranges found arrived) {file : Text × List Fragment}
    (hfile : file ∈ Report.filesOf found) (query : Text) :
    query ∈ file.2.map Fragment.query ↔
      ∃ resolution ∈ arrived, resolution.origin = some file.1 ∧ resolution.unit.query = query := by
  rw [Report.mem_filesOf hfile, ← h.mem_keys file.1 query]
  simp only [List.mem_map, List.mem_filter, Prod.ext_iff, beq_iff_eq]
  constructor
  · rintro ⟨fragment, ⟨next, ⟨hnext, hpath⟩, rfl⟩, hquery⟩
    exact ⟨next, hnext, hpath, hquery⟩
  · rintro ⟨next, hnext, hpath, hquery⟩
    exact ⟨next.2, ⟨next, ⟨hnext, hpath⟩, rfl⟩, hquery⟩

theorem fragments_sorted (h : Arranges found arrived) {file : Text × List Fragment}
    (hfile : file ∈ Report.filesOf found) :
    file.2.Pairwise fun fragment fragment' =>
      Precedes (unitsUnder (file.1, fragment.query) arrived)
        (unitsUnder (file.1, fragment'.query) arrived) := by
  rw [Report.mem_filesOf hfile, List.pairwise_map]
  refine (h.sorted.filter _).imp_of_mem fun hnext hnext' hprecedes => ?_
  have hpath := beq_iff_eq.mp (List.mem_filter.mp hnext).2
  have hpath' := beq_iff_eq.mp (List.mem_filter.mp hnext').2
  rwa [hpath, hpath'] at hprecedes

end Arranges

/-- The report of a ledger mirrors the resolutions that the ledger records. -/
theorem mirrors_of_reportFor_eq_ok (h : ledger.Records arrived)
    (hreport : ledger.reportFor unitCount = .ok report) : report.Mirrors arrived := by
  obtain ⟨found, hfound, rfl⟩ := reportFor_eq_ok_iff.mp hreport
  have harranges := h.arranges hfound
  refine ⟨mem_paths_reportFor h hreport, Report.paths_filesOf_nodup found, harranges.files_sorted,
    fun file => harranges.mem_queries, fun file => queries_nodup h.distinct hreport,
    fun file => harranges.fragments_sorted, fun file hfile fragment hfragment => ?_, ?_⟩
  · rw [Report.mem_filesOf hfile] at hfragment
    obtain ⟨next, hnext, rfl⟩ := List.mem_map.mp hfragment
    obtain ⟨hnext, hpath⟩ := List.mem_filter.mp hnext
    obtain ⟨group, hgroup, hplaced⟩ := exists_of_mem_forall₂_right (mapM_eq_ok_iff.mp hfound) hnext
    rw [← beq_iff_eq.mp hpath]
    exact mirrors_of_placedFragment h (ledger.sortedGroups_perm.mem_iff.mp hgroup) hplaced
  · rw [← h.unresolved_eq]
    exact stablySorted_mergeSort ledger.unresolved

end Ledger

/-! ## The law -/

/-- A ledger that is filled from nothing holds each resolution once, its groups are not empty, and its
report mirrors the resolutions that were added. There is a report if the queries of the attributed units
can be read. -/
theorem report_mirrors_additions (arrived : List Resolution) (unitCount : Int) :
    let ledger := Ledger.empty.addAll arrived
    ((∃ report, ledger.reportFor unitCount = .ok report) ↔
      ∀ resolution ∈ arrived, ∀ path, resolution.origin = some path →
        ∃ condition, tokens true resolution.unit.query = .ok condition) ∧
    (∀ report, ledger.reportFor unitCount = .ok report →
      report.unitCount = unitCount ∧ report.Mirrors arrived) ∧
    (∀ group ∈ ledger.groups, group.units = unitsUnder group.key arrived ∧ group.units ≠ [] ∧
      (∃ unit ∈ group.units, unit.index = group.firstIndex) ∧
      ∀ unit ∈ group.units, group.firstIndex ≤ unit.index) ∧
    ledger.count = arrived.length ∧
    ledger.count = (ledger.groups.map fun group => group.units.length).sum
      + ledger.unresolved.length := by
  intro ledger
  have h : ledger.Records arrived := Ledger.records_addAll arrived
  have hsize : ledger.size = arrived.length := by
    have := Ledger.size_addAll .empty arrived
    rwa [show Ledger.empty.size = 0 from rfl, Nat.zero_add] at this
  refine ⟨Ledger.exists_reportFor_iff h, ?_, ?_, h.count_eq, h.count_eq.trans hsize.symm⟩
  · intro report hreport
    obtain ⟨found, -, hmade⟩ := Ledger.reportFor_eq_ok_iff.mp hreport
    exact ⟨by rw [hmade], Ledger.mirrors_of_reportFor_eq_ok h hreport⟩
  · intro group hgroup
    exact ⟨h.units_eq group hgroup, List.cons_ne_nil _ _, group.exists_index_eq_firstIndex,
      fun unit => Group.firstIndex_le⟩

end StyleOrigin
