import Mathlib.Data.List.Nodup
import StyleOrigin.Proofs.Ledger.Grouping
import StyleOrigin.Report

/-! # From a ledger to its report

* `Group.firstIndex_le`, `Group.exists_index_eq_firstIndex`: the first index of a group is the least
  one among its units.
* `Report.mem_filesOf`, `Report.paths_filesOf_nodup`: each file comes once, with all its fragments.
* `Ledger.reportFor_eq_ok_iff`: what a report is made of.
* `Ledger.mem_paths_reportFor`, `Ledger.queries_nodup`: its files are the origins that were recorded,
  and no file has two fragments of one query.
-/
set_option autoImplicit false

namespace StyleOrigin

open Css

/-! ## The first index of a group -/

theorem foldl_min_index_le (least : Nat) (units : List StyleUnit) :
    units.foldl (fun least unit => min least unit.index) least ≤ least ∧
      ∀ unit ∈ units, units.foldl (fun least unit => min least unit.index) least ≤ unit.index := by
  induction units generalizing least with
  | nil => simp
  | cons first rest ih =>
    obtain ⟨hleast, hrest⟩ := ih (min least first.index)
    rw [List.foldl_cons]
    refine ⟨by omega, fun unit hunit => ?_⟩
    rcases List.mem_cons.mp hunit with rfl | hmem
    · omega
    · exact hrest unit hmem

theorem exists_index_eq_foldl_min (least : Nat) (units : List StyleUnit) :
    units.foldl (fun least unit => min least unit.index) least = least ∨
      ∃ unit ∈ units, unit.index = units.foldl (fun least unit => min least unit.index) least := by
  induction units generalizing least with
  | nil => simp
  | cons first rest ih =>
    rw [List.foldl_cons]
    rcases ih (min least first.index) with hmin | ⟨unit, hmem, hunit⟩
    · rcases Nat.le_total least first.index with hle | hle
      · left
        rw [hmin, Nat.min_eq_left hle]
      · right
        exact ⟨first, by simp, by rw [hmin, Nat.min_eq_right hle]⟩
    · exact .inr ⟨unit, by simp [hmem], hunit⟩

namespace Group

theorem firstIndex_le {group : Group} {unit : StyleUnit} (h : unit ∈ group.units) :
    group.firstIndex ≤ unit.index := by
  obtain ⟨hfirst, hothers⟩ := foldl_min_index_le group.first.index group.others
  rcases List.mem_cons.mp h with rfl | hmem
  · exact hfirst
  · exact hothers unit hmem

theorem exists_index_eq_firstIndex (group : Group) :
    ∃ unit ∈ group.units, unit.index = group.firstIndex := by
  rcases exists_index_eq_foldl_min group.first.index group.others with hfirst | ⟨unit, hmem, hunit⟩
  · exact ⟨group.first, by simp [units], hfirst.symm⟩
  · exact ⟨unit, by simp [units, hmem], hunit⟩

theorem firstIndex_eq_of_perm {group other : Group} (h : group.units.Perm other.units) :
    group.firstIndex = other.firstIndex := by
  obtain ⟨unit, hmem, hunit⟩ := group.exists_index_eq_firstIndex
  obtain ⟨unit', hmem', hunit'⟩ := other.exists_index_eq_firstIndex
  have hle := firstIndex_le (h.mem_iff.mp hmem)
  have hge := firstIndex_le (h.mem_iff.mpr hmem')
  omega

theorem sortedUnits_perm (group : Group) : group.sortedUnits.Perm group.units :=
  List.mergeSort_perm _ _

theorem fragment_eq_ok_iff {group : Group} {made : Fragment} :
    group.fragment = .ok made ↔
      ∃ condition, tokens true group.query = .ok condition ∧
        made = ⟨group.query, condition, group.sortedUnits.map (·.rule)⟩ := by
  unfold fragment Fragment.make
  cases tokens true group.query with
  | error fault => simp [Except.map]
  | ok condition => simp [Except.map, eq_comm]

end Group

/-! ## Files -/

namespace Report

/-- The files of fragments that come one after the other, each with its path. -/
def filesOf (found : List (Text × Fragment)) : List (Text × List Fragment) :=
  found.foldl (fun files next => addFragment next.1 next.2 files) []

theorem filesOf_concat (front : List (Text × Fragment)) (next : Text × Fragment) :
    filesOf (front ++ [next]) = addFragment next.1 next.2 (filesOf front) := by
  simp [filesOf]

theorem paths_addFragment (path : Text) (fragment : Fragment) (files : List (Text × List Fragment)) :
    (addFragment path fragment files).map Prod.fst =
      if path ∈ files.map Prod.fst then files.map Prod.fst else files.map Prod.fst ++ [path] := by
  induction files with
  | nil => rfl
  | cons file rest ih =>
    by_cases hpath : file.1 = path
    · simp [addFragment, hpath]
    · have hne : path ≠ file.1 := fun h => hpath h.symm
      simp only [addFragment, hpath, if_false, List.map_cons, ih, List.mem_cons, hne, false_or]
      split <;> simp

theorem mem_addFragment {path : Text} {fragment : Fragment} {files : List (Text × List Fragment)}
    {file : Text × List Fragment} (hdistinct : (files.map Prod.fst).Nodup)
    (h : file ∈ addFragment path fragment files) :
    (file.1 ≠ path ∧ file ∈ files) ∨
      (file.1 = path ∧ ((∃ old, (path, old) ∈ files ∧ file.2 = old ++ [fragment]) ∨
        (path ∉ files.map Prod.fst ∧ file.2 = [fragment]))) := by
  induction files with
  | nil =>
    have hfile : file = (path, [fragment]) := by simpa [addFragment] using h
    subst hfile
    exact .inr ⟨rfl, .inr ⟨by simp, rfl⟩⟩
  | cons first rest ih =>
    rw [List.map_cons, List.nodup_cons] at hdistinct
    by_cases hpath : first.1 = path
    · simp only [addFragment, hpath, if_true, List.mem_cons] at h
      rcases h with rfl | hmem
      · exact .inr ⟨rfl, .inl ⟨first.2, by simp [← hpath], rfl⟩⟩
      · refine .inl ⟨fun heq => hdistinct.1 ?_, List.mem_cons_of_mem first hmem⟩
        exact List.mem_map.mpr ⟨file, hmem, heq.trans hpath.symm⟩
    · simp only [addFragment, hpath, if_false, List.mem_cons] at h
      rcases h with rfl | hmem
      · exact .inl ⟨hpath, by simp⟩
      · rcases ih hdistinct.2 hmem with ⟨hne, hold⟩ | ⟨heq, ⟨old, hold, hfile⟩ | hnew⟩
        · exact .inl ⟨hne, List.mem_cons_of_mem first hold⟩
        · exact .inr ⟨heq, .inl ⟨old, List.mem_cons_of_mem first hold, hfile⟩⟩
        · refine .inr ⟨heq, .inr ⟨?_, hnew.2⟩⟩
          rw [List.map_cons, List.mem_cons, not_or]
          exact ⟨fun hfirst => hpath hfirst.symm, hnew.1⟩

theorem mem_paths_filesOf {found : List (Text × Fragment)} {path : Text} :
    path ∈ (filesOf found).map Prod.fst ↔ path ∈ found.map Prod.fst := by
  induction found using List.reverseRecOn with
  | nil => simp [filesOf]
  | append_singleton front next ih =>
    rw [filesOf_concat, paths_addFragment, List.map_append, List.mem_append, ← ih]
    split
    · rename_i hold
      refine ⟨.inl, fun h => h.elim id fun hnext => ?_⟩
      have hpath : path = next.1 := by simpa using hnext
      exact hpath ▸ hold
    · rw [List.mem_append]
      rfl

theorem paths_filesOf_nodup (found : List (Text × Fragment)) :
    ((filesOf found).map Prod.fst).Nodup := by
  induction found using List.reverseRecOn with
  | nil => simp [filesOf]
  | append_singleton front next ih =>
    rw [filesOf_concat, paths_addFragment]
    split
    · exact ih
    · rename_i hnew
      refine List.nodup_append.mpr ⟨ih, by simp, fun path hpath other hother heq => ?_⟩
      rw [List.mem_singleton.mp hother] at heq
      exact hnew (heq ▸ hpath)

/-- A file has all its fragments, in the order that they came in. -/
theorem mem_filesOf {found : List (Text × Fragment)} {path : Text} {fragments : List Fragment}
    (h : (path, fragments) ∈ filesOf found) :
    fragments = (found.filter fun next => next.1 == path).map Prod.snd := by
  induction found using List.reverseRecOn generalizing path fragments with
  | nil => simp [filesOf] at h
  | append_singleton front next ih =>
    rw [filesOf_concat] at h
    rw [List.filter_append, List.map_append]
    rcases mem_addFragment (paths_filesOf_nodup front) h with ⟨hne, hold⟩ | ⟨heq, hold | hnew⟩
    · rw [ih hold]
      have hother : (next.1 == path) = false := by simpa using fun h => hne h.symm
      simp [hother]
    · obtain ⟨old, hmem, hfile⟩ := hold
      have hpath : path = next.1 := heq
      subst hpath
      rw [show fragments = old ++ [next.2] from hfile, ih hmem]
      simp
    · have hpath : path = next.1 := heq
      subst hpath
      have hnone : (front.filter fun other => other.1 == next.1) = [] := by
        rw [List.filter_eq_nil_iff]
        intro other hmem hsame
        refine hnew.1 (mem_paths_filesOf.mpr (List.mem_map.mpr ⟨other, hmem, ?_⟩))
        simpa using hsame
      rw [show fragments = [next.2] from hnew.2, hnone]
      simp

end Report

/-! ## Reports -/

namespace Ledger

/-- The fragment of a group, under the path of the group. -/
def placedFragment (group : Group) : Except OverlongInteger (Text × Fragment) :=
  (group.path, ·) <$> group.fragment

theorem placedFragment_eq_ok_iff {group : Group} {placed : Text × Fragment} :
    placedFragment group = .ok placed ↔
      placed.1 = group.path ∧ group.fragment = .ok placed.2 := by
  unfold placedFragment
  cases group.fragment with
  | error fault => simp [Functor.map, Except.map]
  | ok fragment => simp [Functor.map, Except.map, Prod.ext_iff, eq_comm]

theorem key_placedFragment {group : Group} {placed : Text × Fragment}
    (h : placedFragment group = .ok placed) : (placed.1, placed.2.query) = group.key := by
  obtain ⟨hpath, hfragment⟩ := placedFragment_eq_ok_iff.mp h
  obtain ⟨condition, -, hmade⟩ := Group.fragment_eq_ok_iff.mp hfragment
  rw [hpath, hmade]
  rfl

theorem reportFor_eq_ok_iff {ledger : Ledger} {unitCount : Int} {report : Report} :
    ledger.reportFor unitCount = .ok report ↔
      ∃ found, ledger.sortedGroups.mapM placedFragment = .ok found ∧
        report = ⟨unitCount, Report.filesOf found, ledger.sortedUnresolved⟩ := by
  unfold reportFor
  change (ledger.sortedGroups.mapM placedFragment >>= fun found =>
    (pure ⟨unitCount, Report.filesOf found, ledger.sortedUnresolved⟩ :
      Except OverlongInteger Report)) = _ ↔ _
  cases ledger.sortedGroups.mapM placedFragment with
  | error fault => simp [bind, Except.bind]
  | ok found => simp [bind, Except.bind, pure, Except.pure, eq_comm]

theorem sortedGroups_perm (ledger : Ledger) : ledger.sortedGroups.Perm ledger.groups :=
  List.mergeSort_perm _ _

theorem sortedUnresolved_perm (ledger : Ledger) :
    ledger.sortedUnresolved.Perm ledger.unresolved :=
  List.mergeSort_perm _ _

theorem keys_of_mapM_placedFragment {groups : List Group} {found : List (Text × Fragment)}
    (h : groups.mapM placedFragment = .ok found) :
    (found.map fun next => (next.1, next.2.query)) = groups.map Group.key := by
  have hall := mapM_eq_ok_iff.mp h
  clear h
  induction hall with
  | nil => rfl
  | cons hplaced _ ih => rw [List.map_cons, List.map_cons, ih, key_placedFragment hplaced]

/-- No file of a report has two fragments of one query. -/
theorem queries_nodup {ledger : Ledger} {unitCount : Int} {report : Report}
    (hdistinct : (ledger.groups.map Group.key).Nodup)
    (h : ledger.reportFor unitCount = .ok report) {file : Text × List Fragment}
    (hfile : file ∈ report.files) : (file.2.map Fragment.query).Nodup := by
  obtain ⟨found, hfound, rfl⟩ := reportFor_eq_ok_iff.mp h
  have hkeys : (found.map fun next => (next.1, next.2.query)).Nodup := by
    rw [keys_of_mapM_placedFragment hfound]
    exact (ledger.sortedGroups_perm.map Group.key).nodup_iff.mpr hdistinct
  have hfile : (file.1, file.2) ∈ Report.filesOf found := hfile
  rw [Report.mem_filesOf hfile, List.map_map]
  refine List.Nodup.of_map (fun query => (file.1, query)) ?_
  rw [List.map_map]
  have hsame : ((found.filter fun next => next.1 == file.1).map
      ((fun query => (file.1, query)) ∘ Fragment.query ∘ Prod.snd)) =
      (found.filter fun next => next.1 == file.1).map fun next => (next.1, next.2.query) := by
    refine List.map_congr_left fun next hnext => ?_
    have hpath : next.1 = file.1 := by simpa using (List.mem_filter.mp hnext).2
    simp [hpath]
  rw [hsame]
  exact hkeys.sublist (List.filter_sublist.map _)

/-- The files of a report are the origins of the resolutions that its ledger records. -/
theorem mem_paths_reportFor {ledger : Ledger} {arrived : List Resolution} {unitCount : Int}
    {report : Report} (hrecords : ledger.Records arrived)
    (h : ledger.reportFor unitCount = .ok report) (path : Text) :
    path ∈ report.files.map Prod.fst ↔ ∃ resolution ∈ arrived, resolution.origin = some path := by
  obtain ⟨found, hfound, rfl⟩ := reportFor_eq_ok_iff.mp h
  have hpaths : found.map Prod.fst = (ledger.sortedGroups.map Group.key).map Prod.fst := by
    rw [← keys_of_mapM_placedFragment hfound, List.map_map]
    rfl
  have hkeys : path ∈ (ledger.sortedGroups.map Group.key).map Prod.fst ↔
      ∃ query, (path, query) ∈ ledger.groups.map Group.key := by
    rw [List.mem_map, Prod.exists]
    simp only [(ledger.sortedGroups_perm.map Group.key).mem_iff]
    constructor
    · rintro ⟨origin, query, hmem, rfl⟩
      exact ⟨query, hmem⟩
    · rintro ⟨query, hmem⟩
      exact ⟨path, query, hmem, rfl⟩
  rw [Report.mem_paths_filesOf, hpaths, hkeys]
  simp only [hrecords.mem_keys, Resolution.key?_eq_some_iff]
  constructor
  · rintro ⟨query, resolution, hmem, horigin, -⟩
    exact ⟨resolution, hmem, horigin⟩
  · rintro ⟨resolution, hmem, horigin⟩
    exact ⟨resolution.unit.query, resolution, hmem, horigin, rfl⟩

end Ledger
end StyleOrigin
