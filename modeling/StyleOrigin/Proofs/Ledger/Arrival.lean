import Mathlib.Data.List.Nodup
import StyleOrigin.Proofs.Ledger.Assembly

/-! # The order of arrival

Resolutions arrive in any order, one by one or several at a time. Groups stand in a ledger in the
order of their first arrival, and the report sorts them again; when no two units share an index,
nothing of the order of arrival is left in it.

* `Handover`, `Ledger.receiveAll`: the calls that fill a ledger.
* `Group.view`: what a report can see of a group.
* `sortedViews_eq_of_perm`: the views of the sorted groups do not depend on the order of arrival.
* `report_eq_of_handovers_perm`: neither does the report.
-/
set_option autoImplicit false

namespace StyleOrigin

open Css

/-! ## Handing over -/

/-- A call that hands resolutions to a ledger: one, or several at a time. -/
inductive Handover
  | one (resolution : Resolution)
  | several (resolutions : List Resolution)

def Handover.resolutions : Handover → List Resolution
  | one resolution => [resolution]
  | several resolutions => resolutions

def Ledger.receive (ledger : Ledger) : Handover → Ledger
  | .one resolution => ledger.add resolution
  | .several resolutions => ledger.addAll resolutions

def Ledger.receiveAll (ledger : Ledger) (handovers : List Handover) : Ledger :=
  handovers.foldl receive ledger

theorem Ledger.receiveAll_eq_addAll (ledger : Ledger) (handovers : List Handover) :
    ledger.receiveAll handovers = ledger.addAll (handovers.flatMap Handover.resolutions) := by
  induction handovers generalizing ledger with
  | nil => rfl
  | cons handover rest ih =>
    rw [List.flatMap_cons]
    have hfirst : ledger.receive handover = ledger.addAll handover.resolutions := by
      cases handover <;> rfl
    calc ledger.receiveAll (handover :: rest)
        = (ledger.receive handover).receiveAll rest := rfl
      _ = (ledger.addAll handover.resolutions).addAll (rest.flatMap Handover.resolutions) := by
          rw [hfirst, ih]
      _ = ledger.addAll (handover.resolutions ++ rest.flatMap Handover.resolutions) := by
          simp [Ledger.addAll]

/-! ## Views of groups -/

/-- What a report can see of a group: its key, its first index and its units in source order. -/
structure GroupView where
  key : Text × Text
  firstIndex : Nat
  units : List StyleUnit

def Group.view (group : Group) : GroupView :=
  ⟨group.key, group.firstIndex, group.sortedUnits⟩

def GroupView.placedFragment (view : GroupView) : Except OverlongInteger (Text × Fragment) :=
  (view.key.1, ·) <$> Fragment.make view.key.2 (view.units.map (·.rule))

/-- Distinct indices tell resolutions apart. -/
def DistinctIndices (resolutions : List Resolution) : Prop :=
  (resolutions.map (·.unit.index)).Nodup

instance (resolutions : List Resolution) : Decidable (DistinctIndices resolutions) :=
  inferInstanceAs (Decidable (List.Nodup _))

section Views
variable {arrived arrived' : List Resolution} {ledger ledger' : Ledger}

theorem DistinctIndices.unit_eq (hdistinct : DistinctIndices arrived) {key key' : Text × Text}
    {unit unit' : StyleUnit} (hunit : unit ∈ unitsUnder key arrived)
    (hunit' : unit' ∈ unitsUnder key' arrived) (hindex : unit.index = unit'.index) :
    unit = unit' ∧ key = key' := by
  obtain ⟨resolution, hmem, hkey, rfl⟩ := mem_unitsUnder.mp hunit
  obtain ⟨resolution', hmem', hkey', rfl⟩ := mem_unitsUnder.mp hunit'
  have hsame : resolution = resolution' := List.inj_on_of_nodup_map hdistinct hmem hmem' hindex
  subst hsame
  exact ⟨rfl, Option.some.inj (hkey.symm.trans hkey')⟩

theorem view_eq_of_key_eq (hperm : arrived.Perm arrived') (hdistinct : DistinctIndices arrived)
    (h : ledger.Records arrived) (h' : ledger'.Records arrived') {group group' : Group}
    (hgroup : group ∈ ledger.groups) (hgroup' : group' ∈ ledger'.groups)
    (hkey : group.key = group'.key) : group.view = group'.view := by
  have hunits := h.units_eq group hgroup
  have hsame : group.units.Perm group'.units := by
    rw [hunits, h'.units_eq group' hgroup', hkey]
    exact unitsUnder_perm hperm
  have hsorted : group.sortedUnits = group'.sortedUnits := by
    refine mergeSort_eq_of_perm StyleUnit.index hsame fun unit hunit unit' hunit' hindex => ?_
    rw [hunits] at hunit hunit'
    exact (hdistinct.unit_eq hunit hunit' hindex).1
  simp [Group.view, hkey, Group.firstIndex_eq_of_perm hsame, hsorted]

theorem views_perm (hperm : arrived.Perm arrived') (hdistinct : DistinctIndices arrived)
    (h : ledger.Records arrived) (h' : ledger'.Records arrived') :
    (ledger.groups.map Group.view).Perm (ledger'.groups.map Group.view) := by
  have hnodup : ∀ groups : List Group, (groups.map Group.key).Nodup →
      (groups.map Group.view).Nodup := by
    intro groups hkeys
    refine List.Nodup.of_map GroupView.key ?_
    rwa [List.map_map]
  have hkeys : ∀ key, key ∈ ledger.groups.map Group.key ↔ key ∈ ledger'.groups.map Group.key := by
    intro key
    rw [h.mem_keys, h'.mem_keys]
    exact exists_congr fun resolution => and_congr_left fun _ => hperm.mem_iff
  rw [List.perm_ext_iff_of_nodup (hnodup _ h.distinct) (hnodup _ h'.distinct)]
  intro view
  simp only [List.mem_map]
  constructor
  · rintro ⟨group, hgroup, rfl⟩
    obtain ⟨group', hgroup', hkey⟩ :=
      List.mem_map.mp ((hkeys group.key).mp (List.mem_map.mpr ⟨group, hgroup, rfl⟩))
    exact ⟨group', hgroup',
      (view_eq_of_key_eq hperm hdistinct h h' hgroup hgroup' hkey.symm).symm⟩
  · rintro ⟨group', hgroup', rfl⟩
    obtain ⟨group, hgroup, hkey⟩ :=
      List.mem_map.mp ((hkeys group'.key).mpr (List.mem_map.mpr ⟨group', hgroup', rfl⟩))
    exact ⟨group, hgroup, view_eq_of_key_eq hperm hdistinct h h' hgroup hgroup' hkey⟩

theorem view_eq_of_firstIndex_eq (hdistinct : DistinctIndices arrived) (h : ledger.Records arrived)
    {group group' : Group} (hgroup : group ∈ ledger.groups) (hgroup' : group' ∈ ledger.groups)
    (hindex : group.firstIndex = group'.firstIndex) : group.view = group'.view := by
  obtain ⟨unit, hunit, hfirst⟩ := group.exists_index_eq_firstIndex
  obtain ⟨unit', hunit', hfirst'⟩ := group'.exists_index_eq_firstIndex
  rw [h.units_eq group hgroup] at hunit
  rw [h.units_eq group' hgroup'] at hunit'
  have hkey := (hdistinct.unit_eq hunit hunit' (by omega)).2
  rw [List.inj_on_of_nodup_map h.distinct hgroup hgroup' hkey]

theorem map_view_sortedGroups (ledger : Ledger) :
    ledger.sortedGroups.map Group.view =
      (ledger.groups.map Group.view).mergeSort fun a b => a.firstIndex ≤ b.firstIndex :=
  List.map_mergeSort fun _ _ _ _ => rfl

theorem sortedViews_eq_of_perm (hperm : arrived.Perm arrived') (hdistinct : DistinctIndices arrived)
    (h : ledger.Records arrived) (h' : ledger'.Records arrived') :
    ledger.sortedGroups.map Group.view = ledger'.sortedGroups.map Group.view := by
  rw [map_view_sortedGroups, map_view_sortedGroups]
  refine mergeSort_eq_of_perm GroupView.firstIndex (views_perm hperm hdistinct h h') ?_
  intro view hview view' hview' hindex
  obtain ⟨group, hgroup, rfl⟩ := List.mem_map.mp hview
  obtain ⟨group', hgroup', rfl⟩ := List.mem_map.mp hview'
  exact view_eq_of_firstIndex_eq hdistinct h hgroup hgroup' hindex

theorem sortedUnresolved_eq_of_perm (hperm : arrived.Perm arrived')
    (hdistinct : DistinctIndices arrived) (h : ledger.Records arrived)
    (h' : ledger'.Records arrived') : ledger.sortedUnresolved = ledger'.sortedUnresolved := by
  unfold Ledger.sortedUnresolved
  rw [h.unresolved_eq, h'.unresolved_eq]
  refine mergeSort_eq_of_perm (fun resolution : Resolution => resolution.unit.index)
    (hperm.filter _) fun resolution hmem resolution' hmem' hindex => ?_
  exact List.inj_on_of_nodup_map hdistinct (List.mem_of_mem_filter hmem)
    (List.mem_of_mem_filter hmem') hindex

theorem reportFor_eq_of_perm (hperm : arrived.Perm arrived') (hdistinct : DistinctIndices arrived)
    (h : ledger.Records arrived) (h' : ledger'.Records arrived') (unitCount : Int) :
    ledger.reportFor unitCount = ledger'.reportFor unitCount := by
  have hplaced : ∀ groups : List Group, (groups.mapM fun group => (group.path, ·) <$> group.fragment) =
      (groups.map Group.view).mapM GroupView.placedFragment := by
    intro groups
    rw [List.mapM_map]
    rfl
  unfold Ledger.reportFor
  rw [hplaced, hplaced, sortedViews_eq_of_perm hperm hdistinct h h',
    sortedUnresolved_eq_of_perm hperm hdistinct h h']

end Views

/-! ## The law -/

/-- The report does not depend on the order in which resolutions arrive, nor on the calls that hand
them over. -/
theorem report_eq_of_handovers_perm (handovers handovers' : List Handover)
    (hdistinct : DistinctIndices (handovers.flatMap Handover.resolutions))
    (hperm : (handovers.flatMap Handover.resolutions).Perm
      (handovers'.flatMap Handover.resolutions)) :
    (Ledger.empty.receiveAll handovers).report = (Ledger.empty.receiveAll handovers').report ∧
      ∀ unitCount, (Ledger.empty.receiveAll handovers).reportFor unitCount =
        (Ledger.empty.receiveAll handovers').reportFor unitCount := by
  rw [Ledger.receiveAll_eq_addAll, Ledger.receiveAll_eq_addAll]
  have h := Ledger.records_addAll (handovers.flatMap Handover.resolutions)
  have h' := Ledger.records_addAll (handovers'.flatMap Handover.resolutions)
  have heq := reportFor_eq_of_perm hperm hdistinct h h'
  refine ⟨?_, heq⟩
  unfold Ledger.report
  rw [heq, h.count_eq, h'.count_eq, hperm.length_eq]

/-- The resolution of a unit at a place in source order, with its candidate origins. -/
def sampleResolution (index : Nat) (origins : List Text) : Resolution :=
  ⟨⟨".a", "print", ⟨.start, [], []⟩, index, some origins⟩, .ofCandidates origins, ".a", []⟩

/-- Three units in two files and one in none, handed over at once and backwards one by one. -/
theorem report_eq_of_handovers_perm_backwards :
    let arrivals := [sampleResolution 0 ["b.less"], sampleResolution 1 ["a.less"],
      sampleResolution 2 [], sampleResolution 3 ["b.less"]]
    DistinctIndices arrivals ∧
      (Ledger.empty.receiveAll [.several arrivals]).report =
        (Ledger.empty.receiveAll (arrivals.reverse.map .one)).report := by
  intro arrivals
  have hdistinct : DistinctIndices arrivals := by decide
  have hperm : arrivals.Perm arrivals.reverse := (List.reverse_perm arrivals).symm
  exact ⟨hdistinct, (report_eq_of_handovers_perm [.several arrivals] (arrivals.reverse.map .one)
    hdistinct hperm).1⟩

end StyleOrigin
