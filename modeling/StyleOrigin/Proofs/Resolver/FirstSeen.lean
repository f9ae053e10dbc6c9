import StyleOrigin.Proofs.Resolver.Candidates
import StyleOrigin.Proofs.Run.Stages

/-! # Candidates by their first match

The candidates among matches are the distinct paths that may be origins, in the order of their first
matches. Of the matches nothing but the set of their paths counts for the outcome of a search.

* `Resolver.MayBeOrigin`: what the set-up of a resolver asks of an origin.
* `Resolver.FirstSeen`: the candidates among paths, told by what they are and by their order.
* `Resolver.candidates_eq_ok_iff_eraseDups`: candidates are filtered from the distinct paths.
* `Resolver.candidates_first_seen`: the candidates of matches, of more matches, and of other matches
  with the same paths.
-/
set_option autoImplicit false

namespace StyleOrigin.Resolver

/-! ## What is asked of an origin -/

/-- A path may be an origin: it is there, it has the extension, and its absolute form is that of no
ignored path. -/
structure MayBeOrigin (workingDirectory : Text) (ignore : List Text) (extension : Text)
    (matchRoot : Option Text) (path : Text) : Prop where
  ne_nil : path ≠ []
  extension_eq : Path.extension path = extension.dropWhile (· == '.')
  not_ignored : ∃ form, Path.absolute workingDirectory matchRoot path = .ok form ∧
    ∀ given ∈ ignore, Path.absolute workingDirectory none given ≠ .ok form

/-- The paths of matches hold no U+0000, once they stand behind the directory that they are relative
to. A match without a path is passed over. -/
def NullFree (workingDirectory : Text) (matchRoot : Option Text) (found : List Text) : Prop :=
  ∀ path ∈ found.map matchPath, path ≠ [] →
    '\x00' ∉ Path.join (Path.baseOf workingDirectory matchRoot) path

instance (workingDirectory : Text) (matchRoot : Option Text) (found : List Text) :
    Decidable (NullFree workingDirectory matchRoot found) :=
  inferInstanceAs (Decidable (∀ path ∈ found.map matchPath, path ≠ [] →
    '\x00' ∉ Path.join (Path.baseOf workingDirectory matchRoot) path))

section Made
variable {workingDirectory : Text} {ignore : List Text} {extension : Text} {glob : Option Text}
  {maxInFlight : Concurrency} {matchRoot : Option Text} {resolver : Resolver}

theorem qualifies_make_iff
    (hmake : make workingDirectory ignore extension glob maxInFlight matchRoot = .ok resolver)
    (path : Text) :
    resolver.qualifies path = .ok true ↔
      MayBeOrigin workingDirectory ignore extension matchRoot path := by
  obtain ⟨ignored, hignored, rfl⟩ := make_eq_ok_iff.mp hmake
  rw [qualifies_eq_true_iff]
  simp only [mem_of_mapM_eq_ok hignored, not_exists, not_and]
  exact ⟨fun h => ⟨h.1, h.2.1, h.2.2⟩, fun h => ⟨h.ne_nil, h.extension_eq, h.not_ignored⟩⟩

end Made

/-! ## Candidates -/

/-- The candidates among paths: each that is admitted, once, by its first place. -/
structure FirstSeen (admits : Text → Prop) (paths candidates : List Text) : Prop where
  nodup : candidates.Nodup
  mem_iff : ∀ path, path ∈ candidates ↔ path ∈ paths ∧ admits path
  ordered : candidates.Pairwise fun path other => paths.idxOf path < paths.idxOf other

section Candidates
variable {resolver : Resolver} {found candidates : List Text}

/-- Repetitions may be dropped before the paths that do not qualify. -/
theorem candidates_eq_ok_iff_eraseDups :
    resolver.candidates found = .ok candidates ↔
      (∀ path ∈ found.map matchPath, ∃ test, resolver.qualifies path = .ok test) ∧
        candidates = (found.map matchPath).eraseDups.filter fun path =>
          resolver.qualifies path = .ok true := by
  rw [candidates_eq_ok_iff, ← eraseDups_filter]
  constructor
  · rintro ⟨kept, hkept, rfl⟩
    obtain ⟨htests, rfl⟩ := qualifying_eq_ok_iff.mp hkept
    exact ⟨htests, rfl⟩
  · rintro ⟨htests, rfl⟩
    exact ⟨_, qualifying_eq_ok_iff.mpr ⟨htests, rfl⟩, rfl⟩

theorem firstSeen_of_candidates (h : resolver.candidates found = .ok candidates) :
    FirstSeen (fun path => resolver.qualifies path = .ok true) (found.map matchPath) candidates := by
  obtain ⟨-, hfilter⟩ := candidates_eq_ok_iff_eraseDups.mp h
  have hordered : candidates.Pairwise fun path other =>
      (found.map matchPath).idxOf path < (found.map matchPath).idxOf other := by
    rw [hfilter]
    exact (pairwise_idxOf_eraseDups _).filter _
  refine ⟨hordered.imp ?_, mem_candidates h, hordered⟩
  rintro path other hlt rfl
  exact absurd hlt (Nat.lt_irrefl _)

theorem candidates_append {more others : List Text} (h : resolver.candidates found = .ok candidates)
    (hmore : resolver.candidates more = .ok others) :
    resolver.candidates (found ++ more) =
      .ok (candidates ++ others.filter fun path => !candidates.contains path) := by
  obtain ⟨htests, hfound⟩ := candidates_eq_ok_iff_eraseDups.mp h
  obtain ⟨hothers, hmore⟩ := candidates_eq_ok_iff_eraseDups.mp hmore
  rw [candidates_eq_ok_iff_eraseDups, List.map_append]
  refine ⟨fun path hpath => (List.mem_append.mp hpath).elim (htests path) (hothers path), ?_⟩
  rw [eraseDups_append_eq, List.filter_append, ← hfound, hmore, List.filter_filter, List.filter_filter]
  refine congrArg _ (List.filter_congr fun path _ => ?_)
  -- A path that qualifies is a candidate already if it was seen before at all.
  cases hpath : decide (resolver.qualifies path = .ok true) with
  | false => simp
  | true => simp [hfound, hpath, List.mem_eraseDups]

end Candidates

/-! ## The same paths -/

theorem FirstSeen.perm {admits : Text → Prop} {paths paths' candidates candidates' : List Text}
    (h : FirstSeen admits paths candidates) (h' : FirstSeen admits paths' candidates')
    (hpaths : ∀ path, path ∈ paths' ↔ path ∈ paths) : candidates'.Perm candidates := by
  rw [List.perm_ext_iff_of_nodup h'.nodup h.nodup]
  intro path
  rw [h'.mem_iff, h.mem_iff, hpaths]

/-- The status goes by the number of candidates, and one candidate leaves no order to choose. -/
theorem ofCandidates_perm {candidates candidates' : List Text} (h : candidates'.Perm candidates) :
    Status.ofCandidates candidates' = Status.ofCandidates candidates ∧
      (Status.ofCandidates candidates = .resolved → candidates' = candidates) := by
  match candidates, candidates', h with
  | [], _, h => simp [List.perm_nil.mp h]
  | [path], _, h => simp [List.perm_singleton.mp h]
  | _ :: _ :: _, candidates', h =>
    match candidates', h.length_eq with
    | _ :: _ :: _, _ => simp [Status.ofCandidates]

theorem origin_perm {candidates candidates' : List Text} (h : candidates'.Perm candidates)
    (unit : StyleUnit) (token error : Text) :
    Resolution.origin ⟨{ unit with origins := some candidates' }, .ofCandidates candidates', token,
      error⟩ =
      Resolution.origin ⟨{ unit with origins := some candidates }, .ofCandidates candidates, token,
        error⟩ := by
  obtain ⟨hstatus, hsame⟩ := ofCandidates_perm h
  by_cases hresolved : Status.ofCandidates candidates = .resolved
  · rw [hsame hresolved]
  · simp [Resolution.origin, hstatus, hresolved]

theorem resolve_eq_of_candidates {resolver : Resolver} {provider : Provider} {unit : StyleUnit}
    (hunit : unit.origins = none) {found candidates : List Text}
    (hanswer : provider.answer ⟨unit.token, resolver.glob⟩ = .ok found)
    (hfound : resolver.candidates found = .ok candidates) :
    (resolver.resolve provider unit).outcome =
      .ok ⟨{ unit with origins := some candidates }, .ofCandidates candidates, unit.token, []⟩ :=
  (resolve_eq_ok_iff hunit).mpr (.inr ⟨found, candidates, hanswer, hfound, rfl⟩)

/-! ## The law -/

/-- A resolver of any set-up finds as candidates the distinct paths that may be origins, by their first
matches. Candidates of further matches stand behind them if they are new. Matches with the same paths,
however often and in whatever order, have the same candidates up to order; so the search for a unit
comes to the same status, and to the same origin if there is one. -/
theorem candidates_first_seen (workingDirectory : Text) (ignore : List Text) (extension : Text)
    (glob : Option Text) (maxInFlight : Concurrency) (matchRoot : Option Text) (resolver : Resolver)
    (hmake : make workingDirectory ignore extension glob maxInFlight matchRoot = .ok resolver)
    (found : List Text) (hfound : NullFree workingDirectory matchRoot found) :
    ∃ candidates, resolver.candidates found = .ok candidates ∧
      FirstSeen (MayBeOrigin workingDirectory ignore extension matchRoot) (found.map matchPath)
        candidates ∧
      (∀ more, NullFree workingDirectory matchRoot more → ∃ others,
        resolver.candidates more = .ok others ∧ resolver.candidates (found ++ more) =
          .ok (candidates ++ others.filter fun path => !candidates.contains path)) ∧
      ∀ other, (∀ path, path ∈ other.map matchPath ↔ path ∈ found.map matchPath) →
        ∃ candidates', resolver.candidates other = .ok candidates' ∧
          candidates'.Perm candidates ∧
          Status.ofCandidates candidates' = Status.ofCandidates candidates ∧
          (Status.ofCandidates candidates = .resolved → candidates' = candidates) ∧
          ∀ (unit : StyleUnit) (provider provider' : Provider), unit.origins = none →
            provider.answer ⟨unit.token, glob⟩ = .ok found →
            provider'.answer ⟨unit.token, glob⟩ = .ok other →
            ∃ resolution resolution', (resolver.resolve provider unit).outcome = .ok resolution ∧
              (resolver.resolve provider' unit).outcome = .ok resolution' ∧
              resolution.status = resolution'.status ∧ resolution.origin = resolution'.origin := by
  obtain ⟨ignored, -, rfl⟩ := make_eq_ok_iff.mp hmake
  have hexists : ∀ found, NullFree workingDirectory matchRoot found → ∃ candidates,
      Resolver.candidates ⟨workingDirectory, ignored, extension.dropWhile (· == '.'), glob, matchRoot,
        maxInFlight⟩ found = .ok candidates :=
    fun _ hnull => exists_candidates_eq_ok_iff.mpr hnull
  obtain ⟨candidates, hcandidates⟩ := hexists found hfound
  have hseen := firstSeen_of_candidates hcandidates
  refine ⟨candidates, hcandidates, ?_, ?_, ?_⟩
  · simpa only [qualifies_make_iff hmake] using hseen
  · intro more hmore
    obtain ⟨others, hothers⟩ := hexists more hmore
    exact ⟨others, hothers, candidates_append hcandidates hothers⟩
  · intro other hpaths
    obtain ⟨candidates', hcandidates'⟩ := hexists other fun path hpath =>
      hfound path ((hpaths path).mp hpath)
    have hperm := hseen.perm (firstSeen_of_candidates hcandidates') hpaths
    obtain ⟨hstatus, hsame⟩ := ofCandidates_perm hperm
    refine ⟨candidates', hcandidates', hperm, hstatus, hsame, ?_⟩
    intro unit provider provider' hunit hanswer hanswer'
    refine ⟨_, _, resolve_eq_of_candidates hunit hanswer hcandidates,
      resolve_eq_of_candidates hunit hanswer' hcandidates', hstatus.symm,
      (origin_perm hperm unit unit.token []).symm⟩

/-- Matches of two files that may be origins, one of them twice, among others. -/
def mixedMatches : List Text :=
  ["b.less:1:.a", "main.less:3:.a", ":.a", "a.less", "c.css:1:.a", "b.less:9:.a"]

/-- The candidates of a mixed answer, and of the same answer backwards. -/
theorem candidates_first_seen_mixed :
    ∃ resolver, make "/work" ["./main.less"] ".less" none .usual none = .ok resolver ∧
      NullFree "/work" none mixedMatches ∧
      resolver.candidates mixedMatches = .ok ["b.less", "a.less"] ∧
      (∀ path, path ∈ mixedMatches.reverse.map matchPath ↔ path ∈ mixedMatches.map matchPath) ∧
      ∃ candidates, resolver.candidates mixedMatches.reverse = .ok candidates ∧
        candidates.Perm ["b.less", "a.less"] ∧ Status.ofCandidates candidates = .ambiguous := by
  have hnull : NullFree "/work" none mixedMatches := by decide +kernel
  obtain ⟨resolver, hmake, hfound⟩ : ∃ resolver,
      make "/work" ["./main.less"] ".less" none .usual none = .ok resolver ∧
        resolver.candidates mixedMatches = .ok ["b.less", "a.less"] := ⟨_, rfl, by decide +kernel⟩
  have hpaths : ∀ path, path ∈ mixedMatches.reverse.map matchPath ↔ path ∈ mixedMatches.map matchPath :=
    fun path => by rw [List.map_reverse, List.mem_reverse]
  obtain ⟨candidates, hcandidates, -, -, hothers⟩ := candidates_first_seen "/work" ["./main.less"]
    ".less" none .usual none resolver hmake mixedMatches hnull
  obtain rfl : candidates = ["b.less", "a.less"] := Except.ok.inj (hcandidates.symm.trans hfound)
  obtain ⟨others, hreverse, hperm, hstatus, -⟩ := hothers mixedMatches.reverse hpaths
  exact ⟨resolver, hmake, hnull, hfound, hpaths, others, hreverse, hperm, hstatus⟩

end StyleOrigin.Resolver
