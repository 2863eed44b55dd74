import LogicalWorks.Session.Language
import LogicalWorks.Lib.Linked
import Mathlib.Tactic.Linarith

/-! The order of a question's options: a list rearranged comes to the same verdict, about the same
options. -/
namespace LogicalWorks.Session

def placeOf {size : Nat} (σ : Equiv.Perm (Fin size)) (index : Nat) : Nat :=
  if h : index < size then σ ⟨index, h⟩ else index

def Question.rearranged (question : Question) (σ : Equiv.Perm (Fin question.options.length)) :
    Question :=
  { question with options := List.ofFn fun place => question.options.get (σ.symm place) }

def Resolution.along (place : Nat → Nat) : Resolution → Resolution
  | .resolved index tier score lead => .resolved (place index) tier score lead
  | .ambiguous tied tier score => .ambiguous ((tied.map place).insertionSort (· ≤ ·)) tier score
  | .absent bestScore => .absent bestScore
  | .staleAlias question option => .staleAlias question option
  | .degraded reason => .degraded reason

section Candidates

def moved (place : Nat → Nat) (candidate : Scored) : Scored := (place candidate.1, candidate.2)

variable {place : Nat → Nat} {field others : List Scored} {threshold margin : Rat}

abbrev ranked (field : List Scored) : List Scored := field.insertionSort ByScoreDescending

instance byScore_total : Std.Total ByScoreDescending :=
  ⟨fun left right => le_total right.2.2 left.2.2⟩

instance byScore_trans : IsTrans Scored ByScoreDescending :=
  ⟨fun _ _ _ hleft hright => le_trans hright hleft⟩

theorem ranked_descending (field : List Scored) :
    Ranked.Descending (fun candidate : Scored => candidate.2.2) (ranked field) :=
  List.pairwise_insertionSort ByScoreDescending field

theorem ranked_perm (field : List Scored) : (ranked field).Perm field :=
  List.perm_insertionSort ByScoreDescending field

theorem ranked_moved (hperm : others.Perm (field.map (moved place))) :
    (ranked others).Perm ((ranked field).map (moved place)) :=
  ((ranked_perm others).trans hperm).trans ((ranked_perm field).symm.map _)

theorem scores_moved (hperm : others.Perm (field.map (moved place))) :
    (ranked others).map (fun candidate => candidate.2.2) =
      (ranked field).map fun candidate => candidate.2.2 := by
  have hdescending : Ranked.Descending (fun candidate : Scored => candidate.2.2)
      ((ranked field).map (moved place)) := List.pairwise_map.mpr (ranked_descending field)
  have hsame := (ranked_descending others).map_eq hdescending (ranked_moved hperm)
  rw [hsame, List.map_map]
  rfl

theorem tied_eq_filter (field : List Scored) (score : Rat) :
    (ranked field).takeWhile (fun candidate => score - candidate.2.2 < margin) =
      (ranked field).filter fun candidate => score - candidate.2.2 < margin := by
  refine Ranked.takeWhile_eq_filter ?_
  refine (ranked_descending field).imp ?_
  intro before after hle hafter
  have hless := of_decide_eq_true hafter
  exact decide_eq_true (by linarith)

def leadOver (score : Rat) : List Rat → Rat
  | [] => score
  | next :: _ => score - next

theorem decide_cons (best : Scored) (rest : List Scored) (threshold margin : Rat) :
    decide_ (best :: rest) threshold margin =
      if best.2.2 < threshold then .absent best.2.2
      else if margin ≤ leadOver best.2.2 (rest.map fun candidate => candidate.2.2) then
        .resolved best.1 best.2.1 best.2.2
          (leadOver best.2.2 (rest.map fun candidate => candidate.2.2))
      else
        .ambiguous ((((best :: rest).takeWhile fun candidate =>
          best.2.2 - candidate.2.2 < margin).map Prod.fst).insertionSort (· ≤ ·))
          best.2.1 best.2.2 := by
  cases rest <;> rfl

theorem lt_of_leadOver {score : Rat} {rest : List Scored} (hmargin : 0 < margin)
    (hlead : margin ≤ leadOver score (rest.map fun candidate => candidate.2.2))
    (hdesc : Ranked.Descending (fun candidate : Scored => candidate.2.2) rest) :
    ∀ rival ∈ rest, rival.2.2 < score := by
  intro rival hmem
  cases rest with
  | nil => cases hmem
  | cons next rest =>
    have hnext : margin ≤ score - next.2.2 := hlead
    rcases List.mem_cons.mp hmem with rfl | hlater
    · linarith
    · have hle := (List.pairwise_cons.mp hdesc).1 rival hlater
      linarith

theorem tied_moved {sorted sorted' : List Scored} {score : Rat}
    (hperm : sorted'.Perm (sorted.map (moved place))) :
    ((sorted'.filter fun candidate => score - candidate.2.2 < margin).map Prod.fst).Perm
      (((sorted.filter fun candidate => score - candidate.2.2 < margin).map Prod.fst).map place) := by
  have hfilter := (hperm.filter fun candidate : Scored => score - candidate.2.2 < margin).map
    Prod.fst
  rw [List.filter_map, List.map_map] at hfilter
  rw [List.map_map]
  exact hfilter

theorem decide_moved (hperm : others.Perm (field.map (moved place)))
    (htier : ∀ candidate ∈ field, ∀ rival ∈ field, candidate.2.1 = rival.2.1)
    (hmargin : 0 < margin) :
    decide_ (ranked others) threshold margin =
      (decide_ (ranked field) threshold margin).along place := by
  have hrank := ranked_moved hperm
  have hscores := scores_moved hperm
  have htied := fun score => @tied_eq_filter margin others score
  have htied' := fun score => @tied_eq_filter margin field score
  have hfield := ranked_perm field
  have hdesc := ranked_descending field
  revert hrank hscores htied htied' hfield hdesc
  generalize ranked others = sorted'
  generalize ranked field = sorted
  intro hrank hscores htied htied' hfield hdesc
  cases sorted with
  | nil =>
    rw [List.map_nil, List.map_eq_nil_iff] at hscores
    rw [hscores]
    rfl
  | cons best rest =>
    cases sorted' with
    | nil => cases hscores
    | cons best' rest' =>
      obtain ⟨hbest, hrest⟩ : best'.2.2 = best.2.2 ∧ _ := List.cons.inj hscores
      obtain ⟨origin, horigin, hmoved⟩ :=
        List.mem_map.mp (hrank.subset (List.mem_cons_self : best' ∈ best' :: rest'))
      have hsame : best'.2.1 = best.2.1 := by
        rw [← hmoved]
        exact htier origin (hfield.subset horigin) best (hfield.subset List.mem_cons_self)
      rw [decide_cons, decide_cons, hbest, hrest, hsame]
      split
      · rfl
      · split
        · -- the best candidate is the only one with its score
          rename_i hlead
          have hahead := lt_of_leadOver hmargin hlead (List.pairwise_cons.mp hdesc).2
          have hscore : origin.2.2 = best.2.2 := by
            rw [← hbest, ← hmoved]
            rfl
          have hindex : best'.1 = place best.1 := by
            rcases List.mem_cons.mp horigin with rfl | hlater
            · rw [← hmoved]
              rfl
            · exact absurd hscore (hahead origin hlater).ne
          rw [hindex]
          rfl
        · rw [htied, htied']
          unfold Resolution.along
          congr 1
          refine List.Perm.eq_of_pairwise (fun _ _ _ _ => le_antisymm)
            (List.pairwise_insertionSort _ _) (List.pairwise_insertionSort _ _) ?_
          refine (List.perm_insertionSort _ _).trans ((tied_moved hrank).trans ?_)
          exact ((List.perm_insertionSort _ _).symm.map place).trans
            (List.perm_insertionSort _ _).symm

theorem tierRank_injective : Function.Injective tierRank := by
  intro left right h
  cases left <;> cases right <;> first | rfl | cases h

theorem mem_winningTier {candidate : Scored} :
    candidate ∈ winningTier field ↔ candidate ∈ field ∧
      ∀ rival ∈ field, tierRank candidate.2.1 ≤ tierRank rival.2.1 := by
  unfold winningTier
  cases hmin : (field.map fun candidate => tierRank candidate.2.1).min? with
  | none =>
    rw [List.min?_eq_none_iff, List.map_eq_nil_iff] at hmin
    simp [hmin]
  | some best =>
    obtain ⟨hmem, hleast⟩ := List.min?_eq_some_iff.mp hmin
    have hbest : ∀ rival ∈ field, best ≤ tierRank rival.2.1 := fun rival hrival =>
      hleast _ (List.mem_map_of_mem hrival)
    dsimp only
    rw [List.mem_filter, decide_eq_true_iff]
    constructor
    · rintro ⟨hcandidate, hrank⟩
      exact ⟨hcandidate, fun rival hrival => hrank ▸ hbest rival hrival⟩
    · rintro ⟨hcandidate, hrank⟩
      obtain ⟨holder, hholder, rfl⟩ := List.mem_map.mp hmem
      exact ⟨hcandidate, le_antisymm (hrank holder hholder) (hbest candidate hcandidate)⟩

theorem winningTier_same {candidate rival : Scored} (h : candidate ∈ winningTier field)
    (hrival : rival ∈ winningTier field) : candidate.2.1 = rival.2.1 := by
  obtain ⟨hmem, hrank⟩ := mem_winningTier.mp h
  obtain ⟨hmem', hrank'⟩ := mem_winningTier.mp hrival
  exact tierRank_injective (le_antisymm (hrank rival hmem') (hrank' candidate hmem))

theorem winningTier_moved (hperm : others.Perm (field.map (moved place))) :
    (winningTier others).Perm ((winningTier field).map (moved place)) := by
  have hranks : (others.map fun candidate => tierRank candidate.2.1).Perm
      (field.map fun candidate => tierRank candidate.2.1) := by
    have hmap := hperm.map fun candidate => tierRank candidate.2.1
    rwa [List.map_map] at hmap
  unfold winningTier
  cases hmin : (field.map fun candidate => tierRank candidate.2.1).min? with
  | none =>
    rw [List.min?_eq_none_iff, List.map_eq_nil_iff] at hmin
    rw [hmin, List.map_nil] at hperm
    rw [hperm.eq_nil, hmin]
    rfl
  | some best =>
    obtain ⟨hmem, hleast⟩ := List.min?_eq_some_iff.mp hmin
    have hsame : (others.map fun candidate => tierRank candidate.2.1).min? = some best :=
      List.min?_eq_some_iff.mpr
        ⟨hranks.mem_iff.mpr hmem, fun rank hrank => hleast rank (hranks.mem_iff.mp hrank)⟩
    rw [hsame]
    dsimp only
    have hfilter := hperm.filter fun candidate : Scored => tierRank candidate.2.1 = best
    rwa [List.filter_map] at hfilter

/-- What an ambiguous verdict reports of the candidates it was reached over. -/
structure Tied (field : List Scored) (margin : Rat) (tied : List Nat) (tier : MatchTier)
    (score : Rat) : Prop where
  ascending : tied.Pairwise (· < ·)
  several : 2 ≤ tied.length
  best : ∃ index, (index, tier, score) ∈ field
  least : ∀ rival ∈ field, tierRank tier < tierRank rival.2.1 ∨
    rival.2.1 = tier ∧ rival.2.2 ≤ score
  exactly : ∀ index, index ∈ tied ↔
    ∃ found, (index, tier, found) ∈ field ∧ score - found < margin

theorem decide_ambiguous {tied : List Nat} {tier : MatchTier} {score : Rat}
    (h : decide_ (ranked (winningTier field)) threshold margin = .ambiguous tied tier score)
    (hnodup : (field.map Prod.fst).Nodup) (hmargin : 0 < margin) (hthreshold : margin ≤ threshold) :
    Tied field margin tied tier score := by
  have htied := @tied_eq_filter margin (winningTier field) score
  have hperm := ranked_perm (winningTier field)
  have hdesc := ranked_descending (winningTier field)
  have hsub : (winningTier field).Sublist field := by
    unfold winningTier
    split
    · exact List.Sublist.refl _
    · exact List.filter_sublist
  have hdistinct : ((ranked (winningTier field)).map Prod.fst).Nodup :=
    (hperm.map Prod.fst).nodup_iff.mpr ((hsub.map Prod.fst).nodup hnodup)
  revert h htied hperm hdesc hdistinct
  generalize ranked (winningTier field) = sorted
  intro h htied hperm hdesc hdistinct
  cases sorted with
  | nil => cases h
  | cons best rest =>
    rw [decide_cons] at h
    split at h
    · cases h
    · rename_i haccepted
      split at h
      · cases h
      · rename_i hlead
        cases h
        have hbest : best ∈ winningTier field := hperm.subset List.mem_cons_self
        obtain ⟨next, others, rfl⟩ : ∃ next others, rest = next :: others := by
          cases rest with
          | nil => exact absurd (show margin ≤ best.2.2 by linarith) hlead
          | cons next others => exact ⟨next, others, rfl⟩
        have hnext : ¬ margin ≤ best.2.2 - next.2.2 := hlead
        rw [htied]
        have hmem : ∀ index, index ∈ (((best :: next :: others).filter fun candidate =>
            best.2.2 - candidate.2.2 < margin).map Prod.fst).insertionSort (· ≤ ·) ↔
              ∃ candidate ∈ winningTier field, best.2.2 - candidate.2.2 < margin ∧
                candidate.1 = index := by
          intro index
          rw [List.mem_insertionSort, List.mem_map]
          constructor
          · rintro ⟨candidate, hcandidate, hindex⟩
            obtain ⟨hin, hless⟩ := List.mem_filter.mp hcandidate
            exact ⟨candidate, hperm.subset hin, of_decide_eq_true hless, hindex⟩
          · rintro ⟨candidate, hcandidate, hless, hindex⟩
            exact ⟨candidate, List.mem_filter.mpr
              ⟨hperm.mem_iff.mpr hcandidate, decide_eq_true hless⟩, hindex⟩
        refine ⟨?_, ?_, ⟨best.1, (mem_winningTier.mp hbest).1⟩, ?_, ?_⟩
        · have hsorted := List.pairwise_insertionSort (· ≤ ·)
            (((best :: next :: others).filter fun candidate =>
              best.2.2 - candidate.2.2 < margin).map Prod.fst)
          have hkept := (List.perm_insertionSort (· ≤ ·)
            (((best :: next :: others).filter fun candidate =>
              best.2.2 - candidate.2.2 < margin).map Prod.fst)).nodup_iff.mpr
            ((List.filter_sublist.map Prod.fst).nodup hdistinct)
          exact (hsorted.and hkept).imp fun hpair => lt_of_le_of_ne hpair.1 hpair.2
        · rw [List.length_insertionSort, List.length_map,
            List.filter_cons_of_pos (by simpa using hmargin),
            List.filter_cons_of_pos (by simpa using not_le.mp hnext)]
          simp
        · intro rival hrival
          obtain ⟨hin, hrank⟩ := mem_winningTier.mp hbest
          rcases (hrank rival hrival).lt_or_eq with hlower | hequal
          · exact .inl hlower
          · have hwins : rival ∈ winningTier field :=
              mem_winningTier.mpr ⟨hrival, fun other hother => hequal ▸ hrank other hother⟩
            refine .inr ⟨(tierRank_injective hequal).symm, ?_⟩
            rcases List.mem_cons.mp (hperm.mem_iff.mpr hwins) with rfl | hlater
            · exact le_rfl
            · exact (List.pairwise_cons.mp hdesc).1 rival hlater
        · intro index
          rw [hmem]
          constructor
          · rintro ⟨candidate, hwins, hless, rfl⟩
            refine ⟨candidate.2.2, ?_, hless⟩
            rw [winningTier_same hbest hwins]
            exact (mem_winningTier.mp hwins).1
          · rintro ⟨found, hin, hless⟩
            refine ⟨(index, best.2.1, found), mem_winningTier.mpr ⟨hin, ?_⟩, hless, rfl⟩
            exact (mem_winningTier.mp hbest).2

end Candidates

section Questions

variable (resolver : LanguageResolver) (unicode : Unicode) (measures : Similarity)
  (utterance : Text) (question : Question)

/-- How an option is measured: by its value in a question about a number, where an option of
another value is no candidate, and else by its likeness. -/
def measured (option : Text) : Option (MatchTier × Rat) :=
  if question.domain = .integer then
    if (decodeInteger utterance).isSome ∧ decodeInteger option = decodeInteger utterance then
      some (.exact, 1)
    else none
  else
    some (scoreOne unicode measures utterance
      ((aliasOf unicode resolver.aliases question.id utterance).map Alias.option) option)

def candidates : List Scored :=
  question.options.zipIdx.filterMap fun entry =>
    (measured resolver unicode measures utterance question entry.1).map fun found =>
      (entry.2, found)

def withdrawn (verdict : Resolution) : Resolution :=
  match verdict with
  | .absent bestScore =>
    if question.domain = .integer then .absent bestScore
    else
      match resolver.superseded unicode utterance question with
      | some found => .staleAlias found.question found.option
      | none => .absent bestScore
  | verdict => verdict

theorem ranked_exact {field : List Scored}
    (h : ∀ candidate ∈ field, candidate.2 = (.exact, 1)) :
    ranked (winningTier field) = field := by
  have hwinning : winningTier field = field := by
    unfold winningTier
    split
    · rfl
    · rename_i best hmin
      obtain ⟨holder, hholder, hbest⟩ := List.mem_map.mp (List.min?_eq_some_iff.mp hmin).1
      refine List.filter_eq_self.mpr ?_
      intro candidate hmem
      rw [decide_eq_true_iff, h candidate hmem, ← hbest, h holder hholder]
  rw [hwinning]
  refine List.Pairwise.insertionSort_eq ?_
  refine List.pairwise_of_forall_mem_list ?_
  intro left hleft right hright
  unfold ByScoreDescending
  rw [h left hleft, h right hright]

theorem candidates_integer (hdomain : question.domain = .integer) :
    ∀ candidate ∈ candidates resolver unicode measures utterance question,
      candidate.2 = (.exact, 1) := by
  intro candidate hmem
  obtain ⟨entry, _, hentry⟩ := List.mem_filterMap.mp hmem
  obtain ⟨found, hfound, rfl⟩ := Option.map_eq_some_iff.mp hentry
  unfold measured at hfound
  rw [if_pos hdomain] at hfound
  split at hfound
  · exact (Option.some.inj hfound).symm
  · cases hfound

theorem decideInteger_eq (hdomain : question.domain = .integer) :
    decideInteger utterance question matchMargin =
      decide_ (candidates resolver unicode measures utterance question) matchThreshold
        matchMargin := by
  unfold decideInteger candidates measured
  simp only [if_pos hdomain]
  cases hspoken : decodeInteger utterance with
  | none => simp [decide_]
  | some spoken =>
    dsimp only
    congr 1
    refine List.filterMap_congr ?_
    intro entry _
    by_cases hsame : decodeInteger entry.1 = some spoken
    · rw [if_pos hsame, if_pos ⟨rfl, hsame⟩, Option.map_some]
    · rw [if_neg hsame, if_neg fun h => hsame h.2, Option.map_none]

theorem scoreAll_eq (hdomain : question.domain ≠ .integer) :
    scoreAll unicode measures utterance question resolver.aliases =
      ranked (winningTier (candidates resolver unicode measures utterance question)) := by
  unfold scoreAll candidates measured
  simp only [if_neg hdomain, Option.map_some, List.filterMap_eq_map']

theorem decideFor_eq :
    resolver.decideFor unicode measures utterance question =
      withdrawn resolver unicode utterance question
        (decide_ (ranked (winningTier (candidates resolver unicode measures utterance question)))
          matchThreshold matchMargin) := by
  unfold LanguageResolver.decideFor
  by_cases hdomain : question.domain = .integer
  · rw [if_pos hdomain, ranked_exact (candidates_integer _ _ _ _ _ hdomain),
      decideInteger_eq resolver unicode measures utterance question hdomain]
    generalize decide_ _ _ _ = verdict
    cases verdict with
    | absent bestScore => exact (if_pos hdomain).symm
    | resolved | ambiguous | staleAlias | degraded => rfl
  · rw [if_neg hdomain, scoreAll_eq _ _ _ _ _ hdomain]
    generalize decide_ _ _ _ = verdict
    cases verdict with
    | absent bestScore => exact (if_neg hdomain).symm
    | resolved | ambiguous | staleAlias | degraded => rfl

theorem zipIdx_rearranged (σ : Equiv.Perm (Fin question.options.length)) :
    (question.rearranged σ).options.zipIdx.Perm
      (question.options.zipIdx.map fun entry => (entry.1, placeOf σ entry.2)) := by
  have hzip : ∀ options : List Text,
      options.zipIdx = List.ofFn fun place : Fin options.length => (options.get place, place.val) := by
    intro options
    refine List.ext_getElem (by simp) ?_
    intro index hleft hright
    simp
  have hnew : (question.rearranged σ).options.zipIdx =
      List.ofFn fun place : Fin question.options.length =>
        (question.options.get (σ.symm place), place.val) := by
    refine List.ext_getElem (by simp [Question.rearranged]) ?_
    intro index hleft hright
    simp [Question.rearranged]
  have hold : (question.options.zipIdx.map fun entry => (entry.1, placeOf σ entry.2)) =
      List.ofFn ((fun place : Fin question.options.length =>
        (question.options.get (σ.symm place), place.val)) ∘ σ) := by
    rw [hzip, List.map_ofFn]
    congr 1
    funext place
    simp [placeOf]
  rw [hnew, hold]
  exact (Equiv.Perm.ofFn_comp_perm σ _).symm

theorem candidates_rearranged (σ : Equiv.Perm (Fin question.options.length)) :
    (candidates resolver unicode measures utterance (question.rearranged σ)).Perm
      ((candidates resolver unicode measures utterance question).map (moved (placeOf σ))) := by
  unfold candidates
  have hperm := (zipIdx_rearranged question σ).filterMap fun entry =>
    (measured resolver unicode measures utterance question entry.1).map fun found =>
      (entry.2, found)
  refine hperm.trans (List.Perm.of_eq ?_)
  rw [List.filterMap_map, List.map_filterMap]
  refine List.filterMap_congr ?_
  intro entry _
  cases hmeasured : measured resolver unicode measures utterance question entry.1 with
  | none => simp [hmeasured]
  | some found => simp [hmeasured, moved]

theorem withdrawn_rearranged (σ : Equiv.Perm (Fin question.options.length))
    (verdict : Resolution) :
    withdrawn resolver unicode utterance (question.rearranged σ) (verdict.along (placeOf σ)) =
      (withdrawn resolver unicode utterance question verdict).along (placeOf σ) := by
  have hcontains : ∀ option : Text, (question.rearranged σ).options.contains option =
      question.options.contains option := by
    intro option
    have hperm : (question.rearranged σ).options.Perm question.options := by
      have hfirst := (zipIdx_rearranged question σ).map Prod.fst
      rw [List.map_map, List.zipIdx_map_fst] at hfirst
      refine hfirst.trans (List.Perm.of_eq ?_)
      exact List.zipIdx_map_fst 0 question.options
    exact Bool.eq_iff_iff.mpr (by simp [hperm.mem_iff])
  have hsuperseded : resolver.superseded unicode utterance (question.rearranged σ) =
      resolver.superseded unicode utterance question := by
    unfold LanguageResolver.superseded
    simp only [hcontains]
    rfl
  cases verdict with
  | absent bestScore =>
    unfold withdrawn Resolution.along
    dsimp only
    rw [hsuperseded]
    change (if question.domain = .integer then _ else _) = _
    split
    · rfl
    · cases resolver.superseded unicode utterance question <;> rfl
  | resolved index tier score lead => rfl
  | ambiguous tied tier score => rfl
  | staleAlias question' option => rfl
  | degraded reason => rfl

theorem indices_sublist {α β γ : Type} (found : α → Option β) (entries : List (α × γ)) :
    ((entries.filterMap fun entry =>
      (found entry.1).map fun value => (entry.2, value)).map Prod.fst).Sublist
        (entries.map Prod.snd) := by
  induction entries with
  | nil => exact List.Sublist.refl _
  | cons entry rest ih =>
    rw [List.map_cons]
    cases hfound : found entry.1 with
    | none =>
      rw [List.filterMap_cons_none (by rw [hfound, Option.map_none])]
      exact ih.cons _
    | some value =>
      rw [List.filterMap_cons_some (by rw [hfound, Option.map_some]), List.map_cons]
      exact ih.cons_cons _

theorem candidates_nodup :
    ((candidates resolver unicode measures utterance question).map Prod.fst).Nodup := by
  refine (indices_sublist _ question.options.zipIdx).nodup ?_
  rw [List.zipIdx_map_snd]
  exact List.nodup_range'

/-- The order of a question's options never tells in the verdict, and an ambiguous verdict reports
exactly the options that are tied. -/
theorem verdict_rearranged :
    (∀ σ : Equiv.Perm (Fin question.options.length),
      resolver.decideFor unicode measures utterance (question.rearranged σ) =
        (resolver.decideFor unicode measures utterance question).along (placeOf σ)) ∧
    ∀ tied tier score,
      resolver.decideFor unicode measures utterance question = .ambiguous tied tier score →
        Tied (candidates resolver unicode measures utterance question) matchMargin tied tier
          score := by
  have hmargin : 0 < matchMargin := by
    unfold matchMargin
    norm_num
  have hthreshold : matchMargin ≤ matchThreshold := by
    unfold matchMargin matchThreshold
    norm_num
  constructor
  · intro σ
    rw [decideFor_eq, decideFor_eq, decide_moved
      (winningTier_moved (candidates_rearranged resolver unicode measures utterance question σ))
      (fun _ hmem _ hrival => winningTier_same hmem hrival) hmargin, withdrawn_rearranged]
  · intro tied tier score h
    refine decide_ambiguous ?_ (candidates_nodup resolver unicode measures utterance question)
      hmargin hthreshold
    rw [decideFor_eq] at h
    unfold withdrawn at h
    split at h
    · split at h
      · cases h
      · split at h <;> cases h
    · exact h

end Questions

end LogicalWorks.Session
