import LogicalWorks.Session.Order
import LogicalWorks.Session.Soundness

/-! Every option an accepted document offers is chosen by saying it. -/
namespace LogicalWorks.Session

section

variable {unicode : Unicode} {measures : Similarity}

/-- Accepted options are told apart by what makes two of them one answer. -/
theorem pairwise_of_collidingFrom {domain : AnswerDomain} (options : List Text) :
    ∀ seen, collidingFrom unicode domain seen options = none →
      (∀ entry ∈ seen, ∀ option ∈ options, identityOf unicode domain option ≠ some entry.1) ∧
        options.Pairwise fun first second => ∀ identity,
          identityOf unicode domain first = some identity →
            identityOf unicode domain second ≠ some identity := by
  induction options with
  | nil => exact fun _ _ => ⟨fun _ _ _ hoption => (by cases hoption), .nil⟩
  | cons option rest ih =>
    intro seen h
    cases hidentity : identityOf unicode domain option with
    | none =>
      simp only [collidingFrom, hidentity] at h
      obtain ⟨hseen, hpairs⟩ := ih seen h
      refine ⟨fun entry hentry other hother => ?_, List.pairwise_cons.mpr ⟨?_, hpairs⟩⟩
      · rcases List.mem_cons.mp hother with rfl | hlater
        · rw [hidentity]
          nofun
        · exact hseen entry hentry other hlater
      · intro other _ identity hsame
        rw [hidentity] at hsame
        cases hsame
    | some own =>
      cases hfound : seen.find? fun entry => entry.1 = own with
      | some entry =>
        simp only [collidingFrom, hidentity, hfound] at h
        cases h
      | none =>
        simp only [collidingFrom, hidentity, hfound] at h
        obtain ⟨hseen, hpairs⟩ := ih _ h
        refine ⟨fun entry hentry other hother => ?_, List.pairwise_cons.mpr ⟨?_, hpairs⟩⟩
        · rcases List.mem_cons.mp hother with rfl | hlater
          · rw [hidentity]
            intro hsame
            have hnot := List.find?_eq_none.mp hfound entry hentry
            exact hnot (decide_eq_true (Option.some.inj hsame).symm)
          · exact hseen entry (List.mem_append_left _ hentry) other hlater
        · intro other hother identity hsame
          rw [hidentity] at hsame
          cases hsame
          exact hseen (own, option) (List.mem_append_right _ List.mem_cons_self) other hother

def Alone (unicode : Unicode) (domain : AnswerDomain) (options : List Text) (option : Text) :
    Prop :=
  ∀ identity, identityOf unicode domain option = some identity →
    ∀ other ∈ options, identityOf unicode domain other ≠ some identity

theorem alone_of_collidingOptions {domain : AnswerDomain} {before after : List Text} {option : Text}
    (h : collidingOptions unicode (before ++ option :: after) domain = none) :
    Alone unicode domain before option ∧ Alone unicode domain after option := by
  have hpairs := (pairwise_of_collidingFrom _ _ h).2
  rw [List.pairwise_append, List.pairwise_cons] at hpairs
  obtain ⟨-, ⟨hafter, -⟩, hbefore⟩ := hpairs
  refine ⟨fun identity hown other hother hsame => ?_, fun identity hown other hother =>
    hafter other hother identity hown⟩
  exact hbefore other hother option List.mem_cons_self identity hsame hown

theorem zipIdx_around (before after : List Text) (option : Text) :
    (before ++ option :: after).zipIdx =
      before.zipIdx ++ (option, before.length) :: after.zipIdx (before.length + 1) := by
  rw [List.zipIdx_append, List.zipIdx_cons, Nat.zero_add]

theorem decide_alone (index : Nat) :
    decide_ [(index, .exact, 1)] matchThreshold matchMargin = .resolved index .exact 1 1 := by
  have hthreshold : ¬((1 : Rat) < matchThreshold) := by decide +kernel
  have hmargin : matchMargin ≤ (1 : Rat) := by decide +kernel
  simp only [decide_, if_neg hthreshold, if_pos hmargin]

theorem winningTier_alone {before after : List Scored} {index : Nat} {score : Rat}
    (hbefore : ∀ candidate ∈ before, candidate.2.1 ≠ .exact)
    (hafter : ∀ candidate ∈ after, candidate.2.1 ≠ .exact) :
    winningTier (before ++ (index, .exact, score) :: after) = [(index, .exact, score)] := by
  have hmin : ((before ++ (index, MatchTier.exact, score) :: after).map fun candidate =>
      tierRank candidate.2.1).min? = some 0 :=
    List.min?_eq_some_iff.mpr
      ⟨List.mem_map.mpr ⟨_, List.mem_append_right _ List.mem_cons_self, rfl⟩, fun _ _ => Nat.zero_le _⟩
  have hrank : ∀ tier : MatchTier, tier ≠ .exact → ¬tierRank tier = 0 := by
    intro tier htier
    cases tier <;> first | exact absurd rfl htier | nofun
  have hnone : ∀ field : List Scored, (∀ candidate ∈ field, candidate.2.1 ≠ .exact) →
      (field.filter fun candidate => tierRank candidate.2.1 = 0) = [] := fun field h =>
    List.filter_eq_nil_iff.mpr fun candidate hmem => by simpa using hrank _ (h candidate hmem)
  simp only [winningTier, hmin, List.filter_append, hnone before hbefore, List.nil_append]
  rw [List.filter_cons_of_pos (by rfl), hnone after hafter]

theorem scoreOne_said (option : Text) :
    scoreOne unicode measures option none option = (.exact, 1) := by
  rw [scoreOne, if_neg nofun, if_pos rfl]

theorem scoreOne_other {said option : Text}
    (h : normalize unicode said ≠ normalize unicode option) : (scoreOne unicode measures said none option).1 ≠ .exact := by
  rw [scoreOne, if_neg nofun, if_neg h]
  split <;> nofun

theorem decideFor_said {resolver : LanguageResolver} {question : Question}
    {before after : List Text} {option : Text} (hoptions : question.options = before ++ option :: after)
    (hcolliding : collidingOptions unicode question.options question.domain = none)
    (hnumber : question.domain = .integer → (decodeInteger option).isSome)
    (halias : aliasOf unicode resolver.aliases question.id option = none) :
    resolver.decideFor unicode measures option question = .resolved before.length .exact 1 1 := by
  rw [hoptions] at hcolliding
  obtain ⟨hbefore, hafter⟩ := alone_of_collidingOptions hcolliding
  unfold LanguageResolver.decideFor
  cases hdomain : question.domain with
  | integer =>
    obtain ⟨value, hvalue⟩ := Option.isSome_iff_exists.mp (hnumber hdomain)
    rw [hdomain] at hbefore hafter
    have hnone : ∀ (others : List Text) (start : Nat), Alone unicode .integer others option →
        ((others.zipIdx start).filterMap fun entry : Text × Nat =>
          if decodeInteger entry.1 = some value then some (entry.2, MatchTier.exact, (1 : Rat))
          else none) = [] := by
      intro others start halone
      refine List.filterMap_eq_nil_iff.mpr fun entry hentry => if_neg fun hsame => ?_
      refine halone (decimal value) (by rw [identityOf, hvalue]; rfl) entry.1
        (List.fst_mem_of_mem_zipIdx hentry) (by rw [identityOf, hsame]; rfl)
    rw [if_pos rfl]
    simp only [decideInteger, hvalue, hoptions, zipIdx_around, List.filterMap_append,
      List.filterMap_cons, hnone before 0 hbefore, hnone after _ hafter, if_pos, List.nil_append]
    exact decide_alone _
  | label =>
    rw [hdomain] at hbefore hafter
    have hother : ∀ (others : List Text) (start : Nat), Alone unicode .label others option →
        ∀ candidate ∈ (others.zipIdx start).map fun entry =>
          (entry.2, scoreOne unicode measures option none entry.1), candidate.2.1 ≠ .exact := by
      intro others start halone candidate hcandidate
      obtain ⟨entry, hentry, rfl⟩ := List.mem_map.mp hcandidate
      exact scoreOne_other fun hsame =>
        halone _ rfl entry.1 (List.fst_mem_of_mem_zipIdx hentry) (congrArg some hsame.symm)
    have hscored : scoreAll unicode measures option question resolver.aliases =
        [(before.length, .exact, 1)] := by
      simp only [scoreAll, halias, Option.map_none, hoptions, zipIdx_around, List.map_append,
        List.map_cons, scoreOne_said]
      rw [winningTier_alone (hother before 0 hbefore) (hother after _ hafter)]
      rfl
    rw [if_neg nofun, hscored, decide_alone]

end

end LogicalWorks.Session

namespace LogicalWorks.Session

variable {unicode : Unicode} {measures : Similarity}

theorem index_of_decide {scored : List Scored} {threshold margin score lead : Rat} {index : Nat}
    {tier : MatchTier} (h : decide_ scored threshold margin = .resolved index tier score lead) :
    ∃ candidate ∈ scored, candidate.1 = index := by
  cases scored with
  | nil => cases h
  | cons best rest =>
    rw [decide_cons] at h
    split at h
    · cases h
    · split at h
      · cases h
        exact ⟨_, List.mem_cons_self, rfl⟩
      · cases h

/-- The shipped resolver selects among the options it was asked about. -/
theorem decideFor_inRange {resolver : LanguageResolver} {utterance : Text} {question : Question}
    {index : Nat} {tier : MatchTier} {score lead : Rat}
    (h : resolver.decideFor unicode measures utterance question = .resolved index tier score lead) :
    index < question.options.length := by
  unfold LanguageResolver.decideFor at h
  split at h
  · unfold decideInteger at h
    split at h
    · cases h
    · obtain ⟨candidate, hcandidate, rfl⟩ := index_of_decide h
      obtain ⟨entry, hentry, hsome⟩ := List.mem_filterMap.mp hcandidate
      split at hsome
      · cases hsome
        exact List.snd_lt_of_mem_zipIdx hentry
      · cases hsome
  · have hdecided : decide_ (scoreAll unicode measures utterance question resolver.aliases)
        matchThreshold matchMargin = .resolved index tier score lead := by
      split at h
      · split at h <;> cases h
      · exact h
    obtain ⟨candidate, hcandidate, rfl⟩ := index_of_decide hdecided
    have hfield := (mem_winningTier.mp ((List.mem_insertionSort _).mp hcandidate)).1
    obtain ⟨entry, hentry, rfl⟩ := List.mem_map.mp hfield
    exact List.snd_lt_of_mem_zipIdx hentry

theorem Checked.colliding {spec : FlowSpec} {limits : ResourceLimits} {node var : Text}
    {options : List Text} {routes : Table Text Text} (h : Checked unicode spec limits)
    (hask : spec.nodes.get node = some (.ask var options routes)) :
    collidingOptions unicode options (answerDomainOf spec var) = none := by
  obtain ⟨effective, hvalid, -⟩ := h.nodes node _ hask
  unfold validateNode validateAskNode at hvalid
  dsimp only at hvalid
  split at hvalid
  · cases hvalid
  · obtain ⟨_, -, hvalid⟩ := bind_eq_ok.mp hvalid
    split at hvalid
    · cases hvalid
    · assumption

theorem decodeInteger_of_decodeAnswer {declared : VarType} {option : Text} {value : Value}
    (h : declared.decodeAnswer option = .ok value) (hdomain : declared.answerDomain = .integer) :
    (decodeInteger option).isSome := by
  cases declared with
  | integer =>
    simp only [VarType.decodeAnswer] at h
    unfold decodeInteger
    split at h
    · rename_i number hparsed
      rw [hparsed]
      rfl
    · cases h
    · cases h
    · cases h
  | _ => cases hdomain

end LogicalWorks.Session

namespace LogicalWorks.Session.Runner

open Fallible

variable {J : Type} {seams : Seams LanguageResolver J} {unicode : Unicode} {measures : Similarity}

def Speaks (unicode : Unicode) (measures : Similarity) (seams : Seams LanguageResolver J) : Prop :=
  ∀ resolver utterance question, seams.resolve resolver utterance question =
    (resolver.resolve unicode measures utterance question, resolver)

theorem Speaks.inRange (h : Speaks unicode measures seams) : InRange seams := by
  intro resolver utterance question index tier score lead hresolved
  rw [h] at hresolved
  exact decideFor_inRange hresolved

theorem answer_said {R : Type} {seams : Seams R J} {course : Course unicode} {session : Session R J}
    {node var option target : Text} {options : List Text} {routes : Table Text Text} {index : Nat}
    {value : Value} {score lead : Rat} (hsolvent : Solvent session)
    (hstands : Stands course (some node) session) (hready : Ready course node)
    (hopen : session.terminal = none)
    (hask : session.flow.node node = some (.ask var options routes))
    (hbytes : bytes option ≤ session.limits.get .utterance)
    (hverdict : (seams.resolve session.resolver option
      ⟨node, options, session.scope.answerDomain var⟩).1.resolution =
        .resolved index .exact score lead)
    (haccept : ∀ verdict, Fares ((course.answered var value).to (course.path ++ [target]))
      (Stands course (some node))
      (acceptResolved seams ⟨node, var, options, routes, verdict, option⟩ index)) :
    Fares ((course.answered var value).to (course.path ++ [target])) (· = session)
      (answer seams option) := by
  refine Holds.read fun state hstate => ?_
  subst hstate
  rw [hopen, hstands.current]
  dsimp only
  rw [hask]
  dsimp only
  rw [if_neg nofun, if_neg (Nat.not_lt.mpr hbytes)]
  have hcharged := (chargeStep_keeps hsolvent).both (chargeStep_quiet.at hstands)
  refine (hcharged.refuses fun _ _ hfail => ⟨hfail.2.1, course, hfail.2.2.walks hready⟩).bind
    fun _ => Holds.of_each ?_
  rintro _ ⟨⟨-, rfl⟩, hcharged⟩
  refine (judged_changes _ _).bind fun verdict => Holds.of_each ?_
  rintro _ ⟨hjudged, rfl⟩
  rw [hjudged, hverdict]
  exact (haccept _).conseq (fun _ hstate => by rw [hstate]; exact { hcharged with })
    (fun _ _ => id) (fun _ _ => id)

/-- Saying an option of the ask a session stands at resolves to it; the answer stores it, and goes
on along its route, or fails for no fault of the document's. -/
theorem option_said (hspeaks : Speaks unicode measures seams)
    {session : Session LanguageResolver J} (hreached : Reached seams unicode session)
    (hopen : session.terminal = none) {node var : Text} {options : List Text}
    {routes : Table Text Text} (hcurrent : session.current = some node)
    (hask : session.flow.node node = some (.ask var options routes))
    (halias : ∀ utterance, aliasOf unicode session.resolver.aliases node utterance = none)
    {index : Nat} (hindex : index < options.length)
    (hbytes : bytes options[index] ≤ session.limits.get .utterance) :
    (session.resolver.resolve unicode measures options[index]
      ⟨node, options, session.scope.answerDomain var⟩).resolution = .resolved index .exact 1 1 ∧
    ∃ declared value target, session.flow.vars.get var = some declared ∧
      declared.decodeAnswer options[index] = .ok value ∧
      routes.get options[index] = some target ∧
      (∀ state, answer seams options[index] session = .ok () state →
        state.scope.get var = some value ∧
          ∃ more, state.visited = session.visited ++ target :: more) ∧
      ∀ failure state, answer seams options[index] session = .error failure state →
        Passing failure := by
  obtain ⟨course, current, more, hstands, hready⟩ := hreached.walks hspeaks.inRange
  rw [← hstands.current, hcurrent] at hready
  rw [hstands.current.symm.trans hcurrent] at hstands
  generalize hcourse : course.to (course.path ++ more) = there at hstands
  have hthere : Ready there node := hcourse ▸ hready node rfl
  have hnode : there.flow.nodes.get node = some (.ask var options routes) := by
    rw [← hstands.flow]
    exact hask
  have haccept (verdict : Verdict) := @acceptResolved_fares _ _ seams unicode there
    ⟨node, var, options, routes, verdict, options[index]⟩ index hnode hthere hindex
  obtain ⟨target, declared, value, hroute, hdeclared, hdecode, -⟩ :=
    haccept ⟨.absent 0, ⟨[], [], none⟩⟩
  have hdomain : session.scope.answerDomain var = declared.answerDomain := by
    rw [VarScope.answerDomain, hstands.scope, there.declared, hdeclared]
  have hsaid : (session.resolver.resolve unicode measures options[index]
      ⟨node, options, session.scope.answerDomain var⟩).resolution = .resolved index .exact 1 1 := by
    have haround : options = options.take index ++ options[index] :: options.drop (index + 1) := by
      rw [← List.drop_eq_getElem_cons hindex, List.take_append_drop]
    have hcolliding := there.checked.colliding hnode
    rw [answerDomainOf, hdeclared] at hcolliding
    have hplace := @decideFor_said unicode measures session.resolver
      ⟨node, options, session.scope.answerDomain var⟩ _ _ _ haround
      (by rw [hdomain]; exact hcolliding) (by rw [hdomain]; exact decodeInteger_of_decodeAnswer hdecode) (halias _)
    rwa [List.length_take, Nat.min_eq_left hindex.le] at hplace
  refine ⟨hsaid, declared, value, target, ?_, hdecode, hroute, ?_⟩
  · rw [hstands.flow]
    exact hdeclared
  have hends := (@answer_said J unicode _ seams there session node var options[index] target options
    routes index value 1 1 hreached.balanced hstands hthere hopen hask hbytes (by
      rw [hspeaks]
      exact hsaid) fun verdict => by
    obtain ⟨target', declared', value', hroute', hdeclared', hdecode', hfares⟩ := haccept verdict
    cases hroute'.symm.trans hroute
    cases hdeclared'.symm.trans hdeclared
    cases hdecode'.symm.trans hdecode
    exact hfares).run session rfl
  constructor
  · intro state hrun
    rw [hrun] at hends
    obtain ⟨current', further, hstate, -⟩ := hends
    refine ⟨?_, further, ?_⟩
    · rw [VarScope.get, hstate.scope]
      exact Table.get_insert_self _ _ _
    · rw [hstate.path, hstands.path]
      exact List.append_assoc _ _ _
  · intro failure state hrun
    rw [hrun] at hends
    exact hends.1

/-- Measures by which no two texts are alike, so that only an exact form matches. -/
def unlike : Similarity := ⟨fun _ _ => 0, fun _ _ => 0⟩

def speaking : Seams LanguageResolver Unit where
  resolve resolver utterance question :=
    (resolver.resolve latin unlike utterance question, resolver)
  record _ _ _ _ := ()
  recordDecision _ _ := (.ok .inMemory, ())
  optionsRevision _ := []
  revisionOf _ := .ok []

def branching (when : Predicate) : FlowSpec :=
  { oneQuestion ["yes".toList] with
    nodes := ((Table.empty.insert "end".toList .end_).insert "branch".toList
      (.branch "x".toList when "end".toList "end".toList)).insert "ask".toList
        (.ask "x".toList ["yes".toList] (Table.empty.insert "yes".toList "branch".toList)) }

def begun (when : Predicate) : Except BotError (Session LanguageResolver Unit) :=
  withComponentsAndLimits speaking latin [] (branching when) ⟨.empty, [], []⟩ () .shipped

def offers (var : Text) (options : List Text) : Option NodeKind → Bool
  | some (.ask other offered _) => decide (other = var ∧ offered = options)
  | _ => false

def failureOf : EStateM.Result BotError (Session R J) Unit → Option BotError
  | .ok _ _ => none
  | .error failure _ => some failure

/-- The accepted document compares a text with a number once its option was said. -/
theorem said_and_mistyped : ∃ session, Reached speaking latin session ∧ session.terminal = none ∧
    session.current = some "ask".toList ∧
      failureOf (answer speaking "yes".toList session) = some .predicateTypeMismatch := by
  have hruns : ((begun (.lt (.var "x".toList) (.literal (.integer 5)))).toOption.map fun session =>
      (session.terminal, session.current, failureOf (answer speaking "yes".toList session))) =
        some (none, some "ask".toList, some .predicateTypeMismatch) := by decide +kernel
  cases hstart : begun (.lt (.var "x".toList) (.literal (.integer 5))) with
  | error failure =>
    rw [hstart] at hruns
    cases hruns
  | ok session =>
    rw [hstart] at hruns
    have hfacts := Option.some.inj hruns
    simp only [Prod.mk.injEq] at hfacts
    exact ⟨session, .started hstart, hfacts.1, hfacts.2.1, hfacts.2.2⟩

theorem option_said_yes : ∃ session, Reached speaking latin session ∧
    (session.resolver.resolve latin unlike "yes".toList
      ⟨"ask".toList, ["yes".toList], session.scope.answerDomain "x".toList⟩).resolution =
        .resolved 0 .exact 1 1 := by
  have hruns : ((begun (.const true)).toOption.map fun session =>
      (session.terminal, session.current,
        offers "x".toList ["yes".toList] (session.flow.node "ask".toList) &&
          decide (session.resolver.aliases.rows.length = 0 ∧ 3 ≤ session.limits.get .utterance))) =
      some (none, some "ask".toList, true) := by
    decide +kernel
  cases hstart : begun (.const true) with
  | error failure =>
    rw [hstart] at hruns
    cases hruns
  | ok session =>
    rw [hstart] at hruns
    have hfacts := Option.some.inj hruns
    simp only [Prod.mk.injEq, Bool.and_eq_true, decide_eq_true_eq] at hfacts
    obtain ⟨hopen, hcurrent, hoffers, haliases, hlimit⟩ := hfacts
    unfold offers at hoffers
    split at hoffers
    · rename_i var options routes hnode
      obtain ⟨rfl, rfl⟩ := of_decide_eq_true hoffers
      have halias (utterance : Text) :
          aliasOf latin session.resolver.aliases "ask".toList utterance = none := by
        rw [aliasOf, Table.get, List.eq_nil_of_length_eq_zero haliases]
        rfl
      exact ⟨session, .started hstart, (@option_said _ speaking latin unlike (fun _ _ _ => rfl)
        session (.started hstart) hopen "ask".toList "x".toList ["yes".toList] routes hcurrent hnode
        halias 0 Nat.one_pos hlimit).1⟩
    · cases hoffers

end LogicalWorks.Session.Runner
