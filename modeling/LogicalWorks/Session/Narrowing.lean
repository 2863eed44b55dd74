import LogicalWorks.Session.Account

/-! One answer given again and again at an ask whose verdict is a tie. The prompt is narrowed to
the options that tied; the question is not. -/
namespace LogicalWorks.Session.Runner

open Fallible

variable {J : Type}

structure Judgement where
  utterance : Text
  question : Question
  verdict : Verdict
  deriving DecidableEq, Repr

def judgementOf (judge : Text → Question → Verdict) (utterance : Text) (question : Question) :
    Judgement :=
  ⟨utterance, question, judge utterance question⟩

/-- Components whose resolver is a function of the utterance and the question, and remembers what
it was asked. -/
def judging (judge : Text → Question → Verdict) (seams : Seams Unit J) :
    Seams (List Judgement) J where
  resolve heard utterance question :=
    (judge utterance question, heard ++ [judgementOf judge utterance question])
  record := seams.record
  recordDecision := seams.recordDecision
  optionsRevision := seams.optionsRevision
  revisionOf := seams.revisionOf

def repeated {R : Type} (seams : Seams R J) (utterance : Text) : Nat → Session R J → Session R J
  | 0, session => session
  | times + 1, session => repeated seams utterance times (after (answer seams utterance session))

def judgements (seams : Seams (List Judgement) J) (utterance : Text) (times : Nat)
    (session : Session (List Judgement) J) : List Judgement :=
  (repeated seams utterance times session).resolver.drop session.resolver.length

def Judgement.Ambiguous (judgement : Judgement) : Prop :=
  ∃ tied tier score, judgement.verdict.resolution = .ambiguous tied tier score

def named (options : List Text) (tied : List Nat) : Nat :=
  (tied.filterMap fun candidate => options[candidate]?).length

/-- What is asked again is a strictly smaller set, or the full one where fewer than two tied. -/
def Narrower (options : List Text) (tied : List Nat) : Prop :=
  if named options tied < 2 then narrowedAsk options tied = options
  else (narrowedAsk options tied).length < options.length

/-- As long as the verdicts on one utterance are ambiguous, each is followed by a narrower question
that the next answer is resolved against, and there are no more of them than options. -/
def Progresses (seams : Seams (List Judgement) J) (session : Session (List Judgement) J)
    (options : List Text) (utterance : Text) : Prop :=
  ∀ times count, (∀ before ≤ count, ∃ judgement,
      (judgements seams utterance times session)[before]? = some judgement ∧ judgement.Ambiguous) →
    count < options.length ∧ ∀ judgement tied tier score,
      (judgements seams utterance times session)[count]? = some judgement →
      judgement.verdict.resolution = .ambiguous tied tier score →
        Narrower judgement.question.options tied ∧
          ∀ next, (judgements seams utterance times session)[count + 1]? = some next →
            next.question.options = narrowedAsk judgement.question.options tied

structure Asking {R : Type} (session : Session R J) (node var : Text) (options : List Text)
    (routes : Table Text Text) : Prop where
  terminal : session.terminal = none
  current : session.current = some node
  ask : session.flow.node node = some (.ask var options routes)

def asked {R : Type} (session : Session R J) (node var : Text) (options : List Text) : Question :=
  ⟨node, options, session.scope.answerDomain var⟩

def left {R : Type} (session : Session R J) : Nat := session.flow.bounds.budget - session.steps

/-- When a tie does no harm: no answer is left to give; or fewer than two tied and the budget ends
before the options do; or the tie is narrower and the answer the last one. -/
def Harmless (options : List Text) (tied : List Nat) (left : Nat) : Prop :=
  left = 0 ∨ (named options tied < 2 ∧ left ≤ options.length) ∨
    (2 ≤ named options tied ∧ named options tied < options.length ∧ left = 1)

instance (options : List Text) (tied : List Nat) (left : Nat) :
    Decidable (Harmless options tied left) :=
  inferInstanceAs (Decidable (_ ∨ _))

theorem narrowedAsk_few {options : List Text} {tied : List Nat} (h : named options tied < 2) :
    narrowedAsk options tied = options := by
  unfold narrowedAsk
  exact if_neg (by unfold named at h; omega)

theorem length_narrowedAsk {options : List Text} {tied : List Nat} (h : 2 ≤ named options tied) :
    (narrowedAsk options tied).length = named options tied := by
  unfold narrowedAsk
  exact congrArg List.length (if_pos h)

variable {R : Type} {seams : Seams R J}

theorem chargeStep_eq {session : Session R J} (hbudget : session.flow.bounds.budget ≤ usizeMax)
    (hleft : 0 < left session) :
    chargeStep session = .ok () { session with steps := session.steps + 1 } := by
  unfold left at hleft
  have hadd : checkedAdd session.steps 1 = some (session.steps + 1) := if_pos (by omega)
  have hafford : ¬session.flow.bounds.budget < session.steps + 1 := by omega
  simp only [chargeStep, get_bind, hadd,
    if_neg hafford]
  rfl

theorem chargeStep_spent {session : Session R J} (hleft : left session = 0) :
    ∃ failure, chargeStep session = .error failure session := by
  unfold left at hleft
  simp only [chargeStep, get_bind]
  cases hadd : checkedAdd session.steps 1 with
  | none => exact ⟨_, rfl⟩
  | some attempted =>
    have htotal := checkedAdd_eq_some hadd
    have hspent : session.flow.bounds.budget < attempted := by omega
    dsimp only
    rw [if_pos hspent]
    exact ⟨_, rfl⟩

/-- An answer at an ask is charged, judged against the options of the ask and comes to its
verdict. -/
theorem answer_eq {session : Session R J} {node var utterance : Text} {options : List Text}
    {routes : Table Text Text} (hask : Asking session node var options routes)
    (hsize : ¬session.limits.get .utterance < bytes utterance) :
    answer seams utterance session =
      (do
        chargeStep
        let verdict ← judged seams utterance (asked session node var options)
        applyResolution seams ⟨node, var, options, routes, verdict, utterance⟩
          verdict.resolution : Action R J Unit) session := by
  have hopen : ¬session.terminal.isSome = true := by
    rw [hask.terminal]
    rintro ⟨⟩
  simp only [answer, get_bind, if_neg hopen,
    hask.current, hask.ask, if_neg hsize]
  rfl

theorem answer_oversized {session : Session R J} {node var utterance : Text} {options : List Text}
    {routes : Table Text Text} (hask : Asking session node var options routes)
    (hsize : session.limits.get .utterance < bytes utterance) :
    after (answer seams utterance session) = session := by
  have hopen : ¬session.terminal.isSome = true := by
    rw [hask.terminal]
    rintro ⟨⟩
  simp only [answer, get_bind, if_neg hopen,
    hask.current, hask.ask, if_pos hsize]
  rfl

theorem answer_spent {session : Session R J} {node var utterance : Text} {options : List Text}
    {routes : Table Text Text} (hask : Asking session node var options routes)
    (hsize : ¬session.limits.get .utterance < bytes utterance) (hleft : left session = 0) :
    after (answer seams utterance session) = session := by
  obtain ⟨failure, hcharge⟩ := chargeStep_spent hleft
  rw [answer_eq hask hsize]
  simp only [bind, EStateM.bind, hcharge]
  rfl

theorem answer_tied {judge : Text → Question → Verdict} {seams : Seams Unit J}
    {session : Session (List Judgement) J} {node var utterance : Text} {options : List Text}
    {routes : Table Text Text} {tied : List Nat} {tier : MatchTier} {score : Rat}
    (hsolvent : Solvent session) (hbudget : session.flow.bounds.budget ≤ usizeMax)
    (hask : Asking session node var options routes)
    (hsize : ¬session.limits.get .utterance < bytes utterance) (hleft : 0 < left session)
    (htied : (judge utterance (asked session node var options)).resolution =
      .ambiguous tied tier score) :
    Solvent (after (answer (judging judge seams) utterance session)) ∧
      Fixed
        { session with
          steps := session.steps + 1
          resolver := session.resolver ++
            [judgementOf judge utterance (asked session node var options)] }
        (after (answer (judging judge seams) utterance session)) := by
  have hcharged := (chargeStep_keeps hsolvent).run session rfl
  rw [chargeStep_eq hbudget hleft] at hcharged
  let question := asked session node var options
  let turn : Turn := ⟨node, var, options, routes, judge utterance question, utterance⟩
  let next : Session (List Judgement) J :=
    { session with
      steps := session.steps + 1
      resolver := session.resolver ++ [judgementOf judge utterance question] }
  have hnext : Kept ⟨session.flow.bounds.budget, session.steps + 1, 1, 0, next.resolver⟩ next :=
    hcharged.1.judged _
  have hanswer : answer (judging judge seams) utterance session =
      reask (judging judge seams) turn (narrowedAsk options tied) next := by
    rw [answer_eq hask hsize]
    simp only [bind, EStateM.bind, chargeStep_eq hbudget hleft]
    change applyResolution (judging judge seams) turn (judge utterance question).resolution _ = _
    rw [htied]
    rfl
  have hwrites := (@reask_writes _ J (judging judge seams)
    ⟨session.flow.bounds.budget, session.steps + 1, 1, 0, next.resolver⟩ turn
    (narrowedAsk options tied)).run next hnext
  obtain ⟨hkept, hfixed⟩ := after_of_holds hwrites
  rw [hanswer]
  refine ⟨?_, hfixed⟩
  rw [Solvent, hkept.resolver]
  exact hkept.balanced rfl

theorem Fixed.asking {session state : Session R J} {node var : Text} {options : List Text}
    {routes : Table Text Text} {steps : Nat} {resolver : R}
    (h : Fixed { session with steps := steps, resolver := resolver } state)
    (hask : Asking session node var options routes) : Asking state node var options routes where
  terminal := h.terminal.trans hask.terminal
  current := h.current.trans hask.current
  ask := by
    rw [h.flow]
    exact hask.ask

theorem Fixed.asked {session state : Session R J} {steps : Nat} {resolver : R}
    (h : Fixed { session with steps := steps, resolver := resolver } state) (node var : Text)
    (options : List Text) : asked state node var options = asked session node var options := by
  unfold Runner.asked
  rw [h.scope]

theorem Fixed.left_succ {session state : Session R J} {resolver : R}
    (h : Fixed { session with steps := session.steps + 1, resolver := resolver } state) :
    left state = left session - 1 := by
  unfold left
  rw [h.flow, h.steps]
  exact Nat.sub_add_eq _ _ _

/-- While the verdict on an utterance is a tie, every answer the budget allows is judged, and
judged against all the options. -/
theorem repeated_tied {judge : Text → Question → Verdict} {seams : Seams Unit J}
    {node var utterance : Text} {options : List Text} {routes : Table Text Text} {tied : List Nat}
    {tier : MatchTier} {score : Rat} (times : Nat) : ∀ session : Session (List Judgement) J,
    Solvent session → session.flow.bounds.budget ≤ usizeMax →
    Asking session node var options routes →
    ¬session.limits.get .utterance < bytes utterance →
    (judge utterance (asked session node var options)).resolution = .ambiguous tied tier score →
      (repeated (judging judge seams) utterance times session).resolver =
        session.resolver ++ List.replicate (min times (left session))
          (judgementOf judge utterance (asked session node var options)) := by
  induction times with
  | zero => intros; simp [repeated]
  | succ times ih =>
    intro session hsolvent hbudget hask hsize htied
    rw [repeated]
    rcases Nat.eq_zero_or_pos (left session) with hleft | hleft
    · rw [answer_spent hask hsize hleft, ih session hsolvent hbudget hask hsize htied, hleft,
        Nat.min_zero, Nat.min_zero]
    · obtain ⟨hnext, hfixed⟩ :=
        @answer_tied J judge seams _ _ _ _ _ _ _ _ _ hsolvent hbudget hask hsize hleft htied
      have hstill := hfixed.asking hask
      have hquestion := hfixed.asked node var options
      have hmin : min (times + 1) (left session) = min times (left session - 1) + 1 := by omega
      rw [ih _ hnext (hfixed.flow ▸ hbudget) hstill (hfixed.limits ▸ hsize)
        (hquestion ▸ htied), hquestion, hfixed.left_succ, hfixed.resolver, List.append_assoc,
        List.singleton_append, ← List.replicate_succ, hmin]

theorem first_judgement {judge : Text → Question → Verdict} {seams : Seams Unit J}
    {session : Session (List Judgement) J} {node var utterance : Text} {options : List Text}
    {routes : Table Text Text} (hsolvent : Solvent session)
    (hbudget : session.flow.bounds.budget ≤ usizeMax)
    (hask : Asking session node var options routes)
    (hsize : ¬session.limits.get .utterance < bytes utterance) (hleft : 0 < left session) :
    (after (answer (judging judge seams) utterance session)).resolver =
      session.resolver ++ [judgementOf judge utterance (asked session node var options)] := by
  have hcharged := (chargeStep_keeps hsolvent).run session rfl
  rw [chargeStep_eq hbudget hleft] at hcharged
  rw [answer_eq hask hsize]
  simp only [bind, EStateM.bind, chargeStep_eq hbudget hleft]
  exact after_of_holds ((@asked_rests _ J (judging judge seams) ⟨_, _, 1, 0, _⟩ _ _ _ _ _ _ _
    hcharged.1 hask.terminal hask.current hask.ask).conseq (fun _ => id)
      (fun _ _ hstate => hstate.1.resolver) (fun _ _ hstate => hstate.resolver))

theorem prefix_repeated {judge : Text → Question → Verdict} {seams : Seams Unit J}
    {utterance : Text} (times : Nat) : ∀ session : Session (List Judgement) J, Solvent session →
      session.resolver <+: (repeated (judging judge seams) utterance times session).resolver := by
  induction times with
  | zero => exact fun session _ => List.prefix_refl _
  | succ times ih =>
    intro session hsolvent
    obtain ⟨hnext, hheard⟩ := @answer_solvent _ J (judging judge seams) utterance session hsolvent
    refine List.IsPrefix.trans ?_ (ih _ hnext)
    rcases hheard with hsame | ⟨question, hmore⟩
    · exact hsame ▸ List.prefix_refl _
    · rw [hmore]
      exact List.prefix_append _ _

section Given

variable {judge : Text → Question → Verdict} {seams : Seams Unit J} {utterance : Text}
  {session : Session (List Judgement) J} {node var : Text} {options : List Text}
  {routes : Table Text Text}

theorem judgements_oversized (hask : Asking session node var options routes)
    (hsize : session.limits.get .utterance < bytes utterance) (times : Nat) :
    judgements (judging judge seams) utterance times session = [] := by
  have hsame : repeated (judging judge seams) utterance times session = session := by
    induction times with
    | zero => rfl
    | succ times ih => rw [repeated, answer_oversized hask hsize, ih]
  rw [judgements, hsame, List.drop_length]

theorem judgements_tied {tied : List Nat} {tier : MatchTier} {score : Rat}
    (hsolvent : Solvent session) (hbudget : session.flow.bounds.budget ≤ usizeMax)
    (hask : Asking session node var options routes)
    (hsize : ¬session.limits.get .utterance < bytes utterance)
    (htied : (judge utterance (asked session node var options)).resolution =
      .ambiguous tied tier score) (times : Nat) :
    judgements (judging judge seams) utterance times session =
      List.replicate (min times (left session))
        (judgementOf judge utterance (asked session node var options)) := by
  rw [judgements, repeated_tied times session hsolvent hbudget hask hsize htied, List.drop_left]

theorem judgements_first (hsolvent : Solvent session)
    (hbudget : session.flow.bounds.budget ≤ usizeMax)
    (hask : Asking session node var options routes)
    (hsize : ¬session.limits.get .utterance < bytes utterance) (times : Nat)
    {judgement : Judgement}
    (hfirst : (judgements (judging judge seams) utterance times session)[0]? = some judgement) :
    judgement = judgementOf judge utterance (asked session node var options) := by
  induction times with
  | zero =>
    rw [judgements, repeated, List.drop_length] at hfirst
    cases hfirst
  | succ times ih =>
    rw [judgements, repeated] at hfirst
    rcases Nat.eq_zero_or_pos (left session) with hleft | hleft
    · rw [answer_spent hask hsize hleft] at hfirst
      exact ih hfirst
    · have hhead := @first_judgement J judge seams _ _ _ _ _ _ hsolvent hbudget hask hsize hleft
      obtain ⟨later, hlater⟩ := prefix_repeated times
        (after (answer (judging judge seams) utterance session))
        (@answer_solvent _ J (judging judge seams) utterance session hsolvent).1
      rw [← hlater, hhead, List.append_assoc, List.drop_left] at hfirst
      cases hfirst
      rfl

end Given

theorem narrower_iff {options : List Text} {tied : List Nat} (h : 2 ≤ named options tied) :
    Narrower options tied ↔ named options tied < options.length := by
  rw [Narrower, if_neg (by omega), length_narrowedAsk h]

theorem getElem?_replicate_eq_some {α : Type} {value found : α} {length index : Nat} :
    (List.replicate length value)[index]? = some found ↔ index < length ∧ found = value := by
  rw [List.getElem?_replicate]
  by_cases hindex : index < length
  · rw [if_pos hindex, Option.some_inj]
    exact ⟨fun h => ⟨hindex, h.symm⟩, fun h => h.2.symm⟩
  · rw [if_neg hindex]
    exact iff_of_false (by rintro ⟨⟩) fun h => hindex h.1

theorem progresses_tied {judge : Text → Question → Verdict} {seams : Seams Unit J}
    {utterance : Text} {session : Session (List Judgement) J} {question : Question}
    {tied : List Nat} {tier : MatchTier} {score : Rat} {left : Nat}
    (htied : (judge utterance question).resolution = .ambiguous tied tier score)
    (hlist : ∀ times, judgements (judging judge seams) utterance times session =
      List.replicate (min times left) (judgementOf judge utterance question)) :
    Progresses (judging judge seams) session question.options utterance ↔
      Harmless question.options tied left := by
  have hambiguous : (judgementOf judge utterance question).Ambiguous := ⟨tied, tier, score, htied⟩
  unfold Progresses
  simp only [hlist, getElem?_replicate_eq_some]
  constructor
  · intro h
    have hrun (times count : Nat) (hcount : count < min times left) :=
      h times count fun before hbefore =>
        ⟨_, ⟨Nat.lt_of_le_of_lt hbefore hcount, rfl⟩, hambiguous⟩
    have hnarrower (times count : Nat) (hcount : count < min times left) :=
      (hrun times count hcount).2 _ tied tier score ⟨hcount, rfl⟩ htied
    rcases Nat.eq_zero_or_pos left with hleft | hleft
    · exact .inl hleft
    refine .inr ?_
    rcases Nat.lt_or_ge (named question.options tied) 2 with hfew | hmany
    · have hlast := (hrun left (left - 1) (by omega)).1
      exact .inl ⟨hfew, by omega⟩
    · have hstrict := (narrower_iff hmany).mp (hnarrower 1 0 (by omega)).1
      refine .inr ⟨hmany, hstrict, ?_⟩
      by_contra hone
      have hnext : question.options = narrowedAsk question.options tied :=
        (hnarrower 2 0 (by omega)).2 _ ⟨by omega, rfl⟩
      have hlength := length_narrowedAsk hmany
      rw [← hnext] at hlength
      omega
  · intro h times count hrun
    obtain ⟨judgement, ⟨hcount, -⟩, -⟩ := hrun count (Nat.le_refl _)
    rcases h with hleft | ⟨hfew, hsize⟩ | ⟨hmany, hstrict, hleft⟩
    · omega
    · refine ⟨by omega, ?_⟩
      rintro _ others tier' score' ⟨-, rfl⟩ hothers
      rw [judgementOf, htied] at hothers
      cases hothers
      have hfull := narrowedAsk_few hfew
      refine ⟨(if_pos hfew).mpr hfull, ?_⟩
      rintro _ ⟨-, rfl⟩
      exact hfull.symm
    · refine ⟨by omega, ?_⟩
      rintro _ others tier' score' ⟨-, rfl⟩ hothers
      rw [judgementOf, htied] at hothers
      cases hothers
      refine ⟨(narrower_iff hmany).mpr hstrict, ?_⟩
      rintro _ ⟨hlater, -⟩
      omega

/-- An utterance given again and again at an ask makes progress exactly when it is too large to be
judged or its verdict does no harm. -/
theorem progresses_iff {judge : Text → Question → Verdict} {seams : Seams Unit J}
    {unicode : Unicode} {session : Session (List Judgement) J} {node var : Text}
    {options : List Text} {routes : Table Text Text}
    (hreached : Reached (judging judge seams) unicode session)
    (hbudget : session.flow.bounds.budget ≤ usizeMax)
    (hask : Asking session node var options routes) (utterance : Text) :
    Progresses (judging judge seams) session options utterance ↔
      session.limits.get .utterance < bytes utterance ∨ ∀ tied tier score,
        (judge utterance (asked session node var options)).resolution =
          .ambiguous tied tier score → Harmless options tied (left session) := by
  have hsolvent := hreached.balanced
  by_cases hsize : session.limits.get .utterance < bytes utterance
  · refine iff_of_true (fun times count hrun => ?_) (.inl hsize)
    obtain ⟨judgement, hfirst, -⟩ := hrun 0 (Nat.zero_le _)
    rw [judgements_oversized hask hsize] at hfirst
    cases hfirst
  · rw [or_iff_right hsize]
    by_cases htie : ∃ tied tier score,
        (judge utterance (asked session node var options)).resolution = .ambiguous tied tier score
    · obtain ⟨tied, tier, score, htied⟩ := htie
      have hlist := @judgements_tied J judge seams utterance session node var options routes tied
        tier score hsolvent hbudget hask hsize htied
      refine (progresses_tied htied hlist).trans ⟨?_, fun h => h tied tier score htied⟩
      intro h others tier' score' hothers
      rw [htied] at hothers
      cases hothers
      exact h
    · refine iff_of_true (fun times count hrun => ?_) fun tied tier score htied =>
        absurd ⟨tied, tier, score, htied⟩ htie
      obtain ⟨judgement, hfirst, hambiguous⟩ := hrun 0 (Nat.zero_le _)
      rw [judgements_first hsolvent hbudget hask hsize times hfirst] at hambiguous
      exact absurd hambiguous htie

def constantly (resolution : Resolution) : Text → Question → Verdict := fun _ _ =>
  ⟨resolution, ⟨[], [], none⟩⟩

def tie : Resolution := .ambiguous [0, 1] .exact 1

def threeWays : List Text := ["north".toList, "south".toList, "west".toList]

def surveyed (resolution : Resolution) : Except BotError (Session (List Judgement) Unit) :=
  withComponentsAndLimits (judging (constantly resolution) (always resolution)) latin []
    (oneQuestion threeWays) [] () .shipped

theorem surveyed_asks (resolution : Resolution) : ∃ session routes,
    surveyed resolution = .ok session ∧
      Asking session "ask".toList "x".toList threeWays routes ∧ left session = 7 ∧
      session.flow.bounds.budget = 8 ∧ session.limits.get .utterance = 8192 :=
  ⟨_, _, rfl, ⟨rfl, rfl, rfl⟩, rfl, rfl, rfl⟩

/-- An utterance that is like no option is not ambiguous, however often it is given. -/
theorem progresses_absent : ∃ session, surveyed (.absent 0) = .ok session ∧
    Progresses (judging (constantly (.absent 0)) (always (.absent 0))) session threeWays
      "up".toList := by
  obtain ⟨session, routes, hstart, hask, -, hbudget, -⟩ := surveyed_asks (.absent 0)
  have hroom : session.flow.bounds.budget ≤ usizeMax := by
    rw [hbudget]
    decide
  refine ⟨session, hstart, (progresses_iff (.started hstart) hroom hask _).mpr (.inr ?_)⟩
  rintro tied tier score ⟨⟩

/-- Two of three options tie, and the next answer is resolved against all three. -/
theorem never_narrowed : ∃ session, surveyed tie = .ok session ∧
    ¬Progresses (judging (constantly tie) (always tie)) session threeWays "up".toList := by
  obtain ⟨session, routes, hstart, hask, hleft, hbudget, hlimit⟩ := surveyed_asks tie
  have hroom : session.flow.bounds.budget ≤ usizeMax := by
    rw [hbudget]
    decide
  have hsize : ¬session.limits.get .utterance < bytes "up".toList := by
    rw [hlimit]
    decide
  have hlist := @judgements_tied Unit (constantly tie) (always tie) _ _ _ _ _ _ [0, 1] .exact 1
    (Reached.started hstart).balanced hroom hask hsize rfl
  refine ⟨session, hstart, fun h => ?_⟩
  have htied : (constantly tie "up".toList (asked session "ask".toList "x".toList
      threeWays)).resolution = .ambiguous [0, 1] .exact 1 := rfl
  have hharmless := (progresses_tied htied hlist).mp h
  rw [hleft] at hharmless
  have hharmful : ¬Harmless threeWays [0, 1] 7 := by decide
  exact hharmful hharmless

end LogicalWorks.Session.Runner
