import LogicalWorks.Session.Runner

/-! The sizes computed before a text is built are the sizes of the text: of a value, of a template
under a scope, and of a prompt. -/
namespace LogicalWorks.Session

theorem bytes_append (left right : Text) : bytes (left ++ right) = bytes left + bytes right := by
  simp [bytes]

def spellPart : TemplatePart → Text
  | .literal text => text
  | .variable_ name => "$\x7b".toList ++ name ++ "\x7d".toList

def spell (parts : List TemplatePart) : Text := parts.flatMap spellPart

def spellOpen : Option Text → Text
  | none => []
  | some name => "$\x7b".toList ++ name

theorem spell_compileFrom {literal : Text} {marker : Option Text} {text : Text}
    {parts : List TemplatePart} (hmarker : marker.isSome → literal = [])
    (h : compileFrom literal marker text = .ok parts) :
    spell parts = literal ++ spellOpen marker ++ text := by
  fun_induction compileFrom literal marker text generalizing parts with
  | case1 =>
    cases h
    split <;> simp_all [spell, spellPart, spellOpen]
  | case2 literal rest ih =>
    obtain ⟨later, hlater, hparts⟩ := bind_eq_ok.mp h
    have hspell := ih (fun _ => rfl) hlater
    cases hparts
    split <;> simp_all [spell, spellPart, spellOpen]
  | case3 literal character rest _ ih =>
    rw [ih (by simp) h]
    simp [spellOpen]
  | case4 => cases h
  | case5 literal name rest hvalid ih =>
    obtain ⟨later, hlater, hparts⟩ := bind_eq_ok.mp h
    have hspell := ih (by simp) hlater
    cases hparts
    simp_all [spell, spellPart, spellOpen]
  | case6 => cases h
  | case7 literal name character rest hclose ih =>
    rw [ih (fun _ => hmarker rfl) h]
    simp [spellOpen]

theorem spell_compile {template : Text} {parts : List TemplatePart}
    (h : compile template = .ok parts) : spell parts = template := by
  simpa [spellOpen] using spell_compileFrom (by simp) h

def partText (scope : VarScope) : TemplatePart → Text
  | .literal text => text
  | .variable_ name => ((scope.get name).map Value.render).getD []

def rendering (scope : VarScope) (parts : List TemplatePart) : Text := parts.flatMap (partText scope)

def Bound (scope : VarScope) (parts : List TemplatePart) : Prop :=
  ∀ name, .variable_ name ∈ parts → (scope.get name).isSome

def Value.Fits : Value → Prop
  | .integer value => -2 ^ 63 ≤ value ∧ value < 2 ^ 63
  | .string _ | .boolean _ | .choice _ => True

def VarScope.Fits (scope : VarScope) : Prop :=
  ∀ name value, scope.get name = some value → value.Fits

theorem countDigits_eq {magnitude : Nat} (fuel : Nat) : ∀ digits, 0 < digits →
    magnitude < 10 ^ (digits + fuel) →
      countDigits magnitude fuel digits (10 ^ digits) =
        max digits (Nat.toDigits 10 magnitude).length := by
  induction fuel with
  | zero =>
    intro digits hpos hlt
    have hlength := (Nat.length_toDigits_le_iff (by decide) hpos).mpr hlt
    rw [countDigits, Nat.max_eq_left hlength]
  | succ fuel ih =>
    intro digits hpos hlt
    rw [countDigits]
    by_cases hreached : 10 ^ digits ≤ magnitude
    · have hmore : ¬(Nat.toDigits 10 magnitude).length ≤ digits := fun hle =>
        absurd ((Nat.length_toDigits_le_iff (by decide) hpos).mp hle) (Nat.not_lt.mpr hreached)
      rw [if_pos hreached, ← Nat.pow_succ,
        ih (digits + 1) (Nat.succ_pos _) (by rwa [Nat.add_assoc, Nat.add_comm 1 fuel])]
      omega
    · have hlength := (Nat.length_toDigits_le_iff (by decide) hpos).mpr (Nat.not_le.mp hreached)
      rw [if_neg hreached, Nat.max_eq_left hlength]

theorem bytes_toDigits (magnitude : Nat) :
    bytes (Nat.toDigits 10 magnitude) = (Nat.toDigits 10 magnitude).length := by
  have hone : ∀ digit ∈ Nat.toDigits 10 magnitude, digit.utf8Size = 1 := by
    intro digit hdigit
    have hascii := Nat.isDigit_of_mem_toDigits (by decide) (by decide) hdigit
    simp only [Char.isDigit, Bool.and_eq_true, decide_eq_true_eq] at hascii
    exact Char.utf8Size_eq_one_iff.mpr (UInt32.le_trans hascii.2 (by decide))
  rw [bytes, List.map_congr_left hone]
  simp

theorem integerBytes_eq {value : Int} (hlow : -2 ^ 63 ≤ value) (hhigh : value < 2 ^ 63) :
    integerBytes value = bytes (decimal value) := by
  have hmagnitude : value.natAbs < 10 ^ (1 + 20) := by omega
  have hdigits := countDigits_eq 20 1 Nat.one_pos hmagnitude
  rw [Nat.max_eq_right Nat.length_toDigits_pos, ← bytes_toDigits] at hdigits
  unfold integerBytes decimal
  rw [Nat.pow_one] at hdigits
  rw [hdigits]
  split
  · rw [Nat.add_comm]
    rfl
  · rfl

theorem renderedBytes_eq {value : Value} (h : value.Fits) :
    value.renderedBytes = bytes value.render := by
  cases value with
  | string text => rfl
  | choice text => rfl
  | boolean truth => cases truth <;> rfl
  | integer number => exact integerBytes_eq h.1 h.2

theorem checkedAdd_le {left right : Nat} (h : left + right ≤ usizeMax) :
    checkedAdd left right = some (left + right) := if_pos h

theorem checkedAdd_gt {left right : Nat} (h : usizeMax < left + right) :
    checkedAdd left right = none := if_neg (Nat.not_le.mpr h)

theorem expandedBytes_eq {scope : VarScope} (hfits : scope.Fits) (parts : List TemplatePart) :
    Bound scope parts → ∀ total, total ≤ usizeMax → expandedBytes scope parts total =
      if total + bytes (rendering scope parts) ≤ usizeMax then
        .ok (total + bytes (rendering scope parts))
      else .error (.templateExpansionTooLarge runtimeNode usizeMax usizeMax) := by
  induction parts with
  | nil =>
    intro _ total htotal
    exact (if_pos htotal).symm
  | cons part rest ih =>
    intro hbound total htotal
    have hrest : Bound scope rest := fun name hname => hbound name (List.mem_cons_of_mem _ hname)
    have hsize : bytes (rendering scope (part :: rest)) =
        bytes (partText scope part) + bytes (rendering scope rest) := bytes_append _ _
    have hstep : expandedBytes scope (part :: rest) total =
        (checkedAdd total (bytes (partText scope part))).elim
          (.error (.templateExpansionTooLarge runtimeNode usizeMax usizeMax))
          (expandedBytes scope rest) := by
      cases part with
      | literal text =>
        simp only [expandedBytes, partText, pure_bind]
        cases checkedAdd total (bytes text) <;> rfl
      | variable_ name =>
        obtain ⟨value, hvalue⟩ := Option.isSome_iff_exists.mp (hbound name List.mem_cons_self)
        simp only [expandedBytes, bound, hvalue, partText, Option.map_some, Option.getD_some,
          ← renderedBytes_eq (hfits name value hvalue), Except.map, ok_bind]
        cases checkedAdd total value.renderedBytes <;> rfl
    rw [hstep, hsize, ← Nat.add_assoc]
    by_cases hsum : total + bytes (partText scope part) ≤ usizeMax
    · rw [checkedAdd_le hsum]
      exact ih hrest _ hsum
    · rw [checkedAdd_gt (Nat.lt_of_not_le hsum), if_neg (by omega)]
      rfl

theorem renderParts_eq {scope : VarScope} {parts : List TemplatePart} (h : Bound scope parts) :
    renderParts scope parts = .ok (rendering scope parts) := by
  induction parts with
  | nil => rfl
  | cons part rest ih =>
    have hrest := ih fun name hname => h name (List.mem_cons_of_mem _ hname)
    cases part with
    | literal text =>
      rw [renderParts, hrest]
      rfl
    | variable_ name =>
      obtain ⟨value, hvalue⟩ := Option.isSome_iff_exists.mp (h name List.mem_cons_self)
      simp only [renderParts, bound, hvalue, hrest, rendering, List.flatMap_cons, partText]
      rfl

theorem interpolate_eq {template : Text} {parts : List TemplatePart} {scope : VarScope}
    (hcompile : compile template = .ok parts) (hbound : Bound scope parts) (hfits : scope.Fits)
    (node : Text) {limit : Nat} (hlimit : limit ≤ usizeMax) :
    (bytes (rendering scope parts) ≤ limit →
      interpolate template scope node limit = .ok (rendering scope parts)) ∧
    (limit < bytes (rendering scope parts) → ∃ place size most,
      interpolate template scope node limit = .error (.templateExpansionTooLarge place size most)) := by
  have hexpand := expandedBytes_eq hfits parts hbound 0 (Nat.zero_le _)
  rw [Nat.zero_add] at hexpand
  unfold interpolate
  rw [hcompile]
  constructor
  · intro hroom
    have hsmall := Nat.le_trans hroom hlimit
    rw [if_pos hsmall] at hexpand
    simp only [Except.mapError, ok_bind, hexpand, require, if_pos hroom]
    exact renderParts_eq hbound
  · intro hlarge
    simp only [Except.mapError, ok_bind, hexpand]
    split
    · refine ⟨node, bytes (rendering scope parts), limit, ?_⟩
      simp only [ok_bind, require, if_neg (Nat.not_le.mpr hlarge)]
      rfl
    · exact ⟨_, _, _, rfl⟩

open Runner in
theorem foldl_saturatingAdd (options : List Text) : ∀ total, total ≤ usizeMax →
    options.foldl (fun total option => saturatingAdd total (bytes option)) total =
      min (total + (options.map bytes).sum) usizeMax := by
  induction options with
  | nil =>
    intro total htotal
    exact (Nat.min_eq_left htotal).symm
  | cons option rest ih =>
    intro total _
    have hsum : ((option :: rest).map bytes).sum = bytes option + (rest.map bytes).sum := rfl
    have hkept : saturatingAdd total (bytes option) ≤ usizeMax := Nat.min_le_right _ _
    rw [List.foldl_cons, ih _ hkept, hsum]
    unfold saturatingAdd
    omega

open Runner in
theorem bytes_join (separator : Text) (texts : List Text) :
    bytes (join separator texts) =
      (texts.map bytes).sum + (texts.length - 1) * bytes separator := by
  induction texts with
  | nil => simp [join, bytes]
  | cons text rest ih =>
    cases rest with
    | nil => simp [join]
    | cons next others =>
      rw [join, bytes_append, bytes_append, ih]
      simp only [List.map_cons, List.sum_cons, List.length_cons]
      rw [Nat.add_sub_cancel, Nat.add_sub_cancel, Nat.succ_mul]
      omega

open Runner in
theorem promptBytes_eq (options : List Text) :
    promptBytes options = min (bytes (prompt options)) usizeMax := by
  have hprefix : bytes promptPrefix ≤ usizeMax := by decide
  unfold promptBytes prompt
  rw [foldl_saturatingAdd options _ hprefix, bytes_append, bytes_join]
  unfold saturatingAdd saturatingMul
  omega

open Runner in
/-- What is measured before a text is built is the text that is built. -/
theorem sizes_exact :
    (∀ template parts, compile template = .ok parts → spell parts = template) ∧
      (∀ template parts scope node limit, compile template = .ok parts → Bound scope parts →
        scope.Fits → limit ≤ usizeMax →
          renderParts scope parts = .ok (rendering scope parts) ∧
          (bytes (rendering scope parts) ≤ usizeMax →
            expandedBytes scope parts 0 = .ok (bytes (rendering scope parts))) ∧
          (bytes (rendering scope parts) ≤ limit →
            interpolate template scope node limit = .ok (rendering scope parts)) ∧
          (limit < bytes (rendering scope parts) → ∃ place size most,
            interpolate template scope node limit =
              .error (.templateExpansionTooLarge place size most))) ∧
      (∀ value : Value, value.Fits → value.renderedBytes = bytes value.render) ∧
      ∀ options, promptBytes options = min (bytes (prompt options)) usizeMax := by
  refine ⟨fun _ _ => spell_compile, ?_, fun _ => renderedBytes_eq, promptBytes_eq⟩
  intro template parts scope node limit hcompile hbound hfits hlimit
  refine ⟨renderParts_eq hbound, fun hsize => ?_, interpolate_eq hcompile hbound hfits node hlimit⟩
  rw [expandedBytes_eq hfits parts hbound 0 (Nat.zero_le _), Nat.zero_add, if_pos hsize]

def leastScope : VarScope :=
  ⟨Table.empty.insert "x".toList .integer, Table.empty.insert "x".toList (.integer (-2 ^ 63))⟩

theorem sizes_exact_least :
    interpolate "n = ${x}".toList leastScope runtimeNode 24 =
      .ok "n = -9223372036854775808".toList := by
  have hcompile : compile "n = ${x}".toList =
      .ok [.literal "n = ".toList, .variable_ "x".toList] := by decide
  have hbound : Bound leastScope [.literal "n = ".toList, .variable_ "x".toList] := by
    intro name hname
    simp only [List.mem_cons, reduceCtorEq, TemplatePart.variable_.injEq, List.not_mem_nil,
      or_false, false_or] at hname
    subst hname
    decide
  have hfits : leastScope.Fits := by
    intro name value hvalue
    rw [VarScope.get, leastScope, Table.get_insert, Table.get_empty] at hvalue
    split at hvalue <;> cases hvalue
    exact ⟨by decide, by decide⟩
  exact (sizes_exact.2.1 _ _ leastScope runtimeNode 24 hcompile hbound hfits (by decide)).2.2.1
    (by decide)

def doubled : TemplatePart → Text
  | .literal text => text
  | .variable_ name => "\x7b\x7b".toList ++ name ++ "\x7d\x7d".toList

/-- A marker is written with a dollar sign and one pair of braces. -/
theorem braces_not_doubled :
    ¬∀ template parts, compile template = .ok parts → parts.flatMap doubled = template := by
  intro h
  have hdoubled := h "$\x7bx\x7d".toList [.variable_ "x".toList] (by decide)
  revert hdoubled
  decide

end LogicalWorks.Session
